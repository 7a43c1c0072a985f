import FreeStore.Proofs.Reachable
/-!
No byte is lost or handed out twice.

An operation that trades memory leaves every byte in one place: it is free, or it was handed out, or the
owner was told that it is dropped. So as long as callers put in only what they hold, nobody holds a byte that
is free, or one that somebody else holds (`Custody`).
-/
namespace FreeStore

/-- Does the operation hand memory in or out, range by range? -/
def Pool.Operation.trades : Pool.Operation → Bool
  | .allocate _ _ | .allocateTlh _ _ _ | .expand _ _ _ _ | .contract _ _ _ | .add _ | .recycle _ _
  | .remove _ _ _ => true
  | _ => false

/-- A run leads to the pool in which callers hold the ranges `held` in the end, the owner included. What
they hold and what they put in during a step is what they held before, what they got, and what was reported
to be dropped; so they have put in only what was theirs. -/
inductive Pool.Custody : Pool → List Range → Prop
  | create {config : PoolConfig} {p : Pool} {held : List Range} (made : Pool.create config = .ok p)
      (apart : held.Pairwise Range.Apart) : Custody p held
  | step {p q : Pool} {o : Pool.Operation} {answer : Pool.Answer} {held held' : List Range}
      (h : Custody p held) (accepts : p.nextStep.Accepts o) (done : p.step o = .ok (q, answer))
      (settled : ∀ a, cover held' a + cover (p.nextStep.handedIn q o) a =
        cover held a + cover (p.nextStep.handedOut o answer) a + cover (PoolEvent.dropped q.events) a) :
      Custody q held'

namespace Pool

variable {p q : Pool} {o : Operation} {answer : Answer} {held : List Range} {low high a : Nat}
  {ranges : List Range}

/-! ## What is put in was not free -/

theorem Insertable.cover_le_one (h : p.Insertable low high) (hp : p.entries.cover a ≤ 1) :
    p.entries.cover a + cover [⟨low, high⟩] a ≤ 1 := by
  rw [cover_cons, cover_nil, Nat.add_zero, Range.hits]
  split
  · rename_i inside
    simp only at inside
    have none : p.entries.cover a = 0 := FreeList.cover_eq_zero fun e he => by
      have := h.clear e he
      omega
    omega
  · exact hp

theorem BatchFits.cover_le_one (h : p.BatchFits ranges) (hp : p.entries.cover a ≤ 1) :
    p.entries.cover a + cover ranges a ≤ 1 := by
  have once : cover ranges a ≤ 1 := cover_le_one_of_pairwise (h.apart.imp Range.apart_of_le)
  rcases Nat.eq_zero_or_pos (cover ranges a) with none | some
  · omega
  · obtain ⟨r, hr, inside⟩ := cover_pos.1 some
    have alone : p.entries.cover a + cover [r] a ≤ 1 := (h.insertable r hr).cover_le_one hp
    have := Range.hits_pos.2 inside
    rw [cover_cons, cover_nil] at alone
    omega

/-- Without deliveries from the owner, free bytes and bytes put in are different bytes. -/
theorem cover_handedIn_le_one (h : p.Sound) (trades : o.trades = true) (accepts : p.Accepts o)
    (nothing : ∀ f ∈ p.reserve, f.deliveries = []) :
    p.entries.cover a + cover (p.handedIn q o) a ≤ 1 := by
  have free := h.tracked.cover_le_one (a := a)
  have delivered : (p.usedRefills q).flatMap Refill.ranges = [] := by
    refine List.flatMap_eq_nil_iff.2 fun f hf => ?_
    simp [Refill.ranges, nothing f (List.take_subset _ _ hf)]
  cases o with
  | allocate client request => simpa [handedIn, delivered] using free
  | allocateTlh client request maximum => simpa [handedIn, delivered] using free
  | expand size low high coalesce => exact accepts.2.cover_le_one free
  | contract size low high => simpa [handedIn] using free
  | add ranges => exact BatchFits.cover_le_one accepts free
  | recycle low high => exact Insertable.cover_le_one accepts free
  | remove low high minimum => simpa [handedIn] using free
  | _ => cases trades

/-! ## Steps and runs -/

theorem conserves_of_trades (h : o.trades = true) : o.conserves = true := by
  cases o <;> first | rfl | cases h

theorem account_nextStep : p.nextStep.account a = p.entries.cover a := Nat.add_zero _

/-- What a step leaves behind is what was there, in pieces. -/
theorem partitions_of_booked (booked : p.nextStep.Booked o q answer) (recorded : p.isRecorded = true)
    (conserves : o.conserves = true)
    (once : ∀ a, p.entries.cover a + cover (p.nextStep.handedIn q o) a ≤ 1) :
    Partitions (q.entries.ranges ++ p.nextStep.handedOut o answer ++ PoolEvent.dropped q.events)
      (p.entries.ranges ++ p.nextStep.handedIn q o) := by
  refine partitions_of_cover (fun a => ?_) fun a => ?_
  · have equal := (booked a).2 (by rw [conserves, Bool.and_true]; exact recorded)
    rw [account_nextStep] at equal
    simp only [account, FreeList.cover, cover_append] at equal ⊢
    omega
  · rw [cover_append]
    exact once a

/-- What callers hold is not free, and nothing is held twice. -/
theorem Custody.cover_le_one (h : p.Custody held) :
    p.Sound ∧ ∀ a, cover held a + p.entries.cover a ≤ 1 := by
  induction h with
  | create made apart =>
    refine ⟨sound_create made, fun a => ?_⟩
    obtain ⟨-, rfl⟩ := eq_fresh_of_create made
    exact cover_le_one_of_pairwise apart
  | step _ accepts done settled ih =>
    obtain ⟨sound, once⟩ := ih
    have ends := step_ends (F := fun _ => True) (.inl trivial) sound accepts (.inl fun _ _ => trivial)
      (.inl trivial)
    obtain ⟨sound', booked⟩ := ends.of_ok done
    refine ⟨sound', fun a => ?_⟩
    have kept := (booked a).1
    have := settled a
    have := once a
    rw [account_nextStep] at kept
    simp only [account] at kept
    omega

/-- Every byte of a step is free, handed out, or reported afterwards, and just one of these; the step ends
with a result unless a running count overflows. So in a run in which callers put in only what they hold,
ranges that are held and ranges that are free never overlap. -/
theorem bytes_conserved :
    (∀ {p : Pool} {o : Operation}, p.Reachable → p.isRecorded = true → o.trades = true →
      p.nextStep.Accepts o → (∀ f ∈ p.reserve, f.deliveries = []) →
      (∀ {q answer}, p.step o = .ok (q, answer) →
        Partitions (q.entries.ranges ++ p.nextStep.handedOut o answer ++ PoolEvent.dropped q.events)
          (p.entries.ranges ++ p.nextStep.handedIn q o)) ∧
      (p.nextStep.AcceptsOnGrid o → p.nextStep.StaysInRange o →
        ∀ f, p.step o = .error f → f = .counterOverflow)) ∧
    ∀ {p : Pool} {held : List Range}, p.Custody held →
      (held ++ p.entries.ranges).Pairwise Range.Apart := by
  refine ⟨fun {p o} reachable recorded trades accepts nothing =>
    ⟨fun {q _} done => ?_, fun grid range f => ?_⟩, fun custody => ?_⟩
  · have ends := step_ends (F := fun _ => True) (.inl trivial) reachable.sound accepts
      (.inl fun _ _ => trivial) (.inl trivial)
    have once : ∀ a, p.nextStep.entries.cover a + cover (p.nextStep.handedIn q o) a ≤ 1 := fun a =>
      cover_handedIn_le_one reachable.sound.nextStep trades accepts nothing
    exact partitions_of_booked (ends.of_ok done).2 recorded (conserves_of_trades trades) once
  · have ends := step_ends (F := fun f => f = .counterOverflow) (.inl rfl) reachable.sound accepts (.inr grid)
      (.inr range)
    exact ends.of_error
  · refine pairwise_of_cover_le_one fun a => ?_
    rw [cover_append]
    exact custody.cover_le_one.2 a

/-- An object of 600 bytes is taken off 1024. What is left is too small for an entry, so the owner is told of
it and holds it from then on. -/
theorem bytes_conserved_of_small_rest : ∃ p q : Pool,
    p.entries = [⟨0, 1024⟩] ∧ q.entries = [] ∧
    p.step (.allocate .mutator { bytes := 600 }) = .ok (q, .object ⟨600, false, false⟩ (some 0)) ∧
    Partitions [⟨0, 600⟩, ⟨600, 1024⟩] [⟨0, 1024⟩] ∧
    (∀ f, p.step (.allocate .mutator { bytes := 600 }) = .error f → f = .counterOverflow) ∧
    [⟨0, 600⟩, ⟨600, 1024⟩, (⟨2000, 3000⟩ : Range)].Pairwise Range.Apart := by
  let owns : Operation := .setSubspace ⟨.old, none, true, []⟩
  let expands : Operation := .expand 1024 0 1024 true
  let allocates : Operation := .allocate .mutator { bytes := 600 }
  have made : create {} = .ok (fresh {}) := by decide +kernel
  obtain ⟨r, runs⟩ : ∃ r, r ∈ ((fresh {}).run [owns, expands, allocates]).toOption :=
    Option.isSome_iff_exists.1 (by decide +kernel)
  obtain ⟨o, _, _, owned, runs⟩ := run_cons_eq_ok (mem_toOption.1 runs)
  obtain ⟨p, _, _, expanded, runs⟩ := run_cons_eq_ok runs
  obtain ⟨q, answer, _, done, -⟩ := run_cons_eq_ok runs
  have facts : ∀ r ∈ ((fresh {}).step owns).toOption,
      (r.1.nextStep.Accepts expands ∧ PoolEvent.dropped r.1.events = [] ∧ r.2 = .done) ∧
      ∀ s ∈ (r.1.step expands).toOption,
        (s.1.nextStep.Accepts allocates ∧ PoolEvent.dropped s.1.events = [] ∧ s.2 = .done) ∧
        (s.1.entries = [⟨0, 1024⟩] ∧ s.1.isRecorded = true ∧ s.1.nextStep.AcceptsOnGrid allocates ∧
          ∀ f ∈ s.1.reserve, f.deliveries = []) ∧
        ∀ t ∈ (s.1.step allocates).toOption,
          t.1.entries = [] ∧ t.2 = .object ⟨600, false, false⟩ (some 0) ∧
          PoolEvent.dropped t.1.events = [⟨600, 1024⟩] ∧ s.1.nextStep.handedIn t.1 allocates = [] := by
    decide +kernel
  obtain ⟨⟨fits, silent₁, rfl⟩, facts⟩ := facts _ (mem_toOption.2 owned)
  obtain ⟨⟨asks, silent₂, rfl⟩, ⟨entries, recorded, grid, nothing⟩, facts⟩ :=
    facts _ (mem_toOption.2 expanded)
  obtain ⟨emptied, rfl, dropped, delivered⟩ := facts _ (mem_toOption.2 done)
  have free : (fresh {}).nextStep.Accepts owns := trivial
  have reachable : p.Reachable := ((Reachable.create made).step free owned).step fits expanded
  have before : Custody (fresh {}) [⟨0, 1024⟩, ⟨2000, 3000⟩] :=
    .create made (List.pairwise_pair.2 (Range.apart_of_le (by decide)))
  have before : Custody o [⟨0, 1024⟩, ⟨2000, 3000⟩] :=
    before.step free owned fun a => by simp [owns, handedIn, handedOut, silent₁]
  have before : Custody p [⟨2000, 3000⟩] := before.step fits expanded fun a => by
    simp only [expands, handedIn, handedOut, silent₂, cover_cons, cover_nil]
    omega
  have after : Custody q [⟨0, 600⟩, ⟨600, 1024⟩, ⟨2000, 3000⟩] := before.step asks done fun a => by
    simp only [allocates, handedOut, delivered, dropped, cover_cons, cover_nil, Nat.zero_add]
    omega
  have once := bytes_conserved.1 reachable recorded rfl asks nothing
  have parts := once.1 done
  have apart := bytes_conserved.2 after
  rw [emptied] at apart
  rw [entries, emptied, dropped, delivered] at parts
  exact ⟨p, q, entries, emptied, done, parts, once.2 grid trivial, apart⟩

end Pool

end FreeStore
