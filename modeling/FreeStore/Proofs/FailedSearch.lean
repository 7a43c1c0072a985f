import FreeStore.Proofs.Reachable
import FreeStore.Proofs.Waiting
/-!
What a refused request leaves on record.

A search that finds nothing has seen every entry from its start to the end of the list, and what it realigns
on its way lies behind it: so the largest entry that it saw is the largest one from its start on
(`search_surveys`). It starts at the head of the list, or else at a hint. The largest entry that a refused
request puts on record is therefore the largest one of the list, unless a larger one lies below the hint from
which the last search started (`refused_records_largest_searched`).
-/
namespace FreeStore

namespace FreeList

variable {l k : FreeList}

/-- Pieces that go on a shorter list came from the longer one. -/
theorem Shrinks.cons {e : Entry} {pieces : FreeList} (within : Within e pieces) (h : l.Shrinks k) :
    Shrinks (e :: l) (pieces ++ k) := by
  intro f hf
  rcases List.mem_append.1 hf with piece | later
  · exact ⟨e, List.mem_cons_self, within f piece⟩
  · obtain ⟨d, hd, inside⟩ := h f later
    exact ⟨d, List.mem_cons_of_mem _ hd, inside⟩

end FreeList

namespace Pool

variable {p q r m : Pool} {size : Nat} {record : Bool} {w : Walk} {e : Entry} {l before after : FreeList}
  {reserve : List Refill}

/-! ## One search -/

/-- Reaching an entry leaves only entries behind it waiting. If none in front of it was waiting, they stay as
they are. -/
theorem reach_settles (h : p.Sound) (hp : p.entries = before ++ e :: after) :
    Yields (p.reach e) fun s => s.1.WaitsIn after ∧
      (p.WaitsIn (e :: after) → s.1.entries = before ++ s.2.toList ++ after) := by
  unfold reach
  split
  · rename_i due
    apply (alignThrough_ends (.inl trivial) h hp due).mono
    rintro ⟨q, found⟩ ⟨sound, -, rfl, advances⟩
    refine ⟨advances.waitsIn sound, fun waits => ?_⟩
    obtain ⟨first, cursor, -, -, entries⟩ := advances
    have pending := (awaits_iff.1 due).1
    have front : ∀ f ∈ before, f.start < first := by
      intro f hf
      by_contra reached
      have later := waits f (by simp [hp, hf]) (awaits_iff.2 ⟨pending, first, cursor, by omega⟩)
      have apart := (FreeList.tracked_append.1 (hp ▸ h.tracked)).2.2 f hf f later
      have size := h.size_pos (e := f) (by simp [hp, hf])
      simp only [Entry.top] at apart
      omega
    have settled := FreeList.below_append (k := []) front (by simp)
    have due := FreeList.upFrom_append (k := []) front (by simp)
    rw [List.append_nil] at settled due
    rw [entries, alignedFrom, settled, due, List.filterMap_nil, List.append_nil]
  · rename_i settled
    exact ⟨waitsIn_of_not_awaits h hp (by simpa using settled), fun _ => by simpa using hp⟩

/-- A search that finds nothing has seen all that is left of the entries it was to go down, and the largest of
them. -/
theorem search_surveys (h : p.Sound) (hp : p.entries = before ++ l) :
    Yields (search size l p w) fun s => s.2.2 = none → s.1.Sound ∧
      ∃ before' seen, s.1.entries = before' ++ seen ∧ before.Shrinks before' ∧ l.Shrinks seen ∧
        s.2.1.largest = max w.largest seen.largest ∧ (p.WaitsIn l → before' = before) := by
  induction l generalizing p w before with
  | nil =>
    intro _
    exact ⟨h, before, [], hp, .refl _, .refl _, (Nat.max_zero _).symm, fun _ => rfl⟩
  | cons d rest ih =>
    rw [search]
    apply ((reach_ends (.inl trivial) h hp).and (reach_settles h hp)).bind
    rintro ⟨q, found⟩ ⟨⟨sound, -, -, within, before₁, shrinks, entries⟩, behind, kept⟩
    dsimp only at sound entries within behind kept
    have same (waits : p.WaitsIn (d :: rest)) : before₁ = before :=
      List.append_cancel_right (List.append_cancel_right (entries.symm.trans (kept waits)))
    cases found with
    | none =>
      simp only [Option.toList_none, List.append_nil] at entries within
      apply (ih sound entries).mono
      rintro s surveyed missed
      obtain ⟨sound', before₂, seen, entries', -, shrinks', largest, front⟩ := surveyed missed
      obtain rfl := front behind
      exact ⟨sound', before₂, seen, entries', shrinks, .cons within shrinks', largest, same⟩
    | some e =>
      simp only [Option.toList_some] at entries within
      dsimp only
      split
      · rintro ⟨⟩
      · apply (ih sound entries).mono
        rintro s surveyed missed
        obtain ⟨sound', before₂, seen, entries', -, shrinks', largest, front⟩ := surveyed missed
        obtain rfl := front behind
        refine ⟨sound', before₁, e :: seen, ?_, shrinks, .cons within shrinks', ?_, same⟩
        · rw [entries', List.append_assoc, List.singleton_append]
        · rw [largest, FreeList.largest_cons, ← Nat.max_assoc]
          rfl

/-- What is left of the list still lies on the same side of an entry. -/
theorem upFrom_of_shrinks {a : Nat} {seen : FreeList} (h : p.Sound) (sound : q.Sound)
    (start : p.entries.startsAt a = true) (front : (p.entries.below a).Shrinks before)
    (back : (p.entries.upFrom a).Shrinks seen) (hq : q.entries = before ++ seen) :
    q.entries.upFrom a = seen := by
  have tracked := FreeList.below_append_upFrom a p.entries ▸ h.tracked
  obtain ⟨-, upper, across⟩ := FreeList.tracked_append.1 tracked
  have low : ∀ f ∈ before, f.start < a := by
    intro f hf
    obtain ⟨e, he, inside⟩ := front f hf
    obtain ⟨d, hd, rfl⟩ := FreeList.startsAt_iff.1 start
    have behind : d ∈ p.entries.upFrom d.start := by
      rcases List.mem_append.1 (FreeList.below_append_upFrom d.start p.entries ▸ hd) with below | above
      · have := FreeList.start_lt_of_mem_below below
        omega
      · exact above
    have apart := across e he d behind
    have size := sound.size_pos (e := f) (by simp [hq, hf])
    simp only [Entry.top] at inside apart
    omega
  have high : ∀ f ∈ seen, a ≤ f.start := by
    intro f hf
    obtain ⟨e, he, inside⟩ := back f hf
    exact Nat.le_trans (h.tracked.le_start_of_mem_upFrom h.minEntry_pos he) inside.1
  rw [hq, FreeList.upFrom_append low high]

/-- Where a search for `size` bytes starts: at a hint, or else at the head of the list. -/
def searchStart (p : Pool) (size : Nat) : Nat := (p.findHint size).2.elim 0 Hint.entry

theorem firstFit_surveys (h : p.Sound) :
    Yields (p.firstFit size) fun s => s.2.2.1 = none →
      s.2.1.largest = (s.1.entries.upFrom (p.searchStart size)).largest := by
  obtain ⟨sound, -, entries, -⟩ := findHint_of_sound h size
  have starts : ∀ hint ∈ (p.findHint size).2, p.entries.startsAt hint.entry = true := by
    intro hint found
    exact (Option.mem_filter_iff.1 found).2
  unfold firstFit searchStart
  generalize p.findHint size = found at *
  obtain ⟨q, hint⟩ := found
  simp only at *
  cases hint with
  | none =>
    simp only [Option.elim_none]
    apply (search_surveys sound (List.nil_append _).symm).bind
    rintro ⟨r, w, found⟩ surveyed missed
    obtain ⟨-, before', seen, entries', shrinks, -, largest, -⟩ := surveyed missed
    obtain rfl := shrinks.eq_nil
    have all : FreeList.upFrom 0 ([] ++ seen) = seen := FreeList.upFrom_append (by simp) (by simp)
    dsimp only at entries' largest ⊢
    rw [entries', all, largest, Nat.zero_max]
  | some hint =>
    simp only [Option.elim_some]
    have split := FreeList.below_append_upFrom hint.entry q.entries
    apply (search_surveys sound split.symm).bind
    rintro ⟨r, w, found⟩ surveyed missed
    obtain ⟨sound', before', seen, entries', front, back, largest, -⟩ := surveyed missed
    have from_hint := upFrom_of_shrinks sound sound' (entries ▸ starts hint rfl) front back entries'
    dsimp only at from_hint largest ⊢
    rw [from_hint, largest, Nat.zero_max]

theorem place_surveys (h : p.Sound) :
    Yields (p.place size record) fun s => s.2.2 = none →
      s.2.1.largest = (s.1.entries.upFrom (p.searchStart size)).largest := by
  unfold place
  apply (firstFit_surveys h).bind
  rintro ⟨q, w, found, hinted⟩ surveyed
  cases found with
  | none => exact fun _ => surveyed rfl
  | some e => exact .any fun r => ends_pure.2 (by simp)

/-! ## Requests -/

/-- The last search of a request starts from the pool `m`, and what the owner does on being asked then changes
no entry: it has nothing left in reserve, or refuses. -/
inductive LastSearch (size : Nat) (record : Bool) : List Refill → Pool → Pool → Prop
  | exhausted {p : Pool} : LastSearch size record [] p p
  | refused {refill : Refill} {rest : List Refill} {p : Pool} (answer : refill.answer = false)
      (unchanged : ∀ q ∈ p.askForObject size record,
        ∀ r ∈ (q.takeRefill refill rest).toOption, r.entries = q.entries) :
      LastSearch size record (refill :: rest) p p
  | granted {refill : Refill} {rest : List Refill} {p q r m : Pool} (answer : refill.answer = true)
      (asks : q ∈ p.askForObject size record) (taken : q.takeRefill refill rest = .ok r)
      (last : LastSearch size record rest r m) : LastSearch size record (refill :: rest) p m

theorem allocateFrom_surveys (h : p.Sound) (hr : p.reserve = reserve)
    (fits : RefillsFit (askForObject size record) (fun _ => True) reserve p)
    (last : LastSearch size record reserve p m) :
    Yields (allocateFrom size record reserve p) fun s => s.2 = none →
      s.1.largest = (s.1.entries.upFrom (m.searchStart size)).largest := by
  induction last with
  | exhausted =>
    rw [allocateFrom, tryPlace_eq h]
    apply (place_surveys h).bind
    rintro ⟨q, w, found⟩ surveyed
    cases found with
    | none => exact fun _ => surveyed rfl
    | some a => exact fun missed => by cases missed
  | @refused refill rest p answer unchanged =>
    rw [allocateFrom, tryPlace_eq h]
    apply (place_surveys h).and_eq.bind
    rintro ⟨q, w, found⟩ ⟨placed, surveyed⟩
    cases found with
    | some a => exact fun missed => by cases missed
    | none =>
      have kept := unchanged _ (askForObject_eq ((tryPlace_eq h).trans placed))
      simp only [answer, Bool.false_eq_true, if_false]
      cases taken : (q.report (.replenish size)).takeRefill refill rest with
      | error f => trivial
      | ok r =>
        intro _
        show w.largest = FreeList.largest (FreeList.upFrom _ r.entries)
        rw [kept r (mem_toOption.2 taken)]
        exact surveyed rfl
  | @granted refill rest p q r m answer asks taken last ih =>
    rw [allocateFrom, tryPlace_eq h]
    apply (place_ends (.inl trivial) h).and_eq.bind
    rintro ⟨q', w, found⟩ ⟨placed, sound, effect, -⟩
    have missed := askForObject_eq ((tryPlace_eq h).trans placed) ▸ asks
    cases found with
    | some a => cases missed
    | none =>
      obtain rfl := Option.some_inj.1 missed
      obtain ⟨deliveries, next⟩ := fits.2 _ asks
      have refills : Yields _ _ := takeRefill_ends 0 0 (.inl trivial) sound effect hr deliveries
      obtain ⟨sound', left, -⟩ := refills.of_ok taken
      simp only [taken, ok_bind, answer, if_true]
      exact ih sound' left (next r (mem_toOption.2 taken) answer)

/-- A request that comes to nothing, and on which the owner in the end changed no entry, puts the largest entry
on record that lies at or above the start of the last search. That is the largest one of all exactly if no
entry below is larger, so always where the search started at the head of the list. -/
theorem refused_records_largest_searched (h : p.Reachable) {client : Client} {request answered : Request}
    (accepts : p.nextStep.Accepts (.allocate client request))
    (last : LastSearch request.bytes (p.nextStep.recordsFor client) p.nextStep.reserve p.nextStep m)
    (done : p.step (.allocate client request) = .ok (q, .object answered none)) :
    q.largest = (q.entries.upFrom (m.searchStart request.bytes)).largest ∧
      (q.isExact = true ↔ ∀ e ∈ q.entries.below (m.searchStart request.bytes), e.size ≤ q.largest) := by
  have sound := (Reachable.step h accepts done).sound
  have record : q.largest = (q.entries.upFrom (m.searchStart request.bytes)).largest := by
    have surveys := allocateFrom_surveys h.nextStep.sound rfl accepts last
    simp only [step, perform, allocate, bind_assoc] at done
    cases from_reserve : allocateFrom request.bytes (p.nextStep.recordsFor client) p.nextStep.reserve
        p.nextStep with
    | error f =>
      rw [from_reserve] at done
      cases done
    | ok s =>
      rw [from_reserve] at done surveys
      obtain ⟨r, got⟩ := s
      cases got with
      | none =>
        cases done
        exact surveys rfl
      | some a => cases done
  refine ⟨record, ?_⟩
  have whole := congrArg FreeList.largest
    (FreeList.below_append_upFrom (m.searchStart request.bytes) q.entries)
  rw [FreeList.largest_append, ← record] at whole
  rw [isExact, sound.isConsistent, Bool.true_and, beq_iff_eq, ← FreeList.largest_le_iff]
  omega

/-- The owner grants a request for 700 bytes an entry of 550 and has nothing left then. Both searches start at
the hint at 1000, so the entry of 600 bytes below it does not count. -/
theorem refused_records_largest_after_refill : ∃ p q : Pool,
    p.entries = [⟨0, 600⟩, ⟨1000, 512⟩] ∧
    p.step (.allocate .mutator { bytes := 700 }) = .ok (q, .object { bytes := 700 } none) ∧
    q.entries = [⟨0, 600⟩, ⟨1000, 512⟩, ⟨4000, 550⟩] ∧ q.largest = (q.entries.upFrom 1000).largest ∧
    (q.isExact = true ↔ ∀ e ∈ q.entries.below 1000, e.size ≤ q.largest) := by
  let refill : Refill := ⟨[.expand 4000 4550 false], true⟩
  obtain ⟨s, done⟩ : ∃ s, s ∈ ((fresh { hintMaxWalk := 2 }).run [.setSubspace ⟨.old, none, false, [refill]⟩,
      .expand 600 0 600 false, .expand 512 1000 1512 false, .expand 1000 2000 3000 false,
      .allocate .mutator { bytes := 700 }]).toOption :=
    Option.isSome_iff_exists.1 (by decide +kernel)
  obtain ⟨entries, reserve, accepts, ⟨t, after, answer, entries'⟩, m, asks, r, taken, start⟩ :
      s.1.entries = [⟨0, 600⟩, ⟨1000, 512⟩] ∧ s.1.nextStep.reserve = [refill] ∧
      s.1.nextStep.Accepts (.allocate .mutator { bytes := 700 }) ∧
      (∃ t ∈ (s.1.step (.allocate .mutator { bytes := 700 })).toOption,
        t.2 = .object { bytes := 700 } none ∧ t.1.entries = [⟨0, 600⟩, ⟨1000, 512⟩, ⟨4000, 550⟩]) ∧
      ∃ m ∈ s.1.nextStep.askForObject 700 true,
        ∃ r ∈ (m.takeRefill refill []).toOption, r.searchStart 700 = 1000 := by
    revert s
    decide +kernel
  have made : create { hintMaxWalk := 2 } = .ok (fresh { hintMaxWalk := 2 }) := by decide +kernel
  have reachable := (Reachable.create made).run (by decide +kernel) (mem_toOption.1 done)
  have last : LastSearch 700 true s.1.nextStep.reserve s.1.nextStep r :=
    reserve ▸ .granted rfl asks (mem_toOption.1 taken) .exhausted
  have step : s.1.step (.allocate .mutator { bytes := 700 }) = .ok (t.1, .object { bytes := 700 } none) :=
    answer ▸ mem_toOption.1 after
  exact ⟨s.1, t.1, entries, step, entries',
    start ▸ refused_records_largest_searched reachable accepts last step⟩

/-- Two requests for 700 bytes, and the second one finds nothing: it starts at the hint that the first one left
and does not see the entry of 600 bytes below, so 512 bytes go on record as the largest entry. -/
theorem refused_below_hint_records_less : ∃ p q : Pool, p.Reachable ∧ p.subspace = none ∧
    p.entries = [⟨0, 600⟩, ⟨1000, 512⟩] ∧
    p.step (.allocate .mutator { bytes := 700 }) = .ok (q, .object { bytes := 700 } none) ∧
    q.entries = p.entries ∧ q.largest = 512 ∧ q.entries.largest = 600 ∧ q.isExact = false := by
  obtain ⟨s, done⟩ : ∃ s, s ∈ ((fresh { hintMaxWalk := 2 }).run [.expand 600 0 600 false,
      .expand 512 1000 1512 false, .expand 1000 2000 3000 false,
      .allocate .mutator { bytes := 700 }]).toOption :=
    Option.isSome_iff_exists.1 (by decide +kernel)
  obtain ⟨r, next⟩ : ∃ r, r ∈ (s.1.step (.allocate .mutator { bytes := 700 })).toOption := by
    apply Option.isSome_iff_exists.1
    revert s
    decide +kernel
  have made : create { hintMaxWalk := 2 } = .ok (fresh { hintMaxWalk := 2 }) := by decide +kernel
  obtain ⟨owner, entries, answer, after⟩ : s.1.subspace = none ∧ s.1.entries = [⟨0, 600⟩, ⟨1000, 512⟩] ∧
      r.2 = .object { bytes := 700 } none ∧ r.1.entries = s.1.entries ∧ r.1.largest = 512 ∧
      r.1.entries.largest = 600 ∧ r.1.isExact = false := by
    revert r
    revert s
    decide +kernel
  exact ⟨s.1, r.1, (Reachable.create made).run (by decide +kernel) (mem_toOption.1 done), owner, entries,
    answer ▸ mem_toOption.1 next, after⟩

end Pool

end FreeStore
