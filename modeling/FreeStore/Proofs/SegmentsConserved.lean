import Mathlib.Algebra.Ring.Nat
import FreeStore.Proofs.Holdings
/-!
Segments are never lost.

The segments that the raw allocator ever supplied are numbered in order, so the list of their sizes is a ledger: its
entry at `n` is the segment with this number. Each of them is either out or cached (`Provider.Backed`). A request
moves a cached segment out or writes a fresh one to the end of the ledger, and a release moves segments back. So
what is out is what the chains of the living regions hold, whatever the operations were, and once no region is
living everything is cached (`segments_conserved`).
-/
namespace FreeStore

/-- What stays the same of a segment while it is handed out and returned: its size and number. -/
def Segment.label (s : Segment) : Nat × Nat := (s.size, s.number)

namespace Provider

variable {p q : Provider} {raw : RawSupply} {s : Segment} {sizes : List Nat} {out out' : List (Nat × Nat)}
  {segments : List Segment}

/-- The segments ever obtained have these sizes: those with the labels `out` are out, and the others are cached. The
provider counts the ones that are out, and the bytes of all of them, which the limit allows. -/
structure Backed (p : Provider) (sizes : List Nat) (out : List (Nat × Nat)) : Prop where
  places : (out ++ p.cached.map Segment.label).Perm sizes.zipIdx
  obtained : p.fresh = sizes.length
  live : p.live = out.length
  bytes : p.bytesAllocated = sizes.sum
  limited : sizes.sum ≤ p.limit

theorem Backed.perm (h : p.Backed sizes out) (perm : out.Perm out') : p.Backed sizes out' :=
  ⟨(perm.symm.append_right _).trans h.places, h.obtained, h.live.trans perm.length_eq, h.bytes, h.limited⟩

theorem backed_create {segmentSize limit : Option Nat} (made : create segmentSize limit = .ok p) :
    p.Backed [] [] := by
  unfold create at made
  cases segmentSize with
  | none =>
    obtain rfl := Except.ok.inj made
    exact ⟨.refl _, rfl, rfl, rfl, Nat.zero_le _⟩
  | some n =>
    obtain ⟨size, -, made⟩ := bind_eq_ok.1 made
    obtain rfl := Except.ok.inj made
    exact ⟨.refl _, rfl, rfl, rfl, Nat.zero_le _⟩

/-- The ledger goes on with segments of approved sizes, if any, and the limit stays. -/
def Continues (p : Provider) (sizes : List Nat) (approved : Nat → Prop) (q : Provider) (out : List (Nat × Nat)) :
    Prop := ∃ new, q.Backed (sizes ++ new) out ∧ q.limit = p.limit ∧ ∀ n ∈ new, approved n

variable {approved : Nat → Prop}

theorem Backed.continues (h : q.Backed sizes out) (limit : q.limit = p.limit) :
    p.Continues sizes approved q out :=
  ⟨[], (List.append_nil sizes).symm ▸ h, limit, by simp⟩

/-- If nothing is approved the ledger stays. -/
theorem Continues.stays (h : p.Continues sizes (fun _ => False) q out) : q.Backed sizes out := by
  obtain ⟨new, backed, -, none⟩ := h
  rwa [List.eq_nil_iff_forall_not_mem.2 none, List.append_nil] at backed

/-- A segment that is handed out is one of the cached, or the next one in the ledger. -/
theorem Backed.hands (h : p.Backed sizes out) (hands : p.Hands raw s q) :
    p.Continues sizes (raw · = true) q (s.label :: out) := by
  cases hands with
  | @cached t cached parts =>
    have moved : (t.label :: out ++ cached.map Segment.label).Perm (out ++ p.cached.map Segment.label) :=
      List.perm_middle.symm.trans ((parts.map Segment.label).symm.append_left out)
    have backed : Backed { p with cached, live := p.live + 1 } sizes (t.label :: out) :=
      ⟨moved.trans h.places, h.obtained, congrArg (· + 1) h.live, h.bytes, h.limited⟩
    exact backed.continues rfl
  | @fresh size supplied allowed =>
    refine ⟨[size], ⟨?_, ?_, congrArg (· + 1) h.live, ?_, ?_⟩, rfl, by simpa using supplied⟩
    · rw [List.zipIdx_append, Nat.zero_add]
      have last : [size].zipIdx sizes.length = [Segment.label { number := p.fresh, size }] := by
        rw [h.obtained]
        rfl
      rw [last]
      exact (h.places.cons _).trans (List.perm_append_singleton _ _).symm
    · rw [List.length_append, h.obtained]
      rfl
    · rw [List.sum_append, List.sum_singleton, h.bytes]
    · rw [List.sum_append, List.sum_singleton, ← h.bytes]
      exact allowed

/-- What is released is cached. -/
theorem Backed.releaseAll (h : p.Backed sizes (segments.map Segment.label ++ out))
    (done : p.releaseAll segments = .ok q) : q.Backed sizes out ∧ q.limit = p.limit := by
  obtain ⟨-, rfl⟩ := releaseAll_eq_ok done
  refine ⟨⟨?_, h.obtained, ?_, h.bytes, h.limited⟩, rfl⟩
  · have blank : (segments.map Segment.rewind).map Segment.label = segments.map Segment.label := by
      rw [List.map_map]
      rfl
    rw [List.map_append, blank]
    refine List.Perm.trans ?_ h.places
    rw [List.append_assoc]
    refine (List.perm_append_comm.append_left out).trans ?_
    exact List.perm_append_comm_assoc ..
  · dsimp only
    rw [h.live, List.length_append, List.length_map, Nat.add_sub_cancel_left]

end Provider

/-- The labels of the segments that the living regions hold. -/
def Living.labels (l : Living) : List (Nat × Nat) := (l.flatMap fun p => p.2.chain).map Segment.label

section

variable {l k left : Living} {name : String} {r q : Region} {size : Nat} {supplied : Option Segment}
  {place : Place}

theorem Living.labels_cons : Living.labels ((name, r) :: l) = r.chain.map Segment.label ++ l.labels := by
  rw [labels, List.flatMap_cons, List.map_append, labels]

theorem Living.labels_append : Living.labels (l ++ k) = l.labels ++ k.labels := by
  rw [labels, List.flatMap_append, List.map_append, labels, labels]

theorem Living.perm_labels (h : l.Perm k) : l.labels.Perm k.labels := (h.flatMap_right _).map _

/-- A region holds the segments that it held before, and the one supplied. -/
theorem Region.Takes.labels (h : r.Takes size supplied place q) :
    q.chain.map Segment.label = supplied.toList.map Segment.label ++ r.chain.map Segment.label := by
  cases h with
  | embedded => rfl
  | newest chain =>
    rw [chain]
    rfl
  | fresh => rfl

end

namespace RegionStore

variable {c : Created} {st st' : RegionStore} {raw : RawSupply} {leave : Option Nat} {sizes : List Nat}

/-- However the stock changes, no segment is lost. -/
theorem Change.backed {s s' : Stock} (h : Change raw leave s s')
    (backed : s.provider.Backed sizes s.living.labels) :
    s.provider.Continues sizes (raw · = true) s'.provider s'.living.labels := by
  cases h with
  | @places _ _ _ _ rest _ name _ _ q' _ _ last before _ provided takes counts _ after =>
    have backed := backed.perm (Living.perm_labels before)
    have after := Living.perm_labels after.symm
    have labels := takes.labels
    rw [Living.labels_cons] at backed after
    rw [counts] at after
    dsimp only at after
    rw [labels] at after
    cases provided with
    | nothing => exact (backed.perm after).continues rfl
    | segment requested =>
      obtain ⟨new, backed, limit, approved⟩ := backed.hands (Provider.request_hands requested)
      exact ⟨new, backed.perm after, limit, approved⟩
  | adds new _ after =>
    have labels := Living.perm_labels after.symm
    rw [Living.labels_cons, new.chain] at labels
    exact (backed.perm labels).continues rfl
  | @loses _ _ _ gone left _ segments parts own returned =>
    have labels := Living.perm_labels parts
    rw [Living.labels_append] at labels
    have released : (segments.map Segment.label).Perm gone.labels := own.map _
    obtain ⟨backed, limit⟩ :=
      (backed.perm (labels.trans (released.symm.append_right _))).releaseAll returned
    exact backed.continues limit

/-! ## Runs -/

/-- The segments ever obtained have these sizes. Each is in one place, in the chain of a living region or in the
cache; the provider counts those of the regions, and the bytes of all of them. -/
structure Conserves (st : RegionStore) (sizes : List Nat) : Prop where
  places : (((st.living.flatMap fun p => p.2.chain) ++ st.provider.cached).map Segment.label).Perm sizes.zipIdx
  obtained : st.provider.fresh = sizes.length
  live : st.provider.live = (st.living.map fun p => p.2.segments).sum
  bytes : st.provider.bytesAllocated = sizes.sum
  limited : st.provider.bytesAllocated ≤ st.provider.limit

theorem Sound.conserves (h : st.Sound c) (backed : st.provider.Backed sizes st.living.labels) :
    st.Conserves sizes := by
  refine ⟨?_, backed.obtained, ?_, backed.bytes, backed.bytes ▸ backed.limited⟩
  · rw [List.map_append]
    exact backed.places
  · rw [backed.live, Living.labels, List.length_map, List.length_flatMap]
    exact congrArg List.sum (List.map_congr_left fun p hp => (h.kept.counted p hp).symm)

/-- Every run goes on with the ledger, by what the raw allocator supplies. -/
theorem Sound.run_continues {os : List (RawSupply × Operation)} {answers : List Answer} (h : st.Sound c)
    (backed : st.provider.Backed sizes st.living.labels) (ran : st.run os = .ok (st', answers)) :
    st.provider.Continues sizes (fun n => ∃ o ∈ os, o.1 n = true) st'.provider st'.living.labels := by
  let I (s : Stock) : Prop :=
    st.provider.Continues sizes (fun n => ∃ o ∈ os, o.1 n = true) s.provider s.living.labels
  have keeps : ∀ o ∈ os, ∀ {s s'}, Change o.1 st.leave s s' → I s → I s' := by
    rintro o ho s s' change ⟨new, backed, limit, approved⟩
    obtain ⟨more, backed, same, supplied⟩ := change.backed backed
    refine ⟨new ++ more, List.append_assoc sizes .. ▸ backed, same.trans limit, fun n hn => ?_⟩
    exact (List.mem_append.1 hn).elim (approved n) fun hn => ⟨o, ho, supplied n hn⟩
  exact (run_keeps (b := fun _ => []) keeps h rfl (backed.continues rfl) ran).1

/-- Dropping obtains nothing. -/
theorem drop_backed {name : String} (h : st.Sound c) (backed : st.provider.Backed sizes st.living.labels)
    (done : st.drop name = .ok st') : st'.provider.Backed sizes st'.living.labels := by
  have evolves : st.Evolves (fun _ => false) (fun _ => []) st' fun _ => [] := drop_evolves h done
  refine evolves.keeps (I := fun s => s.provider.Backed sizes s.living.labels) (fun change backed => ?_) backed
  have continues := change.backed backed
  exact (show Provider.Continues _ _ (fun _ => False) _ _ by simpa using continues).stays

/-- All top level regions can be dropped, one after the other. Then no region is left, and all segments are
cached. -/
theorem Sound.dropAll (h : st.Sound c) (backed : st.provider.Backed sizes st.living.labels) :
    ∃ st', st.dropAll = .ok st' ∧ st'.living = [] ∧ st'.provider.Backed sizes [] := by
  unfold RegionStore.dropAll
  induction roots : st.roots generalizing st with
  | nil =>
    have none : st.living = [] := Forest.eq_nil (roots ▸ h.forest)
    rw [none] at backed
    exact ⟨st, rfl, none, backed⟩
  | cons name others ih =>
    obtain ⟨gone, events, mid, dropped, -, -, sound, back⟩ := h.drop (roots ▸ List.mem_cons_self)
    have rest : mid.roots = others := by
      rw [back.roots, roots, List.erase_cons_head]
    obtain ⟨st', done, none, cached⟩ := ih sound (drop_backed h backed dropped) rest
    exact ⟨st', by rw [List.foldlM_cons, dropped, ok_bind, done], none, cached⟩

/-- In every run from a store without regions, every segment ever obtained is in exactly one place, in the chain of a
living region or in the cache. The provider counts those of the regions, and the bytes of all of them, which never
become fewer and stay within the limit. Every top level region can be dropped, and every region reset; once none is
left all segments are cached. -/
theorem segments_conserved {segmentSize limit leave : Option Nat} {log : Option AllocationLog}
    {provider : Provider} {os : List (RawSupply × Operation)} {answers : List Answer}
    (made : Provider.create segmentSize limit = .ok provider)
    (ran : run { provider, leave, log } os = .ok (st, answers)) :
    ∃ sizes, (∀ n ∈ sizes, ∃ o ∈ os, o.1 n = true) ∧ st.Conserves sizes ∧ st.provider.limit = provider.limit ∧
      (∀ os' st' answers', st.run os' = .ok (st', answers') → ∃ new, (∀ n ∈ new, ∃ o ∈ os', o.1 n = true) ∧
        st'.Conserves (sizes ++ new) ∧ st'.provider.limit = st.provider.limit ∧
        st.provider.bytesAllocated ≤ st'.provider.bytesAllocated) ∧
      (∀ name ∈ st.roots, ∀ raw, ∃ st', st.step raw (.drop name) = .ok (st', .done)) ∧
      (∀ name ∈ st.living.map Prod.fst, ∀ proto ∈ st.living.map Prod.fst, ∀ raw,
        ∃ st', st.step raw (.reset name proto) = .ok (st', .done)) ∧
      (st.living = [] → st.provider.live = 0 ∧ (st.provider.cached.map Segment.label).Perm sizes.zipIdx) ∧
      ∃ st', st.dropAll = .ok st' ∧ st'.living = [] ∧ st'.provider.live = 0 ∧
        (st'.provider.cached.map Segment.label).Perm sizes.zipIdx ∧
        st'.provider.bytesAllocated = st.provider.bytesAllocated := by
  have start : Sound (fun _ => []) { provider, leave, log } := sound_new (Provider.accounts_create made)
  have sound := start.run ran
  obtain ⟨sizes, backed, limit, approved⟩ := start.run_continues (Provider.backed_create made) ran
  rw [List.nil_append] at backed
  refine ⟨sizes, approved, sound.conserves backed, limit, ?_, ?_, ?_, ?_, ?_⟩
  · intro os' st' answers' ran'
    obtain ⟨new, backed', limit', approved'⟩ := sound.run_continues backed ran'
    refine ⟨new, approved', (sound.run ran').conserves backed', limit', ?_⟩
    rw [backed.bytes, backed'.bytes, List.sum_append]
    exact Nat.le_add_right _ _
  · intro name root raw
    obtain ⟨-, -, st', dropped, -⟩ := sound.nextStep.drop root
    exact ⟨st', by rw [step, perform, dropped]; rfl⟩
  · intro name known proto like raw
    obtain ⟨-, -, -, -, st', renewed, -⟩ := sound.nextStep.reset known like
    exact ⟨st', by rw [step, perform, renewed]; rfl⟩
  · intro none
    rw [none] at backed
    exact ⟨backed.live, backed.places⟩
  · obtain ⟨st', dropped, none, cached⟩ := sound.dropAll backed
    exact ⟨st', dropped, none, cached.live, cached.places, cached.bytes.trans backed.bytes.symm⟩

/-- One request is refused by the raw allocator and one by the limit, and the segment of an inner region is used again
when it is reset. Of the three segments obtained two are in a chain and one is cached; when all regions are dropped
all three are. -/
theorem segments_conserved_of_three : ∃ (os : List (RawSupply × Operation)) (st st' : RegionStore)
    (answers : List Answer) (sizes : List Nat),
    os.map Prod.snd = [.make "outer" none none 0, .tryAllocate "outer" 5000 none,
      .nest "outer" "inner" "outer" none, .tryAllocate "inner" 70000 none, .tryAllocate "inner" 90000 none,
      .tryAllocate "outer" 65000 none, .reset "inner" "outer", .make "other" none none 0,
      .tryAllocate "other" 66000 none, .tryAllocate "inner" 5000 none, .drop "other"] ∧
    run { provider := { limit := 250000 } } os = .ok (st, answers) ∧
    (st.living.map fun p => (p.1, p.2.chain.map Segment.label)) =
      [("inner", []), ("outer", [(65536, 2), (65536, 0)])] ∧
    st.provider.cached.map Segment.label = [(70000, 1)] ∧ st.Conserves sizes ∧ st.provider.limit = 250000 ∧
    st.dropAll = .ok st' ∧ st'.living = [] ∧ st'.provider.live = 0 ∧
    (st'.provider.cached.map Segment.label).Perm sizes.zipIdx ∧ st'.provider.bytesAllocated = 201072 := by
  let os : List Operation := [.make "outer" none none 0, .tryAllocate "outer" 5000 none,
    .nest "outer" "inner" "outer" none, .tryAllocate "inner" 70000 none, .tryAllocate "inner" 90000 none,
    .tryAllocate "outer" 65000 none, .reset "inner" "outer", .make "other" none none 0,
    .tryAllocate "other" 66000 none, .tryAllocate "inner" 5000 none, .drop "other"]
  let steps : List (RawSupply × Operation) := os.map fun o => (fun size => size < 80000, o)
  have facts : ∃ s ∈ (run { provider := { limit := 250000 } } steps).toOption,
      (s.1.living.map fun p => (p.1, p.2.chain.map Segment.label)) =
        [("inner", []), ("outer", [(65536, 2), (65536, 0)])] ∧
      s.1.provider.cached.map Segment.label = [(70000, 1)] ∧ s.1.provider.bytesAllocated = 201072 := by
    decide +kernel
  obtain ⟨s, ran, chains, cached, bytes⟩ := facts
  rw [mem_toOption] at ran
  have made : Provider.create none (some 250000) = .ok { limit := 250000 } := rfl
  obtain ⟨sizes, -, conserves, limit, -, -, -, -, st', dropped, none, live, all, same⟩ :=
    segments_conserved made ran
  exact ⟨steps, s.1, st', s.2, sizes, rfl, ran, chains, cached, conserves, limit, dropped, none, live, all,
    same.trans bytes⟩

end RegionStore

end FreeStore
