import FreeStore.Proofs.HintLinks
/-!
Hints form a staircase.

An addition drops the hints that the new one makes useless, so that hints only remain which rise: the higher a
hint points, the larger its size (`Staircase`). Nothing else that is done to hints takes them out of order; pulling
hints back may let several point at one entry, but their sizes stay apart. In a staircase the largest hint below
a size is the one that points furthest, so a search that starts there skips the most (`hints_form_staircase`).

To let the hints at one entry point at another is left out here: that keeps the order only if the entry has moved
without passing another one.
-/
namespace FreeStore

namespace HintCache

/-- Hints that point higher are larger, and no two are of one size. -/
structure Staircase (l : List Hint) : Prop where
  rises : ∀ g ∈ l, ∀ h ∈ l, g.entry < h.entry → g.size < h.size
  apart : (l.map Hint.size).Nodup

/-- The hint does not point below `head`, and a search for `size` bytes may start there. -/
def Offers (head : Option Nat) (size : Nat) (h : Hint) : Prop := (∃ a ∈ head, a ≤ h.entry) ∧ h.size < size

variable {c c' : HintCache} {g h new : Hint} {k l : List Hint} {entry size capacity slot : Nat} {log : List Nat}
  {head : Option Nat} {o : Operation}

/-! ## The shape of a staircase -/

theorem staircase_nil : Staircase [] := ⟨by simp, .nil⟩

theorem Staircase.sublist (hl : Staircase l) (sub : k.Sublist l) : Staircase k :=
  ⟨fun g hg h hh => hl.rises g (sub.subset hg) h (sub.subset hh), hl.apart.sublist (sub.map _)⟩

theorem Staircase.perm (hl : Staircase l) (same : l.Perm k) : Staircase k :=
  ⟨fun g hg h hh => hl.rises g (same.mem_iff.2 hg) h (same.mem_iff.2 hh),
    (same.map Hint.size).nodup_iff.1 hl.apart⟩

/-- A hint may join if it is larger than those that point lower and smaller than those that point higher. -/
theorem Staircase.cons (hl : Staircase l)
    (fits : ∀ h ∈ l, h.entry < new.entry ∧ h.size < new.size ∨ new.entry < h.entry ∧ new.size < h.size) :
    Staircase (new :: l) := by
  constructor
  · intro g hg h hh lower
    rcases List.mem_cons.1 hg with rfl | old <;> rcases List.mem_cons.1 hh with rfl | old'
    · exact absurd lower (Nat.lt_irrefl _)
    · have := fits h old'
      omega
    · have := fits g old
      omega
    · exact hl.rises g old h old' lower
  · refine List.nodup_cons.2 ⟨fun taken => ?_, hl.apart⟩
    obtain ⟨h, hh, same⟩ := List.mem_map.1 taken
    have := fits h hh
    omega

/-- Hints may be moved as long as none passes another. -/
theorem Staircase.map {f : Hint → Hint} (hl : Staircase l) (sizes : ∀ h, (f h).size = h.size)
    (order : ∀ g h, (f g).entry < (f h).entry → g.entry < h.entry) : Staircase (l.map f) := by
  constructor
  · intro g' hg' h' hh' lower
    obtain ⟨g, hg, rfl⟩ := List.mem_map.1 hg'
    obtain ⟨h, hh, rfl⟩ := List.mem_map.1 hh'
    rw [sizes, sizes]
    exact hl.rises g hg h hh (order g h lower)
  · have same : Hint.size ∘ f = Hint.size := funext sizes
    rw [List.map_map, same]
    exact hl.apart

/-- To use a hint does not move it. -/
theorem Staircase.overwrite (hl : Staircase l) (nodup : (l.map Hint.slot).Nodup) (mem : h ∈ l)
    (same : new.entry = h.entry ∧ new.size = h.size) : Staircase (overwrite h.slot new l) := by
  obtain ⟨front, back, rfl⟩ := List.append_of_mem mem
  have taken := hl.perm List.perm_middle
  rw [overwrite_append_cons nodup]
  refine Staircase.perm ⟨?_, ?_⟩ List.perm_middle.symm
  · have rises := taken.rises
    simp only [List.forall_mem_cons, same.1, same.2] at rises ⊢
    exact rises
  · rw [List.map_cons, same.2]
    exact taken.apart

/-! ## Operations -/

/-- What an addition leaves alone leaves room for the new hint. -/
theorem fits_of_unharmed (hh : h ∈ c.unharmed entry size) :
    h.entry < entry ∧ h.size < size ∨ entry < h.entry ∧ size < h.size := by
  have harmless := (List.mem_filter.1 hh).2
  simp only [overrides, Bool.not_eq_true'] at harmless
  split at harmless
  · rename_i higher
    exact .inr ⟨higher, by simpa using harmless⟩
  · rename_i notHigher
    split at harmless
    · cases harmless
    · rename_i elsewhere
      exact .inl ⟨by omega, by simpa using harmless⟩

/-- In all three ways in which an addition goes, the hints stay a staircase. -/
theorem Staircase.adds (hl : Staircase c.active) (added : Adds capacity c log entry size c') :
    Staircase c'.active := by
  have unharmed : Staircase (c.unharmed entry size) := hl.sublist List.filter_sublist
  cases added with
  | covered by_hint kept dropped => exact hl.sublist kept
  | fills room slot free put =>
    rw [put]
    exact unharmed.cons fun h hh => fits_of_unharmed hh
  | evicts full front h back whole oldest put =>
    have left : (front ++ back).Sublist (c.unharmed entry size) :=
      whole ▸ (List.sublist_cons_self h back).append_left front
    rw [put]
    refine ((unharmed.sublist left).cons fun g hg => ?_).perm List.perm_middle.symm
    exact fits_of_unharmed (left.subset hg)

theorem Staircase.find (hl : Staircase c.active) (hc : c.Slotted capacity) (size : Nat) (head : Option Nat) :
    Staircase (c.find size head).1.active := by
  have purged : Staircase (c.withdraw (isStale head)).active := hl.sublist List.filter_sublist
  have slotted : (c.withdraw (isStale head)).Slotted capacity := (slots_withdraw _).trans hc
  unfold HintCache.find
  dsimp only
  split
  · exact purged
  · rename_i h best
    exact purged.overwrite slotted.nodup_active (best?_mem best).1 ⟨rfl, rfl⟩

/-- No operation that lets hints point elsewhere one by one takes them out of order. -/
theorem Staircase.act (hl : Staircase c.active) (hc : c.Sound capacity log) (pos : 0 < capacity)
    (still : ∀ old new, o ≠ .update old new) : Staircase (c.act o).active := by
  cases o with
  | add entry size => exact hl.adds (hc.adds pos entry size).1
  | find size head => exact hl.find hc.slotted size head
  | remove entry => exact hl.sublist List.filter_sublist
  | update old new => exact absurd rfl (still old new)
  | updateBeyond entry =>
    have pulled (h : Hint) : (if entry < h.entry then { h with entry := entry } else h).entry =
        min h.entry entry := by
      split
      · rename_i above
        exact (Nat.min_eq_right (Nat.le_of_lt above)).symm
      · rename_i notAbove
        exact (Nat.min_eq_left (Nat.le_of_not_lt notAbove)).symm
    refine hl.map (fun h => by split <;> rfl) fun g h lower => ?_
    rw [pulled, pulled] at lower
    omega
  | clear => exact staircase_nil

theorem Staircase.run (hl : Staircase c.active) (hc : c.Sound capacity log) (pos : 0 < capacity)
    {ops : List Operation} (still : ∀ old new, .update old new ∉ ops) :
    Staircase (ops.foldl logged (c, log)).1.active := by
  induction ops generalizing c log with
  | nil => exact hl
  | cons o ops ih =>
    have first : ∀ old new, o ≠ .update old new := fun old new same => still old new (same ▸ List.mem_cons_self)
    exact ih (hl.act hc pos first) (hc.logged pos o) fun old new mem =>
      still old new (List.mem_cons_of_mem _ mem)

theorem Slotted.run (hc : c.Slotted capacity) (log : List Nat) (ops : List Operation) :
    (ops.foldl logged (c, log)).1.Slotted capacity := by
  induction ops generalizing c log with
  | nil => exact hc
  | cons o ops ih => exact ih (hc.act o) _

/-- In a cache without slots there is nothing to order. -/
theorem staircase_of_run (made : create capacity = .ok c) {ops : List Operation}
    (still : ∀ old new, .update old new ∉ ops) : Staircase (ops.foldl logged (c, [])).1.active := by
  rcases Nat.eq_zero_or_pos capacity with rfl | pos
  · have none := ((slotted_create made).run [] ops).active_le
    rw [List.eq_nil_of_length_eq_zero (Nat.le_zero.1 none)]
    exact staircase_nil
  · have empty : c.active = [] := by
      unfold create at made
      split at made <;> cases made
      rfl
    exact Staircase.run (empty ▸ staircase_nil) (sound_create made) pos still

/-! ## Finding -/

theorem best?_eq_none : best? size l = none ↔ ∀ h ∈ l, size ≤ h.size := by
  induction l with
  | nil => simp [best?]
  | cons f l ih =>
    unfold best?
    rw [List.forall_mem_cons]
    cases rest : best? size l with
    | none =>
      have := ih.1 rest
      simp only [ite_eq_right_iff, reduceCtorEq, imp_false, Nat.not_lt, iff_self_and]
      exact fun _ => this
    | some g =>
      have : ¬ ∀ h ∈ l, size ≤ h.size := fun none => by
        rw [ih.2 none] at rest
        cases rest
      dsimp only
      split <;> simp only [reduceCtorEq, this, and_false]

/-- No hint below the size is larger than the best one. -/
theorem size_le_best? (found : best? size l = some h) : ∀ g ∈ l, g.size < size → g.size ≤ h.size := by
  induction l generalizing h with
  | nil => simp
  | cons f l ih =>
    unfold best? at found
    rw [List.forall_mem_cons]
    cases rest : best? size l with
    | none =>
      have small := best?_eq_none.1 rest
      simp only [rest, Option.ite_none_right_eq_some, Option.some.injEq] at found
      obtain ⟨-, rfl⟩ := found
      exact ⟨fun _ => Nat.le_refl _, fun g hg lower => absurd (small g hg) (by omega)⟩
    | some d =>
      have largest := ih rest
      simp only [rest, Bool.and_eq_true, decide_eq_true_eq] at found
      split at found <;> cases found
      · rename_i better
        exact ⟨fun _ => Nat.le_refl _, fun g hg lower => Nat.le_trans (largest g hg lower) better.2⟩
      · rename_i worse
        exact ⟨fun lower => by omega, largest⟩

theorem isStale_eq_false : isStale head h = false ↔ ∃ a ∈ head, a ≤ h.entry := by
  cases head <;> simp [isStale]

theorem mem_withdraw_isStale :
    h ∈ (c.withdraw (isStale head)).active ↔ h ∈ c.active ∧ ∃ a ∈ head, a ≤ h.entry := by
  simp only [withdraw, List.mem_filter, Bool.not_eq_true', isStale_eq_false]

theorem find_eq_best? : (c.find size head).2 = best? size (c.withdraw (isStale head)).active := by
  unfold find
  dsimp only
  split <;> simp_all

/-- A hint is found if and only if there is one to be found. -/
theorem find_eq_none : (c.find size head).2 = none ↔ ∀ h ∈ c.active, ¬ Offers head size h := by
  rw [find_eq_best?, best?_eq_none]
  simp only [mem_withdraw_isStale, Offers, not_and, Nat.not_lt, and_imp]

/-- Of the hints on a staircase that are of use, the one found points furthest. -/
theorem Staircase.found_highest (hl : Staircase c.active) (found : (c.find size head).2 = some h) :
    h ∈ c.active ∧ Offers head size h ∧ ∀ g ∈ c.active, Offers head size g → g.entry ≤ h.entry := by
  rw [find_eq_best?] at found
  obtain ⟨mem, smaller⟩ := best?_mem found
  obtain ⟨active, reached⟩ := mem_withdraw_isStale.1 mem
  refine ⟨active, ⟨reached, smaller⟩, fun g hg offers => Nat.le_of_not_lt fun further => ?_⟩
  have larger := hl.rises h active g hg further
  have := size_le_best? found g (mem_withdraw_isStale.2 ⟨hg, offers.1⟩) offers.2
  omega

/-- A search clears away what points below the head. -/
theorem reached_of_mem_find (hm : h ∈ (c.find size head).1.active) : ∃ a ∈ head, a ≤ h.entry := by
  unfold find at hm
  dsimp only at hm
  split at hm
  · exact (mem_withdraw_isStale.1 hm).2
  · rename_i best found
    rcases mem_overwrite hm with hm | rfl
    · exact (mem_withdraw_isStale.1 hm).2
    · exact (mem_withdraw_isStale.1 (best?_mem found).1).2

end HintCache

namespace HintTable

open HintCache (Operation Offers)

theorem exists_cache {capacity : Nat} {t : HintTable} (made : create capacity = .ok t) :
    ∃ c, HintCache.create capacity = .ok c := by
  unfold create at made
  split at made
  · rename_i fits
    exact ⟨_, if_pos fits⟩
  · cases made

/-- Whatever is done to the hints of a table, short of letting those at one entry point at another, they form a
staircase. So the hint that is found for a size is, of those not below the head and below the size, the one that
points furthest, there is none only if there is none to be found, and none below the head is left. -/
theorem hints_form_staircase {capacity : Nat} {t₀ : HintTable} (made : create capacity = .ok t₀)
    {ops : List Operation} (still : ∀ old new, .update old new ∉ ops) :
    let t := ops.foldl act t₀
    (∀ g ∈ t.hints, ∀ h ∈ t.hints, g.entry < h.entry → g.size < h.size) ∧ (t.hints.map Hint.size).Nodup ∧
      ∀ size head,
        (∀ h, (t.find size head).2 = some h → h ∈ t.hints ∧ Offers head size h ∧
          ∀ g ∈ t.hints, Offers head size g → g.entry ≤ h.entry) ∧
        ((t.find size head).2 = none ↔ ∀ h ∈ t.hints, ¬ Offers head size h) ∧
        ∀ h ∈ (t.find size head).1.hints, ∃ a ∈ head, a ≤ h.entry := by
  intro t
  obtain ⟨c₀, cache⟩ := exists_cache made
  obtain ⟨start, length⟩ := represents_create made cache
  have slotted₀ := HintCache.slotted_create cache
  obtain ⟨holds, length'⟩ := start.run (length.symm ▸ slotted₀) [] ops
  have slotted : (ops.foldl HintCache.logged (c₀, [])).1.Slotted t.slots.length :=
    (length'.trans length).symm ▸ slotted₀.run [] ops
  have stairs := HintCache.staircase_of_run cache still
  have hints := holds.hints_eq slotted
  rw [hints]
  refine ⟨stairs.rises, stairs.apart, fun size head => ?_⟩
  obtain ⟨found, same, length''⟩ := holds.find slotted size head
  have slotted' : ((ops.foldl HintCache.logged (c₀, [])).1.find size head).1.Slotted
      (t.find size head).1.slots.length := length''.symm ▸ HintCache.slots_find.trans slotted
  rw [same, found.hints_eq slotted']
  exact ⟨fun h found => stairs.found_highest found, HintCache.find_eq_none,
    fun h hm => HintCache.reached_of_mem_find hm⟩

/-- Of three slots one is used again for a hint that overrides another; two hints are then pulled back to one
entry, and the larger of them is found. -/
theorem staircase_of_pulled_back :
    let t₀ : HintTable := { slots := [{ next := some 1 }, { next := some 2 }, {}], inactive := some 0 }
    let ops := [.add 100 10, .add 200 20, .find 15 (some 0), .add 300 30, .add 250 35, .updateBeyond 200]
    let t := ops.foldl act t₀
    create 3 = .ok t₀ ∧ t.pairs = [(200, 35), (200, 20), (100, 10)] ∧
      (∀ g ∈ t.hints, ∀ h ∈ t.hints, g.entry < h.entry → g.size < h.size) ∧ (t.hints.map Hint.size).Nodup ∧
      (∃ h, (t.find 30 (some 150)).2 = some h ∧ h.entry = 200 ∧ h.size = 20 ∧
        ∀ g ∈ t.hints, Offers (some 150) 30 g → g.entry ≤ h.entry) ∧
      (∀ h ∈ t.hints, ¬ Offers (some 150) 20 h) ∧
      ∀ h ∈ (t.find 30 (some 150)).1.hints, ∃ a ∈ some 150, a ≤ h.entry := by
  intro t₀ ops t
  have made : create 3 = .ok t₀ := by decide
  have still : ∀ old new, .update old new ∉ ops := by simp [ops]
  obtain ⟨rises, apart, finds⟩ := hints_form_staircase made still
  have found : (t.find 30 (some 150)).2 = some ⟨1, 200, 20, 2⟩ := by decide
  exact ⟨made, by decide, rises, apart, ⟨_, found, rfl, rfl, ((finds 30 (some 150)).1 _ found).2.2⟩,
    (finds 20 (some 150)).2.1.1 (by decide), (finds 30 (some 150)).2.2⟩

end HintTable

end FreeStore
