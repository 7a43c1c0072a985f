import Mathlib.Order.Bounds.Basic
import FreeStore.Pool.Lookup
import FreeStore.Proofs.Reachable
/-!
Where a given number of free bytes is passed.

`splitPoint` goes down the list and keeps what is missing at or above the minimum, also at entries that it
then leaves out. That never shows later on: what is missing is raised again at the next entry anyway
(`splitPoint_max`), so entries below the minimum could as well not be there (`splitPoint_usable`), and of the
others it takes the full size of each, until one holds all that is missing (`splitPoint_append`,
`splitPoint_cons_of_le`).
-/
namespace FreeStore.Pool

variable {p : Pool} {minEntry minimum required : Nat} {e : Entry} {l before : FreeList}

/-- The entries that count. -/
def usable (minimum : Nat) (l : FreeList) : FreeList := l.filter fun e => minimum ≤ e.size

/-- Where an entry is split that holds the `missing` bytes: behind them, or at its end if what were left is too
small for an entry. -/
def splitAt (minEntry minimum missing : Nat) (e : Entry) : Nat :=
  if minEntry ≤ e.size - max missing minimum then e.start + max missing minimum else e.top

/-- What is missing may be raised beforehand. -/
theorem splitPoint_max :
    splitPoint minEntry minimum (max required minimum) l = splitPoint minEntry minimum required l := by
  cases l with
  | nil => rfl
  | cons e l => simp only [splitPoint, Nat.max_assoc, Nat.max_self]

theorem splitPoint_cons_of_small (small : e.size < minimum) :
    splitPoint minEntry minimum required (e :: l) = splitPoint minEntry minimum required l := by
  have raised : minimum ≤ max required minimum := Nat.le_max_right _ _
  rw [splitPoint, if_neg (by omega), if_neg (by omega), splitPoint_max]

/-- Entries below the minimum do not matter. -/
theorem splitPoint_usable :
    splitPoint minEntry minimum required l = splitPoint minEntry minimum required (usable minimum l) := by
  induction l generalizing required with
  | nil => rfl
  | cons e l ih =>
    unfold usable at ih ⊢
    by_cases counts : minimum ≤ e.size
    · rw [List.filter_cons_of_pos (by simpa using counts)]
      simp only [splitPoint, ih]
    · rw [List.filter_cons_of_neg (by simpa using counts), splitPoint_cons_of_small (by omega), ih]

theorem splitPoint_cons_of_lt (counts : minimum ≤ e.size) (short : e.size < required) :
    splitPoint minEntry minimum required (e :: l) =
      splitPoint minEntry minimum (required - e.size) l := by
  have kept : max required minimum = required := Nat.max_eq_left (by omega)
  rw [splitPoint, kept, if_neg (by omega), if_pos counts, if_neg (by omega)]

/-- An entry that holds all that is missing is split. -/
theorem splitPoint_cons_of_le (hm : 0 < minEntry) (counts : minimum ≤ e.size) (holds : required ≤ e.size) :
    splitPoint minEntry minimum required (e :: l) = some (splitAt minEntry minimum required e) := by
  have fits : max required minimum ≤ e.size := Nat.max_le.2 ⟨holds, counts⟩
  unfold splitPoint splitAt
  by_cases whole : max required minimum = e.size
  · rw [if_neg (by omega), if_pos counts, if_pos whole, if_neg (by omega)]
  · rw [if_pos (by omega)]
    by_cases left : minEntry ≤ e.size - max required minimum
    · rw [if_neg (by omega), if_pos left]
    · rw [if_pos (by omega), if_neg left]

/-- Entries that do not hold all that is missing are passed. -/
theorem splitPoint_append (counts : ∀ e ∈ before, minimum ≤ e.size) (short : before.bytes < required) :
    splitPoint minEntry minimum required (before ++ l) =
      splitPoint minEntry minimum (required - before.bytes) l := by
  induction before generalizing required with
  | nil => rfl
  | cons e before ih =>
    obtain ⟨first, others⟩ := List.forall_mem_cons.1 counts
    rw [FreeList.bytes_cons] at short ⊢
    rw [List.cons_append, splitPoint_cons_of_lt first (by omega), ih others (by omega), Nat.sub_sub]

/-- A list with enough bytes has an entry at which they are reached. -/
theorem exists_reaching (pos : 0 < required) (enough : required ≤ l.bytes) :
    ∃ (before : FreeList) (e : Entry) (after : FreeList), l = before ++ e :: after ∧
      before.bytes < required ∧ required ≤ before.bytes + e.size := by
  induction l generalizing required with
  | nil => exact absurd pos (Nat.not_lt.2 enough)
  | cons e l ih =>
    rw [FreeList.bytes_cons] at enough
    by_cases here : required ≤ e.size
    · exact ⟨[], e, l, rfl, pos, by simpa using here⟩
    · have missing : 0 < required - e.size := by omega
      obtain ⟨before, f, after, rfl, below, reached⟩ := ih missing (by omega)
      refine ⟨e :: before, f, after, rfl, ?_, ?_⟩ <;> rw [FreeList.bytes_cons] <;> omega

/-- The number of entries that it takes to reach the bytes. -/
theorem isLeast_reaching {after : FreeList} (below : before.bytes < required)
    (reached : required ≤ before.bytes + e.size) :
    IsLeast {n | required ≤ FreeList.bytes ((before ++ e :: after).take n)} (before.length + 1) := by
  constructor
  · have front : (before ++ e :: after).take (before.length + 1) = before ++ [e] := by
      rw [List.take_length_add_append]
      rfl
    show required ≤ _
    rw [front, FreeList.bytes_append, FreeList.bytes_cons]
    exact reached
  · intro n enough
    by_contra fewer
    have front : (before ++ e :: after).take n = before.take n :=
      List.take_append_of_le_length (by omega)
    have split := FreeList.bytes_append (before.take n) (before.drop n)
    rw [List.take_append_drop] at split
    have enough : required ≤ FreeList.bytes _ := enough
    rw [front] at enough
    omega

/-- Where the entries that count have too few bytes there is no such address. -/
theorem splitPoint_eq_none (counts : ∀ e ∈ l, minimum ≤ e.size) (short : l.bytes < required) :
    splitPoint minEntry minimum required l = none := by
  have passed : splitPoint minEntry minimum required (l ++ []) = none := splitPoint_append counts short
  rwa [List.append_nil] at passed

theorem splitAt_le_top {missing : Nat} (counts : minimum ≤ e.size) (holds : missing ≤ e.size) :
    splitAt minEntry minimum missing e ≤ e.top := by
  have fits : max missing minimum ≤ e.size := Nat.max_le.2 ⟨holds, counts⟩
  unfold splitAt Entry.top
  split <;> omega

theorem addressAfter_of_few (h : p.Sound) (short : FreeList.bytes (usable minimum p.entries) < required) :
    p.addressAfter required minimum = .ok none := by
  have counts : ∀ e ∈ usable minimum p.entries, minimum ≤ e.size := fun e he => by
    simpa using (List.mem_filter.1 he).2
  rw [addressAfter, splitPoint_usable, splitPoint_eq_none counts short]
  simp only [h.reachEnd_eq]
  rfl

theorem addressAfter_of_reached (h : p.Sound) {u : Entry} {after : FreeList}
    (whole : usable minimum p.entries = before ++ u :: after) (below : before.bytes < required)
    (reached : required ≤ before.bytes + u.size) : p.addressAfter required minimum =
      .ok (some (splitAt p.config.minEntry minimum (required - before.bytes) u)) := by
  have counts : ∀ e ∈ before ++ u :: after, e ∈ p.entries ∧ minimum ≤ e.size := by
    intro e he
    simpa using List.mem_filter.1 (whole ▸ he : e ∈ usable minimum p.entries)
  obtain ⟨onList, holds⟩ := counts u (by simp)
  have found : splitPoint p.config.minEntry minimum required p.entries =
      some (splitAt p.config.minEntry minimum (required - before.bytes) u) := by
    rw [splitPoint_usable, whole, splitPoint_append (fun e he => (counts e (by simp [he])).2) below]
    exact splitPoint_cons_of_le h.minEntry_pos holds (by omega)
  have inside : splitAt p.config.minEntry minimum (required - before.bytes) u < wordLimit :=
    Nat.lt_of_le_of_lt (splitAt_le_top holds (by omega)) (h.tracked.inside u onList)
  simp only [addressAfter, found, Word.fit, if_pos inside]
  rfl

/-- Of the entries with at least `minimum` bytes, the first ones that together have the bytes asked for are
passed, the last of them only as far as it takes; if all together have too few, and only then, there is no
answer. -/
theorem addressAfter_splits_last (h : p.Reachable) (pos : 1 ≤ required) (minimum : Nat) :
    (p.addressAfter required minimum = .ok none ↔ FreeList.bytes (usable minimum p.entries) < required) ∧
    (required ≤ FreeList.bytes (usable minimum p.entries) →
      ∃ (before : FreeList) (u : Entry) (after : FreeList), usable minimum p.entries = before ++ u :: after ∧
        IsLeast {n | required ≤ FreeList.bytes ((usable minimum p.entries).take n)} (before.length + 1) ∧
        p.addressAfter required minimum =
          .ok (some (splitAt p.config.minEntry minimum (required - before.bytes) u))) := by
  refine ⟨⟨fun none => ?_, addressAfter_of_few h.sound⟩, fun enough => ?_⟩
  · by_contra atLeast
    obtain ⟨before, u, after, whole, below, reached⟩ := exists_reaching pos (Nat.le_of_not_lt atLeast)
    rw [addressAfter_of_reached h.sound whole below reached] at none
    cases none
  · obtain ⟨before, u, after, whole, below, reached⟩ := exists_reaching pos enough
    exact ⟨before, u, after, whole, whole ▸ isLeast_reaching below reached,
      addressAfter_of_reached h.sound whole below reached⟩

/-- Of the entries with 600 bytes and more the first has 1000 and the second 2000 bytes, so 1300 bytes are
passed within the second; of the 300 bytes that are missing there 600 are made. -/
theorem addressAfter_splits_second : ∃ p : Pool,
    p.entries = [⟨1000, 1000⟩, ⟨3000, 550⟩, ⟨5000, 2000⟩] ∧
    (∃ (before : FreeList) (u : Entry) (after : FreeList), usable 600 p.entries = before ++ u :: after ∧
      IsLeast {n | 1300 ≤ FreeList.bytes ((usable 600 p.entries).take n)} (before.length + 1) ∧
      p.addressAfter 1300 600 = .ok (some (splitAt p.config.minEntry 600 (1300 - before.bytes) u))) ∧
    p.addressAfter 1300 600 = .ok (some 5600) ∧ p.addressAfter 3001 600 = .ok none := by
  obtain ⟨s, done⟩ : ∃ s, s ∈ ((fresh {}).run [.expand 1000 1000 2000 false, .expand 550 3000 3550 false,
      .expand 2000 5000 7000 false]).toOption :=
    Option.isSome_iff_exists.1 (by decide +kernel)
  obtain ⟨entries, enough, few, answer⟩ :
      s.1.entries = [⟨1000, 1000⟩, ⟨3000, 550⟩, ⟨5000, 2000⟩] ∧
      1300 ≤ FreeList.bytes (usable 600 s.1.entries) ∧
      FreeList.bytes (usable 600 s.1.entries) < 3001 ∧
      s.1.addressAfter 1300 600 = .ok (some 5600) := by
    revert s
    decide +kernel
  have made : create {} = .ok (fresh {}) := by decide +kernel
  have reachable := (Reachable.create made).run (by decide +kernel) (mem_toOption.1 done)
  exact ⟨s.1, entries, (addressAfter_splits_last reachable (by decide) 600).2 enough, answer,
    (addressAfter_splits_last reachable (by decide) 600).1.2 few⟩

end FreeStore.Pool
