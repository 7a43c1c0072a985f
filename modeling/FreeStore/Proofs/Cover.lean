import FreeStore.Proofs.Tracked
/-!
Counting the ranges over an address.

`cover rs a` is the number of ranges of `rs` that hold `a`. Cutting a range in two, or joining two that
touch, changes no such number (`hits_split`), so a ledger of ranges can be kept by adding up. That an
address is held once at most is a bound on its number, and so says that ranges are disjoint
(`pairwise_of_cover_le_one`); the two together say that some ranges are the disjoint union of others
(`partitions_of_cover`).
-/
namespace FreeStore

/-- 1 if the range holds `a`, else 0. -/
def Range.hits (r : Range) (a : Nat) : Nat := if r.low ≤ a ∧ a < r.high then 1 else 0

/-- The number of ranges that hold `a`. -/
def cover : List Range → Nat → Nat
  | [], _ => 0
  | r :: rs, a => r.hits a + cover rs a

/-- No address is in both ranges. -/
def Range.Apart (r s : Range) : Prop := ∀ a, ¬ (r.contains a ∧ s.contains a)

/-- The ranges `parts` are disjoint, and together they are what `whole` is together. -/
def Partitions (parts whole : List Range) : Prop :=
  parts.Pairwise Range.Apart ∧ ∀ a, (∃ r ∈ parts, r.contains a) ↔ ∃ r ∈ whole, r.contains a

section

variable {a low mid high : Nat} {r : Range} {rs ss : List Range}

theorem Range.contains_iff : r.contains a = true ↔ r.low ≤ a ∧ a < r.high := by
  simp [Range.contains]

theorem Range.hits_pos : 0 < r.hits a ↔ r.contains a = true := by
  rw [contains_iff, hits]
  split <;> simp_all

@[simp] theorem cover_nil : cover [] a = 0 := rfl

@[simp] theorem cover_cons : cover (r :: rs) a = r.hits a + cover rs a := rfl

@[simp] theorem cover_append : cover (rs ++ ss) a = cover rs a + cover ss a := by
  induction rs with
  | nil => simp
  | cons r rs ih => simp only [List.cons_append, cover_cons, ih]; omega

theorem Range.hits_eq_zero (h : high ≤ low) : Range.hits ⟨low, high⟩ a = 0 := by
  rw [hits, if_neg]
  simp only
  omega

theorem Range.hits_congr {low' high' : Nat} (h : low ≤ a ∧ a < high ↔ low' ≤ a ∧ a < high') :
    Range.hits ⟨low, high⟩ a = Range.hits ⟨low', high'⟩ a := by
  simp only [hits, h]

/-- An empty range covers nothing. -/
theorem cover_filter_nonempty : cover (rs.filter fun r => r.low < r.high) a = cover rs a := by
  induction rs with
  | nil => rfl
  | cons r rs ih =>
    by_cases wide : r.low < r.high
    · rw [List.filter_cons_of_pos (by simpa using wide), cover_cons, cover_cons, ih]
    · rw [List.filter_cons_of_neg (by simpa using wide), cover_cons, ih,
        Range.hits_eq_zero (Nat.le_of_not_lt wide), Nat.zero_add]

/-- A range is its two halves. -/
theorem Range.hits_split (h₁ : low ≤ mid) (h₂ : mid ≤ high) :
    Range.hits ⟨low, high⟩ a = Range.hits ⟨low, mid⟩ a + Range.hits ⟨mid, high⟩ a := by
  simp only [hits]
  split <;> split <;> split <;> omega

theorem cover_pos : 0 < cover rs a ↔ ∃ r ∈ rs, r.contains a := by
  induction rs with
  | nil => simp
  | cons r rs ih =>
    have := Range.hits_pos (r := r) (a := a)
    simp only [cover_cons, List.mem_cons, exists_eq_or_imp, ← ih, ← this]
    omega

theorem pairwise_of_cover_le_one (h : ∀ a, cover rs a ≤ 1) : rs.Pairwise Range.Apart := by
  induction rs with
  | nil => exact .nil
  | cons r rs ih =>
    simp only [cover_cons] at h
    refine List.pairwise_cons.2 ⟨?_, ih fun a => by have := h a; omega⟩
    rintro s hs a ⟨hr, ha⟩
    have := h a
    have := Range.hits_pos.2 hr
    have := cover_pos.2 ⟨s, hs, ha⟩
    omega

theorem Range.apart_of_le {s : Range} (h : r.high ≤ s.low ∨ s.high ≤ r.low) : r.Apart s := by
  rintro a ⟨hr, hs⟩
  rw [contains_iff] at hr hs
  omega

/-- No address is in two ranges that are apart. -/
theorem cover_le_one_of_pairwise (h : rs.Pairwise Range.Apart) : cover rs a ≤ 1 := by
  induction rs with
  | nil => simp
  | cons r rs ih =>
    obtain ⟨front, rest⟩ := List.pairwise_cons.1 h
    have := ih rest
    rw [cover_cons, Range.hits]
    split
    · rename_i inside
      have none : cover rs a = 0 := by
        refine Nat.eq_zero_of_not_pos fun covered => ?_
        obtain ⟨s, hs, holds⟩ := cover_pos.1 covered
        exact front s hs a ⟨Range.contains_iff.2 inside, holds⟩
      omega
    · omega

/-- Ranges that hold each address as often as others that hold it once at most. -/
theorem partitions_of_cover (h : ∀ a, cover rs a = cover ss a) (hs : ∀ a, cover ss a ≤ 1) :
    Partitions rs ss := by
  refine ⟨pairwise_of_cover_le_one fun a => h a ▸ hs a, fun a => ?_⟩
  rw [← cover_pos, ← cover_pos, h a]

end

namespace FreeList

/-- The free ranges of a list. -/
def ranges (l : FreeList) : List Range := l.map Entry.range

/-- The number of entries over `a`. -/
def cover (l : FreeList) (a : Nat) : Nat := FreeStore.cover l.ranges a

variable {m a : Nat} {e : Entry} {l k : FreeList}

@[simp] theorem cover_nil : cover [] a = 0 := rfl

@[simp] theorem cover_cons : cover (e :: l) a = e.range.hits a + cover l a := rfl

@[simp] theorem cover_append : cover (l ++ k) a = cover l a + cover k a := by
  simp [cover, ranges]

theorem cover_eq_zero (h : ∀ e ∈ l, e.top ≤ a ∨ a < e.start) : cover l a = 0 := by
  induction l with
  | nil => rfl
  | cons e l ih =>
    rw [List.forall_mem_cons] at h
    rw [cover_cons, ih h.2, Nat.add_zero, Range.hits, if_neg]
    have := h.1
    simp only [Entry.range]
    omega

/-- The entries of a tracked list are disjoint. -/
theorem Tracked.cover_le_one (h : Tracked m l) : cover l a ≤ 1 := by
  induction l with
  | nil => simp
  | cons e l ih =>
    obtain ⟨-, front, rest⟩ := tracked_cons.1 h
    rw [cover_cons, Range.hits]
    split
    · rename_i ha
      have : cover l a = 0 := cover_eq_zero fun f hf =>
        .inr (Nat.lt_of_lt_of_le ha.2 (front f hf))
      omega
    · have := ih rest
      omega

end FreeList

end FreeStore
