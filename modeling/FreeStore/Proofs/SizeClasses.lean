import Mathlib.Algebra.BigOperators.Group.Finset.Piecewise
import Mathlib.Algebra.Order.BigOperators.Group.Multiset
import Mathlib.Algebra.Order.Ring.Nat
import FreeStore.Proofs.Census
/-!
Histograms and the sizes that they stand for.

The sizes that were counted in a table and not taken back are a multiset, and the table tells, class by class, how
many they are and what they come to (`Histogram.Tallies`). A size may be taken back as long as it was counted more
often than taken back so far; then no booking faults, as long as the totals are words (`record_tells`). Since a
table is determined by its multiset, tables may be merged in either order, and the result is the table of all
bookings one after the other (`record_faithful`).
-/
namespace FreeStore

/-- The sizes of class `c` are those of bit length `c`. -/
def InClass (c size : Nat) : Prop := if c = 0 then size = 0 else 2 ^ (c - 1) ≤ size ∧ size < 2 ^ c

instance {c : Nat} : DecidablePred (InClass c) := fun size =>
  inferInstanceAs (Decidable (if c = 0 then size = 0 else 2 ^ (c - 1) ≤ size ∧ size < 2 ^ c))

theorem inClass_iff {c size : Nat} : InClass c size ↔ sizeClass size = c := by
  unfold InClass sizeClass
  rcases Nat.eq_zero_or_pos size with rfl | pos
  · cases c <;> simp
  · rw [if_neg (Nat.ne_of_gt pos)]
    cases c with
    | zero => simp [Nat.ne_of_gt pos]
    | succ c =>
      rw [if_neg (Nat.succ_ne_zero c), Nat.add_sub_cancel, Nat.add_right_cancel_iff,
        Nat.log2_eq_iff (Nat.ne_of_gt pos)]

/-- Number and sum of the sizes are words. -/
def InWords (m : Multiset Nat) : Prop := m.card < wordLimit ∧ m.sum < wordLimit

instance : DecidablePred InWords := fun m => inferInstanceAs (Decidable (m.card < wordLimit ∧ m.sum < wordLimit))

theorem InWords.lt {m : Multiset Nat} {n : Nat} (hm : InWords m) (hn : n ∈ m) : n < wordLimit :=
  Nat.lt_of_le_of_lt (Multiset.le_sum_of_mem hn) hm.2

theorem InWords.filter {m : Multiset Nat} (hm : InWords m) (p : Nat → Prop) [DecidablePred p] :
    InWords (m.filter p) := by
  have whole := Multiset.filter_add_not p m
  have card := congrArg Multiset.card whole
  have sum := congrArg Multiset.sum whole
  rw [Multiset.card_add] at card
  rw [Multiset.sum_add] at sum
  unfold InWords at hm ⊢
  omega

namespace Histogram

/-- The histogram tells, of each class, the number and the sum of its sizes in `m`. -/
structure Tallies (h : Histogram) (m : Multiset Nat) : Prop where
  classes : h.tallies.length = classCount
  exact : ∀ c, h.tally c = ⟨(m.filter (InClass c)).card, (m.filter (InClass c)).sum⟩

/-- What can be asked of a histogram is so of the sizes `m`. -/
structure Describes (h : Histogram) (m : Multiset Nat) : Prop where
  count : ∀ c, h.countForClass c = (m.filter (InClass c)).card
  bytes : ∀ c, (h.tally c).bytes = (m.filter (InClass c)).sum
  alike : ∀ c n, InClass c n → h.countForSize n = (m.filter (InClass c)).card
  totalCount : h.totalCount = .ok m.card
  totalBytes : h.totalBytes = .ok m.sum

variable {h g : Histogram} {m n : Multiset Nat} {l : FreeList} {size : Nat}

/-! ## Sizes as entries -/

theorem bytes_eq_sum (l : FreeList) : l.bytes = (l.map Entry.size).sum := by
  induction l with
  | nil => rfl
  | cons e l ih => rw [FreeList.bytes_cons, List.map_cons, List.sum_cons, ih]

/-- Free entries are counted by their sizes. -/
theorem tallies_entries : h.Tallies (l.map Entry.size) ↔ h.Counts l := by
  have sizes (c : Nat) : (l.map Entry.size).filter (InClass c ·) = (l.ofClass c).map Entry.size := by
    simp only [FreeList.ofClass, List.filter_map, Function.comp_def, inClass_iff, beq_eq_decide]
  have same (c : Nat) : ((l.map Entry.size : Multiset Nat).filter (InClass c)).card = (l.ofClass c).length ∧
      ((l.map Entry.size : Multiset Nat).filter (InClass c)).sum = (l.ofClass c).bytes := by
    rw [Multiset.filter_coe, sizes, Multiset.coe_card, Multiset.sum_coe, List.length_map, bytes_eq_sum]
    exact ⟨rfl, rfl⟩
  constructor
  · exact fun ht => ⟨ht.classes, fun c => (same c).1 ▸ (same c).2 ▸ ht.exact c⟩
  · rintro ⟨classes, exact⟩
    refine ⟨classes, fun c => ?_⟩
    rw [exact, (same c).1, (same c).2]

/-- Any sizes are those of some entries. -/
theorem exists_entries (m : Multiset Nat) : ∃ l : FreeList, (l.map Entry.size : Multiset Nat) = m := by
  obtain ⟨sizes, rfl⟩ := Quot.exists_rep m
  refine ⟨sizes.map (Entry.mk 0), ?_⟩
  rw [List.map_map]
  exact congrArg _ (List.map_id sizes)

theorem tallies_empty : Tallies {} 0 := tallies_entries (l := []).2 counts_empty

theorem Tallies.unique (hm : h.Tallies m) (gm : g.Tallies m) : h = g := by
  obtain ⟨l, rfl⟩ := exists_entries m
  exact (tallies_entries.1 hm).unique (tallies_entries.1 gm)

theorem Tallies.increment (hm : h.Tallies m) (words : InWords (size ::ₘ m)) :
    ∃ g, h.increment size = .ok g ∧ g.Tallies (size ::ₘ m) := by
  obtain ⟨l, rfl⟩ := exists_entries m
  obtain ⟨count, sum⟩ := words
  rw [Multiset.card_cons, Multiset.coe_card, List.length_map] at count
  rw [Multiset.sum_cons, Multiset.sum_coe, ← bytes_eq_sum, Nat.add_comm] at sum
  obtain ⟨g, done, counts⟩ := (tallies_entries.1 hm).increment (e := ⟨0, size⟩) count sum
  exact ⟨g, done, tallies_entries.2 counts⟩

theorem Tallies.decrement (hm : h.Tallies (size ::ₘ m)) (word : size < wordLimit) :
    ∃ g, h.decrement size = .ok g ∧ g.Tallies m := by
  obtain ⟨l, rfl⟩ := exists_entries m
  obtain ⟨g, done, counts⟩ := Counts.decrement (e := ⟨0, size⟩) (l := l) (tallies_entries.1 hm) word
  exact ⟨g, done, tallies_entries.2 counts⟩

/-! ## Totals -/

/-- Every size is in one of the classes, and only in one. -/
theorem sum_classes (weight : Nat → Nat) (words : ∀ n ∈ m, n < wordLimit) :
    ∑ c ∈ Finset.range classCount, ((m.filter (InClass c)).map weight).sum = (m.map weight).sum := by
  induction m using Multiset.induction_on with
  | empty => simp
  | cons n m ih =>
    have inside : sizeClass n ∈ Finset.range classCount :=
      Finset.mem_range.2 (sizeClass_lt (words n (Multiset.mem_cons_self n m)))
    have split (c : Nat) : (((n ::ₘ m).filter (InClass c)).map weight).sum =
        (if sizeClass n = c then weight n else 0) + ((m.filter (InClass c)).map weight).sum := by
      by_cases here : sizeClass n = c
      · rw [if_pos here, Multiset.filter_cons_of_pos _ (inClass_iff.2 here), Multiset.map_cons,
          Multiset.sum_cons]
      · rw [if_neg here, Multiset.filter_cons_of_neg _ (mt inClass_iff.1 here), Nat.zero_add]
    rw [Finset.sum_congr rfl fun c _ => split c, Finset.sum_add_distrib, Finset.sum_ite_eq, if_pos inside,
      ih fun k hk => words k (Multiset.mem_cons_of_mem hk), Multiset.map_cons, Multiset.sum_cons]

theorem foldr_tallies (f : Tally → Nat) (ts : List Tally) :
    ts.foldr (fun t total => f t + total) 0 = ∑ c ∈ Finset.range ts.length, f (ts.getD c {}) := by
  induction ts with
  | nil => rfl
  | cons t ts ih =>
    rw [List.foldr_cons, List.length_cons, Finset.sum_range_succ', ih, Nat.add_comm]
    rfl

theorem Tallies.describes (hm : h.Tallies m) (words : InWords m) : h.Describes m := by
  have sizes : ∀ n ∈ m, n < wordLimit := fun n => words.lt
  have counts (c : Nat) : h.countForClass c = (m.filter (InClass c)).card := by
    rw [countForClass, hm.exact]
  refine ⟨counts, fun c => by rw [hm.exact], fun c n same => ?_, ?_, ?_⟩
  · rw [countForSize, inClass_iff.1 same, counts]
  · have total := sum_classes (fun _ => 1) sizes
    simp only [Multiset.map_const', Multiset.sum_replicate, Nat.nsmul_eq_mul, Nat.mul_one] at total
    rw [Histogram.totalCount, foldr_tallies Tally.count, hm.classes]
    have same : ∑ c ∈ Finset.range classCount, (h.tallies.getD c {}).count = m.card := by
      rw [← total]
      exact Finset.sum_congr rfl fun c _ => counts c
    rw [same]
    exact Word.fit_eq_ok.2 ⟨words.1, rfl⟩
  · have total := sum_classes id sizes
    simp only [Multiset.map_id] at total
    rw [Histogram.totalBytes, foldr_tallies Tally.bytes, hm.classes]
    have same : ∑ c ∈ Finset.range classCount, (h.tallies.getD c {}).bytes = m.sum := by
      rw [← total]
      exact Finset.sum_congr rfl fun c _ => congrArg Tally.bytes (hm.exact c)
    rw [same]
    exact Word.fit_eq_ok.2 ⟨words.2, rfl⟩

/-! ## Merging -/

/-- Tables are merged class by class, as long as each sum is a word. -/
theorem mergeTallies_eq {ts us : List Tally} (length : ts.length = us.length)
    (fits : ∀ c, (ts.getD c {}).count + (us.getD c {}).count < wordLimit ∧
      (ts.getD c {}).bytes + (us.getD c {}).bytes < wordLimit) :
    ∃ vs, mergeTallies ts us = .ok vs ∧ vs.length = ts.length ∧ ∀ c, vs.getD c {} =
      ⟨(ts.getD c {}).count + (us.getD c {}).count, (ts.getD c {}).bytes + (us.getD c {}).bytes⟩ := by
  induction ts generalizing us with
  | nil =>
    obtain rfl := List.eq_nil_of_length_eq_zero length.symm
    exact ⟨[], rfl, rfl, fun c => rfl⟩
  | cons t ts ih =>
    cases us with
    | nil => cases length
    | cons u us =>
      obtain ⟨vs, done, length', exact⟩ := ih (Nat.succ.inj length) fun c => fits (c + 1)
      obtain ⟨count, bytes⟩ : t.count + u.count < wordLimit ∧ t.bytes + u.bytes < wordLimit := fits 0
      refine ⟨⟨t.count + u.count, t.bytes + u.bytes⟩ :: vs, ?_, congrArg Nat.succ length', fun c => ?_⟩
      · rw [mergeTallies, Word.add_bind count, Word.add_bind bytes, done]
        rfl
      · cases c with
        | zero => rfl
        | succ c => exact exact c

theorem Tallies.merge (hm : h.Tallies m) (gn : g.Tallies n) (words : InWords (m + n)) :
    ∃ k, h.merge g = .ok k ∧ k.Tallies (m + n) := by
  have both (c : Nat) : h.tallies.getD c {} = ⟨_, _⟩ ∧ g.tallies.getD c {} = ⟨_, _⟩ := ⟨hm.exact c, gn.exact c⟩
  have fits (c : Nat) := words.filter (InClass c)
  simp only [InWords, Multiset.filter_add, Multiset.card_add, Multiset.sum_add] at fits
  obtain ⟨ks, done, length, exact⟩ := mergeTallies_eq (hm.classes.trans gn.classes.symm) fun c => by
    rw [(both c).1, (both c).2]
    exact fits c
  refine ⟨⟨ks⟩, by rw [Histogram.merge, done]; rfl, length.trans hm.classes, fun c => ?_⟩
  rw [Multiset.filter_add, Multiset.card_add, Multiset.sum_add]
  refine (exact c).trans ?_
  rw [(both c).1, (both c).2]

end Histogram

namespace LargeObjectStats

open Histogram (Tallies Describes)

/-! ## Bookings -/

inductive Table where
  | freeEntries
  | objects
  | tlhs
  deriving DecidableEq, Repr

/-- An entry in the books: a size is counted, or a counted free entry is taken back. -/
inductive Booking where
  | count (table : Table) (size : Nat)
  | uncount (size : Nat)
  deriving DecidableEq, Repr

def table (s : LargeObjectStats) : Table → Histogram
  | .freeEntries => s.freeEntries
  | .objects => s.objects
  | .tlhs => s.tlhs

def book (s : LargeObjectStats) : Booking → Outcome LargeObjectStats
  | .count .freeEntries size => s.incrementFree size
  | .count .objects size => s.recordObject size
  | .count .tlhs size => s.recordTlh size
  | .uncount size => s.decrementFree size

/-- New tables, after the bookings. -/
def record (bs : List Booking) : Outcome LargeObjectStats := bs.foldlM book {}

/-- The sizes counted in a table. -/
def counted (k : Table) (bs : List Booking) : List Nat :=
  bs.filterMap fun
    | .count k' size => if k' = k then some size else none
    | .uncount _ => none

/-- The sizes taken back. -/
def uncounted (k : Table) (bs : List Booking) : List Nat :=
  bs.filterMap fun
    | .uncount size => if k = .freeEntries then some size else none
    | .count _ _ => none

/-- The sizes counted and not taken back. -/
def left (k : Table) (bs : List Booking) : Multiset Nat := (counted k bs : Multiset Nat) - uncounted k bs

/-- The sizes that a table stands for. An empty range is no free entry. -/
def remaining (k : Table) (bs : List Booking) : Multiset Nat :=
  (left k bs).filter fun size => k = .freeEntries → size ≠ 0

/-- Whenever a size is taken back, it was counted more often than taken back before. -/
def Covered (bs : List Booking) : Prop :=
  ∀ before size, before ++ [.uncount size] <+: bs →
    before.count (.uncount size) < before.count (.count .freeEntries size)

/-- At no time are the totals of a table too large for a word. -/
def StaysInWords (bs : List Booking) : Prop := ∀ before, before <+: bs → ∀ k, InWords (remaining k before)

instance {p : Table → Prop} [DecidablePred p] : Decidable (∀ k, p k) :=
  decidable_of_iff (p .freeEntries ∧ p .objects ∧ p .tlhs)
    ⟨fun ⟨free, objects, tlhs⟩ k => by cases k <;> assumption, fun all => ⟨all _, all _, all _⟩⟩

instance : DecidablePred Covered := fun bs =>
  decidable_of_iff (∀ before ∈ bs.inits, ∀ size ∈ uncounted .freeEntries bs,
      before ++ [.uncount size] ∈ bs.inits →
        before.count (.uncount size) < before.count (.count .freeEntries size))
    ⟨fun h before size cut => h before ((List.mem_inits _ _).2 ((List.prefix_append _ _).trans cut)) size
        (List.mem_filterMap.2 ⟨_, cut.subset (List.mem_append_right _ List.mem_cons_self), rfl⟩)
        ((List.mem_inits _ _).2 cut),
      fun h before _ size _ cut => h before size ((List.mem_inits _ _).1 cut)⟩

instance : DecidablePred StaysInWords := fun bs =>
  decidable_of_iff (∀ before ∈ bs.inits, ∀ k, InWords (remaining k before))
    ⟨fun h before cut => h before ((List.mem_inits _ _).2 cut),
      fun h before cut => h before ((List.mem_inits _ _).1 cut)⟩

variable {s t u : LargeObjectStats} {b : Booking} {bs xs ys : List Booking} {k : Table} {size : Nat}

/-! ## What is left -/

theorem Covered.of_append (h : Covered (xs ++ ys)) : Covered xs := fun before size cut =>
  h before size (cut.trans (List.prefix_append xs ys))

theorem StaysInWords.of_append (h : StaysInWords (xs ++ ys)) : StaysInWords xs := fun before cut =>
  h before (cut.trans (List.prefix_append xs ys))

theorem count_counted : (counted .freeEntries bs).count size = bs.count (.count .freeEntries size) := by
  induction bs with
  | nil => rfl
  | cons b bs ih =>
    rw [List.count_cons, ← ih]
    cases b with
    | count k' n => cases k' <;> simp [counted, List.count_cons]
    | uncount n => simp [counted]

theorem count_uncounted : (uncounted .freeEntries bs).count size = bs.count (.uncount size) := by
  induction bs with
  | nil => rfl
  | cons b bs ih =>
    rw [List.count_cons, ← ih]
    cases b with
    | count k' n => simp [uncounted]
    | uncount n => simp [uncounted, List.count_cons]

theorem uncounted_of_ne (other : k ≠ .freeEntries) : uncounted k bs = [] := by
  refine List.filterMap_eq_nil_iff.2 fun b _ => ?_
  cases b with
  | count _ _ => rfl
  | uncount n => exact if_neg other

theorem Covered.count_le (h : Covered bs) (size : Nat) :
    bs.count (.uncount size) ≤ bs.count (.count .freeEntries size) := by
  induction bs using List.reverseRecOn with
  | nil => exact Nat.le_refl _
  | append_singleton bs b ih =>
    have before := ih h.of_append
    rw [List.count_append, List.count_append, List.count_singleton, List.count_singleton]
    by_cases back : b = .uncount size
    · have := h bs size (back ▸ List.prefix_rfl)
      simp only [back, beq_self_eq_true, if_true]
      omega
    · have other : (b == .uncount size) = false := by simpa using back
      rw [other, if_neg Bool.false_ne_true]
      omega

/-- No more is taken back than was counted. -/
theorem Covered.uncounted_le (h : Covered bs) : (uncounted k bs : Multiset Nat) ≤ counted k bs := by
  by_cases free : k = .freeEntries
  · subst free
    refine Multiset.le_iff_count.2 fun size => ?_
    rw [Multiset.coe_count, Multiset.coe_count, count_counted, count_uncounted]
    exact h.count_le size
  · rw [uncounted_of_ne free]
    exact Multiset.zero_le _

theorem Covered.append (hx : Covered xs) (hy : Covered ys) : Covered (xs ++ ys) := by
  rintro before size ⟨after, cut⟩
  rcases List.append_eq_append_iff.1 cut with ⟨rest, inside, -⟩ | ⟨rest, inside, behind⟩
  · exact hx before size ⟨rest, inside.symm⟩
  · rcases rest.eq_nil_or_concat with rfl | ⟨pre, last, rfl⟩
    · exact hx before size ⟨[], by rw [inside, List.append_nil, List.append_nil]⟩
    · rw [List.concat_eq_append, ← List.append_assoc] at inside
      obtain ⟨rfl, same⟩ := List.append_inj' inside rfl
      cases same
      have first := hx.count_le size
      have second := hy pre size ⟨after, by rw [behind, List.concat_eq_append]⟩
      rw [List.count_append, List.count_append]
      omega

theorem left_append (hx : Covered xs) (hy : Covered ys) : left k (xs ++ ys) = left k xs + left k ys := by
  have lx := Multiset.le_iff_count.1 (hx.uncounted_le (k := k))
  have ly := Multiset.le_iff_count.1 (hy.uncounted_le (k := k))
  ext size
  have := lx size
  have := ly size
  simp only [left, counted, uncounted, List.filterMap_append, ← Multiset.coe_add, Multiset.count_add,
    Multiset.count_sub] at *
  omega

theorem remaining_append (hx : Covered xs) (hy : Covered ys) :
    remaining k (xs ++ ys) = remaining k xs + remaining k ys := by
  rw [remaining, left_append hx hy, Multiset.filter_add]
  rfl

theorem covered_count {k' : Table} : Covered [.count k' size] := fun before n cut => by
  have last := cut.subset (List.mem_append_right before List.mem_cons_self)
  simp at last

theorem left_count {k' : Table} : left k [.count k' size] = if k' = k then {size} else 0 := by
  by_cases same : k' = k <;> simp [left, counted, uncounted, same]

/-- A counted size joins those of its table, unless it is an empty range. -/
theorem remaining_count (h : Covered bs) (k' : Table) (size : Nat) :
    remaining k (bs ++ [.count k' size]) =
      if k' = k ∧ (k = .freeEntries → size ≠ 0) then size ::ₘ remaining k bs else remaining k bs := by
  rw [remaining_append h covered_count, remaining, remaining, left_count]
  by_cases same : k' = k
  · rw [if_pos same, Multiset.filter_singleton]
    by_cases keeps : k = .freeEntries → size ≠ 0
    · rw [if_pos keeps, if_pos ⟨same, keeps⟩, Multiset.add_comm, Multiset.singleton_add]
    · rw [if_neg keeps, if_neg fun both => keeps both.2]
      exact add_zero _
  · rw [if_neg same, if_neg fun both => same both.1]
    exact add_zero _

/-- What is taken back was there. -/
theorem left_uncount (h : Covered (bs ++ [.uncount size])) :
    left .freeEntries bs = size ::ₘ left .freeEntries (bs ++ [.uncount size]) := by
  ext n
  rw [Multiset.count_cons]
  simp only [left, Multiset.count_sub, Multiset.coe_count, count_counted, count_uncounted, List.count_append]
  have enough := h bs size List.prefix_rfl
  rw [List.count_singleton, List.count_singleton, if_neg (beq_iff_eq.not.2 Booking.noConfusion), Nat.add_zero]
  by_cases same : n = size
  · subst same
    rw [if_pos (beq_self_eq_true _), if_pos rfl]
    omega
  · rw [if_neg (mt beq_iff_eq.1 fun eq => same (Booking.uncount.inj eq).symm), if_neg same]
    rfl

/-- A size that is taken back was there, unless it is an empty range. -/
theorem remaining_uncount (h : Covered (bs ++ [.uncount size])) :
    remaining k bs = if k = .freeEntries ∧ size ≠ 0 then size ::ₘ remaining k (bs ++ [.uncount size])
      else remaining k (bs ++ [.uncount size]) := by
  by_cases free : k = .freeEntries
  · subst free
    rw [remaining, left_uncount h]
    by_cases empty : size = 0
    · rw [if_neg fun both => both.2 empty]
      exact Multiset.filter_cons_of_neg _ fun keeps => keeps rfl empty
    · rw [if_pos ⟨rfl, empty⟩]
      exact Multiset.filter_cons_of_pos _ fun _ => empty
  · rw [if_neg fun both => free both.1, remaining, remaining, left, left, uncounted_of_ne free,
      uncounted_of_ne free, counted, counted, List.filterMap_append]
    rw [show List.filterMap _ [Booking.uncount size] = [] from rfl, List.append_nil]

/-! ## Records -/

def put (s : LargeObjectStats) (k : Table) (h : Histogram) : LargeObjectStats :=
  match k with
  | .freeEntries => { s with freeEntries := h }
  | .objects => { s with objects := h }
  | .tlhs => { s with tlhs := h }

theorem table_put (s : LargeObjectStats) (k k' : Table) (h : Histogram) :
    (s.put k h).table k' = if k' = k then h else s.table k' := by
  cases k <;> cases k' <;> rfl

theorem book_count : s.book (.count k size) =
    if k = .freeEntries ∧ size = 0 then .ok s else return s.put k (← (s.table k).increment size) := by
  cases k with
  | freeEntries => simp only [book, incrementFree, true_and]; rfl
  | objects => rfl
  | tlhs => rfl

theorem book_uncount : s.book (.uncount size) =
    if size = 0 then .ok s else return s.put .freeEntries (← (s.table .freeEntries).decrement size) := rfl

/-- One booking more is one size more or less in the table that it concerns. -/
theorem exists_book (hs : ∀ k, (s.table k).Tallies (remaining k bs)) (covered : Covered (bs ++ [b]))
    (words : StaysInWords (bs ++ [b])) :
    ∃ t, s.book b = .ok t ∧ ∀ k, (t.table k).Tallies (remaining k (bs ++ [b])) := by
  cases b with
  | count k' size =>
    have after (k : Table) := remaining_count (k := k) covered.of_append k' size
    rw [book_count]
    by_cases empty : k' = .freeEntries ∧ size = 0
    · rw [if_pos empty]
      refine ⟨s, rfl, fun k => ?_⟩
      rw [after, if_neg fun both => both.2 (both.1 ▸ empty.1) empty.2]
      exact hs k
    · have joins : k' = k' ∧ (k' = .freeEntries → size ≠ 0) := ⟨rfl, not_and.1 empty⟩
      have fits := words _ List.prefix_rfl k'
      rw [after, if_pos joins] at fits
      obtain ⟨h, done, tallies⟩ := (hs k').increment fits
      rw [if_neg empty, done]
      refine ⟨s.put k' h, rfl, fun k => ?_⟩
      rw [table_put, after]
      by_cases same : k = k'
      · subst same
        rw [if_pos rfl, if_pos joins]
        exact tallies
      · rw [if_neg same, if_neg fun both => same both.1.symm]
        exact hs k
  | uncount size =>
    have before (k : Table) := remaining_uncount (k := k) covered
    rw [book_uncount]
    by_cases empty : size = 0
    · rw [if_pos empty]
      refine ⟨s, rfl, fun k => ?_⟩
      have same := before k
      rw [if_neg fun both => both.2 empty] at same
      exact same ▸ hs k
    · have taken := before .freeEntries
      rw [if_pos ⟨rfl, empty⟩] at taken
      have word := (words bs (List.prefix_append _ _) .freeEntries).lt (taken ▸ Multiset.mem_cons_self size _)
      obtain ⟨h, done, tallies⟩ := (taken ▸ hs .freeEntries).decrement word
      rw [if_neg empty, done]
      refine ⟨s.put .freeEntries h, rfl, fun k => ?_⟩
      rw [table_put]
      by_cases free : k = .freeEntries
      · subst free
        rw [if_pos rfl]
        exact tallies
      · have same := before k
        rw [if_neg fun both => free both.1] at same
        rw [if_neg free, ← same]
        exact hs k

/-- No booking faults, and the tables tell what is left of the sizes counted. -/
theorem record_tells (covered : Covered bs) (words : StaysInWords bs) :
    ∃ s, record bs = .ok s ∧ ∀ k, (s.table k).Tallies (remaining k bs) := by
  induction bs using List.reverseRecOn with
  | nil =>
    refine ⟨{}, rfl, fun k => ?_⟩
    cases k <;> exact Histogram.tallies_empty
  | append_singleton bs b ih =>
    obtain ⟨s, done, tells⟩ := ih covered.of_append words.of_append
    obtain ⟨t, done', tells'⟩ := exists_book tells covered words
    refine ⟨t, ?_, tells'⟩
    rw [record, List.foldlM_append, ← record, done, ok_bind, List.foldlM_cons, done', ok_bind]
    rfl

theorem eq_of_tables (same : ∀ k, s.table k = t.table k) : s = t := by
  obtain ⟨_, _, _⟩ := s
  obtain ⟨_, _, _⟩ := t
  exact mk.injEq .. ▸ ⟨same .freeEntries, same .objects, same .tlhs⟩

/-- Tables that tell of the same sizes are the same. -/
theorem eq_of_tallies {m : Table → Multiset Nat} (hs : ∀ k, (s.table k).Tallies (m k))
    (ht : ∀ k, (t.table k).Tallies (m k)) : s = t :=
  eq_of_tables fun k => (hs k).unique (ht k)

theorem exists_merge {m n : Table → Multiset Nat} (hs : ∀ k, (s.table k).Tallies (m k))
    (ht : ∀ k, (t.table k).Tallies (n k)) (words : ∀ k, InWords (m k + n k)) :
    ∃ u, s.merge t = .ok u ∧ ∀ k, (u.table k).Tallies (m k + n k) := by
  have merged (k : Table) := (hs k).merge (ht k) (words k)
  obtain ⟨free, doneF, talliesF⟩ := merged .freeEntries
  obtain ⟨objects, doneO, talliesO⟩ := merged .objects
  obtain ⟨tlhs, doneT, talliesT⟩ := merged .tlhs
  simp only [table] at doneF doneO doneT
  refine ⟨⟨free, objects, tlhs⟩, by rw [merge, doneF, doneO, doneT]; rfl, fun k => ?_⟩
  cases k with
  | freeEntries => exact talliesF
  | objects => exact talliesO
  | tlhs => exact talliesT

theorem record_append (hx : Covered xs) (hy : Covered ys) (words : StaysInWords (xs ++ ys))
    (tells : ∀ k, (u.table k).Tallies (remaining k xs + remaining k ys)) : record (xs ++ ys) = .ok u := by
  obtain ⟨u', done, tells'⟩ := record_tells (hx.append hy) words
  obtain rfl : u' = u := eq_of_tallies (fun k => remaining_append hx hy ▸ tells' k) tells
  exact done

/-- Two runs of bookings, each of which takes back only what was counted, end without a fault as long as all totals
are words. Each table then tells, class by class and in total, of the sizes that are left. Merged in either order,
the tables of the two runs are those of one run behind the other. -/
theorem record_faithful (hx : Covered xs) (hy : Covered ys) (wx : StaysInWords xs) (wy : StaysInWords ys)
    (both : ∀ k, InWords (remaining k xs + remaining k ys)) :
    ∃ s t u, record xs = .ok s ∧ record ys = .ok t ∧ s.merge t = .ok u ∧ t.merge s = .ok u ∧
      (StaysInWords (xs ++ ys) → record (xs ++ ys) = .ok u) ∧
      (StaysInWords (ys ++ xs) → record (ys ++ xs) = .ok u) ∧
      ∀ k, (s.table k).Describes (remaining k xs) ∧ (t.table k).Describes (remaining k ys) ∧
        (u.table k).Describes (remaining k xs + remaining k ys) := by
  obtain ⟨s, doneX, tellsX⟩ := record_tells hx wx
  obtain ⟨t, doneY, tellsY⟩ := record_tells hy wy
  obtain ⟨u, merged, tells⟩ := exists_merge tellsX tellsY both
  have swap (k : Table) : remaining k ys + remaining k xs = remaining k xs + remaining k ys :=
    Multiset.add_comm _ _
  obtain ⟨u', merged', tells'⟩ := exists_merge tellsY tellsX fun k => swap k ▸ both k
  obtain rfl : u' = u := eq_of_tallies tells' fun k => swap k ▸ tells k
  refine ⟨s, t, u', doneX, doneY, merged, merged', fun words => ?_, fun words => ?_, fun k =>
    ⟨(tellsX k).describes (wx _ List.prefix_rfl k), (tellsY k).describes (wy _ List.prefix_rfl k),
      (tells k).describes (both k)⟩⟩
  · exact record_append hx hy words tells
  · exact record_append hy hx words tells'

/-- An empty range, which is no free entry but an object, both sides of the edge at 16, the largest size of all, and
a free entry taken back. -/
theorem record_faithful_of_two_runs :
    ∃ s t u,
      record [.count .freeEntries 0, .count .freeEntries 15, .count .freeEntries 16, .uncount 15, .uncount 16,
        .count .objects 0, .count .tlhs (wordLimit - 17)] = .ok s ∧
      record [.count .freeEntries 16, .count .objects 15, .count .freeEntries 16, .uncount 16, .count .tlhs 16] =
        .ok t ∧
      s.merge t = .ok u ∧ t.merge s = .ok u ∧ (u.table .freeEntries).Describes {16} ∧
      (u.table .objects).Describes {0, 15} ∧ (u.table .tlhs).Describes {wordLimit - 17, 16} := by
  let xs : List Booking := [.count .freeEntries 0, .count .freeEntries 15, .count .freeEntries 16, .uncount 15,
    .uncount 16, .count .objects 0, .count .tlhs (wordLimit - 17)]
  let ys : List Booking := [.count .freeEntries 16, .count .objects 15, .count .freeEntries 16, .uncount 16,
    .count .tlhs 16]
  have hx : Covered xs ∧ StaysInWords xs := by decide +kernel
  have hy : Covered ys ∧ StaysInWords ys := by decide +kernel
  have both : ∀ k, InWords (remaining k xs + remaining k ys) := by decide +kernel
  obtain ⟨s, t, u, doneX, doneY, merged, merged', -, -, tells⟩ := record_faithful hx.1 hy.1 hx.2 hy.2 both
  refine ⟨s, t, u, doneX, doneY, merged, merged', ?_, ?_, ?_⟩
  · convert (tells .freeEntries).2.2 using 1
    decide +kernel
  · convert (tells .objects).2.2 using 1
    decide +kernel
  · convert (tells .tlhs).2.2 using 1
    decide +kernel

end LargeObjectStats

end FreeStore
