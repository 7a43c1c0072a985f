import Mathlib.Data.List.TakeWhile
import FreeStore.Pool.Entry
/-!
Lists that a pool may keep.

A list is `Tracked` if its entries lie one behind the other, have at least the minimum size, and end
inside the address space. Everything that an operation does to a list is a cut or a join: some entries in
a row are taken out and others put in their place, all of them between the same neighbours. `tracked_append`
and `tracked_cons` take such lists apart, and the functions that read a list find the place of a cut again
(`below_append`, `through_append` and their counterparts).
-/
namespace FreeStore.FreeList

/-- The entries are apart, in order, large enough and inside the address space. -/
structure Tracked (minimum : Nat) (l : FreeList) : Prop where
  apart : l.Pairwise fun e f => e.top ≤ f.start
  large : ∀ e ∈ l, minimum ≤ e.size
  inside : ∀ e ∈ l, e.top < wordLimit

variable {m a : Nat} {e f : Entry} {l k : FreeList}

theorem tracked_nil : Tracked m [] := ⟨.nil, by simp, by simp⟩

theorem tracked_cons : Tracked m (e :: l) ↔
    (m ≤ e.size ∧ e.top < wordLimit) ∧ (∀ f ∈ l, e.top ≤ f.start) ∧ Tracked m l := by
  constructor
  · intro h
    obtain ⟨front, rest⟩ := List.pairwise_cons.1 h.apart
    exact ⟨⟨h.large e List.mem_cons_self, h.inside e List.mem_cons_self⟩, front, rest,
      fun f hf => h.large f (List.mem_cons_of_mem _ hf),
      fun f hf => h.inside f (List.mem_cons_of_mem _ hf)⟩
  · rintro ⟨⟨large, inside⟩, front, rest⟩
    exact ⟨List.pairwise_cons.2 ⟨front, rest.apart⟩, List.forall_mem_cons.2 ⟨large, rest.large⟩,
      List.forall_mem_cons.2 ⟨inside, rest.inside⟩⟩

theorem tracked_append : Tracked m (l ++ k) ↔
    Tracked m l ∧ Tracked m k ∧ ∀ e ∈ l, ∀ f ∈ k, e.top ≤ f.start := by
  induction l with
  | nil => simp [tracked_nil]
  | cons e l ih =>
    simp only [List.cons_append, tracked_cons, ih, List.mem_append, List.mem_cons]
    constructor
    · rintro ⟨he, hf, hl, hk, hlk⟩
      refine ⟨⟨he, fun f h => hf f (.inl h), hl⟩, hk, ?_⟩
      rintro d (rfl | hd) f h
      · exact hf f (.inr h)
      · exact hlk d hd f h
    · rintro ⟨⟨he, hf, hl⟩, hk, hlk⟩
      refine ⟨he, ?_, hl, hk, fun d hd => hlk d (.inr hd)⟩
      rintro f (h | h)
      · exact hf f h
      · exact hlk e (.inl rfl) f h

theorem Tracked.singleton (hs : m ≤ e.size) (ht : e.top < wordLimit) : Tracked m [e] :=
  tracked_cons.2 ⟨⟨hs, ht⟩, by simp, tracked_nil⟩

theorem Tracked.sublist (h : Tracked m l) (s : List.Sublist k l) : Tracked m k :=
  ⟨h.apart.sublist s, fun e he => h.large e (s.subset he), fun e he => h.inside e (s.subset he)⟩

/-- Two entries with an address in common are one. -/
theorem Tracked.eq_of_meet (h : Tracked m l) (he : e ∈ l) (hf : f ∈ l)
    (inE : e.start ≤ a ∧ a < e.top) (inF : f.start ≤ a ∧ a < f.top) : e = f := by
  obtain ⟨before, after, rfl⟩ := List.append_of_mem he
  obtain ⟨-, rest, cross⟩ := tracked_append.1 h
  rcases List.mem_append.1 hf with front | hf
  · have := cross f front e List.mem_cons_self
    omega
  · rcases List.mem_cons.1 hf with rfl | behind
    · rfl
    · have := (tracked_cons.1 rest).2.1 f behind
      omega

theorem Tracked.size_bounds (hm : 0 < m) (h : Tracked m l) (he : e ∈ l) :
    0 < e.size ∧ e.size < wordLimit := by
  have large := h.large e he
  have inside := h.inside e he
  unfold Entry.top at inside
  omega

/-- An entry with room for a byte starts below those behind it. -/
theorem Tracked.start_lt (hm : 0 < m) (h : Tracked m (e :: l)) (hf : f ∈ l) : e.start < f.start := by
  obtain ⟨⟨large, -⟩, front, -⟩ := tracked_cons.1 h
  have := front f hf
  unfold Entry.top at this
  omega

theorem Tracked.pairwise_start_lt (hm : 0 < m) (h : Tracked m l) :
    l.Pairwise fun e f => e.start < f.start := by
  refine h.apart.imp_of_mem fun he _ behind => ?_
  have large := h.large _ he
  unfold Entry.top at behind
  omega

theorem Tracked.nodup_starts (hm : 0 < m) (h : Tracked m l) : (l.map Entry.start).Nodup :=
  List.pairwise_map.2 ((h.pairwise_start_lt hm).imp Nat.ne_of_lt)

theorem Tracked.isOrdered (hm : 0 < m) (h : Tracked m l) : l.isOrdered = true := by
  induction l with
  | nil => rfl
  | cons e l ih =>
    cases l with
    | nil => rfl
    | cons f l =>
      have lower := h.start_lt hm (f := f) List.mem_cons_self
      obtain ⟨-, front, rest⟩ := tracked_cons.1 h
      exact isOrdered_cons_cons.2 ⟨lower, front f List.mem_cons_self, ih rest⟩

/-! ## Totals -/

@[simp] theorem bytes_nil : bytes [] = 0 := rfl

@[simp] theorem bytes_cons : bytes (e :: l) = e.size + bytes l := rfl

/-- All bytes of a tracked list lie between the lowest start and the end of the address space. -/
theorem Tracked.bytes_lt (h : Tracked m l) (ha : a < wordLimit) (hl : ∀ e ∈ l, a ≤ e.start) :
    a + l.bytes < wordLimit := by
  induction l generalizing a with
  | nil => simpa using ha
  | cons e l ih =>
    obtain ⟨⟨-, inside⟩, front, rest⟩ := tracked_cons.1 h
    have := ih rest inside front
    have := hl e List.mem_cons_self
    simp only [Entry.top, bytes_cons] at *
    omega

theorem Tracked.length_mul_le_bytes (h : Tracked m l) : l.length * m ≤ l.bytes := by
  induction l with
  | nil => simp
  | cons e l ih =>
    obtain ⟨⟨large, -⟩, -, rest⟩ := tracked_cons.1 h
    have := ih rest
    simp only [List.length_cons, bytes_cons, Nat.succ_mul]
    omega

theorem Tracked.length_le_bytes (hm : 0 < m) (h : Tracked m l) : l.length ≤ l.bytes :=
  Nat.le_trans (Nat.le_mul_of_pos_right _ hm) h.length_mul_le_bytes

/-- The others are no more than they have bytes once an entry is gone. -/
theorem Tracked.length_others_le_bytes (hm : 0 < m) (h : Tracked m (l ++ e :: k)) :
    (l ++ k).length ≤ (l ++ k).bytes :=
  (h.sublist ((List.sublist_cons_self e k).append_left l)).length_le_bytes hm

/-! ## Places in a list -/

theorem start_lt_of_mem_below (h : e ∈ below a l) : e.start < a := by
  simpa using List.mem_takeWhile_imp h

theorem start_le_of_mem_through (h : e ∈ through a l) : e.start ≤ a := by
  simpa using List.mem_takeWhile_imp h

theorem Tracked.le_start_of_mem_upFrom (hm : 0 < m) (h : Tracked m l) (he : e ∈ upFrom a l) :
    a ≤ e.start := by
  induction l with
  | nil => cases he
  | cons d l ih =>
    unfold upFrom at he ih
    by_cases hd : d.start < a
    · rw [List.dropWhile_cons_of_pos (by simpa using hd)] at he
      exact ih (tracked_cons.1 h).2.2 he
    · rw [List.dropWhile_cons_of_neg (by simpa using hd)] at he
      rcases List.mem_cons.1 he with rfl | he
      · omega
      · have := h.start_lt hm he
        omega

theorem Tracked.lt_start_of_mem_beyond (hm : 0 < m) (h : Tracked m l) (he : e ∈ beyond a l) :
    a < e.start := by
  induction l with
  | nil => cases he
  | cons d l ih =>
    unfold beyond at he ih
    by_cases hd : d.start ≤ a
    · rw [List.dropWhile_cons_of_pos (by simpa using hd)] at he
      exact ih (tracked_cons.1 h).2.2 he
    · rw [List.dropWhile_cons_of_neg (by simpa using hd)] at he
      rcases List.mem_cons.1 he with rfl | he
      · omega
      · have := h.start_lt hm he
        omega

private theorem takeWhile_append_of_none {t : Entry → Bool} (hl : ∀ e ∈ l, t e = true)
    (hk : ∀ e ∈ k, t e = false) : (l ++ k).takeWhile t = l ∧ (l ++ k).dropWhile t = k := by
  rw [List.takeWhile_append_of_pos hl, List.dropWhile_append_of_pos hl]
  cases k with
  | nil => simp
  | cons e k => simp [hk e List.mem_cons_self]

theorem below_append (hl : ∀ e ∈ l, e.start < a) (hk : ∀ e ∈ k, a ≤ e.start) :
    below a (l ++ k) = l :=
  (takeWhile_append_of_none (by simpa using hl) (by simpa using hk)).1

theorem upFrom_append (hl : ∀ e ∈ l, e.start < a) (hk : ∀ e ∈ k, a ≤ e.start) :
    upFrom a (l ++ k) = k :=
  (takeWhile_append_of_none (by simpa using hl) (by simpa using hk)).2

theorem through_append (hl : ∀ e ∈ l, e.start ≤ a) (hk : ∀ e ∈ k, a < e.start) :
    through a (l ++ k) = l :=
  (takeWhile_append_of_none (by simpa using hl) (by simpa using hk)).1

theorem beyond_append (hl : ∀ e ∈ l, e.start ≤ a) (hk : ∀ e ∈ k, a < e.start) :
    beyond a (l ++ k) = k :=
  (takeWhile_append_of_none (by simpa using hl) (by simpa using hk)).2

theorem eq_false_of_dropWhile {t : Entry → Bool} (h : l.dropWhile t = e :: k) : t e = false := by
  have := List.head_dropWhile_not t (l := l) (by simp [h])
  simpa [h] using this

theorem startsAt_iff : startsAt a l = true ↔ ∃ e ∈ l, e.start = a := by
  simp [startsAt]

theorem endsBy_of {a : Nat} (h : ∀ e ∈ l, e.top ≤ a) : l.endsBy a = true := by
  simp only [endsBy, Option.all_eq_true, decide_eq_true_eq]
  exact fun e he => h e (List.mem_of_getLast? he)

theorem startsFrom_of {a : Nat} (h : ∀ e ∈ l, a ≤ e.start) : l.startsFrom a = true := by
  simp only [startsFrom, Option.all_eq_true, decide_eq_true_eq]
  exact fun e he => h e (List.mem_of_head? he)

theorem checkTops_eq_ok (h : Tracked m l) : checkTops l = .ok () := by
  rw [checkTops, if_pos]
  simpa using h.inside

/-! ## Cuts -/

/-- The entries `k` lie in what was `e`. -/
def Within (e : Entry) (k : FreeList) : Prop := ∀ f ∈ k, e.start ≤ f.start ∧ f.top ≤ e.top

theorem within_nil : Within e [] := by simp [Within]

/-- What is left of a cut entry may stay in its place. -/
theorem Tracked.cut {before after pieces : FreeList} (h : Tracked m (before ++ e :: after))
    (hp : Tracked m pieces) (hw : Within e pieces) : Tracked m (before ++ pieces ++ after) := by
  simp only [tracked_append, tracked_cons, List.mem_cons, List.mem_append] at *
  obtain ⟨hb, ⟨-, he, ha⟩, hba⟩ := h
  refine ⟨⟨hb, hp, ?_⟩, ha, ?_⟩
  · intro d hd f hf
    exact Nat.le_trans (hba d hd e (.inl rfl)) (hw f hf).1
  · rintro d (hd | hd) f hf
    · exact hba d hd f (.inr hf)
    · exact Nat.le_trans (hw d hd).2 (he f hf)

end FreeStore.FreeList
