import FreeStore.Pool.Basic
import FreeStore.Proofs.Outcome
import FreeStore.Proofs.Tracked
/-!
The free entry histogram.

`Counts h l` says that the histogram `h` tells, of each size class, how many entries of `l` are in it and
how many bytes they have. The order of the entries does not matter (`Counts.perm`), and the table is
determined by them (`Counts.unique`). An entry that is counted can be taken out (`uncountFree_bind`), and
any entry can be put in as long as the totals of the list are words (`countFree_bind`).
-/
namespace FreeStore

namespace FreeList

/-- The entries in size class `c`. -/
def ofClass (c : Nat) (l : FreeList) : FreeList := l.filter fun e => sizeClass e.size == c

theorem bytes_perm {l k : FreeList} (h : l.Perm k) : l.bytes = k.bytes := by
  induction h with
  | nil => rfl
  | cons e _ ih => rw [bytes_cons, bytes_cons, ih]
  | swap e f l => simp only [bytes_cons]; omega
  | trans _ _ ih₁ ih₂ => exact ih₁.trans ih₂

/-- Two parts of a list taken to its front. -/
theorem perm_front (before lower upper after : FreeList) :
    (before ++ lower ++ (upper ++ after)).Perm (lower ++ (upper ++ (before ++ after))) := by
  rw [List.append_assoc]
  exact (List.perm_append_comm_assoc ..).trans ((List.perm_append_comm_assoc ..).append_left _)

theorem bytes_ofClass_le (c : Nat) (l : FreeList) : (l.ofClass c).bytes ≤ l.bytes := by
  induction l with
  | nil => exact Nat.le_refl _
  | cons e l ih =>
    unfold ofClass at ih ⊢
    rw [List.filter_cons]
    split <;> simp only [bytes_cons] <;> omega

theorem bytes_map {f : Entry → Entry} (hf : ∀ e, (f e).size = e.size) (l : FreeList) :
    bytes (l.map f) = l.bytes := by
  induction l with
  | nil => rfl
  | cons e l ih => rw [List.map_cons, bytes_cons, bytes_cons, hf, ih]

end FreeList

namespace Histogram

/-- The histogram tells the number and the bytes of the entries of `l`, class by class. -/
structure Counts (h : Histogram) (l : FreeList) : Prop where
  classes : h.tallies.length = classCount
  exact : ∀ c, h.tally c = ⟨(l.ofClass c).length, (l.ofClass c).bytes⟩

variable {h g : Histogram} {l k : FreeList} {e : Entry}

theorem sizeClass_lt {n : Nat} (hn : n < wordLimit) : sizeClass n < classCount := by
  unfold sizeClass classCount
  split
  · omega
  · rename_i h0
    have := (Nat.log2_lt h0 (k := 64)).2 hn
    omega

theorem counts_empty : Counts {} [] := by
  refine ⟨rfl, fun c => ?_⟩
  simp only [tally, FreeList.ofClass, List.filter_nil]
  rw [List.getD_eq_getElem?_getD, List.getElem?_replicate]
  split <;> rfl

theorem Counts.perm (hc : h.Counts l) (hp : l.Perm k) : h.Counts k := by
  refine ⟨hc.classes, fun c => ?_⟩
  have hf := hp.filter fun e => sizeClass e.size == c
  rw [hc.exact, FreeList.ofClass, FreeList.ofClass, hf.length_eq, FreeList.bytes_perm hf]

/-- Where the entries lie does not count. -/
theorem Counts.map {f : Entry → Entry} (hc : h.Counts l) (hf : ∀ e, (f e).size = e.size) :
    h.Counts (l.map f) := by
  refine ⟨hc.classes, fun c => ?_⟩
  have same : FreeList.ofClass c (l.map f) = (l.ofClass c).map f := by
    simp only [FreeList.ofClass, List.filter_map, Function.comp_def, hf]
  rw [hc.exact, same, List.length_map, FreeList.bytes_map hf]

/-- No two tables count the same entries. -/
theorem Counts.unique (hh : h.Counts l) (hg : g.Counts l) : h = g := by
  obtain ⟨hs⟩ := h
  obtain ⟨gs⟩ := g
  congr 1
  refine List.ext_getElem (hh.classes.trans hg.classes.symm) fun c hc hc' => ?_
  have e := (hh.exact c).trans (hg.exact c).symm
  simpa only [tally, List.getD_eq_getElem?_getD, List.getElem?_eq_getElem, hc, hc',
    Option.getD_some] using e

/-- The table after one class of it was changed. -/
private theorem counts_put (hc : h.Counts l) (hs : e.size < wordLimit) (t : Tally)
    (ht : t = ⟨(k.ofClass (sizeClass e.size)).length, (k.ofClass (sizeClass e.size)).bytes⟩)
    (ho : ∀ c, c ≠ sizeClass e.size → k.ofClass c = l.ofClass c) :
    (h.put (sizeClass e.size) t).Counts k := by
  refine ⟨by simpa [put] using hc.classes, fun c => ?_⟩
  rw [tally_put _ _ _ _ (hc.classes ▸ sizeClass_lt hs)]
  split
  · rename_i same
    rw [same, ht]
  · rename_i other
    rw [hc.exact, ho c other]

theorem ofClass_cons_self : FreeList.ofClass (sizeClass e.size) (e :: l) =
    e :: FreeList.ofClass (sizeClass e.size) l := by
  simp [FreeList.ofClass]

theorem ofClass_cons_of_ne {c : Nat} (hc : c ≠ sizeClass e.size) :
    FreeList.ofClass c (e :: l) = FreeList.ofClass c l := by
  simp [FreeList.ofClass, hc.symm]

theorem Counts.decrement (hc : h.Counts (e :: l)) (hs : e.size < wordLimit) :
    ∃ g, h.decrement e.size = .ok g ∧ g.Counts l := by
  have ht := hc.exact (sizeClass e.size)
  rw [ofClass_cons_self] at ht
  refine ⟨_, ?_, counts_put hc hs
    ⟨(h.tally (sizeClass e.size)).count - 1, (h.tally (sizeClass e.size)).bytes - e.size⟩ ?_ ?_⟩
  · unfold Histogram.decrement
    exact require_bind (by simp [ht])
  · simp [ht]
  · exact fun c hc => (ofClass_cons_of_ne hc).symm

/-- Another entry can be counted, if the totals of the list are words with it. -/
theorem Counts.increment (hc : h.Counts l) (count : l.length + 1 < wordLimit)
    (bytes : l.bytes + e.size < wordLimit) : ∃ g, h.increment e.size = .ok g ∧ g.Counts (e :: l) := by
  have tally := hc.exact (sizeClass e.size)
  have fewer : (l.ofClass (sizeClass e.size)).length ≤ l.length := List.length_filter_le _ _
  have less := FreeList.bytes_ofClass_le (sizeClass e.size) l
  refine ⟨h.put (sizeClass e.size) ⟨(l.ofClass (sizeClass e.size)).length + 1,
    (l.ofClass (sizeClass e.size)).bytes + e.size⟩, ?_, ?_⟩
  · unfold Histogram.increment Word.advance
    simp only [tally]
    rw [if_pos (by omega), if_pos (by omega)]
    rfl
  · refine counts_put hc (by omega) _ ?_ fun c hc => ofClass_cons_of_ne hc
    rw [ofClass_cons_self]
    simp only [List.length_cons, FreeList.bytes_cons, Tally.mk.injEq, true_and]
    omega

/-- The class of a size has room for one more of that size. -/
structure RoomFor (h : Histogram) (size : Nat) : Prop where
  count : (h.tally (sizeClass size)).count + 1 < wordLimit
  bytes : (h.tally (sizeClass size)).bytes + size < wordLimit

/-- A histogram records a size that its class has room for. -/
theorem increment_bind {α : Type} {F : Fault → Prop} {R : α → Prop} {k : Histogram → Outcome α} {n : Nat}
    (hF : F .counterOverflow ∨ h.RoomFor n) (w : ∀ g, Ends F (k g) R) :
    Ends F (h.increment n >>= k) R := by
  unfold Histogram.increment
  simp only [bind_assoc]
  exact Word.advance_bind (hF.imp_right RoomFor.count) (Word.advance_bind (hF.imp_right RoomFor.bytes) (w _))

end Histogram

namespace Pool

variable {α : Type} {F : Fault → Prop} {R : α → Prop} {p : Pool} {k : Pool → Outcome α} {e : Entry}
  {l : FreeList}

/-- A counted entry can be taken off the histogram. -/
theorem uncountFree_bind (hc : p.large.freeEntries.Counts (e :: l)) (h0 : 0 < e.size)
    (hs : e.size < wordLimit)
    (w : ∀ g : Histogram, g.Counts l →
      Ends F (k { p with large := { p.large with freeEntries := g } }) R) :
    Ends F (p.uncountFree e.size >>= k) R := by
  obtain ⟨g, hg, hl⟩ := hc.decrement hs
  have : p.uncountFree e.size = .ok { p with large := { p.large with freeEntries := g } } := by
    unfold uncountFree LargeObjectStats.decrementFree
    rw [if_neg (by omega), hg]
    rfl
  rw [this]
  exact w g hl

/-- An entry can be counted, if the totals of the list it is put on are words. -/
theorem incrementFree_eq {s : LargeObjectStats} (hc : s.freeEntries.Counts l) (h0 : 0 < e.size)
    (count : l.length + 1 < wordLimit) (bytes : l.bytes + e.size < wordLimit) :
    ∃ g : Histogram, g.Counts (e :: l) ∧ s.incrementFree e.size = .ok { s with freeEntries := g } := by
  obtain ⟨g, hg, counts⟩ := hc.increment count bytes
  refine ⟨g, counts, ?_⟩
  unfold LargeObjectStats.incrementFree
  rw [if_neg (by omega), hg]
  rfl

theorem countFree_bind (hc : p.large.freeEntries.Counts l) (h0 : 0 < e.size)
    (count : l.length + 1 < wordLimit) (bytes : l.bytes + e.size < wordLimit)
    (w : ∀ g : Histogram, g.Counts (e :: l) →
      Ends F (k { p with large := { p.large with freeEntries := g } }) R) :
    Ends F (p.countFree e.size >>= k) R := by
  obtain ⟨g, counts, hg⟩ := incrementFree_eq hc h0 count bytes
  have : p.countFree e.size = .ok { p with large := { p.large with freeEntries := g } } := by
    unfold countFree
    rw [hg]
    rfl
  rw [this]
  exact w g counts

end Pool

end FreeStore
