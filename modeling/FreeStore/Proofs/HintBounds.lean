import FreeStore.Pool.Hint
import FreeStore.Proofs.Tracked
/-!
Hints and the list they point into.

A hint `(entry, size)` is right for a list if an entry starts at `entry` and every entry below has at most
`size` bytes; a cache `Holds` if all its active hints are right. The first part of this module says which
hints an operation of the cache leaves active. From that follows, for every way in which a list changes,
which operation of the cache keeps it right: a cut entry has its hints removed, or moved to the one piece
that is left of it, and an insertion has the hints above it pulled back.
-/
namespace FreeStore

/-- A hint of `size` bytes at `entry` is right for the list. -/
def FreeList.Bounds (l : FreeList) (entry size : Nat) : Prop :=
  (∃ e ∈ l, e.start = entry) ∧ ∀ e ∈ l, e.start < entry → e.size ≤ size

namespace HintCache

/-- Every active hint is right for the list. -/
def Holds (c : HintCache) (l : FreeList) : Prop := ∀ h ∈ c.active, l.Bounds h.entry h.size

variable {c : HintCache} {h g : Hint} {entry size a b : Nat}

/-! ## Active hints -/

theorem mem_remove : h ∈ (c.remove a).active ↔ h ∈ c.active ∧ h.entry ≠ a := by
  simp [remove, withdraw]

theorem mem_update (hm : h ∈ (c.update a b).active) : ∃ g ∈ c.active, h.size = g.size ∧
    h.entry = if g.entry = a then b else g.entry := by
  simp only [update, List.mem_map] at hm
  obtain ⟨g, hg, rfl⟩ := hm
  refine ⟨g, hg, ?_⟩
  split <;> exact ⟨rfl, rfl⟩

theorem mem_updateBeyond (hm : h ∈ (c.updateBeyond a).active) : ∃ g ∈ c.active, h.size = g.size ∧
    h.entry = min g.entry a := by
  simp only [updateBeyond, List.mem_map] at hm
  obtain ⟨g, hg, rfl⟩ := hm
  refine ⟨g, hg, ?_⟩
  split
  · rename_i above
    exact ⟨rfl, (Nat.min_eq_right (Nat.le_of_lt above)).symm⟩
  · rename_i notAbove
    exact ⟨rfl, (Nat.min_eq_left (Nat.le_of_not_lt notAbove)).symm⟩

theorem mem_overwrite {l : List Hint} {slot : Nat} (hm : h ∈ overwrite slot g l) : h ∈ l ∨ h = g := by
  simp only [overwrite, List.mem_map] at hm
  obtain ⟨f, hf, rfl⟩ := hm
  split
  · exact .inr rfl
  · exact .inl hf

theorem mem_place (hm : h ∈ (c.place entry size).active) :
    h ∈ c.active ∨ h.entry = entry ∧ h.size = size := by
  unfold place at hm
  split at hm
  · rcases List.mem_cons.1 hm with rfl | hm
    · exact .inr ⟨rfl, rfl⟩
    · exact .inl hm
  · split at hm
    · exact .inl hm
    · rcases mem_overwrite hm with hm | rfl
      · exact .inl hm
      · exact .inr ⟨rfl, rfl⟩

theorem mem_add (hm : h ∈ (c.add entry size).active) :
    h ∈ c.active ∨ h.entry = entry ∧ h.size = size := by
  -- purging only drops hints
  have purged : ∀ t d : Hint → Bool,
      h ∈ (c.active.takeWhile t).filter d ++ c.active.dropWhile t → h ∈ c.active := by
    intro t d hm
    rcases List.mem_append.1 hm with hm | hm
    · exact List.takeWhile_subset _ (List.mem_filter.1 hm).1
    · exact List.dropWhile_subset _ hm
  unfold add at hm
  simp only at hm
  split at hm
  · rcases mem_place hm with hm | new
    · exact .inl (purged _ _ hm)
    · exact .inr new
  · exact .inl (purged _ _ hm)

theorem best?_mem {l : List Hint} (hb : best? size l = some h) : h ∈ l ∧ h.size < size := by
  induction l generalizing h with
  | nil => cases hb
  | cons f l ih =>
    unfold best? at hb
    split at hb
    · split at hb
      · cases hb
        exact ⟨List.mem_cons_self, by assumption⟩
      · cases hb
    · rename_i g hg
      obtain ⟨hm, hs⟩ := ih hg
      split at hb
      · rename_i better
        cases hb
        exact ⟨List.mem_cons_self, by simp_all⟩
      · cases hb
        exact ⟨List.mem_cons_of_mem _ hm, hs⟩

/-- Finding a hint moves no hint. -/
theorem mem_find {head : Option Nat} (hm : h ∈ (c.find size head).1.active) :
    ∃ g ∈ c.active, h.entry = g.entry ∧ h.size = g.size := by
  have kept : ∀ f ∈ (c.withdraw (isStale head)).active, f ∈ c.active := by
    intro f hf
    exact (List.mem_filter.1 hf).1
  unfold find at hm
  simp only at hm
  split at hm
  · exact ⟨h, kept h hm, rfl, rfl⟩
  · rename_i f hf
    rcases mem_overwrite hm with hm | rfl
    · exact ⟨h, kept h hm, rfl, rfl⟩
    · exact ⟨f, kept f (best?_mem hf).1, rfl, rfl⟩

theorem mem_of_find {head : Option Nat} (hf : (c.find size head).2 = some h) :
    h ∈ c.active ∧ h.size < size := by
  unfold find at hf
  simp only at hf
  split at hf
  · cases hf
  · rename_i f hb
    cases hf
    obtain ⟨hm, hs⟩ := best?_mem hb
    exact ⟨(List.mem_filter.1 hm).1, hs⟩

/-! ## Keeping the hints right -/

variable {m : Nat} {e f : Entry} {l k before after pieces : FreeList}

theorem holds_clear : c.clear.Holds l := by simp [Holds, clear]

theorem Holds.find (hc : c.Holds l) (head : Option Nat) : (c.find size head).1.Holds l := by
  intro h hm
  obtain ⟨g, hg, he, hs⟩ := mem_find hm
  rw [he, hs]
  exact hc g hg

theorem Holds.add (hc : c.Holds l) (hb : l.Bounds entry size) : (c.add entry size).Holds l := by
  intro h hm
  rcases mem_add hm with hm | ⟨rfl, rfl⟩
  · exact hc h hm
  · exact hb

/-- A bound at another entry survives a cut. -/
private theorem bounds_cut (hw : FreeList.Within e pieces)
    (hb : FreeList.Bounds (before ++ e :: after) entry size) (hne : entry ≠ e.start)
    (hs : ∀ f ∈ pieces, f.size ≤ e.size) :
    FreeList.Bounds (before ++ pieces ++ after) entry size := by
  obtain ⟨⟨d, hd, rfl⟩, bound⟩ := hb
  simp only [List.mem_append, List.mem_cons] at hd bound
  refine ⟨⟨d, ?_, rfl⟩, ?_⟩
  · rcases hd with hd | rfl | hd
    · simp [hd]
    · exact absurd rfl hne
    · simp [hd]
  · intro f hf lower
    simp only [List.mem_append] at hf
    rcases hf with (hf | hf) | hf
    · exact bound f (.inl hf) lower
    · -- a piece below the hint comes from an entry below the hint
      have := (hw f hf).1
      have := bound e (.inr (.inl rfl)) (by omega)
      have := hs f hf
      omega
    · exact bound f (.inr (.inr hf)) lower

theorem Within.size_le (hw : FreeList.Within e pieces) : ∀ f ∈ pieces, f.size ≤ e.size := by
  intro f hf
  have := hw f hf
  simp only [Entry.top] at this
  omega

/-- An entry that is cut up takes its hints with it. -/
theorem Holds.remove (hw : FreeList.Within e pieces) (hc : c.Holds (before ++ e :: after)) :
    (c.remove e.start).Holds (before ++ pieces ++ after) := by
  intro h hh
  obtain ⟨hh, hne⟩ := mem_remove.1 hh
  exact bounds_cut hw (hc h hh) hne (Within.size_le hw)

/-- The hints of an entry that is cut down to one piece go to that piece. -/
theorem Holds.update (hm : 0 < m) (hl : FreeList.Tracked m (before ++ e :: after))
    (hw : FreeList.Within e [f]) (hc : c.Holds (before ++ e :: after)) :
    (c.update e.start f.start).Holds (before ++ [f] ++ after) := by
  intro h hh
  obtain ⟨g, hg, hs, he⟩ := mem_update hh
  rw [hs, he]
  split
  · rename_i same
    obtain ⟨-, bound⟩ := hc g hg
    rw [same] at bound
    obtain ⟨lower, upper, between⟩ := FreeList.tracked_append.1 hl
    have room := (hw f (by simp)).2
    refine ⟨⟨f, by simp, rfl⟩, ?_⟩
    intro d hd below
    simp only [List.mem_append, List.mem_singleton] at hd
    rcases hd with (hd | rfl) | hd
    · have apart := between d hd e List.mem_cons_self
      have := lower.large d hd
      unfold Entry.top at apart
      exact bound d (by simp [hd]) (by omega)
    · omega
    · have apart := (FreeList.tracked_cons.1 upper).2.1 d hd
      unfold Entry.top at apart room
      omega
  · rename_i other
    exact bounds_cut hw (hc g hg) other (Within.size_le hw)

/-- An insertion at `a` changes nothing below `a`, so hints pulled back to `a` are right. -/
theorem Holds.updateBeyond (hc : c.Holds l) (hk : ∃ e ∈ k, e.start = a)
    (same : ∀ e, e.start < a → (e ∈ k ↔ e ∈ l)) : (c.updateBeyond a).Holds k := by
  intro h hh
  obtain ⟨g, hg, hs, he⟩ := mem_updateBeyond hh
  obtain ⟨⟨d, hd, hde⟩, bound⟩ := hc g hg
  rw [hs, he]
  refine ⟨?_, fun e hek lower => bound e ((same e (by omega)).1 hek) (by omega)⟩
  rcases Nat.lt_or_ge g.entry a with lower | upper
  · exact ⟨d, (same d (by omega)).2 hd, by omega⟩
  · rw [Nat.min_eq_right upper]
    exact hk

end HintCache

end FreeStore
