import FreeStore.Proofs.Outcome
import FreeStore.Region.Store
/-!
What is created in a region stays threaded through its storage.

An instance is reached by a link as long as nothing is handed out over it. So the instances of a region
are safe if what is handed out lies apart from them (`Region.follow_handOut`, `Region.follow_write`). They lie
below the marks of the region's areas (`Region.Lies`), and new blocks are placed at the marks. `Region.Holds`
says that the links of a region lead through given items, newest first.
-/
namespace FreeStore

variable {s t : Stretch} {m : Storage} {r q : Region} {i j : Instance} {is : List Instance}
  {place : Place} {link : Option Place} {items : List Item}

theorem Stretch.overlaps_iff : s.overlaps t = true ↔ s.area = t.area ∧ s.offset < t.offset + t.size ∧
    t.offset < s.offset + s.size ∧ 0 < s.size ∧ 0 < t.size := by
  simp [overlaps, and_assoc]

theorem Stretch.overlaps_of_areas (h : s.area ≠ t.area) : s.overlaps t = false := by
  simp [overlaps, h]

namespace Region

theorem isAt_iff : r.isAt place i = true ↔
    i.stretch.area = (r.stretch place 0).area ∧ i.stretch.offset = (r.stretch place 0).offset := by
  obtain ⟨⟨area, offset, size⟩, prev, item⟩ := i
  cases place <;> simp [isAt, stretch]

theorem stretch_congr (h : q.area = r.area) : q.stretch = r.stretch := by
  funext place size
  cases place <;> simp [stretch, h]

theorem isAt_congr (h : q.area = r.area) : q.isAt = r.isAt := by
  funext place i
  rw [isAt, isAt, stretch_congr h]

/-- Only the embedded area tells one region's links from another's. -/
theorem follow_congr (h : q.area = r.area) : q.follow m link = r.follow m link := by
  induction m generalizing link with
  | nil => cases link <;> rfl
  | cons i older ih =>
    cases link with
    | none => rfl
    | some place => rw [follow, follow, isAt_congr h, ih, ih]

/-- A link that can be followed leads to an instance. -/
theorem exists_of_follow (h : r.follow m (some place) = .ok is) : ∃ j rest, is = j :: rest ∧ r.isAt place j := by
  induction m with
  | nil => cases h
  | cons i older ih =>
    rw [follow] at h
    split at h
    · rename_i here
      obtain ⟨rest, -, done⟩ := bind_eq_ok.1 h
      exact ⟨i, rest, (Except.ok.inj done).symm, here⟩
    · exact ih h

/-- Losing other instances does not matter. -/
theorem follow_filter {keep : Instance → Bool} (h : r.follow m link = .ok is) (kept : ∀ i ∈ is, keep i = true) :
    r.follow (m.filter keep) link = .ok is := by
  induction m generalizing link is with
  | nil => exact h
  | cons i older ih =>
    cases link with
    | none =>
      obtain rfl := Except.ok.inj h
      simp [follow]
    | some place =>
      rw [follow] at h
      by_cases here : r.isAt place i = true
      · rw [if_pos here] at h
        obtain ⟨rest, found, done⟩ := bind_eq_ok.1 h
        obtain rfl := Except.ok.inj done
        obtain ⟨this, others⟩ := List.forall_mem_cons.1 kept
        rw [List.filter_cons_of_pos this, follow, if_pos here, ih found others]
        rfl
      · rw [if_neg here] at h
        have rest := ih h kept
        by_cases stays : keep i = true
        · rw [List.filter_cons_of_pos stays, follow, if_neg here]
          exact rest
        · rw [List.filter_cons_of_neg stays]
          exact rest

theorem follow_handOut (h : r.follow m link = .ok is) (apart : ∀ i ∈ is, i.stretch.overlaps s = false) :
    r.follow (m.handOut s) link = .ok is :=
  follow_filter h fun i hi => by simp [apart i hi]

/-- Writing an instance apart from others leaves them. -/
theorem follow_write (h : r.follow m link = .ok is) (apart : ∀ j ∈ is, j.stretch.overlaps i.stretch = false)
    (some : 0 < i.stretch.size) (sizes : ∀ j ∈ is, 0 < j.stretch.size) :
    r.follow (m.write i) link = .ok is := by
  have rest := follow_handOut h apart
  cases link with
  | none => simpa [follow, Storage.write] using rest
  | some place =>
    obtain ⟨j, others, rfl, atJ⟩ := exists_of_follow h
    have elsewhere : ¬ r.isAt place i = true := by
      intro atI
      rw [isAt_iff] at atI atJ
      have overlap : j.stretch.overlaps i.stretch = true := by
        have := sizes j List.mem_cons_self
        rw [Stretch.overlaps_iff]
        exact ⟨atJ.1.trans atI.1.symm, by omega, by omega, by omega, by omega⟩
      rw [apart j List.mem_cons_self] at overlap
      cases overlap
    rw [Storage.write, follow, if_neg elsewhere]
    exact rest

/-! ## Below the marks -/

/-- The stretch lies in the areas of the region, below their marks. -/
def Lies (r : Region) (s : Stretch) : Prop :=
  match s.area with
  | .embedded a => a = r.area ∧ s.offset + s.size ≤ r.inlineUsed
  | .segment n => ∃ t ∈ r.chain, t.number = n ∧ s.offset + s.size ≤ t.allocated

/-- The areas of the region. -/
def HasArea (r : Region) : Area → Prop
  | .embedded a => a = r.area
  | .segment n => n ∈ r.chain.map Segment.number

theorem Lies.hasArea (h : r.Lies s) : r.HasArea s.area := by
  unfold Lies at h
  unfold HasArea
  cases area : s.area with
  | embedded a =>
    rw [area] at h
    exact h.1
  | segment n =>
    rw [area] at h
    obtain ⟨t, ht, rfl, -⟩ := h
    exact List.mem_map_of_mem ht

/-- The links of the region lead through the items, newest first, and the instances lie below the marks. -/
def Holds (r : Region) (m : Storage) (items : List Item) : Prop :=
  ∃ is, r.follow m r.last = .ok is ∧ is.map Instance.item = items ∧
    ∀ i ∈ is, r.Lies i.stretch ∧ 0 < i.stretch.size

theorem holds_nil (h : r.last = none) : r.Holds m [] := by
  refine ⟨[], ?_, rfl, by simp⟩
  rw [h]
  cases m <;> rfl

/-- What is handed out apart from the region's instances leaves what it holds; marks may go up. -/
theorem Holds.handOut (h : r.Holds m items) (area : q.area = r.area) (last : q.last = r.last)
    (lies : ∀ t, r.Lies t → q.Lies t) (apart : ∀ t, r.Lies t → t.overlaps s = false) :
    q.Holds (m.handOut s) items := by
  obtain ⟨is, found, rfl, below⟩ := h
  refine ⟨is, ?_, rfl, fun i hi => ⟨lies _ (below i hi).1, (below i hi).2⟩⟩
  rw [last, follow_congr area]
  exact follow_handOut found fun i hi => apart _ (below i hi).1

/-- So does an instance written apart from them. -/
theorem Holds.write (h : r.Holds m items) (some : 0 < i.stretch.size)
    (apart : ∀ t, r.Lies t → t.overlaps i.stretch = false) : r.Holds (m.write i) items := by
  obtain ⟨is, found, rfl, below⟩ := h
  exact ⟨is, follow_write found (fun j hj => apart _ (below j hj).1) some fun j hj => (below j hj).2, rfl, below⟩

/-- An instance that is written into a block apart from them, and linked to the last one, is in front. -/
theorem Holds.thread {size : Nat} {item : Item} (h : r.Holds m items) (area : q.area = r.area)
    (last : q.last = r.last) (lies : ∀ t, r.Lies t → q.Lies t)
    (apart : ∀ t, r.Lies t → t.overlaps (q.stretch place size) = false) (some : 0 < size)
    (placed : q.Lies (q.stretch place size)) :
    Holds { q with last := .some place } (m.write ⟨q.stretch place size, q.last, item⟩) (item :: items) := by
  obtain ⟨is, found, rfl, below⟩ := h
  refine ⟨⟨q.stretch place size, q.last, item⟩ :: is, ?_, rfl, ?_⟩
  · have rest := follow_handOut found fun i hi => apart _ (below i hi).1
    have here : Region.isAt { q with last := .some place } place ⟨q.stretch place size, q.last, item⟩ = true := by
      rw [isAt_iff]
      cases place <;> exact ⟨rfl, rfl⟩
    have same : Region.follow { q with last := .some place } = r.follow := by
      funext m link
      exact follow_congr area
    rw [Storage.write, follow, if_pos here, same, last, rest]
    rfl
  · intro i hi
    rcases List.mem_cons.1 hi with rfl | hi
    · exact ⟨placed, by cases place <;> exact some⟩
    · exact ⟨lies _ (below i hi).1, (below i hi).2⟩

end Region

end FreeStore
