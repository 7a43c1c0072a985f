import FreeStore.Pool.Move
import FreeStore.Proofs.Accepts
import FreeStore.Proofs.Sound
/-!
Moving the heap keeps a pool sound.

A move that fits takes no entry onto another, so the list is not torn: `moveHeap_eq` says that its entries
are moved one by one, and that only the cursor can still go wrong. The cursor may hold addresses of no
entry, and one that the move takes out of the address space ends the operation (`moveCursor_ends`,
`fits_of_moveCursor`). Nothing in the books depends on where an entry lies, apart from the hints, which are
forgotten.
-/
namespace FreeStore

namespace FreeList

/-- The headers of a list stand where its entries start. -/
theorem startsAt_of_mem_headers {next : Option Nat} {l : FreeList} {s : Header}
    (h : s ∈ headers next l) : l.startsAt s.start = true := by
  induction l with
  | nil => simp [headers] at h
  | cons e l ih =>
    rw [startsAt_iff]
    rcases List.mem_cons.1 h with rfl | h
    · exact ⟨e, List.mem_cons_self, rfl⟩
    · obtain ⟨f, hf, start⟩ := startsAt_iff.1 (ih h)
      exact ⟨f, List.mem_cons_of_mem _ hf, start⟩

end FreeList

namespace Pool

variable {F : Fault → Prop} {p : Pool} {source : Range} {low high dst : Nat} {e : Entry}
  {l before images : FreeList} {c c' : CardCursor}

/-! ## The cursor -/

theorem fits_of_imageOf {a b : Nat} (h : imageOf source dst a = .ok b)
    (moved : source.contains a = true) : dst + (a - source.low) < wordLimit := by
  rw [imageOf, if_pos moved] at h
  exact (Word.add_eq_ok.1 h).1

theorem imageOf_ends {a : Nat} (h : F .arithmetic ∨
    (source.contains a = true → dst + (a - source.low) < wordLimit)) :
    Ends F (imageOf source dst a) fun _ => True := by
  unfold imageOf
  split
  · rename_i moved
    rcases h with h | h
    · unfold Word.add Word.fit
      split
      · trivial
      · exact h
    · rw [Word.add_eq_ok.2 ⟨h moved, rfl⟩]
      trivial
  · trivial

theorem moveCursor_ends (h : F .arithmetic ∨
    ∀ a ∈ c.addresses, source.contains a = true → dst + (a - source.low) < wordLimit) :
    Ends F (moveCursor source dst c) fun _ => True := by
  cases c with
  | done => trivial
  | pending first prev =>
    unfold moveCursor
    refine (imageOf_ends (h.imp_right fun all => all first List.mem_cons_self)).bind fun _ _ => ?_
    cases prev with
    | none => trivial
    | some b =>
      simp only [Option.mapM_some, map_eq_pure_bind, bind_assoc]
      refine (imageOf_ends (h.imp_right fun all => all b ?_)).bind fun _ _ => trivial
      simp [CardCursor.addresses]

/-- A cursor that was moved has kept its addresses inside the address space. -/
theorem fits_of_moveCursor (h : moveCursor source dst c = .ok c') :
    ∀ a ∈ c.addresses, source.contains a = true → dst + (a - source.low) < wordLimit := by
  cases c with
  | done => simp [CardCursor.addresses]
  | pending first prev =>
    unfold moveCursor at h
    cases hf : imageOf source dst first with
    | error f => simp [hf, bind, Except.bind] at h
    | ok first' =>
      cases prev with
      | none =>
        intro a ha
        obtain rfl : a = first := by simpa [CardCursor.addresses] using ha
        exact fits_of_imageOf hf
      | some b =>
        cases hb : imageOf source dst b with
        | error f => simp [hf, hb, bind, Except.bind] at h
        | ok b' =>
          intro a ha
          rcases List.mem_cons.1 ha with rfl | ha
          · exact fits_of_imageOf hf
          · obtain rfl : a = b := by simpa using ha
            exact fits_of_imageOf hb

/-! ## The entries -/

theorem movedEntry_size : (movedEntry source dst e).size = e.size := by
  unfold movedEntry
  split <;> rfl

theorem map_movedEntry_of_not (h : ∀ e ∈ l, source.contains e.start = false) :
    l.map (movedEntry source dst) = l := by
  refine (List.map_congr_left fun e he => ?_).trans (List.map_id l)
  exact if_neg (by simp [h e he])

theorem mapM_moveEntry (h : ∀ e ∈ l, source.contains e.start)
    (inside : ∀ e ∈ l.map (movedEntry source dst), e.top < wordLimit) :
    l.mapM (moveEntry source dst) = .ok (l.map (movedEntry source dst)) := by
  induction l with
  | nil => rfl
  | cons e l ih =>
    obtain ⟨first, others⟩ := List.forall_mem_cons.1 h
    obtain ⟨top, tops⟩ := List.forall_mem_cons.1 (List.map_cons ▸ inside)
    have moved : movedEntry source dst e = ⟨dst + (e.start - source.low), e.size⟩ := if_pos first
    rw [moved] at top
    have start : dst + (e.start - source.low) < wordLimit := by
      unfold Entry.top at top
      simp only at top
      omega
    have image : moveEntry source dst e = .ok (movedEntry source dst e) := by
      rw [moveEntry, imageOf, if_pos first, Word.add_bind start, moved]
      rfl
    rw [List.mapM_cons, image, ih others tops]
    rfl

/-- Behind the moved entries nothing is moved. -/
theorem not_moved_behind {m : Nat} (hm : 0 < m) (ht : FreeList.Tracked m (e :: l))
    (moved : source.contains e.start = true) :
    ∀ f ∈ l.dropWhile (fun e => source.contains e.start), source.contains f.start = false := by
  cases hd : l.dropWhile fun e => source.contains e.start with
  | nil => simp
  | cons g rest =>
    have notIn : ¬ source.contains g.start = true := by
      simpa using FreeList.eq_false_of_dropWhile hd
    have tracked := (FreeList.tracked_cons.1 ht).2.2.sublist (hd ▸ List.dropWhile_sublist _)
    have lower := ht.start_lt hm (List.dropWhile_subset _ (hd ▸ List.mem_cons_self))
    intro f hf
    rw [← Bool.not_eq_true]
    rw [Range.contains_iff] at moved notIn ⊢
    rcases List.mem_cons.1 hf with rfl | hf
    · exact notIn
    · have := tracked.start_lt hm hf
      omega

/-- The entries that a move takes along stand in a row. -/
theorem split_moved {m : Nat} (hm : 0 < m) (ht : FreeList.Tracked m l)
    (moves : ∃ e ∈ l, source.contains e.start = true) :
    ∃ before e within after, l = before ++ (e :: within ++ after) ∧
      (∀ f ∈ before, source.contains f.start = false) ∧
      (∀ f ∈ e :: within, source.contains f.start = true) ∧
      ∀ f ∈ after, source.contains f.start = false := by
  induction l with
  | nil => simp at moves
  | cons d l ih =>
    cases hd : source.contains d.start with
    | true =>
      refine ⟨[], d, l.takeWhile fun e => source.contains e.start,
        l.dropWhile fun e => source.contains e.start, ?_, by simp, ?_, ?_⟩
      · rw [List.nil_append, List.cons_append, List.takeWhile_append_dropWhile]
      · exact List.forall_mem_cons.2 ⟨hd, fun f hf =>
          List.mem_takeWhile_imp (p := fun e : Entry => source.contains e.start) hf⟩
      · exact not_moved_behind hm ht hd
    | false =>
      obtain ⟨e, he, moved⟩ := moves
      rcases List.mem_cons.1 he with rfl | he
      · simp [hd] at moved
      · obtain ⟨before, e, within, after, rfl, outside, row⟩ :=
          ih (FreeList.tracked_cons.1 ht).2.2 ⟨e, he, moved⟩
        exact ⟨d :: before, e, within, after, rfl, List.forall_mem_cons.2 ⟨hd, outside⟩, row⟩

/-- Images behind the entries take the place of none. -/
theorem overwriteFrom_eq (h : ∀ e ∈ before, ∀ f ∈ images, e.start < f.start) :
    overwriteFrom before images = before ++ images := by
  have kept : (before.takeWhile fun e => !images.startsAt e.start) = before := by
    rw [List.takeWhile_eq_self_iff]
    intro e he
    rw [Bool.not_eq_true', ← Bool.not_eq_true, FreeList.startsAt_iff]
    rintro ⟨f, hf, same⟩
    have := h e he f hf
    omega
  unfold overwriteFrom
  simp only [kept, List.drop_length]

theorem tracked_moved (h : p.Sound) (fits : p.MoveFits source dst) :
    FreeList.Tracked p.config.minEntry (p.entries.map (movedEntry source dst)) := by
  refine ⟨fits.1, fun f hf => ?_, fits.2⟩
  obtain ⟨e, he, rfl⟩ := List.mem_map.1 hf
  rw [movedEntry_size]
  exact h.tracked.large e he

theorem moveHeap_of_none (h : p.Sound)
    (stays : ¬ ∃ e ∈ p.entries, Range.contains ⟨low, high⟩ e.start) :
    p.moveHeap low high dst = .ok p := by
  have none : (p.entries.dropWhile fun e => !Range.contains ⟨low, high⟩ e.start) = [] := by
    rw [List.dropWhile_eq_nil_iff]
    intro e he
    simpa using fun moved => stays ⟨e, he, moved⟩
  simp only [moveHeap, h.reachEnd_eq, ok_bind, none]
  rfl

/-- The walk finds the entries below the range, those in it and those behind. -/
theorem walk_moved {within : FreeList} (below : ∀ f ∈ before, source.contains f.start = false)
    (inside : ∀ f ∈ e :: within, source.contains f.start = true)
    (behind : ∀ f ∈ after, source.contains f.start = false) :
    ((before ++ (e :: within ++ after)).takeWhile fun e => !source.contains e.start) = before ∧
      ((before ++ (e :: within ++ after)).dropWhile fun e => !source.contains e.start) =
        e :: within ++ after ∧
      ((e :: within ++ after).takeWhile fun e => source.contains e.start) = e :: within ∧
      ((e :: within ++ after).dropWhile fun e => source.contains e.start) = after := by
  have passes : ∀ f ∈ before, (!source.contains f.start) = true := fun f hf => by simp [below f hf]
  rw [List.takeWhile_append_of_pos passes, List.dropWhile_append_of_pos passes,
    List.takeWhile_append_of_pos inside, List.dropWhile_append_of_pos inside]
  cases after with
  | nil => simp [inside e List.mem_cons_self]
  | cons f after => simp [inside e List.mem_cons_self, behind f List.mem_cons_self]

/-- No header of a list is a stray. -/
theorem filter_headers_eq_nil (l : FreeList) :
    (FreeList.headers none l).filter (fun s => !FreeList.startsAt s.start l) = [] := by
  rw [List.filter_eq_nil_iff]
  intro s hs
  rw [FreeList.startsAt_of_mem_headers hs]
  decide

/-- A move that fits moves the entries one by one. -/
theorem moveHeap_eq (h : p.Sound) (fits : p.MoveFits ⟨low, high⟩ dst)
    (moves : ∃ e ∈ p.entries, Range.contains ⟨low, high⟩ e.start) :
    p.moveHeap low high dst = moveCursor ⟨low, high⟩ dst p.cursor >>= fun cursor => .ok { p with
      entries := p.entries.map (movedEntry ⟨low, high⟩ dst)
      strays := [], hints := p.hints.clear, cursor } := by
  have hm := h.minEntry_pos
  have tracked := tracked_moved h fits
  unfold moveHeap
  simp only [h.reachEnd_eq, ok_bind]
  generalize (⟨low, high⟩ : Range) = source at *
  obtain ⟨before, e, within, after, whole, below, inside, behind⟩ := split_moved hm h.tracked moves
  obtain ⟨front, rest, row, last⟩ := walk_moved below inside behind
  have image : p.entries.map (movedEntry source dst) =
      before ++ (e :: within).map (movedEntry source dst) ++ after := by
    rw [whole, List.map_append, List.map_append, map_movedEntry_of_not below,
      map_movedEntry_of_not behind, List.append_assoc]
  rw [image] at tracked ⊢
  obtain ⟨lower, -, upper⟩ := FreeList.tracked_append.1 tracked
  obtain ⟨tb, ti, cross⟩ := FreeList.tracked_append.1 lower
  rw [whole]
  simp only [front, rest, row, last, mapM_moveEntry inside ti.inside, ok_bind]
  generalize hi : (e :: within).map (movedEntry source dst) = images at *
  have some : images.isEmpty = false := by simp [← hi]
  have written : overwriteFrom before images = before ++ images := by
    refine overwriteFrom_eq fun e he f hf => ?_
    have := cross e he f hf
    have := tb.large e he
    unfold Entry.top at *
    omega
  have placed : (after.head?.all fun f => FreeList.endsBy f.start images) = true := by
    cases after with
    | nil => rfl
    | cons f after =>
      exact FreeList.endsBy_of fun d hd => upper d (List.mem_append_right _ hd) f List.mem_cons_self
  simp only [some, Bool.false_eq_true, if_false, written, require_bind placed, tracked.isOrdered hm,
    require_bind rfl, h.strays, List.filter_nil, List.append_nil, filter_headers_eq_nil]
  rfl

/-- Of the books, only the hints depend on where the entries lie. -/
theorem sound_moved (h : p.Sound) (fits : p.MoveFits source dst) (cursor : CardCursor) :
    Sound { p with
      entries := p.entries.map (movedEntry source dst)
      strays := [], hints := p.hints.clear, cursor } := by
  have sizes : ∀ e, (movedEntry source dst e).size = e.size := fun _ => movedEntry_size
  exact ⟨h.config, h.grid, h.gap, rfl, tracked_moved h fits,
    h.bytes.trans (FreeList.bytes_map sizes _).symm, h.count.trans (List.length_map ..).symm,
    h.census.map sizes, HintCache.holds_clear⟩

/-- A move puts in as many bytes as it takes out, elsewhere. -/
theorem cover_map_movedEntry (source : Range) (dst : Nat) (l : FreeList) (a : Nat) :
    FreeList.cover (l.map (movedEntry source dst)) a +
        FreeList.cover (l.filter fun e => source.contains e.start) a =
      l.cover a +
        FreeList.cover ((l.filter fun e => source.contains e.start).map (movedEntry source dst)) a := by
  induction l with
  | nil => rfl
  | cons e l ih =>
    cases moved : source.contains e.start with
    | true =>
      simp only [List.map_cons, List.filter_cons, moved, if_true, FreeList.cover_cons]
      omega
    | false =>
      have stays : movedEntry source dst e = e := if_neg (by simp [moved])
      simp only [List.map_cons, List.filter_cons, moved, Bool.false_eq_true, if_false, FreeList.cover_cons,
        stays]
      omega

/-- Moving the heap keeps a pool sound, if the cursor can follow. -/
theorem moveHeap_ends (h : p.Sound) (fits : p.MoveFits ⟨low, high⟩ dst)
    (carried : F .arithmetic ∨ p.CarriesCursor low high dst) :
    Ends F (p.moveHeap low high dst) fun q => q.Sound ∧
      Effect p q (FreeList.ranges ((p.movedEntries ⟨low, high⟩).map (movedEntry ⟨low, high⟩ dst)))
        (p.movedEntries ⟨low, high⟩).ranges := by
  by_cases moves : ∃ e ∈ p.entries, Range.contains ⟨low, high⟩ e.start
  · rw [moveHeap_eq h fits moves]
    refine (moveCursor_ends (carried.imp_right fun follows => follows moves)).bind fun cursor _ => ?_
    refine ⟨sound_moved h fits cursor, rfl, rfl, rfl, fun a => .of_eq ?_⟩
    have images := cover_map_movedEntry ⟨low, high⟩ dst p.entries a
    unfold account
    simp only [FreeList.cover, movedEntries] at images ⊢
    omega
  · have none : p.movedEntries ⟨low, high⟩ = [] := by
      refine List.filter_eq_nil_iff.2 fun e he moved => moves ⟨e, he, moved⟩
    rw [moveHeap_of_none h moves, none]
    exact ⟨h, .refl p⟩

end Pool

end FreeStore
