import FreeStore.Proofs.LinkedSearch
/-!
Serving by way of the headers.

In memory what is served is taken off a header: that header is dropped, one is written for the rest if it is large
enough, and the entry in front is led to it, or else past it. In a sound pool this leaves what cutting the entry where
it stands in the list leaves, books and faults included (`takeHeader_eq`, `carveHead_eq`, `dropHead_eq`). So a walk
over headers places the object that the search down the list places (`placeLinked_eq`).
-/
namespace FreeStore.Pool

variable {p : Pool} {e : Entry} {before after rest : FreeList} {taken size : Nat} {w : Walk} {hinted record : Bool}

/-- The headers spell a tracked list, whatever the books say. -/
structure Spelled (p : Pool) : Prop extends p.Whole where
  minEntry_pos : 0 < p.config.minEntry
  tracked : FreeList.Tracked p.config.minEntry p.entries

theorem Sound.spelled (h : p.Sound) : p.Spelled := ⟨h.whole, h.minEntry_pos, h.tracked⟩

/-! ## The rest of a header -/

theorem size_sub_taken (e : Entry) (taken : Nat) : e.top - (e.start + taken) = e.size - taken :=
  Nat.add_sub_add_left ..

/-- The rest takes the place of the header, or is reported. -/
theorem leaveRest_eq (h : p.Spelled) (hp : p.entries = before ++ e :: after) (fits : taken ≤ e.size) :
    (p.dropHeader e.start).leaveRest (e.start + taken) e.top (FreeList.lastStart before)
        (FreeList.firstStart after) = .ok (if p.keeps (e.size - taken) then
          ({ p with entries := before ++ ⟨e.start + taken, e.size - taken⟩ :: after }, true)
        else ({ p.abandon (e.start + taken) e.top with entries := before ++ after }, false)) := by
  have tracked := hp ▸ h.tracked
  have room := room_of_tracked tracked
  have ok : ((FreeList.firstStart after).all fun b => e.top ≤ b) = true :=
    (Option.all_eq_true ..).2 fun b led => decide_eq_true (room b led)
  have top : (Entry.mk (e.start + taken) (e.size - taken)).top = e.top := by
    simp only [Entry.top]
    omega
  unfold leaveRest
  rw [require_bind ok, size_sub_taken]
  by_cases large : p.keeps (e.size - taken) = true
  · have left : e.remainder taken p.config.minEntry = [⟨e.start + taken, e.size - taken⟩] :=
      if_pos (by simpa [keeps] using large)
    have cut := tracked.cut (Entry.tracked_remainder fits (tracked.inside e (by simp))) (Entry.remainder_within fits)
    rw [left, List.append_assoc, List.singleton_append] at cut
    have replaced := h.replace_entry hp (f := ⟨e.start + taken, e.size - taken⟩)
      (cut.pairwise_start_lt h.minEntry_pos) (top.symm ▸ room)
    obtain ⟨q, put, linked⟩ := bind_eq_ok.1 replaced
    have kept : (p.dropHeader e.start).keeps (e.size - taken) = true := large
    rw [if_pos kept, if_pos large, put, ok_bind, linked]
    rfl
  · have gone := Whole.unlink_entry (p := p.abandon (e.start + taken) e.top) ⟨h.gap, h.strays, h.order⟩ hp
    have small : ¬ (p.dropHeader e.start).keeps (e.size - taken) = true := large
    rw [if_neg small, if_neg large]
    show (do return (← ((p.abandon (e.start + taken) e.top).dropHeader e.start).link _ _, false)) = _
    rw [gone]
    rfl

/-- Books, cursor and hints follow in the same way. -/
theorem keepRest_eq (h : p.Spelled) (hp : p.entries = before ++ e :: after) (fits : taken ≤ e.size) :
    (do
      let (q, kept) ← (p.dropHeader e.start).leaveRest (e.start + taken) e.top (FreeList.lastStart before)
        (FreeList.firstStart after)
      q.countRest e.start (e.start + taken) (e.top - (e.start + taken)) kept (FreeList.lastStart before)
        (FreeList.firstStart after)) = p.keepRest before e taken after := by
  rw [leaveRest_eq h hp fits, ok_bind, size_sub_taken]
  by_cases large : p.keeps (e.size - taken) = true
  · rw [if_pos large]
    exact (if_pos large).symm
  · rw [if_neg large]
    exact (if_neg large).symm

theorem takeHeader_eq (h : p.Sound) (hp : p.entries = before ++ e :: after) (fits : size ≤ e.size) :
    p.takeHeader (e.leading (FreeList.firstStart after)) (FreeList.lastStart before) size w hinted record =
      p.takeFront e size w hinted record := by
  have top := h.tracked.inside e (by simp [hp])
  have spelled (large : LargeObjectStats) (hints : HintCache) (freeBytes entryCount : Nat) (stats : PoolStats) :
      Spelled { p with large, hints, freeBytes, entryCount, stats } :=
    ⟨⟨h.gap, h.strays, h.whole.order⟩, h.minEntry_pos, h.tracked⟩
  obtain ⟨front, back⟩ := split_at_entry h hp
  unfold takeHeader takeFront
  rw [Entry.entry_leading, checkedTop_eq top, front, back]
  simp only [uncountFree, debit, countAllocation, bind_assoc, pure_bind, ok_bind]
  refine bind_congr fun large => bind_congr fun freeBytes => bind_congr fun entryCount => bind_congr fun count =>
    bind_congr fun bytes => bind_congr fun steps => ?_
  have rest := keepRest_eq (spelled large (w.leaveHint p.config hinted (FreeList.lastStart before) p.hints) freeBytes
    entryCount { p.stats with allocCount := count, allocBytes := bytes, searchCount := steps }) hp fits
  rw [← rest, bind_assoc]

/-- Take an object off the header that a search found, to which the entry in front leads. -/
def serveHeader (size : Nat) (hinted record : Bool) :
    Pool × Walk × Option (Header × Option Nat) → Running (Pool × Walk × Option Nat)
  | (p, w, none) => return (p, w, none)
  | (p, w, some (h, previous)) => do
    let previous ← p.previousOf h.start previous
    return (← p.takeHeader h previous size w hinted record, w, some h.start)

/-- Place an object of `size` bytes, all by way of the headers. -/
def placeLinked (p : Pool) (size : Nat) (record : Bool) : Running (Pool × Walk × Option Nat) := do
  let (p, hint) := p.findHint size
  let start := hint.elim p.first? fun h => some h.entry
  serveHeader size hint.isSome record
    (← loop (seekTurn size) (p, { passed := hint.elim 0 Hint.size }, ⟨start, none, none, 0⟩))

theorem serveHeader_follows : Follows size (serveHeader size hinted record) fun
    | (p, w, none) => pure (p, w, none)
    | (p, w, some e) => liftM do return (← p.takeFront e size w hinted record, w, some e.start) := by
  refine ⟨fun _ _ => rfl, fun sound hp fits known => ?_⟩
  rw [serveHeader, previousOf_eq sound hp known, pure_bind, takeHeader_eq sound hp fits]
  exact (Running.liftM_bind _ _).symm

/-- The walk ends, and the object is placed where the search down the list places it. -/
theorem placeLinked_eq (h : p.Sound) : p.placeLinked size record = liftM (p.place size record) := by
  unfold placeLinked place firstFit
  dsimp only
  refine (seek_from_hint serveHeader_follows h).trans ?_
  rw [bind_assoc]
  refine Running.bind_eq_liftM ?_
  rintro ⟨q, w, found⟩ -
  cases found <;> rfl

/-! ## Blocks -/

/-- Nothing is left of a header that is used up. -/
theorem leaveRest_of_empty (hm : 0 < p.config.minEntry) (a : Nat) {next : Option Nat}
    (room : ∀ b ∈ next, a ≤ b) : p.leaveRest a a none next = (do return (← p.link none next, false)) := by
  have ok : (next.all fun b => a ≤ b) = true :=
    (Option.all_eq_true ..).2 fun b led => decide_eq_true (room b led)
  have small : ¬ p.keeps (a - a) = true := by
    rw [Nat.sub_self]
    simpa [keeps] using Nat.ne_of_gt hm
  have same : p.abandon a a = p := by
    have events : PoolEvent.logDrop p.isRecorded p.events a a = p.events := by simp [PoolEvent.logDrop]
    rw [abandon, events]
  unfold leaveRest
  rw [require_bind ok, if_neg small, same]

theorem countBlock_eq (p : Pool) (size : Nat) (record : Bool) : p.countBlock size record =
    (if record then p.large.recordTlh size else pure p.large) >>= fun large => pure { p with large } := by
  cases record <;> rfl

theorem carveHead_eq (h : p.Spelled) (hp : p.entries = e :: rest) (fits : taken ≤ e.size) :
    p.carveHead (e.leading (FreeList.firstStart rest)) taken record = p.carveFirst e rest taken record := by
  have top := h.tracked.inside e (by simp [hp])
  have front : p.entries = [] ++ e :: rest := hp
  have room := room_of_tracked (front ▸ h.tracked)
  have spelled (large : LargeObjectStats) (freeBytes entryCount : Nat) (stats : PoolStats) :
      Spelled { p with large, freeBytes, entryCount, stats } :=
    ⟨⟨h.gap, h.strays, h.order⟩, h.minEntry_pos, h.tracked⟩
  unfold carveHead carveFirst
  rw [Entry.entry_leading, checkedTop_eq top]
  simp only [debit, countAllocation, countBlock_eq, bind_assoc, pure_bind, ok_bind]
  refine bind_congr fun freeBytes => bind_congr fun entryCount => bind_congr fun count => bind_congr fun bytes =>
    bind_congr fun steps => bind_congr fun large => ?_
  rw [← keepRest_eq (spelled large freeBytes entryCount
    { p.stats with allocCount := count, allocBytes := bytes, searchCount := steps }) front fits, bind_assoc]
  split
  · rename_i empty
    rw [empty]
    rw [FreeList.lastStart, List.getLast?_nil, Option.map_none, leaveRest_of_empty ?_ e.top room, bind_assoc]
    · rfl
    · exact h.minEntry_pos
  · rfl

/-- Dropping the header at the head of the list drops its first entry. -/
theorem dropHead_eq (h : p.Whole) (hp : p.entries = e :: rest) :
    p.dropHead (e.leading (FreeList.firstStart rest)) = p.dropFirst e rest := by
  have front : p.entries = [] ++ e :: rest := hp
  have whole (freeBytes entryCount : Nat) (stats : PoolStats) (cursor : CardCursor) (events : List PoolEvent) :
      Whole { p with freeBytes, entryCount, stats, cursor, events } := ⟨h.gap, h.strays, h.order⟩
  unfold dropHead dropFirst
  rw [Entry.entry_leading]
  simp only [debit, countDiscarded, bind_assoc, pure_bind]
  refine bind_congr fun _ => bind_congr fun freeBytes => bind_congr fun entryCount => bind_congr fun discarded => ?_
  have gone := (whole freeBytes entryCount { p.stats with discardedBytes := discarded }
    (p.cursor.relink (FreeList.firstStart rest) none) (p.abandon e.start e.top).events).unlink_entry front
  exact congrArg (· >>= fun q => pure { q with hints := q.hints.remove e.start }) gone

end FreeStore.Pool
