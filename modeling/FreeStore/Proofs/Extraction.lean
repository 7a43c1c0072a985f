import FreeStore.Proofs.Accepts
import FreeStore.Proofs.Realignment
/-!
Taking ranges out keeps a pool sound.

A leftover of a cut entry is on the list or reported (`keepPiece_bind`); either way its bytes are
accounted for, so what is missing afterwards is what the caller gets. `contract` does this to one entry
(`Contracted`). `removeWithin` does it to a row of entries: `removeBelow_ends` carries the list as it will be,
the part that is already settled in front of the part that is still to be looked at. What is handed back
of an entry and what stays of it are functions of the entry and the range (`taken`, `remnants`), and the
answer and the list are those of the entries one after the other (`PulledOff`).
-/
namespace FreeStore.Pool

variable {α : Type} {F : Fault → Prop} {R : α → Prop} {p : Pool} {low high minimum : Nat}
  {e : Entry} {l before after kept : FreeList} {rs rs' : List Range} {removed : Removed}

/-- The pool once its books have followed the cut of an entry into `pieces`: what is on no piece was
taken or reported. -/
theorem sound_cut {pieces : FreeList} {taken : List Range} {freeBytes entryCount pendingLoss : Nat}
    {hints : HintCache} {cursor : CardCursor} {stats : PoolStats} {large : LargeObjectStats}
    {events : List PoolEvent} (h : p.Sound) (hp : before ++ e :: after = p.entries)
    (ht : FreeList.Tracked p.config.minEntry pieces) (hw : FreeList.Within e pieces)
    (hb : freeBytes + e.size = p.freeBytes + pieces.bytes)
    (hn : entryCount + 1 = p.entryCount + pieces.length)
    (hc : large.freeEntries.Counts (pieces ++ (before ++ after)))
    (hh : hints.Holds (before ++ pieces ++ after))
    (hr : ∀ a, Balances p.isRecorded (cover (PoolEvent.dropped p.events) a + e.range.hits a)
      (cover (PoolEvent.dropped events) a + pieces.cover a + cover taken a)) :
    let q : Pool := { p with
      entries := before ++ pieces ++ after
      freeBytes, entryCount, hints, cursor, pendingLoss, stats, large, events }
    q.Sound ∧ Effect p q [] taken := by
  intro q
  have bytes := congrArg FreeList.bytes hp
  have count := congrArg List.length hp
  simp only [FreeList.bytes_append, FreeList.bytes_cons, List.length_append, List.length_cons]
    at bytes count
  refine ⟨⟨h.config, h.grid, h.gap, h.strays, (hp ▸ h.tracked).cut ht hw, ?_, ?_, ?_, hh⟩,
    rfl, rfl, rfl, fun a => ?_⟩
  · have := h.bytes
    show freeBytes = FreeList.bytes (before ++ pieces ++ after)
    simp only [FreeList.bytes_append]
    omega
  · have := h.count
    show entryCount = (before ++ pieces ++ after).length
    simp only [List.length_append]
    omega
  · have moved : (pieces ++ (before ++ after)).Perm (before ++ pieces ++ after) := by
      rw [List.append_assoc]
      exact List.perm_append_comm_assoc ..
    exact hc.perm moved
  · have cover := congrArg (FreeList.cover · a) hp
    refine (hr a).shift ?_
    simp only [account, q, cover_nil, FreeList.cover_append, FreeList.cover_cons] at cover ⊢
    omega

/-! ## Leftovers -/

/-- The entry that is kept of `[low, high)`, if there is enough for one. -/
def leftover (minimum low high : Nat) : Option Entry :=
  if low < high ∧ minimum ≤ high - low then some (Entry.between low high) else none

/-- Only the bytes of the range matter. -/
theorem leftover_congr {low' high' : Nat} (hits : ∀ a, low ≤ a ∧ a < high ↔ low' ≤ a ∧ a < high') :
    leftover minimum low high = leftover minimum low' high' := by
  have atLow := hits low
  have atLow' := hits low'
  have atHigh := hits (high - 1)
  have atHigh' := hits (high' - 1)
  by_cases width : low < high
  · obtain rfl : low' = low := by omega
    obtain rfl : high' = high := by omega
    rfl
  · have none : ¬ low' < high' := by omega
    simp [leftover, width, none]

theorem leftover_inside {m : Nat} (low : Nat) (top : high < wordLimit) :
    FreeList.Tracked m (leftover m low high).toList ∧
      ∀ f ∈ (leftover m low high).toList, low ≤ f.start ∧ f.top ≤ high := by
  unfold leftover
  split
  · rename_i worth
    have same : (Entry.between low high).top = high := by
      simp only [Entry.between, Entry.top]
      omega
    refine ⟨FreeList.Tracked.singleton worth.2 (same.symm ▸ top), fun f hf => ?_⟩
    obtain rfl := List.mem_singleton.1 hf
    exact ⟨Nat.le_refl _, Nat.le_of_eq same⟩
  · exact ⟨FreeList.tracked_nil, by simp⟩

/-- The leftover `[low, high)` was kept as `piece`, or is among the reports `events` now. -/
structure Leftover (p : Pool) (low high : Nat) (piece : Option Entry) (events : List PoolEvent) :
    Prop where
  tracked : FreeList.Tracked p.config.minEntry piece.toList
  inside : ∀ f ∈ piece.toList, low ≤ f.start ∧ f.top ≤ high
  exact : piece = leftover p.config.minEntry low high
  reported : ∀ a, Balances p.isRecorded
    (cover (PoolEvent.dropped p.events) a + Range.hits ⟨low, high⟩ a)
    (cover (PoolEvent.dropped events) a + FreeList.cover piece.toList a)

theorem pieceSize_eq (piece : Option Entry) : pieceSize piece = FreeList.bytes piece.toList := by
  cases piece <;> rfl

theorem keepPiece_bind {k : Pool × Option Entry → Outcome α} (hc : p.large.freeEntries.Counts l)
    (hm : 0 < p.config.minEntry) (few : l.length ≤ l.bytes)
    (room : low < high → high < wordLimit ∧ l.bytes + (high - low) < wordLimit)
    (w : ∀ (g : Histogram) events piece, g.Counts (piece.toList ++ l) →
      p.Leftover low high piece events →
      Ends F (k ({ p with events, large := { p.large with freeEntries := g } }, piece)) R) :
    Ends F (p.keepPiece low high >>= k) R := by
  unfold keepPiece
  split
  · rename_i worth
    simp only [keeps, Bool.and_eq_true, decide_eq_true_eq] at worth
    obtain ⟨inside, bytes⟩ := room worth.1
    have top : (Entry.between low high).top = high := by
      simp only [Entry.between, Entry.top]
      omega
    rw [bind_assoc]
    refine countFree_bind (e := Entry.between low high) hc (by simp only [Entry.between]; omega)
      (by omega) bytes fun g hg => ?_
    have kept : leftover p.config.minEntry low high = some (Entry.between low high) := if_pos worth
    obtain ⟨tracked, within⟩ := kept ▸ leftover_inside low inside
    refine w g p.events (some (Entry.between low high)) hg ⟨tracked, within, kept.symm, fun a => ?_⟩
    simp only [Option.toList_some, FreeList.cover_cons, FreeList.cover_nil, Entry.range, top, Nat.add_zero]
    exact .rfl
  · rename_i small
    simp only [keeps, Bool.and_eq_true, decide_eq_true_eq] at small
    exact w p.large.freeEntries _ none hc
      ⟨FreeList.tracked_nil, by simp, (if_neg small).symm, fun _ => balances_logDrop ..⟩

theorem Leftover.congr {piece : Option Entry} {events : List PoolEvent} {low' high' : Nat}
    (h : p.Leftover low high piece events) (hl : low' ≤ low) (hh : high ≤ high')
    (hits : ∀ a, low ≤ a ∧ a < high ↔ low' ≤ a ∧ a < high') : p.Leftover low' high' piece events := by
  refine ⟨h.tracked, fun f hf => ?_, h.exact.trans (leftover_congr hits), fun a => ?_⟩
  · have := h.inside f hf
    omega
  · rw [← Range.hits_congr (hits a)]
    exact h.reported a

theorem Leftover.bytes_le {piece : Option Entry} {events : List PoolEvent}
    (h : p.Leftover low high piece events) : FreeList.bytes piece.toList ≤ high - low := by
  cases piece with
  | none => exact Nat.zero_le _
  | some f =>
    have := h.inside f (by simp)
    simp only [Entry.top, Option.toList_some, FreeList.bytes_cons, FreeList.bytes_nil] at *
    omega

/-- What is left of an entry on both sides of a range lies in it, one part behind the other. -/
theorem tracked_leftovers {lower upper : Option Entry} {m : Nat} (hl : low ≤ high) (above : low ≤ e.top)
    (below : e.start ≤ high) (lowerTracked : FreeList.Tracked m lower.toList)
    (upperTracked : FreeList.Tracked m upper.toList)
    (lowerInside : ∀ f ∈ lower.toList, e.start ≤ f.start ∧ f.top ≤ low)
    (upperInside : ∀ f ∈ upper.toList, high ≤ f.start ∧ f.top ≤ e.top) :
    FreeList.Tracked m (lower.toList ++ upper.toList) ∧ FreeList.Within e (lower.toList ++ upper.toList) := by
  refine ⟨FreeList.tracked_append.2 ⟨lowerTracked, upperTracked, fun f hf g hg => ?_⟩, fun f hf => ?_⟩
  · have := (lowerInside f hf).2
    have := (upperInside g hg).1
    omega
  · rcases List.mem_append.1 hf with hf | hf
    · have := lowerInside f hf
      omega
    · have := upperInside f hf
      omega

theorem Leftover.pieces {q : Pool} {lower upper : Option Entry} {events events' : List PoolEvent}
    (h₁ : p.Leftover e.start low lower events) (h₂ : q.Leftover high e.top upper events')
    (hq : q.config = p.config) (hs : e.start ≤ low) (hl : low ≤ high) (ht : high ≤ e.top) :
    FreeList.Tracked p.config.minEntry (lower.toList ++ upper.toList) ∧
      FreeList.Within e (lower.toList ++ upper.toList) :=
  tracked_leftovers hl (Nat.le_trans hl ht) (Nat.le_trans hs hl) h₁.tracked (hq ▸ h₂.tracked) h₁.inside h₂.inside

/-! ## One range out of one entry -/

/-- If the leftovers of an entry are smaller than it was, their number is still a word. -/
theorem count_lt_of_smaller {pieces : FreeList} (h : p.Sound) (whole : before ++ e :: after = p.entries)
    (ht : FreeList.Tracked p.config.minEntry pieces) (smaller : pieces.bytes < e.size) :
    p.entryCount + pieces.length < wordLimit := by
  have few := (whole ▸ h.tracked :).length_others_le_bytes h.minEntry_pos
  have piecesFew := ht.length_le_bytes h.minEntry_pos
  have total := h.freeBytes_lt
  obtain ⟨bytes, count⟩ := h.totals_split whole
  simp only [FreeList.bytes_append, List.length_append] at few
  omega

theorem exists_enclosing (hi : p.Enclosed low high) (width : low < high) :
    ∃ before e after, before ++ e :: after = p.entries ∧ e.start ≤ low ∧ high ≤ e.top ∧
      (p.entries.takeWhile fun e => !encloses low high e) = before ∧
      (p.entries.dropWhile fun e => !encloses low high e) = e :: after := by
  cases hd : p.entries.dropWhile fun e => !encloses low high e with
  | nil =>
    obtain ⟨e, he, hin⟩ := hi.enclosing width
    have := List.dropWhile_eq_nil_iff.1 hd e he
    simp [hin] at this
  | cons e after =>
    have hin : encloses low high e = true := by simpa using FreeList.eq_false_of_dropWhile hd
    simp only [encloses, Bool.and_eq_true, decide_eq_true_eq] at hin
    refine ⟨_, e, after, ?_, hin.1, hin.2, rfl, rfl⟩
    rw [← hd, List.takeWhile_append_dropWhile]

/-- `[low, high)` was cut out of the entry that enclosed it. The leftover behind it is all that the estimate
can have grown by. -/
structure Contracted (p : Pool) (low high : Nat) (q : Pool) : Prop where
  sound : q.Sound
  effect : Effect p q [] [⟨low, high⟩]
  idle : p.cursor = .done → q.cursor = .done
  cut : ∃ before e after, before ++ e :: after = p.entries ∧ e.start ≤ low ∧ high ≤ e.top ∧
    q.entries = before ++ ((leftover p.config.minEntry e.start low).toList ++
      (leftover p.config.minEntry high e.top).toList) ++ after ∧
    q.pendingLoss ≤ p.pendingLoss + p.lossOf (leftover p.config.minEntry high e.top).toList

/-- The pool once `[low, high)` was cut out of `e` and the books have followed. -/
theorem sound_contracted {lower upper : Option Entry} {pendingLoss : Nat} {cursor : CardCursor}
    {stats : PoolStats} {events events' : List PoolEvent} {g : Histogram} (h : p.Sound)
    (whole : before ++ e :: after = p.entries) (hs : e.start ≤ low) (width : low ≤ high)
    (ht : high ≤ e.top) (hu : p.Leftover high e.top upper events)
    (hl : Leftover { p with events } e.start low lower events')
    (hc : g.Counts (lower.toList ++ (upper.toList ++ (before ++ after))))
    (idle : p.cursor = .done → cursor = .done)
    (estimate : pendingLoss ≤ p.pendingLoss + p.lossOf upper.toList) :
    let q : Pool := { p with
      entries := before ++ (lower.toList ++ upper.toList) ++ after
      freeBytes := p.freeBytes + 0 - (e.size - pieceSize lower - pieceSize upper)
      entryCount := p.entryCount + (lower.toList ++ upper.toList).length - 1
      hints := p.hints.remove e.start, cursor, pendingLoss, stats, events := events'
      large := { p.large with freeEntries := g } }
    p.Contracted low high q := by
  obtain ⟨tracked, within⟩ := hl.pieces hu rfl hs width ht
  have lowerBytes := hl.bytes_le
  have upperBytes := hu.bytes_le
  have pos := h.entryCount_pos (e := e) (by simp [← whole])
  have total := h.size_le (e := e) (by simp [← whole])
  have lowerEq : lower = leftover p.config.minEntry e.start low := hl.exact
  have upperEq : upper = leftover p.config.minEntry high e.top := hu.exact
  suffices sound : _ ∧ _ from ⟨sound.1, sound.2, idle, before, e, after, whole, hs, ht,
    lowerEq ▸ upperEq ▸ rfl, upperEq ▸ estimate⟩
  refine sound_cut h whole tracked within ?_ ?_ (by simpa using hc)
    (HintCache.Holds.remove within (whole ▸ h.hints)) fun a => ?_
  · simp only [FreeList.bytes_append, pieceSize_eq, Entry.top] at *
    omega
  · omega
  · refine ((hu.reported a).add (hl.reported a)).shift ?_
    have := Range.hits_split (a := a) hs (Nat.le_trans width ht)
    have := Range.hits_split (a := a) width ht
    simp only [FreeList.cover_append, cover_cons, cover_nil, Entry.range] at *
    omega

/-- Such a pool passes the closing check. -/
theorem Contracted.ends_settle {q : Pool} {start : Option Nat} (cut : p.Contracted low high q) :
    Ends F (q.settle >>= fun q => .ok (q, start)) fun r => p.Contracted low high r.1 :=
  cut.sound.settle_bind cut

/-- A range inside one entry can be cut out of it. Only the estimate of a pending realignment can overflow, by
what realigning the leftover behind the range would give up. -/
theorem contract_cuts (h : p.Sound) (hi : p.Enclosed low high) (width : low < high)
    (hF : F .counterOverflow ∨ p.cursor = .done ∨ ∀ e ∈ p.entries, e.start ≤ low → high ≤ e.top →
      p.pendingLoss + p.lossOf (leftover p.config.minEntry high e.top).toList < wordLimit) :
    Ends F (p.contract (high - low) low high) fun r => p.Contracted low high r.1 := by
  have promised : (decide (low ≤ high) && high - low == high - low) = true := by
    simpa using Nat.le_of_lt width
  obtain ⟨before, e, after, whole, start, top, front, rest⟩ := exists_enclosing hi width
  have he : e ∈ p.entries := by simp [← whole]
  obtain ⟨pos, word⟩ := h.size_bounds he
  have inside := h.tracked.inside e he
  have few := (whole ▸ h.tracked :).length_others_le_bytes h.minEntry_pos
  have total := h.freeBytes_lt
  obtain ⟨bytes, count⟩ := h.totals_split whole
  rw [FreeList.bytes_append] at few
  unfold contract
  rw [if_neg (by omega)]
  simp only [require_bind promised, front, rest, checkedTop_bind inside]
  refine uncountFree_bind (h.census.perm (whole ▸ List.perm_middle)) pos word fun g₁ hg₁ => ?_
  dsimp only
  refine keepPiece_bind hg₁ h.minEntry_pos (FreeList.bytes_append .. ▸ few) (fun _ => ⟨inside, ?_⟩)
    fun g₂ events₂ upper hg₂ left₂ => ?_
  · rw [FreeList.bytes_append]
    unfold Entry.top
    omega
  have above : p.Leftover high e.top upper events₂ :=
    ⟨left₂.tracked, left₂.inside, left₂.exact, left₂.reported⟩
  have upperFew := above.tracked.length_le_bytes h.minEntry_pos
  have upperBytes := above.bytes_le
  dsimp only
  refine keepPiece_bind hg₂ h.minEntry_pos ?_ (fun _ => ⟨by omega, ?_⟩) fun g₃ events₃ lower hg₃ left₃ => ?_
  · simp only [List.length_append, FreeList.bytes_append] at *
    omega
  · simp only [FreeList.bytes_append, Entry.top] at *
    omega
  dsimp only [relinkCursor]
  have below : Leftover { p with events := events₂ } e.start low lower events₃ :=
    ⟨left₃.tracked, left₃.inside, left₃.exact, left₃.reported⟩
  have room : p.entryCount + (lower.toList ++ upper.toList).length < wordLimit := by
    have lowerBytes := below.bytes_le
    refine count_lt_of_smaller h whole
      (below.pieces above rfl start (Nat.le_of_lt width) top).1 ?_
    simp only [FreeList.bytes_append, Entry.top] at *
    omega
  have size := h.size_le he
  have counted := h.entryCount_pos he
  refine credit_bind h.freeBytes_lt room (debit_bind ?_ (Nat.le_add_right_of_le counted) ?_)
  · show e.size - _ - _ ≤ p.freeBytes + 0
    omega
  dsimp only
  cases upper with
  | none =>
    have lowered (next prev : Option Nat) : p.cursor.Lowered (p.cursor.relink next prev) :=
      .inl (CardCursor.first?_relink ..)
    exact Contracted.ends_settle (sound_contracted h whole start (Nat.le_of_lt width) top above below hg₃
      (lowered _ _).eq_done (Nat.le_add_right _ _))
  | some f =>
    have upperEq : some f = leftover p.config.minEntry high e.top := above.exact
    refine noteUnaligned_bind (hF.imp_right fun fits pulled => ?_) fun pendingLoss cursor noted => ?_
    · obtain ⟨-, first, pending, -⟩ := CardCursor.pulled_relink.1 pulled
      rcases fits with done | fits
      · rw [done] at pending
        cases pending
      · have fits := fits e he start top
        rwa [← upperEq] at fits
    exact Contracted.ends_settle (sound_contracted h whole start (Nat.le_of_lt width) top above below hg₃
      noted.of_relink.lowered.eq_done noted.estimate_le.2)

/-- The leftover behind a range lies in the entry that encloses it, so realigning it takes no more than that. -/
theorem Sound.lossOf_leftover_le (h : p.Sound) (he : e ∈ p.entries) (start : e.start ≤ high) :
    p.lossOf (leftover p.config.minEntry high e.top).toList ≤ p.freeBytes := by
  refine Nat.le_trans (p.lossOf_le_bytes (.refl _)) (Nat.le_trans ?_ (h.size_le he))
  unfold leftover Entry.top
  split <;> simp [Entry.between]
  omega

theorem contract_ends (hF : F .counterOverflow ∨ p.pendingLoss + p.freeBytes < wordLimit) (h : p.Sound)
    (hi : p.Enclosed low high) :
    Ends F (p.contract (high - low) low high) fun r =>
      r.1.Sound ∧ Effect p r.1 [] [⟨low, high⟩] := by
  rcases Nat.lt_or_ge low high with width | empty
  · refine (contract_cuts h hi width (hF.imp_right fun fits => .inr fun e he start top => ?_)).mono
      fun r cut => ⟨cut.sound, cut.effect⟩
    have loss := h.lossOf_leftover_le he (Nat.le_trans start (Nat.le_of_lt width))
    omega
  · unfold contract
    rw [if_pos (by omega)]
    refine ⟨h, rfl, rfl, rfl, fun a => ?_⟩
    simpa [Range.hits_eq_zero empty] using Balances.rfl

/-! ## Every free byte of a range -/

/-- The pieces `rs`, and their totals. -/
def Removed.of (rs : List Range) : Removed := ⟨rs, FreeList.bytes (rs.map Entry.ofRange), rs.length⟩

theorem Removed.push_of (rs : List Range) (low high : Nat) :
    (Removed.of rs).push low high = .of (rs ++ [⟨low, high⟩]) := by
  simp only [push, of, List.map_append, FreeList.bytes_append, List.length_append]
  rfl

/-- The part of `e` in `[low, high)`, if it has `minimum` bytes. -/
def taken (minimum low high : Nat) (e : Entry) : List Range :=
  let part : Range := ⟨max e.start low, min e.top high⟩
  if part.low < part.high ∧ minimum ≤ part.high - part.low then [part] else []

/-- What stays on the list of `e` when `[low, high)` is pulled off it: all of it if it lies outside, else the
parts outside that have `minimum` bytes. -/
def remnants (minimum low high : Nat) (e : Entry) : FreeList :=
  if e.top ≤ low ∨ high ≤ e.start then [e]
  else (leftover minimum e.start low).toList ++ (leftover minimum high e.top).toList

theorem exists_handBack (p : Pool) (e : Entry) (low high minimum : Nat) (rs : List Range) :
    ∃ events, p.handBack (max e.start low) (min e.top high) minimum (.of rs) =
        ({ p with events }, .of (rs ++ taken minimum low high e)) ∧
      ∀ a, Balances p.isRecorded
        (cover (PoolEvent.dropped p.events) a + cover rs a +
          Range.hits ⟨max e.start low, min e.top high⟩ a)
        (cover (PoolEvent.dropped events) a + cover (rs ++ taken minimum low high e) a) := by
  unfold handBack taken
  simp only [Bool.and_eq_true, decide_eq_true_eq]
  split
  · refine ⟨p.events, by rw [Removed.push_of], fun a => .of_eq ?_⟩
    simp only [cover_append, cover_cons, cover_nil]
    omega
  · refine ⟨_, by rw [List.append_nil]; rfl, fun a => ?_⟩
    rw [List.append_nil]
    refine (balances_logDrop p.isRecorded p.events (max e.start low) (min e.top high) a).shift ?_
    omega

/-- The part of `e` in `[low, high)` went, and `pieces` are left of it: histogram, hints and reports follow. -/
structure CutOut (p : Pool) (low high minimum : Nat) (rs : List Range) (before : FreeList) (e : Entry)
    (after : FreeList) (q : Pool) (removed : Removed) (pieces : FreeList) : Prop where
  same : ∃ large hints events, q = { p with large, hints, events }
  handed : removed = .of (rs ++ taken minimum low high e)
  left : pieces = (leftover p.config.minEntry e.start low).toList ++
    (leftover p.config.minEntry high e.top).toList
  tracked : pieces.Tracked p.config.minEntry
  within : FreeList.Within e pieces
  bytes : pieces.bytes + (min e.top high - max e.start low) ≤ e.size
  census : q.large.freeEntries.Counts (before ++ pieces ++ after)
  hints : q.hints.Holds (before ++ pieces ++ after)
  ledger : ∀ a, Balances p.isRecorded
    (cover (PoolEvent.dropped p.events) a + cover rs a + e.range.hits a)
    (cover (PoolEvent.dropped q.events) a + cover removed.pieces a + pieces.cover a)

theorem cutOut_ends (rs : List Range) (hm : 0 < p.config.minEntry)
    (ht : FreeList.Tracked p.config.minEntry (before ++ e :: after))
    (hc : p.large.freeEntries.Counts (before ++ e :: after)) (hh : p.hints.Holds (before ++ e :: after))
    (meets : max e.start low ≤ min e.top high) :
    Ends F (p.cutOut e low high minimum (.of rs)) fun r =>
      p.CutOut low high minimum rs before e after r.1 r.2.1 r.2.2 := by
  obtain ⟨⟨large, top⟩, -, -⟩ := FreeList.tracked_cons.1 (FreeList.tracked_append.1 ht).2.1
  have word : e.size < wordLimit := by
    unfold Entry.top at top
    omega
  have total := ht.bytes_lt (a := 0) (by decide) (by simp)
  have few := ht.length_others_le_bytes hm
  simp only [FreeList.bytes_append, FreeList.bytes_cons] at total few
  unfold cutOut
  refine uncountFree_bind (hc.perm List.perm_middle) (by omega) word fun g₁ hg₁ => ?_
  dsimp only
  refine keepPiece_bind hg₁ hm (FreeList.bytes_append .. ▸ few) (fun _ => ⟨by omega, ?_⟩)
    fun g₂ events₂ lower hg₂ left => ?_
  · simp only [FreeList.bytes_append, Entry.top] at *
    omega
  have lowerEq : lower = leftover p.config.minEntry e.start low := left.exact
  have left : Leftover _ e.start (max e.start low) lower events₂ :=
    left.congr (Nat.le_refl _) (Nat.le_max_right _ _) fun a => by omega
  have lowerFew := left.tracked.length_le_bytes hm
  have lowerBytes := left.bytes_le
  dsimp only
  refine keepPiece_bind hg₂ hm ?_ (fun _ => ⟨top, ?_⟩) fun g₃ events₃ upper hg₃ right => ?_
  · simp only [List.length_append, FreeList.bytes_append] at *
    omega
  · simp only [FreeList.bytes_append, Entry.top] at *
    omega
  have upperEq : upper = leftover p.config.minEntry high e.top := right.exact
  have right : Leftover _ (min e.top high) e.top upper events₃ :=
    right.congr (Nat.min_le_right _ _) (Nat.le_refl _) fun a => by omega
  obtain ⟨tp, within⟩ := left.pieces right rfl (Nat.le_max_left _ _) meets (Nat.min_le_left _ _)
  have upperBytes := right.bytes_le
  obtain ⟨events₄, same, ledger⟩ := exists_handBack { p with
    hints := p.hints.remove e.start, events := events₃, large := { p.large with freeEntries := g₃ } }
    e low high minimum rs
  simp only [same]
  have inOrder : (before ++ (lower.toList ++ upper.toList) ++ after).Perm
      (upper.toList ++ (lower.toList ++ (before ++ after))) := by
    have := FreeList.perm_front before lower.toList upper.toList after
    simp only [List.append_assoc] at this ⊢
    exact this.trans (List.perm_append_comm_assoc ..)
  refine ⟨⟨_, _, _, rfl⟩, rfl, by rw [lowerEq, upperEq], tp, within, ?_, hg₃.perm inOrder.symm,
    HintCache.Holds.remove within hh, fun a => ?_⟩
  · simp only [FreeList.bytes_append, Entry.top] at *
    omega
  · refine (((left.reported a).add (right.reported a)).add (ledger a)).shift ?_
    have := Range.hits_split (a := a) (Nat.le_max_left e.start low) (Nat.le_trans meets (Nat.min_le_left _ _))
    have := Range.hits_split (a := a) meets (Nat.min_le_left e.top high)
    simp only [FreeList.cover_append, Entry.range, Removed.of] at *
    omega

/-- An entry outside the range stays as it is. -/
theorem flatMap_outside (m minimum : Nat) (h : ∀ e ∈ l, e.top ≤ low ∨ high ≤ e.start) :
    l.flatMap (remnants m low high) = l ∧ l.flatMap (taken minimum low high) = [] := by
  constructor
  · have same : l.flatMap (remnants m low high) = l.flatMap fun e => [e] := by
      rw [List.flatMap_def, List.flatMap_def]
      exact congrArg _ (List.map_congr_left fun e he => if_pos (h e he))
    rw [same, List.flatMap_singleton']
  · refine List.flatMap_eq_nil_iff.2 fun e he => if_neg ?_
    have := h e he
    dsimp only
    omega

/-- The entries `l` behind `kept` were looked at, of which `cut` and `behind` stay: histogram, hints and
reports follow, and each entry that went gave up a byte. -/
structure Emptied (p : Pool) (low high minimum : Nat) (rs : List Range) (kept l : FreeList) (q : Pool)
    (removed : Removed) (cut behind : FreeList) : Prop where
  same : ∃ large hints events, q = { p with large, hints, events }
  handed : removed = .of (rs ++ l.flatMap (taken minimum low high))
  left : cut ++ behind = l.flatMap (remnants p.config.minEntry low high)
  tracked : FreeList.Tracked p.config.minEntry (kept ++ (cut ++ behind))
  census : q.large.freeEntries.Counts (kept ++ (cut ++ behind))
  hints : q.hints.Holds (kept ++ (cut ++ behind))
  untouched : (∀ e ∈ l, high ≤ e.start) → cut = []
  fewer : behind.length ≤ l.length
  bytes : FreeList.bytes (cut ++ behind) + (l.length - behind.length) ≤ l.bytes
  ledger : ∀ a, Balances p.isRecorded
    (cover (PoolEvent.dropped p.events) a + cover rs a + l.cover a)
    (cover (PoolEvent.dropped q.events) a + cover removed.pieces a + FreeList.cover (cut ++ behind) a)

section

variable {q r : Pool} {removed' : Removed} {pieces cut behind : FreeList}

/-- An entry that ends below `high` is gone as a whole. -/
theorem CutOut.eq_nil (hcut : p.CutOut e.start high minimum rs kept e l q removed pieces)
    (hm : 0 < p.config.minEntry) (below : e.top ≤ high) : pieces = [] := by
  have few := hcut.tracked.length_le_bytes hm
  have bytes := hcut.bytes
  refine List.eq_nil_of_length_eq_zero ?_
  simp only [Entry.top] at below bytes
  omega

/-- Of an entry that starts in the range, nothing lies below it. -/
theorem CutOut.from_low (hcut : p.CutOut e.start high minimum rs kept e l q removed pieces)
    (above : low ≤ e.start) (width : e.start < min e.top high) :
    removed = .of (rs ++ taken minimum low high e) ∧
      pieces = remnants p.config.minEntry low high e := by
  constructor
  · rw [hcut.handed, taken, taken, Nat.max_eq_left above, Nat.max_self]
  · have inside : ¬ (e.top ≤ low ∨ high ≤ e.start) := by omega
    have empty : ¬ e.start < low := by omega
    rw [hcut.left, remnants, if_neg inside]
    simp [leftover, empty]

/-- An entry that ends above `high` is the last one that is cut. -/
theorem CutOut.emptied (hcut : p.CutOut e.start high minimum rs kept e l q removed pieces)
    (ht : FreeList.Tracked p.config.minEntry (kept ++ e :: l)) (above : low ≤ e.start)
    (start : e.start < high) (top : high < e.top) :
    p.Emptied low high minimum rs kept (e :: l) q removed pieces l := by
  obtain ⟨handed, left⟩ := hcut.from_low above (by omega)
  have tracked := ht.cut hcut.tracked hcut.within
  have front := (FreeList.tracked_cons.1 (FreeList.tracked_append.1 ht).2.1).2.1
  have outside : ∀ f ∈ l, f.top ≤ low ∨ high ≤ f.start := fun f hf =>
    .inr (Nat.le_of_lt (Nat.lt_of_lt_of_le top (front f hf)))
  obtain ⟨others, none⟩ := flatMap_outside p.config.minEntry minimum outside
  have census := hcut.census
  have hints := hcut.hints
  have bytes := hcut.bytes
  rw [List.append_assoc] at census hints tracked
  refine ⟨hcut.same, ?_, ?_, tracked, census, hints, fun above => ?_, ?_, ?_, fun a => ?_⟩
  · rw [List.flatMap_cons, none, List.append_nil, handed]
  · rw [List.flatMap_cons, others, left]
  · have := above e List.mem_cons_self
    omega
  · simp
  · simp only [FreeList.bytes_append, List.length_cons, FreeList.bytes_cons]
    omega
  · refine (hcut.ledger a).shift ?_
    simp only [FreeList.cover_append, FreeList.cover_cons]
    omega

/-- After an entry that is gone come the others. -/
theorem CutOut.emptied_cons (hcut : p.CutOut e.start high minimum rs kept e l q removed [])
    (above : low ≤ e.start) (width : e.start < min e.top high)
    (hrest : q.Emptied low high minimum (rs ++ taken minimum low high e) kept l r removed' cut behind) :
    p.Emptied low high minimum rs kept (e :: l) r removed' cut behind := by
  obtain ⟨handed, left⟩ := hcut.from_low above width
  subst handed
  obtain ⟨⟨_, _, _, rfl⟩, -, -, -, -, bytes, -, -, ledger⟩ := hcut
  obtain ⟨⟨_, _, _, rfl⟩, handed', left', tracked, census, hints, -, fewer, restBytes, ledger'⟩ := hrest
  refine ⟨⟨_, _, _, rfl⟩, ?_, ?_, tracked, census, hints, fun above => ?_, ?_, ?_, fun a => ?_⟩
  · rw [handed', List.flatMap_cons, List.append_assoc]
  · rw [left', List.flatMap_cons, ← left, List.nil_append]
  · have := above e List.mem_cons_self
    omega
  · simp only [List.length_cons]
    omega
  · simp only [List.length_cons, FreeList.bytes_cons]
    omega
  · refine ((ledger a).add (ledger' a)).shift ?_
    simp only [FreeList.cover_cons, FreeList.cover_nil, Removed.of]
    omega

end

/-- Entries that start at `high` or above are left alone. -/
theorem removeBelow_of_le {m : Nat} (hm : 0 < m) (hg : p.gap = none) (ht : FreeList.Tracked m l)
    (hl : ∀ e ∈ l, high ≤ e.start) :
    removeBelow high minimum l p removed = .ok (p, removed, [], l) := by
  cases l with
  | nil =>
    simp only [removeBelow, reachEnd, hg]
    rfl
  | cons e l =>
    obtain ⟨⟨large, top⟩, -, -⟩ := FreeList.tracked_cons.1 ht
    have start := hl e List.mem_cons_self
    have notBelow : ¬ e.top ≤ high := by
      unfold Entry.top
      omega
    rw [removeBelow, checkedTop_bind top, if_neg notBelow, if_neg (by omega)]
    rfl

theorem removeBelow_ends (hm : 0 < p.config.minEntry) (hgap : p.gap = none)
    (ht : FreeList.Tracked p.config.minEntry (kept ++ l))
    (hc : p.large.freeEntries.Counts (kept ++ l)) (hh : p.hints.Holds (kept ++ l))
    (above : ∀ e ∈ l, low ≤ e.start) :
    Ends F (removeBelow high minimum l p (.of rs)) fun r =>
      p.Emptied low high minimum rs kept l r.1 r.2.1 r.2.2.1 r.2.2.2 := by
  induction l generalizing p rs with
  | nil =>
    rw [removeBelow_of_le hm hgap FreeList.tracked_nil (by simp)]
    exact ⟨⟨_, _, _, rfl⟩, by rw [List.flatMap_nil, List.append_nil], rfl, ht, hc, hh, fun _ => rfl,
      Nat.le_refl _, Nat.le_refl _, fun _ => .rfl⟩
  | cons e l ih =>
    obtain ⟨⟨large, top⟩, front, -⟩ := FreeList.tracked_cons.1 (FreeList.tracked_append.1 ht).2.1
    have width : e.start < e.top := Nat.lt_add_of_pos_right (Nat.lt_of_lt_of_le hm large)
    have aboveE := above e List.mem_cons_self
    rw [removeBelow, checkedTop_bind top]
    split
    · rename_i below
      refine (cutOut_ends rs hm ht hc hh (by omega)).bind ?_
      rintro ⟨q, removed', pieces⟩ hcut
      replace hcut : p.CutOut e.start high minimum rs kept e l q removed' pieces := hcut
      obtain rfl : pieces = [] := hcut.eq_nil hm below
      obtain ⟨rfl, -⟩ := hcut.from_low aboveE (by omega)
      obtain ⟨large', hints', events', rfl⟩ := hcut.same
      have tracked := ht.cut hcut.tracked hcut.within
      have census := hcut.census
      have hints := hcut.hints
      rw [List.append_nil] at tracked census hints
      refine (ih (p := { p with large := large', hints := hints', events := events' }) hm hgap tracked
        census hints fun f hf => above f (List.mem_cons_of_mem _ hf)).mono fun r hrest => ?_
      exact hcut.emptied_cons aboveE (by omega) hrest
    · rename_i notBelow
      split
      · rename_i start
        refine (cutOut_ends rs hm ht hc hh (by omega)).bind ?_
        rintro ⟨q, removed', pieces⟩ hcut
        exact hcut.emptied ht aboveE start (by omega)
      · rename_i start
        have outside : ∀ f ∈ e :: l, f.top ≤ low ∨ high ≤ f.start := by
          refine List.forall_mem_cons.2 ⟨.inr (by omega), fun f hf => .inr ?_⟩
          have := front f hf
          omega
        obtain ⟨all, none⟩ := flatMap_outside p.config.minEntry minimum outside
        exact ⟨⟨_, _, _, rfl⟩, by rw [none, List.append_nil], all.symm, ht, hc, hh, fun _ => rfl,
          Nat.le_refl _, by simp, fun _ => .rfl⟩

/-- What it leads to when `[low, high)` is pulled off the list: no entry meets it, or the pieces are handed
back and the list is what remains of its entries. -/
structure PulledOff (p : Pool) (low high minimum : Nat) (q : Pool) (answer : Option Removed) : Prop where
  sound : q.Sound
  effect : Effect p q [] (answer.elim [] Removed.pieces)
  missed : answer = none → q = p ∧ ∀ e ∈ p.entries, e.top ≤ low ∨ high ≤ e.start
  met : ∀ removed ∈ answer, removed = .of (p.entries.flatMap (taken minimum low high)) ∧
    q.entries = p.entries.flatMap (remnants p.config.minEntry low high) ∧
    ∃ e ∈ p.entries, low < e.top ∧ e.start < high

section

variable {q r : Pool} {removed' : Removed} {pieces rest cut behind : FreeList}

theorem CutOut.length_le (hcut : p.CutOut low high minimum rs before e after q removed pieces) :
    pieces.length ≤ 2 := by
  rw [hcut.left, List.length_append]
  exact Nat.add_le_add Option.length_toList_le Option.length_toList_le

/-- Unless an empty range is pulled out of the inside of an entry, each entry that is new is paid for with a
byte. -/
theorem count_lt_of_removed (h : p.Sound) (whole : before ++ e :: rest = p.entries) (hl : low ≤ high)
    (start : e.start < high) (above : low < e.top)
    (hcut : p.CutOut low high minimum rs before e rest q removed pieces)
    (hrest : q.Emptied low high minimum rs' (before ++ pieces) rest r removed' cut behind)
    (room : p.RoomToSplit low high) : p.entryCount + (pieces.length + cut.length) < wordLimit := by
  have he : e ∈ p.entries := by simp [← whole]
  have width : e.start < e.top := Nat.lt_add_of_pos_right (h.size_pos he)
  obtain ⟨_, _, _, rfl⟩ := hcut.same
  have few := hcut.length_le
  have bytes := hcut.bytes
  have restBytes := hrest.bytes
  have count := hrest.tracked.length_le_bytes h.minEntry_pos
  have total := h.freeBytes_lt
  obtain ⟨wholeBytes, wholeCount⟩ := h.totals_split whole
  simp only [FreeList.bytes_append, List.length_append] at restBytes count
  rcases Nat.lt_or_ge low high with proper | empty
  · omega
  · -- an empty range lies inside the entry, and nothing behind it is touched
    have := room (by omega) ⟨e, he, by omega, by omega⟩
    have front := (FreeList.tracked_cons.1 (FreeList.tracked_append.1 (whole ▸ h.tracked)).2.1).2.1
    have none := hrest.untouched fun f hf => by
      have := front f hf
      omega
    rw [none, List.length_nil]
    omega

/-- The pool once the range was emptied and the totals have followed. -/
theorem pulledOff_removed (cursor : CardCursor) (h : p.Sound)
    (whole : before ++ e :: rest = p.entries) (missed : ∀ f ∈ before, f.top ≤ low)
    (start : e.start < high) (above : low < e.top)
    (hcut : p.CutOut low high minimum [] before e rest q removed pieces)
    (hrest : q.Emptied low high minimum (taken minimum low high e) (before ++ pieces) rest r removed'
      cut behind) :
    p.PulledOff low high minimum { r with
      entries := before ++ pieces ++ (cut ++ behind)
      freeBytes := r.freeBytes -
        (e.size - pieces.bytes + (FreeList.bytes rest - FreeList.bytes (cut ++ behind)))
      entryCount := r.entryCount + (pieces.length + cut.length) - (1 + (rest.length - behind.length))
      cursor } (some removed') := by
  obtain ⟨⟨large, hints, events, rfl⟩, handed, left, -, -, bytes, -, -, ledger⟩ := hcut
  obtain ⟨⟨large', hints', events', rfl⟩, handed', left', tracked, census, holds, -, fewer, restBytes,
    ledger'⟩ := hrest
  obtain ⟨total, count⟩ := h.totals_split whole
  simp only [FreeList.bytes_append] at restBytes
  have inside : ¬ (e.top ≤ low ∨ high ≤ e.start) := by omega
  have outside : ∀ f ∈ before, f.top ≤ low ∨ high ≤ f.start := fun f hf => .inl (missed f hf)
  obtain ⟨others, none⟩ := flatMap_outside p.config.minEntry minimum outside
  refine ⟨⟨h.config, h.grid, h.gap, h.strays, tracked, ?_, ?_, census, holds⟩,
    ⟨rfl, rfl, rfl, fun a => ?_⟩, nofun, ?_⟩
  · show p.freeBytes - _ = FreeList.bytes (before ++ pieces ++ (cut ++ behind))
    simp only [FreeList.bytes_append]
    omega
  · show p.entryCount + _ - _ = (before ++ pieces ++ (cut ++ behind)).length
    simp only [List.length_append]
    omega
  · refine ((ledger a).add (ledger' a)).shift ?_
    have cover := congrArg (FreeList.cover · a) whole
    simp only [account, cover_nil, FreeList.cover_append, FreeList.cover_cons, Option.elim_some, handed,
      Removed.of, List.nil_append] at cover ⊢
    omega
  · rintro _ ⟨⟩
    refine ⟨?_, ?_, e, by simp [← whole], above, start⟩
    · rw [handed', ← whole, List.flatMap_append, List.flatMap_cons, none, List.nil_append]
    · rw [← whole, List.flatMap_append, List.flatMap_cons, others, remnants, if_neg inside, ← left, ← left',
        List.append_assoc]

end

theorem removeWithin_ends (minimum : Nat) (h : p.Sound) (hl : low ≤ high)
    (room : F .arithmetic ∨ p.RoomToSplit low high) :
    Ends F (p.removeWithin low high minimum) fun r => p.PulledOff low high minimum r.1 r.2 := by
  unfold removeWithin
  have whole := List.takeWhile_append_dropWhile (p := fun e => decide (e.start < low) && decide (e.top ≤ low))
    (l := p.entries)
  have missed : ∀ f ∈ p.entries.takeWhile fun e => decide (e.start < low) && decide (e.top ≤ low),
      f.top ≤ low := by
    intro f hf
    have := List.mem_takeWhile_imp hf
    simp only [Bool.and_eq_true, decide_eq_true_eq] at this
    exact this.2
  simp only
  generalize (p.entries.takeWhile fun e => decide (e.start < low) && decide (e.top ≤ low)) = before at *
  cases hd : p.entries.dropWhile fun e => decide (e.start < low) && decide (e.top ≤ low) with
  | nil =>
    rw [hd, List.append_nil] at whole
    simp only [walkBelow_of_gap h.gap, ok_bind]
    exact ⟨h, .refl p, fun _ => ⟨rfl, fun e he => .inl (missed e (whole ▸ he))⟩, nofun⟩
  | cons e rest =>
    rw [hd] at whole
    have notMissed : ¬ (e.start < low ∧ e.top ≤ low) := by simpa using FreeList.eq_false_of_dropWhile hd
    have tracked := whole ▸ h.tracked
    have he : e ∈ p.entries := by simp [← whole]
    have top := h.tracked.inside e he
    have width : e.start < e.top := Nat.lt_add_of_pos_right (h.size_pos he)
    have above : low < e.top := by omega
    have front := (FreeList.tracked_cons.1 (FreeList.tracked_append.1 tracked).2.1).2.1
    simp only [checkedTop_bind top, ite_self]
    split
    · rename_i beyond
      refine ⟨h, .refl p, fun _ => ⟨rfl, fun f hf => ?_⟩, nofun⟩
      rw [← whole] at hf
      rcases List.mem_append.1 hf with hf | hf
      · exact .inl (missed f hf)
      · refine .inr ?_
        rcases List.mem_cons.1 hf with rfl | hf
        · exact beyond
        · have := front f hf
          omega
    rename_i meets
    have start : e.start < high := by omega
    refine (cutOut_ends [] h.minEntry_pos tracked (whole ▸ h.census) (whole ▸ h.hints)
      (by omega)).bind ?_
    rintro ⟨q, removed, pieces⟩ hcut
    replace hcut : p.CutOut low high minimum [] before e rest q removed pieces := hcut
    obtain rfl := hcut.handed
    obtain ⟨large, hints, events, rfl⟩ := hcut.same
    have aboveLow : ∀ f ∈ rest, low ≤ f.start := fun f hf =>
      Nat.le_of_lt (Nat.lt_of_lt_of_le above (front f hf))
    refine (removeBelow_ends (by exact h.minEntry_pos) (by exact h.gap)
      (by exact tracked.cut hcut.tracked hcut.within) hcut.census hcut.hints aboveLow).bind ?_
    rintro ⟨r, removed', cut, behind⟩ hrest
    replace hrest : Emptied _ low high minimum (taken minimum low high e) (before ++ pieces) rest r removed'
      cut behind := hrest
    obtain ⟨large', hints', events', rfl⟩ := hrest.same
    obtain ⟨bytes, count⟩ := h.totals_split whole
    refine credit_count_bind h.freeBytes_lt (room.imp_right ?_) (debit_bind ?_ ?_ ?_)
    · exact count_lt_of_removed h whole hl start above hcut hrest
    · show _ ≤ p.freeBytes
      omega
    · show _ ≤ p.entryCount + (pieces.length + cut.length)
      omega
    · have pulled := pulledOff_removed (p.cursor.relink (FreeList.firstStart (cut ++ behind))
        (FreeList.lastStart (before ++ pieces))) h whole missed start above hcut hrest
      exact pulled.sound.settle_bind pulled

/-- So many entries have one byte each at most. -/
theorem Sound.minEntry_eq_one (h : p.Sound) (full : ¬ p.entryCount + 2 < wordLimit) :
    p.config.minEntry = 1 := by
  have pos := h.minEntry_pos
  have bytes := h.tracked.length_mul_le_bytes
  have total := h.freeBytes_lt
  rw [h.bytes] at total
  rw [h.count] at full
  rcases Nat.lt_or_ge 1 p.config.minEntry with two | one
  · have := Nat.mul_le_mul_left p.entries.length two
    unfold wordLimit at *
    omega
  · omega

/-- An empty range that was pulled out of the inside of an entry has left room for its two halves. -/
theorem roomToSplit_of_removeWithin {r : Pool × Option Removed} (h : p.Sound)
    (done : p.removeWithin low high minimum = .ok r) : p.RoomToSplit low high := by
  rintro rfl ⟨e, he, above, below⟩
  refine Decidable.by_contra fun full => ?_
  obtain ⟨before, rest, whole⟩ := List.append_of_mem he
  have tracked := whole ▸ h.tracked
  obtain ⟨tb, te, cross⟩ := FreeList.tracked_append.1 tracked
  obtain ⟨⟨large, top⟩, front, -⟩ := FreeList.tracked_cons.1 te
  have one := h.minEntry_eq_one full
  have missed : ∀ f ∈ before, (decide (f.start < low) && decide (f.top ≤ low)) = true := by
    intro f hf
    have := cross f hf e List.mem_cons_self
    have := tb.large f hf
    simp only [Bool.and_eq_true, decide_eq_true_eq]
    unfold Entry.top at *
    omega
  have walk : (p.entries.takeWhile fun e => decide (e.start < low) && decide (e.top ≤ low)) = before ∧
      (p.entries.dropWhile fun e => decide (e.start < low) && decide (e.top ≤ low)) = e :: rest := by
    rw [whole, List.takeWhile_append_of_pos missed, List.dropWhile_append_of_pos missed]
    simp [Nat.not_le_of_lt below]
  have never : Ends (fun _ => True) (p.removeWithin low low minimum) fun _ => False := by
    unfold removeWithin
    simp only [walk, checkedTop_bind top, ite_self]
    rw [if_neg (by omega)]
    refine (cutOut_ends [] h.minEntry_pos tracked (whole ▸ h.census) (whole ▸ h.hints)
      (by omega)).bind ?_
    rintro ⟨q, removed, pieces⟩ hcut
    obtain ⟨⟨_, _, _, rfl⟩, -, left, -⟩ : p.CutOut low low minimum [] before e rest q removed pieces := hcut
    have split : pieces.length = 2 := by
      have lower : 1 ≤ low - e.start := by omega
      have upper : 1 ≤ e.top - low := by omega
      rw [left, one, leftover, leftover, if_pos ⟨above, lower⟩, if_pos ⟨below, upper⟩]
      rfl
    have behind : ∀ f ∈ rest, low ≤ f.start := fun f hf => by
      have := front f hf
      omega
    rw [removeBelow_of_le h.minEntry_pos (by exact h.gap) (FreeList.tracked_cons.1 te).2.2 behind, ok_bind]
    have overflow : Word.add p.entryCount (pieces.length + 0) = .error .arithmetic := by
      rw [split]
      exact if_neg full
    have bytes : Word.add p.freeBytes 0 = .ok (p.freeBytes + 0) :=
      Word.add_eq_ok.2 ⟨h.freeBytes_lt, rfl⟩
    simp only [credit, bytes, List.length_nil, overflow]
    exact True.intro
  exact never.of_ok done

end FreeStore.Pool
