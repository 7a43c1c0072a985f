import FreeStore.Proofs.Insertion
/-!
Splicing a batch keeps a pool sound.

The ranges of a batch that are large enough become entries in one gap of the list. Then two touching
entries at one end of the batch may become one (`Joined`), which changes neither the bytes on the list
nor the addresses that its entries hold.
-/
namespace FreeStore

namespace FreeList

/-- Two touching neighbours in the list became one entry, or none did. -/
inductive Joined : FreeList → FreeList → Option (Entry × Entry) → Prop where
  | apart (l : FreeList) : Joined l l none
  | join (before : FreeList) (e f : Entry) (after : FreeList) (touch : e.top = f.start) :
    Joined (before ++ e :: f :: after) (before ++ ⟨e.start, e.size + f.size⟩ :: after) (some (e, f))

variable {m a : Nat} {e f first tail : Entry} {l k before batch after : FreeList}
  {pair : Option (Entry × Entry)}

theorem Joined.append (j : Joined l k pair) (after : FreeList) :
    Joined (l ++ after) (k ++ after) pair := by
  cases j with
  | apart => exact .apart _
  | join before e f rest touch => simpa using Joined.join before e f (rest ++ after) touch

theorem Joined.tracked (j : Joined l k pair) (h : Tracked m l) : Tracked m k := by
  cases j with
  | apart => exact h
  | join before e f after touch =>
    simp only [tracked_append, tracked_cons, List.mem_cons] at h ⊢
    obtain ⟨tb, ⟨⟨le, ie⟩, ef, ⟨lf, iff⟩, ff, ta⟩, cross⟩ := h
    simp only [Entry.top] at touch iff ff ⊢
    refine ⟨tb, ⟨⟨by omega, by omega⟩, fun d hd => ?_, ta⟩, ?_⟩
    · have := ff d hd
      omega
    · rintro d hd g (rfl | hg)
      · exact cross d hd e (.inl rfl)
      · exact cross d hd g (.inr (.inr hg))

theorem Joined.bytes_eq (j : Joined l k pair) : bytes k = bytes l := by
  cases j with
  | apart => rfl
  | join before e f after touch =>
    simp only [bytes_append, bytes_cons]
    omega

theorem Joined.length_eq (j : Joined l k pair) : k.length + pair.toList.length = l.length := by
  cases j with
  | apart => rfl
  | join before e f after touch =>
    simp only [List.length_append, List.length_cons, Option.toList_some, List.length_nil]
    omega

theorem Joined.cover_eq (j : Joined l k pair) : cover k a = cover l a := by
  cases j with
  | apart => rfl
  | join before e f after touch =>
    have width : e.start ≤ e.top := Nat.le_add_right _ _
    have room : e.top ≤ e.top + f.size := Nat.le_add_right _ _
    have halves := Range.hits_split (a := a) width room
    simp only [Entry.top] at touch halves
    simp only [cover_append, cover_cons, Entry.range, Entry.top, ← touch, ← Nat.add_assoc, halves]

/-- Below the joined entries the list is as it was. -/
theorem Joined.mem_below (j : Joined l k pair) (h : ∀ e f, pair = some (e, f) → a ≤ e.start)
    {d : Entry} (hd : d.start < a) : d ∈ k ↔ d ∈ l := by
  cases j with
  | apart => rfl
  | join before e f after touch =>
    have start := h e f rfl
    have notJoined : d ≠ ⟨e.start, e.size + f.size⟩ := by
      rintro rfl
      simp only at hd
      omega
    have notLower : d ≠ e := by
      rintro rfl
      omega
    have notUpper : d ≠ f := by
      rintro rfl
      unfold Entry.top at touch
      omega
    simp only [List.mem_append, List.mem_cons, notJoined, notLower, notUpper, false_or]

theorem Joined.eq_of_apart (j : Joined l k none) : k = l := by
  cases j
  rfl

theorem Joined.mem_lower (j : Joined l k (some (e, f))) : e ∈ l := by
  cases j with
  | join before e f after touch => simp

/-- The start of the lower one of two joined entries remains the start of an entry. -/
theorem Joined.start_mem (j : Joined l k (some (e, f))) : ∃ d ∈ k, d.start = e.start := by
  cases j with
  | join before e f after touch =>
    exact ⟨⟨e.start, e.size + f.size⟩, List.mem_append_right _ List.mem_cons_self, rfl⟩

/-- The list starts where it did. -/
theorem Joined.head_mem (j : Joined (e :: l) k pair) : ∃ d ∈ k, d.start = e.start := by
  generalize hl : e :: l = whole at j
  cases j with
  | apart => exact ⟨e, by simp [← hl], rfl⟩
  | join before d f after touch =>
    cases before with
    | nil =>
      cases hl
      exact ⟨⟨e.start, e.size + f.size⟩, List.mem_cons_self, rfl⟩
    | cons c before =>
      cases hl
      exact ⟨e, List.mem_cons_self, rfl⟩

end FreeList

namespace Pool

variable {α : Type} {F : Fault → Prop} {R : α → Prop} {p : Pool} {k : Pool → Outcome α}
  {l joined before batch after : FreeList} {first tail : Entry} {pair : Option (Entry × Entry)}
  {ranges : List Range}

/-! ## Joining the ends -/

theorem joined_joinEnds {front back : FreeList} :
    FreeList.Joined (front ++ back) (joinEnds front back).1 (joinEnds front back).2 := by
  unfold joinEnds
  split
  · rename_i last first rest hl
    split
    · rename_i touch
      have whole : front = front.dropLast ++ [last] := (List.dropLast_append_getLast? last hl).symm
      have := FreeList.Joined.join front.dropLast last first rest touch
      rwa [List.append_cons, ← whole] at this
    · exact .apart _
  · exact .apart _

theorem joined_of_joinBatch (hj : joinBatch before batch after = (joined, pair)) :
    FreeList.Joined (before ++ batch ++ after) joined pair := by
  cases before with
  | nil =>
    have hj : joinEnds batch after = (joined, pair) := hj
    have j : FreeList.Joined (batch ++ after) (joinEnds batch after).1 (joinEnds batch after).2 :=
      joined_joinEnds
    rwa [hj] at j
  | cons e before =>
    cases hj
    exact joined_joinEnds.append after

theorem mem_of_joinEnds {e f : Entry} (h : (joinEnds before batch).2 = some (e, f)) : e ∈ before := by
  unfold joinEnds at h
  split at h
  · rename_i previous first rest hb
    split at h
    · cases h
      exact List.mem_of_getLast? hb
    · cases h
  · cases h

/-- The inserted entries start at an entry of the new list, and no entry of the batch and no joined entry
starts below it. -/
theorem batchStart_le (ht : FreeList.Tracked p.config.minEntry (before ++ first :: batch ++ after))
    (hm : 0 < p.config.minEntry) (hj : joinBatch before (first :: batch) after = (joined, pair)) :
    (∀ e ∈ first :: batch, batchStart before first pair ≤ e.start) ∧
      (∀ e f, pair = some (e, f) → batchStart before first pair ≤ e.start) ∧
      ∃ d ∈ joined, d.start = batchStart before first pair := by
  have j := joined_of_joinBatch hj
  have lowest : ∀ e ∈ first :: batch ++ after, first.start ≤ e.start := by
    intro e he
    have te := (FreeList.tracked_append.1 (List.append_assoc .. ▸ ht)).2.1
    rcases List.mem_cons.1 he with rfl | he
    · exact Nat.le_refl _
    · exact Nat.le_of_lt (te.start_lt hm he)
  cases before with
  | nil =>
    refine ⟨fun e he => lowest e (List.mem_append_left _ he), fun e f he => ?_, j.head_mem⟩
    subst he
    exact lowest e j.mem_lower
  | cons c before =>
    cases pair with
    | none =>
      obtain rfl := j.eq_of_apart
      exact ⟨fun e he => lowest e (List.mem_append_left _ he), by simp, first, by simp, rfl⟩
    | some pair =>
      obtain ⟨e, f⟩ := pair
      have he := mem_of_joinEnds (congrArg Prod.snd hj)
      refine ⟨fun d hd => ?_, ?_, j.start_mem⟩
      · have apart := (FreeList.tracked_append.1 (FreeList.tracked_append.1 ht).1).2.2 e he d hd
        unfold Entry.top at apart
        simp only [batchStart, List.isEmpty_cons, Bool.false_eq_true, if_false, Option.elim_some]
        omega
      · rintro _ _ ⟨⟩
        exact Nat.le_refl _

/-! ## The books -/

/-- The ranges that are not kept are reported. -/
theorem exists_abandonSmall (p : Pool) (ranges : List Range) :
    ∃ events, p.abandonSmall ranges = { p with events } ∧ ∀ a, Balances p.isRecorded
      (cover (PoolEvent.dropped p.events) a + cover (ranges.filter fun r => !p.keeps r.length) a)
      (cover (PoolEvent.dropped events) a) := by
  induction ranges generalizing p with
  | nil => exact ⟨p.events, rfl, fun _ => .rfl⟩
  | cons r ranges ih =>
    unfold abandonSmall
    cases kept : p.keeps r.length with
    | true =>
      obtain ⟨events, same, reports⟩ := ih p
      exact ⟨events, by simpa using same, fun a => by simpa [kept] using reports a⟩
    | false =>
      obtain ⟨events, same, reports⟩ := ih (p.abandon r.low r.high)
      refine ⟨events, same, fun a => ?_⟩
      have first : Balances _ (_ + r.hits a) (cover (PoolEvent.dropped (p.abandon r.low r.high).events) a) :=
        balances_logDrop p.isRecorded p.events r.low r.high a
      have others : Balances p.isRecorded
          (_ + cover (ranges.filter fun r => !p.keeps r.length) a) _ := reports a
      refine (first.add others).shift ?_
      simp only [kept, List.filter_cons, Bool.not_false, if_true, cover_cons]
      omega

theorem countBatch_bind (hc : p.large.freeEntries.Counts l) (hs : ∀ e ∈ batch, 0 < e.size)
    (count : l.length + batch.length < wordLimit) (bytes : l.bytes + batch.bytes < wordLimit)
    (w : ∀ (g : Histogram) (largest : Nat), g.Counts (batch ++ l) →
      Ends F (k { p with largest, large := { p.large with freeEntries := g } }) R) :
    Ends F (p.countBatch batch >>= k) R := by
  unfold countBatch
  induction batch generalizing p l with
  | nil => exact w p.large.freeEntries p.largest hc
  | cons e batch ih =>
    obtain ⟨pos, rest⟩ := List.forall_mem_cons.1 hs
    rw [List.length_cons] at count
    rw [FreeList.bytes_cons] at bytes
    rw [List.foldlM_cons, bind_assoc, bind_assoc]
    refine countFree_bind hc pos (by omega) (by omega) fun g hg => ?_
    refine ih hg rest ?_ ?_ fun g' largest hg' => ?_
    · rw [List.length_cons]
      omega
    · rw [FreeList.bytes_cons]
      omega
    exact w g' largest (hg'.perm List.perm_middle)

theorem countJoin_bind (hc : p.large.freeEntries.Counts l)
    (hl : FreeList.Tracked p.config.minEntry l) (hm : 0 < p.config.minEntry)
    (j : FreeList.Joined l joined pair)
    (w : ∀ (g : Histogram) (largest : Nat), g.Counts joined →
      Ends F (k { p with largest, large := { p.large with freeEntries := g } }) R) :
    Ends F (p.countJoin pair >>= k) R := by
  cases j with
  | apart => exact w p.large.freeEntries p.largest hc
  | join before e f after touch =>
    have total := hl.bytes_lt (a := 0) (by decide) (by simp)
    have few := hl.length_le_bytes hm
    obtain ⟨-, ht, -⟩ := FreeList.tracked_append.1 hl
    obtain ⟨⟨le, ie⟩, -, rest⟩ := FreeList.tracked_cons.1 ht
    obtain ⟨⟨lf, iff⟩, -, -⟩ := FreeList.tracked_cons.1 rest
    unfold Entry.top at ie iff touch
    simp only [FreeList.bytes_append, FreeList.bytes_cons, List.length_append, List.length_cons] at total few
    simp only [countJoin, bind_assoc]
    have hc' := hc.perm (List.perm_middle.trans (List.perm_middle.cons e))
    refine uncountFree_bind hc' (by omega) (by omega) fun g₁ hg₁ => ?_
    refine uncountFree_bind hg₁ (by omega) (by omega) fun g₂ hg₂ => ?_
    refine countFree_bind (e := ⟨e.start, e.size + f.size⟩) hg₂ ?_ ?_ ?_ fun g₃ hg₃ => ?_
    · show 0 < e.size + f.size
      omega
    · rw [List.length_append]
      omega
    · rw [FreeList.bytes_append]
      show _ + (e.size + f.size) < wordLimit
      omega
    exact w g₃ _ (hg₃.perm List.perm_middle.symm)

/-! ## The batch -/

theorem mem_batchOf {e : Entry} (hb : p.BatchFits ranges) (he : e ∈ p.batchOf ranges) :
    p.config.minEntry ≤ e.size ∧ e.top < wordLimit := by
  simp only [batchOf, List.mem_map, List.mem_filter] at he
  obtain ⟨r, ⟨hr, kept⟩, rfl⟩ := he
  have fits := hb.insertable r hr
  have top : (Entry.ofRange r).top = r.high := Entry.top_ofRange (Nat.le_of_lt fits.nonempty)
  have large : p.config.minEntry ≤ r.length := by simpa [keeps] using kept
  exact ⟨large, top ▸ fits.inside⟩

theorem cover_batchOf (hb : p.BatchFits ranges) (a : Nat) :
    cover ranges a =
      (p.batchOf ranges).cover a + cover (ranges.filter fun r => !p.keeps r.length) a := by
  have nonempty : ∀ r ∈ ranges, r.low < r.high := fun r hr => (hb.insertable r hr).nonempty
  clear hb
  induction ranges with
  | nil => rfl
  | cons r ranges ih =>
    obtain ⟨width, rest⟩ := List.forall_mem_cons.1 nonempty
    have same : (Entry.ofRange r).range = r := Entry.range_ofRange (Nat.le_of_lt width)
    have := ih rest
    unfold batchOf at this ⊢
    cases kept : p.keeps r.length <;> simp [kept, same] at this ⊢ <;> omega

theorem bytes_batchOf_le (p : Pool) (ranges : List Range) : (p.batchOf ranges).bytes ≤ totalBytes ranges := by
  induction ranges with
  | nil => exact Nat.le_refl _
  | cons r ranges ih =>
    have added := Nat.add_le_add_left ih (r.high - r.low)
    unfold batchOf
    rw [List.filter_cons]
    split
    · exact added
    · exact Nat.le_trans ih (Nat.le_add_left ..)

/-- The batch lies in one gap of the list. -/
theorem tracked_batch {rest : FreeList} (h : p.Sound) (hb : p.BatchFits ranges)
    (hf : p.batchOf ranges = first :: rest) :
    FreeList.Tracked p.config.minEntry
      (p.entries.below first.start ++ first :: rest ++ p.entries.upFrom first.start) := by
  have inOrder : FreeList.Tracked p.config.minEntry (first :: rest) := by
    rw [← hf]
    exact ⟨hb.ordered, fun e he => (mem_batchOf hb he).1, fun e he => (mem_batchOf hb he).2⟩
  have oneGap := hf ▸ hb.oneGap
  -- an entry on one side of the first range is on that side of all ranges
  have lower : ∀ e ∈ p.entries.below first.start, ∀ f ∈ first :: rest, e.top ≤ f.start := by
    intro e he f hf
    have start := FreeList.start_lt_of_mem_below he
    rcases oneGap e (List.takeWhile_subset _ he) with apart | apart
    · exact apart f hf
    · have := apart first List.mem_cons_self
      simp only [Entry.top] at this
      omega
  have upper : ∀ f ∈ first :: rest, ∀ e ∈ p.entries.upFrom first.start, f.top ≤ e.start := by
    intro f hf e he
    have start := h.tracked.le_start_of_mem_upFrom h.minEntry_pos he
    have hin := List.dropWhile_subset _ he
    have pos := h.size_pos hin
    rcases oneGap e hin with apart | apart
    · have := apart first List.mem_cons_self
      simp only [Entry.top] at this
      omega
    · exact apart f hf
  have whole := FreeList.below_append_upFrom first.start p.entries ▸ h.tracked
  obtain ⟨tl, tu, cross⟩ := FreeList.tracked_append.1 whole
  refine FreeList.tracked_append.2 ⟨FreeList.tracked_append.2 ⟨tl, inOrder, lower⟩, tu, ?_⟩
  intro e he f hf
  rcases List.mem_append.1 he with he | he
  · exact cross e he f hf
  · exact upper e he f hf

/-- With the batch in its gap, the totals are still words. -/
theorem totals_of_tracked (h : p.Sound) (whole : before ++ after = p.entries)
    (ht : FreeList.Tracked p.config.minEntry (before ++ batch ++ after)) :
    p.freeBytes + batch.bytes < wordLimit ∧ p.entryCount + batch.length < wordLimit := by
  have bytes := h.bytes
  have count := h.count
  have inside := ht.bytes_lt (a := 0) (by decide) (by simp)
  have room := ht.length_le_bytes h.minEntry_pos
  simp only [← whole, FreeList.bytes_append, List.length_append] at bytes count inside room
  omega

/-- Nothing below the inserted entries changes, so the hints there hold on. -/
theorem holds_joined (h : p.Sound) (whole : before ++ after = p.entries)
    (ht : FreeList.Tracked p.config.minEntry (before ++ first :: batch ++ after))
    (hj : joinBatch before (first :: batch) after = (joined, pair)) :
    (p.hints.updateBeyond (batchStart before first pair)).Holds joined := by
  obtain ⟨startBatch, startPair, startMem⟩ := batchStart_le ht h.minEntry_pos hj
  refine h.hints.updateBeyond startMem fun e he => ?_
  rw [(joined_of_joinBatch hj).mem_below startPair he, ← whole]
  have notBatch : e ∉ first :: batch := fun hin => by
    have := startBatch e hin
    omega
  simp only [List.mem_append, notBatch, or_false]

/-- The pool once a batch is in its gap and the books have followed. -/
theorem delivered_joined (largest : Nat) {pendingLoss : Nat} {hints : HintCache} {cursor : CardCursor}
    {events : List PoolEvent} {g : Histogram} (h : p.Sound) (lowered : p.cursor.Lowered cursor)
    (least : p.pendingLoss ≤ pendingLoss) (some : 0 < batch.bytes) (whole : before ++ after = p.entries)
    (ht : FreeList.Tracked p.config.minEntry (before ++ batch ++ after))
    (j : FreeList.Joined (before ++ batch ++ after) joined pair) (hc : g.Counts joined)
    (hh : hints.Holds joined)
    (hr : ∀ a, Balances p.isRecorded (cover (PoolEvent.dropped p.events) a + cover ranges a)
      (cover (PoolEvent.dropped events) a + batch.cover a)) :
    p.Delivered ranges { p with
      entries := joined, freeBytes := p.freeBytes + batch.bytes - 0
      entryCount := p.entryCount + batch.length - pair.toList.length
      largest, hints, cursor, pendingLoss, events, large := { p.large with freeEntries := g } } := by
  have joinedBytes := j.bytes_eq
  have joinedLength := j.length_eq
  have bytes := h.bytes
  have count := h.count
  simp only [← whole, FreeList.bytes_append, List.length_append] at joinedBytes joinedLength bytes count
  refine ⟨⟨h.config, h.grid, h.gap, h.strays, j.tracked ht, ?_, ?_, hc, hh⟩,
    ⟨rfl, rfl, rfl, fun a => (hr a).shift ?_⟩, least, lowered, fun same => ?_⟩
  · show p.freeBytes + _ - 0 = joined.bytes
    omega
  · show p.entryCount + _ - _ = joined.length
    omega
  · have joinedCover := j.cover_eq (a := a)
    have split := congrArg (FreeList.cover · a) whole
    simp only [account, cover_nil, FreeList.cover_append] at joinedCover split ⊢
    omega
  · dsimp only at same
    omega

theorem coverStrays_eq (h : p.strays = []) : p.coverStrays l = p := by
  rw [coverStrays, h, List.filter_nil, ← h]

/-- The list with a batch in its gap. -/
def withBatch (p : Pool) (batch : FreeList) : FreeList :=
  batch.head?.elim p.entries fun first =>
    (joinBatch (p.entries.below first.start) batch (p.entries.upFrom first.start)).1

/-- What splicing a batch leads to: its entries are on the list. -/
structure BatchIn (p : Pool) (ranges : List Range) (q : Pool) : Prop extends p.Delivered ranges q where
  entries : q.entries = p.withBatch (p.batchOf ranges)
  grows : p.Grows (p.batchOf ranges).bytes q

theorem Delivered.ends_settle {q : Pool} (delivered : p.Delivered ranges q)
    (entries : q.entries = p.withBatch (p.batchOf ranges)) (grows : p.Grows (p.batchOf ranges).bytes q) :
    Ends F q.settle (p.BatchIn ranges) :=
  delivered.sound.ends_settle ⟨delivered, entries, grows⟩

/-- A batch that fits into a gap goes in. Only the estimate of a pending realignment can overflow. -/
theorem addEntries_putsIn (hF : F .counterOverflow ∨ p.cursor = .done ∨
      p.pendingLoss + (p.freeBytes + (p.batchOf ranges).bytes) < wordLimit)
    (h : p.Sound) (hb : p.BatchFits ranges) :
    Ends F (p.addEntries ranges) (p.BatchIn ranges) := by
  have promised : (ranges.all fun r => decide (r.low ≤ r.high)) = true := by
    rw [List.all_eq_true]
    exact fun r hr => decide_eq_true (Nat.le_of_lt (hb.insertable r hr).nonempty)
  obtain ⟨events, reported, small⟩ := exists_abandonSmall p ranges
  have reports : ∀ a, Balances p.isRecorded (cover (PoolEvent.dropped p.events) a + cover ranges a)
      (cover (PoolEvent.dropped events) a + (p.batchOf ranges).cover a) := by
    intro a
    have := cover_batchOf hb a
    refine (small a).shift ?_
    omega
  have sameBatch : batchOf { p with events } ranges = p.batchOf ranges := rfl
  unfold addEntries
  simp only [require_bind promised, reported, sameBatch]
  cases hf : p.batchOf ranges with
  | nil =>
    refine ⟨⟨⟨h.config, h.grid, h.gap, h.strays, h.tracked, h.bytes, h.count, h.census, h.hints⟩,
      ⟨rfl, rfl, rfl, fun a => (reports a).shift ?_⟩, Nat.le_refl _, .inl rfl, fun _ => rfl⟩, by rw [hf]; rfl,
      Nat.le_add_right _ _, Nat.le_add_right _ _, rfl, rfl, rfl⟩
    simp only [hf, FreeList.cover_nil, account, cover_nil]
    omega
  | cons first rest =>
    obtain ⟨tail, ht⟩ : ∃ tail, (first :: rest).getLast? = some tail := by
      simp [List.getLast?_cons]
    have tracked := tracked_batch h hb hf
    obtain ⟨tfb, tu, cross⟩ := FreeList.tracked_append.1 tracked
    obtain ⟨-, tb, -⟩ := FreeList.tracked_append.1 tfb
    have whole := FreeList.below_append_upFrom first.start p.entries
    obtain ⟨bytes, count⟩ := totals_of_tracked h whole tracked
    have spliced : p.withBatch (p.batchOf ranges) = (joinBatch (p.entries.below first.start) (first :: rest)
        (p.entries.upFrom first.start)).1 := by
      rw [hf]
      rfl
    rw [hf] at hF
    generalize hbefore : p.entries.below first.start = before at *
    generalize hafter : p.entries.upFrom first.start = after at *
    have placed : (FreeList.startsFrom tail.top after && p.gap.all fun g => tail.top ≤ g) = true := by
      rw [h.gap, FreeList.startsFrom_of fun f hf => cross tail (by simp [List.mem_of_getLast? ht]) f hf]
      rfl
    have bounds : ∀ e ∈ first :: rest, 0 < e.size := fun e he => (tb.size_bounds h.minEntry_pos he).1
    have old : { p with events := events }.strays = [] := h.strays
    simp only [List.head?_cons, ht, tb.isOrdered h.minEntry_pos, require_bind rfl, coverStrays_eq old]
    refine countBatch_bind h.census bounds (h.count ▸ count) (h.bytes ▸ bytes) fun g largest hg => ?_
    rw [walkBelow_of_gap (by exact h.gap)]
    simp only [hbefore, hafter, require_bind placed, ok_bind]
    rw [walkThrough_of_gap (by exact h.gap)]
    simp only [ok_bind, ite_self]
    rcases hj : joinBatch before (first :: rest) after with ⟨entries, pair⟩
    rw [hj] at spliced
    have j := joined_of_joinBatch hj
    have census : g.Counts (before ++ first :: rest ++ after) := by
      refine hg.perm ?_
      rw [← whole, List.append_assoc]
      exact List.perm_append_comm_assoc ..
    refine countJoin_bind (l := before ++ first :: rest ++ after) census tracked h.minEntry_pos j
      fun g largest hg => ?_
    have length := j.length_eq
    have total := h.count
    simp only [← whole, List.length_append] at length total
    have onList : entries.bytes = p.freeBytes + FreeList.bytes (first :: rest) := by
      rw [j.bytes_eq, h.bytes, ← whole]
      simp only [FreeList.bytes_append]
      omega
    have hints := holds_joined h whole tracked hj
    have reports := hf ▸ reports
    have some : 0 < FreeList.bytes (first :: rest) :=
      Nat.lt_of_lt_of_le (bounds first List.mem_cons_self) (Nat.le_add_right _ _)
    refine credit_bind bytes count (debit_bind (Nat.zero_le _) ?_ ?_)
    · show pair.toList.length ≤ p.entryCount + (first :: rest).length
      omega
    have sublist : ∀ start, List.Sublist
        (FreeList.through tail.start (FreeList.upFrom start entries)) entries := fun start =>
      (List.takeWhile_sublist _).trans (List.dropWhile_sublist _)
    have loss := lossOf_le_bytes (p := p) (sublist (batchStart before first pair))
    rw [onList] at loss
    dsimp only [relinkCursor]
    rw [FreeList.checkTops_eq_ok ((j.tracked tracked).sublist (sublist _))]
    refine iteInduction (motive := fun x => Ends F x _) (fun _ => ?_) fun _ => ?_
    · refine noteUnaligned_bind (hF.imp_right fun fits pulled => ?_) fun pendingLoss cursor noted => ?_
      · obtain ⟨-, _, pending, -⟩ := CardCursor.pulled_relink.1 pulled
        rcases fits with done | fits
        · rw [done] at pending
          cases pending
        · exact Nat.lt_of_le_of_lt (Nat.add_le_add_left loss _) fits
      have delivered := delivered_joined largest h noted.of_relink.lowered noted.estimate_le.1 some whole
        tracked j hg hints reports
      have estimate := Nat.le_trans noted.estimate_le.2 (Nat.add_le_add_left loss _)
      exact delivered.ends_settle spliced.symm (by rw [hf]; exact ⟨Nat.le_refl _, estimate, rfl, rfl, rfl⟩)
    · exact (delivered_joined largest h (.inl (CardCursor.first?_relink ..)) (Nat.le_refl _) some whole tracked
        j hg hints reports).ends_settle spliced.symm
        (by rw [hf]; exact ⟨Nat.le_refl _, Nat.le_add_right _ _, rfl, rfl, rfl⟩)

theorem addEntries_ends
    (hF : F .counterOverflow ∨ p.pendingLoss + (p.freeBytes + totalBytes ranges) < wordLimit)
    (h : p.Sound) (hb : p.BatchFits ranges) :
    Ends F (p.addEntries ranges) fun q => p.Delivered ranges q ∧ p.Grows (totalBytes ranges) q := by
  have less := p.bytes_batchOf_le ranges
  refine (addEntries_putsIn (hF.imp_right fun fits => .inr (by omega)) h hb).mono fun q put => ?_
  obtain ⟨free, estimate, stats, sizes⟩ := put.grows
  exact ⟨put.toDelivered, by omega, by omega, stats, sizes⟩

/-- Whatever is given to a pool is free or reported afterwards. -/
theorem deliver_ends {d : Delivery}
    (hF : F .counterOverflow ∨ p.pendingLoss + (p.freeBytes + totalBytes d.ranges) < wordLimit)
    (h : p.Sound) (hd : p.DeliveryFits d) :
    Ends F (p.deliver d) fun q => p.Delivered d.ranges q ∧ p.Grows (totalBytes d.ranges) q := by
  cases d with
  | expand low high coalesce =>
    have fits : p.Insertable low high := hd
    simp only [deliver, Word.sub_bind (Nat.le_of_lt fits.nonempty)]
    exact expand_ends hF h fits coalesce
  | recycle low high =>
    exact (recycle_ends hF h hd).bind fun _ hr => hr
  | add ranges => exact addEntries_ends hF h hd

end Pool

end FreeStore
