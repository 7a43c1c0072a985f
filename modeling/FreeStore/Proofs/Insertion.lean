import Mathlib.Data.List.Basic
import FreeStore.Proofs.Accepts
import FreeStore.Proofs.Realignment
/-!
Insertions keep a pool sound.

A range that is put into a gap of the list may swallow the neighbours that it touches. `Splice` describes
the place: what lies before and after it, and which neighbours go. The list with the one merged entry is
tracked again, and has just the inserted bytes more. A batch goes in unmerged, and then two touching
entries become one at most (`Joined`).
-/
namespace FreeStore

namespace FreeList

/-! ## One range -/

/-- `[low, high)` fits between the entries of a tracked list, and touches `lower` and `upper`. -/
structure Splice (m low high : Nat) (before : FreeList) (lower upper : Option Entry)
    (after : FreeList) : Prop where
  tracked : Tracked m (before ++ lower.toList ++ (upper.toList ++ after))
  nonempty : low < high
  inside : high < wordLimit
  touchesLower : ∀ e ∈ lower, e.top = low
  touchesUpper : ∀ e ∈ upper, e.start = high
  apartBefore : ∀ e ∈ before, e.top ≤ low
  apartAfter : ∀ e ∈ after, high ≤ e.start

variable {m low high a : Nat} {e f : Entry} {l k before after : FreeList} {lower upper : Option Entry}

theorem Splice.start_le (s : Splice m low high before lower upper after) :
    (merged low high lower upper).start ≤ low := by
  cases lower with
  | none => exact Nat.le_refl _
  | some e =>
    have := s.touchesLower e rfl
    simp only [Entry.top, merged, Entry.between, Option.elim_some] at *
    omega

theorem Splice.le_top (s : Splice m low high before lower upper after) :
    high ≤ upper.elim high Entry.top := by
  cases upper with
  | none => exact Nat.le_refl _
  | some e =>
    have := s.touchesUpper e rfl
    simp only [Entry.top, Option.elim_some] at *
    omega

theorem Splice.top_eq (s : Splice m low high before lower upper after) :
    (merged low high lower upper).top = upper.elim high Entry.top := by
  have lowEnd := s.start_le
  have highEnd := s.le_top
  have := s.nonempty
  simp only [merged, Entry.between, Entry.top] at *
  omega

theorem Splice.top_lt (s : Splice m low high before lower upper after) :
    (merged low high lower upper).top < wordLimit := by
  rw [s.top_eq]
  cases upper with
  | none => exact s.inside
  | some e => exact s.tracked.inside e (by simp)

theorem Splice.size_eq (s : Splice m low high before lower upper after) :
    (merged low high lower upper).size = bytes lower.toList + (high - low) + bytes upper.toList := by
  have := s.nonempty
  have := s.touchesLower
  have := s.touchesUpper
  cases lower <;> cases upper <;>
    simp_all [merged, Entry.between, Entry.top] <;> omega

/-- The merged entry is large enough if the range or a neighbour is. -/
theorem Splice.large (s : Splice m low high before lower upper after)
    (h : lower.isSome ∨ upper.isSome ∨ m ≤ high - low) :
    m ≤ (merged low high lower upper).size := by
  have size := s.size_eq
  rcases h with h | h | h
  · obtain ⟨e, rfl⟩ := Option.isSome_iff_exists.1 h
    have := s.tracked.large e (by simp)
    simp only [Option.toList_some, bytes_cons] at size
    omega
  · obtain ⟨e, rfl⟩ := Option.isSome_iff_exists.1 h
    have := s.tracked.large e (by simp)
    simp only [Option.toList_some, bytes_cons] at size
    omega
  · omega

/-- The merged entry takes its place on the list if it is large enough. -/
theorem Splice.tracked_merged (s : Splice m low high before lower upper after)
    (large : m ≤ (merged low high lower upper).size) :
    Tracked m (before ++ merged low high lower upper :: after) := by
  have start := s.start_le
  have top := s.top_eq
  obtain ⟨tl, tu, -⟩ := tracked_append.1 s.tracked
  obtain ⟨tb, -, bl⟩ := tracked_append.1 tl
  obtain ⟨-, ta, ua⟩ := tracked_append.1 tu
  have front : ∀ e ∈ before, e.top ≤ (merged low high lower upper).start := by
    intro e he
    cases lower with
    | none => exact s.apartBefore e he
    | some d => exact bl e he d (by simp)
  have back : ∀ f ∈ after, (merged low high lower upper).top ≤ f.start := by
    intro f hf
    rw [top]
    cases upper with
    | none => exact s.apartAfter f hf
    | some d => exact ua d (by simp) f hf
  refine tracked_append.2 ⟨tb, tracked_cons.2 ⟨⟨large, s.top_lt⟩, back, ta⟩, ?_⟩
  intro e he f hf
  rcases List.mem_cons.1 hf with rfl | hf
  · exact front e he
  · have := front e he
    have := back f hf
    have := s.nonempty
    have := s.le_top
    omega

theorem Splice.bytes_merged (s : Splice m low high before lower upper after) :
    bytes (before ++ merged low high lower upper :: after) =
      bytes (before ++ lower.toList ++ (upper.toList ++ after)) + (high - low) := by
  simp only [bytes_append, bytes_cons, s.size_eq]
  omega

theorem Splice.cover_merged (s : Splice m low high before lower upper after) :
    cover (before ++ merged low high lower upper :: after) a =
      cover (before ++ lower.toList ++ (upper.toList ++ after)) a + Range.hits ⟨low, high⟩ a := by
  -- the merged range falls into the lower neighbour, the inserted range and the upper neighbour
  have start := s.start_le
  have width : low ≤ high := Nat.le_of_lt s.nonempty
  have left := Range.hits_split (a := a) start (Nat.le_trans width s.le_top)
  have right := Range.hits_split (a := a) width s.le_top
  have lowerPart : cover lower.toList a =
      Range.hits ⟨(merged low high lower upper).start, low⟩ a := by
    cases lower with
    | none => exact (Range.hits_eq_zero (Nat.le_refl _)).symm
    | some e => simp [merged, Entry.between, Entry.range, s.touchesLower e rfl]
  have upperPart : cover upper.toList a = Range.hits ⟨high, upper.elim high Entry.top⟩ a := by
    cases upper with
    | none => exact (Range.hits_eq_zero (Nat.le_refl _)).symm
    | some e => simp [Entry.range, s.touchesUpper e rfl]
  simp only [cover_append, cover_cons, Entry.range, s.top_eq, lowerPart, upperPart]
  omega

/-- Hints above the inserted range are pulled back to the merged entry. -/
theorem Splice.holds_updateBeyond {c : HintCache} (s : Splice m low high before lower upper after)
    (hc : c.Holds (before ++ lower.toList ++ (upper.toList ++ after))) :
    (c.updateBeyond (merged low high lower upper).start).Holds
      (before ++ merged low high lower upper :: after) := by
  have start := s.start_le
  have := s.nonempty
  refine hc.updateBeyond ⟨_, by simp, rfl⟩ fun e he => ?_
  have notLower : e ∉ lower.toList := by
    intro h
    obtain rfl := Option.mem_toList.1 h
    simp [merged, Entry.between] at he
  have notUpper : e ∉ upper.toList := by
    intro h
    have := s.touchesUpper e (Option.mem_toList.1 h)
    omega
  have notMerged : e ≠ merged low high lower upper := by
    rintro rfl
    omega
  simp only [List.mem_append, List.mem_cons, notLower, notUpper, notMerged, or_false, false_or]

end FreeList

namespace Pool

variable {α : Type} {F : Fault → Prop} {R : α → Prop} {p : Pool} {k : Pool → Outcome α}
  {low high : Nat} {l before after : FreeList} {lower upper : Option Entry}

theorem uncountNeighbour_bind (hc : p.large.freeEntries.Counts (lower.toList ++ l))
    (hs : ∀ e ∈ lower, 0 < e.size ∧ e.size < wordLimit)
    (w : ∀ g : Histogram, g.Counts l →
      Ends F (k { p with large := { p.large with freeEntries := g } }) R) :
    Ends F (p.uncountNeighbour lower >>= k) R := by
  cases lower with
  | none => exact w _ (by simpa using hc)
  | some e =>
    obtain ⟨pos, word⟩ := hs e rfl
    exact uncountFree_bind (by simpa using hc) pos word w

/-- The last entry of a list taken off, if it touches `a` and is to be merged. -/
theorem dropLast_append_lower {lower : Option Entry} (l : FreeList) (a : Nat)
    (h : lower = touchingBelow l a ∨ lower = none) :
    l = (if lower.isSome then l.dropLast else l) ++ lower.toList ∧ ∀ e ∈ lower, e.top = a := by
  rcases h with rfl | rfl
  · unfold touchingBelow
    cases hl : l.getLast? with
    | none => simp
    | some e =>
      by_cases touches : e.top = a
      · have found : (some e).filter (fun e => e.top == a) = some e :=
          Option.filter_some_pos (by simpa using touches)
        simp [found, touches, List.dropLast_append_getLast? e hl]
      · simp [touches]
  · simp

theorem upper_append_tail {upper : Option Entry} (l : FreeList) (a : Nat)
    (h : upper = touchingAbove l a ∨ upper = none) :
    l = upper.toList ++ (if upper.isSome then l.tail else l) ∧ ∀ e ∈ upper, e.start = a := by
  rcases h with rfl | rfl
  · unfold touchingAbove
    cases l with
    | nil => simp
    | cons e l =>
      by_cases touches : e.start = a
      · have found : (some e).filter (fun e => e.start == a) = some e :=
          Option.filter_some_pos (by simpa using touches)
        simp [found, touches]
      · simp [touches]
  · simp

/-- The entries up to an insertable range end below it, and those beyond start above it. -/
theorem apart_of_insertable (h : p.Sound) (hi : p.Insertable low high) :
    (∀ e ∈ p.entries.through low, e.top ≤ low) ∧ ∀ e ∈ p.entries.beyond low, high ≤ e.start := by
  have width := hi.nonempty
  constructor
  · intro e he
    have start := FreeList.start_le_of_mem_through he
    rcases hi.clear e (List.takeWhile_subset _ he) with apart | apart <;> omega
  · intro e he
    have start := h.tracked.lt_start_of_mem_beyond h.minEntry_pos he
    rcases hi.clear e (List.dropWhile_subset _ he) with apart | apart
    · unfold Entry.top at apart
      omega
    · exact apart

theorem whole_of_parts (front : p.entries.through low = before ++ lower.toList)
    (back : p.entries.beyond low = upper.toList ++ after) :
    p.entries = before ++ lower.toList ++ (upper.toList ++ after) := by
  rw [← front, ← back, FreeList.through_append_beyond]

/-- The place of an insertable range, once the neighbours to be swallowed are taken off. -/
theorem splice_of_insertable (h : p.Sound) (hi : p.Insertable low high)
    (hl : lower = touchingBelow (p.entries.through low) low ∨ lower = none)
    (hu : upper = touchingAbove (p.entries.beyond low) high ∨ upper = none)
    (hb : (if lower.isSome then (p.entries.through low).dropLast else p.entries.through low) = before)
    (ha : (if upper.isSome then (p.entries.beyond low).tail else p.entries.beyond low) = after) :
    FreeList.Splice p.config.minEntry low high before lower upper after ∧
      p.entries.through low = before ++ lower.toList ∧ p.entries.beyond low = upper.toList ++ after := by
  obtain ⟨front, touchesLower⟩ := dropLast_append_lower (p.entries.through low) low hl
  obtain ⟨back, touchesUpper⟩ := upper_append_tail (p.entries.beyond low) high hu
  rw [hb] at front
  rw [ha] at back
  have whole := whole_of_parts front back
  obtain ⟨lowerApart, upperApart⟩ := apart_of_insertable h hi
  refine ⟨⟨whole ▸ h.tracked, hi.nonempty, hi.inside, touchesLower, touchesUpper, fun e he => ?_,
    fun e he => ?_⟩, front, back⟩
  · exact lowerApart e (front ▸ List.mem_append_left _ he)
  · exact upperApart e (back ▸ List.mem_append_right _ he)

/-- The given ranges went in: they are free or reported, the estimate of a pending realignment may have
grown, and its cursor may have moved down. Where there are no more free bytes than before, they were all
reported. -/
structure Delivered (p : Pool) (given : List Range) (q : Pool) : Prop where
  sound : q.Sound
  effect : Effect p q given []
  estimate : p.pendingLoss ≤ q.pendingLoss
  cursor : p.cursor.Lowered q.cursor
  unchanged : q.freeBytes = p.freeBytes → q = { p with events := q.events }

/-- The pool once its books have followed an insertion. -/
theorem delivered_inserted {g : Histogram} {hints : HintCache} {pendingLoss loss : Nat}
    {cursor : CardCursor} {entry : Nat} (largest : Nat) (h : p.Sound)
    (s : FreeList.Splice p.config.minEntry low high before lower upper after)
    (hp : p.entries = before ++ lower.toList ++ (upper.toList ++ after))
    (large : p.config.minEntry ≤ (FreeList.merged low high lower upper).size)
    (hg : g.Counts (FreeList.merged low high lower upper :: (before ++ after)))
    (hh : hints.Holds (before ++ FreeList.merged low high lower upper :: after))
    (noted : p.cursor.Notes p.pendingLoss entry loss cursor pendingLoss) :
    p.Delivered [⟨low, high⟩] { p with
      entries := before ++ FreeList.merged low high lower upper :: after
      freeBytes := p.freeBytes + (high - low)
      entryCount := p.entryCount + 1 - (lower.toList.length + upper.toList.length)
      largest, hints, cursor, pendingLoss
      large := { p.large with freeEntries := g } } := by
  have width := s.nonempty
  refine ⟨⟨h.config, h.grid, h.gap, h.strays, s.tracked_merged large, ?_, ?_, ?_, hh⟩,
    ⟨rfl, rfl, rfl, fun a => .of_eq ?_⟩, noted.estimate_le.1, noted.lowered, fun same => ?_⟩
  · show p.freeBytes + (high - low) = _
    rw [s.bytes_merged, ← hp, h.bytes]
  · show p.entryCount + 1 - _ = _
    rw [h.count, hp]
    simp only [List.length_append, List.length_cons]
    omega
  · exact hg.perm List.perm_middle.symm
  · have cover := s.cover_merged (a := a)
    simp only [account, cover, ← hp, cover_cons, cover_nil]
    omega
  · dsimp only at same
    omega

/-- A range that is reported instead of kept. -/
theorem delivered_abandon (h : p.Sound) : p.Delivered [⟨low, high⟩] (p.abandon low high) := by
  refine ⟨⟨h.config, h.grid, h.gap, h.strays, h.tracked, h.bytes, h.count, h.census, h.hints⟩,
    ⟨rfl, rfl, rfl, fun a => (balances_logDrop p.isRecorded p.events low high a).shift ?_⟩,
    Nat.le_refl _, .inl rfl, fun _ => rfl⟩
  simp only [account, abandon, cover_cons, cover_nil]
  omega

/-- While the books follow an insertion, every number in them stays a word. -/
theorem splice_bounds (h : p.Sound)
    (s : FreeList.Splice p.config.minEntry low high before lower upper after)
    (hp : p.entries = before ++ lower.toList ++ (upper.toList ++ after))
    (large : p.config.minEntry ≤ (FreeList.merged low high lower upper).size) :
    (∀ e ∈ lower, 0 < e.size ∧ e.size < wordLimit) ∧
      (∀ e ∈ upper, 0 < e.size ∧ e.size < wordLimit) ∧
      (0 < (FreeList.merged low high lower upper).size ∧
        (FreeList.merged low high lower upper).size < wordLimit ∧
        (FreeList.merged low high lower upper).size ≤ p.freeBytes + (high - low)) ∧
      (p.freeBytes + (high - low) < wordLimit ∧
        FreeList.bytes (before ++ after) + (FreeList.merged low high lower upper).size < wordLimit) ∧
      (p.entryCount + 1 < wordLimit ∧ (before ++ after).length + 1 < wordLimit) ∧
      lower.toList.length + upper.toList.length ≤ p.entryCount + 1 := by
  have width := s.nonempty
  have bytes := s.bytes_merged
  have inside := (s.tracked_merged large).bytes_lt (a := 0) (by decide) (by simp)
  have count := h.tracked.length_le_bytes h.minEntry_pos
  have mergedTop := s.top_lt
  have pos := h.minEntry_pos
  rw [← hp] at bytes
  rw [h.bytes, h.count]
  have fewer : (before ++ after).length ≤ p.entries.length := by
    simp only [hp, List.length_append]
    omega
  have counted : FreeList.bytes (before ++ after) + (FreeList.merged low high lower upper).size =
      FreeList.bytes (before ++ FreeList.merged low high lower upper :: after) := by
    simp only [FreeList.bytes_append, FreeList.bytes_cons]
    omega
  refine ⟨?_, ?_, ⟨by omega, ?_, by omega⟩, ⟨by omega, by omega⟩, ⟨by omega, by omega⟩, ?_⟩
  · exact fun e he => h.size_bounds (by simp [hp, Option.mem_def.1 he])
  · exact fun e he => h.size_bounds (by simp [hp, Option.mem_def.1 he])
  · unfold Entry.top at mergedTop
    omega
  · simp only [hp, List.length_append]
    omega

/-- `[low, high)` went in between `before` and `after`, merged with `lower` and `upper`. -/
structure SplicedIn (p : Pool) (low high : Nat) (before : FreeList) (lower upper : Option Entry)
    (after : FreeList) (q : Pool) : Prop where
  place : FreeList.Splice p.config.minEntry low high before lower upper after
  front : p.entries.through low = before ++ lower.toList
  back : p.entries.beyond low = upper.toList ++ after
  entries : q.entries = before ++ FreeList.merged low high lower upper :: after

theorem SplicedIn.whole {q : Pool} (h : p.SplicedIn low high before lower upper after q) :
    p.entries = before ++ lower.toList ++ (upper.toList ++ after) :=
  whole_of_parts h.front h.back

/-- The entry in which an inserted range ends up. -/
def insertedEntry (p : Pool) (low high : Nat) (coalesce : Bool) : Entry :=
  FreeList.merged low high (if coalesce then touchingBelow (p.entries.through low) low else none)
    (if coalesce then touchingAbove (p.entries.beyond low) high else none)

/-- What an insertion leads to: the range is on the list. -/
structure PutIn (p : Pool) (low high : Nat) (coalesce : Bool) (q : Pool) : Prop
    extends p.Delivered [⟨low, high⟩] q where
  bytes : q.freeBytes = p.freeBytes + (high - low)
  largest : q.largest = max p.largest (p.insertedEntry low high coalesce).size
  stats : q.stats = p.stats
  large : q.large = { p.large with freeEntries := q.large.freeEntries }
  noted : p.cursor.Notes p.pendingLoss (p.insertedEntry low high coalesce).start
    (p.lossAt (p.insertedEntry low high coalesce)) q.cursor q.pendingLoss
  held : (p.insertedEntry low high coalesce).size ≤ q.freeBytes
  spliced : ∃ before lower upper after, p.SplicedIn low high before lower upper after q ∧
    p.insertedEntry low high coalesce = FreeList.merged low high lower upper ∧
    lower = (if coalesce then touchingBelow (p.entries.through low) low else none) ∧
    upper = (if coalesce then touchingAbove (p.entries.beyond low) high else none)

/-- The estimate grows by no more than there is. -/
theorem PutIn.estimate_le {coalesce : Bool} {q : Pool} (put : p.PutIn low high coalesce q) :
    q.pendingLoss ≤ p.pendingLoss + q.freeBytes :=
  Nat.le_trans put.noted.estimate_le.2
    (Nat.add_le_add_left (Nat.le_trans (p.lossAt_le _) put.held) _)

theorem PutIn.grows {coalesce : Bool} {q : Pool} (put : p.PutIn low high coalesce q) :
    p.Grows (high - low) q := by
  refine ⟨put.bytes.le, put.bytes ▸ put.estimate_le, put.stats, ?_⟩
  rw [put.large]
  exact ⟨rfl, rfl⟩

/-- A range that is reported goes nowhere. -/
theorem grows_abandon : p.Grows (high - low) (p.abandon low high) :=
  ⟨Nat.le_add_right _ _, Nat.le_add_right _ _, rfl, rfl, rfl⟩

/-- The entry in which an inserted range ends up has no more bytes than are free then. -/
theorem size_insertedEntry_le {coalesce : Bool} (h : p.Sound) (hi : p.Insertable low high) :
    (p.insertedEntry low high coalesce).size ≤ p.freeBytes + (high - low) := by
  obtain ⟨s, front, back⟩ := splice_of_insertable h hi (ite_eq_or_eq (coalesce = true) _ _)
    (ite_eq_or_eq (coalesce = true) _ _) rfl rfl
  have whole := congrArg FreeList.bytes (whole_of_parts front back)
  have size := s.size_eq
  simp only [FreeList.bytes_append] at whole
  rw [insertedEntry, h.bytes]
  omega

/-- The estimate has room for the entry in which the range `[low, high)` ends up, if that entry has to wait
for realignment. -/
def RoomToNote (p : Pool) (low high : Nat) (coalesce : Bool) : Prop :=
  p.cursor.Pulled (p.insertedEntry low high coalesce).start
    (p.lossAt (p.insertedEntry low high coalesce)) →
  p.pendingLoss + p.lossAt (p.insertedEntry low high coalesce) < wordLimit

instance {coalesce : Bool} : Decidable (p.RoomToNote low high coalesce) :=
  inferInstanceAs (Decidable (_ → _))

/-- There is room if no realignment is pending, or if all free bytes fit. -/
theorem roomToNote_of_fits {coalesce : Bool} (h : p.Sound) (hi : p.Insertable low high)
    (fits : p.cursor = .done ∨ p.pendingLoss + (p.freeBytes + (high - low)) < wordLimit) :
    p.RoomToNote low high coalesce := by
  rintro ⟨-, first, pending, -⟩
  rcases fits with done | fits
  · rw [done] at pending
    cases pending
  · have loss := p.lossAt_le (p.insertedEntry low high coalesce)
    have size : (p.insertedEntry low high coalesce).size ≤ _ := size_insertedEntry_le h hi
    omega

/-- A range that is worth an entry goes on the list. Only the estimate of a pending realignment can
overflow. -/
theorem expand_putsIn {coalesce : Bool} (hF : F .counterOverflow ∨ p.RoomToNote low high coalesce)
    (h : p.Sound) (hi : p.Insertable low high) (kept : p.keeps (high - low) = true) :
    Ends F (p.expand (high - low) low high coalesce) (p.PutIn low high coalesce) := by
  have width := hi.nonempty
  have promised : (decide (low ≤ high) && high - low == high - low) = true := by
    simpa using Nat.le_of_lt width
  unfold expand
  rw [if_neg (by omega), require_bind promised, kept]
  generalize hlower : (if coalesce then touchingBelow (p.entries.through low) low else none) = lower
  generalize hupper : (if coalesce then touchingAbove (p.entries.beyond low) high else none) = upper
  have entry : p.insertedEntry low high coalesce = FreeList.merged low high lower upper := by
    rw [insertedEntry, hlower, hupper]
  rw [RoomToNote, entry] at hF
  generalize hbefore : (if lower.isSome then (p.entries.through low).dropLast
    else p.entries.through low) = before
  generalize hafter : (if upper.isSome then (p.entries.beyond low).tail
    else p.entries.beyond low) = after
  obtain ⟨lowerApart, upperApart⟩ := apart_of_insertable h hi
  obtain ⟨s, front, back⟩ := splice_of_insertable h hi (hlower ▸ ite_eq_or_eq ..)
    (hupper ▸ ite_eq_or_eq ..) hbefore hafter
  have hp := whole_of_parts front back
  have large := s.large (.inr (.inr (by simpa [keeps] using kept)))
  obtain ⟨lowerBounds, upperBounds, ⟨pos, word, held⟩, ⟨bytes, listBytes⟩, ⟨count, listCount⟩, gone⟩ :=
    splice_bounds h s hp large
  have placed : ((p.entries.through low).endsBy low && (p.entries.beyond low).startsFrom high &&
      p.gap.all fun g => high ≤ g) = true := by
    rw [FreeList.endsBy_of lowerApart, FreeList.startsFrom_of upperApart, h.gap]
    rfl
  simp only [walkThrough_of_gap h.gap, hlower, hupper, hbefore, hafter, ok_bind, require_bind placed,
    Bool.not_true, Bool.false_eq_true, if_false, ite_self]
  refine uncountNeighbour_bind (l := lower.toList ++ (before ++ after)) ?_ upperBounds
    fun g₁ hg₁ => ?_
  · exact h.census.perm (hp ▸ (FreeList.perm_front ..).trans (List.perm_append_comm_assoc ..))
  refine uncountNeighbour_bind hg₁ lowerBounds fun g₂ hg₂ => ?_
  refine credit_bind bytes count (debit_bind (Nat.zero_le _) gone ?_)
  refine countFree_bind hg₂ pos listCount listBytes fun g₃ hg₃ => ?_
  dsimp only [raiseLargest, relinkCursor]
  rw [checkedTop_bind s.top_lt]
  refine noteUnaligned_bind (hF.imp_right fun room pulled => room (CardCursor.pulled_relink.1 pulled))
    fun pendingLoss cursor noted => ?_
  have delivered := delivered_inserted (max p.largest (FreeList.merged low high lower upper).size) h s hp
    large hg₃ (s.holds_updateBeyond (hp ▸ h.hints)) noted.of_relink
  apply delivered.sound.ends_settle
  rw [← entry] at held noted
  exact ⟨delivered, rfl, by rw [entry], rfl, rfl, noted.of_relink, held, before, lower, upper, after,
    ⟨s, front, back, rfl⟩, entry, hlower.symm, hupper.symm⟩

/-- A range that is not worth an entry is reported. -/
theorem expand_of_small {coalesce : Bool} (hi : p.Insertable low high) (small : p.keeps (high - low) = false) :
    p.expand (high - low) low high coalesce = .ok (p.abandon low high) := by
  have width := hi.nonempty
  have promised : (decide (low ≤ high) && high - low == high - low) = true := by
    simpa using Nat.le_of_lt width
  unfold expand
  rw [if_neg (by omega), require_bind promised, small]
  rfl

theorem expand_ends
    (hF : F .counterOverflow ∨ p.pendingLoss + (p.freeBytes + (high - low)) < wordLimit)
    (h : p.Sound) (hi : p.Insertable low high) (coalesce : Bool) :
    Ends F (p.expand (high - low) low high coalesce) fun q =>
      p.Delivered [⟨low, high⟩] q ∧ p.Grows (high - low) q := by
  cases kept : p.keeps (high - low) with
  | false =>
    rw [expand_of_small hi kept]
    exact ⟨delivered_abandon h, grows_abandon⟩
  | true =>
    have room : F .counterOverflow ∨ p.RoomToNote low high coalesce :=
      hF.imp_right fun fits => roomToNote_of_fits h hi (.inr fits)
    exact (expand_putsIn room h hi kept).mono fun q put => ⟨put.toDelivered, put.grows⟩

/-- A chunk that is worth an entry, or touches one, goes on the list. -/
theorem recycle_putsIn (hF : F .counterOverflow ∨ p.RoomToNote low high true) (h : p.Sound)
    (hi : p.Insertable low high)
    (worth : ¬ ((touchingBelow (p.entries.through low) low).isNone = true ∧
      (touchingAbove (p.entries.beyond low) high).isNone = true ∧ p.keeps (high - low) = false)) :
    Ends F (p.recycle low high) fun r => p.PutIn low high true r.1 ∧ r.2 = true := by
  have width := hi.nonempty
  unfold recycle
  generalize hlower : touchingBelow (p.entries.through low) low = lower at worth ⊢
  generalize hupper : touchingAbove (p.entries.beyond low) high = upper at worth ⊢
  have entry : p.insertedEntry low high true = FreeList.merged low high lower upper := by
    rw [insertedEntry, if_pos rfl, if_pos rfl, hlower, hupper]
  rw [RoomToNote, entry] at hF
  generalize hbefore : (if lower.isSome then (p.entries.through low).dropLast
    else p.entries.through low) = before
  generalize hafter : (if upper.isSome then (p.entries.beyond low).tail
    else p.entries.beyond low) = after
  obtain ⟨lowerApart, upperApart⟩ := apart_of_insertable h hi
  obtain ⟨s, front, back⟩ := splice_of_insertable h hi (.inl hlower.symm) (.inl hupper.symm) hbefore hafter
  have hp := whole_of_parts front back
  have promised : ((p.entries.through low).endsBy low && decide (low ≤ high)) = true := by
    simpa [FreeList.endsBy_of lowerApart] using Nat.le_of_lt width
  simp only [h.reachEnd_eq, walkThrough_of_gap h.gap, ite_self, ok_bind, require_bind promised, hlower,
    hupper, checkedTop_bind s.top_lt]
  rw [if_neg (by simpa using worth)]
  have large : p.config.minEntry ≤ (FreeList.merged low high lower upper).size := by
    apply s.large
    by_cases hl : lower = none
    · by_cases hu : upper = none
      · subst hl hu
        exact .inr (.inr (by simpa [keeps] using worth))
      · exact .inr (.inl (Option.isSome_iff_ne_none.2 hu))
    · exact .inl (Option.isSome_iff_ne_none.2 hl)
  obtain ⟨lowerBounds, upperBounds, ⟨pos, word, held⟩, ⟨bytes, listBytes⟩, ⟨count, listCount⟩, gone⟩ :=
    splice_bounds h s hp large
  have placed : ((p.entries.beyond low).startsFrom high && p.gap.all fun g => high ≤ g) = true := by
    rw [FreeList.startsFrom_of upperApart, h.gap]
    rfl
  simp only [require_bind placed, hbefore, hafter]
  refine uncountNeighbour_bind (h.census.perm (hp ▸ FreeList.perm_front ..)) lowerBounds fun g₁ hg₁ => ?_
  refine uncountNeighbour_bind hg₁ upperBounds fun g₂ hg₂ => ?_
  refine countFree_bind hg₂ pos listCount listBytes fun g₃ hg₃ => ?_
  refine credit_bind bytes count (debit_bind (Nat.zero_le _) gone ?_)
  dsimp only [raiseLargest, relinkCursor]
  refine noteUnaligned_bind (hF.imp_right fun room pulled => room (CardCursor.pulled_relink.1 pulled))
    fun pendingLoss cursor noted => ?_
  have hints : HintCache.Holds (if before.isEmpty || upper.isSome then p.hints.clear
      else p.hints.updateBeyond (FreeList.merged low high lower upper).start)
      (before ++ FreeList.merged low high lower upper :: after) := by
    split
    · exact HintCache.holds_clear
    · exact s.holds_updateBeyond (hp ▸ h.hints)
  have delivered := delivered_inserted (max p.largest (FreeList.merged low high lower upper).size) h s hp
    large hg₃ hints noted.of_relink
  apply delivered.sound.settle_bind
  rw [← entry] at held noted
  exact ⟨⟨delivered, rfl, by rw [entry], rfl, rfl, noted.of_relink, held, before, lower, upper, after,
    ⟨s, front, back, rfl⟩, entry, hlower.symm, hupper.symm⟩, rfl⟩

/-- A chunk that is not worth an entry and touches none is reported. -/
theorem recycle_of_small (h : p.Sound) (hi : p.Insertable low high)
    (lower : touchingBelow (p.entries.through low) low = none)
    (upper : touchingAbove (p.entries.beyond low) high = none) (small : p.keeps (high - low) = false) :
    p.recycle low high = .ok (p.abandon low high, false) := by
  have width := hi.nonempty
  obtain ⟨lowerApart, -⟩ := apart_of_insertable h hi
  have promised : ((p.entries.through low).endsBy low && decide (low ≤ high)) = true := by
    simpa [FreeList.endsBy_of lowerApart] using Nat.le_of_lt width
  have top : (Entry.between low high).top < wordLimit := by
    have := hi.inside
    simp only [Entry.between, Entry.top]
    omega
  unfold recycle
  simp only [h.reachEnd_eq, walkThrough_of_gap h.gap, ite_self, ok_bind, require_bind promised, lower, upper,
    FreeList.merged, Option.elim_none, checkedTop_bind top, small]
  rfl

theorem recycle_ends
    (hF : F .counterOverflow ∨ p.pendingLoss + (p.freeBytes + (high - low)) < wordLimit)
    (h : p.Sound) (hi : p.Insertable low high) :
    Ends F (p.recycle low high) fun r => p.Delivered [⟨low, high⟩] r.1 ∧ p.Grows (high - low) r.1 := by
  by_cases worth : (touchingBelow (p.entries.through low) low).isNone = true ∧
      (touchingAbove (p.entries.beyond low) high).isNone = true ∧ p.keeps (high - low) = false
  · obtain ⟨lower, upper, small⟩ := worth
    rw [recycle_of_small h hi (Option.isNone_iff_eq_none.1 lower) (Option.isNone_iff_eq_none.1 upper) small]
    exact ⟨delivered_abandon h, grows_abandon⟩
  · have room : F .counterOverflow ∨ p.RoomToNote low high true :=
      hF.imp_right fun fits => roomToNote_of_fits h hi (.inr fits)
    exact (recycle_putsIn room h hi worth).mono fun r put => ⟨put.1.toDelivered, put.1.grows⟩

end Pool

end FreeStore
