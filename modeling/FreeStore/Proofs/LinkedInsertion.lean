import FreeStore.Proofs.CursorRepair
/-!
Insertions by way of the headers.

In memory a range goes in between two headers. A walk finds these; the headers of neighbours that it touches are
dropped or written anew, a header is written for what they and the range become together, and the one in front is led
to it (`weaveIn`, `weaveBack`). What the headers spell afterwards is the list that the insertion leaves
(`expandHeaders_eq`, `recycleHeaders_eq`).
-/
namespace FreeStore.Pool

variable {p q : Pool} {e f : Entry} {before after l k : FreeList} {low high a : Nat} {next : Option Nat}
  {lower upper : Option Entry} {coalesce : Bool}

/-! ## Neighbours -/

/-- The header at `a`, if it ends at `low`. -/
def headerEnding (p : Pool) (low : Nat) : Option Nat → Outcome (Option Header)
  | none => return none
  | some a => do
    let h ← p.header a
    return if (← h.entry.checkedTop) = low then some h else none

/-- The header at `a`, if it starts at `high`. -/
def headerStarting (p : Pool) (high : Nat) (a : Option Nat) : Outcome (Option Header) :=
  if a = some high then do return some (← p.header high) else return none

/-- Drop the header of a neighbour, if there is one. -/
def dropNeighbour (p : Pool) : Option Header → Pool
  | none => p
  | some h => p.dropHeader h.start

theorem headerEnding_eq (h : p.Sound) (hp : p.entries = before ++ after) :
    p.headerEnding low (FreeList.lastStart before) =
      .ok ((touchingBelow before low).map fun e => e.leading (FreeList.firstStart after)) := by
  rcases before.eq_nil_or_concat with rfl | ⟨front, d, rfl⟩
  · rfl
  · rw [List.concat_eq_append] at hp ⊢
    have place : p.entries = front ++ d :: after := hp.trans (List.append_cons ..).symm
    have top := h.tracked.inside d (by simp [place])
    rw [FreeList.lastStart_concat, headerEnding, h.whole.header_of_entry place, ok_bind, Entry.entry_leading,
      checkedTop_eq top, ok_bind, touchingBelow, List.getLast?_concat]
    by_cases touches : d.top = low
    · have found : (some d).filter (fun e => e.top == low) = some d := Option.filter_some_pos (by simpa using touches)
      rw [found, if_pos touches]
      rfl
    · have missed : (some d).filter (fun e => e.top == low) = none := Option.filter_some_neg (by simpa using touches)
      rw [missed, if_neg touches]
      rfl

theorem headerStarting_eq (h : p.Whole) (hp : p.entries = before ++ after) :
    p.headerStarting high (FreeList.firstStart after) =
      .ok ((touchingAbove after high).map fun e => e.leading (FreeList.firstStart after.tail)) := by
  cases after with
  | nil => rfl
  | cons e after =>
    have first : FreeList.firstStart (e :: after) = some e.start := rfl
    rw [headerStarting, touchingAbove, first, List.head?_cons]
    by_cases touches : e.start = high
    · have here : p.header high = .ok (e.leading (FreeList.firstStart after)) := touches ▸ h.header_of_entry hp
      have found : (some e).filter (fun e => e.start == high) = some e :=
        Option.filter_some_pos (by simpa using touches)
      rw [found, if_pos (congrArg some touches), here]
      rfl
    · have missed : (some e).filter (fun e => e.start == high) = none :=
        Option.filter_some_neg (by simpa using touches)
      rw [missed, if_neg (by simpa using touches)]
      rfl

theorem map_entry_leading (o : Option Entry) (next : Option Nat) :
    (o.map fun e => e.leading next).map Header.entry = o := by
  cases o <;> rfl

theorem Parted.dropUpper (led : Option Nat) (parted : Parted p q before next (upper.toList ++ after)) :
    Parted p (q.dropNeighbour (upper.map fun e => e.leading led)) before next after := by
  cases upper with
  | none => exact parted
  | some e => exact parted.dropBehind

theorem Parted.dropLower (led : Option Nat) (parted : Parted p q (before ++ lower.toList) next after) :
    ∃ next, Parted p (q.dropNeighbour (lower.map fun e => e.leading led)) before next after := by
  cases lower with
  | none => exact ⟨next, List.append_nil before ▸ parted⟩
  | some e => exact ⟨_, parted.dropFront⟩

/-- Behind what is inserted the list goes on where it went on behind the neighbour that is swallowed. -/
theorem SplicedIn.next_eq (s : p.SplicedIn low high before lower upper after q) :
    (upper.map fun e => e.leading (FreeList.firstStart (p.entries.beyond low).tail)).elim
      (p.entries.beyond low).firstStart Header.next = FreeList.firstStart after := by
  rw [s.back]
  cases upper <;> rfl

/-! ## A range that may be kept apart -/

/-- Write the header for `[low, high)` and the neighbours that it touches. A neighbour in front is written anew where
it stands; else `previous` is led to the header. -/
def weaveIn (p : Pool) (low high : Nat) (coalesce : Bool) (next previous : Option Nat) : Outcome Pool := do
  let lower ← (if coalesce then p.headerEnding low previous else pure none)
  let upper ← (if coalesce then p.headerStarting high next else pure none)
  let merged := FreeList.merged low high (lower.map Header.entry) (upper.map Header.entry)
  let p ← (p.dropNeighbour upper).putHeader (merged.leading (upper.elim next Header.next))
  if lower.isSome then return p else p.link previous (some low)

/-- What `expand` does to the headers. -/
def expandHeaders (p : Pool) (low high : Nat) (coalesce : Bool) : Running Pool := do
  if p.keeps (high - low) then
    let (next, previous) ← p.descend (low + 1)
    p.weaveIn low high coalesce next previous
  else return p

/-- The headers of the neighbours that are merged. -/
theorem mergedHeaders_eq (h : p.Sound)
    (lowerEq : lower = if coalesce then touchingBelow (p.entries.through low) low else none)
    (upperEq : upper = if coalesce then touchingAbove (p.entries.beyond low) high else none) :
    (if coalesce then p.headerEnding low (p.entries.through low).lastStart else pure none) =
      .ok (lower.map fun e => e.leading (p.entries.beyond low).firstStart) ∧
    (if coalesce then p.headerStarting high (p.entries.beyond low).firstStart else pure none) =
      .ok (upper.map fun e => e.leading (FreeList.firstStart (p.entries.beyond low).tail)) := by
  have whole := (FreeList.through_append_beyond low p.entries).symm
  subst lowerEq upperEq
  cases coalesce with
  | false => exact ⟨rfl, rfl⟩
  | true => exact ⟨headerEnding_eq h whole, headerStarting_eq h.whole whole⟩

theorem weaveIn_eq (s : p.SplicedIn low high before lower upper after q) (h : p.Sound) (hq : q.Sound)
    (lowerEq : lower = if coalesce then touchingBelow (p.entries.through low) low else none)
    (upperEq : upper = if coalesce then touchingAbove (p.entries.beyond low) high else none) :
    p.weaveIn low high coalesce (p.entries.beyond low).firstStart (p.entries.through low).lastStart =
      .ok { p with entries := q.entries } := by
  obtain ⟨lowerFound, upperFound⟩ := mergedHeaders_eq h lowerEq upperEq
  have tracked := s.entries ▸ hq.tracked
  have room := room_of_tracked tracked
  have order := tracked.pairwise_start_lt hq.minEntry_pos
  have parted := (h.whole.parted s.whole).dropUpper (FreeList.firstStart (p.entries.beyond low).tail)
  unfold weaveIn
  rw [lowerFound, upperFound, ok_bind, ok_bind, map_entry_leading, map_entry_leading, s.next_eq, s.entries, s.front]
  dsimp only
  cases lower with
  | none =>
    rw [Option.toList_none, List.append_nil] at parted ⊢
    obtain ⟨r, put, parted⟩ := parted.putBehind order room
    rw [put]
    exact parted.join h.whole order
  | some d =>
    obtain ⟨r, put, parted⟩ := parted.overwriteFront (f := FreeList.merged low high (some d) upper) rfl room
    rw [put]
    exact congrArg Except.ok (parted.closed h.whole)

/-- The walk for `[low, high)` stops between the entries up to `low` and those behind. -/
theorem descend_through (h : p.Whole) (low : Nat) :
    p.descend (low + 1) = pure ((p.entries.beyond low).firstStart, (p.entries.through low).lastStart) := by
  have same : (fun e : Entry => decide (e.start < low + 1)) = fun e => decide (e.start ≤ low) := by
    funext e
    exact decide_eq_decide.2 Nat.lt_succ_iff
  rw [descend_eq h]
  simp only [FreeList.upFrom, FreeList.predecessor, FreeList.below, FreeList.beyond, FreeList.through, same]

theorem expandHeaders_eq (h : p.Sound) (hi : p.Insertable low high)
    (done : p.expand (high - low) low high coalesce = .ok q) :
    p.expandHeaders low high coalesce = pure { p with entries := q.entries } := by
  unfold expandHeaders
  cases kept : p.keeps (high - low) with
  | false =>
    rw [expand_of_small hi kept] at done
    obtain rfl := Except.ok.inj done
    rfl
  | true =>
    have ends : Ends (fun _ => True) (p.expand (high - low) low high coalesce) (p.PutIn low high coalesce) :=
      expand_putsIn (.inl trivial) h hi kept
    have put := ends.of_ok done
    obtain ⟨before, lower, upper, after, s, -, lowerEq, upperEq⟩ := put.spliced
    rw [if_pos rfl, descend_through h.whole, pure_bind]
    exact congrArg liftM (weaveIn_eq s h put.sound lowerEq upperEq)

/-! ## A range that is always merged -/

/-- Look at the header that a walk came to, and go on behind it unless the next one lies above `a`. -/
def stepNear (p : Pool) (a : Nat) : Option Nat × Option Nat × Option Nat →
    Outcome (Turn (Option Nat × Option Nat × Option Nat) (Option Nat × Option Nat × Option Nat))
  | (none, previous, ahead) => return .stop (none, previous, ahead)
  | (some b, previous, _) => do
    let h ← p.header b
    return if h.next.all fun n => a < n then .stop (some b, previous, h.next) else .again (h.next, some b, h.next)

/-- Go down the links until the next header lies above `a`. Yields the header that the walk came to, the one in front
of it and the next one. -/
def approach (p : Pool) (a : Nat) : Running (Option Nat × Option Nat × Option Nat) :=
  loop (fun s => liftM (p.stepNear a s)) (p.first?, none, none)

/-- Write the header for `[low, high)` and the neighbours that it touches, whose own are dropped, and lead to it from
the entry in front. The last entry up to `low` is `under`, and `previous` is the one in front of that. -/
def weaveBack (p : Pool) (low high : Nat) (under previous next : Option Nat) : Outcome Pool := do
  let lower ← p.headerEnding low under
  let upper ← p.headerStarting high next
  if lower.isNone && upper.isNone && !p.keeps (high - low) then return p
  let merged := FreeList.merged low high (lower.map Header.entry) (upper.map Header.entry)
  let p ← ((p.dropNeighbour lower).dropNeighbour upper).putHeader (merged.leading (upper.elim next Header.next))
  p.link (if lower.isSome then previous else under) (some merged.start)

/-- What `recycle` does to the headers. -/
def recycleHeaders (p : Pool) (low high : Nat) : Running Pool := do
  let (current, previous, ahead) ← p.approach low
  match current.filter (· ≤ low) with
  | some a => p.weaveBack low high (some a) previous ahead
  | none => p.weaveBack low high previous none current

theorem approach_from (ahead : Option Nat) (spells : p.Spells k) (hk : k = before ++ e :: l) :
    loop (fun s => liftM (p.stepNear a s)) (some e.start, FreeList.lastStart before, ahead) =
      pure (FreeList.lastStart (e :: l.through a), FreeList.lastStart (before ++ (e :: l.through a).dropLast),
        (l.beyond a).firstStart) := by
  have here := spells _ _ _ hk
  induction l generalizing before e ahead with
  | nil =>
    rw [FreeList.through, FreeList.beyond, List.takeWhile_nil, List.dropWhile_nil, List.dropLast_singleton,
      List.append_nil]
    refine loop_stop (congrArg liftM ?_)
    rw [stepNear, here]
    rfl
  | cons f l ih =>
    have turn : p.stepNear a (some e.start, FreeList.lastStart before, ahead) =
        .ok (if a < f.start then .stop (some e.start, FreeList.lastStart before, some f.start)
          else .again (some f.start, some e.start, some f.start)) := by
      rw [stepNear, here]
      exact congrArg Except.ok (if_congr decide_eq_true_iff rfl rfl)
    by_cases reached : a < f.start
    · have low : FreeList.through a (f :: l) = [] := List.takeWhile_cons_of_neg (by simpa using reached)
      have high : FreeList.beyond a (f :: l) = f :: l := List.dropWhile_cons_of_neg (by simpa using reached)
      rw [if_pos reached] at turn
      rw [low, high, List.dropLast_singleton, List.append_nil]
      exact loop_stop (congrArg liftM turn)
    · have near := Nat.not_lt.1 reached
      have low : FreeList.through a (f :: l) = f :: FreeList.through a l :=
        List.takeWhile_cons_of_pos (by simpa using near)
      have high : FreeList.beyond a (f :: l) = FreeList.beyond a l := List.dropWhile_cons_of_pos (by simpa using near)
      rw [if_neg reached] at turn
      have there : k = (before ++ [e]) ++ f :: l := hk.trans (List.append_cons ..)
      have rest := ih (some f.start) there (spells _ _ _ there)
      rw [FreeList.lastStart_concat, List.append_assoc] at rest
      rw [low, high]
      exact (loop_again (congrArg liftM turn)).trans rest

theorem approach_nil (h : p.Whole) (hp : p.entries = []) : p.approach a = pure (none, none, none) := by
  rw [approach, h.first?_eq, hp]
  exact loop_stop (ρ := Option Nat × Option Nat × Option Nat) rfl

theorem approach_cons (h : p.Whole) (hp : p.entries = e :: l) : p.approach a =
    pure (FreeList.lastStart (e :: l.through a), FreeList.lastStart (e :: l.through a).dropLast,
      (l.beyond a).firstStart) := by
  have front : p.entries = [] ++ e :: l := hp
  rw [approach, h.first?_eq, hp]
  exact approach_from none h.spells front

theorem lastStart_filter_of_le (le : ∀ d ∈ l, d.start ≤ a) :
    (FreeList.lastStart l).filter (· ≤ a) = FreeList.lastStart l := by
  rcases l.eq_nil_or_concat with rfl | ⟨front, d, rfl⟩
  · rfl
  · rw [List.concat_eq_append, FreeList.lastStart_concat]
    exact Option.filter_some_pos (by simpa using le d (by simp))

/-- The walk for `[low, high)` finds the two entries in front and the one behind. -/
theorem recycleHeaders_eq_weaveBack (h : p.Whole) :
    p.recycleHeaders low high = liftM (p.weaveBack low high (p.entries.through low).lastStart
      (FreeList.lastStart (p.entries.through low).dropLast) (p.entries.beyond low).firstStart) := by
  unfold recycleHeaders
  have order := h.order
  cases hp : p.entries with
  | nil =>
    rw [approach_nil h hp, pure_bind]
    rfl
  | cons e l =>
    rw [hp] at order
    rw [approach_cons h hp, pure_bind]
    have near : ∀ d ∈ FreeList.through low l, d.start ≤ low := fun d hd => by
      simpa using List.mem_takeWhile_imp hd
    by_cases under : e.start ≤ low
    · have front : FreeList.through low (e :: l) = e :: FreeList.through low l :=
        List.takeWhile_cons_of_pos (by simpa using under)
      have back : FreeList.beyond low (e :: l) = FreeList.beyond low l :=
        List.dropWhile_cons_of_pos (by simpa using under)
      dsimp only
      rw [lastStart_filter_of_le (List.forall_mem_cons.2 ⟨under, near⟩), front, back, FreeList.lastStart,
        List.getLast?_cons]
      rfl
    · have front : FreeList.through low (e :: l) = [] := List.takeWhile_cons_of_neg (by simpa using under)
      have back : FreeList.beyond low (e :: l) = e :: l := List.dropWhile_cons_of_neg (by simpa using under)
      have rest : FreeList.through low l = [] := by
        refine List.eq_nil_iff_forall_not_mem.2 fun d hd => under (Nat.le_trans (Nat.le_of_lt ?_) (near d hd))
        exact (List.pairwise_cons.1 order).1 d ((List.takeWhile_sublist _).subset hd)
      have missed : (some e.start).filter (· ≤ low) = none := Option.filter_some_neg (by simpa using under)
      rw [front, back, rest]
      dsimp only [FreeList.lastStart, List.getLast?_singleton, Option.map_some]
      rw [missed]
      rfl

theorem weaveBack_eq (s : p.SplicedIn low high before lower upper after q) (h : p.Sound) (hq : q.Sound)
    (lowerEq : lower = touchingBelow (p.entries.through low) low)
    (upperEq : upper = touchingAbove (p.entries.beyond low) high)
    (worth : (lower.isNone && upper.isNone && !p.keeps (high - low)) = false) :
    p.weaveBack low high (p.entries.through low).lastStart (FreeList.lastStart (p.entries.through low).dropLast)
      (p.entries.beyond low).firstStart = .ok { p with entries := q.entries } := by
  have whole := (FreeList.through_append_beyond low p.entries).symm
  have tracked := s.entries ▸ hq.tracked
  have previous : (if lower.isSome then FreeList.lastStart (p.entries.through low).dropLast
      else (p.entries.through low).lastStart) = before.lastStart := by
    rw [s.front]
    cases lower with
    | none => rw [Option.toList_none, List.append_nil]; rfl
    | some d => rw [Option.toList_some, List.dropLast_concat]; rfl
  obtain ⟨next, parted⟩ := (h.whole.parted s.whole).dropLower (p.entries.beyond low).firstStart
  have parted := parted.dropUpper (FreeList.firstStart (p.entries.beyond low).tail)
  obtain ⟨r, put, parted⟩ := parted.putBehind (f := FreeList.merged low high lower upper)
    (tracked.pairwise_start_lt hq.minEntry_pos) (room_of_tracked tracked)
  unfold weaveBack
  rw [headerEnding_eq h whole, headerStarting_eq h.whole whole, ok_bind, ok_bind, ← lowerEq, ← upperEq,
    Option.isNone_map, Option.isNone_map, Option.isSome_map, if_neg (by simpa using worth), map_entry_leading,
    map_entry_leading, s.next_eq, s.entries, previous]
  dsimp only
  rw [put]
  exact parted.join h.whole (tracked.pairwise_start_lt hq.minEntry_pos)

theorem weaveBack_of_small (h : p.Sound) (lower : touchingBelow (p.entries.through low) low = none)
    (upper : touchingAbove (p.entries.beyond low) high = none) (small : p.keeps (high - low) = false)
    (previous : Option Nat) :
    p.weaveBack low high (p.entries.through low).lastStart previous (p.entries.beyond low).firstStart = .ok p := by
  have whole := (FreeList.through_append_beyond low p.entries).symm
  unfold weaveBack
  rw [headerEnding_eq h whole, headerStarting_eq h.whole whole, lower, upper, small]
  rfl

theorem recycleHeaders_eq {kept : Bool} (h : p.Sound) (hi : p.Insertable low high)
    (done : p.recycle low high = .ok (q, kept)) :
    p.recycleHeaders low high = pure { p with entries := q.entries } := by
  rw [recycleHeaders_eq_weaveBack h.whole]
  refine congrArg liftM ?_
  by_cases worth : (touchingBelow (p.entries.through low) low).isNone = true ∧
      (touchingAbove (p.entries.beyond low) high).isNone = true ∧ p.keeps (high - low) = false
  · obtain ⟨lower, upper, small⟩ := worth
    rw [Option.isNone_iff_eq_none] at lower upper
    rw [recycle_of_small h hi lower upper small] at done
    obtain ⟨rfl, -⟩ := Prod.mk.inj (Except.ok.inj done)
    exact weaveBack_of_small h lower upper small _
  · have ends : Ends (fun _ => True) (p.recycle low high) fun r => p.PutIn low high true r.1 ∧ r.2 = true :=
      recycle_putsIn (.inl trivial) h hi worth
    have put := (ends.of_ok done).1
    obtain ⟨before, lower, upper, after, s, -, lowerEq, upperEq⟩ := put.spliced
    rw [if_pos rfl] at lowerEq upperEq
    refine weaveBack_eq s h put.sound lowerEq upperEq ?_
    rw [← lowerEq, ← upperEq] at worth
    simpa [Bool.and_eq_false_iff, not_and] using worth

end FreeStore.Pool
