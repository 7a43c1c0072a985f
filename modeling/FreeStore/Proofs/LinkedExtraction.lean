import FreeStore.Proofs.Extraction
import FreeStore.Proofs.LinkedInsertion
/-!
Extractions by way of the headers.

A walk stops at the first header that has to do with the range (`walkTo`). That header is dropped, and one is written
for each part of the entry that is kept (`leaveHeader`). Where a whole row of entries goes, what is kept of the first
is led to as soon as it is written (`appendHeader`), the others are dropped one after the other (`stepPull`), and at
last the entry in front of the gap is led to the one behind it. What the headers spell afterwards is the list that the
extraction leaves (`contractHeaders_eq`, `removeHeaders_eq`).
-/
namespace FreeStore.Pool

variable {p q : Pool} {e : Entry} {before after l k : FreeList} {low high minimum m : Nat} {head next : Option Nat}
  {hs : List Header} {stop : Header → Outcome Bool} {f : Entry → Bool}

/-! ## Going to a header -/

/-- Look at the header that a walk came to, and go on behind it unless `stop` holds. -/
def stepTo (p : Pool) (stop : Header → Outcome Bool) :
    Option Nat × Option Nat → Outcome (Turn (Option Nat × Option Nat) (Option Nat × Option Nat))
  | (none, previous) => return .stop (none, previous)
  | (some b, previous) => do
    let h ← p.header b
    return if ← stop h then .stop (some b, previous) else .again (h.next, some b)

/-- Go down the links to the first header for which `stop` holds. Yields it with the one in front. -/
def walkTo (p : Pool) (stop : Header → Outcome Bool) : Running (Option Nat × Option Nat) :=
  loop (fun s => liftM (p.stepTo stop s)) (p.first?, none)

theorem walk_from (spells : p.Spells k) (hk : k = before ++ l)
    (tells : ∀ e ∈ k, ∀ next, stop (e.leading next) = .ok (f e)) :
    loop (fun s => liftM (p.stepTo stop s)) (FreeList.firstStart l, FreeList.lastStart before) =
      pure (FreeList.firstStart (l.dropWhile fun e => !f e),
        FreeList.lastStart (before ++ l.takeWhile fun e => !f e)) := by
  induction l generalizing before with
  | nil =>
    rw [List.takeWhile_nil, List.dropWhile_nil, List.append_nil]
    exact loop_stop rfl
  | cons e l ih =>
    have turn : p.stepTo stop (some e.start, FreeList.lastStart before) =
        .ok (if f e then .stop (some e.start, FreeList.lastStart before)
          else .again (FreeList.firstStart l, some e.start)) := by
      rw [stepTo, spells _ _ _ hk, ok_bind, tells e (by simp [hk])]
      rfl
    cases reached : f e with
    | true =>
      rw [reached] at turn
      rw [List.takeWhile_cons_of_neg (by simp [reached]), List.dropWhile_cons_of_neg (by simp [reached]),
        List.append_nil]
      exact loop_stop (congrArg liftM turn)
    | false =>
      rw [reached] at turn
      have rest := ih (hk.trans (List.append_cons ..))
      rw [FreeList.lastStart_concat, List.append_assoc] at rest
      rw [List.takeWhile_cons_of_pos (by simp [reached]), List.dropWhile_cons_of_pos (by simp [reached])]
      exact (loop_again (congrArg liftM turn)).trans rest

/-- The walk ends, at the first entry for which `stop` holds. -/
theorem walkTo_eq (h : p.Whole) (tells : ∀ e ∈ p.entries, ∀ next, stop (e.leading next) = .ok (f e)) :
    p.walkTo stop = pure (FreeList.firstStart (p.entries.dropWhile fun e => !f e),
      FreeList.lastStart (p.entries.takeWhile fun e => !f e)) := by
  rw [walkTo, h.first?_eq]
  exact walk_from h.spells (List.nil_append _).symm tells

/-! ## Leftovers -/

/-- Write a header for `[low, high)`, if it is large enough for one. Yields where it is. -/
def leaveHeader (p : Pool) (low high : Nat) (next : Option Nat) : Outcome (Pool × Option Nat) :=
  if low < high && p.keeps (high - low) then do
    return (← p.putHeader ⟨low, high - low, next⟩, some low)
  else return (p, none)

/-- Write a header for `[low, high)`, if it is large enough for one, and lead `previous` to it. Yields the last header
that is led to. -/
def appendHeader (p : Pool) (low high : Nat) (previous : Option Nat) : Outcome (Pool × Option Nat) := do
  match ← p.leaveHeader low high none with
  | (p, none) => return (p, previous)
  | (p, some a) => return (← p.link previous (some a), some a)

theorem Laid.config (laid : Laid p q head hs) : q.config = p.config := by
  obtain ⟨-, _, -, rfl⟩ := laid
  rfl

theorem leaveHeader_of_leftover (config : q.config = p.config)
    (kept : leftover p.config.minEntry low high = some e) : q.leaveHeader low high next = (do
      return (← q.putHeader (e.leading next), some e.start)) := by
  unfold leftover at kept
  split at kept
  · rename_i worth
    obtain rfl := Option.some.inj kept
    exact if_pos (by simpa [keeps, config] using worth)
  · cases kept

theorem leaveHeader_of_none (config : q.config = p.config) (small : leftover p.config.minEntry low high = none) :
    q.leaveHeader low high next = .ok (q, none) := by
  unfold leftover at small
  split at small
  · cases small
  · rename_i few
    exact if_neg (by simpa [keeps, config] using few)

/-- What is left is written in front of the row behind. -/
theorem Parted.leave (low high : Nat) (parted : Parted p q before next after) (hm : 0 < m)
    (tracked : FreeList.Tracked m (before ++ ((leftover p.config.minEntry low high).toList ++ after))) :
    ∃ r, q.leaveHeader low high (FreeList.firstStart after) =
        .ok (r, (leftover p.config.minEntry low high).map Entry.start) ∧
      Parted p r before next ((leftover p.config.minEntry low high).toList ++ after) := by
  have config : q.config = p.config := Laid.config parted
  cases left : leftover p.config.minEntry low high with
  | none => exact ⟨q, leaveHeader_of_none config left, parted⟩
  | some f =>
    rw [left] at tracked
    obtain ⟨r, put, parted⟩ := parted.putBehind (tracked.pairwise_start_lt hm) (room_of_tracked tracked)
    refine ⟨r, ?_, parted⟩
    rw [leaveHeader_of_leftover config left, put]
    rfl

/-- What is left becomes the last entry of the front row. -/
theorem Parted.append (parted : Parted p q before next after) (hm : 0 < m)
    (tracked : FreeList.Tracked m (before ++ (leftover p.config.minEntry low high).toList ++ after)) :
    ∃ r next, q.appendHeader low high (FreeList.lastStart before) =
        .ok (r, FreeList.lastStart (before ++ (leftover p.config.minEntry low high).toList)) ∧
      Parted p r (before ++ (leftover p.config.minEntry low high).toList) next after := by
  have config : q.config = p.config := Laid.config parted
  unfold appendHeader
  cases left : leftover p.config.minEntry low high with
  | none =>
    refine ⟨q, next, ?_, ?_⟩
    · rw [leaveHeader_of_none config left, Option.toList_none, List.append_nil]
      rfl
    · rwa [Option.toList_none, List.append_nil]
  | some f =>
    rw [left, Option.toList_some, List.append_assoc, List.singleton_append] at tracked
    have order := tracked.pairwise_start_lt hm
    have up : ∀ e ∈ before, ∀ b ∈ some f.start, e.start < b := by
      rintro e he _ ⟨⟩
      exact (List.pairwise_append.1 order).2.2 e he f List.mem_cons_self
    obtain ⟨r, put, laid⟩ := Laid.putHeader (h := f.leading none) parted (fresh_of_order order) nofun
    obtain ⟨r', linked, laid⟩ := laid.link up
    refine ⟨r', none, ?_, ?_⟩
    · rw [leaveHeader_of_leftover config left, put, Option.toList_some, FreeList.lastStart_concat]
      show (do return (← r.link (FreeList.lastStart before) (some f.start), some f.start)) = _
      rw [linked]
      rfl
    · rw [Parted, Option.toList_some, FreeList.firstStart_concat_or, FreeList.headers_concat, List.append_assoc]
      exact laid

/-! ## One range out of one entry -/

/-- Does the entry of a header enclose `[low, high)`? -/
def stopAround (low high : Nat) (h : Header) : Outcome Bool := do
  if h.start ≤ low then return high ≤ (← h.entry.checkedTop) else return false

/-- Drop the header at `a`, write those for what is left of it outside `[low, high)`, and lead `previous` to them. -/
def cutHeader (p : Pool) (a low high : Nat) (previous : Option Nat) : Outcome Pool := do
  let h ← p.header a
  let (p, upper) ← (p.dropHeader a).leaveHeader high (← h.entry.checkedTop) h.next
  let (p, lower) ← p.leaveHeader a low (upper.or h.next)
  p.link previous (lower.or (upper.or h.next))

/-- What `contract` does to the headers. -/
def contractHeaders (p : Pool) (low high : Nat) : Running Pool := do
  match ← p.walkTo (stopAround low high) with
  | (none, _) => liftM (m := Outcome) (.error (.noEnclosingEntry low high))
  | (some a, previous) => p.cutHeader a low high previous

theorem firstStart_leftover (piece : Option Entry) (l : FreeList) :
    (piece.map Entry.start).or (FreeList.firstStart l) = FreeList.firstStart (piece.toList ++ l) := by
  cases piece <;> rfl

theorem cutHeader_eq (h : p.Sound) (hp : p.entries = before ++ e :: after) (hm : 0 < m)
    (tracked : FreeList.Tracked m (before ++ ((leftover p.config.minEntry e.start low).toList ++
      (leftover p.config.minEntry high e.top).toList) ++ after)) :
    p.cutHeader e.start low high (FreeList.lastStart before) = .ok { p with
      entries := before ++ ((leftover p.config.minEntry e.start low).toList ++
        (leftover p.config.minEntry high e.top).toList) ++ after } := by
  have top := h.tracked.inside e (by simp [hp])
  rw [List.append_assoc, List.append_assoc] at tracked ⊢
  have order := tracked.pairwise_start_lt hm
  obtain ⟨r, left, parted⟩ := (h.whole.parted hp).dropBehind.leave high e.top hm
    (tracked.sublist ((List.sublist_append_right ..).append_left _))
  obtain ⟨r', left', parted⟩ := parted.leave e.start low hm tracked
  unfold cutHeader
  rw [h.whole.header_of_entry hp, ok_bind, Entry.entry_leading, checkedTop_eq top, ok_bind, left, ok_bind]
  dsimp only
  rw [firstStart_leftover, left', ok_bind]
  dsimp only
  rw [firstStart_leftover]
  exact parted.join h.whole order

theorem stopAround_eq (top : e.top < wordLimit) (next : Option Nat) :
    stopAround low high (e.leading next) = .ok (encloses low high e) := by
  rw [stopAround, Entry.entry_leading, checkedTop_eq top, encloses]
  by_cases under : e.start ≤ low
  · rw [if_pos under, ok_bind, decide_eq_true under, Bool.true_and]
    rfl
  · rw [if_neg under, decide_eq_false under, Bool.false_and]
    rfl

theorem contractHeaders_eq {start : Option Nat} (h : p.Sound) (hi : p.Enclosed low high) (width : low < high)
    (done : p.contract (high - low) low high = .ok (q, start)) :
    p.contractHeaders low high = pure { p with entries := q.entries } := by
  have ends : Ends (fun _ => True) (p.contract (high - low) low high) fun r => p.Contracted low high r.1 :=
    contract_cuts h hi width (.inl trivial)
  have cut : p.Contracted low high q := ends.of_ok done
  obtain ⟨before, e, after, whole, start, top, entries, -⟩ := cut.cut
  have found : encloses low high e = true := by simp [encloses, start, top]
  have front : ∀ d ∈ before, (!encloses low high d) = true := by
    intro d hd
    have apart := (FreeList.tracked_append.1 (whole ▸ h.tracked :)).2.2 d hd e List.mem_cons_self
    have short : ¬ high ≤ d.top := by omega
    simp [encloses, short]
  unfold contractHeaders
  rw [walkTo_eq h.whole fun e he => stopAround_eq (h.tracked.inside e he), pure_bind, ← whole,
    List.takeWhile_append_of_pos front, List.dropWhile_append_of_pos front,
    List.takeWhile_cons_of_neg (by simp [found]), List.dropWhile_cons_of_neg (by simp [found]), List.append_nil]
  rw [entries]
  exact congrArg liftM (cutHeader_eq h whole.symm cut.sound.minEntry_pos (entries ▸ cut.sound.tracked))

/-! ## A range across entries -/

/-- Does the entry of a header reach beyond `low`? -/
def stopBeyond (low : Nat) (h : Header) : Outcome Bool := do
  if low ≤ h.start then return true else return low < (← h.entry.checkedTop)

/-- Drop the header that a walk came to and go on behind it, unless it ends above `high`. -/
def stepPull (high : Nat) : Pool × Option Nat → Outcome (Turn (Pool × Option Nat) (Pool × Option Nat))
  | (p, none) => return .stop (p, none)
  | (p, some a) => do
    let h ← p.header a
    return if (← h.entry.checkedTop) ≤ high then .again (p.dropHeader a, h.next) else .stop (p, some a)

/-- Drop the header at `a` and write one for what is left of it above `high`. Yields where the list goes on. -/
def topHeader (p : Pool) (high a : Nat) : Outcome (Pool × Option Nat) := do
  let h ← p.header a
  let (p, rest) ← (p.dropHeader a).leaveHeader high (← h.entry.checkedTop) h.next
  return (p, rest.or h.next)

/-- Drop the headers from `current` on that lie below `high`, and write one for what is left of the last of them.
Yields where the list goes on. -/
def pullHeaders (p : Pool) (high : Nat) (current : Option Nat) : Running (Pool × Option Nat) := do
  let (p, current) ← loop (fun s => liftM (stepPull high s)) (p, current)
  match current.filter (· < high) with
  | none => return (p, current)
  | some a => p.topHeader high a

/-- Drop the header at `a` and those behind it below `high`, and write headers for what is left of them outside
`[low, high)`. -/
def pullOff (p : Pool) (low high a : Nat) (previous : Option Nat) : Running Pool := do
  let h ← p.header a
  let top ← liftM h.entry.checkedTop
  let (p, previous) ← (p.dropHeader a).appendHeader a low previous
  let (p, previous) ← p.appendHeader high top previous
  let (p, tail) ← p.pullHeaders high h.next
  p.link previous tail

/-- What `removeWithin` does to the headers. -/
def removeHeaders (p : Pool) (low high : Nat) : Running Pool := do
  let (current, previous) ← p.walkTo (stopBeyond low)
  match current.filter (· < high) with
  | none => return p
  | some a => p.pullOff low high a previous

theorem stopBeyond_eq (top : e.top < wordLimit) (next : Option Nat) :
    stopBeyond low (e.leading next) = .ok (!(decide (e.start < low) && decide (e.top ≤ low))) := by
  rw [stopBeyond, Entry.entry_leading, checkedTop_eq top]
  by_cases above : low ≤ e.start
  · rw [if_pos above, decide_eq_false (Nat.not_lt.2 above)]
    rfl
  · rw [if_neg above, decide_eq_true (Nat.not_le.1 above), Bool.true_and, ok_bind, ← decide_not]
    exact congrArg Except.ok (decide_eq_decide.2 Nat.not_le.symm)

theorem pull_from (high : Nat) (parted : Parted p q before next l) (inside : ∀ e ∈ l, e.top < wordLimit) :
    ∃ r, loop (fun s => liftM (stepPull high s)) (q, FreeList.firstStart l) =
        pure (r, FreeList.firstStart (l.dropWhile fun e => e.top ≤ high)) ∧
      Parted p r before next (l.dropWhile fun e => e.top ≤ high) := by
  induction l generalizing q with
  | nil => exact ⟨q, loop_stop rfl, parted⟩
  | cons e l ih =>
    obtain ⟨top, rest⟩ := List.forall_mem_cons.1 inside
    have turn : stepPull high (q, some e.start) = .ok (if e.top ≤ high then
        .again (q.dropHeader e.start, FreeList.firstStart l) else .stop (q, some e.start)) := by
      rw [stepPull, parted.headerBehind, ok_bind, Entry.entry_leading, checkedTop_eq top]
      rfl
    by_cases below : e.top ≤ high
    · rw [if_pos below] at turn
      rw [List.dropWhile_cons_of_pos (by simpa using below)]
      obtain ⟨r, done, parted⟩ := ih parted.dropBehind rest
      exact ⟨r, (loop_again (congrArg liftM turn)).trans done, parted⟩
    · rw [if_neg below] at turn
      rw [List.dropWhile_cons_of_neg (by simpa using below)]
      exact ⟨q, loop_stop (congrArg liftM turn), parted⟩

theorem leftover_eq_none (empty : high ≤ low) : leftover m low high = none := if_neg fun worth => by omega

/-- Nothing stays of an entry inside the range. -/
theorem remnants_of_inside (size : 0 < e.size) (above : low ≤ e.start) (below : e.top ≤ high) :
    remnants m low high e = [] := by
  have width : e.start < e.top := Nat.lt_add_of_pos_right size
  rw [remnants, if_neg (by omega), leftover_eq_none above, leftover_eq_none below]
  rfl

/-- What stays of an entry that reaches out of the range above. -/
theorem remnants_of_across (above : low ≤ e.start) (start : e.start < high) (top : high < e.top) :
    remnants m low high e = (leftover m high e.top).toList := by
  rw [remnants, if_neg (by omega), leftover_eq_none above]
  rfl

theorem flatMap_dropWhile (size : ∀ e ∈ l, 0 < e.size) (above : ∀ e ∈ l, low ≤ e.start) :
    (l.dropWhile fun e => e.top ≤ high).flatMap (remnants m low high) = l.flatMap (remnants m low high) := by
  have gone : (l.takeWhile fun e => e.top ≤ high).flatMap (remnants m low high) = [] := by
    refine List.flatMap_eq_nil_iff.2 fun e he => ?_
    have hl := (List.takeWhile_sublist _).subset he
    exact remnants_of_inside (size e hl) (above e hl) (by simpa using List.mem_takeWhile_imp he)
  conv_rhs => rw [← List.takeWhile_append_dropWhile (p := fun e : Entry => decide (e.top ≤ high)) (l := l)]
  rw [List.flatMap_append, gone, List.nil_append]

theorem topHeader_eq (parted : Parted p q before next (e :: after)) (hm : 0 < m) (top : e.top < wordLimit)
    (tracked : FreeList.Tracked m (before ++ ((leftover p.config.minEntry high e.top).toList ++ after))) :
    ∃ r, q.topHeader high e.start =
        .ok (r, FreeList.firstStart ((leftover p.config.minEntry high e.top).toList ++ after)) ∧
      Parted p r before next ((leftover p.config.minEntry high e.top).toList ++ after) := by
  obtain ⟨r, left, parted'⟩ := parted.dropBehind.leave high e.top hm tracked
  refine ⟨r, ?_, parted'⟩
  unfold topHeader
  rw [parted.headerBehind, ok_bind, Entry.entry_leading, checkedTop_eq top, ok_bind, left, ok_bind,
    ← firstStart_leftover]
  rfl

/-- Of the row behind stays what lies above the range. -/
theorem pullHeaders_eq (parted : Parted p q before next l) (hm : 0 < m) (above : ∀ e ∈ l, low ≤ e.start)
    (list : FreeList.Tracked m l)
    (tracked : FreeList.Tracked m (before ++ l.flatMap (remnants p.config.minEntry low high))) :
    ∃ r, q.pullHeaders high (FreeList.firstStart l) =
        pure (r, FreeList.firstStart (l.flatMap (remnants p.config.minEntry low high))) ∧
      Parted p r before next (l.flatMap (remnants p.config.minEntry low high)) := by
  obtain ⟨r, pulled, parted⟩ := pull_from high parted fun e he => list.inside e he
  have rest := list.sublist (List.dropWhile_sublist fun e => decide (e.top ≤ high))
  have start : ∀ e ∈ l.dropWhile fun e => decide (e.top ≤ high), low ≤ e.start := fun e he =>
    above e ((List.dropWhile_sublist _).subset he)
  have reach : ∀ e behind, (l.dropWhile fun e => decide (e.top ≤ high)) = e :: behind → high < e.top := by
    intro e behind split
    simpa using FreeList.eq_false_of_dropWhile split
  rw [← flatMap_dropWhile (fun e he => (list.size_bounds hm he).1) above] at tracked ⊢
  unfold pullHeaders
  rw [pulled, pure_bind]
  generalize (l.dropWhile fun e => decide (e.top ≤ high)) = behind at *
  cases behind with
  | nil => exact ⟨r, rfl, parted⟩
  | cons e behind =>
    have top := reach e behind rfl
    have far : ∀ d ∈ behind, d.top ≤ low ∨ high ≤ d.start := fun d hd => by
      have := (FreeList.tracked_cons.1 rest).2.1 d hd
      omega
    rw [List.flatMap_cons, (flatMap_outside p.config.minEntry 0 far).1] at tracked ⊢
    by_cases below : e.start < high
    · rw [remnants_of_across (start e List.mem_cons_self) below top] at tracked ⊢
      obtain ⟨r', left, parted⟩ := topHeader_eq parted hm (rest.inside e List.mem_cons_self) tracked
      have found : (some e.start).filter (· < high) = some e.start := Option.filter_some_pos (by simpa using below)
      refine ⟨r', ?_, parted⟩
      rw [FreeList.firstStart, List.head?_cons, Option.map_some]
      dsimp only
      rw [found]
      exact congrArg liftM left
    · have whole : remnants p.config.minEntry low high e = [e] := if_pos (.inr (Nat.not_lt.1 below))
      have missed : (some e.start).filter (· < high) = none := Option.filter_some_neg (by simpa using below)
      rw [whole]
      refine ⟨r, ?_, parted⟩
      rw [FreeList.firstStart, List.head?_cons, Option.map_some]
      dsimp only
      rw [missed]
      rfl

theorem pullOff_eq (h : p.Sound) (hp : p.entries = before ++ e :: after) (hl : low ≤ high)
    (far : ∀ d ∈ before, d.top ≤ low) (above : low < e.top) (below : e.start < high)
    (tracked : FreeList.Tracked p.config.minEntry (p.entries.flatMap (remnants p.config.minEntry low high))) :
    p.pullOff low high e.start (FreeList.lastStart before) =
      pure { p with entries := p.entries.flatMap (remnants p.config.minEntry low high) } := by
  have top := h.tracked.inside e (by simp [hp])
  have whole := hp ▸ h.tracked
  obtain ⟨lowerTracked, lowerInside⟩ := leftover_inside (m := p.config.minEntry) e.start (Nat.lt_trans above top)
  obtain ⟨upperTracked, upperInside⟩ := leftover_inside (m := p.config.minEntry) high top
  obtain ⟨piecesTracked, within⟩ := tracked_leftovers hl (Nat.le_of_lt above) (Nat.le_of_lt below) lowerTracked
    upperTracked lowerInside upperInside
  have cut := whole.cut piecesTracked within
  have cutOff : remnants p.config.minEntry low high e = (leftover p.config.minEntry e.start low).toList ++
      (leftover p.config.minEntry high e.top).toList := if_neg (by omega)
  have front : before.flatMap (remnants p.config.minEntry low high) = before :=
    (flatMap_outside p.config.minEntry 0 fun d hd => .inl (far d hd)).1
  have behind := (FreeList.tracked_cons.1 (FreeList.tracked_append.1 whole).2.1).2
  have high' : ∀ d ∈ after, low ≤ d.start := fun d hd => Nat.le_trans (Nat.le_of_lt above) (behind.1 d hd)
  rw [hp, List.flatMap_append, List.flatMap_cons, front, cutOff, ← List.append_assoc, ← List.append_assoc]
    at tracked ⊢
  rw [← List.append_assoc] at cut
  obtain ⟨r, _, left, parted⟩ := (h.whole.parted hp).dropBehind.append h.minEntry_pos
    (cut.sublist (List.sublist_append_left .. |>.append_right _))
  obtain ⟨r', _, left', parted⟩ := parted.append h.minEntry_pos cut
  obtain ⟨r'', pulled, parted⟩ := pullHeaders_eq parted h.minEntry_pos high' behind.2 tracked
  unfold pullOff
  rw [h.whole.header_of_entry hp, Running.liftM_ok, pure_bind, Entry.entry_leading, checkedTop_eq top,
    Running.liftM_ok, pure_bind, left, Running.liftM_ok, pure_bind]
  dsimp only
  rw [left', Running.liftM_ok, pure_bind]
  dsimp only
  rw [pulled, pure_bind]
  exact congrArg liftM (parted.join h.whole (tracked.pairwise_start_lt h.minEntry_pos))

/-- The walk stops behind the entries that end at `low` or below. -/
theorem walkTo_beyond (h : p.Sound) (low : Nat) : ∃ before after, p.entries = before ++ after ∧
    (∀ d ∈ before, d.top ≤ low) ∧ (∀ e ∈ after.head?, low < e.top) ∧
    p.walkTo (stopBeyond low) = pure (FreeList.firstStart after, FreeList.lastStart before) := by
  have walk : p.walkTo (stopBeyond low) = _ := walkTo_eq h.whole fun e he => stopBeyond_eq (h.tracked.inside e he)
  simp only [Bool.not_not] at walk
  refine ⟨_, _, List.takeWhile_append_dropWhile.symm, fun d hd => ?_, fun e he => ?_, walk⟩
  · have short := List.mem_takeWhile_imp hd
    simp only [Bool.and_eq_true, decide_eq_true_eq] at short
    exact short.2
  · obtain ⟨rest, split⟩ := List.head?_eq_some_iff.1 he
    have reached := FreeList.eq_false_of_dropWhile split
    simp only [Bool.and_eq_false_iff, decide_eq_false_iff_not, not_lt, not_le] at reached
    have size := h.size_pos (List.dropWhile_subset _ (List.mem_of_head? he))
    exact reached.elim (fun above => Nat.lt_of_le_of_lt above (Nat.lt_add_of_pos_right size)) id

/-- The headers spell what stays of the entries one after the other. -/
theorem removeHeaders_eq_flatMap (h : p.Sound) (hl : low ≤ high)
    (tracked : FreeList.Tracked p.config.minEntry (p.entries.flatMap (remnants p.config.minEntry low high))) :
    p.removeHeaders low high = pure { p with entries := p.entries.flatMap (remnants p.config.minEntry low high) } := by
  obtain ⟨before, after, whole, far, beyond, walk⟩ := walkTo_beyond h low
  have outside (missed : ∀ e ∈ p.entries, e.top ≤ low ∨ high ≤ e.start) :
      p = { p with entries := p.entries.flatMap (remnants p.config.minEntry low high) } := by
    rw [(flatMap_outside _ 0 missed).1]
  unfold removeHeaders
  rw [walk, pure_bind]
  cases after with
  | nil =>
    rw [List.append_nil] at whole
    exact congrArg pure (outside fun e he => .inl (far e (whole ▸ he)))
  | cons e after =>
    rw [FreeList.firstStart, List.head?_cons, Option.map_some]
    dsimp only
    by_cases below : e.start < high
    · have found : (some e.start).filter (· < high) = some e.start := Option.filter_some_pos (by simpa using below)
      rw [found]
      exact pullOff_eq h whole hl far (beyond e rfl) below tracked
    · have missed : (some e.start).filter (· < high) = none := Option.filter_some_neg (by simpa using below)
      have above := (FreeList.tracked_append.1 (whole ▸ h.tracked)).2.1.pairwise_start_lt h.minEntry_pos
      rw [missed]
      refine congrArg pure (outside fun d hd => ?_)
      rw [whole] at hd
      rcases List.mem_append.1 hd with hd | hd
      · exact .inl (far d hd)
      · refine .inr (Nat.le_trans (Nat.not_lt.1 below) ?_)
        rcases List.mem_cons.1 hd with rfl | hd
        · exact Nat.le_refl _
        · exact Nat.le_of_lt ((List.pairwise_cons.1 above).1 d hd)

theorem PulledOff.entries_eq {answer : Option Removed} (pulled : p.PulledOff low high minimum q answer) :
    q.entries = p.entries.flatMap (remnants p.config.minEntry low high) := by
  cases answer with
  | none =>
    obtain ⟨rfl, outside⟩ := pulled.missed rfl
    exact (flatMap_outside _ minimum outside).1.symm
  | some removed => exact (pulled.met removed rfl).2.1

theorem removeHeaders_eq {answer : Option Removed} (h : p.Sound) (hl : low ≤ high)
    (done : p.removeWithin low high minimum = .ok (q, answer)) :
    p.removeHeaders low high = pure { p with entries := q.entries } := by
  have ends : Ends (fun _ => True) (p.removeWithin low high minimum) fun r =>
      p.PulledOff low high minimum r.1 r.2 := removeWithin_ends minimum h hl (.inl trivial)
  have pulled : p.PulledOff low high minimum q answer := ends.of_ok done
  have list := pulled.entries_eq
  rw [list]
  exact removeHeaders_eq_flatMap h hl (list ▸ pulled.effect.config ▸ pulled.sound.tracked)

end FreeStore.Pool
