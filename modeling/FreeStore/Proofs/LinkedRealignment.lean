import FreeStore.Proofs.CursorRepair
/-!
Realignment by way of the headers.

In memory realignment goes from header to header, as far as the last one asked for. Each header it meets is taken
out, or written anew where the core starts, and the one in front is led past it or to it; in a whole pool that cuts
the entry where it stands in the list (`realignHeader_eq`). The walk ends, since the links lead up the list, and
leaves what realigning the entries in a row leaves (`alignLinked_eq`).
-/
namespace FreeStore.Pool

variable {p q : Pool} {e f : Entry} {before after due l : FreeList} {t : Thread} {last : Nat}

/-! ## One header -/

/-- The list takes no part in what realigning an entry does to the books. -/
theorem accountRealigned_with_entries (p : Pool) (e : Entry) (l : FreeList) :
    { p with entries := l }.accountRealigned e =
      (p.accountRealigned e).map fun q => { q with entries := l } := by
  have same : { p with entries := l }.realigned e = p.realigned e := rfl
  unfold accountRealigned
  rw [same]
  cases p.realigned e with
  | none =>
    dsimp only [uncountFree, abandon]
    cases p.large.decrementFree e.size with
    | error f => rfl
    | ok large =>
      dsimp only [debit, bind, Except.bind, pure, Except.pure]
      cases Word.sub p.freeBytes 0 with
      | error f => rfl
      | ok freeBytes => cases Word.sub p.entryCount 1 <;> rfl
  | some f =>
    dsimp only
    split
    · rfl
    · dsimp only [uncountFree, abandon, countFree]
      cases p.large.decrementFree e.size with
      | error f => rfl
      | ok large =>
        dsimp only [bind, Except.bind, pure, Except.pure]
        cases large.incrementFree f.size <;> rfl

theorem accountRealigned_of_aligned (aligned : p.realigned e = some e) : p.accountRealigned e = .ok p := by
  unfold accountRealigned
  rw [aligned]
  exact if_pos rfl

theorem Books.order_realigned (hb : p.Books (before ++ e :: after)) :
    (before ++ (p.realigned e).toList ++ after).Pairwise fun e f => e.start < f.start :=
  hb.realigned.pairwise_start_lt hb.minEntry_pos

/-- Realigning the header of an entry cuts the entry down, or drops it, where it stands in the list. -/
theorem realignHeader_eq (h : p.Whole) (hb : p.Books p.entries) (hp : p.entries = before ++ e :: after)
    (previous : t.previous = FreeList.lastStart before) :
    p.realignHeader (e.leading (FreeList.firstStart after)) t = (p.accountRealigned e).map fun q =>
      ({ q with entries := before ++ (p.realigned e).toList ++ after },
        ⟨FreeList.firstStart after, FreeList.lastStart (before ++ (p.realigned e).toList),
          (p.realigned e).map Entry.start, t.lost + (e.size - FreeList.bytes (p.realigned e).toList)⟩) := by
  have books := hp ▸ hb
  have order := books.order_realigned
  have within := books.within
  have top := hb.tracked.inside e (by simp [hp])
  unfold realignHeader
  rw [Entry.entry_leading, checkedTop_bind top]
  cases kept : p.realigned e with
  | none =>
    dsimp only
    rw [previous, h.unlink_entry hp, ok_bind, accountRealigned_with_entries, Option.toList_none, List.append_nil,
      FreeList.bytes_nil, Nat.sub_zero]
    cases p.accountRealigned e <;> rfl
  | some f =>
    rw [kept] at order within
    rw [Option.toList_some, List.append_assoc] at order
    rw [Option.toList_some, FreeList.lastStart_concat, List.append_assoc]
    dsimp only
    by_cases same : f = e
    · subst same
      rw [if_pos rfl, accountRealigned_of_aligned kept]
      have still : p = { p with entries := before ++ f :: after } := by
        rw [← hp]
      exact congrArg (fun q => Except.ok (q, _)) still
    · have room : ∀ next ∈ FreeList.firstStart after, f.top ≤ next := by
        intro next first
        obtain ⟨g, hg, rfl⟩ := Option.map_eq_some_iff.1 first
        have behind := (FreeList.tracked_cons.1 (FreeList.tracked_append.1 books.tracked).2.1).2.1
        have inner := within f (by simp)
        exact Nat.le_trans inner.2 (behind g (List.mem_of_head? hg))
      have replaced := h.replace_entry hp order room
      rw [if_neg same, previous, ← bind_assoc, replaced, ok_bind, accountRealigned_with_entries]
      cases p.accountRealigned e <;> rfl

/-! ## The walk -/

/-- Realign the header that a walk came to, unless it lies above `last`. -/
def realignTurn (last : Nat) : Pool × Thread → Outcome (Turn (Pool × Thread) (Pool × Thread))
  | (p, t) =>
    match t.current.filter fun a => a ≤ last with
    | none => return .stop (p, t)
    | some a => return .again (← p.realignHeader (← p.header a) t)

theorem realignTurn_eq (h : p.Whole) (hp : p.entries = before ++ e :: after) (current : t.current = some e.start)
    (reached : e.start ≤ last) : realignTurn last (p, t) =
      (p.realignHeader (e.leading (FreeList.firstStart after)) t).map .again := by
  have here : t.current.filter (fun a => a ≤ last) = some e.start := by
    rw [current]
    exact Option.filter_some_pos (decide_eq_true reached)
  rw [realignTurn, here]
  dsimp only
  rw [h.header_of_entry hp, ok_bind]
  cases p.realignHeader (e.leading (FreeList.firstStart after)) t <;> rfl

theorem foldlM_accountRealigned_with_entries (due l : FreeList) (p : Pool) :
    due.foldlM accountRealigned { p with entries := l } =
      (due.foldlM accountRealigned p).map fun q => { q with entries := l } := by
  induction due generalizing p with
  | nil => rfl
  | cons e due ih =>
    rw [List.foldlM_cons, List.foldlM_cons, accountRealigned_with_entries]
    cases p.accountRealigned e with
    | error f => rfl
    | ok q => exact ih q

/-- A walk that stands at the first of the entries `due` realigns them all and stops at the first one behind. -/
theorem realign_from (h : p.Whole) (hb : p.Books p.entries) (hp : p.entries = before ++ due ++ after)
    (reached : ∀ e ∈ due, e.start ≤ last) (behind : ∀ e ∈ after, last < e.start)
    (current : t.current = FreeList.firstStart (due ++ after)) (previous : t.previous = FreeList.lastStart before)
    (done : due.foldlM accountRealigned p = .ok q) :
    loop (fun s => liftM (realignTurn last s)) (p, t) =
      pure ({ q with entries := before ++ due.filterMap p.realigned ++ after },
        ⟨FreeList.firstStart after, FreeList.lastStart (before ++ due.filterMap p.realigned),
          due.getLast?.elim t.kept fun e => (p.realigned e).map Entry.start, t.lost + p.lossOf due⟩) := by
  induction due generalizing p q before t with
  | nil =>
    have beyond : t.current.filter (fun a => a ≤ last) = none := by
      rw [current, List.nil_append, Option.filter_eq_none_iff]
      intro a first
      obtain ⟨g, hg, rfl⟩ := Option.map_eq_some_iff.1 first
      simpa using behind g (List.mem_of_head? hg)
    have turn : realignTurn last (p, t) = .ok (.stop (p, t)) := by
      rw [realignTurn, beyond]
      rfl
    obtain rfl := Except.ok.inj done
    obtain ⟨_, _, kept, lost⟩ := t
    obtain rfl := current
    obtain rfl := previous
    rw [List.filterMap_nil, List.append_nil]
    rw [List.append_nil] at hp
    have still : p = { p with entries := before ++ after } := by
      rw [← hp]
    refine (loop_stop (congrArg liftM turn)).trans ?_
    exact congrArg (fun q => pure (q, Thread.mk (FreeList.firstStart after) _ kept lost)) still
  | cons e due ih =>
    rw [List.foldlM_cons] at done
    obtain ⟨q₁, first, rest⟩ := bind_eq_ok.1 done
    have hp' : p.entries = before ++ e :: (due ++ after) := by
      rw [hp, List.append_assoc]
      rfl
    have turn := realignTurn_eq h hp' current (reached e List.mem_cons_self)
    rw [realignHeader_eq h hb hp' previous, first] at turn
    obtain ⟨freeEntries, hints, entryCount, rfl, books⟩ :=
      (accountRealigned_ends (F := fun _ => True) (hp' ▸ hb)).of_ok first
    -- the pool and the walk after the first turn
    let q₁ : Pool := { p with
      entries := before ++ (p.realigned e).toList ++ (due ++ after), hints, entryCount
      large := { p.large with freeEntries }
      events := PoolEvent.logDrops p.isRecorded p.events ([e].flatMap p.givenUp) }
    have whole : q₁.Whole := ⟨h.gap, h.strays, (hp' ▸ hb).order_realigned⟩
    have books : q₁.Books q₁.entries := ⟨books.config, books.tracked, books.count, books.census, books.hints⟩
    have rest : due.foldlM accountRealigned q₁ = .ok { q with entries := q₁.entries } := by
      have same := foldlM_accountRealigned_with_entries due q₁.entries { q₁ with entries := p.entries }
      rw [rest] at same
      exact same
    let t₁ : Thread := ⟨FreeList.firstStart (due ++ after), FreeList.lastStart (before ++ (p.realigned e).toList),
      (p.realigned e).map Entry.start, t.lost + (e.size - FreeList.bytes (p.realigned e).toList)⟩
    have others := ih (t := t₁) whole books (List.append_assoc ..).symm
      (fun d hd => reached d (List.mem_cons_of_mem _ hd)) rfl rfl rest
    have kept : (e :: due).getLast?.elim t.kept (fun d => (p.realigned d).map Entry.start) =
        due.getLast?.elim t₁.kept fun d => (p.realigned d).map Entry.start := by
      rw [List.getLast?_cons]
      cases due.getLast? <;> rfl
    have lost : t.lost + p.lossOf (e :: due) = t₁.lost + p.lossOf due := by
      have given := lossAt_add_bytes hb.config (hb.tracked.large e (by simp [hp]))
      show t.lost + (p.lossAt e + p.lossOf due) = t.lost + (e.size - _) + p.lossOf due
      omega
    rw [filterMap_realigned_cons, ← List.append_assoc, kept, lost]
    exact (loop_again (congrArg liftM turn)).trans others

/-! ## Realigning up to an entry -/

/-- Realign from the cursor up to `last`, and move the cursor behind it. Yields what became of the last header
realigned. -/
def alignLinked (p : Pool) (last : Nat) : Running (Pool × Option Nat) := do
  let p ← p.resync
  match p.cursor with
  | .done => return (p, some last)
  | .pending _ _ => do
    let (p, t) ← loop (fun s => liftM (realignTurn last s)) (p, threadFrom p.cursor)
    let p ← p.chargeRealigned t.lost
    return ({ p with cursor := t.current.elim .done fun a => .pending a t.previous }, t.kept)

/-- What a walk over headers makes of the result of a walk down the list. -/
def startOf (r : Pool × Option Entry) : Pool × Option Nat := (r.1, r.2.map Entry.start)

theorem chargeRealigned_with_entries (p : Pool) (lost : Nat) (l : FreeList) :
    { p with entries := l }.chargeRealigned lost = (p.chargeRealigned lost).map fun q => { q with entries := l } := by
  dsimp only [chargeRealigned, debit, bind, Except.bind, pure, Except.pure]
  cases Word.sub p.freeBytes lost with
  | error f => rfl
  | ok freeBytes =>
    cases Word.sub p.entryCount 0 with
    | error f => rfl
    | ok entryCount =>
      dsimp only
      cases Word.advance p.stats.darkMatterBytes lost <;> rfl

theorem realigned_of_charge {lost : Nat} (charged : p.chargeRealigned lost = .ok q) : q.realigned = p.realigned := by
  obtain ⟨r, debited, charged⟩ := bind_eq_ok.1 charged
  obtain ⟨freeBytes, -, debited⟩ := bind_eq_ok.1 debited
  obtain ⟨entryCount, -, debited⟩ := bind_eq_ok.1 debited
  obtain rfl := Except.ok.inj debited
  obtain ⟨dark, -, charged⟩ := bind_eq_ok.1 charged
  obtain rfl := Except.ok.inj charged
  rfl

theorem upFrom_start (h : p.Sound) (hp : p.entries = before ++ e :: after) :
    p.entries.upFrom e.start = e :: after := by
  have whole := FreeList.below_append_upFrom e.start p.entries
  rw [(split_at_entry h hp).1] at whole
  exact List.append_cancel_left (whole.trans hp)

/-- A cursor that is right cuts the list where it stands. -/
theorem cut_at_cursor (h : p.Sound) {first start : Nat} {prev : Option Nat}
    (synced : CardCursor.Synced p.entries first (.pending start prev)) :
    FreeList.firstStart (p.entries.upFrom start) = some start ∧
      prev = FreeList.lastStart (p.entries.below start) := by
  cases synced with
  | pending hp =>
    rw [upFrom_start h hp, (split_at_entry h hp).1]
    exact ⟨rfl, rfl⟩

theorem entryAt_start (he : e ∈ l) : (FreeList.entryAt e.start l).map Entry.start = some e.start := by
  cases found : FreeList.entryAt e.start l with
  | none => exact absurd (beq_self_eq_true e.start) (List.find?_eq_none.1 found e he)
  | some f =>
    have here := List.find?_some found
    exact congrArg some (by simpa using here)

/-- The walk from a cursor that is right realigns the entries from there up to `last`. -/
theorem realign_due (h : p.Sound) {first start : Nat} {prev : Option Nat} (last : Nat)
    (synced : CardCursor.Synced p.entries first (.pending start prev)) :
    let due := (p.entries.upFrom start).through last
    let behind := (p.entries.upFrom start).beyond last
    let front := p.entries.below start ++ due.filterMap p.realigned
    ∃ q, due.foldlM accountRealigned p = .ok q ∧ q.realigned = p.realigned ∧
      loop (fun s => liftM (realignTurn last s)) (p, threadFrom (.pending start prev)) =
        pure ({ q with entries := front ++ behind },
          ⟨behind.firstStart, front.lastStart, due.getLast?.elim none fun e => (p.realigned e).map Entry.start,
            FreeList.bytes due - FreeList.bytes (due.filterMap p.realigned)⟩) := by
  intro due behind front
  obtain ⟨head, prior⟩ := cut_at_cursor h synced
  have upper : due ++ behind = p.entries.upFrom start := FreeList.through_append_beyond last _
  have whole : p.entries = p.entries.below start ++ due ++ behind := by
    rw [List.append_assoc, upper]
    exact (FreeList.below_append_upFrom start p.entries).symm
  have tracked : FreeList.Tracked p.config.minEntry (p.entries.upFrom start) :=
    h.tracked.sublist (List.dropWhile_sublist _)
  have large : ∀ e ∈ due, p.config.minEntry ≤ e.size := (tracked.sublist (List.takeWhile_sublist _)).large
  have current : (threadFrom (.pending start prev)).current = FreeList.firstStart (due ++ behind) := by
    rw [upper, head]
    rfl
  have lost : (threadFrom (.pending start prev)).lost + p.lossOf due =
      FreeList.bytes due - FreeList.bytes (due.filterMap p.realigned) :=
    (Nat.zero_add _).trans (Nat.eq_sub_of_add_eq (lossOf_add_bytes h.config large))
  obtain ⟨q, done, _, _, _, rfl, -⟩ := (foldlM_accountRealigned_ends (F := fun _ => False)
    (whole ▸ h.books)).exists_ok fun _ _ => id
  refine ⟨_, done, rfl, ?_⟩
  rw [← lost]
  exact realign_from h.whole h.books whole (fun d hd => FreeList.start_le_of_mem_through hd)
    (fun d hd => tracked.lt_start_of_mem_beyond h.minEntry_pos hd) current prior done

/-- The walk ends, and leaves what realigning the entries in a row leaves. -/
theorem alignLinked_eq (h : p.Sound) (he : e ∈ p.entries) :
    p.alignLinked e.start = liftM ((p.alignThrough e.start).map startOf) := by
  rw [alignLinked, resync_eq h, pure_bind, alignThrough]
  dsimp only
  cases hc : p.repairCursor.cursor with
  | done =>
    have found : startOf (p.repairCursor, p.repairCursor.entries.entryAt e.start) = (p.repairCursor, some e.start) :=
      congrArg (Prod.mk _) (entryAt_start he)
    dsimp only
    rw [← found]
    rfl
  | pending start prev =>
    obtain ⟨first, guess, pending⟩ : ∃ first guess, p.cursor = .pending first guess := by
      cases hp : p.cursor with
      | done =>
        unfold repairCursor at hc
        rw [hp] at hc
        cases hc
      | pending first guess => exact ⟨first, guess, rfl⟩
    have sound : p.repairCursor.Sound := h.at_cursor _
    have due : FreeList.Tracked p.config.minEntry ((p.entries.upFrom start).through e.start) :=
      (h.tracked.sublist (List.dropWhile_sublist _)).sublist (List.takeWhile_sublist _)
    have still : p.repairCursor.entries = p.entries := rfl
    obtain ⟨q, done, realigned, walked⟩ := realign_due sound e.start (hc ▸ repairCursor_synced h pending)
    rw [still] at done walked
    dsimp only
    rw [walked, pure_bind, still, FreeList.checkTops_eq_ok due, ok_bind, done, ok_bind]
    dsimp only
    rw [chargeRealigned_with_entries]
    cases charged : q.chargeRealigned _ with
    | error f => exact Running.error_bind
    | ok r =>
      have kept : (((p.entries.upFrom start).through e.start).getLast?.bind r.realigned).map Entry.start =
          ((p.entries.upFrom start).through e.start).getLast?.elim none fun e =>
            (p.repairCursor.realigned e).map Entry.start := by
        rw [realigned_of_charge charged, realigned]
        cases ((p.entries.upFrom start).through e.start).getLast? <;> rfl
      refine (pure_bind _ _).trans ?_
      exact congrArg (fun kept => (pure (_, kept) : Running (Pool × Option Nat))) kept.symm

/-- A header reached by a walk, realigned if it waits for that. -/
def reachLinked (p : Pool) (a : Nat) : Running (Pool × Option Nat) :=
  if p.awaits a then p.alignLinked a else return (p, some a)

theorem reachLinked_eq (h : p.Sound) (he : e ∈ p.entries) :
    p.reachLinked e.start = liftM ((p.reach e).map startOf) := by
  unfold reachLinked reach
  split
  · exact alignLinked_eq h he
  · rfl

end FreeStore.Pool
