import FreeStore.Proofs.FailedSearch
import FreeStore.Proofs.LinkedRealignment
/-!
Searches by way of the headers.

In memory a search starts at a hint or at the head of the list and follows the links. Where realignment drops the
header under it, it goes on from the cursor. If it does not know the entry in front of the one it finds, it looks for
it from the head. Since nothing in front of the walk waits for realignment any longer, the entry that the walk came
from is that one. The walk ends, as the search down the list does, and comes to the header of the same entry
(`seek_from`, `seek_from_hint`).
-/
namespace FreeStore.Pool

variable {p q : Pool} {e f : Entry} {before after l : FreeList} {t : Thread} {w : Walk} {size : Nat} {β : Type}

/-! ## Reaching an entry -/

/-- Reaching an entry leaves nothing waiting up to it. Where the entry is dropped, the cursor leads on. -/
theorem reach_leaves {found : Option Entry} (h : p.Sound) (hp : p.entries = before ++ e :: l)
    (done : p.reach e = .ok (q, found)) :
    q.Sound ∧ q.WaitsIn l ∧ ∃ before', q.entries = before' ++ found.toList ++ l ∧
      (p.WaitsIn (e :: l) → before' = before) ∧
      (found = none → (threadFrom q.cursor).current = FreeList.firstStart l ∧
        ((threadFrom q.cursor).previous = none ∨ (threadFrom q.cursor).previous = FreeList.lastStart before')) := by
  have ends : Ends (fun _ => True) (p.reach e) _ := reach_ends (.inl trivial) h hp
  obtain ⟨sound, -, -, -, before', -, entries⟩ := ends.of_ok done
  obtain ⟨waits, kept⟩ := (reach_settles h hp).of_ok done
  dsimp only at sound entries waits kept
  refine ⟨sound, waits, before', entries, fun idle => ?_, fun gone => ?_⟩
  · exact List.append_cancel_right (List.append_cancel_right (entries.symm.trans (kept idle)))
  · subst gone
    unfold reach at done
    split at done
    · rename_i due
      obtain ⟨first, cursor, low⟩ := (awaits_iff.1 due).2
      have aligned : Ends (fun _ => True) (p.alignThrough e.start) _ :=
        alignThrough_from (.inl trivial) h hp cursor low
      have aligned := aligned.of_ok done
      rw [Option.toList_none, List.append_nil] at entries
      have front : before' = p.alignedFrom first before ++ (p.realigned e).toList :=
        List.append_cancel_right (entries.symm.trans aligned.entries)
      rw [aligned.cursor, ← front]
      cases l with
      | nil => exact ⟨rfl, .inl rfl⟩
      | cons d rest => exact ⟨rfl, .inr rfl⟩
    · cases done

/-! ## The walk -/

/-- Look at the header that a search came to, and go on behind it, or from the cursor if realignment dropped it. -/
def seekTurn (size : Nat) : Pool × Walk × Thread →
    Running (Turn (Pool × Walk × Thread) (Pool × Walk × Option (Header × Option Nat)))
  | (p, w, t) =>
    match t.current with
    | none => return .stop (p, w, none)
    | some a => do
      match ← p.reachLinked a with
      | (p, none) => return .again (p, w.stepOver 0, threadFrom p.cursor)
      | (p, some a) => do
        let h ← p.header a
        let w := w.see h.size
        if size ≤ h.size then return .stop (p, w, some (h, t.previous))
        else do
          require (h.next.all fun b => a < b)
          return .again (p, w.stepOver h.size, { t with current := h.next, previous := some a })

theorem seekTurn_dropped (h : p.Sound) (he : e ∈ p.entries) (current : t.current = some e.start)
    (done : p.reach e = .ok (q, none)) :
    seekTurn size (p, w, t) = pure (.again (q, w.stepOver 0, threadFrom q.cursor)) := by
  rw [seekTurn, current]
  dsimp only
  rw [reachLinked_eq h he, done]
  exact pure_bind _ _

theorem seekTurn_reached (size : Nat) (h : p.Sound) (he : e ∈ p.entries) (current : t.current = some e.start)
    (done : p.reach e = .ok (q, some f)) (hq : q.Whole) (entries : q.entries = before ++ f :: after) :
    seekTurn size (p, w, t) = pure (
      if size ≤ f.size then
        .stop (q, w.see f.size, some (f.leading (FreeList.firstStart after), t.previous))
      else .again (q, (w.see f.size).stepOver f.size,
        { t with current := FreeList.firstStart after, previous := some f.start })) := by
  have order : ((before ++ [f]) ++ after).Pairwise fun e f => e.start < f.start := by
    rw [← List.append_cons, ← entries]
    exact hq.order
  have up : ((FreeList.firstStart after).all fun b => f.start < b) = true :=
    (Option.all_eq_true ..).2 fun b led => decide_eq_true (start_lt_next order f (by simp) b led)
  rw [seekTurn, current]
  dsimp only
  rw [reachLinked_eq h he, done]
  refine (pure_bind _ _).trans ?_
  show liftM (q.header f.start) >>= _ = _
  rw [hq.header_of_entry entries, Running.liftM_ok, pure_bind]
  dsimp only
  split
  · rfl
  · rw [up]
    exact pure_bind _ _

theorem seekTurn_fault {x : Fault} (h : p.Sound) (he : e ∈ p.entries) (current : t.current = some e.start)
    (fault : p.reach e = .error x) : seekTurn size (p, w, t) = liftM (.error x : Outcome _) := by
  rw [seekTurn, current]
  dsimp only
  rw [reachLinked_eq h he, fault]
  exact Running.error_bind

/-- The entry in front of the header at `a`, which a search looks for if it does not know it. -/
def previousOf (p : Pool) (a : Nat) : Option Nat → Running (Option Nat)
  | some previous => return some previous
  | none => if p.first? = some a then return none else return (← p.descend a).2

/-- A walk that does not know the entry in front finds it. -/
theorem previousOf_eq (h : p.Sound) (hp : p.entries = before ++ e :: after) {previous : Option Nat}
    (known : previous = none ∨ previous = FreeList.lastStart before) :
    p.previousOf e.start previous = pure (FreeList.lastStart before) := by
  cases previous with
  | some a => rw [previousOf, known.resolve_left (Option.some_ne_none a)]
  | none =>
    rw [previousOf]
    split
    · rename_i head
      rw [h.whole.first?_eq, hp, FreeList.firstStart_append] at head
      cases before with
      | nil => rfl
      | cons d front =>
        have apart := (List.pairwise_append.1 (hp ▸ h.whole.order)).2.2 d List.mem_cons_self e List.mem_cons_self
        exact absurd (Option.some.inj head) (Nat.ne_of_lt apart)
    · rw [descend_eq h.whole, pure_bind, FreeList.predecessor, (split_at_entry h hp).1]

/-- What is done with the header that a search found is what is done with the entry. The walk may not know what is in
front of it, but not take anything else for that. -/
def Follows (size : Nat) (k : Pool × Walk × Option (Header × Option Nat) → Running β)
    (k' : Pool × Walk × Option Entry → Running β) : Prop :=
  (∀ p w, k (p, w, none) = k' (p, w, none)) ∧
    ∀ {p : Pool} {w before e after previous}, p.Sound → p.entries = before ++ e :: after → size ≤ e.size →
      previous = none ∨ previous = FreeList.lastStart before →
      k (p, w, some (e.leading (FreeList.firstStart after), previous)) = k' (p, w, some e)

/-- A walk that stands at the first of the entries `l` comes to what the search down these entries finds. It knows
the entry in front of it, if nothing but them is waiting. -/
theorem seek_from {k : Pool × Walk × Option (Header × Option Nat) → Running β}
    {k' : Pool × Walk × Option Entry → Running β} (follows : Follows size k k') (h : p.Sound)
    (hp : p.entries = before ++ l) (current : t.current = FreeList.firstStart l)
    (previous : t.previous = none ∨ t.previous = FreeList.lastStart before ∧ p.WaitsIn l) :
    loop (seekTurn size) (p, w, t) >>= k = liftM (search size l p w) >>= k' := by
  induction l generalizing p w t before with
  | nil =>
    have turn : seekTurn size (p, w, t) = pure (.stop (p, w, none)) := by
      rw [seekTurn, current]
      rfl
    rw [loop_stop turn, pure_bind, follows.1]
    exact (pure_bind _ _).symm
  | cons e l ih =>
    have he : e ∈ p.entries := by simp [hp]
    rw [search]
    cases done : p.reach e with
    | error x =>
      rw [loop_eq, seekTurn_fault h he current done, Running.error_bind, Running.error_bind]
      exact Running.error_bind.symm
    | ok r =>
      obtain ⟨q, found⟩ := r
      obtain ⟨sound, waits, before', entries, idle, dropped⟩ := reach_leaves h hp done
      have previous' : t.previous = none ∨ t.previous = FreeList.lastStart before' := by
        obtain unknown | ⟨known, waiting⟩ := previous
        · exact .inl unknown
        · exact .inr (idle waiting ▸ known)
      cases found with
      | none =>
        obtain ⟨goes, from_cursor⟩ := dropped rfl
        rw [Option.toList_none, List.append_nil] at entries
        rw [loop_again (seekTurn_dropped h he current done)]
        exact ih sound entries goes (from_cursor.imp_right fun known => ⟨known, waits⟩)
      | some f =>
        rw [Option.toList_some, List.append_assoc, List.singleton_append] at entries
        have turn := seekTurn_reached size (w := w) h he current done sound.whole entries
        rw [ok_bind]
        dsimp only
        by_cases fits : size ≤ f.size
        · rw [if_pos fits] at turn
          rw [loop_stop turn, pure_bind, if_pos fits, follows.2 sound entries fits previous']
          exact (pure_bind _ _).symm
        · rw [if_neg fits] at turn
          rw [loop_again turn, if_neg fits]
          exact ih sound (entries.trans (List.append_cons ..)) rfl
            (.inr ⟨FreeList.lastStart_concat.symm, waits⟩)

/-- A search that starts at a hint, or else at the head of the list. -/
theorem seek_from_hint {k : Pool × Walk × Option (Header × Option Nat) → Running β}
    {k' : Pool × Walk × Option Entry → Running β} (follows : Follows size k k') (h : p.Sound) :
    let q := (p.findHint size).1
    let hint := (p.findHint size).2
    loop (seekTurn size) (q, { passed := hint.elim 0 Hint.size },
        ⟨hint.elim q.first? fun h => some h.entry, none, none, 0⟩) >>= k =
      liftM (search size (hint.elim q.entries fun h => q.entries.upFrom h.entry) q
        { passed := hint.elim 0 Hint.size }) >>= k' := by
  intro q hint
  obtain ⟨sound, -, entries, bounds⟩ := findHint_of_sound h size
  cases found : hint with
  | none =>
    have front : q.entries = [] ++ q.entries := rfl
    exact seek_from follows sound front sound.whole.first?_eq (.inl rfl)
  | some g =>
    obtain ⟨⟨e, he, start⟩, -⟩ := (bounds g found).2
    obtain ⟨before, after, hp⟩ := List.append_of_mem (entries ▸ he)
    have behind : FreeList.upFrom g.entry q.entries = e :: after := start ▸ upFrom_start sound hp
    have current : some g.entry = FreeList.firstStart (e :: after) := congrArg some start.symm
    show loop (seekTurn size) (q, _, ⟨some g.entry, none, none, 0⟩) >>= k =
      liftM (search size (FreeList.upFrom g.entry q.entries) q _) >>= k'
    rw [behind]
    exact seek_from follows sound hp current (.inl rfl)

end FreeStore.Pool
