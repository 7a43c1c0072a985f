import FreeStore.Proofs.Links
import FreeStore.Proofs.Loops
import FreeStore.Proofs.Reachable
/-!
The cursor is put right.

A pending cursor holds where realignment goes on and, for the entry in front, what may be a guess. Both may be out
of date. Repair leaves it at the lowest entry from there on, together with the entry in front of that one
(`Synced`). A cursor that is `Synced` already passes the test for that, and no other does
(`isLinked_iff`), so repair leaves it alone. In memory the test reads one header, and the repair goes down the links
until it meets an entry from there on (`descend`); that ends, and comes to the same (`resync_eq`).
-/
namespace FreeStore

namespace CardCursor

/-- The cursor stands at the lowest entry of `l` from `first` on and knows the entry in front of it. -/
inductive Synced (l : FreeList) (first : Nat) : CardCursor → Prop
  | pending {before after : FreeList} {e : Entry} (split : l = before ++ e :: after)
      (low : ∀ d ∈ before, d.start < first) (high : ∀ d ∈ e :: after, first ≤ d.start)
      (lowest : ∀ d ∈ after, e.start < d.start) : Synced l first (.pending e.start before.lastStart)
  | done (low : ∀ d ∈ l, d.start < first) : Synced l first .done

end CardCursor

namespace Pool

variable {p : Pool} {e : Entry} {before after l k : FreeList} {first a : Nat} {prev : Option Nat}

/-! ## Going down the links -/

/-- Look at the header that a walk came to, and go on behind it if it starts below `a`. -/
def stepDown (p : Pool) (a : Nat) :
    Option Nat × Option Nat → Outcome (Turn (Option Nat × Option Nat) (Option Nat × Option Nat))
  | (none, previous) => return .stop (none, previous)
  | (some b, previous) =>
    if a ≤ b then return .stop (some b, previous)
    else return .again ((← p.header b).next, some b)

/-- Go down the links to the first header at or above `a`. Yields it with the one in front. -/
def descend (p : Pool) (a : Nat) : Running (Option Nat × Option Nat) :=
  loop (fun s => liftM (p.stepDown a s)) (p.first?, none)

/-- The headers of `p` spell the list `l`. -/
def Spells (p : Pool) (l : FreeList) : Prop := ∀ before e after, l = before ++ e :: after →
  p.header e.start = .ok (e.leading (FreeList.firstStart after))

theorem Whole.spells (h : p.Whole) : p.Spells p.entries := fun _ _ _ => h.header_of_entry

theorem descend_from (spells : p.Spells k) (hk : k = before ++ l) :
    loop (fun s => liftM (p.stepDown a s)) (FreeList.firstStart l, FreeList.lastStart before) =
      pure ((l.upFrom a).firstStart, FreeList.lastStart (before ++ l.below a)) := by
  induction l generalizing before with
  | nil =>
    rw [FreeList.below, List.takeWhile_nil, List.append_nil]
    exact loop_stop rfl
  | cons e l ih =>
    by_cases reached : a ≤ e.start
    · have here : ¬ e.start < a := Nat.not_lt.2 reached
      have low : FreeList.below a (e :: l) = [] := List.takeWhile_cons_of_neg (by simpa using here)
      have high : FreeList.upFrom a (e :: l) = e :: l := List.dropWhile_cons_of_neg (by simpa using here)
      rw [low, high, List.append_nil]
      exact loop_stop (congrArg liftM (if_pos reached))
    · have here : e.start < a := Nat.not_le.1 reached
      have low : FreeList.below a (e :: l) = e :: FreeList.below a l :=
        List.takeWhile_cons_of_pos (by simpa using here)
      have high : FreeList.upFrom a (e :: l) = FreeList.upFrom a l := List.dropWhile_cons_of_pos (by simpa using here)
      have turn : p.stepDown a (some e.start, FreeList.lastStart before) =
          .ok (.again (FreeList.firstStart l, some e.start)) := by
        rw [stepDown, if_neg reached, spells _ _ _ hk]
        rfl
      have rest := ih (hk.trans (List.append_cons ..))
      rw [FreeList.lastStart_concat, List.append_assoc] at rest
      rw [low, high]
      exact (loop_again (congrArg liftM turn)).trans rest

/-- The walk ends, at the first entry from `a` on. -/
theorem Spells.descend_eq (spells : p.Spells k) (first : p.first? = k.firstStart) (a : Nat) :
    p.descend a = pure ((k.upFrom a).firstStart, k.predecessor a) := by
  rw [descend, first]
  exact descend_from spells (List.nil_append _).symm

theorem descend_eq (h : p.Whole) (a : Nat) :
    p.descend a = pure ((p.entries.upFrom a).firstStart, p.entries.predecessor a) :=
  h.spells.descend_eq h.first?_eq a

/-! ## The test -/

/-- The test accepts the entry in front of `first`, and nothing else. -/
theorem isLinked_iff (h : p.Sound) : p.isLinked first prev = true ↔
    ∃ before e after, p.entries = before ++ e :: after ∧ e.start = first ∧ prev = FreeList.lastStart before := by
  constructor
  · intro linked
    cases prev with
    | none =>
      rw [isLinked, beq_iff_eq] at linked
      cases hp : p.entries with
      | nil =>
        rw [hp] at linked
        cases linked
      | cons e after =>
        rw [hp] at linked
        exact ⟨[], e, after, rfl, Option.some.inj linked, rfl⟩
    | some a =>
      rw [isLinked, Bool.and_eq_true, beq_iff_eq] at linked
      obtain ⟨starts, next⟩ := linked
      obtain ⟨d, hd, rfl⟩ := FreeList.startsAt_iff.1 starts
      obtain ⟨front, rest, hp⟩ := List.append_of_mem hd
      rw [FreeList.successor, (split_at_entry h hp).2] at next
      cases rest with
      | nil => cases next
      | cons e after =>
        exact ⟨front ++ [d], e, after, hp.trans (List.append_cons ..), Option.some.inj next,
          FreeList.lastStart_concat.symm⟩
  · rintro ⟨before, e, after, hp, rfl, rfl⟩
    rcases before.eq_nil_or_concat with rfl | ⟨front, d, rfl⟩
    · show (p.entries.firstStart == some e.start) = true
      rw [hp]
      exact beq_self_eq_true _
    · rw [List.concat_eq_append] at hp ⊢
      have hd : p.entries = front ++ d :: (e :: after) := hp.trans (List.append_cons ..).symm
      rw [FreeList.lastStart_concat, isLinked, FreeList.successor, (split_at_entry h hd).2,
        FreeList.startsAt_iff.2 ⟨d, by simp [hd], rfl⟩]
      exact beq_self_eq_true _

/-- In a whole pool the link in a header tells the same as the list. -/
theorem leadsTo_eq_isLinked (h : p.Sound) : p.leadsTo prev first = p.isLinked first prev := by
  cases prev with
  | none => rw [leadsTo, isLinked, h.whole.first?_eq]
  | some a =>
    rw [leadsTo, isLinked]
    by_cases found : ∃ e ∈ p.entries, e.start = a
    · obtain ⟨e, he, rfl⟩ := found
      obtain ⟨before, after, hp⟩ := List.append_of_mem he
      rw [FreeList.startsAt_iff.2 ⟨e, he, rfl⟩, FreeList.successor, (split_at_entry h hp).2,
        h.whole.header?_of_entry hp]
      rfl
    · have missing : p.entries.startsAt a = false := by
        rw [Bool.eq_false_iff]
        exact fun starts => found (FreeList.startsAt_iff.1 starts)
      rw [missing, h.whole.header?_eq_none fun e he same => found ⟨e, he, same⟩]
      rfl

/-! ## The repair -/

theorem synced_of_split (h : p.Sound) (hp : p.entries = before ++ e :: after)
    (low : ∀ d ∈ before, d.start < first) (reached : first ≤ e.start) :
    CardCursor.Synced p.entries first (.pending e.start (FreeList.lastStart before)) := by
  have order : (before ++ e :: after).Pairwise fun e f => e.start < f.start := hp ▸ h.whole.order
  have lowest := (List.pairwise_cons.1 (List.pairwise_append.1 order).2.1).1
  refine .pending hp low (fun d hd => ?_) lowest
  rcases List.mem_cons.1 hd with rfl | behind
  · exact reached
  · exact Nat.le_of_lt (Nat.lt_of_le_of_lt reached (lowest d behind))

/-- Whatever the cursor had, it is put right. -/
theorem repairCursor_synced (h : p.Sound) (pending : p.cursor = .pending first prev) :
    p.repairCursor.cursor.Synced p.entries first := by
  unfold repairCursor
  rw [pending]
  by_cases linked : p.isLinked first prev = true
  · obtain ⟨before, e, after, hp, rfl, rfl⟩ := (isLinked_iff h).1 linked
    have order : (before ++ e :: after).Pairwise fun e f => e.start < f.start := hp ▸ h.whole.order
    simp only [linked, if_true]
    exact synced_of_split h hp (fun d hd => (List.pairwise_append.1 order).2.2 d hd e List.mem_cons_self)
      (Nat.le_refl _)
  · have whole := FreeList.below_append_upFrom first p.entries
    simp only [linked, cursorAt]
    cases high : p.entries.upFrom first with
    | nil =>
      rw [high, List.append_nil] at whole
      exact .done fun d hd => FreeList.start_lt_of_mem_below (whole.symm ▸ hd)
    | cons e after =>
      rw [high] at whole
      exact synced_of_split h whole.symm (fun d hd => FreeList.start_lt_of_mem_below hd)
        (h.tracked.le_start_of_mem_upFrom h.minEntry_pos (high ▸ List.mem_cons_self))

/-- Put the cursor right by way of the headers, unless it leads to the first entry as it is. -/
def resync (p : Pool) : Running Pool :=
  match p.cursor with
  | .done => return p
  | .pending first prev =>
    if p.leadsTo prev first then return p
    else do
      let (current, previous) ← p.descend first
      return { p with cursor := current.elim .done fun a => .pending a previous }

theorem resync_eq (h : p.Sound) : p.resync = pure p.repairCursor := by
  unfold resync repairCursor
  cases hc : p.cursor with
  | done =>
    show pure p = pure { p with cursor := CardCursor.done }
    rw [← hc]
  | pending first prev =>
    dsimp only
    rw [leadsTo_eq_isLinked h, descend_eq h.whole, pure_bind, cursorAt, FreeList.predecessor]
    split
    · rw [← hc]
    · cases (p.entries.upFrom first).firstStart <;> rfl

/-- Repair leaves everything but the cursor as it is. It ends with the cursor at the lowest entry at or above
`first`, whether or not one starts at `first`, and with the entry in front of that one, whatever was taken for it;
where no entry lies at or above `first`, realignment is done. The test that spares it the walk accepts only the
entry in front of `first`. -/
theorem cursor_resynchronises (h : p.Reachable) (first : Nat) (prev : Option Nat) :
    let q := { p with cursor := .pending first prev }
    q.repairCursor = { p with cursor := q.repairCursor.cursor } ∧
      q.repairCursor.cursor.Synced p.entries first ∧ q.resync = pure q.repairCursor ∧
      q.leadsTo prev first = q.isLinked first prev ∧
      (q.isLinked first prev = true ↔ ∃ before e after,
        p.entries = before ++ e :: after ∧ e.start = first ∧ prev = FreeList.lastStart before) := by
  intro q
  have sound : q.Sound := h.sound.at_cursor _
  exact ⟨rfl, repairCursor_synced sound rfl, resync_eq sound, leadsTo_eq_isLinked sound, isLinked_iff sound⟩

/-- Of three entries none starts at 7000, and the one guessed in front is the first: the cursor goes up to the
third, with the second in front of it. No entry lies at or above 30000. -/
theorem cursor_resynchronises_of_three : ∃ p : Pool, p.Reachable ∧
    p.entries = [⟨1000, 2000⟩, ⟨5000, 600⟩, ⟨10000, 3000⟩] ∧
    { p with cursor := .pending 7000 (some 1000) }.resync =
      pure { p with cursor := .pending 10000 (some 5000) } ∧
    CardCursor.Synced p.entries 7000 (.pending 10000 (some 5000)) ∧
    { p with cursor := .pending 30000 (some 10000) }.resync = pure { p with cursor := .done } := by
  obtain ⟨s, done⟩ : ∃ s, s ∈ ((fresh {}).run
      [.expand 2000 1000 3000 false, .expand 600 5000 5600 false, .expand 3000 10000 13000 false,
        .requestCardAlignment]).toOption :=
    Option.isSome_iff_exists.1 (by decide +kernel)
  obtain ⟨entries, between, above⟩ : s.1.entries = [⟨1000, 2000⟩, ⟨5000, 600⟩, ⟨10000, 3000⟩] ∧
      { s.1 with cursor := .pending 7000 (some 1000) }.repairCursor.cursor = .pending 10000 (some 5000) ∧
      { s.1 with cursor := .pending 30000 (some 10000) }.repairCursor.cursor = .done := by
    revert s
    decide +kernel
  have made : create {} = .ok (fresh {}) := by decide +kernel
  have reachable := (Reachable.create made).run (by decide +kernel) (mem_toOption.1 done)
  obtain ⟨still, synced, ends, -⟩ := cursor_resynchronises reachable 7000 (some 1000)
  obtain ⟨still', -, ends', -⟩ := cursor_resynchronises reachable 30000 (some 10000)
  rw [between] at still synced
  rw [above] at still'
  exact ⟨s.1, reachable, entries, still ▸ ends, synced, still' ▸ ends'⟩

end Pool

end FreeStore
