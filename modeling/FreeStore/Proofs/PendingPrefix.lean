import Mathlib.Algebra.Ring.Nat
import FreeStore.Proofs.Reachable
/-!
Realignment takes the pending prefix, and nothing else.

A walk that realigns starts at the cursor and ends behind the entry that a search has reached. Entries below
the cursor, and those behind the one reached, are as before. Each entry between is replaced by its card aligned
core (`realigned_eq_coreEntry?`), the ranges around the core are reported once (`Partitions`), and both byte
counts move by their total length (`lossOf_eq_length`). The predecessor that the cursor stored is no part of
the outcome: whatever was guessed, the new cursor has the true one (`alignThrough_realigns_pending`).
-/
namespace FreeStore

theorem length_filter_nonempty {rs : List Range} :
    ((rs.filter fun r => r.low < r.high).map Range.length).sum = (rs.map Range.length).sum := by
  induction rs with
  | nil => rfl
  | cons r rs ih =>
    by_cases wide : r.low < r.high
    · rw [List.filter_cons_of_pos (by simpa using wide), List.map_cons, List.map_cons, List.sum_cons,
        List.sum_cons, ih]
    · have empty : r.length = 0 := Nat.sub_eq_zero_of_le (Nat.le_of_not_lt wide)
      rw [List.filter_cons_of_neg (by simpa using wide), List.map_cons, List.sum_cons, ih, empty,
        Nat.zero_add]

namespace Pool

variable {p : Pool} {e : Entry} {l before after : FreeList} {first : Nat}

/-- The card aligned core of an entry. -/
def core (p : Pool) (e : Entry) : Range := Card.core e.start e.size p.config.cardSize

/-- The core of an entry, if it is large enough to stay. -/
def coreEntry? (p : Pool) (e : Entry) : Option Entry :=
  if p.config.minEntry ≤ (p.core e).length then some (.ofRange (p.core e)) else none

theorem realigned_eq_coreEntry? (hv : p.config.validate = .ok ()) (he : p.config.minEntry ≤ e.size) :
    p.realigned e = p.coreEntry? e := by
  have valid := PoolConfig.validate_eq_ok.1 hv
  unfold realigned Entry.realigned coreEntry? core
  generalize Card.core e.start e.size p.config.cardSize = core
  by_cases whole : core = e.range
  · subst whole
    have length : e.range.length = e.size := Nat.add_sub_cancel_left ..
    have same : Entry.ofRange e.range = e := by
      rw [Entry.ofRange, Entry.between]
      exact congrArg (Entry.mk e.start) length
    rw [if_pos rfl, length, if_pos he, same]
  · have pos : 0 < p.config.minEntry := Nat.lt_of_lt_of_le valid.1 valid.2.1
    rw [if_neg whole]
    simp only [Card.tooSmall_iff pos, ← Nat.not_le, ite_not]

/-- What realignment gives up of an entry is as long as what it keeps is short of the entry. -/
theorem length_givenUp (hv : p.config.validate = .ok ()) (he : p.config.minEntry ≤ e.size) :
    ((p.givenUp e).map Range.length).sum + FreeList.bytes (p.realigned e).toList = e.size := by
  have within := realigned_within hv he
  rw [givenUp, length_filter_nonempty]
  cases kept : p.realigned e with
  | none => simp [Range.length, Entry.range, Entry.top]
  | some f =>
    rw [kept] at within
    obtain ⟨low, high, -⟩ := within f (by simp)
    simp only [List.map_cons, List.map_nil, List.sum_cons, List.sum_nil, Option.toList_some,
      FreeList.bytes_cons, FreeList.bytes_nil, Range.length, Entry.top] at *
    omega

theorem lossOf_eq_length (hv : p.config.validate = .ok ()) (hl : ∀ e ∈ l, p.config.minEntry ≤ e.size) :
    p.lossOf l = ((l.flatMap p.givenUp).map Range.length).sum := by
  induction l with
  | nil => rfl
  | cons e l ih =>
    obtain ⟨he, hl⟩ := List.forall_mem_cons.1 hl
    have loss := lossAt_add_bytes hv he
    have length := length_givenUp hv he
    have rest := ih hl
    rw [List.flatMap_cons, List.map_append, List.sum_append]
    show p.lossAt e + p.lossOf l = _
    omega

/-- Does the entry stand from `first` on, up to `last`? -/
abbrev IsDue (first last : Nat) (e : Entry) : Prop := first ≤ e.start ∧ e.start ≤ last

/-- The ranges that realigning from `first` up to `last` gives up. -/
def slivers (p : Pool) (first last : Nat) : List Range := (p.entries.filter (IsDue first last ·)).flatMap p.givenUp

/-- What becomes of an entry when everything from `first` up to `last` is realigned. -/
def cutDue (p : Pool) (first last : Nat) (e : Entry) : FreeList :=
  if IsDue first last e then (p.coreEntry? e).toList else [e]

/-- Everything from `first` up to the entry `e` was realigned, and nothing else. -/
structure PrefixRealigned (p : Pool) (first : Nat) (e : Entry) (r : Pool × Option Entry) : Prop where
  entries : r.1.entries = p.entries.flatMap (p.cutDue first e.start)
  reports : r.1.events = PoolEvent.logDrops p.isRecorded p.events (p.slivers first e.start)
  /-- each byte that was free is free or reported now, and only one of these -/
  once : Partitions (r.1.entries.ranges ++ p.slivers first e.start) p.entries.ranges
  free : r.1.freeBytes + ((p.slivers first e.start).map Range.length).sum = p.freeBytes
  dark : r.1.stats.darkMatterBytes =
    p.stats.darkMatterBytes + ((p.slivers first e.start).map Range.length).sum
  found : r.2 = p.coreEntry? e
  cursor : r.1.cursor = (p.entries.successor e.start).elim .done fun next =>
    .pending next (r.1.entries.predecessor next)

/-- The due entries are those of the middle row. -/
theorem filter_isDue (h : p.Sound) (hp : p.entries = before ++ e :: after) (hs : first ≤ e.start) :
    p.entries.filter (IsDue first e.start ·) = before.upFrom first ++ [e] := by
  obtain ⟨low, due, behind⟩ := starts_of_split h.minEntry_pos (hp ▸ h.tracked) hs
  have none_low : (before.below first).filter (IsDue first e.start ·) = [] := by
    refine List.filter_eq_nil_iff.2 fun d hd => ?_
    have := low d hd
    simp only [decide_eq_true_eq]
    omega
  have none_behind : after.filter (IsDue first e.start ·) = [] := by
    refine List.filter_eq_nil_iff.2 fun d hd => ?_
    have := behind d hd
    simp only [decide_eq_true_eq]
    omega
  have all_due : (before.upFrom first ++ [e]).filter (IsDue first e.start ·) = before.upFrom first ++ [e] :=
    List.filter_eq_self.2 fun d hd => decide_eq_true (due d hd)
  rw [hp, split_at_first first, List.filter_append, List.filter_append, none_low, none_behind, all_due,
    List.nil_append, List.append_nil]

theorem large_of_due (h : p.Sound) (hp : p.entries = before ++ e :: after) (first : Nat) :
    ∀ d ∈ before.upFrom first ++ [e], p.config.minEntry ≤ d.size := by
  intro d hd
  refine h.tracked.large d ?_
  rw [hp, split_at_first first]
  exact List.mem_append_left _ (List.mem_append_right _ hd)

theorem flatMap_cutDue_of_not (hl : ∀ d ∈ l, ¬ IsDue first e.start d) :
    l.flatMap (p.cutDue first e.start) = l := by
  have same : l.flatMap (p.cutDue first e.start) = l.flatMap fun d => [d] := by
    rw [List.flatMap_def, List.flatMap_def]
    exact congrArg _ (List.map_congr_left fun d hd => if_neg (hl d hd))
  rw [same, List.flatMap_singleton']

theorem flatMap_cutDue_of_due (hv : p.config.validate = .ok ())
    (hl : ∀ d ∈ l, p.config.minEntry ≤ d.size) (due : ∀ d ∈ l, IsDue first e.start d) :
    l.flatMap (p.cutDue first e.start) = l.filterMap p.realigned := by
  induction l with
  | nil => rfl
  | cons d l ih =>
    obtain ⟨hd, hl⟩ := List.forall_mem_cons.1 hl
    obtain ⟨here, due⟩ := List.forall_mem_cons.1 due
    rw [List.flatMap_cons, ih hl due, filterMap_realigned_cons, cutDue, if_pos here,
      realigned_eq_coreEntry? hv hd]

/-- The list entry by entry is the list row by row. -/
theorem flatMap_cutDue (h : p.Sound) (hp : p.entries = before ++ e :: after) (hs : first ≤ e.start) :
    p.entries.flatMap (p.cutDue first e.start) =
      p.alignedFrom first before ++ (p.realigned e).toList ++ after := by
  obtain ⟨low, due, behind⟩ := starts_of_split h.minEntry_pos (hp ▸ h.tracked) hs
  have whole := hp.trans (split_at_first first)
  have settled : (before.below first).flatMap (p.cutDue first e.start) = before.below first :=
    flatMap_cutDue_of_not fun d hd => by
      have := low d hd
      omega
  have rest : after.flatMap (p.cutDue first e.start) = after :=
    flatMap_cutDue_of_not fun d hd => by
      have := behind d hd
      omega
  rw [whole, List.flatMap_append, List.flatMap_append, settled, rest,
    flatMap_cutDue_of_due h.config (large_of_due h hp first) due, List.filterMap_append, filterMap_realigned_cons,
    List.filterMap_nil, List.append_nil, ← List.append_assoc]
  rfl

theorem slivers_eq (h : p.Sound) (hp : p.entries = before ++ e :: after) (hs : first ≤ e.start) :
    p.slivers first e.start = (before.upFrom first ++ [e]).flatMap p.givenUp := by
  rw [slivers, filter_isDue h hp hs]

theorem lossOf_eq_slivers (h : p.Sound) (hp : p.entries = before ++ e :: after) (hs : first ≤ e.start) :
    p.lossOf (before.upFrom first ++ [e]) = ((p.slivers first e.start).map Range.length).sum := by
  rw [slivers_eq h hp hs]
  exact lossOf_eq_length h.config (large_of_due h hp first)

/-- The entry in front of the new cursor is the one that stands there on the new list. -/
theorem AlignedThrough.cursor_eq {r : Pool × Option Entry} (hr : p.AlignedThrough first before e after r)
    (h : p.Sound) (hp : p.entries = before ++ e :: after) :
    r.1.cursor = (p.entries.successor e.start).elim .done fun next =>
      .pending next (r.1.entries.predecessor next) := by
  have next : p.entries.successor e.start = after.firstStart :=
    congrArg FreeList.firstStart (split_at_entry h hp).2
  rw [hr.cursor, next]
  cases after with
  | nil => rfl
  | cons d rest =>
    have front := (split_at_entry hr.sound hr.entries).1
    exact congrArg (fun l => CardCursor.pending d.start (FreeList.lastStart l)) front.symm

/-- The three rows taken together again. -/
theorem AlignedThrough.prefixRealigned {r : Pool × Option Entry} (hr : p.AlignedThrough first before e after r)
    (h : p.Sound) (hp : p.entries = before ++ e :: after) (hs : first ≤ e.start) :
    p.PrefixRealigned first e r := by
  have due := large_of_due h hp first
  have kept : (before.upFrom first ++ [e]).filterMap p.realigned =
      (before.upFrom first).filterMap p.realigned ++ (p.realigned e).toList := by
    rw [List.filterMap_append, filterMap_realigned_cons, List.filterMap_nil, List.append_nil]
  have gone := slivers_eq h hp hs
  have whole := hp.trans (split_at_first first)
  refine ⟨hr.entries.trans (flatMap_cutDue h hp hs).symm, gone ▸ hr.events, ?_, ?_, ?_, ?_,
    hr.cursor_eq h hp⟩
  · refine partitions_of_cover (fun a => ?_) fun a => h.tracked.cover_le_one
    have given := cover_flatMap_givenUp h.config due a
    have now := congrArg (FreeList.cover · a) hr.entries
    have was := congrArg (FreeList.cover · a) whole
    rw [kept] at given
    rw [gone, FreeStore.cover_append]
    simp only [alignedFrom, FreeList.cover_append] at given now was
    show FreeList.cover r.1.entries a + _ = FreeList.cover p.entries a
    omega
  · have lost := lossOf_add_bytes h.config due
    have now := congrArg FreeList.bytes hr.entries
    have was := congrArg FreeList.bytes whole
    rw [← lossOf_eq_slivers h hp hs, hr.sound.bytes, h.bytes]
    rw [kept] at lost
    simp only [alignedFrom, FreeList.bytes_append] at lost now was
    omega
  · rw [hr.pays.dark, lossOf_eq_slivers h hp hs]
  · rw [hr.found, realigned_eq_coreEntry? h.config (h.tracked.large e (by simp [hp]))]

/-- Realignment up to `e` from a cursor at `first` takes the entries from `first` up to `e`, whatever the cursor
has for the entry in front of it. Only the count of the bytes given up can end it. -/
theorem alignThrough_realigns_pending (h : p.Reachable) (he : e ∈ p.entries) (hs : first ≤ e.start)
    (prev : Option Nat) :
    Ends (fun f => f = .counterOverflow ∧ wordLimit ≤
        p.stats.darkMatterBytes + ((p.slivers first e.start).map Range.length).sum)
      ({ p with cursor := .pending first prev }.alignThrough e.start) (p.PrefixRealigned first e) := by
  obtain ⟨before, after, hp⟩ := List.append_of_mem he
  let q : Pool := { p with cursor := .pending first prev }
  have sound : q.Sound := h.sound.at_cursor _
  have lost : q.lossOf (FreeList.upFrom first before ++ [e]) = ((q.slivers first e.start).map Range.length).sum :=
    lossOf_eq_slivers sound hp hs
  have stands : first ∈ q.cursor.first? := rfl
  refine (alignThrough_from ?_ sound hp stands hs).mono fun r hr => ?_
  · rw [lost]
    by_cases fits : q.stats.darkMatterBytes + ((q.slivers first e.start).map Range.length).sum < wordLimit
    · exact .inr fits
    · exact .inl ⟨rfl, Nat.le_of_not_lt fits⟩
  · obtain ⟨entries, reports, once, free, dark, found, cursor⟩ := hr.prefixRealigned sound hp hs
    exact ⟨entries, reports, once, free, dark, found, cursor⟩

/-- From a cursor at the second of four entries, with a wrong guess of the entry in front, up to the third: the
second has no aligned core and is gone, the third is cut down to its core. -/
theorem prefix_realigned_of_four : ∃ p : Pool,
    p.entries = [⟨1000, 2000⟩, ⟨5000, 600⟩, ⟨10000, 3000⟩, ⟨20000, 3000⟩] ∧
    ∃ r, { p with cursor := .pending 5000 (some 20000) }.alignThrough 10000 = .ok r ∧
      p.PrefixRealigned 5000 ⟨10000, 3000⟩ r ∧
      r.1.entries = [⟨1000, 2000⟩, ⟨10240, 2560⟩, ⟨20000, 3000⟩] ∧
      r.1.events = [.abandon 5000 5600, .abandon 10000 10240, .abandon 12800 13000] ∧
      r.1.stats.darkMatterBytes = 1040 ∧ r.1.cursor = .pending 20000 (some 10240) := by
  obtain ⟨s, done⟩ : ∃ s, s ∈ ((fresh {}).run
      [.setSubspace ⟨.old, none, true, []⟩, .expand 2000 1000 3000 false, .expand 600 5000 5600 false,
        .expand 3000 10000 13000 false, .expand 3000 20000 23000 false, .requestCardAlignment]).toOption :=
    Option.isSome_iff_exists.1 (by decide +kernel)
  obtain ⟨member, entries, r, aligned, outcome⟩ : ⟨10000, 3000⟩ ∈ s.1.entries ∧
      s.1.entries = [⟨1000, 2000⟩, ⟨5000, 600⟩, ⟨10000, 3000⟩, ⟨20000, 3000⟩] ∧
      ∃ r ∈ ({ s.1 with cursor := .pending 5000 (some 20000) }.alignThrough 10000).toOption,
        r.1.entries = [⟨1000, 2000⟩, ⟨10240, 2560⟩, ⟨20000, 3000⟩] ∧
        r.1.events = [.abandon 5000 5600, .abandon 10000 10240, .abandon 12800 13000] ∧
        r.1.stats.darkMatterBytes = 1040 ∧ r.1.cursor = .pending 20000 (some 10240) := by
    revert s
    decide +kernel
  have made : create {} = .ok (fresh {}) := by decide +kernel
  have reachable := (Reachable.create made).run (by decide +kernel) (mem_toOption.1 done)
  have result := mem_toOption.1 aligned
  exact ⟨s.1, entries, r, result,
    (alignThrough_realigns_pending reachable member (by decide) (some 20000)).of_ok result, outcome⟩

/-- Where the bytes that were ever given up no longer fit a word, realignment ends. -/
theorem alignThrough_overflows_dark_matter : ∃ p : Pool, p.Reachable ∧ p.cursor = .pending 1 none ∧
    p.entries = [⟨1, 2 ^ 64 - 2⟩] ∧ p.alignThrough 1 = .error .counterOverflow := by
  let config : PoolConfig := { minEntry := 2 ^ 63, cardSize := 2 ^ 63 }
  obtain ⟨s, done⟩ : ∃ s, s ∈ ((fresh config).run
      [.expand (2 ^ 64 - 2) 1 (2 ^ 64 - 1) false, .requestCardAlignment,
        .allocate .mutator { bytes := 1 }, .expand (2 ^ 64 - 2) 1 (2 ^ 64 - 1) false,
        .requestCardAlignment]).toOption :=
    Option.isSome_iff_exists.1 (by decide +kernel)
  have made : create config = .ok (fresh config) := by decide +kernel
  refine ⟨s.1, (Reachable.create made).run (by decide +kernel) (mem_toOption.1 done), ?_⟩
  revert s
  decide +kernel

end Pool

end FreeStore
