import FreeStore.Pool.Realign
import FreeStore.Proofs.CardGeometry
import FreeStore.Proofs.Headroom
/-!
Realignment keeps a pool sound.

Realigning one entry cuts it down to its core, or drops it (`accountRealigned_ends`). Realigning all that
is due, from the cursor up to an entry, does this to one after the other (`foldlM_accountRealigned_ends`),
and `alignThrough_ends` says what is then left of the list: nothing changed behind the entry reached, and
in front of it entries only got smaller. A search sees no more than that of realignment (`reach_ends`).
-/
namespace FreeStore

/-- What realignment leaves of an entry lies in it and is large enough. -/
theorem Entry.realigned_within {e f : Entry} {card minimum : Nat} (hc : 0 < card)
    (hm : minimum ≤ e.size) (h : e.realigned card minimum = some f) :
    e.start ≤ f.start ∧ f.top ≤ e.top ∧ minimum ≤ f.size := by
  unfold realigned at h
  simp only at h
  split at h
  · cases h
    exact ⟨Nat.le_refl _, Nat.le_refl _, hm⟩
  · split at h
    · cases h
    · rename_i wide
      cases h
      obtain ⟨low, high⟩ := Card.core_le (e := e) hc
      generalize Card.core e.start e.size card = core at *
      simp only [Card.tooSmall, Bool.or_eq_true, decide_eq_true_eq] at wide
      rw [top_ofRange (by omega)]
      refine ⟨low, high, ?_⟩
      simp only [ofRange, between]
      omega

namespace FreeList

/-- Every entry of `k` lies in one of `l`. -/
def Shrinks (l k : FreeList) : Prop := ∀ f ∈ k, ∃ e ∈ l, e.start ≤ f.start ∧ f.top ≤ e.top

theorem Shrinks.refl (l : FreeList) : Shrinks l l := fun f hf => ⟨f, hf, Nat.le_refl _, Nat.le_refl _⟩

theorem Shrinks.eq_nil {k : FreeList} (h : Shrinks [] k) : k = [] := by
  refine List.eq_nil_iff_forall_not_mem.2 fun f hf => ?_
  obtain ⟨e, he, -⟩ := h f hf
  cases he

theorem Shrinks.size_le {l k : FreeList} {n : Nat} (h : Shrinks l k) (hl : ∀ e ∈ l, e.size ≤ n) :
    ∀ f ∈ k, f.size ≤ n := by
  intro f hf
  obtain ⟨e, he, hs⟩ := h f hf
  have := hl e he
  simp only [Entry.top] at hs
  omega

end FreeList

namespace Pool

variable {F : Fault → Prop} {p : Pool} {e f : Entry} {l before after : FreeList}

theorem realigned_within (hv : p.config.validate = .ok ()) (he : p.config.minEntry ≤ e.size) :
    ∀ f ∈ (p.realigned e).toList,
      e.start ≤ f.start ∧ f.top ≤ e.top ∧ p.config.minEntry ≤ f.size := by
  intro f hf
  exact Entry.realigned_within (PoolConfig.validate_eq_ok.1 hv).1 he (by simpa [realigned] using hf)

theorem tracked_realigned (hv : p.config.validate = .ok ()) (he : p.config.minEntry ≤ e.size)
    (ht : e.top < wordLimit) :
    FreeList.Tracked p.config.minEntry (p.realigned e).toList := by
  have within := realigned_within hv he
  cases h : p.realigned e with
  | none => exact FreeList.tracked_nil
  | some f =>
    rw [h] at within
    have := within f (by simp)
    exact FreeList.Tracked.singleton this.2.2 (by omega)

/-- The ranges of an entry that realignment gives up. -/
def givenUp (p : Pool) (e : Entry) : List Range :=
  let parts := match p.realigned e with
    | none => [e.range]
    | some f => [⟨e.start, f.start⟩, ⟨f.top, e.top⟩]
  parts.filter fun r => r.low < r.high

/-- An entry is what realignment keeps of it and the ranges that it gives up. -/
theorem cover_givenUp (hv : p.config.validate = .ok ()) (he : p.config.minEntry ≤ e.size) (a : Nat) :
    cover (p.givenUp e) a + FreeList.cover (p.realigned e).toList a = e.range.hits a := by
  have within := realigned_within hv he
  cases kept : p.realigned e with
  | none => simp [givenUp, kept, cover_filter_nonempty]
  | some f =>
    rw [kept] at within
    have inner := within f (by simp)
    have width : f.start ≤ f.top := Nat.le_add_right _ _
    have whole := Range.hits_split (a := a) inner.1 (Nat.le_trans width inner.2.1)
    have core := Range.hits_split (a := a) width inner.2.1
    simp only [givenUp, kept, cover_filter_nonempty, FreeStore.cover_cons, FreeStore.cover_nil,
      Option.toList_some, FreeList.cover_cons, FreeList.cover_nil, Entry.range]
    omega

theorem filterMap_realigned_cons :
    (e :: l).filterMap p.realigned = (p.realigned e).toList ++ l.filterMap p.realigned := by
  rw [List.filterMap_cons]
  cases p.realigned e <;> rfl

theorem cover_flatMap_givenUp (hv : p.config.validate = .ok ())
    (hl : ∀ e ∈ l, p.config.minEntry ≤ e.size) (a : Nat) :
    cover (l.flatMap p.givenUp) a + FreeList.cover (l.filterMap p.realigned) a = l.cover a := by
  induction l with
  | nil => rfl
  | cons e l ih =>
    obtain ⟨he, hl⟩ := List.forall_mem_cons.1 hl
    have first := cover_givenUp hv he a
    have rest := ih hl
    rw [List.flatMap_cons, FreeStore.cover_append, filterMap_realigned_cons, FreeList.cover_append,
      FreeList.cover_cons]
    omega

/-- The books of `p` describe the list `l`, but for the number of free bytes. -/
structure Books (p : Pool) (l : FreeList) : Prop where
  config : p.config.validate = .ok ()
  tracked : l.Tracked p.config.minEntry
  count : p.entryCount = l.length
  census : p.large.freeEntries.Counts l
  hints : p.hints.Holds l

/-- Histogram, hints, number of entries and reports as they are after realigning the entries `due`: the books
describe `l`, and what the entries gave up is reported. -/
def Realigned (p : Pool) (l due : FreeList) (q : Pool) : Prop :=
  ∃ freeEntries hints entryCount,
    q = { p with
      hints, entryCount
      large := { p.large with freeEntries }
      events := PoolEvent.logDrops p.isRecorded p.events (due.flatMap p.givenUp) } ∧
    q.Books l

theorem Books.minEntry_pos (h : p.Books l) : 0 < p.config.minEntry := by
  have := PoolConfig.validate_eq_ok.1 h.config
  omega

theorem Sound.books (h : p.Sound) : p.Books p.entries :=
  ⟨h.config, h.tracked, h.count, h.census, h.hints⟩

/-- The books do not depend on the cursor. -/
theorem Sound.at_cursor (h : p.Sound) (cursor : CardCursor) : Sound { p with cursor } :=
  ⟨h.config, h.grid, h.gap, h.strays, h.tracked, h.bytes, h.count, h.census, h.hints⟩

theorem Books.within (h : p.Books (before ++ e :: after)) :
    FreeList.Within e (p.realigned e).toList := fun f hf =>
  have inner := realigned_within h.config (h.tracked.large e (by simp)) f hf
  ⟨inner.1, inner.2.1⟩

theorem Books.realigned (h : p.Books (before ++ e :: after)) :
    FreeList.Tracked p.config.minEntry (before ++ (p.realigned e).toList ++ after) :=
  h.tracked.cut (tracked_realigned h.config (h.tracked.large e (by simp)) (h.tracked.inside e (by simp)))
    h.within

/-- An entry without a large enough core goes. -/
theorem accountRealigned_of_none (h : p.Books (before ++ e :: after)) (gone : p.realigned e = none) :
    Ends F (p.accountRealigned e) (p.Realigned (before ++ after) [e]) := by
  have within := h.within
  have tracked := h.realigned
  obtain ⟨pos, word⟩ := h.tracked.size_bounds h.minEntry_pos (e := e) (by simp)
  have count := h.count
  simp only [gone, Option.toList_none, List.append_nil] at within tracked
  simp only [List.length_append, List.length_cons] at count
  simp only [accountRealigned, gone]
  refine uncountFree_bind (h.census.perm List.perm_middle) pos word fun g hg => ?_
  have reported : PoolEvent.logDrop p.isRecorded p.events e.start e.top =
      PoolEvent.logDrops p.isRecorded p.events ([e].flatMap p.givenUp) := by
    rw [logDrop_eq_logDrops, List.flatMap_singleton, givenUp, gone]
    rfl
  dsimp only [abandon, isRecorded]
  rw [← bind_pure (debit _ _ _), reported]
  refine debit_bind (Nat.zero_le _) ?_ ⟨_, _, _, rfl, h.config, tracked, ?_, hg, ?_⟩
  · show 1 ≤ p.entryCount
    omega
  · show p.entryCount - 1 = (before ++ after).length
    rw [count, List.length_append]
    omega
  · simpa using h.hints.remove within

/-- An entry with a large enough core becomes that core. No size class overflows: what is on the list is inside
the address space. -/
theorem accountRealigned_of_some (h : p.Books (before ++ e :: after))
    (kept : p.realigned e = some f) (changed : ¬ f = e) :
    Ends F (p.accountRealigned e) (p.Realigned (before ++ [f] ++ after) [e]) := by
  have within := h.within
  have tracked := h.realigned
  have inner := realigned_within h.config (h.tracked.large e (by simp)) f (by simp [kept])
  have hm := h.minEntry_pos
  obtain ⟨pos, word⟩ := h.tracked.size_bounds hm (e := e) (by simp)
  simp only [kept, Option.toList_some] at within tracked
  have bytes := tracked.bytes_lt (a := 0) (by decide) (by simp)
  have count := tracked.length_le_bytes hm
  simp only [FreeList.bytes_append, FreeList.bytes_cons, FreeList.bytes_nil, List.length_append,
    List.length_cons, List.length_nil] at bytes count
  simp only [accountRealigned, kept, changed, if_false]
  refine uncountFree_bind (h.census.perm List.perm_middle) pos word fun g hg => ?_
  have reported : PoolEvent.logDrop p.isRecorded
        (PoolEvent.logDrop p.isRecorded p.events e.start f.start) f.top e.top =
      PoolEvent.logDrops p.isRecorded p.events ([e].flatMap p.givenUp) := by
    rw [logDrop_eq_logDrops, logDrop_eq_logDrops, ← logDrops_append, ← List.filter_append,
      List.flatMap_singleton, givenUp, kept]
    rfl
  dsimp only [abandon, isRecorded]
  rw [← bind_pure (countFree _ _), reported]
  refine countFree_bind hg (Nat.lt_of_lt_of_le hm inner.2.2) ?_ ?_ fun g hg => ?_
  · rw [List.length_append]
    omega
  · rw [FreeList.bytes_append]
    omega
  refine ⟨_, _, _, rfl, h.config, tracked, ?_, hg.perm (by simpa using List.perm_middle.symm),
    h.hints.update hm h.tracked within⟩
  simpa using h.count

/-- Realigning one entry cuts it. -/
theorem accountRealigned_ends (h : p.Books (before ++ e :: after)) :
    Ends F (p.accountRealigned e) (p.Realigned (before ++ (p.realigned e).toList ++ after) [e]) := by
  cases kept : p.realigned e with
  | none => simpa using accountRealigned_of_none h kept
  | some f =>
    by_cases same : f = e
    · subst same
      have nothing : [f].flatMap p.givenUp = [] := by simp [givenUp, kept]
      simp only [accountRealigned, kept, if_true]
      exact ⟨p.large.freeEntries, p.hints, p.entryCount, by rw [nothing, logDrops_nil], by simpa using h⟩
    · exact accountRealigned_of_some h kept same

/-- Realigning entries in a row cuts them all. -/
theorem foldlM_accountRealigned_ends {due : FreeList} (h : p.Books (before ++ due ++ after)) :
    Ends F (due.foldlM accountRealigned p)
      (p.Realigned (before ++ due.filterMap p.realigned ++ after) due) := by
  induction due generalizing p before with
  | nil => exact ⟨p.large.freeEntries, p.hints, p.entryCount, by simp, by simpa using h⟩
  | cons e due ih =>
    rw [List.foldlM_cons, filterMap_realigned_cons]
    have h' : p.Books (before ++ e :: (due ++ after)) := by simpa using h
    refine (accountRealigned_ends h').bind ?_
    rintro q ⟨_, _, _, hq, hb⟩
    have same : q.realigned = p.realigned ∧ q.givenUp = p.givenUp := by
      subst hq
      exact ⟨rfl, rfl⟩
    have hb : q.Books (before ++ (p.realigned e).toList ++ due ++ after) := by simpa using hb
    have rest := ih hb
    rw [same.1] at rest
    refine rest.mono ?_
    rintro r ⟨freeEntries, hints, entryCount, hr, hb'⟩
    rw [same.2] at hr
    subst hq
    refine ⟨freeEntries, hints, entryCount, ?_, by simpa using hb'⟩
    rw [List.flatMap_cons, logDrops_append, ← List.flatMap_singleton p.givenUp e]
    exact hr

/-! ## Reaching an entry -/

/-- The list after everything from `first` on, up to the end of `l`, was realigned. -/
def alignedFrom (p : Pool) (first : Nat) (l : FreeList) : FreeList :=
  l.below first ++ (l.upFrom first).filterMap p.realigned

/-- A list is cut at an address where it is cut at the first entry from there on. -/
theorem cut_at_head {m a : Nat} {d : Entry} (hm : 0 < m) (ht : l.Tracked m) (h : l.upFrom a = d :: after) :
    l.below d.start = l.below a ∧ l.upFrom d.start = l.upFrom a := by
  have whole := FreeList.below_append_upFrom a l
  have tracked : FreeList.Tracked m (d :: after) := h ▸ ht.sublist (List.dropWhile_sublist _)
  have start : a ≤ d.start := ht.le_start_of_mem_upFrom hm (h ▸ List.mem_cons_self)
  have low : ∀ f ∈ l.below a, f.start < d.start := fun f hf =>
    Nat.lt_of_lt_of_le (FreeList.start_lt_of_mem_below hf) start
  have high : ∀ f ∈ l.upFrom a, d.start ≤ f.start := by
    intro f hf
    rw [h] at hf
    rcases List.mem_cons.1 hf with rfl | hf
    · exact Nat.le_refl _
    · exact Nat.le_of_lt (tracked.start_lt hm hf)
  have lower := FreeList.below_append low high
  have upper := FreeList.upFrom_append low high
  rw [whole] at lower upper
  exact ⟨lower, upper⟩

/-- The cursor, once it is put right, cuts the list in front of an entry that lies behind it where the old
one did. -/
theorem repairCursor_pending {first : Nat} (h : p.Sound) (he : e ∈ p.entries)
    (hf : first ∈ p.cursor.first?) (hs : first ≤ e.start) :
    ∃ start prev, p.repairCursor.cursor = .pending start prev ∧
      p.entries.below start = p.entries.below first ∧ p.entries.upFrom start = p.entries.upFrom first := by
  obtain ⟨prev, hp⟩ : ∃ prev, p.cursor = .pending first prev := by
    cases hc : p.cursor <;> simp_all [CardCursor.first?]
  unfold repairCursor
  simp only [hp]
  split
  · exact ⟨first, prev, rfl, rfl, rfl⟩
  · have hu : e ∈ p.entries.upFrom first := by
      have := FreeList.below_append_upFrom first p.entries ▸ he
      rcases List.mem_append.1 this with low | up
      · have := FreeList.start_lt_of_mem_below low
        omega
      · exact up
    unfold cursorAt
    cases hl : p.entries.upFrom first with
    | nil => simp [hl] at hu
    | cons d l => exact ⟨d.start, _, rfl, hl ▸ cut_at_head h.minEntry_pos h.tracked hl⟩

/-- The bytes given up are taken off the totals, unless their count overflows. -/
theorem chargeRealigned_bind {α : Type} {k : Pool → Outcome α} {R : α → Prop} {lost : Nat}
    (hF : F .counterOverflow ∨ p.stats.darkMatterBytes + lost < wordLimit) (hl : lost ≤ p.freeBytes)
    (w : Ends F (k { p with
      freeBytes := p.freeBytes - lost
      pendingLoss := p.pendingLoss - lost
      stats := { p.stats with darkMatterBytes := p.stats.darkMatterBytes + lost } }) R) :
    Ends F (p.chargeRealigned lost >>= k) R := by
  simp only [chargeRealigned, bind_assoc]
  exact debit_bind hl (Nat.zero_le _) (Word.advance_bind hF w)

theorem lossAt_le (p : Pool) (e : Entry) : p.lossAt e ≤ e.size := by
  unfold lossAt Card.loss Card.lossOf
  split <;> omega

/-- Realignment takes no more than there is of some entries in a row. -/
theorem lossOf_le_bytes {k : FreeList} (part : List.Sublist k l) : p.lossOf k ≤ l.bytes := by
  induction part with
  | slnil => exact Nat.le_refl _
  | cons e _ ih => exact Nat.le_trans ih (Nat.le_add_left ..)
  | cons_cons e _ ih => exact Nat.add_le_add (p.lossAt_le e) ih

/-- Of an entry on the list of a sound pool the loss can be computed within the words. -/
theorem Sound.checkedLoss_eq_lossAt (h : p.Sound) (he : e ∈ p.entries) :
    Card.checkedLoss e.start e.size p.config.cardSize p.config.minEntry = .ok (p.lossAt e) := by
  obtain ⟨hc, hm, -, -⟩ := PoolConfig.validate_eq_ok.1 h.config
  exact Card.checkedLoss_of_le hc (Nat.le_trans hm (h.tracked.large e he)) (h.tracked.inside e he)

end Pool

namespace CardCursor

/-- The cursor stands where it stood, or further down. -/
def Lowered (c c' : CardCursor) : Prop :=
  c'.first? = c.first? ∨ ∃ first ∈ c'.first?, ∃ old ∈ c.first?, first < old

@[simp] theorem first?_relink (c : CardCursor) (next prev : Option Nat) :
    (c.relink next prev).first? = c.first? := by
  cases c <;> rfl

theorem Lowered.eq_done {c c' : CardCursor} (h : c.Lowered c') (done : c = .done) : c' = .done := by
  subst done
  rcases h with same | ⟨_, _, old, absurd, _⟩
  · cases c' with
    | done => rfl
    | pending first prev => cases same
  · cases absurd

/-- An insertion at `entry`, of which realignment would take `loss` bytes, pulls the cursor down. -/
def Pulled (c : CardCursor) (entry loss : Nat) : Prop := 0 < loss ∧ ∃ first ∈ c.first?, entry < first

instance {c : CardCursor} {entry loss : Nat} : Decidable (c.Pulled entry loss) :=
  inferInstanceAs (Decidable (_ ∧ ∃ first ∈ c.first?, _))

/-- An insertion is noted: the estimate is `estimate'` now and the cursor is `c'`. -/
structure Notes (c : CardCursor) (estimate entry loss : Nat) (c' : CardCursor) (estimate' : Nat) :
    Prop where
  pulled : c.Pulled entry loss →
    c'.first? = some entry ∧ estimate' = estimate + loss ∧ estimate' < wordLimit
  still : ¬ c.Pulled entry loss → c'.first? = c.first? ∧ estimate' = estimate

section

variable {c c' : CardCursor} {estimate entry loss estimate' : Nat} {next prev : Option Nat}

@[simp] theorem pulled_relink : (c.relink next prev).Pulled entry loss ↔ c.Pulled entry loss := by
  simp only [Pulled, first?_relink]

theorem Notes.of_relink (h : (c.relink next prev).Notes estimate entry loss c' estimate') :
    c.Notes estimate entry loss c' estimate' :=
  ⟨fun pulled => h.pulled (pulled_relink.2 pulled), fun still => by
    simpa only [first?_relink] using h.still fun pulled => still (pulled_relink.1 pulled)⟩

theorem Notes.lowered (h : c.Notes estimate entry loss c' estimate') : c.Lowered c' := by
  by_cases pulled : c.Pulled entry loss
  · obtain ⟨first, hf, below⟩ := pulled.2
    exact .inr ⟨entry, (h.pulled pulled).1, first, hf, below⟩
  · exact .inl (h.still pulled).1

theorem Notes.estimate_le (h : c.Notes estimate entry loss c' estimate') :
    estimate ≤ estimate' ∧ estimate' ≤ estimate + loss := by
  by_cases pulled : c.Pulled entry loss
  · have := (h.pulled pulled).2.1
    omega
  · have := (h.still pulled).2
    omega

theorem Notes.unique {c'' : CardCursor} {estimate'' : Nat}
    (h : c.Notes estimate entry loss c' estimate') (g : c.Notes estimate entry loss c'' estimate'') :
    c'.first? = c''.first? ∧ estimate' = estimate'' := by
  by_cases pulled : c.Pulled entry loss
  · obtain ⟨first, grown, -⟩ := h.pulled pulled
    obtain ⟨first', grown', -⟩ := g.pulled pulled
    exact ⟨first.trans first'.symm, grown.trans grown'.symm⟩
  · obtain ⟨first, same⟩ := h.still pulled
    obtain ⟨first', same'⟩ := g.still pulled
    exact ⟨first.trans first'.symm, same.trans same'.symm⟩

end

end CardCursor

namespace Pool

variable {F : Fault → Prop} {p : Pool} {e f : Entry} {l before after : FreeList}

/-- An insertion is noted, unless it pulls the cursor down and the estimate overflows. -/
theorem noteUnaligned_bind {α : Type} {k : Pool → Outcome α} {R : α → Prop} {entry loss : Nat}
    {prev : Option Nat}
    (hF : F .counterOverflow ∨ (p.cursor.Pulled entry loss → p.pendingLoss + loss < wordLimit))
    (w : ∀ pendingLoss cursor, p.cursor.Notes p.pendingLoss entry loss cursor pendingLoss →
      Ends F (k { p with pendingLoss, cursor }) R) :
    Ends F (p.noteUnaligned entry prev loss >>= k) R := by
  have still (not_pulled : ¬ p.cursor.Pulled entry loss) : Ends F (k p) R :=
    w p.pendingLoss p.cursor ⟨fun pulled => absurd pulled not_pulled, fun _ => ⟨rfl, rfl⟩⟩
  unfold noteUnaligned
  split
  · rename_i done
    exact still (by simp [CardCursor.Pulled, done, CardCursor.first?])
  · rename_i first old pending
    have pulled_iff : p.cursor.Pulled entry loss ↔ 0 < loss ∧ entry < first := by
      simp [CardCursor.Pulled, pending, CardCursor.first?]
    split
    · rename_i above
      simp only [Bool.or_eq_true, decide_eq_true_eq] at above
      exact still fun pulled => by
        have := pulled_iff.1 pulled
        omega
    · rename_i below
      simp only [Bool.or_eq_true, decide_eq_true_eq] at below
      have pulled : p.cursor.Pulled entry loss := pulled_iff.2 (by omega)
      unfold Word.advance
      split
      · rename_i fits
        exact w (p.pendingLoss + loss) (.pending entry prev)
          ⟨fun _ => ⟨rfl, rfl, fits⟩, fun not_pulled => absurd pulled not_pulled⟩
      · rename_i beyond
        exact hF.resolve_right fun fits => beyond (fits pulled)

/-- An entry is what realignment keeps of it and what it gives up. -/
theorem lossAt_add_bytes (hv : p.config.validate = .ok ()) (he : p.config.minEntry ≤ e.size) :
    p.lossAt e + FreeList.bytes (p.realigned e).toList = e.size := by
  have valid := PoolConfig.validate_eq_ok.1 hv
  obtain ⟨low, high⟩ := Card.core_le (e := e) valid.1
  simp only [Entry.range, Entry.top] at low high
  unfold lossAt Card.loss Card.lossOf realigned Entry.realigned
  generalize Card.core e.start e.size p.config.cardSize = core at *
  by_cases whole : core = e.range
  · subst whole
    have wide : ¬ Card.tooSmall e.range p.config.minEntry = true := by
      rw [Card.tooSmall, Bool.or_eq_true, decide_eq_true_eq, decide_eq_true_eq]
      show ¬ (e.start + e.size ≤ e.start ∨ e.start + e.size - e.start < p.config.minEntry)
      omega
    rw [if_neg wide, if_pos rfl]
    simp only [Option.toList_some, FreeList.bytes_cons, FreeList.bytes_nil, Range.length, Entry.range,
      Entry.top]
    omega
  · simp only [whole, if_false]
    split
    · rfl
    · simp only [Option.toList_some, FreeList.bytes_cons, FreeList.bytes_nil, Entry.ofRange, Entry.between,
        Range.length]
      omega

theorem lossOf_add_bytes (hv : p.config.validate = .ok ()) {l : FreeList}
    (hl : ∀ e ∈ l, p.config.minEntry ≤ e.size) :
    p.lossOf l + FreeList.bytes (l.filterMap p.realigned) = l.bytes := by
  induction l with
  | nil => rfl
  | cons e l ih =>
    obtain ⟨he, hl⟩ := List.forall_mem_cons.1 hl
    have first := lossAt_add_bytes hv he
    have rest := ih hl
    have kept : FreeList.bytes ((e :: l).filterMap p.realigned) =
        FreeList.bytes (p.realigned e).toList + FreeList.bytes (l.filterMap p.realigned) := by
      rw [List.filterMap_cons]
      cases p.realigned e <;> simp
    show p.lossAt e + p.lossOf l + _ = e.size + FreeList.bytes l
    omega

/-- The entries in three rows: those below `first`, those from there up to `e`, and those behind. -/
theorem split_at_first (first : Nat) :
    before ++ e :: after = before.below first ++ (before.upFrom first ++ [e]) ++ after := by
  rw [List.append_assoc, List.append_assoc, List.singleton_append, ← List.append_assoc,
    FreeList.below_append_upFrom]

theorem starts_of_split {m first : Nat} (hm : 0 < m) (ht : FreeList.Tracked m (before ++ e :: after))
    (hs : first ≤ e.start) :
    (∀ f ∈ before.below first, f.start < first) ∧
      (∀ f ∈ before.upFrom first ++ [e], first ≤ f.start ∧ f.start ≤ e.start) ∧
      ∀ f ∈ after, e.start < f.start := by
  obtain ⟨tb, te, tbe⟩ := FreeList.tracked_append.1 ht
  refine ⟨fun f => FreeList.start_lt_of_mem_below, fun f hf => ?_, fun f hf => te.start_lt hm hf⟩
  rcases List.mem_append.1 hf with hf | hf
  · have apart := tbe f (List.dropWhile_subset _ hf) e List.mem_cons_self
    exact ⟨tb.le_start_of_mem_upFrom hm hf, Nat.le_trans (Nat.le_add_right _ _) apart⟩
  · rw [List.mem_singleton.1 hf]
    exact ⟨hs, Nat.le_refl _⟩

/-- A cursor at or below `e` splits the entries up to `e` into settled ones and ones that are due. -/
theorem split_due {m first : Nat} (hm : 0 < m) (ht : FreeList.Tracked m (before ++ e :: after))
    (hs : first ≤ e.start) :
    FreeList.below first (before ++ e :: after) = before.below first ∧
      FreeList.through e.start (FreeList.upFrom first (before ++ e :: after)) =
        before.upFrom first ++ [e] ∧
      FreeList.beyond e.start (FreeList.upFrom first (before ++ e :: after)) = after := by
  obtain ⟨low, due, behind⟩ := starts_of_split hm ht hs
  have high : ∀ f ∈ before.upFrom first ++ [e] ++ after, first ≤ f.start := by
    intro f hf
    rcases List.mem_append.1 hf with hf | hf
    · exact (due f hf).1
    · exact Nat.le_trans hs (Nat.le_of_lt (behind f hf))
  have reach : ∀ f ∈ before.upFrom first ++ [e], f.start ≤ e.start := fun f hf => (due f hf).2
  rw [split_at_first first, List.append_assoc, FreeList.below_append low high,
    FreeList.upFrom_append low high, FreeList.through_append reach behind,
    FreeList.beyond_append reach behind]
  exact ⟨rfl, rfl, rfl⟩

/-- Realigning takes nothing off the books but what was reported. -/
theorem Realigned.sound {q : Pool} {due : FreeList} {pendingLoss : Nat} {cursor : CardCursor}
    {stats : PoolStats} (hq : p.Realigned (before ++ due.filterMap p.realigned ++ after) due q) (h : p.Sound)
    (whole : p.entries = before ++ due ++ after) :
    let r : Pool := { q with
      entries := before ++ due.filterMap p.realigned ++ after
      freeBytes := q.freeBytes - (due.bytes - FreeList.bytes (due.filterMap p.realigned))
      pendingLoss, cursor, stats }
    r.Sound ∧ Effect p r [] [] := by
  obtain ⟨freeEntries, hints, entryCount, rfl, books⟩ := hq
  intro r
  have wide : ∀ e ∈ due, p.config.minEntry ≤ e.size := fun e he => h.tracked.large e (by simp [whole, he])
  have less := lossOf_add_bytes h.config wide
  have total : p.freeBytes = before.bytes + due.bytes + after.bytes := by
    rw [h.bytes, whole, FreeList.bytes_append, FreeList.bytes_append]
  refine ⟨⟨h.config, h.grid, h.gap, h.strays, books.tracked, ?_, books.count, books.census, books.hints⟩,
    rfl, rfl, rfl, fun a => ?_⟩
  · show p.freeBytes - (due.bytes - FreeList.bytes (due.filterMap p.realigned)) = FreeList.bytes _
    rw [FreeList.bytes_append, FreeList.bytes_append]
    omega
  · have entries := congrArg (FreeList.cover · a) whole
    have given := cover_flatMap_givenUp h.config wide a
    refine (balances_logDrops p.isRecorded p.events (due.flatMap p.givenUp) a).shift ?_
    simp only [account, r, FreeList.cover_append, cover_nil] at entries ⊢
    omega

/-- Realignment gave up `lost` bytes, and stands at `first?` now. -/
structure Pays (p : Pool) (lost : Nat) (first? : Option Nat) (q : Pool) : Prop where
  estimate : q.pendingLoss = p.pendingLoss - lost
  dark : q.stats.darkMatterBytes = p.stats.darkMatterBytes + lost
  cursor : q.cursor.first? = first?

/-- Everything from the cursor up to `e` was realigned: the entries behind are as they were, and the cursor
stands at the first of them. -/
def Advances (p : Pool) (before : FreeList) (e : Entry) (after : FreeList) (q : Pool) : Prop :=
  ∃ first ∈ p.cursor.first?, first ≤ e.start ∧
    p.Pays (p.lossOf (before.upFrom first ++ [e])) after.firstStart q ∧
    q.entries = p.alignedFrom first before ++ (p.realigned e).toList ++ after

/-- What realigning everything from `first` up to `e` leaves. -/
structure AlignedThrough (p : Pool) (first : Nat) (before : FreeList) (e : Entry) (after : FreeList)
    (r : Pool × Option Entry) : Prop where
  sound : r.1.Sound
  effect : Effect p r.1 [] []
  found : r.2 = p.realigned e
  pays : p.Pays (p.lossOf (before.upFrom first ++ [e])) after.firstStart r.1
  entries : r.1.entries = p.alignedFrom first before ++ (p.realigned e).toList ++ after
  /-- the entry in front of the cursor is known -/
  cursor : r.1.cursor = after.firstStart.elim .done fun next =>
    .pending next (FreeList.lastStart (p.alignedFrom first before ++ (p.realigned e).toList))
  events : r.1.events =
    PoolEvent.logDrops p.isRecorded p.events ((before.upFrom first ++ [e]).flatMap p.givenUp)
  spends : p.Spends r.1

/-- A cursor at or below an entry, with whatever guess of its predecessor, lets realignment through to it. -/
theorem alignThrough_from {first : Nat}
    (hF : F .counterOverflow ∨
      p.stats.darkMatterBytes + p.lossOf (before.upFrom first ++ [e]) < wordLimit) (h : p.Sound)
    (hp : p.entries = before ++ e :: after) (hf : first ∈ p.cursor.first?) (hs : first ≤ e.start) :
    Ends F (p.alignThrough e.start) (p.AlignedThrough first before e after) := by
  have hm := h.minEntry_pos
  have ht := hp ▸ h.tracked
  obtain ⟨start, prev, hc, sameBelow, sameUp⟩ := repairCursor_pending h (e := e) (by simp [hp]) hf hs
  obtain ⟨settled, due, rest⟩ := split_due hm ht hs
  have hE : p.repairCursor.entries = p.entries := rfl
  rw [hp] at sameBelow sameUp
  have whole := hp.trans (split_at_first first)
  have kept : before.below first ++ (before.upFrom first ++ [e]).filterMap p.realigned =
      p.alignedFrom first before ++ (p.realigned e).toList := by
    rw [List.filterMap_append, filterMap_realigned_cons, List.filterMap_nil, List.append_nil,
      ← List.append_assoc]
    rfl
  have tdue := (FreeList.tracked_append.1 (FreeList.tracked_append.1 (whole ▸ h.tracked)).1).2.1
  unfold alignThrough
  simp only [hc, hE, sameBelow, sameUp, hp, settled, due, rest]
  rw [FreeList.checkTops_eq_ok tdue, ok_bind]
  have sound : p.repairCursor.Sound := h.at_cursor _
  have repaired : Effect p p.repairCursor [] [] := ⟨rfl, rfl, rfl, fun _ => .rfl⟩
  have books := whole ▸ hE ▸ sound.books
  refine (foldlM_accountRealigned_ends books).bind fun q realigned => ?_
  have lost := lossOf_add_bytes h.config tdue.large
  have gone : FreeList.bytes (before.upFrom first ++ [e]) -
      FreeList.bytes ((before.upFrom first ++ [e]).filterMap p.repairCursor.realigned) =
        p.lossOf (before.upFrom first ++ [e]) := Nat.sub_eq_of_eq_add lost.symm
  obtain ⟨same, sizes, events⟩ : (q.freeBytes = p.freeBytes ∧ q.realigned = p.realigned ∧
      q.pendingLoss = p.pendingLoss ∧ q.stats = p.stats) ∧
        (q.large.objects = p.large.objects ∧ q.large.tlhs = p.large.tlhs) ∧
        q.events = PoolEvent.logDrops p.isRecorded p.events
          ((before.upFrom first ++ [e]).flatMap p.givenUp) := by
    obtain ⟨_, _, _, rfl, -⟩ := realigned
    exact ⟨⟨rfl, rfl, rfl, rfl⟩, ⟨rfl, rfl⟩, rfl⟩
  have cut : p.repairCursor.entries = _ := hE.trans whole
  have total : q.freeBytes = FreeList.bytes (before.below first) +
      FreeList.bytes (before.upFrom first ++ [e]) + FreeList.bytes after := by
    rw [same.1, h.bytes, whole, FreeList.bytes_append, FreeList.bytes_append]
  refine chargeRealigned_bind ?_ ?_ (ends_pure.2
    ⟨(realigned.sound sound cut).1, repaired.trans (realigned.sound sound cut).2, ?_, ⟨?_, ?_, ?_⟩,
      ?_, ?_, events, ?_⟩)
  · rw [gone, same.2.2.2]
    exact hF
  · omega
  · simp only [List.getLast?_append, List.getLast?_singleton, Option.some_or, Option.bind_some]
    exact congrFun same.2.1 e
  · rw [gone, same.2.2.1]
  · rw [gone, same.2.2.2]
  · cases after <;> rfl
  · exact congrArg (· ++ after) kept
  · rw [← kept]
    rfl
  · have free := same.1
    have estimate := same.2.2.1
    refine ⟨?_, ?_, ?_, ?_, ?_, sizes⟩
    · dsimp only
      omega
    · dsimp only
      omega
    · dsimp only
      rw [same.2.2.2]
      omega
    · dsimp only
      rw [same.2.2.2]
      omega
    · dsimp only
      rw [same.2.2.2]
      exact ⟨rfl, rfl, rfl⟩

theorem awaits_iff {a : Nat} :
    p.awaits a = true ↔ 0 < p.pendingLoss ∧ ∃ first ∈ p.cursor.first?, first ≤ a := by
  simp [awaits, Option.any_eq_true]

/-- What realignment up to an entry leaves. -/
theorem alignThrough_ends (hF : F .counterOverflow ∨ p.stats.darkMatterBytes + p.freeBytes < wordLimit)
    (h : p.Sound) (hp : p.entries = before ++ e :: after) (hw : p.awaits e.start = true) :
    Ends F (p.alignThrough e.start) fun r => r.1.Sound ∧ Effect p r.1 [] [] ∧
      r.2 = p.realigned e ∧ p.Advances before e after r.1 := by
  obtain ⟨first, hf, hs⟩ := (awaits_iff.1 hw).2
  refine (alignThrough_from (hF.imp_right fun room => ?_) h hp hf hs).mono ?_
  · have part : List.Sublist (before.upFrom first ++ [e]) p.entries := by
      rw [hp, List.append_cons before]
      exact ((List.dropWhile_sublist _).append_right _).trans (List.sublist_append_left ..)
    have lost := p.lossOf_le_bytes part
    have total := h.bytes
    omega
  · rintro r ⟨sound, effect, found, pays, entries, -, -, -⟩
    exact ⟨sound, effect, found, first, hf, hs, pays, entries⟩

theorem shrinks_alignedFrom (hv : p.config.validate = .ok ()) {first : Nat}
    (hl : ∀ e ∈ before, p.config.minEntry ≤ e.size) : before.Shrinks (p.alignedFrom first before) := by
  intro f hf
  rcases List.mem_append.1 hf with hf | hf
  · exact ⟨f, List.takeWhile_subset _ hf, Nat.le_refl _, Nat.le_refl _⟩
  · obtain ⟨e, he, hr⟩ := List.mem_filterMap.1 hf
    have he := List.dropWhile_subset _ he
    have := realigned_within hv (hl e he) f (by simp [hr])
    exact ⟨e, he, this.1, this.2.1⟩

/-- A search that reaches `e` goes on from a sound pool: `e` may be cut down or dropped, and the entries
before it may have shrunk. -/
theorem reach_ends (hF : F .counterOverflow ∨ p.stats.darkMatterBytes + p.freeBytes < wordLimit)
    (h : p.Sound) (hp : p.entries = before ++ e :: after) :
    Ends F (p.reach e) fun r => r.1.Sound ∧ Effect p r.1 [] [] ∧
      (∀ f ∈ r.2, f = e ∨ f ∈ p.realigned e) ∧ FreeList.Within e r.2.toList ∧
      ∃ before', before.Shrinks before' ∧ r.1.entries = before' ++ r.2.toList ++ after := by
  unfold reach
  have ht := FreeList.tracked_append.1 (hp ▸ h.tracked)
  split
  · rename_i hw
    refine (alignThrough_ends hF h hp hw).mono ?_
    rintro ⟨q, found⟩ ⟨sound, effect, rfl, first, -, -, -, entries⟩
    refine ⟨sound, effect, fun f hf => .inr hf, fun f hf => ?_, _,
      shrinks_alignedFrom h.config ht.1.large, entries⟩
    have large := (FreeList.tracked_cons.1 ht.2.1).1.1
    have := realigned_within h.config large f hf
    exact ⟨this.1, this.2.1⟩
  · refine ⟨h, .refl p, ?_, ?_, before, .refl before, by simpa using hp⟩
    · rintro _ ⟨⟩
      exact .inl rfl
    · intro f hf
      obtain rfl := List.mem_singleton.1 hf
      exact ⟨Nat.le_refl _, Nat.le_refl _⟩

/-- Reaching an entry loses bytes, and counts nothing else. -/
theorem reach_spends (h : p.Sound) (hp : p.entries = before ++ e :: after) :
    Ends (fun _ => True) (p.reach e) fun r => p.Spends r.1 := by
  unfold reach
  split
  · rename_i waits
    obtain ⟨first, hf, hs⟩ := (awaits_iff.1 waits).2
    exact (alignThrough_from (.inl trivial) h hp hf hs).mono fun r aligned => aligned.spends
  · exact .refl p

end Pool

end FreeStore
