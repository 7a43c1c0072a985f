import FreeStore.Pool.Basic
import FreeStore.Proofs.Census
import FreeStore.Proofs.Cover
import FreeStore.Proofs.HintBounds
/-!
Sound pools, and what an operation does to the bytes of one.

A pool is `Sound` if its list is tracked and all of its books agree with the list: the two totals, the
free entry histogram and the hints. `Sound.settle_eq` says that such a pool passes the closing check of
every operation.

An `Effect` accounts for bytes. An address is on the books of a pool once for each free entry over it and
once for each report of the current step (`account`). What callers hand in and what they get changes the
books by just that, if reports are recorded; if not, bytes may be missing, but none are there twice
(`Balances`). Effects of operations add up (`Effect.trans`).
-/
namespace FreeStore

/-- The ranges that the owner is told to be dropped. -/
def PoolEvent.dropped (es : List PoolEvent) : List Range :=
  es.filterMap fun
    | .abandon low high => some ⟨low, high⟩
    | .replenish _ => none

/-- The reports `es` and one for each of the ranges `rs`, if a record is kept. -/
def PoolEvent.logDrops (recorded : Bool) (es : List PoolEvent) (rs : List Range) : List PoolEvent :=
  if recorded then es ++ rs.map fun r => .abandon r.low r.high else es

/-- The number `x` of before is the number `y` of after, or more than that if no record is kept. -/
def Balances (recorded : Bool) (x y : Nat) : Prop := y ≤ x ∧ (recorded = true → x = y)

section

variable {recorded : Bool} {x y x' y' : Nat}

theorem Balances.of_eq (h : x = y) : Balances recorded x y := ⟨Nat.le_of_eq h.symm, fun _ => h⟩

theorem Balances.rfl : Balances recorded x x := of_eq (.refl _)

theorem Balances.add (h : Balances recorded x y) (g : Balances recorded x' y') :
    Balances recorded (x + x') (y + y') :=
  ⟨Nat.add_le_add h.1 g.1, fun hr => by rw [h.2 hr, g.2 hr]⟩

/-- To ask for a record only at times is to ask for less. -/
theorem Balances.and_right {always : Bool} (h : Balances recorded x y) :
    Balances (recorded && always) x y :=
  ⟨h.1, fun hr => h.2 (Bool.and_eq_true_iff.1 hr).1⟩

/-- What is the same before and after can be left out of a balance, or put in. -/
theorem Balances.shift (h : Balances recorded x y) (w : x' + y = x + y') : Balances recorded x' y' := by
  refine ⟨?_, fun hr => ?_⟩
  · have := h.1
    omega
  · have := h.2 hr
    omega

end

namespace Pool

/-- The list is in order and the books agree with it. -/
structure Sound (p : Pool) : Prop where
  config : p.config.validate = .ok ()
  grid : ∀ g ∈ p.sweepGrid, 0 < g.chunk
  gap : p.gap = none
  strays : p.strays = []
  tracked : p.entries.Tracked p.config.minEntry
  bytes : p.freeBytes = p.entries.bytes
  count : p.entryCount = p.entries.length
  census : p.large.freeEntries.Counts p.entries
  hints : p.hints.Holds p.entries

/-- How often an address is free or reported. -/
def account (p : Pool) (a : Nat) : Nat := p.entries.cover a + cover (PoolEvent.dropped p.events) a

/-- From `p` to `q` callers handed in the ranges `given` and got the ranges `taken`, and no other byte came
or went without a report. -/
structure Effect (p q : Pool) (given taken : List Range) : Prop where
  config : q.config = p.config
  grid : q.sweepGrid = p.sweepGrid
  subspace : q.subspace = p.subspace
  ledger : ∀ a, Balances p.isRecorded (p.account a + cover given a) (q.account a + cover taken a)

variable {F : Fault → Prop} {p q r : Pool} {given taken given' taken' : List Range} {a low high : Nat}

/-! ## Sound pools -/

theorem Sound.minEntry_pos (h : p.Sound) : 0 < p.config.minEntry := by
  have := PoolConfig.validate_eq_ok.1 h.config
  omega

theorem Sound.isTorn_eq (h : p.Sound) : p.isTorn = false := by simp [isTorn, h.gap, h.strays]

theorem Sound.reachEnd_eq (h : p.Sound) : p.reachEnd = .ok () := by simp [reachEnd, h.gap]

theorem walkBelow_of_gap (h : p.gap = none) : p.walkBelow a = .ok () := by simp [walkBelow, h]

theorem walkThrough_of_gap (h : p.gap = none) : p.walkThrough a = .ok () := by
  simp [walkThrough, h]

theorem Sound.isConsistent (h : p.Sound) : p.isConsistent = true := by
  simp [Pool.isConsistent, Pool.isOrdered, leftBehind, h.strays, h.bytes, h.count,
    h.tracked.isOrdered h.minEntry_pos]

theorem Sound.settle_eq (h : p.Sound) : p.settle = .ok p := by
  have same : { p with strays := [] } = p := by rw [← h.strays]
  simp only [settle, h.reachEnd_eq, h.isConsistent, same]
  rfl

theorem Sound.ends_settle {P : Pool → Prop} (h : p.Sound) (w : P p) : Ends F p.settle P := by
  rw [h.settle_eq]
  exact w

theorem Sound.settle_bind {α : Type} {k : Pool → Outcome α} {R : α → Prop} (h : p.Sound)
    (w : Ends F (k p) R) : Ends F (p.settle >>= k) R := by
  rw [h.settle_eq]
  exact w

theorem ranges_eq (h : p.Sound) : p.ranges = .ok p.entries.ranges := by
  rw [Pool.ranges, allEntries, h.reachEnd_eq]
  simp only [ok_bind, pure_bind, FreeList.checkTops_eq_ok h.tracked]
  rfl

theorem Sound.size_pos {e : Entry} (h : p.Sound) (he : e ∈ p.entries) : 0 < e.size :=
  Nat.lt_of_lt_of_le h.minEntry_pos (h.tracked.large e he)

theorem Sound.size_bounds {e : Entry} (h : p.Sound) (he : e ∈ p.entries) :
    0 < e.size ∧ e.size < wordLimit :=
  h.tracked.size_bounds h.minEntry_pos he

theorem Sound.freeBytes_lt (h : p.Sound) : p.freeBytes < wordLimit := by
  have := h.tracked.bytes_lt (a := 0) (by decide) (by simp)
  rw [h.bytes]
  omega

theorem Sound.totals_split {e : Entry} {before after : FreeList} (h : p.Sound)
    (whole : before ++ e :: after = p.entries) :
    p.freeBytes = before.bytes + (e.size + after.bytes) ∧
      p.entryCount = before.length + (after.length + 1) := by
  rw [h.bytes, h.count, ← whole, FreeList.bytes_append, FreeList.bytes_cons, List.length_append,
    List.length_cons]
  exact ⟨rfl, rfl⟩

theorem Sound.size_le {e : Entry} (h : p.Sound) (he : e ∈ p.entries) : e.size ≤ p.freeBytes := by
  obtain ⟨before, after, hp⟩ := List.append_of_mem he
  have := (h.totals_split hp.symm).1
  omega

theorem Sound.entryCount_pos {e : Entry} (h : p.Sound) (he : e ∈ p.entries) : 0 < p.entryCount := by
  rw [h.count]
  exact List.length_pos_of_mem he

theorem Sound.entryCount_le (h : p.Sound) : p.entryCount ≤ p.freeBytes := by
  rw [h.bytes, h.count]
  exact h.tracked.length_le_bytes h.minEntry_pos

/-! ## Totals -/

theorem checkedTop_eq {e : Entry} (h : e.top < wordLimit) : e.checkedTop = .ok e.top :=
  Word.add_eq_ok.2 ⟨h, rfl⟩

theorem checkedTop_bind {α : Type} {k : Unit → Outcome α} {e : Entry} (h : e.top < wordLimit) :
    discard e.checkedTop >>= k = k () := by
  rw [checkedTop_eq h]
  rfl

theorem credit_bind {α : Type} {k : Pool → Outcome α} {R : α → Prop} {bytes count : Nat}
    (hb : p.freeBytes + bytes < wordLimit) (hc : p.entryCount + count < wordLimit)
    (w : Ends F (k { p with freeBytes := p.freeBytes + bytes, entryCount := p.entryCount + count }) R) :
    Ends F (p.credit bytes count >>= k) R := by
  have : p.credit bytes count =
      .ok { p with freeBytes := p.freeBytes + bytes, entryCount := p.entryCount + count } := by
    unfold credit
    rw [Word.add_bind hb, Word.add_bind hc]
    rfl
  rw [this]
  exact w

/-- Entries may be created as long as their number stays a word. -/
theorem credit_count_bind {α : Type} {k : Pool → Outcome α} {R : α → Prop} {count : Nat}
    (hb : p.freeBytes < wordLimit) (hc : F .arithmetic ∨ p.entryCount + count < wordLimit)
    (w : Ends F (k { p with entryCount := p.entryCount + count }) R) :
    Ends F (p.credit 0 count >>= k) R := by
  by_cases fits : p.entryCount + count < wordLimit
  · exact credit_bind hb fits w
  · have overflow : Word.add p.entryCount count = .error .arithmetic := if_neg fits
    unfold credit
    rw [Word.add_bind hb, overflow]
    exact hc.resolve_right fits

theorem debit_bind {α : Type} {k : Pool → Outcome α} {R : α → Prop} {bytes count : Nat}
    (hb : bytes ≤ p.freeBytes) (hc : count ≤ p.entryCount)
    (w : Ends F (k { p with freeBytes := p.freeBytes - bytes, entryCount := p.entryCount - count }) R) :
    Ends F (p.debit bytes count >>= k) R := by
  have : p.debit bytes count =
      .ok { p with freeBytes := p.freeBytes - bytes, entryCount := p.entryCount - count } := by
    unfold debit
    rw [Word.sub_bind hb, Word.sub_bind hc]
    rfl
  rw [this]
  exact w

theorem countDiscarded_bind {α : Type} {k : Pool → Outcome α} {R : α → Prop} {bytes : Nat}
    (hF : F .counterOverflow ∨ p.stats.discardedBytes + bytes < wordLimit)
    (w : Ends F (k { p with
      stats := { p.stats with discardedBytes := p.stats.discardedBytes + bytes } }) R) :
    Ends F (p.countDiscarded bytes >>= k) R := by
  simp only [countDiscarded, bind_assoc]
  exact Word.advance_bind hF w

theorem countAllocation_bind {α : Type} {k : Pool → Outcome α} {R : α → Prop} {bytes steps : Nat}
    (hF : F .counterOverflow ∨ p.stats.allocCount + 1 < wordLimit ∧
      p.stats.allocBytes + bytes < wordLimit ∧ p.stats.searchCount + steps < wordLimit)
    (w : Ends F (k { p with
      stats := { p.stats with
        allocCount := p.stats.allocCount + 1
        allocBytes := p.stats.allocBytes + bytes
        searchCount := p.stats.searchCount + steps } }) R) :
    Ends F (p.countAllocation bytes steps >>= k) R := by
  simp only [countAllocation, bind_assoc]
  have count := hF.imp_right And.left
  have bytes := hF.imp_right fun room => room.2.1
  have steps := hF.imp_right fun room => room.2.2
  exact Word.advance_bind count (Word.advance_bind bytes (Word.advance_bind steps w))

/-! ## Reports -/

@[simp] theorem logDrops_nil {recorded : Bool} {es : List PoolEvent} :
    PoolEvent.logDrops recorded es [] = es := by
  simp [PoolEvent.logDrops]

theorem logDrops_append {recorded : Bool} {es : List PoolEvent} {rs ss : List Range} :
    PoolEvent.logDrops recorded es (rs ++ ss) =
      PoolEvent.logDrops recorded (PoolEvent.logDrops recorded es rs) ss := by
  cases recorded <;> simp [PoolEvent.logDrops]

theorem logDrop_eq_logDrops {recorded : Bool} {es : List PoolEvent} :
    PoolEvent.logDrop recorded es low high =
      PoolEvent.logDrops recorded es ([⟨low, high⟩].filter fun r => r.low < r.high) := by
  by_cases wide : low < high <;> simp [PoolEvent.logDrop, PoolEvent.log, PoolEvent.logDrops, wide]

theorem balances_logDrops (recorded : Bool) (es : List PoolEvent) (rs : List Range) (a : Nat) :
    Balances recorded (cover (PoolEvent.dropped es) a + cover rs a)
      (cover (PoolEvent.dropped (PoolEvent.logDrops recorded es rs)) a) := by
  cases recorded with
  | true =>
    have each : PoolEvent.dropped (rs.map fun r => .abandon r.low r.high) = rs := by
      rw [PoolEvent.dropped, List.filterMap_map]
      exact List.filterMap_some
    have both : PoolEvent.dropped (PoolEvent.logDrops true es rs) = PoolEvent.dropped es ++ rs := by
      rw [PoolEvent.logDrops, if_pos rfl, PoolEvent.dropped, List.filterMap_append]
      exact congrArg _ each
    exact .of_eq (by rw [both, cover_append])
  | false => exact ⟨Nat.le_add_right _ _, fun absurd => by cases absurd⟩

/-- A report stands for the range that was dropped, be it empty. -/
theorem balances_logDrop (recorded : Bool) (es : List PoolEvent) (low high a : Nat) :
    Balances recorded (cover (PoolEvent.dropped es) a + Range.hits ⟨low, high⟩ a)
      (cover (PoolEvent.dropped (PoolEvent.logDrop recorded es low high)) a) := by
  have reported := balances_logDrops recorded es ([⟨low, high⟩].filter fun r => r.low < r.high) a
  rwa [cover_filter_nonempty, cover_cons, cover_nil, Nat.add_zero, ← logDrop_eq_logDrops] at reported

/-- To be asked for a refill is no report of a dropped range. -/
theorem dropped_log_replenish {recorded : Bool} {es : List PoolEvent} {size : Nat} :
    PoolEvent.dropped (PoolEvent.log recorded es (.replenish size)) = PoolEvent.dropped es := by
  unfold PoolEvent.log
  split
  · simp [PoolEvent.dropped]
  · rfl

/-! ## Effects -/

theorem Effect.refl (p : Pool) : Effect p p [] [] := ⟨rfl, rfl, rfl, fun _ => .rfl⟩

theorem Effect.isRecorded_eq (h : Effect p q given taken) : q.isRecorded = p.isRecorded := by
  rw [isRecorded, isRecorded, h.subspace]

theorem Effect.trans (h : Effect p q given taken) (g : Effect q r given' taken') :
    Effect p r (given ++ given') (taken ++ taken') := by
  refine ⟨g.config.trans h.config, g.grid.trans h.grid, g.subspace.trans h.subspace, fun a => ?_⟩
  have second := h.isRecorded_eq ▸ g.ledger a
  refine ((h.ledger a).add second).shift ?_
  simp only [cover_append]
  omega

/-- A sound pool with its effect passes the closing check, and keeps what else is known of it. -/
theorem ends_settle_and {P : Pool → Prop} (h : q.Sound ∧ Effect p q given taken) (w : P q) :
    Ends F q.settle fun r => r.Sound ∧ Effect p r given taken ∧ P r :=
  h.1.ends_settle ⟨h.1, h.2, w⟩

end Pool

end FreeStore
