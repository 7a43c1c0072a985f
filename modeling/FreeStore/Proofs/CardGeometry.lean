import Mathlib.Order.Bounds.Defs
import FreeStore.Pool.Config
import FreeStore.Pool.Entry
import FreeStore.Proofs.Outcome
/-!
The geometry of cards.

Rounding the ends of an entry inwards leaves out no card: a range between card borders lies in the entry
exactly if it lies in the core (`le_core_iff`). So the core is the largest of these ranges (`core_isGreatest`),
and where its ends are crossed the entry holds no card (`not_nth_le`). A range between card borders is its own
core (`core_of_onCards`), so nothing more is lost when a core is realigned again.

Of the checked arithmetic only the core can fail, and not the loss that is computed from it (`checkedLoss_eq`).
Its low end is the next card border, which need not be a word. It is one if it lies inside the entry, and for
that the entry must be no smaller than a card (`checkedCore_of_le`): the relation that `PoolConfig.validate`
asks for. `geometry_exact` puts all of this together.
-/
namespace FreeStore

/-- `r ≤ s` if `r` lies within `s`. -/
instance : LE Range := ⟨fun r s => s.low ≤ r.low ∧ r.high ≤ s.high⟩

/-- Both ends of the range are card borders. -/
def Range.OnCards (card : Nat) (r : Range) : Prop := card ∣ r.low ∧ card ∣ r.high

namespace Card

variable {start size card minimum k : Nat} {e : Entry} {r : Range}

/-- Card number `k`. -/
def nth (card k : Nat) : Range := ⟨k * card, (k + 1) * card⟩

theorem onCards_nth : (nth card k).OnCards card := ⟨Nat.dvd_mul_left .., Nat.dvd_mul_left ..⟩

theorem onCards_core : (core start size card).OnCards card := ⟨dvd_roundUp, dvd_roundDown⟩

/-- A range between card borders lies in an entry exactly if it lies in its core. -/
theorem le_core_iff (hc : 0 < card) (hr : r.OnCards card) :
    r ≤ core e.start e.size card ↔ r ≤ e.range :=
  and_congr (roundUp_le_iff hc hr.1) (le_roundDown_iff hr.2)

theorem core_le (hc : 0 < card) : core e.start e.size card ≤ e.range := ⟨le_roundUp hc, roundDown_le⟩

/-- Of the nonempty ranges between card borders that lie in an entry the core is the largest. -/
theorem core_isGreatest (hc : 0 < card)
    (wide : (core e.start e.size card).low < (core e.start e.size card).high) :
    IsGreatest {r | r.low < r.high ∧ r.OnCards card ∧ r ≤ e.range} (core e.start e.size card) := by
  refine ⟨⟨wide, onCards_core, core_le hc⟩, ?_⟩
  rintro r ⟨-, onCards, inside⟩
  exact (le_core_iff hc onCards).2 inside

/-- An entry whose core has crossed ends holds no card. -/
theorem not_nth_le (hc : 0 < card)
    (crossed : (core e.start e.size card).high ≤ (core e.start e.size card).low) :
    ¬ nth card k ≤ e.range := by
  intro inside
  obtain ⟨low, high⟩ := (le_core_iff hc onCards_nth).2 inside
  have room : k * card < (k + 1) * card := Nat.mul_lt_mul_of_pos_right (Nat.lt_succ_self k) hc
  simp only [nth] at low high
  omega

theorem length_core_le (hc : 0 < card) : (core start size card).length ≤ size := by
  obtain ⟨low, high⟩ := core_le (e := ⟨start, size⟩) hc
  simp only [Entry.range, Entry.top] at low high
  unfold Range.length
  omega

/-- A range between card borders is its own core. -/
theorem core_of_onCards (hc : 0 < card) (hr : r.OnCards card) (room : r.low ≤ r.high) :
    core r.low r.length card = r := by
  rw [core, Range.length, Nat.add_sub_of_le room, roundUp_of_dvd hc hr.1, roundDown_of_dvd hr.2]

theorem lossOf_eq (hm : 0 < minimum) :
    lossOf r size minimum = if minimum ≤ r.length then size - r.length else size := by
  unfold lossOf
  simp only [tooSmall_iff hm, ← Nat.not_le, ite_not]

/-! ## Checked arithmetic -/

theorem checkedCore_eq_ok : checkedCore start size card = .ok r ↔
    0 < card ∧ roundUp start card < wordLimit ∧ start + size < wordLimit ∧ r = core start size card := by
  simp only [checkedCore, Word.alignUp, Word.alignDown, bind_eq_ok, Word.add_eq_ok]
  by_cases none : card = 0
  · simp [none]
  · simp only [none, if_false, Word.fit_eq_ok]
    constructor
    · rintro ⟨low, ⟨hl, rfl⟩, top, ⟨ht, rfl⟩, high, ⟨⟩, ⟨⟩⟩
      exact ⟨Nat.pos_of_ne_zero none, hl, ht, rfl⟩
    · rintro ⟨-, hl, ht, rfl⟩
      exact ⟨_, ⟨hl, rfl⟩, _, ⟨ht, rfl⟩, _, rfl, rfl⟩

/-- There is a card border inside an entry that is no smaller than a card. -/
theorem checkedCore_of_le (hc : 0 < card) (hs : card ≤ size) (ht : start + size < wordLimit) :
    checkedCore start size card = .ok (core start size card) := by
  have border : roundUp start card < start + card := roundUp_lt hc
  exact checkedCore_eq_ok.2 ⟨hc, by omega, ht, rfl⟩

/-- There need not be one inside a smaller entry, nor above it. -/
example : checkedCore 18446744073709551200 400 512 = .error .arithmetic := rfl

/-- Whatever the arguments, no subtraction of the loss underflows. -/
theorem checkedLoss_eq : checkedLoss start size card minimum =
    (checkedCore start size card).map fun core => lossOf core size minimum := by
  unfold checkedLoss
  cases found : checkedCore start size card with
  | error f => rfl
  | ok r =>
    obtain ⟨hc, -, -, rfl⟩ := checkedCore_eq_ok.1 found
    have short : (core start size card).length ≤ size := length_core_le hc
    generalize core start size card = r at short
    show _ = Except.ok (lossOf r size minimum)
    rw [ok_bind, lossOf]
    -- the core is measured only where its ends are not crossed
    by_cases crossed : r.high ≤ r.low
    · have small : tooSmall r minimum = true := by simp [tooSmall, crossed]
      rw [if_pos crossed, if_pos small]
      rfl
    · have length : r.size = .ok r.length := Word.sub_eq_ok.2 ⟨by omega, rfl⟩
      have small_iff : tooSmall r minimum = true ↔ r.length < minimum := by
        simp [tooSmall, crossed, Range.length]
      rw [if_neg crossed, length, ok_bind]
      simp only [small_iff]
      split
      · rfl
      · exact Word.sub_eq_ok.2 ⟨short, rfl⟩

theorem checkedLoss_of_le (hc : 0 < card) (hs : card ≤ size) (ht : start + size < wordLimit) :
    checkedLoss start size card minimum = .ok (loss start size card minimum) := by
  rw [checkedLoss_eq, checkedCore_of_le hc hs ht]
  rfl

/-- A range between card borders that is large enough is realigned to itself, at no loss. -/
theorem checked_of_kept (hc : 0 < card) (hm : card ≤ minimum) (hr : r.OnCards card)
    (kept : minimum ≤ r.length) (inside : r.high < wordLimit) :
    checkedCore r.low r.length card = .ok r ∧ checkedLoss r.low r.length card minimum = .ok 0 := by
  have wide : card ≤ r.length := Nat.le_trans hm kept
  have room : r.low ≤ r.high := by
    unfold Range.length at wide
    omega
  have top : r.low + r.length < wordLimit := by
    rwa [Range.length, Nat.add_sub_of_le room]
  have itself : core r.low r.length card = r := core_of_onCards hc hr room
  constructor
  · rw [checkedCore_of_le hc wide top, itself]
  · rw [checkedLoss_of_le hc wide top, loss, itself, lossOf_eq (Nat.lt_of_lt_of_le hc hm), if_pos kept,
      Nat.sub_self]

/-- With an accepted configuration the core and the loss of every entry that is large enough can be computed.
The core starts and ends between cards. It is the largest such range in the entry, unless its ends are crossed,
and then the entry holds no card. A core that is kept is its own core, and loses nothing. -/
theorem geometry_exact {c : PoolConfig} (valid : c.validate = .ok ()) (large : c.minEntry ≤ e.size)
    (inside : e.start + e.size ≤ maxWord) :
    ∃ core : Range, checkedCore e.start e.size c.cardSize = .ok core ∧
      (c.cardSize ∣ core.low ∧ c.cardSize ∣ core.high) ∧
      (core.low < core.high →
        IsGreatest {r | r.low < r.high ∧ r.OnCards c.cardSize ∧ r ≤ e.range} core) ∧
      (core.high ≤ core.low → ∀ k, ¬ nth c.cardSize k ≤ e.range) ∧
      core.length ≤ e.size ∧
      checkedLoss e.start e.size c.cardSize c.minEntry =
        .ok (if c.minEntry ≤ core.length then e.size - core.length else e.size) ∧
      (c.minEntry ≤ core.length →
        checkedCore core.low core.length c.cardSize = .ok core ∧
        checkedLoss core.low core.length c.cardSize c.minEntry = .ok 0) := by
  obtain ⟨hc, hm, -, -⟩ := PoolConfig.validate_eq_ok.1 valid
  have pos : 0 < c.minEntry := Nat.lt_of_lt_of_le hc hm
  have top : e.start + e.size < wordLimit := Nat.lt_succ_of_le inside
  have found := checkedCore_of_le hc (Nat.le_trans hm large) top
  refine ⟨_, found, onCards_core, core_isGreatest hc, fun crossed k => not_nth_le hc crossed,
    length_core_le hc, ?_, fun kept => ?_⟩
  · rw [checkedLoss_of_le hc (Nat.le_trans hm large) top, loss, lossOf_eq pos]
  · exact checked_of_kept hc hm onCards_core kept (Nat.lt_of_le_of_lt (core_le hc).2 top)

/-- Cards of 1000 bytes in an entry at the very end of the address space. -/
theorem geometry_exact_at_end :
    PoolConfig.validate { minEntry := 1500, cardSize := 1000 } = .ok () ∧ 1500 ≤ 3500 ∧
    18446744073709548115 + 3500 ≤ maxWord ∧
    IsGreatest {r | r.low < r.high ∧ r.OnCards 1000 ∧ r ≤ Entry.range ⟨18446744073709548115, 3500⟩}
      ⟨18446744073709549000, 18446744073709551000⟩ ∧
    checkedLoss 18446744073709548115 3500 1000 1500 = .ok 1500 ∧
    checkedCore 18446744073709549000 2000 1000 = .ok ⟨18446744073709549000, 18446744073709551000⟩ ∧
    checkedLoss 18446744073709549000 2000 1000 1500 = .ok 0 := by
  obtain ⟨core, found, -, greatest, -, -, loss, again⟩ := geometry_exact
    (c := { minEntry := 1500, cardSize := 1000 }) (e := ⟨18446744073709548115, 3500⟩) rfl (by decide) (by decide)
  have ends : checkedCore 18446744073709548115 3500 1000 =
    .ok ⟨18446744073709549000, 18446744073709551000⟩ := rfl
  obtain rfl : core = ⟨18446744073709549000, 18446744073709551000⟩ := Except.ok.inj (found.symm.trans ends)
  exact ⟨rfl, by decide, by decide, greatest (by decide), loss, again (by decide)⟩

end Card

end FreeStore
