import FreeStore.Fault
/-!
Machine words.

Addresses, sizes and counters are natural numbers below `wordLimit`. Arithmetic that may leave that
range is checked: `Word.add`, `Word.sub` and `Word.mul` agree with the operations on `Nat` as long as
the result is a word, and fault otherwise. `Word.advance` is the sum once more, for counts that only
record what happened: a pool that outlives one of them has a fault of its own. Rounding to a multiple of a
unit comes in two forms, the plain `roundUp` and `roundDown`, and the checked `Word.alignUp` and
`Word.alignDown`.
-/
namespace FreeStore

/-- The number of machine words, 2^64. -/
def wordLimit : Nat := 18446744073709551616

/-- The largest machine word. -/
def maxWord : Nat := 18446744073709551615

/-- The least multiple of `unit` that is not below `a`. -/
def roundUp (a unit : Nat) : Nat := (a + (unit - 1)) / unit * unit

/-- The largest multiple of `unit` that is not above `a`. -/
def roundDown (a unit : Nat) : Nat := a - a % unit

section

variable {a unit : Nat}

theorem le_roundUp (h : 0 < unit) : a ≤ roundUp a unit := by
  unfold roundUp
  have := Nat.div_add_mod' (a + (unit - 1)) unit
  have := Nat.mod_lt (a + (unit - 1)) h
  omega

theorem roundDown_le : roundDown a unit ≤ a := Nat.sub_le _ _

theorem dvd_roundUp : unit ∣ roundUp a unit := Nat.dvd_mul_left ..

theorem dvd_roundDown : unit ∣ roundDown a unit := Nat.dvd_sub_mod a

theorem roundUp_lt (h : 0 < unit) : roundUp a unit < a + unit := by
  unfold roundUp
  have := Nat.div_mul_le_self (a + (unit - 1)) unit
  omega

theorem roundUp_of_dvd (hu : 0 < unit) (h : unit ∣ a) : roundUp a unit = a := by
  obtain ⟨k, rfl⟩ := h
  rw [roundUp, Nat.mul_add_div hu, Nat.div_eq_of_lt (by omega), Nat.add_zero, Nat.mul_comm]

theorem roundDown_of_dvd (h : unit ∣ a) : roundDown a unit = a := by
  rw [roundDown, Nat.mod_eq_zero_of_dvd h, Nat.sub_zero]

/-- A multiple is not below the rounded number exactly if it is not below the number. -/
theorem roundUp_le_iff {m : Nat} (hu : 0 < unit) (hm : unit ∣ m) : roundUp a unit ≤ m ↔ a ≤ m := by
  refine ⟨Nat.le_trans (le_roundUp hu), fun le => ?_⟩
  have raised : a + (unit - 1) ≤ m + (unit - 1) := Nat.add_le_add_right le _
  calc roundUp a unit ≤ roundUp m unit := Nat.mul_le_mul_right unit (Nat.div_le_div_right raised)
    _ = m := roundUp_of_dvd hu hm

theorem le_roundDown_iff {m : Nat} (hm : unit ∣ m) : m ≤ roundDown a unit ↔ m ≤ a := by
  refine ⟨fun le => Nat.le_trans le roundDown_le, fun le => ?_⟩
  calc m = unit * (m / unit) := (Nat.mul_div_cancel' hm).symm
    _ ≤ unit * (a / unit) := Nat.mul_le_mul_left unit (Nat.div_le_div_right le)
    _ = roundDown a unit := Nat.mul_div_self_eq_mod_sub_self

end

namespace Word

/-- `n` itself, provided that it is a word. -/
def fit (n : Nat) : Outcome Nat := if n < wordLimit then .ok n else .error .arithmetic

def add (a b : Nat) : Outcome Nat := fit (a + b)

/-- Advance a running count by `n`. -/
def advance (count n : Nat) : Outcome Nat :=
  if count + n < wordLimit then .ok (count + n) else .error .counterOverflow

def mul (a b : Nat) : Outcome Nat := fit (a * b)

def sub (a b : Nat) : Outcome Nat := if b ≤ a then .ok (a - b) else .error .arithmetic

def rem (a b : Nat) : Outcome Nat := if b = 0 then .error .arithmetic else .ok (a % b)

def alignUp (a unit : Nat) : Outcome Nat :=
  if unit = 0 then .error .arithmetic else fit (roundUp a unit)

def alignDown (a unit : Nat) : Outcome Nat :=
  if unit = 0 then .error .arithmetic else .ok (roundDown a unit)

def isAligned (a unit : Nat) : Outcome Bool :=
  if unit = 0 then .error .arithmetic else .ok (a % unit == 0)

theorem fit_eq_ok {n m : Nat} : fit n = .ok m ↔ n < wordLimit ∧ m = n := by
  unfold fit
  split
  · simp_all [eq_comm]
  · simp only [reduceCtorEq, false_iff]; omega

theorem add_eq_ok {a b m : Nat} : add a b = .ok m ↔ a + b < wordLimit ∧ m = a + b := fit_eq_ok

theorem sub_eq_ok {a b m : Nat} : sub a b = .ok m ↔ b ≤ a ∧ m = a - b := by
  unfold sub
  split
  · simp_all [eq_comm]
  · simp only [reduceCtorEq, false_iff]; omega

end Word

/-- The half open range `[low, high)` of addresses. -/
structure Range where
  low : Nat
  high : Nat
  deriving DecidableEq, Repr

namespace Range

/-- The number of addresses in the range; a range whose ends are crossed has none to give. -/
def size (r : Range) : Outcome Nat := Word.sub r.high r.low

def length (r : Range) : Nat := r.high - r.low

def contains (r : Range) (a : Nat) : Bool := r.low ≤ a && a < r.high

end Range

end FreeStore
