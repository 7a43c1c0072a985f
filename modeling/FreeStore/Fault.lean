/-!
Why an operation of this library cannot go on.

Two kinds of failure are kept apart. `SegmentError` and `RegionError` are answers: the caller asked
for memory and there is none. A `Fault` is the end of a run: the caller broke a promise, or a number
does not fit a machine word. `Fault.message` is the one place where faults are worded; a fault without
a wording tells only that the run is over.
-/
namespace FreeStore

/-- Lower case hexadecimal with its mark, as addresses are written everywhere. -/
def hex (n : Nat) : String := "0x" ++ String.ofList (Nat.toDigits 16 n)

/-- Why a segment could not be supplied. -/
inductive SegmentError where
  | limitExceeded (requested limit : Nat)
  | outOfMemory (size : Nat)
  deriving DecidableEq, Repr

def SegmentError.message : SegmentError → String
  | .limitExceeded requested limit =>
    s!"segment of {requested} bytes would exceed the allocation limit of {limit} bytes"
  | .outOfMemory size => s!"backing allocator could not supply {size} bytes"

/-- Why a region could not place a block. -/
inductive RegionError where
  | segment (cause : SegmentError)
  | unsupportedAlignment (align : Nat)
  deriving DecidableEq, Repr

def RegionError.message : RegionError → String
  | .segment cause => cause.message
  | .unsupportedAlignment align =>
    s!"alignment of {align} bytes exceeds the 16 byte region granule"

/-- Why a pool configuration is refused. -/
inductive ConfigError where
  | minimumBelowCard (minimum card : Nat)
  | zeroCardSize
  | zeroHintCapacity
  | zeroSweepChunkSize
  deriving DecidableEq, Repr

def ConfigError.message : ConfigError → String
  | .minimumBelowCard minimum card =>
    s!"minimum free entry size {minimum} is smaller than the {card} byte card"
  | .zeroCardSize => "card size must be non-zero"
  | .zeroHintCapacity => "hint capacity must be non-zero"
  | .zeroSweepChunkSize => "parallel sweep chunk size must be non-zero"

/-- Why a run ends. -/
inductive Fault where
  /-- a result outside the 64 bit words, or a division by zero -/
  | arithmetic
  /-- a running count or estimate outside the 64 bit words -/
  | counterOverflow
  /-- a stated precondition of the operation does not hold -/
  | brokenPromise
  | invalidConfig (cause : ConfigError)
  | noEnclosingEntry (low high : Nat)
  | notAnEntry (address : Nat)
  | belowAlignmentBase (entry base : Nat)
  | segmentOverflow (requested remaining : Nat)
  | regionExhausted (bytes : Nat) (cause : RegionError)
  | shortSegment (remaining requested : Nat)
  deriving DecidableEq, Repr

def Fault.message : Fault → Option String
  | .arithmetic | .counterOverflow | .brokenPromise => none
  | .invalidConfig cause => some cause.message
  | .noEnclosingEntry low high => some s!"no free entry encloses {hex low}..{hex high}"
  | .notAnEntry address => some s!"{hex address} is not the start of a free entry"
  | .belowAlignmentBase entry base =>
    some s!"free entry {hex entry} lies below the alignment base {hex base}"
  | .segmentOverflow requested remaining =>
    some s!"segment overflow: {requested} bytes requested, {remaining} remaining"
  | .regionExhausted bytes cause =>
    some s!"region allocation of {bytes} bytes failed: {cause.message}"
  | .shortSegment remaining requested =>
    some s!"segment provider returned {remaining} bytes for a {requested} byte request"

/-- What an operation that may end the run yields. -/
abbrev Outcome := Except Fault

/-- Go on only if the promise `b` holds. -/
def require (b : Bool) : Outcome Unit :=
  if b then .ok () else .error .brokenPromise

theorem require_eq_ok {b : Bool} {u : Unit} : require b = .ok u ↔ b = true := by
  cases b <;> simp [require]

/-- A sequence of two operations ends well exactly when both do. -/
theorem bind_eq_ok {α β : Type} {x : Outcome α} {f : α → Outcome β} {b : β} :
    x >>= f = .ok b ↔ ∃ a, x = .ok a ∧ f a = .ok b := by
  constructor
  · intro h
    cases x with
    | error e => cases h
    | ok a => exact ⟨a, rfl, h⟩
  · rintro ⟨a, rfl, h⟩
    exact h

end FreeStore
