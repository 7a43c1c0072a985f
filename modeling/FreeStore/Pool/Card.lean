import FreeStore.Word
/-!
Cards and sweep chunks.

A collector divides the heap into cards. Card aligned free memory keeps of every free entry only its
aligned core. Realignment is lazy: a `CardCursor` marks the first entry that may still straddle a card,
and searches realign what they reach. `SweepGrid` is the other grid laid over the heap: while chunks
are swept in parallel, no thread local block may cross a chunk boundary.

`core` and `loss` are plain arithmetic; `checkedCore` and `checkedLoss` are the same with every
intermediate result kept in a word.
-/
namespace FreeStore

namespace Card

/-- The card aligned core of `[start, start + size)`; its ends are crossed when the entry sits inside a
single card. -/
def core (start size card : Nat) : Range := ⟨roundUp start card, roundDown (start + size) card⟩

/-- Is the core too small to stay on the list? -/
def tooSmall (core : Range) (minimum : Nat) : Bool :=
  core.high ≤ core.low || core.high - core.low < minimum

theorem tooSmall_iff {core : Range} {minimum : Nat} (hm : 0 < minimum) :
    tooSmall core minimum = true ↔ core.length < minimum := by
  simp only [tooSmall, Range.length, Bool.or_eq_true, decide_eq_true_eq]
  omega

def lossOf (core : Range) (size minimum : Nat) : Nat :=
  if tooSmall core minimum then size else size - core.length

/-- The bytes that realignment gives up, all of them when the core is too small. -/
def loss (start size card minimum : Nat) : Nat := lossOf (core start size card) size minimum

def checkedCore (start size card : Nat) : Outcome Range := do
  let low ← Word.alignUp start card
  let high ← Word.alignDown (← Word.add start size) card
  return ⟨low, high⟩

def checkedLoss (start size card minimum : Nat) : Outcome Nat := do
  let core ← checkedCore start size card
  if core.high ≤ core.low then return size
  let length ← core.size
  if length < minimum then return size
  Word.sub size length

end Card

/-- Where lazy realignment stands. In `pending first prev`, `first` and all entries above it may be
unaligned, and `prev` is the start of the entry before `first`, or a guess of it. -/
inductive CardCursor where
  | done
  | pending (first : Nat) (prev : Option Nat)
  deriving DecidableEq, Repr

def CardCursor.first? : CardCursor → Option Nat
  | .done => none
  | .pending first _ => some first

/-- If the cursor stands at `next`, the entry before it is now `prev`. -/
def CardCursor.relink (c : CardCursor) (next prev : Option Nat) : CardCursor :=
  match c with
  | .done => .done
  | .pending first old => .pending first (if next = some first then prev else old)

/-- Chunk boundaries at every multiple of `chunk` counted from `base`. -/
structure SweepGrid where
  base : Nat
  chunk : Nat
  deriving DecidableEq, Repr

/-- Shrink `consumed` bytes taken at `entry` so that they end at the next boundary at most. -/
def SweepGrid.clip (g : SweepGrid) (entry consumed : Nat) : Outcome Nat :=
  if entry < g.base then .error (.belowAlignmentBase entry g.base)
  else do
    let past ← Word.rem (entry - g.base) g.chunk
    let boundary ← Word.add entry (g.chunk - past)
    let top ← Word.add entry consumed
    return if boundary < top then consumed - (top - boundary) else consumed

end FreeStore
