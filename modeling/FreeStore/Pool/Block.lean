import FreeStore.Pool.FirstFit
/-!
Thread local blocks.

A block is carved off the first entry of the list, which is realigned first if it waits for that. Without
a sweep grid an unusable leftover goes along with the block. With one, the block ends at the next chunk
boundary at most, and an entry that yields no usable block so is dropped from the list.
-/
namespace FreeStore.Pool

/-- Drop the first entry, of which no usable block can be carved. -/
def dropFirst (p : Pool) (e : Entry) (rest : FreeList) : Outcome Pool := do
  discard e.checkedTop
  let p := p.abandon e.start e.top
  let p ← p.debit e.size 1
  let p ← p.countDiscarded e.size
  let p := p.relinkCursor (FreeList.firstStart rest) none
  return { p with entries := rest, hints := p.hints.remove e.start }

/-- Count a block, if blocks are recorded for the client that asked for it. -/
def countBlock (p : Pool) (size : Nat) (record : Bool) : Outcome Pool := do
  let large ← if record then p.large.recordTlh size else pure p.large
  return { p with large }

/-- Carve `taken` bytes off the first entry. -/
def carveFirst (p : Pool) (e : Entry) (rest : FreeList) (taken : Nat) (record : Bool) :
    Outcome Pool := do
  discard e.checkedTop
  let p ← p.debit taken 0
  let p ← p.countAllocation taken 0
  let p ← p.countBlock taken record
  (← p.keepRest [] e taken rest).settle

/-- How much of an entry a block of at most `maximum` bytes takes. Without a sweep grid an unusable
leftover goes along with the block; with one, the block ends at the next boundary, and `none` means that
it would be too small then. -/
def blockSize (p : Pool) (e : Entry) (maximum : Nat) : Outcome (Option Nat) :=
  let wanted := min maximum e.size
  match p.sweepGrid with
  | none => .ok (some (if p.keeps (e.size - wanted) then wanted else e.size))
  | some grid => do
    let clipped ← grid.clip e.start wanted
    return if p.keeps clipped then some clipped else none

/-- Carve a block off the first entry that yields one, dropping those that do not. -/
def carve (maximum : Nat) (record : Bool) : FreeList → Pool → Outcome (Pool × Option Range)
  | [], p => .ok (p, none)
  | e :: rest, p => do
    match ← p.reach e with
    | (p, none) => carve maximum record rest p
    | (p, some e) =>
      let p ← p.uncountFree e.size
      match ← p.blockSize e maximum with
      | none => carve maximum record rest (← p.dropFirst e rest)
      | some taken => return (← p.carveFirst e rest taken record, some ⟨e.start, e.start + taken⟩)

end FreeStore.Pool
