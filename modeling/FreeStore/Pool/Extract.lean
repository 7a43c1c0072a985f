import FreeStore.Pool.Realign
/-!
Taking given ranges out of a pool.

`contract` cuts a range out of the one entry that encloses it. `removeWithin` pulls every free byte of a
range off the list and hands the pieces back. What is left of a cut entry stays on the list if it is
large enough, and is reported to the owner otherwise.
-/
namespace FreeStore.Pool

/-- A leftover `[low, high)` of a cut entry: on the list as an entry of its own, or reported. -/
def keepPiece (p : Pool) (low high : Nat) : Outcome (Pool × Option Entry) :=
  if low < high && p.keeps (high - low) then do
    return (← p.countFree (high - low), some (Entry.between low high))
  else .ok (p.abandon low high, none)

def encloses (low high : Nat) (e : Entry) : Bool := e.start ≤ low && high ≤ e.top

/-- The size of a kept piece, 0 if there is none. -/
def pieceSize (piece : Option Entry) : Nat := piece.elim 0 Entry.size

/-- Take `[low, high)` out of the entry that encloses it. -/
def contract (p : Pool) (size low high : Nat) : Outcome (Pool × Option Nat) := do
  if size = 0 then return (p, none)
  require (low ≤ high && size == high - low)
  let before := p.entries.takeWhile fun e => !encloses low high e
  match p.entries.dropWhile fun e => !encloses low high e with
  | [] => do
    p.reachEnd
    .error (.noEnclosingEntry low high)
  | e :: after =>
    discard e.checkedTop
    let p ← { p with hints := p.hints.remove e.start }.uncountFree e.size
    let (p, upper) ← p.keepPiece high e.top
    let (p, lower) ← p.keepPiece e.start low
    let created := lower.toList ++ upper.toList
    let p := { p with entries := before ++ created ++ after }
    let p ← p.credit 0 created.length
    let p ← p.debit (e.size - pieceSize lower - pieceSize upper) 1
    let previous := FreeList.lastStart before
    let lowerStart := (lower.map Entry.start).or previous
    let p := p.relinkCursor (FreeList.firstStart after) ((upper.map Entry.start).or lowerStart)
    let p ← match upper with
      | none => pure p
      | some f => p.noteUnaligned f.start lowerStart (p.lossAt f)
    return (← p.settle, some low)

/-- Free memory pulled off the list: the pieces in address order, and their bytes and number. -/
structure Removed where
  pieces : List Range := []
  bytes : Nat := 0
  count : Nat := 0
  deriving DecidableEq, Repr

namespace Removed

def push (r : Removed) (low high : Nat) : Removed :=
  ⟨r.pieces ++ [⟨low, high⟩], r.bytes + (high - low), r.count + 1⟩

end Removed

/-- Hand `[low, high)` back if it has at least `minimum` bytes, report it otherwise. -/
def handBack (p : Pool) (low high minimum : Nat) (removed : Removed) : Pool × Removed :=
  if low < high && minimum ≤ high - low then (p, removed.push low high)
  else (p.abandon low high, removed)

/-- Pull the part of the entry in `[low, high)` off the list. Yields what is kept of the entry. -/
def cutOut (p : Pool) (e : Entry) (low high minimum : Nat) (removed : Removed) :
    Outcome (Pool × Removed × FreeList) := do
  let p ← { p with hints := p.hints.remove e.start }.uncountFree e.size
  let (p, lower) ← p.keepPiece e.start low
  let (p, upper) ← p.keepPiece high e.top
  let (p, removed) := p.handBack (max e.start low) (min e.top high) minimum removed
  return (p, removed, lower.toList ++ upper.toList)

/-- Pull the part below `high` of each of the entries `l` off the list. Yields what is kept of the last one
that was cut, and the entries behind it. -/
def removeBelow (high minimum : Nat) :
    FreeList → Pool → Removed → Outcome (Pool × Removed × FreeList × FreeList)
  | [], p, removed => do
    p.reachEnd
    return (p, removed, [], [])
  | e :: l, p, removed => do
    discard e.checkedTop
    if e.top ≤ high then
      let (p, removed, _) ← p.cutOut e e.start high minimum removed
      removeBelow high minimum l p removed
    else if e.start < high then
      let (p, removed, pieces) ← p.cutOut e e.start high minimum removed
      return (p, removed, pieces, l)
    else return (p, removed, [], e :: l)

/-- Pull every free byte of `[low, high)` off the list and hand back the pieces of at least `minimum`
bytes. Yields nothing when no free entry meets the range. -/
def removeWithin (p : Pool) (low high minimum : Nat) : Outcome (Pool × Option Removed) := do
  let missed (e : Entry) : Bool := e.start < low && e.top ≤ low
  let before := p.entries.takeWhile missed
  match p.entries.dropWhile missed with
  | [] =>
    p.walkBelow low
    p.walkBelow high
    return (p, none)
  | e :: rest =>
    if e.start < low then discard e.checkedTop
    if high ≤ e.start then return (p, none)
    discard e.checkedTop
    let (p, removed, pieces) ← p.cutOut e low high minimum {}
    let (p, removed, cut, behind) ← removeBelow high minimum rest p removed
    let kept := cut ++ behind
    let taken := e.size - pieces.bytes + (FreeList.bytes rest - FreeList.bytes kept)
    let p := { p with entries := before ++ pieces ++ kept }
    let p ← p.credit 0 (pieces.length + cut.length)
    let p ← p.debit taken (1 + (rest.length - behind.length))
    let p := p.relinkCursor (FreeList.firstStart kept) (FreeList.lastStart (before ++ pieces))
    return (← p.settle, some removed)

end FreeStore.Pool
