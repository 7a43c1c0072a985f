import FreeStore.Pool.Realign
/-!
First fit.

An object is placed in the lowest free entry that is large enough. The search may start at a hinted
entry instead of at the head of the list, and realigns what it reaches. What is left of the entry stays
on the list if it is large enough for one, and is reported otherwise. A long search leaves a hint behind.

The search runs down the list as it is when it starts, so it ends.
-/
namespace FreeStore.Pool

/-- What a search knows: how many entries it stepped over, the largest of them or the hint it started
from, and the largest entry it saw. -/
structure Walk where
  steps : Nat := 0
  passed : Nat := 0
  largest : Nat := 0
  deriving DecidableEq, Repr

namespace Walk

/-- Look at an entry of `size` bytes. -/
def see (w : Walk) (size : Nat) : Walk := { w with largest := max w.largest size }

/-- Step over an entry of `size` bytes; one that realignment dropped has none. -/
def stepOver (w : Walk) (size : Nat) : Walk :=
  { w with steps := w.steps + 1, passed := max w.passed size }

/-- Is the walk worth a hint? One that started at a hint is after two steps. -/
def isLong (w : Walk) (c : PoolConfig) (hinted : Bool) : Bool :=
  c.hintMaxWalk ≤ w.steps || (1 < w.steps && hinted)

/-- Leave a hint at `previous`, where the walk ended, if the walk is worth one. -/
def leaveHint (w : Walk) (c : PoolConfig) (hinted : Bool) (previous : Option Nat) (hints : HintCache) :
    HintCache :=
  match previous with
  | some previous => if w.isLong c hinted then hints.add previous w.passed else hints
  | none => hints

end Walk

/-- Go down the list to the first entry with at least `size` bytes. -/
def search (size : Nat) : FreeList → Pool → Walk → Outcome (Pool × Walk × Option Entry)
  | [], p, w => .ok (p, w, none)
  | e :: rest, p, w => do
    match ← p.reach e with
    | (p, none) => search size rest p (w.stepOver 0)
    | (p, some e) =>
      let w := w.see e.size
      if size ≤ e.size then return (p, w, some e)
      search size rest p (w.stepOver e.size)

/-- A hint for this size, if there is one that starts an entry. -/
def findHint (p : Pool) (size : Nat) : Pool × Option Hint :=
  let (hints, hint) := p.hints.find size p.first?
  ({ p with hints }, hint.filter fun h => p.entries.startsAt h.entry)

/-- The first fit for `size`, with the walk that led there and whether it started at a hint. -/
def firstFit (p : Pool) (size : Nat) : Outcome (Pool × Walk × Option Entry × Bool) := do
  let (p, hint) := p.findHint size
  let start := hint.elim p.entries fun h => p.entries.upFrom h.entry
  let (p, w, found) ← search size start p { passed := hint.elim 0 Hint.size }
  return (p, w, found, hint.isSome)

/-- Count an object, if objects are recorded for the client that asked for it. -/
def countObject (p : Pool) (size : Nat) (record : Bool) : Outcome Pool := do
  let large ← if record then p.large.recordObject size else pure p.large
  return { p with large }

/-- Put what is left of the entry behind its first `taken` bytes in its place, between `before` and
`after`, or report it. -/
def keepRest (p : Pool) (before : FreeList) (e : Entry) (taken : Nat) (after : FreeList) :
    Outcome Pool :=
  let next := after.firstStart
  let left := e.size - taken
  let start := e.start + taken
  if p.keeps left then do
    let p := { p with entries := before ++ Entry.mk start left :: after }
    let p := p.relinkCursor next (some start)
    { p with hints := p.hints.update e.start start }.countFree left
  else do
    let p := { p.abandon start e.top with entries := before ++ after }
    let p := p.relinkCursor next before.lastStart
    let p ← p.debit left 1
    let p ← p.countDiscarded left
    return { p with hints := p.hints.remove e.start }

/-- Take `size` bytes off the front of the found entry. -/
def takeFront (p : Pool) (e : Entry) (size : Nat) (w : Walk) (hinted record : Bool) : Outcome Pool := do
  discard e.checkedTop
  let before := p.entries.below e.start
  let after := p.entries.beyond e.start
  let p ← p.uncountFree e.size
  let p := { p with hints := w.leaveHint p.config hinted before.lastStart p.hints }
  let p ← p.debit size 0
  let p ← p.countAllocation size w.steps
  let p ← p.keepRest before e size after
  (← p.countObject size record).settle

/-- Place an object of `size` bytes first fit. Yields the walk, and the start of the object unless no
entry is large enough. -/
def place (p : Pool) (size : Nat) (record : Bool) : Outcome (Pool × Walk × Option Nat) := do
  match ← p.firstFit size with
  | (p, w, some e, hinted) => return (← p.takeFront e size w hinted record, w, some e.start)
  | (p, w, none, _) => return (p, w, none)

end FreeStore.Pool
