import FreeStore.Pool.Config
import FreeStore.Pool.Entry
import FreeStore.Pool.Hint
import FreeStore.Pool.Histogram
/-!
The state of a pool.

A pool tracks the free ranges of a heap that it never touches. `entries` is the free list; the totals
`freeBytes` and `entryCount`, the free entry histogram, the hints and the card cursor follow it, and
`isConsistent` compares the totals with the list. Every operation that changes the list hands its result
through `settle`, so that a run whose caller broke a promise ends instead of going on from a wrong list.

A caller who moves entries onto others tears the list. Headers stay behind that no entry leads to, the
`strays`, and in the end the list may lead on to an address where no entry starts, the `gap`. Walks that
get there fault; a torn pool that passes `settle` is whole again.

Memory that leaves the list without being handed out is reported to the subspace, the owner of the
heap: the reports of the current step are in `events`. The subspace may also refill the pool when a
search fails; what it will deliver is fixed beforehand in its `reserve`.
-/
namespace FreeStore

/-- What the owner of the heap is told. -/
inductive PoolEvent where
  /-- the range is no longer free memory that the pool tracks -/
  | abandon (low high : Nat)
  /-- a request for this many bytes found nothing -/
  | replenish (size : Nat)
  deriving DecidableEq, Repr

/-- The reports `events` and one more, if a record is kept. -/
def PoolEvent.log (recorded : Bool) (events : List PoolEvent) (e : PoolEvent) : List PoolEvent :=
  if recorded then events ++ [e] else events

/-- Report that `[low, high)` is dropped; an empty range is not worth a report. -/
def PoolEvent.logDrop (recorded : Bool) (events : List PoolEvent) (low high : Nat) : List PoolEvent :=
  if low < high then log recorded events (.abandon low high) else events

inductive Generation where
  | young
  | old
  deriving DecidableEq, Repr

/-- One way of giving memory to the pool. -/
inductive Delivery where
  | expand (low high : Nat) (coalesce : Bool)
  | recycle (low high : Nat)
  | add (ranges : List Range)
  deriving DecidableEq, Repr

/-- The owner's reaction to one failed search: what it delivers, and whether the search is repeated. -/
structure Refill where
  deliveries : List Delivery
  answer : Bool
  deriving DecidableEq, Repr

/-- The owner of the heap memory that a pool tracks. -/
structure Subspace where
  generation : Generation
  /-- the low address of its first heap region -/
  firstRegion : Option Nat
  /-- does it keep a record of what it is told? -/
  recording : Bool
  /-- its reactions to the next failed searches, in order; then it refuses -/
  reserve : List Refill
  deriving DecidableEq, Repr

structure Pool where
  config : PoolConfig
  entries : FreeList := []
  /-- where the list leads on to from its last entry, although no entry starts there -/
  gap : Option Nat := none
  /-- headers that are not on the list -/
  strays : List Header := []
  freeBytes : Nat := 0
  entryCount : Nat := 0
  /-- the largest entry as of the last insertion or failed search -/
  largest : Nat := 0
  hints : HintCache
  cursor : CardCursor := .done
  /-- the bytes that pending realignment is expected to give up -/
  pendingLoss : Nat := 0
  /-- the chunk boundaries that thread local blocks respect, while chunks are swept in parallel -/
  sweepGrid : Option SweepGrid := none
  stats : PoolStats := {}
  large : LargeObjectStats := {}
  subspace : Option Subspace := none
  /-- what the owner was told in this step, oldest first -/
  events : List PoolEvent := []
  deriving DecidableEq, Repr

namespace Pool

def create (config : PoolConfig) : Outcome Pool := do
  match config.validate with
  | .error e => .error (.invalidConfig e)
  | .ok () => return { config, hints := ← HintCache.create config.hintCapacity }

def setSubspace (p : Pool) (s : Subspace) : Pool := { p with subspace := some s }

/-- Forget the reports of the last step. -/
def nextStep (p : Pool) : Pool := { p with events := [] }

def isNursery (p : Pool) : Bool := p.subspace.any fun s => s.generation == .young

/-- Where the list starts. -/
def first? (p : Pool) : Option Nat := p.entries.firstStart.or p.gap

def isTorn (p : Pool) : Bool := p.gap.isSome || !p.strays.isEmpty

/-- Walk on from the last entry. -/
def reachEnd (p : Pool) : Outcome Unit :=
  match p.gap with
  | none => .ok ()
  | some a => .error (.notAnEntry a)

/-- Walk down the list past every entry below `a`. -/
def walkBelow (p : Pool) (a : Nat) : Outcome Unit :=
  if p.gap.any fun g => g < a then p.reachEnd else .ok ()

/-- Walk down the list past every entry up to `a`, one that starts there included. -/
def walkThrough (p : Pool) (a : Nat) : Outcome Unit :=
  if p.gap.any fun g => g ≤ a then p.reachEnd else .ok ()

/-- Drop the strays that start where entries of `l` do. -/
def coverStrays (p : Pool) (l : FreeList) : Pool :=
  { p with strays := p.strays.filter fun s => !l.startsAt s.start }

/-- The entries, as a walk over all of them finds them. -/
def allEntries (p : Pool) : Outcome FreeList := do
  p.reachEnd
  return p.entries

/-- The free ranges in address order. -/
def ranges (p : Pool) : Outcome (List Range) := do
  let l ← p.allEntries
  l.checkTops
  return l.map Entry.range

/-- Is a block of this size worth an entry? -/
def keeps (p : Pool) (size : Nat) : Bool := p.config.minEntry ≤ size

/-- Does the owner keep a record of what it is told? -/
abbrev isRecorded (p : Pool) : Bool := p.subspace.any Subspace.recording

def report (p : Pool) (e : PoolEvent) : Pool :=
  { p with events := PoolEvent.log p.isRecorded p.events e }

/-- Tell the owner that `[low, high)` is dropped. -/
def abandon (p : Pool) (low high : Nat) : Pool :=
  { p with events := PoolEvent.logDrop p.isRecorded p.events low high }

def countFree (p : Pool) (size : Nat) : Outcome Pool := do
  return { p with large := ← p.large.incrementFree size }

def uncountFree (p : Pool) (size : Nat) : Outcome Pool := do
  return { p with large := ← p.large.decrementFree size }

/-- Add `bytes` free bytes and `count` entries to the totals. -/
def credit (p : Pool) (bytes count : Nat) : Outcome Pool := do
  let freeBytes ← Word.add p.freeBytes bytes
  let entryCount ← Word.add p.entryCount count
  return { p with freeBytes, entryCount }

/-- Take `bytes` free bytes and `count` entries off the totals. -/
def debit (p : Pool) (bytes count : Nat) : Outcome Pool := do
  let freeBytes ← Word.sub p.freeBytes bytes
  let entryCount ← Word.sub p.entryCount count
  return { p with freeBytes, entryCount }

def countDiscarded (p : Pool) (bytes : Nat) : Outcome Pool := do
  let discardedBytes ← Word.advance p.stats.discardedBytes bytes
  return { p with stats := { p.stats with discardedBytes } }

def countAllocation (p : Pool) (bytes steps : Nat) : Outcome Pool := do
  let allocCount ← Word.advance p.stats.allocCount 1
  let allocBytes ← Word.advance p.stats.allocBytes bytes
  let searchCount ← Word.advance p.stats.searchCount steps
  return { p with stats := { p.stats with allocCount, allocBytes, searchCount } }

/-- The strays that no entry has taken the place of. -/
def leftBehind (p : Pool) : List Header := p.strays.filter fun s => !p.entries.startsAt s.start

def isOrdered (p : Pool) : Bool := p.entries.isOrdered

/-- Do the totals describe the list, is the list in order, and is every header on it? -/
def isConsistent (p : Pool) : Bool :=
  p.entries.bytes == p.freeBytes && p.entries.length == p.entryCount && p.leftBehind.isEmpty
    && p.isOrdered

/-- Consistent, and the recorded largest entry is the largest one. -/
def isExact (p : Pool) : Bool := p.isConsistent && p.entries.largest == p.largest

/-- Go on only from a consistent pool. -/
def settle (p : Pool) : Outcome Pool := do
  p.reachEnd
  if p.isConsistent then return { p with strays := [] } else .error .brokenPromise

end Pool

end FreeStore
