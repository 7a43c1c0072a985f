import FreeStore.Pool.Allocate
import FreeStore.Pool.Control
import FreeStore.Pool.Extract
import FreeStore.Pool.Move
/-!
Runs of a pool.

An `Operation` is a call that may change the pool, with its arguments. `perform` carries one out and
yields its answer; `run` carries out one after the other and ends at the first fault.
-/
namespace FreeStore.Pool

inductive Operation where
  | allocate (client : Client) (request : Request)
  | allocateTlh (client : Client) (request : Request) (maximum : Nat)
  | expand (size low high : Nat) (coalesce : Bool)
  | contract (size low high : Nat)
  | add (ranges : List Range)
  | recycle (low high : Nat)
  | remove (low high minimum : Nat)
  | move (low high dst : Nat)
  | reset
  | rebuild (low high : Nat)
  | requestCardAlignment
  | toggleSweepGrid (enabled : Bool)
  | setSubspace (subspace : Subspace)
  | recalculate
  deriving DecidableEq, Repr

inductive Answer where
  | done
  | object (request : Request) (got : Option Nat)
  | block (request : Request) (got : Option Range)
  | address (a : Option Nat)
  | kept (b : Bool)
  | removed (r : Option Removed)
  | loss (bytes : Nat)
  /-- is a sweep grid in force now, and did the switch only warn? -/
  | grid (inForce warned : Bool)
  deriving DecidableEq, Repr

def perform (p : Pool) : Operation → Outcome (Pool × Answer)
  | .allocate client request => do
    let (p, request, got) ← p.allocate client request
    return (p, .object request got)
  | .allocateTlh client request maximum => do
    let (p, request, got) ← p.allocateTlh client request maximum
    return (p, .block request got)
  | .expand size low high coalesce => do return (← p.expand size low high coalesce, .done)
  | .contract size low high => do
    let (p, a) ← p.contract size low high
    return (p, .address a)
  | .add ranges => do return (← p.addEntries ranges, .done)
  | .recycle low high => do
    let (p, b) ← p.recycle low high
    return (p, .kept b)
  | .remove low high minimum => do
    let (p, r) ← p.removeWithin low high minimum
    return (p, .removed r)
  | .move low high dst => do return (← p.moveHeap low high dst, .done)
  | .reset => .ok (p.reset, .done)
  | .rebuild low high => do
    let (p, a) ← p.rebuild low high
    return (p, .address a)
  | .requestCardAlignment => do
    let (p, bytes) ← p.requestCardAlignment
    return (p, .loss bytes)
  | .toggleSweepGrid enabled =>
    let (p, warned) := p.toggleSweepGrid enabled
    .ok (p, .grid p.sweepGrid.isSome warned)
  | .setSubspace subspace => .ok (p.setSubspace subspace, .done)
  | .recalculate => do return (← p.recalculate, .done)

/-- Carry out one operation as a step of its own, with its own reports. -/
def step (p : Pool) (o : Operation) : Outcome (Pool × Answer) := p.nextStep.perform o

def run : Pool → List Operation → Outcome (Pool × List Answer)
  | p, [] => .ok (p, [])
  | p, o :: os => do
    let (p, answer) ← p.step o
    let (p, answers) ← run p os
    return (p, answer :: answers)

end FreeStore.Pool
