import FreeStore.Region.Store
/-!
Runs of a region store.

An `Operation` is a call on regions with its arguments. `perform` carries one out, given what the raw
allocator can supply at that moment, and yields its answer; `run` carries out one after the other and
ends at the first fault.
-/
namespace FreeStore.RegionStore

inductive Operation where
  | make (name : String) (kind lateKind : Option RegionKind) (observe : Nat)
  | makeLike (name proto : String)
  | allocate (name : String) (bytes : Nat) (site : Site)
  | tryAllocate (name : String) (bytes : Nat) (site : Site)
  | tryAllocateAligned (name : String) (bytes align : Nat) (site : Site)
  | allocateBuffer (name : String) (bytes align : Nat) (site : Site)
  | create (name : String) (payload : Payload) (site : Site)
  | nest (outer name proto : String) (site : Site)
  | moveInto (outer name : String) (site : Site)
  | reset (name proto : String)
  | drop (name : String)
  | label (token : Nat) (text : String)
  | clearLog
  deriving DecidableEq, Repr

inductive Answer where
  | done
  | place (p : Place)
  | tried (r : Except RegionError Place)
  | buffer (b : Buffer)

def perform (raw : RawSupply) (st : RegionStore) : Operation → Outcome (RegionStore × Answer)
  | .make name kind lateKind observe => do return (← st.make name kind lateKind observe, .done)
  | .makeLike name proto => do return (← st.makeLike name proto, .done)
  | .allocate name bytes site => do
    let (st, p) ← st.allocate raw name bytes site
    return (st, .place p)
  | .tryAllocate name bytes site => do
    let (st, r) ← st.tryAllocate raw name bytes site
    return (st, .tried r)
  | .tryAllocateAligned name bytes align site => do
    let (st, r) ← st.tryAllocateAligned raw name bytes align site
    return (st, .tried r)
  | .allocateBuffer name bytes align site => do
    let (st, b) ← st.allocateBuffer raw name bytes align site
    return (st, .buffer b)
  | .create name payload site => do
    let (st, p) ← st.create raw name payload site
    return (st, .place p)
  | .nest outer name proto site => do
    let (st, p) ← st.nest raw outer name proto site
    return (st, .place p)
  | .moveInto outer name site => do
    let (st, p) ← st.moveInto raw outer name site
    return (st, .place p)
  | .reset name proto => do return (← st.reset name proto, .done)
  | .drop name => do return (← st.drop name, .done)
  | .label token text => .ok (st.updateLog (·.label token text), .done)
  | .clearLog => .ok (st.updateLog AllocationLog.clear, .done)

/-- Carry out one operation as a step of its own, with its own traffic. -/
def step (raw : RawSupply) (st : RegionStore) (o : Operation) : Outcome (RegionStore × Answer) :=
  st.nextStep.perform raw o

/-- Carry out operations, each with what the raw allocator can supply then. -/
def run : RegionStore → List (RawSupply × Operation) → Outcome (RegionStore × List Answer)
  | st, [] => .ok (st, [])
  | st, (raw, o) :: os => do
    let (st, answer) ← st.step raw o
    let (st, answers) ← run st os
    return (st, answer :: answers)

end FreeStore.RegionStore
