import FreeStore.Region.Run
/-!
Sessions with regions.

Between operations, the owner of a top level region may change its kind, or attach it to the log, whatever was
allocated in it by then. An `Action` is an operation or one of these. `act` carries one out, and `session` one after
the other; it ends at the first fault.
-/
namespace FreeStore.RegionStore

/-- Change the kind of a top level region. It counts from the next attachment on. -/
def setKind (st : RegionStore) (name : String) (kind : RegionKind) : Outcome RegionStore := do
  require (st.roots.contains name)
  return st.put name { (← st.find name) with kind }

/-- Attach a top level region to the log, if there is one. What it allocated before is not in the log. -/
def observe (st : RegionStore) (name : String) : Outcome RegionStore := do
  require (st.roots.contains name)
  let (st, r) := st.attach (← st.find name)
  return st.put name r

inductive Action where
  /-- an operation, with what the raw allocator can supply then -/
  | operate (raw : RawSupply) (o : Operation)
  | setKind (name : String) (kind : RegionKind)
  | observe (name : String)

def act (st : RegionStore) : Action → Outcome (RegionStore × Answer)
  | .operate raw o => st.step raw o
  | .setKind name kind => do return (← st.nextStep.setKind name kind, .done)
  | .observe name => do return (← st.nextStep.observe name, .done)

def session : RegionStore → List Action → Outcome (RegionStore × List Answer)
  | st, [] => .ok (st, [])
  | st, a :: as => do
    let (st, answer) ← st.act a
    let (st, answers) ← session st as
    return (st, answer :: answers)

/-- Operations alone are a run. -/
theorem session_operate (st : RegionStore) (os : List (RawSupply × Operation)) :
    st.session (os.map fun o => .operate o.1 o.2) = st.run os := by
  induction os generalizing st with
  | nil => rfl
  | cons o os ih =>
    simp only [List.map_cons, session, run, act, ih]

end FreeStore.RegionStore
