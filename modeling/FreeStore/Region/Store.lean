import FreeStore.Region.Teardown
/-!
Regions at work.

A `RegionStore` is one provider, one log, if any, and all living regions by name. The operations are
those on regions: making, filling, moving, resetting and dropping them. A failed request is an answer and leaves
everything but the record of the traffic with the provider as it was; only the operations that cannot
answer with an error end the run.
-/
namespace FreeStore

/-- What happened to regions in a step. -/
inductive RegionEvent where
  | request (required number size : Nat)
  | refused (required : Nat)
  | torn (e : TeardownEvent)
  deriving DecidableEq, Repr

structure RegionStore where
  provider : Provider
  /-- the bytes left in every segment handed out, if it is to be less than all -/
  leave : Option Nat := none
  log : Option AllocationLog := none
  /-- the number of the next embedded area -/
  fresh : Nat := 0
  living : Living := []
  /-- the names of the top level regions, the one made last in front -/
  roots : List String := []
  storage : Storage := []
  /-- profilers by name, with their region and its size at the start -/
  profilers : List (String × String × Nat) := []
  /-- what happened in this step -/
  events : List RegionEvent := []
  deriving DecidableEq, Repr

namespace RegionStore

/-- Forget what happened in the last step. -/
def nextStep (st : RegionStore) : RegionStore := { st with events := [] }

def find (st : RegionStore) (name : String) : Outcome Region :=
  match st.living.lookup name with
  | some r => .ok r
  | none => .error .brokenPromise

/-- Replace the region of this name. -/
def put (st : RegionStore) (name : String) (r : Region) : RegionStore :=
  { st with living := st.living.put name r }

/-! ## Making regions -/

/-- Attach a region to the log, if there is one. -/
def attach (st : RegionStore) (r : Region) : RegionStore × Region :=
  match st.log with
  | none => (st, r)
  | some log =>
    let (log, token) := log.created r.kind
    ({ st with log := some log }, { r with token, observed := true })

/-- Attach a region to the log `times` times; every attachment has a token of its own. -/
def attachTimes : Nat → RegionStore → Region → RegionStore × Region
  | 0, st, r => (st, r)
  | n + 1, st, r =>
    let (st, r) := st.attach r
    attachTimes n st r

/-- A region with nothing in it, not attached to a log yet. -/
def blank (st : RegionStore) (kind : RegionKind) : RegionStore × Region :=
  ({ st with fresh := st.fresh + 1 }, { area := st.fresh, kind })

/-- A fresh region with the settings of another one. -/
def likePrototype (st : RegionStore) (proto : Region) : RegionStore × Region :=
  let (st, r) := st.blank proto.kind
  if proto.observed then st.attach r else (st, r)

/-- Put a new region among the living; its name must not be taken. -/
def add (st : RegionStore) (name : String) (r : Region) : Outcome RegionStore := do
  require (st.living.lookup name).isNone
  return { st with living := (name, r) :: st.living }

def addTopLevel (st : RegionStore) (name : String) (r : Region) : Outcome RegionStore := do
  let st ← st.add name r
  return { st with roots := name :: st.roots }

/-- Make a region of `kind`, attach it `observe` times, and change its kind to `lateKind`. -/
def make (st : RegionStore) (name : String) (kind lateKind : Option RegionKind) (observe : Nat) :
    Outcome RegionStore :=
  let (st, r) := st.blank (kind.getD .heap)
  let (st, r) := attachTimes observe st r
  st.addTopLevel name { r with kind := lateKind.getD r.kind }

def makeLike (st : RegionStore) (name proto : String) : Outcome RegionStore := do
  let (st, r) := st.likePrototype (← st.find proto)
  st.addTopLevel name r

/-! ## Allocating -/

/-- Ask the provider for a segment. -/
def requestSegment (raw : RawSupply) (st : RegionStore) (required : Nat) :
    Outcome (RegionStore × Except SegmentError Segment) := do
  match ← st.provider.request raw required with
  | (provider, .error e) =>
    return ({ st with provider, events := st.events ++ [.refused required] }, .error e)
  | (provider, .ok s) =>
    let s := { s with allocated := st.leave.elim 0 fun n => s.size - n }
    let events := st.events ++ [.request required s.number s.size]
    return ({ st with provider, events }, .ok s)

/-- Count a placed block, in the region and in the log. -/
def countBlock (st : RegionStore) (name : String) (r : Region) (size : Nat) (site : Site) :
    Outcome RegionStore := do
  let bytesAllocated ← Word.add r.bytesAllocated size
  let st := st.put name { r with bytesAllocated }
  match st.log with
  | none => return st
  | some log => if r.observed then return { st with log := ← log.allocated r.token size site } else return st

/-- Hand out a placed block. -/
def handOut (st : RegionStore) (name : String) (r : Region) (place : Place) (size : Nat) (site : Site) :
    Outcome RegionStore :=
  { st with storage := st.storage.handOut (r.stretch place size) }.countBlock name r size site

/-- Place a block of `size` bytes, a multiple of the granule, in a region. -/
def placeBlock (raw : RawSupply) (st : RegionStore) (name : String) (size : Nat) (site : Site) :
    Outcome (RegionStore × Except SegmentError Place) := do
  let r ← st.find name
  match ← r.placeWithin size with
  | some (r, place) => return (← st.handOut name r place size site, .ok place)
  | none =>
    match ← st.requestSegment raw size with
    | (st, .error e) => return (st, .error e)
    | (st, .ok s) =>
      let (r, place) ← r.placeIn s size
      return (← st.handOut name r place size site, .ok place)

/-- Place a block of `bytes` bytes, rounded up to the granule. -/
def tryAllocate (raw : RawSupply) (st : RegionStore) (name : String) (bytes : Nat) (site : Site) :
    Outcome (RegionStore × Except RegionError Place) := do
  match ← st.placeBlock raw name (← roundToGranule bytes) site with
  | (st, .error e) => return (st, .error (.segment e))
  | (st, .ok place) => return (st, .ok place)

/-- As `tryAllocate`, for a block with an alignment of its own. -/
def tryAllocateAligned (raw : RawSupply) (st : RegionStore) (name : String) (bytes align : Nat)
    (site : Site) : Outcome (RegionStore × Except RegionError Place) :=
  if granule < align then .ok (st, .error (.unsupportedAlignment align))
  else st.tryAllocate raw name bytes site

/-- Place a block, or end the run. -/
def allocate (raw : RawSupply) (st : RegionStore) (name : String) (bytes : Nat) (site : Site) :
    Outcome (RegionStore × Place) := do
  match ← st.tryAllocate raw name bytes site with
  | (_, .error e) => .error (.regionExhausted bytes e)
  | (st, .ok place) => return (st, place)

/-- What a collection gets that allocates out of a region. -/
inductive Buffer where
  /-- no memory: only the alignment is promised -/
  | dangling (align : Nat)
  | placed (place : Place)
  | refused
  deriving DecidableEq, Repr

/-- Allocate a buffer for a collection. -/
def allocateBuffer (raw : RawSupply) (st : RegionStore) (name : String) (bytes align : Nat)
    (site : Site) : Outcome (RegionStore × Buffer) := do
  if bytes = 0 then return (st, .dangling align)
  match ← st.tryAllocateAligned raw name bytes align site with
  | (st, .error _) => return (st, .refused)
  | (st, .ok place) => return (st, .placed place)

/-! ## Creating -/

/-- Write an instance at a place in a region, linked to the one created before it. -/
def thread (st : RegionStore) (name : String) (place : Place) (size : Nat) (item : Item) :
    Outcome RegionStore := do
  let r ← st.find name
  let storage := st.storage.write { stretch := r.stretch place size, prev := r.last, item }
  let st := st.put name { r with last := some place }
  return { st with storage }

/-- Place an instance with a value of this layout in a region, or end the run. Yields the place of the
value, behind the header. -/
def placePayload (raw : RawSupply) (st : RegionStore) (name : String) (v : Payload) (item : Item)
    (site : Site) : Outcome (RegionStore × Place) := do
  match ← st.placeBlock raw name v.cost site with
  | (_, .error e) => .error (.regionExhausted v.cost (.segment e))
  | (st, .ok place) => return (← st.thread name place v.cost item, place.shift v.header)

/-- Create a value in a region. It is destroyed with the region. -/
def create (raw : RawSupply) (st : RegionStore) (name : String) (v : Payload) (site : Site) :
    Outcome (RegionStore × Place) :=
  st.placePayload raw name v v.item site

/-- Create a region, with the settings of `proto`, in another one. -/
def nest (raw : RawSupply) (st : RegionStore) (outer name proto : String) (site : Site) :
    Outcome (RegionStore × Place) := do
  let (st, r) := st.likePrototype (← st.find proto)
  let (st, place) ← st.placePayload raw outer .ofRegion (.region name) site
  return (← st.add name r, place)

/-- The living regions but for one and those that lie in it. -/
def others (st : RegionStore) (name : String) : Outcome Living :=
  match st.living.takeOut name with
  | none => .error .brokenPromise
  | some (r, living) => do
    let (living, _) ← teardown st.storage (living.length + 1) living r
    return living

/-- Move a top level region, with its embedded area and all that is in it, into another one. Nothing in a region
that is moved is borrowed, so the other one must not lie in it. -/
def moveInto (raw : RawSupply) (st : RegionStore) (outer name : String) (site : Site) :
    Outcome (RegionStore × Place) := do
  require (st.roots.contains name)
  require ((← st.others name).lookup outer).isSome
  let (st, place) ← st.placePayload raw outer .ofRegion (.region name) site
  return ({ st with roots := st.roots.erase name }, place)

/-! ## Destroying -/

def applyEvent (st : RegionStore) (e : TeardownEvent) : Outcome RegionStore := do
  let st := { st with events := st.events ++ [.torn e] }
  match e with
  | .destroyed _ _ => return st
  | .released s => return { st with provider := ← st.provider.release s }
  | .ended r =>
    return if r.observed then { st with log := st.log.map (·.destroyed r.token r.bytesAllocated) } else st

/-- Tear down a region that is not among the living any more. A region inside is taken from the living
before it is torn down, so their number bounds how deep regions lie in one another. -/
def destroy (st : RegionStore) (r : Region) : Outcome RegionStore := do
  let (living, events) ← teardown st.storage (st.living.length + 1) st.living r
  events.foldlM applyEvent { st with living }

/-- Drop a top level region. -/
def drop (st : RegionStore) (name : String) : Outcome RegionStore := do
  require (st.roots.contains name)
  match st.living.takeOut name with
  | none => .error .brokenPromise
  | some (r, living) => destroy { st with living, roots := st.roots.erase name } r

/-- Replace a region by a fresh one with the settings of `proto`, and destroy what it was. -/
def reset (st : RegionStore) (name proto : String) : Outcome RegionStore := do
  let old ← st.find name
  let (st, r) := st.likePrototype (← st.find proto)
  (st.put name r).destroy old

/-- Drop all top level regions, the one made last first. -/
def dropAll (st : RegionStore) : Outcome RegionStore := st.roots.foldlM drop st

/-! ## Profilers and the log -/

/-- Start measuring how much a region grows. -/
def startProfiler (st : RegionStore) (name region : String) : Outcome RegionStore := do
  let r ← st.find region
  return { st with profilers := (name, region, r.bytesAllocated) :: st.profilers }

/-- How much the region grew since the profiler was started. -/
def readProfiler (st : RegionStore) (name : String) : Outcome Nat :=
  match st.profilers.find? fun p => p.1 == name with
  | none => .error .brokenPromise
  | some (_, region, start) => do Word.sub (← st.find region).bytesAllocated start

/-- Stop a profiler. Yields its last reading. -/
def stopProfiler (st : RegionStore) (name : String) : Outcome (RegionStore × Nat) := do
  let bytes ← st.readProfiler name
  return ({ st with profilers := st.profilers.eraseP fun p => p.1 == name }, bytes)

def updateLog (st : RegionStore) (f : AllocationLog → AllocationLog) : RegionStore :=
  { st with log := st.log.map f }

end RegionStore

end FreeStore
