import FreeStore.Word
/-!
The allocation log.

A log watches regions: it hands out a token for each one that is attached, adds up what the region
allocates, per call site if the kind of the region is among those collected, and moves the record to the
finished ones when the region is destroyed. Construction and destruction are stamped by a logical clock
that ticks at both, so no two stamps are equal. Clock and tokens go up by one at a time and have no bound here:
as words they would be used up only after 2^64 regions, and a log whose words are used up stops.
-/
namespace FreeStore

inductive RegionKind where
  | heap
  | stack
  deriving DecidableEq, Repr

/-- For which kinds of region are bytes added up per call site? -/
inductive SiteCollection where
  | off
  | heapOnly
  | stackOnly
  | all
  deriving DecidableEq, Repr

def SiteCollection.collects : SiteCollection → RegionKind → Bool
  | .off, _ => false
  | .heapOnly, kind => kind == .heap
  | .stackOnly, kind => kind == .stack
  | .all, _ => true

/-- A call site: a numbered one, or the one call site outside of all regions. -/
abbrev Site := Option Nat

/-- The order of call sites: by number, the unnumbered one last. -/
def siteLE : Site → Site → Bool
  | _, none => true
  | none, some _ => false
  | some i, some j => i ≤ j

structure RegionRecord where
  token : Nat
  kind : RegionKind
  label : Option String := none
  start : Nat
  finish : Option Nat := none
  bytes : Nat := 0
  sites : List (Site × Nat) := []
  deriving DecidableEq, Repr

/-- Add `bytes` to the sum of a call site. -/
def addAtSite (site : Site) (bytes : Nat) : List (Site × Nat) → List (Site × Nat)
  | [] => [(site, bytes)]
  | (s, n) :: rest => if s = site then (s, n + bytes) :: rest else (s, n) :: addAtSite site bytes rest

namespace RegionRecord

/-- The call sites, most bytes first; equal ones in the order of their sites. -/
def sitesByBytes (r : RegionRecord) : List (Site × Nat) :=
  r.sites.mergeSort fun a b => b.2 < a.2 || (a.2 == b.2 && siteLE a.1 b.1)

def allocated (r : RegionRecord) (collection : SiteCollection) (site : Site) (bytes : Nat) :
    Outcome RegionRecord := do
  let total ← Word.add r.bytes bytes
  let sites := if collection.collects r.kind then addAtSite site bytes r.sites else r.sites
  return { r with bytes := total, sites }

end RegionRecord

structure AllocationLog where
  collection : SiteCollection := .off
  clock : Nat := 0
  lastToken : Nat := 0
  live : List RegionRecord := []
  /-- records of destroyed regions, in the order of their destruction -/
  finished : List RegionRecord := []
  deriving DecidableEq, Repr

/-- Change the record of `token`, if there is one. -/
def updateRecord (token : Nat) (f : RegionRecord → Outcome RegionRecord) :
    List RegionRecord → Outcome (List RegionRecord)
  | [] => .ok []
  | r :: rest =>
    if r.token = token then do return (← f r) :: rest
    else do return r :: (← updateRecord token f rest)

namespace AllocationLog

/-- Watch a new region. Yields its token. -/
def created (l : AllocationLog) (kind : RegionKind) : AllocationLog × Nat :=
  let token := l.lastToken + 1
  let record : RegionRecord := { token, kind, start := l.clock + 1 }
  ({ l with clock := l.clock + 1, lastToken := token, live := l.live ++ [record] }, token)

def allocated (l : AllocationLog) (token bytes : Nat) (site : Site) : Outcome AllocationLog := do
  return { l with live := ← updateRecord token (·.allocated l.collection site bytes) l.live }

/-- Finish the record of a region, which may have allocated before it was watched. -/
def destroyed (l : AllocationLog) (token bytes : Nat) : AllocationLog :=
  let clock := l.clock + 1
  let ended := (l.live.filter fun r => r.token == token).map fun r =>
    { r with bytes := max r.bytes bytes, finish := some clock }
  { l with clock, live := l.live.filter fun r => r.token != token, finished := l.finished ++ ended }

def label (l : AllocationLog) (token : Nat) (text : String) : AllocationLog :=
  { l with live := l.live.map fun r => if r.token = token then { r with label := some text } else r }

def clear (l : AllocationLog) : AllocationLog := { l with finished := [] }

/-- A line of the report. -/
inductive Line where
  | region (token : Nat) (kind : RegionKind) (label : String) (start finish bytes : Nat)
  | site (token : Nat) (site : Site) (bytes : Nat)
  deriving DecidableEq, Repr

def reportOf (r : RegionRecord) : List Line :=
  .region r.token r.kind (r.label.getD "") r.start (r.finish.getD 0) r.bytes
    :: r.sitesByBytes.map fun (site, bytes) => .site r.token site bytes

/-- Every finished region, each followed by its call sites. -/
def report (l : AllocationLog) : List Line := l.finished.flatMap reportOf

end AllocationLog

end FreeStore
