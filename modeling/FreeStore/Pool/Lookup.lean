import FreeStore.Pool.Basic
/-!
Questions about the free memory of a pool. None of them changes it.
-/
namespace FreeStore.Pool

/-- Go down the entries of at least `minimum` bytes until `remaining` bytes are passed. What is still
missing is never less than `minimum`, and a piece too small for an entry is not left behind. -/
def splitPoint (minEntry minimum : Nat) : Nat → FreeList → Option Nat
  | _, [] => none
  | remaining, e :: l =>
    let wanted := max remaining minimum
    if wanted < e.size then
      if e.size - wanted < minEntry then some e.top else some (e.start + wanted)
    else if minimum ≤ e.size then
      if wanted = e.size then some e.top else splitPoint minEntry minimum (wanted - e.size) l
    else splitPoint minEntry minimum wanted l

/-- The address at which `required` bytes of free memory have been passed, counting only entries of at
least `minimum` bytes. -/
def addressAfter (p : Pool) (required minimum : Nat) : Outcome (Option Nat) :=
  match splitPoint p.config.minEntry minimum required p.entries with
  | some a => do return some (← Word.fit a)
  | none => do
    p.reachEnd
    return none

/-- The first entry that ends at `a`. -/
def endingAt (p : Pool) (a : Nat) : Outcome (Option Entry) :=
  match p.entries.find? fun e => e.top == a with
  | some e => .ok (some e)
  | none => do
    (← p.allEntries).checkTops
    return none

/-- The end of the entry that starts at `a`. -/
def topAt (p : Pool) (a : Nat) : Outcome (Option Nat) :=
  match p.entries.entryAt a with
  | some e => do return some (← e.checkedTop)
  | none => do
    if (p.entries.beyond a).isEmpty then p.reachEnd
    return none

/-- The bytes that the entry ending at `high` can give up, if a pending allocation of `bytes` bytes that
fits there lands there. -/
def availableEndingAt (p : Pool) (bytes low high : Nat) : Outcome Nat := do
  require (low ≤ high)
  let available := (← p.endingAt high).elim 0 Entry.size
  return if bytes ≤ available then available - bytes else available

/-- The start of the entry behind the one that starts at `a`. -/
def next (p : Pool) (a : Nat) : Outcome (Option Nat) :=
  if p.entries.startsAt a then .ok ((p.entries.successor a).or p.gap)
  else
    match p.leftBehind.find? fun h => h.start == a with
    | some h => .ok h.next
    | none => .error (.notAnEntry a)

def currentLargest (p : Pool) : Outcome Nat := do return (← p.allEntries).largest

/-- The bytes on the list, which must be those of the running total. -/
def currentBytes (p : Pool) : Outcome Nat := do
  let l ← p.allEntries
  require (l.bytes == p.freeBytes)
  return l.bytes

/-- What the checks of a pool find. -/
structure Verdict where
  ordered : Bool
  consistent : Bool
  exact : Bool
  deriving DecidableEq, Repr

/-- Go over the list and check it. -/
def check (p : Pool) : Outcome Verdict := do
  p.reachEnd
  return ⟨p.isOrdered, p.isConsistent, p.isExact⟩

end FreeStore.Pool
