import FreeStore.Segment.Basic
/-!
The provider of segments.

A provider serves a request from its cache, by best fit, if a cached segment is large enough, and gets a
fresh segment from the raw allocator otherwise, as long as its allocation limit allows. What is released
goes into the cache and is never given back.

The raw allocator is a parameter: `raw n` tells whether it supplies `n` bytes.
-/
namespace FreeStore

/-- For each size, whether the raw allocator can supply it. -/
abbrev RawSupply := Nat → Bool

/-- Ask the raw allocator for `size` bytes. -/
def RawSupply.allocate (raw : RawSupply) (size : Nat) : Except SegmentError Unit :=
  if raw size then .ok () else .error (.outOfMemory size)

structure Provider where
  segmentSize : Nat := 65536
  limit : Nat := maxWord
  /-- the bytes of backing storage, in use or cached -/
  bytesAllocated : Nat := 0
  /-- the number of segments handed out and not released -/
  live : Nat := 0
  cached : List Segment := []
  /-- the number of the next fresh segment -/
  fresh : Nat := 0
  deriving DecidableEq, Repr

namespace Provider

def create (segmentSize limit : Option Nat) : Outcome Provider := do
  let p : Provider := { limit := limit.getD maxWord }
  match segmentSize with
  | none => return p
  | some n => return { p with segmentSize := ← roundToGranule n }

/-- The position and size of the smallest segment of at least `required` bytes, the first among equals,
counting positions from `i`. -/
def bestFit (required : Nat) (i : Nat) : List Segment → Option (Nat × Segment)
  | [] => none
  | s :: rest =>
    match bestFit required (i + 1) rest with
    | none => if required ≤ s.size then some (i, s) else none
    | some (j, t) => if required ≤ s.size && s.size ≤ t.size then some (i, s) else some (j, t)

/-- Remove the element at `i`, the last one taking its place. -/
def swapRemove (l : List Segment) (i : Nat) : List Segment :=
  match l.getLast? with
  | none => []
  | some s => (l.set i s).dropLast

/-- Hand out a segment with at least `required` bytes remaining. -/
def request (raw : RawSupply) (p : Provider) (required : Nat) :
    Outcome (Provider × Except SegmentError Segment) :=
  match bestFit required 0 p.cached with
  | some (i, s) => do
    let live ← Word.add p.live 1
    return ({ p with cached := swapRemove p.cached i, live }, .ok s.rewind)
  | none => do
    let size := max (← roundToGranule required) p.segmentSize
    let requested := min (p.bytesAllocated + size) maxWord
    if p.limit < requested then return (p, .error (.limitExceeded requested p.limit))
    match raw.allocate size with
    | .error e => return (p, .error e)
    | .ok () =>
      let bytesAllocated ← Word.add p.bytesAllocated size
      let live ← Word.add p.live 1
      return ({ p with bytesAllocated, live, fresh := p.fresh + 1 }, .ok { number := p.fresh, size })

/-- Take a segment back into the cache. -/
def release (p : Provider) (s : Segment) : Outcome Provider := do
  return { p with live := ← Word.sub p.live 1, cached := p.cached ++ [s.rewind] }

def releaseAll (p : Provider) (segments : List Segment) : Outcome Provider :=
  segments.foldlM release p

end Provider

end FreeStore
