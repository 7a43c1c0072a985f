import FreeStore.Region.Log
import FreeStore.Region.Storage
import FreeStore.Segment.Provider
/-!
Regions.

A region places its blocks one behind the other: in its embedded area as long as it has not asked for
a segment and the block fits, and in the newest of its segments after that. `Region` holds these
positions, and a link to the instance created last. From there `Region.follow` goes through the instances
of the region, newest first. A `Payload` is a value to be created, with its layout.
-/
namespace FreeStore

/-- The capacity of the area embedded in every region. -/
def inlineCapacity : Nat := 4096

structure Region where
  /-- tells the embedded area apart from all others -/
  area : Nat
  kind : RegionKind := .heap
  /-- is it attached to the log? -/
  observed : Bool := false
  /-- the token of the last attachment, 0 without one -/
  token : Nat := 0
  bytesAllocated : Nat := 0
  inlineUsed : Nat := 0
  /-- the segments obtained from the provider, newest first -/
  chain : Chain := []
  /-- the number of segments obtained -/
  segments : Nat := 0
  /-- the instance created last -/
  last : Option Place := none
  deriving DecidableEq, Repr

namespace Region

/-- Place a block of whole granules without a new segment, if there is room for it. -/
def placeWithin (r : Region) (size : Nat) : Outcome (Option (Region × Place)) :=
  match r.chain with
  | [] =>
    if size ≤ inlineCapacity - r.inlineUsed then
      .ok (some ({ r with inlineUsed := r.inlineUsed + size }, .inlined r.inlineUsed))
    else .ok none
  | s :: rest =>
    if size ≤ s.remaining then do
      let (s, offset) ← s.bump size
      return some ({ r with chain := s :: rest }, .segment s.number offset)
    else .ok none

/-- Place a block of whole granules at the front of a new segment, which must be large enough. -/
def placeIn (r : Region) (s : Segment) (size : Nat) : Outcome (Region × Place) :=
  if size ≤ s.remaining then do
    let (s, offset) ← s.bump size
    return ({ r with chain := s :: r.chain, segments := r.segments + 1 }, .segment s.number offset)
  else .error (.shortSegment s.remaining size)

/-- The `size` bytes at a place. -/
def stretch (r : Region) (place : Place) (size : Nat) : Stretch :=
  match place with
  | .inlined offset => ⟨.embedded r.area, offset, size⟩
  | .segment number offset => ⟨.segment number, offset, size⟩

/-- Does the instance start at the place? -/
def isAt (r : Region) (place : Place) (i : Instance) : Bool :=
  i.stretch = r.stretch place i.stretch.size

/-- The instances from a link on. An instance is linked to one that was written before it; a link that leads
to none that is intact breaks the promise under which it is followed. -/
def follow (r : Region) : Storage → Option Place → Outcome (List Instance)
  | _, none => .ok []
  | [], some _ => .error .brokenPromise
  | i :: older, some place =>
    if r.isAt place i then do return i :: (← r.follow older i.prev)
    else r.follow older (some place)

end Region

/-- A value to be created in a region, with its layout. -/
structure Payload where
  tag : Nat
  size : Nat
  align : Nat
  deriving DecidableEq, Repr

namespace Payload

/-- The header before a value is three words, padded to the value's alignment. -/
def header (v : Payload) : Nat := roundUp 24 (max 8 v.align)

/-- The bytes taken by header and value, in whole granules. -/
def cost (v : Payload) : Nat := roundUp (v.header + v.size) granule

/-- Values aligned to words are noticed when they are destroyed. -/
def isLoud (v : Payload) : Bool := 8 ≤ v.align

/-- The tag that the value holds: a smaller value holds only as much of it as its bytes take. -/
def stored (v : Payload) : Nat := if v.isLoud then v.tag else v.tag % (1 <<< (8 * v.size))

/-- The value as it stands in storage. -/
def item (v : Payload) : Item := .value v.stored v.isLoud

/-- A region as a value of another one. -/
def ofRegion : Payload := ⟨0, 4208, 16⟩

end Payload

/-- The living regions by name. -/
abbrev Living := List (String × Region)

namespace Living

/-- Replace the region of this name. -/
def put (name : String) (r : Region) (l : Living) : Living :=
  l.map fun p => if p.1 = name then (name, r) else p

/-- Take the region of this name out. -/
def takeOut (name : String) : Living → Option (Region × Living)
  | [] => none
  | (n, r) :: rest =>
    if n = name then some (r, rest)
    else (takeOut name rest).map fun (found, rest) => (found, (n, r) :: rest)

end Living

end FreeStore
