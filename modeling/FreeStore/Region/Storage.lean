import FreeStore.Segment.Basic
/-!
What stands in the storage of regions.

Storage is divided into areas: the one embedded in each region, and the segments. What is created in a
region is written into one of these as an `Instance`: a header, with a link to the instance created before
it in the same region, and the value. `Storage` holds the instances that are intact, the one written last
in front; whatever is handed out over an instance destroys it.
-/
namespace FreeStore

/-- Where a block lies, as seen from a region. -/
inductive Place where
  | inlined (offset : Nat)
  | segment (number offset : Nat)
  deriving DecidableEq, Repr

/-- The place `n` bytes further on. -/
def Place.shift (n : Nat) : Place → Place
  | .inlined offset => .inlined (offset + n)
  | .segment number offset => .segment number (offset + n)

/-- The area embedded in a region, or a segment. -/
inductive Area where
  | embedded (region : Nat)
  | segment (number : Nat)
  deriving DecidableEq, Repr

/-- A stretch of storage. -/
structure Stretch where
  area : Area
  offset : Nat
  size : Nat
  deriving DecidableEq, Repr

/-- Do the stretches share a byte? -/
def Stretch.overlaps (s t : Stretch) : Bool :=
  s.area = t.area && s.offset < t.offset + t.size && t.offset < s.offset + s.size &&
    0 < s.size && 0 < t.size

/-- What is created in a region: a value, noticed or not when it is destroyed, or a region. -/
inductive Item where
  | value (tag : Nat) (loud : Bool)
  | region (name : String)
  deriving DecidableEq, Repr

structure Instance where
  stretch : Stretch
  /-- the instance created before this one in the same region -/
  prev : Option Place
  item : Item
  deriving DecidableEq, Repr

abbrev Storage := List Instance

namespace Storage

/-- The stretch is handed out: what stood in it is lost. -/
def handOut (m : Storage) (s : Stretch) : Storage := m.filter fun i => !i.stretch.overlaps s

def write (m : Storage) (i : Instance) : Storage := i :: m.handOut i.stretch

end Storage

end FreeStore
