import FreeStore.Fault
/-!
Search hints.

A hint `(entry, size)` records that every free entry below `entry` has at most `size` bytes, so a search
for more than `size` bytes may start at `entry`. Hints live in a fixed number of slots: `active` holds
the hints in use, the one whose slot was taken last in front, and `spare` the numbers of the unused
slots. When a hint is added and no slot is spare, the hint used least recently gives up its slot.

Adding a hint drops the hints that it makes useless, so that of two hints at different addresses the one
at the higher address has the larger size.
-/
namespace FreeStore

structure Hint where
  slot : Nat
  entry : Nat
  size : Nat
  lastUse : Nat
  deriving DecidableEq, Repr

structure HintCache where
  active : List Hint := []
  spare : List Nat
  clock : Nat := 1
  deriving DecidableEq, Repr

namespace HintCache

/-- A slot takes 40 bytes, and a table of slots cannot exceed half of the address space. -/
def maxCapacity : Nat := 9223372036854775807 / 40

def create (capacity : Nat) : Outcome HintCache :=
  if capacity ≤ maxCapacity then .ok { spare := List.range capacity } else .error .arithmetic

/-- The numbers of the given hints' slots, given back one after the other in front of `spare`. -/
def giveBack (hints : List Hint) (spare : List Nat) : List Nat :=
  (hints.map Hint.slot).reverse ++ spare

/-- Drop every hint for which `gone` holds. -/
def withdraw (c : HintCache) (gone : Hint → Bool) : HintCache :=
  { c with
    active := c.active.filter fun h => !gone h
    spare := giveBack (c.active.filter gone) c.spare }

def clear (c : HintCache) : HintCache := ⟨[], giveBack c.active c.spare, 1⟩

/-- Does `h` make a hint of `size` bytes at `entry` unnecessary? -/
def covers (entry size : Nat) (h : Hint) : Bool := h.entry == entry && h.size ≤ size

/-- Does a hint of `size` bytes at `entry` make `h` unnecessary? -/
def overrides (entry size : Nat) (h : Hint) : Bool :=
  if entry < h.entry then h.size ≤ size
  else if entry = h.entry then true
  else size ≤ h.size

/-- The hint used least recently. -/
def oldest? : List Hint → Option Hint
  | [] => none
  | h :: rest =>
    match oldest? rest with
    | none => some h
    | some g => if g.lastUse < h.lastUse then some g else some h

/-- Write a new hint over the hint in slot `slot`. -/
def overwrite (slot : Nat) (new : Hint) (hints : List Hint) : List Hint :=
  hints.map fun h => if h.slot = slot then new else h

/-- Put a hint into a spare slot, or else into the slot used least recently. -/
def place (c : HintCache) (entry size : Nat) : HintCache :=
  match c.spare with
  | slot :: spare =>
    { active := ⟨slot, entry, size, c.clock⟩ :: c.active, spare, clock := c.clock + 1 }
  | [] =>
    match oldest? c.active with
    | none => c
    | some h =>
      { c with
        active := overwrite h.slot ⟨h.slot, entry, size, c.clock⟩ c.active
        clock := c.clock + 1 }

/-- Record that every entry below `entry` has at most `size` bytes. The active hints are gone through
from the front: overridden ones are dropped, and at a hint that covers the new one the work is done. -/
def add (c : HintCache) (entry size : Nat) : HintCache :=
  let seen := c.active.takeWhile fun h => !covers entry size h
  let beyond := c.active.dropWhile fun h => !covers entry size h
  let purged : HintCache :=
    { c with
      active := seen.filter (fun h => !overrides entry size h) ++ beyond
      spare := giveBack (seen.filter (overrides entry size)) c.spare }
  if beyond.isEmpty then purged.place entry size else purged

/-- Of the hints below `size`, the largest; of equal ones the one in front. -/
def best? (size : Nat) : List Hint → Option Hint
  | [] => none
  | h :: rest =>
    match best? size rest with
    | none => if h.size < size then some h else none
    | some g => if h.size < size && g.size ≤ h.size then some h else some g

/-- Does `h` point below the first free entry? -/
def isStale (head : Option Nat) (h : Hint) : Bool :=
  match head with
  | none => true
  | some a => h.entry < a

/-- The largest hint below `size`, which counts as used now. Hints below the first free entry, `head`,
are dropped on the way. -/
def find (c : HintCache) (size : Nat) (head : Option Nat) : HintCache × Option Hint :=
  let c := c.withdraw (isStale head)
  match best? size c.active with
  | none => (c, none)
  | some h =>
    ({ c with active := overwrite h.slot { h with lastUse := c.clock } c.active, clock := c.clock + 1 },
      some h)

/-- Drop every hint that points at `entry`. -/
def remove (c : HintCache) (entry : Nat) : HintCache := c.withdraw fun h => h.entry == entry

/-- Let every hint at `old` point at `new`. -/
def update (c : HintCache) (old new : Nat) : HintCache :=
  { c with active := c.active.map fun h => if h.entry = old then { h with entry := new } else h }

/-- Pull every hint above `entry` back to `entry`. -/
def updateBeyond (c : HintCache) (entry : Nat) : HintCache :=
  { c with active := c.active.map fun h => if entry < h.entry then { h with entry := entry } else h }

/-- The active hints as pairs of entry and size. -/
def pairs (c : HintCache) : List (Nat × Nat) := c.active.map fun h => (h.entry, h.size)

end HintCache

end FreeStore
