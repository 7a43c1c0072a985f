import FreeStore.Pool.Hint
/-!
Hints as they lie in memory.

A `HintTable` is a hint cache written down: a fixed number of slots, and in each of them the number of the
next slot on the list that it is on. There are two such lists, of the slots in use and of the spare ones, and
one field threads both. A walk down the list in use carries along the slot that it came from, so that a slot
that goes can be unlinked on the way (`sweep`); it is told the number of slots, past which it would go round
in circles.
-/
namespace FreeStore

/-- A slot: the hint in it, and the slot behind it on its list. -/
structure HintSlot where
  entry : Nat := 0
  size : Nat := 0
  lastUse : Nat := 0
  next : Option Nat := none
  deriving DecidableEq, Repr

/-- The hint in a slot. -/
def HintSlot.hint (number : Nat) (s : HintSlot) : Hint := ⟨number, s.entry, s.size, s.lastUse⟩

structure HintTable where
  slots : List HintSlot
  /-- the first slot in use -/
  active : Option Nat := none
  /-- the first spare slot -/
  inactive : Option Nat
  clock : Nat := 1
  deriving DecidableEq, Repr

namespace HintTable

def create (capacity : Nat) : Outcome HintTable :=
  if capacity ≤ HintCache.maxCapacity then
    .ok {
      slots := (List.range capacity).map fun i => { next := if i + 1 < capacity then some (i + 1) else none }
      inactive := if 0 < capacity then some 0 else none }
  else .error .arithmetic

/-- Change slot `i`. -/
def revise (t : HintTable) (i : Nat) (f : HintSlot → HintSlot) : HintTable :=
  { t with slots := t.slots.modify i f }

def link (t : HintTable) (i : Nat) (next : Option Nat) : HintTable := t.revise i fun s => { s with next }

/-- Take slot `i`, which stands between `previous` and `next`, off the list in use. -/
def deactivate (t : HintTable) (previous : Option Nat) (i : Nat) (next : Option Nat) : HintTable :=
  let t := match previous with
    | some q => t.link q next
    | none => { t with active := next }
  { t.link i t.inactive with inactive := some i }

/-- Go down the list in use from `current` on, where `previous` is the slot in front. Slots for which `gone`
holds are taken off, and at one for which `stop` holds the walk ends. Yields whether there was one. -/
def sweep (stop gone : Hint → Bool) : Nat → Option Nat → Option Nat → HintTable → HintTable × Bool
  | 0, _, _, t => (t, false)
  | _ + 1, _, none, t => (t, false)
  | n + 1, previous, some i, t =>
    match t.slots[i]? with
    | none => (t, false)
    | some s =>
      if stop (s.hint i) then (t, true)
      else if gone (s.hint i) then sweep stop gone n previous s.next (t.deactivate previous i s.next)
      else sweep stop gone n (some i) s.next t

/-- Drop every hint for which `gone` holds. -/
def withdraw (t : HintTable) (gone : Hint → Bool) : HintTable :=
  (sweep (fun _ => false) gone t.slots.length none t.active t).1

def clear (t : HintTable) : HintTable := { t.withdraw fun _ => true with clock := 1 }

/-- The hints from slot `current` on. -/
def hintsFrom (slots : List HintSlot) : Nat → Option Nat → List Hint
  | 0, _ => []
  | _ + 1, none => []
  | n + 1, some i =>
    match slots[i]? with
    | none => []
    | some s => s.hint i :: hintsFrom slots n s.next

def hints (t : HintTable) : List Hint := hintsFrom t.slots t.slots.length t.active

/-- The number of hints in use. -/
def activeLen (t : HintTable) : Nat := t.hints.length

/-- Use slot `i` now. -/
def use (t : HintTable) (i : Nat) (f : HintSlot → HintSlot) : HintTable :=
  { t.revise i (fun s => { f s with lastUse := t.clock }) with clock := t.clock + 1 }

/-- Put a hint into the first spare slot, or else into the slot used least recently. -/
def place (t : HintTable) (entry size : Nat) : HintTable :=
  let write (s : HintSlot) : HintSlot := { s with entry, size }
  match t.inactive with
  | some i =>
    match t.slots[i]? with
    | none => t
    | some s => { t.link i t.active with active := some i, inactive := s.next }.use i write
  | none =>
    match HintCache.oldest? t.hints with
    | none => t
    | some h => t.use h.slot write

/-- Record that every entry below `entry` has at most `size` bytes. -/
def add (t : HintTable) (entry size : Nat) : HintTable :=
  let (t, covered) := sweep (HintCache.covers entry size) (HintCache.overrides entry size)
    t.slots.length none t.active t
  if covered then t else t.place entry size

/-- The largest hint below `size`, which counts as used now. -/
def find (t : HintTable) (size : Nat) (head : Option Nat) : HintTable × Option Hint :=
  let t := t.withdraw (HintCache.isStale head)
  match HintCache.best? size t.hints with
  | none => (t, none)
  | some h => (t.use h.slot id, some h)

/-- Drop every hint that points at `entry`. -/
def remove (t : HintTable) (entry : Nat) : HintTable := t.withdraw fun h => h.entry == entry

/-- Let the hints from slot `current` on point where `move` says. -/
def repoint (move : Nat → Nat) : Nat → Option Nat → HintTable → HintTable
  | 0, _, t => t
  | _ + 1, none, t => t
  | n + 1, some i, t =>
    match t.slots[i]? with
    | none => t
    | some s => repoint move n s.next (t.revise i fun s => { s with entry := move s.entry })

/-- Let every hint at `old` point at `new`. -/
def update (t : HintTable) (old new : Nat) : HintTable :=
  repoint (fun entry => if entry = old then new else entry) t.slots.length t.active t

/-- Pull every hint above `entry` back to `entry`. -/
def updateBeyond (t : HintTable) (entry : Nat) : HintTable :=
  repoint (fun a => if entry < a then entry else a) t.slots.length t.active t

/-- The active hints as pairs of entry and size. -/
def pairs (t : HintTable) : List (Nat × Nat) := t.hints.map fun h => (h.entry, h.size)

end HintTable

end FreeStore
