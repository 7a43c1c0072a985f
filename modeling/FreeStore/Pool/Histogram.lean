import FreeStore.Word
/-!
Size class histograms.

The class of a size is its bit length, so class `c > 0` holds the sizes from `2^(c-1)` up to, and not
including, `2^c`. A histogram keeps, per class, how many sizes were recorded and their sum. A pool keeps
three of them: for free entries, for objects and for thread local blocks.
-/
namespace FreeStore

/-- The bit length of `size`. -/
def sizeClass (size : Nat) : Nat := if size = 0 then 0 else size.log2 + 1

/-- One class for each bit length of a machine word, zero included. -/
def classCount : Nat := 65

structure Tally where
  count : Nat := 0
  bytes : Nat := 0
  deriving DecidableEq, Repr

structure Histogram where
  tallies : List Tally := List.replicate classCount {}
  deriving DecidableEq, Repr

namespace Histogram

/-- What is recorded in a class; a class beyond the last one is empty. -/
def tally (h : Histogram) (c : Nat) : Tally := h.tallies.getD c {}

def put (h : Histogram) (c : Nat) (t : Tally) : Histogram := ⟨h.tallies.set c t⟩

def increment (h : Histogram) (size : Nat) : Outcome Histogram := do
  let c := sizeClass size
  let t := h.tally c
  return h.put c ⟨← Word.advance t.count 1, ← Word.advance t.bytes size⟩

/-- Take back a recorded size. The class must hold one; its byte sum stops at zero. -/
def decrement (h : Histogram) (size : Nat) : Outcome Histogram := do
  let c := sizeClass size
  let t := h.tally c
  require (0 < t.count)
  return h.put c ⟨t.count - 1, t.bytes - size⟩

def countForClass (h : Histogram) (c : Nat) : Nat := (h.tally c).count

/-- How many recorded sizes share the class of `size`. -/
def countForSize (h : Histogram) (size : Nat) : Nat := h.countForClass (sizeClass size)

def totalCount (h : Histogram) : Outcome Nat := Word.fit (h.tallies.foldr (fun t n => t.count + n) 0)

def totalBytes (h : Histogram) : Outcome Nat := Word.fit (h.tallies.foldr (fun t n => t.bytes + n) 0)

def mergeTallies : List Tally → List Tally → Outcome (List Tally)
  | t :: ts, u :: us => do
    let count ← Word.add t.count u.count
    let bytes ← Word.add t.bytes u.bytes
    return ⟨count, bytes⟩ :: (← mergeTallies ts us)
  | ts, _ => .ok ts

def merge (h k : Histogram) : Outcome Histogram := do
  return ⟨← mergeTallies h.tallies k.tallies⟩

theorem tally_put (h : Histogram) (c d : Nat) (t : Tally) (hc : c < h.tallies.length) :
    (h.put c t).tally d = if d = c then t else h.tally d := by
  unfold tally put
  simp only [List.getD_eq_getElem?_getD, List.getElem?_set]
  by_cases e : c = d
  · subst e
    simp only [if_true, hc, Option.getD_some]
  · simp only [e, if_false, Ne.symm e]

/-- The classes in use with their counts, smallest class first. -/
def usedClasses (h : Histogram) : List (Nat × Nat) :=
  h.tallies.zipIdx.filterMap fun (t, c) => if t.count = 0 then none else some (c, t.count)

end Histogram

structure LargeObjectStats where
  freeEntries : Histogram := {}
  objects : Histogram := {}
  tlhs : Histogram := {}
  deriving DecidableEq, Repr

namespace LargeObjectStats

/-- An empty range is no free entry and is not counted. -/
def incrementFree (s : LargeObjectStats) (size : Nat) : Outcome LargeObjectStats :=
  if size = 0 then .ok s
  else do return { s with freeEntries := ← s.freeEntries.increment size }

def decrementFree (s : LargeObjectStats) (size : Nat) : Outcome LargeObjectStats :=
  if size = 0 then .ok s
  else do return { s with freeEntries := ← s.freeEntries.decrement size }

def recordObject (s : LargeObjectStats) (size : Nat) : Outcome LargeObjectStats := do
  return { s with objects := ← s.objects.increment size }

def recordTlh (s : LargeObjectStats) (size : Nat) : Outcome LargeObjectStats := do
  return { s with tlhs := ← s.tlhs.increment size }

def resetFree (s : LargeObjectStats) : LargeObjectStats := { s with freeEntries := {} }

def merge (s t : LargeObjectStats) : Outcome LargeObjectStats := do
  let freeEntries ← s.freeEntries.merge t.freeEntries
  let objects ← s.objects.merge t.objects
  let tlhs ← s.tlhs.merge t.tlhs
  return ⟨freeEntries, objects, tlhs⟩

end LargeObjectStats

/-- Counters of what a pool handed out and lost. -/
structure PoolStats where
  allocCount : Nat := 0
  allocBytes : Nat := 0
  /-- free entries stepped over by searches -/
  searchCount : Nat := 0
  /-- remainders too small to stay on the list -/
  discardedBytes : Nat := 0
  /-- bytes lost to card realignment -/
  darkMatterBytes : Nat := 0
  deriving DecidableEq, Repr

end FreeStore
