import FreeStore.Word
/-!
Segments.

A segment is a numbered block of backing storage with a high-water mark: the bytes below `allocated` are
handed out, the others remain. Segments are chained newest first; a chain is never empty while it is in
use, and a segment goes behind another one only if nothing is behind that yet.
-/
namespace FreeStore

/-- Blocks of a region are rounded to, and aligned on, this many bytes. -/
def granule : Nat := 16

/-- `bytes` rounded up to whole granules. -/
def roundToGranule (bytes : Nat) : Outcome Nat := do
  return roundDown (← Word.add bytes (granule - 1)) granule

structure Segment where
  number : Nat
  size : Nat
  allocated : Nat := 0
  deriving DecidableEq, Repr

namespace Segment

def remaining (s : Segment) : Nat := s.size - s.allocated

/-- Hand out the next `bytes` bytes. Yields their offset. -/
def bump (s : Segment) (bytes : Nat) : Outcome (Segment × Nat) :=
  if bytes ≤ s.remaining then .ok ({ s with allocated := s.allocated + bytes }, s.allocated)
  else .error (.segmentOverflow bytes s.remaining)

theorem bump_eq_ok {s t : Segment} {bytes offset : Nat} :
    s.bump bytes = .ok (t, offset) ↔
      bytes ≤ s.remaining ∧ t = { s with allocated := s.allocated + bytes } ∧ offset = s.allocated := by
  unfold bump
  split
  · simp only [Except.ok.injEq, Prod.mk.injEq, true_and, *, eq_comm]
  · simp only [reduceCtorEq, false_and, *]

/-- Take the high-water mark back to the start. -/
def rewind (s : Segment) : Segment := { s with allocated := 0 }

/-- Does the address `offset` bytes from the base lie in the segment? -/
def contains (s : Segment) (offset : Int) : Bool := 0 ≤ offset && offset < s.size

end Segment

/-- A segment with those linked behind it. -/
abbrev Chain := List Segment

namespace Chain

def isLinked (c : Chain) : Bool := !c.tail.isEmpty

/-- Put `d` behind the one segment of `c`. -/
def link (c d : Chain) : Outcome Chain :=
  match c with
  | [s] => .ok (s :: d)
  | _ => .error .brokenPromise

/-- The bytes handed out in all segments. -/
def allocated : Chain → Nat
  | [] => 0
  | s :: c => s.allocated + allocated c

end Chain

end FreeStore
