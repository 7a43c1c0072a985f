import FreeStore.Pool.Basic
/-!
Operations on a pool as a whole: emptying it, rebuilding it from one region, recounting it, and switching
the sweep grid.
-/
namespace FreeStore.Pool

/-- Empty the list and forget every statistic. -/
def reset (p : Pool) : Pool :=
  { p with
    entries := []
    gap := none
    strays := []
    freeBytes := 0
    entryCount := 0
    largest := 0
    hints := p.hints.clear
    cursor := .done
    pendingLoss := 0
    stats := {}
    large := {} }

/-- Empty the pool and make `[low, high)` its only entry, if that is large enough for one. -/
def rebuild (p : Pool) (low high : Nat) : Outcome (Pool × Option Nat) :=
  let p := p.reset
  let size := high - low
  if low < high && p.keeps size then do
    let p ← p.countFree size
    return ({ p with
      entries := [Entry.between low high]
      freeBytes := size
      entryCount := 1
      largest := size }, some low)
  else .ok (p.abandon low high, none)

/-- Count every entry of `l` in the free entry histogram. -/
def countAll (large : LargeObjectStats) (l : FreeList) : Outcome LargeObjectStats :=
  l.foldlM (fun large e => large.incrementFree e.size) large

/-- Recount the totals, the largest entry and the free entry histogram from the list. -/
def recalculate (p : Pool) : Outcome Pool := do
  let l ← p.allEntries
  return { p with
    large := ← countAll p.large.resetFree l
    freeBytes := l.bytes
    entryCount := l.length
    largest := l.largest }

/-- Switch the sweep grid on or off. It is based on the first region of the subspace; without one,
switching it on changes nothing and yields a warning, `true`. -/
def toggleSweepGrid (p : Pool) (enabled : Bool) : Pool × Bool :=
  if enabled then
    match p.subspace.bind Subspace.firstRegion with
    | some base => ({ p with sweepGrid := some ⟨base, p.config.sweepChunk⟩ }, false)
    | none => (p, true)
  else ({ p with sweepGrid := none }, false)

end FreeStore.Pool
