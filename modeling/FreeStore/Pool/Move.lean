import FreeStore.Pool.Realign
/-!
Relocating part of the heap.

`moveHeap` shifts the entries that start in a range by one distance. The caller promises that the list
stays in order. If images land exactly on entries below the source range, they take their place: the
entries from there up to the source range leave the list, and their headers stay behind as strays, so
that the pool is torn. Whether the last image ends inside the address space is left to those who ask for
its end.
-/
namespace FreeStore.Pool

/-- Where an address of `source` goes; others stay. -/
def imageOf (source : Range) (dst a : Nat) : Outcome Nat :=
  if source.contains a then Word.add dst (a - source.low) else .ok a

def moveEntry (source : Range) (dst : Nat) (e : Entry) : Outcome Entry := do
  return ⟨← imageOf source dst e.start, e.size⟩

def moveCursor (source : Range) (dst : Nat) : CardCursor → Outcome CardCursor
  | .done => .ok .done
  | .pending first prev => do
    let first ← imageOf source dst first
    let prev ← prev.mapM (imageOf source dst)
    return .pending first prev

/-- The list up to the last of `images`, once they are written behind and over the entries `before`: at
the first entry that an image takes the place of, the list goes on with that image. -/
def overwriteFrom (before images : FreeList) : FreeList :=
  let kept := before.takeWhile fun e => !images.startsAt e.start
  match before.drop kept.length with
  | [] => kept ++ images
  | e :: _ => kept ++ images.upFrom e.start

/-- Shift the entries that start in `[low, high)` by `dst - low`. -/
def moveHeap (p : Pool) (low high dst : Nat) : Outcome Pool := do
  p.reachEnd
  let source : Range := ⟨low, high⟩
  let before := p.entries.takeWhile fun e => !source.contains e.start
  let within := p.entries.dropWhile fun e => !source.contains e.start
  let images ← (within.takeWhile fun e => source.contains e.start).mapM (moveEntry source dst)
  if images.isEmpty then return p
  let after := within.dropWhile fun e => source.contains e.start
  require (after.head?.all fun e => FreeList.endsBy e.start images)
  let entries := overwriteFrom before images ++ after
  require entries.isOrdered
  let headers := FreeList.headers none (before ++ images ++ after)
  let strays := headers ++ p.strays.filter fun s => !headers.any fun h => h.start == s.start
  let cursor ← moveCursor source dst p.cursor
  return { p with
    entries
    strays := strays.filter fun s => !entries.startsAt s.start
    hints := p.hints.clear
    cursor }

end FreeStore.Pool
