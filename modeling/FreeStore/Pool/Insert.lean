import FreeStore.Pool.Realign
/-!
Putting memory into a pool.

Three ways lead in. `expand` inserts one range and merges it with the entries it touches, if asked to.
`recycle` returns one chunk and always merges. `addEntries` splices an ordered batch into one gap of
the list; of the batch only the end towards the list's front is merged, or, where the batch comes before
the whole list, its last range with the old first entry. A range too small for an entry of its own is
reported to the owner instead.
-/
namespace FreeStore.Pool

/-- Raise the recorded largest entry to `size` if it is lower. -/
def raiseLargest (p : Pool) (size : Nat) : Pool := { p with largest := max p.largest size }

/-- The last entry of `l`, if it ends at `a`. -/
def touchingBelow (l : FreeList) (a : Nat) : Option Entry := l.getLast?.filter fun e => e.top == a

/-- The first entry of `l`, if it starts at `a`. -/
def touchingAbove (l : FreeList) (a : Nat) : Option Entry := l.head?.filter fun e => e.start == a

/-- Take a swallowed neighbour off the histogram. -/
def uncountNeighbour (p : Pool) : Option Entry → Outcome Pool
  | none => .ok p
  | some e => p.uncountFree e.size

/-- Insert `[low, high)` in address order, merging it with the entries it touches if `coalesce`. -/
def expand (p : Pool) (size low high : Nat) (coalesce : Bool) : Outcome Pool := do
  if size = 0 then return p
  require (low ≤ high && size == high - low)
  if !p.keeps size then return p.abandon low high
  p.walkThrough low
  let before := p.entries.through low
  let after := p.entries.beyond low
  require (before.endsBy low && after.startsFrom high && p.gap.all fun g => high ≤ g)
  if coalesce then p.walkThrough high
  let lower := if coalesce then touchingBelow before low else none
  let upper := if coalesce then touchingAbove after high else none
  let before' := if lower.isSome then before.dropLast else before
  let after' := if upper.isSome then after.tail else after
  let merged := FreeList.merged low high lower upper
  let p ← p.uncountNeighbour upper
  let p ← p.uncountNeighbour lower
  let p := { p with entries := before' ++ merged :: after' }
  let p ← p.credit size 1
  let p ← p.debit 0 (lower.toList.length + upper.toList.length)
  let p ← p.countFree merged.size
  let p := p.raiseLargest merged.size
  let p := { p with hints := p.hints.updateBeyond merged.start }
  let p := p.relinkCursor (FreeList.firstStart after') (some merged.start)
  let guess := if lower.isSome then none else before.lastStart
  discard merged.checkedTop
  let p ← p.noteUnaligned merged.start guess (p.lossAt merged)
  p.settle

/-- Return `[low, high)` to the list, merging it with the entries it touches. Yields whether it is on the
list now; a chunk that touches nothing and is too small is reported instead. -/
def recycle (p : Pool) (low high : Nat) : Outcome (Pool × Bool) := do
  if p.entries.isEmpty then p.reachEnd else p.walkThrough low
  let before := p.entries.through low
  let after := p.entries.beyond low
  require (before.endsBy low && low ≤ high)
  if after.isEmpty && p.gap == some high then p.reachEnd
  let lower := touchingBelow before low
  let upper := touchingAbove after high
  let merged := FreeList.merged low high lower upper
  discard merged.checkedTop
  if lower.isNone && upper.isNone && !p.keeps (high - low) then return (p.abandon low high, false)
  require (after.startsFrom high && p.gap.all fun g => high ≤ g)
  let before' := if lower.isSome then before.dropLast else before
  let after' := if upper.isSome then after.tail else after
  let p ← p.uncountNeighbour lower
  let p ← p.uncountNeighbour upper
  let p := { p with entries := before' ++ merged :: after' }
  let hints :=
    if before'.isEmpty || upper.isSome then p.hints.clear else p.hints.updateBeyond merged.start
  let p := { p with hints }
  let p ← p.countFree merged.size
  let p := p.raiseLargest merged.size
  let p ← p.credit (high - low) 1
  let p ← p.debit 0 (lower.toList.length + upper.toList.length)
  let p := p.relinkCursor (FreeList.firstStart after') (some merged.start)
  let p ← p.noteUnaligned merged.start (FreeList.lastStart before') (p.lossAt merged)
  return (← p.settle, true)

/-- Report the ranges that are too small for an entry. -/
def abandonSmall (p : Pool) : List Range → Pool
  | [] => p
  | r :: rest => (if p.keeps r.length then p else p.abandon r.low r.high).abandonSmall rest

/-- The ranges of a batch that become entries. -/
def batchOf (p : Pool) (ranges : List Range) : FreeList :=
  (ranges.filter fun r => p.keeps r.length).map Entry.ofRange

/-- Two lists one behind the other. If they touch, the entries where they do are merged. Yields these too. -/
def joinEnds (front back : FreeList) : FreeList × Option (Entry × Entry) :=
  match front.getLast?, back with
  | some last, first :: rest =>
    if last.top = first.start then
      (front.dropLast ++ ⟨last.start, last.size + first.size⟩ :: rest, some (last, first))
    else (front ++ back, none)
  | _, _ => (front ++ back, none)

/-- The list with a batch in its place, and the touching entries that were merged there: a batch in front of
the list is merged with the entry behind it, any other with the entry before it. -/
def joinBatch (before batch after : FreeList) : FreeList × Option (Entry × Entry) :=
  if before.isEmpty then joinEnds batch after
  else
    let joined := joinEnds before batch
    (joined.1 ++ after, joined.2)

/-- Where the entry with the first range of a batch starts. -/
def batchStart (before : FreeList) (first : Entry) (joined : Option (Entry × Entry)) : Nat :=
  if before.isEmpty then first.start else joined.elim first.start fun j => j.1.start

/-- Histogram and largest entry after two touching entries became one. -/
def countJoin (p : Pool) : Option (Entry × Entry) → Outcome Pool
  | none => .ok p
  | some (e, f) => do
    let p ← p.uncountFree e.size
    let p ← p.uncountFree f.size
    let p ← p.countFree (e.size + f.size)
    return p.raiseLargest (e.size + f.size)

/-- Count every entry of a batch. -/
def countBatch (p : Pool) (batch : FreeList) : Outcome Pool :=
  batch.foldlM (fun p e => do return (← p.countFree e.size).raiseLargest e.size) p

/-- Splice an address ordered batch of ranges into one gap of the list. -/
def addEntries (p : Pool) (ranges : List Range) : Outcome Pool := do
  require (ranges.all fun r => r.low ≤ r.high)
  let p := p.abandonSmall ranges
  let batch := p.batchOf ranges
  match batch.head?, batch.getLast? with
  | some first, some tail =>
    require batch.isOrdered
    let p ← (p.coverStrays batch).countBatch batch
    p.walkBelow first.start
    let before := p.entries.below first.start
    let after := p.entries.upFrom first.start
    require (after.startsFrom tail.top && p.gap.all fun g => tail.top ≤ g)
    if p.entries.isEmpty then p.walkThrough tail.top
    let (entries, joined) := joinBatch before batch after
    let p ← p.countJoin joined
    let next := (entries.beyond tail.start).firstStart
    let start := batchStart before first joined
    let prev := if batch.tail.isEmpty then start else tail.start
    let p := { p with entries }.relinkCursor next (some prev)
    let p ← p.credit (FreeList.bytes batch) batch.length
    let p ← p.debit 0 joined.toList.length
    let p := { p with hints := p.hints.updateBeyond start }
    let inserted := (p.entries.upFrom start).through tail.start
    let p ←
      if p.cursor.first?.any fun first => start < first then do
        inserted.checkTops
        p.noteUnaligned start none (p.lossOf inserted)
      else pure p
    p.settle
  | _, _ => return p

/-- Give one delivery to the pool. -/
def deliver (p : Pool) : Delivery → Outcome Pool
  | .expand low high coalesce => do p.expand (← Word.sub high low) low high coalesce
  | .recycle low high => do return (← p.recycle low high).1
  | .add ranges => p.addEntries ranges

end FreeStore.Pool
