import FreeStore.Pool.Basic
/-!
Lazy card realignment.

`requestCardAlignment` estimates the bytes that realignment will give up and puts the cursor on the
first entry. From then on a search that reaches an entry at or above the cursor realigns everything from
the cursor up to that entry and moves the cursor behind it (`alignThrough`). Insertions below the cursor
pull it back (`noteUnaligned`). The predecessor stored in the cursor may go stale meanwhile; it is put
right before it is used (`repairCursor`).
-/
namespace FreeStore.Pool

/-- The bytes that realigning the entry would give up. -/
def lossAt (p : Pool) (e : Entry) : Nat := Card.loss e.start e.size p.config.cardSize p.config.minEntry

def realigned (p : Pool) (e : Entry) : Option Entry := e.realigned p.config.cardSize p.config.minEntry

def lossOf (p : Pool) (l : FreeList) : Nat := l.foldr (fun e bytes => p.lossAt e + bytes) 0

/-- Estimate what realigning the whole list gives up, and start realigning if it is anything. -/
def requestCardAlignment (p : Pool) : Outcome (Pool × Nat) := do
  let l ← p.allEntries
  l.checkTops
  let loss := p.lossOf l
  let cursor :=
    match l.firstStart with
    | some head => if 0 < loss then .pending head none else .done
    | none => .done
  return ({ p with pendingLoss := loss, cursor }, loss)

def relinkCursor (p : Pool) (next prev : Option Nat) : Pool :=
  { p with cursor := p.cursor.relink next prev }

/-- Entries that give up `loss` bytes were put in from `entry` on. If that lies below the cursor, they
wait for realignment too; `prev` may be a guess. -/
def noteUnaligned (p : Pool) (entry : Nat) (prev : Option Nat) (loss : Nat) : Outcome Pool :=
  match p.cursor with
  | .done => .ok p
  | .pending first _ =>
    if loss = 0 || first ≤ entry then .ok p
    else do
      let pendingLoss ← Word.advance p.pendingLoss loss
      return { p with pendingLoss, cursor := .pending entry prev }

/-- Is the entry at `a` waiting for realignment? -/
def awaits (p : Pool) (a : Nat) : Bool :=
  0 < p.pendingLoss && p.cursor.first?.any fun first => first ≤ a

/-- Is `first` the entry behind `prev`, or the first entry if there is no `prev`? -/
def isLinked (p : Pool) (first : Nat) (prev : Option Nat) : Bool :=
  match prev with
  | none => p.entries.firstStart == some first
  | some q => p.entries.startsAt q && p.entries.successor q == some first

/-- The cursor at the lowest entry from `first` on, with the entry before it. -/
def cursorAt (l : FreeList) (first : Nat) : CardCursor :=
  match (l.upFrom first).firstStart with
  | none => .done
  | some start => .pending start (l.predecessor first)

/-- Put the predecessor in the cursor right, unless it is. -/
def repairCursor (p : Pool) : Pool :=
  { p with
    cursor :=
      match p.cursor with
      | .done => .done
      | .pending first prev =>
        if p.isLinked first prev then .pending first prev else cursorAt p.entries first }

/-- Reports, hints, histogram and entry count after realigning one entry. -/
def accountRealigned (p : Pool) (e : Entry) : Outcome Pool :=
  match p.realigned e with
  | none => do
    let p ← (p.abandon e.start e.top).uncountFree e.size
    { p with hints := p.hints.remove e.start }.debit 0 1
  | some f =>
    if f = e then .ok p
    else do
      let p := p.abandon e.start f.start
      let p := { p with hints := p.hints.update e.start f.start }
      let p ← (p.abandon f.top e.top).uncountFree e.size
      p.countFree f.size

/-- Take the bytes that realignment gave up off the totals. -/
def chargeRealigned (p : Pool) (lost : Nat) : Outcome Pool := do
  let p ← p.debit lost 0
  let darkMatterBytes ← Word.advance p.stats.darkMatterBytes lost
  return { p with pendingLoss := p.pendingLoss - lost, stats := { p.stats with darkMatterBytes } }

/-- Realign every entry from the cursor up to the one that starts at `last`. Yields what became of that
one, `none` if it was too small to keep. -/
def alignThrough (p : Pool) (last : Nat) : Outcome (Pool × Option Entry) :=
  let p := p.repairCursor
  match p.cursor with
  | .done => .ok (p, p.entries.entryAt last)
  | .pending first _ => do
    let settled := p.entries.below first
    let due := (p.entries.upFrom first).through last
    let rest := (p.entries.upFrom first).beyond last
    let kept : FreeList := due.filterMap p.realigned
    FreeList.checkTops due
    let p ← due.foldlM accountRealigned p
    let p ← p.chargeRealigned (due.bytes - kept.bytes)
    let cursor := rest.firstStart.elim .done fun next => .pending next (settled ++ kept).lastStart
    return ({ p with entries := settled ++ kept ++ rest, cursor }, due.getLast?.bind p.realigned)

/-- An entry reached by a search, realigned if it waits for that. -/
def reach (p : Pool) (e : Entry) : Outcome (Pool × Option Entry) :=
  if p.awaits e.start then p.alignThrough e.start else .ok (p, some e)

end FreeStore.Pool
