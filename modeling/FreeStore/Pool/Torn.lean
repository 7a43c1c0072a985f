import FreeStore.Pool.Block
import FreeStore.Pool.FirstFit
/-!
Torn pools.

In a torn pool the cursor, or the last entry, may lead to headers off the list, so placing an object,
carving a block and realigning go from header to header here. `headers` lays the pool out as headers and
`withHeaders` reads it back as a list; in between, `dropHeader`, `putHeader` and `link` edit single
headers. A link leads upwards, and a header ends at or before the start of the next one; an edit that
would break this faults.

Walks are bounded by the number of headers: a walk meets each of them once at most, and realignment adds
none.
-/
namespace FreeStore.Pool

/-- Every header of the pool, on the list or not. -/
def headers (p : Pool) : List Header := p.entries.headers p.gap ++ p.strays

/-- The pool with these headers, its list starting at `head`. -/
def withHeaders (p : Pool) (head : Option Nat) (headers : List Header) : Pool :=
  let (entries, gap, strays) := FreeList.ofHeaders head headers
  { p with entries, gap, strays }

def header? (p : Pool) (a : Nat) : Option Header := p.headers.find? fun h => h.start == a

def header (p : Pool) (a : Nat) : Outcome Header :=
  match p.header? a with
  | some h => .ok h
  | none => .error (.notAnEntry a)

def dropHeader (p : Pool) (a : Nat) : Pool :=
  p.withHeaders p.first? (p.headers.filter fun h => h.start != a)

/-- Write a header, over one that starts at the same address if there is one. -/
def putHeader (p : Pool) (h : Header) : Outcome Pool := do
  require (h.next.all fun next => h.entry.top ≤ next)
  return p.withHeaders p.first? (h :: p.headers.filter fun g => g.start != h.start)

/-- Let `previous`, or the head of the list if there is none, lead to `next`. -/
def link (p : Pool) (previous next : Option Nat) : Outcome Pool :=
  match previous with
  | none => .ok (p.withHeaders next p.headers)
  | some a => do
    require (next.all fun b => a < b)
    let h ← p.header a
    return p.withHeaders p.first? ({ h with next } :: p.headers.filter fun g => g.start != a)

/-! ## Realignment -/

/-- Does `prev`, or the head of the list if there is none, lead to `first`? -/
def leadsTo (p : Pool) (prev : Option Nat) (first : Nat) : Bool :=
  match prev with
  | none => p.first? == some first
  | some a => (p.header? a).any fun h => h.next == some first

/-- Put the predecessor in the cursor right, unless it leads to the first entry as it is. -/
def resumeCursor (p : Pool) : Outcome Pool :=
  match p.cursor with
  | .done => .ok p
  | .pending first prev =>
    if p.leadsTo prev first then .ok p
    else do
      p.walkBelow first
      let start := (p.entries.upFrom first).firstStart.or p.gap
      let cursor := start.elim .done fun a => .pending a (p.entries.predecessor first)
      return { p with cursor }

/-- Where a walk over headers stands: the header to look at and the one it came from, what became of
the last one realigned, and the bytes given up. -/
structure Thread where
  current : Option Nat
  previous : Option Nat
  kept : Option Nat := none
  lost : Nat := 0
  deriving DecidableEq, Repr

/-- The walk that goes on from the cursor. -/
def threadFrom : CardCursor → Thread
  | .done => ⟨none, none, none, 0⟩
  | .pending first prev => ⟨some first, prev, none, 0⟩

/-- Realign the header at `h`, to which `t.previous` leads. -/
def realignHeader (p : Pool) (h : Header) (t : Thread) : Outcome (Pool × Thread) := do
  discard h.entry.checkedTop
  match p.realigned h.entry with
  | none =>
    let p ← (p.dropHeader h.start).link t.previous h.next
    return (← p.accountRealigned h.entry,
      { t with current := h.next, kept := none, lost := t.lost + h.size })
  | some f =>
    let p ←
      if f = h.entry then pure p
      else do
        let p ← (p.dropHeader h.start).putHeader ⟨f.start, f.size, h.next⟩
        (← p.link t.previous (some f.start)).accountRealigned h.entry
    return (p, ⟨h.next, some f.start, some f.start, t.lost + (h.size - f.size)⟩)

/-- Realign every header up to `last` that the walk comes to. -/
def realignHeaders (last : Nat) : Nat → Pool → Thread → Outcome (Pool × Thread)
  | 0, _, _ => .error .brokenPromise
  | n + 1, p, t =>
    match t.current.filter fun a => a ≤ last with
    | none => .ok (p, t)
    | some a => do
      let (p, t) ← p.realignHeader (← p.header a) t
      realignHeaders last n p t

/-- Realign from the cursor up to `last`, and move the cursor behind it. Yields what became of the last
header realigned. -/
def alignTorn (p : Pool) (last : Nat) : Outcome (Pool × Option Nat) := do
  let p ← p.resumeCursor
  match p.cursor with
  | .done => return (p, some last)
  | .pending _ _ =>
    let (p, t) ← realignHeaders last (p.headers.length + 1) p (threadFrom p.cursor)
    let p ← p.chargeRealigned t.lost
    return ({ p with cursor := t.current.elim .done fun a => .pending a t.previous }, t.kept)

/-- A header reached by a walk, realigned if it waits for that. -/
def reachTorn (p : Pool) (a : Nat) : Outcome (Pool × Option Nat) :=
  if p.awaits a then p.alignTorn a else .ok (p, some a)

/-! ## Objects -/

/-- Go from header to header to one of at least `size` bytes. Yields it with the one before it. -/
def seek (size : Nat) :
    Nat → Pool → Walk → Thread → Outcome (Pool × Walk × Option (Header × Option Nat))
  | 0, _, _, _ => .error .brokenPromise
  | n + 1, p, w, t =>
    match t.current with
    | none => .ok (p, w, none)
    | some a => do
      match ← p.reachTorn a with
      | (p, none) => seek size n p (w.stepOver 0) (threadFrom p.cursor)
      | (p, some a) =>
        let h ← p.header a
        let w := w.see h.size
        if size ≤ h.size then return (p, w, some (h, t.previous))
        require (h.next.all fun b => a < b)
        seek size n p (w.stepOver h.size) { t with current := h.next, previous := some a }

/-- The entry before the header at `a`, if the walk that led there does not know it. -/
def findPrevious (p : Pool) (a : Nat) : Option Nat → Outcome (Option Nat)
  | some previous => .ok (some previous)
  | none => do
    if p.first? = some a then return none
    p.walkBelow a
    return p.entries.predecessor a

/-- Leave `[start, top)` in the place of a header that led to `next`: as a header of its own if it is
large enough, else reported. Yields whether it was kept. -/
def leaveRest (p : Pool) (start top : Nat) (previous next : Option Nat) : Outcome (Pool × Bool) := do
  require (next.all fun b => top ≤ b)
  if p.keeps (top - start) then
    let p ← p.putHeader ⟨start, top - start, next⟩
    return (← p.link previous (some start), true)
  else return (← (p.abandon start top).link previous next, false)

/-- Totals, cursor and hints after the rest of the header at `a` was left at `start` or dropped. -/
def countRest (p : Pool) (a start left : Nat) (kept : Bool) (previous next : Option Nat) :
    Outcome Pool := do
  if kept then
    let p := p.relinkCursor next (some start)
    { p with hints := p.hints.update a start }.countFree left
  else
    let p ← (p.relinkCursor next previous).debit left 1
    let p ← p.countDiscarded left
    return { p with hints := p.hints.remove a }

/-- Take `size` bytes off the front of the header `h`, to which `previous` leads. -/
def takeHeader (p : Pool) (h : Header) (previous : Option Nat) (size : Nat) (w : Walk)
    (hinted record : Bool) : Outcome Pool := do
  let p ← p.uncountFree h.size
  let p := { p with hints := w.leaveHint p.config hinted previous p.hints }
  let p ← p.debit size 0
  let p ← p.countAllocation size w.steps
  let top ← h.entry.checkedTop
  let start := h.start + size
  let (p, kept) ← (p.dropHeader h.start).leaveRest start top previous h.next
  let p ← p.countRest h.start start (top - start) kept previous h.next
  (← p.countObject size record).settle

/-- Place an object of `size` bytes in a torn pool. -/
def placeTorn (p : Pool) (size : Nat) (record : Bool) : Outcome (Pool × Walk × Option Nat) := do
  match ← seek size (p.headers.length + 1) p {} ⟨p.first?, none, none, 0⟩ with
  | (p, w, none) => return (p, w, none)
  | (p, w, some (h, previous)) =>
    let previous ← p.findPrevious h.start previous
    return (← p.takeHeader h previous size w false record, w, some h.start)

/-! ## Thread local blocks -/

/-- Drop the header at the head of the list, of which no usable block can be carved. -/
def dropHead (p : Pool) (h : Header) : Outcome Pool := do
  discard h.entry.checkedTop
  let p ← (p.abandon h.start h.entry.top).debit h.size 1
  let p ← p.countDiscarded h.size
  let p ← ((p.relinkCursor h.next none).dropHeader h.start).link none h.next
  return { p with hints := p.hints.remove h.start }

/-- Carve `taken` bytes off the header at the head of the list. -/
def carveHead (p : Pool) (h : Header) (taken : Nat) (record : Bool) : Outcome Pool := do
  let p ← p.debit taken 0
  let p ← p.countAllocation taken 0
  let p ← p.countBlock taken record
  let top ← h.entry.checkedTop
  let start := h.start + taken
  let p := p.dropHeader h.start
  let (p, kept) ←
    if start = top then do pure (← p.link none h.next, false)
    else p.leaveRest start top none h.next
  (← p.countRest h.start start (top - start) kept none h.next).settle

/-- Carve a block off the first header at the head of the list that yields one, dropping those that do
not. -/
def carveHeads (maximum : Nat) (record : Bool) : Nat → Pool → Outcome (Pool × Option Range)
  | 0, _ => .error .brokenPromise
  | n + 1, p =>
    match p.first? with
    | none => .ok (p, none)
    | some a => do
      match ← p.reachTorn a with
      | (p, none) => carveHeads maximum record n p
      | (p, some a) =>
        let h ← p.header a
        let p ← p.uncountFree h.size
        match ← p.blockSize h.entry maximum with
        | none => carveHeads maximum record n (← p.dropHead h)
        | some taken => return (← p.carveHead h taken record, some ⟨a, a + taken⟩)

/-- Carve a block in a torn pool. -/
def carveTorn (p : Pool) (maximum : Nat) (record : Bool) : Outcome (Pool × Option Range) :=
  carveHeads maximum record (2 * p.headers.length + 2) p

end FreeStore.Pool
