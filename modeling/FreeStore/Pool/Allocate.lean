import FreeStore.Pool.Insert
import FreeStore.Pool.Torn
/-!
Handing memory out.

An object is placed first fit, a thread local block is carved off the first entry. When the list has
nothing to offer the owner is asked for a refill, and the search is repeated if it grants one. That
happens at most once for every refill that the owner has in reserve, so the requests end.
-/
namespace FreeStore

/-- Who asks for memory. A collector is counted in the size histograms only if the pool is configured
so. -/
inductive Client where
  | mutator
  | collector
  deriving DecidableEq, Repr

/-- A request, and what the pool made of it. -/
structure Request where
  bytes : Nat := 0
  wasTlh : Bool := false
  wasNursery : Bool := false
  deriving DecidableEq, Repr

namespace Pool

def recordsFor (p : Pool) : Client → Bool
  | .mutator => true
  | .collector => p.config.appendCollectorStats

def reserve (p : Pool) : List Refill := p.subspace.elim [] Subspace.reserve

def setReserve (p : Pool) (reserve : List Refill) : Pool :=
  { p with subspace := p.subspace.map fun s => { s with reserve } }

/-- Take a refill's deliveries; `rest` stays in reserve. -/
def takeRefill (p : Pool) (refill : Refill) (rest : List Refill) : Outcome Pool :=
  refill.deliveries.foldlM deliver (p.setReserve rest)

/-! ## Objects -/

/-- Place an object with what the list has now. -/
def tryPlace (p : Pool) (size : Nat) (record : Bool) : Outcome (Pool × Walk × Option Nat) :=
  if p.isTorn then p.placeTorn size record else p.place size record

/-- Allocate with the given refills in reserve. -/
def allocateFrom (size : Nat) (record : Bool) : List Refill → Pool → Outcome (Pool × Option Nat)
  | reserve, p => do
    match ← p.tryPlace size record with
    | (p, _, some a) => return (p, some a)
    | (p, w, none) =>
      let p := p.report (.replenish size)
      match reserve with
      | [] => return ({ p with largest := w.largest }, none)
      | refill :: rest =>
        let p ← p.takeRefill refill rest
        if refill.answer then allocateFrom size record rest p
        else return ({ p with largest := w.largest }, none)

/-- Place an object of `request.bytes` bytes, first fit in address order. -/
def allocate (p : Pool) (client : Client) (request : Request) :
    Outcome (Pool × Request × Option Nat) := do
  match ← allocateFrom request.bytes (p.recordsFor client) p.reserve p with
  | (p, none) => return (p, request, none)
  | (p, some a) => return (p, ⟨request.bytes, false, p.isNursery⟩, some a)

/-! ## Thread local blocks -/

/-- Carve a block with what the list has now. -/
def tryCarve (p : Pool) (maximum : Nat) (record : Bool) : Outcome (Pool × Option Range) :=
  if p.isTorn then p.carveTorn maximum record else carve maximum record p.entries p

/-- Carve a block with the given refills in reserve. -/
def carveFrom (maximum : Nat) (record : Bool) :
    List Refill → Pool → Outcome (Pool × Option Range)
  | reserve, p => do
    match ← p.tryCarve maximum record with
    | (p, some block) => return (p, some block)
    | (p, none) =>
      let p := p.report (.replenish p.config.minEntry)
      match reserve with
      | [] => return ({ p with largest := 0 }, none)
      | refill :: rest =>
        let p ← p.takeRefill refill rest
        if refill.answer then carveFrom maximum record rest p
        else return ({ p with largest := 0 }, none)

/-- Hand out a thread local block of at most `maximum` bytes. -/
def allocateTlh (p : Pool) (client : Client) (request : Request) (maximum : Nat) :
    Outcome (Pool × Request × Option Range) := do
  match ← carveFrom maximum (p.recordsFor client) p.reserve p with
  | (p, none) => return (p, request, none)
  | (p, some block) => return (p, ⟨request.bytes, true, p.isNursery⟩, some block)

end Pool

end FreeStore
