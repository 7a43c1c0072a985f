import FreeStore.Pool.Run
/-!
What an operation may be asked for.

Each operation of a pool has preconditions on its arguments that the caller promises. `Accepts` states
them: a range that is put in is not empty and meets no free entry, what is kept of a batch is in order and lies
in one gap of the list, a range that is cut out lies in one entry, and entries that are moved stay in order and
apart. What the owner of the heap delivers while an allocation waits for it must meet the same conditions
at the moment of delivery.

Further conditions concern the address space. Carving on a sweep grid takes the chunk boundary above an
entry (`OnGrid`), moving the heap takes the cursor along (`CarriesCursor`), and an entry out of which an
empty range is pulled leaves two behind (`RoomToSplit`).
-/
namespace FreeStore

/-- The lowest chunk boundary above `a`. -/
def SweepGrid.boundaryAbove (g : SweepGrid) (a : Nat) : Nat := a + (g.chunk - (a - g.base) % g.chunk)

/-- The ranges that a delivery puts in. -/
def Delivery.ranges : Delivery → List Range
  | .expand low high _ | .recycle low high => [⟨low, high⟩]
  | .add ranges => ranges

/-- The addresses that a pending cursor holds. -/
def CardCursor.addresses : CardCursor → List Nat
  | .done => []
  | .pending first prev => first :: prev.toList

namespace Pool

/-- `[low, high)` is not empty, and no free entry overlaps it. -/
structure Insertable (p : Pool) (low high : Nat) : Prop where
  nonempty : low < high
  inside : high < wordLimit
  clear : ∀ e ∈ p.entries, e.top ≤ low ∨ high ≤ e.start

/-- The ranges can each be inserted and do not overlap, and those that become entries are in order and lie
in one gap of the list. -/
structure BatchFits (p : Pool) (ranges : List Range) : Prop where
  insertable : ∀ r ∈ ranges, p.Insertable r.low r.high
  apart : ranges.Pairwise fun r s => r.high ≤ s.low ∨ s.high ≤ r.low
  ordered : (p.batchOf ranges).Pairwise fun e f => e.top ≤ f.start
  oneGap : ∀ e ∈ p.entries,
    (∀ f ∈ p.batchOf ranges, e.top ≤ f.start) ∨ ∀ f ∈ p.batchOf ranges, f.top ≤ e.start

/-- `[low, high)` lies in one free entry, unless it is empty. -/
structure Enclosed (p : Pool) (low high : Nat) : Prop where
  le : low ≤ high
  enclosing : low < high → ∃ e ∈ p.entries, encloses low high e

/-- An entry as it is after `source` was moved to `dst`. -/
def movedEntry (source : Range) (dst : Nat) (e : Entry) : Entry :=
  if source.contains e.start then ⟨dst + (e.start - source.low), e.size⟩ else e

/-- The entries that a move takes along. -/
def movedEntries (p : Pool) (source : Range) : FreeList :=
  p.entries.filter fun e => source.contains e.start

/-- If an empty range is pulled out of the inside of an entry, the number of entries stays a word. -/
def RoomToSplit (p : Pool) (low high : Nat) : Prop :=
  low = high → (∃ e ∈ p.entries, e.start < low ∧ low < e.top) → p.entryCount + 2 < wordLimit

/-- If the move takes entries along, it keeps the addresses in the cursor inside the address space too. -/
def CarriesCursor (p : Pool) (low high dst : Nat) : Prop :=
  (∃ e ∈ p.entries, Range.contains ⟨low, high⟩ e.start) →
    ∀ a ∈ p.cursor.addresses, Range.contains ⟨low, high⟩ a → dst + (a - low) < wordLimit

/-- After the move the entries are still in the same order, apart, and inside the address space. -/
def MoveFits (p : Pool) (source : Range) (dst : Nat) : Prop :=
  (p.entries.map (movedEntry source dst)).Pairwise (fun e f => e.top ≤ f.start) ∧
    ∀ e ∈ p.entries.map (movedEntry source dst), e.top < wordLimit

/-! ## Deliveries -/

def DeliveryFits (p : Pool) : Delivery → Prop
  | .expand low high _ => p.Insertable low high
  | .recycle low high => p.Insertable low high
  | .add ranges => p.BatchFits ranges

/-- Each delivery meets its conditions at the pool that the deliveries before it left. -/
def DeliveriesFit : Pool → List Delivery → Prop
  | _, [] => True
  | p, d :: ds => p.DeliveryFits d ∧ ∀ q ∈ (p.deliver d).toOption, DeliveriesFit q ds

/-- The pool at which the owner is asked because no entry of `p` has room for an object. -/
def askForObject (size : Nat) (record : Bool) (p : Pool) : Option Pool :=
  match p.tryPlace size record with
  | .ok (q, _, none) => some (q.report (.replenish size))
  | _ => none

/-- The pool at which the owner is asked because no entry of `p` yields a block. -/
def askForBlock (maximum : Nat) (record : Bool) (p : Pool) : Option Pool :=
  match p.tryCarve maximum record with
  | .ok (q, none) => some (q.report (.replenish q.config.minEntry))
  | _ => none

/-- Every pool from which a request starts, at first or after a refill, is `ready`, and what the owner
delivers on being asked meets its conditions. -/
def RefillsFit (ask : Pool → Option Pool) (ready : Pool → Prop) : List Refill → Pool → Prop
  | [], p => ready p
  | refill :: rest, p => ready p ∧ ∀ q ∈ ask p,
      DeliveriesFit (q.setReserve rest) refill.deliveries ∧
        ∀ r ∈ (q.takeRefill refill rest).toOption, refill.answer = true →
          RefillsFit ask ready rest r

/-! ## Operations -/

/-- The arguments of the operation meet its preconditions. -/
def Accepts (p : Pool) : Operation → Prop
  | .allocate client request =>
    RefillsFit (askForObject request.bytes (p.recordsFor client)) (fun _ => True) p.reserve p
  | .allocateTlh client _ maximum =>
    RefillsFit (askForBlock maximum (p.recordsFor client)) (fun _ => True) p.reserve p
  | .expand size low high _ => size = high - low ∧ p.Insertable low high
  | .contract size low high => size = high - low ∧ p.Enclosed low high
  | .add ranges => p.BatchFits ranges
  | .recycle low high => p.Insertable low high
  | .remove low high _ => low ≤ high
  | .move low high dst => p.MoveFits ⟨low, high⟩ dst
  | .rebuild _ high => high < wordLimit
  | .reset | .requestCardAlignment | .toggleSweepGrid _ | .setSubspace _
  | .recalculate => True

/-- On a sweep grid, none of the entries `l` lies below the base, and the chunk in which an entry or its
card aligned core starts ends inside the address space. -/
def FitsGrid (p : Pool) (l : FreeList) : Prop :=
  ∀ g ∈ p.sweepGrid, ∀ e ∈ l, g.base ≤ e.start ∧ g.boundaryAbove e.start < wordLimit ∧
    ∀ f ∈ p.realigned e, g.boundaryAbove f.start < wordLimit

def OnGrid (p : Pool) : Prop := p.FitsGrid p.entries

/-- Blocks are carved only on the grid. -/
def AcceptsOnGrid (p : Pool) : Operation → Prop
  | .allocateTlh client _ maximum =>
    RefillsFit (askForBlock maximum (p.recordsFor client)) OnGrid p.reserve p
  | _ => True

/-- Nothing that the operation computes leaves the address space. -/
def StaysInRange (p : Pool) : Operation → Prop
  | .move low high dst => p.CarriesCursor low high dst
  | .remove low high _ => p.RoomToSplit low high
  | _ => True

/-- The condition holds of every operation of a run, at the pool that the operations before it left. -/
def Throughout (condition : Pool → Operation → Prop) : Pool → List Operation → Prop
  | _, [] => True
  | p, o :: os => condition p.nextStep o ∧
      ∀ r ∈ (p.step o).toOption, Throughout condition r.1 os

/-! ## Deciding -/

section

variable {p : Pool} {low high dst : Nat} {ranges : List Range}

instance : Decidable (p.Insertable low high) :=
  decidable_of_iff (low < high ∧ high < wordLimit ∧ ∀ e ∈ p.entries, e.top ≤ low ∨ high ≤ e.start)
    ⟨fun ⟨nonempty, inside, clear⟩ => ⟨nonempty, inside, clear⟩, fun h => ⟨h.1, h.2, h.3⟩⟩

instance : Decidable (p.BatchFits ranges) :=
  decidable_of_iff ((∀ r ∈ ranges, p.Insertable r.low r.high) ∧
      ranges.Pairwise (fun r s => r.high ≤ s.low ∨ s.high ≤ r.low) ∧
      (p.batchOf ranges).Pairwise (fun e f => e.top ≤ f.start) ∧
      ∀ e ∈ p.entries,
        (∀ f ∈ p.batchOf ranges, e.top ≤ f.start) ∨ ∀ f ∈ p.batchOf ranges, f.top ≤ e.start)
    ⟨fun ⟨insertable, apart, ordered, oneGap⟩ => ⟨insertable, apart, ordered, oneGap⟩,
      fun h => ⟨h.1, h.2, h.3, h.4⟩⟩

instance : Decidable (p.Enclosed low high) :=
  decidable_of_iff (low ≤ high ∧ (low < high → ∃ e ∈ p.entries, encloses low high e))
    ⟨fun ⟨le, enclosing⟩ => ⟨le, enclosing⟩, fun h => ⟨h.1, h.2⟩⟩

instance : Decidable (p.CarriesCursor low high dst) := inferInstanceAs (Decidable (_ → _))

instance : Decidable (p.RoomToSplit low high) := inferInstanceAs (Decidable (_ → _ → _))

instance {source : Range} : Decidable (p.MoveFits source dst) := inferInstanceAs (Decidable (_ ∧ _))

instance {l : FreeList} : Decidable (p.FitsGrid l) := inferInstanceAs (Decidable (∀ g ∈ p.sweepGrid, _))

instance : DecidablePred OnGrid := fun p => inferInstanceAs (Decidable (p.FitsGrid p.entries))

instance : ∀ d, Decidable (p.DeliveryFits d)
  | .expand low high _ => inferInstanceAs (Decidable (p.Insertable low high))
  | .recycle low high => inferInstanceAs (Decidable (p.Insertable low high))
  | .add ranges => inferInstanceAs (Decidable (p.BatchFits ranges))

instance decidableDeliveriesFit : ∀ (p : Pool) (ds : List Delivery), Decidable (DeliveriesFit p ds)
  | _, [] => .isTrue trivial
  | p, d :: ds =>
    have := fun q => decidableDeliveriesFit q ds
    inferInstanceAs (Decidable (p.DeliveryFits d ∧ ∀ q ∈ (p.deliver d).toOption, DeliveriesFit q ds))

instance decidableRefillsFit (ask : Pool → Option Pool) (ready : Pool → Prop) [DecidablePred ready] :
    ∀ (reserve : List Refill) (p : Pool), Decidable (RefillsFit ask ready reserve p)
  | [], p => inferInstanceAs (Decidable (ready p))
  | refill :: rest, p =>
    have := decidableRefillsFit ask ready rest
    inferInstanceAs (Decidable (ready p ∧ ∀ q ∈ ask p,
      DeliveriesFit (q.setReserve rest) refill.deliveries ∧
        ∀ r ∈ (q.takeRefill refill rest).toOption, refill.answer = true →
          RefillsFit ask ready rest r))

instance : ∀ o, Decidable (p.Accepts o)
  | .allocate _ _ | .allocateTlh _ _ _ => inferInstanceAs (Decidable (RefillsFit _ _ _ _))
  | .expand _ low high _ => inferInstanceAs (Decidable (_ ∧ p.Insertable low high))
  | .contract _ low high => inferInstanceAs (Decidable (_ ∧ p.Enclosed low high))
  | .add ranges => inferInstanceAs (Decidable (p.BatchFits ranges))
  | .recycle low high => inferInstanceAs (Decidable (p.Insertable low high))
  | .remove low high _ => inferInstanceAs (Decidable (low ≤ high))
  | .move low high dst => inferInstanceAs (Decidable (p.MoveFits ⟨low, high⟩ dst))
  | .rebuild _ high => inferInstanceAs (Decidable (high < wordLimit))
  | .reset | .requestCardAlignment | .toggleSweepGrid _ | .setSubspace _ | .recalculate =>
    .isTrue trivial

instance : ∀ o, Decidable (p.AcceptsOnGrid o)
  | .allocateTlh _ _ _ => inferInstanceAs (Decidable (RefillsFit _ OnGrid _ _))
  | .allocate _ _ | .expand _ _ _ _ | .contract _ _ _ | .add _ | .recycle _ _ | .remove _ _ _
  | .move _ _ _ | .rebuild _ _ | .reset | .requestCardAlignment | .toggleSweepGrid _ | .setSubspace _
  | .recalculate => .isTrue trivial

instance : ∀ o, Decidable (p.StaysInRange o)
  | .move low high dst => inferInstanceAs (Decidable (p.CarriesCursor low high dst))
  | .remove low high _ => inferInstanceAs (Decidable (p.RoomToSplit low high))
  | .allocate _ _ | .allocateTlh _ _ _ | .expand _ _ _ _ | .contract _ _ _ | .add _ | .recycle _ _
  | .rebuild _ _ | .reset | .requestCardAlignment | .toggleSweepGrid _ | .setSubspace _
  | .recalculate => .isTrue trivial

instance decidableThroughout (condition : Pool → Operation → Prop)
    [∀ p o, Decidable (condition p o)] :
    ∀ (p : Pool) (os : List Operation), Decidable (Throughout condition p os)
  | _, [] => .isTrue trivial
  | p, o :: os =>
    have := fun q => decidableThroughout condition q os
    inferInstanceAs (Decidable (condition p.nextStep o ∧
      ∀ r ∈ (p.step o).toOption, Throughout condition r.1 os))

end

end Pool

end FreeStore
