import FreeStore.Proofs.Control
import FreeStore.Proofs.Extraction
import FreeStore.Proofs.Relocation
/-!
One step of a sound pool.

`handedIn` and `handedOut` are the ranges that cross the border of a pool during an operation: what callers
and the owner put in, and what they get. `perform_ends` is the law of a single operation, whichever it is:
the pool stays sound, and the bytes on its books are those of before, less what it handed out and more what
was handed in (`Booked`). Only emptying the pool as a whole lets bytes go without a report. No count overflows as
long as each has room for the bytes that are free and those that may go in meanwhile (`bytesIn`).
-/
namespace FreeStore

/-- Does the operation account for every free byte? -/
def Pool.Operation.conserves : Pool.Operation → Bool
  | .reset | .rebuild _ _ => false
  | _ => true

namespace Pool

/-- The refills that were used up from `p` to `q`. -/
def usedRefills (p q : Pool) : List Refill := p.reserve.take (p.reserve.length - q.reserve.length)

/-- The ranges that were put in by an operation that turned `p` into `q`. Where entries are moved to counts
as put in. -/
def handedIn (p q : Pool) : Operation → List Range
  | .allocate _ _ | .allocateTlh _ _ _ => (p.usedRefills q).flatMap Refill.ranges
  | .expand _ low high _ | .recycle low high | .rebuild low high => [⟨low, high⟩]
  | .add ranges => ranges
  | .move low high dst =>
    FreeList.ranges ((p.movedEntries ⟨low, high⟩).map (movedEntry ⟨low, high⟩ dst))
  | _ => []

/-- The ranges that an operation with this answer handed out. Where entries are moved from counts as handed
out. -/
def handedOut (p : Pool) : Operation → Answer → List Range
  | .contract _ low high, _ => [⟨low, high⟩]
  | .move low high _, _ => (p.movedEntries ⟨low, high⟩).ranges
  | _, .object request (some a) => [⟨a, a + request.bytes⟩]
  | _, .block _ (some block) => [block]
  | _, .removed (some removed) => removed.pieces
  | _, _ => []

/-- At most so many bytes go in during an operation. -/
def bytesIn (p : Pool) : Operation → Nat
  | .allocate _ _ | .allocateTlh _ _ _ => totalBytes (p.reserve.flatMap Refill.ranges)
  | .expand _ low high _ | .recycle low high => high - low
  | .add ranges => totalBytes ranges
  | _ => 0

/-- At most so often does an operation put something on the list that a pending realignment has still to visit. -/
def insertions (p : Pool) : Operation → Nat
  | .allocate _ _ | .allocateTlh _ _ _ => (p.reserve.flatMap Refill.deliveries).length
  | .expand _ _ _ _ | .recycle _ _ | .add _ | .contract _ _ _ => 1
  | _ => 0

/-- The books of `q` follow from those of `p` by what was handed in and out. -/
def Booked (p : Pool) (o : Operation) (q : Pool) (answer : Answer) : Prop :=
  ∀ a, Balances (p.isRecorded && o.conserves) (p.account a + cover (p.handedIn q o) a)
    (q.account a + cover (p.handedOut o answer) a)

variable {F : Fault → Prop} {p q : Pool} {o : Operation} {answer : Answer} {given taken : List Range}

theorem Effect.booked (h : Effect p q given taken) (hi : p.handedIn q o = given)
    (ho : p.handedOut o answer = taken) : p.Booked o q answer := by
  subst hi ho
  exact fun a => (h.ledger a).and_right

/-- The length of the reserve tells which refills were used up. -/
theorem Supplied.ledger (h : p.Supplied q taken) (a : Nat) : Balances p.isRecorded
    (p.account a + cover ((p.usedRefills q).flatMap Refill.ranges) a) (q.account a + cover taken a) := by
  obtain ⟨used, left, split, effect⟩ := h
  have kept : q.reserve = left := by
    have same : q.reserve = (p.setReserve left).reserve := by
      unfold Pool.reserve
      rw [effect.subspace]
    rw [same]
    cases hp : p.reserve with
    | nil =>
      obtain ⟨-, rfl⟩ := List.append_eq_nil_iff.1 (split.symm.trans hp)
      rw [← hp, setReserve_reserve]
    | cons refill rest => exact reserve_setReserve (by simp [hp])
  have first : p.usedRefills q = used := by
    unfold usedRefills
    rw [kept, split, List.length_append, Nat.add_sub_cancel_right, List.take_left]
  have recorded : (p.setReserve left).isRecorded = p.isRecorded := by
    unfold setReserve isRecorded
    cases p.subspace <;> rfl
  rw [first, ← recorded]
  exact effect.ledger a

/-! ## Operations -/

theorem allocate_ends (hF : F .counterOverflow ∨ p.RoomFor p.reserve) (h : p.Sound) {client : Client}
    {request : Request} (accepts : p.Accepts (.allocate client request)) :
    Ends F (p.perform (.allocate client request)) fun r =>
      r.1.Sound ∧ p.Booked (.allocate client request) r.1 r.2 := by
  simp only [perform, allocate, bind_assoc]
  refine (allocateFrom_ends hF h rfl accepts).bind ?_
  rintro ⟨q, got⟩ ⟨sound, supplied⟩
  cases got with
  | none => exact ⟨sound, fun a => (supplied.ledger a).and_right⟩
  | some block => exact ⟨sound, fun a => (supplied.ledger a).and_right⟩

theorem allocateTlh_ends (hF : F .counterOverflow ∨ p.RoomFor p.reserve) (h : p.Sound) {client : Client}
    {request : Request} {maximum : Nat} (accepts : p.Accepts (.allocateTlh client request maximum))
    (grid : (∀ f, f ≠ .counterOverflow → F f) ∨ p.AcceptsOnGrid (.allocateTlh client request maximum)) :
    Ends F (p.perform (.allocateTlh client request maximum)) fun r =>
      r.1.Sound ∧ p.Booked (.allocateTlh client request maximum) r.1 r.2 := by
  simp only [perform, allocateTlh, bind_assoc]
  refine (carveFrom_ends hF h rfl accepts grid).bind ?_
  rintro ⟨q, got⟩ ⟨sound, supplied⟩
  cases got with
  | none => exact ⟨sound, fun a => (supplied.ledger a).and_right⟩
  | some block => exact ⟨sound, fun a => (supplied.ledger a).and_right⟩

theorem move_ends (h : p.Sound) {low high dst : Nat} (fits : p.Accepts (.move low high dst))
    (carried : F .arithmetic ∨ p.StaysInRange (.move low high dst)) :
    Ends F (p.perform (.move low high dst)) fun r =>
      r.1.Sound ∧ p.Booked (.move low high dst) r.1 r.2 := by
  refine (moveHeap_ends h fits carried).bind ?_
  rintro q ⟨sound, effect⟩
  exact ⟨sound, effect.booked rfl rfl⟩

theorem remove_ends (h : p.Sound) {low high minimum : Nat} (le : low ≤ high)
    (room : F .arithmetic ∨ p.StaysInRange (.remove low high minimum)) :
    Ends F (p.perform (.remove low high minimum)) fun r =>
      r.1.Sound ∧ p.Booked (.remove low high minimum) r.1 r.2 := by
  refine (removeWithin_ends minimum h le room).bind ?_
  rintro ⟨q, removed⟩ pulled
  cases removed with
  | none => exact ⟨pulled.sound, pulled.effect.booked rfl rfl⟩
  | some removed => exact ⟨pulled.sound, pulled.effect.booked rfl rfl⟩

/-- Emptying a pool takes bytes off its books and puts none on. -/
theorem account_reset_le (a : Nat) : p.reset.account a ≤ p.account a :=
  Nat.add_le_add_right (Nat.zero_le _) _

theorem rebuild_booked (h : p.Sound) {low high : Nat} (hh : high < wordLimit) :
    Ends F (p.perform (.rebuild low high)) fun r =>
      r.1.Sound ∧ p.Booked (.rebuild low high) r.1 r.2 := by
  refine (rebuild_ends h hh).bind ?_
  rintro ⟨q, got⟩ ⟨sound, effect⟩
  refine ⟨sound, fun a => ⟨?_, by simp [Operation.conserves]⟩⟩
  exact Nat.le_trans (effect.ledger a).1 (Nat.add_le_add_right (account_reset_le a) _)

/-- A pool that is sound stays so, and its books follow. -/
theorem perform_ends (hF : F .counterOverflow ∨ p.HasRoom (p.bytesIn o) (p.insertions o)) (h : p.Sound)
    (accepts : p.Accepts o)
    (grid : (∀ f, f ≠ .counterOverflow → F f) ∨ p.AcceptsOnGrid o) (range : F .arithmetic ∨ p.StaysInRange o) :
    Ends F (p.perform o) fun r => r.1.Sound ∧ p.Booked o r.1 r.2 := by
  cases o with
  | allocate client request => exact allocate_ends hF h accepts
  | allocateTlh client request maximum => exact allocateTlh_ends hF h accepts grid
  | expand size low high coalesce =>
    obtain ⟨rfl, fits⟩ := accepts
    apply (expand_ends (hF.imp_right HasRoom.noted) h fits coalesce).bind
    rintro q ⟨delivered, -⟩
    exact ⟨delivered.sound, delivered.effect.booked rfl rfl⟩
  | contract size low high =>
    obtain ⟨rfl, fits⟩ := accepts
    refine (contract_ends (hF.imp_right HasRoom.noted) h fits).bind ?_
    rintro ⟨q, got⟩ ⟨sound, effect⟩
    exact ⟨sound, effect.booked rfl rfl⟩
  | add ranges =>
    apply (addEntries_ends (hF.imp_right HasRoom.noted) h accepts).bind
    rintro q ⟨delivered, -⟩
    exact ⟨delivered.sound, delivered.effect.booked rfl rfl⟩
  | recycle low high =>
    apply (recycle_ends (hF.imp_right HasRoom.noted) h accepts).bind
    rintro r ⟨delivered, -⟩
    exact ⟨delivered.sound, delivered.effect.booked rfl rfl⟩
  | remove low high minimum => exact remove_ends h accepts range
  | move low high dst => exact move_ends h accepts range
  | reset => exact ⟨sound_reset h, fun a => ⟨account_reset_le a, by simp [Operation.conserves]⟩⟩
  | rebuild low high => exact rebuild_booked h accepts
  | requestCardAlignment =>
    refine (requestCardAlignment_ends h).bind ?_
    rintro ⟨q, loss⟩ ⟨sound, effect⟩
    exact ⟨sound, effect.booked rfl rfl⟩
  | toggleSweepGrid enabled =>
    have same := account_toggleSweepGrid p enabled
    exact ⟨sound_toggleSweepGrid h, fun a => .of_eq (same a).symm⟩
  | setSubspace subspace => exact ⟨h.regardless .., fun _ => .rfl⟩
  | recalculate =>
    refine (recalculate_ends h).bind ?_
    rintro q ⟨sound, effect⟩
    exact ⟨sound, effect.booked rfl rfl⟩

end Pool

end FreeStore
