import FreeStore.Proofs.Reachable
import FreeStore.Proofs.Waiting
/-!
What happens to the list in a run of insertions and allocations.

A request is more than one step where the owner refills the pool: the list is searched, the owner puts
ranges in, the list is searched again. A `History` is the row of what really happened: blocks were handed
out, searches missed, ranges were inserted, by a caller or by the owner, and the owner's side of the books
was kept. Every run of insertions and allocations has one (`run_history`), so what holds of every
history holds of every run, with any refills.
-/
namespace FreeStore

namespace Pool

/-- What happens to the list between two pools. -/
inductive Move where
  | hand (block : Range)
  /-- a search for an object, or for a thread local block, found nothing -/
  | miss (object : Bool)
  | insert (d : Delivery)
  /-- nothing to the list, but the owner was told something, or used a refill up -/
  | owner
  deriving DecidableEq, Repr

/-- The move leads from the first pool to the second one. -/
inductive Leads : Move → Pool → Pool → Prop
  | place {p q : Pool} {size : Nat} {record : Bool} {w : Walk} {a : Nat}
      (done : p.tryPlace size record = .ok (q, w, some a)) : Leads (.hand ⟨a, a + size⟩) p q
  | carve {p q : Pool} {maximum : Nat} {record : Bool} {block : Range}
      (done : p.tryCarve maximum record = .ok (q, some block)) : Leads (.hand block) p q
  | noPlace {p q : Pool} {size : Nat} {record : Bool} {w : Walk}
      (done : p.tryPlace size record = .ok (q, w, none)) : Leads (.miss true) p q
  | noBlock {p q : Pool} {maximum : Nat} {record : Bool}
      (done : p.tryCarve maximum record = .ok (q, none)) : Leads (.miss false) p q
  | insert {p q : Pool} {d : Delivery} (fits : p.DeliveryFits d) (done : p.deliver d = .ok q) :
      Leads (.insert d) p q
  | owner {p q : Pool}
      (same : q = { p with largest := q.largest, subspace := q.subspace, events := q.events }) :
      Leads .owner p q

/-! ## What a move does -/

section

variable {R : Pool → Pool → Prop} {p q : Pool} {block : Range} {object : Bool} {d : Delivery}

/-- A block is taken off an entry that does not wait. -/
theorem Leads.hands (l : Leads (.hand block) p q) (K : Keeps R) (h : p.Sound) : Hands R p block q := by
  cases l with
  | place done =>
    rw [tryPlace_eq h] at done
    exact ((place_keeps K h).of_ok done).2.2 _ rfl
  | carve done =>
    rw [tryCarve_eq h] at done
    exact ((carve_keeps K h rfl).of_ok done).2.2 _ rfl

/-- After a miss for an object no entry waits. -/
theorem Leads.misses (l : Leads (.miss object) p q) (K : Keeps R) (h : p.Sound) :
    q.Sound ∧ R p q ∧ (object = true → q.WaitsIn []) := by
  cases l with
  | noPlace done =>
    rw [tryPlace_eq h] at done
    obtain ⟨sound, missed, -⟩ := (place_keeps K h).of_ok done
    exact ⟨sound, (missed rfl).1, fun _ => (missed rfl).2⟩
  | noBlock done =>
    rw [tryCarve_eq h] at done
    obtain ⟨sound, missed, -⟩ := (carve_keeps K h rfl).of_ok done
    exact ⟨sound, missed rfl, fun object => by cases object⟩

theorem Leads.delivered (l : Leads (.insert d) p q) (h : p.Sound) : p.Delivered d.ranges q := by
  cases l with
  | insert fits done => exact ((deliver_ends (F := fun _ => True) (.inl trivial) h fits).of_ok done).1

theorem Leads.owned (l : Leads .owner p q) (h : p.Sound) :
    q.Sound ∧ p.Steady q ∧ q.entries = p.entries := by
  cases l with
  | owner same =>
    rw [same]
    exact ⟨h.regardless .., ⟨rfl, rfl, rfl, rfl⟩, rfl⟩

end

/-- The moves of a run, each with the pool it led to. Every insertion meets the condition. -/
inductive History (condition : Pool → Delivery → Prop) : Pool → List (Move × Pool) → Pool → Prop
  | nil {p : Pool} : History condition p [] p
  | cons {p q r : Pool} {m : Move} {moves : List (Move × Pool)} (first : Leads m p q)
      (allowed : ∀ d, m = .insert d → condition p d) (rest : History condition q moves r) :
      History condition p ((m, q) :: moves) r

/-- The blocks that were handed out, in order. -/
def blocks (moves : List (Move × Pool)) : List Range :=
  moves.filterMap fun
    | (.hand block, _) => some block
    | _ => none

/-- The block that is handed out with an answer. -/
def Answer.handed : Answer → List Range
  | .object request (some a) => [⟨a, a + request.bytes⟩]
  | .block _ (some taken) => [taken]
  | _ => []

/-- Does the operation only put memory in, or allocate? -/
def Operation.supplies : Operation → Bool
  | .allocate _ _ | .allocateTlh _ _ _ | .expand _ _ _ _ | .add _ | .recycle _ _ => true
  | _ => false

/-! ## Conditions on insertions -/

/-- The condition holds of each delivery, at the pool that the deliveries before it left. -/
def EachDelivery (condition : Pool → Delivery → Prop) : Pool → List Delivery → Prop
  | _, [] => True
  | p, d :: ds => condition p d ∧ ∀ q ∈ (p.deliver d).toOption, EachDelivery condition q ds

/-- The condition holds of all that the owner delivers during a request. -/
def EachRefill (condition : Pool → Delivery → Prop) (ask : Pool → Option Pool) :
    List Refill → Pool → Prop
  | [], _ => True
  | refill :: rest, p => ∀ q ∈ ask p,
      EachDelivery condition (q.setReserve rest) refill.deliveries ∧
        ∀ r ∈ (q.takeRefill refill rest).toOption, refill.answer = true →
          EachRefill condition ask rest r

/-- The condition holds of every insertion that the operation makes. -/
def Inserts (condition : Pool → Delivery → Prop) (p : Pool) : Operation → Prop
  | .allocate client request =>
    EachRefill condition (askForObject request.bytes (p.recordsFor client)) p.reserve p
  | .allocateTlh client _ maximum =>
    EachRefill condition (askForBlock maximum (p.recordsFor client)) p.reserve p
  | .expand _ low high coalesce => condition p (.expand low high coalesce)
  | .add ranges => condition p (.add ranges)
  | .recycle low high => condition p (.recycle low high)
  | _ => True

section

variable {condition : Pool → Delivery → Prop} [∀ p d, Decidable (condition p d)]

instance decidableEachDelivery : ∀ (p : Pool) (ds : List Delivery),
    Decidable (EachDelivery condition p ds)
  | _, [] => .isTrue trivial
  | p, d :: ds =>
    have := fun q => decidableEachDelivery q ds
    inferInstanceAs (Decidable (condition p d ∧
      ∀ q ∈ (p.deliver d).toOption, EachDelivery condition q ds))

instance decidableEachRefill (ask : Pool → Option Pool) : ∀ (reserve : List Refill) (p : Pool),
    Decidable (EachRefill condition ask reserve p)
  | [], _ => .isTrue trivial
  | refill :: rest, p =>
    have := decidableEachRefill ask rest
    inferInstanceAs (Decidable (∀ q ∈ ask p,
      EachDelivery condition (q.setReserve rest) refill.deliveries ∧
        ∀ r ∈ (q.takeRefill refill rest).toOption, refill.answer = true →
          EachRefill condition ask rest r))

instance {p : Pool} : ∀ o, Decidable (p.Inserts condition o)
  | .allocate _ _ | .allocateTlh _ _ _ => inferInstanceAs (Decidable (EachRefill _ _ _ _))
  | .expand _ _ _ _ | .add _ | .recycle _ _ => inferInstanceAs (Decidable (condition _ _))
  | .contract _ _ _ | .remove _ _ _ | .move _ _ _ | .reset | .rebuild _ _ | .requestCardAlignment
  | .toggleSweepGrid _ | .setSubspace _ | .recalculate => .isTrue trivial

end

/-! ## Runs have histories -/

variable {condition : Pool → Delivery → Prop} {p q r : Pool} {size maximum : Nat} {record : Bool}
  {reserve : List Refill} {moves moves' : List (Move × Pool)}

theorem History.append (h : History condition p moves q) (g : History condition q moves' r) :
    History condition p (moves ++ moves') r := by
  induction h with
  | nil => exact g
  | cons first allowed _ ih => exact .cons first allowed (ih g)

theorem blocks_append : blocks (moves ++ moves') = blocks moves ++ blocks moves' :=
  List.filterMap_append

theorem History.owner (same : q = { p with
    largest := q.largest, subspace := q.subspace, events := q.events }) :
    History condition p [(.owner, q)] q :=
  .cons (.owner same) (fun _ h => by cases h) .nil

/-- What a request comes to: the blocks of a history, and a miss in it if there is none. -/
structure Explains (condition : Pool → Delivery → Prop) (p : Pool) (moves : List (Move × Pool))
    (q : Pool) (got : List Range) (object : Bool) : Prop where
  history : History condition p moves q
  handed : blocks moves = got
  missed : got = [] → ∃ r, (.miss object, r) ∈ moves

theorem history_of_deliveries {ds : List Delivery} (fits : DeliveriesFit p ds)
    (allowed : EachDelivery condition p ds) (done : ds.foldlM deliver p = .ok q) :
    ∃ moves, History condition p moves q ∧ blocks moves = [] := by
  induction ds generalizing p with
  | nil =>
    obtain rfl := Except.ok.inj done
    exact ⟨[], .nil, rfl⟩
  | cons d ds ih =>
    rw [List.foldlM_cons] at done
    obtain ⟨mid, delivered, others⟩ := bind_eq_ok.1 done
    have found := mem_toOption.2 delivered
    obtain ⟨moves, history, none⟩ := ih (fits.2 mid found) (allowed.2 mid found) others
    refine ⟨(.insert d, mid) :: moves, .cons (.insert fits.1 delivered) ?_ history, none⟩
    rintro _ ⟨⟩
    exact allowed.1

theorem Explains.of_hand {block : Range} (first : Leads (.hand block) p q) (object : Bool) :
    p.Explains condition [(.hand block, q)] q [block] object :=
  ⟨.cons first (fun _ h => by cases h) .nil, rfl, fun h => by cases h⟩

/-- The owner was asked, and had nothing in reserve. -/
theorem Explains.of_miss {object : Bool} {e : PoolEvent} {largest : Nat}
    (first : Leads (.miss object) p q) : p.Explains condition
      [(.miss object, q), (.owner, { q.report e with largest })] { q.report e with largest } [] object :=
  ⟨.cons first (fun _ h => by cases h) (.owner rfl), rfl, fun _ => ⟨q, List.mem_cons_self⟩⟩

/-- A search that missed, and the refill that it was answered with. -/
theorem Explains.of_refill {object : Bool} {refill : Refill} {rest : List Refill} {e : PoolEvent}
    (first : Leads (.miss object) p q)
    (fits : DeliveriesFit ((q.report e).setReserve rest) refill.deliveries)
    (allowed : EachDelivery condition ((q.report e).setReserve rest) refill.deliveries)
    (done : (q.report e).takeRefill refill rest = .ok r) :
    ∃ moves, p.Explains condition moves r [] object := by
  obtain ⟨moves, history, none⟩ := history_of_deliveries fits allowed done
  have told : History condition q [(.owner, (q.report e).setReserve rest)] _ := .owner rfl
  exact ⟨(.miss object, q) :: (.owner, (q.report e).setReserve rest) :: moves,
    .cons first (fun _ h => by cases h) (told.append history), none, fun _ => ⟨q, List.mem_cons_self⟩⟩

/-- A request goes on after a miss. -/
theorem Explains.append {got : List Range} {object : Bool} (h : p.Explains condition moves q [] object)
    (g : History condition q moves' r) (handed : blocks moves' = got) :
    p.Explains condition (moves ++ moves') r got object := by
  refine ⟨h.history.append g, by rw [blocks_append, h.handed, handed, List.nil_append], fun _ => ?_⟩
  obtain ⟨s, hs⟩ := h.missed rfl
  exact ⟨s, List.mem_append_left _ hs⟩

theorem allocateFrom_history {got : Option Nat}
    (fits : RefillsFit (askForObject size record) (fun _ => True) reserve p)
    (allowed : EachRefill condition (askForObject size record) reserve p)
    (done : allocateFrom size record reserve p = .ok (q, got)) :
    ∃ moves, p.Explains condition moves q (got.elim [] fun a => [⟨a, a + size⟩]) true := by
  induction reserve generalizing p with
  | nil =>
    rw [allocateFrom] at done
    obtain ⟨⟨mid, w, found⟩, placed, done⟩ := bind_eq_ok.1 done
    cases found with
    | some a =>
      obtain ⟨rfl, rfl⟩ := Prod.mk.inj (Except.ok.inj done)
      exact ⟨_, .of_hand (.place placed) true⟩
    | none =>
      obtain ⟨rfl, rfl⟩ := Prod.mk.inj (Except.ok.inj done)
      exact ⟨_, .of_miss (.noPlace placed)⟩
  | cons refill rest ih =>
    rw [allocateFrom] at done
    obtain ⟨⟨mid, w, found⟩, placed, done⟩ := bind_eq_ok.1 done
    cases found with
    | some a =>
      obtain ⟨rfl, rfl⟩ := Prod.mk.inj (Except.ok.inj done)
      exact ⟨_, .of_hand (.place placed) true⟩
    | none =>
      have asks : mid.report (.replenish size) ∈ askForObject size record p := askForObject_eq placed
      obtain ⟨filled, taken, done⟩ := bind_eq_ok.1 done
      obtain ⟨deliveries, next⟩ := fits.2 _ asks
      obtain ⟨allowed, nextAllowed⟩ := allowed _ asks
      obtain ⟨moves, missed⟩ := Explains.of_refill (.noPlace placed) deliveries allowed taken
      have found := mem_toOption.2 taken
      split at done
      · rename_i granted
        obtain ⟨moves', again⟩ := ih (next _ found granted) (nextAllowed _ found granted) done
        exact ⟨_, missed.append again.history again.handed⟩
      · obtain ⟨rfl, rfl⟩ := Prod.mk.inj (Except.ok.inj done)
        exact ⟨_, missed.append (.owner rfl) rfl⟩

theorem carveFrom_history {got : Option Range}
    (fits : RefillsFit (askForBlock maximum record) (fun _ => True) reserve p)
    (allowed : EachRefill condition (askForBlock maximum record) reserve p)
    (done : carveFrom maximum record reserve p = .ok (q, got)) :
    ∃ moves, p.Explains condition moves q got.toList false := by
  induction reserve generalizing p with
  | nil =>
    rw [carveFrom] at done
    obtain ⟨⟨mid, found⟩, carved, done⟩ := bind_eq_ok.1 done
    cases found with
    | some block =>
      obtain ⟨rfl, rfl⟩ := Prod.mk.inj (Except.ok.inj done)
      exact ⟨_, .of_hand (.carve carved) false⟩
    | none =>
      obtain ⟨rfl, rfl⟩ := Prod.mk.inj (Except.ok.inj done)
      exact ⟨_, .of_miss (.noBlock carved)⟩
  | cons refill rest ih =>
    rw [carveFrom] at done
    obtain ⟨⟨mid, found⟩, carved, done⟩ := bind_eq_ok.1 done
    cases found with
    | some block =>
      obtain ⟨rfl, rfl⟩ := Prod.mk.inj (Except.ok.inj done)
      exact ⟨_, .of_hand (.carve carved) false⟩
    | none =>
      have asks : mid.report (.replenish mid.config.minEntry) ∈ askForBlock maximum record p :=
        askForBlock_eq carved
      obtain ⟨filled, taken, done⟩ := bind_eq_ok.1 done
      obtain ⟨deliveries, next⟩ := fits.2 _ asks
      obtain ⟨allowed, nextAllowed⟩ := allowed _ asks
      obtain ⟨moves, missed⟩ := Explains.of_refill (.noBlock carved) deliveries allowed taken
      have found := mem_toOption.2 taken
      split at done
      · rename_i granted
        obtain ⟨moves', again⟩ := ih (next _ found granted) (nextAllowed _ found granted) done
        exact ⟨_, missed.append again.history again.handed⟩
      · obtain ⟨rfl, rfl⟩ := Prod.mk.inj (Except.ok.inj done)
        exact ⟨_, missed.append (.owner rfl) rfl⟩

/-- An insertion on its own. -/
theorem history_of_insertion {d : Delivery} (fits : p.DeliveryFits d) (allowed : condition p d)
    (done : p.deliver d = .ok q) :
    ∃ moves, History condition p moves q ∧ blocks moves = [] := by
  refine ⟨[(.insert d, q)], .cons (.insert fits done) ?_ .nil, rfl⟩
  rintro _ ⟨⟩
  exact allowed

/-- A step that puts memory in, or allocates, is a history of what it handed out. -/
theorem perform_history {o : Operation} {answer : Answer} (supplies : o.supplies = true)
    (accepts : p.Accepts o) (allowed : p.Inserts condition o) (done : p.perform o = .ok (q, answer)) :
    ∃ moves, History condition p moves q ∧ blocks moves = answer.handed ∧
      ∀ request, answer = .object request none → ∃ r, (.miss true, r) ∈ moves := by
  cases o with
  | allocate client request =>
    obtain ⟨⟨mid, asked, got⟩, allocated, done⟩ := bind_eq_ok.1 done
    obtain ⟨rfl, rfl⟩ := Prod.mk.inj (Except.ok.inj done)
    obtain ⟨⟨last, found⟩, searched, allocated⟩ := bind_eq_ok.1 allocated
    obtain ⟨moves, explains⟩ := allocateFrom_history accepts allowed searched
    cases found with
    | none =>
      obtain ⟨rfl, rfl, rfl⟩ : _ ∧ _ ∧ _ := by simpa using Except.ok.inj allocated
      exact ⟨moves, explains.history, explains.handed, fun _ _ => explains.missed rfl⟩
    | some a =>
      obtain ⟨rfl, rfl, rfl⟩ : _ ∧ _ ∧ _ := by simpa using Except.ok.inj allocated
      exact ⟨moves, explains.history, explains.handed, fun _ h => by cases h⟩
  | allocateTlh client request maximum =>
    obtain ⟨⟨mid, asked, got⟩, allocated, done⟩ := bind_eq_ok.1 done
    obtain ⟨rfl, rfl⟩ := Prod.mk.inj (Except.ok.inj done)
    obtain ⟨⟨last, found⟩, searched, allocated⟩ := bind_eq_ok.1 allocated
    obtain ⟨moves, explains⟩ := carveFrom_history accepts allowed searched
    cases found with
    | none =>
      obtain ⟨rfl, rfl, rfl⟩ : _ ∧ _ ∧ _ := by simpa using Except.ok.inj allocated
      exact ⟨moves, explains.history, explains.handed, fun _ h => by cases h⟩
    | some block =>
      obtain ⟨rfl, rfl, rfl⟩ : _ ∧ _ ∧ _ := by simpa using Except.ok.inj allocated
      exact ⟨moves, explains.history, explains.handed, fun _ h => by cases h⟩
  | expand size low high coalesce =>
    obtain ⟨rfl, fits⟩ := accepts
    obtain ⟨mid, inserted, done⟩ := bind_eq_ok.1 done
    obtain ⟨rfl, rfl⟩ := Prod.mk.inj (Except.ok.inj done)
    have delivered : p.deliver (.expand low high coalesce) = .ok mid := by
      rw [deliver, Word.sub_bind (Nat.le_of_lt fits.nonempty), inserted]
    obtain ⟨moves, history, none⟩ := history_of_insertion (d := .expand low high coalesce) fits allowed delivered
    exact ⟨moves, history, none, fun _ h => by cases h⟩
  | add ranges =>
    obtain ⟨mid, inserted, done⟩ := bind_eq_ok.1 done
    obtain ⟨rfl, rfl⟩ := Prod.mk.inj (Except.ok.inj done)
    obtain ⟨moves, history, none⟩ := history_of_insertion (d := .add ranges) accepts allowed inserted
    exact ⟨moves, history, none, fun _ h => by cases h⟩
  | recycle low high =>
    obtain ⟨⟨mid, kept⟩, inserted, done⟩ := bind_eq_ok.1 done
    obtain ⟨rfl, rfl⟩ := Prod.mk.inj (Except.ok.inj done)
    have delivered : p.deliver (.recycle low high) = .ok mid := by
      rw [deliver, inserted]
      rfl
    obtain ⟨moves, history, none⟩ := history_of_insertion (d := .recycle low high) accepts allowed delivered
    exact ⟨moves, history, none, fun _ h => by cases h⟩
  | _ => cases supplies

/-- A run of insertions and allocations is a history of the blocks in its answers. If an object could not be
allocated, some search for one missed. -/
theorem run_history {os : List Operation} {answers : List Answer}
    (supplies : ∀ o ∈ os, o.supplies = true)
    (accepts : Throughout (fun p o => p.Accepts o ∧ p.Inserts condition o) p os)
    (done : p.run os = .ok (q, answers)) :
    ∃ moves, History condition p moves q ∧ blocks moves = answers.flatMap Answer.handed ∧
      ∀ request, .object request none ∈ answers → ∃ r, (.miss true, r) ∈ moves := by
  induction os generalizing p q answers with
  | nil =>
    obtain ⟨rfl, rfl⟩ := Prod.mk.inj (Except.ok.inj done)
    exact ⟨[], .nil, rfl, by simp⟩
  | cons o os ih =>
    obtain ⟨mid, answer, others, first, rest, rfl⟩ := run_cons_answers done
    obtain ⟨supply, supplies⟩ := List.forall_mem_cons.1 supplies
    obtain ⟨⟨valid, allowed⟩, next⟩ := accepts
    obtain ⟨moves, history, handed, missed⟩ := perform_history supply valid allowed first
    obtain ⟨moves', history', handed', missed'⟩ := ih supplies (next _ (mem_toOption.2 first)) rest
    have start : History condition p [(.owner, p.nextStep)] p.nextStep := .owner rfl
    refine ⟨_, start.append (history.append history'), ?_, fun request failed => ?_⟩
    · rw [blocks_append, blocks_append, handed, handed']
      rfl
    · rcases List.mem_cons.1 failed with same | later
      · obtain ⟨r, hr⟩ := missed request same.symm
        exact ⟨r, by simp [hr]⟩
      · obtain ⟨r, hr⟩ := missed' request later
        exact ⟨r, by simp [hr]⟩

end Pool

end FreeStore
