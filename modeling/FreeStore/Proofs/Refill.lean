import FreeStore.Proofs.Batch
import FreeStore.Proofs.Carving
import FreeStore.Proofs.Placement
/-!
Requests keep a pool sound, whatever the owner delivers meanwhile.

A request searches the list, asks the owner, takes what it delivers, and searches again. Each round uses up
one refill, and `Supplied` says what a whole request comes to: some refills of the reserve were used up, and
the bytes of the pool changed by what they delivered and by what the request got. The rounds for objects
and for blocks are alike (`takeRefill_ends`, `Supplied.of_refill`), only the searches differ. The running counts
suffice for all rounds if they have room for everything that the reserve may deliver (`RoomFor`).
-/
namespace FreeStore

/-- All ranges that a refill puts in. -/
def Refill.ranges (f : Refill) : List Range := f.deliveries.flatMap Delivery.ranges

namespace Pool

/-- Using up some of its reserve, `p` turned into `q`, and callers got the ranges `taken`. -/
def Supplied (p q : Pool) (taken : List Range) : Prop :=
  ∃ used left, p.reserve = used ++ left ∧
    Effect (p.setReserve left) q (used.flatMap Refill.ranges) taken

section

variable {F : Fault → Prop} {p q r : Pool} {given taken : List Range} {record : Bool}
  {size maximum bytes insertions : Nat} {refill : Refill} {reserve rest left : List Refill}

/-! ## What no book depends on -/

/-- The books do not depend on the owner, on its reports, nor on the size of the largest entry. -/
theorem Sound.regardless (h : p.Sound) (largest : Nat) (subspace : Option Subspace)
    (events : List PoolEvent) : Sound { p with largest, subspace, events } :=
  ⟨h.config, h.grid, h.gap, h.strays, h.tracked, h.bytes, h.count, h.census, h.hints⟩

/-- Nor do the bytes depend on the size of the largest entry. -/
theorem Effect.largest (h : Effect p q given taken) (largest : Nat) :
    Effect p { q with largest } given taken :=
  ⟨h.config, h.grid, h.subspace, h.ledger⟩

theorem effect_report {size : Nat} : Effect p (p.report (.replenish size)) [] [] := by
  refine ⟨rfl, rfl, rfl, fun a => .of_eq ?_⟩
  simp only [account, report, dropped_log_replenish]

@[simp] theorem setReserve_setReserve : (p.setReserve rest).setReserve left = p.setReserve left := by
  unfold setReserve
  cases p.subspace <;> rfl

@[simp] theorem setReserve_reserve : p.setReserve p.reserve = p := by
  have same : (p.subspace.map fun s => { s with reserve := p.reserve }) = p.subspace := by
    unfold Pool.reserve
    cases p.subspace <;> rfl
  rw [setReserve, same]

theorem reserve_setReserve (h : p.reserve ≠ []) : (p.setReserve rest).reserve = rest := by
  unfold setReserve Pool.reserve at *
  cases hs : p.subspace with
  | none => simp [hs] at h
  | some s => rfl

theorem Effect.setReserve (h : Effect p q given taken) (left : List Refill) :
    Effect (p.setReserve left) (q.setReserve left) given taken := by
  have recorded : (p.setReserve left).isRecorded = p.isRecorded := by
    unfold Pool.setReserve isRecorded
    cases p.subspace <;> rfl
  refine ⟨h.config, h.grid, ?_, fun a => recorded ▸ h.ledger a⟩
  unfold Pool.setReserve
  rw [h.subspace]

/-! ## Rounds -/

/-- One delivery after the other goes in, and takes its share of the room that the counts have. -/
theorem foldlM_deliver_ends {ds : List Delivery} (hF : F .counterOverflow ∨
      p.HasRoom (totalBytes (ds.flatMap Delivery.ranges) + bytes) (ds.length + insertions))
    (h : p.Sound) (hd : DeliveriesFit p ds) :
    Ends F (ds.foldlM deliver p) fun q => q.Sound ∧ Effect p q (ds.flatMap Delivery.ranges) [] ∧
      (p.HasRoom (totalBytes (ds.flatMap Delivery.ranges) + bytes) (ds.length + insertions) →
        q.HasRoom bytes insertions) := by
  induction ds generalizing p with
  | nil => exact ⟨h, .refl p, fun room => by simpa [totalBytes] using room⟩
  | cons d ds ih =>
    obtain ⟨first, others⟩ := hd
    have shared : ∀ {q : Pool}, q.HasRoom (totalBytes ((d :: ds).flatMap Delivery.ranges) + bytes)
        ((d :: ds).length + insertions) → q.HasRoom
        (totalBytes d.ranges + (totalBytes (ds.flatMap Delivery.ranges) + bytes)) (ds.length + insertions + 1) := by
      intro q room
      rwa [List.flatMap_cons, totalBytes_append, Nat.add_assoc, List.length_cons, Nat.add_right_comm] at room
    have whole := hF.imp_right shared
    rw [List.foldlM_cons]
    apply (deliver_ends (whole.imp_right fun room => ?_) h first).and_eq.bind
    · rintro q ⟨done, delivered, grown⟩
      apply (ih (whole.imp_right (HasRoom.of_grows · grown)) delivered.sound
        (others q (mem_toOption.2 done))).mono
      rintro r ⟨sound', effect', left⟩
      exact ⟨sound', delivered.effect.trans effect', fun room => left ((shared room).of_grows grown)⟩
    · have := room.noted
      omega

/-- A search that found nothing leads to the next one, if the owner grants a refill. -/
theorem takeRefill_ends (bytes insertions : Nat) (hF : F .counterOverflow ∨
      q.HasRoom (totalBytes refill.ranges + bytes) (refill.deliveries.length + insertions))
    (h : q.Sound) (he : Effect p q [] []) (hr : p.reserve = refill :: rest)
    (hd : DeliveriesFit ((q.report (.replenish size)).setReserve rest) refill.deliveries) :
    Ends F ((q.report (.replenish size)).takeRefill refill rest) fun r =>
      r.Sound ∧ r.reserve = rest ∧ Effect (p.setReserve rest) r refill.ranges [] ∧
        (q.HasRoom (totalBytes refill.ranges + bytes) (refill.deliveries.length + insertions) →
          r.HasRoom bytes insertions) := by
  have start : ((q.report (.replenish size)).setReserve rest).Sound := h.regardless ..
  have same : q.Spends ((q.report (.replenish size)).setReserve rest) := .of_eq rfl rfl rfl rfl rfl
  refine (foldlM_deliver_ends (hF.imp_right (HasRoom.of_spends · same)) start hd).mono ?_
  rintro r ⟨sound, effect, left⟩
  have effect := ((he.trans effect_report).setReserve rest).trans effect
  have kept : r.reserve = (p.setReserve rest).reserve := by
    unfold Pool.reserve
    rw [effect.subspace]
  exact ⟨sound, kept.trans (reserve_setReserve (by simp [hr])), effect,
    fun room => left (room.of_spends same)⟩

theorem Effect.supplied (h : Effect p q [] taken) : p.Supplied q taken :=
  ⟨[], p.reserve, rfl, by simpa using h⟩

/-- A request goes on from a refill as it would have begun. -/
theorem Supplied.of_refill (hp : p.reserve = refill :: rest) (hq : q.reserve = rest)
    (h : Effect (p.setReserve rest) q refill.ranges []) (g : q.Supplied r taken) :
    p.Supplied r taken := by
  obtain ⟨used, left, split, effect⟩ := g
  refine ⟨refill :: used, left, by rw [hp, ← hq, split, List.cons_append], ?_⟩
  simpa using (h.setReserve left).trans effect

/-! ## Requests -/

theorem tryPlace_eq (h : p.Sound) : p.tryPlace size record = p.place size record := by
  rw [tryPlace, h.isTorn_eq]
  rfl

/-- The owner is asked exactly if a search comes to nothing. -/
theorem askForObject_eq {w : Walk} {found : Option Nat}
    (placed : p.tryPlace size record = .ok (q, w, found)) :
    p.askForObject size record = found.elim (some (q.report (.replenish size))) fun _ => none := by
  rw [askForObject, placed]
  cases found <;> rfl

theorem searched_of_askForObject (asks : q ∈ p.askForObject size record) : ∃ t w,
    p.tryPlace size record = .ok (t, w, none) ∧ q = t.report (.replenish size) := by
  unfold askForObject at asks
  split at asks
  · rename_i t w placed
    exact ⟨t, w, placed, (Option.some_inj.1 asks).symm⟩
  · cases asks

theorem tryCarve_eq (h : p.Sound) : p.tryCarve maximum record = carve maximum record p.entries p := by
  rw [tryCarve, h.isTorn_eq]
  rfl

theorem askForBlock_eq {found : Option Range} (carved : p.tryCarve maximum record = .ok (q, found)) :
    p.askForBlock maximum record =
      found.elim (some (q.report (.replenish q.config.minEntry))) fun _ => none := by
  rw [askForBlock, carved]
  cases found <;> rfl

theorem searched_of_askForBlock (asks : q ∈ p.askForBlock maximum record) : ∃ t,
    p.tryCarve maximum record = .ok (t, none) ∧ q = t.report (.replenish t.config.minEntry) := by
  unfold askForBlock at asks
  split at asks
  · rename_i t carved
    exact ⟨t, carved, (Option.some_inj.1 asks).symm⟩
  · cases asks

/-- Every count has room for what is free and for all that the owner may deliver. -/
def RoomFor (p : Pool) (reserve : List Refill) : Prop :=
  p.HasRoom (totalBytes (reserve.flatMap Refill.ranges)) (reserve.flatMap Refill.deliveries).length

theorem RoomFor.cons (room : p.RoomFor (refill :: rest)) : p.HasRoom
    (totalBytes refill.ranges + totalBytes (rest.flatMap Refill.ranges))
    (refill.deliveries.length + (rest.flatMap Refill.deliveries).length) := by
  rwa [RoomFor, List.flatMap_cons, List.flatMap_cons, totalBytes_append, List.length_append] at room

/-- An object is handed out, or the owner has not delivered enough for one. -/
theorem allocateFrom_ends (hF : F .counterOverflow ∨ p.RoomFor reserve) (h : p.Sound)
    (hr : p.reserve = reserve)
    (fits : RefillsFit (askForObject size record) (fun _ => True) reserve p) :
    Ends F (allocateFrom size record reserve p) fun r => r.1.Sound ∧
      p.Supplied r.1 (r.2.elim [] fun a => [⟨a, a + size⟩]) := by
  induction reserve generalizing p with
  | nil =>
    rw [allocateFrom, tryPlace_eq h]
    refine (place_ends (hF.imp_right HasRoom.forFree) h).bind ?_
    rintro ⟨q, w, found⟩ ⟨sound, effect, -⟩
    cases found with
    | some a => exact ⟨sound, effect.supplied⟩
    | none => exact ⟨sound.regardless .., ((effect.trans effect_report).largest _).supplied⟩
  | cons refill rest ih =>
    unfold allocateFrom
    rw [tryPlace_eq h]
    refine (place_ends (hF.imp_right HasRoom.forFree) h).and_eq.bind ?_
    rintro ⟨q, w, found⟩ ⟨placed, sound, effect, spent⟩
    cases found with
    | some a => exact ⟨sound, effect.supplied⟩
    | none =>
      have asks : q.report (.replenish size) ∈ askForObject size record p :=
        askForObject_eq ((tryPlace_eq h).trans placed)
      obtain ⟨deliveries, next⟩ := fits.2 _ asks
      have room := hF.imp_right fun room => RoomFor.cons (HasRoom.of_spends room (spent rfl))
      refine (takeRefill_ends _ _ room sound effect hr deliveries).and_eq.bind ?_
      rintro r ⟨taken, sound', left, effect', roomLeft⟩
      split
      · rename_i granted
        refine (ih (room.imp_right roomLeft) sound' left (next r (mem_toOption.2 taken) granted)).mono ?_
        rintro s ⟨sound'', supplied⟩
        exact ⟨sound'', .of_refill hr left effect' supplied⟩
      · exact ⟨sound'.regardless .., .of_refill hr left effect' ((Effect.refl r).largest _).supplied⟩

/-- A block is handed out, or the owner has not delivered enough for one. -/
theorem carveFrom_ends (hF : F .counterOverflow ∨ p.RoomFor reserve) (h : p.Sound)
    (hr : p.reserve = reserve)
    (fits : RefillsFit (askForBlock maximum record) (fun _ => True) reserve p)
    (grid : (∀ f, f ≠ .counterOverflow → F f) ∨ RefillsFit (askForBlock maximum record) OnGrid reserve p) :
    Ends F (carveFrom maximum record reserve p) fun r => r.1.Sound ∧ p.Supplied r.1 r.2.toList := by
  induction reserve generalizing p with
  | nil =>
    rw [carveFrom, tryCarve_eq h]
    refine (carve_ends (hF.imp_right HasRoom.forFree) h rfl grid).bind ?_
    rintro ⟨q, found⟩ ⟨sound, effect, -⟩
    cases found with
    | some block => exact ⟨sound, effect.supplied⟩
    | none => exact ⟨sound.regardless .., ((effect.trans effect_report).largest _).supplied⟩
  | cons refill rest ih =>
    unfold carveFrom
    rw [tryCarve_eq h]
    refine (carve_ends (hF.imp_right HasRoom.forFree) h rfl (grid.imp_right And.left)).and_eq.bind ?_
    rintro ⟨q, found⟩ ⟨carved, sound, effect, spent⟩
    cases found with
    | some block => exact ⟨sound, effect.supplied⟩
    | none =>
      have asks : q.report (.replenish q.config.minEntry) ∈ askForBlock maximum record p :=
        askForBlock_eq ((tryCarve_eq h).trans carved)
      obtain ⟨deliveries, next⟩ := fits.2 _ asks
      have room := hF.imp_right fun room => RoomFor.cons (HasRoom.of_spends room (spent rfl))
      refine (takeRefill_ends _ _ room sound effect hr deliveries).and_eq.bind ?_
      rintro r ⟨taken, sound', left, effect', roomLeft⟩
      split
      · rename_i granted
        have taken := mem_toOption.2 taken
        refine (ih (room.imp_right roomLeft) sound' left (next r taken granted) ?_).mono ?_
        · exact grid.imp_right fun all => (all.2 _ asks).2 r taken granted
        · rintro s ⟨sound'', supplied⟩
          exact ⟨sound'', .of_refill hr left effect' supplied⟩
      · exact ⟨sound'.regardless .., .of_refill hr left effect' ((Effect.refl r).largest _).supplied⟩

end

end Pool

end FreeStore
