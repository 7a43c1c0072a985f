import FreeStore.Proofs.Ledger
/-!
Reachable pools are sound.

A pool is `Reachable` if a run whose arguments are valid leads to it. The pools that the owner sees while a
request waits for it count too: where it is asked, and between its deliveries. What is true of every sound
pool is so of every reachable one (`Reachable.sound`), in particular that the hints are right.
-/
namespace FreeStore

/-- A run with valid arguments leads to the pool. -/
inductive Pool.Reachable : Pool → Prop
  | create {config : PoolConfig} {p : Pool} (made : Pool.create config = .ok p) : Reachable p
  | step {p q : Pool} {o : Pool.Operation} {answer : Pool.Answer} (h : Reachable p)
      (accepts : p.nextStep.Accepts o) (done : p.step o = .ok (q, answer)) : Reachable q
  | nextStep {p : Pool} (h : Reachable p) : Reachable p.nextStep
  | askForObject {p q : Pool} {size : Nat} {record : Bool} (h : Reachable p)
      (asks : q ∈ p.askForObject size record) : Reachable q
  | askForBlock {p q : Pool} {maximum : Nat} {record : Bool} (h : Reachable p)
      (asks : q ∈ p.askForBlock maximum record) : Reachable q
  | deliver {p q : Pool} {d : Delivery} {rest : List Refill} (h : Reachable p)
      (fits : (p.setReserve rest).DeliveryFits d) (done : (p.setReserve rest).deliver d = .ok q) :
      Reachable q

namespace Pool

variable {p q : Pool} {size maximum : Nat} {record : Bool}

theorem sound_askForObject (h : p.Sound) (asks : q ∈ p.askForObject size record) : q.Sound := by
  have ends : Ends (fun _ => True) (p.place size record) _ := place_ends (.inl trivial) h
  obtain ⟨t, w, placed, rfl⟩ := searched_of_askForObject asks
  exact (ends.of_ok (tryPlace_eq h ▸ placed)).1.regardless ..

theorem sound_askForBlock (h : p.Sound) (asks : q ∈ p.askForBlock maximum record) : q.Sound := by
  have ends : Ends (fun _ => True) (carve maximum record p.entries p) _ :=
    carve_ends (.inl trivial) h rfl (.inl fun _ _ => trivial)
  obtain ⟨t, carved, rfl⟩ := searched_of_askForBlock asks
  exact (ends.of_ok (tryCarve_eq h ▸ carved)).1.regardless ..

theorem Sound.nextStep (h : p.Sound) : p.nextStep.Sound := h.regardless ..

/-- A step keeps a pool sound, and its books follow. -/
theorem step_ends {F : Fault → Prop} {o : Operation}
    (hF : F .counterOverflow ∨ p.HasRoom (p.bytesIn o) (p.insertions o)) (h : p.Sound)
    (accepts : p.nextStep.Accepts o)
    (grid : (∀ f, f ≠ .counterOverflow → F f) ∨ p.nextStep.AcceptsOnGrid o)
    (range : F .arithmetic ∨ p.nextStep.StaysInRange o) :
    Ends F (p.step o) fun r => r.1.Sound ∧ p.nextStep.Booked o r.1 r.2 := by
  have sameBytes : p.nextStep.bytesIn o = p.bytesIn o := by cases o <;> rfl
  have sameInsertions : p.nextStep.insertions o = p.insertions o := by cases o <;> rfl
  refine perform_ends (hF.imp_right fun room => ?_) h.nextStep accepts grid range
  rw [sameBytes, sameInsertions]
  exact room.of_spends (.of_eq rfl rfl rfl rfl rfl)

/-- A count overflows in a step only if one of them is so close to the end of the words that it has no room for
the bytes that are free and those that go in: each insertion adds at most as many to the estimate of a pending
realignment, and a whole step at most as many to any of the others. -/
theorem step_counterOverflow {o : Operation} (h : p.Sound) (accepts : p.nextStep.Accepts o)
    (ran : p.step o = .error .counterOverflow) :
    (∃ c ∈ p.counts, wordLimit ≤ c + (p.freeBytes + p.bytesIn o)) ∨
      wordLimit ≤ p.pendingLoss + p.insertions o * (p.freeBytes + p.bytesIn o) := by
  refine not_hasRoom.1 fun room => ?_
  exact (step_ends (F := fun f => f ≠ .counterOverflow) (.inr room) h accepts (.inl fun _ other => other)
    (.inl nofun)).of_error ran rfl

theorem Reachable.sound (h : p.Reachable) : p.Sound := by
  induction h with
  | create made => exact sound_create made
  | step _ accepts done ih =>
    have ends := step_ends (F := fun _ => True) (.inl trivial) ih accepts (.inl fun _ _ => trivial)
      (.inl trivial)
    exact (ends.of_ok done).1
  | nextStep _ ih => exact ih.nextStep
  | askForObject _ asks ih => exact sound_askForObject ih asks
  | askForBlock _ asks ih => exact sound_askForBlock ih asks
  | deliver _ fits done ih =>
    have ends := deliver_ends (F := fun _ => True) (.inl trivial) (ih.regardless ..) fits
    exact (ends.of_ok done).1.sound

theorem run_cons_answers {o : Operation} {os : List Operation} {r : Pool × List Answer}
    (done : p.run (o :: os) = .ok r) :
    ∃ q answer answers, p.step o = .ok (q, answer) ∧ q.run os = .ok (r.1, answers) ∧
      r.2 = answer :: answers := by
  rw [run] at done
  cases hs : p.step o with
  | error f =>
    rw [hs] at done
    cases done
  | ok s =>
    obtain ⟨q, answer⟩ := s
    rw [hs, ok_bind] at done
    dsimp only at done
    cases hr : q.run os with
    | error f =>
      rw [hr] at done
      cases done
    | ok t =>
      rw [hr] at done
      obtain rfl := Except.ok.inj done
      exact ⟨q, answer, t.2, rfl, hr, rfl⟩

theorem run_cons_eq_ok {o : Operation} {os : List Operation} {r : Pool × List Answer}
    (done : p.run (o :: os) = .ok r) :
    ∃ q answer answers, p.step o = .ok (q, answer) ∧ q.run os = .ok (r.1, answers) := by
  obtain ⟨q, answer, answers, first, others, -⟩ := run_cons_answers done
  exact ⟨q, answer, answers, first, others⟩

/-- What a run with valid arguments leads to is reachable. -/
theorem Reachable.run (h : p.Reachable) {os : List Operation} (accepts : Throughout Accepts p os)
    {r : Pool × List Answer} (done : p.run os = .ok r) : r.1.Reachable := by
  induction os generalizing p r with
  | nil =>
    obtain rfl := Except.ok.inj done
    exact h
  | cons o os ih =>
    obtain ⟨q, answer, answers, first, others⟩ := run_cons_eq_ok done
    exact ih (r := (r.1, answers)) (.step h accepts.1 first) (accepts.2 _ (mem_toOption.2 first)) others

/-- Every hint of a reachable pool names an entry on the list and bounds the entries below it, so none that
is looked up is turned down for dangling. -/
theorem hints_right_of_reachable (h : p.Reachable) :
    (∀ hint ∈ p.hints.active, (∃ e ∈ p.entries, e.start = hint.entry) ∧
      ∀ e ∈ p.entries, e.start < hint.entry → e.size ≤ hint.size) ∧
    ∀ size, (p.findHint size).2 = (p.hints.find size p.first?).2 := by
  have holds := h.sound.hints
  refine ⟨holds, fun size => ?_⟩
  unfold findHint
  cases found : (p.hints.find size p.first?).2 with
  | none => simp only [found, Option.filter_none]
  | some hint =>
    have active := (HintCache.mem_of_find found).1
    have starts := FreeList.startsAt_iff.2 (holds hint active).1
    simp only [found, Option.filter_some, starts, if_true]

/-- A search that stepped over two entries leaves a hint at the second one. -/
theorem hints_right_after_search :
    let run := (fresh { hintMaxWalk := 2 }).run [.expand 512 0 512 false, .expand 512 1024 1536 false,
      .expand 2048 2048 4096 false, .allocate .mutator { bytes := 1000 }]
    run.toOption.map (fun r => (r.1.entries, r.1.hints.pairs)) =
        some ([⟨0, 512⟩, ⟨1024, 512⟩, ⟨3048, 1048⟩], [(1024, 512)]) ∧
      ∀ r ∈ run.toOption,
        (∀ hint ∈ r.1.hints.active, (∃ e ∈ r.1.entries, e.start = hint.entry) ∧
          ∀ e ∈ r.1.entries, e.start < hint.entry → e.size ≤ hint.size) ∧
        ∀ size, (r.1.findHint size).2 = (r.1.hints.find size r.1.first?).2 := by
  refine ⟨by decide +kernel, fun r done => ?_⟩
  have made : create { hintMaxWalk := 2 } = .ok (fresh { hintMaxWalk := 2 }) := by decide +kernel
  exact hints_right_of_reachable ((Reachable.create made).run (by decide +kernel) (mem_toOption.1 done))

end Pool

end FreeStore
