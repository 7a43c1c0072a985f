import Mathlib.Algebra.Ring.Nat
import FreeStore.Proofs.Estimate
/-!
What the counters of a pool say of its allocations.

Every byte that was free is free still, or was handed out, or discarded, or became dark matter, and each of
these is counted once: the four counters have the same sum before and after a request (`Charges`). A block that
is handed out is one more allocation, of its length; a request that gets none is no allocation. This needs no
sound pool: each step that takes bytes off the free ones puts as many on another counter. The owner's
deliveries are the exception, so they must add no free memory here.
-/
namespace FreeStore.Pool

variable {p q r : Pool} {size bytes steps count low : Nat} {record hinted : Bool} {w : Walk} {e : Entry}
  {l before after rest : FreeList} {got more : List Range} {os : List Operation}

/-- The bytes that are free, were handed out, were discarded, or became dark matter. -/
def grandTotal (p : Pool) : Nat :=
  p.freeBytes + p.stats.allocBytes + p.stats.discardedBytes + p.stats.darkMatterBytes

/-- The blocks, and nothing else, were charged to the counters between the pools. -/
structure Charges (p : Pool) (blocks : List Range) (q : Pool) : Prop where
  total : q.grandTotal = p.grandTotal
  count : q.stats.allocCount = p.stats.allocCount + blocks.length
  bytes : q.stats.allocBytes = p.stats.allocBytes + (blocks.map Range.length).sum

theorem Charges.of_eq (free : q.freeBytes = p.freeBytes) (stats : q.stats = p.stats) : p.Charges [] q := by
  refine ⟨?_, ?_, ?_⟩
  · rw [grandTotal, grandTotal, free, stats]
  · rw [stats]
    rfl
  · rw [stats]
    rfl

theorem Charges.trans (h : p.Charges got q) (g : q.Charges more r) : p.Charges (got ++ more) r := by
  refine ⟨g.total.trans h.total, ?_, ?_⟩
  · rw [g.count, h.count, List.length_append, Nat.add_assoc]
  · rw [g.bytes, h.bytes, List.map_append, List.sum_append, Nat.add_assoc]

/-- No other book matters. -/
theorem Charges.congr (h : q.Charges more r) {s : Pool} (free : q.freeBytes = p.freeBytes)
    (stats : q.stats = p.stats) (free' : s.freeBytes = r.freeBytes) (stats' : s.stats = r.stats) :
    p.Charges more s := by
  have before := (Charges.of_eq free stats).trans h
  simpa using before.trans (.of_eq free' stats')

/-- A step that charges nothing in front of others. -/
theorem Charges.prepend (g : q.Charges more r) (h : p.Charges [] q) : p.Charges more r := h.trans g

/-- A step that charges nothing behind others. -/
theorem Charges.append (h : p.Charges more q) (g : q.Charges [] r) : p.Charges more r := by
  simpa using h.trans g

/-! ## The counters, one by one -/

theorem debit_yields : Yields (p.debit bytes count) fun q =>
    q.freeBytes + bytes = p.freeBytes ∧ q.stats = p.stats := by
  by_cases enough : bytes ≤ p.freeBytes
  · rw [debit, Word.sub_bind enough]
    exact .any fun _ => ends_pure.2 ⟨Nat.sub_add_cancel enough, rfl⟩
  · have short : Word.sub p.freeBytes bytes = .error .arithmetic := if_neg enough
    rw [debit, short]
    trivial

theorem countDiscarded_yields : Yields (p.countDiscarded bytes) fun q =>
    q.freeBytes = p.freeBytes ∧
      q.stats = { p.stats with discardedBytes := p.stats.discardedBytes + bytes } := by
  rw [← bind_pure (p.countDiscarded bytes)]
  exact countDiscarded_bind (.inl trivial) (ends_pure.2 ⟨rfl, rfl⟩)

theorem countAllocation_yields : Yields (p.countAllocation bytes steps) fun q =>
    q.freeBytes = p.freeBytes ∧ q.stats = { p.stats with
      allocCount := p.stats.allocCount + 1
      allocBytes := p.stats.allocBytes + bytes
      searchCount := p.stats.searchCount + steps } := by
  rw [← bind_pure (p.countAllocation bytes steps)]
  exact countAllocation_bind (.inl trivial) (ends_pure.2 ⟨rfl, rfl⟩)

/-- Bytes that were free are discarded. -/
theorem Charges.discard (debited : q.freeBytes + bytes = p.freeBytes ∧ q.stats = p.stats)
    (counted : r.freeBytes = q.freeBytes ∧
      r.stats = { q.stats with discardedBytes := q.stats.discardedBytes + bytes }) : p.Charges [] r := by
  obtain ⟨free, same⟩ := debited
  obtain ⟨free', stats⟩ := counted
  refine ⟨?_, ?_, ?_⟩
  · simp only [grandTotal, stats, free', same]
    omega
  · rw [stats, same]
    rfl
  · rw [stats, same]
    rfl

/-- Bytes that were free are handed out. -/
theorem Charges.hand (debited : q.freeBytes + bytes = p.freeBytes ∧ q.stats = p.stats)
    (counted : r.freeBytes = q.freeBytes ∧ r.stats = { q.stats with
      allocCount := q.stats.allocCount + 1
      allocBytes := q.stats.allocBytes + bytes
      searchCount := q.stats.searchCount + steps }) : p.Charges [⟨low, low + bytes⟩] r := by
  obtain ⟨free, same⟩ := debited
  obtain ⟨free', stats⟩ := counted
  refine ⟨?_, ?_, ?_⟩
  · simp only [grandTotal, stats, free', same]
    omega
  · rw [stats, same]
    rfl
  · rw [stats, same]
    simp only [List.map_cons, List.map_nil, List.sum_cons, List.sum_nil, Range.length]
    omega

theorem charges_countFree : Yields (p.countFree size) (p.Charges []) :=
  .any fun _ => ends_pure.2 (.of_eq rfl rfl)

theorem charges_uncountFree : Yields (p.uncountFree size) (p.Charges []) :=
  .any fun _ => ends_pure.2 (.of_eq rfl rfl)

theorem charges_countObject : Yields (p.countObject size record) (p.Charges []) := by
  rw [← bind_pure (p.countObject size record)]
  exact countObject_bind (.inl trivial) fun _ => ends_pure.2 (.of_eq rfl rfl)

theorem charges_countBlock : Yields (p.countBlock size record) (p.Charges []) := by
  rw [← bind_pure (p.countBlock size record)]
  exact countBlock_bind (.inl trivial) fun _ => ends_pure.2 (.of_eq rfl rfl)

theorem charges_settle : Yields p.settle (p.Charges []) := by
  refine .any fun _ => ?_
  split
  · exact .of_eq rfl rfl
  · trivial

/-! ## Realignment -/

theorem charges_accountRealigned : Yields (p.accountRealigned e) (p.Charges []) := by
  unfold accountRealigned
  split
  · apply charges_uncountFree.bind
    intro q counted
    apply debit_yields.mono
    rintro r ⟨free, stats⟩
    have charged := counted.append (.of_eq free stats)
    exact charged.congr rfl rfl rfl rfl
  · split
    · exact .of_eq rfl rfl
    · apply charges_uncountFree.bind
      intro q counted
      apply charges_countFree.mono
      intro r counted'
      have charged := counted.append counted'
      exact charged.congr rfl rfl rfl rfl

theorem charges_foldlM_accountRealigned : Yields (l.foldlM accountRealigned p) (p.Charges []) := by
  induction l generalizing p with
  | nil => exact .of_eq rfl rfl
  | cons e l ih =>
    rw [List.foldlM_cons]
    exact charges_accountRealigned.bind fun q first => ih.mono fun r others => first.append others

/-- What realignment gives up was free, and is dark matter now. -/
theorem charges_chargeRealigned {lost : Nat} : Yields (p.chargeRealigned lost) (p.Charges []) := by
  unfold chargeRealigned
  apply debit_yields.bind
  rintro q ⟨free, stats⟩
  refine Word.advance_bind (.inl trivial) (ends_pure.2 ⟨?_, ?_, ?_⟩)
  · simp only [grandTotal, stats]
    omega
  · simp only [stats]
    rfl
  · simp only [stats]
    rfl

theorem charges_alignThrough {last : Nat} :
    Yields (p.alignThrough last) fun s => p.Charges [] s.1 := by
  unfold alignThrough
  dsimp only
  split
  · exact .of_eq rfl rfl
  · refine .any fun _ => charges_foldlM_accountRealigned.bind fun q realigned => ?_
    refine charges_chargeRealigned.bind fun r charged => ends_pure.2 ?_
    have aligned := realigned.append charged
    exact aligned.congr rfl rfl rfl rfl

theorem charges_reach : Yields (p.reach e) fun s => p.Charges [] s.1 := by
  unfold reach
  split
  · exact charges_alignThrough
  · exact .of_eq rfl rfl

/-! ## Requests -/

/-- What is left of an entry stays free, or is discarded. -/
theorem charges_keepRest {taken : Nat} : Yields (p.keepRest before e taken after) (p.Charges []) := by
  unfold keepRest
  dsimp only
  split
  · exact charges_countFree.mono fun q counted => counted.congr rfl rfl rfl rfl
  · apply debit_yields.bind
    intro q debited
    apply countDiscarded_yields.bind
    intro r counted
    have discarded := Charges.discard debited counted
    exact ends_pure.2 (discarded.congr rfl rfl rfl rfl)

theorem charges_takeFront :
    Yields (p.takeFront e size w hinted record) (p.Charges [⟨e.start, e.start + size⟩]) := by
  refine .any fun _ => charges_uncountFree.bind fun q₁ uncounted => ?_
  refine debit_yields.bind fun q₂ debited => countAllocation_yields.bind fun q₃ counted => ?_
  refine charges_keepRest.bind fun q₄ kept => charges_countObject.bind fun q₅ recorded => ?_
  apply charges_settle.mono
  intro q₆ settled
  have handed : q₁.Charges [⟨e.start, e.start + size⟩] q₃ := Charges.hand debited counted
  exact ((handed.prepend uncounted).append kept).append (recorded.append settled)

theorem charges_search : Yields (search size l p w) fun s => p.Charges [] s.1 := by
  induction l generalizing p w with
  | nil => exact .of_eq rfl rfl
  | cons d rest ih =>
    rw [search]
    apply charges_reach.bind
    rintro ⟨q, found⟩ reached
    cases found with
    | none => exact ih.mono fun s searched => reached.append searched
    | some e =>
      dsimp only
      split
      · exact reached
      · exact ih.mono fun s searched => reached.append searched

theorem charges_place : Yields (p.place size record) fun s =>
    p.Charges (s.2.2.elim [] fun a => [⟨a, a + size⟩]) s.1 := by
  have searched : Yields (p.firstFit size) fun s => p.Charges [] s.1 := by
    refine charges_search.bind fun s searched => ends_pure.2 ?_
    exact searched.congr rfl rfl rfl rfl
  apply searched.bind
  rintro ⟨q, w, found, hinted⟩ walked
  cases found with
  | none => exact walked
  | some e => exact charges_takeFront.bind fun r taken => ends_pure.2 (taken.prepend walked)

theorem charges_dropFirst : Yields (p.dropFirst e rest) (p.Charges []) := by
  refine .any fun _ => debit_yields.bind fun q debited => countDiscarded_yields.bind fun r counted => ?_
  have discarded := Charges.discard debited counted
  exact ends_pure.2 (discarded.congr rfl rfl rfl rfl)

theorem charges_carveFirst {taken : Nat} :
    Yields (p.carveFirst e rest taken record) (p.Charges [⟨e.start, e.start + taken⟩]) := by
  refine .any fun _ => debit_yields.bind fun q₁ debited => countAllocation_yields.bind fun q₂ counted => ?_
  refine charges_countBlock.bind fun q₃ recorded => charges_keepRest.bind fun q₄ kept => ?_
  apply charges_settle.mono
  intro q₅ settled
  have handed : p.Charges [⟨e.start, e.start + taken⟩] q₂ := Charges.hand debited counted
  exact (handed.append recorded).append (kept.append settled)

theorem charges_carve {maximum : Nat} : Yields (carve maximum record l p) fun s =>
    p.Charges s.2.toList s.1 := by
  induction l generalizing p with
  | nil => exact .of_eq rfl rfl
  | cons d rest ih =>
    rw [carve]
    apply charges_reach.bind
    rintro ⟨q, found⟩ reached
    cases found with
    | none => exact ih.mono fun s carved => carved.prepend reached
    | some e =>
      refine charges_uncountFree.bind fun q₁ uncounted => .any fun block => ?_
      cases block with
      | none =>
        refine charges_dropFirst.bind fun q₂ dropped => ih.mono fun s carved => ?_
        exact carved.prepend (reached.append (uncounted.append dropped))
      | some taken =>
        refine charges_carveFirst.bind fun q₂ carved => ends_pure.2 ?_
        exact carved.prepend (reached.append uncounted)

/-! ## Histories and runs -/

/-- A move charges the block that it hands out, if it adds no free memory. -/
theorem Leads.charges {m : Move} (lead : Leads m p q) (h : p.Sound)
    (nothing : ∀ d, m = .insert d → AddsNothing p d) : p.Charges (blocks [(m, q)]) q := by
  cases lead with
  | place done =>
    rw [tryPlace_eq h] at done
    exact charges_place.of_ok done
  | carve done =>
    rw [tryCarve_eq h] at done
    exact charges_carve.of_ok done
  | noPlace done =>
    rw [tryPlace_eq h] at done
    exact charges_place.of_ok done
  | noBlock done =>
    rw [tryCarve_eq h] at done
    exact charges_carve.of_ok done
  | @insert _ _ d fits done =>
    have delivered : p.Delivered d.ranges q := (Leads.insert fits done).delivered h
    rw [delivered.unchanged (nothing d rfl q (mem_toOption.2 done))]
    exact .of_eq rfl rfl
  | owner same =>
    rw [same]
    exact .of_eq rfl rfl

theorem History.charges {moves : List (Move × Pool)} (h : History AddsNothing p moves q)
    (sound : p.Sound) : p.Charges (blocks moves) q := by
  induction h with
  | nil => exact .of_eq rfl rfl
  | @cons p mid q m moves first allowed _ ih =>
    have charged := first.charges sound allowed
    have sound' := (first.paysOff sound allowed).1
    have both : blocks ([(m, mid)] ++ moves) = blocks [(m, mid)] ++ blocks moves := blocks_append
    exact both.symm ▸ charged.trans (ih sound')

/-- What a step that allocates charges to the counters is the block in its answer. -/
def ChargesAnswer (p : Pool) (o : Operation) : Prop :=
  ∀ s ∈ (p.perform o).toOption, p.Charges s.2.handed s.1

theorem chargesAnswer {o : Operation} (h : p.Sound) (allocates : o.allocates = true)
    (accepts : p.Accepts o) (inserts : p.Inserts AddsNothing o) : p.ChargesAnswer o := by
  rintro ⟨q, answer⟩ done
  have supplies : o.supplies = true := by
    cases o <;> first | rfl | cases allocates
  obtain ⟨moves, history, handed, -⟩ := perform_history supplies accepts inserts (mem_toOption.1 done)
  exact handed ▸ history.charges h

theorem throughout_chargesAnswer (h : p.Sound) (allocates : ∀ o ∈ os, o.allocates = true)
    (accepts : Throughout (fun p o => p.Accepts o ∧ p.Inserts AddsNothing o) p os) :
    Throughout ChargesAnswer p os := by
  induction os generalizing p with
  | nil => trivial
  | cons o os ih =>
    obtain ⟨⟨valid, inserts⟩, next⟩ := accepts
    obtain ⟨first, others⟩ := List.forall_mem_cons.1 allocates
    refine ⟨chargesAnswer h.nextStep first valid inserts, fun s done => ?_⟩
    have ends := step_ends (F := fun _ => True) (.inl trivial) h valid (.inl fun _ _ => trivial)
      (.inl trivial)
    exact ih (ends.of_ok (mem_toOption.1 done)).1 others (next s done)

/-- What the steps of a run charge adds up. -/
theorem charges_run (steps : Throughout ChargesAnswer p os) {s : Pool × List Answer}
    (done : p.run os = .ok s) : p.Charges (s.2.flatMap Answer.handed) s.1 := by
  induction os generalizing p s with
  | nil =>
    obtain rfl := Except.ok.inj done
    exact .of_eq rfl rfl
  | cons o os ih =>
    obtain ⟨mid, answer, answers, first, others, answered⟩ := run_cons_answers done
    have found := mem_toOption.2 first
    have charged : p.Charges answer.handed mid := (steps.1 _ found).congr rfl rfl rfl rfl
    rw [answered, List.flatMap_cons]
    exact charged.trans (ih (s := (s.1, answers)) (steps.2 _ found) others)

/-- In a run of requests during which no free memory is added, the free bytes and those handed out, discarded
and lost to realignment keep their sum. Each block in an answer is one more allocation and adds its length to
the bytes handed out, an answer without one adds nothing, and over the run this adds up. Where blocks are
carved on a sweep grid that the entries fit, or on none, only a running count that overflows ends the run. -/
theorem allocation_ledger_balances (h : p.Reachable) (allocates : ∀ o ∈ os, o.allocates = true)
    (accepts : Throughout (fun p o => p.Accepts o ∧ p.Inserts AddsNothing o) p os) :
    Throughout ChargesAnswer p os ∧
      Ends (fun f => Throughout AcceptsOnGrid p os → f = .counterOverflow) (p.run os) fun r =>
        p.Charges (r.2.flatMap Answer.handed) r.1 := by
  have steps := throughout_chargesAnswer h.sound allocates accepts
  refine ⟨steps, ?_⟩
  have supplies : ∀ o ∈ os, o.supplies = true := fun o ho => by
    cases o <;> first | rfl | cases allocates _ ho
  cases ran : p.run os with
  | error f =>
    intro grid
    exact run_fault_of_supplies h.sound supplies (accepts.imp fun _ _ _ h => h.1) grid ran
  | ok r => exact charges_run steps ran

/-- Of 6000 free bytes 3636 are handed out in three blocks, the second one with the rest of its entry; a
request that is too large gets none, but realigns the entries it passes, which takes what is missing of the 1392
bytes; and the last block leaves 460 bytes that are too few for an entry. -/
theorem ledger_balances_of_four : ∃ p q : Pool, ∃ answers : List Answer,
    p.freeBytes = 6000 ∧ p.stats = {} ∧
    p.run [.allocate .mutator { bytes := 500 }, .allocateTlh .collector {} 600,
      .allocate .mutator { bytes := 100000 }, .allocate .collector { bytes := 2100 }] = .ok (q, answers) ∧
    answers.flatMap Answer.handed = [⟨1024, 1524⟩, ⟨1524, 2560⟩, ⟨10240, 12340⟩] ∧
    q.freeBytes = 512 ∧ q.stats.discardedBytes = 460 ∧ q.stats.darkMatterBytes = 1392 ∧
    p.Charges [⟨1024, 1524⟩, ⟨1524, 2560⟩, ⟨10240, 12340⟩] q := by
  let requests : List Operation := [.allocate .mutator { bytes := 500 }, .allocateTlh .collector {} 600,
    .allocate .mutator { bytes := 100000 }, .allocate .collector { bytes := 2100 }]
  obtain ⟨s, done⟩ : ∃ s, s ∈ ((fresh {}).run [.expand 2000 1000 3000 false,
      .expand 1000 5000 6000 false, .expand 3000 10000 13000 false, .requestCardAlignment]).toOption :=
    Option.isSome_iff_exists.1 (by decide +kernel)
  obtain ⟨free, stats, accepted, r, ran, facts⟩ : s.1.freeBytes = 6000 ∧ s.1.stats = {} ∧
      Throughout (fun p o => p.Accepts o ∧ p.Inserts AddsNothing o) s.1 requests ∧
      ∃ r ∈ (s.1.run requests).toOption,
        r.2.flatMap Answer.handed = [⟨1024, 1524⟩, ⟨1524, 2560⟩, ⟨10240, 12340⟩] ∧
        r.1.freeBytes = 512 ∧ r.1.stats.discardedBytes = 460 ∧ r.1.stats.darkMatterBytes = 1392 := by
    revert s
    decide +kernel
  have made : create {} = .ok (fresh {}) := by decide +kernel
  have reachable := (Reachable.create made).run (by decide +kernel) (mem_toOption.1 done)
  have ran := mem_toOption.1 ran
  have balances := (allocation_ledger_balances reachable (by decide) accepted).2.of_ok ran
  rw [facts.1] at balances
  exact ⟨s.1, r.1, r.2, free, stats, ran, facts.1, facts.2.1, facts.2.2.1, facts.2.2.2, balances⟩

end FreeStore.Pool
