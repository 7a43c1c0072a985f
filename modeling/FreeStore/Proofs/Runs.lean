import FreeStore.Proofs.Custody
/-!
Whole runs.

A run of a new pool whose arguments are valid goes through sound pools only. It can end early where a
running count overflows, and where an operation leaves the address space, although its arguments are valid:
`run_sound_iff` says that this is the only thing that goes wrong.
-/
namespace FreeStore.Pool

variable {F : Fault → Prop} {p : Pool} {os rest : List Operation}
  {condition : Pool → Operation → Prop}

/-- The preconditions of every operation, those of carving on a sweep grid included. -/
def AcceptsAll (p : Pool) (o : Operation) : Prop := p.Accepts o ∧ p.AcceptsOnGrid o

instance : ∀ p o, Decidable (AcceptsAll p o) := fun _ _ => inferInstanceAs (Decidable (_ ∧ _))

/-! ## The parts of a run -/

theorem Throughout.take (h : Throughout condition p os) (n : Nat) :
    Throughout condition p (os.take n) := by
  induction os generalizing p n with
  | nil => simpa using h
  | cons o os ih =>
    cases n with
    | zero => trivial
    | succ n => exact ⟨h.1, fun r hr => ih (h.2 r hr) n⟩

theorem Throughout.and {condition' : Pool → Operation → Prop} (h : Throughout condition p os)
    (g : Throughout condition' p os) : Throughout (fun p o => condition p o ∧ condition' p o) p os := by
  induction os generalizing p with
  | nil => trivial
  | cons o os ih => exact ⟨⟨h.1, g.1⟩, fun r hr => ih (h.2 r hr) (g.2 r hr)⟩

theorem Throughout.imp {condition' : Pool → Operation → Prop} (h : Throughout condition p os)
    (w : ∀ p, ∀ o ∈ os, condition p o → condition' p o) : Throughout condition' p os := by
  induction os generalizing p with
  | nil => trivial
  | cons o os ih =>
    exact ⟨w _ o List.mem_cons_self h.1, fun r hr =>
      ih (h.2 r hr) fun p o ho => w p o (List.mem_cons_of_mem _ ho)⟩

theorem run_append_error {f : Fault} (h : p.run os = .error f) : p.run (os ++ rest) = .error f := by
  induction os generalizing p with
  | nil => cases h
  | cons o os ih =>
    rw [List.cons_append, run]
    rw [run] at h
    cases hs : p.step o with
    | error g =>
      rw [hs] at h
      exact h
    | ok r =>
      obtain ⟨q, answer⟩ := r
      rw [hs, ok_bind] at h
      rw [ok_bind]
      dsimp only at h ⊢
      cases hr : q.run os with
      | error g =>
        rw [hr] at h
        obtain rfl : g = f := Except.error.inj h
        rw [ih hr]
        rfl
      | ok s =>
        rw [hr] at h
        cases h

/-! ## Soundness -/

/-- What a sound pool with valid arguments has done was in range. -/
theorem staysInRange_of_perform {o : Operation} {r : Pool × Answer} (h : p.Sound) (accepts : p.Accepts o)
    (done : p.perform o = .ok r) : p.StaysInRange o := by
  cases o with
  | move low high dst =>
    intro moves
    rw [perform, moveHeap_eq h accepts moves] at done
    cases moved : moveCursor ⟨low, high⟩ dst p.cursor with
    | error f =>
      rw [moved] at done
      cases done
    | ok cursor => exact fits_of_moveCursor moved
  | remove low high minimum =>
    cases removed : p.removeWithin low high minimum with
    | error f =>
      rw [perform, removed] at done
      cases done
    | ok s => exact roomToSplit_of_removeWithin h removed
  | _ => trivial

theorem run_ends (hF : F .counterOverflow) (h : p.Sound) (accepts : Throughout AcceptsAll p os)
    (range : F .arithmetic ∨ Throughout StaysInRange p os) :
    Ends F (p.run os) fun r => r.1.Sound := by
  induction os generalizing p with
  | nil => exact h
  | cons o os ih =>
    obtain ⟨⟨valid, grid⟩, others⟩ := accepts
    rw [run]
    refine (step_ends (.inl hF) h valid (.inr grid) (range.imp_right And.left)).and_eq.bind ?_
    rintro ⟨q, answer⟩ ⟨done, sound, -⟩
    have next := mem_toOption.2 done
    refine (ih sound (others _ next) (range.imp_right fun all => all.2 _ next)).bind ?_
    rintro ⟨r, answers⟩ sound'
    exact sound'

/-- A count overflows in a run only where an operation of the run has no room for what it may count. -/
theorem run_counterOverflow (h : p.Sound) (accepts : Throughout Accepts p os)
    (ran : p.run os = .error .counterOverflow) :
    ∃ before o after q answers, os = before ++ o :: after ∧ p.run before = .ok (q, answers) ∧
      ((∃ c ∈ q.counts, wordLimit ≤ c + (q.freeBytes + q.bytesIn o)) ∨
        wordLimit ≤ q.pendingLoss + q.insertions o * (q.freeBytes + q.bytesIn o)) := by
  induction os generalizing p with
  | nil => cases ran
  | cons o os ih =>
    obtain ⟨valid, others⟩ := accepts
    cases first : p.step o with
    | error f =>
      rw [run, first] at ran
      obtain rfl : f = .counterOverflow := Except.error.inj ran
      exact ⟨[], o, os, p, [], rfl, rfl, step_counterOverflow h valid first⟩
    | ok s =>
      obtain ⟨q, answer⟩ := s
      have ends := step_ends (F := fun _ => True) (.inl trivial) h valid (.inl fun _ _ => trivial)
        (.inl trivial)
      have rest : q.run os = .error .counterOverflow := by
        rw [run, first, ok_bind] at ran
        dsimp only at ran
        cases later : q.run os with
        | error f =>
          rw [later] at ran
          exact ran
        | ok t =>
          rw [later] at ran
          cases ran
      obtain ⟨before, o', after, r, answers, rfl, led, full⟩ :=
        ih (ends.of_ok first).1 (others _ (mem_toOption.2 first)) rest
      refine ⟨o :: before, o', after, r, answer :: answers, rfl, ?_, full⟩
      rw [run, first, ok_bind]
      dsimp only
      rw [led]
      rfl

theorem staysInRange_of_run (h : p.Sound) (accepts : Throughout AcceptsAll p os)
    {r : Pool × List Answer} (done : p.run os = .ok r) : Throughout StaysInRange p os := by
  induction os generalizing p r with
  | nil => trivial
  | cons o os ih =>
    obtain ⟨⟨valid, -⟩, others⟩ := accepts
    obtain ⟨q, answer, answers, first, rest⟩ := run_cons_eq_ok done
    refine ⟨staysInRange_of_perform h.nextStep valid first, fun s found => ?_⟩
    obtain rfl := Except.ok.inj (first.symm.trans (mem_toOption.1 found))
    have ends := step_ends (F := fun _ => True) (.inl trivial) h valid (.inl fun _ _ => trivial)
      (.inl trivial)
    exact ih (ends.of_ok first).1 (others _ found) rest

/-- A run of a new pool, with valid arguments and running counts that do not overflow, leads from sound pool
to sound pool, and its totals pass the check at every step, exactly if none of its operations leaves the
address space. -/
theorem run_sound_iff {config : PoolConfig} (made : create config = .ok p)
    (accepts : Throughout AcceptsAll p os) (counts : p.run os ≠ .error .counterOverflow) :
    (∀ n, ∃ q answers, p.run (os.take n) = .ok (q, answers) ∧ q.Sound ∧ q.isConsistent = true) ↔
      Throughout StaysInRange p os := by
  have sound := sound_create made
  constructor
  · intro runs
    obtain ⟨q, answers, done, -⟩ := runs os.length
    rw [List.take_length] at done
    exact staysInRange_of_run sound accepts done
  · intro range n
    have ends := run_ends (F := fun f => f = .counterOverflow) rfl sound (accepts.take n)
      (.inr (range.take n))
    obtain ⟨⟨q, answers⟩, done, sound'⟩ := ends.exists_ok fun f error overflow => by
      subst overflow
      have whole : p.run (os.take n ++ os.drop n) = _ := run_append_error error
      rw [List.take_append_drop] at whole
      exact counts whole
    exact ⟨q, answers, done, sound', sound'.isConsistent⟩

/-- An entry goes where it fits, but the cursor still stands at one that is gone, and leaves the address
space. -/
def strandedCursor : List Operation :=
  [.expand 1000 1000 2000 true, .requestCardAlignment, .contract 1000 1000 2000, .expand 512 0 512 true,
    .move 0 1001 (wordLimit - 600)]

/-- An object is taken off an entry that waits for realignment, and given back. -/
def realignedAndServed : List Operation :=
  [.expand 3000 1000 4000 true, .requestCardAlignment, .allocate .mutator { bytes := 600 },
    .recycle 1024 1624]

/-- The one run ends early, the other goes through sound pools to its end. -/
theorem strandedCursor_ends_run :
    (¬ ∀ n, ∃ q answers, (fresh {}).run (strandedCursor.take n) = .ok (q, answers) ∧ q.Sound ∧
      q.isConsistent = true) ∧
    (∀ n, ∃ q answers, (fresh {}).run (realignedAndServed.take n) = .ok (q, answers) ∧ q.Sound ∧
      q.isConsistent = true) ∧
    ((fresh {}).run realignedAndServed).map Prod.snd =
      .ok [.done, .loss 440, .object { bytes := 600 } (some 1024), .kept true] := by
  have made : create {} = .ok (fresh {}) := by decide +kernel
  have left : ¬ Throughout StaysInRange (fresh {}) strandedCursor := by decide +kernel
  have stays : Throughout StaysInRange (fresh {}) realignedAndServed := by decide +kernel
  refine ⟨mt (run_sound_iff made (by decide +kernel) (by decide +kernel)).1 left, ?_, by decide +kernel⟩
  exact (run_sound_iff made (by decide +kernel) (by decide +kernel)).2 stays

theorem strandedCursor_overflows : create {} = .ok (fresh {}) ∧
    Throughout AcceptsAll (fresh {}) strandedCursor ∧
    (fresh {}).run strandedCursor = .error .arithmetic := by
  decide +kernel

end FreeStore.Pool
