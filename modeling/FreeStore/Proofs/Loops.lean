import Mathlib.Data.PFun
import FreeStore.Proofs.Outcome
/-!
Loops that may run for ever.

A `Running` computation faults, yields a result, or does neither. `loop` takes turns until one of them stops, so it
finishes only if one does; `loop_eq` takes the first turn. What an outcome yields is lifted into a loop as it is.
-/
namespace FreeStore

/-- A computation that may fault or run for ever. -/
abbrev Running := ExceptT Fault Part

/-- How a turn of a loop ends. -/
inductive Turn (σ ρ : Type) where
  | again (s : σ)
  | stop (r : ρ)

variable {σ ρ α β γ : Type}

/-- A fault stops the loop too. -/
def Turn.next : Outcome (Turn σ ρ) → Outcome ρ ⊕ σ
  | .error f => .inl (.error f)
  | .ok (.stop r) => .inl (.ok r)
  | .ok (.again s) => .inr s

/-- Take turns until one stops. -/
def loop (turn : σ → Running (Turn σ ρ)) : σ → Running ρ :=
  PFun.fix fun s => (turn s).run.map Turn.next

namespace Running

/-- The computation does not run for ever: it yields a result with `P`, or a fault that `F` admits. -/
def Halts (F : Fault → Prop) (x : Running α) (P : α → Prop) : Prop := ∃ r : Outcome α, x = liftM r ∧ Ends F r P

theorem Halts.dom {F : Fault → Prop} {x : Running α} {P : α → Prop} (h : Halts F x P) : x.run.Dom := by
  obtain ⟨r, rfl, -⟩ := h
  trivial

theorem run_liftM (x : Outcome α) : (liftM x : Running α).run = pure x := rfl

@[simp] theorem liftM_ok {a : α} : (liftM (.ok a : Outcome α) : Running α) = pure a := rfl

/-- Nothing is done after a fault. -/
theorem error_bind {f : Fault} {k : α → Running β} :
    (liftM (.error f : Outcome α) : Running α) >>= k = liftM (.error f : Outcome β) := by
  refine ExceptT.ext ?_
  rw [ExceptT.run_bind, run_liftM, pure_bind]
  rfl

theorem liftM_bind (x : Outcome α) (k : α → Outcome β) :
    (liftM (x >>= k) : Running β) = liftM x >>= fun a => liftM (k a) := by
  cases x with
  | error f => exact error_bind.symm
  | ok a => exact (pure_bind (m := Running) a fun a => liftM (k a)).symm

/-- What follows an outcome matters only for the value that it yields. -/
theorem bind_congr_ok {x : Outcome α} {k k' : α → Running β} (same : ∀ a, x = .ok a → k a = k' a) :
    liftM x >>= k = liftM x >>= k' := by
  cases x with
  | error f => exact error_bind.trans error_bind.symm
  | ok a => exact (pure_bind a k).trans ((same a rfl).trans (pure_bind a k').symm)

theorem liftM_map_bind (x : Outcome α) (g : α → β) (k : β → Running γ) :
    liftM (x.map g) >>= k = liftM x >>= fun a => k (g a) := by
  cases x with
  | error f => exact error_bind.trans error_bind.symm
  | ok a => exact (pure_bind (g a) k).trans (pure_bind a fun a => k (g a)).symm

theorem bind_eq_liftM {x : Outcome α} {k : α → Running β} {k' : α → Outcome β}
    (same : ∀ a, x = .ok a → k a = liftM (k' a)) : liftM x >>= k = liftM (x >>= k') :=
  (bind_congr_ok same).trans (liftM_bind x k').symm

theorem Halts.bind {F : Fault → Prop} {x : Outcome α} {k : α → Running β} {P : α → Prop} {Q : β → Prop}
    (ends : Ends F x P) (next : ∀ a, x = .ok a → P a → Halts F (k a) Q) : Halts F (liftM x >>= k) Q := by
  cases x with
  | error f => exact ⟨.error f, error_bind, ends⟩
  | ok a =>
    obtain ⟨r, done, ends⟩ := next a rfl ends
    exact ⟨r, (pure_bind a k).trans done, ends⟩

end Running

/-- A loop takes its first turn, and goes on or stops as that says. -/
theorem loop_eq (turn : σ → Running (Turn σ ρ)) (s : σ) :
    loop turn s = turn s >>= fun
      | .again s => loop turn s
      | .stop r => pure r := by
  refine ExceptT.ext ?_
  rw [ExceptT.run_bind]
  rcases (turn s).run.eq_none_or_eq_some with stuck | ⟨r, done⟩
  · have undefined : (loop turn s).run = Part.none := by
      refine Part.eq_none_iff.2 fun r hr => ?_
      have first := PFun.dom_of_mem_fix hr
      rw [stuck] at first
      exact first
    rw [undefined, stuck]
    exact (Part.bind_none _).symm
  · have first : Turn.next r ∈ (turn s).run.map Turn.next := Part.mem_map Turn.next (done ▸ Part.mem_some r)
    rw [done, Part.bind_eq_bind, Part.bind_some]
    cases r with
    | error f => exact Part.eq_some_iff.2 (PFun.fix_stop first)
    | ok t =>
      cases t with
      | stop r => exact Part.eq_some_iff.2 (PFun.fix_stop first)
      | again s' => exact PFun.fix_fwd_eq first

/-- A loop of which every turn goes on runs for ever. -/
theorem not_dom_loop {turn : σ → Running (Turn σ ρ)} (on : ∀ s, ∃ s', turn s = pure (.again s')) (s : σ) :
    ¬ (loop turn s).run.Dom := by
  intro ends
  refine PFun.fixInduction' (C := fun _ => False) (Part.get_mem ends) (fun s stops => ?_) fun _ _ _ _ => id
  obtain ⟨s', again⟩ := on s
  rw [again] at stops
  obtain ⟨r, hr, stop⟩ := (Part.mem_map_iff _).1 stops
  obtain rfl := Part.mem_some_iff.1 hr
  cases stop

theorem loop_again {turn : σ → Running (Turn σ ρ)} {s s' : σ} (h : turn s = pure (.again s')) :
    loop turn s = loop turn s' := by
  rw [loop_eq, h, pure_bind]

theorem loop_stop {turn : σ → Running (Turn σ ρ)} {s : σ} {r : ρ} (h : turn s = pure (.stop r)) :
    loop turn s = pure r := by
  rw [loop_eq, h, pure_bind]

end FreeStore
