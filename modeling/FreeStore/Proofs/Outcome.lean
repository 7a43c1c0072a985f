import FreeStore.Word
/-!
How an operation ends.

`Ends F x P` says that `x` yields a result with `P`, or else a fault that `F` admits. With
`F := fun _ => True` that is a statement about results only; with `F := fun f => f = .counterOverflow` it
also says that nothing else than a running count can end the operation. The lemmas of this module go
through an operation from its first step on: each of them disposes of the step in front.
-/
namespace FreeStore

/-- `x` yields a result with `P`, or a fault that `F` admits. -/
def Ends {α : Type} (F : Fault → Prop) (x : Outcome α) (P : α → Prop) : Prop :=
  match x with
  | .ok a => P a
  | .error f => F f

section

variable {α β : Type} {F : Fault → Prop} {P Q : α → Prop}

@[simp] theorem ends_ok {a : α} : Ends F (.ok a) P ↔ P a := Iff.rfl

@[simp] theorem ends_pure {a : α} : Ends F (pure a) P ↔ P a := Iff.rfl

@[simp] theorem ends_error {f : Fault} : Ends F (.error f : Outcome α) P ↔ F f := Iff.rfl

theorem ends_bind {x : Outcome α} {k : α → Outcome β} {R : β → Prop} :
    Ends F (x >>= k) R ↔ Ends F x fun a => Ends F (k a) R := by
  cases x <;> rfl

@[simp] theorem ok_bind {a : α} {k : α → Outcome β} : (Except.ok a : Outcome α) >>= k = k a := rfl

theorem Ends.mono {x : Outcome α} (h : Ends F x P) (w : ∀ a, P a → Q a) : Ends F x Q := by
  cases x with
  | ok a => exact w a h
  | error f => exact h

theorem Ends.bind {x : Outcome α} {k : α → Outcome β} {R : β → Prop} (h : Ends F x P)
    (w : ∀ a, P a → Ends F (k a) R) : Ends F (x >>= k) R :=
  ends_bind.2 (h.mono w)

/-- The result may be taken to be the one that there is. -/
theorem Ends.and_eq {x : Outcome α} (h : Ends F x P) : Ends F x fun a => x = .ok a ∧ P a := by
  cases x with
  | ok a => exact ⟨rfl, h⟩
  | error f => exact h

/-- What is known of every result may be added. -/
theorem Ends.and {x : Outcome α} (h : Ends F x P) (g : Ends (fun _ => True) x Q) :
    Ends F x fun a => P a ∧ Q a := by
  cases x with
  | ok a => exact ⟨h, g⟩
  | error f => exact h

/-- Where only results matter, a step may yield anything that the steps behind it can do with. -/
theorem Ends.any {x : Outcome α} {k : α → Outcome β} {R : β → Prop}
    (w : ∀ a, Ends (fun _ => True) (k a) R) : Ends (fun _ => True) (x >>= k) R := by
  cases x with
  | ok a => exact w a
  | error f => trivial

/-- What ends with a result can be told from the result. -/
theorem Ends.of_ok {x : Outcome α} {a : α} (h : Ends F x P) (hx : x = .ok a) : P a := by
  subst hx
  exact h

theorem Ends.of_error {x : Outcome α} {f : Fault} (h : Ends F x P) (hx : x = .error f) : F f := by
  subst hx
  exact h

/-- An operation that cannot fault has a result. -/
theorem Ends.exists_ok {x : Outcome α} (h : Ends F x P) (hx : ∀ f, x = .error f → ¬ F f) :
    ∃ a, x = .ok a ∧ P a := by
  cases x with
  | ok a => exact ⟨a, rfl, h⟩
  | error f => exact absurd h (hx f rfl)

theorem mem_toOption {x : Outcome α} {a : α} : a ∈ x.toOption ↔ x = .ok a := by
  cases x <;> simp [Except.toOption]

theorem require_bind {b : Bool} {k : Unit → Outcome α} (h : b = true) : require b >>= k = k () := by
  subst h
  rfl

theorem Word.add_bind {a b : Nat} {k : Nat → Outcome α} (h : a + b < wordLimit) :
    Word.add a b >>= k = k (a + b) := by
  rw [Word.add_eq_ok.2 ⟨h, rfl⟩]
  rfl

theorem Word.sub_bind {a b : Nat} {k : Nat → Outcome α} (h : b ≤ a) :
    Word.sub a b >>= k = k (a - b) := by
  rw [Word.sub_eq_ok.2 ⟨h, rfl⟩]
  rfl

/-- A running count goes on, unless the sum is no word. -/
theorem Word.advance_bind {a b : Nat} {k : Nat → Outcome β} {R : β → Prop}
    (hF : F .counterOverflow ∨ a + b < wordLimit) (h : Ends F (k (a + b)) R) :
    Ends F (Word.advance a b >>= k) R := by
  unfold Word.advance
  split
  · exact h
  · rename_i beyond
    exact hF.resolve_right beyond

end

end FreeStore
