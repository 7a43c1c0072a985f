import FreeStore.Segment.Basic
/-!
A rack of segment chains.

Each cell of a rack holds a chain or nothing. Linking one cell's chain behind another's segment empties
the first cell; unlinking puts the rest of a chain into the cell of that rest's first segment. Neither makes a
segment or loses one (`perm_link`, `perm_unlink`), and what is taken off a rack is the one segment that is missing
then (`perm_take`).
-/
namespace FreeStore

abbrev Rack := List (Option Chain)

namespace Rack

def get (r : Rack) (i : Nat) : Outcome Chain :=
  match r.getD i none with
  | some c => .ok c
  | none => .error .brokenPromise

/-- The first segment in a cell. -/
def front (r : Rack) (i : Nat) : Outcome Segment := do
  match ← r.get i with
  | [] => .error .brokenPromise
  | s :: _ => return s

/-- Replace the first segment in a cell. -/
def setFront (r : Rack) (i : Nat) (s : Segment) : Outcome Rack := do
  return r.set i (some (s :: (← r.get i).tail))

/-- Put the chain in cell `j` behind the segment in cell `i`. -/
def link (r : Rack) (i j : Nat) : Outcome Rack := do
  let chain ← (← r.get i).link (← r.get j)
  return (r.set i (some chain)).set j none

/-- Take off what is linked behind the segment in cell `i`; `home` gives the cell of a segment. -/
def unlink (r : Rack) (home : Segment → Nat) (i : Nat) : Outcome (Rack × Option Nat) := do
  match ← r.get i with
  | s :: t :: rest => return ((r.set i (some [s])).set (home t) (some (t :: rest)), some (home t))
  | _ => return (r, none)

/-- Empty a cell, which must hold a single segment. -/
def take (r : Rack) (i : Nat) : Outcome (Rack × Segment) := do
  match ← r.get i with
  | [s] => return (r.set i none, s)
  | _ => .error .brokenPromise

/-- All segments in the rack. -/
def segments (r : Rack) : List Segment := r.flatMap fun cell => cell.getD []

variable {r r' : Rack} {i j : Nat} {c : Chain} {s : Segment} {cell : Option Chain}

theorem get_eq_ok : r.get i = .ok c ↔ r[i]? = some (some c) := by
  unfold get
  rw [List.getD_eq_getElem?_getD]
  cases r[i]? with
  | none => simp
  | some cell => cases cell <;> simp

theorem getElem?_set (found : r[i]? = some cell) (cell' : Option Chain) (j : Nat) :
    (r.set i cell')[j]? = if i = j then some cell' else r[j]? := by
  obtain ⟨inside, -⟩ := List.getElem?_eq_some_iff.1 found
  rw [List.getElem?_set]
  simp only [inside, if_true]

/-- What a cell held goes, and what it is given comes. -/
theorem perm_set (found : r[i]? = some cell) (cell' : Option Chain) :
    (segments (r.set i cell') ++ cell.getD []).Perm (segments r ++ cell'.getD []) := by
  induction r generalizing i with
  | nil => cases found
  | cons d r ih =>
    cases i with
    | zero =>
      obtain rfl : d = cell := by simpa using found
      have swapped : (cell'.getD [] ++ (segments r ++ d.getD [])).Perm
          (d.getD [] ++ (segments r ++ cell'.getD [])) := by
        rw [← List.append_assoc, ← List.append_assoc]
        exact (List.perm_append_comm.trans (List.perm_append_comm.append_left _)).trans
          (List.append_assoc .. ▸ .refl _)
      simpa [segments] using swapped
    | succ i =>
      have others := (ih (i := i) (by simpa using found)).append_left (d.getD [])
      simpa [segments] using others

/-- A chain that is linked behind a segment of another cell is still in the rack. -/
theorem perm_link (apart : i ≠ j) (done : r.link i j = .ok r') : r'.segments.Perm r.segments := by
  unfold link at done
  obtain ⟨c, front, done⟩ := bind_eq_ok.1 done
  obtain ⟨d, behind, done⟩ := bind_eq_ok.1 done
  obtain ⟨chain, linked, done⟩ := bind_eq_ok.1 done
  obtain rfl := Except.ok.inj done
  obtain rfl : chain = c ++ d := by
    unfold Chain.link at linked
    split at linked
    · exact (Except.ok.inj linked).symm
    · cases linked
  have first := get_eq_ok.1 front
  have second : (r.set i (some (c ++ d)))[j]? = some (some d) := by
    rw [getElem?_set first, if_neg apart]
    exact get_eq_ok.1 behind
  have filled := perm_set first (some (c ++ d))
  have emptied := perm_set second none
  simp only [Option.getD_some, Option.getD_none, List.append_nil] at filled emptied
  refine (List.perm_append_right_iff (c ++ d)).1 (.trans ?_ filled)
  exact (List.perm_append_comm.append_left _).trans (List.append_assoc .. ▸ emptied.append_right c)

/-- The rest of a chain is still in the rack when it went to a cell that was vacant. -/
theorem perm_unlink {home : Segment → Nat} {k : Option Nat} (done : r.unlink home i = .ok (r', k))
    (vacant : ∀ k' ∈ k, r[k']? = some none) : r'.segments.Perm r.segments := by
  unfold unlink at done
  obtain ⟨c, front, done⟩ := bind_eq_ok.1 done
  have first := get_eq_ok.1 front
  match c, done with
  | [], done =>
    obtain ⟨rfl, -⟩ := Prod.mk.inj (Except.ok.inj done)
    exact .refl _
  | [s], done =>
    obtain ⟨rfl, -⟩ := Prod.mk.inj (Except.ok.inj done)
    exact .refl _
  | s :: t :: rest, done =>
    obtain ⟨rfl, rfl⟩ := Prod.mk.inj (Except.ok.inj done)
    have second : (r.set i (some [s]))[home t]? = some none := by
      rw [getElem?_set first, if_neg]
      · exact vacant _ rfl
      · rintro rfl
        simp [vacant _ rfl] at first
    have cut := perm_set first (some [s])
    have moved := perm_set second (some (t :: rest))
    simp only [Option.getD_some, Option.getD_none, List.append_nil] at cut moved
    refine (List.perm_append_right_iff [s]).1 ((moved.append_right [s]).trans (.trans ?_ cut))
    rw [List.append_assoc]
    exact List.perm_append_comm.append_left _

/-- What is taken is what is missing then. -/
theorem perm_take (done : r.take i = .ok (r', s)) : (s :: r'.segments).Perm r.segments := by
  unfold take at done
  obtain ⟨c, front, done⟩ := bind_eq_ok.1 done
  have first := get_eq_ok.1 front
  split at done
  · obtain ⟨rfl, rfl⟩ := Prod.mk.inj (Except.ok.inj done)
    have emptied := perm_set first none
    simp only [Option.getD_some, Option.getD_none, List.append_nil] at emptied
    exact List.perm_append_comm.trans emptied
  · cases done

end Rack

end FreeStore
