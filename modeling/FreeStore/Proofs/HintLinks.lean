import FreeStore.Pool.HintTable
import FreeStore.Proofs.HintSlots
/-!
The slot table holds the hint cache.

A table `Represents` a cache if a walk from either of its two heads comes past the slots of the cache's list,
in order, and ends (`Path`), and the slots in use have the cache's hints in them. Every operation of the table
keeps this up with the operation of the cache (`Represents.act`). What has to be shown for it is that a slot
that is unlinked in the middle of a walk leaves the rest of both lists as they were (`Represents.deactivate`),
so that the walk can go on (`Represents.sweep`).
-/
namespace FreeStore.HintTable

open HintCache (Operation giveBack overwrite Slotted)

/-- The links lead from `start` past the slots `l`, one after the other, to `finish`. -/
def Path (slots : List HintSlot) : Option Nat → List Nat → Option Nat → Prop
  | start, [], finish => start = finish
  | start, i :: l, finish => start = some i ∧ ∃ s, slots[i]? = some s ∧ Path slots s.next l finish

/-- The table is the cache written down. -/
structure Represents (t : HintTable) (c : HintCache) : Prop where
  inUse : Path t.slots t.active (c.active.map Hint.slot) none
  spare : Path t.slots t.inactive c.spare none
  stored : ∀ h ∈ c.active, ∃ s, t.slots[h.slot]? = some s ∧ s.hint h.slot = h
  clock : t.clock = c.clock

variable {t : HintTable} {c : HintCache} {slots : List HintSlot} {s : HintSlot} {f : HintSlot → HintSlot}
  {a b start finish : Option Nat} {i j n : Nat} {k l : List Nat} {g h : Hint} {done rest : List Hint}
  {stop gone : Hint → Bool}

/-! ## Paths -/

theorem path_append : Path slots start (k ++ l) finish ↔
    ∃ mid, Path slots start k mid ∧ Path slots mid l finish := by
  induction k generalizing start with
  | nil => simp [Path]
  | cons i k ih =>
    simp only [List.cons_append, Path, ih]
    constructor
    · rintro ⟨here, s, found, mid, front, back⟩
      exact ⟨mid, ⟨here, s, found, front⟩, back⟩
    · rintro ⟨mid, ⟨here, s, found, front⟩, back⟩
      exact ⟨here, s, found, mid, front, back⟩

theorem Path.head_eq (h : Path slots start l none) : start = l.head? := by
  cases l with
  | nil => exact h
  | cons i l => exact h.1

theorem slots_revise_of_ne (other : i ≠ j) : (t.revise i f).slots[j]? = t.slots[j]? := by
  simp [revise, other]

theorem slots_revise_self (found : t.slots[i]? = some s) : (t.revise i f).slots[i]? = some (f s) := by
  simp [revise, found]

@[simp] theorem length_revise : (t.revise i f).slots.length = t.slots.length := List.length_modify ..

@[simp] theorem length_link : (t.link i a).slots.length = t.slots.length := length_revise

/-- A path does not depend on slots beside it, nor on what is in the slots. -/
theorem Path.revise (h : Path t.slots start l finish) (keeps : i ∉ l ∨ ∀ s, (f s).next = s.next) :
    Path (t.revise i f).slots start l finish := by
  induction l generalizing start with
  | nil => exact h
  | cons j l ih =>
    obtain ⟨here, s, found, rest⟩ := h
    have later := ih rest (keeps.imp_left fun fresh => fun mem => fresh (List.mem_cons_of_mem _ mem))
    by_cases same : i = j
    · subst same
      have next := keeps.resolve_left fun fresh => fresh List.mem_cons_self
      exact ⟨here, f s, slots_revise_self found, next s ▸ later⟩
    · exact ⟨here, s, (slots_revise_of_ne same).trans found, later⟩

theorem Path.link (h : Path t.slots start l finish) (fresh : i ∉ l) :
    Path (t.link i a).slots start l finish :=
  h.revise (.inl fresh)

/-- The links say nothing about the hint in a slot. -/
theorem stored_link (h : ∃ s, t.slots[j]? = some s ∧ s.hint j = g) :
    ∃ s, (t.link i a).slots[j]? = some s ∧ s.hint j = g := by
  obtain ⟨s, found, hint⟩ := h
  by_cases same : i = j
  · subst same
    exact ⟨_, slots_revise_self found, hint⟩
  · exact ⟨s, (slots_revise_of_ne same).trans found, hint⟩

/-! ## Unlinking a slot -/

@[simp] theorem length_deactivate : (t.deactivate a i b).slots.length = t.slots.length := by
  cases a <;> simp [deactivate]

@[simp] theorem clock_deactivate : (t.deactivate a i b).clock = t.clock := by cases a <;> rfl

/-- A path past neither of the two slots that are relinked stays. -/
theorem Path.deactivate (h : Path t.slots start l finish) (fresh : i ∉ l) (front : ∀ q ∈ a, q ∉ l) :
    Path (t.deactivate a i b).slots start l finish := by
  cases a with
  | none => exact h.link (t := { t with active := b }) fresh
  | some q => exact (h.link (front q rfl)).link fresh

/-- The slot behind `i` comes next to the slot in front of it. -/
theorem path_unlink (whole : Path t.slots t.active (k ++ i :: l) none) (nodup : (k ++ i :: l).Nodup)
    (found : t.slots[i]? = some s) :
    Path (t.deactivate k.getLast? i s.next).slots (t.deactivate k.getLast? i s.next).active (k ++ l) none := by
  obtain ⟨mid, front, rfl, s', found', back⟩ := path_append.1 whole
  obtain rfl : s = s' := Option.some_inj.1 (found.symm.trans found')
  obtain ⟨fresh, apart⟩ := List.nodup_cons.1 (List.perm_middle.nodup_iff.1 nodup)
  have freshK : i ∉ k := fun mem => fresh (List.mem_append_left _ mem)
  have freshL : i ∉ l := fun mem => fresh (List.mem_append_right _ mem)
  rcases List.eq_nil_or_concat' k with rfl | ⟨k, q, rfl⟩
  · exact back.deactivate freshL (by simp)
  · obtain ⟨mid, front, rfl, sq, foundQ, -⟩ := path_append.1 front
    have other : i ≠ q := fun same => freshK (by simp [same])
    obtain ⟨freshQ, -⟩ := List.nodup_cons.1 (List.perm_middle.nodup_iff.1 (List.append_cons k q l ▸ apart))
    have last : (k ++ [q]).getLast? = some q := by simp
    rw [last, List.append_assoc, List.singleton_append]
    refine path_append.2 ⟨some q, ?_, rfl, { sq with next := s.next }, ?_, ?_⟩
    · exact front.deactivate (fun mem => freshK (by simp [mem])) fun _ same => by
        cases same
        exact fun mem => freshQ (by simp [mem])
    · exact (slots_revise_of_ne other).trans (slots_revise_self foundQ)
    · exact back.deactivate freshL fun _ same => by
        cases same
        exact fun mem => freshQ (by simp [mem])

theorem slots_deactivate_self (found : t.slots[i]? = some s) (front : ∀ q ∈ a, q ≠ i) :
    (t.deactivate a i b).slots[i]? = some { s with next := t.inactive } := by
  cases a with
  | none => exact slots_revise_self found
  | some q => exact slots_revise_self ((slots_revise_of_ne (front q rfl)).trans found)

theorem stored_deactivate (h : ∃ s, t.slots[j]? = some s ∧ s.hint j = g) :
    ∃ s, (t.deactivate a i b).slots[j]? = some s ∧ s.hint j = g := by
  cases a with
  | none => exact stored_link (t := { t with active := b }) h
  | some q => exact stored_link (stored_link h)

/-- To unlink a slot is to take its hint off the active ones, and to have it spare. -/
theorem Represents.deactivate (ht : t.Represents c) (nodup : c.slots.Nodup)
    (whole : c.active = done ++ h :: rest) (found : t.slots[h.slot]? = some s) :
    (t.deactivate (done.map Hint.slot).getLast? h.slot s.next).Represents
      { c with active := done ++ rest, spare := h.slot :: c.spare } := by
  obtain ⟨apart, -, cross⟩ := List.nodup_append.1 nodup
  have mapped : c.active.map Hint.slot = done.map Hint.slot ++ h.slot :: rest.map Hint.slot := by
    rw [whole, List.map_append, List.map_cons]
  have front : ∀ q ∈ (done.map Hint.slot).getLast?, q ∈ done.map Hint.slot := fun q => List.mem_of_getLast?
  refine ⟨?_, ⟨rfl, _, slots_deactivate_self found ?_, ?_⟩, fun g hg => ?_, ?_⟩
  · rw [List.map_append]
    exact path_unlink (mapped ▸ ht.inUse) (mapped ▸ apart) found
  · rintro q hq rfl
    rw [mapped] at apart
    exact (List.nodup_append.1 apart).2.2 _ (front _ hq) _ List.mem_cons_self rfl
  · refine ht.spare.deactivate (fun mem => ?_) fun q hq mem => ?_
    · exact cross _ (mapped ▸ by simp) _ mem rfl
    · exact cross _ (mapped ▸ List.mem_append_left _ (front q hq)) _ mem rfl
  · refine stored_deactivate (ht.stored g ?_)
    rw [whole]
    exact List.perm_middle.mem_iff.2 (List.mem_cons_of_mem _ hg)
  · rw [clock_deactivate]
    exact ht.clock

/-! ## Walks that unlink -/

/-- A walk that may take as many steps as there are hints left may take one. -/
theorem exists_succ_of_cons (enough : (h :: rest).length ≤ n) : ∃ m, n = m + 1 ∧ rest.length ≤ m := by
  cases n with
  | zero => exact absurd enough (Nat.not_succ_le_zero _)
  | succ m => exact ⟨m, rfl, Nat.le_of_succ_le_succ enough⟩

theorem swept_nil (whole : c.active = done) : c.swept stop gone done [] = c := by
  subst whole
  simp [HintCache.swept, giveBack]

theorem swept_of_stop (whole : c.active = done ++ h :: rest) (ends : stop h = true) :
    c.swept stop gone done (h :: rest) = c := by
  have active : done ++ h :: rest = c.active := whole.symm
  simp [HintCache.swept, giveBack, ends, active]

theorem swept_of_gone (goes : gone h = true) (on : ¬ stop h = true) :
    c.swept stop gone done (h :: rest) =
      HintCache.swept { c with active := done ++ rest, spare := h.slot :: c.spare } stop gone done rest := by
  simp [HintCache.swept, giveBack, on, goes]

theorem swept_of_kept (stays : ¬ gone h = true) (on : ¬ stop h = true) :
    c.swept stop gone done (h :: rest) = c.swept stop gone (done ++ [h]) rest := by
  simp [HintCache.swept, on, stays]

/-- The link of a slot leads to the next hint. -/
theorem Represents.next_eq (ht : t.Represents c) (whole : c.active = done ++ h :: rest)
    (found : t.slots[h.slot]? = some s) : s.next = (rest.map Hint.slot).head? := by
  have path := ht.inUse
  rw [whole, List.map_append, List.map_cons] at path
  obtain ⟨mid, -, rfl, s', found', later⟩ := path_append.1 path
  rw [Option.some_inj.1 (found.symm.trans found')]
  exact later.head_eq

/-- A walk from behind `done` on drops the hints that go, up to one that ends it. -/
theorem Represents.sweep (ht : t.Represents c) (nodup : c.slots.Nodup)
    (whole : c.active = done ++ rest) (enough : rest.length ≤ n) (stop gone : Hint → Bool) :
    let r := HintTable.sweep stop gone n (done.map Hint.slot).getLast? (rest.map Hint.slot).head? t
    r.1.Represents (c.swept stop gone done rest) ∧ r.1.slots.length = t.slots.length ∧
      r.2 = rest.any stop := by
  induction rest generalizing done t c n with
  | nil =>
    rw [List.append_nil] at whole
    have same : HintTable.sweep stop gone n (done.map Hint.slot).getLast? none t = (t, false) := by
      cases n <;> rfl
    simp only [List.map_nil, List.head?_nil, same, swept_nil whole]
    exact ⟨ht, trivial, rfl⟩
  | cons h rest ih =>
    obtain ⟨n, rfl, left⟩ := exists_succ_of_cons enough
    obtain ⟨s, found, hint⟩ := ht.stored h (by simp [whole])
    have next := ht.next_eq whole found
    simp only [List.map_cons, List.head?_cons, HintTable.sweep, found, hint]
    by_cases ends : stop h = true
    · simp only [ends, if_true, swept_of_stop whole ends]
      exact ⟨ht, trivial, by simp [ends]⟩
    · rw [if_neg ends, List.any_cons, Bool.eq_false_iff.2 ends, Bool.false_or]
      by_cases goes : gone h = true
      · have unlinked := ht.deactivate nodup whole found
        have nodup' : ((done ++ rest).map Hint.slot ++ h.slot :: c.spare).Nodup := by
          refine (List.Perm.nodup_iff ?_).1 nodup
          rw [HintCache.slots, whole]
          refine ((List.perm_middle.map Hint.slot).append_right c.spare).trans ?_
          exact List.perm_middle.symm
        have later := ih unlinked nodup' rfl left
        rw [next, length_deactivate] at later
        rw [if_pos goes, swept_of_gone goes ends, next]
        exact later
      · have whole' : c.active = (done ++ [h]) ++ rest := by simp [whole]
        have later := ih ht nodup whole' left
        rw [if_neg goes, swept_of_kept goes ends, next]
        simpa using later

/-- The walk over all hints in use. -/
theorem Represents.sweep_all (ht : t.Represents c) (hc : c.Slotted t.slots.length) (stop gone : Hint → Bool) :
    let r := HintTable.sweep stop gone t.slots.length none t.active t
    r.1.Represents (c.swept stop gone [] c.active) ∧ r.1.slots.length = t.slots.length ∧
      r.2 = c.active.any stop := by
  have walk := ht.sweep hc.nodup (List.nil_append c.active).symm hc.active_le stop gone
  rwa [← ht.inUse.head_eq] at walk

theorem Represents.withdraw (ht : t.Represents c) (hc : c.Slotted t.slots.length) (gone : Hint → Bool) :
    (t.withdraw gone).Represents (c.withdraw gone) ∧ (t.withdraw gone).slots.length = t.slots.length := by
  have walk := ht.sweep_all hc (fun _ => false) gone
  rw [HintCache.swept_of_never fun _ _ => rfl] at walk
  exact ⟨walk.1, walk.2.1⟩

theorem Represents.clear (ht : t.Represents c) (hc : c.Slotted t.slots.length) :
    t.clear.Represents c.clear ∧ t.clear.slots.length = t.slots.length := by
  obtain ⟨none, length⟩ := ht.withdraw hc fun _ => true
  have all : c.clear = { c.withdraw fun _ => true with clock := 1 } := by
    simp [HintCache.clear, HintCache.withdraw]
  exact ⟨all ▸ ⟨none.inUse, none.spare, none.stored, rfl⟩, length⟩

/-! ## Walks that read or write hints -/

theorem hintsFrom_eq {l : List Hint} (path : Path slots start (l.map Hint.slot) none)
    (stored : ∀ h ∈ l, ∃ s, slots[h.slot]? = some s ∧ s.hint h.slot = h) (enough : l.length ≤ n) :
    hintsFrom slots n start = l := by
  induction l generalizing start n with
  | nil =>
    obtain rfl : start = none := path
    cases n <;> rfl
  | cons h l ih =>
    obtain ⟨n, rfl, left⟩ := exists_succ_of_cons enough
    obtain ⟨⟨s, found, hint⟩, stored⟩ := List.forall_mem_cons.1 stored
    obtain ⟨rfl, s', found', rest⟩ := path
    obtain rfl : s = s' := Option.some_inj.1 (found.symm.trans found')
    simp only [hintsFrom, found, hint, ih rest stored left]

theorem Represents.hints_eq (ht : t.Represents c) (hc : c.Slotted t.slots.length) : t.hints = c.active :=
  hintsFrom_eq ht.inUse ht.stored hc.active_le

/-- Writing to a slot in use changes the hint in it, and no other. -/
theorem Represents.write (ht : t.Represents c) (new : Hint) (next : ∀ s, (f s).next = s.next)
    (mem : h ∈ c.active) (written : ∀ s : HintSlot, s.hint h.slot = h → (f s).hint h.slot = new) :
    (t.revise h.slot f).Represents { c with active := overwrite h.slot new c.active } := by
  obtain ⟨s, found, hint⟩ := ht.stored h mem
  have slot : new.slot = h.slot := by rw [← written s hint]; rfl
  refine ⟨?_, ht.spare.revise (.inr next), fun g hg => ?_, ht.clock⟩
  · show Path _ t.active ((overwrite h.slot new c.active).map Hint.slot) none
    rw [HintCache.map_slot_overwrite slot]
    exact ht.inUse.revise (.inr next)
  · rcases HintCache.mem_overwrite_cases hg with rfl | ⟨other, hg⟩
    · rw [slot]
      exact ⟨f s, slots_revise_self found, written s hint⟩
    · obtain ⟨s, found, hint⟩ := ht.stored g hg
      exact ⟨s, (slots_revise_of_ne (Ne.symm other)).trans found, hint⟩

theorem Represents.use (ht : t.Represents c) (new : Hint) (next : ∀ s, (f s).next = s.next)
    (mem : h ∈ c.active)
    (written : ∀ s : HintSlot, s.hint h.slot = h → { f s with lastUse := c.clock }.hint h.slot = new) :
    (t.use h.slot f).Represents
      { c with active := overwrite h.slot new c.active, clock := c.clock + 1 } := by
  have put := ht.write (f := fun s => { f s with lastUse := t.clock }) new next mem fun s hint =>
    ht.clock ▸ written s hint
  exact ⟨put.inUse, put.spare, put.stored, congrArg Nat.succ ht.clock⟩

theorem Represents.find (ht : t.Represents c) (hc : c.Slotted t.slots.length) (size : Nat)
    (head : Option Nat) :
    (t.find size head).1.Represents (c.find size head).1 ∧ (t.find size head).2 = (c.find size head).2 ∧
      (t.find size head).1.slots.length = t.slots.length := by
  obtain ⟨kept, length⟩ := ht.withdraw hc (HintCache.isStale head)
  have slotted : (c.withdraw (HintCache.isStale head)).Slotted (t.withdraw (HintCache.isStale head)).slots.length :=
    length ▸ (HintCache.slots_withdraw _).trans hc
  unfold HintTable.find HintCache.find
  dsimp only
  rw [kept.hints_eq slotted]
  cases best : HintCache.best? size (c.withdraw (HintCache.isStale head)).active with
  | none => exact ⟨kept, rfl, length⟩
  | some h =>
    refine ⟨kept.use _ (fun _ => rfl) (HintCache.best?_mem best).1 fun s hint => ?_, rfl, length_revise.trans length⟩
    exact congrArg (fun g : Hint => { g with lastUse := c.clock }) hint

theorem Represents.place (ht : t.Represents c) (hc : c.Slotted t.slots.length) (entry size : Nat) :
    (t.place entry size).Represents (c.place entry size) ∧
      (t.place entry size).slots.length = t.slots.length := by
  have spare := ht.spare
  unfold HintTable.place HintCache.place
  dsimp only
  cases taken : c.spare with
  | nil =>
    rw [taken] at spare
    have empty : t.inactive = none := spare
    rw [empty, ht.hints_eq hc]
    cases oldest : HintCache.oldest? c.active with
    | none => exact ⟨ht, rfl⟩
    | some h =>
      refine ⟨?_, length_revise⟩
      have used := ht.use (f := fun s => { s with entry, size }) ⟨h.slot, entry, size, c.clock⟩
        (fun _ => rfl) (HintCache.oldest?_spec oldest).1 fun _ _ => rfl
      rwa [taken] at used
  | cons i rest =>
    obtain ⟨freshActive, freshRest⟩ := hc.fresh taken
    rw [taken] at spare
    obtain ⟨first, s, found, later⟩ := spare
    simp only [first, found]
    refine ⟨⟨⟨rfl, _, slots_revise_self (slots_revise_self found), ?_⟩, ?_, ?_, congrArg Nat.succ ht.clock⟩, ?_⟩
    · exact (ht.inUse.link freshActive).revise (.inl freshActive)
    · exact (later.link freshRest).revise (.inl freshRest)
    · refine List.forall_mem_cons.2 ⟨⟨_, slots_revise_self (slots_revise_self found), ?_⟩, fun h hh => ?_⟩
      · exact congrArg (Hint.mk i entry size) ht.clock
      · have other : i ≠ h.slot := fun same => freshActive (same ▸ List.mem_map_of_mem hh)
        obtain ⟨s, found, hint⟩ := ht.stored h hh
        exact ⟨s, (slots_revise_of_ne other).trans ((slots_revise_of_ne other).trans found), hint⟩
    · exact length_revise.trans length_revise

theorem Represents.add (ht : t.Represents c) (hc : c.Slotted t.slots.length) (entry size : Nat) :
    (t.add entry size).Represents (c.add entry size) ∧ (t.add entry size).slots.length = t.slots.length := by
  obtain ⟨purged, length, covered⟩ :=
    ht.sweep_all hc (HintCache.covers entry size) (HintCache.overrides entry size)
  have slotted : (c.swept (HintCache.covers entry size) (HintCache.overrides entry size) [] c.active).Slotted
      t.slots.length := HintCache.slots_swept.trans hc
  rw [HintCache.add_eq]
  unfold HintTable.add
  dsimp only
  rw [covered]
  cases c.active.any (HintCache.covers entry size) with
  | true => exact ⟨purged, length⟩
  | false =>
    obtain ⟨placed, length'⟩ := purged.place (length.symm ▸ slotted) entry size
    exact ⟨placed, length'.trans length⟩

/-- A walk that moves the hints from behind `done` on. -/
theorem Represents.repoint (ht : t.Represents c) (nodup : (c.active.map Hint.slot).Nodup)
    (whole : c.active = done ++ rest) (enough : rest.length ≤ n) (move : Nat → Nat) :
    let r := HintTable.repoint move n (rest.map Hint.slot).head? t
    r.Represents { c with active := done ++ rest.map fun h => { h with entry := move h.entry } } ∧
      r.slots.length = t.slots.length := by
  induction rest generalizing done t c n with
  | nil =>
    rw [List.append_nil] at whole
    have same : HintTable.repoint move n none t = t := by cases n <;> rfl
    have unchanged : { c with active := done } = c := by rw [← whole]
    simp only [List.map_nil, List.head?_nil, same, List.append_nil, unchanged]
    exact ⟨ht, trivial⟩
  | cons h rest ih =>
    obtain ⟨n, rfl, left⟩ := exists_succ_of_cons enough
    obtain ⟨s, found, hint⟩ := ht.stored h (by simp [whole])
    have next := ht.next_eq whole found
    let moved : Hint := { h with entry := move h.entry }
    have slots : ((done ++ [moved]) ++ rest).map Hint.slot = c.active.map Hint.slot := by
      rw [whole]
      simp [moved]
    have revised := ht.write (f := fun s => { s with entry := move s.entry }) moved (fun _ => rfl)
      (whole ▸ by simp) fun s hint => congrArg (fun g : Hint => { g with entry := move g.entry }) hint
    rw [whole, HintCache.overwrite_append_cons (whole ▸ nodup), List.append_cons] at revised
    have later := ih revised (slots ▸ nodup) rfl left
    simp only [List.map_cons, List.head?_cons, HintTable.repoint, found, next]
    simpa [moved] using later

theorem Represents.repoint_all (ht : t.Represents c) (hc : c.Slotted t.slots.length) (move : Nat → Nat) :
    let r := HintTable.repoint move t.slots.length t.active t
    r.Represents { c with active := c.active.map fun h => { h with entry := move h.entry } } ∧
      r.slots.length = t.slots.length := by
  have walk := ht.repoint hc.nodup_active (List.nil_append c.active).symm hc.active_le move
  rwa [← ht.inUse.head_eq] at walk

theorem Represents.update (ht : t.Represents c) (hc : c.Slotted t.slots.length) (old new : Nat) :
    (t.update old new).Represents (c.update old new) ∧ (t.update old new).slots.length = t.slots.length := by
  have same : c.update old new =
      { c with active := c.active.map fun h => { h with entry := if h.entry = old then new else h.entry } } := by
    unfold HintCache.update
    congr 2
    funext h
    split <;> rfl
  rw [same]
  exact ht.repoint_all hc _

theorem Represents.updateBeyond (ht : t.Represents c) (hc : c.Slotted t.slots.length) (entry : Nat) :
    (t.updateBeyond entry).Represents (c.updateBeyond entry) ∧
      (t.updateBeyond entry).slots.length = t.slots.length := by
  have same : c.updateBeyond entry =
      { c with active := c.active.map fun h => { h with entry := if entry < h.entry then entry else h.entry } } := by
    unfold HintCache.updateBeyond
    congr 2
    funext h
    split <;> rfl
  rw [same]
  exact ht.repoint_all hc _

/-! ## Runs -/

/-- In a new table each slot leads to the next. -/
theorem path_create {capacity : Nat} (made : create capacity = .ok t) (first : Nat) (hn : first + n = capacity) :
    Path t.slots (if first < capacity then some first else none) (List.range' first n) none := by
  induction n generalizing first with
  | zero => exact if_neg (by omega)
  | succ n ih =>
    have inside : first < capacity := by omega
    unfold create at made
    split at made
    · cases made
      exact ⟨if_pos inside, { next := if first + 1 < capacity then some (first + 1) else none },
        by simp [inside], ih (first + 1) (by omega)⟩
    · cases made

theorem represents_create {capacity : Nat} (table : create capacity = .ok t)
    (cache : HintCache.create capacity = .ok c) : t.Represents c ∧ t.slots.length = capacity := by
  have path := path_create table 0 (Nat.zero_add capacity)
  rw [← List.range_eq_range'] at path
  unfold create at table
  unfold HintCache.create at cache
  split at table
  · rename_i fits
    rw [if_pos fits] at cache
    cases table
    cases cache
    exact ⟨⟨rfl, path, by simp, rfl⟩, by simp⟩
  · cases table

def act (t : HintTable) : Operation → HintTable
  | .add entry size => t.add entry size
  | .find size head => (t.find size head).1
  | .remove entry => t.remove entry
  | .update old new => t.update old new
  | .updateBeyond entry => t.updateBeyond entry
  | .clear => t.clear

/-- The table follows the cache. -/
theorem Represents.act (ht : t.Represents c) (hc : c.Slotted t.slots.length) (o : Operation) :
    (t.act o).Represents (c.act o) ∧ (t.act o).slots.length = t.slots.length := by
  cases o with
  | add entry size => exact ht.add hc entry size
  | find size head => exact (ht.find hc size head).imp_right And.right
  | remove entry => exact ht.withdraw hc _
  | update old new => exact ht.update hc old new
  | updateBeyond entry => exact ht.updateBeyond hc entry
  | clear => exact ht.clear hc

theorem Represents.run (ht : t.Represents c) (hc : c.Slotted t.slots.length) (log : List Nat)
    (ops : List Operation) :
    (ops.foldl HintTable.act t).Represents (ops.foldl HintCache.logged (c, log)).1 ∧
      (ops.foldl HintTable.act t).slots.length = t.slots.length := by
  induction ops generalizing t c log with
  | nil => exact ⟨ht, rfl⟩
  | cons o ops ih =>
    obtain ⟨later, length⟩ := ht.act hc o
    obtain ⟨last, length'⟩ := ih later (length.symm ▸ hc.act o) (c.uses o ++ log)
    exact ⟨last, length'.trans length⟩

/-- Whatever is done to the hints, both lists of the table end and together hold every slot once; and an
addition evicts only if all slots are in use after its own purge, and then the one whose latest use lies back
furthest. -/
theorem bounded_exact_lru {capacity : Nat} {t₀ : HintTable} {c₀ : HintCache}
    (table : create capacity = .ok t₀) (cache : HintCache.create capacity = .ok c₀) (pos : 0 < capacity)
    (ops : List Operation) :
    let t := ops.foldl act t₀
    let r := ops.foldl HintCache.logged (c₀, [])
    t.Represents r.1 ∧ (r.1.active.map Hint.slot ++ r.1.spare).Perm (List.range capacity) ∧
      t.activeLen ≤ capacity ∧
      ∀ entry size, (t.add entry size).Represents (r.1.add entry size) ∧
        HintCache.Adds capacity r.1 r.2 entry size (r.1.add entry size) := by
  intro t r
  obtain ⟨start, length⟩ := represents_create table cache
  have sound := (HintCache.sound_create cache).run pos ops
  obtain ⟨holds, length'⟩ := start.run (length.symm ▸ HintCache.slotted_create cache) [] ops
  have slotted : r.1.Slotted t.slots.length := (length'.trans length).symm ▸ sound.slotted
  refine ⟨holds, sound.slotted, ?_,
    fun entry size => ⟨(holds.add slotted entry size).1, (sound.adds pos entry size).1⟩⟩
  rw [activeLen, holds.hints_eq slotted]
  exact sound.slotted.active_le

/-- With two slots, both in use, and the first hint found again, the second hint gives way to a third. -/
theorem lru_evicts_second :
    let t₀ : HintTable := { slots := [{ next := some 1 }, {}], inactive := some 0 }
    let c₀ : HintCache := { spare := [0, 1] }
    let ops := [.add 100 10, .add 200 20, .find 15 (some 0)]
    let t := ops.foldl act t₀
    let r := ops.foldl HintCache.logged (c₀, [])
    create 2 = .ok t₀ ∧ HintCache.create 2 = .ok c₀ ∧
      t.pairs = [(200, 20), (100, 10)] ∧ r.2 = [0, 1, 0] ∧ (t.add 300 30).pairs = [(300, 30), (100, 10)] ∧
      (t.add 300 30).Represents (r.1.add 300 30) ∧ HintCache.Adds 2 r.1 r.2 300 30 (r.1.add 300 30) := by
  intro t₀ c₀ ops t r
  have table : create 2 = .ok t₀ := by decide
  have cache : HintCache.create 2 = .ok c₀ := by decide
  exact ⟨table, cache, by decide, by decide, by decide,
    (bounded_exact_lru table cache (by decide) ops).2.2.2 300 30⟩

end FreeStore.HintTable
