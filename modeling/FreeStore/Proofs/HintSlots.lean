import Mathlib.Data.List.Basic
import FreeStore.Proofs.HintBounds
/-!
The slots of a hint cache, and which of them is given up.

However hints are added, found, moved and dropped, each slot is in use or spare, and only one of these
(`Slotted`). A log of the slots used, by an addition or by a search that found something, tells what the
time stamps on the hints stand for: the hint with the lowest stamp is the one whose latest use lies back
furthest (`Stamped`). So a hint that is added takes a spare slot if there is one, and otherwise that of the
least recently used hint, where all others stay as they are (`Adds`, `Sound.adds`).
-/
namespace FreeStore.HintCache

/-- A call that may change the hints. -/
inductive Operation where
  | add (entry size : Nat)
  | find (size : Nat) (head : Option Nat)
  | remove (entry : Nat)
  | update (old new : Nat)
  | updateBeyond (entry : Nat)
  | clear
  deriving DecidableEq, Repr

def act (c : HintCache) : Operation → HintCache
  | .add entry size => c.add entry size
  | .find size head => (c.find size head).1
  | .remove entry => c.remove entry
  | .update old new => c.update old new
  | .updateBeyond entry => c.updateBeyond entry
  | .clear => c.clear

/-- The slots that an operation uses: that of a hint which is added, unless another covers it, or that of a
hint which is found. -/
def uses (c : HintCache) : Operation → List Nat
  | .add entry size =>
    if c.active.any (covers entry size) then []
    else ((c.add entry size).active.filter fun h => h.entry == entry).map Hint.slot
  | .find size head => (c.find size head).2.toList.map Hint.slot
  | _ => []

/-- Carry out one operation, and write down which slot it uses; the latest comes first. -/
def logged (r : HintCache × List Nat) (o : Operation) : HintCache × List Nat :=
  (r.1.act o, r.1.uses o ++ r.2)

variable {c c' : HintCache} {g h new : Hint} {l done rest front back others : List Hint}
  {stop gone : Hint → Bool} {entry size capacity slot : Nat} {log spare : List Nat}

/-! ## Purging -/

/-- The cache after a walk over the hints `rest`, which come behind `done`: those for which `gone` holds are
dropped, up to one for which `stop` holds. -/
def swept (c : HintCache) (stop gone : Hint → Bool) (done rest : List Hint) : HintCache :=
  { c with
    active := done ++ ((rest.takeWhile fun h => !stop h).filter (fun h => !gone h) ++
      rest.dropWhile fun h => !stop h)
    spare := giveBack ((rest.takeWhile fun h => !stop h).filter gone) c.spare }

theorem isEmpty_dropWhile : (l.dropWhile fun h => !stop h).isEmpty = !l.any stop := by
  induction l with
  | nil => rfl
  | cons h l ih => cases ends : stop h <;> simp [ends, ih]

/-- An addition drops what it overrides, up to a hint that covers the new one. -/
theorem add_eq (c : HintCache) (entry size : Nat) :
    c.add entry size =
      let purged := c.swept (covers entry size) (overrides entry size) [] c.active
      if c.active.any (covers entry size) then purged else purged.place entry size := by
  unfold add swept
  dsimp only
  rw [isEmpty_dropWhile]
  cases c.active.any (covers entry size) <;> rfl

theorem swept_of_never (never : ∀ h ∈ c.active, stop h = false) :
    c.swept stop gone [] c.active = c.withdraw gone := by
  have all : c.active.takeWhile (fun h => !stop h) = c.active :=
    List.takeWhile_eq_self_iff.2 fun h hh => by rw [never h hh]; rfl
  have none : c.active.dropWhile (fun h => !stop h) = [] :=
    List.dropWhile_eq_nil_iff.2 fun h hh => by rw [never h hh]; rfl
  rw [swept, all, none, List.append_nil]
  rfl

/-! ## Slots -/

/-- The slots in use, and behind them the spare ones. -/
def slots (c : HintCache) : List Nat := c.active.map Hint.slot ++ c.spare

/-- Every slot below the capacity is in use or spare, and once only. -/
def Slotted (capacity : Nat) (c : HintCache) : Prop := c.slots.Perm (List.range capacity)

theorem giveBack_perm : (giveBack l spare).Perm (l.map Hint.slot ++ spare) :=
  (List.reverse_perm _).append_right _

/-- The slots that hints lose are spare. -/
theorem slots_swept : (c.swept stop gone done rest).slots.Perm ((done ++ rest).map Hint.slot ++ c.spare) := by
  let seen := rest.takeWhile fun h => !stop h
  let beyond := rest.dropWhile fun h => !stop h
  have whole : rest = seen ++ beyond := List.takeWhile_append_dropWhile.symm
  have sorted : ((done ++ (seen.filter (fun h => !gone h) ++ beyond)) ++ seen.filter gone).Perm
      (done ++ rest) := by
    rw [List.append_assoc, List.append_assoc, whole, List.perm_append_left_iff]
    refine (List.perm_append_comm.append_left _).trans ?_
    rw [← List.append_assoc]
    exact (List.perm_append_comm.trans (List.filter_append_perm gone seen)).append_right beyond
  have given : (c.swept stop gone done rest).slots.Perm
      ((done ++ (seen.filter (fun h => !gone h) ++ beyond)).map Hint.slot ++
        ((seen.filter gone).map Hint.slot ++ c.spare)) := giveBack_perm.append_left _
  rw [← List.append_assoc, ← List.map_append] at given
  exact given.trans ((sorted.map _).append_right _)

theorem slots_withdraw (gone : Hint → Bool) : (c.withdraw gone).slots.Perm c.slots := by
  have same : c.swept (fun _ => false) gone [] c.active = c.withdraw gone := swept_of_never fun _ _ => rfl
  exact same ▸ slots_swept

theorem map_slot_overwrite (hn : new.slot = slot) :
    (overwrite slot new l).map Hint.slot = l.map Hint.slot := by
  rw [overwrite, List.map_map]
  refine List.map_congr_left fun h _ => ?_
  by_cases same : h.slot = slot <;> simp [same, hn]

theorem slots_place : (c.place entry size).slots.Perm c.slots := by
  unfold place
  split
  · rename_i slot spare taken
    rw [slots, slots, taken]
    exact List.perm_middle.symm
  · split
    · exact .refl _
    · simp only [slots, map_slot_overwrite, List.Perm.refl]

theorem slots_add : (c.add entry size).slots.Perm c.slots := by
  rw [add_eq]
  dsimp only
  split
  · exact slots_swept
  · exact slots_place.trans slots_swept

theorem slots_find {head : Option Nat} : (c.find size head).1.slots.Perm c.slots := by
  refine List.Perm.trans ?_ (slots_withdraw (isStale head))
  unfold find
  dsimp only
  split
  · exact .refl _
  · simp only [slots, map_slot_overwrite, List.Perm.refl]

theorem slots_map {f : Hint → Hint} (hf : ∀ h, (f h).slot = h.slot) :
    slots { c with active := c.active.map f } = c.slots := by
  simp [slots, Function.comp_def, hf]

/-- No operation loses a slot. -/
theorem Slotted.act (hc : c.Slotted capacity) (o : Operation) : (c.act o).Slotted capacity := by
  refine List.Perm.trans ?_ hc
  cases o with
  | add entry size => exact slots_add
  | find size head => exact slots_find
  | remove entry => exact slots_withdraw _
  | update old new => exact .of_eq (slots_map fun h => by split <;> rfl)
  | updateBeyond entry => exact .of_eq (slots_map fun h => by split <;> rfl)
  | clear => exact giveBack_perm

theorem slotted_create (made : create capacity = .ok c) : c.Slotted capacity := by
  unfold create at made
  split at made
  · cases made
    exact .refl _
  · cases made

theorem Slotted.length (hc : c.Slotted capacity) : c.active.length + c.spare.length = capacity := by
  have := hc.length_eq
  simpa [slots] using this

theorem Slotted.active_le (hc : c.Slotted capacity) : c.active.length ≤ capacity :=
  hc.length ▸ Nat.le_add_right ..

theorem Slotted.nodup (hc : c.Slotted capacity) : c.slots.Nodup := hc.nodup_iff.2 List.nodup_range

theorem Slotted.nodup_active (hc : c.Slotted capacity) : (c.active.map Hint.slot).Nodup :=
  (List.nodup_append.1 hc.nodup).1

/-- The next slot to be taken is in no hint, and comes once among the spare ones. -/
theorem Slotted.fresh (hc : c.Slotted capacity) (taken : c.spare = slot :: spare) :
    slot ∉ c.active.map Hint.slot ∧ slot ∉ spare := by
  have nodup := List.nodup_append.1 hc.nodup
  rw [taken] at nodup
  exact ⟨fun mem => nodup.2.2 _ mem _ List.mem_cons_self rfl, (List.nodup_cons.1 nodup.2.1).1⟩

/-- Each slot has one hint. -/
theorem slot_ne_of_nodup (nodup : ((front ++ h :: back).map Hint.slot).Nodup) (hg : g ∈ front ++ back) :
    g.slot ≠ h.slot := fun same =>
  (List.nodup_cons.1 ((List.perm_middle.map Hint.slot).nodup_iff.1 nodup)).1
    (same ▸ List.mem_map_of_mem hg)

/-- Only one hint is written over. -/
theorem overwrite_append_cons (nodup : ((front ++ h :: back).map Hint.slot).Nodup) :
    overwrite h.slot new (front ++ h :: back) = front ++ new :: back := by
  have still (l : List Hint) (hl : ∀ g ∈ l, g ∈ front ++ back) : overwrite h.slot new l = l := by
    rw [overwrite, List.map_congr_left fun g hg => if_neg (slot_ne_of_nodup nodup (hl g hg)), List.map_id']
  rw [overwrite, List.map_append, List.map_cons, if_pos rfl]
  exact congrArg₂ (· ++ new :: ·) (still front fun g hg => by simp [hg]) (still back fun g hg => by simp [hg])

theorem mem_overwrite_cases (hm : h ∈ overwrite slot new l) : h = new ∨ h.slot ≠ slot ∧ h ∈ l := by
  simp only [overwrite, List.mem_map] at hm
  obtain ⟨g, hg, rfl⟩ := hm
  by_cases same : g.slot = slot
  · exact .inl (if_pos same)
  · rw [if_neg same]
    exact .inr ⟨same, hg⟩

/-! ## Time stamps -/

theorem exists_oldest? (hl : l ≠ []) : ∃ h, oldest? l = some h := by
  cases l with
  | nil => exact absurd rfl hl
  | cons f l =>
    unfold oldest?
    split
    · exact ⟨f, rfl⟩
    · split <;> exact ⟨_, rfl⟩

theorem oldest?_spec (ho : oldest? l = some h) : h ∈ l ∧ ∀ g ∈ l, h.lastUse ≤ g.lastUse := by
  induction l generalizing h with
  | nil => cases ho
  | cons f l ih =>
    unfold oldest? at ho
    cases last : oldest? l with
    | none =>
      have empty : l = [] := by
        by_contra some
        obtain ⟨g, found⟩ := exists_oldest? some
        cases last.symm.trans found
      simp only [last, Option.some.injEq] at ho
      subst ho empty
      simp
    | some g =>
      obtain ⟨mem, least⟩ := ih last
      simp only [last] at ho
      split at ho
      · rename_i earlier
        cases ho
        exact ⟨List.mem_cons_of_mem _ mem, List.forall_mem_cons.2 ⟨Nat.le_of_lt earlier, least⟩⟩
      · rename_i later
        cases ho
        exact ⟨List.mem_cons_self, List.forall_mem_cons.2 ⟨Nat.le_refl _, fun d hd =>
          Nat.le_trans (Nat.le_of_not_lt later) (least d hd)⟩⟩

/-- The time stamps on the hints tell in which order the slots were last used. -/
structure Stamped (c : HintCache) (log : List Nat) : Prop where
  logged : ∀ h ∈ c.active, h.slot ∈ log
  past : ∀ h ∈ c.active, h.lastUse < c.clock
  order : ∀ g ∈ c.active, ∀ h ∈ c.active, g.lastUse < h.lastUse ↔ log.idxOf h.slot < log.idxOf g.slot

/-- Hints may be dropped and moved, as long as they keep slot and time stamp. -/
theorem Stamped.keep (hc : c.Stamped log) (clock : c'.active = [] ∨ c'.clock = c.clock)
    (kept : ∀ h ∈ c'.active, ∃ g ∈ c.active, h.slot = g.slot ∧ h.lastUse = g.lastUse) :
    c'.Stamped log := by
  rcases clock with none | clock
  · exact ⟨by simp [none], by simp [none], by simp [none]⟩
  refine ⟨fun h hh => ?_, fun h hh => ?_, fun f hf h hh => ?_⟩
  · obtain ⟨g, hg, slot, -⟩ := kept h hh
    exact slot ▸ hc.logged g hg
  · obtain ⟨g, hg, -, stamp⟩ := kept h hh
    rw [stamp, clock]
    exact hc.past g hg
  · obtain ⟨d, hd, slotF, stampF⟩ := kept f hf
    obtain ⟨g, hg, slotH, stampH⟩ := kept h hh
    rw [slotF, slotH, stampF, stampH]
    exact hc.order d hd g hg

/-- The hint that is used gets a new time stamp. -/
theorem Stamped.use (hc : c.Stamped log) (clock : c'.clock = c.clock + 1)
    (kept : ∀ h ∈ c'.active, h.slot = slot ∧ h.lastUse = c.clock ∨
      h.slot ≠ slot ∧ ∃ g ∈ c.active, h.slot = g.slot ∧ h.lastUse = g.lastUse) :
    c'.Stamped (slot :: log) := by
  have front (h : Hint) (same : h.slot = slot) : (slot :: log).idxOf h.slot = 0 := by
    rw [same, List.idxOf_cons_self]
  have behind (h : Hint) (other : h.slot ≠ slot) : (slot :: log).idxOf h.slot = log.idxOf h.slot + 1 :=
    List.idxOf_cons_ne _ (Ne.symm other)
  refine ⟨fun h hh => ?_, fun h hh => ?_, fun f hf h hh => ?_⟩
  · rcases kept h hh with ⟨same, -⟩ | ⟨-, g, hg, slot, -⟩
    · exact same ▸ List.mem_cons_self
    · exact List.mem_cons_of_mem _ (slot ▸ hc.logged g hg)
  · rw [clock]
    rcases kept h hh with ⟨-, stamp⟩ | ⟨-, g, hg, -, stamp⟩
    · omega
    · have := hc.past g hg
      omega
  · -- the hint used last is in front, with the highest stamp; between two others nothing changes
    rcases kept f hf with ⟨sameF, stampF⟩ | ⟨otherF, d, hd, slotF, stampF⟩ <;>
      rcases kept h hh with ⟨sameH, stampH⟩ | ⟨otherH, g, hg, slotH, stampH⟩
    · rw [front f sameF, front h sameH, stampF, stampH]
      omega
    · have := hc.past g hg
      rw [front f sameF, behind h otherH]
      omega
    · have := hc.past d hd
      rw [behind f otherF, front h sameH]
      omega
    · rw [behind f otherF, behind h otherH, stampF, stampH, slotF, slotH, Nat.add_lt_add_iff_right]
      exact hc.order d hd g hg

/-- Writing over a hint is a use of its slot. -/
theorem Stamped.overwrite (hc : c.Stamped log) (hn : new.slot = slot ∧ new.lastUse = c.clock) :
    Stamped { c with active := overwrite slot new c.active, clock := c.clock + 1 } (slot :: log) := by
  refine hc.use rfl fun g hg => ?_
  rcases mem_overwrite_cases hg with rfl | ⟨other, hg⟩
  · exact .inl hn
  · exact .inr ⟨other, g, hg, rfl, rfl⟩

/-! ## Additions -/

/-- The hints that an addition leaves alone when it drops what it overrides. -/
def unharmed (c : HintCache) (entry size : Nat) : List Hint :=
  c.active.filter fun h => !overrides entry size h

/-- What adding a hint comes to. The log has the slots that were used, the latest first. -/
inductive Adds (capacity : Nat) (c : HintCache) (log : List Nat) (entry size : Nat) (c' : HintCache) : Prop
  /-- nothing is added -/
  | covered (by_hint : ∃ h ∈ c.active, covers entry size h) (kept : c'.active.Sublist c.active)
      (dropped : ∀ h ∈ c.active, h ∉ c'.active → overrides entry size h)
  /-- nothing is evicted -/
  | fills (room : (c.unharmed entry size).length < capacity) (slot : Nat)
      (free : ∀ h ∈ c.unharmed entry size, h.slot ≠ slot)
      (put : c'.active = ⟨slot, entry, size, c.clock⟩ :: c.unharmed entry size)
  /-- of all hints, the one whose latest use lies back furthest is replaced -/
  | evicts (full : (c.unharmed entry size).length = capacity) (front : List Hint) (h : Hint) (back : List Hint)
      (whole : c.unharmed entry size = front ++ h :: back)
      (oldest : ∀ g ∈ front ++ back, log.idxOf g.slot < log.idxOf h.slot)
      (put : c'.active = front ++ ⟨h.slot, entry, size, c.clock⟩ :: back)

/-- Slots and time stamps are in order. -/
structure Sound (capacity : Nat) (c : HintCache) (log : List Nat) : Prop where
  slotted : c.Slotted capacity
  stamped : c.Stamped log

theorem Sound.withdraw (hc : c.Sound capacity log) (gone : Hint → Bool) :
    (c.withdraw gone).Sound capacity log :=
  ⟨(slots_withdraw gone).trans hc.slotted,
    hc.stamped.keep (.inr rfl) fun h hh => ⟨h, (List.mem_filter.1 hh).1, rfl, rfl⟩⟩

/-- The hint with the lowest time stamp was used before all others. -/
theorem Sound.lt_of_le (hc : c.Sound capacity log) (whole : c.active = front ++ h :: back)
    (least : ∀ g ∈ c.active, h.lastUse ≤ g.lastUse) (hg : g ∈ front ++ back) :
    log.idxOf g.slot < log.idxOf h.slot := by
  have mem : g ∈ c.active := whole ▸ List.perm_middle.mem_iff.2 (List.mem_cons_of_mem _ hg)
  have apart : g.slot ≠ h.slot := slot_ne_of_nodup (whole ▸ hc.slotted.nodup_active) hg
  have places : log.idxOf g.slot ≠ log.idxOf h.slot := fun same =>
    apart ((List.idxOf_inj (hc.stamped.logged g mem)).1 same)
  have not_before := least g mem
  have order := hc.stamped.order g mem h (by simp [whole])
  omega

/-- A hint is put into a spare slot, or over the hint with the lowest time stamp. -/
theorem place_cases (hc : c.Slotted capacity) (pos : 0 < capacity) (entry size : Nat) :
    (∃ slot spare, c.spare = slot :: spare ∧ c.place entry size =
      { active := ⟨slot, entry, size, c.clock⟩ :: c.active, spare, clock := c.clock + 1 }) ∨
    (c.spare = [] ∧ ∃ h ∈ c.active, (∀ g ∈ c.active, h.lastUse ≤ g.lastUse) ∧ c.place entry size =
      { c with
        active := overwrite h.slot ⟨h.slot, entry, size, c.clock⟩ c.active
        clock := c.clock + 1 }) := by
  cases taken : c.spare with
  | cons slot spare => exact .inl ⟨slot, spare, rfl, by simp only [place, taken]⟩
  | nil =>
    have length := hc.length
    rw [taken, List.length_nil, Nat.add_zero] at length
    obtain ⟨h, oldest⟩ := exists_oldest? (List.ne_nil_of_length_pos (length.symm ▸ pos))
    obtain ⟨mem, least⟩ := oldest?_spec oldest
    exact .inr ⟨rfl, h, mem, least, by simp only [place, taken, oldest]⟩

/-- Of the hints that an addition leaves alone, none is at its entry, so only the new one is there. -/
theorem slots_at_entry (same : l.Perm (⟨slot, entry, size, c.clock⟩ :: others))
    (old : ∀ h ∈ others, h ∈ c.unharmed entry size) :
    (l.filter fun h => h.entry == entry).map Hint.slot = [slot] := by
  have elsewhere : others.filter (fun h => h.entry == entry) = [] := by
    refine List.filter_eq_nil_iff.2 fun h hh here => ?_
    have harmless := (List.mem_filter.1 (old h hh)).2
    simp [overrides, beq_iff_eq.1 here] at harmless
  have only := same.filter fun h => h.entry == entry
  rw [List.filter_cons_of_pos (by simp), elsewhere] at only
  rw [List.perm_singleton.1 only]
  rfl

/-- Adding a hint that no hint covers uses a slot. -/
theorem Sound.adds_of_not_covered (hc : c.Sound capacity log) (pos : 0 < capacity)
    (none : c.active.any (covers entry size) = false) :
    Adds capacity c log entry size (c.add entry size) ∧
      (c.add entry size).Stamped (c.uses (.add entry size) ++ log) := by
  have purged := hc.withdraw (overrides entry size)
  have active : (c.withdraw (overrides entry size)).active = c.unharmed entry size := rfl
  have placed : c.add entry size = (c.withdraw (overrides entry size)).place entry size := by
    rw [add_eq, none]
    exact congrArg (place · entry size) (swept_of_never fun h hh => by
      simpa using List.any_eq_false.1 none h hh)
  have length := purged.slotted.length
  simp only [uses, none, Bool.false_eq_true, if_false]
  rw [placed]
  rcases place_cases purged.slotted pos entry size with
    ⟨slot, spare, taken, put⟩ | ⟨none_spare, h, mem, least, put⟩
  · rw [put]
    have free : ∀ h ∈ c.unharmed entry size, h.slot ≠ slot := fun h hh same =>
      (purged.slotted.fresh taken).1 (same ▸ List.mem_map_of_mem hh)
    refine ⟨.fills ?_ slot free rfl, ?_⟩
    · rw [taken, List.length_cons, active] at length
      omega
    · have used := slots_at_entry (c := c) (.refl (⟨slot, entry, size, c.clock⟩ :: c.unharmed entry size))
        fun h hh => hh
      refine (congrArg (Stamped _ <| · ++ log) used).mpr (purged.stamped.use rfl fun h hh => ?_)
      rcases List.mem_cons.1 hh with rfl | hh
      · exact .inl ⟨rfl, rfl⟩
      · exact .inr ⟨free h hh, h, hh, rfl, rfl⟩
  · obtain ⟨front, back, whole⟩ := List.append_of_mem mem
    have nodup := purged.slotted.nodup_active
    rw [whole] at nodup
    have put' : ((c.withdraw (overrides entry size)).place entry size).active =
        front ++ ⟨h.slot, entry, size, c.clock⟩ :: back := by
      rw [put, whole]
      exact overwrite_append_cons nodup
    refine ⟨.evicts ?_ front h back whole (fun g hg => purged.lt_of_le whole least hg) put', ?_⟩
    · rw [none_spare, List.length_nil, active] at length
      omega
    · rw [slots_at_entry (put' ▸ List.perm_middle) fun g hg =>
        active ▸ whole ▸ List.perm_middle.mem_iff.2 (List.mem_cons_of_mem _ hg), put]
      exact purged.stamped.overwrite ⟨rfl, rfl⟩

/-- A hint that covers the new one keeps it out. -/
theorem Sound.adds_of_covered (hc : c.Sound capacity log)
    (some : c.active.any (covers entry size) = true) :
    Adds capacity c log entry size (c.add entry size) ∧
      (c.add entry size).Stamped (c.uses (.add entry size) ++ log) := by
  have done : c.add entry size = c.swept (covers entry size) (overrides entry size) [] c.active := by
    rw [add_eq, some]
    rfl
  have sub : (c.add entry size).active.Sublist c.active := by
    have kept := (List.filter_sublist (p := fun h => !overrides entry size h)
      (l := c.active.takeWhile fun h => !covers entry size h)).append_right
        (c.active.dropWhile fun h => !covers entry size h)
    rw [List.takeWhile_append_dropWhile] at kept
    exact done ▸ kept
  simp only [uses, some, if_true, List.nil_append]
  refine ⟨.covered (List.any_eq_true.1 some) sub fun h hh gone => ?_,
    hc.stamped.keep (.inr (by rw [done]; rfl)) fun h hh => ⟨h, sub.subset hh, rfl, rfl⟩⟩
  by_contra harmless
  refine gone (done ▸ List.mem_append_right [] ?_)
  rw [← List.takeWhile_append_dropWhile (p := fun h => !covers entry size h) (l := c.active)] at hh
  rcases List.mem_append.1 hh with hh | hh
  · exact List.mem_append_left _ (List.mem_filter.2 ⟨hh, by simpa using harmless⟩)
  · exact List.mem_append_right _ hh

theorem Sound.adds (hc : c.Sound capacity log) (pos : 0 < capacity) (entry size : Nat) :
    Adds capacity c log entry size (c.add entry size) ∧
      (c.add entry size).Stamped (c.uses (.add entry size) ++ log) := by
  cases covered : c.active.any (covers entry size) with
  | false => exact hc.adds_of_not_covered pos covered
  | true => exact hc.adds_of_covered covered

/-! ## Runs -/

/-- Finding a hint uses its slot. -/
theorem Sound.find (hc : c.Sound capacity log) (size : Nat) (head : Option Nat) :
    (c.find size head).1.Stamped (c.uses (.find size head) ++ log) := by
  have purged := (hc.withdraw (isStale head)).stamped
  unfold uses HintCache.find
  dsimp only
  split
  · exact purged
  · exact purged.overwrite ⟨rfl, rfl⟩

/-- No operation loses a slot, or the order in which the slots were used. -/
theorem Sound.logged (hc : c.Sound capacity log) (pos : 0 < capacity) (o : Operation) :
    (c.act o).Sound capacity (c.uses o ++ log) := by
  refine ⟨hc.slotted.act o, ?_⟩
  cases o with
  | add entry size => exact (hc.adds pos entry size).2
  | find size head => exact hc.find size head
  | remove entry => exact (hc.withdraw _).stamped
  | update old new =>
    refine hc.stamped.keep (.inr rfl) fun h hh => ?_
    obtain ⟨g, hg, rfl⟩ := List.mem_map.1 hh
    exact ⟨g, hg, by split <;> rfl, by split <;> rfl⟩
  | updateBeyond entry =>
    refine hc.stamped.keep (.inr rfl) fun h hh => ?_
    obtain ⟨g, hg, rfl⟩ := List.mem_map.1 hh
    exact ⟨g, hg, by split <;> rfl, by split <;> rfl⟩
  | clear => exact hc.stamped.keep (.inl rfl) fun h hh => by cases hh

theorem sound_create (made : create capacity = .ok c) : c.Sound capacity [] := by
  refine ⟨slotted_create made, ?_⟩
  unfold create at made
  split at made
  · cases made
    exact ⟨by simp, by simp, by simp⟩
  · cases made

theorem Sound.run (hc : c.Sound capacity log) (pos : 0 < capacity) (ops : List Operation) :
    (ops.foldl HintCache.logged (c, log)).1.Sound capacity (ops.foldl HintCache.logged (c, log)).2 := by
  induction ops generalizing c log with
  | nil => exact hc
  | cons o ops ih => exact ih (hc.logged pos o)

end FreeStore.HintCache
