import FreeStore.Proofs.Reachable
/-!
Recycling a chunk and expanding by it come to the same.

`recycle` and `expand` take the swallowed neighbours off the books in different orders, guess the entry
before the cursor differently, and treat the hints differently. What the books are afterwards does not show
any of it: `PutIn` names them from the pool and the range alone, so two pools that come from one by putting in
the same range agree (`PutIn.agrees`). Both operations fail in the same case, where the estimate of a pending
realignment has no room for the entry (`PutIn.roomToNote`).
-/
namespace FreeStore

/-- A step that needs `R`, and fails only for want of it, tells by its ending whether `R` holds. -/
theorem ends_either {α : Type} {x : Outcome α} {P : α → Prop} {R : Prop} {f : Fault}
    (ends : ∀ F : Fault → Prop, F f ∨ R → Ends F x P) (needs : ∀ a, P a → R) :
    (R → ∃ a, x = .ok a ∧ P a) ∧ (¬ R → x = .error f) := by
  constructor
  · intro holds
    exact (ends (fun _ => False) (.inr holds)).exists_ok fun _ _ => id
  · intro fails
    have only := ends (· = f) (.inl rfl)
    cases x with
    | ok a => exact absurd (needs a only) fails
    | error g => exact congrArg _ only

namespace Pool

variable {p q r : Pool} {low high : Nat}

/-- The pools have the same books. Their hints, their reports and the entry noted before the cursor may
differ. -/
structure Agrees (q r : Pool) : Prop where
  ranges : q.ranges = r.ranges
  freeBytes : q.freeBytes = r.freeBytes
  entryCount : q.entryCount = r.entryCount
  largest : q.largest = r.largest
  stats : q.stats = r.stats
  large : q.large = r.large
  pendingLoss : q.pendingLoss = r.pendingLoss
  cursor : q.cursor.first? = r.cursor.first?

/-- What is put in is noted, so there was room to. -/
theorem PutIn.roomToNote {coalesce : Bool} (put : p.PutIn low high coalesce q) :
    p.RoomToNote low high coalesce := by
  intro pulled
  obtain ⟨-, grown, inside⟩ := put.noted.pulled pulled
  exact grown ▸ inside

/-- The list after a merging insertion is determined. -/
theorem PutIn.entries_eq (put : p.PutIn low high true q) (put' : p.PutIn low high true r) :
    q.entries = r.entries := by
  obtain ⟨before, _, _, after, spliced, -, rfl, rfl⟩ := put.spliced
  obtain ⟨before', _, _, after', spliced', -, rfl, rfl⟩ := put'.spliced
  have front : before = before' := List.append_cancel_right (spliced.front.symm.trans spliced'.front)
  have back : after = after' := List.append_cancel_left (spliced.back.symm.trans spliced'.back)
  rw [spliced.entries, spliced'.entries, front, back]

/-- However a range is put in and merged, the books are the same afterwards. -/
theorem PutIn.agrees (put : p.PutIn low high true q) (put' : p.PutIn low high true r) : q.Agrees r := by
  have entries := put.entries_eq put'
  have census : q.large.freeEntries = r.large.freeEntries :=
    put.sound.census.unique (entries ▸ put'.sound.census)
  obtain ⟨cursor, pendingLoss⟩ := put.noted.unique put'.noted
  constructor
  · rw [ranges_eq put.sound, ranges_eq put'.sound, entries]
  · rw [put.bytes, put'.bytes]
  · rw [put.sound.count, put'.sound.count, entries]
  · rw [put.largest, put'.largest]
  · rw [put.stats, put'.stats]
  · rw [put.large, put'.large, census]
  · exact pendingLoss
  · exact cursor

/-- A range that is large enough for an entry and meets none can be recycled or expanded by: the answers say
that it is on the list, and the pools agree. If a pending realignment cannot note the entry that the range
ends up in, because the estimate would overflow, neither operation goes through. -/
theorem recycle_agrees_with_expand (h : p.Reachable) (hi : p.Insertable low high)
    (large : p.config.minEntry ≤ high - low) :
    (p.RoomToNote low high true → ∃ q r,
      p.step (.expand (high - low) low high true) = .ok (q, .done) ∧
        p.step (.recycle low high) = .ok (r, .kept true) ∧ q.Agrees r) ∧
    (¬ p.RoomToNote low high true →
      p.step (.expand (high - low) low high true) = .error .counterOverflow ∧
        p.step (.recycle low high) = .error .counterOverflow) := by
  have sound := h.nextStep.sound
  have fits : p.nextStep.Insertable low high := ⟨hi.nonempty, hi.inside, hi.clear⟩
  have kept : p.nextStep.keeps (high - low) = true := decide_eq_true large
  obtain ⟨expands, expandFails⟩ := ends_either (x := p.nextStep.expand (high - low) low high true)
    (fun F hF => expand_putsIn hF sound fits kept) fun q put => put.roomToNote
  obtain ⟨recycles, recycleFails⟩ := ends_either (x := p.nextStep.recycle low high)
    (fun F hF => recycle_putsIn hF sound fits (by simp [kept])) fun r put => put.1.roomToNote
  constructor
  · intro room
    obtain ⟨q, expanded, put⟩ := expands room
    obtain ⟨⟨r, answer⟩, recycled, put', rfl⟩ := recycles room
    refine ⟨q, r, ?_, ?_, put.agrees put'⟩
    · rw [step, perform, expanded]
      rfl
    · rw [step, perform, recycled]
      rfl
  · intro tight
    refine ⟨?_, ?_⟩
    · rw [step, perform, expandFails tight]
      rfl
    · rw [step, perform, recycleFails tight]
      rfl

/-- The range ends where the first entry that waits for realignment starts: merged with it, it is noted in its
place, with a greater loss. -/
theorem recycle_agrees_below_cursor : ∃ p q r : Pool,
    p.entries = [⟨5000, 1000⟩, ⟨10000, 3000⟩] ∧ p.cursor.first? = some 5000 ∧ p.pendingLoss = 928 ∧
    p.step (.expand (5000 - 4000) 4000 5000 true) = .ok (q, .done) ∧
    p.step (.recycle 4000 5000) = .ok (r, .kept true) ∧ q.Agrees r ∧
    q.entries = [⟨4000, 2000⟩, ⟨10000, 3000⟩] ∧ q.cursor.first? = some 4000 ∧ q.pendingLoss = 1392 := by
  obtain ⟨s, done⟩ : ∃ s, s ∈ ((fresh {}).run [.expand 1000 5000 6000 false,
      .expand 3000 10000 13000 false, .requestCardAlignment]).toOption :=
    Option.isSome_iff_exists.1 (by decide +kernel)
  obtain ⟨entries, first, loss, width, inside, clear, large, room, t, expanded, after⟩ :
      s.1.entries = [⟨5000, 1000⟩, ⟨10000, 3000⟩] ∧ s.1.cursor.first? = some 5000 ∧ s.1.pendingLoss = 928 ∧
      4000 < 5000 ∧ 5000 < wordLimit ∧ (∀ e ∈ s.1.entries, e.top ≤ 4000 ∨ 5000 ≤ e.start) ∧
      s.1.config.minEntry ≤ 5000 - 4000 ∧ s.1.RoomToNote 4000 5000 true ∧
      ∃ t ∈ (s.1.step (.expand (5000 - 4000) 4000 5000 true)).toOption,
        t.1.entries = [⟨4000, 2000⟩, ⟨10000, 3000⟩] ∧ t.1.cursor.first? = some 4000 ∧
        t.1.pendingLoss = 1392 := by
    revert s
    decide +kernel
  have made : create {} = .ok (fresh {}) := by decide +kernel
  have reachable := (Reachable.create made).run (by decide +kernel) (mem_toOption.1 done)
  obtain ⟨q, r, expands, recycles, agrees⟩ :=
    (recycle_agrees_with_expand reachable ⟨width, inside, clear⟩ large).1 room
  obtain rfl := (Prod.mk.inj (Except.ok.inj (expands.symm.trans (mem_toOption.1 expanded)))).1
  exact ⟨s.1, t.1, r, entries, first, loss, expands, recycles, agrees, after⟩

end Pool

end FreeStore
