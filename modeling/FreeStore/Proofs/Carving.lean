import FreeStore.Pool.Block
import FreeStore.Proofs.Placement
/-!
Carving keeps a pool sound.

A block is taken off the front of the first entry, like an object off the entry found for it. In front of
the first entry there is nothing, so realignment can only shorten or drop that entry itself. The induction
follows `carve` down the list; on a sweep grid every entry of it must fit the grid (`FitsGrid`).
-/
namespace FreeStore

theorem SweepGrid.lt_boundaryAbove {g : SweepGrid} {a : Nat} (hg : 0 < g.chunk) : a < g.boundaryAbove a := by
  have := Nat.mod_lt (a - g.base) hg
  unfold boundaryAbove
  omega

/-- Clipping ends at the next chunk boundary at most, and faults only off the grid. -/
theorem SweepGrid.clip_ends {F : Fault → Prop} {g : SweepGrid} {start wanted : Nat}
    (hg : 0 < g.chunk) (ht : start + wanted < wordLimit)
    (fits : (∀ f, f ≠ .counterOverflow → F f) ∨ g.base ≤ start ∧ g.boundaryAbove start < wordLimit) :
    Ends F (g.clip start wanted) fun clipped =>
      g.base ≤ start ∧ clipped = min wanted (g.boundaryAbove start - start) := by
  have past : Word.rem (start - g.base) g.chunk = .ok ((start - g.base) % g.chunk) :=
    if_neg (Nat.ne_of_gt hg)
  unfold clip
  split
  · rcases fits with all | ⟨above, -⟩
    · exact all _ nofun
    · omega
  · rename_i above
    rw [past, ok_bind]
    by_cases inside : g.boundaryAbove start < wordLimit
    · have higher : start < g.boundaryAbove start := lt_boundaryAbove hg
      rw [Word.add_bind inside, Word.add_bind ht]
      refine ⟨Nat.le_of_not_lt above, ?_⟩
      show (if g.boundaryAbove start < start + wanted then wanted - (start + wanted - g.boundaryAbove start)
        else wanted) = _
      split <;> omega
    · have overflow : Word.add start (g.chunk - (start - g.base) % g.chunk) = .error .arithmetic :=
        if_neg inside
      rw [overflow]
      rcases fits with all | ⟨-, fits⟩
      · exact all _ nofun
      · exact absurd fits inside

namespace Pool

variable {α : Type} {F : Fault → Prop} {R : α → Prop} {p : Pool} {maximum taken : Nat} {record : Bool}
  {g : Histogram} {e : Entry} {l rest : FreeList}

theorem countBlock_bind {k : Pool → Outcome α} {size : Nat}
    (hF : F .counterOverflow ∨ (record = true → p.large.tlhs.RoomFor size))
    (w : ∀ tlhs, Ends F (k { p with large := { p.large with tlhs } }) R) :
    Ends F (p.countBlock size record >>= k) R := by
  unfold countBlock
  cases record with
  | true =>
    simp only [if_true, LargeObjectStats.recordTlh, bind_assoc]
    exact Histogram.increment_bind (hF.imp_right fun room => room rfl) fun tlhs => w tlhs
  | false => exact w p.large.tlhs

/-- Dropping the first entry, which is off the histogram already. -/
theorem dropFirst_ends (hF : F .counterOverflow ∨ p.stats.discardedBytes + e.size < wordLimit) (h : p.Sound)
    (hp : p.entries = e :: rest) (hg : g.Counts rest) :
    Ends F (dropFirst { p with large := { p.large with freeEntries := g } } e rest) fun q =>
      q.Sound ∧ Effect p q [] [] ∧ q.entries = rest ∧ p.Spends q := by
  have he : e ∈ p.entries := by simp [hp]
  unfold dropFirst
  rw [checkedTop_bind (h.tracked.inside e he)]
  have size := h.size_le he
  refine debit_bind size (h.entryCount_pos he) (countDiscarded_bind hF ?_)
  dsimp only [relinkCursor, abandon]
  obtain ⟨sound, effect⟩ :
      let q : Pool := { p with
        entries := [] ++ [] ++ rest
        freeBytes := p.freeBytes - e.size, entryCount := p.entryCount - 1
        hints := p.hints.remove e.start, cursor := p.cursor.relink (FreeList.firstStart rest) none
        stats := { p.stats with discardedBytes := p.stats.discardedBytes + e.size }
        events := PoolEvent.logDrop p.isRecorded p.events e.start e.top
        large := { p.large with freeEntries := g } }
      q.Sound ∧ Effect p q [] [] := by
    refine sound_cut h hp.symm FreeList.tracked_nil FreeList.within_nil ?_ ?_ hg
      (HintCache.Holds.remove FreeList.within_nil (hp ▸ h.hints)) fun _ => balances_logDrop ..
    · simp only [FreeList.bytes_nil]
      omega
    · have := h.entryCount_pos he
      simp only [List.length_nil]
      omega
  refine ⟨sound, effect, rfl, Nat.sub_le _ _, Nat.le_refl _, ?_, ?_, ⟨rfl, rfl, rfl⟩, rfl, rfl⟩
  · show p.stats.discardedBytes + e.size + (p.freeBytes - e.size) ≤ _
    omega
  · exact Nat.add_le_add_left (Nat.sub_le _ _) _

/-- Carving a block off the first entry, which is off the histogram already. -/
theorem carveFirst_ends (hF : F .counterOverflow ∨ p.RoomToServe p.large.tlhs e taken 0 record) (h : p.Sound)
    (hp : p.entries = e :: rest) (hg : g.Counts rest) (fits : taken ≤ e.size) :
    Ends F (carveFirst { p with large := { p.large with freeEntries := g } } e rest taken record)
      fun q => q.Sound ∧ Effect p q [] [⟨e.start, e.start + taken⟩] ∧
        q.entries = e.remainder taken p.config.minEntry ++ rest := by
  have he : e ∈ p.entries := by simp [hp]
  have top := h.tracked.inside e he
  have bytes := h.size_le he
  unfold carveFirst
  rw [checkedTop_bind top]
  refine debit_bind (by exact Nat.le_trans fits bytes) (Nat.zero_le _)
    (countAllocation_bind (hF.imp_right fun room => ⟨room.count, room.bytes, room.search⟩) ?_)
  refine countBlock_bind (by exact hF.imp_right fun room => room.recorded) fun tlhs => ?_
  dsimp only
  refine keepRest_bind (by exact hF.imp_right fun room => room.rest) (by exact hp ▸ h.tracked)
    (by exact h.minEntry_pos) hg (by exact hp ▸ h.hints) fits ?_ ?_ ?_
  · show e.size - taken ≤ p.freeBytes - taken
    omega
  · exact h.entryCount_pos he
  intro g freeBytes entryCount hints cursor stats events hg hb hn hh hr
  dsimp only at hb hn hh hr ⊢
  have front : p.entries = [] ++ e :: rest := hp
  exact ends_settle_and (sound_front h front fits hg hb hn hh hr) rfl

/-- A block is taken off an entry that fits the grid. -/
theorem blockSize_ends (hg : ∀ g ∈ p.sweepGrid, 0 < g.chunk) (ht : e.top < wordLimit)
    (fits : (∀ f, f ≠ .counterOverflow → F f) ∨
      ∀ g ∈ p.sweepGrid, g.base ≤ e.start ∧ g.boundaryAbove e.start < wordLimit) :
    Ends F (p.blockSize e maximum) fun r => ∀ taken ∈ r, taken ≤ e.size := by
  have wanted : min maximum e.size ≤ e.size := Nat.min_le_right _ _
  unfold blockSize
  cases hs : p.sweepGrid with
  | none =>
    rintro taken ⟨⟩
    split
    · exact wanted
    · exact Nat.le_refl _
  | some g =>
    refine (SweepGrid.clip_ends (hg g hs) ?_ (fits.imp_right fun all => all g hs)).bind ?_
    · exact Nat.lt_of_le_of_lt (Nat.add_le_add_left wanted _) ht
    · rintro clipped ⟨-, rfl⟩
      rw [ends_pure]
      split
      · rintro taken ⟨⟩
        exact Nat.le_trans (Nat.min_le_left _ _) wanted
      · simp

/-- A block is carved, or the entries that yield none are dropped and reported. -/
theorem carve_ends (hF : F .counterOverflow ∨ p.HasRoom 0 0) (h : p.Sound)
    (hp : p.entries = l) (fits : (∀ f, f ≠ .counterOverflow → F f) ∨ p.FitsGrid l) :
    Ends F (carve maximum record l p) fun r =>
      r.1.Sound ∧ Effect p r.1 [] r.2.toList ∧ (r.2 = none → p.Spends r.1) := by
  induction l generalizing p with
  | nil => exact ⟨h, .refl p, fun _ => .refl p⟩
  | cons d rest ih =>
    rw [carve]
    have front : p.entries = [] ++ d :: rest := hp
    refine ((reach_ends (hF.imp_right HasRoom.dark) h front).and (reach_spends h front)).bind ?_
    rintro ⟨q, found⟩ ⟨⟨sound, effect, cases, within, before', shrinks, entries⟩, spent⟩
    obtain rfl := shrinks.eq_nil
    have room : F .counterOverflow ∨ q.HasRoom 0 0 := hF.imp_right (HasRoom.of_spends · spent)
    -- the grid and the realignment of the remaining entries are as they were
    have fitsRest : ∀ {r : Pool}, Effect p r [] [] →
        (∀ f, f ≠ .counterOverflow → F f) ∨ r.FitsGrid rest := by
      intro r same
      refine fits.imp_right fun all g hg e he => ?_
      have realigned : r.realigned e = p.realigned e := by
        unfold realigned
        rw [same.config]
      rw [realigned]
      exact all g (same.grid ▸ hg) e (List.mem_cons_of_mem _ he)
    cases found with
    | none =>
      refine (ih room sound entries (fitsRest effect)).mono ?_
      rintro r ⟨sound', effect', spent'⟩
      exact ⟨sound', effect.trans effect', fun none => spent.trans (spent' none)⟩
    | some e =>
      have entries : q.entries = e :: rest := by simpa using entries
      have he : e ∈ q.entries := by simp [entries]
      obtain ⟨pos, word⟩ := sound.size_bounds he
      refine uncountFree_bind (entries ▸ sound.census) pos word fun g hg => ?_
      refine (blockSize_ends sound.grid (sound.tracked.inside e he) ?_).bind fun size hs => ?_
      · refine fits.imp_right fun all g hg => ?_
        obtain ⟨base, boundary, core⟩ := all g (effect.grid ▸ hg) d List.mem_cons_self
        have start := (within e (by simp)).1
        refine ⟨Nat.le_trans base start, ?_⟩
        rcases cases e rfl with rfl | realigned
        · exact boundary
        · exact core e realigned
      · cases size with
        | none =>
          have size := sound.size_le he
          refine (dropFirst_ends (room.imp_right fun room => ?_) sound entries hg).bind ?_
          · exact Nat.lt_of_le_of_lt (Nat.add_le_add_left size _) room.discarded
          rintro r ⟨sound', effect', entries', dropped⟩
          have room' := room.imp_right (HasRoom.of_spends · dropped)
          refine (ih room' sound' entries' (fitsRest (effect.trans effect'))).mono ?_
          rintro s ⟨sound'', effect'', spent''⟩
          exact ⟨sound'', (effect.trans effect').trans effect'',
            fun none => (spent.trans dropped).trans (spent'' none)⟩
        | some taken =>
          refine (carveFirst_ends (hF.imp_right fun room => ?_) sound entries hg (hs taken rfl)).bind ?_
          · exact room.toServe spent sound he (hs taken rfl) (Nat.zero_le _) (.inr rfl)
          · rintro r ⟨sound', effect', -⟩
            exact ⟨sound', effect.trans effect', nofun⟩

end Pool

end FreeStore
