import FreeStore.Proofs.Carving
/-!
What a request does to the entries that wait for realignment.

A request goes down the list, realigns what it reaches, and in the end takes a block off an entry that no
longer waits. It does nothing else to the books of realignment: the estimate, the bytes lost so far and
the cursor stay as they are (`Steady`). So a relation between pools that holds across a realignment, and
across steps that are steady, holds across a whole request up to the block (`Keeps`, `place_keeps`,
`carve_keeps`). Where a search finds nothing, no entry is left waiting behind it (`WaitsIn`).
-/
namespace FreeStore

/-- The end of a run does not matter, only what it yields. -/
abbrev Yields {α : Type} (x : Outcome α) (P : α → Prop) : Prop := Ends (fun _ => True) x P

namespace Pool

variable {p q r : Pool} {size maximum : Nat} {record hinted : Bool} {w : Walk} {e : Entry}
  {l before after rest : FreeList}

/-! ## Steady steps -/

/-- The settings and the books of realignment are the same. -/
structure Steady (p q : Pool) : Prop where
  config : q.config = p.config
  estimate : q.pendingLoss = p.pendingLoss
  dark : q.stats.darkMatterBytes = p.stats.darkMatterBytes
  cursor : q.cursor.first? = p.cursor.first?

theorem Steady.refl (p : Pool) : Steady p p := ⟨rfl, rfl, rfl, rfl⟩

theorem Steady.trans (h : Steady p q) (g : Steady q r) : Steady p r :=
  ⟨g.config.trans h.config, g.estimate.trans h.estimate, g.dark.trans h.dark, g.cursor.trans h.cursor⟩

theorem Steady.prepend (g : Steady q r) (h : Steady p q) : Steady p r := h.trans g

theorem steady_countFree : Yields (p.countFree size) (Steady p) := .any fun _ => ends_pure.2 ⟨rfl, rfl, rfl, rfl⟩

theorem steady_uncountFree : Yields (p.uncountFree size) (Steady p) :=
  .any fun _ => ends_pure.2 ⟨rfl, rfl, rfl, rfl⟩

theorem steady_debit {bytes count : Nat} : Yields (p.debit bytes count) (Steady p) :=
  .any fun _ => .any fun _ => ends_pure.2 ⟨rfl, rfl, rfl, rfl⟩

theorem steady_countDiscarded {bytes : Nat} : Yields (p.countDiscarded bytes) (Steady p) :=
  .any fun _ => ends_pure.2 ⟨rfl, rfl, rfl, rfl⟩

theorem steady_countAllocation {bytes steps : Nat} : Yields (p.countAllocation bytes steps) (Steady p) :=
  .any fun _ => .any fun _ => .any fun _ => ends_pure.2 ⟨rfl, rfl, rfl, rfl⟩

theorem steady_countObject : Yields (p.countObject size record) (Steady p) := by
  rw [← bind_pure (p.countObject size record)]
  exact countObject_bind (.inl trivial) fun _ => ends_pure.2 ⟨rfl, rfl, rfl, rfl⟩

theorem steady_countBlock : Yields (p.countBlock size record) (Steady p) := by
  rw [← bind_pure (p.countBlock size record)]
  exact countBlock_bind (.inl trivial) fun _ => ends_pure.2 ⟨rfl, rfl, rfl, rfl⟩

theorem steady_settle : Yields p.settle (Steady p) := by
  refine .any fun _ => ?_
  split
  · exact ⟨rfl, rfl, rfl, rfl⟩
  · trivial

theorem steady_keepRest {taken : Nat} : Yields (p.keepRest before e taken after) (Steady p) := by
  unfold keepRest
  dsimp only
  split
  · apply steady_countFree.mono
    intro q same
    exact same.prepend ⟨rfl, rfl, rfl, CardCursor.first?_relink ..⟩
  · apply steady_debit.bind
    intro q debited
    apply steady_countDiscarded.bind
    intro r counted
    have hinted : r.Steady { r with hints := r.hints.remove e.start } := ⟨rfl, rfl, rfl, rfl⟩
    exact (debited.trans (counted.trans hinted)).prepend ⟨rfl, rfl, rfl, CardCursor.first?_relink ..⟩

theorem steady_takeFront : Yields (p.takeFront e size w hinted record) (Steady p) := by
  refine .any fun _ => steady_uncountFree.bind fun q₁ h₁ => ?_
  refine steady_debit.bind fun q₂ h₂ => steady_countAllocation.bind fun q₃ h₃ => ?_
  refine steady_keepRest.bind fun q₄ h₄ => steady_countObject.bind fun q₅ h₅ => ?_
  apply steady_settle.mono
  intro q₆ h₆
  have left : q₁.Steady q₂ := h₂.prepend ⟨rfl, rfl, rfl, rfl⟩
  exact h₁.trans (left.trans (h₃.trans (h₄.trans (h₅.trans h₆))))

theorem steady_dropFirst : Yields (p.dropFirst e rest) (Steady p) := by
  refine .any fun _ => steady_debit.bind fun q₁ h₁ => steady_countDiscarded.bind fun q₂ h₂ => ?_
  have abandoned : p.Steady q₁ := h₁.prepend ⟨rfl, rfl, rfl, rfl⟩
  exact abandoned.trans (h₂.trans ⟨rfl, rfl, rfl, CardCursor.first?_relink ..⟩)

theorem steady_carveFirst {taken : Nat} : Yields (p.carveFirst e rest taken record) (Steady p) := by
  refine .any fun _ => steady_debit.bind fun q₁ h₁ => steady_countAllocation.bind fun q₂ h₂ => ?_
  refine steady_countBlock.bind fun q₃ h₃ => steady_keepRest.bind fun q₄ h₄ => ?_
  apply steady_settle.mono
  intro q₅ h₅
  exact h₁.trans (h₂.trans (h₃.trans (h₄.trans h₅)))

/-! ## Waiting entries -/

/-- Only entries of `l` wait for realignment. -/
def WaitsIn (p : Pool) (l : FreeList) : Prop := ∀ f ∈ p.entries, p.awaits f.start = true → f ∈ l

theorem Steady.awaits_eq (h : Steady p q) (a : Nat) : q.awaits a = p.awaits a := by
  rw [awaits, awaits, h.estimate, h.cursor]

/-- An entry lies below those behind it. -/
theorem Sound.start_lt_of_mem {f : Entry} (h : p.Sound) (hp : p.entries = before ++ e :: after)
    (hf : f ∈ after) : e.start < f.start :=
  (FreeList.tracked_append.1 (hp ▸ h.tracked)).2.1.start_lt h.minEntry_pos hf

/-- An entry in front of those that wait does not wait. -/
theorem WaitsIn.awaits_eq (h : p.WaitsIn after) (sound : p.Sound) (hp : p.entries = before ++ e :: after) :
    p.awaits e.start = false := by
  refine Bool.eq_false_iff.2 fun waits => ?_
  have later := h e (by simp [hp]) waits
  have := sound.start_lt_of_mem hp later
  omega

/-- Where the cursor stands after a realignment, no entry lies across it. -/
theorem Advances.cut (h : p.Advances before e after q) (sound : q.Sound) :
    ∃ front, q.entries = front ++ after ∧ ∀ first ∈ q.cursor.first?,
      (∀ f ∈ front, f.start < first ∧ f.top ≤ first) ∧ ∀ f ∈ after, first ≤ f.start := by
  obtain ⟨_, -, -, pays, entries⟩ := h
  refine ⟨_, entries, fun first found => ?_⟩
  obtain ⟨tf, ta, cross⟩ := FreeList.tracked_append.1 (entries ▸ sound.tracked)
  rw [pays.cursor] at found
  cases after with
  | nil => cases found
  | cons d rest =>
    obtain rfl := Option.some_inj.1 found
    have pos := sound.minEntry_pos
    constructor
    · intro f hf
      have apart := cross f hf d List.mem_cons_self
      have large := tf.large f hf
      simp only [Entry.top] at apart ⊢
      omega
    · intro f hf
      rcases List.mem_cons.1 hf with rfl | hf
      · exact Nat.le_refl _
      · exact Nat.le_of_lt (ta.start_lt pos hf)

/-- Realignment leaves only entries behind the cursor's new place waiting. -/
theorem Advances.waitsIn (h : p.Advances before e after q) (sound : q.Sound) : q.WaitsIn after := by
  obtain ⟨front, entries, cut⟩ := h.cut sound
  intro f hf waits
  obtain ⟨-, first, found, from_start⟩ := awaits_iff.1 waits
  rcases List.mem_append.1 (entries ▸ hf) with inFront | behind
  · have := (cut first found).1 f inFront
    omega
  · exact behind

/-- If `e` does not wait, none of the entries in front of it does. -/
theorem waitsIn_of_not_awaits (h : p.Sound) (hp : p.entries = before ++ e :: after)
    (settled : p.awaits e.start = false) : p.WaitsIn after := by
  intro f hf waits
  obtain ⟨some, first, cursor, from_start⟩ := awaits_iff.1 waits
  have behind : e.start < first := by
    by_contra reached
    rw [awaits_iff.2 ⟨some, first, cursor, by omega⟩] at settled
    cases settled
  rw [hp] at hf
  rcases List.mem_append.1 hf with front | hf
  · have apart := (FreeList.tracked_append.1 (hp ▸ h.tracked)).2.2 f front e List.mem_cons_self
    simp only [Entry.top] at apart
    omega
  · rcases List.mem_cons.1 hf with rfl | hf
    · omega
    · exact hf

/-! ## Going down the list -/

/-- The relation holds across every step of a request up to the block that it gets: realignment up to an
entry, dropping a first entry that does not wait, and steps that change neither the list nor the books of
realignment. -/
structure Keeps (R : Pool → Pool → Prop) : Prop where
  trans : ∀ {p q r}, R p q → R q r → R p r
  idle : ∀ {p q}, Steady p q → q.entries = p.entries → R p q
  aligned : ∀ {p q before e after}, p.Sound → q.Sound → q.config = p.config →
    p.entries = before ++ e :: after → p.awaits e.start = true → p.Advances before e after q → R p q
  dropped : ∀ {p q e rest}, p.Sound → q.Sound → Steady p q → p.awaits e.start = false →
    p.entries = e :: rest → q.entries = rest → R p q

variable {R : Pool → Pool → Prop}

theorem Keeps.refl (K : Keeps R) (p : Pool) : R p p := K.idle (.refl p) rfl

theorem reach_keeps (K : Keeps R) (h : p.Sound) (hp : p.entries = before ++ e :: after) :
    Yields (p.reach e) fun s => R p s.1 ∧ s.1.WaitsIn after := by
  unfold reach
  split
  · rename_i waits
    apply (alignThrough_ends (.inl trivial) h hp waits).mono
    rintro ⟨q, found⟩ ⟨sound, effect, -, advances⟩
    exact ⟨K.aligned h sound effect.config hp waits advances, advances.waitsIn sound⟩
  · rename_i settled
    exact ⟨K.refl p, waitsIn_of_not_awaits h hp (by simpa using settled)⟩

/-- A search keeps what realignment keeps. The entry it finds does not wait, and where it finds none, none
waits. -/
theorem search_keeps (K : Keeps R) (h : p.Sound) (hp : p.entries = before ++ l)
    (hl : l = [] → p.WaitsIn []) :
    Yields (search size l p w) fun s => R p s.1 ∧ (s.2.2 = none → s.1.WaitsIn []) ∧
      ∀ e ∈ s.2.2, s.1.awaits e.start = false := by
  induction l generalizing p w before with
  | nil => exact ⟨K.refl p, fun _ => hl rfl, by simp⟩
  | cons d rest ih =>
    rw [search]
    apply ((reach_ends (.inl trivial) h hp).and (reach_keeps K h hp)).bind
    rintro ⟨q, found⟩ ⟨⟨sound, -, -, -, before', -, entries⟩, kept, behind⟩
    dsimp only at sound entries kept behind
    have next : rest = [] → q.WaitsIn [] := by
      rintro rfl
      exact behind
    cases found with
    | none =>
      simp only [Option.toList_none, List.append_nil] at entries
      apply (ih sound entries next).mono
      rintro s ⟨kept', rest⟩
      exact ⟨K.trans kept kept', rest⟩
    | some e =>
      simp only [Option.toList_some] at entries
      dsimp only
      split
      · have place : q.entries = before' ++ e :: rest := by simpa using entries
        refine ⟨kept, by simp, ?_⟩
        rintro _ ⟨⟩
        exact behind.awaits_eq sound place
      · apply (ih sound entries next).mono
        rintro s ⟨kept', rest⟩
        exact ⟨K.trans kept kept', rest⟩

theorem firstFit_keeps (K : Keeps R) (h : p.Sound) :
    Yields (p.firstFit size) fun s => R p s.1 ∧ (s.2.2.1 = none → s.1.WaitsIn []) ∧
      ∀ e ∈ s.2.2.1, s.1.awaits e.start = false := by
  obtain ⟨sound, -, entries, bounds⟩ := findHint_of_sound h size
  have same : R p (p.findHint size).1 := K.idle ⟨rfl, rfl, rfl, rfl⟩ entries
  have starts : ∀ hint ∈ (p.findHint size).2, p.entries.startsAt hint.entry = true := by
    intro hint found
    exact (Option.mem_filter_iff.1 found).2
  unfold firstFit
  generalize p.findHint size = found at *
  obtain ⟨q, hint⟩ := found
  simp only at *
  cases hint with
  | none =>
    have none : q.entries = [] → q.WaitsIn [] := by
      intro empty f hf
      simp [empty] at hf
    apply (search_keeps K sound (List.nil_append _).symm none).bind
    rintro ⟨r, w, found⟩ ⟨kept, rest⟩
    exact ⟨K.trans same kept, rest⟩
  | some hint =>
    have split := FreeList.below_append_upFrom hint.entry q.entries
    -- the hinted entry itself is one to start from
    have some : q.entries.upFrom hint.entry ≠ [] := by
      intro empty
      obtain ⟨f, hf, start⟩ := FreeList.startsAt_iff.1 (starts hint rfl)
      rw [empty, List.append_nil] at split
      have lower := FreeList.start_lt_of_mem_below (split.symm ▸ entries.symm ▸ hf)
      omega
    apply (search_keeps K sound split.symm fun empty => absurd empty some).bind
    rintro ⟨r, w, found⟩ ⟨kept, rest⟩
    exact ⟨K.trans same kept, rest⟩

/-! ## Requests -/

/-- `q` is `p` after `R`, and a steady step that took `block` off the front of an entry that did not wait. -/
structure Hands (R : Pool → Pool → Prop) (p : Pool) (block : Range) (q : Pool) : Prop where
  sound : q.Sound
  taken : ∃ mid before e after, R p mid ∧ mid.Sound ∧ mid.Steady q ∧
    mid.entries = before ++ e :: after ∧ mid.awaits e.start = false ∧
    block.low = e.start ∧ block.high ≤ e.top ∧
    q.entries = before ++ e.remainder (block.high - block.low) mid.config.minEntry ++ after

theorem Hands.prepend {block : Range} (h : Hands R q block r) (K : Keeps R) (kept : R p q) :
    Hands R p block r := by
  obtain ⟨sound, mid, before, e, after, kept', taken⟩ := h
  exact ⟨sound, mid, before, e, after, K.trans kept kept', taken⟩

theorem place_keeps (K : Keeps R) (h : p.Sound) :
    Yields (p.place size record) fun s => s.1.Sound ∧
      (s.2.2 = none → R p s.1 ∧ s.1.WaitsIn []) ∧
      ∀ a ∈ s.2.2, Hands R p ⟨a, a + size⟩ s.1 := by
  unfold place
  apply ((firstFit_ends (.inl trivial) h).and (firstFit_keeps K h)).bind
  rintro ⟨q, w, found, hinted⟩ ⟨⟨sound, -, -, enough⟩, kept, behind, settled⟩
  cases found with
  | none => exact ⟨sound, fun _ => ⟨kept, behind rfl⟩, by simp⟩
  | some e =>
    obtain ⟨before, after, entries, fits, passed⟩ := enough e rfl
    apply ((takeFront_ends (.inl trivial) sound entries passed fits).and steady_takeFront).bind
    rintro r ⟨⟨sound', -, rest⟩, steady⟩
    refine ⟨sound', by simp, ?_⟩
    rintro _ ⟨⟩
    refine ⟨sound', q, before, e, after, kept, sound, steady, entries, settled e rfl, rfl, ?_, ?_⟩
    · exact Nat.add_le_add_left fits _
    · simpa using rest

theorem carve_keeps (K : Keeps R) (h : p.Sound) (hp : p.entries = l) :
    Yields (carve maximum record l p) fun s => s.1.Sound ∧
      (s.2 = none → R p s.1) ∧ ∀ block ∈ s.2, Hands R p block s.1 := by
  induction l generalizing p with
  | nil => exact ⟨h, fun _ => K.refl p, by simp⟩
  | cons d rest ih =>
    rw [carve]
    have front : p.entries = [] ++ d :: rest := hp
    apply ((reach_ends (.inl trivial) h front).and (reach_keeps K h front)).bind
    rintro ⟨q, found⟩ ⟨⟨sound, -, -, -, before', shrinks, entries⟩, kept, behind⟩
    obtain rfl := shrinks.eq_nil
    dsimp only at sound entries kept behind
    cases found with
    | none =>
      apply (ih sound entries).mono
      rintro s ⟨sound', none, some⟩
      exact ⟨sound', fun found => K.trans kept (none found), fun block found =>
        (some block found).prepend K kept⟩
    | some e =>
      have entries : q.entries = [] ++ e :: rest := by simpa using entries
      have settled := behind.awaits_eq sound entries
      have he : e ∈ q.entries := by simp [entries]
      obtain ⟨pos, word⟩ := sound.size_bounds he
      refine uncountFree_bind (entries ▸ sound.census) pos word fun g hg => ?_
      have uncounted : q.Steady { q with large := { q.large with freeEntries := g } } :=
        ⟨rfl, rfl, rfl, rfl⟩
      refine (blockSize_ends sound.grid (sound.tracked.inside e he) (.inl fun _ _ => trivial)).bind ?_
      intro size fits
      cases size with
      | none =>
        apply ((dropFirst_ends (.inl trivial) sound entries hg).and steady_dropFirst).bind
        rintro r ⟨⟨sound', -, entries', -⟩, steady⟩
        have kept := K.trans kept (K.dropped sound sound' (uncounted.trans steady) settled entries entries')
        apply (ih sound' entries').mono
        rintro s ⟨sound'', none, some⟩
        exact ⟨sound'', fun found => K.trans kept (none found), fun block found =>
          (some block found).prepend K kept⟩
      | some taken =>
        have enough := fits taken rfl
        apply ((carveFirst_ends (.inl trivial) sound entries hg enough).and steady_carveFirst).bind
        rintro r ⟨⟨sound', -, entries'⟩, steady⟩
        refine ⟨sound', by simp, ?_⟩
        rintro _ ⟨⟩
        refine ⟨sound', q, [], e, rest, kept, sound, uncounted.trans steady, entries, settled, rfl, ?_, ?_⟩
        · exact Nat.add_le_add_left enough _
        · simpa using entries'

end Pool

end FreeStore
