import FreeStore.Proofs.Coalescing
/-!
Which end of a batch is merged.

Two lists one behind the other touch in one place at most, and `joinEnds` merges the entries there, so the
lists together are spread if each of them is (`spread_joinEnds`). A batch has two such places and only one
of them is looked at: the one behind the batch if no entry lies in front of it, else the one in front. The
other place is the only one where entries can touch afterwards (`touches_joinBatch`).
-/
namespace FreeStore

namespace FreeList

variable {m : Nat} {e f last first : Entry} {l k front back : FreeList}

theorem Spread.top_le_of_snoc (h : Spread (l ++ [last])) (he : e ∈ l ++ [last]) : e.top ≤ last.top := by
  rcases List.mem_append.1 he with he | he
  · have apart := (List.pairwise_append.1 h).2.2 e he last List.mem_cons_self
    exact Nat.le_trans (Nat.le_of_lt apart) (Nat.le_add_right _ _)
  · rw [List.mem_singleton.1 he]

theorem Spread.start_le_of_cons (h : Spread (first :: k)) (hf : f ∈ first :: k) : first.start ≤ f.start := by
  rcases List.mem_cons.1 hf with rfl | hf
  · exact Nat.le_refl _
  · have apart := (List.pairwise_cons.1 h).1 f hf
    exact Nat.le_trans (Nat.le_add_right _ _) (Nat.le_of_lt apart)

/-- Entries of a spread list do not touch. -/
theorem Spread.top_ne_start (h : Spread l) (pos : ∀ e ∈ l, 0 < e.size) (he : e ∈ l) (hf : f ∈ l) :
    e.top ≠ f.start := by
  have posE := pos e he
  have posF := pos f hf
  intro touch
  unfold Entry.top at *
  rcases h.eq_or_lt he hf with rfl | apart | apart
  · omega
  · unfold Entry.top at apart
    omega
  · unfold Entry.top at apart
    omega

/-- Spread lists one behind the other are spread together unless they touch. -/
theorem Spread.append_cons (front : Spread (l ++ [last])) (back : Spread (first :: k))
    (apart : last.top < first.start) : Spread (l ++ [last] ++ first :: k) := by
  refine List.pairwise_append.2 ⟨front, back, fun e he f hf => ?_⟩
  have := front.top_le_of_snoc he
  have := back.start_le_of_cons hf
  omega

/-- Two touching entries that became one end where the upper one did. -/
theorem top_merge (touch : e.top = f.start) : (⟨e.start, e.size + f.size⟩ : Entry).top = f.top := by
  unfold Entry.top at touch ⊢
  dsimp only
  omega

/-- If they touch, they are spread once the entries there are merged. -/
theorem Spread.merge (front : Spread (l ++ [last])) (back : Spread (first :: k))
    (touch : last.top = first.start) : Spread (l ++ ⟨last.start, last.size + first.size⟩ :: k) := by
  obtain ⟨others, -, below⟩ := List.pairwise_append.1 front
  obtain ⟨above, rest⟩ := List.pairwise_cons.1 back
  refine List.pairwise_append.2
    ⟨others, List.pairwise_cons.2 ⟨fun g hg => top_merge touch ▸ above g hg, rest⟩, ?_⟩
  intro e he g hg
  have lower : e.top < last.start := below e he last List.mem_cons_self
  rcases List.mem_cons.1 hg with rfl | hg
  · exact lower
  · have upper := above g hg
    unfold Entry.top at *
    omega

end FreeList

namespace Pool

variable {p q : Pool} {m a : Nat} {d e f last first tail : Entry} {l k front back : FreeList}
  {before batch after rest : FreeList} {r : Range} {rs ranges : List Range}

/-! ## Two lists -/

theorem joinEnds_nil_right (front : FreeList) : (joinEnds front []).1 = front := by
  unfold joinEnds
  split
  · rename_i nonempty
    cases nonempty
  · exact List.append_nil front

theorem joinEnds_of_touch (touch : last.top = first.start) :
    (joinEnds (l ++ [last]) (first :: k)).1 = l ++ ⟨last.start, last.size + first.size⟩ :: k := by
  simp [joinEnds, touch]

theorem joinEnds_of_apart (apart : last.top ≠ first.start) :
    (joinEnds (l ++ [last]) (first :: k)).1 = l ++ [last] ++ first :: k := by
  simp [joinEnds, apart]

theorem spread_joinEnds (t : FreeList.Tracked m (front ++ back)) (hf : front.Spread) (hb : back.Spread) :
    (joinEnds front back).1.Spread := by
  rcases List.eq_nil_or_concat' front with rfl | ⟨l, last, rfl⟩
  · exact hb
  cases back with
  | nil => rwa [joinEnds_nil_right]
  | cons first k =>
    have order := (FreeList.tracked_append.1 t).2.2 last (by simp) first List.mem_cons_self
    by_cases touch : last.top = first.start
    · rw [joinEnds_of_touch touch]
      exact hf.merge hb touch
    · rw [joinEnds_of_apart touch]
      exact hf.append_cons hb (Nat.lt_of_le_of_ne order touch)

/-- An entry in front that the lists behind touch is the last one there, and is merged with the first one behind. -/
theorem exists_joined_of_touch (t : FreeList.Tracked m (front ++ first :: k)) (hm : 0 < m) (hd : d ∈ front)
    (touch : d.top = first.start) :
    ∃ e ∈ (joinEnds front (first :: k)).1, e.start = d.start ∧ e.top = first.top := by
  obtain ⟨l, last, rfl⟩ := (List.eq_nil_or_concat' front).resolve_left (List.ne_nil_of_mem hd)
  obtain ⟨tf, tb, cross⟩ := FreeList.tracked_append.1 t
  have order := cross last (by simp) first List.mem_cons_self
  have isLast : d = last := by
    rcases List.mem_append.1 hd with hd | hd
    · have below := (FreeList.tracked_append.1 tf).2.2 d hd last List.mem_cons_self
      have size := (tf.size_bounds hm (e := last) (by simp)).1
      unfold Entry.top at *
      omega
    · exact List.mem_singleton.1 hd
  subst isLast
  rw [joinEnds_of_touch touch]
  exact ⟨_, List.mem_append_right _ List.mem_cons_self, rfl, FreeList.top_merge touch⟩

/-- The lists end where the one behind does. -/
theorem exists_last_joinEnds (front : FreeList) (back_last : back.getLast? = some tail) :
    ∃ l last, (joinEnds front back).1 = l ++ [last] ∧ last.top = tail.top := by
  obtain ⟨init, rfl⟩ : ∃ init, back = init ++ [tail] :=
    ⟨_, (List.dropLast_append_getLast? tail back_last).symm⟩
  rcases List.eq_nil_or_concat' front with rfl | ⟨l, last, rfl⟩
  · exact ⟨init, tail, rfl, rfl⟩
  cases init with
  | nil =>
    by_cases touch : last.top = tail.start
    · exact ⟨l, ⟨last.start, last.size + tail.size⟩, joinEnds_of_touch touch, FreeList.top_merge touch⟩
    · exact ⟨l ++ [last], tail, joinEnds_of_apart touch, rfl⟩
  | cons first init =>
    by_cases touch : last.top = first.start
    · refine ⟨l ++ ⟨last.start, last.size + first.size⟩ :: init, tail, ?_, rfl⟩
      rw [List.cons_append, joinEnds_of_touch touch, List.append_assoc, List.cons_append]
    · refine ⟨l ++ [last] ++ first :: init, tail, ?_, rfl⟩
      rw [List.cons_append, joinEnds_of_apart touch, List.append_assoc _ (first :: init), List.cons_append]

/-! ## The batch -/

theorem joinBatch_of_ne_nil (some : before ≠ []) :
    (joinBatch before batch after).1 = (joinEnds before batch).1 ++ after := by
  rw [joinBatch, if_neg (by simpa using some)]

/-- Once a batch is in its place, entries touch only behind it, and only if others lie in front of it. -/
theorem touches_joinBatch (t : FreeList.Tracked m (before ++ batch ++ after)) (hm : 0 < m)
    (spreadBefore : before.Spread) (spreadBatch : batch.Spread) (spreadAfter : after.Spread)
    (hl : batch.getLast? = some tail) (he : e ∈ (joinBatch before batch after).1)
    (hf : f ∈ (joinBatch before batch after).1) (touch : e.top = f.start) :
    before ≠ [] ∧ e.top = tail.top ∧ f ∈ after := by
  have tracked : FreeList.Tracked m (joinBatch before batch after).1 := (joined_of_joinBatch rfl).tracked t
  have pos : ∀ d ∈ (joinBatch before batch after).1, 0 < d.size := fun d hd => (tracked.size_bounds hm hd).1
  by_cases none : before = []
  · subst none
    exact absurd touch ((spread_joinEnds t spreadBatch spreadAfter).top_ne_start pos he hf)
  obtain ⟨tl, -, cross⟩ := FreeList.tracked_append.1 t
  have spread := spread_joinEnds tl spreadBefore spreadBatch
  obtain ⟨l, last, ends, top⟩ := exists_last_joinEnds before hl
  rw [joinBatch_of_ne_nil none] at he hf pos tracked
  have order := (FreeList.tracked_append.1 tracked).2.2
  rcases List.mem_append.1 he with he | he <;> rcases List.mem_append.1 hf with hf | hf
  · exact absurd touch (spread.top_ne_start (fun d hd => pos d (List.mem_append_left _ hd)) he hf)
  · have below : e.top ≤ tail.top := top ▸ (ends ▸ spread).top_le_of_snoc (ends ▸ he)
    have above := cross tail (List.mem_append_right _ (List.mem_of_getLast? hl)) f hf
    exact ⟨none, by omega, hf⟩
  · have := order f hf e he
    have := pos e (List.mem_append_right _ he)
    have := pos f (List.mem_append_left _ hf)
    unfold Entry.top at *
    omega
  · exact absurd touch (spreadAfter.top_ne_start (fun d hd => pos d (List.mem_append_right _ hd)) he hf)

/-- The entry in front of a batch that touches it is merged with the first of the batch. -/
theorem joinBatch_front (t : FreeList.Tracked m (before ++ first :: rest ++ after)) (hm : 0 < m)
    (hd : d ∈ before) (touch : d.top = first.start) :
    ∃ e ∈ (joinBatch before (first :: rest) after).1, e.start = d.start ∧ e.top = first.top := by
  rw [joinBatch_of_ne_nil (List.ne_nil_of_mem hd)]
  obtain ⟨e, he, ends⟩ := exists_joined_of_touch (FreeList.tracked_append.1 t).1 hm hd touch
  exact ⟨e, List.mem_append_left _ he, ends⟩

/-- The entry behind a batch that touches it is merged with the last of the batch if none lies in front, and
else stays. -/
theorem joinBatch_back (t : FreeList.Tracked m (before ++ batch ++ after)) (hm : 0 < m)
    (hl : batch.getLast? = some tail) (hf : f ∈ after) (touch : tail.top = f.start) :
    (before = [] → ∃ e ∈ (joinBatch before batch after).1, e.start = tail.start ∧ e.top = f.top) ∧
    (before ≠ [] → f ∈ (joinBatch before batch after).1 ∧
      ∃ e ∈ (joinBatch before batch after).1, e.top = tail.top) := by
  constructor
  · rintro rfl
    cases after with
    | nil => cases hf
    | cons next k =>
      -- the entries behind a batch start above its end, but for the first one
      have isNext : f = next := by
        rcases List.mem_cons.1 hf with rfl | hf
        · rfl
        · have order := (FreeList.tracked_append.1 t).2.2 tail (List.mem_of_getLast? hl) next List.mem_cons_self
          have above := (FreeList.tracked_append.1 t).2.1.start_lt hm hf
          omega
      subst isNext
      have whole : FreeList.Tracked m (batch ++ f :: k) := t
      exact exists_joined_of_touch whole hm (List.mem_of_getLast? hl) touch
  · intro some
    rw [joinBatch_of_ne_nil some]
    obtain ⟨l, last, ends, top⟩ := exists_last_joinEnds before hl
    exact ⟨List.mem_append_right _ hf, last, by simp [ends], top⟩

/-- An entry lies in front of the ranges. -/
def Precedes (p : Pool) (ranges : List Range) : Prop := ∃ d ∈ p.entries, ∀ r ∈ ranges, d.top ≤ r.low

instance : Decidable (p.Precedes ranges) := inferInstanceAs (Decidable (∃ d ∈ p.entries, _))

/-- If all ranges are worth an entry, the batch is all of them. -/
theorem batchOf_eq (worth : ∀ r ∈ ranges, p.config.minEntry ≤ r.high - r.low) :
    p.batchOf ranges = ranges.map Entry.ofRange := by
  have all : ranges.filter (fun r => p.keeps r.length) = ranges :=
    List.filter_eq_self.2 fun r hr => decide_eq_true (worth r hr)
  rw [batchOf, all]

/-- The bytes of the ranges were added to the list. The first range is merged with the entry in front that it
touches. The last one is merged with the entry behind that it touches if no entry lies in front of the ranges;
otherwise these two stay, and they are the only entries that touch. -/
structure MergedAtOneEnd (p : Pool) (ranges : List Range) (q : Pool) : Prop where
  covered : ∀ a, q.entries.cover a = cover (p.entries.ranges ++ ranges) a
  touching : ∀ e ∈ q.entries, ∀ f ∈ q.entries, e.top = f.start →
    p.Precedes ranges ∧ f ∈ p.entries ∧ ∃ tail ∈ ranges.getLast?, e.top = tail.high
  front : ∀ first ∈ ranges.head?, ∀ d ∈ p.entries, d.top = first.low →
    ∃ e ∈ q.entries, e.start = d.start ∧ e.top = first.high
  back : ∀ tail ∈ ranges.getLast?, ∀ f ∈ p.entries, tail.high = f.start →
    (¬ p.Precedes ranges → ∃ e ∈ q.entries, e.start = tail.low ∧ e.top = f.top) ∧
    (p.Precedes ranges → f ∈ q.entries ∧ ∃ e ∈ q.entries, e.top = tail.high)

/-- The entries below a batch lie in front of all of its ranges. -/
theorem precedes_iff (h : p.Sound) (fits : p.BatchFits (r :: rs))
    (worth : ∀ s ∈ r :: rs, p.config.minEntry ≤ s.high - s.low) :
    p.Precedes (r :: rs) ↔ p.entries.below r.low ≠ [] := by
  have batch : p.batchOf (r :: rs) = Entry.ofRange r :: rs.map Entry.ofRange := batchOf_eq worth
  have tracked := tracked_batch h fits batch
  constructor
  · rintro ⟨d, hd, front⟩
    have start : d.start < r.low := Nat.lt_of_lt_of_le (h.start_lt_top hd) (front r List.mem_cons_self)
    rw [← FreeList.below_append_upFrom r.low p.entries] at hd
    rcases List.mem_append.1 hd with hd | hd
    · exact List.ne_nil_of_mem hd
    · have := h.tracked.le_start_of_mem_upFrom h.minEntry_pos hd
      omega
  · intro some
    obtain ⟨d, hd⟩ := List.exists_mem_of_ne_nil _ some
    refine ⟨d, List.takeWhile_subset _ hd, fun s hs => ?_⟩
    exact (FreeList.tracked_append.1 (FreeList.tracked_append.1 tracked).1).2.2 d hd (Entry.ofRange s)
      (List.mem_map_of_mem (f := Entry.ofRange) hs)

/-- Of a batch that is worth an entry each, no byte gets lost. -/
theorem BatchIn.cover_eq (put : p.BatchIn ranges q) (fits : p.BatchFits ranges)
    (worth : ∀ r ∈ ranges, p.config.minEntry ≤ r.high - r.low) (a : Nat) :
    q.entries.cover a = cover (p.entries.ranges ++ ranges) a := by
  have small : ranges.filter (fun r => !p.keeps r.length) = [] := by
    refine List.filter_eq_nil_iff.2 fun r hr => ?_
    rw [show p.keeps r.length = true from decide_eq_true (worth r hr)]
    decide
  have added := cover_batchOf fits a
  rw [small, cover_nil, Nat.add_zero] at added
  rw [put.entries, cover_append, added, withBatch]
  cases p.batchOf ranges with
  | nil => rfl
  | cons first rest =>
    rcases hj : joinBatch (p.entries.below first.start) (first :: rest) (p.entries.upFrom first.start)
      with ⟨entries, pair⟩
    have joined := (joined_of_joinBatch hj).cover_eq (a := a)
    have split := congrArg (FreeList.cover · a) (FreeList.below_append_upFrom first.start p.entries)
    simp only [FreeList.cover_append] at joined split
    simp only [List.head?_cons, Option.elim_some, hj, joined]
    show _ = p.entries.cover a + _
    omega

/-- What a batch does whose ranges are worth an entry each and do not touch. -/
theorem BatchIn.mergedAtOneEnd (put : p.BatchIn ranges q) (h : p.Sound) (spread : p.entries.Spread)
    (fits : p.BatchFits ranges) (worth : ∀ r ∈ ranges, p.config.minEntry ≤ r.high - r.low)
    (apart : ranges.Pairwise fun r s => r.high < s.low) : p.MergedAtOneEnd ranges q := by
  cases ranges with
  | nil =>
    have same : q.entries = p.entries := put.entries
    have pos : ∀ e ∈ p.entries, 0 < e.size := fun e => h.size_pos
    refine ⟨fun a => by rw [same, List.append_nil]; rfl, fun e he f hf touch => ?_, nofun, nofun⟩
    exact absurd touch (spread.top_ne_start pos (same ▸ he) (same ▸ hf))
  | cons r rs =>
    have batch : p.batchOf (r :: rs) = Entry.ofRange r :: rs.map Entry.ofRange := batchOf_eq worth
    have tracked := tracked_batch h fits batch
    have whole := FreeList.below_append_upFrom r.low p.entries
    have precedes := precedes_iff h fits worth
    have entries : q.entries = (joinBatch (p.entries.below r.low) (Entry.ofRange r :: rs.map Entry.ofRange)
        (p.entries.upFrom r.low)).1 := by
      rw [put.entries, batch]
      rfl
    have top : ∀ s ∈ r :: rs, (Entry.ofRange s).top = s.high := fun s hs =>
      Entry.top_ofRange (Nat.le_of_lt (fits.insertable s hs).nonempty)
    have spreadBatch : FreeList.Spread (Entry.ofRange r :: rs.map Entry.ofRange) := by
      refine List.pairwise_map.2 (List.Pairwise.imp_of_mem (fun {s t} hs _ order => ?_) apart)
      rw [top s hs]
      exact order
    obtain ⟨spreadBefore, spreadAfter, -⟩ := List.pairwise_append.1 (whole ▸ spread)
    have last : ∀ t, (r :: rs).getLast? = some t →
        (Entry.ofRange r :: rs.map Entry.ofRange).getLast? = some (Entry.ofRange t) := by
      intro t ht
      rw [← List.map_cons, List.getLast?_map, ht]
      rfl
    change FreeList.Tracked _ (p.entries.below r.low ++ _ ++ p.entries.upFrom r.low) at tracked
    obtain ⟨tl, ta, above⟩ := FreeList.tracked_append.1 tracked
    obtain ⟨tb, -, below⟩ := FreeList.tracked_append.1 tl
    have pos := h.minEntry_pos
    refine ⟨put.cover_eq fits worth, fun e he f hf touch => ?_, ?_, ?_⟩
    · obtain ⟨t, ht⟩ : ∃ t, (r :: rs).getLast? = some t := by simp [List.getLast?_cons]
      rw [entries] at he hf
      obtain ⟨some, end_, behind⟩ := touches_joinBatch tracked pos spreadBefore spreadBatch spreadAfter
        (last t ht) he hf touch
      exact ⟨precedes.2 some, List.dropWhile_subset _ behind, t, ht,
        end_.trans (top t (List.mem_of_getLast? ht))⟩
    · rintro _ ⟨⟩ d hd touch
      have start : d.start < r.low := touch ▸ h.start_lt_top hd
      have inFront : d ∈ p.entries.below r.low := by
        rw [← whole] at hd
        rcases List.mem_append.1 hd with hd | hd
        · exact hd
        · have := h.tracked.le_start_of_mem_upFrom pos hd
          omega
      rw [entries, ← top r List.mem_cons_self]
      exact joinBatch_front tracked pos inFront touch
    · intro t ht f hf touch
      have topT := top t (List.mem_of_getLast? ht)
      have behind : f ∈ p.entries.upFrom r.low := by
        rw [← whole] at hf
        rcases List.mem_append.1 hf with hf | hf
        · have := below f hf _ (List.mem_of_getLast? (last t ht))
          have := h.size_pos (List.takeWhile_subset _ hf)
          unfold Entry.top at *
          omega
        · exact hf
      obtain ⟨merges, stays⟩ := joinBatch_back tracked pos (last t ht) behind (topT.trans touch)
      rw [entries, precedes, ← topT]
      exact ⟨fun none => merges (not_not.1 none), stays⟩

/-- Splicing a batch of ranges that do not touch into the list of a reachable pool no two entries of which touch
merges it at one end. The call can fail only while a realignment is pending, where the estimate of what it
gives up may overflow. -/
theorem add_merges_one_end (h : p.Reachable) (spread : p.entries.Spread) (fits : p.BatchFits ranges)
    (worth : ∀ r ∈ ranges, p.config.minEntry ≤ r.high - r.low)
    (apart : ranges.Pairwise fun r s => r.high < s.low) :
    Ends (fun f => f = .counterOverflow ∧ p.cursor ≠ .done ∧
        wordLimit ≤ p.pendingLoss + (p.freeBytes + totalBytes ranges)) (p.step (.add ranges)) fun s =>
      p.MergedAtOneEnd ranges s.1 := by
  have sound := h.sound.nextStep
  have fits' : p.nextStep.BatchFits ranges :=
    ⟨fun r hr => ⟨(fits.insertable r hr).nonempty, (fits.insertable r hr).inside,
      (fits.insertable r hr).clear⟩, fits.apart, fits.ordered, fits.oneGap⟩
  have batch : p.nextStep.batchOf ranges = ranges.map Entry.ofRange := batchOf_eq worth
  refine (addEntries_putsIn ?_ sound fits').bind fun q put => ?_
  · rw [batch]
    by_cases done : p.cursor = .done
    · exact .inr (.inl done)
    · rcases Nat.lt_or_ge (p.pendingLoss + (p.freeBytes + totalBytes ranges)) wordLimit with room | beyond
      · exact .inr (.inr room)
      · exact .inl ⟨rfl, done, beyond⟩
  · have merged := put.mergedAtOneEnd sound spread fits' worth apart
    exact ⟨merged.covered, merged.touching, merged.front, merged.back⟩

/-- Both ends of the batch touch an entry: the lower one is merged, the upper one is not. -/
theorem add_merges_one_end_between : ∃ p q : Pool, p.entries = [⟨1000, 1000⟩, ⟨4000, 1000⟩] ∧
    p.step (.add [⟨2000, 2600⟩, ⟨3000, 4000⟩]) = .ok (q, .done) ∧
    p.MergedAtOneEnd [⟨2000, 2600⟩, ⟨3000, 4000⟩] q ∧
    q.entries = [⟨1000, 1600⟩, ⟨3000, 1000⟩, ⟨4000, 1000⟩] := by
  obtain ⟨s, done⟩ : ∃ s, s ∈ ((fresh {}).run [.expand 1000 1000 2000 false,
      .expand 1000 4000 5000 false]).toOption := Option.isSome_iff_exists.1 (by decide +kernel)
  obtain ⟨entries, spread, fits, worth, t, added, after⟩ : s.1.entries = [⟨1000, 1000⟩, ⟨4000, 1000⟩] ∧
      s.1.entries.Spread ∧ s.1.BatchFits [⟨2000, 2600⟩, ⟨3000, 4000⟩] ∧
      (∀ r ∈ [(⟨2000, 2600⟩ : Range), ⟨3000, 4000⟩], s.1.config.minEntry ≤ r.high - r.low) ∧
      ∃ t ∈ (s.1.step (.add [⟨2000, 2600⟩, ⟨3000, 4000⟩])).toOption, t.2 = .done ∧
        t.1.entries = [⟨1000, 1600⟩, ⟨3000, 1000⟩, ⟨4000, 1000⟩] := by
    revert s
    decide +kernel
  have made : create {} = .ok (fresh {}) := by decide +kernel
  have reachable := (Reachable.create made).run (by decide +kernel) (mem_toOption.1 done)
  have step := mem_toOption.1 added
  have merged := (add_merges_one_end reachable spread fits worth (by decide)).of_ok step
  obtain ⟨q, answer⟩ := t
  obtain ⟨rfl, after⟩ := after
  exact ⟨s.1, q, entries, step, merged, after⟩

/-- Behind an entry a range that ends where the next one starts is not merged with that. -/
theorem add_leaves_touching_end : ∃ p q : Pool, p.Reachable ∧ p.entries = [⟨1000, 1000⟩, ⟨4000, 1000⟩] ∧
    p.entries.Spread ∧ p.BatchFits [⟨3000, 4000⟩] ∧ p.config.minEntry ≤ 4000 - 3000 ∧
    p.step (.add [⟨3000, 4000⟩]) = .ok (q, .done) ∧
    q.entries = [⟨1000, 1000⟩, ⟨3000, 1000⟩, ⟨4000, 1000⟩] ∧ ¬ q.entries.Spread := by
  obtain ⟨s, done⟩ : ∃ s, s ∈ ((fresh {}).run [.expand 1000 1000 2000 false,
      .expand 1000 4000 5000 false]).toOption := Option.isSome_iff_exists.1 (by decide +kernel)
  obtain ⟨entries, spread, fits, worth, t, added, answer, after⟩ :
      s.1.entries = [⟨1000, 1000⟩, ⟨4000, 1000⟩] ∧ s.1.entries.Spread ∧ s.1.BatchFits [⟨3000, 4000⟩] ∧
      s.1.config.minEntry ≤ 4000 - 3000 ∧ ∃ t ∈ (s.1.step (.add [⟨3000, 4000⟩])).toOption, t.2 = .done ∧
        t.1.entries = [⟨1000, 1000⟩, ⟨3000, 1000⟩, ⟨4000, 1000⟩] ∧ ¬ t.1.entries.Spread := by
    revert s
    decide +kernel
  have made : create {} = .ok (fresh {}) := by decide +kernel
  have reachable := (Reachable.create made).run (by decide +kernel) (mem_toOption.1 done)
  have step := mem_toOption.1 added
  obtain ⟨q, rfl⟩ : ∃ q, t = (q, .done) := ⟨t.1, Prod.ext rfl answer⟩
  exact ⟨s.1, q, reachable, entries, spread, fits, worth, step, after⟩

end Pool

end FreeStore
