import FreeStore.Pool.FirstFit
import FreeStore.Proofs.Extraction
/-!
First fit keeps a pool sound.

A search knows the sizes of the entries in front of it: they have at most `passed` bytes, be it that it
stepped over them or that it started at a hint (`search_ends`). So the hint that it leaves behind is right,
and taking an object off the found entry is a cut like any other (`takeFront_ends`).
-/
namespace FreeStore

/-- What is left of an entry when `taken` bytes are taken off its front: nothing, if the rest is too small
for an entry. -/
def Entry.remainder (e : Entry) (taken minimum : Nat) : FreeList :=
  if minimum ≤ e.size - taken then [⟨e.start + taken, e.size - taken⟩] else []

theorem Entry.remainder_within {e : Entry} {taken minimum : Nat} (h : taken ≤ e.size) :
    FreeList.Within e (e.remainder taken minimum) := by
  intro f hf
  unfold remainder at hf
  split at hf
  · obtain rfl := List.mem_singleton.1 hf
    simp only [top]
    omega
  · cases hf

theorem Entry.tracked_remainder {e : Entry} {taken minimum : Nat} (h : taken ≤ e.size)
    (ht : e.top < wordLimit) : FreeList.Tracked minimum (e.remainder taken minimum) := by
  unfold remainder
  split
  · rename_i large
    refine FreeList.Tracked.singleton large ?_
    simp only [top] at ht ⊢
    omega
  · exact FreeList.tracked_nil

/-- What was taken and what is left fill the entry. -/
theorem Entry.hits_front {e : Entry} {taken : Nat} (h : taken ≤ e.size) (a : Nat) :
    e.range.hits a =
      Range.hits ⟨e.start, e.start + taken⟩ a + Range.hits ⟨e.start + taken, e.top⟩ a := by
  refine Range.hits_split (Nat.le_add_right _ _) ?_
  unfold top
  omega

namespace Pool

variable {α : Type} {F : Fault → Prop} {R : α → Prop} {p : Pool} {size : Nat} {record hinted : Bool}
  {w : Walk} {e : Entry} {l before after : FreeList}

/-! ## The search -/

/-- A search ends at an entry that is large enough, with entries of at most `passed` bytes in front. It takes one
step for an entry at most, and what it loses on the way is all that is counted. -/
theorem search_ends (hF : F .counterOverflow ∨ p.stats.darkMatterBytes + p.freeBytes < wordLimit) (h : p.Sound)
    (hp : p.entries = before ++ l) (hw : ∀ f ∈ before, f.size ≤ w.passed) :
    Ends F (search size l p w) fun r => r.1.Sound ∧ Effect p r.1 [] [] ∧
      (p.Spends r.1 ∧ r.2.1.steps ≤ w.steps + l.length) ∧
      ∀ e ∈ r.2.2, ∃ before' after, r.1.entries = before' ++ e :: after ∧ size ≤ e.size ∧
        ∀ f ∈ before', f.size ≤ r.2.1.passed := by
  induction l generalizing p w before with
  | nil => exact ⟨h, .refl p, ⟨.refl p, Nat.le_refl _⟩, by simp⟩
  | cons d rest ih =>
    rw [search]
    refine ((reach_ends hF h hp).and (reach_spends h hp)).bind ?_
    rintro ⟨q, found⟩ ⟨⟨sound, effect, -, -, before', shrinks, entries⟩, spent⟩
    have passed := shrinks.size_le hw
    have room : F .counterOverflow ∨ q.stats.darkMatterBytes + q.freeBytes < wordLimit :=
      hF.imp_right (Nat.lt_of_le_of_lt spent.dark)
    have step : w.steps + 1 + rest.length = w.steps + (d :: rest).length := by
      rw [List.length_cons]
      omega
    cases found with
    | none =>
      simp only [Option.toList_none, List.append_nil] at entries
      refine (ih room sound entries fun f hf => ?_).mono ?_
      · exact Nat.le_trans (passed f hf) (Nat.le_max_left _ _)
      · rintro r ⟨sound', effect', ⟨spent', few⟩, rest⟩
        exact ⟨sound', effect.trans effect', ⟨spent.trans spent', step ▸ few⟩, rest⟩
    | some e =>
      simp only [Option.toList_some] at entries
      dsimp only
      split
      · rename_i fits
        refine ⟨sound, effect, ⟨spent, Nat.le_add_right _ _⟩, ?_⟩
        rintro _ ⟨⟩
        exact ⟨before', rest, by simpa using entries, fits, passed⟩
      · refine (ih room sound entries fun f hf => ?_).mono ?_
        · show f.size ≤ max w.passed e.size
          rcases List.mem_append.1 hf with hf | hf
          · exact Nat.le_trans (passed f hf) (Nat.le_max_left _ _)
          · rw [List.mem_singleton.1 hf]
            exact Nat.le_max_right _ _
        · rintro r ⟨sound', effect', ⟨spent', few⟩, rest⟩
          exact ⟨sound', effect.trans effect', ⟨spent.trans spent', step ▸ few⟩, rest⟩

/-- Looking for a hint changes no more than the hints; the one that is found is right. -/
theorem findHint_of_sound (h : p.Sound) (size : Nat) :
    (p.findHint size).1.Sound ∧ Effect p (p.findHint size).1 [] [] ∧
      (p.findHint size).1.entries = p.entries ∧
      ∀ hint ∈ (p.findHint size).2, hint.size < size ∧ p.entries.Bounds hint.entry hint.size := by
  unfold findHint
  refine ⟨⟨h.config, h.grid, h.gap, h.strays, h.tracked, h.bytes, h.count, h.census, h.hints.find _⟩,
    ⟨rfl, rfl, rfl, fun _ => .rfl⟩, rfl, fun hint hf => ?_⟩
  obtain ⟨hf, -⟩ := Option.mem_filter_iff.1 hf
  obtain ⟨active, smaller⟩ := HintCache.mem_of_find hf
  exact ⟨smaller, h.hints hint active⟩

/-- From wherever a search starts, it takes no more steps than there are free bytes. -/
theorem firstFit_ends (hF : F .counterOverflow ∨ p.stats.darkMatterBytes + p.freeBytes < wordLimit)
    (h : p.Sound) :
    Ends F (p.firstFit size) fun r => r.1.Sound ∧ Effect p r.1 [] [] ∧
      (p.Spends r.1 ∧ r.2.1.steps ≤ p.freeBytes) ∧
      ∀ e ∈ r.2.2.1, ∃ before after, r.1.entries = before ++ e :: after ∧ size ≤ e.size ∧
        ∀ f ∈ before, f.size ≤ r.2.1.passed := by
  obtain ⟨sound, effect, entries, bounds⟩ := findHint_of_sound h size
  have spent : p.Spends (p.findHint size).1 := .of_eq rfl rfl rfl rfl rfl
  have room : F .counterOverflow ∨ (p.findHint size).1.stats.darkMatterBytes +
      (p.findHint size).1.freeBytes < wordLimit := hF
  have short : p.entries.length ≤ p.freeBytes := h.count ▸ h.entryCount_le
  unfold firstFit
  generalize p.findHint size = found at *
  obtain ⟨q, hint⟩ := found
  simp only at *
  cases hint with
  | none =>
    refine (search_ends room sound (List.nil_append _).symm (by simp)).bind ?_
    rintro ⟨r, w, found⟩ ⟨sound', effect', ⟨spent', few⟩, rest⟩
    have few : w.steps ≤ q.entries.length := by simpa using few
    exact ⟨sound', effect.trans effect', ⟨spent.trans spent', Nat.le_trans (entries ▸ few) short⟩, rest⟩
  | some hint =>
    have split := FreeList.below_append_upFrom hint.entry q.entries
    refine (search_ends room sound split.symm fun f hf => ?_).bind ?_
    · have lower := FreeList.start_lt_of_mem_below hf
      exact (bounds hint rfl).2.2 f (entries ▸ List.takeWhile_subset _ hf) lower
    · rintro ⟨r, w, found⟩ ⟨sound', effect', ⟨spent', few⟩, rest⟩
      have part : (q.entries.upFrom hint.entry).length ≤ q.entries.length :=
        (List.dropWhile_sublist _).length_le
      have few : w.steps ≤ q.entries.length := Nat.le_trans (by simpa using few) part
      exact ⟨sound', effect.trans effect', ⟨spent.trans spent', Nat.le_trans (entries ▸ few) short⟩, rest⟩

/-! ## Taking the object -/

theorem countObject_bind {k : Pool → Outcome α}
    (hF : F .counterOverflow ∨ (record = true → p.large.objects.RoomFor size))
    (w : ∀ objects, Ends F (k { p with large := { p.large with objects } }) R) :
    Ends F (p.countObject size record >>= k) R := by
  unfold countObject
  cases record with
  | true =>
    simp only [if_true, LargeObjectStats.recordObject, bind_assoc]
    exact Histogram.increment_bind (hF.imp_right fun room => room rfl) fun objects => w objects
  | false => exact w p.large.objects

/-- The hint that a walk leaves behind is right. -/
theorem holds_leaveHint (h : p.Sound) (hp : p.entries = before ++ e :: after)
    (hw : ∀ f ∈ before, f.size ≤ w.passed) :
    (w.leaveHint p.config hinted before.lastStart p.hints).Holds (before ++ e :: after) := by
  have hints := hp ▸ h.hints
  unfold Walk.leaveHint FreeList.lastStart
  cases hl : before.getLast? with
  | none => exact hints
  | some d =>
    have hd : d ∈ before := List.mem_of_getLast? hl
    simp only [Option.map_some]
    split
    · refine hints.add ⟨⟨d, by simp [hd], rfl⟩, fun f hf lower => ?_⟩
      rcases List.mem_append.1 hf with hf | hf
      · exact hw f hf
      · have apart := (FreeList.tracked_append.1 (hp ▸ h.tracked)).2.2 d hd f hf
        unfold Entry.top at apart
        omega
    · exact hints

/-- The remainder of an entry takes its place, or is reported. -/
theorem keepRest_bind {k : Pool → Outcome α} {taken : Nat}
    (hF : F .counterOverflow ∨ (e.size - taken < p.config.minEntry →
      p.stats.discardedBytes + (e.size - taken) < wordLimit))
    (ht : FreeList.Tracked p.config.minEntry (before ++ e :: after)) (hm : 0 < p.config.minEntry)
    (hc : p.large.freeEntries.Counts (before ++ after)) (hh : p.hints.Holds (before ++ e :: after))
    (fits : taken ≤ e.size) (hb : e.size - taken ≤ p.freeBytes) (hn : 0 < p.entryCount)
    (w : ∀ (g : Histogram) freeBytes entryCount hints cursor stats events,
      g.Counts (e.remainder taken p.config.minEntry ++ (before ++ after)) →
      freeBytes + (e.size - taken) = p.freeBytes + (e.remainder taken p.config.minEntry).bytes →
      entryCount + 1 = p.entryCount + (e.remainder taken p.config.minEntry).length →
      HintCache.Holds hints (before ++ e.remainder taken p.config.minEntry ++ after) →
      (∀ a, Balances p.isRecorded
        (cover (PoolEvent.dropped p.events) a + Range.hits ⟨e.start + taken, e.top⟩ a)
        (cover (PoolEvent.dropped events) a + (e.remainder taken p.config.minEntry).cover a)) →
      Ends F (k { p with
        entries := before ++ e.remainder taken p.config.minEntry ++ after
        freeBytes, entryCount, hints, cursor, stats, events
        large := { p.large with freeEntries := g } }) R) :
    Ends F (p.keepRest before e taken after >>= k) R := by
  obtain ⟨⟨-, top⟩, -, -⟩ := FreeList.tracked_cons.1 (FreeList.tracked_append.1 ht).2.1
  have within : FreeList.Within e (e.remainder taken p.config.minEntry) := Entry.remainder_within fits
  have few := ht.length_others_le_bytes hm
  have bytes := ht.bytes_lt (a := 0) (by decide) (by simp)
  rw [FreeList.bytes_append] at few
  rw [FreeList.bytes_append, FreeList.bytes_cons] at bytes
  unfold keepRest
  simp only [keeps, decide_eq_true_eq]
  split
  · rename_i large
    have left : e.remainder taken p.config.minEntry = [⟨e.start + taken, e.size - taken⟩] := if_pos large
    rw [left] at w within
    have hints := hh.update hm ht within
    simp only [List.append_assoc, List.singleton_append] at w hints
    have filled : e.start + taken + (e.size - taken) = e.top := by
      unfold Entry.top
      omega
    have reported : ∀ a, FreeList.cover [⟨e.start + taken, e.size - taken⟩] a =
        Range.hits ⟨e.start + taken, e.top⟩ a := by
      intro a
      simp only [FreeList.cover_cons, FreeList.cover_nil, Entry.range, Entry.top, filled, Nat.add_zero]
    refine countFree_bind (e := ⟨e.start + taken, e.size - taken⟩) hc (Nat.lt_of_lt_of_le hm large)
      (by omega) (by rw [FreeList.bytes_append]; dsimp only; omega) fun g hg => ?_
    dsimp only [relinkCursor]
    exact w g p.freeBytes p.entryCount _ _ p.stats p.events hg (by simp) rfl hints
      fun a => by rw [reported]; exact .rfl
  · rename_i small
    have left : e.remainder taken p.config.minEntry = [] := if_neg small
    rw [left] at w within
    have hints := HintCache.Holds.remove within hh
    simp only [List.append_nil] at w hints
    rw [bind_assoc]
    refine debit_bind hb hn ?_
    rw [bind_assoc]
    refine countDiscarded_bind (hF.imp_right fun room => room (Nat.lt_of_not_le small)) ?_
    dsimp only [relinkCursor, abandon]
    rw [pure_bind]
    refine w p.large.freeEntries _ _ _ _ _ _ hc ?_ ?_ hints fun _ => balances_logDrop ..
    · simp only [FreeList.bytes_nil]
      omega
    · simp only [List.length_nil]
      omega

/-- The pool once `taken` bytes are off the front of an entry and the remainder has taken its place. -/
theorem sound_front {taken freeBytes entryCount : Nat} {hints : HintCache} {cursor : CardCursor}
    {stats : PoolStats} {large : LargeObjectStats} {events : List PoolEvent} (h : p.Sound)
    (hp : p.entries = before ++ e :: after) (fits : taken ≤ e.size)
    (hg : large.freeEntries.Counts (e.remainder taken p.config.minEntry ++ (before ++ after)))
    (hb : freeBytes + (e.size - taken) =
      p.freeBytes - taken + (e.remainder taken p.config.minEntry).bytes)
    (hn : entryCount + 1 = p.entryCount + (e.remainder taken p.config.minEntry).length)
    (hh : hints.Holds (before ++ e.remainder taken p.config.minEntry ++ after))
    (hr : ∀ a, Balances p.isRecorded
      (cover (PoolEvent.dropped p.events) a + Range.hits ⟨e.start + taken, e.top⟩ a)
      (cover (PoolEvent.dropped events) a + (e.remainder taken p.config.minEntry).cover a)) :
    let q : Pool := { p with
      entries := before ++ e.remainder taken p.config.minEntry ++ after
      freeBytes, entryCount, hints, cursor, stats, large, events }
    q.Sound ∧ Effect p q [] [⟨e.start, e.start + taken⟩] := by
  have he : e ∈ p.entries := by simp [hp]
  have bytes := h.size_le he
  refine sound_cut h hp.symm (Entry.tracked_remainder fits (h.tracked.inside e he))
    (Entry.remainder_within fits) (by omega) hn hg hh fun a => (hr a).shift ?_
  have front := Entry.hits_front fits a
  simp only [cover_cons, cover_nil]
  omega

/-- The entries below and beyond an entry of the list. -/
theorem split_at_entry (h : p.Sound) (hp : p.entries = before ++ e :: after) :
    p.entries.below e.start = before ∧ p.entries.beyond e.start = after := by
  obtain ⟨tb, te, cross⟩ := FreeList.tracked_append.1 (hp ▸ h.tracked)
  have hm := h.minEntry_pos
  have lower : ∀ f ∈ before, f.start < e.start := by
    intro f hf
    have apart := cross f hf e List.mem_cons_self
    have := tb.large f hf
    unfold Entry.top at apart
    omega
  have upper : ∀ f ∈ after, e.start < f.start := fun f hf => te.start_lt hm hf
  constructor
  · rw [hp]
    refine FreeList.below_append lower fun f hf => ?_
    rcases List.mem_cons.1 hf with rfl | hf
    · exact Nat.le_refl _
    · exact Nat.le_of_lt (upper f hf)
  · rw [hp, List.append_cons]
    refine FreeList.beyond_append (fun f hf => ?_) upper
    rcases List.mem_append.1 hf with hf | hf
    · exact Nat.le_of_lt (lower f hf)
    · rw [List.mem_singleton.1 hf]

/-- Taking an object off the front of an entry leaves the remainder in its place. -/
theorem takeFront_ends (hF : F .counterOverflow ∨ p.RoomToServe p.large.objects e size w.steps record)
    (h : p.Sound) (hp : p.entries = before ++ e :: after)
    (hw : ∀ f ∈ before, f.size ≤ w.passed) (fits : size ≤ e.size) :
    Ends F (p.takeFront e size w hinted record) fun q => q.Sound ∧
      Effect p q [] [⟨e.start, e.start + size⟩] ∧
      q.entries = before ++ e.remainder size p.config.minEntry ++ after := by
  have he : e ∈ p.entries := by simp [hp]
  obtain ⟨pos, word⟩ := h.size_bounds he
  have top := h.tracked.inside e he
  have bytes := h.size_le he
  obtain ⟨hbelow, hbeyond⟩ := split_at_entry h hp
  have hints : HintCache.Holds (w.leaveHint p.config hinted _ _) _ := holds_leaveHint h hp hw
  unfold takeFront
  simp only [checkedTop_bind top, hbelow, hbeyond]
  refine uncountFree_bind (h.census.perm (hp ▸ List.perm_middle)) pos word fun g hg => ?_
  refine debit_bind (by exact Nat.le_trans fits bytes) (Nat.zero_le _)
    (countAllocation_bind (hF.imp_right fun room => ⟨room.count, room.bytes, room.search⟩) ?_)
  dsimp only
  refine keepRest_bind (by exact hF.imp_right fun room => room.rest) (by exact hp ▸ h.tracked)
    (by exact h.minEntry_pos) hg hints fits ?_ ?_ ?_
  · show e.size - size ≤ p.freeBytes - size
    omega
  · show 0 < p.entryCount - 0
    exact h.entryCount_pos he
  intro g freeBytes entryCount hints cursor stats events hg hb hn hh hr
  dsimp only at hb hn hh hr ⊢
  refine countObject_bind (by exact hF.imp_right fun room => room.recorded) fun objects => ?_
  exact ends_settle_and (sound_front h hp fits hg hb hn hh hr) rfl

/-- An object is placed, or nothing but realignment and a request for a refill happened. -/
theorem place_ends (hF : F .counterOverflow ∨ p.HasRoom 0 0) (h : p.Sound) :
    Ends F (p.place size record) fun r => r.1.Sound ∧
      Effect p r.1 [] (r.2.2.elim [] fun a => [⟨a, a + size⟩]) ∧ (r.2.2 = none → p.Spends r.1) := by
  unfold place
  refine (firstFit_ends (hF.imp_right HasRoom.dark) h).bind ?_
  rintro ⟨q, w, found, hinted⟩ ⟨sound, effect, ⟨spent, few⟩, enough⟩
  cases found with
  | none => exact ⟨sound, effect, fun _ => spent⟩
  | some e =>
    obtain ⟨before, after, entries, fits, passed⟩ := enough e rfl
    dsimp only at entries
    have he : e ∈ q.entries := by simp [entries]
    refine (takeFront_ends (hF.imp_right fun room => ?_) sound entries passed fits).bind ?_
    · exact room.toServe spent sound he fits few (.inl rfl)
    · rintro r ⟨sound', effect', -⟩
      exact ⟨sound', effect.trans effect', by simp⟩

end Pool

end FreeStore
