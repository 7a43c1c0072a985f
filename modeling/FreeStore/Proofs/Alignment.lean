import FreeStore.Proofs.Estimate
/-!
Blocks come out of waiting entries aligned, as long as the estimate lasts.

After a request for realignment every entry is aligned, or lies ahead of the cursor (`Ready`). Ahead of the
cursor an entry is realigned when a search reaches it, but only while some of the estimate is left; so
nothing is taken off it unaligned if the estimate covers the loss of all that lies ahead (`Covered`).
Requests keep this up (`keeps_carries`). Insertions need not: one at or above the cursor adds an entry ahead
and nothing to the estimate. `first_blocks_aligned` is about the runs in which they do (`Counted`), and
`waiting_entry_taken_unaligned` is one in which the estimate runs out.
-/
namespace FreeStore

variable {a card minimum : Nat} {e f g : Entry}

/-! ## Aligned entries -/

/-- What realignment leaves of an entry is its own core. -/
theorem Entry.core_of_realigned (hc : 0 < card) (h : e.realigned card minimum = some f) :
    Card.core f.start f.size card = f.range := by
  unfold realigned at h
  dsimp only at h
  split at h
  · rename_i whole
    cases h
    exact whole
  · split at h
    · cases h
    · rename_i wide
      cases h
      have room : (Card.core e.start e.size card).low ≤ (Card.core e.start e.size card).high := by
        simp only [Card.tooSmall, Bool.or_eq_true, decide_eq_true_eq] at wide
        omega
      rw [range_ofRange room]
      exact Card.core_of_onCards hc Card.onCards_core room

namespace Pool

variable {p q r : Pool} {before after pieces ws : FreeList} {block : Range} {moves : List (Move × Pool)}
  {m : Move}

theorem Sound.cardSize_pos (h : p.Sound) : 0 < p.config.cardSize := (PoolConfig.validate_eq_ok.1 h.config).1

/-- Realigning twice is no more than realigning once. -/
theorem realigned_of_realigned (h : p.Sound) (some : p.realigned e = some g) :
    p.realigned g = .some g := by
  rw [realigned, Entry.realigned]
  exact if_pos (Entry.core_of_realigned h.cardSize_pos some)

theorem dvd_start_of_realigned (h : p.Sound) (some : p.realigned e = some g) :
    p.config.cardSize ∣ g.start := by
  have core := Entry.core_of_realigned h.cardSize_pos some
  have low : roundUp g.start p.config.cardSize = g.start := congrArg Range.low core
  exact low ▸ dvd_roundUp

theorem Sound.realigned_within (h : p.Sound) (he : e ∈ p.entries) (some : p.realigned e = some g) :
    e.start ≤ g.start ∧ g.top ≤ e.top ∧ p.config.minEntry ≤ g.size :=
  Pool.realigned_within h.config (h.tracked.large e he) g (by simp [some])

/-- An entry loses nothing exactly if realignment leaves it as it is. -/
theorem lossAt_eq_zero_iff (h : p.Sound) (large : p.config.minEntry ≤ e.size) :
    p.lossAt e = 0 ↔ p.realigned e = some e := by
  have sum := lossAt_add_bytes h.config large
  have pos := h.minEntry_pos
  cases found : p.realigned e with
  | none =>
    rw [found] at sum
    simp only [Option.toList_none, FreeList.bytes_nil] at sum
    simp only [reduceCtorEq, iff_false]
    omega
  | some g =>
    have within := Pool.realigned_within h.config large g (by simp [found])
    rw [found] at sum
    simp only [Option.toList_some, FreeList.bytes_cons, FreeList.bytes_nil] at sum
    simp only [Entry.top] at within
    rw [Option.some_inj]
    constructor
    · intro none
      have start : g.start = e.start := by omega
      have size : g.size = e.size := by omega
      cases e
      cases g
      simp_all
    · rintro rfl
      omega

theorem lossAt_of_realigned (h : p.Sound) (large : p.config.minEntry ≤ g.size)
    (some : p.realigned e = some g) : p.lossAt g = 0 :=
  (lossAt_eq_zero_iff h large).2 (realigned_of_realigned h some)

/-- Two entries of a sound pool share no address. -/
theorem Sound.eq_of_contains (h : p.Sound) (he : e ∈ p.entries) (hf : f ∈ p.entries)
    (inE : e.range.contains a = true) (inF : f.range.contains a = true) : e = f :=
  h.tracked.eq_of_meet he hf (Range.contains_iff.1 inE) (Range.contains_iff.1 inF)

/-! ## Entries that will come out aligned -/

/-- The estimate covers the loss of the entries ahead, and none of the others reaches across the cursor. -/
structure Covered (p : Pool) : Prop where
  estimate : p.lossOf p.ahead ≤ p.pendingLoss
  clear : p.Clear

instance : ∀ p, Decidable (Covered p) := fun p =>
  have : Decidable p.Clear := inferInstanceAs (Decidable (∀ first ∈ p.cursor.first?,
    ∀ e ∈ p.entries, e.start < first → e.top ≤ first))
  decidable_of_iff (p.lossOf p.ahead ≤ p.pendingLoss ∧ p.Clear)
    ⟨fun ⟨h, g⟩ => ⟨h, g⟩, fun ⟨h, g⟩ => ⟨h, g⟩⟩

/-- The entry is aligned, or it lies ahead and its loss is provided for. -/
def Ready (p : Pool) (f : Entry) : Prop := p.lossAt f = 0 ∨ f ∈ p.ahead ∧ p.Covered

theorem lossAt_congr (h : q.config = p.config) : q.lossAt = p.lossAt := by
  unfold lossAt
  rw [h]

theorem realigned_congr (h : q.config = p.config) : q.realigned = p.realigned := by
  unfold realigned
  rw [h]

theorem lossAt_le_lossOf {l : FreeList} (h : f ∈ l) : p.lossAt f ≤ p.lossOf l := by
  obtain ⟨before, after, rfl⟩ := List.append_of_mem h
  have whole : p.lossOf (before ++ f :: after) = p.lossOf before + (p.lossAt f + p.lossOf after) :=
    lossOf_append
  omega

theorem mem_ahead : f ∈ p.ahead ↔ f ∈ p.entries ∧ ∃ first ∈ p.cursor.first?, first ≤ f.start := by
  unfold ahead
  cases p.cursor.first? <;> simp

/-- With nothing left of the estimate, only aligned entries are ready. -/
theorem Ready.lossless (h : p.Ready f) (none : p.pendingLoss = 0) : p.lossAt f = 0 := by
  rcases h with lossless | ⟨ahead, covered⟩
  · exact lossless
  · have := covered.estimate
    have := lossAt_le_lossOf (p := p) ahead
    omega

/-- An entry that is ready and does not wait is aligned. -/
theorem Ready.lossless_of_settled (h : p.Ready f) (settled : p.awaits f.start = false) :
    p.lossAt f = 0 := by
  rcases Nat.eq_zero_or_pos p.pendingLoss with none | some
  · exact h.lossless none
  · rcases h with lossless | ⟨ahead, -⟩
    · exact lossless
    · obtain ⟨-, first, found, reached⟩ := mem_ahead.1 ahead
      have := below_of_settled some settled first found
      omega

theorem Ready.idle (h : p.Ready f) (same : p.Steady q) (entries : q.entries = p.entries) :
    q.Ready f := by
  unfold Ready
  rw [lossAt_congr same.config, same.ahead_eq entries]
  refine h.imp_right fun ⟨ahead, covered⟩ => ⟨ahead, ?_, covered.clear.idle same entries⟩
  rw [same.ahead_eq entries, lossOf_congr same.config, same.estimate]
  exact covered.estimate

/-- Cutting an entry that does not wait leaves the others ready. -/
theorem Ready.cut (h : p.Ready f) (hq : q.Sound) (same : p.Steady q)
    (settled : p.awaits e.start = false) (hp : p.entries = before ++ e :: after)
    (hw : FreeList.Within e pieces) (entries : q.entries = before ++ pieces ++ after) : q.Ready f := by
  unfold Ready
  rw [lossAt_congr same.config]
  rcases Nat.eq_zero_or_pos p.pendingLoss with none | some
  · exact .inl (h.lossless none)
  · refine h.imp_right fun ⟨ahead, covered⟩ => ?_
    obtain ⟨clear, eq⟩ := covered.clear.cut hq same (below_of_settled some settled) hp hw entries
    refine ⟨eq ▸ ahead, ?_, clear⟩
    rw [eq, lossOf_congr same.config, same.estimate]
    exact covered.estimate

/-- Realignment pays for no more than what it passes. -/
theorem Covered.aligned (h : p.Covered) (hs : p.Sound) (hq : q.Sound) (config : q.config = p.config)
    (hp : p.entries = before ++ e :: after) (advances : p.Advances before e after q) : q.Covered := by
  have ahead := advances.ahead_eq hq
  refine ⟨?_, advances.clear hq⟩
  obtain ⟨first, cursor, reached, pays, -⟩ := advances
  have estimate := h.estimate
  rw [ahead_of_reached hs hp cursor reached, lossOf_append] at estimate
  rw [ahead, lossOf_congr config, pays.estimate]
  omega

/-! ## What requests carry along -/

/-- Every entry of `q` was one of `p`, and ready if it was, or is what realignment left of one. -/
structure Carries (p q : Pool) : Prop where
  config : q.config = p.config
  entries : ∀ g ∈ q.entries, (g ∈ p.entries ∧ (p.Ready g → q.Ready g)) ∨
    ∃ f ∈ p.entries, p.realigned f = some g ∧ p.realigned g = some g

theorem Carries.trans (h : Carries p q) (k : Carries q r) : Carries p r := by
  refine ⟨k.config.trans h.config, fun g hg => ?_⟩
  have realigned := realigned_congr h.config
  rcases k.entries g hg with ⟨hg, ready⟩ | ⟨f, hf, left, again⟩
  · exact (h.entries g hg).imp_left fun ⟨hg, ready'⟩ => ⟨hg, ready ∘ ready'⟩
  · rw [realigned] at left again
    rcases h.entries f hf with ⟨hf, -⟩ | ⟨d, hd, left', again'⟩
    · exact .inr ⟨f, hf, left, again⟩
    · -- what realignment left once it leaves again
      obtain rfl := Option.some_inj.1 (again'.symm.trans left)
      exact .inr ⟨d, hd, left', again'⟩

/-- Only the entries behind are left to wait, and they stay provided for. -/
theorem carries_aligned (hs : p.Sound) (hq : q.Sound) (config : q.config = p.config)
    (hp : p.entries = before ++ e :: after) (advances : p.Advances before e after q) : Carries p q := by
  have covered := fun h : p.Covered => h.aligned hs hq config hp advances
  have ahead := advances.ahead_eq hq
  obtain ⟨first, cursor, -, -, entries⟩ := advances
  refine ⟨config, fun g hg => ?_⟩
  have leaves : ∀ f ∈ p.entries, p.realigned f = some g →
      ∃ f ∈ p.entries, p.realigned f = some g ∧ p.realigned g = some g :=
    fun f hf left => ⟨f, hf, left, realigned_of_realigned hs left⟩
  rw [entries, alignedFrom] at hg
  rcases List.mem_append.1 hg with hg | behind
  · rcases List.mem_append.1 hg with hg | reached
    · rcases List.mem_append.1 hg with settled | due
      · refine .inl ⟨by simp [hp, List.takeWhile_subset _ settled], fun ready => ?_⟩
        rcases ready with lossless | ⟨reached, -⟩
        · exact .inl (by rwa [lossAt_congr config])
        · obtain ⟨-, first', found, reached⟩ := mem_ahead.1 reached
          obtain rfl := Option.some_inj.1 (found.symm.trans cursor)
          have := FreeList.start_lt_of_mem_below settled
          omega
      · obtain ⟨f, hf, left⟩ := List.mem_filterMap.1 due
        exact .inr (leaves f (by simp [hp, List.dropWhile_subset _ hf]) left)
    · exact .inr (leaves e (by simp [hp]) (Option.mem_toList.1 reached))
  · refine .inl ⟨by simp [hp, behind], fun ready => ?_⟩
    rcases ready with lossless | ⟨-, provided⟩
    · exact .inl (by rwa [lossAt_congr config])
    · exact .inr ⟨ahead ▸ behind, covered provided⟩

theorem keeps_carries : Keeps Carries where
  trans := Carries.trans
  idle same entries :=
    ⟨same.config, fun _ hg => .inl ⟨entries ▸ hg, fun ready => ready.idle same entries⟩⟩
  aligned hs hq config hp _ advances := carries_aligned hs hq config hp advances
  dropped {p q e rest} _ hq same settled hp entries := by
    have front : p.entries = [] ++ e :: rest := hp
    have whole : q.entries = [] ++ [] ++ rest := entries
    refine ⟨same.config, fun g hg => .inl ⟨by simp [hp, entries ▸ hg], fun ready => ?_⟩⟩
    exact ready.cut hq same settled front FreeList.within_nil whole

/-- Every entry lies in one that was there before. -/
theorem Carries.shrinks (h : Carries p q) (hs : p.Sound) : FreeList.Shrinks p.entries q.entries := by
  intro g hg
  rcases h.entries g hg with ⟨hg, -⟩ | ⟨f, hf, left, -⟩
  · exact ⟨g, hg, Nat.le_refl _, Nat.le_refl _⟩
  · obtain ⟨low, high, -⟩ := hs.realigned_within hf left
    exact ⟨f, hf, low, high⟩

theorem Carries.ready (h : Carries p q) (hq : q.Sound) (ready : p.Ready g) (hg : g ∈ q.entries) :
    q.Ready g := by
  rcases h.entries g hg with ⟨-, keeps⟩ | ⟨f, -, -, again⟩
  · exact keeps ready
  · rw [← realigned_congr h.config] at again
    exact .inl (lossAt_of_realigned hq (hq.tracked.large g hg) again)

/-- What realignment left of an entry is aligned. -/
theorem ready_of_realigned (config : q.config = p.config) (hq : q.Sound) (left : p.realigned f = some g)
    (hg : g ∈ q.entries) : q.Ready g := by
  rw [← realigned_congr config] at left
  exact .inl (lossAt_of_realigned hq (hq.tracked.large g hg) left)

/-! ## The block handed out -/

/-- The first block that is taken off an entry that was ready is the front of what realignment left of it. -/
theorem Hands.realigned (h : Hands Carries p block q) (hs : p.Sound) (hf : f ∈ p.entries)
    (ready : p.Ready f) (inside : f.range.contains block.low = true) :
    ∃ g, p.realigned f = some g ∧ block.low = g.start ∧ block.high ≤ g.top := by
  obtain ⟨-, mid, before, e, after, carries, sound, -, hp, settled, low, high, -⟩ := h
  have he : e ∈ mid.entries := by simp [hp]
  refine ⟨e, ?_, low, high⟩
  have pos := sound.size_pos he
  rw [low] at inside
  have large := sound.tracked.large e he
  rw [carries.config] at large
  rcases carries.entries e he with ⟨old, keeps⟩ | ⟨d, hd, left, -⟩
  · have front : e.range.contains e.start = true := by
      simp only [Range.contains_iff, Entry.range, Entry.top]
      omega
    obtain rfl := hs.eq_of_contains old hf front inside
    have lossless := (keeps ready).lossless_of_settled settled
    rw [lossAt_congr carries.config] at lossless
    exact (lossAt_eq_zero_iff hs large).1 lossless
  · obtain ⟨lower, upper, -⟩ := hs.realigned_within hd left
    have front : d.range.contains e.start = true := by
      simp only [Range.contains_iff, Entry.range, Entry.top] at upper ⊢
      omega
    obtain rfl := hs.eq_of_contains hd hf front inside
    exact left

/-- The other entries stay ready. -/
theorem Hands.ready (h : Hands Carries p block q) (hs : p.Sound) (hf : f ∈ p.entries)
    (ready : p.Ready f) (outside : f.range.contains block.low = false) (kept : f ∈ q.entries) :
    q.Ready f := by
  obtain ⟨hq, mid, before, e, after, carries, sound, same, hp, settled, low, high, entries⟩ := h
  have he : e ∈ mid.entries := by simp [hp]
  have fits : block.high - block.low ≤ e.size := by
    simp only [Entry.top] at high
    omega
  have within : FreeList.Within e (e.remainder (block.high - block.low) mid.config.minEntry) :=
    Entry.remainder_within fits
  have others : f ∈ mid.entries := by
    rw [entries, List.append_assoc] at kept
    rw [hp]
    rcases List.mem_append.1 kept with kept | kept
    · exact List.mem_append_left _ kept
    · rcases List.mem_append.1 kept with rest | kept
      · -- the rest of `e` lies in the entry that the block came from
        obtain ⟨d, hd, lower, upper⟩ := carries.shrinks hs e he
        have inner := within f rest
        have pos := hs.size_pos hf
        have size := sound.size_pos he
        have ownStart : f.range.contains f.start = true := by
          simp only [Range.contains_iff, Entry.range, Entry.top]
          omega
        have inD : d.range.contains f.start = true := by
          simp only [Range.contains_iff, Entry.range, Entry.top] at inner upper ⊢
          omega
        have blockInD : d.range.contains block.low = true := by
          simp only [Range.contains_iff, Entry.range, Entry.top] at upper ⊢
          omega
        obtain rfl := hs.eq_of_contains hd hf inD ownStart
        rw [blockInD] at outside
        cases outside
      · exact List.mem_append_right _ (List.mem_cons_of_mem _ kept)
  exact (carries.ready sound ready others).cut hq same settled hp within entries

/-! ## Histories -/

/-- What is left on the list of the given entries after some of them were realigned. -/
def survivors (p q : Pool) (ws : FreeList) : FreeList :=
  ws.filterMap fun f => if f ∈ q.entries then some f else (p.realigned f).filter (· ∈ q.entries)

/-- The entries that nothing was taken off yet, after the move from `p` to `q`. An entry that was put in
joins them if it lies ahead, and one that was merged with something no longer counts. -/
def nextUntouched (p : Pool) (m : Move) (q : Pool) (ws : FreeList) : FreeList :=
  match m with
  | .hand block => p.survivors q (ws.filter fun f => f.range.contains block.low = false)
  | .insert _ => ws.filter (· ∈ q.entries) ++ q.ahead.filter (· ∉ p.entries)
  | .miss _ | .owner => p.survivors q ws

/-- If a block is handed out of one of the entries, it is the front of what realignment left of that entry,
and starts on a card. -/
def TakesAligned (p : Pool) (ws : FreeList) : Move → Prop
  | .hand block => ∀ f ∈ ws, f.range.contains block.low = true →
    p.config.cardSize ∣ block.low ∧ ∃ g, p.realigned f = some g ∧ block.low = g.start ∧ block.high ≤ g.top
  | _ => True

/-- The first block out of each of the entries `ws`, and of each that joins them, is taken after the entry
was realigned. -/
def FirstBlocksAligned : Pool → FreeList → List (Move × Pool) → Prop
  | _, _, [] => True
  | p, ws, (m, q) :: moves =>
    p.TakesAligned ws m ∧ FirstBlocksAligned q (p.nextUntouched m q ws) moves

/-- After the delivery the estimate covers the loss of what lies ahead; or nothing is left of it, and only
aligned entries were put in there. -/
def Counted (p : Pool) (d : Delivery) : Prop :=
  ∀ q ∈ (p.deliver d).toOption,
    q.Covered ∨ q.pendingLoss = 0 ∧ ∀ f ∈ q.ahead, f ∉ p.entries → q.lossAt f = 0

instance : ∀ p d, Decidable (Counted p d) := fun p d =>
  inferInstanceAs (Decidable (∀ q ∈ (p.deliver d).toOption,
    q.Covered ∨ q.pendingLoss = 0 ∧ ∀ f ∈ q.ahead, f ∉ p.entries → q.lossAt f = 0))

/-- The entries are on the list, and ready. -/
def AllReady (p : Pool) (ws : FreeList) : Prop := ∀ f ∈ ws, f ∈ p.entries ∧ p.Ready f

theorem allReady_survivors (hq : q.Sound) (config : q.config = p.config)
    (kept : ∀ f ∈ ws, f ∈ q.entries → q.Ready f) : q.AllReady (p.survivors q ws) := by
  intro g hg
  obtain ⟨f, hf, found⟩ := List.mem_filterMap.1 hg
  split at found
  · rename_i stays
    obtain rfl := Option.some_inj.1 found
    exact ⟨stays, kept f hf stays⟩
  · obtain ⟨left, stays⟩ := Option.mem_filter_iff.1 found
    have stays := of_decide_eq_true stays
    exact ⟨stays, ready_of_realigned config hq left stays⟩

/-- Insertions that are counted leave entries ready, and those that they put in ahead are. -/
theorem allReady_inserted {d : Delivery} (l : Leads (.insert d) p q) (hs : p.Sound)
    (counted : Counted p d) (ready : p.AllReady ws) : q.AllReady (p.nextUntouched (.insert d) q ws) := by
  have delivered := l.delivered hs
  have counted := counted q (mem_toOption.2 (by cases l; assumption))
  have config := delivered.effect.config
  intro f hf
  rcases List.mem_append.1 hf with hf | hf
  · obtain ⟨old, stays⟩ := List.mem_filter.1 hf
    have stays := of_decide_eq_true stays
    refine ⟨stays, ?_⟩
    unfold Ready
    rw [lossAt_congr config]
    obtain ⟨-, ready⟩ := ready f old
    rcases counted with covered | ⟨none, -⟩
    · refine ready.imp_right fun ⟨ahead, _⟩ => ⟨?_, covered⟩
      obtain ⟨-, first, found, reached⟩ := mem_ahead.1 ahead
      -- the cursor only moves down
      rcases delivered.cursor with same | ⟨first', found', old, found'', lower⟩
      · exact mem_ahead.2 ⟨stays, first, same ▸ found, reached⟩
      · obtain rfl := Option.some_inj.1 (found.symm.trans found'')
        exact mem_ahead.2 ⟨stays, first', found', by omega⟩
    · have drained : p.pendingLoss = 0 := by
        have := delivered.estimate
        omega
      exact .inl (ready.lossless drained)
  · obtain ⟨ahead, new⟩ := List.mem_filter.1 hf
    have new := of_decide_eq_true new
    refine ⟨(mem_ahead.1 ahead).1, ?_⟩
    rcases counted with covered | ⟨-, lossless⟩
    · exact .inr ⟨ahead, covered⟩
    · exact .inl (lossless f ahead new)

/-- A move that is counted takes blocks off ready entries aligned, and leaves the others ready. -/
theorem Leads.takesAligned (l : Leads m p q) (hs : p.Sound) (counted : ∀ d, m = .insert d → Counted p d)
    (ready : p.AllReady ws) :
    q.Sound ∧ p.TakesAligned ws m ∧ q.AllReady (p.nextUntouched m q ws) := by
  have carried : ∀ q, q.Sound → Carries p q → q.AllReady (p.survivors q ws) :=
    fun q hq carries => allReady_survivors hq carries.config fun f hf => carries.ready hq (ready f hf).2
  cases m with
  | hand block =>
    have hands := l.hands keeps_carries hs
    have config : q.config = p.config := by
      obtain ⟨-, mid, _, _, _, carries, -, same, -⟩ := hands
      exact same.config.trans carries.config
    refine ⟨hands.sound, fun f hf inside => ?_, allReady_survivors hands.sound config fun f hf => ?_⟩
    · obtain ⟨g, left, low, high⟩ := hands.realigned hs (ready f hf).1 (ready f hf).2 inside
      exact ⟨low ▸ dvd_start_of_realigned hs left, g, left, low, high⟩
    · obtain ⟨hf, outside⟩ := List.mem_filter.1 hf
      exact hands.ready hs (ready f hf).1 (ready f hf).2 (of_decide_eq_true outside)
  | miss object =>
    obtain ⟨sound, carries, -⟩ := l.misses keeps_carries hs
    exact ⟨sound, trivial, carried q sound carries⟩
  | insert d => exact ⟨(l.delivered hs).sound, trivial, allReady_inserted l hs (counted d rfl) ready⟩
  | owner =>
    obtain ⟨sound, same, entries⟩ := l.owned hs
    exact ⟨sound, trivial, carried q sound (keeps_carries.idle same entries)⟩

/-- Along a history whose insertions are counted the first block out of every ready entry is aligned. -/
theorem History.firstBlocksAligned (h : History Counted p moves q) (hs : p.Sound)
    (ready : p.AllReady ws) : FirstBlocksAligned p ws moves := by
  induction h generalizing ws with
  | nil => trivial
  | cons first counted _ ih =>
    obtain ⟨sound, aligned, ready⟩ := first.takesAligned hs counted ready
    exact ⟨aligned, ih sound ready⟩

/-! ## Runs -/

/-- Right after the request every entry is ready. -/
theorem ready_requested {cursor : CardCursor} (h : p.Sound)
    (starts : 0 < p.lossOf p.entries → cursor.first? = p.entries.firstStart) (hf : f ∈ p.entries) :
    Ready { p with pendingLoss := p.lossOf p.entries, cursor } f := by
  have exact := exact_requested h starts
  rcases Nat.eq_zero_or_pos (p.lossOf p.entries) with none | some
  · have lossless : p.lossAt f ≤ p.lossOf p.entries := lossAt_le_lossOf hf
    exact .inl (Nat.le_zero.1 (none ▸ lossless))
  · refine .inr ⟨?_, Nat.le_of_eq (exact.estimate some).symm, exact.clear some⟩
    rw [ahead_requested h starts some]
    exact hf

/-- After realignment was asked for, and as long as insertions are counted, the first block out of each
entry that was on the list, or was put in at or above the cursor and merged with nothing since, is taken
after the entry was realigned, so it starts on a card. Where blocks are carved on a sweep grid that the
entries fit, or on none, a run ends early only if a running count overflows. -/
theorem first_blocks_aligned (h : p.Reachable) :
    ∃ q loss, p.step .requestCardAlignment = .ok (q, .loss loss) ∧
      ∀ os, (∀ o ∈ os, o.supplies = true) →
        Throughout (fun p o => p.Accepts o ∧ p.Inserts Counted o) q os →
        Ends (fun f => Throughout AcceptsOnGrid q os → f = .counterOverflow) (q.run os) fun r =>
          ∃ moves, History Counted q moves r.1 ∧ blocks moves = r.2.flatMap Answer.handed ∧
            FirstBlocksAligned q q.entries moves := by
  have sound := h.sound.nextStep
  obtain ⟨cursor, done, starts⟩ := requestCardAlignment_eq sound
  have soundQ := ((requestCardAlignment_ends (F := fun _ => True) sound).of_ok done).1
  refine ⟨_, p.nextStep.lossOf p.nextStep.entries, by rw [step, perform, done]; rfl, ?_⟩
  intro os supplies accepts
  cases ran : run _ os with
  | error f =>
    intro grid
    exact run_fault_of_supplies soundQ supplies (accepts.imp fun _ _ _ h => h.1) grid ran
  | ok r =>
    obtain ⟨moves, history, handed, -⟩ := run_history supplies accepts ran
    exact ⟨moves, history, handed, history.firstBlocksAligned soundQ fun f hf =>
      ⟨hf, ready_requested sound starts hf⟩⟩

/-- Two entries on the list at the request, and one put in below the cursor after it: the first block out of
each starts on a card, the second one out of the inserted entry does not have to. -/
theorem first_blocks_aligned_of_three : ∃ (p q : Pool) (moves : List (Move × Pool)) (r : Pool),
    p.entries = [⟨5000, 1000⟩, ⟨10000, 3000⟩] ∧ p.step .requestCardAlignment = .ok (q, .loss 928) ∧
    History Counted q moves r ∧
    blocks moves = [⟨1024, 1624⟩, ⟨10240, 11240⟩, ⟨1624, 2560⟩, ⟨5120, 5632⟩] ∧
    FirstBlocksAligned q q.entries moves := by
  obtain ⟨s, done⟩ : ∃ s, s ∈ ((fresh {}).run [.expand 1000 5000 6000 false,
      .expand 3000 10000 13000 false]).toOption :=
    Option.isSome_iff_exists.1 (by decide +kernel)
  have made : create {} = .ok (fresh {}) := by decide +kernel
  have reachable := (Reachable.create made).run (by decide +kernel) (mem_toOption.1 done)
  obtain ⟨q, loss, asked, aligned⟩ := first_blocks_aligned reachable
  let later : List Operation := [.expand 2000 1000 3000 false, .allocate .mutator { bytes := 600 },
    .allocate .collector { bytes := 1000 }, .allocateTlh .mutator {} 512,
    .allocate .mutator { bytes := 512 }]
  have facts : ∀ s ∈ ((fresh {}).run [.expand 1000 5000 6000 false,
      .expand 3000 10000 13000 false]).toOption,
      s.1.entries = [⟨5000, 1000⟩, ⟨10000, 3000⟩] ∧
      ∀ t ∈ (s.1.step .requestCardAlignment).toOption, t.2 = .loss 928 ∧
        Throughout (fun p o => p.Accepts o ∧ p.Inserts Counted o) t.1 later ∧
        (t.1.run later).toOption.map (fun r => r.2.flatMap Answer.handed) =
          some [⟨1024, 1624⟩, ⟨10240, 11240⟩, ⟨1624, 2560⟩, ⟨5120, 5632⟩] := by
    decide +kernel
  obtain ⟨entries, facts⟩ := facts s done
  obtain ⟨rest, accepted, answers⟩ := facts _ (mem_toOption.2 asked)
  obtain rfl : loss = 928 := by simpa using rest
  obtain ⟨r, ran, handed⟩ := Option.map_eq_some_iff.1 answers
  obtain ⟨moves, history, taken, firsts⟩ :=
    (aligned later (by decide) accepted).of_ok (mem_toOption.1 ran)
  exact ⟨s.1, q, moves, r.1, entries, asked, history, taken.trans handed, firsts⟩

/-- The entry at 5000 is on the list at the request, and still there when the entry at 3000, which was put
in above the cursor, has used up the estimate. Then a block is taken off it unaligned. -/
theorem waiting_entry_taken_unaligned : ∃ (p q mid r : Pool) (answers : List Answer),
    p.Reachable ∧ p.step .requestCardAlignment = .ok (q, .loss 976) ∧
    Throughout Accepts q [.expand 1000 3000 4000 false, .allocate .mutator { bytes := 512 },
      .allocate .mutator { bytes := 512 }, .allocate .mutator { bytes := 512 }] ∧
    q.run [.expand 1000 3000 4000 false, .allocate .mutator { bytes := 512 },
      .allocate .mutator { bytes := 512 }] = .ok (mid, answers) ∧
    (⟨5000, 1000⟩ ∈ q.entries ∧ ⟨5000, 1000⟩ ∈ mid.entries) ∧
    mid.run [.allocate .mutator { bytes := 512 }] = .ok (r, [.object { bytes := 512 } (some 5000)]) ∧
    ¬ q.config.cardSize ∣ 5000 := by
  let first : List Operation := [.expand 1000 1000 2000 false, .expand 1000 5000 6000 false]
  let two : List Operation := [.expand 1000 3000 4000 false, .allocate .mutator { bytes := 512 },
    .allocate .mutator { bytes := 512 }]
  let last : Operation := .allocate .mutator { bytes := 512 }
  have runs : Throughout Accepts (fresh {}) first ∧ ∃ s ∈ ((fresh {}).run first).toOption,
      ∃ t ∈ (s.1.step .requestCardAlignment).toOption, t.2 = .loss 976 ∧
        Throughout Accepts t.1 (two ++ [last]) ∧ ¬ t.1.config.cardSize ∣ 5000 ∧
        ∃ u ∈ (t.1.run two).toOption,
          (⟨5000, 1000⟩ ∈ t.1.entries ∧ ⟨5000, 1000⟩ ∈ u.1.entries) ∧
          ∃ v ∈ (u.1.run [last]).toOption, v.2 = [.object { bytes := 512 } (some 5000)] := by
    decide +kernel
  obtain ⟨accepts, s, done, t, asked, loss, accepts', uneven, u, ran, waiting, v, got, block⟩ := runs
  have made : create {} = .ok (fresh {}) := by decide +kernel
  have reachable := (Reachable.create made).run accepts (mem_toOption.1 done)
  rw [mem_toOption] at asked ran got
  exact ⟨s.1, t.1, u.1, v.1, u.2, reachable, loss ▸ asked, accepts', ran, waiting, block ▸ got, uneven⟩

end Pool

end FreeStore
