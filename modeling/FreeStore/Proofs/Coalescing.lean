import Mathlib.Algebra.Group.Nat.Defs
import Mathlib.Data.List.Pairwise
import Mathlib.Data.List.Sort
import FreeStore.Proofs.Runs
/-!
Coalescing has a normal form.

Two insertions merge a range with the entries it touches: `expand`, if asked to, and `recycle`. If no two
entries touch beforehand, none touch afterwards (`Splice.spread`), so the entries are again the maximal
intervals of the free addresses (`intervalsOf_of_spread`). A set of addresses has one such list only
(`IntervalsOf.unique`). What a row of coalescing insertions leads to is therefore told by the set of the
bytes alone, and neither their order nor the choice of the operation shows in it (`coalescing_canonical`).
-/
namespace FreeStore

variable {a low high : Nat} {r s : Range} {rs : List Range}

/-- Two ranges with nothing in common lie one behind the other, unless one is empty. -/
theorem Range.le_of_apart (h : r.Apart s) (hr : r.low < r.high) (hs : s.low < s.high) :
    r.high ≤ s.low ∨ s.high ≤ r.low := by
  by_contra overlap
  apply h (max r.low s.low)
  simp only [Range.contains_iff]
  omega

theorem cover_perm {ss : List Range} (h : rs.Perm ss) : cover rs a = cover ss a := by
  induction h with
  | nil => rfl
  | cons r _ ih => rw [cover_cons, cover_cons, ih]
  | swap r s l =>
    simp only [cover_cons]
    omega
  | trans _ _ ih ih' => exact ih.trans ih'

namespace FreeList

/-- No two entries touch. -/
def Spread (l : FreeList) : Prop := l.Pairwise fun e f => e.top < f.start

instance {l : FreeList} : Decidable l.Spread := inferInstanceAs (Decidable (List.Pairwise _ _))

/-- The entry is an interval of `s`, and no longer one has it in it. -/
structure IsMaximal (s : Nat → Prop) (e : Entry) : Prop where
  nonempty : e.start < e.top
  filled : ∀ a, e.start ≤ a → a < e.top → s a
  above : ¬ s e.top
  below : ∀ a, a + 1 = e.start → ¬ s a

/-- The maximal intervals of `s`, in address order. -/
structure IntervalsOf (s : Nat → Prop) (l : FreeList) : Prop where
  ordered : l.Pairwise fun e f => e.start < f.start
  maximal : ∀ e, e ∈ l ↔ IsMaximal s e

variable {m : Nat} {e f : Entry} {l k before after : FreeList} {lower upper : Option Entry}

theorem IntervalsOf.unique {s : Nat → Prop} (h : IntervalsOf s l) (g : IntervalsOf s k) : l = k := by
  have asymm : Std.Antisymm fun e f : Entry => e.start < f.start := ⟨fun _ _ _ _ => by omega⟩
  have irrefl : Std.Irrefl fun e f : Entry => e.start < f.start := ⟨fun _ => Nat.lt_irrefl _⟩
  apply List.Pairwise.eq_of_mem_iff h.ordered g.ordered
  intro e
  rw [h.maximal, g.maximal]

theorem mem_ranges_contains : (∃ r ∈ l.ranges, r.contains a) ↔ ∃ e ∈ l, e.start ≤ a ∧ a < e.top := by
  simp only [ranges, List.mem_map, exists_exists_and_eq_and, Range.contains_iff, Entry.range]

/-- Of two entries on a spread list that are not the same, one ends below the other. -/
theorem Spread.eq_or_lt (h : Spread l) (he : e ∈ l) (hf : f ∈ l) :
    e = f ∨ e.top < f.start ∨ f.top < e.start := by
  by_cases same : e = f
  · exact .inl same
  · have symm : Std.Symm fun e f : Entry => e.top < f.start ∨ f.top < e.start := ⟨fun _ _ => Or.symm⟩
    have either : l.Pairwise fun e f => e.top < f.start ∨ f.top < e.start := h.imp fun apart => .inl apart
    exact .inr (either.forall he hf same)

/-- Entries that do not touch are the maximal intervals of what they hold. -/
theorem Spread.isMaximal (h : Spread l) (pos : ∀ e ∈ l, e.start < e.top) (he : e ∈ l) :
    IsMaximal (fun a => ∃ f ∈ l, f.start ≤ a ∧ a < f.top) e := by
  constructor
  · exact pos e he
  · intro a from_start to_top
    exact ⟨e, he, from_start, to_top⟩
  · rintro ⟨f, hf, from_start, to_top⟩
    rcases h.eq_or_lt he hf with rfl | apart | apart
    · omega
    · omega
    · have := pos e he
      omega
  · rintro a last ⟨f, hf, from_start, to_top⟩
    rcases h.eq_or_lt he hf with rfl | apart | apart
    · omega
    · have := pos e he
      omega
    · omega

theorem intervalsOf_of_spread (h : Spread l) (pos : ∀ e ∈ l, e.start < e.top) :
    IntervalsOf (fun a => ∃ f ∈ l, f.start ≤ a ∧ a < f.top) l := by
  constructor
  · apply List.Pairwise.imp_of_mem _ h
    intro e f he _ apart
    have := pos e he
    omega
  · intro e
    constructor
    · exact h.isMaximal pos
    · intro maximal
      -- the entry at the first address is an interval too, so both end where the other does
      obtain ⟨f, hf, from_start, to_top⟩ :=
        maximal.filled e.start (Nat.le_refl _) maximal.nonempty
      have other := h.isMaximal pos hf
      have start : f.start = e.start := by
        by_contra lower
        exact maximal.below (e.start - 1) (by omega) ⟨f, hf, by omega, by omega⟩
      have top : f.top = e.top := by
        have := other.nonempty
        have := maximal.nonempty
        rcases Nat.lt_trichotomy f.top e.top with shorter | same | longer
        · exact absurd (maximal.filled f.top (by omega) shorter) other.above
        · exact same
        · exact absurd ⟨f, hf, by omega, longer⟩ maximal.above
      have : f = e := by
        cases e
        cases f
        simp only [Entry.top, Entry.mk.injEq] at *
        omega
      exact this ▸ hf

/-! ## Keeping entries apart -/

/-- An entry that touches `a` from below is the last one up to there. -/
theorem top_ne_of_touchingBelow (hm : 0 < m) (t : Tracked m (before ++ lower.toList))
    (ends : ∀ e ∈ before ++ lower.toList, e.top ≤ a)
    (found : lower = Pool.touchingBelow (before ++ lower.toList) a) : ∀ e ∈ before, e.top ≠ a := by
  intro e he touches
  obtain ⟨tb, tl, front⟩ := tracked_append.1 t
  cases lower with
  | some d =>
    have apart := front e he d (by simp)
    have size := tl.large d (by simp)
    have top := ends d (by simp)
    simp only [Entry.top] at *
    omega
  | none =>
    simp only [Option.toList_none, List.append_nil] at found ends
    obtain ⟨rest, last, rfl⟩ := (List.eq_nil_or_concat' before).resolve_left (List.ne_nil_of_mem he)
    have top : last.top ≠ a := by
      rintro rfl
      simp [Pool.touchingBelow, Option.filter] at found
    rcases List.mem_append.1 he with he | he
    · have apart := (tracked_append.1 tb).2.2 e he last (by simp)
      have size := tb.large last (by simp)
      have := ends last (by simp)
      simp only [Entry.top] at *
      omega
    · rw [List.mem_singleton.1 he] at touches
      exact top touches

/-- An entry that touches `a` from above is the first one from there on. -/
theorem start_ne_of_touchingAbove (hm : 0 < m) (t : Tracked m (upper.toList ++ after))
    (starts : ∀ e ∈ upper.toList ++ after, a ≤ e.start)
    (found : upper = Pool.touchingAbove (upper.toList ++ after) a) : ∀ e ∈ after, e.start ≠ a := by
  intro e he touches
  cases upper with
  | some d =>
    have lt := t.start_lt hm (f := e) he
    have := starts d (by simp)
    omega
  | none =>
    simp only [Option.toList_none, List.nil_append] at found starts t
    cases after with
    | nil => cases he
    | cons d rest =>
      have start : d.start ≠ a := by
        rintro rfl
        simp [Pool.touchingAbove, Option.filter] at found
      rcases List.mem_cons.1 he with rfl | he
      · exact start touches
      · have lt := t.start_lt hm he
        have := starts d (by simp)
        omega

/-- Once all entries that the range touches are merged with it, no two touch. -/
theorem Splice.spread (s : Splice m low high before lower upper after)
    (h : Spread (before ++ lower.toList ++ (upper.toList ++ after)))
    (apartBelow : ∀ e ∈ before, e.top ≠ low) (apartAbove : ∀ e ∈ after, e.start ≠ high) :
    Spread (before ++ merged low high lower upper :: after) := by
  obtain ⟨spreadFront, spreadBack, across⟩ := List.pairwise_append.1 h
  obtain ⟨spreadBefore, -, toLower⟩ := List.pairwise_append.1 spreadFront
  obtain ⟨-, spreadAfter, fromUpper⟩ := List.pairwise_append.1 spreadBack
  have front : ∀ e ∈ before, e.top < (merged low high lower upper).start := by
    intro e he
    cases lower with
    | none => exact Nat.lt_of_le_of_ne (s.apartBefore e he) (apartBelow e he)
    | some d => exact toLower e he d (by simp)
  have back : ∀ f ∈ after, (merged low high lower upper).top < f.start := by
    intro f hf
    rw [s.top_eq]
    cases upper with
    | none => exact Nat.lt_of_le_of_ne (s.apartAfter f hf) (apartAbove f hf).symm
    | some d => exact fromUpper d (by simp) f hf
  apply List.pairwise_append.2
  refine ⟨spreadBefore, List.pairwise_cons.2 ⟨back, spreadAfter⟩, ?_⟩
  intro e he f hf
  rcases List.mem_cons.1 hf with rfl | hf
  · exact front e he
  · exact across e (List.mem_append_left _ he) f (List.mem_append_right _ hf)

end FreeList

namespace Pool

variable {F : Fault → Prop} {p q : Pool} {o : Operation} {os : List Operation}

/-- The operation inserts `r`, and merges it with the entries that it touches. -/
inductive Coalesces (r : Range) : Operation → Prop
  | expand : Coalesces r (.expand (r.high - r.low) r.low r.high true)
  | recycle : Coalesces r (.recycle r.low r.high)

/-- Each of the ranges is large enough for an entry, and ends inside the address space. -/
def Worth (p : Pool) (rs : List Range) : Prop :=
  ∀ r ∈ rs, p.config.minEntry ≤ r.high - r.low ∧ r.high < wordLimit

instance : Decidable (p.Worth rs) := inferInstanceAs (Decidable (∀ r ∈ rs, _))

theorem Sound.start_lt_top {e : Entry} (h : p.Sound) (he : e ∈ p.entries) : e.start < e.top :=
  Nat.lt_add_of_pos_right (h.size_pos he)

theorem insertable_of_apart (h : p.Sound) (worth : p.Worth (r :: rs))
    (apart : ∀ a, cover (p.entries.ranges ++ r :: rs) a ≤ 1) : p.Insertable r.low r.high := by
  obtain ⟨large, inside⟩ := worth r List.mem_cons_self
  have nonempty : r.low < r.high := by
    have := h.minEntry_pos
    omega
  refine ⟨nonempty, inside, fun e he => ?_⟩
  have pairwise := List.pairwise_append.1 (pairwise_of_cover_le_one apart)
  have disjoint : e.range.Apart r :=
    pairwise.2.2 e.range (List.mem_map_of_mem he) r List.mem_cons_self
  exact Range.le_of_apart disjoint (h.start_lt_top he) nonempty

/-- What a coalescing insertion leads to holds the bytes of before and those of the range, and no two
entries touch. -/
theorem PutIn.canonical (put : p.PutIn low high true q) (h : p.Sound) (hi : p.Insertable low high)
    (spread : p.entries.Spread) : q.entries.Spread ∧
      ∀ a, q.entries.cover a = p.entries.cover a + Range.hits ⟨low, high⟩ a := by
  obtain ⟨before, lower, upper, after, spliced, -, found, found'⟩ := put.spliced
  rw [if_pos rfl, spliced.front] at found
  rw [if_pos rfl, spliced.back] at found'
  obtain ⟨ends, starts⟩ := apart_of_insertable h hi
  rw [spliced.front] at ends
  rw [spliced.back] at starts
  have tracked := FreeList.tracked_append.1 (spliced.whole ▸ h.tracked)
  rw [spliced.entries]
  constructor
  · apply spliced.place.spread (spliced.whole ▸ spread)
    · exact FreeList.top_ne_of_touchingBelow h.minEntry_pos tracked.1 ends found
    · exact FreeList.start_ne_of_touchingAbove h.minEntry_pos tracked.2.1 starts found'
  · intro a
    rw [spliced.place.cover_merged, spliced.whole]

/-- A coalescing insertion of a range that is worth an entry puts it in. -/
theorem Coalesces.putsIn (c : Coalesces r o)
    (hF : F .counterOverflow ∨ p.RoomToNote r.low r.high true) (h : p.Sound)
    (hi : p.Insertable r.low r.high) (large : p.config.minEntry ≤ r.high - r.low) :
    Ends F (p.perform o) fun s => p.PutIn r.low r.high true s.1 := by
  have kept : p.keeps (r.high - r.low) = true := by simpa [keeps] using large
  cases c with
  | expand =>
    apply (expand_putsIn hF h hi kept).bind
    exact fun q put => put
  | recycle =>
    apply (recycle_putsIn hF h hi (by simp [kept])).bind
    rintro ⟨q, onList⟩ ⟨put, -⟩
    exact put

/-- Coalescing insertions one after the other: they end, the books and the gaps between the entries stay,
and every byte of the ranges is free afterwards. -/
theorem run_coalesces (h : p.Sound) (spread : p.entries.Spread) (worth : p.Worth rs)
    (apart : ∀ a, cover (p.entries.ranges ++ rs) a ≤ 1) (inserts : List.Forall₂ Coalesces rs os)
    (hF : F .counterOverflow ∨ p.cursor = .done ∨
      p.pendingLoss + rs.length * (p.freeBytes + totalBytes rs) < wordLimit) :
    Ends F (p.run os) fun s => s.1.Sound ∧ s.1.entries.Spread ∧
      s.1.freeBytes = p.freeBytes + totalBytes rs ∧
      ∀ a, s.1.entries.cover a = cover (p.entries.ranges ++ rs) a := by
  induction inserts generalizing p with
  | nil =>
    refine ⟨h, spread, rfl, fun a => ?_⟩
    rw [List.append_nil]
    rfl
  | @cons r o rs os first _ ih =>
    have sound := h.nextStep
    have hi : p.nextStep.Insertable r.low r.high := insertable_of_apart sound worth apart
    have large : p.nextStep.config.minEntry ≤ r.high - r.low := (worth r List.mem_cons_self).1
    rw [List.length_cons, Nat.succ_mul, totalBytes_cons] at hF
    have room : F .counterOverflow ∨ p.nextStep.RoomToNote r.low r.high true := by
      refine hF.imp_right fun fits => roomToNote_of_fits sound hi (fits.imp_right fun fits => ?_)
      show p.pendingLoss + (p.freeBytes + _) < _
      omega
    rw [run]
    apply (first.putsIn room sound hi large).bind
    rintro ⟨q, answer⟩ put
    obtain ⟨spread', covered⟩ := put.canonical sound hi spread
    have total : ∀ a, cover (q.entries.ranges ++ rs) a = cover (p.entries.ranges ++ r :: rs) a := by
      intro a
      have one : cover q.entries.ranges a = cover p.entries.ranges a + r.hits a := covered a
      rw [cover_append, cover_append, cover_cons, one, Nat.add_assoc]
    have bytes : q.freeBytes = p.freeBytes + (r.high - r.low) := put.bytes
    have estimate : q.pendingLoss ≤ p.pendingLoss + q.freeBytes := put.estimate_le
    have worth' : q.Worth rs := by
      have config : q.config = p.config := put.effect.config
      unfold Worth
      rw [config]
      exact fun s hs => worth s (List.mem_cons_of_mem _ hs)
    have room' : F .counterOverflow ∨ q.cursor = .done ∨
        q.pendingLoss + rs.length * (q.freeBytes + totalBytes rs) < wordLimit := by
      refine hF.imp_right (Or.imp put.cursor.eq_done fun fits => ?_)
      rw [bytes, Nat.add_assoc]
      omega
    apply (ih put.sound spread' worth' (fun a => total a ▸ apart a) room').bind
    rintro ⟨t, answers⟩ ⟨sound', spread'', bytes', covered'⟩
    refine ⟨sound', spread'', ?_, fun a => (covered' a).trans (total a)⟩
    show t.freeBytes = _
    rw [bytes', bytes, totalBytes_cons, Nat.add_assoc]

/-- The set of the bytes says what the list of a pool is whose entries do not touch. -/
theorem intervalsOf_entries (h : p.Sound) (spread : p.entries.Spread)
    (covered : ∀ a, p.entries.cover a = cover rs a) :
    FreeList.IntervalsOf (fun a => ∃ r ∈ rs, r.contains a) p.entries := by
  have same : (fun a => ∃ r ∈ rs, r.contains a) = fun a => ∃ e ∈ p.entries, e.start ≤ a ∧ a < e.top := by
    funext a
    rw [← FreeList.mem_ranges_contains, ← cover_pos, ← cover_pos, ← covered a]
    rfl
  rw [same]
  exact FreeList.intervalsOf_of_spread spread fun e => h.start_lt_top

/-- From a reachable pool no two entries of which touch, coalescing insertions of disjoint ranges lead to one
and the same list, whatever their order and whichever operation inserts each of them: the maximal intervals of
all the bytes. They can end early only while a realignment is pending, where the estimate of what it gives up
may overflow. -/
theorem coalescing_canonical (h : p.Reachable) (spread : p.entries.Spread) (worth : p.Worth rs)
    (apart : (p.entries.ranges ++ rs).Pairwise Range.Apart) :
    ∃ l, (∀ k, FreeList.IntervalsOf (fun a => ∃ r ∈ p.entries.ranges ++ rs, r.contains a) k ↔ k = l) ∧
      ∀ rs' os, rs'.Perm rs → List.Forall₂ Coalesces rs' os →
        Ends (fun f => f = .counterOverflow ∧ p.cursor ≠ .done ∧
            wordLimit ≤ p.pendingLoss + rs.length * l.bytes) (p.run os) fun s =>
          s.1.ranges = .ok l.ranges ∧ s.1.freeBytes = l.bytes ∧ s.1.entryCount = l.length := by
  have once : ∀ a, cover (p.entries.ranges ++ rs) a ≤ 1 := fun a => cover_le_one_of_pairwise apart
  -- with nothing pending no insertion can fail, so there is a list to compare with
  let idle : Pool := { p with cursor := .done }
  have sound : idle.Sound :=
    have ⟨config, grid, gap, strays, tracked, bytes, count, census, hints⟩ := h.sound
    ⟨config, grid, gap, strays, tracked, bytes, count, census, hints⟩
  have inserts : List.Forall₂ Coalesces rs (rs.map fun r => .recycle r.low r.high) :=
    List.forall₂_map_right_iff.2 (List.forall₂_same.2 fun r _ => .recycle)
  obtain ⟨⟨q, answers⟩, -, soundQ, spreadQ, bytesQ, coveredQ⟩ :=
    (run_coalesces (F := fun _ => False) sound spread worth once inserts (.inr (.inl rfl))).exists_ok
      fun _ _ => id
  have intervals := intervalsOf_entries soundQ spreadQ coveredQ
  have total : q.entries.bytes = p.freeBytes + totalBytes rs := soundQ.bytes.symm.trans bytesQ
  refine ⟨q.entries, fun k => ⟨fun other => other.unique intervals, fun same => same ▸ intervals⟩, ?_⟩
  intro rs' os perm inserts
  have samePerm : ∀ a, cover (p.entries.ranges ++ rs') a = cover (p.entries.ranges ++ rs) a :=
    fun a => cover_perm (perm.append_left _)
  have sameTotal : totalBytes rs' = totalBytes rs := FreeList.bytes_perm (perm.map _)
  apply (run_coalesces h.sound spread (fun r hr => worth r (perm.subset hr))
    (fun a => samePerm a ▸ once a) inserts _).mono
  · rintro ⟨t, answers⟩ ⟨soundT, spreadT, -, coveredT⟩
    have same : t.entries = q.entries :=
      (intervalsOf_entries soundT spreadT fun a => (coveredT a).trans (samePerm a)).unique intervals
    exact ⟨same ▸ ranges_eq soundT, same ▸ soundT.bytes, same ▸ soundT.count⟩
  · rw [sameTotal, perm.length_eq, ← total]
    by_cases done : p.cursor = .done
    · exact .inr (.inl done)
    · rcases Nat.lt_or_ge (p.pendingLoss + rs.length * q.entries.bytes) wordLimit with fits | beyond
      · exact .inr (.inr fits)
      · exact .inl ⟨rfl, done, beyond⟩

/-- Three ranges, two of which close the gap below an entry, leave two entries in any order. -/
theorem coalescing_of_three : ∃ p : Pool, p.entries = [⟨2000, 1000⟩] ∧
    ∀ rs' os, rs'.Perm [⟨4000, 5000⟩, ⟨0, 1000⟩, ⟨1000, 2000⟩] → List.Forall₂ Coalesces rs' os →
      ∃ s, p.run os = .ok s ∧ s.1.ranges = .ok [⟨0, 3000⟩, ⟨4000, 5000⟩] ∧ s.1.freeBytes = 4000 ∧
        s.1.entryCount = 2 := by
  obtain ⟨s, done⟩ : ∃ s, s ∈ ((fresh {}).run [.expand 1000 2000 3000 false]).toOption :=
    Option.isSome_iff_exists.1 (by decide +kernel)
  let rs : List Range := [⟨4000, 5000⟩, ⟨0, 1000⟩, ⟨1000, 2000⟩]
  let os : List Operation := [.recycle 4000 5000, .expand 1000 0 1000 true, .recycle 1000 2000]
  obtain ⟨entries, spread, worth, apart, cursor, one⟩ : s.1.entries = [⟨2000, 1000⟩] ∧
      s.1.entries.Spread ∧ s.1.Worth rs ∧
      (s.1.entries.ranges ++ rs).Pairwise (fun r s => r.high ≤ s.low ∨ s.high ≤ r.low) ∧
      s.1.cursor = .done ∧ (s.1.run os).toOption.map (fun t => (t.1.ranges, t.1.freeBytes, t.1.entryCount))
        = some (.ok [⟨0, 3000⟩, ⟨4000, 5000⟩], 4000, 2) := by
    revert s
    decide +kernel
  obtain ⟨t, ran, answer⟩ := Option.map_eq_some_iff.1 one
  obtain ⟨ranges, bytes, count⟩ : t.1.ranges = .ok [⟨0, 3000⟩, ⟨4000, 5000⟩] ∧ t.1.freeBytes = 4000 ∧
    t.1.entryCount = 2 := by simpa using answer
  have made : create {} = .ok (fresh {}) := by decide +kernel
  have reachable := (Reachable.create made).run (by decide +kernel) (mem_toOption.1 done)
  obtain ⟨l, -, all⟩ := coalescing_canonical reachable spread worth (apart.imp Range.apart_of_le)
  have first := (all rs os (.refl _) (.cons .recycle (.cons .expand (.cons .recycle .nil)))).of_ok
    (mem_toOption.1 ran)
  refine ⟨s.1, entries, fun rs' os' perm inserts => ?_⟩
  obtain ⟨r, found, same⟩ := (all rs' os' perm inserts).exists_ok fun f _ fault => fault.2.1 cursor
  exact ⟨r, found, same.1.trans (first.1.symm.trans ranges), same.2.1.trans (first.2.1.symm.trans bytes),
    same.2.2.trans (first.2.2.symm.trans count)⟩

/-- While a realignment is pending each insertion below the cursor adds to the estimate, also for an entry
that is taken out again afterwards. With cards of 2^62 bytes the fourth such entry does not fit. -/
theorem coalescing_overflows_estimate : ∃ p : Pool, p.Reachable ∧ p.entries.Spread ∧
    p.entries.ranges = [⟨2 ^ 63 + 1, 2 ^ 63 + 2 ^ 62 + 1⟩] ∧ p.Worth [⟨1, 2 ^ 62 + 1⟩] ∧
    p.run [.expand (2 ^ 62) 1 (2 ^ 62 + 1) true] = .error .counterOverflow := by
  let config : PoolConfig := { minEntry := 2 ^ 62, cardSize := 2 ^ 62 }
  obtain ⟨s, done⟩ : ∃ s, s ∈ ((fresh config).run
      [.expand (2 ^ 62) (2 ^ 63 + 1) (2 ^ 63 + 2 ^ 62 + 1) true, .requestCardAlignment,
        .expand (2 ^ 62) 3 (2 ^ 62 + 3) true, .contract (2 ^ 62) 3 (2 ^ 62 + 3),
        .expand (2 ^ 62) 2 (2 ^ 62 + 2) true, .contract (2 ^ 62) 2 (2 ^ 62 + 2)]).toOption :=
    Option.isSome_iff_exists.1 (by decide +kernel)
  have made : create config = .ok (fresh config) := by decide +kernel
  refine ⟨s.1, (Reachable.create made).run (by decide +kernel) (mem_toOption.1 done), ?_⟩
  revert s
  decide +kernel

end Pool

end FreeStore
