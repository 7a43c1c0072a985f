import FreeStore.Proofs.Coalescing
import FreeStore.Proofs.PlainSearch
import FreeStore.Proofs.Recycling
import FreeStore.Proofs.Waiting
/-!
What was taken out of an entry and is put in again restores the list.

Requests and `contract` split an entry, `recycle` and `expand` merge a range with what it touches. The two have
nothing in common but the list between them: there the range is missing from one entry, and what is left of
that entry in front of the range and behind it is on the list (`Hole`). If no two entries touched, nothing
else touches the range, so what is put in is merged to that one entry (`Hole.insertedEntry_eq`), and the
books follow from the list (`SameList`).
-/
namespace FreeStore

namespace Pool

variable {F : Fault → Prop} {p q r : Pool} {low high m taken : Nat} {e f : Entry} {before after : FreeList}

/-- The two pools have the same list, and the same totals and free entry histogram. -/
structure SameList (p q : Pool) : Prop where
  ranges : q.ranges = p.ranges
  freeBytes : q.freeBytes = p.freeBytes
  entryCount : q.entryCount = p.entryCount
  freeEntries : q.large.freeEntries = p.large.freeEntries

/-- The list tells the totals and the histogram. -/
theorem Sound.sameList (h : p.Sound) (hq : q.Sound) (entries : q.entries = p.entries) : p.SameList q := by
  refine ⟨?_, ?_, ?_, hq.census.unique (entries ▸ h.census)⟩
  · rw [ranges_eq hq, ranges_eq h, entries]
  · rw [hq.bytes, h.bytes, entries]
  · rw [hq.count, h.count, entries]

/-! ## Leftovers -/

theorem leftover_self : leftover m low low = none := if_neg fun h => Nat.lt_irrefl _ h.1

theorem leftover_of_worth (hm : 0 < m) (worth : m ≤ high - low) :
    leftover m low high = some (.between low high) := if_pos ⟨by omega, worth⟩

theorem eq_of_mem_leftover (hf : f ∈ leftover m low high) : f.start = low ∧ f.top = high ∧ low < high := by
  unfold leftover at hf
  split at hf
  · rename_i worth
    obtain rfl := Option.some_inj.1 hf
    refine ⟨rfl, ?_, worth.1⟩
    simp only [Entry.between, Entry.top]
    omega
  · cases hf

/-! ## Holes -/

/-- From the entry `e` of `p` the range `[low, high)` is missing in `q`, and all that is left of `e` is on the
list. -/
structure Hole (p q : Pool) (low high : Nat) (before : FreeList) (e : Entry) (after : FreeList) : Prop where
  whole : p.entries = before ++ e :: after
  width : low < high
  start : e.start ≤ low
  top : high ≤ e.top
  worthLower : low = e.start ∨ p.config.minEntry ≤ low - e.start
  worthUpper : high = e.top ∨ p.config.minEntry ≤ e.top - high
  config : q.config = p.config
  left : q.entries = before ++ ((leftover p.config.minEntry e.start low).toList ++
    (leftover p.config.minEntry high e.top).toList) ++ after

theorem Hole.nextStep (hole : p.Hole q low high before e after) :
    p.Hole q.nextStep low high before e after :=
  ⟨hole.whole, hole.width, hole.start, hole.top, hole.worthLower, hole.worthUpper, hole.config, hole.left⟩

section

variable (hole : p.Hole q low high before e after) (h : p.Sound)
include hole h

/-- The neighbours of the entry lie below the range and above it. -/
theorem Hole.apart : (∀ d ∈ before, d.start < d.top ∧ d.top ≤ e.start) ∧
    ∀ d ∈ after, e.top ≤ d.start ∧ d.start < d.top := by
  obtain ⟨-, te, cross⟩ := FreeList.tracked_append.1 (hole.whole ▸ h.tracked)
  constructor
  · intro d hd
    exact ⟨h.start_lt_top (by simp [hole.whole, hd]), cross d hd e List.mem_cons_self⟩
  · intro d hd
    exact ⟨(FreeList.tracked_cons.1 te).2.1 d hd, h.start_lt_top (by simp [hole.whole, hd])⟩

theorem Hole.insertable : q.Insertable low high := by
  have width := hole.width
  have start := hole.start
  have top := hole.top
  obtain ⟨below, above⟩ := hole.apart h
  refine ⟨width, ?_, fun d hd => ?_⟩
  · exact Nat.lt_of_le_of_lt top (h.tracked.inside e (by simp [hole.whole]))
  · simp only [hole.left, List.mem_append, Option.mem_toList] at hd
    rcases hd with (hd | hd | hd) | hd
    · have := below d hd
      omega
    · have := eq_of_mem_leftover hd
      omega
    · have := eq_of_mem_leftover hd
      omega
    · have := above d hd
      omega

/-- The list up to the range and behind it. -/
theorem Hole.split : q.entries.through low = before ++ (leftover p.config.minEntry e.start low).toList ∧
    q.entries.beyond low = (leftover p.config.minEntry high e.top).toList ++ after := by
  have width := hole.width
  have start := hole.start
  have top := hole.top
  obtain ⟨below, above⟩ := hole.apart h
  have front : ∀ d ∈ before ++ (leftover p.config.minEntry e.start low).toList, d.start ≤ low := by
    intro d hd
    rcases List.mem_append.1 hd with hd | hd
    · have := below d hd
      omega
    · have := eq_of_mem_leftover (Option.mem_toList.1 hd)
      omega
  have back : ∀ d ∈ (leftover p.config.minEntry high e.top).toList ++ after, low < d.start := by
    intro d hd
    rcases List.mem_append.1 hd with hd | hd
    · have := eq_of_mem_leftover (Option.mem_toList.1 hd)
      omega
    · have := above d hd
      omega
  rw [hole.left, ← List.append_assoc, List.append_assoc (before ++ _)]
  exact ⟨FreeList.through_append front back, FreeList.beyond_append front back⟩

/-- If no entries touched, nothing but what is left of the entry touches the range. -/
theorem Hole.touching (spread : p.entries.Spread) :
    touchingBelow (q.entries.through low) low = leftover p.config.minEntry e.start low ∧
      touchingAbove (q.entries.beyond low) high = leftover p.config.minEntry high e.top := by
  obtain ⟨front, back⟩ := hole.split h
  obtain ⟨-, spreadBack, cross⟩ := List.pairwise_append.1 (hole.whole ▸ spread)
  have above := (List.pairwise_cons.1 spreadBack).1
  rw [front, back]
  constructor
  · rcases hole.worthLower with none | worth
    · rw [none, leftover_self, Option.toList_none, List.append_nil]
      refine Option.filter_eq_none_iff.2 fun d hd => ?_
      have := cross d (List.mem_of_getLast? hd) e List.mem_cons_self
      simp only [beq_iff_eq]
      omega
    · rw [leftover_of_worth h.minEntry_pos worth]
      have := hole.start
      simp [touchingBelow, Option.filter, Entry.between, Entry.top, this]
  · rcases hole.worthUpper with none | worth
    · rw [none, leftover_self, Option.toList_none, List.nil_append]
      refine Option.filter_eq_none_iff.2 fun d hd => ?_
      have := above d (List.mem_of_head? hd)
      simp only [beq_iff_eq]
      omega
    · rw [leftover_of_worth h.minEntry_pos worth]
      simp [touchingAbove, Option.filter, Entry.between]

/-- What is put in becomes the entry that there was. -/
theorem Hole.insertedEntry_eq (spread : p.entries.Spread) : q.insertedEntry low high true = e := by
  obtain ⟨lower, upper⟩ := hole.touching h spread
  have start : (leftover p.config.minEntry e.start low).elim low Entry.start = e.start := by
    rcases hole.worthLower with none | worth
    · rw [none, leftover_self, Option.elim_none]
    · rw [leftover_of_worth h.minEntry_pos worth]
      rfl
  have top : (leftover p.config.minEntry high e.top).elim high Entry.top = e.top := by
    rcases hole.worthUpper with none | worth
    · rw [none, leftover_self, Option.elim_none]
    · rw [leftover_of_worth h.minEntry_pos worth]
      exact (eq_of_mem_leftover (leftover_of_worth h.minEntry_pos worth)).2.1
  rw [insertedEntry, if_pos rfl, if_pos rfl, lower, upper, FreeList.merged, start, top]
  simp only [Entry.between, Entry.top, Nat.add_sub_cancel_left]

theorem Hole.entries_eq (spread : p.entries.Spread) (put : q.PutIn low high true r) :
    r.entries = p.entries := by
  obtain ⟨before', _, _, after', spliced, inserted, rfl, rfl⟩ := put.spliced
  obtain ⟨front, back⟩ := hole.split h
  obtain ⟨below, above⟩ := hole.touching h spread
  have sameFront := spliced.front.symm.trans front
  have sameBack := spliced.back.symm.trans back
  rw [below] at sameFront
  rw [above] at sameBack
  rw [spliced.entries, ← inserted, hole.insertedEntry_eq h spread, hole.whole,
    List.append_cancel_right sameFront, List.append_cancel_left sameBack]

end

/-! ## Recycling what was handed out -/

/-- A range goes back into its hole, however small it is: what it touches is merged with it. -/
theorem Hole.recycle_restores (hole : p.Hole q low high before e after) (h : p.Sound) (hq : q.Sound)
    (spread : p.entries.Spread) (room : q.RoomToNote low high true) :
    ∃ r, q.step (.recycle low high) = .ok (r, .kept true) ∧ p.SameList r := by
  have inNext := hole.nextStep
  obtain ⟨lower, upper⟩ := inNext.touching h spread
  have worth : ¬ ((touchingBelow (q.nextStep.entries.through low) low).isNone = true ∧
      (touchingAbove (q.nextStep.entries.beyond low) high).isNone = true ∧
      q.nextStep.keeps (high - low) = false) := by
    rw [lower, upper]
    rintro ⟨noneBelow, noneAbove, small⟩
    have large := h.tracked.large e (by simp [hole.whole])
    have whole : low = e.start ∧ high = e.top := by
      constructor
      · refine hole.worthLower.resolve_right fun worth => ?_
        rw [leftover_of_worth h.minEntry_pos worth] at noneBelow
        cases noneBelow
      · refine hole.worthUpper.resolve_right fun worth => ?_
        rw [leftover_of_worth h.minEntry_pos worth] at noneAbove
        cases noneAbove
    have keeps : q.nextStep.keeps (high - low) = true := by
      refine decide_eq_true ?_
      rw [show q.nextStep.config = p.config from hole.config, whole.1, whole.2, Entry.top,
        Nat.add_sub_cancel_left]
      exact large
    rw [keeps] at small
    cases small
  obtain ⟨⟨r, answer⟩, done, put, rfl⟩ := (recycle_putsIn (F := fun _ => False) (p := q.nextStep) (.inr room)
    hq.nextStep (inNext.insertable h) worth).exists_ok fun _ _ => id
  refine ⟨r, ?_, h.sameList put.sound (inNext.entries_eq h spread put)⟩
  rw [step, perform, done]
  rfl

theorem Steady.settled (same : p.Steady q) (settled : p.Settled) : q.Settled := by
  refine settled.imp (fun none => same.estimate.trans none) fun done => ?_
  have first := same.cursor
  rw [done] at first
  cases hc : q.cursor with
  | done => rfl
  | pending first' prev =>
    rw [hc] at first
    cases first

/-- While nothing waits, the estimate has room for an entry. -/
theorem Hole.roomToNote (hole : p.Hole q low high before e after) (h : p.Sound) (spread : p.entries.Spread)
    (settled : q.Settled) : q.RoomToNote low high true := by
  have word := (h.size_bounds (e := e) (by simp [hole.whole])).2
  have loss := q.lossAt_le e
  rw [RoomToNote, hole.insertedEntry_eq h spread]
  rintro ⟨-, first, pending, -⟩
  rcases settled with none | done
  · omega
  · rw [done] at pending
    cases pending

theorem remainder_eq_leftover (hm : 0 < m) (fits : taken ≤ e.size) :
    e.remainder taken m = (leftover m (e.start + taken) e.top).toList := by
  have size : e.top - (e.start + taken) = e.size - taken := by
    unfold Entry.top
    omega
  unfold Entry.remainder leftover Entry.between
  rw [size]
  by_cases large : m ≤ e.size - taken
  · have width : e.start + taken < e.top := by omega
    rw [if_pos large, if_pos ⟨width, large⟩]
    rfl
  · rw [if_neg large, if_neg fun worth => large worth.2]
    rfl

/-- `taken` bytes were taken off the front of the entry `e`, which had nothing else to offer or keeps the
rest. -/
structure FrontTaken (p : Pool) (e : Entry) (taken : Nat) (q : Pool) : Prop where
  sound : q.Sound
  steady : p.Steady q
  fits : taken ≤ e.size
  rest : taken = e.size ∨ p.config.minEntry ≤ e.size - taken
  split : ∃ before after, p.entries = before ++ e :: after ∧
    q.entries = before ++ e.remainder taken p.config.minEntry ++ after

/-- What was taken off the front of an entry can be recycled, and nothing is left of it. -/
theorem FrontTaken.recycle_restores (front : p.FrontTaken e taken q) (h : p.Sound)
    (spread : p.entries.Spread) (settled : p.Settled) (some : 0 < taken) :
    ∃ r, q.step (.recycle e.start (e.start + taken)) = .ok (r, .kept true) ∧ p.SameList r := by
  obtain ⟨before, after, whole, left⟩ := front.split
  have fits := front.fits
  have hole : p.Hole q e.start (e.start + taken) before e after := by
    refine ⟨whole, Nat.lt_add_of_pos_right some, Nat.le_refl _, Nat.add_le_add_left fits _, .inl rfl,
      front.rest.imp (fun all => ?_) (fun worth => ?_), front.steady.config, ?_⟩
    · rw [all, Entry.top]
    · unfold Entry.top
      omega
    · rw [left, remainder_eq_leftover h.minEntry_pos fits, leftover_self]
      rfl
  exact hole.recycle_restores h front.sound spread
    (hole.roomToNote h spread (front.steady.settled settled))

/-! ## Requests -/

variable {size maximum : Nat} {record : Bool} {rest : FreeList} {reserve : List Refill} {client : Client}
  {request : Request}

/-- While nothing waits, an object is taken off the front of the first entry that is large enough. -/
theorem allocateFrom_takes (h : p.Sound) (settled : p.Settled)
    (found : (p.entries.find? fun e => size ≤ e.size) = some e) :
    Yields (allocateFrom size record reserve p) fun s => s.2 = some e.start ∧
      (size = e.size ∨ p.config.minEntry ≤ e.size - size → p.FrontTaken e size s.1) := by
  obtain ⟨w, hinted, first, -⟩ : ∃ w hinted, p.firstFit size = _ ∧ _ := firstFit_eq h settled
  obtain ⟨sound, -, -, enough⟩ := (firstFit_ends (F := fun _ => True) (.inl trivial) h).of_ok first
  obtain ⟨before, after, entries, fits, passed⟩ := enough e found
  have looked : p.Steady (p.findHint size).1 := ⟨rfl, rfl, rfl, rfl⟩
  cases reserve <;>
  · rw [allocateFrom, tryPlace_eq h, place, first, found, ok_bind, bind_assoc]
    refine ((takeFront_ends (.inl trivial) sound entries passed fits).and steady_takeFront).bind ?_
    rintro q ⟨⟨sound', -, left⟩, steady⟩
    exact ⟨rfl, fun worth => ⟨sound', looked.trans steady, fits, worth, before, after, entries, left⟩⟩

theorem blockSize_of_off (off : p.sweepGrid = none) : p.blockSize e maximum =
    .ok (some (if p.keeps (e.size - min maximum e.size) then min maximum e.size else e.size)) := by
  unfold blockSize
  rw [off]

/-- While nothing waits and no grid is in force, a block is taken off the front of the first entry. It takes
the whole entry if the rest is too small to stay. -/
theorem carveFrom_takes (h : p.Sound) (settled : p.Settled) (off : p.sweepGrid = none)
    (hp : p.entries = e :: rest) :
    Yields (carveFrom maximum record reserve p) fun s => ∃ taken, s.2 = some ⟨e.start, e.start + taken⟩ ∧
      (0 < maximum → 0 < taken) ∧ p.FrontTaken e taken s.1 := by
  have he : e ∈ p.entries := by simp [hp]
  obtain ⟨pos, word⟩ := h.size_bounds he
  have carved : Yields (carve maximum record (e :: rest) p) fun s => ∃ taken,
      s.2 = some ⟨e.start, e.start + taken⟩ ∧ (0 < maximum → 0 < taken) ∧ p.FrontTaken e taken s.1 := by
    rw [carve, settled.reach_eq e, ok_bind]
    refine uncountFree_bind (hp ▸ h.census) pos word fun g hg => ?_
    have uncounted : p.Steady { p with large := { p.large with freeEntries := g } } := ⟨rfl, rfl, rfl, rfl⟩
    rw [blockSize_of_off (by exact off), ok_bind]
    dsimp only
    generalize htaken : (if keeps { p with large := { p.large with freeEntries := g } }
      (e.size - min maximum e.size) then min maximum e.size else e.size) = taken
    have bounds : taken ≤ e.size ∧ (0 < maximum → 0 < taken) ∧
        (taken = e.size ∨ p.config.minEntry ≤ e.size - taken) := by
      subst htaken
      split
      · rename_i worth
        exact ⟨Nat.min_le_right _ _, fun some => Nat.lt_min.2 ⟨some, pos⟩, .inr (of_decide_eq_true worth)⟩
      · exact ⟨Nat.le_refl _, fun _ => pos, .inl rfl⟩
    refine ((carveFirst_ends (.inl trivial) h hp hg bounds.1).and steady_carveFirst).bind ?_
    rintro q ⟨⟨sound, -, left⟩, steady⟩
    exact ⟨taken, rfl, bounds.2.1, sound, uncounted.trans steady, bounds.1, bounds.2.2, [], rest, hp, left⟩
  have tries : p.tryCarve maximum record = carve maximum record (e :: rest) p := by rw [tryCarve_eq h, hp]
  cases reserve <;>
  · unfold carveFrom
    rw [tries]
    refine carved.bind ?_
    rintro ⟨q, found⟩ ⟨taken, rfl, front⟩
    exact ⟨taken, rfl, front⟩

/-- An object that starts where an entry does was taken off the front of that entry. -/
theorem frontTaken_of_object {answer : Request} (h : p.Sound) (settled : p.Settled) (he : e ∈ p.entries)
    (fits : request.bytes ≤ e.size)
    (worth : request.bytes = e.size ∨ p.config.minEntry ≤ e.size - request.bytes)
    (done : p.step (.allocate client request) = .ok (q, .object answer (some e.start))) :
    p.nextStep.FrontTaken e request.bytes q := by
  obtain ⟨f, found⟩ := Option.isSome_iff_exists.1
    (List.find?_isSome (p := fun e => decide (request.bytes ≤ e.size)).2 ⟨e, he, by simpa using fits⟩)
  have takes : Yields (p.step (.allocate client request)) fun s =>
      (∃ answer, s.2 = .object answer (.some f.start)) ∧
      (request.bytes = f.size ∨ p.config.minEntry ≤ f.size - request.bytes →
        p.nextStep.FrontTaken f request.bytes s.1) := by
    simp only [step, perform, allocate, bind_assoc]
    refine (allocateFrom_takes h.nextStep settled found).bind ?_
    rintro ⟨q, got⟩ ⟨rfl, front⟩
    exact ⟨⟨_, rfl⟩, front⟩
  obtain ⟨⟨_, answered⟩, front⟩ := takes.of_ok done
  have start : e.start = f.start := Option.some_inj.1 (Answer.object.inj answered).2
  have hf : f ∈ p.entries := List.mem_of_find?_eq_some found
  obtain rfl : e = f := h.tracked.eq_of_meet he hf ⟨Nat.le_refl _, h.start_lt_top he⟩
    ⟨Nat.le_of_eq start.symm, start ▸ h.start_lt_top hf⟩
  exact front worth

/-- A block for which the owner was not asked for a refill was taken off the front of the first entry. -/
theorem frontTaken_of_block {answer : Request} {block : Range} (h : p.Sound) (settled : p.Settled)
    (off : p.sweepGrid = none) (unasked : p.nextStep.askForBlock maximum (p.recordsFor client) = none)
    (done : p.step (.allocateTlh client request maximum) = .ok (q, .block answer (some block))) :
    ∃ e taken, block = ⟨e.start, e.start + taken⟩ ∧ (0 < maximum → 0 < taken) ∧
      p.nextStep.FrontTaken e taken q := by
  cases hp : p.entries with
  | nil =>
    have tries : p.nextStep.tryCarve maximum (p.recordsFor client) = .ok (p.nextStep, none) := by
      rw [tryCarve_eq h.nextStep, show p.nextStep.entries = [] from hp]
      rfl
    rw [askForBlock_eq tries] at unasked
    cases unasked
  | cons e rest =>
    have takes : Yields (p.step (.allocateTlh client request maximum)) fun s => ∃ taken,
        (∃ answer, s.2 = .block answer (.some ⟨e.start, e.start + taken⟩)) ∧ (0 < maximum → 0 < taken) ∧
          p.nextStep.FrontTaken e taken s.1 := by
      simp only [step, perform, allocateTlh, bind_assoc]
      refine (carveFrom_takes h.nextStep settled off hp).bind ?_
      rintro ⟨q, got⟩ ⟨taken, rfl, front⟩
      exact ⟨taken, ⟨_, rfl⟩, front⟩
    obtain ⟨taken, ⟨_, answered⟩, front⟩ := takes.of_ok done
    exact ⟨e, taken, Option.some_inj.1 (Answer.block.inj answered).2, front⟩

/-- Recycling just what a request was handed undoes the request, in a reachable pool no two entries of which
touch, with no realignment pending and no sweep grid in force: of an object, if it filled an entry or left
enough of it for one; of a block, if the owner was not asked for a refill. -/
theorem recycle_undoes_request (h : p.Reachable) (spread : p.entries.Spread) (settled : p.Settled)
    (off : p.sweepGrid = none) (client : Client) (request : Request) :
    (∀ e ∈ p.entries, ∀ q answer, 0 < request.bytes → request.bytes ≤ e.size →
      (e.size - request.bytes = 0 ∨ p.config.minEntry ≤ e.size - request.bytes) →
      p.step (.allocate client request) = .ok (q, .object answer (some e.start)) →
      ∃ r, q.step (.recycle e.start (e.start + request.bytes)) = .ok (r, .kept true) ∧ p.SameList r) ∧
    ∀ maximum q answer block, 0 < maximum →
      p.nextStep.askForBlock maximum (p.recordsFor client) = none →
      p.step (.allocateTlh client request maximum) = .ok (q, .block answer (some block)) →
      ∃ r, q.step (.recycle block.low block.high) = .ok (r, .kept true) ∧ p.SameList r := by
  have sound := h.sound.nextStep
  have same : ∀ r, p.nextStep.SameList r → p.SameList r := fun r list =>
    ⟨list.ranges, list.freeBytes, list.entryCount, list.freeEntries⟩
  constructor
  · intro e he q answer some fits worth done
    have front := frontTaken_of_object h.sound settled he fits (worth.imp_left (by omega)) done
    obtain ⟨r, recycled, list⟩ := front.recycle_restores sound spread settled some
    exact ⟨r, recycled, same r list⟩
  · intro maximum q answer block some unasked done
    obtain ⟨e, taken, rfl, pos, front⟩ := frontTaken_of_block h.sound settled off unasked done
    obtain ⟨r, recycled, list⟩ := front.recycle_restores sound spread settled (pos some)
    exact ⟨r, recycled, same r list⟩

/-- An object and a block that are too small for an entry go back where they came from. -/
theorem recycle_undoes_small_requests : ∃ p q r q' r' : Pool, p.entries = [⟨1000, 2000⟩] ∧
    p.step (.allocate .mutator { bytes := 100 }) = .ok (q, .object ⟨100, false, false⟩ (some 1000)) ∧
    q.step (.recycle 1000 1100) = .ok (r, .kept true) ∧ p.SameList r ∧
    p.step (.allocateTlh .mutator {} 64) = .ok (q', .block ⟨0, true, false⟩ (some ⟨1000, 1064⟩)) ∧
    q'.step (.recycle 1000 1064) = .ok (r', .kept true) ∧ p.SameList r' := by
  obtain ⟨s, done⟩ : ∃ s, s ∈ ((fresh {}).run [.expand 2000 1000 3000 false]).toOption :=
    Option.isSome_iff_exists.1 (by decide +kernel)
  obtain ⟨entries, spread, settled, off, minEntry, unasked, t, placed, placedAt, t', carved, carvedAt⟩ :
      s.1.entries = [⟨1000, 2000⟩] ∧ s.1.entries.Spread ∧ s.1.Settled ∧ s.1.sweepGrid = none ∧
      s.1.config.minEntry = 512 ∧ (s.1.nextStep.askForBlock 64 (s.1.recordsFor .mutator)).isNone ∧
      ∃ t ∈ (s.1.step (.allocate .mutator { bytes := 100 })).toOption,
        t.2 = .object ⟨100, false, false⟩ (some 1000) ∧
      ∃ t' ∈ (s.1.step (.allocateTlh .mutator {} 64)).toOption,
        t'.2 = .block ⟨0, true, false⟩ (some ⟨1000, 1064⟩) := by
    revert s
    decide +kernel
  have made : create {} = .ok (fresh {}) := by decide +kernel
  have reachable := (Reachable.create made).run (by decide +kernel) (mem_toOption.1 done)
  obtain ⟨q, rfl⟩ : ∃ q, t = (q, .object ⟨100, false, false⟩ (some 1000)) := ⟨t.1, Prod.ext rfl placedAt⟩
  obtain ⟨q', rfl⟩ : ∃ q, t' = (q, .block ⟨0, true, false⟩ (some ⟨1000, 1064⟩)) :=
    ⟨t'.1, Prod.ext rfl carvedAt⟩
  replace placed := mem_toOption.1 placed
  replace carved := mem_toOption.1 carved
  obtain ⟨objects, -⟩ := recycle_undoes_request reachable spread settled off .mutator { bytes := 100 }
  obtain ⟨-, blocks⟩ := recycle_undoes_request reachable spread settled off .mutator {}
  obtain ⟨r, recycled, list⟩ := objects ⟨1000, 2000⟩ (by simp [entries]) q _ (by decide) (by decide)
    (.inr (by rw [minEntry]; decide)) placed
  obtain ⟨r', recycled', list'⟩ := blocks 64 q' _ _ (by decide) (Option.isNone_iff_eq_none.1 unasked) carved
  exact ⟨s.1, q, r, q', r', entries, placed, recycled, list, carved, recycled', list'⟩

/-! ## Putting back what was cut out -/

theorem lossOf_leftover_le : p.lossOf (leftover m low high).toList ≤ p.lossAt (.between low high) := by
  unfold leftover
  split
  · exact Nat.le_refl _
  · exact Nat.zero_le _

/-- The range that was cut out of an entry is missing from it. -/
theorem Contracted.hole (cut : p.Contracted low high q) (h : p.Sound) (he : e ∈ p.entries)
    (width : low < high) (start : e.start ≤ low) (top : high ≤ e.top)
    (worthLower : low = e.start ∨ p.config.minEntry ≤ low - e.start)
    (worthUpper : high = e.top ∨ p.config.minEntry ≤ e.top - high) :
    (∃ before after, p.Hole q low high before e after) ∧
      q.pendingLoss ≤ p.pendingLoss + p.lossAt (.between high e.top) := by
  obtain ⟨before, f, after, whole, startF, topF, left, estimate⟩ := cut.cut
  obtain rfl : e = f := h.tracked.eq_of_meet (a := low) he (by simp [← whole]) (by omega) (by omega)
  constructor
  · exact ⟨before, after, whole.symm, width, start, top, worthLower, worthUpper, cut.effect.config, left⟩
  · exact Nat.le_trans estimate (Nat.add_le_add_left lossOf_leftover_le _)

/-- A range goes back into its hole by `expand` too, if the estimate of a pending realignment has room for the
entry. -/
theorem Hole.expand_restores (hole : p.Hole q low high before e after) (h : p.Sound) (hq : q.Sound)
    (spread : p.entries.Spread) (large : p.config.minEntry ≤ high - low)
    (hF : F .counterOverflow ∨ q.RoomToNote low high true) :
    Ends F (q.expand (high - low) low high true) p.SameList := by
  have kept : q.keeps (high - low) = true := by
    refine decide_eq_true ?_
    rw [hole.config]
    exact large
  refine (expand_putsIn hF hq (hole.insertable h) kept).mono fun r put => ?_
  exact h.sameList put.sound (hole.entries_eq h spread put)

theorem enclosed_of_mem (he : e ∈ p.entries) (width : low < high) (start : e.start ≤ low) (top : high ≤ e.top) :
    p.Enclosed low high :=
  ⟨Nat.le_of_lt width, fun _ => ⟨e, he, by simp [encloses, start, top]⟩⟩

/-- Cutting a range out fails for want of an entry just if none encloses it. -/
theorem contract_eq_noEnclosing (h : p.Sound) (width : low < high) :
    p.contract (high - low) low high = .error (.noEnclosingEntry low high) ↔
      ¬ ∃ e ∈ p.entries, e.start ≤ low ∧ high ≤ e.top := by
  constructor
  · rintro fails ⟨e, he, start, top⟩
    have ends := contract_cuts (F := fun f => f = .counterOverflow) h (enclosed_of_mem he width start top) width
      (.inl rfl)
    rw [fails] at ends
    cases ends
  · intro none
    have promised : (decide (low ≤ high) && high - low == high - low) = true := by
      simpa using Nat.le_of_lt width
    have passed : (p.entries.dropWhile fun e => !encloses low high e) = [] := by
      refine List.dropWhile_eq_nil_iff.2 fun e he => ?_
      simp only [encloses, Bool.not_eq_true', Bool.and_eq_false_iff, decide_eq_false_iff_not]
      by_contra inside
      exact none ⟨e, he, by omega, by omega⟩
    unfold contract
    rw [if_neg (by omega), require_bind promised, passed]
    simp only [h.reachEnd_eq]
    rfl

/-- What is cut out of an entry of a reachable pool no two entries of which touch, and put in again with merging,
leaves the list and its books as they were, if both leftovers could stay on the list. The two can fail only
while a realignment is pending, where the estimate may overflow: it grows by what realignment takes of the
leftover behind the range and of the entry. Cutting a range out fails for want of an entry just if none
encloses it. -/
theorem expand_undoes_contract (h : p.Reachable) (width : low < high) :
    (p.entries.Spread → p.config.minEntry ≤ high - low → ∀ e ∈ p.entries, e.start ≤ low → high ≤ e.top →
      (low - e.start = 0 ∨ p.config.minEntry ≤ low - e.start) →
      (e.top - high = 0 ∨ p.config.minEntry ≤ e.top - high) →
      Ends (fun f => f = .counterOverflow ∧ p.cursor ≠ .done ∧
          wordLimit ≤ p.pendingLoss + (p.lossAt (.between high e.top) + p.lossAt e))
        (p.run [.contract (high - low) low high, .expand (high - low) low high true])
        fun s => p.SameList s.1) ∧
    (p.step (.contract (high - low) low high) = .error (.noEnclosingEntry low high) ↔
      ¬ ∃ e ∈ p.entries, e.start ≤ low ∧ high ≤ e.top) := by
  have sound := h.sound.nextStep
  constructor
  · intro spread large e he start top worthLower worthUpper
    -- where the estimate has room for both entries, it has room for each operation
    have room : (p.cursor ≠ .done ∧ wordLimit ≤ p.pendingLoss + (p.lossAt (.between high e.top) + p.lossAt e)) ∨
        p.cursor = .done ∨ p.pendingLoss + (p.lossAt (.between high e.top) + p.lossAt e) < wordLimit := by
      by_cases done : p.cursor = .done
      · exact .inr (.inl done)
      · exact (Nat.lt_or_ge _ _).elim (fun fits => .inr (.inr fits)) fun beyond => .inl ⟨done, beyond⟩
    simp only [run, step, perform, bind_assoc]
    refine (contract_cuts sound (enclosed_of_mem he width start top) width ?_).bind ?_
    · refine room.imp (fun beyond => ⟨rfl, beyond⟩) (Or.imp_right fun fits f hf startF topF => ?_)
      obtain rfl : e = f := h.sound.tracked.eq_of_meet (a := low) he hf (by omega) (by omega)
      have part : p.nextStep.lossOf (leftover p.config.minEntry high e.top).toList ≤
        p.lossAt (.between high e.top) := lossOf_leftover_le
      show p.pendingLoss + p.nextStep.lossOf (leftover p.config.minEntry high e.top).toList < wordLimit
      omega
    rintro ⟨q, a⟩ cut
    replace cut : p.nextStep.Contracted low high q := cut
    obtain ⟨⟨before, after, hole⟩, estimate⟩ := cut.hole sound he width start top (worthLower.imp_left (by omega))
      (worthUpper.imp_left (by omega))
    refine (hole.nextStep.expand_restores sound cut.sound.nextStep spread large ?_).bind ?_
    · refine room.imp (fun beyond => ⟨rfl, beyond⟩) fun room => ?_
      rw [RoomToNote, hole.nextStep.insertedEntry_eq sound spread]
      rintro ⟨-, first, pending, -⟩
      have loss : q.nextStep.lossAt e = p.lossAt e := by
        unfold lossAt
        rw [show q.nextStep.config = p.config from hole.config]
      rw [loss]
      rcases room with done | fits
      · rw [show q.nextStep.cursor = .done from cut.idle done] at pending
        cases pending
      · have grown : q.nextStep.pendingLoss ≤ p.pendingLoss + p.lossAt (.between high e.top) := estimate
        omega
    · intro r list
      exact ⟨list.ranges, list.freeBytes, list.entryCount, list.freeEntries⟩
  · refine Iff.trans ?_ (contract_eq_noEnclosing (p := p.nextStep) sound width)
    rw [step, perform]
    cases p.nextStep.contract (high - low) low high with
    | ok r => constructor <;> rintro ⟨⟩
    | error fault =>
      exact ⟨fun same => congrArg _ (Except.error.inj same), fun same => congrArg _ (Except.error.inj same)⟩

/-- A range is cut out of the inside of an entry and put back. One that reaches beyond the entry is not found. -/
theorem expand_undoes_contract_inside : ∃ p : Pool, p.entries = [⟨1000, 4000⟩] ∧
    (∃ s, p.run [.contract 1000 2000 3000, .expand 1000 2000 3000 true] = .ok s ∧ p.SameList s.1) ∧
    p.step (.contract 1000 500 1500) = .error (.noEnclosingEntry 500 1500) := by
  obtain ⟨s, done⟩ : ∃ s, s ∈ ((fresh {}).run [.expand 4000 1000 5000 false]).toOption :=
    Option.isSome_iff_exists.1 (by decide +kernel)
  obtain ⟨entries, spread, minEntry, cursor⟩ : s.1.entries = [⟨1000, 4000⟩] ∧ s.1.entries.Spread ∧
      s.1.config.minEntry = 512 ∧ s.1.cursor = .done := by
    revert s
    decide +kernel
  have made : create {} = .ok (fresh {}) := by decide +kernel
  have reachable := (Reachable.create made).run (by decide +kernel) (mem_toOption.1 done)
  obtain ⟨inside, -⟩ := expand_undoes_contract reachable (by decide : 2000 < 3000)
  obtain ⟨-, outside⟩ := expand_undoes_contract reachable (by decide : 500 < 1500)
  rw [minEntry] at inside
  obtain ⟨t, ran, list⟩ := (inside spread (by decide) ⟨1000, 4000⟩ (by simp [entries]) (by decide)
    (by decide) (.inr (by decide)) (.inr (by decide))).exists_ok fun _ _ fault => fault.2.1 cursor
  refine ⟨s.1, entries, ⟨t, ran, list⟩, outside.2 ?_⟩
  rw [entries]
  decide

/-- While a realignment is pending, an entry is noted again when it is put back. With cards of 2^62 bytes, and
an estimate to which an entry has added that is gone again, the cut entry does not fit. -/
theorem expand_overflows_after_contract : ∃ p : Pool, p.Reachable ∧ p.entries.Spread ∧
    p.entries = [⟨0, 2 ^ 63 - 1⟩, ⟨2 ^ 63 + 1, 2 ^ 63 - 2⟩] ∧ p.config.minEntry ≤ (2 ^ 63 - 1) - 0 ∧
    p.run [.contract ((2 ^ 63 - 1) - 0) 0 (2 ^ 63 - 1), .expand ((2 ^ 63 - 1) - 0) 0 (2 ^ 63 - 1) true] =
      .error .counterOverflow := by
  let config : PoolConfig := { minEntry := 2 ^ 62, cardSize := 2 ^ 62 }
  obtain ⟨s, done⟩ : ∃ s, s ∈ ((fresh config).run
      [.expand (2 ^ 63 - 2) (2 ^ 63 + 1) (2 ^ 64 - 1) true, .requestCardAlignment,
        .expand (2 ^ 63 - 2) 1 (2 ^ 63 - 1) true, .contract (2 ^ 63 - 2) 1 (2 ^ 63 - 1),
        .expand (2 ^ 63) 0 (2 ^ 63) true, .contract 1 (2 ^ 63 - 1) (2 ^ 63)]).toOption :=
    Option.isSome_iff_exists.1 (by decide +kernel)
  have made : create config = .ok (fresh config) := by decide +kernel
  refine ⟨s.1, (Reachable.create made).run (by decide +kernel) (mem_toOption.1 done), ?_⟩
  revert s
  decide +kernel

end Pool

end FreeStore
