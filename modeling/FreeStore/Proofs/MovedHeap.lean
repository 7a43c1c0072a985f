import Mathlib.Data.List.Pairwise
import Mathlib.Data.List.Perm.Basic
import FreeStore.Pool.Torn
import FreeStore.Proofs.Runs
/-!
What moving the heap does.

A move that keeps the entries in order and apart sends each of them to its image. So it does with their headers
and links, though the headers are written one by one into the table that still holds those of others
(`rekeyed_perm`): no image takes the place of a header that has yet to be read. The totals do not change, and
the hints are gone (`Relocated`).

The cursor is sent along as a bare address. Where an entry starts there, the same entries as before wait for
realignment; where none does, the images of entries below may come to lie above it, or the other way round
(`sides_kept_iff`).
-/
namespace FreeStore

/-- Where an address of `source` goes, if it is moved to `dst`; others stay. -/
def Range.relocate (source : Range) (dst a : Nat) : Nat :=
  if source.contains a then dst + (a - source.low) else a

/-- The header of an image: it leads on to the image of the next entry. -/
def Header.relocate (source : Range) (dst : Nat) (h : Header) : Header :=
  ⟨source.relocate dst h.start, h.size, h.next.map (source.relocate dst)⟩

/-- A cursor of which every address goes along. -/
def CardCursor.relocate (source : Range) (dst : Nat) : CardCursor → CardCursor
  | .done => .done
  | .pending first prev => .pending (source.relocate dst first) (prev.map (source.relocate dst))

/-- Write a header into a table, over the one that stands at the same address. -/
def Header.into (table : List Header) (h : Header) : List Header :=
  h :: table.filter fun g => g.start != h.start

/-- Rekey a table of headers: turn all links to the images, take the headers in `source` out, and write them back
at their images, one by one. -/
def rekeyed (source : Range) (dst : Nat) (table : List Header) : List Header :=
  let relinked := table.map fun h => { h with next := h.next.map (source.relocate dst) }
  let left := relinked.filter fun h => !source.contains h.start
  let moved := table.filter fun h => source.contains h.start
  (moved.map (Header.relocate source dst)).foldl Header.into left

namespace Pool

variable {p q : Pool} {source : Range} {low high dst : Nat} {e f : Entry} {l : FreeList} {c c' : CardCursor}

/-! ## Headers -/

theorem movedEntry_start : (movedEntry source dst e).start = source.relocate dst e.start := by
  unfold movedEntry Range.relocate
  split <;> rfl

theorem firstStart_map_movedEntry :
    FreeList.firstStart (l.map (movedEntry source dst)) = l.firstStart.map (source.relocate dst) := by
  cases l with
  | nil => rfl
  | cons e l => exact congrArg some movedEntry_start

/-- The headers of the images are the images of the headers. -/
theorem headers_map_movedEntry : FreeList.headers none (l.map (movedEntry source dst)) =
    (FreeList.headers none l).map (Header.relocate source dst) := by
  induction l with
  | nil => rfl
  | cons e l ih =>
    simp only [List.map_cons, FreeList.headers, ih, firstStart_map_movedEntry, Option.or_none,
      Header.relocate, movedEntry_start, movedEntry_size]

/-- Headers at different addresses do not get in each other's way. -/
theorem foldl_into {table hs : List Header} (apart : ((hs ++ table).map Header.start).Nodup) :
    hs.foldl Header.into table = hs.reverse ++ table := by
  induction hs generalizing table with
  | nil => rfl
  | cons h hs ih =>
    have perm : (h :: hs ++ table).Perm (hs ++ h :: table) := List.perm_middle.symm
    have kept : (table.filter fun g => g.start != h.start) = table := by
      rw [List.filter_eq_self]
      intro g hg
      rw [bne_iff_ne]
      intro same
      rw [List.cons_append, List.map_cons, List.nodup_cons] at apart
      exact apart.1 (same ▸ List.mem_map_of_mem (List.mem_append_right _ hg))
    rw [List.foldl_cons, Header.into, kept, ih ((perm.map Header.start).nodup_iff.1 apart)]
    simp

/-- As long as no two images stand at one address, rekeying a table comes to moving every header at once. -/
theorem rekeyed_perm {table : List Header}
    (apart : ((table.map (Header.relocate source dst)).map Header.start).Nodup) :
    (rekeyed source dst table).Perm (table.map (Header.relocate source dst)) := by
  have stay : ((table.map fun h => { h with next := h.next.map (source.relocate dst) }).filter
      fun h => !source.contains h.start) =
        (table.filter fun h => !source.contains h.start).map (Header.relocate source dst) := by
    rw [List.filter_map]
    refine List.map_congr_left fun h hh => ?_
    have outside : source.contains h.start = false := by simpa using (List.mem_filter.1 hh).2
    simp [Header.relocate, Range.relocate, outside]
  have both : ((table.filter fun h => source.contains h.start).map (Header.relocate source dst) ++
      (table.filter fun h => !source.contains h.start).map (Header.relocate source dst)).Perm
        (table.map (Header.relocate source dst)) := by
    rw [← List.map_append]
    exact (List.filter_append_perm _ table).map _
  unfold rekeyed
  simp only [stay]
  rw [foldl_into ((both.map Header.start).nodup_iff.2 apart)]
  exact ((List.reverse_perm _).append_right _).trans both

/-! ## The move -/

theorem relocate_of_imageOf {a b : Nat} (h : imageOf source dst a = .ok b) : b = source.relocate dst a := by
  unfold imageOf at h
  unfold Range.relocate
  split at h
  · rename_i inside
    rw [if_pos inside]
    exact (Word.add_eq_ok.1 h).2
  · rename_i outside
    rw [if_neg outside]
    exact (Except.ok.inj h).symm

theorem relocate_of_moveCursor (h : moveCursor source dst c = .ok c') : c' = c.relocate source dst := by
  cases c with
  | done => exact (Except.ok.inj h).symm
  | pending first prev =>
    obtain ⟨first', image, h⟩ := bind_eq_ok.1 h
    obtain ⟨prev', images, h⟩ := bind_eq_ok.1 h
    obtain rfl := Except.ok.inj h
    obtain rfl := relocate_of_imageOf image
    cases prev with
    | none =>
      obtain rfl := Except.ok.inj images
      rfl
    | some b =>
      obtain ⟨b', image', images⟩ := bind_eq_ok.1 images
      obtain rfl := Except.ok.inj images
      obtain rfl := relocate_of_imageOf image'
      rfl

/-- After the move of `source` to `dst` every entry of `p` is at its image in `q`, with its header and its link,
and nothing but the hints and the cursor has changed otherwise. -/
structure Relocated (p : Pool) (source : Range) (dst : Nat) (q : Pool) : Prop where
  entries : q.entries = p.entries.map (movedEntry source dst)
  head : q.first? = p.first?.map (source.relocate dst)
  headers : q.headers = p.headers.map (Header.relocate source dst)
  /-- rekeying the table one header after the other comes to the same -/
  table : (rekeyed source dst p.headers).Perm q.headers
  /-- the links lead from the head through all headers, and no further -/
  thread : FreeList.ofHeaders q.first? q.headers = (q.entries, none, [])
  consistent : q.isConsistent = true
  hints : p.movedEntries source ≠ [] → q.hints.active = []
  cursor : q.cursor = if p.movedEntries source = [] then p.cursor else p.cursor.relocate source dst
  freeBytes : q.freeBytes = p.freeBytes
  entryCount : q.entryCount = p.entryCount
  stats : q.stats = p.stats
  large : q.large = p.large

theorem movedEntries_eq_nil_iff :
    p.movedEntries source = [] ↔ ¬ ∃ e ∈ p.entries, source.contains e.start := by
  simp [movedEntries, List.filter_eq_nil_iff]

/-- The pool that the move leaves. -/
theorem relocated_of_images {hints : HintCache} {cursor : CardCursor} (h : p.Sound)
    (same : q = { p with
      entries := p.entries.map (movedEntry source dst), strays := [], hints, cursor })
    (sound : q.Sound) (forgotten : p.movedEntries source ≠ [] → hints.active = [])
    (carried : cursor = if p.movedEntries source = [] then p.cursor else p.cursor.relocate source dst) :
    p.Relocated source dst q := by
  have entries : q.entries = p.entries.map (movedEntry source dst) := by rw [same]
  have head : q.first? = q.entries.firstStart := by rw [first?, sound.gap, Option.or_none]
  have listed : q.headers = FreeList.headers none q.entries := by
    rw [Pool.headers, sound.gap, sound.strays, List.append_nil]
  have headers : q.headers = p.headers.map (Header.relocate source dst) := by
    rw [listed, entries, headers_map_movedEntry, Pool.headers, h.gap, h.strays, List.append_nil]
  have starts : (q.entries.map Entry.start).Nodup := sound.tracked.nodup_starts sound.minEntry_pos
  refine
    { entries, headers
      head := ?_, table := ?_, thread := ?_
      consistent := sound.isConsistent
      hints := fun some => by rw [same, forgotten some]
      cursor := by rw [same, ← carried]
      freeBytes := by rw [same]
      entryCount := by rw [same]
      stats := by rw [same]
      large := by rw [same] }
  · rw [head, entries, firstStart_map_movedEntry, first?, h.gap, Option.or_none]
  · rw [headers]
    apply rekeyed_perm
    rwa [← headers, listed, FreeList.map_start_headers]
  · rw [head, listed, ← FreeList.ofHeaders_headers none q.entries starts, Option.or_none]

/-- A move relocates the pool, unless the cursor leaves the address space. -/
theorem moveHeap_relocates (h : p.Sound) (fits : p.MoveFits ⟨low, high⟩ dst) :
    Ends (fun f => f = .arithmetic ∧ ¬ p.CarriesCursor low high dst) (p.moveHeap low high dst)
      (p.Relocated ⟨low, high⟩ dst) := by
  by_cases moves : ∃ e ∈ p.entries, Range.contains ⟨low, high⟩ e.start
  · have some : p.movedEntries ⟨low, high⟩ ≠ [] := fun none => movedEntries_eq_nil_iff.1 none moves
    rw [moveHeap_eq h fits moves]
    cases moved : moveCursor ⟨low, high⟩ dst p.cursor with
    | ok cursor =>
      exact relocated_of_images h rfl (sound_moved h fits cursor) (fun _ => rfl)
        ((relocate_of_moveCursor moved).trans (if_neg some).symm)
    | error f =>
      refine ⟨?_, fun follows => ?_⟩
      · exact (moveCursor_ends (F := fun f => f = .arithmetic) (.inl rfl)).of_error moved
      · exact (moveCursor_ends (F := fun _ => False) (.inr (follows moves))).of_error moved
  · have none := movedEntries_eq_nil_iff.2 moves
    have images : p.entries.map (movedEntry ⟨low, high⟩ dst) = p.entries :=
      map_movedEntry_of_not fun e he => by simpa using fun inside => moves ⟨e, he, inside⟩
    have same : p = { p with
        entries := p.entries.map (movedEntry ⟨low, high⟩ dst), strays := [], hints := p.hints
        cursor := p.cursor } := by
      rw [images, ← h.strays]
    rw [moveHeap_of_none h moves]
    exact relocated_of_images h same h (absurd none) (if_pos none).symm

/-- What was reported before does not count. -/
theorem Relocated.of_nextStep (h : p.nextStep.Relocated source dst q) : p.Relocated source dst q :=
  ⟨h.entries, h.head, h.headers, h.table, h.thread, h.consistent, h.hints, h.cursor, h.freeBytes,
    h.entryCount, h.stats, h.large⟩

/-- A move that keeps the entries in order, apart and inside the address space relocates those that start in
`[low, high)`, with their headers and links, and leaves the others and all totals as they are. So it does if the
addresses in the cursor stay inside the address space too; if one does not, the move ends in a fault. -/
theorem move_relocates_entries (h : p.Reachable) (accepts : p.nextStep.Accepts (.move low high dst)) :
    (p.CarriesCursor low high dst →
      ∃ q, p.step (.move low high dst) = .ok (q, .done) ∧ p.Relocated ⟨low, high⟩ dst q) ∧
    (¬ p.CarriesCursor low high dst → p.step (.move low high dst) = .error .arithmetic) := by
  have ends := moveHeap_relocates h.nextStep.sound accepts
  simp only [step, perform]
  cases moved : p.nextStep.moveHeap low high dst with
  | ok q =>
    refine ⟨fun _ => ⟨q, rfl, (ends.of_ok moved).of_nextStep⟩, fun strays => absurd ?_ strays⟩
    exact staysInRange_of_perform (r := (q, .done)) h.nextStep.sound accepts (by simp only [perform, moved]; rfl)
  | error f =>
    obtain ⟨rfl, strays⟩ := ends.of_error moved
    exact ⟨fun follows => absurd follows strays, fun _ => rfl⟩

/-- The image of the entry at 1000 stands where the other entry that is moved stood before. -/
theorem move_relocates_two_entries : ∃ p q : Pool,
    p.entries = [⟨0, 512⟩, ⟨1000, 600⟩, ⟨2000, 512⟩, ⟨5000, 1000⟩] ∧
    p.step (.move 1000 3000 2000) = .ok (q, .done) ∧
    q.entries = [⟨0, 512⟩, ⟨2000, 600⟩, ⟨3000, 512⟩, ⟨5000, 1000⟩] ∧ p.Relocated ⟨1000, 3000⟩ 2000 q := by
  obtain ⟨s, done⟩ : ∃ s, s ∈ ((fresh {}).run [.expand 512 0 512 false, .expand 600 1000 1600 false,
      .expand 512 2000 2512 false, .expand 1000 5000 6000 false]).toOption :=
    Option.isSome_iff_exists.1 (by decide +kernel)
  obtain ⟨entries, accepts, carries⟩ :
      s.1.entries = [⟨0, 512⟩, ⟨1000, 600⟩, ⟨2000, 512⟩, ⟨5000, 1000⟩] ∧
      s.1.nextStep.Accepts (.move 1000 3000 2000) ∧ s.1.CarriesCursor 1000 3000 2000 := by
    revert s
    decide +kernel
  have made : create {} = .ok (fresh {}) := by decide +kernel
  have reachable := (Reachable.create made).run (by decide +kernel) (mem_toOption.1 done)
  obtain ⟨q, moved, relocated⟩ := (move_relocates_entries reachable accepts).1 carries
  refine ⟨s.1, q, entries, moved, ?_, relocated⟩
  rw [relocated.entries, entries]
  decide

/-- The one entry fits at its image, and all images end inside the address space. Still the move comes to nothing:
the cursor stands at 1000, where an entry was, and that address is carried along. -/
theorem move_overflows_beside_entry : ∃ p : Pool, p.Reachable ∧ p.entries = [⟨0, 512⟩] ∧
    p.nextStep.Accepts (.move 0 1001 (wordLimit - 600)) ∧
    p.step (.move 0 1001 (wordLimit - 600)) = .error .arithmetic := by
  obtain ⟨s, done⟩ : ∃ s, s ∈ ((fresh {}).run [.expand 1000 1000 2000 true, .requestCardAlignment,
      .contract 1000 1000 2000, .expand 512 0 512 true]).toOption :=
    Option.isSome_iff_exists.1 (by decide +kernel)
  have made : create {} = .ok (fresh {}) := by decide +kernel
  refine ⟨s.1, (Reachable.create made).run (by decide +kernel) (mem_toOption.1 done), ?_⟩
  revert s
  decide +kernel

/-! ## The cursor -/

/-- Entries in a row have their images in the same order. -/
theorem moved_start_lt_iff (h : p.Sound) (fits : p.MoveFits source dst) (he : e ∈ p.entries)
    (hf : f ∈ p.entries) :
    (movedEntry source dst e).start < (movedEntry source dst f).start ↔ e.start < f.start := by
  have images := (tracked_moved h fits).pairwise_start_lt h.minEntry_pos
  have both := (h.tracked.pairwise_start_lt h.minEntry_pos).and (List.pairwise_map.1 images)
  let Alike (e f : Entry) : Prop :=
    ((movedEntry source dst e).start < (movedEntry source dst f).start ↔ e.start < f.start) ∧
      ((movedEntry source dst f).start < (movedEntry source dst e).start ↔ f.start < e.start)
  have symm : Std.Symm Alike := ⟨fun _ _ alike => alike.symm⟩
  have row : p.entries.Pairwise Alike := both.imp fun ⟨lower, image⟩ => ⟨by omega, by omega⟩
  exact (row.forall_of_forall (fun e _ => ⟨by omega, by omega⟩) he hf).1

/-- Of all entries, it takes but the last one below an address and the first one from it on to tell whether the
images lie on the same sides of another address. -/
theorem sides_kept_iff (h : p.Sound) (fits : p.MoveFits source dst) (first first' : Nat) :
    (∀ e ∈ p.entries, first ≤ e.start ↔ first' ≤ (movedEntry source dst e).start) ↔
      (∀ d ∈ (p.entries.below first).getLast?, (movedEntry source dst d).start < first') ∧
        ∀ d ∈ (p.entries.upFrom first).head?, first' ≤ (movedEntry source dst d).start := by
  have order := h.tracked.pairwise_start_lt h.minEntry_pos
  have low : ∀ {d}, d ∈ p.entries.below first → d ∈ p.entries ∧ d.start < first := fun hd =>
    ⟨List.takeWhile_subset _ hd, FreeList.start_lt_of_mem_below hd⟩
  have high : ∀ {d}, d ∈ p.entries.upFrom first → d ∈ p.entries ∧ first ≤ d.start := fun hd =>
    ⟨List.dropWhile_subset _ hd, h.tracked.le_start_of_mem_upFrom h.minEntry_pos hd⟩
  constructor
  · intro same
    refine ⟨fun d last => ?_, fun d next => ?_⟩
    · obtain ⟨hd, lower⟩ := low (List.mem_of_getLast? last)
      have := same d hd
      omega
    · obtain ⟨hd, upper⟩ := high (List.mem_of_head? next)
      exact (same d hd).1 upper
  · rintro ⟨below, above⟩ e he
    rcases List.mem_append.1 ((FreeList.below_append_upFrom first p.entries).symm ▸ he) with front | back
    · obtain ⟨init, d, split⟩ := (List.eq_nil_or_concat' (p.entries.below first)).resolve_left
        (List.ne_nil_of_mem front)
      have last := below d (by simp [split])
      obtain ⟨hd, -⟩ := low (d := d) (by simp [split])
      have sorted : (p.entries.below first).Pairwise fun e f => e.start < f.start :=
        order.sublist (List.takeWhile_sublist _)
      have notAbove : ¬ d.start < e.start := by
        rw [split, List.pairwise_append] at sorted
        rcases List.mem_append.1 (split ▸ front) with before | same
        · have := sorted.2.2 e before d List.mem_cons_self
          omega
        · obtain rfl := List.mem_singleton.1 same
          omega
      have image := mt (moved_start_lt_iff h fits hd he).1 notAbove
      have := (low front).2
      omega
    · obtain ⟨d, rest, split⟩ := List.exists_cons_of_ne_nil (List.ne_nil_of_mem back)
      have next := above d (by simp [split])
      obtain ⟨hd, -⟩ := high (d := d) (by simp [split])
      have sorted : (p.entries.upFrom first).Pairwise fun e f => e.start < f.start :=
        order.sublist (List.dropWhile_sublist _)
      have notBelow : ¬ e.start < d.start := by
        rw [split, List.pairwise_cons] at sorted
        rcases List.mem_cons.1 (split ▸ back) with rfl | after
        · omega
        · have := sorted.1 e after
          omega
      have image := mt (moved_start_lt_iff h fits he hd).1 notBelow
      have := (high back).2
      omega

/-- A move sends a pending cursor along, if it takes any entry. If the cursor stands at an entry, the images of
just those entries that lay at or above it lie at or above it again. In any case that is so exactly if it
comes to stand above the image of the last entry below it, and not above that of the first one from it on. -/
theorem move_keeps_waiting_iff (h : p.Reachable) (accepts : p.nextStep.Accepts (.move low high dst))
    {first : Nat} {prev : Option Nat} (pending : p.cursor = .pending first prev) :
    Ends (fun f => f = .arithmetic ∧ ¬ p.CarriesCursor low high dst) (p.step (.move low high dst)) fun s =>
      ∃ first' prev', s.1.cursor = .pending first' prev' ∧
        first' = (if p.movedEntries ⟨low, high⟩ = [] then first else Range.relocate ⟨low, high⟩ dst first) ∧
        (p.entries.startsAt first = true →
          ∀ e ∈ p.entries, first ≤ e.start ↔ first' ≤ (movedEntry ⟨low, high⟩ dst e).start) ∧
        ((∀ e ∈ p.entries, first ≤ e.start ↔ first' ≤ (movedEntry ⟨low, high⟩ dst e).start) ↔
          (∀ d ∈ (p.entries.below first).getLast?, (movedEntry ⟨low, high⟩ dst d).start < first') ∧
            ∀ d ∈ (p.entries.upFrom first).head?, first' ≤ (movedEntry ⟨low, high⟩ dst d).start) := by
  have sound := h.nextStep.sound
  refine (moveHeap_relocates sound accepts).bind fun q relocated => ?_
  refine ⟨if p.movedEntries ⟨low, high⟩ = [] then first else Range.relocate ⟨low, high⟩ dst first,
    if p.movedEntries ⟨low, high⟩ = [] then prev else prev.map (Range.relocate ⟨low, high⟩ dst), ?_, rfl, ?_,
    sides_kept_iff sound accepts first _⟩
  · refine relocated.cursor.trans ?_
    rw [show p.nextStep.cursor = .pending first prev from pending]
    show (if p.movedEntries ⟨low, high⟩ = [] then _ else _) = _
    split <;> rfl
  · intro stands e he
    obtain ⟨d, hd, rfl⟩ := FreeList.startsAt_iff.1 stands
    have image : (if p.movedEntries ⟨low, high⟩ = [] then d.start else Range.relocate ⟨low, high⟩ dst d.start) =
        (movedEntry ⟨low, high⟩ dst d).start := by
      rw [movedEntry_start]
      split
      · rename_i none
        exact (if_neg fun inside => movedEntries_eq_nil_iff.1 none ⟨d, hd, inside⟩).symm
      · rfl
    rw [image, ← Nat.not_lt, ← Nat.not_lt, moved_start_lt_iff sound accepts he hd]

/-- The first entry is realigned, and the cursor stands at the second one, which goes from 3000 to 2500. -/
theorem cursor_moves_with_entry : ∃ p q : Pool,
    p.entries = [⟨512, 512⟩, ⟨3000, 1000⟩, ⟨5000, 1000⟩] ∧ p.cursor = .pending 3000 (some 512) ∧
    p.step (.move 2000 4000 1500) = .ok (q, .done) ∧ q.cursor.first? = some 2500 ∧
    ∀ e ∈ p.entries, 3000 ≤ e.start ↔ 2500 ≤ (movedEntry ⟨2000, 4000⟩ 1500 e).start := by
  obtain ⟨s, done⟩ : ∃ s, s ∈ ((fresh {}).run [.expand 1024 0 1024 false, .expand 1000 3000 4000 false,
      .expand 1000 5000 6000 false, .requestCardAlignment, .allocate .mutator { bytes := 512 }]).toOption :=
    Option.isSome_iff_exists.1 (by decide +kernel)
  obtain ⟨entries, cursor, accepts, some, stands, t, next, answer⟩ :
      s.1.entries = [⟨512, 512⟩, ⟨3000, 1000⟩, ⟨5000, 1000⟩] ∧ s.1.cursor = .pending 3000 (.some 512) ∧
      s.1.nextStep.Accepts (.move 2000 4000 1500) ∧ s.1.movedEntries ⟨2000, 4000⟩ ≠ [] ∧
      s.1.entries.startsAt 3000 = true ∧
      ∃ t ∈ (s.1.step (.move 2000 4000 1500)).toOption, t.2 = .done := by
    revert s
    decide +kernel
  have made : create {} = .ok (fresh {}) := by decide +kernel
  have reachable := (Reachable.create made).run (by decide +kernel) (mem_toOption.1 done)
  replace next := mem_toOption.1 next
  obtain ⟨first', prev', cursor', place, kept, -⟩ :=
    (move_keeps_waiting_iff reachable accepts cursor).of_ok next
  obtain rfl : first' = 2500 := place.trans (if_neg some)
  exact ⟨s.1, t.1, entries, cursor, answer ▸ next, congrArg CardCursor.first? cursor', kept stands⟩

/-- The cursor stands at 1000, where an entry was. The entry at 0 lies below it and does not wait, but its image at
2000 does. -/
theorem moved_past_cursor_waits : ∃ p q : Pool, p.Reachable ∧ p.entries = [⟨0, 512⟩, ⟨5000, 1000⟩] ∧
    p.cursor = .pending 1000 none ∧ p.nextStep.Accepts (.move 0 600 2000) ∧
    p.step (.move 0 600 2000) = .ok (q, .done) ∧ q.entries = [⟨2000, 512⟩, ⟨5000, 1000⟩] ∧
    q.cursor = .pending 1000 none ∧
    ¬ ∀ e ∈ p.entries, 1000 ≤ e.start ↔ 1000 ≤ (movedEntry ⟨0, 600⟩ 2000 e).start := by
  obtain ⟨s, done⟩ : ∃ s, s ∈ ((fresh {}).run [.expand 1000 1000 2000 true, .expand 1000 5000 6000 true,
      .requestCardAlignment, .contract 1000 1000 2000, .expand 512 0 512 true]).toOption :=
    Option.isSome_iff_exists.1 (by decide +kernel)
  obtain ⟨entries, cursor, accepts, lost, t, next, answer, images, cursor'⟩ :
      s.1.entries = [⟨0, 512⟩, ⟨5000, 1000⟩] ∧ s.1.cursor = .pending 1000 none ∧
      s.1.nextStep.Accepts (.move 0 600 2000) ∧
      (¬ ∀ e ∈ s.1.entries, 1000 ≤ e.start ↔ 1000 ≤ (movedEntry ⟨0, 600⟩ 2000 e).start) ∧
      ∃ t ∈ (s.1.step (.move 0 600 2000)).toOption, t.2 = .done ∧
        t.1.entries = [⟨2000, 512⟩, ⟨5000, 1000⟩] ∧ t.1.cursor = .pending 1000 none := by
    revert s
    decide +kernel
  have made : create {} = .ok (fresh {}) := by decide +kernel
  have reachable := (Reachable.create made).run (by decide +kernel) (mem_toOption.1 done)
  exact ⟨s.1, t.1, reachable, entries, cursor, accepts, answer ▸ mem_toOption.1 next, images, cursor', lost⟩

end Pool

end FreeStore
