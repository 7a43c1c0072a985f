import Mathlib.Algebra.Ring.Nat
import FreeStore.Proofs.Holdings
/-!
The blocks of regions lie apart, and all bytes are counted.

A region places its blocks one behind the other from the start of an area, and its marks tell where the last one
ends. So the bytes below the marks are those that it counts, which are those of its blocks
(`Region.Filled`). A segment that was released starts anew when it is handed out again, and by then no living
region has a block in it. So every block lies, aligned, inside an area of its own region, and apart from all
others, whichever regions they belong to (`blocks_apart_and_counted`).
-/
namespace FreeStore

variable {r q q' : Region} {s t : Stretch} {place : Place} {size : Nat} {bs : List Block} {block : Block}
  {supplied : Option Segment} {p p' : Provider} {raw : RawSupply}

theorem Stretch.overlaps_comm (s t : Stretch) : s.overlaps t = t.overlaps s := by
  rw [Bool.eq_iff_iff, overlaps_iff, overlaps_iff]
  constructor
  · rintro ⟨area, before, after, some, other⟩
    exact ⟨area.symm, after, before, other, some⟩
  · rintro ⟨area, before, after, some, other⟩
    exact ⟨area.symm, after, before, other, some⟩

theorem Block.stretch_congr (h : q.area = r.area) (b : Block) : b.stretch q = b.stretch r := by
  rw [stretch, Region.stretch_congr h, stretch]

theorem Block.granule_dvd_size : granule ∣ block.size := dvd_roundUp

namespace Region

/-- The stretch lies inside the embedded area of the region, or inside one of its segments. -/
def Contains (r : Region) (s : Stretch) : Prop :=
  match s.area with
  | .embedded a => a = r.area ∧ s.offset + s.size ≤ inlineCapacity
  | .segment n => ∃ t ∈ r.chain, t.number = n ∧ s.offset + s.size ≤ t.size

/-- The marks are whole granules, and do not go beyond the areas. -/
structure Marked (r : Region) : Prop where
  embedded : granule ∣ r.inlineUsed ∧ r.inlineUsed ≤ inlineCapacity
  chained : ∀ s ∈ r.chain, granule ∣ s.allocated ∧ s.allocated ≤ s.size

/-- The blocks fill the areas up to their marks: each lies below a mark, they lie apart, and the bytes counted,
those of the blocks and those below the marks are as many. -/
structure Filled (r : Region) (bs : List Block) : Prop where
  marked : r.Marked
  total : r.bytesAllocated = (bs.map Block.size).sum
  marks : r.bytesAllocated = r.inlineUsed + r.chain.allocated
  lie : ∀ b ∈ bs, granule ∣ (b.stretch r).offset ∧ r.Lies (b.stretch r)
  apart : (bs.map (·.stretch r)).Pairwise fun s t => s.overlaps t = false

/-- What lies below the marks lies inside the areas. -/
theorem Marked.contains (h : r.Marked) (lies : r.Lies s) : r.Contains s := by
  obtain ⟨area, offset, size⟩ := s
  cases area with
  | embedded a => exact ⟨lies.1, Nat.le_trans lies.2 h.embedded.2⟩
  | segment n =>
    obtain ⟨t, ht, number, below⟩ := lies
    exact ⟨t, ht, number, Nat.le_trans below (h.chained t ht).2⟩

theorem filled_nil {fresh : Nat} (new : r.IsNew fresh) : r.Filled [] where
  marked := ⟨by simp [new.unused], by simp [new.chain]⟩
  total := new.uncounted
  marks := by simp [new.uncounted, new.unused, new.chain, Chain.allocated]
  lie := by simp
  apart := .nil

/-- A block of whole granules is placed at a mark, and takes the mark to its end. -/
theorem Takes.marked (h : r.Takes size supplied place q) (marked : r.Marked) (whole : granule ∣ size)
    (blank : ∀ s ∈ supplied, s.allocated = 0) : granule ∣ (r.stretch place size).offset ∧ q.Marked := by
  cases h with
  | embedded unchained room =>
    obtain ⟨aligned, below⟩ := marked.embedded
    refine ⟨aligned, ⟨Nat.dvd_add aligned whole, ?_⟩, marked.chained⟩
    dsimp only
    omega
  | @newest s rest chain room =>
    have chained := marked.chained
    rw [chain, List.forall_mem_cons] at chained
    obtain ⟨⟨aligned, below⟩, older⟩ := chained
    rw [Segment.remaining] at room
    refine ⟨aligned, marked.embedded, List.forall_mem_cons.2 ⟨⟨Nat.dvd_add aligned whole, ?_⟩, older⟩⟩
    dsimp only
    omega
  | @fresh s room =>
    have start := blank s rfl
    rw [Segment.remaining] at room
    refine ⟨start ▸ Nat.dvd_zero _, marked.embedded, List.forall_mem_cons.2 ⟨⟨?_, ?_⟩, marked.chained⟩⟩
    · simpa only [start, Nat.zero_add] using whole
    · dsimp only
      omega

/-- The bytes below the marks are more by those of the block. -/
theorem Takes.marks (h : r.Takes size supplied place q) (blank : ∀ s ∈ supplied, s.allocated = 0) :
    q.bytesAllocated = r.bytesAllocated ∧
      q.inlineUsed + q.chain.allocated = r.inlineUsed + r.chain.allocated + size := by
  cases h with
  | embedded => exact ⟨rfl, Nat.add_right_comm ..⟩
  | newest chain =>
    refine ⟨rfl, ?_⟩
    rw [chain]
    simp only [Chain.allocated]
    omega
  | @fresh s =>
    have start := blank s rfl
    refine ⟨rfl, ?_⟩
    simp only [Chain.allocated]
    omega

/-- The region hands out one more block. -/
theorem Filled.hands (h : r.Filled bs) (takes : r.Takes block.size supplied block.place q')
    (blank : ∀ s ∈ supplied, s.allocated = 0) (grows : r.Grows p (block.stretch q) q p')
    (counts : q = { q' with bytesAllocated := q'.bytesAllocated + block.size }) : q.Filled (block :: bs) := by
  obtain ⟨aligned, marked⟩ := takes.marked h.marked Block.granule_dvd_size blank
  obtain ⟨uncounted, more⟩ := takes.marks blank
  have same := Block.stretch_congr grows.area
  have total := h.total
  have marks := h.marks
  refine ⟨?_, ?_, ?_, List.forall_mem_cons.2 ⟨⟨?_, grows.placed⟩, fun b hb => ?_⟩, ?_⟩
  · rw [counts]
    exact ⟨marked.embedded, marked.chained⟩
  · rw [counts, List.map_cons, List.sum_cons]
    dsimp only
    omega
  · rw [counts]
    dsimp only
    omega
  · rw [same]
    exact aligned
  · obtain ⟨whole, lies⟩ := h.lie b hb
    rw [same]
    exact ⟨whole, grows.lies _ lies⟩
  · rw [List.map_congr_left fun b _ => same b, List.map_cons, List.pairwise_cons]
    refine ⟨fun s hs => ?_, h.apart⟩
    obtain ⟨b, hb, rfl⟩ := List.mem_map.1 hs
    rw [Stretch.overlaps_comm, ← same block]
    exact grows.apart _ (h.lie b hb).2

/-- Which instance was created last does not matter. -/
theorem Filled.relink (h : r.Filled bs) (last : Option Place) : Filled { r with last } bs :=
  ⟨⟨h.marked.embedded, h.marked.chained⟩, h.total, h.marks, h.lie, h.apart⟩

end Region

/-- A segment that is handed out is blank. -/
theorem RegionStore.Provided.blank (h : Provided raw none p size supplied p') : ∀ s ∈ supplied, s.allocated = 0 := by
  cases h with
  | nothing => nofun
  | segment =>
    rintro _ ⟨⟩
    rfl

/-- The areas of every living region are filled by its blocks. -/
def Stock.Filled (s : Stock) : Prop := ∀ p ∈ s.living, p.2.Filled (s.blocks p.1)

/-- One region has other blocks then, which fill it, and the others are as they were. -/
theorem Stock.filled_update {l rest : Living} {b : Blocks} {name : String} (own : q.Filled bs)
    (others : ∀ x ∈ rest, x.2.Filled (b x.1)) (other : name ∉ rest.map Prod.fst)
    (after : l.Perm ((name, q) :: rest)) : Stock.Filled ⟨p, l, Function.update b name bs⟩ := by
  have kept : ∀ x ∈ (name, q) :: rest, x.2.Filled (Function.update b name bs x.1) := by
    refine List.forall_mem_cons.2 ⟨?_, fun x hx => ?_⟩
    · rw [Function.update_self]
      exact own
    · rw [Function.update_of_ne (Living.ne_of_not_mem other hx)]
      exact others x hx
  exact fun x hx => kept x (after.mem_iff.1 hx)

namespace RegionStore

variable {st : RegionStore}

/-- However the stock changes, the living regions are filled by their blocks. -/
theorem Change.filled {s s' : Stock} (h : Change raw none s s') (filled : s.Filled) : s'.Filled := by
  cases h with
  | places before other provided takes counts grows after =>
    obtain ⟨own, others⟩ := List.forall_mem_cons.1 fun x hx => filled x (before.mem_iff.2 hx)
    have more := own.hands takes provided.blank grows counts
    exact Stock.filled_update (more.relink _) others other after
  | adds new free after => exact Stock.filled_update (Region.filled_nil new) filled free after
  | loses parts => exact fun x hx => filled x (parts.mem_iff.2 (List.mem_append_right _ hx))

/-- Regions that are filled by their blocks share none of them: they have no area in common. -/
theorem Sound.blocks_apart {c : Created} {b : Blocks} (h : st.Sound c) (filled : (st.stock b).Filled) :
    (st.living.flatMap fun p => (b p.1).map (·.stretch p.2)).Pairwise fun s t => s.overlaps t = false := by
  refine List.pairwise_flatMap.2 ⟨fun p hp => (filled p hp).apart, ?_⟩
  have areas := Living.pairwise_apart h.kept.areas (List.nodup_append.1 h.books.distinct).1
  refine areas.imp_of_mem fun {p q} hp hq apart s hs t ht => Stretch.overlaps_of_areas fun same => ?_
  obtain ⟨x, hx, rfl⟩ := List.mem_map.1 hs
  obtain ⟨y, hy, rfl⟩ := List.mem_map.1 ht
  have own := ((filled p hp).lie x hx).2.hasArea
  have other := ((filled q hq).lie y hy).2.hasArea
  exact apart _ own (same ▸ other)

/-- In every run from a store without regions, every block that a living region handed out starts at a whole
granule, lies inside the embedded area of its region or inside one of its segments, and shares no byte with another
block of any living region. A region counts the bytes of its blocks, which are those below its marks. -/
theorem blocks_apart_and_counted {segmentSize limit : Option Nat} {log : Option AllocationLog}
    {provider : Provider} {os : List (RawSupply × Operation)} {answers : List Answer}
    (made : Provider.create segmentSize limit = .ok provider)
    (ran : run { provider, log } os = .ok (st, answers)) :
    (st.living.map Prod.fst).Nodup ∧ (st.living.map fun p => p.2.area).Nodup ∧ st.living.numbers.Nodup ∧
    (∀ p ∈ st.living, ∀ b ∈ blocks os answers p.1,
      granule ∣ (b.stretch p.2).offset ∧ p.2.Contains (b.stretch p.2)) ∧
    ((st.living.flatMap fun p => (blocks os answers p.1).map (·.stretch p.2)).Pairwise fun s t =>
      s.overlaps t = false) ∧
    ∀ p ∈ st.living, p.2.bytesAllocated = ((blocks os answers p.1).map Block.size).sum ∧
      p.2.bytesAllocated = p.2.inlineUsed + p.2.chain.allocated := by
  have start : Sound (fun _ => []) { provider, log } := sound_new (Provider.accounts_create made)
  have sound := start.run ran
  have empty : Stock.Filled (stock { provider, log } fun _ => []) := by simp [stock, Stock.Filled]
  have filled : (st.stock (blocks os answers)).Filled :=
    (run_keeps (fun _ _ _ _ => Change.filled) start rfl empty ran).1
  refine ⟨sound.forest.names, sound.kept.areas, (List.nodup_append.1 sound.books.distinct).1, ?_,
    sound.blocks_apart filled, fun p hp => ⟨(filled p hp).total, (filled p hp).marks⟩⟩
  intro p hp b hb
  obtain ⟨aligned, lies⟩ := (filled p hp).lie b hb
  exact ⟨aligned, (filled p hp).marked.contains lies⟩

/-- The segment of a region inside another one is handed out to a third region when the inner one is reset: the
new block starts where the lost one did, and shares no byte with those that are still there. -/
theorem blocks_apart_in_segment_used_again : ∃ (os : List (RawSupply × Operation)) (st : RegionStore)
    (answers : List Answer),
    os.map Prod.snd = [.make "outer" none none 0, .allocate "outer" 20 none, .nest "outer" "inner" "outer" none,
      .create "inner" ⟨2, 8, 8⟩ none, .tryAllocate "inner" 5000 none, .make "other" none none 0,
      .allocate "other" 70000 none, .reset "inner" "outer", .tryAllocate "other" 100 none,
      .tryAllocate "inner" 40 none] ∧
    run { provider := {} } os = .ok (st, answers) ∧
    (st.living.flatMap fun p => (blocks os answers p.1).map (·.stretch p.2)) =
      [⟨.segment 1, 0, 112⟩, ⟨.segment 2, 0, 70000⟩, ⟨.embedded 3, 0, 48⟩, ⟨.segment 0, 0, 4240⟩,
        ⟨.embedded 0, 0, 32⟩] ∧
    ((st.living.flatMap fun p => (blocks os answers p.1).map (·.stretch p.2)).Pairwise fun s t =>
      s.overlaps t = false) ∧
    (∀ p ∈ st.living, ∀ b ∈ blocks os answers p.1,
      granule ∣ (b.stretch p.2).offset ∧ p.2.Contains (b.stretch p.2)) ∧
    ∀ p ∈ st.living, p.2.bytesAllocated = ((blocks os answers p.1).map Block.size).sum ∧
      p.2.bytesAllocated = p.2.inlineUsed + p.2.chain.allocated := by
  let os : List Operation := [.make "outer" none none 0, .allocate "outer" 20 none,
    .nest "outer" "inner" "outer" none, .create "inner" ⟨2, 8, 8⟩ none, .tryAllocate "inner" 5000 none,
    .make "other" none none 0, .allocate "other" 70000 none, .reset "inner" "outer",
    .tryAllocate "other" 100 none, .tryAllocate "inner" 40 none]
  let steps : List (RawSupply × Operation) := os.map fun o => (fun _ => true, o)
  have facts : ∃ s ∈ (run { provider := {} } steps).toOption,
      (s.1.living.flatMap fun p => (blocks steps s.2 p.1).map (·.stretch p.2)) =
        [⟨.segment 1, 0, 112⟩, ⟨.segment 2, 0, 70000⟩, ⟨.embedded 3, 0, 48⟩, ⟨.segment 0, 0, 4240⟩,
          ⟨.embedded 0, 0, 32⟩] := by
    decide +kernel
  obtain ⟨s, ran, stretches⟩ := facts
  rw [mem_toOption] at ran
  have made : Provider.create none none = .ok {} := rfl
  obtain ⟨-, -, -, inside, apart, counted⟩ := blocks_apart_and_counted made ran
  exact ⟨steps, s.1, s.2, rfl, ran, stretches, apart, inside, counted⟩

end RegionStore

end FreeStore
