import FreeStore.Proofs.Sound
/-!
Room for the running counts.

A pool counts what it hands out and what it loses, and takes none of it back, so a count may outgrow the words in
the end. `RoomToServe` is the room that handing out one block takes. For a whole request it is enough that every
count has room for the bytes that are free (`HasRoom`). A byte that is counted is no longer free, so what a search
loses on its way leaves that room as it is (`HasRoom.of_spends`), and what is put in meanwhile takes as much of it
as it has bytes (`HasRoom.of_grows`). The estimate of a pending realignment is another matter: each insertion may
add all free bytes to it.
-/
namespace FreeStore

namespace Histogram

variable {h : Histogram} {size free : Nat}

/-- All numbers of the table. -/
def counts (h : Histogram) : List Nat := h.tallies.flatMap fun t => [t.count, t.bytes]

instance : Decidable (h.RoomFor size) :=
  decidable_of_iff ((h.tally (sizeClass size)).count + 1 < wordLimit ∧
      (h.tally (sizeClass size)).bytes + size < wordLimit)
    ⟨fun ⟨count, bytes⟩ => ⟨count, bytes⟩, fun h => ⟨h.1, h.2⟩⟩

/-- If every number has room for the bytes that are free, a size of no more than that can be recorded. -/
theorem roomFor_of_counts (room : ∀ c ∈ h.counts, c + free < wordLimit) (some : 0 < free)
    (word : free < wordLimit) (fits : size ≤ free) : h.RoomFor size := by
  have kept : ∀ t ∈ h.tallies, t.count + free < wordLimit ∧ t.bytes + free < wordLimit := fun t ht =>
    ⟨room _ (List.mem_flatMap.2 ⟨t, ht, by simp⟩), room _ (List.mem_flatMap.2 ⟨t, ht, by simp⟩)⟩
  have inside : (h.tally (sizeClass size)).count + free < wordLimit ∧
      (h.tally (sizeClass size)).bytes + free < wordLimit := by
    rw [tally, List.getD_eq_getElem?_getD]
    cases found : h.tallies[sizeClass size]? with
    | none => simpa using word
    | some t => exact kept t (List.mem_of_getElem? found)
  constructor <;> omega

end Histogram

namespace Pool

variable {p q r : Pool} {sizes : Histogram} {e : Entry} {bytes given insertions taken steps : Nat} {record : Bool}
  {s : Range} {rs ss : List Range}

/-- The bytes of some ranges. -/
def totalBytes (rs : List Range) : Nat := FreeList.bytes (rs.map Entry.ofRange)

theorem totalBytes_cons : totalBytes (s :: rs) = s.high - s.low + totalBytes rs := rfl

theorem totalBytes_append : totalBytes (rs ++ ss) = totalBytes rs + totalBytes ss := by
  rw [totalBytes, List.map_append, FreeList.bytes_append]
  rfl

/-- The running counts of a pool, but for the estimate of a pending realignment. -/
def counts (p : Pool) : List Nat :=
  [p.stats.allocCount, p.stats.allocBytes, p.stats.searchCount, p.stats.discardedBytes,
    p.stats.darkMatterBytes] ++ p.large.objects.counts ++ p.large.tlhs.counts

theorem forall_counts {P : Nat → Prop} : (∀ c ∈ p.counts, P c) ↔ P p.stats.allocCount ∧
    P p.stats.allocBytes ∧ P p.stats.searchCount ∧ P p.stats.discardedBytes ∧
    P p.stats.darkMatterBytes ∧ (∀ c ∈ p.large.objects.counts, P c) ∧ ∀ c ∈ p.large.tlhs.counts, P c := by
  simp only [counts, List.forall_mem_append, List.forall_mem_cons, List.not_mem_nil, false_implies,
    implies_true, and_true, and_assoc]

/-- No count outgrows the words if `taken` bytes are taken off the front of an entry that was found after `steps`
others, its rest is discarded where it is too small, and the block is entered in `sizes` if it is recorded. -/
structure RoomToServe (p : Pool) (sizes : Histogram) (e : Entry) (taken steps : Nat) (record : Bool) :
    Prop where
  count : p.stats.allocCount + 1 < wordLimit
  bytes : p.stats.allocBytes + taken < wordLimit
  search : p.stats.searchCount + steps < wordLimit
  rest : e.size - taken < p.config.minEntry → p.stats.discardedBytes + (e.size - taken) < wordLimit
  recorded : record = true → sizes.RoomFor taken

instance : Decidable (p.RoomToServe sizes e taken steps record) :=
  decidable_of_iff (p.stats.allocCount + 1 < wordLimit ∧ p.stats.allocBytes + taken < wordLimit ∧
      p.stats.searchCount + steps < wordLimit ∧
      (e.size - taken < p.config.minEntry → p.stats.discardedBytes + (e.size - taken) < wordLimit) ∧
      (record = true → sizes.RoomFor taken))
    ⟨fun ⟨count, bytes, search, rest, recorded⟩ => ⟨count, bytes, search, rest, recorded⟩,
      fun h => ⟨h.1, h.2, h.3, h.4, h.5⟩⟩

theorem RoomToServe.of_eq (room : p.RoomToServe sizes e taken steps record) (stats : q.stats = p.stats)
    (config : q.config = p.config) : q.RoomToServe sizes e taken steps record := by
  obtain ⟨count, bytes, search, rest, recorded⟩ := room
  rw [← stats] at count bytes search rest
  rw [← config] at rest
  exact ⟨count, bytes, search, rest, recorded⟩

/-- Every count has room for the bytes that are free and `bytes` more, the estimate for that many with each of the
insertions. -/
structure HasRoom (p : Pool) (bytes insertions : Nat) : Prop where
  counts : ∀ c ∈ p.counts, c + (p.freeBytes + bytes) < wordLimit
  estimate : p.pendingLoss + insertions * (p.freeBytes + bytes) < wordLimit

/-- Where there is too little room, one of the numbers is close to the end of the words. -/
theorem not_hasRoom : ¬ p.HasRoom bytes insertions ↔
    (∃ c ∈ p.counts, wordLimit ≤ c + (p.freeBytes + bytes)) ∨
      wordLimit ≤ p.pendingLoss + insertions * (p.freeBytes + bytes) := by
  constructor
  · intro tight
    refine Decidable.by_contra fun low => tight ?_
    obtain ⟨counts, estimate⟩ := not_or.1 low
    exact ⟨fun c hc => Nat.lt_of_not_le fun full => counts ⟨c, hc, full⟩, Nat.lt_of_not_le estimate⟩
  · rintro (⟨c, hc, full⟩ | full) room
    · exact Nat.not_le_of_lt (room.counts c hc) full
    · exact Nat.not_le_of_lt room.estimate full

/-- Bytes that were free are lost, and nothing else was counted. -/
structure Spends (p q : Pool) : Prop where
  free : q.freeBytes ≤ p.freeBytes
  estimate : q.pendingLoss ≤ p.pendingLoss
  discarded : q.stats.discardedBytes + q.freeBytes ≤ p.stats.discardedBytes + p.freeBytes
  dark : q.stats.darkMatterBytes + q.freeBytes ≤ p.stats.darkMatterBytes + p.freeBytes
  served : q.stats.allocCount = p.stats.allocCount ∧ q.stats.allocBytes = p.stats.allocBytes ∧
    q.stats.searchCount = p.stats.searchCount
  sizes : q.large.objects = p.large.objects ∧ q.large.tlhs = p.large.tlhs

/-- At most `given` bytes went in by one insertion, and nothing but the estimate counts them. -/
structure Grows (p : Pool) (given : Nat) (q : Pool) : Prop where
  free : q.freeBytes ≤ p.freeBytes + given
  estimate : q.pendingLoss ≤ p.pendingLoss + (p.freeBytes + given)
  stats : q.stats = p.stats
  sizes : q.large.objects = p.large.objects ∧ q.large.tlhs = p.large.tlhs

/-- Neither the list nor the free entry histogram is a running count. -/
theorem Spends.of_eq (free : q.freeBytes = p.freeBytes) (estimate : q.pendingLoss = p.pendingLoss)
    (stats : q.stats = p.stats) (objects : q.large.objects = p.large.objects)
    (tlhs : q.large.tlhs = p.large.tlhs) : p.Spends q := by
  refine ⟨free.le, estimate.le, ?_, ?_, by rw [stats]; exact ⟨rfl, rfl, rfl⟩, objects, tlhs⟩
  · rw [stats, free]
  · rw [stats, free]

theorem Spends.refl (p : Pool) : p.Spends p := .of_eq rfl rfl rfl rfl rfl

theorem Spends.trans (h : p.Spends q) (g : q.Spends r) : p.Spends r := by
  obtain ⟨count, handed, search⟩ := g.served
  refine ⟨Nat.le_trans g.free h.free, Nat.le_trans g.estimate h.estimate,
    Nat.le_trans g.discarded h.discarded, Nat.le_trans g.dark h.dark, ?_,
    g.sizes.1.trans h.sizes.1, g.sizes.2.trans h.sizes.2⟩
  exact ⟨count.trans h.served.1, handed.trans h.served.2.1, search.trans h.served.2.2⟩

theorem HasRoom.of_spends (room : p.HasRoom bytes insertions) (spent : p.Spends q) :
    q.HasRoom bytes insertions := by
  obtain ⟨count, handed, search, discarded, dark, objects, tlhs⟩ := forall_counts.1 room.counts
  obtain ⟨sameCount, sameHanded, sameSearch⟩ := spent.served
  have free := spent.free
  have lost := spent.discarded
  have darker := spent.dark
  refine ⟨forall_counts.2 ⟨by omega, by omega, by omega, by omega, by omega, ?_, ?_⟩, ?_⟩
  · rw [spent.sizes.1]
    intro c hc
    have := objects c hc
    omega
  · rw [spent.sizes.2]
    intro c hc
    have := tlhs c hc
    omega
  · have fewer := Nat.mul_le_mul_left insertions (Nat.add_le_add_right free bytes)
    have estimate := spent.estimate
    have := room.estimate
    omega

/-- Room for more is room for what is free. -/
theorem HasRoom.forFree (room : p.HasRoom bytes insertions) : p.HasRoom 0 0 := by
  refine ⟨fun c hc => ?_, ?_⟩
  · have := room.counts c hc
    omega
  · have := room.estimate
    omega

theorem HasRoom.of_grows (room : p.HasRoom (given + bytes) (insertions + 1)) (grown : p.Grows given q) :
    q.HasRoom bytes insertions := by
  obtain ⟨count, handed, search, discarded, dark, objects, tlhs⟩ := forall_counts.1 room.counts
  have free := grown.free
  refine ⟨forall_counts.2 ?_, ?_⟩
  · rw [grown.stats, grown.sizes.1, grown.sizes.2]
    refine ⟨by omega, by omega, by omega, by omega, by omega, fun c hc => ?_, fun c hc => ?_⟩
    · have := objects c hc
      omega
    · have := tlhs c hc
      omega
  · have more : q.freeBytes + bytes ≤ p.freeBytes + (given + bytes) := by omega
    have fewer := Nat.mul_le_mul_left insertions more
    have whole := room.estimate
    rw [Nat.succ_mul] at whole
    have estimate := grown.estimate
    omega

/-- The estimate has room for one insertion. -/
theorem HasRoom.noted (room : p.HasRoom bytes (insertions + 1)) :
    p.pendingLoss + (p.freeBytes + bytes) < wordLimit := by
  have whole := room.estimate
  rw [Nat.succ_mul] at whole
  omega

theorem HasRoom.discarded (room : p.HasRoom bytes insertions) :
    p.stats.discardedBytes + p.freeBytes < wordLimit := by
  obtain ⟨-, -, -, discarded, -⟩ := forall_counts.1 room.counts
  omega

theorem HasRoom.dark (room : p.HasRoom bytes insertions) :
    p.stats.darkMatterBytes + p.freeBytes < wordLimit := by
  obtain ⟨-, -, -, -, dark, -⟩ := forall_counts.1 room.counts
  omega

/-- Where a search led past no more entries than there were free bytes, there is room for what it found. -/
theorem HasRoom.toServe (room : p.HasRoom bytes insertions) (spent : p.Spends q) (h : q.Sound)
    (he : e ∈ q.entries) (fits : taken ≤ e.size) (few : steps ≤ p.freeBytes)
    (entered : sizes = q.large.objects ∨ sizes = q.large.tlhs) :
    q.RoomToServe sizes e taken steps record := by
  obtain ⟨count, handed, search, discarded, -, objects, tlhs⟩ := forall_counts.1 (room.of_spends spent).counts
  have positive := h.size_pos he
  have size := h.size_le he
  have same := spent.served.2.2
  obtain ⟨-, -, before, -⟩ := forall_counts.1 room.counts
  refine ⟨by omega, by omega, by omega, fun _ => by omega, fun _ => ?_⟩
  have recorded : ∀ c ∈ sizes.counts, c + (q.freeBytes + bytes) < wordLimit := by
    rcases entered with rfl | rfl
    · exact objects
    · exact tlhs
  exact Histogram.roomFor_of_counts recorded (by omega) (by omega) (by omega)

end Pool

end FreeStore
