import Mathlib.Algebra.BigOperators.Group.List.Basic
import Mathlib.Algebra.Order.BigOperators.Group.List
import Mathlib.Algebra.Order.Group.Nat
import FreeStore.Proofs.SegmentsConserved
/-!
The cache is served by best fit.

A request is answered from the cache as long as a segment there is large enough, with the first of the smallest ones
that are (`Provider.BestFit`), and with a fresh segment otherwise. Whatever requests and releases went before
(`Provider.Reached`), no counter overflows: every segment that is out or cached took at least one byte of what the raw
allocator supplied, and that is less than 2^64 in total. So a request always gets an answer, which is the one told
here (`request_serves`), and a region never gets a segment that is too short for the block it is for.
-/
namespace FreeStore

/-- The raw allocator, which supplied `held` bytes so far, supplies less than 2^64 in total. It takes one byte for a
segment without bytes. -/
def RawSupply.Bounded (raw : RawSupply) (held : Nat) : Prop :=
  ∀ size, raw size = true → held + max 1 size < wordLimit

theorem roundToGranule_of_fits {bytes : Nat} (h : bytes + (granule - 1) < wordLimit) :
    roundToGranule bytes = .ok (roundUp bytes granule) := by
  rw [roundToGranule, Word.add_bind h, roundDown, roundUp, Nat.div_mul_self_eq_mod_sub_self]
  rfl

namespace Provider

variable {p q : Provider} {raw : RawSupply} {required i k : Nat} {l rest : List Segment} {s t : Segment}
  {out left : List (Nat × Nat)}

/-! ## Best fit -/

/-- The segment at `i` is large enough, none that is so is smaller, and those in front of it are larger. -/
structure BestFit (required : Nat) (cached : List Segment) (i : Nat) (s : Segment) : Prop where
  here : cached[i]? = some s
  large : required ≤ s.size
  least : ∀ t ∈ cached, required ≤ t.size → s.size ≤ t.size
  first : ∀ j < i, ∀ t, cached[j]? = some t → required ≤ t.size → s.size < t.size

theorem BestFit.front (large : required ≤ s.size) (least : ∀ t ∈ rest, required ≤ t.size → s.size ≤ t.size) :
    BestFit required (s :: rest) 0 s where
  here := rfl
  large := large
  least := List.forall_mem_cons.2 ⟨fun _ => Nat.le_refl _, least⟩
  first j before := absurd before (Nat.not_lt_zero j)

theorem BestFit.behind (h : BestFit required rest i s) (larger : required ≤ t.size → s.size < t.size) :
    BestFit required (t :: rest) (i + 1) s where
  here := h.here
  large := h.large
  least := List.forall_mem_cons.2 ⟨fun fits => Nat.le_of_lt (larger fits), h.least⟩
  first j before u at_j fits := by
    cases j with
    | zero =>
      obtain rfl := Option.some_inj.1 at_j
      exact larger fits
    | succ j => exact h.first j (Nat.lt_of_succ_lt_succ before) u at_j fits

/-- There is only one best fit. -/
theorem BestFit.unique (h : BestFit required l i s) (g : BestFit required l k t) : i = k ∧ s = t := by
  rcases Nat.lt_trichotomy i k with before | rfl | after
  · have larger := g.first i before s h.here h.large
    have smaller := h.least t (List.mem_of_getElem? g.here) g.large
    omega
  · exact ⟨rfl, Option.some_inj.1 (h.here.symm.trans g.here)⟩
  · have larger := h.first k after t g.here g.large
    have smaller := g.least s (List.mem_of_getElem? h.here) h.large
    omega

theorem bestFit_eq_none (h : bestFit required k l = none) : ∀ t ∈ l, t.size < required := by
  induction l generalizing k with
  | nil => simp
  | cons s rest ih =>
    rw [bestFit] at h
    cases found : bestFit required (k + 1) rest with
    | none =>
      rw [found] at h
      refine List.forall_mem_cons.2 ⟨?_, ih found⟩
      by_contra fits
      simp [Nat.le_of_not_lt fits] at h
    | some best =>
      rw [found] at h
      dsimp only at h
      split at h <;> cases h

/-- The search finds the best fit. -/
theorem bestFit_fits {n : Nat} (h : bestFit required k l = some (n, s)) :
    ∃ i, n = k + i ∧ BestFit required l i s := by
  induction l generalizing k n s with
  | nil => cases h
  | cons t rest ih =>
    rw [bestFit] at h
    cases found : bestFit required (k + 1) rest with
    | none =>
      rw [found] at h
      dsimp only at h
      split at h
      · rename_i large
        obtain ⟨rfl, rfl⟩ := Prod.mk.inj (Option.some_inj.1 h)
        refine ⟨0, rfl, .front large fun u hu fits => ?_⟩
        exact absurd fits (Nat.not_le_of_lt (bestFit_eq_none found u hu))
      · rename_i small
        cases h
    | some best =>
      obtain ⟨m, best⟩ := best
      obtain ⟨i, rfl, fit⟩ := ih found
      rw [found] at h
      dsimp only at h
      split at h
      · rename_i better
        obtain ⟨large, smaller⟩ : required ≤ t.size ∧ t.size ≤ best.size := by simpa using better
        obtain ⟨rfl, rfl⟩ := Prod.mk.inj (Option.some_inj.1 h)
        exact ⟨0, rfl, .front large fun u hu fits => Nat.le_trans smaller (fit.least u hu fits)⟩
      · rename_i worse
        obtain ⟨rfl, rfl⟩ := Prod.mk.inj (Option.some_inj.1 h)
        refine ⟨i + 1, by omega, fit.behind fun large => ?_⟩
        by_contra smaller
        exact worse (by simpa [large] using smaller)

/-! ## What was supplied -/

/-- The bytes that the raw allocator supplied, for the segments that are out and the cached ones. -/
def drawn (p : Provider) (out : List (Nat × Nat)) : Nat :=
  ((out ++ p.cached.map Segment.label).map fun l => max 1 l.1).sum

/-- What is out and cached stays below 2^64, along with `n` bytes for other purposes. -/
theorem Hands.drawn_lt {n : Nat} (h : p.Hands raw s q) (bounded : raw.Bounded (p.drawn out + n))
    (small : p.drawn out + n < wordLimit) : q.drawn (s.label :: out) + n < wordLimit := by
  cases h with
  | @cached t cached parts =>
    have moved : (t.label :: out ++ cached.map Segment.label).Perm (out ++ p.cached.map Segment.label) :=
      List.perm_middle.symm.trans ((parts.map Segment.label).symm.append_left out)
    rw [drawn, ← (moved.map _).sum_nat] at small
    exact small
  | @fresh size supplied =>
    have more := bounded size supplied
    have whole : Provider.drawn
        { p with bytesAllocated := p.bytesAllocated + size, live := p.live + 1, fresh := p.fresh + 1 }
        (Segment.label { number := p.fresh, size } :: out) = max 1 size + p.drawn out := rfl
    rw [whole]
    omega

/-- A provider as requests and releases leave it, with the labels of the segments that are out: at each request the
raw allocator may answer anew. A segment that is released may have been used. -/
inductive Reached : Provider → List (Nat × Nat) → Prop
  | made {segmentSize limit : Option Nat} {p : Provider} (done : create segmentSize limit = .ok p) : Reached p []
  | handed {p q : Provider} {out : List (Nat × Nat)} {raw : RawSupply} {required : Nat} {s : Segment}
      (before : Reached p out) (bounded : raw.Bounded (p.drawn out))
      (done : p.request raw required = .ok (q, .ok s)) : Reached q (s.label :: out)
  | refused {p q : Provider} {out : List (Nat × Nat)} {raw : RawSupply} {required : Nat} {e : SegmentError}
      (before : Reached p out) (done : p.request raw required = .ok (q, .error e)) : Reached q out
  | released {p q : Provider} {out left : List (Nat × Nat)} {s : Segment} (before : Reached p out)
      (held : out.Perm (s.label :: left)) (done : p.release s = .ok q) : Reached q left

theorem Reached.backed (h : Reached p out) : (∃ sizes, p.Backed sizes out) ∧ p.drawn out < wordLimit := by
  induction h with
  | @made segmentSize limit p done =>
    refine ⟨⟨[], backed_create done⟩, ?_⟩
    have none : p.cached = [] := by
      have places := (backed_create done).places
      simpa using places
    simp [drawn, none, wordLimit]
  | handed _ bounded done ih =>
    obtain ⟨⟨sizes, backed⟩, small⟩ := ih
    have hands := request_hands done
    obtain ⟨new, more, -⟩ := backed.hands hands
    exact ⟨⟨_, more⟩, hands.drawn_lt (n := 0) bounded small⟩
  | refused _ done ih => exact request_refused done ▸ ih
  | @released p q out left s _ held done ih =>
    obtain ⟨⟨sizes, backed⟩, small⟩ := ih
    have one : p.releaseAll [s] = .ok q := by
      rw [releaseAll, List.foldlM_cons, done]
      rfl
    have held : p.Backed sizes ([s].map Segment.label ++ left) := backed.perm held
    have returned := (held.releaseAll one).1
    refine ⟨⟨sizes, returned⟩, ?_⟩
    have places : (left ++ q.cached.map Segment.label).Perm (out ++ p.cached.map Segment.label) :=
      returned.places.trans backed.places.symm
    rwa [drawn, (places.map _).sum_nat]

/-- Every segment that is out or cached took a byte, and all bytes counted were supplied. -/
theorem Backed.drawn_ge {sizes : List Nat} (h : p.Backed sizes out) :
    p.live + p.cached.length ≤ p.drawn out ∧ p.bytesAllocated ≤ p.drawn out := by
  constructor
  · have each : ∀ n ∈ (out ++ p.cached.map Segment.label).map fun l => max 1 l.1, 1 ≤ n := by
      intro n hn
      obtain ⟨l, -, rfl⟩ := List.mem_map.1 hn
      exact Nat.le_max_left 1 l.1
    have count := List.length_le_sum_of_one_le _ each
    rw [List.length_map, List.length_append, List.length_map] at count
    rwa [h.live, drawn]
  · have bytes : p.bytesAllocated = ((out ++ p.cached.map Segment.label).map Prod.fst).sum := by
      rw [h.bytes, (h.places.map Prod.fst).sum_nat, List.zipIdx_map_fst]
    rw [bytes, drawn]
    exact List.sum_le_sum fun l _ => Nat.le_max_right 1 l.1

/-! ## Requests -/

/-- The size of a fresh segment. -/
def freshSize (p : Provider) (required : Nat) : Nat := max (roundUp required granule) p.segmentSize

/-- The answer to a request that no cached segment is large enough for, if there is to be no fresh one. -/
def refusal (p : Provider) (size : Nat) : SegmentError :=
  if p.limit < min (p.bytesAllocated + size) maxWord then
    .limitExceeded (min (p.bytesAllocated + size) maxWord) p.limit
  else .outOfMemory size

theorem request_cached (found : bestFit required 0 p.cached = some (i, s)) (counts : p.live + 1 < wordLimit) :
    p.request raw required =
      .ok ({ p with cached := swapRemove p.cached i, live := p.live + 1 }, .ok s.rewind) := by
  simp only [request, found, Word.add_bind counts]
  rfl

theorem request_fresh {size : Nat} (none : bestFit required 0 p.cached = none)
    (fits : required + (granule - 1) < wordLimit) (fresh : size = p.freshSize required)
    (counts : p.live + 1 < wordLimit) (word : p.bytesAllocated + size < wordLimit)
    (allowed : p.bytesAllocated + size ≤ p.limit) (supplied : raw size = true) :
    p.request raw required =
      .ok ({ p with bytesAllocated := p.bytesAllocated + size, live := p.live + 1, fresh := p.fresh + 1 },
        .ok { number := p.fresh, size }) := by
  have within : ¬ p.limit < min (p.bytesAllocated + size) maxWord := by omega
  subst fresh
  simp only [freshSize] at *
  simp only [request, none, roundToGranule_of_fits fits, ok_bind, if_neg within, RawSupply.allocate, supplied,
    if_true, Word.add_bind word, Word.add_bind counts]
  rfl

/-- Without a fresh segment the provider stays as it is. -/
theorem request_none {size : Nat} (none : bestFit required 0 p.cached = none)
    (fits : required + (granule - 1) < wordLimit) (fresh : size = p.freshSize required)
    (bounded : raw size = true → p.bytesAllocated + size < wordLimit)
    (denied : p.limit < p.bytesAllocated + size ∨ raw size = false) :
    p.request raw required = .ok (p, .error (p.refusal size)) := by
  subst fresh
  simp only [freshSize] at *
  simp only [request, none, roundToGranule_of_fits fits, ok_bind, refusal]
  by_cases exceeded : p.limit < min (p.bytesAllocated + max (roundUp required granule) p.segmentSize) maxWord
  · simp only [if_pos exceeded]
    rfl
  · -- a sum that does not fit a word is beyond every limit, and the raw allocator refuses it
    have dry : raw (max (roundUp required granule) p.segmentSize) = false := by
      rcases denied with beyond | dry
      · rw [← Bool.not_eq_true]
        intro supplied
        have word := bounded supplied
        simp only [wordLimit] at word
        simp only [maxWord] at exceeded
        omega
      · exact dry
    simp only [if_neg exceeded, RawSupply.allocate, dry]
    rfl

/-- A segment that is handed out is blank, and large enough. -/
theorem request_large (done : p.request raw required = .ok (q, .ok s)) : s.allocated = 0 ∧ required ≤ s.size := by
  unfold request at done
  split at done
  · rename_i i t found
    obtain ⟨live, -, done⟩ := bind_eq_ok.1 done
    obtain ⟨-, rfl⟩ : _ ∧ _ := by simpa using Except.ok.inj done
    obtain ⟨j, -, fit⟩ := bestFit_fits found
    exact ⟨rfl, fit.large⟩
  · obtain ⟨rounded, whole, done⟩ := bind_eq_ok.1 done
    dsimp only at done
    split at done
    · cases done
    · split at done
      · cases done
      · obtain ⟨bytes, -, done⟩ := bind_eq_ok.1 done
        obtain ⟨live, -, done⟩ := bind_eq_ok.1 done
        obtain ⟨-, rfl⟩ : _ ∧ _ := by simpa using Except.ok.inj done
        obtain rfl := roundToGranule_eq_ok whole
        exact ⟨rfl, Nat.le_trans (le_roundUp (by decide)) (Nat.le_max_left _ _)⟩

end Provider

/-! ## Regions and their segments -/

section

variable {F : Fault → Prop}

theorem Word.add_ends {a b : Nat} (arithmetic : F .arithmetic) :
    Ends F (Word.add a b) fun n => a + b < wordLimit ∧ n = a + b := by
  unfold Word.add Word.fit
  split
  · exact ⟨‹_›, rfl⟩
  · exact arithmetic

theorem updateRecord_ends {token : Nat} {f : RegionRecord → Outcome RegionRecord} {records : List RegionRecord}
    (h : ∀ r ∈ records, Ends F (f r) fun _ => True) : Ends F (updateRecord token f records) fun _ => True := by
  induction records with
  | nil => trivial
  | cons r rest ih =>
    obtain ⟨first, others⟩ := List.forall_mem_cons.1 h
    rw [updateRecord]
    split
    · exact first.bind fun _ _ => trivial
    · exact (ih others).bind fun _ _ => trivial

theorem AllocationLog.allocated_ends {log : AllocationLog} {token bytes : Nat} {site : Site}
    (arithmetic : F .arithmetic) : Ends F (log.allocated token bytes site) fun _ => True := by
  have each : ∀ r ∈ log.live, Ends F (r.allocated log.collection site bytes) fun _ => True :=
    fun r _ => (Word.add_ends arithmetic).bind fun _ _ => trivial
  exact (updateRecord_ends each).bind fun _ _ => trivial

theorem Provider.request_ends {p : Provider} {raw : RawSupply} {required : Nat} (arithmetic : F .arithmetic) :
    Ends F (p.request raw required) fun _ => True := by
  unfold request
  split
  · exact (Word.add_ends arithmetic).bind fun _ _ => trivial
  · have rounds : Ends F (roundToGranule required) fun _ => True :=
      (Word.add_ends arithmetic).bind fun _ _ => trivial
    refine rounds.bind fun rounded _ => ?_
    dsimp only
    split
    · trivial
    · split
      · trivial
      · refine (Word.add_ends arithmetic).bind fun bytesAllocated _ => ?_
        exact (Word.add_ends arithmetic).bind fun live _ => trivial

variable {r : Region} {s : Segment} {size : Nat}

theorem Region.exists_placeWithin : ∃ placed, r.placeWithin size = .ok placed := by
  unfold placeWithin
  split
  · split
    · exact ⟨_, rfl⟩
    · exact ⟨_, rfl⟩
  · split
    · rename_i room
      exact ⟨_, by rw [Segment.bump, if_pos room]; rfl⟩
    · exact ⟨_, rfl⟩

theorem Region.exists_placeIn (room : size ≤ s.remaining) : ∃ placed, r.placeIn s size = .ok placed :=
  ⟨_, by rw [placeIn, if_pos room, Segment.bump, if_pos room]; rfl⟩

end

namespace RegionStore

variable {st st' : RegionStore} {raw : RawSupply} {name : String} {r : Region} {place : Place} {size : Nat}
  {site : Site} {s : Segment} {F : Fault → Prop}

/-- Only a total that does not fit a word can go wrong when a block is counted. -/
theorem handOut_ends (arithmetic : F .arithmetic) : Ends F (st.handOut name r place size site) fun _ => True := by
  refine (Word.add_ends arithmetic).bind fun bytesAllocated _ => ?_
  dsimp only
  split
  · trivial
  · split
    · exact (AllocationLog.allocated_ends arithmetic).bind fun _ _ => trivial
    · trivial

/-- A segment has room for the block that it is requested for. -/
theorem requestSegment_room (whole : st.leave = none) (done : st.requestSegment raw size = .ok (st', .ok s)) :
    size ≤ s.remaining := by
  obtain ⟨⟨provider, supplied⟩, requested, done⟩ := bind_eq_ok.1 done
  cases supplied with
  | error e => cases done
  | ok t =>
    obtain ⟨-, rfl⟩ : _ ∧ _ := by simpa using Except.ok.inj done
    have large := (Provider.request_large requested).2
    simpa [Segment.remaining, whole] using large

/-- A region that asks for a segment gets one that is large enough. -/
theorem placeBlock_ends (whole : st.leave = none) :
    Ends (fun f => ∀ m n, f ≠ .shortSegment m n) (st.placeBlock raw name size site) fun _ => True := by
  have found : Ends (fun f => ∀ m n, f ≠ .shortSegment m n) (st.find name) fun _ => True := by
    unfold find
    split
    · trivial
    · exact nofun
  refine found.bind fun r _ => ?_
  obtain ⟨placed, within⟩ : ∃ placed, r.placeWithin size = .ok placed := Region.exists_placeWithin
  rw [within, ok_bind]
  cases placed with
  | some placed => exact (handOut_ends nofun).bind fun _ _ => trivial
  | none =>
    have asked : Ends (fun f => ∀ m n, f ≠ .shortSegment m n) (st.requestSegment raw size) fun _ => True := by
      refine (Provider.request_ends nofun).bind fun answer _ => ?_
      obtain ⟨provider, supplied⟩ := answer
      cases supplied <;> trivial
    refine asked.and_eq.bind fun answer done => ?_
    obtain ⟨mid, supplied⟩ := answer
    cases supplied with
    | error e => trivial
    | ok s =>
      obtain ⟨placed, inside⟩ := r.exists_placeIn (requestSegment_room whole done.1)
      dsimp only
      rw [inside, ok_bind]
      exact (handOut_ends nofun).bind fun _ _ => trivial

end RegionStore

/-! ## The answer to every request -/

namespace Provider

/-- Whatever requests and releases went before, a request is answered. If a segment in the cache is large enough, the
answer is the first of the smallest ones that are: it leaves the cache, blank, and the others stay. If none is, the
answer is a fresh segment of at least `segmentSize` bytes, as long as the limit allows that and the raw allocator
supplies it, and the provider stays as it is otherwise. So whoever gets a segment has room for what was required, as a
region has that asks for one. -/
theorem request_serves {p : Provider} {raw : RawSupply} {required : Nat} {out : List (Nat × Nat)}
    (reached : p.Reached out) (bounded : raw.Bounded (p.drawn out))
    (fits : required + (granule - 1) < wordLimit) :
    ((∃ t ∈ p.cached, required ≤ t.size) → ∃ i s, BestFit required p.cached i s ∧
      p.cached.Perm (s :: swapRemove p.cached i) ∧ s.rewind.remaining = s.size ∧ p.request raw required =
        .ok ({ p with cached := swapRemove p.cached i, live := p.live + 1 }, .ok s.rewind)) ∧
    ((∀ t ∈ p.cached, t.size < required) → ∃ size, size = max (roundUp required granule) p.segmentSize ∧
      (p.bytesAllocated + size ≤ p.limit ∧ raw size = true →
        p.fresh ∉ (out ++ p.cached.map Segment.label).map Prod.snd ∧ p.request raw required =
          .ok ({ p with bytesAllocated := p.bytesAllocated + size, live := p.live + 1, fresh := p.fresh + 1 },
            .ok { number := p.fresh, size })) ∧
      (p.limit < p.bytesAllocated + size ∨ raw size = false →
        p.request raw required = .ok (p, .error (p.refusal size)))) ∧
    (∀ q s, p.request raw required = .ok (q, .ok s) → required ≤ s.remaining) ∧
    ∀ st : RegionStore, st.provider = p → st.leave = none → ∀ name site m n,
      st.placeBlock raw name required site ≠ .error (.shortSegment m n) := by
  obtain ⟨⟨sizes, backed⟩, small⟩ := reached.backed
  obtain ⟨counts, bytes⟩ := backed.drawn_ge
  refine ⟨?_, ?_, ?_, ?_⟩
  · rintro ⟨t, ht, large⟩
    have some := List.length_pos_of_mem ht
    cases found : bestFit required 0 p.cached with
    | none => exact absurd large (Nat.not_le_of_lt (bestFit_eq_none found t ht))
    | some best =>
      obtain ⟨i, s⟩ := best
      obtain ⟨j, here, fit⟩ := bestFit_fits found
      obtain rfl : i = j := by omega
      exact ⟨i, s, fit, perm_swapRemove fit.here, rfl, request_cached found (by omega)⟩
  · intro short
    have none : bestFit required 0 p.cached = none := by
      cases found : bestFit required 0 p.cached with
      | none => rfl
      | some best =>
        obtain ⟨j, -, fit⟩ := bestFit_fits found
        exact absurd fit.large (Nat.not_le_of_lt (short _ (List.mem_of_getElem? fit.here)))
    refine ⟨_, rfl, ?_, ?_⟩
    · rintro ⟨allowed, supplied⟩
      have word := bounded _ supplied
      refine ⟨fun known => ?_, request_fresh none fits rfl (by omega) (by omega) allowed supplied⟩
      obtain ⟨l, hl, number⟩ := List.mem_map.1 known
      have below := List.snd_lt_of_mem_zipIdx (backed.places.mem_iff.1 hl)
      rw [number, backed.obtained] at below
      omega
    · refine request_none none fits rfl fun supplied => ?_
      have word := bounded _ supplied
      omega
  · intro q s done
    obtain ⟨blank, large⟩ := request_large done
    rwa [Segment.remaining, blank, Nat.sub_zero]
  · rintro st rfl whole name site m n ended
    exact (RegionStore.placeBlock_ends whole).of_error ended m n rfl

/-- Three segments were released, two of them of the same size. The smaller ones fit a request of 90 bytes, and the
first of them is handed out; for 300 bytes there is a fresh segment, and for 600 the limit is too low. -/
theorem request_serves_first_of_equals : ∃ (p : Provider) (raw : RawSupply),
    p.Reached [] ∧ raw.Bounded (p.drawn []) ∧ 90 + (granule - 1) < wordLimit ∧
    p.cached = [⟨1, 208, 0⟩, ⟨2, 112, 0⟩, ⟨0, 112, 0⟩] ∧ BestFit 90 p.cached 1 ⟨2, 112, 0⟩ ∧
    (∃ q, p.request raw 90 = .ok (q, .ok ⟨2, 112, 0⟩) ∧ q.cached = [⟨1, 208, 0⟩, ⟨0, 112, 0⟩] ∧
      q.bytesAllocated = p.bytesAllocated) ∧
    (∃ q, p.request raw 300 = .ok (q, .ok ⟨3, 304, 0⟩) ∧ q.bytesAllocated = p.bytesAllocated + 304) ∧
    p.request raw 600 = .ok (p, .error (.limitExceeded 1040 1000)) := by
  let raw : RawSupply := fun size => size < 1000
  have bounded : ∀ held < 1000, raw.Bounded held := by
    intro held few size supplied
    have small : size < 1000 := of_decide_eq_true supplied
    simp only [wordLimit]
    omega
  let blank : Provider := { segmentSize := 64, limit := 1000 }
  let p : Provider :=
    { blank with bytesAllocated := 432, cached := [⟨1, 208, 0⟩, ⟨2, 112, 0⟩, ⟨0, 112, 0⟩], fresh := 3 }
  have start : blank.Reached [] := @Reached.made (some 50) (some 1000) blank rfl
  have handed : Reached { blank with bytesAllocated := 432, live := 3, fresh := 3 }
      [(112, 2), (208, 1), (112, 0)] := by
    have first : blank.request raw 100 = .ok (_, .ok ⟨0, 112, 0⟩) := rfl
    have second : Provider.request raw { blank with bytesAllocated := 112, live := 1, fresh := 1 } 200 =
      .ok (_, .ok ⟨1, 208, 0⟩) := rfl
    have third : Provider.request raw { blank with bytesAllocated := 320, live := 2, fresh := 2 } 100 =
      .ok (_, .ok ⟨2, 112, 0⟩) := rfl
    have one := start.handed (bounded _ (by decide)) first
    have two := one.handed (bounded _ (by decide)) second
    exact two.handed (bounded _ (by decide)) third
  have reached : p.Reached [] := by
    have used := handed.released (s := ⟨1, 208, 48⟩) (List.Perm.swap ..) rfl
    have others := used.released (s := ⟨2, 112, 0⟩) (.refl _) rfl
    exact others.released (s := ⟨0, 112, 112⟩) (.refl _) rfl
  have total := bounded (p.drawn []) (by decide)
  obtain ⟨cached, -, -, -⟩ := request_serves reached total (show 90 + (granule - 1) < wordLimit by decide)
  obtain ⟨-, fresh, -, -⟩ := request_serves reached total (show 300 + (granule - 1) < wordLimit by decide)
  obtain ⟨-, denied, -, -⟩ := request_serves reached total (show 600 + (granule - 1) < wordLimit by decide)
  obtain ⟨i, s, fit, -, -, answer⟩ := cached (by decide)
  obtain ⟨size, rfl, supplied, -⟩ := fresh (by decide)
  obtain ⟨size, rfl, -, limited⟩ := denied (by decide)
  obtain ⟨-, more⟩ := supplied (by decide)
  obtain ⟨j, here, found⟩ := bestFit_fits (l := p.cached)
    (show bestFit 90 0 p.cached = some (1, ⟨2, 112, 0⟩) from rfl)
  obtain rfl : 1 = j := by omega
  obtain ⟨rfl, rfl⟩ := fit.unique found
  have refusal : p.refusal (max (roundUp 600 granule) p.segmentSize) = .limitExceeded 1040 1000 := by decide
  exact ⟨p, raw, reached, total, by decide, rfl, fit, ⟨_, answer, rfl, rfl⟩, ⟨_, more, rfl⟩,
    refusal ▸ limited (by decide)⟩

end Provider

end FreeStore
