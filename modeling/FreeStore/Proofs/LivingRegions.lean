import Mathlib.Data.List.Nodup
import Mathlib.Logic.Function.Basic
import FreeStore.Proofs.Supply
import FreeStore.Proofs.Threading
/-!
Living regions keep what was created in them.

No two living regions share an area: their embedded areas are different, and the segments of their chains
are different ones of those that the provider has out (`Living.apart`). So what is placed in one region lies
apart from the instances of all others, and they keep what was created in them (`Kept`). A region grows by a
block that is placed at the mark of one of its areas (`Region.Grows`); with that, or with an instance written
into the block, everything is kept (`Kept.handOut`, `Kept.write`). The order of the living regions does not
matter, so a proof may take the region it is about to the front.
-/
namespace FreeStore

/-- What was created in each region since it was made or last reset, newest first. -/
abbrev Created := String → List Item

namespace Living

variable {name : String} {r q : Region} {l rest : Living}

theorem perm_of_takeOut (h : takeOut name l = some (r, rest)) : l.Perm ((name, r) :: rest) := by
  induction l generalizing rest with
  | nil => cases h
  | cons p l ih =>
    obtain ⟨n, first⟩ := p
    rw [takeOut] at h
    split at h
    · rename_i same
      obtain ⟨rfl, rfl⟩ := Prod.mk.inj (Option.some_inj.1 h)
      rw [same]
    · obtain ⟨⟨found, rest'⟩, taken, same⟩ := Option.map_eq_some_iff.1 h
      obtain ⟨rfl, rfl⟩ := Prod.mk.inj same
      exact ((ih taken).cons _).trans (List.Perm.swap ..)

theorem exists_takeOut_of_mem (h : name ∈ l.map Prod.fst) : ∃ r rest, takeOut name l = some (r, rest) := by
  induction l with
  | nil => cases h
  | cons p l ih =>
    obtain ⟨n, first⟩ := p
    rw [takeOut]
    split
    · exact ⟨first, l, rfl⟩
    · rename_i other
      rcases List.mem_cons.1 h with same | later
      · exact absurd same.symm other
      · obtain ⟨r, rest, found⟩ := ih later
        exact ⟨r, (n, first) :: rest, by rw [found]; rfl⟩

/-- The region of a name, with the others. -/
theorem exists_takeOut_of_lookup (h : l.lookup name = some r) : ∃ rest, takeOut name l = some (r, rest) := by
  induction l with
  | nil => cases h
  | cons p l ih =>
    obtain ⟨n, first⟩ := p
    rw [List.lookup_cons] at h
    rw [takeOut]
    split at h
    · rename_i same
      obtain rfl := Option.some_inj.1 h
      exact ⟨l, by rw [if_pos (beq_iff_eq.1 same).symm]⟩
    · rename_i other
      obtain ⟨rest, found⟩ := ih h
      have different : ¬ n = name := fun same => beq_eq_false_iff_ne.1 other same.symm
      exact ⟨(n, first) :: rest, by rw [if_neg different, found]; rfl⟩

theorem not_mem_of_lookup (h : (l.lookup name).isNone = true) : name ∉ l.map Prod.fst := by
  intro taken
  obtain ⟨p, hp, same⟩ := List.mem_map.1 taken
  rw [Option.isNone_iff_eq_none, List.lookup_eq_none_iff] at h
  have := h p hp
  simp [same] at this

theorem mem_of_lookup (h : l.lookup name = some r) : name ∈ l.map Prod.fst := by
  obtain ⟨rest, taken⟩ := exists_takeOut_of_lookup h
  exact ((perm_of_takeOut taken).map Prod.fst).mem_iff.2 List.mem_cons_self

theorem exists_lookup_of_mem (h : name ∈ l.map Prod.fst) : ∃ r, l.lookup name = some r := by
  cases found : l.lookup name with
  | none => exact absurd h (not_mem_of_lookup (by rw [found]; rfl))
  | some r => exact ⟨r, rfl⟩

theorem ne_of_not_mem {p : String × Region} (h : name ∉ l.map Prod.fst) (hp : p ∈ l) : p.1 ≠ name := by
  rintro rfl
  exact h (List.mem_map_of_mem hp)

/-- The region in front is left if it is not gone. -/
theorem exists_rest_of_not_mem {gone left : Living} (h : name ∉ gone.map Prod.fst)
    (parts : ((name, q) :: l).Perm (gone ++ left)) :
    ∃ others, left.Perm ((name, q) :: others) ∧ l.Perm (gone ++ others) := by
  have stays : (name, q) ∈ left := by
    rcases List.mem_append.1 (parts.mem_iff.1 List.mem_cons_self) with this | this
    · exact absurd (List.mem_map_of_mem this) h
    · exact this
  obtain ⟨before, after, rfl⟩ := List.append_of_mem stays
  refine ⟨before ++ after, List.perm_middle, ?_⟩
  apply List.Perm.cons_inv (a := (name, q))
  refine parts.trans ((List.perm_middle.append_left gone).trans ?_)
  exact List.perm_middle

theorem lookup_put (h : l.lookup name = some r) : (put name q l).lookup name = some q := by
  induction l with
  | nil => cases h
  | cons p l ih =>
    rw [put, List.map_cons, List.lookup_cons]
    rw [List.lookup_cons] at h
    by_cases same : p.1 = name
    · simp [same]
    · have different : (name == p.1) = false := beq_eq_false_iff_ne.2 (Ne.symm same)
      rw [different] at h
      rw [if_neg same, different]
      exact ih h

theorem map_fst_put : (put name q l).map Prod.fst = l.map Prod.fst := by
  simp only [put, List.map_map]
  refine List.map_congr_left fun p _ => ?_
  by_cases same : p.1 = name <;> simp [same]

theorem put_put : put name q (put name r l) = put name q l := by
  simp only [put, List.map_map]
  refine List.map_congr_left fun p _ => ?_
  by_cases same : p.1 = name <;> simp [same]

theorem put_of_not_mem (h : name ∉ l.map Prod.fst) : put name q l = l := by
  induction l with
  | nil => rfl
  | cons p l ih =>
    simp only [List.map_cons, List.mem_cons, not_or] at h
    obtain ⟨first, others⟩ := h
    have rest : l.map (fun p => if p.1 = name then (name, q) else p) = l := ih others
    rw [put, List.map_cons, rest, if_neg (Ne.symm first)]

/-- Replacing a region leaves the others. -/
theorem perm_put (names : (l.map Prod.fst).Nodup) (h : takeOut name l = some (r, rest)) :
    (put name q l).Perm ((name, q) :: rest) := by
  induction l generalizing rest with
  | nil => cases h
  | cons p l ih =>
    obtain ⟨n, first⟩ := p
    obtain ⟨fresh, names⟩ := List.nodup_cons.1 names
    rw [takeOut] at h
    split at h
    · rename_i same
      obtain ⟨rfl, rfl⟩ := Prod.mk.inj (Option.some_inj.1 h)
      subst same
      have others : put n q l = l := put_of_not_mem fresh
      rw [put] at others
      rw [put, List.map_cons, if_pos rfl, others]
    · rename_i other
      obtain ⟨⟨found, rest'⟩, taken, same⟩ := Option.map_eq_some_iff.1 h
      obtain ⟨rfl, rfl⟩ := Prod.mk.inj same
      rw [put, List.map_cons, if_neg other]
      exact ((ih names taken).cons _).trans (List.Perm.swap ..)

/-- A region may be taken to the front, and changed there. -/
theorem exists_front (names : (l.map Prod.fst).Nodup) (h : l.lookup name = some r) :
    ∃ rest : Living, l.Perm ((name, r) :: rest) ∧ ∀ q, (put name q l).Perm ((name, q) :: rest) := by
  obtain ⟨rest, taken⟩ := exists_takeOut_of_lookup h
  exact ⟨rest, perm_of_takeOut taken, fun q => perm_put names taken⟩

end Living

/-! ## What regions keep -/

namespace Region

/-- The numbers of the segments in the chain. -/
def numbers (r : Region) : List Nat := r.chain.map Segment.number

/-- The region has the area `fresh` and nothing in it. -/
structure IsNew (r : Region) (fresh : Nat) : Prop where
  area : r.area = fresh
  chain : r.chain = []
  segments : r.segments = 0
  last : r.last = none
  unused : r.inlineUsed = 0
  uncounted : r.bytesAllocated = 0

end Region

/-- The numbers of the segments that the living regions hold. -/
def Living.numbers (l : Living) : List Nat := l.flatMap fun p => p.2.numbers

/-- No two living regions have the same embedded area, and what was created in them is threaded through the
areas of each. -/
structure Kept (c : Created) (fresh : Nat) (m : Storage) (l : Living) : Prop where
  areas : (l.map fun p => p.2.area).Nodup
  made : ∀ p ∈ l, p.2.area < fresh
  counted : ∀ p ∈ l, p.2.segments = p.2.chain.length
  holds : ∀ p ∈ l, p.2.Holds m (c p.1)

/-- `q` is `r` after the block `s` was placed, where `provider'` is what the provider is then. -/
structure Region.Grows (r : Region) (provider : Provider) (s : Stretch) (q : Region)
    (provider' : Provider) : Prop where
  area : q.area = r.area
  last : q.last = r.last
  lies : ∀ t, r.Lies t → q.Lies t
  placed : q.Lies s
  apart : ∀ t, r.Lies t → t.overlaps s = false
  counted : q.segments = q.chain.length
  segments : ∀ out, provider.Accounts (r.numbers ++ out) → provider'.Accounts (q.numbers ++ out)

/-- How many bytes are counted does not matter. -/
theorem Region.Grows.counting {provider provider' : Provider} {r q : Region} {s : Stretch}
    (h : r.Grows provider s q provider') (bytesAllocated : Nat) :
    r.Grows provider s { q with bytesAllocated } provider' :=
  ⟨h.area, h.last, h.lies, h.placed, h.apart, h.counted, h.segments⟩

section

variable {c d : Created} {provider provider' : Provider} {fresh size : Nat} {m : Storage} {l k left : Living}
  {name : String} {r q : Region} {s : Stretch} {place : Place} {item : Item} {p : String × Region}

theorem Living.numbers_cons : Living.numbers ((name, r) :: l) = r.numbers ++ l.numbers := rfl

theorem Living.numbers_append : Living.numbers (l ++ k) = l.numbers ++ k.numbers := List.flatMap_append

theorem Living.perm_numbers (h : l.Perm k) : l.numbers.Perm k.numbers := h.flatMap_right _

theorem Kept.perm (h : Kept c fresh m l) (perm : l.Perm k) : Kept c fresh m k where
  areas := (perm.map _).nodup_iff.1 h.areas
  made p hp := h.made p (perm.mem_iff.2 hp)
  counted p hp := h.counted p (perm.mem_iff.2 hp)
  holds p hp := h.holds p (perm.mem_iff.2 hp)

theorem Kept.later (h : Kept c fresh m l) : Kept c (fresh + 1) m l :=
  ⟨h.areas, fun p hp => Nat.lt_succ_of_lt (h.made p hp), h.counted, h.holds⟩

/-- Some of the regions keep what they hold. -/
theorem Kept.part (h : Kept c fresh m l) (parts : l.Perm (k ++ left)) : Kept c fresh m left where
  areas := by
    have whole := (h.perm parts).areas
    rw [List.map_append] at whole
    exact (List.nodup_append.1 whole).2.1
  made p hp := (h.perm parts).made p (List.mem_append_right _ hp)
  counted p hp := (h.perm parts).counted p (List.mem_append_right _ hp)
  holds p hp := (h.perm parts).holds p (List.mem_append_right _ hp)

/-- No two regions share an area. -/
theorem Living.pairwise_apart (areas : (l.map fun p => p.2.area).Nodup) (numbers : l.numbers.Nodup) :
    l.Pairwise fun p q => ∀ a, p.2.HasArea a → ¬ q.2.HasArea a := by
  refine (List.pairwise_map.1 areas).imp₂ ?_ (List.nodup_flatMap.1 numbers).2
  intro p q different disjoint a own other
  cases a with
  | embedded a => exact different (own.symm.trans other)
  | segment n => exact disjoint own other

/-- No other region has an area of the first one. -/
theorem Living.apart (areas : (((name, r) :: l).map fun p => p.2.area).Nodup)
    (books : provider.Accounts (Living.numbers ((name, r) :: l))) (hp : p ∈ l) {a : Area}
    (own : r.HasArea a) : ¬ p.2.HasArea a :=
  (List.pairwise_cons.1 (pairwise_apart areas (List.nodup_append.1 books.distinct).1)).1 p hp a own

/-- The block lies apart from what lies in other regions. -/
theorem Kept.apart_of_grows (h : Kept c fresh m ((name, r) :: l))
    (books : provider.Accounts (Living.numbers ((name, r) :: l))) (g : r.Grows provider s q provider')
    (hp : p ∈ l) {t : Stretch} (lies : p.2.Lies t) : t.overlaps s = false := by
  have areas : (((name, q) :: l).map fun p => p.2.area).Nodup := by
    simpa only [List.map_cons, g.area] using h.areas
  apply Stretch.overlaps_of_areas
  intro same
  exact Living.apart areas (g.segments _ books) hp g.placed.hasArea (same ▸ lies.hasArea)

/-- A block is handed out. -/
theorem Kept.handOut (h : Kept c fresh m ((name, r) :: l))
    (books : provider.Accounts (Living.numbers ((name, r) :: l))) (g : r.Grows provider s q provider') :
    Kept c fresh (m.handOut s) ((name, q) :: l) := by
  obtain ⟨own, others⟩ := List.forall_mem_cons.1 h.holds
  refine ⟨?_, ?_, ?_, List.forall_mem_cons.2 ⟨?_, fun p hp => ?_⟩⟩
  · simpa only [List.map_cons, g.area] using h.areas
  · simpa only [List.forall_mem_cons, g.area] using h.made
  · exact List.forall_mem_cons.2 ⟨g.counted, (List.forall_mem_cons.1 h.counted).2⟩
  · exact own.handOut g.area g.last g.lies g.apart
  · exact (others p hp).handOut rfl rfl (fun _ lies => lies) fun t => h.apart_of_grows books g hp

/-- An instance is written into a block that is handed out. -/
theorem Kept.write (h : Kept c fresh m ((name, r) :: l))
    (books : provider.Accounts (Living.numbers ((name, r) :: l)))
    (g : r.Grows provider (q.stretch place size) q provider') (some : 0 < size)
    (names : name ∉ l.map Prod.fst) :
    Kept (Function.update c name (item :: c name)) fresh
      (m.write ⟨q.stretch place size, q.last, item⟩) ((name, { q with last := .some place }) :: l) := by
  obtain ⟨own, others⟩ := List.forall_mem_cons.1 h.holds
  refine ⟨?_, ?_, ?_, List.forall_mem_cons.2 ⟨?_, fun p hp => ?_⟩⟩
  · simpa only [List.map_cons, g.area] using h.areas
  · simpa only [List.forall_mem_cons, g.area] using h.made
  · exact List.forall_mem_cons.2 ⟨g.counted, (List.forall_mem_cons.1 h.counted).2⟩
  · simp only [Function.update_self]
    exact own.thread g.area g.last g.lies g.apart some g.placed
  · rw [Function.update_of_ne (Living.ne_of_not_mem names hp)]
    refine (others p hp).write ?_ fun t => h.apart_of_grows books g hp
    cases place <;> exact some

/-- A new region holds nothing. -/
theorem Kept.add (h : Kept c fresh m l) (new : r.IsNew fresh) (names : name ∉ l.map Prod.fst) :
    Kept (Function.update c name []) (fresh + 1) m ((name, r) :: l) := by
  obtain ⟨area, chain, segments, last, -, -⟩ := new
  refine ⟨?_, ?_, ?_, List.forall_mem_cons.2 ⟨?_, fun p hp => ?_⟩⟩
  · refine List.nodup_cons.2 ⟨fun taken => ?_, h.areas⟩
    obtain ⟨p, hp, same⟩ := List.mem_map.1 taken
    have := h.made p hp
    dsimp only at same
    omega
  · exact List.forall_mem_cons.2 ⟨by simp [area], fun p hp => Nat.lt_succ_of_lt (h.made p hp)⟩
  · exact List.forall_mem_cons.2 ⟨by simp [segments, chain], h.counted⟩
  · simp only [Function.update_self]
    exact Region.holds_nil last
  · rw [Function.update_of_ne (Living.ne_of_not_mem names hp)]
    exact h.holds p hp

/-- A region without a segment has no numbers. -/
theorem Living.numbers_new (chain : r.chain = []) : Living.numbers ((name, r) :: l) = l.numbers := by
  rw [Living.numbers_cons, Region.numbers, chain]
  rfl

end

/-! ## Growing -/

section

variable {provider provider' : Provider} {size : Nat} {r q : Region} {s : Segment} {place : Place}
  {out : List Nat}

/-- A block in the embedded area. -/
theorem grows_embedded (counted : r.segments = r.chain.length) :
    r.Grows provider (r.stretch (.inlined r.inlineUsed) size) { r with inlineUsed := r.inlineUsed + size }
      provider := by
  refine ⟨rfl, rfl, ?_, ⟨rfl, Nat.le_refl _⟩, ?_, counted, fun _ h => h⟩
  · rintro ⟨_ | n, offset, length⟩ lies
    · exact ⟨lies.1, Nat.le_trans lies.2 (Nat.le_add_right _ _)⟩
    · exact lies
  · rintro ⟨_ | n, offset, length⟩ lies
    · rw [← Bool.not_eq_true, Stretch.overlaps_iff]
      rintro ⟨-, -, below, -⟩
      exact Nat.not_le_of_lt below lies.2
    · exact Stretch.overlaps_of_areas nofun

/-- A block in the newest segment. -/
theorem grows_newest {rest : Chain} (chain : r.chain = s :: rest) (counted : r.segments = r.chain.length)
    (distinct : r.numbers.Nodup) :
    r.Grows provider (r.stretch (.segment s.number s.allocated) size)
      { r with chain := { s with allocated := s.allocated + size } :: rest } provider := by
  rw [Region.numbers, chain, List.map_cons, List.nodup_cons] at distinct
  rw [chain] at counted
  refine ⟨rfl, rfl, ?_, ⟨_, List.mem_cons_self, rfl, Nat.le_refl _⟩, ?_, counted, ?_⟩
  · rintro ⟨_ | n, offset, length⟩ lies
    · exact lies
    · obtain ⟨t, ht, number, below⟩ := lies
      rw [chain] at ht
      rcases List.mem_cons.1 ht with rfl | ht
      · exact ⟨_, List.mem_cons_self, number, Nat.le_trans below (Nat.le_add_right _ _)⟩
      · exact ⟨t, List.mem_cons_of_mem _ ht, number, below⟩
  · rintro ⟨_ | n, offset, length⟩ lies
    · exact Stretch.overlaps_of_areas nofun
    · obtain ⟨t, ht, number, below⟩ := lies
      rw [← Bool.not_eq_true, Stretch.overlaps_iff]
      rintro ⟨same, -, low, -⟩
      -- the one segment of this number is the one in use
      obtain rfl : n = s.number := Area.segment.inj same
      rw [chain] at ht
      rcases List.mem_cons.1 ht with rfl | ht
      · exact Nat.not_le_of_lt low below
      · exact distinct.1 (List.mem_map.2 ⟨t, ht, number⟩)
  · intro out h
    rw [Region.numbers, chain] at h
    exact h

/-- A block in a new segment stands apart from all others. -/
theorem grows_fresh (books : provider.Accounts (r.numbers ++ out)) (counted : r.segments = r.chain.length)
    (handed : ∀ out, provider.Accounts out → provider'.Accounts (s.number :: out)) :
    r.Grows provider (r.stretch (.segment s.number s.allocated) size)
      { r with chain := { s with allocated := s.allocated + size } :: r.chain, segments := r.segments + 1 }
      provider' := by
  have new : s.number ∉ r.numbers := by
    have distinct := (handed _ books).distinct
    rw [List.cons_append, List.nodup_cons] at distinct
    intro old
    exact distinct.1 (List.mem_append_left _ (List.mem_append_left _ old))
  refine ⟨rfl, rfl, ?_, ⟨_, List.mem_cons_self, rfl, Nat.le_refl _⟩, ?_,
    congrArg (· + 1) counted, fun out h => handed _ h⟩
  · rintro ⟨_ | n, offset, length⟩ lies
    · exact lies
    · obtain ⟨t, ht, rest⟩ := lies
      exact ⟨t, List.mem_cons_of_mem _ ht, rest⟩
  · rintro ⟨_ | n, offset, length⟩ lies
    · exact Stretch.overlaps_of_areas nofun
    · obtain ⟨t, ht, number, -⟩ := lies
      refine Stretch.overlaps_of_areas fun same => new ?_
      obtain rfl : n = s.number := Area.segment.inj same
      exact List.mem_map.2 ⟨t, ht, number⟩

/-- A block of `size` bytes is placed at the mark of the area in use, or of a segment that is supplied for it. -/
inductive Region.Takes (r : Region) (size : Nat) : Option Segment → Place → Region → Prop
  | embedded (unchained : r.chain = []) (room : size ≤ inlineCapacity - r.inlineUsed) :
      Takes r size none (.inlined r.inlineUsed) { r with inlineUsed := r.inlineUsed + size }
  | newest {s : Segment} {rest : Chain} (chain : r.chain = s :: rest) (room : size ≤ s.remaining) :
      Takes r size none (.segment s.number s.allocated)
        { r with chain := { s with allocated := s.allocated + size } :: rest }
  | fresh {s : Segment} (room : size ≤ s.remaining) :
      Takes r size (some s) (.segment s.number s.allocated)
        { r with
          chain := { s with allocated := s.allocated + size } :: r.chain
          segments := r.segments + 1 }

theorem placeWithin_takes (done : r.placeWithin size = .ok (some (q, place))) :
    r.Takes size none place q := by
  unfold Region.placeWithin at done
  split at done
  · rename_i unchained
    split at done
    · rename_i room
      obtain ⟨rfl, rfl⟩ := Prod.mk.inj (Option.some_inj.1 (Except.ok.inj done))
      exact .embedded unchained room
    · cases done
  · rename_i s rest chain
    split at done
    · obtain ⟨⟨s', offset⟩, bumped, done⟩ := bind_eq_ok.1 done
      obtain ⟨rfl, rfl⟩ := Prod.mk.inj (Option.some_inj.1 (Except.ok.inj done))
      obtain ⟨room, rfl, rfl⟩ := Segment.bump_eq_ok.1 bumped
      exact .newest chain room
    · cases done

theorem placeIn_takes (done : r.placeIn s size = .ok (q, place)) : r.Takes size (some s) place q := by
  unfold Region.placeIn at done
  split at done
  · obtain ⟨⟨s', offset⟩, bumped, done⟩ := bind_eq_ok.1 done
    obtain ⟨rfl, rfl⟩ := Prod.mk.inj (Except.ok.inj done)
    obtain ⟨room, rfl, rfl⟩ := Segment.bump_eq_ok.1 bumped
    exact .fresh room
  · cases done

/-- What takes a block grows by it. -/
theorem Region.Takes.grows {supplied : Option Segment} (h : r.Takes size supplied place q)
    (books : provider.Accounts (r.numbers ++ out)) (counted : r.segments = r.chain.length)
    (unasked : supplied = none → provider' = provider)
    (handed : ∀ s ∈ supplied, ∀ out, provider.Accounts out → provider'.Accounts (s.number :: out)) :
    r.Grows provider (q.stretch place size) q provider' := by
  have distinct := (List.nodup_append.1 (List.nodup_append.1 books.distinct).1).1
  cases h with
  | embedded => exact unasked rfl ▸ grows_embedded counted
  | newest chain => exact unasked rfl ▸ grows_newest chain counted distinct
  | fresh => exact grows_fresh books counted (handed _ rfl)

end

end FreeStore
