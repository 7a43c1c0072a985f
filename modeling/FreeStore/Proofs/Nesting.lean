import Mathlib.Data.List.Basic
import FreeStore.Proofs.LivingRegions
/-!
Regions in regions, and what tearing one down does.

Every living region is a top level one or was created in exactly one other: the names of the living are the
roots and the names inside, each once (`Spans`). Taking a region out leaves those inside it as roots, so a
teardown finds each region that it comes to among the living, takes it from there, and leaves the others
(`tearsDown_teardown`). What it destroys is told by what was created (`Unwinds`): newest first, and a region
inside as a whole, at its place.

No region lies in itself, since what lies inside a region is ranked above it (`Forest`). So a region may be moved
into one that does not hang on it (`Forest.adopt`), and a new region in the place of an old one does not go when
the old one is torn down (`Forest.not_mem_gone`).
-/
namespace FreeStore

/-- The region that an item is. -/
def Item.name? : Item → Option String
  | .value _ _ => none
  | .region name => some name

/-- The names of the regions among the items. -/
def inside (items : List Item) : List String := items.filterMap Item.name?

/-- What the end of a region is, once its contents are destroyed. -/
def Region.ending (r : Region) : List TeardownEvent := r.chain.map .released ++ [.ended r]

/-- The events destroy the items in this order. A region goes with all that was created in it, at its place:
first its contents, then its segments. -/
inductive Unwinds (c : Created) (l : Living) : List Item → List TeardownEvent → Prop
  | nil : Unwinds c l [] []
  | value {tag : Nat} {loud : Bool} {items : List Item} {events : List TeardownEvent}
      (rest : Unwinds c l items events) : Unwinds c l (.value tag loud :: items) (.destroyed tag loud :: events)
  | region {name : String} {r : Region} {items : List Item} {inner events : List TeardownEvent}
      (living : (name, r) ∈ l) (contents : Unwinds c l (c name) inner) (rest : Unwinds c l items events) :
      Unwinds c l (.region name :: items) (inner ++ r.ending ++ events)

/-- The names of the regions inside these. -/
def Living.inner (c : Created) (l : Living) : List String := l.flatMap fun p => inside (c p.1)

/-- The living regions are the roots and those inside others, each once. -/
def Spans (c : Created) (roots : List String) (l : Living) : Prop :=
  (l.map Prod.fst).Perm (roots ++ l.inner c)

/-- The segments released. -/
def released (events : List TeardownEvent) : List Segment :=
  events.filterMap fun
    | .released s => some s
    | _ => none

/-- The numbers of the segments released. -/
def releases (events : List TeardownEvent) : List Nat := (released events).map Segment.number

/-- The regions that end. -/
def endings (events : List TeardownEvent) : List Region :=
  events.filterMap fun
    | .ended r => some r
    | _ => none

variable {c d : Created} {l k left gone : Living} {roots names : List String} {items : List Item}
  {events inner : List TeardownEvent} {m : Storage} {name : String} {r : Region}
  {p : String × Region}

theorem inside_region : inside (.region name :: items) = name :: inside items := rfl

theorem mem_inside_update {outer n m : String}
    (h : n ∈ inside (Function.update c outer (.region name :: c outer) m)) :
    (m = outer ∧ n = name) ∨ n ∈ inside (c m) := by
  by_cases same : m = outer
  · rw [same, Function.update_self, inside_region] at h
    rw [same]
    exact (List.mem_cons.1 h).imp_left fun new => ⟨rfl, new⟩
  · rw [Function.update_of_ne same] at h
    exact .inr h

theorem released_append : released (events ++ inner) = released events ++ released inner :=
  List.filterMap_append

theorem released_ending : released r.ending = r.chain := by
  simp [Region.ending, released, List.filterMap_map]

theorem releases_append : releases (events ++ inner) = releases events ++ releases inner := by
  rw [releases, released_append, List.map_append, releases, releases]

theorem releases_ending : releases r.ending = r.numbers := by
  rw [releases, released_ending, Region.numbers]

theorem endings_append : endings (events ++ inner) = endings events ++ endings inner := List.filterMap_append

theorem endings_ending : endings r.ending = [r] := by
  rw [Region.ending, endings_append]
  simp [endings, List.filterMap_map]

/-- The segments that are released are those of the regions that end. -/
theorem Unwinds.released_eq (h : Unwinds c l items events) :
    released events = (endings events).flatMap Region.chain := by
  induction h with
  | nil => rfl
  | value _ ih => exact ih
  | region _ _ _ contents rest =>
    simp only [released_append, endings_append, List.flatMap_append, contents, rest, released_ending,
      endings_ending, List.flatMap_singleton]

theorem Unwinds.mono (h : Unwinds c l items events) (same : ∀ p ∈ l, p ∈ k ∧ d p.1 = c p.1) :
    Unwinds d k items events := by
  induction h with
  | nil => exact .nil
  | value _ ih => exact .value ih
  | region living _ _ contents rest =>
    obtain ⟨living, created⟩ := same _ living
    exact .region living (created ▸ contents) rest

/-! ## Spans -/

theorem Living.inner_cons : Living.inner c ((name, r) :: l) = inside (c name) ++ l.inner c := rfl

theorem Living.inner_append : Living.inner c (l ++ k) = l.inner c ++ k.inner c := List.flatMap_append

theorem Living.inner_congr (same : ∀ p ∈ l, inside (d p.1) = inside (c p.1)) : l.inner d = l.inner c :=
  List.flatMap_congr same

theorem Living.inner_eq (same : k.map Prod.fst = l.map Prod.fst) : k.inner c = l.inner c := by
  have names := congrArg (List.flatMap fun n => inside (c n)) same
  rwa [List.flatMap_map, List.flatMap_map] at names

theorem Spans.perm (h : Spans c roots l) (perm : l.Perm k) : Spans c roots k :=
  (perm.map _).symm.trans (h.trans ((perm.flatMap_right _).append_left _))

theorem Spans.congr (h : Spans c roots l) (same : ∀ p ∈ l, inside (d p.1) = inside (c p.1)) :
    Spans d roots l := by
  unfold Spans
  rw [Living.inner_congr same]
  exact h

/-- Without one of the roots, those inside it are roots. -/
theorem Spans.takeOut (h : Spans c (name :: roots) ((name, r) :: l)) : Spans c (inside (c name) ++ roots) l := by
  unfold Spans at h ⊢
  rw [List.map_cons, List.cons_append, List.perm_cons, Living.inner_cons, ← List.append_assoc] at h
  exact h.trans (List.perm_append_comm.append_right _)

/-- What is gone hangs on the roots that are gone. -/
theorem Spans.rest (h : Spans c (names ++ roots) l) (perm : l.Perm (gone ++ left)) (g : Spans c roots left) :
    Spans c names gone := by
  have whole := h.perm perm
  unfold Spans at g whole ⊢
  rw [List.map_append, Living.inner_append] at whole
  rw [List.perm_iff_count] at g whole ⊢
  intro n
  have := g n
  have := whole n
  simp only [List.count_append] at *
  omega

/-! ## The forest of the living -/

/-- The living regions form a forest: every name once, and what lies inside a region is ranked above it. -/
structure Forest (c : Created) (roots : List String) (l : Living) : Prop where
  names : (l.map Prod.fst).Nodup
  spans : Spans c roots l
  ranked : ∃ rank : String → Nat, ∀ p ∈ l, ∀ n ∈ inside (c p.1), rank p.1 < rank n

namespace Forest

variable {outer : String} {q : Region} {item : Item}

theorem perm (h : Forest c roots l) (perm : l.Perm k) : Forest c roots k where
  names := (perm.map _).nodup_iff.1 h.names
  spans := h.spans.perm perm
  ranked := h.ranked.imp fun _ ranks p hp => ranks p (perm.mem_iff.2 hp)

theorem congr (h : Forest c roots l) (same : ∀ p ∈ l, inside (d p.1) = inside (c p.1)) :
    Forest d roots l where
  names := h.names
  spans := h.spans.congr same
  ranked := h.ranked.imp fun _ ranks p hp n hn => ranks p hp n (same p hp ▸ hn)

theorem perm_roots (h : Forest c roots l) (perm : roots.Perm names) : Forest c names l :=
  ⟨h.names, h.spans.trans (perm.append_right _), h.ranked⟩

/-- Only the names of the regions matter. -/
theorem rename (h : Forest c roots l) (same : k.map Prod.fst = l.map Prod.fst) : Forest c roots k where
  names := same ▸ h.names
  spans := by
    have spans := h.spans
    unfold Spans at spans ⊢
    rwa [same, Living.inner_eq same]
  ranked := by
    obtain ⟨rank, ranks⟩ := h.ranked
    refine ⟨rank, fun p hp => ?_⟩
    obtain ⟨p', hp', eq⟩ := List.mem_map.1 (same ▸ List.mem_map_of_mem hp : p.1 ∈ l.map Prod.fst)
    exact eq ▸ ranks p' hp'

theorem not_mem (h : Forest c roots ((name, r) :: l)) : name ∉ l.map Prod.fst :=
  (List.nodup_cons.1 h.names).1

theorem ne_of_mem (h : Forest c roots ((name, r) :: l)) (hp : p ∈ l) : p.1 ≠ name :=
  Living.ne_of_not_mem h.not_mem hp

/-- What is created in a region without being one changes nothing. -/
theorem value (h : Forest c roots l) (none : item.name? = none) :
    Forest (Function.update c name (item :: c name)) roots l := by
  refine h.congr fun p _ => ?_
  by_cases same : p.1 = name
  · rw [same, Function.update_self, inside, List.filterMap_cons_none none, inside]
  · rw [Function.update_of_ne same]

/-- A new region at the top. -/
theorem add (h : Forest c roots l) (new : name ∉ l.map Prod.fst) :
    Forest (Function.update c name []) (name :: roots) ((name, r) :: l) := by
  have same : ∀ p ∈ l, Function.update c name [] p.1 = c p.1 := fun p hp =>
    Function.update_of_ne (Living.ne_of_not_mem new hp) ..
  have kept := h.congr fun p hp => congrArg inside (same p hp)
  refine ⟨List.nodup_cons.2 ⟨new, h.names⟩, ?_, ?_⟩
  · unfold Spans
    rw [List.map_cons, Living.inner_cons, Function.update_self]
    exact kept.spans.cons name
  · obtain ⟨rank, ranks⟩ := kept.ranked
    exact ⟨rank, List.forall_mem_cons.2 ⟨by simp [inside], ranks⟩⟩

/-- Without one of the roots, those inside it are roots. -/
theorem takeOut (h : Forest c (name :: roots) ((name, r) :: l)) : Forest c (inside (c name) ++ roots) l where
  names := (List.nodup_cons.1 h.names).2
  spans := h.spans.takeOut
  ranked := h.ranked.imp fun _ ranks p hp => ranks p (List.mem_cons_of_mem _ hp)

/-- With a new region in the place of one, those inside the old one are roots. -/
theorem renew (h : Forest c roots ((name, r) :: l)) :
    Forest (Function.update c name []) (inside (c name) ++ roots) ((name, q) :: l) := by
  have same : ∀ p ∈ l, Function.update c name [] p.1 = c p.1 := fun p hp =>
    Function.update_of_ne (h.ne_of_mem hp) ..
  refine ⟨h.names, ?_, ?_⟩
  · have spans := h.spans
    unfold Spans at spans ⊢
    rw [Living.inner_cons] at spans ⊢
    rw [Living.inner_congr fun p hp => congrArg inside (same p hp), Function.update_self]
    rw [← List.append_assoc] at spans
    exact spans.trans (List.perm_append_comm.append_right _)
  · obtain ⟨rank, ranks⟩ := h.ranked
    refine ⟨rank, List.forall_mem_cons.2 ⟨by simp [inside], fun p hp => ?_⟩⟩
    rw [same p hp]
    exact ranks p (List.mem_cons_of_mem _ hp)

/-- What is left after a teardown. -/
theorem remains (h : Forest c names l) (parts : l.Perm (gone ++ left)) (spans : Spans c roots left) :
    Forest c roots left where
  names := by
    have whole := (h.perm parts).names
    rw [List.map_append] at whole
    exact (List.nodup_append.1 whole).2.1
  spans := spans
  ranked := (h.perm parts).ranked.imp fun _ ranks p hp => ranks p (List.mem_append_right _ hp)

/-- What hangs on one of the roots lies in none of the others, nor is it one. -/
theorem not_mem_left (h : Forest c (name :: roots) l) (parts : l.Perm (gone ++ left)) (spans : Spans c roots left)
    (hp : p ∈ gone) {n : String} (nested : n ∈ inside (c p.1)) : n ∉ left.map Prod.fst := by
  intro known
  have once := ((h.perm parts).spans.nodup_iff).1 (h.perm parts).names
  rw [Living.inner_append, List.cons_append, List.nodup_cons] at once
  have again : n ∈ roots ++ left.inner c := spans.mem_iff.1 known
  have here : n ∈ gone.inner c := List.mem_flatMap.2 ⟨p, hp, nested⟩
  have twice := List.perm_append_comm_assoc roots (gone.inner c) (left.inner c) |>.nodup_iff.1 once.2
  exact (List.nodup_append.1 twice).2.2 n here n again rfl

/-- A root is put into a region: its name is among those inside then. -/
theorem spans_adopt (h : Forest c (name :: roots) l) (known : outer ∈ l.map Prod.fst) :
    Spans (Function.update c outer (.region name :: c outer)) roots l := by
  obtain ⟨o, rest, taken⟩ := Living.exists_takeOut_of_mem known
  have front := Living.perm_of_takeOut taken
  have same : ∀ p ∈ rest, Function.update c outer (.region name :: c outer) p.1 = c p.1 := fun p hp =>
    Function.update_of_ne ((h.perm front).ne_of_mem hp) ..
  have whole := (h.perm front).spans
  refine Spans.perm ?_ front.symm
  unfold Spans at whole ⊢
  rw [Living.inner_cons] at whole ⊢
  rw [Living.inner_congr fun p hp => congrArg inside (same p hp), Function.update_self, inside_region]
  exact whole.trans List.perm_middle.symm

/-- A root is put into a region that does not hang on it. All that hangs on it is ranked higher then. -/
theorem adopt (h : Forest c (name :: roots) l) (parts : l.Perm ((name, r) :: gone ++ left))
    (spans : Spans c roots left) (known : outer ∈ left.map Prod.fst) :
    Forest (Function.update c outer (.region name :: c outer)) roots l := by
  have living : outer ∈ l.map Prod.fst := by
    obtain ⟨p, hp, rfl⟩ := List.mem_map.1 known
    exact List.mem_map_of_mem (parts.mem_iff.2 (List.mem_append_right _ hp))
  obtain ⟨rank, ranks⟩ := h.ranked
  have names := (h.perm parts).names
  rw [List.map_append, List.nodup_append] at names
  refine ⟨h.names, h.spans_adopt living, ?_⟩
  refine ⟨fun n => if n ∈ left.map Prod.fst then rank n else rank n + rank outer + 1, fun p hp n hn => ?_⟩
  rcases mem_inside_update hn with ⟨rfl, rfl⟩ | old
  · -- the region is put into one that keeps its rank
    have other : n ∉ left.map Prod.fst := fun both => names.2.2 n List.mem_cons_self n both rfl
    simp only [if_pos known, if_neg other]
    omega
  · have above := ranks p hp n old
    rcases List.mem_append.1 (parts.mem_iff.1 hp) with going | staying
    · -- what lies in something that hangs on the root hangs on it as well, so both are raised
      have here : p.1 ∉ left.map Prod.fst := fun both =>
        names.2.2 _ (List.mem_map_of_mem going) _ both rfl
      simp only [if_neg here, if_neg (h.not_mem_left parts spans going old)]
      omega
    · simp only [if_pos (List.mem_map_of_mem (f := Prod.fst) staying)]
      split <;> omega

/-- A new region in another one: it is a root first, and is put into the other one then. -/
theorem nest (h : Forest c roots l) (known : outer ∈ l.map Prod.fst) (new : name ∉ l.map Prod.fst) :
    Forest (Function.update (Function.update c outer (.region name :: c outer)) name []) roots
      ((name, r) :: l) := by
  have other : outer ≠ name := by
    rintro rfl
    exact new known
  have same : ∀ p ∈ l, inside (Function.update c name [] p.1) = inside (c p.1) := fun p hp =>
    congrArg inside (Function.update_of_ne (Living.ne_of_not_mem new hp) ..)
  have parts : ((name, r) :: l).Perm ((name, r) :: ([] : Living) ++ l) := .refl _
  have nested := (h.add new).adopt parts (h.congr same).spans known
  rwa [Function.update_of_ne other, Function.update_comm other.symm] at nested

end Forest

/-- All that hangs on what is inside a region is ranked above it. -/
theorem Spans.ranked {rank : String → Nat} {a : Nat} (h : Spans c names gone) (first : ∀ n ∈ names, a < rank n)
    (ranks : ∀ p ∈ gone, ∀ n ∈ inside (c p.1), rank p.1 < rank n) : ∀ n ∈ gone.map Prod.fst, a < rank n := by
  intro n hn
  induction level : rank n using Nat.strongRecOn generalizing n with
  | _ level ih =>
    subst level
    rcases List.mem_append.1 (h.mem_iff.1 hn) with root | nested
    · exact first n root
    · obtain ⟨p, hp, mem⟩ := List.mem_flatMap.1 nested
      have below := ranks p hp n mem
      exact Nat.lt_trans (ih _ below p.1 (List.mem_map_of_mem hp) rfl) below

/-- Without roots there are no regions. -/
theorem Forest.eq_nil (h : Forest c [] l) : l = [] := by
  obtain ⟨rank, ranks⟩ := h.ranked
  refine List.eq_nil_iff_forall_not_mem.2 fun p hp => ?_
  exact Nat.lt_irrefl _ (h.spans.ranked (by simp) ranks p.1 (List.mem_map_of_mem hp))

/-- A region that is put in the place of another one does not hang on it. -/
theorem Forest.not_mem_gone {q : Region} (h : Forest c roots ((name, r) :: l))
    (parts : ((name, q) :: l).Perm (gone ++ left))
    (spans : Spans (Function.update c name []) (inside (c name)) gone) : name ∉ gone.map Prod.fst := by
  obtain ⟨rank, ranks⟩ := h.ranked
  rw [List.forall_mem_cons] at ranks
  intro known
  refine Nat.lt_irrefl _ (spans.ranked ranks.1 (fun p hp n hn => ?_) name known)
  rcases List.mem_cons.1 (parts.mem_iff.2 (List.mem_append_left _ hp)) with rfl | old
  · simp [inside] at hn
  · rw [Function.update_of_ne (h.ne_of_mem old)] at hn
    exact ranks.2 p old n hn

/-! ## Teardown -/

/-- What is left after the items were destroyed: the other roots, with all that hangs on them. -/
structure Unwound (c : Created) (l : Living) (roots : List String) (items : List Item) (left : Living)
    (events : List TeardownEvent) (gone : Living) : Prop where
  parts : l.Perm (gone ++ left)
  spans : Spans c roots left
  unwinds : Unwinds c gone items events
  ended : (endings events).Perm (gone.map Prod.snd)

/-- The regions hold what was created in them. -/
def AllHold (c : Created) (m : Storage) (l : Living) : Prop :=
  ∀ p ∈ l, p.2.Holds m (c p.1) ∧ p.2.segments = p.2.chain.length

/-- `tear` tears regions down as it should, while fewer than `bound` others are living. -/
def TearsDown (c : Created) (m : Storage) (tear : Living → Region → Outcome (Living × List TeardownEvent))
    (bound : Nat) : Prop :=
  ∀ l r items roots, l.length < bound → r.Holds m items → r.segments = r.chain.length → AllHold c m l →
    Spans c (inside items ++ roots) l → ∃ left events gone,
      tear l r = .ok (left, events ++ r.ending) ∧ Unwound c l roots items left events gone

theorem AllHold.perm (h : AllHold c m l) (perm : l.Perm k) : AllHold c m k :=
  fun p hp => h p (perm.mem_iff.2 hp)

/-- The segments that are released are those of the regions that are gone. -/
theorem Unwound.released (h : Unwound c l roots items left events gone) :
    (released events).Perm (gone.flatMap fun p => p.2.chain) := by
  have whole := h.ended.flatMap_right Region.chain
  rw [List.flatMap_map] at whole
  rwa [h.unwinds.released_eq]

theorem Unwound.releases (h : Unwound c l roots items left events gone) :
    (releases events).Perm gone.numbers := by
  have numbers := h.released.map Segment.number
  rwa [List.map_flatMap] at numbers

/-- The events end the region of this name, and those that hang on it, each once; they leave the others. -/
structure TornDown (c : Created) (l : Living) (name : String) (gone left : Living)
    (events : List TeardownEvent) : Prop where
  parts : l.Perm (gone ++ left)
  unwinds : Unwinds c gone [.region name] events
  once : (endings events).Perm (gone.map Prod.snd)

/-- A region ends after what was created in it. -/
theorem Unwinds.tornDown (h : Unwinds c gone (c name) events) (parts : l.Perm ((name, r) :: (gone ++ left)))
    (ended : (endings events).Perm (gone.map Prod.snd)) :
    TornDown c l name ((name, r) :: gone) left (events ++ r.ending) := by
  have contents : Unwinds c ((name, r) :: gone) (c name) events :=
    h.mono fun p hp => ⟨List.mem_cons_of_mem _ hp, rfl⟩
  refine ⟨parts, ?_, ?_⟩
  · simpa using Unwinds.region List.mem_cons_self contents .nil
  · rw [endings_append, endings_ending]
    exact (List.perm_append_singleton r _).trans (ended.cons r)

theorem Kept.allHold {fresh : Nat} (h : Kept c fresh m l) : AllHold c m l :=
  fun p hp => ⟨h.holds p hp, h.counted p hp⟩

theorem Unwound.value {tag : Nat} {loud : Bool} (h : Unwound c l roots items left events gone) :
    Unwound c l roots (.value tag loud :: items) left (.destroyed tag loud :: events) gone :=
  ⟨h.parts, h.spans, .value h.unwinds, h.ended⟩

/-- A region inside is torn down, then what was created before it. -/
theorem Unwound.region {mid gone' : Living} (taken : l.Perm ((name, r) :: k))
    (h : Unwound c k names (c name) mid inner gone) (g : Unwound c mid roots items left events gone') :
    Unwound c l roots (.region name :: items) left (inner ++ r.ending ++ events)
      ((name, r) :: (gone ++ gone')) := by
  refine ⟨?_, g.spans, .region List.mem_cons_self ?_ ?_, ?_⟩
  · have parts := taken.trans ((h.parts.trans (g.parts.append_left _)).cons _)
    simpa using parts
  · exact h.unwinds.mono fun p hp => ⟨by simp [hp], rfl⟩
  · exact g.unwinds.mono fun p hp => ⟨by simp [hp], rfl⟩
  · rw [endings_append, endings_append, endings_ending, List.map_cons, List.map_append]
    exact ((List.perm_append_singleton r _).trans (h.ended.cons r)).append g.ended

/-- Destroying items one after the other. -/
theorem destroyEach_unwinds {bound : Nat}
    {tear : Living → Region → Outcome (Living × List TeardownEvent)} (tears : TearsDown c m tear bound)
    (few : l.length ≤ bound) (holds : AllHold c m l) (spans : Spans c (inside items ++ roots) l) :
    ∃ left events gone, destroyEach tear items l = .ok (left, events) ∧
      Unwound c l roots items left events gone := by
  induction items generalizing l with
  | nil =>
    have all : Unwound c l roots [] l [] [] := ⟨.refl _, spans, .nil, .refl _⟩
    exact ⟨l, [], [], rfl, all⟩
  | cons item items ih =>
    cases item with
    | value tag loud =>
      obtain ⟨left, events, gone, done, unwound⟩ := ih few holds spans
      exact ⟨left, _, gone, by rw [destroyEach, done]; rfl, unwound.value⟩
    | region name =>
      -- the region is the first of the roots, so it is living
      rw [inside_region, List.cons_append] at spans
      have known : name ∈ l.map Prod.fst := spans.mem_iff.2 List.mem_cons_self
      obtain ⟨r, k, taken⟩ := Living.exists_takeOut_of_mem known
      have perm := Living.perm_of_takeOut taken
      obtain ⟨⟨own, counted⟩, others⟩ := List.forall_mem_cons.1 (holds.perm perm)
      have fewer : k.length < bound := by
        have := perm.length_eq
        rw [List.length_cons] at this
        omega
      obtain ⟨mid, inner, gone, torn, first⟩ :=
        tears k r (c name) _ fewer own counted others (spans.perm perm).takeOut
      have shorter : mid.length ≤ bound := by
        have := first.parts.length_eq
        rw [List.length_append] at this
        omega
      have rest : AllHold c m mid := fun p hp =>
        others p (first.parts.mem_iff.2 (List.mem_append_right _ hp))
      obtain ⟨left, events, gone', done, second⟩ := ih shorter rest first.spans
      refine ⟨left, inner ++ r.ending ++ events, _, ?_, first.region perm second⟩
      simp only [destroyEach, taken, torn, ok_bind, done]
      rfl

/-- Tearing down destroys what was created in a region, and ends it. -/
theorem tearsDown_teardown (c : Created) (m : Storage) (depth : Nat) :
    TearsDown c m (teardown m depth) depth := by
  induction depth with
  | zero => exact fun l _ _ _ few => absurd few (Nat.not_lt_zero _)
  | succ depth ih =>
    intro l r items roots few own counted holds spans
    obtain ⟨is, found, rfl, -⟩ := own
    obtain ⟨left, events, gone, done, unwound⟩ :=
      destroyEach_unwinds ih (Nat.le_of_lt_succ few) holds spans
    refine ⟨left, events, gone, ?_, unwound⟩
    have whole : (r.chain.length == r.segments) = true := by simp [counted]
    rw [teardown, found, ok_bind, done, ok_bind]
    dsimp only
    rw [require_bind whole, Region.ending, List.append_assoc]
    rfl

end FreeStore
