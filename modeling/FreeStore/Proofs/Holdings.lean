import Mathlib.Logic.Relation
import FreeStore.Proofs.Destruction
/-!
What an operation does to blocks, regions and segments.

A `Stock` is what there is to be kept account of: the provider, the living regions, and the blocks that each of
them handed out since it was made or last reset. Whatever operation is carried out, the stock changes in three
ways only (`RegionStore.Change`): a region hands out a block, a new region is added, or regions are lost and their
segments return to the provider (`Sound.perform_evolves`). So what these three keep is kept by every run
(`run_keeps`).
-/
namespace FreeStore

/-- The place `n` bytes back. -/
def Place.back (n : Nat) : Place → Place
  | .inlined offset => .inlined (offset - n)
  | .segment number offset => .segment number (offset - n)

@[simp] theorem Place.back_shift (n : Nat) (p : Place) : (p.shift n).back n = p := by
  cases p <;> simp [shift, back]

theorem roundToGranule_eq_ok {bytes size : Nat} (h : roundToGranule bytes = .ok size) :
    size = roundUp bytes granule := by
  obtain ⟨sum, added, done⟩ := bind_eq_ok.1 h
  obtain ⟨-, rfl⟩ := Word.add_eq_ok.1 added
  obtain rfl := Except.ok.inj done
  rw [roundDown, roundUp, Nat.div_mul_self_eq_mod_sub_self]

/-- A block that was handed out, with the bytes that were asked for. -/
structure Block where
  place : Place
  bytes : Nat
  deriving DecidableEq, Repr

namespace Block

/-- The bytes that the block takes. -/
def size (b : Block) : Nat := roundUp b.bytes granule

/-- The bytes that it takes of the region. -/
def stretch (b : Block) (r : Region) : Stretch := r.stretch b.place b.size

end Block

/-- The block with a created value, which starts behind a header. -/
def Payload.block (v : Payload) (value : Place) : Block := ⟨value.back v.header, v.header + v.size⟩

/-- The blocks that each region handed out since it was made or last reset, newest first. -/
abbrev Blocks := String → List Block

def Blocks.push (b : Blocks) (name : String) (block : Block) : Blocks :=
  Function.update b name (block :: b name)

/-- The blocks after a request for one. -/
def Blocks.tried {ε : Type} (b : Blocks) (name : String) (bytes : Nat) : Except ε Place → Blocks
  | .ok place => b.push name ⟨place, bytes⟩
  | .error _ => b

/-- The blocks after an operation with its answer. -/
def RegionStore.Operation.handed (b : Blocks) : RegionStore.Operation → RegionStore.Answer → Blocks
  | .make name _ _ _, _ | .makeLike name _, _ | .reset name _, _ => Function.update b name []
  | .allocate name bytes _, .place p | .allocateBuffer name bytes _ _, .buffer (.placed p) =>
    b.push name ⟨p, bytes⟩
  | .tryAllocate name bytes _, .tried r | .tryAllocateAligned name bytes _ _, .tried r =>
    b.tried name bytes r
  | .create name v _, .place p => b.push name (v.block p)
  | .nest outer name _ _, .place p => Function.update (b.push outer (Payload.ofRegion.block p)) name []
  | .moveInto outer _ _, .place p => b.push outer (Payload.ofRegion.block p)
  | _, _ => b

/-- What there is to be kept account of. -/
structure Stock where
  provider : Provider
  living : Living
  blocks : Blocks

namespace RegionStore

variable {c : Created} {b : Blocks} {st st' : RegionStore} {name outer proto : String} {r q : Region}
  {raw : RawSupply} {site : Site} {place : Place} {answer : Answer} {size bytes align : Nat}
  {provider : Provider}

def stock (st : RegionStore) (b : Blocks) : Stock := ⟨st.provider, st.living, b⟩

/-- A region hands out a block, a new region is added, or regions are lost and their segments return. -/
inductive Change (raw : RawSupply) (leave : Option Nat) : Stock → Stock → Prop
  | places {p p' : Provider} {l l' rest : Living} {b : Blocks} {name : String} {r q q' : Region}
      {supplied : Option Segment} {block : Block} {last : Option Place}
      (before : l.Perm ((name, r) :: rest)) (other : name ∉ rest.map Prod.fst)
      (provided : Provided raw leave p block.size supplied p')
      (takes : r.Takes block.size supplied block.place q')
      (counts : q = { q' with bytesAllocated := q'.bytesAllocated + block.size })
      (grows : r.Grows p (block.stretch q) q p') (after : l'.Perm ((name, { q with last }) :: rest)) :
      Change raw leave ⟨p, l, b⟩ ⟨p', l', b.push name block⟩
  | adds {p : Provider} {l l' : Living} {b : Blocks} {name : String} {r : Region} {fresh : Nat}
      (new : r.IsNew fresh) (free : name ∉ l.map Prod.fst) (after : l'.Perm ((name, r) :: l)) :
      Change raw leave ⟨p, l, b⟩ ⟨p, l', Function.update b name []⟩
  | loses {p p' : Provider} {l gone left : Living} {b : Blocks} {segments : List Segment}
      (parts : l.Perm (gone ++ left)) (own : segments.Perm (gone.flatMap fun p => p.2.chain))
      (returned : p.releaseAll segments = .ok p') : Change raw leave ⟨p, l, b⟩ ⟨p', left, b⟩

abbrev Changes (raw : RawSupply) (leave : Option Nat) : Stock → Stock → Prop :=
  Relation.ReflTransGen (Change raw leave)

/-- From one store to another the stock changes in these ways, and segments are handed out as before. -/
structure Evolves (raw : RawSupply) (st : RegionStore) (b : Blocks) (st' : RegionStore) (b' : Blocks) :
    Prop where
  changes : Changes raw st.leave (st.stock b) (st'.stock b')
  leave : st'.leave = st.leave

/-- What no stock is kept of does not matter. -/
theorem Evolves.still (same : st'.stock b = st.stock b) (leave : st'.leave = st.leave) :
    st.Evolves raw b st' b := ⟨same ▸ .refl, leave⟩

theorem Evolves.single {b' : Blocks} (change : Change raw st.leave (st.stock b) (st'.stock b'))
    (leave : st'.leave = st.leave) : st.Evolves raw b st' b' := ⟨.single change, leave⟩

/-- What every change keeps is kept. -/
theorem Evolves.keeps {I : Stock → Prop} {b' : Blocks} (h : st.Evolves raw b st' b')
    (keep : ∀ {s s'}, Change raw st.leave s s' → I s → I s') (start : I (st.stock b)) : I (st'.stock b') := by
  have changes := h.changes
  generalize st'.stock b' = last at changes
  induction changes with
  | refl => exact start
  | tail _ change ih => exact keep change ih

/-! ## One operation -/

/-- A region hands out the block that is placed in it; an instance may be written into that. -/
theorem Places.change (placed : st.Places raw name (roundUp bytes granule) place r q provider) (h : st.Sound c)
    (b : Blocks) (last : Option Place) : Change raw st.leave (st.stock b)
      ⟨provider, st.living.put name { q with last }, b.push name ⟨place, bytes⟩⟩ := by
  obtain ⟨rest, front, put⟩ := Living.exists_front h.forest.names placed.found
  obtain ⟨supplied, q', provided, takes, counts⟩ := placed.takes
  have others := (h.forest.perm front).not_mem
  exact .places front others provided takes counts placed.grows (put _)

theorem placeBlock_evolves {supplied : Except SegmentError Place} (h : st.Sound c)
    (done : st.placeBlock raw name (roundUp bytes granule) site = .ok (st', supplied)) :
    st.Evolves raw b st' (b.tried name bytes supplied) := by
  rcases placeBlock_eq_ok h done with
    ⟨events, rfl, e, rfl⟩ | ⟨place, r, q, provider, log, events, placed, rfl, rfl⟩
  · exact .still rfl rfl
  · exact .single (placed.change h b q.last) rfl

theorem tryAllocate_evolves {tried : Except RegionError Place} (h : st.Sound c)
    (done : st.tryAllocate raw name bytes site = .ok (st', tried)) :
    st.Evolves raw b st' (b.tried name bytes tried) := by
  obtain ⟨size, rounded, done⟩ := bind_eq_ok.1 done
  obtain rfl := roundToGranule_eq_ok rounded
  obtain ⟨⟨mid, supplied⟩, placed, done⟩ := bind_eq_ok.1 done
  have evolves := placeBlock_evolves (b := b) h placed
  cases supplied <;>
  · obtain ⟨rfl, rfl⟩ := Prod.mk.inj (Except.ok.inj done)
    exact evolves

theorem tryAllocateAligned_evolves {tried : Except RegionError Place} (h : st.Sound c)
    (done : st.tryAllocateAligned raw name bytes align site = .ok (st', tried)) :
    st.Evolves raw b st' (b.tried name bytes tried) := by
  unfold tryAllocateAligned at done
  split at done
  · obtain ⟨rfl, rfl⟩ := Prod.mk.inj (Except.ok.inj done)
    exact .still rfl rfl
  · exact tryAllocate_evolves h done

theorem allocate_evolves (h : st.Sound c) (done : st.allocate raw name bytes site = .ok (st', place)) :
    st.Evolves raw b st' (b.push name ⟨place, bytes⟩) := by
  obtain ⟨⟨mid, tried⟩, asked, done⟩ := bind_eq_ok.1 done
  cases tried with
  | error e => cases done
  | ok place =>
    obtain ⟨rfl, rfl⟩ := Prod.mk.inj (Except.ok.inj done)
    exact tryAllocate_evolves h asked

theorem allocateBuffer_evolves {buffer : Buffer} (h : st.Sound c)
    (done : st.allocateBuffer raw name bytes align site = .ok (st', buffer)) :
    st.Evolves raw b st' (Operation.handed b (.allocateBuffer name bytes align site) (.buffer buffer)) := by
  unfold allocateBuffer at done
  split at done
  · obtain ⟨rfl, rfl⟩ := Prod.mk.inj (Except.ok.inj done)
    exact .still rfl rfl
  · obtain ⟨⟨mid, tried⟩, asked, done⟩ := bind_eq_ok.1 done
    have evolves := tryAllocateAligned_evolves (b := b) h asked
    cases tried <;>
    · obtain ⟨rfl, rfl⟩ := Prod.mk.inj (Except.ok.inj done)
      exact evolves

theorem placePayload_evolves {v : Payload} {item : Item} {value : Place} (h : st.Sound c)
    (done : st.placePayload raw name v item site = .ok (st', value)) :
    st.Evolves raw b st' (b.push name (v.block value)) := by
  obtain ⟨place, r, q, provider, log, events, placed, rfl, rfl⟩ := placePayload_eq_ok h done
  have block : v.block (place.shift v.header) = ⟨place, v.header + v.size⟩ := by
    rw [Payload.block, Place.back_shift]
  exact block ▸ .single (placed.change h b (some place)) rfl

theorem addTopLevel_evolves {log : Option AllocationLog} (new : r.IsNew st.fresh)
    (done : addTopLevel { st with fresh := st.fresh + 1, log } name r = .ok st') :
    st.Evolves raw b st' (Function.update b name []) := by
  obtain ⟨mid, added, done⟩ := bind_eq_ok.1 done
  obtain ⟨free, rfl⟩ := add_eq_ok added
  obtain rfl := Except.ok.inj done
  exact .single (.adds new free (.refl _)) rfl

theorem nest_evolves (h : st.Sound c) (done : st.nest raw outer name proto site = .ok (st', place)) :
    st.Evolves raw b st' (Function.update (b.push outer (Payload.ofRegion.block place)) name []) := by
  obtain ⟨p, -, done⟩ := bind_eq_ok.1 done
  obtain ⟨log, observed, token, blank⟩ := likePrototype_eq st p
  rw [blank] at done
  obtain ⟨⟨mid, value⟩, placed, done⟩ := bind_eq_ok.1 done
  obtain ⟨last, added, done⟩ := bind_eq_ok.1 done
  obtain ⟨free, rfl⟩ := add_eq_ok added
  obtain ⟨rfl, rfl⟩ := Prod.mk.inj (Except.ok.inj done)
  have started : Sound c { st with fresh := st.fresh + 1, log } := ⟨h.kept.later, h.books, h.forest⟩
  have evolves := placePayload_evolves (b := b) started placed
  have new : Region.IsNew { area := st.fresh, kind := p.kind, observed, token } st.fresh :=
    ⟨rfl, rfl, rfl, rfl, rfl, rfl⟩
  have added : Change raw mid.leave (mid.stock (b.push outer (Payload.ofRegion.block value)))
      ⟨mid.provider, (name, _) :: mid.living, _⟩ := .adds new free (.refl _)
  exact ⟨evolves.changes.tail (evolves.leave ▸ added), evolves.leave⟩

theorem moveInto_evolves (h : st.Sound c) (done : st.moveInto raw outer name site = .ok (st', place)) :
    st.Evolves raw b st' (b.push outer (Payload.ofRegion.block place)) := by
  obtain ⟨_, -, done⟩ := bind_eq_ok.1 done
  obtain ⟨left, -, done⟩ := bind_eq_ok.1 done
  obtain ⟨_, -, done⟩ := bind_eq_ok.1 done
  obtain ⟨⟨mid, value⟩, placed, done⟩ := bind_eq_ok.1 done
  obtain ⟨rfl, rfl⟩ := Prod.mk.inj (Except.ok.inj done)
  have evolves := placePayload_evolves (b := b) h placed
  exact ⟨evolves.changes, evolves.leave⟩

/-- The segments of the regions that are torn down return. -/
theorem Returns.change {gone left : Living} {events : List TeardownEvent} (back : st.Returns events st')
    (torn : TornDown c st.living name gone left events) :
    Change raw st.leave (st.stock b) ⟨st'.provider, left, b⟩ := by
  refine .loses torn.parts ?_ back.provider
  have segments := torn.once.flatMap_right Region.chain
  rwa [← torn.unwinds.released_eq, List.flatMap_map] at segments

theorem drop_evolves (h : st.Sound c) (done : st.drop name = .ok st') : st.Evolves raw b st' b := by
  obtain ⟨_, root, -⟩ := bind_eq_ok.1 done
  obtain ⟨gone, events, last, dropped, torn, -, -, back⟩ :=
    h.drop (List.contains_iff_mem.1 (require_eq_ok.1 root))
  obtain rfl := Except.ok.inj (dropped.symm.trans done)
  exact .single (back.change torn) back.leave

theorem reset_evolves (h : st.Sound c) (done : st.reset name proto = .ok st') :
    st.Evolves raw b st' (Function.update b name []) := by
  obtain ⟨r, found, more⟩ := bind_eq_ok.1 done
  obtain ⟨p, prototype, -⟩ := bind_eq_ok.1 more
  obtain ⟨gone, left, events, q, last, reset, torn, remaining, -, sound, new, back⟩ :=
    h.reset (Living.mem_of_lookup (find_eq_ok found)) (Living.mem_of_lookup (find_eq_ok prototype))
  obtain rfl := Except.ok.inj (reset.symm.trans done)
  have free : name ∉ left.map Prod.fst := (sound.forest.perm remaining).not_mem
  exact ⟨.tail (.single (back.change torn)) (.adds new free remaining), back.leave⟩

/-- Every operation changes the stock in these ways. -/
theorem Sound.perform_evolves {o : Operation} (h : st.Sound c) (b : Blocks)
    (done : st.perform raw o = .ok (st', answer)) : st.Evolves raw b st' (o.handed b answer) := by
  cases o with
  | make name kind lateKind observe =>
    obtain ⟨mid, made, done⟩ := bind_eq_ok.1 done
    obtain ⟨rfl, rfl⟩ := Prod.mk.inj (Except.ok.inj done)
    obtain ⟨log, observed, token, attached⟩ := attachTimes_eq observe
      { st with fresh := st.fresh + 1 } { area := st.fresh, kind := kind.getD .heap }
    simp only [RegionStore.make, blank, attached] at made
    exact addTopLevel_evolves ⟨rfl, rfl, rfl, rfl, rfl, rfl⟩ made
  | makeLike name proto =>
    obtain ⟨mid, made, done⟩ := bind_eq_ok.1 done
    obtain ⟨rfl, rfl⟩ := Prod.mk.inj (Except.ok.inj done)
    obtain ⟨p, -, made⟩ := bind_eq_ok.1 made
    obtain ⟨log, observed, token, blank⟩ := likePrototype_eq st p
    rw [blank] at made
    exact addTopLevel_evolves ⟨rfl, rfl, rfl, rfl, rfl, rfl⟩ made
  | allocate name bytes site =>
    obtain ⟨⟨mid, place⟩, allocated, done⟩ := bind_eq_ok.1 done
    obtain ⟨rfl, rfl⟩ := Prod.mk.inj (Except.ok.inj done)
    exact allocate_evolves h allocated
  | tryAllocate name bytes site =>
    obtain ⟨⟨mid, tried⟩, allocated, done⟩ := bind_eq_ok.1 done
    obtain ⟨rfl, rfl⟩ := Prod.mk.inj (Except.ok.inj done)
    exact tryAllocate_evolves h allocated
  | tryAllocateAligned name bytes align site =>
    obtain ⟨⟨mid, tried⟩, allocated, done⟩ := bind_eq_ok.1 done
    obtain ⟨rfl, rfl⟩ := Prod.mk.inj (Except.ok.inj done)
    exact tryAllocateAligned_evolves h allocated
  | allocateBuffer name bytes align site =>
    obtain ⟨⟨mid, buffer⟩, allocated, done⟩ := bind_eq_ok.1 done
    obtain ⟨rfl, rfl⟩ := Prod.mk.inj (Except.ok.inj done)
    exact allocateBuffer_evolves h allocated
  | create name v site =>
    obtain ⟨⟨mid, place⟩, created, done⟩ := bind_eq_ok.1 done
    obtain ⟨rfl, rfl⟩ := Prod.mk.inj (Except.ok.inj done)
    exact placePayload_evolves h created
  | nest outer name proto site =>
    obtain ⟨⟨mid, place⟩, nested, done⟩ := bind_eq_ok.1 done
    obtain ⟨rfl, rfl⟩ := Prod.mk.inj (Except.ok.inj done)
    exact nest_evolves h nested
  | moveInto outer name site =>
    obtain ⟨⟨mid, place⟩, moved, done⟩ := bind_eq_ok.1 done
    obtain ⟨rfl, rfl⟩ := Prod.mk.inj (Except.ok.inj done)
    exact moveInto_evolves h moved
  | reset name proto =>
    obtain ⟨mid, renewed, done⟩ := bind_eq_ok.1 done
    obtain ⟨rfl, rfl⟩ := Prod.mk.inj (Except.ok.inj done)
    exact reset_evolves h renewed
  | drop name =>
    obtain ⟨mid, dropped, done⟩ := bind_eq_ok.1 done
    obtain ⟨rfl, rfl⟩ := Prod.mk.inj (Except.ok.inj done)
    exact drop_evolves h dropped
  | label token text =>
    obtain ⟨rfl, rfl⟩ := Prod.mk.inj (Except.ok.inj done)
    exact .still rfl rfl
  | clearLog =>
    obtain ⟨rfl, rfl⟩ := Prod.mk.inj (Except.ok.inj done)
    exact .still rfl rfl

/-! ## Runs -/

/-- The blocks that each region handed out in the course of the operations, since it was made or last reset. -/
def blocks (os : List (RawSupply × Operation)) (answers : List Answer) : Blocks :=
  (os.zip answers).foldl (fun b s => s.1.2.handed b s.2) fun _ => []

/-- What every change of the stock keeps, every run keeps. -/
theorem run_keeps {I : Stock → Prop} {leave : Option Nat} {os : List (RawSupply × Operation)}
    {answers : List Answer} (keeps : ∀ o ∈ os, ∀ {s s'}, Change o.1 leave s s' → I s → I s')
    (h : st.Sound c) (same : st.leave = leave) (start : I (st.stock b))
    (ran : st.run os = .ok (st', answers)) :
    I (st'.stock ((os.zip answers).foldl (fun b s => s.1.2.handed b s.2) b)) ∧ st'.leave = leave := by
  induction os generalizing st b c answers with
  | nil =>
    obtain ⟨rfl, -⟩ := Prod.mk.inj (Except.ok.inj ran)
    exact ⟨start, same⟩
  | cons o os ih =>
    obtain ⟨⟨mid, answer⟩, first, ran⟩ := bind_eq_ok.1 ran
    obtain ⟨⟨last, others⟩, rest, done⟩ := bind_eq_ok.1 ran
    obtain ⟨rfl, rfl⟩ := Prod.mk.inj (Except.ok.inj done)
    obtain ⟨keep, keeps⟩ := List.forall_mem_cons.1 keeps
    have evolves := h.nextStep.perform_evolves b first
    have kept : I (mid.stock (o.2.handed b answer)) := evolves.keeps (same ▸ keep) start
    exact ih keeps (h.nextStep.perform first) (evolves.leave.trans same) kept rest

end RegionStore

end FreeStore
