import FreeStore.Proofs.LogRecords
import FreeStore.Proofs.Sessions
/-!
The log reconciles with the regions.

The log and the regions are told of each other in three places only: where a region is attached, where a block is
counted and where a region ends. Each operation is followed from one of these to the next, with the log up to date
with the register in between (`RegionStore.Logged`). A reset attaches the new region before the old one ends, and a
region inside ends in the middle of the teardown of the outer one; so the regions that are watched are named
explicitly, whether they are among the living at that moment or not.
-/
namespace FreeStore

/-- The living regions that are attached to the log. -/
def Living.subjects (l : Living) : List Subject := l.filterMap fun p => p.2.subject

/-- The attached regions that end in these events. -/
def RegionStore.closed (events : List RegionEvent) : List Subject :=
  events.filterMap fun
    | .torn (.ended r) => r.subject
    | _ => none

/-- What happened is written down. -/
def Register.close (h : Register) (events : List RegionEvent) : Register :=
  { h with ended := h.ended ++ RegionStore.closed events }

section

variable {l k rest : Living} {name : String} {r q : Region} {size : Nat} {supplied : Option Segment} {place : Place}
  {events later : List RegionEvent} {h : Register} {rs : List Region}

theorem subjects_cons : (r :: rs).filterMap Region.subject = r.subject.toList ++ rs.filterMap Region.subject := by
  rw [List.filterMap_cons]
  cases r.subject <;> rfl

theorem Living.subjects_cons : Living.subjects ((name, r) :: l) = r.subject.toList ++ l.subjects := by
  rw [subjects, List.filterMap_cons]
  cases r.subject <;> rfl

theorem Living.length_subjects : l.subjects.length = (l.filter fun p => p.2.observed).length := by
  induction l with
  | nil => rfl
  | cons p l ih =>
    obtain ⟨name, r⟩ := p
    rw [subjects_cons, List.length_append, ih, List.filter_cons]
    cases observed : r.observed <;> simp [Region.subject, observed, Nat.add_comm]

theorem Living.perm_subjects (h : l.Perm k) : l.subjects.Perm k.subjects := h.filterMap _

theorem RegionStore.closed_append : closed (events ++ later) = closed events ++ closed later :=
  List.filterMap_append

theorem Register.close_nil : h.close [] = h := by
  rw [close, RegionStore.closed, List.filterMap_nil, List.append_nil]

theorem Register.close_append : h.close (events ++ later) = (h.close events).close later := by
  rw [close, RegionStore.closed_append, close, close, List.append_assoc]

theorem Region.Takes.subject (h : r.Takes size supplied place q) : q.subject = r.subject := by
  cases h <;> rfl

/-- Only what the region was then is written down of an attachment. -/
theorem Register.attach_congr (area : q.area = r.area) (kind : q.kind = r.kind)
    (bytes : q.bytesAllocated = r.bytesAllocated) : h.attach q = h.attach r := by
  rw [attach, attach, area, kind, bytes]

end

namespace RegionStore

/-- The log, if there is one, is up to date with the register, for the regions that are watched. -/
structure Logged (k : Option SiteCollection) (h : Register) (watched : List Subject) (st : RegionStore) : Prop where
  collects : st.log.map AllocationLog.collection = k
  follows : ∀ log ∈ st.log, log.Follows log.collection (h.close st.events) watched

variable {c : Created} {k : Option SiteCollection} {h : Register} {aside watched watched' : List Subject}
  {st st' : RegionStore} {name outer proto : String} {r q : Region} {raw : RawSupply} {site : Site} {place : Place}
  {size : Nat} {v : Payload} {item : Item} {a : Action} {answer : Answer}

theorem Logged.perm (l : st.Logged k h watched) (perm : watched.Perm watched') : st.Logged k h watched' :=
  ⟨l.collects, fun log hl => (l.follows log hl).perm perm⟩

/-! ## Attaching -/

theorem Logged.attach (l : st.Logged k h (r.subject.toList ++ watched)) :
    (st.attach r).1.Logged k (h.attach r) ((st.attach r).2.subject.toList ++ watched) := by
  unfold RegionStore.attach
  cases found : st.log with
  | none => exact ⟨l.collects, fun log hl => by rw [found] at hl; cases hl⟩
  | some log =>
    have collects := l.collects
    rw [found] at collects
    refine ⟨collects, ?_⟩
    rintro _ ⟨⟩
    exact (l.follows log found).attach

/-- A fresh region is attached as often as it is to be. -/
theorem Logged.attachTimes {n : Nat} (l : st.Logged k h (r.subject.toList ++ watched)) (area : q.area = r.area)
    (kind : q.kind = r.kind) (bytes : q.bytesAllocated = r.bytesAllocated) :
    (attachTimes n st r).1.Logged k ((List.replicate n q).foldl Register.attach h)
      ((RegionStore.attachTimes n st r).2.subject.toList ++ watched) := by
  induction n generalizing st r h with
  | zero => exact l
  | succ n ih =>
    obtain ⟨log, observed, token, attached⟩ := attach_eq st r
    have next := l.attach
    rw [RegionStore.attachTimes]
    rw [attached] at next ⊢
    rw [List.replicate_succ, List.foldl_cons, Register.attach_congr area kind bytes]
    exact ih next area kind bytes

/-- What is attached when a region is made with the settings of another one. -/
def likeAttaches (st : RegionStore) (proto : Region) : List Region :=
  if proto.observed then [{ area := st.fresh, kind := proto.kind }] else []

theorem Logged.likePrototype (l : st.Logged k h watched) (proto : Region) :
    (st.likePrototype proto).1.Logged k ((st.likeAttaches proto).foldl Register.attach h)
      ((st.likePrototype proto).2.subject.toList ++ watched) := by
  have started : Logged k h watched { st with fresh := st.fresh + 1 } := ⟨l.collects, l.follows⟩
  unfold RegionStore.likePrototype likeAttaches blank
  dsimp only
  split
  · exact Logged.attach (r := { area := st.fresh, kind := proto.kind }) started
  · exact started

/-! ## Blocks -/

/-- A living region is put back, as far as the log knows it the same. -/
theorem Logged.put (l : st.Logged k h (aside ++ st.living.subjects)) (names : (st.living.map Prod.fst).Nodup)
    (found : st.living.lookup name = some r) (same : q.subject = r.subject) :
    (st.put name q).Logged k h (aside ++ (st.put name q).living.subjects) := by
  obtain ⟨rest, front, put⟩ := Living.exists_front names found
  have before := Living.perm_subjects front
  have after := Living.perm_subjects (put q)
  rw [Living.subjects_cons] at before after
  rw [same] at after
  have kept := l.perm ((before.trans after.symm).append_left aside)
  exact ⟨kept.collects, kept.follows⟩

/-- A block that is placed in a region is counted, by the region and by the log. -/
theorem Logged.countBlock (l : st.Logged k h (r.subject.toList ++ watched))
    (done : st.countBlock name r size site = .ok st') : st'.Logged k h
      ((Region.subject { r with bytesAllocated := r.bytesAllocated + size }).toList ++ watched) := by
  obtain ⟨bytesAllocated, counted, done⟩ := bind_eq_ok.1 done
  obtain ⟨-, rfl⟩ := Word.add_eq_ok.1 counted
  obtain ⟨provider, leave, log, fresh, living, roots, storage, profilers, events⟩ := st
  obtain ⟨collects, follows⟩ := l
  cases log with
  | none =>
    obtain rfl := Except.ok.inj done
    exact ⟨collects, nofun⟩
  | some log =>
    have follows := follows log rfl
    simp only [RegionStore.put] at done
    cases observed : r.observed with
    | false =>
      simp only [observed, Bool.false_eq_true, if_false] at done
      obtain rfl := Except.ok.inj done
      simp only [Region.subject, observed, Bool.false_eq_true, if_false] at follows ⊢
      refine ⟨collects, ?_⟩
      rintro _ ⟨⟩
      exact follows
    | true =>
      simp only [observed, if_true] at done
      obtain ⟨log', told, done⟩ := bind_eq_ok.1 done
      obtain rfl := Except.ok.inj done
      simp only [Region.subject, observed, if_true] at follows ⊢
      have next := follows.allocated told
      refine ⟨(congrArg some next.collects).trans collects, ?_⟩
      rintro _ ⟨⟩
      exact next.collects ▸ next

theorem Logged.handOut (done : st.handOut name q place size site = .ok st')
    (l : st.Logged k h (aside ++ st.living.subjects)) (names : (st.living.map Prod.fst).Nodup)
    (found : st.living.lookup name = some r) (same : q.subject = r.subject) :
    st'.Logged k h (aside ++ st'.living.subjects) := by
  obtain ⟨rest, front, put⟩ := Living.exists_front names found
  have before := Living.perm_subjects front
  have after := Living.perm_subjects (put { q with bytesAllocated := q.bytesAllocated + size })
  rw [Living.subjects_cons] at before after
  rw [← same] at before
  have own := l.perm ((before.append_left aside).trans (List.perm_append_comm_assoc ..))
  have handed : Logged k h _ { st with storage := st.storage.handOut (q.stretch place size) } :=
    ⟨own.collects, own.follows⟩
  have counted := handed.countBlock done
  obtain ⟨log, rfl⟩ := handOut_eq_ok done
  exact counted.perm ((List.perm_append_comm_assoc ..).trans (after.symm.append_left aside))

/-- Whatever happens but the end of a region does not go into the register. -/
theorem Logged.tell {e : RegionEvent} (l : st.Logged k h watched) (log : st'.log = st.log)
    (events : st'.events = st.events ++ [e]) (silent : closed [e] = []) : st'.Logged k h watched := by
  refine ⟨log ▸ l.collects, ?_⟩
  rw [log, events, Register.close_append, Register.close, silent, List.append_nil]
  exact l.follows

/-- The traffic with the provider is not told to the log. -/
theorem Logged.requestSegment {s : Except SegmentError Segment} (l : st.Logged k h watched)
    (done : st.requestSegment raw size = .ok (st', s)) : st'.Logged k h watched := by
  obtain ⟨⟨provider, supplied⟩, -, done⟩ := bind_eq_ok.1 done
  cases supplied <;>
  · obtain ⟨rfl, -⟩ := Prod.mk.inj (Except.ok.inj done)
    exact l.tell rfl rfl rfl

theorem Logged.placeBlock {supplied : Except SegmentError Place} (l : st.Logged k h (aside ++ st.living.subjects))
    (sound : st.Sound c) (done : st.placeBlock raw name size site = .ok (st', supplied)) :
    st'.Logged k h (aside ++ st'.living.subjects) := by
  obtain ⟨r, found, done⟩ := bind_eq_ok.1 done
  have found := find_eq_ok found
  obtain ⟨placed, within, done⟩ := bind_eq_ok.1 done
  cases placed with
  | some placed =>
    obtain ⟨last, handed, done⟩ := bind_eq_ok.1 done
    obtain ⟨rfl, -⟩ := Prod.mk.inj (Except.ok.inj done)
    exact l.handOut handed sound.forest.names found (placeWithin_takes within).subject
  | none =>
    obtain ⟨⟨mid, supplied'⟩, requested, done⟩ := bind_eq_ok.1 done
    have asked := l.requestSegment requested
    rcases requestSegment_eq_ok requested with ⟨events, rfl, e, rfl⟩ | ⟨provider, events, t, rfl, rfl, provided⟩
    · obtain ⟨rfl, -⟩ := Prod.mk.inj (Except.ok.inj done)
      exact asked
    · obtain ⟨⟨q, place⟩, within, done⟩ := bind_eq_ok.1 done
      obtain ⟨last, handed, done⟩ := bind_eq_ok.1 done
      obtain ⟨rfl, -⟩ := Prod.mk.inj (Except.ok.inj done)
      exact asked.handOut handed sound.forest.names found (placeIn_takes within).subject

theorem Logged.tryAllocate {bytes : Nat} {tried : Except RegionError Place} (l : st.Logged k h st.living.subjects)
    (sound : st.Sound c) (done : st.tryAllocate raw name bytes site = .ok (st', tried)) :
    st'.Logged k h st'.living.subjects := by
  obtain ⟨size, -, done⟩ := bind_eq_ok.1 done
  obtain ⟨⟨mid, supplied⟩, placed, done⟩ := bind_eq_ok.1 done
  have all : st.Logged k h ([] ++ st.living.subjects) := l
  cases supplied <;> exact (Prod.mk.inj (Except.ok.inj done)).1 ▸ all.placeBlock sound placed

theorem Logged.tryAllocateAligned {bytes align : Nat} {tried : Except RegionError Place}
    (l : st.Logged k h st.living.subjects) (sound : st.Sound c)
    (done : st.tryAllocateAligned raw name bytes align site = .ok (st', tried)) :
    st'.Logged k h st'.living.subjects := by
  unfold RegionStore.tryAllocateAligned at done
  split at done
  · exact (Prod.mk.inj (Except.ok.inj done)).1 ▸ l
  · exact l.tryAllocate sound done

theorem Logged.allocate {bytes : Nat} (l : st.Logged k h st.living.subjects) (sound : st.Sound c)
    (done : st.allocate raw name bytes site = .ok (st', place)) : st'.Logged k h st'.living.subjects := by
  obtain ⟨⟨mid, tried⟩, asked, done⟩ := bind_eq_ok.1 done
  cases tried with
  | error e => cases done
  | ok place => exact (Prod.mk.inj (Except.ok.inj done)).1 ▸ l.tryAllocate sound asked

theorem Logged.allocateBuffer {bytes align : Nat} {buffer : Buffer} (l : st.Logged k h st.living.subjects)
    (sound : st.Sound c) (done : st.allocateBuffer raw name bytes align site = .ok (st', buffer)) :
    st'.Logged k h st'.living.subjects := by
  unfold RegionStore.allocateBuffer at done
  split at done
  · exact (Prod.mk.inj (Except.ok.inj done)).1 ▸ l
  · obtain ⟨⟨mid, tried⟩, asked, done⟩ := bind_eq_ok.1 done
    cases tried <;> exact (Prod.mk.inj (Except.ok.inj done)).1 ▸ l.tryAllocateAligned sound asked

/-! ## Creating -/

theorem Logged.placePayload {back : Place} (l : st.Logged k h (aside ++ st.living.subjects)) (sound : st.Sound c)
    (done : st.placePayload raw name v item site = .ok (st', back)) :
    st'.Logged k h (aside ++ st'.living.subjects) := by
  obtain ⟨⟨mid, supplied⟩, block, done⟩ := bind_eq_ok.1 done
  have placed := l.placeBlock sound block
  have names := (sound.placeBlock block).forest.names
  cases supplied with
  | error e => cases done
  | ok place =>
    obtain ⟨last, threaded, done⟩ := bind_eq_ok.1 done
    obtain ⟨rfl, -⟩ := Prod.mk.inj (Except.ok.inj done)
    obtain ⟨r, found, threaded⟩ := bind_eq_ok.1 threaded
    obtain rfl := Except.ok.inj threaded
    have linked := placed.put (q := { r with last := some place }) names (find_eq_ok found) rfl
    exact ⟨linked.collects, linked.follows⟩

theorem Logged.add (l : st.Logged k h (r.subject.toList ++ st.living.subjects))
    (done : st.add name r = .ok st') : st'.Logged k h st'.living.subjects := by
  obtain ⟨-, rfl⟩ := add_eq_ok done
  dsimp only
  rw [Living.subjects_cons]
  exact ⟨l.collects, l.follows⟩

theorem Logged.addTopLevel (done : st.addTopLevel name r = .ok st')
    (l : st.Logged k h (r.subject.toList ++ st.living.subjects)) : st'.Logged k h st'.living.subjects := by
  obtain ⟨mid, added, done⟩ := bind_eq_ok.1 done
  obtain rfl := Except.ok.inj done
  have named := l.add added
  exact ⟨named.collects, named.follows⟩

theorem Logged.moveInto {back : Place} (l : st.Logged k h st.living.subjects) (sound : st.Sound c)
    (done : st.moveInto raw outer name site = .ok (st', back)) : st'.Logged k h st'.living.subjects := by
  obtain ⟨_, -, done⟩ := bind_eq_ok.1 done
  obtain ⟨left, -, done⟩ := bind_eq_ok.1 done
  obtain ⟨_, -, done⟩ := bind_eq_ok.1 done
  obtain ⟨⟨mid, place⟩, placed, done⟩ := bind_eq_ok.1 done
  obtain ⟨rfl, -⟩ := Prod.mk.inj (Except.ok.inj done)
  have all : st.Logged k h ([] ++ st.living.subjects) := l
  have moved := all.placePayload sound placed
  exact ⟨moved.collects, moved.follows⟩

/-! ## Destroying -/

/-- A region ends. -/
theorem Logged.ends (l : st.Logged k h (r.subject.toList ++ watched))
    (done : st.applyEvent (.ended r) = .ok st') : st'.Logged k h watched ∧ st'.living = st.living := by
  obtain rfl := Except.ok.inj done
  cases observed : r.observed with
  | false =>
    simp only [Region.subject, observed, Bool.false_eq_true, if_false] at l
    exact ⟨l.tell rfl rfl (by simp [closed, Region.subject, observed]), rfl⟩
  | true =>
    have told : closed [.torn (.ended r)] = [⟨r.token, r.area, r.bytesAllocated⟩] := by
      simp [closed, Region.subject, observed]
    simp only [Region.subject, observed, if_true] at l
    refine ⟨⟨?_, ?_⟩, rfl⟩
    · rw [← l.collects, if_pos rfl, Option.map_map]
      rfl
    · rw [if_pos rfl]
      intro log hl
      obtain ⟨before, hb, rfl⟩ := Option.map_eq_some_iff.1 hl
      have ended := (l.follows before hb).destroyed
      rw [Register.close_append, Register.close, told]
      exact ended

/-- The log learns of every region that ends, at its place. -/
theorem Logged.applyEvents {events : List TeardownEvent}
    (l : st.Logged k h ((endings events).filterMap Region.subject ++ watched))
    (done : events.foldlM applyEvent st = .ok st') : st'.Logged k h watched ∧ st'.living = st.living := by
  induction events generalizing st with
  | nil =>
    obtain rfl := Except.ok.inj done
    exact ⟨l, rfl⟩
  | cons e events ih =>
    rw [List.foldlM_cons] at done
    obtain ⟨mid, first, done⟩ := bind_eq_ok.1 done
    have step : mid.Logged k h ((endings events).filterMap Region.subject ++ watched) ∧ mid.living = st.living := by
      cases e with
      | destroyed tag loud =>
        obtain rfl := Except.ok.inj first
        exact ⟨l.tell rfl rfl rfl, rfl⟩
      | released s =>
        obtain ⟨provider, released, first⟩ := bind_eq_ok.1 first
        obtain rfl := Except.ok.inj first
        exact ⟨l.tell rfl rfl rfl, rfl⟩
      | ended r =>
        have own : endings (.ended r :: events) = r :: endings events := rfl
        rw [own, subjects_cons, List.append_assoc] at l
        exact l.ends first
    obtain ⟨rest, same⟩ := ih step.1 done
    exact ⟨rest, same.trans step.2⟩

theorem Detached.logged {items : List Item} (d : st.Detached c items r) (done : st.destroy r = .ok st')
    (l : st.Logged k h (r.subject.toList ++ st.living.subjects)) : st'.Logged k h st'.living.subjects := by
  obtain ⟨left, events, gone, torn, unwound⟩ := d.teardown
  rw [RegionStore.destroy, torn, ok_bind] at done
  have parts := Living.perm_subjects unwound.parts
  have ended := unwound.ended.filterMap Region.subject
  rw [List.filterMap_map] at ended
  have watched : (r.subject.toList ++ st.living.subjects).Perm
      ((endings (events ++ r.ending)).filterMap Region.subject ++ left.subjects) := by
    rw [endings_append, endings_ending, List.filterMap_append]
    refine (parts.append_left _).trans ?_
    rw [Living.subjects, List.filterMap_append, ← List.append_assoc]
    refine List.Perm.append_right _ (List.perm_append_comm.trans ?_)
    refine ended.symm.append ?_
    rw [subjects_cons, List.filterMap_nil, List.append_nil]
  have before := l.perm watched
  have start : Logged k h _ { st with living := left } := ⟨before.collects, before.follows⟩
  obtain ⟨after, same⟩ := start.applyEvents done
  exact same ▸ after

theorem Logged.drop (l : st.Logged k h st.living.subjects) (sound : st.Sound c)
    (done : st.drop name = .ok st') : st'.Logged k h st'.living.subjects := by
  obtain ⟨_, root, done⟩ := bind_eq_ok.1 done
  obtain ⟨r, rest, taken, detached⟩ := sound.takeOut (List.contains_iff_mem.1 (require_eq_ok.1 root))
  rw [taken] at done
  have front := Living.perm_subjects (Living.perm_of_takeOut taken)
  rw [Living.subjects_cons] at front
  have own := l.perm front
  exact detached.logged done ⟨own.collects, own.follows⟩

/-- The new region is attached before the old one ends. -/
theorem Logged.reset (l : st.Logged k h st.living.subjects) (sound : st.Sound c)
    (done : st.reset name proto = .ok st') :
    st'.Logged k (((st.living.lookup proto).elim [] st.likeAttaches).foldl Register.attach h)
      st'.living.subjects := by
  obtain ⟨r, found, done⟩ := bind_eq_ok.1 done
  have found := find_eq_ok found
  obtain ⟨p, prototype, done⟩ := bind_eq_ok.1 done
  have attached := l.likePrototype p
  obtain ⟨log, observed, token, blank⟩ := likePrototype_eq st p
  rw [blank] at attached done
  rw [find_eq_ok prototype]
  obtain ⟨rest, front, put⟩ := Living.exists_front sound.forest.names found
  have before := Living.perm_subjects front
  have after := Living.perm_subjects (put { area := st.fresh, kind := p.kind, observed, token })
  rw [Living.subjects_cons] at before after
  have own := attached.perm ((before.append_left _).trans ((List.perm_append_comm_assoc ..).trans
    (after.symm.append_left _)))
  have detached := sound.renew log found (q := { area := st.fresh, kind := p.kind, observed, token })
    ⟨rfl, rfl, rfl, rfl, rfl, rfl⟩
  exact detached.logged done ⟨own.collects, own.follows⟩

/-! ## Every action -/

/-- The regions that are attached in the course of an action, as they are then. -/
def Action.attaches (st : RegionStore) : Action → List Region
  | .operate _ (.make _ kind _ times) => List.replicate times { area := st.fresh, kind := kind.getD .heap }
  | .operate _ (.makeLike _ proto) | .operate _ (.nest _ _ proto _) | .operate _ (.reset _ proto) =>
    (st.living.lookup proto).elim [] st.likeAttaches
  | .observe name => (st.living.lookup name).toList
  | _ => []

theorem Logged.make {kind lateKind : Option RegionKind} {observe : Nat} (l : st.Logged k h st.living.subjects)
    (done : st.make name kind lateKind observe = .ok st') : st'.Logged k
      ((List.replicate observe { area := st.fresh, kind := kind.getD .heap }).foldl Register.attach h)
      st'.living.subjects := by
  have blank : Logged k h _ { st with fresh := st.fresh + 1 } := ⟨l.collects, l.follows⟩
  have attached := blank.attachTimes (r := { area := st.fresh, kind := kind.getD .heap }) (n := observe) rfl rfl rfl
  obtain ⟨log, observed, token, same⟩ := attachTimes_eq observe { st with fresh := st.fresh + 1 }
    { area := st.fresh, kind := kind.getD .heap }
  simp only [RegionStore.make, RegionStore.blank, same] at attached done
  exact Logged.addTopLevel done ⟨attached.collects, attached.follows⟩

theorem Logged.makeLike (l : st.Logged k h st.living.subjects) (done : st.makeLike name proto = .ok st') :
    st'.Logged k (((st.living.lookup proto).elim [] st.likeAttaches).foldl Register.attach h)
      st'.living.subjects := by
  obtain ⟨p, found, done⟩ := bind_eq_ok.1 done
  have attached := l.likePrototype p
  obtain ⟨log, observed, token, blank⟩ := likePrototype_eq st p
  rw [blank] at attached done
  rw [find_eq_ok found]
  exact Logged.addTopLevel done ⟨attached.collects, attached.follows⟩

/-- The new region is attached before it is placed in the outer one. -/
theorem Logged.nest {back : Place} (l : st.Logged k h st.living.subjects) (sound : st.Sound c)
    (done : st.nest raw outer name proto site = .ok (st', back)) :
    st'.Logged k (((st.living.lookup proto).elim [] st.likeAttaches).foldl Register.attach h)
      st'.living.subjects := by
  obtain ⟨p, found, done⟩ := bind_eq_ok.1 done
  have attached := l.likePrototype p
  obtain ⟨log, observed, token, blank⟩ := likePrototype_eq st p
  rw [blank] at attached done
  rw [find_eq_ok found]
  obtain ⟨⟨mid, place⟩, placed, done⟩ := bind_eq_ok.1 done
  obtain ⟨last, added, done⟩ := bind_eq_ok.1 done
  obtain ⟨rfl, -⟩ := Prod.mk.inj (Except.ok.inj done)
  have started : Sound c { st with fresh := st.fresh + 1, log } :=
    ⟨sound.kept.later, sound.books, sound.forest⟩
  exact (attached.placePayload started placed).add added

theorem Logged.perform {o : Operation} (l : st.Logged k h st.living.subjects) (sound : st.Sound c)
    (stays : o ≠ .clearLog) (done : st.perform raw o = .ok (st', answer)) :
    st'.Logged k ((Action.attaches st (.operate raw o)).foldl Register.attach h) st'.living.subjects := by
  cases o with
  | make name kind lateKind observe =>
    obtain ⟨mid, made, done⟩ := bind_eq_ok.1 done
    obtain ⟨rfl, -⟩ := Prod.mk.inj (Except.ok.inj done)
    exact l.make made
  | makeLike name proto =>
    obtain ⟨mid, made, done⟩ := bind_eq_ok.1 done
    obtain ⟨rfl, -⟩ := Prod.mk.inj (Except.ok.inj done)
    exact l.makeLike made
  | allocate name bytes site =>
    obtain ⟨⟨mid, place⟩, allocated, done⟩ := bind_eq_ok.1 done
    exact (Prod.mk.inj (Except.ok.inj done)).1 ▸ l.allocate sound allocated
  | tryAllocate name bytes site =>
    obtain ⟨⟨mid, tried⟩, allocated, done⟩ := bind_eq_ok.1 done
    exact (Prod.mk.inj (Except.ok.inj done)).1 ▸ l.tryAllocate sound allocated
  | tryAllocateAligned name bytes align site =>
    obtain ⟨⟨mid, tried⟩, allocated, done⟩ := bind_eq_ok.1 done
    exact (Prod.mk.inj (Except.ok.inj done)).1 ▸ l.tryAllocateAligned sound allocated
  | allocateBuffer name bytes align site =>
    obtain ⟨⟨mid, buffer⟩, allocated, done⟩ := bind_eq_ok.1 done
    exact (Prod.mk.inj (Except.ok.inj done)).1 ▸ l.allocateBuffer sound allocated
  | create name v site =>
    obtain ⟨⟨mid, back⟩, created, done⟩ := bind_eq_ok.1 done
    have all : st.Logged k h ([] ++ st.living.subjects) := l
    exact (Prod.mk.inj (Except.ok.inj done)).1 ▸ all.placePayload sound created
  | nest outer name proto site =>
    obtain ⟨⟨mid, back⟩, nested, done⟩ := bind_eq_ok.1 done
    exact (Prod.mk.inj (Except.ok.inj done)).1 ▸ l.nest sound nested
  | moveInto outer name site =>
    obtain ⟨⟨mid, back⟩, moved, done⟩ := bind_eq_ok.1 done
    exact (Prod.mk.inj (Except.ok.inj done)).1 ▸ l.moveInto sound moved
  | reset name proto =>
    obtain ⟨mid, renewed, done⟩ := bind_eq_ok.1 done
    exact (Prod.mk.inj (Except.ok.inj done)).1 ▸ l.reset sound renewed
  | drop name =>
    obtain ⟨mid, dropped, done⟩ := bind_eq_ok.1 done
    exact (Prod.mk.inj (Except.ok.inj done)).1 ▸ l.drop sound dropped
  | label token text =>
    obtain ⟨rfl, -⟩ := Prod.mk.inj (Except.ok.inj done)
    refine ⟨?_, fun log hl => ?_⟩
    · rw [← l.collects, updateLog, Option.map_map]
      rfl
    · obtain ⟨before, hb, rfl⟩ := Option.map_eq_some_iff.1 hl
      exact (l.follows before hb).labelled token text
  | clearLog => exact absurd rfl stays

/-- The register after an action that led from the one store to the other. -/
def after (h : Register) (st : RegionStore) (a : Action) (st' : RegionStore) : Register :=
  let h := (a.attaches st).foldl Register.attach h
  match a with
  | .operate _ .clearLog => { h with cleared := h.ended.length }
  | _ => h.close st'.events

/-- What happened in the step is in the register by now. -/
theorem Logged.nextStep (l : st.Logged k h watched) : st.nextStep.Logged k (h.close st.events) watched :=
  ⟨l.collects, fun log hl => Register.close_nil.symm ▸ l.follows log hl⟩

theorem after_operate {o : Operation} (stays : o ≠ .clearLog) : after h st (.operate raw o) st' =
    ((Action.attaches st (.operate raw o)).foldl Register.attach h).close st'.events := by
  cases o with
  | clearLog => exact absurd rfl stays
  | _ => rfl

theorem Logged.clearLog (l : st.nextStep.Logged k h watched) :
    Logged k { h with cleared := h.ended.length } watched (st.nextStep.updateLog AllocationLog.clear).nextStep := by
  refine ⟨?_, fun log hl => ?_⟩
  · rw [← l.collects, RegionStore.nextStep, updateLog, Option.map_map]
    rfl
  · obtain ⟨before, hb, rfl⟩ := Option.map_eq_some_iff.1 hl
    have follows := l.follows before hb
    rw [RegionStore.nextStep, Register.close_nil] at follows ⊢
    exact follows.clear

/-- A top level region is attached, be it for the first time or not. -/
theorem Logged.observe (l : st.Logged k h st.living.subjects) (sound : st.Sound c)
    (done : st.observe name = .ok st') :
    st'.Logged k ((st.living.lookup name).toList.foldl Register.attach h) st'.living.subjects := by
  obtain ⟨_, -, done⟩ := bind_eq_ok.1 done
  obtain ⟨r, found, done⟩ := bind_eq_ok.1 done
  obtain rfl := Except.ok.inj done
  have found := find_eq_ok found
  obtain ⟨rest, front, put⟩ := Living.exists_front sound.forest.names found
  have before := Living.perm_subjects front
  have after := Living.perm_subjects (put (st.attach r).2)
  rw [Living.subjects_cons] at before after
  have attached := (l.perm before).attach.perm after.symm
  have living : (st.attach r).1.living = st.living := by
    obtain ⟨log, observed, token, same⟩ := attach_eq st r
    rw [same]
  rw [found]
  rw [← living] at attached
  exact ⟨attached.collects, attached.follows⟩

theorem Logged.act (l : st.nextStep.Logged k h st.living.subjects) (sound : st.Sound c)
    (done : st.act a = .ok (st', answer)) : st'.nextStep.Logged k (after h st a st') st'.living.subjects := by
  cases a with
  | operate raw o =>
    by_cases clears : o = .clearLog
    · subst clears
      obtain ⟨rfl, -⟩ := Prod.mk.inj (Except.ok.inj done)
      exact l.clearLog
    · rw [after_operate clears]
      exact (Logged.perform l sound.nextStep clears done).nextStep
  | setKind name kind =>
    obtain ⟨last, revised, done⟩ := bind_eq_ok.1 done
    obtain ⟨rfl, -⟩ := Prod.mk.inj (Except.ok.inj done)
    obtain ⟨_, -, revised⟩ := bind_eq_ok.1 revised
    obtain ⟨r, found, revised⟩ := bind_eq_ok.1 revised
    obtain rfl := Except.ok.inj revised
    have all : Logged k h ([] ++ st.nextStep.living.subjects) st.nextStep := l
    exact (all.put (q := { r with kind }) sound.forest.names (find_eq_ok found) rfl).nextStep
  | observe name =>
    obtain ⟨last, attached, done⟩ := bind_eq_ok.1 done
    obtain ⟨rfl, -⟩ := Prod.mk.inj (Except.ok.inj done)
    exact (Logged.observe l sound.nextStep attached).nextStep

/-- The register of a session, from a store where it is `h`. -/
def registerFrom (h : Register) : RegionStore → List Action → Register
  | _, [] => h
  | st, a :: as =>
    match st.act a with
    | .ok (st', _) => registerFrom (after h st a st') st' as
    | .error _ => h

/-- The register of a session: all attachments, and the attached regions that ended. -/
def register (st : RegionStore) (as : List Action) : Register := registerFrom {} st as

theorem Logged.session {as : List Action} {answers : List Answer}
    (l : st.nextStep.Logged k h st.living.subjects) (sound : st.Sound c)
    (ran : st.session as = .ok (st', answers)) :
    st'.nextStep.Logged k (registerFrom h st as) st'.living.subjects := by
  induction as generalizing st c h answers with
  | nil =>
    obtain ⟨rfl, -⟩ := Prod.mk.inj (Except.ok.inj ran)
    exact l
  | cons a as ih =>
    obtain ⟨⟨mid, answer⟩, first, ran⟩ := bind_eq_ok.1 ran
    obtain ⟨⟨last, others⟩, rest, done⟩ := bind_eq_ok.1 ran
    obtain ⟨rfl, -⟩ := Prod.mk.inj (Except.ok.inj done)
    obtain ⟨d, next⟩ := sound.act first
    rw [registerFrom, first]
    exact ih (l.act sound first) next rest

/-- A store without regions, and a log, if any, that has not watched any. -/
theorem logged_new {provider : Provider} {leave : Option Nat} (k : Option SiteCollection) :
    Logged k {} [] { provider, leave, log := k.map fun collection => { collection } } := by
  cases k with
  | none => exact ⟨rfl, nofun⟩
  | some collection =>
    refine ⟨rfl, ?_⟩
    rintro _ ⟨⟩
    have none : Dated [] 0 0 := ⟨.nil, by simp, .nil, by simp⟩
    exact ⟨rfl, rfl, none, ⟨[], .refl _, fun _ => rfl⟩, by simp, by simp, .refl _, Nat.le_refl _, .nil⟩

/-- In every session from a store without regions, with a log that no region is attached to twice, the log tells of the
regions what they are. Tokens are given out in order, and no two records have the same. The regions that are live in
the log are the living regions that are attached, which are those that were attached and did not end, and the finished
ones are the attached regions that ended, in that order, but for those that the log was cleared of. A finished record
has the bytes that its region had allocated in the end, and its call sites have those allocated since the attachment,
if they are collected for the kind that the region had then, and are none if they are not. A region ends later than it
starts, and no two of these moments are the same. -/
theorem log_reconciles {segmentSize limit leave : Option Nat} {collection : SiteCollection} {provider : Provider}
    {start : RegionStore} {as : List Action} {answers : List Answer}
    (made : Provider.create segmentSize limit = .ok provider)
    (begins : start = { provider, leave, log := some { collection } })
    (ran : start.session as = .ok (st, answers))
    (once : ((register start as).attached.map Attachment.area).Nodup) :
    ∃ log, st.log = some log ∧ log.collection = collection ∧
      (register start as).attached.map Attachment.token = List.range' 1 log.lastToken ∧
      ((log.live ++ log.finished).map RegionRecord.token).Nodup ∧
      (log.live.map RegionRecord.token).Perm (st.living.subjects.map Subject.token) ∧
      log.live.length = (st.living.filter fun p => p.2.observed).length ∧
      ((register start as).attached.map Attachment.token).Perm
        (log.live.map RegionRecord.token ++ (register start as).ended.map Subject.token) ∧
      ((log.live ++ log.finished).flatMap RegionRecord.times).Nodup ∧
      List.Forall₂ (RegionRecord.Closes collection (register start as).attached) log.finished
        ((register start as).ended.drop (register start as).cleared) := by
  subst begins
  have sound : Sound (fun _ => []) { provider, leave, log := some { collection } } :=
    sound_new (Provider.accounts_create made)
  obtain ⟨collects, follows⟩ := Logged.session (logged_new (some collection)) sound ran
  obtain ⟨log, found, rfl⟩ := Option.map_eq_some_iff.1 collects
  have follows := follows log found
  rw [nextStep, Register.close_nil] at follows
  obtain ⟨old, live, none⟩ := follows.live
  rw [none once, List.append_nil] at live
  refine ⟨log, found, rfl, follows.attached, follows.dated.tokens, live, ?_, follows.accounted, follows.dated.times,
    follows.closed⟩
  rw [← Living.length_subjects, ← List.length_map (f := RegionRecord.token), live.length_eq, List.length_map]

/-- Two regions are attached after they allocated, and one of these is on the stack, where call sites are not collected.
A third is reset, which ends the one inside it first. -/
theorem log_reconciles_after_reset : ∃ (as : List Action) (start st : RegionStore) (answers : List Answer)
    (log : AllocationLog),
    start = { provider := {}, log := some { collection := .heapOnly } } ∧ start.session as = .ok (st, answers) ∧
    (register start as).attached =
      [⟨1, 0, .heap, 0⟩, ⟨2, 1, .stack, 48⟩, ⟨3, 2, .heap, 16⟩, ⟨4, 3, .heap, 0⟩, ⟨5, 4, .heap, 0⟩] ∧
    (register start as).ended = [⟨4, 3, 0⟩, ⟨1, 0, 4352⟩, ⟨3, 2, 5024⟩, ⟨2, 1, 80⟩] ∧ st.log = some log ∧
    List.Forall₂ (RegionRecord.Closes .heapOnly (register start as).attached) log.finished
      (register start as).ended ∧
    (log.live.map RegionRecord.token).Perm [5] ∧ ((log.live ++ log.finished).flatMap RegionRecord.times).Nodup ∧
    log.finished = [⟨4, .heap, none, 4, some 6, 0, []⟩, ⟨1, .heap, some "first", 1, some 7, 4352, [(some 1, 4352)]⟩,
      ⟨3, .heap, none, 3, some 8, 5024, [(some 3, 5008)]⟩, ⟨2, .stack, none, 2, some 9, 80, []⟩] := by
  let start : RegionStore := { provider := {}, log := some { collection := .heapOnly } }
  let plain (o : Operation) : Action := .operate (fun _ => true) o
  let as := [plain (.make "a" none none 1), plain (.tryAllocate "a" 100 (some 1)),
    plain (.make "b" (some .stack) none 0), plain (.tryAllocate "b" 40 (some 2)), .observe "b",
    plain (.make "c" none none 0), plain (.allocate "c" 16 (some 3)), .observe "c", .setKind "c" .stack,
    plain (.allocate "c" 5000 (some 3)), plain (.nest "a" "inner" "a" (some 1)), plain (.label 1 "first"),
    plain (.allocate "b" 20 none), plain (.reset "a" "a"), plain (.drop "c"), plain (.drop "b")]
  have facts : ∃ s ∈ (start.session as).toOption, s.1.living.subjects.map Subject.token = [5] ∧
      s.1.log.map AllocationLog.finished = some [⟨4, .heap, none, 4, some 6, 0, []⟩,
        ⟨1, .heap, some "first", 1, some 7, 4352, [(some 1, 4352)]⟩,
        ⟨3, .heap, none, 3, some 8, 5024, [(some 3, 5008)]⟩, ⟨2, .stack, none, 2, some 9, 80, []⟩] := by
    decide +kernel
  have attached : (register start as).attached =
      [⟨1, 0, .heap, 0⟩, ⟨2, 1, .stack, 48⟩, ⟨3, 2, .heap, 16⟩, ⟨4, 3, .heap, 0⟩, ⟨5, 4, .heap, 0⟩] := by
    decide +kernel
  have ended : (register start as).ended = [⟨4, 3, 0⟩, ⟨1, 0, 4352⟩, ⟨3, 2, 5024⟩, ⟨2, 1, 80⟩] ∧
      (register start as).cleared = 0 := by
    decide +kernel
  obtain ⟨⟨st, answers⟩, ran, living, records⟩ := facts
  rw [mem_toOption] at ran
  have made : Provider.create none none = .ok {} := rfl
  obtain ⟨log, found, -, -, -, live, -, -, times, closed⟩ :=
    log_reconciles made rfl ran (by rw [attached]; decide)
  rw [ended.2, List.drop_zero] at closed
  rw [found] at records
  exact ⟨as, start, st, answers, log, rfl, ran, attached, ended.1, found, closed, living ▸ live, times,
    Option.some_inj.1 records⟩

end RegionStore

end FreeStore
