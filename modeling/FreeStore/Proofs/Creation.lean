import FreeStore.Proofs.Nesting
/-!
What is created in regions.

In a sound store the living regions keep what was created in them, the provider accounts for their segments, and
the regions form a forest (`RegionStore.Sound`). A request places a block in one region, which grows by it
(`placeBlock_eq_ok`), or it is refused. Creating something writes an instance into such a block, in front of
what the region holds (`Writes`). A new region holds nothing.
-/
namespace FreeStore

/-- Every instance takes some bytes. -/
theorem Payload.cost_pos {v : Payload} : 0 < v.cost := by
  have header : 24 ≤ v.header := le_roundUp (Nat.lt_of_lt_of_le (by decide) (Nat.le_max_left 8 v.align))
  have cost : v.header + v.size ≤ v.cost := le_roundUp (by decide)
  omega

/-- Handing a stretch out twice is no more than handing it out once. -/
theorem Storage.write_handOut {m : Storage} {i : Instance} : (m.handOut i.stretch).write i = m.write i := by
  simp [Storage.write, Storage.handOut, List.filter_filter]

namespace RegionStore

variable {c : Created} {st st' : RegionStore} {name outer proto : String} {r q : Region} {raw : RawSupply}
  {size : Nat} {site : Site} {place : Place} {v : Payload} {item : Item}

/-- The regions keep what was created in them, the provider accounts for their segments, and they form a
forest. -/
structure Sound (c : Created) (st : RegionStore) : Prop where
  kept : Kept c st.fresh st.storage st.living
  books : st.provider.Accounts st.living.numbers
  forest : Forest c st.roots st.living

/-! ## Making regions -/

theorem attach_eq (st : RegionStore) (r : Region) : ∃ log observed token,
    st.attach r = ({ st with log }, { r with observed, token }) := by
  unfold attach
  split
  · exact ⟨st.log, r.observed, r.token, rfl⟩
  · exact ⟨_, _, _, rfl⟩

theorem attachTimes_eq (n : Nat) (st : RegionStore) (r : Region) :
    ∃ log observed token, attachTimes n st r = ({ st with log }, { r with observed, token }) := by
  induction n generalizing st r with
  | zero => exact ⟨st.log, r.observed, r.token, rfl⟩
  | succ n ih =>
    obtain ⟨log, observed, token, attached⟩ := attach_eq st r
    obtain ⟨log', observed', token', rest⟩ := ih { st with log } { r with observed, token }
    exact ⟨log', observed', token', by rw [attachTimes, attached]; exact rest⟩

theorem likePrototype_eq (st : RegionStore) (r : Region) : ∃ log observed token,
    st.likePrototype r =
    ({ st with fresh := st.fresh + 1, log }, { area := st.fresh, kind := r.kind, observed, token }) := by
  unfold likePrototype blank
  dsimp only
  split
  · obtain ⟨log, observed, token, attached⟩ :=
      attach_eq { st with fresh := st.fresh + 1 } { area := st.fresh, kind := r.kind }
    exact ⟨log, observed, token, attached⟩
  · exact ⟨_, _, _, rfl⟩

theorem find_eq_ok (h : st.find name = .ok r) : st.living.lookup name = some r := by
  unfold find at h
  split at h
  · rename_i found
    rw [found, Except.ok.inj h]
  · cases h

theorem add_eq_ok (h : st.add name r = .ok st') :
    name ∉ st.living.map Prod.fst ∧ st' = { st with living := (name, r) :: st.living } := by
  obtain ⟨_, free, done⟩ := bind_eq_ok.1 h
  exact ⟨Living.not_mem_of_lookup (require_eq_ok.1 free), (Except.ok.inj done).symm⟩

/-- A new top level region, with an area of its own. -/
theorem Sound.addTopLevel {log : Option AllocationLog} (h : st.Sound c)
    (new : r.IsNew st.fresh)
    (done : addTopLevel { st with fresh := st.fresh + 1, log } name r = .ok st') :
    st'.Sound (Function.update c name []) := by
  obtain ⟨mid, added, done⟩ := bind_eq_ok.1 done
  obtain ⟨free, rfl⟩ := add_eq_ok added
  obtain rfl := Except.ok.inj done
  have books : Living.numbers ((name, r) :: st.living) = st.living.numbers := Living.numbers_new new.chain
  exact ⟨h.kept.add new free, books ▸ h.books, h.forest.add free⟩

/-! ## Placing blocks -/

/-- A block may need a segment, which the provider hands out for it. -/
inductive Provided (raw : RawSupply) (leave : Option Nat) (provider : Provider) (size : Nat) :
    Option Segment → Provider → Prop
  | nothing : Provided raw leave provider size none provider
  | segment {provider' : Provider} {s : Segment}
      (requested : provider.request raw size = .ok (provider', .ok s)) :
      Provided raw leave provider size (some { s with allocated := leave.elim 0 fun n => s.size - n }) provider'

theorem requestSegment_eq_ok {s : Except SegmentError Segment}
    (done : st.requestSegment raw size = .ok (st', s)) :
    (∃ events, st' = { st with events } ∧ ∃ e, s = .error e) ∨
      ∃ provider events t, st' = { st with provider, events } ∧ s = .ok t ∧
        Provided raw st.leave st.provider size (some t) provider := by
  obtain ⟨⟨provider, supplied⟩, requested, done⟩ := bind_eq_ok.1 done
  cases supplied with
  | error e =>
    obtain rfl := Provider.request_refused requested
    obtain ⟨rfl, rfl⟩ := Prod.mk.inj (Except.ok.inj done)
    exact .inl ⟨_, rfl, e, rfl⟩
  | ok t =>
    obtain ⟨rfl, rfl⟩ := Prod.mk.inj (Except.ok.inj done)
    exact .inr ⟨provider, _, _, rfl, rfl, .segment requested⟩

theorem handOut_eq_ok (done : st.handOut name r place size site = .ok st') :
    ∃ log, st' = { st with
      storage := st.storage.handOut (r.stretch place size)
      living := st.living.put name { r with bytesAllocated := r.bytesAllocated + size }, log } := by
  obtain ⟨bytesAllocated, counted, done⟩ := bind_eq_ok.1 done
  obtain ⟨-, rfl⟩ := Word.add_eq_ok.1 counted
  dsimp only at done
  split at done
  · obtain rfl := Except.ok.inj done
    exact ⟨_, rfl⟩
  · split at done
    · obtain ⟨log, -, done⟩ := bind_eq_ok.1 done
      obtain rfl := Except.ok.inj done
      exact ⟨_, rfl⟩
    · obtain rfl := Except.ok.inj done
      exact ⟨_, rfl⟩

/-- A block was placed in the region `r`, which is `q` then. -/
structure Places (raw : RawSupply) (st : RegionStore) (name : String) (size : Nat) (place : Place)
    (r q : Region) (provider : Provider) : Prop where
  found : st.living.lookup name = some r
  grows : r.Grows st.provider (q.stretch place size) q provider
  takes : ∃ supplied q', Provided raw st.leave st.provider size supplied provider ∧
    r.Takes size supplied place q' ∧ q = { q' with bytesAllocated := q'.bytesAllocated + size }

/-- A block that is placed, in a segment of its own or not, stands apart from all others. -/
theorem Sound.places {supplied : Option Segment} {provider : Provider} (h : st.Sound c)
    (found : st.living.lookup name = some r)
    (provided : Provided raw st.leave st.provider size supplied provider)
    (takes : r.Takes size supplied place q) :
    st.Places raw name size place r { q with bytesAllocated := q.bytesAllocated + size } provider := by
  obtain ⟨rest, front, -⟩ := Living.exists_front h.forest.names found
  have counted := (h.kept.perm front).counted _ List.mem_cons_self
  have books := h.books.perm (Living.perm_numbers front)
  rw [Living.numbers_cons] at books
  have grows : r.Grows st.provider (q.stretch place size) q provider := by
    cases provided with
    | nothing => exact takes.grows books counted (fun _ => rfl) nofun
    | segment requested =>
      refine takes.grows books counted nofun ?_
      rintro _ ⟨⟩ out accounts
      have handed := accounts.request requested
      exact handed
  exact ⟨found, grows.counting _, supplied, q, provided, takes, rfl⟩

/-- A request places a block, or changes nothing but the record of events. -/
theorem placeBlock_eq_ok {supplied : Except SegmentError Place} (h : st.Sound c)
    (done : st.placeBlock raw name size site = .ok (st', supplied)) :
    (∃ events, st' = { st with events } ∧ ∃ e, supplied = .error e) ∨
      ∃ place r q provider log events, st.Places raw name size place r q provider ∧ supplied = .ok place ∧
        st' = { st with
          provider
          storage := st.storage.handOut (q.stretch place size)
          living := st.living.put name q, log, events } := by
  obtain ⟨r, found, done⟩ := bind_eq_ok.1 done
  have found := find_eq_ok found
  obtain ⟨placed, within, done⟩ := bind_eq_ok.1 done
  cases placed with
  | some placed =>
    obtain ⟨q, place⟩ := placed
    obtain ⟨last, handed, done⟩ := bind_eq_ok.1 done
    obtain ⟨rfl, rfl⟩ := Prod.mk.inj (Except.ok.inj done)
    obtain ⟨log, rfl⟩ := handOut_eq_ok handed
    exact .inr ⟨place, r, _, st.provider, log, st.events,
      h.places found .nothing (placeWithin_takes within), rfl, rfl⟩
  | none =>
    obtain ⟨⟨mid, supplied'⟩, requested, done⟩ := bind_eq_ok.1 done
    rcases requestSegment_eq_ok requested with
      ⟨events, rfl, e, rfl⟩ | ⟨provider, events, t, rfl, rfl, provided⟩
    · obtain ⟨rfl, rfl⟩ := Prod.mk.inj (Except.ok.inj done)
      exact .inl ⟨events, rfl, e, rfl⟩
    · obtain ⟨⟨q, place⟩, within, done⟩ := bind_eq_ok.1 done
      obtain ⟨last, handedOut, done⟩ := bind_eq_ok.1 done
      obtain ⟨rfl, rfl⟩ := Prod.mk.inj (Except.ok.inj done)
      obtain ⟨log, rfl⟩ := handOut_eq_ok handedOut
      exact .inr ⟨place, r, _, provider, log, events,
        h.places found provided (placeIn_takes within), rfl, rfl⟩

/-- Placing a block keeps everything. -/
theorem Sound.placeBlock {supplied : Except SegmentError Place} (h : st.Sound c)
    (done : st.placeBlock raw name size site = .ok (st', supplied)) : st'.Sound c := by
  rcases placeBlock_eq_ok h done with ⟨events, rfl, -⟩ | ⟨place, r, q, provider, log, events, placed, -, rfl⟩
  · exact ⟨h.kept, h.books, h.forest⟩
  · obtain ⟨rest, front, put⟩ := Living.exists_front h.forest.names placed.found
    have books := h.books.perm (Living.perm_numbers front)
    exact ⟨((h.kept.perm front).handOut books placed.grows).perm (put q).symm,
      (placed.grows.segments _ books).perm (Living.perm_numbers (put q).symm),
      h.forest.rename Living.map_fst_put⟩

/-- An instance is written into a block of its own. -/
theorem placePayload_eq_ok {back : Place} (h : st.Sound c)
    (done : st.placePayload raw name v item site = .ok (st', back)) :
    ∃ place r q provider log events, st.Places raw name v.cost place r q provider ∧
      back = place.shift v.header ∧ st' = { st with
        provider
        storage := st.storage.write ⟨q.stretch place v.cost, q.last, item⟩
        living := st.living.put name { q with last := some place }, log, events } := by
  obtain ⟨⟨mid, supplied⟩, block, done⟩ := bind_eq_ok.1 done
  rcases placeBlock_eq_ok h block with
    ⟨events, -, e, rfl⟩ | ⟨place, r, q, provider, log, events, placed, rfl, rfl⟩
  · cases done
  · obtain ⟨last, threaded, done⟩ := bind_eq_ok.1 done
    obtain ⟨rfl, rfl⟩ := Prod.mk.inj (Except.ok.inj done)
    obtain ⟨q', found, done⟩ := bind_eq_ok.1 threaded
    have found := find_eq_ok found
    rw [Living.lookup_put placed.found] at found
    obtain rfl := Option.some_inj.1 found
    obtain rfl := Except.ok.inj done
    refine ⟨place, r, q, provider, log, events, placed, rfl, ?_⟩
    have written := Storage.write_handOut (m := st.storage) (i := ⟨q.stretch place v.cost, q.last, item⟩)
    simp only [put, Living.put_put, written]

/-- An item was created in a region: it is in front of what the region holds. -/
structure Writes (c : Created) (name : String) (item : Item) (st st' : RegionStore) : Prop where
  known : name ∈ st.living.map Prod.fst
  names : st'.living.map Prod.fst = st.living.map Prod.fst
  roots : st'.roots = st.roots
  fresh : st'.fresh = st.fresh
  kept : ∀ n, Kept c n st.storage st.living →
    Kept (Function.update c name (item :: c name)) n st'.storage st'.living
  books : st'.provider.Accounts st'.living.numbers

theorem Sound.placePayload {back : Place} (h : st.Sound c)
    (done : st.placePayload raw name v item site = .ok (st', back)) : Writes c name item st st' := by
  obtain ⟨place, r, q, provider, log, events, placed, -, rfl⟩ := placePayload_eq_ok h done
  obtain ⟨rest, front, put⟩ := Living.exists_front h.forest.names placed.found
  have books := h.books.perm (Living.perm_numbers front)
  have others := (h.forest.perm front).not_mem
  have numbers := Living.perm_numbers (put { q with last := some place })
  refine ⟨Living.mem_of_lookup placed.found, Living.map_fst_put, rfl, rfl, fun n kept => ?_, ?_⟩
  · exact ((kept.perm front).write books placed.grows Payload.cost_pos others).perm (put _).symm
  · exact (placed.grows.segments _ books).perm numbers.symm

theorem Sound.create {back : Place} (h : st.Sound c) (done : st.create raw name v site = .ok (st', back)) :
    st'.Sound (Function.update c name (v.item :: c name)) := by
  have writes := h.placePayload done
  exact ⟨writes.fresh ▸ writes.kept _ h.kept, writes.books,
    writes.roots ▸ (h.forest.value rfl).rename writes.names⟩

/-- A new region in another one. -/
theorem Sound.nest {back : Place} (h : st.Sound c) (done : st.nest raw outer name proto site = .ok (st', back)) :
    st'.Sound (Function.update (Function.update c outer (.region name :: c outer)) name []) := by
  obtain ⟨p, -, done⟩ := bind_eq_ok.1 done
  obtain ⟨log, observed, token, blank⟩ := likePrototype_eq st p
  rw [blank] at done
  obtain ⟨⟨mid, place⟩, placed, done⟩ := bind_eq_ok.1 done
  obtain ⟨last, added, done⟩ := bind_eq_ok.1 done
  obtain ⟨free, rfl⟩ := add_eq_ok added
  obtain ⟨rfl, -⟩ := Prod.mk.inj (Except.ok.inj done)
  have started : Sound c { st with fresh := st.fresh + 1, log } := ⟨h.kept.later, h.books, h.forest⟩
  have writes := started.placePayload placed
  have kept := (writes.kept _ h.kept).add (r := { area := st.fresh, kind := p.kind, observed, token })
    ⟨rfl, rfl, rfl, rfl, rfl, rfl⟩ free
  have forest := started.forest.nest (r := { area := st.fresh, kind := p.kind, observed, token }) writes.known
    (writes.names ▸ free)
  refine ⟨writes.fresh ▸ kept, ?_, ?_⟩
  · rw [Living.numbers_new rfl]
    exact writes.books
  · exact writes.roots ▸ forest.rename (congrArg (name :: ·) writes.names)

end RegionStore

end FreeStore
