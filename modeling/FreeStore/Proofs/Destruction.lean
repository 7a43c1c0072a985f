import FreeStore.Proofs.Creation
import FreeStore.Region.Run
/-!
Regions are destroyed in the reverse order of creation.

A region that was taken from the living, to be destroyed, is `Detached`: until it is torn down, those inside it
are roots. Destroying it always succeeds (`Detached.destroy`). Each operation keeps a store sound, with the
history that `Operation.record` writes down (`Sound.perform`). So dropping or resetting a region destroys what
the history says: everything created in the region that an earlier reset has not destroyed, newest first, each
region inside at its place, and values before segments (`region_torn_down`).
-/
namespace FreeStore.RegionStore

variable {c : Created} {st st' : RegionStore} {name outer proto : String} {r q : Region} {raw : RawSupply}
  {site : Site} {place : Place} {answer : Answer}

/-! ## Destroying -/

/-- A segment that is released was out, and goes back to the provider. -/
theorem applyEvent_ends {e : TeardownEvent} {out : List Nat}
    (books : st.provider.Accounts (releases [e] ++ out)) :
    ∃ provider log, st.applyEvent e = .ok { st with provider, log, events := st.events ++ [.torn e] } ∧
      provider.Accounts out ∧ st.provider.releaseAll (released [e]) = .ok provider := by
  cases e with
  | destroyed tag loud => exact ⟨st.provider, st.log, rfl, books, rfl⟩
  | released s =>
    obtain ⟨provider, done, rest⟩ := Provider.Accounts.release (s := s) books
    refine ⟨provider, st.log, ?_, rest, ?_⟩
    · simp only [applyEvent, done, ok_bind]
      rfl
    · simp only [Provider.releaseAll, released, List.filterMap_cons, List.filterMap_nil, List.foldlM_cons,
        done, ok_bind]
      rfl
  | ended r =>
    simp only [applyEvent]
    split
    · exact ⟨st.provider, _, rfl, books, rfl⟩
    · exact ⟨st.provider, st.log, rfl, books, rfl⟩

theorem applyEvents_ends (st : RegionStore) {events : List TeardownEvent} {out : List Nat}
    (books : st.provider.Accounts (releases events ++ out)) :
    ∃ provider log, events.foldlM applyEvent st =
        .ok { st with provider, log, events := st.events ++ events.map .torn } ∧
      provider.Accounts out ∧ st.provider.releaseAll (released events) = .ok provider := by
  induction events generalizing st with
  | nil => exact ⟨st.provider, st.log, by simp; rfl, books, rfl⟩
  | cons e events ih =>
    have split : releases (e :: events) ++ out = releases [e] ++ (releases events ++ out) := by
      rw [← List.append_assoc, ← releases_append]
      rfl
    obtain ⟨provider, log, first, books, back⟩ := applyEvent_ends (split ▸ books)
    obtain ⟨provider', log', rest, accounts, others⟩ :=
      ih { st with provider, log, events := st.events ++ [.torn e] } books
    have parts : released (e :: events) = released [e] ++ released events := by
      rw [← released_append, List.singleton_append]
    refine ⟨provider', log', ?_, accounts, ?_⟩
    · rw [List.foldlM_cons, first, ok_bind, rest]
      simp
    · rw [parts, Provider.releaseAll, List.foldlM_append]
      exact bind_eq_ok.2 ⟨provider, back, others⟩

/-- The region `r`, which holds the items, is not among the living any more: those inside it are roots until it
is destroyed. -/
structure Detached (c : Created) (items : List Item) (r : Region) (st : RegionStore) : Prop where
  own : r.Holds st.storage items
  counted : r.segments = r.chain.length
  kept : Kept c st.fresh st.storage st.living
  books : st.provider.Accounts (r.numbers ++ st.living.numbers)
  forest : Forest c (inside items ++ st.roots) st.living

theorem Detached.teardown {items : List Item} (h : st.Detached c items r) : ∃ left events gone,
    teardown st.storage (st.living.length + 1) st.living r = .ok (left, events ++ r.ending) ∧
      Unwound c st.living st.roots items left events gone :=
  tearsDown_teardown c st.storage _ _ _ _ _ (Nat.lt_succ_self _) h.own h.counted h.kept.allHold h.forest.spans

/-- The segments released by these events went back to the provider. -/
structure Returns (st : RegionStore) (events : List TeardownEvent) (st' : RegionStore) : Prop where
  provider : st.provider.releaseAll (released events) = .ok st'.provider
  leave : st'.leave = st.leave
  roots : st'.roots = st.roots

/-- Destroying a region always succeeds. -/
theorem Detached.destroy {items : List Item} (h : st.Detached c items r) :
    ∃ st' events gone, st.destroy r = .ok st' ∧ st'.events = st.events ++ (events ++ r.ending).map .torn ∧
      Unwound c st.living st.roots items st'.living events gone ∧ st'.Sound c ∧
      st.Returns (events ++ r.ending) st' := by
  obtain ⟨left, events, gone, torn, unwound⟩ := h.teardown
  -- the segments that are out are those released now and those of the regions left
  have out : (r.numbers ++ st.living.numbers).Perm (releases (events ++ r.ending) ++ left.numbers) := by
    rw [releases_append, releases_ending]
    have gone : (r.numbers ++ gone.numbers).Perm (releases events ++ r.numbers) :=
      List.perm_append_comm.trans (unwound.releases.symm.append_right _)
    have parts := (Living.perm_numbers unwound.parts).append_left r.numbers
    rw [Living.numbers_append, ← List.append_assoc] at parts
    exact parts.trans (gone.append_right _)
  obtain ⟨provider, log, applied, accounts, back⟩ :=
    applyEvents_ends { st with living := left } (h.books.perm out)
  refine ⟨{ st with living := left, provider, log, events := st.events ++ (events ++ r.ending).map .torn },
    events, gone, ?_, rfl, unwound, ?_, back, rfl, rfl⟩
  · rw [RegionStore.destroy, torn, ok_bind]
    exact applied
  · exact ⟨h.kept.part unwound.parts, accounts, h.forest.remains unwound.parts unwound.spans⟩

/-- A top level region, taken from the living. -/
theorem Sound.takeOut (h : st.Sound c) (root : name ∈ st.roots) : ∃ r rest,
    st.living.takeOut name = some (r, rest) ∧
      Detached c (c name) r { st with living := rest, roots := st.roots.erase name } := by
  have known : name ∈ st.living.map Prod.fst := h.forest.spans.mem_iff.2 (List.mem_append_left _ root)
  obtain ⟨r, rest, taken⟩ := Living.exists_takeOut_of_mem known
  have perm := Living.perm_of_takeOut taken
  have kept := h.kept.perm perm
  have forest := (h.forest.perm perm).perm_roots (List.perm_cons_erase root)
  exact ⟨r, rest, taken, kept.holds _ List.mem_cons_self, kept.counted _ List.mem_cons_self,
    kept.part (k := [(name, r)]) (.refl _), h.books.perm (Living.perm_numbers perm), forest.takeOut⟩

/-- A region moved into another one. -/
theorem Sound.moveInto {back : Place} (h : st.Sound c)
    (done : st.moveInto raw outer name site = .ok (st', back)) :
    st'.Sound (Function.update c outer (.region name :: c outer)) := by
  obtain ⟨_, top, done⟩ := bind_eq_ok.1 done
  obtain ⟨left, others, done⟩ := bind_eq_ok.1 done
  obtain ⟨_, apart, done⟩ := bind_eq_ok.1 done
  obtain ⟨⟨mid, place⟩, placed, done⟩ := bind_eq_ok.1 done
  obtain ⟨rfl, -⟩ := Prod.mk.inj (Except.ok.inj done)
  have root : name ∈ st.roots := List.contains_iff_mem.1 (require_eq_ok.1 top)
  obtain ⟨o, found⟩ := Option.isSome_iff_exists.1 (require_eq_ok.1 apart)
  obtain ⟨r, rest, taken, detached⟩ := h.takeOut root
  obtain ⟨left, events, gone, torn, unwound⟩ := detached.teardown
  simp only [RegionStore.others, taken, torn, ok_bind] at others
  obtain rfl := Except.ok.inj others
  have writes := h.placePayload placed
  have parts := (Living.perm_of_takeOut taken).trans (unwound.parts.cons _)
  have forest := (h.forest.perm_roots (List.perm_cons_erase root)).adopt parts unwound.spans
    (Living.mem_of_lookup found)
  exact ⟨writes.fresh ▸ writes.kept _ h.kept, writes.books, writes.roots ▸ forest.rename writes.names⟩

/-- Dropping a top level region tears it down. -/
theorem Sound.drop (h : st.Sound c) (root : name ∈ st.roots) : ∃ gone events st',
    st.drop name = .ok st' ∧ TornDown c st.living name gone st'.living events ∧
      st'.events = st.events ++ events.map .torn ∧ st'.Sound c ∧
      Returns { st with roots := st.roots.erase name } events st' := by
  obtain ⟨r, rest, taken, detached⟩ := h.takeOut root
  obtain ⟨st', events, gone, done, told, unwound, sound, back, leave, roots⟩ := detached.destroy
  have perm := (Living.perm_of_takeOut taken).trans (unwound.parts.cons _)
  refine ⟨(name, r) :: gone, events ++ r.ending, st', ?_, unwound.unwinds.tornDown perm unwound.ended, told,
    sound, back, leave, roots⟩
  have top : st.roots.contains name = true := List.contains_iff_mem.2 root
  rw [RegionStore.drop, require_bind top]
  simp only [taken, done]

/-- A region that was replaced by a new one. -/
theorem Sound.renew (log : Option AllocationLog) (h : st.Sound c) (found : st.living.lookup name = some r)
    (new : q.IsNew st.fresh) :
    Detached (Function.update c name []) (c name) r ({ st with fresh := st.fresh + 1, log }.put name q) := by
  obtain ⟨rest, front, put⟩ := Living.exists_front h.forest.names found
  have kept := h.kept.perm front
  have forest := h.forest.perm front
  have others : Kept c st.fresh st.storage rest := kept.part (k := [(name, r)]) (.refl _)
  have same : Living.numbers ((name, q) :: rest) = Living.numbers rest := Living.numbers_new new.chain
  have numbers : (Living.put name q st.living).numbers.Perm (Living.numbers rest) :=
    same ▸ Living.perm_numbers (put q)
  refine ⟨kept.holds _ List.mem_cons_self, kept.counted _ List.mem_cons_self, ?_, ?_, ?_⟩
  · exact (others.add new forest.not_mem).perm (put q).symm
  · exact (h.books.perm (Living.perm_numbers front)).perm (numbers.symm.append_left _)
  · exact (forest.renew (q := q)).perm (put q).symm

/-- Resetting a region tears down what it was. -/
theorem Sound.reset (h : st.Sound c) (known : name ∈ st.living.map Prod.fst)
    (like : proto ∈ st.living.map Prod.fst) : ∃ gone left events q st',
    st.reset name proto = .ok st' ∧ TornDown c st.living name gone left events ∧
      st'.living.Perm ((name, q) :: left) ∧ st'.events = st.events ++ events.map .torn ∧
      st'.Sound (Function.update c name []) ∧ q.IsNew st.fresh ∧ st.Returns events st' := by
  obtain ⟨r, found⟩ := Living.exists_lookup_of_mem known
  obtain ⟨p, prototype⟩ := Living.exists_lookup_of_mem like
  obtain ⟨log, observed, token, blank⟩ := likePrototype_eq st p
  have isNew : Region.IsNew { area := st.fresh, kind := p.kind, observed, token } st.fresh :=
    ⟨rfl, rfl, rfl, rfl, rfl, rfl⟩
  have detached := h.renew log found isNew
  obtain ⟨st', events, gone, done, told, unwound, sound, back, leave, roots⟩ := detached.destroy
  obtain ⟨rest, front, put⟩ := Living.exists_front h.forest.names found
  have parts := (put _).symm.trans unwound.parts
  -- the new region is not among those that go with the old one
  have others : name ∉ gone.map Prod.fst :=
    (h.forest.perm front).not_mem_gone parts (detached.forest.spans.rest unwound.parts unwound.spans)
  obtain ⟨left, remaining, older⟩ := Living.exists_rest_of_not_mem others parts
  have unwinds : Unwinds c gone (c name) events := unwound.unwinds.mono fun p hp =>
    ⟨hp, (Function.update_of_ne (Living.ne_of_not_mem others hp) ..).symm⟩
  refine ⟨(name, r) :: gone, left, events ++ r.ending, _, st', ?_, ?_, remaining, told, sound, isNew,
    back, leave, roots⟩
  · simp only [RegionStore.reset, find, found, prototype, ok_bind, blank]
    exact done
  · exact unwinds.tornDown (front.trans (older.cons _)) unwound.ended

/-! ## Every operation -/

/-- What the operation adds to what was created in the regions. -/
def Operation.record (c : Created) : Operation → Created
  | .make name _ _ _ | .makeLike name _ | .reset name _ => Function.update c name []
  | .create name v _ => Function.update c name (v.item :: c name)
  | .nest outer name _ _ =>
    Function.update (Function.update c outer (.region name :: c outer)) name []
  | .moveInto outer name _ => Function.update c outer (.region name :: c outer)
  | _ => c

/-- What was created in each region in the course of the operations, since it was made or last reset. -/
def created (os : List (RawSupply × Operation)) : Created :=
  os.foldl (fun c o => o.2.record c) fun _ => []

theorem Sound.tryAllocate {bytes : Nat} {tried : Except RegionError Place} (h : st.Sound c)
    (done : st.tryAllocate raw name bytes site = .ok (st', tried)) : st'.Sound c := by
  obtain ⟨size, -, done⟩ := bind_eq_ok.1 done
  obtain ⟨⟨mid, supplied⟩, placed, done⟩ := bind_eq_ok.1 done
  cases supplied <;> exact (Prod.mk.inj (Except.ok.inj done)).1 ▸ h.placeBlock placed

theorem Sound.tryAllocateAligned {bytes align : Nat} {tried : Except RegionError Place} (h : st.Sound c)
    (done : st.tryAllocateAligned raw name bytes align site = .ok (st', tried)) : st'.Sound c := by
  unfold RegionStore.tryAllocateAligned at done
  split at done
  · exact (Prod.mk.inj (Except.ok.inj done)).1 ▸ h
  · exact h.tryAllocate done

theorem Sound.allocate {bytes : Nat} (h : st.Sound c)
    (done : st.allocate raw name bytes site = .ok (st', place)) : st'.Sound c := by
  obtain ⟨⟨mid, tried⟩, placed, done⟩ := bind_eq_ok.1 done
  cases tried with
  | error e => cases done
  | ok place => exact (Prod.mk.inj (Except.ok.inj done)).1 ▸ h.tryAllocate placed

theorem Sound.allocateBuffer {bytes align : Nat} {buffer : Buffer} (h : st.Sound c)
    (done : st.allocateBuffer raw name bytes align site = .ok (st', buffer)) : st'.Sound c := by
  unfold RegionStore.allocateBuffer at done
  split at done
  · exact (Prod.mk.inj (Except.ok.inj done)).1 ▸ h
  · obtain ⟨⟨mid, tried⟩, placed, done⟩ := bind_eq_ok.1 done
    cases tried <;> exact (Prod.mk.inj (Except.ok.inj done)).1 ▸ h.tryAllocateAligned placed

/-- Every operation keeps what was created in the regions, and adds what it creates. -/
theorem Sound.perform {o : Operation} (h : st.Sound c) (done : st.perform raw o = .ok (st', answer)) :
    st'.Sound (o.record c) := by
  cases o with
  | make name kind lateKind observe =>
    obtain ⟨mid, made, done⟩ := bind_eq_ok.1 done
    obtain ⟨rfl, -⟩ := Prod.mk.inj (Except.ok.inj done)
    obtain ⟨log, observed, token, attached⟩ := attachTimes_eq observe
      { st with fresh := st.fresh + 1 } { area := st.fresh, kind := kind.getD .heap }
    simp only [RegionStore.make, blank, attached] at made
    exact h.addTopLevel ⟨rfl, rfl, rfl, rfl, rfl, rfl⟩ made
  | makeLike name proto =>
    obtain ⟨mid, made, done⟩ := bind_eq_ok.1 done
    obtain ⟨rfl, -⟩ := Prod.mk.inj (Except.ok.inj done)
    obtain ⟨p, -, made⟩ := bind_eq_ok.1 made
    obtain ⟨log, observed, token, blank⟩ := likePrototype_eq st p
    rw [blank] at made
    exact h.addTopLevel ⟨rfl, rfl, rfl, rfl, rfl, rfl⟩ made
  | allocate name bytes site =>
    obtain ⟨⟨mid, place⟩, allocated, done⟩ := bind_eq_ok.1 done
    exact (Prod.mk.inj (Except.ok.inj done)).1 ▸ h.allocate allocated
  | tryAllocate name bytes site =>
    obtain ⟨⟨mid, tried⟩, allocated, done⟩ := bind_eq_ok.1 done
    exact (Prod.mk.inj (Except.ok.inj done)).1 ▸ h.tryAllocate allocated
  | tryAllocateAligned name bytes align site =>
    obtain ⟨⟨mid, tried⟩, allocated, done⟩ := bind_eq_ok.1 done
    exact (Prod.mk.inj (Except.ok.inj done)).1 ▸ h.tryAllocateAligned allocated
  | allocateBuffer name bytes align site =>
    obtain ⟨⟨mid, buffer⟩, allocated, done⟩ := bind_eq_ok.1 done
    exact (Prod.mk.inj (Except.ok.inj done)).1 ▸ h.allocateBuffer allocated
  | create name v site =>
    obtain ⟨⟨mid, back⟩, created, done⟩ := bind_eq_ok.1 done
    exact (Prod.mk.inj (Except.ok.inj done)).1 ▸ h.create created
  | nest outer name proto site =>
    obtain ⟨⟨mid, back⟩, nested, done⟩ := bind_eq_ok.1 done
    exact (Prod.mk.inj (Except.ok.inj done)).1 ▸ h.nest nested
  | moveInto outer name site =>
    obtain ⟨⟨mid, back⟩, moved, done⟩ := bind_eq_ok.1 done
    exact (Prod.mk.inj (Except.ok.inj done)).1 ▸ h.moveInto moved
  | reset name proto =>
    obtain ⟨mid, renewed, done⟩ := bind_eq_ok.1 done
    obtain ⟨rfl, -⟩ := Prod.mk.inj (Except.ok.inj done)
    obtain ⟨r, found, more⟩ := bind_eq_ok.1 renewed
    obtain ⟨p, prototype, -⟩ := bind_eq_ok.1 more
    obtain ⟨-, -, -, -, st', reset, -, -, -, sound, -⟩ := h.reset (Living.mem_of_lookup (find_eq_ok found))
      (Living.mem_of_lookup (find_eq_ok prototype))
    exact Except.ok.inj (reset.symm.trans renewed) ▸ sound
  | drop name =>
    obtain ⟨mid, dropped, done⟩ := bind_eq_ok.1 done
    obtain ⟨rfl, -⟩ := Prod.mk.inj (Except.ok.inj done)
    obtain ⟨_, root, -⟩ := bind_eq_ok.1 dropped
    obtain ⟨-, -, st', drop, -, -, sound, -⟩ := h.drop (List.contains_iff_mem.1 (require_eq_ok.1 root))
    exact Except.ok.inj (drop.symm.trans dropped) ▸ sound
  | label token text => exact (Prod.mk.inj (Except.ok.inj done)).1 ▸ ⟨h.kept, h.books, h.forest⟩
  | clearLog => exact (Prod.mk.inj (Except.ok.inj done)).1 ▸ ⟨h.kept, h.books, h.forest⟩

theorem Sound.nextStep (h : st.Sound c) : st.nextStep.Sound c := ⟨h.kept, h.books, h.forest⟩

/-- So does every run. -/
theorem Sound.run {os : List (RawSupply × Operation)} {answers : List Answer} (h : st.Sound c)
    (ran : st.run os = .ok (st', answers)) : st'.Sound (os.foldl (fun c o => o.2.record c) c) := by
  induction os generalizing st c answers with
  | nil =>
    obtain ⟨rfl, -⟩ := Prod.mk.inj (Except.ok.inj ran)
    exact h
  | cons o os ih =>
    obtain ⟨⟨mid, answer⟩, first, ran⟩ := bind_eq_ok.1 ran
    obtain ⟨⟨last, others⟩, rest, done⟩ := bind_eq_ok.1 ran
    obtain ⟨rfl, -⟩ := Prod.mk.inj (Except.ok.inj done)
    exact ih (h.nextStep.perform first) rest

/-- A store with no regions. -/
theorem sound_new {provider : Provider} {leave : Option Nat} {log : Option AllocationLog}
    (books : provider.Accounts []) : Sound c { provider, leave, log } where
  kept := ⟨List.nodup_nil, by simp, by simp, by simp⟩
  books := books
  forest := ⟨List.nodup_nil, .refl _, by simp⟩

/-- In every run from a store without regions, dropping a top level region, or resetting any region, tears it
down: what was created in it since it was made or last reset is destroyed once, newest first, and a region
inside is torn down as a whole at its place. The segments of a region are released after its contents are
destroyed. Nothing that was torn down is living any more. -/
theorem region_torn_down {segmentSize limit leave : Option Nat} {log : Option AllocationLog}
    {provider : Provider} {os : List (RawSupply × Operation)} {answers : List Answer}
    (made : Provider.create segmentSize limit = .ok provider)
    (ran : run { provider, leave, log } os = .ok (st, answers)) :
    (st.living.map Prod.fst).Nodup ∧
    (∀ name ∈ st.roots, ∀ raw, ∃ gone events st', st.step raw (.drop name) = .ok (st', .done) ∧
      TornDown (created os) st.living name gone st'.living events ∧ st'.events = events.map .torn) ∧
    ∀ name ∈ st.living.map Prod.fst, ∀ proto ∈ st.living.map Prod.fst, ∀ raw, ∃ gone left events q st',
      st.step raw (.reset name proto) = .ok (st', .done) ∧
      TornDown (created os) st.living name gone left events ∧ st'.living.Perm ((name, q) :: left) ∧
      st'.events = events.map .torn := by
  have sound : st.nextStep.Sound (created os) := ((sound_new (Provider.accounts_create made)).run ran).nextStep
  refine ⟨sound.forest.names, ?_, ?_⟩
  · intro name root raw
    obtain ⟨gone, events, st', dropped, torn, told, -⟩ := sound.drop root
    exact ⟨gone, events, st', by rw [step, perform, dropped]; rfl, torn, told⟩
  · intro name known proto like raw
    obtain ⟨gone, left, events, q, st', renewed, torn, others, told, -⟩ := sound.reset known like
    exact ⟨gone, left, events, q, st', by rw [step, perform, renewed]; rfl, torn, others, told⟩

/-- A region in another one is reset and filled again, and a second one is moved behind it. When the outer region
is dropped, what was created before the reset is not destroyed again. -/
theorem region_torn_down_of_three : ∃ (os : List (RawSupply × Operation)) (st st' : RegionStore)
    (answers : List Answer) (gone : Living) (events : List TeardownEvent),
    os.map Prod.snd = [.make "outer" none none 0, .create "outer" ⟨1, 8, 8⟩ none,
      .nest "outer" "inner" "outer" none, .create "inner" ⟨2, 8, 8⟩ none, .allocate "inner" 5000 none,
      .create "inner" ⟨3, 8, 8⟩ none,
      .create "outer" ⟨4, 8, 8⟩ none, .reset "inner" "outer", .create "inner" ⟨5, 8, 8⟩ none,
      .makeLike "other" "outer", .create "other" ⟨6, 8, 8⟩ none, .moveInto "outer" "other" none] ∧
    run { provider := {} } os = .ok (st, answers) ∧
    st.step (fun _ => true) (.drop "outer") = .ok (st', .done) ∧
    TornDown (created os) st.living "outer" gone st'.living events ∧ st'.events = events.map .torn ∧
    (st'.events.map fun
      | .torn (.destroyed tag _) => some tag
      | _ => none) = [some 6, none, some 4, some 5, none, some 1, none, none] := by
  let os : List Operation := [.make "outer" none none 0, .create "outer" ⟨1, 8, 8⟩ none,
    .nest "outer" "inner" "outer" none, .create "inner" ⟨2, 8, 8⟩ none, .allocate "inner" 5000 none,
    .create "inner" ⟨3, 8, 8⟩ none, .create "outer" ⟨4, 8, 8⟩ none, .reset "inner" "outer",
    .create "inner" ⟨5, 8, 8⟩ none, .makeLike "other" "outer", .create "other" ⟨6, 8, 8⟩ none,
    .moveInto "outer" "other" none]
  let steps : List (RawSupply × Operation) := os.map fun o => (fun _ => true, o)
  have facts : ∃ s ∈ (run { provider := {} } steps).toOption, "outer" ∈ s.1.roots ∧
      ∃ t ∈ (s.1.step (fun _ => true) (.drop "outer")).toOption,
        (t.1.events.map fun
          | .torn (.destroyed tag _) => some tag
          | _ => none) = [some 6, none, some 4, some 5, none, some 1, none, none] := by
    decide +kernel
  obtain ⟨s, ran, root, t, dropped, tags⟩ := facts
  rw [mem_toOption] at ran dropped
  have made : Provider.create none none = .ok {} := rfl
  obtain ⟨-, drops, -⟩ := region_torn_down made ran
  obtain ⟨gone, events, st', done, torn, told⟩ := drops "outer" root fun _ => true
  obtain ⟨rfl, -⟩ := Prod.mk.inj (Except.ok.inj (done.symm.trans dropped))
  exact ⟨steps, s.1, _, s.2, gone, events, rfl, ran, done, torn, told, tags⟩

end FreeStore.RegionStore
