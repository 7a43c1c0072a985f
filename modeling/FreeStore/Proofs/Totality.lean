import FreeStore.Proofs.BestFit
import FreeStore.Proofs.Reconciliation
/-!
Every request for a block is answered.

A request is rounded to granules, served by the area in use or by a segment that the provider rounds its size for once
more, and counted by the provider, by the region and by the log. Nothing of this leaves the words once the request is
rounded: the segments that are out or cached, and the embedded area of the region, lie in one address space
(`RawSupply.Bounded`), the marks of a region are inside its areas, a region counts the bytes below its marks, and the
log has no more of a region than the region counts (`exists_placeBlock`). So the first rounding is the only step that
can end the run, and does so exactly for requests that come closer to 2^64 than a granule (`tryAllocate_answers`).
-/
namespace FreeStore

theorem Chain.allocated_le {c : Chain} (h : ∀ s ∈ c, s.allocated ≤ s.size) :
    c.allocated ≤ (c.map Segment.size).sum := by
  induction c with
  | nil => exact Nat.le_refl 0
  | cons s c ih =>
    obtain ⟨first, others⟩ := List.forall_mem_cons.1 h
    exact Nat.add_le_add first (ih others)

/-- A region has no more bytes below its marks than its areas have. -/
theorem Region.Marked.used_le {r : Region} (h : r.Marked) :
    r.inlineUsed + r.chain.allocated ≤ inlineCapacity + (r.chain.map Segment.size).sum :=
  Nat.add_le_add h.embedded.2 (Chain.allocated_le fun s hs => (h.chained s hs).2)

section

variable {p p' : Provider} {raw : RawSupply} {required n : Nat} {sizes : List Nat}
  {out labels rest : List (Nat × Nat)} {supplied : Option Segment}

/-- The segments of one region were all supplied. -/
theorem Provider.sum_le_drawn (parts : out.Perm (labels ++ rest)) : (labels.map Prod.fst).sum ≤ p.drawn out := by
  have whole := ((parts.append_right (p.cached.map Segment.label)).map fun l => max 1 l.1).sum_nat
  rw [Provider.drawn, whole, List.append_assoc, List.map_append, List.sum_append]
  have each : (labels.map Prod.fst).sum ≤ (labels.map fun l => max 1 l.1).sum :=
    List.sum_le_sum fun l _ => Nat.le_max_right 1 l.1
  omega

/-- A request is answered if its size can be rounded. -/
theorem Provider.Backed.exists_request (h : p.Backed sizes out) (bounded : raw.Bounded (p.drawn out))
    (small : p.drawn out < wordLimit) (fits : required + (granule - 1) < wordLimit) :
    ∃ answer, p.request raw required = .ok answer := by
  obtain ⟨counts, bytes⟩ := h.drawn_ge
  cases found : bestFit required 0 p.cached with
  | some best =>
    obtain ⟨i, s⟩ := best
    obtain ⟨j, -, fit⟩ := bestFit_fits found
    have some := List.length_pos_of_mem (List.mem_of_getElem? fit.here)
    exact ⟨_, request_cached found (by omega)⟩
  | none =>
    have word : raw (p.freshSize required) = true → p.bytesAllocated + p.freshSize required < wordLimit ∧
        p.live + 1 < wordLimit := fun supplied => by
      have := bounded _ supplied
      omega
    by_cases served : p.bytesAllocated + p.freshSize required ≤ p.limit ∧ raw (p.freshSize required) = true
    · obtain ⟨bytes, live⟩ := word served.2
      exact ⟨_, request_fresh found fits rfl live bytes served.1 served.2⟩
    · refine ⟨_, request_none found fits rfl (fun supplied => (word supplied).1) ?_⟩
      rcases Nat.lt_or_ge p.limit (p.bytesAllocated + p.freshSize required) with denied | allowed
      · exact .inl denied
      · exact .inr (Bool.eq_false_iff.2 fun supplied => served ⟨allowed, supplied⟩)

theorem RegionStore.Provided.drawn_lt {size : Nat} {leave : Option Nat}
    (h : Provided raw leave p size supplied p') (bounded : raw.Bounded (p.drawn out + n))
    (small : p.drawn out + n < wordLimit) :
    p'.drawn (supplied.toList.map Segment.label ++ out) + n < wordLimit := by
  cases h with
  | nothing => exact small
  | segment requested => exact (Provider.request_hands requested).drawn_lt bounded small

end

/-! ## The counters of the log -/

theorem exists_updateRecord {token : Nat} {f : RegionRecord → Outcome RegionRecord} {rs : List RegionRecord}
    (h : ∀ r ∈ rs, r.token = token → ∃ q, f r = .ok q) : ∃ qs, updateRecord token f rs = .ok qs := by
  induction rs with
  | nil => exact ⟨[], rfl⟩
  | cons r rest ih =>
    obtain ⟨first, others⟩ := List.forall_mem_cons.1 h
    rw [updateRecord]
    split
    · rename_i here
      obtain ⟨q, changed⟩ := first here
      exact ⟨q :: rest, by rw [changed]; rfl⟩
    · obtain ⟨qs, updated⟩ := ih others
      exact ⟨r :: qs, by rw [updated]; rfl⟩

/-- The log has no more bytes of a region than the region counts. -/
theorem AllocationLog.Follows.exists_allocated {collection : SiteCollection} {log : AllocationLog} {h : Register}
    {watched : List Subject} {s : Subject} {size : Nat} {site : Site} (f : log.Follows collection h watched)
    (hs : s ∈ watched) (fits : s.bytes + size < wordLimit) :
    ∃ log', log.allocated s.token size site = .ok log' := by
  have each : ∀ r ∈ log.live, r.token = s.token → ∃ q, r.allocated log.collection site size = .ok q := by
    intro r hr token
    have below := (f.running s hs r hr token).1
    exact ⟨_, by rw [RegionRecord.allocated, Word.add_bind (by omega)]; rfl⟩
  obtain ⟨live, updated⟩ := exists_updateRecord each
  exact ⟨{ log with live }, by rw [AllocationLog.allocated, updated]; rfl⟩

namespace RegionStore

variable {st st' : RegionStore} {raw : RawSupply} {name : String} {r q : Region} {place : Place}
  {size bytes align : Nat} {site : Site} {supplied : Option Segment} {provider : Provider}

/-- The bytes that the raw allocator supplied, for the segments in the chains of living regions and the cached ones. -/
def drawn (st : RegionStore) : Nat := st.provider.drawn st.living.labels

/-- A region that takes a block has its marks inside its areas, and more bytes below them by those of the block. -/
theorem Orderly.takes_marked (o : st.Orderly) (found : st.living.lookup name = some r)
    (provided : Provided raw st.leave st.provider size supplied provider)
    (takes : r.Takes size supplied place q) (whole : granule ∣ size) :
    q.Marked ∧ q.bytesAllocated = r.bytesAllocated ∧
      q.bytesAllocated + size = q.inlineUsed + q.chain.allocated := by
  obtain ⟨b, filled⟩ := o.filled
  obtain ⟨rest, taken⟩ := Living.exists_takeOut_of_lookup found
  have own : r.Filled (b name) :=
    filled (name, r) ((Living.perm_of_takeOut taken).mem_iff.2 List.mem_cons_self)
  rw [o.leave] at provided
  obtain ⟨uncounted, marks⟩ := takes.marks provided.blank
  have counted := own.marks
  exact ⟨(takes.marked own.marked whole provided.blank).2, uncounted, by omega⟩

/-- A region that takes a block can count it. -/
theorem Orderly.counts_lt (o : st.Orderly) (found : st.living.lookup name = some r)
    (provided : Provided raw st.leave st.provider size supplied provider)
    (takes : r.Takes size supplied place q) (whole : granule ∣ size)
    (bounded : raw.Bounded (st.drawn + inlineCapacity)) (small : st.drawn + inlineCapacity < wordLimit) :
    q.bytesAllocated + size < wordLimit := by
  obtain ⟨marked, -, counts⟩ := o.takes_marked found provided takes whole
  obtain ⟨rest, taken⟩ := Living.exists_takeOut_of_lookup found
  have parts := (Living.perm_labels (Living.perm_of_takeOut taken)).append_left (supplied.toList.map Segment.label)
  rw [Living.labels_cons, ← List.append_assoc, ← takes.labels] at parts
  have room : (q.chain.map Segment.size).sum ≤
      provider.drawn (supplied.toList.map Segment.label ++ st.living.labels) := by
    have sum := Provider.sum_le_drawn (p := provider) parts
    rwa [List.map_map] at sum
  have total := provided.drawn_lt bounded small
  have used := marked.used_le
  omega

/-- The log, if there is one, has followed the living regions. -/
def Recorded (st : RegionStore) : Prop :=
  ∀ log ∈ st.log, ∃ h, log.Follows log.collection h st.living.subjects

/-- Handing out a block that the region can count does not fail. -/
theorem exists_handOut (found : st.living.lookup name = some r) (w : st.Recorded)
    (same : q.subject = r.subject) (fits : q.bytesAllocated + size < wordLimit) :
    ∃ st', st.handOut name q place size site = .ok st' := by
  have known : ∀ s ∈ q.subject, s ∈ st.living.subjects := fun s hs => by
    obtain ⟨rest, taken⟩ := Living.exists_takeOut_of_lookup found
    have living := (Living.perm_of_takeOut taken).mem_iff.2 List.mem_cons_self
    exact List.mem_filterMap.2 ⟨(name, r), living, same ▸ hs⟩
  unfold RegionStore.handOut countBlock
  rw [Word.add_bind fits]
  dsimp only [RegionStore.put]
  cases logs : st.log with
  | none => exact ⟨_, rfl⟩
  | some log =>
    cases observed : q.observed with
    | false => exact ⟨_, rfl⟩
    | true =>
      have subject : q.subject = some ⟨q.token, q.area, q.bytesAllocated⟩ := by
        rw [Region.subject, observed, if_pos rfl]
      obtain ⟨h, follows⟩ := w log logs
      obtain ⟨log', told⟩ : ∃ log', log.allocated q.token size site = .ok log' :=
        follows.exists_allocated (known _ subject) fits
      exact ⟨_, by dsimp only; rw [if_pos rfl, told]; rfl⟩

/-- A block of whole granules is placed, or refused, but no counter overflows. -/
theorem exists_placeBlock (o : st.Orderly) (w : st.Recorded)
    (found : st.living.lookup name = some r) (whole : granule ∣ size) (word : size < wordLimit)
    (bounded : raw.Bounded (st.drawn + inlineCapacity)) (small : st.drawn + inlineCapacity < wordLimit) :
    ∃ answer, st.placeBlock raw name size site = .ok answer := by
  have known : st.find name = .ok r := by rw [find, found]
  unfold RegionStore.placeBlock
  rw [known, ok_bind]
  obtain ⟨placed, within⟩ : ∃ placed, r.placeWithin size = .ok placed := Region.exists_placeWithin
  rw [within, ok_bind]
  cases placed with
  | some placed =>
    obtain ⟨q, place⟩ := placed
    have takes := placeWithin_takes within
    have fits := o.counts_lt found .nothing takes whole bounded small
    obtain ⟨st', handed⟩ := exists_handOut found w takes.subject fits
    exact ⟨_, by dsimp only; rw [handed]; rfl⟩
  | none =>
    obtain ⟨sizes, backed⟩ := o.backed
    have roundable : size + (granule - 1) < wordLimit := by
      obtain ⟨n, rfl⟩ := whole
      simp only [granule, wordLimit] at *
      omega
    have supply : raw.Bounded (st.provider.drawn st.living.labels) := fun n supplied =>
      Nat.lt_of_le_of_lt (Nat.add_le_add_right (Nat.le_add_right _ inlineCapacity) _) (bounded n supplied)
    have held := Nat.lt_of_le_of_lt (Nat.le_add_right _ inlineCapacity) small
    obtain ⟨⟨provider, supplied⟩, requested⟩ := backed.exists_request supply held roundable
    cases supplied with
    | error e => exact ⟨_, by dsimp only; rw [RegionStore.requestSegment, requested]; rfl⟩
    | ok t =>
      obtain ⟨mid, asked, living, log⟩ : ∃ mid, st.requestSegment raw size =
          .ok (mid, .ok { t with allocated := st.leave.elim 0 fun n => t.size - n }) ∧
            mid.living = st.living ∧ mid.log = st.log := by
        refine ⟨{ st with provider, events := st.events ++ [.request size t.number t.size] }, ?_, rfl, rfl⟩
        rw [RegionStore.requestSegment, requested]
        rfl
      obtain ⟨⟨q, place⟩, inside⟩ := r.exists_placeIn (requestSegment_room o.leave asked)
      have takes := placeIn_takes inside
      have fits := o.counts_lt found (.segment requested) takes whole bounded small
      have still : mid.Recorded := fun l hl => living ▸ w l (log ▸ hl)
      obtain ⟨st', handed⟩ := exists_handOut (living ▸ found) still takes.subject fits
      exact ⟨_, by dsimp only; rw [asked, ok_bind]; dsimp only; rw [inside, ok_bind]; dsimp only; rw [handed]; rfl⟩

/-- The block of `size` bytes at a place lies in the areas of its region, which counts it, and apart from everything
that lay in any region before. -/
structure Reserves (st : RegionStore) (name : String) (size : Nat) (place : Place) (st' : RegionStore) (r q : Region) :
    Prop where
  before : st.living.lookup name = some r
  after : st'.living.lookup name = some q
  counted : q.bytesAllocated = r.bytesAllocated + size
  below : q.Lies (q.stretch place size)
  inside : q.Contains (q.stretch place size)
  apart : ∀ p ∈ st.living, ∀ s, p.2.Lies s → s.overlaps (q.stretch place size) = false

/-- A block that is placed is reserved. -/
theorem placeBlock_reserves (o : st.Orderly) (whole : granule ∣ size)
    (done : st.placeBlock raw name size site = .ok (st', .ok place)) :
    ∃ r q, st.Reserves name size place st' r q := by
  obtain ⟨c, sound⟩ := o.sound
  rcases placeBlock_eq_ok sound done with
    ⟨-, -, e, refused⟩ | ⟨place', r, q, provider, log, events, placed, same, rfl⟩
  · cases refused
  · obtain rfl := Except.ok.inj same
    obtain ⟨supplied, q', provided, takes, counts⟩ := placed.takes
    obtain ⟨marked, uncounted, -⟩ := o.takes_marked placed.found provided takes whole
    obtain ⟨rest, front, -⟩ := Living.exists_front sound.forest.names placed.found
    have kept := sound.kept.perm front
    have books := sound.books.perm (Living.perm_numbers front)
    have held : q.Marked := counts ▸ ⟨marked.embedded, marked.chained⟩
    refine ⟨r, q, placed.found, Living.lookup_put placed.found, ?_, placed.grows.placed,
      held.contains placed.grows.placed, fun p hp s lies => ?_⟩
    · rw [counts, uncounted]
    · rcases List.mem_cons.1 (front.mem_iff.1 hp) with rfl | other
      · exact placed.grows.apart s lies
      · exact kept.apart_of_grows books placed.grows other lies

/-- A request for `bytes` bytes has an answer, and a block of at least as many bytes is reserved if that is a place. -/
def Answers (st : RegionStore) (name : String) (bytes : Nat)
    (x : Outcome (RegionStore × Except RegionError Place)) : Prop :=
  ∃ st' tried, x = .ok (st', tried) ∧ ∀ place, tried = .ok place →
    ∃ size r q, bytes ≤ size ∧ st.Reserves name size place st' r q

theorem Orderly.tryAllocate_total (o : st.Orderly) (w : st.Recorded)
    (found : st.living.lookup name = some r) (bounded : raw.Bounded (st.drawn + inlineCapacity))
    (small : st.drawn + inlineCapacity < wordLimit) (fits : bytes + (granule - 1) < wordLimit) :
    st.Answers name bytes (st.tryAllocate raw name bytes site) := by
  have whole : granule ∣ roundUp bytes granule := dvd_roundUp
  have word : roundUp bytes granule < wordLimit := by
    have below := Nat.div_mul_le_self (bytes + (granule - 1)) granule
    exact Nat.lt_of_le_of_lt below fits
  obtain ⟨⟨mid, supplied⟩, placed⟩ :
      ∃ answer, st.placeBlock raw name (roundUp bytes granule) site = .ok answer :=
    exists_placeBlock o w found whole word bounded small
  unfold RegionStore.tryAllocate
  rw [roundToGranule_of_fits fits, ok_bind, placed, ok_bind]
  cases supplied with
  | error e => exact ⟨mid, .error (.segment e), rfl, nofun⟩
  | ok place =>
    refine ⟨mid, .ok place, rfl, ?_⟩
    rintro _ ⟨⟩
    obtain ⟨r, q, reserves⟩ := placeBlock_reserves o whole placed
    exact ⟨_, r, q, le_roundUp (by decide), reserves⟩

/-- A request that cannot be rounded ends the run. -/
theorem tryAllocate_of_overflow (large : wordLimit ≤ bytes + (granule - 1)) :
    st.tryAllocate raw name bytes site = .error .arithmetic := by
  have overflow : Word.add bytes (granule - 1) = .error .arithmetic := if_neg (Nat.not_lt_of_le large)
  rw [RegionStore.tryAllocate, roundToGranule, overflow]
  rfl

/-- In every state that a session can reach, every request for a block of a living region is answered, whatever the
provider's limit, the raw allocator and the alignment, and where the answer is a place at least as many bytes are
reserved there; all but a request for a size that overflows when it is rounded up to the granule, unless its alignment
is refused first. -/
theorem tryAllocate_answers {segmentSize limit : Option Nat} {k : Option SiteCollection} {provider : Provider}
    {as : List Action} {answers : List Answer} (made : Provider.create segmentSize limit = .ok provider)
    (ran : session { provider, log := k.map fun collection => { collection } } as = .ok (st, answers))
    (known : name ∈ st.living.map Prod.fst) (bounded : raw.Bounded (st.drawn + inlineCapacity))
    (small : st.drawn + inlineCapacity < wordLimit) (bytes align : Nat) (site : Site) :
    (bytes + (granule - 1) < wordLimit → st.Answers name bytes (st.tryAllocate raw name bytes site)) ∧
    (bytes + (granule - 1) < wordLimit ∨ granule < align →
      st.Answers name bytes (st.tryAllocateAligned raw name bytes align site)) ∧
    (wordLimit ≤ bytes + (granule - 1) → st.tryAllocate raw name bytes site = .error .arithmetic ∧
      (align ≤ granule → st.tryAllocateAligned raw name bytes align site = .error .arithmetic)) := by
  have orderly := (orderly_new made).session ran
  have start : Sound (fun _ => []) { provider, log := k.map fun collection => { collection } } :=
    sound_new (Provider.accounts_create made)
  have logged := Logged.session (logged_new k) start ran
  have recorded : st.Recorded := fun log hl => ⟨_, logged.follows log hl⟩
  obtain ⟨r, found⟩ := Living.exists_lookup_of_mem known
  refine ⟨orderly.tryAllocate_total recorded found bounded small, fun fits => ?_, fun large => ⟨?_, fun plain => ?_⟩⟩
  · unfold tryAllocateAligned
    split
    · exact ⟨st, _, rfl, nofun⟩
    · rename_i plain
      exact orderly.tryAllocate_total recorded found bounded small (fits.resolve_right plain)
  · exact tryAllocate_of_overflow large
  · rw [tryAllocateAligned, if_neg (Nat.not_lt_of_le plain)]
    exact tryAllocate_of_overflow large

/-- A region that has one segment. The largest size that can be rounded is refused, as is a larger one with an alignment
that is not supported; without one it ends the run. -/
theorem tryAllocate_answers_near_end :
    ∃ (as : List Action) (st : RegionStore) (answers : List Answer) (raw : RawSupply),
    session { provider := { limit := 100000 }, log := some { collection := .all } } as = .ok (st, answers) ∧
    "a" ∈ st.living.map Prod.fst ∧ raw.Bounded (st.drawn + inlineCapacity) ∧
    st.drawn + inlineCapacity = 69632 ∧
    st.Answers "a" 60000 (st.tryAllocate raw "a" 60000 none) ∧
    (∃ q, st.tryAllocate raw "a" 60000 none = .ok (q, .ok (.segment 0 5008))) ∧
    st.Answers "a" (wordLimit - 16) (st.tryAllocate raw "a" (wordLimit - 16) none) ∧
    st.Answers "a" maxWord (st.tryAllocateAligned raw "a" maxWord 32 none) ∧
    st.tryAllocateAligned raw "a" maxWord 16 none = .error .arithmetic := by
  let plain (o : Operation) : Action := .operate (fun _ => true) o
  let as := [plain (.make "a" none none 1), plain (.tryAllocate "a" 5000 none)]
  let raw : RawSupply := fun size => size < 100000
  have facts : ∃ s ∈ (session { provider := { limit := 100000 }, log := some { collection := .all } } as).toOption,
      "a" ∈ s.1.living.map Prod.fst ∧ s.1.drawn + inlineCapacity = 69632 ∧
      ∃ t ∈ (s.1.tryAllocate raw "a" 60000 none).toOption,
        (match t.2 with
          | .ok p => p == .segment 0 5008
          | .error _ => false) = true := by
    decide +kernel
  obtain ⟨⟨st, answers⟩, ran, known, drawn, ⟨q, tried⟩, asked, place⟩ := facts
  rw [mem_toOption] at ran asked
  have bounded : raw.Bounded (st.drawn + inlineCapacity) := by
    intro size supplied
    have small : size < 100000 := of_decide_eq_true supplied
    dsimp only at drawn
    simp only [drawn, wordLimit]
    omega
  have small : st.drawn + inlineCapacity < wordLimit := by
    dsimp only at drawn
    rw [drawn]
    decide
  have made : Provider.create none (some 100000) = .ok { limit := 100000 } := rfl
  have all := fun bytes align => tryAllocate_answers (k := some .all) made ran known bounded small bytes align none
  have same : tried = .ok (.segment 0 5008) := by
    split at place
    · rename_i p answered
      dsimp only at answered
      rw [answered, eq_of_beq place]
    · cases place
  subst same
  exact ⟨as, st, answers, raw, ran, known, bounded, drawn, (all 60000 0).1 (by decide), ⟨q, asked⟩,
    (all (wordLimit - 16) 0).1 (by decide), (all maxWord 32).2.1 (.inr (by decide)),
    ((all maxWord 16).2.2 (by decide)).2 (by decide)⟩

/-- A request for the largest size there is ends the run, although no alignment is asked for and the limit is far
below. -/
theorem largest_request_ends_run : ¬ ∀ (as : List Action) (st : RegionStore) (answers : List Answer),
    session { provider := { limit := 100000 } } as = .ok (st, answers) → ∀ name ∈ st.living.map Prod.fst,
    ∀ raw : RawSupply, raw.Bounded (st.drawn + inlineCapacity) → st.drawn + inlineCapacity < wordLimit →
    ∀ bytes < wordLimit, st.Answers name bytes (st.tryAllocate raw name bytes none) := by
  intro claimed
  let plain (o : Operation) : Action := .operate (fun _ => true) o
  have facts : ∃ s ∈ (session { provider := { limit := 100000 } }
        [plain (.make "a" none none 0), plain (.tryAllocate "a" 5000 none)]).toOption,
      "a" ∈ s.1.living.map Prod.fst ∧ s.1.drawn + inlineCapacity < wordLimit := by
    decide +kernel
  obtain ⟨⟨st, answers⟩, ran, known, small⟩ := facts
  rw [mem_toOption] at ran
  obtain ⟨st', tried, answered, -⟩ :=
    claimed _ st answers ran "a" known (fun _ => false) nofun small maxWord (by decide)
  rw [tryAllocate_of_overflow (by decide)] at answered
  cases answered

end RegionStore

end FreeStore
