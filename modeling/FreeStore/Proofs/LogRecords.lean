import Mathlib.Algebra.Ring.Nat
import Mathlib.Data.List.Forall2
import Mathlib.Data.List.Nodup
import FreeStore.Proofs.Outcome
import FreeStore.Region.Basic
/-!
What the log keeps of the regions it watches.

A `Register` is what an onlooker writes down: every attachment of a region, with the kind of the region and the bytes
that it had allocated by then, and every attached region that ends, as it is then. The log follows a register
(`AllocationLog.Follows`) if its records tell the same: there is one for each region that is attached and has not
ended, with what was allocated since, and one for each that ended, in that order, with all it ever allocated, but for
those that the log was cleared of.
Attaching a region, counting a block and ending a region keep this up, each by a lemma of its own.
-/
namespace FreeStore

/-- What identifies an attached region, and the bytes that it allocated. -/
structure Subject where
  token : Nat
  area : Nat
  bytes : Nat
  deriving DecidableEq, Repr

/-- The region as the log knows it, if it is attached. -/
def Region.subject (r : Region) : Option Subject :=
  if r.observed then some ⟨r.token, r.area, r.bytesAllocated⟩ else none

/-- A region is attached to the log. -/
structure Attachment where
  token : Nat
  area : Nat
  kind : RegionKind
  /-- the bytes that the region had allocated by then -/
  before : Nat
  deriving DecidableEq, Repr

structure Register where
  /-- in the order of the attachments -/
  attached : List Attachment := []
  /-- the attached regions that ended, in that order -/
  ended : List Subject := []
  /-- of how many of these the log was cleared -/
  cleared : Nat := 0
  deriving DecidableEq, Repr

/-- One more attachment. Tokens are given out in order. -/
def Register.attach (h : Register) (r : Region) : Register :=
  { h with attached := h.attached ++ [⟨h.attached.length + 1, r.area, r.kind, r.bytesAllocated⟩] }

variable {n clock size : Nat} {site : Site} {kind : RegionKind} {collection : SiteCollection}
  {attached more : List Attachment} {s : Subject} {r q : RegionRecord} {rs qs before after : List RegionRecord}

/-! ## Tokens and times -/

/-- The moments of construction and destruction. -/
def RegionRecord.times (r : RegionRecord) : List Nat := r.start :: r.finish.toList

/-- No two records have the same token, and all moments that they tell of are different. -/
structure Dated (rs : List RegionRecord) (lastToken clock : Nat) : Prop where
  tokens : (rs.map RegionRecord.token).Nodup
  given : ∀ r ∈ rs, r.token ≤ lastToken
  times : (rs.flatMap RegionRecord.times).Nodup
  past : ∀ t ∈ rs.flatMap RegionRecord.times, t ≤ clock

theorem Dated.perm (h : Dated rs n clock) (perm : rs.Perm qs) : Dated qs n clock where
  tokens := (perm.map _).nodup_iff.1 h.tokens
  given r hr := h.given r (perm.mem_iff.2 hr)
  times := (perm.flatMap_right _).nodup_iff.1 h.times
  past t ht := h.past t ((perm.flatMap_right _).mem_iff.2 ht)

/-- A region is attached. -/
theorem Dated.create (h : Dated rs n clock) :
    Dated ({ token := n + 1, kind, start := clock + 1 } :: rs) (n + 1) (clock + 1) where
  tokens := by
    refine List.nodup_cons.2 ⟨fun old => ?_, h.tokens⟩
    obtain ⟨r, hr, same⟩ := List.mem_map.1 old
    have := h.given r hr
    dsimp only at same
    omega
  given := List.forall_mem_cons.2 ⟨Nat.le_refl _, fun r hr => Nat.le_succ_of_le (h.given r hr)⟩
  times := by
    refine List.nodup_cons.2 ⟨fun old => ?_, h.times⟩
    exact Nat.not_succ_le_self _ (h.past _ old)
  past := by
    intro t ht
    rcases List.mem_cons.1 ht with rfl | ht
    · exact Nat.le_refl _
    · exact Nat.le_succ_of_le (h.past t ht)

/-- Only tokens and times matter. -/
theorem Dated.congr (h : Dated rs n clock) (tokens : qs.map RegionRecord.token = rs.map RegionRecord.token)
    (times : qs.map RegionRecord.times = rs.map RegionRecord.times) : Dated qs n clock := by
  have moments : qs.flatMap RegionRecord.times = rs.flatMap RegionRecord.times := by
    rw [List.flatMap_def, times, List.flatMap_def]
  refine ⟨tokens ▸ h.tokens, fun q hq => ?_, moments ▸ h.times, moments ▸ h.past⟩
  have known := List.mem_map_of_mem (f := RegionRecord.token) hq
  rw [tokens] at known
  obtain ⟨r, hr, same⟩ := List.mem_map.1 known
  exact same ▸ h.given r hr

/-- A region ends. -/
theorem Dated.finish (h : Dated (r :: rs) n clock) (running : r.finish = none) (bytes : Nat) :
    Dated ({ r with bytes, finish := some (clock + 1) } :: rs) n (clock + 1) := by
  have moments : List.flatMap RegionRecord.times ({ r with bytes, finish := some (clock + 1) } :: rs) =
      r.start :: (clock + 1) :: rs.flatMap RegionRecord.times := rfl
  have former : List.flatMap RegionRecord.times (r :: rs) = r.start :: rs.flatMap RegionRecord.times := by
    simp [RegionRecord.times, running]
  have later := List.Perm.swap (clock + 1) r.start (rs.flatMap RegionRecord.times)
  rw [← former] at later
  refine ⟨h.tokens, List.forall_mem_cons.2 (List.forall_mem_cons.1 h.given), ?_, ?_⟩
  · rw [moments, later.nodup_iff]
    exact List.nodup_cons.2 ⟨fun old => Nat.not_succ_le_self _ (h.past _ old), h.times⟩
  · intro t ht
    rw [moments, later.mem_iff] at ht
    rcases List.mem_cons.1 ht with rfl | ht
    · exact Nat.le_refl _
    · exact Nat.le_succ_of_le (h.past t ht)

/-- Some records are forgotten. -/
theorem Dated.left (h : Dated (rs ++ qs) n clock) : Dated rs n clock where
  tokens := (List.nodup_append.1 (List.map_append ▸ h.tokens)).1
  given r hr := h.given r (List.mem_append_left _ hr)
  times := (List.nodup_append.1 (List.flatMap_append ▸ h.times)).1
  past t ht := h.past t (List.flatMap_append ▸ List.mem_append_left _ ht)

/-! ## Call sites -/

theorem sum_addAtSite (sites : List (Site × Nat)) :
    ((addAtSite site size sites).map Prod.snd).sum = (sites.map Prod.snd).sum + size := by
  induction sites with
  | nil => simp [addAtSite]
  | cons s rest ih =>
    obtain ⟨s, m⟩ := s
    rw [addAtSite]
    split
    · simp only [List.map_cons, List.sum_cons]
      omega
    · simp only [List.map_cons, List.sum_cons, ih]
      omega

namespace RegionRecord

/-- The record tells of this region: it has the kind that the region had when it was attached, and its call sites have
what the region allocated since, if they are collected for that kind. -/
structure Tells (collection : SiteCollection) (attached : List Attachment) (s : Subject) (r : RegionRecord) :
    Prop where
  token : r.token = s.token
  since : ∃ a ∈ attached, a.token = s.token ∧ a.area = s.area ∧ r.kind = a.kind ∧
    if collection.collects a.kind then (r.sites.map Prod.snd).sum + a.before = s.bytes else r.sites = []

/-- The record is closed: it has all bytes that the region ever allocated. -/
structure Closes (collection : SiteCollection) (attached : List Attachment) (r : RegionRecord) (s : Subject) :
    Prop where
  tells : r.Tells collection attached s
  bytes : r.bytes = s.bytes
  lived : ∃ t, r.finish = some t ∧ r.start < t

theorem Tells.mono (h : r.Tells collection attached s) (known : ∀ a ∈ attached, a ∈ more) :
    r.Tells collection more s where
  token := h.token
  since := h.since.imp fun a ⟨ha, rest⟩ => ⟨known a ha, rest⟩

/-- What else a block that is counted leaves as it was. -/
theorem allocated_eq_ok (done : r.allocated collection site size = .ok q) :
    q.token = r.token ∧ q.times = r.times ∧ q.finish = r.finish ∧ q.bytes = r.bytes + size := by
  obtain ⟨total, added, done⟩ := bind_eq_ok.1 done
  obtain ⟨-, rfl⟩ := Word.add_eq_ok.1 added
  obtain rfl := Except.ok.inj done
  exact ⟨rfl, rfl, rfl, rfl⟩

theorem Tells.allocated (h : r.Tells collection attached s) (done : r.allocated collection site size = .ok q) :
    q.Tells collection attached { s with bytes := s.bytes + size } := by
  obtain ⟨total, -, done⟩ := bind_eq_ok.1 done
  obtain rfl := Except.ok.inj done
  obtain ⟨a, ha, token, area, kind, sites⟩ := h.since
  refine ⟨h.token, a, ha, token, area, kind, ?_⟩
  dsimp only
  rw [kind]
  split
  · rename_i collected
    rw [if_pos collected] at sites
    rw [sum_addAtSite]
    omega
  · rename_i uncollected
    rwa [if_neg uncollected] at sites

end RegionRecord

/-- A record that there is is updated, and the others stay. -/
theorem updateRecord_eq_ok {token : Nat} {f : RegionRecord → Outcome RegionRecord}
    (known : token ∈ rs.map RegionRecord.token) (done : updateRecord token f rs = .ok qs) :
    ∃ before r q after, rs = before ++ r :: after ∧ r.token = token ∧ f r = .ok q ∧ qs = before ++ q :: after := by
  induction rs generalizing qs with
  | nil => cases known
  | cons r rest ih =>
    rw [updateRecord] at done
    split at done
    · rename_i here
      obtain ⟨q, changed, done⟩ := bind_eq_ok.1 done
      obtain rfl := Except.ok.inj done
      exact ⟨[], r, q, rest, rfl, here, changed, rfl⟩
    · rename_i other
      have later : token ∈ rest.map RegionRecord.token := by
        rcases List.mem_cons.1 known with same | later
        · exact absurd same.symm other
        · exact later
      obtain ⟨others, updated, done⟩ := bind_eq_ok.1 done
      obtain rfl := Except.ok.inj done
      obtain ⟨before, r', q, after, rfl, here, changed, rfl⟩ := ih later updated
      exact ⟨r :: before, r', q, after, rfl, here, changed, rfl⟩

/-! ## Following -/

namespace AllocationLog

/-- The log is up to date with the register, where the attached regions that have not ended are the `watched` ones.
A region that was attached more than once is watched under its last token only, and the records of its older ones
stay. -/
structure Follows (collection : SiteCollection) (log : AllocationLog) (h : Register) (watched : List Subject) :
    Prop where
  collects : log.collection = collection
  attached : h.attached.map Attachment.token = List.range' 1 log.lastToken
  dated : Dated (log.live ++ log.finished) log.lastToken log.clock
  live : ∃ old, (log.live.map RegionRecord.token).Perm (watched.map Subject.token ++ old) ∧
    ((h.attached.map Attachment.area).Nodup → old = [])
  unfinished : ∀ r ∈ log.live, r.finish = none
  running : ∀ s ∈ watched, ∀ r ∈ log.live, r.token = s.token →
    r.bytes ≤ s.bytes ∧ r.Tells collection h.attached s
  accounted : (h.attached.map Attachment.token).Perm
    (log.live.map RegionRecord.token ++ h.ended.map Subject.token)
  cleared : h.cleared ≤ h.ended.length
  closed : List.Forall₂ (RegionRecord.Closes collection h.attached) log.finished (h.ended.drop h.cleared)

variable {log log' : AllocationLog} {h : Register} {watched watched' : List Subject} {region : Region}

theorem Follows.perm (f : log.Follows collection h watched) (perm : watched.Perm watched') :
    log.Follows collection h watched' := by
  obtain ⟨old, live, once⟩ := f.live
  exact { f with
    live := ⟨old, live.trans ((perm.map _).append_right _), once⟩
    running := fun s hs => f.running s (perm.mem_iff.2 hs) }

/-- A region that is watched has a record. -/
theorem Follows.exists_record (f : log.Follows collection h watched) (hs : s ∈ watched) :
    ∃ r ∈ log.live, r.token = s.token := by
  obtain ⟨old, live, -⟩ := f.live
  exact List.mem_map.1 (live.mem_iff.2 (List.mem_append_left _ (List.mem_map_of_mem hs)))

/-- A region that is watched was attached. -/
theorem Follows.area_mem (f : log.Follows collection h watched) (hs : s ∈ watched) :
    s.area ∈ h.attached.map Attachment.area := by
  obtain ⟨r, hr, token⟩ := f.exists_record hs
  obtain ⟨a, ha, -, area, -⟩ := (f.running s hs r hr token).2.since
  exact area ▸ List.mem_map_of_mem ha

/-- No two watched regions have the same token. -/
theorem Follows.tokens_nodup (f : log.Follows collection h watched) : (watched.map Subject.token).Nodup := by
  obtain ⟨old, live, -⟩ := f.live
  exact (List.nodup_append.1 (live.nodup_iff.1 (List.nodup_append.1 (List.map_append ▸ f.dated.tokens)).1)).1

/-- A region is attached, be it for the first time or not. -/
theorem Follows.attach (f : log.Follows collection h (region.subject.toList ++ watched)) :
    (log.created region.kind).1.Follows collection (h.attach region)
      (⟨log.lastToken + 1, region.area, region.bytesAllocated⟩ :: watched) := by
  have length : h.attached.length = log.lastToken := by
    simpa using congrArg List.length f.attached
  have known : ∀ a ∈ h.attached, a ∈ (h.attach region).attached := fun a ha => List.mem_append_left _ ha
  have moved : ({ token := log.lastToken + 1, kind := region.kind, start := log.clock + 1 } ::
      (log.live ++ log.finished)).Perm ((log.created region.kind).1.live ++ log.finished) := by
    rw [created, List.append_assoc]
    exact List.perm_middle.symm
  refine ⟨f.collects, ?_, f.dated.create.perm moved, ?_, ?_, ?_, ?_, f.cleared, ?_⟩
  · rw [Register.attach, List.map_append, f.attached, length, created, List.range'_concat]
    simp [Nat.add_comm]
  · obtain ⟨old, live, once⟩ := f.live
    refine ⟨region.subject.toList.map Subject.token ++ old, ?_, fun distinct => ?_⟩
    · rw [List.map_append, List.append_assoc] at live
      rw [created, List.map_append]
      refine (List.perm_append_singleton _ _).trans ((live.trans ?_).cons _)
      exact List.perm_append_comm_assoc ..
    · -- a region that is watched already has an area that was attached before
      rw [Register.attach, List.map_append, List.nodup_append] at distinct
      have first : region.subject = none := by
        cases subject : region.subject with
        | none => rfl
        | some s =>
          have area : s.area = region.area := by
            unfold Region.subject at subject
            split at subject
            · rw [← Option.some_inj.1 subject]
            · cases subject
          have before := f.area_mem (s := s) (by simp [subject])
          exact absurd area (distinct.2.2 _ before _ (by simp))
      rw [first, once distinct.1]
      rfl
  · rw [created, List.forall_mem_append]
    exact ⟨f.unfinished, by simp⟩
  · rw [created, List.forall_mem_cons]
    constructor
    · intro r hr token
      rcases List.mem_append.1 hr with older | new
      · have := f.dated.given r (List.mem_append_left _ older)
        dsimp only at token
        omega
      · obtain rfl := List.mem_singleton.1 new
        refine ⟨Nat.zero_le _, rfl, ⟨_, region.area, region.kind, region.bytesAllocated⟩,
          List.mem_append_right _ List.mem_cons_self, by dsimp only; rw [length], rfl, rfl, ?_⟩
        split
        · simp
        · rfl
    · intro s hs r hr token
      rcases List.mem_append.1 hr with older | new
      · obtain ⟨bytes, tells⟩ := f.running s (List.mem_append_right _ hs) r older token
        exact ⟨bytes, tells.mono known⟩
      · -- the new token is none of those that were given out
        obtain rfl := List.mem_singleton.1 new
        obtain ⟨r, hr, same⟩ := f.exists_record (List.mem_append_right _ hs)
        have := f.dated.given r (List.mem_append_left _ hr)
        dsimp only at token
        omega
  · rw [Register.attach, created, List.map_append, List.map_append, length, List.append_assoc]
    have last := List.perm_append_singleton (log.lastToken + 1)
      (log.live.map RegionRecord.token ++ h.ended.map Subject.token)
    exact (f.accounted.append_right _).trans (last.trans List.perm_middle.symm)
  · exact f.closed.imp fun r s closes => ⟨closes.tells.mono known, closes.bytes, closes.lived⟩

/-- The record with a token is the only one. -/
theorem Follows.token_ne (f : log.Follows collection h watched) (parts : log.live = before ++ r :: after) :
    ∀ q ∈ before ++ after, q.token ≠ r.token := by
  have distinct := f.dated.tokens
  rw [List.map_append, parts] at distinct
  have once := ((List.perm_middle.map RegionRecord.token).nodup_iff).1 (List.nodup_append.1 distinct).1
  rw [List.map_cons, List.nodup_cons] at once
  exact fun q hq same => once.1 (same ▸ List.mem_map_of_mem hq)

/-- A block of a watched region is counted. -/
theorem Follows.allocated (f : log.Follows collection h (s :: watched))
    (done : log.allocated s.token size site = .ok log') :
    log'.Follows collection h ({ s with bytes := s.bytes + size } :: watched) := by
  obtain ⟨live, updated, done⟩ := bind_eq_ok.1 done
  obtain rfl := Except.ok.inj done
  obtain ⟨r, hr, token⟩ := f.exists_record List.mem_cons_self
  have known : s.token ∈ log.live.map RegionRecord.token := List.mem_map.2 ⟨r, hr, token⟩
  obtain ⟨before, r, q, after, parts, here, counted, rfl⟩ := updateRecord_eq_ok known updated
  rw [f.collects] at counted
  obtain ⟨token, times, finish, bytes⟩ := RegionRecord.allocated_eq_ok counted
  have others := f.token_ne parts
  have mine : r ∈ log.live := by simp [parts]
  have old : ∀ t ∈ before ++ after, t ∈ log.live := fun t ht =>
    parts ▸ ((List.sublist_cons_self r after).append_left before).subset ht
  have cases : ∀ t ∈ before ++ q :: after, t = q ∨ t ∈ before ++ after := fun t ht =>
    List.mem_cons.1 (List.perm_middle.mem_iff.1 ht)
  have tokens : (before ++ q :: after).map RegionRecord.token = log.live.map RegionRecord.token := by
    simp only [parts, List.map_append, List.map_cons, token]
  refine ⟨f.collects, f.attached, f.dated.congr ?_ ?_, ?_, ?_, ?_, tokens ▸ f.accounted, f.cleared, f.closed⟩
  · rw [List.map_append, tokens, List.map_append]
  · simp only [parts, List.map_append, List.map_cons, times]
  · rw [tokens]
    exact f.live
  · intro t ht
    rcases cases t ht with rfl | ht
    · exact finish.trans (f.unfinished r mine)
    · exact f.unfinished t (old t ht)
  · obtain ⟨own, rest⟩ := List.forall_mem_cons.1 f.running
    refine List.forall_mem_cons.2 ⟨?_, ?_⟩
    · intro t ht same
      rcases cases t ht with rfl | ht
      · obtain ⟨below, tells⟩ := own r mine here
        exact ⟨bytes ▸ Nat.add_le_add_right below size, tells.allocated counted⟩
      · exact absurd (same.trans here.symm) (others t ht)
    · intro u hu t ht same
      rcases cases t ht with rfl | ht
      · have twice : s.token ∈ watched.map Subject.token := here ▸ token ▸ same ▸ List.mem_map_of_mem hu
        exact absurd twice (List.nodup_cons.1 f.tokens_nodup).1
      · exact rest u hu t (old t ht) same

theorem destroyed_eq {bytes : Nat} (parts : log.live = before ++ r :: after)
    (others : ∀ q ∈ before ++ after, q.token ≠ r.token) (below : r.bytes ≤ bytes) :
    log.destroyed r.token bytes = { log with
      clock := log.clock + 1
      live := before ++ after
      finished := log.finished ++ [{ r with bytes, finish := some (log.clock + 1) }] } := by
  have none : ∀ l : List RegionRecord, (∀ q ∈ l, q.token ≠ r.token) → l.filter (fun q => q.token == r.token) = [] :=
    fun l hl => List.filter_eq_nil_iff.2 fun q hq => by simpa using hl q hq
  have all : ∀ l : List RegionRecord, (∀ q ∈ l, q.token ≠ r.token) → l.filter (fun q => q.token != r.token) = l :=
    fun l hl => List.filter_eq_self.2 fun q hq => by simpa using hl q hq
  obtain ⟨first, last⟩ := List.forall_mem_append.1 others
  have one : log.live.filter (fun q => q.token == r.token) = [r] := by
    rw [parts, List.filter_append, List.filter_cons_of_pos (by simp), none _ first, none _ last]
    rfl
  have rest : log.live.filter (fun q => q.token != r.token) = before ++ after := by
    rw [parts, List.filter_append, List.filter_cons_of_neg (by simp), all _ first, all _ last]
  rw [destroyed, one, rest, List.map_singleton, Nat.max_eq_right below]

/-- A watched region ends. -/
theorem Follows.destroyed (f : log.Follows collection h (s :: watched)) :
    (log.destroyed s.token s.bytes).Follows collection { h with ended := h.ended ++ [s] } watched := by
  obtain ⟨r, mine, here⟩ := f.exists_record List.mem_cons_self
  obtain ⟨before, after, parts⟩ := List.append_of_mem mine
  have others := f.token_ne parts
  obtain ⟨below, tells⟩ := f.running s List.mem_cons_self r mine here
  have old : ∀ t ∈ before ++ after, t ∈ log.live := fun t ht =>
    parts ▸ ((List.sublist_cons_self r after).append_left before).subset ht
  let closed : RegionRecord := { r with bytes := s.bytes, finish := some (log.clock + 1) }
  have whole : (log.live ++ log.finished).Perm (r :: (before ++ after ++ log.finished)) := by
    rw [parts]
    exact List.perm_middle.append_right _
  have moved : (closed :: (before ++ after ++ log.finished)).Perm
      (before ++ after ++ (log.finished ++ [closed])) := by
    rw [← List.append_assoc]
    exact (List.perm_append_singleton _ _).symm
  rw [← here, destroyed_eq parts others below]
  refine ⟨f.collects, f.attached, ?_, ?_, fun t ht => f.unfinished t (old t ht), ?_, ?_, ?_, ?_⟩
  · exact ((f.dated.perm whole).finish (f.unfinished r mine) s.bytes).perm moved
  · obtain ⟨older, live, once⟩ := f.live
    rw [parts] at live
    have same := (List.perm_middle.map RegionRecord.token).symm.trans live
    rw [List.map_cons, List.map_cons, List.cons_append, here] at same
    exact ⟨older, same.cons_inv, once⟩
  · exact fun u hu t ht => f.running u (List.mem_cons_of_mem _ hu) t (old t ht)
  · have accounted := f.accounted
    rw [parts] at accounted
    have same := accounted.trans ((List.perm_middle.map RegionRecord.token).append_right _)
    rw [List.map_cons, List.cons_append, here] at same
    have last : (h.ended ++ [s]).map Subject.token = h.ended.map Subject.token ++ [s.token] := List.map_append
    dsimp only
    rw [last, ← List.append_assoc]
    exact same.trans (List.perm_append_singleton _ _).symm
  · rw [List.length_append]
    exact Nat.le_add_right_of_le f.cleared
  · have began := f.dated.past r.start (List.mem_flatMap.2 ⟨r, List.mem_append_left _ mine, List.mem_cons_self⟩)
    have closes : closed.Closes collection h.attached s :=
      ⟨⟨tells.token, tells.since⟩, rfl, log.clock + 1, rfl, Nat.lt_succ_of_le began⟩
    rw [List.drop_append_of_le_length f.cleared]
    exact List.rel_append f.closed (.cons closes .nil)

/-- A label is not part of what a register tells. -/
theorem Follows.labelled (f : log.Follows collection h watched) (token : Nat) (text : String) :
    (log.label token text).Follows collection h watched := by
  have same : ∀ r ∈ (log.label token text).live, ∃ q ∈ log.live, r = { q with label := r.label } := by
    intro r hr
    obtain ⟨q, hq, rfl⟩ := List.mem_map.1 hr
    refine ⟨q, hq, ?_⟩
    split <;> rfl
  have unseen : ∀ {α : Type} (g : RegionRecord → α), (∀ r label, g { r with label } = g r) →
      (log.label token text).live.map g = log.live.map g := by
    intro α g blind
    rw [label, List.map_map]
    refine List.map_congr_left fun r _ => ?_
    dsimp only [Function.comp]
    split
    · exact blind r _
    · rfl
  have tokens := unseen RegionRecord.token fun _ _ => rfl
  have times := unseen RegionRecord.times fun _ _ => rfl
  refine ⟨f.collects, f.attached, f.dated.congr ?_ ?_, tokens ▸ f.live, ?_, ?_, tokens ▸ f.accounted, f.cleared,
    f.closed⟩
  · rw [List.map_append, tokens, List.map_append]
    rfl
  · rw [List.map_append, times, List.map_append]
    rfl
  · intro r hr
    obtain ⟨q, hq, eq⟩ := same r hr
    rw [eq]
    exact f.unfinished q hq
  · intro s hs r hr token
    obtain ⟨q, hq, eq⟩ := same r hr
    rw [eq] at token ⊢
    obtain ⟨bytes, tells⟩ := f.running s hs q hq token
    exact ⟨bytes, tells.token, tells.since⟩

/-- Clearing the log forgets the records of the regions that ended. -/
theorem Follows.clear (f : log.Follows collection h watched) :
    log.clear.Follows collection { h with cleared := h.ended.length } watched := by
  refine ⟨f.collects, f.attached, ?_, f.live, f.unfinished, f.running, f.accounted, Nat.le_refl _, ?_⟩
  · rw [AllocationLog.clear, List.append_nil]
    exact f.dated.left
  · rw [List.drop_length]
    exact .nil

end AllocationLog

end FreeStore
