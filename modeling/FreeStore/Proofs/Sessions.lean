import FreeStore.Proofs.BlocksApart
import FreeStore.Proofs.SegmentsConserved
import FreeStore.Region.Session
/-!
What sessions keep.

Changing the kind of a region, or attaching it to the log, leaves its areas, its marks and its links as they are
(`Region.Revises`). So a session keeps all that a run keeps: the regions hold what was created in them, their blocks
fill their areas, and no segment is lost (`RegionStore.Orderly`).
-/
namespace FreeStore

/-- `q` is `r` with another kind or attachment. -/
def Region.Revises (r q : Region) : Prop :=
  ∃ kind observed token, q = { r with kind, observed, token }

theorem Region.Revises.filled {r q : Region} {bs : List Block} (h : r.Revises q) (filled : r.Filled bs) :
    q.Filled bs := by
  obtain ⟨kind, observed, token, rfl⟩ := h
  have same (b : Block) := Block.stretch_congr (q := { r with kind, observed, token }) (r := r) rfl b
  refine ⟨⟨filled.marked.embedded, filled.marked.chained⟩, filled.total, filled.marks, fun b hb => ?_, ?_⟩
  · rw [same]
    exact filled.lie b hb
  · rw [List.map_congr_left fun b _ => same b]
    exact filled.apart

theorem Region.Revises.holds {r q : Region} {m : Storage} {items : List Item} (h : r.Revises q)
    (holds : r.Holds m items) : q.Holds m items := by
  obtain ⟨kind, observed, token, rfl⟩ := h
  obtain ⟨is, found, made, below⟩ := holds
  have same : Region.follow { r with kind, observed, token } m r.last = r.follow m r.last :=
    Region.follow_congr rfl
  exact ⟨is, same.trans found, made, below⟩

namespace RegionStore

variable {c : Created} {st st' : RegionStore} {name : String} {r q : Region} {a : Action} {as : List Action}
  {answer : Answer} {answers : List Answer}

/-- A living region is put back after a change of its kind or its attachment. -/
theorem Sound.revise (h : st.Sound c) (found : st.living.lookup name = some r) (revises : r.Revises q) :
    (st.put name q).Sound c := by
  obtain ⟨rest, front, put⟩ := Living.exists_front h.forest.names found
  have kept := h.kept.perm front
  obtain ⟨own, others⟩ := List.forall_mem_cons.1 kept.holds
  have holds : ∀ p ∈ (name, q) :: rest, p.2.Holds st.storage (c p.1) :=
    List.forall_mem_cons.2 ⟨revises.holds own, others⟩
  obtain ⟨kind, observed, token, rfl⟩ := revises
  have revised : Kept c st.fresh st.storage ((name, { r with kind, observed, token }) :: rest) :=
    ⟨kept.areas, List.forall_mem_cons.2 (List.forall_mem_cons.1 kept.made),
      List.forall_mem_cons.2 (List.forall_mem_cons.1 kept.counted), holds⟩
  have numbers := Living.perm_numbers (put { r with kind, observed, token })
  exact ⟨revised.perm (put _).symm, (h.books.perm (Living.perm_numbers front)).perm numbers.symm,
    h.forest.rename Living.map_fst_put⟩

/-- What else an action does than an operation: it revises a living region, and what the log has of it. -/
theorem act_cases (done : st.act a = .ok (st', answer)) :
    (∃ raw o, a = .operate raw o ∧ st.nextStep.perform raw o = .ok (st', answer)) ∨
      ∃ name r q log, st.living.lookup name = some r ∧ r.Revises q ∧
        st' = { st.nextStep with log }.put name q := by
  cases a with
  | operate raw o => exact .inl ⟨raw, o, rfl, done⟩
  | setKind name kind =>
    obtain ⟨last, revised, done⟩ := bind_eq_ok.1 done
    obtain ⟨rfl, -⟩ := Prod.mk.inj (Except.ok.inj done)
    obtain ⟨_, -, revised⟩ := bind_eq_ok.1 revised
    obtain ⟨r, found, revised⟩ := bind_eq_ok.1 revised
    obtain rfl := Except.ok.inj revised
    exact .inr ⟨name, r, _, st.log, find_eq_ok found, ⟨kind, r.observed, r.token, rfl⟩, rfl⟩
  | observe name =>
    obtain ⟨last, attached, done⟩ := bind_eq_ok.1 done
    obtain ⟨rfl, -⟩ := Prod.mk.inj (Except.ok.inj done)
    obtain ⟨_, -, attached⟩ := bind_eq_ok.1 attached
    obtain ⟨r, found, attached⟩ := bind_eq_ok.1 attached
    obtain ⟨log, observed, token, revised⟩ := attach_eq st.nextStep r
    rw [revised] at attached
    obtain rfl := Except.ok.inj attached
    exact .inr ⟨name, r, _, log, find_eq_ok found, ⟨r.kind, observed, token, rfl⟩, rfl⟩

theorem Sound.act (h : st.Sound c) (done : st.act a = .ok (st', answer)) : ∃ d, st'.Sound d := by
  rcases act_cases done with ⟨raw, o, rfl, performed⟩ | ⟨name, r, q, log, found, revises, rfl⟩
  · exact ⟨_, h.nextStep.perform performed⟩
  · have same : Sound c { st.nextStep with log } := ⟨h.kept, h.books, h.forest⟩
    exact ⟨c, same.revise found revises⟩

/-- The regions hold what was created in them, and are filled by their blocks; every segment is in a chain or
cached. -/
structure Orderly (st : RegionStore) : Prop where
  sound : ∃ c, st.Sound c
  filled : ∃ b, (st.stock b).Filled
  backed : ∃ sizes, st.provider.Backed sizes st.living.labels
  leave : st.leave = none

theorem orderly_new {provider : Provider} {segmentSize limit : Option Nat} {log : Option AllocationLog}
    (made : Provider.create segmentSize limit = .ok provider) : Orderly { provider, log } where
  sound := ⟨fun _ => [], sound_new (Provider.accounts_create made)⟩
  filled := ⟨fun _ => [], by simp [stock, Stock.Filled]⟩
  backed := ⟨[], Provider.backed_create made⟩
  leave := rfl

theorem Orderly.nextStep (h : st.Orderly) : st.nextStep.Orderly where
  sound := h.sound.imp fun _ => Sound.nextStep
  filled := h.filled
  backed := h.backed
  leave := h.leave

theorem Orderly.perform {raw : RawSupply} {o : Operation} (h : st.Orderly)
    (done : st.perform raw o = .ok (st', answer)) : st'.Orderly := by
  obtain ⟨c, sound⟩ := h.sound
  obtain ⟨b, filled⟩ := h.filled
  have evolves := sound.perform_evolves b done
  refine ⟨⟨_, sound.perform done⟩, ⟨o.handed b answer, ?_⟩, ?_, evolves.leave.trans h.leave⟩
  · exact evolves.keeps (fun change => (h.leave ▸ change).filled) filled
  · refine evolves.keeps (I := fun s => ∃ sizes, s.provider.Backed sizes s.living.labels) ?_ h.backed
    rintro s s' change ⟨sizes, backed⟩
    obtain ⟨new, more, -⟩ := change.backed backed
    exact ⟨_, more⟩

theorem Orderly.revise (h : st.Orderly) (found : st.living.lookup name = some r) (revises : r.Revises q) :
    (st.put name q).Orderly := by
  obtain ⟨c, sound⟩ := h.sound
  obtain ⟨rest, front, put⟩ := Living.exists_front sound.forest.names found
  refine ⟨⟨c, sound.revise found revises⟩, ?_, ?_, h.leave⟩
  · obtain ⟨b, filled⟩ := h.filled
    obtain ⟨own, others⟩ := List.forall_mem_cons.1 fun p hp => filled p (front.mem_iff.2 hp)
    have whole : ∀ p ∈ (name, q) :: rest, p.2.Filled (b p.1) :=
      List.forall_mem_cons.2 ⟨revises.filled own, others⟩
    exact ⟨b, fun p hp => whole p ((put q).mem_iff.1 hp)⟩
  · obtain ⟨sizes, backed⟩ := h.backed
    obtain ⟨kind, observed, token, rfl⟩ := revises
    have labels := Living.perm_labels (put { r with kind, observed, token })
    exact ⟨sizes, (backed.perm (Living.perm_labels front)).perm labels.symm⟩

theorem Orderly.act (h : st.Orderly) (done : st.act a = .ok (st', answer)) : st'.Orderly := by
  rcases act_cases done with ⟨raw, o, rfl, performed⟩ | ⟨name, r, q, log, found, revises, rfl⟩
  · exact h.nextStep.perform performed
  · obtain ⟨sound, filled, backed, leave⟩ := h
    have same : Orderly { st.nextStep with log } :=
      ⟨sound.imp fun _ s => ⟨s.kept, s.books, s.forest⟩, filled, backed, leave⟩
    exact same.revise found revises

theorem Orderly.session (h : st.Orderly) (ran : st.session as = .ok (st', answers)) : st'.Orderly := by
  induction as generalizing st answers with
  | nil =>
    obtain ⟨rfl, -⟩ := Prod.mk.inj (Except.ok.inj ran)
    exact h
  | cons a as ih =>
    obtain ⟨⟨mid, answer⟩, first, ran⟩ := bind_eq_ok.1 ran
    obtain ⟨⟨last, others⟩, rest, done⟩ := bind_eq_ok.1 ran
    obtain ⟨rfl, -⟩ := Prod.mk.inj (Except.ok.inj done)
    exact ih (h.act first) rest

end RegionStore

end FreeStore
