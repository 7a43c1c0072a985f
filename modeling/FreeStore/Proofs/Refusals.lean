import FreeStore.Proofs.Supply
import FreeStore.Region.Session
/-!
Refused requests leave no trace.

A request that is refused, because of its alignment, by the limit or by the raw allocator, leaves the store as it was
but for the record of what happened in the step (`act_refused`). What comes next forgets that record first, so from
there on everything is as it would have been without the request (`refused_leaves_no_trace`).
-/
namespace FreeStore.RegionStore

variable {st st' mid : RegionStore} {raw : RawSupply} {name : String} {bytes align size : Nat} {site : Site}
  {a : Action} {before later : List Action} {answer : Answer} {answers : List Answer}

/-- There was no memory, or no support for the alignment. -/
def Answer.isRefusal : Answer → Bool
  | .tried (.error _) | .buffer .refused => true
  | _ => false

/-- Only what happened in the step may be different. -/
def SameButEvents (st st' : RegionStore) : Prop := st'.nextStep = st.nextStep

theorem requestSegment_refused {e : SegmentError} (done : st.requestSegment raw size = .ok (st', .error e)) :
    st.SameButEvents st' := by
  obtain ⟨⟨provider, supplied⟩, requested, done⟩ := bind_eq_ok.1 done
  cases supplied with
  | ok s => cases done
  | error e =>
    obtain rfl := Provider.request_refused requested
    obtain ⟨rfl, -⟩ := Prod.mk.inj (Except.ok.inj done)
    rfl

theorem placeBlock_refused {e : SegmentError} (done : st.placeBlock raw name size site = .ok (st', .error e)) :
    st.SameButEvents st' := by
  obtain ⟨r, -, done⟩ := bind_eq_ok.1 done
  obtain ⟨placed, -, done⟩ := bind_eq_ok.1 done
  cases placed with
  | some placed =>
    obtain ⟨last, -, done⟩ := bind_eq_ok.1 done
    cases done
  | none =>
    obtain ⟨⟨mid, supplied⟩, requested, done⟩ := bind_eq_ok.1 done
    cases supplied with
    | error e =>
      obtain ⟨rfl, -⟩ := Prod.mk.inj (Except.ok.inj done)
      exact requestSegment_refused requested
    | ok s =>
      obtain ⟨placed, -, done⟩ := bind_eq_ok.1 done
      obtain ⟨last, -, done⟩ := bind_eq_ok.1 done
      cases done

theorem tryAllocate_refused {e : RegionError} (done : st.tryAllocate raw name bytes site = .ok (st', .error e)) :
    st.SameButEvents st' := by
  obtain ⟨rounded, -, done⟩ := bind_eq_ok.1 done
  obtain ⟨⟨mid, supplied⟩, placed, done⟩ := bind_eq_ok.1 done
  cases supplied with
  | ok place => cases done
  | error e =>
    obtain ⟨rfl, -⟩ := Prod.mk.inj (Except.ok.inj done)
    exact placeBlock_refused placed

theorem tryAllocateAligned_refused {e : RegionError}
    (done : st.tryAllocateAligned raw name bytes align site = .ok (st', .error e)) : st.SameButEvents st' := by
  unfold tryAllocateAligned at done
  split at done
  · obtain ⟨rfl, -⟩ := Prod.mk.inj (Except.ok.inj done)
    rfl
  · exact tryAllocate_refused done

theorem allocateBuffer_refused (done : st.allocateBuffer raw name bytes align site = .ok (st', .refused)) :
    st.SameButEvents st' := by
  unfold allocateBuffer at done
  split at done
  · cases done
  · obtain ⟨⟨mid, tried⟩, asked, done⟩ := bind_eq_ok.1 done
    cases tried with
    | ok place => cases done
    | error e =>
      obtain ⟨rfl, -⟩ := Prod.mk.inj (Except.ok.inj done)
      exact tryAllocateAligned_refused asked

theorem perform_refused {o : Operation} (done : st.perform raw o = .ok (st', answer))
    (refuses : answer.isRefusal = true) : st.SameButEvents st' := by
  cases o with
  | tryAllocate name bytes site =>
    obtain ⟨⟨last, tried⟩, asked, done⟩ := bind_eq_ok.1 done
    obtain ⟨rfl, rfl⟩ := Prod.mk.inj (Except.ok.inj done)
    cases tried with
    | ok place => cases refuses
    | error e => exact tryAllocate_refused asked
  | tryAllocateAligned name bytes align site =>
    obtain ⟨⟨last, tried⟩, asked, done⟩ := bind_eq_ok.1 done
    obtain ⟨rfl, rfl⟩ := Prod.mk.inj (Except.ok.inj done)
    cases tried with
    | ok place => cases refuses
    | error e => exact tryAllocateAligned_refused asked
  | allocateBuffer name bytes align site =>
    obtain ⟨⟨last, buffer⟩, asked, done⟩ := bind_eq_ok.1 done
    obtain ⟨rfl, rfl⟩ := Prod.mk.inj (Except.ok.inj done)
    cases buffer with
    | dangling align => cases refuses
    | placed place => cases refuses
    | refused => exact allocateBuffer_refused asked
  | label | clearLog =>
    obtain ⟨-, rfl⟩ := Prod.mk.inj (Except.ok.inj done)
    cases refuses
  | _ =>
    -- the others have no answer that refuses
    obtain ⟨last, -, done⟩ := bind_eq_ok.1 done
    obtain ⟨-, rfl⟩ := Prod.mk.inj (Except.ok.inj done)
    cases refuses

/-- A refused request changes nothing but what happened in the step. -/
theorem act_refused (done : st.act a = .ok (st', answer)) (refuses : answer.isRefusal = true) :
    st.SameButEvents st' := by
  cases a with
  | operate raw o =>
    have same : st'.nextStep = st.nextStep.nextStep := perform_refused done refuses
    exact same
  | setKind name kind | observe name =>
    obtain ⟨last, -, done⟩ := bind_eq_ok.1 done
    obtain ⟨-, rfl⟩ := Prod.mk.inj (Except.ok.inj done)
    cases refuses

/-! ## What comes next -/

/-- The next action does not see what happened before it. -/
theorem SameButEvents.act_eq (h : st.SameButEvents st') (a : Action) : st'.act a = st.act a := by
  have same : st'.nextStep = st.nextStep := h
  cases a <;> simp only [act, step, same]

/-- How a session ends, but for what happened in its last step. -/
def ending (x : Outcome (RegionStore × List Answer)) : Outcome (RegionStore × List Answer) :=
  x.map fun s => (s.1.nextStep, s.2)

theorem SameButEvents.session_eq (h : st.SameButEvents st') :
    ending (st'.session later) = ending (st.session later) := by
  cases later with
  | nil => exact congrArg (fun s => Except.ok (s, [])) h
  | cons a later => rw [session, session, h.act_eq]

theorem ending_cons (first : Answer) (x : Outcome (RegionStore × List Answer)) :
    ending (x.map fun s => (s.1, first :: s.2)) = (ending x).map fun s => (s.1, first :: s.2) := by
  cases x <;> rfl

theorem session_cons (done : st.act a = .ok (st', answer)) :
    st.session (a :: later) = (st'.session later).map fun s => (s.1, answer :: s.2) := by
  rw [session, done, ok_bind]
  dsimp only
  cases st'.session later <;> rfl

/-- A request that is refused may be left out of a session: all other actions have the same answers, a session that
would end with a fault ends with the same one, and the store is the same in the end, that is all regions, the provider
with its counters and its cache, the storage and the log. -/
theorem refused_leaves_no_trace (ran : st.session before = .ok (mid, answers))
    (done : mid.act a = .ok (st', answer)) (refuses : answer.isRefusal = true) (later : List Action) :
    st'.nextStep = mid.nextStep ∧ ending (st.session (before ++ a :: later)) =
      (ending (st.session (before ++ later))).map fun s => (s.1, s.2.insertIdx before.length answer) := by
  have same := act_refused done refuses
  refine ⟨same, ?_⟩
  induction before generalizing st answers with
  | nil =>
    obtain ⟨rfl, -⟩ := Prod.mk.inj (Except.ok.inj ran)
    rw [List.nil_append, List.nil_append, session_cons done, ← same.session_eq]
    cases st'.session later <;> rfl
  | cons b before ih =>
    obtain ⟨⟨next, first⟩, acted, ran⟩ := bind_eq_ok.1 ran
    obtain ⟨⟨last, others⟩, rest, ran⟩ := bind_eq_ok.1 ran
    obtain ⟨rfl, -⟩ := Prod.mk.inj (Except.ok.inj ran)
    rw [List.cons_append, List.cons_append, session_cons acted, session_cons acted, ending_cons, ih rest,
      ending_cons]
    cases ending (next.session (before ++ later)) <;> rfl

/-- A request that the limit does not allow, among others of two regions that share segments and a log. Whether it was
made or not, the first region gets the segment that the second one returned. -/
theorem refused_leaves_no_trace_at_limit : ∃ (before later : List Action) (a : Action) (start mid st' : RegionStore)
    (answers : List Answer) (last : RegionStore),
    start = { provider := { limit := 200000 }, log := some { collection := .all } } ∧
    start.session before = .ok (mid, answers) ∧ before.length = 4 ∧
    mid.act a = .ok (st', .tried (.error (.segment (.limitExceeded 215536 200000)))) ∧
    st'.nextStep = mid.nextStep ∧
    ending (start.session (before ++ a :: later)) = (ending (start.session (before ++ later))).map
      (fun s => (s.1, s.2.insertIdx 4 (.tried (.error (.segment (.limitExceeded 215536 200000)))))) ∧
    (ending (start.session (before ++ later))).map Prod.fst = .ok last ∧
    last.living.map (fun p => (p.1, p.2.chain.map Segment.number, p.2.bytesAllocated)) =
      [("a", [1, 0], 67008)] ∧
    last.provider.cached = [] ∧ last.log.map (·.finished.map RegionRecord.bytes) = some [5008] := by
  let start : RegionStore := { provider := { limit := 200000 }, log := some { collection := .all } }
  let plain (o : Operation) : Action := .operate (fun _ => true) o
  let before := [plain (.make "a" none none 1), plain (.tryAllocate "a" 5000 (some 1)),
    plain (.make "b" none none 1), plain (.tryAllocate "b" 5000 (some 2))]
  let a := plain (.tryAllocate "b" 84464 (some 2))
  let later := [plain (.drop "b"), plain (.tryAllocate "a" 62000 (some 3))]
  let e : RegionError := .segment (.limitExceeded 215536 200000)
  have request : ∃ x ∈ (start.session before).toOption,
      ∃ y ∈ (x.1.nextStep.tryAllocate (fun _ => true) "b" 84464 (some 2)).toOption,
        (match y.2 with
          | .error e' => e' == e
          | .ok _ => false) = true := by
    decide +kernel
  have without : ∃ x ∈ (start.session (before ++ later)).toOption,
      x.1.living.map (fun p => (p.1, p.2.chain.map Segment.number, p.2.bytesAllocated)) =
        [("a", [1, 0], 67008)] ∧
      x.1.provider.cached = [] ∧ x.1.log.map (·.finished.map RegionRecord.bytes) = some [5008] := by
    decide +kernel
  obtain ⟨⟨mid, answers⟩, ran, ⟨st', tried⟩, asked, refused⟩ := request
  obtain ⟨⟨last, others⟩, short, chains, cached, finished⟩ := without
  rw [mem_toOption] at ran asked short
  have same : tried = .error e := by
    split at refused
    · rename_i e' answered
      dsimp only at answered
      rw [answered, eq_of_beq refused]
    · cases refused
  subst same
  have done : mid.act a = .ok (st', .tried (.error e)) := bind_eq_ok.2 ⟨_, asked, rfl⟩
  obtain ⟨still, alike⟩ := refused_leaves_no_trace ran done rfl later
  exact ⟨before, later, a, start, mid, st', answers, last.nextStep, rfl, ran, rfl, done, still, alike,
    by rw [short]; rfl, chains, cached, finished⟩

end FreeStore.RegionStore
