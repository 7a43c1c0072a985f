import FreeStore.Proofs.Outcome
import FreeStore.Segment.Provider
/-!
A provider never hands the same segment out twice.

Fresh segments get new numbers, and a cached one leaves the cache when it is handed out. So the segments
that are out and those that are cached are all different, and as many are out as the provider counts
(`Provider.Accounts`). Requests and releases keep this up.
-/
namespace FreeStore.Provider

variable {p q : Provider} {raw : RawSupply} {required i k : Nat} {l : List Segment} {s : Segment}
  {out out' : List Nat}

theorem bestFit_eq_some (h : bestFit required k l = some (i, s)) : ∃ j, i = k + j ∧ l[j]? = some s := by
  induction l generalizing k i s with
  | nil => cases h
  | cons t rest ih =>
    rw [bestFit] at h
    cases found : bestFit required (k + 1) rest with
    | none =>
      rw [found] at h
      dsimp only at h
      split at h
      · obtain ⟨rfl, rfl⟩ := Prod.mk.inj (Option.some_inj.1 h)
        exact ⟨0, rfl, rfl⟩
      · cases h
    | some best =>
      obtain ⟨i', t'⟩ := best
      obtain ⟨j, rfl, at_j⟩ := ih found
      rw [found] at h
      dsimp only at h
      split at h
      · obtain ⟨rfl, rfl⟩ := Prod.mk.inj (Option.some_inj.1 h)
        exact ⟨0, rfl, rfl⟩
      · obtain ⟨rfl, rfl⟩ := Prod.mk.inj (Option.some_inj.1 h)
        exact ⟨j + 1, by omega, at_j⟩

/-- Removing an element takes that one out and no other. -/
theorem perm_swapRemove (h : l[i]? = some s) : l.Perm (s :: swapRemove l i) := by
  obtain ⟨inside, rfl⟩ := List.getElem?_eq_some_iff.1 h
  cases hl : l.getLast? with
  | none => simp [List.getLast?_eq_none_iff.1 hl] at inside
  | some t =>
    obtain ⟨front, rfl⟩ := List.getLast?_eq_some_iff.1 hl
    simp only [swapRemove, hl]
    rcases Nat.lt_or_ge i front.length with low | last
    · have split : front = front.take i ++ front[i] :: front.drop (i + 1) := by simp
      rw [List.getElem_append_left low, List.set_append_left _ _ low, List.dropLast_concat,
        List.set_eq_take_append_cons_drop, if_pos low]
      generalize front.take i = a at split
      generalize front.drop (i + 1) = b at split
      generalize front[i] = x at split
      subst split
      refine (List.perm_append_comm.trans ?_)
      refine (List.Perm.cons t List.perm_middle).trans ?_
      exact (List.Perm.swap ..).trans (List.Perm.cons x List.perm_middle.symm)
    · have place : i = front.length := by
        rw [List.length_append] at inside
        simp only [List.length_cons, List.length_nil] at inside
        omega
      subst place
      simp only [List.getElem_concat_length, List.set_append_right _ _ (Nat.le_refl _), Nat.sub_self,
        List.set_cons_zero, List.dropLast_concat]
      exact List.perm_append_comm

/-- The segments with the numbers `out` are handed out: they and the cached ones are different, were all
obtained before, and are as many as the provider counts. -/
structure Accounts (p : Provider) (out : List Nat) : Prop where
  distinct : (out ++ p.cached.map Segment.number).Nodup
  obtained : ∀ n ∈ out ++ p.cached.map Segment.number, n < p.fresh
  live : p.live = out.length

theorem Accounts.perm (h : p.Accounts out) (perm : out.Perm out') : p.Accounts out' where
  distinct := (perm.append_right _).nodup_iff.1 h.distinct
  obtained n hn := h.obtained n ((perm.append_right _).mem_iff.2 hn)
  live := h.live.trans perm.length_eq

theorem accounts_create {segmentSize limit : Option Nat} (made : create segmentSize limit = .ok p) :
    p.Accounts [] := by
  unfold create at made
  cases segmentSize with
  | none =>
    obtain rfl := Except.ok.inj made
    exact ⟨by simp, by simp, rfl⟩
  | some n =>
    obtain ⟨size, -, made⟩ := bind_eq_ok.1 made
    obtain rfl := Except.ok.inj made
    exact ⟨by simp, by simp, rfl⟩

/-- A segment is handed out: one from the cache, or a fresh one that the raw allocator supplies and the limit
allows. -/
inductive Hands (raw : RawSupply) (p : Provider) : Segment → Provider → Prop
  | cached {t : Segment} {cached : List Segment} (parts : p.cached.Perm (t :: cached)) :
      Hands raw p t.rewind { p with cached, live := p.live + 1 }
  | fresh {size : Nat} (supplied : raw size = true) (allowed : p.bytesAllocated + size ≤ p.limit) :
      Hands raw p { number := p.fresh, size }
        { p with bytesAllocated := p.bytesAllocated + size, live := p.live + 1, fresh := p.fresh + 1 }

theorem request_hands (done : p.request raw required = .ok (q, .ok s)) : p.Hands raw s q := by
  unfold Provider.request at done
  split at done
  · rename_i i t fit
    obtain ⟨live, counted, done⟩ := bind_eq_ok.1 done
    obtain ⟨rfl, rfl⟩ : _ ∧ _ := by simpa using Except.ok.inj done
    obtain ⟨-, rfl⟩ := Word.add_eq_ok.1 counted
    obtain ⟨j, rfl, found⟩ := bestFit_eq_some fit
    rw [Nat.zero_add]
    exact .cached (perm_swapRemove found)
  · obtain ⟨rounded, -, done⟩ := bind_eq_ok.1 done
    dsimp only at done
    split at done
    · cases done
    · rename_i below
      split at done
      · cases done
      · rename_i supplied
        obtain ⟨bytes, added, done⟩ := bind_eq_ok.1 done
        obtain ⟨live, counted, done⟩ := bind_eq_ok.1 done
        obtain ⟨rfl, rfl⟩ : _ ∧ _ := by simpa using Except.ok.inj done
        obtain ⟨word, rfl⟩ := Word.add_eq_ok.1 added
        obtain ⟨-, rfl⟩ := Word.add_eq_ok.1 counted
        refine .fresh ?_ ?_
        · simpa [RawSupply.allocate] using supplied
        · simp only [wordLimit] at word
          simp only [maxWord] at below
          omega

/-- A segment that is handed out was not out before. -/
theorem Accounts.request (h : p.Accounts out) (done : p.request raw required = .ok (q, .ok s)) :
    q.Accounts (s.number :: out) := by
  cases request_hands done with
  | @cached t cached parts =>
    have whole : (t.number :: out ++ cached.map Segment.number).Perm (out ++ p.cached.map Segment.number) :=
      List.perm_middle.symm.trans ((parts.map Segment.number).symm.append_left out)
    exact ⟨whole.nodup_iff.2 h.distinct, fun n hn => h.obtained n (whole.mem_iff.1 hn),
      congrArg (· + 1) h.live⟩
  | fresh =>
    refine ⟨List.nodup_cons.2 ⟨fun known => ?_, h.distinct⟩, ?_, congrArg (· + 1) h.live⟩
    · exact Nat.lt_irrefl _ (h.obtained _ known)
    · intro n hn
      rcases List.mem_cons.1 hn with rfl | hn
      · exact Nat.lt_succ_self _
      · exact Nat.lt_succ_of_lt (h.obtained n hn)

/-- A refused request changes nothing. -/
theorem request_refused {e : SegmentError} (done : p.request raw required = .ok (q, .error e)) : q = p := by
  unfold Provider.request at done
  split at done
  · obtain ⟨live, -, done⟩ := bind_eq_ok.1 done
    cases Except.ok.inj done
  · obtain ⟨rounded, -, done⟩ := bind_eq_ok.1 done
    dsimp only at done
    split at done
    · exact (Prod.mk.inj (Except.ok.inj done)).1.symm
    · split at done
      · exact (Prod.mk.inj (Except.ok.inj done)).1.symm
      · obtain ⟨bytes, -, done⟩ := bind_eq_ok.1 done
        obtain ⟨live, -, done⟩ := bind_eq_ok.1 done
        cases Except.ok.inj done

/-- A segment that is out can be released. -/
theorem Accounts.release (h : p.Accounts (s.number :: out)) :
    ∃ q, p.release s = .ok q ∧ q.Accounts out := by
  have some : 1 ≤ p.live := by simp [h.live]
  have moved : (out ++ (p.cached ++ [s.rewind]).map Segment.number).Perm
      (s.number :: out ++ p.cached.map Segment.number) := by
    rw [List.map_append, ← List.append_assoc]
    exact List.perm_append_comm
  refine ⟨{ p with live := p.live - 1, cached := p.cached ++ [s.rewind] }, ?_, ?_⟩
  · rw [Provider.release, Word.sub_bind some]
    rfl
  · refine ⟨moved.nodup_iff.2 h.distinct, fun n hn => h.obtained n (moved.mem_iff.1 hn), ?_⟩
    simp [h.live]

/-- What is released goes into the cache, blank. -/
theorem releaseAll_eq_ok {segments : List Segment} (done : p.releaseAll segments = .ok q) :
    segments.length ≤ p.live ∧ q = { p with
      live := p.live - segments.length
      cached := p.cached ++ segments.map Segment.rewind } := by
  induction segments generalizing p with
  | nil =>
    obtain rfl := Except.ok.inj done
    simp
  | cons s segments ih =>
    obtain ⟨mid, first, rest⟩ := bind_eq_ok.1 done
    obtain ⟨live, counted, first⟩ := bind_eq_ok.1 first
    obtain ⟨some, rfl⟩ := Word.sub_eq_ok.1 counted
    obtain rfl := Except.ok.inj first
    obtain ⟨few, rfl⟩ := ih rest
    simp only [List.length_cons, List.map_cons] at few ⊢
    refine ⟨by omega, ?_⟩
    rw [Nat.sub_sub, Nat.add_comm 1, List.append_assoc, List.singleton_append]

end FreeStore.Provider
