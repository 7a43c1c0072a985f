import FreeStore.Proofs.Reachable
/-!
Hints do not change what a search finds.

When no entry waits for realignment, a search only looks at entries (`search_eq`), and one that starts at a
hint passes over entries that are too small anyway. So an allocation takes the first entry from the head of
the list that is large enough, whatever the hints are, and comes to nothing only if there is none.
-/
namespace FreeStore.Pool

variable {p : Pool} {size : Nat} {record : Bool} {l : FreeList} {w : Walk}

/-- No entry waits for realignment. -/
def Settled (p : Pool) : Prop := p.pendingLoss = 0 ∨ p.cursor = .done

/-- The owner would refuse a refill, and deliver nothing. -/
def Refused (p : Pool) : Prop := ∀ f ∈ p.reserve.head?, f.deliveries = [] ∧ f.answer = false

instance : Decidable p.Settled := inferInstanceAs (Decidable (_ ∨ _))

instance : Decidable p.Refused := inferInstanceAs (Decidable (∀ f ∈ p.reserve.head?, _))

theorem Settled.reach_eq (h : p.Settled) (e : Entry) : p.reach e = .ok (p, some e) := by
  have never : p.awaits e.start = false := by
    rcases h with none | done
    · simp [awaits, none]
    · simp [awaits, done, CardCursor.first?]
  rw [reach, never]
  rfl

theorem search_eq (h : p.Settled) (size : Nat) (l : FreeList) (w : Walk) :
    ∃ w', search size l p w = .ok (p, w', l.find? fun e => size ≤ e.size) ∧
      w'.steps = w.steps + (l.takeWhile fun e => e.size < size).length := by
  induction l generalizing w with
  | nil => exact ⟨w, rfl, rfl⟩
  | cons e l ih =>
    rw [search, h.reach_eq e, ok_bind]
    by_cases fits : size ≤ e.size
    · have found : (e :: l).find? (fun e => decide (size ≤ e.size)) = some e := by simp [fits]
      have none : (e :: l).takeWhile (fun e => decide (e.size < size)) = [] := by simp [fits]
      refine ⟨w.see e.size, ?_, by rw [none]; rfl⟩
      rw [found]
      simp only [fits, if_true]
      rfl
    · obtain ⟨w', found, steps⟩ := ih ((w.see e.size).stepOver e.size)
      refine ⟨w', by simpa [fits] using found, ?_⟩
      rw [List.takeWhile_cons_of_pos (by simpa using fits), List.length_cons, steps]
      simp only [Walk.stepOver, Walk.see]
      omega

/-- How many entries a search steps over: those that are too small, from its hint on or else from the head. -/
def searchSteps (p : Pool) (size : Nat) : Nat :=
  (((p.findHint size).2.elim p.entries fun hint => p.entries.upFrom hint.entry).takeWhile fun e =>
    e.size < size).length

/-- Entries that are too small may be skipped. -/
theorem find?_upFrom {a : Nat} (h : ∀ e ∈ l.below a, e.size < size) :
    ((l.upFrom a).find? fun e => size ≤ e.size) = l.find? fun e => size ≤ e.size := by
  have none : ((l.below a).find? fun e => size ≤ e.size) = none :=
    List.find?_eq_none.2 fun e he => by simpa using h e he
  conv_rhs => rw [← FreeList.below_append_upFrom a l]
  rw [List.find?_append, none, Option.none_or]

/-- Wherever it starts, a search finds the first entry that is large enough. -/
theorem firstFit_eq (h : p.Sound) (settled : p.Settled) :
    ∃ w hinted, p.firstFit size =
        .ok ((p.findHint size).1, w, p.entries.find? fun e => size ≤ e.size, hinted) ∧
      w.steps = p.searchSteps size := by
  obtain ⟨-, -, same, bounds⟩ := findHint_of_sound h size
  have settled' : (p.findHint size).1.Settled := settled
  unfold firstFit searchSteps
  generalize p.findHint size = found at *
  obtain ⟨q, hint⟩ := found
  simp only at *
  cases hint with
  | none =>
    obtain ⟨w, found, steps⟩ := search_eq settled' size q.entries {}
    refine ⟨w, false, ?_, ?_⟩
    · simp only [Option.elim_none]
      rw [found, same]
      rfl
    · rw [steps, same]
      exact Nat.zero_add _
  | some hint =>
    obtain ⟨smaller, -, below⟩ := bounds hint rfl
    obtain ⟨w, found, steps⟩ := search_eq settled' size (q.entries.upFrom hint.entry)
      { passed := hint.size }
    refine ⟨w, true, ?_, ?_⟩
    · simp only [Option.elim_some]
      rw [found, same, find?_upFrom fun e he => ?_]
      · rfl
      · have := below e (List.takeWhile_subset _ he) (FreeList.start_lt_of_mem_below he)
        omega
    · rw [steps, same]
      exact Nat.zero_add _

/-! ## Requests -/

/-- The entry that was found is replaced by its remainder. -/
theorem place_found {F : Fault → Prop} {e : Entry}
    (hF : F .counterOverflow ∨ p.RoomToServe p.large.objects e size (p.searchSteps size) record) (h : p.Sound)
    (settled : p.Settled) (found : (p.entries.find? fun e => size ≤ e.size) = some e) :
    Ends F (p.place size record) fun r => r.2.2 = some e.start ∧ r.1.subspace = p.subspace ∧
      ∃ before after, p.entries = before ++ e :: after ∧
        r.1.entries = before ++ e.remainder size p.config.minEntry ++ after := by
  obtain ⟨w, hinted, first, steps⟩ := firstFit_eq h settled
  obtain ⟨sound, -, -, enough⟩ := (firstFit_ends (F := fun _ => True) (.inl trivial) h).of_ok first
  obtain ⟨before, after, entries, fits, passed⟩ := enough e found
  unfold place
  rw [first, found, ok_bind]
  refine (takeFront_ends (hF.imp_right fun room => ?_) sound entries passed fits).bind ?_
  · exact steps ▸ room.of_eq rfl rfl
  rintro q ⟨-, effect, rest⟩
  exact ⟨rfl, effect.subspace, before, after, entries, rest⟩

theorem place_not_found (h : p.Sound) (settled : p.Settled)
    (none : (p.entries.find? fun e => size ≤ e.size) = none) :
    ∃ w, p.place size record = .ok ((p.findHint size).1, w, .none) := by
  obtain ⟨w, hinted, first, -⟩ := firstFit_eq h settled
  refine ⟨w, ?_⟩
  rw [place, first, none]
  rfl

theorem allocateFrom_found {F : Fault → Prop} {e : Entry}
    (hF : F .counterOverflow ∨ p.RoomToServe p.large.objects e size (p.searchSteps size) record) (h : p.Sound)
    (settled : p.Settled) (found : (p.entries.find? fun e => size ≤ e.size) = some e)
    (reserve : List Refill) :
    Ends F (allocateFrom size record reserve p) fun r => r.2 = some e.start ∧
      r.1.subspace = p.subspace ∧ ∃ before after, p.entries = before ++ e :: after ∧
        r.1.entries = before ++ e.remainder size p.config.minEntry ++ after := by
  cases reserve <;>
  · rw [allocateFrom, tryPlace_eq h]
    refine (place_found hF h settled found).bind ?_
    rintro ⟨q, w, got⟩ ⟨rfl, rest⟩
    exact ⟨rfl, rest⟩

theorem allocateFrom_not_found (h : p.Sound) (settled : p.Settled) (refused : p.Refused)
    (none : (p.entries.find? fun e => size ≤ e.size) = none) :
    ∃ q, allocateFrom size record p.reserve p = .ok (q, .none) ∧ q.entries = p.entries ∧
      q.freeBytes = p.freeBytes ∧ q.entryCount = p.entryCount ∧ q.stats = p.stats ∧ q.large = p.large := by
  obtain ⟨w, placed⟩ : ∃ w, p.place size record = _ := place_not_found h settled none
  unfold Refused at refused
  cases hr : p.reserve with
  | nil =>
    rw [allocateFrom, tryPlace_eq h, placed]
    exact ⟨_, rfl, rfl, rfl, rfl, rfl, rfl⟩
  | cons refill rest =>
    obtain ⟨deliveries, answer⟩ := refused refill (by simp [hr])
    rw [allocateFrom, tryPlace_eq h, placed]
    simp only [ok_bind, takeRefill, deliveries, answer, List.foldlM_nil, pure_bind]
    exact ⟨_, rfl, rfl, rfl, rfl, rfl, rfl⟩

/-- An allocation takes the first entry that is large enough, as a scan from the head finds it, and puts its
remainder in its place, unless one of the counts has no room for it. If there is no such entry, nothing changes. -/
theorem allocate_takes_first_fit (h : p.Reachable) (settled : p.Settled) (refused : p.Refused)
    (client : Client) (request : Request) :
    (∀ e ∈ p.entries.find? fun e => request.bytes ≤ e.size,
      Ends (fun f => f = .counterOverflow ∧ ¬ p.RoomToServe p.large.objects e request.bytes
          (p.searchSteps request.bytes) (p.recordsFor client)) (p.step (.allocate client request)) fun r =>
        r.2 = .object ⟨request.bytes, false, p.isNursery⟩ (some e.start) ∧
        ∃ before after, p.entries = before ++ e :: after ∧
          r.1.entries = before ++ (if p.config.minEntry ≤ e.size - request.bytes then
            [⟨e.start + request.bytes, e.size - request.bytes⟩] else []) ++ after) ∧
    ((p.entries.find? fun e => request.bytes ≤ e.size) = none →
      ∃ q, p.step (.allocate client request) = .ok (q, .object request none) ∧
        q.entries = p.entries ∧ q.freeBytes = p.freeBytes ∧ q.entryCount = p.entryCount ∧
        q.stats = p.stats ∧ q.large = p.large) := by
  have sound := h.sound.nextStep
  have settled : p.nextStep.Settled := settled
  have refused : p.nextStep.Refused := refused
  constructor
  · intro e found
    simp only [step, perform, allocate, bind_assoc]
    refine (allocateFrom_found ?_ sound settled found _).bind ?_
    · by_cases room : p.RoomToServe p.large.objects e request.bytes (p.searchSteps request.bytes)
          (p.recordsFor client)
      · exact .inr (room.of_eq rfl rfl)
      · exact .inl ⟨rfl, room⟩
    rintro ⟨q, got⟩ ⟨rfl, subspace, rest⟩
    have nursery : q.isNursery = p.isNursery := by
      rw [isNursery, subspace]
      rfl
    rw [← nursery]
    exact ⟨rfl, rest⟩
  · intro none
    obtain ⟨q, done, same⟩ : ∃ q, allocateFrom request.bytes (p.nextStep.recordsFor client) _ _ = _ ∧ _ :=
      allocateFrom_not_found sound settled refused none
    refine ⟨q, ?_, same⟩
    rw [step, perform, allocate, done]
    rfl

/-- With entries of 512 and 2048 bytes, 600 bytes come from the second one and 4096 from nowhere. -/
theorem allocate_takes_second_entry : ∃ p : Pool, p.entries = [⟨0, 512⟩, ⟨1024, 2048⟩] ∧
    (∃ q, p.step (.allocate .mutator { bytes := 600 }) = .ok (q, .object ⟨600, false, false⟩ (some 1024)) ∧
      ∃ before after, p.entries = before ++ ⟨1024, 2048⟩ :: after ∧
        q.entries = before ++ [⟨1624, 1448⟩] ++ after) ∧
    ∃ q, p.step (.allocate .collector { bytes := 4096 }) = .ok (q, .object { bytes := 4096 } none) ∧
      q.entries = p.entries ∧ q.freeBytes = p.freeBytes ∧ q.entryCount = p.entryCount ∧
      q.stats = p.stats ∧ q.large = p.large := by
  obtain ⟨s, done⟩ : ∃ s, s ∈
      ((fresh {}).run [.expand 512 0 512 false, .expand 2048 1024 3072 false]).toOption :=
    Option.isSome_iff_exists.1 (by decide +kernel)
  obtain ⟨entries, settled, refused, nursery, config, room⟩ : s.1.entries = [⟨0, 512⟩, ⟨1024, 2048⟩] ∧
      s.1.Settled ∧ s.1.Refused ∧ s.1.isNursery = false ∧ s.1.config = {} ∧
      s.1.RoomToServe s.1.large.objects ⟨1024, 2048⟩ 600 (s.1.searchSteps 600) true := by
    revert s
    decide +kernel
  have made : create {} = .ok (fresh {}) := by decide +kernel
  have reachable := (Reachable.create made).run (by decide +kernel) (mem_toOption.1 done)
  have small := (allocate_takes_first_fit reachable settled refused .mutator { bytes := 600 }).1
    ⟨1024, 2048⟩ (by rw [entries]; rfl)
  rw [nursery, config] at small
  obtain ⟨⟨q, _⟩, served, rfl, rest⟩ := small.exists_ok fun f _ full => full.2 room
  exact ⟨s.1, entries, ⟨q, served, rest⟩,
    (allocate_takes_first_fit reachable settled refused .collector { bytes := 4096 }).2
      (by rw [entries]; rfl)⟩

/-- Where the bytes that were ever allocated no longer fit a word, an entry that is large enough is of no
use. -/
theorem allocate_overflows_count : ∃ p : Pool, p.Reachable ∧ p.Settled ∧ p.Refused ∧
    (p.entries.find? fun e => wordLimit / 2 ≤ e.size) = some ⟨0, wordLimit / 2⟩ ∧
    p.step (.allocate .mutator { bytes := wordLimit / 2 }) = .error .counterOverflow := by
  obtain ⟨s, done⟩ : ∃ s, s ∈ ((fresh {}).run [.expand (wordLimit / 2) 0 (wordLimit / 2) true,
      .allocate .mutator { bytes := wordLimit / 2 }, .recycle 0 (wordLimit / 2)]).toOption :=
    Option.isSome_iff_exists.1 (by decide +kernel)
  have made : create {} = .ok (fresh {}) := by decide +kernel
  refine ⟨s.1, (Reachable.create made).run (by decide +kernel) (mem_toOption.1 done), ?_⟩
  revert s
  decide +kernel

end FreeStore.Pool
