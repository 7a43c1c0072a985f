import FreeStore.Proofs.History
import FreeStore.Proofs.Runs
import FreeStore.Proofs.Waiting
/-!
The estimate of what realignment gives up is exact.

When realignment is asked for, the estimate is the loss of all entries. From then on it is paid off: what
realignment loses is taken off the estimate and becomes dark matter, and as long as there is something left
of it, it is the loss of the entries from the cursor on (`Exact`). Allocations keep this up: realignment
moves the cursor past what it paid for, and blocks are taken off entries below the cursor only.
-/
namespace FreeStore.Pool

variable {p q : Pool} {e : Entry} {l k before after pieces : FreeList} {total : Nat} {block : Range}
  {moves : List (Move × Pool)}

/-- The entries at or above the cursor. -/
def ahead (p : Pool) : FreeList :=
  p.cursor.first?.elim [] fun first => p.entries.filter fun e => first ≤ e.start

/-- No entry that starts below the cursor reaches across it. -/
def Clear (p : Pool) : Prop :=
  ∀ first ∈ p.cursor.first?, ∀ e ∈ p.entries, e.start < first → e.top ≤ first

/-- What was lost and what is left of the estimate make up `total`. While some is left, it is the loss of
the entries ahead, and none of the others reaches across the cursor. -/
structure Exact (total : Nat) (p : Pool) : Prop where
  sum : p.stats.darkMatterBytes + p.pendingLoss = total
  estimate : 0 < p.pendingLoss → p.pendingLoss = p.lossOf p.ahead
  clear : 0 < p.pendingLoss → p.Clear

/-- The estimate only gets smaller, and stays exact. -/
def PaysOff (p q : Pool) : Prop :=
  q.pendingLoss ≤ p.pendingLoss ∧ ∀ total, Exact total p → Exact total q

theorem lossOf_append : p.lossOf (l ++ k) = p.lossOf l + p.lossOf k := by
  induction l with
  | nil => exact (Nat.zero_add _).symm
  | cons e l ih =>
    show p.lossAt e + p.lossOf (l ++ k) = p.lossAt e + p.lossOf l + p.lossOf k
    rw [ih, Nat.add_assoc]

theorem lossOf_congr (h : q.config = p.config) : q.lossOf = p.lossOf := by
  unfold lossOf lossAt
  rw [h]

/-- What a cursor at an entry cuts off. -/
theorem ahead_eq {first : Nat} (cursor : p.cursor.first? = some first) (hp : p.entries = l ++ k)
    (low : ∀ e ∈ l, e.start < first) (high : ∀ e ∈ k, first ≤ e.start) : p.ahead = k := by
  have none : (l.filter fun e => first ≤ e.start) = [] := by
    simpa using low
  have all : (k.filter fun e => first ≤ e.start) = k := by
    simpa using high
  rw [ahead, cursor, Option.elim_some, hp, List.filter_append, none, all, List.nil_append]

/-! ## Steps -/

theorem Steady.ahead_eq (same : p.Steady q) (entries : q.entries = p.entries) : q.ahead = p.ahead := by
  rw [ahead, ahead, same.cursor, entries]

theorem Clear.idle (h : p.Clear) (same : p.Steady q) (entries : q.entries = p.entries) : q.Clear := by
  unfold Clear
  rw [same.cursor, entries]
  exact h

theorem Exact.idle (h : Exact total p) (same : p.Steady q) (entries : q.entries = p.entries) :
    Exact total q := by
  refine ⟨?_, ?_, ?_⟩
  · rw [same.dark, same.estimate]
    exact h.sum
  · rw [same.estimate, same.ahead_eq entries, lossOf_congr same.config]
    exact h.estimate
  · rw [same.estimate]
    exact fun some => (h.clear some).idle same entries

/-- The entries in front of `e` lie below it, and those from the cursor on are ahead. -/
theorem ahead_of_reached {first : Nat} (h : p.Sound) (hp : p.entries = before ++ e :: after)
    (cursor : p.cursor.first? = some first) (reached : first ≤ e.start) :
    p.ahead = before.upFrom first ++ [e] ++ after := by
  have tracked := hp ▸ h.tracked
  obtain ⟨tb, -, -⟩ := FreeList.tracked_append.1 tracked
  apply ahead_eq (l := before.below first) cursor
  · rw [hp, List.append_assoc, ← List.append_assoc, FreeList.below_append_upFrom]
    rfl
  · exact fun d => FreeList.start_lt_of_mem_below
  · intro d hd
    simp only [List.append_assoc, List.mem_append, List.mem_singleton] at hd
    rcases hd with front | rfl | behind
    · exact tb.le_start_of_mem_upFrom h.minEntry_pos front
    · exact reached
    · exact Nat.le_trans reached (Nat.le_of_lt (h.start_lt_of_mem hp behind))

/-- Where realignment stops, only what is behind it is ahead. -/
theorem Advances.ahead_eq (h : p.Advances before e after q) (hq : q.Sound) : q.ahead = after := by
  obtain ⟨front, entries, cut⟩ := h.cut hq
  obtain ⟨_, -, -, pays, -⟩ := h
  cases found : q.cursor.first? with
  | none =>
    rw [pays.cursor] at found
    cases after with
    | nil => rw [ahead, pays.cursor]; rfl
    | cons d rest => cases found
  | some start =>
    obtain ⟨lower, upper⟩ := cut start found
    exact Pool.ahead_eq found entries (fun f hf => (lower f hf).1) upper

theorem Advances.clear (h : p.Advances before e after q) (hq : q.Sound) : q.Clear := by
  obtain ⟨front, entries, cut⟩ := h.cut hq
  intro start found f hf lower
  rcases List.mem_append.1 (entries ▸ hf) with inFront | behind
  · exact ((cut start found).1 f inFront).2
  · have := (cut start found).2 f behind
    omega

/-- Realignment pays for what it passes. -/
theorem Exact.aligned (h : Exact total p) (hs : p.Sound) (hq : q.Sound) (config : q.config = p.config)
    (hp : p.entries = before ++ e :: after) (waits : p.awaits e.start = true)
    (advances : p.Advances before e after q) : Exact total q := by
  have ahead := advances.ahead_eq hq
  have clear := advances.clear hq
  obtain ⟨some, -⟩ := awaits_iff.1 waits
  obtain ⟨first, cursor, reached, pays, -⟩ := advances
  have estimate := h.estimate some
  rw [ahead_of_reached hs hp cursor reached, lossOf_append] at estimate
  have sum := h.sum
  refine ⟨?_, fun _ => ?_, fun _ => clear⟩
  · rw [pays.dark, pays.estimate]
    omega
  · rw [pays.estimate, ahead, lossOf_congr config]
    omega

/-- While some of the estimate is left, what does not wait lies below the cursor. -/
theorem below_of_settled (some : 0 < p.pendingLoss) (settled : p.awaits e.start = false) :
    ∀ first ∈ p.cursor.first?, e.start < first := by
  intro first found
  by_contra reached
  rw [awaits_iff.2 ⟨some, first, found, by omega⟩] at settled
  cases settled

/-- Cutting an entry below the cursor changes nothing ahead. -/
theorem Clear.cut (h : p.Clear) (hq : q.Sound) (same : p.Steady q)
    (lower : ∀ first ∈ p.cursor.first?, e.start < first) (hp : p.entries = before ++ e :: after)
    (hw : FreeList.Within e pieces) (entries : q.entries = before ++ pieces ++ after) :
    q.Clear ∧ q.ahead = p.ahead := by
  have below : ∀ first ∈ p.cursor.first?, ∀ f ∈ e :: pieces, f.start < first ∧ f.top ≤ first := by
    intro first found f hf
    have top := h first found e (by simp [hp]) (lower first found)
    rcases List.mem_cons.1 hf with rfl | hf
    · exact ⟨lower first found, top⟩
    · have inner := hw f hf
      have large := hq.size_pos (e := f) (by simp [entries, hf])
      have filled : f.start + f.size = f.top := rfl
      omega
  constructor
  · intro first found f hf lower
    rw [same.cursor] at found
    have old := h first found f
    simp only [entries, hp, List.mem_append, List.mem_cons] at hf old
    rcases hf with (hf | hf) | hf
    · exact old (.inl hf) lower
    · exact (below first found f (List.mem_cons_of_mem _ hf)).2
    · exact old (.inr (.inr hf)) lower
  · rw [ahead, ahead, same.cursor]
    cases found : p.cursor.first? with
    | none => rfl
    | some first =>
      have none : ∀ l : FreeList, (∀ f ∈ l, f ∈ e :: pieces) →
          (l.filter fun f => first ≤ f.start) = [] := by
        intro l inner
        rw [List.filter_eq_nil_iff]
        intro f hf
        have := (below first found f (inner f hf)).1
        simpa using this
      rw [Option.elim_some, Option.elim_some, entries, hp, List.append_cons, List.filter_append,
        List.filter_append, List.filter_append, List.filter_append, none pieces (by simp +contextual),
        none [e] (by simp)]

/-- What is cut off an entry that does not wait lies below the cursor. -/
theorem Exact.cut (h : Exact total p) (hq : q.Sound) (same : p.Steady q)
    (settled : p.awaits e.start = false) (hp : p.entries = before ++ e :: after)
    (hw : FreeList.Within e pieces) (entries : q.entries = before ++ pieces ++ after) : Exact total q := by
  have cut := fun some => (h.clear some).cut hq same (below_of_settled some settled) hp hw entries
  refine ⟨?_, fun some => ?_, fun some => ?_⟩
  · rw [same.dark, same.estimate]
    exact h.sum
  · rw [same.estimate] at some ⊢
    rw [(cut some).2, lossOf_congr same.config]
    exact h.estimate some
  · rw [same.estimate] at some
    exact (cut some).1

theorem Exact.dropped (h : Exact total p) (hq : q.Sound) (same : p.Steady q)
    (settled : p.awaits e.start = false) (hp : p.entries = e :: after) (entries : q.entries = after) :
    Exact total q := by
  have front : p.entries = [] ++ e :: after := hp
  have rest : q.entries = [] ++ [] ++ after := entries
  exact h.cut hq same settled front FreeList.within_nil rest

theorem keeps_paysOff : Keeps PaysOff where
  trans h g := ⟨Nat.le_trans g.1 h.1, fun total exact => g.2 total (h.2 total exact)⟩
  idle same entries := ⟨Nat.le_of_eq same.estimate, fun _ exact => exact.idle same entries⟩
  aligned hs hq config hp waits advances := by
    refine ⟨?_, fun _ exact => exact.aligned hs hq config hp waits advances⟩
    obtain ⟨first, -, -, pays, -⟩ := advances
    rw [pays.estimate]
    exact Nat.sub_le _ _
  dropped _ hq same settled hp entries :=
    ⟨Nat.le_of_eq same.estimate, fun _ exact => exact.dropped hq same settled hp entries⟩

theorem Hands.paysOff (h : Hands PaysOff p block q) : PaysOff p q := by
  obtain ⟨sound, mid, before, e, after, ⟨less, kept⟩, -, same, hp, settled, low, high, entries⟩ := h
  have fits : block.high - block.low ≤ e.size := by
    simp only [Entry.top] at high
    omega
  refine ⟨same.estimate ▸ less, fun total exact => ?_⟩
  exact (kept total exact).cut sound same settled hp (Entry.remainder_within fits) entries

/-! ## Runs -/

/-- The delivery adds no free memory. -/
def AddsNothing (p : Pool) (d : Delivery) : Prop :=
  ∀ q ∈ (p.deliver d).toOption, q.freeBytes = p.freeBytes

instance : ∀ p d, Decidable (AddsNothing p d) := fun p d =>
  inferInstanceAs (Decidable (∀ q ∈ (p.deliver d).toOption, q.freeBytes = p.freeBytes))

/-- Where no entry waits, nothing is left of the estimate. -/
theorem Exact.paid (h : Exact total p) (none : p.WaitsIn []) : p.pendingLoss = 0 := by
  by_contra some
  have some := Nat.pos_of_ne_zero some
  have ahead : p.ahead = [] := by
    refine List.eq_nil_iff_forall_not_mem.2 fun e he => ?_
    unfold Pool.ahead at he
    cases found : p.cursor.first? with
    | none => simp [found] at he
    | some first =>
      rw [found, Option.elim_some] at he
      obtain ⟨onList, reached⟩ := List.mem_filter.1 he
      have waits := awaits_iff.2 ⟨some, first, found, of_decide_eq_true reached⟩
      cases none e onList waits
  rw [h.estimate some, ahead] at some
  cases some

/-- What a move does to an exact estimate, if it adds no free memory. -/
theorem Leads.paysOff {m : Move} (l : Leads m p q) (h : p.Sound)
    (nothing : ∀ d, m = .insert d → AddsNothing p d) :
    q.Sound ∧ PaysOff p q ∧ (m = .miss true → q.WaitsIn []) := by
  cases m with
  | hand block =>
    have hands := l.hands keeps_paysOff h
    exact ⟨hands.sound, hands.paysOff, fun m => by cases m⟩
  | miss object =>
    obtain ⟨sound, paysOff, none⟩ := l.misses keeps_paysOff h
    refine ⟨sound, paysOff, ?_⟩
    rintro ⟨⟩
    exact none rfl
  | insert d =>
    have delivered := l.delivered h
    have same : q.freeBytes = p.freeBytes := by
      cases l with
      | insert fits done => exact nothing d rfl q (mem_toOption.2 done)
    have unchanged := delivered.unchanged same
    refine ⟨delivered.sound, ?_, fun m => by cases m⟩
    rw [unchanged]
    exact keeps_paysOff.idle ⟨rfl, rfl, rfl, rfl⟩ rfl
  | owner =>
    obtain ⟨sound, same, entries⟩ := l.owned h
    exact ⟨sound, keeps_paysOff.idle same entries, fun m => by cases m⟩

/-- Along a history that adds no free memory the estimate is paid off, all of it once a search for an object
missed. -/
theorem History.paysOff (h : History AddsNothing p moves q) (sound : p.Sound) :
    q.Sound ∧ PaysOff p q ∧ ∀ r, (.miss true, r) ∈ moves → ∀ total, Exact total p → q.pendingLoss = 0 := by
  induction h with
  | nil => exact ⟨sound, keeps_paysOff.refl _, by simp⟩
  | @cons p mid q m moves first allowed _ ih =>
    obtain ⟨soundMid, paysOff, none⟩ := first.paysOff sound allowed
    obtain ⟨soundQ, paysOff', later⟩ := ih soundMid
    refine ⟨soundQ, keeps_paysOff.trans paysOff paysOff', fun r found total exact => ?_⟩
    rcases List.mem_cons.1 found with same | found
    · obtain ⟨rfl, rfl⟩ := Prod.mk.inj same
      have paid := (paysOff.2 total exact).paid (none rfl)
      exact Nat.le_zero.1 (paid ▸ paysOff'.1)
    · exact later r found total (paysOff.2 total exact)

/-- A request for realignment estimates the loss of all entries, and puts the cursor on the first one. -/
theorem requestCardAlignment_eq (h : p.Sound) : ∃ cursor,
    p.requestCardAlignment =
        .ok ({ p with pendingLoss := p.lossOf p.entries, cursor }, p.lossOf p.entries) ∧
      (0 < p.lossOf p.entries → cursor.first? = p.entries.firstStart) := by
  simp only [requestCardAlignment, allEntries, h.reachEnd_eq, ok_bind, pure_bind,
    FreeList.checkTops_eq_ok h.tracked]
  refine ⟨_, rfl, fun some => ?_⟩
  cases first : p.entries.firstStart with
  | none => rfl
  | some head =>
    simp only [some, if_true]
    rfl

theorem Sound.firstStart_le {first : Nat} (h : p.Sound) (found : p.entries.firstStart = some first)
    (he : e ∈ p.entries) : first ≤ e.start := by
  cases hp : p.entries with
  | nil => simp [hp] at he
  | cons d rest =>
    rw [hp] at found he
    obtain rfl := Option.some_inj.1 found
    rcases List.mem_cons.1 he with rfl | he
    · exact Nat.le_refl _
    · exact Nat.le_of_lt ((hp ▸ h.tracked).start_lt h.minEntry_pos he)

/-- Right after the request all entries are ahead. -/
theorem ahead_requested {cursor : CardCursor} (h : p.Sound)
    (starts : 0 < p.lossOf p.entries → cursor.first? = p.entries.firstStart)
    (some : 0 < p.lossOf p.entries) :
    ahead { p with pendingLoss := p.lossOf p.entries, cursor } = p.entries := by
  cases first : p.entries.firstStart with
  | none =>
    have empty : p.entries = [] := by simpa [FreeList.firstStart] using first
    simp [empty, lossOf] at some
  | some head =>
    exact ahead_eq ((starts some).trans first) (List.nil_append _).symm (by simp)
      fun e => h.firstStart_le first

/-- Right after the request the estimate is exact. -/
theorem exact_requested {cursor : CardCursor} (h : p.Sound)
    (starts : 0 < p.lossOf p.entries → cursor.first? = p.entries.firstStart) :
    Exact (p.stats.darkMatterBytes + p.lossOf p.entries)
      { p with pendingLoss := p.lossOf p.entries, cursor } := by
  refine ⟨rfl, fun some => ?_, fun some first found e he lower => ?_⟩
  · rw [ahead_requested h starts some]
    rfl
  · have := h.firstStart_le (starts some ▸ found) he
    omega

/-- Where blocks are carved on a sweep grid that the entries fit, or on none, a run of insertions and
allocations ends early only if a running count overflows. -/
theorem run_fault_of_supplies {os : List Operation} {f : Fault} (h : p.Sound)
    (supplies : ∀ o ∈ os, o.supplies = true) (accepts : Throughout Accepts p os)
    (grid : Throughout AcceptsOnGrid p os) (ran : p.run os = .error f) : f = .counterOverflow := by
  have valid : Throughout AcceptsAll p os := (accepts.and grid).imp fun _ _ _ h => h
  have range : Throughout StaysInRange p os := accepts.imp fun p o ho _ => by
    cases o <;> first | trivial | cases supplies _ ho
  exact (run_ends (F := fun f => f = .counterOverflow) rfl h valid (.inr range)).of_error ran

/-- Does the operation only allocate? -/
def Operation.allocates : Operation → Bool
  | .allocate _ _ | .allocateTlh _ _ _ => true
  | _ => false

/-- After realignment was asked for, and while no free memory is added, what became dark matter and what is
left of the estimate are together what was estimated; as long as some is left it is the loss of the entries
at and above the cursor; and once an object could not be allocated nothing is left. Where blocks are carved
on a sweep grid that the entries fit, or on none, allocating ends early only if a running count overflows. -/
theorem alignment_estimate_exact (h : p.Reachable) :
    ∃ q loss, p.step .requestCardAlignment = .ok (q, .loss loss) ∧
      ∀ os, (∀ o ∈ os, o.allocates = true) →
        Throughout (fun p o => p.Accepts o ∧ p.Inserts AddsNothing o) q os →
        Ends (fun f => Throughout AcceptsOnGrid q os → f = .counterOverflow) (q.run os) fun r =>
          r.1.stats.darkMatterBytes + r.1.pendingLoss = p.stats.darkMatterBytes + loss ∧
          (0 < r.1.pendingLoss → ∃ first ∈ r.1.cursor.first?,
            r.1.pendingLoss = r.1.lossOf (r.1.entries.filter fun e => first ≤ e.start)) ∧
          ((∃ request, .object request none ∈ r.2) → r.1.pendingLoss = 0 ∧
            r.1.stats.darkMatterBytes = p.stats.darkMatterBytes + loss) := by
  have sound := h.sound.nextStep
  obtain ⟨cursor, done, starts⟩ := requestCardAlignment_eq sound
  have exact := exact_requested sound starts
  have soundQ := ((requestCardAlignment_ends (F := fun _ => True) sound).of_ok done).1
  refine ⟨_, p.nextStep.lossOf p.nextStep.entries, by rw [step, perform, done]; rfl, ?_⟩
  generalize hq : ({ p.nextStep with
    pendingLoss := p.nextStep.lossOf p.nextStep.entries, cursor } : Pool) = q at *
  intro os allocates accepts
  have supplies : ∀ o ∈ os, o.supplies = true := fun o ho => by
    cases o <;> first | rfl | cases allocates _ ho
  cases ran : q.run os with
  | error f =>
    intro grid
    exact run_fault_of_supplies soundQ supplies (accepts.imp fun _ _ _ h => h.1) grid ran
  | ok r =>
    obtain ⟨moves, history, -, missed⟩ := run_history supplies accepts ran
    obtain ⟨-, paysOff, paid⟩ := history.paysOff soundQ
    have exact' := paysOff.2 _ exact
    have sum : r.1.stats.darkMatterBytes + r.1.pendingLoss = _ := exact'.sum
    refine ⟨sum, ?_, ?_⟩
    · intro some
      have estimate := exact'.estimate some
      unfold ahead at estimate
      cases found : r.1.cursor.first? with
      | none =>
        rw [estimate, found] at some
        cases some
      | some first =>
        rw [found, Option.elim_some] at estimate
        exact ⟨first, rfl, estimate⟩
    · rintro ⟨request, failed⟩
      obtain ⟨s, hs⟩ := missed request failed
      have none := paid s hs _ exact
      rw [none, Nat.add_zero] at sum
      exact ⟨none, sum⟩

/-- Of three entries the first is realigned by the first allocation, which leaves 928 bytes of 1392 to give
up; a request that is too large for all of them realigns the others. -/
theorem alignment_estimate_of_three : ∃ p q : Pool,
    p.entries = [⟨1000, 2000⟩, ⟨5000, 1000⟩, ⟨10000, 3000⟩] ∧
    p.step .requestCardAlignment = .ok (q, .loss 1392) ∧
    (∃ r, q.run [.allocate .mutator { bytes := 500 }, .allocateTlh .collector {} 600] = .ok r ∧
      r.1.pendingLoss = 928 ∧ r.1.stats.darkMatterBytes + 928 = p.stats.darkMatterBytes + 1392 ∧
      ∃ first ∈ r.1.cursor.first?, 928 = r.1.lossOf (r.1.entries.filter fun e => first ≤ e.start)) ∧
    ∃ r, q.run [.allocate .mutator { bytes := 500 }, .allocate .mutator { bytes := 100000 }] = .ok r ∧
      r.1.pendingLoss = 0 ∧ r.1.stats.darkMatterBytes = p.stats.darkMatterBytes + 1392 := by
  obtain ⟨s, done⟩ : ∃ s, s ∈ ((fresh {}).run [.expand 2000 1000 3000 false,
      .expand 1000 5000 6000 false, .expand 3000 10000 13000 false]).toOption :=
    Option.isSome_iff_exists.1 (by decide +kernel)
  have made : create {} = .ok (fresh {}) := by decide +kernel
  have reachable := (Reachable.create made).run (by decide +kernel) (mem_toOption.1 done)
  obtain ⟨q, loss, asked, exact⟩ := alignment_estimate_exact reachable
  let allocates : List Operation := [.allocate .mutator { bytes := 500 }, .allocateTlh .collector {} 600]
  let fails : List Operation :=
    [.allocate .mutator { bytes := 500 }, .allocate .mutator { bytes := 100000 }]
  have facts : ∀ s ∈ ((fresh {}).run [.expand 2000 1000 3000 false, .expand 1000 5000 6000 false,
      .expand 3000 10000 13000 false]).toOption,
      s.1.entries = [⟨1000, 2000⟩, ⟨5000, 1000⟩, ⟨10000, 3000⟩] ∧
      ∀ t ∈ (s.1.step .requestCardAlignment).toOption, t.2 = .loss 1392 ∧
        (Throughout (fun p o => p.Accepts o ∧ p.Inserts AddsNothing o) t.1 allocates ∧
          Throughout (fun p o => p.Accepts o ∧ p.Inserts AddsNothing o) t.1 fails) ∧
        (t.1.run allocates).toOption.map (fun r => r.1.pendingLoss) = some 928 ∧
        (t.1.run fails).toOption.map (fun r => r.2) =
          some [.object { bytes := 500 } (some 1024), .object { bytes := 100000 } none] := by
    decide +kernel
  obtain ⟨entries, facts⟩ := facts s done
  obtain ⟨rest, ⟨accepted, accepted'⟩, first, second⟩ := facts _ (mem_toOption.2 asked)
  obtain rfl : loss = 1392 := by simpa using rest
  obtain ⟨r, ran, left⟩ := Option.map_eq_some_iff.1 first
  obtain ⟨r', ran', answers⟩ := Option.map_eq_some_iff.1 second
  have some := (exact allocates (by decide) accepted).of_ok (mem_toOption.1 ran)
  have none := (exact fails (by decide) accepted').of_ok (mem_toOption.1 ran')
  rw [left] at some
  exact ⟨s.1, q, entries, asked, ⟨r, mem_toOption.1 ran, left, some.1, some.2.1 (by decide)⟩,
    r', mem_toOption.1 ran', none.2.2 ⟨{ bytes := 100000 }, by simp [answers]⟩⟩

end FreeStore.Pool
