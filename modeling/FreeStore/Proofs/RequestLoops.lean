import FreeStore.Proofs.LinkedServing
import FreeStore.Proofs.Refill
/-!
Requests end.

A request searches, asks the owner of the heap when it finds nothing, and starts over when the owner says so. Here
the owner is any program that may change the pool while it is asked (`Owner`). A turn for an object is a whole
search. A turn for a block looks at the head of the list only: it takes a block off it, or drops it and leaves the
next turn to the entry behind, so the turns up to an answer or a question are one walk down the list
(`requestBlock_eq`). In between questions a request therefore ends, and with an owner that says yes no more than
finitely often it ends altogether (`requests_end`). With the owner that has its answers in reserve it is the request
of the pool (`requestObject_of_reserve`, `requestBlock_of_reserve`).
-/
namespace FreeStore

/-- The owner of the heap, in some state, asked for a number of bytes: what becomes of its state and of the pool, and
whether the request is to be repeated. -/
def Owner (σ : Type) : Type := σ → Pool → Nat → Outcome (σ × Pool × Bool)

namespace Owner

variable {σ : Type}

/-- The owner does to a pool only what can be done to it. -/
def Valid (owner : Owner σ) : Prop := ∀ {s p size s' q answer},
  p.Reachable → owner s p size = .ok (s', q, answer) → q.Reachable

def Raises (owner : Owner σ) (f : Fault) : Prop := ∃ s p size, p.Reachable ∧ owner s p size = .error f

/-- The faults of a request: a running count that leaves the words, and what the owner raises. -/
def Faults (owner : Owner σ) (f : Fault) : Prop := f = .counterOverflow ∨ owner.Raises f

/-- Where the owner says yes, it leaves a pool that is ready. -/
def Readies (owner : Owner σ) (ready : Pool → Prop) : Prop := ∀ {s p size s' q},
  p.Reachable → owner s p size = .ok (s', q, true) → ready q

/-- In the state `s` the owner may say yes and be in `s'` then. -/
def Grants (owner : Owner σ) (s' s : σ) : Prop := ∃ p size q, p.Reachable ∧ owner s p size = .ok (s', q, true)

/-- The owner is asked once the first pool was searched in vain. It says yes, and leaves the second. -/
def Renews (owner : Owner σ) (ask : Pool → Option Pool) (asked : Pool → Nat) (after before : σ × Pool) : Prop :=
  ∃ p ∈ ask before.2, owner before.1 p (asked p) = .ok (after.1, after.2, true)

/-- An owner that says yes finitely often, whatever it is asked, says yes finitely often in the course of a request. -/
theorem acc_renews {owner : Owner σ} {ask : Pool → Option Pool} {asked : Pool → Nat} {s : σ} {p : Pool}
    (valid : owner.Valid) (reaches : ∀ {p q : Pool}, p.Reachable → q ∈ ask p → q.Reachable)
    (finitely : Acc owner.Grants s) (h : p.Reachable) : Acc (owner.Renews ask asked) (s, p) := by
  induction finitely generalizing p with
  | intro s _ ih =>
    refine .intro _ ?_
    rintro ⟨s', r⟩ ⟨q, asks, yes⟩
    have reachable := reaches h asks
    exact ih s' ⟨q, _, r, reachable, yes⟩ (valid reachable yes)

end Owner

namespace Pool

variable {σ α : Type} {owner : Owner σ} {s : σ} {p q : Pool} {size maximum : Nat} {record : Bool} {e : Entry}
  {l rest : FreeList} {F : Fault → Prop}

/-! ## Turns -/

/-- Ask the owner, and start over or refuse as it says. -/
def askOwner (owner : Owner σ) (s : σ) (p : Pool) (size largest : Nat) :
    Outcome (Turn (σ × Pool) (σ × Pool × Option α)) := do
  let (s, p, answer) ← owner s (p.report (.replenish size)) size
  return if answer then .again (s, p) else .stop (s, { p with largest }, none)

/-- Search for room for an object. -/
def objectTurn (owner : Owner σ) (size : Nat) (record : Bool) :
    σ × Pool → Running (Turn (σ × Pool) (σ × Pool × Option Nat))
  | (s, p) => do
    match ← p.placeLinked size record with
    | (p, _, some a) => return .stop (s, p, some a)
    | (p, w, none) => askOwner owner s p size w.largest

/-- Look at the head of the list for a block. -/
def blockTurn (owner : Owner σ) (maximum : Nat) (record : Bool) :
    σ × Pool → Running (Turn (σ × Pool) (σ × Pool × Option Range))
  | (s, p) =>
    match p.first? with
    | none => askOwner owner s p p.config.minEntry 0
    | some a => do
      match ← p.reachLinked a with
      | (p, none) => return .again (s, p)
      | (p, some a) => do
        let h ← p.header a
        let p ← p.uncountFree h.size
        match ← p.blockSize h.entry maximum with
        | none => return .again (s, ← p.dropHead h)
        | some taken => return .stop (s, ← p.carveHead h taken record, some ⟨a, a + taken⟩)

def requestObject (owner : Owner σ) (size : Nat) (record : Bool) (s : σ) (p : Pool) :
    Running (σ × Pool × Option Nat) := loop (objectTurn owner size record) (s, p)

def requestBlock (owner : Owner σ) (maximum : Nat) (record : Bool) (s : σ) (p : Pool) :
    Running (σ × Pool × Option Range) := loop (blockTurn owner maximum record) (s, p)

/-! ## Rounds -/

/-- How a request goes on from an attempt: it hands over what was found, or else asks the owner. -/
def goOn (owner : Owner σ) (request : σ → Pool → Running (σ × Pool × Option α)) (asked : Pool → Nat) (s : σ) :
    Pool × Nat × Option α → Running (σ × Pool × Option α)
  | (p, _, some a) => return (s, p, some a)
  | (p, largest, none) => do
    match ← askOwner owner s p (asked p) largest with
    | .again s => request s.1 s.2
    | .stop r => return r

def attemptObject (size : Nat) (record : Bool) (p : Pool) : Outcome (Pool × Nat × Option Nat) := do
  let (p, w, found) ← p.tryPlace size record
  return (p, w.largest, found)

def attemptBlock (maximum : Nat) (record : Bool) (p : Pool) : Outcome (Pool × Nat × Option Range) := do
  let (p, found) ← p.tryCarve maximum record
  return (p, 0, found)

theorem requestObject_eq (h : p.Sound) : requestObject owner size record s p =
    liftM (attemptObject size record p) >>=
      goOn owner (requestObject owner size record) (fun _ => size) s := by
  rw [requestObject, loop_eq, objectTurn, placeLinked_eq h, attemptObject, tryPlace_eq h, Running.liftM_bind,
    bind_assoc, bind_assoc]
  refine Running.bind_congr_ok ?_
  rintro ⟨q, w, found⟩ -
  refine Eq.trans ?_ (pure_bind _ _).symm
  cases found with
  | none =>
    refine Running.bind_congr_ok fun turn _ => ?_
    cases turn <;> rfl
  | some a => exact pure_bind _ _

/-- The head of a sound list is off the histogram once it is taken off. -/
theorem exists_uncounted (h : p.Sound) (hp : p.entries = e :: rest) : ∃ g : Histogram, g.Counts rest ∧
    p.uncountFree e.size = .ok { p with large := { p.large with freeEntries := g } } := by
  obtain ⟨pos, word⟩ := h.size_bounds (e := e) (by simp [hp])
  have ends : Ends (fun _ => False) (p.uncountFree e.size >>= pure) fun q =>
      ∃ g : Histogram, g.Counts rest ∧ q = { p with large := { p.large with freeEntries := g } } :=
    uncountFree_bind (hp ▸ h.census) pos word fun g hg => ⟨g, hg, rfl⟩
  rw [bind_pure] at ends
  obtain ⟨q, done, g, hg, rfl⟩ := ends.exists_ok fun _ _ => id
  exact ⟨g, hg, done⟩

theorem blockTurn_empty (h : p.Sound) (hp : p.entries = []) :
    blockTurn owner maximum record (s, p) = liftM (askOwner owner s p p.config.minEntry 0) := by
  have first : p.first? = none := h.whole.first?_eq.trans (congrArg FreeList.firstStart hp)
  rw [blockTurn, first]

theorem blockSize_le {taken : Nat} (grid : ∀ g ∈ p.sweepGrid, 0 < g.chunk) (top : e.top < wordLimit)
    (done : p.blockSize e maximum = .ok (some taken)) : taken ≤ e.size := by
  have ends : Ends (fun _ => True) (p.blockSize e maximum) _ := blockSize_ends grid top (.inl fun _ _ => trivial)
  exact ends.of_ok done taken rfl

theorem blockTurn_cons (h : p.Sound) (hp : p.entries = e :: rest) :
    blockTurn owner maximum record (s, p) = liftM (p.reach e) >>= fun
      | (q, none) => pure (.again (s, q))
      | (q, some f) => liftM do
        let q ← q.uncountFree f.size
        match ← q.blockSize f maximum with
        | none => return .again (s, ← q.dropFirst f rest)
        | some taken => return .stop (s, ← q.carveFirst f rest taken record, some ⟨f.start, f.start + taken⟩) := by
  have first : p.first? = some e.start := h.whole.first?_eq.trans (congrArg FreeList.firstStart hp)
  have front : p.entries = [] ++ e :: rest := hp
  have ends : Ends (fun _ => True) (p.reach e) _ := reach_ends (.inl trivial) h front
  rw [blockTurn, first]
  dsimp only
  rw [reachLinked_eq h (e := e) (by simp [hp]), Running.liftM_map_bind]
  refine Running.bind_congr_ok ?_
  rintro ⟨q, found⟩ reached
  obtain ⟨sound, -, -, -, before, shrinks, entries⟩ := ends.of_ok reached
  obtain rfl := shrinks.eq_nil
  cases found with
  | none => rfl
  | some f =>
    have entries : q.entries = f :: rest := entries
    have front : q.entries = [] ++ f :: rest := entries
    obtain ⟨g, -, done⟩ := exists_uncounted sound entries
    have spelled : Spelled { q with large := { q.large with freeEntries := g } } :=
      ⟨⟨sound.gap, sound.strays, sound.whole.order⟩, sound.minEntry_pos, sound.tracked⟩
    show liftM (q.header f.start) >>= _ = _
    rw [sound.whole.header_of_entry front, Running.liftM_ok, pure_bind]
    dsimp only
    rw [done, Running.liftM_ok, pure_bind, ok_bind]
    refine Running.bind_eq_liftM fun taken sized => ?_
    cases taken with
    | none =>
      rw [dropHead_eq spelled.toWhole entries]
      exact (Running.liftM_bind _ _).symm
    | some taken =>
      have fits := blockSize_le sound.grid (sound.tracked.inside f (by simp [front])) sized
      dsimp only
      rw [carveHead_eq spelled entries fits]
      exact (Running.liftM_bind _ _).symm

theorem requestBlock_eq (h : p.Sound) : requestBlock owner maximum record s p =
    liftM (attemptBlock maximum record p) >>=
      goOn owner (requestBlock owner maximum record) (fun p => p.config.minEntry) s := by
  rw [attemptBlock, tryCarve_eq h]
  generalize hp : p.entries = l
  -- a head that yields no block is off the list before the next turn
  induction l generalizing p with
  | nil =>
    rw [requestBlock, loop_eq, blockTurn_empty h hp]
    refine Eq.trans ?_ (pure_bind _ _).symm
    refine Running.bind_congr_ok fun turn _ => ?_
    cases turn <;> rfl
  | cons e rest ih =>
    have front : p.entries = [] ++ e :: rest := hp
    have ends : Ends (fun _ => True) (p.reach e) _ := reach_ends (.inl trivial) h front
    rw [requestBlock, loop_eq, blockTurn_cons h hp, carve, bind_assoc, bind_assoc, Running.liftM_bind, bind_assoc]
    refine Running.bind_congr_ok ?_
    rintro ⟨q, found⟩ reached
    obtain ⟨sound, -, -, -, before, shrinks, entries⟩ := ends.of_ok reached
    obtain rfl := shrinks.eq_nil
    cases found with
    | none => exact (pure_bind _ _).trans (ih sound entries)
    | some f =>
      have entries : q.entries = f :: rest := entries
      obtain ⟨g, counts, done⟩ := exists_uncounted sound entries
      dsimp only
      rw [done, ok_bind, ok_bind, bind_assoc, Running.liftM_bind, Running.liftM_bind, bind_assoc, bind_assoc]
      refine Running.bind_congr_ok fun taken _ => ?_
      cases taken with
      | some taken =>
        dsimp only
        rw [bind_assoc, Running.liftM_bind, Running.liftM_bind, bind_assoc, bind_assoc]
        refine Running.bind_congr_ok fun r _ => ?_
        exact (pure_bind _ _).trans (pure_bind _ _).symm
      | none =>
        have dropped : Ends (fun _ => True) (dropFirst _ f rest) _ :=
          dropFirst_ends (.inl trivial) sound entries counts
        dsimp only
        rw [bind_assoc, Running.liftM_bind, Running.liftM_bind, bind_assoc, bind_assoc]
        refine Running.bind_congr_ok fun r drops => ?_
        obtain ⟨sound', -, entries', -⟩ := dropped.of_ok drops
        exact (pure_bind _ _).trans (ih sound' entries')

/-! ## Requests end -/

/-- What attempts do to a pool that is ready: they keep it sound, and where they find nothing its bytes stay as they
are. -/
structure Attempts (F : Fault → Prop) (ready : Pool → Prop) (attempt : Pool → Outcome (Pool × Nat × Option α))
    (asked : Pool → Nat) (ask : Pool → Option Pool) : Prop where
  ends : ∀ {p}, p.Sound → ready p →
    Ends F (attempt p) fun r => r.1.Sound ∧ (r.2.2 = none → Effect p r.1 [] [])
  asks : ∀ {p q largest}, attempt p = .ok (q, largest, none) → q.report (.replenish (asked q)) ∈ ask p
  asked_report : ∀ {p size}, asked (p.report (.replenish size)) = asked p
  reaches : ∀ {p q}, p.Reachable → q ∈ ask p → q.Reachable

theorem attempts_object (hF : F .counterOverflow) :
    Attempts F (fun _ => True) (attemptObject size record) (fun _ => size) (askForObject size record) := by
  refine ⟨fun {p} h _ => ?_, fun {p q largest} tried => ?_, rfl, .askForObject⟩
  · rw [attemptObject, tryPlace_eq h]
    refine (place_ends (.inl hF) h).bind ?_
    rintro ⟨q, w, found⟩ ⟨sound, effect, -⟩
    refine ⟨sound, ?_⟩
    rintro rfl
    exact effect
  · obtain ⟨⟨r, w, found⟩, placed, same⟩ := bind_eq_ok.1 tried
    cases same
    exact askForObject_eq placed

theorem attempts_block (hF : F .counterOverflow) {ready : Pool → Prop}
    (fits : ∀ {p : Pool}, ready p → (∀ f, f ≠ .counterOverflow → F f) ∨ p.OnGrid) :
    Attempts F ready (attemptBlock maximum record) (fun p => p.config.minEntry) (askForBlock maximum record) := by
  refine ⟨fun {p} h usable => ?_, fun {p q largest} tried => ?_, rfl, .askForBlock⟩
  · rw [attemptBlock, tryCarve_eq h]
    refine (carve_ends (.inl hF) h rfl (fits usable)).bind ?_
    rintro ⟨q, found⟩ ⟨sound, effect, -⟩
    refine ⟨sound, ?_⟩
    rintro rfl
    exact effect
  · obtain ⟨⟨r, found⟩, carved, same⟩ := bind_eq_ok.1 tried
    cases same
    exact askForBlock_eq carved

section

variable {request : σ → Pool → Running (σ × Pool × Option α)} {attempt : Pool → Outcome (Pool × Nat × Option α)}
  {asked : Pool → Nat} {ask : Pool → Option Pool} {ready : Pool → Prop}

/-- Requests that go on from attempts end if the owner says yes finitely often. -/
theorem Attempts.halts (attempts : Attempts F ready attempt asked ask)
    (round : ∀ {s p}, p.Sound → request s p = liftM (attempt p) >>= goOn owner request asked s)
    (valid : owner.Valid) (readies : owner.Readies ready) (raises : ∀ f, owner.Raises f → F f)
    (finitely : Acc (owner.Renews ask asked) (s, p)) (h : p.Reachable) (usable : ready p) :
    Running.Halts F (request s p) fun t => t.2.1.Sound := by
  generalize start : (s, p) = turn at finitely
  induction finitely generalizing s p with
  | intro turn _ ih =>
    obtain rfl := start
    rw [round h.sound]
    refine .bind (attempts.ends h.sound usable) ?_
    rintro ⟨q, largest, found⟩ tried ⟨sound, -⟩
    cases found with
    | some a => exact ⟨.ok (s, q, some a), rfl, sound⟩
    | none =>
      have asks := attempts.asks tried
      have reachable := attempts.reaches h asks
      rw [goOn, askOwner]
      cases replied : owner s (q.report (.replenish (asked q))) (asked q) with
      | error f => exact ⟨_, Running.error_bind, raises f ⟨s, _, _, reachable, replied⟩⟩
      | ok t =>
        obtain ⟨s', r, answer⟩ := t
        have reachable' := valid reachable replied
        cases answer with
        | false => exact ⟨.ok (s', { r with largest }, none), pure_bind _ _, reachable'.sound.regardless ..⟩
        | true =>
          have renews : owner.Renews ask asked (s', r) (s, p) := ⟨_, asks, attempts.asked_report.symm ▸ replied⟩
          obtain ⟨t, done, ends⟩ := ih _ renews reachable' (readies reachable replied) rfl
          exact ⟨t, (pure_bind _ _).trans done, ends⟩

end

/-- Whatever its size, and from whatever pool, a request ends if the owner does only valid things to the pool while
it is asked and says yes no more than finitely often in the course of it. A request for an object cannot fault but
for a running count, or the owner, and neither can one for a block while the list fits the sweep grid. -/
theorem requests_end (valid : owner.Valid) (h : p.Reachable) (size : Nat) (record : Bool) :
    (Acc (owner.Renews (askForObject size record) fun _ => size) (s, p) →
      Running.Halts owner.Faults (requestObject owner size record s p)
        fun t => t.2.1.Sound) ∧
    (Acc (owner.Renews (askForBlock size record) fun p => p.config.minEntry) (s, p) →
      Running.Halts (fun _ => True) (requestBlock owner size record s p) (fun t => t.2.1.Sound) ∧
      (p.OnGrid → owner.Readies OnGrid →
        Running.Halts owner.Faults (requestBlock owner size record s p)
          fun t => t.2.1.Sound)) := by
  have anywhere : Attempts (fun _ => True) (fun _ => True) (attemptBlock size record) _ _ :=
    attempts_block trivial fun _ => .inl fun _ _ => trivial
  refine ⟨fun finitely => ?_, fun finitely => ⟨?_, fun grid onGrid => ?_⟩⟩
  · exact (attempts_object (.inl rfl)).halts requestObject_eq valid (fun _ _ => trivial) (fun _ => .inr) finitely h
      trivial
  · exact anywhere.halts requestBlock_eq valid (fun _ _ => trivial) (fun _ _ => trivial) finitely h trivial
  · exact (attempts_block (.inl rfl) .inr).halts requestBlock_eq valid onGrid (fun _ => .inr) finitely h grid

/-- The owner with deliveries to make. It makes the next one, if it fits, and says yes if the list fits the sweep grid
then. -/
def deliverer : Owner (List Delivery)
  | [], p, _ => return ([], p, false)
  | d :: ds, p, _ => do
    let q ← (if p.DeliveryFits d then p.deliver d else return p : Outcome Pool)
    return (ds, q, q.OnGrid)

theorem deliverer_cons {d : Delivery} {ds left : List Delivery} {answer : Bool}
    (done : deliverer (d :: ds) p size = .ok (left, q, answer)) :
    left = ds ∧ answer = decide q.OnGrid ∧ (q = p ∨ p.DeliveryFits d ∧ p.deliver d = .ok q) := by
  obtain ⟨r, delivered, same⟩ := bind_eq_ok.1 done
  cases same
  refine ⟨rfl, rfl, ?_⟩
  split at delivered
  · rename_i fits
    exact .inr ⟨fits, delivered⟩
  · exact .inl (Except.ok.inj delivered).symm

theorem valid_deliverer : Owner.Valid deliverer := by
  intro ds p size left q answer h done
  cases ds with
  | nil =>
    cases done
    exact h
  | cons d ds =>
    rcases (deliverer_cons done).2.2 with rfl | ⟨fits, delivered⟩
    · exact h
    · rw [← setReserve_reserve (p := p)] at fits delivered
      exact h.deliver fits delivered

theorem readies_deliverer : Owner.Readies deliverer OnGrid := by
  intro ds p size left q _ done
  cases ds with
  | nil => cases done
  | cons d ds => exact of_decide_eq_true (deliverer_cons done).2.1.symm

theorem acc_deliverer (ds : List Delivery) : Acc (Owner.Grants deliverer) ds := by
  induction ds with
  | nil =>
    refine .intro _ ?_
    rintro _ ⟨_, _, _, -, done⟩
    cases done
  | cons d ds ih =>
    refine .intro _ ?_
    rintro left ⟨_, _, _, -, done⟩
    obtain rfl := (deliverer_cons done).1
    exact ih

/-- Three entries wait for realignment, none of them with room for 20000 bytes, and the second of two deliveries has
it. Blocks of at most 100 bytes are too short, so the request for one drops every entry, also the delivered ones. -/
theorem requests_end_with_two_deliveries : ∃ p : Pool, p.Reachable ∧
    p.entries = [⟨3700, 1000⟩, ⟨5000, 600⟩, ⟨6000, 10000⟩] ∧ p.sweepGrid = some ⟨100, 4096⟩ ∧
    p.cursor = .pending 3700 none ∧
    Running.Halts (Owner.Faults deliverer)
      (requestObject deliverer 20000 true [.expand 40000 50000 false, .recycle 60000 90000] p)
      (fun t => t.2.1.Sound) ∧
    Running.Halts (Owner.Faults deliverer)
      (requestBlock deliverer 100 true [.expand 40000 50000 false, .recycle 60000 90000] p)
      fun t => t.2.1.Sound := by
  let config : PoolConfig := { sweepChunk := 4096 }
  obtain ⟨s, done⟩ : ∃ s, s ∈ ((fresh config).run [.setSubspace ⟨.old, some 100, false, []⟩,
      .toggleSweepGrid true, .expand 1000 3700 4700 false, .expand 600 5000 5600 false,
      .expand 10000 6000 16000 false, .requestCardAlignment]).toOption :=
    Option.isSome_iff_exists.1 (by decide +kernel)
  obtain ⟨entries, grid, cursor, onGrid⟩ : s.1.entries = [⟨3700, 1000⟩, ⟨5000, 600⟩, ⟨6000, 10000⟩] ∧
      s.1.sweepGrid = some ⟨100, 4096⟩ ∧ s.1.cursor = .pending 3700 none ∧ s.1.OnGrid := by
    revert s
    decide +kernel
  have made : create config = .ok (fresh config) := by decide +kernel
  have reachable := (Reachable.create made).run (by decide +kernel) (mem_toOption.1 done)
  have finitely := acc_deliverer [.expand 40000 50000 false, .recycle 60000 90000]
  have placed := (requests_end valid_deliverer reachable 20000 true).1
    (Owner.acc_renews valid_deliverer .askForObject finitely reachable)
  have carved := ((requests_end valid_deliverer reachable 100 true).2
    (Owner.acc_renews valid_deliverer .askForBlock finitely reachable)).2 onGrid readies_deliverer
  exact ⟨s.1, reachable, entries, grid, cursor, placed, carved⟩

/-! ## The owner with a reserve -/

/-- The owner that has its answers in reserve. -/
def reserveOwner : Owner Unit := fun _ p _ =>
  match p.reserve with
  | [] => return ((), p, false)
  | refill :: rest => return ((), ← p.takeRefill refill rest, refill.answer)

theorem Effect.reserve_eq (h : Effect p q [] []) : q.reserve = p.reserve := by
  rw [Pool.reserve, h.subspace]
  rfl

/-- What comes of attempts with the given refills in reserve. -/
def serveFrom (attempt : Pool → Outcome (Pool × Nat × Option α)) (asked : Pool → Nat) :
    List Refill → Pool → Outcome (Pool × Option α)
  | reserve, p => do
    match ← attempt p with
    | (p, _, some a) => return (p, some a)
    | (p, largest, none) =>
      let p := p.report (.replenish (asked p))
      match reserve with
      | [] => return ({ p with largest }, none)
      | refill :: rest =>
        let p ← p.takeRefill refill rest
        if refill.answer then serveFrom attempt asked rest p else return ({ p with largest }, none)

theorem allocateFrom_eq_serveFrom (reserve : List Refill) (p : Pool) :
    allocateFrom size record reserve p = serveFrom (attemptObject size record) (fun _ => size) reserve p := by
  induction reserve generalizing p with
  | nil =>
    rw [allocateFrom, serveFrom, attemptObject]
    rcases p.tryPlace size record with f | ⟨q, w, found⟩
    · rfl
    · cases found <;> rfl
  | cons refill rest ih =>
    unfold allocateFrom serveFrom
    rw [attemptObject]
    rcases p.tryPlace size record with f | ⟨q, w, found⟩
    · rfl
    · cases found with
      | some a => rfl
      | none =>
        refine congrArg ((q.report (.replenish size)).takeRefill refill rest >>= ·) (funext fun r => ?_)
        rw [ih r]

theorem carveFrom_eq_serveFrom (reserve : List Refill) (p : Pool) :
    carveFrom maximum record reserve p =
      serveFrom (attemptBlock maximum record) (fun p => p.config.minEntry) reserve p := by
  induction reserve generalizing p with
  | nil =>
    rw [carveFrom, serveFrom, attemptBlock]
    rcases p.tryCarve maximum record with f | ⟨q, found⟩
    · rfl
    · cases found <;> rfl
  | cons refill rest ih =>
    unfold carveFrom serveFrom
    rw [attemptBlock]
    rcases p.tryCarve maximum record with f | ⟨q, found⟩
    · rfl
    · cases found with
      | some block => rfl
      | none =>
        refine congrArg ((q.report (.replenish q.config.minEntry)).takeRefill refill rest >>= ·)
          (funext fun r => ?_)
        rw [ih r]

section

variable {request : Unit → Pool → Running (Unit × Pool × Option α)}
  {attempt : Pool → Outcome (Pool × Nat × Option α)} {asked : Pool → Nat} {ask : Pool → Option Pool}
  {largest : Nat} {refill : Refill} {left : List Refill}

theorem goOn_dry (dry : q.reserve = []) : goOn reserveOwner request asked () (q, largest, none) =
    pure ((), { q.report (.replenish (asked q)) with largest }, none) := by
  have answer : reserveOwner () (q.report (.replenish (asked q))) (asked q) =
      .ok ((), q.report (.replenish (asked q)), false) := by
    have same : (q.report (.replenish (asked q))).reserve = [] := dry
    rw [reserveOwner, same]
    rfl
  rw [goOn, askOwner, answer]
  exact pure_bind _ _

theorem goOn_refill (next : q.reserve = refill :: left) : goOn reserveOwner request asked () (q, largest, none) =
    liftM ((q.report (.replenish (asked q))).takeRefill refill left) >>= fun r =>
      if refill.answer then request () r else pure ((), { r with largest }, none) := by
  have same : (q.report (.replenish (asked q))).reserve = refill :: left := next
  have answer : reserveOwner () (q.report (.replenish (asked q))) (asked q) =
      ((q.report (.replenish (asked q))).takeRefill refill left).map fun r => ((), r, refill.answer) := by
    rw [reserveOwner, same]
    dsimp only
    cases (q.report (.replenish (asked q))).takeRefill refill left <;> rfl
  rw [goOn, askOwner, answer, Running.liftM_bind, Running.liftM_map_bind, bind_assoc]
  refine Running.bind_congr_ok fun r _ => ?_
  refine (pure_bind _ _).trans ?_
  cases refill.answer <;> rfl

/-- Each yes of this owner uses up a refill, so its requests go down the reserve. -/
theorem Attempts.serve (attempts : Attempts (fun _ => True) (fun _ => True) attempt asked ask)
    (round : ∀ {s p}, p.Sound → request s p = liftM (attempt p) >>= goOn reserveOwner request asked s)
    {reserve : List Refill} (h : p.Sound) (hr : p.reserve = reserve)
    (fits : RefillsFit ask (fun _ => True) reserve p) : request () p = liftM (serveFrom attempt asked reserve p) >>= fun r => pure ((), r) := by
  induction reserve generalizing p with
  | nil =>
    rw [round h, serveFrom, Running.liftM_bind, bind_assoc]
    refine Running.bind_congr_ok ?_
    rintro ⟨q, largest, found⟩ tried
    cases found with
    | some a => exact (pure_bind _ _).symm
    | none =>
      have dry : q.reserve = [] := (((attempts.ends h trivial).of_ok tried).2 rfl).reserve_eq.trans hr
      exact (goOn_dry dry).trans (pure_bind _ _).symm
  | cons refill rest ih =>
    rw [round h]
    unfold serveFrom
    rw [Running.liftM_bind, bind_assoc]
    refine Running.bind_congr_ok ?_
    rintro ⟨q, largest, found⟩ tried
    cases found with
    | some a => exact (pure_bind _ _).symm
    | none =>
      obtain ⟨sound, effect⟩ := (attempts.ends h trivial).of_ok tried
      have effect := effect rfl
      obtain ⟨deliveries, next⟩ := fits.2 _ (attempts.asks tried)
      have taken : Yields ((q.report (.replenish (asked q))).takeRefill refill rest) _ :=
        takeRefill_ends 0 0 (.inl trivial) sound effect hr deliveries
      rw [goOn_refill (effect.reserve_eq.trans hr)]
      dsimp only
      rw [Running.liftM_bind, bind_assoc]
      refine Running.bind_congr_ok fun r took => ?_
      obtain ⟨sound', left, -⟩ := taken.of_ok took
      by_cases granted : refill.answer = true
      · rw [if_pos granted, if_pos granted]
        exact ih sound' left (next r (mem_toOption.2 took) granted)
      · rw [if_neg granted, if_neg granted]
        exact (pure_bind _ _).symm

end

/-- With the owner that has its answers in reserve, the loops are the requests of the pool. -/
theorem requestObject_of_reserve (h : p.Sound)
    (fits : RefillsFit (askForObject size record) (fun _ => True) p.reserve p) :
    requestObject reserveOwner size record () p =
      liftM (allocateFrom size record p.reserve p) >>= fun r => pure ((), r) :=
  allocateFrom_eq_serveFrom p.reserve p ▸ (attempts_object trivial).serve requestObject_eq h rfl fits

theorem requestBlock_of_reserve (h : p.Sound)
    (fits : RefillsFit (askForBlock maximum record) (fun _ => True) p.reserve p) :
    requestBlock reserveOwner maximum record () p =
      liftM (carveFrom maximum record p.reserve p) >>= fun r => pure ((), r) :=
  carveFrom_eq_serveFrom p.reserve p ▸
    (attempts_block trivial fun _ => .inl fun _ _ => trivial).serve requestBlock_eq h rfl fits

end Pool

end FreeStore
