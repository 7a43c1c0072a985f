import Mathlib.Order.Bounds.Defs
import FreeStore.Proofs.Estimate
import FreeStore.Proofs.PlainSearch
/-!
Blocks respect the sweep grid.

Off the front of an entry, the longest piece that is allowed on a grid ends at the maximum, at the end of the
entry or at the next chunk boundary, whichever comes first (`longest_isGreatest`). That piece is the block, if it
is large enough; else the entry is dropped (`blockSize_on_grid`).

A search goes down the list in this way. It meets each entry as realignment has left it, and how far the
estimate reaches by then follows from the entries in front (`asReached`). So what a search does can be told from
the pool it starts from (`carve_on_grid`). A request makes one search, and one more after every refill that it is
granted (`BlockSearch`); the two main results speak of all of them.
-/
namespace FreeStore

namespace SweepGrid

variable {g : SweepGrid} {e : Entry} {a low high maximum minimum n : Nat}

/-- No chunk boundary lies strictly between `low` and `high`. -/
def Uncut (g : SweepGrid) (low high : Nat) : Prop :=
  ∀ k, ¬ (low < g.base + k * g.chunk ∧ g.base + k * g.chunk < high)

/-- May a block of `n` bytes be taken off the front of the entry, if it is to have at most `maximum` bytes? -/
def Admits (g : SweepGrid) (e : Entry) (maximum n : Nat) : Prop :=
  n ≤ maximum ∧ n ≤ e.size ∧ g.Uncut e.start (e.start + n)

/-- The length of the piece that ends at the maximum, at the end of the entry or at the next boundary. -/
def longest (g : SweepGrid) (e : Entry) (maximum : Nat) : Nat :=
  min (min maximum e.size) (g.boundaryAbove e.start - e.start)

theorem boundaryAbove_isLeast (hg : 0 < g.chunk) (above : g.base ≤ a) :
    IsLeast {b | a < b ∧ ∃ k, b = g.base + k * g.chunk} (g.boundaryAbove a) := by
  have split := Nat.div_add_mod' (a - g.base) g.chunk
  have past := Nat.mod_lt (a - g.base) hg
  refine ⟨⟨lt_boundaryAbove hg, (a - g.base) / g.chunk + 1, ?_⟩, ?_⟩
  · rw [boundaryAbove, Nat.succ_mul]
    omega
  · rintro _ ⟨higher, k, rfl⟩
    have later : (a - g.base) / g.chunk < k := by
      rw [Nat.div_lt_iff_lt_mul hg]
      omega
    have := Nat.mul_le_mul_right g.chunk later
    rw [Nat.succ_mul] at this
    rw [boundaryAbove]
    omega

theorem uncut_iff (hg : 0 < g.chunk) (above : g.base ≤ low) :
    g.Uncut low high ↔ high ≤ g.boundaryAbove low := by
  obtain ⟨⟨higher, k, boundary⟩, least⟩ := boundaryAbove_isLeast hg above
  constructor
  · intro uncut
    have := uncut k
    omega
  · rintro ends k ⟨cuts, inside⟩
    have := least ⟨cuts, k, rfl⟩
    omega

theorem longest_isGreatest (hg : 0 < g.chunk) (above : g.base ≤ e.start) :
    IsGreatest {n | g.Admits e maximum n} (g.longest e maximum) := by
  have higher : e.start < g.boundaryAbove e.start := lt_boundaryAbove hg
  unfold longest
  refine ⟨⟨by omega, by omega, (uncut_iff hg above).2 (by omega)⟩, ?_⟩
  rintro n ⟨short, inside, uncut⟩
  have := (uncut_iff hg above).1 uncut
  omega

/-- An entry that is large enough yields too little only for a short request, or close to a boundary. -/
theorem longest_lt_iff (large : minimum ≤ e.size) :
    g.longest e maximum < minimum ↔
      maximum < minimum ∨ g.boundaryAbove e.start - e.start < minimum := by
  unfold longest
  omega

end SweepGrid

theorem CardCursor.first?_eq_none {c : CardCursor} : c.first? = none ↔ c = .done := by
  cases c <;> simp [first?]

namespace Pool

variable {F : Fault → Prop} {p q r m : Pool} {g : SweepGrid} {d e : Entry} {rest gone front back : FreeList}
  {maximum : Nat} {record : Bool} {reserve : List Refill} {found : Option Range}

theorem blockSize_on_grid (on : p.sweepGrid = some g) (hg : 0 < g.chunk) (ht : e.top < wordLimit) :
    Yields (p.blockSize e maximum) fun size => g.base ≤ e.start ∧
      (size = none → g.longest e maximum < p.config.minEntry) ∧
      ∀ taken ∈ size, taken = g.longest e maximum ∧ p.config.minEntry ≤ taken := by
  have inside : e.start + min maximum e.size < wordLimit :=
    Nat.lt_of_le_of_lt (Nat.add_le_add_left (Nat.min_le_right _ _) _) ht
  unfold blockSize
  rw [on]
  apply (SweepGrid.clip_ends hg inside (.inl fun _ _ => trivial)).bind
  rintro clipped ⟨above, longest⟩
  replace longest : clipped = g.longest e maximum := longest
  subst longest
  simp only [ends_pure, keeps, decide_eq_true_eq]
  by_cases large : p.config.minEntry ≤ g.longest e maximum
  · rw [if_pos large]
    refine ⟨above, by simp, ?_⟩
    rintro _ ⟨⟩
    exact ⟨rfl, large⟩
  · rw [if_neg large]
    exact ⟨above, fun _ => Nat.lt_of_not_le large, by simp⟩

/-! ## What a search meets -/

/-- Does `e` still wait for realignment when a search reaches it that has realigned what waited of `front`, the
entries before it? -/
def waitsBehind (p : Pool) (front : FreeList) (e : Entry) : Bool :=
  p.cursor.first?.any fun first => first ≤ e.start && p.lossOf (front.upFrom first) < p.pendingLoss

/-- The entry `e` behind `front` as a search from the head of the list meets it, `none` if realignment leaves
nothing of it. -/
def asReached (p : Pool) (front : FreeList) (e : Entry) : Option Entry :=
  if p.waitsBehind front e then p.realigned e else some e

theorem waitsBehind_iff : p.waitsBehind front e = true ↔
    ∃ first ∈ p.cursor.first?, first ≤ e.start ∧ p.lossOf (front.upFrom first) < p.pendingLoss := by
  simp [waitsBehind, Option.any_eq_true]

theorem waitsBehind_nil : p.waitsBehind [] e = p.awaits e.start := by
  rw [Bool.eq_iff_iff, waitsBehind_iff, awaits_iff]
  constructor
  · rintro ⟨first, cursor, reached, some⟩
    exact ⟨some, first, cursor, reached⟩
  · rintro ⟨some, first, cursor, reached⟩
    exact ⟨first, cursor, reached, some⟩

theorem Settled.asReached_eq (h : p.Settled) : p.asReached front e = some e := by
  refine if_neg fun waits => ?_
  obtain ⟨first, cursor, -, some⟩ := waitsBehind_iff.1 waits
  rcases h with none | done
  · omega
  · rw [done] at cursor
    cases cursor

theorem Steady.asReached_eq (h : p.Steady q) : q.asReached front e = p.asReached front e := by
  unfold asReached waitsBehind realigned
  rw [lossOf_congr h.config, h.config, h.cursor, h.estimate]

theorem upFrom_cons_of_le {first : Nat} (reached : first ≤ d.start) :
    FreeList.upFrom first (d :: front) = d :: front :=
  List.dropWhile_cons_of_neg (by simpa using reached)

theorem upFrom_cons_of_lt {first : Nat} (lower : d.start < first) :
    FreeList.upFrom first (d :: front) = front.upFrom first :=
  List.dropWhile_cons_of_pos (by simpa using lower)

/-- What a search meets behind an entry that did not wait. -/
theorem asReached_behind_settled (settled : p.awaits d.start = false) :
    p.asReached front e = p.asReached (d :: front) e := by
  have same : p.waitsBehind front e = p.waitsBehind (d :: front) e := by
    rw [Bool.eq_iff_iff, waitsBehind_iff, waitsBehind_iff]
    refine exists_congr fun first => and_congr_right fun cursor => and_congr_right fun _ => ?_
    by_cases reached : first ≤ d.start
    · -- it did not wait, so nothing is left of the estimate
      have none : ¬ 0 < p.pendingLoss := fun some => by
        rw [awaits_iff.2 ⟨some, first, cursor, reached⟩] at settled
        cases settled
      omega
    · rw [upFrom_cons_of_lt (by omega)]
  unfold asReached
  rw [same]

/-- What a search meets behind an entry that it realigned. -/
theorem asReached_behind_aligned (h : p.Sound) (hp : p.entries = d :: (front ++ e :: back))
    (waits : p.awaits d.start = true) (advances : p.Advances [] d (front ++ e :: back) q)
    (config : q.config = p.config) : q.asReached front e = p.asReached (d :: front) e := by
  obtain ⟨first, cursor, reached, pays, -⟩ := advances
  have split : p.entries = [] ++ d :: (front ++ e :: back) := hp
  have lower := h.start_lt_of_mem split (f := e) (by simp)
  have charged : p.lossOf (FreeList.upFrom first [] ++ [d]) = p.lossAt d := rfl
  have estimate := pays.estimate
  rw [charged] at estimate
  obtain ⟨start, stands, ahead, all⟩ : ∃ start, q.cursor.first? = some start ∧ start ≤ e.start ∧
      front.upFrom start = front := by
    cases front with
    | nil => exact ⟨e.start, pays.cursor, Nat.le_refl _, rfl⟩
    | cons c front =>
      have whole : p.entries = [d] ++ c :: (front ++ e :: back) := hp
      have behind : c.start < e.start := h.start_lt_of_mem whole (by simp)
      exact ⟨c.start, pays.cursor, Nat.le_of_lt behind, upFrom_cons_of_le (Nat.le_refl _)⟩
  have same : q.waitsBehind front e = p.waitsBehind (d :: front) e := by
    rw [Bool.eq_iff_iff, waitsBehind_iff, waitsBehind_iff, stands, cursor, lossOf_congr config, estimate]
    simp only [Option.mem_some_iff, exists_eq_left', all, upFrom_cons_of_le reached]
    have sum : p.lossOf (d :: front) = p.lossAt d + p.lossOf front := rfl
    have some := (awaits_iff.1 waits).1
    omega
  unfold asReached realigned
  rw [same, config]

/-- A search reaches the first entry as `asReached` says, and so it will be with those behind it. -/
theorem reach_first (h : p.Sound) (hp : p.entries = d :: rest) :
    Yields (p.reach d) fun s => s.1.Sound ∧ Effect p s.1 [] [] ∧ s.2 = p.asReached [] d ∧
      s.1.entries = s.2.toList ++ rest ∧
      ∀ front e back, rest = front ++ e :: back → s.1.asReached front e = p.asReached (d :: front) e := by
  unfold reach
  split
  · rename_i waits
    have whole : p.entries = [] ++ d :: rest := hp
    apply (alignThrough_ends (.inl trivial) h whole waits).mono
    rintro ⟨q, found⟩ ⟨sound, effect, rfl, advances⟩
    refine ⟨sound, effect, (if_pos (waitsBehind_nil.trans waits)).symm, ?_, ?_⟩
    · obtain ⟨_, -, -, -, entries⟩ := advances
      exact entries
    · rintro front e back rfl
      exact asReached_behind_aligned h hp waits advances effect.config
  · rename_i settled
    refine ⟨h, .refl p, (if_neg (waitsBehind_nil ▸ settled)).symm, hp, ?_⟩
    rintro front e back -
    exact asReached_behind_settled (by simpa using settled)

/-! ## One search -/

/-- None of the entries `gone`, from the head of the list on, yields a block: nothing is left of it once it is
realigned, or what it has to offer is too little. -/
def PassesOver (p : Pool) (g : SweepGrid) (maximum : Nat) (gone : FreeList) : Prop :=
  ∀ front d back, gone = front ++ d :: back →
    ∀ e ∈ p.asReached front d, g.longest e maximum < p.config.minEntry

/-- What a search that starts from `p` finds and leaves: off the first entry that yields a block, the longest
piece that is allowed is the block, and all entries in front of it are gone. -/
inductive Carved (p : Pool) (g : SweepGrid) (maximum : Nat) (q : Pool) : Option Range → Prop
  | exhausted (passed : p.PassesOver g maximum p.entries) (left : q.entries = []) :
    Carved p g maximum q none
  | carved {gone rest : FreeList} {d e : Entry} (whole : p.entries = gone ++ d :: rest)
      (passed : p.PassesOver g maximum gone) (reached : e ∈ p.asReached gone d)
      (above : g.base ≤ e.start) (large : p.config.minEntry ≤ g.longest e maximum)
      (left : q.entries = e.remainder (g.longest e maximum) p.config.minEntry ++ rest) :
    Carved p g maximum q (some ⟨e.start, e.start + g.longest e maximum⟩)

/-- What a search passes over behind an entry, it passes over with that entry. -/
theorem PassesOver.cons (config : q.config = p.config) (whole : q.entries = gone ++ rest)
    (behind : ∀ front e back, q.entries = front ++ e :: back →
      q.asReached front e = p.asReached (d :: front) e)
    (first : ∀ e ∈ p.asReached [] d, g.longest e maximum < p.config.minEntry)
    (h : q.PassesOver g maximum gone) : p.PassesOver g maximum (d :: gone) := by
  intro front c back split
  cases front with
  | nil =>
    obtain ⟨rfl, -⟩ := List.cons.inj split
    exact first
  | cons b front =>
    obtain ⟨rfl, rfl⟩ := List.cons.inj split
    rw [← behind front c (back ++ rest) (by simp [whole]), ← config]
    exact h front c back rfl

theorem Carved.cons (hp : p.entries = d :: q.entries) (config : q.config = p.config)
    (behind : ∀ front e back, q.entries = front ++ e :: back →
      q.asReached front e = p.asReached (d :: front) e)
    (first : ∀ e ∈ p.asReached [] d, g.longest e maximum < p.config.minEntry)
    (h : q.Carved g maximum r found) : p.Carved g maximum r found := by
  cases h with
  | exhausted passed left =>
    exact .exhausted (hp ▸ passed.cons config (List.append_nil _).symm behind first) left
  | @carved gone rest c e whole passed reached above large left =>
    have whole' : p.entries = (d :: gone) ++ c :: rest := by rw [hp, whole, List.cons_append]
    exact .carved whole' (passed.cons config whole behind first) (behind gone c rest whole ▸ reached) above
      (config ▸ large) (config ▸ left)

/-- A search on a grid. -/
theorem carve_on_grid {l : FreeList} (h : p.Sound) (on : p.sweepGrid = some g) (hp : p.entries = l) :
    Yields (carve maximum record l p) fun s => p.Carved g maximum s.1 s.2 := by
  induction l generalizing p with
  | nil => exact .exhausted (by simp [hp, PassesOver]) hp
  | cons d rest ih =>
    rw [carve]
    apply (reach_first h hp).bind
    rintro ⟨q, found⟩ ⟨sound, effect, reached, entries, behind⟩
    dsimp only at sound effect reached entries behind
    cases found with
    | none =>
      have entries : q.entries = rest := entries
      apply (ih sound (effect.grid.trans on) entries).mono
      intro s carved
      refine carved.cons (hp.trans (by rw [entries])) effect.config (entries ▸ behind) ?_
      simp [← reached]
    | some e =>
      have entries : q.entries = e :: rest := entries
      have he : e ∈ q.entries := by simp [entries]
      obtain ⟨pos, word⟩ := sound.size_bounds he
      refine uncountFree_bind (entries ▸ sound.census) pos word fun census hc => ?_
      have uncounted : q.Steady { q with large := { q.large with freeEntries := census } } :=
        ⟨rfl, rfl, rfl, rfl⟩
      have grid : q.sweepGrid = some g := effect.grid.trans on
      apply (blockSize_on_grid grid (sound.grid g grid) (sound.tracked.inside e he)).bind
      rintro size ⟨above, short, sized⟩
      cases size with
      | none =>
        apply ((dropFirst_ends (.inl trivial) sound entries hc).and steady_dropFirst).bind
        rintro r ⟨⟨sound', effect', entries', -⟩, steady⟩
        have same := effect.trans effect'
        apply (ih sound' (same.grid.trans on) entries').mono
        intro s carved
        refine carved.cons (hp.trans (by rw [entries'])) same.config ?_ ?_
        · intro front c back split
          rw [(uncounted.trans steady).asReached_eq]
          exact behind front c back (entries'.symm.trans split)
        · intro f met
          obtain rfl : e = f := Option.some_inj.1 (reached.trans met)
          exact effect.config ▸ short rfl
      | some taken =>
        obtain ⟨rfl, large⟩ := sized taken rfl
        have inside : g.longest e maximum ≤ e.size := by
          unfold SweepGrid.longest
          omega
        apply (carveFirst_ends (.inl trivial) sound entries hc inside).bind
        rintro r ⟨-, -, left⟩
        have whole : p.entries = [] ++ d :: rest := hp
        exact .carved whole (by simp [PassesOver]) reached.symm above (effect.config ▸ large)
          (effect.config ▸ left)

/-! ## Requests -/

/-- A request that starts from `p`, with the given refills in reserve, searches the list of `m`: that of `p` at
first, and that of the pool after every refill that it is granted. -/
inductive BlockSearch (maximum : Nat) (record : Bool) : List Refill → Pool → Pool → Prop
  | first {reserve : List Refill} {p : Pool} : BlockSearch maximum record reserve p p
  | again {refill : Refill} {rest : List Refill} {p q r m : Pool} (answer : refill.answer = true)
      (asks : q ∈ p.askForBlock maximum record) (taken : q.takeRefill refill rest = .ok r)
      (later : BlockSearch maximum record rest r m) : BlockSearch maximum record (refill :: rest) p m

/-- Neither a search nor an allocation puts a cursor up. -/
theorem keeps_done : Keeps fun p q => p.cursor = .done → q.cursor = .done where
  trans h g none := g (h none)
  idle same _ none := CardCursor.first?_eq_none.1 (same.cursor.trans (CardCursor.first?_eq_none.2 none))
  aligned _ _ _ _ waits _ none := by
    obtain ⟨-, first, cursor, -⟩ := awaits_iff.1 waits
    rw [none] at cursor
    cases cursor
  dropped _ _ same _ _ _ none := CardCursor.first?_eq_none.1 (same.cursor.trans (CardCursor.first?_eq_none.2 none))

theorem done_of_deliveries {ds : List Delivery} (h : p.Sound) (fits : DeliveriesFit p ds)
    (none : p.cursor = .done) (put : ds.foldlM deliver p = .ok q) : q.cursor = .done := by
  induction ds generalizing p with
  | nil =>
    obtain rfl := Except.ok.inj put
    exact none
  | cons d ds ih =>
    rw [List.foldlM_cons] at put
    obtain ⟨mid, first, others⟩ := bind_eq_ok.1 put
    have delivered := ((deliver_ends (F := fun _ => True) (.inl trivial) h fits.1).of_ok first).1
    exact ih delivered.sound (fits.2 mid (mem_toOption.2 first)) (delivered.cursor.eq_done none) others

/-- A refill after a search leads to a sound pool on the same grid. -/
theorem takeRefill_after_search {refill : Refill} {later : List Refill} (h : p.Sound)
    (hr : p.reserve = refill :: later) (asks : q ∈ p.askForBlock maximum record)
    (deliveries : DeliveriesFit (q.setReserve later) refill.deliveries)
    (taken : q.takeRefill refill later = .ok r) :
    r.Sound ∧ r.reserve = later ∧ r.config = p.config ∧ r.sweepGrid = p.sweepGrid ∧
      (p.cursor = .done → r.cursor = .done) := by
  obtain ⟨t, carved, rfl⟩ := searched_of_askForBlock asks
  rw [tryCarve_eq h] at carved
  have searched : Yields (carve maximum record p.entries p) _ :=
    carve_ends (.inl trivial) h rfl (.inl fun _ _ => trivial)
  obtain ⟨sound, effect, -⟩ := searched.of_ok carved
  have filled : Yields (takeRefill _ refill later) _ :=
    takeRefill_ends 0 0 (.inl trivial) sound effect hr deliveries
  obtain ⟨sound', left, effect', -⟩ := filled.of_ok taken
  refine ⟨sound', left, effect'.config, effect'.grid, fun none => ?_⟩
  obtain ⟨-, kept, -⟩ := (carve_keeps keeps_done h rfl).of_ok carved
  exact done_of_deliveries (sound.regardless ..) deliveries (kept rfl none) taken

theorem BlockSearch.sound (search : BlockSearch maximum record reserve p m) (h : p.Sound)
    (hr : p.reserve = reserve) (fits : RefillsFit (askForBlock maximum record) (fun _ => True) reserve p) :
    m.Sound ∧ m.config = p.config ∧ m.sweepGrid = p.sweepGrid ∧ (p.cursor = .done → m.cursor = .done) := by
  induction search with
  | first => exact ⟨h, rfl, rfl, id⟩
  | again answer asks taken later ih =>
    obtain ⟨deliveries, next⟩ := fits.2 _ asks
    obtain ⟨sound, left, config, grid, idle⟩ := takeRefill_after_search h hr asks deliveries taken
    obtain ⟨sound', config', grid', idle'⟩ := ih sound left (next _ (mem_toOption.2 taken) answer)
    exact ⟨sound', config'.trans config, grid'.trans grid, fun none => idle' (idle none)⟩

/-- Where a request ends well, so do its searches. -/
theorem BlockSearch.ends_well {s : Pool × Option Range} (search : BlockSearch maximum record reserve p m)
    (done : carveFrom maximum record reserve p = .ok s) : ∃ t, m.tryCarve maximum record = .ok t := by
  induction search with
  | @first reserve p =>
    cases reserve <;>
    · rw [carveFrom] at done
      obtain ⟨t, carved, -⟩ := bind_eq_ok.1 done
      exact ⟨t, carved⟩
  | again answer asks taken later ih =>
    obtain ⟨t, carved, rfl⟩ := searched_of_askForBlock asks
    rw [carveFrom, carved, ok_bind] at done
    dsimp only at done
    rw [taken, ok_bind, if_pos answer] at done
    exact ih done

/-- The block of a request is what its last search found. -/
theorem carveFrom_found {block : Range}
    (done : carveFrom maximum record reserve p = .ok (q, some block)) :
    ∃ m, BlockSearch maximum record reserve p m ∧ m.tryCarve maximum record = .ok (q, some block) := by
  induction reserve generalizing p with
  | nil =>
    rw [carveFrom] at done
    obtain ⟨⟨t, found⟩, carved, done⟩ := bind_eq_ok.1 done
    cases found with
    | none => cases done
    | some block => exact ⟨p, .first, carved.trans done⟩
  | cons refill rest ih =>
    rw [carveFrom] at done
    obtain ⟨⟨t, found⟩, carved, done⟩ := bind_eq_ok.1 done
    cases found with
    | some block => exact ⟨p, .first, carved.trans done⟩
    | none =>
      obtain ⟨r, taken, done⟩ := bind_eq_ok.1 done
      split at done
      · rename_i granted
        obtain ⟨m, later, last⟩ := ih done
        exact ⟨m, .again granted (by rw [askForBlock_eq carved]; rfl) taken later, last⟩
      · cases done

variable {client : Client} {request : Request}

/-- A request with valid arguments ends well, unless a running count or a chunk overflows. -/
theorem allocateTlh_ends_well (h : p.Sound) (accepts : p.nextStep.Accepts (.allocateTlh client request maximum)) :
    Ends (fun f => p.nextStep.AcceptsOnGrid (.allocateTlh client request maximum) → f = .counterOverflow)
      (p.step (.allocateTlh client request maximum))
      fun s => p.step (.allocateTlh client request maximum) = .ok s := by
  cases ran : p.step (.allocateTlh client request maximum) with
  | ok s => rfl
  | error f =>
    intro grid
    exact (step_ends (F := fun f => f = .counterOverflow) (.inl rfl) h accepts (.inr grid) (.inr trivial)).of_error ran

theorem carveFrom_of_step {s : Pool × Answer}
    (done : p.step (.allocateTlh client request maximum) = .ok s) : ∃ found answered,
      carveFrom maximum (p.recordsFor client) p.reserve p.nextStep = .ok (s.1, found) ∧
        s.2 = .block answered found := by
  simp only [step, perform, allocateTlh, bind_assoc] at done
  obtain ⟨⟨q, found⟩, carved, done⟩ := bind_eq_ok.1 done
  refine ⟨found, ?_⟩
  cases found <;>
  · cases done
    exact ⟨_, carved, rfl⟩

/-- A block that is handed out on a sweep grid has at least the minimum size and at most `maximum` bytes, and no
chunk boundary lies inside it. It comes off the front of an entry `e` of the list that was searched, as
realignment left that entry, and is the longest piece that is allowed there. -/
theorem block_longest_in_chunk (h : p.Reachable) (on : p.sweepGrid = some g)
    (accepts : p.nextStep.Accepts (.allocateTlh client request maximum)) :
    Ends (fun f => p.nextStep.AcceptsOnGrid (.allocateTlh client request maximum) → f = .counterOverflow)
      (p.step (.allocateTlh client request maximum)) fun s =>
      ∀ answered block, s.2 = .block answered (some block) →
        p.config.minEntry ≤ block.length ∧ block.length ≤ maximum ∧ g.Uncut block.low block.high ∧
        ∃ m gone d rest e, BlockSearch maximum (p.recordsFor client) p.reserve p.nextStep m ∧
          m.entries = gone ++ d :: rest ∧ e ∈ m.asReached gone d ∧
          block = ⟨e.start, e.start + block.length⟩ ∧
          IsGreatest {n | g.Admits e maximum n} block.length := by
  apply (allocateTlh_ends_well h.sound accepts).mono
  rintro ⟨q, answer⟩ done answered block rfl
  obtain ⟨found, answered, carved, answer⟩ := carveFrom_of_step done
  obtain ⟨-, rfl⟩ := Answer.block.inj answer
  obtain ⟨m, search, last⟩ := carveFrom_found carved
  obtain ⟨sound, config, grid, -⟩ := search.sound h.nextStep.sound rfl accepts
  rw [tryCarve_eq sound] at last
  have searched := (carve_on_grid sound (grid.trans on) rfl).of_ok last
  dsimp only at searched
  cases searched with
  | @carved gone rest d e whole passed reached above large left =>
    have length : Range.length ⟨e.start, e.start + g.longest e maximum⟩ = g.longest e maximum :=
      Nat.add_sub_cancel_left ..
    have greatest : IsGreatest {n | g.Admits e maximum n} (g.longest e maximum) :=
      SweepGrid.longest_isGreatest (h.sound.grid g on) above
    obtain ⟨short, -, uncut⟩ := greatest.1
    rw [length]
    exact ⟨config ▸ large, short, uncut, m, gone, d, rest, e, search, whole, reached, rfl, greatest⟩

/-- The third entry yields the block: the core of the first one has 100 bytes up to the boundary at 4196, and the
second one sits inside two cards. The core of the third one starts at 6144, and 8292 is a boundary. -/
theorem block_ends_at_boundary : ∃ p q : Pool,
    p.entries = [⟨3700, 1000⟩, ⟨5000, 600⟩, ⟨6000, 10000⟩] ∧ p.sweepGrid = some ⟨100, 4096⟩ ∧
    p.step (.allocateTlh .mutator {} 5000) = .ok (q, .block ⟨0, true, false⟩ (some ⟨6144, 8292⟩)) ∧
    p.config.minEntry ≤ 2148 ∧ 2148 ≤ 5000 ∧ SweepGrid.Uncut ⟨100, 4096⟩ 6144 8292 ∧
    ∃ m gone d rest e, BlockSearch 5000 (p.recordsFor .mutator) p.reserve p.nextStep m ∧
      m.entries = gone ++ d :: rest ∧ e ∈ m.asReached gone d ∧ e.start = 6144 ∧
      IsGreatest {n | SweepGrid.Admits ⟨100, 4096⟩ e 5000 n} 2148 := by
  let config : PoolConfig := { sweepChunk := 4096 }
  obtain ⟨s, done⟩ : ∃ s, s ∈ ((fresh config).run [.setSubspace ⟨.old, some 100, false, []⟩,
      .toggleSweepGrid true, .expand 1000 3700 4700 false, .expand 600 5000 5600 false,
      .expand 10000 6000 16000 false, .requestCardAlignment]).toOption :=
    Option.isSome_iff_exists.1 (by decide +kernel)
  obtain ⟨entries, grid, accepts, t, next, answer⟩ :
      s.1.entries = [⟨3700, 1000⟩, ⟨5000, 600⟩, ⟨6000, 10000⟩] ∧ s.1.sweepGrid = some ⟨100, 4096⟩ ∧
      s.1.nextStep.Accepts (.allocateTlh .mutator {} 5000) ∧
      ∃ t ∈ (s.1.step (.allocateTlh .mutator {} 5000)).toOption,
        t.2 = .block ⟨0, true, false⟩ (some ⟨6144, 8292⟩) := by
    revert s
    decide +kernel
  have made : create config = .ok (fresh config) := by decide +kernel
  have reachable := (Reachable.create made).run (by decide +kernel) (mem_toOption.1 done)
  replace next := mem_toOption.1 next
  obtain ⟨large, short, uncut, m, gone, d, rest, e, search, whole, reached, block, greatest⟩ :=
    (block_longest_in_chunk reachable grid accepts).of_ok next _ _ answer
  exact ⟨s.1, t.1, entries, grid, answer ▸ next, large, short, uncut, m, gone, d, rest, e, search, whole,
    reached, (congrArg Range.low block).symm, greatest⟩

/-- A search that finds no entry waiting for realignment drops those from the head of the list on for which less
than the minimum is asked for or a boundary is close, up to the first one that yields a block. -/
theorem Carved.of_settled (h : p.Sound) (settled : p.Settled) (searched : p.Carved g maximum q found) :
    ∃ gone rest, p.entries = gone ++ rest ∧
      (∀ e ∈ gone, maximum < p.config.minEntry ∨ g.boundaryAbove e.start - e.start < p.config.minEntry) ∧
      (∀ e ∈ rest.head?, p.config.minEntry ≤ maximum ∧
        p.config.minEntry ≤ g.boundaryAbove e.start - e.start) ∧
      found = rest.head?.map (fun e => ⟨e.start, e.start + g.longest e maximum⟩) ∧
      q.entries = (rest.head?.elim [] fun e => e.remainder (g.longest e maximum) p.config.minEntry) ++
        rest.tail := by
  have close {l : FreeList} (part : ∀ e ∈ l, e ∈ p.entries) (passed : p.PassesOver g maximum l) :
      ∀ e ∈ l, maximum < p.config.minEntry ∨ g.boundaryAbove e.start - e.start < p.config.minEntry := by
    intro e he
    obtain ⟨front, back, split⟩ := List.append_of_mem he
    exact (SweepGrid.longest_lt_iff (h.tracked.large e (part e he))).1
      (passed front e back split e settled.asReached_eq)
  cases searched with
  | exhausted passed left =>
    exact ⟨p.entries, [], (List.append_nil _).symm, close (fun _ => id) passed, by simp, rfl, left⟩
  | @carved gone rest d e whole passed reached above large left =>
    obtain rfl : d = e := Option.some_inj.1 (settled.asReached_eq.symm.trans reached)
    have he : d ∈ p.entries := by simp [whole]
    have far : ¬ (maximum < p.config.minEntry ∨ g.boundaryAbove d.start - d.start < p.config.minEntry) :=
      (SweepGrid.longest_lt_iff (h.tracked.large d he)).not.1 (Nat.not_lt.2 large)
    refine ⟨gone, d :: rest, whole, close (fun e he => by simp [whole, he]) passed, ?_, rfl, left⟩
    rintro _ ⟨⟩
    omega

/-- Of the entries that a request for a block searches on a sweep grid, it drops only those from the head of a list
on for which less than the minimum is asked for, or that start close to the next chunk boundary. So it does in
each of its searches that finds no entry waiting for realignment, which is each of them if no realignment is
pending at first. The first entry that is not dropped yields the block. -/
theorem drops_if_short_or_near_boundary (h : p.Reachable) (on : p.sweepGrid = some g)
    (accepts : p.nextStep.Accepts (.allocateTlh client request maximum)) :
    Ends (fun f => p.nextStep.AcceptsOnGrid (.allocateTlh client request maximum) → f = .counterOverflow)
      (p.step (.allocateTlh client request maximum)) fun _ =>
      ∀ m, BlockSearch maximum (p.recordsFor client) p.reserve p.nextStep m →
        p.cursor = .done ∨ m.Settled →
        ∃ q found gone rest, m.tryCarve maximum (p.recordsFor client) = .ok (q, found) ∧
          m.entries = gone ++ rest ∧
          (∀ e ∈ gone, maximum < p.config.minEntry ∨
            g.boundaryAbove e.start - e.start < p.config.minEntry) ∧
          (∀ e ∈ rest.head?, p.config.minEntry ≤ maximum ∧
            p.config.minEntry ≤ g.boundaryAbove e.start - e.start) ∧
          found = rest.head?.map (fun e => ⟨e.start, e.start + g.longest e maximum⟩) ∧
          q.entries = (rest.head?.elim [] fun e => e.remainder (g.longest e maximum) p.config.minEntry) ++
            rest.tail := by
  apply (allocateTlh_ends_well h.sound accepts).mono
  rintro s done m search quiet
  obtain ⟨answered, found, carved, -⟩ := carveFrom_of_step done
  obtain ⟨sound, config, grid, idle⟩ := search.sound h.nextStep.sound rfl accepts
  obtain ⟨⟨q, found⟩, searched⟩ := search.ends_well carved
  refine ⟨q, found, ?_⟩
  have settled : m.Settled := quiet.elim (fun none => .inr (idle none)) id
  have split := ((carve_on_grid sound (grid.trans on) rfl).of_ok (tryCarve_eq sound ▸ searched)).of_settled
    sound settled
  rw [show m.config = p.config from config] at split
  obtain ⟨gone, rest, split⟩ := split
  exact ⟨gone, rest, searched, split⟩

/-- The entry at 3700 starts 496 bytes below the boundary at 4196, so the block comes off the second entry. -/
theorem drops_first_of_two : ∃ p q : Pool, ∃ found gone rest,
    p.sweepGrid = some ⟨100, 4096⟩ ∧ p.cursor = .done ∧
    p.nextStep.tryCarve 1000 true = .ok (q, found) ∧ found = some ⟨5000, 6000⟩ ∧
    [⟨3700, 800⟩, ⟨5000, 2000⟩] = gone ++ rest ∧
    (∀ e ∈ gone, 1000 < 512 ∨ SweepGrid.boundaryAbove ⟨100, 4096⟩ e.start - e.start < 512) ∧
    (∀ e ∈ rest.head?, 512 ≤ 1000 ∧ 512 ≤ SweepGrid.boundaryAbove ⟨100, 4096⟩ e.start - e.start) ∧
    found = rest.head?.map (fun e => ⟨e.start, e.start + SweepGrid.longest ⟨100, 4096⟩ e 1000⟩) ∧
    q.entries =
      (rest.head?.elim [] fun e => e.remainder (SweepGrid.longest ⟨100, 4096⟩ e 1000) 512) ++ rest.tail := by
  let config : PoolConfig := { sweepChunk := 4096 }
  obtain ⟨s, done⟩ : ∃ s, s ∈ ((fresh config).run [.setSubspace ⟨.old, some 100, false, []⟩,
      .toggleSweepGrid true, .expand 800 3700 4500 false, .expand 2000 5000 7000 false]).toOption :=
    Option.isSome_iff_exists.1 (by decide +kernel)
  obtain ⟨entries, minimum, grid, none, accepts, block, t, next⟩ :
      s.1.nextStep.entries = [⟨3700, 800⟩, ⟨5000, 2000⟩] ∧ s.1.config.minEntry = 512 ∧
      s.1.sweepGrid = some ⟨100, 4096⟩ ∧ s.1.cursor = .done ∧
      s.1.nextStep.Accepts (.allocateTlh .mutator {} 1000) ∧
      (s.1.nextStep.tryCarve 1000 true).toOption.map Prod.snd = some (some ⟨5000, 6000⟩) ∧
      ∃ t, t ∈ (s.1.step (.allocateTlh .mutator {} 1000)).toOption := by
    refine ⟨?_, ?_, ?_, ?_, ?_, ?_, Option.isSome_iff_exists.1 ?_⟩
    all_goals
      revert s
      decide +kernel
  have made : create config = .ok (fresh config) := by decide +kernel
  have reachable := (Reachable.create made).run (by decide +kernel) (mem_toOption.1 done)
  obtain ⟨q, found, gone, rest, searched, drops⟩ :=
    (drops_if_short_or_near_boundary reachable grid accepts).of_ok (mem_toOption.1 next) _ .first (.inl none)
  rw [entries, minimum] at drops
  replace searched : s.1.nextStep.tryCarve 1000 true = .ok (q, found) := searched
  have same : found = some ⟨5000, 6000⟩ := by simpa [searched, Except.toOption] using block
  exact ⟨s.1, q, found, gone, rest, grid, none, searched, same, drops⟩

/-- A request for 100 bytes gets nothing and loses the entry of 1000 bytes, though the next boundary is at 262144.
Without a grid it would have been handed the first 100 bytes. -/
theorem short_request_drops_entry : ∃ p q : Pool, p.Reachable ∧ p.sweepGrid = some ⟨0, 262144⟩ ∧
    p.cursor = .done ∧ p.nextStep.AcceptsOnGrid (.allocateTlh .mutator {} 100) ∧
    p.entries = [⟨0, 1000⟩] ∧ p.step (.allocateTlh .mutator {} 100) = .ok (q, .block {} none) ∧
    q.entries = [] ∧ ¬ SweepGrid.boundaryAbove ⟨0, 262144⟩ 0 - 0 < p.config.minEntry := by
  obtain ⟨s, done⟩ : ∃ s, s ∈ ((fresh {}).run [.setSubspace ⟨.old, some 0, false, []⟩,
      .toggleSweepGrid true, .expand 1000 0 1000 false]).toOption :=
    Option.isSome_iff_exists.1 (by decide +kernel)
  obtain ⟨grid, none, fits, entries, far, t, next, answer, gone⟩ :
      s.1.sweepGrid = some ⟨0, 262144⟩ ∧ s.1.cursor = .done ∧
      s.1.nextStep.AcceptsOnGrid (.allocateTlh .mutator {} 100) ∧ s.1.entries = [⟨0, 1000⟩] ∧
      ¬ SweepGrid.boundaryAbove ⟨0, 262144⟩ 0 - 0 < s.1.config.minEntry ∧
      ∃ t ∈ (s.1.step (.allocateTlh .mutator {} 100)).toOption,
        t.2 = .block {} .none ∧ t.1.entries = [] := by
    revert s
    decide +kernel
  have made : create {} = .ok (fresh {}) := by decide +kernel
  have reachable := (Reachable.create made).run (by decide +kernel) (mem_toOption.1 done)
  exact ⟨s.1, t.1, reachable, grid, none, fits, entries, answer ▸ mem_toOption.1 next, gone, far⟩

end Pool

end FreeStore
