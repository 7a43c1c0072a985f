import FreeStore.Proofs.Coalescing
/-!
Pulling a range off the list takes exactly the free bytes of the range.

The answer and the list that is left come entry by entry: `taken` is what is handed back of an entry,
`remnants` what stays of it, and both lie inside the entry. So the pieces come in the order of the entries,
and the range is empty afterwards. A proper range can always be pulled off: each entry that is new is paid
for with a byte, and no count can overflow (`PulledOff`).
-/
namespace FreeStore

namespace Pool

variable {p : Pool} {low high minimum m : Nat} {e : Entry} {l : FreeList} {r : Range}

theorem mem_taken : r ∈ taken minimum low high e ↔
    r = ⟨max e.start low, min e.top high⟩ ∧ r.low < r.high ∧ minimum ≤ r.high - r.low := by
  unfold taken
  dsimp only
  split
  · rename_i worth
    rw [List.mem_singleton]
    exact ⟨fun same => ⟨same, same ▸ worth⟩, And.left⟩
  · rename_i small
    refine ⟨nofun, ?_⟩
    rintro ⟨rfl, worth⟩
    exact absurd worth small

/-- What is handed back of disjoint entries in address order is disjoint and in address order. -/
theorem pairwise_taken (h : FreeList.Tracked m l) :
    (l.flatMap (taken minimum low high)).Pairwise fun r s => r.high ≤ s.low := by
  refine List.pairwise_flatMap.2 ⟨fun e _ => ?_, h.apart.imp fun {e f} front r hr s hs => ?_⟩
  · unfold taken
    dsimp only
    split <;> simp
  · obtain ⟨rfl, -⟩ := mem_taken.1 hr
    obtain ⟨rfl, -⟩ := mem_taken.1 hs
    dsimp only
    omega

/-- Free bytes in a proper range are those of an entry that meets it. -/
theorem exists_free_iff (h : p.Sound) (width : low < high) :
    (∃ a, low ≤ a ∧ a < high ∧ 0 < p.entries.cover a) ↔
      ∃ e ∈ p.entries, low < e.top ∧ e.start < high := by
  have free a : 0 < p.entries.cover a ↔ ∃ e ∈ p.entries, e.start ≤ a ∧ a < e.top :=
    cover_pos.trans FreeList.mem_ranges_contains
  constructor
  · rintro ⟨a, above, below, covered⟩
    obtain ⟨e, he, start, top⟩ := (free a).1 covered
    exact ⟨e, he, by omega, by omega⟩
  · rintro ⟨e, he, above, below⟩
    have := h.start_lt_top he
    exact ⟨max e.start low, by omega, by omega, (free _).2 ⟨e, he, by omega, by omega⟩⟩

/-- Pulling a proper range off the list of a reachable pool goes through. It yields nothing just if no byte of
the range is free, and then it changes nothing. Otherwise the pieces are the parts of the entries in the range
that have at least `minimum` bytes, in address order and with their totals, and on the list are the entries
outside the range and those parts of the others outside it that are large enough for an entry. -/
theorem remove_pulls_range (h : p.Reachable) (width : low < high) (minimum : Nat) :
    ∃ q answer, p.step (.remove low high minimum) = .ok (q, .removed answer) ∧
      (answer = none ↔ ¬ ∃ a, low ≤ a ∧ a < high ∧ 0 < p.entries.cover a) ∧
      (answer = none → q = p.nextStep) ∧
      ∀ removed ∈ answer,
        removed.pieces = p.entries.flatMap (taken minimum low high) ∧
        removed.pieces.Pairwise (fun r s => r.high ≤ s.low) ∧
        removed.bytes = totalBytes removed.pieces ∧
        removed.count = removed.pieces.length ∧
        q.ranges = .ok (FreeList.ranges (p.entries.flatMap (remnants p.config.minEntry low high))) := by
  have sound := h.sound.nextStep
  have proper : p.nextStep.RoomToSplit low high := fun empty => absurd empty (Nat.ne_of_lt width)
  obtain ⟨⟨q, answer⟩, done, pulled⟩ := (removeWithin_ends (F := fun _ => False) minimum sound
    (Nat.le_of_lt width) (.inr proper)).exists_ok fun _ _ => id
  replace pulled : p.nextStep.PulledOff low high minimum q answer := pulled
  refine ⟨q, answer, by rw [step, perform, done]; rfl, ?_, fun none => (pulled.missed none).1, ?_⟩
  · rw [exists_free_iff h.sound width]
    cases answer with
    | none =>
      refine iff_of_true rfl ?_
      rintro ⟨e, he, above, below⟩
      have outside := (pulled.missed rfl).2 e he
      omega
    | some removed => exact iff_of_false (Option.some_ne_none removed) fun none => none (pulled.met removed rfl).2.2
  · intro removed some
    obtain ⟨rfl, left, -⟩ := pulled.met removed some
    refine ⟨rfl, pairwise_taken h.sound.tracked, rfl, rfl, ?_⟩
    rw [ranges_eq pulled.sound, left]
    rfl

/-- Of three entries the range cuts the first and the last. The second is too small to be handed back, and so is
what lies behind the range to stay. -/
theorem remove_pulls_range_across_entries : ∃ p q : Pool,
    p.entries = [⟨0, 2000⟩, ⟨3000, 600⟩, ⟨5000, 3000⟩] ∧
    p.step (.remove 1000 7800 700) = .ok (q, .removed (some ⟨[⟨1000, 2000⟩, ⟨5000, 7800⟩], 3800, 2⟩)) ∧
    q.ranges = .ok [⟨0, 1000⟩] := by
  obtain ⟨s, done⟩ : ∃ s, s ∈ ((fresh {}).run [.expand 2000 0 2000 false, .expand 600 3000 3600 false,
      .expand 3000 5000 8000 false]).toOption := Option.isSome_iff_exists.1 (by decide +kernel)
  obtain ⟨entries, minEntry⟩ : s.1.entries = [⟨0, 2000⟩, ⟨3000, 600⟩, ⟨5000, 3000⟩] ∧
      s.1.config.minEntry = 512 := by
    revert s
    decide +kernel
  have made : create {} = .ok (fresh {}) := by decide +kernel
  have reachable := (Reachable.create made).run (by decide +kernel) (mem_toOption.1 done)
  obtain ⟨q, answer, pulled, found, -, all⟩ :=
    remove_pulls_range reachable (by decide : 1000 < 7800) 700
  cases answer with
  | none =>
    refine absurd ⟨1000, by decide, by decide, ?_⟩ (found.1 rfl)
    rw [entries]
    decide
  | some removed =>
    obtain ⟨pieces, -, bytes, count, ranges⟩ := all removed rfl
    rw [entries] at pieces
    rw [entries, minEntry] at ranges
    obtain ⟨ps, n, k⟩ := removed
    dsimp only at pieces bytes count
    subst pieces bytes count
    exact ⟨s.1, q, entries, pulled, ranges⟩

end Pool

end FreeStore
