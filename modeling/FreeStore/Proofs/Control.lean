import FreeStore.Pool.Control
import FreeStore.Proofs.Refill
/-!
New pools are sound, and pools stay so under the operations on a pool as a whole.

Most of these operations do not touch the list. A recount goes through the list once and counts each of its
entries anew, so it cannot but agree with it (`countAll_ends`).
-/
namespace FreeStore.Pool

variable {F : Fault → Prop} {p : Pool} {low high : Nat} {l k : FreeList} {enabled : Bool}

/-- A pool with nothing in it. -/
def fresh (config : PoolConfig) : Pool := { config, hints := { spare := List.range config.hintCapacity } }

theorem eq_fresh_of_create {config : PoolConfig} (h : create config = .ok p) :
    config.validate = .ok () ∧ p = fresh config := by
  unfold create HintCache.create at h
  split at h
  · cases h
  · rename_i valid
    refine ⟨valid, ?_⟩
    split at h
    · exact (Except.ok.inj h).symm
    · cases h

theorem sound_create {config : PoolConfig} (h : create config = .ok p) : p.Sound := by
  obtain ⟨valid, rfl⟩ := eq_fresh_of_create h
  exact ⟨valid, by simp [fresh], rfl, rfl, FreeList.tracked_nil, rfl, rfl, Histogram.counts_empty,
    by simp [fresh, HintCache.Holds]⟩

theorem sound_reset (h : p.Sound) : p.reset.Sound :=
  ⟨h.config, h.grid, rfl, rfl, FreeList.tracked_nil, rfl, rfl, Histogram.counts_empty,
    HintCache.holds_clear⟩

/-- The range is the only entry then, or it is reported. -/
theorem rebuild_ends (h : p.Sound) (hh : high < wordLimit) :
    Ends F (p.rebuild low high) fun r => r.1.Sound ∧ Effect p.reset r.1 [⟨low, high⟩] [] := by
  have clean := sound_reset h
  unfold rebuild
  simp only [Bool.and_eq_true, decide_eq_true_eq]
  split
  · rename_i worth
    obtain ⟨width, large⟩ := worth
    have top : (Entry.between low high).top = high := by
      simp only [Entry.between, Entry.top]
      omega
    refine countFree_bind (e := Entry.between low high) (l := []) clean.census
      (by simp only [Entry.between]; omega) (by decide) ?_ fun g hg => ?_
    · simp only [Entry.between, FreeList.bytes_nil]
      omega
    refine ⟨⟨h.config, h.grid, rfl, rfl, ?_, rfl, rfl, hg, HintCache.holds_clear⟩,
      rfl, rfl, rfl, fun a => .of_eq ?_⟩
    · exact .singleton (of_decide_eq_true large) (by rw [top]; exact hh)
    · simp only [account, reset, FreeList.cover_cons, FreeList.cover_nil, cover_cons, cover_nil,
        Entry.range, top]
      simp only [Entry.between]
      omega
  · have reported : p.reset.Delivered [⟨low, high⟩] _ := delivered_abandon clean
    exact ⟨reported.sound, reported.effect⟩

/-- Realignment may be asked for at any time. -/
theorem requestCardAlignment_ends (h : p.Sound) :
    Ends F p.requestCardAlignment fun r => r.1.Sound ∧ Effect p r.1 [] [] := by
  simp only [requestCardAlignment, allEntries, h.reachEnd_eq, ok_bind, pure_bind,
    FreeList.checkTops_eq_ok h.tracked]
  exact ⟨⟨h.config, h.grid, h.gap, h.strays, h.tracked, h.bytes, h.count, h.census, h.hints⟩,
    rfl, rfl, rfl, fun _ => .rfl⟩

theorem sound_toggleSweepGrid (h : p.Sound) : (p.toggleSweepGrid enabled).1.Sound := by
  have chunk := (PoolConfig.validate_eq_ok.1 h.config).2.2.2
  have switch : ∀ sweepGrid : Option SweepGrid, (∀ g ∈ sweepGrid, 0 < g.chunk) →
      Sound { p with sweepGrid } := fun _ grid =>
    ⟨h.config, grid, h.gap, h.strays, h.tracked, h.bytes, h.count, h.census, h.hints⟩
  unfold toggleSweepGrid
  split
  · split
    · refine switch _ ?_
      rintro g ⟨⟩
      exact chunk
    · exact h
  · exact switch none (by simp)

theorem account_toggleSweepGrid (p : Pool) (enabled : Bool) (a : Nat) :
    (p.toggleSweepGrid enabled).1.account a = p.account a := by
  unfold toggleSweepGrid
  split
  · split <;> rfl
  · rfl

/-- Entries can be counted one after the other as long as their totals are words. -/
theorem countAll_ends {s : LargeObjectStats} (hc : s.freeEntries.Counts k) (hl : ∀ e ∈ l, 0 < e.size)
    (count : l.length + k.length < wordLimit) (bytes : l.bytes + k.bytes < wordLimit) :
    Ends F (countAll s l) fun t => t.freeEntries.Counts (l ++ k) := by
  unfold countAll
  induction l generalizing s k with
  | nil => exact hc
  | cons e l ih =>
    obtain ⟨pos, others⟩ := List.forall_mem_cons.1 hl
    rw [FreeList.bytes_cons] at bytes
    rw [List.length_cons] at count
    obtain ⟨g, hg, counted⟩ := incrementFree_eq (e := e) hc pos (by omega) (by omega)
    rw [List.foldlM_cons, counted, ok_bind]
    refine (ih hg others ?_ ?_).mono fun t ht => ht.perm List.perm_middle
    · rw [List.length_cons]
      omega
    · rw [FreeList.bytes_cons]
      omega

/-- A recount of a sound pool finds what was there. -/
theorem recalculate_ends (h : p.Sound) :
    Ends F p.recalculate fun q => q.Sound ∧ Effect p q [] [] := by
  simp only [recalculate, allEntries, h.reachEnd_eq, ok_bind, pure_bind]
  have few := h.tracked.length_le_bytes h.minEntry_pos
  have total := h.freeBytes_lt
  rw [h.bytes] at total
  refine (countAll_ends (k := []) Histogram.counts_empty (fun e he => h.size_pos he) ?_ total).bind ?_
  · rw [List.length_nil]
    omega
  intro large census
  rw [List.append_nil] at census
  exact ⟨⟨h.config, h.grid, h.gap, h.strays, h.tracked, rfl, rfl, census, h.hints⟩,
    rfl, rfl, rfl, fun _ => .rfl⟩

end FreeStore.Pool
