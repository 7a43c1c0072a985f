import FreeStore.Fault
/-!
Settings of a pool.

A pool can be made from a configuration exactly when `PoolConfig.validate` accepts it. The one relation
between two settings is that an entry is never smaller than a card, so that no entry sits inside a card
without touching its border.
-/
namespace FreeStore

structure PoolConfig where
  name : String := "address-ordered-list"
  /-- ranges below this size are never kept as free entries -/
  minEntry : Nat := 512
  cardSize : Nat := 512
  hintCapacity : Nat := 8
  /-- the length of a walk after which a successful search leaves a hint -/
  hintMaxWalk : Nat := 20
  sweepChunk : Nat := 262144
  /-- count what the collector allocates in the size histograms too -/
  appendCollectorStats : Bool := false
  deriving DecidableEq, Repr

def PoolConfig.validate (c : PoolConfig) : Except ConfigError Unit :=
  if c.cardSize = 0 then .error .zeroCardSize
  else if c.minEntry < c.cardSize then .error (.minimumBelowCard c.minEntry c.cardSize)
  else if c.hintCapacity = 0 then .error .zeroHintCapacity
  else if c.sweepChunk = 0 then .error .zeroSweepChunkSize
  else .ok ()

theorem PoolConfig.validate_eq_ok {c : PoolConfig} :
    c.validate = .ok () ↔
      0 < c.cardSize ∧ c.cardSize ≤ c.minEntry ∧ 0 < c.hintCapacity ∧ 0 < c.sweepChunk := by
  unfold PoolConfig.validate
  repeat' split
  all_goals simp only [reduceCtorEq, false_iff, true_iff]
  all_goals omega

end FreeStore
