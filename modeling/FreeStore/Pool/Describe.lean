import FreeStore.Pool.Lookup
import FreeStore.Text.Quoted
import FreeStore.Text.Record
/-!
Pools in words: the one line descriptions of a pool and of its free list, and the free list analysis,
one note for the list and one for each entry.
-/
namespace FreeStore

open Text (quoted describeRecord describeOption describeBool)

def PoolConfig.describe (c : PoolConfig) : String :=
  describeRecord "PoolConfig"
    [("name", quoted c.name),
      ("min_free_entry_size", toString c.minEntry),
      ("card_size", toString c.cardSize),
      ("hint_capacity", toString c.hintCapacity),
      ("hint_max_walk", toString c.hintMaxWalk),
      ("parallel_sweep_chunk_size", toString c.sweepChunk),
      ("append_collector_stats", describeBool c.appendCollectorStats)]
    true

def CardCursor.describe : CardCursor → String
  | .done => "End"
  | .pending first prev =>
    describeRecord "Pending" [("first", hex first), ("prev", describeOption (prev.map hex))] true

def HintCache.describe (c : HintCache) : String :=
  let shown := c.pairs.map fun (entry, size) => "(" ++ hex entry ++ ", " ++ toString size ++ ")"
  "[" ++ String.intercalate ", " shown ++ "]"

namespace Pool

def describe (p : Pool) : String :=
  describeRecord "MemoryPool" [("config", p.config.describe)] false

def describeList (p : Pool) : String :=
  describeRecord "HeapFreeList"
    [("name", quoted p.config.name),
      ("head", describeOption (p.first?.map hex)),
      ("free_memory_size", toString p.freeBytes),
      ("free_entry_count", toString p.entryCount),
      ("largest_free_entry", toString p.largest),
      ("card_cursor", p.cursor.describe),
      ("hints", p.hints.describe)]
    false

/-- A line of the free list analysis. -/
inductive Note where
  | heading (pool area : String)
  | chunk (start top : String) (size : Nat)
  deriving DecidableEq, Repr

/-- The free list analysis. -/
def analysis (p : Pool) (area : String) : Outcome (List Note) := do
  let l ← p.allEntries
  l.checkTops
  return .heading p.config.name area :: l.map fun e => .chunk (hex e.start) (hex e.top) e.size

end Pool

end FreeStore
