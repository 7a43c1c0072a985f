import FreeStore.Fault
import FreeStore.Word
import FreeStore.Text.Printable
import FreeStore.Text.Quoted
import FreeStore.Text.Record
import FreeStore.Pool.Config
import FreeStore.Pool.Card
import FreeStore.Pool.Histogram
import FreeStore.Pool.Hint
import FreeStore.Pool.HintTable
import FreeStore.Pool.Entry
import FreeStore.Pool.Basic
import FreeStore.Pool.Realign
import FreeStore.Pool.Insert
import FreeStore.Pool.Extract
import FreeStore.Pool.FirstFit
import FreeStore.Pool.Block
import FreeStore.Pool.Torn
import FreeStore.Pool.Allocate
import FreeStore.Pool.Move
import FreeStore.Pool.Lookup
import FreeStore.Pool.Control
import FreeStore.Pool.Run
import FreeStore.Pool.Describe
import FreeStore.Segment.Basic
import FreeStore.Segment.Rack
import FreeStore.Segment.Provider
import FreeStore.Region.Log
import FreeStore.Region.Storage
import FreeStore.Region.Basic
import FreeStore.Region.Teardown
import FreeStore.Region.Store
import FreeStore.Region.Run
import FreeStore.Region.Session
import FreeStore.Region.Describe
import FreeStore.Proofs.Outcome
import FreeStore.Proofs.CardGeometry
import FreeStore.Proofs.Tracked
import FreeStore.Proofs.Cover
import FreeStore.Proofs.Census
import FreeStore.Proofs.HintBounds
import FreeStore.Proofs.Sound
import FreeStore.Proofs.Headroom
import FreeStore.Proofs.Realignment
import FreeStore.Proofs.Accepts
import FreeStore.Proofs.Insertion
import FreeStore.Proofs.Batch
import FreeStore.Proofs.Extraction
import FreeStore.Proofs.Placement
import FreeStore.Proofs.Carving
import FreeStore.Proofs.Refill
import FreeStore.Proofs.Relocation
import FreeStore.Proofs.Control
import FreeStore.Proofs.Ledger
import FreeStore.Proofs.Reachable
import FreeStore.Proofs.Custody
import FreeStore.Proofs.PlainSearch
import FreeStore.Proofs.Runs
import FreeStore.Proofs.MovedHeap
import FreeStore.Proofs.Coalescing
import FreeStore.Proofs.Recycling
import FreeStore.Proofs.Waiting
import FreeStore.Proofs.Removal
import FreeStore.Proofs.BatchEnds
import FreeStore.Proofs.Restoring
import FreeStore.Proofs.FailedSearch
import FreeStore.Proofs.History
import FreeStore.Proofs.Estimate
import FreeStore.Proofs.Alignment
import FreeStore.Proofs.SweepChunks
import FreeStore.Proofs.Supply
import FreeStore.Proofs.Threading
import FreeStore.Proofs.LivingRegions
import FreeStore.Proofs.Nesting
import FreeStore.Proofs.Creation
import FreeStore.Proofs.Destruction
import FreeStore.Proofs.Holdings
import FreeStore.Proofs.BlocksApart
import FreeStore.Proofs.SegmentsConserved
import FreeStore.Proofs.BestFit
import FreeStore.Proofs.Refusals
import FreeStore.Proofs.Sessions
import FreeStore.Proofs.LogRecords
import FreeStore.Proofs.Reconciliation
import FreeStore.Proofs.Totality
import FreeStore.Proofs.Counters
import FreeStore.Proofs.SplitPoint
import FreeStore.Proofs.PendingPrefix
import FreeStore.Proofs.HintSlots
import FreeStore.Proofs.HintLinks
import FreeStore.Proofs.HintStaircase
import FreeStore.Proofs.SizeClasses
import FreeStore.Proofs.Links
import FreeStore.Proofs.Loops
import FreeStore.Proofs.CursorRepair
import FreeStore.Proofs.LinkedInsertion
import FreeStore.Proofs.LinkedBatch
import FreeStore.Proofs.LinkedExtraction
import FreeStore.Proofs.LinkedRealignment
import FreeStore.Proofs.LinkedSearch
import FreeStore.Proofs.LinkedServing
import FreeStore.Proofs.RequestLoops
