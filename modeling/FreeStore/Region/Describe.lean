import FreeStore.Region.Basic
import FreeStore.Text.Record
/-!
Regions in words.
-/
namespace FreeStore

open Text (describeRecord)

def RegionKind.describe : RegionKind → String
  | .heap => "Heap"
  | .stack => "Stack"

def Region.describe (r : Region) : String :=
  describeRecord "Region"
    [("kind", r.kind.describe),
      ("token", "RegionToken(" ++ toString r.token ++ ")"),
      ("bytes_allocated", toString r.bytesAllocated),
      ("inline_allocated", toString r.inlineUsed),
      ("provided_segments", toString r.segments)]
    true

end FreeStore
