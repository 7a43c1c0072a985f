import FreeStore.Region.Basic
/-!
Tearing regions down.

Destroying a region destroys what was created in it, going from link to link. A region inside goes,
contents and all, at its place in this order. Then the region's segments go back to the provider, newest
first, and the log learns of its end. `teardown` yields what happens, in order, and the regions that are
still living then. Nothing that is destroyed writes into storage.
-/
namespace FreeStore

inductive TeardownEvent where
  | destroyed (tag : Nat) (loud : Bool)
  | released (segment : Segment)
  | ended (region : Region)
  deriving DecidableEq, Repr

/-- Destroy what was created in a region, in the order given; `inner` destroys a region inside. -/
def destroyEach (inner : Living → Region → Outcome (Living × List TeardownEvent)) :
    List Item → Living → Outcome (Living × List TeardownEvent)
  | [], living => .ok (living, [])
  | .value tag loud :: items, living => do
    let (living, events) ← destroyEach inner items living
    return (living, .destroyed tag loud :: events)
  | .region name :: items, living =>
    match living.takeOut name with
    | none => .error .brokenPromise
    | some (r, living) => do
      let (living, inside) ← inner living r
      let (living, events) ← destroyEach inner items living
      return (living, inside ++ events)

/-- Tear down a region that is not among the living any more. The depth bounds how deep regions lie in one
another. -/
def teardown (m : Storage) : Nat → Living → Region → Outcome (Living × List TeardownEvent)
  | 0, _, _ => .error .brokenPromise
  | depth + 1, living, r => do
    let instances ← r.follow m r.last
    let (living, events) ← destroyEach (teardown m depth) (instances.map Instance.item) living
    -- the chain must lead back to the embedded area
    require (r.chain.length == r.segments)
    return (living, events ++ r.chain.map .released ++ [.ended r])

end FreeStore
