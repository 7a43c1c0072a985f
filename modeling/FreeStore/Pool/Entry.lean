import FreeStore.Word
import FreeStore.Pool.Card
/-!
Free entries and lists of them.

A free list is a list of entries in address order. The functions of this module read such a list:
the entries below and from an address on, the neighbours of an entry, and the totals. `isOrdered` is
the order that every pool keeps: each entry ends at or before the start of the next one.

A `Header` is what stands in memory for an entry: its size and where the list goes on. `headers` writes
a list down so, and `ofHeaders` reads it back.
-/
namespace FreeStore

/-- The free range `[start, start + size)`. -/
structure Entry where
  start : Nat
  size : Nat
  deriving DecidableEq, Repr

namespace Entry

def top (e : Entry) : Nat := e.start + e.size

/-- The end of an entry, which must be an address. -/
def checkedTop (e : Entry) : Outcome Nat := Word.add e.start e.size

def range (e : Entry) : Range := ⟨e.start, e.top⟩

/-- The entry that fills `[low, high)`. -/
def between (low high : Nat) : Entry := ⟨low, high - low⟩

def ofRange (r : Range) : Entry := between r.low r.high

theorem top_ofRange {r : Range} (h : r.low ≤ r.high) : (ofRange r).top = r.high := Nat.add_sub_cancel' h

theorem range_ofRange {r : Range} (h : r.low ≤ r.high) : (ofRange r).range = r :=
  congrArg (Range.mk r.low) (top_ofRange h)

/-- What card realignment leaves of an entry: all of it if it is aligned, else its core, if that has at
least `minimum` bytes. -/
def realigned (e : Entry) (card minimum : Nat) : Option Entry :=
  let core := Card.core e.start e.size card
  if core = e.range then some e
  else if Card.tooSmall core minimum then none
  else some (ofRange core)

end Entry

/-- What stands in memory at the start of a free entry: its size, and where the next entry starts. -/
structure Header where
  start : Nat
  size : Nat
  next : Option Nat
  deriving DecidableEq, Repr

def Header.entry (h : Header) : Entry := ⟨h.start, h.size⟩

abbrev FreeList := List Entry

namespace FreeList

/-- The entries that start below `a`. -/
def below (a : Nat) (l : FreeList) : FreeList := l.takeWhile fun e => e.start < a

/-- The entries from the first one on that does not start below `a`. -/
def upFrom (a : Nat) (l : FreeList) : FreeList := l.dropWhile fun e => e.start < a

/-- The entries up to `a`, one that starts there included. -/
def through (a : Nat) (l : FreeList) : FreeList := l.takeWhile fun e => e.start ≤ a

/-- The entries from the first one on that starts above `a`. -/
def beyond (a : Nat) (l : FreeList) : FreeList := l.dropWhile fun e => e.start ≤ a

def firstStart (l : FreeList) : Option Nat := l.head?.map Entry.start

def lastStart (l : FreeList) : Option Nat := l.getLast?.map Entry.start

/-- The start of the last entry below `a`. -/
def predecessor (a : Nat) (l : FreeList) : Option Nat := lastStart (below a l)

/-- The start of the first entry above `a`. -/
def successor (a : Nat) (l : FreeList) : Option Nat := firstStart (beyond a l)

def startsAt (a : Nat) (l : FreeList) : Bool := l.any fun e => e.start == a

/-- The entry that starts at `a`. -/
def entryAt (a : Nat) (l : FreeList) : Option Entry := l.find? fun e => e.start == a

/-- The number of bytes in all entries. -/
def bytes : FreeList → Nat
  | [] => 0
  | e :: l => e.size + bytes l

/-- The size of the largest entry, 0 if there is none. -/
def largest : FreeList → Nat
  | [] => 0
  | e :: l => max e.size (largest l)

/-- Each entry ends at or before the start of the next, and starts below it. -/
def isOrdered : FreeList → Bool
  | [] => true
  | [_] => true
  | e :: f :: l => e.start < f.start && e.top ≤ f.start && isOrdered (f :: l)

/-- Does the list end at or before `a`? -/
def endsBy (a : Nat) (l : FreeList) : Bool := l.getLast?.all fun e => e.top ≤ a

/-- Does the list start at or above `a`? -/
def startsFrom (a : Nat) (l : FreeList) : Bool := l.head?.all fun e => a ≤ e.start

/-- What `[low, high)` becomes when it swallows the neighbours `lower` and `upper`. -/
def merged (low high : Nat) (lower upper : Option Entry) : Entry :=
  Entry.between (lower.elim low Entry.start) (upper.elim high Entry.top)

/-- Fault unless every entry ends inside the address space. -/
def checkTops (l : FreeList) : Outcome Unit :=
  if l.all fun e => e.top < wordLimit then .ok () else .error .arithmetic

/-- The headers of the list; the last one leads on to `next`. -/
def headers (next : Option Nat) : FreeList → List Header
  | [] => []
  | e :: l => ⟨e.start, e.size, (firstStart l).or next⟩ :: headers next l

/-- The list that `rest` forms from `head` on, the address it leads to if no header stands there, and the
headers that are not on it. It has as many entries as there are headers at most. -/
def follow : Nat → Option Nat → List Header → FreeList × Option Nat × List Header
  | 0, head, rest => ([], head, rest)
  | _ + 1, none, rest => ([], none, rest)
  | n + 1, some a, rest =>
    match rest.find? fun h => h.start == a with
    | none => ([], some a, rest)
    | some h =>
      let (l, gap, strays) := follow n h.next (rest.filter fun g => g.start != a)
      (h.entry :: l, gap, strays)

def ofHeaders (head : Option Nat) (headers : List Header) : FreeList × Option Nat × List Header :=
  follow headers.length head headers

theorem map_start_headers (next : Option Nat) (l : FreeList) :
    (headers next l).map Header.start = l.map Entry.start := by
  induction l with
  | nil => rfl
  | cons e l ih => simp only [headers, List.map_cons, ih]

theorem length_headers (next : Option Nat) (l : FreeList) : (headers next l).length = l.length := by
  have h := congrArg List.length (map_start_headers next l)
  simpa only [List.length_map] using h

private theorem follow_headers (gap : Option Nat) (l : FreeList) (h : (l.map Entry.start).Nodup) :
    follow l.length ((firstStart l).or gap) (headers gap l) = (l, gap, []) := by
  induction l with
  | nil => rfl
  | cons e l ih =>
    rw [List.map_cons, List.nodup_cons] at h
    obtain ⟨fresh, rest⟩ := h
    have kept : (headers gap l).filter (fun g => g.start != e.start) = headers gap l := by
      rw [List.filter_eq_self]
      intro g hg
      have hs : g.start ∈ l.map Entry.start := map_start_headers gap l ▸ List.mem_map_of_mem hg
      rw [bne_iff_ne]
      exact fun same => fresh (same ▸ hs)
    simp only [firstStart, List.head?_cons, Option.map_some, Option.some_or, List.length_cons, headers,
      follow, beq_self_eq_true, List.find?_cons_of_pos, bne_self_eq_false, Bool.false_eq_true,
      not_false_eq_true, List.filter_cons_of_neg, kept]
    have tail := ih rest
    rw [firstStart] at tail
    rw [tail]
    rfl

/-- A list that is written down as headers is read back, with what its last entry leads to. -/
theorem ofHeaders_headers (gap : Option Nat) (l : FreeList) (h : (l.map Entry.start).Nodup) :
    ofHeaders ((firstStart l).or gap) (headers gap l) = (l, gap, []) := by
  rw [ofHeaders, length_headers]
  exact follow_headers gap l h

theorem below_append_upFrom (a : Nat) (l : FreeList) : below a l ++ upFrom a l = l :=
  List.takeWhile_append_dropWhile

theorem through_append_beyond (a : Nat) (l : FreeList) : through a l ++ beyond a l = l :=
  List.takeWhile_append_dropWhile

theorem bytes_append (l m : FreeList) : bytes (l ++ m) = bytes l + bytes m := by
  induction l with
  | nil => simp only [List.nil_append, bytes, Nat.zero_add]
  | cons e l ih => simp only [List.cons_append, bytes, ih]; omega

theorem largest_append (l m : FreeList) : largest (l ++ m) = max (largest l) (largest m) := by
  induction l with
  | nil => simp only [List.nil_append, largest, Nat.zero_max]
  | cons e l ih => simp only [List.cons_append, largest, ih]; omega

@[simp] theorem largest_nil : largest [] = 0 := rfl

@[simp] theorem largest_cons {e : Entry} {l : FreeList} : largest (e :: l) = max e.size (largest l) := rfl

theorem largest_le_iff {n : Nat} {l : FreeList} : largest l ≤ n ↔ ∀ e ∈ l, e.size ≤ n := by
  induction l with
  | nil => simp
  | cons e l ih => rw [largest_cons, Nat.max_le, ih, List.forall_mem_cons]

theorem isOrdered_cons_cons {e f : Entry} {l : FreeList} :
    isOrdered (e :: f :: l) = true ↔ e.start < f.start ∧ e.top ≤ f.start ∧ isOrdered (f :: l) := by
  simp only [isOrdered, Bool.and_eq_true, decide_eq_true_eq, and_assoc]

end FreeList

end FreeStore
