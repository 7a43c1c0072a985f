import Mathlib.Data.List.Perm.Basic
import FreeStore.Pool.Torn
import FreeStore.Proofs.Placement
/-!
Whole pools, header by header.

A pool that is not torn can be written down as a table of headers, in any order, and read back (`Laid`). Dropping a
header, writing one and turning a link are edits of the table. In the midst of them the headers form two rows, one
that starts at the head of the list and leads anywhere, and one behind it (`Parted`): headers are dropped and written
at the ends that face each other, and once the front row leads to the one behind, the pool has a list again
(`Parted.closed`). So an entry is cut out of a whole pool by dropping its header and leading its neighbour past it
(`unlink_entry`), and one is put in its place by leading the neighbour to it (`replace_entry`). What a header of a
whole pool leads to is the next entry (`header_of_entry`).
-/
namespace FreeStore

/-- The header of an entry that leads to `next`. -/
abbrev Entry.leading (e : Entry) (next : Option Nat) : Header := ⟨e.start, e.size, next⟩

theorem Entry.entry_leading (e : Entry) (next : Option Nat) : (e.leading next).entry = e := rfl

namespace FreeList

variable {gap head : Option Nat} {l k : FreeList} {h : Header} {hs xs ys : List Header} {n : Nat}

theorem firstStart_append : firstStart (l ++ k) = (firstStart l).or (firstStart k) := by
  cases l <;> rfl

theorem lastStart_concat {e : Entry} : lastStart (l ++ [e]) = some e.start := by
  rw [lastStart, List.getLast?_concat]
  rfl

theorem headers_append :
    headers gap (l ++ k) = headers ((firstStart k).or gap) l ++ headers gap k := by
  induction l with
  | nil => rfl
  | cons e l ih => simp only [List.cons_append, headers, ih, firstStart_append, Option.or_assoc]

theorem headers_append_none : headers none (l ++ k) = headers (firstStart k) l ++ headers none k := by
  rw [headers_append, Option.or_none]

theorem headers_cons_none {e : Entry} : headers none (e :: l) = e.leading (firstStart l) :: headers none l := by
  rw [headers, Option.or_none]

theorem headers_concat {e : Entry} :
    headers gap (l ++ [e]) = headers (some e.start) l ++ [e.leading gap] := by
  rw [headers_append]
  rfl

theorem firstStart_concat_or {e : Entry} : (firstStart (l ++ [e])).or gap = (firstStart l).or (some e.start) := by
  cases l <;> rfl

/-! ## Tables of headers -/

theorem find?_start (starts : (hs.map Header.start).Nodup) (mem : h ∈ hs) :
    hs.find? (fun g => g.start == h.start) = some h := by
  induction hs with
  | nil => cases mem
  | cons g hs ih =>
    obtain ⟨fresh, starts⟩ := List.nodup_cons.1 starts
    rcases List.mem_cons.1 mem with rfl | mem
    · exact List.find?_cons_of_pos (beq_self_eq_true _)
    · have other : ¬ (g.start == h.start) = true := by
        rw [beq_iff_eq]
        exact fun same => fresh (same ▸ List.mem_map_of_mem mem)
      rw [List.find?_cons_of_neg (by exact other), ih starts mem]

theorem filter_ne_start {a : Nat} (fresh : a ∉ hs.map Header.start) : hs.filter (fun g => g.start != a) = hs := by
  refine List.filter_eq_self.2 fun g hg => ?_
  rw [bne_iff_ne]
  exact fun same => fresh (same ▸ List.mem_map_of_mem hg)

theorem filter_start (starts : ((xs ++ h :: ys).map Header.start).Nodup) :
    (xs ++ h :: ys).filter (fun g => g.start != h.start) = xs ++ ys := by
  have fresh : h.start ∉ (xs ++ ys).map Header.start :=
    (List.nodup_cons.1 (((List.perm_middle.map Header.start).nodup_iff).1 starts)).1
  rw [List.map_append, List.mem_append, not_or] at fresh
  rw [List.filter_append, List.filter_cons_of_neg (by simp), filter_ne_start fresh.1, filter_ne_start fresh.2]

theorem perm_filter_start (starts : (hs.map Header.start).Nodup) (mem : h ∈ hs) :
    hs.Perm (h :: hs.filter fun g => g.start != h.start) := by
  obtain ⟨xs, ys, rfl⟩ := List.append_of_mem mem
  rw [filter_start starts]
  exact List.perm_middle

theorem first_follow : (firstStart (follow n head hs).1).or (follow n head hs).2.1 = head := by
  cases n with
  | zero => rfl
  | succ n =>
    cases head with
    | none => rfl
    | some a =>
      rw [follow]
      cases found : hs.find? fun h => h.start == a with
      | none => rfl
      | some h =>
        have here := List.find?_some found
        rw [beq_iff_eq] at here
        exact congrArg some here

/-- Reading a table loses no header. -/
theorem headers_follow (starts : (hs.map Header.start).Nodup) :
    (headers (follow n head hs).2.1 (follow n head hs).1 ++ (follow n head hs).2.2).Perm hs := by
  induction n generalizing head hs with
  | zero => exact .refl _
  | succ n ih =>
    cases head with
    | none => exact .refl _
    | some a =>
      rw [follow]
      cases found : hs.find? fun h => h.start == a with
      | none => exact .refl _
      | some h =>
        have here := List.find?_some found
        rw [beq_iff_eq] at here
        have split := perm_filter_start starts (List.mem_of_find?_eq_some found)
        rw [here] at split
        have rest := @ih h.next _ (List.nodup_cons.1 ((split.map Header.start).nodup_iff.1 starts)).2
        refine List.Perm.trans ?_ split.symm
        dsimp only
        rw [headers, first_follow]
        exact rest.cons h

/-- The list that is written down in a table is found in it, whatever the order of the table. -/
theorem follow_of_perm (perm : hs.Perm (headers gap l)) (starts : (l.map Entry.start).Nodup) :
    follow l.length ((firstStart l).or gap) hs = (l, gap, []) := by
  induction l generalizing hs with
  | nil =>
    rw [List.perm_nil.1 perm]
    rfl
  | cons e l ih =>
    have whole : (hs.map Header.start).Nodup :=
      ((perm.map Header.start).trans (.of_eq (map_start_headers gap (e :: l)))).nodup_iff.2 starts
    have mem : e.leading ((firstStart l).or gap) ∈ hs := perm.symm.subset List.mem_cons_self
    have found := find?_start whole mem
    have rest : (hs.filter fun g => g.start != e.start).Perm (headers gap l) :=
      (List.perm_cons _).1 ((perm_filter_start whole mem).symm.trans perm)
    show follow (l.length + 1) (some e.start) hs = _
    rw [follow, found]
    dsimp only
    rw [ih rest (List.nodup_cons.1 starts).2]
    rfl

end FreeList

namespace Pool

variable {p q : Pool} {gap head next : Option Nat} {e f : Entry} {before after l : FreeList} {g h : Header}
  {hs gs xs ys table : List Header} {a : Nat}

/-! ## Tables -/

/-- `q` is `p` with the headers `hs`, in some order, and a list that starts at `head`. No two headers start alike. -/
structure Laid (p q : Pool) (head : Option Nat) (hs : List Header) : Prop where
  starts : (hs.map Header.start).Nodup
  table : ∃ gs, gs.Perm hs ∧ q = p.withHeaders head gs

theorem first?_withHeaders : (p.withHeaders head hs).first? = head := FreeList.first_follow

theorem headers_withHeaders (starts : (hs.map Header.start).Nodup) :
    (p.withHeaders head hs).headers.Perm hs := FreeList.headers_follow starts

theorem Laid.perm (laid : Laid p q head hs) (perm : hs.Perm gs) : Laid p q head gs := by
  obtain ⟨starts, table, same, rfl⟩ := laid
  exact ⟨((perm.map Header.start).nodup_iff).1 starts, table, same.trans perm, rfl⟩

theorem Laid.first? (laid : Laid p q head hs) : q.first? = head := by
  obtain ⟨-, table, -, rfl⟩ := laid
  exact first?_withHeaders

theorem Laid.headers (laid : Laid p q head hs) : q.headers.Perm hs := by
  obtain ⟨starts, table, same, rfl⟩ := laid
  exact (headers_withHeaders (((same.map Header.start).nodup_iff).2 starts)).trans same

theorem Laid.withHeaders (laid : Laid p q head hs) (starts : (gs.map Header.start).Nodup)
    (perm : table.Perm gs) : Laid p (q.withHeaders next table) next gs := by
  obtain ⟨-, _, -, rfl⟩ := laid
  exact ⟨starts, table, perm, rfl⟩

theorem Laid.header? (laid : Laid p q head hs) (mem : h ∈ hs) : q.header? h.start = some h :=
  have table := laid.headers
  FreeList.find?_start (((table.map Header.start).nodup_iff).2 laid.starts) (table.symm.subset mem)

theorem Laid.header (laid : Laid p q head hs) (mem : h ∈ hs) : q.header h.start = .ok h := by
  rw [Pool.header, laid.header? mem]

theorem Laid.dropHeader (laid : Laid p q head (xs ++ h :: ys)) :
    Laid p (q.dropHeader h.start) head (xs ++ ys) := by
  have rest := laid.headers.filter fun g => g.start != h.start
  rw [FreeList.filter_start laid.starts] at rest
  rw [Pool.dropHeader, laid.first?]
  exact laid.withHeaders (laid.starts.sublist (((List.sublist_cons_self ..).append_left _).map _)) rest

/-- A header is written; one that started where it starts is gone. -/
theorem Laid.write (laid : Laid p q head hs) (others : hs.filter (fun g => g.start != h.start) = xs ++ ys) :
    Laid p (q.withHeaders q.first? (h :: q.headers.filter fun g => g.start != h.start)) head (xs ++ h :: ys) := by
  have rest := laid.headers.filter fun g => g.start != h.start
  rw [others] at rest
  have fresh : h.start ∉ (xs ++ ys).map Header.start := by
    rw [← others]
    intro found
    obtain ⟨g, hg, same⟩ := List.mem_map.1 found
    simpa [same] using (List.mem_filter.1 hg).2
  have starts : ((xs ++ h :: ys).map Header.start).Nodup :=
    ((List.perm_middle.map Header.start).nodup_iff).2
      (List.nodup_cons.2 ⟨fresh, others ▸ laid.starts.sublist (List.filter_sublist.map _)⟩)
  rw [laid.first?]
  exact laid.withHeaders starts ((rest.cons h).trans List.perm_middle.symm)

theorem putHeader_eq (room : ∀ next ∈ h.next, h.entry.top ≤ next) : q.putHeader h =
    .ok (q.withHeaders q.first? (h :: q.headers.filter fun g => g.start != h.start)) := by
  have ok : (h.next.all fun next => h.entry.top ≤ next) = true :=
    (Option.all_eq_true ..).2 fun next led => decide_eq_true (room next led)
  rw [Pool.putHeader, require_bind ok]
  rfl

theorem Laid.putHeader (laid : Laid p q head (xs ++ ys)) (fresh : h.start ∉ (xs ++ ys).map Header.start)
    (room : ∀ next ∈ h.next, h.entry.top ≤ next) :
    ∃ r, q.putHeader h = .ok r ∧ Laid p r head (xs ++ h :: ys) :=
  ⟨_, putHeader_eq room, laid.write (FreeList.filter_ne_start fresh)⟩

/-- A header takes the place of one that started where it starts. -/
theorem Laid.overwrite (laid : Laid p q head (xs ++ g :: ys)) (same : h.start = g.start)
    (room : ∀ next ∈ h.next, h.entry.top ≤ next) :
    ∃ r, q.putHeader h = .ok r ∧ Laid p r head (xs ++ h :: ys) :=
  ⟨_, putHeader_eq room, laid.write (same ▸ FreeList.filter_start laid.starts)⟩

/-- Let the header at `a` lead to `next`. -/
def setNext (p : Pool) (a : Nat) (next : Option Nat) : Outcome Pool := do
  let h ← p.header a
  return p.withHeaders p.first? ({ h with next } :: p.headers.filter fun g => g.start != a)

theorem Laid.setNext (laid : Laid p q head (xs ++ h :: ys)) (next : Option Nat) :
    ∃ r, q.setNext h.start next = .ok r ∧ Laid p r head (xs ++ { h with next } :: ys) := by
  refine ⟨_, ?_, laid.write (FreeList.filter_start laid.starts)⟩
  rw [Pool.setNext, laid.header (by simp)]
  rfl

/-- Let the last of the entries in front lead somewhere else. -/
theorem Laid.link {next : Option Nat}
    (laid : Laid p q ((FreeList.firstStart before).or gap) (FreeList.headers gap before ++ hs))
    (up : ∀ e ∈ before, ∀ b ∈ next, e.start < b) :
    ∃ r, q.link (FreeList.lastStart before) next = .ok r ∧
      Laid p r ((FreeList.firstStart before).or next) (FreeList.headers next before ++ hs) := by
  rcases before.eq_nil_or_concat with rfl | ⟨front, d, rfl⟩
  · exact ⟨_, rfl, laid.withHeaders laid.starts laid.headers⟩
  · have head (x : Option Nat) : (FreeList.firstStart (front ++ [d])).or x = FreeList.firstStart (front ++ [d]) := by
      cases front <;> rfl
    have cells (x : Option Nat) : FreeList.headers x (front ++ [d]) ++ hs =
        FreeList.headers (some d.start) front ++ d.leading x :: hs := by
      rw [FreeList.headers_concat, List.append_assoc, List.singleton_append]
    rw [List.concat_eq_append] at laid up ⊢
    rw [head, cells] at *
    have ok : (next.all fun b => d.start < b) = true :=
      (Option.all_eq_true ..).2 fun b led => decide_eq_true (up d (by simp) b led)
    obtain ⟨r, done, laid⟩ := laid.setNext next
    rw [FreeList.lastStart_concat, Pool.link, require_bind ok]
    exact ⟨r, done, laid⟩

/-- A table that leads down a list and holds nothing else is that list. -/
theorem Laid.whole (laid : Laid p q (FreeList.firstStart l) (FreeList.headers none l)) :
    q = { p with entries := l, gap := none, strays := [] } := by
  obtain ⟨starts, table, perm, rfl⟩ := laid
  rw [FreeList.map_start_headers] at starts
  have length : table.length = l.length := perm.length_eq.trans (FreeList.length_headers none l)
  have read : FreeList.ofHeaders (FreeList.firstStart l) table = (l, none, []) := by
    rw [FreeList.ofHeaders, length, ← FreeList.follow_of_perm perm starts, Option.or_none]
  rw [Pool.withHeaders, read]

/-! ## Whole pools -/

/-- Every header is on the list, and the links lead upwards. -/
structure Whole (p : Pool) : Prop where
  gap : p.gap = none
  strays : p.strays = []
  order : p.entries.Pairwise fun e f => e.start < f.start

theorem nodup_of_order (order : l.Pairwise fun e f => e.start < f.start) : (l.map Entry.start).Nodup :=
  List.pairwise_map.2 (order.imp Nat.ne_of_lt)

theorem start_lt_next (order : (before ++ after).Pairwise fun e f => e.start < f.start) :
    ∀ d ∈ before, ∀ b ∈ FreeList.firstStart after, d.start < b := by
  intro d hd b hb
  obtain ⟨f, hf, rfl⟩ := Option.map_eq_some_iff.1 hb
  exact (List.pairwise_append.1 order).2.2 d hd f (List.mem_of_head? hf)

theorem Sound.whole (h : p.Sound) : p.Whole := ⟨h.gap, h.strays, h.tracked.pairwise_start_lt h.minEntry_pos⟩

theorem Whole.first?_eq (h : p.Whole) : p.first? = p.entries.firstStart := by
  rw [Pool.first?, h.gap, Option.or_none]

theorem Whole.headers_eq (h : p.Whole) : p.headers = FreeList.headers none p.entries := by
  rw [Pool.headers, h.gap, h.strays, List.append_nil]

theorem Whole.laid (h : p.Whole) : Laid p p p.entries.firstStart (FreeList.headers none p.entries) := by
  have starts := nodup_of_order h.order
  refine ⟨FreeList.map_start_headers none p.entries ▸ starts, _, .refl _, ?_⟩
  have read := FreeList.ofHeaders_headers none p.entries starts
  rw [Option.or_none] at read
  obtain ⟨gap, strays, -⟩ := h
  cases p
  cases gap
  cases strays
  rw [withHeaders, read]

theorem Laid.eq_of_whole (h : p.Whole) (laid : Laid p q (FreeList.firstStart l) (FreeList.headers none l)) :
    q = { p with entries := l } := by
  rw [laid.whole]
  obtain ⟨gap, strays, -⟩ := h
  cases p
  cases gap
  cases strays
  rfl

/-- The header of an entry leads to the next one. -/
theorem Whole.header?_of_entry (h : p.Whole) (hp : p.entries = before ++ e :: after) :
    p.header? e.start = some (e.leading (FreeList.firstStart after)) := by
  have mem : e.leading (FreeList.firstStart after) ∈ FreeList.headers none p.entries := by
    rw [hp, FreeList.headers_append_none, FreeList.headers_cons_none]
    exact List.mem_append_right _ List.mem_cons_self
  exact h.laid.header? mem

theorem Whole.header_of_entry (h : p.Whole) (hp : p.entries = before ++ e :: after) :
    p.header e.start = .ok (e.leading (FreeList.firstStart after)) := by
  rw [Pool.header, h.header?_of_entry hp]

theorem Whole.header?_eq_none (h : p.Whole) (missing : ∀ e ∈ p.entries, e.start ≠ a) : p.header? a = none := by
  refine List.find?_eq_none.2 fun g hg => ?_
  rw [h.headers_eq] at hg
  have starts := List.mem_map_of_mem (f := Header.start) hg
  rw [FreeList.map_start_headers] at starts
  obtain ⟨e, he, same⟩ := List.mem_map.1 starts
  rw [beq_iff_eq, ← same]
  exact missing e he

/-! ## Two rows -/

/-- The headers of `q` form two rows: `before`, which starts at the head of the list and leads to `next`, and
`after`. -/
def Parted (p q : Pool) (before : FreeList) (next : Option Nat) (after : FreeList) : Prop :=
  Laid p q ((FreeList.firstStart before).or next) (FreeList.headers next before ++ FreeList.headers none after)

theorem Whole.parted (h : p.Whole) (hp : p.entries = before ++ after) :
    Parted p p before (FreeList.firstStart after) after := by
  have laid := h.laid
  rw [hp, FreeList.firstStart_append, FreeList.headers_append_none] at laid
  exact laid

/-- Where the front row leads to the one behind, both are one list. -/
theorem Parted.closed (h : p.Whole) (parted : Parted p q before (FreeList.firstStart after) after) :
    q = { p with entries := before ++ after } := by
  rw [Parted, ← FreeList.firstStart_append, ← FreeList.headers_append_none] at parted
  exact parted.eq_of_whole h

theorem Parted.headerBehind (parted : Parted p q before next (e :: after)) :
    q.header e.start = .ok (e.leading (FreeList.firstStart after)) := by
  rw [Parted, FreeList.headers_cons_none] at parted
  exact parted.header (h := e.leading _) (by simp)

theorem Parted.dropBehind (parted : Parted p q before next (e :: after)) :
    Parted p (q.dropHeader e.start) before next after := by
  rw [Parted, FreeList.headers_cons_none] at parted
  exact parted.dropHeader (h := e.leading _)

theorem Parted.dropFront (parted : Parted p q (before ++ [e]) next after) :
    Parted p (q.dropHeader e.start) before (some e.start) after := by
  rw [Parted, FreeList.firstStart_concat_or, FreeList.headers_concat, List.append_assoc,
    List.singleton_append] at parted
  exact parted.dropHeader (h := e.leading _)

theorem fresh_of_order (order : (before ++ f :: after).Pairwise fun e f => e.start < f.start) :
    f.start ∉ (FreeList.headers next before ++ FreeList.headers none after).map Header.start := by
  rw [List.map_append, FreeList.map_start_headers, FreeList.map_start_headers, ← List.map_append]
  exact (List.nodup_cons.1 ((List.perm_middle.map Entry.start).nodup_iff.1 (nodup_of_order order))).1

/-- An entry of a tracked list has room up to the next one. -/
theorem room_of_tracked {m : Nat} (tracked : FreeList.Tracked m (before ++ f :: after)) :
    ∀ next ∈ FreeList.firstStart after, f.top ≤ next := by
  intro next first
  obtain ⟨d, hd, rfl⟩ := Option.map_eq_some_iff.1 first
  exact (FreeList.tracked_cons.1 (FreeList.tracked_append.1 tracked).2.1).2.1 d (List.mem_of_head? hd)

/-- A header is written in front of the row behind. -/
theorem Parted.putBehind (parted : Parted p q before next after)
    (order : (before ++ f :: after).Pairwise fun e f => e.start < f.start)
    (room : ∀ next ∈ FreeList.firstStart after, f.top ≤ next) :
    ∃ r, q.putHeader (f.leading (FreeList.firstStart after)) = .ok r ∧ Parted p r before next (f :: after) := by
  obtain ⟨r, put, laid⟩ := parted.putHeader (h := f.leading (FreeList.firstStart after))
    (fresh_of_order order) room
  rw [← FreeList.headers_cons_none] at laid
  exact ⟨r, put, laid⟩

/-- The last header of the front row is written anew, as one that leads to the row behind. -/
theorem Parted.overwriteFront (parted : Parted p q (before ++ [e]) next after) (same : f.start = e.start)
    (room : ∀ next ∈ FreeList.firstStart after, f.top ≤ next) :
    ∃ r, q.putHeader (f.leading (FreeList.firstStart after)) = .ok r ∧
      Parted p r before (some f.start) (f :: after) := by
  rw [Parted, FreeList.firstStart_concat_or, FreeList.headers_concat, List.append_assoc,
    List.singleton_append] at parted
  obtain ⟨r, put, laid⟩ := parted.overwrite (h := f.leading (FreeList.firstStart after)) same room
  rw [← same, ← FreeList.headers_cons_none] at laid
  exact ⟨r, put, laid⟩

/-- The front row is led somewhere else. -/
theorem Parted.link (parted : Parted p q before next after) {next' : Option Nat}
    (up : ∀ e ∈ before, ∀ b ∈ next', e.start < b) :
    ∃ r, q.link (FreeList.lastStart before) next' = .ok r ∧ Parted p r before next' after :=
  Laid.link parted up

/-- The front row is led to the row behind. -/
theorem Parted.join (h : p.Whole) (parted : Parted p q before next after)
    (order : (before ++ after).Pairwise fun e f => e.start < f.start) :
    q.link (FreeList.lastStart before) (FreeList.firstStart after) = .ok { p with entries := before ++ after } := by
  obtain ⟨r, done, parted⟩ := parted.link (start_lt_next order)
  rw [done, parted.closed h]

/-- An entry is cut out by leading the one in front of it past it. -/
theorem Whole.unlink_entry (h : p.Whole) (hp : p.entries = before ++ e :: after) :
    (p.dropHeader e.start).link (FreeList.lastStart before) (FreeList.firstStart after) =
      .ok { p with entries := before ++ after } :=
  (h.parted hp).dropBehind.join h ((hp ▸ h.order).sublist ((List.sublist_cons_self ..).append_left _))

/-- Another entry takes its place by leading the one in front to it. -/
theorem Whole.replace_entry (h : p.Whole) (hp : p.entries = before ++ e :: after)
    (order : (before ++ f :: after).Pairwise fun e f => e.start < f.start)
    (room : ∀ next ∈ FreeList.firstStart after, f.top ≤ next) :
    (do
      let q ← (p.dropHeader e.start).putHeader (f.leading (FreeList.firstStart after))
      q.link (FreeList.lastStart before) (some f.start)) =
      .ok { p with entries := before ++ f :: after } := by
  obtain ⟨q, put, parted⟩ := (h.parted hp).dropBehind.putBehind order room
  rw [put, ok_bind]
  exact parted.join h order

end Pool

end FreeStore
