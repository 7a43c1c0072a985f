import FreeStore.Proofs.Batch
import FreeStore.Proofs.LinkedInsertion
/-!
Batches by way of the headers.

The headers of a batch are written as a row of their own (`putBatch`). A walk finds the entry in front of the row, and
then links are turned at its ends only: the last header of the row is led to where the list goes on, the entry in
front, or the head of the list, to the first one. Where the two touch, one header takes in the other (`absorb`). What
the headers spell afterwards is the list with the batch in its gap (`addHeaders_eq`). This is so for whatever comes in
(`deliverHeaders_eq`).
-/
namespace FreeStore.Pool

variable {p q : Pool} {e first tail : Entry} {before batch after l : FreeList} {gap head next : Option Nat}
  {g h : Header} {hs xs ys : List Header} {ranges : List Range}

/-! ## Edits -/

/-- Write the headers of a batch, each leading to the next. -/
def putBatch (p : Pool) : FreeList → Outcome Pool
  | [] => return p
  | e :: l => do (← p.putHeader (e.leading (FreeList.firstStart l))).putBatch l

/-- Drop the header `h`, and let the one at `a` take its bytes and lead where it led. -/
def absorb (p : Pool) (a : Nat) (h : Header) : Outcome Pool := do
  let p := p.dropHeader h.start
  let size ← Word.add (← p.header a).size h.size
  p.putHeader ⟨a, size, h.next⟩

/-- Lead the row from `first` to `tail` to the head of the list, and start the list with it. -/
def leadBatch (p : Pool) (first tail : Entry) : Outcome Pool := do
  let p ← match p.first?.filter (· = tail.top) with
    | some a => do p.absorb tail.start (← p.header a)
    | none => p.setNext tail.start p.first?
  p.link none (some first.start)

/-- Put the row from `first` to `tail` between the entry at `a` and the next one. -/
def stitchBatch (p : Pool) (a : Nat) (first tail : Entry) : Outcome Pool := do
  let h ← p.header a
  let p ← p.setNext tail.start h.next
  if (← h.entry.checkedTop) = first.start then p.absorb a (← p.header first.start)
  else p.link (some a) (some first.start)

/-- Put the row from `first` to `tail` behind the entry at `previous`, or in front of the list if there is none. -/
def placeBatch (p : Pool) (first tail : Entry) : Option Nat → Outcome Pool
  | none => p.leadBatch first tail
  | some a => p.stitchBatch a first tail

/-- What `addEntries` does to the headers. -/
def addHeaders (p : Pool) (ranges : List Range) : Running Pool := do
  let batch := p.batchOf ranges
  match batch.head?, batch.getLast? with
  | some first, some tail =>
    let p ← p.putBatch batch
    let (_, previous) ← p.descend first.start
    p.placeBatch first tail previous
  | _, _ => return p

theorem Laid.putBatch (laid : Laid p q head hs) (fresh : (hs.map Header.start ++ batch.map Entry.start).Nodup)
    {m : Nat} (tracked : FreeList.Tracked m batch) :
    ∃ r, q.putBatch batch = .ok r ∧ Laid p r head (hs ++ FreeList.headers none batch) := by
  induction batch generalizing q hs with
  | nil => exact ⟨q, rfl, (List.append_nil hs).symm ▸ laid⟩
  | cons e batch ih =>
    have missing : e.start ∉ (hs ++ []).map Header.start := by
      rw [List.append_nil]
      exact fun found => (List.nodup_append.1 fresh).2.2 _ found _ List.mem_cons_self rfl
    have front : FreeList.Tracked m ([] ++ e :: batch) := tracked
    rw [← List.append_nil hs] at laid
    obtain ⟨r, put, laid⟩ := laid.putHeader (h := e.leading (FreeList.firstStart batch)) missing
      (room_of_tracked front)
    obtain ⟨r', rest, laid⟩ := ih laid (by simpa using fresh) (FreeList.tracked_cons.1 tracked).2.2
    refine ⟨r', ?_, ?_⟩
    · rw [Pool.putBatch, put]
      exact rest
    · rwa [FreeList.headers_cons_none, List.append_cons]

/-- The last link of a row is turned. -/
theorem Laid.turnLast (laid : Laid p q head (xs ++ (FreeList.headers gap (l ++ [e]) ++ ys))) (next : Option Nat) :
    ∃ r, q.setNext e.start next = .ok r ∧ Laid p r head (xs ++ (FreeList.headers next (l ++ [e]) ++ ys)) := by
  rw [FreeList.headers_concat, List.append_assoc, List.singleton_append, ← List.append_assoc] at laid ⊢
  exact laid.setNext next

theorem Laid.absorb (laid : Laid p (q.dropHeader h.start) head (xs ++ g :: ys))
    (word : g.size + h.size < wordLimit) (room : ∀ next ∈ h.next, g.start + (g.size + h.size) ≤ next) :
    ∃ r, q.absorb g.start h = .ok r ∧ Laid p r head (xs ++ ⟨g.start, g.size + h.size, h.next⟩ :: ys) := by
  obtain ⟨r, put, laid'⟩ := laid.overwrite (h := ⟨g.start, g.size + h.size, h.next⟩) rfl room
  refine ⟨r, ?_, laid'⟩
  unfold Pool.absorb
  dsimp only
  rw [laid.header (by simp), ok_bind, Word.add_bind word]
  exact put

/-! ## A batch in front of the list -/

/-- The list starts with a row that holds every header. -/
theorem Laid.lead (laid : Laid p q head (FreeList.headers none l)) (hw : p.Whole)
    (hl : FreeList.firstStart l = some first.start) :
    q.link none (some first.start) = .ok { p with entries := l } := by
  have led : Laid p (q.withHeaders (some first.start) q.headers) (some first.start) (FreeList.headers none l) :=
    laid.withHeaders laid.starts laid.headers
  rw [← hl] at led
  exact congrArg Except.ok (hl ▸ led.eq_of_whole hw)

/-- Two touching entries end as one in front of the next entry. -/
theorem room_of_touching {m : Nat} {d : Entry} (tracked : FreeList.Tracked m (before ++ d :: e :: after))
    (touch : d.top = e.start) : ∀ next ∈ FreeList.firstStart after, d.start + (d.size + e.size) ≤ next := by
  rw [List.append_cons] at tracked
  have room := room_of_tracked tracked
  rwa [Entry.top, ← touch, Entry.top, Nat.add_assoc] at room

/-- The bytes of two touching entries are a word. -/
theorem word_of_touching {m : Nat} {f : Entry} (tracked : FreeList.Tracked m (before ++ e :: f :: after))
    (touch : e.top = f.start) : e.size + f.size < wordLimit := by
  have inside := tracked.inside f (by simp)
  unfold Entry.top at touch inside
  omega

theorem leadBatch_of_apart (hw : p.Whole) (rows : Laid p q (FreeList.firstStart after)
      (FreeList.headers none (before ++ [tail]) ++ FreeList.headers none after))
    (hf : FreeList.firstStart (before ++ [tail]) = some first.start)
    (apart : (FreeList.firstStart after).filter (· = tail.top) = none) :
    q.leadBatch first tail = .ok { p with entries := before ++ [tail] ++ after } := by
  rw [← List.nil_append (_ ++ _)] at rows
  obtain ⟨r, turned, laid⟩ := rows.turnLast (FreeList.firstStart after)
  rw [List.nil_append, ← FreeList.headers_append_none] at laid
  unfold leadBatch
  rw [rows.first?, apart]
  dsimp only
  rw [turned]
  exact laid.lead hw (by rw [FreeList.firstStart_append, hf]; rfl)

theorem leadBatch_of_touching {m : Nat} (hw : p.Whole)
    (tracked : FreeList.Tracked m (before ++ tail :: e :: after))
    (rows : Laid p q (some e.start)
      (FreeList.headers none (before ++ [tail]) ++ FreeList.headers none (e :: after)))
    (hf : FreeList.firstStart (before ++ [tail]) = some first.start) (touch : tail.top = e.start) :
    q.leadBatch first tail = .ok { p with entries := before ++ ⟨tail.start, tail.size + e.size⟩ :: after } := by
  rw [FreeList.headers_cons_none] at rows
  have old := rows.header (h := e.leading (FreeList.firstStart after)) (by simp)
  have dropped := rows.dropHeader
  rw [FreeList.headers_concat, List.append_assoc, List.singleton_append] at dropped
  obtain ⟨r, absorbed, laid⟩ := dropped.absorb (word_of_touching tracked touch) (room_of_touching tracked touch)
  have row : Laid p r (some e.start)
      (FreeList.headers none (before ++ ⟨tail.start, tail.size + e.size⟩ :: after)) := by
    rw [FreeList.headers_append_none, FreeList.headers_cons_none]
    exact laid
  have found : (some e.start).filter (· = tail.top) = some e.start :=
    Option.filter_some_pos (by simpa using touch.symm)
  unfold leadBatch
  rw [rows.first?, found]
  dsimp only
  rw [old, ok_bind, absorbed]
  refine row.lead hw ?_
  rw [FreeList.firstStart_append] at hf ⊢
  exact hf

theorem leadBatch_eq {m : Nat} (hw : p.Whole) (tracked : FreeList.Tracked m (batch ++ after))
    (rows : Laid p q (FreeList.firstStart after) (FreeList.headers none batch ++ FreeList.headers none after))
    (hf : FreeList.firstStart batch = some first.start) (ht : batch.getLast? = some tail) :
    q.leadBatch first tail = .ok { p with entries := (joinEnds batch after).1 } := by
  obtain ⟨front, rfl⟩ := List.getLast?_eq_some_iff.1 ht
  unfold joinEnds
  rw [ht]
  cases after with
  | nil => exact leadBatch_of_apart hw rows hf rfl
  | cons e after =>
    dsimp only
    by_cases touch : tail.top = e.start
    · rw [if_pos touch, List.dropLast_concat]
      exact leadBatch_of_touching hw ((List.append_cons ..).symm ▸ tracked) rows hf touch
    · rw [if_neg touch]
      exact leadBatch_of_apart hw rows hf (Option.filter_some_neg (by simpa using Ne.symm touch))

/-! ## A batch behind an entry -/

/-- The header behind the front row goes into the last one of it. -/
theorem Parted.absorb {m : Nat} {d : Entry} (hw : p.Whole) (parted : Parted p q (before ++ [d]) next (e :: after))
    (tracked : FreeList.Tracked m (before ++ d :: e :: after)) (touch : d.top = e.start) :
    q.absorb d.start (e.leading (FreeList.firstStart after)) =
      .ok { p with entries := before ++ ⟨d.start, d.size + e.size⟩ :: after } := by
  have dropped := parted.dropBehind
  rw [Parted, FreeList.firstStart_concat_or, FreeList.headers_concat, List.append_assoc,
    List.singleton_append] at dropped
  obtain ⟨r, absorbed, laid⟩ := Laid.absorb (h := e.leading (FreeList.firstStart after)) dropped
    (word_of_touching tracked touch) (room_of_touching tracked touch)
  rw [← FreeList.headers_cons_none (e := ⟨d.start, d.size + e.size⟩)] at laid
  have parted : Parted p r before (some d.start) (⟨d.start, d.size + e.size⟩ :: after) := laid
  rw [absorbed]
  exact congrArg Except.ok (parted.closed hw)

theorem stitchBatch_eq {m : Nat} {d : Entry} {rest : FreeList} (hw : p.Whole) (hm : 0 < m)
    (tracked : FreeList.Tracked m (before ++ [d] ++ (first :: rest ++ after)))
    (rows : Laid p q ((FreeList.firstStart (before ++ [d])).or (FreeList.firstStart after))
      (FreeList.headers (FreeList.firstStart after) (before ++ [d]) ++
        (FreeList.headers none (first :: rest) ++ FreeList.headers none after)))
    (ht : (first :: rest).getLast? = some tail) :
    q.stitchBatch d.start first tail =
      .ok { p with entries := (joinEnds (before ++ [d]) (first :: rest)).1 ++ after } := by
  have top := tracked.inside d (by simp)
  have here : q.header d.start = .ok (d.leading (FreeList.firstStart after)) := by
    rw [FreeList.headers_concat] at rows
    exact rows.header (h := d.leading (FreeList.firstStart after)) (by simp)
  obtain ⟨front, hr⟩ := List.getLast?_eq_some_iff.1 ht
  rw [hr] at rows
  obtain ⟨r, turned, laid⟩ := rows.turnLast (FreeList.firstStart after)
  rw [← hr, ← FreeList.headers_append_none] at laid
  have parted : Parted p r (before ++ [d]) (FreeList.firstStart after) (first :: rest ++ after) := laid
  unfold stitchBatch joinEnds
  rw [here, ok_bind, turned, ok_bind, Entry.entry_leading, checkedTop_eq top, ok_bind, List.getLast?_concat]
  dsimp only
  by_cases touch : d.top = first.start
  · rw [if_pos touch, if_pos touch, parted.headerBehind, ok_bind, List.dropLast_concat, List.append_assoc]
    exact parted.absorb hw (by simpa using tracked) touch
  · rw [if_neg touch, if_neg touch, ← FreeList.lastStart_concat (l := before), List.append_assoc]
    exact parted.join hw (tracked.pairwise_start_lt hm)

/-! ## The batch -/

/-- The table with a batch as a row of its own, sorted by where the rows go. -/
theorem rows_of_batch (hw : p.Whole) {m : Nat} (hm : 0 < m) (whole : before ++ after = p.entries)
    (tracked : FreeList.Tracked m (before ++ batch ++ after)) :
    ∃ r, p.putBatch batch = .ok r ∧ r.Spells p.entries ∧
      Laid p r ((FreeList.firstStart before).or (FreeList.firstStart after))
        (FreeList.headers (FreeList.firstStart after) before ++
          (FreeList.headers none batch ++ FreeList.headers none after)) := by
  have fresh : ((FreeList.headers none p.entries).map Header.start ++ batch.map Entry.start).Nodup := by
    have order := nodup_of_order (tracked.pairwise_start_lt hm)
    rw [FreeList.map_start_headers, ← List.map_append, ← whole]
    have swap : (before ++ batch ++ after).Perm (before ++ after ++ batch) := by
      rw [List.append_assoc, List.append_assoc]
      exact List.perm_append_comm.append_left _
    exact ((swap.map Entry.start).nodup_iff).1 order
  obtain ⟨tb, -, -⟩ := FreeList.tracked_append.1 tracked
  obtain ⟨r, put, laid⟩ := hw.laid.putBatch fresh (FreeList.tracked_append.1 tb).2.1
  refine ⟨r, put, fun front e rest hp => ?_, ?_⟩
  · refine laid.header (h := e.leading (FreeList.firstStart rest)) ?_
    rw [hp, FreeList.headers_append_none, FreeList.headers_cons_none]
    simp
  · rw [← FreeList.firstStart_append, whole]
    refine laid.perm ?_
    rw [← whole, FreeList.headers_append_none, List.append_assoc]
    exact List.perm_append_comm.append_left _

theorem placeBatch_eq {m : Nat} {rest : FreeList} (hw : p.Whole) (hm : 0 < m)
    (tracked : FreeList.Tracked m (before ++ first :: rest ++ after))
    (rows : Laid p q ((FreeList.firstStart before).or (FreeList.firstStart after))
      (FreeList.headers (FreeList.firstStart after) before ++
        (FreeList.headers none (first :: rest) ++ FreeList.headers none after)))
    (ht : (first :: rest).getLast? = some tail) : q.placeBatch first tail (FreeList.lastStart before) =
      .ok { p with entries := (joinBatch before (first :: rest) after).1 } := by
  rcases before.eq_nil_or_concat with rfl | ⟨front, d, rfl⟩
  · exact leadBatch_eq hw tracked rows rfl ht
  · have inside : (front ++ [d]).isEmpty = false := by simp
    rw [List.concat_eq_append] at tracked rows ⊢
    rw [FreeList.lastStart_concat, joinBatch, inside]
    exact stitchBatch_eq hw hm (List.append_assoc .. ▸ tracked) rows ht

theorem addHeaders_eq (h : p.Sound) (hb : p.BatchFits ranges) (done : p.addEntries ranges = .ok q) :
    p.addHeaders ranges = pure { p with entries := q.entries } := by
  have ends : Ends (fun _ => True) (p.addEntries ranges) (p.BatchIn ranges) :=
    addEntries_putsIn (.inl trivial) h hb
  have entries := (ends.of_ok done).entries
  unfold addHeaders
  cases hf : p.batchOf ranges with
  | nil =>
    rw [hf] at entries
    rw [entries]
    rfl
  | cons first rest =>
    obtain ⟨tail, ht⟩ : ∃ tail, (first :: rest).getLast? = some tail := by simp [List.getLast?_cons]
    have tracked := tracked_batch h hb hf
    have whole := FreeList.below_append_upFrom first.start p.entries
    obtain ⟨r, put, spells, rows⟩ := rows_of_batch h.whole h.minEntry_pos whole tracked
    rw [hf, withBatch, List.head?_cons, Option.elim_some] at entries
    have walk := spells.descend_eq (by rw [rows.first?, ← FreeList.firstStart_append, whole]) first.start
    dsimp only
    rw [List.head?_cons, ht, put, entries]
    dsimp only
    rw [Running.liftM_ok, pure_bind, walk, pure_bind]
    exact congrArg liftM (placeBatch_eq h.whole h.minEntry_pos tracked rows ht)

/-! ## Deliveries -/

/-- What a delivery does to the headers. -/
def deliverHeaders (p : Pool) : Delivery → Running Pool
  | .expand low high coalesce => p.expandHeaders low high coalesce
  | .recycle low high => p.recycleHeaders low high
  | .add ranges => p.addHeaders ranges

/-- After a delivery the headers spell the list that it leaves, whichever way it takes in. -/
theorem deliverHeaders_eq {d : Delivery} (h : p.Sound) (hd : p.DeliveryFits d) (done : p.deliver d = .ok q) :
    p.deliverHeaders d = pure { p with entries := q.entries } := by
  cases d with
  | expand low high coalesce =>
    have fits : p.Insertable low high := hd
    rw [deliver, Word.sub_bind (Nat.le_of_lt fits.nonempty)] at done
    exact expandHeaders_eq h fits done
  | recycle low high =>
    obtain ⟨⟨r, kept⟩, recycled, answer⟩ := bind_eq_ok.1 done
    obtain rfl := Except.ok.inj answer
    exact recycleHeaders_eq h hd recycled
  | add ranges => exact addHeaders_eq h hd done

end FreeStore.Pool
