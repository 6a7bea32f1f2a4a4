import Theo.Cell.Calls
import Theo.Cell.Structure
import Theo.Ring.Outcome

set_option autoImplicit false

/-! # When an insertion aborts, and when its chunk is lost

The conditions `AbortsInsert` and `LosesInsert` on the bytes of a cell say when an insertion aborts,
and when one that returns true has not stored its chunk. Both need the insertion to overwrite, at the
end of a lap: the first where it replaces the entry directly below the top, the second where the
entries up to the top are too small together. -/

namespace Theo

open ByteMachine BucketIndex

/-! ## The state in front of an insertion -/

/-- The gap between the top and the overflow records. -/
def bodyGap (m : Mem) (slab : Nat) : Nat :=
  cacheCellSize - (topEntryOffset m (cellBodyPtr (cellAt slab).cellHeader) + sizeofCellBodyEntry +
    headerBytes m slab)

/-- An insertion of `size` bytes goes to the top, where there is room for it, a new top and a
directory entry. -/
def AddsAtTop (m : Mem) (slab size : Nat) : Prop :=
  cellBodyEntryTop m (slab + nextEntryOffset m (cellBodyPtr (cellAt slab).cellHeader)) = true ∧
    size + sizeofCellBodyEntry + sizeofCellDirEntry ≤ bodyGap m slab

/-- Where an insertion that does not go to the top overwrites. -/
def overwriteOffset (m : Mem) (slab : Nat) : Nat :=
  let next := nextEntryOffset m (cellBodyPtr (cellAt slab).cellHeader)
  if cellBodyEntryTop m (slab + next) then 0 else next

/-- The number of overflow records of offsets in front of `lo` or from `hi` on. -/
def recordsOutside (m : Mem) (slab lo hi : Nat) : Nat :=
  (overflowRecords m (cellAt slab).cellHeader).countP fun y => y.offset < lo ∨ hi ≤ y.offset

/-- The insertion aborts: the chunk is not stored, it overwrites the entry directly below the top,
which has its size, and the records of the other entries leave no room for a directory entry. -/
def AbortsInsert (m : Mem) (slab : Nat) (c : Checksum) (size : Nat) : Prop :=
  let p := overwriteOffset m slab
  let top := topEntryOffset m (cellBodyPtr (cellAt slab).cellHeader)
  c ∉ (bodyPairs m slab).map Prod.fst ∧ ¬ AddsAtTop m slab size ∧
    (entryBits m (slab + p)).size = size ∧ p + sizeofCellBodyEntry + size = top ∧
    cacheCellSize < top + sizeofCellBodyEntry + sizeofCellHeader +
      recordsOutside m slab p top * sizeofCellDirEntry + sizeofCellDirEntry

/-- The insertion loses its chunk: it overwrites entries that do not hold it all the way to the top,
and neither does the room up to the records of the entries in front of them. -/
def LosesInsert (m : Mem) (slab size : Nat) : Prop :=
  let p := overwriteOffset m slab
  let top := topEntryOffset m (cellBodyPtr (cellAt slab).cellHeader)
  ¬ AddsAtTop m slab size ∧ (entryBits m (slab + p)).size ≠ size ∧
    top < p + size + sizeofCellBodyEntry + sizeofCellDirEntry ∧
    cacheCellSize < p + sizeofCellBodyEntry + sizeofCellHeader +
      recordsOutside m slab p top * sizeofCellDirEntry +
      (size + sizeofCellBodyEntry + sizeofCellDirEntry)

section

variable {l : Limits} {slab : Nat} {s s' : Store} {r r' : Ring} {c : Checksum}
  {buffer : List UInt8} {e : Entry}

theorem CellShaped.bodyGap (h : CellShaped l s.mem slab r) :
    Theo.bodyGap s.mem slab = bodyRoom r.top r.dir := by
  obtain ⟨htop, hheader⟩ := h.rep.apart
  rw [Theo.bodyGap, htop, hheader, bodyRoom, cacheCellSize, sizeofCellBodyEntry]
  omega

/-- The entry at the cut. -/
theorem CellShaped.next_top (h : CellShaped l s.mem slab r) :
    nextEntryOffset s.mem (cellBodyPtr (cellAt slab).cellHeader) = r.next ∧
      (cellBodyEntryTop s.mem (slab + r.next) = true ↔ r.above = []) := by
  refine ⟨by rw [cellBodyPtr_cellAt, h.rep.nextOffset], ?_⟩
  have hopen := h.rep.opened h.shape.room
  cases habove : r.above with
  | nil =>
      have htop := hopen.top.top
      rw [habove, span_nil, Nat.add_zero] at htop
      exact iff_of_true htop rfl
  | cons x es =>
      have hseg := hopen.restSeg
      rw [habove] at hseg
      have htop := hseg.1.top
      rw [Nat.add_zero] at htop
      rw [Ring.next, htop]
      exact iff_of_false Bool.false_ne_true (List.cons_ne_nil x es)

theorem CellShaped.addsAtTop (h : CellShaped l s.mem slab r) (e : Entry) :
    AddsAtTop s.mem slab e.size ↔ r.above = [] ∧ r.fits e := by
  obtain ⟨hnext, htop⟩ := h.next_top
  rw [AddsAtTop, hnext, htop, h.bodyGap, Ring.fits_iff]
  refine and_congr_right fun habove => ?_
  rw [Ring.top, Ring.entries, habove, List.append_nil, Ring.next]
  exact Iff.rfl

theorem CellShaped.overwriteOffset (h : CellShaped l s.mem slab r) :
    Theo.overwriteOffset s.mem slab = r.rewind.next := by
  obtain ⟨hnext, htop⟩ := h.next_top
  rw [Theo.overwriteOffset, hnext, Ring.rewind]
  by_cases habove : r.above = []
  · simp only [htop.2 habove, if_true, if_pos habove]
    rfl
  · have hno : ¬ cellBodyEntryTop s.mem (slab + r.next) = true := fun hh => habove (htop.1 hh)
    simp only [hno, if_false, if_neg habove, Bool.false_eq_true]

/-- The cell with the cut where an insertion overwrites. -/
theorem CellShaped.overwritten (h : CellShaped l s.mem slab r) {x : Entry} {es : List Entry}
    (habove : r.rewind.above = x :: es) :
    (entryBits s.mem (slab + Theo.overwriteOffset s.mem slab)).size = x.size := by
  have hsplit : r.entries = r.rewind.below ++ x :: es := by
    rw [← Ring.rewind_entries, Ring.entries, habove]
  have hbody := h.rep.body
  rw [hsplit, seg_append] at hbody
  rw [h.overwriteOffset, Ring.next, hbody.2.1.bits]

theorem CellRep.recordsOutside (h : CellRep s.mem slab r) (lo hi : Nat) :
    Theo.recordsOutside s.mem slab lo hi = recordsBeside r.dir lo hi := by
  have hrecords := h.header.overflowRecords
  rw [Theo.recordsOutside, recordsBeside, show (cellAt slab).cellHeader = slab + 1019872 by rw [cellAt],
    hrecords, List.countP_reverse]

/-! ## Aborts -/

theorem CellHolds.abortsInsert (h : CellHolds l s.mem slab r) (he : e.IsChunk l) :
    AbortsInsert s.mem slab e.checksum e.size ↔
      r.lookup e.checksum = none ∧ r.add e = none := by
  obtain ⟨htop, -⟩ := h.rep.apart
  rw [AbortsInsert, h.keys, Ne, Decidable.not_not, h.inv.add_eq_none he, h.shaped.addsAtTop, htop]
  refine and_congr_right fun _ => and_congr_right fun hno => ?_
  obtain ⟨x, es, habove⟩ := List.exists_cons_of_ne_nil (h.inv.rewind_above_ne he.isBuffer hno)
  have htop' : r.top = r.rewind.next + (x.size + 36) + span es := by
    rw [Ring.top, ← Ring.rewind_entries, Ring.entries, habove, span_append, span_cons, Entry.span,
      ← Nat.add_assoc]
    rfl
  have htops : r.rewind.top = r.top := by rw [Ring.top, Ring.rewind_entries, Ring.top]
  rw [h.shaped.overwritten habove, h.rep.recordsOutside, h.shaped.overwriteOffset, Ring.Aborts,
    habove, htops,
    Ring.rewind_dir]
  simp only [sizeofCellBodyEntry, sizeofCellHeader, sizeofCellDirEntry, cacheCellSize]
  constructor
  · rintro ⟨hsize, hbelow, hfull⟩
    have hnil : es = [] := by
      have := length_le_span es
      exact List.eq_nil_of_length_eq_zero (by omega)
    subst hnil
    rw [span_nil, Nat.add_zero] at htop'
    refine ⟨x, rfl, hsize, ?_⟩
    rw [Entry.span, ← htop']
    omega
  · rintro ⟨x', hx', hsize, hfull⟩
    rw [List.cons.injEq] at hx'
    obtain ⟨rfl, rfl⟩ := hx'
    rw [span_nil, Nat.add_zero] at htop'
    rw [Entry.span, ← htop'] at hfull
    exact ⟨hsize, by omega, by omega⟩

/-- Insertions one after the other. -/
def addChunks (cell : Cell) : List (Checksum × List UInt8) → Act Unit
  | [] => pure ()
  | (checksum, buffer) :: rest => do
      let _ ← cellAddChunk cell checksum buffer
      addChunks cell rest

theorem addChunks_append (cell : Cell) (xs ys : List (Checksum × List UInt8)) (s : Store) :
    addChunks cell (xs ++ ys) s = (addChunks cell xs >>= fun _ => addChunks cell ys) s := by
  induction xs generalizing s with
  | nil => rfl
  | cons add xs ih =>
      rw [List.cons_append, addChunks, addChunks, bind_assoc]
      cases hadd : cellAddChunk cell add.1 add.2 s with
      | ok added s' => rw [bind_ok hadd, bind_ok hadd, ih]
      | error e s' => rw [bind_error hadd, bind_error hadd]

theorem addChunks_cons {added : Bool} (hadd : cellAddChunk (cellAt slab) c buffer s = .ok added s')
    (adds : List (Checksum × List UInt8)) :
    addChunks (cellAt slab) ((c, buffer) :: adds) s = addChunks (cellAt slab) adds s' := by
  rw [addChunks, bind_ok hadd]

/-- What holds in front of each insertion holds in front of the first and of each that follows. -/
theorem before_addChunks_cons {added : Bool} {P : Store → Checksum → List UInt8 → Prop}
    (hadd : cellAddChunk (cellAt slab) c buffer s = .ok added s')
    (rest : List (Checksum × List UInt8)) :
    (∀ pre c' buffer' post s₁, (c, buffer) :: rest = pre ++ (c', buffer') :: post →
      addChunks (cellAt slab) pre s = .ok () s₁ → P s₁ c' buffer') ↔
    P s c buffer ∧ ∀ pre c' buffer' post s₁, rest = pre ++ (c', buffer') :: post →
      addChunks (cellAt slab) pre s' = .ok () s₁ → P s₁ c' buffer' := by
  constructor
  · intro hall
    refine ⟨hall [] c buffer rest s rfl rfl, fun pre c' buffer' post s₁ hsplit hpre => ?_⟩
    exact hall ((c, buffer) :: pre) c' buffer' post s₁ (by rw [hsplit, List.cons_append])
      (by rw [addChunks_cons hadd, hpre])
  · rintro ⟨hfirst, hrest⟩ pre c' buffer' post s₁ hsplit hpre
    cases pre with
    | nil =>
        rw [List.nil_append, List.cons.injEq, Prod.mk.injEq] at hsplit
        obtain ⟨⟨rfl, rfl⟩, -⟩ := hsplit
        rw [addChunks, pure_run, EStateM.Result.ok.injEq] at hpre
        rw [← hpre.2]
        exact hfirst
    | cons add pre =>
        rw [List.cons_append, List.cons.injEq] at hsplit
        obtain ⟨rfl, hsplit⟩ := hsplit
        rw [addChunks_cons hadd] at hpre
        exact hrest pre c' buffer' post s₁ hsplit hpre

/-- What holds behind each part of a sequence of insertions holds at the start and behind each part
of the rest. -/
theorem along_addChunks_cons {added : Bool} {P : Store → Prop}
    (hadd : cellAddChunk (cellAt slab) c buffer s = .ok added s')
    (rest : List (Checksum × List UInt8)) :
    (∀ pre post s₁, (c, buffer) :: rest = pre ++ post →
      addChunks (cellAt slab) pre s = .ok () s₁ → P s₁) ↔
    P s ∧ ∀ pre post s₁, rest = pre ++ post → addChunks (cellAt slab) pre s' = .ok () s₁ → P s₁ := by
  constructor
  · intro hall
    refine ⟨hall [] _ s rfl rfl, fun pre post s₁ hsplit hpre => ?_⟩
    exact hall ((c, buffer) :: pre) post s₁ (by rw [hsplit, List.cons_append])
      (by rw [addChunks_cons hadd, hpre])
  · rintro ⟨hfirst, hrest⟩ pre post s₁ hsplit hpre
    cases pre with
    | nil =>
        rw [addChunks, pure_run, EStateM.Result.ok.injEq] at hpre
        rw [← hpre.2]
        exact hfirst
    | cons add pre =>
        rw [List.cons_append, List.cons.injEq] at hsplit
        obtain ⟨rfl, hsplit⟩ := hsplit
        rw [addChunks_cons hadd] at hpre
        exact hrest pre post s₁ hsplit hpre

/-- What has a size that a chunker emits. -/
def EmittedSize (buffer : List UInt8) : Prop := 2049 ≤ buffer.length ∧ buffer.length ≤ 24576

/-- Insertions of buffers of given sizes into a ring, as long as none aborts. -/
def Ring.insertSizes (r : Ring) : List (Checksum × Nat) → Option Ring
  | [] => some r
  | (c, size) :: rest =>
      match r.lookup c with
      | some _ => r.insertSizes rest
      | none => (r.add (Entry.chunk c size (someBytes size))).bind fun r' => r'.insertSizes rest

/-- The buffers of the given sizes. -/
def withBytes (sizes : List (Checksum × Nat)) : List (Checksum × List UInt8) :=
  sizes.map fun add => (add.1, someBytes add.2)

/-- An insertion of `size` bytes that does not abort on the ring. -/
theorem CellHolds.addSize {size : Nat} (h : CellHolds chunkerLimits s.mem slab r)
    (hsize : 2049 ≤ size ∧ size ≤ 24576) (hfresh : r.lookup c = none)
    (hadd : r.add (Entry.chunk c size (someBytes size)) = some r') : ∃ s₁,
      cellAddChunk (cellAt slab) c (someBytes size) s = .ok true (left s₁ slab) ∧
      CellHolds chunkerLimits (left s₁ slab).mem slab r' ∧
      Emits (AddEvent slab (Boundary slab r) r'.top r'.dir.stack.length) (entered s slab) s₁ := by
  have hlength := someBytes_length size
  have hchunk : Entry.chunk c size (someBytes size) = chunkOf c (someBytes size) := by
    rw [chunkOf, hlength]
  rw [hchunk] at hadd
  exact h.addNew (by rw [hlength]; exact hsize.1) (by rw [hlength]; exact hsize.2) hfresh hadd

/-- Insertions that do not abort on the ring do not on the cell. -/
theorem addChunks_insertSizes {sizes : List (Checksum × Nat)} (hs : Reachable 2049 24576 slab s)
    (h : CellHolds chunkerLimits s.mem slab r)
    (hsizes : ∀ add ∈ sizes, 2049 ≤ add.2 ∧ add.2 ≤ 24576) (hrun : r.insertSizes sizes = some r') :
    ∃ s', addChunks (cellAt slab) (withBytes sizes) s = .ok () s' ∧
      CellHolds chunkerLimits s'.mem slab r' ∧ Reachable 2049 24576 slab s' := by
  induction sizes generalizing s r with
  | nil =>
      rw [Ring.insertSizes, Option.some.injEq] at hrun
      subst hrun
      exact ⟨s, rfl, h, hs⟩
  | cons add rest ih =>
      obtain ⟨c, size⟩ := add
      have hsize := hsizes _ List.mem_cons_self
      have hrest : ∀ add ∈ rest, 2049 ≤ add.2 ∧ add.2 ≤ 24576 :=
        fun add hadd => hsizes add (List.mem_cons_of_mem _ hadd)
      have hlength := someBytes_length size
      rw [Ring.insertSizes] at hrun
      rw [withBytes, List.map_cons, ← withBytes]
      cases hlookup : r.lookup c with
      | some data =>
          rw [hlookup] at hrun
          have hfound : r.dir.find c ≠ none := by
            rw [Ne, h.inv.find_eq_none, hlookup]
            exact Option.some_ne_none data
          rw [addChunks_cons (cellAddChunk_found h.shaped hfound _)]
          exact ih hs h hrest hrun
      | none =>
          rw [hlookup] at hrun
          obtain ⟨r₁, hadd, hmore⟩ := Option.bind_eq_some_iff.1 hrun
          obtain ⟨s₁, hcall, hholds, -⟩ := h.addSize hsize hlookup hadd
          rw [addChunks_cons hcall]
          exact ih (hs.add (by rw [hlength]; exact hsize.1) (by rw [hlength]; exact hsize.2) hcall)
            hholds hrest hmore

/-- Insertions of sizes that a chunker emits lead from reachable cells to reachable cells. -/
theorem Reachable.addChunks {adds : List (Checksum × List UInt8)} (h : Reachable 2049 24576 slab s)
    (hsize : ∀ add ∈ adds, EmittedSize add.2)
    (hrun : Theo.addChunks (cellAt slab) adds s = .ok () s') : Reachable 2049 24576 slab s' := by
  induction adds generalizing s with
  | nil =>
      rw [Theo.addChunks, pure_run, EStateM.Result.ok.injEq] at hrun
      exact hrun.2 ▸ h
  | cons add rest ih =>
      obtain ⟨c, buffer⟩ := add
      obtain ⟨hlo, hhi⟩ := hsize _ List.mem_cons_self
      cases hadd : cellAddChunk (cellAt slab) c buffer s with
      | error e s₁ =>
          rw [Theo.addChunks, bind_error hadd] at hrun
          cases hrun
      | ok added s₁ =>
          rw [addChunks_cons hadd] at hrun
          exact ih (h.add hlo hhi hadd) (fun add hadd => hsize add (List.mem_cons_of_mem _ hadd)) hrun

theorem withBytes_sized {sizes : List (Checksum × Nat)}
    (hsizes : ∀ add ∈ sizes, 2049 ≤ add.2 ∧ add.2 ≤ 24576) :
    ∀ add ∈ withBytes sizes, EmittedSize add.2 := by
  intro add hadd
  obtain ⟨x, hx, rfl⟩ := List.mem_map.1 hadd
  rw [EmittedSize, someBytes_length]
  exact hsizes x hx

/-- Whether one insertion aborts. -/
theorem cellAddChunk_always_iff (h : CellHolds chunkerLimits s.mem slab r) (c : Checksum)
    (hsize : EmittedSize buffer) :
    (∃ s', cellAddChunk (cellAt slab) c buffer s = .error .always s') ↔
      AbortsInsert s.mem slab c buffer.length := by
  have haborts : AbortsInsert s.mem slab c buffer.length ↔
      r.lookup c = none ∧ r.add (chunkOf c buffer) = none :=
    h.abortsInsert (chunkOf_isChunk c hsize.1 hsize.2)
  rw [haborts]
  rcases chunker_cases (c := c) h hsize.1 hsize.2 with ⟨hstored, hrun⟩ |
      ⟨hfresh, r', s₁, hadd, hrun, -⟩ | ⟨hfresh, hadd, s₁, hrun, -⟩
  · refine iff_of_false ?_ fun hh => hstored hh.1
    rintro ⟨s', hs'⟩
    rw [hrun] at hs'
    cases hs'
  · refine iff_of_false ?_ fun hh => ?_
    · rintro ⟨s', hs'⟩
      rw [hrun] at hs'
      cases hs'
    · rw [hadd] at hh
      cases hh.2
  · exact iff_of_true ⟨s₁, hrun⟩ ⟨hfresh, hadd⟩

theorem addChunks_always_iff {adds : List (Checksum × List UInt8)}
    (h : CellHolds chunkerLimits s.mem slab r) (hsize : ∀ add ∈ adds, EmittedSize add.2) :
    (∀ s', addChunks (cellAt slab) adds s ≠ .error .always s') ↔
      ∀ pre c buffer post s₁, adds = pre ++ (c, buffer) :: post →
        addChunks (cellAt slab) pre s = .ok () s₁ → ¬ AbortsInsert s₁.mem slab c buffer.length := by
  induction adds generalizing s r with
  | nil =>
      refine iff_of_true (fun s' hs' => by cases hs') fun pre c buffer post s₁ hsplit => ?_
      simp at hsplit
  | cons add rest ih =>
      obtain ⟨c, buffer⟩ := add
      have hone := hsize _ List.mem_cons_self
      have hiff := cellAddChunk_always_iff h c hone
      rcases cellAddChunk_refines h (c := c) hone.1 hone.2 with ⟨s₁, -, hrun, -⟩ |
          ⟨added, r', s₁, -, hrun, hholds, -⟩
      · -- the first insertion aborts
        refine iff_of_false (fun hno => hno s₁ ?_) fun hno => ?_
        · rw [addChunks, bind_error hrun]
        · exact hno [] c buffer rest s rfl rfl (hiff.1 ⟨s₁, hrun⟩)
      · have hgoes : ¬ AbortsInsert s.mem slab c buffer.length := by
          rw [← hiff]
          rintro ⟨s', hs'⟩
          rw [hrun] at hs'
          cases hs'
        rw [addChunks_cons hrun, ih hholds fun add hadd => hsize add (List.mem_cons_of_mem _ hadd),
          before_addChunks_cons (P := fun s c buffer => ¬ AbortsInsert s.mem slab c buffer.length) hrun,
          and_iff_right hgoes]

/-- Insertions into a new cell run into no failed assertion exactly if none of them meets a cell
where it aborts. -/
theorem addChunks_safe_iff {s₀ : Store} (hz : s₀.mem.Zero slab (slab + cacheCellSize))
    (hinit : cellInit slab cacheCellSize s₀ = .ok (cellAt slab) s)
    {adds : List (Checksum × List UInt8)} (hsize : ∀ add ∈ adds, EmittedSize add.2) :
    (∀ s', addChunks (cellAt slab) adds s ≠ .error .always s') ↔
      ∀ pre c buffer post s₁, adds = pre ++ (c, buffer) :: post →
        addChunks (cellAt slab) pre s = .ok () s₁ →
          ¬ AbortsInsert s₁.mem slab c buffer.length := by
  obtain ⟨s₁, hrun, -, -, -, hholds⟩ := cellInit_insane slab chunkerLimits (cellHeaderSane_zero hz)
  rw [hrun, EStateM.Result.ok.injEq] at hinit
  rw [hinit.2] at hholds
  exact addChunks_always_iff hholds hsize

/-- Checksum number `i` of block `b`. -/
def Checksum.numbered (b : UInt8) (i : Nat) : Checksum :=
  ⟨UInt8.ofNat i :: List.replicate 16 0 ++ b :: List.replicate 14 0, rfl⟩

/-- `n` chunks of 24576 bytes, numbered from `i` on, each in a block of its own. -/
def lapOfChunks (i n : Nat) : List (Checksum × Nat) :=
  (List.range n).map fun k => (.numbered (UInt8.ofNat (i + k)) (i + k), 24576)

/-- A new cell on which insertions of the given sizes do not abort. -/
theorem reachable_sizes {sizes : List (Checksum × Nat)}
    (hsizes : ∀ add ∈ sizes, 2049 ≤ add.2 ∧ add.2 ≤ 24576)
    (hrun : Ring.empty.insertSizes sizes = some r) : ∃ s s',
      cellInit 0 cacheCellSize zeroed = .ok (cellAt 0) s ∧
      addChunks (cellAt 0) (withBytes sizes) s = .ok () s' ∧
      CellHolds chunkerLimits s'.mem 0 r ∧ Reachable 2049 24576 0 s' := by
  obtain ⟨s₁, hinit, -, -, -, hholds⟩ := cellInit_insane 0 chunkerLimits
    (cellHeaderSane_zero (zeroed_zero _ _))
  obtain ⟨s', hadds, hholds', hs'⟩ :=
    addChunks_insertSizes (.init (zeroed_zero _ _) hinit) hholds hsizes hrun
  exact ⟨_, s', hinit, hadds, hholds', hs'⟩

/-- 12 small chunks, of which the first five share a block, so that two of them overflow, and 40 large
ones up to the end of the body. -/
def lapWithOverflow : List (Checksum × Nat) :=
  ((List.range 12).map fun k => (.numbered (if k < 5 then 200 else UInt8.ofNat k) k, 2049)) ++
    (List.range 40).map fun k => (.numbered (UInt8.ofNat (12 + k)) (12 + k), 24576)

def ringWithOverflow : Ring := (Ring.empty.insertSizes lapWithOverflow).getD Ring.empty

/-- One more large chunk takes the place of the small ones. -/
def ringOverwritten : Ring :=
  (ringWithOverflow.add (Entry.chunk (.numbered 52 52) 24576 (someBytes 24576))).getD Ring.empty

theorem insertSizes_overflow : Ring.empty.insertSizes lapWithOverflow = some ringWithOverflow := by
  have hsome : (Ring.empty.insertSizes lapWithOverflow).isSome = true := by decide +kernel
  obtain ⟨r, hr⟩ := Option.isSome_iff_exists.1 hsome
  rw [ringWithOverflow, hr, Option.getD_some]

theorem add_overflow : ringWithOverflow.lookup (.numbered 52 52) = none ∧
    ringWithOverflow.add (Entry.chunk (.numbered 52 52) 24576 (someBytes 24576)) =
      some ringOverwritten := by
  have hsome : (ringWithOverflow.add
      (Entry.chunk (.numbered 52 52) 24576 (someBytes 24576))).isSome = true := by decide +kernel
  obtain ⟨r, hr⟩ := Option.isSome_iff_exists.1 hsome
  exact ⟨by decide +kernel, by rw [ringOverwritten, hr, Option.getD_some]⟩

/-- The insertion into a cell with the small chunks and the large ones. -/
theorem overwrite_many : ∃ s₀ s s₁, cellInit 0 cacheCellSize zeroed = .ok (cellAt 0) s₀ ∧
    addChunks (cellAt 0) (withBytes lapWithOverflow) s₀ = .ok () s ∧ Reachable 2049 24576 0 s ∧
    CellHolds chunkerLimits s.mem 0 ringWithOverflow ∧
    cellAddChunk (cellAt 0) (.numbered 52 52) (someBytes 24576) s = .ok true (left s₁ 0) ∧
    CellHolds chunkerLimits (left s₁ 0).mem 0 ringOverwritten ∧
    Emits (AddEvent 0 (Boundary 0 ringWithOverflow) ringOverwritten.top
      ringOverwritten.dir.stack.length) (entered s 0) s₁ := by
  obtain ⟨s₀, s, hinit, hadds, hholds, hs⟩ := reachable_sizes (by decide) insertSizes_overflow
  obtain ⟨hfresh, hadd⟩ := add_overflow
  obtain ⟨s₁, hrun, hholds', hemits⟩ := hholds.addSize (by decide) hfresh hadd
  exact ⟨s₀, s, s₁, hinit, hadds, hs, hholds, hrun, hholds', hemits⟩

/-- 42 chunks that leave room for one directory entry, and 41 more in the place of all but the last
of them. Four of these share a block, so that one of them needs the room. -/
def lapWithFullGap : List (Checksum × Nat) :=
  lapOfChunks 0 41 ++ (.numbered 41 41, 10672) ::
    (List.range 41).map fun k =>
      (.numbered (if k < 3 ∨ k = 40 then 200 else UInt8.ofNat (42 + k)) (42 + k), 24576)

/-- Replacing the last of them aborts. -/
theorem addChunks_aborts : ∃ s adds s', cellInit 0 cacheCellSize zeroed = .ok (cellAt 0) s ∧
    (∀ add ∈ adds, EmittedSize add.2) ∧ addChunks (cellAt 0) adds s = .error .always s' := by
  have hring : ((Ring.empty.insertSizes lapWithFullGap).map fun r =>
      (r.lookup (.numbered 83 83)).isNone &&
        (r.add (Entry.chunk (.numbered 83 83) 10672 (someBytes 10672))).isNone) = some true := by
    decide +kernel
  obtain ⟨r, hr, hlast⟩ := Option.map_eq_some_iff.1 hring
  rw [Bool.and_eq_true, Option.isNone_iff_eq_none, Option.isNone_iff_eq_none] at hlast
  have hsizes : ∀ add ∈ lapWithFullGap, 2049 ≤ add.2 ∧ add.2 ≤ 24576 := by decide
  obtain ⟨s, s₁, hinit, hadds, hholds, -⟩ := reachable_sizes hsizes hr
  have hlength := someBytes_length 10672
  have hsize : EmittedSize (someBytes 10672) := by
    rw [EmittedSize, hlength]
    decide
  have hchunk : chunkOf (.numbered 83 83) (someBytes 10672) =
      Entry.chunk (.numbered 83 83) 10672 (someBytes 10672) := by rw [chunkOf, hlength]
  have he : (chunkOf (.numbered 83 83) (someBytes 10672)).IsChunk chunkerLimits :=
    chunkOf_isChunk _ hsize.1 hsize.2
  have hmeets : AbortsInsert s₁.mem 0 (.numbered 83 83) (someBytes 10672).length :=
    (hholds.abortsInsert he).2 (by rw [hchunk]; exact hlast)
  obtain ⟨s₂, habort⟩ := (cellAddChunk_always_iff hholds (.numbered 83 83) hsize).2 hmeets
  refine ⟨s, withBytes lapWithFullGap ++ [(.numbered 83 83, someBytes 10672)], s₂, hinit, ?_, ?_⟩
  · intro add hadd
    rcases List.mem_append.1 hadd with hadd | hadd
    · exact withBytes_sized hsizes add hadd
    · rw [List.mem_singleton.1 hadd, EmittedSize, someBytes_length]
      decide
  · rw [addChunks_append, bind_ok hadds, addChunks, bind_error habort]

/-- A lap, and an insertion that overwrites twelve chunks of it. -/
theorem addChunks_safe_overwriting : ∃ s s' adds, cellInit 0 cacheCellSize zeroed = .ok (cellAt 0) s ∧
    adds = withBytes (lapWithOverflow ++ [(.numbered 52 52, 24576)]) ∧
    addChunks (cellAt 0) adds s = .ok () s' ∧
    ∀ pre c buffer post s₁, adds = pre ++ (c, buffer) :: post →
      addChunks (cellAt 0) pre s = .ok () s₁ → ¬ AbortsInsert s₁.mem 0 c buffer.length := by
  obtain ⟨s₀, s, s₁, hinit, hadds, -, -, hadd, -⟩ := overwrite_many
  have hrun : addChunks (cellAt 0) (withBytes (lapWithOverflow ++ [(.numbered 52 52, 24576)])) s₀ =
      .ok () (left s₁ 0) := by
    rw [withBytes, List.map_append, ← withBytes, addChunks_append, bind_ok hadds]
    exact addChunks_cons hadd []
  refine ⟨s₀, _, _, hinit, rfl, hrun,
    (addChunks_safe_iff (zeroed_zero _ _) hinit (withBytes_sized (by decide))).1 fun s' habort => ?_⟩
  rw [hrun] at habort
  cases habort

/-! ## Lost chunks -/

theorem CellHolds.losesInsert (h : CellHolds l s.mem slab r) (he : e.IsChunk l) :
    LosesInsert s.mem slab e.size ↔ ¬(r.above = [] ∧ r.fits e) ∧ r.rewind.Lost e := by
  obtain ⟨htop, -⟩ := h.rep.apart
  rw [LosesInsert, h.shaped.addsAtTop, htop]
  refine and_congr_right fun hno => ?_
  obtain ⟨x, es, habove⟩ := List.exists_cons_of_ne_nil (h.inv.rewind_above_ne he.isBuffer hno)
  have htops : r.rewind.top = r.top := by rw [Ring.top, Ring.rewind_entries, Ring.top]
  rw [h.shaped.overwritten habove, h.rep.recordsOutside, h.shaped.overwriteOffset, Ring.Lost,
    habove, htops,
    Ring.rewind_dir]
  simp only [sizeofCellBodyEntry, sizeofCellHeader, sizeofCellDirEntry, cacheCellSize]
  constructor
  · rintro ⟨hsize, hshort, hfull⟩
    exact ⟨x, es, rfl, hsize, by omega, by omega⟩
  · rintro ⟨x', es', hx', hsize, hshort, hfull⟩
    rw [List.cons.injEq] at hx'
    exact ⟨hx'.1 ▸ hsize, by omega, by omega⟩

/-- The chunk is there: both look-ups find it, with exactly the bytes given. -/
def Stored (slab : Nat) (c : Checksum) (buffer : List UInt8) (s : Store) : Prop :=
  cellHasChunk (cellAt slab) c s = .ok true s ∧
    ∀ chunk, cellGetChunk (cellAt slab) c chunk s =
      .ok (true, ⟨c, buffer ++ chunk.buffer.drop buffer.length, buffer.length⟩) s

theorem CellHolds.stored_iff (h : CellHolds l s.mem slab r) :
    Stored slab c buffer s ↔ r.lookup c = some buffer := by
  constructor
  · rintro ⟨-, hget⟩
    have hchunk := hget ⟨c, [], 0⟩
    rw [cellGetChunk_run h, EStateM.Result.ok.injEq] at hchunk
    cases hlookup : r.lookup c with
    | none =>
        rw [hlookup] at hchunk
        exact absurd (congrArg Prod.fst hchunk.1) Bool.false_ne_true
    | some data =>
        rw [hlookup] at hchunk
        have hbuffer := congrArg (fun out => out.2.buffer) hchunk.1
        simp only [fetched, List.drop_nil, List.append_nil] at hbuffer
        rw [hbuffer]
  · intro hlookup
    refine ⟨by rw [cellHasChunk_run h, hlookup]; rfl, fun chunk => ?_⟩
    rw [cellGetChunk_run h, hlookup]
    rfl

/-- A chunk that is found behind its insertion is stored. -/
theorem CellHolds.stored_added (h : CellHolds chunkerLimits s.mem slab r)
    (h' : CellHolds chunkerLimits s'.mem slab r') (hfresh : r.lookup c = none)
    (hadd : r.add (chunkOf c buffer) = some r') (hsome : r'.lookup c ≠ none) :
    Stored slab c buffer s' := by
  obtain ⟨data, hdata⟩ := Option.ne_none_iff_exists'.1 hsome
  rw [h'.stored_iff]
  rcases h.inv.lookup_add h'.inv (Ring.lookup_eq_none.1 hfresh) hadd hdata with ⟨-, rfl⟩ | ⟨hne, -⟩
  · exact hdata
  · exact absurd rfl hne

/-- An insertion that returns true has stored its chunk unless it loses it. -/
theorem added_stored_iff (h : Reachable 2049 24576 slab s) (hlo : 2049 ≤ buffer.length)
    (hhi : buffer.length ≤ 24576) (hrun : cellAddChunk (cellAt slab) c buffer s = .ok true s') :
    Stored slab c buffer s' ↔ ¬ LosesInsert s.mem slab buffer.length := by
  obtain ⟨r, hr⟩ := h.holds
  have he := chunkOf_isChunk (l := chunkerLimits) c hlo hhi
  have hloses := hr.losesInsert he
  obtain ⟨hfresh, r', hadd, hholds⟩ := cellAddChunk_added hr hlo hhi hrun
  rw [show buffer.length = (chunkOf c buffer).size from rfl, hloses,
    ← hr.inv.add_fresh he hfresh hadd, ← Ring.lookup_eq_none]
  refine ⟨fun hstored hnone => ?_,
    hr.stored_added hholds (Ring.lookup_eq_none.2 hfresh) hadd⟩
  rw [show (chunkOf c buffer).checksum = c from rfl, hholds.stored_iff.1 hstored] at hnone
  cases hnone

theorem CellHolds.stored_overwriting (h : CellHolds chunkerLimits s.mem slab ringWithOverflow)
    (h' : CellHolds chunkerLimits s'.mem slab ringOverwritten) :
    Stored slab (.numbered 52 52) (someBytes 24576) s' := by
  obtain ⟨hfresh, hadd⟩ := add_overflow
  have hthere : (ringOverwritten.lookup (.numbered 52 52)).isSome = true := by decide +kernel
  refine h.stored_added h' hfresh (by rw [chunkOf, someBytes_length, hadd]) ?_
  rw [← Option.isSome_iff_ne_none, hthere]

/-- 41 chunks and a small one, and 41 more in the place of all but the small one. -/
def lapWithSmallRest : List (Checksum × Nat) :=
  lapOfChunks 0 41 ++ (.numbered 41 41, 2049) :: lapOfChunks 42 41

/-- The small one is all there is up to the top, and less than the next chunk needs. -/
theorem added_lost : ∃ s c buffer s', Reachable 2049 24576 0 s ∧
    2049 ≤ buffer.length ∧ buffer.length ≤ 24576 ∧
    cellAddChunk (cellAt 0) c buffer s = .ok true s' ∧
    cellHasChunk (cellAt 0) c s' = .ok false s' := by
  have hring : ((Ring.empty.insertSizes lapWithSmallRest).map fun r =>
      (r.lookup (.numbered 83 83)).isNone &&
        ((r.add (Entry.chunk (.numbered 83 83) 24576 (someBytes 24576))).map fun r' =>
          (r'.lookup (.numbered 83 83)).isNone) == some true) = some true := by
    decide +kernel
  obtain ⟨r, hr, hlast⟩ := Option.map_eq_some_iff.1 hring
  rw [Bool.and_eq_true, Option.isNone_iff_eq_none, beq_iff_eq, Option.map_eq_some_iff] at hlast
  obtain ⟨hfresh, r', hadd, hlost⟩ := hlast
  rw [Option.isNone_iff_eq_none] at hlost
  obtain ⟨-, s, -, -, hholds, hs⟩ := reachable_sizes (by decide) hr
  obtain ⟨s₁, hrun, hholds', -⟩ := hholds.addSize (by decide) hfresh hadd
  obtain ⟨hlo, hhi⟩ := someBytes_largest
  refine ⟨s, .numbered 83 83, someBytes 24576, _, hs, hlo, hhi, hrun, ?_⟩
  rw [cellHasChunk_run hholds', hlost]
  rfl

/-- An insertion that overwrites twelve chunks, and stores its own. -/
theorem added_stored_overwriting : ∃ s s', Reachable 2049 24576 0 s ∧
    cellHasChunk (cellAt 0) (.numbered 200 0) s = .ok true s ∧
    cellAddChunk (cellAt 0) (.numbered 52 52) (someBytes 24576) s = .ok true s' ∧
    cellHasChunk (cellAt 0) (.numbered 200 0) s' = .ok false s' ∧
    Stored 0 (.numbered 52 52) (someBytes 24576) s' ∧
    ¬ LosesInsert s.mem 0 (someBytes 24576).length := by
  obtain ⟨-, s, s₁, -, -, hs, hholds, hrun, hholds', -⟩ := overwrite_many
  obtain ⟨hlo, hhi⟩ := someBytes_largest
  have hbefore : (ringWithOverflow.lookup (.numbered 200 0)).isSome = true := by decide +kernel
  have hafter : ringOverwritten.lookup (.numbered 200 0) = none := by decide +kernel
  have hstored := hholds.stored_overwriting hholds'
  refine ⟨s, _, hs, ?_, hrun, ?_, hstored, (added_stored_iff hs hlo hhi hrun).1 hstored⟩
  · rw [cellHasChunk_run hholds, hbefore]
  · rw [cellHasChunk_run hholds', hafter]
    rfl

end

end Theo
