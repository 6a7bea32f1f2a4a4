import Theo.Cell.Counters

set_option autoImplicit false

/-! # The lengths in the body

The size of an entry and that of the one before it are stored in 15 bits. They are exact as long as
no chunk is stored, and no hole left, that is longer than 32767 bytes (`TruncatesLength`). -/

namespace Theo

open ByteMachine BucketIndex

instance (m : Mem) (slab size : Nat) : Decidable (AddsAtTop m slab size) :=
  inferInstanceAs (Decidable (_ ∧ _))

/-- Where an insertion of `size` bytes puts its chunk. -/
def insertOffset (m : Mem) (slab size : Nat) : Nat :=
  if AddsAtTop m slab size then nextEntryOffset m (cellBodyPtr (cellAt slab).cellHeader)
  else overwriteOffset m slab

/-- An insertion of `size` bytes takes the place of the entries of `run`, which do not reach up to
the top, and leaves a hole behind its chunk. -/
def SplitsRun (m : Mem) (slab size : Nat) (run : List Nat) : Prop :=
  ¬ AddsAtTop m slab size ∧ (entryBits m (slab + overwriteOffset m slab)).size ≠ size ∧
    OverwritesRun m slab size run ∧ run ≠ offsetsFrom m slab (overwriteOffset m slab)

/-- The bytes of the run that the chunk and the header of the hole leave. -/
def leftoverBytes (m : Mem) (slab size : Nat) (run : List Nat) : Nat :=
  runLength m slab run - (size + sizeofCellBodyEntry)

/-- The number of entries with the checksum in the slots of its block. -/
def entriesInSlots (m : Mem) (slab : Nat) (c : Checksum) : Nat :=
  (blockEntries m (blockPtr (cellDirPtr (cellAt slab).cellHeader) c.blockNo)).countP (·.checksum = c)

/-- The overflow records that are left without the chunks from `offset` up to the top. The directory
gives up an entry in a slot before one with the same checksum that is an overflow record. -/
def recordsLeft (m : Mem) (slab offset : Nat) : Nat :=
  headerOverflowCount m (cellAt slab).cellHeader - Index.foundOnStack (entriesInSlots m slab)
    (((bodyPairs m slab).filter (offset ≤ ·.2)).map Prod.fst)

/-- The insertion loses its chunk: it overwrites entries that do not hold it all the way to the top,
and neither does the room up to the overflow records that are then left. Where the directory holds
exactly the chunks of the body, this is `LosesInsert`. -/
def LosesChunk (m : Mem) (slab size : Nat) : Prop :=
  let p := overwriteOffset m slab
  ¬ AddsAtTop m slab size ∧ (entryBits m (slab + p)).size ≠ size ∧
    topEntryOffset m (cellBodyPtr (cellAt slab).cellHeader) <
      p + size + sizeofCellBodyEntry + sizeofCellDirEntry ∧
    cacheCellSize < p + sizeofCellBodyEntry + sizeofCellHeader +
      recordsLeft m slab p * sizeofCellDirEntry + (size + sizeofCellBodyEntry + sizeofCellDirEntry)

/-- After an insertion of `size` bytes that turns `m` into `m'`, the entry of the chunk (unless the
chunk is lost) has the size of the chunk, the hole behind it that of the bytes left over, and each is
linked to by the entry behind it. -/
structure LengthsExact (m m' : Mem) (slab size : Nat) : Prop where
  chunk : ¬ LosesChunk m slab size →
    cellBodyEntryFree m' (slab + insertOffset m slab size) = false ∧
    (entryBits m' (slab + insertOffset m slab size)).size = size ∧
    (entryBits m' (slab + insertOffset m slab size + (size + sizeofCellBodyEntry))).previousSize = size
  hole : ∀ run, SplitsRun m slab size run →
    let hole := slab + insertOffset m slab size + (size + sizeofCellBodyEntry)
    let left := leftoverBytes m slab size run
    cellBodyEntryFree m' hole = true ∧ (entryBits m' hole).size = left ∧
      (entryBits m' (hole + (left + sizeofCellBodyEntry))).previousSize = left
  chain : ∃ n, Chain m' slab n

/-- The insertion stores a length that does not fit: its chunk is not there yet, and either it is
stored and longer than 15 bits can say, or the hole that is left behind it is. -/
def TruncatesLength (s : Store) (slab : Nat) (c : Checksum) (size : Nat) : Prop :=
  cellHasChunk (cellAt slab) c s = .ok false s ∧
    ((32767 < size ∧ ¬ LosesChunk s.mem slab size) ∨
      ∃ run, SplitsRun s.mem slab size run ∧ 32767 < leftoverBytes s.mem slab size run)

section

variable {l : Limits} {slab : Nat} {s s' : Store} {r r' : Ring} {c : Checksum}
  {buffer : List UInt8} {e : Entry}

/-! ## The ring on the slab -/

/-- The size of an entry, and the back link to it. -/
theorem CellRep.sizes {m : Mem} (h : CellRep m slab r) {xs ys : List Entry} {x : Entry}
    (hsplit : r.entries = xs ++ x :: ys) :
    cellBodyEntryFree m (slab + span xs) = x.free ∧ (entryBits m (slab + span xs)).size = x.size ∧
      (entryBits m (slab + span xs + (x.size + 36))).previousSize = x.size := by
  have hentry := h.entry_at hsplit
  have hlinked := h.linked hsplit
  have hnext : Theo.bodyOffset m slab (xs.length + 1) = span xs + (x.size + 36) := by
    have hsplit' : r.entries = (xs ++ [x]) ++ ys := by rw [hsplit, List.append_assoc]; rfl
    have hoffset := h.bodyOffset hsplit'
    rw [List.length_append, List.length_singleton] at hoffset
    rw [hoffset, span_append, span_cons, span_nil, Nat.add_zero, Entry.span]
  rw [h.bodyOffset hsplit] at hentry
  rw [hnext, ← Nat.add_assoc] at hlinked
  exact ⟨hentry.free, by rw [hentry.bits], hlinked⟩

theorem CellShaped.insertOffset (h : CellShaped l s.mem slab r) (e : Entry) :
    Theo.insertOffset s.mem slab e.size =
      if r.above = [] ∧ r.fits e then r.next else r.rewind.next := by
  have hnext := h.next_top.1
  have htop := h.addsAtTop e
  rw [Theo.insertOffset, hnext, h.overwriteOffset]
  by_cases hfits : r.above = [] ∧ r.fits e
  · rw [if_pos hfits, if_pos (htop.2 hfits)]
  · rw [if_neg hfits, if_neg fun hh => hfits (htop.1 hh)]

/-- The hole that the ring leaves is the one that the bytes tell. -/
theorem CellShaped.leavesHole (h : CellShaped l s.mem slab r) (he : e.IsBuffer)
    (hno : ¬(r.above = [] ∧ r.fits e)) {k : Nat} : r.rewind.LeavesHole e k ↔
      ∃ run, SplitsRun s.mem slab e.size run ∧ k = leftoverBytes s.mem slab e.size run := by
  obtain ⟨x, es, habove⟩ := List.exists_cons_of_ne_nil (h.shape.rewind_above_ne he hno)
  have hadds : ¬ AddsAtTop s.mem slab e.size := fun hh => hno ((h.addsAtTop e).1 hh)
  have hsize := h.overwritten habove
  -- an entry of the same size is replaced, and leaves no hole
  by_cases heq : x.size = e.size
  · refine iff_of_false ?_ ?_
    · rintro ⟨x', es', habove', hne, -⟩
      rw [habove, List.cons.injEq] at habove'
      exact hne (habove'.1 ▸ heq)
    · rintro ⟨run, ⟨-, hne, -⟩, -⟩
      exact hne (hsize.trans heq)
  · have habove' := Ring.gather_above habove (e.size + 36)
    have hfree := gather_free (e.size + 36) x.size es
    have htakes := takes_gather es heq
    have hleft : Ring.leftover x es e = (gather (e.size + 36) x.size es).1 - (e.size + 36) := rfl
    rw [Ring.leavesHole_iff habove heq, hleft]
    rw [← habove] at htakes
    generalize gather (e.size + 36) x.size es = merged at *
    obtain ⟨free, taken, rest⟩ := merged
    simp only at *
    have hsplit : r.entries = r.rewind.below ++ (x :: taken ++ rest) := by
      rw [← Ring.rewind_entries, Ring.entries, habove']
    have hrun := h.overwritesRun habove' htakes (by rw [habove]; simp)
    have hlength := h.rep.runLength hsplit
    have hfrom : Theo.offsetsFrom s.mem slab (Theo.overwriteOffset s.mem slab) =
        offsetsAt r.rewind.next (x :: taken) ++
          offsetsAt (r.rewind.next + span (x :: taken)) rest := by
      rw [h.overwriteOffset, Ring.next, h.offsetsFrom hsplit, offsetsAt_append]
    -- the run stops short of the top exactly if something is left above the gap
    have hends : offsetsAt r.rewind.next (x :: taken) ≠
        Theo.offsetsFrom s.mem slab (Theo.overwriteOffset s.mem slab) ↔ rest ≠ [] := by
      rw [hfrom, Ne, List.self_eq_append_right]
      cases rest with
      | nil => exact iff_of_false (fun hh => hh rfl) (fun hh => hh rfl)
      | cons y ys => exact iff_of_true (List.cons_ne_nil _ _) (List.cons_ne_nil y ys)
    have hbytes : leftoverBytes s.mem slab e.size (offsetsAt r.rewind.next (x :: taken)) =
        free - (e.size + 36) := by
      rw [leftoverBytes, Ring.next, hlength, sizeofCellBodyEntry, span_cons, Entry.span]
      omega
    constructor
    · rintro ⟨hrest, rfl⟩
      exact ⟨_, ⟨hadds, fun hh => heq (hsize.symm.trans hh), hrun, hends.2 hrest⟩, hbytes.symm⟩
    · rintro ⟨run, ⟨-, -, hrun', hne⟩, rfl⟩
      have heq := hrun'.unique hrun
      subst heq
      exact ⟨hends.1 hne, hbytes⟩

/-! ## Lost chunks -/

theorem CellShaped.entriesInSlots (h : CellShaped l s.mem slab r) :
    Theo.entriesInSlots s.mem slab = r.dir.inSlots := by
  funext c
  have hblock := (h.rep.header.dir.block c.blockNo c.blockNo_lt).entries
  rw [Theo.entriesInSlots, show cellDirPtr (cellAt slab).cellHeader = slab + 1019872 + 28 from rfl,
    hblock]
  rfl

/-- The overflow records without those of the entries `ys` up to the top. -/
theorem CellShaped.recordsLeft (h : CellShaped l s.mem slab r) {xs ys : List Entry} {dir : Dir}
    (hsplit : r.entries = xs ++ ys) (htake : removeAll r.dir ys = some dir) :
    Theo.recordsLeft s.mem slab (span xs) = dir.stack.length := by
  have hroom := h.shape.room
  have hstack := removeAll_stack (a := span xs) htake
  have htop : r.top = span xs + span ys := by rw [Ring.top, hsplit, span_append]
  have hlive : liveAt 0 r.entries = liveAt 0 xs ++ liveAt (span xs) ys := by
    rw [hsplit, liveAt_append, Nat.zero_add]
  have hbelow : ∀ y ∈ liveAt 0 xs, ¬ span xs ≤ y.offset := fun y hy => by
    have := liveAt_offset hy (by omega)
    omega
  have habove : ∀ y ∈ liveAt (span xs) ys, span xs ≤ y.offset := fun y hy =>
    (liveAt_offset hy (by omega)).1
  have hpairs : ((bodyPairs s.mem slab).filter (span xs ≤ ·.2)).map Prod.fst =
      (liveAt (span xs) ys).map CellDirEntry.checksum := by
    rw [h.rep.bodyPairs (by omega), hlive, List.filter_map, List.filter_append,
      List.filter_eq_nil_iff.2 fun y hy => by simpa using hbelow y hy, List.nil_append,
      List.filter_eq_self.2 fun y hy => by simpa using habove y hy, List.map_map]
    rfl
  rw [Theo.recordsLeft, h.entriesInSlots, hpairs,
    show (cellAt slab).cellHeader = slab + 1019872 from rfl, headerOverflowCount_eq h.rep.header]
  omega

/-- Which insertions lose their chunk, if the entries they overwrite leave the index. -/
theorem CellShaped.losesChunk (h : CellShaped l s.mem slab r) (hno : ¬(r.above = [] ∧ r.fits e))
    {x : Entry} {es : List Entry} {dir : Dir} (habove : r.rewind.above = x :: es)
    (htake : removeAll r.dir (x :: (gather (e.size + 36) x.size es).2.1) = some dir) :
    LosesChunk s.mem slab e.size ↔ x.size ≠ e.size ∧ (gather (e.size + 36) x.size es).2.2 = [] ∧
      ¬ Ring.fits ⟨r.rewind.below, [], dir⟩ e = true := by
  have hadds : ¬ AddsAtTop s.mem slab e.size := fun hh => hno ((h.addsAtTop e).1 hh)
  have hroom := h.shape.room
  have habove' := Ring.gather_above habove (e.size + 36)
  have henough := gather_enough (e.size + 36) x.size es
  have hfree := gather_free (e.size + 36) x.size es
  have hstack := (removeAll_noFuller htake).1
  obtain ⟨htop, -⟩ := h.rep.apart
  have hrewind : r.top = r.rewind.top := by rw [Ring.top, Ring.top, Ring.rewind_entries]
  have hsum := Ring.top_eq r.rewind habove'
  rw [LosesChunk, htop, h.overwriteOffset]
  rw [← h.overwriteOffset, h.overwritten habove, h.overwriteOffset, Ring.fits_iff]
  simp only [sizeofCellBodyEntry, sizeofCellDirEntry, sizeofCellHeader, cacheCellSize, bodyRoom]
  generalize gather (e.size + 36) x.size es = merged at *
  obtain ⟨free, taken, rest⟩ := merged
  simp only at *
  rw [span_cons, Entry.span] at hsum
  have hnext : Ring.next ⟨r.rewind.below, [], dir⟩ = r.rewind.next := rfl
  rw [hnext]
  -- if all entries up to the top go, the records that are left are those of the index without them
  have hleft : rest = [] → Theo.recordsLeft s.mem slab r.rewind.next = dir.stack.length := by
    rintro rfl
    rw [List.append_nil] at habove'
    exact h.recordsLeft (by rw [← Ring.rewind_entries, Ring.entries, habove']) htake
  constructor
  · rintro ⟨-, hsize, hlow, hfull⟩
    have hrest : rest = [] := by
      by_contra hrest
      have henough := henough hrest
      omega
    rw [hleft hrest] at hfull
    exact ⟨hsize, hrest, by omega⟩
  · rintro ⟨hsize, hrest, hfull⟩
    rw [hleft hrest]
    exact ⟨hadds, hsize, by omega, by omega⟩

/-! ## One insertion -/

theorem cellHasChunk_shaped (h : CellShaped l s.mem slab r) (c : Checksum) :
    cellHasChunk (cellAt slab) c s = .ok (r.dir.find c).isSome s := by
  rw [cellHasChunk, bind_ok (cellDirGetChunk_at h c), pure_run]

/-- What the lengths are after an insertion that does not truncate one. -/
theorem CellShaped.lengthsExact (h : CellShaped l s.mem slab r) (h' : CellShaped l s'.mem slab r')
    (he : e.IsChunk l) (hadd : r.add e = some r') :
    LengthsExact s.mem s'.mem slab e.size := by
  have hoffset := h.insertOffset e
  have htop : AddsAtTop s.mem slab e.size ↔ _ := h.addsAtTop e
  have hchain : ∃ n, Chain s'.mem slab n := ⟨_, h'.chain⟩
  rcases Ring.add_layout hadd with ⟨habove, hfits, hentries⟩ |
      ⟨hno, ⟨k, rest, hhole, hentries⟩ | ⟨hnone, hentries⟩⟩
  · rw [if_pos ⟨habove, hfits⟩] at hoffset
    obtain ⟨hfree, hsize, hlink⟩ := h'.rep.sizes hentries
    refine ⟨fun _ => ?_, fun run hrun => absurd (htop.2 ⟨habove, hfits⟩) hrun.1, hchain⟩
    rw [hoffset]
    exact ⟨hfree.trans he.live, hsize, hlink⟩
  · rw [if_neg hno] at hoffset
    obtain ⟨hlive, hsize, hlink⟩ := h'.rep.sizes hentries
    have hentries' : r'.entries = (r.rewind.below ++ [e]) ++ Entry.hole k :: rest := by
      rw [hentries, List.append_assoc]
      rfl
    have hspan : span (r.rewind.below ++ [e]) = r.rewind.next + (e.size + 36) := by
      rw [span_append, span_cons, span_nil, Nat.add_zero]
      rfl
    obtain ⟨hfree, hsize', hlink'⟩ := h'.rep.sizes hentries'
    rw [hspan] at hfree hsize' hlink'
    refine ⟨fun _ => ?_, fun run hrun => ?_, hchain⟩
    · rw [hoffset]
      exact ⟨hlive.trans he.live, hsize, hlink⟩
    · -- the run is unique, so the hole has the bytes it leaves
      have hleft : leftoverBytes s.mem slab e.size run = k := by
        obtain ⟨run', hrun', rfl⟩ := (h.leavesHole he.isBuffer hno).1 hhole
        rw [hrun.2.2.1.unique hrun'.2.2.1]
      simp only
      rw [hoffset, hleft, sizeofCellBodyEntry, Nat.add_assoc]
      exact ⟨hfree, hsize', hlink'⟩
  · rw [if_neg hno] at hoffset
    refine ⟨fun hkeeps => ?_, fun run hrun => ?_, hchain⟩
    · rw [hoffset]
      rcases hentries with ⟨x, es, dir, habove, hne, hrest, htake, hfull⟩ | ⟨rest, hentries⟩
      · -- the chunk would be lost
        rw [Ring.rewind_dir] at htake
        exact absurd ((h.losesChunk hno habove htake).2 ⟨hne, hrest, hfull⟩) hkeeps
      · obtain ⟨hlive, hsize, hlink⟩ := h'.rep.sizes hentries
        exact ⟨hlive.trans he.live, hsize, hlink⟩
    · exact absurd ((h.leavesHole he.isBuffer hno).2 ⟨run, hrun, rfl⟩) (hnone _)

/-- What an insertion that ends has done to the body. -/
theorem CellShaped.added {added : Bool} (h : CellShaped l s.mem slab r) (hfind : r.dir.find c = none)
    (hrun : cellAddChunk (cellAt slab) c buffer s = .ok added s') :
    added = true ∧ ∃ s₁, s' = left s₁ slab ∧
      cellBodyAdd (slab + 1019892) (cellAt slab) c buffer (entered s slab) = .ok () s₁ := by
  rw [cellAddChunk_missing h hfind] at hrun
  cases hbody : cellBodyAdd (slab + 1019892) (cellAt slab) c buffer (entered s slab) with
  | error e s₁ =>
      rw [bind_error hbody] at hrun
      cases hrun
  | ok _ s₁ =>
      rw [bind_ok hbody, cellIcOnExit_bind, pure_run, EStateM.Result.ok.injEq] at hrun
      exact ⟨hrun.1.symm, s₁, hrun.2.symm, rfl⟩

theorem entryBits_left (s : Store) {ptr : Nat} (hptr : ptr ≤ slab + 1019836) :
    entryBits (left s slab).mem ptr = entryBits s.mem ptr :=
  entryBits_congr (left_agree s (by omega))

/-- An insertion at the top stores the size of its chunk in 15 bits. -/
theorem CellShaped.add_top_size (h : CellShaped l s.mem slab r) (habove : r.above = [])
    (hfits : r.fits (chunkOf c buffer) = true) {s₁ : Store}
    (hrun : cellBodyAdd (slab + 1019892) (cellAt slab) c buffer (entered s slab) = .ok () s₁) :
    (entryBits (left s₁ slab).mem (slab + r.next)).size = buffer.length % 2 ^ 15 := by
  have hroom := h.shape.room
  have htop := Ring.top_eq r (List.append_nil r.above).symm
  have hopen := h.entered_rep.opened h.shape.room
  rw [habove] at hopen
  obtain ⟨s₂, hadd, hbits⟩ := cellBodyAddTop_size c buffer hopen ((Ring.fits_iff _ _).1 hfits)
  rw [cellBodyAdd_top h.entered_rep h.shape habove hadd, EStateM.Result.ok.injEq] at hrun
  rw [entryBits_left s₁ (by omega), ← hrun.2, Ring.next, hbits]

/-- An insertion that merges entries loses its chunk, or stores its size, and that of the hole, in 15
bits. -/
theorem CellShaped.add_merged (h : CellShaped l s.mem slab r) (he : (chunkOf c buffer).IsBuffer)
    (hno : ¬(r.above = [] ∧ r.fits (chunkOf c buffer))) {x : Entry} {es : List Entry}
    (habove : r.rewind.above = x :: es) (hsize : x.size ≠ buffer.length) {s₁ : Store}
    (hrun : cellBodyAdd (slab + 1019892) (cellAt slab) c buffer (entered s slab) = .ok () s₁) :
    (LosesChunk s.mem slab buffer.length ∧ (∀ k, ¬ r.rewind.LeavesHole (chunkOf c buffer) k) ∧
      ∃ r', CellShaped l (left s₁ slab).mem slab r') ∨
    (¬ LosesChunk s.mem slab buffer.length ∧
      (entryBits (left s₁ slab).mem (slab + r.rewind.next)).size = buffer.length % 2 ^ 15 ∧
      ∀ k, r.rewind.LeavesHole (chunkOf c buffer) k →
        (entryBits (left s₁ slab).mem (slab + (r.rewind.next + (buffer.length + 36)))).size =
          k % 2 ^ 15) := by
  obtain ⟨s₀, hbody, hrep, hemits⟩ := cellBodyAdd_offset h.entered_rep h.shape he hno
  have hshape := h.shape.rewind he hno
  rw [show cellBodyAdd (slab + 1019892) (cellAt slab) c buffer (entered s slab) = _ from hbody] at hrun
  obtain ⟨dir, htake, hcases⟩ := cellBodyAddOffset_merged hrep hshape he habove hsize hrun
  have hloses : LosesChunk s.mem slab buffer.length ↔ _ :=
    h.losesChunk hno habove (by rwa [Ring.rewind_dir] at htake)
  have hholes : ∀ k, r.rewind.LeavesHole (chunkOf c buffer) k ↔ _ := fun _ =>
    Ring.leavesHole_iff habove hsize
  have habove' := Ring.gather_above habove (buffer.length + 36)
  have htop := Ring.top_eq r.rewind habove'
  have hroom := hshape.room
  rcases hcases with ⟨hrest, hfits, hchunk⟩ | ⟨hrest, hfull, hcell, hemits'⟩ | ⟨hrest, hchunk, hhole⟩
  · refine Or.inr ⟨fun hh => (hloses.1 hh).2.2 hfits, ?_, fun k hk => ?_⟩
    · rw [entryBits_left s₁ (by omega)]
      exact hchunk
    · exact absurd hrest ((hholes k).1 hk).1
  · have hall : (gather (buffer.length + 36) x.size es).2.2 = [] := hrest
    rw [hall, List.append_nil] at habove'
    have htake' : removeAll r.rewind.dir r.rewind.above = some dir := by rwa [habove']
    have hcut := Ring.Shape.cut hshape htake'
    have hroom' := hcut.room
    rw [Ring.top, Ring.entries, List.append_nil] at hroom'
    exact Or.inl ⟨hloses.2 ⟨hsize, hrest, hfull⟩, fun k hk => ((hholes k).1 hk).1 hrest, _,
      h.inserted hcut hcell ((hemits _ _ _).trans hemits') hroom'⟩
  · refine Or.inr ⟨fun hh => hrest (hloses.1 hh).2.1, ?_, fun k hk => ?_⟩
    · rw [entryBits_left s₁ (by omega)]
      exact hchunk
    · -- the merged entries hold the chunk
      have henough := gather_enough (buffer.length + 36) x.size es hrest
      have hfree := gather_free (buffer.length + 36) x.size es
      rw [span_cons, Entry.span] at htop
      rw [((hholes k).1 hk).2, entryBits_left s₁ (by omega)]
      exact hhole

/-- An insertion of at most 32768 bytes that truncates no length leaves them exact. -/
theorem CellShaped.add_lengths {added : Bool} (h : CellShaped lengthLimits s.mem slab r)
    (hlo : 1 ≤ buffer.length) (hhi : buffer.length ≤ 32768)
    (hfits : ¬ TruncatesLength s slab c buffer.length)
    (hrun : cellAddChunk (cellAt slab) c buffer s = .ok added s') :
    (∃ r', CellShaped lengthLimits s'.mem slab r') ∧
      (added = true → LengthsExact s.mem s'.mem slab buffer.length) := by
  by_cases hfind : r.dir.find c = none
  · have hmissing : cellHasChunk (cellAt slab) c s = .ok false s := by
      rw [cellHasChunk_shaped h, hfind]
      rfl
    have hbuffer : (chunkOf c buffer).IsBuffer := ⟨rfl, hlo, hhi, rfl⟩
    have hhole : ¬(r.above = [] ∧ r.fits (chunkOf c buffer)) →
        ∀ k, r.rewind.LeavesHole (chunkOf c buffer) k → k ≤ lengthLimits.hole := by
      intro hno k hk
      obtain ⟨run, hrun, rfl⟩ := (h.leavesHole hbuffer hno).1 hk
      by_contra hlong
      exact hfits ⟨hmissing, Or.inr ⟨run, hrun, Nat.lt_of_not_le hlong⟩⟩
    by_cases hmax : buffer.length ≤ 32767
    · have he := chunkOf_isChunk (l := lengthLimits) c hlo hmax
      rcases cellAddChunk_shaped (c := c) h hlo hmax hhole with ⟨hfound, -⟩ |
          ⟨-, r', s₁, hadd, hrun', hshaped, -⟩ | ⟨-, -, s₁, hrun', -⟩
      · exact absurd hfind hfound
      · rw [hrun', EStateM.Result.ok.injEq] at hrun
        obtain ⟨-, rfl⟩ := hrun
        exact ⟨⟨r', hshaped⟩, fun _ => h.lengthsExact hshaped he hadd⟩
      · rw [hrun'] at hrun
        cases hrun
    · -- the chunk is lost, for its length does not fit
      have hloses : LosesChunk s.mem slab buffer.length := by
        by_contra hkeeps
        exact hfits ⟨hmissing, Or.inl ⟨Nat.lt_of_not_le hmax, hkeeps⟩⟩
      have hno : ¬(r.above = [] ∧ r.fits (chunkOf c buffer)) :=
        fun hh => hloses.1 ((h.addsAtTop (chunkOf c buffer)).2 hh)
      obtain ⟨x, es, habove⟩ := List.exists_cons_of_ne_nil (h.shape.rewind_above_ne hbuffer hno)
      obtain ⟨-, s₁, rfl, hbody⟩ := h.added hfind hrun
      have hsize : x.size ≠ buffer.length := fun hh => hloses.2.1 ((h.overwritten habove).trans hh)
      rcases h.add_merged hbuffer hno habove hsize hbody with ⟨-, hholes, r', hshaped⟩ | ⟨hkeeps, -⟩
      · refine ⟨⟨r', hshaped⟩, fun _ => ⟨fun hkeeps => absurd hloses hkeeps, fun run hrun => ?_,
          _, hshaped.chain⟩⟩
        exact absurd ((h.leavesHole hbuffer hno).2 ⟨run, hrun, rfl⟩) (hholes _)
      · exact absurd hloses hkeeps
  · rw [cellAddChunk_found h hfind, EStateM.Result.ok.injEq] at hrun
    obtain ⟨rfl, rfl⟩ := hrun
    exact ⟨⟨r, h⟩, fun hfalse => nomatch hfalse⟩

/-- An insertion that truncates a length does not leave them exact. -/
theorem CellShaped.add_truncates {added : Bool} (h : CellShaped lengthLimits s.mem slab r)
    (hlo : 1 ≤ buffer.length) (hhi : buffer.length ≤ 32768)
    (hlong : TruncatesLength s slab c buffer.length)
    (hrun : cellAddChunk (cellAt slab) c buffer s = .ok added s') :
    added = true ∧ ¬ LengthsExact s.mem s'.mem slab buffer.length := by
  obtain ⟨hmissing, hlong⟩ := hlong
  have hfind : r.dir.find c = none := by
    rw [cellHasChunk_shaped h, EStateM.Result.ok.injEq] at hmissing
    exact Option.isSome_eq_false_iff.1 hmissing.1 |> Option.isNone_iff_eq_none.1
  have hbuffer : (chunkOf c buffer).IsBuffer := ⟨rfl, hlo, hhi, rfl⟩
  have hoffset := h.insertOffset (chunkOf c buffer)
  have htop : AddsAtTop s.mem slab buffer.length ↔ _ := h.addsAtTop (chunkOf c buffer)
  obtain ⟨hadded, s₁, rfl, hbody⟩ := h.added hfind hrun
  refine ⟨hadded, fun hexact => ?_⟩
  have hmod : ∀ k, 32767 < k → k % 2 ^ 15 ≠ k := fun k hk => by omega
  rw [show (chunkOf c buffer).size = buffer.length from rfl] at hoffset
  by_cases hno : r.above = [] ∧ r.fits (chunkOf c buffer)
  · rw [if_pos hno] at hoffset
    rcases hlong with ⟨hlong, hkeeps⟩ | ⟨run, hrun, -⟩
    · have hsize := (hexact.chunk hkeeps).2.1
      rw [hoffset, h.add_top_size hno.1 hno.2 hbody] at hsize
      exact hmod _ hlong hsize
    · exact hrun.1 (htop.2 hno)
  · rw [if_neg hno] at hoffset
    obtain ⟨x, es, habove⟩ := List.exists_cons_of_ne_nil (h.shape.rewind_above_ne hbuffer hno)
    have hsize : x.size ≠ buffer.length := by
      rcases hlong with ⟨hlong, -⟩ | ⟨run, hrun, -⟩
      · have hmem : x ∈ r.entries := by
          rw [← Ring.rewind_entries, Ring.entries, habove]
          exact List.mem_append_right _ List.mem_cons_self
        have := (h.shape.valid x hmem).size_le
        omega
      · exact fun hh => hrun.2.1 ((h.overwritten habove).trans hh)
    rcases h.add_merged hbuffer hno habove hsize hbody with ⟨hloses, hholes, -⟩ | ⟨hkeeps, hchunk, hhole⟩
    · rcases hlong with ⟨-, hkeeps⟩ | ⟨run, hrun, -⟩
      · exact hkeeps hloses
      · exact hholes _ ((h.leavesHole hbuffer hno).2 ⟨run, hrun, rfl⟩)
    · rcases hlong with ⟨hlong, -⟩ | ⟨run, hrun, hlong⟩
      · have hsize := (hexact.chunk hkeeps).2.1
        rw [hoffset, hchunk] at hsize
        exact hmod _ hlong hsize
      · have hsize := (hexact.hole run hrun).2.1
        rw [hoffset, sizeofCellBodyEntry, Nat.add_assoc,
          hhole _ ((h.leavesHole hbuffer hno).2 ⟨run, hrun, rfl⟩)] at hsize
        exact hmod _ hlong hsize

/-! ## Whole runs -/

theorem addChunks_lengths_iff {adds : List (Checksum × List UInt8)}
    (h : CellShaped lengthLimits s.mem slab r)
    (hsize : ∀ add ∈ adds, 1 ≤ add.2.length ∧ add.2.length ≤ 32768)
    (hrun : addChunks (cellAt slab) adds s = .ok () s') :
    (∀ pre c buffer post s₁, adds = pre ++ (c, buffer) :: post →
      addChunks (cellAt slab) pre s = .ok () s₁ →
        ∀ s₂, cellAddChunk (cellAt slab) c buffer s₁ = .ok true s₂ →
          LengthsExact s₁.mem s₂.mem slab buffer.length) ↔
      ∀ pre c buffer post s₁, adds = pre ++ (c, buffer) :: post →
        addChunks (cellAt slab) pre s = .ok () s₁ → ¬ TruncatesLength s₁ slab c buffer.length := by
  induction adds generalizing s r with
  | nil =>
      refine iff_of_true ?_ ?_ <;> intro pre c buffer post s₁ hsplit <;> simp at hsplit
  | cons add rest ih =>
      obtain ⟨c, buffer⟩ := add
      obtain ⟨hlo, hhi⟩ := hsize _ List.mem_cons_self
      cases hadd : cellAddChunk (cellAt slab) c buffer s with
      | error e s₂ =>
          rw [addChunks, bind_error hadd] at hrun
          cases hrun
      | ok added s₂ =>
          rw [before_addChunks_cons (P := fun s c buffer => ¬ TruncatesLength s slab c buffer.length)
              hadd,
            before_addChunks_cons (P := fun s c buffer => ∀ s₂,
              cellAddChunk (cellAt slab) c buffer s = .ok true s₂ →
                LengthsExact s.mem s₂.mem slab buffer.length) hadd]
          by_cases hlong : TruncatesLength s slab c buffer.length
          · obtain ⟨rfl, hwrong⟩ := h.add_truncates hlo hhi hlong hadd
            exact iff_of_false (fun hh => hwrong (hh.1 s₂ hadd)) fun hh => hh.1 hlong
          · obtain ⟨⟨r', hr'⟩, hlengths⟩ := h.add_lengths hlo hhi hlong hadd
            rw [addChunks_cons hadd] at hrun
            rw [ih hr' (fun add hadd => hsize add (List.mem_cons_of_mem _ hadd)) hrun,
              and_iff_right hlong, and_iff_right]
            intro s₃ hadd'
            rw [hadd, EStateM.Result.ok.injEq] at hadd'
            obtain ⟨rfl, rfl⟩ := hadd'
            exact hlengths rfl

/-- In a run of insertions into a new cell the lengths are exact after each exactly if none of them
truncates a length. -/
theorem lengths_exact_iff {s₀ : Store} (hz : s₀.mem.Zero slab (slab + cacheCellSize))
    (hinit : cellInit slab cacheCellSize s₀ = .ok (cellAt slab) s)
    {adds : List (Checksum × List UInt8)}
    (hsize : ∀ add ∈ adds, 1 ≤ add.2.length ∧ add.2.length ≤ chunkMaxBufferSize)
    (hrun : addChunks (cellAt slab) adds s = .ok () s') :
    (∀ pre c buffer post s₁, adds = pre ++ (c, buffer) :: post →
      addChunks (cellAt slab) pre s = .ok () s₁ →
        ∀ s₂, cellAddChunk (cellAt slab) c buffer s₁ = .ok true s₂ →
          LengthsExact s₁.mem s₂.mem slab buffer.length) ↔
      ∀ pre c buffer post s₁, adds = pre ++ (c, buffer) :: post →
        addChunks (cellAt slab) pre s = .ok () s₁ → ¬ TruncatesLength s₁ slab c buffer.length := by
  obtain ⟨s₁, hinit', -, -, -, hholds⟩ := cellInit_insane slab lengthLimits (cellHeaderSane_zero hz)
  rw [hinit', EStateM.Result.ok.injEq] at hinit
  rw [hinit.2] at hholds
  exact addChunks_lengths_iff hholds.shaped hsize hrun

/-- No insertion of a size that a chunker emits truncates a length. -/
theorem Reachable.keepsLengths (h : Reachable 2049 24576 slab s) (c : Checksum)
    (hsize : EmittedSize buffer) : ¬ TruncatesLength s slab c buffer.length := by
  obtain ⟨r, hr⟩ := h.holds
  have he := chunkOf_isChunk (l := chunkerLimits) c hsize.1 hsize.2
  rintro ⟨-, ⟨hlong, -⟩ | ⟨run, hsplit, hlong⟩⟩
  · have := hsize.2
    omega
  · have hno : ¬(r.above = [] ∧ r.fits (chunkOf c buffer)) := fun hh =>
      hsplit.1 ((hr.shaped.addsAtTop (chunkOf c buffer)).2 hh)
    have hhole := (hr.shaped.leavesHole he.isBuffer hno).2 ⟨run, hsplit, rfl⟩
    have : leftoverBytes s.mem slab buffer.length run ≤ 24612 :=
      hr.inv.leavesHole_le he (by decide) hno _ hhole
    omega

/-- 41 chunks, and two smaller ones in the place of the first two, each with a hole behind it. -/
def lapWithHoles : List (Checksum × Nat) :=
  lapOfChunks 0 41 ++ [(.numbered 41 41, 20000), (.numbered 42 42, 20000)]

/-- A run that merges entries: the second of the small chunks takes the place of the hole that the
first has left, and of the chunk behind it. -/
theorem lengths_exact_holes : ∃ s s', cellInit 0 cacheCellSize zeroed = .ok (cellAt 0) s ∧
    addChunks (cellAt 0) (withBytes lapWithHoles) s = .ok () s' ∧
    (∀ pre c buffer post s₁, withBytes lapWithHoles = pre ++ (c, buffer) :: post →
      addChunks (cellAt 0) pre s = .ok () s₁ →
        ∀ s₂, cellAddChunk (cellAt 0) c buffer s₁ = .ok true s₂ →
          LengthsExact s₁.mem s₂.mem 0 buffer.length) ∧
    cellBodyEntryFree s'.mem 40072 = true ∧ (entryBits s'.mem 40072).size = 9116 := by
  have hring : ((Ring.empty.insertSizes lapWithHoles).map fun r =>
      (r.entries.take 3).map fun e => (e.free, e.size)) =
        some [(false, 20000), (false, 20000), (true, 9116)] := by
    decide +kernel
  obtain ⟨r, hr, hlast⟩ := Option.map_eq_some_iff.1 hring
  have hsizes : ∀ add ∈ lapWithHoles, 2049 ≤ add.2 ∧ add.2 ≤ 24576 := by decide
  obtain ⟨s, s', hinit, hadds, hholds, -⟩ := reachable_sizes hsizes hr
  have hemitted := withBytes_sized hsizes
  refine ⟨s, s', hinit, hadds, (lengths_exact_iff (zeroed_zero _ _) hinit (fun add hadd => ?_) hadds).2
    fun pre c buffer post s₁ hsplit hpre => ?_, ?_⟩
  · have := hemitted add hadd
    rw [EmittedSize] at this
    rw [chunkMaxBufferSize]
    omega
  · have hreach := (Reachable.init (zeroed_zero _ _) hinit).addChunks
      (fun add hadd => hemitted add (by rw [hsplit]; exact List.mem_append_left _ hadd)) hpre
    exact hreach.keepsLengths c (hemitted (c, buffer) (by rw [hsplit]; simp))
  · rcases hentries : r.entries with _ | ⟨x, _ | ⟨y, _ | ⟨z, rest⟩⟩⟩ <;> rw [hentries] at hlast <;>
      simp only [List.take, List.map, List.cons.injEq, Prod.mk.injEq, reduceCtorEq, and_true,
        and_false] at hlast
    obtain ⟨⟨-, hx⟩, ⟨-, hy⟩, hfree, hz⟩ := hlast
    have hspan : span [x, y] = 40072 := by
      simp only [span_cons, span_nil, Entry.span]
      omega
    obtain ⟨hfree', hsize, -⟩ := hholds.rep.sizes (show r.entries = [x, y] ++ z :: rest from hentries)
    rw [hspan, Nat.zero_add] at hfree' hsize
    exact ⟨hfree'.trans hfree, hsize.trans hz⟩

/-! ## A length that is truncated -/

/-- A chunk of 32768 bytes is stored with size 0. -/
theorem lengths_truncated : ∃ s s', cellInit 0 cacheCellSize zeroed = .ok (cellAt 0) s ∧
    cellAddChunk (cellAt 0) (.fill 1) (someBytes 32768) s = .ok true s' ∧
    (entryBits s'.mem 0).size = 0 ∧ ¬ LengthsExact s.mem s'.mem 0 32768 := by
  obtain ⟨s₁, hinit, -, -, -, hholds⟩ := cellInit_insane 0 lengthLimits
    (cellHeaderSane_zero (zeroed_zero _ _))
  have hlength := someBytes_length 32768
  generalize initialised s₁ 0 = s at hinit hholds
  have hopen := hholds.shaped.entered_rep.opened hholds.inv.room
  have htop := hopen.top.top
  obtain ⟨s₂, hadd, hbits⟩ := cellBodyAddTop_size (.fill 1) (someBytes 32768) hopen (by
    rw [hlength]
    decide)
  have hbits' : entryBits s₂.mem 0 = ⟨0, 0, 0, 0⟩ := by
    rw [hlength] at hbits
    exact hbits
  have hafter : entryBits (left s₂ 0).mem 0 = ⟨0, 0, 0, 0⟩ := by
    rw [entryBits_congr (left_agree s₂ (by omega)), hbits']
  have hbody : cellBodyAdd (0 + 1019892) (cellAt 0) (.fill 1) (someBytes 32768) (entered s 0) =
      .ok () s₂ := by
    rw [cellBodyAdd, load_bind, hopen.nextOffset, load_bind]
    rw [show cellBodyEntryTop (entered s 0).mem ((cellAt 0).slab + Ring.empty.next) = true from htop,
      if_pos rfl, bind_ok hadd, if_pos rfl, pure_run]
  refine ⟨s, left s₂ 0, hinit, ?_, by rw [hafter], fun hexact => ?_⟩
  · rw [cellAddChunk_missing hholds.shaped rfl, bind_ok hbody, cellIcOnExit_bind, pure_run]
  · have hoffset := hholds.shaped.insertOffset (Entry.chunk (.fill 1) 32768 [])
    have hadds : AddsAtTop s.mem 0 32768 :=
      (hholds.shaped.addsAtTop (Entry.chunk (.fill 1) 32768 [])).2 ⟨rfl, Ring.empty_fits (by decide)⟩
    rw [if_pos ⟨rfl, Ring.empty_fits (by decide)⟩] at hoffset
    have hoffset' : insertOffset s.mem 0 32768 = 0 := hoffset
    have hsize := (hexact.chunk fun hloses => hloses.1 hadds).2.1
    rw [hoffset', Nat.add_zero, hafter] at hsize
    cases hsize

end

end Theo
