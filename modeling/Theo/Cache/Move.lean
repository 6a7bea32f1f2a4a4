import Theo.Cache.Basic

set_option autoImplicit false

/-! # A cache at another address

Nothing in a cache depends on where it is mapped: the offsets it holds count from the start of a slab.
So the same bytes at another address are the same cache (`CacheHolds.moved`). -/

namespace Theo

open ByteMachine BucketIndex

section

variable {m : Mem} {k ptr prev : Nat}

/-! ## Fields -/

theorem entryBits_shift (m : Mem) (k ptr : Nat) :
    entryBits (m.shift k) ptr = entryBits m (k + ptr) := by
  rw [entryBits, entryBits, Mem.shift_load32, Nat.add_assoc]

theorem loadChecksum_shift (m : Mem) (k ptr : Nat) :
    loadChecksum (m.shift k) ptr = loadChecksum m (k + ptr) := Checksum.ext (m.shift_read k ptr 32)

theorem loadDirEntry_shift (m : Mem) (k ptr : Nat) :
    loadDirEntry (m.shift k) ptr = loadDirEntry m (k + ptr) := by
  have hword : (m.shift k).load32 (ptr + 32) = m.load32 (k + ptr + 32) := by
    rw [Mem.shift_load32, Nat.add_assoc]
  apply CellDirEntry.ext
  · exact loadChecksum_shift m k ptr
  · simp only [loadDirEntry, hword]
  · simp only [loadDirEntry, hword]

theorem entryCount_shift (m : Mem) (k ptr : Nat) :
    entryCount (m.shift k) ptr = entryCount m (k + ptr) := by
  rw [entryCount, entryCount, Mem.shift_load32, Nat.add_assoc]

theorem blockOverflowCount_shift (m : Mem) (k ptr : Nat) :
    blockOverflowCount (m.shift k) ptr = blockOverflowCount m (k + ptr) := by
  rw [blockOverflowCount, blockOverflowCount, Mem.shift_load32, Nat.add_assoc]

theorem overflowCount_shift (m : Mem) (k ptr : Nat) :
    overflowCount (m.shift k) ptr = overflowCount m (k + ptr) := rfl

/-! ## The body -/

theorem entryAt_shift {e : Entry} : EntryAt (m.shift k) ptr prev e ↔ EntryAt m (k + ptr) prev e := by
  have hread : (m.shift k).read (ptr + 36) e.size = m.read (k + ptr + 36) e.size := by
    rw [Mem.shift_read, Nat.add_assoc]
  constructor
  · rintro ⟨hbits, hchunk⟩
    rw [entryBits_shift] at hbits
    rw [loadChecksum_shift, hread] at hchunk
    exact ⟨hbits, hchunk⟩
  · rintro ⟨hbits, hchunk⟩
    rw [← entryBits_shift] at hbits
    rw [← loadChecksum_shift, ← hread] at hchunk
    exact ⟨hbits, hchunk⟩

theorem topAt_shift : TopAt (m.shift k) ptr prev ↔ TopAt m (k + ptr) prev := by
  rw [TopAt, TopAt, entryBits_shift]

theorem seg_shift {es : List Entry} : Seg (m.shift k) ptr prev es ↔ Seg m (k + ptr) prev es := by
  induction es generalizing ptr prev with
  | nil => exact Iff.rfl
  | cons e es ih => rw [Seg, Seg, entryAt_shift, ih, Nat.add_assoc]

/-! ## The directory -/

theorem slotRep_shift {slot : Option CellDirEntry} :
    SlotRep (m.shift k) ptr slot ↔ SlotRep m (k + ptr) slot := by
  cases slot with
  | none => rw [SlotRep, SlotRep, loadDirEntry_shift]
  | some e => rw [SlotRep, SlotRep, loadDirEntry_shift]

theorem slotsRep_shift {slots : List (Option CellDirEntry)} :
    SlotsRep (m.shift k) ptr slots ↔ SlotsRep m (k + ptr) slots := by
  induction slots generalizing ptr with
  | nil => exact Iff.rfl
  | cons slot slots ih => rw [SlotsRep, SlotsRep, slotRep_shift, ih, Nat.add_assoc]

theorem overRep_shift {es : List CellDirEntry} :
    OverRep (m.shift k) ptr es ↔ OverRep m (k + ptr) es := by
  induction es generalizing ptr with
  | nil => exact Iff.rfl
  | cons e es ih => rw [OverRep, OverRep, loadDirEntry_shift, ih, Nat.add_assoc]

theorem blockRep_shift {slots : List (Option CellDirEntry)} {spilled : Nat} :
    BlockRep (m.shift k) ptr slots spilled ↔ BlockRep m (k + ptr) slots spilled := by
  constructor
  · rintro ⟨hlength, hslots, hcount, hspilled⟩
    exact ⟨hlength, slotsRep_shift.1 hslots, entryCount_shift m k ptr ▸ hcount,
      blockOverflowCount_shift m k ptr ▸ hspilled⟩
  · rintro ⟨hlength, hslots, hcount, hspilled⟩
    exact ⟨hlength, slotsRep_shift.2 hslots, (entryCount_shift m k ptr).trans hcount,
      (blockOverflowCount_shift m k ptr).trans hspilled⟩

/-- The overflow records lie below `bufferTop`, so that they have to fit in front of it. -/
theorem dirRep_shift {cellDir bufferTop : Nat} {dir : Dir} (hroom : 36 * dir.stack.length ≤ bufferTop) :
    DirRep (m.shift k) cellDir bufferTop dir ↔ DirRep m (k + cellDir) (k + bufferTop) dir := by
  have hblock : ∀ i, k + blockPtr cellDir i = blockPtr (k + cellDir) i :=
    fun i => (Nat.add_assoc _ _ _).symm
  have hcounter : overflowCount (m.shift k) (overflowPtr cellDir) =
      overflowCount m (overflowPtr (k + cellDir)) := by
    rw [overflowCount_shift, overflowPtr, overflowPtr, Nat.add_assoc]
  have hstack : k + bufferTop - 36 * dir.stack.length = k + (bufferTop - 36 * dir.stack.length) :=
    Nat.add_sub_assoc hroom k
  constructor
  · rintro ⟨hblocks, hcount, hover, -⟩
    refine ⟨fun i hi => ?_, hcounter ▸ hcount, ?_, by omega⟩
    · rw [← hblock]
      exact blockRep_shift.1 (hblocks i hi)
    · rw [hstack]
      exact overRep_shift.1 hover
  · rintro ⟨hblocks, hcount, hover, -⟩
    refine ⟨fun i hi => ?_, hcounter.trans hcount, ?_, hroom⟩
    · rw [blockRep_shift, hblock]
      exact hblocks i hi
    · rw [overRep_shift, ← hstack]
      exact hover

/-! ## Cells and caches -/

theorem headerRep_shift {H n b : Nat} {dir : Dir} (hroom : 36 * dir.stack.length ≤ H) :
    HeaderRep (m.shift k) H n b dir ↔ HeaderRep m (k + H) n b dir := by
  have hentries : (m.shift k).load32 (H + 4) = m.load32 (k + H + 4) := by
    rw [Mem.shift_load32, Nat.add_assoc]
  have hbytes : (m.shift k).load32 (H + 8) = m.load32 (k + H + 8) := by
    rw [Mem.shift_load32, Nat.add_assoc]
  have hdir : DirRep (m.shift k) (H + 28) H dir ↔ DirRep m (k + H + 28) (k + H) dir := by
    rw [dirRep_shift hroom, Nat.add_assoc]
  constructor
  · rintro ⟨hn, hb, h⟩
    exact ⟨hentries ▸ hn, hbytes ▸ hb, hdir.1 h⟩
  · rintro ⟨hn, hb, h⟩
    exact ⟨hentries.trans hn, hbytes.trans hb, hdir.2 h⟩

theorem cellRep_shift {slab : Nat} {r : Ring} (hroom : r.top + 36 * r.dir.stack.length ≤ 1019836) :
    CellRep (m.shift k) slab r ↔ CellRep m (k + slab) r := by
  have hoffset : ∀ i, (m.shift k).load32 (slab + i) = m.load32 (k + slab + i) := by
    intro i
    rw [Mem.shift_load32, Nat.add_assoc]
  have htop : TopAt (m.shift k) (slab + r.top) (prevOf 0 r.entries) ↔
      TopAt m (k + slab + r.top) (prevOf 0 r.entries) := by
    rw [topAt_shift, Nat.add_assoc]
  have hnext : nextEntryOffset (m.shift k) (slab + 1019892) =
      nextEntryOffset m (k + slab + 1019892) := by
    rw [nextEntryOffset, nextEntryOffset, Nat.add_assoc, Nat.add_assoc (k + slab), hoffset]
  have hheader : HeaderRep (m.shift k) (slab + 1019872) (liveCount r.entries) (liveBytes r.entries)
      r.dir ↔ HeaderRep m (k + slab + 1019872) (liveCount r.entries) (liveBytes r.entries) r.dir := by
    rw [headerRep_shift (by omega), Nat.add_assoc]
  constructor
  · rintro ⟨hbody, h, hoff, hoff', hrep⟩
    exact ⟨seg_shift.1 hbody, htop.1 h, (hoffset 1019892).symm.trans hoff, hnext.symm.trans hoff',
      hheader.1 hrep⟩
  · rintro ⟨hbody, h, hoff, hoff', hrep⟩
    exact ⟨seg_shift.2 hbody, htop.2 h, (hoffset 1019892).trans hoff, hnext.trans hoff',
      hheader.2 hrep⟩

theorem cellHolds_shift {l : Limits} {slab : Nat} {r : Ring} :
    CellHolds l (m.shift k) slab r ↔ CellHolds l m (k + slab) r := by
  have hword : ∀ i, (m.shift k).load32 (slab + i) = m.load32 (k + slab + i) := by
    intro i
    rw [Mem.shift_load32, Nat.add_assoc]
  constructor
  · rintro ⟨hrep, hinv, hmagic, hcodes⟩
    rw [hword] at hmagic
    rw [hword, hword] at hcodes
    exact ⟨(cellRep_shift hinv.room).1 hrep, hinv, hmagic, hcodes⟩
  · rintro ⟨hrep, hinv, hmagic, hcodes⟩
    rw [← hword] at hmagic
    rw [← hword, ← hword] at hcodes
    exact ⟨(cellRep_shift hinv.room).2 hrep, hinv, hmagic, hcodes⟩

theorem slabOf_shift (k base i : Nat) : k + slabOf base i = slabOf (k + base) i :=
  (Nat.add_assoc _ _ _).symm

theorem cacheHolds_shift {base n : Nat} {rings : Nat → Ring} :
    CacheHolds (m.shift k) base n rings ↔ CacheHolds m (k + base) n rings := by
  have hcount : cacheCellCount (m.shift k) base = cacheCellCount m (k + base) := by
    rw [cacheCellCount, Mem.shift_load64, ← Nat.add_assoc]
    rfl
  constructor
  · rintro ⟨hmagic, h, hcell, hplaced⟩
    refine ⟨hmagic, hcount.symm.trans h, fun i hi => ?_, hplaced⟩
    rw [← slabOf_shift]
    exact cellHolds_shift.1 (hcell i hi)
  · rintro ⟨hmagic, h, hcell, hplaced⟩
    refine ⟨hmagic, hcount.trans h, fun i hi => ?_, hplaced⟩
    rw [cellHolds_shift, slabOf_shift]
    exact hcell i hi

/-- The slots are all that matters. -/
theorem CacheHolds.congr {m' : Mem} {base n : Nat} {rings : Nat → Ring} (h : CacheHolds m base n rings)
    (hm : m.Agree m' base (base + (n + 1) * cacheCellSize)) : CacheHolds m' base n rings where
  magic := by
    rw [cacheMagic, (hm.mono (Nat.le_refl _) (by rw [cacheCellSize]; omega)).load64]
    exact h.magic
  count := by
    rw [cacheCellCount, (hm.mono (by omega) (by rw [cacheCellSize]; omega)).load64]
    exact h.count
  cell i hi := by
    refine (h.cell i hi).congr (hm.mono ?_ ?_)
    · have := base_add_le base i
      omega
    · simp only [slabOf, cacheCellSize]
      omega
  placed := h.placed

/-- The same bytes at another address are the same cache. -/
theorem CacheHolds.moved {m' : Mem} {base base' n : Nat} {rings : Nat → Ring}
    (h : CacheHolds m base n rings)
    (hm : (m.shift base).Agree (m'.shift base') 0 ((n + 1) * cacheCellSize)) :
    CacheHolds m' base' n rings := by
  have hfront : CacheHolds (m.shift base) 0 n rings := cacheHolds_shift.2 h
  have hmoved : CacheHolds (m'.shift base') 0 n rings := hfront.congr (by rwa [Nat.zero_add])
  exact cacheHolds_shift.1 hmoved

end

end Theo
