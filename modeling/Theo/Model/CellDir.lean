import Theo.Model.Layout

set_option autoImplicit false

/-! # The cell directory

The index of a cell, from `cell_dir_entry.c`, `cell_dir_block.c`, `cell_dir_overflow.c` and
`cell_dir.c`: 256 blocks of three slots each, chosen by byte 17 of the checksum, and one overflow
area shared by all blocks that grows down from `bufferTop`. Pointers are addresses; an out
parameter that is only filled on success is an `Option` result. -/

namespace Theo

open ByteMachine

@[simp] def cellDirBlockCount : Nat := 256
@[simp] def cellDirBlockChecksumByte : Nat := 17
@[simp] def cellDirBlockEntries : Nat := 3

/-- The block a checksum belongs to. -/
def Checksum.blockNo (c : Checksum) : Nat :=
  (c.bytes.get ⟨cellDirBlockChecksumByte, by rw [c.length_eq]; decide⟩).toNat

theorem Checksum.blockNo_lt (c : Checksum) : c.blockNo < 256 := UInt8.toNat_lt _

/-! ## `cell_dir_entry.c` -/

/-- Clears the entry, then its checksum. -/
def cellDirEntryInit (site : Site) (cellDirEntry : Nat) : Act Unit := do
  memset site cellDirEntry sizeofCellDirEntry
  memset site cellDirEntry 32

def cellDirEntryCopy (site : Site) (dest : Nat) (source : CellDirEntry) : Act Unit :=
  storeBytes site dest source.bytes

def cellDirEntrySet (checksum : Checksum) (offset : Nat) : CellDirEntry where
  checksum := checksum
  offset := offset % 2 ^ 31
  set := true
  offset_lt := Nat.mod_lt _ (by decide)

/-! ## `cell_dir_block.c` -/

def entryCount (m : Mem) (cellDirBlock : Nat) : Nat := getBits (m.load32 (cellDirBlock + 108)) 0 4

def blockOverflowCount (m : Mem) (cellDirBlock : Nat) : Nat :=
  getBits (m.load32 (cellDirBlock + 108)) 4 12

def cellDirBlockInit (cellDirBlock : Nat) : Act Unit := memset .dir cellDirBlock sizeofCellDirBlock

/-- The loop of `cell_dir_block_add`, at the slot at `entry` with `n` slots to go. -/
def cellDirBlockAddLoop (cellDirBlock : Nat) (cellDirEntry : CellDirEntry) : Nat → Nat → Act Bool
  | _, 0 => pure false
  | entry, n + 1 => do
      let slot ← load (loadDirEntry · entry)
      if slot.set = false then
        cellDirEntryCopy .dir entry cellDirEntry
        let count ← load (entryCount · cellDirBlock)
        storeBits .dir (cellDirBlock + 108) 0 4 (count + 1)
        pure true
      else
        cellDirBlockAddLoop cellDirBlock cellDirEntry (entry + sizeofCellDirEntry) n

def cellDirBlockAdd (cellDirBlock : Nat) (cellDirEntry : CellDirEntry) : Act Bool :=
  cellDirBlockAddLoop cellDirBlock cellDirEntry cellDirBlock cellDirBlockEntries

/-- The loop of `cell_dir_block_find`. -/
def cellDirBlockFindLoop (checksum : Checksum) : Nat → Nat → Act (Option Nat)
  | _, 0 => pure none
  | entry, n + 1 => do
      let slot ← load (loadDirEntry · entry)
      if slot.set = false then
        cellDirBlockFindLoop checksum (entry + sizeofCellDirEntry) n
      else if checksum = slot.checksum then
        pure (some entry)
      else
        cellDirBlockFindLoop checksum (entry + sizeofCellDirEntry) n

def cellDirBlockFind (cellDirBlock : Nat) (checksum : Checksum) : Act (Option Nat) := do
  let count ← load (entryCount · cellDirBlock)
  if count = 0 then pure none
  else cellDirBlockFindLoop checksum cellDirBlock cellDirBlockEntries

def cellDirBlockRemove (cellDirBlock : Nat) (checksum : Checksum) : Act Bool := do
  let entry ← cellDirBlockFind cellDirBlock checksum
  match entry with
  | none => pure false
  | some entry => do
      cellDirEntryInit .dir entry
      let count ← load (entryCount · cellDirBlock)
      -- `entry_count--` on a field of four bits
      storeBits .dir (cellDirBlock + 108) 0 4 (count + 15)
      pure true

def cellDirBlockGetChunk (cellDirBlock : Nat) (checksum : Checksum) :
    Act (Option CellDirEntry) := do
  let entry ← cellDirBlockFind cellDirBlock checksum
  match entry with
  | none => pure none
  | some entry => do
      let found ← load (loadDirEntry · entry)
      pure (some found)

def cellDirBlockOverflowed (cellDirBlock : Nat) : Act Bool :=
  load fun m => 0 < blockOverflowCount m cellDirBlock

def cellDirBlockIncrementOverflow (cellDirBlock : Nat) : Act Nat := do
  let count ← load (blockOverflowCount · cellDirBlock)
  storeBits .dir (cellDirBlock + 108) 4 12 (count + 1)
  load (blockOverflowCount · cellDirBlock)

def cellDirBlockDecrementOverflow (cellDirBlock : Nat) : Act Nat := do
  let count ← load (blockOverflowCount · cellDirBlock)
  always (0 < count)
  storeBits .dir (cellDirBlock + 108) 4 12 (count - 1)
  load (blockOverflowCount · cellDirBlock)

/-! ## `cell_dir_overflow.c` -/

def overflowCount (m : Mem) (cellDirOverflow : Nat) : Nat :=
  getBits (m.load32 cellDirOverflow) 0 16

def cellDirOverflowInit (cellDirOverflow : Nat) : Act Unit := memset .dir cellDirOverflow 4

def cellDirOverflowAdd (cellDirOverflow bufferTop : Nat) (cellDirEntry : CellDirEntry) :
    Act Nat := do
  let count ← load (overflowCount · cellDirOverflow)
  storeBits .dir cellDirOverflow 0 16 (count + 1)
  let count ← load (overflowCount · cellDirOverflow)
  let entry := bufferTop - count * sizeofCellDirEntry
  cellDirEntryCopy .overflowAdd entry cellDirEntry
  pure count

/-- The loop of `cell_dir_overflow_remove`: `cellDirEntry` is the newest record, which moves into
the place of the removed one. -/
def cellDirOverflowRemoveLoop (cellDirOverflow cellDirEntry : Nat) (checksum : Checksum) :
    Nat → Nat → Act Bool
  | _, 0 => pure false
  | ptr, n + 1 => do
      let entry ← load (loadDirEntry · ptr)
      if entry.checksum = checksum then
        let newest ← load (loadDirEntry · cellDirEntry)
        cellDirEntryCopy .overflowRemove ptr newest
        memset .overflowRemove cellDirEntry sizeofCellDirEntry
        let count ← load (overflowCount · cellDirOverflow)
        storeBits .dir cellDirOverflow 0 16 (count - 1)
        pure true
      else
        cellDirOverflowRemoveLoop cellDirOverflow cellDirEntry checksum
          (ptr + sizeofCellDirEntry) n

def cellDirOverflowRemove (cellDirOverflow bufferTop : Nat) (checksum : Checksum) :
    Act Bool := do
  let count ← load (overflowCount · cellDirOverflow)
  let cellDirEntry := bufferTop - count * sizeofCellDirEntry
  if count = 1 then
    let entry ← load (loadDirEntry · cellDirEntry)
    if entry.checksum = checksum then
      memset .overflowRemove cellDirEntry sizeofCellDirEntry
      storeBits .dir cellDirOverflow 0 16 0
      pure true
    else
      pure false
  else
    cellDirOverflowRemoveLoop cellDirOverflow cellDirEntry checksum cellDirEntry count

/-- The loop of `cell_dir_overflow_get_chunk`. -/
def cellDirOverflowGetLoop (checksum : Checksum) : Nat → Nat → Act (Option CellDirEntry)
  | _, 0 => pure none
  | ptr, n + 1 => do
      let entry ← load (loadDirEntry · ptr)
      if entry.checksum = checksum then pure (some entry)
      else cellDirOverflowGetLoop checksum (ptr + sizeofCellDirEntry) n

def cellDirOverflowGetChunk (cellDirOverflow bufferTop : Nat) (checksum : Checksum) :
    Act (Option CellDirEntry) := do
  let count ← load (overflowCount · cellDirOverflow)
  if count = 0 then pure none
  else cellDirOverflowGetLoop checksum (bufferTop - count * sizeofCellDirEntry) count

/-! ## `cell_dir.c` -/

/-- `&cell_dir->blocks[i]`. -/
@[simp] def blockPtr (cellDir i : Nat) : Nat := cellDir + 112 * i

/-- `&cell_dir->overflow`. -/
@[simp] def overflowPtr (cellDir : Nat) : Nat := cellDir + 28672

/-- The loop of `cell_dir_init`, at block `i` with `n` blocks to go. -/
def cellDirInitLoop (cellDir : Nat) : Nat → Nat → Act Unit
  | _, 0 => pure ()
  | i, n + 1 => do
      cellDirBlockInit (blockPtr cellDir i)
      cellDirInitLoop cellDir (i + 1) n

def cellDirInit (cellDir : Nat) : Act Unit := do
  memset .dir cellDir sizeofCellDir
  cellDirInitLoop cellDir 0 cellDirBlockCount
  cellDirOverflowInit (overflowPtr cellDir)

def cellDirAdd (cellDir bufferTop : Nat) (cellDirEntry : CellDirEntry) : Act Unit := do
  let block := blockPtr cellDir cellDirEntry.checksum.blockNo
  let added ← cellDirBlockAdd block cellDirEntry
  if added then pure ()
  else do
    let _ ← cellDirOverflowAdd (overflowPtr cellDir) bufferTop cellDirEntry
    let _ ← cellDirBlockIncrementOverflow block
    pure ()

def cellDirRemove (cellDir bufferTop : Nat) (checksum : Checksum) : Act Bool := do
  let block := blockPtr cellDir checksum.blockNo
  let removed ← cellDirBlockRemove block checksum
  if removed then pure true
  else do
    let overflowed ← cellDirBlockOverflowed block
    if overflowed then
      let removed ← cellDirOverflowRemove (overflowPtr cellDir) bufferTop checksum
      if removed then
        let _ ← cellDirBlockDecrementOverflow block
        pure true
      else pure false
    else pure false

def cellDirGetChunk (cellDir bufferTop : Nat) (checksum : Checksum) :
    Act (Option CellDirEntry) := do
  let block := blockPtr cellDir checksum.blockNo
  let found ← cellDirBlockGetChunk block checksum
  match found with
  | some entry => pure (some entry)
  | none => do
      let overflowed ← cellDirBlockOverflowed block
      if overflowed then cellDirOverflowGetChunk (overflowPtr cellDir) bufferTop checksum
      else pure none

end Theo
