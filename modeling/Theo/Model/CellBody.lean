import Theo.Model.CellHeader

set_option autoImplicit false

/-! # The cell body

The ring buffer of chunk data, from `cell_body_entry.c` and `cell_body.c`. Entries lie back to
back from the start of the slab; the last one, the top, is an empty free entry behind which the
unused space begins. `cellBody` is the address of the two offsets, `cellBodyEntry` that of an
entry. A buffer and its size are one list of bytes; `cell_dir_entry`, a local variable of the
caller that is only written here, is passed by value. -/

namespace Theo

open ByteMachine

/-- `cell_body->top_entry_offset`. -/
def topEntryOffset (m : Mem) (cellBody : Nat) : Nat := m.load32 cellBody
/-- `cell_body->next_entry_offset`. -/
def nextEntryOffset (m : Mem) (cellBody : Nat) : Nat := m.load32 (cellBody + 4)

/-! ## `cell_body_entry.c` -/

def cellBodyEntryInit (cellBodyEntry : Nat) : Act Unit :=
  memset .body cellBodyEntry sizeofCellBodyEntry

def cellBodyEntryFree (m : Mem) (cellBodyEntry : Nat) : Bool :=
  (entryBits m cellBodyEntry).freeSpace == 1

def cellBodyEntryTop (m : Mem) (cellBodyEntry : Nat) : Bool :=
  (entryBits m cellBodyEntry).topEntry == 1

/-! ## `cell_body.c` -/

def cellBodySetTop (cellBodyEntry : Nat) : Act Unit := do
  assignField .freeSpace cellBodyEntry 1
  assignField .topEntry cellBodyEntry 1
  assignField .size cellBodyEntry 0

def cellBodyInit (cellBody : Nat) (cell : Cell) : Act Unit := do
  memset .bodyOffsets cellBody 8
  cellBodySetTop cell.slab
  assignField .previousSize cell.slab 0
  store32 .bodyOffsets cellBody 0
  store32 .bodyOffsets (cellBody + 4) 0

def cellBodyWriteChunk (cellBodyEntry : Nat) (checksum : Checksum) (buffer : List UInt8) :
    Act Unit := do
  storeBytes .body cellBodyEntry checksum.bytes
  assignField .size cellBodyEntry buffer.length
  assignField .freeSpace cellBodyEntry 0
  storeBytes .body (cellBodyEntry + sizeofCellBodyEntry) buffer

/-- The result is noted in the log with the operands it was computed from. -/
def cellBodyFreeSpace (cellBody : Nat) (cell : Cell) : Act Nat := do
  let top ← load (topEntryOffset · cellBody)
  let endOfBody := u32 (top + sizeofCellBodyEntry)
  let used ← cellHeaderBytesUsed cell.cellHeader
  let result := sub32 cell.slabSize (u32 (endOfBody + used))
  let overflow ← load (headerOverflowCount · cell.cellHeader)
  emit (.mark (.freeSpace top overflow cell.slabSize result))
  pure result

def cellBodyAddTop (cellBody : Nat) (cell : Cell) (checksum : Checksum) (buffer : List UInt8) :
    Act Bool := do
  let requiredSpace := u32 (buffer.length + sizeofCellBodyEntry + sizeofCellDirEntry)
  let freeSpace ← cellBodyFreeSpace cellBody cell
  if freeSpace < requiredSpace then pure false
  else do
    let top ← load (topEntryOffset · cellBody)
    let cellBodyEntry := cell.slab + top
    -- no longer top or free
    assignField .freeSpace cellBodyEntry 0
    assignField .topEntry cellBodyEntry 0
    assignField .size cellBodyEntry buffer.length
    storeBytes .body cellBodyEntry checksum.bytes
    storeBytes .body (cellBodyEntry + sizeofCellBodyEntry) buffer
    let top ← load (topEntryOffset · cellBody)
    cellHeaderAdd cell.cellHeader (cellDirEntrySet checksum top) buffer.length
    -- the new top
    let newTop := cellBodyEntry + sizeofCellBodyEntry + buffer.length
    cellBodySetTop newTop
    assignField .previousSize newTop buffer.length
    let top ← load (topEntryOffset · cellBody)
    store32 .bodyOffsets cellBody (u32 (top + (buffer.length + sizeofCellBodyEntry)))
    let top ← load (topEntryOffset · cellBody)
    store32 .bodyOffsets (cellBody + 4) top
    pure true

/-- The result of `cell_body_add_top` is dropped, as in the source. -/
def cellBodyPushDownTop (cellBody : Nat) (cell : Cell) (cellBodyEntry : Nat)
    (checksum : Checksum) (buffer : List UInt8) : Act Unit := do
  cellBodySetTop cellBodyEntry
  let next ← load (nextEntryOffset · cellBody)
  store32 .bodyOffsets cellBody next
  let _ ← cellBodyAddTop cellBody cell checksum buffer
  pure ()

def cellBodyNextEntryIsTop (cellBodyEntry : Nat) : Act Bool := do
  let bits ← load (entryBits · cellBodyEntry)
  let ptr := cellBodyEntry + (bits.size + sizeofCellBodyEntry)
  emit (.mark (.visit ptr))
  load (cellBodyEntryTop · ptr)

/-- The part of `cell_body_add_dir_entry` that deletes the entry below the top and moves the top
back. -/
def cellBodyDropBelowTop (cell : Cell) (cellBody : Nat) : Act Unit := do
  let offset ← load (topEntryOffset · cellBody)
  let bits ← load (entryBits · (cell.slab + offset))
  let offset := sub32 offset (bits.previousSize + sizeofCellBodyEntry)
  let cellBodyEntry := cell.slab + offset
  let free ← load (cellBodyEntryFree · cellBodyEntry)
  always (!free)
  cellHeaderRemove cell.cellHeader cellBodyEntry
  cellBodySetTop cellBodyEntry
  store32 .bodyOffsets cellBody offset

def cellBodyAddDirEntry (cell : Cell) (cellBody : Nat) (cellDirEntry : CellDirEntry)
    (entrySize : Nat) : Act Unit := do
  let freeSpace ← cellBodyFreeSpace cellBody cell
  if sizeofCellDirEntry ≤ freeSpace then
    cellHeaderAdd cell.cellHeader cellDirEntry entrySize
  else do
    cellBodyDropBelowTop cell cellBody
    let freeSpace ← cellBodyFreeSpace cellBody cell
    always (sizeofCellDirEntry ≤ freeSpace)
    cellHeaderAdd cell.cellHeader cellDirEntry entrySize

/-- What `cell_body_add_offset` does with each entry it takes the place of. -/
def cellBodyEvict (cell : Cell) (cellBodyEntry : Nat) : Act Unit := do
  let free ← load (cellBodyEntryFree · cellBodyEntry)
  if free then pure () else cellHeaderRemove cell.cellHeader cellBodyEntry

/-- The loop of `cell_body_add_offset` that merges entries from `ptr` on until `requiredSpace`
bytes are free: the last merged entry and the free bytes, or `none` when it hits the top. The
first argument bounds the number of rounds. -/
def cellBodyMergeLoop (cell : Cell) (requiredSpace : Nat) :
    Nat → Nat → Nat → Act (Option (Nat × Nat))
  | 0, _, _ => throw .diverges
  | fuel + 1, ptr, freeSpace =>
      if freeSpace < requiredSpace then do
        let bits ← load (entryBits · ptr)
        let ptr := ptr + (bits.size + sizeofCellBodyEntry)
        emit (.mark (.visit ptr))
        let top ← load (cellBodyEntryTop · ptr)
        if top then pure none
        else do
          cellBodyEvict cell ptr
          let bits ← load (entryBits · ptr)
          cellBodyMergeLoop cell requiredSpace fuel ptr
            (u32 (freeSpace + (bits.size + sizeofCellBodyEntry)))
      else pure (some (ptr, freeSpace))

/-- `cell_body_add_offset` where the entry has the required size: update it in place. -/
def cellBodyAddInPlace (cellBody : Nat) (cell : Cell) (cellBodyEntry : Nat) (checksum : Checksum)
    (buffer : List UInt8) : Act Unit := do
  cellBodyWriteChunk cellBodyEntry checksum buffer
  let next ← load (nextEntryOffset · cellBody)
  cellBodyAddDirEntry cell cellBody (cellDirEntrySet checksum next) buffer.length
  let next ← load (nextEntryOffset · cellBody)
  store32 .bodyOffsets (cellBody + 4) (u32 (next + (sizeofCellBodyEntry + buffer.length)))

/-- The end of `cell_body_add_offset`: the free space left over becomes an entry. -/
def cellBodyAddHole (cellBody : Nat) (cell : Cell) (freeSpace size : Nat) : Act Unit := do
  let next ← load (nextEntryOffset · cellBody)
  let hole := cell.slab + next
  cellBodyEntryInit hole
  assignField .previousSize hole size
  assignField .size hole freeSpace
  assignField .freeSpace hole 1
  assignField .topEntry hole 0
  -- the back link of the entry after it
  assignField .previousSize (hole + (sizeofCellBodyEntry + freeSpace)) freeSpace

/-- `cell_body_add_offset` where merged entries leave room between the chunk and the next entry. -/
def cellBodyAddAndSplit (cellBody : Nat) (cell : Cell) (cellBodyEntry : Nat) (checksum : Checksum)
    (buffer : List UInt8) (freeSpace : Nat) : Act Unit := do
  cellBodyWriteChunk cellBodyEntry checksum buffer
  let next ← load (nextEntryOffset · cellBody)
  cellBodyAddDirEntry cell cellBody (cellDirEntrySet checksum next) buffer.length
  let freeSpace := sub32 freeSpace (u32 (buffer.length + sizeofCellBodyEntry))
  let next ← load (nextEntryOffset · cellBody)
  store32 .bodyOffsets (cellBody + 4) (u32 (next + (sizeofCellBodyEntry + buffer.length)))
  cellBodyAddHole cellBody cell freeSpace buffer.length

/-- `cell_body_add_offset` where entries have to be merged. -/
def cellBodyAddMerged (cellBody : Nat) (cell : Cell) (cellBodyEntry : Nat) (checksum : Checksum)
    (buffer : List UInt8) : Act Unit := do
  let requiredSpace := u32 (buffer.length + sizeofCellBodyEntry)
  let bits ← load (entryBits · cellBodyEntry)
  let merged ← cellBodyMergeLoop cell requiredSpace (requiredSpace + 1) cellBodyEntry bits.size
  match merged with
  | none => cellBodyPushDownTop cellBody cell cellBodyEntry checksum buffer
  | some (last, freeSpace) => do
      let nextIsTop ← cellBodyNextEntryIsTop last
      if nextIsTop then cellBodyPushDownTop cellBody cell cellBodyEntry checksum buffer
      else cellBodyAddAndSplit cellBody cell cellBodyEntry checksum buffer freeSpace

def cellBodyAddOffset (cellBody : Nat) (cell : Cell) (checksum : Checksum)
    (buffer : List UInt8) : Act Unit := do
  let next ← load (nextEntryOffset · cellBody)
  let cellBodyEntry := cell.slab + next
  emit (.mark (.visit cellBodyEntry))
  cellBodyEvict cell cellBodyEntry
  assignField .freeSpace cellBodyEntry 0
  let bits ← load (entryBits · cellBodyEntry)
  if bits.size = buffer.length then cellBodyAddInPlace cellBody cell cellBodyEntry checksum buffer
  else cellBodyAddMerged cellBody cell cellBodyEntry checksum buffer

def cellBodyAdd (cellBody : Nat) (cell : Cell) (checksum : Checksum) (buffer : List UInt8) :
    Act Unit := do
  let next ← load (nextEntryOffset · cellBody)
  let top ← load (cellBodyEntryTop · (cell.slab + next))
  if top then do
    let added ← cellBodyAddTop cellBody cell checksum buffer
    if added then pure ()
    else do
      store32 .bodyOffsets (cellBodyPtr cell.cellHeader + 4) 0
      cellBodyAddOffset cellBody cell checksum buffer
  else cellBodyAddOffset cellBody cell checksum buffer

end Theo
