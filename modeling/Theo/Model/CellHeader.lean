import Theo.Model.CellDir

set_option autoImplicit false

/-! # The cell header

The header at the top end of a slab, from `cell_ic.c` and `cell_header.c`: the magic number, the
entry and byte counts, the integrity code, the two offsets of the body and the directory.
`cell_header_init` needs the body and stands in `Theo.Model.Cell`. -/

namespace Theo

open ByteMachine

@[simp] def cellHeaderMagic : Nat := 26061973

/-- `struct cell`, less its mutex: every call below runs under it. -/
structure Cell where
  cellHeader : Nat
  slab : Nat
  slabSize : Nat
deriving DecidableEq

/-! ## Fields of `struct cell_header` -/

/-- `&cell_header->entry_count`. -/
@[simp] def entryCountPtr (cellHeader : Nat) : Nat := cellHeader + 4
/-- `&cell_header->byte_count`. -/
@[simp] def byteCountPtr (cellHeader : Nat) : Nat := cellHeader + 8
/-- `&cell_header->cell_ic`. -/
@[simp] def cellIcPtr (cellHeader : Nat) : Nat := cellHeader + 12
/-- `&cell_header->cell_body`. -/
@[simp] def cellBodyPtr (cellHeader : Nat) : Nat := cellHeader + 20
/-- `&cell_header->cell_dir`. -/
@[simp] def cellDirPtr (cellHeader : Nat) : Nat := cellHeader + 28

/-- `cell_ic->entry_code`. -/
def entryCode (m : Mem) (cellIc : Nat) : Nat := m.load32 cellIc
/-- `cell_ic->exit_code`. -/
def exitCode (m : Mem) (cellIc : Nat) : Nat := m.load32 (cellIc + 4)

/-- `cell_header->cell_dir.overflow.overflow_count`. -/
def headerOverflowCount (m : Mem) (cellHeader : Nat) : Nat :=
  overflowCount m (overflowPtr (cellDirPtr cellHeader))

/-! ## `cell_ic.c` -/

def cellIcInit (cellIc : Nat) : Act Unit := memset .integrity cellIc 8

def cellIcSane (m : Mem) (cellIc : Nat) : Bool := entryCode m cellIc == exitCode m cellIc

def cellIcOnEntry (cellIc : Nat) : Act Nat := do
  let code ← load (entryCode · cellIc)
  store32 .integrity cellIc (u32 (code + 1))
  emit .barrier
  load (entryCode · cellIc)

def cellIcOnExit (cellIc : Nat) : Act Nat := do
  emit .barrier
  let code ← load (entryCode · cellIc)
  store32 .integrity (cellIc + 4) code
  emit .barrier
  load (exitCode · cellIc)

/-! ## `cell_header.c` -/

def cellHeaderSane (m : Mem) (cellHeader : Nat) : Bool :=
  if m.load32 cellHeader ≠ cellHeaderMagic then false
  else cellIcSane m (cellIcPtr cellHeader)

def cellHeaderBytesUsed (cellHeader : Nat) : Act Nat :=
  load fun m => u32 (sizeofCellHeader + headerOverflowCount m cellHeader * sizeofCellDirEntry)

def cellHeaderRemove (cellHeader cellBodyEntry : Nat) : Act Unit := do
  let checksum ← load (loadChecksum · cellBodyEntry)
  let ret ← cellDirRemove (cellDirPtr cellHeader) cellHeader checksum
  always ret
  let count ← load (·.load32 (entryCountPtr cellHeader))
  store32 .header (entryCountPtr cellHeader) (sub32 count 1)
  let count ← load (·.load32 (entryCountPtr cellHeader))
  always (0 < int32 count)
  let bytes ← load (·.load32 (byteCountPtr cellHeader))
  let bits ← load (entryBits · cellBodyEntry)
  store32 .header (byteCountPtr cellHeader) (sub32 bytes bits.size)
  let bytes ← load (·.load32 (byteCountPtr cellHeader))
  always (0 < int32 bytes)

def cellHeaderAdd (cellHeader : Nat) (cellDirEntry : CellDirEntry) (size : Nat) : Act Unit := do
  cellDirAdd (cellDirPtr cellHeader) cellHeader cellDirEntry
  let count ← load (·.load32 (entryCountPtr cellHeader))
  store32 .header (entryCountPtr cellHeader) (u32 (count + 1))
  let bytes ← load (·.load32 (byteCountPtr cellHeader))
  store32 .header (byteCountPtr cellHeader) (u32 (bytes + size))

def cellHeaderByteCount (m : Mem) (cellHeader : Nat) : Int :=
  int32 (m.load32 (byteCountPtr cellHeader))

def cellHeaderEntryCount (m : Mem) (cellHeader : Nat) : Int :=
  int32 (m.load32 (entryCountPtr cellHeader))

end Theo
