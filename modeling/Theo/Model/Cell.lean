import Theo.Model.CellBody

set_option autoImplicit false

/-! # Cells

The public operations on one cell, from `cell.c`, with `cell_header_init` and `chunk.c`. Each
operation runs under the mutex of its cell and is one step of the model. -/

namespace Theo

open ByteMachine

/-- `CACHE_CELL_SIZE`. -/
@[simp] def cacheCellSize : Nat := 1048576

/-- `CHUNK_MAX_BUFFER_SIZE`. -/
@[simp] def chunkMaxBufferSize : Nat := 32768

/-! ## `chunk.c` -/

structure Chunk where
  checksum : Checksum
  buffer : List UInt8
  bufferSize : Nat

/-- Copies into the front of the chunk's buffer; `buffer_size` has 16 bits. -/
def chunkSet (chunk : Chunk) (checksum : Checksum) (buffer : List UInt8) : Act Chunk := do
  always (buffer.length ≤ chunkMaxBufferSize)
  pure { chunk with
    checksum := checksum
    buffer := buffer ++ chunk.buffer.drop buffer.length
    bufferSize := buffer.length % 2 ^ 16 }

/-! ## `cell_header_init` -/

def cellHeaderInit (cellHeader : Nat) (cell : Cell) : Act Unit := do
  memset .header cellHeader sizeofCellHeader
  cellIcInit (cellIcPtr cellHeader)
  cellDirInit (cellDirPtr cellHeader)
  cellBodyInit (cellBodyPtr cellHeader) cell
  emit .barrier
  store32 .header cellHeader cellHeaderMagic
  emit .barrier

/-! ## `cell.c` -/

def cellInit (slab slabSize : Nat) : Act Cell := do
  always (sizeofCellHeader < slabSize)
  let cell : Cell := ⟨slab + (slabSize - sizeofCellHeader), slab, slabSize⟩
  let sane ← load (cellHeaderSane · cell.cellHeader)
  if sane then pure cell
  else do
    cellHeaderInit cell.cellHeader cell
    pure cell

/-- `cell->slab + (cell->slab_size - sizeof(struct cell_header))`. -/
def Cell.bufferTop (cell : Cell) : Nat := cell.slab + (cell.slabSize - sizeofCellHeader)

def cellAddChunk (cell : Cell) (checksum : Checksum) (buffer : List UInt8) : Act Bool := do
  let found ← cellDirGetChunk (cellDirPtr cell.cellHeader) cell.bufferTop checksum
  match found with
  | some _ => pure false
  | none => do
      let _ ← cellIcOnEntry (cellIcPtr cell.cellHeader)
      cellBodyAdd (cellBodyPtr cell.cellHeader) cell checksum buffer
      let _ ← cellIcOnExit (cellIcPtr cell.cellHeader)
      pure true

def cellGetChunk (cell : Cell) (checksum : Checksum) (chunk : Chunk) : Act (Bool × Chunk) := do
  let found ← cellDirGetChunk (cellDirPtr cell.cellHeader) cell.bufferTop checksum
  match found with
  | none => pure (false, chunk)
  | some entry => do
      let ptr := cell.slab + entry.offset
      let bits ← load (entryBits · ptr)
      let buffer ← load (·.read (ptr + sizeofCellBodyEntry) bits.size)
      let chunk ← chunkSet chunk entry.checksum buffer
      pure (true, chunk)

def cellHasChunk (cell : Cell) (checksum : Checksum) : Act Bool := do
  let found ← cellDirGetChunk (cellDirPtr cell.cellHeader) cell.bufferTop checksum
  pure found.isSome

def cellEntryCount (cell : Cell) : Act Int := load (cellHeaderEntryCount · cell.cellHeader)

def cellByteCount (cell : Cell) : Act Int := load (cellHeaderByteCount · cell.cellHeader)

end Theo
