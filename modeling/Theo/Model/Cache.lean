import Theo.Model.Cell

set_option autoImplicit false

/-! # Caches

A cache is a header and an array of cells side by side in one buffer, from `cache_header.c`,
`cache.c` and `cache_metrics.c`. The buffer is divided into slots of `CACHE_CELL_SIZE` bytes: the
first holds the header, each of the others the slab of a cell. -/

namespace Theo

open ByteMachine

/-! ## `cache_header.c` -/

/-- `CACHE_HEADER_MAGIC`. -/
def cacheHeaderMagic : Nat := 340865607434

/-- `cache_header->cache_magic`. -/
def cacheMagic (m : Mem) (cacheHeader : Nat) : Nat := m.load64 cacheHeader
/-- `cache_header->cell_count`. -/
def cacheCellCount (m : Mem) (cacheHeader : Nat) : Nat := m.load64 (cacheHeader + 8)

def cacheHeaderInit (cacheHeader cellCount : Nat) : Act Unit := do
  let magic ← load (cacheMagic · cacheHeader)
  if magic = cacheHeaderMagic then pure ()
  else do
    store64 .cache (cacheHeader + 8) cellCount
    -- flush cell count
    emit .barrier
    store64 .cache cacheHeader cacheHeaderMagic
    -- flush magic
    emit .barrier

/-! ## `cache_metrics.c` -/

structure CacheMetrics where
  byteCount : Nat
  entryCount : Nat
deriving DecidableEq

def cacheMetricsInit : CacheMetrics := ⟨0, 0⟩

/-- Adding an `int32_t` to a `uint64_t`. -/
def addU64 (a : Nat) (x : Int) : Nat := ((a + x) % 2 ^ 64).toNat

/-- `cell_get_metrics`. -/
def cellGetMetrics (cell : Cell) (cacheMetrics : CacheMetrics) : Act CacheMetrics := do
  let bytes ← load (cellHeaderByteCount · cell.cellHeader)
  let entries ← load (cellHeaderEntryCount · cell.cellHeader)
  pure ⟨addU64 cacheMetrics.byteCount bytes, addU64 cacheMetrics.entryCount entries⟩

/-! ## `cache.c` -/

structure Cache where
  cells : List Cell
  cacheHeader : Nat

/-- The loop of `cache_init`, with `n` cells to go, the next at `ptr`. -/
def cacheInitCells (ptr : Nat) : Nat → Act (List Cell)
  | 0 => pure []
  | n + 1 => do
      let cell ← cellInit ptr cacheCellSize
      let cells ← cacheInitCells (ptr + cacheCellSize) n
      pure (cell :: cells)

def cacheInit (cacheBuffer cacheBufferSize : Nat) : Act Cache := do
  let slots := cacheBufferSize / cacheCellSize
  always (2 ≤ slots)
  let cellCount := slots - 1
  cacheHeaderInit cacheBuffer cellCount
  let cells ← cacheInitCells (cacheBuffer + cacheCellSize) cellCount
  pure ⟨cells, cacheBuffer⟩

/-- The first eight bytes of the checksum as a `uint64_t`. -/
def Checksum.part (checksum : Checksum) : Nat :=
  (checksum.bytes.take 8).foldr (fun b n => b.toNat + 256 * n) 0

def cacheGetCellIndex (cache : Cache) (checksum : Checksum) : Act Cell := do
  let cellCount ← load (cacheCellCount · cache.cacheHeader)
  match cache.cells[checksum.part % cellCount]? with
  | some cell => pure cell
  | none => throw .outOfBounds

def cacheAddChunk (cache : Cache) (checksum : Checksum) (buffer : List UInt8) : Act Bool := do
  let cell ← cacheGetCellIndex cache checksum
  cellAddChunk cell checksum buffer

def cacheHasChunk (cache : Cache) (checksum : Checksum) : Act Bool := do
  let cell ← cacheGetCellIndex cache checksum
  cellHasChunk cell checksum

def cacheGetChunk (cache : Cache) (checksum : Checksum) (chunk : Chunk) : Act (Bool × Chunk) := do
  let cell ← cacheGetCellIndex cache checksum
  cellGetChunk cell checksum chunk

/-- The loop of `cache_get_metrics`, at cell `i` with `n` cells to go. -/
def cacheGetMetricsLoop (cache : Cache) : Nat → Nat → CacheMetrics → Act CacheMetrics
  | _, 0, cacheMetrics => pure cacheMetrics
  | i, n + 1, cacheMetrics =>
      match cache.cells[i]? with
      | some cell => do
          let cacheMetrics ← cellGetMetrics cell cacheMetrics
          cacheGetMetricsLoop cache (i + 1) n cacheMetrics
      | none => throw .outOfBounds

/-- The number of cells is read off the header, which no cell changes. -/
def cacheGetMetrics (cache : Cache) : Act CacheMetrics := do
  let cellCount ← load (cacheCellCount · cache.cacheHeader)
  cacheGetMetricsLoop cache 0 cellCount cacheMetricsInit

end Theo
