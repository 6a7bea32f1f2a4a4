import Theo.Model.Msys

set_option autoImplicit false

/-! # Cache managers

The cache in a file, from `cache_manager.c`, with `cache_release` from `cache.c`. -/

namespace Theo

open ByteMachine

/-- `struct cache_manager`; `ptr` is the address of the mapped file, or 0. -/
structure CacheManager where
  cache : Cache
  ptr : Nat
  memorySize : Nat
  fd : Int
  dax : Bool

def cacheManagerInit : CacheManager := ⟨⟨[], 0⟩, 0, 0, -1, false⟩

/-! ## The file -/

/-- `CACHE_MANAGER_MB`. -/
def cacheManagerMb : Nat := 1048576

def cacheManagerFilesize (requestedSize : Nat) : Nat :=
  (requestedSize / cacheManagerMb + 1) * cacheManagerMb

section

variable {σ : Type} (os : Msys σ)

/-- The inner loop of `cache_manager_create_file`, with `written` of the zeros of the buffer written.
The first argument bounds the number of rounds. -/
def createFileWriteLoop (fd : Int) : Nat → Nat → Sys σ Int
  | 0, _ => throw .diverges
  | fuel + 1, written => do
      let ret ← msysWrite os fd (List.replicate (cacheManagerMb - written) 0)
      if ret < 0 then pure (-1)
      else if written + ret.toNat < cacheManagerMb then
        createFileWriteLoop fd fuel (written + ret.toNat)
      else pure 0

/-- The outer loop, with the given number of megabytes to go. -/
def createFileLoop (fd : Int) : Nat → Sys σ Int
  | 0 => pure 0
  | n + 1 => do
      let ret ← createFileWriteLoop os fd cacheManagerMb 0
      if ret ≠ 0 then pure ret else createFileLoop fd n

/-- `fsync`, if all was written. -/
def createFileSync (fd ret : Int) : Sys σ Unit :=
  if ret ≠ 0 then pure ()
  else do
    let ret ← msysFsync os fd
    sysAlways (ret = 0)

def cacheManagerCreateFile (size : Nat) : Sys σ Int := do
  let fd ← msysOpen os true
  if fd < 0 then pure (-1)
  else do
    note .xmallocBuffer
    let ret ← createFileLoop os fd (size / cacheManagerMb)
    createFileSync os fd ret
    let closed ← msysClose os fd
    sysAlways (closed = 0)
    note .xfreeBuffer
    pure ret

def cacheManagerCheckFile (requiredSize : Nat) : Sys σ Int := do
  let size ← msysStat os
  match size with
  | none => cacheManagerCreateFile os requiredSize
  | some size =>
      if size ≠ requiredSize then do
        let ret ← msysUnlink os
        if ret ≠ 0 then pure ret else cacheManagerCreateFile os requiredSize
      else pure 0

/-! ## Releasing -/

/-- `pthread_mutex_destroy` on the mutex of the cell, which is not modelled. -/
def cellRelease (_cell : Cell) : Act Unit := pure ()

/-- The loop of `cache_release`, at cell `i` with `n` cells to go. -/
def cacheReleaseLoop (cache : Cache) : Nat → Nat → Act Unit
  | _, 0 => pure ()
  | i, n + 1 =>
      match cache.cells[i]? with
      | some cell => do
          cellRelease cell
          cacheReleaseLoop cache (i + 1) n
      | none => throw .outOfBounds

/-- An array of cells that is not allocated is empty. -/
def cacheRelease (cache : Cache) : Sys σ Cache :=
  if cache.cells = [] then pure cache
  else do
    let cellCount ← onCache (load (cacheCellCount · cache.cacheHeader))
    onCache (cacheReleaseLoop cache 0 cellCount)
    note (.xfreeCells cache.cacheHeader)
    pure { cache with cells := [] }

/-- The part of `cache_manager_release` that undoes the mapping. -/
def cacheManagerUnmap (cacheManager : CacheManager) : Sys σ CacheManager :=
  if cacheManager.ptr ≠ 0 then do
    let ret ← msysMunmap os cacheManager.ptr cacheManager.memorySize
    sysAlways (ret = 0)
    pure { cacheManager with ptr := 0 }
  else pure cacheManager

/-- The part of `cache_manager_release` that closes the file. -/
def cacheManagerClose (cacheManager : CacheManager) : Sys σ CacheManager :=
  if cacheManager.fd ≠ -1 then do
    let ret ← msysClose os cacheManager.fd
    sysAlways (ret = 0)
    pure { cacheManager with fd := -1 }
  else pure cacheManager

def cacheManagerRelease (cacheManager : CacheManager) : Sys σ CacheManager := do
  let cache ← cacheRelease cacheManager.cache
  let cacheManager ← cacheManagerUnmap os { cacheManager with cache := cache }
  cacheManagerClose os cacheManager

/-! ## Opening -/

/-- The end of `cache_manager_open_cache`, with the file mapped at `ptr`. -/
def cacheManagerMapped (cacheManager : CacheManager) (ptr : Nat) : Sys σ (Int × CacheManager) := do
  note (.cacheInit ptr)
  let cache ← onCache (cacheInit ptr cacheManager.memorySize)
  pure (0, { cacheManager with ptr := ptr, cache := cache })

/-- The jump to `err`. -/
def cacheManagerErr (cacheManager : CacheManager) : Sys σ (Int × CacheManager) := do
  let cacheManager ← cacheManagerRelease os cacheManager
  pure (-1, cacheManager)

def cacheManagerMap (cacheManager : CacheManager) : Sys σ (Int × CacheManager) := do
  let mapping ← msysMmap os cacheManager.memorySize true cacheManager.fd
  match mapping with
  | .mapped ptr _ => cacheManagerMapped { cacheManager with dax := true } ptr
  | .failed eopnotsupp =>
      if eopnotsupp then do
        -- no DAX support, try a normal mapping
        let mapping ← msysMmap os cacheManager.memorySize false cacheManager.fd
        match mapping with
        | .mapped ptr _ => cacheManagerMapped cacheManager ptr
        | .failed _ => cacheManagerErr os cacheManager
      else cacheManagerErr os cacheManager

def cacheManagerOpenCache (cacheManager : CacheManager) (cacheSize : Nat) :
    Sys σ (Int × CacheManager) := do
  let memorySize := cacheManagerFilesize cacheSize
  let ret ← cacheManagerCheckFile os memorySize
  if ret ≠ 0 then pure (ret, { cacheManager with memorySize := memorySize })
  else do
    let fd ← msysOpen os false
    if fd < 0 then pure (fd, { cacheManager with memorySize := memorySize, fd := fd })
    else cacheManagerMap os { cacheManager with memorySize := memorySize, fd := fd }

end

/-! ## Calls on the cache -/

/-- The call is noted in the log. -/
def cacheManagerAddChunk (cacheManager : CacheManager) (checksum : Checksum) (buffer : List UInt8) :
    Act Bool := do
  emit (.mark (.addChunk checksum.bytes buffer))
  cacheAddChunk cacheManager.cache checksum buffer

def cacheManagerHasChunk (cacheManager : CacheManager) (checksum : Checksum) : Act Bool := do
  emit (.mark (.hasChunk checksum.bytes))
  cacheHasChunk cacheManager.cache checksum

def cacheManagerGetChunk (cacheManager : CacheManager) (checksum : Checksum) (chunk : Chunk) :
    Act (Bool × Chunk) := cacheGetChunk cacheManager.cache checksum chunk

end Theo
