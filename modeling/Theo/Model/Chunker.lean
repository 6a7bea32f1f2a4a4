import Theo.Model.CacheManager
import Theo.Model.RollingHash2

set_option autoImplicit false

/-! # Chunking

How a stream is cut into chunks and passed to the cache, from `chunk_ref.c`, `chunker.c` and
`chunk_streamer.c`. A buffer and its length are one list of bytes, a pointer into a buffer is the rest
of the list from there on. `checksum_gen` comes from a library; it is the parameter `checksumGen`. -/

namespace Theo

open ByteMachine

def chunkerWindowWidth : Nat := 32
def chunkerMinChunkSize : Nat := 2 * 1024
def chunkerMaxChunkSize : Nat := 24 * 1024
def chunkerMask : BitVec 32 := 8191
def chunkerTrigger : BitVec 32 := 26061973 &&& chunkerMask

/-! ## `chunk_ref.c` -/

structure ChunkRef where
  checksum : Checksum
  buffer : List UInt8

def chunkRefSet (checksumGen : List UInt8 → Checksum) (buffer : List UInt8) : ChunkRef :=
  ⟨checksumGen buffer, buffer⟩

/-! ## `chunker.c` -/

/-- `retained` has room for `CHUNKER_MAX_CHUNK_SIZE` bytes. -/
structure Chunker where
  rhState2 : RhState2
  retained : List UInt8
  retainedSize : Nat

def chunkerInit : Act Chunker := do
  let (ret, rhState2) := rollingHash2Init rhState2Zero chunkerWindowWidth
  always (ret = 0)
  pure ⟨rhState2, List.replicate chunkerMaxChunkSize 0, 0⟩

/-- Copies a buffer that is too short to be cut into the chunker. -/
def Chunker.stash (chunker : Chunker) (buffer : List UInt8) : Chunker :=
  { chunker with
    retained := buffer ++ chunker.retained.drop buffer.length
    retainedSize := buffer.length }

/-- The chunk at the start of the buffer, or `none` for `CHUNKER_NOT_FOUND`. -/
def chunkerChunkBuffer (checksumGen : List UInt8 → Checksum) (chunker : Chunker)
    (buffer : List UInt8) : Act (Option ChunkRef × Chunker) := do
  always (chunker.retainedSize = 0)
  if buffer.length < chunkerMinChunkSize then pure (none, chunker.stash buffer)
  else
    let rhState2 := rollingHash2Reset chunker.rhState2
      (buffer.drop (chunkerMinChunkSize - chunkerWindowWidth))
    let maxLen := if chunkerMaxChunkSize ≤ buffer.length then
        chunkerMaxChunkSize - chunkerMinChunkSize
      else buffer.length - chunkerMinChunkSize
    let run := rollingHash2Run rhState2 buffer maxLen chunkerMask chunkerTrigger
    let chunker := { chunker with rhState2 := run.state }
    if run.ret = .hit then
      pure (some (chunkRefSet checksumGen (buffer.take (chunkerMinChunkSize + run.offset))), chunker)
    else if maxLen = chunkerMaxChunkSize - chunkerMinChunkSize then
      pure (some (chunkRefSet checksumGen (buffer.take chunkerMaxChunkSize)), chunker)
    else
      -- less than the maximum: wait for more
      pure (none, chunker.stash buffer)

/-- The retained bytes, which go to the front of the caller's buffer of `bufferLength` bytes. -/
def chunkerFlushRetained (chunker : Chunker) (bufferLength : Nat) : Act (List UInt8 × Chunker) := do
  always (chunker.retainedSize < bufferLength)
  if chunker.retainedSize = 0 then pure ([], chunker)
  else pure (chunker.retained.take chunker.retainedSize, { chunker with retainedSize := 0 })

/-! ## `chunk_streamer.c` -/

structure ChunkStreamer where
  chunker : Chunker
  cacheManager : CacheManager
  chunkAdded : Nat
  chunkHit : Nat

def chunkStreamerInit (cacheManager : CacheManager) : Act ChunkStreamer := do
  let chunker ← chunkerInit
  pure ⟨chunker, cacheManager, 0, 0⟩

/-- `chunk_streamer->chunk_hit++`. -/
def ChunkStreamer.countHit (streamer : ChunkStreamer) : ChunkStreamer :=
  { streamer with chunkHit := u32 (streamer.chunkHit + 1) }

/-- `chunk_streamer->chunk_added++`. -/
def ChunkStreamer.countAdded (streamer : ChunkStreamer) : ChunkStreamer :=
  { streamer with chunkAdded := u32 (streamer.chunkAdded + 1) }

/-- The functions of the cache that `chunk_streamer_process_buffer` calls. -/
structure CacheCalls where
  hasChunk : CacheManager → Checksum → Act Bool
  addChunk : CacheManager → Checksum → List UInt8 → Act Bool

/-- Those of `cache_manager.c`. -/
def managerCalls : CacheCalls := ⟨cacheManagerHasChunk, cacheManagerAddChunk⟩

/-- What `chunk_streamer_process_buffer` does with a chunk. The result of `cache_manager_add_chunk` is
dropped, as in the source. -/
def CacheCalls.pass (calls : CacheCalls) (streamer : ChunkStreamer) (chunkRef : ChunkRef) :
    Act ChunkStreamer := do
  let has ← calls.hasChunk streamer.cacheManager chunkRef.checksum
  if has then pure streamer.countHit
  else do
    let _ ← calls.addChunk streamer.cacheManager chunkRef.checksum chunkRef.buffer
    pure streamer.countAdded

/-- The loop of `chunk_streamer_process_buffer` from `ptr` on; the first argument bounds the number of
rounds. A chunk that is cut is noted in the log. -/
def CacheCalls.loop (calls : CacheCalls) (checksumGen : List UInt8 → Checksum) :
    Nat → ChunkStreamer → List UInt8 → Act ChunkStreamer
  | 0, _, _ => throw .diverges
  | fuel + 1, streamer, ptr => do
      let (found, chunker) ← chunkerChunkBuffer checksumGen streamer.chunker ptr
      let streamer := { streamer with chunker := chunker }
      match found with
      | none => pure streamer
      | some chunkRef => do
          emit (.mark (.chunk chunkRef.checksum.bytes chunkRef.buffer))
          let streamer ← calls.pass streamer chunkRef
          calls.loop checksumGen fuel streamer (ptr.drop chunkRef.buffer.length)

/-- `chunk_streamer_process_buffer` on a cache that need not be that of `cache_manager.c`. -/
def CacheCalls.processBuffer (calls : CacheCalls) (checksumGen : List UInt8 → Checksum)
    (streamer : ChunkStreamer) (buffer : List UInt8) : Act ChunkStreamer :=
  calls.loop checksumGen (buffer.length + 1) streamer buffer

def chunkStreamerPass (streamer : ChunkStreamer) (chunkRef : ChunkRef) : Act ChunkStreamer :=
  managerCalls.pass streamer chunkRef

def chunkStreamerLoop (checksumGen : List UInt8 → Checksum) (fuel : Nat) (streamer : ChunkStreamer)
    (ptr : List UInt8) : Act ChunkStreamer := managerCalls.loop checksumGen fuel streamer ptr

def chunkStreamerProcessBuffer (checksumGen : List UInt8 → Checksum) (streamer : ChunkStreamer)
    (buffer : List UInt8) : Act ChunkStreamer := managerCalls.processBuffer checksumGen streamer buffer

def chunkStreamerFlushRetained (streamer : ChunkStreamer) (bufferLength : Nat) :
    Act (List UInt8 × ChunkStreamer) := do
  let (bytes, chunker) ← chunkerFlushRetained streamer.chunker bufferLength
  pure (bytes, { streamer with chunker := chunker })

end Theo
