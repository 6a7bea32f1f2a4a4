import Mathlib.Data.Fintype.BigOperators
import Mathlib.Logic.Function.Basic
import Theo.Chunker.Passing
import Theo.Manager.Calls

set_option autoImplicit false

/-! # Streamers that share a cache

Any number of streamers pass chunks to one cache. A call of the cache runs under the mutex of its cell
and is one step; between the look-up of a chunk and its insertion other streamers may go on. A streamer
that runs alone does what `chunk_streamer_process_buffer` does (`processBuffer_steps`). -/

namespace Theo

open ByteMachine

/-- Where a streamer is in `chunk_streamer_process_buffer`, with what it has still to cut. -/
inductive Phase where
  | idle
  | cutting (ptr : List UInt8)
  | looking (chunkRef : ChunkRef) (ptr : List UInt8)
  /-- The chunk was not found. -/
  | adding (chunkRef : ChunkRef) (ptr : List UInt8)

structure Worker where
  streamer : ChunkStreamer
  phase : Phase

/-- What a step of a worker shows. -/
inductive Shown where
  | nothing
  | emitted (chunk : List UInt8)
  | hit (chunk : List UInt8)
  | added (inserted : Bool)

/-- One step of a streamer on the memory that it shares with the others. -/
inductive Worker.Step (checksumGen : List UInt8 → Checksum) :
    Worker → Store → Shown → Worker → Store → Prop where
  | process (streamer : ChunkStreamer) (buffer : List UInt8) (s : Store) :
      Step checksumGen ⟨streamer, .idle⟩ s .nothing ⟨streamer, .cutting buffer⟩ s
  | flush {streamer streamer' : ChunkStreamer} {bufferLength : Nat} {bytes : List UInt8} {s s' : Store}
      (h : chunkStreamerFlushRetained streamer bufferLength s = .ok (bytes, streamer') s') :
      Step checksumGen ⟨streamer, .idle⟩ s .nothing ⟨streamer', .idle⟩ s'
  | notFound {streamer : ChunkStreamer} {chunker : Chunker} {ptr : List UInt8} {s s' : Store}
      (h : chunkerChunkBuffer checksumGen streamer.chunker ptr s = .ok (none, chunker) s') :
      Step checksumGen ⟨streamer, .cutting ptr⟩ s .nothing
        ⟨{ streamer with chunker := chunker }, .idle⟩ s'
  | found {streamer : ChunkStreamer} {chunker : Chunker} {chunkRef : ChunkRef} {ptr : List UInt8}
      {s s' : Store}
      (h : chunkerChunkBuffer checksumGen streamer.chunker ptr s = .ok (some chunkRef, chunker) s') :
      Step checksumGen ⟨streamer, .cutting ptr⟩ s (.emitted chunkRef.buffer)
        ⟨{ streamer with chunker := chunker }, .looking chunkRef (ptr.drop chunkRef.buffer.length)⟩
        (s'.emit (.mark (.chunk chunkRef.checksum.bytes chunkRef.buffer)))
  | hit {streamer : ChunkStreamer} {chunkRef : ChunkRef} {ptr : List UInt8} {s s' : Store}
      (h : cacheManagerHasChunk streamer.cacheManager chunkRef.checksum s = .ok true s') :
      Step checksumGen ⟨streamer, .looking chunkRef ptr⟩ s (.hit chunkRef.buffer)
        ⟨streamer.countHit, .cutting ptr⟩ s'
  | miss {streamer : ChunkStreamer} {chunkRef : ChunkRef} {ptr : List UInt8} {s s' : Store}
      (h : cacheManagerHasChunk streamer.cacheManager chunkRef.checksum s = .ok false s') :
      Step checksumGen ⟨streamer, .looking chunkRef ptr⟩ s .nothing
        ⟨streamer, .adding chunkRef ptr⟩ s'
  | add {streamer : ChunkStreamer} {chunkRef : ChunkRef} {ptr : List UInt8} {inserted : Bool}
      {s s' : Store} (h : cacheManagerAddChunk streamer.cacheManager chunkRef.checksum
        chunkRef.buffer s = .ok inserted s') :
      Step checksumGen ⟨streamer, .adding chunkRef ptr⟩ s (.added inserted)
        ⟨streamer.countAdded, .cutting ptr⟩ s'

/-- Steps of one worker alone. -/
inductive Worker.Steps (checksumGen : List UInt8 → Checksum) :
    Worker → Store → Worker → Store → Prop where
  | refl (worker : Worker) (s : Store) : Steps checksumGen worker s worker s
  | head {worker worker' worker'' : Worker} {shown : Shown} {s s' s'' : Store}
      (h : worker.Step checksumGen s shown worker' s')
      (rest : Steps checksumGen worker' s' worker'' s'') : Steps checksumGen worker s worker'' s''

/-- `n` workers, the memory that they share, and what their steps have shown. -/
structure Pool (n : Nat) where
  workers : Fin n → Worker
  store : Store
  history : List Shown

/-- A step of worker `i`. -/
def Pool.Step {n : Nat} (checksumGen : List UInt8 → Checksum) (pool : Pool n) (i : Fin n)
    (pool' : Pool n) : Prop :=
  ∃ shown worker s, (pool.workers i).Step checksumGen pool.store shown worker s ∧
    pool' = ⟨Function.update pool.workers i worker, s, pool.history ++ [shown]⟩

/-- A run: `steps` are the states before each step, with the worker that takes it. -/
inductive Pool.Run {n : Nat} (checksumGen : List UInt8 → Checksum) (start : Pool n) :
    List (Pool n × Fin n) → Pool n → Prop where
  | start : Run checksumGen start [] start
  | step {steps : List (Pool n × Fin n)} {pool pool' : Pool n} {i : Fin n}
      (run : Run checksumGen start steps pool) (h : pool.Step checksumGen i pool') :
      Run checksumGen start (steps ++ [(pool, i)]) pool'

/-- New streamers on a cache manager. -/
structure Pool.New {n : Nat} (cacheManager : CacheManager) (pool : Pool n) : Prop where
  init : ∀ i, chunkStreamerInit cacheManager pool.store = .ok (pool.workers i).streamer pool.store
  idle : ∀ i, (pool.workers i).phase = .idle
  history : pool.history = []

/-- The chunks that were emitted. -/
def Pool.emitted {n : Nat} (pool : Pool n) : List (List UInt8) :=
  pool.history.filterMap fun shown => match shown with
    | .emitted chunk => some chunk
    | _ => none

/-- What a step adds to the emitted chunks. -/
def Shown.chunks : Shown → List (List UInt8)
  | .emitted chunk => [chunk]
  | _ => []

theorem emitted_history {n : Nat} (history : List Shown) (workers : Fin n → Worker) (s : Store)
    (shown : Shown) : Pool.emitted ⟨workers, s, history ++ [shown]⟩ =
      Pool.emitted ⟨workers, s, history⟩ ++ shown.chunks := by
  rw [Pool.emitted, List.filterMap_append]
  cases shown <;> rfl

/-- The calls of `cache_manager_add_chunk` that returned true. -/
def Pool.inserted {n : Nat} (pool : Pool n) : Nat :=
  pool.history.countP fun shown => match shown with
    | .added true => true
    | _ => false

section

variable {checksumGen : List UInt8 → Checksum} {streamer streamer' : ChunkStreamer}
  {worker worker' : Worker} {s s' : Store}

/-! ## A streamer alone -/

theorem Worker.Steps.trans {worker'' : Worker} {s'' : Store}
    (h : worker.Steps checksumGen s worker' s') (h' : worker'.Steps checksumGen s' worker'' s'') :
    worker.Steps checksumGen s worker'' s'' := by
  induction h with
  | refl => exact h'
  | head hstep _ ih => exact .head hstep (ih h')

theorem chunkStreamerPass_steps {chunkRef : ChunkRef} {ptr : List UInt8}
    (h : chunkStreamerPass streamer chunkRef s = .ok streamer' s') :
    Worker.Steps checksumGen ⟨streamer, .looking chunkRef ptr⟩ s ⟨streamer', .cutting ptr⟩ s' := by
  obtain ⟨has, s₁, hhas, hrest⟩ := of_bind_ok h
  cases has with
  | true =>
      obtain ⟨rfl, rfl⟩ := EStateM.Result.ok.inj hrest
      exact .head (.hit hhas) (.refl _ _)
  | false =>
      rw [if_neg Bool.false_ne_true] at hrest
      obtain ⟨inserted, s₂, hadd, hpure⟩ := of_bind_ok hrest
      obtain ⟨rfl, rfl⟩ := EStateM.Result.ok.inj hpure
      exact .head (.miss hhas) (.head (.add hadd) (.refl _ _))

theorem chunkStreamerLoop_steps {fuel : Nat} {ptr : List UInt8}
    (h : chunkStreamerLoop checksumGen fuel streamer ptr s = .ok streamer' s') :
    Worker.Steps checksumGen ⟨streamer, .cutting ptr⟩ s ⟨streamer', .idle⟩ s' := by
  induction fuel generalizing streamer ptr s with
  | zero => cases h
  | succ fuel ih =>
      rw [chunkStreamerLoop] at h
      obtain ⟨⟨found, chunker⟩, s₁, hcut, hrest⟩ := of_bind_ok h
      cases found with
      | none =>
          obtain ⟨rfl, rfl⟩ := EStateM.Result.ok.inj hrest
          exact .head (.notFound hcut) (.refl _ _)
      | some chunkRef =>
          obtain ⟨_, s₂, hemit, hpass⟩ := of_bind_ok hrest
          obtain ⟨-, rfl⟩ := EStateM.Result.ok.inj hemit
          obtain ⟨streamer₁, s₃, hpass₁, hloop⟩ := of_bind_ok hpass
          exact .head (.found hcut) ((chunkStreamerPass_steps hpass₁).trans (ih hloop))

/-- A call of `chunk_streamer_process_buffer` in the steps of its streamer. -/
theorem processBuffer_steps {buffer : List UInt8}
    (h : chunkStreamerProcessBuffer checksumGen streamer buffer s = .ok streamer' s') :
    Worker.Steps checksumGen ⟨streamer, .idle⟩ s ⟨streamer', .idle⟩ s' :=
  .head (.process streamer buffer s) (chunkStreamerLoop_steps h)

theorem Pool.Run.move {n : Nat} {start pool : Pool n} {steps : List (Pool n × Fin n)}
    {shown : Shown} (hrun : start.Run checksumGen steps pool) {i : Fin n}
    (h : (pool.workers i).Step checksumGen pool.store shown worker s) :
    start.Run checksumGen (steps ++ [(pool, i)])
      ⟨Function.update pool.workers i worker, s, pool.history ++ [shown]⟩ :=
  hrun.step ⟨shown, worker, s, h, rfl⟩

end

/-! ## Two streamers with one chunk -/

/-- Two workers. -/
def pair (left right : Worker) : Fin 2 → Worker := fun i => if i = 0 then left else right

section

variable {checksumGen : List UInt8 → Checksum} {start : Pool 2} {left right left' right' : Worker}
  {shown : Shown} {s s' : Store} {history : List Shown}

theorem update_pair_left : Function.update (pair left right) 0 left' = pair left' right := by
  funext i
  by_cases hi : i = 0
  · rw [hi, Function.update_self]
    rfl
  · rw [Function.update_of_ne hi, pair, pair, if_neg hi, if_neg hi]

theorem update_pair_right : Function.update (pair left right) 1 right' = pair left right' := by
  funext i
  by_cases hi : i = 0
  · subst hi
    rfl
  · have hone : i = 1 := by omega
    rw [hone, Function.update_self]
    rfl

/-- The pool is reached by some run. -/
def Reached (checksumGen : List UInt8 → Checksum) (start pool : Pool 2) : Prop :=
  ∃ steps, start.Run checksumGen steps pool

theorem Reached.moveLeft (h : Reached checksumGen start ⟨pair left right, s, history⟩)
    (hstep : left.Step checksumGen s shown left' s') :
    Reached checksumGen start ⟨pair left' right, s', history ++ [shown]⟩ := by
  obtain ⟨steps, hrun⟩ := h
  have hnext := hrun.move (i := 0) hstep
  rw [update_pair_left] at hnext
  exact ⟨_, hnext⟩

theorem Reached.moveRight (h : Reached checksumGen start ⟨pair left right, s, history⟩)
    (hstep : right.Step checksumGen s shown right' s') :
    Reached checksumGen start ⟨pair left right', s', history ++ [shown]⟩ := by
  obtain ⟨steps, hrun⟩ := h
  have hnext := hrun.move (i := 1) hstep
  rw [update_pair_right] at hnext
  exact ⟨_, hnext⟩

end

/-- A chunk of 2049 bytes. -/
def twinChunk : List UInt8 := sampleChunk 0

def twinGen (_ : List UInt8) : Checksum := .fill 1

/-- The chunk as it is cut off. -/
def twinRef : ChunkRef := chunkRefSet twinGen (twinChunk.take 2049)

/-- What is left behind it. -/
def twinRest : List UInt8 := twinChunk.drop twinRef.buffer.length

theorem twinChunk_length : twinChunk.length = 2049 := sampleChunk_length 0

theorem twinRef_length : twinRef.buffer.length = 2049 := by
  show (twinChunk.take 2049).length = 2049
  rw [List.length_take, twinChunk_length, Nat.min_self]

theorem cutOf_twinChunk : cutOf twinChunk = some 2049 := cutOf_sampleChunk 0

/-- Two new streamers on a new cache of one cell. -/
theorem twins_start : ∃ (s : Store) (streamer : ChunkStreamer),
    cacheInit 4096 ((1 + 1) * cacheCellSize) zeroed = .ok sampleManager.cache s ∧
    CacheHolds s.mem 4096 1 (fun _ => Ring.empty) ∧
    Pool.New sampleManager ⟨pair ⟨streamer, .idle⟩ ⟨streamer, .idle⟩, s, []⟩ ∧
    streamer.chunker.Idle ∧ streamer.cacheManager.cache = cacheAt 4096 1 ∧
    streamer.chunkAdded = 0 ∧ streamer.chunkHit = 0 := by
  obtain ⟨s, streamer, hinit, hholds, hstreamer, hidle, hmanager, hadded, hhit⟩ := samples_start
  have hboth : ∀ i, pair ⟨streamer, .idle⟩ ⟨streamer, .idle⟩ i = ⟨streamer, .idle⟩ := by
    intro i
    rw [pair, ite_self]
  refine ⟨s, streamer, hinit, hholds, ⟨fun i => ?_, fun i => ?_, rfl⟩, hidle, ?_, hadded, hhit⟩
  · show chunkStreamerInit sampleManager s = .ok (pair _ _ i).streamer s
    rw [hboth i]
    exact hstreamer
  · show (pair _ _ i).phase = .idle
    rw [hboth i]
  · rw [hmanager]
    rfl

section

variable {streamer : ChunkStreamer} {base n : Nat} {rings : Nat → Ring}

/-- A worker that is given the chunk cuts it off. -/
theorem cuts_twinChunk (h : streamer.chunker.Idle) (s : Store) : ∃ streamer' s',
    Worker.Step twinGen ⟨streamer, .idle⟩ s .nothing ⟨streamer, .cutting twinChunk⟩ s ∧
    Worker.Step twinGen ⟨streamer, .cutting twinChunk⟩ s (.emitted twinRef.buffer)
      ⟨streamer', .looking twinRef twinRest⟩ s' ∧ s'.mem = s.mem ∧
    streamer'.cacheManager = streamer.cacheManager ∧
    streamer'.chunkAdded = streamer.chunkAdded ∧ streamer'.chunkHit = streamer.chunkHit := by
  obtain ⟨chunker, hcut, -⟩ := chunkerChunkBuffer_run twinGen h.ready h.empty twinChunk s
  rw [cutOf_twinChunk, Option.map_some] at hcut
  exact ⟨_, _, .process streamer twinChunk s, .found hcut, rfl, rfl, rfl, rfl⟩

/-- Where the chunk is not in the cache, the worker does not find it. -/
theorem misses_twinChunk {s : Store} (hcache : streamer.cacheManager.cache = cacheAt base n)
    (hholds : CacheHolds s.mem base n rings) (hn : 1 ≤ n)
    (hmissing : ∀ c, (rings (c.part % n)).lookup c = none) : ∃ s',
      Worker.Step twinGen ⟨streamer, .looking twinRef twinRest⟩ s .nothing
        ⟨streamer, .adding twinRef twinRest⟩ s' ∧ s'.mem = s.mem := by
  refine ⟨s.emit (.mark (.hasChunk twinRef.checksum.bytes)), .miss ?_, rfl⟩
  rw [cacheManagerHasChunk_run hcache hholds hn, hmissing]
  rfl

/-- Where the chunk is in the cache, the worker finds it. -/
theorem hits_twinChunk {s : Store} (hcache : streamer.cacheManager.cache = cacheAt base n)
    (hholds : CacheHolds s.mem base n rings) (hn : 1 ≤ n)
    (hlookup : (rings (twinRef.checksum.part % n)).lookup twinRef.checksum = some twinRef.buffer) :
    ∃ s', Worker.Step twinGen ⟨streamer, .looking twinRef twinRest⟩ s (.hit twinRef.buffer)
      ⟨streamer.countHit, .cutting twinRest⟩ s' := by
  refine ⟨s.emit (.mark (.hasChunk twinRef.checksum.bytes)), .hit ?_⟩
  rw [cacheManagerHasChunk_run hcache hholds hn, hlookup]
  rfl

/-- A cache of one empty cell takes the chunk, and has it from then on. -/
theorem adds_twinChunk {s : Store} (hcache : streamer.cacheManager.cache = cacheAt base 1)
    (hholds : CacheHolds s.mem base 1 fun _ => Ring.empty) : ∃ s' rings,
      Worker.Step twinGen ⟨streamer, .adding twinRef twinRest⟩ s (.added true)
        ⟨streamer.countAdded, .cutting twinRest⟩ s' ∧
      CacheHolds s'.mem base 1 rings ∧
      (rings (twinRef.checksum.part % 1)).lookup twinRef.checksum = some twinRef.buffer := by
  have hlo : 2049 ≤ twinRef.buffer.length := Nat.le_of_eq twinRef_length.symm
  have hhi : twinRef.buffer.length ≤ 24576 := by
    rw [twinRef_length]
    omega
  obtain ⟨s', hadd, hholds'⟩ := cacheManagerAddChunk_run hcache hholds (Nat.le_refl 1) hlo hhi
    (Ring.empty_insert twinRef.checksum hhi)
  refine ⟨s', _, .add hadd, hholds', ?_⟩
  rw [Function.update_self]
  rfl

end

end Theo
