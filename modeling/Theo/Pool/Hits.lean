import Theo.Pool.Basic

set_option autoImplicit false

/-! # A hit is sound

All that the cache holds was emitted by some streamer, under its checksum. So where a look-up finds the
checksum of a chunk, the bytes it finds are those of an emitted chunk with that checksum, which is the
chunk itself if no two emitted chunks share one (`hit_sound`). This holds for every interleaving and
whatever the cache has evicted. -/

namespace Theo

open ByteMachine

/-- A chunk as the streamers pass it: emitted before, and of the size of a chunk. -/
structure Passed (checksumGen : List UInt8 → Checksum) (emitted : List (List UInt8))
    (chunkRef : ChunkRef) : Prop where
  ref : chunkRef = chunkRefSet checksumGen chunkRef.buffer
  emitted : chunkRef.buffer ∈ emitted
  lo : 2049 ≤ chunkRef.buffer.length
  hi : chunkRef.buffer.length ≤ 24576

def Phase.Passed (checksumGen : List UInt8 → Checksum) (emitted : List (List UInt8)) : Phase → Prop
  | .looking chunkRef _ => Theo.Passed checksumGen emitted chunkRef
  | .adding chunkRef _ => Theo.Passed checksumGen emitted chunkRef
  | _ => True

/-- A worker of a streamer on the cache. -/
structure Worker.Sound (checksumGen : List UInt8 → Checksum) (cacheManager : CacheManager)
    (emitted : List (List UInt8)) (worker : Worker) : Prop where
  cacheManager : worker.streamer.cacheManager = cacheManager
  chunker : worker.streamer.chunker.Ready
  passed : worker.phase.Passed checksumGen emitted

/-- A cache that holds emitted chunks only, each under its checksum. -/
def HoldsEmitted (checksumGen : List UInt8 → Checksum) (base n : Nat) (emitted : List (List UInt8))
    (m : Mem) : Prop :=
  ∃ rings, CacheHolds m base n rings ∧ ∀ i < n, ∀ c data, (rings i).lookup c = some data →
    data ∈ emitted ∧ checksumGen data = c

structure Pool.Sound {k : Nat} (checksumGen : List UInt8 → Checksum) (cacheManager : CacheManager)
    (base n : Nat) (pool : Pool k) : Prop where
  cache : HoldsEmitted checksumGen base n pool.emitted pool.store.mem
  workers : ∀ i, (pool.workers i).Sound checksumGen cacheManager pool.emitted

section

variable {k base n : Nat} {checksumGen : List UInt8 → Checksum} {cacheManager : CacheManager}
  {emitted emitted' : List (List UInt8)} {worker worker' : Worker} {shown : Shown} {s s' : Store}
  {m : Mem}

/-! ## More emitted chunks -/

theorem Worker.Sound.mono (h : worker.Sound checksumGen cacheManager emitted)
    (hsub : emitted ⊆ emitted') : worker.Sound checksumGen cacheManager emitted' where
  cacheManager := h.cacheManager
  chunker := h.chunker
  passed := by
    have hpassed := h.passed
    cases hphase : worker.phase with
    | idle => trivial
    | cutting ptr => trivial
    | looking chunkRef ptr =>
        rw [hphase] at hpassed
        exact ⟨hpassed.ref, hsub hpassed.emitted, hpassed.lo, hpassed.hi⟩
    | adding chunkRef ptr =>
        rw [hphase] at hpassed
        exact ⟨hpassed.ref, hsub hpassed.emitted, hpassed.lo, hpassed.hi⟩

theorem HoldsEmitted.mono (h : HoldsEmitted checksumGen base n emitted m)
    (hsub : emitted ⊆ emitted') : HoldsEmitted checksumGen base n emitted' m := by
  obtain ⟨rings, hholds, hlookup⟩ := h
  refine ⟨rings, hholds, fun i hi c data hdata => ?_⟩
  obtain ⟨hmem, hchecksum⟩ := hlookup i hi c data hdata
  exact ⟨hsub hmem, hchecksum⟩

/-! ## The chunker -/

/-- A chunker that returned had nothing retained. -/
theorem chunkerChunkBuffer_ok {chunker chunker' : Chunker} {found : Option ChunkRef}
    {ptr : List UInt8} (hready : chunker.Ready)
    (h : chunkerChunkBuffer checksumGen chunker ptr s = .ok (found, chunker') s') :
    s' = s ∧ chunker'.Ready ∧
      found = (cutOf ptr).map fun n => chunkRefSet checksumGen (ptr.take n) := by
  by_cases hempty : chunker.retainedSize = 0
  · obtain ⟨chunker₁, hrun, hready', -⟩ := chunkerChunkBuffer_run checksumGen hready hempty ptr s
    rw [h] at hrun
    obtain ⟨hresult, hs⟩ := EStateM.Result.ok.inj hrun
    obtain ⟨hfound, hchunker⟩ := Prod.mk.inj hresult
    exact ⟨hs, hchunker ▸ hready', hfound⟩
  · rw [chunkerChunkBuffer, always, check_bind_false _ (decide_eq_false hempty)] at h
    cases h

/-- A chunk that was cut has the size of one. -/
theorem chunkerChunkBuffer_found {chunker chunker' : Chunker} {chunkRef : ChunkRef}
    {ptr : List UInt8} (hready : chunker.Ready)
    (h : chunkerChunkBuffer checksumGen chunker ptr s = .ok (some chunkRef, chunker') s') :
    s' = s ∧ chunker'.Ready ∧ Passed checksumGen [chunkRef.buffer] chunkRef := by
  obtain ⟨hs, hready', hfound⟩ := chunkerChunkBuffer_ok hready h
  obtain ⟨size, hcut, rfl⟩ := Option.map_eq_some_iff.1 hfound.symm
  have hbounds := cutOf_bounds hcut
  have hlen : (chunkRefSet checksumGen (ptr.take size)).buffer.length = size := by
    show (ptr.take size).length = size
    rw [List.length_take, Nat.min_eq_left hbounds.2.2]
  refine ⟨hs, hready', rfl, List.mem_singleton_self _, ?_, ?_⟩
  · rw [hlen]
    omega
  · rw [hlen]
    omega

theorem chunkStreamerFlushRetained_ready {streamer streamer' : ChunkStreamer} {bufferLength : Nat}
    {bytes : List UInt8} (hready : streamer.chunker.Ready)
    (h : chunkStreamerFlushRetained streamer bufferLength s = .ok (bytes, streamer') s') :
    s' = s ∧ streamer'.chunker.Ready ∧ streamer'.cacheManager = streamer.cacheManager := by
  obtain ⟨⟨flushed, chunker⟩, s₁, hflush, hpure⟩ := of_bind_ok h
  obtain ⟨hresult, rfl⟩ := EStateM.Result.ok.inj hpure
  obtain ⟨-, rfl⟩ := Prod.mk.inj hresult
  rw [chunkerFlushRetained, always] at hflush
  by_cases hroom : streamer.chunker.retainedSize < bufferLength
  · rw [check_bind_true _ (decide_eq_true hroom)] at hflush
    split at hflush
    · obtain ⟨hflushed, rfl⟩ := EStateM.Result.ok.inj hflush
      obtain ⟨-, rfl⟩ := Prod.mk.inj hflushed
      exact ⟨rfl, hready, rfl⟩
    · obtain ⟨hflushed, rfl⟩ := EStateM.Result.ok.inj hflush
      obtain ⟨-, rfl⟩ := Prod.mk.inj hflushed
      exact ⟨rfl, hready, rfl⟩
  · rw [check_bind_false _ (decide_eq_false hroom)] at hflush
    cases hflush

/-! ## One step -/

theorem append_chunks (h : shown.chunks = []) : emitted ++ shown.chunks = emitted := by
  rw [h, List.append_nil]

/-- The invariant survives a step of any worker, with what the step emits. -/
theorem Worker.Sound.step (h : worker.Sound checksumGen cacheManager emitted)
    (hcache : cacheManager.cache = cacheAt base n) (hn : 1 ≤ n)
    (hholds : HoldsEmitted checksumGen base n emitted s.mem)
    (hstep : worker.Step checksumGen s shown worker' s') :
    worker'.Sound checksumGen cacheManager (emitted ++ shown.chunks) ∧
      HoldsEmitted checksumGen base n (emitted ++ shown.chunks) s'.mem := by
  cases hstep with
  | process streamer buffer s =>
      rw [append_chunks rfl]
      exact ⟨⟨h.cacheManager, h.chunker, trivial⟩, hholds⟩
  | flush hflush =>
      obtain ⟨rfl, hready, hmanager⟩ := chunkStreamerFlushRetained_ready h.chunker hflush
      rw [append_chunks rfl]
      exact ⟨⟨hmanager.trans h.cacheManager, hready, trivial⟩, hholds⟩
  | notFound hcut =>
      obtain ⟨rfl, hready, -⟩ := chunkerChunkBuffer_ok h.chunker hcut
      rw [append_chunks rfl]
      exact ⟨⟨h.cacheManager, hready, trivial⟩, hholds⟩
  | found hcut =>
      obtain ⟨rfl, hready, hpassed⟩ := chunkerChunkBuffer_found h.chunker hcut
      refine ⟨⟨h.cacheManager, hready, hpassed.ref, ?_, hpassed.lo, hpassed.hi⟩,
        hholds.mono (List.subset_append_left _ _)⟩
      exact List.mem_append_right _ hpassed.emitted
  | hit hhas =>
      obtain ⟨rings, hrings, hlookup⟩ := hholds
      rw [cacheManagerHasChunk_run (h.cacheManager ▸ hcache) hrings hn,
        EStateM.Result.ok.injEq] at hhas
      rw [append_chunks rfl, ← hhas.2]
      exact ⟨⟨h.cacheManager, h.chunker, trivial⟩, rings, hrings, hlookup⟩
  | miss hhas =>
      obtain ⟨rings, hrings, hlookup⟩ := hholds
      rw [cacheManagerHasChunk_run (h.cacheManager ▸ hcache) hrings hn,
        EStateM.Result.ok.injEq] at hhas
      rw [append_chunks rfl, ← hhas.2]
      exact ⟨⟨h.cacheManager, h.chunker, h.passed⟩, rings, hrings, hlookup⟩
  | @add streamer chunkRef ptr inserted s s' hadd =>
      have hpassed : Passed checksumGen emitted chunkRef := h.passed
      obtain ⟨rings, hrings, hlookup⟩ := hholds
      obtain ⟨r', hinsert, hrings'⟩ := cacheManagerAddChunk_holds (h.cacheManager ▸ hcache) hrings hn
        hpassed.lo hpassed.hi hadd
      rw [append_chunks rfl]
      refine ⟨⟨h.cacheManager, h.chunker, trivial⟩, _, hrings', fun i hi c data hdata => ?_⟩
      -- only the cell of the checksum changes, and only the chunk passed is new in it
      have hindex : chunkRef.checksum.part % n < n := Nat.mod_lt _ hn
      by_cases hown : i = chunkRef.checksum.part % n
      · rw [hown, Function.update_self] at hdata
        rcases (hrings.cell _ hindex).inv.insert_lookup hpassed.lo hpassed.hi hinsert hdata with
          ⟨rfl, rfl⟩ | hold
        · refine ⟨hpassed.emitted, ?_⟩
          rw [hpassed.ref]
          rfl
        · exact hlookup _ hindex c data hold
      · rw [Function.update_of_ne hown] at hdata
        exact hlookup i hi c data hdata

theorem Pool.Sound.step {pool pool' : Pool k} {i : Fin k}
    (h : pool.Sound checksumGen cacheManager base n) (hcache : cacheManager.cache = cacheAt base n)
    (hn : 1 ≤ n) (hstep : pool.Step checksumGen i pool') :
    pool'.Sound checksumGen cacheManager base n := by
  obtain ⟨shown, worker, s, hstep, rfl⟩ := hstep
  obtain ⟨hworker, hholds⟩ := (h.workers i).step hcache hn h.cache hstep
  have hemitted : Pool.emitted
      ⟨Function.update pool.workers i worker, s, pool.history ++ [shown]⟩ =
        pool.emitted ++ shown.chunks := emitted_history _ _ _ _
  constructor
  · rw [hemitted]
    exact hholds
  · intro j
    rw [hemitted]
    show (Function.update pool.workers i worker j).Sound checksumGen cacheManager _
    by_cases hj : j = i
    · subst hj
      rw [Function.update_self]
      exact hworker
    · rw [Function.update_of_ne hj]
      exact (h.workers j).mono (List.subset_append_left _ _)

/-! ## Runs -/

theorem Pool.New.sound {start : Pool k} (h : start.New cacheManager)
    (hholds : CacheHolds start.store.mem base n fun _ => Ring.empty) :
    start.Sound checksumGen cacheManager base n where
  cache := ⟨_, hholds, fun i _ c data hdata => absurd hdata (Option.some_ne_none data).symm⟩
  workers := by
    intro i
    obtain ⟨streamer, hrun, hidle, hmanager, -⟩ := chunkStreamerInit_run cacheManager start.store
    rw [h.init i, EStateM.Result.ok.injEq] at hrun
    refine ⟨?_, ?_, ?_⟩
    · rw [hrun.1, hmanager]
    · rw [hrun.1]
      exact hidle.ready
    · rw [h.idle i]
      trivial

theorem Pool.Sound.run {start pool : Pool k} {steps : List (Pool k × Fin k)}
    (h : start.Sound checksumGen cacheManager base n)
    (hcache : cacheManager.cache = cacheAt base n) (hn : 1 ≤ n)
    (hrun : start.Run checksumGen steps pool) : pool.Sound checksumGen cacheManager base n := by
  induction hrun with
  | start => exact h
  | step _ hstep ih => exact ih.step hcache hn hstep

/-- New streamers share a new cache. Whatever they are given and however their calls interleave: when
one counts a hit, fetching the chunk would give its bytes. -/
theorem hit_sound {size : Nat} {t : Store} {start pool : Pool k} {steps : List (Pool k × Fin k)}
    {i : Fin k} {bytes : List UInt8} (hslots : 2 ≤ size / cacheCellSize) (hsize : size < 2 ^ 64)
    (hz : t.mem.Zero base (base + size))
    (hinit : cacheInit base size t = .ok cacheManager.cache start.store)
    (hnew : start.New cacheManager) (hrun : start.Run checksumGen steps pool)
    (hinj : ∀ x ∈ pool.emitted, ∀ y ∈ pool.emitted, checksumGen x = checksumGen y → x = y)
    (hhit : (pool.workers i).Step checksumGen pool.store (.hit bytes) worker s) (chunk : Chunk) :
    ∃ chunk', cacheManagerGetChunk cacheManager (checksumGen bytes) chunk s =
        .ok (true, chunk') s ∧ chunk'.buffer.take chunk'.bufferSize = bytes := by
  obtain ⟨n, hn⟩ : ∃ n, size / cacheCellSize = n + 1 := ⟨size / cacheCellSize - 1, by omega⟩
  obtain ⟨s₁, hinit', hholds, -⟩ := cacheInit_zero (show 1 ≤ n by omega) hn hsize hz
  rw [hinit, EStateM.Result.ok.injEq] at hinit'
  obtain ⟨hcache, rfl⟩ := hinit'
  have hn : 1 ≤ n := by omega
  have hsound := (hnew.sound hholds).run hcache hn hrun
  obtain ⟨rings, hrings, hlookup⟩ := hsound.cache
  have hworker := hsound.workers i
  generalize pool.workers i = looking at hhit hworker
  cases hhit with
  | @hit streamer chunkRef ptr _ _ hhas =>
      have hpassed : Passed checksumGen pool.emitted chunkRef := hworker.passed
      have hchecksum : chunkRef.checksum = checksumGen chunkRef.buffer := by
        rw [hpassed.ref]
        rfl
      rw [cacheManagerHasChunk_run (hworker.cacheManager ▸ hcache) hrings hn,
        EStateM.Result.ok.injEq] at hhas
      obtain ⟨hsome, rfl⟩ := hhas
      obtain ⟨data, hdata⟩ := Option.isSome_iff_exists.1 hsome
      -- what is stored under the checksum is the chunk itself
      obtain ⟨hmem, hgen⟩ := hlookup _ (Nat.mod_lt _ hn) _ _ hdata
      have hbytes : data = chunkRef.buffer :=
        hinj data hmem _ hpassed.emitted (hgen.trans hchecksum)
      have hmarked : CacheHolds (pool.store.emit (.mark (.hasChunk chunkRef.checksum.bytes))).mem base
        n rings := hrings
      refine ⟨⟨chunkRef.checksum, data ++ chunk.buffer.drop data.length, data.length⟩, ?_, ?_⟩
      · rw [cacheManagerGetChunk, hcache, ← hchecksum, cacheGetChunk_run hmarked hn, hdata]
        rfl
      · rw [hbytes]
        exact List.take_left

end

/-- One streamer passes a chunk, another one finds it. -/
theorem hit_sound_twin : ∃ (start pool : Pool 2) (steps : List (Pool 2 × Fin 2)) (worker : Worker)
    (s : Store) (chunk chunk' : Chunk),
    cacheInit 4096 ((1 + 1) * cacheCellSize) zeroed =
      .ok sampleManager.cache start.store ∧
    start.New sampleManager ∧ start.Run twinGen steps pool ∧
    (pool.workers 1).Step twinGen pool.store (.hit twinRef.buffer) worker s ∧
    cacheManagerGetChunk sampleManager (twinGen twinRef.buffer) chunk s = .ok (true, chunk') s ∧
    chunk'.buffer.take chunk'.bufferSize = twinRef.buffer := by
  obtain ⟨s, streamer, hinit, hholds, hnew, hidle, hcache, -, -⟩ := twins_start
  have hstart : Reached twinGen ⟨pair ⟨streamer, .idle⟩ ⟨streamer, .idle⟩, s, []⟩ _ := ⟨[], .start⟩
  obtain ⟨left, s₁, hprocess, hcut, hmem₁, hmanager, -, -⟩ := cuts_twinChunk hidle s
  have hcache₁ : left.cacheManager.cache = cacheAt 4096 1 := hmanager ▸ hcache
  rw [← hmem₁] at hholds
  obtain ⟨s₂, hmiss, hmem₂⟩ := misses_twinChunk hcache₁ hholds (Nat.le_refl 1) fun _ => rfl
  rw [← hmem₂] at hholds
  obtain ⟨s₃, rings, hadd, hholds, hlookup⟩ := adds_twinChunk hcache₁ hholds
  obtain ⟨right, s₄, hprocess', hcut', hmem₄, hmanager', -, -⟩ := cuts_twinChunk hidle s₃
  rw [← hmem₄] at hholds
  obtain ⟨s₅, hhit⟩ := hits_twinChunk (hmanager' ▸ hcache) hholds (Nat.le_refl 1) hlookup
  have hleft := (((hstart.moveLeft hprocess).moveLeft hcut).moveLeft hmiss).moveLeft hadd
  obtain ⟨steps, hrun⟩ := (hleft.moveRight hprocess').moveRight hcut'
  -- both emit the one chunk
  have hinj : ∀ x ∈ [twinRef.buffer, twinRef.buffer], ∀ y ∈ [twinRef.buffer, twinRef.buffer],
      twinGen x = twinGen y → x = y := by
    intro x hx y hy _
    have hone : ∀ z ∈ [twinRef.buffer, twinRef.buffer], z = twinRef.buffer := by
      intro z hz
      rcases List.mem_cons.1 hz with rfl | hz
      · rfl
      · exact List.mem_singleton.1 hz
    rw [hone x hx, hone y hy]
  have hsize : (1 + 1) * cacheCellSize < 2 ^ 64 := by
    rw [cacheCellSize]
    omega
  obtain ⟨chunk', hget, htake⟩ := hit_sound (i := 1) (Nat.le_of_eq (slots_eq 1).symm) hsize
    (zeroed_zero 4096 (4096 + (1 + 1) * cacheCellSize)) hinit hnew hrun hinj hhit
    ⟨twinRef.checksum, [], 0⟩
  exact ⟨_, _, steps, _, _, _, chunk', hinit, hnew, hrun, hhit, hget, htake⟩

end Theo
