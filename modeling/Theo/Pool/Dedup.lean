import Theo.Cache.FirstLap
import Theo.Pool.Counters
import Theo.Pool.Hits

set_option autoImplicit false

/-! # Streamers whose chunks fit

As long as the distinct chunks that the streamers have emitted fit into the cache, no call of theirs
aborts, each distinct chunk is inserted once, however many of them emit it, and what one of them has
passed can be fetched from then on (`pool_dedup`). This holds for every interleaving: between the
look-up of a chunk and its insertion another streamer may have inserted it. -/

namespace Theo

open ByteMachine

/-- The worker has emitted the chunk and not passed it yet. -/
def Phase.passes (x : List UInt8) : Phase → Nat
  | .idle => 0
  | .cutting _ => 0
  | .looking chunkRef _ => if chunkRef.buffer = x then 1 else 0
  | .adding chunkRef _ => if chunkRef.buffer = x then 1 else 0

/-- The number of workers that have emitted the chunk and not passed it yet. -/
def Pool.passing {k : Nat} (pool : Pool k) (x : List UInt8) : Nat :=
  ∑ i, (pool.workers i).phase.passes x

/-- The next step of the worker does not need an empty chunker that is not empty: the client has flushed
what was retained before the buffer. -/
def Worker.Flushed (worker : Worker) : Prop :=
  ∀ ptr, worker.phase = .cutting ptr → worker.streamer.chunker.retainedSize = 0

/-- The chunks `stored` are in the cache, and no others; what is emitted and not stored is still under
way wherever it was emitted. -/
structure Pool.Keeps {k : Nat} (checksumGen : List UInt8 → Checksum) (base n : Nat) (pool : Pool k)
    (stored : Finset (List UInt8)) : Prop where
  cache : HoldsJust checksumGen base n stored pool.store.mem
  emitted : stored ⊆ pool.emitted.toFinset
  missing : ∀ x, x ∉ stored → pool.emitted.count x = pool.passing x
  inserted : pool.inserted = stored.card

section

variable {k base n : Nat} {checksumGen : List UInt8 → Checksum} {cacheManager : CacheManager}
  {emitted : List (List UInt8)} {stored : Finset (List UInt8)} {worker worker' : Worker}
  {shown : Shown} {s s' : Store} {pool pool' start : Pool k} {i : Fin k}
  {steps : List (Pool k × Fin k)}

/-! ## One step -/

/-- A chunk under way is told apart from those in the cache. -/
theorem Passed.apart {chunkRef : ChunkRef} (h : Passed checksumGen emitted chunkRef)
    (hsub : stored ⊆ emitted.toFinset)
    (hinj : Set.InjOn checksumGen (emitted.toFinset : Set (List UInt8))) :
    ∀ y ∈ stored, checksumGen y = checksumGen chunkRef.buffer → y = chunkRef.buffer :=
  fun _ hy => hinj (Finset.mem_coe.2 (hsub hy)) (Finset.mem_coe.2 (List.mem_toFinset.2 h.emitted))

theorem Passed.checksum {chunkRef : ChunkRef} (h : Passed checksumGen emitted chunkRef) :
    chunkRef.checksum = checksumGen chunkRef.buffer := by
  rw [h.ref]
  rfl

theorem Passed.insert_subset {chunkRef : ChunkRef} (h : Passed checksumGen emitted chunkRef)
    (hsub : stored ⊆ emitted.toFinset) : insert chunkRef.buffer stored ⊆ emitted.toFinset :=
  Finset.insert_subset (List.mem_toFinset.2 h.emitted) hsub

/-- What a step of a worker makes of the chunks in the cache. -/
theorem Worker.Step.keeps (h : worker.Sound checksumGen cacheManager emitted)
    (hcache : cacheManager.cache = cacheAt base n) (hn : 1 ≤ n)
    (hholds : HoldsJust checksumGen base n stored s.mem) (hsub : stored ⊆ emitted.toFinset)
    (hstep : worker.Step checksumGen s shown worker' s')
    (hinj : Set.InjOn checksumGen ((emitted ++ shown.chunks).toFinset : Set (List UInt8)))
    (hfit : Fit checksumGen n (emitted ++ shown.chunks).toFinset) :
    ∃ stored', HoldsJust checksumGen base n stored' s'.mem ∧ stored ⊆ stored' ∧
      stored' ⊆ (emitted ++ shown.chunks).toFinset ∧
      (∀ x, x ∉ stored' →
        shown.chunks.count x + worker.phase.passes x = worker'.phase.passes x) ∧
      stored.card + shown.inserts = stored'.card := by
  cases hstep with
  | process streamer buffer s =>
      rw [append_chunks rfl]
      exact ⟨stored, hholds, Finset.Subset.refl _, hsub, fun _ _ => rfl, rfl⟩
  | flush hflush =>
      obtain ⟨rfl, -, -⟩ := chunkStreamerFlushRetained_ready h.chunker hflush
      rw [append_chunks rfl]
      exact ⟨stored, hholds, Finset.Subset.refl _, hsub, fun _ _ => rfl, rfl⟩
  | notFound hcut =>
      obtain ⟨rfl, -, -⟩ := chunkerChunkBuffer_ok h.chunker hcut
      rw [append_chunks rfl]
      exact ⟨stored, hholds, Finset.Subset.refl _, hsub, fun _ _ => rfl, rfl⟩
  | @found streamer chunker chunkRef ptr s s' hcut =>
      obtain ⟨rfl, -, -⟩ := chunkerChunkBuffer_ok h.chunker hcut
      refine ⟨stored, hholds, Finset.Subset.refl _, ?_, fun x _ => ?_, rfl⟩
      · rw [List.toFinset_append]
        exact Finset.subset_union_left.trans' hsub
      · show [chunkRef.buffer].count x + 0 = if chunkRef.buffer = x then 1 else 0
        rw [List.count_singleton, Nat.add_zero]
        simp only [beq_iff_eq]
  | @hit streamer chunkRef ptr s s' hhas =>
      have hpassed : Passed checksumGen emitted chunkRef := h.passed
      rw [append_chunks rfl] at hinj ⊢
      rw [hpassed.checksum, hholds.hasChunk (h.cacheManager ▸ hcache) hn
        (hpassed.apart hsub hinj), EStateM.Result.ok.injEq, decide_eq_true_eq] at hhas
      obtain ⟨hmem, rfl⟩ := hhas
      refine ⟨stored, hholds, Finset.Subset.refl _, hsub, fun x hx => ?_, rfl⟩
      have hne : chunkRef.buffer ≠ x := fun heq => hx (heq ▸ hmem)
      show 0 + (if chunkRef.buffer = x then 1 else 0) = 0
      rw [if_neg hne]
  | @miss streamer chunkRef ptr s s' hhas =>
      have hpassed : Passed checksumGen emitted chunkRef := h.passed
      rw [append_chunks rfl] at hinj ⊢
      rw [hpassed.checksum, hholds.hasChunk (h.cacheManager ▸ hcache) hn
        (hpassed.apart hsub hinj), EStateM.Result.ok.injEq] at hhas
      obtain ⟨-, rfl⟩ := hhas
      exact ⟨stored, hholds, Finset.Subset.refl _, hsub, fun x _ => Nat.zero_add _, rfl⟩
  | @add streamer chunkRef ptr inserted s s' hadd =>
      have hpassed : Passed checksumGen emitted chunkRef := h.passed
      rw [append_chunks rfl] at hinj hfit ⊢
      have hinsert := hpassed.insert_subset hsub
      obtain ⟨s₁, hrun, hholds'⟩ := hholds.addChunk (h.cacheManager ▸ hcache) hn hpassed.lo hpassed.hi
        (hpassed.apart hsub hinj) (hfit.mono hinsert)
      rw [hpassed.checksum, hrun, EStateM.Result.ok.injEq] at hadd
      obtain ⟨rfl, rfl⟩ := hadd
      refine ⟨insert chunkRef.buffer stored, hholds', Finset.subset_insert _ _, hinsert,
        fun x hx => ?_, ?_⟩
      · have hne : chunkRef.buffer ≠ x := fun heq => hx (heq ▸ Finset.mem_insert_self _ _)
        show 0 + (if chunkRef.buffer = x then 1 else 0) = 0
        rw [if_neg hne]
      · by_cases hmem : chunkRef.buffer ∈ stored
        · rw [Finset.insert_eq_of_mem hmem, decide_eq_false (not_not_intro hmem)]
          rfl
        · rw [Finset.card_insert_of_notMem hmem, decide_eq_true hmem]
          rfl

/-- A worker that is not idle can go on: the call of the cache that it is at returns. -/
theorem Worker.Sound.goes_on (h : worker.Sound checksumGen cacheManager emitted)
    (hcache : cacheManager.cache = cacheAt base n) (hn : 1 ≤ n)
    (hholds : HoldsJust checksumGen base n stored s.mem) (hsub : stored ⊆ emitted.toFinset)
    (hinj : Set.InjOn checksumGen (emitted.toFinset : Set (List UInt8)))
    (hfit : Fit checksumGen n emitted.toFinset)
    (hbusy : worker.phase ≠ .idle) (hflushed : worker.Flushed) :
    ∃ shown worker' s', worker.Step checksumGen s shown worker' s' := by
  obtain ⟨streamer, phase⟩ := worker
  cases phase with
  | idle => exact absurd rfl hbusy
  | cutting ptr =>
      obtain ⟨chunker, hrun, -⟩ := chunkerChunkBuffer_run checksumGen h.chunker (hflushed ptr rfl) ptr s
      cases hcut : cutOf ptr with
      | none =>
          rw [hcut, Option.map_none] at hrun
          exact ⟨_, _, _, .notFound hrun⟩
      | some size =>
          rw [hcut, Option.map_some] at hrun
          exact ⟨_, _, _, .found hrun⟩
  | looking chunkRef ptr =>
      have hpassed : Passed checksumGen emitted chunkRef := h.passed
      have hrun := hholds.hasChunk (h.cacheManager ▸ hcache) hn (hpassed.apart hsub hinj)
      rw [← hpassed.checksum] at hrun
      cases hfound : decide (chunkRef.buffer ∈ stored) with
      | false => exact ⟨_, _, _, .miss (hfound ▸ hrun)⟩
      | true => exact ⟨_, _, _, .hit (hfound ▸ hrun)⟩
  | adding chunkRef ptr =>
      have hpassed : Passed checksumGen emitted chunkRef := h.passed
      obtain ⟨s', hrun, -⟩ := hholds.addChunk (h.cacheManager ▸ hcache) hn hpassed.lo hpassed.hi
        (hpassed.apart hsub hinj) (hfit.mono (hpassed.insert_subset hsub))
      rw [← hpassed.checksum] at hrun
      exact ⟨_, _, _, .add hrun⟩

/-! ## Runs -/

/-- A step of any worker keeps what is in the cache, as long as the emitted chunks fit. -/
theorem Pool.Keeps.step (h : pool.Keeps checksumGen base n stored)
    (hsound : pool.Sound checksumGen cacheManager base n)
    (hcache : cacheManager.cache = cacheAt base n) (hn : 1 ≤ n)
    (hstep : pool.Step checksumGen i pool')
    (hinj : Set.InjOn checksumGen (pool'.emitted.toFinset : Set (List UInt8)))
    (hfit : Fit checksumGen n pool'.emitted.toFinset) :
    ∃ stored', pool'.Keeps checksumGen base n stored' := by
  obtain ⟨shown, worker, s, hstep, rfl⟩ := hstep
  have hemitted : Pool.emitted
      ⟨Function.update pool.workers i worker, s, pool.history ++ [shown]⟩ =
        pool.emitted ++ shown.chunks := emitted_history _ _ _ _
  rw [hemitted] at hinj hfit
  obtain ⟨stored', hholds, hmore, hsub, hpassing, hcard⟩ :=
    hstep.keeps (hsound.workers i) hcache hn h.cache h.emitted hinj hfit
  refine ⟨stored', hholds, ?_, fun x hx => ?_, ?_⟩
  · rw [hemitted]
    exact hsub
  · have hold := h.missing x fun hmem => hx (hmore hmem)
    have hsum := sum_update pool.workers i worker fun worker => worker.phase.passes x
    have hcount := hpassing x hx
    rw [hemitted, List.count_append, hold]
    show (∑ j, (pool.workers j).phase.passes x) + _ =
      ∑ j, (Function.update pool.workers i worker j).phase.passes x
    omega
  · have hinserted : Pool.inserted
        ⟨Function.update pool.workers i worker, s, pool.history ++ [shown]⟩ =
          pool.inserted + shown.inserts := inserted_append _ _ _
    rw [hinserted, h.inserted, hcard]

theorem Pool.New.keeps (h : start.New cacheManager)
    (hholds : CacheHolds start.store.mem base n fun _ => Ring.empty) :
    start.Keeps checksumGen base n ∅ := by
  have hemitted : start.emitted = [] := by
    rw [Pool.emitted, h.history]
    rfl
  refine ⟨hholds.holdsJust, Finset.empty_subset _, fun x _ => ?_, ?_⟩
  · rw [hemitted, Pool.passing]
    refine (Finset.sum_eq_zero fun i _ => ?_).symm
    rw [h.idle i]
    rfl
  · rw [Pool.inserted, h.history]
    rfl

theorem Pool.Keeps.run (h : start.Keeps checksumGen base n stored)
    (hsound : start.Sound checksumGen cacheManager base n)
    (hcache : cacheManager.cache = cacheAt base n) (hn : 1 ≤ n)
    (hrun : start.Run checksumGen steps pool)
    (hinj : Set.InjOn checksumGen (pool.emitted.toFinset : Set (List UInt8)))
    (hfit : Fit checksumGen n pool.emitted.toFinset) :
    ∃ stored', pool.Keeps checksumGen base n stored' := by
  induction hrun with
  | start => exact ⟨stored, h⟩
  | @step steps pool pool' i hrun hstep ih =>
      have hsub : pool.emitted.toFinset ⊆ pool'.emitted.toFinset := by
        obtain ⟨shown, worker, s, -, rfl⟩ := hstep
        have hemitted : Pool.emitted
            ⟨Function.update pool.workers i worker, s, pool.history ++ [shown]⟩ =
              pool.emitted ++ shown.chunks := emitted_history _ _ _ _
        rw [hemitted, List.toFinset_append]
        exact Finset.subset_union_left
      obtain ⟨stored', hkeeps⟩ := ih (hinj.mono (Finset.coe_subset.2 hsub)) (hfit.mono hsub)
      exact hkeeps.step (hsound.run hcache hn hrun) hcache hn hstep hinj hfit

/-- A chunk that one of those that emitted it has passed is stored. -/
theorem Pool.Keeps.passed (h : pool.Keeps checksumGen base n stored) {x : List UInt8}
    (hx : pool.passing x < pool.emitted.count x) : x ∈ stored := by
  by_contra hmissing
  have hcount := h.missing x hmissing
  omega

/-- Once all are passed, each distinct chunk was inserted once. -/
theorem Pool.Keeps.inserted_once (h : pool.Keeps checksumGen base n stored)
    (hidle : ∀ x, pool.passing x = 0) : pool.inserted = pool.emitted.toFinset.card := by
  rw [h.inserted]
  refine congrArg Finset.card (Finset.Subset.antisymm h.emitted fun x hx => h.passed ?_)
  rw [hidle x]
  exact List.count_pos_iff.2 (List.mem_toFinset.1 hx)

/-- New streamers share a new cache. Whatever they are given and however their steps interleave, as long
as the chunks that they have emitted fit: no streamer gets stuck in a call; a chunk that one of those
that emitted it has passed is fetched as it was emitted; and behind the last pass each distinct chunk
has been inserted once. -/
theorem pool_dedup {t : Store} (hn : 1 ≤ n) (hsize : (n + 1) * cacheCellSize < 2 ^ 64)
    (hz : t.mem.Zero base (base + (n + 1) * cacheCellSize))
    (hinit : cacheInit base ((n + 1) * cacheCellSize) t = .ok cacheManager.cache start.store)
    (hnew : start.New cacheManager) (hrun : start.Run checksumGen steps pool)
    (hinj : Set.InjOn checksumGen (pool.emitted.toFinset : Set (List UInt8)))
    (hfit : Fit checksumGen n pool.emitted.toFinset) :
    (∀ i, (pool.workers i).phase ≠ .idle → (pool.workers i).Flushed →
      ∃ pool', pool.Step checksumGen i pool') ∧
    (∀ x, pool.passing x < pool.emitted.count x → ∀ chunk, ∃ chunk',
      cacheManagerGetChunk cacheManager (checksumGen x) chunk pool.store =
        .ok (true, chunk') pool.store ∧
      chunk'.checksum = checksumGen x ∧ chunk'.buffer.take chunk'.bufferSize = x) ∧
    ((∀ x, pool.passing x = 0) → pool.inserted = pool.emitted.toFinset.card) := by
  obtain ⟨s₁, hinit', hholds, -⟩ := cacheInit_zero hn (slots_eq n) hsize hz
  rw [hinit, EStateM.Result.ok.injEq] at hinit'
  obtain ⟨hcache, rfl⟩ := hinit'
  have hsound : start.Sound checksumGen cacheManager base n := hnew.sound hholds
  obtain ⟨stored, hkeeps⟩ := (hnew.keeps hholds).run hsound hcache hn hrun hinj hfit
  have hsound' := hsound.run hcache hn hrun
  refine ⟨fun i hbusy hflushed => ?_, fun x hx chunk => ?_, hkeeps.inserted_once⟩
  · obtain ⟨shown, worker, s, hstep⟩ := (hsound'.workers i).goes_on hcache hn hkeeps.cache
      hkeeps.emitted hinj hfit hbusy hflushed
    exact ⟨_, shown, worker, s, hstep, rfl⟩
  · exact hkeeps.cache.getChunk hcache hn (hkeeps.passed hx) chunk

end

theorem twin_fits (checksumGen : List UInt8 → Checksum) {chunks : List (List UInt8)}
    (h : ∀ x ∈ chunks, x = twinRef.buffer) :
    Fit checksumGen 1 chunks.toFinset ∧
      Set.InjOn checksumGen (chunks.toFinset : Set (List UInt8)) := by
  have hone : ∀ x ∈ chunks.toFinset, x = twinRef.buffer := fun x hx => h x (List.mem_toFinset.1 hx)
  constructor
  · intro i _
    have hsub : chunksFor checksumGen 1 i chunks.toFinset ⊆ {twinRef.buffer} := fun x hx =>
      Finset.mem_singleton.2 (hone x (mem_chunksFor.1 hx).1)
    refine Nat.le_trans (Finset.sum_le_sum_of_subset hsub) ?_
    rw [Finset.sum_singleton, twinRef_length]
    omega
  · intro x hx y hy _
    rw [hone x (Finset.mem_coe.1 hx), hone y (Finset.mem_coe.1 hy)]

/-- Two streamers emit one chunk, and only one of them has passed it. -/
theorem pool_dedup_twin : ∃ (start pool : Pool 2) (steps : List (Pool 2 × Fin 2)) (pool' : Pool 2)
    (chunk chunk' : Chunk),
    cacheInit 4096 ((1 + 1) * cacheCellSize) zeroed = .ok sampleManager.cache start.store ∧
    start.New sampleManager ∧ start.Run twinGen steps pool ∧ pool.Step twinGen 1 pool' ∧
    cacheManagerGetChunk sampleManager (twinGen twinRef.buffer) chunk pool.store =
      .ok (true, chunk') pool.store ∧
    chunk'.buffer.take chunk'.bufferSize = twinRef.buffer := by
  obtain ⟨s, streamer, hinit, hholds, hnew, hidle, hcache, -, -⟩ := twins_start
  have hstart : Reached twinGen ⟨pair ⟨streamer, .idle⟩ ⟨streamer, .idle⟩, s, []⟩ _ := ⟨[], .start⟩
  obtain ⟨left, s₁, hprocess, hcut, hmem₁, hmanager, -, -⟩ := cuts_twinChunk hidle s
  have hcache₁ : left.cacheManager.cache = cacheAt 4096 1 := hmanager ▸ hcache
  rw [← hmem₁] at hholds
  obtain ⟨s₂, hmiss, hmem₂⟩ := misses_twinChunk hcache₁ hholds (Nat.le_refl 1) fun _ => rfl
  rw [← hmem₂] at hholds
  obtain ⟨right, s₃, hprocess', hcut', hmem₃, hmanager', -, -⟩ := cuts_twinChunk hidle s₂
  have hcache₂ : right.cacheManager.cache = cacheAt 4096 1 := hmanager' ▸ hcache
  rw [← hmem₃] at hholds
  obtain ⟨s₄, hmiss', hmem₄⟩ := misses_twinChunk hcache₂ hholds (Nat.le_refl 1) fun _ => rfl
  rw [← hmem₄] at hholds
  obtain ⟨s₅, rings, hadd, -, -⟩ := adds_twinChunk hcache₁ hholds
  have hleft := ((hstart.moveLeft hprocess).moveLeft hcut).moveLeft hmiss
  obtain ⟨steps, hrun⟩ := (((hleft.moveRight hprocess').moveRight hcut').moveRight hmiss').moveLeft hadd
  have hsize : (1 + 1) * cacheCellSize < 2 ^ 64 := slots_lt (by decide)
  have hone : ∀ x ∈ [twinRef.buffer, twinRef.buffer], x = twinRef.buffer := by simp
  obtain ⟨hfit, hinj⟩ := twin_fits twinGen hone
  obtain ⟨hgo, hget, -⟩ := pool_dedup (Nat.le_refl 1) hsize
    (zeroed_zero 4096 (4096 + (1 + 1) * cacheCellSize)) hinit hnew hrun hinj hfit
  obtain ⟨pool', hstep⟩ := hgo 1 (fun h => nomatch h) (fun ptr h => nomatch h)
  have hpassing : Pool.passing (k := 2)
      ⟨pair ⟨left.countAdded, .cutting twinRest⟩ ⟨right, .adding twinRef twinRest⟩, s₅, []⟩
      twinRef.buffer = 1 := by
    rw [Pool.passing, Fin.sum_univ_two]
    show (Phase.cutting twinRest).passes twinRef.buffer +
      (Phase.adding twinRef twinRest).passes twinRef.buffer = 1
    rw [Phase.passes, Phase.passes, if_pos rfl]
  have htwice : [twinRef.buffer, twinRef.buffer].count twinRef.buffer = 2 := by simp
  obtain ⟨chunk', hrun', -, htake⟩ := hget twinRef.buffer (by
    show Pool.passing _ _ < [twinRef.buffer, twinRef.buffer].count twinRef.buffer
    rw [htwice]
    exact Nat.lt_of_le_of_lt (Nat.le_of_eq hpassing) (by decide)) ⟨twinRef.checksum, [], 0⟩
  exact ⟨_, _, steps, pool', _, chunk', hinit, hnew, hrun, hstep, hrun', htake⟩

end Theo
