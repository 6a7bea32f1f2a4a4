import Mathlib.Algebra.BigOperators.Fin
import Theo.Pool.Basic

set_option autoImplicit false

/-! # The counters of streamers

`chunk_added` counts calls of `cache_manager_add_chunk`, whether they insert or not. So the counters are
those of the chunks inserted and found exactly as long as no streamer adds a chunk that another one has
added since it was looked up, and no counter wraps (`counters_count_iff`). -/

namespace Theo

open ByteMachine

/-- The number of chunks that are emitted and not passed yet. -/
def Phase.pending : Phase → Nat
  | .looking _ _ => 1
  | .adding _ _ => 1
  | _ => 0

/-- The counters are those of the chunks inserted and found. -/
structure Pool.Exact {n : Nat} (pool : Pool n) : Prop where
  added : ∑ i, (pool.workers i).streamer.chunkAdded = pool.inserted
  emitted : ∑ i, (pool.workers i).streamer.chunkHit + pool.inserted +
    ∑ i, (pool.workers i).phase.pending = pool.emitted.length

/-- The cache has the chunk. -/
def CacheManager.Stores (cacheManager : CacheManager) (c : Checksum) (s : Store) : Prop :=
  ∃ s', cacheHasChunk cacheManager.cache c s = .ok true s'

/-- The next step of a worker does not count wrong: it does not add a chunk that is there already, and
no counter wraps. -/
def Worker.Counts (worker : Worker) (s : Store) : Prop :=
  match worker.phase with
  | .looking chunkRef _ =>
      worker.streamer.cacheManager.Stores chunkRef.checksum s → worker.streamer.chunkHit + 1 < 2 ^ 32
  | .adding chunkRef _ =>
      ¬worker.streamer.cacheManager.Stores chunkRef.checksum s ∧
        worker.streamer.chunkAdded + 1 < 2 ^ 32
  | _ => True

def Shown.inserts : Shown → Nat
  | .added true => 1
  | _ => 0

def Shown.emits : Shown → Nat
  | .emitted _ => 1
  | _ => 0

/-- The counters of a worker go along with what its step shows. -/
structure Worker.Balanced (worker : Worker) (shown : Shown) (worker' : Worker) : Prop where
  added : worker'.streamer.chunkAdded = worker.streamer.chunkAdded + shown.inserts
  emitted : worker'.streamer.chunkHit + shown.inserts + worker'.phase.pending =
    worker.streamer.chunkHit + worker.phase.pending + shown.emits

section

variable {n : Nat} {checksumGen : List UInt8 → Checksum} {pool pool' : Pool n} {i : Fin n}
  {worker worker' : Worker} {shown : Shown} {s s' : Store}

/-! ## Looking up and adding -/

theorem cacheManagerHasChunk_stores {cacheManager : CacheManager} {c : Checksum} {has : Bool}
    (h : cacheManagerHasChunk cacheManager c s = .ok has s') :
    cacheManager.Stores c s ↔ has = true := by
  have hhas : cacheHasChunk cacheManager.cache c (s.emit (.mark (.hasChunk c.bytes))) = .ok has s' := h
  obtain ⟨-, hsame⟩ := (cacheHasChunk_reads _ c).same hhas (Machine.mem_emit_mark s _).symm
  constructor
  · rintro ⟨s₁, hstores⟩
    rw [hsame] at hstores
    exact (EStateM.Result.ok.inj hstores).1
  · rintro rfl
    exact ⟨s, hsame⟩

theorem cacheManagerAddChunk_stores {cacheManager : CacheManager} {c : Checksum}
    {buffer : List UInt8} {inserted : Bool}
    (h : cacheManagerAddChunk cacheManager c buffer s = .ok inserted s') :
    cacheManager.Stores c s ↔ inserted = false := by
  have hadd : cacheAddChunk cacheManager.cache c buffer
    (s.emit (.mark (.addChunk c.bytes buffer))) = .ok inserted s' := h
  obtain ⟨-, hsame⟩ := (cacheHasChunk_reads _ c).same (cacheAddChunk_has hadd)
    (Machine.mem_emit_mark s _).symm
  constructor
  · rintro ⟨s₁, hstores⟩
    rw [hsame] at hstores
    rw [← Bool.not_eq_true']
    exact (EStateM.Result.ok.inj hstores).1
  · rintro rfl
    exact ⟨s, hsame⟩

/-! ## One step -/

theorem chunkStreamerFlushRetained_counts {streamer streamer' : ChunkStreamer} {bufferLength : Nat}
    {bytes : List UInt8}
    (h : chunkStreamerFlushRetained streamer bufferLength s = .ok (bytes, streamer') s') :
    ∃ chunker, streamer' = { streamer with chunker := chunker } := by
  obtain ⟨⟨flushed, chunker⟩, s₁, -, hpure⟩ := of_bind_ok h
  obtain ⟨hresult, -⟩ := EStateM.Result.ok.inj hpure
  obtain ⟨-, rfl⟩ := Prod.mk.inj hresult
  exact ⟨chunker, rfl⟩

/-- The counters of a worker stay right exactly if its step does not count wrong. -/
theorem Worker.Step.balanced_iff (h : worker.Step checksumGen s shown worker' s') :
    worker.Balanced shown worker' ↔ worker.Counts s := by
  cases h with
  | process => exact iff_of_true ⟨rfl, rfl⟩ trivial
  | flush hflush =>
      obtain ⟨chunker, rfl⟩ := chunkStreamerFlushRetained_counts hflush
      exact iff_of_true ⟨rfl, rfl⟩ trivial
  | notFound => exact iff_of_true ⟨rfl, rfl⟩ trivial
  | found => exact iff_of_true ⟨rfl, rfl⟩ trivial
  | @hit streamer chunkRef ptr s s' hhas =>
      have hstores := (cacheManagerHasChunk_stores hhas).2 rfl
      constructor
      · intro hbalanced _
        have hcount := hbalanced.emitted
        simp only [ChunkStreamer.countHit, u32, Shown.inserts, Phase.pending, Shown.emits] at hcount
        show streamer.chunkHit + 1 < 2 ^ 32
        omega
      · intro hcounts
        have hlt : streamer.chunkHit + 1 < 2 ^ 32 := hcounts hstores
        refine ⟨rfl, ?_⟩
        simp only [ChunkStreamer.countHit, u32, Shown.inserts, Phase.pending, Shown.emits]
        omega
  | miss hhas =>
      refine iff_of_true ⟨rfl, rfl⟩ fun hstores => ?_
      have hfalse := (cacheManagerHasChunk_stores hhas).1 hstores
      cases hfalse
  | @add streamer chunkRef ptr inserted s s' hadd =>
      have hstores := cacheManagerAddChunk_stores hadd
      constructor
      · intro hbalanced
        have hadded := hbalanced.added
        cases inserted with
        | true =>
            simp only [ChunkStreamer.countAdded, u32, Shown.inserts] at hadded
            refine ⟨fun hthere => ?_, ?_⟩
            · exact Bool.noConfusion (hstores.1 hthere)
            · show streamer.chunkAdded + 1 < 2 ^ 32
              omega
        | false =>
            -- the call is counted although it inserted nothing
            simp only [ChunkStreamer.countAdded, u32, Shown.inserts] at hadded
            omega
      · rintro ⟨hmissing, hlt⟩
        have hlt' : streamer.chunkAdded + 1 < 2 ^ 32 := hlt
        cases inserted with
        | true =>
            constructor
            · simp only [ChunkStreamer.countAdded, u32, Shown.inserts]
              omega
            · rfl
        | false => exact absurd (hstores.2 rfl) hmissing

/-! ## The sums -/

theorem sum_update (f : Fin n → Worker) (i : Fin n) (worker : Worker) (g : Worker → Nat) :
    ∑ j, g (Function.update f i worker j) + g (f i) = ∑ j, g (f j) + g worker := by
  have hrest : ∑ j ∈ Finset.univ.erase i, g (Function.update f i worker j) =
      ∑ j ∈ Finset.univ.erase i, g (f j) := by
    refine Finset.sum_congr rfl fun j hj => ?_
    rw [Function.update_of_ne (Finset.ne_of_mem_erase hj)]
  rw [← Finset.add_sum_erase _ _ (Finset.mem_univ i),
    ← Finset.add_sum_erase _ (fun j => g (f j)) (Finset.mem_univ i), hrest, Function.update_self]
  omega

theorem inserted_append (history : List Shown) (workers : Fin n → Worker) (s : Store) :
    Pool.inserted ⟨workers, s, history ++ [shown]⟩ =
      Pool.inserted ⟨workers, s, history⟩ + shown.inserts := by
  rw [Pool.inserted, List.countP_append]
  cases shown with
  | added inserted => cases inserted <;> rfl
  | _ => rfl

theorem emitted_append (history : List Shown) (workers : Fin n → Worker) (s : Store) :
    (Pool.emitted ⟨workers, s, history ++ [shown]⟩).length =
      (Pool.emitted ⟨workers, s, history⟩).length + shown.emits := by
  rw [emitted_history, List.length_append]
  cases shown <;> rfl

/-- Where the counters are exact, they stay so exactly if the worker that moves counts right. -/
theorem Pool.Exact.step_iff (h : pool.Exact) (hstep : pool.Step checksumGen i pool') :
    pool'.Exact ↔ (pool.workers i).Counts pool.store := by
  obtain ⟨shown, worker, s, hstep, rfl⟩ := hstep
  rw [← hstep.balanced_iff]
  have hadded := sum_update pool.workers i worker fun worker => worker.streamer.chunkAdded
  have hhit := sum_update pool.workers i worker fun worker => worker.streamer.chunkHit
  have hpending := sum_update pool.workers i worker fun worker => worker.phase.pending
  have hinserted : Pool.inserted ⟨Function.update pool.workers i worker, s, pool.history ++ [shown]⟩ =
      pool.inserted + shown.inserts := inserted_append _ _ _
  have hemitted : (Pool.emitted
      ⟨Function.update pool.workers i worker, s, pool.history ++ [shown]⟩).length =
      pool.emitted.length + shown.emits := emitted_append _ _ _
  have hexact := h.added
  have hexact' := h.emitted
  constructor
  · rintro ⟨hsum, hsum'⟩
    rw [hinserted] at hsum hsum'
    rw [hemitted] at hsum'
    simp only at hsum hsum' hadded hhit hpending
    constructor <;> omega
  · rintro ⟨hsum, hsum'⟩
    constructor
    · rw [hinserted]
      simp only at hadded ⊢
      omega
    · rw [hinserted, hemitted]
      simp only at hhit hpending ⊢
      omega

/-! ## Runs -/

theorem Pool.New.exact {cacheManager : CacheManager} (h : pool.New cacheManager) : pool.Exact := by
  have hzero : ∀ i, (pool.workers i).streamer.chunkAdded = 0 ∧
      (pool.workers i).streamer.chunkHit = 0 ∧ (pool.workers i).phase.pending = 0 := by
    intro i
    obtain ⟨streamer, hrun, -, -, hadded, hhit⟩ := chunkStreamerInit_run cacheManager pool.store
    rw [h.init i, EStateM.Result.ok.injEq] at hrun
    rw [hrun.1, h.idle i]
    exact ⟨hadded, hhit, rfl⟩
  have hinserted : pool.inserted = 0 := by
    rw [Pool.inserted, h.history]
    rfl
  have hemitted : pool.emitted = [] := by
    rw [Pool.emitted, h.history]
    rfl
  constructor
  · rw [hinserted]
    exact Finset.sum_eq_zero fun i _ => (hzero i).1
  · rw [hinserted, hemitted, Finset.sum_eq_zero fun i _ => (hzero i).2.1,
      Finset.sum_eq_zero fun i _ => (hzero i).2.2]
    rfl

/-- The counters of new streamers on one cache are exact all along a run exactly if each step counts
right. -/
theorem counters_count_iff {cacheManager : CacheManager} (h : pool.New cacheManager)
    {steps : List (Pool n × Fin n)} (hrun : pool.Run checksumGen steps pool') :
    ((∀ step ∈ steps, step.1.Exact) ∧ pool'.Exact) ↔
      ∀ step ∈ steps, (step.1.workers step.2).Counts step.1.store := by
  induction hrun with
  | start =>
      exact iff_of_true ⟨fun _ hmem => absurd hmem List.not_mem_nil, h.exact⟩
        fun _ hmem => absurd hmem List.not_mem_nil
  | @step steps pool₁ pool₂ i hrun hstep ih =>
      constructor
      · rintro ⟨hbefore, hlast⟩
        obtain ⟨hsteps, hexact⟩ := List.forall_mem_append.1 hbefore
        have hexact₁ : pool₁.Exact := hexact _ List.mem_cons_self
        refine List.forall_mem_append.2 ⟨ih.1 ⟨hsteps, hexact₁⟩, ?_⟩
        rintro step hmem
        rw [List.mem_singleton.1 hmem]
        exact (hexact₁.step_iff hstep).1 hlast
      · intro hcounts
        obtain ⟨hsteps, hlast⟩ := List.forall_mem_append.1 hcounts
        obtain ⟨hbefore, hexact⟩ := ih.2 hsteps
        refine ⟨List.forall_mem_append.2 ⟨hbefore, ?_⟩,
          (hexact.step_iff hstep).2 (hlast _ List.mem_cons_self)⟩
        rintro step hmem
        rw [List.mem_singleton.1 hmem]
        exact hexact

end

/-- A run of two streamers in which each step counts right. -/
def CountedRight (checksumGen : List UInt8 → Checksum) (start pool : Pool 2) : Prop :=
  ∃ steps, start.Run checksumGen steps pool ∧
    ∀ step ∈ steps, (step.1.workers step.2).Counts step.1.store

section

variable {checksumGen : List UInt8 → Checksum} {start : Pool 2} {left right left' right' : Worker}
  {shown : Shown} {s s' : Store} {history : List Shown}

theorem CountedRight.moveLeft (h : CountedRight checksumGen start ⟨pair left right, s, history⟩)
    (hstep : left.Step checksumGen s shown left' s') (hcounts : left.Counts s) :
    CountedRight checksumGen start ⟨pair left' right, s', history ++ [shown]⟩ := by
  obtain ⟨steps, hrun, hsteps⟩ := h
  have hnext := hrun.move (i := 0) hstep
  rw [update_pair_left] at hnext
  refine ⟨_, hnext, List.forall_mem_append.2 ⟨hsteps, ?_⟩⟩
  rintro step hmem
  rw [List.mem_singleton.1 hmem]
  exact hcounts

theorem CountedRight.moveRight (h : CountedRight checksumGen start ⟨pair left right, s, history⟩)
    (hstep : right.Step checksumGen s shown right' s') (hcounts : right.Counts s) :
    CountedRight checksumGen start ⟨pair left right', s', history ++ [shown]⟩ := by
  obtain ⟨steps, hrun, hsteps⟩ := h
  have hnext := hrun.move (i := 1) hstep
  rw [update_pair_right] at hnext
  refine ⟨_, hnext, List.forall_mem_append.2 ⟨hsteps, ?_⟩⟩
  rintro step hmem
  rw [List.mem_singleton.1 hmem]
  exact hcounts

end

/-- One streamer inserts a chunk, and the next one finds it. -/
theorem counters_count_iff_twins : ∃ (cacheManager : CacheManager) (pool pool' : Pool 2)
    (steps : List (Pool 2 × Fin 2)),
    cacheInit 4096 ((1 + 1) * cacheCellSize) zeroed = .ok cacheManager.cache pool.store ∧
    pool.New cacheManager ∧ pool.Run twinGen steps pool' ∧
    (∀ step ∈ steps, (step.1.workers step.2).Counts step.1.store) ∧
    (∀ step ∈ steps, step.1.Exact) ∧ pool'.Exact ∧
    pool'.inserted = 1 ∧ ∑ i, (pool'.workers i).streamer.chunkHit = 1 ∧ pool'.emitted.length = 2 := by
  obtain ⟨s, streamer, hinit, hholds, hnew, hidle, hcache, hadded, hhit⟩ := twins_start
  have hstart : CountedRight twinGen ⟨pair ⟨streamer, .idle⟩ ⟨streamer, .idle⟩, s, []⟩ _ :=
    ⟨[], .start, fun step hmem => absurd hmem List.not_mem_nil⟩
  -- the first one does not find the chunk and adds it
  obtain ⟨left, s₁, hprocess, hcut, hmem₁, hmanager, hadded₁, hhit₁⟩ := cuts_twinChunk hidle s
  have hcache₁ : left.cacheManager.cache = cacheAt 4096 1 := hmanager ▸ hcache
  rw [← hmem₁] at hholds
  obtain ⟨s₂, hmiss, hmem₂⟩ := misses_twinChunk hcache₁ hholds (Nat.le_refl 1) fun _ => rfl
  rw [← hmem₂] at hholds
  obtain ⟨s₃, rings, hadd, hholds, hlookup⟩ := adds_twinChunk hcache₁ hholds
  have hleft : Worker.Counts ⟨left, .looking twinRef twinRest⟩ s₁ := fun _ => by
    show left.chunkHit + 1 < 2 ^ 32
    rw [hhit₁, hhit]
    decide
  have hinserts : Worker.Balanced ⟨left, .adding twinRef twinRest⟩ (.added true)
      ⟨left.countAdded, .cutting twinRest⟩ := by
    refine ⟨?_, rfl⟩
    show u32 (left.chunkAdded + 1) = left.chunkAdded + 1
    rw [hadded₁, hadded]
    rfl
  have hcounted := (((hstart.moveLeft hprocess trivial).moveLeft hcut trivial).moveLeft hmiss
    hleft).moveLeft hadd (hadd.balanced_iff.1 hinserts)
  -- the second one finds it
  obtain ⟨right, s₄, hprocess', hcut', hmem₄, hmanager', -, hhit₂⟩ := cuts_twinChunk hidle s₃
  rw [← hmem₄] at hholds
  obtain ⟨s₅, hfinds⟩ := hits_twinChunk (hmanager' ▸ hcache) hholds (Nat.le_refl 1) hlookup
  have hright : Worker.Counts ⟨right, .looking twinRef twinRest⟩ s₄ := fun _ => by
    show right.chunkHit + 1 < 2 ^ 32
    rw [hhit₂, hhit]
    decide
  obtain ⟨steps, hrun, hcounts⟩ := ((hcounted.moveRight hprocess' trivial).moveRight hcut'
    trivial).moveRight hfinds hright
  obtain ⟨hexact, hlast⟩ := (counters_count_iff hnew hrun).2 hcounts
  refine ⟨sampleManager, _, _, steps, hinit, hnew, hrun, hcounts, hexact, hlast, rfl, ?_, rfl⟩
  rw [Fin.sum_univ_two]
  show left.chunkHit + u32 (right.chunkHit + 1) = 1
  rw [hhit₁, hhit₂, hhit]
  rfl

/-- Two new streamers are given the same chunk and look it up before either adds it: both count it,
and one has inserted it. -/
theorem counters_miscount : ∃ (checksumGen : List UInt8 → Checksum) (cacheManager : CacheManager)
    (pool pool' : Pool 2) (steps : List (Pool 2 × Fin 2)),
    cacheInit 4096 ((1 + 1) * cacheCellSize) zeroed =
      .ok cacheManager.cache pool.store ∧
    pool.New cacheManager ∧ pool.Run checksumGen steps pool' ∧
    (∀ i, (pool'.workers i).phase.pending = 0) ∧
    ∑ i, (pool'.workers i).streamer.chunkAdded = 2 ∧ pool'.inserted = 1 ∧
    ∑ i, (pool'.workers i).streamer.chunkHit = 0 ∧ pool'.emitted.length = 2 := by
  obtain ⟨s, streamer, hinit, hholds, hnew, hidle, hcache, hadded, hhit⟩ := twins_start
  have hstart : Reached twinGen ⟨pair ⟨streamer, .idle⟩ ⟨streamer, .idle⟩, s, []⟩ _ := ⟨[], .start⟩
  -- both look the chunk up
  obtain ⟨left, s₁, hprocess, hcut, hmem₁, hmanager, hadded₁, hhit₁⟩ := cuts_twinChunk hidle s
  have hcache₁ : left.cacheManager.cache = cacheAt 4096 1 := hmanager ▸ hcache
  rw [← hmem₁] at hholds
  obtain ⟨s₂, hmiss, hmem₂⟩ := misses_twinChunk hcache₁ hholds (Nat.le_refl 1) fun _ => rfl
  rw [← hmem₂] at hholds
  obtain ⟨right, s₃, hprocess', hcut', hmem₃, hmanager', hadded₂, hhit₂⟩ := cuts_twinChunk hidle s₂
  have hcache₂ : right.cacheManager.cache = cacheAt 4096 1 := hmanager' ▸ hcache
  rw [← hmem₃] at hholds
  obtain ⟨s₄, hmiss', hmem₄⟩ := misses_twinChunk hcache₂ hholds (Nat.le_refl 1) fun _ => rfl
  rw [← hmem₄] at hholds
  have hleft := ((hstart.moveLeft hprocess).moveLeft hcut).moveLeft hmiss
  have hright := ((hleft.moveRight hprocess').moveRight hcut').moveRight hmiss'
  -- both add it, and the second call finds it there
  obtain ⟨s₅, rings, hadd, hholds, hlookup⟩ := adds_twinChunk hcache₁ hholds
  have hinsert : (rings (twinRef.checksum.part % 1)).insert twinRef.checksum twinRef.buffer =
      some (false, rings (twinRef.checksum.part % 1)) := by
    rw [Ring.insert, hlookup]
  obtain ⟨s₆, hadd', -⟩ := cacheManagerAddChunk_run hcache₂ hholds (Nat.le_refl 1)
    (Nat.le_of_eq twinRef_length.symm) (by rw [twinRef_length]; omega) hinsert
  obtain ⟨steps, hrun⟩ := (hright.moveLeft hadd).moveRight (.add hadd')
  refine ⟨twinGen, sampleManager, _, _, steps, hinit, hnew, hrun, fun i => ?_, ?_, rfl, ?_, rfl⟩
  · show Phase.pending (pair _ _ i).phase = 0
    rw [pair]
    split <;> rfl
  · rw [Fin.sum_univ_two]
    show u32 (left.chunkAdded + 1) + u32 (right.chunkAdded + 1) = 2
    rw [hadded₁, hadded₂, hadded]
    rfl
  · rw [Fin.sum_univ_two]
    show left.chunkHit + right.chunkHit = 0
    rw [hhit₁, hhit₂, hhit]

end Theo
