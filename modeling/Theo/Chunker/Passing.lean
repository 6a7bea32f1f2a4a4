import Theo.Cache.FirstLap
import Theo.Chunker.Stream

set_option autoImplicit false

/-! # Passing chunks that fit

As long as the distinct chunks fit into the first laps of the cells, a streamer that passes chunks adds
each one that is new and hits on each one that is not (`HoldsJust.passChunks`). The samples make a
stream of short chunks that is passed like this to a new cache. -/

namespace Theo

open ByteMachine

/-- The number of distinct chunks that are not among `seen`. -/
def freshCount (seen : Finset (List UInt8)) (chunks : List (List UInt8)) : Nat :=
  (chunks.toFinset \ seen).card

section

variable {base n : Nat} {checksumGen : List UInt8 → Checksum} {streamer : ChunkStreamer}
  {seen : Finset (List UInt8)} {x : List UInt8} {chunks : List (List UInt8)} {s : Store}

/-! ## Counting -/

theorem freshCount_seen (h : x ∈ seen) :
    freshCount seen (x :: chunks) = freshCount (insert x seen) chunks := by
  rw [freshCount, freshCount, List.toFinset_cons, Finset.insert_sdiff_of_mem _ h,
    Finset.insert_eq_of_mem h]

theorem freshCount_new (h : x ∉ seen) :
    freshCount seen (x :: chunks) = freshCount (insert x seen) chunks + 1 := by
  rw [freshCount, freshCount, List.toFinset_cons, Finset.insert_sdiff_of_notMem _ h]
  have hrest : insert x (chunks.toFinset \ seen) =
      insert x (chunks.toFinset \ insert x seen) := by
    ext y
    simp only [Finset.mem_insert, Finset.mem_sdiff]
    tauto
  rw [hrest, Finset.card_insert_of_notMem]
  exact fun hmem => (Finset.mem_sdiff.1 hmem).2 (Finset.mem_insert_self _ _)

theorem freshCount_le (seen : Finset (List UInt8)) (chunks : List (List UInt8)) :
    freshCount seen chunks ≤ chunks.length :=
  Nat.le_trans (Finset.card_le_card Finset.sdiff_subset) (List.toFinset_card_le _)

theorem freshCount_subset (h : chunks.toFinset ⊆ seen) : freshCount seen chunks = 0 := by
  rw [freshCount, Finset.sdiff_eq_empty_iff_subset.2 h, Finset.card_empty]

/-! ## Passing chunks -/

/-- What passing chunks makes of a streamer, where the chunks `seen` are in the cache. -/
structure Passes (seen : Finset (List UInt8)) (chunks : List (List UInt8))
    (streamer streamer' : ChunkStreamer) : Prop where
  cacheManager : streamer'.cacheManager = streamer.cacheManager
  added : streamer'.chunkAdded = u32 (streamer.chunkAdded + freshCount seen chunks)
  hit : streamer'.chunkHit = u32 (streamer.chunkHit + (chunks.length - freshCount seen chunks))

/-- The counters of a streamer have 32 bits. -/
def ChunkStreamer.Counters (streamer : ChunkStreamer) : Prop :=
  streamer.chunkAdded < 2 ^ 32 ∧ streamer.chunkHit < 2 ^ 32

/-- A chunk is added if it is new, and counted as a hit if it is not. -/
theorem HoldsJust.pass (h : HoldsJust checksumGen base n seen s.mem)
    (hcache : streamer.cacheManager.cache = cacheAt base n) (hn : 1 ≤ n)
    (hsize : 2049 ≤ x.length ∧ x.length ≤ 24576)
    (hinj : Set.InjOn checksumGen (insert x seen : Finset (List UInt8)))
    (hfit : Fit checksumGen n (insert x seen)) :
    ∃ s', chunkStreamerPass streamer (chunkRefSet checksumGen x) s =
        .ok (if x ∈ seen then streamer.countHit else streamer.countAdded) s' ∧
      HoldsJust checksumGen base n (insert x seen) s'.mem ∧ (x ∈ seen → s'.mem = s.mem) := by
  have hapart : ∀ y ∈ seen, checksumGen y = checksumGen x → y = x := fun y hy =>
    hinj (Finset.mem_coe.2 (Finset.mem_insert_of_mem hy))
      (Finset.mem_coe.2 (Finset.mem_insert_self _ _))
  have hhas := h.hasChunk hcache hn hapart
  rw [chunkStreamerPass, CacheCalls.pass]
  have hbind : ∀ f : Bool → Act ChunkStreamer,
      (managerCalls.hasChunk streamer.cacheManager (chunkRefSet checksumGen x).checksum >>= f) s =
        f (decide (x ∈ seen)) (s.emit (.mark (.hasChunk (checksumGen x).bytes))) :=
    fun f => bind_ok hhas f
  rw [hbind]
  by_cases hx : x ∈ seen
  · rw [decide_eq_true hx, if_pos rfl, if_pos hx]
    refine ⟨_, rfl, ?_, fun _ => rfl⟩
    rw [Finset.insert_eq_of_mem hx]
    exact h
  · have hmarked : HoldsJust checksumGen base n seen
      (s.emit (.mark (.hasChunk (checksumGen x).bytes))).mem := h
    obtain ⟨s', hadd, hholds⟩ := hmarked.addChunk hcache hn hsize.1 hsize.2 hapart hfit
    rw [decide_eq_false hx, if_neg Bool.false_ne_true, if_neg hx]
    exact ⟨s', bind_ok hadd _, hholds, fun hmem => absurd hmem hx⟩

theorem HoldsJust.passChunks (h : HoldsJust checksumGen base n seen s.mem)
    (hcache : streamer.cacheManager.cache = cacheAt base n) (hn : 1 ≤ n)
    (hcounters : streamer.Counters) (hsizes : ∀ x ∈ chunks, 2049 ≤ x.length ∧ x.length ≤ 24576)
    (hinj : Set.InjOn checksumGen (seen ∪ chunks.toFinset : Finset (List UInt8)))
    (hfit : Fit checksumGen n (seen ∪ chunks.toFinset)) :
    ∃ streamer' s', Theo.passChunks checksumGen streamer chunks s = .ok streamer' s' ∧
      Passes seen chunks streamer streamer' ∧
      HoldsJust checksumGen base n (seen ∪ chunks.toFinset) s'.mem ∧
      (chunks.toFinset ⊆ seen → s'.mem = s.mem) := by
  induction chunks generalizing seen streamer s with
  | nil =>
      have hnone : freshCount seen [] = 0 := freshCount_subset (Finset.empty_subset _)
      refine ⟨streamer, s, rfl, ⟨rfl, ?_, ?_⟩, ?_, fun _ => rfl⟩
      · rw [hnone, Nat.add_zero, u32_of_lt hcounters.1]
      · rw [hnone]
        exact (u32_of_lt hcounters.2).symm
      · rw [List.toFinset_nil, Finset.union_empty]
        exact h
  | cons x chunks ih =>
      rw [List.forall_mem_cons] at hsizes
      have hunion : seen ∪ (x :: chunks).toFinset = insert x seen ∪ chunks.toFinset := by
        rw [List.toFinset_cons, Finset.union_insert, Finset.insert_union]
      rw [hunion] at hinj hfit ⊢
      have hsub : insert x seen ⊆ insert x seen ∪ chunks.toFinset := Finset.subset_union_left
      have hmarked : HoldsJust checksumGen base n seen
        (s.emit (.mark (.chunk (checksumGen x).bytes x))).mem := h
      obtain ⟨s₁, hpass, hholds, hquiet⟩ := hmarked.pass hcache hn hsizes.1
        (hinj.mono (Finset.coe_subset.2 hsub)) (hfit.mono hsub)
      have hcache' : (if x ∈ seen then streamer.countHit else
          streamer.countAdded).cacheManager.cache = cacheAt base n := by
        split
        · exact hcache
        · exact hcache
      have hcounters' : (if x ∈ seen then streamer.countHit else streamer.countAdded).Counters := by
        split
        · exact ⟨hcounters.1, Nat.mod_lt _ (by decide)⟩
        · exact ⟨Nat.mod_lt _ (by decide), hcounters.2⟩
      obtain ⟨streamer', s', hrun, hpasses, hholds', hquiet'⟩ :=
        ih hholds hcache' hcounters' hsizes.2 hinj hfit
      refine ⟨streamer', s', ?_, ?_, hholds', fun hseen => ?_⟩
      · rw [passChunks_cons, emit_bind, bind_ok hpass]
        exact hrun
      · obtain ⟨hmanager, hadded, hhit⟩ := hpasses
        have hle := freshCount_le (insert x seen) chunks
        by_cases hx : x ∈ seen
        · rw [if_pos hx] at hmanager hadded hhit
          simp only [ChunkStreamer.countHit, u32] at hmanager hadded hhit
          refine ⟨hmanager, ?_, ?_⟩
          · rw [freshCount_seen hx, u32]
            omega
          · rw [freshCount_seen hx, List.length_cons, u32]
            omega
        · rw [if_neg hx] at hmanager hadded hhit
          simp only [ChunkStreamer.countAdded, u32] at hmanager hadded hhit
          refine ⟨hmanager, ?_, ?_⟩
          · rw [freshCount_new hx, u32]
            omega
          · rw [freshCount_new hx, List.length_cons, u32]
            omega
      · rw [List.toFinset_cons, Finset.insert_subset_iff] at hseen
        rw [hquiet' (hseen.2.trans (Finset.subset_insert _ _)), hquiet hseen.1]
        rfl

theorem chunksOf_sized {buffer : List UInt8} : ∀ x ∈ chunksOf buffer,
    2049 ≤ x.length ∧ x.length ≤ 24576 := by
  intro x hx
  have hbounds := chunksOf_length hx
  rw [chunkerMinChunkSize_eq, chunkerMaxChunkSize_eq] at hbounds
  omega

end

/-! ## Samples on a new cache -/

/-- A cache of one cell at address 4096. -/
def sampleManager : CacheManager := ⟨cacheAt 4096 1, 4096, (1 + 1) * cacheCellSize, 3, false⟩

/-- A new streamer on a new cache. -/
theorem samples_start : ∃ (s : Store) (streamer : ChunkStreamer),
    cacheInit 4096 ((1 + 1) * cacheCellSize) zeroed = .ok sampleManager.cache s ∧
    CacheHolds s.mem 4096 1 (fun _ => Ring.empty) ∧
    chunkStreamerInit sampleManager s = .ok streamer s ∧ streamer.chunker.Idle ∧
    streamer.cacheManager = sampleManager ∧ streamer.chunkAdded = 0 ∧ streamer.chunkHit = 0 := by
  have hsize : (1 + 1) * cacheCellSize < 2 ^ 64 := by
    rw [cacheCellSize]
    omega
  have hz := zeroed_zero 4096 (4096 + (1 + 1) * cacheCellSize)
  obtain ⟨s, hinit, hholds, -⟩ := cacheInit_zero (Nat.le_refl 1) (slots_eq 1) hsize hz
  obtain ⟨streamer, hstreamer, hidle, hmanager, hadded, hhit⟩ :=
    chunkStreamerInit_run sampleManager s
  exact ⟨s, streamer, hinit, hholds, hstreamer, hidle, hmanager, hadded, hhit⟩

/-- Samples are told apart by their second byte. -/
theorem freshCount_samples (bs bs' : List UInt8) :
    freshCount (bs.map sampleChunk).toFinset (bs'.map sampleChunk) =
      (bs'.toFinset \ bs.toFinset).card := by
  have hinj : Function.Injective sampleChunk := fun _ _ heq => sampleChunk_inj.1 heq
  have himage : ∀ bs : List UInt8, (bs.map sampleChunk).toFinset = bs.toFinset.image sampleChunk := by
    intro bs
    ext x
    simp only [List.mem_toFinset, List.mem_map, Finset.mem_image]
  rw [freshCount, himage, himage, ← Finset.image_sdiff _ _ hinj,
    Finset.card_image_of_injective _ hinj]

theorem sampleGen_injOn (bs : List UInt8) :
    Set.InjOn sampleGen ((bs.map sampleChunk).toFinset : Set (List UInt8)) := by
  intro x hx y hy heq
  obtain ⟨b, -, rfl⟩ := List.mem_map.1 (List.mem_toFinset.1 (Finset.mem_coe.1 hx))
  obtain ⟨b', -, rfl⟩ := List.mem_map.1 (List.mem_toFinset.1 (Finset.mem_coe.1 hy))
  rw [sampleGen_sampleChunk, sampleGen_sampleChunk] at heq
  have hbytes := congrArg Checksum.bytes heq
  simp only [List.replicate_inj] at hbytes
  rw [hbytes.2.resolve_left (by decide)]

theorem samples_fit {bs : List UInt8} (h : bs.length ≤ 480) :
    Fit sampleGen 1 (bs.map sampleChunk).toFinset := by
  intro i _
  have hlength : ∀ x ∈ chunksFor sampleGen 1 i (bs.map sampleChunk).toFinset, x.length + 72 = 2121 := by
    intro x hx
    obtain ⟨b, -, rfl⟩ := List.mem_map.1 (List.mem_toFinset.1 (mem_chunksFor.1 hx).1)
    rw [sampleChunk_length]
  have hcard : (chunksFor sampleGen 1 i (bs.map sampleChunk).toFinset).card ≤ bs.length := by
    calc (chunksFor sampleGen 1 i (bs.map sampleChunk).toFinset).card
        ≤ (bs.map sampleChunk).toFinset.card := Finset.card_filter_le _ _
      _ ≤ (bs.map sampleChunk).length := List.toFinset_card_le _
      _ = bs.length := List.length_map _
  rw [Finset.sum_congr rfl hlength, Finset.sum_const, smul_eq_mul]
  omega

/-- Samples are passed to a cache that holds nothing but samples. -/
theorem HoldsJust.passSamples {streamer : ChunkStreamer} {s : Store} {bs : List UInt8}
    (h : HoldsJust sampleGen 4096 1 (bs.map sampleChunk).toFinset s.mem) (bs' : List UInt8)
    (hmanager : streamer.cacheManager = sampleManager) (hcounters : streamer.Counters)
    (hfew : (bs ++ bs').length ≤ 480) :
    ∃ streamer' s', Theo.passChunks sampleGen streamer (bs'.map sampleChunk) s = .ok streamer' s' ∧
      Passes (bs.map sampleChunk).toFinset (bs'.map sampleChunk) streamer streamer' ∧
      HoldsJust sampleGen 4096 1 ((bs ++ bs').map sampleChunk).toFinset s'.mem := by
  have hunion : ((bs ++ bs').map sampleChunk).toFinset =
      (bs.map sampleChunk).toFinset ∪ (bs'.map sampleChunk).toFinset := by
    rw [List.map_append, List.toFinset_append]
  have hfit := samples_fit hfew
  have hinj := sampleGen_injOn (bs ++ bs')
  rw [hunion] at hfit hinj ⊢
  have hsizes : ∀ x ∈ bs'.map sampleChunk, 2049 ≤ x.length ∧ x.length ≤ 24576 := by
    intro x hx
    obtain ⟨b, -, rfl⟩ := List.mem_map.1 hx
    rw [sampleChunk_length]
    omega
  obtain ⟨streamer', s', hrun, hpasses, hholds, -⟩ :=
    h.passChunks (hmanager ▸ rfl) (Nat.le_refl 1) hcounters hsizes hinj hfit
  exact ⟨streamer', s', hrun, hpasses, hholds⟩

/-- A stream of samples is processed. -/
theorem HoldsJust.processSamples {streamer : ChunkStreamer} {s : Store} {bs : List UInt8}
    (h : HoldsJust sampleGen 4096 1 (bs.map sampleChunk).toFinset s.mem) (bs' : List UInt8)
    (hidle : streamer.chunker.Idle) (hmanager : streamer.cacheManager = sampleManager)
    (hcounters : streamer.Counters) (hfew : (bs ++ bs').length ≤ 480) {rest : List UInt8}
    (hrest : rest.length < chunkerMinChunkSize) : ∃ streamer' es,
      chunkStreamerProcessBuffer sampleGen streamer ((bs'.map sampleChunk).flatten ++ rest) s =
        .ok streamer' (s.after es) ∧
      chunksIn es = (bs'.map sampleChunk).map (noted sampleGen) ∧
      Passes (bs.map sampleChunk).toFinset (bs'.map sampleChunk) streamer streamer' ∧
      HoldsJust sampleGen 4096 1 ((bs ++ bs').map sampleChunk).toFinset (s.after es).mem := by
  obtain ⟨streamer', s', hpass, hpasses, hholds⟩ := h.passSamples bs' hmanager hcounters hfew
  obtain ⟨chunker, -, hrun⟩ := chunkStreamerProcessBuffer_run sampleGen hidle
    ((bs'.map sampleChunk).flatten ++ rest) s
  have hnoted := passChunks_noted sampleGen streamer (bs'.map sampleChunk) s
  rw [hpass] at hnoted
  obtain ⟨es, rfl, hes⟩ := hnoted
  rw [(chunksOf_samples bs' hrest).1, bind_ok hpass, pure_run] at hrun
  exact ⟨_, es, hrun, hes, ⟨hpasses.cacheManager, hpasses.added, hpasses.hit⟩, hholds⟩

end Theo
