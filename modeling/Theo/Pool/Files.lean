import Theo.Chunker.Split
import Theo.Pool.Dedup

set_option autoImplicit false

/-! # Files that fit

A client reads files into one cache, each in pieces and with a new streamer. As long as the distinct
chunks of all files fit, nothing aborts, and what the streamers count and retain is what an ideal cache
would have them count and retain, one that knows every chunk that it was ever given
(`files_dedup`). -/

namespace Theo

open ByteMachine

/-- What a streamer is left with behind a file. -/
structure Tally where
  retained : List UInt8
  added : Nat
  hit : Nat

/-- Reading files one after the other, each in pieces. -/
def readFiles (checksumGen : List UInt8 → Checksum) (bufferLength : Nat)
    (cacheManager : CacheManager) : List (List (List UInt8)) → Act (List Tally)
  | [] => pure []
  | pieces :: files => do
      let streamer ← chunkStreamerInit cacheManager
      let (retained, streamer) ← readLoop checksumGen bufferLength streamer [] pieces
      let tallies ← readFiles checksumGen bufferLength cacheManager files
      pure (⟨retained, streamer.chunkAdded, streamer.chunkHit⟩ :: tallies)

/-- What an ideal cache, which has seen the chunks `seen`, makes of a file. -/
def idealTally (seen : Finset (List UInt8)) (file : List UInt8) : Tally where
  retained := restOf file
  added := u32 (freshCount seen (chunksOf file))
  hit := u32 ((chunksOf file).length - freshCount seen (chunksOf file))

/-- What it makes of files, one after the other. -/
def idealTallies (seen : Finset (List UInt8)) : List (List UInt8) → List Tally
  | [] => []
  | file :: files => idealTally seen file :: idealTallies (seen ∪ (chunksOf file).toFinset) files

/-- The chunks of files. -/
def fileChunks (files : List (List (List UInt8))) : List (List UInt8) :=
  files.flatMap fun pieces => chunksOf pieces.flatten

/-- The buffer of the client has room for what is retained behind each piece. -/
def Roomy (bufferLength : Nat) (pieces : List (List UInt8)) : Prop :=
  ∀ k < pieces.length, (restOf (pieces.take (k + 1)).flatten).length < bufferLength

section

variable {base n bufferLength : Nat} {checksumGen : List UInt8 → Checksum}
  {cacheManager : CacheManager} {streamer : ChunkStreamer} {seen : Finset (List UInt8)}
  {x : List UInt8} {chunks : List (List UInt8)} {pieces : List (List UInt8)}
  {files : List (List (List UInt8))} {s : Store}

/-! ## Reading files -/

theorem fileChunks_cons : (fileChunks (pieces :: files)).toFinset =
    (chunksOf pieces.flatten).toFinset ∪ (fileChunks files).toFinset := by
  rw [fileChunks, List.flatMap_cons, List.toFinset_append, fileChunks]

/-- One file. -/
theorem HoldsJust.readFile (h : HoldsJust checksumGen base n seen s.mem)
    (hcache : cacheManager.cache = cacheAt base n) (hn : 1 ≤ n) (hroomy : Roomy bufferLength pieces)
    (hinj : Set.InjOn checksumGen
      (seen ∪ (chunksOf pieces.flatten).toFinset : Finset (List UInt8)))
    (hfit : Fit checksumGen n (seen ∪ (chunksOf pieces.flatten).toFinset)) :
    ∃ s', (∀ rest, readFiles checksumGen bufferLength cacheManager (pieces :: rest) s =
        (readFiles checksumGen bufferLength cacheManager rest >>= fun tallies =>
          pure (idealTally seen pieces.flatten :: tallies)) s') ∧
      HoldsJust checksumGen base n (seen ∪ (chunksOf pieces.flatten).toFinset) s'.mem ∧
      ((chunksOf pieces.flatten).toFinset ⊆ seen → s'.mem = s.mem) := by
  obtain ⟨streamer, hstreamer, hidle, hmanager, hadded, hhit⟩ := chunkStreamerInit_run cacheManager s
  have hnothing : cutOf [] = none := cutOf_short (by decide)
  obtain ⟨chunker, -, hloop⟩ := readLoop_run checksumGen hidle hnothing (fun k hk => hroomy k hk) s
  have hcounters : streamer.Counters := by
    rw [ChunkStreamer.Counters, hadded, hhit]
    decide
  obtain ⟨streamer', s', hpass, hpasses, hholds, hquiet⟩ := h.passChunks (hmanager ▸ hcache) hn
    hcounters chunksOf_sized hinj hfit
  refine ⟨s', fun rest => ?_, hholds, hquiet⟩
  rw [List.nil_append, bind_ok hpass] at hloop
  rw [readFiles, bind_ok hstreamer, bind_ok hloop]
  show _ = _
  rw [hpasses.added, hpasses.hit, hadded, hhit, Nat.zero_add, Nat.zero_add]
  rfl

/-- Files that fit are read as an ideal cache would have them read. -/
theorem HoldsJust.readFiles (h : HoldsJust checksumGen base n seen s.mem)
    (hcache : cacheManager.cache = cacheAt base n) (hn : 1 ≤ n)
    (hroomy : ∀ pieces ∈ files, Roomy bufferLength pieces)
    (hinj : Set.InjOn checksumGen (seen ∪ (fileChunks files).toFinset : Finset (List UInt8)))
    (hfit : Fit checksumGen n (seen ∪ (fileChunks files).toFinset)) :
    ∃ s', Theo.readFiles checksumGen bufferLength cacheManager files s =
        .ok (idealTallies seen (files.map List.flatten)) s' ∧
      HoldsJust checksumGen base n (seen ∪ (fileChunks files).toFinset) s'.mem := by
  induction files generalizing seen s with
  | nil =>
      have hnone : (fileChunks []).toFinset = ∅ := rfl
      refine ⟨s, rfl, ?_⟩
      rw [hnone, Finset.union_empty]
      exact h
  | cons pieces files ih =>
      rw [List.forall_mem_cons] at hroomy
      rw [fileChunks_cons, ← Finset.union_assoc] at hinj hfit ⊢
      have hsub : seen ∪ (chunksOf pieces.flatten).toFinset ⊆
          seen ∪ (chunksOf pieces.flatten).toFinset ∪ (fileChunks files).toFinset :=
        Finset.subset_union_left
      obtain ⟨s₁, hread, hholds, -⟩ := h.readFile hcache hn hroomy.1
        (hinj.mono (Finset.coe_subset.2 hsub)) (hfit.mono hsub)
      obtain ⟨s', hrun, hholds'⟩ := ih hholds hroomy.2 hinj hfit
      refine ⟨s', ?_, hholds'⟩
      rw [hread, bind_ok hrun]
      rfl

/-- Files that fit into a new cache. -/
theorem readFiles_new {t : Store} (hn : 1 ≤ n) (hsize : (n + 1) * cacheCellSize < 2 ^ 64)
    (hz : t.mem.Zero base (base + (n + 1) * cacheCellSize))
    (hinit : cacheInit base ((n + 1) * cacheCellSize) t = .ok cacheManager.cache s)
    (hroomy : ∀ pieces ∈ files, Roomy bufferLength pieces)
    (hinj : Set.InjOn checksumGen ((fileChunks files).toFinset : Set (List UInt8)))
    (hfit : Fit checksumGen n (fileChunks files).toFinset) :
    cacheManager.cache = cacheAt base n ∧
      ∃ s', readFiles checksumGen bufferLength cacheManager files s =
        .ok (idealTallies ∅ (files.map List.flatten)) s' ∧
      HoldsJust checksumGen base n (fileChunks files).toFinset s'.mem := by
  obtain ⟨s₁, hinit', hholds, -⟩ := cacheInit_zero hn (slots_eq n) hsize hz
  rw [hinit, EStateM.Result.ok.injEq] at hinit'
  obtain ⟨hcache, rfl⟩ := hinit'
  have hempty : HoldsJust checksumGen base n ∅ s.mem := hholds.holdsJust
  obtain ⟨s', hrun, hjust⟩ := hempty.readFiles hcache hn hroomy (by rwa [Finset.empty_union])
    (by rwa [Finset.empty_union])
  rw [Finset.empty_union] at hjust
  exact ⟨hcache, s', hrun, hjust⟩

/-- Files are read one after the other into a new cache, each in pieces. If their distinct chunks fit,
nothing aborts, and each streamer counts and retains what an ideal cache would have it: every chunk is
added the first time it occurs in any of the files, and a hit from then on. Behind them each chunk is
fetched as it was read, and reading what has been read before changes no byte. -/
theorem files_dedup {t : Store} (hn : 1 ≤ n) (hsize : (n + 1) * cacheCellSize < 2 ^ 64)
    (hz : t.mem.Zero base (base + (n + 1) * cacheCellSize))
    (hinit : cacheInit base ((n + 1) * cacheCellSize) t = .ok cacheManager.cache s)
    (hroomy : ∀ pieces ∈ files, Roomy bufferLength pieces)
    (hinj : Set.InjOn checksumGen ((fileChunks files).toFinset : Set (List UInt8)))
    (hfit : Fit checksumGen n (fileChunks files).toFinset) :
    ∃ s', readFiles checksumGen bufferLength cacheManager files s =
        .ok (idealTallies ∅ (files.map List.flatten)) s' ∧
      (∀ x ∈ fileChunks files, ∀ chunk, ∃ chunk',
        cacheManagerGetChunk cacheManager (checksumGen x) chunk s' = .ok (true, chunk') s' ∧
        chunk'.checksum = checksumGen x ∧ chunk'.buffer.take chunk'.bufferSize = x) ∧
      ∀ pieces, Roomy bufferLength pieces → chunksOf pieces.flatten ⊆ fileChunks files →
        ∃ s'', readFiles checksumGen bufferLength cacheManager [pieces] s' =
            .ok [⟨restOf pieces.flatten, 0, u32 (chunksOf pieces.flatten).length⟩] s'' ∧
          s''.mem = s'.mem := by
  obtain ⟨hcache, s', hrun, hjust⟩ := readFiles_new hn hsize hz hinit hroomy hinj hfit
  refine ⟨s', hrun, fun x hx chunk => ?_, fun pieces hpieces hseen => ?_⟩
  · exact hjust.getChunk hcache hn (List.mem_toFinset.2 hx) chunk
  · have hsub : (chunksOf pieces.flatten).toFinset ⊆ (fileChunks files).toFinset := fun x hx =>
      List.mem_toFinset.2 (hseen (List.mem_toFinset.1 hx))
    have hunion : (fileChunks files).toFinset ∪ (chunksOf pieces.flatten).toFinset =
        (fileChunks files).toFinset := Finset.union_eq_left.2 hsub
    obtain ⟨s'', hread, -, hquiet⟩ := hjust.readFile hcache hn hpieces (by rwa [hunion])
      (by rwa [hunion])
    refine ⟨s'', ?_, hquiet hsub⟩
    rw [hread, idealTally, freshCount_subset hsub]
    rfl

/-! ## Edited files -/

theorem idealTallies_append (seen : Finset (List UInt8)) (files : List (List (List UInt8)))
    (file : List UInt8) : idealTallies seen (files.map List.flatten ++ [file]) =
      idealTallies seen (files.map List.flatten) ++
        [idealTally (seen ∪ (fileChunks files).toFinset) file] := by
  induction files generalizing seen with
  | nil =>
      have hnone : (fileChunks []).toFinset = ∅ := rfl
      rw [hnone, Finset.union_empty]
      rfl
  | cons pieces files ih =>
      rw [List.map_cons, List.cons_append, idealTallies, ih, fileChunks_cons, ← Finset.union_assoc]
      rfl

/-- Chunks that have been seen from number `j` on. -/
theorem freshCount_le_of_drop {j : Nat} (h : (chunks.drop j).toFinset ⊆ seen) :
    freshCount seen chunks ≤ j := by
  have hsub : chunks.toFinset \ seen ⊆ (chunks.take j).toFinset := by
    intro x hx
    rw [Finset.mem_sdiff, List.mem_toFinset, ← List.take_append_drop j chunks, List.mem_append] at hx
    rcases hx.1 with htake | hdrop
    · exact List.mem_toFinset.2 htake
    · exact absurd (h (List.mem_toFinset.2 hdrop)) hx.2
  exact Nat.le_trans (Finset.card_le_card hsub)
    (Nat.le_trans (List.toFinset_card_le _) (List.length_take_le _ _))

/-- A file is read after its beginning has been replaced. If both versions have a cut at the same place
in what they have in common, then no more chunks are added than there are in front of that cut, however
long the file is and in whichever pieces it is read. -/
theorem edit_dedup {t : Store} {pieces' : List (List UInt8)} {p q common : List UInt8} {i j k : Nat}
    (hn : 1 ≤ n) (hsize : (n + 1) * cacheCellSize < 2 ^ 64)
    (hz : t.mem.Zero base (base + (n + 1) * cacheCellSize))
    (hinit : cacheInit base ((n + 1) * cacheCellSize) t = .ok cacheManager.cache s)
    (hroomy : ∀ pieces ∈ files ++ [pieces'], Roomy bufferLength pieces)
    (hinj : Set.InjOn checksumGen ((fileChunks (files ++ [pieces'])).toFinset : Set (List UInt8)))
    (hfit : Fit checksumGen n (fileChunks (files ++ [pieces'])).toFinset)
    (hmem : pieces ∈ files) (hfile : pieces.flatten = p ++ common)
    (hfile' : pieces'.flatten = q ++ common)
    (hi : ((chunksOf (p ++ common)).take i).flatten.length = p.length + k)
    (hj : ((chunksOf (q ++ common)).take j).flatten.length = q.length + k) :
    ∃ tallies tally s', readFiles checksumGen bufferLength cacheManager (files ++ [pieces']) s =
        .ok (tallies ++ [tally]) s' ∧ tally.added ≤ j ∧ tally.retained = restOf (p ++ common) := by
  obtain ⟨-, s', hrun, -⟩ := readFiles_new hn hsize hz hinit hroomy hinj hfit
  rw [List.map_append, List.map_singleton, idealTallies_append, Finset.empty_union] at hrun
  obtain ⟨hdrop, hrest⟩ := chunkCutter.segments_resync hi hj
  refine ⟨_, _, s', hrun, ?_, ?_⟩
  · -- what comes behind the cut has been read in the earlier version
    have hseen : ((chunksOf pieces'.flatten).drop j).toFinset ⊆ (fileChunks files).toFinset := by
      intro x hx
      rw [hfile', List.mem_toFinset] at hx
      have hx' : x ∈ (chunksOf (p ++ common)).drop i := hdrop ▸ hx
      rw [List.mem_toFinset, fileChunks, List.mem_flatMap]
      exact ⟨pieces, hmem, hfile ▸ List.mem_of_mem_drop hx'⟩
    exact Nat.le_trans (Nat.mod_le _ _) (freshCount_le_of_drop hseen)
  · show restOf pieces'.flatten = restOf (p ++ common)
    rw [hfile']
    exact hrest.symm

end

/-- A file of three samples and a byte is read in pieces, and then one that begins with its second
sample: the third sample of the first file and the first of the second are hits. -/
theorem files_dedup_samples : ∃ s s', cacheInit 4096 ((1 + 1) * cacheCellSize) zeroed =
      .ok sampleManager.cache s ∧
    readFiles sampleGen 24576 sampleManager [samplePieces, [([2, 3].map sampleChunk).flatten]] s =
      .ok [⟨[7], 2, 1⟩, ⟨[], 1, 1⟩] s' ∧
    ∀ chunk, ∃ chunk', cacheManagerGetChunk sampleManager (sampleGen (sampleChunk 3)) chunk s' =
      .ok (true, chunk') s' ∧ chunk'.buffer.take chunk'.bufferSize = sampleChunk 3 := by
  obtain ⟨s, streamer, hinit, -⟩ := samples_start
  have hsize : (1 + 1) * cacheCellSize < 2 ^ 64 := slots_lt (by decide)
  have hnone : ([] : List UInt8).length < chunkerMinChunkSize := by decide
  have hbyte : [(7 : UInt8)].length < chunkerMinChunkSize := by decide
  obtain ⟨hcut, hrest⟩ := chunksOf_samples [1, 2, 1] hbyte
  obtain ⟨hcut', hrest'⟩ := chunksOf_samples [2, 3] hnone
  rw [← samplePieces_flatten] at hcut hrest
  rw [List.append_nil] at hcut' hrest'
  have hwhole : [([2, 3].map sampleChunk).flatten].flatten = ([2, 3].map sampleChunk).flatten :=
    List.append_nil _
  rw [← hwhole] at hcut' hrest'
  have hchunks : fileChunks [samplePieces, [([2, 3].map sampleChunk).flatten]] =
      [1, 2, 1, 2, 3].map sampleChunk := by
    rw [fileChunks, List.flatMap_cons, List.flatMap_cons, List.flatMap_nil, hcut, hcut']
    rfl
  have hfit := @samples_fit [1, 2, 1, 2, 3] (by decide)
  have hinj := sampleGen_injOn [1, 2, 1, 2, 3]
  rw [← hchunks] at hfit hinj
  have hroomy : ∀ pieces ∈ [samplePieces, [([2, 3].map sampleChunk).flatten]],
      Roomy 24576 pieces := fun pieces _ k _ => restOf_lt _
  obtain ⟨s', hrun, hfetch, -⟩ := files_dedup (Nat.le_refl 1) hsize
    (zeroed_zero 4096 (4096 + (1 + 1) * cacheCellSize)) hinit hroomy hinj hfit
  refine ⟨s, s', hinit, ?_, fun chunk => ?_⟩
  · have hfirst : freshCount ∅ ([1, 2, 1].map sampleChunk) = 2 := freshCount_samples [] [1, 2, 1]
    have hsecond : freshCount (([1, 2, 1].map sampleChunk).toFinset) ([2, 3].map sampleChunk) = 1 :=
      freshCount_samples [1, 2, 1] [2, 3]
    rw [hrun, List.map_cons, List.map_cons, List.map_nil, idealTallies, idealTallies, idealTallies,
      idealTally, idealTally, hcut, hrest, hcut', hrest', Finset.empty_union, hfirst, hsecond]
    rfl
  · obtain ⟨chunk', hget, -, hbytes⟩ := hfetch (sampleChunk 3)
      (by rw [hchunks]; exact List.mem_map_of_mem (by decide)) chunk
    exact ⟨chunk', hget, hbytes⟩

/-- The first sample of a file is replaced by two others; behind them no sample is added again. -/
theorem edit_dedup_samples : ∃ s tallies tally s',
    cacheInit 4096 ((1 + 1) * cacheCellSize) zeroed = .ok sampleManager.cache s ∧
    readFiles sampleGen 24576 sampleManager
      ([[([1, 4, 5].map sampleChunk).flatten ++ [7]]] ++
        [[([2, 3].map sampleChunk).flatten, ([4, 5].map sampleChunk).flatten ++ [7]]]) s =
      .ok (tallies ++ [tally]) s' ∧ tally.added ≤ 2 ∧ tally.retained = [7] := by
  obtain ⟨s, streamer, hinit, -⟩ := samples_start
  have hsize : (1 + 1) * cacheCellSize < 2 ^ 64 := slots_lt (by decide)
  have hbyte : [(7 : UInt8)].length < chunkerMinChunkSize := by decide
  have hstream : ∀ bs : List UInt8, (bs.map sampleChunk).flatten ++
      (([4, 5].map sampleChunk).flatten ++ [7]) = ((bs ++ [4, 5]).map sampleChunk).flatten ++ [7] := by
    intro bs
    rw [List.map_append, List.flatten_append, List.append_assoc]
  obtain ⟨hcut, hrest⟩ := chunksOf_samples [1, 4, 5] hbyte
  obtain ⟨hcut', hrest'⟩ := chunksOf_samples [2, 3, 4, 5] hbyte
  have hfile : [([1, 4, 5].map sampleChunk).flatten ++ [7]].flatten =
      ([1].map sampleChunk).flatten ++ (([4, 5].map sampleChunk).flatten ++ [7]) := by
    rw [hstream [1], List.flatten_singleton]
    rfl
  have hfile' : [([2, 3].map sampleChunk).flatten, ([4, 5].map sampleChunk).flatten ++ [7]].flatten =
      ([2, 3].map sampleChunk).flatten ++ (([4, 5].map sampleChunk).flatten ++ [7]) := by
    rw [List.flatten_cons, List.flatten_singleton]
  have hcommon : chunksOf (([1].map sampleChunk).flatten ++
      (([4, 5].map sampleChunk).flatten ++ [7])) = [1, 4, 5].map sampleChunk := by
    rw [hstream [1]]
    exact hcut
  have hcommon' : chunksOf (([2, 3].map sampleChunk).flatten ++
      (([4, 5].map sampleChunk).flatten ++ [7])) = [2, 3, 4, 5].map sampleChunk := by
    rw [hstream [2, 3]]
    exact hcut'
  have hchunks : fileChunks ([[([1, 4, 5].map sampleChunk).flatten ++ [7]]] ++
      [[([2, 3].map sampleChunk).flatten, ([4, 5].map sampleChunk).flatten ++ [7]]]) =
      [1, 4, 5, 2, 3, 4, 5].map sampleChunk := by
    rw [fileChunks, List.cons_append, List.nil_append, List.flatMap_cons, List.flatMap_cons,
      List.flatMap_nil, hfile, hfile', hcommon, hcommon']
    rfl
  have hfit := @samples_fit [1, 4, 5, 2, 3, 4, 5] (by decide)
  have hinj := sampleGen_injOn [1, 4, 5, 2, 3, 4, 5]
  rw [← hchunks] at hfit hinj
  have hbefore : ((chunksOf (([1].map sampleChunk).flatten ++
      (([4, 5].map sampleChunk).flatten ++ [7]))).take 1).flatten.length =
      ([1].map sampleChunk).flatten.length + 0 := by
    rw [hcommon]
    rfl
  have hafter : ((chunksOf (([2, 3].map sampleChunk).flatten ++
      (([4, 5].map sampleChunk).flatten ++ [7]))).take 2).flatten.length =
      ([2, 3].map sampleChunk).flatten.length + 0 := by
    rw [hcommon']
    rfl
  have hroomy : ∀ pieces ∈ [[([1, 4, 5].map sampleChunk).flatten ++ [7]]] ++
      [[([2, 3].map sampleChunk).flatten, ([4, 5].map sampleChunk).flatten ++ [7]]],
      Roomy 24576 pieces := fun pieces _ k _ => restOf_lt _
  obtain ⟨tallies, tally, s', hrun, hadded, hretained⟩ := edit_dedup (Nat.le_refl 1) hsize
    (zeroed_zero 4096 (4096 + (1 + 1) * cacheCellSize)) hinit hroomy hinj hfit
    (List.mem_singleton_self _) hfile hfile' hbefore hafter
  rw [hstream [1]] at hretained
  exact ⟨s, tallies, tally, s', hinit, hrun, hadded, hretained.trans hrest⟩

end Theo
