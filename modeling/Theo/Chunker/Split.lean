import Theo.Chunker.Passing

set_option autoImplicit false

/-! # Streams with a common end, and streams in pieces

That cuts depend on nothing but the bytes behind the last cut has two consequences. Two streams with
the same end are cut in the same way behind a common cut (`chunks_resync`). And it makes no difference
in which pieces a stream is read (`split_irrelevant`). -/

namespace Theo

open ByteMachine RollingHash Segmentation

/-- The bytes that a streamer retains. -/
def ChunkStreamer.retainedBytes (streamer : ChunkStreamer) : List UInt8 :=
  streamer.chunker.retained.take streamer.chunker.retainedSize

/-- Where the `i`-th cut is. -/
def cutPosition (es : List (Event Site)) (i : Nat) : Nat :=
  (((chunksIn es).take i).map Prod.snd).flatten.length

/-- The read loop of a client, with `base` at the front of its buffer of `bufferLength` bytes: it reads
a piece behind the retained bytes, processes both, and flushes what is retained. -/
def readLoop (checksumGen : List UInt8 → Checksum) (bufferLength : Nat) :
    ChunkStreamer → List UInt8 → List (List UInt8) → Act (List UInt8 × ChunkStreamer)
  | streamer, base, [] => pure (base, streamer)
  | streamer, base, piece :: pieces => do
      let streamer ← chunkStreamerProcessBuffer checksumGen streamer (base ++ piece)
      let (base, streamer) ← chunkStreamerFlushRetained streamer bufferLength
      readLoop checksumGen bufferLength streamer base pieces

section

variable {checksumGen : List UInt8 → Checksum} {streamer streamer₁ streamer₂ : ChunkStreamer}
  {buffer : List UInt8} {s t₁ t₂ : Store} {es es₁ es₂ : List (Event Site)}

/-! ## Resynchronising -/

/-- What the log of a call notes are the first chunks of the buffer, and all of them if it returns. -/
theorem processBuffer_noted (h : streamer.chunker.Idle)
    (hes : final (chunkStreamerProcessBuffer checksumGen streamer buffer s) = s.after es) :
    chunksIn es <+: (chunksOf buffer).map (noted checksumGen) ∧
      ∀ streamer', chunkStreamerProcessBuffer checksumGen streamer buffer s =
          .ok streamer' (s.after es) →
        chunksIn es = (chunksOf buffer).map (noted checksumGen) ∧
          streamer'.retainedBytes = restOf buffer := by
  obtain ⟨chunker, hkeeps, hrun⟩ := chunkStreamerProcessBuffer_run checksumGen h buffer s
  have hnoted := passChunks_noted checksumGen streamer (chunksOf buffer) s
  rw [hrun] at hes ⊢
  cases hpass : passChunks checksumGen streamer (chunksOf buffer) s with
  | ok streamer₁ s₁ =>
      rw [hpass] at hnoted
      obtain ⟨es', hes', hnoted⟩ := hnoted
      rw [bind_ok hpass, pure_run] at hes ⊢
      have hsame : es = es' := Machine.after_inj ((show s₁ = s.after es from hes) ▸ hes')
      rw [hsame, hnoted]
      refine ⟨List.prefix_refl _, ?_⟩
      intro streamer' hok
      rw [EStateM.Result.ok.injEq] at hok
      obtain ⟨rfl, -⟩ := hok
      exact ⟨rfl, hkeeps.retained⟩
  | error e s₁ =>
      rw [hpass] at hnoted
      obtain ⟨passed, todo, es', hchunks, hes', hnoted⟩ := hnoted
      rw [bind_error hpass] at hes ⊢
      have hsame : es = es' := Machine.after_inj ((show s₁ = s.after es from hes) ▸ hes')
      rw [hsame, hnoted, hchunks, List.map_append]
      exact ⟨List.prefix_append _ _, fun streamer' hok => nomatch hok⟩

theorem map_noted (chunks : List (List UInt8)) :
    (chunks.map (noted checksumGen)).map Prod.snd = chunks := by
  rw [List.map_map]
  exact List.map_id _

/-- A cut of a call is a cut of its buffer, unless nothing was cut behind it. -/
theorem cutPosition_prefix {chunks : List (List UInt8)}
    (h : chunksIn es <+: chunks.map (noted checksumGen)) (i : Nat) :
    (chunksIn es).drop i = [] ∨ cutPosition es i = (chunks.take i).flatten.length ∧
      (chunksIn es).drop i <+: (chunks.drop i).map (noted checksumGen) := by
  rcases Nat.lt_or_ge (chunksIn es).length i with hlt | hge
  · exact Or.inl (List.drop_eq_nil_of_le (Nat.le_of_lt hlt))
  · right
    obtain ⟨more, hmore⟩ := h
    have htake : (chunksIn es).take i = (chunks.map (noted checksumGen)).take i := by
      rw [← hmore, List.take_append_of_le_length hge]
    refine ⟨?_, more, ?_⟩
    · rw [cutPosition, htake, ← List.map_take, map_noted]
    · rw [← List.drop_append_of_le_length hge, hmore, List.map_drop]

/-- Chunking resynchronises on common content: behind a cut at the same place in the common end of two
streams, whatever the two streamers have done before, what they cut is the same as far as both go; and
if both calls return, they cut the same chunks at the same places and retain the same bytes. -/
theorem chunks_resync (checksumGen : List UInt8 → Checksum) (h₁ : streamer₁.chunker.Idle)
    (h₂ : streamer₂.chunker.Idle) {p q common : List UInt8}
    (hes₁ : final (chunkStreamerProcessBuffer checksumGen streamer₁ (p ++ common) t₁) = t₁.after es₁)
    (hes₂ : final (chunkStreamerProcessBuffer checksumGen streamer₂ (q ++ common) t₂) = t₂.after es₂)
    {i j k : Nat} (hi : cutPosition es₁ i = p.length + k) (hj : cutPosition es₂ j = q.length + k) :
    ((chunksIn es₁).drop i <+: (chunksIn es₂).drop j ∨
      (chunksIn es₂).drop j <+: (chunksIn es₁).drop i) ∧
    ∀ streamer₁' streamer₂',
      chunkStreamerProcessBuffer checksumGen streamer₁ (p ++ common) t₁ =
        .ok streamer₁' (t₁.after es₁) →
      chunkStreamerProcessBuffer checksumGen streamer₂ (q ++ common) t₂ =
        .ok streamer₂' (t₂.after es₂) →
      (chunksIn es₁).drop i = (chunksIn es₂).drop j ∧
      (∀ n, cutPosition es₁ (i + n) + q.length = cutPosition es₂ (j + n) + p.length) ∧
      streamer₁'.retainedBytes = streamer₂'.retainedBytes := by
  obtain ⟨hprefix₁, hok₁⟩ := processBuffer_noted h₁ hes₁
  obtain ⟨hprefix₂, hok₂⟩ := processBuffer_noted h₂ hes₂
  constructor
  · -- a run that aborted has passed a prefix of its chunks
    rcases cutPosition_prefix hprefix₁ i with hnil | ⟨hcut₁, hlong₁⟩
    · rw [hnil]
      exact Or.inl List.nil_prefix
    rcases cutPosition_prefix hprefix₂ j with hnil | ⟨hcut₂, hlong₂⟩
    · rw [hnil]
      exact Or.inr List.nil_prefix
    rw [hcut₁] at hi
    rw [hcut₂] at hj
    obtain ⟨hsegments, -⟩ := Cutter.segments_resync hi hj
    rw [chunksOf, hsegments] at hlong₁
    exact List.prefix_or_prefix_of_prefix hlong₁ hlong₂
  · intro streamer₁' streamer₂' hrun₁ hrun₂
    -- and one that returned all of them
    obtain ⟨hchunks₁, hretained₁⟩ := hok₁ streamer₁' hrun₁
    obtain ⟨hchunks₂, hretained₂⟩ := hok₂ streamer₂' hrun₂
    have hposition₁ : ∀ n, cutPosition es₁ n = ((chunksOf (p ++ common)).take n).flatten.length := by
      intro n
      rw [cutPosition, hchunks₁, ← List.map_take, map_noted]
    have hposition₂ : ∀ n, cutPosition es₂ n = ((chunksOf (q ++ common)).take n).flatten.length := by
      intro n
      rw [cutPosition, hchunks₂, ← List.map_take, map_noted]
    rw [hposition₁] at hi
    rw [hposition₂] at hj
    obtain ⟨hsegments, hrest⟩ := Cutter.segments_resync hi hj
    refine ⟨?_, fun n => ?_, by rw [hretained₁, hretained₂]; exact hrest⟩
    · rw [hchunks₁, hchunks₂, ← List.map_drop, ← List.map_drop]
      exact congrArg _ hsegments
    · have hsame : ((chunksOf (p ++ common)).drop i).take n =
          ((chunksOf (q ++ common)).drop j).take n := congrArg (List.take n) hsegments
      rw [hposition₁, hposition₂, List.take_add, List.take_add, List.flatten_append,
        List.flatten_append, List.length_append, List.length_append, hi, hj, hsame]
      omega

/-- Two streamers on one cache. Behind one sample and behind two others, two more samples and a byte
follow: the end of the first of the two is a common cut, and the second is cut behind it. -/
theorem chunks_resync_samples : ∃ (s : Store) (streamer streamer₁' streamer₂' : ChunkStreamer)
    (es₁ es₂ : List (Event Site)),
    chunkStreamerInit sampleManager s = .ok streamer s ∧
    chunkStreamerProcessBuffer sampleGen streamer
      (([1].map sampleChunk).flatten ++ (([4, 5].map sampleChunk).flatten ++ [7])) s =
        .ok streamer₁' (s.after es₁) ∧
    chunkStreamerProcessBuffer sampleGen streamer
      (([2, 3].map sampleChunk).flatten ++ (([4, 5].map sampleChunk).flatten ++ [7]))
        (s.after es₁) = .ok streamer₂' ((s.after es₁).after es₂) ∧
    cutPosition es₁ 2 = ([1].map sampleChunk).flatten.length + 2049 ∧
    cutPosition es₂ 3 = ([2, 3].map sampleChunk).flatten.length + 2049 ∧
    (chunksIn es₁).drop 2 = [noted sampleGen (sampleChunk 5)] ∧
    (chunksIn es₁).drop 2 = (chunksIn es₂).drop 3 ∧
    streamer₁'.retainedBytes = streamer₂'.retainedBytes := by
  obtain ⟨s, streamer, -, hholds, hinit, hidle, hmanager, hadded, hhit⟩ := samples_start
  have hcounters : streamer.Counters := by
    rw [ChunkStreamer.Counters, hadded, hhit]
    decide
  have hshort : [(7 : UInt8)].length < chunkerMinChunkSize := by decide
  have hempty : HoldsJust sampleGen 4096 1 (([] : List UInt8).map sampleChunk).toFinset s.mem :=
    hholds.holdsJust
  -- the two streams, as streams of samples
  have hstream : ∀ bs : List UInt8, (bs.map sampleChunk).flatten ++
      (([4, 5].map sampleChunk).flatten ++ [7]) = ((bs ++ [4, 5]).map sampleChunk).flatten ++ [7] :=
    fun bs => by rw [List.map_append, List.flatten_append, List.append_assoc]
  obtain ⟨streamer₁', es₁, hrun₁, hes₁, -, hholds₁⟩ :=
    hempty.processSamples ([1] ++ [4, 5]) hidle hmanager hcounters (by decide) hshort
  obtain ⟨streamer₂', es₂, hrun₂, hes₂, -, -⟩ :=
    hholds₁.processSamples ([2, 3] ++ [4, 5]) hidle hmanager hcounters (by decide) hshort
  rw [← hstream] at hrun₁ hrun₂
  have hposition₁ : cutPosition es₁ 2 = ([1].map sampleChunk).flatten.length + 2049 := by
    rw [cutPosition, hes₁, ← List.map_take, map_noted]
    simp only [List.map_cons, List.map_nil, List.cons_append, List.nil_append, List.take,
      List.flatten_cons, List.flatten_nil, List.append_nil, List.length_append, sampleChunk_length]
  have hposition₂ : cutPosition es₂ 3 = ([2, 3].map sampleChunk).flatten.length + 2049 := by
    rw [cutPosition, hes₂, ← List.map_take, map_noted]
    simp only [List.map_cons, List.map_nil, List.cons_append, List.nil_append, List.take,
      List.flatten_cons, List.flatten_nil, List.append_nil, List.length_append, sampleChunk_length]
  have hfinal₁ : final (chunkStreamerProcessBuffer sampleGen streamer
      (([1].map sampleChunk).flatten ++ (([4, 5].map sampleChunk).flatten ++ [7])) s) = s.after es₁ := by
    rw [hrun₁]
    rfl
  have hfinal₂ : final (chunkStreamerProcessBuffer sampleGen streamer
      (([2, 3].map sampleChunk).flatten ++ (([4, 5].map sampleChunk).flatten ++ [7]))
        (s.after es₁)) = (s.after es₁).after es₂ := by
    rw [hrun₂]
    rfl
  obtain ⟨hsame, -, hretained⟩ := (chunks_resync sampleGen hidle hidle hfinal₁ hfinal₂ hposition₁
    hposition₂).2 _ _ hrun₁ hrun₂
  refine ⟨s, streamer, streamer₁', streamer₂', es₁, es₂, hinit, hrun₁, hrun₂, hposition₁, hposition₂,
    ?_, hsame, hretained⟩
  rw [hes₁]
  rfl

/-! ## Streams in pieces -/

theorem passChunks_append (streamer : ChunkStreamer) (xs ys : List (List UInt8)) :
    passChunks checksumGen streamer (xs ++ ys) =
      (passChunks checksumGen streamer xs >>= fun streamer' =>
        passChunks checksumGen streamer' ys) := by
  induction xs generalizing streamer with
  | nil => rfl
  | cons chunk xs ih =>
      rw [List.cons_append, passChunks_cons, passChunks_cons, bind_assoc]
      refine bind_congr fun _ => ?_
      rw [bind_assoc]
      exact bind_congr fun streamer' => ih streamer'

/-- The loop passes the chunks of the whole stream, and leaves the rest of it. -/
theorem readLoop_run (checksumGen : List UInt8 → Checksum) {bufferLength : Nat}
    (h : streamer.chunker.Idle) {base : List UInt8} (hbase : cutOf base = none)
    {pieces : List (List UInt8)}
    (hlarge : ∀ k < pieces.length,
      (restOf (base ++ (pieces.take (k + 1)).flatten)).length < bufferLength) (s : Store) :
    ∃ chunker : Chunker, chunker.Idle ∧ readLoop checksumGen bufferLength streamer base pieces s =
      (passChunks checksumGen streamer (chunksOf (base ++ pieces.flatten)) >>= fun streamer' =>
        pure (restOf (base ++ pieces.flatten), { streamer' with chunker := chunker })) s := by
  induction pieces generalizing streamer base s with
  | nil =>
      rw [← chunkCutter_cut] at hbase
      rw [List.flatten_nil, List.append_nil, chunksOf, restOf, Cutter.segments_none hbase,
        Cutter.rest_none hbase]
      exact ⟨streamer.chunker, h, rfl⟩
  | cons piece pieces ih =>
      -- one read: what was left over and the new piece go to the streamer together
      obtain ⟨chunker, hkeeps, hprocess⟩ :=
        chunkStreamerProcessBuffer_run checksumGen h (base ++ piece) s
      simp only [List.flatten_cons, ← List.append_assoc base, chunksOf_append (base ++ piece),
        restOf_append (base ++ piece), passChunks_append, bind_assoc, readLoop]
      cases hpass : passChunks checksumGen streamer (chunksOf (base ++ piece)) s with
      | error e s₁ =>
          rw [bind_error hpass] at hprocess
          refine ⟨streamer.chunker, h, ?_⟩
          rw [bind_error hprocess, bind_error hpass]
      | ok streamer₁ s₁ =>
          rw [bind_ok hpass, pure_run] at hprocess
          have hkept : ({ streamer₁ with chunker := chunker } : ChunkStreamer).chunker.Keeps
            (restOf (base ++ piece)) := hkeeps
          have hroom : (restOf (base ++ piece)).length < bufferLength := by
            have hfirst := hlarge 0 (Nat.zero_lt_succ _)
            rwa [List.take_succ_cons, List.take_zero, List.flatten_cons, List.flatten_nil,
              List.append_nil] at hfirst
          obtain ⟨chunker₁, hidle₁, hflush⟩ := chunkStreamerFlushRetained_run hkept hroom s₁
          have hidle : ({ streamer₁ with chunker := chunker₁ } : ChunkStreamer).chunker.Idle := hidle₁
          -- what is left over has no cut, so the invariant of the loop holds for the next read
          have hcut : cutOf (restOf (base ++ piece)) = none := by
            rw [← chunkCutter_cut]
            exact chunkCutter.cut_rest _
          have hnext : ∀ k < pieces.length,
              (restOf (restOf (base ++ piece) ++ (pieces.take (k + 1)).flatten)).length <
                bufferLength := by
            intro k hk
            have hlater := hlarge (k + 1) (Nat.succ_lt_succ hk)
            rwa [List.take_succ_cons, List.flatten_cons, ← List.append_assoc,
              restOf_append] at hlater
          obtain ⟨chunker₂, hidle₂, hloop⟩ := ih hidle hcut hnext s₁
          refine ⟨chunker₂, hidle₂, ?_⟩
          rw [bind_ok hprocess, bind_ok hflush, bind_ok hpass]
          refine hloop.trans ?_
          rw [passChunks_chunker, bind_assoc]
          simp only [pure_bind]

/-- Streaming does not depend on how the input is split: a client that reads the pieces of a stream has
the same chunks cut and the same calls made on the cache, in the same order and to the same effect, as
one that has the whole stream in one buffer, and is left with the same counts and retained bytes. -/
theorem split_irrelevant (checksumGen : List UInt8 → Checksum) {bufferLength : Nat}
    (h : streamer.chunker.Idle) {pieces : List (List UInt8)}
    (hlarge : ∀ k < pieces.length, (restOf (pieces.take (k + 1)).flatten).length < bufferLength)
    (s : Store) :
    match readLoop checksumGen bufferLength streamer [] pieces s,
      chunkStreamerProcessBuffer checksumGen streamer pieces.flatten s with
    | .ok (base, streamer₁) s₁, .ok streamer₂ s₂ => s₁ = s₂ ∧
        streamer₁.chunkHit = streamer₂.chunkHit ∧ streamer₁.chunkAdded = streamer₂.chunkAdded ∧
        base = streamer₂.retainedBytes
    | .error e₁ s₁, .error e₂ s₂ => e₁ = e₂ ∧ s₁ = s₂
    | _, _ => False := by
  have hstart : cutOf [] = none := cutOf_short (by decide)
  obtain ⟨chunker₁, -, hloop⟩ := readLoop_run checksumGen h hstart hlarge s
  obtain ⟨chunker₂, hkeeps, hprocess⟩ :=
    chunkStreamerProcessBuffer_run checksumGen h pieces.flatten s
  rw [List.nil_append] at hloop
  rw [hloop, hprocess]
  cases hpass : passChunks checksumGen streamer (chunksOf pieces.flatten) s with
  | error e s₁ =>
      rw [bind_error hpass, bind_error hpass]
      exact ⟨rfl, rfl⟩
  | ok streamer' s₁ =>
      rw [bind_ok hpass, bind_ok hpass]
      exact ⟨rfl, rfl, rfl, hkeeps.retained.symm⟩

end

/-- A stream of three samples, the last of which is the first again, and a byte, in three pieces: one
ends within the second sample, and one is empty. -/
def samplePieces : List (List UInt8) :=
  [(([1, 2, 1].map sampleChunk).flatten ++ [7]).take 3000, [],
    (([1, 2, 1].map sampleChunk).flatten ++ [7]).drop 3000]

theorem samplePieces_flatten :
    samplePieces.flatten = ([1, 2, 1].map sampleChunk).flatten ++ [7] := by
  rw [samplePieces, List.flatten_cons, List.flatten_cons, List.flatten_cons, List.flatten_nil,
    List.nil_append, List.append_nil, List.take_append_drop]

/-- Read in pieces or in one buffer, two samples are added, and one is a hit. -/
theorem split_irrelevant_samples : ∃ (s s' : Store) (streamer streamer₁ streamer₂ : ChunkStreamer)
    (base : List UInt8),
    chunkStreamerInit sampleManager s = .ok streamer s ∧
    readLoop sampleGen 24576 streamer [] samplePieces s = .ok (base, streamer₁) s' ∧
    chunkStreamerProcessBuffer sampleGen streamer samplePieces.flatten s = .ok streamer₂ s' ∧
    streamer₁.chunkAdded = 2 ∧ streamer₁.chunkHit = 1 ∧
    streamer₁.chunkHit = streamer₂.chunkHit ∧ streamer₁.chunkAdded = streamer₂.chunkAdded ∧
    base = streamer₂.retainedBytes := by
  obtain ⟨s, streamer, -, hholds, hinit, hidle, hmanager, hadded, hhit⟩ := samples_start
  have hcounters : streamer.Counters := by
    rw [ChunkStreamer.Counters, hadded, hhit]
    decide
  have hshort : [(7 : UInt8)].length < chunkerMinChunkSize := by decide
  have hempty : HoldsJust sampleGen 4096 1 (([] : List UInt8).map sampleChunk).toFinset s.mem :=
    hholds.holdsJust
  obtain ⟨streamer₂, es, hwhole, -, hpasses, -⟩ :=
    hempty.processSamples [1, 2, 1] hidle hmanager hcounters (by decide) hshort
  rw [← samplePieces_flatten] at hwhole
  have hfresh : freshCount (([] : List UInt8).map sampleChunk).toFinset
      ([1, 2, 1].map sampleChunk) = 2 := by
    rw [freshCount_samples]
    decide
  have hadded₂ := hpasses.added
  have hhit₂ := hpasses.hit
  rw [hfresh, hadded] at hadded₂
  rw [hfresh, hhit] at hhit₂
  generalize samplePieces = pieces at hwhole ⊢
  have hspec := split_irrelevant sampleGen hidle
    (fun k (_ : k < pieces.length) => restOf_lt (pieces.take (k + 1)).flatten) s
  rw [hwhole] at hspec
  cases hread : readLoop sampleGen chunkerMaxChunkSize streamer [] pieces s with
  | error e s' =>
      rw [hread] at hspec
      exact hspec.elim
  | ok out s' =>
      obtain ⟨base, streamer₁⟩ := out
      rw [hread] at hspec
      obtain ⟨rfl, hhits, hadds, hbase⟩ := hspec
      exact ⟨s, _, streamer, streamer₁, streamer₂, base, hinit, hread, hwhole, hadds.trans hadded₂,
        hhits.trans hhit₂, hhits, hadds, hbase⟩

end Theo
