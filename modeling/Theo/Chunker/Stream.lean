import Theo.Cell.Quiet
import Theo.Chunker.Cut
import Theo.Lib.Segment

set_option autoImplicit false

/-! # What a streamer does with a buffer

The chunks of a buffer are the segments that `cutOf` defines; what is left over is retained. One call of
`chunk_streamer_process_buffer` passes the chunks to the cache, one after the other, and retains the
rest (`CacheCalls.processBuffer_run`), whatever the cache answers. Only a call of the cache can keep it
from returning. -/

namespace Theo

open ByteMachine RollingHash Segmentation

theorem cutOf_pos {buffer : List UInt8} {n : Nat} (h : cutOf buffer = some n) : 0 < n := by
  have hbounds := cutOf_bounds h
  omega

theorem cutOf_le {buffer : List UInt8} {n : Nat} (h : cutOf buffer = some n) : n ≤ buffer.length :=
  (cutOf_bounds h).2.2

/-- How the chunker cuts a stream. -/
def chunkCutter : Cutter UInt8 := ⟨cutOf, cutOf_pos, cutOf_le⟩

theorem chunkCutter_cut : chunkCutter.cut = cutOf := by simp only [chunkCutter]

/-- The chunks of a buffer. -/
def chunksOf (buffer : List UInt8) : List (List UInt8) := chunkCutter.segments buffer

/-- What is left of a buffer behind its chunks. -/
def restOf (buffer : List UInt8) : List UInt8 := chunkCutter.rest buffer

/-- The chunks that a streamer has cut, with their checksums, as the log notes them. -/
def chunksIn (es : List (Event Site)) : List (List UInt8 × List UInt8) :=
  es.filterMap fun e => match e with
    | .mark (.chunk checksum buffer) => some (checksum, buffer)
    | _ => none

/-- Passing chunks that are already cut to the cache. -/
def CacheCalls.passChunks (calls : CacheCalls) (checksumGen : List UInt8 → Checksum) :
    ChunkStreamer → List (List UInt8) → Act ChunkStreamer
  | streamer, [] => pure streamer
  | streamer, chunk :: chunks => do
      emit (.mark (.chunk (checksumGen chunk).bytes chunk))
      let streamer ← calls.pass streamer (chunkRefSet checksumGen chunk)
      calls.passChunks checksumGen streamer chunks

/-- Passing them to the cache of `cache_manager.c`. -/
def passChunks (checksumGen : List UInt8 → Checksum) (streamer : ChunkStreamer)
    (chunks : List (List UInt8)) : Act ChunkStreamer :=
  managerCalls.passChunks checksumGen streamer chunks

/-- The calls for chunks that are cut off, one after the other, and the states they lead to: each chunk
is noted and looked up, and it is added if it is not found. With each chunk goes the answer to its
look-up. -/
inductive CacheCalls.Made (calls : CacheCalls) (checksumGen : List UInt8 → Checksum)
    (cacheManager : CacheManager) : Store → List (List UInt8 × Bool) → Store → Prop where
  | none (s : Store) : Made calls checksumGen cacheManager s [] s
  | hit {s s₁ s' : Store} {chunk : List UInt8} {rest : List (List UInt8 × Bool)}
      (has : calls.hasChunk cacheManager (checksumGen chunk)
        (s.emit (.mark (.chunk (checksumGen chunk).bytes chunk))) = .ok true s₁)
      (h : Made calls checksumGen cacheManager s₁ rest s') :
      Made calls checksumGen cacheManager s ((chunk, true) :: rest) s'
  | miss {s s₁ s₂ s' : Store} {chunk : List UInt8} {added : Bool} {rest : List (List UInt8 × Bool)}
      (has : calls.hasChunk cacheManager (checksumGen chunk)
        (s.emit (.mark (.chunk (checksumGen chunk).bytes chunk))) = .ok false s₁)
      (add : calls.addChunk cacheManager (checksumGen chunk) chunk s₁ = .ok added s₂)
      (h : Made calls checksumGen cacheManager s₂ rest s') :
      Made calls checksumGen cacheManager s ((chunk, false) :: rest) s'

/-- A chunk as the log notes it. -/
def noted (checksumGen : List UInt8 → Checksum) (chunk : List UInt8) : List UInt8 × List UInt8 :=
  ((checksumGen chunk).bytes, chunk)

/-- A chunker that can be given a buffer: prepared, and with nothing retained. -/
structure Chunker.Idle (chunker : Chunker) : Prop where
  ready : chunker.Ready
  empty : chunker.retainedSize = 0

/-- A chunker that retains `bytes`. -/
structure Chunker.Keeps (chunker : Chunker) (bytes : List UInt8) : Prop where
  ready : chunker.Ready
  size : chunker.retainedSize = bytes.length
  retained : chunker.retained.take chunker.retainedSize = bytes

section

variable {calls : CacheCalls} {checksumGen : List UInt8 → Checksum}
  {streamer streamer' : ChunkStreamer} {chunker : Chunker} {buffer : List UInt8} {s s' : Store}

theorem stash_keeps (h : chunker.Ready) (bytes : List UInt8) : (chunker.stash bytes).Keeps bytes :=
  ⟨h, rfl, stash_retained chunker bytes⟩

theorem restOf_lt (buffer : List UInt8) : (restOf buffer).length < chunkerMaxChunkSize := by
  have hcut := chunkCutter.cut_rest buffer
  rw [chunkCutter_cut, cutOf, cutAt] at hcut
  rw [restOf]
  generalize chunkCutter.rest buffer = bytes at hcut ⊢
  cases hfirst : firstHit (fedHit bytes) (searchLength bytes) with
  | some o =>
      rw [hfirst] at hcut
      cases hcut
  | none =>
      rw [hfirst, Option.elim_none] at hcut
      by_contra hge
      rw [if_pos (by omega)] at hcut
      cases hcut

/-- Every chunk is longer than the minimum and at most of the maximum size. -/
theorem chunksOf_length {chunk : List UInt8} (h : chunk ∈ chunksOf buffer) :
    chunkerMinChunkSize < chunk.length ∧ chunk.length ≤ chunkerMaxChunkSize := by
  rw [chunksOf] at h
  obtain ⟨ys, hcut, -⟩ := Cutter.mem_segments h
  rw [chunkCutter_cut] at hcut
  have hbounds := cutOf_bounds hcut
  rw [chunkerMinChunkSize_eq, chunkerMaxChunkSize_eq]
  omega

/-- The chunks and the rest are the buffer. -/
theorem chunksOf_flatten (buffer : List UInt8) : (chunksOf buffer).flatten ++ restOf buffer = buffer :=
  chunkCutter.flatten_append_rest buffer

/-- The bytes that a search is fed come in front of those that follow. -/
theorem fedBytes_append {xs : List UInt8} (h : chunkerMinChunkSize ≤ xs.length) (ys : List UInt8) :
    fedBytes (xs ++ ys) = fedBytes xs ++ ys := by
  have hfront : chunkerWindowWidth ≤
      (xs.drop (chunkerMinChunkSize - chunkerWindowWidth)).length := by
    rw [List.length_drop, chunkerWindowWidth_eq]
    rw [chunkerMinChunkSize_eq] at h ⊢
    omega
  rw [fedBytes, fedBytes, List.drop_append_of_le_length (by omega),
    List.take_append_of_le_length hfront, List.append_assoc]

theorem fedHit_append {xs : List UInt8} (h : chunkerMinChunkSize ≤ xs.length) (ys : List UInt8)
    {o : Nat} (ho : o ≤ xs.length) : fedHit (xs ++ ys) o = fedHit xs o := by
  have hlen : o + chunkerWindowWidth ≤ (fedBytes xs).length := by
    rw [fedBytes, List.length_append, List.length_take, List.length_drop, chunkerWindowWidth_eq]
    rw [chunkerMinChunkSize_eq] at h ⊢
    omega
  have hwindow : window (fedBytes xs ++ ys) chunkerWindowWidth o =
      window (fedBytes xs) chunkerWindowWidth o := by
    rw [window, window, List.drop_append_of_le_length (by omega),
      List.take_append_of_le_length (by rw [List.length_drop]; omega)]
  rw [fedHit, fedHit, fedBytes_append h, windowHit, windowHit, hwindow]

/-- More bytes never change a cut. -/
theorem chunkCutter_stable : chunkCutter.Stable := by
  intro xs ys n hcut
  rw [chunkCutter_cut] at hcut ⊢
  have hmin : chunkerMinChunkSize ≤ xs.length := by
    obtain ⟨hlo, -, hle⟩ := cutOf_bounds hcut
    rw [chunkerMinChunkSize_eq]
    omega
  have hsame : firstHit (fedHit (xs ++ ys)) (searchLength xs) =
      firstHit (fedHit xs) (searchLength xs) :=
    firstHit_congr fun j _ hj => fedHit_append hmin ys (by rw [searchLength] at hj; omega)
  rw [cutOf, cutAt] at hcut ⊢
  cases hfirst : firstHit (fedHit xs) (searchLength xs) with
  | some o =>
      have hlonger : searchLength xs ≤ searchLength (xs ++ ys) := by
        rw [searchLength, searchLength, List.length_append]
        omega
      rw [hfirst, Option.elim_some] at hcut
      rw [firstHit_mono (hsame.trans hfirst) hlonger, Option.elim_some, hcut]
  | none =>
      rw [hfirst, Option.elim_none] at hcut
      simp only [Option.ite_none_right_eq_some] at hcut
      obtain ⟨hmax, hn⟩ := hcut
      have hequal : searchLength (xs ++ ys) = searchLength xs := by
        rw [searchLength, searchLength, List.length_append]
        omega
      rw [hequal, hsame, hfirst, Option.elim_none, if_pos (by rw [List.length_append]; omega), hn]

theorem chunksOf_append (xs ys : List UInt8) :
    chunksOf (xs ++ ys) = chunksOf xs ++ chunksOf (restOf xs ++ ys) :=
  (Cutter.segments_append chunkCutter_stable xs ys).1

theorem restOf_append (xs ys : List UInt8) : restOf (xs ++ ys) = restOf (restOf xs ++ ys) :=
  (Cutter.segments_append chunkCutter_stable xs ys).2

/-- A new streamer. -/
theorem chunkStreamerInit_run (cacheManager : CacheManager) (s : Store) : ∃ streamer : ChunkStreamer,
    chunkStreamerInit cacheManager s = .ok streamer s ∧ streamer.chunker.Idle ∧
      streamer.cacheManager = cacheManager ∧ streamer.chunkAdded = 0 ∧ streamer.chunkHit = 0 := by
  obtain ⟨chunker, hrun, hready, hempty⟩ := chunkerInit_run s
  refine ⟨⟨chunker, cacheManager, 0, 0⟩, ?_, ⟨hready, hempty⟩, rfl, rfl, rfl⟩
  rw [chunkStreamerInit, bind_ok hrun]
  rfl

/-! ## One chunk -/

/-- The chunker is no concern of the cache. -/
theorem CacheCalls.pass_chunker (streamer : ChunkStreamer) (chunker : Chunker) (ref : ChunkRef) :
    calls.pass { streamer with chunker := chunker } ref =
      (calls.pass streamer ref >>= fun streamer' => pure { streamer' with chunker := chunker }) := by
  rw [CacheCalls.pass, CacheCalls.pass, bind_assoc]
  refine bind_congr fun has => ?_
  cases has with
  | true => rfl
  | false =>
      rw [if_neg Bool.false_ne_true, if_neg Bool.false_ne_true, bind_assoc]
      rfl

theorem CacheCalls.passChunks_chunker (streamer : ChunkStreamer) (chunker : Chunker)
    (chunks : List (List UInt8)) :
    calls.passChunks checksumGen { streamer with chunker := chunker } chunks =
      (calls.passChunks checksumGen streamer chunks >>= fun streamer' =>
        pure { streamer' with chunker := chunker }) := by
  induction chunks generalizing streamer with
  | nil => rfl
  | cons chunk chunks ih =>
      rw [CacheCalls.passChunks, CacheCalls.passChunks, bind_assoc]
      refine bind_congr fun _ => ?_
      rw [CacheCalls.pass_chunker, bind_assoc, bind_assoc]
      refine bind_congr fun streamer' => ?_
      rw [pure_bind, ih]

theorem passChunks_chunker (streamer : ChunkStreamer) (chunker : Chunker)
    (chunks : List (List UInt8)) :
    passChunks checksumGen { streamer with chunker := chunker } chunks =
      (passChunks checksumGen streamer chunks >>= fun streamer' =>
        pure { streamer' with chunker := chunker }) :=
  managerCalls.passChunks_chunker streamer chunker chunks

theorem passChunks_cons (streamer : ChunkStreamer) (chunk : List UInt8) (chunks : List (List UInt8)) :
    passChunks checksumGen streamer (chunk :: chunks) =
      (emit (.mark (.chunk (checksumGen chunk).bytes chunk)) >>= fun _ =>
        chunkStreamerPass streamer (chunkRefSet checksumGen chunk) >>= fun streamer' =>
          passChunks checksumGen streamer' chunks) := rfl

/-! ## A whole buffer -/

/-- The loop cuts the chunks off, passes them and keeps the rest. -/
theorem CacheCalls.loop_run (calls : CacheCalls) (checksumGen : List UInt8 → Checksum) {fuel : Nat}
    (h : streamer.chunker.Idle) (hfuel : buffer.length < fuel) (s : Store) : ∃ chunker : Chunker,
      chunker.Keeps (restOf buffer) ∧ calls.loop checksumGen fuel streamer buffer s =
        (calls.passChunks checksumGen streamer (chunksOf buffer) >>= fun streamer' =>
          pure { streamer' with chunker := chunker }) s := by
  induction fuel generalizing streamer buffer s with
  | zero => cases hfuel
  | succ fuel ih =>
      obtain ⟨chunker, hrun, hready, hcuts, hwaits⟩ :=
        chunkerChunkBuffer_run checksumGen h.ready h.empty buffer s
      rw [CacheCalls.loop, bind_ok hrun, chunksOf, restOf]
      cases hcut : cutOf buffer with
      | none =>
          obtain ⟨hsize, hretained⟩ := hwaits hcut
          rw [← chunkCutter_cut] at hcut
          rw [Cutter.segments_none hcut, Cutter.rest_none hcut]
          exact ⟨chunker, ⟨hready, hsize, hretained⟩, rfl⟩
      | some n =>
          have hidle : chunker.Idle := ⟨hready, hcuts (by rw [hcut]; exact Option.some_ne_none n)⟩
          have hlen : (buffer.take n).length = n := by
            rw [List.length_take, Nat.min_eq_left (cutOf_le hcut)]
          have hpos := cutOf_pos hcut
          have hle := cutOf_le hcut
          rw [← chunkCutter_cut] at hcut
          rw [Cutter.segments_some hcut, Cutter.rest_some hcut]
          simp only [CacheCalls.passChunks, chunkRefSet, hlen, Option.map_some, bind_assoc, emit_bind,
            CacheCalls.pass_chunker, pure_bind]
          cases hpass : calls.pass streamer ⟨checksumGen (buffer.take n), buffer.take n⟩
              (s.emit (.mark (.chunk (checksumGen (buffer.take n)).bytes (buffer.take n)))) with
          | error e s₁ =>
              refine ⟨chunker.stash (chunkCutter.rest (buffer.drop n)), stash_keeps hready _, ?_⟩
              rw [bind_error hpass, bind_error hpass]
          | ok streamer₁ s₁ =>
              have hidle₁ : ({ streamer₁ with chunker := chunker } : ChunkStreamer).chunker.Idle :=
                hidle
              -- a chunk has at least one byte, so the fuel is enough for what follows it
              have hshort : (buffer.drop n).length < fuel := by
                rw [List.length_drop]
                omega
              obtain ⟨chunker', hkeeps, hloop⟩ := ih hidle₁ hshort s₁
              refine ⟨chunker', hkeeps, ?_⟩
              rw [bind_ok hpass, bind_ok hpass, hloop, CacheCalls.passChunks_chunker, bind_assoc]
              simp only [pure_bind]
              rfl

/-- One call cuts the chunks of the buffer off, passes them and keeps the rest. -/
theorem CacheCalls.processBuffer_run (calls : CacheCalls) (checksumGen : List UInt8 → Checksum)
    (h : streamer.chunker.Idle) (buffer : List UInt8) (s : Store) : ∃ chunker : Chunker,
      chunker.Keeps (restOf buffer) ∧ calls.processBuffer checksumGen streamer buffer s =
        (calls.passChunks checksumGen streamer (chunksOf buffer) >>= fun streamer' =>
          pure { streamer' with chunker := chunker }) s :=
  calls.loop_run checksumGen h (Nat.lt_succ_self _) s

theorem chunkStreamerProcessBuffer_run (checksumGen : List UInt8 → Checksum)
    (h : streamer.chunker.Idle) (buffer : List UInt8) (s : Store) : ∃ chunker : Chunker,
      chunker.Keeps (restOf buffer) ∧ chunkStreamerProcessBuffer checksumGen streamer buffer s =
        (passChunks checksumGen streamer (chunksOf buffer) >>= fun streamer' =>
          pure { streamer' with chunker := chunker }) s :=
  managerCalls.processBuffer_run checksumGen h buffer s

/-! ## What the cache is passed -/

/-- The chunks that were passed are counted, each as a hit if it was found and as added if not. -/
structure Counted (streamer streamer' : ChunkStreamer) (talk : List (List UInt8 × Bool)) : Prop where
  chunker : streamer'.chunker = streamer.chunker
  cacheManager : streamer'.cacheManager = streamer.cacheManager
  hits : u32 streamer'.chunkHit = u32 (streamer.chunkHit + talk.countP fun x => x.2)
  added : u32 streamer'.chunkAdded = u32 (streamer.chunkAdded + talk.countP fun x => !x.2)

/-- The two counters together grow by the number of chunks. -/
theorem Counted.sum {talk : List (List UInt8 × Bool)} (h : Counted streamer streamer' talk) :
    u32 (streamer'.chunkHit + streamer'.chunkAdded) =
      u32 (streamer.chunkHit + streamer.chunkAdded + talk.length) := by
  have hlength := talk.length_eq_countP_add_countP fun x => x.2
  have hhits := h.hits
  have hadded := h.added
  simp only [Bool.not_eq_true, Bool.decide_eq_false] at hlength
  simp only [u32] at *
  omega

/-- A call of the cache for the chunk fails. -/
def CacheCalls.Fails (calls : CacheCalls) (checksumGen : List UInt8 → Checksum)
    (cacheManager : CacheManager) (chunk : List UInt8) (s : Store) (e : Abort) (s' : Store) : Prop :=
  let noted := s.emit (.mark (.chunk (checksumGen chunk).bytes chunk))
  calls.hasChunk cacheManager (checksumGen chunk) noted = .error e s' ∨
    ∃ s₁, calls.hasChunk cacheManager (checksumGen chunk) noted = .ok false s₁ ∧
      calls.addChunk cacheManager (checksumGen chunk) chunk s₁ = .error e s'

/-- Passing chunks: the calls are made for each, or for each up to one where a call fails. -/
theorem CacheCalls.passChunks_spec (calls : CacheCalls) (checksumGen : List UInt8 → Checksum)
    (streamer : ChunkStreamer) (chunks : List (List UInt8)) (s : Store) :
    match calls.passChunks checksumGen streamer chunks s with
    | .ok streamer' s' => ∃ talk, talk.map Prod.fst = chunks ∧
        calls.Made checksumGen streamer.cacheManager s talk s' ∧ Counted streamer streamer' talk
    | .error e s' => ∃ talk chunk todo s₁, chunks = talk.map Prod.fst ++ chunk :: todo ∧
        calls.Made checksumGen streamer.cacheManager s talk s₁ ∧
        calls.Fails checksumGen streamer.cacheManager chunk s₁ e s' := by
  induction chunks generalizing streamer s with
  | nil => exact ⟨[], rfl, .none s, rfl, rfl, rfl, rfl⟩
  | cons chunk chunks ih =>
      rw [CacheCalls.passChunks, emit_bind, CacheCalls.pass, bind_assoc]
      simp only [chunkRefSet]
      cases hhas : calls.hasChunk streamer.cacheManager (checksumGen chunk)
          (s.emit (.mark (.chunk (checksumGen chunk).bytes chunk))) with
      | error e s₁ =>
          rw [bind_error hhas]
          exact ⟨[], chunk, chunks, s, rfl, .none s, Or.inl hhas⟩
      | ok has s₁ =>
          rw [bind_ok hhas]
          cases has with
          | true =>
              have hspec := ih streamer.countHit s₁
              rw [if_pos rfl, pure_bind]
              cases hrest : calls.passChunks checksumGen streamer.countHit chunks s₁ with
              | ok streamer' s' =>
                  rw [hrest] at hspec
                  obtain ⟨talk, rfl, hmade, hcounted⟩ := hspec
                  refine ⟨(chunk, true) :: talk, rfl, .hit hhas hmade, hcounted.chunker,
                    hcounted.cacheManager, ?_, ?_⟩
                  · have hhits := hcounted.hits
                    simp only [ChunkStreamer.countHit, List.countP_cons_of_pos, u32] at hhits ⊢
                    omega
                  · exact hcounted.added
              | error e s' =>
                  rw [hrest] at hspec
                  obtain ⟨talk, last, todo, s₂, rfl, hmade, hfails⟩ := hspec
                  exact ⟨(chunk, true) :: talk, last, todo, s₂, rfl, .hit hhas hmade, hfails⟩
          | false =>
              rw [if_neg Bool.false_ne_true, bind_assoc]
              cases hadd : calls.addChunk streamer.cacheManager (checksumGen chunk) chunk s₁ with
              | error e s₂ =>
                  rw [bind_error hadd]
                  exact ⟨[], chunk, chunks, s, rfl, .none s, Or.inr ⟨s₁, hhas, hadd⟩⟩
              | ok added s₂ =>
                  have hspec := ih streamer.countAdded s₂
                  rw [bind_ok hadd, pure_bind]
                  cases hrest : calls.passChunks checksumGen streamer.countAdded chunks s₂ with
                  | ok streamer' s' =>
                      rw [hrest] at hspec
                      obtain ⟨talk, rfl, hmade, hcounted⟩ := hspec
                      refine ⟨(chunk, false) :: talk, rfl, .miss hhas hadd hmade, hcounted.chunker,
                        hcounted.cacheManager, hcounted.hits, ?_⟩
                      have hadded := hcounted.added
                      simp only [ChunkStreamer.countAdded, Bool.not_false, List.countP_cons_of_pos, u32] at hadded ⊢
                      omega
                  | error e s' =>
                      rw [hrest] at hspec
                      obtain ⟨talk, last, todo, s₃, rfl, hmade, hfails⟩ := hspec
                      exact ⟨(chunk, false) :: talk, last, todo, s₃, rfl, .miss hhas hadd hmade, hfails⟩

/-! ## What the log notes of it -/

/-- No chunk is noted. -/
def NoChunk : Event Site → Prop
  | .mark (.chunk ..) => False
  | _ => True

theorem NoCall.noChunk {e : Event Site} (h : NoCall e) : NoChunk e := by
  cases e with
  | store => trivial
  | barrier => trivial
  | mark note =>
      cases note with
      | chunk => exact h
      | _ => trivial

theorem chunksIn_append (es es' : List (Event Site)) :
    chunksIn (es ++ es') = chunksIn es ++ chunksIn es' := List.filterMap_append

theorem chunksIn_noChunk {es : List (Event Site)} (h : ∀ e ∈ es, NoChunk e) : chunksIn es = [] := by
  refine List.filterMap_eq_nil_iff.2 fun e he => ?_
  have hno := h e he
  cases e with
  | store => rfl
  | barrier => rfl
  | mark note =>
      cases note with
      | chunk => exact hno.elim
      | _ => rfl

theorem cacheManagerHasChunk_only (cacheManager : CacheManager) (c : Checksum) :
    Only NoChunk (cacheManagerHasChunk cacheManager c) :=
  (Only.emit trivial).bind fun _ => (cacheHasChunk_reads _ c).only

theorem cacheManagerAddChunk_only (cacheManager : CacheManager) (c : Checksum)
    (bytes : List UInt8) : Only NoChunk (cacheManagerAddChunk cacheManager c bytes) :=
  (Only.emit trivial).bind fun _ => (cacheAddChunk_only _ c bytes).mono fun _ he => he.noChunk

theorem noChunks_after {α : Type} {x : Act α} (hx : Only NoChunk x) (s : Store) :
    ∃ es, final (x s) = s.after es ∧ chunksIn es = [] := by
  obtain ⟨es, hes, hno⟩ := (hx.emits s).eq_after
  exact ⟨es, hes, chunksIn_noChunk hno⟩

/-- Behind the look-up of a chunk the log notes it, and behind its insertion nothing more. -/
theorem hasChunk_noted (checksumGen : List UInt8 → Checksum) (cacheManager : CacheManager)
    (chunk : List UInt8) (s : Store) : ∃ es,
      final (cacheManagerHasChunk cacheManager (checksumGen chunk)
        (s.emit (.mark (.chunk (checksumGen chunk).bytes chunk)))) = s.after es ∧
      chunksIn es = [noted checksumGen chunk] := by
  obtain ⟨es, hes, hno⟩ := noChunks_after (cacheManagerHasChunk_only cacheManager (checksumGen chunk))
    (s.emit (.mark (.chunk (checksumGen chunk).bytes chunk)))
  rw [Machine.emit_after, Machine.after_append] at hes
  refine ⟨_, hes, ?_⟩
  rw [chunksIn_append, hno, List.append_nil]
  rfl

theorem addChunk_noted (cacheManager : CacheManager) {chunk : List UInt8} {s₁ : Store}
    {es : List (Event Site)} (hs₁ : s₁ = s.after es) (hes : chunksIn es = [noted checksumGen chunk]) :
    ∃ es', final (cacheManagerAddChunk cacheManager (checksumGen chunk) chunk s₁) = s.after es' ∧
      chunksIn es' = [noted checksumGen chunk] := by
  obtain ⟨es₁, hes₁, hno⟩ :=
    noChunks_after (cacheManagerAddChunk_only cacheManager (checksumGen chunk) chunk) s₁
  rw [hs₁, Machine.after_append] at hes₁
  refine ⟨_, hs₁ ▸ hes₁, ?_⟩
  rw [chunksIn_append, hes, hno, List.append_nil]

/-- Of the calls of `cache_manager.c` the log notes the chunks they are made for. -/
theorem made_noted {cacheManager : CacheManager} {talk : List (List UInt8 × Bool)}
    (h : managerCalls.Made checksumGen cacheManager s talk s') :
    ∃ es, s' = s.after es ∧ chunksIn es = (talk.map Prod.fst).map (noted checksumGen) := by
  induction h with
  | none s => exact ⟨[], (Machine.after_nil s).symm, rfl⟩
  | @hit s s₁ s' chunk rest has _ ih =>
      obtain ⟨es, hes, hnoted⟩ := hasChunk_noted checksumGen cacheManager chunk s
      rw [show cacheManagerHasChunk cacheManager (checksumGen chunk) _ = _ from has] at hes
      obtain ⟨es', rfl, hrest⟩ := ih
      refine ⟨_, by rw [show s₁ = _ from hes, Machine.after_append], ?_⟩
      rw [chunksIn_append, hnoted, hrest]
      rfl
  | @miss s s₁ s₂ s' chunk added rest has add _ ih =>
      obtain ⟨es, hes, hnoted⟩ := hasChunk_noted checksumGen cacheManager chunk s
      rw [show cacheManagerHasChunk cacheManager (checksumGen chunk) _ = _ from has] at hes
      obtain ⟨es₁, hes₁, hnoted₁⟩ := addChunk_noted cacheManager
        (show s₁ = s.after es from hes) hnoted
      rw [show cacheManagerAddChunk cacheManager (checksumGen chunk) chunk s₁ = _ from add] at hes₁
      obtain ⟨es', rfl, hrest⟩ := ih
      refine ⟨_, by rw [show s₂ = _ from hes₁, Machine.after_append], ?_⟩
      rw [chunksIn_append, hnoted₁, hrest]
      rfl

theorem fails_noted {cacheManager : CacheManager} {chunk : List UInt8} {e : Abort}
    (h : managerCalls.Fails checksumGen cacheManager chunk s e s') :
    ∃ es, s' = s.after es ∧ chunksIn es = [noted checksumGen chunk] := by
  obtain ⟨es, hes, hnoted⟩ := hasChunk_noted checksumGen cacheManager chunk s
  rcases h with hhas | ⟨s₁, hhas, hadd⟩
  · rw [show cacheManagerHasChunk cacheManager (checksumGen chunk) _ = _ from hhas] at hes
    exact ⟨es, hes, hnoted⟩
  · rw [show cacheManagerHasChunk cacheManager (checksumGen chunk) _ = _ from hhas] at hes
    obtain ⟨es₁, hes₁, hnoted₁⟩ := addChunk_noted cacheManager
      (show s₁ = s.after es from hes) hnoted
    rw [show cacheManagerAddChunk cacheManager (checksumGen chunk) chunk s₁ = _ from hadd] at hes₁
    exact ⟨es₁, hes₁, hnoted₁⟩

/-- Passing chunks to the cache of `cache_manager.c`: the log notes them all, or up to one. -/
theorem passChunks_noted (checksumGen : List UInt8 → Checksum) (streamer : ChunkStreamer)
    (chunks : List (List UInt8)) (s : Store) :
    match passChunks checksumGen streamer chunks s with
    | .ok _ s' => ∃ es, s' = s.after es ∧ chunksIn es = chunks.map (noted checksumGen)
    | .error _ s' => ∃ passed todo es, chunks = passed ++ todo ∧ s' = s.after es ∧
        chunksIn es = passed.map (noted checksumGen) := by
  have hspec := managerCalls.passChunks_spec checksumGen streamer chunks s
  cases hpass : passChunks checksumGen streamer chunks s with
  | ok streamer' s' =>
      rw [show managerCalls.passChunks checksumGen streamer chunks s = _ from hpass] at hspec
      obtain ⟨talk, rfl, hmade, -⟩ := hspec
      exact made_noted hmade
  | error e s' =>
      rw [show managerCalls.passChunks checksumGen streamer chunks s = _ from hpass] at hspec
      obtain ⟨talk, chunk, todo, s₁, rfl, hmade, hfails⟩ := hspec
      obtain ⟨es, rfl, hes⟩ := made_noted hmade
      obtain ⟨es', rfl, hes'⟩ := fails_noted hfails
      refine ⟨talk.map Prod.fst ++ [chunk], todo, es ++ es', ?_, Machine.after_append _ _ _, ?_⟩
      · rw [List.append_assoc]
        rfl
      · rw [chunksIn_append, hes, hes', List.map_append]
        rfl

/-! ## Flushing -/

theorem chunkStreamerFlushRetained_run {bytes : List UInt8} (h : streamer.chunker.Keeps bytes)
    {bufferLength : Nat} (hroom : bytes.length < bufferLength) (s : Store) : ∃ chunker : Chunker,
      chunker.Idle ∧ chunkStreamerFlushRetained streamer bufferLength s =
        .ok (bytes, { streamer with chunker := chunker }) s := by
  have hsize := h.size
  have hflush : ∃ chunker : Chunker, chunker.Idle ∧
      chunkerFlushRetained streamer.chunker bufferLength s = .ok (bytes, chunker) s := by
    rw [chunkerFlushRetained, always, check_bind_true _ (decide_eq_true (by rw [hsize]; exact hroom))]
    by_cases hempty : streamer.chunker.retainedSize = 0
    · refine ⟨streamer.chunker, ⟨h.ready, hempty⟩, ?_⟩
      rw [if_pos hempty, ← h.retained, hempty]
      rfl
    · refine ⟨{ streamer.chunker with retainedSize := 0 }, ⟨h.ready, rfl⟩, ?_⟩
      rw [if_neg hempty, h.retained]
      rfl
  obtain ⟨chunker, hidle, hrun⟩ := hflush
  refine ⟨chunker, hidle, ?_⟩
  rw [chunkStreamerFlushRetained, bind_ok hrun]
  rfl

/-! ## A stream of samples -/

/-- A stream of samples is cut into them. -/
theorem chunksOf_samples (bs : List UInt8) {rest : List UInt8}
    (hrest : rest.length < chunkerMinChunkSize) :
    chunksOf ((bs.map sampleChunk).flatten ++ rest) = bs.map sampleChunk ∧
      restOf ((bs.map sampleChunk).flatten ++ rest) = rest := by
  induction bs with
  | nil =>
      have hcut : chunkCutter.cut rest = none := by
        rw [chunkCutter_cut]
        exact cutOf_short hrest
      exact ⟨Cutter.segments_none hcut, Cutter.rest_none hcut⟩
  | cons b bs ih =>
      have hcut : chunkCutter.cut
          (sampleChunk b ++ ((bs.map sampleChunk).flatten ++ rest)) = some 2049 :=
        chunkCutter_stable _ _ _ (by rw [chunkCutter_cut]; exact cutOf_sampleChunk b)
      have htake := @List.take_left _ (sampleChunk b) ((bs.map sampleChunk).flatten ++ rest)
      have hdrop := @List.drop_left _ (sampleChunk b) ((bs.map sampleChunk).flatten ++ rest)
      rw [sampleChunk_length] at htake hdrop
      rw [List.map_cons, List.flatten_cons, List.append_assoc, chunksOf, restOf,
        Cutter.segments_some hcut, Cutter.rest_some hcut, htake, hdrop]
      exact ⟨congrArg _ ih.1, ih.2⟩

/-! ## The partition -/

/-- The chunks were cut off the front of the buffer one after the other: no cut goes beyond the bytes
that are left, and the sizes are those of chunks. -/
structure CutOff (buffer : List UInt8) (chunks : List (List UInt8)) (rest : List UInt8) : Prop where
  partition : chunks.flatten ++ rest = buffer
  within : ∀ passed chunk todo, chunks = passed ++ chunk :: todo →
    chunk.length ≤ buffer.length - passed.flatten.length
  sizes : ∀ chunk ∈ chunks, chunkerMinChunkSize < chunk.length ∧ chunk.length ≤ chunkerMaxChunkSize

theorem CutOff.of_partition {chunks : List (List UInt8)} {rest : List UInt8}
    (hpartition : chunks.flatten ++ rest = buffer) (hsizes : ∀ chunk ∈ chunks,
      chunkerMinChunkSize < chunk.length ∧ chunk.length ≤ chunkerMaxChunkSize) :
    CutOff buffer chunks rest := by
  refine ⟨hpartition, ?_, hsizes⟩
  rintro passed chunk todo rfl
  rw [← hpartition]
  simp only [List.flatten_append, List.flatten_cons, List.length_append]
  omega

/-- A streamer partitions its input, whatever the cache answers: a call that returns has looked all of
the buffer up but for the bytes it retains, each chunk once and in order, has added each chunk that was
not found, and has counted them; and what does not return is never the chunker but a call of the cache
for a chunk that was cut off like the others. -/
theorem process_partitions (calls : CacheCalls) (checksumGen : List UInt8 → Checksum)
    (h : streamer.chunker.Idle) (buffer : List UInt8) (s : Store) :
    match calls.processBuffer checksumGen streamer buffer s with
    | .ok streamer' s' => ∃ talk rest,
        calls.Made checksumGen streamer.cacheManager s talk s' ∧
        CutOff buffer (talk.map Prod.fst) rest ∧ rest.length < chunkerMaxChunkSize ∧
        (∀ bufferLength, rest.length < bufferLength → ∃ streamer'',
          chunkStreamerFlushRetained streamer' bufferLength s' = .ok (rest, streamer'') s') ∧
        u32 streamer'.chunkHit = u32 (streamer.chunkHit + talk.countP fun x => x.2) ∧
        u32 streamer'.chunkAdded = u32 (streamer.chunkAdded + talk.countP fun x => !x.2) ∧
        u32 (streamer'.chunkHit + streamer'.chunkAdded) =
          u32 (streamer.chunkHit + streamer.chunkAdded + talk.length)
    | .error e s' => ∃ talk chunk rest s₁,
        calls.Made checksumGen streamer.cacheManager s talk s₁ ∧
        CutOff buffer (talk.map Prod.fst ++ [chunk]) rest ∧
        calls.Fails checksumGen streamer.cacheManager chunk s₁ e s' := by
  obtain ⟨chunker, hkeeps, hrun⟩ := calls.processBuffer_run checksumGen h buffer s
  have hspec := calls.passChunks_spec checksumGen streamer (chunksOf buffer) s
  have hsizes : ∀ chunk ∈ chunksOf buffer,
      chunkerMinChunkSize < chunk.length ∧ chunk.length ≤ chunkerMaxChunkSize :=
    fun _ hchunk => chunksOf_length hchunk
  have hpartition := chunksOf_flatten buffer
  rw [hrun]
  cases hpass : calls.passChunks checksumGen streamer (chunksOf buffer) s with
  | ok streamer' s' =>
      rw [hpass] at hspec
      obtain ⟨talk, htalk, hmade, hcounted⟩ := hspec
      rw [bind_ok hpass]
      have hkept : ({ streamer' with chunker := chunker } : ChunkStreamer).chunker.Keeps
        (restOf buffer) := hkeeps
      rw [← htalk] at hsizes hpartition
      refine ⟨talk, restOf buffer, hmade, .of_partition hpartition hsizes, restOf_lt buffer,
        fun bufferLength hroom => ?_, hcounted.hits, hcounted.added, hcounted.sum⟩
      obtain ⟨chunker', -, hflush⟩ := chunkStreamerFlushRetained_run hkept hroom s'
      exact ⟨_, hflush⟩
  | error e s' =>
      rw [hpass] at hspec
      -- what was not passed joins the rest
      obtain ⟨talk, chunk, todo, s₁, hchunks, hmade, hfails⟩ := hspec
      rw [bind_error hpass]
      refine ⟨talk, chunk, todo.flatten ++ restOf buffer, s₁, hmade, .of_partition ?_ ?_, hfails⟩
      · rw [hchunks] at hpartition
        simpa only [List.flatten_append, List.flatten_cons, List.flatten_nil, List.append_nil,
          List.append_assoc] using hpartition
      · intro x hx
        refine hsizes x ?_
        rw [hchunks]
        rcases List.mem_append.1 hx with hx | hx
        · exact List.mem_append_left _ hx
        · rw [List.mem_singleton.1 hx]
          exact List.mem_append_right _ List.mem_cons_self

end

/-- A checksum that tells the samples apart. -/
def sampleGen (chunk : List UInt8) : Checksum :=
  ⟨List.replicate 32 (chunk.getD 1 0), List.length_replicate⟩

theorem sampleGen_sampleChunk (b : UInt8) :
    sampleGen (sampleChunk b) = ⟨List.replicate 32 b, List.length_replicate⟩ := rfl

/-- A cache that has the sample with the byte 1 and takes no other. -/
def refusingCalls : CacheCalls :=
  ⟨fun _ checksum => pure (checksum.bytes.head? = some 1), fun _ _ _ => pure false⟩

theorem refusingCalls_hasChunk (cacheManager : CacheManager) (b : UInt8) :
    refusingCalls.hasChunk cacheManager (sampleGen (sampleChunk b)) = pure (decide (b = 1)) := by
  rw [sampleGen_sampleChunk]
  exact congrArg pure (decide_eq_decide.2 (by simp))

theorem refusingCalls_pass (streamer : ChunkStreamer) (b : UInt8) :
    refusingCalls.pass streamer (chunkRefSet sampleGen (sampleChunk b)) =
      pure (if b = 1 then streamer.countHit else streamer.countAdded) := by
  have hhas := refusingCalls_hasChunk streamer.cacheManager b
  rw [CacheCalls.pass, show (chunkRefSet sampleGen (sampleChunk b)).checksum =
    sampleGen (sampleChunk b) from rfl, hhas, pure_bind]
  by_cases hb : b = 1
  · rw [decide_eq_true hb, if_pos rfl, if_pos hb]
  · rw [decide_eq_false hb, if_neg Bool.false_ne_true, if_neg hb]
    rfl

/-- A new streamer that is given two samples and a byte: the first is a hit; the second is not found and
not taken, and counts as added. -/
theorem process_partitions_refused : ∃ streamer streamer' s' talk rest,
    chunkStreamerInit ⟨⟨[], 0⟩, 0, 0, -1, false⟩ ⟨fun _ => 0, []⟩ = .ok streamer ⟨fun _ => 0, []⟩ ∧
    refusingCalls.processBuffer sampleGen streamer (([1, 2].map sampleChunk).flatten ++ [7])
      ⟨fun _ => 0, []⟩ = .ok streamer' s' ∧
    streamer'.chunkHit = 1 ∧ streamer'.chunkAdded = 1 ∧
    refusingCalls.Made sampleGen streamer.cacheManager ⟨fun _ => 0, []⟩ talk s' ∧
    CutOff (([1, 2].map sampleChunk).flatten ++ [7]) (talk.map Prod.fst) rest ∧
    u32 (streamer'.chunkHit + streamer'.chunkAdded) =
      u32 (streamer.chunkHit + streamer.chunkAdded + talk.length) := by
  obtain ⟨streamer, hinit, hidle, -, hadded, hhit⟩ :=
    chunkStreamerInit_run ⟨⟨[], 0⟩, 0, 0, -1, false⟩ ⟨fun _ => 0, []⟩
  have hshort : [(7 : UInt8)].length < chunkerMinChunkSize := by decide
  have hchunks := (chunksOf_samples [1, 2] hshort).1
  generalize ([1, 2].map sampleChunk).flatten ++ [7] = buffer at hchunks ⊢
  have hpass : ∃ s', refusingCalls.passChunks sampleGen streamer ([1, 2].map sampleChunk)
      ⟨fun _ => 0, []⟩ = .ok streamer.countHit.countAdded s' := by
    simp only [List.map_cons, List.map_nil, CacheCalls.passChunks, refusingCalls_pass, emit_bind,
      pure_bind]
    exact ⟨_, rfl⟩
  obtain ⟨s', hpass⟩ := hpass
  obtain ⟨chunker, -, hrun⟩ := refusingCalls.processBuffer_run sampleGen hidle buffer ⟨fun _ => 0, []⟩
  rw [hchunks, bind_ok hpass, pure_run] at hrun
  have hspec := process_partitions refusingCalls sampleGen hidle buffer ⟨fun _ => 0, []⟩
  rw [hrun] at hspec
  obtain ⟨talk, rest, hmade, hcut, -, -, -, -, hsum⟩ := hspec
  refine ⟨streamer, _, _, talk, rest, hinit, hrun, ?_, ?_, hmade, hcut, hsum⟩
  · show u32 (streamer.chunkHit + 1) = 1
    rw [hhit]
    rfl
  · show u32 (streamer.chunkAdded + 1) = 1
    rw [hadded]
    rfl

end Theo
