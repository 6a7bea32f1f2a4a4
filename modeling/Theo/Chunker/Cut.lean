import Theo.Chunker.Window
import Theo.Model.Chunker

set_option autoImplicit false

/-! # Where a chunker cuts

What `chunker_chunk_buffer` returns is decided by the bytes of the buffer alone: `cutOf buffer` is the
size of the first chunk, or `none` if the chunker waits for more. Nothing that a chunker has seen
before makes a difference. -/

namespace Theo

open ByteMachine RollingHash

/-- A chunker that `chunker_init` prepared. -/
def Chunker.Ready (chunker : Chunker) : Prop := chunker.rhState2.Ready chunkerWindowWidth

/-- The bytes that the search of a chunker is fed: the window in front of the minimum size, and then
the buffer from its start on. -/
def fedBytes (buffer : List UInt8) : List UInt8 :=
  (buffer.drop (chunkerMinChunkSize - chunkerWindowWidth)).take chunkerWindowWidth ++ buffer

/-- The window that ends `o` bytes into the search meets the trigger. -/
def fedHit (buffer : List UInt8) (o : Nat) : Bool :=
  windowHit chunkerMask chunkerTrigger (fedBytes buffer) chunkerWindowWidth o

/-- The number of bytes that are searched. -/
def searchLength (buffer : List UInt8) : Nat :=
  min buffer.length chunkerMaxChunkSize - chunkerMinChunkSize

theorem chunkerMinChunkSize_eq : chunkerMinChunkSize = 2048 := rfl

theorem chunkerMaxChunkSize_eq : chunkerMaxChunkSize = 24576 := rfl

theorem chunkerWindowWidth_eq : chunkerWindowWidth = 32 := rfl

/-- The size of the first chunk of a buffer, if hits are those of `hit`. -/
def cutAt (hit : Nat → Bool) (buffer : List UInt8) : Option Nat :=
  (firstHit hit (searchLength buffer)).elim
    (if chunkerMaxChunkSize ≤ buffer.length then some chunkerMaxChunkSize else none)
    fun o => some (chunkerMinChunkSize + o)

/-- The size of the first chunk of a buffer. -/
def cutOf (buffer : List UInt8) : Option Nat := cutAt (fedHit buffer) buffer

section

variable {checksumGen : List UInt8 → Checksum} {chunker : Chunker} {buffer : List UInt8} {n : Nat}
  {s : Store}

theorem chunkerInit_run (s : Store) : ∃ chunker, chunkerInit s = .ok chunker s ∧ chunker.Ready ∧
    chunker.retainedSize = 0 := by
  obtain ⟨hret, hready⟩ := rollingHash2Init_ready (w := chunkerWindowWidth) rhState2Zero (by decide)
  refine ⟨⟨(rollingHash2Init rhState2Zero chunkerWindowWidth).2,
    List.replicate chunkerMaxChunkSize 0, 0⟩, ?_, hready, rfl⟩
  rw [chunkerInit]
  exact check_bind_true _ (decide_eq_true hret) _ _

/-- A chunk is longer than the minimum, at most of the maximum size, and lies in the buffer. -/
theorem cutOf_bounds (h : cutOf buffer = some n) :
    2049 ≤ n ∧ n ≤ 24576 ∧ n ≤ buffer.length := by
  rw [cutOf, cutAt] at h
  cases hfirst : firstHit (fedHit buffer) (searchLength buffer) with
  | some o =>
      rw [hfirst, Option.elim_some, Option.some.injEq] at h
      obtain ⟨-, hlo, hhi, -⟩ := firstHit_eq_some.1 hfirst
      rw [searchLength, chunkerMinChunkSize_eq, chunkerMaxChunkSize_eq] at hhi
      rw [chunkerMinChunkSize_eq] at h
      omega
  | none =>
      rw [hfirst, Option.elim_none] at h
      simp only [Option.ite_none_right_eq_some, Option.some.injEq] at h
      obtain ⟨hmax, rfl⟩ := h
      rw [chunkerMaxChunkSize_eq] at hmax ⊢
      omega

/-- A buffer that is too short for a search is not cut. -/
theorem cutOf_short (h : buffer.length < chunkerMinChunkSize) : cutOf buffer = none := by
  have hzero : searchLength buffer = 0 := by
    rw [searchLength]
    omega
  have hmax : ¬ chunkerMaxChunkSize ≤ buffer.length := by
    rw [chunkerMaxChunkSize_eq]
    rw [chunkerMinChunkSize_eq] at h
    omega
  rw [cutOf, cutAt, hzero, if_neg hmax]
  rfl

/-- A stashed buffer is retained whole. -/
theorem stash_retained (chunker : Chunker) (buffer : List UInt8) :
    (chunker.stash buffer).retained.take (chunker.stash buffer).retainedSize = buffer :=
  List.take_left' rfl

/-- What `chunker_chunk_buffer` does: it cuts the first chunk off, or retains the buffer. -/
theorem chunkerChunkBuffer_run (checksumGen : List UInt8 → Checksum) (h : chunker.Ready)
    (hempty : chunker.retainedSize = 0) (buffer : List UInt8) (s : Store) : ∃ chunker',
      chunkerChunkBuffer checksumGen chunker buffer s =
        .ok ((cutOf buffer).map fun n => chunkRefSet checksumGen (buffer.take n), chunker') s ∧
      chunker'.Ready ∧
      (cutOf buffer ≠ none → chunker'.retainedSize = 0) ∧
      (cutOf buffer = none → chunker'.retainedSize = buffer.length ∧
        chunker'.retained.take chunker'.retainedSize = buffer) := by
  rw [chunkerChunkBuffer, always, check_bind_true _ (decide_eq_true hempty)]
  by_cases hshort : buffer.length < chunkerMinChunkSize
  · rw [if_pos hshort, cutOf_short hshort]
    exact ⟨_, rfl, h, fun hne => absurd rfl hne, fun _ => ⟨rfl, stash_retained chunker buffer⟩⟩
  rw [if_neg hshort]
  have hmin : chunkerWindowWidth ≤
      (buffer.drop (chunkerMinChunkSize - chunkerWindowWidth)).length := by
    rw [List.length_drop, chunkerWindowWidth_eq, chunkerMinChunkSize_eq]
    rw [chunkerMinChunkSize_eq] at hshort
    omega
  -- the window is primed in front of the minimum, and then fed from the start of the buffer
  obtain ⟨hready, hhistory, htake, hhash⟩ := rollingHash2Reset_spec h hmin
  generalize rollingHash2Reset chunker.rhState2
    (buffer.drop (chunkerMinChunkSize - chunkerWindowWidth)) = start at hready hhistory htake hhash
  have hfed : start.fed buffer = fedBytes buffer := by
    rw [RhState2.fed, hready.w_eq, htake, fedBytes]
  have hlen : (if chunkerMaxChunkSize ≤ buffer.length then chunkerMaxChunkSize - chunkerMinChunkSize
      else buffer.length - chunkerMinChunkSize) = searchLength buffer := by
    rw [searchLength]
    split
    · rw [Nat.min_eq_right (by omega)]
    · rw [Nat.min_eq_left (by omega)]
  have hrange : searchLength buffer ≤ buffer.length := by
    rw [searchLength]
    omega
  obtain ⟨hfinds, hready'⟩ := rollingHash2Run_finds chunkerMask chunkerTrigger hready (by decide)
    (by decide) hhistory hrange (by rw [hhash, htake])
  rw [hfed, show windowHit chunkerMask chunkerTrigger (fedBytes buffer) chunkerWindowWidth =
    fedHit buffer from rfl] at hfinds
  simp only [hlen]
  generalize rollingHash2Run start buffer (searchLength buffer) chunkerMask chunkerTrigger = run
    at hfinds hready'
  rcases hfinds with ⟨hret, hfirst⟩ | ⟨hret, hnone, -⟩
  · have hcut : cutOf buffer = some (chunkerMinChunkSize + run.offset) := by
      rw [cutOf, cutAt, hfirst, Option.elim_some]
    rw [if_pos hret, hcut]
    exact ⟨_, rfl, hready', fun _ => hempty, fun hnone => absurd hnone (Option.some_ne_none _)⟩
  · rw [if_neg (by rw [hret]; decide)]
    -- no window hits: a cut at the maximum, or the whole buffer is stashed
    by_cases hmax : chunkerMaxChunkSize ≤ buffer.length
    · have hcut : cutOf buffer = some chunkerMaxChunkSize := by
        rw [cutOf, cutAt, hnone, Option.elim_none, if_pos hmax]
      rw [if_pos (by rw [searchLength, Nat.min_eq_right hmax]), hcut]
      exact ⟨_, rfl, hready', fun _ => hempty, fun hnone => absurd hnone (Option.some_ne_none _)⟩
    · have hcut : cutOf buffer = none := by
        rw [cutOf, cutAt, hnone, Option.elim_none, if_neg hmax]
      rw [if_neg (by rw [searchLength]; omega), hcut]
      exact ⟨_, rfl, hready', fun hne => absurd rfl hne, fun _ => ⟨rfl, stash_retained _ buffer⟩⟩

end

/-! ## Samples -/

/-- A chunk of 2049 bytes, the second of which is `b`. -/
def sampleChunk (b : UInt8) : List UInt8 := 0 :: b :: (List.replicate 2044 0 ++ [70, 113, 0])

theorem sampleChunk_length (b : UInt8) : (sampleChunk b).length = 2049 := by
  rw [sampleChunk, List.length_cons, List.length_cons, List.length_append, List.length_replicate]
  rfl

theorem sampleChunk_inj {b b' : UInt8} : sampleChunk b = sampleChunk b' ↔ b = b' := by
  rw [sampleChunk, sampleChunk, List.cons.injEq, List.cons.injEq]
  exact ⟨fun h => h.2.1, fun h => ⟨rfl, h, rfl⟩⟩

theorem searchLength_sampleChunk (b : UInt8) : searchLength (sampleChunk b) = 1 := by
  rw [searchLength, sampleChunk_length]
  decide

/-- The window that the search is at first is the one at the end of the sample. -/
theorem fedHit_sampleChunk (b : UInt8) : fedHit (sampleChunk b) 1 = true := by
  have hend : ((List.replicate 2044 (0 : UInt8) ++ [70, 113, 0]).drop 2014).take 32 =
      List.replicate 30 0 ++ [70, 113] := by decide +kernel
  have hfront : ((sampleChunk b).drop (chunkerMinChunkSize - chunkerWindowWidth)).take
      chunkerWindowWidth = List.replicate 30 0 ++ [70, 113] := by
    rw [show chunkerMinChunkSize - chunkerWindowWidth = 2014 + 1 + 1 from rfl, sampleChunk,
      List.drop_succ_cons, List.drop_succ_cons]
    exact hend
  have hwindow : window (fedBytes (sampleChunk b)) chunkerWindowWidth 1 =
      List.replicate 29 0 ++ [70, 113, 0] := by
    rw [window, fedBytes, hfront]
    rfl
  rw [fedHit, windowHit, hwindow]
  decide +kernel

theorem cutOf_sampleChunk (b : UInt8) : cutOf (sampleChunk b) = some 2049 := by
  have hfirst : firstHit (fedHit (sampleChunk b)) (searchLength (sampleChunk b)) = some 1 := by
    rw [searchLength_sampleChunk]
    exact firstHit_eq_some.2
      ⟨fedHit_sampleChunk b, Nat.le_refl 1, Nat.le_refl 1, fun j hlo hhi => absurd hhi (by omega)⟩
  rw [cutOf, cutAt, hfirst, Option.elim_some]
  rfl

end Theo
