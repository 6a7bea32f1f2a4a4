import Theo.Checksum.Message

set_option autoImplicit false

/-! # The segments of a block

`mh_sha256_single` takes each step for all segments before the next, in arrays that have the segments
side by side, and leaves the schedule in the frame buffer. `mh_sha256_block_ref` sorts the words by
segments first. To a segment it is the same (`blockBase_eq_blockRef`): its digest is compressed with its
words of each block. -/

namespace Theo

open ByteMachine MhSha256 Sha256 Segmentation

/-- The column of segment `s`. -/
def column {n : Nat} (rows : Vector (Vector (BitVec 32) 16) n) (s : Fin 16) : Vector (BitVec 32) n :=
  rows.map fun row => row.get s

@[simp]
theorem column_getElem {n : Nat} (rows : Vector (Vector (BitVec 32) 16) n) (s : Fin 16) {i : Nat}
    (hi : i < n) : (column rows s)[i] = rows[i][s] := by
  rw [column, Vector.getElem_map]
  rfl

theorem column_set {n : Nat} (rows : Vector (Vector (BitVec 32) 16) n) (s : Fin 16) {i : Nat}
    (hi : i < n) (row : Vector (BitVec 32) 16) :
    column (rows.set i row) s = (column rows s).set i row[s] := by
  rw [column, column, Vector.map_set]
  rfl

/-- Arrays with the same columns are the same. -/
theorem column_ext {n : Nat} {rows rows' : Vector (Vector (BitVec 32) 16) n}
    (h : ∀ s, column rows s = column rows' s) : rows = rows' := by
  refine Vector.ext fun i hi => Vector.ext fun s hs => ?_
  have hcol : (column rows ⟨s, hs⟩)[i] = (column rows' ⟨s, hs⟩)[i] := by rw [h]
  simpa using hcol

/-- The state of segment `s`. -/
def segVars (digests : SegsDigests) (s : Fin 16) : Vars := varsOf (column digests s)

/-- What the steps of all segments do in one of them. -/
def SegsSteps.column (st : SegsSteps) (s : Fin 16) : Steps :=
  ⟨Theo.column st.vars s, Theo.column st.w s⟩

section

variable {s : Fin 16} {ww : Nat → BitVec 32} {st : SegsSteps}

theorem segsStep_column (i : Nat) (a b c d e f g h : Fin 8) :
    SegsSteps.column (segsStep i a b c d e f g h ww st) s =
      step i a b c d e f g h (fun i => ww (i * 16 + s)) (SegsSteps.column st s) := by
  simp only [segsStep, step, SegsSteps.column, column_set, SegsSteps.Ws, Steps.W, Fin.getElem_fin,
    Vector.getElem_ofFn, Vector.getElem_set_self, column_getElem]

theorem segsSteps8_column (i : Nat) : SegsSteps.column (segsSteps8 i ww st) s =
    steps8 i (fun i => ww (i * 16 + s)) (SegsSteps.column st s) := by
  simp only [segsSteps8, steps8, segsStep_column]

theorem segsStepsTo_column (ww : Nat → BitVec 32) (st : SegsSteps) (s : Fin 16) (n : Nat) :
    SegsSteps.column (segsStepsTo ww st n) s = stepsTo (fun i => ww (i * 16 + s)) (SegsSteps.column st s) n := by
  induction n with
  | zero => rfl
  | succ n ih => rw [segsStepsTo, segsSteps8_column, ih, stepsTo]

/-- A block is compressed in each segment. -/
theorem mhSha256Single_segVars (input : List UInt8) (digests : SegsDigests)
    (frameBuffer : FrameBuffer) (s : Fin 16) :
    segVars (mhSha256Single input digests frameBuffer).1 s =
      compress (lane s (wordAt (input.take 1024))) (segVars digests s) := by
  have hcolumn : ∀ i, (hi : i < 8) → (column (mhSha256Single input digests frameBuffer).1 s)[i] =
      (column digests s)[i] +
        (stepsTo (fun i => words input (i * 16 + s)) ⟨column digests s, column frameBuffer s⟩ 8).vars[i] := by
    intro i hi
    have hvars := congrArg (fun st => st.vars[i])
      (segsStepsTo_column (words input) ⟨digests, frameBuffer⟩ s 8)
    simp only [SegsSteps.column, column_getElem, Fin.getElem_fin] at hvars
    simp only [mhSha256Single, column_getElem, Vector.getElem_ofFn, Fin.getElem_fin, hvars]
  rw [segVars, stepsTo_compress hcolumn, segVars]
  refine compress_congr (fun i hi => ?_) _
  have hs := s.isLt
  rw [blockOf, toBe32_words, lane, wordAt_take (by omega), Nat.mul_comm]

/-! ## Block functions -/

/-- What a block function has to do: to put the blocks on the digest of each segment. There are at most
as many blocks as a `uint32_t` has offsets for. -/
def Absorbs (block : BlockFunction) : Prop :=
  ∀ input digests frameBuffer n s, 1024 * n ≤ input.length → n ≤ 2 ^ 22 →
    segVars (block input digests frameBuffer n).1 s =
      absorbLane s (segVars digests s) (input.take (1024 * n))

theorem blockBase_absorbs : Absorbs mhSha256BlockBase := by
  intro input digests frameBuffer n s hlen hn
  induction n generalizing input digests frameBuffer with
  | zero =>
      rw [Nat.mul_zero, List.take_zero, absorbLane_short (by decide)]
      rfl
  | succ n ih =>
      have hrest : 1024 * n ≤ (input.drop 1024).length := by
        rw [List.length_drop]
        omega
      rw [absorbLane_succ hlen, mhSha256BlockBase, ih _ _ _ hrest (Nat.le_of_succ_le hn),
        mhSha256Single_segVars]

theorem transformInput_segment {input : List UInt8} {i : Nat} (hi : i < 2 ^ 22) {s : Fin 16}
    {row : Vector (BitVec 32) 16} (hrow : (transformInput (words input) i).get s = row)
    (digest : Vector (BitVec 32) 8) :
    varsOf (sha256SingleForMhSha256 (fun j => row.toList.getD j 0) digest) =
      compress (lane s (wordAt ((input.drop (1024 * i)).take 1024))) (varsOf digest) := by
  rw [sha256Single_compress]
  refine compress_congr (fun j hj => ?_) _
  have hs := s.isLt
  have hfour : 1024 * i = 4 * (256 * i) := by omega
  -- the offset does not wrap
  have hindex : i * 1024 % 2 ^ 32 / 4 + (16 * j + s) = 256 * i + (16 * j + s) := by omega
  have hget : row.toList.getD j 0 = words input (i * 1024 % 2 ^ 32 / 4 + (16 * j + s)) := by
    rw [← hrow]
    show (transformInput (words input) i)[(s : Nat)].toList.getD j 0 = _
    simp [transformInput, hj]
  rw [blockOf, hget, toBe32_words, lane, wordAt_take (by omega), hfour, wordAt_drop, hindex]

/-- The loop over the blocks, from block `i` on. -/
theorem blockRefLoop_absorbs {input : List UInt8} (n : Nat) {i : Nat} (tempBuffer : FrameBuffer)
    (transDigests : Vector (Vector (BitVec 32) 8) 16) (s : Fin 16)
    (hlen : 1024 * n ≤ (input.drop (1024 * i)).length) (hn : i + n ≤ 2 ^ 22) :
    varsOf (blockRefLoop (words input) i tempBuffer transDigests n).2[s] =
      absorbLane s (varsOf transDigests[s]) ((input.drop (1024 * i)).take (1024 * n)) := by
  induction n generalizing i tempBuffer transDigests with
  | zero =>
      rw [Nat.mul_zero, List.take_zero, absorbLane_short (by decide)]
      rfl
  | succ n ih =>
      have hrest : 1024 * n ≤ (input.drop (1024 * (i + 1))).length := by
        rw [List.length_drop] at hlen ⊢
        omega
      rw [absorbLane_succ hlen, blockRefLoop, ih _ _ hrest (by omega), List.drop_drop,
        ← Nat.mul_succ, ← transformInput_segment (by omega) rfl]
      simp [sha256UpdateAllSegs, Vector.get]

theorem blockRef_absorbs : Absorbs mhSha256BlockRef := by
  intro input digests frameBuffer n s hlen hn
  have hloop := blockRefLoop_absorbs n (i := 0) frameBuffer
    (Vector.ofFn fun j => Vector.ofFn fun i => digests[i][j]) s hlen (by omega)
  have hstart : (Vector.ofFn fun j => Vector.ofFn fun i => digests[i][j])[s] = column digests s := by
    refine Vector.ext fun i hi => ?_
    simp
  rw [hstart, Nat.mul_zero, List.drop_zero, ← segVars] at hloop
  rw [← hloop, segVars, mhSha256BlockRef]
  congr 1
  refine Vector.ext fun i hi => ?_
  simp

end

/-- The base version of the block function and the reference do the same with the digests, however the
reference sorts the words, and whatever is in the working areas. There are at most 4 GiB of blocks. -/
theorem blockBase_eq_blockRef (inputData : List UInt8) (digests : SegsDigests)
    (frameBuffer frameBuffer' : FrameBuffer) (numBlocks : Nat)
    (h : 1024 * numBlocks ≤ inputData.length) (hnumBlocks : numBlocks ≤ 2 ^ 22) :
    (mhSha256BlockBase inputData digests frameBuffer numBlocks).1 =
      (mhSha256BlockRef inputData digests frameBuffer' numBlocks).1 := by
  refine column_ext fun s => varsOf_injective ?_
  rw [← segVars, ← segVars, blockBase_absorbs _ _ _ _ s h hnumBlocks,
    blockRef_absorbs _ _ _ _ s h hnumBlocks]

theorem blockBase_eq_blockRef_two : ∃ inputData : List UInt8, inputData.length = 2048 ∧
    (mhSha256BlockBase inputData mhSha256SegsInit mhSha256Init.frameBuffer 2).1 =
      (mhSha256BlockRef inputData mhSha256SegsInit mhSha256Init.frameBuffer 2).1 :=
  ⟨List.replicate 2048 7, List.length_replicate,
    blockBase_eq_blockRef _ _ _ _ 2 (Nat.le_of_eq List.length_replicate.symm) (by decide)⟩

end Theo
