import Theo.Checksum.Segments

set_option autoImplicit false

/-! # Updates

Data comes in pieces. The context keeps the digests of the segments behind all whole blocks, and what is
left of the data in its buffer (`Absorbed`), so that the pieces make no difference. `finalize` puts the
padding behind it. -/

namespace Theo

open ByteMachine MhSha256 Sha256 Segmentation

/-- What is in a context behind the bytes of `message`. -/
structure Absorbed (ctx : MhSha256Ctx) (message : List UInt8) : Prop where
  digests : ∀ s, segVars ctx.mhSha256InterimDigests s = absorbLane s initial message
  size : ctx.partialBlockBuffer.length = 2048
  rest : ctx.partialBlockBuffer.take (message.length % 1024) = remainder 1024 message

theorem copyTo_size {buffer bytes : List UInt8} {offset : Nat}
    (h : offset + bytes.length ≤ buffer.length) :
    (copyTo buffer offset bytes).length = buffer.length := by
  simp only [copyTo, List.length_append, List.length_take, List.length_drop]
  omega

theorem copyTo_take {buffer bytes : List UInt8} {offset : Nat} (h : offset ≤ buffer.length) :
    (copyTo buffer offset bytes).take (offset + bytes.length) = buffer.take offset ++ bytes := by
  have hlen : (buffer.take offset ++ bytes).length = offset + bytes.length := by
    rw [List.length_append, List.length_take, Nat.min_eq_left h]
  rw [copyTo, List.take_left' hlen]

section

variable {block : BlockFunction} {ctx : MhSha256Ctx} {message buffer : List UInt8}

/-! ## Blocks -/

@[simp]
theorem block_totalLength (input : List UInt8) (n : Nat) :
    (ctx.block block input n).totalLength = ctx.totalLength := rfl

@[simp]
theorem block_partialBlockBuffer (input : List UInt8) (n : Nat) :
    (ctx.block block input n).partialBlockBuffer = ctx.partialBlockBuffer := rfl

theorem block_segVars (hblock : Absorbs block) {input : List UInt8} {n : Nat}
    (h : 1024 * n ≤ input.length) (hn : n ≤ 2 ^ 22) (s : Fin 16) :
    segVars (ctx.block block input n).mhSha256InterimDigests s =
      absorbLane s (segVars ctx.mhSha256InterimDigests s) (input.take (1024 * n)) :=
  hblock _ _ _ _ s h hn

/-- The context behind a message that ends with a block. -/
theorem Absorbed.whole {m : List UInt8} (hdigests : ∀ s, segVars ctx.mhSha256InterimDigests s =
    absorbLane s initial m) (hsize : ctx.partialBlockBuffer.length = 2048)
    (hm : m.length % 1024 = 0) : Absorbed ctx m where
  digests := hdigests
  size := hsize
  rest := by
    rw [hm, List.take_zero]
    exact (List.eq_nil_of_length_eq_zero (remainder_length.trans hm)).symm

/-! ## The pieces of an update -/

/-- There is no block yet. -/
theorem Absorbed.keep (h : Absorbed ctx message)
    (hshort : message.length % 1024 + buffer.length < 1024) :
    Absorbed { ctx with
      partialBlockBuffer := copyTo ctx.partialBlockBuffer (message.length % 1024) buffer }
      (message ++ buffer) where
  digests := by
    intro s
    have hlt : (remainder 1024 message ++ buffer).length < 1024 := by
      rwa [List.length_append, remainder_length]
    rw [h.digests, absorbLane_append, absorbLane_short hlt]
  size := by
    rw [copyTo_size, h.size]
    rw [h.size]
    omega
  rest := by
    have hlt : (remainder 1024 message ++ buffer).length < 1024 := by
      rwa [List.length_append, remainder_length]
    have hmod : (message ++ buffer).length % 1024 = message.length % 1024 + buffer.length := by
      rw [List.length_append]
      omega
    have hfits : message.length % 1024 ≤ ctx.partialBlockBuffer.length := by
      rw [h.size]
      omega
    rw [hmod, copyTo_take hfits, h.rest, remainder_append, remainder_short hlt]

/-- The block that was begun is filled up. -/
theorem Absorbed.fill (hblock : Absorbs block) (h : Absorbed ctx message)
    (hfull : 1024 ≤ message.length % 1024 + buffer.length) :
    ∃ front rest, buffer = front ++ rest ∧ (message ++ front).length % 1024 = 0 ∧
      (mhSha256Fill block ctx (message.length % 1024) buffer).2 = rest ∧
      (mhSha256Fill block ctx (message.length % 1024) buffer).1.totalLength = ctx.totalLength ∧
      Absorbed (mhSha256Fill block ctx (message.length % 1024) buffer).1 (message ++ front) := by
  by_cases hzero : message.length % 1024 = 0
  · refine ⟨[], buffer, rfl, by rwa [List.append_nil], ?_⟩
    rw [mhSha256Fill, if_neg (not_not.2 hzero), List.append_nil]
    exact ⟨rfl, rfl, h⟩
  · generalize hp : message.length % 1024 = p at *
    have hfront : (buffer.take (1024 - p)).length = 1024 - p := by
      rw [List.length_take]
      omega
    have hfits : p ≤ ctx.partialBlockBuffer.length := by
      rw [h.size]
      omega
    have hsize : (copyTo ctx.partialBlockBuffer p (buffer.take (1024 - p))).length = 2048 := by
      rw [copyTo_size, h.size]
      rw [hfront, h.size]
      omega
    have htake : (copyTo ctx.partialBlockBuffer p (buffer.take (1024 - p))).take 1024 =
        remainder 1024 message ++ buffer.take (1024 - p) := by
      rw [← h.rest, hp, ← copyTo_take hfits, hfront]
      congr 1
      omega
    have hmod : (message ++ buffer.take (1024 - p)).length % 1024 = 0 := by
      rw [List.length_append, hfront]
      omega
    refine ⟨buffer.take (1024 - p), buffer.drop (1024 - p), (List.take_append_drop _ _).symm, hmod, ?_⟩
    rw [mhSha256Fill, if_pos hzero]
    refine ⟨rfl, rfl, Absorbed.whole (fun s => ?_) ?_ hmod⟩
    · have hone : 1024 * 1 ≤ (copyTo ctx.partialBlockBuffer p (buffer.take (1024 - p))).length := by
        rw [hsize]
        decide
      have hput : segVars (ctx.block block (copyTo ctx.partialBlockBuffer p (buffer.take (1024 - p)))
          1).mhSha256InterimDigests s = _ := block_segVars hblock hone (by decide) s
      rw [Nat.mul_one, htake, h.digests] at hput
      rw [absorbLane_append]
      exact hput
    · show (copyTo _ 0 _).length = 2048
      rw [copyTo_size]
      · exact hsize
      · rw [List.length_replicate]
        show 0 + 1024 ≤ (copyTo _ p _).length
        rw [hsize]
        decide

/-- The calls for whole blocks, and what is kept of the rest. -/
def storeBlocks (block : BlockFunction) (ctx : MhSha256Ctx) (input : List UInt8) : MhSha256Ctx :=
  let numBlocks := input.length / 1024
  let ctx := if 0 < numBlocks then ctx.block block input numBlocks else ctx
  let input := input.drop (numBlocks * 1024)
  if input.length ≠ 0 then
    { ctx with partialBlockBuffer := copyTo ctx.partialBlockBuffer 0 input }
  else ctx

theorem storeBlocks_totalLength (input : List UInt8) :
    (storeBlocks block ctx input).totalLength = ctx.totalLength := by
  simp only [storeBlocks]
  split <;> split <;> rfl

theorem Absorbed.store (hblock : Absorbs block) (h : Absorbed ctx message)
    (hwhole : message.length % 1024 = 0) {input : List UInt8} (hinput : input.length < 2 ^ 32) :
    Absorbed (storeBlocks block ctx input) (message ++ input) := by
  have hrem : remainder 1024 message = [] :=
    List.eq_nil_of_length_eq_zero (remainder_length.trans hwhole)
  have hdrop : input.drop (input.length / 1024 * 1024) = remainder 1024 input := by
    rw [remainder_eq_drop, Nat.mul_comm]
  have hmod : (message ++ input).length % 1024 = (remainder 1024 input).length := by
    rw [remainder_length, List.length_append]
    omega
  have hshort : (remainder 1024 input).length < 1024 := remainder_lt
  have hdigests : ∀ s, segVars (if 0 < input.length / 1024 then
        ctx.block block input (input.length / 1024) else ctx).mhSha256InterimDigests s =
      absorbLane s initial (message ++ input) := by
    intro s
    rw [absorbLane_append, hrem, List.nil_append, ← h.digests]
    split
    · rw [block_segVars hblock (Nat.mul_div_le _ _) (by omega), absorbLane_take]
    · rw [absorbLane_short (by omega)]
  have hbuffer : (if 0 < input.length / 1024 then
        ctx.block block input (input.length / 1024) else ctx).partialBlockBuffer =
      ctx.partialBlockBuffer := by
    split <;> rfl
  simp only [storeBlocks, hdrop]
  split
  · refine ⟨hdigests, ?_, ?_⟩
    · show (copyTo _ 0 _).length = 2048
      rw [hbuffer, copyTo_size, h.size]
      rw [h.size]
      omega
    · show (copyTo _ 0 _).take _ = _
      rw [hbuffer, hmod, remainder_append, hrem, List.nil_append,
        ← Nat.zero_add (remainder 1024 input).length, copyTo_take (Nat.zero_le _)]
      rfl
  · next hnil =>
      refine Absorbed.whole hdigests (hbuffer ▸ h.size) ?_
      rw [hmod]
      exact not_not.1 hnil

/-! ## Updates -/

theorem Absorbed.update (hblock : Absorbs block) (h : Absorbed ctx message)
    (htotal : ctx.totalLength = message.length % 2 ^ 64) (hbuffer : buffer.length < 2 ^ 32) :
    Absorbed (mhSha256Update block ctx buffer) (message ++ buffer) ∧
      (mhSha256Update block ctx buffer).totalLength = (message ++ buffer).length % 2 ^ 64 := by
  have hlen : (ctx.totalLength + buffer.length) % 2 ^ 64 = (message ++ buffer).length % 2 ^ 64 := by
    rw [htotal, List.length_append]
    omega
  have hp : ctx.totalLength % 1024 = message.length % 1024 := by
    rw [htotal]
    omega
  rw [mhSha256Update]
  split
  · next hnil =>
      rw [List.eq_nil_of_length_eq_zero hnil, List.append_nil]
      exact ⟨h, htotal⟩
  · have hcount : Absorbed { ctx with totalLength := (ctx.totalLength + buffer.length) % 2 ^ 64 }
        message := ⟨h.digests, h.size, h.rest⟩
    simp only [hp]
    split
    · next hshort => exact ⟨hcount.keep (by omega), hlen⟩
    · next hfull =>
        have hroom : 1024 ≤ message.length % 1024 + buffer.length := by omega
        obtain ⟨front, rest, hsplit, hwhole, hleft, hsame, hfill⟩ := hcount.fill hblock hroom
        have hrest : rest.length < 2 ^ 32 := by
          rw [hsplit, List.length_append] at hbuffer
          omega
        have hstore := hfill.store hblock hwhole hrest
        rw [List.append_assoc, ← hsplit] at hstore
        simp only [hleft]
        exact ⟨hstore, (storeBlocks_totalLength rest).trans (hsame.trans hlen)⟩

end

end Theo
