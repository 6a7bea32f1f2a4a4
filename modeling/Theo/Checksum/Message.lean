import Theo.Checksum.Compress

set_option autoImplicit false

/-! # The hash of a message

`sha256_for_mh_sha256` reads the words of its input in the order of the machine and turns them around,
and puts the padding together in a buffer for two blocks. What comes out is the hash of the message
(`sha256For_digest`). -/

namespace Theo

open ByteMachine MhSha256 Sha256 Segmentation

/-! ## Bytes -/

theorem toBe32_ofBytes {b₀ b₁ b₂ b₃ : Nat} (h₀ : b₀ < 2 ^ 8) (h₁ : b₁ < 2 ^ 8) (h₂ : b₂ < 2 ^ 8)
    (h₃ : b₃ < 2 ^ 8) :
    toBe32 (BitVec.ofNat 32 (b₀ + b₁ * 2 ^ 8 + b₂ * 2 ^ 16 + b₃ * 2 ^ 24)) =
      BitVec.ofNat 32 (b₀ * 2 ^ 24 + b₁ * 2 ^ 16 + b₂ * 2 ^ 8 + b₃) := by
  have hlt : b₀ + b₁ * 2 ^ 8 + b₂ * 2 ^ 16 + b₃ * 2 ^ 24 < 2 ^ 32 := by omega
  rw [toBe32, BitVec.toNat_ofNat, Nat.mod_eq_of_lt hlt]
  exact congrArg (BitVec.ofNat 32) (by omega)

/-- A word that is turned around is the word of the message. -/
theorem toBe32_words (bytes : List UInt8) (i : Nat) : toBe32 (words bytes i) = wordAt bytes i := by
  rw [words, toBe32_ofBytes, wordAt] <;> exact UInt8.toNat_lt _

theorem bytes32_ofBytes {b₀ b₁ b₂ b₃ : Nat} (h₁ : b₁ < 2 ^ 8) (h₂ : b₂ < 2 ^ 8)
    (h₃ : b₃ < 2 ^ 8) : Mem.bytes32 (b₀ * 2 ^ 24 + b₁ * 2 ^ 16 + b₂ * 2 ^ 8 + b₃) =
      [UInt8.ofNat b₃, UInt8.ofNat b₂, UInt8.ofNat b₁, UInt8.ofNat b₀] := by
  generalize hv : b₀ * 2 ^ 24 + b₁ * 2 ^ 16 + b₂ * 2 ^ 8 + b₃ = v
  have hv₃ : v % 2 ^ 8 = b₃ % 2 ^ 8 := by omega
  have hv₂ : v / 2 ^ 8 % 2 ^ 8 = b₂ % 2 ^ 8 := by omega
  have hv₁ : v / 2 ^ 16 % 2 ^ 8 = b₁ % 2 ^ 8 := by omega
  have hv₀ : v / 2 ^ 24 % 2 ^ 8 = b₀ % 2 ^ 8 := by omega
  rw [Mem.bytes32, Mem.byte_congr hv₃, Mem.byte_congr hv₂, Mem.byte_congr hv₁, Mem.byte_congr hv₀]

theorem bytes32_toBe32 (v : Nat) : Mem.bytes32 (toBe32 (BitVec.ofNat 32 v)).toNat =
    (Mem.bytes32 v).reverse := by
  have hv : BitVec.ofNat 32 v = BitVec.ofNat 32 (v % 2 ^ 8 + v / 2 ^ 8 % 2 ^ 8 * 2 ^ 8 +
      v / 2 ^ 16 % 2 ^ 8 * 2 ^ 16 + v / 2 ^ 24 % 2 ^ 8 * 2 ^ 24) := by
    apply BitVec.eq_of_toNat_eq
    rw [BitVec.toNat_ofNat, BitVec.toNat_ofNat]
    omega
  rw [hv, toBe32_ofBytes (by omega) (by omega) (by omega) (by omega), BitVec.toNat_ofNat,
    Mem.bytes32_congr (Nat.mod_mod _ _),
    bytes32_ofBytes (by omega) (by omega) (by omega), Mem.bytes32,
    Mem.byte_congr (Nat.mod_mod v _), Mem.byte_congr (Nat.mod_mod (v / 2 ^ 8) _),
    Mem.byte_congr (Nat.mod_mod (v / 2 ^ 16) _), Mem.byte_congr (Nat.mod_mod (v / 2 ^ 24) _)]
  rfl

/-- A length that is turned around has its highest byte first in memory. -/
theorem bytes64_toBe64 (v : Nat) : Mem.bytes64 (toBe64 v) = lengthBytes v := by
  have hlo : toBe64 v % 2 ^ 32 = (toBe32 (BitVec.ofNat 32 (v / 2 ^ 32))).toNat % 2 ^ 32 := by
    rw [toBe64]
    omega
  have hhi : toBe64 v / 2 ^ 32 = (toBe32 (BitVec.ofNat 32 v)).toNat := by
    have hlt := (toBe32 (BitVec.ofNat 32 (v / 2 ^ 32))).isLt
    rw [toBe64]
    omega
  have hrange : List.range 8 = [0, 1, 2, 3, 4, 5, 6, 7] := rfl
  rw [Mem.bytes64, hhi, Mem.bytes32_congr hlo, bytes32_toBe32, bytes32_toBe32, lengthBytes, hrange]
  simp [Mem.bytes32, Nat.div_div_eq_div_mul]

/-! ## Buffers -/

/-- What is copied over `b`. -/
theorem copyTo_append {a b : List UInt8} (c : List UInt8) {bytes : List UInt8} {offset : Nat}
    (hoffset : a.length = offset)
    (hlen : b.length = bytes.length) : copyTo (a ++ (b ++ c)) offset bytes = a ++ bytes ++ c := by
  rw [copyTo, List.take_left' hoffset, ← hlen, ← List.drop_drop, List.drop_left' hoffset,
    List.drop_left' rfl]

/-- The mark behind the bytes in front of a buffer, and zeroes up to `n`. -/
theorem copyTo_mark (buffer : List UInt8) {k n : Nat} (hk : k < n) (hn : n ≤ buffer.length) :
    copyTo (copyTo buffer k [0x80]) (k + 1) (List.replicate (n - (k + 1)) 0) =
      (buffer.take k ++ 0x80 :: List.replicate (n - (k + 1)) 0) ++ buffer.drop n := by
  have hlen : (buffer.take k).length = k := by
    rw [List.length_take]
    omega
  have htake : (copyTo buffer k [0x80]).take (k + 1) = buffer.take k ++ [0x80] := by
    rw [copyTo, List.take_left' (by simp [hlen])]
  have hdrop : (copyTo buffer k [0x80]).drop n = buffer.drop n := by
    have hfront : (buffer.take k ++ [0x80]).length ≤ n := by
      rw [List.length_append, hlen]
      exact hk
    rw [copyTo, List.drop_append, List.drop_of_length_le hfront, List.nil_append, List.drop_drop]
    congr 1
    simp [hlen]
    omega
  rw [copyTo, htake, List.length_replicate, Nat.add_sub_cancel' (by omega), hdrop,
    List.append_assoc (buffer.take k)]
  rfl

/-- The length over the zeroes, so that it ends at `n`. -/
theorem copyTo_length {rest c len : List UInt8} {n m : Nat} (hlen : len.length = 8)
    (hn : rest.length + 9 ≤ n) (hm : n ≤ m) :
    copyTo ((rest ++ 0x80 :: List.replicate (m - (rest.length + 1)) 0) ++ c) (n - 8) len =
      (rest ++ (0x80 :: List.replicate (n - (rest.length + 9)) 0 ++ len)) ++
        (List.replicate (m - n) 0 ++ c) := by
  have hzeroes : m - (rest.length + 1) = n - (rest.length + 9) + (8 + (m - n)) := by omega
  have hoffset : (rest ++ 0x80 :: List.replicate (n - (rest.length + 9)) (0 : UInt8)).length = n - 8 := by
    rw [List.length_append, List.length_cons, List.length_replicate]
    omega
  have hover : (List.replicate 8 (0 : UInt8)).length = len.length := by
    rw [List.length_replicate, hlen]
  have hcopy := copyTo_append (c := List.replicate (m - n) 0 ++ c) hoffset hover
  rw [hzeroes, List.replicate_add, List.replicate_add]
  simpa using hcopy

/-- The length at the end of the second block. -/
theorem copyTo_second {rest c len : List UInt8} (hlen : len.length = 8) (hc : c.length = 8)
    (hrest : rest.length < 64) :
    copyTo ((rest ++ 0x80 :: List.replicate (120 - (rest.length + 1)) 0) ++ c) (128 - 8) len =
      (rest ++ 0x80 :: List.replicate (64 - (rest.length + 1)) 0) ++
        (List.replicate (64 - 8) 0 ++ len) := by
  have hzeroes : 120 - (rest.length + 1) = 64 - (rest.length + 1) + (64 - 8) := by omega
  have hoffset : (rest ++ 0x80 :: List.replicate (120 - (rest.length + 1)) (0 : UInt8)).length =
      128 - 8 := by
    rw [List.length_append, List.length_cons, List.length_replicate]
    omega
  have hcopy := copyTo_append (c := []) hoffset (hc.trans hlen.symm)
  rw [List.append_nil, List.append_nil] at hcopy
  rw [hcopy, hzeroes, List.replicate_add]
  simp

/-! ## Blocks -/

section

variable {digest : Vector (BitVec 32) 8}

theorem sha256Single_words (bytes : List UInt8) :
    varsOf (sha256SingleForMhSha256 (words bytes) digest) =
      compress (wordAt (bytes.take 64)) (varsOf digest) := by
  rw [sha256Single_compress]
  refine compress_congr (fun i hi => ?_) _
  rw [blockOf, toBe32_words, wordAt_take (by omega)]

/-- The loop over the blocks leaves what is not a block. -/
theorem sha256Blocks_absorb (inputData : List UInt8) (digest : Vector (BitVec 32) 8) :
    varsOf (sha256Blocks inputData digest).1 = absorbBlocks (varsOf digest) inputData ∧
      (sha256Blocks inputData digest).2 = remainder 64 inputData := by
  induction inputData, digest using sha256Blocks.induct with
  | case1 inputData digest hle ih =>
      rw [sha256Blocks, if_pos hle, absorbBlocks, absorb_drop hle, remainder_drop hle,
        ← sha256Single_words]
      exact ih
  | case2 inputData digest hlt =>
      have hshort := Nat.not_le.1 hlt
      rw [sha256Blocks, if_neg hlt, absorbBlocks, absorb_short hshort, remainder_short hshort]
      exact ⟨rfl, rfl⟩

/-- The hash of a message. -/
theorem sha256For_digest (message : List UInt8) :
    varsOf (sha256ForMhSha256 message) = Sha256.digest message := by
  obtain ⟨hvars, hrest⟩ := sha256Blocks_absorb message h0
  have hlt : (remainder 64 message).length < 64 := remainder_lt
  rw [h0_eq] at hvars
  rw [Sha256.digest, absorbBlocks, absorb_padding (by omega), ← absorbBlocks, ← hvars,
    sha256ForMhSha256]
  simp only [hrest, bytes64_toBe64, Nat.mul_comm message.length 8]
  generalize remainder 64 message = rest at hlt ⊢
  generalize hlen : lengthBytes (8 * message.length) = len
  replace hlen : len.length = 8 := hlen ▸ lengthBytes_length _
  -- the buffer up to where the length can be
  have hfront : (copyTo (List.replicate 128 0) 0 rest).take rest.length = rest := by
    rw [copyTo, List.take_zero, List.nil_append, List.take_left' rfl]
  have hsize : (copyTo (List.replicate 128 0) 0 rest).length = 128 := by
    rw [copyTo]
    simp
    omega
  have hmark := copyTo_mark (copyTo (List.replicate 128 0) 0 rest) (k := rest.length)
    (n := 120) (by omega) (by omega)
  rw [hfront] at hmark
  rw [hmark]
  by_cases hshort : rest.length + 9 ≤ 64
  · have hblock : (rest ++
        (0x80 :: List.replicate (64 - (rest.length + 9)) 0 ++ len)).length = 64 := by
      simp only [List.length_append, List.length_cons, List.length_replicate, hlen]
      omega
    rw [if_pos hshort, if_neg (by omega : ¬ 56 < rest.length + 1), if_neg (by omega),
      copyTo_length hlen hshort (by omega), sha256Single_words, List.take_left' hblock]
  · have hblock : (rest ++ 0x80 :: List.replicate (64 - (rest.length + 1)) (0 : UInt8)).length = 64 := by
      simp only [List.length_append, List.length_cons, List.length_replicate]
      omega
    have hend : ((copyTo (List.replicate 128 0) 0 rest).drop 120).length = 8 := by
      rw [List.length_drop, hsize]
    have hlast : (List.replicate (64 - 8) 0 ++ len).length = 64 := by
      rw [List.length_append, List.length_replicate, hlen]
    rw [if_neg hshort, if_pos (by omega : 56 < rest.length + 1), if_pos rfl,
      copyTo_second hlen hend hlt, sha256Single_words, sha256Single_words, List.take_left' hblock,
      List.drop_left' hblock, List.take_of_length_le (Nat.le_of_eq hlast)]

end

end Theo
