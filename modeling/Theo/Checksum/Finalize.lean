import Theo.Checksum.Updates

set_option autoImplicit false

/-! # Finalize

The tail puts the padding together in the buffer of the context and the digests of the segments into one
message. So the checksum of a buffer is the hash in lanes of it (`checksumGen_digest`), and the same as
that of the reference, and of any run of updates with the same bytes (`updates_ref`). -/

namespace Theo

open ByteMachine MhSha256 Sha256 Segmentation

theorem row_toList (row : Vector (BitVec 32) 16) :
    row.toList = (List.finRange 16).map row.get := by
  apply List.ext_getElem
  · simp
  · intro i hi _
    rw [Vector.getElem_toList, List.getElem_map, List.getElem_finRange]
    rfl

/-- The digests of the segments as bytes are the states of the lanes as bytes. -/
theorem segsBytes_eq (digests : SegsDigests) : segsBytes digests = laneBytes (segVars digests) := by
  have hrows : digests.toList = [digests[0], digests[1], digests[2], digests[3], digests[4],
      digests[5], digests[6], digests[7]] := by
    apply List.ext_getElem
    · simp
    · intro i hi _
      simp only [Vector.length_toList] at hi
      interval_cases i
      all_goals rfl
  simp only [segsBytes, laneBytes, hrows, row_toList, List.flatMap_map]
  simp [segVars, varsOf]
  rfl

section

variable {block : BlockFunction} {ctx : MhSha256Ctx} {message : List UInt8}

/-- One block out of a buffer. -/
theorem block_one (hblock : Absorbs block) {b c : List UInt8} (hb : b.length = 1024) (s : Fin 16) :
    segVars (ctx.block block (b ++ c) 1).mhSha256InterimDigests s =
      compress (lane s (wordAt b)) (segVars ctx.mhSha256InterimDigests s) := by
  have hlen : 1024 * 1 ≤ (b ++ c).length := by
    rw [List.length_append, hb]
    omega
  rw [block_segVars hblock hlen (by decide), Nat.mul_one, List.take_left' hb, absorbLane, absorb_one hb]

/-- The length at the end of a block that was cleared. -/
theorem copyTo_cleared {b c len : List UInt8} (hb : b.length = 1024) (hlen : len.length = 8) :
    copyTo (copyTo (b ++ c) 0 (List.replicate 1024 0)) (1024 - 8) len =
      (List.replicate (1024 - 8) 0 ++ len) ++ c := by
  have hclear := copyTo_append c (List.length_nil (α := UInt8))
    (hb.trans (List.length_replicate (a := (0 : UInt8)) (n := 1024)).symm)
  have hend : (List.replicate 8 (0 : UInt8)).length = len.length :=
    List.length_replicate.trans hlen.symm
  have hput := copyTo_append c (a := List.replicate (1024 - 8) 0) List.length_replicate hend
  rw [← List.append_assoc, ← List.replicate_add] at hput
  rw [List.nil_append, List.nil_append] at hclear
  rw [hclear]
  exact hput

/-- The padding behind a message. -/
theorem Absorbed.tail (hblock : Absorbs block) (h : Absorbed ctx message) {totalLen : Nat}
    (hlen : totalLen % 1024 = message.length % 1024) :
    varsOf (mhSha256Tail block ctx totalLen).mhSha256Digest =
      digest (laneBytes (laneStates message (8 * totalLen))) := by
  have hlt : (remainder 1024 message).length < 1024 := remainder_lt
  have hp : totalLen % 1024 = (remainder 1024 message).length := hlen.trans remainder_length.symm
  have hmark := copyTo_mark ctx.partialBlockBuffer
    (k := (remainder 1024 message).length) (n := 1024) hlt (by rw [h.size]; decide)
  have hfront : ctx.partialBlockBuffer.take (remainder 1024 message).length =
      remainder 1024 message := by
    rw [remainder_length, h.rest]
  have hdigests := h.digests
  rw [hfront] at hmark
  simp only [mhSha256Tail, hp, hmark, bytes64_toBe64, Nat.mul_comm totalLen 8]
  rw [sha256For_digest, segsBytes_eq]
  congr 2
  funext s
  rw [laneStates, absorbLane, absorb_padding (by omega)]
  generalize remainder 1024 message = rest at hlt ⊢
  generalize hsize : lengthBytes (8 * totalLen) = len
  replace hsize : len.length = 8 := hsize ▸ lengthBytes_length _
  by_cases hshort : rest.length + 9 ≤ 1024
  · have hone : (rest ++ (0x80 :: List.replicate (1024 - (rest.length + 9)) 0 ++ len)).length = 1024 := by
      simp only [List.length_append, List.length_cons, List.length_replicate, hsize]
      omega
    rw [if_pos hshort, if_neg (by omega : ¬ 1024 - 8 < rest.length + 1),
      copyTo_length hsize hshort (Nat.le_refl _), block_one hblock hone, hdigests, absorbLane]
  · have hone : (rest ++ 0x80 :: List.replicate (1024 - (rest.length + 1)) (0 : UInt8)).length =
        1024 := by
      simp only [List.length_append, List.length_cons, List.length_replicate]
      omega
    have htwo : (List.replicate (1024 - 8) 0 ++ len).length = 1024 := by
      rw [List.length_append, List.length_replicate, hsize]
    rw [if_neg hshort, if_pos (by omega : 1024 - 8 < rest.length + 1)]
    simp only [block_partialBlockBuffer, copyTo_cleared hone hsize]
    rw [block_one hblock htwo, block_one hblock hone, hdigests, absorbLane]

/-! ## Runs -/

theorem Absorbed.init : Absorbed mhSha256Init [] where
  digests := by
    intro s
    have hcolumn : column mhSha256SegsInit s = h0 := by
      refine Vector.ext fun i hi => ?_
      simp [mhSha256SegsInit]
    rw [absorbLane_short (by decide), ← h0_eq, ← hcolumn]
    rfl
  size := List.length_replicate
  rest := by rw [remainder_short (by decide), List.length_nil, Nat.zero_mod, List.take_zero]

/-- A run of updates. The length of a piece is a `uint32_t`. -/
theorem Absorbed.updates (hblock : Absorbs block) (h : Absorbed ctx message)
    (htotal : ctx.totalLength = message.length % 2 ^ 64) {pieces : List (List UInt8)}
    (hpieces : ∀ piece ∈ pieces, piece.length < 2 ^ 32) :
    Absorbed (pieces.foldl (mhSha256Update block) ctx) (message ++ pieces.flatten) ∧
      (pieces.foldl (mhSha256Update block) ctx).totalLength =
        (message ++ pieces.flatten).length % 2 ^ 64 := by
  induction pieces generalizing ctx message with
  | nil =>
      rw [List.flatten_nil, List.append_nil]
      exact ⟨h, htotal⟩
  | cons piece pieces ih =>
      rw [List.forall_mem_cons] at hpieces
      obtain ⟨hupdate, hlen⟩ := h.update hblock htotal hpieces.1
      rw [List.foldl_cons, List.flatten_cons, ← List.append_assoc]
      exact ih hupdate hlen hpieces.2

end

/-- The digest of data in pieces is the hash in lanes of all of it, whichever version of the block
function put it there. The tail takes the length modulo 4 GiB. -/
theorem updates_digest {block : BlockFunction} (hblock : Absorbs block) {pieces : List (List UInt8)}
    (hpieces : ∀ piece ∈ pieces, piece.length < 2 ^ 32) :
    varsOf (mhSha256Finalize block
      (pieces.foldl (mhSha256Update block) mhSha256Init)).mhSha256Digest =
        digest (laneBytes (laneStates pieces.flatten (8 * (pieces.flatten.length % 2 ^ 32)))) := by
  obtain ⟨h, htotal⟩ := Absorbed.init.updates hblock rfl hpieces
  rw [List.nil_append] at h htotal
  rw [mhSha256Finalize, htotal, Nat.mod_mod_of_dvd _ (by decide)]
  exact h.tail hblock (Nat.mod_mod_of_dvd _ (by decide))

theorem ref_digest {buffer : List UInt8} (h : buffer.length < 2 ^ 32) :
    varsOf (mhSha256Ref buffer) = multiDigest buffer := by
  have hstore := Absorbed.init.store blockRef_absorbs rfl h
  exact hstore.tail blockRef_absorbs rfl

/-- The pieces of the data make no difference to the digest: it is that of the reference on all of it. -/
theorem updates_ref {block : BlockFunction} (hblock : Absorbs block) (pieces : List (List UInt8))
    (h : pieces.flatten.length < 2 ^ 32) :
    (mhSha256Finalize block (pieces.foldl (mhSha256Update block) mhSha256Init)).mhSha256Digest =
      mhSha256Ref pieces.flatten := by
  have hpieces : ∀ piece ∈ pieces, piece.length < 2 ^ 32 := fun piece hpiece =>
    Nat.lt_of_le_of_lt (List.sublist_flatten_of_mem hpiece).length_le h
  apply varsOf_injective
  rw [updates_digest hblock hpieces, ref_digest h, Nat.mod_eq_of_lt h, multiDigest]

/-- Three pieces, the second of which fills up a block. -/
theorem updates_ref_three : (mhSha256FinalizeBase
      ([List.replicate 1000 7, List.replicate 100 8, [9]].foldl mhSha256UpdateBase
        mhSha256Init)).mhSha256Digest =
    mhSha256Ref (List.replicate 1000 7 ++ List.replicate 100 8 ++ [9]) := by
  have hsplit : [List.replicate 1000 7, List.replicate 100 8, [9]].flatten =
      List.replicate 1000 7 ++ List.replicate 100 8 ++ ([9] : List UInt8) := by
    simp only [List.flatten_cons, List.flatten_nil, List.append_nil, List.append_assoc]
  have hlen : (List.replicate 1000 7 ++ List.replicate 100 8 ++ ([9] : List UInt8)).length < 2 ^ 32 := by
    simp only [List.length_append, List.length_replicate, List.length_singleton]
    decide
  have href := updates_ref blockBase_absorbs [List.replicate 1000 7, List.replicate 100 8, [9]]
    (by rwa [hsplit])
  rwa [hsplit] at href

/-! ## `checksum_gen` -/

theorem digestBytes_eq (digest : Vector (BitVec 32) 8) :
    (digest.toList.flatMap fun x => Mem.bytes32 x.toNat) = (varsOf digest).bytes := by
  have hlist : digest.toList = (turned (varsOf digest) 0).toList := by rw [turned_varsOf]
  rw [hlist, Vars.bytes]
  rfl

theorem checksumGen_bytes (buffer : List UInt8) : (checksumGen buffer).bytes =
    (varsOf (mhSha256FinalizeBase (mhSha256UpdateBase mhSha256Init buffer)).mhSha256Digest).bytes :=
  digestBytes_eq _

theorem update_digest {buffer : List UInt8} (h : buffer.length < 2 ^ 32) :
    varsOf (mhSha256FinalizeBase (mhSha256UpdateBase mhSha256Init buffer)).mhSha256Digest =
      multiDigest buffer := by
  have hupdate := updates_digest blockBase_absorbs (List.forall_mem_singleton.2 h)
  rwa [List.flatten_singleton, Nat.mod_eq_of_lt h, ← multiDigest] at hupdate

/-- A checksum is the hash in lanes of the buffer. -/
theorem checksumGen_digest {buffer : List UInt8} (h : buffer.length < 2 ^ 32) :
    (checksumGen buffer).bytes = (multiDigest buffer).bytes := by
  rw [checksumGen_bytes, update_digest h]

theorem checksumGen_digest_abc :
    (checksumGen [97, 98, 99]).bytes = (multiDigest [97, 98, 99]).bytes :=
  checksumGen_digest (by decide)

end Theo
