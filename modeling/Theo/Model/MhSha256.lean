import Theo.Lib.Memory
import Theo.Model.Layout

set_option autoImplicit false

/-! # Checksums

`checksum_gen` from `checksum.c`, and what it uses of `third-party/isa-l_crypto/mh_sha256`: the portable
code, as the assembler versions are bound to do the same. A pointer into bytes is the list from there
on, and `uint32_t *` into the same bytes is `words` of it. Words are little-endian in memory. That a
context is not `NULL` and how a buffer is aligned are not modelled. -/

namespace Theo

open ByteMachine

/-! ## `mh_sha256_internal.h` -/

namespace MhSha256

/-- The constants `MH_SHA256_H0` to `MH_SHA256_H7`. -/
def h0 : Vector (BitVec 32) 8 :=
  #v[0x6a09e667, 0xbb67ae85, 0x3c6ef372, 0xa54ff53a, 0x510e527f, 0x9b05688c, 0x1f83d9ab, 0x5be0cd19]

def ror32 (x : BitVec 32) (r : Nat) : BitVec 32 := x >>> r ^^^ x <<< (32 - r)

def S0 (w : BitVec 32) : BitVec 32 := ror32 w 7 ^^^ ror32 w 18 ^^^ w >>> 3
def S1 (w : BitVec 32) : BitVec 32 := ror32 w 17 ^^^ ror32 w 19 ^^^ w >>> 10
def s0 (a : BitVec 32) : BitVec 32 := ror32 a 2 ^^^ ror32 a 13 ^^^ ror32 a 22
def s1 (e : BitVec 32) : BitVec 32 := ror32 e 6 ^^^ ror32 e 11 ^^^ ror32 e 25
def maj (a b c : BitVec 32) : BitVec 32 := (a &&& b) ^^^ (a &&& c) ^^^ (b &&& c)
def ch (e f g : BitVec 32) : BitVec 32 := (e &&& f) ^^^ (g &&& ~~~e)

/-- The constants of the steps. -/
def k : Vector (BitVec 32) 64 := #v[
  0x428a2f98, 0x71374491, 0xb5c0fbcf, 0xe9b5dba5, 0x3956c25b, 0x59f111f1, 0x923f82a4, 0xab1c5ed5,
  0xd807aa98, 0x12835b01, 0x243185be, 0x550c7dc3, 0x72be5d74, 0x80deb1fe, 0x9bdc06a7, 0xc19bf174,
  0xe49b69c1, 0xefbe4786, 0x0fc19dc6, 0x240ca1cc, 0x2de92c6f, 0x4a7484aa, 0x5cb0a9dc, 0x76f988da,
  0x983e5152, 0xa831c66d, 0xb00327c8, 0xbf597fc7, 0xc6e00bf3, 0xd5a79147, 0x06ca6351, 0x14292967,
  0x27b70a85, 0x2e1b2138, 0x4d2c6dfc, 0x53380d13, 0x650a7354, 0x766a0abb, 0x81c2c92e, 0x92722c85,
  0xa2bfe8a1, 0xa81a664b, 0xc24b8b70, 0xc76c51a3, 0xd192e819, 0xd6990624, 0xf40e3585, 0x106aa070,
  0x19a4c116, 0x1e376c08, 0x2748774c, 0x34b0bcb5, 0x391c0cb3, 0x4ed8aa4a, 0x5b9cca4f, 0x682e6ff3,
  0x748f82ee, 0x78a5636f, 0x84c87814, 0x8cc70208, 0x90befffa, 0xa4506ceb, 0xbef9a3f7, 0xc67178f2]

/-- `byteswap32`. -/
def toBe32 (x : BitVec 32) : BitVec 32 :=
  BitVec.ofNat 32 (x.toNat % 2 ^ 8 * 2 ^ 24 + x.toNat / 2 ^ 8 % 2 ^ 8 * 2 ^ 16 +
    x.toNat / 2 ^ 16 % 2 ^ 8 * 2 ^ 8 + x.toNat / 2 ^ 24)

/-- `byteswap64`. -/
def toBe64 (x : Nat) : Nat :=
  (toBe32 (BitVec.ofNat 32 x)).toNat * 2 ^ 32 + (toBe32 (BitVec.ofNat 32 (x / 2 ^ 32))).toNat

/-- Bytes as words. -/
def words (bytes : List UInt8) (i : Nat) : BitVec 32 :=
  BitVec.ofNat 32 ((bytes.getD (4 * i) 0).toNat + (bytes.getD (4 * i + 1) 0).toNat * 2 ^ 8 +
    (bytes.getD (4 * i + 2) 0).toNat * 2 ^ 16 + (bytes.getD (4 * i + 3) 0).toNat * 2 ^ 24)

/-- `memcpy` to `offset` bytes into a buffer. -/
def copyTo (buffer : List UInt8) (offset : Nat) (bytes : List UInt8) : List UInt8 :=
  buffer.take offset ++ bytes ++ buffer.drop (offset + bytes.length)

/-! ## `sha256_for_mh_sha256.c` -/

/-- The variables `a` to `h`, as `0` to `7`, and the last 16 words of the message schedule. -/
structure Steps where
  vars : Vector (BitVec 32) 8
  w : Vector (BitVec 32) 16

/-- The macro `W`. -/
def Steps.W (st : Steps) (x : Nat) : BitVec 32 := st.w[x % 16]

/-- The macro `step`. -/
def step (i : Nat) (a b c d e f g h : Fin 8) (ww : Nat → BitVec 32) (st : Steps) : Steps :=
  let wi := if i < 16 then toBe32 (ww i)
    else st.W (i - 16) + S0 (st.W (i - 15)) + st.W (i - 7) + S1 (st.W (i - 2))
  let t2 := s0 st.vars[a] + maj st.vars[a] st.vars[b] st.vars[c]
  let t1 := st.vars[h] + s1 st.vars[e] + ch st.vars[e] st.vars[f] st.vars[g] + k.toList.getD i 0 + wi
  ⟨(st.vars.set d (st.vars[d] + t1)).set h (t1 + t2), st.w.set (i % 16) wi⟩

/-- Eight steps from step `i` on. Behind them each variable is at its place again. -/
def steps8 (i : Nat) (ww : Nat → BitVec 32) (st : Steps) : Steps :=
  let st := step i 0 1 2 3 4 5 6 7 ww st
  let st := step (i + 1) 7 0 1 2 3 4 5 6 ww st
  let st := step (i + 2) 6 7 0 1 2 3 4 5 ww st
  let st := step (i + 3) 5 6 7 0 1 2 3 4 ww st
  let st := step (i + 4) 4 5 6 7 0 1 2 3 ww st
  let st := step (i + 5) 3 4 5 6 7 0 1 2 ww st
  let st := step (i + 6) 2 3 4 5 6 7 0 1 ww st
  step (i + 7) 1 2 3 4 5 6 7 0 ww st

/-- The first `8 * n` of the steps. -/
def stepsTo (ww : Nat → BitVec 32) (st : Steps) : Nat → Steps
  | 0 => st
  | n + 1 => steps8 (8 * n) ww (stepsTo ww st n)

end MhSha256

open MhSha256

/-- The words `w` are not initialised. -/
def sha256SingleForMhSha256 (data : Nat → BitVec 32) (digest : Vector (BitVec 32) 8) :
    Vector (BitVec 32) 8 :=
  let st := stepsTo data ⟨digest, Vector.replicate 16 0⟩ 8
  Vector.ofFn fun i => digest[i] + st.vars[i]

/-- The loop over the blocks of `input_data`: the digest, and the bytes left. -/
def sha256Blocks (inputData : List UInt8) (digest : Vector (BitVec 32) 8) :
    Vector (BitVec 32) 8 × List UInt8 :=
  if 64 ≤ inputData.length then
    sha256Blocks (inputData.drop 64) (sha256SingleForMhSha256 (words inputData) digest)
  else (digest, inputData)
termination_by inputData.length
decreasing_by rw [List.length_drop]; omega

/-- Also `sha256_for_mh_sha256_ref`, which has the same text. `buf` is not initialised. -/
def sha256ForMhSha256 (inputData : List UInt8) : Vector (BitVec 32) 8 :=
  let len := inputData.length
  let (digest, rest) := sha256Blocks inputData h0
  let buf := copyTo (List.replicate 128 0) 0 rest
  let buf := copyTo buf rest.length [0x80]
  let i := rest.length + 1
  let buf := copyTo buf i (List.replicate (120 - i) 0)
  let i := if 56 < i then 128 else 64
  let buf := copyTo buf (i - 8) (Mem.bytes64 (toBe64 (len * 8)))
  let digest := sha256SingleForMhSha256 (words buf) digest
  if i = 128 then sha256SingleForMhSha256 (words (buf.drop 64)) digest else digest

/-! ## `mh_sha256_block_base.c` -/

/-- `uint32_t [SHA256_DIGEST_WORDS][HASH_SEGS]`. -/
abbrev SegsDigests := Vector (Vector (BitVec 32) 16) 8

/-- The working area of a block. -/
abbrev FrameBuffer := Vector (Vector (BitVec 32) 16) 16

namespace MhSha256

/-- The variables `aa` to `hh` and the words `w` of all segments. -/
structure SegsSteps where
  vars : SegsDigests
  w : FrameBuffer

/-- The macro `Ws`. -/
def SegsSteps.Ws (st : SegsSteps) (x : Nat) (s : Fin 16) : BitVec 32 := st.w[x % 16][s]

/-- The function `step`: each macro is a loop over the segments. -/
def segsStep (i : Nat) (a b c d e f g h : Fin 8) (ww : Nat → BitVec 32) (st : SegsSteps) :
    SegsSteps :=
  let w := st.w.set (i % 16) (Vector.ofFn fun s => if i < 16 then toBe32 (ww (i * 16 + s))
    else st.Ws (i - 16) s + S0 (st.Ws (i - 15) s) + st.Ws (i - 7) s + S1 (st.Ws (i - 2) s))
  let t2 : Vector (BitVec 32) 16 := Vector.ofFn fun s =>
    s0 st.vars[a][s] + maj st.vars[a][s] st.vars[b][s] st.vars[c][s]
  let t1 : Vector (BitVec 32) 16 := Vector.ofFn fun s =>
    st.vars[h][s] + s1 st.vars[e][s] + ch st.vars[e][s] st.vars[f][s] st.vars[g][s] +
      k.toList.getD i 0 + w[i % 16][s]
  let vars := st.vars.set d (Vector.ofFn fun s => st.vars[d][s] + t1[s])
  ⟨vars.set h (Vector.ofFn fun s => t1[s] + t2[s]), w⟩

/-- One round of the loop of `mh_sha256_single`. -/
def segsSteps8 (i : Nat) (ww : Nat → BitVec 32) (st : SegsSteps) : SegsSteps :=
  let st := segsStep i 0 1 2 3 4 5 6 7 ww st
  let st := segsStep (i + 1) 7 0 1 2 3 4 5 6 ww st
  let st := segsStep (i + 2) 6 7 0 1 2 3 4 5 ww st
  let st := segsStep (i + 3) 5 6 7 0 1 2 3 4 ww st
  let st := segsStep (i + 4) 4 5 6 7 0 1 2 3 ww st
  let st := segsStep (i + 5) 3 4 5 6 7 0 1 2 ww st
  let st := segsStep (i + 6) 2 3 4 5 6 7 0 1 ww st
  segsStep (i + 7) 1 2 3 4 5 6 7 0 ww st

def segsStepsTo (ww : Nat → BitVec 32) (st : SegsSteps) : Nat → SegsSteps
  | 0 => st
  | n + 1 => segsSteps8 (8 * n) ww (segsStepsTo ww st n)

end MhSha256

/-- The digests, and what is left in the frame buffer. -/
def mhSha256Single (input : List UInt8) (digests : SegsDigests) (frameBuffer : FrameBuffer) :
    SegsDigests × FrameBuffer :=
  let st := segsStepsTo (words input) ⟨digests, frameBuffer⟩ 8
  (Vector.ofFn fun i => Vector.ofFn fun s => digests[i][s] + st.vars[i][s], st.w)

def mhSha256BlockBase (inputData : List UInt8) (digests : SegsDigests) (frameBuffer : FrameBuffer) :
    Nat → SegsDigests × FrameBuffer
  | 0 => (digests, frameBuffer)
  | n + 1 =>
      let (digests, frameBuffer) := mhSha256Single inputData digests frameBuffer
      mhSha256BlockBase (inputData.drop 1024) digests frameBuffer n

/-! ## `mh_sha256_ref.c` -/

namespace MhSha256

/-- The words of block `block`, those of each segment together. The offset of the block is computed in
a `uint32_t`. -/
def transformInput (input : Nat → BitVec 32) (block : Nat) : FrameBuffer :=
  let currentInput := block * 1024 % 2 ^ 32 / 4
  Vector.ofFn fun segment => Vector.ofFn fun j => input (currentInput + (16 * j + segment))

def sha256UpdateAllSegs (newData : FrameBuffer) (digests : Vector (Vector (BitVec 32) 8) 16) :
    Vector (Vector (BitVec 32) 8) 16 :=
  Vector.ofFn fun s => sha256SingleForMhSha256 (fun i => newData[s].toList.getD i 0) digests[s]

/-- The loop over the blocks, from block `i` on. -/
def blockRefLoop (input : Nat → BitVec 32) (i : Nat) (tempBuffer : FrameBuffer)
    (transDigests : Vector (Vector (BitVec 32) 8) 16) :
    Nat → FrameBuffer × Vector (Vector (BitVec 32) 8) 16
  | 0 => (tempBuffer, transDigests)
  | n + 1 =>
      let tempBuffer := transformInput input i
      blockRefLoop input (i + 1) tempBuffer (sha256UpdateAllSegs tempBuffer transDigests) n

end MhSha256

/-- The temporary buffer is the frame buffer: the digests of the segments end up in the front of it. -/
def mhSha256BlockRef (inputData : List UInt8) (digests : SegsDigests) (frameBuffer : FrameBuffer)
    (numBlocks : Nat) : SegsDigests × FrameBuffer :=
  let transDigests := Vector.ofFn fun j => Vector.ofFn fun i => digests[i][j]
  let (tempBuffer, transDigests) :=
    blockRefLoop (words inputData) 0 frameBuffer transDigests numBlocks
  let digests : SegsDigests := Vector.ofFn fun i => Vector.ofFn fun j => transDigests[j][i]
  (digests, Vector.ofFn fun r => if h : r.1 < 8 then digests[r.1] else tempBuffer[r])

/-! ## `mh_sha256.c`, `mh_sha256_update_base.c` and `mh_sha256_finalize_base.c` -/

structure MhSha256Ctx where
  mhSha256Digest : Vector (BitVec 32) 8
  totalLength : Nat
  partialBlockBuffer : List UInt8
  mhSha256InterimDigests : SegsDigests
  frameBuffer : FrameBuffer

def mhSha256SegsInit : SegsDigests := h0.map fun h => Vector.replicate 16 h

def mhSha256Init : MhSha256Ctx where
  mhSha256Digest := Vector.replicate 8 0
  totalLength := 0
  partialBlockBuffer := List.replicate 2048 0
  mhSha256InterimDigests := mhSha256SegsInit
  frameBuffer := Vector.replicate 16 (Vector.replicate 16 0)

/-- The type of `MH_SHA256_BLOCK_FUNCTION`. -/
abbrev BlockFunction := List UInt8 → SegsDigests → FrameBuffer → Nat → SegsDigests × FrameBuffer

/-- A call of the block function on the context. -/
def MhSha256Ctx.block (ctx : MhSha256Ctx) (blockFunction : BlockFunction) (input : List UInt8)
    (numBlocks : Nat) : MhSha256Ctx :=
  let (digests, frameBuffer) :=
    blockFunction input ctx.mhSha256InterimDigests ctx.frameBuffer numBlocks
  { ctx with mhSha256InterimDigests := digests, frameBuffer := frameBuffer }

/-- What `MH_SHA256_UPDATE_FUNCTION` does with a partial block that there is now enough data for: the
context, and the data left. -/
def mhSha256Fill (blockFunction : BlockFunction) (ctx : MhSha256Ctx) (partialBlockLen : Nat)
    (inputData : List UInt8) : MhSha256Ctx × List UInt8 :=
  if partialBlockLen ≠ 0 then
    let filled := copyTo ctx.partialBlockBuffer partialBlockLen
      (inputData.take (1024 - partialBlockLen))
    let ctx := { ctx with partialBlockBuffer := filled }.block blockFunction filled 1
    ({ ctx with partialBlockBuffer := copyTo ctx.partialBlockBuffer 0 (List.replicate 1024 0) },
      inputData.drop (1024 - partialBlockLen))
  else (ctx, inputData)

def mhSha256Update (blockFunction : BlockFunction) (ctx : MhSha256Ctx) (buffer : List UInt8) :
    MhSha256Ctx :=
  if buffer.length = 0 then ctx
  else
    let partialBlockLen := ctx.totalLength % 1024
    let ctx := { ctx with totalLength := (ctx.totalLength + buffer.length) % 2 ^ 64 }
    if buffer.length + partialBlockLen < 1024 then
      { ctx with partialBlockBuffer := copyTo ctx.partialBlockBuffer partialBlockLen buffer }
    else
      let (ctx, inputData) := mhSha256Fill blockFunction ctx partialBlockLen buffer
      let numBlocks := inputData.length / 1024
      let ctx := if 0 < numBlocks then ctx.block blockFunction inputData numBlocks else ctx
      let inputData := inputData.drop (numBlocks * 1024)
      if inputData.length ≠ 0 then
        { ctx with partialBlockBuffer := copyTo ctx.partialBlockBuffer 0 inputData }
      else ctx

/-- The digests as bytes. -/
def segsBytes (digests : SegsDigests) : List UInt8 :=
  digests.toList.flatMap fun row => row.toList.flatMap fun x => Mem.bytes32 x.toNat

/-- `MH_SHA256_TAIL_FUNCTION` on the buffers of the context. `total_len` is a `uint32_t`. -/
def mhSha256Tail (blockFunction : BlockFunction) (ctx : MhSha256Ctx) (totalLen : Nat) :
    MhSha256Ctx :=
  let partialBufferLen := totalLen % 1024
  let buffer := copyTo ctx.partialBlockBuffer partialBufferLen [0x80]
  let partialBufferLen := partialBufferLen + 1
  let buffer := copyTo buffer partialBufferLen (List.replicate (1024 - partialBufferLen) 0)
  let ctx := { ctx with partialBlockBuffer := buffer }
  let ctx := if 1024 - 8 < partialBufferLen then
      let ctx := ctx.block blockFunction ctx.partialBlockBuffer 1
      { ctx with partialBlockBuffer := copyTo ctx.partialBlockBuffer 0 (List.replicate 1024 0) }
    else ctx
  let buffer := copyTo ctx.partialBlockBuffer (1024 - 8) (Mem.bytes64 (toBe64 (totalLen * 8)))
  let ctx := { ctx with partialBlockBuffer := buffer }.block blockFunction buffer 1
  { ctx with mhSha256Digest := sha256ForMhSha256 (segsBytes ctx.mhSha256InterimDigests) }

/-- The digest goes to the caller's array, too. -/
def mhSha256Finalize (blockFunction : BlockFunction) (ctx : MhSha256Ctx) : MhSha256Ctx :=
  mhSha256Tail blockFunction ctx (ctx.totalLength % 2 ^ 32)

def mhSha256UpdateBase : MhSha256Ctx → List UInt8 → MhSha256Ctx := mhSha256Update mhSha256BlockBase

def mhSha256FinalizeBase : MhSha256Ctx → MhSha256Ctx := mhSha256Finalize mhSha256BlockBase

/-- `mh_sha256_ref`; its buffers are not initialised. `mh_sha256_tail_ref` has the text of the tail
function. -/
def mhSha256Ref (buffer : List UInt8) : Vector (BitVec 32) 8 :=
  let numBlocks := buffer.length / 1024
  let ctx := if 0 < numBlocks then mhSha256Init.block mhSha256BlockRef buffer numBlocks
    else mhSha256Init
  let rest := buffer.drop (numBlocks * 1024)
  let ctx := if rest.length ≠ 0 then
      { ctx with partialBlockBuffer := copyTo ctx.partialBlockBuffer 0 rest }
    else ctx
  (mhSha256Tail mhSha256BlockRef ctx buffer.length).mhSha256Digest

/-! ## `checksum.c` -/

theorem digestBytes_length (digest : Vector (BitVec 32) 8) :
    (digest.toList.flatMap fun x => Mem.bytes32 x.toNat).length = 32 := by
  rw [List.length_flatMap]
  simp [Mem.bytes32]

def checksumGen (buffer : List UInt8) : Checksum :=
  let ctx := mhSha256FinalizeBase (mhSha256UpdateBase mhSha256Init buffer)
  ⟨ctx.mhSha256Digest.toList.flatMap fun x => Mem.bytes32 x.toNat, digestBytes_length _⟩

end Theo
