import Mathlib.Tactic.IntervalCases
import Theo.Lib.Chain
import Theo.Lib.Sha256

set_option autoImplicit false

/-! # Messages with the same hash

Two messages with the same hash in lanes are the same, or among the blocks that were compressed for them
there are two that collide (`multiDigest_collide`). So what is to be believed of the hash is something of
`compress` alone. -/

namespace Sha256

open ByteMachine Segmentation

/-! ## Words -/

/-- The words of a block in a list. -/
def wordList (block : Nat → Word) : List Word := (List.range 16).map block

/-- A block put on a state. -/
def put (v : Vars) (block : List Word) : Vars := compress (fun i => block.getD i 0) v

theorem put_wordList (v : Vars) (block : Nat → Word) : put v (wordList block) = compress block v := by
  refine compress_congr (fun i hi => ?_) v
  simp [wordList, hi]

theorem wordList_inj {block block' : Nat → Word} (h : wordList block = wordList block') {i : Nat}
    (hi : i < 16) : block i = block' i :=
  (List.map_inj_left.1 h) i (List.mem_range.2 hi)

theorem wordAt_inj {b b' : List UInt8} {i : Nat} (h : wordAt b i = wordAt b' i) {j : Nat} (hj : j < 4) :
    b.getD (4 * i + j) 0 = b'.getD (4 * i + j) 0 := by
  have hlt : ∀ (x : UInt8), x.toNat < 2 ^ 8 := UInt8.toNat_lt
  have h₀ := hlt (b.getD (4 * i) 0)
  have h₁ := hlt (b.getD (4 * i + 1) 0)
  have h₂ := hlt (b.getD (4 * i + 2) 0)
  have h₃ := hlt (b.getD (4 * i + 3) 0)
  have h₀' := hlt (b'.getD (4 * i) 0)
  have h₁' := hlt (b'.getD (4 * i + 1) 0)
  have h₂' := hlt (b'.getD (4 * i + 2) 0)
  have h₃' := hlt (b'.getD (4 * i + 3) 0)
  have hnat := congrArg BitVec.toNat h
  rw [wordAt, wordAt, BitVec.toNat_ofNat, BitVec.toNat_ofNat, Nat.mod_eq_of_lt (by omega),
    Nat.mod_eq_of_lt (by omega)] at hnat
  apply UInt8.toNat_inj.1
  interval_cases j
  · rw [Nat.add_zero]
    omega
  all_goals omega

/-- Bytes that make up whole words are known from their words. -/
theorem eq_of_wordAt {b b' : List UInt8} (hlen : b.length = b'.length)
    (h : ∀ i, 4 * i < b.length → wordAt b i = wordAt b' i) : b = b' := by
  refine List.ext_getElem hlen fun j hj hj' => ?_
  have hbyte := wordAt_inj (h (j / 4) (by omega)) (Nat.mod_lt j (by decide))
  rw [Nat.div_add_mod] at hbyte
  rwa [List.getD_eq_getElem?_getD, List.getD_eq_getElem?_getD, List.getElem?_eq_getElem hj,
    List.getElem?_eq_getElem hj'] at hbyte

/-- A block is known from the words of all its lanes. -/
theorem eq_of_lanes {b b' : List UInt8} (hb : b.length = 1024) (hb' : b'.length = 1024)
    (h : ∀ s, wordList (lane s (wordAt b)) = wordList (lane s (wordAt b'))) : b = b' := by
  refine eq_of_wordAt (hb.trans hb'.symm) fun i hi => ?_
  have hword := wordList_inj (h ⟨i % 16, Nat.mod_lt i (by decide)⟩) (i := i / 16) (by omega)
  rwa [lane, lane, Nat.div_add_mod] at hword

/-! ## Lengths -/

theorem lengthBytes_inj {v v' : Nat} (hv : v < 2 ^ 64) (hv' : v' < 2 ^ 64)
    (h : lengthBytes v = lengthBytes v') : v = v' := by
  have hbyte : ∀ i < 8, v / 256 ^ (7 - i) % 2 ^ 8 = v' / 256 ^ (7 - i) % 2 ^ 8 := by
    intro i hi
    have heq := congrArg UInt8.toNat ((List.map_inj_left.1 h) i (List.mem_range.2 hi))
    rwa [UInt8.toNat_ofNat', UInt8.toNat_ofNat'] at heq
  have h₀ : v % 2 ^ 8 = v' % 2 ^ 8 := by simpa using hbyte 7 (by decide)
  have h₁ : v / 2 ^ 8 % 2 ^ 8 = v' / 2 ^ 8 % 2 ^ 8 := hbyte 6 (by decide)
  have h₂ : v / 2 ^ 16 % 2 ^ 8 = v' / 2 ^ 16 % 2 ^ 8 := hbyte 5 (by decide)
  have h₃ : v / 2 ^ 24 % 2 ^ 8 = v' / 2 ^ 24 % 2 ^ 8 := hbyte 4 (by decide)
  have h₄ : v / 2 ^ 32 % 2 ^ 8 = v' / 2 ^ 32 % 2 ^ 8 := hbyte 3 (by decide)
  have h₅ : v / 2 ^ 40 % 2 ^ 8 = v' / 2 ^ 40 % 2 ^ 8 := hbyte 2 (by decide)
  have h₆ : v / 2 ^ 48 % 2 ^ 8 = v' / 2 ^ 48 % 2 ^ 8 := hbyte 1 (by decide)
  have h₇ : v / 2 ^ 56 % 2 ^ 8 = v' / 2 ^ 56 % 2 ^ 8 := hbyte 0 (by decide)
  omega

/-! ## Hashes as bytes -/

theorem flatMap_inj {α : Type} {xs : List α} {f g : α → List UInt8} {k : Nat}
    (hf : ∀ x ∈ xs, (f x).length = k) (hg : ∀ x ∈ xs, (g x).length = k)
    (h : xs.flatMap f = xs.flatMap g) : ∀ x ∈ xs, f x = g x := by
  induction xs with
  | nil => exact fun x hx => absurd hx List.not_mem_nil
  | cons x xs ih =>
      rw [List.forall_mem_cons] at hf hg
      rw [List.flatMap_cons, List.flatMap_cons] at h
      obtain ⟨hhead, htail⟩ := List.append_inj h (hf.1.trans hg.1.symm)
      exact List.forall_mem_cons.2 ⟨hhead, ih hf.2 hg.2 htail⟩

theorem bytes32_inj {w w' : Word} (h : Mem.bytes32 w.toNat = Mem.bytes32 w'.toNat) : w = w' := by
  have hw := Mem.load32_write_self (fun _ => 0) 0 w.toNat
  rw [h, Mem.load32_write_self, Nat.mod_eq_of_lt w.isLt, Nat.mod_eq_of_lt w'.isLt] at hw
  exact BitVec.eq_of_toNat_eq hw.symm

theorem Vars.bytes_inj {v v' : Vars} (h : v.bytes = v'.bytes) : v = v' := by
  have hwords : ∀ word ∈ [Vars.a, Vars.b, Vars.c, Vars.d, Vars.e, Vars.f, Vars.g, Vars.h],
      Mem.bytes32 (word v).toNat = Mem.bytes32 (word v').toNat :=
    flatMap_inj (k := 4) (fun _ _ => rfl) (fun _ _ => rfl) h
  simp only [List.forall_mem_cons] at hwords
  obtain ⟨ha, hb, hc, hd, he, hf, hg, hh, -⟩ := hwords
  cases v
  cases v'
  rw [Vars.mk.injEq]
  exact ⟨bytes32_inj ha, bytes32_inj hb, bytes32_inj hc, bytes32_inj hd, bytes32_inj he,
    bytes32_inj hf, bytes32_inj hg, bytes32_inj hh⟩

theorem laneRow_length (lanes : Fin 16 → Vars) (word : Vars → Word) :
    ((List.finRange 16).flatMap fun s => Mem.bytes32 (word (lanes s)).toNat).length = 64 := by
  simp [List.length_flatMap]

theorem laneBytes_length (lanes : Fin 16 → Vars) : (laneBytes lanes).length = 512 := by
  rw [laneBytes, List.length_flatMap]
  simp only [laneRow_length]
  rfl

theorem laneBytes_inj {lanes lanes' : Fin 16 → Vars} (h : laneBytes lanes = laneBytes lanes') :
    lanes = lanes' := by
  funext s
  apply Vars.bytes_inj
  have hrows := flatMap_inj (fun word _ => laneRow_length lanes word)
    (fun word _ => laneRow_length lanes' word) h
  have hwords : ∀ word ∈ [Vars.a, Vars.b, Vars.c, Vars.d, Vars.e, Vars.f, Vars.g, Vars.h],
      Mem.bytes32 (word (lanes s)).toNat = Mem.bytes32 (word (lanes' s)).toNat := fun word hword =>
    flatMap_inj (k := 4) (fun _ _ => rfl) (fun _ _ => rfl) (hrows word hword) s (List.mem_finRange s)
  exact List.flatMap_congr hwords

/-! ## Collisions -/

/-- The blocks of a message. -/
def digestBlocks (message : List UInt8) : List (List Word) :=
  (blocks 64 (message ++ padding 64 message.length (8 * message.length))).map fun block =>
    wordList (wordAt block)

/-- The blocks of a lane. -/
def laneBlocks (s : Fin 16) (message : List UInt8) : List (List Word) :=
  (blocks 1024 (message ++ padding 1024 message.length (8 * message.length))).map fun block =>
    wordList (lane s (wordAt block))

/-- What is compressed for a message. -/
def digestCalls (message : List UInt8) : List (Vars × List Word) :=
  calls put initial (digestBlocks message)

def laneCalls (s : Fin 16) (message : List UInt8) : List (Vars × List Word) :=
  calls put initial (laneBlocks s message)

/-- What is compressed for the hash in lanes of a message. -/
def multiCalls (message : List UInt8) : List (Vars × List Word) :=
  (List.finRange 16).flatMap (fun s => laneCalls s message) ++
    digestCalls (laneBytes (laneStates message (8 * message.length)))

section

variable {m m' : List UInt8}

theorem digest_foldl (m : List UInt8) : digest m = (digestBlocks m).foldl put initial := by
  rw [digestBlocks, List.foldl_map]
  simp only [put_wordList]
  rfl

theorem laneStates_foldl (m : List UInt8) (s : Fin 16) :
    laneStates m (8 * m.length) s = (laneBlocks s m).foldl put initial := by
  rw [laneBlocks, List.foldl_map]
  simp only [put_wordList]
  rfl

/-- Bytes whose blocks have the same words, in one lane or in all. -/
theorem eq_of_words {ι : Type} {n : Nat} [NeZero n] {xs ys : List UInt8}
    {words : ι → List UInt8 → List Word} (hxs : xs.length % n = 0) (hlen : xs.length = ys.length)
    (hinj : ∀ b b', b.length = n → b'.length = n → (∀ s, words s b = words s b') → b = b')
    (h : ∀ s, (blocks n xs).map (words s) = (blocks n ys).map (words s)) : xs = ys := by
  refine eq_of_blocks hxs hlen ?_
  have hcount : (blocks n xs).length = (blocks n ys).length := by
    rw [length_blocks, length_blocks, hlen]
  refine List.ext_getElem hcount fun k hk hk' => ?_
  refine hinj _ _ (blocks_length _ (List.getElem_mem hk)) (blocks_length _ (List.getElem_mem hk'))
    fun s => ?_
  have hget := congrArg (fun words => words[k]?) (h s)
  simpa [hk, hk'] using hget

theorem digest_collide (hlen : m.length = m'.length) (h : digest m = digest m') :
    m = m' ∨ Collide put (digestCalls m) (digestCalls m') := by
  rw [digest_foldl, digest_foldl] at h
  have hpad : (m ++ padding 64 m.length (8 * m.length)).length =
      (m' ++ padding 64 m'.length (8 * m'.length)).length := by
    rw [List.length_append, List.length_append, hlen]
  have hcount : (digestBlocks m).length = (digestBlocks m').length := by
    rw [digestBlocks, digestBlocks, List.length_map, List.length_map, length_blocks, length_blocks,
      hpad]
  obtain ⟨-, hblocks⟩ | hcollide := foldl_collide hcount h
  · have hwhole : (m ++ padding 64 m.length (8 * m.length)).length % 64 = 0 := by
      rw [List.length_append, padding_length]
    have heq := eq_of_words (ι := Unit) hwhole hpad (fun b b' hb hb' hwords =>
      eq_of_wordAt (hb.trans hb'.symm) fun i hi => wordList_inj (hwords ()) (by omega))
      fun _ => hblocks
    exact .inl (List.append_inj heq hlen).1
  · exact .inr hcollide

/-- Messages of one length. -/
theorem laneStates_collide_same (hlen : m.length = m'.length)
    (h : laneStates m (8 * m.length) = laneStates m' (8 * m'.length)) :
    m = m' ∨ ∃ s, Collide put (laneCalls s m) (laneCalls s m') := by
  have hpad : (m ++ padding 1024 m.length (8 * m.length)).length =
      (m' ++ padding 1024 m'.length (8 * m'.length)).length := by
    rw [List.length_append, List.length_append, hlen]
  have hcount : ∀ s, (laneBlocks s m).length = (laneBlocks s m').length := by
    intro s
    rw [laneBlocks, laneBlocks, List.length_map, List.length_map, length_blocks, length_blocks, hpad]
  have hstate : ∀ s, (laneBlocks s m).foldl put initial = (laneBlocks s m').foldl put initial := by
    intro s
    rw [← laneStates_foldl, ← laneStates_foldl, h]
  by_cases hcollide : ∃ s, Collide put (laneCalls s m) (laneCalls s m')
  · exact .inr hcollide
  · have hblocks : ∀ s, laneBlocks s m = laneBlocks s m' := fun s =>
      ((foldl_collide (hcount s) (hstate s)).resolve_right fun hs => hcollide ⟨s, hs⟩).2
    have hwhole : (m ++ padding 1024 m.length (8 * m.length)).length % 1024 = 0 := by
      rw [List.length_append, padding_length]
    have heq := eq_of_words hwhole hpad (fun b b' => eq_of_lanes) hblocks
    exact .inl (List.append_inj heq hlen).1

/-- Messages of two lengths: in some lane the last blocks are not the same. -/
theorem laneStates_collide_length (hm : 8 * m.length < 2 ^ 64) (hm' : 8 * m'.length < 2 ^ 64)
    (hlen : m.length ≠ m'.length)
    (h : laneStates m (8 * m.length) = laneStates m' (8 * m'.length)) :
    ∃ s, Collide put (laneCalls s m) (laneCalls s m') := by
  obtain ⟨xs, b, hpad, hwhole, hlast⟩ := padding_last (n := 1024) (by decide) m (8 * m.length)
  obtain ⟨xs', b', hpad', hwhole', hlast'⟩ := padding_last (n := 1024) (by decide) m' (8 * m'.length)
  have hne : b ++ lengthBytes (8 * m.length) ≠ b' ++ lengthBytes (8 * m'.length) := by
    intro heq
    have hlengths := (List.append_inj' heq (by rw [lengthBytes_length, lengthBytes_length])).2
    have hbits := lengthBytes_inj hm hm' hlengths
    exact hlen (by omega)
  obtain ⟨s, hs⟩ : ∃ s, wordList (lane s (wordAt (b ++ lengthBytes (8 * m.length)))) ≠
      wordList (lane s (wordAt (b' ++ lengthBytes (8 * m'.length)))) := by
    by_contra hsame
    exact hne (eq_of_lanes hlast hlast' fun s => not_not.1 fun hs => hsame ⟨s, hs⟩)
  refine ⟨s, ?_⟩
  have hstate := congrFun h s
  rw [laneStates_foldl, laneStates_foldl, laneBlocks, laneBlocks, hpad, hpad',
    blocks_append hwhole hlast, blocks_append hwhole' hlast', List.map_append, List.map_append]
    at hstate
  rw [laneCalls, laneCalls, laneBlocks, laneBlocks, hpad, hpad', blocks_append hwhole hlast,
    blocks_append hwhole' hlast', List.map_append, List.map_append]
  exact foldl_collide_last hs hstate

theorem laneStates_collide (hm : 8 * m.length < 2 ^ 64) (hm' : 8 * m'.length < 2 ^ 64)
    (h : laneStates m (8 * m.length) = laneStates m' (8 * m'.length)) :
    m = m' ∨ ∃ s, Collide put (laneCalls s m) (laneCalls s m') := by
  by_cases hlen : m.length = m'.length
  · exact laneStates_collide_same hlen h
  · exact .inr (laneStates_collide_length hm hm' hlen h)

/-- Two messages with the same hash in lanes are the same, or two of their blocks collide. -/
theorem multiDigest_collide (hm : 8 * m.length < 2 ^ 64) (hm' : 8 * m'.length < 2 ^ 64)
    (h : multiDigest m = multiDigest m') : m = m' ∨ Collide put (multiCalls m) (multiCalls m') := by
  obtain heq | hcollide := digest_collide
    ((laneBytes_length _).trans (laneBytes_length _).symm) h
  · obtain heq | ⟨s, hcollide⟩ := laneStates_collide hm hm' (laneBytes_inj heq)
    · exact .inl heq
    · have hsub : ∀ m, laneCalls s m ⊆ multiCalls m := fun m c hc =>
        List.mem_append_left _ (List.mem_flatMap.2 ⟨s, List.mem_finRange s, hc⟩)
      exact .inr (hcollide.mono (hsub m) (hsub m'))
  · exact .inr (hcollide.mono (List.subset_append_right _ _) (List.subset_append_right _ _))

end

end Sha256
