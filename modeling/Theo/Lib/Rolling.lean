import Mathlib.Data.List.Basic
import Mathlib.Tactic.Common

set_option autoImplicit false

/-! # Rolling hashes

The hash of a window of symbols is a fold that rotates by one bit and adds the table entry of the next
symbol, addition being exclusive or (a cyclic polynomial). Because rotation is linear, the hash of the
window one symbol further on is computed from the last one, the symbol that enters and the symbol that
leaves (`windowHash_roll`). -/

namespace RollingHash

variable {β : Type} {n : Nat}

/-! ## Rotation -/

/-- The bits of `v`, rotated left by `k`. -/
def rotl (v : BitVec n) (k : Nat) : BitVec n := v <<< k ||| v >>> (n - k)

theorem getLsbD_rotl (v : BitVec n) {k i : Nat} (hk : k ≤ n) (hi : i < n) :
    (rotl v k).getLsbD i = if i < k then v.getLsbD (n - k + i) else v.getLsbD (i - k) := by
  unfold rotl
  rw [BitVec.getLsbD_or, BitVec.getLsbD_shiftLeft, BitVec.getLsbD_ushiftRight]
  by_cases h : i < k
  · rw [if_pos h]
    simp [h]
  · rw [if_neg h]
    have hover : v.getLsbD (n - k + i) = false := BitVec.getLsbD_of_ge _ _ (by omega)
    simp [h, hi, hover]

theorem rotl_zero (v : BitVec n) : rotl v 0 = v := by
  apply BitVec.eq_of_getLsbD_eq
  intro i hi
  rw [getLsbD_rotl v (Nat.zero_le n) hi, if_neg (Nat.not_lt_zero i), Nat.sub_zero]

/-- Rotation is linear. -/
theorem rotl_xor (v v' : BitVec n) {k : Nat} (hk : k ≤ n) :
    rotl (v ^^^ v') k = rotl v k ^^^ rotl v' k := by
  apply BitVec.eq_of_getLsbD_eq
  intro i hi
  rw [BitVec.getLsbD_xor, getLsbD_rotl _ hk hi, getLsbD_rotl _ hk hi, getLsbD_rotl _ hk hi]
  split
  · rw [BitVec.getLsbD_xor]
  · rw [BitVec.getLsbD_xor]

/-- Rotations add up. -/
theorem rotl_rotl (v : BitVec n) {j k : Nat} (h : j + k ≤ n) : rotl (rotl v j) k = rotl v (j + k) := by
  apply BitVec.eq_of_getLsbD_eq
  intro i hi
  rw [getLsbD_rotl _ (by omega) hi, getLsbD_rotl _ h hi]
  by_cases hik : i < k
  · rw [if_pos hik, if_pos (by omega), getLsbD_rotl _ (by omega) (by omega), if_neg (by omega)]
    congr 1
    omega
  · rw [if_neg hik, getLsbD_rotl _ (by omega) (by omega)]
    by_cases hij : i < j + k
    · rw [if_pos (by omega), if_pos hij]
      congr 1
      omega
    · rw [if_neg (by omega), if_neg hij]
      congr 1
      omega

/-! ## Windows -/

/-- The hash `h`, carried on over a window. -/
def hashFrom (table : β → BitVec n) (h : BitVec n) (window : List β) : BitVec n :=
  window.foldl (fun h b => rotl h 1 ^^^ table b) h

/-- The hash of a window. -/
def windowHash (table : β → BitVec n) (window : List β) : BitVec n := hashFrom table 0 window

variable (table : β → BitVec n)

theorem hashFrom_append (h : BitVec n) (xs ys : List β) :
    hashFrom table h (xs ++ ys) = hashFrom table (hashFrom table h xs) ys := List.foldl_append

/-- What a window starts from is rotated by its length. -/
theorem hashFrom_xor (h h' : BitVec n) {window : List β} (hlen : window.length ≤ n) :
    hashFrom table (h ^^^ h') window = rotl h window.length ^^^ hashFrom table h' window := by
  induction window generalizing h h' with
  | nil => rw [List.length_nil, rotl_zero]; rfl
  | cons b window ih =>
      rw [List.length_cons] at hlen ⊢
      calc hashFrom table (h ^^^ h') (b :: window)
          = hashFrom table (rotl h 1 ^^^ (rotl h' 1 ^^^ table b)) window := by
            rw [hashFrom, List.foldl_cons, rotl_xor _ _ (by omega), BitVec.xor_assoc]
            rfl
        _ = rotl (rotl h 1) window.length ^^^ hashFrom table h' (b :: window) :=
            ih (rotl h 1) (rotl h' 1 ^^^ table b) (by omega)
        _ = rotl h (window.length + 1) ^^^ hashFrom table h' (b :: window) := by
            rw [rotl_rotl _ (by omega), Nat.add_comm 1]

/-- The window moves on by one symbol. -/
theorem windowHash_roll (old new : β) {window : List β} (hlen : window.length + 1 ≤ n) :
    windowHash table (window ++ [new]) = rotl (windowHash table (old :: window)) 1 ^^^
      (table new ^^^ rotl (table old) (window.length + 1)) := by
  have hold : windowHash table (old :: window) =
      rotl (table old) window.length ^^^ windowHash table window := by
    have hzero : rotl (0 : BitVec n) 1 ^^^ table old = table old ^^^ 0 := by
      simp [rotl]
    rw [windowHash, hashFrom, List.foldl_cons, hzero]
    exact hashFrom_xor table _ _ (by omega)
  have hnew : windowHash table (window ++ [new]) = rotl (windowHash table window) 1 ^^^ table new :=
    hashFrom_append table 0 window [new]
  have hcancel : ∀ a b c : BitVec n, b ^^^ c = (a ^^^ b) ^^^ (c ^^^ a) := by
    intro a b c
    rw [BitVec.xor_comm a b, BitVec.xor_assoc, BitVec.xor_comm c a, ← BitVec.xor_assoc a a c,
      BitVec.xor_self, BitVec.zero_xor]
  rw [hnew, hold, rotl_xor _ _ (by omega), rotl_rotl _ (by omega)]
  exact hcancel _ _ _

/-! ## Searching -/

/-- The least offset from 1 up to `len` at which `hit` holds. -/
def firstHit (hit : Nat → Bool) (len : Nat) : Option Nat := (List.range' 1 len).find? hit

variable {hit : Nat → Bool} {len len' o : Nat}

theorem firstHit_eq_some : firstHit hit len = some o ↔
    hit o = true ∧ 1 ≤ o ∧ o ≤ len ∧ ∀ j, 1 ≤ j → j < o → hit j = false := by
  rw [firstHit, List.find?_range'_eq_some, List.mem_range'_1]
  constructor
  · rintro ⟨hhit, ⟨hlo, hhi⟩, hleast⟩
    exact ⟨hhit, hlo, by omega, fun j hj hjo => by simpa using hleast j hj hjo⟩
  · rintro ⟨hhit, hlo, hhi, hleast⟩
    exact ⟨hhit, ⟨hlo, by omega⟩, fun j hj hjo => by simpa using hleast j hj hjo⟩

theorem firstHit_eq_none : firstHit hit len = none ↔ ∀ j, 1 ≤ j → j ≤ len → hit j = false := by
  rw [firstHit, List.find?_eq_none]
  constructor
  · intro h j hlo hhi
    simpa using h j (List.mem_range'_1.2 ⟨hlo, by omega⟩)
  · intro h j hj
    obtain ⟨hlo, hhi⟩ := List.mem_range'_1.1 hj
    simpa using h j hlo (by omega)

/-- What is found in front of the end of a shorter search is found by a longer one. -/
theorem firstHit_mono (h : firstHit hit len = some o) (hle : len ≤ len') :
    firstHit hit len' = some o := by
  obtain ⟨hhit, hlo, hhi, hleast⟩ := firstHit_eq_some.1 h
  exact firstHit_eq_some.2 ⟨hhit, hlo, Nat.le_trans hhi hle, hleast⟩

theorem firstHit_congr {hit' : Nat → Bool} (h : ∀ j, 1 ≤ j → j ≤ len → hit j = hit' j) :
    firstHit hit len = firstHit hit' len := by
  cases hfind : firstHit hit' len with
  | none =>
      refine firstHit_eq_none.2 fun j hlo hhi => ?_
      rw [h j hlo hhi, firstHit_eq_none.1 hfind j hlo hhi]
  | some o =>
      obtain ⟨hhit, hlo, hhi, hleast⟩ := firstHit_eq_some.1 hfind
      refine firstHit_eq_some.2 ⟨by rw [h o hlo hhi, hhit], hlo, hhi, fun j hj hjo => ?_⟩
      rw [h j hj (by omega), hleast j hj hjo]

end RollingHash
