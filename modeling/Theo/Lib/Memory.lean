import Mathlib.Algebra.Group.Int.Even
import Mathlib.Data.List.Basic
import Mathlib.Tactic.Common

set_option autoImplicit false

/-! # Byte-addressed memory

A flat memory of bytes with little-endian 32-bit and 64-bit words and bit fields inside a word.
Every operation is total: a program that leaves its own object reads and writes the neighbouring
bytes, as compiled C does. Frame facts are stated over address intervals (`Mem.Agree`), so that a
proof can say which bytes an update leaves alone without naming the bytes it touches. -/

namespace ByteMachine

/-- A memory: one byte at every address. -/
abbrev Mem := Nat → UInt8

namespace Mem

/-- Overwrite the bytes from `addr` on. -/
def write (m : Mem) (addr : Nat) (bytes : List UInt8) : Mem :=
  fun a => if addr ≤ a then (bytes[a - addr]?).getD (m a) else m a

/-- The `n` bytes from `addr` on. -/
def read (m : Mem) (addr n : Nat) : List UInt8 :=
  (List.range n).map fun i => m (addr + i)

/-- The little-endian bytes of a 32-bit word. -/
def bytes32 (v : Nat) : List UInt8 :=
  [UInt8.ofNat v, UInt8.ofNat (v / 2 ^ 8), UInt8.ofNat (v / 2 ^ 16), UInt8.ofNat (v / 2 ^ 24)]

def load32 (m : Mem) (addr : Nat) : Nat :=
  (m addr).toNat + 2 ^ 8 * (m (addr + 1)).toNat + 2 ^ 16 * (m (addr + 2)).toNat +
    2 ^ 24 * (m (addr + 3)).toNat

/-- The little-endian bytes of a 64-bit word. -/
def bytes64 (v : Nat) : List UInt8 := bytes32 v ++ bytes32 (v / 2 ^ 32)

def load64 (m : Mem) (addr : Nat) : Nat :=
  m.load32 addr + 2 ^ 32 * m.load32 (addr + 4)

/-- `m` and `m'` hold the same bytes at the addresses from `lo` up to, not including, `hi`. -/
def Agree (m m' : Mem) (lo hi : Nat) : Prop :=
  ∀ a, lo ≤ a → a < hi → m' a = m a

/-! ## Frames -/

theorem Agree.refl (m : Mem) (lo hi : Nat) : m.Agree m lo hi := fun _ _ _ => rfl

theorem Agree.trans {m m' m'' : Mem} {lo hi : Nat} (h : m.Agree m' lo hi)
    (h' : m'.Agree m'' lo hi) : m.Agree m'' lo hi :=
  fun a hlo hhi => (h' a hlo hhi).trans (h a hlo hhi)

theorem Agree.mono {m m' : Mem} {lo hi lo' hi' : Nat} (h : m.Agree m' lo hi)
    (hlo : lo ≤ lo') (hhi : hi' ≤ hi) : m.Agree m' lo' hi' :=
  fun a ha ha' => h a (by omega) (by omega)

theorem Agree.symm {m m' : Mem} {lo hi : Nat} (h : m.Agree m' lo hi) : m'.Agree m lo hi :=
  fun a hlo hhi => (h a hlo hhi).symm

/-- A write leaves every interval beside it alone. -/
theorem write_agree (m : Mem) (addr : Nat) (bytes : List UInt8) {lo hi : Nat}
    (h : hi ≤ addr ∨ addr + bytes.length ≤ lo) : m.Agree (m.write addr bytes) lo hi := by
  intro a hlo hhi
  unfold write
  split
  · rw [List.getElem?_eq_none (by omega)]
    rfl
  · rfl

theorem write_apply (m : Mem) (addr : Nat) (bytes : List UInt8) (i : Nat)
    (h : i < bytes.length) : m.write addr bytes (addr + i) = bytes[i] := by
  unfold write
  rw [if_pos (by omega), Nat.add_sub_cancel_left, List.getElem?_eq_getElem h]
  rfl

@[simp]
theorem write_nil (m : Mem) (addr : Nat) : m.write addr [] = m := by
  funext a
  simp [write]

/-- A write goes byte by byte. -/
theorem write_cons (m : Mem) (addr : Nat) (b : UInt8) (bytes : List UInt8) :
    m.write addr (b :: bytes) = (m.write addr [b]).write (addr + 1) bytes := by
  funext a
  unfold write
  rcases Nat.lt_trichotomy a addr with h | h | h
  · rw [if_neg (by omega), if_neg (by omega), if_neg (by omega)]
  · subst h
    simp [show ¬ a + 1 ≤ a by omega]
  · have hsub : a - addr = (a - (addr + 1)) + 1 := by omega
    rw [if_pos (by omega), if_pos (by omega), if_pos (by omega), hsub, List.getElem?_cons_succ]
    simp

/-- A block is written piece by piece. -/
theorem write_append (m : Mem) (addr : Nat) (bytes bytes' : List UInt8) :
    m.write addr (bytes ++ bytes') = (m.write addr bytes).write (addr + bytes.length) bytes' := by
  induction bytes generalizing m addr with
  | nil => simp
  | cons b bytes ih =>
      rw [List.cons_append, write_cons, ih, ← write_cons, List.length_cons]
      congr 1
      omega

/-! ## Reading -/

@[simp]
theorem read_length (m : Mem) (addr n : Nat) : (m.read addr n).length = n := by
  simp [read]

theorem read_getElem (m : Mem) (addr n i : Nat) (h : i < (m.read addr n).length) :
    (m.read addr n)[i] = m (addr + i) := by
  simp [read]

theorem Agree.read {m m' : Mem} {addr n : Nat} (h : m.Agree m' addr (addr + n)) :
    m'.read addr n = m.read addr n := by
  apply List.map_congr_left
  intro i hi
  exact h _ (by omega) (by have := List.mem_range.1 hi; omega)

theorem read_write_self (m : Mem) (addr : Nat) (bytes : List UInt8) :
    (m.write addr bytes).read addr bytes.length = bytes := by
  apply List.ext_getElem (by simp)
  intro i h₁ h₂
  rw [read_getElem]
  exact write_apply m addr bytes i h₂

theorem Agree.load32 {m m' : Mem} {addr : Nat} (h : m.Agree m' addr (addr + 4)) :
    m'.load32 addr = m.load32 addr := by
  unfold Mem.load32
  rw [h addr (by omega) (by omega), h (addr + 1) (by omega) (by omega),
    h (addr + 2) (by omega) (by omega), h (addr + 3) (by omega) (by omega)]

theorem load32_lt (m : Mem) (addr : Nat) : m.load32 addr < 2 ^ 32 := by
  unfold load32
  have h0 := (m addr).toNat_lt
  have h1 := (m (addr + 1)).toNat_lt
  have h2 := (m (addr + 2)).toNat_lt
  have h3 := (m (addr + 3)).toNat_lt
  omega

theorem byte_congr {v v' : Nat} (h : v % 2 ^ 8 = v' % 2 ^ 8) : UInt8.ofNat v = UInt8.ofNat v' := by
  apply UInt8.toNat_inj.1
  rw [UInt8.toNat_ofNat', UInt8.toNat_ofNat', h]

/-- A word has the bytes of its low 32 bits. -/
theorem bytes32_congr {v v' : Nat} (h : v % 2 ^ 32 = v' % 2 ^ 32) : bytes32 v = bytes32 v' := by
  have h₀ : v % 2 ^ 8 = v' % 2 ^ 8 := by omega
  have h₁ : v / 2 ^ 8 % 2 ^ 8 = v' / 2 ^ 8 % 2 ^ 8 := by omega
  have h₂ : v / 2 ^ 16 % 2 ^ 8 = v' / 2 ^ 16 % 2 ^ 8 := by omega
  have h₃ : v / 2 ^ 24 % 2 ^ 8 = v' / 2 ^ 24 % 2 ^ 8 := by omega
  rw [bytes32, bytes32, byte_congr h₀, byte_congr h₁, byte_congr h₂,
    byte_congr h₃]

@[simp]
theorem bytes32_length (v : Nat) : (bytes32 v).length = 4 := rfl

theorem load32_write_self (m : Mem) (addr v : Nat) :
    (m.write addr (bytes32 v)).load32 addr = v % 2 ^ 32 := by
  have h0 : m.write addr (bytes32 v) addr = UInt8.ofNat v :=
    write_apply m addr (bytes32 v) 0 (by simp)
  have h1 : m.write addr (bytes32 v) (addr + 1) = UInt8.ofNat (v / 2 ^ 8) :=
    write_apply m addr (bytes32 v) 1 (by simp)
  have h2 : m.write addr (bytes32 v) (addr + 2) = UInt8.ofNat (v / 2 ^ 16) :=
    write_apply m addr (bytes32 v) 2 (by simp)
  have h3 : m.write addr (bytes32 v) (addr + 3) = UInt8.ofNat (v / 2 ^ 24) :=
    write_apply m addr (bytes32 v) 3 (by simp)
  unfold load32
  rw [h0, h1, h2, h3]
  simp only [UInt8.toNat_ofNat']
  omega

theorem Agree.load64 {m m' : Mem} {addr : Nat} (h : m.Agree m' addr (addr + 8)) :
    m'.load64 addr = m.load64 addr := by
  unfold Mem.load64
  rw [(h.mono (Nat.le_refl _) (by omega)).load32, (h.mono (by omega) (by omega)).load32]

@[simp]
theorem bytes64_length (v : Nat) : (bytes64 v).length = 8 := rfl

theorem load64_write_self (m : Mem) (addr v : Nat) :
    (m.write addr (bytes64 v)).load64 addr = v % 2 ^ 64 := by
  have hlow : ((m.write addr (bytes32 v)).write (addr + 4) (bytes32 (v / 2 ^ 32))).load32 addr =
      v % 2 ^ 32 := by
    rw [(write_agree _ _ _ (Or.inl (Nat.le_refl _))).load32, load32_write_self]
  rw [bytes64, write_append, bytes32_length, load64, hlow, load32_write_self]
  omega

/-! ## Cleared memory -/

/-- The bytes from `lo` up to `hi` are zero. -/
def Zero (m : Mem) (lo hi : Nat) : Prop := ∀ a, lo ≤ a → a < hi → m a = 0

theorem Zero.mono {m : Mem} {lo hi lo' hi' : Nat} (h : m.Zero lo hi) (hlo : lo ≤ lo')
    (hhi : hi' ≤ hi) : m.Zero lo' hi' := fun a ha ha' => h a (by omega) (by omega)

theorem Agree.zero {m m' : Mem} {lo hi : Nat} (h : m.Agree m' lo hi) (hz : m.Zero lo hi) :
    m'.Zero lo hi := fun a hlo hhi => by rw [h a hlo hhi, hz a hlo hhi]

theorem Zero.load32 {m : Mem} {addr : Nat} (h : m.Zero addr (addr + 4)) : m.load32 addr = 0 := by
  unfold Mem.load32
  rw [h addr (by omega) (by omega), h (addr + 1) (by omega) (by omega),
    h (addr + 2) (by omega) (by omega), h (addr + 3) (by omega) (by omega)]
  rfl

theorem Zero.load64 {m : Mem} {addr : Nat} (h : m.Zero addr (addr + 8)) : m.load64 addr = 0 := by
  unfold Mem.load64
  rw [(h.mono (Nat.le_refl _) (by omega)).load32, (h.mono (by omega) (by omega)).load32, Nat.mul_zero]

/-- A write of zeros leaves a byte alone or clears it. -/
theorem write_replicate_zero (m : Mem) (addr n a : Nat) :
    m.write addr (List.replicate n 0) a = if addr ≤ a ∧ a < addr + n then 0 else m a := by
  unfold write
  by_cases hlo : addr ≤ a
  · rw [if_pos hlo]
    by_cases hhi : a < addr + n
    · rw [if_pos ⟨hlo, hhi⟩, List.getElem?_replicate, if_pos (by omega)]
      rfl
    · rw [if_neg (by omega), List.getElem?_replicate, if_neg (by omega)]
      rfl
  · rw [if_neg hlo, if_neg (by omega)]

theorem write_zero (m : Mem) (addr n : Nat) :
    (m.write addr (List.replicate n 0)).Zero addr (addr + n) := by
  intro a hlo hhi
  rw [write_replicate_zero, if_pos ⟨hlo, hhi⟩]

theorem Zero.write {m : Mem} {lo hi : Nat} (h : m.Zero lo hi) (addr n : Nat) :
    (m.write addr (List.replicate n 0)).Zero lo hi := by
  intro a hlo hhi
  rw [write_replicate_zero]
  split
  · rfl
  · exact h a hlo hhi

/-- `m'` is `m` with some of its bytes cleared. -/
def Cleared (m m' : Mem) : Prop := ∀ a, m' a = m a ∨ m' a = 0

theorem cleared_write (m : Mem) (addr n : Nat) : m.Cleared (m.write addr (List.replicate n 0)) := by
  intro a
  rw [write_replicate_zero]
  split
  · exact Or.inr rfl
  · exact Or.inl rfl

/-- The bits of a word, byte by byte. -/
theorem load32_testBit (m : Mem) (addr i : Nat) : (m.load32 addr).testBit i =
    if i < 8 then (m addr).toNat.testBit i
    else if i - 8 < 8 then (m (addr + 1)).toNat.testBit (i - 8)
    else if i - 8 - 8 < 8 then (m (addr + 2)).toNat.testBit (i - 8 - 8)
    else (m (addr + 3)).toNat.testBit (i - 8 - 8 - 8) := by
  have hword : m.load32 addr = 2 ^ 8 * (2 ^ 8 * (2 ^ 8 * (m (addr + 3)).toNat +
      (m (addr + 2)).toNat) + (m (addr + 1)).toNat) + (m addr).toNat := by
    unfold load32
    omega
  rw [hword, Nat.testBit_two_pow_mul_add _ (UInt8.toNat_lt _),
    Nat.testBit_two_pow_mul_add _ (UInt8.toNat_lt _),
    Nat.testBit_two_pow_mul_add _ (UInt8.toNat_lt _)]

theorem Cleared.byte_testBit {m m' : Mem} (h : m.Cleared m') {a i : Nat}
    (hbit : (m a).toNat.testBit i = false) : (m' a).toNat.testBit i = false := by
  rcases h a with hsame | hzero
  · rw [hsame, hbit]
  · rw [hzero]
    exact Nat.zero_testBit i

theorem Cleared.testBit {m m' : Mem} (h : m.Cleared m') {addr i : Nat}
    (hbit : (m.load32 addr).testBit i = false) : (m'.load32 addr).testBit i = false := by
  rw [load32_testBit] at hbit ⊢
  split at hbit
  · next hi => rw [if_pos hi, h.byte_testBit hbit]
  · next hi =>
      rw [if_neg hi]
      split at hbit
      · next hi' => rw [if_pos hi', h.byte_testBit hbit]
      · next hi' =>
          rw [if_neg hi']
          split at hbit
          · next hi'' => rw [if_pos hi'', h.byte_testBit hbit]
          · next hi'' => rw [if_neg hi'', h.byte_testBit hbit]

theorem Cleared.load32 {m m' : Mem} (h : m.Cleared m') {addr : Nat} (hz : m.load32 addr = 0) :
    m'.load32 addr = 0 := by
  apply Nat.eq_of_testBit_eq
  intro i
  rw [Nat.zero_testBit]
  refine h.testBit ?_
  rw [hz, Nat.zero_testBit]

/-! ## Moving a memory -/

/-- The memory from `base` on. -/
def shift (m : Mem) (base : Nat) : Mem := fun a => m (base + a)

theorem shift_load32 (m : Mem) (base addr : Nat) :
    (m.shift base).load32 addr = m.load32 (base + addr) := rfl

theorem shift_load64 (m : Mem) (base addr : Nat) :
    (m.shift base).load64 addr = m.load64 (base + addr) := rfl

theorem shift_read (m : Mem) (base addr n : Nat) :
    (m.shift base).read addr n = m.read (base + addr) n := by
  simp only [read, shift, Nat.add_assoc]

end Mem

/-! ## Bit fields of a word -/

/-- The `n`-bit field of `w` that starts at bit `lo`. -/
def getBits (w lo n : Nat) : Nat := w / 2 ^ lo % 2 ^ n

/-- Store `v`, cut to `n` bits, in the field of `w` that starts at bit `lo`. -/
def setBits (w lo n v : Nat) : Nat :=
  w % 2 ^ lo + 2 ^ lo * (v % 2 ^ n + 2 ^ n * (w / 2 ^ (lo + n)))

/-- The bits of a field. -/
theorem getBits_testBit (w lo n i : Nat) :
    (getBits w lo n).testBit i = (decide (i < n) && w.testBit (i + lo)) := by
  rw [getBits, Nat.testBit_mod_two_pow, Nat.testBit_div_two_pow]

/-- A field of zero is one of zero when bytes are cleared. -/
theorem Mem.Cleared.getBits {m m' : Mem} (h : m.Cleared m') {addr lo n : Nat}
    (hz : getBits (m.load32 addr) lo n = 0) : getBits (m'.load32 addr) lo n = 0 := by
  apply Nat.eq_of_testBit_eq
  intro i
  have hbit : (ByteMachine.getBits (m.load32 addr) lo n).testBit i = false := by
    rw [hz, Nat.zero_testBit]
  rw [Nat.zero_testBit]
  rw [getBits_testBit] at hbit ⊢
  rcases Bool.and_eq_false_iff.1 hbit with hout | hclear
  · rw [hout, Bool.false_and]
  · rw [h.testBit hclear, Bool.and_false]

theorem setBits_div (w lo n v : Nat) :
    setBits w lo n v / 2 ^ lo = v % 2 ^ n + 2 ^ n * (w / 2 ^ (lo + n)) := by
  have hpos : 0 < 2 ^ lo := Nat.two_pow_pos lo
  unfold setBits
  rw [Nat.add_mul_div_left _ _ hpos, Nat.div_eq_of_lt (Nat.mod_lt _ hpos), Nat.zero_add]

/-- A field reads back what was stored in it, cut to its width. -/
theorem getBits_setBits_self (w lo n v : Nat) : getBits (setBits w lo n v) lo n = v % 2 ^ n := by
  unfold getBits
  rw [setBits_div, Nat.add_mul_mod_self_left, Nat.mod_mod]

/-- Storing a field leaves the fields above it alone. -/
theorem getBits_setBits_above (w v : Nat) {lo n lo' : Nat} (n' : Nat) (h : lo + n ≤ lo') :
    getBits (setBits w lo n v) lo' n' = getBits w lo' n' := by
  have hpos : 0 < 2 ^ n := Nat.two_pow_pos n
  obtain ⟨d, rfl⟩ := Nat.exists_eq_add_of_le h
  have hdiv : setBits w lo n v / 2 ^ (lo + n + d) = w / 2 ^ (lo + n + d) := by
    calc setBits w lo n v / 2 ^ (lo + n + d)
        = setBits w lo n v / 2 ^ lo / 2 ^ n / 2 ^ d := by
          rw [Nat.div_div_eq_div_mul, Nat.div_div_eq_div_mul, Nat.pow_add, Nat.pow_add,
            Nat.mul_assoc]
      _ = w / 2 ^ (lo + n) / 2 ^ d := by
          rw [setBits_div, Nat.add_mul_div_left _ _ hpos, Nat.div_eq_of_lt (Nat.mod_lt _ hpos),
            Nat.zero_add]
      _ = w / 2 ^ (lo + n + d) := by
          rw [Nat.div_div_eq_div_mul, Nat.pow_add 2 (lo + n) d]
  unfold getBits
  rw [hdiv]

/-- Storing a field leaves the fields below it alone. -/
theorem getBits_setBits_below (w v : Nat) {lo lo' n' : Nat} (n : Nat) (h : lo' + n' ≤ lo) :
    getBits (setBits w lo n v) lo' n' = getBits w lo' n' := by
  have hmod : setBits w lo n v % 2 ^ lo = w % 2 ^ lo := by
    unfold setBits
    rw [Nat.add_mul_mod_self_left, Nat.mod_mod]
  have hdvd : 2 ^ lo' * 2 ^ n' ∣ 2 ^ lo := by
    rw [← Nat.pow_add]
    exact Nat.pow_dvd_pow 2 h
  unfold getBits
  rw [← Nat.mod_mul_right_div_self, ← Nat.mod_mul_right_div_self, ← Nat.mod_mod_of_dvd _ hdvd,
    hmod, Nat.mod_mod_of_dvd _ hdvd]

/-- A field store stays inside the word. -/
theorem setBits_lt {w lo n k : Nat} (v : Nat) (hw : w < 2 ^ k) (h : lo + n ≤ k) :
    setBits w lo n v < 2 ^ k := by
  obtain ⟨d, rfl⟩ := Nat.exists_eq_add_of_le h
  have hhigh : w / 2 ^ (lo + n) < 2 ^ d := by
    apply Nat.div_lt_of_lt_mul
    rwa [← Nat.pow_add]
  have hlow : w % 2 ^ lo < 2 ^ lo := Nat.mod_lt _ (Nat.two_pow_pos lo)
  have hmid : v % 2 ^ n < 2 ^ n := Nat.mod_lt _ (Nat.two_pow_pos n)
  have hupper : v % 2 ^ n + 2 ^ n * (w / 2 ^ (lo + n)) < 2 ^ (n + d) :=
    calc v % 2 ^ n + 2 ^ n * (w / 2 ^ (lo + n))
        < 2 ^ n * (w / 2 ^ (lo + n) + 1) := by
          rw [Nat.mul_add, Nat.mul_one]
          omega
      _ ≤ 2 ^ n * 2 ^ d := Nat.mul_le_mul_left _ hhigh
      _ = 2 ^ (n + d) := (Nat.pow_add 2 n d).symm
  calc setBits w lo n v
      < 2 ^ lo * (v % 2 ^ n + 2 ^ n * (w / 2 ^ (lo + n)) + 1) := by
        unfold setBits
        rw [Nat.mul_add (2 ^ lo) _ 1, Nat.mul_one]
        omega
    _ ≤ 2 ^ lo * 2 ^ (n + d) := Nat.mul_le_mul_left _ hupper
    _ = 2 ^ (lo + n + d) := by rw [← Nat.pow_add, Nat.add_assoc]

end ByteMachine
