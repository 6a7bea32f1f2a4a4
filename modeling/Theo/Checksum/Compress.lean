import Mathlib.Tactic.IntervalCases
import Theo.Lib.Sha256
import Theo.Model.MhSha256

set_option autoImplicit false

/-! # The steps of a block

The code keeps a working variable where it is and lets the next step call it by another name, and keeps
the last 16 words of the schedule only. Step by step that is what a round does (`Follows.step`), so that
a block is compressed as it is to be (`sha256Single_compress`). -/

namespace Theo

open ByteMachine MhSha256 Sha256

/-- The variables in the places that they have behind `t` steps: in each step they move on by one
name. -/
def turned (v : Vars) : Nat → Vector (BitVec 32) 8
  | 0 => #v[v.a, v.b, v.c, v.d, v.e, v.f, v.g, v.h]
  | 1 => #v[v.b, v.c, v.d, v.e, v.f, v.g, v.h, v.a]
  | 2 => #v[v.c, v.d, v.e, v.f, v.g, v.h, v.a, v.b]
  | 3 => #v[v.d, v.e, v.f, v.g, v.h, v.a, v.b, v.c]
  | 4 => #v[v.e, v.f, v.g, v.h, v.a, v.b, v.c, v.d]
  | 5 => #v[v.f, v.g, v.h, v.a, v.b, v.c, v.d, v.e]
  | 6 => #v[v.g, v.h, v.a, v.b, v.c, v.d, v.e, v.f]
  | _ => #v[v.h, v.a, v.b, v.c, v.d, v.e, v.f, v.g]

/-- The state of a hash in an array. -/
def varsOf (digest : Vector (BitVec 32) 8) : Vars :=
  ⟨digest[0], digest[1], digest[2], digest[3], digest[4], digest[5], digest[6], digest[7]⟩

/-- The words of a block as the code reads them. -/
def blockOf (ww : Nat → BitVec 32) (i : Nat) : Word := toBe32 (ww i)

/-- What has become of the state `v` behind `t` steps on the block `ww`. -/
structure Follows (ww : Nat → BitVec 32) (v : Vars) (t : Nat) (st : Steps) : Prop where
  vars : st.vars = turned (rounds (blockOf ww) v t) (t % 8)
  w : ∀ x < t, t ≤ x + 16 → st.W x = schedule (blockOf ww) x

section

variable {ww : Nat → BitVec 32} {v : Vars} {t n : Nat} {st : Steps}

/-! ## The functions of a step -/

/-- Shifting both ways and adding the bits is rotating: no bit comes from both sides. -/
theorem ror32_eq (x : BitVec 32) {r : Nat} (hpos : 0 < r) (hlt : r < 32) :
    ror32 x r = x.rotateRight r := by
  apply BitVec.eq_of_getLsbD_eq
  intro i hi
  rw [ror32, BitVec.getLsbD_rotateRight_of_lt hlt]
  simp only [BitVec.getLsbD_xor, BitVec.getLsbD_ushiftRight, BitVec.getLsbD_shiftLeft]
  by_cases h : i < 32 - r
  · simp [h]
  · have hover : x.getLsbD (r + i) = false := BitVec.getLsbD_of_ge _ _ (by omega)
    simp [h, hi, hover]

theorem S0_eq (w : BitVec 32) : S0 w = smallSigma0 w := by
  rw [S0, smallSigma0, ror32_eq w (by decide) (by decide), ror32_eq w (by decide) (by decide)]

theorem S1_eq (w : BitVec 32) : S1 w = smallSigma1 w := by
  rw [S1, smallSigma1, ror32_eq w (by decide) (by decide), ror32_eq w (by decide) (by decide)]

theorem s0_eq (a : BitVec 32) : s0 a = bigSigma0 a := by
  rw [s0, bigSigma0, ror32_eq a (by decide) (by decide), ror32_eq a (by decide) (by decide),
    ror32_eq a (by decide) (by decide)]

theorem s1_eq (e : BitVec 32) : s1 e = bigSigma1 e := by
  rw [s1, bigSigma1, ror32_eq e (by decide) (by decide), ror32_eq e (by decide) (by decide),
    ror32_eq e (by decide) (by decide)]

theorem ch_eq (e f g : BitVec 32) : ch e f g = choose e f g := by
  rw [ch, choose, BitVec.and_comm g]

/-- The constants are those of the hash. -/
theorem k_eq : ∀ t < 64, k.toList.getD t 0 = roundConstant t := by decide +kernel

theorem h0_eq : varsOf h0 = initial := by decide +kernel

/-! ## One step -/

/-- A step that reads the variables by their names, and writes the two that change. -/
theorem Follows.step (h : Follows ww v t st) (ht : t < 64) {p q : Nat} (hp : t % 8 = p)
    (hp' : (t + 1) % 8 = q) {a b c d e f g j : Fin 8}
    (hread : ∀ u, (turned u p)[a] = u.a ∧ (turned u p)[b] = u.b ∧ (turned u p)[c] = u.c ∧
      (turned u p)[d] = u.d ∧ (turned u p)[e] = u.e ∧ (turned u p)[f] = u.f ∧
      (turned u p)[g] = u.g ∧ (turned u p)[j] = u.h)
    (hwrite : ∀ u x y, ((turned u p).set d x).set j y =
      turned ⟨y, u.a, u.b, u.c, x, u.e, u.f, u.g⟩ q) :
    Follows ww v (t + 1) (MhSha256.step t a b c d e f g j ww st) := by
  obtain ⟨ha, hb, hc, hd, he, hf, hg, hh'⟩ := hread (rounds (blockOf ww) v t)
  have hword : (if t < 16 then toBe32 (ww t)
      else st.W (t - 16) + S0 (st.W (t - 15)) + st.W (t - 7) + S1 (st.W (t - 2))) =
        schedule (blockOf ww) t := by
    split
    · next hlt => rw [schedule_lt hlt, blockOf]
    · next hge =>
        rw [schedule_ge (Nat.not_lt.1 hge), h.w _ (by omega) (by omega), h.w _ (by omega) (by omega),
          h.w _ (by omega) (by omega), h.w _ (by omega) (by omega), S0_eq, S1_eq]
        ac_rfl
  constructor
  · show ((st.vars.set d _).set j _) = _
    rw [h.vars, hp, hp', hwrite, hword, ha, hb, hc, hd, he, hf, hg, hh', s0_eq, s1_eq, ch_eq,
      k_eq t ht]
    rfl
  · intro x hx hle
    show (st.w.set (t % 16) _)[x % 16] = _
    rw [hword, Vector.getElem_set]
    split
    · next heq =>
        -- the only word with this place is the one just written
        have hxt : x = t := by omega
        rw [hxt]
    · next hne =>
        have hlt : x < t := by
          rcases Nat.lt_or_eq_of_le (Nat.le_of_lt_succ hx) with hlt | heq
          · exact hlt
          · exact absurd (heq ▸ rfl) hne
        exact h.w x hlt (by omega)

/-! ## A whole block -/

theorem Follows.steps8 (h : Follows ww v (8 * n) st) (hn : n < 8) :
    Follows ww v (8 * (n + 1)) (MhSha256.steps8 (8 * n) ww st) := by
  have h₁ := h.step (by omega) (p := 0) (q := 1) (a := 0) (b := 1) (c := 2) (d := 3) (e := 4)
    (f := 5) (g := 6) (j := 7) (by omega) (by omega)
    (fun _ => ⟨rfl, rfl, rfl, rfl, rfl, rfl, rfl, rfl⟩) (fun _ _ _ => rfl)
  have h₂ := h₁.step (by omega) (p := 1) (q := 2) (a := 7) (b := 0) (c := 1) (d := 2) (e := 3)
    (f := 4) (g := 5) (j := 6) (by omega) (by omega)
    (fun _ => ⟨rfl, rfl, rfl, rfl, rfl, rfl, rfl, rfl⟩) (fun _ _ _ => rfl)
  have h₃ := h₂.step (by omega) (p := 2) (q := 3) (a := 6) (b := 7) (c := 0) (d := 1) (e := 2)
    (f := 3) (g := 4) (j := 5) (by omega) (by omega)
    (fun _ => ⟨rfl, rfl, rfl, rfl, rfl, rfl, rfl, rfl⟩) (fun _ _ _ => rfl)
  have h₄ := h₃.step (by omega) (p := 3) (q := 4) (a := 5) (b := 6) (c := 7) (d := 0) (e := 1)
    (f := 2) (g := 3) (j := 4) (by omega) (by omega)
    (fun _ => ⟨rfl, rfl, rfl, rfl, rfl, rfl, rfl, rfl⟩) (fun _ _ _ => rfl)
  have h₅ := h₄.step (by omega) (p := 4) (q := 5) (a := 4) (b := 5) (c := 6) (d := 7) (e := 0)
    (f := 1) (g := 2) (j := 3) (by omega) (by omega)
    (fun _ => ⟨rfl, rfl, rfl, rfl, rfl, rfl, rfl, rfl⟩) (fun _ _ _ => rfl)
  have h₆ := h₅.step (by omega) (p := 5) (q := 6) (a := 3) (b := 4) (c := 5) (d := 6) (e := 7)
    (f := 0) (g := 1) (j := 2) (by omega) (by omega)
    (fun _ => ⟨rfl, rfl, rfl, rfl, rfl, rfl, rfl, rfl⟩) (fun _ _ _ => rfl)
  have h₇ := h₆.step (by omega) (p := 6) (q := 7) (a := 2) (b := 3) (c := 4) (d := 5) (e := 6)
    (f := 7) (g := 0) (j := 1) (by omega) (by omega)
    (fun _ => ⟨rfl, rfl, rfl, rfl, rfl, rfl, rfl, rfl⟩) (fun _ _ _ => rfl)
  exact h₇.step (by omega) (p := 7) (q := 0) (a := 1) (b := 2) (c := 3) (d := 4) (e := 5)
    (f := 6) (g := 7) (j := 0) (by omega) (by omega)
    (fun _ => ⟨rfl, rfl, rfl, rfl, rfl, rfl, rfl, rfl⟩) (fun _ _ _ => rfl)

theorem Follows.stepsTo (h : Follows ww v 0 st) (hn : n ≤ 8) :
    Follows ww v (8 * n) (MhSha256.stepsTo ww st n) := by
  induction n with
  | zero => exact h
  | succ n ih => exact (ih (by omega)).steps8 (by omega)

theorem turned_varsOf (digest : Vector (BitVec 32) 8) : turned (varsOf digest) 0 = digest := by
  ext i hi
  interval_cases i
  all_goals rfl

theorem varsOf_injective {digest digest' : Vector (BitVec 32) 8} (h : varsOf digest = varsOf digest') :
    digest = digest' := by
  rw [← turned_varsOf digest, h, turned_varsOf]

/-- A block is compressed, whatever was in the words of the schedule before. -/
theorem stepsTo_compress {data : Nat → BitVec 32} {digest digest' : Vector (BitVec 32) 8}
    {w : Vector (BitVec 32) 16}
    (h : ∀ i, (hi : i < 8) → digest'[i] = digest[i] + (stepsTo data ⟨digest, w⟩ 8).vars[i]) :
    varsOf digest' = compress (blockOf data) (varsOf digest) := by
  have hstart : Follows data (varsOf digest) 0 ⟨digest, w⟩ :=
    ⟨(turned_varsOf digest).symm, fun x hx => absurd hx (Nat.not_lt_zero x)⟩
  have hend := (hstart.stepsTo (n := 8) (Nat.le_refl 8)).vars
  have hsum : digest' = Vector.ofFn fun i => digest[i] + (stepsTo data ⟨digest, w⟩ 8).vars[i] := by
    refine Vector.ext fun i hi => ?_
    rw [h i hi, Vector.getElem_ofFn]
    rfl
  rw [hsum, hend]
  rfl

theorem sha256Single_compress (data : Nat → BitVec 32) (digest : Vector (BitVec 32) 8) :
    varsOf (sha256SingleForMhSha256 data digest) = compress (blockOf data) (varsOf digest) :=
  stepsTo_compress fun _ hi => Vector.getElem_ofFn hi

/-- The block of the message "abc". -/
example : sha256SingleForMhSha256
      (fun i => if i = 0 then 0x80636261 else if i = 15 then 0x18000000 else 0) h0 =
    #v[0xba7816bf, 0x8f01cfea, 0x414140de, 0x5dae2223, 0xb00361a3, 0x96177a9c, 0xb410ff61,
      0xf20015ad] := by
  decide +kernel

end

end Theo
