import Mathlib.Algebra.Ring.Nat
import Theo.Lib.Segment

set_option autoImplicit false

/-! # Streams in blocks

A hash takes its message in blocks of one size, and keeps what is left until there is more. So the state
behind a message does not depend on the pieces that it came in (`absorb_append`). At the end the message
is padded with a byte that marks its end, zeroes, and its length, to one or two last blocks
(`absorb_padding`). -/

namespace Segmentation

section Blocks

variable {α σ : Type}

theorem length_flatten_of_length {n : Nat} {bs : List (List α)} (h : ∀ b ∈ bs, b.length = n) :
    bs.flatten.length = n * bs.length := by
  induction bs with
  | nil => rfl
  | cons b bs ih =>
      rw [List.forall_mem_cons] at h
      rw [List.flatten_cons, List.length_append, ih h.2, h.1, List.length_cons, Nat.mul_succ]
      omega

variable (n : Nat) [NeZero n]

/-- Cutting off a block as soon as there is one. -/
def blockCutter (α : Type) (n : Nat) [NeZero n] : Cutter α where
  cut xs := if n ≤ xs.length then some n else none
  pos := by
    intro xs k h
    split at h
    · exact Option.some.inj h ▸ Nat.pos_of_ne_zero (NeZero.ne n)
    · cases h
  le := by
    intro xs k h
    split at h
    · next hle => exact Option.some.inj h ▸ hle
    · cases h

/-- The blocks of a stream. -/
def blocks (xs : List α) : List (List α) := (blockCutter α n).segments xs

/-- What is left behind them. -/
def remainder (xs : List α) : List α := (blockCutter α n).rest xs

/-- The state behind the blocks of a stream. -/
def absorb (f : σ → List α → σ) (a : σ) (xs : List α) : σ := (blocks n xs).foldl f a

variable {n} {xs ys b : List α} {f : σ → List α → σ} {a : σ}

theorem blockCutter_some (h : n ≤ xs.length) : (blockCutter α n).cut xs = some n := if_pos h

theorem blockCutter_none (h : xs.length < n) : (blockCutter α n).cut xs = none :=
  if_neg (Nat.not_le.2 h)

theorem blockCutter_stable : (blockCutter α n).Stable := by
  intro xs ys k h
  have hle := (blockCutter α n).le h
  have hpos : n ≤ xs.length := by
    by_contra hlt
    rw [blockCutter_none (Nat.not_le.1 hlt)] at h
    cases h
  rw [blockCutter_some hpos] at h
  rw [blockCutter_some (by rw [List.length_append]; omega), h]

theorem blocks_short (h : xs.length < n) : blocks n xs = [] :=
  Cutter.segments_none (blockCutter_none h)

theorem remainder_short (h : xs.length < n) : remainder n xs = xs :=
  Cutter.rest_none (blockCutter_none h)

/-- A block in front. -/
theorem blocks_cons (h : b.length = n) : blocks n (b ++ xs) = b :: blocks n xs := by
  rw [blocks, Cutter.segments_some (n := n) (blockCutter_some (by rw [List.length_append]; omega)),
    List.take_left' h, List.drop_left' h, blocks]

theorem remainder_cons (h : b.length = n) : remainder n (b ++ xs) = remainder n xs := by
  rw [remainder, Cutter.rest_some (n := n) (blockCutter_some (by rw [List.length_append]; omega)),
    List.drop_left' h, remainder]

theorem blocks_length : ∀ b ∈ blocks n xs, b.length = n := by
  intro b hb
  obtain ⟨ys, hcut, -⟩ := Cutter.mem_segments hb
  by_cases hle : n ≤ ys.length
  · rw [blockCutter_some hle] at hcut
    exact (Option.some.inj hcut).symm
  · rw [blockCutter_none (Nat.not_le.1 hle)] at hcut
    cases hcut

theorem remainder_lt : (remainder n xs).length < n := by
  have hcut := (blockCutter α n).cut_rest xs
  by_contra hle
  rw [← remainder, blockCutter_some (Nat.not_lt.1 hle)] at hcut
  cases hcut

theorem remainder_length : (remainder n xs).length = xs.length % n := by
  have hsplit := congrArg List.length ((blockCutter α n).flatten_append_rest xs)
  rw [List.length_append, ← blocks, ← remainder, length_flatten_of_length blocks_length] at hsplit
  rw [← hsplit, Nat.mul_add_mod, Nat.mod_eq_of_lt remainder_lt]

theorem flatten_blocks : (blocks n xs).flatten = xs.take (n * (xs.length / n)) := by
  have hsplit : (blocks n xs).flatten ++ remainder n xs = xs := (blockCutter α n).flatten_append_rest xs
  have hlen := congrArg List.length hsplit
  have hdiv := Nat.div_add_mod xs.length n
  rw [List.length_append, remainder_length] at hlen
  have hfront : (blocks n xs).flatten.length = n * (xs.length / n) := by omega
  have htake : ((blocks n xs).flatten ++ remainder n xs).take (n * (xs.length / n)) =
      (blocks n xs).flatten := List.take_left' hfront
  rw [hsplit] at htake
  exact htake.symm

theorem remainder_eq_drop : remainder n xs = xs.drop (n * (xs.length / n)) := by
  have hsplit : (blocks n xs).flatten ++ remainder n xs = xs := (blockCutter α n).flatten_append_rest xs
  rw [flatten_blocks] at hsplit
  exact List.append_cancel_left (hsplit.trans (List.take_append_drop _ xs).symm)

theorem length_blocks : (blocks n xs).length = xs.length / n := by
  have hlen : (blocks n xs).flatten.length = (xs.take (n * (xs.length / n))).length :=
    congrArg List.length flatten_blocks
  rw [length_flatten_of_length blocks_length, List.length_take,
    Nat.min_eq_left (Nat.mul_div_le _ _)] at hlen
  exact Nat.eq_of_mul_eq_mul_left (Nat.pos_of_ne_zero (NeZero.ne n)) hlen

/-- Whole blocks make up the stream. -/
theorem eq_of_blocks (hxs : xs.length % n = 0) (hlen : xs.length = ys.length)
    (h : blocks n xs = blocks n ys) : xs = ys := by
  have hall : n * (xs.length / n) = xs.length := Nat.mul_div_cancel' (Nat.dvd_of_mod_eq_zero hxs)
  have hflat := congrArg List.flatten h
  rwa [flatten_blocks, flatten_blocks, ← hlen, hall, List.take_length, hlen, List.take_length] at hflat

/-- A stream in two pieces. -/
theorem absorb_append (f : σ → List α → σ) (a : σ) (xs ys : List α) :
    absorb n f a (xs ++ ys) = absorb n f (absorb n f a xs) (remainder n xs ++ ys) := by
  rw [absorb, absorb, absorb, blocks, (Cutter.segments_append blockCutter_stable xs ys).1,
    List.foldl_append]
  rfl

theorem remainder_append (xs ys : List α) :
    remainder n (xs ++ ys) = remainder n (remainder n xs ++ ys) :=
  (Cutter.segments_append blockCutter_stable xs ys).2

theorem absorb_short (h : xs.length < n) : absorb n f a xs = a := by
  rw [absorb, blocks_short h, List.foldl_nil]

/-- Only whole blocks make a difference. -/
theorem absorb_take : absorb n f a (xs.take (n * (xs.length / n))) = absorb n f a xs := by
  have hrem : remainder n (xs.take (n * (xs.length / n))) = [] := by
    apply List.eq_nil_of_length_eq_zero
    rw [remainder_length, List.length_take, Nat.min_eq_left (Nat.mul_div_le _ _), Nat.mul_mod_right]
  have hshort : (xs.drop (n * (xs.length / n))).length < n := by
    rw [← remainder_eq_drop]
    exact remainder_lt
  conv_rhs => rw [← List.take_append_drop (n * (xs.length / n)) xs]
  rw [absorb_append, hrem, List.nil_append, absorb_short hshort]

theorem absorb_cons (h : b.length = n) : absorb n f a (b ++ xs) = absorb n f (f a b) xs := by
  rw [absorb, blocks_cons h, List.foldl_cons, absorb]

/-- A block in front of a stream that is long enough. -/
theorem absorb_drop (h : n ≤ xs.length) :
    absorb n f a xs = absorb n f (f a (xs.take n)) (xs.drop n) := by
  rw [← absorb_cons (List.length_take_of_le h), List.take_append_drop]

theorem remainder_drop (h : n ≤ xs.length) : remainder n xs = remainder n (xs.drop n) := by
  have hcons : remainder n (xs.take n ++ xs.drop n) = remainder n (xs.drop n) :=
    remainder_cons (List.length_take_of_le h)
  rwa [List.take_append_drop] at hcons

/-- One block. -/
theorem absorb_one (h : b.length = n) : absorb n f a b = f a b := by
  have hnil : ([] : List α).length < n := Nat.pos_of_ne_zero (NeZero.ne n)
  rw [← List.append_nil b, absorb_cons h, absorb_short hnil, List.append_nil]

end Blocks

/-! ## Padding -/

section Padding

variable {n : Nat}

/-- The eight bytes of a length, highest first. -/
def lengthBytes (v : Nat) : List UInt8 :=
  (List.range 8).map fun i => UInt8.ofNat (v / 256 ^ (7 - i))

/-- What comes behind `k` bytes that are not a block: a mark, zeroes, and the length. -/
def padding (n k v : Nat) : List UInt8 :=
  0x80 :: List.replicate ((n - (k + 9) % n) % n) 0 ++ lengthBytes v

@[simp]
theorem lengthBytes_length (v : Nat) : (lengthBytes v).length = 8 := by
  rw [lengthBytes, List.length_map, List.length_range]

/-- The padding only depends on what is left of the message. -/
theorem padding_mod (n k v : Nat) : padding n (k % n) v = padding n k v := by
  rw [padding, padding, Nat.mod_add_mod]

/-- The length fits behind what is left: one last block. -/
theorem padding_short {k : Nat} (h : k + 9 ≤ n) (v : Nat) :
    padding n k v = 0x80 :: List.replicate (n - (k + 9)) 0 ++ lengthBytes v := by
  have hz : (n - (k + 9) % n) % n = n - (k + 9) := by
    rcases Nat.eq_or_lt_of_le h with heq | hlt
    · rw [heq, Nat.mod_self, Nat.sub_zero, Nat.mod_self, Nat.sub_self]
    · rw [Nat.mod_eq_of_lt hlt, Nat.mod_eq_of_lt (by omega)]
  rw [padding, hz]

/-- It does not: two last blocks. -/
theorem padding_long {k : Nat} (h : n < k + 9) (hk : k < n) (hn : 9 ≤ n) (v : Nat) :
    padding n k v = 0x80 :: List.replicate (n - (k + 1)) 0 ++
      (List.replicate (n - 8) 0 ++ lengthBytes v) := by
  have hz : (n - (k + 9) % n) % n = n - (k + 1) + (n - 8) := by
    have hmod : (k + 9) % n = k + 9 - n := by
      rw [Nat.mod_eq_sub_mod (by omega), Nat.mod_eq_of_lt (by omega)]
    rw [hmod, Nat.mod_eq_of_lt (by omega)]
    omega
  rw [padding, hz, List.replicate_add, List.cons_append, List.cons_append, List.append_assoc]

/-- The state behind a message and its padding: one or two blocks more. -/
theorem absorb_padding {σ : Type} [NeZero n] (hn : 9 ≤ n) (f : σ → List UInt8 → σ) (a : σ) (m : List UInt8) (v : Nat) :
    absorb n f a (m ++ padding n m.length v) =
      if (remainder n m).length + 9 ≤ n then
        f (absorb n f a m) (remainder n m ++
          (0x80 :: List.replicate (n - ((remainder n m).length + 9)) 0 ++ lengthBytes v))
      else f (f (absorb n f a m) (remainder n m ++
          0x80 :: List.replicate (n - ((remainder n m).length + 1)) 0))
        (List.replicate (n - 8) 0 ++ lengthBytes v) := by
  have hlt : (remainder n m).length < n := remainder_lt
  rw [absorb_append, ← padding_mod, ← remainder_length]
  split
  · next h =>
      rw [padding_short h, absorb_one]
      simp only [List.length_append, List.length_cons, List.length_replicate, lengthBytes_length]
      omega
  · next h =>
      rw [padding_long (by omega) hlt hn, ← List.append_assoc, absorb_cons, absorb_one]
      · simp only [List.length_append, List.length_replicate, lengthBytes_length]
        omega
      · simp only [List.length_append, List.length_cons, List.length_replicate]
        omega

end Padding

end Segmentation
