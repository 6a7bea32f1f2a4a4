import Theo.Lib.Blocks

set_option autoImplicit false

/-! # Chains

A hash is a chain of calls of a function `f` that puts a block on a state. Two chains of one length that
end in the same state are the same, or two of their calls collide (`foldl_collide`). With the length of
the message in the last block this also holds for chains of two lengths (`foldl_collide_last`). -/

namespace Segmentation

section Chains

variable {σ β : Type} {f : σ → β → σ} {a a' : σ} {bs bs' : List β}

/-- The calls of a chain: the states with the blocks that are put on them. -/
def calls (f : σ → β → σ) (a : σ) : List β → List (σ × β)
  | [] => []
  | b :: bs => (a, b) :: calls f (f a b) bs

/-- One of these calls and one of those are not the same, and have the same result. -/
def Collide (f : σ → β → σ) (cs cs' : List (σ × β)) : Prop :=
  ∃ c ∈ cs, ∃ c' ∈ cs', c ≠ c' ∧ f c.1 c.2 = f c'.1 c'.2

theorem Collide.mono {cs cs' ds ds' : List (σ × β)} (h : Collide f cs cs') (hsub : cs ⊆ ds)
    (hsub' : cs' ⊆ ds') : Collide f ds ds' := by
  obtain ⟨c, hc, c', hc', hne, heq⟩ := h
  exact ⟨c, hsub hc, c', hsub' hc', hne, heq⟩

theorem calls_append (f : σ → β → σ) (a : σ) (bs bs' : List β) :
    calls f a (bs ++ bs') = calls f a bs ++ calls f (bs.foldl f a) bs' := by
  induction bs generalizing a with
  | nil => rfl
  | cons b bs ih => rw [List.cons_append, calls, calls, ih, List.foldl_cons, List.cons_append]

theorem foldl_collide (hlen : bs.length = bs'.length) (h : bs.foldl f a = bs'.foldl f a') :
    (a = a' ∧ bs = bs') ∨ Collide f (calls f a bs) (calls f a' bs') := by
  induction bs generalizing a a' bs' with
  | nil =>
      rw [List.eq_nil_of_length_eq_zero hlen.symm] at h ⊢
      exact .inl ⟨h, rfl⟩
  | cons b bs ih =>
      obtain _ | ⟨b', bs'⟩ := bs'
      · cases hlen
      rw [List.foldl_cons, List.foldl_cons] at h
      obtain ⟨hstate, rfl⟩ | hcollide := ih (Nat.succ.inj hlen) h
      · by_cases hcall : (a, b) = (a', b')
        · cases hcall
          exact .inl ⟨rfl, rfl⟩
        · exact .inr ⟨(a, b), List.mem_cons_self, (a', b'), List.mem_cons_self, hcall, hstate⟩
      · exact .inr (hcollide.mono (List.subset_cons_self _ _) (List.subset_cons_self _ _))

/-- The last blocks are not the same, whatever is in front of them. -/
theorem foldl_collide_last {b b' : β} (hne : b ≠ b')
    (h : (bs ++ [b]).foldl f a = (bs' ++ [b']).foldl f a') :
    Collide f (calls f a (bs ++ [b])) (calls f a' (bs' ++ [b'])) := by
  rw [List.foldl_append, List.foldl_append] at h
  rw [calls_append, calls_append]
  refine ⟨(bs.foldl f a, b), List.mem_append_right _ List.mem_cons_self, (bs'.foldl f a', b'),
    List.mem_append_right _ List.mem_cons_self, fun hcall => hne (congrArg Prod.snd hcall), h⟩

end Chains

/-! ## The last block -/

section Last

variable {n : Nat} [NeZero n]

theorem blocks_append {α : Type} {xs b : List α} (hxs : xs.length % n = 0) (hb : b.length = n) :
    blocks n (xs ++ b) = blocks n xs ++ [b] := by
  have hrem : remainder n xs = [] := List.eq_nil_of_length_eq_zero (remainder_length.trans hxs)
  have hnil : ([] : List α).length < n := Nat.pos_of_ne_zero (NeZero.ne n)
  have hone : blocks n b = [b] := by
    rw [← List.append_nil b, blocks_cons hb, blocks_short hnil, List.append_nil]
  have happend : blocks n (xs ++ b) = blocks n xs ++ blocks n (remainder n xs ++ b) :=
    (Cutter.segments_append blockCutter_stable xs b).1
  rw [happend, hrem, List.nil_append, hone]

theorem padding_length (n k v : Nat) [NeZero n] : (k + (padding n k v).length) % n = 0 := by
  have hlen : k + (padding n k v).length = k + 9 + (n - (k + 9) % n) % n := by
    simp only [padding, List.length_append, List.length_cons, List.length_replicate,
      lengthBytes_length]
    omega
  have hdiv := Nat.div_add_mod (k + 9) n
  have hlt := Nat.mod_lt (k + 9) (Nat.pos_of_ne_zero (NeZero.ne n))
  rw [hlen]
  by_cases hzero : (k + 9) % n = 0
  · rw [hzero, Nat.sub_zero, Nat.mod_self, Nat.add_zero, hzero]
  · have hnext : k + 9 + (n - (k + 9) % n) = n * ((k + 9) / n + 1) := by
      rw [Nat.mul_succ]
      omega
    rw [Nat.mod_eq_of_lt (a := n - _) (by omega), hnext, Nat.mul_mod_right]

/-- A padded message has whole blocks, and the length at the end of the last one. -/
theorem padding_last (hn : 9 ≤ n) (m : List UInt8) (v : Nat) :
    ∃ xs b, m ++ padding n m.length v = xs ++ (b ++ lengthBytes v) ∧ xs.length % n = 0 ∧
      (b ++ lengthBytes v).length = n := by
  obtain ⟨q, hq⟩ : ∃ q, m ++ padding n m.length v = q ++ lengthBytes v :=
    ⟨_, (List.append_assoc m _ _).symm⟩
  have hlen : (q ++ lengthBytes v).length % n = 0 := by
    rw [← hq, List.length_append, padding_length]
  rw [List.length_append, lengthBytes_length] at hlen
  have hle : n ≤ q.length + 8 := Nat.le_of_dvd (by omega) (Nat.dvd_of_mod_eq_zero hlen)
  refine ⟨q.take (q.length + 8 - n), q.drop (q.length + 8 - n), ?_, ?_, ?_⟩
  · rw [hq, ← List.append_assoc, List.take_append_drop]
  · rw [List.length_take, Nat.min_eq_left (by omega), ← Nat.mod_eq_sub_mod hle, hlen]
  · rw [List.length_append, lengthBytes_length, List.length_drop]
    omega

end Last

end Segmentation
