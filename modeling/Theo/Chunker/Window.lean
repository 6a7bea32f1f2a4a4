import Mathlib.Data.List.GetD
import Theo.Lib.Rolling
import Theo.Model.RollingHash2

set_option autoImplicit false

/-! # The rolling hash and the windows it sees

`rolling_hash2_run` is fed the bytes of the history and then those of the buffer. The running value is
the hash of the window of `w` bytes it has reached in them, so that the run stops at the first window
that triggers (`rollingHash2Run_finds`). -/

namespace Theo

open RollingHash

/-- The window of `w` bytes at offset `o`. -/
def window (fed : List UInt8) (w o : Nat) : List UInt8 := (fed.drop o).take w

/-- A state that `rolling_hash2_init` prepared for windows of `w` bytes. -/
structure RhState2.Ready (state : RhState2) (w : Nat) : Prop where
  w_eq : state.w = w
  table1 : state.table1 = rollingHash2Table1
  table2 : ∀ b, state.table2 b = rotl (rollingHash2Table1 b) w

/-- What has been fed to a state when it has gone through `buffer`. -/
def RhState2.fed (state : RhState2) (buffer : List UInt8) : List UInt8 :=
  state.history.take state.w ++ buffer

/-- The window at offset `o` triggers. -/
def windowHit (mask trigger : BitVec 32) (fed : List UInt8) (w o : Nat) : Bool :=
  triggers mask trigger (windowHash rollingHash2Table1 (window fed w o))

/-- The run stops at the first offset up to `len` that is a hit. -/
def RhRun.Finds (run : RhRun) (hit : Nat → Bool) (len : Nat) : Prop :=
  (run.ret = .hit ∧ firstHit hit len = some run.offset) ∨
    (run.ret = .max ∧ firstHit hit len = none ∧ run.offset = len)

section

variable {state : RhState2} {buffer : List UInt8} {w len : Nat} {mask trigger : BitVec 32}

theorem rollingHash2Init_ready (state : RhState2) (hw : w ≤ 48) :
    (rollingHash2Init state w).1 = 0 ∧ (rollingHash2Init state w).2.Ready w := by
  have hfit : ¬ fingerprintMaxWindow < w := by rw [fingerprintMaxWindow]; omega
  rw [rollingHash2Init, if_neg hfit]
  exact ⟨rfl, rfl, rfl, fun _ => rfl⟩

theorem rollingHash2ResetLoop_eq (h : state.Ready w) (bytes : List UInt8) (hash : BitVec 64) :
    rollingHash2ResetLoop state bytes hash = hashFrom rollingHash2Table1 hash bytes := by
  induction bytes generalizing hash with
  | nil => rfl
  | cons b bytes ih =>
      rw [rollingHash2ResetLoop, ih, h.table1]
      rfl

/-- A reset leaves nothing of the state but the tables: the window it is given becomes the history. -/
theorem rollingHash2Reset_spec (h : state.Ready w) {initBytes : List UInt8}
    (hlen : w ≤ initBytes.length) :
    (rollingHash2Reset state initBytes).Ready w ∧
      w ≤ (rollingHash2Reset state initBytes).history.length ∧
      (rollingHash2Reset state initBytes).history.take w = initBytes.take w ∧
      (rollingHash2Reset state initBytes).hash =
        windowHash rollingHash2Table1 (initBytes.take w) := by
  have hlength : (initBytes.take w).length = w := by
    rw [List.length_take]
    omega
  simp only [rollingHash2Reset, h.w_eq]
  refine ⟨⟨rfl, h.table1, h.table2⟩, ?_, List.take_left' hlength, rollingHash2ResetLoop_eq h _ 0⟩
  rw [List.length_append, hlength]
  omega

/-! ## One step -/

/-- The window that ends one byte further on. -/
theorem hashFn_window (h : state.Ready w) (hw : 1 ≤ w) (hw' : w ≤ 64) (fed : List UInt8) {i : Nat}
    (hi : i + w < fed.length) :
    hashFn state (windowHash rollingHash2Table1 (window fed w i)) (fed.getD (i + w) 0)
      (fed.getD i 0) = windowHash rollingHash2Table1 (window fed w (i + 1)) := by
  obtain ⟨k, rfl⟩ := Nat.exists_eq_add_of_le' hw
  have hold : window fed (k + 1) i = fed.getD i 0 :: (fed.drop (i + 1)).take k := by
    rw [window, List.drop_eq_getElem_cons (show i < fed.length by omega), List.take_succ_cons,
      List.getD_eq_getElem _ _ (show i < fed.length by omega)]
  have hnew : window fed (k + 1) (i + 1) = (fed.drop (i + 1)).take k ++ [fed.getD (i + (k + 1)) 0] := by
    have hk : k < (fed.drop (i + 1)).length := by rw [List.length_drop]; omega
    rw [window, List.take_succ_eq_append_getElem hk, List.getElem_drop,
      List.getD_eq_getElem _ _ hi]
    simp only [Nat.add_comm, Nat.add_left_comm]
  have hlen : ((fed.drop (i + 1)).take k).length + 1 = k + 1 := by
    rw [List.length_take, List.length_drop]
    omega
  have hroll := windowHash_roll rollingHash2Table1 (fed.getD i 0) (fed.getD (i + (k + 1)) 0)
    (show ((fed.drop (i + 1)).take k).length + 1 ≤ 64 by omega)
  rw [hlen] at hroll
  rw [hold, hnew, hroll, hashFn, h.table1, h.table2]
  rfl

/-! ## The two loops -/

/-- The loop that takes the leaving bytes from the history. -/
theorem rollingHash2RunHead_finds (mask trigger : BitVec 32) (h : state.Ready w) (hw : 1 ≤ w)
    (hw' : w ≤ 64)
    (hhistory : w ≤ state.history.length) (hlen : len ≤ buffer.length) {n i : Nat} (hn : i + n = w)
    (hi : i ≤ len)
    (hno : ∀ j, 1 ≤ j → j ≤ i → windowHit mask trigger (state.fed buffer) w j = false) :
    match rollingHash2RunHead state buffer len mask trigger n i
      (windowHash rollingHash2Table1 (window (state.fed buffer) w i)) with
    | .inl run => run.Finds (windowHit mask trigger (state.fed buffer) w) len ∧ run.state.Ready w
    | .inr hash => w ≤ len ∧ hash = windowHash rollingHash2Table1 (window (state.fed buffer) w w) ∧
        ∀ j, 1 ≤ j → j ≤ w → windowHit mask trigger (state.fed buffer) w j = false := by
  induction n generalizing i with
  | zero =>
      have hiw : i = w := by omega
      subst hiw
      exact ⟨hi, rfl, hno⟩
  | succ n ih =>
      rw [rollingHash2RunHead]
      by_cases hend : i = len
      · rw [if_pos hend]
        refine ⟨Or.inr ⟨rfl, firstHit_eq_none.2 fun j hj hjl => hno j hj (by omega), hend⟩, ?_⟩
        exact ⟨h.w_eq, h.table1, h.table2⟩
      · rw [if_neg hend]
        have hhead : (state.history.take state.w).length = w := by
          rw [List.length_take, h.w_eq]
          omega
        -- the byte that leaves is still one of the history, the one that enters is of the buffer
        have hleaves : (state.fed buffer).getD i 0 = state.history.getD i 0 := by
          rw [RhState2.fed, List.getD_append _ _ _ _ (by omega), List.getD_eq_getElem?_getD,
            List.getElem?_take_of_lt (by rw [h.w_eq]; omega), List.getD_eq_getElem?_getD]
        have henters : (state.fed buffer).getD (i + w) 0 = buffer.getD i 0 := by
          rw [RhState2.fed, List.getD_append_right _ _ _ _ (by omega), hhead, Nat.add_sub_cancel]
        have hstep := hashFn_window h hw hw' (state.fed buffer) (i := i) (by
          rw [RhState2.fed, List.length_append, hhead]
          omega)
        rw [hleaves, henters] at hstep
        rw [hstep]
        cases hhit : triggers mask trigger
            (windowHash rollingHash2Table1 (window (state.fed buffer) w (i + 1))) with
        | true =>
            simp only [hhit, if_true]
            have hfirst : firstHit (windowHit mask trigger (state.fed buffer) w) len = some (i + 1) :=
              firstHit_eq_some.2 ⟨hhit, by omega, by omega, fun j hj hji => hno j hj (by omega)⟩
            exact ⟨Or.inl ⟨rfl, hfirst⟩, h.w_eq, h.table1, h.table2⟩
        | false =>
            simp only [hhit, Bool.false_eq_true, if_false]
            refine ih (by omega) (by omega) fun j hj hji => ?_
            rcases Nat.lt_or_eq_of_le hji with hlt | rfl
            · exact hno j hj (by omega)
            · exact hhit

/-- The loop that takes the leaving bytes from the buffer itself. -/
theorem rollingHash2RunUntilBase_finds (h : state.Ready w) (hw : 1 ≤ w) (hw' : w ≤ 64)
    (hhistory : w ≤ state.history.length) (hlen : len ≤ buffer.length) {n i : Nat}
    (hn : i + n = len) (hi : w ≤ i) {k : Nat} {hash : BitVec 64}
    (hno : ∀ j, 1 ≤ j → j ≤ i → windowHit mask trigger (state.fed buffer) w j = false)
    (hrun : rollingHash2RunUntilBase state buffer mask trigger n i
      (windowHash rollingHash2Table1 (window (state.fed buffer) w i)) = (k, hash)) :
    (triggers mask trigger hash = true ∧
      firstHit (windowHit mask trigger (state.fed buffer) w) len = some (k + 1)) ∨
    (triggers mask trigger hash = false ∧
      firstHit (windowHit mask trigger (state.fed buffer) w) len = none ∧ k = len) := by
  induction n generalizing i with
  | zero =>
      rw [rollingHash2RunUntilBase, Prod.mk.injEq] at hrun
      obtain ⟨rfl, rfl⟩ := hrun
      exact Or.inr ⟨hno _ (by omega) (Nat.le_refl _),
        firstHit_eq_none.2 fun j hj hjl => hno j hj (by omega), by omega⟩
  | succ n ih =>
      rw [rollingHash2RunUntilBase] at hrun
      have hhead : (state.history.take state.w).length = w := by
        rw [List.length_take, h.w_eq]
        omega
      -- both bytes are of the buffer, `w` apart
      have hleaves : (state.fed buffer).getD i 0 = buffer.getD (i - state.w) 0 := by
        rw [RhState2.fed, List.getD_append_right _ _ _ _ (by omega), hhead, h.w_eq]
      have henters : (state.fed buffer).getD (i + w) 0 = buffer.getD i 0 := by
        rw [RhState2.fed, List.getD_append_right _ _ _ _ (by omega), hhead, Nat.add_sub_cancel]
      have hstep := hashFn_window h hw hw' (state.fed buffer) (i := i) (by
        rw [RhState2.fed, List.length_append, hhead]
        omega)
      rw [hleaves, henters] at hstep
      rw [hstep] at hrun
      cases hhit : triggers mask trigger
          (windowHash rollingHash2Table1 (window (state.fed buffer) w (i + 1))) with
      | true =>
          simp only [hhit, if_true, Prod.mk.injEq] at hrun
          obtain ⟨rfl, rfl⟩ := hrun
          exact Or.inl ⟨hhit, firstHit_eq_some.2 ⟨hhit, by omega, by omega,
            fun j hj hji => hno j hj (by omega)⟩⟩
      | false =>
          simp only [hhit, Bool.false_eq_true, if_false] at hrun
          refine ih (by omega) (by omega) (fun j hj hji => ?_) hrun
          rcases Nat.lt_or_eq_of_le hji with hlt | rfl
          · exact hno j hj (by omega)
          · exact hhit

/-- A run stops at the first window that triggers, among those that end in the first `len` bytes of the
buffer. -/
theorem rollingHash2Run_finds (mask trigger : BitVec 32) (h : state.Ready w) (hw : 1 ≤ w) (hw' : w ≤ 64)
    (hhistory : w ≤ state.history.length) (hlen : len ≤ buffer.length)
    (hhash : state.hash = windowHash rollingHash2Table1 (state.history.take w)) :
    (rollingHash2Run state buffer len mask trigger).Finds
        (windowHit mask trigger (state.fed buffer) w) len ∧
      (rollingHash2Run state buffer len mask trigger).state.Ready w := by
  have hstart : state.hash = windowHash rollingHash2Table1 (window (state.fed buffer) w 0) := by
    have hlength : (state.history.take state.w).length = w := by
      rw [List.length_take, h.w_eq]
      omega
    rw [hhash, window, List.drop_zero, RhState2.fed, List.take_left' hlength, h.w_eq]
  have hhead := rollingHash2RunHead_finds mask trigger h hw hw' hhistory hlen
    (Nat.zero_add w) (Nat.zero_le len) (fun j hj hj' => by omega)
  rw [rollingHash2Run, hstart, h.w_eq]
  cases hrun : rollingHash2RunHead state buffer len mask trigger w 0
      (windowHash rollingHash2Table1 (window (state.fed buffer) w 0)) with
  | inl run =>
      rw [hrun] at hhead
      exact hhead
  | inr hash =>
      rw [hrun] at hhead
      obtain ⟨hle, rfl, hno⟩ := hhead
      obtain ⟨⟨k, hash⟩, huntil⟩ : ∃ out, rollingHash2RunUntilBase state buffer mask trigger (len - w) w
        (windowHash rollingHash2Table1 (window (state.fed buffer) w w)) = out := ⟨_, rfl⟩
      have hfinds := rollingHash2RunUntilBase_finds h hw hw' hhistory hlen
        (Nat.add_sub_cancel' hle) (Nat.le_refl w) hno huntil
      simp only [huntil]
      rcases hfinds with ⟨hhit, hfirst⟩ | ⟨hmiss, hnone, hk⟩
      · rw [if_pos hhit]
        exact ⟨Or.inl ⟨rfl, hfirst⟩, h.w_eq, h.table1, h.table2⟩
      · rw [if_neg (by rw [hmiss]; exact Bool.false_ne_true)]
        exact ⟨Or.inr ⟨rfl, hnone, hk⟩, h.w_eq, h.table1, h.table2⟩

end

end Theo
