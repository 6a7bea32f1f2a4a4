import Mathlib.Data.List.Basic
import Mathlib.Tactic.Common

set_option autoImplicit false

/-! # Ledgers of resources

A program acquires resources, uses them and releases them. `run held ops` goes through its operations
with the resources held, and fails where one is used or released that is not held. If it ends with
nothing held, every resource was released as often as it was acquired (`run_balance`). -/

namespace Ledger

variable {R : Type} [DecidableEq R]

inductive Op (R : Type) where
  | acquire (r : R)
  /-- Some resource with the property is used. -/
  | use (p : R → Bool)
  | release (r : R)

/-- One operation, with the resources held before and behind it. -/
def step (held : List R) : Op R → Option (List R)
  | .acquire r => some (r :: held)
  | .use p => if held.any p then some held else none
  | .release r => if r ∈ held then some (held.erase r) else none

def run (held : List R) (ops : List (Op R)) : Option (List R) := ops.foldlM step held

/-- How often `r` is acquired. -/
def acquired (r : R) (ops : List (Op R)) : Nat :=
  ops.countP fun op => match op with
    | .acquire r' => r' = r
    | _ => false

/-- How often `r` is released. -/
def released (r : R) (ops : List (Op R)) : Nat :=
  ops.countP fun op => match op with
    | .release r' => r' = r
    | _ => false

variable {held held' : List R} {ops ops' : List (Op R)}

@[simp]
theorem run_nil (held : List R) : run held [] = some held := rfl

theorem run_cons (held : List R) (op : Op R) (ops : List (Op R)) :
    run held (op :: ops) = (step held op).bind fun held' => run held' ops := List.foldlM_cons

theorem run_acquire (held : List R) (r : R) (ops : List (Op R)) :
    run held (.acquire r :: ops) = run (r :: held) ops := rfl

theorem run_use {p : R → Bool} (h : held.any p = true) (ops : List (Op R)) :
    run held (.use p :: ops) = run held ops := by
  rw [run_cons, step, if_pos h]
  rfl

theorem run_release {r : R} (h : r ∈ held) (ops : List (Op R)) :
    run held (.release r :: ops) = run (held.erase r) ops := by
  rw [run_cons, step, if_pos h]
  rfl

theorem run_append (held : List R) (ops ops' : List (Op R)) :
    run held (ops ++ ops') = (run held ops).bind fun held' => run held' ops' := List.foldlM_append

theorem acquired_append (r : R) (ops ops' : List (Op R)) :
    acquired r (ops ++ ops') = acquired r ops + acquired r ops' := List.countP_append

/-- What was held and acquired is still held or was released. -/
theorem run_balance (h : run held ops = some held') (r : R) :
    held.count r + acquired r ops = held'.count r + released r ops := by
  induction ops generalizing held with
  | nil =>
      rw [run_nil, Option.some.injEq] at h
      rw [h]
      rfl
  | cons op ops ih =>
      rw [run_cons, Option.bind_eq_some_iff] at h
      obtain ⟨next, hstep, hrest⟩ := h
      have hih := ih hrest
      cases op with
      | acquire r' =>
          rw [step, Option.some.injEq] at hstep
          rw [← hstep, List.count_cons] at hih
          simp only [acquired, released, List.countP_cons, beq_iff_eq, decide_eq_true_eq,
            Bool.false_eq_true, if_false] at hih ⊢
          omega
      | use p =>
          rw [step, Option.ite_none_right_eq_some, Option.some.injEq] at hstep
          rw [← hstep.2] at hih
          simpa only [acquired, released, List.countP_cons, Bool.false_eq_true, if_false,
            Nat.add_zero] using hih
      | release r' =>
          rw [step, Option.ite_none_right_eq_some, Option.some.injEq] at hstep
          obtain ⟨hmem, herase⟩ := hstep
          rw [← herase, List.count_erase] at hih
          have hpos : r' = r → 0 < held.count r := by
            rintro rfl
            exact List.count_pos_iff.2 hmem
          simp only [acquired, released, List.countP_cons, beq_iff_eq, decide_eq_true_eq,
            Bool.false_eq_true, if_false] at hih ⊢
          split at hih
          · next heq =>
              have hheld := hpos heq
              rw [if_pos heq]
              omega
          · next hne =>
              rw [if_neg hne]
              omega

end Ledger
