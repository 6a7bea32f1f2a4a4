import Mathlib.Data.List.Dedup

set_option autoImplicit false

/-! # Queues that forget

A queue of limited room. What it takes goes to its end; to make room the oldest elements leave, and
at most one more from further behind. Whatever is left stands in the order in which it was taken
last, so that the queue is a sublist of what was taken, without repetitions. -/

namespace Fifo

variable {α : Type}

/-- The queue `q` takes `a` and becomes `q'`: the oldest leave, and at most one more; `a` goes to the
end, unless there is no room for it. -/
def Takes (q : List α) (a : α) (q' : List α) : Prop :=
  ∃ evicted older gone newer stored, q = evicted ++ (older ++ (gone ++ newer)) ∧ gone.length ≤ 1 ∧
    (stored = [a] ∨ stored = []) ∧ q' = older ++ (newer ++ stored)

theorem Takes.sublist {q q' : List α} {a : α} (h : Takes q a q') : q'.Sublist (q ++ [a]) := by
  obtain ⟨evicted, older, gone, newer, stored, rfl, -, hstored, rfl⟩ := h
  have hlast : stored.Sublist [a] := by
    rcases hstored with rfl | rfl
    · exact List.Sublist.refl _
    · exact List.nil_sublist _
  simp only [List.append_assoc]
  refine (List.Sublist.append (List.Sublist.refl older) ?_).trans (List.sublist_append_right _ _)
  exact (List.Sublist.append (List.Sublist.refl newer) hlast).trans (List.sublist_append_right _ _)

variable [DecidableEq α]

/-- Behind a queue that stands in the order of what was taken, one more element may be taken. -/
theorem sublist_dedup_append {taken q : List α} {a : α} (h : q.Sublist taken.dedup) (ha : a ∉ q) :
    (q ++ [a]).Sublist (taken ++ [a]).dedup := by
  induction taken generalizing q with
  | nil =>
      rw [List.dedup_nil, List.sublist_nil] at h
      subst h
      exact List.Sublist.refl _
  | cons b taken ih =>
      rw [List.cons_append]
      by_cases hb : b ∈ taken
      · rw [List.dedup_cons_of_mem hb] at h
        rw [List.dedup_cons_of_mem (List.mem_append_left _ hb)]
        exact ih h ha
      · rw [List.dedup_cons_of_notMem hb] at h
        by_cases hba : b = a
        · subst hba
          rw [List.dedup_cons_of_mem (by simp)]
          rcases List.sublist_cons_iff.1 h with h | ⟨q', rfl, -⟩
          · exact ih h ha
          · exact absurd List.mem_cons_self ha
        · rw [List.dedup_cons_of_notMem (by simp [hb, hba])]
          rcases List.sublist_cons_iff.1 h with h | ⟨q', rfl, hq'⟩
          · exact (ih h ha).trans (List.sublist_cons_self _ _)
          · exact (ih hq' fun hmem => ha (List.mem_cons_of_mem _ hmem)).cons_cons b

/-- Taking an element that the queue does not have keeps the order. -/
theorem Takes.sublist_dedup {taken q q' : List α} {a : α} (h : Takes q a q')
    (hq : q.Sublist taken.dedup) (ha : a ∉ q) : q'.Sublist (taken ++ [a]).dedup :=
  h.sublist.trans (sublist_dedup_append hq ha)

end Fifo
