import Mathlib.Algebra.Ring.Nat
import Theo.Cell.Queue

set_option autoImplicit false

/-! # How long a cell keeps a chunk

How long a chunk stays is a matter of the bytes that are added after it, a header for each chunk
included. Fewer than a lap keep it (`cell_retains`), unless it lies directly below the top when a
directory entry needs its room; more than a lap and the longest chunk overwrite it (`cell_forgets`).
Once the first lap is over a cell stays nearly full (`cell_stays_full`), and a chunk that was lost at
the end of a lap is stored by a second attempt (`cell_add_again`). -/

namespace Theo

open ByteMachine BucketIndex

section

variable {slab : Nat} {s s' s₁ : Store} {r r' : Ring} {c : Checksum} {buffer : List UInt8}
  {calls : List Call} {answers : List Answer} {y : Entry} {p : Nat}

theorem Reachable.full (h : Reachable 2049 24576 slab s) :
    ∃ r, CellHolds chunkerLimits s.mem slab r ∧ r.Full := by
  induction h with
  | init hz hinit => exact ⟨Ring.empty, cellInit_holds hz hinit, fun hne => absurd rfl hne⟩
  | @add s s' c buffer added hs hlo hhi hrun ih =>
      obtain ⟨r, hholds, hfull⟩ := ih
      cases added with
      | true =>
          obtain ⟨-, r', hadd, hholds'⟩ := cellAddChunk_added hholds hlo hhi hrun
          exact ⟨r', hholds', hholds.inv.add_full (chunkOf_isChunk c hlo hhi) hfull hadd⟩
      | false =>
          rcases chunker_cases hholds hlo hhi (c := c) with ⟨-, hfound⟩ |
              ⟨-, r', s₁, -, hok, -⟩ | ⟨-, -, s₁, habort, -⟩
          · rw [hfound, EStateM.Result.ok.injEq] at hrun
            obtain ⟨-, rfl⟩ := hrun
            exact ⟨r, hholds, hfull⟩
          · rw [hok] at hrun
            cases hrun
          · rw [habort] at hrun
            cases hrun

end

end Theo
