import Mathlib.Algebra.Group.Action.Defs
import Mathlib.Algebra.Order.BigOperators.Group.List
import Mathlib.Algebra.Order.Ring.Nat
import Theo.Cache.Crash
import Theo.Cache.Metrics

set_option autoImplicit false

/-! # Counting while threads go on

`cache_get_metrics` takes the mutex of one cell after the other. While it is at a cell the threads go on
with the others, and what it has added up may be out of date before it returns. But it never counts a
part of a call: each cell is counted as it is behind the calls that have got their mutex by then, and
these are no fewer for a later cell (`threads_metrics`). -/

namespace Theo

open ByteMachine BucketIndex

/-- `cache_get_metrics` of one thread that was called at `σ₀`, while other threads go on: behind the cells
in front of `i`. -/
inductive Counting (base n : Nat) (σ₀ : Locked Nat Site CacheCall Answer) :
    Nat → CacheMetrics → Locked Nat Site CacheCall Answer → Prop
  | start : Counting base n σ₀ 0 cacheMetricsInit σ₀
  | thread {i : Nat} {metrics : CacheMetrics} {σ σ' : Locked Nat Site CacheCall Answer}
      (h : Counting base n σ₀ i metrics σ) (hstep : (cacheObjects base n).Step σ σ') :
      Counting base n σ₀ i metrics σ'
  | cell {i : Nat} {metrics metrics' : CacheMetrics} {σ : Locked Nat Site CacheCall Answer} {s : Store}
      (h : Counting base n σ₀ i metrics σ) (hi : i < n) (hfree : σ.held i = none)
      (hrun : cellGetMetrics (cellAt (slabOf base i)) metrics ⟨σ.mem, []⟩ = .ok metrics' s) :
      Counting base n σ₀ (i + 1) metrics' σ

/-- The metrics of `i` cells that hold the rings. -/
def metricsOf (rings : Nat → Ring) (i : Nat) : CacheMetrics :=
  ⟨((List.range i).map fun j => liveBytes (rings j).entries).sum,
    ((List.range i).map fun j => liveCount (rings j).entries).sum⟩

/-- The cell of ring `r` was counted behind the calls `calls` that got their mutex. -/
structure CountedBehind (base n : Nat) (rings : Nat → Ring) (calls : List (CacheCall × Answer)) (i : Nat)
    (r : Ring) : Prop where
  run : ∃ rings', runAll (cacheObjects base n).specAll rings (calls.map Prod.fst) =
    some (calls.map Prod.snd, rings') ∧ rings' i = r
  bytes : liveBytes r.entries ≤ 1048576
  entries : liveCount r.entries ≤ 1048576

/-- The cells in front of `i` are counted, cell `j` behind `cut j`, when it held the ring `counted j`. -/
structure CellsCounted (base n : Nat) (rings : Nat → Ring) (σ₀ : Locked Nat Site CacheCall Answer)
    (cut : Nat → List (CacheCall × Answer)) (counted : Nat → Ring) (i : Nat) (metrics : CacheMetrics)
    (σ : Locked Nat Site CacheCall Answer) : Prop where
  started : σ₀.begun <+: σ.begun
  behind : ∀ j < i, CountedBehind base n rings (cut j) j (counted j)
  since : ∀ j < i, σ₀.begun <+: cut j
  before : ∀ j < i, cut j <+: σ.begun
  ordered : ∀ j k, j ≤ k → k < i → cut j <+: cut k
  metrics : metrics = metricsOf counted i

section

variable {base n i : Nat} {m : Mem} {s : Store} {rings counted : Nat → Ring}
  {σ σ' σ₀ : Locked Nat Site CacheCall Answer} {given : List (Checksum × List UInt8)}
  {metrics : CacheMetrics} {cut : Nat → List (CacheCall × Answer)}

theorem metricsOf_le (h : ∀ j < i, CountedBehind base n rings (cut j) j (counted j)) :
    (metricsOf counted i).byteCount ≤ i * 1048576 ∧ (metricsOf counted i).entryCount ≤ i * 1048576 := by
  have hsum : ∀ f : Nat → Nat, (∀ j < i, f j ≤ 1048576) → ((List.range i).map f).sum ≤ i * 1048576 := by
    intro f hf
    have hle := List.sum_le_card_nsmul ((List.range i).map f) 1048576 (by
      intro x hx
      obtain ⟨j, hj, rfl⟩ := List.mem_map.1 hx
      exact hf j (List.mem_range.1 hj))
    rwa [List.length_map, List.length_range, smul_eq_mul] at hle
  exact ⟨hsum _ fun j hj => (h j hj).bytes, hsum _ fun j hj => (h j hj).entries⟩

theorem metricsOf_congr {counted' : Nat → Ring} (h : ∀ j < i, counted' j = counted j) :
    metricsOf counted' i = metricsOf counted i := by
  have hmap : ∀ f : Ring → Nat,
      ((List.range i).map fun j => f (counted' j)) = (List.range i).map fun j => f (counted j) :=
    fun f => List.map_congr_left fun j hj => congrArg f (h j (List.mem_range.1 hj))
  rw [metricsOf, metricsOf, hmap fun r => liveBytes r.entries, hmap fun r => liveCount r.entries]

theorem metricsOf_succ (counted : Nat → Ring) (i : Nat) : metricsOf counted (i + 1) =
    ⟨(metricsOf counted i).byteCount + liveBytes (counted i).entries,
      (metricsOf counted i).entryCount + liveCount (counted i).entries⟩ := by
  simp [metricsOf, List.range_succ]

/-- One more cell is counted. -/
theorem CellsCounted.cell {metrics' : CacheMetrics} {s' : Store}
    (h : CellsCounted base n rings σ₀ cut counted i metrics σ) (hholds : CacheHolds s.mem base n rings)
    (hn : 1 ≤ n) (hsize : (n + 1) * cacheCellSize < 2 ^ 64) (hsteps : Interleaved base n s.mem σ)
    (hi : i < n) (hfree : σ.held i = none)
    (hrun : cellGetMetrics (cellAt (slabOf base i)) metrics ⟨σ.mem, []⟩ = .ok metrics' s') :
    ∃ cut' counted', CellsCounted base n rings σ₀ cut' counted' (i + 1) metrics' σ := by
  obtain ⟨s₁, rings', -, hspec, hholds', hrep⟩ := hholds.linearizable hn hsteps
  have hcell : CellIn base n i (rings' i) σ.mem := hrep i hfree hi
  have hlive := hholds'.live_le hi
  have hle := metricsOf_le h.behind
  rw [← h.metrics] at hle
  have hroom : (i + 1) * 1048576 < 2 ^ 64 :=
    Nat.lt_of_le_of_lt (Nat.mul_le_mul_right _ (by omega)) hsize
  rw [cellGetMetrics_run hcell.holds metrics (by omega) (by omega), EStateM.Result.ok.injEq] at hrun
  obtain ⟨rfl, -⟩ := hrun
  -- what was counted before stays as it is
  have hcut : ∀ j, j ≠ i → Function.update cut i σ.begun j = cut j := fun j hj =>
    Function.update_of_ne hj _ _
  have hcounted : ∀ j, j ≠ i → Function.update counted i (rings' i) j = counted j := fun j hj =>
    Function.update_of_ne hj _ _
  have hcases : ∀ j < i + 1, j = i ∨ j < i ∧ j ≠ i := by
    intro j hj
    omega
  refine ⟨Function.update cut i σ.begun, Function.update counted i (rings' i), h.started, fun j hj => ?_,
    fun j hj => ?_, fun j hj => ?_, fun j k hjk hk => ?_, ?_⟩
  · rcases hcases j hj with rfl | ⟨hlt, hne⟩
    · rw [Function.update_self, Function.update_self]
      exact ⟨⟨rings', hspec, rfl⟩, hlive.1, hlive.2⟩
    · rw [hcut j hne, hcounted j hne]
      exact h.behind j hlt
  · rcases hcases j hj with rfl | ⟨hlt, hne⟩
    · rw [Function.update_self]
      exact h.started
    · rw [hcut j hne]
      exact h.since j hlt
  · rcases hcases j hj with rfl | ⟨hlt, hne⟩
    · rw [Function.update_self]
    · rw [hcut j hne]
      exact h.before j hlt
  · rcases hcases k hk with rfl | ⟨hlt, hne⟩
    · rw [Function.update_self]
      rcases hcases j (by omega) with rfl | ⟨hlt, hne⟩
      · rw [Function.update_self]
      · rw [hcut j hne]
        exact h.before j hlt
    · rw [hcut k hne, hcut j (by omega)]
      exact h.ordered j k hjk hlt
  · rw [metricsOf_succ, Function.update_self, h.metrics]
    rw [metricsOf_congr fun j hj => hcounted j (Nat.ne_of_lt hj)]

theorem Counting.threads (h : Counting base n σ₀ i metrics σ)
    (hsteps : Relation.ReflTransGen (cacheObjects base n).Step σ σ') :
    Counting base n σ₀ i metrics σ' := by
  induction hsteps with
  | refl => exact h
  | tail _ hstep ih => exact ih.thread hstep

end

end Theo
