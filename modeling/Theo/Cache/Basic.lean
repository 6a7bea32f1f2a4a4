import Theo.Cell.Local
import Theo.Model.Cache

set_option autoImplicit false

/-! # The cells of a cache

`CacheHolds m base n rings`: the bytes from `base` on are those of a cache of `n` cells that hold the
rings `rings`. Initialising a cache does to each slab what initialising its cell alone does, and a call
is a call on the cell that the first bytes of its checksum choose. -/

namespace Theo

open ByteMachine BucketIndex

/-- The slab of cell `i` of the cache at `base`. -/
def slabOf (base i : Nat) : Nat := base + cacheCellSize * (i + 1)

/-- The cache at `base` of `n` cells. -/
def cacheAt (base n : Nat) : Cache := ⟨(List.range n).map fun i => cellAt (slabOf base i), base⟩

/-- Two machines have the same bytes in the slab of cell `i`. -/
abbrev SameSlab (base i : Nat) (s s' : Store) : Prop :=
  s.mem.Agree s'.mem (slabOf base i) (slabOf base i + 1048576)

section

variable {base n i j : Nat} {s s' t : Store}

theorem slabOf_pos : 0 < slabOf base i := by
  rw [slabOf, cacheCellSize]
  omega

theorem slabOf_succ (base i : Nat) : slabOf base i + cacheCellSize = slabOf base (i + 1) := by
  simp only [slabOf, cacheCellSize]
  omega

theorem slabOf_zero (base : Nat) : slabOf base 0 = base + cacheCellSize := by
  rw [slabOf, Nat.zero_add, Nat.mul_one]

/-- Slabs lie one behind the other. -/
theorem slabOf_add_le (base : Nat) (h : i < j) : slabOf base i + 1048576 ≤ slabOf base j := by
  simp only [slabOf, cacheCellSize]
  omega

theorem slabOf_le (base : Nat) (h : i ≤ j) : slabOf base i ≤ slabOf base j := by
  simp only [slabOf, cacheCellSize]
  omega

theorem base_add_le (base i : Nat) : base + 1048576 ≤ slabOf base i := by
  simp only [slabOf, cacheCellSize]
  omega

/-- What stays inside one slab leaves the others alone. -/
theorem inside_sameSlab (h : Emits (Inside (slabOf base i)) s s') (hne : i ≠ j) :
    SameSlab base j s s' := by
  refine h.agree fun e he => he _ _ ?_
  rcases Nat.lt_or_gt_of_ne hne with hlt | hgt
  · exact Or.inr (slabOf_add_le base hlt)
  · exact Or.inl (slabOf_add_le base hgt)

/-! ## Initialising a cache -/

/-- The header is written once: a header that is there stays as it is. -/
theorem cacheHeaderInit_spec (base n : Nat) (s : Store) :
    ∃ s', cacheHeaderInit base n s = .ok () s' ∧ cacheMagic s'.mem base = cacheHeaderMagic ∧
      (cacheMagic s.mem base = cacheHeaderMagic → s' = s) ∧
      (cacheMagic s.mem base ≠ cacheHeaderMagic → cacheCellCount s'.mem base = n % 2 ^ 64) ∧
      ∀ lo hi, hi ≤ base ∨ base + 16 ≤ lo → s.mem.Agree s'.mem lo hi := by
  by_cases hmagic : cacheMagic s.mem base = cacheHeaderMagic
  · refine ⟨s, ?_, hmagic, fun _ => rfl, fun hne => absurd hmagic hne,
      fun _ _ _ => Mem.Agree.refl _ _ _⟩
    rw [cacheHeaderInit, load_bind, if_pos hmagic]
    rfl
  · refine ⟨((((s.store64 .cache (base + 8) n).emit .barrier).store64 .cache base
      cacheHeaderMagic).emit .barrier), ?_, ?_, fun h => absurd h hmagic, fun _ => ?_, ?_⟩
    · rw [cacheHeaderInit, load_bind, if_neg hmagic, store64_bind, emit_bind, store64_bind, emit_run]
    · rw [cacheMagic, Machine.mem_emit_barrier, Machine.mem_store64, Mem.load64_write_self]
      rfl
    · rw [cacheCellCount, Machine.mem_emit_barrier, Machine.mem_store64,
        (Mem.write_agree _ _ _ (Or.inr (by rw [Mem.bytes64_length]))).load64,
        Machine.mem_emit_barrier, Machine.mem_store64, Mem.load64_write_self]
    · intro lo hi hd
      exact (Mem.write_agree s.mem (base + 8) (Mem.bytes64 n)
        (by rw [Mem.bytes64_length]; omega)).trans
        (Mem.write_agree _ base (Mem.bytes64 cacheHeaderMagic) (by rw [Mem.bytes64_length]; omega))

/-- The loop over the cells: each slab becomes what its cell alone would make of it. -/
theorem cacheInitCells_spec (base i n : Nat) (s : Store) :
    ∃ s', cacheInitCells (slabOf base i) n s =
        .ok ((List.range' i n).map fun j => cellAt (slabOf base j)) s' ∧
      (∀ j, i ≤ j → j < i + n → ∀ t : Store, SameSlab base j s t →
        ∃ t', cellInit (slabOf base j) cacheCellSize t = .ok (cellAt (slabOf base j)) t' ∧
          SameSlab base j s' t') ∧
      ∀ lo hi, hi ≤ slabOf base i ∨ slabOf base (i + n) ≤ lo → s.mem.Agree s'.mem lo hi := by
  induction n generalizing i s with
  | zero => exact ⟨s, rfl, fun j hij hj => by omega, fun _ _ _ => Mem.Agree.refl _ _ _⟩
  | succ n ih =>
      obtain ⟨es, hrun, hes⟩ := cellInit_slabEvent (slabOf base i) s
      obtain ⟨s', hcells, halone, hframe⟩ := ih (i + 1) (s.after es)
      have hinside : ∀ lo hi, hi ≤ slabOf base i ∨ slabOf base i + 1048576 ≤ lo →
          s.mem.Agree (s.after es).mem lo hi := fun lo hi hd =>
        replay_agree fun e he => (hes e he).inside lo hi hd
      refine ⟨s', ?_, ?_, ?_⟩
      · rw [cacheInitCells, bind_ok hrun, slabOf_succ, bind_ok hcells]
        rfl
      · intro j hij hj t hsame
        rcases Nat.eq_or_lt_of_le hij with rfl | hlt
        · -- the slab of this cell is not touched by the rest of the loop
          obtain ⟨es', hrun', hrunt, -⟩ := cellInit_same hsame
          rw [hrun, EStateM.Result.ok.injEq] at hrun'
          have heq := Machine.after_inj hrun'.2
          subst heq
          exact ⟨_, hrunt, (hframe _ _ (Or.inl (slabOf_add_le base (Nat.lt_succ_self i)))).symm.trans
            (replay_same hsame es)⟩
        · have hsame' : SameSlab base j (s.after es) t :=
            (hinside _ _ (Or.inr (slabOf_add_le base hlt))).symm.trans hsame
          exact halone j hlt (by omega) t hsame'
      · intro lo hi hd
        have hfirst := slabOf_add_le base (show i < i + (n + 1) by omega)
        have hnext := slabOf_le base (show i ≤ i + 1 by omega)
        refine (hinside lo hi (by omega)).trans (hframe lo hi ?_)
        rw [Nat.add_right_comm i 1 n]
        rcases hd with hd | hd
        · exact Or.inl (by omega)
        · exact Or.inr hd

/-- `cache_init` on any buffer of two slots or more. -/
theorem cacheInit_spec (base : Nat) {n size : Nat} (hn : 1 ≤ n) (hslots : size / cacheCellSize = n + 1)
    (s : Store) : ∃ s', cacheInit base size s = .ok (cacheAt base n) s' ∧
      cacheMagic s'.mem base = cacheHeaderMagic ∧
      (cacheMagic s.mem base = cacheHeaderMagic →
        cacheCellCount s'.mem base = cacheCellCount s.mem base) ∧
      (cacheMagic s.mem base ≠ cacheHeaderMagic → cacheCellCount s'.mem base = n % 2 ^ 64) ∧
      (∀ j < n, ∀ t : Store, SameSlab base j s t →
        ∃ t', cellInit (slabOf base j) cacheCellSize t = .ok (cellAt (slabOf base j)) t' ∧
          SameSlab base j s' t') ∧
      ∀ lo hi, hi ≤ base ∨ slabOf base n ≤ lo → s.mem.Agree s'.mem lo hi := by
  obtain ⟨s₁, hheader, hmagic, hold, hnew, hframe₁⟩ := cacheHeaderInit_spec base n s
  obtain ⟨s₂, hcells, halone, hframe₂⟩ := cacheInitCells_spec base 0 n s₁
  rw [Nat.zero_add] at halone hframe₂
  -- the header lies in front of the slabs
  have hfront : s₁.mem.Agree s₂.mem base (base + 16) := hframe₂ _ _ (Or.inl (by
    rw [slabOf_zero, cacheCellSize]
    omega))
  have hcount : cacheCellCount s₂.mem base = cacheCellCount s₁.mem base := by
    rw [cacheCellCount, cacheCellCount, (hfront.mono (by omega) (by omega)).load64]
  refine ⟨s₂, ?_, ?_, ?_, ?_, ?_, ?_⟩
  · rw [cacheInit, hslots, always, check_bind_true _ (decide_eq_true (by omega)), Nat.add_sub_cancel,
      bind_ok hheader, ← slabOf_zero, bind_ok hcells, pure_run, cacheAt, List.range_eq_range']
  · rw [cacheMagic, (hfront.mono (Nat.le_refl _) (by omega)).load64]
    exact hmagic
  · intro h
    rw [hcount, hold h]
  · intro h
    rw [hcount, hnew h]
  · intro j hj t hsame
    have hbehind : SameSlab base j s s₁ := by
      have := base_add_le base j
      exact hframe₁ _ _ (Or.inr (by omega))
    exact halone j (Nat.zero_le j) hj t (hbehind.symm.trans hsame)
  · intro lo hi hd
    have := base_add_le base n
    refine (hframe₁ lo hi (by omega)).trans (hframe₂ lo hi ?_)
    rw [slabOf_zero]
    omega

/-! ## Caches that hold rings -/

structure CacheHolds (m : Mem) (base n : Nat) (rings : Nat → Ring) : Prop where
  magic : cacheMagic m base = cacheHeaderMagic
  count : cacheCellCount m base = n
  cell : ∀ i < n, CellHolds chunkerLimits m (slabOf base i) (rings i)
  placed : ∀ i < n, ∀ c, (rings i).lookup c ≠ none → c.part % n = i

theorem slots_eq (n : Nat) : (n + 1) * cacheCellSize / cacheCellSize = n + 1 :=
  Nat.mul_div_cancel _ (by rw [cacheCellSize]; omega)

/-- A buffer of a few slots. -/
theorem slots_lt (h : n ≤ 1024) : (n + 1) * cacheCellSize < 2 ^ 64 := by
  rw [cacheCellSize]
  omega

/-- A cache made of zeroes is empty. -/
theorem cacheInit_zero {size : Nat} (hn : 1 ≤ n) (hslots : size / cacheCellSize = n + 1)
    (hsize : size < 2 ^ 64) (hz : s.mem.Zero base (base + size)) :
    ∃ s', cacheInit base size s = .ok (cacheAt base n) s' ∧
      CacheHolds s'.mem base n (fun _ => Ring.empty) ∧
      ∀ j < n, ∀ t : Store, t.mem.Zero (slabOf base j) (slabOf base j + 1048576) →
        ∃ t', cellInit (slabOf base j) cacheCellSize t = .ok (cellAt (slabOf base j)) t' ∧
          SameSlab base j s' t' := by
  have hmul : 1048576 * n + 1048576 ≤ size := by
    have := Nat.div_mul_le_self size cacheCellSize
    rw [hslots, cacheCellSize] at this
    omega
  have hmagic : cacheMagic s.mem base ≠ cacheHeaderMagic := by
    rw [cacheMagic, (hz.mono (Nat.le_refl _) (by omega)).load64]
    decide
  have hzero : ∀ j < n, s.mem.Zero (slabOf base j) (slabOf base j + 1048576) := by
    intro j hj
    refine hz.mono ?_ ?_
    · have := base_add_le base j
      omega
    · simp only [slabOf, cacheCellSize]
      omega
  obtain ⟨s', hrun, hmagic', -, hcount, halone, -⟩ := cacheInit_spec base hn hslots s
  have hcell : ∀ j < n, ∀ t : Store, t.mem.Zero (slabOf base j) (slabOf base j + 1048576) →
      ∃ t', cellInit (slabOf base j) cacheCellSize t = .ok (cellAt (slabOf base j)) t' ∧
        SameSlab base j s' t' := by
    intro j hj t hzt
    exact halone j hj t fun a hlo hhi => by rw [hzt a hlo hhi, hzero j hj a hlo hhi]
  refine ⟨s', hrun, ⟨hmagic', ?_, ?_, ?_⟩, hcell⟩
  · rw [hcount hmagic, Nat.mod_eq_of_lt (by omega)]
  · intro j hj
    obtain ⟨t', hinit, hsame⟩ := hcell j hj s (hzero j hj)
    obtain ⟨t₁, hinit', -, -, -, hholds⟩ := cellInit_insane (slabOf base j) chunkerLimits
      (cellHeaderSane_zero (hzero j hj))
    rw [hinit', EStateM.Result.ok.injEq] at hinit
    rw [hinit.2] at hholds
    exact hholds.congr hsame.symm
  · intro i _ c hlookup
    exact absurd rfl hlookup

/-- A cache that is there is taken as it is. -/
theorem cacheInit_holds {size : Nat} {rings : Nat → Ring} (hn : 1 ≤ n)
    (hslots : size / cacheCellSize = n + 1) (h : CacheHolds s.mem base n rings) :
    ∃ s', cacheInit base size s = .ok (cacheAt base n) s' ∧ CacheHolds s'.mem base n rings := by
  obtain ⟨s', hrun, hmagic, hold, -, halone, -⟩ := cacheInit_spec base hn hslots s
  refine ⟨s', hrun, hmagic, (hold h.magic).trans h.count, fun i hi => ?_, h.placed⟩
  obtain ⟨t', hinit, hsame⟩ := halone i hi s (Mem.Agree.refl _ _ _)
  rw [cellInit_sane (h.cell i hi).sane, EStateM.Result.ok.injEq] at hinit
  rw [← hinit.2] at hsame
  exact (h.cell i hi).congr hsame.symm

/-- The cell of a checksum. -/
theorem cacheGetCellIndex_run {rings : Nat → Ring} (h : CacheHolds s.mem base n rings) (hn : 1 ≤ n)
    (c : Checksum) :
    cacheGetCellIndex (cacheAt base n) c s = .ok (cellAt (slabOf base (c.part % n))) s := by
  have hlt : c.part % n < n := Nat.mod_lt _ hn
  rw [cacheGetCellIndex, cacheAt, load_bind, h.count, List.getElem?_map, List.getElem?_range hlt]
  rfl

end

end Theo
