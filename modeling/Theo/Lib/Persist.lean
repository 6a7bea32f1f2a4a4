import Theo.Lib.Machine

set_option autoImplicit false

/-! # What survives a crash

Memory that outlives the process sees its stores late: a memory barrier makes every earlier store
durable, and of the stores issued since the last barrier any subset may have become durable when
the process dies. `Durable m es d` says that `d` is such a memory after the events `es` on a
memory `m` that was durable to begin with. -/

namespace ByteMachine

variable {τ : Type}

/-- `d` may be what is left in memory when the process dies after `es`: everything up to the last
barrier, and any selection of the stores behind it. -/
def Durable (m : Mem) (es : List (Event τ)) (d : Mem) : Prop :=
  ∃ done pending kept, es = done ++ pending ∧ (done = [] ∨ done.getLast? = some .barrier) ∧
    (∀ e ∈ pending, e ≠ .barrier) ∧ kept.Sublist pending ∧ d = replay (replay m done) kept

/-- With no barrier yet, any selection of the stores may be durable. -/
theorem durable_of_no_barrier {m d : Mem} {es : List (Event τ)} (h : ∀ e ∈ es, e ≠ .barrier) :
    Durable m es d ↔ ∃ kept, kept.Sublist es ∧ d = replay m kept := by
  constructor
  · rintro ⟨done, pending, kept, rfl, hdone, -, hsub, rfl⟩
    rcases hdone with rfl | hlast
    · exact ⟨kept, hsub, rfl⟩
    · have hmem : Event.barrier ∈ done := List.mem_of_getLast? hlast
      exact absurd rfl (h _ (List.mem_append_left _ hmem))
  · rintro ⟨kept, hsub, rfl⟩
    exact ⟨[], es, kept, rfl, Or.inl rfl, h, hsub, rfl⟩

/-- Past a barrier, everything before it is durable. -/
theorem durable_barrier {m d : Mem} (es es' : List (Event τ)) :
    Durable m (es ++ .barrier :: es') d ↔ Durable (replay m es) es' d := by
  constructor
  · rintro ⟨done, pending, kept, heq, hdone, hpend, hsub, rfl⟩
    -- the barrier between `es` and `es'` is not among the pending stores, so it lies in `done`
    rcases List.append_eq_append_iff.1 heq with ⟨mid, hd, hmid⟩ | ⟨mid, he, hp⟩
    · cases mid with
      | nil => exact absurd rfl (hpend .barrier (by rw [List.nil_append] at hmid; simp [← hmid]))
      | cons e rest =>
          rw [List.cons_append, List.cons.injEq] at hmid
          obtain ⟨rfl, rfl⟩ := hmid
          subst hd
          refine ⟨rest, pending, kept, rfl, ?_, hpend, hsub, ?_⟩
          · cases rest with
            | nil => exact Or.inl rfl
            | cons e' rest' =>
                right
                rcases hdone with hnil | hlast
                · simp at hnil
                · rw [List.getLast?_append_cons] at hlast
                  rwa [List.getLast?_cons_cons] at hlast
          · rw [replay_append]
            rfl
    · exact absurd rfl (hpend .barrier (by simp [hp]))
  · rintro ⟨done, pending, kept, rfl, hdone, hpend, hsub, rfl⟩
    refine ⟨es ++ .barrier :: done, pending, kept, by simp, Or.inr ?_, hpend, hsub, ?_⟩
    · rcases hdone with rfl | hlast
      · simp
      · rw [List.getLast?_append_cons]
        cases done with
        | nil => simp at hlast
        | cons e rest => rwa [List.getLast?_cons_cons]
    · rw [replay_append]
      rfl

theorem Event.StoreIn.ne_barrier {e : Event τ} {site : τ} {lo hi : Nat} (h : e.StoreIn site lo hi) :
    e ≠ .barrier := by
  obtain ⟨addr, bytes, rfl, -⟩ := h
  intro hbarrier
  cases hbarrier

/-! ## A crash at any point -/

/-- `d` may be what is left in memory when the process dies somewhere in `es`. -/
def Crash (m : Mem) (es : List (Event τ)) (d : Mem) : Prop := ∃ pre, pre <+: es ∧ Durable m pre d

/-- With no barrier, any selection of the stores may be left. -/
theorem crash_of_no_barrier {m d : Mem} {es : List (Event τ)} (h : ∀ e ∈ es, e ≠ .barrier) :
    Crash m es d ↔ ∃ kept, kept.Sublist es ∧ d = replay m kept := by
  constructor
  · rintro ⟨pre, hpre, hd⟩
    obtain ⟨kept, hsub, rfl⟩ :=
      (durable_of_no_barrier fun e he => h e (hpre.subset he)).1 hd
    exact ⟨kept, hsub.trans hpre.sublist, rfl⟩
  · rintro hkept
    exact ⟨es, List.prefix_rfl, (durable_of_no_barrier h).2 hkept⟩

theorem crash_nil {m d : Mem} (h : Crash m ([] : List (Event τ)) d) : d = m := by
  obtain ⟨kept, hkept, rfl⟩ := (crash_of_no_barrier fun e he => absurd he List.not_mem_nil).1 h
  rw [List.sublist_nil.1 hkept]
  rfl

/-- A single store is left or not. -/
theorem crash_store {m d : Mem} {site : τ} {addr : Nat} {bytes : List UInt8}
    (h : Crash m [.store site addr bytes] d) : d = m ∨ d = m.write addr bytes := by
  have hstore : ∀ e ∈ [Event.store site addr bytes], e ≠ .barrier := by
    intro e he
    rw [List.mem_singleton.1 he]
    intro hbarrier
    cases hbarrier
  obtain ⟨kept, hkept, rfl⟩ := (crash_of_no_barrier hstore).1 h
  rcases List.sublist_singleton.1 hkept with rfl | rfl
  · exact Or.inl rfl
  · exact Or.inr rfl

/-- The process dies in front of a barrier, or behind it with everything before it durable. -/
theorem crash_barrier {m d : Mem} {es es' : List (Event τ)} (h : Crash m (es ++ .barrier :: es') d) :
    Crash m es d ∨ Crash (replay m es) es' d := by
  obtain ⟨pre, ⟨post, hpost⟩, hd⟩ := h
  rcases List.append_eq_append_iff.1 hpost with ⟨mid, rfl, -⟩ | ⟨mid, rfl, hmid⟩
  · exact Or.inl ⟨pre, List.prefix_append _ _, hd⟩
  · cases mid with
    | nil => exact Or.inl ⟨es, List.prefix_rfl, by rwa [List.append_nil] at hd⟩
    | cons e rest =>
        rw [List.cons_append, List.cons.injEq] at hmid
        obtain ⟨rfl, rfl⟩ := hmid
        exact Or.inr ⟨rest, List.prefix_append _ _, (durable_barrier es rest).1 hd⟩

end ByteMachine
