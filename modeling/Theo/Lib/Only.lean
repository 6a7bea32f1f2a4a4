import Theo.Lib.Local

set_option autoImplicit false

/-! # What a program can do

`Only Q x`: all events of a run of `x`, on any memory and whether it returns or not, satisfy `Q`.
`Reads x`: there are none, and all that `x` depends on is the memory. `Blind x`: it does not depend on
that either. -/

namespace ByteMachine

variable {ε τ α β : Type} {Q Q' : Event τ → Prop}

structure Only (Q : Event τ → Prop) (x : Prog ε τ α) : Prop where
  emits : ∀ s, Emits Q s (final (x s))

namespace Only

theorem mono {x : Prog ε τ α} (h : Only Q x) (hQ : ∀ e, Q e → Q' e) : Only Q' x :=
  ⟨fun s => (h.emits s).mono hQ⟩

theorem ok {x : Prog ε τ α} (h : Only Q x) {s s' : Machine τ} {a : α} (hrun : x s = .ok a s') :
    Emits Q s s' := by
  have hemits := h.emits s
  rwa [hrun] at hemits

theorem error {x : Prog ε τ α} (h : Only Q x) {s s' : Machine τ} {e : ε}
    (hrun : x s = .error e s') : Emits Q s s' := by
  have hemits := h.emits s
  rwa [hrun] at hemits

theorem bind {x : Prog ε τ α} {f : α → Prog ε τ β} (hx : Only Q x) (hf : ∀ a, Only Q (f a)) :
    Only Q (x >>= f) where
  emits := by
    intro s
    cases hrun : x s with
    | error e s' =>
        rw [bind_error hrun]
        exact hx.error hrun
    | ok a s' =>
        rw [bind_ok hrun]
        exact (hx.ok hrun).trans ((hf a).emits s')

theorem pure (a : α) : Only Q (Pure.pure a : Prog ε τ α) := ⟨fun s => Emits.refl Q s⟩

theorem throw (e : ε) : Only Q (MonadExcept.throw e : Prog ε τ α) := ⟨fun s => Emits.refl Q s⟩

theorem check (e : ε) (b : Bool) : Only Q (ByteMachine.check e b : Prog ε τ Unit) := by
  cases b
  · exact throw e
  · exact pure ()

theorem ite {c : Prop} [Decidable c] {x y : Prog ε τ α} (hx : Only Q x) (hy : Only Q y) :
    Only Q (if c then x else y) := by
  split
  · exact hx
  · exact hy

theorem load (f : Mem → α) : Only Q (ByteMachine.load f : Prog ε τ α) := ⟨fun s => Emits.refl Q s⟩

theorem emit {e : Event τ} (h : Q e) : Only Q (ByteMachine.emit e : Prog ε τ Unit) :=
  ⟨fun s => Emits.emit s h⟩

theorem store32 {site : τ} {addr : Nat} (h : ∀ bytes, Q (.store site addr bytes)) (v : Nat) :
    Only Q (ByteMachine.store32 site addr v : Prog ε τ Unit) := emit (h _)

theorem storeBits {site : τ} {addr : Nat} (h : ∀ bytes, Q (.store site addr bytes)) (lo n v : Nat) :
    Only Q (ByteMachine.storeBits site addr lo n v : Prog ε τ Unit) :=
  ⟨fun s => Emits.store32 s (h _)⟩

theorem storeBytes {site : τ} (h : ∀ addr bytes, Q (.store site addr bytes)) (addr : Nat)
    (bytes : List UInt8) : Only Q (ByteMachine.storeBytes site addr bytes : Prog ε τ Unit) :=
  ⟨fun s => Emits.storeBytes s fun a b _ _ _ => h a [b]⟩

theorem memset {site : τ} (h : ∀ addr bytes, Q (.store site addr bytes)) (addr n : Nat) :
    Only Q (ByteMachine.memset site addr n : Prog ε τ Unit) := storeBytes h addr _

end Only

/-! ## Programs that only read -/

/-- A result on a machine that stays as it is. -/
def resultAt (result : Except ε α) (s : Machine τ) : EStateM.Result ε (Machine τ) α :=
  match result with
  | .ok a => .ok a s
  | .error e => .error e s

structure Reads (x : Prog ε τ α) : Prop where
  run : ∃ f : Mem → Except ε α, ∀ s, x s = resultAt (f s.mem) s

namespace Reads

theorem only {x : Prog ε τ α} (h : Reads x) : Only Q x where
  emits := by
    intro s
    obtain ⟨f, hf⟩ := h.run
    rw [hf]
    cases f s.mem with
    | ok a => exact Emits.refl Q s
    | error e => exact Emits.refl Q s

/-- It does the same wherever the memory is the same. -/
theorem same {x : Prog ε τ α} (h : Reads x) {s s' t : Machine τ} {a : α} (hrun : x s = .ok a s')
    (hmem : t.mem = s.mem) : s' = s ∧ x t = .ok a t := by
  obtain ⟨f, hf⟩ := h.run
  rw [hf] at hrun
  rw [hf, hmem]
  cases hresult : f s.mem with
  | ok b =>
      rw [hresult, resultAt, EStateM.Result.ok.injEq] at hrun
      exact ⟨hrun.2.symm, by rw [resultAt, hrun.1]⟩
  | error e =>
      rw [hresult, resultAt] at hrun
      cases hrun

theorem pure (a : α) : Reads (Pure.pure a : Prog ε τ α) := ⟨fun _ => .ok a, fun _ => rfl⟩

theorem throw (e : ε) : Reads (MonadExcept.throw e : Prog ε τ α) := ⟨fun _ => .error e, fun _ => rfl⟩

theorem load (f : Mem → α) : Reads (ByteMachine.load f : Prog ε τ α) :=
  ⟨fun m => .ok (f m), fun _ => rfl⟩

theorem bind {x : Prog ε τ α} {f : α → Prog ε τ β} (hx : Reads x) (hf : ∀ a, Reads (f a)) :
    Reads (x >>= f) where
  run := by
    obtain ⟨g, hg⟩ := hx.run
    choose g' hg' using fun a => (hf a).run
    refine ⟨fun m => (g m).bind fun a => g' a m, fun s => ?_⟩
    have hrun := hg s
    cases hresult : g s.mem with
    | ok a =>
        rw [hresult, resultAt] at hrun
        simp only [bind_ok hrun, hg', hresult, Except.bind]
    | error e =>
        rw [hresult, resultAt] at hrun
        simp only [bind_error hrun, hresult, Except.bind, resultAt]

theorem ite {c : Prop} [Decidable c] {x y : Prog ε τ α} (hx : Reads x) (hy : Reads y) :
    Reads (if c then x else y) := by
  split
  · exact hx
  · exact hy

end Reads

/-! ## Programs that do not look at the memory -/

structure Blind (x : Prog ε τ α) : Prop where
  run : ∃ result : Except ε α, ∀ s, x s = resultAt result s

namespace Blind

/-- It returns the same everywhere. -/
theorem elsewhere {x : Prog ε τ α} (h : Blind x) {s s' : Machine τ} {a : α} (hrun : x s = .ok a s')
    (t : Machine τ) : x t = .ok a t := by
  obtain ⟨result, hresult⟩ := h.run
  rw [hresult] at hrun
  rw [hresult]
  cases result with
  | ok b =>
      rw [resultAt, EStateM.Result.ok.injEq] at hrun
      rw [resultAt, hrun.1]
  | error e =>
      rw [resultAt] at hrun
      cases hrun

theorem pure (a : α) : Blind (Pure.pure a : Prog ε τ α) := ⟨.ok a, fun _ => rfl⟩

theorem throw (e : ε) : Blind (MonadExcept.throw e : Prog ε τ α) := ⟨.error e, fun _ => rfl⟩

theorem check (e : ε) (b : Bool) : Blind (ByteMachine.check e b : Prog ε τ Unit) := by
  cases b
  · exact throw e
  · exact pure ()

theorem bind {x : Prog ε τ α} {f : α → Prog ε τ β} (hx : Blind x) (hf : ∀ a, Blind (f a)) :
    Blind (x >>= f) where
  run := by
    obtain ⟨result, hresult⟩ := hx.run
    cases result with
    | ok a =>
        obtain ⟨result', hresult'⟩ := (hf a).run
        exact ⟨result', fun s => (bind_ok (hresult s) f).trans (hresult' s)⟩
    | error e => exact ⟨.error e, fun s => bind_error (hresult s) f⟩

theorem ite {c : Prop} [Decidable c] {x y : Prog ε τ α} (hx : Blind x) (hy : Blind y) :
    Blind (if c then x else y) := by
  split
  · exact hx
  · exact hy

end Blind

end ByteMachine
