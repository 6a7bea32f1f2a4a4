import Mathlib.Tactic.Common

set_option autoImplicit false

/-! # Rules of pre- and postconditions

`Triple P x Q`: where `P` holds of the state, a run of `x` that returns leaves a result and a state of
which `Q` holds. Nothing is said of runs that fail. -/

namespace Hoare

variable {ε σ α β : Type}

def Triple (P : σ → Prop) (x : EStateM ε σ α) (Q : α → σ → Prop) : Prop :=
  ∀ s a s', P s → x s = .ok a s' → Q a s'

namespace Triple

variable {P P' : σ → Prop} {Q Q' : α → σ → Prop} {R : β → σ → Prop}

theorem pure {a : α} (h : ∀ s, P s → Q a s) : Triple P (pure a : EStateM ε σ α) Q := by
  intro s b s' hs hrun
  cases hrun
  exact h s hs

theorem throw (e : ε) : Triple P (throw e : EStateM ε σ α) Q := by
  intro s a s' _ hrun
  cases hrun

theorem bind {x : EStateM ε σ α} {f : α → EStateM ε σ β} (hx : Triple P x Q)
    (hf : ∀ a, Triple (Q a) (f a) R) : Triple P (x >>= f) R := by
  intro s b s'' hs hrun
  have hbind : EStateM.bind x f s = .ok b s'' := hrun
  rw [EStateM.bind] at hbind
  cases hx₁ : x s with
  | ok a s' =>
      rw [hx₁] at hbind
      exact hf a s' b s'' (hx s a s' hs hx₁) hbind
  | error e s' =>
      rw [hx₁] at hbind
      cases hbind

theorem weaken {x : EStateM ε σ α} (h : Triple P x Q) (hP : ∀ s, P' s → P s)
    (hQ : ∀ a s, Q a s → Q' a s) : Triple P' x Q' := fun s a s' hs hrun =>
  hQ a s' (h s a s' (hP s hs) hrun)

theorem pre {x : EStateM ε σ α} (h : Triple P x Q) (hP : ∀ s, P' s → P s) : Triple P' x Q :=
  h.weaken hP fun _ _ hQ => hQ

theorem ite {c : Prop} [Decidable c] {x y : EStateM ε σ α} (hx : c → Triple P x Q)
    (hy : ¬c → Triple P y Q) : Triple P (if c then x else y) Q := by
  split
  · next hc => exact hx hc
  · next hc => exact hy hc

/-- What is known of the state may be known for some value. -/
theorem of_exists {γ : Type} {x : EStateM ε σ α} {S : γ → σ → Prop} (h : ∀ c, Triple (S c) x Q) :
    Triple (fun s => ∃ c, S c s) x Q := by
  rintro s a s' ⟨c, hs⟩ hrun
  exact h c s a s' hs hrun

/-- What is kept of each value is kept of the one there is. -/
theorem keep {γ : Type} {x : EStateM ε σ α} {S : γ → σ → Prop} (φ : γ → Prop)
    (h : ∀ c, Triple (S c) x fun _ => S c) :
    Triple (fun s => ∃ c, φ c ∧ S c s) x (fun _ s => ∃ c, φ c ∧ S c s) := by
  rintro s a s' ⟨c, hc, hs⟩ hrun
  exact ⟨c, hc, h c s a s' hs hrun⟩

/-- Part of what is known may be no matter of the state. -/
theorem of_fact {x : EStateM ε σ α} {φ : Prop} (h : φ → Triple P x Q) :
    Triple (fun s => φ ∧ P s) x Q := fun s a s' hs => h hs.1 s a s' hs.2

/-- A program that is a function of the state. -/
theorem of_run {x : EStateM ε σ α} {f : σ → α} {g : σ → σ} (hx : ∀ s, x s = .ok (f s) (g s))
    (h : ∀ s, P s → Q (f s) (g s)) : Triple P x Q := by
  intro s a s' hs hrun
  rw [hx, EStateM.Result.ok.injEq] at hrun
  rw [← hrun.1, ← hrun.2]
  exact h s hs

end Triple

end Hoare
