/-
  Lib/Behaviour.lean --- computations with a state, errors and choices.

  A computation relates the state that it starts in to how it ends and the state that it ends
  in.  One that relates nothing to a state does not end from it.
-/
import Mathlib.Logic.Basic

set_option autoImplicit false

namespace Idio

/-- A computation with states in `σ`, errors in `ε` and values in `ν`. -/
def Behaviour (σ ε ν : Type) : Type := σ → Except ε ν → σ → Prop

namespace Behaviour

variable {σ ε ν μ : Type}

/-- The value, with nothing else. -/
def pure (v : ν) : Behaviour σ ε ν := fun s r s' => r = .ok v ∧ s' = s

/-- One computation, and then the one that its value selects. -/
def bind (m : Behaviour σ ε ν) (k : ν → Behaviour σ ε μ) : Behaviour σ ε μ := fun s r s' =>
  (∃ v s₁, m s (.ok v) s₁ ∧ k v s₁ r s') ∨ ∃ x, m s (.error x) s' ∧ r = .error x

@[simp] theorem pure_bind (v : ν) (k : ν → Behaviour σ ε μ) :
    (pure v : Behaviour σ ε ν).bind k = k v := by
  funext s r s'
  apply propext
  constructor
  · rintro (⟨w, s₁, ⟨hw, rfl⟩, hk⟩ | ⟨x, ⟨hx, -⟩, -⟩)
    · cases hw
      exact hk
    · cases hx
  · intro hk
    exact .inl ⟨v, s, ⟨rfl, rfl⟩, hk⟩

theorem bind_congr {m : Behaviour σ ε ν} {k l : ν → Behaviour σ ε μ} (h : ∀ v, k v = l v) :
    m.bind k = m.bind l := by
  rw [funext h]

end Behaviour

end Idio
