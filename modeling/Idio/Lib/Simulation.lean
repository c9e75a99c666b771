/-
  Lib/Simulation.lean --- a machine that does what an evaluator says.

  A machine takes one step after another, and each step may be an error.  An evaluator with a
  fuel returns a value or an error, and one of its errors says that the fuel was not enough.

  `Obeys` relates the two: where the evaluator has a value the machine comes to a state that
  goes with it, where the evaluator has an error the machine comes to the same error, and where
  the fuel was not enough the machine takes as many steps as there was fuel.  It goes through
  the sequences of an evaluator, so that a machine is followed by following its evaluator.
-/
import Mathlib.Logic.Basic

set_option autoImplicit false

namespace Simulation

section

variable {σ ε : Type} (step : σ → Except ε σ)

/-- The machine comes to a state of `Q`. -/
inductive Reaches (Q : σ → Prop) : σ → Prop
  | here {s : σ} : Q s → Reaches Q s
  | next {s s' : σ} : step s = .ok s' → Reaches Q s' → Reaches Q s

/-- The machine comes to the error `e`. -/
inductive Fails (e : ε) : σ → Prop
  | here {s : σ} : step s = .error e → Fails e s
  | next {s s' : σ} : step s = .ok s' → Fails e s' → Fails e s

/-- The machine takes `n` steps. -/
def Lasts : Nat → σ → Prop
  | 0, _ => True
  | n + 1, s => ∃ s', step s = .ok s' ∧ Lasts n s'

/-- The machine never stops. -/
def Forever (s : σ) : Prop := ∀ n, Lasts step n s

/-- Some steps of the machine. -/
def steps : Nat → σ → Except ε σ
  | 0, s => .ok s
  | n + 1, s => step s >>= steps n

/-- The machine does what the evaluator's result says. -/
def Obeys {α : Type} (lost : ε) (n : Nat) (r : Except ε α) (post : α → σ → Prop) (s : σ) :
    Prop :=
  match r with
  | .ok a => Reaches step (post a) s
  | .error e => Fails step e s ∨ (e = lost ∧ Lasts step n s)

end

section

variable {σ ε α β : Type} {step : σ → Except ε σ} {lost e : ε} {n m : Nat} {s s' : σ}

/-! ## States to come to -/

namespace Reaches

variable {Q R : σ → Prop}

theorem bind (h : Reaches step Q s) (k : ∀ s', Q s' → Reaches step R s') : Reaches step R s := by
  induction h with
  | here hq => exact k _ hq
  | next hs _ ih => exact .next hs ih

theorem mono (h : Reaches step Q s) (k : ∀ s', Q s' → R s') : Reaches step R s :=
  h.bind fun s' hq => .here (k s' hq)

theorem steps_eq (h : Reaches step Q s) : ∃ k s', steps step k s = .ok s' ∧ Q s' := by
  induction h with
  | here hq => exact ⟨0, _, rfl, hq⟩
  | next hs _ ih =>
    obtain ⟨k, s', hk, hq⟩ := ih
    refine ⟨k + 1, s', ?_, hq⟩
    rw [steps, hs]
    exact hk

end Reaches

theorem Fails.steps_eq (h : Fails step e s) : ∃ k, steps step k s = .error e := by
  induction h with
  | here hs =>
    refine ⟨1, ?_⟩
    rw [steps, hs]
    rfl
  | next hs _ ih =>
    obtain ⟨k, hk⟩ := ih
    refine ⟨k + 1, ?_⟩
    rw [steps, hs]
    exact hk

/-! ## Steps to take -/

theorem Lasts.le (h : Lasts step n s) (hmn : m ≤ n) : Lasts step m s := by
  induction m generalizing n s with
  | zero => trivial
  | succ m ih =>
    cases n with
    | zero => exact absurd hmn (Nat.not_succ_le_zero m)
    | succ n =>
      obtain ⟨s', hs, hl⟩ := h
      exact ⟨s', hs, ih hl (Nat.le_of_succ_le_succ hmn)⟩

/-! ## Following an evaluator -/

namespace Obeys

variable {r : Except ε α} {f : α → Except ε β} {P : α → σ → Prop} {Q : β → σ → Prop}

theorem value {a : α} (h : P a s) : Obeys step lost n (.ok a) P s := Reaches.here h

theorem lost_zero : Obeys step lost 0 (.error lost : Except ε α) P s := .inr ⟨rfl, trivial⟩

theorem le (h : Obeys step lost n r P s) (hmn : m ≤ n) : Obeys step lost m r P s := by
  cases r with
  | ok a => exact h
  | error e =>
    rcases h with hf | ⟨he, hl⟩
    · exact .inl hf
    · exact .inr ⟨he, hl.le hmn⟩

/-- A step first, which counts. -/
theorem tick (hs : step s = .ok s') (h : Obeys step lost n r P s') :
    Obeys step lost (n + 1) r P s := by
  cases r with
  | ok a => exact Reaches.next hs h
  | error e =>
    rcases h with hf | ⟨he, hl⟩
    · exact .inl (.next hs hf)
    · exact .inr ⟨he, s', hs, hl⟩

theorem next (hs : step s = .ok s') (h : Obeys step lost n r P s') :
    Obeys step lost n r P s :=
  (tick hs h).le (Nat.le_succ n)

/-- Some steps first. -/
theorem after {R : σ → Prop} (h : Reaches step R s)
    (k : ∀ s', R s' → Obeys step lost n r P s') : Obeys step lost n r P s := by
  induction h with
  | here hr => exact k _ hr
  | next hs _ ih => exact next hs ih

theorem bind (h : Obeys step lost n r P s)
    (k : ∀ a s', r = .ok a → P a s' → Obeys step lost n (f a) Q s') :
    Obeys step lost n (r >>= f) Q s := by
  cases r with
  | ok a => exact after h fun s' hp => k a s' rfl hp
  | error e => exact h

/-- Some steps afterwards. -/
theorem finish {R : α → σ → Prop} (h : Obeys step lost n r P s)
    (k : ∀ a s', r = .ok a → P a s' → Reaches step (R a) s') : Obeys step lost n r R s := by
  cases r with
  | ok a => exact Reaches.bind h fun s' hp => k a s' rfl hp
  | error e => exact h

theorem mono {R : α → σ → Prop} (h : Obeys step lost n r P s)
    (k : ∀ a s', r = .ok a → P a s' → R a s') : Obeys step lost n r R s :=
  h.finish fun a s' hr hp => .here (k a s' hr hp)

end Obeys

end

end Simulation
