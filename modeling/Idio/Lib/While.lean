/-
  Lib/While.lean --- fuelled `while` loops and their proof rules.

  A C loop `while (cond) body` over a state `σ` is `whileLoop stuck cond body fuel`:
  it runs `body` as long as `cond` holds, at most `fuel` times, and answers with
  the fault `stuck` when the fuel is gone and the condition still holds.  The body
  may itself fail, which ends the loop with the body's fault.

  Three rules are proved.  `whileLoop_outcome` is total correctness for a body that
  may raise a fault; `whileLoop_total` is the same rule for a body that cannot;
  `whileLoop_invariant` is partial correctness: what the body keeps holds when the
  loop has ended.
-/
import Mathlib.Order.Basic

set_option autoImplicit false

namespace WhileLoop

variable {ε σ : Type}

/-- `while (cond s) s := body s`, at most `fuel` times round. -/
def whileLoop (stuck : ε) (cond : σ → Bool) (body : σ → Except ε σ) :
    Nat → σ → Except ε σ
  | 0, s => if cond s then .error stuck else .ok s
  | fuel + 1, s =>
      if cond s then
        match body s with
        | .ok s' => whileLoop stuck cond body fuel s'
        | .error e => .error e
      else .ok s

variable {stuck : ε} {cond : σ → Bool} {body : σ → Except ε σ}

theorem whileLoop_of_false {s : σ} (fuel : Nat) (h : cond s = false) :
    whileLoop stuck cond body fuel s = .ok s := by
  cases fuel <;> simp [whileLoop, h]

theorem whileLoop_of_true {s s' : σ} (fuel : Nat) (h : cond s = true)
    (hb : body s = .ok s') :
    whileLoop stuck cond body (fuel + 1) s = whileLoop stuck cond body fuel s' := by
  simp [whileLoop, h, hb]

theorem whileLoop_of_raise {s : σ} {e : ε} (fuel : Nat) (h : cond s = true)
    (hb : body s = .error e) :
    whileLoop stuck cond body (fuel + 1) s = .error e := by
  simp [whileLoop, h, hb]

/-- The body keeps the invariant, so the loop does. -/
theorem whileLoop_invariant {Inv : σ → Prop}
    (step : ∀ s s', Inv s → cond s = true → body s = .ok s' → Inv s') :
    ∀ {fuel : Nat} {s s' : σ}, Inv s → whileLoop stuck cond body fuel s = .ok s' → Inv s' := by
  intro fuel
  induction fuel with
  | zero =>
    intro s s' hinv h
    rw [whileLoop] at h
    split at h
    · cases h
    · cases h
      exact hinv
  | succ n ih =>
    intro s s' hinv h
    rw [whileLoop] at h
    split at h
    · rename_i hc
      split at h
      · rename_i s₁ hs₁
        exact ih (step s s₁ hinv hc hs₁) h
      · cases h
    · cases h
      exact hinv

/-- How a loop ends: in a state that keeps the invariant and stops the loop, or
with a fault that the body may raise. -/
def Ends (cond : σ → Bool) (Inv : σ → Prop) (Raises : ε → Prop) :
    Except ε σ → Prop
  | .ok s => Inv s ∧ cond s = false
  | .error e => Raises e

/-- **The loop rule.**  A body that keeps the invariant and lowers the measure,
or raises an admitted fault, makes a loop that ends, once the fuel exceeds the
measure. -/
theorem whileLoop_outcome {Inv : σ → Prop} {Raises : ε → Prop} {measure : σ → Nat}
    (step : ∀ s, Inv s → cond s = true →
      (∃ s', body s = .ok s' ∧ Inv s' ∧ measure s' < measure s) ∨
        (∃ e, body s = .error e ∧ Raises e)) :
    ∀ (fuel : Nat) (s : σ), Inv s → measure s < fuel →
      Ends cond Inv Raises (whileLoop stuck cond body fuel s) := by
  intro fuel
  induction fuel with
  | zero => intro s _ hlt; exact absurd hlt (Nat.not_lt_zero _)
  | succ n ih =>
    intro s hinv hlt
    cases hc : cond s with
    | false =>
      rw [whileLoop_of_false _ hc]
      exact ⟨hinv, hc⟩
    | true =>
      rcases step s hinv hc with ⟨s', hs', hinv', hdec⟩ | ⟨e, he, hr⟩
      · rw [whileLoop_of_true n hc hs']
        exact ih s' hinv' (by omega)
      · rw [whileLoop_of_raise n hc he]
        exact hr

/-- The loop rule for a body that cannot fail under the invariant. -/
theorem whileLoop_total {Inv : σ → Prop} {measure : σ → Nat}
    (step : ∀ s, Inv s → cond s = true →
      ∃ s', body s = .ok s' ∧ Inv s' ∧ measure s' < measure s)
    {fuel : Nat} {s : σ} (hinv : Inv s) (hlt : measure s < fuel) :
    ∃ s', whileLoop stuck cond body fuel s = .ok s' ∧ Inv s' ∧ cond s' = false := by
  have hends : Ends cond Inv (fun _ => False) (whileLoop stuck cond body fuel s) :=
    whileLoop_outcome (fun s hs hc => Or.inl (step s hs hc)) fuel s hinv hlt
  cases hrun : whileLoop stuck cond body fuel s with
  | error e => rw [hrun] at hends; exact hends.elim
  | ok s' => rw [hrun] at hends; exact ⟨s', rfl, hends⟩

end WhileLoop
