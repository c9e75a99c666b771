/-
  Lib/Folding.lean --- a loop over a list whose steps may fail, and here do not.

  `P` is what every step needs and leaves, `R` how the state may change, and `Q` what is true of
  an element once its step has been taken and stays true as the state changes.
-/
import Mathlib.Init

set_option autoImplicit false

namespace Folding

variable {σ α : Type} {f : σ → α → Option σ} {P : σ → Prop} {R : σ → σ → Prop} {Q : α → σ → Prop}

/-- The loop gets to the end, and then what its steps leave is true of every element. -/
theorem foldlM_some (hrefl : ∀ s, R s s) (htrans : ∀ s t u, R s t → R t u → R s u)
    (hmono : ∀ a s t, Q a s → R s t → Q a t) :
    ∀ (l : List α) (s : σ), P s →
      (∀ a ∈ l, ∀ t, R s t → P t → ∃ u, f t a = some u ∧ P u ∧ R t u ∧ Q a u) →
      ∃ t, l.foldlM f s = some t ∧ P t ∧ R s t ∧ ∀ a ∈ l, Q a t := by
  intro l
  induction l with
  | nil =>
    intro s hs _
    exact ⟨s, rfl, hs, hrefl s, fun a ha => by cases ha⟩
  | cons a l ih =>
    intro s hs step
    obtain ⟨u, hu, hpu, hru, hqu⟩ := step a List.mem_cons_self s (hrefl s) hs
    obtain ⟨t, ht, hpt, hrt, hqt⟩ := ih u hpu fun b hb t hr hp =>
      step b (List.mem_cons_of_mem _ hb) t (htrans s u t hru hr) hp
    refine ⟨t, ?_, hpt, htrans s u t hru hrt, ?_⟩
    · rw [List.foldlM_cons, hu]
      exact ht
    · intro b hb
      obtain rfl | hb := List.mem_cons.mp hb
      · exact hmono b u t hqu hrt
      · exact hqt b hb

end Folding
