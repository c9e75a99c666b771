/-
  Delim/Missing.lean --- unwinding to a tag that is not there.

  `unwind-till-tagged!` looks for the tag on the whole stack before it takes a hole, but
  `tag-exists?` does not ask for the mark, and a hole is only stopped at if it has both.  A
  tag that is on unmarked holes only is found until the last of them is taken, and the
  condition is raised with those holes gone.
-/
import Idio.Delim.Holes

set_option autoImplicit false

namespace Idio.Delim

section Missing

variable {C S : Type}

/-- `unwind-till-tagged!`, with the holes that are left where it raises, too. -/
def unwindTillTaggedHoles (tag : Tag) :
    List (Hole C) → Result (List (Hole C)) × List (Hole C)
  | [] => (.error (.variableUnbound "tag unbound" "unwind-to*"), [])
  | h :: hs =>
      if tagExists (h :: hs) tag then
        if h.tagged tag then (.ok [], h :: hs)
        else
          let r := unwindTillTaggedHoles tag hs
          (r.1.map fun taken => h :: taken, r.2)
      else (.error (.variableUnbound "tag unbound" "unwind-to*"), h :: hs)

/-- The same call, less the holes where it raises. -/
theorem unwindTillTagged_eq (tag : Tag) (hs : List (Hole C)) :
    unwindTillTagged tag hs =
      (unwindTillTaggedHoles tag hs).1.map fun taken => (taken, (unwindTillTaggedHoles tag hs).2) := by
  induction hs with
  | nil => rfl
  | cons h hs ih =>
    rw [unwindTillTagged, unwindTillTaggedHoles]
    by_cases hexists : tagExists (h :: hs) tag = true
    · rw [if_pos hexists, if_pos hexists]
      by_cases htagged : h.tagged tag = true
      · rw [if_pos htagged, if_pos htagged]
        rfl
      · rw [if_neg htagged, if_neg htagged, ih]
        rcases unwindTillTaggedHoles tag hs with ⟨_ | _, _⟩ <;> rfl
    · rw [if_neg hexists, if_neg hexists]
      rfl

/-- A marked hole of the tag is on the stack. -/
def Prompted (tag : Tag) (hs : List (Hole C)) : Prop := ∃ h ∈ hs, h.tagged tag = true

/-- The call raises a condition. -/
def Raises {α : Type} (res : Result α) : Prop := ∃ e, res = .error e

theorem raises_map {α β : Type} (f : α → β) (res : Result α) : Raises (res.map f) ↔ Raises res := by
  cases res <;> simp [Raises, Except.map]

theorem tagExists_of_prompted {tag : Tag} {hs : List (Hole C)} (h : Prompted tag hs) :
    tagExists hs tag = true := by
  obtain ⟨g, hg, htagged⟩ := h
  rw [Hole.tagged, Bool.and_eq_true] at htagged
  exact List.any_eq_true.mpr ⟨g, hg, htagged.1⟩

/-- With a marked hole of the tag the holes above the first of them are taken. -/
theorem unwind_prompted {tag : Tag} {hs : List (Hole C)} (h : Prompted tag hs) :
    ∃ above g below, hs = above ++ g :: below ∧ g.tagged tag = true ∧
      (∀ g' ∈ above, g'.tagged tag = false) ∧
      unwindTillTaggedHoles tag hs = (.ok above, g :: below) := by
  induction hs with
  | nil =>
    obtain ⟨g, hg, -⟩ := h
    cases hg
  | cons g hs ih =>
    rw [unwindTillTaggedHoles, if_pos (tagExists_of_prompted h)]
    cases htagged : g.tagged tag with
    | true => exact ⟨[], g, hs, rfl, htagged, by simp, by rw [if_pos rfl]⟩
    | false =>
      have hrest : Prompted tag hs := by
        obtain ⟨g', hg', hg't⟩ := h
        rcases List.mem_cons.mp hg' with rfl | hmem
        · rw [htagged] at hg't
          cases hg't
        · exact ⟨g', hmem, hg't⟩
      obtain ⟨above, g₀, below, rfl, hg₀, habove, hrun⟩ := ih hrest
      refine ⟨g :: above, g₀, below, rfl, hg₀, List.forall_mem_cons.mpr ⟨htagged, habove⟩, ?_⟩
      rw [if_neg (by decide), hrun]
      rfl

/-- Without one the call raises, and the holes down to the last of the tag are gone. -/
theorem unwind_missing {tag : Tag} {hs : List (Hole C)} (h : ¬ Prompted tag hs) :
    Raises (unwindTillTaggedHoles tag hs).1 ∧
      ((unwindTillTaggedHoles tag hs).2 = hs ↔ tagExists hs tag = false) ∧
      (unwindTillTaggedHoles tag hs).2.length ≤ hs.length := by
  induction hs with
  | nil => exact ⟨⟨_, rfl⟩, by simp [tagExists, unwindTillTaggedHoles], Nat.le_refl _⟩
  | cons g hs ih =>
    obtain ⟨hraise, -, hlen⟩ := ih fun ⟨g', hg', ht⟩ => h ⟨g', List.mem_cons_of_mem _ hg', ht⟩
    have htagged : ¬ g.tagged tag = true := fun ht => h ⟨g, List.mem_cons_self, ht⟩
    rw [unwindTillTaggedHoles]
    cases hexists : tagExists (g :: hs) tag with
    | true =>
      rw [if_pos rfl, if_neg htagged]
      refine ⟨(raises_map _ _).mpr hraise, ⟨fun heq => ?_, fun hf => ?_⟩, Nat.le_succ_of_le hlen⟩
      · have := congrArg List.length heq
        simp only [List.length_cons] at this
        omega
      · cases hf
    | false =>
      rw [if_neg (by decide)]
      exact ⟨⟨_, rfl⟩, ⟨fun _ => rfl, fun _ => rfl⟩, Nat.le_refl _⟩

/-- The call raises just if no marked hole has the tag, and then leaves the stack as it is; else it
takes the holes above the first such hole. -/
def UnwindsCleanly (tag : Tag) (hs : List (Hole C)) : Prop :=
  (Raises (unwindTillTaggedHoles tag hs).1 ↔ ¬ Prompted tag hs) ∧
    (¬ Prompted tag hs → (unwindTillTaggedHoles tag hs).2 = hs) ∧
    (Prompted tag hs → ∃ above g below, hs = above ++ g :: below ∧ g.tagged tag = true ∧
      (∀ g' ∈ above, g'.tagged tag = false) ∧
      unwindTillTaggedHoles tag hs = (.ok above, g :: below))

theorem raises_iff (tag : Tag) (hs : List (Hole C)) :
    Raises (unwindTillTaggedHoles tag hs).1 ↔ ¬ Prompted tag hs := by
  refine ⟨fun ⟨e, he⟩ hp => ?_, fun hp => (unwind_missing hp).1⟩
  obtain ⟨above, g, below, -, -, -, hrun⟩ := unwind_prompted hp
  rw [hrun] at he
  cases he

theorem abortToStar_raises (tag : Tag) (v : Value C) (st : State C S) :
    Raises (abortToStar tag v st) ↔ ¬ Prompted tag st.holes := by
  rw [abortToStar, unwindTillTagged_eq]
  by_cases hp : Prompted tag st.holes
  · obtain ⟨above, g, below, -, -, -, hrun⟩ := unwind_prompted hp
    simp [hrun, Except.map, abortTop, Raises, hp]
  · obtain ⟨e, he⟩ := (unwind_missing hp).1
    simp [he, Except.map, Raises, hp]

/-- The holes that the loop pushes again are above the hole of the tag. -/
theorem unwindLoop_ne_nil (l : List (Hole C)) {hs : List (Hole C)} (h : hs ≠ []) :
    unwindLoop l hs ≠ [] := by
  fun_induction unwindLoop l hs with
  | case1 hs => exact h
  | case2 hs => exact h
  | case3 hs g y rest _ ih => exact ih (by simp)
  | case4 hs g y rest _ ih => exact ih h

theorem unwindToStar_raises (tag : Tag) (v : Value C) (st : State C S) :
    Raises (unwindToStar tag v st) ↔ ¬ Prompted tag st.holes := by
  rw [unwindToStar, unwindTillTagged_eq]
  by_cases hp : Prompted tag st.holes
  · obtain ⟨above, g, below, -, -, -, hrun⟩ := unwind_prompted hp
    obtain ⟨g', hs', hloop⟩ := List.exists_cons_of_ne_nil
      (unwindLoop_ne_nil above.reverse (List.cons_ne_nil g below))
    simp [hrun, Except.map, abortTop, hloop, Raises, hp]
  · obtain ⟨e, he⟩ := (unwind_missing hp).1
    simp [he, Except.map, Raises, hp]

/-- **Unwinding to a tag**: it goes as it should just if a marked hole has the tag, or no hole at
all; and `abort-to*` and `unwind-to*` raise just if no marked hole has it. -/
theorem unwind_to_tag (tag : Tag) (hs : List (Hole C)) :
    (UnwindsCleanly tag hs ↔ Prompted tag hs ∨ ∀ h ∈ hs, h.tag ≠ tag) ∧
      ∀ (v : Value C) (st : State C S), st.holes = hs →
        (Raises (abortToStar tag v st) ↔ ¬ Prompted tag hs) ∧
        (Raises (unwindToStar tag v st) ↔ ¬ Prompted tag hs) := by
  refine ⟨?_, fun v st hst => ?_⟩
  · have hnone : tagExists hs tag = false ↔ ∀ h ∈ hs, h.tag ≠ tag := by
      simp [tagExists, List.any_eq_false]
    constructor
    · intro h
      by_cases hp : Prompted tag hs
      · exact .inl hp
      · exact .inr (hnone.mp ((unwind_missing hp).2.1.mp (h.2.1 hp)))
    · intro h
      refine ⟨raises_iff tag hs, fun hp => ?_, unwind_prompted⟩
      exact (unwind_missing hp).2.1.mpr (hnone.mpr (h.resolve_left hp))
  · subst hst
    exact ⟨abortToStar_raises tag v st, unwindToStar_raises tag v st⟩

end Missing

/-- A hole that was pushed without the mark: the tag is there, and the hole above it is gone when
the condition is raised. -/
theorem unmarked_taken :
    (unwindTillTaggedHoles 7 [⟨5, true, [], []⟩, ⟨7, false, [], []⟩, (⟨6, true, [], []⟩ : Hole Unit)]).2 =
        [⟨6, true, [], []⟩] ∧
      ¬ UnwindsCleanly 7 [⟨5, true, [], []⟩, ⟨7, false, [], []⟩, (⟨6, true, [], []⟩ : Hole Unit)] := by
  refine ⟨rfl, fun h => ?_⟩
  have hnone : ¬ Prompted 7 [⟨5, true, [], []⟩, ⟨7, false, [], []⟩, (⟨6, true, [], []⟩ : Hole Unit)] := by
    simp [Prompted, Hole.tagged]
  have hlen := congrArg List.length (h.2.1 hnone)
  exact absurd hlen (by decide)

end Idio.Delim
