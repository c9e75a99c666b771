/-
  Lib/Prompts.lean --- a machine for delimited control with tags.

  An evaluation context is a list of frames and prompts, innermost first.  A control
  operator takes the entries above the nearest prompt of its tag, whatever prompts of
  other tags stand among them, and leaves the prompt; calling what it took puts these
  entries back.

  Adjacent prompts of one tag are as good as one: `Alike` contexts differ in their number.

  The language is a parameter: what applying a procedure and resuming a frame do.
-/
import Mathlib.Logic.Relation
import Mathlib.Data.List.Basic

set_option autoImplicit false

namespace Prompts

/-- An entry of an evaluation context. -/
inductive Entry (F T : Type) where
  | frame (f : F)
  | prompt (t : T)
  deriving DecidableEq, Repr

section Split

variable {F T : Type} [DecidableEq T]

/-- The entries above the nearest prompt of a tag, and those below it. -/
def splitAt (t : T) : List (Entry F T) → Option (List (Entry F T) × List (Entry F T))
  | [] => none
  | .frame f :: c => (splitAt t c).map fun p => (.frame f :: p.1, p.2)
  | .prompt u :: c =>
      if u = t then some ([], c) else (splitAt t c).map fun p => (.prompt u :: p.1, p.2)

theorem splitAt_append {t : T} {a : List (Entry F T)} (h : Entry.prompt t ∉ a)
    (b : List (Entry F T)) : splitAt t (a ++ .prompt t :: b) = some (a, b) := by
  induction a with
  | nil => simp [splitAt]
  | cons e a ih =>
    have hrest := ih (fun hm => h (List.mem_cons_of_mem _ hm))
    cases e with
    | frame f => simp [splitAt, hrest]
    | prompt u =>
      have hu : u ≠ t := by
        rintro rfl
        exact h List.mem_cons_self
      simp [splitAt, hrest, hu]

theorem eq_append_of_splitAt {t : T} {c a b : List (Entry F T)} (h : splitAt t c = some (a, b)) :
    c = a ++ .prompt t :: b := by
  induction c generalizing a with
  | nil => cases h
  | cons e c ih =>
    have hrest : ∀ e', (splitAt t c).map (fun p => (e' :: p.1, p.2)) = some (a, b) →
        e' :: c = a ++ .prompt t :: b := by
      intro e' he'
      obtain ⟨⟨a₁, b₁⟩, hsplit, heq⟩ := Option.map_eq_some_iff.mp he'
      cases heq
      rw [List.cons_append, ← ih hsplit]
    cases e with
    | frame f => exact hrest _ h
    | prompt u =>
      rw [splitAt] at h
      by_cases hu : u = t
      · rw [if_pos hu] at h
        cases h
        rw [hu]
        rfl
      · rw [if_neg hu] at h
        exact hrest _ h

end Split

/-! ## Adjacent prompts -/

section Alike

variable {F T : Type} [DecidableEq T]

/-- A prompt on top, unless one of its tag is there. -/
def addPrompt (t : T) : List (Entry F T) → List (Entry F T)
  | .prompt u :: c => if u = t then .prompt u :: c else .prompt t :: .prompt u :: c
  | c => .prompt t :: c

/-- The context with one prompt for adjacent ones of a tag. -/
def collapse : List (Entry F T) → List (Entry F T)
  | [] => []
  | .frame f :: c => .frame f :: collapse c
  | .prompt t :: c => addPrompt t (collapse c)

/-- The contexts are the same, but for the number of adjacent prompts of a tag. -/
def Alike (c d : List (Entry F T)) : Prop := collapse c = collapse d

/-- Either the prompt is there, or it is put on top. -/
theorem addPrompt_cases (t : T) (c : List (Entry F T)) :
    (∃ d, c = .prompt t :: d ∧ addPrompt t c = c) ∨
      addPrompt t c = .prompt t :: c ∧ ∀ d, c ≠ .prompt t :: d := by
  cases c with
  | nil => exact .inr ⟨rfl, fun d => by simp⟩
  | cons e c =>
    cases e with
    | frame f => exact .inr ⟨rfl, fun d => by simp⟩
    | prompt u =>
      rw [addPrompt]
      by_cases hu : u = t
      · rw [if_pos hu, hu]
        exact .inl ⟨c, rfl, rfl⟩
      · rw [if_neg hu]
        exact .inr ⟨rfl, fun d heq => hu (by cases heq; rfl)⟩

theorem addPrompt_head (t : T) (c : List (Entry F T)) : ∃ d, addPrompt t c = .prompt t :: d := by
  rcases addPrompt_cases t c with ⟨d, hc, heq⟩ | ⟨heq, -⟩
  · exact ⟨d, heq.trans hc⟩
  · exact ⟨c, heq⟩

namespace Alike

variable {c c' d : List (Entry F T)} {f : F} {t : T}

theorem cons (e : Entry F T) (h : Alike c d) : Alike (e :: c) (e :: d) := by
  cases e with
  | frame f => exact congrArg (.frame f :: ·) h
  | prompt t => exact congrArg (addPrompt t) h

/-- What is alike to the empty context is empty. -/
theorem eq_nil (h : Alike c []) : c = [] := by
  cases c with
  | nil => rfl
  | cons e c =>
    cases e with
    | frame f => cases h
    | prompt t =>
      obtain ⟨d, hd⟩ := addPrompt_head t (collapse c)
      cases hd.symm.trans h

/-- A frame on top of one is on top of the other. -/
theorem frame (h : Alike c (.frame f :: d)) : ∃ c₁, c = .frame f :: c₁ ∧ Alike c₁ d := by
  cases c with
  | nil => cases h
  | cons e c =>
    cases e with
    | frame g =>
      obtain ⟨hfg, hrest⟩ := List.cons.inj h
      cases hfg
      exact ⟨c, rfl, hrest⟩
    | prompt t =>
      obtain ⟨r, hr⟩ := addPrompt_head t (collapse c)
      cases hr.symm.trans h

/-- A prompt, too. -/
theorem prompt (h : Alike c (.prompt t :: d)) : ∃ c₁, c = .prompt t :: c₁ := by
  have hhead : ∃ r, collapse c = .prompt t :: r := by
    obtain ⟨r, hr⟩ := addPrompt_head t (collapse d)
    exact ⟨r, h.trans hr⟩
  obtain ⟨r, hr⟩ := hhead
  cases c with
  | nil => cases hr
  | cons e c =>
    cases e with
    | frame g => cases hr
    | prompt u =>
      obtain ⟨r', hr'⟩ := addPrompt_head u (collapse c)
      cases hr'.symm.trans hr
      exact ⟨c, rfl⟩

/-- Frames on top of both. -/
theorem append {a : List F} : Alike (a.map .frame ++ c) (a.map .frame ++ d) ↔ Alike c d := by
  induction a with
  | nil => exact Iff.rfl
  | cons f a ih =>
    refine Iff.trans ?_ ih
    exact ⟨fun h => (List.cons.inj h).2, fun h => h.cons _⟩

/-- Frames on top of one context are on top of the other. -/
theorem of_append {a : List F} (h : Alike c (a.map .frame ++ d)) :
    ∃ c₁, c = a.map .frame ++ c₁ ∧ Alike c₁ d := by
  induction a generalizing c with
  | nil => exact ⟨c, rfl, h⟩
  | cons f a ih =>
    rw [List.map_cons, List.cons_append] at h
    obtain ⟨c₁, rfl, hf⟩ := h.frame
    obtain ⟨c₂, rfl, hrest⟩ := ih hf
    exact ⟨c₂, rfl, hrest⟩

end Alike

end Alike

/-- What a program does next. -/
inductive Act (V F T : Type) where
  | ret (v : V)
  | call (f v : V)
  | push (f : F) (a : Act V F T)
  | prompt (t : T) (thunk : V)
  | control (shift : Bool) (t : T) (f : V)
  deriving Repr

/-- The procedures and frames of a language, over a store. -/
structure Language (V F T S : Type) where
  /-- the argument a thunk is called with -/
  unit : V
  subcont : Nat → V
  asSubcont : V → Option Nat
  apply : V → V → S → Option (Act V F T × S)
  resume : F → V → S → Act V F T × S

/-- A state; `subs` are the contexts taken so far. -/
structure State (V F T S : Type) where
  act : Act V F T
  ctx : List (Entry F T)
  subs : List (List (Entry F T))
  store : S

section Machine

variable {V F T S : Type} [DecidableEq T] (L : Language V F T S)

def step (st : State V F T S) : Option (State V F T S) :=
  match st.act with
  | .ret v =>
      match st.ctx with
      | [] => none
      | .frame f :: c =>
          let r := L.resume f v st.store
          some { st with act := r.1, ctx := c, store := r.2 }
      | .prompt _ :: c => some { st with ctx := c }
  | .push f a => some { st with act := a, ctx := .frame f :: st.ctx }
  | .prompt t thunk => some { st with act := .call thunk L.unit, ctx := .prompt t :: st.ctx }
  | .control shift t f =>
      match splitAt t st.ctx with
      | none => none
      | some (e, c) =>
          some { st with act := .call f (L.subcont st.subs.length), ctx := .prompt t :: c,
                         subs := st.subs ++ [e ++ if shift then [.prompt t] else []] }
  | .call f v =>
      match L.asSubcont f with
      | some n =>
          match st.subs[n]? with
          | none => none
          | some e => some { st with act := .ret v, ctx := e ++ st.ctx }
      | none =>
          match L.apply f v st.store with
          | none => none
          | some r => some { st with act := r.1, store := r.2 }

/-- Any number of steps. -/
def Steps : State V F T S → State V F T S → Prop :=
  Relation.ReflTransGen fun st st' => step L st = some st'

variable {L}

/-- The operator takes the context `e` up to the nearest prompt of its tag; `shift` takes
the prompt with it. -/
theorem step_control {shift : Bool} {t : T} {f : V} {e c : List (Entry F T)}
    {subs : List (List (Entry F T))} {s : S} (h : Entry.prompt t ∉ e) :
    step L ⟨.control shift t f, e ++ .prompt t :: c, subs, s⟩ =
      some ⟨.call f (L.subcont subs.length), .prompt t :: c,
        subs ++ [e ++ if shift then [.prompt t] else []], s⟩ := by
  simp only [step, splitAt_append h c]

/-- Where the operator goes on, a prompt of its tag is there. -/
theorem eq_of_step_control {shift : Bool} {t : T} {f : V} {sp sp' : State V F T S}
    (hact : sp.act = .control shift t f) (h : step L sp = some sp') :
    ∃ e c, sp.ctx = e ++ .prompt t :: c ∧
      sp'.subs = sp.subs ++ [e ++ if shift then [.prompt t] else []] := by
  simp only [step, hact] at h
  cases hsplit : splitAt t sp.ctx with
  | none => simp [hsplit] at h
  | some p =>
    rw [hsplit] at h
    cases h
    exact ⟨p.1, p.2, eq_append_of_splitAt hsplit, rfl⟩

/-- Calling what was taken puts it back around the value. -/
theorem step_call_subcont {f v : V} {n : Nat} {e c : List (Entry F T)}
    {subs : List (List (Entry F T))} {s : S} (hf : L.asSubcont f = some n)
    (hn : subs[n]? = some e) :
    step L ⟨.call f v, c, subs, s⟩ = some ⟨.ret v, e ++ c, subs, s⟩ := by
  simp only [step, hf, hn]

/-- A value is returned through the adjacent prompts of a tag. -/
theorem Alike.pop {v : V} {t : T} {c d : List (Entry F T)} (h : Alike c (.prompt t :: d))
    (subs : List (List (Entry F T))) (s : S) :
    ∃ c', Steps L ⟨.ret v, c, subs, s⟩ ⟨.ret v, c', subs, s⟩ ∧ Alike c' d := by
  rcases addPrompt_cases t (collapse d) with ⟨r, hd, heq⟩ | ⟨heq, hne⟩
  · -- a prompt of the tag is left
    exact ⟨c, .refl, h.trans heq⟩
  · induction c with
    | nil =>
      obtain ⟨c₁, hc⟩ := h.prompt
      cases hc
    | cons e c ih =>
      obtain ⟨c₁, hc⟩ := h.prompt
      cases hc
      have hcollapse : addPrompt t (collapse c) = .prompt t :: collapse d := h.trans heq
      rcases addPrompt_cases t (collapse c) with ⟨r, hc, heq'⟩ | ⟨heq', -⟩
      · obtain ⟨c', hsteps, halike⟩ := ih ((heq'.symm.trans hcollapse).trans heq.symm)
        exact ⟨c', .head rfl hsteps, halike⟩
      · exact ⟨c, .single rfl, (List.cons.inj (heq'.symm.trans hcollapse)).2⟩

end Machine

end Prompts
