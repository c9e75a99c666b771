/-
  Evaluate/Quasiquotation.lean --- the expression that a quasiquoted template stands for.

  `idio_meaning_dequasiquote` goes over a template with the number of quasiquotes that it is
  in.  At level 0 an unquoted expression stands for itself, and a splice that is an element of
  a list is appended to what follows.  A splice anywhere else is rebuilt as the list that it
  is.  Any other part is rebuilt by `pair`, `list` and `list->array`.

  `Fills` is what the value of a template is, by an evaluation of which `StandardMeanings` says what
  these mean.
-/
import Idio.Evaluate.Datum

set_option autoImplicit false

namespace Idio

variable {α : Type}

open Datum

/-- `idio_meaning_dequasiquote` -/
def dequasiquote (level : Nat) : Datum α → Result (Datum α)
  | .pair (.symbol .quasiquote) (.pair pht _) => do
      let r ← dequasiquote (level + 1) pht
      return call₂ .list (form .quote (.symbol .quasiquote)) r
  | .pair (.symbol .quasiquote) _ => .error .undefined
  | .pair (.symbol .unquote) (.pair pht _) =>
      if level = 0 then .ok pht
      else do
        let r ← dequasiquote (level - 1) pht
        return call₂ .list (form .quote (.symbol .unquote)) r
  | .pair (.symbol .unquote) _ => .error .undefined
  | .pair (.symbol .unquotesplicing) pt =>
      if level = 0 then do
        let h ← dequasiquote level (.symbol .unquotesplicing)
        let t ← dequasiquote level pt
        return call₂ .pair h t
      else
        match pt with
        | .pair pht _ => do
            let r ← dequasiquote (level - 1) pht
            return call₂ .list (form .quote (.symbol .unquotesplicing)) r
        | _ => .error .undefined
  | .pair (.pair (.symbol .unquotesplicing) hpt) pt =>
      if level = 0 then
        match hpt, pt with
        | .pair hpht _, .nil => .ok hpht
        | .pair hpht _, pt => do
            let r ← dequasiquote level pt
            return call₂ .append hpht r
        | _, _ => .error .undefined
      else do
        let h ← dequasiquote level (.pair (.symbol .unquotesplicing) hpt)
        let t ← dequasiquote level pt
        return call₂ .pair h t
  | .pair ph pt => do
      let h ← dequasiquote level ph
      let t ← dequasiquote level pt
      return call₂ .pair h t
  | .array es => do
      let r ← dequasiquote level (list es)
      return form .list2array r
  | .symbol s => .ok (form .quote (.symbol s))
  | e => .ok e
termination_by e => sizeOf e
decreasing_by
  all_goals simp_wf
  all_goals try rw [sizeOf_list]
  all_goals omega

/-! ## Meanings -/

/-- The forms that templates are built with have their standard meanings, and a value that is
neither a symbol, a pair nor an array evaluates to itself. -/
structure StandardMeanings (Eval : Datum α → Datum α → Prop) : Prop where
  nil : ∀ v, Eval .nil v ↔ v = .nil
  atom : ∀ a v, Eval (.atom a) v ↔ v = .atom a
  quote : ∀ x v, Eval (form .quote x) v ↔ v = x
  list : ∀ x y v, Eval (call₂ .list x y) v ↔
    ∃ a b, Eval x a ∧ Eval y b ∧ v = Datum.list [a, b]
  pair : ∀ x y v, Eval (call₂ .pair x y) v ↔ ∃ a b, Eval x a ∧ Eval y b ∧ v = .pair a b
  append : ∀ x y v, Eval (call₂ .append x y) v ↔
    ∃ as b, Eval x (Datum.list as) ∧ Eval y b ∧ v = listTo b as
  list2array : ∀ x v, Eval (form .list2array x) v ↔
    ∃ vs, Eval x (Datum.list vs) ∧ v = .array vs

/-- Neither the head of a form nor a splice to be made. -/
def Plain (level : Nat) (h : Datum α) : Prop :=
  h ≠ .symbol .quasiquote ∧ h ≠ .symbol .unquote ∧ h ≠ .symbol .unquotesplicing ∧
    (level = 0 → ∀ t, h ≠ .pair (.symbol .unquotesplicing) t)

/-- A template in which each of the three forms has one operand. -/
inductive Formed : Nat → Datum α → Prop where
  | quasiquote {n : Nat} {t : Datum α} (h : Formed (n + 1) t) : Formed n (form .quasiquote t)
  | unquote (x : Datum α) : Formed 0 (form .unquote x)
  | unquoteInner {n : Nat} {t : Datum α} (h : Formed n t) : Formed (n + 1) (form .unquote t)
  | misplaced {x : Datum α} (h : Formed 0 (.pair x .nil)) : Formed 0 (form .unquotesplicing x)
  | splicingInner {n : Nat} {t : Datum α} (h : Formed n t) :
      Formed (n + 1) (form .unquotesplicing t)
  | splice (x : Datum α) {t : Datum α} (h : Formed 0 t) :
      Formed 0 (.pair (form .unquotesplicing x) t)
  | pair {n : Nat} {h t : Datum α} (hplain : Plain n h) (hh : Formed n h) (ht : Formed n t) :
      Formed n (.pair h t)
  | array {n : Nat} {es : List (Datum α)} (h : Formed n (Datum.list es)) : Formed n (.array es)
  | symbol {n : Nat} (s : Sym) : Formed n (.symbol s)
  | atom {n : Nat} (a : α) : Formed n (.atom a)
  | nil {n : Nat} : Formed n .nil

/-- The values of a template at a level.  At level 0 an unquoted expression is replaced by
its value, and the elements of the value of a splice stand in a list in its place; the value
of the last stands for the rest of the list.  A form that changes the level is kept.  A splice
that is no element is kept as well, with its operand as a template. -/
inductive Fills (Eval : Datum α → Datum α → Prop) : Nat → Datum α → Datum α → Prop where
  | quasiquote {n : Nat} {t v : Datum α} (h : Fills Eval (n + 1) t v) :
      Fills Eval n (form .quasiquote t) (form .quasiquote v)
  | unquote {x v : Datum α} (h : Eval x v) : Fills Eval 0 (form .unquote x) v
  | unquoteInner {n : Nat} {t v : Datum α} (h : Fills Eval n t v) :
      Fills Eval (n + 1) (form .unquote t) (form .unquote v)
  | misplaced {x v : Datum α} (h : Fills Eval 0 (.pair x .nil) v) :
      Fills Eval 0 (form .unquotesplicing x) (.pair (.symbol .unquotesplicing) v)
  | splicingInner {n : Nat} {t v : Datum α} (h : Fills Eval n t v) :
      Fills Eval (n + 1) (form .unquotesplicing t) (form .unquotesplicing v)
  | splice {x t v : Datum α} {vs : List (Datum α)} (hx : Eval x (Datum.list vs)) (hne : t ≠ .nil)
      (h : Fills Eval 0 t v) : Fills Eval 0 (.pair (form .unquotesplicing x) t) (listTo v vs)
  | spliceLast {x v : Datum α} (hx : Eval x v) :
      Fills Eval 0 (.pair (form .unquotesplicing x) .nil) v
  | pair {n : Nat} {h t v w : Datum α} (hplain : Plain n h) (hh : Fills Eval n h v)
      (ht : Fills Eval n t w) : Fills Eval n (.pair h t) (.pair v w)
  | array {n : Nat} {es vs : List (Datum α)} (h : Fills Eval n (Datum.list es) (Datum.list vs)) :
      Fills Eval n (.array es) (.array vs)
  | symbol {n : Nat} (s : Sym) : Fills Eval n (.symbol s) (.symbol s)
  | atom {n : Nat} (a : α) : Fills Eval n (.atom a) (.atom a)
  | nil {n : Nat} : Fills Eval n .nil .nil

/-! ## The expression has them -/

section Expression

variable {Eval : Datum α → Datum α → Prop} {n : Nat} {h t x : Datum α}

theorem Plain.dequasiquote (hplain : Plain n h) (t : Datum α) :
    dequasiquote n (.pair h t) = (do
      let h ← dequasiquote n h
      let t ← dequasiquote n t
      return call₂ .pair h t) := by
  obtain ⟨hquasi, hunquote, hsplicing, hsplice⟩ := hplain
  rw [dequasiquote.eq_def n (.pair h t)]
  split
  case h_1 heq => exact absurd (Datum.pair.inj heq).1 hquasi
  case h_2 heq => exact absurd (Datum.pair.inj heq).1 hquasi
  case h_3 heq => exact absurd (Datum.pair.inj heq).1 hunquote
  case h_4 heq => exact absurd (Datum.pair.inj heq).1 hunquote
  case h_5 heq => exact absurd (Datum.pair.inj heq).1 hsplicing
  case h_6 hpt pt heq =>
    -- a splice that is not at level 0
    obtain ⟨rfl, rfl⟩ := Datum.pair.inj heq
    rw [if_neg fun hn => hsplice hn hpt rfl]
  case h_7 heq =>
    obtain ⟨rfl, rfl⟩ := Datum.pair.inj heq
    rfl
  case h_8 heq => cases heq
  case h_9 heq => cases heq
  case h_10 hother _ _ => exact absurd rfl (hother h t)

/-- A kept form is a list of its name and a value. -/
theorem StandardMeanings.keep (hstd : StandardMeanings Eval) {k : Sym} {e : Datum α} {P : Datum α → Prop}
    (he : ∀ v, Eval e v ↔ P v) (v : Datum α) :
    Eval (call₂ .list (form .quote (.symbol k)) e) v ↔ ∃ w, P w ∧ v = form k w := by
  rw [hstd.list]
  constructor
  · rintro ⟨a, b, ha, hb, rfl⟩
    rw [hstd.quote] at ha
    rw [ha]
    exact ⟨b, (he b).mp hb, rfl⟩
  · rintro ⟨w, hw, rfl⟩
    exact ⟨_, w, (hstd.quote _ _).mpr rfl, (he w).mpr hw, rfl⟩

theorem StandardMeanings.pairs (hstd : StandardMeanings Eval) {x y : Datum α} {P Q : Datum α → Prop}
    (hx : ∀ v, Eval x v ↔ P v) (hy : ∀ v, Eval y v ↔ Q v) (v : Datum α) :
    Eval (call₂ .pair x y) v ↔ ∃ a b, P a ∧ Q b ∧ v = .pair a b := by
  rw [hstd.pair]
  simp only [hx, hy]

/-- The expression for a template evaluates to the values of the template, and to no other. -/
theorem dequasiquote_formed (hstd : StandardMeanings Eval) (hformed : Formed n t) :
    ∃ e, dequasiquote n t = .ok e ∧ ∀ v, Eval e v ↔ Fills Eval n t v := by
  induction hformed with
  | @quasiquote n t _ ih =>
    obtain ⟨e, hrun, he⟩ := ih
    refine ⟨_, by rw [dequasiquote, hrun]; rfl, fun v => (hstd.keep he v).trans ⟨?_, ?_⟩⟩
    · rintro ⟨w, hw, rfl⟩
      exact .quasiquote hw
    · intro hfills
      cases hfills with
      | quasiquote h => exact ⟨_, h, rfl⟩
      | pair hplain => exact absurd rfl hplain.1
  | unquote x =>
    refine ⟨x, by rw [dequasiquote, if_pos rfl], fun v => ⟨.unquote, fun hfills => ?_⟩⟩
    cases hfills with
    | unquote h => exact h
    | pair hplain => exact absurd rfl hplain.2.1
  | @unquoteInner n t _ ih =>
    obtain ⟨e, hrun, he⟩ := ih
    refine ⟨_, by rw [dequasiquote, if_neg (Nat.succ_ne_zero n), Nat.add_sub_cancel, hrun]; rfl,
      fun v => (hstd.keep he v).trans ⟨?_, ?_⟩⟩
    · rintro ⟨w, hw, rfl⟩
      exact .unquoteInner hw
    · intro hfills
      cases hfills with
      | unquoteInner h => exact ⟨_, h, rfl⟩
      | pair hplain => exact absurd rfl hplain.2.1
  | @misplaced x _ ih =>
    obtain ⟨e, hrun, he⟩ := ih
    have hname (v : Datum α) :
        Eval (form .quote (.symbol .unquotesplicing)) v ↔ v = .symbol .unquotesplicing :=
      hstd.quote _ v
    have hsymbol : dequasiquote 0 (.symbol .unquotesplicing : Datum α) =
        .ok (form .quote (.symbol .unquotesplicing)) := by
      rw [dequasiquote]
    refine ⟨_, by rw [dequasiquote, if_pos rfl, hsymbol, hrun]; rfl,
      fun v => (hstd.pairs hname he v).trans ⟨?_, ?_⟩⟩
    · rintro ⟨a, b, rfl, hb, rfl⟩
      exact .misplaced hb
    · intro hfills
      cases hfills with
      | misplaced h => exact ⟨_, _, rfl, h, rfl⟩
      | pair hplain => exact absurd rfl hplain.2.2.1
  | @splicingInner n t _ ih =>
    obtain ⟨e, hrun, he⟩ := ih
    refine ⟨_, by rw [dequasiquote, if_neg (Nat.succ_ne_zero n), Nat.add_sub_cancel, hrun]; rfl,
      fun v => (hstd.keep he v).trans ⟨?_, ?_⟩⟩
    · rintro ⟨w, hw, rfl⟩
      exact .splicingInner hw
    · intro hfills
      cases hfills with
      | splicingInner h => exact ⟨_, h, rfl⟩
      | pair hplain => exact absurd rfl hplain.2.2.1
  | @splice x t _ ih =>
    obtain ⟨e, hrun, he⟩ := ih
    by_cases hnil : t = .nil
    · subst hnil
      refine ⟨x, by rw [dequasiquote, if_pos rfl], fun v => ⟨.spliceLast, fun hfills => ?_⟩⟩
      cases hfills with
      | splice _ hne => exact absurd rfl hne
      | spliceLast h => exact h
      | pair hplain => exact absurd rfl (hplain.2.2.2 rfl _)
    · have hexpr : dequasiquote 0 (.pair (form .unquotesplicing x) t) = .ok (call₂ .append x e) := by
        rw [dequasiquote, if_pos rfl, hrun]
        · rfl
        · exact hnil
      refine ⟨_, hexpr, fun v => (hstd.append _ _ v).trans ⟨?_, ?_⟩⟩
      · rintro ⟨as, b, hx, hb, rfl⟩
        exact .splice hx hnil ((he b).mp hb)
      · intro hfills
        cases hfills with
        | splice hx _ h => exact ⟨_, _, hx, (he _).mpr h, rfl⟩
        | spliceLast => exact absurd rfl hnil
        | pair hplain => exact absurd rfl (hplain.2.2.2 rfl _)
  | @pair n h t hplain _ _ ihh iht =>
    obtain ⟨e₁, hrun₁, he₁⟩ := ihh
    obtain ⟨e₂, hrun₂, he₂⟩ := iht
    refine ⟨_, by rw [hplain.dequasiquote, hrun₁, hrun₂]; rfl,
      fun v => (hstd.pairs he₁ he₂ v).trans ⟨?_, ?_⟩⟩
    · rintro ⟨a, b, ha, hb, rfl⟩
      exact .pair hplain ha hb
    · intro hfills
      cases hfills with
      | pair _ hh ht => exact ⟨_, _, hh, ht, rfl⟩
      | quasiquote => exact absurd rfl hplain.1
      | unquote => exact absurd rfl hplain.2.1
      | unquoteInner => exact absurd rfl hplain.2.1
      | misplaced => exact absurd rfl hplain.2.2.1
      | splicingInner => exact absurd rfl hplain.2.2.1
      | splice => exact absurd rfl (hplain.2.2.2 rfl _)
      | spliceLast => exact absurd rfl (hplain.2.2.2 rfl _)
  | @array n es _ ih =>
    obtain ⟨e, hrun, he⟩ := ih
    refine ⟨_, by rw [dequasiquote, hrun]; rfl, fun v => (hstd.list2array _ v).trans ⟨?_, ?_⟩⟩
    · rintro ⟨vs, hvs, rfl⟩
      exact .array ((he _).mp hvs)
    · intro hfills
      cases hfills with
      | array h => exact ⟨_, (he _).mpr h, rfl⟩
  | symbol s =>
    refine ⟨_, by rw [dequasiquote], fun v => (hstd.quote _ v).trans ⟨?_, ?_⟩⟩
    · rintro rfl
      exact .symbol s
    · intro hfills
      cases hfills
      rfl
  | atom a =>
    refine ⟨.atom a, by rw [dequasiquote] <;> nofun, fun v => (hstd.atom a v).trans ⟨?_, ?_⟩⟩
    · rintro rfl
      exact .atom a
    · intro hfills
      cases hfills
      rfl
  | nil =>
    refine ⟨.nil, by rw [dequasiquote] <;> nofun, fun v => (hstd.nil v).trans ⟨?_, ?_⟩⟩
    · rintro rfl
      exact .nil
    · intro hfills
      cases hfills
      rfl

/-- In a template whose forms have one operand each, exactly the unquoted expressions of level
0 are replaced by their values, the splices among the elements of lists are made, and the
other levels are kept. -/
theorem dequasiquote_fills (hstd : StandardMeanings Eval) {t : Datum α} (hformed : Formed 0 t) :
    ∃ e, dequasiquote 0 t = .ok e ∧ ∀ v, Eval e v ↔ Fills Eval 0 t v :=
  dequasiquote_formed hstd hformed

end Expression

/-- An evaluation with the standard meanings, and the values of some variables. -/
inductive StandardEval (env : String → Option (Datum α)) : Datum α → Datum α → Prop where
  | nil : StandardEval env .nil .nil
  | atom (a : α) : StandardEval env (.atom a) (.atom a)
  | variable {s : String} {v : Datum α} (h : env s = some v) :
      StandardEval env (.symbol (.other s)) v
  | quote (x : Datum α) : StandardEval env (form .quote x) x
  | list {x y a b : Datum α} (hx : StandardEval env x a) (hy : StandardEval env y b) :
      StandardEval env (call₂ .list x y) (Datum.list [a, b])
  | pair {x y a b : Datum α} (hx : StandardEval env x a) (hy : StandardEval env y b) :
      StandardEval env (call₂ .pair x y) (.pair a b)
  | append {x y b : Datum α} {as : List (Datum α)} (hx : StandardEval env x (Datum.list as))
      (hy : StandardEval env y b) : StandardEval env (call₂ .append x y) (listTo b as)
  | list2array {x : Datum α} {vs : List (Datum α)} (hx : StandardEval env x (Datum.list vs)) :
      StandardEval env (form .list2array x) (.array vs)

theorem standardMeanings_standardEval (env : String → Option (Datum α)) : StandardMeanings (StandardEval env) where
  nil v := by
    constructor
    · intro h
      cases h
      rfl
    · rintro rfl
      exact .nil
  atom a v := by
    constructor
    · intro h
      cases h
      rfl
    · rintro rfl
      exact .atom a
  quote x v := by
    constructor
    · intro h
      cases h
      rfl
    · rintro rfl
      exact .quote v
  list x y v := by
    constructor
    · intro h
      cases h with
      | list hx hy => exact ⟨_, _, hx, hy, rfl⟩
    · rintro ⟨a, b, hx, hy, rfl⟩
      exact .list hx hy
  pair x y v := by
    constructor
    · intro h
      cases h with
      | pair hx hy => exact ⟨_, _, hx, hy, rfl⟩
    · rintro ⟨a, b, hx, hy, rfl⟩
      exact .pair hx hy
  append x y v := by
    constructor
    · intro h
      cases h with
      | append hx hy => exact ⟨_, _, hx, hy, rfl⟩
    · rintro ⟨as, b, hx, hy, rfl⟩
      exact .append hx hy
  list2array x v := by
    constructor
    · intro h
      cases h with
      | list2array hx => exact ⟨_, hx, rfl⟩
    · rintro ⟨vs, hx, rfl⟩
      exact .list2array hx

/-- `x` is the list of 1 and 2. -/
def oneTwo (s : String) : Option (Datum Nat) :=
  if s = "x" then some (list [.atom 1, .atom 2]) else none

/-- `(a ,x ,@x b)` -/
def mixedTemplate : Datum Nat :=
  list [.symbol (.other "a"), form .unquote (.symbol (.other "x")),
    form .unquotesplicing (.symbol (.other "x")), .symbol (.other "b")]

theorem dequasiquote_mixed : ∃ e, dequasiquote 0 mixedTemplate = .ok e ∧
    ∀ v, StandardEval oneTwo e v ↔ Fills (StandardEval oneTwo) 0 mixedTemplate v := by
  have hplain (s : String) : Plain 0 (.symbol (.other s) : Datum Nat) :=
    ⟨nofun, nofun, nofun, nofun⟩
  exact dequasiquote_fills (standardMeanings_standardEval oneTwo)
    (.pair (hplain "a") (.symbol _) (.pair ⟨nofun, nofun, nofun, nofun⟩ (.unquote _)
      (.splice _ (.pair (hplain "b") (.symbol _) .nil))))

/-- `(quasiquote (unquote ,@x))`, the splice at level 0 -/
def operandTemplate : Datum Nat :=
  form .quasiquote (form .unquote (form .unquotesplicing (.symbol (.other "x"))))

/-- Where the splice is the operand of an unquote, it stays as it is, though `x` is a list.
An array of two symbols has no expression that is unquoted, but it is taken for one as a
list. -/
theorem dequasiquote_misplaced :
    StandardEval oneTwo (.symbol (.other "x")) (list [.atom 1, .atom 2]) ∧
    (∃ e, dequasiquote 0 operandTemplate = .ok e ∧
      ∀ v, StandardEval oneTwo e v ↔ v = operandTemplate) ∧
    operandTemplate ≠ form .quasiquote (.pair (.symbol .unquote) (list [.atom 1, .atom 2])) ∧
    ∃ e, dequasiquote 0 (.array [.symbol .unquote, .symbol (.other "x")]) = .ok e ∧
      StandardEval oneTwo e (.array [.atom 1, .atom 2]) := by
  have hstd := standardMeanings_standardEval oneTwo
  have hx : StandardEval oneTwo (.symbol (.other "x")) (list [.atom 1, .atom 2]) := .variable rfl
  have hoperand : dequasiquote 0 operandTemplate =
      .ok (call₂ .list (form .quote (.symbol .quasiquote))
        (call₂ .list (form .quote (.symbol .unquote))
          (call₂ .pair (form .quote (.symbol .unquotesplicing))
            (call₂ .pair (form .quote (.symbol (.other "x"))) .nil)))) := by
    simp only [operandTemplate, dequasiquote, ↓reduceIte, Nat.add_sub_cancel, Nat.succ_ne_zero]
    rfl
  have harray : dequasiquote 0 (.array [.symbol .unquote, .symbol (.other "x")] : Datum Nat) =
      .ok (form .list2array (.symbol (.other "x"))) := by
    simp only [dequasiquote, list, listTo, ↓reduceIte]
    rfl
  refine ⟨hx, ⟨_, hoperand, fun v => ?_⟩, nofun, _, harray, .list2array hx⟩
  simp [hstd.list, hstd.quote, hstd.pair, hstd.nil, list, listTo, operandTemplate]

end Idio
