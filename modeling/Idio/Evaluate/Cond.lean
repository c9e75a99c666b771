/-
  Evaluate/Cond.lean --- the nested expressions that `cond` stands for.

  `idio_meaning_rewrite_cond` goes over the clauses of a `cond`.  A clause with a body is an
  `if`.  The value of the test of any other is bound to a new symbol by a `let`, around an `or`
  if there is a test alone and around an `if` if the value is applied to.

  `condMeaning` is what the clauses mean, by an evaluation of which `CondMeanings` says what `if`,
  `or`, `let` and an application mean.
-/
import Mathlib.Tactic.Common
import Idio.Lib.Behaviour
import Idio.Evaluate.Gensym

set_option autoImplicit false

namespace Idio

open Datum

variable {α : Type}

/-- `(let ((x c)) b)` -/
abbrev letForm (x : Sym) (c b : Datum α) : Datum α :=
  list [.symbol .let, list [list [.symbol x, c]], b]

/-- `(if c a b)` -/
abbrev ifForm (c a b : Datum α) : Datum α := list [.symbol .if, c, a, b]

/-- `(or a b)` -/
abbrev orForm (a b : Datum α) : Datum α := list [.symbol .or, a, b]

/-- `(begin . body)` -/
abbrev beginForm (body : Datum α) : Datum α := .pair (.symbol .begin) body

/-- `idio_meaning_rewrite_cond` -/
def rewriteCond (void : α) : Datum α → SymbolTable → Result (Datum α × SymbolTable)
  | .nil, st => .ok (.atom void, st)
  | .pair (.pair (.symbol .else) body) .nil, st => .ok (beginForm body, st)
  | .pair (.pair (.symbol .else) _) _, _ =>
      .error (.evaluationError "cond: else not in last clause")
  | .pair (.pair c (.pair (.symbol .eq_gt) (.pair f .nil))) rest, st => do
      let (gs, st) ← gensym st
      let (r, st) ← rewriteCond void rest st
      return (letForm gs c (ifForm (.symbol gs) (list [f, .symbol gs]) r), st)
  | .pair (.pair _ (.pair (.symbol .eq_gt) _)) _, _ =>
      .error (.evaluationError "cond: invalid => clause")
  | .pair (.pair c .nil) rest, st => do
      let (gs, st) ← gensym st
      let (r, st) ← rewriteCond void rest st
      return (letForm gs c (orForm (.symbol gs) r), st)
  | .pair (.pair c body) rest, st => do
      let (r, st) ← rewriteCond void rest st
      return (ifForm c (beginForm body) r, st)
  | .pair _ (.pair (.pair _ _) _), _ =>
      .error (.evaluationError "parameter type: cond: clause is not a pair (before)")
  | .pair _ _, _ =>
      .error (.evaluationError "parameter type: cond: clause is not a pair (in/after)")
  | _, _ => .error (.evaluationError "cond: no clauses")

/-! ## Clauses -/

/-- A clause of `cond` before the last `else`. -/
inductive Clause (α : Type) where
  | test (c : Datum α)
  | body (c b : Datum α)
  | apply (c f : Datum α)

namespace Clause

/-- The clause as it is written. -/
def datum : Clause α → Datum α
  | test c => list [c]
  | body c b => .pair c b
  | apply c f => list [c, .symbol .eq_gt, f]

/-- The clause is of its own kind and no other, and what it applies is not the name of a
special form or of an expander. -/
def Formed (special : Sym → Prop) : Clause α → Prop
  | test c => c ≠ .symbol .else
  | body c b => c ≠ .symbol .else ∧ b ≠ .nil ∧ ∀ t, b ≠ .pair (.symbol .eq_gt) t
  | apply c f => c ≠ .symbol .else ∧ ∀ s, f = .symbol s → ¬ special s

end Clause

/-- The clauses of a `cond`, with the body of the `else` if there is one. -/
def clauseList (els : Option (Datum α)) : List (Clause α) → Datum α
  | [] => match els with
    | none => .nil
    | some body => list [.pair (.symbol .else) body]
  | c :: cs => .pair c.datum (clauseList els cs)

section Rewriting

variable {void : α} {rest c b f : Datum α} {st : SymbolTable}

theorem rewriteCond_test (hc : c ≠ .symbol .else) :
    rewriteCond void (.pair (list [c]) rest) st = (do
      let (gs, st) ← gensym st
      let (r, st) ← rewriteCond void rest st
      return (letForm gs c (orForm (.symbol gs) r), st)) := by
  show rewriteCond void (.pair (.pair c .nil) rest) st = _
  rw [rewriteCond]
  · exact fun _ => hc
  · exact hc

theorem rewriteCond_apply (hc : c ≠ .symbol .else) :
    rewriteCond void (.pair (list [c, .symbol .eq_gt, f]) rest) st = (do
      let (gs, st) ← gensym st
      let (r, st) ← rewriteCond void rest st
      return (letForm gs c (ifForm (.symbol gs) (list [f, .symbol gs]) r), st)) := by
  show rewriteCond void (.pair (.pair c (.pair (.symbol .eq_gt) (.pair f .nil))) rest) st = _
  rw [rewriteCond]
  · exact fun _ => hc
  · exact hc

theorem rewriteCond_body (hc : c ≠ .symbol .else) (hnil : b ≠ .nil)
    (hb : ∀ t, b ≠ .pair (.symbol .eq_gt) t) :
    rewriteCond void (.pair (.pair c b) rest) st = (do
      let (r, st) ← rewriteCond void rest st
      return (ifForm c (beginForm b) r, st)) := by
  rw [rewriteCond]
  · exact fun _ => hc
  · exact hc
  · exact fun f => hb _
  · exact hb
  · exact hnil

end Rewriting

/-! ## Meanings -/

/-- An evaluation of expressions, each in tail position or not. -/
structure Evaluation (α σ ε ν Env : Type) where
  eval : Bool → Env → Datum α → Behaviour σ ε ν
  /-- the operator of an application -/
  operator : Env → Datum α → Behaviour σ ε ν
  /-- the application of a value to another -/
  call : Bool → ν → ν → Behaviour σ ε ν
  /-- a computation in which a command that fails is only false -/
  suppressRcse : Behaviour σ ε ν → Behaviour σ ε ν
  bindVar : Env → Sym → ν → Env
  isFalse : ν → Bool
  void : ν

variable {σ ε ν Env : Type}

namespace Evaluation

variable (E : Evaluation α σ ε ν Env)

/-- The last operand of an `or`. -/
def lastOperand (tail : Bool) (m : Behaviour σ ε ν) : Behaviour σ ε ν :=
  if tail then m else E.suppressRcse m

/-- The forms that clauses are rewritten to have their meanings, and a symbol that there was
not is bound without a change to the expressions that there were. -/
structure CondMeanings (void : α) (special : Sym → Prop) (symbols : List Sym) : Prop where
  void : ∀ tail ρ, E.eval tail ρ (.atom void) = .pure E.void
  ifForm : ∀ tail ρ c a b, E.eval tail ρ (ifForm c a b) =
    (E.suppressRcse (E.eval false ρ c)).bind fun v =>
      if E.isFalse v then E.eval tail ρ b else E.eval tail ρ a
  orForm : ∀ tail ρ a b, E.eval tail ρ (orForm a b) =
    (E.suppressRcse (E.eval false ρ a)).bind fun v =>
      if E.isFalse v then E.lastOperand tail (E.eval tail ρ b) else .pure v
  letForm : ∀ tail ρ x c b, x ∉ symbols → E.eval tail ρ (letForm x c b) =
    (E.eval false ρ c).bind fun v => E.eval tail (E.bindVar ρ x v) b
  application : ∀ tail ρ x v f, x ∉ symbols → (∀ s, f = .symbol s → ¬ special s) →
    E.eval tail (E.bindVar ρ x v) (list [f, .symbol x]) =
      (E.operator (E.bindVar ρ x v) f).bind fun g => E.call tail g v
  boundVariable : ∀ tail ρ x v, x ∉ symbols →
    E.eval tail (E.bindVar ρ x v) (.symbol x) = .pure v
  suppressed_pure : ∀ v, E.suppressRcse (.pure v) = .pure v
  unused : ∀ tail ρ x v e, x ∉ symbols → e.symbols ⊆ symbols →
    E.eval tail (E.bindVar ρ x v) e = E.eval tail ρ e
  unusedOperator : ∀ ρ x v f, x ∉ symbols → f.symbols ⊆ symbols →
    E.operator (E.bindVar ρ x v) f = E.operator ρ f

/-- What a `cond` means.  The tests are evaluated in order, until one is not false.  What
follows a clause with a test alone is the last operand of an `or`. -/
def condMeaning (els : Option (Datum α)) (tail : Bool) (ρ : Env) :
    List (Clause α) → Behaviour σ ε ν
  | [] => match els with
    | none => .pure E.void
    | some body => E.eval tail ρ (beginForm body)
  | .test c :: cs => (E.eval false ρ c).bind fun v =>
      if E.isFalse v then E.lastOperand tail (condMeaning els tail ρ cs) else .pure v
  | .body c b :: cs => (E.suppressRcse (E.eval false ρ c)).bind fun v =>
      if E.isFalse v then condMeaning els tail ρ cs else E.eval tail ρ (beginForm b)
  | .apply c f :: cs => (E.eval false ρ c).bind fun v =>
      if E.isFalse v then condMeaning els tail ρ cs
      else (E.operator ρ f).bind fun g => E.call tail g v

end Evaluation

/-! ## The rewriting keeps them -/

/-- The symbols that a clause is written with; its body is evaluated by `begin`. -/
def Clause.symbols : Clause α → List Sym
  | test c => c.symbols
  | body c b => c.symbols ++ (beginForm b).symbols
  | apply c f => c.symbols ++ f.symbols

section Meaning

open Evaluation

variable {E : Evaluation α σ ε ν Env} {void : α} {special : Sym → Prop} {symbols : List Sym}
variable {els : Option (Datum α)} {cs : List (Clause α)}

theorem Evaluation.CondMeanings.condMeaning_bindVar (hE : E.CondMeanings void special symbols)
    (hcs : ∀ c ∈ cs, c.symbols ⊆ symbols)
    (hels : ∀ body ∈ els, (beginForm body).symbols ⊆ symbols)
    {x : Sym} (hx : x ∉ symbols) (tail : Bool) (ρ : Env) (v : ν) :
    E.condMeaning els tail (E.bindVar ρ x v) cs = E.condMeaning els tail ρ cs := by
  induction cs with
  | nil =>
    cases els with
    | none => rfl
    | some body => exact hE.unused tail ρ x v _ hx (hels body rfl)
  | cons c cs ih =>
    have hrest := ih fun d hd => hcs d (List.mem_cons_of_mem c hd)
    have hsub := hcs c List.mem_cons_self
    cases c with
    | test c =>
      simp only [condMeaning, hrest, hE.unused false ρ x v c hx hsub]
    | body c b =>
      obtain ⟨hc, hb⟩ := List.append_subset.mp hsub
      simp only [condMeaning, hrest, hE.unused false ρ x v c hx hc,
        hE.unused tail ρ x v (beginForm b) hx hb]
    | apply c f =>
      obtain ⟨hc, hf⟩ := List.append_subset.mp hsub
      simp only [condMeaning, hrest, hE.unused false ρ x v c hx hc,
        hE.unusedOperator ρ x v f hx hf]

/-- The run of a rewriting has a result of which `P` holds, or no symbols are left for it. -/
def SymbolTable.Rewrites (st : SymbolTable) (run : Result (Datum α × SymbolTable)) (n : Nat)
    (P : Datum α → Prop) : Prop :=
  (∃ e st', run = .ok (e, st') ∧ st.Grown st' ∧ P e) ∨
    (10 ^ 19 < st.reach + n ∧ ∃ msg, run = .error (.stringError msg))

/-- A clause with a new symbol, in front of others. -/
theorem SymbolTable.Rewrites.gensym (build : Sym → Datum α → Datum α) {st : SymbolTable}
    (hid : 0 < st.gensymId) {n : Nat} {P Q : Datum α → Prop}
    {rest : SymbolTable → Result (Datum α × SymbolTable)}
    (hrest : ∀ st₁ : SymbolTable, st.symbols ⊆ st₁.symbols → 0 < st₁.gensymId →
      st₁.Rewrites (rest st₁) n P)
    (hbuild : ∀ gs r, gs ∉ st.symbols → P r → Q (build gs r)) :
    st.Rewrites (do
      let (gs, st) ← Idio.gensym st
      let (r, st) ← rest st
      return (build gs r, st)) (n + 1) Q := by
  rcases gensym_spec hid with ⟨gs, st₁, hrun, hgs, hst₁, hpos, hreach⟩ | ⟨hreach, msg, hrun⟩
  · have hsub : st.symbols ⊆ st₁.symbols := by
      rw [hst₁]
      exact List.subset_cons_self gs st.symbols
    rcases hrest st₁ hsub hpos with ⟨r, st₂, hrun₁, hgrown, hr⟩ | ⟨hlt, msg, hrun₁⟩
    · refine .inl ⟨build gs r, st₂, ?_, .cons hgs hst₁ hgrown, hbuild gs r hgs hr⟩
      rw [hrun]
      show (do
        let (r, st) ← rest st₁
        return (build gs r, st)) = _
      rw [hrun₁]
      rfl
    · refine .inr ⟨by omega, msg, ?_⟩
      rw [hrun]
      show (do
        let (r, st) ← rest st₁
        return (build gs r, st)) = _
      rw [hrun₁]
      rfl
  · exact .inr ⟨by omega, msg, by rw [hrun]; rfl⟩

/-- A run of `idio_meaning_rewrite_cond` gives an expression with the meaning of the clauses,
or there are no symbols left. -/
theorem rewriteCond_run (hE : E.CondMeanings void special symbols)
    (hcs : ∀ c ∈ cs, c.symbols ⊆ symbols)
    (hels : ∀ body ∈ els, (beginForm body).symbols ⊆ symbols)
    (hformed : ∀ c ∈ cs, c.Formed special) {st : SymbolTable} (hst : symbols ⊆ st.symbols)
    (hid : 0 < st.gensymId) :
    st.Rewrites (rewriteCond void (clauseList els cs) st) cs.length fun e =>
      ∀ tail ρ, E.eval tail ρ e = E.condMeaning els tail ρ cs := by
  induction cs generalizing st with
  | nil =>
    left
    cases els with
    | none => exact ⟨_, st, by rw [clauseList, rewriteCond], .refl st, hE.void⟩
    | some body => exact ⟨_, st, rewriteCond.eq_2 void st body, .refl st, fun _ _ => rfl⟩
  | cons c cs ih =>
    have htail : ∀ d ∈ cs, d.symbols ⊆ symbols := fun d hd => hcs d (List.mem_cons_of_mem c hd)
    have hrest {st₁ : SymbolTable} (hst₁ : symbols ⊆ st₁.symbols) (hpos : 0 < st₁.gensymId) :=
      ih htail (fun d hd => hformed d (List.mem_cons_of_mem c hd)) hst₁ hpos
    have hsub := hcs c List.mem_cons_self
    have hc := hformed c List.mem_cons_self
    cases c with
    | test c =>
      rw [clauseList, Clause.datum, rewriteCond_test hc]
      refine .gensym (fun gs r => letForm gs c (orForm (.symbol gs) r)) hid
        (fun st₁ hsub₁ hpos => hrest (List.Subset.trans hst hsub₁) hpos) ?_
      intro gs r hgs hr tail ρ
      have hnew : gs ∉ symbols := fun hmem => hgs (hst hmem)
      rw [hE.letForm tail ρ gs c _ hnew]
      refine Behaviour.bind_congr fun v => ?_
      rw [hE.orForm, hE.boundVariable false ρ gs v hnew, hE.suppressed_pure, Behaviour.pure_bind, hr,
        hE.condMeaning_bindVar htail hels hnew]
    | body c b =>
      obtain ⟨hc, hnil, hb⟩ := hc
      rw [clauseList, Clause.datum, rewriteCond_body hc hnil hb]
      rcases hrest hst hid with ⟨r, st', hrun, hgrown, hr⟩ | ⟨hlt, msg, hrun⟩
      · refine .inl ⟨_, st', by rw [hrun]; rfl, hgrown, fun tail ρ => ?_⟩
        rw [hE.ifForm, hr]
        rfl
      · exact .inr ⟨Nat.lt_succ_of_lt hlt, msg, by rw [hrun]; rfl⟩
    | apply c f =>
      obtain ⟨hc, hf⟩ := hc
      rw [clauseList, Clause.datum, rewriteCond_apply hc]
      refine .gensym (fun gs r => letForm gs c (ifForm (.symbol gs) (list [f, .symbol gs]) r)) hid
        (fun st₁ hsub₁ hpos => hrest (List.Subset.trans hst hsub₁) hpos) ?_
      intro gs r hgs hr tail ρ
      have hnew : gs ∉ symbols := fun hmem => hgs (hst hmem)
      rw [hE.letForm tail ρ gs c _ hnew]
      refine Behaviour.bind_congr fun v => ?_
      rw [hE.ifForm, hE.boundVariable false ρ gs v hnew, hE.suppressed_pure, Behaviour.pure_bind, hr,
        hE.condMeaning_bindVar htail hels hnew, hE.application tail ρ gs v f hnew hf,
        hE.unusedOperator ρ gs v f hnew (List.append_subset.mp hsub).2]

/-- The expression that the clauses of a `cond` are rewritten to means what they mean, and what
it binds are symbols that there were not.  The numbers of new symbols have an end. -/
theorem rewriteCond_meaning {st : SymbolTable} (hE : E.CondMeanings void special st.symbols)
    (hcs : ∀ c ∈ cs, c.symbols ⊆ st.symbols)
    (hels : ∀ body ∈ els, (beginForm body).symbols ⊆ st.symbols)
    (hformed : ∀ c ∈ cs, c.Formed special) (hid : 0 < st.gensymId) :
    (∃ e st', rewriteCond void (clauseList els cs) st = .ok (e, st') ∧ st.Grown st' ∧
      ∀ tail ρ, E.eval tail ρ e = E.condMeaning els tail ρ cs) ∨
    (10 ^ 19 < st.gensymId + st.symbols.length + cs.length ∧
      ∃ msg, rewriteCond void (clauseList els cs) st = .error (.stringError msg)) := by
  have hreach : st.reach ≤ st.gensymId + st.symbols.length :=
    Nat.add_le_add_left List.countP_le_length _
  rcases rewriteCond_run hE hcs hels hformed (List.Subset.refl _) hid with hmeaning | ⟨hlt, herr⟩
  · exact .inl hmeaning
  · exact .inr ⟨by omega, herr⟩

end Meaning

/-! ## An evaluation -/

/-- Some values: truth values, void and functions. -/
inductive SmallValue where
  | bool (b : Bool)
  | void
  | function (n : Nat)
  deriving DecidableEq

/-- The calls so far, each with its function and its argument. -/
abbrev Calls : Type := List (Nat × SmallValue)

/-- The values of variables. -/
abbrev Bindings : Type := Sym → Option SmallValue

/-- The names of the forms. -/
def formNames : List Sym := [.quote, .if, .or, .let, .begin]

/-- An environment with one variable more. -/
def bindValue (ρ : Bindings) (x : Sym) (v : SmallValue) : Bindings :=
  fun s => if s = x then some v else ρ s

/-- An evaluation of a few forms.  A function records its call, and returns its argument. -/
inductive Evaluates : Bindings → Datum SmallValue → Calls → SmallValue → Calls → Prop where
  | atom {ρ : Bindings} {a : SmallValue} {s : Calls} : Evaluates ρ (.atom a) s a s
  | symbol {ρ : Bindings} {x : Sym} {v : SmallValue} {s : Calls} (h : ρ x = some v) :
      Evaluates ρ (.symbol x) s v s
  | ifFalse {ρ : Bindings} {c a b : Datum SmallValue} {w : SmallValue} {s s₁ s₂ : Calls}
      (hc : Evaluates ρ c s (.bool false) s₁) (hb : Evaluates ρ b s₁ w s₂) :
      Evaluates ρ (ifForm c a b) s w s₂
  | ifTrue {ρ : Bindings} {c a b : Datum SmallValue} {v w : SmallValue} {s s₁ s₂ : Calls}
      (hc : Evaluates ρ c s v s₁) (hv : v ≠ .bool false) (ha : Evaluates ρ a s₁ w s₂) :
      Evaluates ρ (ifForm c a b) s w s₂
  | orFalse {ρ : Bindings} {a b : Datum SmallValue} {w : SmallValue} {s s₁ s₂ : Calls}
      (ha : Evaluates ρ a s (.bool false) s₁) (hb : Evaluates ρ b s₁ w s₂) :
      Evaluates ρ (orForm a b) s w s₂
  | orTrue {ρ : Bindings} {a b : Datum SmallValue} {v : SmallValue} {s s₁ : Calls}
      (ha : Evaluates ρ a s v s₁) (hv : v ≠ .bool false) : Evaluates ρ (orForm a b) s v s₁
  | letForm {ρ : Bindings} {x : Sym} {c b : Datum SmallValue} {v w : SmallValue}
      {s s₁ s₂ : Calls} (hc : Evaluates ρ c s v s₁)
      (hb : Evaluates (bindValue ρ x v) b s₁ w s₂) : Evaluates ρ (letForm x c b) s w s₂
  | begin {ρ : Bindings} {e : Datum SmallValue} {v : SmallValue} {s s₁ : Calls}
      (h : Evaluates ρ e s v s₁) : Evaluates ρ (beginForm (list [e])) s v s₁
  | call {ρ : Bindings} {f a : Datum SmallValue} {n : Nat} {v : SmallValue} {s s₁ s₂ : Calls}
      (hname : ∀ x ∈ formNames, f ≠ .symbol x) (hf : Evaluates ρ f s (.function n) s₁)
      (ha : Evaluates ρ a s₁ v s₂) : Evaluates ρ (list [f, a]) s v (s₂ ++ [(n, v)])

/-- An expression is evaluated with the values of its symbols. -/
theorem Evaluates.congr {ρ ρ' : Bindings} {e : Datum SmallValue} {v : SmallValue}
    {s s' : Calls} (h : Evaluates ρ e s v s') (hρ : ∀ x ∈ e.symbols, ρ x = ρ' x) :
    Evaluates ρ' e s v s' := by
  induction h generalizing ρ' with
  | atom => exact .atom
  | symbol h => exact .symbol (by rw [← hρ _ (List.mem_singleton_self _), h])
  | ifFalse _ _ ihc ihb =>
    exact .ifFalse (ihc fun x hx => hρ x (mem_symbols_list (by simp) hx))
      (ihb fun x hx => hρ x (mem_symbols_list (by simp) hx))
  | ifTrue _ hv _ ihc iha =>
    exact .ifTrue (ihc fun x hx => hρ x (mem_symbols_list (by simp) hx)) hv
      (iha fun x hx => hρ x (mem_symbols_list (by simp) hx))
  | orFalse _ _ iha ihb =>
    exact .orFalse (iha fun x hx => hρ x (mem_symbols_list (by simp) hx))
      (ihb fun x hx => hρ x (mem_symbols_list (by simp) hx))
  | orTrue _ hv iha =>
    exact .orTrue (iha fun x hx => hρ x (mem_symbols_list (by simp) hx)) hv
  | @letForm ρ y c b v w s s₁ s₂ _ _ ihc ihb =>
    have hbinding (x : Sym) (hx : x ∈ c.symbols) :
        x ∈ (list [list [.symbol y, c]] : Datum SmallValue).symbols :=
      mem_symbols_list List.mem_cons_self (mem_symbols_list (by simp) hx)
    refine .letForm (ihc fun x hx => hρ x (mem_symbols_list (by simp) (hbinding x hx)))
      (ihb fun x hx => ?_)
    rw [bindValue, bindValue, hρ x (mem_symbols_list (by simp) hx)]
  | begin _ ih =>
    exact .begin (ih fun x hx =>
      hρ x (List.mem_append_right _ (mem_symbols_list List.mem_cons_self hx)))
  | call hname _ _ ihf iha =>
    exact .call hname (ihf fun x hx => hρ x (mem_symbols_list (by simp) hx))
      (iha fun x hx => hρ x (mem_symbols_list (by simp) hx))

/-- The computation of an evaluation, in which nothing is raised. -/
def okBehaviour (R : Calls → SmallValue → Calls → Prop) :
    Behaviour (Calls) String SmallValue :=
  fun s r s' => ∃ v, r = .ok v ∧ R s v s'

def smallEvaluation : Evaluation SmallValue (Calls) String SmallValue Bindings where
  eval _ ρ e := okBehaviour (Evaluates ρ e)
  operator ρ f := okBehaviour (Evaluates ρ f)
  call _ g v := okBehaviour fun s w s' => w = v ∧ ∃ n, g = .function n ∧ s' = s ++ [(n, v)]
  suppressRcse m := m
  bindVar := bindValue
  isFalse v := v = .bool false
  void := .void

/-- A step of an evaluation, and what its value selects. -/
theorem okBehaviour_eq_bind {R Q : Calls → SmallValue → Calls → Prop}
    {T : SmallValue → Calls → SmallValue → Calls → Prop}
    (h : ∀ s w s', R s w s' ↔ ∃ v s₁, Q s v s₁ ∧ T v s₁ w s') :
    okBehaviour R = (okBehaviour Q).bind fun v => okBehaviour (T v) := by
  funext s r s'
  apply propext
  constructor
  · rintro ⟨w, hr, hw⟩
    obtain ⟨v, s₁, hv, hT⟩ := (h s w s').mp hw
    exact .inl ⟨v, s₁, ⟨v, rfl, hv⟩, w, hr, hT⟩
  · rintro (⟨v, s₁, ⟨u, hu, hv⟩, w, hr, hT⟩ | ⟨x, ⟨u, hu, -⟩, -⟩)
    · cases hu
      exact ⟨w, hr, (h s w s').mpr ⟨v, s₁, hv, hT⟩⟩
    · cases hu

theorem okBehaviour_pure (v : SmallValue) :
    okBehaviour (fun s w s' => w = v ∧ s' = s) = Behaviour.pure v := by
  funext s r s'
  apply propext
  constructor
  · rintro ⟨w, hr, rfl, hs⟩
    exact ⟨hr, hs⟩
  · rintro ⟨hr, hs⟩
    exact ⟨v, hr, rfl, hs⟩

theorem okBehaviour_congr {R Q : Calls → SmallValue → Calls → Prop}
    (h : ∀ s w s', R s w s' ↔ Q s w s') : okBehaviour R = okBehaviour Q := by
  rw [show R = Q from funext fun s => funext fun w => funext fun s' => propext (h s w s')]

theorem smallEvaluation_unused {x : Sym} {e : Datum SmallValue} {symbols : List Sym}
    (hx : x ∉ symbols) (he : e.symbols ⊆ symbols) (ρ : Bindings) (v : SmallValue) :
    okBehaviour (Evaluates (bindValue ρ x v) e) = okBehaviour (Evaluates ρ e) := by
  have hsame (y : Sym) (hy : y ∈ e.symbols) : bindValue ρ x v y = ρ y := by
    refine if_neg fun heq : y = x => hx ?_
    rw [← heq]
    exact he hy
  exact okBehaviour_congr fun s w s' =>
    ⟨fun h => h.congr hsame, fun h => h.congr fun y hy => (hsame y hy).symm⟩

theorem smallEvaluation_meanings (symbols : List Sym) :
    smallEvaluation.CondMeanings .void (· ∈ formNames) symbols where
  void _ ρ := by
    rw [← okBehaviour_pure]
    refine okBehaviour_congr fun s w s' => ⟨?_, ?_⟩
    · rintro ⟨⟩
      exact ⟨rfl, rfl⟩
    · rintro ⟨rfl, rfl⟩
      exact .atom
  ifForm tail ρ c a b := by
    have hbranch (v : SmallValue) : (if smallEvaluation.isFalse v then
        smallEvaluation.eval tail ρ b else smallEvaluation.eval tail ρ a) =
        okBehaviour (if v = .bool false then Evaluates ρ b else Evaluates ρ a) := by
      rw [apply_ite okBehaviour]
      simp only [smallEvaluation, decide_eq_true_eq]
    simp only [hbranch]
    refine okBehaviour_eq_bind fun s w s' => ⟨fun h => ?_, ?_⟩
    · cases h with
      | ifFalse hc hb => exact ⟨_, _, hc, by rw [if_pos rfl]; exact hb⟩
      | ifTrue hc hv ha => exact ⟨_, _, hc, by rw [if_neg hv]; exact ha⟩
    · rintro ⟨v, s₁, hc, h⟩
      split at h
      case isTrue hv =>
        subst hv
        exact .ifFalse hc h
      case isFalse hv => exact .ifTrue hc hv h
  orForm tail ρ a b := by
    have hbranch (v : SmallValue) : (if smallEvaluation.isFalse v then
        smallEvaluation.lastOperand tail (smallEvaluation.eval tail ρ b) else .pure v) =
        okBehaviour (if v = .bool false then Evaluates ρ b else fun s w s' => w = v ∧ s' = s) := by
      rw [apply_ite okBehaviour, okBehaviour_pure]
      simp only [smallEvaluation, Evaluation.lastOperand, ite_self, decide_eq_true_eq]
    simp only [hbranch]
    refine okBehaviour_eq_bind fun s w s' => ⟨fun h => ?_, ?_⟩
    · cases h with
      | orFalse ha hb => exact ⟨_, _, ha, by rw [if_pos rfl]; exact hb⟩
      | orTrue ha hv => exact ⟨_, _, ha, by rw [if_neg hv]; exact ⟨rfl, rfl⟩⟩
    · rintro ⟨v, s₁, ha, h⟩
      split at h
      case isTrue hv =>
        subst hv
        exact .orFalse ha h
      case isFalse hv =>
        obtain ⟨rfl, rfl⟩ := h
        exact .orTrue ha hv
  letForm _ ρ x c b _ := by
    refine okBehaviour_eq_bind fun s w s' => ⟨fun h => ?_, ?_⟩
    · cases h with
      | letForm hc hb => exact ⟨_, _, hc, hb⟩
    · rintro ⟨v, s₁, hc, hb⟩
      exact .letForm hc hb
  application _ ρ x v f _ hf := by
    refine okBehaviour_eq_bind fun s w s' => ⟨fun h => ?_, ?_⟩
    · cases h with
      | begin => exact absurd (by decide) (hf .begin rfl)
      | call _ hg ha =>
        cases ha with
        | symbol h =>
          have hv := (if_pos rfl).symm.trans h
          cases hv
          exact ⟨_, _, hg, rfl, _, rfl, rfl⟩
    · rintro ⟨g, s₁, hg, rfl, n, rfl, rfl⟩
      exact .call (fun y hy heq => hf y heq hy) hg (.symbol (if_pos rfl))
  boundVariable _ ρ x v _ := by
    rw [← okBehaviour_pure]
    refine okBehaviour_congr fun s w s' => ⟨?_, ?_⟩
    · rintro ⟨⟩
      rename_i h
      exact ⟨Option.some.inj (h.symm.trans (if_pos rfl)), rfl⟩
    · rintro ⟨rfl, rfl⟩
      exact .symbol (if_pos rfl)
  suppressed_pure _ := rfl
  unused _ ρ x v e hx he := smallEvaluation_unused hx he ρ v
  unusedOperator ρ x v f hx hf := smallEvaluation_unused hx hf ρ v

/-- A variable. -/
def var (s : String) : Datum SmallValue := .symbol (.other s)

/-- `(a) (b c) (c => f)` -/
def mixedClauses : List (Clause SmallValue) :=
  [.test (var "a"), .body (var "b") (list [var "c"]), .apply (var "c") (var "f")]

/-- The symbols of these clauses and of `else d`, and one that `idio_gensym` has made. -/
def mixedSymbols : List Sym :=
  [.begin, .else, .eq_gt, .other "a", .other "b", .other "c", .other "d", .other "f", .g 1]

theorem rewriteCond_mixed : ∃ e st',
    rewriteCond .void (clauseList (some (list [var "d"])) mixedClauses) ⟨mixedSymbols, 1⟩ =
      .ok (e, st') ∧ SymbolTable.Grown ⟨mixedSymbols, 1⟩ st' ∧
      ∀ tail ρ, smallEvaluation.eval tail ρ e =
        smallEvaluation.condMeaning (some (list [var "d"])) tail ρ mixedClauses := by
  have hformed : ∀ c ∈ mixedClauses, c.Formed (· ∈ formNames) := by
    have hname (s : String) : Sym.other s ∉ formNames := by simp [formNames]
    refine List.forall_mem_cons.mpr ⟨nofun, List.forall_mem_cons.mpr ⟨⟨nofun, nofun, nofun⟩,
      List.forall_mem_cons.mpr ⟨⟨nofun, fun s heq => ?_⟩, nofun⟩⟩⟩
    cases heq
    exact hname "f"
  refine (rewriteCond_meaning (smallEvaluation_meanings mixedSymbols) (by decide) ?_ hformed
    (Nat.succ_pos 0)).resolve_right ?_
  · rintro body ⟨⟩
    decide
  · rintro ⟨hlt, -⟩
    exact absurd hlt (by decide)

end Idio
