/-
  Promises.lean --- `delay` and `force`.

  An expression is what it does: a tree of the variables it reads and assigns, the procedures it
  applies and the further promises it makes, with anything else as an effect on the state of the
  program.  The names of its variables are resolved in a scope, which gives each local variable
  its place in the store; another name is that of a primitive.

  `delay` is a template, so the expression stands inside the block and the function that it
  writes down, and the names of these are in scope for it.  The place of `value` that a promise
  has is its cell.
-/
import Idio.Basic
import Mathlib.Logic.Function.Basic

set_option autoImplicit false

namespace Idio.Promises

/-! ## Expressions -/

/-- The primitives that the template applies. -/
inductive Prim where
  | ph
  | pair
  deriving DecidableEq, Repr

/-- A value; `U` is the type of those of no other kind. -/
inductive Value (U : Type) where
  | false_
  | nil
  | user (u : U)
  | pair (h t : Value U)
  | prim (p : Prim)
  | promise (n : Nat)

/-- An expression, with its continuation after each thing it does. -/
inductive Code (U S : Type) where
  | ret (v : Value U)
  | raise (e : Fault)
  | get (x : String) (k : Value U → Code U S)
  | set (x : String) (v : Value U) (k : Code U S)
  | effect (f : S → Value U × S) (k : Value U → Code U S)
  | apply (f : Value U) (args : List (Value U)) (k : Value U → Code U S)
  | delay (expr : Code U S) (k : Value U → Code U S)

/-- Where the local variables are in the store. -/
abbrev Scope : Type := String → Option Nat

section Code

variable {U S : Type}

/-- `x := e`, and then what `k` does with `x`, which `e` is not in the scope of. -/
def Code.bind : Code U S → (Value U → Code U S) → Code U S
  | .ret v, k => k v
  | .raise e, _ => .raise e
  | .get x k', k => .get x fun v => (k' v).bind k
  | .set x v k', k => .set x v (k'.bind k)
  | .effect f k', k => .effect f fun v => (k' v).bind k
  | .apply f args k', k => .apply f args fun v => (k' v).bind k
  | .delay e k', k => .delay e fun v => (k' v).bind k

/-- `(ph value)` -/
def phValue : Code U S :=
  .get "ph" fun f => .get "value" fun v => .apply f [v] .ret

/-- `if value { (ph value) } { otherwise }` -/
def ifValue (otherwise : Code U S) : Code U S :=
  .get "value" fun v => match v with
    | .false_ => otherwise
    | _ => phValue

/-- `{ value = pair x '#n; (ph value) }` -/
def keep (x : Value U) : Code U S :=
  .get "pair" fun f => .apply f [x, .nil] fun v => .set "value" v phValue

/-- The body of the function that `delay` writes down. -/
def delayBody (expr : Code U S) : Code U S :=
  ifValue (expr.bind fun x => ifValue (keep x))

/-- `(force x)` -/
def force (x : Value U) : Code U S := .apply x [] .ret

/-! ## Evaluation -/

/-- A promise: the function that a `delay` form writes down, with the scope of its body, the place
of its `value` and the expression of the form. -/
structure Promise (U S : Type) where
  scope : Scope
  cell : Nat
  expr : Code U S

/-- The scope of the block of a `delay` form. -/
def inner (ρ : Scope) (cell : Nat) : Scope := Function.update ρ "value" (some cell)

/-- The variables, the promises in the order they are made, and the rest of the program. -/
structure State (U S : Type) where
  store : List (Value U)
  promises : List (Promise U S)
  user : S

/-- The value of a name that is not local. -/
def primitive (x : String) : Result (Value U) :=
  if x = "ph" then .ok (.prim .ph)
  else if x = "pair" then .ok (.prim .pair)
  else .error (.variableUnbound "no such binding" x)

/-- The value of a variable. -/
def State.get (st : State U S) (ρ : Scope) (x : String) : Result (Value U) :=
  match ρ x with
  | none => primitive x
  | some l => match st.store[l]? with
      | some v => .ok v
      | none => .error .undefined

/-- Assign to a variable. -/
def State.set (st : State U S) (ρ : Scope) (x : String) (v : Value U) : Result (State U S) :=
  match ρ x with
  | none => .error (.variableUnbound "no such binding" x)
  | some l => if l < st.store.length then .ok { st with store := st.store.set l v }
      else .error .undefined

/-- The application of a primitive. -/
def applyPrim : Prim → List (Value U) → Result (Value U)
  | .ph, [.pair h _] => .ok h
  | .ph, [_] => .error (.paramType "pair")
  | .pair, [h, t] => .ok (.pair h t)
  | _, _ => .error (.functionArity "incorrect arity")

/-- The state with a new promise; its `value` is `#f`. -/
def State.delay (st : State U S) (ρ : Scope) (expr : Code U S) : State U S :=
  { st with
    store := st.store ++ [.false_]
    promises := st.promises ++ [⟨inner ρ st.store.length, st.store.length, expr⟩] }

/-- What an expression does in a scope; each step takes one of `fuel`. -/
def eval : Nat → Scope → Code U S → State U S → Result (Value U × State U S)
  | 0, _, _, _ => .error .diverges
  | _ + 1, _, .ret v, st => .ok (v, st)
  | _ + 1, _, .raise e, _ => .error e
  | fuel + 1, ρ, .get x k, st => do
      let v ← st.get ρ x
      eval fuel ρ (k v) st
  | fuel + 1, ρ, .set x v k, st => do
      let st ← st.set ρ x v
      eval fuel ρ k st
  | fuel + 1, ρ, .effect f k, st =>
      let r := f st.user
      eval fuel ρ (k r.1) { st with user := r.2 }
  | fuel + 1, ρ, .apply f args k, st => match f with
      | .prim p => do
          let v ← applyPrim p args
          eval fuel ρ (k v) st
      | .promise n =>
          if args ≠ [] then .error (.functionArity "incorrect arity")
          else match st.promises[n]? with
            | none => .error .undefined
            | some p => do
                let (v, st) ← eval fuel p.scope (delayBody p.expr) st
                eval fuel ρ (k v) st
      | .false_ | .nil | .user _ | .pair _ _ =>
          .error (.functionError "cannot invoke constant type")
  | fuel + 1, ρ, .delay e k, st => eval fuel ρ (k (.promise st.promises.length)) (st.delay ρ e)

/-- The expression ends with a value and a state. -/
def Evals (ρ : Scope) (c : Code U S) (st : State U S) (r : Value U × State U S) : Prop :=
  ∃ fuel, eval fuel ρ c st = .ok r

/-! ## Rules of evaluation -/

variable {ρ : Scope} {c e : Code U S} {k : Value U → Code U S} {st st' : State U S} {v w : Value U}
  {x : String} {r : Value U × State U S} {fuel fuel' n l : Nat} {p : Promise U S}

/-- The application of a promise. -/
theorem eval_promise_inv {args : List (Value U)}
    (h : eval (fuel + 1) ρ (.apply (.promise n) args k) st = .ok r) :
    args = [] ∧ ∃ p v st₁, st.promises[n]? = some p ∧
      eval fuel p.scope (delayBody p.expr) st = .ok (v, st₁) ∧ eval fuel ρ (k v) st₁ = .ok r := by
  rw [eval] at h
  dsimp only at h
  split at h
  · cases h
  · rename_i hargs
    cases hp : st.promises[n]? with
    | none =>
      rw [hp] at h
      cases h
    | some p =>
      rw [hp] at h
      obtain ⟨⟨v, st₁⟩, hv, h⟩ := bind_eq_ok.mp h
      exact ⟨not_not.mp hargs, p, v, st₁, rfl, hv, h⟩

theorem eval_promise (hp : st.promises[n]? = some p)
    (h : eval fuel p.scope (delayBody p.expr) st = .ok (v, st')) :
    eval (fuel + 1) ρ (.apply (.promise n) [] k) st = eval fuel ρ (k v) st' := by
  rw [eval]
  dsimp only
  rw [if_neg (by simp), hp]
  dsimp only
  rw [h]
  rfl

theorem eval_mono (hle : fuel ≤ fuel') (h : eval fuel ρ c st = .ok r) :
    eval fuel' ρ c st = .ok r := by
  induction fuel generalizing ρ c st r fuel' with
  | zero => cases h
  | succ fuel ih =>
    obtain ⟨m, rfl⟩ := Nat.exists_eq_add_of_lt (Nat.lt_of_succ_le hle)
    have hm : fuel ≤ fuel + m := Nat.le_add_right fuel m
    cases c with
    | ret v => exact h
    | raise e => cases h
    | get x k =>
      obtain ⟨v, hv, h⟩ := bind_eq_ok.mp h
      exact bind_eq_ok.mpr ⟨v, hv, ih hm h⟩
    | set x v k =>
      obtain ⟨st₁, hst, h⟩ := bind_eq_ok.mp h
      exact bind_eq_ok.mpr ⟨st₁, hst, ih hm h⟩
    | effect f k => exact (ih hm h : eval (fuel + m) ρ _ _ = .ok r)
    | delay e k => exact (ih hm h : eval (fuel + m) ρ _ _ = .ok r)
    | apply f args k =>
      cases f with
      | prim p =>
        obtain ⟨v, hv, h⟩ := bind_eq_ok.mp h
        exact bind_eq_ok.mpr ⟨v, hv, ih hm h⟩
      | promise n =>
        obtain ⟨rfl, p, v, st₁, hp, hbody, hk⟩ := eval_promise_inv h
        rw [eval_promise hp (ih hm hbody)]
        exact ih hm hk
      | _ => cases h

/-- A sequence is evaluated part by part. -/
theorem eval_bind_inv (h : eval fuel ρ (c.bind k) st = .ok r) :
    ∃ v st₁, eval fuel ρ c st = .ok (v, st₁) ∧ eval fuel ρ (k v) st₁ = .ok r := by
  induction fuel generalizing ρ c st r with
  | zero => cases h
  | succ fuel ih =>
    have hsucc : fuel ≤ fuel + 1 := Nat.le_succ fuel
    cases c with
    | ret v => exact ⟨v, st, rfl, h⟩
    | raise e => cases h
    | get x k' =>
      obtain ⟨w, hw, h⟩ := bind_eq_ok.mp h
      obtain ⟨v, st₁, hc, hk⟩ := ih h
      exact ⟨v, st₁, bind_eq_ok.mpr ⟨w, hw, hc⟩, eval_mono hsucc hk⟩
    | set x w k' =>
      obtain ⟨st₂, hst, h⟩ := bind_eq_ok.mp h
      obtain ⟨v, st₁, hc, hk⟩ := ih h
      exact ⟨v, st₁, bind_eq_ok.mpr ⟨st₂, hst, hc⟩, eval_mono hsucc hk⟩
    | effect f k' =>
      obtain ⟨v, st₁, hc, hk⟩ := ih h
      exact ⟨v, st₁, hc, eval_mono hsucc hk⟩
    | delay e k' =>
      obtain ⟨v, st₁, hc, hk⟩ := ih h
      exact ⟨v, st₁, hc, eval_mono hsucc hk⟩
    | apply f args k' =>
      cases f with
      | prim p =>
        obtain ⟨w, hw, h⟩ := bind_eq_ok.mp h
        obtain ⟨v, st₁, hc, hk⟩ := ih h
        exact ⟨v, st₁, bind_eq_ok.mpr ⟨w, hw, hc⟩, eval_mono hsucc hk⟩
      | promise n =>
        obtain ⟨rfl, p, w, st₂, hp, hbody, h⟩ := eval_promise_inv h
        obtain ⟨v, st₁, hc, hk⟩ := ih h
        exact ⟨v, st₁, (eval_promise hp hbody).trans hc, eval_mono hsucc hk⟩
      | _ => cases h

/-- One part after the other is a sequence. -/
theorem eval_bind (hc : eval fuel ρ c st = .ok (v, st')) (hk : eval fuel' ρ (k v) st' = .ok r) :
    eval (fuel + fuel') ρ (c.bind k) st = .ok r := by
  induction fuel generalizing ρ c st with
  | zero => cases hc
  | succ fuel ih =>
    rw [Nat.succ_add]
    cases c with
    | ret w =>
      cases hc
      exact eval_mono (by omega) hk
    | raise e => cases hc
    | get x k' =>
      obtain ⟨w, hw, hc⟩ := bind_eq_ok.mp hc
      exact bind_eq_ok.mpr ⟨w, hw, ih hc hk⟩
    | set x w k' =>
      obtain ⟨st₂, hst, hc⟩ := bind_eq_ok.mp hc
      exact bind_eq_ok.mpr ⟨st₂, hst, ih hc hk⟩
    | effect f k' => exact (ih hc hk : eval (fuel + fuel') ρ _ _ = .ok r)
    | delay e k' => exact (ih hc hk : eval (fuel + fuel') ρ _ _ = .ok r)
    | apply f args k' =>
      cases f with
      | prim p =>
        obtain ⟨w, hw, hc⟩ := bind_eq_ok.mp hc
        exact bind_eq_ok.mpr ⟨w, hw, ih hc hk⟩
      | promise n =>
        obtain ⟨rfl, p, w, st₂, hp, hbody, hc⟩ := eval_promise_inv hc
        exact (eval_promise hp (eval_mono (Nat.le_add_right _ _) hbody)).trans (ih hc hk)
      | _ => cases hc

theorem Evals.unique {r' : Value U × State U S} (h : Evals ρ c st r) (h' : Evals ρ c st r') :
    r = r' := by
  obtain ⟨m, hm⟩ := h
  obtain ⟨n, hn⟩ := h'
  have heq := (eval_mono (Nat.le_max_left m n) hm).symm.trans (eval_mono (Nat.le_max_right m n) hn)
  exact Except.ok.inj heq

theorem Evals.iff {r₀ : Value U × State U S} (h : Evals ρ c st r₀) : Evals ρ c st r ↔ r = r₀ :=
  ⟨fun h' => h'.unique h, fun heq => heq ▸ h⟩

theorem evals_bind_iff : Evals ρ (c.bind k) st r ↔
    ∃ v st₁, Evals ρ c st (v, st₁) ∧ Evals ρ (k v) st₁ r := by
  constructor
  · rintro ⟨fuel, h⟩
    obtain ⟨v, st₁, hc, hk⟩ := eval_bind_inv h
    exact ⟨v, st₁, ⟨fuel, hc⟩, ⟨fuel, hk⟩⟩
  · rintro ⟨v, st₁, ⟨m, hc⟩, ⟨n, hk⟩⟩
    exact ⟨m + n, eval_bind hc hk⟩

theorem evals_get :
    Evals ρ (.get x k) st r ↔ ∃ v, st.get ρ x = .ok v ∧ Evals ρ (k v) st r := by
  constructor
  · rintro ⟨fuel, h⟩
    cases fuel with
    | zero => cases h
    | succ fuel =>
      obtain ⟨v, hv, h⟩ := bind_eq_ok.mp h
      exact ⟨v, hv, fuel, h⟩
  · exact fun ⟨v, hv, fuel, h⟩ => ⟨fuel + 1, bind_eq_ok.mpr ⟨v, hv, h⟩⟩

theorem evals_set :
    Evals ρ (.set x v c) st r ↔ ∃ st₁, st.set ρ x v = .ok st₁ ∧ Evals ρ c st₁ r := by
  constructor
  · rintro ⟨fuel, h⟩
    cases fuel with
    | zero => cases h
    | succ fuel =>
      obtain ⟨st₁, hst, h⟩ := bind_eq_ok.mp h
      exact ⟨st₁, hst, fuel, h⟩
  · exact fun ⟨st₁, hst, fuel, h⟩ => ⟨fuel + 1, bind_eq_ok.mpr ⟨st₁, hst, h⟩⟩

theorem evals_prim {q : Prim} {args : List (Value U)} :
    Evals ρ (.apply (.prim q) args k) st r ↔ ∃ v, applyPrim q args = .ok v ∧ Evals ρ (k v) st r := by
  constructor
  · rintro ⟨fuel, h⟩
    cases fuel with
    | zero => cases h
    | succ fuel =>
      obtain ⟨v, hv, h⟩ := bind_eq_ok.mp h
      exact ⟨v, hv, fuel, h⟩
  · exact fun ⟨v, hv, fuel, h⟩ => ⟨fuel + 1, bind_eq_ok.mpr ⟨v, hv, h⟩⟩

/-! ## The template -/

/-- The names of the primitives are not those of local variables. -/
def Primitives (ρ : Scope) : Prop := ρ "ph" = none ∧ ρ "pair" = none

theorem get_local (hx : ρ x = some l) (hv : st.store[l]? = some v) : st.get ρ x = .ok v := by
  rw [State.get, hx]
  dsimp only
  rw [hv]

/-- The cell holds `#f`. -/
theorem eval_ifValue_false (hl : ρ "value" = some l) (hv : st.store[l]? = some .false_) :
    eval (fuel + 1) ρ (ifValue c) st = eval fuel ρ c st := by
  rw [ifValue, eval, get_local hl hv]
  rfl

theorem evals_ifValue_false (hl : ρ "value" = some l) (hv : st.store[l]? = some .false_) :
    Evals ρ (ifValue c) st r ↔ Evals ρ c st r := by
  constructor
  · rintro ⟨fuel, h⟩
    cases fuel with
    | zero => cases h
    | succ fuel => exact ⟨fuel, (eval_ifValue_false hl hv).symm.trans h⟩
  · rintro ⟨fuel, h⟩
    exact ⟨fuel + 1, (eval_ifValue_false hl hv).trans h⟩

theorem evals_phValue (hprims : Primitives ρ) (hl : ρ "value" = some l)
    (hv : st.store[l]? = some (.pair w .nil)) : Evals ρ (phValue : Code U S) st (w, st) := by
  have hph : st.get ρ "ph" = .ok (.prim .ph) := by
    rw [State.get, hprims.1]
    rfl
  have happly : Evals ρ (.apply (.prim .ph) [.pair w .nil] .ret : Code U S) st (w, st) :=
    evals_prim.mpr ⟨w, rfl, 1, rfl⟩
  exact evals_get.mpr ⟨_, hph, evals_get.mpr ⟨_, get_local hl hv, happly⟩⟩

/-- The cell holds a value. -/
theorem evals_ifValue_pair (hprims : Primitives ρ) (hl : ρ "value" = some l)
    (hv : st.store[l]? = some (.pair w .nil)) : Evals ρ (ifValue c) st r ↔ r = (w, st) := by
  obtain ⟨fuel, h⟩ := evals_phValue (S := S) hprims hl hv
  refine Evals.iff ⟨fuel + 1, ?_⟩
  rw [ifValue, eval, get_local hl hv]
  exact h

/-- The state with a value in a cell. -/
def State.fill (st : State U S) (l : Nat) (v : Value U) : State U S :=
  { st with store := st.store.set l (.pair v .nil) }

theorem evals_keep (hprims : Primitives ρ) (hl : ρ "value" = some l) (hlt : l < st.store.length) :
    Evals ρ (keep v) st r ↔ r = (v, st.fill l v) := by
  have hfill : (st.fill l v).store[l]? = some (.pair v .nil) := List.getElem?_set_self hlt
  have hpair : st.get ρ "pair" = .ok (.prim .pair) := by
    rw [State.get, hprims.2]
    rfl
  have hset : st.set ρ "value" (.pair v .nil) = .ok (st.fill l v) := by
    rw [State.set, hl]
    exact if_pos hlt
  have hcell := evals_set.mpr ⟨_, hset, evals_phValue (S := S) hprims hl hfill⟩
  exact Evals.iff (evals_get.mpr ⟨_, hpair, evals_prim.mpr ⟨_, rfl, hcell⟩⟩)

/-- What a force of a promise with the cell `l` does in a state: the value that is in the cell,
or else that of the expression, which goes into the cell unless another force did so first. -/
def Forces (ρ : Scope) (e : Code U S) (l : Nat) (st : State U S) (r : Value U × State U S) : Prop :=
  (∃ w, st.store[l]? = some (.pair w .nil) ∧ r = (w, st)) ∨
    (st.store[l]? = some .false_ ∧ ∃ v st₁, Evals ρ e st (v, st₁) ∧
      ((∃ w, st₁.store[l]? = some (.pair w .nil) ∧ r = (w, st₁)) ∨
        (st₁.store[l]? = some .false_ ∧ r = (v, st₁.fill l v))))

/-- A cell holds `#f` or a value. -/
def IsCell (st : State U S) (l : Nat) : Prop :=
  st.store[l]? = some .false_ ∨ ∃ w, st.store[l]? = some (.pair w .nil)

theorem IsCell.lt (h : IsCell st l) : l < st.store.length := by
  rcases h with h | ⟨w, h⟩ <;> exact (List.getElem?_eq_some_iff.mp h).1

/-- The body of the function does that, in its own scope. -/
theorem evals_delayBody (hprims : Primitives ρ) (hl : ρ "value" = some l) (hcell : IsCell st l)
    (hkeeps : ∀ v st₁, Evals ρ e st (v, st₁) → IsCell st₁ l) :
    Evals ρ (delayBody e) st r ↔ Forces ρ e l st r := by
  rw [delayBody]
  rcases hcell with hfalse | ⟨w, hw⟩
  · rw [evals_ifValue_false hl hfalse, evals_bind_iff]
    have hrest : ∀ v st₁, Evals ρ e st (v, st₁) → (Evals ρ (ifValue (keep v)) st₁ r ↔
        (∃ w, st₁.store[l]? = some (.pair w .nil) ∧ r = (w, st₁)) ∨
          (st₁.store[l]? = some .false_ ∧ r = (v, st₁.fill l v))) := by
      intro v st₁ hv
      have hcell₁ := hkeeps v st₁ hv
      rcases hcell₁ with h₁ | ⟨w, h₁⟩
      · rw [evals_ifValue_false hl h₁, evals_keep hprims hl (IsCell.lt (.inl h₁))]
        simp [h₁]
      · rw [evals_ifValue_pair hprims hl h₁]
        simp [h₁]
    constructor
    · rintro ⟨v, st₁, hv, hr⟩
      exact .inr ⟨hfalse, v, st₁, hv, (hrest v st₁ hv).mp hr⟩
    · rintro (⟨w, hw, -⟩ | ⟨-, v, st₁, hv, hr⟩)
      · rw [hfalse] at hw
        cases hw
      · exact ⟨v, st₁, hv, (hrest v st₁ hv).mpr hr⟩
  · rw [evals_ifValue_pair hprims hl hw]
    constructor
    · exact fun hr => .inl ⟨w, hw, hr⟩
    · rintro (⟨w', hw', hr⟩ | ⟨hfalse, -⟩)
      · rw [hw] at hw'
        cases hw'
        exact hr
      · rw [hw] at hfalse
        cases hfalse

/-! ## Names -/

/-- The expression, or one that it delays, reads or assigns to the variable. -/
inductive Mentions (x : String) : Code U S → Prop where
  | get (k : Value U → Code U S) : Mentions x (.get x k)
  | getRest {y : String} {k : Value U → Code U S} (v : Value U) :
      Mentions x (k v) → Mentions x (.get y k)
  | set (v : Value U) (k : Code U S) : Mentions x (.set x v k)
  | setRest {y : String} {v : Value U} {k : Code U S} : Mentions x k → Mentions x (.set y v k)
  | effectRest {f : S → Value U × S} {k : Value U → Code U S} (v : Value U) :
      Mentions x (k v) → Mentions x (.effect f k)
  | applyRest {f : Value U} {args : List (Value U)} {k : Value U → Code U S} (v : Value U) :
      Mentions x (k v) → Mentions x (.apply f args k)
  | delay {e : Code U S} {k : Value U → Code U S} : Mentions x e → Mentions x (.delay e k)
  | delayRest {e : Code U S} {k : Value U → Code U S} (v : Value U) :
      Mentions x (k v) → Mentions x (.delay e k)

/-- The expression delays `e`, or one that does. -/
inductive Delays (e : Code U S) : Code U S → Prop where
  | getRest {y : String} {k : Value U → Code U S} (v : Value U) :
      Delays e (k v) → Delays e (.get y k)
  | setRest {y : String} {v : Value U} {k : Code U S} : Delays e k → Delays e (.set y v k)
  | effectRest {f : S → Value U × S} {k : Value U → Code U S} (v : Value U) :
      Delays e (k v) → Delays e (.effect f k)
  | applyRest {f : Value U} {args : List (Value U)} {k : Value U → Code U S} (v : Value U) :
      Delays e (k v) → Delays e (.apply f args k)
  | here (k : Value U → Code U S) : Delays e (.delay e k)
  | inside {e' : Code U S} {k : Value U → Code U S} : Delays e e' → Delays e (.delay e' k)
  | delayRest {e' : Code U S} {k : Value U → Code U S} (v : Value U) :
      Delays e (k v) → Delays e (.delay e' k)

theorem Delays.mentions (h : Delays e c) (hx : Mentions x e) : Mentions x c := by
  induction h with
  | getRest v _ ih => exact .getRest v ih
  | setRest _ ih => exact .setRest ih
  | effectRest v _ ih => exact .effectRest v ih
  | applyRest v _ ih => exact .applyRest v ih
  | here k => exact .delay hx
  | inside _ ih => exact .delay ih
  | delayRest v _ ih => exact .delayRest v ih

/-- An expression that does not mention `value` does the same in the block. -/
theorem eval_inner (hx : ¬ Mentions "value" c) (l : Nat) :
    eval fuel (inner ρ l) c st = eval fuel ρ c st := by
  have hother : ∀ y, y ≠ "value" → inner ρ l y = ρ y := fun y hy => Function.update_of_ne hy _ _
  induction fuel generalizing c st with
  | zero => rfl
  | succ fuel ih =>
    cases c with
    | ret v => rfl
    | raise e => rfl
    | get y k =>
      have hy : y ≠ "value" := fun h => hx (h ▸ .get k)
      have hget : st.get (inner ρ l) y = st.get ρ y := by rw [State.get, hother y hy, State.get]
      rw [eval, eval, hget]
      exact bind_congr fun v => ih fun h => hx (.getRest v h)
    | set y v k =>
      have hy : y ≠ "value" := fun h => hx (h ▸ .set v k)
      have hset : st.set (inner ρ l) y v = st.set ρ y v := by rw [State.set, hother y hy, State.set]
      rw [eval, eval, hset]
      exact bind_congr fun st => ih fun h => hx (.setRest h)
    | effect f k => exact ih fun h => hx (.effectRest _ h)
    | apply f args k =>
      cases f with
      | prim p => exact bind_congr fun v => ih fun h => hx (.applyRest v h)
      | promise n =>
        rw [eval, eval]
        dsimp only
        split
        · rfl
        · split
          · rfl
          · exact bind_congr fun r => ih fun h => hx (.applyRest r.1 h)
      | _ => rfl
    | delay e k =>
      -- the block of a promise within has a `value` of its own
      have hscope : st.delay (inner ρ l) e = st.delay ρ e := by
        rw [State.delay, inner, inner, Function.update_idem, State.delay, inner]
      rw [eval, eval, hscope]
      exact ih fun h => hx (.delayRest _ h)

theorem evals_inner (hx : ¬ Mentions "value" c) (l : Nat) :
    Evals (inner ρ l) c st r ↔ Evals ρ c st r :=
  exists_congr fun fuel => by rw [eval_inner hx l]

/-! ## Runs -/

/-- The variables that the expression mentions are places of the store that are no cells, and
what it delays does not mention `value`. -/
structure Good (ρ : Scope) (c : Code U S) (st : State U S) : Prop where
  places : ∀ x l, Mentions x c → ρ x = some l →
    l < st.store.length ∧ ∀ p ∈ st.promises, p.cell ≠ l
  delays : ∀ e, Delays e c → ¬ Mentions "value" e
  prims : Primitives ρ

/-- The same of the expressions of all promises, but for the cells that are their `value`. -/
structure Sealed (st : State U S) : Prop where
  scope : ∀ p ∈ st.promises, p.scope "value" = some p.cell
  cell : ∀ p ∈ st.promises, IsCell st p.cell
  hidden : ∀ p ∈ st.promises, ¬ Mentions "value" p.expr
  good : ∀ p ∈ st.promises, Good p.scope p.expr st

/-- The promise has its value. -/
def Completed (st : State U S) (n : Nat) (w : Value U) : Prop :=
  ∃ p, st.promises[n]? = some p ∧ st.store[p.cell]? = some (.pair w .nil)

/-- What every step keeps: there are no fewer places and promises, the cells of new promises are
new places, and a promise that has its value keeps it. -/
structure Grows (st st' : State U S) : Prop where
  store : st.store.length ≤ st'.store.length
  promises : ∃ ps, st'.promises = st.promises ++ ps ∧ ∀ p ∈ ps, st.store.length ≤ p.cell
  completed : ∀ n w, Completed st n w → Completed st' n w

theorem Grows.refl (st : State U S) : Grows st st :=
  ⟨Nat.le_refl _, ⟨[], (List.append_nil _).symm, by simp⟩, fun _ _ h => h⟩

theorem Grows.trans {st₁ : State U S} (h : Grows st st₁) (h' : Grows st₁ st') : Grows st st' := by
  obtain ⟨ps, hps, hnew⟩ := h.promises
  obtain ⟨ps', hps', hnew'⟩ := h'.promises
  refine ⟨Nat.le_trans h.store h'.store, ⟨ps ++ ps', ?_, fun p hp => ?_⟩,
    fun n w hw => h'.completed n w (h.completed n w hw)⟩
  · rw [hps', hps, List.append_assoc]
  · rcases List.mem_append.mp hp with hp | hp
    · exact hnew p hp
    · exact Nat.le_trans h.store (hnew' p hp)

theorem Grows.good (h : Grows st st') (hg : Good ρ c st) : Good ρ c st' where
  places x l hx hl := by
    obtain ⟨hlt, hcells⟩ := hg.places x l hx hl
    obtain ⟨ps, hps, hnew⟩ := h.promises
    refine ⟨Nat.lt_of_lt_of_le hlt h.store, fun p hp => ?_⟩
    rw [hps, List.mem_append] at hp
    rcases hp with hp | hp
    · exact hcells p hp
    · exact Nat.ne_of_gt (Nat.lt_of_lt_of_le hlt (hnew p hp))
  delays := hg.delays
  prims := hg.prims

/-- A part of an expression is as good as the whole. -/
theorem Good.part {c' : Code U S} (hg : Good ρ c st) (hm : ∀ x, Mentions x c' → Mentions x c)
    (hd : ∀ e, Delays e c' → Delays e c) : Good ρ c' st where
  places x l hx hl := hg.places x l (hm x hx) hl
  delays e he := hg.delays e (hd e he)
  prims := hg.prims

/-- A place of the store that is no cell may change, and so may the rest of the program. -/
theorem Sealed.update (hs : Sealed st) {st₁ : State U S} (hp : st₁.promises = st.promises)
    (hlen : st₁.store.length = st.store.length)
    (hcells : ∀ p ∈ st.promises, st₁.store[p.cell]? = st.store[p.cell]?) :
    Sealed st₁ ∧ Grows st st₁ := by
  have hgrows : Grows st st₁ := by
    refine ⟨Nat.le_of_eq hlen.symm, ⟨[], by rw [hp, List.append_nil], by simp⟩, ?_⟩
    rintro n w ⟨p, hn, hw⟩
    exact ⟨p, hp ▸ hn, (hcells p (List.mem_of_getElem? hn)).trans hw⟩
  refine ⟨⟨?_, ?_, ?_, ?_⟩, hgrows⟩
  all_goals rw [hp]
  · exact hs.scope
  · intro p hmem
    rw [IsCell, hcells p hmem]
    exact hs.cell p hmem
  · exact hs.hidden
  · exact fun p hmem => hgrows.good (hs.good p hmem)

/-- A cell that holds `#f` may be filled. -/
theorem Sealed.fill (hs : Sealed st) (hl : st.store[l]? = some .false_) (v : Value U) :
    Sealed (st.fill l v) ∧ Grows st (st.fill l v) := by
  have hlt : l < st.store.length := (List.getElem?_eq_some_iff.mp hl).1
  have hlen : (st.fill l v).store.length = st.store.length := List.length_set
  have hself : (st.fill l v).store[l]? = some (.pair v .nil) := List.getElem?_set_self hlt
  have hother : ∀ m, m ≠ l → (st.fill l v).store[m]? = st.store[m]? := fun m hm =>
    List.getElem?_set_ne (Ne.symm hm)
  have hgrows : Grows st (st.fill l v) := by
    refine ⟨Nat.le_of_eq hlen.symm, ⟨[], (List.append_nil _).symm, by simp⟩, ?_⟩
    rintro n w ⟨p, hn, hw⟩
    refine ⟨p, hn, (hother p.cell fun h => ?_).trans hw⟩
    rw [h, hl] at hw
    cases hw
  refine ⟨⟨hs.scope, fun p hmem => ?_, hs.hidden, fun p hmem => hgrows.good (hs.good p hmem)⟩,
    hgrows⟩
  by_cases hp : p.cell = l
  · rw [hp]
    exact .inr ⟨v, hself⟩
  · rw [IsCell, hother p.cell hp]
    exact hs.cell p hmem

/-- A promise may be made. -/
theorem Sealed.delay (hs : Sealed st) (hg : Good ρ (.delay e k) st) :
    Sealed (st.delay ρ e) ∧ Grows st (st.delay ρ e) := by
  have hlen : (st.delay ρ e).store.length = st.store.length + 1 := List.length_append
  have hold : ∀ m, m < st.store.length → (st.delay ρ e).store[m]? = st.store[m]? := fun m hm =>
    List.getElem?_append_left hm
  have hgrows : Grows st (st.delay ρ e) := by
    refine ⟨by omega, ⟨[_], rfl, by simp⟩, ?_⟩
    rintro n w ⟨p, hn, hw⟩
    have hlt := (List.getElem?_eq_some_iff.mp hw).1
    exact ⟨p, (List.getElem?_append_left (List.getElem?_eq_some_iff.mp hn).1).trans hn,
      (hold _ hlt).trans hw⟩
  have hidden : ¬ Mentions "value" e := hg.delays e (.here k)
  have hgood : Good (inner ρ st.store.length) e (st.delay ρ e) := by
    have hother : ∀ y, y ≠ "value" → inner ρ st.store.length y = ρ y := fun y hy =>
      Function.update_of_ne hy _ _
    have hgrown := hgrows.good hg
    refine ⟨fun x l hx hl => ?_, fun e' he' h => hg.delays e (.here k) (he'.mentions h), ?_⟩
    · have hne : x ≠ "value" := fun h => hidden (h ▸ hx)
      rw [hother x hne] at hl
      exact hgrown.places x l (.delay hx) hl
    · exact ⟨(hother _ (by decide)).trans hg.prims.1, (hother _ (by decide)).trans hg.prims.2⟩
  have hmem : ∀ p ∈ (st.delay ρ e).promises, p ∈ st.promises ∨
      p = ⟨inner ρ st.store.length, st.store.length, e⟩ := fun p hp => by
    simpa [State.delay] using hp
  refine ⟨⟨fun p hp => ?_, fun p hp => ?_, fun p hp => ?_, fun p hp => ?_⟩, hgrows⟩
  · rcases hmem p hp with hp | rfl
    · exact hs.scope p hp
    · exact Function.update_self ("value") _ ρ
  · rcases hmem p hp with hp | rfl
    · have hcell := hs.cell p hp
      rw [IsCell, hold _ hcell.lt]
      exact hcell
    · exact .inl List.getElem?_concat_length
  · rcases hmem p hp with hp | rfl
    · exact hs.hidden p hp
    · exact hidden
  · rcases hmem p hp with hp | rfl
    · exact hgrows.good (hs.good p hp)
    · exact hgood

/-- What an evaluation keeps, by induction on its steps. -/
theorem eval_sealed (hs : Sealed st) (hg : Good ρ c st) (h : eval fuel ρ c st = .ok (v, st')) :
    Sealed st' ∧ Grows st st' := by
  induction fuel using Nat.strongRecOn generalizing ρ c st v st' with
  | ind fuel ih =>
    cases fuel with
    | zero => cases h
    | succ fuel =>
      have hlt : fuel < fuel + 1 := Nat.lt_succ_self fuel
      -- one step to a sealed state, and the rest of the expression
      have step : ∀ {c' : Code U S} {st₁ : State U S}, Sealed st₁ ∧ Grows st st₁ →
          Good ρ c' st → eval fuel ρ c' st₁ = .ok (v, st') → Sealed st' ∧ Grows st st' := by
        intro c' st₁ hst₁ hc' hrun
        obtain ⟨hs', hgrows⟩ := ih fuel hlt hst₁.1 (hst₁.2.good hc') hrun
        exact ⟨hs', hst₁.2.trans hgrows⟩
      have here : Sealed st ∧ Grows st st := ⟨hs, .refl st⟩
      cases c with
      | ret w =>
        cases h
        exact here
      | raise e => cases h
      | get x k =>
        obtain ⟨w, -, h⟩ := bind_eq_ok.mp h
        exact step here (hg.part (fun _ => .getRest w) fun _ => .getRest w) h
      | set x w k =>
        obtain ⟨st₁, hset, h⟩ := bind_eq_ok.mp h
        refine step ?_ (hg.part (fun _ => .setRest) fun _ => .setRest) h
        cases hl : ρ x with
        | none =>
          rw [State.set, hl] at hset
          cases hset
        | some l =>
          obtain ⟨hlt, hcells⟩ := hg.places x l (.set w k) hl
          rw [State.set, hl] at hset
          dsimp only at hset
          rw [if_pos hlt] at hset
          cases hset
          exact hs.update rfl List.length_set fun p hp =>
            List.getElem?_set_ne (Ne.symm (hcells p hp))
      | effect f k =>
        refine step ?_ (hg.part (fun _ => .effectRest (f st.user).1) fun _ => .effectRest _) h
        exact hs.update rfl rfl fun _ _ => rfl
      | delay e k =>
        exact step (hs.delay hg) (hg.part (fun _ => .delayRest _) fun _ => .delayRest _) h
      | apply f args k =>
        cases f with
        | prim p =>
          obtain ⟨w, -, h⟩ := bind_eq_ok.mp h
          exact step here (hg.part (fun _ => .applyRest w) fun _ => .applyRest w) h
        | promise n =>
          obtain ⟨rfl, p, w, st₁, hp, hbody, h⟩ := eval_promise_inv h
          refine step ?_ (hg.part (fun _ => .applyRest w) fun _ => .applyRest w) h
          have hmem := List.mem_of_getElem? hp
          have hpg := hs.good p hmem
          have hscope := hs.scope p hmem
          have hkeeps : ∀ {m : Nat} {u : Value U} {st₂ : State U S}, m < fuel + 1 →
              eval m p.scope p.expr st = .ok (u, st₂) → Sealed st₂ ∧ Grows st st₂ :=
            fun hm hrun => ih _ hm hs hpg hrun
          rcases hs.cell p hmem with hfalse | ⟨u, hu⟩
          · -- the expression, and then the test of the cell again
            cases fuel with
            | zero => cases hbody
            | succ fuel =>
              rw [delayBody, eval_ifValue_false hscope hfalse] at hbody
              obtain ⟨u, st₂, he, hrest⟩ := eval_bind_inv hbody
              obtain ⟨hs₂, hgrows₂⟩ := hkeeps (by omega) he
              obtain ⟨ps, hps, -⟩ := hgrows₂.promises
              have hmem₂ : p ∈ st₂.promises := hps ▸ List.mem_append_left ps hmem
              rcases hs₂.cell p hmem₂ with h₂ | ⟨u', h₂⟩
              · have hfilled := (evals_keep hpg.prims hscope (IsCell.lt (.inl h₂))).mp
                  ((evals_ifValue_false hscope h₂).mp ⟨_, hrest⟩)
                cases hfilled
                obtain ⟨hs₁, hgrows₁⟩ := hs₂.fill h₂ w
                exact ⟨hs₁, hgrows₂.trans hgrows₁⟩
              · have hkept := (evals_ifValue_pair hpg.prims hscope h₂).mp ⟨_, hrest⟩
                cases hkept
                exact ⟨hs₂, hgrows₂⟩
          · have hdone := (evals_ifValue_pair hpg.prims hscope hu).mp ⟨_, hbody⟩
            cases hdone
            exact here
        | _ => cases h

theorem Evals.sealed (h : Evals ρ c st (v, st')) (hs : Sealed st) (hg : Good ρ c st) :
    Sealed st' ∧ Grows st st' := by
  obtain ⟨fuel, h⟩ := h
  exact eval_sealed hs hg h

/-! ## Forcing -/

/-- What is forced is there. -/
theorem exists_promise (h : Evals ρ (force (.promise n)) st r) : ∃ p, st.promises[n]? = some p := by
  obtain ⟨fuel, h⟩ := h
  cases fuel with
  | zero => cases h
  | succ fuel =>
    obtain ⟨-, p, -, -, hp, -⟩ := eval_promise_inv h
    exact ⟨p, hp⟩

theorem evals_force (hp : st.promises[n]? = some p) :
    Evals ρ (force (.promise n)) st r ↔ Evals p.scope (delayBody p.expr) st r := by
  constructor
  · rintro ⟨fuel, h⟩
    cases fuel with
    | zero => cases h
    | succ fuel =>
      obtain ⟨-, p', v, st₁, hp', hbody, hret⟩ := eval_promise_inv h
      rw [hp] at hp'
      cases hp'
      cases fuel with
      | zero => cases hret
      | succ fuel =>
        cases hret
        exact ⟨_, hbody⟩
  · rintro ⟨fuel, h⟩
    obtain ⟨v, st₁⟩ := r
    refine ⟨fuel + 1 + 1, ?_⟩
    rw [force, eval_promise hp (eval_mono (Nat.le_succ fuel) h)]
    rfl

/-- A promise of a sealed state is forced as it should be. -/
theorem Sealed.force (hs : Sealed st) (hp : st.promises[n]? = some p) :
    Evals ρ (force (.promise n)) st r ↔ Forces p.scope p.expr p.cell st r := by
  have hmem := List.mem_of_getElem? hp
  rw [evals_force hp]
  refine evals_delayBody (hs.good p hmem).prims (hs.scope p hmem) (hs.cell p hmem) ?_
  intro v st₁ hv
  obtain ⟨hs₁, hgrows⟩ := hv.sealed hs (hs.good p hmem)
  obtain ⟨ps, hps, -⟩ := hgrows.promises
  exact hs₁.cell p (hps ▸ List.mem_append_left ps hmem)

/-- A promise that has its value is forced to it, and nothing is evaluated. -/
theorem Sealed.force_completed (hs : Sealed st) (hw : Completed st n w) :
    Evals ρ (Promises.force (.promise n)) st r ↔ r = (w, st) := by
  obtain ⟨p, hp, hcell⟩ := hw
  rw [hs.force hp, Forces]
  constructor
  · rintro (⟨w', hw', hr⟩ | ⟨hfalse, -⟩)
    · rw [hcell] at hw'
      cases hw'
      exact hr
    · rw [hcell] at hfalse
      cases hfalse
  · exact fun hr => .inl ⟨w, hcell, hr⟩

/-- A promise that was forced has its value. -/
theorem Sealed.completed (hs : Sealed st)
    (h : Evals ρ (Promises.force (.promise n)) st (v, st')) : Completed st' n v := by
  obtain ⟨p, hp⟩ := exists_promise h
  have hmem := List.mem_of_getElem? hp
  rcases (hs.force hp).mp h with ⟨w, hw, hr⟩ | ⟨-, u, st₁, hu, hrest⟩
  · cases hr
    exact ⟨p, hp, hw⟩
  · obtain ⟨-, hgrows⟩ := hu.sealed hs (hs.good p hmem)
    obtain ⟨ps, hps, -⟩ := hgrows.promises
    have hp₁ : st₁.promises[n]? = some p := by
      rw [hps]
      exact (List.getElem?_append_left (List.getElem?_eq_some_iff.mp hp).1).trans hp
    rcases hrest with ⟨w, hw, hr⟩ | ⟨hfalse, hr⟩
    · cases hr
      exact ⟨p, hp₁, hw⟩
    · cases hr
      exact ⟨p, hp₁, List.getElem?_set_self (IsCell.lt (.inl hfalse))⟩

/-- The places of the variables are there, and no promise has one of them for its cell. -/
def Placed (ρ : Scope) (xs : List String) (st : State U S) : Prop :=
  ∀ x ∈ xs, ∀ l, ρ x = some l → l < st.store.length ∧ ∀ p ∈ st.promises, p.cell ≠ l

/-- `(force (delay e))` yields what `e` yields in the scope of the form, for every expression that
mentions no other variables than `xs`. -/
def ForcesAll (U S : Type) (ρ : Scope) (xs : List String) : Prop :=
  ∀ (e : Code U S) (st : State U S), (∀ x, Mentions x e → x ∈ xs) → Sealed st →
    Placed ρ ("ph" :: "pair" :: "value" :: xs) st →
    ∀ r, Evals ρ (.delay e force) st r ↔ Forces ρ e st.store.length (st.delay ρ e) r

theorem evals_delay :
    Evals ρ (.delay e k) st r ↔ Evals ρ (k (.promise st.promises.length)) (st.delay ρ e) r := by
  constructor
  · rintro ⟨fuel, h⟩
    cases fuel with
    | zero => cases h
    | succ fuel => exact ⟨fuel, h⟩
  · exact fun ⟨fuel, h⟩ => ⟨fuel + 1, h⟩

/-- An expression that mentions no `value` is forced as it should be. -/
theorem force_delay_of_hidden {xs : List String} (hxs : "value" ∉ xs) (hprims : Primitives ρ) :
    ForcesAll U S ρ xs := by
  intro e st hmentions hs hplaced r
  have hidden : ¬ Mentions "value" e := fun h => hxs (hmentions _ h)
  have hgood : Good ρ (.delay e force) st := by
    refine ⟨fun x l hx => ?_, fun e' he' => ?_, hprims⟩
    · cases hx with
      | delay hx =>
        exact hplaced x (List.mem_cons_of_mem _ (List.mem_cons_of_mem _
          (List.mem_cons_of_mem _ (hmentions x hx)))) l
      | delayRest v hx => cases hx with
        | applyRest w hx => cases hx
    · cases he' with
      | here => exact hidden
      | inside h => exact fun hv => hidden (h.mentions hv)
      | delayRest v h => cases h with
        | applyRest w h => cases h
  obtain ⟨hs₁, -⟩ := hs.delay hgood
  have hnew : (st.delay ρ e).promises[st.promises.length]? =
      some ⟨inner ρ st.store.length, st.store.length, e⟩ := List.getElem?_concat_length
  rw [evals_delay, hs₁.force hnew, Forces, Forces]
  simp only [evals_inner hidden]

/-- The places that a scope gives to some names have a bound. -/
theorem exists_bound (ρ : Scope) (xs : List String) :
    ∃ m, ∀ x ∈ xs, ∀ l, ρ x = some l → l < m := by
  induction xs with
  | nil => exact ⟨0, by simp⟩
  | cons x xs ih =>
    obtain ⟨m, hm⟩ := ih
    refine ⟨max m ((ρ x).getD 0 + 1), fun y hy l hl => ?_⟩
    rcases List.mem_cons.mp hy with rfl | hy
    · rw [hl, Option.getD_some]
      omega
    · have := hm y hy l hl
      omega

/-- A state without promises, with `#n` in every place below `m`. -/
def bare (m : Nat) (s : S) : State U S := ⟨List.replicate m .nil, [], s⟩

theorem bare_sealed (m : Nat) (s : S) : Sealed (bare m s : State U S) := by
  constructor <;> simp [bare]

theorem bare_placed {xs : List String} {m : Nat} (hm : ∀ x ∈ xs, ∀ l, ρ x = some l → l < m)
    (s : S) : Placed ρ xs (bare m s : State U S) := by
  intro x hx l hl
  refine ⟨?_, by simp [bare]⟩
  rw [bare, List.length_replicate]
  exact hm x hx l hl

/-- `#n` is no procedure. -/
theorem not_evals_nil {args : List (Value U)} : ¬ Evals ρ (.apply .nil args k) st r := by
  rintro ⟨fuel, h⟩
  cases fuel <;> cases h

/-- A variable of the scope is `#n` in such a state, also when a promise was made. -/
theorem get_bare {m : Nat} {s : S} (hl : ρ x = some l) (hlt : l < m) :
    ((bare m s : State U S).delay ρ e).get ρ x = .ok .nil := by
  refine get_local hl ?_
  rw [State.delay, List.getElem?_append_left (by rw [bare, List.length_replicate]; exact hlt), bare,
    List.getElem?_replicate, if_pos hlt]

/-- Only with the primitives is a value kept in such a state. -/
theorem keep_bare {m : Nat} {s : S} (hm : ∀ x ∈ ["ph", "pair"], ∀ l, ρ x = some l → l < m)
    (h : Evals (inner ρ m) (keep v) ((bare m s : State U S).delay ρ e) r) : Primitives ρ := by
  have hother : ∀ y, y ≠ "value" → inner ρ m y = ρ y := fun y hy => Function.update_of_ne hy _ _
  have hsame : ∀ y, y ≠ "value" → ∀ st : State U S, st.get (inner ρ m) y = st.get ρ y :=
    fun y hy st => by rw [State.get, hother y hy, State.get]
  have hpair : ρ "pair" = none := by
    cases hl : ρ "pair" with
    | none => rfl
    | some l =>
      obtain ⟨f, hf, h⟩ := evals_get.mp h
      rw [hsame _ (by decide), get_bare hl (hm "pair" (by simp) l hl)] at hf
      cases hf
      exact absurd h not_evals_nil
  refine ⟨?_, hpair⟩
  cases hl : ρ "ph" with
  | none => rfl
  | some l =>
    obtain ⟨f, hf, h⟩ := evals_get.mp h
    rw [hsame _ (by decide), State.get, hpair] at hf
    cases hf
    obtain ⟨w, -, h⟩ := evals_prim.mp h
    obtain ⟨st₁, hst, h⟩ := evals_set.mp h
    obtain ⟨f, hf, h⟩ := evals_get.mp h
    have hlt := hm "ph" (by simp) l hl
    have hkept : st₁.get ρ "ph" = ((bare m s : State U S).delay ρ e).get ρ "ph" := by
      rw [State.set, show inner ρ m "value" = some m from Function.update_self "value" _ ρ] at hst
      dsimp only at hst
      split at hst
      · cases hst
        rw [State.get, State.get, hl]
        dsimp only
        rw [List.getElem?_set_ne (Nat.ne_of_gt hlt)]
      · cases hst
    rw [hsame _ (by decide), hkept, get_bare hl hlt] at hf
    cases hf
    obtain ⟨u, -, h⟩ := evals_get.mp h
    exact absurd h not_evals_nil

theorem length_bare (m : Nat) (s : S) : (bare m s : State U S).store.length = m :=
  List.length_replicate

theorem cell_bare {m : Nat} {s : S} :
    ((bare m s : State U S).delay ρ e).store[m]? = some .false_ := by
  have hlast := List.getElem?_concat_length (l := (bare m s : State U S).store) (a := .false_)
  rwa [length_bare] at hlast

/-- To make a promise in such a state and force it is to run the body. -/
theorem evals_force_bare {m : Nat} {s : S} : Evals ρ (.delay e force) (bare m s) r ↔
    Evals (inner ρ m) (delayBody e) ((bare m s).delay ρ e) r := by
  have hnew : ((bare m s : State U S).delay ρ e).promises[0]? = some ⟨inner ρ m, m, e⟩ := by
    rw [State.delay, length_bare]
    rfl
  rw [evals_delay]
  exact evals_force hnew

/-- Where the scope has a `ph` or `pair` of its own the value may not come back. -/
theorem ForcesAll.primitives {xs : List String} (s : S) (h : ForcesAll U S ρ xs) :
    Primitives ρ := by
  obtain ⟨m, hm⟩ := exists_bound ρ ("ph" :: "pair" :: "value" :: xs)
  have hscope : inner ρ m "value" = some m := Function.update_self "value" _ ρ
  have hforces := (h (.ret .nil) (bare m s) (fun x hx => nomatch hx) (bare_sealed m s)
    (bare_placed hm s) (.nil, ((bare m s).delay ρ (.ret .nil)).fill m .nil)).mpr
  rw [length_bare, evals_force_bare, delayBody, evals_ifValue_false hscope cell_bare] at hforces
  have hev := hforces (.inr ⟨cell_bare, .nil, _, ⟨1, rfl⟩, .inr ⟨cell_bare, rfl⟩⟩)
  obtain ⟨v, st₁, hv, hev⟩ := evals_bind_iff.mp hev
  cases hv.unique ⟨1, rfl⟩
  refine keep_bare (fun x hx => hm x ?_) ((evals_ifValue_false hscope cell_bare).mp hev)
  rcases List.mem_cons.mp hx with rfl | hx
  · exact List.mem_cons_self
  · rw [List.mem_singleton.mp hx]
    exact List.mem_cons_of_mem _ List.mem_cons_self

/-- The template's `value` hides the one of the scope. -/
theorem ForcesAll.hidden {xs : List String} (s : S) (h : ForcesAll U S ρ xs) :
    "value" ∉ xs := by
  intro hmem
  have hprims := h.primitives s
  obtain ⟨m, hm⟩ := exists_bound ρ ("ph" :: "pair" :: "value" :: xs)
  have hother : ∀ y, y ≠ "value" → inner ρ m y = ρ y := fun y hy => Function.update_of_ne hy _ _
  have hinner : Primitives (inner ρ m) :=
    ⟨(hother _ (by decide)).trans hprims.1, (hother _ (by decide)).trans hprims.2⟩
  have hscope : inner ρ m "value" = some m := Function.update_self "value" _ ρ
  -- the variable itself, which is the cell for the body and so `#f`
  have hread : ∀ v st₁, Evals (inner ρ m) (.get "value" .ret)
      ((bare m s : State U S).delay ρ (.get "value" .ret)) (v, st₁) ↔
        (v, st₁) = (.false_, (bare m s).delay ρ (.get "value" .ret)) := fun v st₁ =>
    Evals.iff (evals_get.mpr ⟨_, get_local hscope cell_bare, 1, rfl⟩)
  have hforced : Evals ρ (.delay (.get "value" .ret) force) (bare m s : State U S)
      (.false_, ((bare m s).delay ρ (.get "value" .ret)).fill m .false_) := by
    rw [evals_force_bare, evals_delayBody hinner hscope (.inl cell_bare)]
    · exact .inr ⟨cell_bare, .false_, _, (hread _ _).mpr rfl, .inr ⟨cell_bare, rfl⟩⟩
    · intro v st₁ hv
      cases (hread v st₁).mp hv
      exact .inl cell_bare
  have hmentions : ∀ x, Mentions x (.get "value" .ret : Code U S) → x ∈ xs := by
    intro x hx
    cases hx with
    | get => exact hmem
    | getRest v hx => cases hx
  have hforces := (h _ _ hmentions (bare_sealed m s) (bare_placed hm s) _).mp hforced
  rw [length_bare] at hforces
  rcases hforces with ⟨w, hw, -⟩ | ⟨-, v, st₁, hv, hrest⟩
  · rw [cell_bare] at hw
    cases hw
  · obtain ⟨u, hu, hret⟩ := evals_get.mp hv
    cases hret.unique ⟨1, rfl⟩
    cases hl : ρ "value" with
    | none =>
      rw [State.get, hl] at hu
      cases hu
    | some l =>
      rw [get_bare hl (hm "value" (by simp) l hl)] at hu
      cases hu
      rcases hrest with ⟨w, hw, -⟩ | ⟨-, hr⟩
      · rw [cell_bare] at hw
        cases hw
      · cases hr

/-- A promise of a sealed state is forced to what its expression yields in the scope of its form. -/
theorem Sealed.force_outer {ρ₀ : Scope} (hs : Sealed st)
    (hp : st.promises[n]? = some ⟨inner ρ₀ l, l, e⟩) :
    Evals ρ (Promises.force (.promise n)) st r ↔ Forces ρ₀ e l st r := by
  have hidden : ¬ Mentions "value" e := hs.hidden _ (List.mem_of_getElem? hp)
  rw [hs.force hp, Forces, Forces]
  simp only [evals_inner hidden]

/-- The state after a force is sealed. -/
theorem Sealed.forced (hs : Sealed st)
    (h : Evals ρ (Promises.force (.promise n)) st (v, st')) : Sealed st' ∧ Completed st' n v := by
  obtain ⟨p, hp⟩ := exists_promise h
  -- the scope that a promise is forced in is nothing to it
  have hclosed : Evals (fun _ => none) (Promises.force (.promise n)) st (v, st') :=
    (evals_force hp).mpr ((evals_force hp).mp h)
  have hgood : Good (fun _ => none) (Promises.force (.promise n) : Code U S) st := by
    refine ⟨fun x l _ hl => ?_, fun e he => ?_, ⟨rfl, rfl⟩⟩
    · cases hl
    · cases he with
      | applyRest v he => cases he
  exact ⟨(hclosed.sealed hs hgood).1, hs.completed h⟩

/-- `(force (delay e))` yields what `e` yields in the scope of the form, for all expressions that
mention no other variables than some, if and only if `value` is none of these and the scope has no
`ph` or `pair` of its own.  Of the programs whose delay forms are like that every evaluation
leaves such a state, in which a promise that had its value has it still.  A promise of such a
state is forced to the value that it has, or else to what its expression yields in the scope of
its form, and then it has the value that was returned; one that has a value is forced to it
without a change of the state. -/
theorem force_delay [Inhabited S] (xs : List String) (ρ : Scope) :
    (ForcesAll U S ρ xs ↔ "value" ∉ xs ∧ Primitives ρ) ∧
    (∀ (c : Code U S) st v st', Sealed st → Good ρ c st → Evals ρ c st (v, st') →
      Sealed st' ∧ ∀ n w, Completed st n w → Completed st' n w) ∧
    (∀ (st : State U S) n ρ₀ l e r, Sealed st → st.promises[n]? = some ⟨inner ρ₀ l, l, e⟩ →
      (Evals ρ (force (.promise n)) st r ↔ Forces ρ₀ e l st r)) ∧
    (∀ (st : State U S) n v st', Sealed st → Evals ρ (force (.promise n)) st (v, st') →
      Sealed st' ∧ Completed st' n v) ∧
    ∀ (st : State U S) n w r, Sealed st → Completed st n w →
      (Evals ρ (force (.promise n)) st r ↔ r = (w, st)) := by
  refine ⟨⟨fun h => ⟨h.hidden default, h.primitives default⟩, fun h => ?_⟩, ?_, ?_, ?_, ?_⟩
  · exact force_delay_of_hidden h.1 h.2
  · intro c st v st' hs hg h
    obtain ⟨hs', hgrows⟩ := h.sealed hs hg
    exact ⟨hs', hgrows.completed⟩
  · intro st n ρ₀ l e r hs hp
    exact hs.force_outer hp
  · intro st n v st' hs h
    exact hs.forced h
  · intro st n w r hs hw
    exact hs.force_completed hw

end Code

/-! ## A variable called `value` -/

/-- The scope with a local variable `value`, in the first place of the store. -/
def valueScope : Scope := fun x => if x = "value" then some 0 else none

/-- `value := 1`, and no promises yet. -/
def valueState : State Nat Unit := ⟨[.user 1], [], ()⟩

/-- `(delay value)` is forced to `#f`, where `value` is 1. -/
theorem value_captured : (∃ st, Evals valueScope (.delay (.get "value" .ret) force) valueState
      (.false_, st)) ∧
    (∀ r, Evals valueScope (.get "value" .ret) valueState r ↔ r = (.user 1, valueState)) ∧
    ¬ ForcesAll Nat Unit valueScope ["value"] := by
  refine ⟨⟨_, 20, rfl⟩, fun r => Evals.iff ⟨2, rfl⟩, fun h => ?_⟩
  exact absurd List.mem_cons_self (h.hidden ())

/-! ## A variable called `x` -/

def xScope : Scope := fun y => if y = "x" then some 0 else none

/-- `x := 7`, and no promises yet. -/
def xState : State Nat Unit := ⟨[.user 7], [], ()⟩

/-- The value of `x`, which is 8 afterwards. -/
def getAndSet : Code Nat Unit := .get "x" fun v => .set "x" (.user 8) (.ret v)

theorem getAndSet_mentions {y : String} (h : Mentions y getAndSet) : y = "x" := by
  cases h with
  | get => rfl
  | getRest v h =>
    cases h with
    | set => rfl
    | setRest h => cases h

theorem xState_sealed : Sealed xState := by
  constructor <;> simp [xState]

theorem xState_good : Good xScope (.delay getAndSet .ret) xState := by
  refine ⟨fun y l hy hl => ?_, fun e he hv => ?_, ⟨rfl, rfl⟩⟩
  · have hx : y = "x" := by
      cases hy with
      | delay h => exact getAndSet_mentions h
      | delayRest v h => cases h
    subst hx
    cases hl
    exact ⟨by decide, by simp [xState]⟩
  · cases he with
    | here => exact absurd (getAndSet_mentions hv) (by decide)
    | inside h =>
      cases h with
      | getRest v h =>
        cases h with
        | setRest h => cases h
    | delayRest v h => cases h

/-- A promise of `x` is forced to 7 and makes `x` 8, and is forced to 7 again, with `x` still
8. -/
theorem force_delay_twice :
    ∃ st : State Nat Unit, st.get xScope "x" = .ok (.user 8) ∧
      Evals xScope (.delay getAndSet force) xState (.user 7, st) ∧
      ∀ r, Evals xScope (force (.promise 0)) st r ↔ r = (.user 7, st) := by
  obtain ⟨hall, hruns, -, hforced, hagain⟩ := @force_delay Nat Unit _ ["x"] xScope
  have hmade := (hruns _ _ _ _ xState_sealed xState_good ⟨2, rfl⟩).1
  have hplaced : Placed xScope ["ph", "pair", "value", "x"] xState := by
    intro y _ l hl
    rw [xScope] at hl
    split at hl
    · cases hl
      exact ⟨by decide, by simp [xState]⟩
    · cases hl
  have hmentions : ∀ y, Mentions y getAndSet → y ∈ ["x"] :=
    fun y hy => List.mem_singleton.mpr (getAndSet_mentions hy)
  have hev := (hall.mpr ⟨by decide, rfl, rfl⟩ getAndSet _ hmentions xState_sealed hplaced _).mpr
    (.inr ⟨rfl, _, _, ⟨3, rfl⟩, .inr ⟨rfl, rfl⟩⟩)
  have hdone := hforced _ 0 _ _ hmade (evals_delay.mp hev)
  exact ⟨_, rfl, hev, fun r => hagain _ 0 _ r hdone.1 hdone.2⟩

end Idio.Promises
