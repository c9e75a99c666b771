/-
  Mbe/Patterns.lean --- matching and expanding the patterns of syntax rules.
-/
import Idio.Basic
import Mathlib.Data.List.Basic

set_option autoImplicit false

namespace Idio.Mbe

/-- An expression: a list of expressions, a symbol, or something else. -/
inductive Sexp where
  | nil
  | symbol (s : String)
  | datum (n : Nat)
  | pair (h t : Sexp)
  deriving DecidableEq

namespace Sexp

/-- `ph` and `pt` of a pair. -/
def parts : Sexp → Option (Sexp × Sexp)
  | .pair h t => some (h, t)
  | _ => none

/-- `null?` or `pair?` -/
def isList : Sexp → Bool
  | .nil | .pair _ _ => true
  | _ => false

/-- A list of expressions in front of another. -/
def ofList (tail : Sexp) : List Sexp → Sexp
  | [] => tail
  | x :: l => .pair x (ofList tail l)

/-- `some`, where the list may end with anything. -/
def any (p : Sexp → Bool) : Sexp → Bool
  | .pair h t => p h || any p t
  | _ => false

/-- The loop of `every`: the end of the list is found by `null?`. -/
def everyLoop (p : Sexp → Result Bool) : Sexp → Result Bool
  | .pair h .nil => p h
  | .pair h t => do if ← p h then everyLoop p t else .ok false
  | _ => .error (.paramType "pair")

/-- `every` -/
def every (p : Sexp → Result Bool) : Sexp → Result Bool
  | .nil => .ok true
  | l => everyLoop p l

/-- `map` of a function of one argument. -/
def map {α : Type} (f : Sexp → Result α) : Sexp → Result (List α)
  | .nil => .ok []
  | .pair h t => do
      let x ← f h
      let l ← map f t
      .ok (x :: l)
  | _ => .error (.paramType "list")

end Sexp

/-- The symbol `...` -/
def dots : Sexp := .symbol "..."

/-- `mbe:position` -/
def position (x : Sexp) : Sexp → Option Nat
  | .pair h t => if h = x then some 0 else (position x t).map (· + 1)
  | _ => none

/-- `without-nth` -/
def withoutNth : Sexp → Nat → Result (Sexp × Sexp)
  | l, 0 => .ok (.nil, l)
  | .pair h t, n + 1 => do
      let r ← withoutNth t n
      .ok (.pair h r.1, r.2)
  | _, _ + 1 => .error (.paramValue "without-nth" "list l" "is too short")

/-- `mbe:split-at-ellipsis` -/
def splitAtEllipsis (e tail : Sexp) : Result (Sexp × Sexp) :=
  match tail with
  | .nil => .ok (e, .nil)
  | .pair x _ =>
      match position x e with
      | some i => withoutNth e i
      | none => .error (.paramValue "mbe:split-at-ellipsis" "expr" "not found")
  | _ => .error (.paramType "pair")

/-- `mbe:matches-pattern?` -/
def matchesPattern (k : List String) : Sexp → Sexp → Result Bool
  | .pair ph (.pair x pt), e =>
      if x = dots then
        if e.isList then do
          let r ← splitAtEllipsis e pt
          if ← r.1.every (matchesPattern k ph) then matchesPattern k pt r.2 else .ok false
        else .ok false
      else
        match e.parts with
        | some (h, t) => do
            if ← matchesPattern k ph h then matchesPattern k (.pair x pt) t else .ok false
        | none => .ok false
  | .pair ph pt, e =>
      match e.parts with
      | some (h, t) => do if ← matchesPattern k ph h then matchesPattern k pt t else .ok false
      | none => .ok false
  | .symbol s, e => if s ∈ k then .ok (decide (e = .symbol s)) else .ok true
  | p, e => .ok (decide (p = e))

/-- `mbe:get-ellipsis-nestings` -/
def getEllipsisNestings (k : List String) : Sexp → List Sexp
  | .pair ph (.pair x pt) =>
      if x = dots then
        Sexp.ofList .nil (getEllipsisNestings k ph) :: getEllipsisNestings k pt
      else getEllipsisNestings k ph ++ getEllipsisNestings k (.pair x pt)
  | .pair ph pt => getEllipsisNestings k ph ++ getEllipsisNestings k pt
  | .symbol s => if s ∈ k then [] else [.symbol s]
  | _ => []

/-- An entry of an environment: a variable with its expression, or nestings with the
environments of the repetitions. -/
inductive Binding where
  | var (name : String) (e : Sexp)
  | nest (nestings : Sexp) (envs : List (List Binding))

/-- `mbe:get-bindings` -/
def getBindings (k : List String) : Sexp → Sexp → Result (List Binding)
  | .pair ph (.pair x pt), e =>
      if x = dots then do
        let r ← splitAtEllipsis e pt
        let envs ← r.1.map (getBindings k ph)
        let rest ← getBindings k pt r.2
        .ok (.nest (Sexp.ofList .nil (getEllipsisNestings k ph)) envs :: rest)
      else
        match e.parts with
        | some (h, t) => do
            let first ← getBindings k ph h
            let rest ← getBindings k (.pair x pt) t
            .ok (first ++ rest)
        | none => .error (.paramType "pair")
  | .pair ph pt, e =>
      match e.parts with
      | some (h, t) => do
          let first ← getBindings k ph h
          let rest ← getBindings k pt t
          .ok (first ++ rest)
      | none => .error (.paramType "pair")
  | .symbol s, e => .ok (if s ∈ k then [] else [.var s e])
  | _, _ => .ok []

mutual

/-- `mbe:contained-in?` -/
def containedIn : Sexp → Sexp → Bool
  | .symbol s, y => decide (y = .symbol s)
  | .pair h t, y =>
      match y with
      | .symbol _ => false
      | y => y.any (containedIn h) || someIn t y
  | _, _ => false

/-- `some` in `mbe:contained-in?`, from an element on. -/
def someIn : Sexp → Sexp → Bool
  | .pair h t, y => y.any (containedIn h) || someIn t y
  | _, _ => false

end

/-- The lists of environments in `r` for the nestings. -/
def subEnvsList (nestings : Sexp) : List Binding → List (List (List Binding))
  | [] => []
  | .var _ _ :: r => subEnvsList nestings r
  | .nest n envs :: r =>
      if containedIn nestings n then envs :: subEnvsList nestings r else subEnvsList nestings r

/-- `mbe:ellipsis-sub-envs`: in its second loop `loop` is not bound to the function. -/
def ellipsisSubEnvs (nestings : Sexp) (r : List Binding) : Result (Option (List (List Binding))) :=
  match subEnvsList nestings r with
  | [] => .ok none
  | [envs] => .ok (some envs)
  | l => if l.any List.isEmpty then .ok (some []) else .error (.variableUnbound "loop" "")

/-- The expression of a variable. -/
def lookup (s : String) : List Binding → Option Sexp
  | [] => none
  | .var name e :: r => if name = s then some e else lookup s r
  | .nest _ _ :: r => lookup s r

/-- `mbe:expand-pattern` -/
def expandPattern (k : List String) : Sexp → List Binding → Result Sexp
  | .pair ph (.pair x pt), r =>
      if x = dots then do
        match ← ellipsisSubEnvs (Sexp.ofList .nil (getEllipsisNestings k ph)) r with
        | none => .error (.paramType "list")
        | some rr =>
            let l ← rr.mapM fun r1 => expandPattern k ph (r1 ++ r)
            let tail ← expandPattern k pt r
            .ok (Sexp.ofList tail l)
      else do
        let h ← expandPattern k ph r
        let t ← expandPattern k (.pair x pt) r
        .ok (.pair h t)
  | .pair ph pt, r => do
      let h ← expandPattern k ph r
      let t ← expandPattern k pt r
      .ok (.pair h t)
  | .symbol s, r =>
      if s ∈ k then .ok (.symbol s) else .ok ((lookup s r).getD (.symbol s))
  | p, _ => .ok p

/-- The loop of `%find-syntax-clause`, as far as the clause it picks out; `none` stands for the
condition that there is no matching clause. -/
def findSyntaxClause (k : List String) (macroForm : Sexp) :
    List (Sexp × Sexp) → Result (Option (Sexp × Sexp))
  | [] => .ok none
  | clause :: clauses => do
      if ← matchesPattern k clause.1 macroForm then .ok (some clause)
      else findSyntaxClause k macroForm clauses

/-! ## The two kinds of pairs in a pattern -/

/-- The pattern does not begin with `...`. -/
def Plain (pt : Sexp) : Prop := ∀ t, pt ≠ .pair dots t

theorem pattern_induction {P : Sexp → Prop} (nil : P .nil) (symbol : ∀ s, P (.symbol s))
    (datum : ∀ n, P (.datum n)) (ellipsis : ∀ ph pt, P ph → P pt → P (.pair ph (.pair dots pt)))
    (pair : ∀ ph pt, Plain pt → P ph → P pt → P (.pair ph pt)) (p : Sexp) : P p := by
  have hboth : P p ∧ ∀ x t, p = .pair x t → P t := by
    induction p with
    | nil => exact ⟨nil, nofun⟩
    | symbol s => exact ⟨symbol s, nofun⟩
    | datum n => exact ⟨datum n, nofun⟩
    | pair h t ihh iht =>
      refine ⟨?_, fun x t' heq => by cases heq; exact iht.1⟩
      by_cases hdots : ∃ t', t = .pair dots t'
      · obtain ⟨t', rfl⟩ := hdots
        exact ellipsis h t' ihh.1 (iht.2 dots t' rfl)
      · exact pair h t (fun t' heq => hdots ⟨t', heq⟩) ihh.1 iht.1
  exact hboth.1

theorem Plain.ne {x pt : Sexp} (h : Plain (.pair x pt)) : x ≠ dots := fun hx => h pt (by rw [hx])

section Equations

variable {k : List String} {ph pt e : Sexp} {r : List Binding}

theorem matchesPattern_pair (h : Plain pt) : matchesPattern k (.pair ph pt) e =
    match e.parts with
    | some (h, t) => do if ← matchesPattern k ph h then matchesPattern k pt t else .ok false
    | none => .ok false := by
  cases pt with
  | pair x pt => rw [matchesPattern, if_neg h.ne]
  | nil => rw [matchesPattern]; exact nofun
  | symbol s => rw [matchesPattern]; exact nofun
  | datum n => rw [matchesPattern]; exact nofun

theorem getEllipsisNestings_pair (h : Plain pt) : getEllipsisNestings k (.pair ph pt) =
    getEllipsisNestings k ph ++ getEllipsisNestings k pt := by
  cases pt with
  | pair x pt => rw [getEllipsisNestings, if_neg h.ne]
  | nil => rw [getEllipsisNestings]; exact nofun
  | symbol s => rw [getEllipsisNestings]; exact nofun
  | datum n => rw [getEllipsisNestings]; exact nofun

theorem getBindings_pair (h : Plain pt) : getBindings k (.pair ph pt) e =
    match e.parts with
    | some (h, t) => do
        let first ← getBindings k ph h
        let rest ← getBindings k pt t
        .ok (first ++ rest)
    | none => .error (.paramType "pair") := by
  cases pt with
  | pair x pt => rw [getBindings, if_neg h.ne]
  | nil => rw [getBindings]; exact nofun
  | symbol s => rw [getBindings]; exact nofun
  | datum n => rw [getBindings]; exact nofun

theorem expandPattern_pair (h : Plain pt) : expandPattern k (.pair ph pt) r = (do
    let h ← expandPattern k ph r
    let t ← expandPattern k pt r
    .ok (.pair h t)) := by
  cases pt with
  | pair x pt => rw [expandPattern, if_neg h.ne]
  | nil => rw [expandPattern]; exact nofun
  | symbol s => rw [expandPattern]; exact nofun
  | datum n => rw [expandPattern]; exact nofun

end Equations

end Idio.Mbe
