/-
  Expander.lean --- the expanders of `let*` and `letrec`.

  An expander is given the form and makes another one of new pairs.  `let*` reverses the bindings
  in place: its result is right, but of the bindings the form that it was given has only the first
  left (`letStar_changes`).  `letrec` reverses its own list of assignments twice, and goes on with
  the pair that was the first of them in between: whatever the number of the variables, it assigns
  the first one (`letrec_run`).
-/
import Idio.Pair
import Idio.Evaluate.Gensym

set_option autoImplicit false

namespace Idio.Expander

open PairHeap Pairs

/-- What is no list and no pair: a symbol, `#<undef>` or another value. -/
inductive Atom (β : Type) where
  | symbol (s : Sym)
  | undefined
  | other (b : β)
  deriving DecidableEq, Repr

variable {β : Type}

abbrev symbol (s : Sym) : Val (Atom β) := .atom (.symbol s)

abbrev undefined : Val (Atom β) := .atom .undefined

/-- `idio_isa_list` -/
def isaList : Val (Atom β) → Bool
  | .nil => true
  | p => p.isPair

/-! ## `let*` -/

/-- The loop of `let*`. -/
def letStarLoop : Nat → Memory (Atom β) → Val (Atom β) → Val (Atom β) →
    Result (Val (Atom β) × Memory (Atom β))
  | 0, _, _, _ => .error .diverges
  | fuel + 1, m, bindings, lets =>
      match bindings with
      | .nil => .ok (lets, m)
      | bindings => do
          let binding ← pairH m bindings
          let (b, m) ← listv m [binding]
          let (lets, m) ← listv m [symbol .let, b, lets]
          let bindings ← pairT m bindings
          letStarLoop fuel m bindings lets

/-- The body of `let*`: one expression, or more with `begin`. -/
def letBody (m : Memory (Atom β)) (e : Val (Atom β)) : Result (Val (Atom β) × Memory (Atom β)) := do
  let t ← pairT m e
  match t with
  | .nil => do
      let e ← pairH m e
      return (e, m)
  | _ => do
      let (b, m) ← listv m [symbol .begin]
      append2 m b e

/-- `let*` from where the bindings are reversed; `e` is `(bindings body)`. -/
def letStarNest (m : Memory (Atom β)) (bindings e : Val (Atom β)) :
    Result (Val (Atom β) × Memory (Atom β)) := do
  let e ← pairT m e
  let (e, m) ← letBody m e
  letStarLoop (m.length + 1) m bindings e

/-- `let*` -/
def letStar (m : Memory (Atom β)) (e : Val (Atom β)) : Result (Val (Atom β) × Memory (Atom β)) :=
  if isaList e then do
    let nargs ← listLength m e
    if nargs < 3 then .error (.staticArity "(let* bindings body)")
    else do
      let e ← pairT m e
      let bindings ← pairH m e
      if bindings.isPair then do
        let (bindings, m) ← nreverse m bindings
        letStarNest m bindings e
      else .error (.evaluationError "parameter type: bindings: pair")
  else .error (.paramType "list")

/-! ## `letrec` -/

/-- The variable and the initialiser of a binding. -/
def letrecBinding (m : Memory (Atom β)) (binding : Val (Atom β)) :
    Result (Val (Atom β) × Val (Atom β)) :=
  match binding with
  | .ref i => do
      let v ← pairH m (.ref i)
      let t ← pairT m (.ref i)
      let value ← (if t.isPair then pairH m t else .ok undefined)
      return (v, value)
  | .atom (.symbol s) => .ok (symbol s, undefined)
  | _ => .error (.evaluationError "parameter type: binding: pair/symbol")

/-- The variables, the symbols for their values and the initialisers. -/
structure Parts (β : Type) where
  vars : Val (Atom β)
  tmps : Val (Atom β)
  vals : Val (Atom β)

/-- The loop of `letrec` that takes the bindings apart. -/
def letrecBindings : Nat → Memory (Atom β) → SymbolTable → Val (Atom β) → Parts β →
    Result (Parts β × Memory (Atom β) × SymbolTable)
  | 0, _, _, _, _ => .error .diverges
  | fuel + 1, m, st, bindings, p =>
      match bindings with
      | .nil => .ok (p, m, st)
      | bindings => do
          let binding ← pairH m bindings
          let (v, value) ← letrecBinding m binding
          let (vars, m) := pair m v p.vars
          let (gs, st) ← gensym st
          let (tmps, m) := pair m (symbol gs) p.tmps
          let (vals, m) := pair m value p.vals
          let bindings ← pairT m bindings
          letrecBindings fuel m st bindings ⟨vars, tmps, vals⟩

/-- What is made of the parts: `(v #<undef>)`, `(t e)` and `(set! v t)` for each. -/
structure Forms (β : Type) where
  ri : Val (Atom β)
  rt : Val (Atom β)
  rs : Val (Atom β)

/-- The loop of `letrec` that makes the forms. -/
def letrecForms : Nat → Memory (Atom β) → Parts β → Forms β → Result (Forms β × Memory (Atom β))
  | 0, _, _, _ => .error .diverges
  | fuel + 1, m, p, f =>
      match p.vars with
      | .nil => .ok (f, m)
      | ns => do
          let n ← pairH m ns
          let t ← pairH m p.tmps
          let v ← pairH m p.vals
          let (i, m) ← listv m [n, undefined]
          let (ri, m) := pair m i f.ri
          let (b, m) ← listv m [t, v]
          let (rt, m) := pair m b f.rt
          let (s, m) ← listv m [symbol (.other "set!"), n, t]
          let (rs, m) := pair m s f.rs
          let ns ← pairT m ns
          let ts ← pairT m p.tmps
          let vs ← pairT m p.vals
          letrecForms fuel m ⟨ns, ts, vs⟩ ⟨ri, rt, rs⟩

/-- `letrec` from where the bindings are apart; `e` is `(body)`. -/
def letrecResult (m : Memory (Atom β)) (p : Parts β) (e : Val (Atom β)) :
    Result (Val (Atom β) × Memory (Atom β)) := do
  let (vars, m) ← nreverse m p.vars
  let (tmps, m) ← nreverse m p.tmps
  let (vals, m) ← nreverse m p.vals
  let (f, m) ← letrecForms (m.length + 1) m ⟨vars, tmps, vals⟩ ⟨.nil, .nil, .nil⟩
  let (ri, m) ← nreverse m f.ri
  let (rt, m) ← nreverse m f.rt
  let (rs, m) ← nreverse m f.rs
  -- `rs` is reversed once more, and is no longer the first pair of its list
  let (again, m) ← nreverse m rs
  let (_, m) ← append2 m again e
  let (b, m) ← listv m [symbol .begin]
  let (body, m) ← append2 m rs e
  let (body, m) ← append2 m b body
  let (letRt, m) ← listv m [symbol .let, rt, body]
  listv m [symbol .let, ri, letRt]

/-- `letrec` -/
def letrec (m : Memory (Atom β)) (st : SymbolTable) (e : Val (Atom β)) :
    Result (Val (Atom β) × Memory (Atom β) × SymbolTable) :=
  if isaList e then do
    let nargs ← listLength m e
    if nargs < 3 then .error (.staticArity "(letrec bindings body)")
    else do
      let e ← pairT m e
      let bindings ← pairH m e
      if bindings.isPair then do
        let (p, m, st) ← letrecBindings (m.length + 1) m st bindings ⟨.nil, .nil, .nil⟩
        let e ← pairT m e
        let (r, m) ← letrecResult m p e
        return (r, m, st)
      else .error (.evaluationError "parameter type: bindings: pair")
  else .error (.paramType "list")

variable {m m' base : Memory (Atom β)} {v w e b : Val (Atom β)} {as cs ds : Cells (Atom β)}
  {bs body : List (Val (Atom β))}

/-! ## What `let*` does -/

/-- A form `(let* bindings body)`; `bs` are the bindings. -/
structure LetStarForm (m : Memory (Atom β)) (e : Val (Atom β)) (bs body : List (Val (Atom β))) :
    Prop where
  form : ∃ k b, ListIs m e (k :: b :: body) ∧ ListIs m b bs
  binds : bs ≠ []
  body : body ≠ []

/-- One `let` around another, the first binding outermost. -/
def nest (bs : List (Val (Atom β))) (e : Shape (Atom β)) : Shape (Atom β) :=
  bs.foldr (fun b lets => .list [.val (symbol .let), .list [.val b], lets]) e

/-- An expression, or `(begin e ...)`. -/
def bodyExpr : List (Val (Atom β)) → Shape (Atom β)
  | [e] => .val e
  | es => .list (.val (symbol .begin) :: es.map .val)

theorem isaList_of_listIs {xs : List (Val (Atom β))} (h : ListIs m e xs) : isaList e = true := by
  obtain ⟨cs, hcs, -⟩ := h
  cases hcs <;> rfl

variable {fuel : Nat}

theorem letStarLoop_spec {lets : Val (Atom β)} {x : Shape (Atom β)} (hb : Chain m b as .nil)
    (hx : Spells m lets x) (hfuel : as.length < fuel) :
    ∃ r m', letStarLoop fuel m b lets = .ok (r, m') ∧ Keeps m m' [] ∧
      Spells m' r (nest (heads as).reverse x) := by
  induction as generalizing m b lets x fuel with
  | nil =>
    cases fuel with
    | zero => exact absurd hfuel (Nat.not_lt_zero _)
    | succ fuel =>
      cases hb
      exact ⟨lets, m, rfl, .refl m _, hx⟩
  | cons a as ih =>
    cases fuel with
    | zero => exact absurd hfuel (Nat.not_lt_zero _)
    | succ fuel =>
      cases hb with
      | @pair i binding t _ _ hget rest =>
        obtain ⟨one, m₁, hone, hk₁, hl₁⟩ := listv_run m [binding]
        obtain ⟨lets', m₂, htwo, hk₂, hl₂⟩ := listv_run m₁ [symbol .let, one, lets]
        have hk := hk₁.trans hk₂
        have hx' : Spells m₂ lets' (.list [.val (symbol .let), .list [.val binding], x]) :=
          ⟨_, hl₂, rfl, (hl₁.grow hk₂).spells, hx.grow hk, trivial⟩
        obtain ⟨r, m', hrun, hk', hr⟩ := ih (rest.grow hk) hx' (Nat.lt_of_succ_lt_succ hfuel)
        refine ⟨r, m', ?_, hk.trans hk', ?_⟩
        · simp only [letStarLoop, pairH_ref hget, hone, htwo, ok_bind,
            pairT_ref (hk i _ List.not_mem_nil hget)]
          exact hrun
        · rw [heads, List.map_cons, List.reverse_cons, nest, List.foldr_append]
          exact hr

variable {a : Nat × Val (Atom β)}

theorem letBody_spec (he : Chain m e (a :: as) .nil) :
    ∃ x m', letBody m e = .ok (x, m') ∧ Keeps m m' [] ∧ Spells m' x (bodyExpr (heads (a :: as))) := by
  obtain ⟨one, m₁, hone, hk₁, hl₁⟩ := listv_run m [symbol .begin]
  obtain ⟨x, m₂, hmore, hk₂, hl₂⟩ := append2_list hl₁ ⟨a :: as, he.grow hk₁, rfl⟩
  cases he with
  | @pair i h t _ _ hget rest =>
  cases rest with
  | done =>
    refine ⟨h, m, ?_, .refl m _, rfl⟩
    simp only [letBody, pairT_ref hget, pairH_ref hget, ok_bind]
    rfl
  | pair hget' rest' =>
    refine ⟨x, m₂, ?_, hk₁.trans hk₂, hl₂.spells⟩
    simp only [letBody, pairT_ref hget, hone, ok_bind]
    exact hmore

theorem letBody_keeps {x : Val (Atom β)} (hrun : letBody m e = .ok (x, m')) : Keeps m m' [] := by
  obtain ⟨t, -, hrun⟩ := bind_eq_ok.mp hrun
  split at hrun
  · obtain ⟨h, -, hrun⟩ := bind_eq_ok.mp hrun
    cases hrun
    exact .refl m _
  · obtain ⟨one, m₁, hone, hk₁, cs, hcs, -⟩ := listv_run m [symbol .begin]
    obtain ⟨x', m₂, ds, hmore, hk₂, -⟩ := append2_spec hcs e
    rw [hone, ok_bind] at hrun
    cases hmore.symm.trans hrun
    exact hk₁.trans hk₂

/-- Behind the reversal of the bindings. -/
theorem letStarNest_spec {c : Nat × Val (Atom β)} (hb : Chain m b as .nil)
    (he : Chain m e (a :: c :: cs) .nil) :
    ∃ r m', letStarNest m b e = .ok (r, m') ∧ Keeps m m' [] ∧
      Spells m' r (nest (heads as).reverse (bodyExpr (heads (c :: cs)))) := by
  cases he with
  | @pair i h t _ _ hget rest =>
    obtain ⟨x, m₁, hbody, hk₁, hx⟩ := letBody_spec rest
    have hb₁ := hb.grow hk₁
    obtain ⟨r, m', hrun, hk', hr⟩ :=
      letStarLoop_spec hb₁ hx (Nat.lt_succ_of_le (hb₁.length_le rfl))
    refine ⟨r, m', ?_, hk₁.trans hk', hr⟩
    simp only [letStarNest, pairT_ref hget, hbody, ok_bind]
    exact hrun

theorem letStarNest_keeps {r : Val (Atom β)} (hb : Chain m b as .nil)
    (hrun : letStarNest m b e = .ok (r, m')) : Keeps m m' [] := by
  obtain ⟨t, -, hrun⟩ := bind_eq_ok.mp hrun
  obtain ⟨⟨x, m₁⟩, hbody, hrun⟩ := bind_eq_ok.mp hrun
  have hk₁ := letBody_keeps hbody
  have hb₁ := hb.grow hk₁
  obtain ⟨r', m₂, hloop, hk₂, -⟩ :=
    letStarLoop_spec hb₁ (x := .val x) rfl (Nat.lt_succ_of_le (hb₁.length_le rfl))
  cases hloop.symm.trans hrun
  exact hk₁.trans hk₂

/-- The form is taken apart, and its bindings are reversed. -/
theorem letStar_run {c : Nat × Val (Atom β)} {k : Val (Atom β)} {i j : Nat}
    (hform : Chain m e ((i, k) :: (j, b) :: c :: cs) .nil) (hb : Chain m b (a :: as) .nil) :
    ∃ t b' m₁, letStar m e = letStarNest m₁ b' t ∧ Chain m t ((j, b) :: c :: cs) .nil ∧
      Chain m₁ b' (a :: as).reverse .nil ∧ Keeps m m₁ (places (a :: as)) ∧
      nreverse m b = .ok (b', m₁) := by
  obtain ⟨b', m₁, hrev, hchain, hkeeps⟩ := nreverse_spec hb
  have hlen := listLength_spec hform
  cases hform with
  | @pair _ _ t _ _ hget rest =>
    refine ⟨t, b', m₁, ?_, rest, hchain, hkeeps, hrev⟩
    have hlong : ¬ ((i, k) :: (j, b) :: c :: cs).length < 3 := by
      simp only [List.length_cons]
      omega
    have hpair : b.isPair = true := hb.isPair (by simp)
    cases rest with
    | pair hget' rest' =>
      simp only [letStar, isaList, Val.isPair_ref, if_true, hlen, ok_bind, if_neg hlong,
        pairT_ref hget, pairH_ref hget', hpair, hrev]

theorem LetStarForm.chains (h : LetStarForm m e bs body) :
    ∃ i k j b a as c cs, Chain m e ((i, k) :: (j, b) :: c :: cs) .nil ∧ Chain m b (a :: as) .nil ∧
      heads (a :: as) = bs ∧ heads (c :: cs) = body := by
  obtain ⟨⟨k, b, ⟨es, hes, hform⟩, as, has, rfl⟩, hbinds, hbody⟩ := h
  obtain ⟨⟨i, k⟩, es, rfl, rfl, hrest⟩ := List.map_eq_cons_iff.mp hform
  obtain ⟨⟨j, b⟩, es, rfl, rfl, rfl⟩ := List.map_eq_cons_iff.mp hrest
  cases as with
  | nil => exact absurd rfl hbinds
  | cons a as =>
    cases es with
    | nil => exact absurd rfl hbody
    | cons c cs => exact ⟨i, k, j, b, a, as, c, cs, hes, has, rfl, rfl⟩

/-- **What is left of the form.**  Of the bindings of the form that is expanded there is the first
only. -/
theorem letStar_changes {r : Val (Atom β)} (h : LetStarForm m e bs body)
    (hrun : letStar m e = .ok (r, m')) (hmany : bs.length ≠ 1) : ¬ Unchanged m m' e := by
  obtain ⟨i, k, j, b, ⟨l, x⟩, as, c, cs, hform, hb, rfl, -⟩ := h.chains
  obtain ⟨t, b', m₁, hexpand, -, hchain, -, -⟩ := letStar_run hform hb
  rw [hexpand] at hrun
  have hkeeps := letStarNest_keeps hchain hrun
  -- the first pair of the bindings is the last one now
  rw [List.reverse_cons] at hchain
  obtain ⟨u, -, hlast⟩ := chain_append.mp hchain
  cases hlast with
  | @pair _ _ u _ _ hnow hend =>
  obtain rfl := hend.eq_of_nil
  cases as with
  | nil => exact absurd rfl hmany
  | cons d as =>
    cases hb with
    | @pair _ _ t _ _ hget rest =>
      have hpair : t.isPair = true := rest.isPair (by simp)
      intro hsame
      have hreach : Reach m e l := hform.reach_head (x := .ref l) (by simp [heads]) (.here l)
      have hstill := hsame l _ hreach hget
      cases (hkeeps l _ List.not_mem_nil hnow).symm.trans hstill
      cases hpair

/-- A single binding stays where it is. -/
theorem letStar_single (h : LetStarForm m e bs body) (hone : bs.length = 1) :
    ∃ r m', letStar m e = .ok (r, m') ∧ Spells m' r (nest bs (bodyExpr body)) ∧
      Keeps m m' [] := by
  obtain ⟨i, k, j, b, a, as, c, cs, hform, hb, rfl, rfl⟩ := h.chains
  obtain rfl : as = [] := by
    rw [heads, List.length_map] at hone
    exact List.eq_nil_of_length_eq_zero (Nat.succ.inj hone)
  obtain ⟨t, b', m₁, hexpand, hrest, hchain, hkeeps, -⟩ := letStar_run hform hb
  have hsame : Keeps m m₁ [] := by
    intro n p _ hget
    by_cases hn : n ∈ places [a]
    · rw [hb.get_eq hchain n hn, hget]
    · exact hkeeps n p hn hget
  obtain ⟨r, m', hrun, hk, hr⟩ := letStarNest_spec hchain (hrest.grow hsame)
  exact ⟨r, m', hexpand.trans hrun, hr, hsame.trans hk⟩

theorem LetStarForm.grow (h : LetStarForm m e bs body) (hk : Keeps m m' []) :
    LetStarForm m' e bs body := by
  obtain ⟨⟨k, b, hform, hbs⟩, hbinds, hbody⟩ := h
  exact ⟨⟨k, b, hform.grow hk, hbs.grow hk⟩, hbinds, hbody⟩

/-- The expansion is right, the form is as it was, and expands to the same again. -/
def LetStarIntact (m : Memory (Atom β)) (e : Val (Atom β)) (bs body : List (Val (Atom β))) : Prop :=
  ∃ r m', letStar m e = .ok (r, m') ∧ Spells m' r (nest bs (bodyExpr body)) ∧ Unchanged m m' e ∧
    ∃ r' m'', letStar m' e = .ok (r', m'') ∧ Spells m'' r' (nest bs (bodyExpr body))

/-- **`let*` leaves a form as it was if there is one binding.** -/
theorem letStar_intact (h : LetStarForm m e bs body) :
    LetStarIntact m e bs body ↔ bs.length = 1 := by
  constructor
  · rintro ⟨r, m', hrun, -, hsame, -⟩
    by_contra hmany
    exact letStar_changes h hrun hmany hsame
  · intro hone
    obtain ⟨r, m', hrun, hr, hk⟩ := letStar_single h hone
    obtain ⟨r', m'', hrun', hr', -⟩ := letStar_single (h.grow hk) hone
    exact ⟨r, m', hrun, hr, hk.unchanged e, r', m'', hrun', hr'⟩

/-- `(let* ((a 1)) a)` and `(let* ((a 1) (b 2)) b)` -/
def letStars : Memory (Atom Nat) :=
  [⟨symbol (.other "let*"), .ref 1⟩, ⟨.ref 3, .ref 2⟩, ⟨symbol (.other "a"), .nil⟩,
    ⟨.ref 4, .nil⟩, ⟨symbol (.other "a"), .ref 5⟩, ⟨.atom (.other 1), .nil⟩,
    ⟨symbol (.other "let*"), .ref 7⟩, ⟨.ref 9, .ref 8⟩, ⟨symbol (.other "b"), .nil⟩,
    ⟨.ref 11, .ref 10⟩, ⟨.ref 13, .nil⟩, ⟨symbol (.other "a"), .ref 12⟩, ⟨.atom (.other 1), .nil⟩,
    ⟨symbol (.other "b"), .ref 14⟩, ⟨.atom (.other 2), .nil⟩]

theorem letStar_intact_one :
    LetStarForm letStars (.ref 0) [.ref 4] [symbol (.other "a")] ∧
      LetStarIntact letStars (.ref 0) [.ref 4] [symbol (.other "a")] := by
  have h : LetStarForm letStars (.ref 0) [.ref 4] [symbol (.other "a")] :=
    ⟨⟨_, _, ⟨[(0, _), (1, _), (2, _)], .pair rfl (.pair rfl (.pair rfl (.done _))), rfl⟩,
      [(3, _)], .pair rfl (.done _), rfl⟩, nofun, nofun⟩
  exact ⟨h, (letStar_intact h).mpr rfl⟩

theorem letStar_two_changed :
    LetStarForm letStars (.ref 6) [.ref 11, .ref 13] [symbol (.other "b")] ∧
      ¬ LetStarIntact letStars (.ref 6) [.ref 11, .ref 13] [symbol (.other "b")] := by
  have h : LetStarForm letStars (.ref 6) [.ref 11, .ref 13] [symbol (.other "b")] :=
    ⟨⟨_, _, ⟨[(6, _), (7, _), (8, _)], .pair rfl (.pair rfl (.pair rfl (.done _))), rfl⟩,
      [(9, _), (10, _)], .pair rfl (.pair rfl (.done _)), rfl⟩, nofun, nofun⟩
  refine ⟨h, ?_⟩
  rintro ⟨r, m', hrun, -, hsame, -⟩
  exact letStar_changes h hrun (by decide) hsame

/-! ## What `letrec` does -/

/-- A binding, its variable and its initialiser. -/
inductive BindingIs (m : Memory (Atom β)) : Val (Atom β) → Val (Atom β) × Val (Atom β) → Prop where
  | symbol (s : Sym) : BindingIs m (symbol s) (symbol s, undefined)
  | alone {i : Nat} {v t : Val (Atom β)} (hget : m[i]? = some ⟨v, t⟩) (ht : t.isPair = false) :
      BindingIs m (.ref i) (v, undefined)
  | pair {i j : Nat} {v x t : Val (Atom β)} (hget : m[i]? = some ⟨v, .ref j⟩)
      (hget' : m[j]? = some ⟨x, t⟩) : BindingIs m (.ref i) (v, x)

theorem letrecBinding_spec {p : Val (Atom β) × Val (Atom β)} (h : BindingIs m b p) :
    letrecBinding m b = .ok p := by
  cases h with
  | symbol s => rfl
  | alone hget ht =>
    simp only [letrecBinding, pairH_ref hget, pairT_ref hget, ok_bind, ht, Bool.false_eq_true,
      if_false]
    rfl
  | pair hget hget' =>
    simp only [letrecBinding, pairH_ref hget, pairT_ref hget, ok_bind, Val.isPair_ref, if_true,
      pairH_ref hget']
    rfl

theorem BindingIs.grow {p : Val (Atom β) × Val (Atom β)} (h : BindingIs m b p)
    (hk : Keeps m m' []) : BindingIs m' b p := by
  cases h with
  | symbol s => exact .symbol s
  | alone hget ht => exact .alone (hk _ _ List.not_mem_nil hget) ht
  | pair hget hget' => exact .pair (hk _ _ List.not_mem_nil hget) (hk _ _ List.not_mem_nil hget')

/-- The private lists of the parts. -/
abbrev Parts.held (p : Parts β) (vs ts xs : Cells (Atom β)) : List (Owned (Atom β)) :=
  [(p.vars, vs), (p.tmps, ts), (p.vals, xs)]

variable {p : Parts β} {ts : Cells (Atom β)}

theorem letrecBindings_spec {st : SymbolTable} {vs xs : Cells (Atom β)}
    {ps : List (Val (Atom β) × Val (Atom β))} (hb : Chain base b as .nil)
    (hps : List.Forall₂ (BindingIs base) (heads as) ps) (h : Private base m (p.held vs ts xs))
    (hid : 0 < st.gensymId) (hfuel : as.length < fuel) :
    (∃ p' m' st' vs' ts' xs', ∃ gs : List Sym, letrecBindings fuel m st b p = .ok (p', m', st') ∧
      Private base m' (p'.held vs' ts' xs') ∧
      heads vs' = (ps.map Prod.fst).reverse ++ heads vs ∧
      heads ts' = gs.map symbol ++ heads ts ∧
      heads xs' = (ps.map Prod.snd).reverse ++ heads xs ∧
      gs.length = ps.length ∧ gs.Nodup ∧ (∀ g ∈ gs, g ∉ st.symbols)) ∨
    (10 ^ 19 ≤ st.reach + ps.length ∧
      ∃ msg, letrecBindings fuel m st b p = .error (.stringError msg)) := by
  induction as generalizing m b st p vs ts xs ps fuel with
  | nil =>
    cases ps with
    | cons q ps => exact absurd hps nofun
    | nil =>
      cases fuel with
      | zero => exact absurd hfuel (Nat.not_lt_zero _)
      | succ fuel =>
        cases hb
        exact .inl ⟨p, m, st, vs, ts, xs, [], rfl, h, rfl, rfl, rfl, rfl, .nil, nofun⟩
  | cons a as ih =>
    cases ps with
    | nil => exact absurd hps nofun
    | cons q ps =>
    cases fuel with
    | zero => exact absurd hfuel (Nat.not_lt_zero _)
    | succ fuel =>
    obtain ⟨hq, hps'⟩ := List.forall₂_cons.mp hps
    cases hb with
    | @pair i binding t _ _ hget rest =>
    have hbinding : letrecBinding m binding = .ok q := letrecBinding_spec (hq.grow h.keeps)
    have hhead := pairH_ref (h.keeps i _ List.not_mem_nil hget)
    rcases gensym_spec hid with ⟨gs, st₁, hgs, hnew, hst₁, hpos, hreach⟩ | ⟨hlt, msg, hgs⟩
    · -- a pair for the variable, one for its symbol and one for its initialiser
      have h₁ := h.pushAt [] q.1
      have h₂ := h₁.pushAt [_] (symbol gs)
      have h₃ := h₂.pushAt [_, _] q.2
      rcases ih rest hps' (p := ⟨_, _, _⟩) h₃ hpos (Nat.lt_of_succ_lt_succ hfuel) with
        ⟨p', m', st', vs', ts', xs', gs', hrun, h', hvs, hts, hxs, hlen, hnodup, hgs'⟩ | ⟨hlt, msg, hrun⟩
      · refine .inl ⟨p', m', st', vs', ts', xs', gs' ++ [gs], ?_, h', ?_, ?_, ?_, ?_, ?_, ?_⟩
        · simp only [letrecBindings, hhead, hbinding, ok_bind, pair, hgs,
            pairT_ref (h₃.keeps i _ List.not_mem_nil hget)]
          exact hrun
        · rw [hvs, heads_cons, List.map_cons, List.reverse_cons, List.append_assoc]
          rfl
        · rw [hts, heads_cons, List.map_append, List.append_assoc]
          rfl
        · simp only [hxs, heads_cons, List.map_cons, List.reverse_cons, List.append_assoc]
          rfl
        · rw [List.length_append, hlen]
          rfl
        · refine hnodup.append (List.nodup_singleton gs) ?_
          rw [List.disjoint_singleton]
          exact fun hmem => hgs' gs hmem (hst₁ ▸ List.mem_cons_self)
        · intro x hx
          rcases List.mem_append.mp hx with hx | hx
          · exact fun hmem => hgs' x hx (hst₁ ▸ List.mem_cons_of_mem gs hmem)
          · rw [List.mem_singleton.mp hx]
            exact hnew
      · refine .inr ⟨by rw [List.length_cons]; omega, msg, ?_⟩
        simp only [letrecBindings, hhead, hbinding, ok_bind, pair, hgs,
          pairT_ref (h₃.keeps i _ List.not_mem_nil hget)]
        exact hrun
    · refine .inr ⟨Nat.le_add_right_of_le hlt, msg, ?_⟩
      simp only [letrecBindings, hhead, hbinding, ok_bind, pair, hgs]
      rfl

/-- Lists of these values are among the private ones. -/
def Elements (es : List (Owned (Atom β))) (vs : List (Val (Atom β)))
    (xs : List (List (Val (Atom β)))) : Prop :=
  List.Forall₂ (fun v x => ∃ cs, (v, cs) ∈ es ∧ heads cs = x) vs xs

variable {vs : List (Val (Atom β))} {es : List (Owned (Atom β))} {xs : List (List (Val (Atom β)))}

theorem Elements.mono {es' : List (Owned (Atom β))} (h : Elements es vs xs) (hsub : es ⊆ es') :
    Elements es' vs xs :=
  h.imp fun _ _ ⟨cs, hmem, hcs⟩ => ⟨cs, hsub hmem, hcs⟩

theorem Elements.spells (h : Elements es vs xs) (hes : ∀ l ∈ es, Chain m l.1 l.2 .nil) :
    SpellAll m vs (xs.map fun x => .list (x.map .val)) := by
  induction h with
  | nil => trivial
  | cons hx _ ih =>
    obtain ⟨cs, hmem, rfl⟩ := hx
    exact ⟨ListIs.spells ⟨cs, hes _ hmem, rfl⟩, ih⟩

/-- The private lists of the forms, and those that are their elements. -/
abbrev Forms.held (f : Forms β) (is ts ss : Cells (Atom β)) (es : List (Owned (Atom β))) :
    List (Owned (Atom β)) :=
  (f.ri, is) :: (f.rt, ts) :: (f.rs, ss) :: es

/-- The forms of one binding. -/
theorem letrecForms_step {f : Forms β} {is ss : Cells (Atom β)}
    (h : Private base m (f.held is ts ss es)) (n t v : Val (Atom β)) :
    ∃ i m₁ b m₂ s m₃ es', listv m [n, undefined] = .ok (i, m₁) ∧
      listv (m₁ ++ [⟨i, f.ri⟩]) [t, v] = .ok (b, m₂) ∧
      listv (m₂ ++ [⟨b, f.rt⟩]) [symbol (.other "set!"), n, t] = .ok (s, m₃) ∧
      Private base (m₃ ++ [⟨s, f.rs⟩])
        (Forms.held ⟨.ref m₁.length, .ref m₂.length, .ref m₃.length⟩ ((m₁.length, i) :: is)
          ((m₂.length, b) :: ts) ((m₃.length, s) :: ss) es') ∧
      es ⊆ es' ∧ Elements es' [i, b, s] [[n, undefined], [t, v], [symbol (.other "set!"), n, t]] := by
  obtain ⟨i, m₁, ci, hi, h₁, hci⟩ := listv_spec h [n, undefined]
  have h₁ := (h₁.behind [_, _, _]).pushAt [] i
  obtain ⟨b, m₂, cb, hb, h₂, hcb⟩ := listv_spec h₁ [t, v]
  have h₂ := (h₂.behind [_, _, _]).pushAt [_] b
  obtain ⟨s, m₃, cs, hs, h₃, hcs⟩ := listv_spec h₂ [symbol (.other "set!"), n, t]
  have h₃ := (h₃.behind [_, _, _]).pushAt [_, _] s
  refine ⟨i, m₁, b, m₂, s, m₃, _, hi, hb, hs, h₃, ?_, ?_⟩
  · exact List.subset_cons_of_subset _ (List.subset_cons_of_subset _ (List.subset_cons_self _ _))
  · refine .cons ⟨ci, ?_, hci⟩ (.cons ⟨cb, ?_, hcb⟩ (.cons ⟨cs, ?_, hcs⟩ .nil))
    · simp
    · simp
    · simp

/-- A variable, the symbol for its value and its initialiser. -/
structure Part (β : Type) where
  var : Val (Atom β)
  tmp : Val (Atom β)
  value : Val (Atom β)

theorem letrecForms_spec {f : Forms β} {is ss : Cells (Atom β)} {xs : List (Part β)}
    {li lt ls : List (List (Val (Atom β)))} (hvars : ListIs base p.vars (xs.map Part.var))
    (htmps : ListIs base p.tmps (xs.map Part.tmp)) (hvals : ListIs base p.vals (xs.map Part.value))
    (h : Private base m (f.held is ts ss es)) (hi : Elements es (heads is) li)
    (ht : Elements es (heads ts) lt) (hs : Elements es (heads ss) ls) (hfuel : xs.length < fuel) :
    ∃ f' m' is' ts' ss' es', letrecForms fuel m p f = .ok (f', m') ∧
      Private base m' (f'.held is' ts' ss' es') ∧
      Elements es' (heads is') ((xs.map fun x => [x.var, undefined]).reverse ++ li) ∧
      Elements es' (heads ts') ((xs.map fun x => [x.tmp, x.value]).reverse ++ lt) ∧
      Elements es' (heads ss')
        ((xs.map fun x => [symbol (.other "set!"), x.var, x.tmp]).reverse ++ ls) := by
  induction xs generalizing m p f is ts ss es li lt ls fuel with
  | nil =>
    cases fuel with
    | zero => exact absurd hfuel (Nat.not_lt_zero _)
    | succ fuel =>
      have hnil : p.vars = .nil := hvars.nil
      exact ⟨f, m, is, ts, ss, es, by rw [letrecForms, hnil], h, hi, ht, hs⟩
  | cons x xs ih =>
    cases fuel with
    | zero => exact absurd hfuel (Nat.not_lt_zero _)
    | succ fuel =>
    obtain ⟨jn, ns, hn, hgetn, hvars⟩ := hvars.cons
    obtain ⟨jt, ts', ht', hgett, htmps⟩ := htmps.cons
    obtain ⟨jv, vs, hv, hgetv, hvals⟩ := hvals.cons
    obtain ⟨i, m₁, b, m₂, s, m₃, es₁, hrun₁, hrun₂, hrun₃, h₁, hsub, hnew⟩ :=
      letrecForms_step h x.var x.tmp x.value
    obtain ⟨hinew, hnew⟩ := List.forall₂_cons.mp hnew
    obtain ⟨hbnew, hnew⟩ := List.forall₂_cons.mp hnew
    obtain ⟨hsnew, -⟩ := List.forall₂_cons.mp hnew
    obtain ⟨f', m', is', ts'', ss', es', hrun, h', hi', ht'', hs'⟩ :=
      ih (p := ⟨_, _, _⟩) hvars htmps hvals h₁ (.cons hinew (hi.mono hsub))
        (.cons hbnew (ht.mono hsub)) (.cons hsnew (hs.mono hsub)) (Nat.lt_of_succ_lt_succ hfuel)
    refine ⟨f', m', is', ts'', ss', es', ?_, h', ?_, ?_, ?_⟩
    · have keep := fun {j c} => h.keeps j c List.not_mem_nil
      have keep' := fun {j c} => h₁.keeps j c List.not_mem_nil
      simp only [letrecForms, hn, ht', hv, pairH_ref (keep hgetn), pairH_ref (keep hgett),
        pairH_ref (keep hgetv), ok_bind, hrun₁, hrun₂, hrun₃, pair, pairT_ref (keep' hgetn),
        pairT_ref (keep' hgett), pairT_ref (keep' hgetv)]
      exact hrun
    · rw [List.map_cons, List.reverse_cons, List.append_assoc]
      exact hi'
    · rw [List.map_cons, List.reverse_cons, List.append_assoc]
      exact ht''
    · rw [List.map_cons, List.reverse_cons, List.append_assoc]
      exact hs'

/-- The result of `letrec` where `sets` are the variables that are assigned. -/
def letrecExpr (xs sets : List (Part β)) (body : List (Val (Atom β))) : Shape (Atom β) :=
  .list [.val (symbol .let), .list (xs.map fun x => .list [.val x.var, .val undefined]),
    .list [.val (symbol .let), .list (xs.map fun x => .list [.val x.tmp, .val x.value]),
      .list (.val (symbol .begin) ::
        ((sets.map fun x => .list [.val (symbol (.other "set!")), .val x.var, .val x.tmp]) ++
          body.map .val))]]

theorem Elements.reverse {cs : Cells (Atom β)} (h : Elements es (heads cs) (xs.reverse ++ [])) :
    Elements es (heads cs.reverse) xs := by
  rw [List.append_nil] at h
  rw [heads_reverse, Elements, ← List.forall₂_reverse_iff, List.reverse_reverse]
  exact h

/-- The expressions around the forms. -/
theorem letrecWrap_spec {ri rt rs : Val (Atom β)} {vi vt : List (Val (Atom β))}
    {xi xt xs : List (Shape (Atom β))} (he : ListIs m e body) (hi : ListIs m ri vi)
    (ht : ListIs m rt vt) (hs : ListIs m rs vs) (hxi : SpellAll m vi xi) (hxt : SpellAll m vt xt)
    (hxs : SpellAll m vs xs) :
    ∃ r m', (do
        let (b, m) ← listv m [symbol .begin]
        let (body, m) ← append2 m rs e
        let (body, m) ← append2 m b body
        let (letRt, m) ← listv m [symbol .let, rt, body]
        listv m [symbol .let, ri, letRt]) = .ok (r, m') ∧ Keeps m m' [] ∧
      Spells m' r (.list [.val (symbol .let), .list xi, .list [.val (symbol .let), .list xt,
        .list (.val (symbol .begin) :: (xs ++ body.map .val))]]) := by
  obtain ⟨b, m₁, hb, hk₁, hlb⟩ := listv_run m [symbol .begin]
  obtain ⟨body₁, m₂, hone, hk₂, hl₂⟩ := append2_list (hs.grow hk₁) (he.grow hk₁)
  obtain ⟨body₂, m₃, htwo, hk₃, hl₃⟩ := append2_list (hlb.grow hk₂) hl₂
  obtain ⟨letRt, m₄, hthree, hk₄, hl₄⟩ := listv_run m₃ [symbol .let, rt, body₂]
  obtain ⟨r, m', hfour, hk₅, hl₅⟩ := listv_run m₄ [symbol .let, ri, letRt]
  have hk₃₅ := hk₄.trans hk₅
  have hk := hk₁.trans (hk₂.trans (hk₃.trans hk₃₅))
  refine ⟨r, m', ?_, hk, ?_⟩
  · simp only [hb, hone, htwo, hthree, ok_bind]
    exact hfour
  · have hbody : Spells m' body₂ (.list (.val (symbol .begin) :: (xs ++ body.map .val))) :=
      ⟨_, hl₃.grow hk₃₅, rfl, (hxs.grow hk).append (spellAll_vals m' body)⟩
    have hinner : Spells m' letRt (.list [.val (symbol .let), .list xt,
        .list (.val (symbol .begin) :: (xs ++ body.map .val))]) :=
      ⟨_, hl₄.grow hk₅, rfl, ⟨vt, ht.grow hk, hxt.grow hk⟩, hbody, trivial⟩
    exact ⟨_, hl₅, rfl, ⟨vi, hi.grow hk, hxi.grow hk⟩, hinner, trivial⟩

/-- Only the first variable is assigned. -/
theorem letrecResult_spec {vs ws : Cells (Atom β)} {x : Part β} {xs : List (Part β)}
    (he : ListIs base e body) (h : Private base m (p.held vs ts ws))
    (hvs : heads vs = ((x :: xs).map Part.var).reverse)
    (hts : heads ts = ((x :: xs).map Part.tmp).reverse)
    (hws : heads ws = ((x :: xs).map Part.value).reverse) :
    ∃ r m', letrecResult m p e = .ok (r, m') ∧ Keeps base m' [] ∧
      Spells m' r (letrecExpr (x :: xs) [x] body) := by
  -- the parts in their order
  obtain ⟨vars, m₁, hrun₁, h₁⟩ := nreverse_private [] h
  obtain ⟨tmps, m₂, hrun₂, h₂⟩ := nreverse_private [_] h₁
  obtain ⟨vals, m₃, hrun₃, h₃⟩ := nreverse_private [_, _] h₂
  have hvars : ListIs m₃ vars ((x :: xs).map Part.var) :=
    ⟨_, h₃.chain (vars, vs.reverse) (by simp), by rw [heads_reverse, hvs, List.reverse_reverse]⟩
  have htmps : ListIs m₃ tmps ((x :: xs).map Part.tmp) :=
    ⟨_, h₃.chain (tmps, ts.reverse) (by simp), by rw [heads_reverse, hts, List.reverse_reverse]⟩
  have hvals : ListIs m₃ vals ((x :: xs).map Part.value) :=
    ⟨_, h₃.chain (vals, ws.reverse) (by simp), by rw [heads_reverse, hws, List.reverse_reverse]⟩
  have hfuel : (x :: xs).length < m₃.length + 1 := by
    obtain ⟨cs, hcs, hheads⟩ := hvars
    have hle := hcs.length_le rfl
    have hlen := congrArg List.length hheads
    rw [heads, List.length_map, List.length_map] at hlen
    omega
  obtain ⟨f, m₄, is, us, ss, es, hrun₄, h₄, hi, ht, hs⟩ :=
    letrecForms_spec (p := ⟨vars, tmps, vals⟩) (f := ⟨.nil, .nil, .nil⟩) hvars htmps hvals
      (Private.start m₃).nil.nil.nil .nil .nil .nil hfuel
  -- the forms in their order, and those that assign back again
  obtain ⟨ri, m₅, hrun₅, h₅⟩ := nreverse_private [] h₄
  obtain ⟨rt, m₆, hrun₆, h₆⟩ := nreverse_private [_] h₅
  obtain ⟨rs, m₇, hrun₇, h₇⟩ := nreverse_private [_, _] h₆
  obtain ⟨again, m₈, hrun₈, h₈⟩ := nreverse_private [_, _] h₇
  have hall : ∀ l ∈ es, Chain m₈ l.1 l.2 .nil := fun l hl => h₈.chain l (by simp [hl])
  have hxi := hi.reverse.spells hall
  have hxt := ht.reverse.spells hall
  have hxs := hs.reverse.spells hall
  rw [List.map_map] at hxi hxt hxs
  have hri : ListIs m₈ ri (heads is.reverse) := ⟨_, h₈.chain (ri, is.reverse) (by simp), rfl⟩
  have hrt : ListIs m₈ rt (heads us.reverse) := ⟨_, h₈.chain (rt, us.reverse) (by simp), rfl⟩
  -- what was the first pair of the list is its last one
  obtain ⟨rest, j, y, hss, hrs, hy⟩ : ∃ rest j y, ss.reverse = (j, y) :: rest ∧ rs = .ref j ∧
      Spells m₈ y (.list [.val (symbol (.other "set!")), .val x.var, .val x.tmp]) := by
    have hchain := h₇.chain (rs, ss.reverse) (by simp)
    cases hss : ss.reverse with
    | nil =>
      rw [hss] at hxs
      exact hxs.elim
    | cons c rest =>
      rw [hss] at hxs hchain
      cases hchain with
      | pair hget hrest => exact ⟨rest, _, _, rfl, rfl, hxs.1⟩
  have hagain := h₈.chain (again, ss.reverse.reverse) (by simp)
  have hfirst : ListIs m₈ rs [y] := by
    rw [hss, List.reverse_cons] at hagain
    obtain ⟨u, -, hlast⟩ := chain_append.mp hagain
    cases hlast with
    | pair hget hend => exact hrs ▸ ⟨[(j, y)], .pair hget hend, rfl⟩
  have hkeep : Keeps base m₈ [] := h₃.keeps.trans h₈.keeps
  obtain ⟨r₉, m₉, hrun₉, hk₉, -⟩ := append2_list ⟨_, hagain, rfl⟩ (he.grow hkeep)
  have hset : SpellAll m₉ [y] [.list [.val (symbol (.other "set!")), .val x.var, .val x.tmp]] :=
    ⟨hy.grow hk₉, trivial⟩
  obtain ⟨r, m', hrun, hk, hr⟩ := letrecWrap_spec (he.grow (hkeep.trans hk₉)) (hri.grow hk₉)
    (hrt.grow hk₉) (hfirst.grow hk₉) (hxi.grow hk₉) (hxt.grow hk₉) hset
  refine ⟨r, m', ?_, hkeep.trans (hk₉.trans hk), hr⟩
  simp only [letrecResult, hrun₁, hrun₂, hrun₃, hrun₄, hrun₅, hrun₆, hrun₇, hrun₈, hrun₉, ok_bind]
  exact hrun

variable {st : SymbolTable} {ps : List (Val (Atom β) × Val (Atom β))}

/-- A form `(letrec bindings body)`; `ps` are the variables and initialisers of the bindings. -/
structure LetrecForm (m : Memory (Atom β)) (e : Val (Atom β))
    (ps : List (Val (Atom β) × Val (Atom β))) (body : List (Val (Atom β))) : Prop where
  form : ∃ k b bs, ListIs m e (k :: b :: body) ∧ ListIs m b bs ∧ List.Forall₂ (BindingIs m) bs ps
  binds : ps ≠ []
  body : body ≠ []

/-- The parts of the bindings where these are the symbols for the values. -/
def parts (ps : List (Val (Atom β) × Val (Atom β))) (gs : List Sym) : List (Part β) :=
  List.zipWith (fun p g => ⟨p.1, symbol g, p.2⟩) ps gs

theorem parts_map {gs : List Sym} (hlen : gs.length = ps.length) :
    (parts ps gs).map Part.var = ps.map Prod.fst ∧ (parts ps gs).map Part.tmp = gs.map symbol ∧
      (parts ps gs).map Part.value = ps.map Prod.snd := by
  induction ps generalizing gs with
  | nil =>
    obtain rfl := List.eq_nil_of_length_eq_zero hlen
    exact ⟨rfl, rfl, rfl⟩
  | cons p ps ih =>
    cases gs with
    | nil => exact absurd hlen nofun
    | cons g gs =>
      obtain ⟨hvar, htmp, hvalue⟩ := ih (Nat.succ.inj hlen)
      exact ⟨congrArg (p.1 :: ·) hvar, congrArg (symbol g :: ·) htmp, congrArg (p.2 :: ·) hvalue⟩

/-- **What `letrec` makes.**  All variables are introduced and all initialisers are evaluated, but
the first variable alone is assigned. -/
theorem letrec_run (h : LetrecForm m e ps body) (hid : 0 < st.gensymId) :
    (∃ r m' st' gs, letrec m st e = .ok (r, m', st') ∧ gs.length = ps.length ∧ gs.Nodup ∧
      (∀ g ∈ gs, g ∉ st.symbols) ∧
      Spells m' r (letrecExpr (parts ps gs) ((parts ps gs).take 1) body)) ∨
    (10 ^ 19 ≤ st.reach + ps.length ∧ ∃ msg, letrec m st e = .error (.stringError msg)) := by
  obtain ⟨⟨k, b, bs, hform, ⟨as, has, hbs⟩, hps⟩, hbinds, hbody⟩ := h
  have hlist := isaList_of_listIs hform
  have hlength := listLength_list hform
  obtain ⟨i, t, rfl, hget, hrest⟩ := hform.cons
  obtain ⟨j, u, rfl, hget', hu⟩ := hrest.cons
  have hlong : ¬ (k :: b :: body).length < 3 := by
    have hpos := List.length_pos_iff.mpr hbody
    simp only [List.length_cons]
    omega
  have hpair : b.isPair = true := by
    cases as with
    | nil =>
      obtain rfl : bs = [] := hbs.symm
      exact absurd (List.forall₂_nil_left_iff.mp hps) hbinds
    | cons a as => exact has.isPair (by simp)
  have hnil : Private m m (Parts.held (β := β) ⟨.nil, .nil, .nil⟩ [] [] []) :=
    (Private.start m).nil.nil.nil
  rcases letrecBindings_spec (p := ⟨.nil, .nil, .nil⟩) has (hbs ▸ hps) hnil hid
      (Nat.lt_succ_of_le (has.length_le rfl)) with
    ⟨p, m₁, st', vs, ts, ws, gs, hrun, h₁, hvs, hts, hws, hlen, hnodup, hnew⟩ | ⟨hlt, msg, hrun⟩
  · have hlen' : gs.reverse.length = ps.length := by rw [List.length_reverse, hlen]
    obtain ⟨hvar, htmp, hvalue⟩ := parts_map hlen'
    cases hxs : parts ps gs.reverse with
    | nil =>
      rw [hxs] at hvar
      exact absurd (List.map_eq_nil_iff.mp hvar.symm) hbinds
    | cons x xs =>
      rw [hxs] at hvar htmp hvalue
      have hvs' : heads vs = ((x :: xs).map Part.var).reverse := by
        rw [hvs, hvar]
        exact List.append_nil _
      have hts' : heads ts = ((x :: xs).map Part.tmp).reverse := by
        rw [hts, htmp, List.map_reverse, List.reverse_reverse]
        exact List.append_nil _
      have hws' : heads ws = ((x :: xs).map Part.value).reverse := by
        rw [hws, hvalue]
        exact List.append_nil _
      obtain ⟨r, m', hresult, -, hr⟩ := letrecResult_spec hu h₁ hvs' hts' hws'
      refine .inl ⟨r, m', st', gs.reverse, ?_, hlen', List.nodup_reverse.mpr hnodup, ?_, ?_⟩
      · simp only [letrec, hlist, if_true, hlength, ok_bind, if_neg hlong, pairT_ref hget,
          pairH_ref hget', hpair, hrun, pairT_ref (h₁.keeps j _ List.not_mem_nil hget'), hresult]
        rfl
      · exact fun g hg => hnew g (List.mem_reverse.mp hg)
      · rw [hxs]
        exact hr
  · refine .inr ⟨hlt, msg, ?_⟩
    simp only [letrec, hlist, if_true, hlength, ok_bind, if_neg hlong, pairT_ref hget,
      pairH_ref hget', hpair, hrun]
    rfl

/-- What the third part of a list of three is. -/
theorem spells_third {e₁ e₂ e₃ f₁ f₂ f₃ : Shape (Atom β)} (h : Spells m v (.list [e₁, e₂, e₃]))
    (h' : Spells m v (.list [f₁, f₂, f₃])) : ∃ w, Spells m w e₃ ∧ Spells m w f₃ := by
  obtain ⟨vs, hes, hfs⟩ := h.parts h'
  match vs, hes, hfs with
  | [_, _, w], ⟨_, _, hw, _⟩, ⟨_, _, hw', _⟩ => exact ⟨w, hw, hw'⟩

/-- As many variables as are assigned. -/
theorem letrecExpr_sets {xs ys sets sets' : List (Part β)} (h : Spells m v (letrecExpr xs sets body))
    (h' : Spells m v (letrecExpr ys sets' body)) : sets.length = sets'.length := by
  obtain ⟨w, hw, hw'⟩ := spells_third h h'
  obtain ⟨u, hu, hu'⟩ := spells_third hw hw'
  obtain ⟨vs, hes, hfs⟩ := hu.parts hu'
  have hlen := hes.length_eq.symm.trans hfs.length_eq
  simpa using hlen

/-- All variables are introduced, the initialisers are the values of new symbols, and these are
assigned to the variables, each in the order of the bindings. -/
def LetrecAssigns (m : Memory (Atom β)) (st : SymbolTable) (e : Val (Atom β))
    (ps : List (Val (Atom β) × Val (Atom β))) (body : List (Val (Atom β))) : Prop :=
  ∃ r m' st' gs, letrec m st e = .ok (r, m', st') ∧ gs.length = ps.length ∧ gs.Nodup ∧
    (∀ g ∈ gs, g ∉ st.symbols) ∧ Spells m' r (letrecExpr (parts ps gs) (parts ps gs) body)

theorem length_parts {gs : List Sym} (hlen : gs.length = ps.length) :
    (parts ps gs).length = ps.length := by
  rw [parts, List.length_zipWith, hlen, Nat.min_self]

/-- There is one binding where all are assigned. -/
theorem letrec_first_only (h : LetrecForm m e ps body) (hid : 0 < st.gensymId)
    (hassigns : LetrecAssigns m st e ps body) : ps.length = 1 := by
  obtain ⟨r, m', st', gs, hrun, hlen, -, -, hr⟩ := hassigns
  rcases letrec_run h hid with ⟨r', m'', st'', gs', hrun', hlen', -, -, hr'⟩ | ⟨-, msg, hrun'⟩
  · cases hrun.symm.trans hrun'
    have hsets := letrecExpr_sets hr hr'
    rw [List.length_take, length_parts hlen, length_parts hlen'] at hsets
    have hpos := List.length_pos_iff.mpr h.binds
    omega
  · exact absurd (hrun.symm.trans hrun') nofun

/-- **`letrec` assigns all variables if there is one.**  The numbers of new symbols have an
end. -/
theorem letrec_assigns (h : LetrecForm m e ps body) (hid : 0 < st.gensymId) :
    (LetrecAssigns m st e ps body ↔ ps.length = 1) ∨
    (10 ^ 19 ≤ st.gensymId + st.symbols.length + ps.length ∧
      ∃ msg, letrec m st e = .error (.stringError msg)) := by
  have hreach : st.reach ≤ st.gensymId + st.symbols.length :=
    Nat.add_le_add_left List.countP_le_length _
  rcases letrec_run h hid with ⟨r, m', st', gs, hrun, hlen, hnodup, hnew, hr⟩ | ⟨hlt, herr⟩
  · refine .inl ⟨letrec_first_only h hid, fun hone => ⟨r, m', st', gs, hrun, hlen, hnodup, hnew, ?_⟩⟩
    rwa [List.take_of_length_le (by rw [length_parts hlen, hone])] at hr
  · exact .inr ⟨by omega, herr⟩

/-- `(letrec ((a 1)) a)` and `(letrec ((a 1) b) a)` -/
def letrecs : Memory (Atom Nat) :=
  [⟨symbol (.other "letrec"), .ref 1⟩, ⟨.ref 3, .ref 2⟩, ⟨symbol (.other "a"), .nil⟩,
    ⟨.ref 4, .nil⟩, ⟨symbol (.other "a"), .ref 5⟩, ⟨.atom (.other 1), .nil⟩,
    ⟨symbol (.other "letrec"), .ref 7⟩, ⟨.ref 8, .ref 2⟩, ⟨.ref 4, .ref 9⟩,
    ⟨symbol (.other "b"), .nil⟩]

theorem letrec_assigns_one :
    LetrecAssigns letrecs ⟨[], 1⟩ (.ref 0) [(symbol (.other "a"), .atom (.other 1))]
      [symbol (.other "a")] := by
  have h : LetrecForm letrecs (.ref 0) [(symbol (.other "a"), .atom (.other 1))]
      [symbol (.other "a")] :=
    ⟨⟨_, _, _, ⟨[(0, _), (1, _), (2, _)], .pair rfl (.pair rfl (.pair rfl (.done _))), rfl⟩,
      ⟨[(3, _)], .pair rfl (.done _), rfl⟩, .cons (.pair rfl rfl) .nil⟩, nofun, nofun⟩
  have hid : 0 < (SymbolTable.mk [] 1).gensymId := by decide
  rcases letrec_assigns h hid with hone | ⟨hlt, -⟩
  · exact hone.mpr rfl
  · exact absurd hlt (by decide)

theorem letrec_second_not_assigned :
    LetrecForm letrecs (.ref 6)
        [(symbol (.other "a"), .atom (.other 1)), (symbol (.other "b"), undefined)]
        [symbol (.other "a")] ∧
      ¬ LetrecAssigns letrecs ⟨[], 1⟩ (.ref 6)
        [(symbol (.other "a"), .atom (.other 1)), (symbol (.other "b"), undefined)]
        [symbol (.other "a")] := by
  have h : LetrecForm letrecs (.ref 6)
      [(symbol (.other "a"), .atom (.other 1)), (symbol (.other "b"), undefined)]
      [symbol (.other "a")] :=
    ⟨⟨_, _, _, ⟨[(6, _), (7, _), (2, _)], .pair rfl (.pair rfl (.pair rfl (.done _))), rfl⟩,
      ⟨[(8, _), (9, _)], .pair rfl (.pair rfl (.done _)), rfl⟩,
      .cons (.pair rfl rfl) (.cons (.symbol _) .nil)⟩, nofun, nofun⟩
  exact ⟨h, fun hassigns => absurd (letrec_first_only h (by decide) hassigns) (by decide)⟩

end Idio.Expander
