/-
  Expand.lean --- the expansion of operators in an expression list.

  `idio_common_operator_expand` goes through the groups of operators, those of the
  highest priority first.  The first element of the list (the head of it apart) that
  is the name of an operator of the group is reduced: the procedure of the operator
  is handed what stands before it and what stands after it, and the list it answers
  with is expanded anew from that group on.

  An operator procedure answers with the operands before, the reduced expression and
  the operands after.  `Reduces` is the order in which that ought to go on: always the
  leftmost operator of the highest priority there is.  A procedure that leaves nothing
  on either side answers with the reduced expression on its own, and the C function
  takes that for the next expression list: an operand of it that is the name of an
  operator is reduced a second time, or for ever.
-/
import Idio.Operators

set_option autoImplicit false

namespace Idio

/-! ## Expressions -/

/-- An expression; `other` is any value but a symbol, `#n` and a pair. -/
inductive Expr (Symbol : Type) where
  | symbol (s : Symbol)
  | nil
  | pair (h t : Expr Symbol)
  | other (v : Nat)
  deriving DecidableEq, Repr

section Expand

variable {Symbol Proc : Type}

/-- The list of some expressions. -/
def Expr.ofList : List (Expr Symbol) → Expr Symbol
  | [] => .nil
  | x :: xs => .pair x (ofList xs)

@[simp] theorem Expr.ofList_nil : ofList ([] : List (Expr Symbol)) = .nil := rfl

@[simp] theorem Expr.ofList_cons (x : Expr Symbol) (xs : List (Expr Symbol)) :
    ofList (x :: xs) = .pair x (ofList xs) := rfl

/-- The functions of the operators: `run` takes the name, what is before it and what is
after it. -/
structure Procedures (Symbol Proc : Type) where
  isFunction : Proc → Bool
  run : Proc → Symbol → Expr Symbol → Expr Symbol → Result (Expr Symbol)

/-- `idio_evaluate_operator`. -/
def Procedures.evaluateOperator (procs : Procedures Symbol Proc) (n : Symbol) (func : Proc)
    (b a : Expr Symbol) : Result (Expr Symbol) :=
  if procs.isFunction func then procs.run func n b a else .error (.paramType "function")

/-- How the inner loop ends. -/
inductive Scanned (Symbol Proc : Type) where
  /-- at the end of the list, with all of it in `b` -/
  | done (b : List (Expr Symbol))
  /-- at an operator -/
  | found (s : Symbol) (opex : Proc) (b : List (Expr Symbol)) (a : Expr Symbol)

variable [DecidableEq Symbol]

/-- The operator that an element is: a pair, such as an escaped operator, is none. -/
def opex (ops : List (Symbol × Proc)) : Expr Symbol → Option (Symbol × Proc)
  | .symbol s => (assq s ops).map fun proc => (s, proc)
  | _ => none

/-- The loop over `a`. -/
def scan (ops : List (Symbol × Proc)) (b : List (Expr Symbol)) :
    Expr Symbol → Result (Scanned Symbol Proc)
  | .nil => .ok (.done b)
  | .pair s a => match opex ops s with
      | some (name, proc) => .ok (.found name proc b a)
      | none => scan ops (b ++ [s]) a
  | _ => .error .undefined

/-- A call of an operator procedure. -/
structure Applied (Symbol Proc : Type) where
  proc : Proc
  name : Symbol
  before : Expr Symbol
  after : Expr Symbol
  deriving DecidableEq

/-- `idio_common_operator_expand`, with the calls it makes; each turn of the loop over
the groups and each call of itself takes one of `fuel`. -/
def commonOperatorExpand (procs : Procedures Symbol Proc) :
    Nat → Expr Symbol → List (Group Symbol Proc) →
      List (Applied Symbol Proc) × Result (Expr Symbol)
  | 0, _, _ => ([], .error .diverges)
  | fuel + 1, .pair h a, g :: og =>
      match scan g.2 [h] a with
      | .error f => ([], .error f)
      | .ok (.done b) => commonOperatorExpand procs fuel (Expr.ofList b) og
      | .ok (.found s proc b a) =>
          match procs.evaluateOperator s proc (Expr.ofList b) a with
          | .error f => ([⟨proc, s, Expr.ofList b, a⟩], .error f)
          | .ok r =>
              -- the whole answer, from the same group on
              let rest := commonOperatorExpand procs fuel r (g :: og)
              (⟨proc, s, Expr.ofList b, a⟩ :: rest.1, rest.2)
  | _ + 1, e, _ => ([], .ok e)

/-- A call made with the table of a kind. -/
def Applied.of (kind : OperatorKind) (c : Applied Symbol Proc) :
    Applied Symbol (OperatorKind × Proc) := ⟨(kind, c.proc), c.name, c.before, c.after⟩

/-- `idio_operator_expand` after the expansion of the infix operators. -/
def thenPostfix (procs : Procedures Symbol Proc) (ts : OperatorTables Symbol Proc) (fuel : Nat)
    (r : List (Applied Symbol Proc) × Result (Expr Symbol)) :
    List (Applied Symbol (OperatorKind × Proc)) × Result (Expr Symbol) :=
  match r.2 with
  | .error f => (r.1.map (Applied.of .infixOperator), .error f)
  | .ok e =>
      let r' := commonOperatorExpand procs fuel e (ts .postfixOperator).groups
      (r.1.map (Applied.of .infixOperator) ++ r'.1.map (Applied.of .postfixOperator), r'.2)

/-- `idio_operator_expand`: the infix operators, then the postfix operators; the
expansion with each table has its own fuel. -/
def operatorExpand (procs : Procedures Symbol Proc) (ts : OperatorTables Symbol Proc)
    (fuel : OperatorKind → Nat) (e : Expr Symbol) :
    List (Applied Symbol (OperatorKind × Proc)) × Result (Expr Symbol) :=
  thenPostfix procs ts (fuel .postfixOperator)
    (commonOperatorExpand procs (fuel .infixOperator) e (ts .infixOperator).groups)

/-! ## The order of the reductions -/

/-- The priorities an element is listed under as an operator; an escaped operator is a
pair, and has none. -/
def Expr.listings (og : List (Group Symbol Proc)) : Expr Symbol → List (Int × Proc)
  | .symbol s => Idio.listings s og
  | _ => []

/-- What an operator procedure makes of its operands. -/
structure Reduction (Symbol : Type) where
  before : List (Expr Symbol)
  expr : Expr Symbol
  after : List (Expr Symbol)

/-- Nothing is left on either side. -/
def Reduction.Alone (ρ : Reduction Symbol) : Prop := ρ.before = [] ∧ ρ.after = []

instance (ρ : Reduction Symbol) : Decidable ρ.Alone :=
  inferInstanceAs (Decidable (ρ.before = [] ∧ ρ.after = []))

/-- The list with the reduced expression in place of what was consumed. -/
def Reduction.elements (ρ : Reduction Symbol) : List (Expr Symbol) :=
  ρ.before ++ ρ.expr :: ρ.after

/-- The value that the procedure returns. -/
def Reduction.answer (ρ : Reduction Symbol) : Expr Symbol :=
  if ρ.Alone then ρ.expr else .ofList ρ.elements

omit [DecidableEq Symbol] in
theorem Reduction.answer_alone {ρ : Reduction Symbol} (h : ρ.Alone) : ρ.answer = ρ.expr := if_pos h

omit [DecidableEq Symbol] in
theorem Reduction.answer_elements {ρ : Reduction Symbol} (h : ¬ ρ.Alone) :
    ρ.answer = .ofList ρ.elements := if_neg h

/-- Operator procedures that reduce: what they leave on the two sides was there before,
and the reduced expression is no operator and, where it is a pair, a list. -/
structure Standard (og : List (Group Symbol Proc)) (procs : Procedures Symbol Proc)
    (reduce : Proc → Symbol → List (Expr Symbol) → List (Expr Symbol) →
      Result (Reduction Symbol)) : Prop where
  isFunction : ∀ p, procs.isFunction p = true
  answers : ∀ p s b a, procs.run p s (.ofList b) (.ofList a) = (reduce p s b a).map Reduction.answer
  before : ∀ p s b a ρ, reduce p s b a = .ok ρ → ρ.before <+: b
  after : ∀ p s b a ρ, reduce p s b a = .ok ρ → ρ.after <:+ a
  expr : ∀ p s b a ρ, reduce p s b a = .ok ρ → ρ.expr.listings og = []
  list : ∀ p s b a ρ, reduce p s b a = .ok ρ → ∀ h t, ρ.expr = .pair h t → ∃ xs, t = .ofList xs

/-- Procedures that reduce to a list. -/
theorem Standard.of_list {og : List (Group Symbol Proc)} {procs : Procedures Symbol Proc}
    {reduce : Proc → Symbol → List (Expr Symbol) → List (Expr Symbol) → Result (Reduction Symbol)}
    (hfunction : ∀ p, procs.isFunction p = true)
    (hanswers : ∀ p s b a,
      procs.run p s (.ofList b) (.ofList a) = (reduce p s b a).map Reduction.answer)
    (hreduce : ∀ p s b a ρ, reduce p s b a = .ok ρ →
      ρ.before <+: b ∧ ρ.after <:+ a ∧ ∃ x xs, ρ.expr = .ofList (x :: xs)) :
    Standard og procs reduce where
  isFunction := hfunction
  answers := hanswers
  before p s b a ρ h := (hreduce p s b a ρ h).1
  after p s b a ρ h := (hreduce p s b a ρ h).2.1
  expr p s b a ρ h := by
    obtain ⟨-, -, x, xs, hx⟩ := hreduce p s b a ρ h
    rw [hx]
    rfl
  list p s b a ρ h u t hu := by
    obtain ⟨-, -, x, xs, hx⟩ := hreduce p s b a ρ h
    rw [hx] at hu
    exact ⟨xs, (Expr.pair.inj hu).2.symm⟩

/-- `s` is the leftmost operator of the highest priority, the head of the list apart,
and has the priority `p` and the procedure `proc`. -/
structure Leftmost (og : List (Group Symbol Proc)) (es b : List (Expr Symbol)) (s : Symbol)
    (p : Int) (proc : Proc) (a : List (Expr Symbol)) : Prop where
  split : es = b ++ .symbol s :: a
  operand : b ≠ []
  listed : (Idio.listings s og).head? = some (p, proc)
  highest : ∀ x ∈ es.tail, ∀ q ∈ x.listings og, q.1 ≤ p
  leftmost : ∀ x ∈ b.tail, ∀ q ∈ x.listings og, q.1 < p

variable (og : List (Group Symbol Proc))
  (reduce : Proc → Symbol → List (Expr Symbol) → List (Expr Symbol) → Result (Reduction Symbol))

/-- The reductions of a list: the calls in order, and the tree they end with. -/
inductive Reduces : List (Expr Symbol) → List (Applied Symbol Proc) → Result (Expr Symbol) → Prop where
  | finished {es : List (Expr Symbol)} (h : ∀ x ∈ es.tail, x.listings og = []) :
      Reduces es [] (.ok (.ofList es))
  | raised {es b a : List (Expr Symbol)} {s : Symbol} {p : Int} {proc : Proc} {f : Fault}
      (h : Leftmost og es b s p proc a) (hr : reduce proc s b a = .error f) :
      Reduces es [⟨proc, s, .ofList b, .ofList a⟩] (.error f)
  | alone {es b a : List (Expr Symbol)} {s : Symbol} {p : Int} {proc : Proc} {ρ : Reduction Symbol}
      (h : Leftmost og es b s p proc a) (hr : reduce proc s b a = .ok ρ) (hρ : ρ.Alone) :
      Reduces es [⟨proc, s, .ofList b, .ofList a⟩] (.ok ρ.expr)
  | next {es b a : List (Expr Symbol)} {s : Symbol} {p : Int} {proc : Proc} {ρ : Reduction Symbol}
      {calls : List (Applied Symbol Proc)} {r : Result (Expr Symbol)}
      (h : Leftmost og es b s p proc a) (hr : reduce proc s b a = .ok ρ) (hρ : ¬ ρ.Alone)
      (hrest : Reduces ρ.elements calls r) :
      Reduces es (⟨proc, s, .ofList b, .ofList a⟩ :: calls) r

/-- The last reduction leaves its expression alone, and that has an operator of the same
or a lower priority among its operands. -/
inductive LeavesOperator : List (Expr Symbol) → Prop where
  | alone {es b a : List (Expr Symbol)} {s : Symbol} {p : Int} {proc : Proc} {ρ : Reduction Symbol}
      {x : Expr Symbol} {xs : List (Expr Symbol)} {q : Int × Proc}
      (h : Leftmost og es b s p proc a) (hr : reduce proc s b a = .ok ρ) (hρ : ρ.Alone)
      (hexpr : ρ.expr = .ofList (x :: xs)) {y : Expr Symbol} (hy : y ∈ xs)
      (hq : q ∈ y.listings og) (hle : q.1 ≤ p) : LeavesOperator es
  | next {es b a : List (Expr Symbol)} {s : Symbol} {p : Int} {proc : Proc} {ρ : Reduction Symbol}
      (h : Leftmost og es b s p proc a) (hr : reduce proc s b a = .ok ρ) (hρ : ¬ ρ.Alone)
      (hrest : LeavesOperator ρ.elements) : LeavesOperator es

/-! ## The loop over a list -/

section Scan

variable {ops : List (Symbol × Proc)} {x : Expr Symbol}

omit [DecidableEq Symbol] in
theorem Expr.ofList_injective {xs ys : List (Expr Symbol)} (h : ofList xs = ofList ys) :
    xs = ys := by
  induction xs generalizing ys with
  | nil =>
    cases ys with
    | nil => rfl
    | cons y ys => cases h
  | cons x xs ih =>
    cases ys with
    | nil => cases h
    | cons y ys =>
      obtain ⟨hxy, hrest⟩ := Expr.pair.inj h
      rw [hxy, ih hrest]

theorem Expr.listings_append (hi lo : List (Group Symbol Proc)) (x : Expr Symbol) :
    x.listings (hi ++ lo) = x.listings hi ++ x.listings lo := by
  cases x with
  | symbol s => exact Idio.listings_append s hi lo
  | _ => rfl

theorem opex_eq_none {g : Group Symbol Proc} : opex g.2 x = none ↔ x.listings [g] = [] := by
  cases x with
  | symbol s => simp [opex, Expr.listings, Idio.listings, assq_eq_head?]
  | _ => exact iff_of_true rfl rfl

theorem scan_ofList (ops : List (Symbol × Proc)) (b a : List (Expr Symbol)) :
    ((∀ x ∈ a, opex ops x = none) ∧ scan ops b (.ofList a) = .ok (.done (b ++ a))) ∨
      ∃ front s proc back, a = front ++ .symbol s :: back ∧ (∀ x ∈ front, opex ops x = none) ∧
        assq s ops = some proc ∧
        scan ops b (.ofList a) = .ok (.found s proc (b ++ front) (.ofList back)) := by
  induction a generalizing b with
  | nil => exact .inl ⟨by simp, by simp [scan]⟩
  | cons x a ih =>
    cases hx : opex ops x with
    | some found =>
      -- only a symbol is found
      cases x with
      | symbol s =>
        cases hs : assq s ops with
        | none => simp [opex, hs] at hx
        | some proc =>
          refine .inr ⟨[], s, proc, a, rfl, by simp, hs, ?_⟩
          simp [scan, opex, hs]
      | _ => cases hx
    | none =>
      have hscan : scan ops b (.ofList (x :: a)) = scan ops (b ++ [x]) (.ofList a) := by
        rw [Expr.ofList_cons, scan, hx]
      rcases ih (b ++ [x]) with ⟨hnone, hdone⟩ | ⟨front, s, proc, back, ha, hfront, hs, hfound⟩
      · refine .inl ⟨List.forall_mem_cons.mpr ⟨hx, hnone⟩, ?_⟩
        rw [hscan, hdone, List.append_assoc, List.singleton_append]
      · refine .inr ⟨x :: front, s, proc, back, by rw [ha]; rfl,
          List.forall_mem_cons.mpr ⟨hx, hfront⟩, hs, ?_⟩
        rw [hscan, hfound, List.append_assoc, List.singleton_append]

end Scan

/-! ## The leftmost operator -/

section Leftmost

variable {og} {es b b' a a' : List (Expr Symbol)} {s s' : Symbol} {p p' : Int} {proc proc' : Proc}

theorem Leftmost.mem_tail (h : Leftmost og es b s p proc a) : .symbol s ∈ es.tail := by
  obtain ⟨x, xs, rfl⟩ := List.exists_cons_of_ne_nil h.operand
  rw [h.split]
  simp

theorem Leftmost.mem_listings (h : Leftmost og es b s p proc a) :
    (p, proc) ∈ (Expr.symbol s).listings og := List.mem_of_head? h.listed

/-- There is one leftmost operator at most. -/
theorem Leftmost.unique (h : Leftmost og es b s p proc a) (h' : Leftmost og es b' s' p' proc' a') :
    b = b' ∧ s = s' ∧ p = p' ∧ proc = proc' ∧ a = a' := by
  have hp : p = p' :=
    Int.le_antisymm (h'.highest _ h.mem_tail _ h.mem_listings)
      (h.highest _ h'.mem_tail _ h'.mem_listings)
  subst hp
  have hsplit := h.split.symm.trans h'.split
  rw [List.append_eq_append_iff] at hsplit
  have within : ∀ {b b' cs : List (Expr Symbol)} {c : Expr Symbol},
      b ≠ [] → b' = b ++ c :: cs → c ∈ b'.tail := by
    intro b b' cs c hb hb'
    obtain ⟨x, xs, rfl⟩ := List.exists_cons_of_ne_nil hb
    rw [hb']
    simp
  rcases hsplit with ⟨cs, hb, ha⟩ | ⟨cs, hb, ha⟩
  · cases cs with
    | nil =>
      obtain ⟨hs, hafter⟩ := List.cons.inj ha
      cases hs
      cases h.listed.symm.trans h'.listed
      exact ⟨by simpa using hb.symm, rfl, rfl, rfl, hafter⟩
    | cons c cs =>
      obtain ⟨hs, -⟩ := List.cons.inj ha
      have hmem : .symbol s ∈ b'.tail := within h.operand (hs ▸ hb)
      exact absurd (h'.leftmost _ hmem _ h.mem_listings) (Int.lt_irrefl p)
  · cases cs with
    | nil =>
      obtain ⟨hs, hafter⟩ := List.cons.inj ha
      cases hs
      cases h.listed.symm.trans h'.listed
      exact ⟨by simpa using hb, rfl, rfl, rfl, hafter.symm⟩
    | cons c cs =>
      obtain ⟨hs, -⟩ := List.cons.inj ha
      have hmem : .symbol s' ∈ b.tail := within h'.operand (hs ▸ hb)
      exact absurd (h.leftmost _ hmem _ h'.mem_listings) (Int.lt_irrefl p)

theorem Leftmost.not_finished (h : Leftmost og es b s p proc a) :
    ¬ ∀ x ∈ es.tail, x.listings og = [] := by
  intro hnone
  have hmem := h.mem_listings
  rw [hnone _ h.mem_tail] at hmem
  cases hmem

variable {reduce} {calls calls' : List (Applied Symbol Proc)} {r r' : Result (Expr Symbol)}

/-- The reductions of a list with a leftmost operator. -/
theorem Reduces.at_leftmost (hred : Reduces og reduce es calls r)
    (h : Leftmost og es b s p proc a) :
    (∃ f, reduce proc s b a = .error f ∧ calls = [⟨proc, s, .ofList b, .ofList a⟩] ∧
        r = .error f) ∨
      (∃ ρ, reduce proc s b a = .ok ρ ∧ ρ.Alone ∧ calls = [⟨proc, s, .ofList b, .ofList a⟩] ∧
        r = .ok ρ.expr) ∨
      ∃ ρ rest, reduce proc s b a = .ok ρ ∧ ¬ ρ.Alone ∧
        calls = ⟨proc, s, .ofList b, .ofList a⟩ :: rest ∧ Reduces og reduce ρ.elements rest r := by
  cases hred with
  | finished hnone => exact absurd hnone h.not_finished
  | raised h' hr =>
    obtain ⟨rfl, rfl, -, rfl, rfl⟩ := h.unique h'
    exact .inl ⟨_, hr, rfl, rfl⟩
  | alone h' hr hρ =>
    obtain ⟨rfl, rfl, -, rfl, rfl⟩ := h.unique h'
    exact .inr (.inl ⟨_, hr, hρ, rfl, rfl⟩)
  | next h' hr hρ hrest =>
    obtain ⟨rfl, rfl, -, rfl, rfl⟩ := h.unique h'
    exact .inr (.inr ⟨_, _, hr, hρ, rfl, hrest⟩)

/-- The order of the reductions is determined. -/
theorem Reduces.unique (h : Reduces og reduce es calls r) (h' : Reduces og reduce es calls' r') :
    calls = calls' ∧ r = r' := by
  induction h generalizing calls' r' with
  | finished hnone =>
    cases h' with
    | finished => exact ⟨rfl, rfl⟩
    | raised h' => exact absurd hnone h'.not_finished
    | alone h' => exact absurd hnone h'.not_finished
    | next h' => exact absurd hnone h'.not_finished
  | raised h hr =>
    rcases h'.at_leftmost h with ⟨f, hr', rfl, rfl⟩ | ⟨ρ, hr', -⟩ | ⟨ρ, rest, hr', -⟩
    all_goals cases hr.symm.trans hr'
    exact ⟨rfl, rfl⟩
  | alone h hr hρ =>
    rcases h'.at_leftmost h with ⟨f, hr', -⟩ | ⟨ρ, hr', -, rfl, rfl⟩ | ⟨ρ, rest, hr', hρ', -⟩
    all_goals cases hr.symm.trans hr'
    · exact ⟨rfl, rfl⟩
    · exact absurd hρ hρ'
  | next h hr hρ hrest ih =>
    rcases h'.at_leftmost h with ⟨f, hr', -⟩ | ⟨ρ, hr', hρ', -⟩ | ⟨ρ, rest, hr', -, rfl, hrest'⟩
    all_goals cases hr.symm.trans hr'
    · exact absurd hρ' hρ
    · obtain ⟨rfl, rfl⟩ := ih hrest'
      exact ⟨rfl, rfl⟩

theorem leavesOperator_iff (h : Leftmost og es b s p proc a) :
    LeavesOperator og reduce es ↔ ∃ ρ, reduce proc s b a = .ok ρ ∧
      (ρ.Alone ∧ (∃ x xs, ρ.expr = .ofList (x :: xs) ∧ ∃ y ∈ xs, ∃ q ∈ y.listings og, q.1 ≤ p) ∨
        ¬ ρ.Alone ∧ LeavesOperator og reduce ρ.elements) := by
  constructor
  · rintro (⟨h', hr, hρ, hexpr, hy, hq, hle⟩ | ⟨h', hr, hρ, hrest⟩)
    · obtain ⟨rfl, rfl, rfl, rfl, rfl⟩ := h.unique h'
      exact ⟨_, hr, .inl ⟨hρ, _, _, hexpr, _, hy, _, hq, hle⟩⟩
    · obtain ⟨rfl, rfl, -, rfl, rfl⟩ := h.unique h'
      exact ⟨_, hr, .inr ⟨hρ, hrest⟩⟩
  · rintro ⟨ρ, hr, ⟨hρ, x, xs, hexpr, y, hy, q, hq, hle⟩ | ⟨hρ, hrest⟩⟩
    · exact .alone h hr hρ hexpr hy hq hle
    · exact .next h hr hρ hrest

theorem leavesOperator_alone_iff {ρ : Reduction Symbol} (h : Leftmost og es b s p proc a)
    (hr : reduce proc s b a = .ok ρ) (hρ : ρ.Alone) :
    LeavesOperator og reduce es ↔ ∃ x xs, ρ.expr = .ofList (x :: xs) ∧
      ∃ y ∈ xs, ∃ q ∈ y.listings og, q.1 ≤ p := by
  simp [leavesOperator_iff h, hr, hρ]

theorem leavesOperator_next_iff {ρ : Reduction Symbol} (h : Leftmost og es b s p proc a)
    (hr : reduce proc s b a = .ok ρ) (hρ : ¬ ρ.Alone) :
    LeavesOperator og reduce es ↔ LeavesOperator og reduce ρ.elements := by
  simp [leavesOperator_iff h, hr, hρ]

theorem not_leavesOperator_error {f : Fault} (h : Leftmost og es b s p proc a)
    (hr : reduce proc s b a = .error f) : ¬ LeavesOperator og reduce es := by
  simp [leavesOperator_iff h, hr]

theorem not_leavesOperator_finished (h : ∀ x ∈ es.tail, x.listings og = []) :
    ¬ LeavesOperator og reduce es := by
  rintro (⟨h', -⟩ | ⟨h', -⟩) <;> exact h'.not_finished h

end Leftmost

/-! ## Priorities -/

section Priorities

variable {hi lo : List (Group Symbol Proc)} {g : Group Symbol Proc} {x : Expr Symbol}
  {q : Int × Proc}

theorem exists_group_of_mem_listings {og : List (Group Symbol Proc)} (h : q ∈ x.listings og) :
    ∃ g ∈ og, g.1 = q.1 := by
  cases x with
  | symbol s =>
    obtain ⟨g, hg, hq⟩ := List.mem_flatMap.mp h
    obtain ⟨proc, -, rfl⟩ := List.mem_map.mp hq
    exact ⟨g, hg, rfl⟩
  | _ => cases h

/-- The priorities in the groups up to `g`, and from `g` on. -/
theorem Descending.listings_lt (hd : Descending (hi ++ g :: lo)) (h : q ∈ x.listings hi) :
    g.1 < q.1 := by
  obtain ⟨c, hc, hq⟩ := exists_group_of_mem_listings h
  have hlt := (List.pairwise_append.mp hd).2.2 c hc g List.mem_cons_self
  rwa [hq] at hlt

theorem Descending.listings_le (hd : Descending (hi ++ g :: lo))
    (h : q ∈ x.listings (g :: lo)) : q.1 ≤ g.1 := by
  obtain ⟨c, hc, hq⟩ := exists_group_of_mem_listings h
  rcases List.mem_cons.mp hc with rfl | hc
  · exact Int.le_of_eq hq.symm
  · have hlt := (List.pairwise_cons.mp (List.pairwise_append.mp hd).2.1).1 c hc
    rw [hq] at hlt
    exact Int.le_of_lt hlt

theorem Descending.listings_lt_of_not_mem (hd : Descending (hi ++ g :: lo))
    (hx : x.listings [g] = []) (h : q ∈ x.listings (g :: lo)) : q.1 < g.1 := by
  have hrest : q ∈ x.listings lo := by
    rwa [show g :: lo = [g] ++ lo from rfl, Expr.listings_append, hx, List.nil_append] at h
  obtain ⟨c, hc, hq⟩ := exists_group_of_mem_listings hrest
  have hlt := (List.pairwise_cons.mp (List.pairwise_append.mp hd).2.1).1 c hc
  rwa [hq] at hlt

/-- The priorities of an operator that are as low as `g`. -/
theorem Descending.exists_le_iff (hd : Descending (hi ++ g :: lo)) :
    (∃ q ∈ x.listings (hi ++ g :: lo), q.1 ≤ g.1) ↔ x.listings (g :: lo) ≠ [] := by
  rw [Expr.listings_append]
  constructor
  · rintro ⟨q, hq, hle⟩ hnil
    rw [hnil, List.append_nil] at hq
    exact absurd (hd.listings_lt hq) (by omega)
  · intro hne
    obtain ⟨q, qs, hq⟩ := List.exists_cons_of_ne_nil hne
    have hmem : q ∈ x.listings (g :: lo) := by
      rw [hq]
      exact List.mem_cons_self
    exact ⟨q, List.mem_append_right _ hmem, hd.listings_le hmem⟩

/-- The operator that the loop finds in the first group with any. -/
theorem leftmost_of_scan {y : Expr Symbol} {front back : List (Expr Symbol)} {s : Symbol}
    {proc : Proc} (hd : Descending (hi ++ g :: lo))
    (hhi : ∀ x ∈ front ++ .symbol s :: back, x.listings hi = [])
    (hfront : ∀ x ∈ front, opex g.2 x = none) (hs : assq s g.2 = some proc) :
    Leftmost (hi ++ g :: lo) (y :: (front ++ .symbol s :: back)) (y :: front) s g.1 proc back where
  split := rfl
  operand := List.cons_ne_nil y front
  listed := by
    have hsymbol : Idio.listings s hi = [] := hhi (.symbol s) (by simp)
    rw [assq_eq_head?] at hs
    rw [Idio.listings_append, hsymbol, List.nil_append, listings_cons]
    simp [List.head?_append, hs]
  highest := by
    intro x hx q hq
    rw [Expr.listings_append, hhi x hx] at hq
    exact hd.listings_le hq
  leftmost := by
    intro x hx q hq
    rw [Expr.listings_append, hhi x (List.mem_append_left _ hx)] at hq
    exact hd.listings_lt_of_not_mem (opex_eq_none.mp (hfront x hx)) hq

end Priorities

/-! ## The expansion -/

section Expansion

variable {og reduce} {procs : Procedures Symbol Proc} {hi lo : List (Group Symbol Proc)}
  {g : Group Symbol Proc} {x : Expr Symbol} {xs b a : List (Expr Symbol)} {s : Symbol}
  {proc : Proc} {fuel : Nat}

theorem expand_done (h : scan g.2 [x] (.ofList xs) = .ok (.done (x :: xs))) :
    commonOperatorExpand procs (fuel + 1) (.ofList (x :: xs)) (g :: lo) =
      commonOperatorExpand procs fuel (.ofList (x :: xs)) lo := by
  rw [Expr.ofList_cons, commonOperatorExpand, h]
  rfl

theorem expand_found (h : scan g.2 [x] (.ofList xs) = .ok (.found s proc b (.ofList a))) :
    commonOperatorExpand procs (fuel + 1) (.ofList (x :: xs)) (g :: lo) =
      match procs.evaluateOperator s proc (.ofList b) (.ofList a) with
      | .error f => ([⟨proc, s, .ofList b, .ofList a⟩], .error f)
      | .ok r =>
          (⟨proc, s, .ofList b, .ofList a⟩ :: (commonOperatorExpand procs fuel r (g :: lo)).1,
            (commonOperatorExpand procs fuel r (g :: lo)).2) := by
  rw [Expr.ofList_cons, commonOperatorExpand, h]

variable (proc) in
theorem Standard.evaluateOperator_eq (h : Standard og procs reduce) :
    procs.evaluateOperator s proc (.ofList b) (.ofList a) =
      (reduce proc s b a).map Reduction.answer := by
  rw [Procedures.evaluateOperator, if_pos (h.isFunction proc), h.answers]

/-- A list comes back with no call made exactly if it has no operator. -/
theorem expand_self_iff (procs : Procedures Symbol Proc) (x : Expr Symbol)
    (xs : List (Expr Symbol)) (lo : List (Group Symbol Proc)) :
    (∃ fuel, commonOperatorExpand procs fuel (.ofList (x :: xs)) lo =
        ([], .ok (.ofList (x :: xs)))) ↔ ∀ y ∈ xs, y.listings lo = [] := by
  induction lo with
  | nil =>
    refine iff_of_true ⟨1, rfl⟩ fun y _ => ?_
    cases y <;> rfl
  | cons g lo ih =>
    have hlist : ∀ y : Expr Symbol, y.listings (g :: lo) = y.listings [g] ++ y.listings lo :=
      fun y => Expr.listings_append [g] lo y
    rcases scan_ofList g.2 [x] xs with ⟨hnone, hdone⟩ | ⟨front, s, proc, back, rfl, -, hs, hfound⟩
    · have hiff : (∀ y ∈ xs, y.listings (g :: lo) = []) ↔ ∀ y ∈ xs, y.listings lo = [] := by
        refine forall₂_congr fun y hy => ?_
        rw [hlist, opex_eq_none.mp (hnone y hy), List.nil_append]
      rw [hiff, ← ih]
      constructor
      · rintro ⟨fuel, hrun⟩
        cases fuel with
        | zero => cases hrun
        | succ fuel => exact ⟨fuel, (expand_done hdone).symm.trans hrun⟩
      · rintro ⟨fuel, hrun⟩
        exact ⟨fuel + 1, (expand_done hdone).trans hrun⟩
    · refine iff_of_false ?_ fun hnone => ?_
      · rintro ⟨fuel, hrun⟩
        cases fuel with
        | zero => cases hrun
        | succ fuel =>
          rw [expand_found hfound] at hrun
          split at hrun <;> cases hrun
      · have hsymbol := hnone (.symbol s) (by simp)
        rw [hlist, List.append_eq_nil_iff, ← opex_eq_none, opex, hs] at hsymbol
        cases hsymbol.1

/-- The same for the expression that a reduction leaves alone. -/
theorem expand_alone_iff (hd : Descending (hi ++ g :: lo))
    (hlist : ∀ h t, x = .pair h t → ∃ xs, t = .ofList xs) :
    (∃ fuel, commonOperatorExpand procs fuel x (g :: lo) = ([], .ok x)) ↔
      ¬ ∃ y ys, x = .ofList (y :: ys) ∧
        ∃ z ∈ ys, ∃ q ∈ z.listings (hi ++ g :: lo), q.1 ≤ g.1 := by
  cases x with
  | pair h t =>
    obtain ⟨xs, rfl⟩ := hlist h t rfl
    rw [← Expr.ofList_cons, expand_self_iff]
    constructor
    · rintro hnone ⟨y, ys, heq, z, hz, hq⟩
      obtain ⟨-, rfl⟩ := List.cons.inj (Expr.ofList_injective heq)
      exact hd.exists_le_iff.mp hq (hnone z hz)
    · intro hnone y hy
      by_contra hne
      exact hnone ⟨h, xs, rfl, y, hy, hd.exists_le_iff.mpr hne⟩
  | _ =>
    refine iff_of_true ⟨1, rfl⟩ ?_
    rintro ⟨y, ys, heq, -⟩
    cases heq

/-- How many elements, the head apart, are operators. -/
def operatorCount (og : List (Group Symbol Proc)) (es : List (Expr Symbol)) : Nat :=
  es.tail.countP fun x => !(x.listings og).isEmpty

omit [DecidableEq Symbol] in
theorem Reduction.tail_sublist {ρ : Reduction Symbol} (hb : ρ.before <+: b) (ha : ρ.after <:+ a) :
    ρ.elements.tail.Sublist (b.tail ++ ρ.expr :: a) := by
  rw [Reduction.elements]
  cases hbefore : ρ.before with
  | nil => exact (ha.sublist.trans (List.sublist_cons_self _ _)).trans (List.sublist_append_right _ _)
  | cons y ys =>
    rw [hbefore] at hb
    obtain ⟨rest, rfl⟩ := hb
    exact (List.sublist_append_left ys rest).append (ha.sublist.cons_cons ρ.expr)

/-- What is left to reduce after a reduction. -/
theorem Standard.elements {ρ : Reduction Symbol} (h : Standard og procs reduce)
    (hr : reduce proc s (x :: b) a = .ok ρ) (hs : (Expr.symbol s).listings og ≠ [])
    (hhi : ∀ y ∈ b ++ .symbol s :: a, y.listings hi = []) (hog : og = hi ++ lo) :
    operatorCount og ρ.elements < operatorCount og (x :: (b ++ .symbol s :: a)) ∧
      ∀ y ∈ ρ.elements.tail, y.listings hi = [] := by
  have hsub := Reduction.tail_sublist (h.before _ _ _ _ _ hr) (h.after _ _ _ _ _ hr)
  have hexpr := h.expr _ _ _ _ _ hr
  constructor
  · have hle := hsub.countP_le (p := fun x => !(x.listings og).isEmpty)
    simp only [operatorCount, List.tail_cons, List.countP_append, List.countP_cons, hexpr] at hle ⊢
    simp only [List.isEmpty_nil, Bool.not_true, Bool.false_eq_true, if_false] at hle
    rw [if_pos (by simpa using hs)]
    omega
  · intro y hy
    have hmem := hsub.subset hy
    simp only [List.tail_cons, List.mem_append, List.mem_cons] at hmem
    rcases hmem with hmem | rfl | hmem
    · exact hhi y (by simp [hmem])
    · rw [hog, Expr.listings_append, List.append_eq_nil_iff] at hexpr
      exact hexpr.1
    · exact hhi y (by simp [hmem])

/-- The expansion from the groups `lo` on, of a list without operators of the groups
`hi` before them. -/
theorem expand_reduces (h : Standard og procs reduce) (hd : Descending og) (n : Nat) :
    ∀ {hi lo : List (Group Symbol Proc)} {es : List (Expr Symbol)}, og = hi ++ lo →
      operatorCount og es + lo.length = n → (∀ x ∈ es.tail, x.listings hi = []) →
      ∃ calls r, Reduces og reduce es calls r ∧
        ((∃ fuel, commonOperatorExpand procs fuel (.ofList es) lo = (calls, r)) ↔
          ¬ LeavesOperator og reduce es) := by
  induction n using Nat.strongRecOn with
  | ind n ih =>
    intro hi lo es hog hn hhi
    cases lo with
    | nil =>
      rw [List.append_nil] at hog
      subst hog
      refine ⟨[], _, .finished hhi, iff_of_true ⟨1, ?_⟩ (not_leavesOperator_finished hhi)⟩
      cases es <;> rfl
    | cons g lo =>
      cases es with
      | nil =>
        refine ⟨[], _, .finished (by simp), iff_of_true ⟨1, rfl⟩ ?_⟩
        exact not_leavesOperator_finished (by simp)
      | cons x xs =>
        subst hog
        rcases scan_ofList g.2 [x] xs with ⟨hnone, hdone⟩ | ⟨b, s, proc, a, rfl, hb, hs, hfound⟩
        · -- no operator of the group: on to the next
          have hhi' : ∀ y ∈ xs, y.listings (hi ++ [g]) = [] := by
            intro y hy
            rw [Expr.listings_append, hhi y hy, opex_eq_none.mp (hnone y hy), List.append_nil]
          have hlt : operatorCount (hi ++ g :: lo) (x :: xs) + lo.length < n := by
            rw [List.length_cons] at hn
            omega
          obtain ⟨calls, r, hreduces, hiff⟩ := ih _ hlt (List.append_cons hi g lo) rfl hhi'
          refine ⟨calls, r, hreduces, Iff.trans ?_ hiff⟩
          constructor
          · rintro ⟨fuel, hrun⟩
            cases fuel with
            | zero => exact ⟨0, hrun⟩
            | succ fuel => exact ⟨fuel, (expand_done hdone).symm.trans hrun⟩
          · rintro ⟨fuel, hrun⟩
            exact ⟨fuel + 1, (expand_done hdone).trans hrun⟩
        · have hleft := leftmost_of_scan (y := x) hd hhi hb hs
          have hcall := h.evaluateOperator_eq (s := s) (b := x :: b) (a := a) proc
          have hstep : ∀ fuel, commonOperatorExpand procs (fuel + 1)
              (.ofList (x :: (b ++ .symbol s :: a))) (g :: lo) = _ := fun fuel => expand_found hfound
          simp only [List.singleton_append, hcall] at hstep
          cases hr : reduce proc s (x :: b) a with
          | error f =>
            refine ⟨_, _, .raised hleft hr, iff_of_true ⟨1, ?_⟩ (not_leavesOperator_error hleft hr)⟩
            rw [hstep, hr]
            rfl
          | ok ρ =>
            simp only [hr, Except.map] at hstep
            have hshift : ∀ calls r, (∃ fuel, commonOperatorExpand procs fuel
                (.ofList (x :: (b ++ .symbol s :: a))) (g :: lo) =
                  (⟨proc, s, .ofList (x :: b), .ofList a⟩ :: calls, r)) ↔
                ∃ fuel, commonOperatorExpand procs fuel ρ.answer (g :: lo) = (calls, r) := by
              intro calls r
              constructor
              · rintro ⟨fuel, hrun⟩
                cases fuel with
                | zero => cases hrun
                | succ fuel =>
                  rw [hstep] at hrun
                  obtain ⟨hcalls, hresult⟩ := Prod.mk.inj hrun
                  exact ⟨fuel, Prod.ext (List.cons.inj hcalls).2 hresult⟩
              · rintro ⟨fuel, hrun⟩
                exact ⟨fuel + 1, by rw [hstep, hrun]⟩
            by_cases hρ : ρ.Alone
            · -- the expression alone is the next list
              refine ⟨_, _, .alone hleft hr hρ, ?_⟩
              rw [leavesOperator_alone_iff hleft hr hρ, hshift, Reduction.answer_alone hρ]
              exact expand_alone_iff hd (h.list _ _ _ _ _ hr)
            · obtain ⟨hcount, hhi'⟩ := h.elements hr
                (List.ne_nil_of_mem hleft.mem_listings) hhi rfl
              obtain ⟨calls, r, hreduces, hiff⟩ := ih _ (by omega) rfl rfl hhi'
              refine ⟨_ :: calls, r, .next hleft hr hρ hreduces, ?_⟩
              rw [leavesOperator_next_iff hleft hr hρ, hshift, Reduction.answer_elements hρ]
              exact hiff

/-- With standard operator procedures and one of the tables of any run, the calls made and
the value are those of the reductions exactly if no expression that is left alone has an
operator among its operands. -/
theorem commonOperatorExpand_reduces (cs : List (OperatorCall Symbol Proc)) (kind : OperatorKind)
    (procs : Procedures Symbol Proc)
    (reduce : Proc → Symbol → List (Expr Symbol) → List (Expr Symbol) → Result (Reduction Symbol))
    (h : Standard (runCalls cs kind).groups procs reduce) (es : List (Expr Symbol)) :
    ∃ calls r, Reduces (runCalls cs kind).groups reduce es calls r ∧
      (∀ calls' r', Reduces (runCalls cs kind).groups reduce es calls' r' →
        calls = calls' ∧ r = r') ∧
      ((∃ fuel, commonOperatorExpand procs fuel (.ofList es) (runCalls cs kind).groups =
          (calls, r)) ↔ ¬ LeavesOperator (runCalls cs kind).groups reduce es) := by
  obtain ⟨calls, r, hreduces, hiff⟩ :=
    expand_reduces h (runCalls_descending cs kind) _ (List.nil_append _).symm rfl fun x _ => by
      cases x <;> rfl
  exact ⟨calls, r, hreduces, fun _ _ h' => hreduces.unique h', hiff⟩

end Expansion

end Expand

/-! ## Lists -/

/-- The list that an expression is. -/
def Expr.toList {Symbol : Type} : Expr Symbol → Option (List (Expr Symbol))
  | .nil => some []
  | .pair h t => (toList t).map (h :: ·)
  | _ => none

@[simp] theorem Expr.toList_ofList {Symbol : Type} (xs : List (Expr Symbol)) :
    (Expr.ofList xs).toList = some xs := by
  induction xs with
  | nil => rfl
  | cons x xs ih => rw [ofList_cons, toList, ih, Option.map_some]

end Idio
