/-
  StandardOperators.lean --- the infix operators of the bootstrap.

  standard-operators.idio has three procedures for the arithmetic operators, the logical
  operators and `.`; the other operators are copies.  Each cuts the last element off what is
  before the operator, takes its operands from what is after it, and answers with the one
  application in their place.  What an operator reduces is read off the list it is in:
  `Takes` says which elements are its operands, and `Missing` that there are too few.

  `before` and `after` are parts of an expression list, and so lists themselves.
-/
import Idio.Expand
import Mathlib.Data.List.Basic
import Mathlib.Data.List.TakeWhile

set_option autoImplicit false

namespace Idio

/-- The procedures of the bootstrap for infix operators. -/
inductive BootstrapOperator where
  /-- of `+`, `-`, `*`, `/`, `lt`, `le`, `eq`, `ne`, `ge` and `gt` -/
  | plus
  /-- of `and`, `or` and `C/|` -/
  | and
  /-- of `.` -/
  | dot
  deriving DecidableEq, Repr

namespace StandardOperators

/-! ## The procedures -/

/-- `loop` on what is before: the list without its last pair, which is cut off, and that pair. -/
def cutLast : List (Expr String) → Result (List (Expr String) × List (Expr String))
  | [] => .error (.paramType "pair")
  | [x] => .ok ([x], [x])
  | [x, y] => .ok ([x], [y])
  | x :: rest => do
      let (front, last) ← cutLast rest
      .ok (x :: front, last)

/-- `prefix` and `before`. -/
def splitBefore (before : List (Expr String)) : Result (List (Expr String) × List (Expr String)) :=
  match before with
  | [] => .error (.paramType "pair")
  | [x] => .ok ([], [x])
  | before => cutLast before

/-- `suffix` and `after`. -/
def splitAfter (after : List (Expr String)) : List (Expr String) × List (Expr String) :=
  match after with
  | x :: y :: rest => (y :: rest, [x])
  | after => ([], after)

/-- `ph` -/
def ph : List (Expr String) → Result (Expr String)
  | [] => .error (.paramType "pair")
  | x :: _ => .ok x

/-- `result` -/
def assemble (front : List (Expr String)) (opArgs : Expr String) (suffix : List (Expr String)) :
    Expr String :=
  if front = [] then
    if suffix = [] then opArgs else .ofList ([opArgs] ++ suffix)
  else if suffix = [] then .ofList (front ++ [opArgs]) else .ofList ((front ++ [opArgs]) ++ suffix)

/-- The procedure of `+`. -/
def plusOperator (op : String) (before after : List (Expr String)) : Result (Expr String) := do
  let (front, before) ← splitBefore before
  let (suffix, after) := splitAfter after
  let left ← ph before
  let right ← ph after
  .ok (assemble front (.ofList [.symbol ("binary-" ++ op), left, right]) suffix)

/-- `split` of `and`: an operand that is not followed by another `op` is left in `after`. -/
def splitAnd (op : String) (opArgs : List (Expr String)) :
    List (Expr String) → Result (List (Expr String) × List (Expr String))
  | [] => .error (.paramValue "operator-and" op "not enough args after")
  | [x] => .ok ((x :: opArgs).reverse, [])
  | x :: y :: rest =>
      if y = .symbol op then splitAnd op (x :: opArgs) rest
      else .ok (opArgs.reverse, x :: y :: rest)

/-- The procedure of `and`. -/
def andOperator (op : String) (before after : List (Expr String)) : Result (Expr String) := do
  let (front, before) ← splitBefore before
  let (opArgs, after) ← splitAnd op before after
  let (suffix, after) := splitAfter after
  let opArgs := .symbol op :: opArgs
  .ok (assemble front (.ofList (if after = [] then opArgs else opArgs ++ after)) suffix)

/-- `split` of `.`. -/
def splitDot (op : String) (indices : List (Expr String)) :
    List (Expr String) → Result (List (Expr String) × List (Expr String))
  | [] => .error (.paramTypeMsg "not enough args after")
  | [x] => .ok ((x :: indices).reverse, [])
  | x :: y :: rest =>
      if y = .symbol op then splitDot op (x :: indices) rest
      else .ok ((x :: indices).reverse, y :: rest)

/-- The expression that one index of `.` makes of the one before. -/
def valueIndex (e index : Expr String) : Expr String :=
  .ofList [.symbol "value-index", e, index]

/-- The procedure of `.`. -/
def dotOperator (op : String) (before after : List (Expr String)) : Result (Expr String) := do
  let (front, before) ← splitBefore before
  let (indices, after) ← splitDot op [] after
  let left ← ph before
  .ok (assemble front (indices.foldl valueIndex left) after)

/-- The call of an operator procedure. -/
def runOperator : BootstrapOperator → String → List (Expr String) → List (Expr String) →
    Result (Expr String)
  | .plus => plusOperator
  | .and => andOperator
  | .dot => dotOperator

/-- The procedures as the expander calls them. -/
def bootstrapProcedures : Procedures String BootstrapOperator where
  isFunction _ := true
  run k op before after :=
    match before.toList, after.toList with
    | some b, some a => runOperator k op b a
    | _, _ => .error (.paramType "pair")

/-! ## What an operator takes -/

/-- The elements `xs` after the operator are its operands, and `rest` is left. -/
def Takes (k : BootstrapOperator) (op : String) (after xs rest : List (Expr String)) : Prop :=
  match k with
  | .plus => ∃ x, xs = [x] ∧ after = x :: rest
  | .and | .dot =>
      xs ≠ [] ∧ after = xs.intersperse (.symbol op) ++ rest ∧ rest.head? ≠ some (.symbol op)

/-- There is no operand where one is due. -/
def Missing (k : BootstrapOperator) (op : String) (after : List (Expr String)) : Prop :=
  match k with
  | .plus => after = []
  | .and | .dot => ∃ xs : List (Expr String), after = xs.flatMap fun x => [x, .symbol op]

/-- The condition of a missing operand. -/
def missing (op : String) : BootstrapOperator → Fault
  | .plus => .paramType "pair"
  | .and => .paramValue "operator-and" op "not enough args after"
  | .dot => .paramTypeMsg "not enough args after"

/-- The application that takes the place of the operator and its operands. -/
def application (k : BootstrapOperator) (op : String) (left : Expr String)
    (xs : List (Expr String)) : Expr String :=
  match k with
  | .plus => .ofList (.symbol ("binary-" ++ op) :: left :: xs)
  | .and => .ofList (.symbol op :: left :: xs)
  | .dot => xs.foldl valueIndex left

/-! ## The parts -/

section Parts

variable {op : String} {front xs rest after : List (Expr String)} {x : Expr String}

theorem cutLast_append (hfront : front ≠ []) : cutLast (front ++ [x]) = .ok (front, [x]) := by
  induction front with
  | nil => exact absurd rfl hfront
  | cons y front ih =>
    cases front with
    | nil => rfl
    | cons z front =>
      have hrest := ih (List.cons_ne_nil z front)
      cases front with
      | nil => rfl
      | cons w front =>
        change (cutLast (z :: w :: front ++ [x]) >>= fun r => .ok (y :: r.1, r.2)) = _
        rw [hrest]
        rfl

theorem splitBefore_append (front : List (Expr String)) (x : Expr String) :
    splitBefore (front ++ [x]) = .ok (front, [x]) := by
  cases front with
  | nil => rfl
  | cons y front =>
    cases front with
    | nil => rfl
    | cons z front => exact cutLast_append (List.cons_ne_nil y (z :: front))

theorem assemble_eq (front : List (Expr String)) (e : Expr String) (suffix : List (Expr String)) :
    assemble front e suffix = Reduction.answer ⟨front, e, suffix⟩ := by
  rw [assemble, Reduction.answer]
  by_cases hfront : front = []
  · by_cases hsuffix : suffix = []
    · rw [if_pos hfront, if_pos hsuffix, if_pos ⟨hfront, hsuffix⟩]
    · have halone : ¬ Reduction.Alone ⟨front, e, suffix⟩ := fun h => hsuffix h.2
      rw [if_pos hfront, if_neg hsuffix, if_neg halone, hfront]
      rfl
  · have halone : ¬ Reduction.Alone ⟨front, e, suffix⟩ := fun h => hfront h.1
    rw [if_neg hfront, if_neg halone, Reduction.elements]
    by_cases hsuffix : suffix = []
    · rw [if_pos hsuffix, hsuffix]
    · rw [if_neg hsuffix, List.append_assoc, List.singleton_append]

/-- What follows an operator of a chain: it ends after an operand or after an operator. -/
theorem chain_cases (op : String) (after : List (Expr String)) :
    (∃ xs rest, Takes .and op after xs rest) ∨ Missing .and op after := by
  induction after using List.twoStepInduction with
  | nil => exact .inr ⟨[], rfl⟩
  | singleton x => exact .inl ⟨[x], [], by simp, by simp, by simp⟩
  | cons_cons x y rest ih _ =>
    by_cases hy : y = .symbol op
    · subst hy
      rcases ih with ⟨xs, rest', hne, rfl, hrest⟩ | ⟨xs, rfl⟩
      · obtain ⟨z, zs, rfl⟩ := List.exists_cons_of_ne_nil hne
        exact .inl ⟨x :: z :: zs, rest', by simp, by simp [List.intersperse], hrest⟩
      · exact .inr ⟨x :: xs, by simp⟩
    · exact .inl ⟨[x], y :: rest, by simp, by simp, by simpa using hy⟩

/-- `split` of `and` on a chain; the last operand is left in `after` where more follows. -/
theorem splitAnd_chain (args : List (Expr String)) (hxs : xs ≠ [])
    (hrest : rest.head? ≠ some (.symbol op)) :
    splitAnd op args (xs.intersperse (.symbol op) ++ rest) =
      .ok (if rest = [] then (args.reverse ++ xs, [])
        else (args.reverse ++ xs.dropLast, xs.getLast hxs :: rest)) := by
  induction xs generalizing args with
  | nil => exact absurd rfl hxs
  | cons x xs ih =>
    cases xs with
    | nil =>
      cases rest with
      | nil => simp [splitAnd]
      | cons y rest =>
        have hy : y ≠ .symbol op := by simpa using hrest
        simp [splitAnd, hy]
    | cons z zs =>
      have hstep : splitAnd op args ((x :: z :: zs).intersperse (.symbol op) ++ rest) =
          splitAnd op (x :: args) ((z :: zs).intersperse (.symbol op) ++ rest) := by
        rw [List.intersperse_cons_cons, List.cons_append, List.cons_append, splitAnd, if_pos rfl]
      rw [hstep, ih (x :: args) (List.cons_ne_nil z zs)]
      by_cases hnil : rest = []
      · simp [hnil]
      · simp [hnil]

theorem splitAnd_missing (args xs : List (Expr String)) :
    splitAnd op args (xs.flatMap fun x => [x, .symbol op]) = .error (missing op .and) := by
  induction xs generalizing args with
  | nil => rfl
  | cons x xs ih =>
    rw [List.flatMap_cons, List.cons_append, List.singleton_append, splitAnd, if_pos rfl, ih]

theorem splitDot_chain (args : List (Expr String)) (hxs : xs ≠ [])
    (hrest : rest.head? ≠ some (.symbol op)) :
    splitDot op args (xs.intersperse (.symbol op) ++ rest) = .ok (args.reverse ++ xs, rest) := by
  induction xs generalizing args with
  | nil => exact absurd rfl hxs
  | cons x xs ih =>
    cases xs with
    | nil =>
      cases rest with
      | nil => simp [splitDot]
      | cons y rest =>
        have hy : y ≠ .symbol op := by simpa using hrest
        simp [splitDot, hy]
    | cons z zs =>
      rw [List.intersperse_cons_cons, List.cons_append, List.cons_append, splitDot, if_pos rfl,
        ih (x :: args) (List.cons_ne_nil z zs)]
      simp

theorem splitDot_missing (args xs : List (Expr String)) :
    splitDot op args (xs.flatMap fun x => [x, .symbol op]) = .error (missing op .dot) := by
  induction xs generalizing args with
  | nil => rfl
  | cons x xs ih =>
    rw [List.flatMap_cons, List.cons_append, List.singleton_append, splitDot, if_pos rfl, ih]

end Parts

/-! ## The procedures reduce -/

section Reduce

variable {k : BootstrapOperator} {op : String} {after xs rest : List (Expr String)}

theorem takes_or_missing (k : BootstrapOperator) (op : String) (after : List (Expr String)) :
    (∃ xs rest, Takes k op after xs rest) ∨ Missing k op after := by
  cases k with
  | plus =>
    cases after with
    | nil => exact .inr rfl
    | cons x rest => exact .inl ⟨[x], rest, x, rfl, rfl⟩
  | and => exact chain_cases op after
  | dot => exact chain_cases op after

/-- An operator with its operands is answered with the application in their place. -/
theorem runOperator_takes (front : List (Expr String)) (left : Expr String)
    (h : Takes k op after xs rest) :
    runOperator k op (front ++ [left]) after =
      .ok (Reduction.answer ⟨front, application k op left xs, rest⟩) := by
  cases k with
  | plus =>
    obtain ⟨x, rfl, rfl⟩ := h
    rw [runOperator, plusOperator, splitBefore_append, ok_bind, ← assemble_eq]
    cases rest <;> rfl
  | and =>
    obtain ⟨hxs, rfl, hrest⟩ := h
    rw [runOperator, andOperator, splitBefore_append, ok_bind, ← assemble_eq]
    dsimp only
    rw [splitAnd_chain _ hxs hrest, ok_bind]
    by_cases hnil : rest = []
    · rw [if_pos hnil, hnil]
      rfl
    · obtain ⟨y, rest, rfl⟩ := List.exists_cons_of_ne_nil hnil
      rw [if_neg hnil]
      simp only [splitAfter, List.cons_ne_nil, if_false, application]
      rw [List.cons_append, List.reverse_singleton, List.append_assoc,
        List.dropLast_concat_getLast, List.singleton_append]
  | dot =>
    obtain ⟨hxs, rfl, hrest⟩ := h
    rw [runOperator, dotOperator, splitBefore_append, ok_bind, ← assemble_eq]
    dsimp only
    rw [splitDot_chain _ hxs hrest]
    rfl

/-- An operator without one raises the condition. -/
theorem runOperator_missing (front : List (Expr String)) (left : Expr String)
    (h : Missing k op after) :
    runOperator k op (front ++ [left]) after = .error (missing op k) := by
  cases k with
  | plus =>
    cases (h : after = [])
    rw [runOperator, plusOperator, splitBefore_append]
    rfl
  | and =>
    obtain ⟨xs, rfl⟩ := h
    rw [runOperator, andOperator, splitBefore_append, ok_bind]
    dsimp only
    rw [splitAnd_missing]
    rfl
  | dot =>
    obtain ⟨xs, rfl⟩ := h
    rw [runOperator, dotOperator, splitBefore_append, ok_bind]
    dsimp only
    rw [splitDot_missing]
    rfl

end Reduce

/-! ## Reductions -/

/-- The operands of an operator, and what is left. -/
def operands (k : BootstrapOperator) (op : String) :
    List (Expr String) → Option (List (Expr String) × List (Expr String))
  | [] => none
  | [x] => some ([x], [])
  | x :: y :: rest =>
      if k ≠ .plus ∧ y = .symbol op then (operands k op rest).map fun r => (x :: r.1, r.2)
      else some ([x], y :: rest)

/-- What an operator makes of its list. -/
def reduceBootstrap (k : BootstrapOperator) (op : String) (before after : List (Expr String)) :
    Result (Reduction String) :=
  match before.getLast?, operands k op after with
  | none, _ => .error (.paramType "pair")
  | some _, none => .error (missing op k)
  | some left, some (xs, rest) => .ok ⟨before.dropLast, application k op left xs, rest⟩

section Reductions

variable {k : BootstrapOperator} {op : String} {after xs rest : List (Expr String)}

theorem operands_takes (h : Takes k op after xs rest) : operands k op after = some (xs, rest) := by
  cases hk : decide (k = .plus) with
  | true =>
    obtain rfl := of_decide_eq_true hk
    obtain ⟨x, rfl, rfl⟩ := h
    cases rest with
    | nil => rfl
    | cons y rest => rw [operands, if_neg fun h => h.1 rfl]
  | false =>
    have hk := of_decide_eq_false hk
    have hchain : xs ≠ [] ∧ after = xs.intersperse (.symbol op) ++ rest ∧
        rest.head? ≠ some (.symbol op) := by
      cases k with
      | plus => exact absurd rfl hk
      | and => exact h
      | dot => exact h
    obtain ⟨hxs, rfl, hrest⟩ := hchain
    clear h
    induction xs with
    | nil => exact absurd rfl hxs
    | cons x xs ih =>
      cases xs with
      | nil =>
        cases rest with
        | nil => rfl
        | cons y rest =>
          have hy : y ≠ .symbol op := by simpa using hrest
          simp [operands, hy]
      | cons z zs =>
        rw [List.intersperse_cons_cons, List.cons_append, List.cons_append, operands,
          if_pos ⟨hk, rfl⟩, ih (List.cons_ne_nil z zs)]
        rfl

theorem operands_missing (h : Missing k op after) : operands k op after = none := by
  have hchain : ∀ xs : List (Expr String), k ≠ .plus →
      operands k op (xs.flatMap fun x => [x, .symbol op]) = none := by
    intro xs hk
    induction xs with
    | nil => rfl
    | cons x xs ih =>
      rw [List.flatMap_cons, List.cons_append, List.singleton_append, operands, if_pos ⟨hk, rfl⟩, ih]
      rfl
  cases k with
  | plus =>
    cases (h : after = [])
    rfl
  | and =>
    obtain ⟨xs, rfl⟩ := h
    exact hchain xs (by decide)
  | dot =>
    obtain ⟨xs, rfl⟩ := h
    exact hchain xs (by decide)

theorem takes_of_operands (h : operands k op after = some (xs, rest)) : Takes k op after xs rest := by
  rcases takes_or_missing k op after with ⟨xs', rest', htakes⟩ | hmissing
  · rw [operands_takes htakes] at h
    cases h
    exact htakes
  · rw [operands_missing hmissing] at h
    cases h

theorem reduceBootstrap_append (front : List (Expr String)) (left : Expr String)
    (h : Takes k op after xs rest) :
    reduceBootstrap k op (front ++ [left]) after =
      .ok ⟨front, application k op left xs, rest⟩ := by
  rw [reduceBootstrap, List.getLast?_concat, operands_takes h, List.dropLast_concat]

/-- What is left is the end of what was there. -/
theorem Takes.suffix (h : Takes k op after xs rest) : xs ≠ [] ∧ rest <:+ after := by
  cases k with
  | plus =>
    obtain ⟨x, rfl, rfl⟩ := h
    exact ⟨List.cons_ne_nil x [], List.suffix_cons x rest⟩
  | and =>
    obtain ⟨hxs, rfl, -⟩ := h
    exact ⟨hxs, List.suffix_append _ rest⟩
  | dot =>
    obtain ⟨hxs, rfl, -⟩ := h
    exact ⟨hxs, List.suffix_append _ rest⟩

/-- An application is a list, and where its operands are no operators it has none behind its
head. -/
theorem application_list (k : BootstrapOperator) (op : String) (left : Expr String)
    (hxs : xs ≠ []) (P : Expr String → Prop) (hpair : ∀ h t, P (.pair h t)) (hleft : P left)
    (hall : ∀ x ∈ xs, P x) :
    ∃ y ys, application k op left xs = .ofList (y :: ys) ∧ ∀ z ∈ ys, P z := by
  have hargs : ∀ z ∈ left :: xs, P z := List.forall_mem_cons.mpr ⟨hleft, hall⟩
  cases k with
  | plus => exact ⟨_, _, rfl, hargs⟩
  | and => exact ⟨_, _, rfl, hargs⟩
  | dot =>
    rw [application]
    clear hargs
    induction xs generalizing left with
    | nil => exact absurd rfl hxs
    | cons x xs ih =>
      obtain ⟨hx, hall⟩ := List.forall_mem_cons.mp hall
      by_cases hnil : xs = []
      · rw [hnil]
        exact ⟨_, _, rfl, by simp [hleft, hx]⟩
      · exact ih (valueIndex left x) hnil (hpair _ _) hall

theorem reduceBootstrap_list {b a : List (Expr String)} {ρ : Reduction String}
    (h : reduceBootstrap k op b a = .ok ρ) :
    ρ.before <+: b ∧ ρ.after <:+ a ∧ ∃ y ys, ρ.expr = .ofList (y :: ys) := by
  rw [reduceBootstrap] at h
  split at h
  · cases h
  · cases h
  · rename_i left xs rest _ hoperands
    cases h
    obtain ⟨hxs, hrest⟩ := (takes_of_operands hoperands).suffix
    obtain ⟨y, ys, heq, -⟩ := application_list k op left hxs (fun _ => True) (fun _ _ => trivial)
      trivial fun _ _ => trivial
    exact ⟨List.dropLast_prefix b, hrest, y, ys, heq⟩

theorem bootstrapProcedures_run (k : BootstrapOperator) (op : String) (b a : List (Expr String)) :
    bootstrapProcedures.run k op (.ofList b) (.ofList a) =
      (reduceBootstrap k op b a).map Reduction.answer := by
  change (match (Expr.ofList b).toList, (Expr.ofList a).toList with
    | some b, some a => runOperator k op b a
    | _, _ => _) = _
  rw [Expr.toList_ofList, Expr.toList_ofList]
  dsimp only
  rcases List.eq_nil_or_concat b with rfl | ⟨front, left, rfl⟩
  · cases k <;> rfl
  · rcases takes_or_missing k op a with ⟨xs, rest, htakes⟩ | hmissing
    · rw [List.concat_eq_append, runOperator_takes front left htakes,
        reduceBootstrap_append front left htakes]
      rfl
    · rw [List.concat_eq_append, runOperator_missing front left hmissing, reduceBootstrap,
        List.getLast?_concat, operands_missing hmissing]
      rfl

/-- The procedures of the bootstrap reduce. -/
theorem bootstrap_standard (og : List (Group String BootstrapOperator)) :
    Standard og bootstrapProcedures reduceBootstrap :=
  .of_list (fun _ => rfl) bootstrapProcedures_run fun _ _ _ _ _ h => reduceBootstrap_list h

end Reductions

/-! ## Chains -/

/-- An operator and the operand that follows it. -/
structure Link where
  op : String
  kind : BootstrapOperator
  operand : Expr String

/-- The elements that the links stand for. -/
def spell (ls : List Link) : List (Expr String) :=
  ls.flatMap fun l => [.symbol l.op, l.operand]

theorem spell_append (ls ms : List Link) : spell (ls ++ ms) = spell ls ++ spell ms :=
  List.flatMap_append

/-- The links after `l` whose operands `l` takes as well: those of the same operator. -/
def Link.taken (l : Link) (ls : List Link) : List Link :=
  if l.kind = .plus then [] else ls.takeWhile fun m => m.op = l.op

/-- The others. -/
def Link.left (l : Link) (ls : List Link) : List Link :=
  if l.kind = .plus then ls else ls.dropWhile fun m => m.op = l.op

theorem Link.taken_append_left (l : Link) (ls : List Link) : l.taken ls ++ l.left ls = ls := by
  rw [taken, left]
  split
  · rfl
  · exact List.takeWhile_append_dropWhile

theorem Link.left_length (l : Link) (ls : List Link) : (l.left ls).length ≤ ls.length := by
  have h := congrArg List.length (l.taken_append_left ls)
  rw [List.length_append] at h
  omega

/-- The operators of a chain applied from the left. -/
def leftNested (x : Expr String) : List Link → Expr String
  | [] => x
  | l :: ls =>
      leftNested (application l.kind l.op x (l.operand :: (l.taken ls).map Link.operand)) (l.left ls)
termination_by ls => ls.length
decreasing_by
  have h := l.left_length ls
  simp only [List.length_cons]
  omega

section Chains

variable {og : List (Group String BootstrapOperator)} {p : Int} {l : Link} {ls : List Link}
  {x : Expr String}

/-- The operators of the links are listed once, with the same priority, and their operands are no
operators. -/
structure Chain (og : List (Group String BootstrapOperator)) (p : Int) (ls : List Link) : Prop where
  listed : ∀ l ∈ ls, Idio.listings l.op og = [(p, l.kind)]
  operand : ∀ l ∈ ls, l.operand.listings og = []

/-- What follows the first operator of a chain. -/
theorem Link.takes (l : Link) (ls : List Link) :
    Takes l.kind l.op (l.operand :: spell ls) (l.operand :: (l.taken ls).map Link.operand)
      (spell (l.left ls)) := by
  have hrun : ∀ (ms : List Link) (e : Expr String), (∀ m ∈ ms, m.op = l.op) →
      e :: spell ms = (e :: ms.map Link.operand).intersperse (.symbol l.op) := by
    intro ms
    induction ms with
    | nil => exact fun e _ => rfl
    | cons m ms ih =>
      intro e hops
      obtain ⟨hm, hops⟩ := List.forall_mem_cons.mp hops
      rw [List.map_cons, List.intersperse_cons_cons, ← ih m.operand hops, ← hm]
      rfl
  have hchain : l.kind ≠ .plus →
      l.operand :: (l.taken ls).map Link.operand ≠ [] ∧
        l.operand :: spell ls =
          (l.operand :: (l.taken ls).map Link.operand).intersperse (.symbol l.op) ++
            spell (l.left ls) ∧ (spell (l.left ls)).head? ≠ some (.symbol l.op) := by
    intro hk
    refine ⟨List.cons_ne_nil _ _, ?_, ?_⟩
    · have hops : ∀ m ∈ l.taken ls, m.op = l.op := by
        intro m hm
        rw [taken, if_neg hk] at hm
        simpa using List.mem_takeWhile_imp hm
      rw [← hrun _ _ hops, List.cons_append, ← spell_append, l.taken_append_left]
    · rw [left, if_neg hk]
      cases hleft : ls.dropWhile fun m => m.op = l.op with
      | nil => exact nofun
      | cons m ms =>
        have hm : ¬ m.op = l.op := by
          have := List.head?_dropWhile_not (fun m : Link => decide (m.op = l.op)) ls
          simpa [hleft] using this
        exact fun h => hm (by simpa [spell] using h)
  cases hkind : l.kind with
  | plus => exact ⟨l.operand, by simp [taken, hkind], by simp [left, hkind]⟩
  | and => exact hchain (by rw [hkind]; decide)
  | dot => exact hchain (by rw [hkind]; decide)

/-- The first operator of a chain is its leftmost. -/
theorem Chain.leftmost (h : Chain og p (l :: ls)) (x : Expr String) :
    Leftmost og (x :: spell (l :: ls)) [x] l.op p l.kind (l.operand :: spell ls) where
  split := rfl
  operand := List.cons_ne_nil x []
  listed := congrArg List.head? (h.listed l List.mem_cons_self)
  highest := by
    intro y hy q hq
    rw [List.tail_cons, spell, List.mem_flatMap] at hy
    obtain ⟨m, hm, hy⟩ := hy
    rw [List.mem_cons, List.mem_singleton] at hy
    rcases hy with rfl | rfl
    · have hq : q ∈ Idio.listings m.op og := hq
      rw [h.listed m hm, List.mem_singleton] at hq
      exact Int.le_of_eq (congrArg Prod.fst hq)
    · rw [h.operand m hm] at hq
      cases hq
  leftmost := by simp

theorem Chain.left (h : Chain og p (l :: ls)) : Chain og p (l.left ls) := by
  have hmem : ∀ m ∈ l.left ls, m ∈ l :: ls := by
    intro m hm
    rw [← l.taken_append_left ls]
    exact List.mem_cons_of_mem _ (List.mem_append_right _ hm)
  exact ⟨fun m hm => h.listed m (hmem m hm), fun m hm => h.operand m (hmem m hm)⟩

/-- A chain is reduced from the left, and no operator is left over. -/
theorem Chain.reduces {n : Nat} (hn : ls.length ≤ n) (h : Chain og p (l :: ls))
    (hx : x.listings og = []) :
    (∃ calls, Reduces og reduceBootstrap (x :: spell (l :: ls)) calls
        (.ok (leftNested x (l :: ls)))) ∧
      ¬ LeavesOperator og reduceBootstrap (x :: spell (l :: ls)) := by
  induction n using Nat.strongRecOn generalizing x l ls with
  | ind n ih =>
    have hleft := h.leftmost x
    have hred : reduceBootstrap l.kind l.op [x] (l.operand :: spell ls) =
        .ok ⟨[], application l.kind l.op x (l.operand :: (l.taken ls).map Link.operand),
          spell (l.left ls)⟩ := reduceBootstrap_append [] x (l.takes ls)
    have hoperands : ∀ y ∈ l.operand :: (l.taken ls).map Link.operand, y.listings og = [] := by
      refine List.forall_mem_cons.mpr ⟨h.operand l List.mem_cons_self, fun y hy => ?_⟩
      obtain ⟨m, hm, rfl⟩ := List.mem_map.mp hy
      refine h.operand m (List.mem_cons_of_mem _ ?_)
      rw [← l.taken_append_left ls]
      exact List.mem_append_left _ hm
    obtain ⟨y, ys, happ, hys⟩ := application_list l.kind l.op x (List.cons_ne_nil _ _)
      (fun e => e.listings og = []) (fun _ _ => rfl) hx hoperands
    rw [leftNested]
    cases hrest : l.left ls with
    | nil =>
      rw [hrest] at hred
      have halone : Reduction.Alone ⟨[], application l.kind l.op x
          (l.operand :: (l.taken ls).map Link.operand), spell []⟩ := ⟨rfl, rfl⟩
      refine ⟨⟨_, by rw [leftNested]; exact .alone hleft hred halone⟩, ?_⟩
      rw [leavesOperator_alone_iff hleft hred halone]
      rintro ⟨z, zs, heq, w, hw, q, hq, -⟩
      obtain ⟨-, rfl⟩ := List.cons.inj (Expr.ofList_injective (happ.symm.trans heq))
      rw [hys w hw] at hq
      cases hq
    | cons m ms =>
      have hlen := l.left_length ls
      rw [hrest] at hred hlen
      have hchain : Chain og p (m :: ms) := hrest ▸ h.left
      have halone : ¬ Reduction.Alone ⟨[], application l.kind l.op x
          (l.operand :: (l.taken ls).map Link.operand), spell (m :: ms)⟩ := fun h => nomatch h.2
      have hpair : (application l.kind l.op x
          (l.operand :: (l.taken ls).map Link.operand)).listings og = [] := by
        rw [happ]
        rfl
      simp only [List.length_cons] at hlen
      obtain ⟨⟨calls, hreduces⟩, hleaves⟩ := ih ms.length (by omega) (Nat.le_refl _) hchain hpair
      refine ⟨⟨_, .next hleft hred halone hreduces⟩, ?_⟩
      rw [leavesOperator_next_iff hleft hred halone]
      exact hleaves

/-- Without logical operators the chain is applied operand by operand. -/
theorem Chain.leftNested_foldl {n : Nat} (hn : ls.length ≤ n) (h : Chain og p ls)
    (hand : ∀ l ∈ ls, l.kind ≠ .and) :
    leftNested x ls = ls.foldl (fun e l => application l.kind l.op e [l.operand]) x := by
  induction n using Nat.strongRecOn generalizing x ls with
  | ind n ih =>
    cases ls with
    | nil => rw [leftNested, List.foldl_nil]
    | cons l ls =>
      have hlen := l.left_length ls
      rw [List.length_cons] at hn
      have hmem : ∀ m ∈ l.left ls, m ∈ ls := fun m hm => by
        rw [← l.taken_append_left ls]
        exact List.mem_append_right _ hm
      rw [leftNested, ih ls.length (by omega) hlen h.left
        fun m hm => hand m (List.mem_cons_of_mem _ (hmem m hm))]
      conv_rhs => rw [List.foldl_cons, ← l.taken_append_left ls, List.foldl_append]
      congr 1
      cases hkind : l.kind with
      | plus => simp [Link.taken, hkind]
      | and => exact absurd hkind (hand l List.mem_cons_self)
      | dot =>
        -- the links taken are of the same operator, and so of `.`
        have hdot : ∀ m ∈ l.taken ls, m.kind = .dot := by
          intro m hm
          have hop : m.op = l.op := by
            rw [Link.taken, if_neg (by rw [hkind]; decide)] at hm
            simpa using List.mem_takeWhile_imp hm
          have hlisted := h.listed m (List.mem_cons_of_mem _ (by
            rw [← l.taken_append_left ls]
            exact List.mem_append_left _ hm))
          rw [hop, h.listed l List.mem_cons_self, hkind] at hlisted
          simpa using hlisted.symm
        rw [application, List.foldl_cons, List.foldl_map]
        refine List.foldl_ext _ _ _ fun e m hm => ?_
        rw [hdot m hm]
        rfl

/-- A chain of one logical operator is one application. -/
theorem leftNested_and (hkind : l.kind = .and) (hop : ∀ m ∈ ls, m.op = l.op) :
    leftNested x (l :: ls) = application .and l.op x ((l :: ls).map Link.operand) := by
  have htaken : l.taken ls = ls := by
    rw [Link.taken, if_neg (by rw [hkind]; decide), List.takeWhile_eq_self_iff]
    simpa using hop
  have hleft : l.left ls = [] := by
    rw [Link.left, if_neg (by rw [hkind]; decide), List.dropWhile_eq_nil_iff]
    simpa using hop
  rw [leftNested, htaken, hleft, hkind, leftNested, List.map_cons]

/-- A chain is expanded to the nest of its applications. -/
theorem chain_expands (cs : List (OperatorCall String BootstrapOperator))
    (h : Chain (runCalls cs .infixOperator).groups p (l :: ls))
    (hx : x.listings (runCalls cs .infixOperator).groups = []) :
    ∃ fuel calls, commonOperatorExpand bootstrapProcedures fuel (.ofList (x :: spell (l :: ls)))
      (runCalls cs .infixOperator).groups = (calls, .ok (leftNested x (l :: ls))) := by
  obtain ⟨calls, r, -, hunique, hiff⟩ := commonOperatorExpand_reduces cs .infixOperator
    bootstrapProcedures reduceBootstrap (bootstrap_standard _) (x :: spell (l :: ls))
  obtain ⟨⟨calls', hreduces⟩, hleaves⟩ := h.reduces (Nat.le_refl _) hx
  obtain ⟨fuel, hrun⟩ := hiff.mpr hleaves
  obtain ⟨-, rfl⟩ := hunique _ _ hreduces
  exact ⟨fuel, calls, hrun⟩

end Chains

/-- What an operator procedure does with the list it is in: with its operands there, it answers
with the application in their place and the rest as it was; with one missing, it raises. -/
structure ReducesOperands (k : BootstrapOperator) (op : String) (front : List (Expr String))
    (left : Expr String) (after : List (Expr String)) : Prop where
  takes : ∀ xs rest, Takes k op after xs rest → runOperator k op (front ++ [left]) after =
    .ok (Reduction.answer ⟨front, application k op left xs, rest⟩)
  misses : Missing k op after → runOperator k op (front ++ [left]) after = .error (missing op k)
  either : (∃ xs rest, Takes k op after xs rest) ∨ Missing k op after

/-- **The standard operators**: each procedure reduces its operands, and a chain of operators of
one priority, whose operands are no operators, is expanded to the applications nested from the
left, where the operands of adjacent logical operators of the same name go into one. -/
theorem standard_operators_reduce :
    (∀ k op front left after, ReducesOperands k op front left after) ∧
      ∀ cs p x l ls, Chain (runCalls cs .infixOperator).groups p (l :: ls) →
        x.listings (runCalls cs .infixOperator).groups = [] →
        (∃ fuel calls, commonOperatorExpand bootstrapProcedures fuel
          (.ofList (x :: spell (l :: ls))) (runCalls cs .infixOperator).groups =
            (calls, .ok (leftNested x (l :: ls)))) ∧
        ((∀ m ∈ l :: ls, m.kind ≠ .and) → leftNested x (l :: ls) =
          (l :: ls).foldl (fun e m => application m.kind m.op e [m.operand]) x) ∧
        (l.kind = .and → (∀ m ∈ ls, m.op = l.op) → leftNested x (l :: ls) =
          application .and l.op x ((l :: ls).map Link.operand)) := by
  refine ⟨fun k op front left after => ?_, fun cs p x l ls h hx => ?_⟩
  · exact ⟨fun _ _ => runOperator_takes front left, runOperator_missing front left,
      takes_or_missing k op after⟩
  · exact ⟨chain_expands cs h hx, h.leftNested_foldl (Nat.le_refl _), leftNested_and⟩

/-- The operators of the bootstrap, with the priorities it gives them. -/
def bootstrapOperators : List (OperatorCall String BootstrapOperator) :=
  [.install .infixOperator "+" .plus 1100, .copy .infixOperator "-" 1100 "+",
    .copy .infixOperator "*" 1200 "+", .copy .infixOperator "/" 1200 "+",
    .copy .infixOperator "lt" 1200 "+", .copy .infixOperator "le" 1200 "+",
    .copy .infixOperator "eq" 1200 "+", .copy .infixOperator "ne" 1200 "+",
    .copy .infixOperator "ge" 1200 "+", .copy .infixOperator "gt" 1200 "+",
    .install .infixOperator "and" .and 1000, .copy .infixOperator "or" 1000 "and",
    .copy .infixOperator "C/|" 1400 "and", .install .infixOperator "." .dot 1200]

/-- `10 - 3 - 2` -/
def twoMinuses : List Link := [⟨"-", .plus, .other 3⟩, ⟨"-", .plus, .other 2⟩]

theorem twoMinuses_reduce : ∃ fuel calls, commonOperatorExpand bootstrapProcedures fuel
    (.ofList (.other 10 :: spell twoMinuses)) (runCalls bootstrapOperators .infixOperator).groups =
      (calls, .ok (.ofList [.symbol "binary--", .ofList [.symbol "binary--", .other 10, .other 3],
        .other 2])) := by
  have hchain : Chain (runCalls bootstrapOperators .infixOperator).groups 1100 twoMinuses := by
    constructor
    · simp only [twoMinuses, List.forall_mem_cons]
      exact ⟨by decide, by decide, by simp⟩
    · simp [twoMinuses, Expr.listings]
  obtain ⟨⟨fuel, calls, hrun⟩, hfold, -⟩ := standard_operators_reduce.2 bootstrapOperators 1100
    (.other 10) _ _ hchain rfl
  refine ⟨fuel, calls, hrun.trans ?_⟩
  rw [hfold (by simp)]
  rfl

/-- `1 2 + 3`: the left side has two expressions, and only the last is an operand. -/
theorem plus_two_left : runOperator .plus "+" [.other 1, .other 2] [.other 3] =
    .ok (.ofList [.other 1, .ofList [.symbol "binary-+", .other 2, .other 3]]) := by
  decide

/-- Adjacent operators of two names. -/
example : (commonOperatorExpand bootstrapProcedures 30
    (.ofList [.other 1, .symbol "and", .other 2, .symbol "and", .other 3, .symbol "or", .other 4])
    (runCalls bootstrapOperators .infixOperator).groups).2 =
      .ok (.ofList [.symbol "or", .ofList [.symbol "and", .other 1, .other 2, .other 3],
        .other 4]) := by
  decide

end StandardOperators

end Idio
