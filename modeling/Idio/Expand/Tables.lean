/-
  Expand/Tables.lean --- the expansion with both tables of operators.

  The infix and the postfix operators have priorities of one kind, and the reductions
  ought to be those of the two tables together, `bothGroups`.  `idio_operator_expand`
  goes through the infix table first, and only then through the other: a postfix operator
  waits for the infix operators, whatever its priority.

  `OutOfOrder` is where that makes a difference, or where an expression that was left
  alone is expanded again; `operator_expansion` says that there is no other such place.
-/
import Idio.StandardOperators

set_option autoImplicit false

namespace Idio

section Tables

variable {Symbol Proc : Type}

/-! ## The two tables together -/

/-- The procedures of both tables. -/
def Procedures.both (procs : Procedures Symbol Proc) : Procedures Symbol (OperatorKind × Proc) where
  isFunction proc := procs.isFunction proc.2
  run proc := procs.run proc.2

/-- A group, with the kind of its operators. -/
def tagGroup (kind : OperatorKind) (g : Group Symbol Proc) : Group Symbol (OperatorKind × Proc) :=
  (g.1, g.2.map fun e => (e.1, (kind, e.2)))

/-- Groups of infix operators merged with those of postfix operators. -/
def mergeGroups : List (Group Symbol Proc) → List (Group Symbol Proc) →
    List (Group Symbol (OperatorKind × Proc))
  | [], ps => ps.map (tagGroup .postfixOperator)
  | g :: is, [] => (g :: is).map (tagGroup .infixOperator)
  | g :: is, p :: ps =>
      if p.1 < g.1 then tagGroup .infixOperator g :: mergeGroups is (p :: ps)
      else if g.1 < p.1 then tagGroup .postfixOperator p :: mergeGroups (g :: is) ps
      else (g.1, (tagGroup .infixOperator g).2 ++ (tagGroup .postfixOperator p).2) ::
        mergeGroups is ps
  termination_by is ps => is.length + ps.length

/-- The groups of both tables. -/
def bothGroups (ts : OperatorTables Symbol Proc) : List (Group Symbol (OperatorKind × Proc)) :=
  mergeGroups (ts .infixOperator).groups (ts .postfixOperator).groups

theorem tagGroup_descending (kind : OperatorKind) {og : List (Group Symbol Proc)}
    (hd : Descending og) : Descending (og.map (tagGroup kind)) :=
  List.pairwise_map.mpr hd

/-- The priorities of merged groups. -/
theorem mem_mergeGroups {is ps : List (Group Symbol Proc)} {n : Int}
    (his : ∀ g ∈ is, g.1 < n) (hps : ∀ g ∈ ps, g.1 < n) : ∀ g ∈ mergeGroups is ps, g.1 < n := by
  fun_induction mergeGroups is ps with
  | case1 ps =>
    intro g hg
    obtain ⟨p, hp, rfl⟩ := List.mem_map.mp hg
    exact hps p hp
  | case2 i is =>
    intro g hg
    obtain ⟨p, hp, rfl⟩ := List.mem_map.mp hg
    exact his p hp
  | case3 i is p ps h ih =>
    exact List.forall_mem_cons.mpr ⟨his i List.mem_cons_self,
      ih (fun g hg => his g (List.mem_cons_of_mem _ hg)) hps⟩
  | case4 i is p ps h h' ih =>
    exact List.forall_mem_cons.mpr ⟨hps p List.mem_cons_self,
      ih his (fun g hg => hps g (List.mem_cons_of_mem _ hg))⟩
  | case5 i is p ps h h' ih =>
    exact List.forall_mem_cons.mpr ⟨his i List.mem_cons_self,
      ih (fun g hg => his g (List.mem_cons_of_mem _ hg))
        (fun g hg => hps g (List.mem_cons_of_mem _ hg))⟩

theorem mergeGroups_descending {is ps : List (Group Symbol Proc)} (his : Descending is)
    (hps : Descending ps) : Descending (mergeGroups is ps) := by
  fun_induction mergeGroups is ps with
  | case1 ps => exact tagGroup_descending .postfixOperator hps
  | case2 i is => exact tagGroup_descending .infixOperator his
  | case3 i is p ps h ih =>
    obtain ⟨hi, his⟩ := List.pairwise_cons.mp his
    refine List.pairwise_cons.mpr ⟨mem_mergeGroups hi ?_, ih his hps⟩
    refine List.forall_mem_cons.mpr ⟨h, fun g hg => ?_⟩
    exact Int.lt_trans ((List.pairwise_cons.mp hps).1 g hg) h
  | case4 i is p ps h h' ih =>
    obtain ⟨hp, hps⟩ := List.pairwise_cons.mp hps
    refine List.pairwise_cons.mpr ⟨mem_mergeGroups ?_ hp, ih his hps⟩
    refine List.forall_mem_cons.mpr ⟨h', fun g hg => ?_⟩
    exact Int.lt_trans ((List.pairwise_cons.mp his).1 g hg) h'
  | case5 i is p ps h h' ih =>
    obtain ⟨hi, his⟩ := List.pairwise_cons.mp his
    obtain ⟨hp, hps⟩ := List.pairwise_cons.mp hps
    have heq : p.1 = i.1 := Int.le_antisymm (Int.not_lt.mp h') (Int.not_lt.mp h)
    exact List.pairwise_cons.mpr ⟨mem_mergeGroups hi (heq ▸ hp), ih his hps⟩

/-- A listing in the table of a kind. -/
def ofKind (kind : OperatorKind) (q : Int × (OperatorKind × Proc)) : Option (Int × Proc) :=
  if q.2.1 = kind then some (q.1, q.2.2) else none

variable [DecidableEq Symbol]

theorem entries_tagGroup (s : Symbol) (kind : OperatorKind) (g : Group Symbol Proc) :
    entries s (tagGroup kind g).2 = (entries s g.2).map fun proc => (kind, proc) := by
  obtain ⟨pri, procs⟩ := g
  induction procs with
  | nil => rfl
  | cons e procs ih =>
    have hcons : (tagGroup kind (pri, e :: procs)).2 =
        (e.1, (kind, e.2)) :: (tagGroup kind (pri, procs)).2 := rfl
    rw [hcons, entries_cons, entries_cons, ih]
    split <;> rfl

/-- The listings of a group are of its kind. -/
theorem group_ofKind (s : Symbol) (kind kind' : OperatorKind) (pri : Int) (g : Group Symbol Proc) :
    ((entries s (tagGroup kind g).2).map fun proc => (pri, proc)).filterMap (ofKind kind') =
      if kind = kind' then (entries s g.2).map fun proc => (pri, proc) else [] := by
  rw [entries_tagGroup]
  by_cases hk : kind = kind'
  · simp [hk, ofKind, List.filterMap_map, Function.comp_def]
  · simp [hk, ofKind, List.filterMap_map, Function.comp_def]

theorem tagGroup_ofKind (s : Symbol) (kind kind' : OperatorKind) (og : List (Group Symbol Proc)) :
    (listings s (og.map (tagGroup kind))).filterMap (ofKind kind') =
      if kind = kind' then listings s og else [] := by
  induction og with
  | nil => split <;> rfl
  | cons g og ih =>
    rw [List.map_cons, listings_cons, List.filterMap_append, ih, listings_cons]
    have hg := group_ofKind s kind kind' (tagGroup kind g).1 g
    rw [hg]
    split <;> rfl

/-- Each operator is listed as in the two tables. -/
theorem listings_mergeGroups (s : Symbol) (is ps : List (Group Symbol Proc)) :
    (listings s (mergeGroups is ps)).filterMap (ofKind .infixOperator) = listings s is ∧
      (listings s (mergeGroups is ps)).filterMap (ofKind .postfixOperator) = listings s ps := by
  fun_induction mergeGroups is ps with
  | case1 ps => exact ⟨tagGroup_ofKind s .postfixOperator _ ps, tagGroup_ofKind s _ _ ps⟩
  | case2 i is =>
    exact ⟨tagGroup_ofKind s _ _ (i :: is), tagGroup_ofKind s .infixOperator _ (i :: is)⟩
  | case3 i is p ps h ih =>
    simp only [listings_cons, List.filterMap_append, ih]
    exact ⟨congrArg (· ++ _) (group_ofKind s _ _ i.1 i),
      congrArg (· ++ _) (group_ofKind s .infixOperator _ i.1 i)⟩
  | case4 i is p ps h h' ih =>
    simp only [listings_cons, List.filterMap_append, ih]
    exact ⟨congrArg (· ++ _) (group_ofKind s .postfixOperator _ p.1 p),
      congrArg (· ++ _) (group_ofKind s _ _ p.1 p)⟩
  | case5 i is p ps h h' ih =>
    have heq : p.1 = i.1 := Int.le_antisymm (Int.not_lt.mp h') (Int.not_lt.mp h)
    simp only [listings_cons, List.filterMap_append, ih, entries_append, List.map_append,
      group_ofKind, heq, if_true, reduceCtorEq, if_false, List.append_nil, List.nil_append, and_self]

/-- Each operator is listed as in the tables. -/
theorem listings_bothGroups (s : Symbol) (ts : OperatorTables Symbol Proc) (kind : OperatorKind) :
    (listings s (bothGroups ts)).filterMap (ofKind kind) = listings s (ts kind).groups := by
  have hparts := listings_mergeGroups s (ts .infixOperator).groups (ts .postfixOperator).groups
  cases kind with
  | infixOperator => exact hparts.1
  | postfixOperator => exact hparts.2

variable {ts : OperatorTables Symbol Proc} {x : Expr Symbol} {kind : OperatorKind}

theorem Expr.listings_both (ts : OperatorTables Symbol Proc) (x : Expr Symbol)
    (kind : OperatorKind) :
    (x.listings (bothGroups ts)).filterMap (ofKind kind) = x.listings (ts kind).groups := by
  cases x with
  | symbol s => exact listings_bothGroups s ts kind
  | _ => rfl

theorem mem_listings_both {p : Int} {proc : Proc} :
    (p, (kind, proc)) ∈ x.listings (bothGroups ts) ↔ (p, proc) ∈ x.listings (ts kind).groups := by
  rw [← Expr.listings_both ts x kind, List.mem_filterMap]
  constructor
  · intro h
    exact ⟨_, h, if_pos rfl⟩
  · rintro ⟨⟨p', kind', proc'⟩, h, heq⟩
    rw [ofKind] at heq
    split at heq
    · rename_i hk
      cases heq
      cases hk
      exact h
    · cases heq

theorem listings_both_eq_nil :
    x.listings (bothGroups ts) = [] ↔ ∀ kind, x.listings (ts kind).groups = [] := by
  constructor
  · intro h kind
    rw [← Expr.listings_both, h]
    rfl
  · intro h
    refine List.eq_nil_iff_forall_not_mem.mpr fun q hq => ?_
    have hmem := mem_listings_both.mp (hq : (q.1, (q.2.1, q.2.2)) ∈ _)
    rw [h] at hmem
    cases hmem

/-! ## Standard procedures and the leftmost operator -/

variable {procs : Procedures Symbol Proc}
  {reduce : Proc → Symbol → List (Expr Symbol) → List (Expr Symbol) → Result (Reduction Symbol)}

/-- What the procedures of both tables reduce. -/
def reduceBoth
    (reduce : Proc → Symbol → List (Expr Symbol) → List (Expr Symbol) → Result (Reduction Symbol))
    (proc : OperatorKind × Proc) :
    Symbol → List (Expr Symbol) → List (Expr Symbol) → Result (Reduction Symbol) :=
  reduce proc.2

theorem Standard.both (h : ∀ kind, Standard (ts kind).groups procs reduce) :
    Standard (bothGroups ts) procs.both (reduceBoth reduce) where
  isFunction proc := (h .infixOperator).isFunction proc.2
  answers proc := (h .infixOperator).answers proc.2
  before proc := (h .infixOperator).before proc.2
  after proc := (h .infixOperator).after proc.2
  expr proc s b a ρ hr := listings_both_eq_nil.mpr fun kind => (h kind).expr proc.2 s b a ρ hr
  list proc := (h .infixOperator).list proc.2

section Leftmost

variable {es b a : List (Expr Symbol)} {s : Symbol} {p : Int} {proc : Proc}

/-- The leftmost operator of both tables is that of its own. -/
theorem Leftmost.own (h : Leftmost (bothGroups ts) es b s p (kind, proc) a) :
    Leftmost (ts kind).groups es b s p proc a where
  split := h.split
  operand := h.operand
  listed := by
    have hlisted := h.listed
    rw [← listings_bothGroups s ts kind]
    cases hl : listings s (bothGroups ts) with
    | nil =>
      rw [hl] at hlisted
      cases hlisted
    | cons q qs =>
      rw [hl] at hlisted
      cases hlisted
      have hq : ofKind kind (p, (kind, proc)) = some (p, proc) := if_pos rfl
      rw [List.filterMap_cons_some hq, List.head?_cons]
  highest x hx q hq := h.highest x hx _ (mem_listings_both.mpr hq)
  leftmost x hx q hq := h.leftmost x hx _ (mem_listings_both.mpr hq)

/-- The operator itself is listed in its table. -/
theorem Leftmost.listed_own (h : Leftmost (bothGroups ts) es b s p (kind, proc) a) :
    .symbol s ∈ es.tail ∧ (Expr.symbol s).listings (ts kind).groups ≠ [] :=
  ⟨h.mem_tail, List.ne_nil_of_mem h.own.mem_listings⟩

end Leftmost

/-! ## Out of order -/

/-- An operand of an expression that was left alone is expanded again: after an infix
operator, and after a postfix operator. -/
def ExpandedAgain (ts : OperatorTables Symbol Proc) (p : Int) (x : Expr Symbol) :
    OperatorKind → Prop
  | .infixOperator => (∃ q ∈ x.listings (ts .infixOperator).groups, q.1 ≤ p) ∨
      x.listings (ts .postfixOperator).groups ≠ []
  | .postfixOperator => ∃ q ∈ x.listings (ts .postfixOperator).groups, q.1 ≤ p

variable (ts reduce) in
/-- Somewhere in the reductions a postfix operator is next while an infix operator is
left; or the last reduction leaves its expression alone, and that has an operand that is
expanded again. -/
inductive OutOfOrder : List (Expr Symbol) → Prop where
  | postponed {es b a : List (Expr Symbol)} {s : Symbol} {p : Int} {proc : Proc} {x : Expr Symbol}
      (h : Leftmost (bothGroups ts) es b s p (.postfixOperator, proc) a) (hx : x ∈ es.tail)
      (hleft : x.listings (ts .infixOperator).groups ≠ []) : OutOfOrder es
  | alone {es b a : List (Expr Symbol)} {s : Symbol} {p : Int} {proc : OperatorKind × Proc}
      {ρ : Reduction Symbol} {x y : Expr Symbol} {xs : List (Expr Symbol)}
      (h : Leftmost (bothGroups ts) es b s p proc a) (hr : reduceBoth reduce proc s b a = .ok ρ)
      (hρ : ρ.Alone) (hexpr : ρ.expr = .ofList (x :: xs)) (hy : y ∈ xs)
      (hagain : ExpandedAgain ts p y proc.1) : OutOfOrder es
  | next {es b a : List (Expr Symbol)} {s : Symbol} {p : Int} {proc : OperatorKind × Proc}
      {ρ : Reduction Symbol} (h : Leftmost (bothGroups ts) es b s p proc a)
      (hr : reduceBoth reduce proc s b a = .ok ρ) (hρ : ¬ ρ.Alone)
      (hrest : OutOfOrder ρ.elements) : OutOfOrder es

section OutOfOrder

variable {es b a : List (Expr Symbol)} {s : Symbol} {p : Int} {tagged : OperatorKind × Proc}
  {ρ : Reduction Symbol}

/-- No infix operator waits for the one that is next. -/
def NoneWaits (ts : OperatorTables Symbol Proc) (es : List (Expr Symbol)) (kind : OperatorKind) : Prop :=
  ∀ x ∈ es.tail, x.listings (ts .infixOperator).groups ≠ [] → kind = .infixOperator

theorem outOfOrder_iff (h : Leftmost (bothGroups ts) es b s p tagged a)
    (hdue : NoneWaits ts es tagged.1) : OutOfOrder ts reduce es ↔
      ∃ ρ, reduceBoth reduce tagged s b a = .ok ρ ∧
        (ρ.Alone ∧ (∃ x xs, ρ.expr = .ofList (x :: xs) ∧ ∃ y ∈ xs, ExpandedAgain ts p y tagged.1) ∨
          ¬ ρ.Alone ∧ OutOfOrder ts reduce ρ.elements) := by
  constructor
  · rintro (⟨h', hx, hleft⟩ | ⟨h', hr, hρ, hexpr, hy, hagain⟩ | ⟨h', hr, hρ, hrest⟩)
    · obtain ⟨rfl, rfl, rfl, rfl, rfl⟩ := h.unique h'
      cases hdue _ hx hleft
    · obtain ⟨rfl, rfl, rfl, rfl, rfl⟩ := h.unique h'
      exact ⟨_, hr, .inl ⟨hρ, _, _, hexpr, _, hy, hagain⟩⟩
    · obtain ⟨rfl, rfl, rfl, rfl, rfl⟩ := h.unique h'
      exact ⟨_, hr, .inr ⟨hρ, hrest⟩⟩
  · rintro ⟨ρ, hr, ⟨hρ, x, xs, hexpr, y, hy, hagain⟩ | ⟨hρ, hrest⟩⟩
    · exact .alone h hr hρ hexpr hy hagain
    · exact .next h hr hρ hrest

theorem not_outOfOrder_finished (h : ∀ x ∈ es.tail, x.listings (bothGroups ts) = []) :
    ¬ OutOfOrder ts reduce es := by
  rintro (⟨h', -⟩ | ⟨h', -⟩ | ⟨h', -⟩) <;> exact h'.not_finished h

end OutOfOrder

/-! ## The postfix operators -/

/-- What no infix operator is left in, a reduction leaves without one. -/
theorem Standard.elements_none {og : List (Group Symbol Proc)} (h : Standard og procs reduce)
    {proc : Proc} {s : Symbol} {b a : List (Expr Symbol)} {ρ : Reduction Symbol} (hb : b ≠ [])
    (hr : reduce proc s b a = .ok ρ)
    (hnone : ∀ x ∈ (b ++ .symbol s :: a).tail, x.listings og = []) :
    ∀ x ∈ ρ.elements.tail, x.listings og = [] := by
  obtain ⟨y, b, rfl⟩ := List.exists_cons_of_ne_nil hb
  intro x hx
  have hmem := (Reduction.tail_sublist (h.before _ _ _ _ _ hr) (h.after _ _ _ _ _ hr)).subset hx
  simp only [List.tail_cons, List.mem_append, List.mem_cons] at hmem
  rcases hmem with hmem | rfl | hmem
  · exact hnone x (by simp [hmem])
  · exact h.expr _ _ _ _ _ hr
  · exact hnone x (by simp [hmem])

/-- Where no infix operator is left the reductions are those of the postfix operators. -/
theorem Reduces.postfix_phase (h : ∀ kind, Standard (ts kind).groups procs reduce)
    {es : List (Expr Symbol)} {calls : List (Applied Symbol (OperatorKind × Proc))}
    {r : Result (Expr Symbol)} (hred : Reduces (bothGroups ts) (reduceBoth reduce) es calls r)
    (hnone : ∀ x ∈ es.tail, x.listings (ts .infixOperator).groups = []) :
    ∃ calls', calls = calls'.map (Applied.of .postfixOperator) ∧
      Reduces (ts .postfixOperator).groups reduce es calls' r ∧
      (OutOfOrder ts reduce es ↔ LeavesOperator (ts .postfixOperator).groups reduce es) := by
  have hdue : ∀ {es : List (Expr Symbol)} {kind : OperatorKind},
      (∀ x ∈ es.tail, x.listings (ts .infixOperator).groups = []) → NoneWaits ts es kind :=
    fun hnone x hx hne => absurd (hnone x hx) hne
  have hkind : ∀ {es b a : List (Expr Symbol)} {s : Symbol} {p : Int}
      {tagged : OperatorKind × Proc}, (∀ x ∈ es.tail, x.listings (ts .infixOperator).groups = []) →
      Leftmost (bothGroups ts) es b s p tagged a → tagged = (.postfixOperator, tagged.2) := by
    rintro es b a s p ⟨kind, proc⟩ hnone hl
    cases kind with
    | infixOperator => exact absurd (hnone _ hl.mem_tail) hl.listed_own.2
    | postfixOperator => rfl
  induction hred with
  | finished hfin =>
    refine ⟨[], rfl, .finished fun x hx => listings_both_eq_nil.mp (hfin x hx) _, ?_⟩
    refine iff_of_false (not_outOfOrder_finished hfin) (not_leavesOperator_finished fun x hx => ?_)
    exact listings_both_eq_nil.mp (hfin x hx) _
  | @raised es b a s p tagged f hl hr =>
    obtain ⟨kind, proc⟩ := tagged
    cases hkind hnone hl
    refine ⟨[⟨proc, s, .ofList b, .ofList a⟩], rfl, .raised hl.own hr, ?_⟩
    rw [reduceBoth] at hr
    rw [outOfOrder_iff hl (hdue hnone), leavesOperator_iff hl.own]
    simp [reduceBoth, hr]
  | @alone es b a s p tagged ρ hl hr hρ =>
    obtain ⟨kind, proc⟩ := tagged
    cases hkind hnone hl
    refine ⟨[⟨proc, s, .ofList b, .ofList a⟩], rfl, .alone hl.own hr hρ, ?_⟩
    rw [reduceBoth] at hr
    rw [outOfOrder_iff hl (hdue hnone), leavesOperator_iff hl.own]
    simp [reduceBoth, hr, hρ, ExpandedAgain]
  | @next es b a s p tagged ρ calls r hl hr hρ _ ih =>
    obtain ⟨kind, proc⟩ := tagged
    cases hkind hnone hl
    have hrest := (h .infixOperator).elements_none hl.operand hr (hl.split ▸ hnone)
    obtain ⟨calls', rfl, hred, hiff⟩ := ih hrest
    refine ⟨⟨proc, s, .ofList b, .ofList a⟩ :: calls', rfl, .next hl.own hr hρ hred, ?_⟩
    rw [reduceBoth] at hr
    rw [outOfOrder_iff hl (hdue hnone), leavesOperator_iff hl.own]
    simp [reduceBoth, hr, hρ, hiff]

/-! ## The expansion -/

section Expansion

variable {hi lo : List (Group Symbol Proc)} {g : Group Symbol Proc} {es : List (Expr Symbol)}
  {calls : List (Applied Symbol (OperatorKind × Proc))} {r : Result (Expr Symbol)}

omit [DecidableEq Symbol] in
theorem Applied.of_injective (kind : OperatorKind) :
    Function.Injective (Applied.of kind : Applied Symbol Proc → _) := by
  rintro ⟨proc, s, b, a⟩ ⟨proc', s', b', a'⟩ h
  cases h
  rfl

theorem thenPostfix_cons (m : Nat) (c : Applied Symbol Proc) (cs : List (Applied Symbol Proc))
    (r : Result (Expr Symbol)) :
    thenPostfix procs ts m (c :: cs, r) =
      (c.of .infixOperator :: (thenPostfix procs ts m (cs, r)).1,
        (thenPostfix procs ts m (cs, r)).2) := by
  cases r <;> rfl

/-- An expansion that makes no call gives the expression back. -/
theorem expand_no_calls {x e : Expr Symbol} {k : Nat} {og : List (Group Symbol Proc)}
    (hlist : ∀ h t, x = .pair h t → ∃ xs, t = .ofList xs)
    (h : commonOperatorExpand procs k x og = ([], .ok e)) : e = x := by
  cases x with
  | pair y t =>
    obtain ⟨xs, rfl⟩ := hlist y t rfl
    rw [← Expr.ofList_cons] at h ⊢
    induction k generalizing og with
    | zero => cases h
    | succ k ih =>
      cases og with
      | nil =>
        cases h
        rfl
      | cons g og =>
        rcases scan_ofList g.2 [y] xs with ⟨-, hdone⟩ | ⟨front, s, proc, back, rfl, -, -, hfound⟩
        · rw [expand_done hdone] at h
          exact ih h
        · rw [expand_found hfound] at h
          split at h <;> cases h
  | _ =>
    cases k with
    | zero => cases h
    | succ k =>
      cases h
      rfl

/-- The expression that an infix operator leaves alone is expanded with the rest of the
infix operators and with all postfix operators. -/
theorem thenPostfix_alone_iff {x : Expr Symbol} (hts : (ts .infixOperator).groups = hi ++ g :: lo)
    (hd : Descending (hi ++ g :: lo)) (hlist : ∀ h t, x = .pair h t → ∃ xs, t = .ofList xs) :
    (∃ k m, thenPostfix procs ts m (commonOperatorExpand procs k x (g :: lo)) = ([], .ok x)) ↔
      ¬ ∃ y ys, x = .ofList (y :: ys) ∧ ∃ z ∈ ys, ExpandedAgain ts g.1 z .infixOperator := by
  have hparts : (∃ k m, thenPostfix procs ts m (commonOperatorExpand procs k x (g :: lo)) =
      ([], .ok x)) ↔ (∃ k, commonOperatorExpand procs k x (g :: lo) = ([], .ok x)) ∧
        ∃ m, commonOperatorExpand procs m x (ts .postfixOperator).groups = ([], .ok x) := by
    constructor
    · rintro ⟨k, m, hrun⟩
      cases hk : commonOperatorExpand procs k x (g :: lo) with
      | mk cs r =>
        rw [hk] at hrun
        cases r with
        | error f =>
          obtain ⟨-, hresult⟩ := Prod.mk.inj hrun
          cases hresult
        | ok e =>
          obtain ⟨hcalls, hresult⟩ := Prod.mk.inj hrun
          obtain ⟨hcs, hcs'⟩ := List.append_eq_nil_iff.mp hcalls
          cases List.map_eq_nil_iff.mp hcs
          cases expand_no_calls hlist hk
          exact ⟨⟨k, hk⟩, m, Prod.ext (List.map_eq_nil_iff.mp hcs') hresult⟩
    · rintro ⟨⟨k, hk⟩, m, hm⟩
      refine ⟨k, m, ?_⟩
      rw [hk, thenPostfix]
      dsimp only
      rw [hm]
      rfl
  rw [hparts, expand_alone_iff hd hlist, ← hts]
  cases x with
  | pair y t =>
    obtain ⟨ys, rfl⟩ := hlist y t rfl
    rw [← Expr.ofList_cons, expand_self_iff]
    constructor
    · rintro ⟨hin, hpost⟩ ⟨z, zs, heq, w, hw, hagain⟩
      obtain ⟨-, rfl⟩ := List.cons.inj (Expr.ofList_injective heq)
      rcases hagain with hagain | hagain
      · exact hin ⟨y, ys, rfl, w, hw, hagain⟩
      · exact hagain (hpost w hw)
    · intro hnone
      refine ⟨?_, fun w hw => ?_⟩
      · rintro ⟨z, zs, heq, w, hw, hagain⟩
        exact hnone ⟨z, zs, heq, w, hw, .inl hagain⟩
      · by_contra hne
        exact hnone ⟨y, ys, rfl, w, hw, .inr hne⟩
  | _ =>
    refine iff_of_true ⟨?_, 1, rfl⟩ ?_
    all_goals
      rintro ⟨y, ys, heq, -⟩
      cases heq

/-- A list with an operator has a leftmost one. -/
theorem Reduces.exists_leftmost {og : List (Group Symbol Proc)}
    {calls : List (Applied Symbol Proc)} {x : Expr Symbol} (h : Reduces og reduce es calls r)
    (hx : x ∈ es.tail) (hlisted : x.listings og ≠ []) :
    ∃ b s p proc a, Leftmost og es b s p proc a := by
  cases h with
  | finished hnone => exact absurd (hnone x hx) hlisted
  | raised h => exact ⟨_, _, _, _, _, h⟩
  | alone h => exact ⟨_, _, _, _, _, h⟩
  | next h => exact ⟨_, _, _, _, _, h⟩

/-- Where no infix operator is left, what remains is the expansion of the postfix operators. -/
theorem thenPostfix_phase (h : ∀ kind, Standard (ts kind).groups procs reduce)
    (hd : Descending (ts .postfixOperator).groups)
    (hred : Reduces (bothGroups ts) (reduceBoth reduce) es calls r)
    (hnone : ∀ x ∈ es.tail, x.listings (ts .infixOperator).groups = []) :
    (∃ k m, thenPostfix procs ts m (commonOperatorExpand procs k (.ofList es) []) = (calls, r)) ↔
      ¬ OutOfOrder ts reduce es := by
  obtain ⟨calls', rfl, hpost, hiff⟩ := hred.postfix_phase h hnone
  obtain ⟨calls'', r'', hpost', hrun⟩ :=
    expand_reduces (h .postfixOperator) hd _ (List.nil_append _).symm rfl fun x _ => by
      cases x <;> rfl
  obtain ⟨rfl, rfl⟩ := hpost.unique hpost'
  rw [hiff, ← hrun]
  have hself : ∀ k, commonOperatorExpand procs (k + 1) (.ofList es) ([] : List (Group Symbol Proc)) =
      ([], .ok (.ofList es)) := by
    intro k
    cases es <;> rfl
  constructor
  · rintro ⟨k, m, heq⟩
    cases k with
    | zero =>
      -- no call and a fault: no reductions end so
      obtain ⟨hcalls, hresult⟩ := Prod.mk.inj heq
      cases List.map_eq_nil_iff.mp hcalls.symm
      cases hpost
      cases hresult
    | succ k =>
      rw [hself] at heq
      obtain ⟨hcalls, hresult⟩ := Prod.mk.inj heq
      exact ⟨m, Prod.ext ((List.map_inj_right fun _ _ h => Applied.of_injective _ h).mp hcalls) hresult⟩
  · rintro ⟨m, heq⟩
    refine ⟨1, m, ?_⟩
    rw [hself, thenPostfix]
    dsimp only
    rw [heq]
    rfl

section FirstCall

variable {groups lo : List (Group Symbol Proc)} {g : Group Symbol Proc} {xs b a : List (Expr Symbol)}
  {s : Symbol} {proc : Proc} {ρ : Reduction Symbol}

variable (hfound : scan g.2 [x] (.ofList xs) = .ok (.found s proc b (.ofList a)))
include hfound

/-- The first call is of the infix operator. -/
theorem head_infix {k m : Nat} {calls : List (Applied Symbol (OperatorKind × Proc))}
    {r : Result (Expr Symbol)}
    (hrun : thenPostfix procs ts m (commonOperatorExpand procs k (.ofList (x :: xs)) (g :: lo)) =
      (calls, r)) : ∀ c ∈ calls.head?, c.proc.1 = .infixOperator := by
  rintro c hc
  cases k with
  | zero =>
    cases hrun
    cases hc
  | succ k =>
    rw [expand_found hfound] at hrun
    split at hrun
    all_goals
      rw [thenPostfix_cons] at hrun
      cases hrun
      cases hc
      rfl

/-- The calls after the first are those of the rest of the expansion. -/
theorem after_call_iff (h : Standard groups procs reduce) (hr : reduce proc s b a = .ok ρ)
    (calls : List (Applied Symbol (OperatorKind × Proc))) (r : Result (Expr Symbol)) :
    (∃ k m, thenPostfix procs ts m (commonOperatorExpand procs k (.ofList (x :: xs)) (g :: lo)) =
        (⟨(.infixOperator, proc), s, .ofList b, .ofList a⟩ :: calls, r)) ↔
      ∃ k m, thenPostfix procs ts m (commonOperatorExpand procs k ρ.answer (g :: lo)) =
        (calls, r) := by
  refine Nat.or_exists_add_one.symm.trans (or_iff_right ?_) |>.trans ?_
  · rintro ⟨m, hrun⟩
    cases hrun
  · refine exists_congr fun k => exists_congr fun m => ?_
    rw [expand_found hfound, h.evaluateOperator_eq, hr, Except.map]
    dsimp only
    rw [thenPostfix_cons, Prod.mk.injEq, List.cons.injEq, Prod.ext_iff]
    exact and_congr_left fun _ => and_iff_right rfl

end FirstCall

/-- The expansion from the infix groups `lo` on, of a list without operators of the
groups `hi` before them. -/
theorem expand_both_reduces (h : ∀ kind, Standard (ts kind).groups procs reduce)
    (hd : ∀ kind, Descending (ts kind).groups) (n : Nat) :
    ∀ {hi lo : List (Group Symbol Proc)} {es : List (Expr Symbol)}
      {calls : List (Applied Symbol (OperatorKind × Proc))} {r : Result (Expr Symbol)},
      (ts .infixOperator).groups = hi ++ lo →
      operatorCount (ts .infixOperator).groups es + lo.length = n →
      (∀ x ∈ es.tail, x.listings hi = []) →
      Reduces (bothGroups ts) (reduceBoth reduce) es calls r →
      ((∃ k m, thenPostfix procs ts m (commonOperatorExpand procs k (.ofList es) lo) = (calls, r)) ↔
        ¬ OutOfOrder ts reduce es) := by
  induction n using Nat.strongRecOn with
  | ind n ih =>
    intro hi lo es calls r hts hn hhi hred
    cases lo with
    | nil =>
      rw [List.append_nil] at hts
      exact thenPostfix_phase h (hd _) hred (hts ▸ hhi)
    | cons g lo =>
      cases es with
      | nil =>
        cases hred with
        | finished hnone =>
          exact iff_of_true ⟨1, 1, rfl⟩ (not_outOfOrder_finished hnone)
        | raised hl => exact absurd hl.mem_tail (List.not_mem_nil)
        | alone hl => exact absurd hl.mem_tail (List.not_mem_nil)
        | next hl => exact absurd hl.mem_tail (List.not_mem_nil)
      | cons x xs =>
        rcases scan_ofList g.2 [x] xs with ⟨hnone, hdone⟩ | ⟨b, s, proc, a, rfl, hb, hs, hfound⟩
        · -- no operator of the group: on to the next
          have hhi' : ∀ y ∈ xs, y.listings (hi ++ [g]) = [] := by
            intro y hy
            rw [Expr.listings_append, hhi y hy, opex_eq_none.mp (hnone y hy), List.append_nil]
          have hlt : operatorCount (ts .infixOperator).groups (x :: xs) + lo.length < n := by
            rw [List.length_cons] at hn
            omega
          refine Iff.trans ?_ (ih _ hlt (hts.trans (List.append_cons hi g lo)) rfl hhi' hred)
          constructor
          · rintro ⟨k, m, hrun⟩
            cases k with
            | zero => exact ⟨0, m, hrun⟩
            | succ k => exact ⟨k, m, (expand_done hdone) ▸ hrun⟩
          · rintro ⟨k, m, hrun⟩
            exact ⟨k + 1, m, (expand_done hdone).symm ▸ hrun⟩
        · have hdi : Descending (hi ++ g :: lo) := hts ▸ hd .infixOperator
          have hown : Leftmost (ts .infixOperator).groups (x :: (b ++ .symbol s :: a)) (x :: b) s
              g.1 proc a := by
            rw [hts]
            exact leftmost_of_scan hdi hhi hb hs
          have hlisted := List.ne_nil_of_mem hown.mem_listings
          rw [List.singleton_append] at hfound
          obtain ⟨b', s', p', ⟨kind, proc'⟩, a', hl⟩ := hred.exists_leftmost hown.mem_tail
            fun hnil => hlisted (listings_both_eq_nil.mp hnil _)
          have hred := hred.at_leftmost hl
          cases kind with
          | postfixOperator =>
            refine iff_of_false ?_ (not_not_intro (.postponed hl hown.mem_tail hlisted))
            rintro ⟨k, m, hrun⟩
            have hfirst := head_infix hfound hrun
            rcases hred with ⟨f, -, rfl, -⟩ | ⟨ρ, -, -, rfl, -⟩ | ⟨ρ, rest, -, -, rfl, -⟩
            all_goals cases hfirst _ rfl
          | infixOperator =>
            obtain ⟨rfl, rfl, rfl, rfl, rfl⟩ := hown.unique hl.own
            have hdue : NoneWaits ts (x :: (b ++ .symbol s :: a)) .infixOperator := fun _ _ _ => rfl
            rw [outOfOrder_iff hl hdue]
            rcases hred with ⟨f, hr, rfl, rfl⟩ | ⟨ρ, hr, hρ, rfl, rfl⟩ | ⟨ρ, rest, hr, hρ, rfl, hrest⟩
            · rw [reduceBoth] at hr
              refine iff_of_true ⟨1, 0, ?_⟩ (by simp [reduceBoth, hr])
              rw [expand_found hfound, (h .infixOperator).evaluateOperator_eq, hr]
              rfl
            · rw [reduceBoth] at hr
              rw [after_call_iff hfound (h .infixOperator) hr, Reduction.answer_alone hρ,
                thenPostfix_alone_iff hts hdi ((h .infixOperator).list _ _ _ _ _ hr)]
              simp [reduceBoth, hr, hρ]
            · rw [reduceBoth] at hr
              obtain ⟨hcount, hhi'⟩ := (h .infixOperator).elements hr hlisted hhi hts
              rw [after_call_iff hfound (h .infixOperator) hr, Reduction.answer_elements hρ,
                ih _ (by omega) hts rfl hhi' hrest]
              simp [reduceBoth, hr, hρ]

/-- **The expansion.**  With standard operator procedures and the tables of any run, the
calls that `idio_operator_expand` makes and its value are those of the reductions with both
tables exactly if the list is not `OutOfOrder`. -/
theorem operator_expansion (cs : List (OperatorCall Symbol Proc)) (procs : Procedures Symbol Proc)
    (reduce : Proc → Symbol → List (Expr Symbol) → List (Expr Symbol) → Result (Reduction Symbol))
    (h : ∀ kind, Standard (runCalls cs kind).groups procs reduce) (es : List (Expr Symbol)) :
    ∃ calls r, Reduces (bothGroups (runCalls cs)) (reduceBoth reduce) es calls r ∧
      (∀ calls' r', Reduces (bothGroups (runCalls cs)) (reduceBoth reduce) es calls' r' →
        calls = calls' ∧ r = r') ∧
      ((∃ fuel, operatorExpand procs (runCalls cs) fuel (.ofList es) = (calls, r)) ↔
        ¬ OutOfOrder (runCalls cs) reduce es) := by
  have hd := runCalls_descending cs
  have hnil : ∀ x : Expr Symbol, x.listings ([] : List (Group Symbol Proc)) = [] := by
    intro x
    cases x <;> rfl
  obtain ⟨calls, r, hred, -⟩ := expand_reduces (Standard.both h)
    (mergeGroups_descending (hd .infixOperator) (hd .postfixOperator)) _
    (List.nil_append _).symm rfl fun x (_ : x ∈ es.tail) => by cases x <;> rfl
  refine ⟨calls, r, hred, fun _ _ h' => hred.unique h', ?_⟩
  rw [← expand_both_reduces h hd _ (List.nil_append _).symm rfl (fun x _ => hnil x) hred]
  constructor
  · rintro ⟨fuel, hrun⟩
    exact ⟨_, _, hrun⟩
  · rintro ⟨k, m, hrun⟩
    exact ⟨fun kind => if kind = .infixOperator then k else m, hrun⟩

end Expansion

end Tables

/-! ## The standard operators -/

open StandardOperators

/-- `IDIO_DEFINE_ASSIGNMENT_INFIX_OPERATOR`. -/
def assignmentInfixOperator (operatorExpand : Expr String → Result (Expr String)) (op : String)
    (before args : Expr String) : Result (Expr String) :=
  match before with
  | .pair b .nil => match args with
      | .nil => .error (.staticArity ("too few args after \"" ++ op ++ "\""))
      | .pair after .nil => .ok (.ofList [.symbol op, b, after])
      | after => do
          let r ← operatorExpand after
          .ok (.ofList [.symbol op, b, r])
  | _ => .error (.staticArity ("too many args before \"" ++ op ++ "\""))

/-- `op-func` of the postfix operators `=-` and `-=` of the bootstrap. -/
def reduceFunction (op : String) : Result (Expr String) :=
  if op = "=-" then .ok (.symbol "array-pop!")
  else if op = "-=" then .ok (.symbol "array-shift!")
  else .error (.paramValue op op "unexpected array reduce operator")

/-- The procedure of `=-`. -/
def arrayOperator (op : String) (before after : List (Expr String)) : Result (Expr String) := do
  let (front, before) ← splitBefore before
  let opFunc ← reduceFunction op
  let left ← ph before
  .ok (assemble front (.ofList [opFunc, left]) after)

/-- Which of them an operator is. -/
inductive StandardOperator where
  | assignment
  | bootstrap (k : BootstrapOperator)
  | array
  deriving DecidableEq, Repr

/-- The procedures; an assignment expands a right side of several expressions. -/
def standardProcedures (ts : OperatorTables String StandardOperator) :
    Nat → Procedures String StandardOperator
  | 0 => ⟨fun _ => true, fun _ _ _ _ => .error .diverges⟩
  | n + 1 =>
      ⟨fun _ => true, fun p op before after => match p with
        | .assignment => assignmentInfixOperator
            (fun e => (operatorExpand (standardProcedures ts n) ts (fun _ => n) e).2) op before after
        | .bootstrap k => bootstrapProcedures.run k op before after
        | .array => match before.toList, after.toList with
            | some b, some a => arrayOperator op b a
            | _, _ => .error (.paramType "pair")⟩

/-- What an assignment makes of its list. -/
def reduceAssignment (operatorExpand : Expr String → Result (Expr String)) (op : String) :
    List (Expr String) → List (Expr String) → Result (Reduction String)
  | [_], [] => .error (.staticArity ("too few args after \"" ++ op ++ "\""))
  | [x], [y] => .ok ⟨[], .ofList [.symbol op, x, y], []⟩
  | [x], a => do
      let r ← operatorExpand (.ofList a)
      .ok ⟨[], .ofList [.symbol op, x, r], []⟩
  | _, _ => .error (.staticArity ("too many args before \"" ++ op ++ "\""))

/-- What `=-` makes of its list. -/
def reduceArray (op : String) (before after : List (Expr String)) : Result (Reduction String) :=
  match before.getLast? with
  | none => .error (.paramType "pair")
  | some left => (reduceFunction op).map fun f => ⟨before.dropLast, .ofList [f, left], after⟩

/-- What they leave, and what they make of the rest. -/
def standardReduce (ts : OperatorTables String StandardOperator) :
    Nat → StandardOperator → String → List (Expr String) → List (Expr String) →
      Result (Reduction String)
  | 0, _, _, _, _ => .error .diverges
  | n + 1, .assignment, op, b, a => reduceAssignment
      (fun e => (operatorExpand (standardProcedures ts n) ts (fun _ => n) e).2) op b a
  | _ + 1, .bootstrap k, op, b, a => reduceBootstrap k op b a
  | _ + 1, .array, op, b, a => reduceArray op b a

theorem assignmentInfixOperator_ofList (expand : Expr String → Result (Expr String)) (op : String)
    (b a : List (Expr String)) : assignmentInfixOperator expand op (.ofList b) (.ofList a) =
      (reduceAssignment expand op b a).map Reduction.answer := by
  match b, a with
  | [], _ => rfl
  | [x], [] => rfl
  | [x], [y] => rfl
  | [x], y :: z :: a =>
    rw [reduceAssignment]
    · show (expand (.ofList (y :: z :: a)) >>= _) = _
      cases expand (.ofList (y :: z :: a)) <;> rfl
    · simp
    · simp
  | x :: x' :: b, _ => rfl

theorem arrayOperator_ofList (op : String) (b a : List (Expr String)) :
    arrayOperator op b a = (reduceArray op b a).map Reduction.answer := by
  rcases List.eq_nil_or_concat b with rfl | ⟨front, left, rfl⟩
  · rfl
  · rw [List.concat_eq_append, arrayOperator, splitBefore_append, reduceArray, List.getLast?_concat,
      List.dropLast_concat]
    cases reduceFunction op with
    | error f => rfl
    | ok opFunc => exact congrArg Except.ok (assemble_eq _ _ _)

/-- The standard procedures reduce. -/
theorem standardProcedures_standard (og : List (Group String StandardOperator))
    (ts : OperatorTables String StandardOperator) (n : Nat) :
    Standard og (standardProcedures ts n) (standardReduce ts n) := by
  refine .of_list ?_ ?_ ?_
  · cases n <;> exact fun _ => rfl
  · intro p s b a
    cases n with
    | zero => rfl
    | succ n =>
      cases p with
      | assignment => exact assignmentInfixOperator_ofList _ s b a
      | bootstrap k => exact bootstrapProcedures_run k s b a
      | array =>
        rw [standardReduce, ← arrayOperator_ofList]
        simp only [standardProcedures, Expr.toList_ofList]
  · intro p s b a ρ h
    cases n with
    | zero => cases h
    | succ n =>
      cases p with
      | assignment =>
        rw [standardReduce] at h
        unfold reduceAssignment at h
        split at h
        · cases h
        · cases h
          exact ⟨List.nil_prefix, List.nil_suffix, _, _, rfl⟩
        · obtain ⟨r, -, hr⟩ := bind_eq_ok.mp h
          cases hr
          exact ⟨List.nil_prefix, List.nil_suffix, _, _, rfl⟩
        · cases h
      | bootstrap k => exact reduceBootstrap_list h
      | array =>
        rw [standardReduce, reduceArray] at h
        split at h
        · cases h
        · cases hf : reduceFunction s with
          | error f =>
            rw [hf] at h
            cases h
          | ok f =>
            rw [hf] at h
            cases h
            exact ⟨List.dropLast_prefix _, List.suffix_refl _, _, _, rfl⟩

/-- The operators of `idio_expander_add_primitives`. -/
def primitiveOperators : List (OperatorCall String StandardOperator) :=
  ["=", ":=", ":+", ":*", ":~", ":$"].map fun s => .install .infixOperator s .assignment 1000

/-- With some of the bootstrap. -/
def standardOperators : List (OperatorCall String StandardOperator) :=
  primitiveOperators ++
    [.install .infixOperator "+" (.bootstrap .plus) 1100, .copy .infixOperator "*" 1200 "+",
      .install .postfixOperator "=-" .array 1300, .copy .postfixOperator "-=" 1300 "=-"]

/-- `x = 1 + 2 * 3`. -/
def assignSum : List (Expr String) :=
  [.symbol "x", .symbol "=", .other 1, .symbol "+", .other 2, .symbol "*", .other 3]

theorem operator_expansion_sum :
    ∃ calls r, Reduces (bothGroups (runCalls standardOperators))
        (reduceBoth (standardReduce (runCalls standardOperators) 1)) assignSum calls r ∧
      ((∃ fuel, operatorExpand (standardProcedures (runCalls standardOperators) 1)
          (runCalls standardOperators) fuel (.ofList assignSum) = (calls, r)) ↔
        ¬ OutOfOrder (runCalls standardOperators) (standardReduce (runCalls standardOperators) 1)
          assignSum) := by
  obtain ⟨calls, r, hreduces, -, hiff⟩ := operator_expansion standardOperators
    (standardProcedures (runCalls standardOperators) 1)
    (standardReduce (runCalls standardOperators) 1)
    (fun _ => standardProcedures_standard _ _ 1) assignSum
  exact ⟨calls, r, hreduces, hiff⟩

example : (operatorExpand (standardProcedures (runCalls standardOperators) 1)
    (runCalls standardOperators) (fun _ => 9) (.ofList assignSum)).2 =
      .ok (.ofList [.symbol "=", .symbol "x", .ofList [.symbol "binary-+", .other 1,
        .ofList [.symbol "binary-*", .other 2, .other 3]]]) := by
  decide

/-- `= = 3`. -/
def assignAssign : List (Expr String) := [.symbol "=", .symbol "=", .other 3]

/-- `1 + a =-`. -/
def sumPop : List (Expr String) := [.other 1, .symbol "+", .symbol "a", .symbol "=-"]

/-- The one reduction of `= = 3` gives the list back, and the expansion goes on for ever; of
`1 + a =-`, where `=-` has the higher priority, the sum is popped and not `a`. -/
theorem expansion_out_of_order :
    (Reduces (bothGroups (runCalls standardOperators))
        (reduceBoth (standardReduce (runCalls standardOperators) 1)) assignAssign
        [⟨(.infixOperator, .assignment), "=", .ofList [.symbol "="], .ofList [.other 3]⟩]
        (.ok (.ofList assignAssign)) ∧
      ∀ fuel, (operatorExpand (standardProcedures (runCalls standardOperators) 1)
        (runCalls standardOperators) fuel (.ofList assignAssign)).2 = .error .diverges) ∧
    (∃ calls, Reduces (bothGroups (runCalls standardOperators))
        (reduceBoth (standardReduce (runCalls standardOperators) 1)) sumPop calls
        (.ok (.ofList [.symbol "binary-+", .other 1,
          .ofList [.symbol "array-pop!", .symbol "a"]]))) ∧
    ∃ fuel, (operatorExpand (standardProcedures (runCalls standardOperators) 1)
      (runCalls standardOperators) fuel (.ofList sumPop)).2 =
        .ok (.ofList [.symbol "array-pop!",
          .ofList [.symbol "binary-+", .other 1, .symbol "a"]]) := by
  have hin : (runCalls standardOperators .infixOperator).groups =
      [(1200, [("*", .bootstrap .plus)]), (1100, [("+", .bootstrap .plus)]), (1000, [(":$", .assignment),
        (":~", .assignment), (":*", .assignment), (":+", .assignment), (":=", .assignment),
        ("=", .assignment)])] := by decide
  have hpost : (runCalls standardOperators .postfixOperator).groups =
      [(1300, [("-=", .array), ("=-", .array)])] := by decide
  have hboth : bothGroups (runCalls standardOperators) =
      (runCalls standardOperators .postfixOperator).groups.map (tagGroup .postfixOperator) ++
        (runCalls standardOperators .infixOperator).groups.map (tagGroup .infixOperator) := by
    rw [bothGroups, hin, hpost]
    simp [mergeGroups]
  rw [hin, hpost] at hboth
  refine ⟨⟨?_, fun fuel => ?_⟩, ?_, fun _ => 9, by decide⟩
  · have hleft : Leftmost (bothGroups (runCalls standardOperators)) assignAssign [.symbol "="] "="
        1000 (.infixOperator, .assignment) [.other 3] := by
      rw [hboth]
      exact ⟨rfl, by decide, by decide, by decide, by decide⟩
    have hreduce : reduceBoth (standardReduce (runCalls standardOperators) 1)
        (.infixOperator, .assignment) "=" [.symbol "="] [.other 3] =
          .ok ⟨[], .ofList assignAssign, []⟩ := rfl
    exact .alone hleft hreduce ⟨rfl, rfl⟩
  · -- the answer is the list again, in the last group
    have hlast : ∀ n, (commonOperatorExpand (standardProcedures (runCalls standardOperators) 1) n
        (.ofList assignAssign) [((1000 : Int), [(":$", StandardOperator.assignment),
          (":~", .assignment), (":*", .assignment), (":+", .assignment), (":=", .assignment),
          ("=", .assignment)])]).2 = .error .diverges := by
      intro n
      induction n with
      | zero => rfl
      | succ n ih => exact ih
    have hdiverges : (commonOperatorExpand (standardProcedures (runCalls standardOperators) 1)
        (fuel .infixOperator) (.ofList assignAssign)
        (runCalls standardOperators .infixOperator).groups).2 = .error .diverges := by
      rw [hin]
      rcases fuel .infixOperator with _ | _ | n
      · rfl
      · rfl
      · exact hlast n
    rw [operatorExpand, thenPostfix, hdiverges]
  · have hpop : Leftmost (bothGroups (runCalls standardOperators)) sumPop
        [.other 1, .symbol "+", .symbol "a"] "=-" 1300 (.postfixOperator, .array) [] := by
      rw [hboth]
      exact ⟨rfl, by decide, by decide, by decide, by decide⟩
    have hsum : Leftmost (bothGroups (runCalls standardOperators))
        [.other 1, .symbol "+", .ofList [.symbol "array-pop!", .symbol "a"]] [.other 1] "+" 1100
        (.infixOperator, .bootstrap .plus) [.ofList [.symbol "array-pop!", .symbol "a"]] := by
      rw [hboth]
      exact ⟨rfl, by decide, by decide, by decide, by decide⟩
    exact ⟨_, .next (ρ := ⟨[.other 1, .symbol "+"], .ofList [.symbol "array-pop!", .symbol "a"], []⟩)
      hpop rfl (by decide) (.alone (ρ := ⟨[], _, []⟩) hsum rfl ⟨rfl, rfl⟩)⟩

end Idio
