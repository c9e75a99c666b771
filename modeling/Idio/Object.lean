/-
  Object.lean --- class precedence lists.

  A class instance has a name, the list of its direct supers and its class
  precedence list, `cpl`.  `idio_object_add_primitives` makes the classes of the
  base graph, each below one other class; `define-class` adds a class below any
  list of classes that exist, and `initialize` fills in its `cpl` by the method
  `compute-cpl`, which is modelled with its helper loops `any?`, `every?` and
  `merge`.  Class instances are numbered in the order they are allocated, so `eq?`
  is equality of numbers.

  A truth value of the language is an `Option` where the value matters: `none` is
  `#f`.  The slots of a class, its metaclass and further methods of `compute-cpl`
  are not modelled.
-/
import Idio.Basic
import Idio.Lib.Linearise

set_option autoImplicit false

namespace Idio

open Linearise

/-- A class instance, less the fields that concern its slots. -/
structure ClassInst where
  name : String
  directSupers : List Nat
  cpl : List Nat
  deriving DecidableEq, Repr

/-- The class instances and the classes that names are bound to, the latest
binding first. -/
structure ClassGraph where
  insts : List ClassInst
  named : List (String × Nat)
  deriving DecidableEq, Repr

namespace ClassGraph

/-- `class-name` -/
def className (g : ClassGraph) (cl : Nat) : String :=
  (g.insts[cl]?.map ClassInst.name).getD ""

/-- `class-direct-supers` -/
def classDirectSupers (g : ClassGraph) (cl : Nat) : List Nat :=
  (g.insts[cl]?.map ClassInst.directSupers).getD []

/-- `class-cpl` -/
def classCpl (g : ClassGraph) (cl : Nat) : List Nat :=
  (g.insts[cl]?.map ClassInst.cpl).getD []

end ClassGraph

/-! ## The base graph -/

/-- `idio_simple_cpl`: the first super, its first super and so on. -/
def simpleCpl (g : ClassGraph) : Nat → List Nat → List Nat → Result (List Nat)
  | 0, _, _ => .error .diverges
  | _ + 1, [], r => .ok r.reverse
  | fuel + 1, super :: _, r => simpleCpl g fuel (g.classDirectSupers super) (super :: r)

/-- `idio_simple_make_class`, with the export of the class under its name. -/
def simpleMakeClass (g : ClassGraph) (name : String) (directSupers : List Nat) :
    Result ClassGraph := do
  let inst := g.insts.length
  let cpl ← simpleCpl g (g.insts.length + 1) directSupers [inst]
  return { insts := g.insts ++ [⟨name, directSupers, cpl⟩]
           named := (name, inst) :: g.named }

def classInst : Nat := 0
def topInst : Nat := 1
def objectInst : Nat := 2
def procClassInst : Nat := 3
def builtinClassInst : Nat := 7

/-- The classes made by `IDIO_EXPORT_SIMPLE_CLASS` and in its way, in order, with
the super of each. -/
def simpleClasses : List (String × Nat) :=
  [("<procedure-class>", classInst), ("<entity-class>", procClassInst),
   ("<generic>", objectInst), ("<method>", objectInst), ("<builtin-class>", topInst)]

/-- The classes made by `IDIO_EXPORT_PRIMITIVE_CLASS` and
`IDIO_EXPORT_PROCEDURE_CLASS`, in order; all are below `<builtin-class>`. -/
def primitiveClasses : List String :=
  ["<fixnum>", "<constant>", "<constant-token>", "<constant-i-code>", "<unicode>",
   "<PLACEHOLDER>", "<string>", "<substring>", "<symbol>", "<keyword>", "<pair>",
   "<array>", "<hash>", "<bignum>", "<module>", "<frame>", "<handle>", "<C/char>",
   "<C/schar>", "<C/uchar>", "<C/short>", "<C/ushort>", "<C/int>", "<C/uint>",
   "<C/long>", "<C/ulong>", "<C/longlong>", "<C/ulonglong>", "<C/float>", "<C/double>",
   "<C/longdouble>", "<C/pointer>", "<struct-type>", "<struct-instance>", "<thread>",
   "<continuation>", "<bitset>", "<closure>", "<primitive>"]

/-- The part of `idio_object_add_primitives` that makes the classes. -/
def objectAddPrimitives : Result ClassGraph := do
  let g : ClassGraph := ⟨[⟨"<class>", [], []⟩], [("<class>", classInst)]⟩
  let g ← simpleMakeClass g "<top>" []
  let g ← simpleMakeClass g "<object>" [topInst]
  -- patch up `<class>` with `<object>` and `<top>`
  let g := { g with insts := g.insts.set classInst
                      ⟨"<class>", [objectInst], [classInst, objectInst, topInst]⟩ }
  let g ← simpleClasses.foldlM (fun g c => simpleMakeClass g c.1 [c.2]) g
  primitiveClasses.foldlM (fun g name => simpleMakeClass g name [builtinClassInst]) g

/-! ## compute-cpl -/

section Helpers

variable {α β : Type}

/-- `compute-cpl/class/any?/loop` -/
def anyLoop (p : α → Option β) : α → List α → Option β
  | h, [] => p h
  | h, ph :: pt => (p h).or (anyLoop p ph pt)

/-- `any?` of `compute-cpl` -/
def anyP (p : α → Option β) : List α → Option β
  | [] => none
  | ph :: pt => anyLoop p ph pt

/-- `compute-cpl/class/every?/loop` -/
def everyLoop (p : α → Bool) : α → List α → Bool
  | h, [] => p h
  | h, ph :: pt => p h && everyLoop p ph pt

/-- `every?` of `compute-cpl` -/
def everyP (p : α → Bool) : List α → Bool
  | [] => true
  | ph :: pt => everyLoop p ph pt

theorem anyLoop_eq (p : α → Option β) (h : α) (t : List α) :
    anyLoop p h t = (h :: t).findSome? p := by
  induction t generalizing h with
  | nil => cases hp : p h <;> simp [anyLoop, hp]
  | cons x t ih =>
    rw [anyLoop, ih]
    cases hp : p h <;> simp [List.findSome?_cons, hp]

theorem anyP_eq (p : α → Option β) (l : List α) : anyP p l = l.findSome? p := by
  cases l with
  | nil => rfl
  | cons x l => exact anyLoop_eq p x l

theorem everyLoop_eq (p : α → Bool) (h : α) (t : List α) :
    everyLoop p h t = (h :: t).all p := by
  induction t generalizing h with
  | nil => simp [everyLoop]
  | cons x t ih => rw [everyLoop, ih, List.all_cons (a := h)]

theorem everyP_eq (p : α → Bool) (l : List α) : everyP p l = l.all p := by
  cases l with
  | nil => rfl
  | cons x l => exact everyLoop_eq p x l

end Helpers

/-- `memq` -/
def memq (c : Nat) : List Nat → Option (List Nat)
  | [] => none
  | h :: t => if h = c then some (h :: t) else memq c t

/-- `tail?` of `candidate` -/
def tailP (c : Nat) : List Nat → Option (List Nat)
  | [] => none
  | _ :: t => memq c t

/-- `candidate` of `merge` -/
def candidate (remainingInputs : List (List Nat)) (c : Nat) : Option Nat :=
  if (anyP (tailP c) remainingInputs).isSome then none else some c

/-- `candidate-at-head` of `merge` -/
def candidateAtHead (remainingInputs : List (List Nat)) : List Nat → Option Nat
  | [] => none
  | h :: _ => candidate remainingInputs h

/-- `remove-next` of `merge` -/
def removeNext (next : Nat) : List Nat → List Nat
  | [] => []
  | h :: t => if h = next then t else h :: t

/-- The condition that `merge` raises. -/
def inconsistentGraph (name : String) : Fault :=
  .instanceError "compute-cpl" ("inconsistent precedence graph for class " ++ name)

/-- `merge` of `compute-cpl`, for the class called `name`. -/
def mergeInputs (name : String) : Nat → List Nat → List (List Nat) → Result (List Nat)
  | 0, _, _ => .error .diverges
  | fuel + 1, reversedPartialResult, remainingInputs =>
      if everyP List.isEmpty remainingInputs then
        .ok reversedPartialResult.reverse
      else
        match anyP (candidateAtHead remainingInputs) remainingInputs with
        | some next =>
            mergeInputs name fuel (next :: reversedPartialResult)
              (remainingInputs.map (removeNext next))
        | none => .error (inconsistentGraph name)

namespace ClassGraph

/-- The inputs of `merge`: the precedence lists of the direct supers and the list of
these. -/
def orders (g : ClassGraph) (cl : Nat) : List (List Nat) :=
  (g.classDirectSupers cl).map g.classCpl ++ [g.classDirectSupers cl]

/-- The method `compute-cpl` of `<class>`. -/
def computeCpl (g : ClassGraph) (cl : Nat) : Result (List Nat) :=
  mergeInputs (g.className cl) ((g.orders cl).flatten.length + 1) [cl] (g.orders cl)

/-! ## define-class -/

/-- `class-instance` of a symbol -/
def classInstance (g : ClassGraph) (name : String) : Result Nat :=
  match g.named.lookup name with
  | some cl => .ok cl
  | none => .error (.paramTypeMsg "class or the name of a class")

/-- The graph with the instance that `make-instance` allocates, before its `cpl` is
filled in. -/
def allocate (g : ClassGraph) (name : String) (supers : List Nat) : ClassGraph :=
  { g with insts := g.insts ++ [⟨name, supers, []⟩] }

/-- `make-class`: the instance is allocated and initialized; a condition leaves it
to the collector. -/
def makeClass (g : ClassGraph) (name : String) (supers : List Nat) : Result ClassGraph := do
  let cpl ← (g.allocate name supers).computeCpl g.insts.length
  return { insts := g.insts ++ [⟨name, supers, cpl⟩]
           named := g.named }

/-- The expansion of `define-class`. -/
def defineClass (g : ClassGraph) (name : String) (supers : List String) :
    Result ClassGraph := do
  let supers ← (if supers = [] then ["<object>"] else supers).mapM g.classInstance
  let g' ← g.makeClass name supers
  return { g' with named := (name, g.insts.length) :: g'.named }

/-- The graphs that a sequence of `define-class` forms builds.  A form that raises a
condition leaves the graph as it was. -/
inductive Built : ClassGraph → Prop where
  | base {g : ClassGraph} : objectAddPrimitives = .ok g → Built g
  | defineClass {g g' : ClassGraph} {name : String} {supers : List String} :
      Built g → g.defineClass name supers = .ok g' → Built g'

end ClassGraph

/-! ## The helper loops find a candidate -/

theorem isSome_memq (c : Nat) (l : List Nat) : (memq c l).isSome = true ↔ c ∈ l := by
  induction l with
  | nil => simp [memq]
  | cons h t ih =>
    by_cases hc : h = c
    · simp [memq, hc]
    · have hne : c ≠ h := fun heq => hc heq.symm
      simp [memq, hc, hne, ih]

theorem isSome_tailP (c : Nat) (l : List Nat) : (tailP c l).isSome = true ↔ c ∈ l.tail := by
  cases l with
  | nil => simp [tailP]
  | cons h t => exact isSome_memq c t

variable {L : List (List Nat)} {c : Nat}

theorem candidate_eq_some {d : Nat} :
    candidate L c = some d ↔ d = c ∧ InNoTail L c := by
  have htails : (anyP (tailP c) L).isSome = true ↔ ¬ InNoTail L c := by
    rw [anyP_eq, List.findSome?_isSome_iff]
    simp [isSome_tailP, InNoTail]
  unfold candidate
  by_cases h : InNoTail L c
  · have hfalse : ¬ (anyP (tailP c) L).isSome = true := fun hs => htails.mp hs h
    simp [hfalse, h, eq_comm]
  · simp [htails.mpr h, h]

theorem candidateAtHead_eq_some {l : List Nat} :
    candidateAtHead L l = some c ↔ l.head? = some c ∧ InNoTail L c := by
  cases l with
  | nil => simp [candidateAtHead]
  | cons h t =>
    simp only [candidateAtHead, candidate_eq_some, List.head?_cons, Option.some.injEq]
    constructor
    · rintro ⟨rfl, hc⟩
      exact ⟨rfl, hc⟩
    · rintro ⟨rfl, hc⟩
      exact ⟨rfl, hc⟩

/-- `next` is a head that is in no tail. -/
theorem next_of_some {next : Nat} (h : anyP (candidateAtHead L) L = some next) :
    (∃ l ∈ L, l.head? = some next) ∧ InNoTail L next := by
  rw [anyP_eq] at h
  obtain ⟨l, hl, hnext⟩ := List.exists_of_findSome?_eq_some h
  obtain ⟨hhead, htail⟩ := candidateAtHead_eq_some.mp hnext
  exact ⟨⟨l, hl, hhead⟩, htail⟩

/-- Where `any?` finds none, no head is in no tail. -/
theorem next_of_none (h : anyP (candidateAtHead L) L = none) (hhead : ∃ l ∈ L, l.head? = some c) :
    ¬ InNoTail L c := by
  intro htail
  obtain ⟨l, hl, hc⟩ := hhead
  rw [anyP_eq, List.findSome?_eq_none_iff] at h
  have hsome := candidateAtHead_eq_some.mpr ⟨hc, htail⟩
  rw [h l hl] at hsome
  cases hsome

theorem removeNext_eq (next : Nat) (l : List Nat) : removeNext next l = dropHead next l := by
  cases l with
  | nil => rfl
  | cons h t => simp [removeNext, dropHead]

/-! ## merge -/

/-- `merge` ends: with a linearisation of its inputs, or with the condition where
these have a cycle. -/
theorem mergeInputs_outcome (name : String) (fuel : Nat) (r : List Nat) (L : List (List Nat))
    (hfuel : L.flatten.length < fuel) :
    (∃ out, Linearises L out ∧ mergeInputs name fuel r L = .ok (r.reverse ++ out)) ∨
      (Cyclic L ∧ mergeInputs name fuel r L = .error (inconsistentGraph name)) := by
  induction fuel generalizing r L with
  | zero => exact absurd hfuel (Nat.not_lt_zero _)
  | succ fuel ih =>
    unfold mergeInputs
    by_cases hdone : everyP List.isEmpty L = true
    · rw [if_pos hdone]
      have hnil : ∀ l ∈ L, l = [] := by
        intro l hl
        rw [everyP_eq, List.all_eq_true] at hdone
        exact List.isEmpty_iff.mp (hdone l hl)
      exact Or.inl ⟨[], linearises_nil hnil, by simp⟩
    · rw [if_neg hdone]
      cases hnext : anyP (candidateAtHead L) L with
      | some next =>
        obtain ⟨hhead, htail⟩ := next_of_some hnext
        have hmap : L.map (removeNext next) = L.map (dropHead next) :=
          List.map_congr_left fun l _ => removeNext_eq next l
        have hlt := length_flatten_dropHead hhead
        simp only [hmap]
        rcases ih (next :: r) (L.map (dropHead next)) (by omega) with
          ⟨out, hout, heq⟩ | ⟨hcyclic, heq⟩
        · exact Or.inl ⟨next :: out, hout.cons hhead htail, by simp [heq]⟩
        · exact Or.inr ⟨hcyclic.of_dropHead, heq⟩
      | none =>
        refine Or.inr ⟨?_, rfl⟩
        -- a family without a cycle would have had a candidate
        by_contra hacyclic
        have hne : ∃ l ∈ L, l ≠ [] := by
          simpa [everyP_eq, List.isEmpty_iff] using hdone
        obtain ⟨c, hhead, htail⟩ := exists_candidate hacyclic hne
        exact next_of_none hnext hhead htail

namespace ClassGraph

/-- The outcome of `compute-cpl`. -/
theorem computeCpl_outcome (g : ClassGraph) (cl : Nat) :
    (∃ out, Linearises (g.orders cl) out ∧ g.computeCpl cl = .ok (cl :: out)) ∨
      (Cyclic (g.orders cl) ∧
        g.computeCpl cl = .error (inconsistentGraph (g.className cl))) :=
  mergeInputs_outcome _ _ [cl] _ (Nat.lt_succ_self _)

/-! ## Graphs built by define-class -/

/-- `s` is a direct super of `c`. -/
def DirectSuper (g : ClassGraph) (c s : Nat) : Prop :=
  s ∈ g.classDirectSupers c

/-- `a` is the class `c` or one of its ancestors. -/
def Ancestor (g : ClassGraph) : Nat → Nat → Prop :=
  Relation.ReflTransGen g.DirectSuper

/-- What a precedence list of `c` is: it begins with `c`, holds `c` and each of its
ancestors once, and keeps the order of the direct supers and of the precedence list
of each. -/
structure IsPrecedenceList (g : ClassGraph) (c : Nat) (l : List Nat) : Prop where
  head : l.head? = some c
  nodup : l.Nodup
  members : ∀ a, a ∈ l ↔ g.Ancestor c a
  supers : (g.classDirectSupers c).Sublist l
  supersCpl : ∀ s ∈ g.classDirectSupers c, (g.classCpl s).Sublist l

/-- The precedence lists of the graph are those `compute-cpl` gives. -/
structure Sound (g : ClassGraph) : Prop where
  supers_lt : ∀ c s, s ∈ g.classDirectSupers c → s < g.insts.length
  named_lt : ∀ p ∈ g.named, p.2 < g.insts.length
  nodup : ∀ c, (g.classCpl c).Nodup
  computed : ∀ c, c < g.insts.length → g.computeCpl c = .ok (g.classCpl c)

variable {c : Nat} {g : ClassGraph}

/-- A list keeps the orders of a class if it keeps that of its supers and those of
their precedence lists. -/
theorem keeps_orders_iff {l : List Nat} :
    (∀ k ∈ g.orders c, k.Sublist l) ↔
      (g.classDirectSupers c).Sublist l ∧
        ∀ s ∈ g.classDirectSupers c, (g.classCpl s).Sublist l := by
  simp only [orders, List.mem_append, List.mem_map, List.mem_singleton]
  constructor
  · intro h
    exact ⟨h _ (Or.inr rfl), fun s hs => h _ (Or.inl ⟨s, hs, rfl⟩)⟩
  · rintro ⟨hsupers, hcpl⟩ k (⟨s, hs, rfl⟩ | rfl)
    · exact hcpl s hs
    · exact hsupers

variable {a : Nat}

theorem mem_orders_iff :
    (∃ k ∈ g.orders c, a ∈ k) ↔
      a ∈ g.classDirectSupers c ∨ ∃ s ∈ g.classDirectSupers c, a ∈ g.classCpl s := by
  simp only [orders, List.mem_append, List.mem_map, List.mem_singleton]
  constructor
  · rintro ⟨k, ⟨s, hs, rfl⟩ | rfl, ha⟩
    · exact Or.inr ⟨s, hs, ha⟩
    · exact Or.inl ha
  · rintro (ha | ⟨s, hs, ha⟩)
    · exact ⟨_, Or.inr rfl, ha⟩
    · exact ⟨_, Or.inl ⟨s, hs, rfl⟩, ha⟩

/-- The precedence list of a class of a sound graph. -/
theorem Sound.linearised (hg : g.Sound) (hc : c < g.insts.length) :
    ∃ out, g.classCpl c = c :: out ∧ Linearises (g.orders c) out := by
  have hcomputed := hg.computed c hc
  rcases g.computeCpl_outcome c with ⟨out, hout, heq⟩ | ⟨-, heq⟩
  · rw [hcomputed] at heq
    injection heq with heq
    exact ⟨out, heq, hout⟩
  · rw [hcomputed] at heq
    cases heq

/-- A class of a sound graph stands in its own precedence list. -/
theorem Sound.mem_self (hg : g.Sound) (hc : c < g.insts.length) :
    c ∈ g.classCpl c := by
  obtain ⟨out, heq, -⟩ := hg.linearised hc
  simp [heq]

/-- The precedence list of a class holds the class and its ancestors. -/
theorem Sound.mem_cpl_iff (hg : g.Sound) (hc : c < g.insts.length) :
    a ∈ g.classCpl c ↔ g.Ancestor c a := by
  constructor
  · -- by induction on the length of the list: that of a super is a part of it
    intro ha
    induction hn : (g.classCpl c).length using Nat.strong_induction_on generalizing c with
    | _ n ih =>
      obtain ⟨out, heq, hout⟩ := hg.linearised hc
      have hkeeps := keeps_orders_iff.mp hout.keeps
      rw [heq] at ha
      rcases List.mem_cons.mp ha with rfl | ha
      · exact Relation.ReflTransGen.refl
      · rcases mem_orders_iff.mp ((hout.members a).mp ha) with hs | ⟨s, hs, has⟩
        · exact Relation.ReflTransGen.single hs
        · have hlen := (hkeeps.2 s hs).length_le
          have hlt : (g.classCpl s).length < n := by
            rw [← hn, heq, List.length_cons]
            omega
          exact Relation.ReflTransGen.head hs (ih _ hlt (hg.supers_lt c s hs) has rfl)
  · intro ha
    induction ha using Relation.ReflTransGen.head_induction_on with
    | refl => exact hg.mem_self hc
    | @head b s hs _ ih =>
      obtain ⟨out, heq, hout⟩ := hg.linearised hc
      have hsub := (keeps_orders_iff.mp hout.keeps).2 s hs
      rw [heq]
      exact List.mem_cons_of_mem _ (hsub.subset (ih (hg.supers_lt b s hs)))

/-- The precedence list of a class holds classes of the graph. -/
theorem Sound.cpl_lt (hg : g.Sound) (hc : c < g.insts.length) (ha : a ∈ g.classCpl c) :
    a < g.insts.length := by
  have hanc := (hg.mem_cpl_iff hc).mp ha
  induction hanc with
  | refl => exact hc
  | tail _ hs _ => exact hg.supers_lt _ _ hs

/-! ## A new class leaves the others alone -/

/-- The classes of `g` are in `g'` as they were. -/
structure Extends (g g' : ClassGraph) : Prop where
  name : ∀ c, c < g.insts.length → g'.className c = g.className c
  supers : ∀ c, c < g.insts.length → g'.classDirectSupers c = g.classDirectSupers c
  cpl : ∀ c, c < g.insts.length → g'.classCpl c = g.classCpl c

/-- A graph with one more instance. -/
def withInst (g : ClassGraph) (inst : ClassInst) : ClassGraph :=
  { g with insts := g.insts ++ [inst] }

theorem extends_withInst (g : ClassGraph) (inst : ClassInst) : g.Extends (g.withInst inst) := by
  have hold : ∀ c, c < g.insts.length → (g.insts ++ [inst])[c]? = g.insts[c]? :=
    fun c hc => List.getElem?_append_left hc
  refine ⟨fun c hc => ?_, fun c hc => ?_, fun c hc => ?_⟩
  · simp only [className, withInst, hold c hc]
  · simp only [classDirectSupers, withInst, hold c hc]
  · simp only [classCpl, withInst, hold c hc]

/-- The fields of the new instance. -/
theorem withInst_new (g : ClassGraph) (inst : ClassInst) :
    (g.withInst inst).className g.insts.length = inst.name ∧
      (g.withInst inst).classDirectSupers g.insts.length = inst.directSupers ∧
      (g.withInst inst).classCpl g.insts.length = inst.cpl := by
  simp [className, classDirectSupers, classCpl, withInst]

theorem allocate_supers (g : ClassGraph) (name : String) (supers : List Nat) :
    (g.allocate name supers).classDirectSupers g.insts.length = supers :=
  (g.withInst_new ⟨name, supers, []⟩).2.1

variable {g' : ClassGraph}

/-- `compute-cpl` reads the name of the class and its orders only. -/
theorem computeCpl_congr (hname : g'.className c = g.className c)
    (horders : g'.orders c = g.orders c) : g'.computeCpl c = g.computeCpl c := by
  rw [computeCpl, computeCpl, hname, horders]

theorem orders_congr (hsupers : g'.classDirectSupers c = g.classDirectSupers c)
    (hcpl : ∀ s ∈ g.classDirectSupers c, g'.classCpl s = g.classCpl s) :
    g'.orders c = g.orders c := by
  rw [orders, orders, hsupers, List.map_congr_left hcpl]

theorem Extends.computeCpl (h : g.Extends g') (hg : g.Sound) (hc : c < g.insts.length) :
    g'.computeCpl c = g.computeCpl c := by
  refine computeCpl_congr (h.name c hc) (orders_congr (h.supers c hc) fun s hs => ?_)
  exact h.cpl s (hg.supers_lt c s hs)

/-- A class of `g` has the ancestors in `g'` that it has in `g`. -/
theorem Extends.ancestor_iff (h : g.Extends g') (hg : g.Sound) (hc : c < g.insts.length) :
    g'.Ancestor c a ↔ g.Ancestor c a := by
  constructor
  · intro ha
    induction ha using Relation.ReflTransGen.head_induction_on with
    | refl => exact Relation.ReflTransGen.refl
    | @head b s hs _ ih =>
      rw [DirectSuper, h.supers b hc] at hs
      exact Relation.ReflTransGen.head hs (ih (hg.supers_lt b s hs))
  · intro ha
    induction ha using Relation.ReflTransGen.head_induction_on with
    | refl => exact Relation.ReflTransGen.refl
    | @head b s hs _ ih =>
      have hs' : g'.DirectSuper b s := by
        rw [DirectSuper, h.supers b hc]
        exact hs
      exact Relation.ReflTransGen.head hs' (ih (hg.supers_lt b s hs))

/-! ## What compute-cpl gives -/

/-- The list that a linearisation of the orders of a class makes, where the
precedence lists of its supers hold their ancestors. -/
theorem isPrecedenceList_cons {out : List Nat}
    (hancestors : ∀ s ∈ g.classDirectSupers c, ∀ a, a ∈ g.classCpl s ↔ g.Ancestor s a)
    (hnew : c ∉ out) (hout : Linearises (g.orders c) out) :
    g.IsPrecedenceList c (c :: out) := by
  obtain ⟨hsupers, hcpl⟩ := keeps_orders_iff.mp hout.keeps
  refine ⟨rfl, List.nodup_cons.mpr ⟨hnew, hout.nodup⟩, fun a => ?_, hsupers.cons c,
    fun s hs => (hcpl s hs).cons c⟩
  rw [List.mem_cons, hout.members, mem_orders_iff]
  constructor
  · rintro (rfl | hs | ⟨s, hs, ha⟩)
    · exact Relation.ReflTransGen.refl
    · exact Relation.ReflTransGen.single hs
    · exact Relation.ReflTransGen.head hs ((hancestors s hs a).mp ha)
  · intro ha
    rcases Relation.ReflTransGen.cases_head ha with rfl | ⟨s, hs, ha⟩
    · exact Or.inl rfl
    · exact Or.inr (Or.inr ⟨s, hs, (hancestors s hs a).mpr ha⟩)

/-- What is to be shown of `compute-cpl` on the class `c`. -/
structure ComputesCpl (g : ClassGraph) (c : Nat) : Prop where
  /-- it ends, with a list or with the condition -/
  ends : (∃ l, g.computeCpl c = .ok l) ∨
    g.computeCpl c = .error (inconsistentGraph (g.className c))
  /-- the list is a precedence list of the class -/
  list : ∀ l, g.computeCpl c = .ok l → g.IsPrecedenceList c l
  /-- the condition is raised where the orders have a cycle -/
  raises_iff : g.computeCpl c = .error (inconsistentGraph (g.className c)) ↔
    Cyclic (g.orders c)
  /-- the orders have a cycle where there is no precedence list -/
  cyclic_iff : Cyclic (g.orders c) ↔ ¬ ∃ l, g.IsPrecedenceList c l

/-- A precedence list excludes a cycle. -/
theorem IsPrecedenceList.acyclic {l : List Nat} (h : g.IsPrecedenceList c l) :
    ¬ Cyclic (g.orders c) :=
  acyclic_of_keeps h.nodup (keeps_orders_iff.mpr ⟨h.supers, h.supersCpl⟩)

/-- `compute-cpl` is right where the precedence lists of the supers hold their
ancestors and the class is not among these. -/
theorem computesCpl_of_supers
    (hancestors : ∀ s ∈ g.classDirectSupers c, ∀ a, a ∈ g.classCpl s ↔ g.Ancestor s a)
    (hnew : ∀ out, Linearises (g.orders c) out → g.computeCpl c = .ok (c :: out) → c ∉ out) :
    g.ComputesCpl c := by
  rcases g.computeCpl_outcome c with ⟨out, hout, heq⟩ | ⟨hcyclic, heq⟩
  · have hlist : g.IsPrecedenceList c (c :: out) :=
      isPrecedenceList_cons hancestors (hnew out hout heq) hout
    refine ⟨Or.inl ⟨_, heq⟩, fun l hl => ?_, ⟨fun herror => ?_, fun h => ?_⟩,
      ⟨fun h => ?_, fun h => ?_⟩⟩
    · obtain rfl : c :: out = l := by simpa [heq] using hl
      exact hlist
    · rw [heq] at herror
      cases herror
    · exact absurd h hlist.acyclic
    · exact absurd h hlist.acyclic
    · exact absurd ⟨_, hlist⟩ h
  · refine ⟨Or.inr heq, fun l hl => ?_, ⟨fun _ => hcyclic, fun _ => heq⟩,
      ⟨fun h => ?_, fun _ => hcyclic⟩⟩
    · rw [heq] at hl
      cases hl
    · rintro ⟨l, hl⟩
      exact hl.acyclic h

/-- `compute-cpl` of a class of a sound graph. -/
theorem Sound.computesCpl (hg : g.Sound) (hc : c < g.insts.length) :
    g.ComputesCpl c := by
  refine computesCpl_of_supers (fun s hs a => hg.mem_cpl_iff (hg.supers_lt c s hs)) ?_
  intro out _ heq
  rw [hg.computed c hc] at heq
  injection heq with heq
  have hnodup := hg.nodup c
  rw [heq] at hnodup
  exact (List.nodup_cons.mp hnodup).1

variable {supers : List Nat} {name : String}

/-- The members of the orders of a class below classes of `g` are classes of `g`. -/
theorem Sound.orders_lt (hg : g.Sound) (hs : ∀ s ∈ supers, s < g.insts.length)
    (ha : ∃ k ∈ (g.allocate name supers).orders g.insts.length, a ∈ k) : a < g.insts.length := by
  have hext := g.extends_withInst ⟨name, supers, []⟩
  have hsupers := g.allocate_supers name supers
  rcases mem_orders_iff.mp ha with h | ⟨s, h, hcpl⟩
  · rw [hsupers] at h
    exact hs a h
  · rw [hsupers] at h
    have hsame : (g.allocate name supers).classCpl s = g.classCpl s := hext.cpl s (hs s h)
    rw [hsame] at hcpl
    exact hg.cpl_lt (hs s h) hcpl

/-- `compute-cpl` of a new class below classes of a sound graph. -/
theorem Sound.computesCpl_allocate (hg : g.Sound) (name : String)
    (hs : ∀ s ∈ supers, s < g.insts.length) :
    (g.allocate name supers).ComputesCpl g.insts.length := by
  have hext := g.extends_withInst ⟨name, supers, []⟩
  refine computesCpl_of_supers (fun s h a => ?_) fun out hout _ hmem => ?_
  · rw [g.allocate_supers] at h
    have hlt := hs s h
    have hcpl : (g.allocate name supers).classCpl s = g.classCpl s := hext.cpl s hlt
    rw [hcpl, hg.mem_cpl_iff hlt]
    exact (hext.ancestor_iff hg hlt).symm
  · exact Nat.lt_irrefl _ (hg.orders_lt hs ((hout.members _).mp hmem))

/-! ## Every graph built is sound -/

theorem getD_append_inst {β : Type} (f : ClassInst → β) (d : β) (insts : List ClassInst)
    (inst : ClassInst) (c : Nat) :
    (((insts ++ [inst])[c]?).map f).getD d =
      if c = insts.length then f inst else ((insts[c]?).map f).getD d := by
  rcases Nat.lt_trichotomy c insts.length with h | h | h
  · rw [List.getElem?_append_left h, if_neg (by omega)]
  · simp [h]
  · rw [if_neg (by omega), List.getElem?_eq_none (by simp; omega),
      List.getElem?_eq_none (by omega)]

/-- `make-class` keeps a graph sound. -/
theorem Sound.makeClass (hg : g.Sound) (hs : ∀ s ∈ supers, s < g.insts.length)
    (h : g.makeClass name supers = .ok g') :
    g'.Sound ∧ g'.named = g.named ∧ g'.insts.length = g.insts.length + 1 := by
  obtain ⟨cpl, hcpl, heq⟩ := bind_eq_ok.mp h
  injection heq with heq
  have hlist := (hg.computesCpl_allocate name hs).list cpl hcpl
  have hsupers : ∀ c, g'.classDirectSupers c =
      if c = g.insts.length then supers else g.classDirectSupers c := by
    intro c
    rw [← heq]
    exact getD_append_inst ClassInst.directSupers [] g.insts _ c
  have hcpls : ∀ c, g'.classCpl c = if c = g.insts.length then cpl else g.classCpl c := by
    intro c
    rw [← heq]
    exact getD_append_inst ClassInst.cpl [] g.insts _ c
  have hlength : g'.insts.length = g.insts.length + 1 := by simp [← heq]
  have hnamed : g'.named = g.named := by rw [← heq]
  have hext : g.Extends g' := by
    have hext := g.extends_withInst ⟨name, supers, cpl⟩
    rw [← heq]
    exact ⟨hext.name, hext.supers, hext.cpl⟩
  refine ⟨⟨fun c s h => ?_, fun p hp => ?_, fun c => ?_, fun c hc => ?_⟩, hnamed, hlength⟩
  · rw [hlength]
    rw [hsupers] at h
    split at h
    · exact Nat.lt_succ_of_lt (hs s h)
    · exact Nat.lt_succ_of_lt (hg.supers_lt c s h)
  · rw [hlength]
    exact Nat.lt_succ_of_lt (hg.named_lt p (hnamed ▸ hp))
  · rw [hcpls]
    split
    · exact hlist.nodup
    · exact hg.nodup c
  · rcases Nat.lt_or_eq_of_le (Nat.le_of_lt_succ (hlength ▸ hc)) with hlt | rfl
    · rw [hext.computeCpl hg hlt, hext.cpl c hlt]
      exact hg.computed c hlt
    · have hsame : g'.computeCpl g.insts.length =
          (g.allocate name supers).computeCpl g.insts.length := by
        have hext' := g.extends_withInst ⟨name, supers, []⟩
        refine computeCpl_congr ?_ (orders_congr ?_ fun s h => ?_)
        · rw [← heq]
          exact (g.withInst_new ⟨name, supers, cpl⟩).1.trans
            (g.withInst_new ⟨name, supers, []⟩).1.symm
        · rw [hsupers, if_pos rfl, allocate_supers]
        · rw [allocate_supers] at h
          exact (hext.cpl s (hs s h)).trans (hext'.cpl s (hs s h)).symm
      rw [hsame, hcpl, hcpls, if_pos rfl]

theorem mem_of_lookup {named : List (String × Nat)} (h : named.lookup name = some c) :
    (name, c) ∈ named := by
  induction named with
  | nil => simp at h
  | cons p named ih =>
    rw [List.lookup_cons] at h
    split at h
    · rename_i hname
      obtain rfl : p.2 = c := by simpa using h
      rw [beq_iff_eq] at hname
      simp [hname]
    · exact List.mem_cons_of_mem _ (ih h)

theorem Sound.classInstance_lt (hg : g.Sound) (h : g.classInstance name = .ok c) :
    c < g.insts.length := by
  unfold classInstance at h
  split at h
  · rename_i d hd
    injection h with h
    exact h ▸ hg.named_lt _ (mem_of_lookup hd)
  · cases h

theorem Sound.mapM_classInstance_lt (hg : g.Sound) {names : List String}
    (h : names.mapM g.classInstance = .ok supers) :
    ∀ s ∈ supers, s < g.insts.length := by
  induction names generalizing supers with
  | nil =>
    obtain rfl : [] = supers := by simpa [pure, Except.pure] using h
    simp
  | cons name names ih =>
    rw [List.mapM_cons] at h
    obtain ⟨c, hc, h⟩ := bind_eq_ok.mp h
    obtain ⟨cs, hcs, h⟩ := bind_eq_ok.mp h
    injection h with h
    intro s hs
    rw [← h] at hs
    rcases List.mem_cons.mp hs with rfl | hs
    · exact hg.classInstance_lt hc
    · exact ih hcs s hs

/-- `define-class` keeps a graph sound. -/
theorem Sound.defineClass (hg : g.Sound) {supers : List String}
    (h : g.defineClass name supers = .ok g') : g'.Sound := by
  obtain ⟨cs, hcs, h⟩ := bind_eq_ok.mp h
  obtain ⟨g₁, hg₁, h⟩ := bind_eq_ok.mp h
  injection h with h
  obtain ⟨hsound, hnamed, hlength⟩ := hg.makeClass (hg.mapM_classInstance_lt hcs) hg₁
  rw [← h]
  refine ⟨hsound.supers_lt, fun p hp => ?_, hsound.nodup, hsound.computed⟩
  rcases List.mem_cons.mp hp with rfl | hp
  · exact hlength ▸ Nat.lt_succ_self _
  · exact hsound.named_lt p hp

/-- The base graph exists and is checked class by class. -/
theorem base_checked :
    (objectAddPrimitives.toOption.any fun g =>
      ((List.range g.insts.length).all fun c =>
        decide (g.computeCpl c = .ok (g.classCpl c) ∧ (g.classCpl c).Nodup ∧
          ∀ s ∈ g.classDirectSupers c, s < g.insts.length)) &&
        g.named.all fun p => decide (p.2 < g.insts.length)) = true := by
  decide +kernel

theorem base_sound : ∃ g, objectAddPrimitives = .ok g ∧ g.Sound := by
  have hchecked := base_checked
  cases hbase : objectAddPrimitives with
  | error e => simp [hbase, Except.toOption] at hchecked
  | ok g =>
    simp only [hbase, Except.toOption, Option.any_some, Bool.and_eq_true, List.all_eq_true,
      List.mem_range, decide_eq_true_eq] at hchecked
    obtain ⟨hclasses, hnamed⟩ := hchecked
    have hnone : ∀ c, ¬ c < g.insts.length → g.insts[c]? = none :=
      fun c hc => List.getElem?_eq_none (Nat.le_of_not_lt hc)
    refine ⟨g, rfl, fun c s hs => ?_, hnamed, fun c => ?_, fun c hc => (hclasses c hc).1⟩
    · by_cases hc : c < g.insts.length
      · exact (hclasses c hc).2.2 s hs
      · simp [classDirectSupers, hnone c hc] at hs
    · by_cases hc : c < g.insts.length
      · exact (hclasses c hc).2.1
      · simp [classCpl, hnone c hc]

theorem Built.sound (h : Built g) : g.Sound := by
  induction h with
  | base hbase =>
    obtain ⟨g, hg, hsound⟩ := base_sound
    rw [hbase] at hg
    injection hg with hg
    exact hg ▸ hsound
  | defineClass _ hdefine ih => exact ih.defineClass hdefine

/-- In every graph that `define-class` builds, `compute-cpl` of a class, and of a new
class below any classes of the graph, ends with a precedence list of the class, or
with the condition, and with the condition if and only if the orders of its supers
and of their precedence lists have a cycle, which is so if and only if there is no
precedence list. -/
theorem precedence_lists {g : ClassGraph} (h : Built g) :
    (∀ c, c < g.insts.length → g.ComputesCpl c) ∧
      ∀ name supers, (∀ s ∈ supers, s < g.insts.length) →
        (g.allocate name supers).ComputesCpl g.insts.length :=
  ⟨fun _ hc => h.sound.computesCpl hc,
    fun name _ hs => h.sound.computesCpl_allocate name hs⟩

/-- A class below `<object>` and `<top>`, in that order, in the base graph. -/
theorem precedence_lists_base : ∃ g, objectAddPrimitives = .ok g ∧
    (g.allocate "A" [objectInst, topInst]).ComputesCpl g.insts.length := by
  obtain ⟨g, hg, hsound⟩ := base_sound
  refine ⟨g, hg, (precedence_lists (Built.base hg)).2 "A" [objectInst, topInst] ?_⟩
  -- both stand in the precedence list of `<object>`
  have hlength : (objectAddPrimitives.toOption.any fun g => 2 < g.insts.length) = true := by
    decide +kernel
  simp only [hg, Except.toOption, Option.any_some, decide_eq_true_eq] at hlength
  intro s hs
  simp only [objectInst, topInst, List.mem_cons, List.not_mem_nil, or_false] at hs
  omega

/-- Two supers against their own order have no precedence list. -/
example : (objectAddPrimitives.toOption.any fun g =>
    (g.allocate "A" [topInst, objectInst]).computeCpl g.insts.length =
      .error (inconsistentGraph "A")) = true := by
  decide +kernel

end ClassGraph

end Idio
