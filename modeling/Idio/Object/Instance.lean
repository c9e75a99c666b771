/-
  Object/Instance.lean --- classes of values, and `instance-of?`.

  Every value has a class: an instance carries it in its first field, and the C code has one for
  each builtin type.  A class is itself an instance, and the class of a class is `<class>` unless
  it was made by `make-instance` from another class below `<class>`.

  Dispatch looks for a specializer in the precedence list of the class of an argument.
  `instance-of?` looks one level too far up: for the class of the class in the precedence list of
  the class of the class of the value, and it answers no for every value that is no instance.
-/
import Idio.Object.Generic

set_option autoImplicit false

namespace Idio.Instances

open ClassGraph

/-! ## Values and their classes -/

/-- The types that `idio_object_class_of` has a class for, in its order. -/
inductive BuiltinType where
  | fixnum | constantIdio | constantToken | constantICode | constantUnicode | placeholder
  | string | substring | symbol | keyword | pair | array | hash | closure | primitive | bignum
  | module | frame | handle | structType | structInstance | thread | continuation | bitset
  | cChar | cSchar | cUchar | cShort | cUshort | cInt | cUint | cLong | cUlong | cLonglong
  | cUlonglong | cFloat | cDouble | cLongdouble | cPointer
  deriving DecidableEq, Repr

/-- The class that `idio_object_class_of` returns for a type, by its name. -/
def BuiltinType.className : BuiltinType → String
  | .fixnum => "<fixnum>"
  | .constantIdio => "<constant>"
  | .constantToken => "<constant-token>"
  | .constantICode => "<constant-i-code>"
  | .constantUnicode => "<unicode>"
  | .placeholder => "<PLACEHOLDER>"
  | .string => "<string>"
  | .substring => "<substring>"
  | .symbol => "<symbol>"
  | .keyword => "<keyword>"
  | .pair => "<pair>"
  | .array => "<array>"
  | .hash => "<hash>"
  | .closure => "<closure>"
  | .primitive => "<primitive>"
  | .bignum => "<bignum>"
  | .module => "<module>"
  | .frame => "<frame>"
  | .handle => "<handle>"
  | .structType => "<struct-type>"
  | .structInstance => "<struct-instance>"
  | .thread => "<thread>"
  | .continuation => "<continuation>"
  | .bitset => "<bitset>"
  | .cChar => "<C/char>"
  | .cSchar => "<C/schar>"
  | .cUchar => "<C/uchar>"
  | .cShort => "<C/short>"
  | .cUshort => "<C/ushort>"
  | .cInt => "<C/int>"
  | .cUint => "<C/uint>"
  | .cLong => "<C/long>"
  | .cUlong => "<C/ulong>"
  | .cLonglong => "<C/longlong>"
  | .cUlonglong => "<C/ulonglong>"
  | .cFloat => "<C/float>"
  | .cDouble => "<C/double>"
  | .cLongdouble => "<C/longdouble>"
  | .cPointer => "<C/pointer>"

theorem BuiltinType.className_mem (t : BuiltinType) : t.className ∈ primitiveClasses := by
  cases t <;> decide

/-- The class instance of a builtin type. -/
def builtinInst (t : BuiltinType) : Nat :=
  builtinClassInst + 1 + primitiveClasses.idxOf t.className

/-- A value, as far as its class goes: a class instance, an instance of a class that is no class,
or a value of a builtin type. -/
inductive Value where
  | class_ (cl : Nat)
  | instance_ (cl : Nat)
  | builtin (t : BuiltinType)
  deriving DecidableEq, Repr

/-- A class graph with the class of each of its class instances. -/
structure Classes where
  graph : ClassGraph
  classes : List Nat
  deriving DecidableEq, Repr

namespace Classes

/-- The class field of a class instance. -/
def metaclass (w : Classes) (cl : Nat) : Nat := w.classes.getD cl classInst

/-- `idio_object_class_of` -/
def objectClassOf (w : Classes) : Value → Nat
  | .class_ cl => w.metaclass cl
  | .instance_ cl => cl
  | .builtin t => builtinInst t

/-- `idio_isa_instance` -/
def isaInstance : Value → Bool
  | .class_ _ | .instance_ _ => true
  | .builtin _ => false

/-- `idio_isa_class` -/
def isaClass (w : Classes) (o : Value) : Bool :=
  isaInstance o && (memq classInst (w.graph.classCpl (w.objectClassOf o))).isSome

/-- `idio_object_instance_of` -/
def objectInstanceOf (w : Classes) (o cl : Value) : Bool :=
  if isaInstance o then
    let coo := w.objectClassOf o
    let cooClass := w.metaclass coo
    let cooClassCpl := w.graph.classCpl cooClass
    -- the class field of `cl`, which is an instance
    let clClass := w.objectClassOf cl
    (memq clClass cooClassCpl).isSome
  else false

/-- `instance-of?` -/
def instanceOfP (w : Classes) (o cl : Value) : Result Bool :=
  if w.isaClass cl then .ok (w.objectInstanceOf o cl) else .error (.paramType "class")

/-- `%cpl-args` -/
def cplArgs (w : Classes) (args : List Value) : List (List Nat) :=
  args.map fun arg => w.graph.classCpl (w.objectClassOf arg)

/-! ## Making classes -/

/-- The classes of the classes of the base graph: `<generic>` is an `<entity-class>`, `<closure>`
and `<primitive>` are `<procedure-class>`es and the others are `<class>`es. -/
def baseClasses : List Nat :=
  let simple : List Nat := [classInst, classInst, classInst]
  let exported : List Nat := [classInst, classInst, 4, classInst, classInst]
  let primitive : List Nat := primitiveClasses.map fun name =>
    if name = "<closure>" ∨ name = "<primitive>" then procClassInst else classInst
  simple ++ exported ++ primitive

/-- `define-class`: the new class is a `<class>`. -/
def defineClass (w : Classes) (name : String) (supers : List String) : Result Classes := do
  let g ← w.graph.defineClass name supers
  return ⟨g, w.classes ++ [classInst]⟩

/-- `make-instance` of a class below `<class>`. -/
def makeInstance (w : Classes) (cl : Nat) (name : String) (supers : List Nat) :
    Result Classes := do
  let g ← w.graph.makeClass name supers
  return ⟨g, w.classes ++ [cl]⟩

/-- What a sequence of `define-class` forms and calls of `make-instance` builds. -/
inductive Built : Classes → Prop where
  | base {g : ClassGraph} : objectAddPrimitives = .ok g → Built ⟨g, baseClasses⟩
  | defineClass {w w' : Classes} {name : String} {supers : List String} :
      Built w → w.defineClass name supers = .ok w' → Built w'
  | makeInstance {w w' : Classes} {cl : Nat} {name : String} {supers : List Nat} :
      Built w → cl < w.graph.insts.length → classInst ∈ w.graph.classCpl cl →
      (∀ s ∈ supers, s < w.graph.insts.length) → w.makeInstance cl name supers = .ok w' → Built w'

/-- The class field of each class instance is a class below `<class>`. -/
structure Sound (w : Classes) : Prop where
  graph : w.graph.Sound
  length : w.classes.length = w.graph.insts.length
  base : builtinClassInst + primitiveClasses.length < w.graph.insts.length
  metaclass_lt : ∀ c, c < w.graph.insts.length → w.metaclass c < w.graph.insts.length
  metaclass_class : ∀ c, c < w.graph.insts.length →
    classInst ∈ w.graph.classCpl (w.metaclass c)

theorem metaclass_append {w : Classes} (h : w.Sound) (g : ClassGraph) (cl c : Nat) :
    metaclass ⟨g, w.classes ++ [cl]⟩ c =
      if c = w.graph.insts.length then cl else w.metaclass c := by
  simp only [metaclass, List.getD_eq_getElem?_getD]
  rcases Nat.lt_trichotomy c w.classes.length with hc | hc | hc
  · rw [List.getElem?_append_left hc, if_neg (by have := h.length; omega)]
  · rw [if_pos (hc.trans h.length), hc, List.getElem?_concat_length]
    rfl
  · rw [if_neg (by have := h.length; omega), List.getElem?_eq_none (by rw [List.length_append, List.length_singleton]; omega),
      List.getElem?_eq_none (Nat.le_of_lt hc)]

/-- A class instance that is added to the graph with a class below `<class>`. -/
theorem Sound.add {w : Classes} (h : w.Sound) {g : ClassGraph} {cl : Nat} (hg : g.Sound)
    (hlength : g.insts.length = w.graph.insts.length + 1)
    (hcpl : ∀ c, c < w.graph.insts.length → g.classCpl c = w.graph.classCpl c)
    (hcl : cl < w.graph.insts.length) (hclass : classInst ∈ w.graph.classCpl cl) :
    Sound ⟨g, w.classes ++ [cl]⟩ where
  graph := hg
  length := by rw [List.length_append, h.length, hlength, List.length_singleton]
  base := hlength ▸ Nat.lt_succ_of_lt h.base
  metaclass_lt c hc := by
    rw [metaclass_append h]
    change c < g.insts.length at hc
    change _ < g.insts.length
    rw [hlength] at hc ⊢
    split
    · exact Nat.lt_succ_of_lt hcl
    · exact Nat.lt_succ_of_lt (h.metaclass_lt c (by omega))
  metaclass_class c hc := by
    rw [metaclass_append h]
    change c < g.insts.length at hc
    rw [hlength] at hc
    split
    · exact (hcpl cl hcl).symm ▸ hclass
    · have hlt : c < w.graph.insts.length := by omega
      exact (hcpl _ (h.metaclass_lt c hlt)).symm ▸ h.metaclass_class c hlt

/-- `make-class` adds an instance and leaves the precedence lists of the others. -/
theorem makeClass_cpl {g g' : ClassGraph} {name : String} {supers : List Nat}
    (h : g.makeClass name supers = .ok g') {c : Nat} (hc : c < g.insts.length) :
    g'.classCpl c = g.classCpl c := by
  obtain ⟨cpl, -, heq⟩ := bind_eq_ok.mp h
  injection heq with heq
  rw [← heq]
  exact (g.extends_withInst ⟨name, supers, cpl⟩).cpl c hc

theorem Sound.makeInstance {w w' : Classes} (h : w.Sound) {cl : Nat} {name : String}
    {supers : List Nat} (hcl : cl < w.graph.insts.length)
    (hclass : classInst ∈ w.graph.classCpl cl) (hs : ∀ s ∈ supers, s < w.graph.insts.length)
    (hmake : w.makeInstance cl name supers = .ok w') : w'.Sound := by
  obtain ⟨g, hg, heq⟩ := bind_eq_ok.mp hmake
  injection heq with heq
  obtain ⟨hsound, -, hlength⟩ := h.graph.makeClass hs hg
  exact heq ▸ h.add hsound hlength (fun c hc => makeClass_cpl hg hc) hcl hclass

theorem Sound.defineClass {w w' : Classes} (h : w.Sound) {name : String} {supers : List String}
    (hdefine : w.defineClass name supers = .ok w') : w'.Sound := by
  obtain ⟨g, hg, heq⟩ := bind_eq_ok.mp hdefine
  injection heq with heq
  have hsound := h.graph.defineClass hg
  obtain ⟨cs, hcs, hg⟩ := bind_eq_ok.mp hg
  obtain ⟨g₁, hg₁, hg⟩ := bind_eq_ok.mp hg
  injection hg with hg
  obtain ⟨-, -, hlength⟩ := h.graph.makeClass (h.graph.mapM_classInstance_lt hcs) hg₁
  have hzero : classInst < w.graph.insts.length := Nat.zero_lt_of_lt h.base
  refine heq ▸ h.add hsound ?_ (fun c hc => ?_) hzero (h.graph.mem_self hzero)
  · rw [← hg]
    exact hlength
  · rw [← hg]
    exact makeClass_cpl hg₁ hc

/-- The base graph is checked class by class. -/
theorem baseClasses_checked :
    (objectAddPrimitives.toOption.any fun g =>
      decide (baseClasses.length = g.insts.length) &&
      decide (builtinClassInst + primitiveClasses.length < g.insts.length) &&
      (List.range g.insts.length).all fun c =>
        decide (metaclass ⟨g, baseClasses⟩ c < g.insts.length) &&
          decide (classInst ∈ g.classCpl (metaclass ⟨g, baseClasses⟩ c))) = true := by
  decide +kernel

theorem Built.sound {w : Classes} (h : Built w) : w.Sound := by
  induction h with
  | @base g hbase =>
    have hchecked := baseClasses_checked
    rw [hbase] at hchecked
    simp only [Except.toOption, Option.any_some, Bool.and_eq_true, List.all_eq_true,
      List.mem_range, decide_eq_true_eq] at hchecked
    obtain ⟨⟨hlength, hbuiltin⟩, hmeta⟩ := hchecked
    exact ⟨(ClassGraph.Built.base hbase).sound, hlength, hbuiltin, fun c hc => (hmeta c hc).1,
      fun c hc => (hmeta c hc).2⟩
  | defineClass _ hdefine ih => exact ih.defineClass hdefine
  | makeInstance _ hcl hclass hs hmake ih => exact ih.makeInstance hcl hclass hs hmake

/-! ## instance-of? and dispatch -/

/-- The value is one of a program that has built these classes. -/
def Has (w : Classes) : Value → Prop
  | .class_ cl | .instance_ cl => cl < w.graph.insts.length
  | .builtin _ => True

theorem Sound.objectClassOf_lt {w : Classes} (h : w.Sound) {o : Value} (ho : w.Has o) :
    w.objectClassOf o < w.graph.insts.length := by
  cases o with
  | class_ cl => exact h.metaclass_lt cl ho
  | instance_ cl => exact ho
  | builtin t =>
    have hidx := List.idxOf_lt_length_of_mem t.className_mem
    have hbase := h.base
    simp only [objectClassOf, builtinInst]
    omega

/-- A class instance is a class. -/
theorem Sound.isaClass {w : Classes} (h : w.Sound) {cl : Nat} (hcl : cl < w.graph.insts.length) :
    w.isaClass (.class_ cl) = true :=
  (isSome_memq _ _).mpr (h.metaclass_class cl hcl)

/-- `instance-of?` compares the class of the class of the value with the class of the class. -/
theorem Sound.instanceOf_iff {w : Classes} (h : w.Sound) {o : Value} (ho : w.Has o) {cl : Nat}
    (hcl : cl < w.graph.insts.length) :
    w.instanceOfP o (.class_ cl) = .ok true ↔
      isaInstance o = true ∧
        w.graph.Ancestor (w.metaclass (w.objectClassOf o)) (w.metaclass cl) := by
  have hmeta := h.metaclass_lt _ (h.objectClassOf_lt ho)
  rw [instanceOfP, if_pos (h.isaClass hcl), objectInstanceOf, ← h.graph.mem_cpl_iff hmeta]
  cases isaInstance o with
  | true => simp only [if_true, Except.ok.injEq, isSome_memq, objectClassOf, true_and]
  | false => simp

/-- `instance-of?` answers as the precedence list of the class of the value does. -/
def Agrees (w : Classes) (o : Value) (cl : Nat) : Prop :=
  w.instanceOfP o (.class_ cl) = .ok true ↔ cl ∈ w.graph.classCpl (w.objectClassOf o)

/-- What stands on the level of the values stands on that of the classes: an instance of a class
below `cl` has a class whose class is below that of `cl`, and the other way; and no builtin value
has a class below `cl`. -/
def Parallel (w : Classes) : Value → Nat → Prop
  | .builtin t, cl => ¬ w.graph.Ancestor (builtinInst t) cl
  | .class_ c, cl => w.graph.Ancestor (w.metaclass c) cl ↔
      w.graph.Ancestor (w.metaclass (w.metaclass c)) (w.metaclass cl)
  | .instance_ c, cl => w.graph.Ancestor c cl ↔
      w.graph.Ancestor (w.metaclass c) (w.metaclass cl)

/-- **`instance-of?` and dispatch**: of a value and a class that a program can have, the one
agrees with the other just if the classes of the two classes stand as these do, and the value is
no builtin value that a method of the class applies to. -/
theorem instance_of_agrees {w : Classes} (h : w.Built) {o : Value} (ho : w.Has o) {cl : Nat}
    (hcl : cl < w.graph.insts.length) :
    (w.Agrees o cl ↔ w.Parallel o cl) ∧
      (Generic.every [cl] (w.cplArgs [o]) = true ↔ cl ∈ w.graph.classCpl (w.objectClassOf o)) := by
  have hsound := h.sound
  constructor
  · rw [Agrees, hsound.instanceOf_iff ho hcl, hsound.graph.mem_cpl_iff (hsound.objectClassOf_lt ho)]
    cases o with
    | class_ c => simp only [isaInstance, true_and, objectClassOf, Parallel, Iff.comm]
    | instance_ c => simp only [isaInstance, true_and, objectClassOf, Parallel, Iff.comm]
    | builtin t =>
      simp only [isaInstance, Bool.false_eq_true, false_and, objectClassOf, Parallel, false_iff]
  · simp only [cplArgs, List.map_cons, List.map_nil, Generic.every, Bool.and_true, isSome_memq]

/-- `<object>`, an instance of it and a fixnum in the base graph. -/
theorem instance_of_agrees_base : ∃ w, Built w ∧
    ((w.Agrees (.instance_ objectInst) topInst ↔ w.Parallel (.instance_ objectInst) topInst) ∧
      (Generic.every [topInst] (w.cplArgs [.instance_ objectInst]) = true ↔
        topInst ∈ w.graph.classCpl (w.objectClassOf (.instance_ objectInst)))) := by
  obtain ⟨g, hg, -⟩ := base_sound
  have hbuilt := Built.base hg
  have hbase : 7 + 39 < g.insts.length := hbuilt.sound.base
  have hobject : Has ⟨g, baseClasses⟩ (.instance_ objectInst) :=
    show 2 < g.insts.length by omega
  exact ⟨_, hbuilt, instance_of_agrees hbuilt hobject (show 1 < g.insts.length by omega)⟩

/-- Of the base graph: no fixnum is an instance of `<fixnum>`, and an instance of `<object>` is
one. -/
theorem instance_of_level : ∃ w, Built w ∧
    w.instanceOfP (.builtin .fixnum) (.class_ (builtinInst .fixnum)) = .ok false ∧
    w.instanceOfP (.instance_ objectInst) (.class_ (builtinInst .fixnum)) = .ok true ∧
    ¬ w.Agrees (.builtin .fixnum) (builtinInst .fixnum) ∧
    ¬ w.Agrees (.instance_ objectInst) (builtinInst .fixnum) := by
  have hchecked : (objectAddPrimitives.toOption.any fun g =>
      let w : Classes := ⟨g, baseClasses⟩
      decide (w.instanceOfP (.builtin .fixnum) (.class_ (builtinInst .fixnum)) = .ok false) &&
      decide (w.instanceOfP (.instance_ objectInst) (.class_ (builtinInst .fixnum)) = .ok true) &&
      decide (builtinInst .fixnum ∈ g.classCpl (w.objectClassOf (.builtin .fixnum))) &&
      decide (builtinInst .fixnum ∉ g.classCpl (w.objectClassOf (.instance_ objectInst))))
        = true := by
    decide +kernel
  obtain ⟨g, hg, -⟩ := base_sound
  rw [hg] at hchecked
  simp only [Except.toOption, Option.any_some, Bool.and_eq_true, decide_eq_true_eq] at hchecked
  obtain ⟨⟨⟨hfixnum, hobject⟩, hmem⟩, hnot⟩ := hchecked
  refine ⟨_, Built.base hg, hfixnum, hobject, fun h => ?_, fun h => hnot (h.mp hobject)⟩
  have htrue := h.mpr hmem
  rw [hfixnum] at htrue
  cases htrue

end Classes

end Idio.Instances
