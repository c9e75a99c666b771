/-
  Object/Slots.lean --- the slots of a class, and `make-instance`.

  `compute-slots` goes through the direct slots of the classes in the precedence list and joins the
  options of those of one name.  The slots of `<class>`, `<generic>` and `<method>`, which the C code
  makes, are symbols and no lists, and `ph` of a symbol raises a condition, so `define-class` makes
  no class below one of these three.

  `allocate-instance` applies the initializer of each slot to no arguments and `initialize` applies
  it again to the initargs: an initform is evaluated once for the allocation, whatever the initargs
  are.  A class that is not below `<object>` has no method of `initialize`.
-/
import Idio.Object.Instance

set_option autoImplicit false

namespace Idio.Slots

open ClassGraph

/-! ## Options -/

/-- A value: `#f`, the empty list, a keyword or another one, functions among them. -/
inductive Value where
  | false
  | nil
  | keyword (name : String)
  | other (n : Nat)
  deriving DecidableEq, Repr

def initargKey : Value := .keyword "initarg"
def initformKey : Value := .keyword "initform"

/-- `TC/get-keyword-arg`; `none` where the default is returned. -/
def getKeywordArg (name : Value) : List Value → Result (Option Value)
  | [] => .ok none
  | [_] => .error (.paramError "TC/get-keyword-arg" "unbalanced keyword list")
  | k :: v :: rest => if k = name then .ok (some v) else getKeywordArg name rest

/-- `TC/get-keyword-args` -/
def getKeywordArgs (name : Value) : List Value → Result (List Value)
  | [] => .ok []
  | [_] => .error (.paramError "TC/get-keyword-args" "unbalanced keyword list")
  | k :: v :: rest => do
      let vs ← getKeywordArgs name rest
      return if k = name then v :: vs else vs

/-- A direct slot, or a slot: its name, or a list of its name and options. -/
inductive Slot where
  | symbol (name : String)
  | list (name : String) (options : List Value)
  deriving DecidableEq, Repr

namespace Slot

def name : Slot → String
  | .symbol name | .list name _ => name

@[simp] theorem name_list (n : String) (options : List Value) : (list n options).name = n := rfl

/-- `ph` -/
def ph : Slot → Result String
  | .symbol _ => .error (.paramType "pair")
  | .list name _ => .ok name

/-- `pt` of a slot that is a list -/
def options : Slot → List Value
  | .symbol _ => []
  | .list _ options => options

@[simp] theorem options_list (n : String) (options : List Value) :
    (list n options).options = options := rfl

/-- How `initialize` massages a direct slot. -/
def massage : Slot → Result Slot
  | .symbol name => .ok (.list name [])
  | .list name options => do
      let initarg ← getKeywordArg initargKey options
      if initarg.getD .false = .false then
        return .list name (initargKey :: .keyword name :: options)
      else return .list name options

end Slot

/-! ## compute-slots -/

/-- `TC/collect-if` in `collect`: the options of the slots of the name, and the other slots. -/
def collectIf (name : String) : List Slot → Result (List (List Value) × List Slot)
  | [] => .ok ([], [])
  | o :: rest => do
      let n ← o.ph
      let (others, remaining) ← collectIf name rest
      return if n = name then (o.options :: others, remaining) else (others, o :: remaining)

/-- `collect` -/
def collect : Nat → List Slot → List Slot → Result (List Slot)
  | _, [], r => .ok r.reverse
  | 0, _ :: _, _ => .error .diverges
  | fuel + 1, current :: rest, r => do
      let name ← current.ph
      let (others, remaining) ← collectIf name rest
      collect fuel remaining (.list name (current.options ++ others.flatten) :: r)

/-- The method `compute-slots` of `<class>`, applied to the direct slots of the precedence list. -/
def computeSlots (toDo : List Slot) : Result (List Slot) := collect toDo.length toDo []

/-! ## Getters and setters -/

/-- The tuple of a slot: its initializer, which holds its initarg keywords and its initform (`#f`
where `default-slot-value` stands for one), and its index. -/
structure GetterSetter where
  name : String
  initargs : List Value
  initform : Value
  index : Nat
  deriving DecidableEq, Repr

/-- The method `compute-getter-and-setter` of `<class>`, with the name in front. -/
def computeGetterAndSetter (slot : Slot) (index : Nat) : Result GetterSetter := do
  let initargs ← getKeywordArgs initargKey slot.options
  let initform ← getKeywordArg initformKey slot.options
  return ⟨slot.name, initargs, initform.getD .false, index⟩

/-- The fold of `initialize` over the slots of a class, from the index `i` on. -/
def gettersNSettersFrom : Nat → List Slot → Result (List GetterSetter)
  | _, [] => .ok []
  | i, slot :: slots => do
      let g ← computeGetterAndSetter slot i
      let gns ← gettersNSettersFrom (i + 1) slots
      return g :: gns

/-! ## Classes -/

/-- The fields of a class instance that concern its slots. -/
structure SlotFields where
  directSlots : List Slot
  slots : List Slot
  nfields : Nat
  gettersNSetters : List GetterSetter
  deriving DecidableEq, Repr

/-- A class graph with these fields of each class. -/
structure World where
  graph : ClassGraph
  fields : List SlotFields
  deriving DecidableEq, Repr

namespace World

/-- `class-direct-slots` -/
def directSlots (w : World) (cl : Nat) : List Slot := (w.fields[cl]?.map (·.directSlots)).getD []

/-- `class-slots` -/
def slots (w : World) (cl : Nat) : List Slot := (w.fields[cl]?.map (·.slots)).getD []

/-- `class-nfields` -/
def nfields (w : World) (cl : Nat) : Nat := (w.fields[cl]?.map (·.nfields)).getD 0

/-- `class-getters-n-setters` -/
def gettersNSetters (w : World) (cl : Nat) : List GetterSetter :=
  (w.fields[cl]?.map (·.gettersNSetters)).getD []

/-- The direct slots along the precedence list of a class, the most specific first. -/
def toDo (w : World) (cl : Nat) : List Slot := (w.graph.classCpl cl).flatMap w.directSlots

end World

/-- The direct slots of the classes that the C code makes, by the number of the class. -/
def baseSlotNames : Nat → List String
  -- `<class>`
  | 0 => ["name", "direct-supers", "direct-slots", "cpl", "slots", "nfields", "getters-n-setters"]
  -- `<generic>`
  | 5 => ["name", "documentation", "methods"]
  -- `<method>`
  | 6 => ["generic-function", "specializers", "procedure"]
  | _ => []

/-- `idio_simple_slots`: the slots of the supers come first. -/
def simpleSlots (slots : List Slot) (cpl : List Nat) : List Slot :=
  cpl.foldl (fun slots cl => (baseSlotNames cl).map Slot.symbol ++ slots) slots

/-- `idio_simple_getters_n_setters`: the last slot comes first. -/
def simpleGettersNSetters (slots : List Slot) : List GetterSetter :=
  (slots.zipIdx.map fun p => ⟨p.1.name, [], .false, p.2⟩).reverse

/-- The fields that `idio_simple_make_class` fills in; those of `<class>` are filled in by hand.
The direct slots of the class itself are not there yet when `idio_simple_slots` looks. -/
def baseFields (g : ClassGraph) (cl : Nat) : SlotFields :=
  let direct := (baseSlotNames cl).map Slot.symbol
  let slots := if cl = classInst then direct else simpleSlots direct (g.classCpl cl).tail
  ⟨direct, slots, slots.length, simpleGettersNSetters slots⟩

/-- The classes of the base graph. -/
def baseWorld (g : ClassGraph) : World :=
  ⟨g, (List.range g.insts.length).map (baseFields g)⟩

/-- How many classes the C code makes. -/
def baseCount : Nat := builtinClassInst + 1 + primitiveClasses.length

/-- The expansion of `define-class`; `initialize` fills in the fields of the new class. -/
def World.defineClass (w : World) (name : String) (supers : List String) (slots : List Slot) :
    Result World := do
  let cl := w.graph.insts.length
  let supers ← (if supers = [] then ["<object>"] else supers).mapM w.graph.classInstance
  let direct ← slots.mapM Slot.massage
  let g ← w.graph.makeClass name supers
  let slots ← computeSlots
    ((g.classCpl cl).flatMap fun c => if c = cl then direct else w.directSlots c)
  let gns ← gettersNSettersFrom 0 slots
  return ⟨{ g with named := (name, cl) :: g.named },
    w.fields ++ [⟨direct, slots, slots.length, gns⟩]⟩

/-- What a sequence of `define-class` forms builds; one that raises a condition changes nothing. -/
inductive Built : World → Prop where
  | base {g : ClassGraph} : objectAddPrimitives = .ok g → Built (baseWorld g)
  | defineClass {w w' : World} {name : String} {supers : List String} {slots : List Slot} :
      Built w → w.defineClass name supers slots = .ok w' → Built w'

/-! ## Instances -/

/-- An instance: its class and the fields after those that every instance has. -/
structure Obj where
  cls : Nat
  fields : List Value
  deriving DecidableEq, Repr

/-- `idio_object_slot_ref` -/
def World.slotRef (w : World) (obj : Obj) (name : String) : Result Value :=
  match (w.gettersNSetters obj.cls).find? (·.name = name) with
  | some g => match obj.fields[g.index]? with
      | some v => .ok v
      | none => .error .undefined
  | none => .error (.slotNotFound name)

/-- `idio_object_slot_set` -/
def World.slotSet (w : World) (obj : Obj) (name : String) (v : Value) : Result Obj :=
  match (w.gettersNSetters obj.cls).find? (·.name = name) with
  | some g => if g.index < obj.fields.length then .ok { obj with fields := obj.fields.set g.index v }
      else .error .undefined
  | none => .error (.slotNotFound name)

/-- The evaluation of an initform: the function and its arguments. -/
abbrev Call : Type := Value × List Value

section Instances

variable (result : Value → List Value → Value)

/-- `getarg`: the value of the first keyword that is among the arguments. -/
def getarg (args : List Value) : List Value → Result (Option Value)
  | [] => .ok none
  | k :: initargs => do
      match ← getKeywordArg k args with
      | some v => return some v
      | none => getarg args initargs

/-- `init-slot`: the value, and the evaluation of the initform if there is one. -/
def GetterSetter.initSlot (g : GetterSetter) (args : List Value) :
    Result (Value × List Call) := do
  match ← getarg args g.initargs with
  | some v => return (v, [])
  | none => return if g.initform = .false then (.false, [])
      else (result g.initform args, [(g.initform, args)])

/-- The fold over the initializers, from the index `i` on. -/
def initFrom (args : List Value) : Nat → List GetterSetter → List Value →
    Result (List Value × List Call)
  | _, [], fields => .ok (fields, [])
  | i, g :: gns, fields => do
      let (v, call) ← g.initSlot result args
      let (fields, calls) ← initFrom args (i + 1) gns (fields.set i v)
      return (fields, call ++ calls)

/-- `make-instance` of a class made by `define-class`, with the evaluations of initforms in their
order. -/
def World.makeInstance (w : World) (cl : Nat) (initargs : List Value) :
    Result (Obj × List Call) := do
  let gns := w.gettersNSetters cl
  -- `allocate-helper`
  let (fields, calls) ← initFrom result [] 0 gns (List.replicate gns.length .nil)
  -- `initialize`: there is a method for `<object>`
  if objectInst ∈ w.graph.classCpl cl then
    let (fields, calls') ← initFrom result initargs 0 gns fields
    return (⟨cl, fields⟩, calls ++ calls')
  else .error (.instanceError "compute-apply-methods" "no applicable methods/next methods")

end Instances

/-! ## What is said of slots -/

/-- Keywords and their values. -/
def pairs : List Value → List (Value × Value)
  | k :: v :: rest => (k, v) :: pairs rest
  | _ => []

/-- A list of keywords and values. -/
def plist (ps : List (Value × Value)) : List Value := ps.flatMap fun p => [p.1, p.2]

/-- The initarg keywords of a slot, in order. -/
def Slot.initargs (s : Slot) : List Value :=
  ((pairs s.options).filter (·.1 = initargKey)).map (·.2)

/-- The first initform of a slot. -/
def Slot.initform (s : Slot) : Option Value :=
  ((pairs s.options).lookup initformKey).filter (· ≠ .false)

/-- The initarg that is supplied for a slot. -/
def Slot.supplied (s : Slot) (ps : List (Value × Value)) : Option Value :=
  s.initargs.findSome? fun k => ps.lookup k

/-- The first supplied initarg, or else the value of the initform, or else the default. -/
def Slot.value (result : Value → List Value → Value) (s : Slot) (ps : List (Value × Value)) :
    Value :=
  match s.supplied ps with
  | some v => v
  | none => match s.initform with
      | some f => result f (plist ps)
      | none => .false

/-- The initform is evaluated once where no initarg is supplied. -/
def Slot.calls (s : Slot) (ps : List (Value × Value)) : List Call :=
  match s.supplied ps with
  | some _ => []
  | none => match s.initform with
      | some f => [(f, plist ps)]
      | none => []

/-- Each name is there once, with the options of all direct slots of that name, the most specific
first; and the slots are in different fields. -/
structure LaidOut (w : World) (c : Nat) : Prop where
  nodup : ((w.slots c).map Slot.name).Nodup
  names : ∀ n, n ∈ (w.slots c).map Slot.name ↔ n ∈ (w.toDo c).map Slot.name
  options : ∀ s ∈ w.slots c,
    s.options = ((w.toDo c).filter (·.name = s.name)).flatMap Slot.options
  nfields : w.nfields c = (w.slots c).length
  slotRef : ∀ obj : Obj, obj.cls = c → obj.fields.length = w.nfields c →
    ∀ (i : Nat) (s : Slot), (w.slots c)[i]? = some s →
      ∃ v, obj.fields[i]? = some v ∧ w.slotRef obj s.name = .ok v
  slotSet : ∀ obj : Obj, obj.cls = c → obj.fields.length = w.nfields c →
    ∀ (i : Nat) (s : Slot), (w.slots c)[i]? = some s →
      ∀ v, w.slotSet obj s.name v = .ok { obj with fields := obj.fields.set i v }

/-- `make-instance` allocates a field for each slot, gives it its value, and evaluates the initforms
that it needs, each once. -/
def Initialised (result : Value → List Value → Value) (w : World) (c : Nat) : Prop :=
  ∀ ps : List (Value × Value), ∃ obj,
    w.makeInstance result c (plist ps) = .ok (obj, (w.slots c).flatMap fun s => s.calls ps) ∧
      obj.cls = c ∧ obj.fields.length = w.nfields c ∧
      ∀ s ∈ w.slots c, w.slotRef obj s.name = .ok (s.value result ps)

/-! ## Keywords and their values -/

theorem getKeywordArg_eq {name : Value} {l : List Value} {v : Option Value}
    (h : getKeywordArg name l = .ok v) : v = (pairs l).lookup name := by
  induction l using pairs.induct with
  | case1 k x rest ih =>
    rw [getKeywordArg] at h
    rw [pairs, List.lookup_cons]
    by_cases hk : k = name
    · rw [if_pos hk] at h
      subst hk
      rw [beq_self_eq_true]
      exact (Except.ok.inj h).symm
    · rw [if_neg hk] at h
      rw [beq_false_of_ne (Ne.symm hk)]
      exact ih h
  | case2 l hl =>
    cases l with
    | nil => exact (Except.ok.inj h).symm
    | cons x l =>
      cases l with
      | nil => cases h
      | cons y l => exact absurd rfl (hl x y l)

theorem getKeywordArgs_eq {name : Value} {l vs : List Value}
    (h : getKeywordArgs name l = .ok vs) :
    vs = ((pairs l).filter (·.1 = name)).map (·.2) := by
  induction l using pairs.induct generalizing vs with
  | case1 k x rest ih =>
    rw [getKeywordArgs] at h
    obtain ⟨ws, hws, h⟩ := bind_eq_ok.mp h
    rw [← Except.ok.inj h, pairs, ih hws]
    by_cases hk : k = name <;> simp [hk]
  | case2 l hl =>
    cases l with
    | nil => exact (Except.ok.inj h).symm
    | cons x l =>
      cases l with
      | nil => cases h
      | cons y l => exact absurd rfl (hl x y l)

theorem plist_cons (p : Value × Value) (ps : List (Value × Value)) :
    plist (p :: ps) = p.1 :: p.2 :: plist ps := rfl

theorem getKeywordArg_plist (name : Value) (ps : List (Value × Value)) :
    getKeywordArg name (plist ps) = .ok (ps.lookup name) := by
  induction ps with
  | nil => rfl
  | cons p ps ih =>
    rw [plist_cons, getKeywordArg, List.lookup_cons]
    by_cases hk : p.1 = name
    · rw [if_pos hk, hk, beq_self_eq_true]
    · rw [if_neg hk, beq_false_of_ne (Ne.symm hk)]
      exact ih

theorem getarg_plist (ps : List (Value × Value)) (initargs : List Value) :
    getarg (plist ps) initargs = .ok (initargs.findSome? fun k => ps.lookup k) := by
  induction initargs with
  | nil => rfl
  | cons k initargs ih =>
    rw [getarg, getKeywordArg_plist, ok_bind, List.findSome?_cons]
    cases ps.lookup k with
    | some v => rfl
    | none => exact ih

/-! ## The slots of a class -/

section Merging

variable {name : String} {l rest remaining out r : List Slot} {others : List (List Value)}
  {fuel : Nat} {s : Slot}

theorem ph_eq_ok (s : Slot) {n : String} (h : s.ph = .ok n) : n = s.name ∧ s ≠ .symbol s.name := by
  cases s with
  | symbol name => cases h
  | list name options =>
    cases h
    exact ⟨rfl, nofun⟩

theorem collectIf_eq (h : collectIf name l = .ok (others, remaining)) :
    others.flatten = (l.filter (·.name = name)).flatMap Slot.options ∧
      remaining = l.filter (·.name ≠ name) ∧ ∀ s ∈ l, s ≠ .symbol s.name := by
  induction l generalizing others remaining with
  | nil =>
    cases h
    exact ⟨rfl, rfl, nofun⟩
  | cons o l ih =>
    rw [collectIf] at h
    obtain ⟨n, hn, h⟩ := bind_eq_ok.mp h
    obtain ⟨⟨os, rs⟩, hrest, h⟩ := bind_eq_ok.mp h
    obtain ⟨rfl, ho⟩ := ph_eq_ok o hn
    obtain ⟨hos, hrs, hl⟩ := ih hrest
    have hall : ∀ s ∈ o :: l, s ≠ .symbol s.name := List.forall_mem_cons.mpr ⟨ho, hl⟩
    have h := Except.ok.inj h
    by_cases hname : o.name = name
    · rw [if_pos hname] at h
      cases h
      refine ⟨?_, ?_, hall⟩
      · rw [List.filter_cons_of_pos (by simp [hname]), List.flatMap_cons, List.flatten_cons, hos]
      · rw [List.filter_cons_of_neg (by simp [hname]), hrs]
    · rw [if_neg hname] at h
      cases h
      refine ⟨?_, ?_, hall⟩
      · rw [List.filter_cons_of_neg (by simp [hname]), hos]
      · rw [List.filter_cons_of_pos (by simp [hname]), hrs]

/-- One slot for each name, with all its options. -/
structure Merged (l out : List Slot) : Prop where
  nodup : (out.map Slot.name).Nodup
  names : ∀ n, n ∈ out.map Slot.name ↔ n ∈ l.map Slot.name
  options : ∀ s ∈ out, s.options = (l.filter (·.name = s.name)).flatMap Slot.options

/-- `collect` goes on with the slots of other names. -/
theorem collect_eq (h : collect fuel l r = .ok out) :
    (∃ new, out = r.reverse ++ new ∧ Merged l new) ∧ ∀ s ∈ l, s ≠ .symbol s.name := by
  induction fuel generalizing l r with
  | zero =>
    cases l with
    | nil =>
      cases h
      exact ⟨⟨[], (List.append_nil _).symm, .nil, fun _ => Iff.rfl, nofun⟩, nofun⟩
    | cons o l => cases h
  | succ fuel ih =>
    cases l with
    | nil =>
      cases h
      exact ⟨⟨[], (List.append_nil _).symm, .nil, fun _ => Iff.rfl, nofun⟩, nofun⟩
    | cons o l =>
      rw [collect] at h
      obtain ⟨n, hn, h⟩ := bind_eq_ok.mp h
      obtain ⟨⟨os, rs⟩, hrest, h⟩ := bind_eq_ok.mp h
      obtain ⟨rfl, ho⟩ := ph_eq_ok o hn
      obtain ⟨hos, hrs, hl⟩ := collectIf_eq hrest
      obtain ⟨⟨new, rfl, hnew⟩, -⟩ := ih h
      subst hrs
      refine ⟨⟨.list o.name (o.options ++ os.flatten) :: new, by simp, ?_, ?_, ?_⟩,
        List.forall_mem_cons.mpr ⟨ho, hl⟩⟩
      · refine List.nodup_cons.mpr ⟨fun hmem => ?_, hnew.nodup⟩
        obtain ⟨s, hs, heq⟩ := List.mem_map.mp ((hnew.names _).mp hmem)
        exact of_decide_eq_true (List.mem_filter.mp hs).2 heq
      · intro n
        rw [List.map_cons, List.mem_cons, hnew.names n, List.map_cons, List.mem_cons,
          Slot.name_list]
        constructor
        · rintro (rfl | hmem)
          · exact .inl rfl
          · obtain ⟨s, hs, rfl⟩ := List.mem_map.mp hmem
            exact .inr (List.mem_map_of_mem (List.mem_filter.mp hs).1)
        · rintro (rfl | hmem)
          · exact .inl rfl
          · by_cases heq : n = o.name
            · exact .inl heq
            · obtain ⟨s, hs, rfl⟩ := List.mem_map.mp hmem
              exact .inr (List.mem_map_of_mem (List.mem_filter.mpr ⟨hs, decide_eq_true heq⟩))
      · intro s hs
        rcases List.mem_cons.mp hs with rfl | hs
        · simp [hos]
        · have hne : s.name ≠ o.name := by
            have hmem := (hnew.names s.name).mp (List.mem_map_of_mem hs)
            obtain ⟨s', hs', heq⟩ := List.mem_map.mp hmem
            rw [← heq]
            exact of_decide_eq_true (List.mem_filter.mp hs').2
          rw [hnew.options s hs, List.filter_filter, List.filter_cons_of_neg (by simp [hne.symm])]
          congr 1
          refine List.filter_congr fun t _ => ?_
          by_cases ht : t.name = s.name <;> simp [ht, hne]

theorem computeSlots_merged (h : computeSlots l = .ok out) : Merged l out := by
  obtain ⟨⟨new, rfl, hnew⟩, -⟩ := collect_eq h
  exact hnew

end Merging

/-! ## Getters and setters -/

/-- The tuple of a slot at an index. -/
def Slot.getter (s : Slot) (i : Nat) : GetterSetter :=
  ⟨s.name, s.initargs, s.initform.getD .false, i⟩

section Getters

variable {slots : List Slot} {gns : List GetterSetter} {s : Slot} {i k : Nat}

theorem computeGetterAndSetter_eq {g : GetterSetter} (h : computeGetterAndSetter s i = .ok g) :
    g = s.getter i := by
  obtain ⟨initargs, hinitargs, h⟩ := bind_eq_ok.mp h
  obtain ⟨initform, hinitform, h⟩ := bind_eq_ok.mp h
  rw [← Except.ok.inj h, getKeywordArgs_eq hinitargs, getKeywordArg_eq hinitform, Slot.getter,
    Slot.initargs, Slot.initform]
  congr 1
  cases (pairs s.options).lookup initformKey with
  | none => rfl
  | some f => by_cases hf : f = .false <;> simp [Option.filter, hf]

theorem gettersNSettersFrom_eq (h : gettersNSettersFrom i slots = .ok gns) :
    gns = (slots.zipIdx i).map fun p => p.1.getter p.2 := by
  induction slots generalizing i gns with
  | nil =>
    cases h
    rfl
  | cons s slots ih =>
    obtain ⟨g, hg, h⟩ := bind_eq_ok.mp h
    obtain ⟨rest, hrest, h⟩ := bind_eq_ok.mp h
    rw [← Except.ok.inj h, computeGetterAndSetter_eq hg, ih hrest]
    rfl

/-- A name is found at the place of its slot. -/
theorem find_getter (hnodup : (slots.map Slot.name).Nodup) (hs : slots[k]? = some s) :
    ((slots.zipIdx i).map fun p => p.1.getter p.2).find? (·.name = s.name) =
      some (s.getter (i + k)) := by
  induction slots generalizing i k with
  | nil => cases hs
  | cons t slots ih =>
    obtain ⟨ht, hnodup⟩ := List.nodup_cons.mp hnodup
    rw [List.zipIdx_cons, List.map_cons]
    cases k with
    | zero =>
      cases hs
      exact List.find?_cons_of_pos (decide_eq_true rfl)
    | succ k =>
      have hne : t.name ≠ s.name := fun heq =>
        ht (heq ▸ List.mem_map_of_mem (List.mem_of_getElem? hs))
      refine (List.find?_cons_of_neg (by exact fun hd => hne (of_decide_eq_true hd))).trans ?_
      rw [ih hnodup hs, Nat.succ_add_eq_add_succ]

end Getters

/-! ## Every class that is built -/

/-- What `initialize` has made of the fields of a class. -/
structure Computed (w : World) (c : Nat) : Prop where
  slots : computeSlots (w.toDo c) = .ok (w.slots c)
  nfields : w.nfields c = (w.slots c).length
  gettersNSetters : gettersNSettersFrom 0 (w.slots c) = .ok (w.gettersNSetters c)

/-- What holds of the classes of each world. -/
structure World.Sound (w : World) : Prop where
  graph : w.graph.Sound
  length : w.fields.length = w.graph.insts.length
  base : baseCount ≤ w.fields.length
  directSlots : ∀ c, c < baseCount → w.directSlots c = (baseSlotNames c).map Slot.symbol
  computed : ∀ c, baseCount ≤ c → c < w.fields.length → Computed w c

theorem getD_append_fields {β : Type} (f : SlotFields → β) (d : β) (fields : List SlotFields)
    (new : SlotFields) (c : Nat) :
    ((fields ++ [new])[c]?.map f).getD d =
      if c = fields.length then f new else (fields[c]?.map f).getD d := by
  rcases Nat.lt_trichotomy c fields.length with hc | hc | hc
  · rw [List.getElem?_append_left hc, if_neg (Nat.ne_of_lt hc)]
  · rw [if_pos hc, hc, List.getElem?_concat_length]
    rfl
  · rw [if_neg (Nat.ne_of_gt hc), List.getElem?_eq_none (by rw [List.length_append]; exact hc),
      List.getElem?_eq_none (Nat.le_of_lt hc)]

theorem World.Sound.defineClass {w w' : World} (h : w.Sound) {name : String}
    {supers : List String} {slots : List Slot} (hdefine : w.defineClass name supers slots = .ok w') :
    w'.Sound := by
  obtain ⟨cs, hcs, hdefine⟩ := bind_eq_ok.mp hdefine
  obtain ⟨direct, -, hdefine⟩ := bind_eq_ok.mp hdefine
  obtain ⟨g, hg, hdefine⟩ := bind_eq_ok.mp hdefine
  obtain ⟨out, hout, hdefine⟩ := bind_eq_ok.mp hdefine
  obtain ⟨gns, hgns, hdefine⟩ := bind_eq_ok.mp hdefine
  have hw' := Except.ok.inj hdefine
  have hgraph : w.graph.defineClass name supers =
      .ok { g with named := (name, w.graph.insts.length) :: g.named } := by
    rw [ClassGraph.defineClass, hcs, ok_bind, hg]
    rfl
  obtain ⟨-, -, hlength⟩ := h.graph.makeClass (h.graph.mapM_classInstance_lt hcs) hg
  have hdirect : ∀ c, w'.directSlots c =
      if c = w.graph.insts.length then direct else w.directSlots c := by
    intro c
    rw [← hw', ← h.length]
    exact getD_append_fields (·.directSlots) [] w.fields _ c
  have hcpl : ∀ c, w'.graph.classCpl c = g.classCpl c := by
    intro c
    rw [← hw']
    rfl
  have hfields : w'.fields.length = w.fields.length + 1 := by
    rw [← hw', List.length_append, List.length_singleton]
  refine ⟨?_, ?_, ?_, fun c hc => ?_, fun c hc hlt => ?_⟩
  · rw [← hw']
    exact h.graph.defineClass hgraph
  · rw [hfields, h.length, ← hw']
    exact hlength.symm
  · rw [hfields]
    exact Nat.le_succ_of_le h.base
  · have hne : c ≠ w.graph.insts.length := by
      have := h.base
      have := h.length
      omega
    rw [hdirect, if_neg hne, h.directSlots c hc]
  · have hslots : w'.slots c = if c = w.fields.length then out else w.slots c := by
      rw [← hw']
      exact getD_append_fields (·.slots) [] w.fields _ c
    have hnfields : w'.nfields c = if c = w.fields.length then out.length else w.nfields c := by
      rw [← hw']
      exact getD_append_fields (·.nfields) 0 w.fields _ c
    have hgetters : w'.gettersNSetters c =
        if c = w.fields.length then gns else w.gettersNSetters c := by
      rw [← hw']
      exact getD_append_fields (·.gettersNSetters) [] w.fields _ c
    by_cases hnew : c = w.fields.length
    · rw [if_pos hnew] at hslots hnfields hgetters
      refine ⟨?_, by rw [hnfields, hslots], by rw [hslots, hgetters, hgns]⟩
      rw [hslots, World.toDo, hcpl, hnew, h.length, ← hout]
      exact congrArg computeSlots (List.flatMap_congr fun a _ => hdirect a)
    · have hold : c < w.graph.insts.length := by
        have := h.length
        omega
      have hcomputed := h.computed c hc (h.length ▸ hold)
      rw [if_neg hnew] at hslots hnfields hgetters
      refine ⟨?_, by rw [hnfields, hslots, hcomputed.nfields],
        by rw [hslots, hgetters, hcomputed.gettersNSetters]⟩
      rw [hslots, World.toDo, hcpl, Instances.Classes.makeClass_cpl hg hold, ← hcomputed.slots]
      refine congrArg computeSlots (List.flatMap_congr fun a ha => ?_)
      have hlt := h.graph.cpl_lt hold ha
      rw [hdirect, if_neg (Nat.ne_of_lt hlt)]

theorem Built.sound {w : World} (h : Built w) : w.Sound := by
  induction h with
  | @base g hbase =>
    have hcount : g.insts.length = baseCount := by
      have hchecked : (objectAddPrimitives.toOption.map fun g => g.insts.length) =
          some baseCount := by decide +kernel
      rw [hbase] at hchecked
      exact Option.some.inj hchecked
    have hlength : (baseWorld g).fields.length = g.insts.length := by simp [baseWorld]
    refine ⟨(ClassGraph.Built.base hbase).sound, hlength, by rw [hlength, hcount],
      fun c hc => ?_, fun c hc hlt => ?_⟩
    · have hget : (baseWorld g).fields[c]? = some (baseFields g c) := by
        rw [baseWorld, List.getElem?_map, List.getElem?_range (hcount ▸ hc)]
        rfl
      rw [World.directSlots, hget]
      rfl
    · rw [hlength, hcount] at hlt
      exact absurd hlt (Nat.not_lt_of_le hc)
  | defineClass _ hdefine ih => exact ih.defineClass hdefine

/-! ## Layout -/

section Layout

variable {w : World} {c : Nat}

theorem Computed.gettersNSetters_eq (h : Computed w c) :
    w.gettersNSetters c = ((w.slots c).zipIdx 0).map fun p => p.1.getter p.2 :=
  gettersNSettersFrom_eq h.gettersNSetters

theorem Computed.find (h : Computed w c) {i : Nat} {s : Slot} (hs : (w.slots c)[i]? = some s) :
    (w.gettersNSetters c).find? (·.name = s.name) = some (s.getter i) := by
  rw [h.gettersNSetters_eq, find_getter (computeSlots_merged h.slots).nodup hs, Nat.zero_add]

theorem Computed.laidOut (h : Computed w c) : LaidOut w c := by
  have hmerged := computeSlots_merged h.slots
  have hplace : ∀ obj : Obj, obj.fields.length = w.nfields c → ∀ (i : Nat) (s : Slot),
      (w.slots c)[i]? = some s → i < obj.fields.length := by
    intro obj hlen i s hs
    rw [hlen, h.nfields]
    exact (List.getElem?_eq_some_iff.mp hs).1
  refine ⟨hmerged.nodup, hmerged.names, hmerged.options, h.nfields, ?_, ?_⟩
  · intro obj hcls hlen i s hs
    have hi := hplace obj hlen i s hs
    refine ⟨obj.fields[i], List.getElem?_eq_getElem hi, ?_⟩
    rw [World.slotRef, hcls, h.find hs]
    dsimp only [Slot.getter]
    rw [List.getElem?_eq_getElem hi]
  · intro obj hcls hlen i s hs v
    rw [World.slotSet, hcls, h.find hs]
    exact if_pos (hplace obj hlen i s hs)

end Layout

/-! ## Instances -/

section Made

variable (result : Value → List Value → Value) (ps : List (Value × Value)) {w : World} {c : Nat}

theorem initSlot_getter (s : Slot) (i : Nat) :
    (s.getter i).initSlot result (plist ps) = .ok (s.value result ps, s.calls ps) := by
  rw [GetterSetter.initSlot, Slot.getter, getarg_plist, ok_bind, Slot.value, Slot.calls,
    Slot.supplied]
  cases s.initargs.findSome? fun k => ps.lookup k with
  | some v => rfl
  | none =>
    dsimp only
    cases hform : s.initform with
    | none => rfl
    | some f =>
      have hf : f ≠ .false := of_decide_eq_true (Option.filter_eq_some_iff.mp hform).2
      rw [Option.getD_some, if_neg hf]
      rfl

/-- The fold over the initializers fills the fields from the index on. -/
theorem initFrom_eq (slots : List Slot) (i : Nat) (fields : List Value)
    (hlen : fields.length = i + slots.length) :
    initFrom result (plist ps) i ((slots.zipIdx i).map fun p => p.1.getter p.2) fields =
      .ok (fields.take i ++ slots.map (·.value result ps), slots.flatMap (·.calls ps)) := by
  induction slots generalizing i fields with
  | nil =>
    rw [List.length_nil, Nat.add_zero] at hlen
    rw [List.map_nil, List.append_nil, ← hlen, List.take_length]
    rfl
  | cons s slots ih =>
    have hi : i < fields.length := by
      rw [hlen, List.length_cons]
      omega
    have hset : (fields.set i (s.value result ps)).length = i + 1 + slots.length := by
      rw [List.length_set, hlen, List.length_cons]
      omega
    rw [List.zipIdx_cons, List.map_cons, initFrom, initSlot_getter, ok_bind]
    dsimp only
    rw [ih (i + 1) _ hset, ok_bind, List.take_succ_eq_append_getElem (by rw [List.length_set]; omega),
      List.take_set_of_le (Nat.le_refl i), List.getElem_set_self, List.append_assoc]
    rfl

/-- The initializers run for the allocation and again for the initargs. -/
theorem Computed.makeInstance (h : Computed w c) (hobject : objectInst ∈ w.graph.classCpl c) :
    w.makeInstance result c (plist ps) =
      .ok (⟨c, (w.slots c).map (·.value result ps)⟩,
        (w.slots c).flatMap (·.calls []) ++ (w.slots c).flatMap (·.calls ps)) := by
  have hlen : (List.replicate (w.gettersNSetters c).length Value.nil).length =
      0 + (w.slots c).length := by
    rw [List.length_replicate, h.gettersNSetters_eq, List.length_map, List.length_zipIdx,
      Nat.zero_add]
  have halloc := initFrom_eq result [] (w.slots c) 0 _ hlen
  have hinit := initFrom_eq result ps (w.slots c) 0 ((w.slots c).map (·.value result []))
    (by rw [List.length_map, Nat.zero_add])
  rw [← h.gettersNSetters_eq] at halloc hinit
  rw [World.makeInstance]
  dsimp only
  have hnil : plist [] = [] := rfl
  rw [hnil, List.take_zero, List.nil_append] at halloc
  rw [List.take_zero, List.nil_append] at hinit
  rw [halloc, ok_bind]
  dsimp only
  rw [if_pos hobject, hinit]
  rfl

theorem supplied_nil (s : Slot) : s.supplied [] = none :=
  List.findSome?_eq_none_iff.mpr fun _ _ => rfl

/-- In every world that `define-class` builds the slots of a class that it made are laid out, and
`make-instance` initialises them, if and only if the class is below `<object>` and no slot has an
initform. -/
theorem slots_initialised (h : Built w) (hc : baseCount ≤ c) (hlt : c < w.fields.length) :
    (LaidOut w c ∧ Initialised result w c) ↔
      objectInst ∈ w.graph.classCpl c ∧ ∀ s ∈ w.slots c, s.initform = none := by
  have hcomputed := h.sound.computed c hc hlt
  constructor
  · rintro ⟨-, hinit⟩
    obtain ⟨obj, hmade, -⟩ := hinit []
    have hobject : objectInst ∈ w.graph.classCpl c := by
      by_contra hnot
      obtain ⟨x, -, hx⟩ := bind_eq_ok.mp hmade
      dsimp only at hx
      rw [if_neg hnot] at hx
      cases hx
    refine ⟨hobject, fun s hs => ?_⟩
    rw [hcomputed.makeInstance result [] hobject] at hmade
    have hcalls := (Prod.mk.inj (Except.ok.inj hmade)).2
    have hnil := List.flatMap_eq_nil_iff.mp (List.self_eq_append_left.mp hcalls.symm) s hs
    rw [Slot.calls, supplied_nil] at hnil
    cases hform : s.initform with
    | none => rfl
    | some f =>
      rw [hform] at hnil
      cases hnil
  · rintro ⟨hobject, hform⟩
    have hlaid := hcomputed.laidOut
    refine ⟨hlaid, fun ps => ⟨⟨c, (w.slots c).map (·.value result ps)⟩, ?_, rfl, ?_, ?_⟩⟩
    · have hnone : (w.slots c).flatMap (·.calls []) = [] := by
        refine List.flatMap_eq_nil_iff.mpr fun s hs => ?_
        rw [Slot.calls, supplied_nil, hform s hs]
      rw [hcomputed.makeInstance result ps hobject, hnone, List.nil_append]
    · rw [List.length_map, hcomputed.nfields]
    · intro s hs
      obtain ⟨i, hi⟩ := List.getElem?_of_mem hs
      obtain ⟨v, hv, href⟩ := hlaid.slotRef ⟨c, (w.slots c).map (·.value result ps)⟩ rfl
        (by rw [List.length_map, hcomputed.nfields]) i s hi
      rw [List.getElem?_map, hi] at hv
      rw [href, ← Option.some.inj hv]

end Made

/-- The class of one slot without options, below `<object>`. -/
theorem slots_initialised_plain : ∃ w : World, Built w ∧
    ((LaidOut w baseCount ∧ Initialised (fun _ _ => .nil) w baseCount) ↔
      objectInst ∈ w.graph.classCpl baseCount ∧ ∀ s ∈ w.slots baseCount, s.initform = none) := by
  have hchecked : ((do
      let g ← objectAddPrimitives
      (baseWorld g).defineClass "A" [] [.symbol "s"]).toOption.any fun w : World =>
        decide (baseCount < w.fields.length)) = true := by
    decide +kernel
  obtain ⟨w, hw, hlt⟩ := (Option.any_eq_true _ _).mp hchecked
  cases hmade : (do
      let g ← objectAddPrimitives
      (baseWorld g).defineClass "A" [] [.symbol "s"]) with
  | error e =>
    rw [hmade] at hw
    cases hw
  | ok w' =>
    rw [hmade] at hw
    obtain ⟨g, hg, hdefine⟩ := bind_eq_ok.mp hmade
    cases hw
    have hbuilt := (Built.base hg).defineClass hdefine
    exact ⟨w, hbuilt, slots_initialised _ hbuilt (Nat.le_refl _) (of_decide_eq_true hlt)⟩

/-- The initform of the slot is evaluated for the allocation, though its initarg is supplied; and
twice where it is not. -/
theorem initform_evaluated :
    (do let g ← objectAddPrimitives
        let w ← (baseWorld g).defineClass "A" []
          [.list "s" [initformKey, .other 0, initargKey, .keyword "s"]]
        let supplied ← w.makeInstance (fun _ _ => .nil) baseCount [.keyword "s", .other 1]
        let none ← w.makeInstance (fun _ _ => .nil) baseCount []
        return (supplied, none)) =
      .ok ((⟨baseCount, [.other 1]⟩, [(.other 0, [])]),
        (⟨baseCount, [.nil]⟩, [(.other 0, []), (.other 0, [])])) := by
  decide +kernel

end Idio.Slots
