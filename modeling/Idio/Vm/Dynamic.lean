/-
  Vm/Dynamic.lean --- dynamic and environ variables.

  What the two kinds of variables are for is the environment `bindings`: the variables
  bound on the stack with their values, innermost first.  `Follows` says what an
  instruction does to an environment.  `dynamic_variables` is the result about runs:
  after any run that keeps the stack discipline the environment is what the
  instructions have made of it, a reference gives the value of the innermost binding
  or the global value, and an assignment changes that binding, or the global value,
  and nothing else.

  A variable whose value is `#<undef>` counts as unbound: the reference then gives the
  default it was called with or raises a condition.
-/
import Idio.Lib.Scopes
import Idio.Vm.Refinement

set_option autoImplicit false

namespace Idio

/-! ## Environments -/

/-- The bindings of a kind on the stack, innermost first. -/
def bindings (kind : BindingKind) : List Record → List (Nat × Value)
  | [] => []
  | .binding k gvi val :: rs =>
      if k = kind then (gvi, val.val) :: bindings kind rs else bindings kind rs
  | _ :: rs => bindings kind rs

/-- What an instruction makes of the environment of a kind, given VAL.  An escape leaves
some of the outer bindings; what is not listed leaves all of them. -/
def Follows (kind : BindingKind) (i : Instr) (val : Value) (env env' : List (Nat × Value)) :
    Prop :=
  match i with
  | .pushDynamic gvi => env' = if kind = .dynamic then (gvi, val) :: env else env
  | .popDynamic => env' = if kind = .dynamic then env.tail else env
  | .dynamicSet gvi => env' = if kind = .dynamic then Scopes.assign gvi val env else env
  | .pushEnviron gvi => env' = if kind = .environ then (gvi, val) :: env else env
  | .popEnviron => env' = if kind = .environ then env.tail else env
  | .environSet gvi => env' = if kind = .environ then Scopes.assign gvi val env else env
  | .escaperLabelRef _ => env' <:+ env
  | _ => env' = env

/-- The environment goes from `env` to `env'` over a run. -/
inductive FollowsRun (ctx : Ctx) (kind : BindingKind) : List Instr → Vm (List Record) →
    List (Nat × Value) → List (Nat × Value) → Prop where
  | nil (vm : Vm (List Record)) (env : List (Nat × Value)) : FollowsRun ctx kind [] vm env env
  | cons {i : Instr} {is : List Instr} {vm mid : Vm (List Record)}
      {env env₁ env' : List (Nat × Value)} (hstep : recordStep ctx i vm = some mid)
      (hfollows : Follows kind i vm.thr.val env env₁) (hrest : FollowsRun ctx kind is mid env₁ env') :
      FollowsRun ctx kind (i :: is) vm env env'

theorem lookup_bindings (kind : BindingKind) (gvi : Nat) (rs : List Record) :
    (bindings kind rs).lookup gvi = (lookup kind gvi rs).map Subtype.val := by
  induction rs with
  | nil => rfl
  | cons r rs ih =>
    cases r with
    | binding k g val =>
      rw [bindings, lookup]
      by_cases hk : k = kind
      · rw [if_pos hk, Scopes.lookup_cons]
        by_cases hg : g = gvi
        · rw [if_pos hg, if_pos ⟨hk, hg⟩]
          rfl
        · rw [if_neg hg, if_neg fun h => hg h.2]
          exact ih
      · rw [if_neg hk, if_neg fun h => hk h.1]
        exact ih
    | _ => exact ih

theorem bindings_assign (kind : BindingKind) (gvi : Nat) (v : OrdinaryValue) (rs : List Record) :
    bindings kind (assign kind gvi v rs) = Scopes.assign gvi v.val (bindings kind rs) := by
  induction rs with
  | nil => rfl
  | cons r rs ih =>
    cases r with
    | binding k g val =>
      rw [assign, bindings]
      by_cases hk : k = kind
      · rw [if_pos hk, Scopes.assign]
        by_cases hg : g = gvi
        · rw [if_pos ⟨hk, hg⟩, if_pos hg, bindings, if_pos hk]
        · rw [if_neg fun h => hg h.2, if_neg hg, bindings, if_pos hk, ih]
      · rw [if_neg hk, if_neg fun h => hk h.1, bindings, if_neg hk, ih]
    | _ => exact ih

theorem bindings_assign_of_ne {kind other : BindingKind} (h : other ≠ kind) (gvi : Nat)
    (v : OrdinaryValue) (rs : List Record) :
    bindings other (assign kind gvi v rs) = bindings other rs := by
  induction rs with
  | nil => rfl
  | cons r rs ih =>
    cases r with
    | binding k g val =>
      rw [assign]
      by_cases hk : k = kind ∧ g = gvi
      · have hne : ¬ k = other := fun hko => h (hko ▸ hk.1)
        rw [if_pos hk, bindings, bindings, if_neg hne, if_neg hne]
      · rw [if_neg hk, bindings, bindings, ih]
    | _ => exact ih

theorem bindings_append (kind : BindingKind) (above rs : List Record) :
    bindings kind (above ++ rs) = bindings kind above ++ bindings kind rs := by
  induction above with
  | nil => rfl
  | cons r above ih =>
    cases r with
    | binding k g val =>
      simp only [List.cons_append, bindings]
      split
      · rw [ih, List.cons_append]
      · exact ih
    | _ => exact ih

/-! ## References and assignments -/

/-- `idio_vm_dynamic_ref` and `idio_vm_environ_ref`. -/
def variableRef (ctx : Ctx) : BindingKind → Thread Stack → List Value → Nat → Nat →
    List Value → Result Value
  | .dynamic => dynamicRef ctx
  | .environ => environRef ctx

/-- `idio_vm_dynamic_set` and `idio_vm_environ_set`. -/
def variableSet : BindingKind → Thread Stack → List Value → Nat → Value →
    Result (Thread Stack × List Value)
  | .dynamic => dynamicSet
  | .environ => environSet

/-- The condition of an unbound variable. -/
def unboundVariable : BindingKind → Nat → Nat → Fault
  | .dynamic, si, gvi => .dynamicUnbound "no such dynamic binding"
      ("si " ++ toString si ++ " -> gsi ??  -> gvi " ++ toString gvi)
  | .environ, si, gvi => .environUnbound "no such environ binding"
      ("si " ++ toString si ++ " -> gsi ??  -> gvi " ++ toString gvi)

/-- The value of the innermost binding, or the global value. -/
def innermost (ctx : Ctx) (env : List (Nat × Value)) (values : List Value) (gvi : Nat) :
    Result Value :=
  match env.lookup gvi with
  | some v => .ok v
  | none => valuesRef ctx values gvi

/-- What a reference makes of a value: `#<undef>` is no value. -/
def definedOr (unbound : Fault) (args : List Value) (val : Value) : Result Value :=
  if val = .undef then
    match args with
    | [] => .error unbound
    | arg :: _ => .ok arg
  else .ok val

theorem variableRef_eq (ctx : Ctx) (kind : BindingKind) (thr : Thread (List Record))
    (values : List Value) (si gvi : Nat) (args : List Value) :
    variableRef ctx kind thr.concrete values si gvi args =
      innermost ctx (bindings kind thr.stack) values gvi >>=
        definedOr (unboundVariable kind si gvi) args := by
  have hfind : findStackMarker thr.concrete.stack kind.marker 0 =
      .ok (lastMarker kind.marker thr.stack) := findStackMarker_layout _ _
  have hlen : thr.concrete.stack.length = height thr.stack := layout_length _
  have hloop : bindingLoop thr.concrete.stack gvi (height thr.stack + 1)
      (lastMarker kind.marker thr.stack) = .ok (boundAt kind gvi thr.stack) :=
    bindingLoop_layout kind gvi thr.stack [] (Nat.lt_succ_self _)
  have hshared : variableRef ctx kind thr.concrete values si gvi args =
      bindingRef ctx kind.marker (unboundVariable kind si gvi) thr.concrete values gvi args := by
    cases kind <;> rfl
  rw [hshared]
  unfold bindingRef
  rw [hfind]
  simp only [ok_bind]
  rw [hlen, hloop]
  simp only [ok_bind, innermost, lookup_bindings]
  cases hbound : boundAt kind gvi thr.stack with
  | none =>
    rw [boundAt_none hbound]
    rfl
  | some sp =>
    obtain ⟨v, hlookup, hslot⟩ := boundAt_slot thr.stack [] hbound
    have hslot' : thr.concrete.stack.refIndex (sp - 2) = .ok v.val := hslot
    rw [hlookup]
    simp only [hslot', ok_bind, Option.map_some]
    rfl

/-- An assignment: where the variable is bound one slot of the stack changes, and the
environment as `Scopes.assign` says; where it is not, the global value changes. -/
structure Assigned (kind : BindingKind) (gvi : Nat) (v : Value) (vm vm' : Vm (List Record)) :
    Prop where
  registers : vm'.thr = vm.thr.withStack vm'.thr.stack
  suppressRcse : vm'.suppressRcse = vm.suppressRcse
  bindings : bindings kind vm'.thr.stack = Scopes.assign gvi v (bindings kind vm.thr.stack)
  others : ∀ other, other ≠ kind →
    Idio.bindings other vm'.thr.stack = Idio.bindings other vm.thr.stack
  bound : (Idio.bindings kind vm.thr.stack).lookup gvi ≠ none → vm'.values = vm.values ∧
    ∃ i, i < height vm.thr.stack ∧ layout vm'.thr.stack = (layout vm.thr.stack).set i v
  unbound : (Idio.bindings kind vm.thr.stack).lookup gvi = none →
    vm'.thr = vm.thr ∧ vm'.values = vm.values.set gvi v

theorem assignRecords_assigned {kind : BindingKind} {gvi : Nat} {v : Value}
    {vm : Vm (List Record)} {thr' : Thread (List Record)} {values' : List Value}
    (h : assignRecords vm.thr kind vm.values gvi v = some (thr', values')) :
    Assigned kind gvi v vm { vm with thr := thr', values := values' } := by
  simp only [assignRecords, Option.bind_eq_bind, Option.bind_eq_some_iff] at h
  obtain ⟨o, ho, h⟩ := h
  have hv := ordinary?_eq_some ho
  have hlookup := lookup_bindings kind gvi vm.thr.stack
  cases hl : lookup kind gvi vm.thr.stack with
  | none =>
    rw [hl] at h hlookup
    dsimp only at h
    split at h
    · cases h
      refine ⟨rfl, rfl, ?_, fun _ _ => rfl, fun hne => absurd hlookup hne, fun _ => ⟨rfl, rfl⟩⟩
      exact (Scopes.assign_of_lookup_none v hlookup).symm
    · cases h
  | some old =>
    rw [hl] at h hlookup
    cases h
    refine ⟨rfl, rfl, ?_, fun other hne => ?_, fun _ => ⟨rfl, ?_⟩, fun hnone => ?_⟩
    · rw [← hv]
      exact bindings_assign kind gvi o vm.thr.stack
    · exact bindings_assign_of_ne hne gvi o vm.thr.stack
    · cases hbound : boundAt kind gvi vm.thr.stack with
      | none =>
        rw [boundAt_none hbound] at hl
        cases hl
      | some sp =>
        obtain ⟨hlo, hhi, hlay⟩ := layout_assign o vm.thr.stack hbound
        exact ⟨(sp - 2).toNat, by omega, hv ▸ hlay⟩
    · rw [hlookup] at hnone
      cases hnone

/-- An assignment goes through where the variable is bound or has a global value. -/
theorem assignRecords_isSome {kind : BindingKind} {gvi : Nat} {v : Value} {vm : Vm (List Record)}
    (hv : Ordinary v)
    (h : (bindings kind vm.thr.stack).lookup gvi ≠ none ∨ gvi < vm.values.length) :
    ∃ thr' values', assignRecords vm.thr kind vm.values gvi v = some (thr', values') := by
  have hlookup := lookup_bindings kind gvi vm.thr.stack
  have ho : ordinary? v = some ⟨v, hv⟩ := dif_pos hv
  simp only [assignRecords, ho, Option.bind_eq_bind, Option.bind_some]
  cases hl : lookup kind gvi vm.thr.stack with
  | some old => exact ⟨_, _, rfl⟩
  | none =>
    rw [hl] at hlookup
    have hlt : gvi < vm.values.length := h.resolve_left fun hne => hne hlookup
    exact ⟨_, _, if_pos hlt⟩

/-! ## Runs -/

theorem SavedOn.bindings {rs rs' : List Record} (h : SavedOn rs rs') (kind : BindingKind) :
    Idio.bindings kind rs' = Idio.bindings kind rs := by
  obtain ⟨saved, rfl, hsaved⟩ := h
  induction saved with
  | nil => rfl
  | cons r saved ih =>
    have hr := hsaved r (List.mem_cons_self ..)
    rw [List.cons_append, ← ih fun r hr => hsaved r (List.mem_cons_of_mem _ hr)]
    cases r with
    | binding k g val => cases hr
    | _ => rfl

theorem bindings_binding (kind k : BindingKind) (gvi : Nat) (v : OrdinaryValue)
    (rs : List Record) :
    bindings kind (.binding k gvi v :: rs) =
      if kind = k then (gvi, v.val) :: bindings kind rs else bindings kind rs := by
  rw [bindings]
  by_cases h : k = kind
  · rw [if_pos h, if_pos h.symm]
  · rw [if_neg h, if_neg (Ne.symm h)]

/-- One assignment, seen by the bindings of either kind. -/
theorem Assigned.bindings_eq {kind other : BindingKind} {gvi : Nat} {v : Value}
    {vm vm' : Vm (List Record)} (h : Assigned kind gvi v vm vm') :
    Idio.bindings other vm'.thr.stack =
      if other = kind then Scopes.assign gvi v (Idio.bindings other vm.thr.stack)
      else Idio.bindings other vm.thr.stack := by
  by_cases hk : other = kind
  · rw [if_pos hk, hk]
    exact h.bindings
  · rw [if_neg hk]
    exact h.others other hk

/-- One instruction, on the environment. -/
theorem recordStep_follows {ctx : Ctx} {i : Instr} {vm vm' : Vm (List Record)}
    (kind : BindingKind) (h : recordStep ctx i vm = some vm') :
    Follows kind i vm.thr.val (bindings kind vm.thr.stack) (bindings kind vm'.thr.stack) := by
  cases recordStep_effect h with
  | saves hi stack flag =>
    have heq : bindings kind vm'.thr.stack = bindings kind vm.thr.stack := by
      obtain hpush | hpop := stack
      · exact hpush.bindings kind
      · exact (hpop.bindings kind).symm
    cases i <;> first | exact heq | cases hi
  | pushDynamic v val eq =>
    subst eq
    rw [← val]
    exact bindings_binding kind .dynamic _ v vm.thr.stack
  | pushEnviron v val eq =>
    subst eq
    rw [← val]
    exact bindings_binding kind .environ _ v vm.thr.stack
  | popDynamic stack flag =>
    simp only [Follows, stack, bindings_binding]
    split <;> rfl
  | popEnviron stack flag =>
    simp only [Follows, stack, bindings_binding]
    split <;> rfl
  | dynamicSet assign eq =>
    subst eq
    exact (assignRecords_assigned assign).bindings_eq
  | environSet assign eq =>
    subst eq
    exact (assignRecords_assigned assign).bindings_eq
  | pushTrap handler eq =>
    subst eq
    rfl
  | popTrap stack flag =>
    simp only [Follows, stack]
    rfl
  | pushEscaper frame val eq =>
    subst eq
    rfl
  | popEscaper stack flag =>
    simp only [Follows, stack]
    rfl
  | escaperLabelRef found eq =>
    rename_i ci e below
    subst eq
    obtain ⟨-, above, hstack⟩ := findEscaper_eq_some found
    show bindings kind below <:+ bindings kind vm.thr.stack
    rw [hstack, bindings_append]
    exact List.suffix_append _ (bindings kind below)
  | suppressRcse flag val eq =>
    subst eq
    rfl
  | popRcse stack restored =>
    simp only [Follows, stack]
    rfl
  | pushAbort k stack reset =>
    simp only [Follows, stack]
    rfl
  | popAbort stack flag =>
    simp only [Follows, stack]
    rfl
  | fork stack reset => simp only [Follows, stack]
  | raise select following savedOn returnOn stack flag =>
    rename_i t next saved return_
    have hreturn : SavedOn (.trap (next.copy saved) :: saved) vm'.thr.stack :=
      ⟨return_, stack, returnOn⟩
    show bindings kind vm'.thr.stack = _
    rw [hreturn.bindings, ← savedOn.bindings kind]
    rfl

/-- A run, on the environment. -/
theorem recordRun_follows {ctx : Ctx} {is : List Instr} {vm vm' : Vm (List Record)}
    (kind : BindingKind) (h : recordRun ctx is vm = some vm') :
    FollowsRun ctx kind is vm (bindings kind vm.thr.stack) (bindings kind vm'.thr.stack) := by
  induction is generalizing vm with
  | nil =>
    cases h
    exact .nil _ _
  | cons i is ih =>
    obtain ⟨mid, hstep, hrest⟩ := Option.bind_eq_some_iff.mp h
    exact .cons hstep (recordStep_follows kind hstep) (ih hrest)

/-- **Dynamic and environ variables.**  After a run that keeps the stack discipline the
environment is what the run made of it; a reference gives the value of the innermost
binding or else the global value, unless that is `#<undef>`; an assignment changes the
innermost binding or else the global value, and nothing else. -/
theorem dynamic_variables {ctx : Ctx} {is : List Instr} {vm vm' : Vm (List Record)}
    (h : recordRun ctx is vm = some vm') (kind : BindingKind) :
    run ctx is vm.concrete = .ok vm'.concrete ∧
      FollowsRun ctx kind is vm (bindings kind vm.thr.stack) (bindings kind vm'.thr.stack) ∧
      (∀ si gvi args, variableRef ctx kind vm'.concrete.thr vm'.values si gvi args =
        innermost ctx (bindings kind vm'.thr.stack) vm'.values gvi >>=
          definedOr (unboundVariable kind si gvi) args) ∧
      ∀ gvi v, Ordinary v →
        (bindings kind vm'.thr.stack).lookup gvi ≠ none ∨ gvi < vm'.values.length →
        ∃ vm'', variableSet kind vm'.concrete.thr vm'.values gvi v =
            .ok (vm''.concrete.thr, vm''.values) ∧ Assigned kind gvi v vm' vm'' := by
  refine ⟨run_refines h, recordRun_follows kind h,
    fun si gvi args => variableRef_eq ctx kind vm'.thr vm'.values si gvi args,
    fun gvi v hv hvar => ?_⟩
  obtain ⟨thr'', values'', hassign⟩ := assignRecords_isSome hv hvar
  refine ⟨{ vm' with thr := thr'', values := values'' }, ?_, assignRecords_assigned hassign⟩
  have hset := bindingSet_refines hassign
  cases kind <;> exact hset

/-! ## A run -/

/-- An inner binding is assigned to inside an escape block and left by an escape. -/
def shadowingRun : List Instr :=
  [.work (registersWith (.fixnum 10)), .pushDynamic 1, .pushEscaper 7 4,
    .work (registersWith (.fixnum 20)), .pushDynamic 1, .work (registersWith (.fixnum 30)),
    .dynamicSet 1, .pushEnviron 1, .escaperLabelRef 7]

/-- What the run leaves: the outer binding. -/
def shadowedVm : Vm (List Record) where
  thr := { toRegisters := { registersWith (.fixnum 30) with pc := 5 }, xi := 0,
           stack := [.binding .dynamic 1 ⟨.fixnum 10, ordinary_fixnum 10⟩] }
  values := [.undef, .fixnum 0]
  suppressRcse := .false_

theorem dynamic_variables_after_escape :
    recordRun emptyCtx shadowingRun (emptyVm [.undef, .fixnum 0]) = some shadowedVm ∧
      variableRef emptyCtx .dynamic shadowedVm.concrete.thr shadowedVm.values 0 1 [] =
        .ok (.fixnum 10) := by
  have hrun : recordRun emptyCtx shadowingRun (emptyVm [.undef, .fixnum 0]) =
      some shadowedVm := by decide
  obtain ⟨-, -, href, -⟩ := dynamic_variables hrun .dynamic
  exact ⟨hrun, (href 0 1 []).trans (by decide)⟩

/-- A variable bound to `#<undef>` is unbound, whatever its global value. -/
theorem binding_of_undef :
    ∃ vm', recordRun emptyCtx [.work (registersWith .undef), .pushDynamic 1]
        (emptyVm [.undef, .fixnum 5]) = some vm' ∧
      (bindings .dynamic vm'.thr.stack).lookup 1 = some .undef ∧
      dynamicRef emptyCtx vm'.concrete.thr vm'.values 0 1 [] =
        .error (.dynamicUnbound "no such dynamic binding" "si 0 -> gsi ??  -> gvi 1") := by
  refine ⟨_, rfl, by decide, ?_⟩
  decide

end Idio
