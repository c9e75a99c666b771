/-
  Vm/Refinement.lean --- the instructions refine a machine of whole records.

  `recordStep` is what each instruction means on a stack of records.  It has no answer
  where the instruction raises a condition or panics, and none where the program does
  not keep the stack discipline: where an instruction would pop anything but a record
  of its own kind, or push a stack marker as a value.

  `step_refines` is the connection: where `recordStep` has an answer, the VM does the
  same on the layout.  So a property of all runs of records is one of all runs of the
  VM that keep the discipline.
-/
import Idio.Vm.Records

set_option autoImplicit false

namespace Idio

/-- The thread whose stack is the layout of the records. -/
def Thread.concrete (thr : Thread (List Record)) : Thread Stack := thr.withStack (layout thr.stack)

/-- The VM whose stack is the layout of the records. -/
def Vm.concrete (vm : Vm (List Record)) : Vm Stack :=
  ⟨vm.thr.concrete, vm.values, vm.suppressRcse⟩

/-- A record pushed. -/
def Thread.pushRecord (thr : Thread (List Record)) (r : Record) : Thread (List Record) :=
  thr.withStack (r :: thr.stack)

/-! ## The instructions on records -/

section Records

variable (ctx : Ctx) (thr : Thread (List Record))

/-- The record of `idio_vm_preserve_state`. -/
def preserveStateRecord : Option (Thread (List Record)) := do
  let frame ← ordinary? thr.frame
  let env ← ordinary? thr.env
  some (thr.pushRecord (.state frame env))

/-- The records of `idio_vm_preserve_all_state`. -/
def preserveAllStateRecords : Option (Thread (List Record)) := do
  let thr' ← preserveStateRecord thr
  let reg1 ← ordinary? thr.reg1
  let reg2 ← ordinary? thr.reg2
  let expr ← ordinary? thr.expr
  let func ← ordinary? thr.func
  let val ← ordinary? thr.val
  some (thr'.pushRecord (.allState reg1 reg2 expr func val))

/-- `idio_vm_restore_state` of a record. -/
def restoreStateRecord : Option (Thread (List Record)) :=
  match thr.stack with
  | .state frame env :: rs =>
      if env.val ≠ .nil ∧ isaModule ctx env.val = false then none
      else some { thr with frame := frame.val, env := env.val, stack := rs }
  | _ => none

/-- `idio_vm_restore_all_state` of two records. -/
def restoreAllStateRecords : Option (Thread (List Record)) :=
  match thr.stack with
  | .allState reg1 reg2 expr func val :: rs =>
      if ctx.interactive = false ∧ isaInvokable ctx func.val = false then none
      else restoreStateRecord ctx
        { thr with val := val.val, func := func.val, expr := expr.val, reg2 := reg2.val,
                   reg1 := reg1.val, stack := rs }
  | _ => none

/-- `idio_vm_invoke`. -/
def invokeRecords (func : Value) (tailp : Bool) : Option (Thread (List Record)) :=
  match func with
  | .pointer a => match ctx.heap.heap a with
      | .closure _ =>
          let cl := ctx.closures a
          let thr := if tailp then thr else thr.pushRecord (.ret thr.pc thr.xi)
          some { thr with frame := cl.frame, env := cl.env, xi := cl.xi, pc := cl.codePc }
      | .primitive _ => match ctx.primitives a thr.val with
          | .ok val => some { thr with val := val }
          | .error _ => none
      | _ => none
  | _ => none

/-- RETURN of a record. -/
def returnToRecord : Option (Thread (List Record)) :=
  match thr.stack with
  | .ret pc xi :: rs =>
      if xi ≥ ctx.codeSizes.length then none
      else if pc > ctx.codeSizes.getD xi 0 ∨ pc < 0 then none
      else some { thr with xi := xi, pc := pc, stack := rs }
  | _ => none

/-- `idio_vm_dynamic_set` and `idio_vm_environ_set`. -/
def assignRecords (kind : BindingKind) (values : List Value) (gvi : Nat) (v : Value) :
    Option (Thread (List Record) × List Value) := do
  let o ← ordinary? v
  match lookup kind gvi thr.stack with
  | some _ => some (thr.withStack (assign kind gvi o thr.stack), values)
  | none => if gvi < values.length then some (thr, values.set gvi v) else none

/-- `idio_vm_push_trap` of a trap that was first pushed at `origin`. -/
def pushTrapRecord (handler : Value) (fgci next origin : Int) : Option (Thread (List Record)) := do
  let o ← ordinary? handler
  if isaFunction ctx handler = false then none
  else
    let tsp := if next ≠ 0 then next else lastMarker .trap thr.stack
    some (thr.pushRecord (.trap ⟨storedTrap tsp, fgci, o, origin⟩))

/-- The trap at which `idio_vm_raise_condition` starts. -/
def firstTrapRecord (rs : List Record) (reraise : Bool) : Option Int :=
  let sp := if reraise then maxTrap rs 0 0 else lastMarker .trap rs
  if sp < 3 ∨ sp ≥ height rs then none else some sp

/-- The trap that a condition selects, and its index. -/
def selectTrap (condition : Value) (reraise : Bool) : Option (Int × TrapRecord) := do
  let sp ← firstTrapRecord thr.stack reraise
  walkTraps (trapIsa ctx thr.env condition (height thr.stack)) thr.stack (height thr.stack + 1) sp

/-- The records that save the registers for a handler. -/
def preserveRecords (IHR : Bool) : Option (Thread (List Record)) :=
  if IHR then preserveAllStateRecords thr else preserveStateRecord thr

/-- The records that `idio_vm_raise_condition` pushes for a selected trap, up to the
copy of the next trap. -/
def raiseRecords (IHR : Bool) (t : TrapRecord) : Option (Thread (List Record)) := do
  let next ← trapAt thr.stack t.next
  let thr ← preserveRecords (thr.pushRecord (.ret thr.pc thr.xi)) IHR
  pushTrapRecord ctx thr next.handler.val next.fgci next.next next.origin

/-- `idio_vm_raise_condition`. -/
def raiseRecord (continuablep : Bool) (condition : Value) (IHR reraise : Bool) (fr : Value) :
    Option (Thread (List Record)) := do
  let (_, t) ← selectTrap ctx thr condition reraise
  let thr ← raiseRecords ctx thr IHR t
  let pc := handlerReturnPc continuablep IHR
  let thr := if isaClosure ctx t.handler.val then thr.pushRecord (.ret pc thr.xi)
    else { thr with pc := pc }
  invokeRecords ctx { thr with val := fr } t.handler.val true

/-- `idio_vm_escaper_label_ref`. -/
def escapeRecords (label : Int) : Option (Thread (List Record)) := do
  let (e, below) ← findEscaper label thr.stack
  some { thr with frame := e.frame.val, pc := e.pc, stack := below }

/-- `idio_vm_push_offset_abort`. -/
def pushAbortRecord (krun : Value) : Option (Thread (List Record)) := do
  let k ← ordinary? krun
  some { thr.pushRecord (.abort k) with frame := .nil }

end Records

/-- One instruction, on records. -/
def recordStep (ctx : Ctx) (i : Instr) (vm : Vm (List Record)) : Option (Vm (List Record)) :=
  let thr := vm.thr
  let withThread (thr : Option (Thread (List Record))) : Option (Vm (List Record)) :=
    thr.map fun thr => { vm with thr := thr }
  match i with
  | .work r => some { vm with thr := { thr with toRegisters := r } }
  | .pushValue => withThread do
      let v ← ordinary? thr.val
      some (thr.pushRecord (.value v))
  | .popValue => match thr.stack with
      | .value v :: rs => some { vm with thr := { thr with val := v.val, stack := rs } }
      | _ => none
  | .preserveState => withThread (preserveStateRecord thr)
  | .restoreState => withThread (restoreStateRecord ctx thr)
  | .restoreAllState => withThread (restoreAllStateRecords ctx thr)
  | .functionInvoke => withThread (invokeRecords ctx thr thr.func false)
  | .functionGoto => withThread (invokeRecords ctx thr thr.func true)
  | .return_ => withThread (returnToRecord ctx thr)
  | .pushDynamic gvi => withThread do
      let v ← ordinary? thr.val
      some (thr.pushRecord (.binding .dynamic gvi v))
  | .popDynamic => match thr.stack with
      | .binding .dynamic _ _ :: rs => some { vm with thr := thr.withStack rs }
      | _ => none
  | .dynamicSet gvi => do
      let (thr, values) ← assignRecords thr .dynamic vm.values gvi thr.val
      some { vm with thr := thr, values := values }
  | .pushEnviron gvi => withThread do
      let v ← ordinary? thr.val
      some (thr.pushRecord (.binding .environ gvi v))
  | .popEnviron => match thr.stack with
      | .binding .environ _ _ :: rs => some { vm with thr := thr.withStack rs }
      | _ => none
  | .environSet gvi => do
      let (thr, values) ← assignRecords thr .environ vm.values gvi thr.val
      some { vm with thr := thr, values := values }
  | .pushTrap fgci =>
      withThread (pushTrapRecord ctx thr thr.val fgci 0 (height thr.stack + 3))
  | .popTrap => match thr.stack with
      | .trap _ :: rs => some { vm with thr := thr.withStack rs }
      | _ => none
  | .pushEscaper ci offset => withThread do
      let frame ← ordinary? thr.frame
      some (thr.pushRecord
        (.escaper ⟨thr.pc + offset + 1, frame, ci, thr.xi, vm.suppressRcse⟩))
  | .popEscaper => match thr.stack with
      | .escaper _ :: rs => some { vm with thr := thr.withStack rs }
      | _ => none
  | .escaperLabelRef ci => withThread (escapeRecords thr ci)
  | .suppressRcse => do
      let flag ← ordinary? vm.suppressRcse
      some { vm with thr := thr.pushRecord (.rcse flag), suppressRcse := .true_ }
  | .popRcse => match thr.stack with
      | .rcse flag :: rs => some { vm with thr := thr.withStack rs, suppressRcse := flag.val }
      | _ => none
  | .pushAbort krun => do
      let thr ← pushAbortRecord thr krun
      some { vm with thr := thr, suppressRcse := .false_ }
  | .popAbort => match thr.stack with
      | .abort _ :: rs => some { vm with thr := thr.withStack rs }
      | _ => none
  | .fork r => some { vm with thr := { thr with toRegisters := r }, suppressRcse := .false_ }
  | .raise continuablep condition IHR reraise fr =>
      withThread (raiseRecord ctx thr continuablep condition IHR reraise fr)

/-- A run, on records. -/
def recordRun (ctx : Ctx) : List Instr → Vm (List Record) → Option (Vm (List Record))
  | [], vm => some vm
  | i :: is, vm => (recordStep ctx i vm).bind (recordRun ctx is)

/-! ## Pushing and popping -/

theorem Thread.concrete_push (thr : Thread (List Record)) (r : Record) :
    (thr.pushRecord r).concrete = thr.concrete.pushN (r.slots thr.stack) := rfl

/-- Popping the last slot. -/
theorem Thread.pop_append (thr : Thread Stack) (s vs : Stack) (v : Value) :
    (thr.withStack (s ++ (vs ++ [v]))).pop = (v, thr.withStack (s ++ vs)) := by
  simp [Thread.pop, ← List.append_assoc]

theorem Thread.pop_single (thr : Thread Stack) (s : Stack) (v : Value) :
    (thr.withStack (s ++ [v])).pop = (v, thr.withStack s) := by
  simpa using Thread.pop_append thr s [] v

/-- The slots of the topmost record. -/
theorem Thread.concrete_of_stack {thr : Thread (List Record)} {r : Record} {rs : List Record}
    (h : thr.stack = r :: rs) :
    thr.concrete = thr.concrete.withStack (layout rs ++ r.slots rs) := by
  rw [Thread.concrete, h]
  rfl

/-- Popping a record of one slot. -/
theorem Thread.concrete_pop {thr : Thread (List Record)} {r : Record} {rs : List Record}
    {v : Value} (h : thr.stack = r :: rs) (hslots : r.slots rs = [v]) :
    thr.concrete.pop = (v, (thr.withStack rs).concrete) := by
  rw [Thread.concrete_of_stack h, hslots, Thread.pop_single]
  rfl

/-- Popping a record of four slots. -/
theorem popRecord_refines {thr : Thread (List Record)} {r : Record} {rs : List Record}
    {a b c : Value} (mark : Marker) (msg : String) (h : thr.stack = r :: rs)
    (hslots : r.slots rs = [a, b, c, mark.value]) :
    popRecord mark msg thr.concrete = .ok (thr.withStack rs).concrete := by
  have h4 := Thread.pop_append thr.concrete (layout rs) [a, b, c] mark.value
  have h3 := Thread.pop_append thr.concrete (layout rs) [a, b] c
  have h2 := Thread.pop_append thr.concrete (layout rs) [a] b
  have h1 := Thread.pop_single thr.concrete (layout rs) a
  simp only [List.cons_append, List.nil_append] at h4 h3 h2
  rw [Thread.concrete_of_stack h, hslots]
  unfold popRecord
  simp only [h4, h3, h2, h1, ne_eq, not_true_eq_false, if_false]
  rfl

/-! ## Each function refines its record form -/

section Functions

variable {ctx : Ctx} {thr thr' : Thread (List Record)}

theorem preserveState_refines (h : preserveStateRecord thr = some thr') :
    preserveState thr.concrete = thr'.concrete := by
  simp only [preserveStateRecord, Option.bind_eq_bind, Option.bind_eq_some_iff,
    Option.some.injEq] at h
  obtain ⟨frame, hframe, env, henv, rfl⟩ := h
  rw [Thread.concrete_push]
  simp only [Record.slots, ordinary?_eq_some hframe, ordinary?_eq_some henv]
  rfl

theorem preserveState_registers (h : preserveStateRecord thr = some thr') :
    thr' = thr.withStack thr'.stack := by
  simp only [preserveStateRecord, Option.bind_eq_bind, Option.bind_eq_some_iff,
    Option.some.injEq] at h
  obtain ⟨frame, -, env, -, rfl⟩ := h
  rfl

theorem preserveAllState_refines (h : preserveAllStateRecords thr = some thr') :
    preserveAllState thr.concrete = thr'.concrete := by
  simp only [preserveAllStateRecords, Option.bind_eq_bind, Option.bind_eq_some_iff,
    Option.some.injEq] at h
  obtain ⟨mid, hmid, reg1, h1, reg2, h2, expr, h3, func, h4, val, h5, rfl⟩ := h
  rw [Thread.concrete_push, preserveAllState, preserveState_refines hmid]
  simp only [Record.slots, ordinary?_eq_some h1, ordinary?_eq_some h2, ordinary?_eq_some h3,
    ordinary?_eq_some h4, ordinary?_eq_some h5]
  rfl

theorem restoreState_refines (h : restoreStateRecord ctx thr = some thr') :
    restoreState ctx thr.concrete = .ok thr'.concrete := by
  unfold restoreStateRecord at h
  split at h
  · rename_i frame env rs hstack
    split at h
    · cases h
    · rename_i hmodule
      cases h
      have h3 := Thread.pop_append thr.concrete (layout rs) [frame.val, env.val]
        Marker.preserveState.value
      have h2 := Thread.pop_append thr.concrete (layout rs) [frame.val] env.val
      have h1 := Thread.pop_single thr.concrete (layout rs) frame.val
      simp only [List.cons_append, List.nil_append] at h3 h2
      rw [Thread.concrete_of_stack hstack, Record.slots]
      unfold restoreState
      simp only [h3, h2, h1, ne_eq, not_true_eq_false, if_false]
      rw [if_neg hmodule]
      rfl
  · cases h

theorem restoreAllState_refines (h : restoreAllStateRecords ctx thr = some thr') :
    restoreAllState ctx thr.concrete = .ok thr'.concrete := by
  unfold restoreAllStateRecords at h
  split at h
  · rename_i reg1 reg2 expr func val rs hstack
    split at h
    · cases h
    · rename_i hfunc
      have h6 := Thread.pop_append thr.concrete (layout rs)
        [reg1.val, reg2.val, expr.val, func.val, val.val] Marker.preserveAllState.value
      have h5 := Thread.pop_append thr.concrete (layout rs)
        [reg1.val, reg2.val, expr.val, func.val] val.val
      have h4 := Thread.pop_append thr.concrete (layout rs) [reg1.val, reg2.val, expr.val] func.val
      have h3 := Thread.pop_append thr.concrete (layout rs) [reg1.val, reg2.val] expr.val
      have h2 := Thread.pop_append thr.concrete (layout rs) [reg1.val] reg2.val
      have h1 := Thread.pop_single thr.concrete (layout rs) reg1.val
      simp only [List.cons_append, List.nil_append] at h6 h5 h4 h3 h2
      rw [Thread.concrete_of_stack hstack, Record.slots]
      unfold restoreAllState
      simp only [h6, h5, h4, h3, h2, h1, ne_eq, not_true_eq_false, if_false]
      rw [if_neg hfunc]
      exact restoreState_refines h
  · cases h

theorem invoke_refines {func : Value} {tailp : Bool}
    (h : invokeRecords ctx thr func tailp = some thr') :
    invoke ctx thr.concrete func tailp = .ok thr'.concrete := by
  unfold invokeRecords at h
  unfold invoke
  cases func with
  | fixnum v => cases h
  | constant w => cases h
  | pointer a =>
    cases hobj : ctx.heap.heap a with
    | closure f =>
      simp only [hobj] at h
      cases h
      simp only [hobj]
      cases tailp <;> rfl
    | primitive f =>
      simp only [hobj] at h
      cases hval : ctx.primitives a thr.val with
      | ok val =>
        rw [hval] at h
        cases h
        have hprim : ctx.primitives a thr.concrete.val = .ok val := hval
        simp only [hobj, hprim]
        rfl
      | error e =>
        rw [hval] at h
        cases h
    | _ =>
      simp only [hobj] at h
      cases h

theorem returnTo_refines (h : returnToRecord ctx thr = some thr') :
    returnTo ctx thr.concrete = .ok thr'.concrete := by
  unfold returnToRecord at h
  split at h
  · rename_i pc xi rs hstack
    split at h
    · cases h
    · rename_i hxi
      split at h
      · cases h
      · rename_i hpc
        cases h
        have h3 := Thread.pop_append thr.concrete (layout rs) [.fixnum pc, .fixnum xi]
          Marker.return_.value
        have h2 := Thread.pop_append thr.concrete (layout rs) [.fixnum pc] (.fixnum xi)
        have h1 := Thread.pop_single thr.concrete (layout rs) (.fixnum pc)
        simp only [List.cons_append, List.nil_append] at h3 h2
        rw [Thread.concrete_of_stack hstack, Record.slots]
        unfold returnTo
        simp only [h3, h2, h1, ne_eq, not_true_eq_false, if_false, Int.toNat_natCast]
        rw [if_neg (by omega), if_neg hpc]
        rfl
  · cases h

theorem pushBinding_refines (kind : BindingKind) (gvi : Nat) (v : OrdinaryValue) :
    pushBinding kind.marker thr.concrete gvi v.val =
      .ok (thr.pushRecord (.binding kind gvi v)).concrete := by
  unfold pushBinding
  have hfind : findStackMarker thr.concrete.stack kind.marker 0 =
      .ok (lastMarker kind.marker thr.stack) := findStackMarker_layout _ _
  rw [hfind, Thread.concrete_push]
  rfl

theorem bindingSet_refines {kind : BindingKind} {values values' : List Value} {gvi : Nat}
    {v : Value} (h : assignRecords thr kind values gvi v = some (thr', values')) :
    bindingSet kind.marker thr.concrete values gvi v = .ok (thr'.concrete, values') := by
  simp only [assignRecords, Option.bind_eq_bind, Option.bind_eq_some_iff] at h
  obtain ⟨o, ho, h⟩ := h
  have hv := ordinary?_eq_some ho
  have hfind : findStackMarker thr.concrete.stack kind.marker 0 =
      .ok (lastMarker kind.marker thr.stack) := findStackMarker_layout _ _
  have hlen : thr.concrete.stack.length = height thr.stack := layout_length _
  have hloop : bindingLoop thr.concrete.stack gvi (height thr.stack + 1)
      (lastMarker kind.marker thr.stack) = .ok (boundAt kind gvi thr.stack) :=
    bindingLoop_layout kind gvi thr.stack [] (Nat.lt_succ_self _)
  unfold bindingSet
  rw [hfind]
  simp only [ok_bind]
  rw [hlen, hloop]
  simp only [ok_bind]
  cases hbound : boundAt kind gvi thr.stack with
  | none =>
    rw [boundAt_none hbound] at h
    dsimp only at h ⊢
    split at h
    · rename_i hlt
      cases h
      rw [Stack.insertIndex, if_pos (by omega)]
      rfl
    · cases h
  | some sp =>
    obtain ⟨old, hlookup, -⟩ := boundAt_slot thr.stack [] hbound
    obtain ⟨hlo, hhi, hlay⟩ := layout_assign o thr.stack hbound
    rw [hlookup] at h
    cases h
    dsimp only
    have hset : Stack.insertIndex thr.concrete.stack v (sp - 2) =
        .ok (layout (assign kind gvi o thr.stack)) := by
      rw [Stack.insertIndex, hlen, if_pos (by omega), hlay, hv]
      rfl
    rw [hset]
    rfl

theorem pushTrap_refines {handler : Value} {fgci next origin : Int}
    (h : pushTrapRecord ctx thr handler fgci next origin = some thr') :
    pushTrap ctx thr.concrete handler (.fixnum fgci) next = .ok thr'.concrete := by
  simp only [pushTrapRecord, Option.bind_eq_bind, Option.bind_eq_some_iff] at h
  obtain ⟨o, ho, h⟩ := h
  split at h
  · cases h
  · rename_i hfunc
    cases h
    have hfind : findStackMarker thr.concrete.stack .trap 0 =
        .ok (lastMarker .trap thr.stack) := findStackMarker_layout _ _
    rw [pushTrap, if_neg hfunc, hfind, Thread.concrete_push]
    simp only [Record.slots, ordinary?_eq_some ho]
    rfl

/-- The search for the first trap. -/
theorem firstTrap_refines {rs : List Record} {reraise : Bool} {sp : Int}
    (h : firstTrapRecord rs reraise = some sp) : firstTrap (layout rs) reraise = .ok sp := by
  unfold firstTrapRecord at h
  unfold firstTrap
  rw [findStackMarker_layout]
  cases reraise with
  | false =>
    simp only [Bool.false_eq_true, if_false, ok_bind] at h ⊢
    by_cases hrange : lastMarker .trap rs < 3 ∨ lastMarker .trap rs ≥ height rs
    · rw [if_pos hrange] at h
      cases h
    · rw [if_neg hrange] at h
      cases h
      rw [layout_length, if_neg (by omega), if_neg (by omega)]
  | true =>
    simp only [if_true, ok_bind] at h ⊢
    by_cases hrange : maxTrap rs 0 0 < 3 ∨ maxTrap rs 0 0 ≥ height rs
    · rw [if_pos hrange] at h
      cases h
    · rw [if_neg hrange] at h
      cases h
      have hmax := maxLoop_layout rs [] 0 0
      rw [List.nil_append] at hmax
      have hfind : findMaxTrap (layout rs) = .ok (maxTrap rs 0 0) := by
        unfold findMaxTrap
        dsimp only
        rw [layout_length, if_neg (by omega), hmax]
      rw [hfind]
      simp only [ok_bind]
      rw [layout_length, if_neg (by omega), if_neg (by omega)]

/-- A trap is where it was after the thread has pushed records. -/
theorem trapAt_slots_of_suffix {rs ss : List Record} {sp : Int} {t : TrapRecord}
    (hss : ∃ above, ss = above ++ rs) (h : trapAt rs sp = some t) :
    (layout ss).refIndex (sp - 1) = .ok t.handler.val ∧
      (layout ss).refIndex (sp - 2) = .ok (.fixnum t.fgci) ∧
      (layout ss).refIndex (sp - 3) = .ok (.fixnum t.next) := by
  obtain ⟨above, rfl⟩ := hss
  exact (trapAt_slots above h).2.2

theorem pushNextTrap_refines {rs : List Record} {sp : Int} {t next : TrapRecord}
    (hsuffix : ∃ above, thr.stack = above ++ rs) (ht : trapAt rs sp = some t)
    (hnext : trapAt rs t.next = some next)
    (h : pushTrapRecord ctx thr next.handler.val next.fgci next.next next.origin = some thr') :
    pushNextTrap ctx thr.concrete sp = .ok thr'.concrete := by
  obtain ⟨-, -, h3⟩ := trapAt_slots_of_suffix hsuffix ht
  obtain ⟨h1', h2', h3'⟩ := trapAt_slots_of_suffix hsuffix hnext
  have hstack : thr.concrete.stack = layout thr.stack := rfl
  unfold pushNextTrap
  rw [hstack, h3]
  simp only [ok_bind, fixnumVal]
  rw [h1', h2', h3']
  simp only [ok_bind]
  exact pushTrap_refines h

/-- Saving the registers for a handler. -/
theorem preserve_refines {IHR : Bool} (h : preserveRecords thr IHR = some thr') :
    (if IHR then preserveAllState thr.concrete else preserveState thr.concrete) =
        thr'.concrete ∧ thr' = thr.withStack thr'.stack ∧
      ∃ above, thr'.stack = above ++ thr.stack := by
  have state : ∀ {mid}, preserveStateRecord thr = some mid →
      ∃ above, mid.stack = above ++ thr.stack := by
    intro mid hmid
    simp only [preserveStateRecord, Option.bind_eq_bind, Option.bind_eq_some_iff,
      Option.some.injEq] at hmid
    obtain ⟨frame, -, env, -, rfl⟩ := hmid
    exact ⟨[_], rfl⟩
  unfold preserveRecords at h
  cases IHR with
  | false =>
    simp only [Bool.false_eq_true, if_false] at h ⊢
    exact ⟨preserveState_refines h, preserveState_registers h, state h⟩
  | true =>
    simp only [if_true] at h ⊢
    refine ⟨preserveAllState_refines h, ?_⟩
    simp only [preserveAllStateRecords, Option.bind_eq_bind, Option.bind_eq_some_iff,
      Option.some.injEq] at h
    obtain ⟨mid, hmid, reg1, -, reg2, -, expr, -, func, -, val, -, rfl⟩ := h
    obtain ⟨above, habove⟩ := state hmid
    have hregs := preserveState_registers hmid
    refine ⟨?_, .allState reg1 reg2 expr func val :: above, ?_⟩
    · conv_lhs => rw [hregs]
      rfl
    · show _ :: mid.stack = _
      rw [habove]
      rfl

theorem raiseCondition_refines {continuablep IHR reraise : Bool} {condition fr : Value}
    (h : raiseRecord ctx thr continuablep condition IHR reraise fr = some thr') :
    raiseCondition ctx thr.concrete continuablep condition IHR reraise fr =
      .ok thr'.concrete := by
  simp only [raiseRecord, selectTrap, raiseRecords, Option.bind_eq_bind,
    Option.bind_eq_some_iff, Prod.exists] at h
  obtain ⟨sp, t, ⟨first, hfirst, hwalk⟩, pushed, ⟨next, hnext, saved, hsaved, hpush⟩, hinvoke⟩ := h
  have ht := walkTraps_trapAt hwalk
  obtain ⟨hconc, -, above, habove⟩ := preserve_refines hsaved
  have hsuffix : ∃ above, saved.stack = above ++ thr.stack :=
    ⟨above ++ [.ret thr.pc thr.xi], by rw [habove]; simp [Thread.pushRecord]⟩
  have hstack : thr.concrete.stack = layout thr.stack := rfl
  unfold raiseCondition
  rw [hstack, firstTrap_refines hfirst]
  simp only [ok_bind]
  have hloop : trapLoop (trapIsa ctx thr.concrete.env condition (layout thr.stack).length)
      (layout thr.stack) ((layout thr.stack).length + 1) first = .ok (sp, t.handler.val) := by
    rw [layout_length]
    exact trapLoop_layout hwalk
  have hret : pushReturn thr.concrete thr.concrete.pc =
      (thr.pushRecord (.ret thr.pc thr.xi)).concrete := rfl
  rw [hloop]
  simp only [ok_bind]
  rw [hret, hconc, pushNextTrap_refines hsuffix ht hnext hpush]
  simp only [ok_bind]
  rw [← invoke_refines hinvoke]
  congr 1
  by_cases hclos : isaClosure ctx t.handler.val = true
  · simp only [if_pos hclos]
    rfl
  · simp only [if_neg hclos]
    rfl

theorem escaperLabelRef_refines {label : Int} (h : escapeRecords thr label = some thr') :
    escaperLabelRef thr.concrete label = .ok thr'.concrete := by
  simp only [escapeRecords, Option.bind_eq_bind, Option.bind_eq_some_iff, Option.some.injEq,
    Prod.exists] at h
  obtain ⟨e, below, hfind, rfl⟩ := h
  obtain ⟨-, above, hstack⟩ := findEscaper_eq_some hfind
  have hconc : thr.concrete.stack = layout thr.stack := rfl
  have hloop := escaperLoop_top label thr.stack
  rw [hfind] at hloop
  have hframe := refIndex_layout above below (.escaper e) (k := 1)
    (i := height below + 3 - 2) rfl (by push_cast; omega)
  have hpc := refIndex_layout above below (.escaper e) (k := 0)
    (i := height below + 3 - 3) rfl (by push_cast; omega)
  rw [← hstack] at hframe hpc
  unfold escaperLabelRef
  rw [hconc, hloop]
  simp only [ok_bind, Option.map_some]
  rw [hframe, hpc]
  simp only [ok_bind, fixnumVal]
  have htake : (layout thr.stack).take (((height below : Int) + 3 - 3).toNat) = layout below := by
    obtain ⟨u, hu⟩ := layout_append above (.escaper e :: below)
    rw [hstack, hu, layout, List.append_assoc,
      show ((height below : Int) + 3 - 3).toNat = height below by omega]
    exact List.take_left' (layout_length below)
  rw [htake]
  rfl

theorem pushOffsetAbort_refines {krun : Value} (h : pushAbortRecord thr krun = some thr') :
    pushOffsetAbort thr.concrete krun = .ok thr'.concrete := by
  simp only [pushAbortRecord, Option.bind_eq_bind, Option.bind_eq_some_iff,
    Option.some.injEq] at h
  obtain ⟨k, hk, rfl⟩ := h
  have hfind : findStackMarker thr.concrete.stack .abort 0 =
      .ok (lastMarker .abort thr.stack) := findStackMarker_layout _ _
  unfold pushOffsetAbort
  rw [hfind, ← ordinary?_eq_some hk]
  rfl

theorem popAbort_refines {krun : OrdinaryValue} {rs : List Record}
    (h : thr.stack = .abort krun :: rs) :
    popAbort thr.concrete = .ok (thr.withStack rs).concrete := by
  have h3 := Thread.pop_append thr.concrete (layout rs)
    [.fixnum (storedAbort (lastMarker .abort rs)), krun.val] Marker.abort.value
  have h2 := Thread.pop_append thr.concrete (layout rs)
    [.fixnum (storedAbort (lastMarker .abort rs))] krun.val
  have h1 := Thread.pop_single thr.concrete (layout rs)
    (.fixnum (storedAbort (lastMarker .abort rs)))
  simp only [List.cons_append, List.nil_append] at h3 h2
  rw [Thread.concrete_of_stack h, Record.slots]
  unfold popAbort
  simp only [h3, h2, h1, ne_eq, not_true_eq_false, if_false]
  rfl

end Functions

/-! ## Steps and runs -/

/-- **The refinement.**  What an instruction does to records it does to their layout. -/
theorem step_refines {ctx : Ctx} {i : Instr} {vm vm' : Vm (List Record)}
    (h : recordStep ctx i vm = some vm') : step ctx i vm.concrete = .ok vm'.concrete := by
  have with_thread : ∀ {r : Result (Thread Stack)} {o : Option (Thread (List Record))},
      (∀ thr', o = some thr' → r = .ok thr'.concrete) →
      o.map (fun thr => { vm with thr := thr }) = some vm' →
      vm.concrete.withThread r = .ok vm'.concrete := by
    intro r o hr ho
    obtain ⟨thr', hthr, rfl⟩ := Option.map_eq_some_iff.mp ho
    rw [hr thr' hthr]
    rfl
  have thread_ok : ∀ {r : Result (Thread Stack)} {thr' : Thread (List Record)},
      r = .ok thr'.concrete →
      vm.concrete.withThread r = .ok ({ vm with thr := thr' } : Vm (List Record)).concrete := by
    intro r thr' hr
    rw [hr]
    rfl
  have pushed : ∀ {v : Value} {f : OrdinaryValue → Thread (List Record)} {thr'},
      (ordinary? v >>= fun o => some (f o)) = some thr' → ∃ o, o.val = v ∧ f o = thr' := by
    intro v f thr' hp
    simp only [Option.bind_eq_bind, Option.bind_eq_some_iff, Option.some.injEq] at hp
    obtain ⟨o, ho, hf⟩ := hp
    exact ⟨o, ordinary?_eq_some ho, hf⟩
  cases i with
  | work r =>
    cases h
    rfl
  | pushValue =>
    refine with_thread (r := .ok (vm.concrete.thr.push vm.concrete.thr.val)) ?_ h
    intro thr' hthr
    obtain ⟨o, ho, rfl⟩ := pushed hthr
    rw [Thread.concrete_push]
    simp only [Record.slots, ho]
    rfl
  | popValue =>
    simp only [recordStep] at h
    split at h
    · rename_i v rs hstack
      cases h
      show Except.ok { vm.concrete with thr := popValue vm.thr.concrete } = _
      rw [popValue, Thread.concrete_pop hstack rfl]
      rfl
    · cases h
  | preserveState =>
    refine with_thread (r := .ok (preserveState vm.concrete.thr)) ?_ h
    intro thr' hthr
    exact congrArg _ (preserveState_refines hthr)
  | restoreState => exact with_thread (fun _ hthr => restoreState_refines hthr) h
  | restoreAllState => exact with_thread (fun _ hthr => restoreAllState_refines hthr) h
  | functionInvoke => exact with_thread (fun _ hthr => invoke_refines hthr) h
  | functionGoto => exact with_thread (fun _ hthr => invoke_refines hthr) h
  | return_ => exact with_thread (fun _ hthr => returnTo_refines hthr) h
  | pushDynamic gvi =>
    refine with_thread (fun thr' hthr => ?_) h
    obtain ⟨o, ho, rfl⟩ := pushed hthr
    show pushBinding BindingKind.dynamic.marker vm.thr.concrete gvi vm.thr.val = _
    rw [← ho]
    exact pushBinding_refines .dynamic gvi o
  | popDynamic =>
    simp only [recordStep] at h
    split at h
    · rename_i gvi val rs hstack
      cases h
      exact thread_ok (popRecord_refines .dynamic _ hstack rfl)
    · cases h
  | dynamicSet gvi =>
    simp only [recordStep, Option.bind_eq_bind, Option.bind_eq_some_iff, Option.some.injEq,
      Prod.exists] at h
    obtain ⟨thr', values, hassign, rfl⟩ := h
    have hset := bindingSet_refines hassign
    show (bindingSet BindingKind.dynamic.marker vm.thr.concrete vm.values gvi vm.thr.val >>= _) = _
    rw [hset]
    rfl
  | pushEnviron gvi =>
    refine with_thread (fun thr' hthr => ?_) h
    obtain ⟨o, ho, rfl⟩ := pushed hthr
    show pushBinding BindingKind.environ.marker vm.thr.concrete gvi vm.thr.val = _
    rw [← ho]
    exact pushBinding_refines .environ gvi o
  | popEnviron =>
    simp only [recordStep] at h
    split at h
    · rename_i gvi val rs hstack
      cases h
      exact thread_ok (popRecord_refines .environ _ hstack rfl)
    · cases h
  | environSet gvi =>
    simp only [recordStep, Option.bind_eq_bind, Option.bind_eq_some_iff, Option.some.injEq,
      Prod.exists] at h
    obtain ⟨thr', values, hassign, rfl⟩ := h
    have hset := bindingSet_refines hassign
    show (bindingSet BindingKind.environ.marker vm.thr.concrete vm.values gvi vm.thr.val >>= _) = _
    rw [hset]
    rfl
  | pushTrap fgci => exact with_thread (fun _ hthr => pushTrap_refines hthr) h
  | popTrap =>
    simp only [recordStep] at h
    split at h
    · rename_i t rs hstack
      cases h
      exact thread_ok (popRecord_refines .trap _ hstack rfl)
    · cases h
  | pushEscaper ci offset =>
    refine with_thread (r := .ok (pushEscaper vm.concrete.thr ci offset)) ?_ h
    intro thr' hthr
    obtain ⟨o, ho, rfl⟩ := pushed hthr
    rw [Thread.concrete_push]
    simp only [Record.slots, ho]
    rfl
  | popEscaper =>
    simp only [recordStep] at h
    split at h
    · rename_i e rs hstack
      cases h
      exact thread_ok (popRecord_refines .escaper _ hstack rfl)
    · cases h
  | escaperLabelRef ci => exact with_thread (fun _ hthr => escaperLabelRef_refines hthr) h
  | suppressRcse =>
    simp only [recordStep, Option.bind_eq_bind, Option.bind_eq_some_iff, Option.some.injEq] at h
    obtain ⟨flag, hflag, rfl⟩ := h
    have hpush : vm.concrete.thr.push vm.concrete.suppressRcse =
        (vm.thr.pushRecord (.rcse flag)).concrete := by
      rw [Thread.concrete_push]
      simp only [Record.slots, ordinary?_eq_some hflag]
      rfl
    simp only [step, hpush]
    rfl
  | popRcse =>
    simp only [recordStep] at h
    split at h
    · rename_i flag rs hstack
      cases h
      have hpop : vm.concrete.thr.pop = (flag.val, (vm.thr.withStack rs).concrete) :=
        Thread.concrete_pop hstack rfl
      simp only [step, hpop]
      rfl
    · cases h
  | pushAbort krun =>
    simp only [recordStep, Option.bind_eq_bind, Option.bind_eq_some_iff, Option.some.injEq] at h
    obtain ⟨thr', hthr, rfl⟩ := h
    show (pushOffsetAbort vm.thr.concrete krun >>= _) = _
    rw [pushOffsetAbort_refines hthr]
    rfl
  | popAbort =>
    simp only [recordStep] at h
    split at h
    · rename_i krun rs hstack
      cases h
      exact thread_ok (popAbort_refines hstack)
    · cases h
  | fork r =>
    cases h
    rfl
  | raise continuablep condition IHR reraise fr =>
    exact with_thread (fun _ hthr => raiseCondition_refines hthr) h

/-- A run of records is a run of the VM. -/
theorem run_refines {ctx : Ctx} {is : List Instr} {vm vm' : Vm (List Record)}
    (h : recordRun ctx is vm = some vm') : run ctx is vm.concrete = .ok vm'.concrete := by
  induction is generalizing vm with
  | nil =>
    cases h
    rfl
  | cons i is ih =>
    obtain ⟨mid, hstep, hrest⟩ := Option.bind_eq_some_iff.mp h
    rw [run, step_refines hstep]
    exact ih hrest

/-! ## What a step can do -/

/-- The records that only save values, registers and return addresses. -/
def Record.saves : Record → Bool
  | .value _ | .ret _ _ | .state _ _ | .allState .. => true
  | _ => false

/-- Such records on top of a stack. -/
def SavedOn (rs rs' : List Record) : Prop :=
  ∃ saved, rs' = saved ++ rs ∧ ∀ r ∈ saved, r.saves = true

/-- The instructions that push or pop only such records. -/
def Instr.savesOnly : Instr → Bool
  | .work _ | .pushValue | .popValue | .preserveState | .restoreState | .restoreAllState
  | .functionInvoke | .functionGoto | .return_ => true
  | _ => false

/-- The VM with a record pushed. -/
def Vm.push (vm : Vm (List Record)) (r : Record) : Vm (List Record) :=
  { vm with thr := vm.thr.pushRecord r }

/-- The copy of a trap on top of the stack. -/
def TrapRecord.copy (next : TrapRecord) (rs : List Record) : TrapRecord :=
  { next with next := storedTrap (if next.next ≠ 0 then next.next else lastMarker .trap rs) }

/-- What an instruction does to the records and the suppress flag. -/
inductive Effect (ctx : Ctx) (vm vm' : Vm (List Record)) : Instr → Prop where
  | saves {i : Instr} (hi : i.savesOnly = true)
      (stack : SavedOn vm.thr.stack vm'.thr.stack ∨ SavedOn vm'.thr.stack vm.thr.stack)
      (flag : vm'.suppressRcse = vm.suppressRcse) : Effect ctx vm vm' i
  | pushDynamic {gvi : Nat} (v : OrdinaryValue) (val : v.val = vm.thr.val)
      (eq : vm' = vm.push (.binding .dynamic gvi v)) :
      Effect ctx vm vm' (.pushDynamic gvi)
  | pushEnviron {gvi : Nat} (v : OrdinaryValue) (val : v.val = vm.thr.val)
      (eq : vm' = vm.push (.binding .environ gvi v)) :
      Effect ctx vm vm' (.pushEnviron gvi)
  | popDynamic {gvi : Nat} {v : OrdinaryValue}
      (stack : vm.thr.stack = .binding .dynamic gvi v :: vm'.thr.stack)
      (flag : vm'.suppressRcse = vm.suppressRcse) : Effect ctx vm vm' .popDynamic
  | popEnviron {gvi : Nat} {v : OrdinaryValue}
      (stack : vm.thr.stack = .binding .environ gvi v :: vm'.thr.stack)
      (flag : vm'.suppressRcse = vm.suppressRcse) : Effect ctx vm vm' .popEnviron
  | dynamicSet {gvi : Nat} {thr' : Thread (List Record)} {values' : List Value}
      (assign : assignRecords vm.thr .dynamic vm.values gvi vm.thr.val = some (thr', values'))
      (eq : vm' = { vm with thr := thr', values := values' }) :
      Effect ctx vm vm' (.dynamicSet gvi)
  | environSet {gvi : Nat} {thr' : Thread (List Record)} {values' : List Value}
      (assign : assignRecords vm.thr .environ vm.values gvi vm.thr.val = some (thr', values'))
      (eq : vm' = { vm with thr := thr', values := values' }) :
      Effect ctx vm vm' (.environSet gvi)
  | pushTrap {fgci : Int} (handler : OrdinaryValue)
      (eq : vm' = vm.push (.trap ⟨storedTrap (lastMarker .trap vm.thr.stack), fgci, handler,
        height vm.thr.stack + 3⟩)) :
      Effect ctx vm vm' (.pushTrap fgci)
  | popTrap {t : TrapRecord} (stack : vm.thr.stack = .trap t :: vm'.thr.stack)
      (flag : vm'.suppressRcse = vm.suppressRcse) : Effect ctx vm vm' .popTrap
  | pushEscaper {ci : Int} {offset : Nat} (frame : OrdinaryValue) (val : frame.val = vm.thr.frame)
      (eq : vm' = vm.push
        (.escaper ⟨vm.thr.pc + offset + 1, frame, ci, vm.thr.xi, vm.suppressRcse⟩)) :
      Effect ctx vm vm' (.pushEscaper ci offset)
  | popEscaper {e : EscaperRecord} (stack : vm.thr.stack = .escaper e :: vm'.thr.stack)
      (flag : vm'.suppressRcse = vm.suppressRcse) : Effect ctx vm vm' .popEscaper
  | escaperLabelRef {ci : Int} {e : EscaperRecord} {below : List Record}
      (found : findEscaper ci vm.thr.stack = some (e, below))
      (eq : vm' =
        { vm with thr := { vm.thr with frame := e.frame.val, pc := e.pc, stack := below } }) :
      Effect ctx vm vm' (.escaperLabelRef ci)
  | suppressRcse (flag : OrdinaryValue) (val : flag.val = vm.suppressRcse)
      (eq : vm' = { vm.push (.rcse flag) with suppressRcse := .true_ }) :
      Effect ctx vm vm' .suppressRcse
  | popRcse {flag : OrdinaryValue} (stack : vm.thr.stack = .rcse flag :: vm'.thr.stack)
      (restored : vm'.suppressRcse = flag.val) : Effect ctx vm vm' .popRcse
  | pushAbort {krun : Value} (k : OrdinaryValue)
      (stack : vm'.thr.stack = .abort k :: vm.thr.stack)
      (reset : vm'.suppressRcse = .false_) : Effect ctx vm vm' (.pushAbort krun)
  | popAbort {k : OrdinaryValue} (stack : vm.thr.stack = .abort k :: vm'.thr.stack)
      (flag : vm'.suppressRcse = vm.suppressRcse) : Effect ctx vm vm' .popAbort
  | fork {r : Registers} (stack : vm'.thr.stack = vm.thr.stack)
      (reset : vm'.suppressRcse = .false_) : Effect ctx vm vm' (.fork r)
  | raise {continuablep IHR reraise : Bool} {condition fr : Value} {sp : Int}
      {t next : TrapRecord} {saved return_ : List Record}
      (select : selectTrap ctx vm.thr condition reraise = some (sp, t))
      (following : trapAt vm.thr.stack t.next = some next)
      (savedOn : SavedOn vm.thr.stack saved)
      (returnOn : ∀ r ∈ return_, r.saves = true)
      (stack : vm'.thr.stack = return_ ++ .trap (next.copy saved) :: saved)
      (flag : vm'.suppressRcse = vm.suppressRcse) :
      Effect ctx vm vm' (.raise continuablep condition IHR reraise fr)

theorem SavedOn.refl (rs : List Record) : SavedOn rs rs := ⟨[], rfl, by simp⟩

theorem SavedOn.cons {r : Record} (h : r.saves = true) (rs : List Record) : SavedOn rs (r :: rs) :=
  ⟨[r], rfl, by simpa using h⟩

theorem SavedOn.trans {a b c : List Record} (hab : SavedOn a b) (hbc : SavedOn b c) :
    SavedOn a c := by
  obtain ⟨s, rfl, hs⟩ := hab
  obtain ⟨t, rfl, ht⟩ := hbc
  refine ⟨t ++ s, by rw [List.append_assoc], fun r hr => ?_⟩
  obtain h | h := List.mem_append.mp hr
  · exact ht r h
  · exact hs r h

theorem SavedOn.height_le {rs rs' : List Record} (h : SavedOn rs rs') :
    height rs ≤ height rs' := by
  obtain ⟨saved, rfl, -⟩ := h
  exact height_append_le saved rs

section Effects

variable {ctx : Ctx} {thr thr' : Thread (List Record)}

theorem preserveState_saves (h : preserveStateRecord thr = some thr') :
    SavedOn thr.stack thr'.stack := by
  simp only [preserveStateRecord, Option.bind_eq_bind, Option.bind_eq_some_iff,
    Option.some.injEq] at h
  obtain ⟨frame, -, env, -, rfl⟩ := h
  exact SavedOn.cons rfl _

theorem preserve_saves {IHR : Bool} (h : preserveRecords thr IHR = some thr') :
    SavedOn thr.stack thr'.stack := by
  unfold preserveRecords at h
  split at h
  · simp only [preserveAllStateRecords, Option.bind_eq_bind, Option.bind_eq_some_iff,
      Option.some.injEq] at h
    obtain ⟨mid, hmid, reg1, -, reg2, -, expr, -, func, -, val, -, rfl⟩ := h
    exact (preserveState_saves hmid).trans (SavedOn.cons rfl _)
  · exact preserveState_saves h

theorem restoreState_saves (h : restoreStateRecord ctx thr = some thr') :
    SavedOn thr'.stack thr.stack := by
  unfold restoreStateRecord at h
  split at h
  · rename_i frame env rs hstack
    split at h
    · cases h
    · cases h
      rw [hstack]
      exact SavedOn.cons rfl rs
  · cases h

theorem restoreAllState_saves (h : restoreAllStateRecords ctx thr = some thr') :
    SavedOn thr'.stack thr.stack := by
  unfold restoreAllStateRecords at h
  split at h
  · rename_i reg1 reg2 expr func val rs hstack
    split at h
    · cases h
    · rw [hstack]
      exact (restoreState_saves h).trans (SavedOn.cons rfl rs)
  · cases h

theorem invoke_saves {func : Value} {tailp : Bool}
    (h : invokeRecords ctx thr func tailp = some thr') :
    SavedOn thr.stack thr'.stack ∧ (tailp = true → thr'.stack = thr.stack) := by
  unfold invokeRecords at h
  split at h
  · split at h
    · cases h
      cases tailp with
      | false => exact ⟨SavedOn.cons rfl _, fun h => by cases h⟩
      | true => exact ⟨SavedOn.refl _, fun _ => rfl⟩
    · split at h
      · cases h
        exact ⟨SavedOn.refl _, fun _ => rfl⟩
      · cases h
    · cases h
  · cases h

theorem returnTo_saves (h : returnToRecord ctx thr = some thr') :
    SavedOn thr'.stack thr.stack := by
  unfold returnToRecord at h
  split at h
  · rename_i pc xi rs hstack
    split at h
    · cases h
    · split at h
      · cases h
      · cases h
        rw [hstack]
        exact SavedOn.cons rfl rs
  · cases h

theorem pushTrapRecord_eq {handler : Value} {fgci next origin : Int}
    (h : pushTrapRecord ctx thr handler fgci next origin = some thr') :
    ∃ o : OrdinaryValue, o.val = handler ∧
      thr' = thr.pushRecord (.trap ⟨storedTrap (if next ≠ 0 then next
        else lastMarker .trap thr.stack), fgci, o, origin⟩) := by
  simp only [pushTrapRecord, Option.bind_eq_bind, Option.bind_eq_some_iff] at h
  obtain ⟨o, ho, h⟩ := h
  split at h
  · cases h
  · cases h
    exact ⟨o, ordinary?_eq_some ho, rfl⟩

/-- What a raised condition leaves on the stack. -/
theorem raiseRecord_stack {continuablep IHR reraise : Bool} {condition fr : Value}
    (h : raiseRecord ctx thr continuablep condition IHR reraise fr = some thr') :
    ∃ sp t next saved return_, selectTrap ctx thr condition reraise = some (sp, t) ∧
      trapAt thr.stack t.next = some next ∧ SavedOn thr.stack saved ∧
      (∀ r ∈ return_, Record.saves r = true) ∧
      thr'.stack = return_ ++ .trap (next.copy saved) :: saved := by
  simp only [raiseRecord, raiseRecords, Option.bind_eq_bind, Option.bind_eq_some_iff,
    Prod.exists] at h
  obtain ⟨sp, t, hselect, pushed, ⟨next, hnext, mid, hmid, hpush⟩, hinvoke⟩ := h
  obtain ⟨o, ho, rfl⟩ := pushTrapRecord_eq hpush
  have hsaved : SavedOn thr.stack mid.stack :=
    (SavedOn.cons rfl thr.stack).trans (preserve_saves hmid)
  have hcopy : (⟨storedTrap (if next.next ≠ 0 then next.next else lastMarker .trap mid.stack),
      next.fgci, o, next.origin⟩ : TrapRecord) = next.copy mid.stack := by
    rw [TrapRecord.copy, ← Subtype.ext ho]
  have hstack := (invoke_saves hinvoke).2 rfl
  rw [hcopy] at hstack
  by_cases hclos : isaClosure ctx t.handler.val = true
  · refine ⟨sp, t, next, mid.stack, [.ret (handlerReturnPc continuablep IHR) mid.xi], hselect,
      hnext, hsaved, ?_, ?_⟩
    · simp [Record.saves]
    · rw [hstack, if_pos hclos]
      rfl
  · refine ⟨sp, t, next, mid.stack, [], hselect, hnext, hsaved, by simp, ?_⟩
    rw [hstack, if_neg hclos]
    rfl

end Effects

/-- **One step.**  All that an instruction does to the records and the flag. -/
theorem recordStep_effect {ctx : Ctx} {i : Instr} {vm vm' : Vm (List Record)}
    (h : recordStep ctx i vm = some vm') : Effect ctx vm vm' i := by
  have thread : ∀ {o : Option (Thread (List Record))},
      o.map (fun thr => { vm with thr := thr }) = some vm' →
      ∃ thr', o = some thr' ∧ vm' = { vm with thr := thr' } := by
    intro o ho
    obtain ⟨thr', hthr, rfl⟩ := Option.map_eq_some_iff.mp ho
    exact ⟨thr', hthr, rfl⟩
  have pushed : ∀ {v : Value} {f : OrdinaryValue → Thread (List Record)} {thr'},
      (ordinary? v >>= fun o => some (f o)) = some thr' → ∃ o, o.val = v ∧ f o = thr' := by
    intro v f thr' hp
    simp only [Option.bind_eq_bind, Option.bind_eq_some_iff, Option.some.injEq] at hp
    obtain ⟨o, ho, hf⟩ := hp
    exact ⟨o, ordinary?_eq_some ho, hf⟩
  cases i with
  | work r =>
    cases h
    exact .saves rfl (.inl (SavedOn.refl _)) rfl
  | pushValue =>
    obtain ⟨thr', hthr, rfl⟩ := thread h
    obtain ⟨o, -, rfl⟩ := pushed hthr
    exact .saves rfl (.inl (SavedOn.cons rfl _)) rfl
  | popValue =>
    simp only [recordStep] at h
    split at h
    · rename_i v rs hstack
      cases h
      exact .saves rfl (.inr (by rw [hstack]; exact SavedOn.cons rfl rs)) rfl
    · cases h
  | preserveState =>
    obtain ⟨thr', hthr, rfl⟩ := thread h
    exact .saves rfl (.inl (preserveState_saves hthr)) rfl
  | restoreState =>
    obtain ⟨thr', hthr, rfl⟩ := thread h
    exact .saves rfl (.inr (restoreState_saves hthr)) rfl
  | restoreAllState =>
    obtain ⟨thr', hthr, rfl⟩ := thread h
    exact .saves rfl (.inr (restoreAllState_saves hthr)) rfl
  | functionInvoke =>
    obtain ⟨thr', hthr, rfl⟩ := thread h
    exact .saves rfl (.inl (invoke_saves hthr).1) rfl
  | functionGoto =>
    obtain ⟨thr', hthr, rfl⟩ := thread h
    exact .saves rfl (.inl (invoke_saves hthr).1) rfl
  | return_ =>
    obtain ⟨thr', hthr, rfl⟩ := thread h
    exact .saves rfl (.inr (returnTo_saves hthr)) rfl
  | pushDynamic gvi =>
    obtain ⟨thr', hthr, rfl⟩ := thread h
    obtain ⟨o, ho, rfl⟩ := pushed hthr
    exact .pushDynamic o ho rfl
  | popDynamic =>
    simp only [recordStep] at h
    split at h
    · rename_i gvi v rs hstack
      cases h
      exact .popDynamic hstack rfl
    · cases h
  | dynamicSet gvi =>
    simp only [recordStep, Option.bind_eq_bind, Option.bind_eq_some_iff, Option.some.injEq,
      Prod.exists] at h
    obtain ⟨thr', values, hassign, rfl⟩ := h
    exact .dynamicSet hassign rfl
  | pushEnviron gvi =>
    obtain ⟨thr', hthr, rfl⟩ := thread h
    obtain ⟨o, ho, rfl⟩ := pushed hthr
    exact .pushEnviron o ho rfl
  | popEnviron =>
    simp only [recordStep] at h
    split at h
    · rename_i gvi v rs hstack
      cases h
      exact .popEnviron hstack rfl
    · cases h
  | environSet gvi =>
    simp only [recordStep, Option.bind_eq_bind, Option.bind_eq_some_iff, Option.some.injEq,
      Prod.exists] at h
    obtain ⟨thr', values, hassign, rfl⟩ := h
    exact .environSet hassign rfl
  | pushTrap fgci =>
    obtain ⟨thr', hthr, rfl⟩ := thread h
    obtain ⟨o, -, rfl⟩ := pushTrapRecord_eq hthr
    exact .pushTrap o rfl
  | popTrap =>
    simp only [recordStep] at h
    split at h
    · rename_i t rs hstack
      cases h
      exact .popTrap hstack rfl
    · cases h
  | pushEscaper ci offset =>
    obtain ⟨thr', hthr, rfl⟩ := thread h
    obtain ⟨o, ho, rfl⟩ := pushed hthr
    exact .pushEscaper o ho rfl
  | popEscaper =>
    simp only [recordStep] at h
    split at h
    · rename_i e rs hstack
      cases h
      exact .popEscaper hstack rfl
    · cases h
  | escaperLabelRef ci =>
    obtain ⟨thr', hthr, rfl⟩ := thread h
    simp only [escapeRecords, Option.bind_eq_bind, Option.bind_eq_some_iff, Option.some.injEq,
      Prod.exists] at hthr
    obtain ⟨e, below, hfind, rfl⟩ := hthr
    exact .escaperLabelRef hfind rfl
  | suppressRcse =>
    simp only [recordStep, Option.bind_eq_bind, Option.bind_eq_some_iff, Option.some.injEq] at h
    obtain ⟨flag, hflag, rfl⟩ := h
    exact .suppressRcse flag (ordinary?_eq_some hflag) rfl
  | popRcse =>
    simp only [recordStep] at h
    split at h
    · rename_i flag rs hstack
      cases h
      exact .popRcse hstack rfl
    · cases h
  | pushAbort krun =>
    simp only [recordStep, pushAbortRecord, Option.bind_eq_bind, Option.bind_eq_some_iff,
      Option.some.injEq] at h
    obtain ⟨thr', ⟨k, -, rfl⟩, rfl⟩ := h
    exact .pushAbort k rfl rfl
  | popAbort =>
    simp only [recordStep] at h
    split at h
    · rename_i k rs hstack
      cases h
      exact .popAbort hstack rfl
    · cases h
  | fork r =>
    cases h
    exact .fork rfl rfl
  | raise continuablep condition IHR reraise fr =>
    obtain ⟨thr', hthr, rfl⟩ := thread h
    obtain ⟨sp, t, next, saved, return_, hselect, hnext, hsaved, hret, hstack⟩ :=
      raiseRecord_stack hthr
    exact .raise hselect hnext hsaved hret hstack rfl

/-! ## Runs above a floor -/

/-- A run whose stack is never lower than `floor`. -/
def runAbove (ctx : Ctx) (floor : Int) : List Instr → Vm (List Record) → Option (Vm (List Record))
  | [], vm => if floor ≤ height vm.thr.stack then some vm else none
  | i :: is, vm =>
      if floor ≤ height vm.thr.stack then (recordStep ctx i vm).bind (runAbove ctx floor is)
      else none

section Runs

variable {ctx : Ctx} {floor : Int} {is : List Instr} {vm vm' : Vm (List Record)}

theorem runAbove_height (h : runAbove ctx floor is vm = some vm') :
    floor ≤ height vm.thr.stack := by
  cases is with
  | nil =>
    rw [runAbove] at h
    split at h
    · assumption
    · cases h
  | cons i is =>
    rw [runAbove] at h
    split at h
    · assumption
    · cases h

theorem runAbove_cons {i : Instr} (h : runAbove ctx floor (i :: is) vm = some vm') :
    ∃ mid, recordStep ctx i vm = some mid ∧ runAbove ctx floor is mid = some vm' := by
  have hfloor := runAbove_height h
  rw [runAbove, if_pos hfloor] at h
  exact Option.bind_eq_some_iff.mp h

theorem runAbove_run (h : runAbove ctx floor is vm = some vm') :
    recordRun ctx is vm = some vm' := by
  induction is generalizing vm with
  | nil =>
    have hfloor := runAbove_height h
    rw [runAbove, if_pos hfloor] at h
    exact h
  | cons i is ih =>
    obtain ⟨mid, hstep, hrest⟩ := runAbove_cons h
    rw [recordRun, hstep]
    exact ih hrest

/-- What every step of a run above the floor keeps, the run keeps. -/
theorem runAbove_invariant {P : Vm (List Record) → Prop} (h : runAbove ctx floor is vm = some vm')
    (hstep : ∀ i ∈ is, ∀ u v, P u → recordStep ctx i u = some v → floor ≤ height v.thr.stack → P v)
    (h0 : P vm) : P vm' := by
  induction is generalizing vm with
  | nil =>
    have hfloor := runAbove_height h
    rw [runAbove, if_pos hfloor] at h
    cases h
    exact h0
  | cons i is ih =>
    obtain ⟨mid, hmid, hrest⟩ := runAbove_cons h
    have hPmid := hstep i (List.mem_cons_self ..) vm mid h0 hmid (runAbove_height hrest)
    exact ih hrest (fun j hj => hstep j (List.mem_cons_of_mem _ hj)) hPmid

end Runs

/-! ## A VM to start from -/

/-- A context with no functions in it. -/
def emptyCtx : Ctx where
  heap := ⟨fun _ => .frame, fun _ => 0, fun _ v hv => by cases hv⟩
  closures := fun _ => ⟨.nil, .nil, 0, 0⟩
  primitives := fun _ _ => .error .undefined
  constants := []
  symbolValueRecurse := fun _ _ => .error .undefined
  pathType := .nil
  pathExpand := .ok
  codeSizes := []
  interactive := false

/-- An empty stack. -/
def emptyVm (values : List Value) : Vm (List Record) where
  thr := { toRegisters := registersWith .nil, xi := 0, stack := [] }
  values := values
  suppressRcse := .false_

end Idio
