/-
  Vm/Instructions.lean --- the instructions that work on the stack.

  One function for each C function or opcode that pushes, pops or searches records,
  and `step`, which runs one instruction.

  What the instructions only read is in `Ctx`: the objects that values point at, the
  contents of closures, the constants of xenv 0.  Instructions that leave the stack
  alone are the one instruction `work`, which may set every register but XI; the PC
  that an instruction sees is the one after the fetch of its operands, and it is
  `work` that moves it.

  A primitive is a function of its frame of arguments.  Of what `idio_vm_invoke` can
  be given, strings, symbols, generics and continuations are left out.
-/
import Idio.Vm.Thread

set_option autoImplicit false

namespace Idio

/-- What `idio_vm_invoke` reads of a closure. -/
structure Closure where
  frame : Value
  env : Value
  xi : Nat
  codePc : Int
  deriving DecidableEq, Repr

/-- What the instructions look up. -/
structure Ctx where
  /-- the objects -/
  heap : AcyclicHeap
  /-- the contents of closures -/
  closures : Addr → Closure
  /-- the C function of a primitive, given the frame of its arguments -/
  primitives : Addr → Value → Result Value
  /-- the constants of xenv 0 -/
  constants : List Value
  /-- `idio_module_symbol_value_recurse`, of a symbol and a module -/
  symbolValueRecurse : Value → Value → Result Value
  /-- `idio_path_type` -/
  pathType : Value
  /-- `idio_path_expand` -/
  pathExpand : Value → Result Value
  /-- the size of the byte code of each xenv -/
  codeSizes : List Nat
  /-- `idio_job_control_interactive` -/
  interactive : Bool

/-! ## Types of objects -/

section Types

variable (ctx : Ctx)

/-- `idio_isa_closure`. -/
def isaClosure : Value → Bool
  | .pointer a => match ctx.heap.heap a with
      | .closure _ => true
      | _ => false
  | _ => false

/-- `idio_isa_primitive`. -/
def isaPrimitive : Value → Bool
  | .pointer a => match ctx.heap.heap a with
      | .primitive _ => true
      | _ => false
  | _ => false

/-- `idio_isa_function`. -/
def isaFunction (o : Value) : Bool := isaClosure ctx o || isaPrimitive ctx o

/-- `idio_isa_module`. -/
def isaModule : Value → Bool
  | .pointer a => match ctx.heap.heap a with
      | .module _ => true
      | _ => false
  | _ => false

/-- `idio_isa_struct_type`. -/
def isaStructType : Value → Bool
  | .pointer a => match ctx.heap.heap a with
      | .structType .. => true
      | _ => false
  | _ => false

/-- The functions, strings, symbols and continuations among what `idio_vm_invoke`
takes. -/
def isaInvokable : Value → Bool
  | .pointer a => match ctx.heap.heap a with
      | .closure _ | .primitive _ | .string _ | .substring .. | .symbol _
      | .continuation .. => true
      | _ => false
  | _ => false

/-- `idio_struct_type_isa`. -/
def structTypeIsa : Nat → Value → Value → Result Bool
  | 0, _, _ => .error .diverges
  | fuel + 1, st, type =>
      if st = .nil then .ok false
      else if st = type then .ok true
      else match st with
        | .pointer a => match ctx.heap.heap a with
            | .structType _ _ parent _ _ =>
                if parent ≠ .nil then structTypeIsa fuel parent type else .ok false
            | _ => .error .undefined
        | _ => .error .undefined

/-- `idio_struct_instance_isa`. -/
def structInstanceIsa (si st : Value) : Result Bool :=
  match si with
  | .pointer a => match ctx.heap.heap a with
      | .structInstance type _ _ => structTypeIsa ctx (ctx.heap.depth type + 1) type st
      | _ => .error .undefined
  | _ => .error .undefined

end Types

/-! ## Saving and restoring registers -/

section State

variable (ctx : Ctx) (thr : Thread Stack)

/-- `idio_vm_preserve_state`. -/
def preserveState : Thread Stack :=
  thr.pushN [thr.frame, thr.env, Marker.preserveState.value]

/-- `idio_vm_preserve_all_state`. -/
def preserveAllState : Thread Stack :=
  (preserveState thr).pushN
    [thr.reg1, thr.reg2, thr.expr, thr.func, thr.val, Marker.preserveAllState.value]

/-- `idio_vm_restore_state`. -/
def restoreState : Result (Thread Stack) :=
  let (marker, thr) := thr.pop
  if Marker.preserveState.value ≠ marker then
    .error (.panic "iv_restore_state: unexpected stack marker")
  else
    let (env, thr) := thr.pop
    if env ≠ .nil ∧ isaModule ctx env = false then .error .threadReset
    else
      let (frame, thr) := thr.pop
      .ok { thr with env := env, frame := frame }

/-- `idio_vm_restore_all_state`. -/
def restoreAllState : Result (Thread Stack) :=
  let (marker, thr) := thr.pop
  if Marker.preserveAllState.value ≠ marker then
    .error (.panic "iv-restore-all-state: unexpected stack marker")
  else
    let (val, thr) := thr.pop
    let (func, thr) := thr.pop
    if ctx.interactive = false ∧ isaInvokable ctx func = false then
      .error (.paramValue "VM/RESTORE" "func" "not an invokable value")
    else
      let (expr, thr) := thr.pop
      let (reg2, thr) := thr.pop
      let (reg1, thr) := thr.pop
      restoreState ctx
        { thr with val := val, func := func, expr := expr, reg2 := reg2, reg1 := reg1 }

end State

/-! ## Calls -/

section Calls

variable (ctx : Ctx)

/-- The return address that a call leaves. -/
def pushReturn (thr : Thread Stack) (pc : Int) : Thread Stack :=
  thr.pushN [.fixnum pc, .fixnum thr.xi, Marker.return_.value]

/-- `idio_vm_invoke`. -/
def invoke (thr : Thread Stack) (func : Value) (tailp : Bool) : Result (Thread Stack) :=
  match func with
  | .fixnum _ | .constant _ => .error (.functionError "cannot invoke constant type")
  | .pointer a => match ctx.heap.heap a with
      | .closure _ =>
          let cl := ctx.closures a
          let thr := if tailp then thr else pushReturn thr thr.pc
          .ok { thr with frame := cl.frame, env := cl.env, xi := cl.xi, pc := cl.codePc }
      | .primitive _ => do
          let val ← ctx.primitives a thr.val
          .ok { thr with val := val }
      | _ => .error (.functionError "cannot invoke")

/-- The opcode RETURN. -/
def returnTo (thr : Thread Stack) : Result (Thread Stack) :=
  let (marker, thr) := thr.pop
  if Marker.return_.value ≠ marker then .error (.panic "RETURN: unexpected stack marker")
  else
    let (fsXi, thr) := thr.pop
    match fsXi with
    | .fixnum xi =>
        if xi < 0 ∨ xi ≥ ctx.codeSizes.length then
          .error (.panic "RETURN: impossible XI on stack top")
        else
          let (fsPc, thr) := thr.pop
          match fsPc with
          | .fixnum pc =>
              if pc > ctx.codeSizes.getD xi.toNat 0 ∨ pc < 0 then
                .error (.panic "RETURN: impossible PC on stack top")
              else .ok { thr with xi := xi.toNat, pc := pc }
          | _ => .error (.codingError "RETURN: pc not a number")
    | _ => .error (.codingError "RETURN: xi not a number")

end Calls

/-- The opcode POP-VALUE. -/
def popValue (thr : Thread Stack) : Thread Stack :=
  let (val, thr) := thr.pop
  { thr with val := val }

/-! ## Records of four slots -/

/-- Check the marker of a record and pop the other three slots. -/
def popRecord (mark : Marker) (msg : String) (thr : Thread Stack) : Result (Thread Stack) :=
  let (marker, thr) := thr.pop
  if mark.value ≠ marker then .error (.panic msg)
  else .ok thr.pop.2.pop.2.pop.2

/-! ## Dynamic and environ variables -/

section Bindings

variable (ctx : Ctx)

/-- What `idio_vm_push_dynamic` and `idio_vm_push_environ` share. -/
def pushBinding (mark : Marker) (thr : Thread Stack) (gvi : Nat) (val : Value) :
    Result (Thread Stack) := do
  let sp ← findStackMarker thr.stack mark 0
  .ok (thr.pushN [.fixnum (if sp ≥ 3 then sp else -1), val, .fixnum gvi, mark.value])

/-- The loop of the references and assignments: the record of the variable, if there
is one. -/
def bindingLoop (stack : Stack) (gvi : Nat) : Nat → Int → Result (Option Int)
  | 0, _ => .error .diverges
  | fuel + 1, sp =>
      if sp ≥ 3 then do
        let vi ← stack.refIndex (sp - 1) >>= fixnumVal
        if vi = gvi then .ok (some sp)
        else do
          let next ← stack.refIndex (sp - 3) >>= fixnumVal
          bindingLoop stack gvi fuel next
      else .ok none

/-- `idio_vm_values_ref (0, vi)`. -/
def valuesRef (values : List Value) (vi : Nat) : Result Value :=
  if vi ≠ 0 then do
    let v ← Stack.refIndex values vi
    match v with
    | .pointer a => match ctx.heap.heap a with
        | .structInstance type _ _ =>
            if ← structTypeIsa ctx (ctx.heap.depth type + 1) type ctx.pathType then
              ctx.pathExpand v
            else .ok v
        | _ => .ok v
    | _ => .ok v
  else .ok Value.undef

/-- What `idio_vm_dynamic_ref` and `idio_vm_environ_ref` share. -/
def bindingRef (mark : Marker) (unbound : Fault) (thr : Thread Stack) (values : List Value)
    (gvi : Nat) (args : List Value) : Result Value := do
  let sp ← findStackMarker thr.stack mark 0
  let val ← match ← bindingLoop thr.stack gvi (thr.stack.length + 1) sp with
    | some sp => thr.stack.refIndex (sp - 2)
    | none => valuesRef ctx values gvi
  if val = .undef then
    match args with
    | [] => .error unbound
    | arg :: _ => .ok arg
  else .ok val

/-- What `idio_vm_dynamic_set` and `idio_vm_environ_set` share: the thread, and the
values of xenv 0. -/
def bindingSet (mark : Marker) (thr : Thread Stack) (values : List Value) (gvi : Nat)
    (v : Value) : Result (Thread Stack × List Value) := do
  let sp ← findStackMarker thr.stack mark 0
  match ← bindingLoop thr.stack gvi (thr.stack.length + 1) sp with
  | some sp => do
      let stack ← thr.stack.insertIndex v (sp - 2)
      .ok (thr.withStack stack, values)
  | none => do
      let values ← Stack.insertIndex values v gvi
      .ok (thr, values)

/-- `idio_vm_push_dynamic`. -/
def pushDynamic : Thread Stack → Nat → Value → Result (Thread Stack) := pushBinding .dynamic

/-- `idio_vm_pop_dynamic`. -/
def popDynamic : Thread Stack → Result (Thread Stack) :=
  popRecord .dynamic "iv-pop-dynamic: unexpected stack marker"

/-- `idio_vm_dynamic_ref`. -/
def dynamicRef (thr : Thread Stack) (values : List Value) (si gvi : Nat) (args : List Value) :
    Result Value :=
  bindingRef ctx .dynamic
    (.dynamicUnbound "no such dynamic binding"
      ("si " ++ toString si ++ " -> gsi ??  -> gvi " ++ toString gvi)) thr values gvi args

/-- `idio_vm_dynamic_set`. -/
def dynamicSet : Thread Stack → List Value → Nat → Value → Result (Thread Stack × List Value) :=
  bindingSet .dynamic

/-- `idio_vm_push_environ`. -/
def pushEnviron : Thread Stack → Nat → Value → Result (Thread Stack) := pushBinding .environ

/-- `idio_vm_pop_environ`. -/
def popEnviron : Thread Stack → Result (Thread Stack) :=
  popRecord .environ "iv-pop-environ: unexpected stack marker"

/-- `idio_vm_environ_ref`. -/
def environRef (thr : Thread Stack) (values : List Value) (si gvi : Nat) (args : List Value) :
    Result Value :=
  bindingRef ctx .environ
    (.environUnbound "no such environ binding"
      ("si " ++ toString si ++ " -> gsi ??  -> gvi " ++ toString gvi)) thr values gvi args

/-- `idio_vm_environ_set`. -/
def environSet : Thread Stack → List Value → Nat → Value → Result (Thread Stack × List Value) :=
  bindingSet .environ

end Bindings

/-! ## Traps -/

section Traps

variable (ctx : Ctx)

/-- The index that is stored as that of the next trap. -/
def storedTrap (tsp : Int) : Int := if tsp ≥ 1 then tsp else -1

/-- `idio_vm_push_trap`. -/
def pushTrap (thr : Thread Stack) (handler fgci : Value) (next : Int) : Result (Thread Stack) :=
  if isaFunction ctx handler = false then .error (.paramType "function")
  else do
    let tsp ← findStackMarker thr.stack .trap 0
    let tsp := if next ≠ 0 then next else tsp
    .ok (thr.pushN [.fixnum (storedTrap tsp), fgci, handler, Marker.trap.value])

/-- `idio_vm_pop_trap`. -/
def popTrap : Thread Stack → Result (Thread Stack) :=
  popRecord .trap "iv-pop-trap: unexpected stack marker"

/-- Whether the condition is an instance of the type that the constant of a trap names,
as `idio_vm_raise_condition` finds out; the index of the next trap is checked on the
way. -/
def trapIsa (env condition : Value) (size : Nat) (gci : Value) (next : Int) : Result Bool := do
  let ci ← fixnumVal gci
  let sym ← Stack.refIndex ctx.constants ci
  let ct ← ctx.symbolValueRecurse sym env
  if isaStructType ctx ct = false then .error .assertion
  else if next < 0 ∨ next ≥ size then .error .assertion
  else structInstanceIsa ctx condition ct

/-- `while (1)` in `idio_vm_raise_condition`: the trap that is selected, and its
handler. -/
def trapLoop (isa : Value → Int → Result Bool) (stack : Stack) : Nat → Int → Result (Int × Value)
  | 0, _ => .error .diverges
  | fuel + 1, sp => do
      let handler ← stack.refIndex (sp - 1)
      let gci ← stack.refIndex (sp - 2)
      let next ← stack.refIndex (sp - 3) >>= fixnumVal
      if ← isa gci next then .ok (sp, handler)
      else if sp = next then .error (.panic "ivrc: no more TRAP handlers\n")
      else trapLoop isa stack fuel next

/-- The next trap is pushed again, on top of the stack. -/
def pushNextTrap (thr : Thread Stack) (trapSp : Int) : Result (Thread Stack) := do
  let nextTsp ← thr.stack.refIndex (trapSp - 3) >>= fixnumVal
  let handler ← thr.stack.refIndex (nextTsp - 1)
  let gci ← thr.stack.refIndex (nextTsp - 2)
  let next ← thr.stack.refIndex (nextTsp - 3) >>= fixnumVal
  pushTrap ctx thr handler gci next

/-- `idio_vm_NCE_pc`. -/
def ncePc : Int := 1

/-- `idio_vm_CHR_pc`. -/
def chrPc : Int := 2

/-- `idio_vm_IHR_pc`. -/
def ihrPc : Int := 5

/-- Where a handler returns to. -/
def handlerReturnPc (continuablep IHR : Bool) : Int :=
  if IHR then ihrPc else if continuablep then chrPc else ncePc

/-- The trap at which `idio_vm_raise_condition` starts. -/
def firstTrap (stack : Stack) (reraise : Bool) : Result Int := do
  let trapSp ← findStackMarker stack .trap 0
  let trapSp ← if reraise then findMaxTrap stack else .ok trapSp
  if trapSp ≥ stack.length then .error (.panic "trap SP >= sizeof (stack)")
  else if trapSp < 3 then .error (.panic "trap SP < 3")
  else .ok trapSp

/-- `idio_vm_raise_condition`, up to the jump back to the loop of the VM; `fr` is the
frame that holds the condition. -/
def raiseCondition (thr : Thread Stack) (continuablep : Bool) (condition : Value)
    (IHR reraise : Bool) (fr : Value) : Result (Thread Stack) := do
  let trapSp ← firstTrap thr.stack reraise
  let (trapSp, handler) ←
    trapLoop (trapIsa ctx thr.env condition thr.stack.length) thr.stack
      (thr.stack.length + 1) trapSp
  let thr := pushReturn thr thr.pc
  let thr := if IHR then preserveAllState thr else preserveState thr
  let thr ← pushNextTrap ctx thr trapSp
  let pc := handlerReturnPc continuablep IHR
  let thr := if isaClosure ctx handler then pushReturn thr pc else { thr with pc := pc }
  invoke ctx { thr with val := fr } handler true

end Traps

/-! ## Escapes -/

section Escapes

/-- `idio_vm_push_escaper`. -/
def pushEscaper (thr : Thread Stack) (fgci : Int) (offset : Nat) : Thread Stack :=
  thr.pushN [.fixnum (thr.pc + offset + 1), thr.frame, .fixnum fgci, Marker.escaper.value]

/-- `idio_vm_pop_escaper`. -/
def popEscaper : Thread Stack → Result (Thread Stack) :=
  popRecord .escaper "iv-pop-escaper: unexpected stack marker"

/-- The loop of `idio_vm_escaper_label_ref`. -/
def escaperLoop (stack : Stack) (fci : Int) : Nat → Int → Result (Option Int)
  | 0, _ => .error .diverges
  | fuel + 1, sp =>
      if sp ≥ 0 then do
        let sp ← findStackMarker stack .escaper (sp - 1)
        if sp ≥ 0 then do
          let label ← stack.refIndex (sp - 1)
          if label = .fixnum fci then .ok (some sp) else escaperLoop stack fci fuel sp
        else escaperLoop stack fci fuel sp
      else .ok none

/-- `idio_vm_escaper_label_ref`. -/
def escaperLabelRef (thr : Thread Stack) (fci : Int) : Result (Thread Stack) := do
  match ← escaperLoop thr.stack fci (thr.stack.length + 2) thr.stack.length with
  | none =>
      .error (.variableUnbound "no such binding" ("si " ++ toString fci ++ " -> gvi #n"))
  | some sp => do
      let frame ← thr.stack.refIndex (sp - 2)
      let pc ← thr.stack.refIndex (sp - 3) >>= fixnumVal
      .ok { thr with frame := frame, pc := pc, stack := thr.stack.take (sp - 3).toNat }

end Escapes

/-! ## Aborts -/

section Aborts

/-- The index that an abort stores as that of the next. -/
def storedAbort (asp : Int) : Int := if asp ≥ 2 then asp else -1

/-- `idio_vm_push_offset_abort`, given the pair of a continuation and a text that it
makes. -/
def pushOffsetAbort (thr : Thread Stack) (krun : Value) : Result (Thread Stack) := do
  let asp ← findStackMarker thr.stack .abort 0
  .ok { thr.pushN [.fixnum (storedAbort asp), krun, Marker.abort.value] with frame := .nil }

/-- `idio_vm_pop_abort`. -/
def popAbort (thr : Thread Stack) : Result (Thread Stack) :=
  let (marker, thr) := thr.pop
  if Marker.abort.value ≠ marker then .error (.panic "iv-pop-abort: unexpected stack marker")
  else .ok thr.pop.2.pop.2

end Aborts

/-! ## Steps and runs -/

/-- A thread, the values of xenv 0 and `idio_command_suppress_rcse`. -/
structure Vm (σ : Type) where
  thr : Thread σ
  values : List Value
  suppressRcse : Value
  deriving DecidableEq, Repr

/-- The instructions, with what they have been given. -/
inductive Instr where
  /-- any number of instructions that leave the stack and XI alone -/
  | work (r : Registers)
  | pushValue
  | popValue
  | preserveState
  | restoreState
  | restoreAllState
  | functionInvoke
  | functionGoto
  | return_
  | pushDynamic (gvi : Nat)
  | popDynamic
  /-- `idio_vm_dynamic_set`, of VAL -/
  | dynamicSet (gvi : Nat)
  | pushEnviron (gvi : Nat)
  | popEnviron
  /-- `idio_vm_environ_set`, of VAL -/
  | environSet (gvi : Nat)
  | pushTrap (fgci : Int)
  | popTrap
  | pushEscaper (ci : Int) (offset : Nat)
  | popEscaper
  | escaperLabelRef (ci : Int)
  | suppressRcse
  | popRcse
  /-- PUSH-ABORT, with the pair that it makes -/
  | pushAbort (krun : Value)
  | popAbort
  /-- `fork` of libc, as it returns in the child -/
  | fork (r : Registers)
  /-- `idio_vm_raise_condition` -/
  | raise (continuablep : Bool) (condition : Value) (IHR reraise : Bool) (fr : Value)
  deriving DecidableEq, Repr

/-- The VM with what a function makes of its thread. -/
def Vm.withThread {σ : Type} (vm : Vm σ) (thr : Result (Thread σ)) : Result (Vm σ) := do
  .ok { vm with thr := ← thr }

/-- One instruction. -/
def step (ctx : Ctx) (i : Instr) (vm : Vm Stack) : Result (Vm Stack) :=
  let thr := vm.thr
  match i with
  | .work r => .ok { vm with thr := { thr with toRegisters := r } }
  | .pushValue => .ok { vm with thr := thr.push thr.val }
  | .popValue => .ok { vm with thr := popValue thr }
  | .preserveState => .ok { vm with thr := preserveState thr }
  | .restoreState => vm.withThread (restoreState ctx thr)
  | .restoreAllState => vm.withThread (restoreAllState ctx thr)
  | .functionInvoke => vm.withThread (invoke ctx thr thr.func false)
  | .functionGoto => vm.withThread (invoke ctx thr thr.func true)
  | .return_ => vm.withThread (returnTo ctx thr)
  | .pushDynamic gvi => vm.withThread (pushDynamic thr gvi thr.val)
  | .popDynamic => vm.withThread (popDynamic thr)
  | .dynamicSet gvi => do
      let (thr, values) ← dynamicSet thr vm.values gvi thr.val
      .ok { vm with thr := thr, values := values }
  | .pushEnviron gvi => vm.withThread (pushEnviron thr gvi thr.val)
  | .popEnviron => vm.withThread (popEnviron thr)
  | .environSet gvi => do
      let (thr, values) ← environSet thr vm.values gvi thr.val
      .ok { vm with thr := thr, values := values }
  | .pushTrap fgci => vm.withThread (pushTrap ctx thr thr.val (.fixnum fgci) 0)
  | .popTrap => vm.withThread (popTrap thr)
  | .pushEscaper ci offset => .ok { vm with thr := pushEscaper thr ci offset }
  | .popEscaper => vm.withThread (popEscaper thr)
  | .escaperLabelRef ci => vm.withThread (escaperLabelRef thr ci)
  | .suppressRcse =>
      .ok { vm with thr := thr.push vm.suppressRcse, suppressRcse := .true_ }
  | .popRcse =>
      let (flag, thr) := thr.pop
      .ok { vm with thr := thr, suppressRcse := flag }
  | .pushAbort krun => do
      let thr ← pushOffsetAbort thr krun
      .ok { vm with thr := thr, suppressRcse := .false_ }
  | .popAbort => vm.withThread (popAbort thr)
  | .fork r => .ok { vm with thr := { thr with toRegisters := r }, suppressRcse := .false_ }
  | .raise continuablep condition IHR reraise fr =>
      vm.withThread (raiseCondition ctx thr continuablep condition IHR reraise fr)

/-- A run. -/
def run (ctx : Ctx) : List Instr → Vm Stack → Result (Vm Stack)
  | [], vm => .ok vm
  | i :: is, vm => do run ctx is (← step ctx i vm)

end Idio
