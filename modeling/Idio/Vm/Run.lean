/-
  Vm/Run.lean --- one instruction of the virtual machine.

  `run1` is `idio_vm_run1`: it fetches the instruction at the PC and does what the opcode says.
  The byte code and the constants of each execution environment are an `Image`.  What the machine
  calls and does not do itself is a `Host`: primitives, the look-up and the assignment of
  symbols, the copying of constants, and whatever is invoked that is no closure.  A host works on
  VAL and the store; one that calls back into the machine is left out.

  The stack is a list with the top first.  The functions of an image are values like any other:
  `vt` says where in the table of values the number of a function leads.

  The opcodes of dynamic and environ variables, traps and escapers, whose stack records are
  modelled in `Vm/Records.lean`, are the host's too, as is FINISH.
-/
import Idio.Vm.ByteCode
import Idio.Vm.Frames

set_option autoImplicit false

namespace Idio.Machine

/-! ## What the machine is given -/

/-- The instructions that put the value of a symbol in VAL, and SYM-DEF. -/
inductive SymbolRef (O : Type) where
  | symRef (si : Nat)
  | functionSymRef (si : Nat)
  | computedSymRef (si : Nat)
  | predefined (vi : Nat)
  | symDef (si : Nat) (kind : VmValue O)
  deriving DecidableEq, Repr

/-- The instructions that do something with a symbol and VAL. -/
inductive SymbolSet where
  | symSet (si : Nat)
  | computedSymSet (si : Nat)
  | computedSymDef (si : Nat)
  | expander (si : Nat)
  | infixOperator (oi pri : Nat)
  | postfixOperator (oi pri : Nat)
  deriving DecidableEq, Repr

/-- A closure: where its code is, and the frame and the module it is called in. -/
structure ClosureObject (C O : Type) where
  xi : Nat
  code : C
  frame : VmValue O
  env : VmValue O
  deriving DecidableEq, Repr

/-- `idio_thread_t`, and the tables of values. -/
structure State (O S : Type) where
  xi : Nat
  pc : Nat
  func : VmValue O
  reg1 : VmValue O
  reg2 : VmValue O
  expr : VmValue O
  frame : VmValue O
  env : VmValue O
  stack : List (VmValue O)
  mem : Memory O S
  /-- the code of a closure is the PC it starts at -/
  closures : List (ClosureObject Nat O)
  /-- `IDIO_XENV_VT`, of the execution environments from 1 on -/
  vt : Nat → Nat → Nat
  /-- `IDIO_XENV_VT`, of execution environment 0 -/
  values : List (VmValue O)

/-- What `idio_vm_run1` reads of an `idio_xenv_t`. -/
structure VmXenv (O : Type) where
  byteCode : Ia
  constants : List (VmValue O)

/-- `idio_xenvs` -/
abbrev Image (O : Type) : Type := List (VmXenv O)

/-- `IDIO_XENV_BYTE_CODE` -/
def Image.byteCode {O : Type} (img : Image O) (xi : Nat) : Ia :=
  match img[xi]? with
  | some x => x.byteCode
  | none => []

/-- `IDIO_XENV_CS` -/
def Image.constants {O : Type} (img : Image O) (xi : Nat) : List (VmValue O) :=
  match img[xi]? with
  | some x => x.constants
  | none => []

/-- What the machine calls. -/
structure Host (O S : Type) where
  /-- `idio_pair` -/
  pair : VmValue O → VmValue O → S → VmValue O × S
  /-- what CONSTANT-REF makes of a constant that is an object -/
  constantRef : O → S → Result (VmValue O × S)
  /-- what a reference puts in VAL, in an environment and with a VAL -/
  symbolRef : SymbolRef O → Nat → VmValue O → VmValue O → S → Result (VmValue O × S)
  /-- the VAL after an assignment, in an environment and with a VAL -/
  symbolSet : SymbolSet → Nat → VmValue O → VmValue O → S → Result (VmValue O × S)
  /-- the primitive that a PRIMCALL names -/
  primitiveRef : Nat → Nat → VmValue O → S → Result (VmValue O × S)
  /-- `IDIO_PRIMITIVE_F`, with `idio_command_suppress_rcse` -/
  primitive : VmValue O → List (VmValue O) → VmValue O → S → Result (VmValue O × S)
  /-- `idio_vm_invoke` of what is no closure, with its frame, the environment and
  `idio_command_suppress_rcse` -/
  invoke : VmValue O → FrameObject O → Nat → VmValue O → VmValue O → S → Result (VmValue O × S)
  /-- what PUSH-ABORT pushes below its marker: the place of the next abort, and the continuation
  to this one with its text -/
  abort : Nat → State O S → VmValue O × VmValue O
  /-- the other opcodes -/
  other : Opcode → List UInt64 → State O S → Result (State O S)

/-! ## Instructions on the memory -/

section Memory

variable {O S : Type} (host : Host O S)

/-- `idio_S_nil == v` -/
def VmValue.isNil : VmValue O → Bool
  | .constant 0 => true
  | _ => false

/-- `idio_S_false == v` -/
def VmValue.isFalse : VmValue O → Bool
  | .constant 5 => true
  | _ => false

/-- `idio_isa_module` -/
def VmValue.isModule : VmValue O → Bool
  | .module _ => true
  | _ => false

/-- A comparison with a stack marker. -/
def VmValue.isMarker (m : Marker) : VmValue O → Bool
  | .constant v => v = m.number
  | _ => false

namespace Memory

variable (mem : Memory O S)

/-- A value in VAL. -/
def withVal (r : Result (VmValue O)) : Result (Memory O S) := do
  let v ← r
  return { mem with val := v }

/-- Other frames. -/
def withFrames (r : Result (List (FrameObject O))) : Result (Memory O S) := do
  let frames ← r
  return { mem with frames := frames }

/-- What the host puts in VAL. -/
def withHost (f : S → Result (VmValue O × S)) : Result (Memory O S) := do
  let (v, store) ← f mem.store
  return { mem with val := v, store := store }

/-- ALLOCATE-FRAME and REUSE-FRAME. -/
def allocate (arityp1 : Int) : Result (Memory O S) := do
  let (fo, frames) ← frameAllocate mem.frames arityp1
  return { mem with val := fo, frames := frames }

/-- ALLOCATE-DOTTED-FRAME. -/
def allocateDotted (arity : Int) : Result (Memory O S) := do
  let mem ← mem.allocate arity
  mem.withFrames (frameUpdate mem.frames mem.val 0 (arity - 1) .nil)

/-- POP-FRAME. -/
def popFrame (rank : Int) (v : VmValue O) : Result (Memory O S) :=
  mem.withFrames (frameUpdate mem.frames mem.val 0 rank v)

/-- POP-LIST-FRAME. -/
def popListFrame (arity : Int) (v : VmValue O) : Result (Memory O S) := do
  let tail ← frameFetch mem.frames mem.val 0 arity
  let p := host.pair v tail mem.store
  Memory.popFrame { mem with store := p.2 } arity p.1

/-- LINK-FRAME, less the register. -/
def link (frame : VmValue O) : Result (Memory O S) :=
  mem.withFrames (linkFrame mem.frames frame mem.val)

/-- `idio_vm_listify`, from `index` down. -/
def listify (arity : Nat) : Nat → VmValue O → Memory O S → Result (Memory O S)
  | index, result, mem =>
    if arity = index then
      mem.withFrames (setFrameArgs mem.frames mem.val arity result)
    else match index with
      | 0 => .error .undefined
      | index + 1 => do
          let v ← frameArgs mem.frames mem.val index
          let p := host.pair v result mem.store
          listify arity index p.1 { mem with store := p.2 }

/-- PACK-FRAME. -/
def pack (arity : Nat) : Result (Memory O S) := do
  let f ← frameAt mem.frames mem.val
  listify host arity f.nparams .nil mem

/-- The number of arguments that the ARITY instructions check. -/
def nargs : Result Int :=
  if mem.val.isNil then .ok (-1)
  else do
    let f ← frameAt mem.frames mem.val
    return f.nparams + 1

/-- ARITY1P to ARITYEQP. -/
def arityEq (arityp1 : Nat) : Result (Memory O S) := do
  let nargs ← mem.nargs
  if nargs = arityp1 then return mem
  else
    let given := nargs - 1
    let arity := arityp1 - 1
    .error (.functionArity s!"incorrect arity: {given} args for an arity-{arity} function")

/-- ARITYGEP. -/
def arityGe (arityp1 : Nat) : Result (Memory O S) := do
  let nargs ← mem.nargs
  if nargs < arityp1 then
    let given := nargs - 1
    let arity := arityp1 - 1
    .error (.functionArity s!"incorrect arity: {given} args for an arity-{arity}+ function")
  else return mem

/-- CONSTANT-REF. -/
def constantRef : VmValue O → Result (Memory O S)
  | .frame _ | .module _ => .error (.codingError "invalid constant type")
  | .object o => mem.withHost (host.constantRef o)
  | c => .ok { mem with val := c }

/-- PRIMCALL0 to PRIMCALL2, with the primitive. -/
def primcall (xi : Nat) (env : VmValue O) (vi : Nat) (args : List (VmValue O)) :
    Result (VmValue O × Memory O S) := do
  let (pd, store) ← host.primitiveRef vi xi env mem.store
  let mem ← Memory.withHost { mem with store := store } (host.primitive pd args mem.rcse)
  return (pd, mem)

/-- `idio_vm_invoke` of what is no closure. -/
def invoke (func : VmValue O) (xi : Nat) (env : VmValue O) : Result (Memory O S) :=
  match func with
  | .fixnum _ | .constant _ | .unicode _ => .error (.functionError "cannot invoke constant type")
  | _ => do
      let f ← frameAt mem.frames mem.val
      mem.withHost (host.invoke func f xi env mem.rcse)

/-- NOT. -/
def not : Memory O S := { mem with val := if mem.val.isFalse then .true_ else .false_ }

end Memory

end Memory

/-! ## Instructions on the thread -/

section State

variable {O S : Type} (img : Image O) (host : Host O S)

namespace State

variable (s : State O S)

/-- An instruction on the memory. -/
def onMemory (f : Memory O S → Result (Memory O S)) : Result (State O S) := do
  let mem ← f s.mem
  return { s with mem := mem }

/-- A value in VAL. -/
def setVal (v : VmValue O) : State O S := { s with mem := { s.mem with val := v } }

/-- `IDIO_THREAD_STACK_PUSH` -/
def push (v : VmValue O) : State O S := { s with stack := v :: s.stack }

/-- `IDIO_THREAD_STACK_POP` -/
def pop : VmValue O × State O S :=
  match s.stack with
  | [] => (.nil, s)
  | v :: stack => (v, { s with stack := stack })

/-- `idio_vm_preserve_state` -/
def preserve : State O S := ((s.push s.frame).push s.env).push (.marker .preserveState)

/-- `idio_vm_restore_state` -/
def restore : Result (State O S) :=
  if s.pop.1.isMarker .preserveState then
    let (env, s) := s.pop.2.pop
    if env.isModule || env.isNil then
      let (frame, s) := s.pop
      .ok { s with env := env, frame := frame }
    else .error .threadReset
  else .error (.panic "iv_restore_state: unexpected stack marker")

/-- RETURN. -/
def return_ : Result (State O S) :=
  if s.pop.1.isMarker .return_ then
    let (fxi, s) := s.pop.2.pop
    match fxi with
    | .fixnum xi =>
        if xi < 0 ∨ (img.length : Int) ≤ xi then
          .error (.panic "RETURN: impossible XI on stack top")
        else
          let (fpc, s) := s.pop
          match fpc with
          | .fixnum pc =>
              if ((img.byteCode xi.toNat).length : Int) < pc ∨ pc < 0 then
                .error (.panic "RETURN: impossible PC on stack top")
              else .ok { s with xi := xi.toNat, pc := pc.toNat }
          | _ => .error (.codingError "RETURN: pc not a number")
    | _ => .error (.codingError "RETURN: xi not a number")
  else .error (.panic "RETURN: unexpected stack marker")

/-- `idio_vm_push_offset_abort`, with the rest of PUSH-ABORT. -/
def pushAbort (o : Nat) : State O S :=
  let (asp, krun) := host.abort o s
  let s := ((s.push asp).push krun).push (.marker .abort)
  { s with frame := .nil, mem := { s.mem with rcse := .false_ } }

/-- `idio_vm_pop_abort` -/
def popAbort : Result (State O S) :=
  if s.pop.1.isMarker .abort then .ok s.pop.2.pop.2.pop.2
  else .error (.panic "iv-pop-abort: unexpected stack marker")

/-- `idio_vm_invoke` -/
def invoke (tailp : Bool) : Result (State O S) :=
  match s.func with
  | .closure c => match s.closures[c]? with
      | some cl =>
          let s := if tailp then s
            else ((s.push (.fixnum s.pc)).push (.fixnum s.xi)).push (.marker .return_)
          .ok { s with frame := cl.frame, env := cl.env, xi := cl.xi, pc := cl.code }
      | none => .error .undefined
  | func => s.onMemory fun mem => mem.invoke host func s.xi s.env

/-- VAL-SET. -/
def valSet (vi : Nat) : Result (State O S) :=
  if vi = 0 then .error (.panic "VAL-SET: no vi!")
  else if s.xi = 0 then .error .undefined
  else if s.vt s.xi vi = 0 then
    let gvi := s.values.length
    let vt := fun x v => if x = s.xi ∧ v = vi then gvi else s.vt x v
    .ok { s with vt := vt, values := s.values ++ [s.mem.val] }
  else .ok { s with values := s.values.set (s.vt s.xi vi) s.mem.val }

/-- CREATE-FUNCTION, with the distance to the code. -/
def createFunction (i : Nat) : State O S :=
  let cl := ⟨s.xi, s.pc + i, s.frame, s.env⟩
  { s with closures := s.closures ++ [cl] }.setVal (.closure s.closures.length)

/-- `idio_vm_values_gref`, for CREATE-CLOSURE. -/
def functionAt (xi vi : Nat) : Option (ClosureObject Nat O) :=
  if vi = 0 ∨ xi = 0 ∨ s.vt xi vi = 0 then none
  else match s.values[s.vt xi vi]? with
    | some (.closure c) => s.closures[c]?
    | _ => none

/-- CREATE-CLOSURE. -/
def createClosure (vi : Nat) : Result (State O S) :=
  match s.functionAt s.xi vi with
  | some cl =>
      let s' := { s with closures := s.closures ++ [{ cl with frame := s.frame }] }
      .ok (s'.setVal (.closure s.closures.length))
  | none => .error .undefined

/-- PRIMCALL0 to PRIMCALL2. -/
def primcall (vi : Nat) (args : List (VmValue O)) : Result (State O S) := do
  let (pd, mem) ← s.mem.primcall host s.xi s.env vi args
  return { s with func := pd, mem := mem }

/-- A jump, if VAL says so. -/
def jumpIf (c : Bool) (i : UInt64) : State O S := if c then { s with pc := s.pc + i.toNat } else s

end State

/-- Operand `i` of an instruction. -/
def operand (vs : List UInt64) (i : Nat) : UInt64 := vs.getD i 0

/-- What a number is as an `int64_t`. -/
def signed (v : UInt64) : Int := (v.toNat : Int).bmod (2 ^ 64)

/-- An instruction with the PC after it. -/
def exec (o : Opcode) (vs : List UInt64) (s : State O S) : Result (State O S) :=
  let v := operand vs 0
  let w := operand vs 1
  let n := v.toNat
  match o with
  | .shallowArgumentRef0 => s.onMemory fun mem => mem.withVal (frameArgs mem.frames s.frame 0)
  | .shallowArgumentRef1 => s.onMemory fun mem => mem.withVal (frameArgs mem.frames s.frame 1)
  | .shallowArgumentRef2 => s.onMemory fun mem => mem.withVal (frameArgs mem.frames s.frame 2)
  | .shallowArgumentRef3 => s.onMemory fun mem => mem.withVal (frameArgs mem.frames s.frame 3)
  | .shallowArgumentRef => s.onMemory fun mem => mem.withVal (frameArgs mem.frames s.frame n)
  | .deepArgumentRef =>
      s.onMemory fun mem => mem.withVal (frameFetch mem.frames s.frame n (frameIndex w))
  | .shallowArgumentSet0 =>
      s.onMemory fun mem => mem.withFrames (setFrameArgs mem.frames s.frame 0 mem.val)
  | .shallowArgumentSet1 =>
      s.onMemory fun mem => mem.withFrames (setFrameArgs mem.frames s.frame 1 mem.val)
  | .shallowArgumentSet2 =>
      s.onMemory fun mem => mem.withFrames (setFrameArgs mem.frames s.frame 2 mem.val)
  | .shallowArgumentSet3 =>
      s.onMemory fun mem => mem.withFrames (setFrameArgs mem.frames s.frame 3 mem.val)
  | .shallowArgumentSet =>
      s.onMemory fun mem => mem.withFrames (setFrameArgs mem.frames s.frame n mem.val)
  | .deepArgumentSet =>
      s.onMemory fun mem => mem.withFrames (frameUpdate mem.frames s.frame n (frameIndex w) mem.val)
  | .symRef => s.onMemory fun mem => mem.withHost (host.symbolRef (.symRef n) s.xi s.env mem.val)
  | .functionSymRef =>
      s.onMemory fun mem => mem.withHost (host.symbolRef (.functionSymRef n) s.xi s.env mem.val)
  | .constantRef => match (img.constants s.xi)[n]? with
      | some c => s.onMemory fun mem => mem.constantRef host c
      | none => .error .undefined
  | .computedSymRef =>
      s.onMemory fun mem => mem.withHost (host.symbolRef (.computedSymRef n) s.xi s.env mem.val)
  | .symDef => match (img.constants s.xi)[w.toNat]? with
      | some kind =>
          s.onMemory fun mem => mem.withHost (host.symbolRef (.symDef n kind) s.xi s.env mem.val)
      | none => .error .undefined
  | .symSet => s.onMemory fun mem => mem.withHost (host.symbolSet (.symSet n) s.xi s.env mem.val)
  | .computedSymSet =>
      s.onMemory fun mem => mem.withHost (host.symbolSet (.computedSymSet n) s.xi s.env mem.val)
  | .computedSymDef =>
      s.onMemory fun mem => mem.withHost (host.symbolSet (.computedSymDef n) s.xi s.env mem.val)
  | .valSet => s.valSet n
  | .predefined0 => .ok (s.setVal .true_)
  | .predefined1 => .ok (s.setVal .false_)
  | .predefined2 => .ok (s.setVal .nil)
  | .predefined =>
      s.onMemory fun mem => mem.withHost (host.symbolRef (.predefined n) s.xi s.env mem.val)
  | .longGoto | .shortGoto => .ok (s.jumpIf true v)
  | .longJumpFalse | .shortJumpFalse => .ok (s.jumpIf s.mem.val.isFalse v)
  | .longJumpTrue | .shortJumpTrue => .ok (s.jumpIf (!s.mem.val.isFalse) v)
  | .pushValue => .ok (s.push s.mem.val)
  | .popValue => .ok (s.pop.2.setVal s.pop.1)
  | .popReg1 => .ok { s.pop.2 with reg1 := s.pop.1 }
  | .popReg2 => .ok { s.pop.2 with reg2 := s.pop.1 }
  | .srcExpr => .ok { s with expr := .fixnum n }
  | .popFunction => .ok { s.pop.2 with func := s.pop.1 }
  | .preserveState => .ok s.preserve
  | .restoreState => s.restore
  | .createFunction => .ok (s.createFunction n)
  | .createClosure => s.createClosure n
  | .functionInvoke => s.invoke host false
  | .functionGoto => s.invoke host true
  | .return_ => s.return_ img
  | .pushAbort => .ok (s.pushAbort host n)
  | .popAbort => s.popAbort
  | .allocateFrame1 => s.onMemory fun mem => mem.allocate 1
  | .allocateFrame2 => s.onMemory fun mem => mem.allocate 2
  | .allocateFrame3 => s.onMemory fun mem => mem.allocate 3
  | .allocateFrame4 => s.onMemory fun mem => mem.allocate 4
  | .allocateFrame5 => s.onMemory fun mem => mem.allocate 5
  | .allocateFrame => s.onMemory fun mem => mem.allocate (frameIndex v)
  | .allocateDottedFrame => s.onMemory fun mem => mem.allocateDotted (frameIndex v)
  | .reuseFrame => s.onMemory fun mem => mem.allocate (frameIndex v)
  | .popFrame0 => s.pop.2.onMemory fun mem => mem.popFrame 0 s.pop.1
  | .popFrame1 => s.pop.2.onMemory fun mem => mem.popFrame 1 s.pop.1
  | .popFrame2 => s.pop.2.onMemory fun mem => mem.popFrame 2 s.pop.1
  | .popFrame3 => s.pop.2.onMemory fun mem => mem.popFrame 3 s.pop.1
  | .popFrame => s.pop.2.onMemory fun mem => mem.popFrame (frameIndex v) s.pop.1
  | .linkFrame => do
      let s' ← s.onMemory fun mem => mem.link s.frame
      return { s' with frame := s.mem.val }
  | .unlinkFrame => do
      let f ← frameAt s.mem.frames s.frame
      return { s with frame := f.next }
  | .packFrame => s.onMemory fun mem => mem.pack host n
  | .popListFrame => s.pop.2.onMemory fun mem => mem.popListFrame host (frameIndex v) s.pop.1
  | .extendFrame =>
      s.onMemory fun mem => mem.withFrames (extendFrame mem.frames s.frame (frameIndex v))
  | .arity1p => s.onMemory fun mem => mem.arityEq 1
  | .arity2p => s.onMemory fun mem => mem.arityEq 2
  | .arity3p => s.onMemory fun mem => mem.arityEq 3
  | .arity4p => s.onMemory fun mem => mem.arityEq 4
  | .arityEqp => s.onMemory fun mem => mem.arityEq n
  | .arityGep => s.onMemory fun mem => mem.arityGe n
  | .constant0 => .ok (s.setVal (.fixnum 0))
  | .constant1 => .ok (s.setVal (.fixnum 1))
  | .constant2 => .ok (s.setVal (.fixnum 2))
  | .constant3 => .ok (s.setVal (.fixnum 3))
  | .constant4 => .ok (s.setVal (.fixnum 4))
  | .fixnum =>
      if fixnumMax < n then .error (.idioError "FIXNUM OOB") else .ok (s.setVal (.fixnum n))
  | .negFixnum =>
      if -signed v < fixnumMin then .error (.idioError "FIXNUM OOB")
      else .ok (s.setVal (.fixnum (-signed v)))
  | .constant =>
      if fixnumMax < n then .error (.idioError "CONSTANT OOB") else .ok (s.setVal (.constant n))
  | .negConstant =>
      if -signed v < fixnumMin then .error (.idioError "CONSTANT OOB")
      else .ok (s.setVal (.constant (-signed v)))
  | .unicode =>
      if fixnumMax < n then .error (.idioError "UNICODE OOB") else .ok (s.setVal (.unicode n))
  | .nop => .ok s
  | .primcall0 => s.primcall host n []
  | .primcall1 => s.primcall host n [s.mem.val]
  | .primcall2 => s.primcall host n [s.reg1, s.mem.val]
  | .suppressRcse => .ok { s.push s.mem.rcse with mem := { s.mem with rcse := .true_ } }
  | .popRcse => .ok { s.pop.2 with mem := { s.mem with rcse := s.pop.1 } }
  | .not => .ok { s with mem := s.mem.not }
  | .expander => s.onMemory fun mem => mem.withHost (host.symbolSet (.expander n) s.xi s.env mem.val)
  | .infixOperator =>
      s.onMemory fun mem =>
        mem.withHost (host.symbolSet (.infixOperator n w.toNat) s.xi s.env mem.val)
  | .postfixOperator =>
      s.onMemory fun mem =>
        mem.withHost (host.symbolSet (.postfixOperator n w.toNat) s.xi s.env mem.val)
  | o => host.other o vs s

/-- `idio_vm_run1` -/
def run1 (s : State O S) : Result (State O S) :=
  if (img.byteCode s.xi).length ≤ s.pc then .error (.panic "idio_vm_run1: bad PC!")
  else do
    let (o, vs, pc) ← fetchInstruction (img.byteCode s.xi) s.pc
    exec img host o vs { s with pc := pc }

end State

/-! ## Fetching -/

section

variable {O S : Type} {img : Image O} (host : Host O S)

/-- The instruction at the PC is done. -/
theorem run1_eq {s : State O S} {o : Opcode} {vs : List UInt64}
    (h : Located (img.byteCode s.xi) s.pc (ins o vs)) (ht : o.Takes vs) :
    run1 img host s = exec img host o vs { s with pc := s.pc + (ins o vs).length } := by
  have hle : s.pc + (ins o vs).length ≤ (img.byteCode s.xi).length := Located.add_length_le h
  have hpos : 0 < (ins o vs).length := Nat.succ_pos _
  unfold run1
  rw [if_neg (by omega), h.fetch ht, ok_bind]

end

end Idio.Machine
