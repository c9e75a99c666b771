/-
  Vm/ByteCode.lean --- instructions as bytes.

  An instruction is an opcode, which is one byte, and operands of three kinds: numbers of one
  to nine bytes, references to symbols of two bytes, and the offsets of short jumps, of one.
  What operands an opcode has is its `shape`: `idio_codegen_compile` writes them so and
  `idio_vm_run1` reads them so.

  An instruction is read where it was written, whatever code is around it.
-/
import Idio.Vm.Varuint

set_option autoImplicit false

namespace Idio

/-! ## Opcodes -/

/-- `idio_vm_a_enum` -/
inductive Opcode where
  | shallowArgumentRef0 | shallowArgumentRef1 | shallowArgumentRef2 | shallowArgumentRef3
  | shallowArgumentRef | deepArgumentRef | shallowArgumentSet0 | shallowArgumentSet1
  | shallowArgumentSet2 | shallowArgumentSet3 | shallowArgumentSet | deepArgumentSet | symRef
  | functionSymRef | constantRef | computedSymRef | symDef | symSet | computedSymSet
  | computedSymDef | valSet | predefined0 | predefined1 | predefined2 | predefined3 | predefined4
  | predefined5 | predefined6 | predefined7 | predefined8 | predefined | longGoto | longJumpFalse
  | longJumpTrue | shortGoto | shortJumpFalse | shortJumpTrue | pushValue | popValue | popReg1
  | popReg2 | srcExpr | popFunction | preserveState | restoreState | restoreAllState
  | createFunction | createClosure | functionInvoke | functionGoto | return_ | finish | pushAbort
  | popAbort | allocateFrame1 | allocateFrame2 | allocateFrame3 | allocateFrame4 | allocateFrame5
  | allocateFrame | allocateDottedFrame | reuseFrame | popFrame0 | popFrame1 | popFrame2
  | popFrame3 | popFrame | linkFrame | unlinkFrame | packFrame | popListFrame | extendFrame
  | arity1p | arity2p | arity3p | arity4p | arityEqp | arityGep | shortNumber | shortNegNumber
  | constant0 | constant1 | constant2 | constant3 | constant4 | fixnum | negFixnum | constant
  | negConstant | unicode | nop | primcall0 | primcall1 | primcall2 | suppressRcse | popRcse
  | not | expander | infixOperator | postfixOperator | pushDynamic | popDynamic | dynamicSymRef
  | dynamicFunctionSymRef | pushEnviron | popEnviron | environSymRef | nonContErr | pushTrap
  | popTrap | pushEscaper | popEscaper | escaperLabelRef
  deriving DecidableEq, Repr

/-- What an operand is written as. -/
inductive Operand where
  /-- `IDIO_IA_PUSH_VARUINT` and `idio_vm_fetch_varuint` -/
  | varuint
  /-- `IDIO_IA_PUSH_REF` and `IDIO_VM_FETCH_REF` -/
  | ref
  /-- `IDIO_IA_PUSH1` and `IDIO_THREAD_FETCH_NEXT` -/
  | byte
  deriving DecidableEq, Repr

namespace Opcode

/-- The opcodes in the order of their numbers. -/
def all : List Opcode :=
   [.shallowArgumentRef0, .shallowArgumentRef1, .shallowArgumentRef2, .shallowArgumentRef3,
    .shallowArgumentRef, .deepArgumentRef, .shallowArgumentSet0, .shallowArgumentSet1,
    .shallowArgumentSet2, .shallowArgumentSet3, .shallowArgumentSet, .deepArgumentSet, .symRef,
    .functionSymRef, .constantRef, .computedSymRef, .symDef, .symSet, .computedSymSet,
    .computedSymDef, .valSet, .predefined0, .predefined1, .predefined2, .predefined3,
    .predefined4, .predefined5, .predefined6, .predefined7, .predefined8, .predefined, .longGoto,
    .longJumpFalse, .longJumpTrue, .shortGoto, .shortJumpFalse, .shortJumpTrue, .pushValue,
    .popValue, .popReg1, .popReg2, .srcExpr, .popFunction, .preserveState, .restoreState,
    .restoreAllState, .createFunction, .createClosure, .functionInvoke, .functionGoto, .return_,
    .finish, .pushAbort, .popAbort, .allocateFrame1, .allocateFrame2, .allocateFrame3,
    .allocateFrame4, .allocateFrame5, .allocateFrame, .allocateDottedFrame, .reuseFrame,
    .popFrame0, .popFrame1, .popFrame2, .popFrame3, .popFrame, .linkFrame, .unlinkFrame,
    .packFrame, .popListFrame, .extendFrame, .arity1p, .arity2p, .arity3p, .arity4p, .arityEqp,
    .arityGep, .shortNumber, .shortNegNumber, .constant0, .constant1, .constant2, .constant3,
    .constant4, .fixnum, .negFixnum, .constant, .negConstant, .unicode, .nop, .primcall0,
    .primcall1, .primcall2, .suppressRcse, .popRcse, .not, .expander, .infixOperator,
    .postfixOperator, .pushDynamic, .popDynamic, .dynamicSymRef, .dynamicFunctionSymRef,
    .pushEnviron, .popEnviron, .environSymRef, .nonContErr, .pushTrap, .popTrap, .pushEscaper,
    .popEscaper, .escaperLabelRef]

/-- The number of an opcode. -/
def byte (o : Opcode) : UInt8 := UInt8.ofNat o.ctorIdx

/-- The opcode of a number. -/
def ofByte (b : UInt8) : Option Opcode := all[b.toNat]?

/-- The operands of an opcode. -/
def shape : Opcode → List Operand
  | shallowArgumentRef | shallowArgumentSet | constantRef | predefined => [.varuint]
  | longGoto | longJumpFalse | longJumpTrue | srcExpr | pushAbort => [.varuint]
  | allocateFrame | allocateDottedFrame | reuseFrame | popFrame => [.varuint]
  | packFrame | popListFrame | arityEqp | arityGep => [.varuint]
  | fixnum | negFixnum | constant | negConstant | unicode => [.varuint]
  | primcall0 | primcall1 | primcall2 => [.varuint]
  | deepArgumentRef | deepArgumentSet | linkFrame | extendFrame => [.varuint, .varuint]
  | createFunction => [.varuint, .varuint, .varuint, .varuint, .varuint, .varuint]
  | symRef | functionSymRef | computedSymRef | symSet | computedSymSet | computedSymDef => [.ref]
  | valSet | createClosure | expander | pushDynamic | dynamicSymRef => [.ref]
  | dynamicFunctionSymRef | pushEnviron | environSymRef | pushTrap | escaperLabelRef => [.ref]
  | symDef | infixOperator | postfixOperator | pushEscaper => [.ref, .varuint]
  | shortGoto | shortJumpFalse | shortJumpTrue => [.byte]
  | _ => []

set_option maxRecDepth 2000 in
theorem ofByte_byte (o : Opcode) : ofByte o.byte = some o := by
  cases o <;> rfl

end Opcode

/-! ## Writing -/

/-- The bytes of an operand. -/
def Operand.bytes : Operand → UInt64 → Ia
  | varuint, v => computeVaruint v
  | ref, v => computeFixuint 2 v
  | byte, v => [v.toUInt8]

/-- What the width of an operand has room for. -/
def Operand.Fits : Operand → UInt64 → Prop
  | varuint, _ => True
  | ref, v => v.toNat < 65536
  | byte, v => v.toNat < 256

/-- The bytes of some operands. -/
def operandBytes : List Operand → List UInt64 → Ia
  | p :: ps, v :: vs => p.bytes v ++ operandBytes ps vs
  | _, _ => []

/-- The bytes of an instruction. -/
def ins (o : Opcode) (vs : List UInt64) : Ia := o.byte :: operandBytes o.shape vs

/-- The operands of an instruction are as many as the opcode has, and fit. -/
def Opcode.Takes (o : Opcode) (vs : List UInt64) : Prop := List.Forall₂ Operand.Fits o.shape vs

/-! ## Reading -/

/-- An operand. -/
def Operand.fetch (bc : Ia) : Operand → Nat → Result (UInt64 × Nat)
  | varuint, pc => getVaruint bc pc
  | ref, pc => getFixuint bc 2 pc
  | byte, pc => do
      let (i, pc) ← getNext bc pc
      return (i.toUInt64, pc)

/-- Some operands. -/
def fetchOperands (bc : Ia) : List Operand → Nat → Result (List UInt64 × Nat)
  | [], pc => .ok ([], pc)
  | p :: ps, pc => do
      let (v, pc) ← p.fetch bc pc
      let (vs, pc) ← fetchOperands bc ps pc
      return (v :: vs, pc)

/-- The instruction at the PC, and the PC after it. -/
def fetchInstruction (bc : Ia) (pc : Nat) : Result (Opcode × List UInt64 × Nat) := do
  let (i, pc) ← getNext bc pc
  match Opcode.ofByte i with
  | some o => do
      let (vs, pc) ← fetchOperands bc o.shape pc
      return (o, vs, pc)
  | none => .error (.panic "unexpected instruction")

/-! ## Round trips -/

theorem Operand.fetch_bytes (pre post : Ia) {p : Operand} {v : UInt64} (h : p.Fits v) :
    p.fetch (pre ++ (p.bytes v ++ post)) pre.length =
      .ok (v, pre.length + (p.bytes v).length) := by
  cases p with
  | varuint => exact getVaruint_computeVaruint pre post v
  | ref =>
    have hread := getFixuint_computeFixuint pre post (n := 2) h
    rw [← pushBytes_length 2 v] at hread
    exact hread
  | byte =>
    have hv : v.toUInt8.toUInt64 = v := by
      rw [← UInt64.toNat_inj, UInt8.toNat_toUInt64, UInt64.toNat_toUInt8]
      exact Nat.mod_eq_of_lt h
    show (getNext (pre ++ v.toUInt8 :: post) pre.length >>= _) = _
    rw [getNext_append, ok_bind]
    show Except.ok (v.toUInt8.toUInt64, _) = _
    rw [hv]
    rfl

theorem fetchOperands_bytes (pre post : Ia) {ps : List Operand} {vs : List UInt64}
    (h : List.Forall₂ Operand.Fits ps vs) :
    fetchOperands (pre ++ (operandBytes ps vs ++ post)) ps pre.length =
      .ok (vs, pre.length + (operandBytes ps vs).length) := by
  induction h generalizing pre with
  | nil => rfl
  | @cons p v ps vs hfit _ ih =>
    have hrest := ih (pre ++ p.bytes v)
    rw [List.append_assoc, List.length_append] at hrest
    rw [operandBytes, List.append_assoc, fetchOperands, Operand.fetch_bytes pre _ hfit, ok_bind]
    show (fetchOperands _ ps (pre.length + (p.bytes v).length) >>= _) = _
    rw [hrest, List.length_append, Nat.add_assoc]
    rfl

/-- **An instruction is read where it was written**: the opcode and its operands, and the place
after it, with any code before it and after it. -/
theorem fetchInstruction_ins (pre post : Ia) {o : Opcode} {vs : List UInt64} (h : o.Takes vs) :
    fetchInstruction (pre ++ (ins o vs ++ post)) pre.length =
      .ok (o, vs, pre.length + (ins o vs).length) := by
  have hrest := fetchOperands_bytes (pre ++ [o.byte]) post h
  rw [List.append_assoc, List.length_append, List.length_singleton] at hrest
  unfold fetchInstruction ins
  rw [List.cons_append, getNext_append, ok_bind]
  simp only [Opcode.ofByte_byte]
  rw [show pre ++ o.byte :: (operandBytes o.shape vs ++ post) =
    pre ++ ([o.byte] ++ (operandBytes o.shape vs ++ post)) from rfl, hrest, List.length_cons,
    Nat.add_assoc, Nat.add_comm 1]
  rfl

/-! ## Places -/

/-- A block of code has these bytes from a place on. -/
def Located (bc : Ia) (pc : Nat) (bs : Ia) : Prop := bs <+: bc.drop pc

namespace Located

variable {bc as bs : Ia} {pc : Nat}

theorem left (h : Located bc pc (as ++ bs)) : Located bc pc as :=
  (List.prefix_append as bs).trans h

theorem right (h : Located bc pc (as ++ bs)) : Located bc (pc + as.length) bs := by
  obtain ⟨post, hpost⟩ := h
  refine ⟨post, ?_⟩
  rw [← List.drop_drop, ← hpost, List.append_assoc, List.drop_left]

theorem add_length_le {b : UInt8} (h : Located bc pc (b :: bs)) :
    pc + (b :: bs).length ≤ bc.length := by
  have hle := h.length_le
  rw [List.length_drop] at hle
  have hpos : 0 < (b :: bs).length := Nat.succ_pos _
  omega

theorem split {b : UInt8} (h : Located bc pc (b :: bs)) :
    ∃ pre post, bc = pre ++ (b :: bs ++ post) ∧ pre.length = pc := by
  obtain ⟨post, hpost⟩ := h
  refine ⟨bc.take pc, post, ?_, List.length_take_of_le ?_⟩
  · rw [hpost, List.take_append_drop]
  · have := add_length_le ⟨post, hpost⟩
    omega

/-- The instruction at its place. -/
theorem fetch {o : Opcode} {vs : List UInt64} (h : Located bc pc (ins o vs)) (ht : o.Takes vs) :
    fetchInstruction bc pc = .ok (o, vs, pc + (ins o vs).length) := by
  obtain ⟨pre, post, rfl, rfl⟩ := split h
  exact fetchInstruction_ins pre post ht

end Located

end Idio
