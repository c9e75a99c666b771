/-
  Vm/Thread.lean --- the registers and the stack of a thread.

  The stack holds ordinary values and records.  A record is a few slots that end
  with a stack marker, one of nine constants no program can get hold of; the
  functions here push a record, pop one and check its marker, or look for the
  topmost marker of a kind.

  The stack is the list its array holds, bottom first, so that a stack pointer is an
  index of the list.

  A thread is generic in what its stack is, so that the same registers go with the
  list of slots here, with a list of whole records (`Vm/Records.lean`) and with the
  address of an array (`Vm/Continuation.lean`).
-/
import Idio.Array.Basic
import Idio.Value.Basic

set_option autoImplicit false

namespace Idio

/-! ## Constants -/

/-- `IDIO_CONSTANT_IDIO`. -/
def constantIdio (x : Nat) : Value := .constant (BitVec.ofNat 64 x <<< 5 ||| 0x02)

/-- `idio_S_undef`. -/
def Value.undef : Value := constantIdio 1

/-- `idio_S_true`. -/
def Value.true_ : Value := constantIdio 4

/-- `idio_S_false`. -/
def Value.false_ : Value := constantIdio 5

/-- The stack markers. -/
inductive Marker where
  | preserveState
  | preserveAllState
  | trap
  | escaper
  | preserveContinuation
  | return_
  | dynamic
  | environ
  | abort
  deriving DecidableEq, Repr

namespace Marker

/-- `IDIO_STACK_MARKER_PRESERVE_STATE` and those after it. -/
def number : Marker → Nat
  | .preserveState => 20
  | .preserveAllState => 21
  | .trap => 22
  | .escaper => 23
  | .preserveContinuation => 24
  | .return_ => 25
  | .dynamic => 26
  | .environ => 27
  | .abort => 28

/-- `idio_SM_preserve_state` and those after it. -/
def value (m : Marker) : Value := constantIdio m.number

theorem value_injective {m n : Marker} (h : m.value = n.value) : m = n := by
  revert h
  cases m <;> cases n <;> decide

@[simp] theorem value_inj {m n : Marker} : m.value = n.value ↔ m = n :=
  ⟨value_injective, fun h => h ▸ rfl⟩

@[simp] theorem fixnum_ne_value (v : Int) (m : Marker) : Value.fixnum v ≠ m.value :=
  fun h => by cases h

end Marker

/-- A value that is not a stack marker. -/
def Ordinary (v : Value) : Prop := ∀ m : Marker, v ≠ m.value

instance (v : Value) : Decidable (Ordinary v) :=
  decidable_of_iff (∀ m ∈ [Marker.preserveState, .preserveAllState, .trap, .escaper,
    .preserveContinuation, .return_, .dynamic, .environ, .abort], v ≠ m.value)
    ⟨fun h m => h m (by cases m <;> simp), fun h m _ => h m⟩

theorem ordinary_fixnum (v : Int) : Ordinary (.fixnum v) := fun m => Marker.fixnum_ne_value v m

/-! ## Threads -/

/-- The registers that instructions change as they please. -/
structure Registers where
  pc : Int
  val : Value
  frame : Value
  env : Value
  func : Value
  reg1 : Value
  reg2 : Value
  expr : Value
  module : Value
  holes : List Value
  deriving DecidableEq, Repr

/-- Registers with a value in VAL. -/
def registersWith (val : Value) : Registers where
  pc := 0
  val := val
  frame := .nil
  env := .nil
  func := .nil
  reg1 := .nil
  reg2 := .nil
  expr := .fixnum 0
  module := .nil
  holes := []

/-- `idio_thread_t`, less the handles. -/
structure Thread (σ : Type) extends Registers where
  xi : Nat
  stack : σ
  deriving DecidableEq, Repr

/-- The thread with another stack. -/
def Thread.withStack {σ τ : Type} (thr : Thread σ) (stack : τ) : Thread τ :=
  { toRegisters := thr.toRegisters, xi := thr.xi, stack := stack }

section WithStack

variable {σ τ υ : Type} (thr : Thread σ) (s : τ) (t : υ)

@[simp] theorem Thread.withStack_toRegisters : (thr.withStack s).toRegisters = thr.toRegisters :=
  rfl

@[simp] theorem Thread.withStack_xi : (thr.withStack s).xi = thr.xi := rfl

@[simp] theorem Thread.withStack_stack : (thr.withStack s).stack = s := rfl

@[simp] theorem Thread.withStack_withStack : (thr.withStack s).withStack t = thr.withStack t := rfl

end WithStack

/-! ## The stack -/

/-- The slots, bottom first. -/
abbrev Stack : Type := List Value

/-- `idio_array_ref_index`. -/
def Stack.refIndex (stack : Stack) (index : Int) : Result Value :=
  let i := if index < 0 then index + stack.length else index
  if i < 0 then .error (IdioArray.boundsError index stack.length)
  else
    match stack[i.toNat]? with
    | some v => .ok v
    | none => .error (IdioArray.boundsError i stack.length)

/-- `idio_array_insert_index` at an index that is in use. -/
def Stack.insertIndex (stack : Stack) (v : Value) (index : Int) : Result Stack :=
  if 0 ≤ index ∧ index < stack.length then .ok (stack.set index.toNat v)
  else .error .undefined

/-- `IDIO_FIXNUM_VAL`. -/
def fixnumVal : Value → Result Int
  | .fixnum v => .ok v
  | _ => .error .undefined

namespace Thread

/-- `IDIO_THREAD_STACK_PUSH`. -/
def push (thr : Thread Stack) (v : Value) : Thread Stack :=
  thr.withStack (thr.stack ++ [v])

/-- `idio_array_push_n`. -/
def pushN (thr : Thread Stack) (vs : List Value) : Thread Stack :=
  thr.withStack (thr.stack ++ vs)

/-- `IDIO_THREAD_STACK_POP`; an empty stack gives `#n`. -/
def pop (thr : Thread Stack) : Value × Thread Stack :=
  (thr.stack.getLast?.getD .nil, thr.withStack thr.stack.dropLast)

end Thread

/-! ## Looking for markers -/

/-- `for (; sp >= 0; sp--)`: the topmost of the first `n` slots that holds the mark. -/
def markerLoop (stack : Stack) (mark : Marker) : Nat → Int
  | 0 => -1
  | sp + 1 => if stack[sp]? = some mark.value then sp else markerLoop stack mark sp

/-- `for (; sp > 0; sp--)`: the trap with the largest stored index of another. -/
def maxLoop (stack : Stack) : Nat → Int → Int → Result Int
  | 0, max, _ => .ok max
  | sp + 1, max, maxNext =>
      if stack[sp + 1]? = some Marker.trap.value then do
        let val ← stack.refIndex ((sp + 1 : Nat) - 3) >>= fixnumVal
        if val > maxNext then maxLoop stack sp (sp + 1 : Nat) val
        else maxLoop stack sp max maxNext
      else maxLoop stack sp max maxNext

/-- `idio_vm_find_stack_marker`, `max` being 0. -/
def findStackMarker (stack : Stack) (mark : Marker) (from_ : Int) : Result Int :=
  let sp : Int := stack.length - 1
  if sp < 0 then .ok sp
  else if from_ ≠ 0 then
    if from_ < 0 ∨ from_ > sp then
      .error (.codingError ("find-stack-marker: from " ++ toString from_ ++
        " out of range: 0 - " ++ toString sp))
    else .ok (markerLoop stack mark (from_.toNat + 1))
  else .ok (markerLoop stack mark stack.length)

/-- `idio_vm_find_stack_marker`, the mark being that of traps, with a `max`. -/
def findMaxTrap (stack : Stack) : Result Int :=
  let sp : Int := stack.length - 1
  if sp < 0 then .ok sp else maxLoop stack (stack.length - 1) 0 0

end Idio
