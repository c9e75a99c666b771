/-
  Basic.lean --- faults and results.

  A C function of the interpreter either returns a value, raises a condition, or
  (for a loop that never ends) does neither.  `Result α` is the type of what it
  does: `Fault.diverges` stands for the last case, so a theorem that a call
  returns also says that its loops end.

  The model is of the release build: `IDIO_C_ASSERT` and `IDIO_TYPE_ASSERT` expand
  to nothing there, so the assertions of the debug build are not faults.
-/
import Mathlib.Logic.Basic

set_option autoImplicit false

namespace Idio

/-- The conditions the modelled functions raise, with the texts they carry. -/
inductive Fault where
  /-- the loop does not end -/
  | diverges
  /-- memory outside an allocation is touched, or memory is read before it is written -/
  | undefined
  /-- `exit` -/
  | exit (status : Nat)
  /-- `idio_error_param_nil` -/
  | paramNil (func param : String)
  /-- `^rt-array-error` -/
  | arrayError (msg : String)
  /-- `^rt-bignum-error` -/
  | bignumError (msg : String)
  /-- `^rt-bignum-conversion-error` -/
  | bignumConversionError (msg : String)
  /-- `^rt-fixnum-conversion-error` -/
  | fixnumConversionError (msg : String)
  /-- `^read-error`, less the position and what was read instead -/
  | readErrorParse (msg : String)
  /-- `^rt-divide-by-zero-error` -/
  | divideByZero (msg : String)
  /-- `^rt-parameter-type-error`, with the type that was expected -/
  | paramType (expected : String)
  /-- `^rt-parameter-type-error`, with a message of its own -/
  | paramTypeMsg (msg : String)
  /-- `^rt-parameter-error`, with the function it is raised in -/
  | paramError (func msg : String)
  /-- `^rt-parameter-value-error` -/
  | paramValue (func param msg : String)
  /-- `^rt-hash-error` -/
  | hashError (msg : String)
  /-- `^evaluation-error`, less the expression it points at -/
  | evaluationError (msg : String)
  /-- `^st-function-arity-error`, less the expression it points at -/
  | staticArity (msg : String)
  /-- `^rt-bitset-bounds-error` -/
  | bitsetBounds (bit size : Nat)
  /-- `^rt-bitset-size-mismatch-error` -/
  | bitsetSizeMismatch (s1 s2 : Nat)
  /-- `idio_vm_panic` -/
  | panic (msg : String)
  /-- `idio_coding_error_C` -/
  | codingError (msg : String)
  /-- `assert` -/
  | assertion
  /-- `idio_vm_reset_thread` -/
  | threadReset
  /-- `^rt-function-error` -/
  | functionError (msg : String)
  /-- `^rt-function-arity-error`, less the function it points at -/
  | functionArity (msg : String)
  /-- `^string-error`, less its detail -/
  | stringError (msg : String)
  /-- `^rt-variable-unbound-error`, with the detail of the condition -/
  | variableUnbound (msg detail : String)
  /-- `^rt-vtable-unbound-error`, less its texts -/
  | vtableUnbound
  /-- `^rt-vtable-method-unbound-error`, less its texts -/
  | vtableMethodUnbound
  /-- `^rt-dynamic-variable-unbound-error` -/
  | dynamicUnbound (msg detail : String)
  /-- `^rt-environ-variable-unbound-error` -/
  | environUnbound (msg detail : String)
  /-- `^rt-slot-not-found-error` -/
  | slotNotFound (slot : String)
  /-- `^rt-instance-error`, with the function it is raised in -/
  | instanceError (func msg : String)
  /-- `^rt-const-parameter-error`, with the type of the constant -/
  | constParam (type : String)
  /-- `^rt-json5-error` -/
  | json5Error (msg : String)
  /-- `^read-error`, with its whole message -/
  | readError (msg : String)
  /-- `idio_handle_lookahead_error` -/
  | lookahead (c : Int)
  /-- `^i/o-handle-error` of a closed handle -/
  | handleClosed
  /-- `idio_error_system_errno` -/
  | systemErrno (func : String)
  /-- `^idio-error` -/
  | idioError (msg : String)
  deriving DecidableEq, Repr

/-- What a call does: return a value or raise a condition. -/
abbrev Result (α : Type) : Type := Except Fault α

section Bind

variable {α β : Type}

@[simp] theorem ok_bind (a : α) (f : α → Result β) : ((.ok a : Result α) >>= f) = f a := rfl

@[simp] theorem error_bind (e : Fault) (f : α → Result β) :
    ((.error e : Result α) >>= f) = .error e := rfl

theorem bind_eq_ok {x : Result α} {f : α → Result β} {b : β} :
    (x >>= f) = .ok b ↔ ∃ a, x = .ok a ∧ f a = .ok b := by
  cases x with
  | error e => simp
  | ok a => simp

end Bind

end Idio
