/-
  Json5/Value.lean --- JSON5 tokens and values.

  A string is the list of its code points; the width it is stored with is not
  modelled.  The value of a number with a fraction or an exponent is computed in
  floating point: such a number is kept as the code points it is read from.
-/
import Idio.Basic

set_option autoImplicit false

namespace Idio.Json5

/-- A `json5_unicode_string_t`, as the code points it holds. -/
abbrev UString : Type := List Nat

/-- `json5_number_t` -/
inductive Number where
  | infinity
  | negInfinity
  | nan
  | negNan
  | integer (i : Int)
  | float (text : UString)
  deriving DecidableEq, Repr

/-- `json5_punctuator_type_t` -/
inductive Punctuator where
  | lbrace
  | rbrace
  | lbracket
  | rbracket
  | colon
  | comma
  deriving DecidableEq, Repr

/-- The value of an identifier token: a literal or an ECMAIdentifier. -/
inductive IdentifierValue where
  | null
  | boolean (b : Bool)
  | identifier (s : UString)
  deriving DecidableEq, Repr

/-- `json5_token_type_t`, with the value of a token of that type. -/
inductive TokenKind where
  | root
  | identifier (v : IdentifierValue)
  | punctuator (p : Punctuator)
  | string (s : UString)
  | number (n : Number)
  deriving DecidableEq, Repr

/-- `json5_token_t`; the next token is the next one in a list. -/
structure Token where
  kind : TokenKind
  start : Nat
  stop : Nat
  deriving DecidableEq, Repr

/-- The name of a member with its `json5_member_type_t`. -/
inductive MemberName where
  | string (s : UString)
  | identifier (s : UString)
  | null
  | boolean (b : Bool)
  deriving DecidableEq, Repr

/-- `json5_value_t`, less the values of tokens that are no JSON5Value. -/
inductive Value where
  | null
  | boolean (b : Bool)
  | string (s : UString)
  | number (n : Number)
  | object (members : List (MemberName × Value))
  | array (elements : List Value)

/-- `json5_error_printf` -/
def jsonError {α : Type} (msg : String) : Result α :=
  .error (.json5Error msg)

/-- The call reports an error of this module. -/
def Fails {α : Type} (r : Result α) : Prop :=
  ∃ msg, r = .error (.json5Error msg)

theorem fails_jsonError {α : Type} (msg : String) : Fails (jsonError msg : Result α) :=
  ⟨msg, rfl⟩

theorem Fails.bind {α β : Type} {r : Result α} (h : Fails r) (f : α → Result β) :
    Fails (r >>= f) := by
  obtain ⟨msg, rfl⟩ := h
  exact ⟨msg, rfl⟩

end Idio.Json5
