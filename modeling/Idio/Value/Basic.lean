/-
  Value/Basic.lean --- values and the heap.

  An `IDIO` value is a machine word: a fixnum, a constant or the address of an
  object.  What `idio_equal` and the default hash function read of an object is in
  `Object`; the heap maps addresses to objects.  Some objects keep their contents in
  an allocation of its own, and comparisons by identity and the hash function then
  look at the address of that allocation, so `Object` has these addresses too.

  Two parts of an object are embedded where the program follows a pointer: the string
  a substring is a part of, and the chains of a hash table.

  Threads, frames and continuations are never components of data; they are here
  because any value can be a key.
-/
import Idio.Bignum.Basic
import Idio.Number
import Idio.Hash.Table

set_option autoImplicit false

namespace Idio

/-- The address of an allocation. -/
abbrev Addr : Type := BitVec 64

/-- A value as the program passes it. -/
inductive Value where
  | fixnum (v : Int)
  /-- the constants of all four kinds, unicode characters among them, as words -/
  | constant (w : BitVec 64)
  | pointer (a : Addr)
  deriving DecidableEq, Repr

/-- The word of a value, `(uintptr_t) k`. -/
def Value.word : Value → BitVec 64
  | .fixnum v => (BitVec.ofInt 64 v <<< 2) ||| 1
  | .constant w => w
  | .pointer a => a

/-- `idio_S_nil`. -/
def Value.nil : Value := .constant 0x02

/-- `idio_S_unspec`. -/
def Value.unspec : Value := .constant 0x42

/-! ## Strings -/

/-- `IDIO_STRING_FLAGS`. -/
inductive StringFlags where
  | oneByte
  | twoByte
  | fourByte
  | octet
  | pathname
  | fdPathname
  | fifoPathname
  deriving DecidableEq, Repr

/-- A string: its flags and its code points, each as wide as the flags say. -/
structure IdioString where
  flags : StringFlags
  chars : List Nat
  deriving DecidableEq, Repr

/-- The part of a string that a substring is. -/
def IdioString.part (s : IdioString) (offset len : Nat) : IdioString :=
  { s with chars := (s.chars.drop offset).take len }

/-! ## Objects -/

/-- `idio_equal_enum`. -/
inductive EqualLevel where
  | eqp
  | eqvp
  | equalp
  deriving DecidableEq, Repr

/-- `IDIO_HASH_COMP_C`, or a function of the language. -/
inductive Comparator where
  | C (level : EqualLevel)
  | idio (comp : Value → Value → Bool)

/-- `IDIO_HASH_HASH_C`, or a function of the language. -/
inductive Hasher where
  | defaultHash
  | idio (hash : Value → Nat)

/-- A hash table with its functions.  `hash-set!` refuses the key `#n`. -/
structure HashObject where
  comp : Comparator
  hash : Hasher
  table : Table Value Value
  keys_ne_nil : ∀ e ∈ table.ha.flatten, e.1 ≠ Value.nil

/-- The integral C types. -/
inductive CIntType where
  | char
  | schar
  | uchar
  | short
  | ushort
  | int
  | uint
  | long
  | ulong
  | longlong
  | ulonglong
  deriving DecidableEq, Repr

/-- What is at the address of a value.  A field `u` is the address of the C structure
of the object. -/
inductive Object where
  | string (s : IdioString)
  | substring (parent : IdioString) (offset len : Nat)
      (inside : offset + len ≤ parent.chars.length)
  | symbol (s : Addr)
  | keyword (s : Addr)
  | pair (h t : Value)
  | array (u : Addr) (ae : List Value)
  | hash (u : Addr) (h : HashObject)
  | closure (u : Addr)
  | primitive (f : Addr)
  | bignum (bn : Bignum) (sig : Addr)
  | module (name : Addr)
  | frame
  | handle (u stream : Addr)
  | structType (u : Addr) (name parent : Value) (fields : List Value) (fieldsAddr : Addr)
  | structInstance (type : Value) (fields : List Value) (fieldsAddr : Addr)
  | thread (u : Addr)
  | continuation (u stack : Addr)
  | bitset (size : Nat) (words : List (BitVec 32)) (wordsAddr : Addr)
  | cInt (type : CIntType) (v : Int)
  | cFloat (bits : BitVec 32)
  | cDouble (bits : BitVec 64)
  /-- with its value converted to an integer, which is all that is read of it -/
  | cLongdouble (converted : BitVec 64)
  | cPointer (p : Addr)

/-- The objects at all addresses. -/
abbrev Heap : Type := Addr → Object

/-- The string a value of one of the string types has. -/
def Object.text : Object → Option IdioString
  | .string s => some s
  | .substring parent offset len _ => some (parent.part offset len)
  | _ => none

/-- `idio_isa_C_number`. -/
def Object.isCNumber : Object → Bool
  | .cInt _ _ | .cFloat _ | .cDouble _ | .cLongdouble _ => true
  | _ => false

/-- The keys and values of a list of entries. -/
def entryParts (es : List (Value × Value)) : List Value := es.flatMap fun e => [e.1, e.2]

/-- The entries of a table that the loops over all entries do not pass over. -/
def HashObject.entries (h : HashObject) : List (Value × Value) :=
  h.table.ha.flatten.filter fun e => decide (e.1 ≠ .nil)

/-- The values that an object refers to. -/
def Object.components : Object → List Value
  | .pair h t => [h, t]
  | .array _ ae => ae
  | .hash _ h => entryParts h.table.ha.flatten
  | .structType _ name parent fields _ => name :: parent :: fields
  | .structInstance type fields _ => type :: fields
  | _ => []

/-- The values that a value refers to. -/
def components (H : Heap) : Value → List Value
  | .pointer a => (H a).components
  | _ => []

/-- How deep a value is, if an object at `a` is `rank a` deep below itself. -/
def Value.depth (rank : Addr → Nat) : Value → Nat
  | .pointer a => rank a + 1
  | _ => 0

/-- Data that is not circular: an object is deeper than what it refers to. -/
structure AcyclicHeap where
  heap : Heap
  rank : Addr → Nat
  descends : ∀ a, ∀ v ∈ (heap a).components, v.depth rank ≤ rank a

/-- How deep a value is. -/
def AcyclicHeap.depth (A : AcyclicHeap) (v : Value) : Nat := v.depth A.rank

/-- With fuel for the object there is fuel for its components. -/
theorem AcyclicHeap.depth_lt (A : AcyclicHeap) {a : Addr} {n : Nat}
    (ha : A.depth (.pointer a) < n + 1) {v : Value} (hv : v ∈ (A.heap a).components) :
    A.depth v < n := by
  have hdesc := A.descends a v hv
  simp only [depth, Value.depth] at *
  omega

/-- The number that a fixnum or a bignum is. -/
def numberOf (H : Heap) : Value → Option Num
  | .fixnum v => some (.fixnum v)
  | .pointer a =>
      match H a with
      | .bignum bn _ => some (.bignum bn)
      | _ => none
  | .constant _ => none

theorem mem_entryParts {es : List (Value × Value)} {v : Value} :
    v ∈ entryParts es ↔ ∃ e ∈ es, v = e.1 ∨ v = e.2 := by
  simp [entryParts, List.mem_flatMap]

end Idio
