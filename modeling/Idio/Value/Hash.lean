/-
  Value/Hash.lean --- the default hash function.

  Most objects are hashed by an address, strings by their bytes, and pairs, arrays
  and hash tables by their components when the comparator of the table looks at
  components.  The recursion has no bound in the source; here it is fuelled, and
  with enough fuel on data that is not circular more of it makes no difference
  (`defaultHashC_stable`).

  `hashedWord` is the word an object is hashed by when it is hashed by one.  The mixing
  of words is injective (`hashUintmax_injective`), so two such objects have the same
  hash value for all table sizes only if their words are the same.
-/
import Idio.Lib.Mixing
import Idio.Value.Basic

set_option autoImplicit false

namespace Idio

open Mixing

/-! ## Words -/

/-- `idio_hash_default_hash_C_uintmax_t`. -/
def hashUintmax (i : BitVec 64) : BitVec 64 :=
  let hv := ((i >>> 16) ^^^ i) * 0x45d9f3b
  let hv := ((hv >>> 16) ^^^ hv) * 0x45d9f3b
  (hv >>> 16) ^^^ hv

/-- `ul ^ (ul >> 5)`. -/
def foldPointer (p : Addr) : BitVec 64 := p ^^^ (p >>> 5)

/-- `idio_hash_default_hash_C_void`. -/
def hashVoid (p : Addr) : BitVec 64 := hashUintmax (foldPointer p)

theorem hashUintmax_injective : Function.Injective hashUintmax := by
  have hshift : Function.Injective (@xorShift 64 16) := xorShift_injective (by decide)
  have hmul : Function.Injective fun x : BitVec 64 => x * 0x45d9f3b :=
    @mul_injective 64 0x45d9f3b 0xf9e122f8119de1f3 (by decide)
  exact hshift.comp (hmul.comp (hshift.comp (hmul.comp hshift)))

/-! ## Strings -/

/-- `idio_unicode_valid_code_point`, of a code point that is not negative. -/
def unicodeValid (c : Nat) : Bool := decide (c ≤ 0x10FFFF)

/-- The bytes of a code point in UTF-8. -/
def utf8Bytes (c : Nat) : List (BitVec 8) :=
  let byte (mark bits : Nat) : BitVec 8 := BitVec.ofNat 8 (mark ||| bits)
  if c ≥ 0x10000 then
    [byte 0xf0 ((c &&& (0x07 <<< 18)) >>> 18), byte 0x80 ((c &&& (0x3f <<< 12)) >>> 12),
      byte 0x80 ((c &&& (0x3f <<< 6)) >>> 6), byte 0x80 (c &&& 0x3f)]
  else if c ≥ 0x0800 then
    [byte 0xe0 ((c &&& (0x0f <<< 12)) >>> 12), byte 0x80 ((c &&& (0x3f <<< 6)) >>> 6),
      byte 0x80 (c &&& 0x3f)]
  else if c ≥ 0x0080 then [byte 0xc0 ((c &&& (0x1f <<< 6)) >>> 6), byte 0x80 (c &&& 0x3f)]
  else [byte 0 (c &&& 0x7f)]

/-- `U+%04X is invalid`. -/
def invalidCodePoint (c : Nat) : String :=
  let digits := (Nat.toDigits 16 c).map Char.toUpper
  "U+" ++ String.ofList (List.replicate (4 - digits.length) '0' ++ digits) ++ " is invalid"

/-- `is_octet || is_pathname`: the code points are bytes. -/
def StringFlags.isBytes : StringFlags → Bool
  | .octet | .pathname | .fdPathname | .fifoPathname => true
  | .oneByte | .twoByte | .fourByte => false

/-- `idio_string_as_C`. -/
def stringAsC (s : IdioString) : Result (List (BitVec 8)) :=
  if s.flags.isBytes then .ok (s.chars.map (BitVec.ofNat 8))
  else
    match s.chars.find? fun c => !unicodeValid c with
    | some c => .error (.paramValue "idio_utf8_string" "Unicode code point" (invalidCodePoint c))
    | none => .ok (s.chars.flatMap utf8Bytes)

/-- `idio_hash_default_hash_C_string_C_MurmurOAAT_32`: a `char` is signed, and the
string ends at its first zero byte. -/
def murmurOAAT32 (s : List (BitVec 8)) : BitVec 32 :=
  (s.takeWhile fun c => decide (c ≠ 0)).foldl
    (fun hv c =>
      let hv := (hv ^^^ c.signExtend 32) * 0x5bd1e995
      hv ^^^ (hv >>> 15))
    0x12345678

/-! ## Floating point -/

/-- The conversion of an IEEE 754 number to `uintmax_t`, which drops the fraction; it
is undefined when the integer is out of range. -/
def realToUintmax (expBits manBits bits : Nat) : Result (BitVec 64) :=
  let mantissa := bits % 2 ^ manBits
  let exponent := bits / 2 ^ manBits % 2 ^ expBits
  let negative := decide (bits / 2 ^ (manBits + expBits) = 1)
  let sig := if exponent = 0 then mantissa else mantissa + 2 ^ manBits
  let place := max exponent 1
  let unit := 2 ^ (expBits - 1) - 1 + manBits
  let t := if place ≥ unit then sig * 2 ^ (place - unit) else sig / 2 ^ (unit - place)
  if (negative && decide (t ≠ 0)) || decide (t ≥ 2 ^ 64) then .error .undefined
  else .ok (BitVec.ofNat 64 t)

/-! ## The default hash function -/

/-- The loops that combine the hash values of components. -/
def hashAll (hash : Value → Result (BitVec 64)) : List Value → BitVec 64 → Result (BitVec 64)
  | [], hv => .ok hv
  | v :: vs, hv => do
      let x ← hash v
      hashAll hash vs (hv ^^^ x)

/-- The cases of `idio_hash_default_hash_C` on the object at `a`, given the hash
function for its components. -/
def objectHash (hash : Value → Result (BitVec 64)) (deep : Bool) (a : Addr) :
    Object → Result (BitVec 64)
  | .string s => (stringAsC s).map fun sk => (murmurOAAT32 sk).setWidth 64
  | .substring parent offset len _ =>
      (stringAsC (parent.part offset len)).map fun sk => (murmurOAAT32 sk).setWidth 64
  | .symbol s => .ok (hashVoid s)
  | .keyword s => .ok (hashVoid s)
  | .pair h t => if deep then hashAll hash [h, t] 0 else .ok (hashUintmax a)
  | .array u ae => if deep then hashAll hash ae 0 else .ok (hashVoid u)
  | .hash u h => if deep then hashAll hash (entryParts h.entries) 0 else .ok (hashVoid u)
  | .closure u => .ok (hashVoid u)
  | .primitive f => .ok (hashVoid f)
  | .bignum _ sig => .ok (hashVoid sig)
  | .module name => .ok (hashVoid name)
  | .frame => .error (.hashError "unexpected type = 18==FRAME\n")
  | .handle _ stream => .ok (hashVoid stream)
  | .structType _ _ _ _ fieldsAddr => .ok (hashVoid fieldsAddr)
  | .structInstance _ _ fieldsAddr => .ok (hashVoid fieldsAddr)
  | .thread _ => .error (.hashError "unexpected type = 22==THREAD\n")
  | .continuation _ stack => .ok (hashVoid stack)
  | .bitset _ _ wordsAddr => .ok (hashVoid wordsAddr)
  | .cInt _ v => .ok (hashUintmax (BitVec.ofInt 64 v))
  | .cFloat bits => (realToUintmax 8 23 bits.toNat).map hashUintmax
  | .cDouble bits => (realToUintmax 11 52 bits.toNat).map hashUintmax
  | .cLongdouble converted => .ok (hashUintmax converted)
  | .cPointer p => .ok (hashVoid p)

/-- `idio_hash_default_hash_C` for a table with this mask, whose comparator looks at
components if `deep`. -/
def defaultHashC (H : Heap) (deep : Bool) (mask : BitVec 64) :
    Nat → Value → Result (BitVec 64)
  | 0, _ => .error .diverges
  | fuel + 1, k =>
      match k with
      | .fixnum _ | .constant _ => .ok (hashUintmax k.word &&& mask)
      | .pointer a => (objectHash (defaultHashC H deep mask fuel) deep a (H a)).map (· &&& mask)

/-! ## Fuel -/

theorem hashAll_congr {f g : Value → Result (BitVec 64)} {vs : List Value}
    (h : ∀ v ∈ vs, f v = g v) (hv : BitVec 64) : hashAll f vs hv = hashAll g vs hv := by
  induction vs generalizing hv with
  | nil => rfl
  | cons v vs ih =>
    rw [hashAll, hashAll, h v List.mem_cons_self]
    cases g v with
    | error e => rfl
    | ok x => exact ih (fun w hw => h w (List.mem_cons_of_mem v hw)) _

theorem entryParts_entries_subset {h : HashObject} {v : Value} (hv : v ∈ entryParts h.entries) :
    v ∈ entryParts h.table.ha.flatten := by
  obtain ⟨e, he, hve⟩ := mem_entryParts.mp hv
  exact mem_entryParts.mpr ⟨e, List.mem_of_mem_filter he, hve⟩

/-- The hash of an object depends on the hashes of its components only. -/
theorem objectHash_congr {f g : Value → Result (BitVec 64)} {o : Object}
    (h : ∀ v ∈ o.components, f v = g v) (deep : Bool) (a : Addr) :
    objectHash f deep a o = objectHash g deep a o := by
  cases o with
  | pair x y => simp only [objectHash, @hashAll_congr f g [x, y] h]
  | array u ae => simp only [objectHash, @hashAll_congr f g ae h]
  | hash u t =>
    simp only [objectHash,
      @hashAll_congr f g (entryParts t.entries) fun v hv => h v (entryParts_entries_subset hv)]
  | _ => rfl

/-- More fuel than the data is deep makes no difference. -/
theorem defaultHashC_stable (A : AcyclicHeap) (deep : Bool) (mask : BitVec 64) {n : Nat}
    {k : Value} (hk : A.depth k < n) :
    defaultHashC A.heap deep mask (n + 1) k = defaultHashC A.heap deep mask n k := by
  induction n generalizing k with
  | zero => omega
  | succ n ih =>
    cases k with
    | fixnum v => rfl
    | constant w => rfl
    | pointer a =>
      have hcomp : ∀ v ∈ (A.heap a).components,
          defaultHashC A.heap deep mask (n + 1) v = defaultHashC A.heap deep mask n v :=
        fun v hv => ih (A.depth_lt hk hv)
      rw [defaultHashC, defaultHashC, objectHash_congr hcomp]

end Idio
