/-
  String/Store.lean --- strings, substrings and the operations on them.

  A string has an allocation of its own; a substring points into that of its parent,
  which is never a substring itself.  The operations read and write the units of an
  allocation through a pointer of the width that the flags of the string call for.

  The values of the language that index a string are integers here; what the program
  does to get at one is no concern of these functions.
-/
import Idio.String.Decode
import Idio.Value.Equal

set_option autoImplicit false

namespace Idio

/-- What `idio_unicode_valid_code_point` admits. -/
abbrev CodePoint : Type := Fin 0x110000

instance CodePoint.neZero : NeZero 0x110000 := ⟨by decide⟩

/-- What a value of one of the two string types points at.  `s` is `IDIO_SUBSTRING_S`, in
bytes from the `IDIO_STRING_S` of the parent. -/
inductive StringObject where
  | string (so : StringS)
  | substring (s parent len : Nat)
  deriving DecidableEq, Repr

/-- All strings and substrings there are; a value is a position in the list. -/
abbrev Strings : Type := List StringObject

/-! ## Access -/

/-- What an operation looks at: `s8`, `s16` or `s32`, in bytes from the storage of the
string `owner`, with the flags that say which of the three, and `slen`. -/
structure Span where
  owner : Nat
  s : Nat
  len : Nat
  flags : StringFlags
  deriving DecidableEq, Repr

def Strings.span (st : Strings) (v : Nat) : Result Span :=
  match st[v]? with
  | some (.string so) => .ok ⟨v, 0, so.len, so.flags⟩
  | some (.substring s parent len) =>
      match st[parent]? with
      | some (.string so) => .ok ⟨parent, s, len, so.flags⟩
      | _ => .error .undefined
  | none => .error .undefined

/-- `s8[i]`, `s16[i]` or `s32[i]`. -/
def Strings.readUnit (st : Strings) (sp : Span) (i : Nat) : Result Nat :=
  match st[sp.owner]? with
  | some (.string so) =>
      if sp.s % sp.flags.width ≠ 0 then .error .undefined
      else
        match so.s[sp.s / sp.flags.width + i]? with
        | some u => .ok u
        | none => .error .undefined
  | _ => .error .undefined

/-- `s8[i] = cp`, `s16[i] = cp` or `s32[i] = cp`. -/
def Strings.writeUnit (st : Strings) (sp : Span) (i cp : Nat) : Result Strings :=
  match st[sp.owner]? with
  | some (.string so) =>
      if sp.s % sp.flags.width ≠ 0 then .error .undefined
      else do
        let s ← putUnit sp.flags so.s (sp.s / sp.flags.width + i) cp
        .ok (st.set sp.owner (.string { so with s := s }))
  | _ => .error .undefined

/-- The new object and its value. -/
def Strings.add (st : Strings) (o : StringObject) : Nat × Strings := (st.length, st ++ [o])

/-! ## Construction -/

/-- The second pass of the functions that build a string: `reqd_bytes` and a NUL are
allocated and the code points are written. -/
def buildString (flags : StringFlags) (reqdBytes : Nat) (cps : List Nat) : Result StringS := do
  let s ← putUnits flags (gcAlloc flags (reqdBytes + 1)) 0 cps
  .ok ⟨reqdBytes, cps.length, flags, terminate flags s reqdBytes⟩

/-- `make-string`. -/
def Strings.makeString (st : Strings) (size : Int) (fill : Option CodePoint) :
    Result (Nat × Strings) :=
  if size < 0 then .error (.stringError "string size: invalid")
  else do
    let fillc : Nat := (fill.getD 0x20 : CodePoint)
    let flags : StringFlags :=
      if fillc > 0xffff then .fourByte else if fillc > 0xff then .twoByte else .oneByte
    let so ← buildString flags (size.toNat * flags.width) (List.replicate size.toNat fillc)
    .ok (st.add (.string so))

/-- An element of a list: a code point, or what is none. -/
inductive ListElement where
  | unicode (codepoint : CodePoint)
  | other
  deriving DecidableEq, Repr

/-- The first pass of `idio_list_list2string`: `flags` and `cp_count`, which goes up twice
for an element. -/
def listSizing (flags : StringFlags) (cpCount : Nat) : List ListElement → Result (StringFlags × Nat)
  | [] => .ok (flags, cpCount)
  | .unicode codepoint :: l => listSizing (flags.widen codepoint) (cpCount + 1 + 1) l
  | .other :: _ => .error (.paramType "unicode")

/-- The code point of an element, `IDIO_UNICODE_VAL`. -/
def ListElement.val : ListElement → Nat
  | .unicode codepoint => codepoint
  | .other => 0

/-- `idio_list_list2string`. -/
def Strings.list2string (st : Strings) (l : List ListElement) : Result (Nat × Strings) := do
  let (flags, cpCount) ← listSizing .oneByte 0 l
  let so ← buildString flags (cpCount * flags.width) (l.map ListElement.val)
  .ok (st.add (.string so))

/-- The loop of `string->list`, from the last code point to the first. -/
def Strings.string2listLoop (st : Strings) (sp : Span) : Nat → List Nat → Result (List Nat)
  | 0, r => .ok r
  | si + 1, r => do st.string2listLoop sp si ((← st.readUnit sp si) :: r)

/-- `string->list`. -/
def Strings.string2list (st : Strings) (s : Nat) : Result (List Nat) := do
  let sp ← st.span s
  st.string2listLoop sp sp.len []

/-- `idio_substring_offset_len`. -/
def Strings.substringOffsetLen (st : Strings) (str offset len : Nat) : Result (Nat × Strings) :=
  match st[str]? with
  | some (.string so) =>
      if offset > so.len then .error (.stringError "substring length: starts beyond parent string")
      else if so.len < offset + len then
        .error (.stringError "substring length: extends beyond parent string")
      else .ok (st.add (.substring (offset * so.flags.width) str len))
  | some (.substring s parent _) =>
      match st[parent]? with
      | some (.string so) =>
          if offset > so.len then
            .error (.stringError "substring length: starts beyond parent string")
          else if so.len < s / so.flags.width + offset + len then
            .error (.stringError "substring length: extends beyond parent substring")
          else .ok (st.add (.substring (s + offset * so.flags.width) parent len))
      | _ => .error .undefined
  | none => .error .undefined

/-- `memcpy` of `blen` bytes to an allocation of `blen + 1`. -/
def copyUnits (so : StringS) : Result (List Nat) :=
  if so.blen / so.flags.width ≤ so.s.length then
    .ok (so.s.take (so.blen / so.flags.width) ++
      (gcAlloc so.flags (so.blen + 1)).drop (so.blen / so.flags.width))
  else .error .undefined

/-- `idio_copy_string`. -/
def Strings.copyString (st : Strings) (string : Nat) : Result (Nat × Strings) :=
  match st[string]? with
  | some (.string so) => do
      let s ← copyUnits so
      .ok (st.add (.string { so with s := terminate so.flags s so.blen }))
  | some (.substring s parent len) =>
      match st[parent]? with
      | some (.string so) => st.substringOffsetLen parent (s / so.flags.width) len
      | _ => .error .undefined
  | none => .error .undefined

/-! ## `append-string` -/

/-- `r_flags` once an argument has been taken into account. -/
def joinFlags (rFlags strFlags : StringFlags) : Result StringFlags :=
  match strFlags with
  | .oneByte => .ok rFlags
  | .twoByte => .ok (if rFlags = .oneByte then .twoByte else rFlags)
  | .fourByte => .ok (if rFlags = .oneByte ∨ rFlags = .twoByte then .fourByte else rFlags)
  | .octet => .ok .octet
  | .pathname => .ok (if rFlags ≠ .octet then .pathname else rFlags)
  | .fdPathname => .error (.paramValue "append-string" "string" "illegal use of FD pathname")
  | .fifoPathname => .error (.paramValue "append-string" "string" "illegal use of FIFO pathname")

/-- The first pass: `r_flags` and `cp_count`. -/
def Strings.appendSizing (st : Strings) (rFlags : StringFlags) (cpCount : Nat) :
    List Nat → Result (StringFlags × Nat)
  | [] => .ok (rFlags, cpCount)
  | str :: args => do
      let sp ← st.span str
      st.appendSizing (← joinFlags rFlags sp.flags) (cpCount + sp.len) args

/-- Whether units of `strFlags` go into units of `rFlags`. -/
def StringFlags.takes (rFlags strFlags : StringFlags) : Bool :=
  match rFlags, strFlags with
  | .oneByte, .oneByte => true
  | .twoByte, .oneByte | .twoByte, .twoByte => true
  | .fourByte, .oneByte | .fourByte, .twoByte | .fourByte, .fourByte => true
  | _, _ => false

/-- The loop over the code points of an argument, `n` of them left. -/
def Strings.appendUnits (st : Strings) (rFlags : StringFlags) (sp : Span) :
    Nat → List Nat → Nat → Result (List Nat × Nat)
  | 0, s, ri => .ok (s, ri)
  | n + 1, s, ri =>
      if rFlags.takes sp.flags then do
        let u ← st.readUnit sp (sp.len - (n + 1))
        st.appendUnits rFlags sp n (← putUnit rFlags s ri u) (ri + 1)
      else .error (.paramValue "append-string" "string" "unexpected string width")

/-- The loop over the arguments. -/
def Strings.appendStrings (st : Strings) (rFlags : StringFlags) :
    List Nat → List Nat → Nat → Result (List Nat × Nat)
  | [], s, ri => .ok (s, ri)
  | str :: args, s, ri => do
      let sp ← st.span str
      let (s, ri) ← st.appendUnits rFlags sp sp.len s ri
      st.appendStrings rFlags args s ri

/-- `append-string`.  `degrade` is the string of arguments among which there is a pathname
or an octet string. -/
def Strings.appendString (degrade : Strings → StringFlags → List Nat → Result StringS)
    (st : Strings) (args : List Nat) : Result (Nat × Strings) := do
  if args = [] then
    .ok (st.add (.string (← stringCLen [])))
  else
    let (rFlags, cpCount) ← st.appendSizing .oneByte 0 args
    if rFlags.isUnicode then
      let reqdBytes := cpCount * rFlags.width
      let (s, ri) ← st.appendStrings rFlags args (gcAlloc rFlags (reqdBytes + 1)) 0
      .ok (st.add (.string ⟨reqdBytes, ri, rFlags, terminate rFlags s reqdBytes⟩))
    else
      .ok (st.add (.string (← degrade st rFlags args)))

/-! ## Positions -/

/-- A negative index is one from the end, if it is one within the length. -/
def fromEnd (i : Int) (slen : Nat) : Int :=
  if i < 0 then if i + slen < 0 then i else i + slen else i

/-- `idio_string_ref_C`. -/
def Strings.stringRefC (st : Strings) (s : Nat) (i : Int) : Result Nat := do
  let sp ← st.span s
  let i := fromEnd i sp.len
  if i < 0 ∨ i ≥ sp.len then .error (.stringError "string length: out of bounds")
  else st.readUnit sp i.toNat

/-- `idio_string_set`. -/
def Strings.stringSet (st : Strings) (s : Nat) (index : Int) (uc : CodePoint) : Result Strings := do
  let cwidth : Nat := if uc ≤ 0xff then 1 else if uc ≤ 0xffff then 2 else 4
  let sp ← st.span s
  if cwidth > sp.flags.width then .error (.stringError "string width: replacement char too wide")
  else
    let i := fromEnd index sp.len
    if i < 0 ∨ i ≥ sp.len then .error (.stringError "string length: out of bounds")
    else st.writeUnit sp i.toNat uc

/-- `substring`. -/
def Strings.substring (st : Strings) (s : Nat) (p0 : Int) (pn : Option Int) :
    Result (Nat × Strings) := do
  let sp ← st.span s
  let l : Int := sp.len
  let ip0 := if p0 < 0 then p0 + l else p0
  let ipn := match pn with
    | some pn => if pn < 0 then pn + l else pn
    | none => l
  if ip0 < 0 ∨ ip0 > l ∨ ipn < 0 ∨ ipn > l ∨ ipn < ip0 then
    .error (.stringError "substring index: out of bounds")
  else if ipn - ip0 ≠ 0 then st.substringOffsetLen s ip0.toNat (ipn - ip0).toNat
  else .ok (st.add (.string (← stringCLen [])))

/-- The loop of `idio_string_index`, `n` code points left. -/
def Strings.stringIndexLoop (st : Strings) (s : Nat) (c : CodePoint) (fromTheEnd : Bool)
    (slen : Nat) : Nat → Result (Option Nat)
  | 0 => .ok none
  | n + 1 => do
      let i := slen - (n + 1)
      let index := if fromTheEnd then slen - 1 - i else i
      let sc ← st.stringRefC s index
      if sc = c then .ok (some index) else st.stringIndexLoop s c fromTheEnd slen n

/-- `idio_string_index`: `string-index`, or `string-rindex`. -/
def Strings.stringIndex (st : Strings) (s : Nat) (c : CodePoint) (fromTheEnd : Bool) :
    Result (Option Nat) := do
  let sp ← st.span s
  st.stringIndexLoop s c fromTheEnd sp.len sp.len

/-! ## `equal?` -/

/-- The loop of `idio_string_equal`, `n` code points left. -/
def Strings.stringEqualLoop (st : Strings) (sp1 sp2 : Span) : Nat → Result Bool
  | 0 => .ok true
  | n + 1 => do
      let cp1 ← st.readUnit sp1 (sp1.len - (n + 1))
      let cp2 ← st.readUnit sp2 (sp1.len - (n + 1))
      if cp1 ≠ cp2 then .ok false else st.stringEqualLoop sp1 sp2 n

/-- `idio_string_equal`. -/
def Strings.stringEqual (st : Strings) (s1 s2 : Nat) : Result Bool := do
  let sp1 ← st.span s1
  let sp2 ← st.span s2
  if sp1.len ≠ sp2.len then .ok false else st.stringEqualLoop sp1 sp2 sp1.len

/-- `idio_equal` on two values of the string types, as `equal?` calls it. -/
def Strings.equal (st : Strings) (o1 o2 : Nat) : Result Bool :=
  match st[o1]?, st[o2]? with
  | some s1, some s2 =>
      if o1 = o2 then .ok true
      else
        match s1, s2 with
        | .string so1, .string so2 =>
            if so1.len ≠ so2.len then .ok false
            else if !so1.flags.sameKind so2.flags then .ok false
            else st.stringEqual o1 o2
        | .string so1, .substring _ _ len2 =>
            if so1.len ≠ len2 then .ok false else st.stringEqual o1 o2
        | .substring _ _ len1, .string so2 =>
            if len1 ≠ so2.len then .ok false else st.stringEqual o1 o2
        | .substring _ _ len1, .substring _ _ len2 =>
            if len1 ≠ len2 then .ok false else st.stringEqual o1 o2
  | _, _ => .error .undefined

end Idio
