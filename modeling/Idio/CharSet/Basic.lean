/-
  CharSet/Basic.lean --- SRFI 14 character sets.

  A character set has an array of 17 planes, each a bitset or `#f`.  Bitsets and
  character sets are places in a store: two planes, of one character set or of two,
  may be the same bitset.
-/
import Idio.Bitset.Algebra
import Idio.String.Store

set_option autoImplicit false

namespace Idio.CharSet

/-- `IDIO_UNICODE_PLANE_COUNT`. -/
def unicodePlaneCount : Nat := 17

/-- `IDIO_UNICODE_PLANE_SIZE`. -/
def unicodePlaneSize : Nat := 0x10000

/-- `IDIO_UNICODE_SIZE`. -/
def unicodeSize : Nat := unicodePlaneCount * unicodePlaneSize

/-- A code point as an argument. -/
inductive Cp where
  | unicode (c : CodePoint)
  | integer (i : Int)
  deriving DecidableEq, Repr

/-- `sparse-char-set`; a plane is the place of its bitset, or `none` for `#f`. -/
structure SparseCharSet where
  size : Nat
  planes : List (Option Nat)
  deriving DecidableEq, Repr

/-- The bitsets and the character sets there are, and the values of `char-set:empty` and
`char-set:full`. -/
structure Store where
  bitsets : List Bitset
  charSets : List SparseCharSet
  empty : Nat
  full : Nat

/-! ## Access -/

def Store.bitset (st : Store) (x : Nat) : Result Bitset :=
  match st.bitsets[x]? with
  | some bs => .ok bs
  | none => .error .undefined

def Store.charSet (st : Store) (a : Nat) : Result SparseCharSet :=
  match st.charSets[a]? with
  | some cs => .ok cs
  | none => .error .undefined

def arrayBoundsError {α : Type} : Result α := .error (.arrayError "array bounds error")

/-- `array-ref (sparse-char-set-planes cs) i`. -/
def Store.planeRef (st : Store) (a i : Nat) : Result (Option Nat) := do
  match (← st.charSet a).planes[i]? with
  | some p => .ok p
  | none => arrayBoundsError

/-- `array-set! (sparse-char-set-planes cs) i p`. -/
def Store.planeSet (st : Store) (a i : Nat) (p : Option Nat) : Result Store := do
  let cs ← st.charSet a
  if i < cs.planes.length then
    .ok { st with charSets := st.charSets.set a { cs with planes := cs.planes.set i p } }
  else arrayBoundsError

/-- A new bitset. -/
def Store.addBitset (st : Store) (bs : Bitset) : Option Nat × Store :=
  (some st.bitsets.length, { st with bitsets := st.bitsets ++ [bs] })

/-- `bs` is the value of the bitset at `x` from now on. -/
def Store.writeBitset (st : Store) (x : Nat) (bs : Bitset) : Store :=
  { st with bitsets := st.bitsets.set x bs }

/-- `make-sparse-char-set size`. -/
def Store.makeSparseCharSet (st : Store) (size : Nat) : Nat × Store :=
  (st.charSets.length,
    { st with charSets := st.charSets ++ [⟨size, List.replicate unicodePlaneCount none⟩] })

/-! ## Single code points -/

/-- `integer->unicode`. -/
def integerToUnicode (i : Int) : Result CodePoint :=
  if h : 0 ≤ i ∧ i < 0x110000 then .ok ⟨i.toNat, by omega⟩
  else .error (.paramValue "integer->unicode" "code point"
    (if i < 0 then "cannot be negative" else "is invalid"))

/-- `bit`: an `intptr_t` is made a `size_t`. -/
def Cp.bit : Cp → Nat
  | .unicode c => c
  | .integer i => (i % 2 ^ 64).toNat

/-- `char-set-ref`, and `char-set-contains?`. -/
def Store.charSetRef (st : Store) (a : Nat) (cp : Cp) : Result Bool := do
  let cs ← st.charSet a
  if cp.bit ≥ cs.size then
    .error (.paramValue "char-set-ref" "cp" "cp greater than char-set size")
  else
    match ← st.planeRef a (cp.bit / unicodePlaneSize) with
    | some x => (← st.bitset x).ref (cp.bit % unicodePlaneSize)
    | none => .ok false

/-- The size of the bitset that `char-set-set!` makes for a plane. -/
def newPlaneSize (csSize plane : Nat) : Nat :=
  let nplanes := (csSize - 1) / unicodePlaneSize
  if plane < nplanes then unicodePlaneSize
  else
    let m := csSize % unicodePlaneSize
    if m ≠ 0 then m else unicodePlaneSize

/-- `char-set-set!`. -/
def Store.charSetSet (st : Store) (a : Nat) (cp : Cp) : Result Store := do
  let cs ← st.charSet a
  if cp.bit ≥ cs.size then
    .error (.paramValue "char-set-set" "cp" "cp greater than char-set size")
  else do
    let plane := cp.bit / unicodePlaneSize
    match ← st.planeRef a plane with
    | some x => do
        let bs ← (← st.bitset x).set (cp.bit % unicodePlaneSize)
        .ok (st.writeBitset x bs)
    | none => do
        let bs ← (Bitset.make (newPlaneSize cs.size plane)).set (cp.bit % unicodePlaneSize)
        let new := st.addBitset bs
        new.2.planeSet a plane new.1

/-- The argument of `char-set-clear!` once an integer is made a code point. -/
def Cp.toUnicode : Cp → Result CodePoint
  | .unicode c => .ok c
  | .integer i => integerToUnicode i

/-- `char-set-clear!`. -/
def Store.charSetClear (st : Store) (a : Nat) (cp : Cp) : Result Store := do
  let cp ← cp.toUnicode
  let cs ← st.charSet a
  if (cp : Nat) ≥ cs.size then
    .error (.paramValue "char-set-clear!" "cp" "cp greater than char-set size")
  else
    match ← st.planeRef a (cp / unicodePlaneSize) with
    | some x => do
        let bs ← (← st.bitset x).clear (cp % unicodePlaneSize)
        .ok (st.writeBitset x bs)
    | none => .ok st

/-! ## Loops over the planes -/

/-- `count-sparse-char-set-planes`. -/
def Store.countPlanes (st : Store) (a : Nat) : Result Nat := do
  let c ← integerToUnicode (((← st.charSet a).size : Int) - 1)
  .ok (c / unicodePlaneSize)

/-- `do ((i 0 (i + 1))) ((i gt nplanes) res) …`, where the value of the body is what
plane `i` of `res` is set to. -/
def Store.planesLoop (res nplanes : Nat) (body : Nat → Store → Result (Option Nat × Store))
    (st : Store) : Result Store :=
  (List.range (nplanes + 1)).foldlM (fun st i => do
    let p ← body i st
    p.2.planeSet res i p.1) st

/-- The plane of `copy-char-set`. -/
def Store.copyPlane (cs new i : Nat) (st : Store) : Result (Option Nat × Store) := do
  match ← st.planeRef cs i with
  | some x => do
      let bs ← (← st.bitset x).copy
      .ok (st.addBitset bs)
  | none => do
      -- no `array-set!`: the plane stays what it is
      let p ← st.planeRef new i
      .ok (p, st)

/-- `copy-char-set`. -/
def Store.copyCharSet (st : Store) (cs : Nat) : Result (Nat × Store) := do
  let new := st.makeSparseCharSet (← st.charSet cs).size
  let nplanes ← st.countPlanes cs
  let st ← new.2.planesLoop new.1 nplanes (Store.copyPlane cs new.1)
  .ok (new.1, st)

/-- `and-bitset`, `ior-bitset`, `xor-bitset` or `subtract-bitset` on two bitsets. -/
def Store.bitsetOp (op : List Bitset → Result (Option Bitset)) (st : Store) (x y : Nat) :
    Result (Option Nat × Store) := do
  let bs1 ← st.bitset x
  let bs2 ← st.bitset y
  match ← op [bs1, bs2] with
  | some bs => .ok (st.addBitset bs)
  | none => .ok (none, st)

/-- The plane of `and-char-set`. -/
def andPlane (bs1 bs2 : Option Nat) (st : Store) : Result (Option Nat × Store) :=
  match bs1, bs2 with
  | none, _ => .ok (none, st)
  | some _, none => .ok (none, st)
  | some x, some y => st.bitsetOp Bitset.andBitset x y

/-- The plane of `ior-char-set`, `xor-char-set` and `subtract-char-set`: where one of the
two is `#f` it is the other, and not a copy of it. -/
def otherPlane (op : List Bitset → Result (Option Bitset)) (bs1 bs2 : Option Nat) (st : Store) :
    Result (Option Nat × Store) :=
  match bs1, bs2 with
  | none, bs2 => .ok (bs2, st)
  | some x, none => .ok (some x, st)
  | some x, some y => st.bitsetOp op x y

def iorPlane : Option Nat → Option Nat → Store → Result (Option Nat × Store) :=
  otherPlane Bitset.iorBitset

def xorPlane : Option Nat → Option Nat → Store → Result (Option Nat × Store) :=
  otherPlane Bitset.xorBitset

def subtractPlane : Option Nat → Option Nat → Store → Result (Option Nat × Store) :=
  otherPlane Bitset.subtractBitset

/-- The step at plane `i` of `loop css res`. -/
def Store.combinePlane (plane : Option Nat → Option Nat → Store → Result (Option Nat × Store))
    (res cs i : Nat) (st : Store) : Result (Option Nat × Store) := do
  let bs1 ← st.planeRef res i
  let bs2 ← st.planeRef cs i
  plane bs1 bs2 st

/-- `loop css res`. -/
def Store.combineLoop (plane : Option Nat → Option Nat → Store → Result (Option Nat × Store))
    (res : Nat) : List Nat → Store → Result Store
  | [], st => .ok st
  | cs :: css, st => do
      let nplanes ← st.countPlanes res
      let st ← st.planesLoop res nplanes (Store.combinePlane plane res cs)
      combineLoop plane res css st

/-- `and-char-set`, `ior-char-set` and `xor-char-set`, with what is copied when there are
no arguments. -/
def Store.combine (plane : Option Nat → Option Nat → Store → Result (Option Nat × Store))
    (default : Nat) (css : List Nat) (st : Store) : Result (Nat × Store) :=
  match css with
  | [] => st.copyCharSet default
  | cs :: css => do
      let new ← st.copyCharSet cs
      let st ← new.2.combineLoop plane new.1 css
      .ok (new.1, st)

/-- `and-char-set`. -/
def Store.andCharSet (st : Store) (css : List Nat) : Result (Nat × Store) :=
  st.combine andPlane st.empty css

/-- `ior-char-set`, `merge-char-set` and `union-char-set`. -/
def Store.iorCharSet (st : Store) (css : List Nat) : Result (Nat × Store) :=
  st.combine iorPlane st.full css

/-- `xor-char-set`. -/
def Store.xorCharSet (st : Store) (css : List Nat) : Result (Nat × Store) :=
  st.combine xorPlane st.empty css

/-- `subtract-char-set`. -/
def Store.subtractCharSet (st : Store) (cs : Nat) (css : List Nat) : Result (Nat × Store) := do
  let new ← st.copyCharSet cs
  let st ← new.2.combineLoop subtractPlane new.1 css
  .ok (new.1, st)

/-- The plane of `not-char-set`, for a character set of size `size`. -/
def Store.notPlane (cs size i : Nat) (st : Store) : Result (Option Nat × Store) := do
  match ← st.planeRef cs i with
  | some x => do
      let bs ← (← st.bitset x).notBitset
      .ok (st.addBitset bs)
  | none => do
      let m := size % unicodePlaneSize
      let bs ← (Bitset.make (if m > 0 then m else unicodePlaneSize)).notBitset
      .ok (st.addBitset bs)

/-- `not-char-set`, `complement-char-set` and `complement-char-set!`, which sets a local
variable to it. -/
def Store.notCharSet (st : Store) (cs : Nat) : Result (Nat × Store) := do
  let size := (← st.charSet cs).size
  let new := st.makeSparseCharSet size
  let nplanes ← st.countPlanes cs
  let st ← new.2.planesLoop new.1 nplanes (Store.notPlane cs size)
  .ok (new.1, st)

/-! ## Several code points -/

/-- The loop of `char-set`. -/
def Store.charSetLoop (a : Nat) : List Cp → Store → Result Store
  | [], st => .ok st
  | cp :: cps, st => do charSetLoop a cps (← st.charSetSet a cp)

/-- `char-set`. -/
def Store.charSetOf (st : Store) (cps : List Cp) : Result (Nat × Store) := do
  let new := st.makeSparseCharSet (← st.charSet st.empty).size
  let st ← new.2.charSetLoop new.1 cps
  .ok (new.1, st)

/-- `string->char-set`; `str` is what its characters are. -/
def Store.stringToCharSet (st : Store) (str : List CodePoint) (base : Option Nat) :
    Result (Nat × Store) := do
  let new ← st.copyCharSet (base.getD st.empty)
  let st ← str.foldlM (fun st c => st.charSetSet new.1 (.unicode c)) new.2
  .ok (new.1, st)

/-- `%ucs-range->char-set`, `fuel` times at most. -/
def Store.ucsRangeLoop (a : Nat) : Nat → Int → Int → Store → Result Store
  | 0, n, e, st => if n > e then .ok st else .error .diverges
  | fuel + 1, n, e, st =>
      if n > e then .ok st
      else do ucsRangeLoop a fuel (n + 1) e (← st.charSetSet a (.integer n))

/-- `ucs-range->char-set`; `gt` is for numbers. -/
def Store.ucsRangeToCharSet (st : Store) (s e : Cp) (base : Option Nat) : Result (Nat × Store) := do
  let new ← st.copyCharSet (base.getD st.empty)
  match s, e with
  | .integer s, .integer e => do
      let st ← new.2.ucsRangeLoop new.1 (e - s + 1).toNat s e
      .ok (new.1, st)
  | _, _ => .error (.paramType "number")

/-- `char-set-adjoin-loop`. -/
def Store.charSetAdjoinLoop (a : Nat) : List Cp → Store → Result Store
  | [], st => .ok st
  | ch :: cps, st => do
      let setter := st.charSetSet a
      let st ← match ch with
        | .integer i => setter (.integer i)
        | .unicode c => setter (.integer (c : Nat))
      charSetAdjoinLoop a cps st

/-- `char-set-adjoin`. -/
def Store.charSetAdjoin (st : Store) (cs : Nat) (cps : List Cp) : Result (Nat × Store) :=
  if cps.isEmpty then .ok (cs, st)
  else do
    let ncs ← st.copyCharSet cs
    let st ← ncs.2.charSetAdjoinLoop ncs.1 cps
    .ok (ncs.1, st)

/-- `char-set-adjoin!`. -/
def Store.charSetAdjoinInPlace (st : Store) (cs : Nat) (cps : List Cp) : Result (Nat × Store) :=
  if cps.isEmpty then .ok (cs, st)
  else do
    let st ← st.charSetAdjoinLoop cs cps
    .ok (cs, st)

/-- `char-set-delete-loop`. -/
def Store.charSetDeleteLoop (a : Nat) : List Cp → Store → Result Store
  | [], st => .ok st
  | ch :: cps, st => do
      -- the source has `char-set-set!` for the clearer
      let clearer := st.charSetSet a
      let st ← match ch with
        | .integer i => clearer (.integer i)
        | .unicode c => clearer (.integer (c : Nat))
      charSetDeleteLoop a cps st

/-- `char-set-delete`. -/
def Store.charSetDelete (st : Store) (cs : Nat) (cps : List Cp) : Result (Nat × Store) :=
  if cps.isEmpty then .ok (cs, st)
  else do
    let ncs ← st.copyCharSet cs
    let st ← ncs.2.charSetDeleteLoop ncs.1 cps
    .ok (ncs.1, st)

/-- `char-set-delete!`. -/
def Store.charSetDeleteInPlace (st : Store) (cs : Nat) (cps : List Cp) : Result (Nat × Store) :=
  if cps.isEmpty then .ok (cs, st)
  else do
    let st ← st.charSetDeleteLoop cs cps
    .ok (cs, st)

/-- `union-char-set!`. -/
def Store.unionInPlace (st : Store) (css : List Nat) : Result (Nat × Store) :=
  if css.isEmpty then st.copyCharSet st.empty else st.iorCharSet css

/-- `intersection-char-set!`. -/
def Store.intersectionInPlace (st : Store) (css : List Nat) : Result (Nat × Store) :=
  if css.isEmpty then st.copyCharSet st.full else st.andCharSet css

/-- `difference-char-set` and `difference-char-set!`, which differ in what becomes of a local
variable. -/
def Store.differenceCharSet (st : Store) (cs : Nat) (css : List Nat) : Result (Nat × Store) :=
  if css.isEmpty then .ok (cs, st) else st.subtractCharSet cs css

/-! ## Folds -/

section Folds

variable {β : Type}

/-- Word `i` of `fold-bitset`. -/
def foldWord (bs : Bitset) (f : Nat → β → Result β) (v : β) (i : Nat) : Result β := do
  let ul ← bs.word i
  if ul ≠ 0 then
    (List.range 32).foldlM (fun v j =>
      if ul.getLsbD j then f (i * bitsetBitsPerWord + j) v else .ok v) v
  else .ok v

/-- `fold-bitset`, and `bitset-for-each-set` with what its function changes for `v`. -/
def foldBitset (bs : Bitset) (f : Nat → β → Result β) (v : β) : Result β :=
  (List.range (Bitset.nUl bs.size)).foldlM (foldWord bs f) v

/-- The bitset of plane `i`, if there is one. -/
def Store.foldPlane (st : Store) (cs : Nat) (f : Nat → β → Result β) (v : β) (i : Nat) : Result β := do
  match ← st.planeRef cs i with
  | some x => foldBitset (← st.bitset x) f v
  | none => .ok v

/-- `char-set-for-each-set`: planes `0` to `nplanes`. -/
def Store.charSetForEachSet (st : Store) (cs : Nat) (f : Nat → β → Result β) (v : β) : Result β := do
  let nplanes ← st.countPlanes cs
  (List.range (nplanes + 1)).foldlM (st.foldPlane cs f) v

/-- `fold-char-set`: the loop ends when `i` is `nplanes`. -/
def Store.foldCharSet (st : Store) (cs : Nat) (f : Nat → β → Result β) (v : β) : Result β := do
  let nplanes ← st.countPlanes cs
  (List.range nplanes).foldlM (st.foldPlane cs f) v

end Folds

/-- `cwidth` of `string-set!`. -/
def cwidth (c : CodePoint) : Nat :=
  if (c : Nat) ≤ 0xff then 1 else if (c : Nat) ≤ 0xffff then 2 else 4

/-- `string-set!` on a string that was made with the fill character `m`. -/
def stringSet (m : CodePoint) (s : List CodePoint) (i : Nat) (c : CodePoint) :
    Result (List CodePoint) :=
  if cwidth c > cwidth m then .error (.stringError "string width: replacement char too wide")
  else if i ≥ s.length then .error (.stringError "string length: out of bounds")
  else .ok (s.set i c)

/-- `char-set->string`. -/
def Store.charSetToString (st : Store) (cs : Nat) : Result (List CodePoint) := do
  let n ← st.foldCharSet cs (fun _ i => .ok (i + 1)) 0
  let m ← st.foldCharSet cs (fun cp max => .ok (if cp > max then cp else max)) 0
  let m ← integerToUnicode m
  let r ← st.charSetForEachSet cs (fun cp r => do
    let c ← integerToUnicode cp
    let s ← stringSet m r.2 r.1 c
    .ok (r.1 + 1, s)) (0, List.replicate n m)
  .ok r.2

end Idio.CharSet
