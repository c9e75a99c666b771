/-
  String/Decode.lean --- strings from the bytes of C strings.

  `idio_string_C_len` and `idio_string_C_array_lens` decode their bytes twice: a first
  pass counts the code points and finds how wide they are, a second writes them to the
  allocation that the first has sized.

  The reference is `Utf8.Falls`: the bytes that cannot be part of a sequence end it, and
  the next one starts after them.  An ill-formed sequence is read so, but a sequence
  that the end of the bytes cuts off gives the code point it would have if it were
  complete, less the bits that are missing.  With several C strings the second pass
  does not return to the initial state after an ill-formed sequence, and takes every
  byte that is left of that C string for one more.
-/
import Mathlib.Data.List.Flatten
import Idio.Lib.Utf8
import Idio.String.Storage

set_option autoImplicit false

namespace Idio

/-! ## The decoder -/

/-- `IDIO_UTF8_ACCEPT`. -/
def utf8Accept : Nat := 0

/-- `IDIO_UTF8_REJECT`. -/
def utf8Reject : Nat := 12

/-- `idio_utf8d`: the classes of the bytes, then the transitions. -/
def utf8d : List Nat := [
  0,0,0,0,0,0,0,0,0,0,0,0,0,0,0,0, 0,0,0,0,0,0,0,0,0,0,0,0,0,0,0,0,
  0,0,0,0,0,0,0,0,0,0,0,0,0,0,0,0, 0,0,0,0,0,0,0,0,0,0,0,0,0,0,0,0,
  0,0,0,0,0,0,0,0,0,0,0,0,0,0,0,0, 0,0,0,0,0,0,0,0,0,0,0,0,0,0,0,0,
  0,0,0,0,0,0,0,0,0,0,0,0,0,0,0,0, 0,0,0,0,0,0,0,0,0,0,0,0,0,0,0,0,
  1,1,1,1,1,1,1,1,1,1,1,1,1,1,1,1, 9,9,9,9,9,9,9,9,9,9,9,9,9,9,9,9,
  7,7,7,7,7,7,7,7,7,7,7,7,7,7,7,7, 7,7,7,7,7,7,7,7,7,7,7,7,7,7,7,7,
  8,8,2,2,2,2,2,2,2,2,2,2,2,2,2,2, 2,2,2,2,2,2,2,2,2,2,2,2,2,2,2,2,
  10,3,3,3,3,3,3,3,3,3,3,3,3,4,3,3, 11,6,6,6,5,8,8,8,8,8,8,8,8,8,8,8,
  0,12,24,36,60,96,84,12,12,12,48,72, 12,12,12,12,12,12,12,12,12,12,12,12,
  12,0,12,12,12,12,12,0,12,0,12,12, 12,24,12,12,12,12,12,24,12,24,12,12,
  12,12,12,12,12,12,12,24,12,12,12,12, 12,24,12,12,12,12,12,12,12,24,12,12,
  12,12,12,12,12,12,12,36,12,36,12,12, 12,36,12,12,12,12,12,36,12,36,12,12,
  12,36,12,12,12,12,12,12,12,12,12,12]

/-- `idio_utf8_decode`: the state and the code point after one byte. -/
def utf8Decode (state codep : Nat) (byte : UInt8) : Nat × Nat :=
  let type := utf8d.getD byte.toNat 0
  let codep :=
    if state ≠ utf8Accept then (byte.toNat &&& 0x3f) ||| (codep <<< 6)
    else (0xff >>> type) &&& byte.toNat
  (utf8d.getD (256 + state + type) 0, codep)

/-- Where the loop over the bytes of one code point stops: `state`, `codepoint` and the
bytes after it. -/
structure Stop where
  state : Nat
  codepoint : Nat
  rest : List UInt8
  deriving DecidableEq, Repr

/-- The loop over the bytes of one code point. -/
def decodeOne (state codepoint : Nat) : List UInt8 → Stop
  | [] => ⟨state, codepoint, []⟩
  | b :: bs =>
      let (state, codepoint) := utf8Decode state codepoint b
      if utf8Accept = state then ⟨state, codepoint, bs⟩
      else if utf8Reject = state then ⟨state, 0xFFFD, bs⟩
      else decodeOne state codepoint bs

theorem decodeOne_rest_le (state codepoint : Nat) (bs : List UInt8) :
    (decodeOne state codepoint bs).rest.length ≤ bs.length := by
  induction bs generalizing state codepoint with
  | nil => exact Nat.le_refl _
  | cons b bs ih =>
    rw [decodeOne]
    dsimp only
    split
    · exact Nat.le_succ _
    split
    · exact Nat.le_succ _
    · exact Nat.le_succ_of_le (ih _ _)

theorem decodeOne_rest_lt (state codepoint : Nat) {bs : List UInt8} (h : bs ≠ []) :
    (decodeOne state codepoint bs).rest.length < bs.length := by
  cases bs with
  | nil => exact absurd rfl h
  | cons b bs =>
    rw [decodeOne]
    dsimp only
    split
    · exact Nat.lt_succ_self _
    split
    · exact Nat.lt_succ_self _
    · exact Nat.lt_succ_of_le (decodeOne_rest_le _ _ _)

/-! ## The first pass -/

/-- The flags, the count and the last code point. -/
structure Sizing where
  flags : StringFlags
  cpCount : Nat
  codepoint : Nat
  deriving DecidableEq, Repr

/-- The loop over the bytes of a C string that sizes. -/
def sizeLoop (z : Sizing) (bs : List UInt8) : Sizing :=
  if h : bs = [] then z
  else
    let stop := decodeOne utf8Accept z.codepoint bs
    sizeLoop ⟨z.flags.widen stop.codepoint, z.cpCount + 1, stop.codepoint⟩ stop.rest
termination_by bs.length
decreasing_by exact decodeOne_rest_lt _ _ h

/-- Before the first pass; `codepoint` is not read before it is written. -/
def Sizing.start : Sizing := ⟨.oneByte, 0, 0⟩

/-! ## The second pass -/

/-- The units, `cp_count` and the last code point. -/
structure Filling where
  s : List Nat
  cpCount : Nat
  codepoint : Nat
  deriving DecidableEq, Repr

/-- The loop over the bytes of a C string that fills; `resets` says that every code point
starts from the initial state. -/
def fillLoop (resets : Bool) (flags : StringFlags) (state : Nat) (f : Filling)
    (bs : List UInt8) : Result Filling :=
  if _h : bs = [] then .ok f
  else
    let stop := decodeOne (if resets then utf8Accept else state) f.codepoint bs
    match putUnit flags f.s f.cpCount stop.codepoint with
    | .error e => .error e
    | .ok s => fillLoop resets flags stop.state ⟨s, f.cpCount + 1, stop.codepoint⟩ stop.rest
termination_by bs.length
decreasing_by exact decodeOne_rest_lt _ _ ‹_›

/-- `idio_string_C_len`. -/
def stringCLen (s_C : List UInt8) : Result StringS :=
  let z := sizeLoop .start s_C
  let reqdBytes := z.cpCount * z.flags.width
  match fillLoop true z.flags utf8Accept ⟨gcAlloc z.flags (reqdBytes + 1), 0, z.codepoint⟩ s_C with
  | .error e => .error e
  | .ok f => .ok ⟨reqdBytes, f.cpCount, z.flags, terminate z.flags f.s reqdBytes⟩

/-- `idio_string_C_array_lens`.  The second pass starts each C string from the initial
state, and goes on to the next code point in the state it is in. -/
def stringCArrayLens (a_C : List (List UInt8)) : Result StringS :=
  let z := a_C.foldl sizeLoop .start
  let reqdBytes := z.cpCount * z.flags.width
  match a_C.foldlM (fillLoop false z.flags utf8Accept)
      ⟨gcAlloc z.flags (reqdBytes + 1), 0, z.codepoint⟩ with
  | .error e => .error e
  | .ok f => .ok ⟨reqdBytes, f.cpCount, z.flags, terminate z.flags f.s reqdBytes⟩

/-! ## The decoder and the reference -/

section Decoder

open Utf8

/-- The state of the table while some bytes are due. -/
def stateOf (d : Due) : Nat :=
  match d.count, d.lo, d.hi with
  | 0, _, _ => utf8Accept
  | 1, _, _ => 24
  | 2, 0xA0, _ => 48
  | 2, _, 0x9F => 60
  | 2, _, _ => 36
  | _, 0x90, _ => 72
  | _, _, 0x8F => 96
  | _, _, _ => 84

/-- The states of the table, with the bytes that are due and the range of the next. -/
def tableStates : List (Nat × Nat × Nat) :=
  [(1, 0x80, 0xBF), (2, 0x80, 0xBF), (2, 0xA0, 0xBF), (2, 0x80, 0x9F),
    (3, 0x80, 0xBF), (3, 0x90, 0xBF), (3, 0x80, 0x8F)]

/-- The class of a byte. -/
def byteClass (b : Nat) : Nat :=
  if b < 0x80 then 0 else if b < 0x90 then 1 else if b < 0xA0 then 9 else if b < 0xC0 then 7
  else if b < 0xC2 then 8 else if b < 0xE0 then 2 else if b = 0xE0 then 10 else if b = 0xED then 4
  else if b < 0xF0 then 3 else if b = 0xF0 then 11 else if b < 0xF4 then 6 else if b = 0xF4 then 5
  else 8

/-- The classes of the bytes of a range. -/
def rangeClasses : Nat × Nat → List Nat
  | (0x80, 0xBF) => [1, 9, 7]
  | (0xA0, 0xBF) => [7]
  | (0x80, 0x9F) => [1, 9]
  | (0x90, 0xBF) => [9, 7]
  | (0x80, 0x8F) => [1]
  | _ => []

/-- A stretch of the table. -/
theorem utf8d_stretch {k n i : Nat} {f : Nat → Nat}
    (h : (utf8d.drop k).take n = (List.range n).map f) (hi : i < n) :
    utf8d.getD (k + i) 0 = f i := by
  have htake : ((utf8d.drop k).take n)[i]? = utf8d[k + i]? := by
    rw [List.getElem?_take_of_lt hi, List.getElem?_drop]
  rw [List.getD_eq_getElem?_getD, ← htake, h, List.getElem?_map, List.getElem?_range hi]
  rfl

theorem utf8d_class {b : Nat} (hb : b < 256) : utf8d.getD b 0 = byteClass b := by
  have htable : (utf8d.drop 0).take 256 = (List.range 256).map byteClass := by decide +kernel
  rw [← Nat.zero_add b, utf8d_stretch htable hb, Nat.zero_add]

theorem byteClass_lt : ∀ b < 256, byteClass b < 12 := by
  decide +kernel

/-- The transition from the initial state. -/
def firstState (type : Nat) : Nat := [0, 12, 24, 36, 60, 96, 84, 12, 12, 12, 48, 72].getD type 0

theorem utf8d_first_class {type : Nat} (h : type < 12) :
    utf8d.getD (256 + utf8Accept + type) 0 = firstState type := by
  have htable : (utf8d.drop (256 + utf8Accept)).take 12 = (List.range 12).map firstState := by
    decide +kernel
  exact utf8d_stretch htable h

theorem utf8d_rows : ∀ t ∈ tableStates,
    (utf8d.drop (256 + stateOf ⟨t.1, t.2.1, t.2.2, 0⟩)).take 12 =
      (List.range 12).map fun type =>
        if type ∈ rangeClasses t.2 then stateOf ⟨t.1 - 1, 0x80, 0xBF, 0⟩ else utf8Reject := by
  decide +kernel

theorem byteClass_mem_rangeClasses : ∀ t ∈ tableStates, ∀ b < 256,
    byteClass b ∈ rangeClasses t.2 ↔ t.2.1 ≤ b ∧ b ≤ t.2.2 := by
  decide +kernel

theorem byteClass_first_none : ∀ b < 256, first b = none →
    firstState (byteClass b) = utf8Reject := by
  decide +kernel

theorem byteClass_first_some : ∀ b < 256, (first b).all fun d =>
    firstState (byteClass b) = stateOf d ∧
      (0xff >>> byteClass b) &&& b = d.code ∧
      (d.count ≠ 0 → (d.count, d.lo, d.hi) ∈ tableStates) := by
  decide +kernel

theorem count_mem_tableStates : ∀ t ∈ tableStates, t.1 ≠ 0 ∧
    (t.1 - 1 ≠ 0 → (t.1 - 1, 0x80, 0xBF) ∈ tableStates) := by
  decide

theorem stateOf_tableStates : ∀ t ∈ tableStates,
    stateOf ⟨t.1, t.2.1, t.2.2, 0⟩ ≠ utf8Accept ∧ stateOf ⟨t.1, t.2.1, t.2.2, 0⟩ ≠ utf8Reject := by
  decide

variable {d d' : Due} {x bs : List UInt8} {b : UInt8}

theorem utf8Decode_first_none (codep : Nat) (h : first b.toNat = none) :
    (utf8Decode utf8Accept codep b).1 = utf8Reject := by
  have hb := b.toNat_lt
  rw [utf8Decode, utf8d_class hb, utf8d_first_class (byteClass_lt _ hb)]
  exact byteClass_first_none _ hb h

theorem utf8Decode_first_some (codep : Nat) (h : first b.toNat = some d) :
    utf8Decode utf8Accept codep b = (stateOf d, d.code) ∧
      (d.count ≠ 0 → (d.count, d.lo, d.hi) ∈ tableStates) := by
  have hb := b.toNat_lt
  have hall := byteClass_first_some _ hb
  rw [h, Option.all_some, decide_eq_true_iff] at hall
  obtain ⟨hstate, hcode, hmem⟩ := hall
  refine ⟨?_, hmem⟩
  rw [utf8Decode, utf8d_class hb, utf8d_first_class (byteClass_lt _ hb), if_neg (not_not.mpr rfl)]
  exact Prod.ext hstate hcode

theorem stateOf_ne (h : (d.count, d.lo, d.hi) ∈ tableStates) :
    stateOf d ≠ utf8Accept ∧ stateOf d ≠ utf8Reject := stateOf_tableStates _ h

theorem stateOf_of_count_zero (h : d.count = 0) : stateOf d = utf8Accept := by
  obtain ⟨count, lo, hi, code⟩ := d
  cases h
  rfl

theorem codep_next (codep n : Nat) : (n &&& 0x3f) ||| (codep <<< 6) = codep * 64 + n % 64 := by
  rw [Nat.and_two_pow_sub_one_eq_mod n 6, Nat.shiftLeft_eq, Nat.lor_comm, Nat.mul_comm codep,
    ← Nat.two_pow_add_eq_or_of_lt (Nat.mod_lt n (by decide))]

theorem utf8Decode_next (h : (d.count, d.lo, d.hi) ∈ tableStates) :
    match d.next b.toNat with
    | none => (utf8Decode (stateOf d) d.code b).1 = utf8Reject
    | some d' => utf8Decode (stateOf d) d.code b = (stateOf d', d'.code) ∧
        (d'.count ≠ 0 → (d'.count, d'.lo, d'.hi) ∈ tableStates) := by
  have hb := b.toNat_lt
  have hstate : utf8d.getD (256 + stateOf d + byteClass b.toNat) 0 = _ :=
    utf8d_stretch (utf8d_rows _ h) (byteClass_lt _ hb)
  obtain ⟨hcount, hmem⟩ := count_mem_tableStates _ h
  obtain ⟨haccept, -⟩ := stateOf_ne h
  have hcode : utf8Decode (stateOf d) d.code b =
      (utf8d.getD (256 + stateOf d + byteClass b.toNat) 0, d.code * 64 + b.toNat % 64) := by
    rw [utf8Decode, utf8d_class hb, if_pos haccept, codep_next]
  rw [hcode, hstate, Due.next]
  have hrange := byteClass_mem_rangeClasses _ h _ hb
  by_cases hclass : byteClass b.toNat ∈ rangeClasses (d.lo, d.hi)
  · rw [if_pos ⟨hcount, hrange.mp hclass⟩, if_pos hclass]
    exact ⟨rfl, hmem⟩
  · rw [if_neg fun h => hclass (hrange.mpr h.2), if_neg hclass]

/-- What the loop over the bytes of one code point makes of bytes: a sequence, or a
beginning with nothing after it. -/
inductive Stops (bs : List UInt8) : Stop → Prop where
  | accept {c : Char} {rest : List UInt8} (h : Starts bs (some c) rest) :
      Stops bs ⟨utf8Accept, c.toNat, rest⟩
  | reject {rest : List UInt8} (h : Starts bs none rest) : Stops bs ⟨utf8Reject, 0xFFFD, rest⟩
  | ended {state codepoint : Nat} (h : Incomplete bs) (hcode : codepoint < 0x8000) :
      Stops bs ⟨state, codepoint, []⟩

/-- One byte more: the loop stops there, or is at the next state. -/
theorem stops_cons {state codepoint : Nat} {o : Option Due} (hscan : readBytes (x ++ [b]) = o)
    (hreject : o = none → IllFormed x b ∧ (utf8Decode state codepoint b).1 = utf8Reject)
    (hnext : ∀ d, o = some d → utf8Decode state codepoint b = (stateOf d, d.code) ∧
      (d.count ≠ 0 → (d.count, d.lo, d.hi) ∈ tableStates))
    (hrest : ∀ d, o = some d → d.count ≠ 0 → (d.count, d.lo, d.hi) ∈ tableStates →
      Stops (x ++ b :: bs) (decodeOne (stateOf d) d.code bs)) :
    Stops (x ++ b :: bs) (decodeOne state codepoint (b :: bs)) := by
  rw [decodeOne]
  cases o with
  | none =>
    obtain ⟨hill, hstate⟩ := hreject rfl
    dsimp only
    rw [hstate, if_neg (by decide), if_pos rfl]
    exact .reject (.illFormed hill bs)
  | some d =>
    obtain ⟨hdecode, htable⟩ := hnext d rfl
    rw [hdecode]
    dsimp only
    by_cases hd : d.count = 0
    · obtain ⟨c, hc, hx⟩ := exists_char_of_readBytes hscan hd
      rw [stateOf_of_count_zero hd, if_pos rfl, ← hc, List.append_cons, hx]
      exact .accept (.wellFormed c bs)
    · obtain ⟨haccept, hreject⟩ := stateOf_ne (htable hd)
      rw [if_neg (Ne.symm haccept), if_neg (Ne.symm hreject)]
      exact hrest d rfl hd (htable hd)

theorem decodeOne_due (hx : readBytes x = some d) (hd : d.count ≠ 0)
    (htable : (d.count, d.lo, d.hi) ∈ tableStates) :
    Stops (x ++ bs) (decodeOne (stateOf d) d.code bs) := by
  have hne : x ≠ [] := by
    rintro rfl
    cases hx
  induction bs generalizing x d with
  | nil =>
    rw [List.append_nil]
    refine .ended (incomplete_iff.mpr (.inr ⟨d, hx, hd⟩)) ?_
    have hroom := (readBytes_open hx hd).room
    have hpow : 64 ^ (3 - d.count) ≤ 64 ^ 2 := Nat.pow_le_pow_right (by decide) (by omega)
    omega
  | cons b bs ih =>
    have hscan : readBytes (x ++ [b]) = d.next b.toNat := by
      rw [readBytes_append hne, hx, Option.bind_some, Due.after]
      cases d.next b.toNat <;> rfl
    have hdecode := utf8Decode_next (b := b) htable
    refine stops_cons hscan (fun hnone => ?_) (fun d' hsome => ?_) fun d' hsome hd' htable' => ?_
    · rw [hnone] at hdecode
      exact ⟨.of_next hx hd hnone, hdecode⟩
    · rw [hsome] at hdecode
      exact hdecode
    · rw [List.append_cons]
      exact ih (hscan.trans hsome) hd' htable' (List.append_ne_nil_of_left_ne_nil hne _)

/-- The loop over the bytes of one code point, from the initial state. -/
theorem decodeOne_stops (codepoint : Nat) (hbs : bs ≠ []) :
    Stops bs (decodeOne utf8Accept codepoint bs) := by
  cases bs with
  | nil => exact absurd rfl hbs
  | cons b bs =>
    have hscan : readBytes ([] ++ [b]) = first b.toNat := by
      show (first b.toNat).bind _ = _
      cases first b.toNat <;> rfl
    refine stops_cons (x := []) hscan (fun hnone => ?_) (fun d hsome => ?_) fun d hsome hd htable => ?_
    · exact ⟨.of_first hnone, utf8Decode_first_none codepoint hnone⟩
    · exact utf8Decode_first_some codepoint hsome
    · exact decodeOne_due (x := [b]) (hscan.trans hsome) hd htable

/-- In the state of a rejection, the next byte is rejected. -/
theorem decodeOne_reject (codepoint : Nat) (b : UInt8) (bs : List UInt8) :
    decodeOne utf8Reject codepoint (b :: bs) = ⟨utf8Reject, 0xFFFD, bs⟩ := by
  have hrow : (utf8d.drop (256 + utf8Reject)).take 12 = (List.range 12).map fun _ => utf8Reject := by
    decide +kernel
  have hb := b.toNat_lt
  have hstate : (utf8Decode utf8Reject codepoint b).1 = utf8Reject := by
    rw [utf8Decode, utf8d_class hb]
    exact utf8d_stretch hrow (byteClass_lt _ hb)
  rw [decodeOne]
  dsimp only
  rw [hstate, if_neg (by decide), if_pos rfl]

theorem decodeOne_accept_codepoint (c c' : Nat) (hbs : bs ≠ []) :
    decodeOne utf8Accept c bs = decodeOne utf8Accept c' bs := by
  cases bs with
  | nil => exact absurd rfl hbs
  | cons b bs =>
    rw [decodeOne, decodeOne, utf8Decode, utf8Decode, if_neg (not_not.mpr rfl),
      if_neg (not_not.mpr rfl)]

end Decoder

/-! ## The passes -/

section Passes

open Utf8

variable {state : Nat} {bs : List UInt8}

/-- The code points of a pass over a C string. -/
def codes (resets : Bool) (state : Nat) (bs : List UInt8) : List Nat :=
  if _h : bs = [] then []
  else
    let stop := decodeOne (if resets then utf8Accept else state) 0 bs
    stop.codepoint :: codes resets stop.state stop.rest
termination_by bs.length
decreasing_by exact decodeOne_rest_lt _ _ ‹_›

theorem codes_nil (resets : Bool) (state : Nat) : codes resets state [] = [] := by
  rw [codes, dif_pos rfl]

theorem codes_of_ne (resets : Bool) (state : Nat) (hbs : bs ≠ []) :
    codes resets state bs =
      (decodeOne (if resets then utf8Accept else state) 0 bs).codepoint ::
        codes resets (decodeOne (if resets then utf8Accept else state) 0 bs).state
          (decodeOne (if resets then utf8Accept else state) 0 bs).rest := by
  rw [codes, dif_neg hbs]

/-- The state in which a pass comes to the next code point. -/
def Between (state : Nat) (bs : List UInt8) : Prop :=
  bs = [] ∨ state = utf8Accept ∨ state = utf8Reject

theorem decodeOne_between (resets : Bool) (h : Between state bs) (hbs : bs ≠ []) (c : Nat) :
    decodeOne (if resets then utf8Accept else state) c bs =
        decodeOne (if resets then utf8Accept else state) 0 bs ∧
      Between (decodeOne (if resets then utf8Accept else state) 0 bs).state
        (decodeOne (if resets then utf8Accept else state) 0 bs).rest := by
  have accept : decodeOne utf8Accept c bs = decodeOne utf8Accept 0 bs ∧
      Between (decodeOne utf8Accept 0 bs).state (decodeOne utf8Accept 0 bs).rest := by
    refine ⟨decodeOne_accept_codepoint c 0 hbs, ?_⟩
    have hstops := decodeOne_stops 0 hbs
    generalize decodeOne utf8Accept 0 bs = stop at hstops
    cases hstops with
    | accept => exact .inr (.inl rfl)
    | reject => exact .inr (.inr rfl)
    | ended => exact .inl rfl
  rcases h with h | rfl | rfl
  · exact absurd h hbs
  · rw [ite_self]
    exact accept
  · cases resets with
    | true => exact accept
    | false =>
      obtain ⟨b, bs, rfl⟩ := List.exists_cons_of_ne_nil hbs
      rw [if_neg Bool.false_ne_true, decodeOne_reject, decodeOne_reject]
      exact ⟨rfl, .inr (.inr rfl)⟩

theorem codes_resets (state : Nat) (bs : List UInt8) :
    codes true state bs = codes true utf8Accept bs := by
  rw [codes, codes]
  rfl

/-- The first pass counts the code points and finds how wide they are. -/
theorem sizeLoop_codes (z : Sizing) (bs : List UInt8) :
    (sizeLoop z bs).flags = widest z.flags (codes true utf8Accept bs) ∧
      (sizeLoop z bs).cpCount = z.cpCount + (codes true utf8Accept bs).length := by
  induction hn : bs.length using Nat.strongRecOn generalizing z bs with
  | ind n ih =>
    rw [sizeLoop]
    by_cases hbs : bs = []
    · rw [dif_pos hbs, hbs, codes_nil]
      exact ⟨rfl, rfl⟩
    · have hcode := (decodeOne_between true (.inr (.inl rfl)) hbs z.codepoint).1
      rw [if_pos rfl] at hcode
      rw [dif_neg hbs, codes_of_ne true utf8Accept hbs, if_pos rfl, codes_resets]
      dsimp only
      rw [hcode]
      obtain ⟨hflags, hcount⟩ := ih _ (hn ▸ decodeOne_rest_lt utf8Accept 0 hbs)
        ⟨z.flags.widen (decodeOne utf8Accept 0 bs).codepoint, z.cpCount + 1,
          (decodeOne utf8Accept 0 bs).codepoint⟩ _ rfl
      refine ⟨hflags, hcount.trans ?_⟩
      rw [List.length_cons]
      exact Nat.add_right_comm _ _ _

/-- The second pass writes the code points. -/
theorem fillLoop_codes (resets : Bool) (flags : StringFlags) (h : Between state bs) (f : Filling) :
    match putUnits flags f.s f.cpCount (codes resets state bs) with
    | .error e => fillLoop resets flags state f bs = .error e
    | .ok s => ∃ c, fillLoop resets flags state f bs =
        .ok ⟨s, f.cpCount + (codes resets state bs).length, c⟩ := by
  induction hn : bs.length using Nat.strongRecOn generalizing state f bs with
  | ind n ih =>
    rw [fillLoop]
    by_cases hbs : bs = []
    · rw [dif_pos hbs, hbs, codes_nil]
      exact ⟨f.codepoint, rfl⟩
    · obtain ⟨hcode, hbetween⟩ := decodeOne_between resets h hbs f.codepoint
      have hlt := decodeOne_rest_lt (if resets then utf8Accept else state) 0 hbs
      rw [dif_neg hbs, codes_of_ne resets state hbs]
      dsimp only
      rw [hcode, putUnits]
      generalize decodeOne (if resets then utf8Accept else state) 0 bs = stop at hbetween hlt
      cases putUnit flags f.s f.cpCount stop.codepoint with
      | error e => rfl
      | ok s =>
        have hrest := ih _ (hn ▸ hlt) hbetween ⟨s, f.cpCount + 1, stop.codepoint⟩ rfl
        have hlen : f.cpCount + (stop.codepoint :: codes resets stop.state stop.rest).length =
            f.cpCount + 1 + (codes resets stop.state stop.rest).length := by
          rw [List.length_cons, Nat.add_assoc, Nat.add_comm 1]
        rw [hlen]
        exact hrest

/-- The last code point apart, a pass that starts anew goes by the sequences. -/
theorem codes_falls (bs : List UInt8) :
    ∃ cs r p, Falls bs cs r ∧ p < 0x8000 ∧ codes true utf8Accept bs =
      cs.map (fun c => (c.map Char.toNat).getD replacement) ++ if r = [] then [] else [p] := by
  induction hn : bs.length using Nat.strongRecOn generalizing bs with
  | ind n ih =>
    by_cases hbs : bs = []
    · subst hbs
      exact ⟨[], [], 0, .rest (incomplete_iff.mpr (.inl rfl)), by decide, codes_nil _ _⟩
    · rw [codes_of_ne true utf8Accept hbs, if_pos rfl, codes_resets]
      have hlt := decodeOne_rest_lt utf8Accept 0 hbs
      have hstops := decodeOne_stops 0 hbs
      generalize decodeOne utf8Accept 0 bs = stop at hlt hstops
      cases hstops with
      | accept h =>
        obtain ⟨cs, r, p, hfalls, hp, hcodes⟩ := ih _ (hn ▸ hlt) _ rfl
        exact ⟨_, r, p, .sequence h hfalls, hp, congrArg (List.cons _) hcodes⟩
      | reject h =>
        obtain ⟨cs, r, p, hfalls, hp, hcodes⟩ := ih _ (hn ▸ hlt) _ rfl
        exact ⟨_, r, p, .sequence h hfalls, hp, congrArg (List.cons _) hcodes⟩
      | @ended state p h hp =>
        refine ⟨[], bs, p, .rest h, hp, ?_⟩
        rw [codes_nil, if_neg hbs]
        rfl

/-- Which code points the two passes over one C string go through. -/
inductive Passed : List UInt8 → List Nat → List Nat → Prop where
  | nil : Passed [] [] []
  | accept {bs rest : List UInt8} {c : Char} {r f : List Nat} (h : Starts bs (some c) rest)
      (hrest : Passed rest r f) : Passed bs (c.toNat :: r) (c.toNat :: f)
  | reject {bs rest : List UInt8} (h : Starts bs none rest) :
      Passed bs (0xFFFD :: codes true utf8Accept rest) (0xFFFD :: List.replicate rest.length 0xFFFD)
  | ended {bs : List UInt8} {p : Nat} (h : Incomplete bs) (hp : p < 0x8000) : Passed bs [p] [p]

/-- From a rejection on, every byte is one. -/
theorem codes_reject (bs : List UInt8) :
    codes false utf8Reject bs = List.replicate bs.length 0xFFFD := by
  induction bs with
  | nil => exact codes_nil _ _
  | cons b bs ih =>
    rw [codes_of_ne _ _ (List.cons_ne_nil b bs), if_neg Bool.false_ne_true, decodeOne_reject, ih]
    rfl

theorem passed (bs : List UInt8) :
    Passed bs (codes true utf8Accept bs) (codes false utf8Accept bs) := by
  induction hn : bs.length using Nat.strongRecOn generalizing bs with
  | ind n ih =>
    by_cases hbs : bs = []
    · subst hbs
      rw [codes_nil, codes_nil]
      exact .nil
    · rw [codes_of_ne true utf8Accept hbs, codes_of_ne false utf8Accept hbs, if_pos rfl,
        if_neg Bool.false_ne_true, codes_resets]
      have hlt := decodeOne_rest_lt utf8Accept 0 hbs
      have hstops := decodeOne_stops 0 hbs
      generalize decodeOne utf8Accept 0 bs = stop at hlt hstops
      cases hstops with
      | accept h => exact .accept h (ih _ (hn ▸ hlt) _ rfl)
      | reject h =>
        dsimp only
        rw [codes_reject]
        exact .reject h
      | ended h hp =>
        dsimp only
        rw [codes_nil, codes_nil]
        exact .ended h hp

variable {r f : List Nat}

theorem codes_length_le (bs : List UInt8) : (codes true utf8Accept bs).length ≤ bs.length := by
  induction hn : bs.length using Nat.strongRecOn generalizing bs with
  | ind n ih =>
    by_cases hbs : bs = []
    · rw [hbs, codes_nil]
      exact Nat.zero_le _
    · have hlt := decodeOne_rest_lt utf8Accept 0 hbs
      rw [codes_of_ne true utf8Accept hbs, if_pos rfl, codes_resets, List.length_cons]
      have := ih _ (hn ▸ hlt) _ rfl
      omega

theorem Passed.length_le (h : Passed bs r f) : r.length ≤ f.length := by
  induction h with
  | nil => exact Nat.le_refl _
  | accept _ _ ih => exact Nat.succ_le_succ ih
  | @reject bs rest h =>
    rw [List.length_cons, List.length_cons, List.length_replicate]
    exact Nat.succ_le_succ (codes_length_le rest)
  | ended => exact Nat.le_refl _

theorem Passed.subset (h : Passed bs r f) : f ⊆ r := by
  induction h with
  | nil => exact List.Subset.refl _
  | accept _ _ ih => exact List.cons_subset_cons _ ih
  | reject h =>
    intro cp hcp
    rw [← List.replicate_succ] at hcp
    rw [List.eq_of_mem_replicate hcp]
    exact List.mem_cons_self
  | ended => exact List.Subset.refl _

theorem codes_lt (bs : List UInt8) : ∀ cp ∈ codes true utf8Accept bs, cp < 256 ^ 4 := by
  obtain ⟨cs, r, p, -, hp, hcodes⟩ := codes_falls bs
  intro cp hcp
  rw [hcodes, List.mem_append, List.mem_map] at hcp
  rcases hcp with ⟨c, -, rfl⟩ | hcp
  · cases c with
    | none => show 0xFFFD < _; decide
    | some c =>
      have hvalid : c.toNat < 0xD800 ∨ 0xDFFF < c.toNat ∧ c.toNat < 0x110000 := c.valid
      show c.toNat < 256 ^ 4
      omega
  · split at hcp
    · exact absurd hcp List.not_mem_nil
    · rw [List.mem_singleton.mp hcp]
      omega

/-- A byte that begins a sequence does not give U+FFFD on its own. -/
theorem codes_ne_replicate {b : UInt8} (hb : Begins b) :
    codes true utf8Accept (b :: bs) ≠ List.replicate (b :: bs).length 0xFFFD := by
  intro heq
  have hne := List.cons_ne_nil b bs
  have hstops := decodeOne_stops 0 hne
  have hlen := congrArg List.length heq
  rw [codes_of_ne true utf8Accept hne, if_pos rfl, codes_resets] at heq hlen
  rw [List.length_replicate, List.length_cons, List.length_cons] at hlen
  have hle := codes_length_le (decodeOne utf8Accept 0 (b :: bs)).rest
  rw [List.length_cons, List.replicate_succ] at heq
  have hhead := (List.cons.inj heq).1
  generalize decodeOne utf8Accept 0 (b :: bs) = stop at hstops hhead hlen hle
  generalize htext : b :: bs = text at hstops
  have htextlen := congrArg List.length htext
  rw [List.length_cons] at htextlen
  cases hstops with
  | @accept c rest h =>
    -- one byte is too few for U+FFFD
    cases h with
    | wellFormed =>
      rw [List.length_append, String.length_utf8EncodeChar] at htextlen
      dsimp only at hhead hlen hle
      have hsize : c.utf8Size = 1 := by
        have := c.utf8Size_pos
        omega
      have hval : c.val.toNat ≤ 127 := UInt32.le_iff_toNat_le.mp (Char.utf8Size_eq_one_iff.mp hsize)
      have hcode : c.val.toNat = 0xFFFD := hhead
      omega
  | reject h =>
    cases h with
    | @illFormed y b' hy =>
      cases y with
      | nil =>
        obtain ⟨rfl, -⟩ := List.cons.inj htext
        exact begins_iff.mp hb hy
      | cons c y =>
        rw [List.length_append, List.length_cons, List.length_cons] at htextlen
        dsimp only at hlen hle
        omega
  | ended h hp =>
    dsimp only at hhead
    omega

/-- Exactly the bytes that begin no sequence give a U+FFFD each. -/
theorem codes_eq_replicate_iff (bs : List UInt8) :
    codes true utf8Accept bs = List.replicate bs.length 0xFFFD ↔ ∀ b ∈ bs, ¬ Begins b := by
  induction bs with
  | nil => exact iff_of_true (codes_nil _ _) fun b hb => absurd hb List.not_mem_nil
  | cons b bs ih =>
    rw [List.forall_mem_cons]
    by_cases hb : Begins b
    · exact iff_of_false (codes_ne_replicate hb) fun h => h.1 hb
    · have hstarts : Starts ([] ++ b :: bs) none bs := .illFormed (not_not.mp fun h => hb (begins_iff.mpr h)) bs
      have hcodes : codes true utf8Accept (b :: bs) = 0xFFFD :: codes true utf8Accept bs := by
        have hpassed := passed (b :: bs)
        generalize codes true utf8Accept (b :: bs) = r at hpassed
        generalize codes false utf8Accept (b :: bs) = f at hpassed
        generalize htext : b :: bs = text at hpassed
        rw [List.nil_append, htext] at hstarts
        cases hpassed with
        | nil => cases htext
        | accept h => exact absurd (h.unique hstarts).1 nofun
        | reject h => rw [(h.unique hstarts).2]
        | ended h => exact absurd h hstarts.not_incomplete
      rw [hcodes, List.length_cons, List.replicate_succ, List.cons_inj_right, ih]
      exact ⟨fun h => ⟨hb, h⟩, And.right⟩

/-- The passes agree exactly if nothing begins after an ill-formed sequence. -/
theorem Passed.eq_iff (h : Passed bs r f) : f = r ↔ QuietAfterIllFormed bs := by
  induction h with
  | nil => exact iff_of_true rfl (.rest (incomplete_iff.mpr (.inl rfl)))
  | accept h _ ih =>
    rw [List.cons_inj_right, ih]
    exact ⟨fun hq => .wellFormed h hq, fun hq => (hq.of_starts h).1 nofun⟩
  | @reject bs rest h =>
    rw [List.cons_inj_right, eq_comm, codes_eq_replicate_iff]
    exact ⟨fun hq => .illFormed h hq, fun hq => (hq.of_starts h).2 rfl⟩
  | ended h => exact iff_of_true rfl (.rest h)

theorem Passed.mem_of_ne (h : Passed bs r f) (hne : f ≠ r) : 0xFFFD ∈ r := by
  induction h with
  | nil => exact absurd rfl hne
  | accept _ _ ih =>
    exact List.mem_cons_of_mem _ (ih fun he => hne (congrArg _ he))
  | reject => exact List.mem_cons_self
  | ended => exact absurd rfl hne

/-- What `idio_string_C_len` makes of any bytes. -/
theorem stringCLen_codes (bs : List UInt8) : ∃ so, stringCLen bs = .ok so ∧
    so.codePoints = codes true utf8Accept bs ∧ so.len = (codes true utf8Accept bs).length ∧
      so.flags = widest .oneByte (codes true utf8Accept bs) ∧
      so.blen = so.len * so.flags.width := by
  obtain ⟨hflags, hcount⟩ := sizeLoop_codes .start bs
  rw [Sizing.start, Nat.zero_add] at hcount
  have hfits := lt_capacity_widest (rfl : StringFlags.oneByte.isUnicode = true) (codes_lt bs)
  obtain ⟨s, hput, htake⟩ := putUnits_gcAlloc (Nat.le_refl _) hfits
  have hfill := fillLoop_codes true (widest .oneByte (codes true utf8Accept bs))
    (.inr (.inl rfl) : Between utf8Accept bs)
    ⟨gcAlloc (widest .oneByte (codes true utf8Accept bs)) ((codes true utf8Accept bs).length *
      (widest .oneByte (codes true utf8Accept bs)).width + 1), 0, (sizeLoop .start bs).codepoint⟩
  rw [hput] at hfill
  obtain ⟨c, hfill⟩ := hfill
  rw [stringCLen]
  simp only [Sizing.start] at hflags hcount hfill ⊢
  rw [hflags, hcount, hfill]
  refine ⟨_, rfl, ?_, ?_, rfl, ?_⟩
  · simpa [StringS.codePoints] using htake
  · simp
  · simp

/-- The first pass over several C strings. -/
theorem foldl_sizeLoop_codes (a_C : List (List UInt8)) (z : Sizing) :
    (a_C.foldl sizeLoop z).flags = widest z.flags (a_C.flatMap (codes true utf8Accept)) ∧
      (a_C.foldl sizeLoop z).cpCount =
        z.cpCount + (a_C.flatMap (codes true utf8Accept)).length := by
  induction a_C generalizing z with
  | nil => exact ⟨rfl, rfl⟩
  | cons bs a_C ih =>
    obtain ⟨hflags, hcount⟩ := sizeLoop_codes z bs
    obtain ⟨hflags', hcount'⟩ := ih (sizeLoop z bs)
    rw [List.foldl_cons, List.flatMap_cons, hflags', hcount', hflags, hcount, List.length_append]
    exact ⟨(List.foldl_append ..).symm, Nat.add_assoc ..⟩

/-- The second pass over several C strings. -/
theorem foldlM_fillLoop_codes (flags : StringFlags) (a_C : List (List UInt8)) (f : Filling) :
    match putUnits flags f.s f.cpCount (a_C.flatMap (codes false utf8Accept)) with
    | .error e => a_C.foldlM (fillLoop false flags utf8Accept) f = .error e
    | .ok s => ∃ c, a_C.foldlM (fillLoop false flags utf8Accept) f =
        .ok ⟨s, f.cpCount + (a_C.flatMap (codes false utf8Accept)).length, c⟩ := by
  induction a_C generalizing f with
  | nil => exact ⟨f.codepoint, rfl⟩
  | cons bs a_C ih =>
    have hfill := fillLoop_codes false flags (.inr (.inl rfl) : Between utf8Accept bs) f
    rw [List.flatMap_cons, putUnits_append, List.foldlM_cons, List.length_append]
    cases hput : putUnits flags f.s f.cpCount (codes false utf8Accept bs) with
    | error e =>
      rw [hput] at hfill
      dsimp only at hfill
      rw [hfill]
      rfl
    | ok s =>
      rw [hput] at hfill
      obtain ⟨c, hfill⟩ := hfill
      have hrest := ih ⟨s, f.cpCount + (codes false utf8Accept bs).length, c⟩
      rw [hfill, ← Nat.add_assoc]
      exact hrest

/-- The strings of some C strings, one by one. -/
theorem flatMap_codePoints {a_C : List (List UInt8)} {sos : List StringS}
    (h : List.Forall₂ (fun bs so => stringCLen bs = .ok so) a_C sos) :
    sos.flatMap StringS.codePoints = a_C.flatMap (codes true utf8Accept) := by
  induction h with
  | nil => rfl
  | @cons bs so a_C sos hso _ ih =>
    obtain ⟨so', hso', hcodes, -⟩ := stringCLen_codes bs
    rw [hso] at hso'
    cases hso'
    rw [List.flatMap_cons, List.flatMap_cons, ih, hcodes]

theorem exists_strings (a_C : List (List UInt8)) :
    ∃ sos, List.Forall₂ (fun bs so => stringCLen bs = .ok so) a_C sos := by
  induction a_C with
  | nil => exact ⟨[], .nil⟩
  | cons bs a_C ih =>
    obtain ⟨so, hso, -⟩ := stringCLen_codes bs
    obtain ⟨sos, hsos⟩ := ih
    exact ⟨so :: sos, .cons hso hsos⟩

/-- Lists no longer than others, but as long in all, are as long each. -/
theorem flatMap_length_eq {a_C : List (List UInt8)} {r f : List UInt8 → List Nat}
    (hle : ∀ bs ∈ a_C, (r bs).length ≤ (f bs).length) :
    (a_C.flatMap r).length ≤ (a_C.flatMap f).length ∧
      ((a_C.flatMap f).length = (a_C.flatMap r).length →
        ∀ bs ∈ a_C, (f bs).length = (r bs).length) := by
  induction a_C with
  | nil => exact ⟨Nat.le_refl _, fun _ bs hbs => absurd hbs List.not_mem_nil⟩
  | cons bs a_C ih =>
    obtain ⟨hbs, hrest⟩ := List.forall_mem_cons.mp hle
    obtain ⟨hall, heach⟩ := ih hrest
    simp only [List.flatMap_cons, List.length_append]
    refine ⟨Nat.add_le_add hbs hall, fun h => List.forall_mem_cons.mpr ⟨by omega, heach (by omega)⟩⟩

theorem flatMap_inj {a_C : List (List UInt8)} {r f : List UInt8 → List Nat}
    (hlen : ∀ bs ∈ a_C, (f bs).length = (r bs).length) (h : a_C.flatMap f = a_C.flatMap r) :
    ∀ bs ∈ a_C, f bs = r bs := by
  induction a_C with
  | nil => exact fun bs hbs => absurd hbs List.not_mem_nil
  | cons bs a_C ih =>
    obtain ⟨hbs, hrest⟩ := List.forall_mem_cons.mp hlen
    rw [List.flatMap_cons, List.flatMap_cons] at h
    obtain ⟨hhead, htail⟩ := List.append_inj h hbs
    exact List.forall_mem_cons.mpr ⟨hhead, ih hrest htail⟩

/-- What `idio_string_C_array_lens` makes of any C strings. -/
theorem stringCArrayLens_codes (a_C : List (List UInt8)) :
    let r := a_C.flatMap (codes true utf8Accept)
    let f := a_C.flatMap (codes false utf8Accept)
    let flags := widest .oneByte r
    match putUnits flags (gcAlloc flags (r.length * flags.width + 1)) 0 f with
    | .error e => stringCArrayLens a_C = .error e
    | .ok s => stringCArrayLens a_C = .ok ⟨r.length * flags.width, f.length, flags,
        terminate flags s (r.length * flags.width)⟩ := by
  dsimp only
  obtain ⟨hflags, hcount⟩ := foldl_sizeLoop_codes a_C .start
  have hfill := foldlM_fillLoop_codes (widest .oneByte (a_C.flatMap (codes true utf8Accept))) a_C
    ⟨gcAlloc (widest .oneByte (a_C.flatMap (codes true utf8Accept)))
      ((a_C.flatMap (codes true utf8Accept)).length *
        (widest .oneByte (a_C.flatMap (codes true utf8Accept))).width + 1), 0,
      (a_C.foldl sizeLoop .start).codepoint⟩
  simp only [Sizing.start, Nat.zero_add] at hflags hcount hfill
  rw [stringCArrayLens]
  simp only [Sizing.start]
  rw [hflags, hcount]
  split
  · rename_i e hput
    rw [hput] at hfill
    dsimp only at hfill
    rw [hfill]
  · rename_i s hput
    rw [hput] at hfill
    obtain ⟨c, hfill⟩ := hfill
    rw [hfill]

/-- The string of several C strings is the strings of them one after the other, and the
two passes count the same. -/
def ArrayDecoded (a_C : List (List UInt8)) : Prop :=
  ∃ so sos, stringCArrayLens a_C = .ok so ∧
    List.Forall₂ (fun bs so => stringCLen bs = .ok so) a_C sos ∧
    so.codePoints = sos.flatMap StringS.codePoints ∧ so.blen = so.len * so.flags.width

theorem arrayDecoded_iff (a_C : List (List UInt8)) :
    ArrayDecoded a_C ↔ ∀ bs ∈ a_C, QuietAfterIllFormed bs := by
  have hle : ∀ bs ∈ a_C, (codes true utf8Accept bs).length ≤ (codes false utf8Accept bs).length :=
    fun bs _ => (passed bs).length_le
  obtain ⟨hall, heach⟩ := flatMap_length_eq hle
  have harray := stringCArrayLens_codes a_C
  have hlt : ∀ cp ∈ a_C.flatMap (codes true utf8Accept), cp < 256 ^ 4 := by
    intro cp hcp
    obtain ⟨bs, -, hcp⟩ := List.mem_flatMap.mp hcp
    exact codes_lt bs cp hcp
  have hcap := lt_capacity_widest (rfl : StringFlags.oneByte.isUnicode = true) hlt
  have hsub : ∀ cp ∈ a_C.flatMap (codes false utf8Accept),
      cp ∈ a_C.flatMap (codes true utf8Accept) := by
    intro cp hcp
    obtain ⟨bs, hbs, hcp⟩ := List.mem_flatMap.mp hcp
    exact List.mem_flatMap.mpr ⟨bs, hbs, (passed bs).subset hcp⟩
  obtain ⟨sos, hsos⟩ := exists_strings a_C
  dsimp only at harray
  generalize hflags : widest .oneByte (a_C.flatMap (codes true utf8Accept)) = flags at harray hcap
  by_cases hlen : (a_C.flatMap (codes false utf8Accept)).length =
      (a_C.flatMap (codes true utf8Accept)).length
  · -- the allocation is as long as what is written to it
    obtain ⟨s, hput, htake⟩ := putUnits_gcAlloc (Nat.le_refl _) fun cp hcp => hcap cp (hsub cp hcp)
    rw [← hlen, hput] at harray
    dsimp only at harray
    constructor
    · rintro ⟨so, sos', hso, hsos', hcodes, -⟩ bs hbs
      rw [harray] at hso
      cases hso
      rw [flatMap_codePoints hsos'] at hcodes
      exact (passed bs).eq_iff.mp (flatMap_inj (heach hlen) (htake.symm.trans hcodes) bs hbs)
    · intro hquiet
      refine ⟨_, sos, harray, hsos, ?_, rfl⟩
      rw [flatMap_codePoints hsos]
      refine htake.trans (List.flatMap_congr fun bs hbs => (passed bs).eq_iff.mpr (hquiet bs hbs))
  · -- a C string is not quiet, its U+FFFD takes two bytes, and there is no unit to spare
    have hne : ∃ bs ∈ a_C, codes false utf8Accept bs ≠ codes true utf8Accept bs := by
      by_contra hno
      exact hlen (congrArg _ (List.flatMap_congr fun bs hbs =>
        not_not.mp fun h => hno ⟨bs, hbs, h⟩))
    obtain ⟨bs, hbs, hne⟩ := hne
    have hmem := hcap 0xFFFD (List.mem_flatMap.mpr ⟨bs, hbs, (passed bs).mem_of_ne hne⟩)
    have hwidth : flags.width ≠ 1 := by
      intro h
      rw [StringFlags.capacity, h] at hmem
      exact absurd hmem (by decide)
    have hroom := length_gcAlloc_of_ne (a_C.flatMap (codes true utf8Accept)).length hwidth
    rw [putUnits_of_lt (Nat.zero_le _) (by rw [hroom]; omega)] at harray
    dsimp only at harray
    refine iff_of_false ?_ fun hquiet => hne ((passed bs).eq_iff.mpr (hquiet bs hbs))
    rintro ⟨so, -, hso, -⟩
    rw [harray] at hso
    cases hso

/-- The string of a C string is that of its sequences. -/
def Decoded (bs : List UInt8) (cs : List (Option Char)) (r : List UInt8) : Prop :=
  ∃ so, stringCLen bs = .ok so ∧ so.codePoints = Utf8.codePoints cs r

/-- **Strings from C strings.**  Any bytes fall into sequences in one way, and the string
of them is that of the sequences exactly if the bytes do not end inside of one.  Several C
strings give the strings of each one after the other, in both passes, exactly if in each
nothing begins after an ill-formed sequence. -/
theorem utf8_decoding (bs : List UInt8) (a_C : List (List UInt8)) :
    (∃ cs r, Falls bs cs r ∧ (∀ cs' r', Falls bs cs' r' → cs = cs' ∧ r = r') ∧
      (Decoded bs cs r ↔ ¬ EndsInside bs)) ∧
    (ArrayDecoded a_C ↔ ∀ bs ∈ a_C, QuietAfterIllFormed bs) := by
  refine ⟨?_, arrayDecoded_iff a_C⟩
  obtain ⟨cs, r, p, hfalls, hp, hcodes⟩ := codes_falls bs
  obtain ⟨so, hso, hpoints, -⟩ := stringCLen_codes bs
  refine ⟨cs, r, hfalls, fun cs' r' h => hfalls.unique h, ?_⟩
  have hdecoded : Decoded bs cs r ↔ codes true utf8Accept bs = Utf8.codePoints cs r := by
    constructor
    · rintro ⟨so', hso', h⟩
      rw [hso] at hso'
      cases hso'
      rw [← hpoints, h]
    · exact fun h => ⟨so, hso, hpoints.trans h⟩
  rw [hdecoded, endsInside_iff hfalls, not_not, hcodes, Utf8.codePoints, List.append_cancel_left_eq]
  by_cases hr : r = []
  · rw [if_pos hr, if_pos hr]
    exact iff_of_true rfl hr
  · rw [if_neg hr, if_neg hr]
    refine iff_of_false (fun h => ?_) hr
    have hp' : p = 0xFFFD := (List.cons.inj h).1
    omega

/-- The first two bytes of `€` give U+0082, and `\xFF` before `é` makes the second pass
write beyond the allocation. -/
theorem truncated_sequence_decoded :
    (Falls [0xE2, 0x82] [] [0xE2, 0x82] ∧
      stringCLen [0xE2, 0x82] = .ok ⟨1, 1, .oneByte, [0x82, 0]⟩) ∧
    stringCArrayLens [[0xFF, 0xC3, 0xA9]] = .error .undefined := by
  refine ⟨⟨.rest ⟨'€', ⟨[0xAC], by decide⟩, by decide⟩, ?_⟩, ?_⟩
  · decide +kernel
  · decide +kernel

end Passes

end Idio
