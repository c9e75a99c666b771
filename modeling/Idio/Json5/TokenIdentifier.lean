/-
  Json5/TokenIdentifier.lean --- the tokens of JSON5 identifiers and literals.

  `json5_token_identifier` finds where the run of identifier characters ends, and then
  compares the input from the start of the run on with five words, each as far as the
  word goes, whatever the run goes on with, or to the last code point but one where the
  input is shorter than the word.
-/
import Idio.Json5.Unicode

set_option autoImplicit false

namespace Idio.Json5

/-- `idio_USI_Category_t` -/
inductive UsiCategory where
  | Lu | Ll | Lt | Lm | Lo | Mn | Mc | Me | Nd | Nl | No | Pc | Pd | Ps | Pe
  | Pi | Pf | Po | Sm | Sc | Sk | So | Zs | Zl | Zp | Cc | Cf | Cs | Co | Cn
  deriving DecidableEq, Repr

/-- What is used of the Unicode Summary Information: the category of a code point, and
`IDIO_USI_FLAG_ZWJ`. -/
structure Usi where
  category : Nat → UsiCategory
  zwj : Nat → Bool

section TokenIdentifier

variable (usi : Usi) (junk : Nat → Nat) (s : UnicodeString)

/-- A code point that `json5_ECMA_IdentifierStart` has without an escape. -/
def Usi.isStart (cp : Nat) : Bool :=
  usi.category cp ∈ [.Lu, .Ll, .Lt, .Lm, .Lo, .Nl] || cp = 0x24 || cp = 0x5F

/-- `json5_ECMA_IdentifierStart` -/
def ecmaIdentifierStart (cp i : Nat) : Result (Bool × Nat) :=
  if usi.isStart cp then .ok (true, i)
  else if cp = 0x5C then do
    let (r, i) ← ecmaUnicodeEscapeSequence s i
    return (r.isSome, i)
  else .ok (false, i)

/-- `json5_ECMA_IdentifierPart` -/
def ecmaIdentifierPart (cp i : Nat) : Result (Bool × Nat) := do
  let (r, i) ← ecmaIdentifierStart usi s cp i
  if r then return (true, i)
  else return (usi.category cp ∈ [.Mn, .Mc, .Nd, .Pc] || usi.zwj cp || cp = 0x200C, i)

/-- The end of the run of identifier characters. -/
def identifierEnd : Nat → Nat → Result Nat
  | 0, _ => .error .diverges
  | fuel + 1, start =>
    if start < s.len then do
      let (cp, i) ← s.next start
      let (r, i) ← ecmaIdentifierPart usi s cp i
      if r then identifierEnd fuel i else return start
    else .ok start

/-- The loop of `json5_unicode_string_n_equal`; the elements are read as signed. -/
def nEqualLoop : List Nat → Nat → Nat → Result Bool
  | [], _, _ => .ok true
  | c :: scmp, i, n =>
    if n = 0 then .ok true
    else
      match Cells.read s.width.bytes i s.s with
      | none => .error .undefined
      | some v =>
        if (c : Int) ≠ (v : Int).bmod (256 ^ s.width.bytes) then .ok false
        else nEqualLoop scmp (i + 1) (n - 1)

/-- `json5_unicode_string_n_equal` at an index -/
def nEqual (i : Nat) (scmp : List Nat) (n : Nat) : Result Bool :=
  nEqualLoop s scmp i (if i + n > s.len then (((s.len : Int) - i - 1) % 2 ^ 64).toNat else n)

/-- The loop of `json5_token_UES_identifier`: the result, and how much of it is filled. -/
def uesLoop (start stop : Nat) : Nat → Nat → UnicodeString → Nat → Result (UnicodeString × Nat)
  | 0, _, _, _ => .error .diverges
  | fuel + 1, i, so, n =>
    if i < stop then do
      let (cp, i) ← s.next i
      if cp = 0x5C then do
        let (r, i) ← ecmaUnicodeEscapeSequence s i
        match r with
        | some ecp => uesLoop start stop fuel i (← so.set junk n ecp) (n + 1)
        | none =>
          jsonError ("json5/tokenize identifier at " ++ toString start ++
            ": failed to recognise UnicodeEscapeSequence at " ++ toString n)
      else uesLoop start stop fuel i (← so.set junk n cp) (n + 1)
    else .ok (so, n)

/-- `json5_token_UES_identifier` -/
def tokenUESIdentifier (start stop : Nat) : Result UnicodeString := do
  let so := ⟨s.width, stop - start, malloc junk ((stop - start) * s.width.bytes)⟩
  let (so, n) ← uesLoop junk s start stop (s.len + 1) start so 0
  return { so with len := n }

/-- The words of `json5_token_identifier`. -/
inductive Word where
  | null
  | true
  | false
  | infinity
  | nan
  deriving DecidableEq, Repr

def Word.text : Word → List Nat
  | .null => [0x6E, 0x75, 0x6C, 0x6C]
  | .true => [0x74, 0x72, 0x75, 0x65]
  | .false => [0x66, 0x61, 0x6C, 0x73, 0x65]
  | .infinity => [0x49, 0x6E, 0x66, 0x69, 0x6E, 0x69, 0x74, 0x79]
  | .nan => [0x4E, 0x61, 0x4E]

def Word.all : List Word := [.null, .true, .false, .infinity, .nan]

/-- The value of the token. -/
inductive IdentifierText where
  | word (w : Word)
  | identifier (so : UnicodeString)
  deriving DecidableEq, Repr

/-- A token of type `JSON5_TOKEN_IDENTIFIER`, or `JSON5_TOKEN_NUMBER` for `Infinity` and `NaN`. -/
structure IdentifierToken where
  start : Nat
  stop : Nat
  value : IdentifierText
  deriving DecidableEq, Repr

/-- The words are tried one after the other. -/
def wordAt (start : Nat) : List Word → Result (Option Word)
  | [] => .ok none
  | w :: ws => do
    if ← nEqual s start w.text w.text.length then return some w else wordAt start ws

/-- `json5_token_identifier` -/
def tokenIdentifier (start : Nat) : Result IdentifierToken := do
  let stop ← identifierEnd usi s (s.len + 1) start
  match ← wordAt s start Word.all with
  | some w => return ⟨start, stop, .word w⟩
  | none => return ⟨start, stop, .identifier (← tokenUESIdentifier junk s start stop)⟩

end TokenIdentifier

/-! ## Runs of identifier characters -/

/-- An identifier character that is no escape. -/
def Usi.isPart (usi : Usi) (cp : Nat) : Bool :=
  usi.isStart cp || (usi.category cp ∈ [.Mn, .Mc, .Nd, .Pc] || usi.zwj cp || cp = 0x200C)

/-- What is documented of the characters of the words, which are letters, and of the backslash. -/
structure Usi.Documented (usi : Usi) : Prop where
  letter : ∀ w : Word, ∀ c ∈ w.text, usi.isStart c
  backslash : usi.isPart 0x5C = false

/-- The maximal run that a text begins with: the text, the run decoded, and what follows it. -/
inductive IdentifierRun (usi : Usi) : List Nat → List Nat → List Nat → Prop where
  | nil : IdentifierRun usi [] [] []
  | stop {c : Nat} {t : List Nat} : usi.isPart c = false →
      (c = 0x5C → ∀ u, t = 0x75 :: u → unicodeEscape? u = none) → IdentifierRun usi (c :: t) [] (c :: t)
  | part {c : Nat} {t v rest : List Nat} : usi.isPart c → IdentifierRun usi t v rest →
      IdentifierRun usi (c :: t) (c :: v) rest
  | escape {c n : Nat} {t v rest : List Nat} : unicodeEscape? t = some (c, n) →
      IdentifierRun usi (t.drop n) v rest → IdentifierRun usi (0x5C :: 0x75 :: t) (c :: v) rest

section Run

variable {usi : Usi} {junk : Nat → Nat} {s so : UnicodeString} {c n i fuel start stop : Nat}
  {t text v rest vs : List Nat}

/-- Every text begins with a maximal run. -/
theorem IdentifierRun.exists (text : List Nat) :
    ∃ v rest, IdentifierRun usi text v rest := by
  induction hlen : text.length using Nat.strong_induction_on generalizing text with
  | _ len ih =>
    cases text with
    | nil => exact ⟨[], [], .nil⟩
    | cons c t =>
      rw [List.length_cons] at hlen
      cases hpart : usi.isPart c with
      | true =>
        obtain ⟨v, rest, hrun⟩ := ih t.length (by omega) t rfl
        exact ⟨_, _, .part hpart hrun⟩
      | false =>
        by_cases hescape : ∃ u w, c = 0x5C ∧ t = 0x75 :: u ∧ unicodeEscape? u = some w
        · obtain ⟨u, ⟨d, n⟩, rfl, rfl, hu⟩ := hescape
          obtain ⟨v, rest, hrun⟩ := ih (u.drop n).length
            (by rw [List.length_drop]; rw [List.length_cons] at hlen; omega) (u.drop n) rfl
          exact ⟨_, _, .escape hu hrun⟩
        · refine ⟨_, _, .stop hpart fun hc u hu => ?_⟩
          cases hfind : unicodeEscape? u with
          | none => rfl
          | some w => exact absurd ⟨u, w, hc, hu, hfind⟩ hescape

theorem IdentifierRun.suffix (h : IdentifierRun usi text v rest) : rest <:+ text := by
  induction h with
  | nil => exact List.suffix_rfl
  | stop => exact List.suffix_rfl
  | part _ _ ih => exact ih.trans (List.suffix_cons _ _)
  | escape _ _ ih =>
    exact (ih.trans (List.drop_suffix _ _)).trans ((List.suffix_cons _ _).trans (List.suffix_cons _ _))

theorem Usi.isStart_of_isPart {usi : Usi} (h : usi.isPart c = false) :
    usi.isStart c = false ∧
      (usi.category c ∈ [.Mn, .Mc, .Nd, .Pc] || usi.zwj c || c = 0x200C) = false :=
  Bool.or_eq_false_iff.mp h

/-- An identifier character, from the code point after it. -/
theorem ecmaIdentifierPart_of_isPart (husi : usi.Documented) (hpart : usi.isPart c) :
    ecmaIdentifierPart usi s c i = .ok (true, i) := by
  have hback : c ≠ 0x5C := by
    rintro rfl
    rw [husi.backslash] at hpart
    cases hpart
  rw [ecmaIdentifierPart, ecmaIdentifierStart]
  cases hstart : usi.isStart c with
  | true => rfl
  | false =>
    rw [Usi.isPart, hstart, Bool.false_or] at hpart
    rw [if_neg Bool.false_ne_true, if_neg hback, ok_bind]
    dsimp only
    rw [if_neg Bool.false_ne_true, hpart]
    rfl

/-- The run ends at a code point that is no identifier character, unless a UnicodeEscapeSequence
is begun there. -/
theorem ecmaIdentifierPart_stop (h : At s i (c :: t)) (hpart : usi.isPart c = false)
    (hescape : c = 0x5C → ∀ u, t = 0x75 :: u → unicodeEscape? u = none) :
    if [0x5C, 0x75] <+: c :: t then ∃ wide, Stops wide (ecmaIdentifierPart usi s c (i + 1))
    else ∃ j, ecmaIdentifierPart usi s c (i + 1) = .ok (false, j) := by
  obtain ⟨hstart, hmark⟩ := Usi.isStart_of_isPart hpart
  rw [ecmaIdentifierPart, ecmaIdentifierStart, hstart, if_neg Bool.false_ne_true]
  by_cases hback : c = 0x5C
  · rw [if_pos hback]
    cases t with
    | nil =>
      rw [if_neg (by rw [hback]; decide), ecmaUnicodeEscapeSequence, h.tail.available (by decide)]
      exact ⟨i + 1, congrArg (fun b => Except.ok (b, i + 1)) hmark⟩
    | cons d t =>
      by_cases hu : d = 0x75
      · subst hu hback
        have hunicode := h.tail.unicodeEscape
        rw [hescape rfl t rfl] at hunicode
        rw [if_pos ⟨t, rfl⟩]
        exact ⟨_, (hunicode.bind _).bind _⟩
      · rw [if_neg (by rw [hback, List.cons_prefix_cons, List.cons_prefix_cons]; exact fun h => hu h.2.1.symm),
          h.tail.unicodeEscape_ne hu]
        exact ⟨i + 1 + 1, congrArg (fun b => Except.ok (b, i + 1 + 1)) hmark⟩
  · rw [if_neg hback, if_neg (by rw [List.cons_prefix_cons]; exact fun h => hback h.1.symm)]
    exact ⟨i + 1, congrArg (fun b => Except.ok (b, i + 1)) hmark⟩

/-- The whole run is passed over, by either loop; an error at its end is one of the escape begun
there. -/
theorem identifierEnd_spec (husi : usi.Documented) (h : At s i text) (hrun : IdentifierRun usi text v rest)
    (hfuel : text.length < fuel) :
    if [0x5C, 0x75] <+: rest then ∃ wide, Stops wide (identifierEnd usi s fuel i)
    else identifierEnd usi s fuel i = .ok (s.len - rest.length) := by
  induction fuel generalizing i text v with
  | zero => omega
  | succ fuel ih =>
    have hbound := h.bound
    cases hrun with
    | nil =>
      rw [if_neg (by decide), identifierEnd, if_neg (by rw [← hbound]; exact Nat.lt_irrefl _), ← hbound]
      rfl
    | @stop c t hpart hescape =>
      rw [List.length_cons] at hbound
      have hstop := ecmaIdentifierPart_stop h hpart hescape
      rw [identifierEnd, if_pos (show i < s.len by omega), h.next, ok_bind]
      dsimp only
      split
      · rw [if_pos ‹_›] at hstop
        obtain ⟨wide, hwide⟩ := hstop
        exact ⟨wide, hwide.bind _⟩
      · rw [if_neg ‹_›] at hstop
        obtain ⟨j, hj⟩ := hstop
        rw [hj, ← hbound, List.length_cons, Nat.add_sub_cancel]
        rfl
    | @part c t v rest hpart hrun =>
      rw [List.length_cons] at hbound hfuel
      have hrest := ih h.tail hrun (by omega)
      rw [identifierEnd, if_pos (show i < s.len by omega), h.next, ok_bind]
      dsimp only
      rw [ecmaIdentifierPart_of_isPart husi hpart]
      exact hrest
    | @escape c n t v rest hu hrun =>
      have hunicode := h.tail.unicodeEscape
      rw [hu] at hunicode
      obtain ⟨hescape, hn⟩ := hunicode
      rw [List.length_cons, List.length_cons] at hbound hfuel
      have hrest := ih (h.tail.tail.drop hn) hrun (by rw [List.length_drop]; omega)
      have hpart : ecmaIdentifierPart usi s 0x5C (i + 1) = .ok (true, i + 1 + 1 + n) := by
        rw [ecmaIdentifierPart, ecmaIdentifierStart, (Usi.isStart_of_isPart husi.backslash).1,
          if_neg Bool.false_ne_true, if_pos rfl, hescape]
        rfl
      rw [identifierEnd, if_pos (show i < s.len by omega), h.next, ok_bind]
      dsimp only
      rw [hpart]
      exact hrest

/-- The run is decoded into the result. -/
theorem uesLoop_spec (husi : usi.Documented) (h : At s i text) (hrun : IdentifierRun usi text v rest)
    (hfuel : text.length < fuel) (hso : Filled so vs)
    (hroom : vs.length + (text.length - rest.length) ≤ so.len) :
    ∃ so', uesLoop junk s start (s.len - rest.length) fuel i so vs.length =
        .ok (so', (vs ++ v).length) ∧ so'.len = so.len ∧ Filled so' (vs ++ v) := by
  induction fuel generalizing i text v so vs with
  | zero => omega
  | succ fuel ih =>
    have hbound := h.bound
    have hvalid := h.valid
    cases hrun with
    | nil =>
      refine ⟨so, ?_, rfl, by rwa [List.append_nil]⟩
      rw [uesLoop, if_neg (by rw [List.length_nil] at hbound ⊢; omega), List.append_nil]
    | @stop c t hpart hescape =>
      refine ⟨so, ?_, rfl, by rwa [List.append_nil]⟩
      rw [uesLoop, if_neg (by omega), List.append_nil]
    | @part c t v rest hpart hrun =>
      have hback : c ≠ 0x5C := by
        rintro rfl
        rw [husi.backslash] at hpart
        cases hpart
      have hlen := hrun.suffix.length_le
      rw [List.length_cons] at hbound hfuel hroom
      obtain ⟨so₁, hset, hlen₁, hso₁⟩ := hso.set junk (by omega)
        (hvalid c List.mem_cons_self)
      obtain ⟨so', hloop, hlen', hso'⟩ := ih h.tail hrun (by omega) hso₁
        (by rw [List.length_append, List.length_singleton]; omega)
      rw [List.append_assoc, List.singleton_append, show (vs ++ [c]).length = vs.length + [c].length from List.length_append,
        List.length_singleton] at hloop
      rw [List.append_assoc, List.singleton_append] at hso'
      refine ⟨so', ?_, hlen'.trans hlen₁, hso'⟩
      rw [uesLoop, if_pos (by omega), h.next, ok_bind]
      dsimp only
      rw [if_neg hback, hset, ok_bind, hloop]
    | @escape c n t v rest hu hrun =>
      have hunicode := h.tail.unicodeEscape
      rw [hu] at hunicode
      obtain ⟨hescape, hn⟩ := hunicode
      have hlen := hrun.suffix.length_le
      rw [List.length_drop] at hlen
      rw [List.length_cons, List.length_cons] at hbound hfuel hroom
      obtain ⟨so₁, hset, hlen₁, hso₁⟩ := hso.set junk (by omega)
        (unicodeEscape?_le hu)
      obtain ⟨so', hloop, hlen', hso'⟩ := ih (h.tail.tail.drop hn) hrun
        (by rw [List.length_drop]; omega) hso₁
        (by rw [List.length_append, List.length_singleton, List.length_drop]; omega)
      rw [List.append_assoc, List.singleton_append, show (vs ++ [c]).length = vs.length + [c].length from List.length_append,
        List.length_singleton] at hloop
      rw [List.append_assoc, List.singleton_append] at hso'
      refine ⟨so', ?_, hlen'.trans hlen₁, hso'⟩
      rw [uesLoop, if_pos (by omega), h.next, ok_bind]
      dsimp only
      rw [if_pos rfl, hescape, ok_bind]
      dsimp only
      rw [hset, ok_bind, hloop]

theorem IdentifierRun.valid (hrun : IdentifierRun usi text v rest) (hvalid : ∀ c ∈ text, c ≤ 0x10FFFF) :
    ∀ c ∈ v, c ≤ 0x10FFFF := by
  induction hrun with
  | nil => exact fun c hc => absurd hc List.not_mem_nil
  | stop => exact fun c hc => absurd hc List.not_mem_nil
  | part _ _ ih =>
    obtain ⟨hc, ht⟩ := List.forall_mem_cons.mp hvalid
    exact List.forall_mem_cons.mpr ⟨hc, ih ht⟩
  | escape hu _ ih =>
    obtain ⟨-, ht⟩ := List.forall_mem_cons.mp hvalid
    obtain ⟨-, ht⟩ := List.forall_mem_cons.mp ht
    exact List.forall_mem_cons.mpr ⟨unicodeEscape?_le hu, ih fun c hc => ht c (List.mem_of_mem_drop hc)⟩

/-- `json5_token_UES_identifier` of a run -/
theorem tokenUESIdentifier_spec (husi : usi.Documented) (h : At s start text)
    (hrun : IdentifierRun usi text v rest) :
    ∃ so, tokenUESIdentifier junk s start (s.len - rest.length) = .ok so ∧ At so 0 v := by
  have hbound := h.bound
  have hsize := h.size
  have hsuffix := hrun.suffix.length_le
  have hlen : s.len - rest.length - start = text.length - rest.length := by omega
  obtain ⟨so, hloop, hso, hfilled⟩ := @uesLoop_spec usi junk s
    ⟨s.width, s.len - rest.length - start, malloc junk ((s.len - rest.length - start) * s.width.bytes)⟩
    start (s.len + 1) start text v rest [] husi h hrun (by omega) (filled_malloc _ _)
    (Nat.le_of_eq (by rw [List.length_nil, Nat.zero_add, hlen]))
  rw [List.nil_append] at hloop hfilled
  refine ⟨_, ?_, hfilled.at (hso.trans_lt (by dsimp only; omega)) (hrun.valid h.valid)⟩
  rw [tokenUESIdentifier, show uesLoop junk s start _ (s.len + 1) start _ 0 = _ from hloop]
  rfl

/-! ## The words -/

/-- As far as `json5_unicode_string_n_equal` compares them, the word and the text are the same. -/
def Matches (w text : List Nat) : Prop :=
  if w.length ≤ text.length then w <+: text else text.dropLast <+: w

instance (w text : List Nat) : Decidable (Matches w text) :=
  inferInstanceAs (Decidable (if w.length ≤ text.length then w <+: text else text.dropLast <+: w))

/-- An element read as signed is an ASCII character if it is that one unsigned. -/
theorem signed_eq_iff {w v : Nat} (hw : 0 < w) (hc : c < 128) (hv : v < 256 ^ w) :
    (c : Int) = (v : Int).bmod (256 ^ w) ↔ c = v := by
  obtain ⟨k, rfl⟩ : ∃ k, w = k + 1 := ⟨w - 1, by omega⟩
  have hpow : 1 ≤ 256 ^ k := Nat.one_le_pow k 256 (by decide)
  rw [Nat.pow_succ] at hv ⊢
  generalize 256 ^ k = m at *
  have hmod : (v : Int) % ((m * 256 : Nat) : Int) = v := Int.emod_eq_of_lt (by omega) (by omega)
  rw [Int.bmod, hmod]
  split <;> omega

theorem Width.bytes_pos (w : Width) : 0 < w.bytes := by
  cases w <;> decide

theorem At.element (h : At s i (c :: t)) :
    Cells.read s.width.bytes i s.s = some c ∧ c < 256 ^ s.width.bytes := by
  have hread := h.read 0 c rfl
  rw [Nat.add_zero] at hread
  exact ⟨hread, Cells.read_lt h.lt hread⟩

theorem nEqualLoop_spec (h : At s i text) {w : List Nat} (hw : ∀ c ∈ w, c < 128) (hn : n ≤ text.length) :
    nEqualLoop s w i n = .ok (decide (w.take n <+: text)) := by
  induction w generalizing i text n with
  | nil =>
    rw [nEqualLoop, List.take_nil, decide_eq_true List.nil_prefix]
  | cons c w ih =>
    obtain ⟨hc, hw⟩ := List.forall_mem_cons.mp hw
    rw [nEqualLoop]
    by_cases hzero : n = 0
    · rw [if_pos hzero, hzero, List.take_zero, decide_eq_true List.nil_prefix]
    · obtain ⟨m, rfl⟩ := Nat.exists_eq_succ_of_ne_zero hzero
      cases text with
      | nil => cases hn
      | cons d t =>
        obtain ⟨hread, hlt⟩ := h.element
        have hsigned := signed_eq_iff s.width.bytes_pos hc hlt
        rw [if_neg hzero, hread]
        dsimp only
        by_cases hcd : c = d
        · subst hcd
          rw [if_neg (not_not.mpr (hsigned.mpr rfl)), Nat.succ_sub_one, ih h.tail hw (Nat.le_of_succ_le_succ hn),
            Except.ok.injEq, decide_eq_decide, List.take_succ_cons, List.prefix_cons_inj]
        · rw [if_pos (mt hsigned.mp hcd), decide_eq_false]
          rw [List.take_succ_cons, List.cons_prefix_cons]
          exact fun h => hcd h.1

/-- `json5_unicode_string_n_equal` -/
theorem nEqual_spec (h : At s i text) (htext : text ≠ []) {w : List Nat} (hw : ∀ c ∈ w, c < 128) : nEqual s i w w.length = .ok (decide (Matches w text)) := by
  have hbound := h.bound
  have hsize := h.size
  have hpos := List.length_pos_iff.mpr htext
  rw [nEqual]
  by_cases hlen : w.length ≤ text.length
  · have hmatches : Matches w text ↔ w <+: text := by rw [Matches, if_pos hlen]
    rw [if_neg (by omega), nEqualLoop_spec h hw hlen, List.take_length, Except.ok.injEq,
      decide_eq_decide, hmatches]
  · have hn : (((s.len : Int) - i - 1) % 2 ^ 64).toNat = text.length - 1 := by omega
    rw [if_pos (by omega), hn, nEqualLoop_spec h hw (Nat.sub_le _ _), Except.ok.injEq,
      decide_eq_decide, Matches, if_neg hlen, List.dropLast_eq_take]
    constructor
    · intro hbegins
      have heq := List.prefix_iff_eq_take.mp hbegins
      rw [List.length_take, Nat.min_eq_left (by omega)] at heq
      rw [← heq]
      exact List.take_prefix _ _
    · intro hbegins
      have heq := List.prefix_iff_eq_take.mp hbegins
      rw [List.length_take, Nat.min_eq_left (by omega)] at heq
      rw [← heq]
      exact List.take_prefix _ _

theorem wordAt_spec (h : At s start text) (htext : text ≠ []) (ws : List Word) :
    wordAt s start ws = .ok (ws.find? fun w => decide (Matches w.text text)) := by
  induction ws with
  | nil => rfl
  | cons w ws ih =>
    have hascii : ∀ c ∈ w.text, c < 128 := by cases w <;> decide
    rw [wordAt, nEqual_spec h htext hascii, ok_bind, List.find?_cons]
    cases decide (Matches w.text text)
    · exact ih
    · rfl

/-- What is a start of identifiers only does not go beyond the run. -/
theorem IdentifierRun.covers (husi : usi.Documented) (hrun : IdentifierRun usi text v rest) {w : List Nat}
    (hw : ∀ c ∈ w, usi.isStart c) (hbegins : w <+: text) : w.length + rest.length ≤ text.length := by
  have hpart {c : Nat} {w : List Nat} (hw : ∀ d ∈ c :: w, usi.isStart d) (hnot : usi.isPart c = false) :
      False := by
    have hc := hw c List.mem_cons_self
    rw [(Usi.isStart_of_isPart hnot).1] at hc
    cases hc
  induction hrun generalizing w with
  | nil =>
    rw [List.prefix_nil.mp hbegins]
    exact Nat.le_refl 0
  | @stop c t hnot =>
    cases w with
    | nil => exact Nat.le_of_eq (Nat.zero_add _)
    | cons d w =>
      obtain ⟨rfl, -⟩ := List.cons_prefix_cons.mp hbegins
      exact (hpart hw hnot).elim
  | @part c t v rest _ hrun ih =>
    have hlen := hrun.suffix.length_le
    cases w with
    | nil =>
      rw [List.length_nil, List.length_cons]
      omega
    | cons d w =>
      obtain ⟨-, hbegins⟩ := List.cons_prefix_cons.mp hbegins
      have hrest := ih (List.forall_mem_cons.mp hw).2 hbegins
      rw [List.length_cons, List.length_cons]
      omega
  | @escape c n t v rest _ hrun ih =>
    have hlen := hrun.suffix.length_le
    cases w with
    | nil =>
      rw [List.length_drop] at hlen
      rw [List.length_nil, List.length_cons, List.length_cons]
      omega
    | cons d w =>
      obtain ⟨rfl, -⟩ := List.cons_prefix_cons.mp hbegins
      exact (hpart hw husi.backslash).elim

theorem matches_iff (husi : usi.Documented) (hrun : IdentifierRun usi text v rest) (w : Word) :
    Matches w.text text ↔ w.text <+: text.take (text.length - rest.length) ∨
      text.length < w.text.length ∧ text.dropLast <+: w.text := by
  have hrunlen := hrun.suffix.length_le
  have hcovers := hrun.covers husi (husi.letter w)
  rw [Matches, List.prefix_take_iff]
  split
  · rename_i hlen
    rw [or_iff_left fun h => Nat.not_lt.mpr hlen h.1]
    exact ⟨fun h => ⟨h, by have := hcovers h; omega⟩, fun h => h.1⟩
  · rename_i hlen
    rw [or_iff_right fun h => hlen h.1.length_le, and_iff_right (Nat.not_le.mp hlen)]

/-- Of the words at most one is at a text that has two code points, by its first letter. -/
theorem eq_of_matches {w w' : Word} (hlen : 2 ≤ text.length) (h : Matches w'.text text)
    (hw : w.text <+: text) : w' = w := by
  have hhead {a : Word} (ha : a.text <+: text) : text.head? = a.text.head? := by
    obtain ⟨t, rfl⟩ := ha
    cases a <;> rfl
  have hhead' : text.head? = w'.text.head? := by
    rw [Matches] at h
    split at h
    · exact hhead h
    · obtain ⟨t, ht⟩ := h
      match text, hlen with
      | a :: b :: l, _ =>
        rw [← ht]
        rfl
  rw [hhead hw] at hhead'
  cases w <;> cases w' <;> first | rfl | cases hhead'

/-! ## The whole run -/

/-- The word that a run is. -/
def wordOf (run : List Nat) : Option Word := Word.all.find? fun w => w.text = run

/-- The token is that of the word that the whole run is, or else of the run decoded, and the scan is
left after the run. -/
def ByRun (usi : Usi) (junk : Nat → Nat) (s : UnicodeString) (start : Nat) (text v rest : List Nat) :
    Prop :=
  ∃ tok, tokenIdentifier usi junk s start = .ok tok ∧ tok.start = start ∧
    tok.stop + rest.length = s.len ∧
    match wordOf (text.take (text.length - rest.length)) with
    | some w => tok.value = .word w
    | none => ∃ so, tok.value = .identifier so ∧ At so 0 v

theorem mem_all (w : Word) : w ∈ Word.all := by
  cases w <;> decide

theorem wordOf_text (w : Word) : wordOf w.text = some w := by
  cases w <;> rfl

/-- A run that is a word is found, whatever follows it. -/
theorem find?_word {w : Word} (hw : w.text <+: text) :
    Word.all.find? (fun w => decide (Matches w.text text)) = some w := by
  have hlen : 2 ≤ text.length := Nat.le_trans (by cases w <;> decide) hw.length_le
  have hword : Matches w.text text := by
    rw [Matches, if_pos hw.length_le]
    exact hw
  have hpred : (fun w' : Word => decide (Matches w'.text text)) = fun w' => decide (w' = w) :=
    funext fun w' => decide_eq_decide.mpr ⟨fun h => eq_of_matches hlen h hw, fun h => h ▸ hword⟩
  rw [hpred]
  cases w <;> rfl

/-- An identifier is classified by its whole text if no UnicodeEscapeSequence is left unfinished
after the run, and the run is a word, or no word begins it and the input, if it is shorter than a
word, does not begin the word less its last code point. -/
theorem token_identifier (husi : usi.Documented) (h : At s start text)
    (hrun : IdentifierRun usi text v rest) (hne : rest ≠ text) :
    ByRun usi junk s start text v rest ↔
      ¬ [0x5C, 0x75] <+: rest ∧
        ((∃ w : Word, w.text = text.take (text.length - rest.length)) ∨
          ∀ w : Word, ¬ w.text <+: text.take (text.length - rest.length) ∧
            ¬ (text.length < w.text.length ∧ text.dropLast <+: w.text)) := by
  have hbound := h.bound
  have htext : text ≠ [] := by
    rintro rfl
    exact hne (List.suffix_nil.mp hrun.suffix)
  have hend := @identifierEnd_spec usi s start (s.len + 1) text v rest husi h hrun (by omega)
  by_cases hescape : [0x5C, 0x75] <+: rest
  · rw [if_pos hescape] at hend
    obtain ⟨wide, hwide⟩ := hend
    refine iff_of_false ?_ fun h => h.1 hescape
    rintro ⟨tok, htok, -⟩
    have hstop : Stops wide (tokenIdentifier usi junk s start) := hwide.bind _
    rw [htok] at hstop
    cases wide with
    | true => cases hstop
    | false =>
      obtain ⟨msg, hmsg⟩ := hstop
      cases hmsg
  · rw [if_neg hescape] at hend
    rw [and_iff_right hescape]
    obtain ⟨so, hues, hso⟩ := @tokenUESIdentifier_spec usi junk s start text v rest husi h hrun
    have hstop : s.len - rest.length + rest.length = s.len := by
      have hlen := hrun.suffix.length_le
      omega
    have htoken : tokenIdentifier usi junk s start = .ok ⟨start, s.len - rest.length,
        match Word.all.find? (fun w => decide (Matches w.text text)) with
        | some w => .word w
        | none => .identifier so⟩ := by
      rw [tokenIdentifier, hend, ok_bind, wordAt_spec h htext, ok_bind]
      split
      · rfl
      · rw [hues]
        rfl
    rw [ByRun, htoken]
    by_cases hword : ∃ w : Word, w.text = text.take (text.length - rest.length)
    · obtain ⟨w, hw⟩ := hword
      have hbegins : w.text <+: text := hw ▸ List.take_prefix _ _
      refine iff_of_true ⟨_, rfl, rfl, hstop, ?_⟩ (.inl ⟨w, hw⟩)
      rw [find?_word hbegins, ← hw, wordOf_text]
    · have hwordOf : wordOf (text.take (text.length - rest.length)) = none :=
        List.find?_eq_none.mpr fun w _ hw => hword ⟨w, of_decide_eq_true hw⟩
      rw [or_iff_right hword, hwordOf]
      constructor
      · rintro ⟨tok, htok, -, -, so', hvalue, -⟩ w
        have hnone : ¬ Matches w.text text := by
          intro hmatches
          cases hfind : Word.all.find? (fun w => decide (Matches w.text text)) with
          | none => exact List.find?_eq_none.mp hfind w (mem_all w) (decide_eq_true hmatches)
          | some w' =>
            rw [hfind] at htok
            cases htok
            cases hvalue
        exact not_or.mp (mt (matches_iff husi hrun w).mpr hnone)
      · intro hnone
        have hfind : Word.all.find? (fun w => decide (Matches w.text text)) = none :=
          List.find?_eq_none.mpr fun w _ hw =>
            (not_or.mpr (hnone w)) ((matches_iff husi hrun w).mp (of_decide_eq_true hw))
        rw [hfind]
        exact ⟨_, rfl, rfl, hstop, so, rfl, hso⟩

end Run

/-- The categories of ASCII letters and digits. -/
def asciiUsi : Usi where
  category c :=
    if 0x41 ≤ c ∧ c ≤ 0x5A then .Lu
    else if 0x61 ≤ c ∧ c ≤ 0x7A then .Ll
    else if 0x30 ≤ c ∧ c ≤ 0x39 then .Nd
    else if c = 0x5F then .Pc
    else .Po
  zwj c := c = 0x200D

theorem documented_asciiUsi : asciiUsi.Documented where
  letter := fun w => by cases w <;> decide
  backslash := by decide

/-- `nulls` and, at the end of the input, `x` are taken for `null`. -/
theorem null_of_others :
    tokenIdentifier asciiUsi (fun _ => 0) ⟨.oneByte, 5, [0x6E, 0x75, 0x6C, 0x6C, 0x73]⟩ 0 =
      .ok ⟨0, 5, .word .null⟩ ∧
    IdentifierRun asciiUsi [0x6E, 0x75, 0x6C, 0x6C, 0x73] [0x6E, 0x75, 0x6C, 0x6C, 0x73] [] ∧
    wordOf [0x6E, 0x75, 0x6C, 0x6C, 0x73] = none ∧
    tokenIdentifier asciiUsi (fun _ => 0) ⟨.oneByte, 1, [0x78]⟩ 0 = .ok ⟨0, 1, .word .null⟩ ∧
    IdentifierRun asciiUsi [0x78] [0x78] [] ∧ wordOf [0x78] = none :=
  ⟨rfl, .part rfl (.part rfl (.part rfl (.part rfl (.part rfl .nil)))), rfl, rfl, .part rfl .nil, rfl⟩

/-- `x:` -/
theorem token_identifier_x :
    ByRun asciiUsi (fun _ => 0) ⟨.oneByte, 2, [0x78, 0x3A]⟩ 0 [0x78, 0x3A] [0x78] [0x3A] ↔
      ¬ [0x5C, 0x75] <+: [0x3A] ∧
        ((∃ w : Word, w.text = [0x78, 0x3A].take ([0x78, 0x3A].length - [0x3A].length)) ∨
          ∀ w : Word, ¬ w.text <+: [0x78, 0x3A].take ([0x78, 0x3A].length - [0x3A].length) ∧
            ¬ ([0x78, 0x3A].length < w.text.length ∧ [0x78, 0x3A].dropLast <+: w.text)) := by
  have hat : At ⟨.oneByte, 2, [0x78, 0x3A]⟩ 0 [0x78, 0x3A] := by
    refine ⟨rfl, by decide, by decide, fun j cp hj => ?_, by decide⟩
    match j, hj with
    | 0, hj => exact hj
    | 1, hj => exact hj
  have hrun : IdentifierRun asciiUsi [0x78, 0x3A] [0x78] [0x3A] :=
    .part rfl (.stop rfl fun h => absurd h (by decide))
  exact token_identifier documented_asciiUsi hat hrun (by decide)

end Idio.Json5
