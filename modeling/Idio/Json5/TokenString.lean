/-
  Json5/TokenString.lean --- the tokens of JSON5 strings.

  `json5_token_string` looks for the closing quote first, which is how many code points
  the result is given room for, and decodes what is before it in a second pass.  The
  decoder takes some escapes that are none, and no U+2028 and U+2029 as they are.
-/
import Idio.Json5.Unicode

set_option autoImplicit false

namespace Idio.Json5

/-- A token of type `JSON5_TOKEN_STRING`. -/
structure StringToken where
  start : Nat
  stop : Nat
  value : UnicodeString
  deriving DecidableEq, Repr

section TokenString

variable (junk : Nat → Nat) (s : UnicodeString) (delim : Nat)

/-- The first pass: where the closing quote is. -/
def closingQuote : Nat → Nat → Result (Option Nat)
  | 0, _ => .error .diverges
  | fuel + 1, i =>
    if i < s.len then do
      let cp ← s.peek i
      if cp = 0x5C then do
        let cp1 ← s.peek (i + 1)
        if cp1 = unicodeInvalid then return none
        else if delim = cp1 ∨ cp1 = 0x5C then closingQuote fuel (i + 2)
        else if delim = cp then return some i
        else closingQuote fuel (i + 1)
      else if delim = cp then return some i
      else closingQuote fuel (i + 1)
    else .ok none

/-- `%#04X` -/
def hexAlternate (c : Nat) : String :=
  "0X" ++ String.ofList (((Nat.toDigits 16 c).map Char.toUpper).leftpad 2 '0')

/-- The second pass: the result and how much of it is filled, and the index after the closing
quote. -/
def stringLoop (start : Nat) : Nat → Nat → UnicodeString → Nat → Result (UnicodeString × Nat × Nat)
  | 0, _, _, _ => .error .diverges
  | fuel + 1, i, so, n =>
    if i < s.len then do
      let cp ← s.peek i
      if delim = cp then return (so, n, i + 1)
      else do
        let (r, j) ← ecmaLineTerminator s i
        match r with
        | some ecp =>
          jsonError ("json5/tokenize string at " ++ toString start ++ ": unescaped LineTerminator " ++
            hexAlternate ecp ++ " at " ++ toString j)
        | none =>
          if cp = 0x5C then do
            let (r, j) ← ecmaEscapeSequence s (i + 1)
            match r with
            | some cp => stringLoop start fuel j (← so.set junk n cp) (n + 1)
            | none => do
              let (r, j) ← ecmaLineTerminatorSequence s (i + 1)
              if r.isSome then stringLoop start fuel j so n
              else stringLoop start fuel j (← so.set junk n cp) (n + 1)
          else stringLoop start fuel j (← so.set junk n cp) (n + 1)
    else .ok (so, n, i)

/-- `json5_token_string`, at the index after the opening quote -/
def tokenString (start : Nat) : Result StringToken := do
  match ← closingQuote s delim (s.len + 1) start with
  | none => jsonError ("json5/tokenize string at " ++ toString start ++ ": unterminated")
  | some i =>
    let so := ⟨s.width, i - start, malloc junk ((i - start) * s.width.bytes)⟩
    let (so, n, stop) ← stringLoop junk s delim start (s.len + 1) start so 0
    return ⟨start, stop, { so with len := n }⟩

end TokenString

/-! ## The grammar -/

/-- A JSON5String after its opening quote: the text, its value, and what follows the closing
quote.  U+2028 and U+2029 may stand for themselves. -/
inductive JSON5String (delim : Nat) : List Nat → List Nat → List Nat → Prop where
  | close (rest : List Nat) : JSON5String delim (delim :: rest) [] rest
  | source {c : Nat} {t v rest : List Nat} : c ≠ delim → c ≠ 0x5C → c ≠ 0x0A → c ≠ 0x0D →
      JSON5String delim t v rest → JSON5String delim (c :: t) (c :: v) rest
  | escape {c n : Nat} {t v rest : List Nat} : escapeSequence? t = some (c, n) →
      JSON5String delim (t.drop n) v rest → JSON5String delim (0x5C :: t) (c :: v) rest
  | continuation {n : Nat} {t v rest : List Nat} : lineTerminatorSequence? t = some n →
      JSON5String delim (t.drop n) v rest → JSON5String delim (0x5C :: t) v rest

/-! ## What a string is made of -/

/-- An item of a string, with the code point it gives. -/
inductive Item where
  | source (c : Nat)
  /-- U+2028 or U+2029, not escaped -/
  | separator (c : Nat)
  | escape (c : Nat)
  | continuation
  /-- no EscapeSequence, but taken for a code point -/
  | lenient (c : Nat)
  /-- neither the grammar nor the code has it; `isxdigit` may be asked about a wide digit -/
  | fault (wide : Bool)
  deriving DecidableEq, Repr

/-- The grammar has it. -/
def Item.legal : Item → Bool
  | .source _ | .separator _ | .escape _ | .continuation => true
  | .lenient _ | .fault _ => false

/-- The code takes it. -/
def Item.taken : Item → Bool
  | .source _ | .escape _ | .continuation | .lenient _ => true
  | .separator _ | .fault _ => false

def Item.value : Item → Option Nat
  | .source c | .separator c | .escape c | .lenient c => some c
  | .continuation | .fault _ => none

/-- An escape that the grammar has not: a zero before a digit, a digit, of which the backslash is
left, or an `x` with less than two code points of the input after it. -/
def lenientEscape? : List Nat → Option (Nat × Nat)
  | [] => none
  | c :: t =>
    if c = 0x30 then some (0, 1)
    else if DecimalDigit c ∨ c = 0x78 ∧ t.length < 2 then some (0x5C, 1)
    else none

/-- The item at a code point, and how many more code points it has. -/
def itemAt (c : Nat) (t : List Nat) : Item × Nat :=
  if c = 0x5C then
    match escapeSequence? t, lineTerminatorSequence? t, lenientEscape? t with
    | some (v, n), _, _ => (.escape v, n)
    | none, some n, _ => (.continuation, n)
    | none, none, some (v, n) => (.lenient v, n)
    | none, none, none => (.fault (wideEscape t), 0)
  else if c = 0x0A ∨ c = 0x0D then (.fault false, 0)
  else if c = 0x2028 ∨ c = 0x2029 then (.separator c, 0)
  else (.source c, 0)

/-- The items up to the closing quote, or to the first fault. -/
def items (delim : Nat) (text : List Nat) : List Item :=
  match text with
  | [] => []
  | c :: t =>
    if c = delim then []
    else
      match itemAt c t with
      | (.fault wide, _) => [.fault wide]
      | (it, n) => it :: items delim (t.drop n)
termination_by text.length
decreasing_by
  all_goals
    rw [List.length_drop, List.length_cons]
    omega

/-- How many code points there are before the closing quote. -/
def quoteIn (delim : Nat) : List Nat → Option Nat
  | [] => none
  | c :: t =>
    if c = delim then some 0
    else if c = 0x5C then
      match t with
      | [] => none
      | d :: t =>
        if delim = d ∨ d = 0x5C then (quoteIn delim t).map (· + 2)
        else (quoteIn delim (d :: t)).map (· + 1)
    else (quoteIn delim t).map (· + 1)

section Items

variable {delim c d n k v : Nat} {t text rest vs : List Nat} {it : Item}

theorem quoteIn_cons (hc : c ≠ delim) (hc' : c ≠ 0x5C) :
    quoteIn delim (c :: t) = (quoteIn delim t).map (· + 1) := by
  cases t with
  | nil => simp [quoteIn, hc, hc']
  | cons d t => rw [quoteIn, if_neg hc, if_neg hc']

/-- What is after a backslash is passed over. -/
theorem quoteIn_backslash (hdelim : delim ≠ 0x5C) :
    quoteIn delim (0x5C :: d :: t) = (quoteIn delim t).map (· + 2) := by
  rw [quoteIn, if_neg (Ne.symm hdelim), if_pos rfl]
  split
  · rfl
  · rename_i hd
    obtain ⟨hd, hd'⟩ := not_or.mp hd
    rw [quoteIn_cons (Ne.symm hd) hd', Option.map_map]
    rfl

theorem quoteIn_append {p : List Nat} (hp : ∀ c ∈ p, c ≠ delim ∧ c ≠ 0x5C) :
    quoteIn delim (p ++ t) = (quoteIn delim t).map (· + p.length) := by
  induction p with
  | nil => rw [List.nil_append, List.length_nil]; cases quoteIn delim t <;> rfl
  | cons c p ih =>
    obtain ⟨⟨hc, hc'⟩, hp⟩ := List.forall_mem_cons.mp hp
    rw [List.cons_append, quoteIn_cons hc hc', ih hp, Option.map_map, List.length_cons]
    rfl

theorem quoteIn_hex (hdelim : delim = 0x22 ∨ delim = 0x27) (hlen : (t.take n).length = n)
    (hhex : ∀ c ∈ t.take n, HexDigit c) :
    quoteIn delim t = (quoteIn delim (t.drop n)).map (· + n) := by
  have hp : ∀ c ∈ t.take n, c ≠ delim ∧ c ≠ 0x5C := by
    intro c hc
    have hdigit := hhex c hc
    rw [HexDigit] at hdigit
    omega
  have happend := @quoteIn_append delim (t.drop n) (t.take n) hp
  rwa [List.take_append_drop, hlen] at happend

/-- The low surrogate goes with the four digits before it. -/
theorem quoteIn_low (hdelim : delim = 0x22 ∨ delim = 0x27) (h : lowSurrogate? (t.drop 4) = some v) :
    (quoteIn delim (t.drop 4)).map (· + 4) = (quoteIn delim (t.drop 10)).map (· + 10) := by
  generalize ht : t.drop 4 = l at h
  have hdrop : t.drop 10 = l.drop 6 := by rw [← ht, List.drop_drop]
  rw [lowSurrogate?] at h
  split at h
  · rename_i hlow
    rcases l with _ | ⟨a, _ | ⟨b, l⟩⟩
    · cases hlow.1
    · cases hlow.1
    · obtain ⟨hu, hlen, hhex, -⟩ := hlow
      cases hu
      have hdigits := @quoteIn_hex delim 4 l hdelim hlen hhex
      rw [hdrop, quoteIn_backslash (by omega), hdigits, Option.map_map, Option.map_map]
      rfl
  · cases h

/-- What an EscapeSequence has after its first code point is passed over. -/
theorem quoteIn_escape (hdelim : delim = 0x22 ∨ delim = 0x27)
    (h : escapeSequence? (d :: t) = some (v, n)) :
    ∃ m, n = m + 1 ∧ quoteIn delim t = (quoteIn delim (t.drop m)).map (· + m) := by
  have hzero : quoteIn delim t = (quoteIn delim (t.drop 0)).map (· + 0) := by
    rw [List.drop_zero]
    cases quoteIn delim t <;> rfl
  rw [escapeSequence?] at h
  split at h
  · cases h
    exact ⟨0, rfl, hzero⟩
  split at h
  · split at h
    · cases h
    · cases h
      exact ⟨0, rfl, hzero⟩
  split at h
  · obtain ⟨⟨v', n'⟩, hhex, heq⟩ := Option.map_eq_some_iff.mp h
    cases heq
    rw [hexEscape?] at hhex
    split at hhex
    · cases hhex
      rename_i hdigits
      exact ⟨2, rfl, quoteIn_hex hdelim hdigits.1 hdigits.2⟩
    · cases hhex
  split at h
  · obtain ⟨⟨v', n'⟩, hunicode, heq⟩ := Option.map_eq_some_iff.mp h
    cases heq
    rw [unicodeEscape?] at hunicode
    split at hunicode
    · rename_i hdigits
      have hunit := quoteIn_hex hdelim hdigits.1 hdigits.2
      split at hunicode
      · obtain ⟨ls, hlow, heq⟩ := Option.map_eq_some_iff.mp hunicode
        have hn : 10 = n' := (Prod.mk.inj heq).2
        subst hn
        exact ⟨10, rfl, hunit.trans (quoteIn_low hdelim hlow)⟩
      · cases hunicode
        exact ⟨4, rfl, hunit⟩
    · cases hunicode
  · cases h

/-- The items go on as the search for the closing quote does. -/
theorem quoteIn_item (hdelim : delim = 0x22 ∨ delim = 0x27) (hc : c ≠ delim) (hit : itemAt c t = (it, n))
    (hfault : ∀ wide, it ≠ .fault wide) :
    quoteIn delim (c :: t) = (quoteIn delim (t.drop n)).map (· + (n + 1)) := by
  rw [itemAt] at hit
  by_cases hback : c = 0x5C
  · subst hback
    rw [if_pos rfl] at hit
    cases t with
    | nil =>
      cases hit
      exact absurd rfl (hfault _)
    | cons d t =>
      rw [quoteIn_backslash (by omega)]
      split at hit
      · rename_i v m hesc
        cases hit
        obtain ⟨k, rfl, hk⟩ := quoteIn_escape hdelim hesc
        rw [List.drop_succ_cons, hk, Option.map_map]
        rfl
      · rename_i m hesc hcont
        cases hit
        rw [lineTerminatorSequence?] at hcont
        split at hcont
        · split at hcont
          · cases hcont
            obtain ⟨-, hhead⟩ := ‹d = 0x0D ∧ _›
            obtain ⟨t', rfl⟩ := List.head?_eq_some_iff.mp hhead
            rw [quoteIn_cons (by omega) (by decide), Option.map_map]
            rfl
          · cases hcont
            rfl
        · cases hcont
      · rename_i v m hesc hcont hlenient
        cases hit
        rw [lenientEscape?] at hlenient
        split at hlenient
        · cases hlenient
          rfl
        · split at hlenient
          · cases hlenient
            rfl
          · cases hlenient
      · cases hit
        exact absurd rfl (hfault _)
  · rw [if_neg hback] at hit
    have hn : n = 0 := by
      split at hit
      · exact (congrArg Prod.snd hit).symm
      · split at hit <;> exact (congrArg Prod.snd hit).symm
    rw [hn, List.drop_zero, quoteIn_cons hc hback]

theorem items_close : items delim (delim :: t) = [] := by
  rw [items, if_pos rfl]

theorem items_fault {wide : Bool} (hc : c ≠ delim) (hit : itemAt c t = (.fault wide, n)) :
    items delim (c :: t) = [.fault wide] := by
  rw [items, if_neg hc, hit]

theorem items_cons (hc : c ≠ delim) (hit : itemAt c t = (it, n)) (hfault : ∀ wide, it ≠ .fault wide) :
    items delim (c :: t) = it :: items delim (t.drop n) := by
  rw [items, if_neg hc, hit]
  cases it with
  | fault wide => exact absurd rfl (hfault wide)
  | source c => rfl
  | separator c => rfl
  | escape c => rfl
  | continuation => rfl
  | lenient c => rfl

theorem items_head (hc : c ≠ delim) (hit : itemAt c t = (it, n)) :
    ∃ its, items delim (c :: t) = it :: its := by
  cases it with
  | fault wide => exact ⟨[], items_fault hc hit⟩
  | _ => exact ⟨_, items_cons hc hit fun wide h => nomatch h⟩

theorem escapeSequence?_of_lineTerminator (h : lineTerminatorSequence? t = some n) :
    escapeSequence? t = none := by
  cases t with
  | nil => rfl
  | cons d t =>
    rw [lineTerminatorSequence?] at h
    split at h
    · rename_i hd
      rw [LineTerminator] at hd
      rcases hd with rfl | rfl | rfl | rfl <;> rfl
    · cases h

/-- The grammar goes on with the rest of the text after an item that it has. -/
theorem JSON5String.of_item (hc : c ≠ delim) (hit : itemAt c t = (it, n))
    (hlegal : it.legal) (h : JSON5String delim (t.drop n) vs rest) :
    JSON5String delim (c :: t) (it.value.toList ++ vs) rest := by
  rw [itemAt] at hit
  by_cases hback : c = 0x5C
  · subst hback
    rw [if_pos rfl] at hit
    split at hit
    · cases hit
      exact .escape ‹_› h
    · cases hit
      exact .continuation ‹_› h
    · cases hit
      cases hlegal
    · cases hit
      cases hlegal
  · rw [if_neg hback] at hit
    by_cases hline : c = 0x0A ∨ c = 0x0D
    · rw [if_pos hline] at hit
      cases hit
      cases hlegal
    · rw [if_neg hline] at hit
      obtain ⟨hlf, hcr⟩ := not_or.mp hline
      split at hit <;> (cases hit; exact .source hc hback hlf hcr h)

/-- A text of the grammar closes where the search for the quote says, and its items are legal and
give its value. -/
theorem JSON5String.items_legal (hdelim : delim = 0x22 ∨ delim = 0x27) (h : JSON5String delim text vs rest) :
    (∃ k, quoteIn delim text = some k ∧ rest = text.drop (k + 1)) ∧
      (∀ it ∈ items delim text, it.legal) ∧ vs = (items delim text).filterMap Item.value := by
  have step {c : Nat} {t vs rest : List Nat} {n : Nat} (hc : c ≠ delim) (it : Item)
      (hit : itemAt c t = (it, n)) (hlegal : it.legal)
      (ih : (∃ k, quoteIn delim (t.drop n) = some k ∧ rest = (t.drop n).drop (k + 1)) ∧
        (∀ it ∈ items delim (t.drop n), it.legal) ∧ vs = (items delim (t.drop n)).filterMap Item.value) :
      (∃ k, quoteIn delim (c :: t) = some k ∧ rest = (c :: t).drop (k + 1)) ∧
        (∀ it ∈ items delim (c :: t), it.legal) ∧
        it.value.toList ++ vs = (items delim (c :: t)).filterMap Item.value := by
    obtain ⟨⟨k, hk, rfl⟩, hall, rfl⟩ := ih
    have hfault : ∀ wide, it ≠ .fault wide := fun wide h => by
      rw [h] at hlegal
      cases hlegal
    rw [items_cons hc hit hfault, quoteIn_item hdelim hc hit hfault, hk, List.filterMap_cons]
    refine ⟨⟨k + (n + 1), rfl, ?_⟩, List.forall_mem_cons.mpr ⟨hlegal, hall⟩, ?_⟩
    · rw [List.drop_succ_cons, List.drop_drop]
      congr 1
      omega
    · cases it.value <;> rfl
  induction h with
  | close rest =>
    rw [items_close]
    exact ⟨⟨0, by cases rest <;> rw [quoteIn, if_pos rfl], rfl⟩, fun it h => absurd h List.not_mem_nil, rfl⟩
  | @source c t v rest hc hback hlf hcr _ ih =>
    have hline : ¬ (c = 0x0A ∨ c = 0x0D) := not_or.mpr ⟨hlf, hcr⟩
    by_cases hsep : c = 0x2028 ∨ c = 0x2029
    · exact step hc (.separator c) (n := 0)
        (by rw [itemAt, if_neg hback, if_neg hline, if_pos hsep]) rfl ih
    · exact step hc (.source c) (n := 0)
        (by rw [itemAt, if_neg hback, if_neg hline, if_neg hsep]) rfl ih
  | @escape c n t v rest hesc _ ih =>
    exact step (by omega) (.escape c) (by rw [itemAt, if_pos rfl, hesc]) rfl ih
  | @continuation n t v rest hcont _ ih =>
    exact step (by omega) .continuation
      (by rw [itemAt, if_pos rfl, escapeSequence?_of_lineTerminator hcont, hcont]) rfl ih

theorem JSON5String.of_items (hdelim : delim = 0x22 ∨ delim = 0x27) (hquote : quoteIn delim text = some k)
    (hlegal : ∀ it ∈ items delim text, it.legal) :
    JSON5String delim text ((items delim text).filterMap Item.value) (text.drop (k + 1)) := by
  induction hlen : text.length using Nat.strong_induction_on generalizing text k with
  | _ len ih =>
    cases text with
    | nil => cases hquote
    | cons c t =>
      by_cases hc : c = delim
      · subst hc
        have hk : quoteIn c (c :: t) = some 0 := by cases t <;> rw [quoteIn, if_pos rfl]
        rw [hk] at hquote
        cases hquote
        rw [items_close]
        exact .close t
      · cases hit : itemAt c t with
        | mk it n =>
          have hfault : ∀ wide, it ≠ .fault wide := by
            rintro wide rfl
            rw [items_fault hc hit] at hlegal
            exact absurd (hlegal _ List.mem_cons_self) Bool.false_ne_true
          rw [items_cons hc hit hfault] at hlegal ⊢
          obtain ⟨hfirst, hrest⟩ := List.forall_mem_cons.mp hlegal
          rw [quoteIn_item hdelim hc hit hfault] at hquote
          obtain ⟨k', hk', rfl⟩ := Option.map_eq_some_iff.mp hquote
          have hstring := ih (t.drop n).length
            (by rw [← hlen, List.length_drop, List.length_cons]; omega) hk' hrest rfl
          have hdrop : (c :: t).drop (k' + (n + 1) + 1) = (t.drop n).drop (k' + 1) := by
            rw [List.drop_succ_cons, List.drop_drop]
            congr 1
            omega
          have hvalue : (it :: items delim (t.drop n)).filterMap Item.value =
              it.value.toList ++ (items delim (t.drop n)).filterMap Item.value := by
            rw [List.filterMap_cons]
            cases it.value <;> rfl
          rw [hdrop, hvalue]
          exact .of_item hc hit hfirst hstring

end Items

/-! ## What the code does -/

section Code

variable {junk : Nat → Nat} {s so : UnicodeString} {delim c d n k v i j fuel start : Nat}
  {t text vs : List Nat} {it : Item}

theorem peek_next (h : At s i (c :: t)) : s.peek (i + 1) = .ok (t.headD unicodeInvalid) := by
  cases t with
  | nil => exact h.tail.peek_nil
  | cons d t => exact h.tail.peek

/-- The first pass finds the closing quote. -/
theorem closingQuote_spec (hdelim : delim = 0x22 ∨ delim = 0x27) (h : At s i text)
    (hfuel : text.length < fuel) :
    closingQuote s delim fuel i = .ok ((quoteIn delim text).map (i + ·)) := by
  induction fuel generalizing i text with
  | zero => omega
  | succ fuel ih =>
    have hbound := h.bound
    cases text with
    | nil =>
      rw [closingQuote, if_neg (by rw [← hbound]; exact Nat.lt_irrefl _)]
      rfl
    | cons c t =>
      rw [List.length_cons] at hbound hfuel
      have hnext := ih h.tail (by omega)
      have hone : (quoteIn delim t).map (i + 1 + ·) = ((quoteIn delim t).map (· + 1)).map (i + ·) := by
        rw [Option.map_map]
        exact congrArg (Option.map · _) (funext fun k => by rw [Function.comp]; omega)
      rw [closingQuote, if_pos (by omega), h.peek, ok_bind]
      by_cases hback : c = 0x5C
      · subst hback
        rw [if_pos rfl, peek_next h, ok_bind]
        cases t with
        | nil =>
          rw [List.headD_nil, if_pos rfl, quoteIn, if_neg (by omega), if_pos rfl]
          rfl
        | cons d t =>
          rw [List.headD_cons, if_neg h.tail.valid_head]
          by_cases hd : delim = d ∨ d = 0x5C
          · have htwo := ih h.tail.tail (by rw [List.length_cons] at hfuel; omega)
            rw [if_pos hd, htwo, quoteIn_backslash (by omega), Option.map_map]
            exact congrArg Except.ok (congrArg (Option.map · _)
              (funext fun k => by rw [Function.comp]; omega))
          · obtain ⟨hdelim', hd'⟩ := not_or.mp hd
            rw [if_neg hd, if_neg (by omega), hnext, quoteIn_backslash (by omega),
              quoteIn_cons (Ne.symm hdelim') hd', Option.map_map, Option.map_map]
            exact congrArg Except.ok (congrArg (Option.map · _)
              (funext fun k => by rw [Function.comp, Function.comp]; omega))
      · rw [if_neg hback]
        by_cases hc : c = delim
        · subst hc
          rw [if_pos rfl]
          cases t <;> (rw [quoteIn, if_pos rfl]; rfl)
        · rw [if_neg (Ne.symm hc), hnext, hone, quoteIn_cons hc hback]

theorem lineTerminatorSequence?_eq_none (h : lineTerminatorSequence? (d :: t) = none) :
    ¬ LineTerminator d := by
  intro hd
  rw [lineTerminatorSequence?, if_pos hd] at h
  split at h <;> cases h

theorem lineTerminator_of_sequence (h : lineTerminatorSequence? (d :: t) = some n) :
    LineTerminator d := by
  by_contra hd
  rw [lineTerminatorSequence?, if_neg hd] at h
  cases h

/-- What follows an item that is taken: its code point is stored, and the scan is after it. -/
def Follows (junk : Nat → Nat) (s so : UnicodeString) (delim start fuel i m : Nat) (it : Item) :
    Result (UnicodeString × Nat × Nat) :=
  match it.value with
  | some v => do stringLoop junk s delim start fuel i (← so.set junk m v) (m + 1)
  | none => stringLoop junk s delim start fuel i so m

/-- An escape in the loop. -/
theorem stringLoop_escape (h : At s i (0x5C :: d :: t)) (hdelim : delim ≠ 0x5C)
    (hit : itemAt 0x5C (d :: t) = (it, n)) (m : Nat) :
    if it.taken then stringLoop junk s delim start (fuel + 1) i so m =
      Follows junk s so delim start fuel (i + 1 + n) m it
    else Stops (it == .fault true) (stringLoop junk s delim start (fuel + 1) i so m) := by
  have hbound := h.bound
  rw [List.length_cons] at hbound
  have hnot : ¬ LineTerminator 0x5C := by decide
  have hescape := h.tail.escapeSequence
  have hline := h.tail.lineTerminatorSequence
  rw [stringLoop, if_pos (show i < s.len by omega), h.peek, ok_bind, if_neg hdelim, h.lineTerminator,
    ok_bind, if_neg hnot]
  dsimp only
  rw [if_pos (show 0x5C = 0x5C from rfl)]
  rw [itemAt, if_pos rfl] at hit
  split at hit
  · rename_i v k hesc
    cases hit
    rw [hesc] at hescape
    rw [hescape.1]
    rfl
  · rename_i k hesc hcont
    cases hit
    have hd := lineTerminator_of_sequence hcont
    have hd0 : d ≠ 0x30 := by
      rintro rfl
      exact absurd hd (by decide)
    rw [hesc] at hescape
    dsimp only at hescape
    rw [if_neg hd0, if_pos (.inr (.inl hd))] at hescape
    rw [hcont] at hline
    rw [hescape, ok_bind]
    dsimp only
    rw [hline.1]
    rfl
  · rename_i v k hesc hcont hlenient
    cases hit
    rw [hesc] at hescape
    dsimp only at hescape
    rw [hcont] at hline
    rw [lenientEscape?] at hlenient
    by_cases hd0 : d = 0x30
    · rw [if_pos hd0] at hescape hlenient
      cases hlenient
      rw [hescape]
      rfl
    · rw [if_neg hd0] at hescape hlenient
      by_cases hd : DecimalDigit d ∨ d = 0x78 ∧ t.length < 2
      · rw [if_pos hd] at hlenient
        cases hlenient
        rw [if_pos (hd.imp_right .inr)] at hescape
        rw [hescape, ok_bind]
        dsimp only
        rw [hline]
        rfl
      · rw [if_neg hd] at hlenient
        cases hlenient
  · rename_i hesc hcont hlenient
    cases hit
    rw [hesc] at hescape
    dsimp only at hescape
    rw [lenientEscape?] at hlenient
    have hd0 : d ≠ 0x30 := by
      intro hd0
      rw [if_pos hd0] at hlenient
      cases hlenient
    have hd : ¬ (DecimalDigit d ∨ LineTerminator d ∨ d = 0x78 ∧ t.length < 2) := by
      rintro (hd | hd | hd)
      · rw [if_neg hd0, if_pos (.inl hd)] at hlenient
        cases hlenient
      · exact lineTerminatorSequence?_eq_none hcont hd
      · rw [if_neg hd0, if_pos (.inr hd)] at hlenient
        cases hlenient
    rw [if_neg hd0, if_neg hd] at hescape
    have hwide : ((Item.fault (wideEscape (d :: t))) == .fault true) = wideEscape (d :: t) := by
      cases wideEscape (d :: t) <;> rfl
    rw [hwide]
    exact hescape.bind _

/-- Any other item in the loop. -/
theorem stringLoop_source (h : At s i (c :: t)) (hc : c ≠ delim) (hback : c ≠ 0x5C)
    (hit : itemAt c t = (it, n)) (m : Nat) :
    if it.taken then stringLoop junk s delim start (fuel + 1) i so m =
      Follows junk s so delim start fuel (i + 1 + n) m it
    else Stops (it == .fault true) (stringLoop junk s delim start (fuel + 1) i so m) := by
  have hbound := h.bound
  rw [List.length_cons] at hbound
  rw [stringLoop, if_pos (show i < s.len by omega), h.peek, ok_bind, if_neg (Ne.symm hc),
    h.lineTerminator, ok_bind]
  rw [itemAt, if_neg hback] at hit
  by_cases hline : c = 0x0A ∨ c = 0x0D
  · rw [if_pos hline] at hit
    cases hit
    rw [if_pos (show LineTerminator c from hline.imp_right .inl)]
    exact stops_jsonError _
  rw [if_neg hline] at hit
  by_cases hsep : c = 0x2028 ∨ c = 0x2029
  · rw [if_pos hsep] at hit
    cases hit
    rw [if_pos (show LineTerminator c from .inr (.inr hsep))]
    exact stops_jsonError _
  · rw [if_neg hsep] at hit
    cases hit
    have hnot : ¬ LineTerminator c := by
      rw [LineTerminator]
      tauto
    rw [if_neg hnot]
    dsimp only
    rw [if_neg hback]
    rfl

/-- An item that is not the closing quote. -/
theorem stringLoop_item (h : At s i (c :: t)) (hdelim : delim ≠ 0x5C) (hc : c ≠ delim) (ht : t ≠ [])
    (hit : itemAt c t = (it, n)) (m : Nat) :
    if it.taken then stringLoop junk s delim start (fuel + 1) i so m =
      Follows junk s so delim start fuel (i + 1 + n) m it
    else Stops (it == .fault true) (stringLoop junk s delim start (fuel + 1) i so m) := by
  by_cases hback : c = 0x5C
  · subst hback
    obtain ⟨d, t, rfl⟩ := List.exists_cons_of_ne_nil ht
    exact stringLoop_escape h hdelim hit m
  · exact stringLoop_source h hc hback hit m

theorem itemAt_le (hit : itemAt c t = (it, n)) (hall : ∀ d ∈ c :: t, d ≤ 0x10FFFF) {v : Nat}
    (hv : it.value = some v) : v ≤ 0x10FFFF := by
  obtain ⟨hc, ht⟩ := List.forall_mem_cons.mp hall
  rw [itemAt] at hit
  split at hit
  · split at hit
    · cases hit
      cases hv
      exact escapeSequence?_le ‹_› ht
    · cases hit
      cases hv
    · rename_i hlenient
      cases hit
      cases hv
      cases t with
      | nil => cases hlenient
      | cons d t =>
        rw [lenientEscape?] at hlenient
        split at hlenient
        · cases hlenient
          exact Nat.zero_le _
        · split at hlenient
          · have hv := (Prod.mk.inj (Option.some.inj hlenient)).1
            omega
          · cases hlenient
    · cases hit
      cases hv
  · split at hit
    · cases hit
      cases hv
    · split at hit
      · cases hit
        cases hv
        exact hc
      · cases hit
        cases hv
        exact hc

theorem items_le (hall : ∀ d ∈ text, d ≤ 0x10FFFF) :
    ∀ v ∈ (items delim text).filterMap Item.value, v ≤ 0x10FFFF := by
  induction hlen : text.length using Nat.strong_induction_on generalizing text with
  | _ len ih =>
    cases text with
    | nil =>
      rw [items]
      exact fun v hv => absurd hv List.not_mem_nil
    | cons c t =>
      by_cases hc : c = delim
      · rw [hc, items_close]
        exact fun v hv => absurd hv List.not_mem_nil
      · cases hit : itemAt c t with
        | mk it n =>
          have hrest := ih (t.drop n).length
            (by rw [← hlen, List.length_drop, List.length_cons]; omega)
            (fun d hd => hall d (List.mem_cons_of_mem c (List.mem_of_mem_drop hd))) rfl
          intro v hv
          obtain ⟨it', hmem, hvalue⟩ := List.mem_filterMap.mp hv
          by_cases hfault : ∃ wide, it = .fault wide
          · obtain ⟨wide, rfl⟩ := hfault
            rw [items_fault hc hit] at hmem
            rw [List.mem_singleton.mp hmem] at hvalue
            cases hvalue
          · rw [items_cons hc hit fun wide h => hfault ⟨wide, h⟩] at hmem
            rcases List.mem_cons.mp hmem with rfl | hmem
            · exact itemAt_le hit hall hvalue
            · exact hrest v (List.mem_filterMap.mpr ⟨it', hmem, hvalue⟩)

theorem quoteIn_lt (h : quoteIn delim text = some k) : k < text.length := by
  fun_induction quoteIn delim text generalizing k with
  | case1 => cases h
  | case2 => 
    cases h
    exact Nat.succ_pos _
  | case3 => cases h
  | case4 _ d t hd ih =>
    obtain ⟨k', hk', rfl⟩ := Option.map_eq_some_iff.mp h
    exact Nat.succ_lt_succ (Nat.succ_lt_succ (ih hk'))
  | case5 _ d t hd ih =>
    obtain ⟨k', hk', rfl⟩ := Option.map_eq_some_iff.mp h
    exact Nat.succ_lt_succ (ih hk')
  | case6 c t hc hback ih =>
    obtain ⟨k', hk', rfl⟩ := Option.map_eq_some_iff.mp h
    exact Nat.succ_lt_succ (ih hk')

/-- What the second pass makes of a string that has a closing quote. -/
theorem stringLoop_spec (hdelim : delim = 0x22 ∨ delim = 0x27) (h : At s i text)
    (hquote : quoteIn delim text = some k) (hfuel : text.length < fuel) (hso : Filled so vs)
    (hroom : vs.length + k ≤ so.len) :
    if ∀ it ∈ items delim text, it.taken then
      ∃ so', stringLoop junk s delim start fuel i so vs.length =
          .ok (so', (vs ++ (items delim text).filterMap Item.value).length, i + k + 1) ∧
        so'.len = so.len ∧ Filled so' (vs ++ (items delim text).filterMap Item.value)
    else
      Stops ((items delim text).find? (fun it => !it.taken) == some (.fault true))
        (stringLoop junk s delim start fuel i so vs.length) := by
  induction fuel generalizing i text k so vs with
  | zero => omega
  | succ fuel ih =>
    cases text with
    | nil => cases hquote
    | cons c t =>
      have hbound := h.bound
      rw [List.length_cons] at hbound hfuel
      by_cases hc : c = delim
      · subst hc
        have hk : quoteIn c (c :: t) = some 0 := by cases t <;> rw [quoteIn, if_pos rfl]
        rw [hk] at hquote
        cases hquote
        rw [items_close, if_pos fun it hit => absurd hit List.not_mem_nil]
        refine ⟨so, ?_, rfl, by rwa [List.filterMap_nil, List.append_nil]⟩
        rw [stringLoop, if_pos (by omega), h.peek, ok_bind, if_pos rfl, List.filterMap_nil,
          List.append_nil]
        rfl
      · have ht : t ≠ [] := by
          rintro rfl
          simp [quoteIn, hc] at hquote
        cases hit : itemAt c t with
        | mk it n =>
          have hstep := @stringLoop_item junk s so delim c n i fuel start t it h (by omega) hc ht hit
            vs.length
          by_cases htaken : it.taken
          · have hfault : ∀ wide, it ≠ .fault wide := fun wide h => by
              rw [h] at htaken
              cases htaken
            rw [if_pos htaken] at hstep
            rw [quoteIn_item hdelim hc hit hfault] at hquote
            obtain ⟨k', hk', rfl⟩ := Option.map_eq_some_iff.mp hquote
            rw [items_cons hc hit hfault, hstep, Follows]
            have hn : n ≤ t.length := by
              by_contra hn
              rw [List.drop_of_length_le (by omega)] at hk'
              cases hk'
            have hrest := h.tail.drop hn
            have hlen : (t.drop n).length < fuel := by
              rw [List.length_drop]
              omega
            have hindex : i + 1 + n + k' + 1 = i + (k' + (n + 1)) + 1 := by omega
            have hall : (∀ it' ∈ it :: items delim (t.drop n), it'.taken) ↔
                ∀ it' ∈ items delim (t.drop n), it'.taken :=
              List.forall_mem_cons.trans (and_iff_right htaken)
            have hfind : (it :: items delim (t.drop n)).find? (fun it => !it.taken) =
                (items delim (t.drop n)).find? (fun it => !it.taken) :=
              List.find?_cons_of_neg (by rw [htaken]; exact Bool.false_ne_true)
            rw [hfind]
            simp only [hall]
            cases hv : it.value with
            | none =>
              have hrun := ih hrest hk' hlen hso (by omega)
              rw [hindex] at hrun
              rwa [List.filterMap_cons_none hv]
            | some v =>
              obtain ⟨so₁, hset, hlen₁, hso₁⟩ := hso.set junk (by omega)
                (itemAt_le hit h.valid hv)
              have hrun := ih hrest hk' hlen hso₁
                (by rw [List.length_append, List.length_singleton]; omega)
              rw [hindex, List.append_assoc, List.singleton_append, show (vs ++ [v]).length = vs.length + [v].length from List.length_append,
                List.length_singleton, hlen₁] at hrun
              rw [List.filterMap_cons_some hv]
              dsimp only
              rw [hset, ok_bind]
              exact hrun
          · rw [if_neg htaken] at hstep
            obtain ⟨its, hits⟩ := items_head hc hit
            rw [hits, if_neg fun hall => htaken (hall it List.mem_cons_self),
              List.find?_cons_of_pos (by rw [Bool.not_eq_true] at htaken; rw [htaken]; rfl)]
            exact hstep

/-- The first item that is not taken is a fault where `isxdigit` is asked about a wide digit. -/
def WideFault (its : List Item) : Prop := its.find? (fun it => !it.taken) = some (.fault true)

instance : DecidablePred WideFault := fun its =>
  inferInstanceAs (Decidable (its.find? (fun it => !it.taken) = some (.fault true)))

theorem WideFault.not_taken {its : List Item} (h : WideFault its) : ¬ ∀ it ∈ its, it.taken :=
  fun hall => absurd (hall _ (List.mem_of_find?_eq_some h)) Bool.false_ne_true

/-- A string without a closing quote is an error. -/
theorem tokenString_open (hdelim : delim = 0x22 ∨ delim = 0x27) (h : At s start text)
    (hquote : quoteIn delim text = none) : Fails (tokenString junk s delim start) := by
  have hbound := h.bound
  rw [tokenString, closingQuote_spec hdelim h (by omega), ok_bind, hquote]
  exact fails_jsonError _

theorem tokenString_closed (hdelim : delim = 0x22 ∨ delim = 0x27) (h : At s start text)
    (hquote : quoteIn delim text = some k) :
    if ∀ it ∈ items delim text, it.taken then
      ∃ tok, tokenString junk s delim start = .ok tok ∧ tok.start = start ∧ tok.stop = start + k + 1 ∧
        At tok.value 0 ((items delim text).filterMap Item.value)
    else if WideFault (items delim text) then tokenString junk s delim start = .error .undefined
    else Fails (tokenString junk s delim start) := by
  have hbound := h.bound
  have hpass : closingQuote s delim (s.len + 1) start = .ok (some (start + k)) := by
    rw [closingQuote_spec hdelim h (by omega), hquote]
    rfl
  have hlen : start + k - start = k := Nat.add_sub_cancel_left start k
  have hloop := @stringLoop_spec junk s ⟨s.width, k, malloc junk (k * s.width.bytes)⟩ delim k start
    (s.len + 1) start text [] hdelim h hquote (by omega) (filled_malloc s.width k)
    (Nat.le_of_eq (Nat.zero_add k))
  rw [List.nil_append, List.length_nil] at hloop
  rw [tokenString, hpass, ok_bind]
  dsimp only
  rw [hlen]
  split
  · rename_i hall
    rw [if_pos hall] at hloop
    obtain ⟨so, hrun, hso, hfilled⟩ := hloop
    have hsize := h.size
    have hk := quoteIn_lt hquote
    rw [hrun]
    exact ⟨_, rfl, rfl, rfl, hfilled.at (hso.trans_lt (by dsimp only; omega)) (items_le h.valid)⟩
  · rename_i hall
    rw [if_neg hall] at hloop
    split
    · rename_i hwide
      rw [hwide] at hloop
      rw [show stringLoop junk s delim start (s.len + 1) start _ 0 = .error .undefined from hloop]
      rfl
    · rename_i hwide
      rw [beq_eq_false_iff_ne.mpr hwide] at hloop
      exact Fails.bind hloop _

/-! ## The tokens of the grammar -/

/-- The tokens of the texts of the grammar, and an error for any other text. -/
def ByGrammar (junk : Nat → Nat) (s : UnicodeString) (delim start : Nat) (text : List Nat) : Prop :=
  (∀ vs rest, JSON5String delim text vs rest →
    ∃ tok, tokenString junk s delim start = .ok tok ∧ tok.start = start ∧
      tok.stop + rest.length = s.len ∧ At tok.value 0 vs) ∧
  ((¬ ∃ vs rest, JSON5String delim text vs rest) → Fails (tokenString junk s delim start))

theorem byGrammar_legal (hdelim : delim = 0x22 ∨ delim = 0x27) (h : At s start text)
    (hquote : quoteIn delim text = some k) (hlegal : ∀ it ∈ items delim text, it.legal) :
    ByGrammar junk s delim start text ↔ ∀ it ∈ items delim text, it.taken := by
  have hstring := JSON5String.of_items hdelim hquote hlegal
  have hclosed := @tokenString_closed junk s delim k start text hdelim h hquote
  have hbound := h.bound
  have hk := quoteIn_lt hquote
  constructor
  · rintro ⟨haccept, -⟩
    obtain ⟨tok, htok, -⟩ := haccept _ _ hstring
    by_contra hall
    rw [if_neg hall, htok] at hclosed
    split at hclosed
    · cases hclosed
    · obtain ⟨msg, hmsg⟩ := hclosed
      cases hmsg
  · intro hall
    rw [if_pos hall] at hclosed
    obtain ⟨tok, htok, hstart, hstop, hvalue⟩ := hclosed
    refine ⟨fun vs rest hvs => ?_, fun hno => absurd ⟨_, _, hstring⟩ hno⟩
    obtain ⟨⟨k', hk', rfl⟩, -, rfl⟩ := hvs.items_legal hdelim
    rw [hquote] at hk'
    cases hk'
    refine ⟨tok, htok, hstart, ?_, hvalue⟩
    rw [hstop, List.length_drop]
    omega

theorem byGrammar_not_legal (hdelim : delim = 0x22 ∨ delim = 0x27) (h : At s start text)
    (hquote : quoteIn delim text = some k) (hlegal : ¬ ∀ it ∈ items delim text, it.legal) :
    ByGrammar junk s delim start text ↔
      (¬ ∀ it ∈ items delim text, it.taken) ∧ ¬ WideFault (items delim text) := by
  have hno : ∀ vs rest, ¬ JSON5String delim text vs rest :=
    fun vs rest hvs => hlegal (hvs.items_legal hdelim).2.1
  have hclosed := @tokenString_closed junk s delim k start text hdelim h hquote
  constructor
  · rintro ⟨-, hreject⟩
    obtain ⟨msg, hmsg⟩ := hreject fun ⟨vs, rest, hvs⟩ => hno vs rest hvs
    by_cases hall : ∀ it ∈ items delim text, it.taken
    · rw [if_pos hall, hmsg] at hclosed
      obtain ⟨tok, htok, -⟩ := hclosed
      cases htok
    · rw [if_neg hall, hmsg] at hclosed
      refine ⟨hall, fun hwide => ?_⟩
      rw [if_pos hwide] at hclosed
      cases hclosed
  · rintro ⟨hall, hwide⟩
    rw [if_neg hall, if_neg hwide] at hclosed
    exact ⟨fun vs rest hvs => absurd hvs (hno vs rest), fun _ => hclosed⟩

/-- Strings decode by the grammar if they are not closed, or if they have a bare U+2028 or U+2029
just when they have a lenient escape (or a fault, but not one with a wide digit); memory is never
touched that is not the result's. -/
theorem token_string (hdelim : delim = 0x22 ∨ delim = 0x27) (h : At s start text) :
    (ByGrammar junk s delim start text ↔
      quoteIn delim text = none ∨ ¬ WideFault (items delim text) ∧
        ((∀ it ∈ items delim text, it.legal) ↔ ∀ it ∈ items delim text, it.taken)) ∧
    (tokenString junk s delim start = .error .undefined ↔
      quoteIn delim text ≠ none ∧ WideFault (items delim text)) := by
  cases hquote : quoteIn delim text with
  | none =>
    have hopen := @tokenString_open junk s delim start text hdelim h hquote
    refine ⟨⟨fun _ => .inl rfl, fun _ => ⟨fun vs rest hvs => ?_, fun _ => hopen⟩⟩, ?_⟩
    · obtain ⟨⟨k, hk, -⟩, -⟩ := hvs.items_legal hdelim
      rw [hquote] at hk
      cases hk
    · obtain ⟨msg, hmsg⟩ := hopen
      rw [hmsg]
      exact ⟨fun h => (nomatch h), fun h => absurd rfl h.1⟩
  | some k =>
    have hclosed := @tokenString_closed junk s delim k start text hdelim h hquote
    constructor
    · rw [or_iff_right (Option.some_ne_none k)]
      by_cases hlegal : ∀ it ∈ items delim text, it.legal
      · rw [byGrammar_legal hdelim h hquote hlegal, iff_true_left hlegal, iff_and_self]
        exact fun hall hwide => hwide.not_taken hall
      · rw [byGrammar_not_legal hdelim h hquote hlegal, iff_false_left hlegal, and_comm]
    · rw [and_iff_right (Option.some_ne_none k)]
      by_cases hall : ∀ it ∈ items delim text, it.taken
      · rw [if_pos hall] at hclosed
        obtain ⟨tok, htok, -⟩ := hclosed
        rw [htok]
        exact ⟨fun h => (nomatch h), fun hwide => absurd hall hwide.not_taken⟩
      · rw [if_neg hall] at hclosed
        split at hclosed
        · exact iff_of_true hclosed ‹_›
        · obtain ⟨msg, hmsg⟩ := hclosed
          rw [hmsg]
          exact ⟨fun h => (nomatch h), fun hwide => absurd hwide ‹_›⟩

end Code

/-- `'\1'` is taken for a backslash, and a U+2028 on its own is an error. -/
theorem token_string_digit :
    (∃ tok, tokenString (fun _ => 0) ⟨.oneByte, 4, [0x27, 0x5C, 0x31, 0x27]⟩ 0x27 1 = .ok tok ∧
      tok.stop = 4 ∧ tok.value.len = 1 ∧ tok.value.peek 0 = .ok 0x5C) ∧
    (¬ ∃ vs rest, JSON5String 0x27 [0x5C, 0x31, 0x27] vs rest) ∧
    tokenString (fun _ => 0) ⟨.twoByte, 3, [0x27, 0, 0x28, 0x20, 0x27, 0]⟩ 0x27 1 =
      jsonError "json5/tokenize string at 1: unescaped LineTerminator 0X2028 at 2" ∧
    JSON5String 0x27 [0x2028, 0x27] [0x2028] [] := by
  refine ⟨⟨_, rfl, rfl, rfl, rfl⟩, ?_, rfl, ?_⟩
  · rintro ⟨vs, rest, h⟩
    cases h with
    | source hc hback => exact absurd rfl hback
    | escape hesc => cases hesc
    | continuation hcont => cases hcont
  · exact .source (by decide) (by decide) (by decide) (by decide) (.close [])

/-- `'\n'` -/
theorem token_string_newline :
    (ByGrammar (fun _ => 0) ⟨.oneByte, 4, [0x27, 0x5C, 0x6E, 0x27]⟩ 0x27 1 [0x5C, 0x6E, 0x27] ↔
      quoteIn 0x27 [0x5C, 0x6E, 0x27] = none ∨ ¬ WideFault (items 0x27 [0x5C, 0x6E, 0x27]) ∧
        ((∀ it ∈ items 0x27 [0x5C, 0x6E, 0x27], it.legal) ↔
          ∀ it ∈ items 0x27 [0x5C, 0x6E, 0x27], it.taken)) ∧
    (tokenString (fun _ => 0) ⟨.oneByte, 4, [0x27, 0x5C, 0x6E, 0x27]⟩ 0x27 1 = .error .undefined ↔
      quoteIn 0x27 [0x5C, 0x6E, 0x27] ≠ none ∧ WideFault (items 0x27 [0x5C, 0x6E, 0x27])) := by
  refine token_string (.inr rfl) ⟨rfl, by decide, by decide, fun j cp hj => ?_, by decide⟩
  match j, hj with
  | 0, hj => exact hj
  | 1, hj => exact hj
  | 2, hj => exact hj

end Idio.Json5
