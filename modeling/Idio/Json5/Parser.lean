/-
  Json5/Parser.lean --- the parser of a JSON5 token stream.

  `json5_parse` walks a list of tokens.  `json5_parse_array` and
  `json5_parse_object` are loops over a pending state each and call
  `json5_parse_token` for the values they hold.  What is allocated and freed on the
  way is not modelled.

  The grammar `DerivesValue` is stated beside the parser and mentions none of it.
  `parse_iff` says that the parser accepts what the grammar derives and reports an
  error on everything else.
-/
import Idio.Json5.Value
import Idio.Lib.Listing

set_option autoImplicit false

namespace Idio.Json5

open Listings

/-! ## The grammar -/

/-- The token is the punctuator `p`. -/
def IsPunctuator (p : Punctuator) (t : Token) : Prop :=
  t.kind = .punctuator p

/-- A JSON5MemberName: an identifier, a literal or a string. -/
def NamesMember (t : Token) (name : MemberName) : Prop :=
  match name with
  | .string s => t.kind = .string s
  | .identifier s => t.kind = .identifier (.identifier s)
  | .null => t.kind = .identifier .null
  | .boolean b => t.kind = .identifier (.boolean b)

mutual

/-- The tokens derive a JSON5Value. -/
inductive DerivesValue : List Token → Value → Prop where
  | null {t : Token} : t.kind = .identifier .null → DerivesValue [t] .null
  | boolean {t : Token} {b : Bool} :
      t.kind = .identifier (.boolean b) → DerivesValue [t] (.boolean b)
  | string {t : Token} {s : UString} : t.kind = .string s → DerivesValue [t] (.string s)
  | number {t : Token} {n : Number} : t.kind = .number n → DerivesValue [t] (.number n)
  | array {lb rb : Token} {ts : List Token} {elements : List Value} :
      IsPunctuator .lbracket lb → IsPunctuator .rbracket rb →
      Listing DerivesValue (IsPunctuator .comma) ts elements →
      DerivesValue (lb :: (ts ++ [rb])) (.array elements)
  | object {lb rb : Token} {ts : List Token} {members : List (MemberName × Value)} :
      IsPunctuator .lbrace lb → IsPunctuator .rbrace rb →
      Listing DerivesMember (IsPunctuator .comma) ts members →
      DerivesValue (lb :: (ts ++ [rb])) (.object members)

/-- The tokens derive a JSON5Member. -/
inductive DerivesMember : List Token → MemberName × Value → Prop where
  | mk {n c : Token} {ts : List Token} {name : MemberName} {v : Value} :
      NamesMember n name → IsPunctuator .colon c → DerivesValue ts v →
      DerivesMember (n :: c :: ts) (name, v)

end

/-! ## The parser -/

/-- `json5_valid_value`: a value may begin with the token. -/
def validValue (t : Token) : Bool :=
  match t.kind with
  | .root => false
  | .identifier .null => true
  | .identifier (.boolean _) => true
  | .identifier (.identifier _) => false
  | .punctuator .lbrace => true
  | .punctuator .lbracket => true
  | .punctuator _ => false
  | .string _ => true
  | .number _ => true

/-- `enum pending_array_states` -/
inductive PendingArray where
  | value
  | commaRbracket
  deriving DecidableEq, Repr

/-- `enum pending_object_states`, with the name of the member that is being read. -/
inductive PendingObject where
  | name
  | colon (name : MemberName)
  | value (name : MemberName)
  | commaRbrace
  deriving DecidableEq, Repr

/-- The name of a member that begins with the token. -/
def memberName (t : Token) : Option MemberName :=
  match t.kind with
  | .identifier .null => some .null
  | .identifier (.boolean b) => some (.boolean b)
  | .identifier (.identifier s) => some (.identifier s)
  | .string s => some (.string s)
  | _ => none

/-- How the message of an unexpected punctuator shows it. -/
def Punctuator.text : Punctuator → String
  | .lbrace => "\x7b"
  | .rbrace => "\x7d"
  | .lbracket => "["
  | .rbracket => "]"
  | .colon => ":"
  | .comma => ","

mutual

/-- `json5_parse_token`: the value that begins with the token `ct`, and the tokens
behind it. -/
def parseToken : Nat → Token → List Token → Result (Value × List Token)
  | 0, _, _ => .error .diverges
  | fuel + 1, ct, next =>
      match ct.kind with
      | .root => jsonError "json5/parse: unexpected root token"
      | .identifier .null => .ok (.null, next)
      | .identifier (.boolean b) => .ok (.boolean b, next)
      | .identifier (.identifier _) =>
          jsonError ("json5/parse at " ++ toString ct.start ++ ": unexpected identifier")
      | .punctuator .lbrace => parseObject fuel ct.start .name [] next
      | .punctuator .lbracket => parseArray fuel ct.start .value [] next
      | .punctuator p =>
          jsonError ("json5/parse: unexpected punctuation at " ++ toString ct.start ++ ": '" ++
            p.text ++ "'")
      | .string s => .ok (.string s, next)
      | .number n => .ok (.number n, next)

/-- The loop of `json5_parse_array`, with the elements so far. -/
def parseArray : Nat → Nat → PendingArray → List Value → List Token →
    Result (Value × List Token)
  | 0, _, _, _, _ => .error .diverges
  | _ + 1, start, _, _, [] =>
      jsonError ("json5/parse array at " ++ toString start ++ ": expected ']' (no more tokens)")
  | fuel + 1, start, pending, elements, ct :: next =>
      if ct.kind = .punctuator .rbracket then
        .ok (.array elements, next)
      else
        match pending with
        | .value =>
            if validValue ct then do
              let (v, ct') ← parseToken fuel ct next
              if ct' = [] then
                jsonError ("json5/parse array at " ++ toString start ++
                  ": no more tokens: expected ']'")
              else
                parseArray fuel start .commaRbracket (elements ++ [v]) ct'
            else
              jsonError ("json5/parse array at " ++ toString start ++ ": invalid value at " ++
                toString ct.start)
        | .commaRbracket =>
            if ct.kind = .punctuator .comma then
              parseArray fuel start .value elements next
            else
              jsonError ("json5/parse array at " ++ toString start ++
                ": expected ',' or ']' at " ++ toString ct.start)

/-- The loop of `json5_parse_object`, with the members so far. -/
def parseObject : Nat → Nat → PendingObject → List (MemberName × Value) → List Token →
    Result (Value × List Token)
  | 0, _, _, _, _ => .error .diverges
  | _ + 1, start, _, _, [] =>
      jsonError ("json5/parse object at " ++ toString start ++
        ": expected '\x7d' (no more tokens)")
  | fuel + 1, start, pending, members, ct :: next =>
      if ct.kind = .punctuator .rbrace then
        -- have we closed too soon?
        if pending = .name ∨ pending = .commaRbrace then
          .ok (.object members, next)
        else
          jsonError ("json5/parse object at " ++ toString start ++
            ": expected more tokens at " ++ toString ct.start)
      else
        match pending with
        | .name =>
            match memberName ct with
            | some name => parseObject fuel start (.colon name) members next
            | none =>
                jsonError ("json5/parse object at " ++ toString start ++
                  ": MemberName: expected ECMAIdentifier|string")
        | .colon name =>
            if ct.kind = .punctuator .colon then
              parseObject fuel start (.value name) members next
            else
              jsonError ("json5/parse object at " ++ toString start ++ ": expected ':'")
        | .value name =>
            if validValue ct then do
              let (v, ct') ← parseToken fuel ct next
              if ct' = [] then
                jsonError ("json5/parse object at " ++ toString start ++ ": expected '\x7d'")
              else
                parseObject fuel start .commaRbrace (members ++ [(name, v)]) ct'
            else
              jsonError ("json5/parse object at " ++ toString start ++ ": invalid value at " ++
                toString ct.start)
        | .commaRbrace =>
            if ct.kind = .punctuator .comma ∨ ct.kind = .punctuator .rbrace then
              parseObject fuel start .name members next
            else
              jsonError ("json5/parse object at " ++ toString start ++
                ": expected ',' or '\x7d'")

end

/-- `json5_parse_token_stream` -/
def parseTokenStream (tokens : List Token) : Result (Value × List Token) :=
  match tokens with
  | [] => jsonError "json5/parse: invalid token stream"
  | root :: next =>
      if root.kind = .root then
        match next with
        | [] => jsonError "json5/parse: empty token stream"
        | ct :: next => parseToken (2 * (ct :: next).length) ct next
      else
        jsonError "json5/parse: invalid token stream"

/-- `json5_parse` -/
def json5Parse (tokens : List Token) : Result Value := do
  let (v, ct) ← parseTokenStream tokens
  match ct with
  | [] => return v
  | ct :: _ => jsonError ("json5/parse: extra tokens at " ++ toString ct.start)

/-! ## What values and members begin with -/

theorem DerivesValue.begins {us : List Token} {v : Value} (h : DerivesValue us v) :
    ∃ t ts, us = t :: ts ∧ validValue t = true := by
  cases h with
  | null ht => exact ⟨_, _, rfl, by simp [validValue, ht]⟩
  | boolean ht => exact ⟨_, _, rfl, by simp [validValue, ht]⟩
  | string ht => exact ⟨_, _, rfl, by simp [validValue, ht]⟩
  | number ht => exact ⟨_, _, rfl, by simp [validValue, ht]⟩
  | array hlb _ _ =>
    rw [IsPunctuator] at hlb
    exact ⟨_, _, rfl, by simp [validValue, hlb]⟩
  | object hlb _ _ =>
    rw [IsPunctuator] at hlb
    exact ⟨_, _, rfl, by simp [validValue, hlb]⟩

theorem not_rbracket_of_validValue {t : Token} (h : validValue t = true) :
    t.kind ≠ .punctuator .rbracket ∧ t.kind ≠ .punctuator .rbrace := by
  constructor
  · intro heq
    simp [validValue, heq] at h
  · intro heq
    simp [validValue, heq] at h

theorem memberName_eq_some {t : Token} {name : MemberName} :
    memberName t = some name ↔ NamesMember t name := by
  unfold memberName NamesMember
  cases hkind : t.kind with
  | identifier v => cases v <;> cases name <;> simp [eq_comm]
  | string s => cases name <;> simp [eq_comm]
  | root => cases name <;> simp
  | punctuator p => cases name <;> simp
  | number n => cases name <;> simp

theorem NamesMember.not_rbrace {t : Token} {name : MemberName} (h : NamesMember t name) :
    t.kind ≠ .punctuator .rbrace := by
  intro heq
  have hsome := memberName_eq_some.mpr h
  simp [memberName, heq] at hsome

/-! ## What the parser returns derives -/

/-- What the rest of an array derives at a pending state. -/
def WithinArray : PendingArray → List Token → List Value → Prop
  | .value => Listing DerivesValue (IsPunctuator .comma)
  | .commaRbracket => Behind DerivesValue (IsPunctuator .comma)

/-- What the rest of an object derives at a pending state. -/
def WithinObject : PendingObject → List Token → List (MemberName × Value) → Prop
  | .name => Listing DerivesMember (IsPunctuator .comma)
  | .colon name => fun us ms => ∃ c ts v vs ms', us = c :: (ts ++ vs) ∧ ms = (name, v) :: ms' ∧
      IsPunctuator .colon c ∧ DerivesValue ts v ∧
      Behind DerivesMember (IsPunctuator .comma) vs ms'
  | .value name => fun us ms => ∃ ts v vs ms', us = ts ++ vs ∧ ms = (name, v) :: ms' ∧
      DerivesValue ts v ∧ Behind DerivesMember (IsPunctuator .comma) vs ms'
  | .commaRbrace => Behind DerivesMember (IsPunctuator .comma)

/-- `json5_parse_token` ends: with a value that the tokens it took derive, or with an
error. -/
def TokenOutcome (fuel : Nat) : Prop :=
  ∀ ct next, 2 * (next.length + 1) ≤ fuel →
    (∃ us rest v, ct :: next = us ++ rest ∧ DerivesValue us v ∧
      parseToken fuel ct next = .ok (v, rest)) ∨ Fails (parseToken fuel ct next)

/-- The loop of `json5_parse_array` ends: behind a `]`, or with an error. -/
def ArrayOutcome (fuel : Nat) : Prop :=
  ∀ start pending elements ts, 2 * ts.length + 1 ≤ fuel →
    (∃ us rb rest vs, ts = us ++ rb :: rest ∧ IsPunctuator .rbracket rb ∧
      WithinArray pending us vs ∧
      parseArray fuel start pending elements ts = .ok (.array (elements ++ vs), rest)) ∨
    Fails (parseArray fuel start pending elements ts)

/-- The loop of `json5_parse_object` ends: behind a right brace, or with an error. -/
def ObjectOutcome (fuel : Nat) : Prop :=
  ∀ start pending members ts, 2 * ts.length + 1 ≤ fuel →
    (∃ us rb rest ms, ts = us ++ rb :: rest ∧ IsPunctuator .rbrace rb ∧
      WithinObject pending us ms ∧
      parseObject fuel start pending members ts = .ok (.object (members ++ ms), rest)) ∨
    Fails (parseObject fuel start pending members ts)

theorem tokenOutcome_succ {fuel : Nat} (harray : ArrayOutcome fuel)
    (hobject : ObjectOutcome fuel) : TokenOutcome (fuel + 1) := by
  intro ct next hfuel
  unfold parseToken
  cases hkind : ct.kind with
  | root => exact Or.inr (fails_jsonError _)
  | identifier v =>
    cases v with
    | null => exact Or.inl ⟨[ct], next, .null, rfl, .null hkind, rfl⟩
    | boolean b => exact Or.inl ⟨[ct], next, .boolean b, rfl, .boolean hkind, rfl⟩
    | identifier s => exact Or.inr (fails_jsonError _)
  | string s => exact Or.inl ⟨[ct], next, .string s, rfl, .string hkind, rfl⟩
  | number n => exact Or.inl ⟨[ct], next, .number n, rfl, .number hkind, rfl⟩
  | punctuator p =>
    cases p with
    | lbrace =>
      rcases hobject ct.start .name [] next (by omega) with
        ⟨us, rb, rest, ms, rfl, hrb, hms, heq⟩ | hfails
      · exact Or.inl ⟨ct :: (us ++ [rb]), rest, .object ms, by simp,
          .object hkind hrb hms, heq⟩
      · exact Or.inr hfails
    | lbracket =>
      rcases harray ct.start .value [] next (by omega) with
        ⟨us, rb, rest, vs, rfl, hrb, hvs, heq⟩ | hfails
      · exact Or.inl ⟨ct :: (us ++ [rb]), rest, .array vs, by simp,
          .array hkind hrb hvs, heq⟩
      · exact Or.inr hfails
    | rbrace => exact Or.inr (fails_jsonError _)
    | rbracket => exact Or.inr (fails_jsonError _)
    | colon => exact Or.inr (fails_jsonError _)
    | comma => exact Or.inr (fails_jsonError _)

/-- The tokens a value leaves are fewer. -/
theorem DerivesValue.length_rest {ct : Token} {next us rest : List Token} {v : Value}
    (h : DerivesValue us v) (heq : ct :: next = us ++ rest) : rest.length ≤ next.length := by
  obtain ⟨t, ts, rfl, -⟩ := h.begins
  have hlen := congrArg List.length heq
  simp only [List.length_cons, List.length_append] at hlen
  omega

theorem arrayOutcome_succ {fuel : Nat} (htoken : TokenOutcome fuel)
    (harray : ArrayOutcome fuel) : ArrayOutcome (fuel + 1) := by
  intro start pending elements ts hfuel
  cases ts with
  | nil => exact Or.inr (fails_jsonError _)
  | cons ct next =>
    rw [List.length_cons] at hfuel
    unfold parseArray
    by_cases hclose : ct.kind = .punctuator .rbracket
    · rw [if_pos hclose]
      refine Or.inl ⟨[], ct, next, [], rfl, hclose, ?_, by rw [List.append_nil]⟩
      cases pending with
      | value => exact .nil
      | commaRbracket => exact .nil
    · rw [if_neg hclose]
      cases pending with
      | value =>
        by_cases hvalid : validValue ct = true
        · simp only [hvalid, if_true]
          rcases htoken ct next (by omega) with ⟨us, rest, v, heq, hv, hparse⟩ | hfails
          · rw [hparse, ok_bind]
            by_cases hrest : rest = []
            · simp only [hrest, if_true]
              exact Or.inr (fails_jsonError _)
            · simp only [hrest, if_false]
              have hlen := hv.length_rest heq
              rcases harray start .commaRbracket (elements ++ [v]) rest (by omega) with
                ⟨us', rb, rest', vs, rfl, hrb, hvs, hloop⟩ | hfails
              · refine Or.inl ⟨us ++ us', rb, rest', v :: vs, ?_, hrb,
                  Listing.item hv hvs, ?_⟩
                · rw [heq, List.append_assoc]
                · rw [hloop, List.append_assoc]
                  rfl
              · exact Or.inr hfails
          · exact Or.inr (hfails.bind _)
        · simp only [hvalid]
          exact Or.inr (fails_jsonError _)
      | commaRbracket =>
        by_cases hcomma : ct.kind = .punctuator .comma
        · simp only [hcomma, if_true]
          rcases harray start .value elements next (by omega) with
            ⟨us, rb, rest, vs, rfl, hrb, hvs, hloop⟩ | hfails
          · exact Or.inl ⟨ct :: us, rb, rest, vs, rfl, hrb, .sep hcomma hvs, hloop⟩
          · exact Or.inr hfails
        · simp only [hcomma, if_false]
          exact Or.inr (fails_jsonError _)

theorem objectOutcome_succ {fuel : Nat} (htoken : TokenOutcome fuel)
    (hobject : ObjectOutcome fuel) : ObjectOutcome (fuel + 1) := by
  intro start pending members ts hfuel
  cases ts with
  | nil => exact Or.inr (fails_jsonError _)
  | cons ct next =>
    rw [List.length_cons] at hfuel
    unfold parseObject
    by_cases hclose : ct.kind = .punctuator .rbrace
    · rw [if_pos hclose]
      cases pending with
      | name =>
        rw [if_pos (Or.inl rfl)]
        exact Or.inl ⟨[], ct, next, [], rfl, hclose, .nil, by rw [List.append_nil]⟩
      | commaRbrace =>
        rw [if_pos (Or.inr rfl)]
        exact Or.inl ⟨[], ct, next, [], rfl, hclose, .nil, by rw [List.append_nil]⟩
      | colon name => exact Or.inr (fails_jsonError _)
      | value name => exact Or.inr (fails_jsonError _)
    · rw [if_neg hclose]
      cases pending with
      | name =>
        cases hname : memberName ct with
        | none => exact Or.inr (fails_jsonError _)
        | some name =>
          rcases hobject start (.colon name) members next (by omega) with
            ⟨us, rb, rest, ms, rfl, hrb, hms, hloop⟩ | hfails
          · obtain ⟨c, ts, v, vs, ms', rfl, rfl, hc, hv, hbehind⟩ := hms
            refine Or.inl ⟨ct :: c :: (ts ++ vs), rb, rest, (name, v) :: ms', rfl, hrb, ?_, hloop⟩
            exact Listing.item (.mk (memberName_eq_some.mp hname) hc hv) hbehind
          · exact Or.inr hfails
      | colon name =>
        by_cases hcolon : ct.kind = .punctuator .colon
        · simp only [hcolon, if_true]
          rcases hobject start (.value name) members next (by omega) with
            ⟨us, rb, rest, ms, rfl, hrb, hms, hloop⟩ | hfails
          · obtain ⟨ts, v, vs, ms', rfl, rfl, hv, hbehind⟩ := hms
            exact Or.inl ⟨ct :: (ts ++ vs), rb, rest, _, rfl, hrb,
              ⟨ct, ts, v, vs, ms', rfl, rfl, hcolon, hv, hbehind⟩, hloop⟩
          · exact Or.inr hfails
        · simp only [hcolon, if_false]
          exact Or.inr (fails_jsonError _)
      | value name =>
        by_cases hvalid : validValue ct = true
        · simp only [hvalid, if_true]
          rcases htoken ct next (by omega) with ⟨us, rest, v, heq, hv, hparse⟩ | hfails
          · rw [hparse, ok_bind]
            by_cases hrest : rest = []
            · simp only [hrest, if_true]
              exact Or.inr (fails_jsonError _)
            · simp only [hrest, if_false]
              have hlen := hv.length_rest heq
              rcases hobject start .commaRbrace (members ++ [(name, v)]) rest (by omega) with
                ⟨us', rb, rest', ms, rfl, hrb, hms, hloop⟩ | hfails
              · refine Or.inl ⟨us ++ us', rb, rest', (name, v) :: ms, ?_, hrb,
                  ⟨us, v, us', ms, rfl, rfl, hv, hms⟩, ?_⟩
                · rw [heq, List.append_assoc]
                · rw [hloop, List.append_assoc]
                  rfl
              · exact Or.inr hfails
          · exact Or.inr (hfails.bind _)
        · simp only [hvalid]
          exact Or.inr (fails_jsonError _)
      | commaRbrace =>
        by_cases hcomma : ct.kind = .punctuator .comma
        · simp only [hcomma, true_or, if_true]
          rcases hobject start .name members next (by omega) with
            ⟨us, rb, rest, ms, rfl, hrb, hms, hloop⟩ | hfails
          · exact Or.inl ⟨ct :: us, rb, rest, ms, rfl, hrb, .sep hcomma hms, hloop⟩
          · exact Or.inr hfails
        · simp only [hcomma, hclose, or_self, if_false]
          exact Or.inr (fails_jsonError _)

/-- Every call of the parser ends, and what it returns derives. -/
theorem parser_outcome (fuel : Nat) :
    TokenOutcome fuel ∧ ArrayOutcome fuel ∧ ObjectOutcome fuel := by
  induction fuel with
  | zero =>
    refine ⟨fun ct next h => ?_, fun start pending elements ts h => ?_,
      fun start pending members ts h => ?_⟩
    · omega
    · omega
    · omega
  | succ fuel ih =>
    obtain ⟨htoken, harray, hobject⟩ := ih
    exact ⟨tokenOutcome_succ harray hobject, arrayOutcome_succ htoken harray,
      objectOutcome_succ htoken hobject⟩

/-! ## What derives is accepted -/

/-- `json5_parse_token` accepts the derivations of fewer than `n` tokens, with
whatever stands behind them. -/
def TokenComplete (n : Nat) : Prop :=
  ∀ us v, DerivesValue us v → us.length < n → ∀ fuel ct next rest, ct :: next = us ++ rest →
    2 * (next.length + 1) ≤ fuel → parseToken fuel ct next = .ok (v, rest)

/-- A value of an array that is not its end leads to the state behind it. -/
theorem parseArray_value {n : Nat} (hcomplete : TokenComplete n) {us : List Token} {v : Value}
    (hv : DerivesValue us v) (hlt : us.length < n) {fuel start : Nat} {elements : List Value}
    {rest : List Token} (hrest : rest ≠ []) (hfuel : 2 * (us ++ rest).length + 1 ≤ fuel + 1) :
    parseArray (fuel + 1) start .value elements (us ++ rest) =
      parseArray fuel start .commaRbracket (elements ++ [v]) rest := by
  obtain ⟨t, ts, rfl, hvalid⟩ := hv.begins
  have hparse : parseToken fuel t (ts ++ rest) = .ok (v, rest) := by
    refine hcomplete _ v hv hlt fuel t (ts ++ rest) rest rfl ?_
    simp only [List.cons_append, List.length_cons] at hfuel
    omega
  rw [List.cons_append, parseArray]
  simp [(not_rbracket_of_validValue hvalid).1, hvalid, hparse, hrest]

/-- A closed array is accepted from where an element may begin and from behind one. -/
theorem parseArray_complete {n : Nat} (hcomplete : TokenComplete n) {us : List Token}
    {vs : List Value} (h : Listing DerivesValue (IsPunctuator .comma) us vs)
    (hlt : us.length < n) {rb : Token} (hrb : IsPunctuator .rbracket rb) (rest : List Token)
    (start fuel : Nat) (elements : List Value) (hfuel : 2 * (us ++ rb :: rest).length + 1 ≤ fuel) :
    parseArray fuel start .value elements (us ++ rb :: rest) =
      .ok (.array (elements ++ vs), rest) := by
  have hclose : ∀ (fuel : Nat) (pending : PendingArray) (elements : List Value),
      parseArray (fuel + 1) start pending elements (rb :: rest) = .ok (.array elements, rest) := by
    intro fuel pending elements
    rw [IsPunctuator] at hrb
    simp [parseArray, hrb]
  induction h generalizing fuel elements with
  | nil =>
    obtain ⟨fuel, rfl⟩ : ∃ f, fuel = f + 1 := ⟨fuel - 1, by omega⟩
    rw [List.nil_append, hclose, List.append_nil]
  | last hitem =>
    simp only [List.length_append, List.length_cons] at hfuel
    obtain ⟨fuel, rfl⟩ : ∃ f, fuel = f + 2 := ⟨fuel - 2, by omega⟩
    rw [parseArray_value hcomplete hitem hlt (by simp) (by simp; omega), hclose]
  | @cons ts us' v vs' c hitem hcomma _ ih =>
    rw [List.append_assoc, List.cons_append] at hfuel ⊢
    simp only [List.length_append, List.length_cons] at hfuel hlt
    obtain ⟨fuel, rfl⟩ : ∃ f, fuel = f + 2 := ⟨fuel - 2, by omega⟩
    rw [parseArray_value hcomplete hitem (by omega) (by simp) (by simp; omega)]
    have hsep : parseArray (fuel + 1) start .commaRbracket (elements ++ [v])
        (c :: (us' ++ rb :: rest)) =
        parseArray fuel start .value (elements ++ [v]) (us' ++ rb :: rest) := by
      rw [IsPunctuator] at hcomma
      simp [parseArray, hcomma]
    rw [hsep, ih (by omega) fuel (elements ++ [v]) (by simp; omega), List.append_assoc]
    rfl

/-- A member of an object leads to the state behind it. -/
theorem parseObject_member {n : Nat} (hcomplete : TokenComplete n) {us : List Token}
    {m : MemberName × Value} (hm : DerivesMember us m) (hlt : us.length < n) {fuel start : Nat}
    {members : List (MemberName × Value)} {rest : List Token} (hrest : rest ≠ [])
    (hfuel : 2 * (us ++ rest).length + 1 ≤ fuel + 3) :
    parseObject (fuel + 3) start .name members (us ++ rest) =
      parseObject fuel start .commaRbrace (members ++ [m]) rest := by
  obtain ⟨hname, hcolon, hv⟩ := hm
  rename_i nt c ts name v
  obtain ⟨t, ts, rfl, hvalid⟩ := hv.begins
  simp only [List.cons_append, List.length_cons, List.length_append] at hfuel hlt
  have hparse : parseToken fuel t (ts ++ rest) = .ok (v, rest) :=
    hcomplete _ v hv (by simp; omega) fuel t (ts ++ rest) rest rfl (by simp; omega)
  have hstart : parseObject (fuel + 3) start .name members (nt :: c :: t :: (ts ++ rest)) =
      parseObject (fuel + 2) start (.colon name) members (c :: t :: (ts ++ rest)) := by
    rw [parseObject, if_neg hname.not_rbrace]
    simp only [memberName_eq_some.mpr hname]
  have hbehindName : parseObject (fuel + 2) start (.colon name) members
      (c :: t :: (ts ++ rest)) =
      parseObject (fuel + 1) start (.value name) members (t :: (ts ++ rest)) := by
    rw [IsPunctuator] at hcolon
    simp [parseObject, hcolon]
  have hvalue : parseObject (fuel + 1) start (.value name) members (t :: (ts ++ rest)) =
      parseObject fuel start .commaRbrace (members ++ [(name, v)]) rest := by
    rw [parseObject, if_neg (not_rbracket_of_validValue hvalid).2]
    simp [hvalid, hparse, hrest]
  rw [List.cons_append, List.cons_append, List.cons_append, hstart, hbehindName, hvalue]

/-- A closed object is accepted from where a member may begin. -/
theorem parseObject_complete {n : Nat} (hcomplete : TokenComplete n) {us : List Token}
    {ms : List (MemberName × Value)}
    (h : Listing DerivesMember (IsPunctuator .comma) us ms) (hlt : us.length < n) {rb : Token}
    (hrb : IsPunctuator .rbrace rb) (rest : List Token) (start fuel : Nat)
    (members : List (MemberName × Value)) (hfuel : 2 * (us ++ rb :: rest).length + 1 ≤ fuel) :
    parseObject fuel start .name members (us ++ rb :: rest) =
      .ok (.object (members ++ ms), rest) := by
  have hclose : ∀ (fuel : Nat) (pending : PendingObject) (members : List (MemberName × Value)),
      pending = .name ∨ pending = .commaRbrace →
      parseObject (fuel + 1) start pending members (rb :: rest) = .ok (.object members, rest) := by
    intro fuel pending members hpending
    rw [IsPunctuator] at hrb
    rcases hpending with rfl | rfl
    · simp [parseObject, hrb]
    · simp [parseObject, hrb]
  have hlength : ∀ {ts : List Token} {m : MemberName × Value}, DerivesMember ts m →
      3 ≤ ts.length := by
    intro ts m hm
    obtain ⟨-, -, hv⟩ := hm
    obtain ⟨t, ts, rfl, -⟩ := hv.begins
    simp
  induction h generalizing fuel members with
  | nil =>
    obtain ⟨fuel, rfl⟩ : ∃ f, fuel = f + 1 := ⟨fuel - 1, by omega⟩
    rw [List.nil_append, hclose _ _ _ (Or.inl rfl), List.append_nil]
  | last hitem =>
    have hlong := hlength hitem
    simp only [List.length_append, List.length_cons] at hfuel
    obtain ⟨fuel, rfl⟩ : ∃ f, fuel = f + 4 := ⟨fuel - 4, by omega⟩
    rw [parseObject_member hcomplete hitem hlt (by simp) (by simp; omega),
      hclose _ _ _ (Or.inr rfl)]
  | @cons ts us' m ms' c hitem hcomma _ ih =>
    have hlong := hlength hitem
    rw [List.append_assoc, List.cons_append] at hfuel ⊢
    simp only [List.length_append, List.length_cons] at hfuel hlt
    obtain ⟨fuel, rfl⟩ : ∃ f, fuel = f + 4 := ⟨fuel - 4, by omega⟩
    rw [parseObject_member hcomplete hitem (by omega) (by simp) (by simp; omega)]
    have hsep : parseObject (fuel + 1) start .commaRbrace (members ++ [m])
        (c :: (us' ++ rb :: rest)) =
        parseObject fuel start .name (members ++ [m]) (us' ++ rb :: rest) := by
      rw [IsPunctuator] at hcomma
      simp [parseObject, hcomma]
    rw [hsep, ih (by omega) fuel (members ++ [m]) (by simp; omega), List.append_assoc]
    rfl

/-- Every derivation is accepted. -/
theorem token_complete (n : Nat) : TokenComplete n := by
  induction n with
  | zero => intro us v _ hlt; exact absurd hlt (Nat.not_lt_zero _)
  | succ n ih =>
    intro us v hv hlt fuel ct next rest heq hfuel
    obtain ⟨fuel, rfl⟩ : ∃ f, fuel = f + 1 := ⟨fuel - 1, by omega⟩
    cases hv with
    | null hkind =>
      obtain ⟨rfl, rfl⟩ : ct = _ ∧ next = rest := by simpa using heq
      simp [parseToken, hkind]
    | boolean hkind =>
      obtain ⟨rfl, rfl⟩ : ct = _ ∧ next = rest := by simpa using heq
      simp [parseToken, hkind]
    | string hkind =>
      obtain ⟨rfl, rfl⟩ : ct = _ ∧ next = rest := by simpa using heq
      simp [parseToken, hkind]
    | number hkind =>
      obtain ⟨rfl, rfl⟩ : ct = _ ∧ next = rest := by simpa using heq
      simp [parseToken, hkind]
    | @array lb rb ts elements hlb hrb hlisting =>
      obtain ⟨rfl, rfl⟩ : ct = lb ∧ next = ts ++ rb :: rest := by simpa using heq
      rw [IsPunctuator] at hlb
      simp only [List.length_cons, List.length_append] at hlt hfuel
      have hloop := parseArray_complete ih hlisting (by omega) hrb rest ct.start fuel []
        (by simp; omega)
      simp [parseToken, hlb, hloop]
    | @object lb rb ts members hlb hrb hlisting =>
      obtain ⟨rfl, rfl⟩ : ct = lb ∧ next = ts ++ rb :: rest := by simpa using heq
      rw [IsPunctuator] at hlb
      simp only [List.length_cons, List.length_append] at hlt hfuel
      have hloop := parseObject_complete ih hlisting (by omega) hrb rest ct.start fuel []
        (by simp; omega)
      simp [parseToken, hlb, hloop]

/-! ## json5_parse -/

theorem parseTokenStream_root {root : Token} (hroot : root.kind = .root) (ct : Token)
    (next : List Token) :
    parseTokenStream (root :: ct :: next) = parseToken (2 * (next.length + 1)) ct next := by
  simp only [parseTokenStream, hroot, if_true]
  rfl

/-- `json5_parse` ends: with the value that the tokens behind the root derive, or with an
error. -/
theorem json5Parse_outcome (tokens : List Token) :
    (∃ root ts v, tokens = root :: ts ∧ root.kind = .root ∧ DerivesValue ts v ∧
      json5Parse tokens = .ok v) ∨ Fails (json5Parse tokens) := by
  unfold json5Parse
  match tokens with
  | [] => exact Or.inr ((fails_jsonError _).bind _)
  | [root] =>
    refine Or.inr (Fails.bind ?_ _)
    rw [parseTokenStream]
    split
    · exact fails_jsonError _
    · exact fails_jsonError _
  | root :: ct :: next =>
    by_cases hroot : root.kind = .root
    · rw [parseTokenStream_root hroot]
      rcases (parser_outcome _).1 ct next (Nat.le_refl _) with
        ⟨us, rest, v, heq, hv, hparse⟩ | hfails
      · rw [hparse, ok_bind]
        cases rest with
        | nil =>
          rw [List.append_nil] at heq
          exact Or.inl ⟨root, ct :: next, v, rfl, hroot, heq ▸ hv, rfl⟩
        | cons t rest => exact Or.inr (fails_jsonError _)
      · exact Or.inr (hfails.bind _)
    · refine Or.inr (Fails.bind ?_ _)
      rw [parseTokenStream, if_neg hroot]
      exact fails_jsonError _

theorem json5Parse_complete {root : Token} {ts : List Token} {v : Value}
    (hroot : root.kind = .root) (hv : DerivesValue ts v) :
    json5Parse (root :: ts) = .ok v := by
  obtain ⟨t, ts', rfl, -⟩ := hv.begins
  have hparse := token_complete ((t :: ts').length + 1) _ v hv (Nat.lt_succ_self _)
    (2 * (ts'.length + 1)) t ts' [] (List.append_nil _).symm (Nat.le_refl _)
  rw [json5Parse, parseTokenStream_root hroot, hparse]
  rfl

/-- The parser accepts exactly the grammar, with the tree that is derived, and reports
an error on everything else. -/
theorem parse_iff (tokens : List Token) :
    (∀ v, json5Parse tokens = .ok v ↔
      ∃ root ts, tokens = root :: ts ∧ root.kind = .root ∧ DerivesValue ts v) ∧
    ((¬ ∃ v, json5Parse tokens = .ok v) → Fails (json5Parse tokens)) := by
  refine ⟨fun v => ⟨fun h => ?_, ?_⟩, fun h => ?_⟩
  · rcases json5Parse_outcome tokens with ⟨root, ts, w, rfl, hroot, hw, heq⟩ | ⟨msg, heq⟩
    · obtain rfl : w = v := by simpa [h] using heq.symm
      exact ⟨root, ts, rfl, hroot, hw⟩
    · rw [h] at heq
      cases heq
  · rintro ⟨root, ts, rfl, hroot, hv⟩
    exact json5Parse_complete hroot hv
  · rcases json5Parse_outcome tokens with ⟨_, _, w, _, _, _, heq⟩ | hfails
    · exact absurd ⟨w, heq⟩ h
    · exact hfails

/-- `[null,]` with its trailing comma. -/
example (i : Nat) :
    (json5Parse [⟨.root, i, i⟩, ⟨.punctuator .lbracket, i, i⟩, ⟨.identifier .null, i, i⟩,
      ⟨.punctuator .comma, i, i⟩, ⟨.punctuator .rbracket, i, i⟩]) = .ok (.array [.null]) := rfl

end Idio.Json5
