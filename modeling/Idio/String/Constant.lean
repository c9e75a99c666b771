/-
  String/Constant.lean --- constant strings.

  The reader and the code generator set `IDIO_FLAG_CONST` on a string; `string-set!`
  and `string-fill!` look at the flag of the value they are given.  A substring has
  no such flag of its own when it is made and shares the storage of its parent, so a
  constant string stays as it is as long as nothing is written through a value
  without the flag to a position that it covers.

  Nothing here depends on what the strings hold: all flags of strings are admitted,
  and every store to begin with.
-/
import Idio.String.Texts

set_option autoImplicit false

namespace Idio

/-- The strings there are and the values among them that have `IDIO_FLAG_CONST`. -/
structure ConstStrings where
  strings : Strings
  const : List Nat
  deriving DecidableEq, Repr

/-! ## The operations -/

/-- `idio_strspn`: how many code points from `i` on are among `as`. -/
def strspn (is as : List Nat) (i : Nat) : Nat :=
  ((is.drop i).takeWhile fun icp => as.contains icp).length

/-- `idio_strpbrk`: the first position from `i` on with a code point of `as`; `none` is
`IDIO_STRING_STRPBRK_SENTINEL`. -/
def strpbrk (is as : List Nat) (i : Nat) : Option Nat :=
  ((is.drop i).findIdx? fun icp => as.contains icp).map (i + ·)

/-- `idio_string_token`: the start and the length of the token from `i` on, and `saved`.
`none` is `IDIO_STRING_TOKEN_SENTINEL`. -/
def stringToken (is ds : List Nat) (exact : Bool) (i : Nat) : Option (Nat × Nat) × Option Nat :=
  let i := if exact then i else i + strspn is ds i
  if i ≥ is.length then (none, none)
  else
    match strpbrk is ds i with
    | none => (some (i, is.length - i), none)
    | some start => (some (i, start - i), some (start + 1))

/-- The loop of `idio_split_string`, which starts the next token at `i`. -/
def Strings.splitLoop (is ds : List Nat) (exact : Bool) (str : Nat) :
    Nat → Option Nat → Strings → List Nat → Result (List Nat × Strings)
  | 0, _, _, _ => .error .diverges
  | _ + 1, none, st, r => .ok (r, st)
  | fuel + 1, some i, st, r =>
      match stringToken is ds exact i with
      | (none, _) => .ok (r, st)
      | (some (start, len), saved) =>
          if !exact && len = 0 then .ok (r, st)
          else do
            let (subs, st) ← st.substringOffsetLen str start len
            splitLoop is ds exact str fuel saved st (r ++ [subs])

/-- `idio_split_string`: the values in the list, or in the array, that it returns. -/
def Strings.splitString (st : Strings) (str delim : Nat) (exact array : Bool) :
    Result (List Nat × Strings) := do
  let is ← st.string2list str
  let ds ← st.string2list delim
  if is = [] then .ok ([str], st)
  else if ds = [] then .ok ([str], st)
  else st.splitLoop is ds exact str (is.length + 1) (some 0) (if array then [str] else [])

/-- The symbols `strip-string` takes for its ends. -/
inductive StripEnds where
  | left
  | right
  | both
  | none
  | other
  deriving DecidableEq, Repr

/-- `idio_strip_string` -/
def Strings.stripString (st : Strings) (str discard : Nat) (ends : StripEnds) :
    Result (Nat × Strings) := do
  let ss ← st.string2list str
  let ds ← st.string2list discard
  let strip (left right : Bool) : Result (Nat × Strings) :=
    let rso := if left then strspn ss ds 0 else 0
    if left && rso = ss.length then st.substringOffsetLen str 0 0
    else
      -- `reo - rso + 1`
      let len := if right then
          ((ss.drop rso).reverse.dropWhile fun scp => ds.contains scp).length
        else ss.length - rso
      st.substringOffsetLen str rso len
  if ss = [] then .ok (str, st)
  else if ds = [] then .ok (str, st)
  else
    match ends with
    | .left => strip true false
    | .right => strip false true
    | .both => strip true true
    | .none => .ok (str, st)
    | .other => .error (.paramValue "strip-string" "ends" "should be 'left, 'right, 'both or 'none")

namespace ConstStrings

/-- `IDIO_ASSERT_NOT_CONST (string, s)` -/
def assertNotConst (σ : ConstStrings) (s : Nat) : Result Unit :=
  if s ∈ σ.const then .error (.constParam "string") else .ok ()

/-- `idio_string_set`, with its look at the flag. -/
def stringSet (σ : ConstStrings) (s : Nat) (index : Int) (c : CodePoint) :
    Result ConstStrings := do
  σ.assertNotConst s
  let strings ← σ.strings.stringSet s index c
  return { σ with strings }

/-- The loop of `string-fill!`, `n` code points left. -/
def fillLoop (s : Nat) (slen : Nat) (fill : CodePoint) : Nat → ConstStrings → Result ConstStrings
  | 0, σ => .ok σ
  | n + 1, σ => do fillLoop s slen fill n (← σ.stringSet s (slen - (n + 1) : Nat) fill)

/-- `string-fill!` -/
def stringFill (σ : ConstStrings) (s : Nat) (fill : CodePoint) : Result ConstStrings := do
  σ.assertNotConst s
  let sp ← σ.strings.span s
  fillLoop s sp.len fill sp.len σ

end ConstStrings

inductive ConstOp where
  /-- one of the operations on strings, `string-set!` with its look at the flag -/
  | plain (op : StringOp)
  | stringFill (s : Nat) (fill : CodePoint)
  | splitString (str delim : Nat) (exact array : Bool)
  | stripString (str discard : Nat) (ends : StripEnds)
  /-- a string literal that has been read -/
  | literal (so : StringS)
  /-- a quoted value that code is generated for -/
  | quote (v : Nat)
  deriving DecidableEq, Repr

/-- An operation: the values it returns and the strings there are then. -/
def ConstOp.run (degrade : Strings → StringFlags → List Nat → Result StringS)
    (σ : ConstStrings) : ConstOp → Result (List StringValue × ConstStrings)
  | .plain (.stringSet s index c) => do return ([.unspec], ← σ.stringSet s index c)
  | .plain op => do
      let (v, strings) ← op.run degrade σ.strings
      return ([v], { σ with strings })
  | .stringFill s fill => do return ([.string s], ← σ.stringFill s fill)
  | .splitString str delim exact array => do
      let (vs, strings) ← σ.strings.splitString str delim exact array
      return (vs.map .string, { σ with strings })
  | .stripString str discard ends => do
      let (v, strings) ← σ.strings.stripString str discard ends
      return ([.string v], { σ with strings })
  | .literal so =>
      let (v, strings) := σ.strings.add (.string so)
      .ok ([.string v], ⟨strings, v :: σ.const⟩)
  | .quote v =>
      if v < σ.strings.length then .ok ([.string v], { σ with const := v :: σ.const })
      else .error .undefined

/-- The strings there are after an operation; a `string-fill!` that raises has raised at
its first code point. -/
def ConstOp.next (degrade : Strings → StringFlags → List Nat → Result StringS)
    (σ : ConstStrings) (op : ConstOp) : ConstStrings :=
  match op.run degrade σ with
  | .ok (_, σ') => σ'
  | .error _ => σ

def constRun (degrade : Strings → StringFlags → List Nat → Result StringS) (σ : ConstStrings)
    (ops : List ConstOp) : ConstStrings :=
  ops.foldl (ConstOp.next degrade) σ

/-! ## What an operation writes to -/

/-- The storage of a string and a unit in it. -/
abbrev Place : Type := Nat × Nat

/-- Where `s8[i]`, `s16[i]` or `s32[i]` is. -/
def Span.place (sp : Span) (i : Nat) : Place := (sp.owner, sp.s / sp.flags.width + i)

/-- The places that a value covers. -/
def Strings.places (st : Strings) (v : Nat) : List Place :=
  match st.span v with
  | .ok sp => (List.range sp.len).map sp.place
  | .error _ => []

/-- The places that an operation may write to.  It goes through a value without the flag. -/
def ConstOp.writes (σ : ConstStrings) : ConstOp → List Place
  | .plain (.stringSet s index _) =>
      if s ∈ σ.const then []
      else
        match σ.strings.span s with
        | .ok sp => ((position index sp.len).map sp.place).toList
        | .error _ => []
  | .stringFill s _ => if s ∈ σ.const then [] else σ.strings.places s
  | _ => []

/-- No operation of a run writes to a place that a constant covers when it is its turn. -/
def SparesConstants (degrade : Strings → StringFlags → List Nat → Result StringS) :
    ConstStrings → List ConstOp → Prop
  | _, [] => True
  | σ, op :: ops =>
      (∀ v ∈ σ.const, ∀ p ∈ op.writes σ, p ∉ σ.strings.places v) ∧
        SparesConstants degrade (op.next degrade σ) ops

/-! ## Frames -/

/-- What there was is there still, and every unit in it that is at none of the places is what
it was. -/
def Strings.Frame (ps : List Place) (st st' : Strings) : Prop :=
  ∀ v sp, st.span v = .ok sp →
    st'.span v = .ok sp ∧ ∀ i, sp.place i ∉ ps → st'.readUnit sp i = st.readUnit sp i

section Frames

variable {st st' st'' : Strings} {ps qs : List Place}

theorem Strings.Frame.refl (ps : List Place) (st : Strings) : st.Frame ps st :=
  fun _ _ h => ⟨h, fun _ _ => rfl⟩

theorem Strings.Frame.trans (h : st.Frame ps st') (h' : st'.Frame ps st'') :
    st.Frame ps st'' := by
  intro v sp hv
  obtain ⟨hv', hread⟩ := h v sp hv
  obtain ⟨hv'', hread'⟩ := h' v sp hv'
  exact ⟨hv'', fun i hi => (hread' i hi).trans (hread i hi)⟩

theorem Strings.Frame.mono (h : st.Frame ps st') (hsub : ps ⊆ qs) : st.Frame qs st' := by
  intro v sp hv
  obtain ⟨hv', hread⟩ := h v sp hv
  exact ⟨hv', fun i hi => hread i fun hmem => hi (hsub hmem)⟩

/-- The string that a span is of. -/
theorem span_owner {v : Nat} {sp : Span} (h : st.span v = .ok sp) :
    ∃ so, st[sp.owner]? = some (.string so) := by
  rw [Strings.span] at h
  split at h
  · rename_i so hv
    cases h
    exact ⟨so, hv⟩
  · rename_i s parent len hv
    split at h
    · rename_i so hp
      cases h
      exact ⟨so, hp⟩
    · cases h
  · cases h

theorem getElem?_of_grows {o : StringObject} {v : Nat} (h : st <+: st') (hv : st[v]? = some o) :
    st'[v]? = some o := by
  obtain ⟨ws, rfl⟩ := h
  rw [List.getElem?_append_left (List.getElem?_eq_some_iff.mp hv).1]
  exact hv

/-- New strings leave those there are as they are. -/
theorem frame_of_prefix (h : st <+: st') : st.Frame [] st' := by
  intro v sp hv
  obtain ⟨so, hso⟩ := span_owner hv
  refine ⟨?_, fun i _ => ?_⟩
  · rw [Strings.span] at hv ⊢
    split at hv
    · rename_i so hget
      rw [getElem?_of_grows h hget]
      exact hv
    · rename_i s parent len hget
      rw [getElem?_of_grows h hget]
      split at hv
      · rename_i so hp
        dsimp only
        rw [getElem?_of_grows h hp]
        exact hv
      · cases hv
    · cases hv
  · rw [Strings.readUnit, Strings.readUnit, getElem?_of_grows h hso, hso]

/-- Units that change do not show in what an operation looks at. -/
theorem span_set {o : Nat} {so : StringS} (s : List Nat) (ho : st[o]? = some (.string so)) (v : Nat) :
    Strings.span (st.set o (.string { so with s := s })) v = st.span v := by
  have hlt : o < st.length := (List.getElem?_eq_some_iff.mp ho).1
  rw [Strings.span, Strings.span]
  by_cases hov : o = v
  · subst hov
    rw [List.getElem?_set_self hlt, ho]
  rw [List.getElem?_set_ne hov]
  cases st[v]? with
  | none => rfl
  | some w =>
    cases w with
    | string => rfl
    | substring s' parent len =>
      dsimp only
      by_cases hop : o = parent
      · subst hop
        rw [List.getElem?_set_self hlt, ho]
      · rw [List.getElem?_set_ne hop]

/-- A write to a unit leaves all others as they are. -/
theorem frame_of_writeUnit {sp : Span} {i cp : Nat} {so : StringS}
    (howner : st[sp.owner]? = some (.string so))
    (h : st.writeUnit sp i cp = .ok st') : st.Frame [sp.place i] st' := by
  rw [Strings.writeUnit, howner] at h
  dsimp only at h
  split at h
  · cases h
  obtain ⟨s, hput, h⟩ := bind_eq_ok.mp h
  cases h
  rw [putUnit] at hput
  split at hput
  swap
  · cases hput
  cases hput
  have hlt : sp.owner < st.length := (List.getElem?_eq_some_iff.mp howner).1
  intro v sp' hv
  obtain ⟨so', howner'⟩ := span_owner hv
  refine ⟨by rw [span_set _ howner]; exact hv, fun j hj => ?_⟩
  rw [Strings.readUnit, Strings.readUnit]
  by_cases ho : sp.owner = sp'.owner
  · rw [ho] at howner hlt
    cases howner.symm.trans howner'
    have hne : sp.s / sp.flags.width + i ≠ sp'.s / sp'.flags.width + j := by
      intro heq
      apply hj
      rw [List.mem_singleton, Span.place, Span.place, ho, heq]
    rw [ho, List.getElem?_set_self hlt, howner']
    dsimp only
    rw [List.getElem?_set_ne hne]
  · rw [List.getElem?_set_ne ho]

/-- The code points of a value with none of its places written to. -/
theorem Strings.Frame.string2list (h : st.Frame ps st') {v : Nat} {cps : List Nat}
    (hps : ∀ p ∈ ps, p ∉ st.places v) (hv : st.string2list v = .ok cps) :
    st'.string2list v = .ok cps := by
  obtain ⟨sp, hsp, hloop⟩ := bind_eq_ok.mp hv
  obtain ⟨hsp', hread⟩ := h v sp hsp
  have hplaces : ∀ i, i < sp.len → sp.place i ∉ ps := by
    intro i hi hmem
    apply hps _ hmem
    rw [Strings.places, hsp]
    exact List.mem_map_of_mem (List.mem_range.mpr hi)
  have hloops : ∀ n, n ≤ sp.len → ∀ r,
      st'.string2listLoop sp n r = st.string2listLoop sp n r := by
    intro n
    induction n with
    | zero => exact fun _ _ => rfl
    | succ n ih =>
      intro hn r
      rw [Strings.string2listLoop, Strings.string2listLoop, hread n (hplaces n hn)]
      exact congrArg _ (funext fun u => ih (Nat.le_of_succ_le hn) _)
  rw [Strings.string2list, hsp', ok_bind, hloops sp.len (Nat.le_refl _)]
  exact hloop

end Frames

/-! ## Operations that write nothing -/

section Growth

variable {st st' : Strings}

theorem prefix_add (st : Strings) (o : StringObject) : st <+: (st.add o).2 := ⟨[o], rfl⟩

theorem substringOffsetLen_grows {str offset len v : Nat}
    (h : st.substringOffsetLen str offset len = .ok (v, st')) : st <+: st' := by
  rw [Strings.substringOffsetLen] at h
  split at h
  · split at h
    · cases h
    split at h
    · cases h
    cases h
    exact prefix_add st _
  · split at h
    · split at h
      · cases h
      split at h
      · cases h
      cases h
      exact prefix_add st _
    · cases h
  · cases h

theorem copyString_grows {string v : Nat} (h : st.copyString string = .ok (v, st')) :
    st <+: st' := by
  rw [Strings.copyString] at h
  split at h
  · obtain ⟨s, -, h⟩ := bind_eq_ok.mp h
    cases h
    exact prefix_add st _
  · split at h
    · exact substringOffsetLen_grows h
    · cases h
  · cases h

theorem appendString_grows {degrade : Strings → StringFlags → List Nat → Result StringS}
    {args : List Nat} {v : Nat} (h : st.appendString degrade args = .ok (v, st')) :
    st <+: st' := by
  rw [Strings.appendString] at h
  split at h
  · obtain ⟨so, -, h⟩ := bind_eq_ok.mp h
    cases h
    exact prefix_add st _
  obtain ⟨⟨rFlags, cpCount⟩, -, h⟩ := bind_eq_ok.mp h
  dsimp only at h
  split at h
  · obtain ⟨⟨s, ri⟩, -, h⟩ := bind_eq_ok.mp h
    cases h
    exact prefix_add st _
  · obtain ⟨so, -, h⟩ := bind_eq_ok.mp h
    cases h
    exact prefix_add st _

theorem substring_grows {s v : Nat} {p0 : Int} {pn : Option Int}
    (h : st.substring s p0 pn = .ok (v, st')) : st <+: st' := by
  obtain ⟨sp, -, h⟩ := bind_eq_ok.mp h
  rcases ite_eq_iff.mp h with ⟨-, h⟩ | ⟨-, h⟩
  · cases h
  rcases ite_eq_iff.mp h with ⟨-, h⟩ | ⟨-, h⟩
  · exact substringOffsetLen_grows h
  · obtain ⟨so, -, h⟩ := bind_eq_ok.mp h
    cases h
    exact prefix_add st _

/-- All but `string-set!`. -/
theorem plain_grows {degrade : Strings → StringFlags → List Nat → Result StringS} {op : StringOp}
    {v : StringValue} (hset : ∀ s index c, op ≠ .stringSet s index c)
    (h : op.run degrade st = .ok (v, st')) : st <+: st' := by
  have hmap {α : Type} {x : Result α} {f : α → StringValue × Strings}
      (hf : x.map f = .ok (v, st')) : ∃ a, x = .ok a ∧ f a = (v, st') := by
    cases x with
    | error e => cases hf
    | ok a => exact ⟨a, rfl, Except.ok.inj hf⟩
  cases op with
  | makeString size fill =>
    obtain ⟨⟨w, st₁⟩, hx, hfst⟩ := hmap h
    cases hfst
    rcases ite_eq_iff.mp hx with ⟨-, hx⟩ | ⟨-, hx⟩
    · cases hx
    obtain ⟨so, -, hx⟩ := bind_eq_ok.mp hx
    cases hx
    exact prefix_add st _
  | list2string l =>
    obtain ⟨⟨w, st₁⟩, hx, hfst⟩ := hmap h
    cases hfst
    obtain ⟨⟨flags, cpCount⟩, -, hx⟩ := bind_eq_ok.mp hx
    obtain ⟨so, -, hx⟩ := bind_eq_ok.mp hx
    cases hx
    exact prefix_add st _
  | appendString args =>
    obtain ⟨⟨w, st₁⟩, hx, hfst⟩ := hmap h
    cases hfst
    exact appendString_grows hx
  | copyString s =>
    obtain ⟨⟨w, st₁⟩, hx, hfst⟩ := hmap h
    cases hfst
    exact copyString_grows hx
  | substring s p0 pn =>
    obtain ⟨⟨w, st₁⟩, hx, hfst⟩ := hmap h
    cases hfst
    exact substring_grows hx
  | stringSet s index c => exact absurd rfl (hset s index c)
  | string2list | stringRef | stringIndex | stringRindex | equal =>
    obtain ⟨a, -, hfst⟩ := hmap h
    cases hfst
    exact List.prefix_rfl

theorem splitLoop_grows {is ds : List Nat} {exact : Bool} {str fuel : Nat} {i : Option Nat}
    {r vs : List Nat} (h : st.splitLoop is ds exact str fuel i r = .ok (vs, st')) :
    st <+: st' := by
  induction fuel generalizing st i r with
  | zero => cases h
  | succ fuel ih =>
    cases i with
    | none =>
      cases h
      exact List.prefix_rfl
    | some i =>
      rw [Strings.splitLoop] at h
      split at h
      · cases h
        exact List.prefix_rfl
      split at h
      · cases h
        exact List.prefix_rfl
      obtain ⟨⟨subs, st₁⟩, hsub, h⟩ := bind_eq_ok.mp h
      exact (substringOffsetLen_grows hsub).trans (ih h)

theorem splitString_grows {str delim : Nat} {exact array : Bool} {vs : List Nat}
    (h : st.splitString str delim exact array = .ok (vs, st')) : st <+: st' := by
  obtain ⟨is, -, h⟩ := bind_eq_ok.mp h
  obtain ⟨ds, -, h⟩ := bind_eq_ok.mp h
  split at h
  · cases h
    exact List.prefix_rfl
  split at h
  · cases h
    exact List.prefix_rfl
  · exact splitLoop_grows h

theorem stripString_grows {str discard v : Nat} {ends : StripEnds}
    (h : st.stripString str discard ends = .ok (v, st')) : st <+: st' := by
  obtain ⟨ss, -, h⟩ := bind_eq_ok.mp h
  obtain ⟨ds, -, h⟩ := bind_eq_ok.mp h
  have hkept : (.ok (str, st) : Result (Nat × Strings)) = .ok (v, st') → st <+: st' := by
    intro h
    cases h
    exact List.prefix_rfl
  rcases ite_eq_iff.mp h with ⟨-, h⟩ | ⟨-, h⟩
  · exact hkept h
  rcases ite_eq_iff.mp h with ⟨-, h⟩ | ⟨-, h⟩
  · exact hkept h
  cases ends with
  | left | right | both =>
    rcases ite_eq_iff.mp h with ⟨-, h⟩ | ⟨-, h⟩ <;> exact substringOffsetLen_grows h
  | none => exact hkept h
  | other => cases h

end Growth

/-! ## Runs -/

section Runs

variable {degrade : Strings → StringFlags → List Nat → Result StringS} {σ σ' : ConstStrings}

theorem assertNotConst_eq_ok {s : Nat} (h : σ.assertNotConst s = .ok ()) : s ∉ σ.const := by
  intro hmem
  rw [ConstStrings.assertNotConst, if_pos hmem] at h
  cases h

/-- What `string-set!` does. -/
theorem stringSet_frame {s : Nat} {index : Int} {c : CodePoint}
    (h : σ.stringSet s index c = .ok σ') :
    σ'.const = σ.const ∧
      σ.strings.Frame (ConstOp.writes σ (.plain (.stringSet s index c))) σ'.strings := by
  obtain ⟨_, hconst, h⟩ := bind_eq_ok.mp h
  obtain ⟨strings, hset, h⟩ := bind_eq_ok.mp h
  cases h
  refine ⟨rfl, ?_⟩
  obtain ⟨sp, hsp, hset⟩ := bind_eq_ok.mp hset
  rcases ite_eq_iff.mp hset with ⟨-, hset⟩ | ⟨-, hset⟩
  · cases hset
  rcases ite_eq_iff.mp hset with ⟨-, hset⟩ | ⟨hin, hset⟩
  · cases hset
  obtain ⟨so, howner⟩ := span_owner hsp
  have hframe := frame_of_writeUnit howner hset
  have hposition := fromEnd_position index sp.len
  rw [ConstOp.writes, if_neg (assertNotConst_eq_ok hconst), hsp]
  dsimp only
  split at hposition
  · rename_i i hi
    rw [hi]
    rw [hposition.2] at hframe
    exact hframe
  · exact absurd hposition hin

/-- `string-set!` writes to a place that its string covers. -/
theorem stringSet_places {s : Nat} {index : Int} {c : CodePoint} :
    ConstOp.writes σ (.plain (.stringSet s index c)) ⊆ σ.strings.places s := by
  intro p hp
  rw [ConstOp.writes] at hp
  rw [Strings.places]
  split at hp
  · exact absurd hp List.not_mem_nil
  split at hp
  · rename_i sp hsp
    have hposition := fromEnd_position index sp.len
    obtain ⟨i, hi, rfl⟩ := Option.map_eq_some_iff.mp (Option.mem_toList.mp hp)
    rw [hi] at hposition
    exact List.mem_map_of_mem (List.mem_range.mpr hposition.1)
  · exact absurd hp List.not_mem_nil

/-- What the loop of `string-fill!` does. -/
theorem fillLoop_frame {s : Nat} {sp : Span} {fill : CodePoint} {n : Nat}
    (hsp : σ.strings.span s = .ok sp) (h : σ.fillLoop s sp.len fill n = .ok σ') :
    σ'.const = σ.const ∧ σ.strings.Frame (σ.strings.places s) σ'.strings := by
  induction n generalizing σ with
  | zero =>
    cases h
    exact ⟨rfl, Strings.Frame.refl _ _⟩
  | succ n ih =>
    obtain ⟨σ₁, hset, h⟩ := bind_eq_ok.mp h
    obtain ⟨hconst, hframe⟩ := stringSet_frame hset
    have hfirst := hframe.mono stringSet_places
    obtain ⟨hsp₁, -⟩ := hfirst s sp hsp
    obtain ⟨hconst', hrest⟩ := ih hsp₁ h
    -- the places of the string are the same after a write
    rw [Strings.places, hsp₁] at hrest
    rw [Strings.places, hsp] at hfirst ⊢
    exact ⟨hconst'.trans hconst, hfirst.trans hrest⟩

/-- What an operation does: constants stay constants, and all it writes is at places it may
write to. -/
theorem run_frame {op : ConstOp} {vs : List StringValue} (h : op.run degrade σ = .ok (vs, σ')) :
    σ.const ⊆ σ'.const ∧ σ.strings.Frame (op.writes σ) σ'.strings := by
  cases op with
  | plain op =>
    cases hop : op with
    | stringSet s index c =>
      rw [hop] at h
      obtain ⟨σ₁, hset, h⟩ := bind_eq_ok.mp h
      cases h
      obtain ⟨hkept, hframe⟩ := stringSet_frame hset
      exact ⟨hkept ▸ List.Subset.refl _, hframe⟩
    | makeString | list2string | string2list | appendString | copyString | substring
    | stringRef | stringIndex | stringRindex | equal =>
      rw [hop] at h
      obtain ⟨⟨w, strings⟩, hplain, h⟩ := bind_eq_ok.mp h
      cases h
      refine ⟨List.Subset.refl _, frame_of_prefix (plain_grows ?_ hplain)⟩
      intro s index c hset
      cases hset
  | stringFill s fill =>
    obtain ⟨σ₁, hfill, h⟩ := bind_eq_ok.mp h
    cases h
    obtain ⟨_, hconst, hfill⟩ := bind_eq_ok.mp hfill
    obtain ⟨sp, hsp, hfill⟩ := bind_eq_ok.mp hfill
    obtain ⟨hkept, hframe⟩ := fillLoop_frame hsp hfill
    rw [ConstOp.writes, if_neg (assertNotConst_eq_ok hconst)]
    exact ⟨hkept ▸ List.Subset.refl _, hframe⟩
  | splitString str delim exact array =>
    obtain ⟨⟨ws, strings⟩, hsplit, h⟩ := bind_eq_ok.mp h
    cases h
    exact ⟨List.Subset.refl _, frame_of_prefix (splitString_grows hsplit)⟩
  | stripString str discard ends =>
    obtain ⟨⟨w, strings⟩, hstrip, h⟩ := bind_eq_ok.mp h
    cases h
    exact ⟨List.Subset.refl _, frame_of_prefix (stripString_grows hstrip)⟩
  | literal so =>
    cases h
    exact ⟨List.subset_cons_self _ _, frame_of_prefix (prefix_add _ _)⟩
  | quote v =>
    rcases ite_eq_iff.mp h with ⟨-, h⟩ | ⟨-, h⟩
    · cases h
      exact ⟨List.subset_cons_self _ _, Strings.Frame.refl _ _⟩
    · cases h

/-- What an operation leaves as it is, also when it raises. -/
theorem next_frame (degrade : Strings → StringFlags → List Nat → Result StringS)
    (σ : ConstStrings) (op : ConstOp) :
    σ.const ⊆ (op.next degrade σ).const ∧
      σ.strings.Frame (op.writes σ) (op.next degrade σ).strings := by
  rw [ConstOp.next]
  split
  · rename_i vs σ' hrun
    exact run_frame hrun
  · exact ⟨List.Subset.refl _, Strings.Frame.refl _ _⟩

/-- In a run that writes to no place of a constant, every constant keeps its code points. -/
theorem constants_kept (degrade : Strings → StringFlags → List Nat → Result StringS)
    (σ : ConstStrings) (ops : List ConstOp) (hops : SparesConstants degrade σ ops) :
    ∀ v ∈ σ.const, ∀ cps, σ.strings.string2list v = .ok cps →
      (constRun degrade σ ops).strings.string2list v = .ok cps := by
  induction ops generalizing σ with
  | nil => exact fun v _ cps hcps => hcps
  | cons op ops ih =>
    intro v hv cps hcps
    obtain ⟨hop, hops⟩ := hops
    obtain ⟨hconst, hframe⟩ := next_frame degrade σ op
    have hnext := hframe.string2list (fun p hp => hop v hv p hp) hcps
    exact ih (op.next degrade σ) hops v (hconst hv) cps hnext

/-- A literal `"hello"`, the substring of its first two code points, a `string-set!` through
the substring and a `string-fill!` of a copy. -/
def helloRun : List ConstOp :=
  [.literal ⟨5, 5, .oneByte, [0x68, 0x65, 0x6c, 0x6c, 0x6f, 0]⟩, .plain (.substring 0 0 (some 2)),
    .plain (.stringSet 1 0 0x4a), .plain (.copyString 0), .stringFill 2 0x2e]

/-- No string of the run is an octet string or a pathname. -/
def noDegrade : Strings → StringFlags → List Nat → Result StringS :=
  fun _ _ _ => .error .undefined

/-- The substring has no flag and writes to the literal. -/
theorem literal_written :
    ¬ ∀ (degrade : Strings → StringFlags → List Nat → Result StringS) (σ : ConstStrings)
      (ops : List ConstOp), ∀ v ∈ σ.const, ∀ cps, σ.strings.string2list v = .ok cps →
        (constRun degrade σ ops).strings.string2list v = .ok cps := by
  intro h
  have hwritten := h noDegrade (constRun noDegrade ⟨[], []⟩ (helloRun.take 2))
    (helloRun.drop 2) 0 (by decide) [0x68, 0x65, 0x6c, 0x6c, 0x6f] (by decide)
  exact absurd hwritten (by decide)

/-- A copy is no part of the literal. -/
theorem literal_kept :
    (constRun noDegrade (constRun noDegrade ⟨[], []⟩ (helloRun.take 1))
        [.plain (.copyString 0), .stringFill 1 0x2e]).strings.string2list 0 =
      .ok [0x68, 0x65, 0x6c, 0x6c, 0x6f] :=
  constants_kept noDegrade _ _ (by simp only [SparesConstants]; decide) 0 (by decide) _ (by decide)

end Runs

end Idio
