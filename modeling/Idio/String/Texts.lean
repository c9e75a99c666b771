/-
  String/Texts.lean --- strings as sequences of code points.

  The purpose of the string types: a text is a sequence of code points, or a part of
  one that shares it.  No width and no storage is in it.  Every operation on the
  storage is the operation on the texts, whatever widths its operands have; only
  `string-set!` can fail where the texts would not, when the code point is too wide.

  The length of a string in bytes is its length times its width, except for what
  `list->string` makes: it counts every code point twice.
-/
import Mathlib.Data.List.Induction
import Idio.String.Store

set_option autoImplicit false

namespace Idio

/-! ## Texts -/

/-- A sequence of code points, or a part of one. -/
inductive TextObject where
  | whole (cps : List Nat)
  | part (parent offset len : Nat)
  deriving DecidableEq, Repr

abbrev Texts : Type := List TextObject

/-- The sequence a value is part of, where it starts in it and how many code points it has. -/
def Texts.place (ts : Texts) (v : Nat) : Result (Nat × Nat × Nat × List Nat) :=
  match ts[v]? with
  | some (.whole cps) => .ok (v, 0, cps.length, cps)
  | some (.part parent offset len) =>
      match ts[parent]? with
      | some (.whole cps) => .ok (parent, offset, len, cps)
      | _ => .error .undefined
  | none => .error .undefined

/-- The code points of a value. -/
def Texts.points (ts : Texts) (v : Nat) : Result (List Nat) := do
  let (_, offset, len, cps) ← ts.place v
  .ok ((cps.drop offset).take len)

/-- The position that an index is for, a negative one from the end. -/
def position (i : Int) (len : Nat) : Option Nat :=
  if 0 ≤ i ∧ i < len then some i.toNat
  else if i < 0 ∧ 0 ≤ i + len then some (i + len).toNat
  else none

/-- The position that is furthest to the right. -/
def lastIdxOf? (c : Nat) (cps : List Nat) : Option Nat :=
  (cps.reverse.idxOf? c).map fun i => cps.length - 1 - i

/-! ## The operations -/

inductive StringOp where
  | makeString (size : Int) (fill : Option CodePoint)
  | list2string (l : List ListElement)
  | string2list (s : Nat)
  | appendString (args : List Nat)
  | copyString (s : Nat)
  | substring (s : Nat) (p0 : Int) (pn : Option Int)
  | stringRef (s : Nat) (index : Int)
  | stringIndex (s : Nat) (c : CodePoint)
  | stringRindex (s : Nat) (c : CodePoint)
  | stringSet (s : Nat) (index : Int) (c : CodePoint)
  | equal (o1 o2 : Nat)
  deriving DecidableEq, Repr

inductive StringValue where
  | string (v : Nat)
  | list (cps : List Nat)
  | unicode (cp : Nat)
  | index (i : Option Nat)
  | bool (b : Bool)
  | unspec
  deriving DecidableEq, Repr

/-- An operation on the storage. -/
def StringOp.run (degrade : Strings → StringFlags → List Nat → Result StringS) (st : Strings) :
    StringOp → Result (StringValue × Strings)
  | .makeString size fill => (st.makeString size fill).map fun r => (.string r.1, r.2)
  | .list2string l => (st.list2string l).map fun r => (.string r.1, r.2)
  | .string2list s => (st.string2list s).map fun cps => (.list cps, st)
  | .appendString args => (st.appendString degrade args).map fun r => (.string r.1, r.2)
  | .copyString s => (st.copyString s).map fun r => (.string r.1, r.2)
  | .substring s p0 pn => (st.substring s p0 pn).map fun r => (.string r.1, r.2)
  | .stringRef s index => (st.stringRefC s index).map fun cp => (.unicode cp, st)
  | .stringIndex s c => (st.stringIndex s c false).map fun i => (.index i, st)
  | .stringRindex s c => (st.stringIndex s c true).map fun i => (.index i, st)
  | .stringSet s index c => (st.stringSet s index c).map fun st => (.unspec, st)
  | .equal o1 o2 => (st.equal o1 o2).map fun b => (.bool b, st)

/-- The code points of a list, if it has nothing else. -/
def codePointsOfList (l : List ListElement) : Result (List Nat) :=
  if .other ∈ l then .error (.paramType "unicode") else .ok (l.map ListElement.val)

/-- The positions that `substring` goes from and to. -/
def bounds (p0 : Int) (pn : Option Int) (len : Nat) : Result (Nat × Nat) :=
  let ip0 := if p0 < 0 then p0 + len else p0
  let ipn := match pn with
    | some pn => if pn < 0 then pn + len else pn
    | none => len
  if 0 ≤ ip0 ∧ ip0 ≤ ipn ∧ ipn ≤ len then .ok (ip0.toNat, ipn.toNat)
  else .error (.stringError "substring index: out of bounds")

/-- An operation on the texts. -/
def StringOp.meaning (ts : Texts) : StringOp → Result (StringValue × Texts)
  | .makeString size fill =>
      if size < 0 then .error (.stringError "string size: invalid")
      else .ok (.string ts.length, ts ++ [.whole (List.replicate size.toNat (fill.getD 0x20))])
  | .list2string l => do .ok (.string ts.length, ts ++ [.whole (← codePointsOfList l)])
  | .string2list s => do .ok (.list (← ts.points s), ts)
  | .appendString args => do .ok (.string ts.length, ts ++ [.whole (← args.mapM ts.points).flatten])
  | .copyString s => do
      let (parent, offset, len, cps) ← ts.place s
      .ok (.string ts.length, ts ++ [if s = parent then .whole cps else .part parent offset len])
  | .substring s p0 pn => do
      let (parent, offset, len, _) ← ts.place s
      let (i, j) ← bounds p0 pn len
      .ok (.string ts.length,
        ts ++ [if i = j then .whole [] else .part parent (offset + i) (j - i)])
  | .stringRef s index => do
      let cps ← ts.points s
      match (position index cps.length).bind (cps[·]?) with
      | some cp => .ok (.unicode cp, ts)
      | none => .error (.stringError "string length: out of bounds")
  | .stringIndex s c => do .ok (.index ((← ts.points s).idxOf? (c : Nat)), ts)
  | .stringRindex s c => do .ok (.index (lastIdxOf? c (← ts.points s)), ts)
  | .stringSet s index c => do
      let (parent, offset, len, cps) ← ts.place s
      match position index len with
      | some i => .ok (.unspec, ts.set parent (.whole (cps.set (offset + i) c)))
      | none => .error (.stringError "string length: out of bounds")
  | .equal o1 o2 => do .ok (.bool ((← ts.points o1) == (← ts.points o2)), ts)

/-! ## The texts of a storage -/

/-- The width of the string at a position. -/
def Strings.widthAt (st : Strings) (v : Nat) : Nat :=
  match st[v]? with
  | some (.string so) => so.flags.width
  | _ => 1

/-- The text of a string or a substring. -/
def Strings.textOf (st : Strings) : StringObject → TextObject
  | .string so => .whole so.codePoints
  | .substring s parent len => .part parent (s / st.widthAt parent) len

def Strings.texts (st : Strings) : Texts := st.map st.textOf

/-- What holds of an object: a string is sound, and a substring lies within a string. -/
def Strings.SoundObject (st : Strings) : StringObject → Prop
  | .string so => so.Sound
  | .substring s parent len => ∃ so, st[parent]? = some (.string so) ∧
      s % so.flags.width = 0 ∧ s / so.flags.width + len ≤ so.len

/-- What holds of all strings there are. -/
def Strings.Sound (st : Strings) : Prop := ∀ o ∈ st, st.SoundObject o

/-! ## What an operation looks at -/

section Views

variable {st : Strings} {v : Nat} {sp : Span} {so : StringS} {offset : Nat}

/-- A value, the storage it is in, and the place of its text. -/
structure Viewed (st : Strings) (v : Nat) (sp : Span) (so : StringS) (offset : Nat) : Prop where
  span : st.span v = .ok sp
  owner : st[sp.owner]? = some (.string so)
  sound : so.Sound
  flags : sp.flags = so.flags
  start : sp.s = offset * so.flags.width
  inside : offset + sp.len ≤ so.len
  place : st.texts.place v = .ok (sp.owner, offset, sp.len, so.codePoints)

theorem texts_getElem? (st : Strings) (v : Nat) : st.texts[v]? = st[v]?.map st.textOf :=
  List.getElem?_map

theorem span_of_none (h : st[v]? = none) :
    st.span v = .error .undefined ∧ st.texts.place v = .error .undefined := by
  rw [Strings.span, Texts.place, texts_getElem?, h]
  exact ⟨rfl, rfl⟩

theorem viewed_string (hst : st.Sound) (hv : st[v]? = some (.string so)) :
    Viewed st v ⟨v, 0, so.len, so.flags⟩ so 0 where
  span := by rw [Strings.span, hv]
  owner := hv
  sound := hst _ (List.mem_of_getElem? hv)
  flags := rfl
  start := (Nat.zero_mul _).symm
  inside := Nat.le_of_eq (Nat.zero_add _)
  place := by
    have hsound : so.Sound := hst _ (List.mem_of_getElem? hv)
    rw [Texts.place, texts_getElem?, hv]
    show Except.ok (v, 0, so.codePoints.length, so.codePoints) = _
    rw [hsound.length_codePoints]

theorem viewed_substring (hst : st.Sound) {s parent len : Nat}
    (hv : st[v]? = some (.substring s parent len)) :
    ∃ so, st[parent]? = some (.string so) ∧
      Viewed st v ⟨parent, s, len, so.flags⟩ so (s / so.flags.width) := by
  obtain ⟨so, hparent, haligned, hinside⟩ := hst _ (List.mem_of_getElem? hv)
  refine ⟨so, hparent, ?_, hparent, hst _ (List.mem_of_getElem? hparent), rfl,
    (Nat.div_mul_cancel (Nat.dvd_of_mod_eq_zero haligned)).symm, hinside, ?_⟩
  · rw [Strings.span, hv]
    dsimp only
    rw [hparent]
  · rw [Texts.place, texts_getElem?, hv]
    dsimp only [Option.map_some, Strings.textOf, Strings.widthAt]
    rw [texts_getElem?, hparent]
    rfl

theorem exists_viewed (hst : st.Sound) {o : StringObject} (hv : st[v]? = some o) :
    ∃ sp so offset, Viewed st v sp so offset := by
  cases o with
  | string so => exact ⟨_, so, 0, viewed_string hst hv⟩
  | substring s parent len =>
    obtain ⟨so, -, hview⟩ := viewed_substring hst hv
    exact ⟨_, so, _, hview⟩

/-- The code points of the value. -/
def StringS.view (so : StringS) (sp : Span) (offset : Nat) : List Nat :=
  (so.codePoints.drop offset).take sp.len

theorem Viewed.points (h : Viewed st v sp so offset) :
    st.texts.points v = .ok (so.view sp offset) := by
  rw [Texts.points, h.place]
  rfl

theorem Viewed.length_view (h : Viewed st v sp so offset) : (so.view sp offset).length = sp.len := by
  have hinside := h.inside
  rw [StringS.view, List.length_take, List.length_drop, h.sound.length_codePoints]
  omega

theorem Viewed.aligned (h : Viewed st v sp so offset) : sp.s % sp.flags.width = 0 := by
  rw [h.start, h.flags, Nat.mul_mod_left]

theorem Viewed.index (h : Viewed st v sp so offset) : sp.s / sp.flags.width = offset := by
  rw [h.start, h.flags, Nat.mul_div_cancel _ so.flags.width_pos]

theorem Viewed.view_getElem? (h : Viewed st v sp so offset) {i : Nat} (hi : i < sp.len) :
    (so.view sp offset)[i]? = so.s[offset + i]? := by
  have hinside := h.inside
  rw [StringS.view, List.getElem?_take_of_lt hi, List.getElem?_drop, StringS.codePoints,
    List.getElem?_take_of_lt (by omega)]

theorem Viewed.readUnit (h : Viewed st v sp so offset) {i : Nat} (hi : i < sp.len) :
    ∃ u, (so.view sp offset)[i]? = some u ∧ st.readUnit sp i = .ok u := by
  have hlt : i < (so.view sp offset).length := by rwa [h.length_view]
  obtain ⟨u, hu⟩ : ∃ u, (so.view sp offset)[i]? = some u := ⟨_, List.getElem?_eq_getElem hlt⟩
  refine ⟨u, hu, ?_⟩
  rw [h.view_getElem? hi] at hu
  rw [Strings.readUnit, h.owner]
  dsimp only
  rw [if_neg (not_not.mpr h.aligned), h.index, hu]

theorem Viewed.lt_capacity (h : Viewed st v sp so offset) :
    ∀ u ∈ so.view sp offset, u < so.flags.capacity := fun u hu =>
  h.sound.units u (List.mem_of_mem_take (List.mem_of_mem_drop (List.mem_of_mem_take hu)))

end Views

/-! ## What an operation changes -/

section Changes

variable {st : Strings} {o : StringObject} {so so' : StringS} {v : Nat}

theorem getElem?_append_of_some (ws : Strings) {o' : StringObject} (h : st[v]? = some o') :
    (st ++ ws)[v]? = some o' := by
  rw [List.getElem?_append_left (List.getElem?_eq_some_iff.mp h).1, h]

theorem SoundObject.append (h : st.SoundObject o) (ws : Strings) :
    Strings.SoundObject (st ++ ws) o ∧ Strings.textOf (st ++ ws) o = st.textOf o := by
  cases o with
  | string so => exact ⟨h, rfl⟩
  | substring s parent len =>
    obtain ⟨so, hparent, h⟩ := h
    refine ⟨⟨so, getElem?_append_of_some ws hparent, h⟩, ?_⟩
    rw [Strings.textOf, Strings.textOf, Strings.widthAt, Strings.widthAt,
      getElem?_append_of_some ws hparent, hparent]

theorem Strings.Sound.append (hst : st.Sound) (ho : st.SoundObject o) :
    Strings.Sound (st ++ [o]) ∧ Strings.texts (st ++ [o]) = st.texts ++ [st.textOf o] := by
  constructor
  · intro o' ho'
    rcases List.mem_append.mp ho' with ho' | ho'
    · exact (SoundObject.append (hst _ ho') [o]).1
    · rw [List.mem_singleton.mp ho']
      exact (SoundObject.append ho [o]).1
  · rw [Strings.texts, List.map_append, List.map_singleton, (SoundObject.append ho [o]).2]
    exact congrArg (· ++ _) (List.map_congr_left fun o' ho' => (SoundObject.append (hst _ ho') [o]).2)

theorem length_texts (st : Strings) : st.texts.length = st.length := List.length_map ..

/-- A new string or substring. -/
theorem add_texts (hst : st.Sound) (ho : st.SoundObject o) :
    (st.add o).2.Sound ∧ (st.add o).2.texts = st.texts ++ [st.textOf o] ∧
      (st.add o).1 = st.texts.length :=
  ⟨(hst.append ho).1, (hst.append ho).2, (length_texts st).symm⟩

theorem set_getElem? (hv : st[v]? = some (.string so)) (hflags : so'.flags = so.flags)
    (hlen : so'.len = so.len) {p : Nat} {so₁ : StringS} (hp : st[p]? = some (.string so₁)) :
    ∃ so₂, (st.set v (.string so'))[p]? = some (.string so₂) ∧ so₂.flags = so₁.flags ∧
      so₂.len = so₁.len := by
  by_cases hpv : v = p
  · subst hpv
    rw [hv] at hp
    cases hp
    exact ⟨so', List.getElem?_set_self (List.getElem?_eq_some_iff.mp hv).1, hflags, hlen⟩
  · exact ⟨so₁, by rw [List.getElem?_set_ne hpv, hp], rfl, rfl⟩

/-- A string that has been written to. -/
theorem set_texts (hst : st.Sound) (hv : st[v]? = some (.string so)) (hsound : so'.Sound)
    (hflags : so'.flags = so.flags) (hlen : so'.len = so.len) :
    Strings.Sound (st.set v (.string so')) ∧
      Strings.texts (st.set v (.string so')) = st.texts.set v (.whole so'.codePoints) := by
  have hobject : ∀ o ∈ st, Strings.SoundObject (st.set v (.string so')) o ∧
      Strings.textOf (st.set v (.string so')) o = st.textOf o := by
    intro o ho
    cases o with
    | string => exact ⟨hst _ ho, rfl⟩
    | substring s parent len =>
      obtain ⟨so₁, hparent, haligned, hinside⟩ := hst _ ho
      obtain ⟨so₂, hparent', hf, hl⟩ := set_getElem? hv hflags hlen hparent
      refine ⟨⟨so₂, hparent', by rwa [hf], by rwa [hf, hl]⟩, ?_⟩
      rw [Strings.textOf, Strings.textOf, Strings.widthAt, Strings.widthAt, hparent', hparent]
      dsimp only
      rw [hf]
  constructor
  · intro o ho
    rcases List.mem_or_eq_of_mem_set ho with ho | rfl
    · exact (hobject o ho).1
    · exact hsound
  · rw [Strings.texts, List.map_set]
    exact congrArg (fun ts => List.set ts v _)
      (List.map_congr_left fun o ho => (hobject o ho).2)

end Changes

/-! ## The loops -/

section Loops

variable {st : Strings} {v : Nat} {sp : Span} {so : StringS} {offset : Nat}

variable {n : Nat}

theorem Viewed.string2listLoop (h : Viewed st v sp so offset) (hn : n ≤ sp.len) (r : List Nat) :
    st.string2listLoop sp n r = .ok ((so.view sp offset).take n ++ r) := by
  induction n generalizing r with
  | zero => rfl
  | succ n ih =>
    obtain ⟨u, hu, hread⟩ := h.readUnit (i := n) hn
    rw [Strings.string2listLoop, hread, ok_bind, ih (Nat.le_of_succ_le hn), List.take_add_one, hu,
      List.append_assoc]
    rfl

/-- The units of an argument of `append-string` are its code points. -/
theorem Viewed.appendUnits (h : Viewed st v sp so offset) {rFlags : StringFlags}
    (htakes : rFlags.takes sp.flags) (hn : n ≤ sp.len) (s : List Nat) (ri : Nat) :
    st.appendUnits rFlags sp n s ri =
      (putUnits rFlags s ri ((so.view sp offset).drop (sp.len - n))).map fun s => (s, ri + n) := by
  induction n generalizing s ri with
  | zero =>
    rw [Nat.sub_zero, ← h.length_view, List.drop_length]
    rfl
  | succ n ih =>
    obtain ⟨u, hu, hread⟩ := h.readUnit (i := sp.len - (n + 1)) (by omega)
    have hdrop : (so.view sp offset).drop (sp.len - (n + 1)) =
        u :: (so.view sp offset).drop (sp.len - n) := by
      rw [List.drop_eq_getElem?_toList_append, hu, show sp.len - (n + 1) + 1 = sp.len - n by omega]
      rfl
    rw [Strings.appendUnits, if_pos htakes, hread, ok_bind, hdrop, putUnits]
    cases putUnit rFlags s ri u with
    | error e => rfl
    | ok s =>
      rw [ok_bind, ok_bind, ih (Nat.le_of_succ_le hn), Nat.add_assoc, Nat.add_comm 1]

theorem Viewed.stringRefC (h : Viewed st v sp so offset) (i : Int) :
    st.stringRefC v i =
      match (position i sp.len).bind ((so.view sp offset)[·]?) with
      | some cp => .ok cp
      | none => .error (.stringError "string length: out of bounds") := by
  rw [Strings.stringRefC, h.span, ok_bind, position, fromEnd]
  by_cases hi : 0 ≤ i ∧ i < sp.len
  · obtain ⟨u, hu, hread⟩ := h.readUnit (i := i.toNat) (by omega)
    rw [if_pos hi, if_neg (by omega), if_neg (by omega), Option.bind_some, hu, hread]
  · by_cases hneg : i < 0 ∧ 0 ≤ i + sp.len
    · obtain ⟨u, hu, hread⟩ := h.readUnit (i := (i + sp.len).toNat) (by omega)
      rw [if_neg hi, if_pos hneg, if_pos hneg.1, if_neg (by omega), if_neg (by omega),
        Option.bind_some, hu, hread]
    · rw [if_neg hi, if_neg hneg, if_pos]
      · rfl
      · split <;> [split; skip] <;> omega

theorem Viewed.stringRefC_nat (h : Viewed st v sp so offset) {i : Nat} (hi : i < sp.len) :
    ∃ u, (so.view sp offset)[i]? = some u ∧ st.stringRefC v i = .ok u := by
  obtain ⟨u, hu, -⟩ := h.readUnit hi
  refine ⟨u, hu, ?_⟩
  rw [h.stringRefC, position, if_pos ⟨by omega, by omega⟩, Option.bind_some, Int.toNat_natCast, hu]

theorem drop_of_getElem? {l : List Nat} {i u : Nat} (h : l[i]? = some u) :
    l.drop i = u :: l.drop (i + 1) := by
  rw [List.drop_eq_getElem?_toList_append, h]
  rfl

theorem Viewed.stringIndexLoop (h : Viewed st v sp so offset) (c : CodePoint) (hn : n ≤ sp.len) :
    st.stringIndexLoop v c false sp.len n =
      .ok ((((so.view sp offset).drop (sp.len - n)).idxOf? (c : Nat)).map (sp.len - n + ·)) := by
  induction n with
  | zero =>
    rw [Nat.sub_zero, ← h.length_view, List.drop_length]
    rfl
  | succ n ih =>
    obtain ⟨u, hu, href⟩ := h.stringRefC_nat (i := sp.len - (n + 1)) (by omega)
    rw [Strings.stringIndexLoop, if_neg Bool.false_ne_true, href, ok_bind, drop_of_getElem? hu,
      show sp.len - (n + 1) + 1 = sp.len - n by omega, List.idxOf?_cons]
    by_cases hc : u = c
    · rw [if_pos hc, if_pos (beq_iff_eq.mpr hc)]
      rfl
    · rw [if_neg hc, if_neg (fun h => hc (beq_iff_eq.mp h)), ih (Nat.le_of_succ_le hn)]
      cases ((so.view sp offset).drop (sp.len - n)).idxOf? (c : Nat) with
      | none => rfl
      | some i =>
        have hi : sp.len - (n + 1) + (i + 1) = sp.len - n + i := by omega
        simp only [Option.map_some, hi]

theorem Viewed.stringRindexLoop (h : Viewed st v sp so offset) (c : CodePoint) (hn : n ≤ sp.len) :
    st.stringIndexLoop v c true sp.len n =
      .ok (lastIdxOf? c ((so.view sp offset).take n)) := by
  induction n with
  | zero => rfl
  | succ n ih =>
    obtain ⟨u, hu, href⟩ := h.stringRefC_nat (i := n) hn
    have hindex : sp.len - 1 - (sp.len - (n + 1)) = n := by omega
    have hlen : ((so.view sp offset).take n).length = n := by
      rw [List.length_take, h.length_view]
      omega
    rw [Strings.stringIndexLoop, if_pos rfl, hindex, href, ok_bind, lastIdxOf?, List.take_add_one, hu,
      Option.toList_some, List.reverse_append, List.reverse_singleton, List.singleton_append,
      List.idxOf?_cons, List.length_append, hlen]
    by_cases hc : u = c
    · rw [if_pos hc, if_pos (beq_iff_eq.mpr hc)]
      rfl
    · rw [if_neg hc, if_neg (fun h => hc (beq_iff_eq.mp h)), ih (Nat.le_of_succ_le hn), lastIdxOf?, hlen]
      cases ((so.view sp offset).take n).reverse.idxOf? (c : Nat) with
      | none => rfl
      | some i =>
        have hi : n + 1 - 1 - (i + 1) = n - 1 - i := by omega
        simp only [Option.map_some, List.length_singleton, hi]

variable {v₁ v₂ : Nat} {sp₁ sp₂ : Span} {so₁ so₂ : StringS} {offset₁ offset₂ : Nat}

theorem Viewed.stringEqualLoop (h₁ : Viewed st v₁ sp₁ so₁ offset₁)
    (h₂ : Viewed st v₂ sp₂ so₂ offset₂) (hlen : sp₁.len = sp₂.len) (hn : n ≤ sp₁.len) :
    st.stringEqualLoop sp₁ sp₂ n = .ok ((so₁.view sp₁ offset₁).drop (sp₁.len - n) ==
      (so₂.view sp₂ offset₂).drop (sp₁.len - n)) := by
  induction n with
  | zero =>
    rw [Nat.sub_zero, List.drop_eq_nil_of_le (by rw [h₁.length_view]),
      List.drop_eq_nil_of_le (by rw [h₂.length_view, hlen])]
    rfl
  | succ n ih =>
    obtain ⟨u₁, hu₁, hread₁⟩ := h₁.readUnit (i := sp₁.len - (n + 1)) (by omega)
    obtain ⟨u₂, hu₂, hread₂⟩ := h₂.readUnit (i := sp₁.len - (n + 1)) (by omega)
    rw [Strings.stringEqualLoop, hread₁, ok_bind, hread₂, ok_bind, drop_of_getElem? hu₁,
      drop_of_getElem? hu₂, List.cons_beq_cons]
    by_cases hu : u₁ = u₂
    · rw [if_neg (not_not.mpr hu), ih (Nat.le_of_succ_le hn), beq_iff_eq.mpr hu, Bool.true_and,
        show sp₁.len - (n + 1) + 1 = sp₁.len - n by omega]
    · rw [if_pos hu, beq_eq_false_iff_ne.mpr hu, Bool.false_and]

/-- `idio_string_equal` compares the code points. -/
theorem Viewed.stringEqual (h₁ : Viewed st v₁ sp₁ so₁ offset₁) (h₂ : Viewed st v₂ sp₂ so₂ offset₂) :
    st.stringEqual v₁ v₂ = .ok (so₁.view sp₁ offset₁ == so₂.view sp₂ offset₂) := by
  rw [Strings.stringEqual, h₁.span, ok_bind, h₂.span, ok_bind]
  by_cases hlen : sp₁.len = sp₂.len
  · rw [if_neg (not_not.mpr hlen), h₁.stringEqualLoop h₂ hlen (Nat.le_refl _), Nat.sub_self,
      List.drop_zero, List.drop_zero]
  · rw [if_pos hlen, beq_eq_false_iff_ne.mpr]
    intro heq
    have := congrArg List.length heq
    rw [h₁.length_view, h₂.length_view] at this
    exact hlen this

end Loops

/-! ## New strings -/

section New

variable {st : Strings} {v : Nat} {sp : Span} {so : StringS} {offset : Nat}

/-- The length in bytes is the length times the width. -/
def StringS.Exact (so : StringS) : Prop := so.blen = so.len * so.flags.width

/-- A new string of some code points. -/
structure Built (cps : List Nat) (so : StringS) : Prop where
  sound : so.Sound
  codePoints : so.codePoints = cps

variable {flags : StringFlags}

theorem built_of_putUnits {cps s : List Nat} {n : Nat} (hflags : flags.isUnicode)
    (hn : cps.length ≤ n) (hs : putUnits flags (gcAlloc flags (n * flags.width + 1)) 0 cps = .ok s)
    (htake : (terminate flags s (n * flags.width)).take cps.length = cps) :
    Built cps ⟨n * flags.width, cps.length, flags, terminate flags s (n * flags.width)⟩ ∧
      (StringS.Exact ⟨n * flags.width, cps.length, flags, terminate flags s (n * flags.width)⟩ ↔
        n = cps.length) :=
  ⟨⟨StringS.sound_of_putUnits hflags hn hs, htake⟩,
    Nat.mul_left_inj (Nat.pos_iff_ne_zero.mp flags.width_pos)⟩

theorem buildString_spec {cps : List Nat} {n : Nat} (hflags : flags.isUnicode) (hn : cps.length ≤ n)
    (h : ∀ cp ∈ cps, cp < flags.capacity) :
    ∃ so, buildString flags (n * flags.width) cps = .ok so ∧ Built cps so ∧
      (so.Exact ↔ n = cps.length) := by
  obtain ⟨s, hput, htake⟩ := putUnits_gcAlloc hn h
  refine ⟨_, ?_, built_of_putUnits hflags hn hput htake⟩
  rw [buildString, hput]
  rfl

theorem stringCLen_nil : ∃ so, stringCLen [] = .ok so ∧ Built [] so ∧ so.Exact := by
  refine ⟨⟨0, 0, .oneByte, [0]⟩, by decide +kernel, ⟨⟨rfl, ?_, ?_, ?_⟩, rfl⟩, rfl⟩
  · exact Nat.zero_le _
  · exact Nat.zero_le _
  · intro u hu
    rw [List.mem_singleton.mp hu]
    decide

theorem CodePoint.lt_capacity (c : CodePoint) : (c : Nat) < StringFlags.fourByte.capacity :=
  Nat.lt_trans c.isLt (by decide)

theorem makeString_spec (st : Strings) {size : Int} (fill : Option CodePoint) (hsize : ¬ size < 0) :
    ∃ so, st.makeString size fill = .ok (st.add (.string so)) ∧
      Built (List.replicate size.toNat (fill.getD 0x20)) so ∧ so.Exact := by
  rw [Strings.makeString, if_neg hsize]
  generalize (fill.getD 0x20 : CodePoint) = c
  dsimp only
  have hflags : (if (c : Nat) > 0xffff then StringFlags.fourByte
      else if (c : Nat) > 0xff then .twoByte else .oneByte) = StringFlags.oneByte.widen c := by
    rw [StringFlags.widen]
    simp only [and_true]
  rw [hflags]
  have hlt : ∀ cp ∈ List.replicate size.toNat (c : Nat),
      cp < (StringFlags.oneByte.widen c).capacity := by
    intro cp hcp
    rw [List.eq_of_mem_replicate hcp]
    exact lt_capacity_widen (CodePoint.lt_capacity c) rfl
  obtain ⟨so, hbuild, hbuilt, hexact⟩ := buildString_spec (n := size.toNat)
    (StringFlags.isUnicode_widen c rfl) (Nat.le_of_eq List.length_replicate) hlt
  rw [hbuild]
  exact ⟨so, rfl, hbuilt, hexact.mpr List.length_replicate.symm⟩

theorem listSizing_spec (flags : StringFlags) (cpCount : Nat) (l : List ListElement) :
    listSizing flags cpCount l =
      if .other ∈ l then .error (.paramType "unicode")
      else .ok (widest flags (l.map ListElement.val), cpCount + 2 * l.length) := by
  induction l generalizing flags cpCount with
  | nil => rfl
  | cons x l ih =>
    cases x with
    | other => rw [if_pos List.mem_cons_self]; rfl
    | unicode codepoint =>
      rw [listSizing, ih]
      by_cases h : .other ∈ l
      · rw [if_pos h, if_pos (List.mem_cons_of_mem _ h)]
      · have h' : ListElement.other ∉ .unicode codepoint :: l := by
          rw [List.mem_cons, not_or]
          exact ⟨ListElement.noConfusion, h⟩
        have hcount : cpCount + 1 + 1 + 2 * l.length = cpCount + 2 * (l.length + 1) := by omega
        rw [if_neg h, if_neg h', List.length_cons, hcount]
        rfl

theorem list2string_spec (st : Strings) {l : List ListElement} (h : .other ∉ l) :
    ∃ so, st.list2string l = .ok (st.add (.string so)) ∧ Built (l.map ListElement.val) so ∧
      (so.Exact ↔ l = []) := by
  have hlt : ∀ cp ∈ l.map ListElement.val, cp < 256 ^ 4 := by
    intro cp hcp
    obtain ⟨x, -, rfl⟩ := List.mem_map.mp hcp
    cases x with
    | unicode c => exact CodePoint.lt_capacity c
    | other => decide
  have hn : (l.map ListElement.val).length ≤ 0 + 2 * l.length := by
    rw [List.length_map]
    omega
  have hflags := widest_isUnicode (rfl : StringFlags.oneByte.isUnicode = true)
    (l.map ListElement.val)
  obtain ⟨so, hbuild, hbuilt, hexact⟩ := buildString_spec hflags hn (lt_capacity_widest rfl hlt)
  rw [Strings.list2string, listSizing_spec, if_neg h, ok_bind]
  dsimp only
  rw [hbuild]
  refine ⟨so, rfl, hbuilt, hexact.trans ?_⟩
  rw [List.length_map, ← List.length_eq_zero_iff]
  omega

/-! ### `append-string` -/

/-- The code points of a value, if it has any. -/
def Strings.pts (st : Strings) (v : Nat) : List Nat :=
  match st.texts.points v with
  | .ok cps => cps
  | .error _ => []

theorem Viewed.pts (h : Viewed st v sp so offset) : st.pts v = so.view sp offset := by
  rw [Strings.pts, h.points]

variable {rFlags : StringFlags}

theorem joinFlags_spec {strFlags : StringFlags} (hr : rFlags.isUnicode) (hs : strFlags.isUnicode) :
    ∃ r, joinFlags rFlags strFlags = .ok r ∧ r.isUnicode ∧
      rFlags.width ≤ r.width ∧ strFlags.width ≤ r.width := by
  cases strFlags with
  | oneByte => exact ⟨rFlags, rfl, hr, Nat.le_refl _, rFlags.width_pos⟩
  | twoByte =>
    cases rFlags with
    | oneByte | twoByte | fourByte => exact ⟨_, rfl, rfl, by decide, by decide⟩
    | octet | pathname | fdPathname | fifoPathname => cases hr
  | fourByte =>
    cases rFlags with
    | oneByte | twoByte | fourByte => exact ⟨_, rfl, rfl, by decide, by decide⟩
    | octet | pathname | fdPathname | fifoPathname => cases hr
  | octet | pathname | fdPathname | fifoPathname => cases hs

theorem takes_of_width_le {strFlags : StringFlags} (hr : rFlags.isUnicode) (hs : strFlags.isUnicode)
    (h : strFlags.width ≤ rFlags.width) : rFlags.takes strFlags := by
  cases strFlags with
  | oneByte | twoByte | fourByte =>
    cases rFlags with
    | oneByte | twoByte | fourByte => first | rfl | exact absurd h (by decide)
    | octet | pathname | fdPathname | fifoPathname => cases hr
  | octet | pathname | fdPathname | fifoPathname => cases hs

variable {args : List Nat}

theorem appendSizing_spec (hst : st.Sound) (hargs : ∀ a ∈ args, a < st.length)
    (hr : rFlags.isUnicode) (cpCount : Nat) :
    ∃ r, st.appendSizing rFlags cpCount args = .ok (r, cpCount + (args.flatMap st.pts).length) ∧
      r.isUnicode ∧ rFlags.width ≤ r.width ∧
      ∀ a ∈ args, ∀ sp, st.span a = .ok sp → sp.flags.width ≤ r.width := by
  induction args generalizing rFlags cpCount with
  | nil => exact ⟨rFlags, rfl, hr, Nat.le_refl _, fun a ha => absurd ha List.not_mem_nil⟩
  | cons a args ih =>
    obtain ⟨ha, hargs⟩ := List.forall_mem_cons.mp hargs
    obtain ⟨sp, so, offset, hview⟩ := exists_viewed hst (List.getElem?_eq_getElem ha)
    obtain ⟨r₁, hjoin, hr₁, hle, hsp⟩ := joinFlags_spec hr (hview.flags ▸ hview.sound.unicode)
    obtain ⟨r, hsizing, hr, hle', hall⟩ := ih hargs hr₁ (cpCount + sp.len)
    refine ⟨r, ?_, hr, Nat.le_trans hle hle', List.forall_mem_cons.mpr ⟨fun sp' hsp' => ?_, hall⟩⟩
    · rw [Strings.appendSizing, hview.span, ok_bind, hjoin, ok_bind, hsizing, List.flatMap_cons,
        List.length_append, hview.pts, hview.length_view, Nat.add_assoc]
    · rw [hview.span] at hsp'
      cases hsp'
      exact Nat.le_trans hsp hle'

theorem appendStrings_spec (hst : st.Sound) (hargs : ∀ a ∈ args, a < st.length)
    (hr : rFlags.isUnicode)
    (hwidth : ∀ a ∈ args, ∀ sp, st.span a = .ok sp → sp.flags.width ≤ rFlags.width) (s : List Nat)
    (ri : Nat) :
    st.appendStrings rFlags args s ri =
      (putUnits rFlags s ri (args.flatMap st.pts)).map fun s =>
        (s, ri + (args.flatMap st.pts).length) := by
  induction args generalizing s ri with
  | nil => rfl
  | cons a args ih =>
    obtain ⟨ha, hargs⟩ := List.forall_mem_cons.mp hargs
    obtain ⟨hwidth₁, hwidth⟩ := List.forall_mem_cons.mp hwidth
    obtain ⟨sp, so, offset, hview⟩ := exists_viewed hst (List.getElem?_eq_getElem ha)
    have htakes := takes_of_width_le hr (hview.flags ▸ hview.sound.unicode) (hwidth₁ sp hview.span)
    rw [Strings.appendStrings, hview.span, ok_bind, hview.appendUnits htakes (Nat.le_refl _),
      Nat.sub_self, List.drop_zero, List.flatMap_cons, hview.pts, putUnits_append]
    cases putUnits rFlags s ri (so.view sp offset) with
    | error e => rfl
    | ok s =>
      simp only [Except.map, ok_bind, ih hargs hwidth, Except.bind, hview.length_view,
        List.length_append, Nat.add_assoc]

theorem flatMap_pts_lt (hst : st.Sound) (hargs : ∀ a ∈ args, a < st.length)
    (hwidth : ∀ a ∈ args, ∀ sp, st.span a = .ok sp → sp.flags.width ≤ rFlags.width) :
    ∀ cp ∈ args.flatMap st.pts, cp < rFlags.capacity := by
  intro cp hcp
  obtain ⟨a, ha, hcp⟩ := List.mem_flatMap.mp hcp
  obtain ⟨sp, so, offset, hview⟩ := exists_viewed hst (List.getElem?_eq_getElem (hargs a ha))
  rw [hview.pts] at hcp
  refine Nat.lt_of_lt_of_le (hview.lt_capacity cp hcp) ?_
  rw [← hview.flags]
  exact Nat.pow_le_pow_right (by decide) (hwidth a ha sp hview.span)

theorem appendString_spec (degrade : Strings → StringFlags → List Nat → Result StringS)
    (hst : st.Sound) (hargs : ∀ a ∈ args, a < st.length) :
    ∃ so, st.appendString degrade args = .ok (st.add (.string so)) ∧
      Built (args.flatMap st.pts) so ∧ so.Exact := by
  rw [Strings.appendString]
  by_cases hnil : args = []
  · subst hnil
    obtain ⟨so, hso, hbuilt, hexact⟩ := stringCLen_nil
    rw [if_pos rfl, hso]
    exact ⟨so, rfl, hbuilt, hexact⟩
  · obtain ⟨r, hsizing, hr, -, hwidth⟩ :=
      appendSizing_spec hst hargs (rfl : StringFlags.oneByte.isUnicode = true) 0
    obtain ⟨s, hput, htake⟩ := putUnits_gcAlloc (Nat.le_refl _) (flatMap_pts_lt hst hargs hwidth)
    obtain ⟨hbuilt, hexact⟩ := built_of_putUnits hr (Nat.le_refl _) hput htake
    refine ⟨_, ?_, hbuilt, hexact.mpr rfl⟩
    rw [if_neg hnil, hsizing, ok_bind]
    dsimp only
    rw [if_pos hr, appendStrings_spec hst hargs hr hwidth, Nat.zero_add, hput]
    simp only [Except.map, ok_bind]

theorem mapM_points (hst : st.Sound) (hargs : ∀ a ∈ args, a < st.length) :
    args.mapM st.texts.points = .ok (args.map st.pts) := by
  induction args with
  | nil => rfl
  | cons a args ih =>
    obtain ⟨ha, hargs⟩ := List.forall_mem_cons.mp hargs
    obtain ⟨sp, so, offset, hview⟩ := exists_viewed hst (List.getElem?_eq_getElem ha)
    rw [List.mapM_cons, hview.points, ok_bind, ih hargs, ok_bind, List.map_cons, hview.pts]
    rfl

/-- With an argument that is no string there is no string. -/
theorem appendString_undefined (degrade : Strings → StringFlags → List Nat → Result StringS)
    (hst : st.Sound) (hargs : ¬ ∀ a ∈ args, a < st.length) :
    st.appendString degrade args = .error .undefined ∧
      args.mapM st.texts.points = .error .undefined := by
  have hnil : args ≠ [] := by
    rintro rfl
    exact hargs fun a ha => absurd ha List.not_mem_nil
  have hboth : ∀ (args : List Nat) (rFlags : StringFlags) (cpCount : Nat), rFlags.isUnicode →
      (¬ ∀ a ∈ args, a < st.length) →
      st.appendSizing rFlags cpCount args = .error .undefined ∧
        args.mapM st.texts.points = .error .undefined := by
    intro args
    induction args with
    | nil => exact fun _ _ _ h => absurd (fun a ha => absurd ha List.not_mem_nil) h
    | cons a args ih =>
      intro rFlags cpCount hr h
      rw [Strings.appendSizing, List.mapM_cons]
      by_cases ha : a < st.length
      · obtain ⟨sp, so, offset, hview⟩ := exists_viewed hst (List.getElem?_eq_getElem ha)
        obtain ⟨r₁, hjoin, hr₁, -⟩ := joinFlags_spec hr (hview.flags ▸ hview.sound.unicode)
        obtain ⟨hsizing, hmap⟩ := ih r₁ (cpCount + sp.len) hr₁
          fun hall => h (List.forall_mem_cons.mpr ⟨ha, hall⟩)
        rw [hview.span, ok_bind, hjoin, ok_bind, hsizing, hview.points, ok_bind, hmap]
        exact ⟨rfl, rfl⟩
      · obtain ⟨hspan, hplace⟩ := span_of_none (List.getElem?_eq_none (Nat.not_lt.mp ha))
        rw [hspan, Texts.points, hplace]
        exact ⟨rfl, rfl⟩
  obtain ⟨hsizing, hmap⟩ := hboth args .oneByte 0 rfl hargs
  refine ⟨?_, hmap⟩
  rw [Strings.appendString, if_neg hnil, hsizing]
  rfl

/-! ### `copy-string` and `substring` -/

theorem copyString_string (hst : st.Sound) (hv : st[v]? = some (.string so)) :
    ∃ copy, st.copyString v = .ok (st.add (.string copy)) ∧ Built so.codePoints copy ∧
      (copy.Exact ↔ so.Exact) := by
  have hsound : so.Sound := hst _ (List.mem_of_getElem? hv)
  have hroom : so.blen / so.flags.width ≤ (gcAlloc so.flags (so.blen + 1)).length := by
    rw [gcAlloc, List.length_replicate]
    exact Nat.div_le_div_right (Nat.le_succ _)
  have hcopy : copyUnits so = .ok (so.s.take (so.blen / so.flags.width) ++
      (gcAlloc so.flags (so.blen + 1)).drop (so.blen / so.flags.width)) := if_pos hsound.room
  have hlen : (so.s.take (so.blen / so.flags.width)).length = so.blen / so.flags.width := by
    rw [List.length_take, Nat.min_eq_left hsound.room]
  refine ⟨{ so with s := terminate so.flags (so.s.take (so.blen / so.flags.width) ++
      (gcAlloc so.flags (so.blen + 1)).drop (so.blen / so.flags.width)) so.blen },
    ?_, ⟨⟨hsound.unicode, hsound.bytes, ?_, ?_⟩, ?_⟩, Iff.rfl⟩
  · rw [Strings.copyString, hv]
    dsimp only
    rw [hcopy]
    rfl
  · rw [terminate, List.length_set, List.length_append, hlen]
    exact Nat.le_add_right _ _
  · apply terminate_lt
    intro u hu
    rcases List.mem_append.mp hu with hu | hu
    · exact hsound.units u (List.mem_of_mem_take hu)
    · exact gcAlloc_lt _ _ u (List.mem_of_mem_drop hu)
  · rw [StringS.codePoints, StringS.codePoints, terminate, List.take_set_of_le hsound.bytes,
      List.take_append_of_le_length (by rw [hlen]; exact hsound.bytes), List.take_take,
      Nat.min_eq_left hsound.bytes]

variable {i len : Nat}

/-- A part of a value is a part of the string it is in. -/
theorem Viewed.substringOffsetLen (h : Viewed st v sp so offset) (hlen : i + len ≤ sp.len) :
    st.substringOffsetLen v i len =
      .ok (st.add (.substring ((offset + i) * so.flags.width) sp.owner len)) := by
  have hspan := h.span
  have howner := h.owner
  have hstart := h.start
  have hinside := h.inside
  rw [Strings.span] at hspan
  rw [Strings.substringOffsetLen]
  cases hv : st[v]? with
  | none =>
    rw [hv] at hspan
    cases hspan
  | some o =>
    rw [hv] at hspan
    cases o with
    | string so' =>
      cases hspan
      dsimp only at howner hstart hinside hlen ⊢
      rw [hv] at howner
      cases howner
      have hoffset : offset = 0 :=
        (Nat.mul_eq_zero.mp hstart.symm).resolve_right (Nat.pos_iff_ne_zero.mp so.flags.width_pos)
      rw [if_neg (by omega), if_neg (by omega), hoffset, Nat.zero_add]
    | substring s parent len' =>
      dsimp only at hspan ⊢
      cases hparent : st[parent]? with
      | none =>
        rw [hparent] at hspan
        cases hspan
      | some o =>
        rw [hparent] at hspan
        cases o with
        | substring => cases hspan
        | string so' =>
          cases hspan
          dsimp only at howner hstart hinside hlen ⊢
          rw [hparent] at howner
          cases howner
          rw [hstart, Nat.mul_div_cancel _ so.flags.width_pos, if_neg (by omega),
            if_neg (by omega), Nat.add_mul]

theorem copyString_substring (hst : st.Sound) {s parent : Nat}
    (hv : st[v]? = some (.substring s parent len)) :
    st.copyString v = .ok (st.add (.substring s parent len)) := by
  obtain ⟨so, hparent, hview⟩ := viewed_substring hst hv
  have hwhole := viewed_string hst hparent
  have hstart := hview.start
  dsimp only at hstart
  have hcopy := hwhole.substringOffsetLen hview.inside
  dsimp only at hcopy
  rw [Nat.zero_add, ← hstart] at hcopy
  rw [Strings.copyString, hv]
  dsimp only
  rw [hparent]
  exact hcopy

/-- A part of a string, wherever it is, is an object of the storage. -/
theorem Viewed.part_sound (h : Viewed st v sp so offset) (hlen : i + len ≤ sp.len) :
    st.SoundObject (.substring ((offset + i) * so.flags.width) sp.owner len) ∧
      st.textOf (.substring ((offset + i) * so.flags.width) sp.owner len) =
        .part sp.owner (offset + i) len := by
  have hinside := h.inside
  have hdiv : (offset + i) * so.flags.width / so.flags.width = offset + i :=
    Nat.mul_div_cancel _ so.flags.width_pos
  refine ⟨⟨so, h.owner, Nat.mul_mod_left _ _, by rw [hdiv]; omega⟩, ?_⟩
  rw [Strings.textOf, Strings.widthAt, h.owner]
  dsimp only
  rw [hdiv]

theorem substring_spec (h : Viewed st v sp so offset) (p0 : Int) (pn : Option Int) :
    match bounds p0 pn sp.len with
    | .error f => st.substring v p0 pn = .error f
    | .ok (i, j) => i ≤ j ∧ j ≤ sp.len ∧
        if i = j then ∃ so, st.substring v p0 pn = .ok (st.add (.string so)) ∧ Built [] so ∧ so.Exact
        else st.substring v p0 pn =
          .ok (st.add (.substring ((offset + i) * so.flags.width) sp.owner (j - i))) := by
  rw [Strings.substring, h.span, ok_bind]
  unfold bounds
  dsimp only
  generalize (if p0 < 0 then p0 + (sp.len : Int) else p0) = ip0
  have between : ∀ (ipn : Int) (r : Result (Nat × Strings)),
      r = (if ip0 < 0 ∨ ip0 > sp.len ∨ ipn < 0 ∨ ipn > sp.len ∨ ipn < ip0 then
          .error (.stringError "substring index: out of bounds")
        else if ipn - ip0 ≠ 0 then st.substringOffsetLen v ip0.toNat (ipn - ip0).toNat
        else do .ok (st.add (.string (← stringCLen [])))) →
      match (if 0 ≤ ip0 ∧ ip0 ≤ ipn ∧ ipn ≤ (sp.len : Int) then .ok (ip0.toNat, ipn.toNat)
        else .error (.stringError "substring index: out of bounds") : Result (Nat × Nat)) with
      | .error f => r = .error f
      | .ok (i, j) => i ≤ j ∧ j ≤ sp.len ∧
          if i = j then ∃ so, r = .ok (st.add (.string so)) ∧ Built [] so ∧ so.Exact
          else r = .ok (st.add (.substring ((offset + i) * so.flags.width) sp.owner (j - i))) := by
    rintro ipn r rfl
    by_cases hin : 0 ≤ ip0 ∧ ip0 ≤ ipn ∧ ipn ≤ sp.len
    · rw [if_pos hin, if_neg (by omega)]
      dsimp only
      refine ⟨by omega, by omega, ?_⟩
      by_cases heq : ip0 = ipn
      · obtain ⟨so, hso, hbuilt, hexact⟩ := stringCLen_nil
        rw [if_pos (by rw [heq]), if_neg (by omega), hso]
        exact ⟨so, rfl, hbuilt, hexact⟩
      · rw [if_neg (by omega), if_pos (by omega), h.substringOffsetLen (by omega),
          show (ipn - ip0).toNat = ipn.toNat - ip0.toNat by omega]
    · rw [if_neg hin]
      exact if_pos (by omega)
  cases pn with
  | none => exact between _ _ rfl
  | some pn => exact between _ _ rfl

/-! ### `string-set!` -/

theorem cwidth_gt_iff (hflags : flags.isUnicode) (c : CodePoint) :
    (if c ≤ 0xff then 1 else if c ≤ 0xffff then 2 else 4) > flags.width ↔ flags.capacity ≤ c := by
  have hc := c.isLt
  have h₁ : c ≤ 0xff ↔ (c : Nat) ≤ 0xff := Fin.le_def
  have h₂ : c ≤ 0xffff ↔ (c : Nat) ≤ 0xffff := Fin.le_def
  simp only [h₁, h₂]
  generalize (c : Nat) = n at hc
  cases flags with
  | oneByte =>
    show _ > 1 ↔ 256 ≤ n
    split <;> [skip; split] <;> omega
  | twoByte =>
    show _ > 2 ↔ 256 ^ 2 ≤ n
    split <;> [skip; split] <;> omega
  | fourByte =>
    show _ > 4 ↔ 256 ^ 4 ≤ n
    split <;> [skip; split] <;> omega
  | octet | pathname | fdPathname | fifoPathname => cases hflags

theorem fromEnd_position (index : Int) (len : Nat) :
    match position index len with
    | some i => i < len ∧ fromEnd index len = i
    | none => fromEnd index len < 0 ∨ fromEnd index len ≥ len := by
  rw [position, fromEnd]
  by_cases hi : 0 ≤ index ∧ index < len
  · rw [if_pos hi, if_neg (by omega)]
    exact ⟨by omega, by omega⟩
  · by_cases hneg : index < 0 ∧ 0 ≤ index + len
    · rw [if_neg hi, if_pos hneg, if_pos hneg.1, if_neg (by omega)]
      exact ⟨by omega, by omega⟩
    · rw [if_neg hi, if_neg hneg]
      dsimp only
      split <;> [split; skip] <;> omega

theorem stringSet_spec (h : Viewed st v sp so offset) (index : Int) (c : CodePoint) :
    st.stringSet v index c =
      if sp.flags.capacity ≤ c then .error (.stringError "string width: replacement char too wide")
      else
        match position index sp.len with
        | some i => .ok (st.set sp.owner (.string { so with s := so.s.set (offset + i) c }))
        | none => .error (.stringError "string length: out of bounds") := by
  have hwide := cwidth_gt_iff (h.flags ▸ h.sound.unicode) c
  rw [Strings.stringSet, h.span]
  dsimp only
  rw [ok_bind]
  by_cases hc : sp.flags.capacity ≤ c
  · rw [if_pos hc, if_pos (hwide.mpr hc)]
  · rw [if_neg hc, if_neg fun hgt => hc (hwide.mp hgt)]
    have hfrom := fromEnd_position index sp.len
    cases hpos : position index sp.len with
    | none =>
      rw [hpos] at hfrom
      exact if_pos hfrom
    | some i =>
      rw [hpos] at hfrom
      obtain ⟨hi, hfrom⟩ := hfrom
      have hinside := h.inside
      have hlen := h.sound.len_le
      rw [hfrom, if_neg (by omega), Strings.writeUnit, h.owner]
      dsimp only
      rw [if_neg (not_not.mpr h.aligned), h.index, putUnit, Int.toNat_natCast, if_pos (by omega),
        Nat.mod_eq_of_lt (Nat.not_le.mp hc)]
      rfl

/-- The string that has been written to. -/
theorem set_sound (h : Viewed st v sp so offset) {c : Nat} (hc : c < sp.flags.capacity) :
    StringS.Sound { so with s := so.s.set (offset + i) c } ∧
      StringS.codePoints { so with s := so.s.set (offset + i) c } =
        so.codePoints.set (offset + i) c := by
  refine ⟨⟨h.sound.unicode, h.sound.bytes, ?_, ?_⟩, ?_⟩
  · dsimp only
    rw [List.length_set]
    exact h.sound.room
  · intro u hu
    rcases List.mem_or_eq_of_mem_set hu with hu | rfl
    · exact h.sound.units u hu
    · exact h.flags ▸ hc
  · exact List.take_set

/-! ### `equal?` -/

theorem sameKind_of_isUnicode {f g : StringFlags} (hf : f.isUnicode) (hg : g.isUnicode) :
    f.sameKind g := by
  cases f with
  | oneByte | twoByte | fourByte =>
    cases g with
    | oneByte | twoByte | fourByte => rfl
    | octet | pathname | fdPathname | fifoPathname => cases hg
  | octet | pathname | fdPathname | fifoPathname => cases hf

/-- `equal?` compares the code points. -/
theorem equal_spec {v₁ v₂ : Nat} {sp₁ sp₂ : Span} {so₁ so₂ : StringS} {offset₁ offset₂ : Nat}
    (hst : st.Sound) (h₁ : Viewed st v₁ sp₁ so₁ offset₁) (h₂ : Viewed st v₂ sp₂ so₂ offset₂) :
    st.equal v₁ v₂ = .ok (so₁.view sp₁ offset₁ == so₂.view sp₂ offset₂) := by
  have hequal := h₁.stringEqual h₂
  have hlen : ∀ {n m : Nat}, sp₁.len = n → sp₂.len = m →
      (if n ≠ m then .ok false else st.stringEqual v₁ v₂ : Result Bool) =
        .ok (so₁.view sp₁ offset₁ == so₂.view sp₂ offset₂) := by
    intro n m hn hm
    by_cases hnm : n = m
    · rw [if_neg (not_not.mpr hnm), hequal]
    · rw [if_pos hnm, beq_eq_false_iff_ne.mpr]
      intro heq
      have := congrArg List.length heq
      rw [h₁.length_view, h₂.length_view] at this
      exact hnm (hn.symm.trans (this.trans hm))
  have hspan₁ := h₁.span
  have hspan₂ := h₂.span
  rw [Strings.equal]
  cases hv₁ : st[v₁]? with
  | none => rw [(span_of_none hv₁).1] at hspan₁; cases hspan₁
  | some o₁ =>
    cases hv₂ : st[v₂]? with
    | none => rw [(span_of_none hv₂).1] at hspan₂; cases hspan₂
    | some o₂ =>
      dsimp only
      by_cases hv : v₁ = v₂
      · subst hv
        have hpoints := h₁.points.symm.trans h₂.points
        rw [if_pos rfl, beq_iff_eq.mpr (Except.ok.inj hpoints)]
      · rw [if_neg hv]
        have spanLen : ∀ {v : Nat} {sp : Span} {s parent len : Nat},
            st[v]? = some (.substring s parent len) → st.span v = .ok sp → sp.len = len := by
          intro v sp s parent len hv hspan
          obtain ⟨so, -, hview⟩ := viewed_substring hst hv
          rw [hview.span] at hspan
          cases hspan
          rfl
        have stringLen : ∀ {v : Nat} {sp : Span} {so : StringS},
            st[v]? = some (.string so) → st.span v = .ok sp → sp.len = so.len := by
          intro v sp so hv hspan
          rw [(viewed_string hst hv).span] at hspan
          cases hspan
          rfl
        cases o₁ with
        | string so =>
          cases o₂ with
          | string so' =>
            have hkind := sameKind_of_isUnicode (viewed_string hst hv₁).sound.unicode
              (viewed_string hst hv₂).sound.unicode
            dsimp only
            rw [hkind, Bool.not_true, if_neg Bool.false_ne_true]
            exact hlen (stringLen hv₁ hspan₁) (stringLen hv₂ hspan₂)
          | substring => exact hlen (stringLen hv₁ hspan₁) (spanLen hv₂ hspan₂)
        | substring =>
          cases o₂ with
          | string so' => exact hlen (spanLen hv₁ hspan₁) (stringLen hv₂ hspan₂)
          | substring => exact hlen (spanLen hv₁ hspan₁) (spanLen hv₂ hspan₂)

end New

/-! ## Runs -/

section Runs

variable {st : Strings} {v : Nat} {sp : Span} {so so' : StringS} {offset : Nat}
  (degrade : Strings → StringFlags → List Nat → Result StringS)

/-- Every string has as many bytes as its length and its width call for. -/
def Strings.Exact (st : Strings) : Prop := ∀ so, .string so ∈ st → so.Exact

theorem exact_add_string (st : Strings) (so : StringS) :
    (st.add (.string so)).2.Exact ↔ st.Exact ∧ so.Exact := by
  constructor
  · exact fun h => ⟨fun so' h' => h so' (List.mem_append_left _ h'),
      h so (List.mem_append_right _ List.mem_cons_self)⟩
  · rintro ⟨h, hso⟩ so' h'
    rcases List.mem_append.mp h' with h' | h'
    · exact h so' h'
    · cases List.mem_singleton.mp h'
      exact hso

theorem exact_add_substring (st : Strings) (s parent len : Nat) :
    (st.add (.substring s parent len)).2.Exact ↔ st.Exact := by
  constructor
  · exact fun h so' h' => h so' (List.mem_append_left _ h')
  · intro h so' h'
    rcases List.mem_append.mp h' with h' | h'
    · exact h so' h'
    · cases List.mem_singleton.mp h'

theorem exact_set (hv : st[v]? = some (.string so)) (h : so'.Exact ↔ so.Exact) :
    Strings.Exact (st.set v (.string so')) ↔ st.Exact := by
  have hlt := (List.getElem?_eq_some_iff.mp hv).1
  constructor
  · intro hall so₁ h₁
    obtain ⟨i, hi, hget⟩ := List.mem_iff_getElem.mp h₁
    by_cases hiv : v = i
    · subst hiv
      rw [List.getElem?_eq_getElem hlt, hget] at hv
      cases hv
      exact h.mp (hall so' (List.mem_set hlt _))
    · refine hall so₁ (List.mem_iff_getElem?.mpr ⟨i, ?_⟩)
      rw [List.getElem?_set_ne hiv, List.getElem?_eq_getElem hi, hget]
  · intro hall so₁ h₁
    rcases List.mem_or_eq_of_mem_set h₁ with h₁ | h₁
    · exact hall so₁ h₁
    · cases h₁
      exact h.mpr (hall so (List.mem_of_getElem? hv))

/-- A list of code points, and at least one, is made a string. -/
def StringOp.CountsTwice (op : StringOp) : Prop := ∃ l, op = .list2string l ∧ l ≠ [] ∧ .other ∉ l

/-- The code point of a `string-set!` takes more bytes than those of the string. -/
def StringOp.TooWide (st : Strings) (op : StringOp) (f : Fault) : Prop :=
  ∃ s index c sp, op = .stringSet s index c ∧ st.span s = .ok sp ∧ sp.flags.capacity ≤ c ∧
    f = .stringError "string width: replacement char too wide"

/-- What an operation does with the storage is what it does with the texts. -/
def StringOp.Agrees (st : Strings) (op : StringOp) : Prop :=
  match op.run degrade st with
  | .ok (v, st') => op.meaning st.texts = .ok (v, st'.texts)
  | .error f => op.meaning st.texts = .error f ∨ op.TooWide st f

/-- What one operation preserves. -/
structure StringOp.Step (st : Strings) (op : StringOp) : Prop where
  agrees : op.Agrees degrade st
  sound : ∀ v st', op.run degrade st = .ok (v, st') → st'.Sound
  exact_iff : ∀ v st', op.run degrade st = .ok (v, st') → (st'.Exact ↔ st.Exact ∧ ¬ op.CountsTwice)
  raises : ∀ f, op.run degrade st = .error f → ¬ op.CountsTwice

variable {degrade} {op : StringOp}

theorem step_of_error {f : Fault} (hrun : op.run degrade st = .error f)
    (hmeaning : op.meaning st.texts = .error f ∨ op.TooWide st f) (hop : ¬ op.CountsTwice) :
    op.Step degrade st where
  agrees := by
    rw [StringOp.Agrees, hrun]
    exact hmeaning
  sound := fun v st' h => by rw [hrun] at h; cases h
  exact_iff := fun v st' h => by rw [hrun] at h; cases h
  raises := fun _ _ => hop

theorem step_of_ok {val : StringValue} {st' : Strings} (hrun : op.run degrade st = .ok (val, st'))
    (hmeaning : op.meaning st.texts = .ok (val, st'.texts)) (hsound : st'.Sound)
    (hexact : st'.Exact ↔ st.Exact ∧ ¬ op.CountsTwice) : op.Step degrade st where
  agrees := by
    rw [StringOp.Agrees, hrun]
    exact hmeaning
  sound := fun v st'' h => by rw [hrun] at h; cases h; exact hsound
  exact_iff := fun v st'' h => by rw [hrun] at h; cases h; exact hexact
  raises := fun f h => by rw [hrun] at h; cases h

/-- An operation that reads. -/
theorem step_of_read (hst : st.Sound) {val : StringValue}
    (hrun : op.run degrade st = .ok (val, st)) (hmeaning : op.meaning st.texts = .ok (val, st.texts))
    (hop : ¬ op.CountsTwice) : op.Step degrade st :=
  step_of_ok hrun hmeaning hst ⟨fun h => ⟨h, hop⟩, And.left⟩

/-- An operation that makes a string. -/
theorem step_of_string (hst : st.Sound) {cps : List Nat} (hbuilt : Built cps so)
    (hrun : op.run degrade st = .ok (.string (st.add (.string so)).1, (st.add (.string so)).2))
    (hmeaning : op.meaning st.texts =
      .ok (.string st.texts.length, st.texts ++ [.whole cps]))
    (hexact : st.Exact → (so.Exact ↔ ¬ op.CountsTwice)) : op.Step degrade st := by
  obtain ⟨hsound, htexts, hv⟩ := add_texts (o := .string so) hst hbuilt.sound
  refine step_of_ok hrun ?_ hsound ((exact_add_string st so).trans (and_congr_right hexact))
  rw [hmeaning, htexts, hv, Strings.textOf, hbuilt.codePoints]

/-- An operation that makes a substring. -/
theorem step_of_substring (hst : st.Sound) {s parent len : Nat} {t : TextObject}
    (ho : st.SoundObject (.substring s parent len)) (ht : st.textOf (.substring s parent len) = t)
    (hrun : op.run degrade st = .ok (.string (st.add (.substring s parent len)).1,
      (st.add (.substring s parent len)).2))
    (hmeaning : op.meaning st.texts = .ok (.string st.texts.length, st.texts ++ [t]))
    (hop : ¬ op.CountsTwice) : op.Step degrade st := by
  obtain ⟨hsound, htexts, hv⟩ := add_texts hst ho
  refine step_of_ok hrun ?_ hsound ?_
  · rw [hmeaning, htexts, hv, ht]
  · exact (exact_add_substring st s parent len).trans ⟨fun h => ⟨h, hop⟩, And.left⟩

theorem viewed_or_undefined (hst : st.Sound) (v : Nat) :
    (∃ sp so offset, Viewed st v sp so offset) ∨
      (st[v]? = none ∧ st.span v = .error .undefined ∧ st.texts.place v = .error .undefined ∧
        st.texts.points v = .error .undefined) := by
  cases hv : st[v]? with
  | none =>
    obtain ⟨hspan, hplace⟩ := span_of_none hv
    exact .inr ⟨rfl, hspan, hplace, by rw [Texts.points, hplace]; rfl⟩
  | some o => exact .inl (exists_viewed hst hv)

theorem step_copyString (hst : st.Sound) (s : Nat) : (StringOp.copyString s).Step degrade st := by
  cases hv : st[s]? with
  | none =>
    obtain ⟨-, hplace⟩ := span_of_none hv
    refine step_of_error (f := .undefined) ?_ (.inl ?_) nofun
    · rw [StringOp.run, Strings.copyString, hv]
      rfl
    · rw [StringOp.meaning, hplace]
      rfl
  | some o =>
    cases o with
    | string so =>
      obtain ⟨copy, hcopy, hbuilt, hexact⟩ := copyString_string hst hv
      refine step_of_string hst hbuilt (by rw [StringOp.run, hcopy]; rfl) ?_
        fun h => iff_of_true (hexact.mpr (h so (List.mem_of_getElem? hv))) nofun
      rw [StringOp.meaning, (viewed_string hst hv).place]
      dsimp only
      rw [ok_bind]
      dsimp only
      rw [if_pos rfl]
    | substring s' parent len =>
      obtain ⟨so, hparent, hview⟩ := viewed_substring hst hv
      have hne : s ≠ parent := by
        rintro rfl
        rw [hv] at hparent
        cases hparent
      have htext : st.textOf (.substring s' parent len) =
          .part parent (s' / so.flags.width) len := by
        rw [Strings.textOf, Strings.widthAt, hparent]
      refine step_of_substring hst (hst _ (List.mem_of_getElem? hv)) htext
        (by rw [StringOp.run, copyString_substring hst hv]; rfl) ?_ nofun
      rw [StringOp.meaning, hview.place, ok_bind]
      dsimp only
      rw [if_neg hne]

theorem step_substring (hst : st.Sound) (s : Nat) (p0 : Int) (pn : Option Int) :
    (StringOp.substring s p0 pn).Step degrade st := by
  rcases viewed_or_undefined hst s with ⟨sp, so, offset, hview⟩ | ⟨-, hspan, hplace, -⟩
  · have hspec := substring_spec hview p0 pn
    cases hbounds : bounds p0 pn sp.len with
    | error f =>
      rw [hbounds] at hspec
      dsimp only at hspec
      refine step_of_error (by rw [StringOp.run, hspec]; rfl) (.inl ?_) nofun
      rw [StringOp.meaning, hview.place, ok_bind]
      dsimp only
      rw [hbounds]
      rfl
    | ok r =>
      obtain ⟨i, j⟩ := r
      rw [hbounds] at hspec
      obtain ⟨hij, hj, hspec⟩ := hspec
      have hmeaning : (StringOp.substring s p0 pn).meaning st.texts =
          .ok (.string st.texts.length, st.texts ++
            [if i = j then .whole [] else .part sp.owner (offset + i) (j - i)]) := by
        rw [StringOp.meaning, hview.place, ok_bind]
        dsimp only
        rw [hbounds, ok_bind]
      by_cases heq : i = j
      · rw [if_pos heq] at hspec hmeaning
        obtain ⟨so', hrun, hbuilt, hexact⟩ := hspec
        exact step_of_string hst hbuilt (by rw [StringOp.run, hrun]; rfl) hmeaning
          fun _ => iff_of_true hexact nofun
      · rw [if_neg heq] at hspec hmeaning
        obtain ⟨hsound, htext⟩ := hview.part_sound (show i + (j - i) ≤ sp.len by omega)
        exact step_of_substring hst hsound htext (by rw [StringOp.run, hspec]; rfl) hmeaning nofun
  · refine step_of_error (f := .undefined) ?_ (.inl ?_) nofun
    · rw [StringOp.run, Strings.substring, hspan]
      rfl
    · rw [StringOp.meaning, hplace]
      rfl

theorem step_stringSet (hst : st.Sound) (s : Nat) (index : Int) (c : CodePoint) :
    (StringOp.stringSet s index c).Step degrade st := by
  rcases viewed_or_undefined hst s with ⟨sp, so, offset, hview⟩ | ⟨-, hspan, hplace, -⟩
  · have hspec := stringSet_spec hview index c
    by_cases hc : sp.flags.capacity ≤ c
    · rw [if_pos hc] at hspec
      exact step_of_error (by rw [StringOp.run, hspec]; rfl)
        (.inr ⟨s, index, c, sp, rfl, hview.span, hc, rfl⟩) nofun
    · rw [if_neg hc] at hspec
      have hmeaning : (StringOp.stringSet s index c).meaning st.texts =
          match position index sp.len with
          | some i => .ok (.unspec, st.texts.set sp.owner (.whole (so.codePoints.set (offset + i) c)))
          | none => .error (.stringError "string length: out of bounds") := by
        rw [StringOp.meaning, hview.place, ok_bind]
      cases hpos : position index sp.len with
      | none =>
        rw [hpos] at hspec hmeaning
        exact step_of_error (by rw [StringOp.run, hspec]; rfl) (.inl hmeaning) nofun
      | some i =>
        rw [hpos] at hspec hmeaning
        obtain ⟨hsound, hpoints⟩ := set_sound hview (i := i) (Nat.not_le.mp hc)
        obtain ⟨hsound', htexts⟩ := set_texts hst hview.owner hsound rfl rfl
        rw [hpoints] at htexts
        have hexact : StringS.Exact { so with s := so.s.set (offset + i) c } ↔ so.Exact := Iff.rfl
        refine step_of_ok (by rw [StringOp.run, hspec]; rfl) (by rw [hmeaning, htexts]) hsound' ?_
        exact (exact_set hview.owner hexact).trans ⟨fun h => ⟨h, nofun⟩, And.left⟩
  · refine step_of_error (f := .undefined) ?_ (.inl ?_) nofun
    · rw [StringOp.run, Strings.stringSet, hspan]
      rfl
    · rw [StringOp.meaning, hplace]
      rfl

/-- Every operation does on the storage what it does on the texts. -/
theorem string_step (hst : st.Sound) (op : StringOp) : op.Step degrade st := by
  cases op with
  | makeString size fill =>
    by_cases hsize : size < 0
    · refine step_of_error (f := .stringError "string size: invalid") ?_ (.inl ?_) nofun
      · rw [StringOp.run, Strings.makeString, if_pos hsize]
        rfl
      · rw [StringOp.meaning, if_pos hsize]
    · obtain ⟨so, hrun, hbuilt, hexact⟩ := makeString_spec st fill hsize
      exact step_of_string hst hbuilt (by rw [StringOp.run, hrun]; rfl)
        (by rw [StringOp.meaning, if_neg hsize]) fun _ => iff_of_true hexact nofun
  | list2string l =>
    by_cases hother : .other ∈ l
    · refine step_of_error (f := .paramType "unicode") ?_ (.inl ?_) ?_
      · rw [StringOp.run, Strings.list2string, listSizing_spec, if_pos hother]
        rfl
      · rw [StringOp.meaning, codePointsOfList, if_pos hother]
        rfl
      · rintro ⟨l', heq, -, hnot⟩
        cases heq
        exact hnot hother
    · obtain ⟨so, hrun, hbuilt, hexact⟩ := list2string_spec st hother
      refine step_of_string hst hbuilt (by rw [StringOp.run, hrun]; rfl) ?_ fun _ => hexact.trans ?_
      · rw [StringOp.meaning, codePointsOfList, if_neg hother]
        rfl
      · constructor
        · rintro rfl ⟨l', heq, hne, -⟩
          cases heq
          exact hne rfl
        · intro h
          by_contra hne
          exact h ⟨l, rfl, hne, hother⟩
  | string2list s =>
    rcases viewed_or_undefined hst s with ⟨sp, so, offset, hview⟩ | ⟨-, hspan, -, hpoints⟩
    · have hlist : st.string2list s = .ok (so.view sp offset) := by
        rw [Strings.string2list, hview.span, ok_bind, hview.string2listLoop (Nat.le_refl _),
          ← hview.length_view, List.take_length, List.append_nil]
      exact step_of_read hst (by rw [StringOp.run, hlist]; rfl)
        (by rw [StringOp.meaning, hview.points]; rfl) nofun
    · exact step_of_error (f := .undefined) (by rw [StringOp.run, Strings.string2list, hspan]; rfl)
        (.inl (by rw [StringOp.meaning, hpoints]; rfl)) nofun
  | appendString args =>
    by_cases hargs : ∀ a ∈ args, a < st.length
    · obtain ⟨so, hrun, hbuilt, hexact⟩ := appendString_spec degrade hst hargs
      refine step_of_string hst hbuilt (by rw [StringOp.run, hrun]; rfl) ?_
        fun _ => iff_of_true hexact nofun
      rw [StringOp.meaning, mapM_points hst hargs]
      rfl
    · obtain ⟨hrun, hmap⟩ := appendString_undefined degrade hst hargs
      exact step_of_error (f := .undefined) (by rw [StringOp.run, hrun]; rfl)
        (.inl (by rw [StringOp.meaning, hmap]; rfl)) nofun
  | copyString s => exact step_copyString hst s
  | substring s p0 pn => exact step_substring hst s p0 pn
  | stringRef s index =>
    rcases viewed_or_undefined hst s with ⟨sp, so, offset, hview⟩ | ⟨-, hspan, -, hpoints⟩
    · have href := hview.stringRefC index
      have hmeaning : (StringOp.stringRef s index).meaning st.texts =
          match (position index sp.len).bind ((so.view sp offset)[·]?) with
          | some cp => .ok (.unicode cp, st.texts)
          | none => .error (.stringError "string length: out of bounds") := by
        rw [StringOp.meaning, hview.points, ok_bind, hview.length_view]
      cases hcp : (position index sp.len).bind ((so.view sp offset)[·]?) with
      | some cp =>
        rw [hcp] at href hmeaning
        exact step_of_read hst (by rw [StringOp.run, href]; rfl) hmeaning nofun
      | none =>
        rw [hcp] at href hmeaning
        exact step_of_error (by rw [StringOp.run, href]; rfl) (.inl hmeaning) nofun
    · exact step_of_error (f := .undefined) (by rw [StringOp.run, Strings.stringRefC, hspan]; rfl)
        (.inl (by rw [StringOp.meaning, hpoints]; rfl)) nofun
  | stringIndex s c =>
    rcases viewed_or_undefined hst s with ⟨sp, so, offset, hview⟩ | ⟨-, hspan, -, hpoints⟩
    · have hindex : st.stringIndex s c false = .ok ((so.view sp offset).idxOf? (c : Nat)) := by
        rw [Strings.stringIndex, hview.span, ok_bind, hview.stringIndexLoop c (Nat.le_refl _),
          Nat.sub_self, List.drop_zero]
        simp only [Nat.zero_add, Option.map_id_fun', id_eq]
      exact step_of_read hst (by rw [StringOp.run, hindex]; rfl)
        (by rw [StringOp.meaning, hview.points]; rfl) nofun
    · exact step_of_error (f := .undefined) (by rw [StringOp.run, Strings.stringIndex, hspan]; rfl)
        (.inl (by rw [StringOp.meaning, hpoints]; rfl)) nofun
  | stringRindex s c =>
    rcases viewed_or_undefined hst s with ⟨sp, so, offset, hview⟩ | ⟨-, hspan, -, hpoints⟩
    · have hindex : st.stringIndex s c true = .ok (lastIdxOf? c (so.view sp offset)) := by
        rw [Strings.stringIndex, hview.span, ok_bind, hview.stringRindexLoop c (Nat.le_refl _),
          ← hview.length_view, List.take_length]
      exact step_of_read hst (by rw [StringOp.run, hindex]; rfl)
        (by rw [StringOp.meaning, hview.points]; rfl) nofun
    · exact step_of_error (f := .undefined) (by rw [StringOp.run, Strings.stringIndex, hspan]; rfl)
        (.inl (by rw [StringOp.meaning, hpoints]; rfl)) nofun
  | stringSet s index c => exact step_stringSet hst s index c
  | equal o1 o2 =>
    rcases viewed_or_undefined hst o1 with ⟨sp₁, so₁, offset₁, h₁⟩ | ⟨hnone, -, -, hpoints⟩
    · rcases viewed_or_undefined hst o2 with ⟨sp₂, so₂, offset₂, h₂⟩ | ⟨hnone, -, -, hpoints⟩
      · exact step_of_read hst (by rw [StringOp.run, equal_spec hst h₁ h₂]; rfl)
          (by rw [StringOp.meaning, h₁.points, ok_bind, h₂.points]; rfl) nofun
      · refine step_of_error (f := .undefined) ?_ (.inl ?_) nofun
        · rw [StringOp.run, Strings.equal, hnone]
          cases st[o1]? <;> rfl
        · rw [StringOp.meaning, h₁.points, ok_bind, hpoints]
          rfl
    · refine step_of_error (f := .undefined) ?_ (.inl ?_) nofun
      · rw [StringOp.run, Strings.equal, hnone]
        rfl
      · rw [StringOp.meaning, hpoints]
        rfl

variable (degrade)

/-- The strings there are after an operation; one that raises a condition leaves them. -/
def StringOp.next (st : Strings) (op : StringOp) : Strings :=
  match op.run degrade st with
  | .ok (_, st') => st'
  | .error _ => st

/-- The strings there are after some operations, beginning with none. -/
def stringRun (ops : List StringOp) : Strings := ops.foldl (StringOp.next degrade) []

theorem stringRun_sound (ops : List StringOp) : (stringRun degrade ops).Sound ∧
    ((stringRun degrade ops).Exact ↔ ∀ op ∈ ops, ¬ op.CountsTwice) := by
  induction ops using List.reverseRecOn with
  | nil => exact ⟨fun o ho => absurd ho List.not_mem_nil,
      iff_of_true (fun so hso => absurd hso List.not_mem_nil) fun op hop => absurd hop List.not_mem_nil⟩
  | append_singleton ops op ih =>
    obtain ⟨hsound, hexact⟩ := ih
    have hstep : op.Step degrade (stringRun degrade ops) := string_step hsound op
    have hnext : stringRun degrade (ops ++ [op]) = op.next degrade (stringRun degrade ops) := by
      rw [stringRun, List.foldl_append]
      rfl
    rw [hnext, StringOp.next, List.forall_mem_append, List.forall_mem_singleton, ← hexact]
    cases hrun : op.run degrade (stringRun degrade ops) with
    | error f => exact ⟨hsound, fun h => ⟨h, hstep.raises f hrun⟩, And.left⟩
    | ok r => exact ⟨hstep.sound r.1 r.2 hrun, hstep.exact_iff r.1 r.2 hrun⟩

/-- **Strings are sequences of code points.**  After every run every operation does on the
storage what it does on the texts, and the width of every string is enough for its code
points; the length in bytes of every string is its length times its width exactly if no
string has been made of a list that is not empty. -/
theorem strings_are_texts (ops : List StringOp) :
    (∀ op : StringOp, op.Agrees degrade (stringRun degrade ops)) ∧
    (∀ so, .string so ∈ stringRun degrade ops → ∀ cp ∈ so.codePoints, cp < so.flags.capacity) ∧
    ((∀ so, .string so ∈ stringRun degrade ops → so.blen = so.len * so.flags.width) ↔
      ∀ op ∈ ops, ¬ op.CountsTwice) := by
  obtain ⟨hsound, hexact⟩ := stringRun_sound degrade ops
  refine ⟨fun op => (string_step hsound op).agrees, fun so hso cp hcp => ?_, hexact⟩
  have hso : so.Sound := hsound _ hso
  exact hso.units cp (List.mem_of_mem_take hcp)

/-- `list->string '(#\a)` has one code point, of one byte, and a length in bytes of two. -/
theorem list_counted_twice :
    stringRun (fun _ _ _ => .error .undefined) [.list2string [.unicode 0x61]] =
        [.string ⟨2, 1, .oneByte, [0x61, 0, 0]⟩] ∧
      2 ≠ 1 * StringFlags.oneByte.width := by
  decide +kernel

end Runs

end Idio
