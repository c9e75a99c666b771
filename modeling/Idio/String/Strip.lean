/-
  String/Strip.lean --- the ends of strings.

  `idio_strip_string` goes over the code points of a string from one end or from both,
  and for each of them over the code points to discard.  The offset that comes from
  the right is signed and goes below zero when all is discarded.

  A value may have any of the flags here; a substring is part of a string whatever the
  width of the units is.
-/
import Mathlib.Data.List.DropRight
import Idio.String.Encode

set_option autoImplicit false

namespace Idio

/-! ## Stores -/

/-- What holds of an object whatever the flags are: the units of a string are there, and a
substring lies within a string. -/
def Strings.StoredObject (st : Strings) : StringObject → Prop
  | .string so => so.len ≤ so.s.length
  | .substring s parent len => ∃ so, st[parent]? = some (.string so) ∧
      s % so.flags.width = 0 ∧ s / so.flags.width + len ≤ so.len

def Strings.Stored (st : Strings) : Prop := ∀ o ∈ st, st.StoredObject o

/-- `n` code points of what an operation looks at, from `i` on. -/
def Span.part (sp : Span) (i n : Nat) : Span :=
  { sp with s := sp.s + i * sp.flags.width, len := n }

section Stores

variable {st : Strings} {v : Nat} {sp : Span} {cps : List Nat} {o : StringObject} {i n : Nat}

/-- What an operation looks at lies within a string. -/
structure Within (st : Strings) (sp : Span) (so : StringS) : Prop where
  owner : st[sp.owner]? = some (.string so)
  flags : sp.flags = so.flags
  units : so.len ≤ so.s.length
  aligned : sp.s % sp.flags.width = 0
  inside : sp.s / sp.flags.width + sp.len ≤ so.len

theorem Strings.Stored.within (hst : st.Stored) (h : st.span v = .ok sp) : ∃ so, Within st sp so := by
  rw [Strings.span] at h
  cases hv : st[v]? with
  | none =>
    rw [hv] at h
    cases h
  | some o =>
    rw [hv] at h
    have ho := hst o (List.mem_of_getElem? hv)
    cases o with
    | string so =>
      cases h
      exact ⟨so, hv, rfl, ho, Nat.zero_mod _, by rw [Nat.zero_div, Nat.zero_add]⟩
    | substring s parent len =>
      obtain ⟨so, hparent, haligned, hinside⟩ := ho
      dsimp only at h
      rw [hparent] at h
      cases h
      exact ⟨so, hparent, rfl, hst _ (List.mem_of_getElem? hparent), haligned, hinside⟩

theorem Within.readUnit {so : StringS} (h : Within st sp so) (i : Nat) :
    st.readUnit sp i =
      match so.s[sp.s / sp.flags.width + i]? with
      | some u => .ok u
      | none => .error .undefined := by
  rw [Strings.readUnit, h.owner]
  dsimp only
  exact if_neg (not_not.mpr h.aligned)

theorem Within.append {so : StringS} (h : Within st sp so) (ws : Strings) : Within (st ++ ws) sp so :=
  { h with owner := getElem?_append_of_some ws h.owner }

theorem Within.part {so : StringS} (h : Within st sp so) (hn : i + n ≤ sp.len) :
    Within st (sp.part i n) so where
  owner := h.owner
  flags := h.flags
  units := h.units
  aligned := by
    show (sp.s + i * sp.flags.width) % sp.flags.width = 0
    rw [Nat.add_mul_mod_self_right, h.aligned]
  inside := by
    have hinside := h.inside
    show (sp.s + i * sp.flags.width) / sp.flags.width + n ≤ so.len
    rw [Nat.add_mul_div_right _ _ sp.flags.width_pos]
    omega

theorem StoredObject.append (h : st.StoredObject o) (ws : Strings) :
    Strings.StoredObject (st ++ ws) o := by
  cases o with
  | string so => exact h
  | substring s parent len =>
    obtain ⟨so, hparent, h⟩ := h
    exact ⟨so, getElem?_append_of_some ws hparent, h⟩

theorem Strings.Stored.append (hst : st.Stored) (ho : st.StoredObject o) :
    Strings.Stored (st ++ [o]) := by
  intro o' ho'
  rcases List.mem_append.mp ho' with ho' | ho'
  · exact StoredObject.append (hst _ ho') [o]
  · rw [List.mem_singleton.mp ho']
    exact StoredObject.append ho [o]

theorem reads_of_span (hspan : st.span v = .ok sp) (h : st.string2list v = .ok cps) :
    Reads st v sp cps := by
  obtain ⟨sp', hreads⟩ := reads_of_string2list h
  rw [hreads.span] at hspan
  cases hspan
  exact hreads

/-- A part of a value is a substring of it, at its place. -/
theorem Reads.part (hst : st.Stored) (h : Reads st v sp cps) (hn : i + n ≤ cps.length) :
    ∃ st', st.substringOffsetLen v i n = .ok (st.length, st') ∧ st <+: st' ∧ st'.Stored ∧
      Reads st' st.length (sp.part i n) ((cps.drop i).take n) := by
  obtain ⟨so, hwithin⟩ := hst.within h.span
  have hinside := hwithin.inside
  rw [h.len] at hinside
  have hflags := hwithin.flags
  have hcreated : st.substringOffsetLen v i n =
      .ok (st.add (.substring (sp.s + i * sp.flags.width) sp.owner n)) := by
    have hspan := h.span
    rw [Strings.span] at hspan
    rw [Strings.substringOffsetLen]
    cases hv : st[v]? with
    | none =>
      rw [hv] at hspan
      cases hspan
    | some o =>
      rw [hv] at hspan
      cases o with
      | string so' =>
        cases hspan
        dsimp only at hinside ⊢
        rw [Nat.zero_div, Nat.zero_add] at hinside
        have howner := hwithin.owner
        rw [hv] at howner
        cases howner
        rw [if_neg (by omega), if_neg (by omega), Nat.zero_add]
      | substring s parent len =>
        dsimp only at hspan ⊢
        cases hparent : st[parent]? with
        | none =>
          rw [hparent] at hspan
          cases hspan
        | some o =>
          rw [hparent] at hspan
          cases o with
          | substring => cases hspan
          | string so' =>
            cases hspan
            have howner := hwithin.owner
            rw [hparent] at howner
            cases howner
            dsimp only at hinside ⊢
            generalize s / so.flags.width = k at hinside
            rw [if_neg (by omega), if_neg (by omega)]
  have hpart := hwithin.part (i := i) (n := n) (by rw [h.len]; exact hn)
  have hobject : st.StoredObject (.substring (sp.s + i * sp.flags.width) sp.owner n) :=
    ⟨so, hwithin.owner, hflags ▸ hpart.aligned, hflags ▸ hpart.inside⟩
  refine ⟨_, hcreated, prefix_add _ _, hst.append hobject, ?_, ?_, ?_⟩
  · have hget : (st ++ [_])[st.length]? =
        some (.substring (sp.s + i * sp.flags.width) sp.owner n) := List.getElem?_concat_length
    have howner : (st ++ [_])[sp.owner]? = some (.string so) :=
      getElem?_append_of_some [.substring (sp.s + i * sp.flags.width) sp.owner n] hwithin.owner
    rw [Strings.span, hget]
    dsimp only
    rw [howner, Span.part, hflags]
  · rw [List.length_take, List.length_drop]
    show n = _
    omega
  · intro k cp hk
    rw [List.getElem?_take] at hk
    split at hk
    · rw [List.getElem?_drop] at hk
      have hread := h.unit _ _ hk
      rw [hwithin.readUnit, ← Nat.add_assoc] at hread
      rw [(hpart.append _).readUnit, Span.part, Nat.add_mul_div_right _ _ sp.flags.width_pos]
      exact hread
    · cases hk

end Stores

/-! ## The loops -/

/-- The loop over the code points to discard, `n` of them left: is one of them `scp`? -/
def Strings.discardLoop (st : Strings) (dsp : Span) (scp : Nat) : Nat → Result Bool
  | 0 => .ok false
  | n + 1 => do
      let dcp ← st.readUnit dsp (dsp.len - (n + 1))
      if scp = dcp then .ok true else st.discardLoop dsp scp n

/-- The left strip loop, `n` code points left: `rso`. -/
def Strings.stripLeftLoop (st : Strings) (sp dsp : Span) : Nat → Result Nat
  | 0 => .ok sp.len
  | n + 1 => do
      let rso := sp.len - (n + 1)
      let scp ← st.readUnit sp rso
      let seen ← st.discardLoop dsp scp dsp.len
      if seen then st.stripLeftLoop sp dsp n else .ok rso

/-- The right strip loop: `reo`. -/
def Strings.stripRightLoop (st : Strings) (sp dsp : Span) (rso : Int) : Nat → Int → Result Int
  | 0, _ => .error .diverges
  | fuel + 1, reo =>
      if reo ≥ rso then
        if reo < 0 then .ok reo
        else do
          let scp ← st.readUnit sp reo.toNat
          let seen ← st.discardLoop dsp scp dsp.len
          if seen then st.stripRightLoop sp dsp rso fuel (reo - 1) else .ok reo
      else .ok reo

/-- `ends_bits`, once there is something to discard. -/
def Strings.stripBits (st : Strings) (str : Nat) (sp dsp : Span) (left right : Bool) :
    Result (Nat × Strings) := do
  let rso ← (if left then st.stripLeftLoop sp dsp sp.len else .ok 0)
  if left ∧ rso = sp.len then st.substringOffsetLen str 0 0
  else
    let reo ← (if rso < sp.len ∧ right then
        st.stripRightLoop sp dsp rso (sp.len + 1) ((sp.len : Int) - 1)
      else .ok ((sp.len : Int) - 1))
    if rso = 0 ∧ (sp.len : Int) = reo then .ok (str, st)
    else st.substringOffsetLen str rso (reo - rso + 1).toNat

/-- `idio_strip_string`, code point by code point. -/
def Strings.stripStringUnits (st : Strings) (str discard : Nat) (ends : StripEnds) :
    Result (Nat × Strings) := do
  let sp ← st.span str
  if sp.len = 0 then .ok (str, st)
  else
    let dsp ← st.span discard
    if dsp.len = 0 then .ok (str, st)
    else
      match ends with
      | .left => st.stripBits str sp dsp true false
      | .right => st.stripBits str sp dsp false true
      | .both => st.stripBits str sp dsp true true
      | .none => .ok (str, st)
      | .other => .error (.paramValue "strip-string" "ends" "should be 'left, 'right, 'both or 'none")

section Loops

variable {st : Strings} {v w : Nat} {sp dsp : Span} {ss ds : List Nat}

theorem Reads.discardLoop (h : Reads st w dsp ds) (scp : Nat) {n : Nat} (hn : n ≤ ds.length) :
    st.discardLoop dsp scp n = .ok ((ds.drop (ds.length - n)).contains scp) := by
  induction n with
  | zero =>
    rw [Nat.sub_zero, List.drop_length]
    rfl
  | succ n ih =>
    have hlt : ds.length - (n + 1) < ds.length := by omega
    have hget : ds[ds.length - (n + 1)]? = some _ := List.getElem?_eq_getElem hlt
    have hnext : ds.length - (n + 1) + 1 = ds.length - n := by omega
    rw [Strings.discardLoop, h.len, h.unit _ _ hget, ok_bind, drop_of_getElem? hget, hnext,
      List.contains_cons]
    by_cases hcp : scp = ds[ds.length - (n + 1)]
    · rw [if_pos hcp, beq_iff_eq.mpr hcp, Bool.true_or]
    · rw [if_neg hcp, ih (Nat.le_of_succ_le hn), beq_eq_false_iff_ne.mpr hcp, Bool.false_or]

theorem Reads.discards (h : Reads st w dsp ds) (scp : Nat) :
    st.discardLoop dsp scp dsp.len = .ok (ds.contains scp) := by
  rw [h.len, h.discardLoop scp (Nat.le_refl _), Nat.sub_self, List.drop_zero]

theorem Reads.stripLeftLoop (h : Reads st v sp ss) (hd : Reads st w dsp ds) {n : Nat}
    (hn : n ≤ ss.length) :
    st.stripLeftLoop sp dsp n = .ok (ss.length - n + strspn ss ds (ss.length - n)) := by
  induction n with
  | zero =>
    rw [Strings.stripLeftLoop, h.len, strspn, Nat.sub_zero, List.drop_length]
    rfl
  | succ n ih =>
    have hlt : ss.length - (n + 1) < ss.length := by omega
    have hget : ss[ss.length - (n + 1)]? = some _ := List.getElem?_eq_getElem hlt
    have hnext : ss.length - (n + 1) + 1 = ss.length - n := by omega
    rw [Strings.stripLeftLoop, h.len, h.unit _ _ hget, ok_bind, hd.discards, ok_bind, strspn, drop_of_getElem? hget, hnext,
      List.takeWhile_cons]
    cases ds.contains ss[ss.length - (n + 1)] with
    | false => rfl
    | true =>
      rw [if_pos rfl, if_pos rfl, ih (Nat.le_of_succ_le hn), strspn, List.length_cons]
      exact congrArg _ (by omega)

/-- The loop from the right stops after what is left of the first `m` code points. -/
theorem Reads.stripRightLoop (h : Reads st v sp ss) (hd : Reads st w dsp ds) {rso m fuel : Nat}
    (hrso : rso ≤ m) (hm : m ≤ ss.length) (hfuel : m - rso < fuel) :
    st.stripRightLoop sp dsp rso fuel ((m : Int) - 1) =
      .ok ((rso : Int) + (((ss.take m).drop rso).rdropWhile fun scp => ds.contains scp).length - 1) := by
  induction fuel generalizing m with
  | zero => exact absurd hfuel (Nat.not_lt_zero _)
  | succ fuel ih =>
    rw [Strings.stripRightLoop]
    by_cases heq : rso = m
    · rw [if_neg (by omega), heq, List.drop_eq_nil_of_le (List.length_take_le m ss)]
      exact congrArg _ (by simp)
    · obtain ⟨k, rfl⟩ : ∃ k, m = k + 1 := ⟨m - 1, by omega⟩
      have hget : ss[k]? = some _ := List.getElem?_eq_getElem hm
      have hlast : (ss.take (k + 1)).drop rso = (ss.take k).drop rso ++ [ss[k]] := by
        rw [List.take_add_one, hget, List.drop_append_of_le_length]
        · rfl
        · rw [List.length_take]
          omega
      have hback : ((k + 1 : Nat) : Int) - 1 = k := by omega
      rw [hback, if_pos (by omega), if_neg (by omega), Int.toNat_natCast, h.unit _ _ hget, ok_bind,
        hd.discards, ok_bind, hlast, List.rdropWhile_concat]
      cases ds.contains ss[k] with
      | false =>
        rw [if_neg Bool.false_ne_true, if_neg Bool.false_ne_true, List.length_append,
          List.length_drop, List.length_take, List.length_singleton]
        exact congrArg _ (by omega)
      | true =>
        rw [if_pos rfl, if_pos rfl]
        exact ih (by omega) (by omega) (by omega)

theorem Reads.stripBits (h : Reads st v sp ss) (hd : Reads st w dsp ds) (left right : Bool) :
    st.stripBits v sp dsp left right =
      let rso := if left then strspn ss ds 0 else 0
      if left ∧ rso = ss.length then st.substringOffsetLen v 0 0
      else
        st.substringOffsetLen v rso
          (if right then ((ss.drop rso).rdropWhile fun scp => ds.contains scp).length
            else ss.length - rso) := by
  have hleft : (if left then st.stripLeftLoop sp dsp sp.len else .ok 0) =
      .ok (if left then strspn ss ds 0 else 0) := by
    cases left with
    | false => rfl
    | true =>
      rw [if_pos rfl, if_pos rfl, h.len, h.stripLeftLoop hd (Nat.le_refl _), Nat.sub_self, Nat.zero_add]
  have hle : (if left then strspn ss ds 0 else 0) ≤ ss.length := by
    split
    · exact (List.takeWhile_prefix _).length_le
    · exact Nat.zero_le _
  rw [Strings.stripBits, hleft, ok_bind, h.len]
  generalize (if left then strspn ss ds 0 else 0) = rso at hle
  dsimp only
  split
  · rfl
  · have hright : (if rso < ss.length ∧ right = true then
        st.stripRightLoop sp dsp rso (ss.length + 1) ((ss.length : Int) - 1)
          else .ok ((ss.length : Int) - 1)) =
        .ok ((rso : Int) + (if right then ((ss.drop rso).rdropWhile fun scp => ds.contains scp).length
          else ss.length - rso : Nat) - 1) := by
      cases right with
      | false =>
        rw [if_neg (fun hand => Bool.false_ne_true hand.2), if_neg Bool.false_ne_true]
        exact congrArg _ (by omega)
      | true =>
        by_cases hlt : rso < ss.length
        · rw [if_pos ⟨hlt, rfl⟩, if_pos rfl, h.stripRightLoop hd hle (Nat.le_refl _) (by omega),
            List.take_length]
        · have hend : rso = ss.length := by omega
          rw [if_neg fun hand => hlt hand.1, if_pos rfl, hend, List.drop_length]
          exact congrArg _ (by simp)
    have hshort : (if right then ((ss.drop rso).rdropWhile fun scp => ds.contains scp).length
        else ss.length - rso) ≤ ss.length - rso := by
      split
      · rw [← List.length_drop]
        exact (List.rdropWhile_prefix _ _).length_le
      · exact Nat.le_refl _
    rw [hright, ok_bind]
    generalize (if right = true then _ else _ : Nat) = n at hshort
    have hlen : ((rso : Int) + n - 1 - rso + 1).toNat = n := by omega
    rw [if_neg (by omega), hlen]

/-- It is the operation on the code points. -/
theorem Reads.stripStringUnits (h : Reads st v sp ss) (hd : Reads st w dsp ds) (ends : StripEnds) :
    st.stripStringUnits v w ends = st.stripString v w ends := by
  have hlen {cps : List Nat} {s : Span} {u : Nat} (h : Reads st u s cps) : s.len = 0 ↔ cps = [] := by
    rw [h.len, List.length_eq_zero_iff]
  rw [Strings.stripStringUnits, h.span, ok_bind, Strings.stripString, h.string2list, ok_bind,
    hd.string2list, ok_bind, hd.span, ok_bind]
  dsimp only
  by_cases hs : ss = []
  · rw [if_pos ((hlen h).mpr hs), if_pos hs]
  by_cases hds : ds = []
  · rw [if_neg (mt (hlen h).mp hs), if_neg hs, if_pos ((hlen hd).mpr hds), if_pos hds]
  rw [if_neg (mt (hlen h).mp hs), if_neg hs, if_neg (mt (hlen hd).mp hds), if_neg hds]
  cases ends with
  | left =>
    dsimp only
    rw [h.stripBits hd]
    simp
  | right =>
    dsimp only
    rw [h.stripBits hd]
    simp [List.rdropWhile]
  | both =>
    dsimp only
    rw [h.stripBits hd]
    simp [List.rdropWhile]
  | none => rfl
  | other => rfl

end Loops

/-! ## What is left -/

/-- The ends that a symbol stands for: is one the left, is one the right? -/
def StripEnds.sides : StripEnds → Option (Bool × Bool)
  | .left => some (true, false)
  | .right => some (false, true)
  | .both => some (true, true)
  | .none => Option.none
  | .other => Option.none

/-- A text without the longest prefix and the longest suffix of discards. -/
def stripped (left right : Bool) (ds ss : List Nat) : List Nat :=
  let ss := if left then ss.dropWhile fun scp => ds.contains scp else ss
  if right then ss.rdropWhile fun scp => ds.contains scp else ss

section Stripping

variable {st : Strings} {str discard : Nat} {sp dsp : Span} {ss ds : List Nat}

theorem drop_strspn (is as : List Nat) : is.drop (strspn is as 0) = is.dropWhile fun icp => as.contains icp := by
  have h : (_ ++ is.dropWhile fun icp => as.contains icp).drop _ = _ :=
    List.drop_left' (show (is.takeWhile fun icp => as.contains icp).length = _ from rfl)
  rwa [List.takeWhile_append_dropWhile] at h

theorem stripped_nil (left right : Bool) (ds : List Nat) : stripped left right ds [] = [] := by
  cases left <;> cases right <;> rfl

theorem stripped_of_nil (left right : Bool) (ss : List Nat) : stripped left right [] ss = ss := by
  have hright : ss.rdropWhile (fun scp => ([] : List Nat).contains scp) = ss := by
    cases ss using List.reverseRecOn with
    | nil => rfl
    | append_singleton => exact List.rdropWhile_concat_neg _ _ _ (by simp)
  have hleft : ss.dropWhile (fun scp => ([] : List Nat).contains scp) = ss := by
    cases ss <;> rfl
  rw [stripped, hleft, ite_self, hright, ite_self]

theorem Span.part_zero (sp : Span) : sp.part 0 sp.len = sp := by
  rw [Span.part, Nat.zero_mul, Nat.add_zero]

theorem strip_string (hst : st.Stored) (hs : Reads st str sp ss) (hd : Reads st discard dsp ds)
    {ends : StripEnds} {left right : Bool} (hends : ends.sides = some (left, right)) :
    ∃ v st' i, st.stripStringUnits str discard ends = .ok (v, st') ∧ st <+: st' ∧
      Reads st' v (sp.part i (stripped left right ds ss).length) (stripped left right ds ss) := by
  have hwhole (h : stripped left right ds ss = ss) :
      Reads st str (sp.part 0 (stripped left right ds ss).length) (stripped left right ds ss) := by
    rw [h, ← hs.len, Span.part_zero]
    exact hs
  have hbits : st.stripStringUnits str discard ends =
      if sp.len = 0 then .ok (str, st) else if dsp.len = 0 then .ok (str, st)
      else st.stripBits str sp dsp left right := by
    rw [Strings.stripStringUnits, hs.span, ok_bind, hd.span, ok_bind]
    cases ends <;> cases hends <;> rfl
  rw [hbits]
  by_cases hnil : sp.len = 0
  · have hss : ss = [] := List.length_eq_zero_iff.mp (hs.len ▸ hnil)
    rw [if_pos hnil]
    exact ⟨str, st, 0, rfl, List.prefix_rfl, hwhole (by rw [hss, stripped_nil])⟩
  rw [if_neg hnil]
  by_cases hdnil : dsp.len = 0
  · have hds : ds = [] := List.length_eq_zero_iff.mp (hd.len ▸ hdnil)
    rw [if_pos hdnil]
    exact ⟨str, st, 0, rfl, List.prefix_rfl, hwhole (by rw [hds, stripped_of_nil])⟩
  rw [if_neg hdnil, hs.stripBits hd]
  -- what is left after the loop from the left
  have hdrop : ss.drop (if left then strspn ss ds 0 else 0) =
      if left then ss.dropWhile fun scp => ds.contains scp else ss := by
    cases left with
    | false => rfl
    | true => rw [if_pos rfl, if_pos rfl, drop_strspn]
  have hle : (if left then strspn ss ds 0 else 0) ≤ ss.length := by
    split
    · exact (List.takeWhile_prefix _).length_le
    · exact Nat.zero_le _
  have htext : stripped left right ds ss =
      if right then (ss.drop (if left then strspn ss ds 0 else 0)).rdropWhile fun scp => ds.contains scp
      else ss.drop (if left then strspn ss ds 0 else 0) := by
    rw [hdrop]
    rfl
  generalize (if left then strspn ss ds 0 else 0) = rso at hle htext
  dsimp only
  by_cases hall : left = true ∧ rso = ss.length
  · have hempty : stripped left right ds ss = [] := by
      rw [htext, hall.2, List.drop_length]
      split <;> rfl
    obtain ⟨st', hst', hpre, -, hreads⟩ := hs.part hst (i := 0) (n := 0) (Nat.zero_le _)
    rw [if_pos hall, hempty]
    exact ⟨_, st', 0, hst', hpre, hreads⟩
  · have hn : (if right then ((ss.drop rso).rdropWhile fun scp => ds.contains scp).length
        else ss.length - rso) = (stripped left right ds ss).length := by
      rw [htext]
      split
      · rfl
      · rw [List.length_drop]
    have hprefix : stripped left right ds ss <+: ss.drop rso := by
      rw [htext]
      split
      · exact List.rdropWhile_prefix _ _
      · exact List.prefix_rfl
    have hroom := hprefix.length_le
    rw [List.length_drop] at hroom
    obtain ⟨st', hst', hpre, -, hreads⟩ := hs.part hst (i := rso)
      (n := (stripped left right ds ss).length) (by omega)
    rw [← List.prefix_iff_eq_take.mp hprefix] at hreads
    rw [if_neg hall, hn]
    exact ⟨_, st', rso, hst', hpre, hreads⟩

/-- "ħello" in two-byte units, "ell" as a part of it, and "l" -/
def ellStrings : Strings :=
  [.string ⟨10, 5, .twoByte, [0x127, 0x65, 0x6c, 0x6c, 0x6f]⟩, .substring 2 0 3,
    .string ⟨1, 1, .oneByte, [0x6c, 0]⟩]

theorem stored_ellStrings : ellStrings.Stored := by
  intro o ho
  rcases ho with _ | ⟨_, _ | ⟨_, _ | ⟨_, ho⟩⟩⟩
  · exact Nat.le_refl 5
  · exact ⟨_, rfl, rfl, by decide⟩
  · exact Nat.le_succ 1
  · cases ho

theorem strip_string_ell :
    ∃ v st' i, ellStrings.stripStringUnits 1 2 .both = .ok (v, st') ∧ ellStrings <+: st' ∧
      Reads st' v (Span.part ⟨0, 2, 3, .twoByte⟩ i 1) [0x65] := by
  have hs : Reads ellStrings 1 ⟨0, 2, 3, .twoByte⟩ [0x65, 0x6c, 0x6c] := reads_of_span rfl rfl
  have hd : Reads ellStrings 2 ⟨2, 0, 1, .oneByte⟩ [0x6c] := reads_of_span rfl rfl
  exact strip_string stored_ellStrings hs hd (show StripEnds.both.sides = some (true, true) from rfl)

end Stripping

end Idio
