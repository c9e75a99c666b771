/-
  String/Split.lean --- the fields of strings.

  `idio_string_token` finds one token of a string; `*saved` is where the next one is
  to be looked for, or a sentinel.  `split-string` passes over all delimiters before a
  token and `split-string-exactly` over none.  The token that would be empty at the end
  of the string is never found, and the empty string is not looked at.
-/
import Idio.Lib.Runs
import Idio.String.Strip

set_option autoImplicit false

namespace Idio

/-! ## The loops -/

/-- `idio_strspn` from the position with `n` code points left: `r`. -/
def Strings.strspnLoop (st : Strings) (sp dsp : Span) : Nat → Nat → Result Nat
  | 0, r => .ok r
  | n + 1, r => do
      let icp ← st.readUnit sp (sp.len - (n + 1))
      let seen ← st.discardLoop dsp icp dsp.len
      if seen then st.strspnLoop sp dsp n (r + 1) else .ok r

/-- `IDIO_STRING_TOKEN_SENTINEL` and `IDIO_STRING_STRPBRK_SENTINEL` -/
def tokenSentinel : Int := -1

/-- `idio_strpbrk` from the position with `n` code points left. -/
def Strings.strpbrkLoop (st : Strings) (sp dsp : Span) : Nat → Result Int
  | 0 => .ok tokenSentinel
  | n + 1 => do
      let r := sp.len - (n + 1)
      let icp ← st.readUnit sp r
      let seen ← st.discardLoop dsp icp dsp.len
      if seen then .ok r else st.strpbrkLoop sp dsp n

/-- `idio_string_token`: what it returns, `*saved` and `*len`. -/
def Strings.stringTokenUnits (st : Strings) (sp dsp : Span) (exact : Bool) (i saved : Int) :
    Result (Int × Int × Nat) :=
  let resumes := decide (i = tokenSentinel)
  let i := if resumes then saved else i
  if i = tokenSentinel then .ok (tokenSentinel, saved, 0)
  else do
    -- `prev_delim`
    let _ ← (if resumes then st.readUnit sp (i - 1).toNat else .ok 0xFFFF)
    let skipped ← (if exact then .ok 0 else st.strspnLoop sp dsp (sp.len - i.toNat) 0)
    let i := i + skipped
    if i ≥ sp.len then .ok (tokenSentinel, tokenSentinel, 0)
    else do
      let start ← st.strpbrkLoop sp dsp (sp.len - i.toNat)
      if start = tokenSentinel then .ok (i, tokenSentinel, (sp.len - i).toNat)
      else if start < sp.len then .ok (i, start + 1, (start - i).toNat)
      else .ok (i, tokenSentinel, (start - i).toNat)

/-- The loop of `idio_split_string`: the array, or the list from its last element to its
first. -/
def Strings.splitLoopUnits (sp dsp : Span) (exact array : Bool) (str : Nat) :
    Nat → Int → Int → Strings → List Nat → Result (List Nat × Strings)
  | 0, _, _, _, _ => .error .diverges
  | fuel + 1, i, saved, st, r => do
      let (start, saved, len) ← st.stringTokenUnits sp dsp exact i saved
      if start = tokenSentinel then .ok (r, st)
      else if !exact && len = 0 then .ok (r, st)
      else
        let (subs, st) ← st.substringOffsetLen str start.toNat len
        splitLoopUnits sp dsp exact array str fuel tokenSentinel saved st
          (if array then r ++ [subs] else subs :: r)

/-- `idio_split_string`, code point by code point. -/
def Strings.splitStringUnits (st : Strings) (str delim : Nat) (exact array : Bool) :
    Result (List Nat × Strings) := do
  let sp ← st.span str
  if sp.len = 0 then .ok ([str], st)
  else
    let dsp ← st.span delim
    if dsp.len = 0 then .ok ([str], st)
    else
      -- `! IDIO_STRING_TOKEN_SENTINEL`
      let (r, st) ← splitLoopUnits sp dsp exact array str (sp.len + 1) 0 0 st
        (if array then [str] else [])
      .ok (if array then r else r.reverse, st)

section Loops

variable {st : Strings} {v w : Nat} {sp dsp : Span} {is ds : List Nat}

theorem Reads.strspnLoop (h : Reads st v sp is) (hd : Reads st w dsp ds) {n : Nat} (r : Nat)
    (hn : n ≤ is.length) :
    st.strspnLoop sp dsp n r = .ok (r + strspn is ds (is.length - n)) := by
  induction n generalizing r with
  | zero =>
    rw [Strings.strspnLoop, strspn, Nat.sub_zero, List.drop_length]
    rfl
  | succ n ih =>
    have hlt : is.length - (n + 1) < is.length := by omega
    have hget : is[is.length - (n + 1)]? = some _ := List.getElem?_eq_getElem hlt
    have hnext : is.length - (n + 1) + 1 = is.length - n := by omega
    rw [Strings.strspnLoop, h.len, h.unit _ _ hget, ok_bind, hd.discards, ok_bind, strspn,
      drop_of_getElem? hget, hnext, List.takeWhile_cons]
    cases ds.contains is[is.length - (n + 1)] with
    | false => rfl
    | true =>
      rw [if_pos rfl, if_pos rfl, ih _ (Nat.le_of_succ_le hn), strspn, List.length_cons]
      exact congrArg _ (by omega)

/-- It finds the stop of the field that starts at the position. -/
theorem Reads.strpbrkLoop (h : Reads st v sp is) (hd : Reads st w dsp ds) {n : Nat}
    (hn : n ≤ is.length) :
    st.strpbrkLoop sp dsp n =
      .ok (if Runs.stopFrom (fun c => ds.contains c) is (is.length - n) < is.length then
        (Runs.stopFrom (fun c => ds.contains c) is (is.length - n) : Nat) else tokenSentinel) := by
  induction n with
  | zero =>
    rw [Strings.strpbrkLoop, if_neg]
    exact Nat.not_lt.mpr (Runs.le_stopFrom _ _ _)
  | succ n ih =>
    have hlt : is.length - (n + 1) < is.length := by omega
    have hget : is[is.length - (n + 1)]? = some _ := List.getElem?_eq_getElem hlt
    have hnext : is.length - (n + 1) + 1 = is.length - n := by omega
    rw [Strings.strpbrkLoop, h.len, h.unit _ _ hget, ok_bind, hd.discards, ok_bind]
    cases hc : ds.contains is[is.length - (n + 1)] with
    | false =>
      rw [if_neg Bool.false_ne_true, ih (Nat.le_of_succ_le hn),
        Runs.stopFrom_of_neg hget hc, hnext]
    | true =>
      rw [if_pos rfl, Runs.stopFrom_of_pos hget hc, if_pos hlt]

/-- A call of the tokenizer that looks for a token from `k` on. -/
inductive LooksFrom (is : List Nat) (k : Nat) : Int → Int → Prop where
  | first (saved : Int) : LooksFrom is k k saved
  | resumed (hpos : 0 < k) : LooksFrom is k tokenSentinel k

/-- Where the token from `k` on starts. -/
def tokenStart (is ds : List Nat) (exact : Bool) (k : Nat) : Nat :=
  k + if exact then 0 else strspn is ds k

theorem Reads.stringTokenUnits (h : Reads st v sp is) (hd : Reads st w dsp ds) (exact : Bool)
    {k : Nat} {i saved : Int} (hk : k ≤ is.length) (hcall : LooksFrom is k i saved) :
    let start := tokenStart is ds exact k
    let stop := Runs.stopFrom (fun c => ds.contains c) is start
    st.stringTokenUnits sp dsp exact i saved =
      .ok (if start < is.length then
        ((start : Int), if stop < is.length then (stop : Int) + 1 else tokenSentinel, stop - start)
      else (tokenSentinel, tokenSentinel, 0)) := by
  intro start stop
  have hspan : (if exact then .ok 0 else st.strspnLoop sp dsp (is.length - (k : Int).toNat) 0 : Result Nat) =
      .ok (if exact then 0 else strspn is ds k) := by
    cases exact with
    | true => rfl
    | false =>
      rw [if_neg Bool.false_ne_true, if_neg Bool.false_ne_true, h.strspnLoop hd 0 (Nat.sub_le _ _),
        Int.toNat_natCast, Nat.sub_sub_self hk, Nat.zero_add]
  have hi : (if decide (i = tokenSentinel) then saved else i) = (k : Int) := by
    cases hcall with
    | first =>
      rw [decide_eq_false (by rw [tokenSentinel]; omega)]
      rfl
    | resumed => rfl
  have hprev : ∃ u, (if decide (i = tokenSentinel) then st.readUnit sp ((k : Int) - 1).toNat
      else .ok 0xFFFF) = .ok u := by
    cases hcall with
    | first =>
      rw [decide_eq_false (by rw [tokenSentinel]; omega)]
      exact ⟨_, rfl⟩
    | resumed hpos =>
      have hlt : ((k : Int) - 1).toNat < is.length := by omega
      exact ⟨_, h.unit _ _ (List.getElem?_eq_getElem hlt)⟩
  obtain ⟨u, hu⟩ := hprev
  rw [Strings.stringTokenUnits]
  dsimp only
  rw [hi, if_neg (by rw [tokenSentinel]; omega), hu, ok_bind, h.len, hspan, ok_bind]
  have hstart : (k : Int) + ((if exact then 0 else strspn is ds k : Nat) : Int) = (start : Int) := by
    show _ = ((k + _ : Nat) : Int)
    omega
  rw [hstart]
  by_cases hlt : start < is.length
  · have hback : is.length - (is.length - start) = start := Nat.sub_sub_self (Nat.le_of_lt hlt)
    have hle : start ≤ stop := Runs.le_stopFrom _ _ start
    rw [if_neg (by omega), if_pos hlt, Int.toNat_natCast, h.strpbrkLoop hd (Nat.sub_le _ _), ok_bind,
      hback]
    by_cases hstop : stop < is.length
    · rw [if_pos hstop, if_neg (by rw [tokenSentinel]; omega), if_pos (by omega), if_pos hstop]
      exact congrArg Except.ok (Prod.ext rfl (Prod.ext rfl (by dsimp only; omega)))
    · have hend : stop = is.length := by
        have := Runs.stopFrom_le (p := fun c => ds.contains c) (Nat.le_of_lt hlt)
        omega
      rw [if_neg hstop, if_pos rfl, if_neg hstop, hend]
      exact congrArg Except.ok (Prod.ext rfl (Prod.ext rfl (by dsimp only; omega)))
  · rw [if_pos (by omega), if_neg hlt]

/-- The fields from `k` on that a split is to return. -/
def fieldsOf (is ds : List Nat) (exact : Bool) (k : Nat) : List Runs.Stretch :=
  if exact then Runs.fieldsFrom (fun c => ds.contains c) is k
  else Runs.runsFrom (fun c => ds.contains c) is k

theorem fieldsOf_tokenStart (is ds : List Nat) (exact : Bool) (k : Nat) :
    fieldsOf is ds exact (tokenStart is ds exact k) = fieldsOf is ds exact k := by
  cases exact with
  | true => rfl
  | false =>
    refine Runs.runsFrom_skip fun j hj hlt => ?_
    rw [if_neg Bool.false_ne_true, strspn] at hlt
    have hin : j - k < ((is.drop k).takeWhile fun icp => ds.contains icp).length := by omega
    have hmem := List.mem_takeWhile_imp (List.getElem_mem hin)
    rw [(List.takeWhile_prefix _).getElem hin, List.getElem_drop] at hmem
    simp only [Nat.add_sub_cancel' hj] at hmem
    exact ⟨_, List.getElem?_eq_getElem _, hmem⟩

theorem fieldsOf_end {k : Nat} (exact : Bool) (hk : is.length ≤ k) : fieldsOf is ds exact k = [] := by
  have hnil : Runs.fieldsFrom (fun c => ds.contains c) is k = [] := by
    rw [Runs.fieldsFrom, if_neg (Nat.not_lt.mpr hk)]
  rw [fieldsOf, Runs.runsFrom, hnil, List.filter_nil, ite_self]

/-- What the tokenizer passes over leaves something that is no delimiter. -/
theorem stopFrom_tokenStart {k : Nat} {exact : Bool} (hexact : exact = false)
    (hk : tokenStart is ds exact k < is.length) :
    tokenStart is ds exact k <
      Runs.stopFrom (fun c => ds.contains c) is (tokenStart is ds exact k) := by
  subst hexact
  have hdrop : is.drop (tokenStart is ds false k) =
      (is.drop k).dropWhile fun icp => ds.contains icp := by
    rw [← drop_strspn, List.drop_drop]
    rfl
  have hhead := List.head?_dropWhile_not (fun icp => ds.contains icp) (is.drop k)
  rw [← hdrop, List.drop_eq_getElem_cons hk, List.head?_cons] at hhead
  dsimp only at hhead
  rw [Runs.stopFrom_of_neg (List.getElem?_eq_getElem hk) (by simpa using hhead)]
  exact Runs.le_stopFrom _ _ _

theorem fieldsOf_token {k : Nat} (exact : Bool) (hk : tokenStart is ds exact k < is.length) :
    let start := tokenStart is ds exact k
    let stop := Runs.stopFrom (fun c => ds.contains c) is start
    fieldsOf is ds exact k = ⟨start, stop - start⟩ :: fieldsOf is ds exact (stop + 1) := by
  intro start stop
  have hfields : Runs.fieldsFrom (fun c => ds.contains c) is start =
      ⟨start, stop - start⟩ :: Runs.fieldsFrom (fun c => ds.contains c) is (stop + 1) := by
    rw [Runs.fieldsFrom, if_pos hk]
  rw [← fieldsOf_tokenStart, fieldsOf, fieldsOf, Runs.runsFrom, hfields]
  cases hexact : exact with
  | true => rfl
  | false =>
    have hpos : start < stop := stopFrom_tokenStart hexact hk
    rw [if_neg Bool.false_ne_true, if_neg Bool.false_ne_true, List.filter_cons_of_pos]
    · rfl
    · rw [decide_eq_true_iff]
      dsimp only
      omega

/-- Values that are parts of one, with their places. -/
def PartsOf (st : Strings) (sp : Span) (is : List Nat) : List Nat → List Runs.Stretch → Prop :=
  List.Forall₂ fun v s => Reads st v (sp.part s.start s.len) ((is.drop s.start).take s.len)

/-- What the loop has not found yet, once it looks from `k` on or is done. -/
inductive Pending (is : List Nat) (k : Nat) (i saved : Int) : Prop where
  | looks (hk : k ≤ is.length) (h : LooksFrom is k i saved)
  | done (hk : is.length < k) (hi : i = tokenSentinel) (hsaved : saved = tokenSentinel)

theorem splitLoopUnits_spec (hst : st.Stored) (h : Reads st v sp is) (hd : Reads st w dsp ds)
    (exact array : Bool) {fuel k : Nat} {i saved : Int} (hcall : Pending is k i saved)
    (hfuel : is.length - k < fuel) (r : List Nat) :
    ∃ vs st', Strings.splitLoopUnits sp dsp exact array v fuel i saved st r =
        .ok (if array then r ++ vs else vs.reverse ++ r, st') ∧
      st <+: st' ∧ PartsOf st' sp is vs (fieldsOf is ds exact k) := by
  induction fuel generalizing st k i saved r with
  | zero => exact absurd hfuel (Nat.not_lt_zero _)
  | succ fuel ih =>
    have hnone (hfields : fieldsOf is ds exact k = []) :
        ∃ vs st', (.ok (r, st) : Result (List Nat × Strings)) =
            .ok (if array then r ++ vs else vs.reverse ++ r, st') ∧
          st <+: st' ∧ PartsOf st' sp is vs (fieldsOf is ds exact k) := by
      refine ⟨[], st, ?_, List.prefix_rfl, ?_⟩
      · rw [List.append_nil, List.reverse_nil, List.nil_append, ite_self]
      · rw [hfields]
        exact .nil
    cases hcall with
    | done hk hi hsaved =>
      rw [hi, hsaved]
      exact hnone (fieldsOf_end exact (Nat.le_of_lt hk))
    | looks hk hlooks =>
      rw [Strings.splitLoopUnits, h.stringTokenUnits hd exact hk hlooks, ok_bind]
      by_cases hlt : tokenStart is ds exact k < is.length
      · have hfields := fieldsOf_token exact hlt
        dsimp only at hfields
        have hpos (hexact : exact = false) := stopFrom_tokenStart hexact hlt
        have hle := Runs.le_stopFrom (fun c => ds.contains c) is (tokenStart is ds exact k)
        have hstop := Runs.stopFrom_le (p := fun c => ds.contains c) (Nat.le_of_lt hlt)
        have hkstart : k ≤ tokenStart is ds exact k := Nat.le_add_right _ _
        generalize tokenStart is ds exact k = start at hlt hfields hpos hle hstop hkstart ⊢
        generalize Runs.stopFrom (fun c => ds.contains c) is start = stop
          at hfields hpos hle hstop ⊢
        obtain ⟨st₁, hsub, hpre, hst₁, hpart⟩ := h.part hst (i := start) (n := stop - start)
          (by omega)
        rw [if_pos hlt]
        dsimp only
        rw [if_neg (by rw [tokenSentinel]; omega), if_neg (by cases exact <;> simp_all; omega),
          Int.toNat_natCast, hsub, ok_bind]
        have hpending : Pending is (stop + 1) tokenSentinel
            (if stop < is.length then (stop : Int) + 1 else tokenSentinel) := by
          by_cases hin : stop < is.length
          · rw [if_pos hin]
            exact .looks hin (.resumed (Nat.succ_pos stop))
          · rw [if_neg hin]
            exact .done (by omega) rfl rfl
        obtain ⟨vs, st', hloop, hpre', hparts⟩ := ih hst₁ (h.of_prefix hpre) (hd.of_prefix hpre)
          hpending (by omega) (if array then r ++ [st.length] else st.length :: r)
        refine ⟨st.length :: vs, st', ?_, hpre.trans hpre', ?_⟩
        · rw [hloop]
          cases array <;> simp
        · rw [hfields]
          exact .cons (hpart.of_prefix hpre') hparts
      · rw [if_neg hlt]
        refine hnone ?_
        rw [← fieldsOf_tokenStart]
        exact fieldsOf_end exact (Nat.not_lt.mp hlt)

theorem strpbrk_eq (is ds : List Nat) {i : Nat} (hi : i ≤ is.length) :
    strpbrk is ds i =
      if Runs.stopFrom (fun c => ds.contains c) is i < is.length then
        some (Runs.stopFrom (fun c => ds.contains c) is i) else none := by
  have hfind (xs : List Nat) : xs.findIdx? (fun icp => ds.contains icp) =
      if (xs.takeWhile fun c => !ds.contains c).length < xs.length then
        some (xs.takeWhile fun c => !ds.contains c).length else none := by
    induction xs with
    | nil => rfl
    | cons x xs ih =>
      rw [List.findIdx?_cons, List.takeWhile_cons, ih]
      cases ds.contains x with
      | true => rfl
      | false =>
        simp only [Bool.not_false, if_true, Bool.false_eq_true, if_false, List.length_cons,
          Nat.add_lt_add_iff_right]
        split <;> rfl
  rw [strpbrk, hfind, Runs.stopFrom, List.length_drop]
  split
  · rw [if_pos (by omega)]
    rfl
  · rw [if_neg (by omega)]
    rfl

/-- The next token, and where the one after it is looked for. -/
theorem stringToken_eq (is ds : List Nat) (exact : Bool) (k : Nat) :
    let start := tokenStart is ds exact k
    let stop := Runs.stopFrom (fun c => ds.contains c) is start
    stringToken is ds exact k =
      if start < is.length then
        (some (start, stop - start), if stop < is.length then some (stop + 1) else none)
      else (none, none) := by
  intro start stop
  have hstart : (if exact then k else k + strspn is ds k) = start := by
    cases exact <;> rfl
  rw [stringToken, hstart]
  by_cases hlt : start < is.length
  · rw [if_neg (Nat.not_le.mpr hlt), if_pos hlt, strpbrk_eq is ds (Nat.le_of_lt hlt)]
    by_cases hstop : stop < is.length
    · rw [if_pos hstop, if_pos hstop]
    · have hend : stop ≤ is.length := Runs.stopFrom_le (Nat.le_of_lt hlt)
      rw [if_neg hstop, if_neg hstop, Nat.le_antisymm hend (Nat.not_lt.mp hstop)]
  · rw [if_pos (Nat.not_lt.mp hlt), if_neg hlt]

/-- The two tokenizers find the same tokens. -/
theorem splitLoopUnits_eq (hst : st.Stored) (h : Reads st v sp is) (hd : Reads st w dsp ds)
    (exact array : Bool) {fuel : Nat} {i saved : Int} {o : Option Nat}
    (hcall : (∃ k, o = some k ∧ k ≤ is.length ∧ LooksFrom is k i saved) ∨
      o = none ∧ i = tokenSentinel ∧ saved = tokenSentinel) (r : List Nat) :
    Strings.splitLoopUnits sp dsp exact array v fuel i saved st (if array then r else r.reverse) =
      (st.splitLoop is ds exact v fuel o r).map fun a => (if array then a.1 else a.1.reverse, a.2) := by
  induction fuel generalizing st i saved o r with
  | zero => cases o <;> rfl
  | succ fuel ih =>
    rcases hcall with ⟨k, rfl, hk, hlooks⟩ | ⟨rfl, rfl, rfl⟩
    · rw [Strings.splitLoopUnits, h.stringTokenUnits hd exact hk hlooks, ok_bind, Strings.splitLoop,
        stringToken_eq]
      by_cases hlt : tokenStart is ds exact k < is.length
      · rw [if_pos hlt, if_pos hlt]
        have hle := Runs.le_stopFrom (fun c => ds.contains c) is (tokenStart is ds exact k)
        have hend := Runs.stopFrom_le (p := fun c => ds.contains c) (Nat.le_of_lt hlt)
        generalize tokenStart is ds exact k = start at hlt hle hend ⊢
        generalize Runs.stopFrom (fun c => ds.contains c) is start = stop at hle hend ⊢
        dsimp only
        rw [if_neg (by rw [tokenSentinel]; omega), Int.toNat_natCast]
        by_cases hempty : (!exact && decide (stop - start = 0)) = true
        · rw [if_pos hempty, if_pos hempty]
          rfl
        obtain ⟨st₁, hsub, hpre, hst₁, -⟩ := h.part hst (i := start) (n := stop - start) (by omega)
        rw [if_neg hempty, if_neg hempty, hsub, ok_bind, ok_bind]
        dsimp only
        have hnext : (∃ k, (if stop < is.length then some (stop + 1) else none) = some k ∧
              k ≤ is.length ∧ LooksFrom is k tokenSentinel
                (if stop < is.length then (stop : Int) + 1 else tokenSentinel)) ∨
            (if stop < is.length then some (stop + 1) else none) = none ∧
              tokenSentinel = tokenSentinel ∧
              (if stop < is.length then (stop : Int) + 1 else tokenSentinel) = tokenSentinel := by
          by_cases hstop : stop < is.length
          · rw [if_pos hstop, if_pos hstop]
            exact .inl ⟨stop + 1, rfl, hstop, .resumed (Nat.succ_pos stop)⟩
          · rw [if_neg hstop, if_neg hstop]
            exact .inr ⟨rfl, rfl, rfl⟩
        rw [← ih hst₁ (h.of_prefix hpre) (hd.of_prefix hpre) hnext]
        cases array
        · rw [if_neg Bool.false_ne_true, if_neg Bool.false_ne_true, if_neg Bool.false_ne_true,
            List.reverse_concat]
        · rfl
      · rw [if_neg hlt, if_neg hlt]
        rfl
    · rfl

/-- It is the operation on the code points. -/
theorem Reads.splitStringUnits (hst : st.Stored) (h : Reads st v sp is) (hd : Reads st w dsp ds)
    (exact array : Bool) :
    st.splitStringUnits v w exact array = st.splitString v w exact array := by
  rw [Strings.splitStringUnits, h.span, ok_bind, Strings.splitString, h.string2list, ok_bind,
    hd.string2list, ok_bind, hd.span, h.len]
  by_cases hnil : is = []
  · rw [if_pos (List.length_eq_zero_iff.mpr hnil), if_pos hnil]
  by_cases hdnil : ds = []
  · rw [if_neg (mt List.length_eq_zero_iff.mp hnil), if_neg hnil, ok_bind, hd.len,
      if_pos (List.length_eq_zero_iff.mpr hdnil), if_pos hdnil]
  have hloop (fuel : Nat) (r : List Nat) :
      Strings.splitLoopUnits sp dsp exact array v fuel 0 0 st (if array then r else r.reverse) =
        (st.splitLoop is ds exact v fuel (some 0) r).map
          fun a => (if array then a.1 else a.1.reverse, a.2) :=
    splitLoopUnits_eq hst h hd exact array (.inl ⟨0, rfl, Nat.zero_le _, .first 0⟩) r
  have hloop := hloop (is.length + 1) (if array then [v] else [])
  have hr : (if array then (if array then [v] else []) else (if array then [v] else []).reverse) =
      if array then [v] else [] := by
    cases array <;> rfl
  rw [hr] at hloop
  rw [if_neg (mt List.length_eq_zero_iff.mp hnil), if_neg hnil, ok_bind, hd.len,
    if_neg (mt List.length_eq_zero_iff.mp hdnil), if_neg hdnil, hloop]
  cases st.splitLoop is ds exact v (is.length + 1) (some 0) (if array then [v] else []) with
  | error e => rfl
  | ok a =>
    rw [Except.map, ok_bind]
    dsimp only
    cases array
    · rw [if_neg Bool.false_ne_true, if_neg Bool.false_ne_true, List.reverse_reverse]
    · rfl

theorem splitStringUnits_spec (hst : st.Stored) (h : Reads st v sp is) (hd : Reads st w dsp ds)
    (hds : ds ≠ []) (exact : Bool) :
    ∃ vs st', st.splitStringUnits v w exact false = .ok (vs, st') ∧ st <+: st' ∧
      if is = [] then vs = [v] else PartsOf st' sp is vs (fieldsOf is ds exact 0) := by
  rw [Strings.splitStringUnits, h.span, ok_bind, h.len, hd.span]
  by_cases hnil : is = []
  · rw [if_pos (List.length_eq_zero_iff.mpr hnil)]
    exact ⟨[v], st, rfl, List.prefix_rfl, by rw [if_pos hnil]⟩
  · obtain ⟨vs, st', hloop, hpre, hparts⟩ := splitLoopUnits_spec hst h hd exact false
      (k := 0) (.looks (Nat.zero_le _) (.first 0)) (Nat.lt_succ_self _) []
    rw [if_neg (mt List.length_eq_zero_iff.mp hnil), ok_bind, hd.len,
      if_neg (mt List.length_eq_zero_iff.mp hds), if_neg Bool.false_ne_true]
    rw [if_neg Bool.false_ne_true, List.append_nil] at hloop
    refine ⟨vs, st', ?_, hpre, by rwa [if_neg hnil]⟩
    rw [Nat.sub_zero, Nat.cast_zero] at hloop
    rw [hloop, ok_bind]
    dsimp only
    rw [if_neg Bool.false_ne_true, List.reverse_reverse]

/-! ## Fields -/

/-- `split-string` returns the runs of what is no delimiter, and of the empty string the
string. -/
theorem split_string (hst : st.Stored) (h : Reads st v sp is) (hd : Reads st w dsp ds) (hds : ds ≠ []) :
    (∃ vs st', st.splitStringUnits v w false false = .ok (vs, st') ∧ st <+: st' ∧
      if is = [] then vs = [v]
      else ∃ fs, PartsOf st' sp is vs fs ∧
        fs.Pairwise (fun s t => s.start + s.len < t.start) ∧
        ∀ s, s ∈ fs ↔ Runs.IsRun (fun c => ds.contains c) is s) ∧
    ∃ vs st', st.splitStringUnits v w true false = .ok (vs, st') ∧ st <+: st' ∧
      if is = [] then vs = [v]
      else ∃ fs, PartsOf st' sp is vs fs ∧
        fs.Pairwise (fun s t => s.start + s.len < t.start) ∧
        (∀ s, s ∈ fs ↔ Runs.IsField (fun c => ds.contains c) is s ∧ s.start < is.length) ∧
        fs.flatMap (Runs.withNext is) = is ∧
        fs.length = is.countP (fun c => ds.contains c) +
          if is.getLast?.any (fun c => !ds.contains c) then 1 else 0 := by
  constructor
  · obtain ⟨vs, st', hsplit, hpre, hparts⟩ := splitStringUnits_spec hst h hd hds false
    refine ⟨vs, st', hsplit, hpre, ?_⟩
    split
    · rwa [if_pos ‹_›] at hparts
    · rw [if_neg ‹_›] at hparts
      exact ⟨_, hparts, (Runs.pairwise_fieldsFrom 0).1.filter _, fun s => Runs.mem_runsFrom_zero⟩
  · obtain ⟨vs, st', hsplit, hpre, hparts⟩ := splitStringUnits_spec hst h hd hds true
    refine ⟨vs, st', hsplit, hpre, ?_⟩
    split
    · rwa [if_pos ‹_›] at hparts
    · rw [if_neg ‹_›] at hparts
      refine ⟨_, hparts, (Runs.pairwise_fieldsFrom 0).1, fun s => ?_, Runs.flatMap_withNext 0,
        Runs.length_fieldsFrom 0⟩
      have hmem : s ∈ Runs.fieldsFrom (fun c => ds.contains c) is 0 ↔ _ :=
        Runs.mem_fieldsFrom (.inl rfl)
      exact ⟨fun hs => ⟨(hmem.mp hs).1, (hmem.mp hs).2.2⟩,
        fun hs => hmem.mpr ⟨hs.1, Nat.zero_le _, hs.2⟩⟩

end Loops

/-- "", "a:" and ":" -/
def colonStrings : Strings :=
  [.string ⟨0, 0, .oneByte, [0]⟩, .string ⟨2, 2, .oneByte, [0x61, 0x3a, 0]⟩,
    .string ⟨1, 1, .oneByte, [0x3a, 0]⟩]

/-- There is no field after the last delimiter, and a field where there is no run. -/
theorem last_field_left_out :
    (∃ st', colonStrings.splitStringUnits 1 2 true false = .ok ([3], st') ∧
      st'.string2list 3 = .ok [0x61] ∧
      [3].length ≠ [0x61, 0x3a].countP (fun c => [0x3a].contains c) + 1) ∧
    colonStrings.splitStringUnits 0 2 false false = .ok ([0], colonStrings) ∧
      ∀ s, ¬ Runs.IsRun (fun c => [0x3a].contains c) ([] : List Nat) s := by
  refine ⟨⟨_, rfl, rfl, by decide⟩, rfl, fun s h => ?_⟩
  obtain ⟨x, hx, -⟩ := h.clear s.start (Nat.le_refl _) (Nat.lt_add_of_pos_right h.pos)
  cases hx

/-- "ell" at "l" -/
theorem split_string_ell :
    (∃ vs st', ellStrings.splitStringUnits 1 2 false false = .ok (vs, st') ∧ ellStrings <+: st' ∧
      if ([0x65, 0x6c, 0x6c] : List Nat) = [] then vs = [1]
      else ∃ fs, PartsOf st' ⟨0, 2, 3, .twoByte⟩ [0x65, 0x6c, 0x6c] vs fs ∧
        fs.Pairwise (fun s t => s.start + s.len < t.start) ∧
        ∀ s, s ∈ fs ↔ Runs.IsRun (fun c => [0x6c].contains c) [0x65, 0x6c, 0x6c] s) ∧
    ∃ vs st', ellStrings.splitStringUnits 1 2 true false = .ok (vs, st') ∧ ellStrings <+: st' ∧
      if ([0x65, 0x6c, 0x6c] : List Nat) = [] then vs = [1]
      else ∃ fs, PartsOf st' ⟨0, 2, 3, .twoByte⟩ [0x65, 0x6c, 0x6c] vs fs ∧
        fs.Pairwise (fun s t => s.start + s.len < t.start) ∧
        (∀ s, s ∈ fs ↔ Runs.IsField (fun c => [0x6c].contains c) [0x65, 0x6c, 0x6c] s ∧
          s.start < [0x65, 0x6c, 0x6c].length) ∧
        fs.flatMap (Runs.withNext [0x65, 0x6c, 0x6c]) = [0x65, 0x6c, 0x6c] ∧
        fs.length = [0x65, 0x6c, 0x6c].countP (fun c => [0x6c].contains c) +
          if [0x65, 0x6c, 0x6c].getLast?.any (fun c => !([0x6c].contains c)) then 1 else 0 := by
  have hs : Reads ellStrings 1 ⟨0, 2, 3, .twoByte⟩ [0x65, 0x6c, 0x6c] := reads_of_span rfl rfl
  have hd : Reads ellStrings 2 ⟨2, 0, 1, .oneByte⟩ [0x6c] := reads_of_span rfl rfl
  exact split_string stored_ellStrings hs hd (by decide)

end Idio
