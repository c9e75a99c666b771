/-
  PathModify.lean --- path-modify of path-functions.

  The loop that edits the elements builds its result in reverse, but puts the new
  elements in front of it in their own order, so they come out in reverse
  (`resultDirs_eq`).  With `:once` the function first calls itself to remove the value;
  that call splits at the default separator, whatever separator the caller gave.
-/
import Idio.Pathname

set_option autoImplicit false

namespace Idio.PathModify

open Pathname Fields

/-! ## The source -/

/-- `act`. -/
inductive Act where
  /-- `first` or `start` -/
  | first
  /-- `last` or `end` -/
  | last
  | verify
  | after
  | before
  | replace
  | remove
  /-- any other symbol -/
  | other
  deriving DecidableEq, Repr

/-- The arguments of `path-modify`; `none` stands for a `val` that is no string. -/
structure Call where
  val : Option Text
  act : Act
  wrt : Text
  sep : Char
  once : Bool
  test : Option (Text → Bool)

/-- `new-dirs` -/
def newDirs (c : Call) : List Text :=
  let dirs := match c.val with
    | some val => splitStringExactly val [c.sep]
    | none => []
  match c.test with
  | some test => (dirs.foldl (fun nval e => if test e then e :: nval else nval) []).reverse
  | none => dirs

/-- `ok` -/
def okP (c : Call) : Bool :=
  if newDirs c = [] then
    match c.act with
    | .verify | .replace | .remove => true
    | _ => false
  else true

/-- What the loop over the elements does with one: `todo` and `r` afterwards. -/
def loopStep (c : Call) (st : Bool × List Text) (e : Text) : Bool × List Text :=
  if st.1 && decide (e = c.wrt) then
    (if c.once then false else st.1,
      match c.act with
      | .after => newDirs c ++ ([e] ++ st.2)
      | .before => [e] ++ (newDirs c ++ st.2)
      | .replace => newDirs c ++ st.2
      | _ => st.2)
  else (st.1, e :: st.2)

/-- The elements of the new value. -/
def resultDirs (c : Call) (origDirs : List Text) : List Text :=
  match c.act with
  | .first => newDirs c ++ origDirs
  | .last => origDirs ++ newDirs c
  | .verify => newDirs c
  | .after | .before | .replace | .remove => (origDirs.foldl (loopStep c) (true, [])).2.reverse
  | .other => origDirs

/-- `path-modify` after the part for `:once`. -/
def modify (c : Call) (value : Text) : Text :=
  if okP c then joinString [c.sep] (resultDirs c (splitStringExactly value [c.sep])) else value

/-- `path-modify var #n 'remove val` -/
def removeVal (val value : Text) : Text := modify ⟨none, .remove, val, ':', false, none⟩ value

/-- The acts that have a part for `:once`. -/
def Act.adds : Act → Bool
  | .first | .last | .after | .before => true
  | _ => false

/-- `path-modify`: the new value of the variable. -/
def pathModify (c : Call) (value : Text) : Text :=
  match c.val with
  | none => modify c value
  | some val =>
      if c.once && c.act.adds && (splitStringExactly value [c.sep]).contains val then
        modify c (removeVal val value)
      else modify c value

/-! ## The edited list -/

/-- The elements of `val` that pass the test. -/
def added (c : Call) : List Text :=
  ((c.val.map (splitStringExactly · [c.sep])).getD []).filter (c.test.getD fun _ => true)

/-- Every element that is `wrt`, or the first one only, replaced by a list. -/
def editMatches (once : Bool) (wrt : Text) (f : List Text) : List Text → List Text
  | [] => []
  | e :: es =>
      if e = wrt then f ++ (if once then es else editMatches once wrt f es)
      else e :: editMatches once wrt f es

/-- What an act puts in the place of an element. -/
def placed (act : Act) (e : Text) (new : List Text) : List Text :=
  match act with
  | .after => e :: new
  | .before => new ++ [e]
  | .replace => new
  | _ => []

/-- The elements with the elements `new` put in by the act. -/
def edit (c : Call) (new origDirs : List Text) : List Text :=
  match c.act with
  | .first => new ++ origDirs
  | .last => origDirs ++ new
  | .verify => new
  | .after | .before | .replace | .remove =>
      editMatches c.once c.wrt (placed c.act c.wrt new) origDirs
  | .other => origDirs

/-! ## The loop -/

section Loop

variable {c : Call} {wrt : Text} {once : Bool}

theorem newDirs_eq (c : Call) : newDirs c = added c := by
  have hfold : ∀ (test : Text → Bool) (dirs nval : List Text),
      (dirs.foldl (fun nval e => if test e then e :: nval else nval) nval).reverse =
        nval.reverse ++ dirs.filter test := by
    intro test dirs
    induction dirs with
    | nil => simp
    | cons e dirs ih =>
      intro nval
      rw [List.foldl_cons, ih, List.filter_cons]
      split <;> simp
  unfold newDirs added
  cases c.val <;> cases c.test <;> simp [hfold]

/-- Elements are looked at from the left, and what is put in comes out in reverse. -/
theorem foldl_loopStep (hact : c.act = .after ∨ c.act = .before ∨ c.act = .replace ∨ c.act = .remove)
    (es : List Text) (todo : Bool) (r : List Text) :
    (es.foldl (loopStep c) (todo, r)).2.reverse =
      r.reverse ++
        if todo then editMatches c.once c.wrt (placed c.act c.wrt (added c).reverse) es else es := by
  induction es generalizing todo r with
  | nil => simp [editMatches]
  | cons e es ih =>
    rw [List.foldl_cons, loopStep]
    by_cases htodo : todo = true
    · subst htodo
      by_cases he : e = c.wrt
      · subst he
        simp only [decide_true, Bool.and_self, if_true]
        rw [ih, editMatches, if_pos rfl, newDirs_eq]
        rcases hact with h | h | h | h <;> cases c.once <;> simp [h, placed]
      · simp [he, ih, editMatches]
    · simp [htodo, ih]

/-- **The new elements are put in in reverse.** -/
theorem resultDirs_eq (c : Call) (origDirs : List Text) :
    resultDirs c origDirs =
      edit c (if c.act = .first ∨ c.act = .last ∨ c.act = .verify then added c
        else (added c).reverse) origDirs := by
  unfold resultDirs edit
  cases h : c.act with
  | first => simp [newDirs_eq]
  | last => simp [newDirs_eq]
  | verify => simp [newDirs_eq]
  | other => rfl
  | after => simp [foldl_loopStep (.inl h), h]
  | before => simp [foldl_loopStep (.inr (.inl h)), h]
  | replace => simp [foldl_loopStep (.inr (.inr (.inl h))), h]
  | remove => simp [foldl_loopStep (.inr (.inr (.inr h))), h]

/-- Lists of one length give the same result only if they are the same, or are put in nowhere. -/
theorem editMatches_inj {f g : List Text} (hlen : f.length = g.length) (es : List Text) :
    editMatches once wrt f es = editMatches once wrt g es ↔ (wrt ∈ es → f = g) := by
  induction es with
  | nil => simp [editMatches]
  | cons e es ih =>
    rw [editMatches, editMatches]
    by_cases he : e = wrt
    · subst he
      rw [if_pos rfl, if_pos rfl]
      constructor
      · exact fun h _ => (List.append_inj h hlen).1
      · intro h
        rw [h List.mem_cons_self]
    · rw [if_neg he, if_neg he, List.cons_inj_right, ih, List.mem_cons]
      simp [Ne.symm he]

end Loop

/-! ## Elements and texts -/

section Elements

variable {sep : Char} {v w : Text} {xs ys : List Text}

theorem not_mem_of_mem_split (h : w ∈ splitStringExactly v [sep]) : sep ∉ w := by
  rw [splitStringExactly_eq] at h
  split at h
  · rw [List.mem_singleton.mp h]
    exact List.not_mem_nil
  · rw [fields] at h
    split at h
    · exact not_mem_of_mem_splitOn (List.mem_of_mem_dropLast h)
    · exact not_mem_of_mem_splitOn h

theorem split_ne_nil (v : Text) (sep : Char) : splitStringExactly v [sep] ≠ [] := by
  rw [splitStringExactly_eq]
  split
  · exact List.cons_ne_nil _ _
  · rename_i hv
    exact (fields_cases hv).1

theorem joinString_inj (hx : ∀ e ∈ xs, sep ∉ e) (hy : ∀ e ∈ ys, sep ∉ e) (hxs : xs ≠ [])
    (hys : ys ≠ []) : joinString [sep] xs = joinString [sep] ys ↔ xs = ys := by
  refine ⟨fun h => ?_, fun h => by rw [h]⟩
  rw [joinString_eq, joinString_eq] at h
  rw [← List.splitOn_intercalate sep hx hxs, h, List.splitOn_intercalate sep hy hys]

/-- Only an empty last element is lost. -/
theorem joinString_split (v : Text) (sep : Char) :
    joinString [sep] (splitStringExactly v [sep]) = v ↔ v.getLast? ≠ some sep := by
  rw [splitStringExactly_eq, joinString_eq]
  split
  · rename_i hv
    simp [hv]
  · rename_i hv
    obtain ⟨hne, ⟨hjoin, -⟩ | ⟨hjoin, -, hlast⟩⟩ := @fields_cases _ _ sep v hv
    · constructor
      · intro h
        rw [h] at hjoin
        exact absurd (congrArg List.length hjoin) (by simp)
      · intro h
        rw [hjoin, List.getLast?_concat] at h
        exact absurd rfl h
    · exact ⟨fun _ => hlast, fun _ => hjoin.symm⟩

/-- The elements of a joined list are those of the list, but for empty ones. -/
theorem filter_split_join (hxs : ∀ e ∈ xs, sep ∉ e) :
    (splitStringExactly (joinString [sep] xs) [sep]).filter (· ≠ []) = xs.filter (· ≠ []) := by
  rw [splitStringExactly_eq, joinString_eq]
  by_cases hne : xs = []
  · rw [hne]
    rfl
  have hsplit := List.splitOn_intercalate sep hxs hne
  split
  · rename_i h
    rw [h, List.splitOn_nil] at hsplit
    rw [← hsplit]
  · rename_i h
    obtain ⟨-, ⟨-, hlast⟩ | ⟨-, hall, -⟩⟩ := @fields_cases _ _ sep _ h
    · rw [hsplit] at hlast
      conv_rhs => rw [hlast, List.filter_append]
      simp
    · rw [← hall, hsplit]

/-- So one that is not empty is among them as often. -/
theorem count_split_join (hxs : ∀ e ∈ xs, sep ∉ e) (hw : w ≠ []) :
    (splitStringExactly (joinString [sep] xs) [sep]).count w = xs.count w := by
  have hcount : ∀ l : List Text, (l.filter (· ≠ [])).count w = l.count w := fun l =>
    List.count_filter (by simp [hw])
  rw [← hcount, filter_split_join hxs, hcount]

end Elements

section Edit

variable {sep : Char} {once : Bool} {wrt w : Text} {f g es : List Text}

theorem mem_editMatches {e : Text} (h : e ∈ editMatches once wrt f es) :
    wrt ∈ es ∧ e ∈ f ∨ e ∈ es := by
  induction es with
  | nil => exact .inr h
  | cons e' es ih =>
    have hlift : wrt ∈ es ∧ e ∈ f ∨ e ∈ es → wrt ∈ e' :: es ∧ e ∈ f ∨ e ∈ e' :: es :=
      Or.imp (And.imp_left (List.mem_cons_of_mem _)) (List.mem_cons_of_mem _)
    rw [editMatches] at h
    split at h
    · rename_i he'
      rcases List.mem_append.mp h with h | h
      · exact .inl ⟨he' ▸ List.mem_cons_self, h⟩
      · split at h
        · exact .inr (List.mem_cons_of_mem _ h)
        · exact hlift (ih h)
    · rcases List.mem_cons.mp h with rfl | h
      · exact .inr List.mem_cons_self
      · exact hlift (ih h)

theorem editMatches_ne_nil (hf : f ≠ []) (hes : es ≠ []) : editMatches once wrt f es ≠ [] := by
  cases es with
  | nil => exact absurd rfl hes
  | cons e es =>
    rw [editMatches]
    split
    · exact List.append_ne_nil_of_left_ne_nil hf _
    · exact List.cons_ne_nil _ _

/-- An element in its own place changes nothing. -/
theorem editMatches_self (once : Bool) (wrt : Text) (es : List Text) :
    editMatches once wrt [wrt] es = es := by
  induction es with
  | nil => rfl
  | cons e es ih =>
    rw [editMatches]
    split
    · rename_i he
      rw [he, ih, ite_self, List.singleton_append]
    · rw [ih]

theorem editMatches_nil (wrt : Text) (es : List Text) :
    editMatches false wrt [] es = es.filter (· ≠ wrt) := by
  induction es with
  | nil => rfl
  | cons e es ih =>
    rw [editMatches, ih, List.filter_cons]
    by_cases he : e = wrt <;> simp [he]

theorem count_editMatches (hes : w ∉ es) :
    (editMatches true wrt f es).count w = if wrt ∈ es then f.count w else 0 := by
  induction es with
  | nil => rfl
  | cons e es ih =>
    rw [List.mem_cons, not_or] at hes
    rw [editMatches]
    by_cases he : e = wrt
    · rw [if_pos he, if_pos rfl, he, if_pos List.mem_cons_self, List.count_append,
        List.count_eq_zero.mpr hes.2, Nat.add_zero]
    · rw [if_neg he, List.count_cons_of_ne (Ne.symm hes.1), ih hes.2]
      simp [Ne.symm he]

/-- What is put in the place of an element and is that element but for some others leaves the rest
in order. -/
theorem filter_editMatches {p : Text → Bool} (hf : f.filter p = [wrt].filter p) (once : Bool)
    (es : List Text) : (editMatches once wrt f es).filter p = es.filter p := by
  induction es with
  | nil => rfl
  | cons e es ih =>
    rw [editMatches]
    by_cases he : e = wrt
    · subst he
      have hcons : (e :: es).filter p = [e].filter p ++ es.filter p :=
        List.filter_append [e] es
      rw [if_pos rfl, List.filter_append, hf, hcons]
      cases once with
      | true => rfl
      | false => rw [if_neg Bool.false_ne_true, ih]
    · rw [if_neg he, List.filter_cons, List.filter_cons, ih]

theorem joinString_editMatches (hlen : f.length = g.length) (hf : f ≠ []) (hg : g ≠ [])
    (hfsep : wrt ∈ es → ∀ e ∈ f, sep ∉ e) (hgsep : wrt ∈ es → ∀ e ∈ g, sep ∉ e)
    (hes : ∀ e ∈ es, sep ∉ e) (hne : es ≠ []) :
    joinString [sep] (editMatches once wrt f es) = joinString [sep] (editMatches once wrt g es) ↔
      (wrt ∈ es → f = g) := by
  by_cases hwrt : wrt ∈ es
  · rw [joinString_inj (fun e he => (mem_editMatches he).elim (fun h => hfsep hwrt e h.2) (hes e))
      (fun e he => (mem_editMatches he).elim (fun h => hgsep hwrt e h.2) (hes e))
      (editMatches_ne_nil hf hne) (editMatches_ne_nil hg hne), editMatches_inj hlen]
  · rw [(editMatches_inj hlen es).mpr fun h => absurd h hwrt]
    simp [hwrt]

end Edit

/-! ## Without the call of itself -/

section Plain

variable {c : Call} {value : Text}

/-- `:once` makes the function call itself if the value is an element already. -/
def Plain (c : Call) (value : Text) : Prop :=
  ¬ (c.once = true ∧ c.act.adds = true ∧
    ∃ val, c.val = some val ∧ val ∈ splitStringExactly value [c.sep])

theorem pathModify_plain (h : Plain c value) : pathModify c value = modify c value := by
  rw [pathModify]
  split
  · rfl
  · rename_i val hval
    refine if_neg fun hcond => h ?_
    simp only [Bool.and_eq_true, List.contains_iff_mem] at hcond
    exact ⟨hcond.1.1, hcond.1.2, val, hval, hcond.2⟩

/-- When there is nothing to add, the value has no empty last element; and what is put in between
the elements reads the same from the right, unless it is put in nowhere. -/
def KeepsOrder (c : Call) (value : Text) : Prop :=
  match c.act with
  | .first | .last | .other => added c = [] → value.getLast? ≠ some c.sep
  | .after | .before =>
      (added c = [] → value.getLast? ≠ some c.sep) ∧
        (c.wrt ∈ splitStringExactly value [c.sep] → (added c).reverse = added c)
  | .replace => c.wrt ∈ splitStringExactly value [c.sep] → (added c).reverse = added c
  | .verify | .remove => True

theorem not_mem_added {e : Text} (h : e ∈ added c) : c.sep ∉ e := by
  have hmem := (List.mem_filter.mp h).1
  cases hval : c.val with
  | none => simp [hval] at hmem
  | some val =>
    rw [hval] at hmem
    exact not_mem_of_mem_split hmem

theorem okP_eq (c : Call) : okP c =
    decide (added c ≠ [] ∨ c.act = .verify ∨ c.act = .replace ∨ c.act = .remove) := by
  rw [okP, newDirs_eq]
  by_cases h : added c = []
  · rw [if_pos h]
    cases c.act <;> simp [h]
  · simp [h]

/-- **The edited list is joined, exactly when no order is changed.** -/
theorem modify_eq_iff (c : Call) (value : Text) :
    modify c value =
        joinString [c.sep] (edit c (added c) (splitStringExactly value [c.sep])) ↔
      KeepsOrder c value := by
  have hsplit := split_ne_nil value c.sep
  have hsep : ∀ e ∈ splitStringExactly value [c.sep], c.sep ∉ e := fun e he => not_mem_of_mem_split he
  have hrev : ∀ e ∈ (added c).reverse, c.sep ∉ e := fun e he => not_mem_added (List.mem_reverse.mp he)
  rw [modify, okP_eq]
  by_cases hadd : added c = []
  · have hunchanged : value = joinString [c.sep] (splitStringExactly value [c.sep]) ↔
        value.getLast? ≠ some c.sep := eq_comm.trans (joinString_split value c.sep)
    rw [resultDirs_eq]
    unfold edit KeepsOrder
    cases hact : c.act with
    | first => simpa [hadd] using hunchanged
    | last => simpa [hadd] using hunchanged
    | other => simpa [hadd] using hunchanged
    | after => simpa [hadd, placed, editMatches_self] using hunchanged
    | before => simpa [hadd, placed, editMatches_self] using hunchanged
    | verify => simp [hadd]
    | replace => simp [hadd]
    | remove => simp [hadd]
  · rw [if_pos (decide_eq_true (.inl hadd)), resultDirs_eq]
    unfold edit KeepsOrder
    cases hact : c.act with
    | first => simp [hadd]
    | last => simp [hadd]
    | other => simp [hadd]
    | verify => simp
    | remove => simp [placed]
    | replace =>
      simp only [reduceCtorEq, or_self, if_false, placed]
      exact joinString_editMatches List.length_reverse (by simpa using hadd) hadd
        (fun _ => hrev) (fun _ e he => not_mem_added he) hsep hsplit
    | after =>
      simp only [reduceCtorEq, or_self, if_false, placed, hadd, false_implies, true_and]
      rw [joinString_editMatches (by simp) (List.cons_ne_nil _ _) (List.cons_ne_nil _ _)
        (fun h => List.forall_mem_cons.mpr ⟨hsep _ h, hrev⟩)
        (fun h => List.forall_mem_cons.mpr ⟨hsep _ h, fun e he => not_mem_added he⟩) hsep hsplit,
        List.cons_inj_right]
    | before =>
      simp only [reduceCtorEq, or_self, if_false, placed, hadd, false_implies, true_and]
      rw [joinString_editMatches (by simp) (by simp) (by simp)
        (fun h => List.forall_mem_append.mpr ⟨hrev, List.forall_mem_singleton.mpr (hsep _ h)⟩)
        (fun h => List.forall_mem_append.mpr
          ⟨fun e he => not_mem_added he, List.forall_mem_singleton.mpr (hsep _ h)⟩) hsep hsplit,
        List.append_left_inj]

end Plain

/-! ## With the call of itself -/

section Once

variable {c : Call} {value w : Text}

/-- At the default separator the call leaves the elements that are not the value. -/
theorem removeVal_eq (w value : Text) : removeVal w value =
    joinString [':'] ((splitStringExactly value [':']).filter (· ≠ w)) := by
  rw [removeVal, modify, okP_eq, if_pos (by simp), resultDirs_eq]
  simp only [edit, placed, editMatches_nil]

/-- The elements that are neither `w` nor empty. -/
def others (w : Text) (elements : List Text) : List Text :=
  elements.filter fun e => decide (e ≠ w ∧ e ≠ [])

/-- The value that `path-modify` goes on with does not have the element any more, and the others
are as before, in their order. -/
theorem exists_remaining (hval : c.val = some w) (honce : c.once = true) (hadds : c.act.adds = true)
    (hw : w ≠ []) (h : w ∉ splitStringExactly value [c.sep] ∨ c.sep = ':') :
    ∃ value', pathModify c value = modify c value' ∧ w ∉ splitStringExactly value' [c.sep] ∧
      (splitStringExactly value' [c.sep]).filter (· ≠ []) = others w (splitStringExactly value [c.sep]) := by
  have hothers : ∀ l : List Text, others w l = (l.filter (· ≠ w)).filter (· ≠ []) := by
    intro l
    rw [others, List.filter_filter]
    refine List.filter_congr fun e _ => ?_
    rw [Bool.decide_and, Bool.and_comm]
  by_cases hmem : w ∈ splitStringExactly value [c.sep]
  · have hsep : c.sep = ':' := h.resolve_left (not_not.mpr hmem)
    have hkept : ∀ e ∈ (splitStringExactly value [':']).filter (· ≠ w), ':' ∉ e :=
      fun e he => not_mem_of_mem_split (List.mem_filter.mp he).1
    have hfilter : (splitStringExactly (removeVal w value) [c.sep]).filter (· ≠ []) =
        others w (splitStringExactly value [c.sep]) := by
      rw [hothers, hsep, removeVal_eq, filter_split_join hkept]
    refine ⟨removeVal w value, ?_, fun hmem' => ?_, hfilter⟩
    · rw [pathModify, hval]
      exact if_pos (by simp [honce, hadds, hmem])
    · have hmem'' : w ∈ others w (splitStringExactly value [c.sep]) :=
        hfilter ▸ List.mem_filter.mpr ⟨hmem', by simp [hw]⟩
      exact (of_decide_eq_true (List.mem_filter.mp hmem'').2).1 rfl
  · refine ⟨value, ?_, hmem, ?_⟩
    · rw [pathModify, hval]
      exact if_neg (by simp [hmem])
    · rw [hothers]
      congr 1
      refine (List.filter_eq_self.mpr fun e he => ?_).symm
      rw [decide_eq_true_iff]
      rintro rfl
      exact hmem he

theorem added_single (hval : c.val = some w) (hsep : c.sep ∉ w) (hw : w ≠ [])
    (htest : c.test.getD (fun _ => true) w = true) : added c = [w] := by
  rw [added, hval, Option.map_some, Option.getD_some, splitStringExactly_eq, if_neg hw,
    fields_of_not_mem hsep hw, List.filter_singleton, htest]
  rfl

/-- How often a value is there that was not an element before. -/
theorem count_edit {origDirs : List Text} (hw : w ∉ origDirs) (honce : c.once = true)
    (hadds : c.act.adds = true) : (edit c [w] origDirs).count w =
      if c.act = .first ∨ c.act = .last ∨ c.wrt ∈ origDirs then 1 else 0 := by
  have hzero : origDirs.count w = 0 := List.count_eq_zero.mpr hw
  have hplaced : ∀ act : Act, act = .after ∨ act = .before → c.wrt ∈ origDirs →
      (placed act c.wrt [w]).count w = 1 := by
    intro act hact hwrt
    have hne : c.wrt ≠ w := fun h => hw (h ▸ hwrt)
    rcases hact with rfl | rfl <;> simp [placed, hne]
  unfold edit
  cases hact : c.act with
  | first => simp [hzero]
  | last => simp [hzero]
  | after =>
    rw [honce, count_editMatches hw]
    by_cases hwrt : c.wrt ∈ origDirs
    · simp [hwrt, hplaced .after (.inl rfl) hwrt]
    · simp [hwrt]
  | before =>
    rw [honce, count_editMatches hw]
    by_cases hwrt : c.wrt ∈ origDirs
    · simp [hwrt, hplaced .before (.inr rfl) hwrt]
    · simp [hwrt]
  | verify => simp [hact, Act.adds] at hadds
  | replace => simp [hact, Act.adds] at hadds
  | remove => simp [hact, Act.adds] at hadds
  | other => simp [hact, Act.adds] at hadds

/-- The other elements keep their order. -/
theorem others_edit (origDirs : List Text) (hadds : c.act.adds = true) :
    others w (edit c [w] origDirs) = others w origDirs := by
  have hw : others w [w] = [] := by simp [others]
  have happend : ∀ l l' : List Text, others w (l ++ l') = others w l ++ others w l' := fun l l' =>
    List.filter_append l l'
  unfold edit
  cases hact : c.act with
  | first => exact (happend _ _).trans (by rw [hw, List.nil_append])
  | last => exact (happend _ _).trans (by rw [hw, List.append_nil])
  | after =>
    refine filter_editMatches ?_ c.once origDirs
    exact (happend [c.wrt] [w]).trans (by rw [hw, List.append_nil]; rfl)
  | before =>
    refine filter_editMatches ?_ c.once origDirs
    exact (happend [w] [c.wrt]).trans (by rw [hw, List.nil_append]; rfl)
  | verify => simp [hact, Act.adds] at hadds
  | replace => simp [hact, Act.adds] at hadds
  | remove => simp [hact, Act.adds] at hadds
  | other => simp [hact, Act.adds] at hadds

theorem mem_edit {origDirs new : List Text} {e : Text} (h : e ∈ edit c new origDirs) :
    e ∈ new ∨ e ∈ origDirs := by
  have hplaced : e ∈ editMatches c.once c.wrt (placed c.act c.wrt new) origDirs →
      e ∈ new ∨ e ∈ origDirs := by
    intro h
    rcases mem_editMatches h with ⟨hwrt, h⟩ | h
    · unfold placed at h
      split at h
      · exact (List.mem_cons.mp h).elim (fun he => .inr (he ▸ hwrt)) .inl
      · rcases List.mem_append.mp h with h | h
        · exact .inl h
        · rw [List.mem_singleton.mp h]
          exact .inr hwrt
      · exact .inl h
      · exact absurd h List.not_mem_nil
    · exact .inr h
  unfold edit at h
  cases hact : c.act <;> simp only [hact] at h hplaced
  case first => exact List.mem_append.mp h
  case last => exact (List.mem_append.mp h).symm
  case verify => exact .inl h
  case other => exact .inr h
  all_goals exact hplaced h

/-- **Once is once**, where the value is no element yet or the separator is the default one, and
there is a place for it; and the others keep their order. -/
theorem once_iff (hval : c.val = some w) (honce : c.once = true) (hadds : c.act.adds = true)
    (hsep : c.sep ∉ w) (hw : w ≠ []) (htest : c.test.getD (fun _ => true) w = true)
    (hwrt : c.wrt ≠ []) (h : w ∉ splitStringExactly value [c.sep] ∨ c.sep = ':') :
    ((splitStringExactly (pathModify c value) [c.sep]).count w = 1 ↔
      c.act = .first ∨ c.act = .last ∨
        (c.wrt ∈ splitStringExactly value [c.sep] ∧ c.wrt ≠ w)) ∧
    others w (splitStringExactly (pathModify c value) [c.sep]) =
      others w (splitStringExactly value [c.sep]) := by
  obtain ⟨value', hrun, hnot, hremaining⟩ := exists_remaining hval honce hadds hw h
  have hadd := added_single hval hsep hw htest
  have hresult : resultDirs c (splitStringExactly value' [c.sep]) =
      edit c [w] (splitStringExactly value' [c.sep]) := by
    rw [resultDirs_eq, hadd, List.reverse_singleton, ite_self]
  have hfree : ∀ e ∈ edit c [w] (splitStringExactly value' [c.sep]), c.sep ∉ e := by
    intro e he
    rcases mem_edit he with he | he
    · rw [List.mem_singleton.mp he]
      exact hsep
    · exact not_mem_of_mem_split he
  have hmodify : modify c value' = joinString [c.sep] (edit c [w] (splitStringExactly value' [c.sep])) := by
    rw [modify, okP_eq, if_pos (by simp [hadd]), hresult]
  have hplace : c.wrt ∈ splitStringExactly value' [c.sep] ↔
      c.wrt ∈ splitStringExactly value [c.sep] ∧ c.wrt ≠ w := by
    have hmem : c.wrt ∈ splitStringExactly value' [c.sep] ↔
        c.wrt ∈ (splitStringExactly value' [c.sep]).filter (· ≠ []) := by
      simp [hwrt]
    rw [hmem, hremaining]
    simp [others, hwrt]
  have hskip : ∀ l : List Text, others w (l.filter (· ≠ [])) = others w l := by
    intro l
    rw [others, others, List.filter_filter]
    refine List.filter_congr fun e _ => ?_
    simp
  rw [hrun, hmodify]
  constructor
  · rw [count_split_join hfree hw, count_edit hnot honce hadds, ← hplace]
    split_ifs with hthere <;> simp [hthere]
  · rw [← hskip, filter_split_join hfree, hskip, others_edit _ hadds, ← hskip, hremaining]
    rw [others, others, List.filter_filter]
    refine List.filter_congr fun e _ => ?_
    simp

end Once

/-- **The edits of path-modify.**  A call that does not call itself joins the edited list exactly
when it keeps the order of what it puts in, and has a last element where it has nothing to add.  With
`:once` an element is there once exactly when there is a place for it, and the others keep their order,
provided that it was not there before or the separator is the one that the function gives itself. -/
theorem path_modify (c : Call) (value : Text) :
    (Plain c value →
      (pathModify c value =
          joinString [c.sep] (edit c (added c) (splitStringExactly value [c.sep])) ↔
        KeepsOrder c value)) ∧
      ∀ w, c.val = some w → c.once = true → c.act.adds = true → c.sep ∉ w → w ≠ [] →
        c.test.getD (fun _ => true) w = true → c.wrt ≠ [] →
          (w ∉ splitStringExactly value [c.sep] ∨ c.sep = ':') →
            ((splitStringExactly (pathModify c value) [c.sep]).count w = 1 ↔
              c.act = .first ∨ c.act = .last ∨
                (c.wrt ∈ splitStringExactly value [c.sep] ∧ c.wrt ≠ w)) ∧
            others w (splitStringExactly (pathModify c value) [c.sep]) =
              others w (splitStringExactly value [c.sep]) := by
  refine ⟨fun hplain => ?_, fun w hval honce hadds hsep hw htest hwrt h =>
    once_iff hval honce hadds hsep hw htest hwrt h⟩
  rw [pathModify_plain hplain]
  exact modify_eq_iff c value

/-- A call of `path-modify` at `:` without `:test`. -/
def call (val : Text) (act : Act) (wrt : Text) (once : Bool) : Call :=
  ⟨some val, act, wrt, ':', once, none⟩

theorem path_modify_abc :
    pathModify (call ['x'] .after ['b'] false) ['a', ':', 'b', ':', 'c'] =
        ['a', ':', 'b', ':', 'x', ':', 'c'] ∧
      (splitStringExactly (pathModify (call ['c'] .before ['a'] true) ['a', ':', 'b', ':', 'c'])
        [':']).count ['c'] = 1 := by
  constructor
  · have hplain : Plain (call ['x'] .after ['b'] false) ['a', ':', 'b', ':', 'c'] :=
      fun h => Bool.false_ne_true h.1
    exact ((path_modify _ _).1 hplain).mpr ⟨fun h => absurd h (by decide), fun _ => by decide⟩
  · exact ((path_modify (call ['c'] .before ['a'] true) ['a', ':', 'b', ':', 'c']).2 ['c'] rfl rfl rfl
      (by decide) (by decide) rfl (by decide) (.inr rfl)).1.mpr (.inr (.inr (by decide)))

/-- Two elements after another come out in reverse; and with another separator an element that is
there already is put in a second time. -/
theorem reversed_and_twice :
    pathModify (call ['x', ':', 'y'] .after ['a'] false) ['a', ':', 'b'] =
        ['a', ':', 'y', ':', 'x', ':', 'b'] ∧
      joinString [':'] (edit (call ['x', ':', 'y'] .after ['a'] false)
          (added (call ['x', ':', 'y'] .after ['a'] false)) [['a'], ['b']]) =
        ['a', ':', 'x', ':', 'y', ':', 'b'] ∧
      pathModify ⟨some ['a'], .first, ['b'], ';', true, none⟩ ['a', ';', 'b'] =
        ['a', ';', 'a', ';', 'b'] := by
  decide

end Idio.PathModify
