/-
  Pathname.lean --- reduce-pathname and normalize-pathname of path-functions.

  A pathname is split at its separators, the elements are put on a stack (`..` takes
  one off) and what is on the stack is joined.  The place of an absolute pathname is
  the list of names one comes by from the root: it is all that `reduce-pathname` keeps
  (`reducePathname_absolute`), and the laws follow from that.
-/
import Idio.Directories
import Idio.String.Constant
import Idio.Lib.Fields

set_option autoImplicit false

namespace Idio.Pathname

open Directories Fields

/-! ## Splitting and joining -/

/-- The loop of `idio_split_string` for `split-string-exactly`, which starts the next token
at `i`. -/
def splitExactlyLoop (is ds : Text) : Nat → Option Nat → List Text
  | 0, _ => []
  | _ + 1, none => []
  | fuel + 1, some i =>
      match stringToken (is.map Char.toNat) (ds.map Char.toNat) true i with
      | (none, _) => []
      | (some (start, len), saved) => (is.drop start).take len :: splitExactlyLoop is ds fuel saved

/-- `split-string-exactly` -/
def splitStringExactly (is ds : Text) : List Text :=
  if is = [] then [is]
  else if ds = [] then [is]
  else splitExactlyLoop is ds (is.length + 1) (some 0)

/-- `join-string` -/
def joinString (delim : Text) (args : List Text) : Text :=
  (args.foldl (fun r s => s :: if r ≠ [] then delim :: r else r) []).reverse.flatten

section Split

variable {sep : Char} {u t is : Text}

theorem strpbrk_eq (is ds : Text) (i : Nat) :
    strpbrk (is.map Char.toNat) (ds.map Char.toNat) i =
      ((is.drop i).findIdx? fun c => ds.contains c).map (i + ·) := by
  have hmem : ∀ c : Char, (ds.map Char.toNat).contains c.toNat = ds.contains c := by
    intro c
    rw [Bool.eq_iff_iff, List.contains_iff_mem, List.contains_iff_mem, List.mem_map]
    constructor
    · rintro ⟨d, hd, hdc⟩
      rwa [← Char.toNat_inj.mp hdc]
    · exact fun hc => ⟨c, hc, rfl⟩
  rw [strpbrk, ← List.map_drop, List.findIdx?_map]
  congr 2
  funext c
  exact hmem c

/-- The loop yields the fields of what is left. -/
theorem splitExactlyLoop_eq (is : Text) (sep : Char) {fuel i : Nat} (hi : i ≤ is.length)
    (hfuel : is.length - i < fuel) :
    splitExactlyLoop is [sep] fuel (some i) = fields sep (is.drop i) := by
  induction fuel generalizing i with
  | zero => exact absurd hfuel (Nat.not_lt_zero _)
  | succ fuel ih =>
    rw [splitExactlyLoop, stringToken]
    simp only [if_true, List.length_map, strpbrk_eq]
    by_cases hend : i = is.length
    · rw [if_pos (by omega), hend, List.drop_length, fields_nil]
    rw [if_neg (by omega)]
    have hne : is.drop i ≠ [] := by
      intro h
      rw [List.drop_eq_nil_iff] at h
      omega
    cases hfind : (is.drop i).findIdx? fun c => [sep].contains c with
    | none =>
      have hnot : sep ∉ is.drop i := by
        intro hmem
        have := List.findIdx?_eq_none_iff.mp hfind sep hmem
        simp at this
      rw [fields_of_not_mem hnot hne]
      simp only [Option.map_none]
      rw [List.take_of_length_le (by rw [List.length_drop])]
      cases fuel with
      | zero => omega
      | succ fuel => rfl
    | some k =>
      obtain ⟨hk, hsep, hbefore⟩ := List.findIdx?_eq_some_iff_getElem.mp hfind
      rw [List.length_drop] at hk
      have hchar : (is.drop i)[k] = sep := by simpa using hsep
      have hsplit : is.drop i = (is.drop i).take k ++ sep :: is.drop (i + (k + 1)) := by
        rw [← List.drop_drop, ← hchar, ← List.drop_eq_getElem_cons, List.take_append_drop]
      have hnot : sep ∉ (is.drop i).take k := by
        intro hmem
        obtain ⟨j, hj, hjk⟩ := List.mem_iff_getElem.mp hmem
        rw [List.length_take, List.length_drop] at hj
        have := hbefore j (by omega)
        rw [List.getElem_take] at hjk
        simp [hjk] at this
      simp only [Option.map_some]
      rw [ih (by omega) (by omega)]
      conv_rhs => rw [hsplit, fields_append_cons hnot]
      rw [show i + k - i = k by omega, Nat.add_assoc]

/-- `split-string-exactly` at one character. -/
theorem splitStringExactly_eq (is : Text) (sep : Char) :
    splitStringExactly is [sep] = if is = [] then [[]] else fields sep is := by
  rw [splitStringExactly]
  by_cases h : is = []
  · rw [if_pos h, if_pos h, h]
  · rw [if_neg h, if_neg h, if_neg (List.cons_ne_nil _ _),
      splitExactlyLoop_eq is sep (Nat.zero_le _) (by omega), List.drop_zero]

end Split

theorem joinString_eq (delim : Text) (args : List Text) :
    joinString delim args = delim.intercalate args := by
  have hfold : ∀ (args r : List Text), r ≠ [] →
      (args.foldl (fun r s => s :: if r ≠ [] then delim :: r else r) r).reverse.flatten =
        r.reverse.flatten ++ (args.map (delim ++ ·)).flatten := by
    intro args
    induction args with
    | nil => simp
    | cons s args ih =>
      intro r hr
      rw [List.foldl_cons, if_pos hr, ih _ (List.cons_ne_nil _ _)]
      simp
  have hjoin : ∀ (args : List Text) (s : Text),
      delim.intercalate (s :: args) = s ++ (args.map (delim ++ ·)).flatten := by
    intro args
    induction args with
    | nil => simp
    | cons t args ih =>
      intro s
      rw [List.intercalate_cons_cons, ih t]
      simp
  cases args with
  | nil => rfl
  | cons s args =>
    rw [joinString, List.foldl_cons, if_neg (not_not.mpr rfl), hfold _ _ (List.cons_ne_nil _ _), hjoin]
    simp

/-! ## The source -/

/-- `reduce-pathname`; `#\/` is the default of `sep`. -/
def reducePathname (sep : Char) (val : Text) : Text :=
  if 0 < val.length then
    if val = ['.'] then val
    else
      let r := ((splitStringExactly val [sep]).foldl reduceElement []).reverse
      if r = [] then
        if val.head? = some sep then [sep] else []
      else
        let rs := joinString [sep] r
        if val.head? = some sep then [sep] ++ rs else rs
  else val

/-- `normalize-pathname` -/
def normalizePathname (sep : Char) (pwd val : Text) : Text :=
  reducePathname sep
    (if ¬ (0 < val.length ∧ val.head? = some sep) then pwd ++ [sep] ++ val else val)

/-! ## Places -/

/-- The pathname begins at the root. -/
def Absolute (sep : Char) (val : Text) : Prop := val.head? = some sep

/-- Where an element leads from a place: `.` is the place itself, and `..` the one above, if there
is one. -/
def walk (p : List Text) (e : Text) : List Text :=
  if e = [] ∨ e = ['.'] then p
  else if e = ['.', '.'] then p.dropLast
  else p ++ [e]

/-- The place of an absolute pathname: the names from the root on. -/
def place (sep : Char) (val : Text) : List Text := (val.splitOn sep).foldl walk []

/-- A list of names as a pathname. -/
def fromRoot (sep : Char) (p : List Text) : Text := sep :: [sep].intercalate p

/-- An element that a reduced pathname may have. -/
def Name (sep : Char) (e : Text) : Prop := e ≠ [] ∧ e ≠ ['.'] ∧ e ≠ ['.', '.'] ∧ sep ∉ e

section Walk

variable {sep : Char} {p es : List Text} {e val : Text}

/-- The stack is the place, last name first. -/
theorem reverse_reduceElement (r : List Text) (e : Text) :
    (reduceElement r e).reverse = walk r.reverse e := by
  unfold reduceElement
  rw [walk]
  by_cases h1 : e = []
  · rw [if_pos h1, if_pos (.inl h1)]
  by_cases h2 : e = ['.']
  · rw [if_neg h1, if_pos h2, if_pos (.inr h2)]
  by_cases h3 : e = ['.', '.']
  · rw [if_neg h1, if_neg h2, if_pos h3, if_neg (by simp [h1, h2]), if_pos h3]
    cases r with
    | nil => rfl
    | cons a t => simp
  · rw [if_neg h1, if_neg h2, if_neg h3, if_neg (by simp [h1, h2]), if_neg h3, List.reverse_cons]

theorem reverse_foldl_reduceElement (es r : List Text) :
    (es.foldl reduceElement r).reverse = es.foldl walk r.reverse := by
  induction es generalizing r with
  | nil => rfl
  | cons e es ih => rw [List.foldl_cons, ih, reverse_reduceElement, List.foldl_cons]

/-- Empty elements lead nowhere. -/
theorem foldl_walk_filter (es p : List Text) :
    (es.filter (· ≠ [])).foldl walk p = es.foldl walk p := by
  induction es generalizing p with
  | nil => rfl
  | cons e es ih =>
    by_cases he : e = []
    · rw [List.filter_cons_of_neg (by simp [he]), ih, List.foldl_cons, walk, if_pos (.inl he)]
    · rw [List.filter_cons_of_pos (by simp [he]), List.foldl_cons, ih, List.foldl_cons]

theorem foldl_walk_names (sep : Char) (val : Text) (p : List Text) :
    (names sep val).foldl walk p = (val.splitOn sep).foldl walk p := foldl_walk_filter _ p

/-- The elements of `split-string-exactly` lead to the place. -/
theorem foldl_splitStringExactly (sep : Char) (val : Text) :
    ((splitStringExactly val [sep]).foldl reduceElement []).reverse = place sep val := by
  rw [reverse_foldl_reduceElement, splitStringExactly_eq]
  split
  · rename_i h
    rw [h]
    rfl
  · rw [← foldl_walk_filter, filter_fields, foldl_walk_names]
    rfl

theorem walk_name (h : Name sep e) : walk p e = p ++ [e] := by
  rw [walk, if_neg (by simp [h.1, h.2.1]), if_neg h.2.2.1]

theorem foldl_walk_of_names (h : ∀ e ∈ es, Name sep e) (p : List Text) :
    es.foldl walk p = p ++ es := by
  induction es generalizing p with
  | nil => simp
  | cons e es ih =>
    obtain ⟨he, hes⟩ := List.forall_mem_cons.mp h
    rw [List.foldl_cons, walk_name he, ih hes, List.append_assoc, List.singleton_append]

/-- A place is a list of names. -/
theorem name_of_mem_foldl (hp : ∀ e ∈ p, Name sep e) (hes : ∀ e ∈ es, sep ∉ e) :
    ∀ e ∈ es.foldl walk p, Name sep e := by
  induction es generalizing p with
  | nil => exact hp
  | cons e es ih =>
    obtain ⟨he, hes⟩ := List.forall_mem_cons.mp hes
    refine ih ?_ hes
    rw [walk]
    split
    · exact hp
    · rename_i h1
      rw [not_or] at h1
      split
      · exact fun e' he' => hp e' (List.mem_of_mem_dropLast he')
      · rename_i h2
        intro e' he'
        rcases List.mem_append.mp he' with he' | he'
        · exact hp e' he'
        · rw [List.mem_singleton.mp he']
          exact ⟨h1.1, h1.2, h2, he⟩

theorem name_of_mem_place : ∀ e ∈ place sep val, Name sep e :=
  name_of_mem_foldl (by simp) fun _ he => not_mem_of_mem_splitOn he

/-- Names from the root on lead to the place they are. -/
theorem place_fromRoot (h : ∀ e ∈ p, Name sep e) : place sep (fromRoot sep p) = p := by
  rw [place, fromRoot, ← foldl_walk_names, ← List.nil_append (sep :: _), names_append_cons,
    names_intercalate fun e he => ⟨(h e he).1, (h e he).2.2.2⟩, List.foldl_append,
    foldl_walk_of_names h]
  rfl

end Walk

/-! ## Reduction -/

section Reduction

variable {sep : Char} {a b val : Text}

/-- **What `reduce-pathname` does** with an absolute pathname: it writes down its place. -/
theorem reducePathname_absolute (h : Absolute sep val) :
    reducePathname sep val = fromRoot sep (place sep val) := by
  have hlen : 0 < val.length := by
    cases val with
    | nil => cases h
    | cons c s => exact Nat.succ_pos _
  rw [reducePathname, if_pos hlen]
  by_cases hdot : val = ['.']
  · -- the separator is a dot
    rw [if_pos hdot]
    rw [hdot] at h ⊢
    cases h
    rfl
  · rw [if_neg hdot]
    simp only [foldl_splitStringExactly, joinString_eq]
    have hhead : val.head? = some sep := h
    rw [if_pos hhead, if_pos hhead, fromRoot]
    split
    · rename_i hnil
      rw [hnil]
      rfl
    · rfl

theorem absolute_fromRoot (sep : Char) (p : List Text) : Absolute sep (fromRoot sep p) := rfl

theorem absolute_append (h : Absolute sep a) (b : Text) : Absolute sep (a ++ sep :: b) := by
  cases a with
  | nil => cases h
  | cons c s => exact h

/-- A relative pathname after a separator leads on from the place before it. -/
theorem place_append (a b : Text) :
    place sep (a ++ sep :: b) = (b.splitOn sep).foldl walk (place sep a) := by
  rw [place, List.splitOn_append_cons_self, List.foldl_append, place]

theorem place_reducePathname (h : Absolute sep val) :
    place sep (reducePathname sep val) = place sep val := by
  rw [reducePathname_absolute h, place_fromRoot name_of_mem_place]

/-- Reducing what is reduced changes nothing. -/
theorem reducePathname_idempotent (sep : Char) (val : Text) :
    reducePathname sep (reducePathname sep val) = reducePathname sep val := by
  by_cases habs : Absolute sep val
  · have habs' : Absolute sep (reducePathname sep val) := by
      rw [reducePathname_absolute habs]
      exact absolute_fromRoot sep _
    rw [reducePathname_absolute habs', place_reducePathname habs, reducePathname_absolute habs]
  · have hrel : ¬ val.head? = some sep := habs
    by_cases hlen : 0 < val.length
    swap
    · have hred : reducePathname sep val = val := by rw [reducePathname, if_neg hlen]
      rw [hred, hred]
    by_cases hdot : val = ['.']
    · have hred : reducePathname sep val = val := by rw [reducePathname, if_pos hlen, if_pos hdot]
      rw [hred, hred]
    have hred : reducePathname sep val = [sep].intercalate (place sep val) := by
      rw [reducePathname, if_pos hlen, if_neg hdot]
      simp only [foldl_splitStringExactly, joinString_eq]
      rw [if_neg hrel, if_neg hrel]
      split
      · rename_i hnil
        rw [hnil]
        rfl
      · rfl
    have hnames : ∀ e ∈ place sep val, Name sep e := name_of_mem_place
    rw [hred]
    generalize place sep val = p at hnames
    have hplace : place sep ([sep].intercalate p) = p := by
      rw [place, ← foldl_walk_names,
        names_intercalate fun e he => ⟨(hnames e he).1, (hnames e he).2.2.2⟩,
        foldl_walk_of_names hnames, List.nil_append]
    cases p with
    | nil => rfl
    | cons e p =>
      obtain ⟨he, -⟩ := List.forall_mem_cons.mp hnames
      obtain ⟨c, s, rfl⟩ := List.exists_cons_of_ne_nil he.1
      have hhead : ([sep].intercalate ((c :: s) :: p)).head? = some c := by
        cases p with
        | nil => rw [List.intercalate_singleton, List.head?_cons]
        | cons e' p => rw [List.intercalate_cons_cons, List.cons_append, List.cons_append,
            List.head?_cons]
      have hc : ¬ some c = some sep := by
        intro h
        exact he.2.2.2 (by rw [Option.some.inj h]; exact List.mem_cons_self)
      rw [reducePathname]
      split
      · split
        · rfl
        · simp only [foldl_splitStringExactly, joinString_eq, hplace, hhead]
          rw [if_neg (List.cons_ne_nil _ _), if_neg hc]
      · rfl

/-- **Reduction of pathnames.**  It may be done in parts and twice; the result is the root or has
only names, and leads to the same place; and a relative pathname is normalized from `PWD` on. -/
theorem reduction (sep : Char) (a b pwd : Text) (ha : Absolute sep a) :
    reducePathname sep (a ++ [sep] ++ b) = reducePathname sep (reducePathname sep a ++ [sep] ++ b) ∧
      (∃ p, (∀ e ∈ p, Name sep e) ∧ reducePathname sep (a ++ [sep] ++ b) = fromRoot sep p) ∧
      place sep (reducePathname sep (a ++ [sep] ++ b)) = place sep (a ++ [sep] ++ b) ∧
      reducePathname sep (reducePathname sep a) = reducePathname sep a ∧
      reducePathname sep (reducePathname sep b) = reducePathname sep b ∧
      (¬ Absolute sep b →
        normalizePathname sep pwd b = reducePathname sep (pwd ++ [sep] ++ b)) := by
  have happ : ∀ a : Text, a ++ [sep] ++ b = a ++ sep :: b := fun a => by simp
  have habs := absolute_append ha b
  have hred : Absolute sep (reducePathname sep a) := by
    rw [reducePathname_absolute ha]
    exact absolute_fromRoot sep _
  rw [happ, happ]
  refine ⟨?_, ⟨_, name_of_mem_place, reducePathname_absolute habs⟩, place_reducePathname habs,
    reducePathname_idempotent sep a, reducePathname_idempotent sep b, fun hb => ?_⟩
  · rw [reducePathname_absolute habs, reducePathname_absolute (absolute_append hred b),
      place_append, place_append, place_reducePathname ha]
  · rw [normalizePathname, if_pos fun h => hb h.2]

theorem reduction_usr :
    reducePathname '/' ("/usr".toList ++ ['/'] ++ "../lib".toList) =
      reducePathname '/' (reducePathname '/' "/usr".toList ++ ['/'] ++ "../lib".toList) :=
  (reduction '/' "/usr".toList "../lib".toList "/".toList rfl).1

end Reduction

/-- The functions on directories have these as what they do with `#\/`. -/
theorem reducePathname_slash (val : Text) :
    Directories.reducePathname val = reducePathname '/' val := by
  rw [Directories.reducePathname, reducePathname]
  simp only [foldl_splitStringExactly, joinString_eq]
  simp only [reverse_foldl_reduceElement]
  rfl

end Idio.Pathname
