/-
  Regexp/Rewriting.lean --- what the functions of Folds do with the text of the string.

  The range is followed through the sequence of matches that `regexp-fold` finds in it.
  What is relied on of the matcher is that a match lies within the range it was looked for in
  and that nothing outside the range has an influence on it.
-/
import Idio.Regexp.Folds
import Mathlib.Order.Basic
import Mathlib.Algebra.Order.Group.Nat

set_option autoImplicit false

namespace Idio.Regexp

/-! ## The matcher -/

/-- A match in the part of the string between `i` and `e`. -/
structure RegexpMatch.Within (m : RegexpMatch) (str : List Char) (i e : Nat) : Prop where
  string : m.string = str
  start : i ≤ m.start
  stop : m.start ≤ m.stop
  last : m.stop ≤ e
  submatches : ∀ s j, .at s j ∈ m.submatches → i ≤ s ∧ s ≤ j ∧ j ≤ e

theorem RegexpMatch.Within.mono {m : RegexpMatch} {str : List Char} {i j e : Nat}
    (h : m.Within str i e) (hj : j ≤ i) : m.Within str j e :=
  ⟨h.string, hj.trans h.start, h.stop, h.last, fun s k hmem =>
    (h.submatches s k hmem).imp_left hj.trans⟩

def Submatch.moved (a : Nat) : Submatch → Submatch
  | .at s j => .at (a + s) (a + j)
  | s => s

/-- The match in a part of `str` that begins at `a`, as a match in `str`. -/
def RegexpMatch.moved (m : RegexpMatch) (str : List Char) (a : Nat) : RegexpMatch :=
  { string := str, start := a + m.start, stop := a + m.stop,
    submatches := m.submatches.map (Submatch.moved a), names := m.names }

/-- What is relied on of the matcher. -/
structure Searches (search : Search) : Prop where
  within : ∀ {str : List Char} {i e : Nat} {m : RegexpMatch}, i ≤ e → e ≤ str.length →
    search str i e = some m → m.Within str i e
  inside : ∀ {str : List Char} {a b i e : Nat}, a + e ≤ b → b ≤ str.length → i ≤ e →
    search str (a + i) (a + e) = (search (slice str a b) i e).map fun m => m.moved str a

/-- The substitution is of the documented kinds: it names submatches of the regexp that are
not lists, and its functions do not look at positions. -/
structure Suits (search : Search) (subst : List Item) : Prop where
  numbers : ∀ n, .number n ∈ subst → ∀ str i e m, search str i e = some m →
    ∀ k, n = k + 1 → m.submatches[k]? ≠ some .collected
  symbols : ∀ name, .symbol name ∈ subst → name ≠ "pre" → name ≠ "post" →
    ∀ str i e m, search str i e = some m → ∃ n, m.names.lookup name = some n ∧
      ∀ k, n = k + 1 → m.submatches[k]? ≠ some .collected
  functions : ∀ f, .function f ∈ subst → ∀ (m : RegexpMatch) str a, f (m.moved str a) = f m

/-! ## The matches of a fold -/

section Runs

variable {search : Search} {str : List Char} {e i last lo fuel : Nat} {ms : List RegexpMatch}
  {m : RegexpMatch}

/-- Where the search goes on behind a match that was found from `i` on. -/
def next (e i : Nat) (m : RegexpMatch) : Nat := if i = m.stop ∧ m.stop < e then m.stop + 1 else m.stop

/-- The matches that `regexp-fold` finds from `i` on. -/
inductive Found (search : Search) (str : List Char) (e : Nat) : Nat → List RegexpMatch → Prop
  | done {i : Nat} (h : i < e → search str i e = none) : Found search str e i []
  | more {i : Nat} {m : RegexpMatch} {ms : List RegexpMatch} (hi : i < e)
      (hm : search str i e = some m) (hrest : Found search str e (next e i m) ms) :
      Found search str e i (m :: ms)

/-- The matches follow each other from `lo` to `e`. -/
def Follow (e : Nat) : Nat → List RegexpMatch → Prop
  | lo, [] => lo ≤ e
  | lo, m :: ms => lo ≤ m.start ∧ m.start ≤ m.stop ∧ Follow e m.stop ms

/-- The calls of `kons` and of `finish`. -/
def foldKons {A B : Type} (kons : Nat → RegexpMatch → A → Result A) (finish : Nat → A → Result B) :
    Nat → List RegexpMatch → A → Result B
  | last, [], acc => finish last acc
  | last, m :: ms, acc => do foldKons kons finish m.stop ms (← kons last m acc)

/-- The end of the last of the matches. -/
def lastStop (lo : Nat) (ms : List RegexpMatch) : Nat := ms.foldl (fun _ m => m.stop) lo

theorem next_le (hm : m.Within str i e) : next e i m ≤ e := by
  have hlast := hm.last
  rw [next]
  split_ifs with h
  · exact h.2
  · exact hlast

theorem lt_next (hi : i < e) (hm : m.Within str i e) : i < next e i m := by
  have hstart := hm.start
  have hstop := hm.stop
  rw [next]
  split_ifs with h
  · omega
  · omega

theorem stop_le_next : m.stop ≤ next e i m := by
  rw [next]
  split_ifs with h
  · exact Nat.le_succ _
  · exact Nat.le_refl _

/-- Each search begins further on, so the matches come to an end. -/
theorem exists_found (hs : Searches search) (he : e ≤ str.length) :
    ∃ ms, Found search str e i ms := by
  induction hn : e - i using Nat.strong_induction_on generalizing i with
  | _ n ih =>
    by_cases hi : i < e
    · cases hm : search str i e with
      | none => exact ⟨[], .done fun _ => hm⟩
      | some m =>
        have hwithin := hs.within (Nat.le_of_lt hi) he hm
        have hlt := lt_next hi hwithin
        obtain ⟨ms, hms⟩ := ih (e - next e i m) (by omega) rfl
        exact ⟨m :: ms, .more hi hm hms⟩
    · exact ⟨[], .done fun h => absurd h hi⟩

/-- **`regexp-fold`** calls `kons` for each of the matches and ends with `finish`. -/
theorem regexpFoldLoop_eq {A B : Type} {kons : Nat → RegexpMatch → A → Result A}
    {finish : Nat → A → Result B} (hs : Searches search) (he : e ≤ str.length)
    (h : Found search str e i ms) (hfuel : e - i < fuel) (last : Nat) (acc : A) :
    regexpFoldLoop search kons finish str e fuel i last acc = foldKons kons finish last ms acc := by
  induction h generalizing fuel last acc with
  | @done i h =>
    cases fuel with
    | zero => exact absurd hfuel (Nat.not_lt_zero _)
    | succ fuel =>
      rw [regexpFoldLoop, foldKons]
      by_cases hi : i < e
      · rw [if_pos hi, h hi]
      · rw [if_neg hi]
  | @more i m ms hi hm _ ih =>
    cases fuel with
    | zero => exact absurd hfuel (Nat.not_lt_zero _)
    | succ fuel =>
      have hlt := lt_next hi (hs.within (Nat.le_of_lt hi) he hm)
      rw [regexpFoldLoop, if_pos hi, hm, foldKons]
      dsimp only
      cases kons last m acc with
      | error err => rfl
      | ok acc => exact ih (by omega) _ _

theorem Found.searched (hs : Searches search) (he : e ≤ str.length) (h : Found search str e i ms)
    (hlo : lo ≤ i) : ∀ m ∈ ms, ∃ j, lo ≤ j ∧ j ≤ e ∧ search str j e = some m := by
  induction h with
  | done h => exact fun m hm => absurd hm List.not_mem_nil
  | @more i m ms hi hm _ ih =>
    have hlt := lt_next hi (hs.within (Nat.le_of_lt hi) he hm)
    exact List.forall_mem_cons.mpr ⟨⟨i, hlo, Nat.le_of_lt hi, hm⟩, ih (hlo.trans (Nat.le_of_lt hlt))⟩

theorem Found.within (hs : Searches search) (he : e ≤ str.length) (h : Found search str e i ms) :
    ∀ m ∈ ms, m.Within str i e := by
  intro m hm
  obtain ⟨j, hj, hje, hsearch⟩ := h.searched hs he (Nat.le_refl _) m hm
  exact (hs.within hje he hsearch).mono hj

theorem Found.follow (hs : Searches search) (he : e ≤ str.length) (h : Found search str e i ms)
    (hi : i ≤ e) (hlo : lo ≤ i) : Follow e lo ms := by
  induction h generalizing lo with
  | done h => exact hlo.trans hi
  | @more i m ms hlt hm _ ih =>
    have hwithin := hs.within hi he hm
    exact ⟨hlo.trans hwithin.start, hwithin.stop, ih (next_le hwithin) stop_le_next⟩

theorem Follow.mono (h : Follow e last ms) (hlo : lo ≤ last) : Follow e lo ms := by
  cases ms with
  | nil => exact Nat.le_trans hlo h
  | cons m ms => exact ⟨hlo.trans h.1, h.2⟩

theorem Follow.le (h : Follow e lo ms) : lo ≤ lastStop lo ms ∧ lastStop lo ms ≤ e := by
  induction ms generalizing lo with
  | nil => exact ⟨Nat.le_refl lo, h⟩
  | cons m ms ih =>
    obtain ⟨hstart, hstop, hrest⟩ := h
    exact ⟨(hstart.trans hstop).trans (ih hrest).1, (ih hrest).2⟩

/-- The matches that are not empty. -/
def nonEmpty (ms : List RegexpMatch) : List RegexpMatch := ms.filter fun m => m.start ≠ m.stop

theorem nonEmpty_cons_eq (h : m.start = m.stop) : nonEmpty (m :: ms) = nonEmpty ms :=
  List.filter_cons_of_neg (by simpa using h)

theorem nonEmpty_cons_ne (h : m.start ≠ m.stop) : nonEmpty (m :: ms) = m :: nonEmpty ms :=
  List.filter_cons_of_pos (by simpa using h)

theorem Follow.nonEmpty (h : Follow e lo ms) : Follow e lo (nonEmpty ms) := by
  induction ms generalizing lo with
  | nil => exact h
  | cons m ms ih =>
    obtain ⟨hstart, hstop, hrest⟩ := h
    by_cases hm : m.start = m.stop
    · rw [nonEmpty_cons_eq hm]
      exact (ih hrest).mono (hstart.trans hstop)
    · rw [nonEmpty_cons_ne hm]
      exact ⟨hstart, hstop, ih hrest⟩

end Runs

/-! ## regexp-split and regexp-partition -/

section Parts

variable {str : List Char} {e lo last : Nat} {ms : List RegexpMatch}

/-- The texts between the matches. -/
def between (str : List Char) (e : Nat) : Nat → List RegexpMatch → List (List Char)
  | lo, [] => [slice str lo e]
  | lo, m :: ms => slice str lo m.start :: between str e m.stop ms

/-- The texts in front of the matches and the texts of the matches. -/
def parted (str : List Char) : Nat → List RegexpMatch → List (List Char)
  | _, [] => []
  | lo, m :: ms => slice str lo m.start :: slice str m.start m.stop :: parted str m.stop ms

/-- The elements at odd places. -/
def odds {α : Type} : List α → List α
  | _ :: b :: l => b :: odds l
  | _ => []

theorem odds_parted {tail : List (List Char)} (htail : tail.length ≤ 1) :
    odds (parted str lo ms ++ tail) = ms.map fun m => slice str m.start m.stop := by
  induction ms generalizing lo with
  | nil =>
    match tail, htail with
    | [], _ => rfl
    | [_], _ => rfl
  | cons m ms ih =>
    rw [parted, List.cons_append, List.cons_append, odds, ih, List.map_cons]

theorem flatten_parted (h : Follow e lo ms) :
    (parted str lo ms).flatten = slice str lo (lastStop lo ms) := by
  induction ms generalizing lo with
  | nil => exact (slice_self str lo).symm
  | cons m ms ih =>
    obtain ⟨hstart, hstop, hrest⟩ := h
    rw [parted, List.flatten_cons, List.flatten_cons, ih hrest, ← List.append_assoc,
      slice_append hstart hstop]
    exact slice_append (hstart.trans hstop) hrest.le.1

/-- `regexp-split` -/
theorem split_spec (he : e ≤ str.length) (h : Follow e lo ms) (acc : List (List Char)) :
    foldKons (fun _ md a =>
        let i := md.start
        let j := md.stop
        if i = j then .ok a else do .ok (j, (← substring str a.1 i) :: a.2))
      (fun _ (a : Nat × List (List Char)) => do .ok ((← substring str a.1 e) :: a.2).reverse)
      last ms (lo, acc) = .ok (acc.reverse ++ between str e lo (nonEmpty ms)) := by
  induction ms generalizing lo last acc with
  | nil =>
    rw [foldKons, substring_ok h he, ok_bind, List.reverse_cons]
    rfl
  | cons m ms ih =>
    obtain ⟨hstart, hstop, hrest⟩ := h
    rw [foldKons]
    dsimp only
    by_cases hm : m.start = m.stop
    · rw [if_pos hm, ok_bind, nonEmpty_cons_eq hm]
      exact ih (hrest.mono (hstart.trans hstop)) acc
    · have hlen : m.start ≤ str.length := (hstop.trans (hrest.le.1.trans hrest.le.2)).trans he
      rw [if_neg hm, substring_ok hstart hlen, ok_bind, ok_bind, nonEmpty_cons_ne hm, between,
        ih hrest, List.reverse_cons, List.append_assoc]
      rfl

/-- `regexp-partition` -/
theorem partition_spec (he : e ≤ str.length) (h : Follow e lo ms) (hstr : ∀ m ∈ ms, m.string = str)
    (acc : List (List Char)) :
    foldKons (fun _ md a =>
        let i := md.start
        let j := md.stop
        if i = j then .ok a
        else do
          let left ← substring str a.1 i
          let whole ← substring md.string md.start md.stop
          .ok (j, whole :: left :: a.2))
      (fun last (a : Nat × List (List Char)) =>
        if last < e ∨ a.2 = [] then do .ok ((← substring str a.1 e) :: a.2) else .ok a.2)
      last ms (lo, acc) =
      .ok ((if lastStop last ms < e ∨ (acc = [] ∧ nonEmpty ms = []) then
          [slice str (lastStop lo (nonEmpty ms)) e] else []) ++
        (parted str lo (nonEmpty ms)).reverse ++ acc) := by
  induction ms generalizing lo last acc with
  | nil =>
    have hiff : (lastStop last [] < e ∨ (acc = [] ∧ nonEmpty [] = [])) ↔ last < e ∨ acc = [] :=
      or_congr_right (and_iff_left rfl)
    rw [foldKons, substring_ok h he, ok_bind]
    by_cases hlast : last < e ∨ acc = []
    · rw [if_pos (hiff.mpr hlast), if_pos hlast]
      rfl
    · rw [if_neg (mt hiff.mp hlast), if_neg hlast]
      rfl
  | cons m ms ih =>
    obtain ⟨hstart, hstop, hrest⟩ := h
    obtain ⟨hm_str, hstr⟩ := List.forall_mem_cons.mp hstr
    rw [foldKons]
    dsimp only
    by_cases hm : m.start = m.stop
    · rw [if_pos hm, ok_bind, nonEmpty_cons_eq hm]
      exact ih (hrest.mono (hstart.trans hstop)) hstr acc
    · have hlen : m.stop ≤ str.length := (hrest.le.1.trans hrest.le.2).trans he
      rw [if_neg hm, substring_ok hstart (hstop.trans hlen), ok_bind, hm_str,
        substring_ok hstop hlen, ok_bind, ok_bind, nonEmpty_cons_ne hm, parted, ih hrest hstr]
      simp only [reduceCtorEq, false_and, and_false, or_false, List.reverse_cons,
        List.append_assoc, List.cons_append, List.nil_append]
      rfl

end Parts

/-! ## Substitutions -/

section Substitutions

variable {search : Search} {str : List Char} {a b e i start count fuel : Nat} {ms : List RegexpMatch}
  {m : RegexpMatch} {subst : List Item}

/-- A submatch of a match in a part of the string. -/
theorem regexpMatchSubmatch_moved (hm : m.Within (slice str a b) i e) (he : a + e ≤ b)
    (hb : b ≤ str.length) (n : Nat) :
    regexpMatchSubmatch (m.moved str a) n = regexpMatchSubmatch m n := by
  cases n with
  | zero =>
    have hlast := hm.last
    rw [regexpMatchSubmatch, regexpMatchSubmatch, hm.string, substring_slice (by omega) hb]
    rfl
  | succ n =>
    rw [regexpMatchSubmatch, regexpMatchSubmatch, hm.string]
    simp only [RegexpMatch.moved, List.getElem?_map]
    cases hget : m.submatches[n]? with
    | none => rfl
    | some sub =>
      cases sub with
      | unmatched => rfl
      | collected => rfl
      | «at» s j =>
        have hj := (hm.submatches s j (List.mem_of_getElem? hget)).2.2
        simp only [Option.map_some, Submatch.moved]
        rw [substring_slice (by omega) hb]

theorem itemText_moved {item : Item} (hm : m.Within (slice str a b) i e) (he : a + e ≤ b)
    (hb : b ≤ str.length) (hfunction : ∀ f, item = .function f → f (m.moved str a) = f m) :
    itemText str (m.moved str a) a (a + e) item = itemText (slice str a b) m 0 e item := by
  have hlast := hm.last
  have hstop := hm.stop
  cases item with
  | text s => rfl
  | number n => rw [itemText, itemText, regexpMatchSubmatch_moved hm he hb]
  | function f => rw [itemText, itemText, hfunction f rfl]
  | symbol name =>
    simp only [itemText, regexpMatchSubmatch_moved hm he hb,
      substring_slice (show a + m.start ≤ b by omega) hb, substring_slice he hb]
    rfl

/-- What `regexp-apply-match` makes of a match in a part of the string. -/
theorem regexpApplyMatchLoop_moved (hm : m.Within (slice str a b) i e) (he : a + e ≤ b)
    (hb : b ≤ str.length)
    (hfunctions : ∀ f, .function f ∈ subst → ∀ (m : RegexpMatch) str a, f (m.moved str a) = f m)
    (res : List (List Char)) :
    regexpApplyMatchLoop str (m.moved str a) a (a + e) subst res =
      regexpApplyMatchLoop (slice str a b) m 0 e subst res := by
  induction subst generalizing res with
  | nil => rfl
  | cons item subst ih =>
    have hitem := @itemText_moved str a b e i m item hm he hb fun f hf =>
      hfunctions f (hf ▸ List.mem_cons_self) m str a
    rw [regexpApplyMatchLoop, regexpApplyMatchLoop, hitem]
    exact bind_congr fun s => ih (fun f hf => hfunctions f (List.mem_cons_of_mem item hf)) _

theorem regexpMatchSubmatch_ok (hm : m.Within str i e) (he : e ≤ str.length) {n : Nat}
    (hn : ∀ k, n = k + 1 → m.submatches[k]? ≠ some .collected) :
    ∃ s, regexpMatchSubmatch m n = .ok s := by
  cases n with
  | zero =>
    rw [regexpMatchSubmatch, hm.string, substring_ok hm.stop (hm.last.trans he)]
    exact ⟨_, rfl⟩
  | succ n =>
    rw [regexpMatchSubmatch]
    cases hget : m.submatches[n]? with
    | none => exact ⟨none, rfl⟩
    | some sub =>
      cases sub with
      | unmatched => exact ⟨none, rfl⟩
      | collected => exact absurd hget (hn n rfl)
      | «at» s j =>
        obtain ⟨-, hs, hj⟩ := hm.submatches s j (List.mem_of_getElem? hget)
        dsimp only
        rw [hm.string, substring_ok hs (hj.trans he)]
        exact ⟨_, rfl⟩

theorem itemText_ok {item : Item} (hs : Suits search subst) (hitem : item ∈ subst)
    (hsearch : search str i e = some m) (hm : m.Within str i e) (he : e ≤ str.length)
    (hstart : start ≤ i) : ∃ s, itemText str m start e item = .ok s := by
  have hstop := hm.stop
  have hlast := hm.last
  cases item with
  | text s => exact ⟨s, rfl⟩
  | number n =>
    obtain ⟨s, hok⟩ := regexpMatchSubmatch_ok hm he (hs.numbers n hitem str i e m hsearch)
    rw [itemText, hok]
    exact ⟨_, rfl⟩
  | function f => exact ⟨f m, rfl⟩
  | symbol name =>
    rw [itemText]
    by_cases hpre : name = "pre"
    · rw [if_pos hpre, substring_ok (hstart.trans hm.start) (by omega)]
      exact ⟨_, rfl⟩
    · by_cases hpost : name = "post"
      · rw [if_neg hpre, if_pos hpost, substring_ok hlast he]
        exact ⟨_, rfl⟩
      · obtain ⟨n, hn, hnot⟩ := hs.symbols name hitem hpre hpost str i e m hsearch
        obtain ⟨s, hok⟩ := regexpMatchSubmatch_ok hm he hnot
        rw [if_neg hpre, if_neg hpost, hn]
        dsimp only
        rw [hok]
        exact ⟨_, rfl⟩

/-- The substitution gives texts. -/
theorem regexpApplyMatchLoop_ok {items : List Item} (hs : Suits search subst) (hitems : items ⊆ subst)
    (hsearch : search str i e = some m) (hm : m.Within str i e) (he : e ≤ str.length)
    (hstart : start ≤ i) (res : List (List Char)) :
    ∃ pieces, regexpApplyMatchLoop str m start e items res = .ok pieces := by
  induction items generalizing res with
  | nil => exact ⟨res, rfl⟩
  | cons item items ih =>
    obtain ⟨hitem, hitems⟩ := List.cons_subset.mp hitems
    obtain ⟨s, hok⟩ := itemText_ok hs hitem hsearch hm he hstart
    rw [regexpApplyMatchLoop, hok, ok_bind]
    exact ih hitems _

/-! ## regexp-replace -/

/-- The match behind `count` others, each looked for from the end of the one before it. -/
def nthMatch (search : Search) (str : List Char) (e : Nat) : Nat → Nat → Option RegexpMatch
  | i, 0 => search str i e
  | i, count + 1 => (search str i e).bind fun m => nthMatch search str e m.stop count

/-- What `regexp-replace` makes of the match it replaces. -/
def replaceMatch (str : List Char) (subst : List Item) (start e : Nat) (m : RegexpMatch) :
    Result (List Char) := do
  let left ← substring str start m.start
  let pieces ← regexpApplyMatch str m subst start e
  let right ← substring str m.stop e
  .ok (left :: (pieces.reverse ++ [right])).flatten

theorem regexpReplaceLoop_eq (subst : List Item) (start : Nat) :
    regexpReplaceLoop search str subst start e i count =
      match nthMatch search str e i count with
      | none => .ok str
      | some m => replaceMatch str subst start e m := by
  induction count generalizing i with
  | zero =>
    rw [regexpReplaceLoop, nthMatch]
    cases search str i e with
    | none => rfl
    | some m => rfl
  | succ count ih =>
    rw [regexpReplaceLoop, nthMatch]
    cases search str i e with
    | none => rfl
    | some m => exact ih

/-- The matches in a part of the string. -/
theorem nthMatch_moved (hs : Searches search) (he : a + e ≤ b) (hb : b ≤ str.length) (hi : i ≤ e) :
    nthMatch search str (a + e) (a + i) count =
      (nthMatch search (slice str a b) e i count).map fun m => m.moved str a := by
  induction count generalizing i with
  | zero => exact hs.inside he hb hi
  | succ count ih =>
    have hlen : e ≤ (slice str a b).length := by
      rw [length_slice hb]
      omega
    rw [nthMatch, nthMatch, hs.inside he hb hi]
    cases hm : search (slice str a b) i e with
    | none => rfl
    | some m => exact ih (hs.within hi hlen hm).last

theorem nthMatch_within (hs : Searches search) (he : e ≤ str.length) (hi : i ≤ e)
    (h : nthMatch search str e i count = some m) : m.Within str i e := by
  induction count generalizing i with
  | zero => exact hs.within hi he h
  | succ count ih =>
    rw [nthMatch] at h
    obtain ⟨m', hm', h⟩ := Option.bind_eq_some_iff.mp h
    have hwithin := hs.within hi he hm'
    exact (ih hwithin.last h).mono (hwithin.start.trans hwithin.stop)

theorem replaceMatch_moved (hm : m.Within (slice str a b) i e) (he : a + e ≤ b) (hb : b ≤ str.length)
    (hfunctions : ∀ f, .function f ∈ subst → ∀ (m : RegexpMatch) str a, f (m.moved str a) = f m) :
    replaceMatch str subst a (a + e) (m.moved str a) = replaceMatch (slice str a b) subst 0 e m := by
  have hlast := hm.last
  have hstop := hm.stop
  rw [replaceMatch, replaceMatch, regexpApplyMatch, regexpApplyMatch,
    regexpApplyMatchLoop_moved hm he hb hfunctions,
    substring_slice (show a + m.start ≤ b by omega) hb, substring_slice he hb]
  rfl

/-- **`regexp-replace`** of a range gives what it gives of the range on its own if and only if
there is a match to replace or the range is the whole string. -/
theorem replace_iff (hs : Searches search)
    (hfunctions : ∀ f, .function f ∈ subst → ∀ (m : RegexpMatch) str a, f (m.moved str a) = f m)
    (h : start ≤ e) (he : e ≤ str.length) :
    regexpReplace search str subst start e count =
        regexpReplace search (slice str start e) subst 0 (e - start) count ↔
      (nthMatch search str e start count).isSome ∨ (start = 0 ∧ e = str.length) := by
  have hlen := length_slice (i := start) he
  have hmoved := @nthMatch_moved search str start e (e - start) 0 count hs
    (by omega) he (Nat.zero_le _)
  rw [Nat.add_sub_cancel' h, Nat.add_zero] at hmoved
  rw [regexpReplace, regexpReplace, regexpReplaceLoop_eq, regexpReplaceLoop_eq, hmoved]
  cases hm : nthMatch search (slice str start e) (e - start) 0 count with
  | none =>
    simp only [Option.map_none, Except.ok.injEq, Option.isSome_none, Bool.false_eq_true, false_or]
    exact eq_comm.trans (slice_eq_self h he)
  | some m =>
    have hwithin := nthMatch_within hs hlen.ge (Nat.zero_le _) hm
    have heq := replaceMatch_moved hwithin (show start + (e - start) ≤ e by omega) he hfunctions
    rw [Nat.add_sub_cancel' h] at heq
    simp only [Option.map_some, Option.isSome_some, true_or, iff_true]
    exact heq

/-! ## regexp-replace-all -/

/-- The text for a match. -/
def replacement (str : List Char) (subst : List Item) (start e : Nat) (m : RegexpMatch) : List Char :=
  match regexpApplyMatch str m subst start e with
  | .ok pieces => pieces.reverse.flatten
  | .error _ => []

/-- The string from `lo` to `last` with the matches replaced. -/
def rewritten (str : List Char) (repl : RegexpMatch → List Char) (last : Nat) :
    Nat → List RegexpMatch → List Char
  | lo, [] => slice str lo last
  | lo, m :: ms => slice str lo m.start ++ repl m ++ rewritten str repl last m.stop ms

theorem rewritten_append {repl : RegexpMatch → List Char} {lo last : Nat} (h : Follow e lo ms)
    (he : e ≤ last) : rewritten str repl last lo ms = rewritten str repl e lo ms ++ slice str e last := by
  induction ms generalizing lo with
  | nil => exact (slice_append h he).symm
  | cons m ms ih =>
    rw [rewritten, rewritten, ih h.2.2, List.append_assoc (_ ++ _)]

theorem replaceAll_spec (he : e ≤ str.length) {lo : Nat} (h : Follow e lo ms)
    (hok : ∀ m ∈ ms, ∃ pieces, regexpApplyMatch str m subst start e = .ok pieces)
    (acc : List (List Char)) :
    foldKons (fun i m acc => do
        let mStart := m.start
        let pieces ← regexpApplyMatch str m subst start e
        if i ≥ mStart then .ok (pieces ++ acc)
        else do .ok (pieces ++ (← substring str i mStart) :: acc))
      (fun i (acc : List (List Char)) => do
        let e := str.length
        if i ≥ e then .ok acc.reverse.flatten
        else do .ok ((← substring str i e) :: acc).reverse.flatten)
      lo ms acc =
      .ok (acc.reverse.flatten ++
        rewritten str (replacement str subst start e) str.length lo ms) := by
  induction ms generalizing lo acc with
  | nil =>
    have hlo : lo ≤ str.length := Nat.le_trans h he
    rw [foldKons]
    dsimp only
    by_cases hend : lo ≥ str.length
    · rw [if_pos hend, rewritten, Nat.le_antisymm hlo hend, slice_self, List.append_nil]
    · rw [if_neg hend, substring_ok hlo (Nat.le_refl _), ok_bind, List.reverse_cons,
        List.flatten_append, List.flatten_singleton]
      rfl
  | cons m ms ih =>
    obtain ⟨hstart, hstop, hrest⟩ := h
    obtain ⟨⟨pieces, hpieces⟩, hok⟩ := List.forall_mem_cons.mp hok
    have hlen : m.start ≤ str.length := (hstop.trans (hrest.le.1.trans hrest.le.2)).trans he
    have hrepl : replacement str subst start e m = pieces.reverse.flatten := by
      rw [replacement, hpieces]
    rw [foldKons, rewritten, hrepl]
    dsimp only
    rw [hpieces, ok_bind]
    by_cases hge : lo ≥ m.start
    · rw [if_pos hge, ok_bind, ih hrest hok, Nat.le_antisymm hstart hge, slice_self,
        List.reverse_append, List.flatten_append, List.nil_append, List.append_assoc]
    · rw [if_neg hge, substring_ok hstart hlen, ok_bind, ok_bind, ih hrest hok,
        List.reverse_append, List.reverse_cons, List.flatten_append, List.flatten_append,
        List.flatten_singleton, List.append_assoc, List.append_assoc, List.append_assoc]

theorem next_moved : next (a + e) (a + i) (m.moved str a) = a + next e i m := by
  simp only [next, RegexpMatch.moved, Nat.add_left_cancel_iff, Nat.add_lt_add_iff_left]
  split_ifs with h
  · rfl
  · rfl

/-- The matches of a fold over a part of the string. -/
theorem Found.moved (hs : Searches search) (he : a + e ≤ b) (hb : b ≤ str.length)
    (h : Found search (slice str a b) e i ms) (hi : i ≤ e) :
    Found search str (a + e) (a + i) (ms.map fun m => m.moved str a) := by
  have hlen : e ≤ (slice str a b).length := by
    rw [length_slice hb]
    omega
  induction h with
  | @done i h =>
    refine .done fun hlt => ?_
    rw [hs.inside he hb hi, h (Nat.lt_of_add_lt_add_left hlt), Option.map_none]
  | @more i m ms hlt hm _ ih =>
    have hmoved := hs.inside he hb hi
    rw [hm] at hmoved
    refine .more (Nat.add_lt_add_left hlt a) hmoved ?_
    rw [next_moved]
    exact ih (next_le (hs.within hi hlen hm))

theorem rewritten_moved {repl repl' : RegexpMatch → List Char} {lo : Nat}
    (he : a + e ≤ b) (hms : ∀ m ∈ ms, m.Within (slice str a b) i e)
    (hrepl : ∀ m ∈ ms, repl (m.moved str a) = repl' m) :
    rewritten str repl (a + e) (a + lo) (ms.map fun m => m.moved str a) =
      rewritten (slice str a b) repl' e lo ms := by
  induction ms generalizing lo with
  | nil => exact (slice_slice he).symm
  | cons m ms ih =>
    obtain ⟨hm, hms⟩ := List.forall_mem_cons.mp hms
    obtain ⟨hreplm, hrepl⟩ := List.forall_mem_cons.mp hrepl
    have hstop := hm.stop
    have hlast := hm.last
    rw [List.map_cons, rewritten, rewritten, hreplm, slice_slice (show a + m.start ≤ b by omega),
      ← ih hms hrepl]
    rfl

/-- What `regexp-replace-all` returns. -/
theorem replaceAll_eq (hs : Searches search) (hsuits : Suits search subst) (he : e ≤ str.length)
    (h : start ≤ e) (hms : Found search str e start ms) (hfuel : e - start < fuel) :
    regexpReplaceAll search fuel str subst start e =
      .ok (rewritten str (replacement str subst start e) str.length start ms) := by
  rw [regexpReplaceAll, regexpFold, regexpFoldLoop_eq hs he hms hfuel]
  refine (replaceAll_spec he (hms.follow hs he h (Nat.le_refl _)) (fun m hm => ?_) []).trans rfl
  obtain ⟨i, hi, hie, hsearch⟩ := hms.searched hs he (Nat.le_refl _) m hm
  exact regexpApplyMatchLoop_ok hsuits (List.Subset.refl _) hsearch (hs.within hie he hsearch) he hi []

/-- **`regexp-replace-all`** of a range gives what it gives of the range on its own if and only
if the range goes to the end of the string. -/
theorem replaceAll_iff (hs : Searches search) (hsuits : Suits search subst) (he : e ≤ str.length)
    (h : start ≤ e) (hfuel : e - start < fuel) :
    regexpReplaceAll search fuel str subst start e =
        regexpReplaceAll search fuel (slice str start e) subst 0 (e - start) ↔ e = str.length := by
  have hlen := length_slice (i := start) he
  obtain ⟨ms, hms⟩ := @exists_found search (slice str start e) (e - start) 0 hs hlen.ge
  have hsum := Nat.add_sub_cancel' h
  have hmoved := hms.moved hs hsum.le he (Nat.zero_le _)
  rw [hsum, Nat.add_zero] at hmoved
  have hwithin := hms.within hs hlen.ge
  have hrepl : ∀ m ∈ ms, replacement str subst start e (m.moved str start) =
      replacement (slice str start e) subst 0 (e - start) m := fun m hm => by
    have heq := regexpApplyMatchLoop_moved (hwithin m hm) hsum.le he hsuits.functions []
    rw [hsum] at heq
    rw [replacement, replacement, regexpApplyMatch, regexpApplyMatch, heq]
  have heq := @rewritten_moved str start e (e - start) 0 ms _ _ 0 hsum.le hwithin hrepl
  rw [hsum, Nat.add_zero] at heq
  have hfollow := hmoved.follow hs he h (Nat.le_refl _)
  rw [replaceAll_eq hs hsuits he h hmoved hfuel,
    replaceAll_eq hs hsuits hlen.ge (Nat.zero_le _) hms (by rwa [Nat.sub_zero]), hlen,
    rewritten_append hfollow he, heq, Except.ok.injEq, List.append_right_eq_self,
    slice_eq_nil he (Nat.le_refl _)]

/-- What `regexp-partition` adds behind the last non-empty match. -/
def lastPart (str : List Char) (start e : Nat) (ms : List RegexpMatch) : List (List Char) :=
  if lastStop start ms < e ∨ nonEmpty ms = [] then [slice str (lastStop start (nonEmpty ms)) e] else []

theorem length_lastPart : (lastPart str start e ms).length ≤ 1 := by
  rw [lastPart]
  split_ifs with h
  · exact Nat.le_refl 1
  · exact Nat.zero_le 1

theorem partition_eq (hs : Searches search) (he : e ≤ str.length) (h : start ≤ e)
    (hms : Found search str e start ms) (hfuel : e - start < fuel) :
    regexpPartition search fuel str start e =
      .ok (parted str start (nonEmpty ms) ++ lastPart str start e ms) := by
  have hrun := @partition_spec str e start start ms he (hms.follow hs he h (Nat.le_refl start))
    (fun m hm => (hms.within hs he m hm).string) []
  rw [regexpPartition, regexpFold, regexpFoldLoop_eq hs he hms hfuel, hrun, ok_bind, List.append_nil,
    List.reverse_append, List.reverse_reverse, lastPart]
  by_cases hlast : lastStop start ms < e ∨ nonEmpty ms = []
  · rw [if_pos hlast, if_pos (hlast.imp_right fun hnil => ⟨rfl, hnil⟩)]
    rfl
  · rw [if_neg hlast, if_neg fun hboth => hlast (hboth.imp_right And.right)]
    rfl

/-- Where the parts give back the text. -/
theorem flatten_parts_iff (he : e ≤ str.length) (h : Follow e start ms) :
    (parted str start (nonEmpty ms) ++ lastPart str start e ms).flatten = slice str start e ↔
      ¬ (lastStop start ms = e ∧ nonEmpty ms ≠ [] ∧ lastStop start (nonEmpty ms) < e) := by
  obtain ⟨hlow, hhigh⟩ := h.nonEmpty.le
  rw [List.flatten_append, flatten_parted h.nonEmpty, ← slice_append hlow hhigh,
    List.append_cancel_left_eq, lastPart]
  by_cases hend : lastStop start ms < e
  · rw [if_pos (.inl hend), List.flatten_singleton]
    exact iff_of_true rfl fun hall => absurd hall.1 (Nat.ne_of_lt hend)
  · have heq := Nat.le_antisymm h.le.2 (Nat.le_of_not_lt hend)
    by_cases hnil : nonEmpty ms = []
    · rw [if_pos (.inr hnil), List.flatten_singleton]
      exact iff_of_true rfl fun hall => hall.2.1 hnil
    · rw [if_neg (not_or_intro hend hnil), List.flatten_nil, eq_comm, slice_eq_nil hhigh he]
      exact ⟨fun hstop hall => absurd hstop (Nat.ne_of_lt hall.2.2), fun hnot =>
        Nat.le_antisymm hhigh (Nat.le_of_not_lt fun hlt => hnot ⟨heq, hnil, hlt⟩)⟩

/-- **Rewriting.**  Between `start` and `e` there is one sequence of matches, and `regexp-fold`
ends after them.  `regexp-split` gives the texts between the non-empty ones and the elements of
`regexp-partition` at odd places are those; all the elements give back the text of the range
unless the last match is an empty one at the end of the range and the last non-empty one, which
there is, ends before.  `regexp-replace` and `regexp-replace-all` of a range do what they do of
its text if and only if there is a match to replace or the range is the whole string, and if and
only if the range goes to the end of the string. -/
theorem rewriting (hs : Searches search) (hsuits : Suits search subst) (he : e ≤ str.length)
    (h : start ≤ e) : ∃ ms, Found search str e start ms ∧ Follow e start ms ∧
      ∀ fuel, e - start < fuel →
        (∀ (A B : Type) (kons : Nat → RegexpMatch → A → Result A) (finish : Nat → A → Result B) (knil : A),
          regexpFold search kons finish str e fuel knil start = foldKons kons finish start ms knil) ∧
        regexpSplit search fuel str start e = .ok (between str e start (nonEmpty ms)) ∧
        (∃ parts, regexpPartition search fuel str start e = .ok parts ∧
          odds parts = (nonEmpty ms).map (fun m => slice str m.start m.stop) ∧
          (parts.flatten = slice str start e ↔
            ¬ (lastStop start ms = e ∧ nonEmpty ms ≠ [] ∧ lastStop start (nonEmpty ms) < e))) ∧
        (∀ count, regexpReplace search str subst start e count =
            regexpReplace search (slice str start e) subst 0 (e - start) count ↔
          (nthMatch search str e start count).isSome ∨ (start = 0 ∧ e = str.length)) ∧
        (regexpReplaceAll search fuel str subst start e =
            regexpReplaceAll search fuel (slice str start e) subst 0 (e - start) ↔
          e = str.length) := by
  obtain ⟨ms, hms⟩ := @exists_found search str e start hs he
  have hfollow := hms.follow hs he h (Nat.le_refl start)
  refine ⟨ms, hms, hfollow, fun fuel hfuel => ⟨?_, ?_, ?_, ?_, ?_⟩⟩
  · intro A B kons finish knil
    exact regexpFoldLoop_eq hs he hms hfuel start knil
  · rw [regexpSplit, regexpFold, regexpFoldLoop_eq hs he hms hfuel]
    exact split_spec he hfollow []
  · exact ⟨_, partition_eq hs he h hms hfuel, odds_parted length_lastPart,
      flatten_parts_iff he hfollow⟩
  · exact fun count => replace_iff hs hsuits.functions h he
  · exact replaceAll_iff hs hsuits he h hfuel

end Substitutions

/-! ## Two regexps -/

/-- What is found of one character, and with `eos` of the end of the string also: the first of
them. -/
def findChar (c : Char) (eos : Bool) : Search := fun str i e =>
  ((List.range' i (e + 1 - i)).find? fun k => (k < e ∧ str[k]? = some c) ∨ (eos ∧ k = e)).map
    fun k => ⟨str, k, if k < e then k + 1 else k, [], []⟩

theorem findChar_searches (c : Char) (eos : Bool) : Searches (findChar c eos) where
  within := by
    intro str i e m hi he h
    obtain ⟨k, hk, rfl⟩ := Option.map_eq_some_iff.mp h
    have hmem := List.mem_range'_1.mp (List.mem_of_find?_eq_some hk)
    refine ⟨rfl, hmem.1, ?_, ?_, fun s j hsub => absurd hsub List.not_mem_nil⟩
    · change k ≤ if k < e then k + 1 else k
      split_ifs with hlt
      · exact Nat.le_succ k
      · exact Nat.le_refl k
    · change (if k < e then k + 1 else k) ≤ e
      split_ifs with hlt
      · exact hlt
      · omega
  inside := by
    intro str a b i e he hb hi
    have hcount : a + e + 1 - (a + i) = e + 1 - i := by omega
    rw [findChar, findChar, hcount, ← List.map_add_range', List.find?_map, Option.map_map, Option.map_map]
    have hget : ∀ k, k < e → (slice str a b)[k]? = str[a + k]? := fun k hk => by
      rw [slice, List.getElem?_take_of_lt (by omega), List.getElem?_drop]
    have hpred : ((fun k => decide ((k < a + e ∧ str[k]? = some c) ∨ (eos = true ∧ k = a + e))) ∘ (a + ·)) =
        fun k => decide ((k < e ∧ (slice str a b)[k]? = some c) ∨ (eos = true ∧ k = e)) := by
      funext k
      simp only [Function.comp_apply, Nat.add_lt_add_iff_left, Nat.add_left_cancel_iff]
      congr 1
      refine propext (or_congr_left (and_congr_right fun hk => ?_))
      rw [hget k hk]
    rw [hpred]
    refine congrArg (Option.map · _) (funext fun k => ?_)
    simp only [Function.comp_apply, RegexpMatch.moved, Nat.add_lt_add_iff_left, List.map_nil,
      RegexpMatch.mk.injEq, true_and, and_true]
    split_ifs with hk
    · rfl
    · rfl

theorem rewriting_findChar :
    ∃ ms, Found (findChar 'a' true) ['b', 'a', 'b'] 3 1 ms ∧
      regexpSplit (findChar 'a' true) 3 ['b', 'a', 'b'] 1 3 =
        .ok (between ['b', 'a', 'b'] 3 1 (nonEmpty ms)) := by
  have hsuits : Suits (findChar 'a' true) [.text ['x']] := by
    refine ⟨fun n hn => ?_, fun name hname => ?_, fun f hf => ?_⟩
    · cases List.mem_singleton.mp hn
    · cases List.mem_singleton.mp hname
    · cases List.mem_singleton.mp hf
  obtain ⟨ms, hms, -, hall⟩ := rewriting (findChar_searches 'a' true) hsuits
    (show 3 ≤ ['b', 'a', 'b'].length from Nat.le_refl 3) (show 1 ≤ 3 by decide)
  exact ⟨ms, hms, (hall 3 (by decide)).2.1⟩

/-- Text that is lost, text that is not of the range and text behind the range. -/
theorem rewriting_wrong :
    (∃ parts, regexpPartition (findChar 'a' true) 3 ['a', 'b'] 0 2 = .ok parts ∧
      parts.flatten ≠ slice ['a', 'b'] 0 2) ∧
    regexpReplace (findChar 'a' false) ['b', 'b', 'b'] [.text ['x']] 0 2 0 ≠
      regexpReplace (findChar 'a' false) (slice ['b', 'b', 'b'] 0 2) [.text ['x']] 0 2 0 ∧
    regexpReplaceAll (findChar 'a' false) 3 ['b', 'a', 'b'] [.text ['x']] 0 2 ≠
      regexpReplaceAll (findChar 'a' false) 3 (slice ['b', 'a', 'b'] 0 2) [.text ['x']] 0 2 :=
  ⟨⟨[[], ['a']], rfl, by decide⟩, by decide, by decide⟩

end Idio.Regexp
