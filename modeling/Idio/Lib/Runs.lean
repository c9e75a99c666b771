/-
  Lib/Runs.lean --- the stretches of a list between separators.

  A field is a stretch without separators that has one, or an end of the list, on
  either side; a run is a field that is not empty.  `fieldsFrom` goes over the fields
  from left to right.  It has no field to the right of a separator that is the last
  element.
-/
import Mathlib.Data.List.TakeWhile

set_option autoImplicit false

namespace Runs

/-- A stretch of a list. -/
structure Stretch where
  start : Nat
  len : Nat
  deriving DecidableEq, Repr

section

variable {α : Type} (p : α → Bool) (xs : List α)

/-- A stretch without separators that cannot be extended. -/
structure IsField (s : Stretch) : Prop where
  clear : ∀ k, s.start ≤ k → k < s.start + s.len → ∃ x, xs[k]? = some x ∧ p x = false
  left : s.start = 0 ∨ ∃ x, xs[s.start - 1]? = some x ∧ p x = true
  right : s.start + s.len = xs.length ∨ ∃ x, xs[s.start + s.len]? = some x ∧ p x = true

/-- A field that is not empty. -/
structure IsRun (s : Stretch) : Prop extends IsField p xs s where
  pos : 0 < s.len

/-- The first separator from `i` on, or the end. -/
def stopFrom (i : Nat) : Nat := i + ((xs.drop i).takeWhile fun x => !p x).length

/-- The fields from `i` on, unless `i` is the end. -/
def fieldsFrom (i : Nat) : List Stretch :=
  if i < xs.length then ⟨i, stopFrom p xs i - i⟩ :: fieldsFrom (stopFrom p xs i + 1) else []
termination_by xs.length - i
decreasing_by
  rw [stopFrom]
  omega

/-- The fields from `i` on that are not empty. -/
def runsFrom (i : Nat) : List Stretch := (fieldsFrom p xs i).filter fun s => 0 < s.len

/-- A stretch with the element after it. -/
def withNext (s : Stretch) : List α := (xs.drop s.start).take (s.len + 1)

end

section

variable {α : Type} {p : α → Bool} {xs : List α} {i k : Nat} {s : Stretch}

theorem le_stopFrom (p : α → Bool) (xs : List α) (i : Nat) : i ≤ stopFrom p xs i := Nat.le_add_right _ _

theorem stopFrom_le (h : i ≤ xs.length) : stopFrom p xs i ≤ xs.length := by
  have hlen := (List.takeWhile_prefix (l := xs.drop i) fun x => !p x).length_le
  rw [List.length_drop] at hlen
  rw [stopFrom]
  omega

theorem stopFrom_of_pos {x : α} (h : xs[i]? = some x) (hx : p x = true) : stopFrom p xs i = i := by
  obtain ⟨hlt, heq⟩ := List.getElem?_eq_some_iff.mp h
  rw [stopFrom, List.drop_eq_getElem_cons hlt, heq, List.takeWhile_cons_of_neg]
  · rfl
  · rw [hx]
    decide

theorem stopFrom_of_neg {x : α} (h : xs[i]? = some x) (hx : p x = false) :
    stopFrom p xs i = stopFrom p xs (i + 1) := by
  obtain ⟨hlt, heq⟩ := List.getElem?_eq_some_iff.mp h
  rw [stopFrom, List.drop_eq_getElem_cons hlt, heq, List.takeWhile_cons_of_pos (by rw [hx]; rfl),
    List.length_cons, stopFrom]
  omega

theorem stopFrom_clear (hi : i ≤ k) (hk : k < stopFrom p xs i) :
    ∃ x, xs[k]? = some x ∧ p x = false := by
  rw [stopFrom] at hk
  have hlt : k - i < ((xs.drop i).takeWhile fun x => !p x).length := by omega
  have hx := List.mem_takeWhile_imp (List.getElem_mem hlt)
  rw [(List.takeWhile_prefix _).getElem hlt, List.getElem_drop] at hx
  simp only [Nat.add_sub_cancel' hi] at hx
  exact ⟨_, List.getElem?_eq_getElem _, by simpa using hx⟩

theorem drop_stopFrom (i : Nat) :
    xs.drop (stopFrom p xs i) = (xs.drop i).dropWhile fun x => !p x := by
  have h : (_ ++ (xs.drop i).dropWhile fun x => !p x).drop _ = _ :=
    List.drop_left' (show ((xs.drop i).takeWhile fun x => !p x).length = _ from rfl)
  rwa [List.takeWhile_append_dropWhile, List.drop_drop] at h

theorem stopFrom_stops (h : stopFrom p xs i < xs.length) :
    ∃ x, xs[stopFrom p xs i]? = some x ∧ p x = true := by
  have hhead := List.head?_dropWhile_not (fun x => !p x) (xs.drop i)
  rw [← drop_stopFrom, List.drop_eq_getElem_cons h, List.head?_cons] at hhead
  exact ⟨_, List.getElem?_eq_getElem h, by simpa only [Bool.not_eq_false'] using hhead⟩

/-- It is the only place where a field that starts at `i` can end. -/
theorem IsField.stop (h : IsField p xs s) (hs : s.start = i) (hi : i ≤ xs.length) :
    s.start + s.len = stopFrom p xs i := by
  subst hs
  rcases Nat.lt_trichotomy (s.start + s.len) (stopFrom p xs s.start) with hlt | heq | hgt
  · obtain ⟨x, hx, hpx⟩ := stopFrom_clear (Nat.le_add_right _ _) hlt
    rcases h.right with hend | ⟨y, hy, hpy⟩
    · have := stopFrom_le (p := p) hi
      omega
    · rw [hx, Option.some_inj] at hy
      rw [← hy, hpx] at hpy
      cases hpy
  · exact heq
  · obtain ⟨x, hx, hpx⟩ := h.clear _ (le_stopFrom p xs _) hgt
    obtain ⟨y, hy, hpy⟩ := stopFrom_stops (List.getElem?_eq_some_iff.mp hx).1
    rw [hx, Option.some_inj] at hy
    rw [← hy, hpx] at hpy
    cases hpy

theorem isField_stopFrom (hi : i < xs.length)
    (hleft : i = 0 ∨ ∃ x, xs[i - 1]? = some x ∧ p x = true) :
    IsField p xs ⟨i, stopFrom p xs i - i⟩ := by
  have hle := le_stopFrom p xs i
  have hback : i + (stopFrom p xs i - i) = stopFrom p xs i := by omega
  refine ⟨fun k hk hlt => stopFrom_clear hk (hback ▸ hlt), hleft, ?_⟩
  dsimp only
  rw [hback]
  rcases Nat.lt_or_eq_of_le (stopFrom_le (p := p) (Nat.le_of_lt hi)) with hlt | heq
  · exact .inr (stopFrom_stops hlt)
  · exact .inl heq

/-- After a separator, a field from `i` on starts at `i` or after the next separator. -/
theorem IsField.start_cases (h : IsField p xs s) (hi : i ≤ s.start) :
    s.start = i ∨ stopFrom p xs i + 1 ≤ s.start := by
  by_cases heq : s.start = i
  · exact .inl heq
  · right
    rcases h.left with hzero | ⟨x, hx, hpx⟩
    · omega
    · by_contra hlt
      have hclear : ∃ y, xs[s.start - 1]? = some y ∧ p y = false :=
        stopFrom_clear (i := i) (by omega) (by omega)
      obtain ⟨y, hy, hpy⟩ := hclear
      rw [hx, Option.some_inj] at hy
      rw [← hy, hpx] at hpy
      cases hpy

theorem mem_fieldsFrom (hleft : i = 0 ∨ ∃ x, xs[i - 1]? = some x ∧ p x = true) :
    s ∈ fieldsFrom p xs i ↔ IsField p xs s ∧ i ≤ s.start ∧ s.start < xs.length := by
  induction i using fieldsFrom.induct p xs with
  | case2 i hi =>
    rw [fieldsFrom, if_neg hi]
    refine ⟨fun h => absurd h List.not_mem_nil, fun ⟨_, hle, hlt⟩ => absurd ?_ hi⟩
    omega
  | case1 i hi ih =>
    have hle := le_stopFrom p xs i
    rw [fieldsFrom, if_pos hi, List.mem_cons]
    constructor
    · rintro (rfl | hmem)
      · exact ⟨isField_stopFrom hi hleft, Nat.le_refl _, hi⟩
      · by_cases hlt : stopFrom p xs i < xs.length
        · obtain ⟨hfield, hstart, hend⟩ := (ih (.inr (stopFrom_stops hlt))).mp hmem
          exact ⟨hfield, by omega, hend⟩
        · rw [fieldsFrom, if_neg (by omega)] at hmem
          cases hmem
    · rintro ⟨hfield, hstart, hend⟩
      rcases hfield.start_cases hstart with heq | hgt
      · left
        have hstop := hfield.stop heq (Nat.le_of_lt hi)
        obtain ⟨start, len⟩ := s
        dsimp only at heq hstop
        subst heq
        rw [← hstop, Nat.add_sub_cancel_left]
      · exact .inr ((ih (.inr (stopFrom_stops (by omega)))).mpr ⟨hfield, hgt, hend⟩)

theorem pairwise_fieldsFrom (i : Nat) :
    (fieldsFrom p xs i).Pairwise (fun s t => s.start + s.len < t.start) ∧
      ∀ s ∈ fieldsFrom p xs i, i ≤ s.start := by
  induction i using fieldsFrom.induct p xs with
  | case2 i hi =>
    rw [fieldsFrom, if_neg hi]
    exact ⟨.nil, fun s hs => absurd hs List.not_mem_nil⟩
  | case1 i hi ih =>
    have hle := le_stopFrom p xs i
    rw [fieldsFrom, if_pos hi]
    refine ⟨.cons (fun t ht => ?_) ih.1, fun s hs => ?_⟩
    · have := ih.2 t ht
      dsimp only
      omega
    · rcases List.mem_cons.mp hs with rfl | hs
      · exact Nat.le_refl _
      · have := ih.2 s hs
        omega

/-- The fields, each with the separator after it, are the list. -/
theorem flatMap_withNext (i : Nat) : (fieldsFrom p xs i).flatMap (withNext xs) = xs.drop i := by
  induction i using fieldsFrom.induct p xs with
  | case2 i hi =>
    rw [fieldsFrom, if_neg hi, List.drop_eq_nil_of_le (Nat.not_lt.mp hi)]
    rfl
  | case1 i hi ih =>
    have hle := le_stopFrom p xs i
    rw [fieldsFrom, if_pos hi, List.flatMap_cons, ih, withNext]
    have hnext : stopFrom p xs i + 1 = i + (stopFrom p xs i - i + 1) := by omega
    rw [hnext, ← List.drop_drop, List.take_append_drop]

/-- There is one for each separator, and one more unless the last element is one. -/
theorem length_fieldsFrom (i : Nat) :
    (fieldsFrom p xs i).length =
      (xs.drop i).countP p + if (xs.drop i).getLast?.any (fun x => !p x) then 1 else 0 := by
  induction i using fieldsFrom.induct p xs with
  | case2 i hi =>
    rw [fieldsFrom, if_neg hi, List.drop_eq_nil_of_le (Nat.not_lt.mp hi)]
    rfl
  | case1 i hi ih =>
    have hne : xs.drop i ≠ [] := List.ne_nil_of_length_pos (by rw [List.length_drop]; omega)
    have hsplit := List.takeWhile_append_dropWhile (p := fun x => !p x) (l := xs.drop i)
    have hcount : ((xs.drop i).takeWhile fun x => !p x).countP p = 0 :=
      List.countP_eq_zero.mpr fun x hx => by simpa using List.mem_takeWhile_imp hx
    rw [← drop_stopFrom] at hsplit
    rw [fieldsFrom, if_pos hi, List.length_cons, ih]
    by_cases hlt : stopFrom p xs i < xs.length
    · obtain ⟨x, hx, hpx⟩ := stopFrom_stops hlt
      obtain ⟨_, hx⟩ := List.getElem?_eq_some_iff.mp hx
      rw [List.drop_eq_getElem_cons hlt, hx] at hsplit
      rw [← hsplit, List.countP_append, hcount, List.countP_cons_of_pos hpx, List.getLast?_append,
        List.getLast?_cons]
      cases (xs.drop (stopFrom p xs i + 1)).getLast? with
      | none => simp [hpx]
      | some y => simp [Nat.add_right_comm]
    · have hend : stopFrom p xs i = xs.length := by
        have := stopFrom_le (p := p) (Nat.le_of_lt hi)
        omega
      rw [hend, List.drop_length, List.append_nil] at hsplit
      have hclear : ∀ x ∈ xs.drop i, (!p x) = true := fun x hx =>
        List.mem_takeWhile_imp (p := fun x => !p x) (hsplit.symm ▸ hx)
      rw [hsplit] at hcount
      rw [hend, List.drop_eq_nil_of_le (Nat.le_succ _), hcount,
        List.getLast?_eq_some_getLast hne, Option.any_some, if_pos (hclear _ (List.getLast_mem hne))]
      rfl

/-- Separators at the front are passed over. -/
theorem runsFrom_skip {n : Nat} (h : ∀ k, i ≤ k → k < i + n → ∃ x, xs[k]? = some x ∧ p x = true) :
    runsFrom p xs (i + n) = runsFrom p xs i := by
  induction n with
  | zero => rfl
  | succ n ih =>
    rw [← ih fun k hk hlt => h k hk (by omega)]
    obtain ⟨x, hx, hpx⟩ := h (i + n) (Nat.le_add_right _ _) (by omega)
    have hlt := (List.getElem?_eq_some_iff.mp hx).1
    have hfields : fieldsFrom p xs (i + n) = ⟨i + n, 0⟩ :: fieldsFrom p xs (i + n + 1) := by
      rw [fieldsFrom, if_pos hlt, stopFrom_of_pos hx hpx, Nat.sub_self]
    rw [runsFrom, runsFrom, hfields]
    rfl

theorem mem_runsFrom_zero : s ∈ runsFrom p xs 0 ↔ IsRun p xs s := by
  rw [runsFrom, List.mem_filter, mem_fieldsFrom (.inl rfl), decide_eq_true_iff]
  refine ⟨fun ⟨⟨hfield, _, _⟩, hpos⟩ => ⟨hfield, hpos⟩, fun h => ⟨⟨h.toIsField, Nat.zero_le _, ?_⟩, h.pos⟩⟩
  obtain ⟨x, hx, -⟩ := h.clear s.start (Nat.le_refl _) (Nat.lt_add_of_pos_right h.pos)
  exact (List.getElem?_eq_some_iff.mp hx).1

end

end Runs
