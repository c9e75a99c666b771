/-
  Lib/KeyedList.lean --- association lists whose keys are compared by a function.

  The comparator is any Boolean equivalence, so a key may be stored under one
  representative and asked for by another.  `find`, `put` and `erase` look for the
  first entry whose key compares equal.  On a list without equal keys (`Distinct`)
  they are look-up, update and removal of a finite map, which here is a function
  from keys to optional values: `find_put`, `find_erase` and `find_append` are the
  equations.

  `find_flatten` is the fact hash tables rest on: where all entries for a key are
  in one chain, it is enough to look there.
-/
import Mathlib.Data.List.Pairwise
import Mathlib.Data.List.GetD

set_option autoImplicit false

namespace KeyedList

variable {K V W : Type}

/-- A comparator that is an equivalence. -/
structure IsEquiv (comp : K → K → Bool) : Prop where
  refl : ∀ a, comp a a = true
  symm : ∀ a b, comp a b = true → comp b a = true
  trans : ∀ a b c, comp a b = true → comp b c = true → comp a c = true

section Equiv

variable {comp : K → K → Bool} (hc : IsEquiv comp)

include hc

theorem IsEquiv.comm (a b : K) : comp a b = comp b a := by
  rw [Bool.eq_iff_iff]
  exact ⟨hc.symm a b, hc.symm b a⟩

/-- Equal keys compare alike. -/
theorem IsEquiv.congr {a b : K} (h : comp a b = true) (x : K) : comp x a = comp x b := by
  rw [Bool.eq_iff_iff]
  exact ⟨fun hx => hc.trans x a b hx h, fun hx => hc.trans x b a hx (hc.symm a b h)⟩

theorem IsEquiv.congr_left {a b : K} (h : comp a b = true) (x : K) : comp a x = comp b x := by
  rw [hc.comm a x, hc.comm b x, hc.congr h x]

end Equiv

/-! ## Finite maps -/

/-- A finite map on the keys, as a function. -/
abbrev KeyMap (K V : Type) : Type := K → Option V

/-- The map with `k` mapped to `v`. -/
def update (comp : K → K → Bool) (m : KeyMap K V) (k : K) (v : V) : KeyMap K V :=
  fun x => if comp x k then some v else m x

/-- The map without `k`. -/
def remove (comp : K → K → Bool) (m : KeyMap K V) (k : K) : KeyMap K V :=
  fun x => if comp x k then none else m x

/-- The map of `n` where it has a value, and of `m` elsewhere. -/
def override (m n : KeyMap K V) : KeyMap K V := fun x => (n x).or (m x)

/-- The entries of a list put one after another, so that the last value counts. -/
def putEach (comp : K → K → Bool) (m : KeyMap K V) (l : List (K × V)) : KeyMap K V :=
  l.foldl (fun m e => update comp m e.1 e.2) m

/-! ## Association lists -/

/-- The value of the first entry for `x`. -/
def find (comp : K → K → Bool) : List (K × V) → K → Option V
  | [], _ => none
  | e :: es, x => if comp x e.1 then some e.2 else find comp es x

/-- The first entry for `k` gets the value `v`; `none` if there is no entry. -/
def replace (comp : K → K → Bool) (k : K) (v : V) : List (K × V) → Option (List (K × V))
  | [] => none
  | e :: es =>
      if comp k e.1 then some ((e.1, v) :: es) else (replace comp k v es).map (e :: ·)

/-- The list without its first entry for `k`; `none` if there is no entry. -/
def erase (comp : K → K → Bool) (k : K) : List (K × V) → Option (List (K × V))
  | [] => none
  | e :: es => if comp k e.1 then some es else (erase comp k es).map (e :: ·)

/-- No two entries have equal keys. -/
def Distinct (comp : K → K → Bool) (l : List (K × V)) : Prop :=
  l.Pairwise fun e f => comp e.1 f.1 = false

section Lists

variable {comp : K → K → Bool}

@[simp] theorem distinct_nil : Distinct comp ([] : List (K × V)) := List.Pairwise.nil

theorem distinct_cons {e : K × V} {es : List (K × V)} :
    Distinct comp (e :: es) ↔ (∀ f ∈ es, comp e.1 f.1 = false) ∧ Distinct comp es :=
  List.pairwise_cons

variable {x : K} {l : List (K × V)}

theorem find_eq_none_iff :
    find comp l x = none ↔ ∀ e ∈ l, comp x e.1 = false := by
  induction l with
  | nil => simp [find]
  | cons e es ih =>
    rw [find, List.forall_mem_cons, ← ih]
    cases comp x e.1 <;> simp

theorem find_append (l l' : List (K × V)) (x : K) :
    find comp (l ++ l') x = (find comp l x).or (find comp l' x) := by
  induction l with
  | nil => rfl
  | cons e es ih =>
    rw [List.cons_append, find, find, ih]
    split <;> rfl

/-- Mapping the values. -/
theorem find_map (f : V → W) (l : List (K × V)) (x : K) :
    find comp (l.map fun e => (e.1, f e.2)) x = (find comp l x).map f := by
  induction l with
  | nil => rfl
  | cons e es ih =>
    rw [List.map_cons, find, find, ih]
    split <;> rfl

theorem distinct_map (f : V → W) (h : Distinct comp l) :
    Distinct comp (l.map fun e => (e.1, f e.2)) :=
  List.pairwise_map.mpr h

/-- Where every entry for `x` is in the chain `i`, the chain decides. -/
theorem find_flatten {chains : List (List (K × V))} {i : Nat}
    (h : ∀ j, j ≠ i → ∀ e ∈ chains.getD j [], comp x e.1 = false) :
    find comp chains.flatten x = find comp (chains.getD i []) x := by
  induction chains generalizing i with
  | nil => simp [find]
  | cons c cs ih =>
    rw [List.flatten_cons, find_append]
    cases i with
    | zero =>
      have hrest : find comp cs.flatten x = none := by
        rw [find_eq_none_iff]
        intro e he
        obtain ⟨d, hd, hed⟩ := List.mem_flatten.mp he
        obtain ⟨j, hj, rfl⟩ := List.mem_iff_getElem.mp hd
        have := h (j + 1) (by omega) e
        rw [List.getD_cons_succ, List.getD_eq_getElem _ _ hj] at this
        exact this hed
      rw [hrest, Option.or_none]
      rfl
    | succ i =>
      have hfirst : find comp c x = none := find_eq_none_iff.mpr (h 0 (by omega))
      rw [hfirst, Option.none_or, List.getD_cons_succ]
      apply ih
      intro j hj e he
      exact h (j + 1) (by omega) e he

/-- The entries after one chain is replaced. -/
theorem length_flatten_set {α : Type} (l : List (List α)) {i : Nat} (hi : i < l.length)
    (c : List α) :
    (l.set i c).flatten.length + (l.getD i []).length = l.flatten.length + c.length := by
  induction l generalizing i with
  | nil => cases hi
  | cons d ds ih =>
    cases i with
    | zero =>
      simp only [List.set_cons_zero, List.flatten_cons, List.length_append, List.getD_cons_zero]
      omega
    | succ i =>
      have := ih (by simpa using hi)
      simp only [List.set_cons_succ, List.flatten_cons, List.length_append, List.getD_cons_succ]
      omega

variable {v : V}

theorem find_eq_some_iff (hc : IsEquiv comp) (hd : Distinct comp l) :
    find comp l x = some v ↔ ∃ e ∈ l, comp x e.1 = true ∧ e.2 = v := by
  induction l with
  | nil => simp [find]
  | cons e es ih =>
    obtain ⟨hfirst, hd⟩ := distinct_cons.mp hd
    rw [find]
    simp only [List.mem_cons, or_and_right, exists_or, exists_eq_left]
    by_cases hx : comp x e.1 = true
    · have hrest : ¬ ∃ f ∈ es, comp x f.1 = true ∧ f.2 = v := by
        rintro ⟨f, hf, hxf, -⟩
        rw [hc.congr_left hx, hfirst f hf] at hxf
        cases hxf
      simp [hx, hrest]
    · simp [hx, ih hd]

/-- With distinct keys it does not matter in which order the entries are put. -/
theorem putEach_eq_override (hc : IsEquiv comp) {m : KeyMap K V} (hd : Distinct comp l) :
    putEach comp m l = override m (find comp l) := by
  induction l generalizing m with
  | nil => rfl
  | cons e es ih =>
    obtain ⟨hfirst, hd⟩ := distinct_cons.mp hd
    funext x
    rw [putEach, List.foldl_cons]
    show putEach comp (update comp m e.1 e.2) es x = _
    rw [ih hd, override, override, update, find]
    by_cases hx : comp x e.1 = true
    · have hnone : find comp es x = none := by
        rw [find_eq_none_iff]
        intro f hf
        rw [hc.congr_left hx f.1]
        exact hfirst f hf
      simp [hx, hnone]
    · simp [hx]

/-! ### Replacing -/

variable {k : K}

theorem replace_eq_none_iff :
    replace comp k v l = none ↔ ∀ e ∈ l, comp k e.1 = false := by
  induction l with
  | nil => simp [replace]
  | cons e es ih =>
    rw [replace, List.forall_mem_cons]
    cases comp k e.1 <;> simp [ih]

variable {l' : List (K × V)}

/-- Replacing keeps the keys. -/
theorem replace_keys (h : replace comp k v l = some l') :
    l'.map Prod.fst = l.map Prod.fst := by
  induction l generalizing l' with
  | nil => cases h
  | cons e es ih =>
    rw [replace] at h
    split at h
    · cases h
      rfl
    · obtain ⟨m, hm, rfl⟩ := Option.map_eq_some_iff.mp h
      rw [List.map_cons, List.map_cons, ih hm]

theorem distinct_iff_keys :
    Distinct comp l ↔ (l.map Prod.fst).Pairwise fun a b => comp a b = false := by
  rw [List.pairwise_map]
  rfl

theorem find_replace (hc : IsEquiv comp) (h : replace comp k v l = some l') (x : K) :
    find comp l' x = if comp x k then some v else find comp l x := by
  induction l generalizing l' with
  | nil => cases h
  | cons e es ih =>
    rw [replace] at h
    split at h
    · rename_i hk
      cases h
      rw [find, find, ← hc.congr hk x]
      split <;> rfl
    · rename_i hk
      obtain ⟨m, hm, rfl⟩ := Option.map_eq_some_iff.mp h
      rw [find, find, ih hm]
      by_cases hx : comp x k = true
      · have hne : comp x e.1 = false := by
          rw [hc.congr_left hx e.1]
          simpa using hk
        simp [hx, hne]
      · simp [hx]

/-! ### Erasing -/

theorem erase_eq_none_iff :
    erase comp k l = none ↔ find comp l k = none := by
  induction l with
  | nil => simp [erase, find]
  | cons e es ih =>
    rw [erase, find]
    cases comp k e.1 <;> simp [ih]

theorem erase_sublist (h : erase comp k l = some l') :
    l'.Sublist l ∧ l'.length + 1 = l.length := by
  induction l generalizing l' with
  | nil => cases h
  | cons e es ih =>
    rw [erase] at h
    split at h
    · cases h
      exact ⟨List.sublist_cons_self _ _, rfl⟩
    · obtain ⟨m, hm, rfl⟩ := Option.map_eq_some_iff.mp h
      obtain ⟨hsub, hlen⟩ := ih hm
      exact ⟨hsub.cons_cons e, by rw [List.length_cons, List.length_cons, hlen]⟩

/-- On distinct keys, erasing one entry erases the key. -/
theorem find_erase (hc : IsEquiv comp) (hd : Distinct comp l) (h : erase comp k l = some l') (x : K) :
    find comp l' x = if comp x k then none else find comp l x := by
  induction l generalizing l' with
  | nil => cases h
  | cons e es ih =>
    obtain ⟨hfirst, hd⟩ := distinct_cons.mp hd
    rw [erase] at h
    split at h
    · rename_i hk
      cases h
      rw [find, ← hc.congr hk x]
      by_cases hx : comp x k = true
      · rw [if_pos hx, find_eq_none_iff]
        intro f hf
        rw [hc.congr_left (hc.trans x k e.1 hx hk) f.1]
        exact hfirst f hf
      · rw [if_neg hx, if_neg hx]
    · rename_i hk
      obtain ⟨m, hm, rfl⟩ := Option.map_eq_some_iff.mp h
      rw [find, find, ih hd hm]
      by_cases hx : comp x k = true
      · have hne : comp x e.1 = false := by
          rw [hc.congr_left hx e.1]
          simpa using hk
        simp [hx, hne]
      · simp [hx]

end Lists

end KeyedList
