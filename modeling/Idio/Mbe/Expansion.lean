/-
  Mbe/Expansion.lean --- a pattern as a template gives back what it matched.

  The environment of a pattern is followed through `expand-pattern` with what stands in front of
  it and behind it: in a repetition the environment of the repetition stands in front of that of
  the whole.  Nestings are told apart by their variables and the depths of these.
-/
import Idio.Mbe.Patterns
import Mathlib.Data.List.Nodup

set_option autoImplicit false

namespace Idio.Mbe

/-! ## Lists of expressions -/

section Lists

variable {e tail eh et : Sexp} {xs : List Sexp} {n : Nat}

theorem everyLoop_true {p : Sexp → Result Bool} (h : Sexp.everyLoop p e = .ok true) :
    ∃ xs, e = Sexp.ofList .nil xs ∧ ∀ x ∈ xs, p x = .ok true := by
  induction e with
  | nil => cases h
  | symbol s => cases h
  | datum n => cases h
  | pair x t _ ih =>
    by_cases ht : t = .nil
    · subst ht
      exact ⟨[x], rfl, fun y hy => by rw [List.mem_singleton.mp hy]; exact h⟩
    · rw [Sexp.everyLoop] at h
      · obtain ⟨b, hb, h⟩ := bind_eq_ok.mp h
        cases b with
        | false => cases h
        | true =>
          obtain ⟨xs, rfl, hall⟩ := ih h
          exact ⟨x :: xs, rfl, List.forall_mem_cons.mpr ⟨hb, hall⟩⟩
      · exact ht

theorem every_true {p : Sexp → Result Bool} (h : e.every p = .ok true) :
    ∃ xs, e = Sexp.ofList .nil xs ∧ ∀ x ∈ xs, p x = .ok true := by
  cases e with
  | nil => exact ⟨[], rfl, fun x hx => absurd hx List.not_mem_nil⟩
  | symbol s => cases h
  | datum n => cases h
  | pair x t => exact everyLoop_true h

theorem map_ofList {α : Type} (f : Sexp → Result α) (xs : List Sexp) :
    (Sexp.ofList .nil xs).map f = xs.mapM f := by
  induction xs with
  | nil => rfl
  | cons x xs ih =>
    rw [Sexp.ofList, Sexp.map, ih, List.mapM_cons]
    rfl

theorem withoutNth_ok (h : withoutNth e n = .ok (Sexp.ofList .nil xs, et)) : e = Sexp.ofList et xs := by
  induction n generalizing e xs with
  | zero =>
    rw [withoutNth] at h
    cases xs with
    | nil =>
      cases h
      rfl
    | cons x xs => cases h
  | succ n ih =>
    cases e with
    | pair x t =>
      rw [withoutNth] at h
      obtain ⟨r, hr, h⟩ := bind_eq_ok.mp h
      obtain ⟨r1, r2⟩ := r
      cases xs with
      | nil => cases h
      | cons y xs =>
        cases h
        rw [ih hr]
        rfl
    | nil => cases h
    | symbol s => cases h
    | datum n => cases h

/-- The two parts are the whole. -/
theorem splitAtEllipsis_ok (h : splitAtEllipsis e tail = .ok (Sexp.ofList .nil xs, et)) :
    e = Sexp.ofList et xs := by
  cases tail with
  | nil =>
    cases h
    rfl
  | pair x t =>
    rw [splitAtEllipsis] at h
    cases hpos : position x e with
    | none =>
      rw [hpos] at h
      cases h
    | some i =>
      rw [hpos] at h
      exact withoutNth_ok h
  | symbol s => cases h
  | datum n => cases h

end Lists

/-! ## Variables and their depths -/

/-- The variables of a pattern with the number of ellipses over each, counted from `d`. -/
def vars (k : List String) : Nat → Sexp → List (String × Nat)
  | d, .pair ph (.pair x pt) =>
      if x = dots then vars k (d + 1) ph ++ vars k d pt else vars k d ph ++ vars k d (.pair x pt)
  | d, .pair ph pt => vars k d ph ++ vars k d pt
  | d, .symbol s => if s ∈ k then [] else [(s, d)]
  | _, _ => []

mutual

/-- The symbols of nestings with their depths. -/
def leaves : Nat → Sexp → List (String × Nat)
  | d, .symbol s => [(s, d)]
  | d, .pair h t => leaves (d + 1) h ++ tailLeaves d t
  | _, _ => []

/-- Those of the elements of a list. -/
def tailLeaves : Nat → Sexp → List (String × Nat)
  | d, .pair h t => leaves (d + 1) h ++ tailLeaves d t
  | _, _ => []

end

section Depths

variable {k : List String} {ph pt p v y : Sexp} {d : Nat} {x : String × Nat}

theorem vars_pair (h : Plain pt) : vars k d (.pair ph pt) = vars k d ph ++ vars k d pt := by
  cases pt with
  | pair x pt => rw [vars, if_neg h.ne]
  | nil => rw [vars]; exact nofun
  | symbol s => rw [vars]; exact nofun
  | datum n => rw [vars]; exact nofun

theorem vars_dots : vars k d (.pair ph (.pair dots pt)) = vars k (d + 1) ph ++ vars k d pt := by
  rw [vars, if_pos rfl]

/-- Counting from one more. -/
theorem vars_succ : vars k (d + 1) p = (vars k d p).map fun x => (x.1, x.2 + 1) := by
  induction p using pattern_induction generalizing d with
  | nil => rfl
  | symbol s =>
    rw [vars, vars]
    split_ifs with hs
    · rfl
    · rfl
  | datum n => rfl
  | ellipsis ph pt ih₁ ih₂ => rw [vars_dots, vars_dots, List.map_append, ih₁, ih₂]
  | pair ph pt hpt ih₁ ih₂ => rw [vars_pair hpt, vars_pair hpt, List.map_append, ih₁, ih₂]

theorem mem_vars_succ {s : String} : (s, d + 1) ∈ vars k 1 p ↔ (s, d) ∈ vars k 0 p := by
  rw [vars_succ, List.mem_map]
  constructor
  · rintro ⟨⟨s', d'⟩, hmem, heq⟩
    cases heq
    exact hmem
  · exact fun h => ⟨(s, d), h, rfl⟩

theorem leaves_ofList (l : List Sexp) :
    leaves d (Sexp.ofList .nil l) = l.flatMap (leaves (d + 1)) ∧
      tailLeaves d (Sexp.ofList .nil l) = l.flatMap (leaves (d + 1)) := by
  induction l with
  | nil => exact ⟨rfl, rfl⟩
  | cons x l ih =>
    rw [Sexp.ofList, leaves, tailLeaves, ih.2, List.flatMap_cons]
    exact ⟨rfl, rfl⟩

/-- The symbols of the nestings of a pattern are its variables. -/
theorem leaves_nestings : (getEllipsisNestings k p).flatMap (leaves d) = vars k d p := by
  induction p using pattern_induction generalizing d with
  | nil => rfl
  | symbol s =>
    rw [getEllipsisNestings, vars]
    split_ifs with hs
    · rfl
    · rfl
  | datum n => rfl
  | ellipsis ph pt ih₁ ih₂ =>
    rw [getEllipsisNestings, if_pos rfl, List.flatMap_cons, (leaves_ofList _).1, ih₁, ih₂, vars_dots]
  | pair ph pt hpt ih₁ ih₂ =>
    rw [getEllipsisNestings_pair hpt, List.flatMap_append, ih₁, ih₂, vars_pair hpt]

theorem le_of_mem_leaves (y : Sexp) :
    ∀ d, (∀ x ∈ leaves d y, d ≤ x.2) ∧ ∀ x ∈ tailLeaves d y, d < x.2 := by
  induction y with
  | nil => exact fun d => ⟨fun x hx => absurd hx List.not_mem_nil, fun x hx => absurd hx List.not_mem_nil⟩
  | symbol s =>
    exact fun d => ⟨fun x hx => by cases List.mem_singleton.mp hx; exact Nat.le_refl d,
      fun x hx => absurd hx List.not_mem_nil⟩
  | datum n => exact fun d => ⟨fun x hx => absurd hx List.not_mem_nil, fun x hx => absurd hx List.not_mem_nil⟩
  | pair h t ihh iht =>
    intro d
    have hboth : ∀ x ∈ leaves (d + 1) h ++ tailLeaves d t, d < x.2 := fun x hx => by
      rcases List.mem_append.mp hx with hx | hx
      · exact (ihh (d + 1)).1 x hx
      · exact (iht d).2 x hx
    exact ⟨fun x hx => Nat.le_of_lt (hboth x hx), hboth⟩

theorem any_iff {f : Sexp → Bool} {L : List (String × Nat)}
    (hf : ∀ z, f z = true ↔ ∃ x ∈ L, x ∈ leaves (d + 1) z) :
    y.any f = true ↔ ∃ x ∈ L, x ∈ tailLeaves d y := by
  induction y with
  | pair h t _ ih =>
    rw [Sexp.any, Bool.or_eq_true, hf, ih, tailLeaves]
    simp only [List.mem_append, and_or_left, exists_or]
  | nil => simp [Sexp.any, tailLeaves]
  | symbol s => simp [Sexp.any, tailLeaves]
  | datum n => simp [Sexp.any, tailLeaves]

/-- Two nestings have an intersection if and only if they have a symbol at the same depth. -/
theorem containedIn_iff (v : Sexp) : ∀ d y, (containedIn v y = true ↔ ∃ x ∈ leaves d v, x ∈ leaves d y) ∧
    (someIn v y = true ↔ ∃ x ∈ tailLeaves d v, x ∈ tailLeaves d y) := by
  induction v with
  | nil => intro d y; simp [containedIn, someIn, leaves, tailLeaves]
  | datum n => intro d y; simp [containedIn, someIn, leaves, tailLeaves]
  | symbol s =>
    intro d y
    refine ⟨?_, by simp [someIn, tailLeaves]⟩
    rw [containedIn, decide_eq_true_iff]
    simp only [leaves, List.mem_singleton, exists_eq_left]
    cases y with
    | symbol s' =>
      simp only [leaves, List.mem_singleton, Prod.mk.injEq, and_true, Sexp.symbol.injEq]
      exact eq_comm
    | pair h t =>
      refine iff_of_false nofun fun hmem => ?_
      exact absurd ((le_of_mem_leaves (.pair h t) d).2 _ hmem) (Nat.lt_irrefl d)
    | nil => simp [leaves]
    | datum n => simp [leaves]
  | pair h t ihh iht =>
    intro d y
    have hsome : (y.any (containedIn h) || someIn t y) = true ↔
        ∃ x ∈ tailLeaves d (.pair h t), x ∈ tailLeaves d y := by
      rw [Bool.or_eq_true, any_iff fun z => (ihh (d + 1) z).1, (iht d y).2, tailLeaves]
      simp only [List.mem_append, or_and_right, exists_or]
    refine ⟨?_, hsome⟩
    cases y with
    | symbol s =>
      rw [containedIn]
      refine iff_of_false Bool.false_ne_true ?_
      rintro ⟨x, hx, hxs⟩
      have hlt := (le_of_mem_leaves (.pair h t) d).2 x hx
      rw [leaves, List.mem_singleton] at hxs
      rw [hxs] at hlt
      exact Nat.lt_irrefl d hlt
    | pair h' t' => exact hsome
    | nil => exact hsome
    | datum n => exact hsome

end Depths

/-! ## Environments -/

/-- The symbols of the nestings in an environment, with their depths. -/
def keyLeaves : List Binding → List (String × Nat)
  | [] => []
  | .var _ _ :: r => keyLeaves r
  | .nest n _ :: r => leaves 0 n ++ keyLeaves r

/-- The variables of an environment, those in nestings as well. -/
def boundNames : List Binding → List String
  | [] => []
  | .var s _ :: r => s :: boundNames r
  | .nest n _ :: r => (leaves 0 n).map Prod.fst ++ boundNames r

/-- The names of the variables of a pattern. -/
def names (k : List String) (p : Sexp) : List String := (vars k 0 p).map Prod.fst

section Environments

variable {k : List String} {p e nestings : Sexp} {r r' b : List Binding} {s : String}
  {envs : List (List Binding)}

theorem lookup_append (h : s ∉ boundNames r) : lookup s (r ++ r') = lookup s r' := by
  induction r with
  | nil => rfl
  | cons c r ih =>
    cases c with
    | var s' e =>
      rw [boundNames, List.mem_cons, not_or] at h
      rw [List.cons_append, lookup, if_neg (Ne.symm h.1), ih h.2]
    | nest n envs =>
      rw [boundNames, List.mem_append, not_or] at h
      rw [List.cons_append, lookup, ih h.2]

theorem subEnvsList_append : subEnvsList nestings (r ++ r') =
    subEnvsList nestings r ++ subEnvsList nestings r' := by
  induction r with
  | nil => rfl
  | cons c r ih =>
    cases c with
    | var s e => rw [List.cons_append, subEnvsList, subEnvsList, ih]
    | nest n envs =>
      rw [List.cons_append, subEnvsList, subEnvsList, ih]
      split_ifs with hc
      · rfl
      · rfl

theorem subEnvsList_eq_nil (h : ∀ x ∈ leaves 0 nestings, x ∉ keyLeaves r) :
    subEnvsList nestings r = [] := by
  induction r with
  | nil => rfl
  | cons c r ih =>
    cases c with
    | var s e => exact ih h
    | nest n envs =>
      simp only [keyLeaves, List.mem_append, not_or] at h
      rw [subEnvsList, if_neg, ih fun x hx => (h x hx).2]
      intro hc
      obtain ⟨x, hx, hxn⟩ := ((containedIn_iff nestings 0 n).1).mp hc
      exact (h x hx).1 hxn

theorem mem_boundNames_of_keyLeaves {x : String × Nat} (h : x ∈ keyLeaves r) : x.1 ∈ boundNames r := by
  induction r with
  | nil => exact absurd h List.not_mem_nil
  | cons c r ih =>
    cases c with
    | var s e => exact List.mem_cons_of_mem s (ih h)
    | nest n envs =>
      rcases List.mem_append.mp h with h | h
      · exact List.mem_append_left _ (List.mem_map_of_mem h)
      · exact List.mem_append_right _ (ih h)

theorem boundNames_append : boundNames (r ++ r') = boundNames r ++ boundNames r' := by
  induction r with
  | nil => rfl
  | cons c r ih =>
    cases c with
    | var s e => rw [List.cons_append, boundNames, boundNames, ih, List.cons_append]
    | nest n envs => rw [List.cons_append, boundNames, boundNames, ih, List.append_assoc]

theorem keyLeaves_append : keyLeaves (r ++ r') = keyLeaves r ++ keyLeaves r' := by
  induction r with
  | nil => rfl
  | cons c r ih =>
    cases c with
    | var s e => exact ih
    | nest n envs => rw [List.cons_append, keyLeaves, keyLeaves, ih, List.append_assoc]

/-- The symbols of the nestings that are made for the head of an ellipsis. -/
theorem leaves_head : leaves 0 (Sexp.ofList .nil (getEllipsisNestings k p)) = vars k 1 p := by
  rw [(leaves_ofList _).1, leaves_nestings]

theorem names_vars_one : (vars k 1 p).map Prod.fst = names k p := by
  rw [vars_succ, List.map_map]
  rfl

/-- The bindings of a pattern are of its variables. -/
theorem bound_of_getBindings (h : getBindings k p e = .ok b) :
    (∀ s ∈ boundNames b, s ∈ names k p) ∧ ∀ x ∈ keyLeaves b, x ∈ vars k 0 p := by
  induction p using pattern_induction generalizing e b with
  | nil =>
    cases h
    exact ⟨fun s hs => absurd hs List.not_mem_nil, fun x hx => absurd hx List.not_mem_nil⟩
  | symbol s =>
    rw [getBindings] at h
    cases h
    split_ifs with hs
    · exact ⟨fun s hs => absurd hs List.not_mem_nil, fun x hx => absurd hx List.not_mem_nil⟩
    · rw [names, vars, if_neg hs]
      exact ⟨fun s hs => hs, fun x hx => absurd hx List.not_mem_nil⟩
  | datum n =>
    cases h
    exact ⟨fun s hs => absurd hs List.not_mem_nil, fun x hx => absurd hx List.not_mem_nil⟩
  | ellipsis ph pt _ ih₂ =>
    rw [getBindings, if_pos rfl] at h
    obtain ⟨parts, -, h⟩ := bind_eq_ok.mp h
    obtain ⟨envs, -, h⟩ := bind_eq_ok.mp h
    obtain ⟨rest, hrest, h⟩ := bind_eq_ok.mp h
    cases h
    obtain ⟨hnames, hleaves⟩ := ih₂ hrest
    rw [names, vars_dots, List.map_append, names_vars_one, boundNames, keyLeaves, leaves_head,
      names_vars_one]
    refine ⟨fun s hs => List.mem_append.mpr ((List.mem_append.mp hs).imp_right (hnames s)), fun x hx =>
      List.mem_append.mpr ((List.mem_append.mp hx).imp_right (hleaves x))⟩
  | pair ph pt hpt ih₁ ih₂ =>
    rw [getBindings_pair hpt] at h
    cases e with
    | pair h' t' =>
      obtain ⟨first, hfirst, h⟩ := bind_eq_ok.mp h
      obtain ⟨rest, hrest, h⟩ := bind_eq_ok.mp h
      cases h
      obtain ⟨hnames₁, hleaves₁⟩ := ih₁ hfirst
      obtain ⟨hnames₂, hleaves₂⟩ := ih₂ hrest
      rw [names, vars_pair hpt, List.map_append, boundNames_append, keyLeaves_append]
      exact ⟨fun s hs => List.mem_append.mpr ((List.mem_append.mp hs).imp (hnames₁ s) (hnames₂ s)),
        fun x hx => List.mem_append.mpr ((List.mem_append.mp hx).imp (hleaves₁ x) (hleaves₂ x))⟩
    | nil => cases h
    | symbol s => cases h
    | datum n => cases h

/-- A variable has one depth in a pattern without repeated variables. -/
theorem depth_unique (h : (names k p).Nodup) {d d' : Nat} (hd : (s, d) ∈ vars k 0 p)
    (hd' : (s, d') ∈ vars k 0 p) : d = d' :=
  congrArg Prod.snd (List.inj_on_of_nodup_map h hd hd' rfl)

end Environments

/-! ## The round trip -/

/-- The elements of a list. -/
def elements : Sexp → List Sexp
  | .pair h t => h :: elements t
  | _ => []

theorem elements_ofList (xs : List Sexp) : elements (Sexp.ofList .nil xs) = xs := by
  induction xs with
  | nil => rfl
  | cons x xs ih => rw [Sexp.ofList, elements, ih]

/-- There is a variable under each ellipsis that comes to be expanded: one that stands in a
repetition does if there is an expression for the repetition. -/
def Instantiable (k : List String) : Sexp → Sexp → Prop
  | .pair ph (.pair x pt), e =>
      if x = dots then
        vars k 0 ph ≠ [] ∧
          ∀ r, splitAtEllipsis e pt = .ok r →
            (∀ y ∈ elements r.1, Instantiable k ph y) ∧ Instantiable k pt r.2
      else ∀ h t, e = .pair h t → Instantiable k ph h ∧ Instantiable k (.pair x pt) t
  | .pair ph pt, e => ∀ h t, e = .pair h t → Instantiable k ph h ∧ Instantiable k pt t
  | _, _ => True

section RoundTrip

variable {k : List String} {p ph pt e : Sexp} {b pre post : List Binding}

theorem instantiable_dots : Instantiable k (.pair ph (.pair dots pt)) e ↔
    vars k 0 ph ≠ [] ∧ ∀ r, splitAtEllipsis e pt = .ok r →
      (∀ y ∈ elements r.1, Instantiable k ph y) ∧ Instantiable k pt r.2 := by
  rw [Instantiable, if_pos rfl]

theorem instantiable_pair (hpt : Plain pt) {h t : Sexp} : Instantiable k (.pair ph pt) (.pair h t) ↔
    Instantiable k ph h ∧ Instantiable k pt t := by
  have hunfold : Instantiable k (.pair ph pt) (.pair h t) ↔
      ∀ h' t', Sexp.pair h t = .pair h' t' → Instantiable k ph h' ∧ Instantiable k pt t' := by
    cases pt with
    | pair x pt => rw [Instantiable, if_neg hpt.ne]
    | nil => rw [Instantiable]; exact nofun
    | symbol s => rw [Instantiable]; exact nofun
    | datum n => rw [Instantiable]; exact nofun
  rw [hunfold]
  exact ⟨fun hall => hall h t rfl, fun hboth h' t' heq => by cases heq; exact hboth⟩

/-- A match of an ellipsis: a list of matches of the head and a match of the tail. -/
theorem matches_dots (h : matchesPattern k (.pair ph (.pair dots pt)) e = .ok true) :
    ∃ xs et, splitAtEllipsis e pt = .ok (Sexp.ofList .nil xs, et) ∧
      (∀ x ∈ xs, matchesPattern k ph x = .ok true) ∧ matchesPattern k pt et = .ok true := by
  rw [matchesPattern, if_pos rfl] at h
  split_ifs at h with hlist
  · obtain ⟨⟨eh, et⟩, hsplit, hrun⟩ := bind_eq_ok.mp h
    obtain ⟨c, hevery, hrun⟩ := bind_eq_ok.mp hrun
    cases c with
    | false => cases hrun
    | true =>
      obtain ⟨xs, rfl, hall⟩ := every_true hevery
      exact ⟨xs, et, hsplit, hall, hrun⟩
  · cases h

theorem matches_pair (hpt : Plain pt) (h : matchesPattern k (.pair ph pt) e = .ok true) :
    ∃ eh et, e = .pair eh et ∧ matchesPattern k ph eh = .ok true ∧ matchesPattern k pt et = .ok true := by
  rw [matchesPattern_pair hpt] at h
  cases e with
  | pair eh et =>
    obtain ⟨c, hc, h⟩ := bind_eq_ok.mp h
    cases c with
    | false => cases h
    | true => exact ⟨eh, et, rfl, hc, h⟩
  | nil => cases h
  | symbol s => cases h
  | datum n => cases h

theorem mapM_forall₂ {α β : Type} {f : α → Result β} {xs : List α} {ys : List β} :
    xs.mapM f = .ok ys ↔ List.Forall₂ (fun x y => f x = .ok y) xs ys := by
  induction xs generalizing ys with
  | nil =>
    rw [List.mapM_nil, List.forall₂_nil_left_iff]
    exact ⟨fun h => by cases h; rfl, fun h => by rw [h]; rfl⟩
  | cons x xs ih =>
    rw [List.mapM_cons, bind_eq_ok]
    constructor
    · rintro ⟨y, hy, h⟩
      obtain ⟨zs, hzs, h⟩ := bind_eq_ok.mp h
      cases h
      exact .cons hy (ih.mp hzs)
    · intro h
      cases h with
      | cons hy hrest => exact ⟨_, hy, bind_eq_ok.mpr ⟨_, ih.mpr hrest, rfl⟩⟩

theorem forall₂_flip {α β : Type} {R S : α → β → Prop} {xs : List α} {ys : List β}
    (h : List.Forall₂ R xs ys) (hrs : ∀ x ∈ xs, ∀ y, R x y → S x y) :
    List.Forall₂ (fun y x => S x y) ys xs := by
  induction h with
  | nil => exact .nil
  | cons hxy _ ih =>
    obtain ⟨hx, hrs⟩ := List.forall_mem_cons.mp hrs
    exact .cons (hx _ hxy) (ih hrs)

/-- There are bindings for every match. -/
theorem exists_bindings (h : matchesPattern k p e = .ok true) : ∃ b, getBindings k p e = .ok b := by
  induction p using pattern_induction generalizing e with
  | nil => exact ⟨[], rfl⟩
  | symbol s => exact ⟨_, by rw [getBindings]⟩
  | datum n => exact ⟨[], rfl⟩
  | ellipsis ph pt ih₁ ih₂ =>
    obtain ⟨xs, et, hsplit, hall, htail⟩ := matches_dots h
    obtain ⟨rest, hrest⟩ := ih₂ htail
    have henvs : ∃ envs, xs.mapM (getBindings k ph) = .ok envs := by
      clear hsplit
      induction xs with
      | nil => exact ⟨[], rfl⟩
      | cons x xs ih =>
        obtain ⟨hx, hall⟩ := List.forall_mem_cons.mp hall
        obtain ⟨bx, hbx⟩ := ih₁ hx
        obtain ⟨envs, henvs⟩ := ih hall
        exact ⟨bx :: envs, mapM_forall₂.mpr (.cons hbx (mapM_forall₂.mp henvs))⟩
    obtain ⟨envs, henvs⟩ := henvs
    refine ⟨.nest (Sexp.ofList .nil (getEllipsisNestings k ph)) envs :: rest, ?_⟩
    rw [getBindings, if_pos rfl, hsplit, ok_bind, map_ofList, henvs, ok_bind, hrest, ok_bind]
  | pair ph pt hpt ih₁ ih₂ =>
    obtain ⟨eh, et, rfl, hh, ht⟩ := matches_pair hpt h
    obtain ⟨first, hfirst⟩ := ih₁ hh
    obtain ⟨rest, hrest⟩ := ih₂ ht
    exact ⟨first ++ rest, by
      rw [getBindings_pair hpt, Sexp.parts]
      dsimp only
      rw [hfirst, ok_bind, hrest, ok_bind]⟩

/-- A computation that returns `a` if `A` holds, and else raises a condition. -/
def ReturnsIf {α : Type} (x : Result α) (A : Prop) (a : α) : Prop :=
  (A → x = .ok a) ∧ (¬ A → ∃ err, x = .error err)

section Returning

variable {α β : Type} {x : Result α} {a : α} {A B : Prop}

theorem ReturnsIf.of_ok (h : x = .ok a) (hA : A) : ReturnsIf x A a :=
  ⟨fun _ => h, fun hnot => absurd hA hnot⟩

theorem ReturnsIf.bind {f : α → Result β} {b : β} (hx : ReturnsIf x A a) (hf : ReturnsIf (f a) B b) :
    ReturnsIf (x >>= f) (A ∧ B) b := by
  by_cases hA : A
  · rw [hx.1 hA, ok_bind, and_iff_right hA]
    exact hf
  · obtain ⟨err, herr⟩ := hx.2 hA
    exact ⟨fun hboth => absurd hboth.1 hA, fun _ => ⟨err, by rw [herr]; rfl⟩⟩

theorem ReturnsIf.map (hx : ReturnsIf x A a) (g : α → β) :
    ReturnsIf (x >>= fun a => .ok (g a)) A (g a) := by
  have h := hx.bind (f := fun a => .ok (g a)) (.of_ok rfl trivial)
  rwa [and_true] at h

/-- Some computations in order, of which those with `P` return. -/
theorem ReturnsIf.mapM {f : α → Result β} {P : β → Prop} {xs : List α} {ys : List β}
    (h : List.Forall₂ (fun x y => ReturnsIf (f x) (P y) y) xs ys) :
    ReturnsIf (xs.mapM f) (∀ y ∈ ys, P y) ys := by
  induction h with
  | nil => exact .of_ok rfl fun y hy => absurd hy List.not_mem_nil
  | cons hxy _ ih =>
    rw [List.forall_mem_cons, List.mapM_cons]
    exact hxy.bind (ih.map _)

end Returning

/-- The environments of a sequence are found under their own nestings only. -/
theorem subEnvsList_own (envs : List (List Binding)) (hpre : ∀ x ∈ vars k 1 ph, x ∉ keyLeaves pre)
    (hb : ∀ x ∈ vars k 1 ph, x ∉ keyLeaves b) (hpost : ∀ x ∈ vars k 1 ph, x ∉ keyLeaves post) :
    subEnvsList (Sexp.ofList .nil (getEllipsisNestings k ph))
      (pre ++ (.nest (Sexp.ofList .nil (getEllipsisNestings k ph)) envs :: b ++ post)) =
      if vars k 0 ph = [] then [] else [envs] := by
  rw [← leaves_head] at hpre hb hpost
  rw [subEnvsList_append, subEnvsList_eq_nil hpre, List.nil_append, List.cons_append, subEnvsList,
    subEnvsList_append, subEnvsList_eq_nil hb, subEnvsList_eq_nil hpost, List.append_nil]
  by_cases hvars : vars k 0 ph = []
  · rw [if_pos hvars, if_neg]
    rw [(containedIn_iff _ 0 _).1, leaves_head, vars_succ, hvars]
    rintro ⟨x, hx, -⟩
    exact absurd hx List.not_mem_nil
  · rw [if_neg hvars, if_pos]
    obtain ⟨x, hx⟩ := List.exists_mem_of_ne_nil _ hvars
    rw [(containedIn_iff _ 0 _).1, leaves_head, vars_succ]
    exact ⟨_, List.mem_map_of_mem hx, List.mem_map_of_mem hx⟩

/-- What `expand-pattern` makes of a pattern that matched, with its bindings somewhere in the
environment. -/
theorem expandPattern_bindings (hmatches : matchesPattern k p e = .ok true)
    (hbindings : getBindings k p e = .ok b) (hnodup : (names k p).Nodup)
    (hpre : ∀ s ∈ boundNames pre, s ∉ names k p)
    (hpost : ∀ x ∈ keyLeaves post, ∀ d, (x.1, d) ∈ vars k 0 p → d < x.2) :
    ReturnsIf (expandPattern k p (pre ++ (b ++ post))) (Instantiable k p e) e := by
  induction p using pattern_induction generalizing e b pre post with
  | nil =>
    have heq : Sexp.nil = e := of_decide_eq_true (Except.ok.inj hmatches)
    subst heq
    exact .of_ok rfl trivial
  | datum n =>
    have heq : Sexp.datum n = e := of_decide_eq_true (Except.ok.inj hmatches)
    subst heq
    exact .of_ok rfl trivial
  | symbol s =>
    refine .of_ok ?_ trivial
    rw [matchesPattern] at hmatches
    rw [getBindings] at hbindings
    rw [expandPattern]
    by_cases hs : s ∈ k
    · rw [if_pos hs, Except.ok.injEq, decide_eq_true_iff] at hmatches
      rw [if_pos hs, hmatches]
    · rw [if_neg hs] at hbindings
      cases hbindings
      have hnames : s ∈ names k (.symbol s) := by
        rw [names, vars, if_neg hs]
        exact List.mem_singleton_self s
      rw [if_neg hs, lookup_append fun hmem => hpre s hmem hnames, List.singleton_append, lookup,
        if_pos rfl]
      rfl
  | pair ph pt hpt ih₁ ih₂ =>
    obtain ⟨eh, et, rfl, hh, ht⟩ := matches_pair hpt hmatches
    rw [getBindings_pair hpt] at hbindings
    obtain ⟨first, hfirst, hbindings⟩ := bind_eq_ok.mp hbindings
    obtain ⟨rest, hrest, hbindings⟩ := bind_eq_ok.mp hbindings
    cases hbindings
    rw [names, vars_pair hpt, List.map_append] at hnodup hpre
    rw [vars_pair hpt] at hpost
    obtain ⟨hnodup₁, hnodup₂, hdisjoint⟩ := List.nodup_append.mp hnodup
    have hdisjoint : ∀ s ∈ names k ph, s ∉ names k pt := fun s hs hs' => hdisjoint s hs s hs' rfl
    have h₁ := @ih₁ eh first pre (rest ++ post) hh hfirst hnodup₁
      (fun s hs hmem => hpre s hs (List.mem_append_left _ hmem)) fun x hx d hd => by
        rw [keyLeaves_append] at hx
        rcases List.mem_append.mp hx with hx | hx
        · -- the variables of the tail are others
          have hmem := (bound_of_getBindings hrest).1 _ (mem_boundNames_of_keyLeaves hx)
          exact absurd hmem (hdisjoint x.1 (List.mem_map.mpr ⟨_, hd, rfl⟩))
        · exact hpost x hx d (List.mem_append_left _ hd)
    have h₂ := @ih₂ et rest (pre ++ first) post ht hrest hnodup₂
      (fun s hs hmem => by
        rw [boundNames_append] at hs
        rcases List.mem_append.mp hs with hs | hs
        · exact hpre s hs (List.mem_append_right _ hmem)
        · exact hdisjoint s ((bound_of_getBindings hfirst).1 s hs) hmem)
      fun x hx d hd => hpost x hx d (List.mem_append_right _ hd)
    rw [← List.append_assoc first rest post] at h₁
    rw [List.append_assoc pre first, ← List.append_assoc first rest post] at h₂
    rw [expandPattern_pair hpt, instantiable_pair hpt]
    exact h₁.bind (h₂.map _)
  | ellipsis ph pt ih₁ ih₂ =>
    obtain ⟨xs, et, hsplit, hall, htail⟩ := matches_dots hmatches
    rw [getBindings, if_pos rfl, hsplit, ok_bind, map_ofList] at hbindings
    obtain ⟨envs, henvs, hbindings⟩ := bind_eq_ok.mp hbindings
    obtain ⟨rest, hrest, hbindings⟩ := bind_eq_ok.mp hbindings
    cases hbindings
    have hunique := fun {s} {d d'} => @depth_unique k (.pair ph (.pair dots pt)) s hnodup d d'
    rw [names, vars_dots, List.map_append, names_vars_one] at hnodup hpre
    rw [vars_dots] at hpost hunique
    obtain ⟨hnodup₁, hnodup₂, hdisjoint⟩ := List.nodup_append.mp hnodup
    have hdisjoint : ∀ s ∈ names k ph, s ∉ names k pt := fun s hs hs' => hdisjoint s hs s hs' rfl
    have hone : ∀ x ∈ vars k 1 ph, x.1 ∈ names k ph := fun x hx => names_vars_one ▸ List.mem_map_of_mem hx
    have hsub := subEnvsList_own (k := k) envs
      (fun x hx hkey => hpre x.1 (mem_boundNames_of_keyLeaves hkey)
        (List.mem_append_left _ (hone x hx)))
      (fun x hx hkey => hdisjoint x.1 (hone x hx)
        ((bound_of_getBindings hrest).1 _ (mem_boundNames_of_keyLeaves hkey)))
      fun x hx hkey => Nat.lt_irrefl _ (hpost x hkey x.2 (List.mem_append_left _ hx))
    have htailExpands := @ih₂ et rest
      (pre ++ [.nest (Sexp.ofList .nil (getEllipsisNestings k ph)) envs]) post htail hrest hnodup₂
      (fun s hs hmem => by
        rw [boundNames_append] at hs
        rcases List.mem_append.mp hs with hs | hs
        · exact hpre s hs (List.mem_append_right _ hmem)
        · rw [boundNames, leaves_head, names_vars_one, boundNames, List.append_nil] at hs
          exact hdisjoint s hs hmem)
      fun x hx d hd => hpost x hx d (List.mem_append_right _ hd)
    rw [List.append_assoc pre, List.singleton_append, ← List.cons_append] at htailExpands
    rw [expandPattern, if_pos rfl, instantiable_dots, ellipsisSubEnvs, hsub]
    generalize hr : pre ++ (.nest (Sexp.ofList .nil (getEllipsisNestings k ph)) envs :: rest ++ post) = r
      at htailExpands ⊢
    by_cases hvars : vars k 0 ph = []
    · rw [if_pos hvars, ok_bind]
      exact ⟨fun hboth => absurd hvars hboth.1, fun _ => ⟨_, rfl⟩⟩
    · rw [if_neg hvars, ok_bind, and_iff_right hvars]
      have hparts : (∀ r', splitAtEllipsis e pt = .ok r' →
          (∀ y ∈ elements r'.1, Instantiable k ph y) ∧ Instantiable k pt r'.2) ↔
          (∀ y ∈ xs, Instantiable k ph y) ∧ Instantiable k pt et := by
        constructor
        · intro hboth
          have hthese := hboth _ hsplit
          rwa [elements_ofList] at hthese
        · intro hboth r' hr'
          rw [hsplit] at hr'
          cases hr'
          rwa [elements_ofList]
      -- in the environment of the whole the variables of the head are one deeper
      have hdeeper : ∀ x ∈ keyLeaves r, ∀ d, (x.1, d) ∈ vars k 0 ph → d < x.2 := by
        intro x hx d hd
        have hname : x.1 ∈ names k ph := List.mem_map.mpr ⟨_, hd, rfl⟩
        have hsucc : (x.1, d + 1) ∈ vars k 1 ph := mem_vars_succ.mpr hd
        rw [← hr, keyLeaves_append, List.cons_append, keyLeaves, leaves_head, keyLeaves_append] at hx
        rcases List.mem_append.mp hx with hx | hx
        · exact absurd (List.mem_append_left _ hname) (hpre x.1 (mem_boundNames_of_keyLeaves hx))
        · rcases List.mem_append.mp hx with hx | hx
          · have heq := hunique (List.mem_append_left _ hsucc) (List.mem_append_left _ hx)
            omega
          · rcases List.mem_append.mp hx with hx | hx
            · exact absurd ((bound_of_getBindings hrest).1 _ (mem_boundNames_of_keyLeaves hx))
                (hdisjoint x.1 hname)
            · exact Nat.lt_of_succ_lt (hpost x hx (d + 1) (List.mem_append_left _ hsucc))
      have hrepeat : ∀ x ∈ xs, ∀ bx, getBindings k ph x = .ok bx →
          ReturnsIf (expandPattern k ph (bx ++ r)) (Instantiable k ph x) x :=
        fun x hx bx hbx => @ih₁ x bx [] r (hall x hx) hbx hnodup₁
          (fun s hs => absurd hs List.not_mem_nil) hdeeper
      have hrepeats := ReturnsIf.mapM (f := fun r1 => expandPattern k ph (r1 ++ r))
        (forall₂_flip (mapM_forall₂.mp henvs) hrepeat)
      rw [hparts, splitAtEllipsis_ok hsplit]
      exact hrepeats.bind (htailExpands.map _)

/-- A pattern without repeated variables as a template for what it matched. -/
theorem expandPattern_getBindings (hnodup : (names k p).Nodup)
    (hmatches : matchesPattern k p e = .ok true) :
    ∃ b, getBindings k p e = .ok b ∧ (expandPattern k p b = .ok e ↔ Instantiable k p e) := by
  obtain ⟨b, hb⟩ := exists_bindings hmatches
  obtain ⟨hok, herror⟩ := @expandPattern_bindings k p e b [] [] hmatches hb hnodup
    (fun s hs => absurd hs List.not_mem_nil) fun x hx => absurd hx List.not_mem_nil
  rw [List.append_nil, List.nil_append] at hok herror
  refine ⟨b, hb, fun heq => ?_, hok⟩
  by_contra hnot
  obtain ⟨err, herr⟩ := herror hnot
  rw [heq] at herr
  cases herr

end RoundTrip

end Idio.Mbe
