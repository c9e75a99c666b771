/-
  Object/Dispatch.lean --- which methods an invocation runs, and in which order.
-/
import Idio.Object.Generic
import Mathlib.Data.List.Lex

set_option autoImplicit false

namespace Idio.Generic

open Srfi95 StableSort Chains

/-! ## The order of specializers -/

/-- The places that specializers have in the precedence lists. -/
def ranks (cpls : List (List Nat)) (specializers : List Nat) : List Nat :=
  List.zipWith (fun cpl c => cpl.idxOf c) cpls specializers

/-- Each specializer stands in its precedence list, as far as there are both. -/
def Applicable : List (List Nat) → List Nat → Prop
  | cpl :: cpls, c :: specializers => c ∈ cpl ∧ Applicable cpls specializers
  | _, _ => True

/-- What two methods are told apart by where there are so many arguments. -/
abbrev told (cpls : List (List Nat)) (specializers : List Nat) : List Nat :=
  specializers.take cpls.length

section Specializers

variable {cpls : List (List Nat)} {s s₁ s₂ cpl : List Nat} {c c₁ c₂ : Nat}

theorem every_iff : every s cpls = true ↔ Applicable cpls s := by
  induction s generalizing cpls with
  | nil => cases cpls <;> exact iff_of_true rfl trivial
  | cons c s ih =>
    cases cpls with
    | nil => exact iff_of_true rfl trivial
    | cons cpl cpls => rw [every, Bool.and_eq_true, isSome_memq, ih, Applicable]

theorem mem_of_memq {l : List Nat} (h : memq c l = some s) : ∀ x ∈ s, x ∈ l := by
  induction l with
  | nil => cases h
  | cons y l ih =>
    rw [memq] at h
    split_ifs at h with hy
    · cases h
      exact fun x hx => hx
    · exact fun x hx => List.mem_cons_of_mem y (ih h x hx)

/-- `memq` finds `c₂` from `c₁` on if and only if it does not stand in front of it. -/
theorem memq_idxOf (hnodup : cpl.Nodup) (h₁ : c₁ ∈ cpl) (h₂ : c₂ ∈ cpl) :
    ∃ l, memq c₁ cpl = some l ∧ ((memq c₂ l).isSome = true ↔ cpl.idxOf c₁ ≤ cpl.idxOf c₂) := by
  induction cpl with
  | nil => exact absurd h₁ List.not_mem_nil
  | cons c cpl ih =>
    obtain ⟨hc, hnodup⟩ := List.nodup_cons.mp hnodup
    by_cases hc₁ : c₁ = c
    · subst hc₁
      refine ⟨c₁ :: cpl, if_pos rfl, ?_⟩
      rw [isSome_memq, List.idxOf_cons_self]
      exact iff_of_true h₂ (Nat.zero_le _)
    · have hmem₁ := List.mem_of_ne_of_mem hc₁ h₁
      rw [List.idxOf_cons_ne _ (Ne.symm hc₁)]
      by_cases hc₂ : c₂ = c
      · obtain ⟨l, hl⟩ := Option.isSome_iff_exists.mp ((isSome_memq c₁ cpl).mpr hmem₁)
        refine ⟨l, (if_neg (Ne.symm hc₁)).trans hl, ?_⟩
        rw [hc₂, isSome_memq, List.idxOf_cons_self]
        exact iff_of_false (fun h => hc (mem_of_memq hl _ h)) (Nat.not_succ_le_zero _)
      · obtain ⟨l, hl, hiff⟩ := ih hnodup hmem₁ (List.mem_of_ne_of_mem hc₂ h₂)
        refine ⟨l, (if_neg (Ne.symm hc₁)).trans hl, ?_⟩
        rw [hiff, List.idxOf_cons_ne _ (Ne.symm hc₂)]
        exact Nat.succ_le_succ_iff.symm

theorem ranks_cons : ranks (cpl :: cpls) (c :: s) = cpl.idxOf c :: ranks cpls s := rfl

theorem told_cons : told (cpl :: cpls) (c :: s) = c :: told cpls s := rfl

/-- Applicable specializers with the same places are the same, as far as there are arguments. -/
theorem Applicable.ranks_inj (h₁ : Applicable cpls s₁) (h₂ : Applicable cpls s₂)
    (hlen : s₁.length = s₂.length) (h : ranks cpls s₁ = ranks cpls s₂) :
    told cpls s₁ = told cpls s₂ := by
  induction cpls generalizing s₁ s₂ with
  | nil => rw [told, told, List.length_nil, List.take_zero, List.take_zero]
  | cons cpl cpls ih =>
    cases s₁ with
    | nil => rw [List.eq_nil_of_length_eq_zero hlen.symm]
    | cons c₁ s₁ =>
      cases s₂ with
      | nil => cases hlen
      | cons c₂ s₂ =>
        rw [ranks_cons, ranks_cons] at h
        obtain ⟨hhead, htail⟩ := List.cons.inj h
        rw [told_cons, told_cons, (List.idxOf_inj h₁.1).mp hhead,
          ih h₁.2 h₂.2 (Nat.succ.inj hlen) htail]

/-- `compute-method-more-specific?` of specializers that are told apart. -/
theorem moreSpecificLoop_ne (hnodup : ∀ cpl ∈ cpls, cpl.Nodup) (h₁ : Applicable cpls s₁)
    (h₂ : Applicable cpls s₂) (hlen : s₁.length = s₂.length) (hne : told cpls s₁ ≠ told cpls s₂) :
    moreSpecificLoop s₁ s₂ cpls = .ok (decide (ranks cpls s₁ < ranks cpls s₂)) := by
  induction cpls generalizing s₁ s₂ with
  | nil => exact absurd (by rw [told, told, List.length_nil, List.take_zero, List.take_zero]) hne
  | cons cpl cpls ih =>
    cases s₁ with
    | nil => exact absurd (by rw [List.eq_nil_of_length_eq_zero hlen.symm]) hne
    | cons c₁ s₁ =>
      cases s₂ with
      | nil => cases hlen
      | cons c₂ s₂ =>
        rw [moreSpecificLoop, ranks_cons, ranks_cons]
        by_cases hcc : c₁ = c₂
        · subst hcc
          rw [if_pos rfl, ih (fun cpl hcpl => hnodup cpl (List.mem_cons_of_mem _ hcpl)) h₁.2 h₂.2
            (Nat.succ.inj hlen) fun heq => hne (by rw [told_cons, told_cons, heq])]
          simp only [List.cons_lt_cons_iff, Nat.lt_irrefl, false_or, true_and]
        · obtain ⟨l, hl, hiff⟩ := memq_idxOf (hnodup cpl List.mem_cons_self) h₁.1 h₂.1
          have hidx : cpl.idxOf c₁ ≠ cpl.idxOf c₂ := fun h => hcc ((List.idxOf_inj h₁.1).mp h)
          rw [if_neg hcc, hl]
          refine congrArg Except.ok (Bool.eq_iff_iff.mpr (hiff.trans ?_))
          rw [decide_eq_true_iff, List.cons_lt_cons_iff]
          exact ⟨fun h => .inl (Nat.lt_of_le_of_ne h hidx), fun h => h.elim Nat.le_of_lt
            fun h => absurd h.1 hidx⟩

/-- The condition that is raised where there are too few arguments to tell two methods apart. -/
def fewerArguments : Fault :=
  .instanceError "compute-method-more-specific?" "fewer arguments than specializers"

/-- Of specializers that are not told apart it raises a condition. -/
theorem moreSpecificLoop_told (hlen : s₁.length = s₂.length) (h : told cpls s₁ = told cpls s₂)
    (hfew : cpls.length < s₁.length) : moreSpecificLoop s₁ s₂ cpls = .error fewerArguments := by
  induction cpls generalizing s₁ s₂ with
  | nil =>
    cases s₁ with
    | nil => cases hfew
    | cons c₁ s₁ =>
      cases s₂ with
      | nil => cases hlen
      | cons c₂ s₂ => rfl
  | cons cpl cpls ih =>
    cases s₁ with
    | nil => cases hfew
    | cons c₁ s₁ =>
      cases s₂ with
      | nil => cases hlen
      | cons c₂ s₂ =>
        rw [told_cons, told_cons] at h
        obtain ⟨hhead, htail⟩ := List.cons.inj h
        rw [moreSpecificLoop, if_pos hhead]
        exact ih (Nat.succ.inj hlen) htail (Nat.lt_of_succ_lt_succ hfew)

/-- Of the same specializers it raises a condition. -/
theorem moreSpecificLoop_self : ∃ e, moreSpecificLoop s s cpls = .error e := by
  induction s generalizing cpls with
  | nil => exact ⟨_, rfl⟩
  | cons c s ih =>
    cases cpls with
    | nil => exact ⟨_, rfl⟩
    | cons cpl cpls =>
      rw [moreSpecificLoop, if_pos rfl]
      exact ih

end Specializers

/-! ## The sort -/

section Sorting

variable {α : Type} {l : List α} {less : α → α → Result Bool}

theorem listMemory_seg (l : List α) (m : Pairs α) :
    Seg (m ++ listMemory m.length l) (if l.isEmpty then none else some m.length)
      ((l.zipIdx m.length).map fun p => (p.2, .plain p.1)) none := by
  induction l generalizing m with
  | nil => rfl
  | cons x l ih =>
    have hrest := ih (m ++ [⟨.plain x, if l.isEmpty then none else some (m.length + 1)⟩])
    rw [List.length_append, List.length_singleton, List.append_assoc, List.singleton_append] at hrest
    refine ⟨rfl, _, ?_, hrest⟩
    rw [List.getElem?_append_right (Nat.le_refl _), Nat.sub_self]
    rfl

theorem listMemory_isList (l : List α) :
    IsList (listMemory 0 l) (if l.isEmpty then none else some 0)
      ((l.zipIdx 0).map fun p => (p.2, .plain p.1)) l where
  seg := listMemory_seg l []
  nodup := by
    rw [places, List.map_map]
    change ((l.zipIdx 0).map Prod.snd).Nodup
    rw [List.zipIdx_map_snd]
    exact List.nodup_range'
  elements := by
    rw [List.map_map]
    change (l.zipIdx 0).map (Element.plain ∘ Prod.fst) = _
    rw [← List.map_map, List.zipIdx_map_fst]

theorem readList_spec {m : Pairs α} {p : Option Nat} {cs : List (Nat × Element α)} {fuel : Nat}
    (hseg : Seg m p cs none) (hfuel : cs.length ≤ fuel) :
    readList m fuel p = .ok (cs.map Prod.snd) := by
  induction cs generalizing p fuel with
  | nil =>
    cases hseg
    cases fuel with
    | zero => rfl
    | succ fuel => rfl
  | cons c cs ih =>
    obtain ⟨i, e⟩ := c
    obtain ⟨rfl, t, hget, hseg⟩ := hseg
    cases fuel with
    | zero => exact absurd hfuel (Nat.not_succ_le_zero _)
    | succ fuel =>
      rw [readList, if_neg nofun, ph_get hget, ok_bind, pt_get hget, ok_bind,
        ih hseg (Nat.le_of_succ_le_succ hfuel)]
      rfl

/-- The sort of elements of which two cannot be compared. -/
theorem sort_error {e : Fault} {x y : α} (hnodup : l.Nodup) (hx : x ∈ l) (hy : y ∈ l) (hxy : x ≠ y)
    (herror : less x y = .error e) (herror' : less y x = .error e)
    (hall : ∀ x ∈ l, ∀ y ∈ l, x ≠ y → ∀ e', less x y = .error e' → e' = e) :
    sort less l = .error e := by
  have hsome : (raised less l).isSome := by
    have hpair : ∀ i j : Nat, i < j → ∀ a b, l[i]? = some a → l[j]? = some b → less a b = .error e →
        (raised less l).isSome := by
      intro i j hij a b ha hb hless
      rw [raised, List.findSome?_isSome_iff]
      refine ⟨i, List.mem_range.mpr (List.getElem?_eq_some_iff.mp ha).1, ?_⟩
      rw [ha, Option.bind_some, List.findSome?_isSome_iff]
      refine ⟨b, List.mem_of_getElem? (i := j - (i + 1)) ?_, by rw [hless]; rfl⟩
      rw [List.getElem?_drop, Nat.add_sub_cancel' (Nat.succ_le_of_lt hij), hb]
    obtain ⟨i, hi⟩ := List.mem_iff_getElem?.mp hx
    obtain ⟨j, hj⟩ := List.mem_iff_getElem?.mp hy
    rcases Nat.lt_trichotomy i j with hlt | rfl | hlt
    · exact hpair i j hlt x y hi hj herror
    · exact absurd (Option.some.inj (hi.symm.trans hj)) hxy
    · exact hpair j i hlt y x hj hi herror'
  obtain ⟨e', he'⟩ := Option.isSome_iff_exists.mp hsome
  have heq : e' = e := by
    obtain ⟨i, hi, h⟩ := List.exists_of_findSome?_eq_some he'
    have hi := List.mem_range.mp hi
    rw [List.getElem?_eq_getElem hi, Option.bind_some] at h
    obtain ⟨b, hb, h⟩ := List.exists_of_findSome?_eq_some h
    have hdrop := hnodup.sublist (List.drop_sublist i l)
    rw [List.drop_eq_getElem_cons hi, List.nodup_cons] at hdrop
    refine hall _ (List.getElem_mem hi) b (List.mem_of_mem_drop hb) (fun h => hdrop.1 (h ▸ hb)) e' ?_
    cases hless : less l[i] b with
    | ok c =>
      rw [hless] at h
      cases h
    | error e'' =>
      rw [hless] at h
      rw [Option.some.inj h]
  rw [sort, he', heq]

/-- The sort of elements that `less?` compares by their ranks. -/
theorem sort_spec {rank : α → List Nat} (hnodup : l.Nodup)
    (hless : ∀ x ∈ l, ∀ y ∈ l, x ≠ y → less x y = .ok (decide (rank x < rank y)))
    (hself : ∀ x, ∃ e, less x x = .error e) (hinj : ∀ x ∈ l, ∀ y ∈ l, rank x = rank y → x = y) :
    ∃ r, sort less l = .ok r ∧ r.Perm l ∧ r.Pairwise fun x y => rank x < rank y := by
  let pr : Srfi95.Procedures {x // x ∈ l} := ⟨fun x y => lessOf less x.1 y.1, none⟩
  have hpr : ∀ x y, pr.less x y = true ↔ rank x.1 < rank y.1 := fun x y => by
    change lessOf less x.1 y.1 = true ↔ _
    by_cases hxy : x.1 = y.1
    · obtain ⟨e, he⟩ := hself x.1
      rw [← hxy, lessOf, he]
      exact iff_of_false Bool.false_ne_true (lt_irrefl _)
    · rw [lessOf, hless x.1 x.2 y.1 y.2 hxy]
      exact decide_eq_true_iff
  have horder : IsStrictWeakOrder {x // x ∈ l} fun x y => pr.less x y = true := {
    irrefl := fun x h => lt_irrefl _ ((hpr x x).mp h)
    trans := fun x y z hxy hyz => (hpr x z).mpr (lt_trans ((hpr x y).mp hxy) ((hpr y z).mp hyz))
    incomp_trans := fun x y z hxy hyz => by
      simp only [hpr, not_lt] at hxy hyz ⊢
      exact ⟨le_trans hyz.1 hxy.1, le_trans hxy.2 hyz.2⟩ }
  obtain ⟨p, m', cs', l', hrun, hlist, hsorts, -⟩ := @sortList_spec _ pr _ _ _ _ horder
    (listMemory_isList l.attach)
  refine ⟨l'.map Subtype.val, ?_, ?_, ?_⟩
  · have hnone : raised less l = none := by
      refine List.findSome?_eq_none_iff.mpr fun i hi => ?_
      have hi := List.mem_range.mp hi
      rw [List.getElem?_eq_getElem hi, Option.bind_some]
      refine List.findSome?_eq_none_iff.mpr fun y hy => ?_
      have hdrop := hnodup.sublist (List.drop_sublist i l)
      rw [List.drop_eq_getElem_cons hi, List.nodup_cons] at hdrop
      rw [hless _ (List.getElem_mem hi) y (List.mem_of_mem_drop hy) fun h => hdrop.1 (h ▸ hy)]
    rw [sort, hnone]
    dsimp only
    rw [hrun, ok_bind, readList_spec hlist.seg (hlist.seg.length_le hlist.nodup), ok_bind,
      hlist.elements, List.map_map]
    rfl
  · have hperm := hsorts.perm.map Subtype.val
    rwa [List.attach_map_subtype_val] at hperm
  · rw [List.pairwise_map]
    have hl' : l'.Nodup := hsorts.perm.nodup_iff.mpr (List.nodup_attach.mpr hnodup)
    refine (hsorts.sorted.and hl').imp fun {x y} h => ?_
    have hle : rank x.1 ≤ rank y.1 := not_lt.mp fun hlt => leOf_iff.mp h.1 ((hpr y x).mpr hlt)
    exact lt_of_le_of_ne hle fun heq => h.2 (Subtype.ext (hinj x.1 x.2 y.1 y.2 heq))

end Sorting

/-! ## Invocations -/

section Invocations

variable {V C : Type} {g : ClassGraph} {classOf : V → Nat} {ms ms' methods : List (Method V C)}
  {raise : Fault → C} {args : List V} {L L' : List (Method V C)} {n : Nat}

/-- The precedence lists of the classes of the arguments. -/
def argCpls (g : ClassGraph) (classOf : V → Nat) (args : List V) : List (List Nat) :=
  args.map fun arg => g.classCpl (classOf arg)

/-- `L` are the methods an invocation with these arguments runs: of each list of specializers
the method that was added last, where the specializers stand in the precedence lists of the
arguments at their places, the most specific ones first. -/
structure InOrder (g : ClassGraph) (classOf : V → Nat) (ms : List (Method V C)) (args : List V)
    (L : List (Method V C)) : Prop where
  mem : ∀ m, m ∈ L ↔ Latest ms m ∧ Applicable (argCpls g classOf args) m.specializers
  sorted : L.Pairwise fun m₁ m₂ =>
    ranks (argCpls g classOf args) m₁.specializers < ranks (argCpls g classOf args) m₂.specializers

/-- No two applicable methods have the same specializers as far as there are arguments. -/
def Distinct (g : ClassGraph) (classOf : V → Nat) (ms : List (Method V C)) (args : List V) : Prop :=
  ∀ m m', Latest ms m → Latest ms m' → Applicable (argCpls g classOf args) m.specializers →
    Applicable (argCpls g classOf args) m'.specializers →
    told (argCpls g classOf args) m.specializers = told (argCpls g classOf args) m'.specializers →
    m = m'

theorem InOrder.nodup (h : InOrder g classOf ms args L) : L.Nodup :=
  h.sorted.imp fun {m m'} hlt heq => by
    rw [heq] at hlt
    exact lt_irrefl _ hlt

/-- There is one such list. -/
theorem InOrder.unique (h : InOrder g classOf ms args L) (h' : InOrder g classOf ms' args L')
    (hlatest : ∀ m, Latest ms m ↔ Latest ms' m) : L = L' := by
  have hperm : L.Perm L' := (List.perm_ext_iff_of_nodup h.nodup h'.nodup).mpr fun m => by
    rw [h.mem, h'.mem, hlatest]
  exact hperm.eq_of_pairwise (fun a b _ _ hab hba => absurd hba (lt_asymm hab)) h.sorted h'.sorted

/-- The first method is called, with the call of the next for `next-method`. -/
def chain (raise : Fault → C) (args : List V) (L : List (Method V C)) : C :=
  L.foldr (fun m next => m.procedure next args)
    (raise (.instanceError "compute-apply-methods" "no applicable methods/next methods"))

theorem oneStep_eq (raise : Fault → C) (args : List V) (L : List (Method V C)) :
    oneStep raise args L = chain raise args L := by
  induction L with
  | nil => rfl
  | cons m L ih =>
    rw [oneStep, ih]
    rfl

theorem length_argCpls (args : List V) : (argCpls g classOf args).length = args.length :=
  List.length_map _

/-- The latest method with its specializers is one. -/
theorem Table.latest_inj (h : Table ms methods) {m m' : Method V C} (hm : Latest ms m)
    (hm' : Latest ms m') (hspec : m.specializers = m'.specializers) : m = m' :=
  List.inj_on_of_nodup_map h.nodup ((h.mem m).mpr hm) ((h.mem m').mpr hm') hspec

/-- With as many arguments as specializers, or more, methods are told apart. -/
theorem Table.distinct (h : Table ms methods) (hlen : ∀ m ∈ ms, m.specializers.length = n)
    (hargs : n ≤ args.length) : Distinct g classOf ms args := by
  intro m m' hm hm' _ _ htold
  have hall : ∀ m ∈ ms, told (argCpls g classOf args) m.specializers = m.specializers := by
    intro m hm
    refine List.take_of_length_le ?_
    rw [hlen m hm, length_argCpls]
    exact hargs
  rw [hall m hm.mem, hall m' hm'.mem] at htold
  exact h.latest_inj hm hm' htold

/-- `compute-methods` -/
theorem computeMethods_spec (hg : g.Sound) (htable : Table ms methods)
    (hlen : ∀ m ∈ ms, m.specializers.length = n) :
    (Distinct g classOf ms args → ∃ L, computeMethods methods (argCpls g classOf args) = .ok L ∧
        InOrder g classOf ms args L) ∧
      (¬ Distinct g classOf ms args →
        computeMethods methods (argCpls g classOf args) = .error fewerArguments) := by
  have hnodups : ∀ cpl ∈ argCpls g classOf args, cpl.Nodup := fun cpl hcpl => by
    obtain ⟨arg, -, rfl⟩ := List.mem_map.mp hcpl
    exact hg.nodup _
  have hmem : ∀ m, m ∈ methods.filter (fun m => every m.specializers (argCpls g classOf args)) ↔
      Latest ms m ∧ Applicable (argCpls g classOf args) m.specializers := fun m => by
    rw [List.mem_filter, htable.mem]
    exact and_congr_right fun _ => every_iff
  have hlens : ∀ {m m'}, Latest ms m → Latest ms m' → m.specializers.length = m'.specializers.length :=
    fun hm hm' => (hlen _ hm.mem).trans (hlen _ hm'.mem).symm
  rw [computeMethods]
  generalize hfilter : methods.filter (fun m => every m.specializers (argCpls g classOf args)) =
    applicable at hmem
  have hspecs : (applicable.map Method.specializers).Nodup :=
    htable.nodup.sublist ((hfilter ▸ List.filter_sublist).map _)
  constructor
  · intro hdistinct
    split_ifs with hmany
    · let rank (m : Method V C) := ranks (argCpls g classOf args) m.specializers
      obtain ⟨r, hrun, hperm, hsorted⟩ := @sort_spec _ _ _ rank hspecs.of_map
        (fun x hx y hy hxy => by
          obtain ⟨hxl, hxa⟩ := (hmem x).mp hx
          obtain ⟨hyl, hya⟩ := (hmem y).mp hy
          exact moreSpecificLoop_ne hnodups hxa hya (hlens hxl hyl) fun h =>
            hxy (hdistinct x y hxl hyl hxa hya h))
        (fun x => moreSpecificLoop_self)
        (fun x hx y hy h => by
          obtain ⟨hxl, hxa⟩ := (hmem x).mp hx
          obtain ⟨hyl, hya⟩ := (hmem y).mp hy
          exact hdistinct x y hxl hyl hxa hya (hxa.ranks_inj hya (hlens hxl hyl) h))
      exact ⟨r, hrun, fun m => by rw [hperm.mem_iff, hmem], hsorted⟩
    · refine ⟨applicable, rfl, hmem, ?_⟩
      cases applicable with
      | nil => exact .nil
      | cons m applicable =>
        cases applicable with
        | nil => exact List.pairwise_singleton _ _
        | cons m' applicable => exact absurd (Nat.le_add_left 2 _) hmany
  · intro hnot
    have htwo : ∃ m m', (Latest ms m ∧ Applicable (argCpls g classOf args) m.specializers) ∧
        (Latest ms m' ∧ Applicable (argCpls g classOf args) m'.specializers) ∧
        told (argCpls g classOf args) m.specializers =
          told (argCpls g classOf args) m'.specializers ∧ m ≠ m' := by
      by_contra hno
      refine hnot fun m m' hm hm' ha ha' htold => ?_
      by_contra hne
      exact hno ⟨m, m', ⟨hm, ha⟩, ⟨hm', ha'⟩, htold, hne⟩
    obtain ⟨m, m', hm, hm', htold, hne⟩ := htwo
    have hfew : (argCpls g classOf args).length < n := by
      rw [length_argCpls]
      by_contra hge
      exact hnot (htable.distinct hlen (Nat.not_lt.mp hge))
    have hin := (hmem m).mpr hm
    have hin' := (hmem m').mpr hm'
    have hmany : applicable.length > 1 := by
      by_contra hle
      cases applicable with
      | nil => cases hin
      | cons x applicable =>
        cases applicable with
        | nil => exact hne ((List.mem_singleton.mp hin).trans (List.mem_singleton.mp hin').symm)
        | cons y applicable => exact hle (Nat.le_add_left 2 _)
    rw [if_pos hmany]
    refine sort_error hspecs.of_map hin hin' hne
      (moreSpecificLoop_told (hlens hm.1 hm'.1) htold (by rw [hlen m hm.1.mem]; exact hfew))
      (moreSpecificLoop_told (hlens hm'.1 hm.1) htold.symm (by rw [hlen m' hm'.1.mem]; exact hfew))
      fun x hx y hy hxy e he => ?_
    obtain ⟨hxl, hxa⟩ := (hmem x).mp hx
    obtain ⟨hyl, hya⟩ := (hmem y).mp hy
    by_cases hsame : told (argCpls g classOf args) x.specializers =
        told (argCpls g classOf args) y.specializers
    · rw [moreSpecificLoop_told (hlens hxl hyl) hsame (by rw [hlen x hxl.mem]; exact hfew)] at he
      exact (Except.error.inj he).symm
    · rw [moreSpecificLoop_ne hnodups hxa hya (hlens hxl hyl) hsame] at he
      cases he

variable {base : Bool} {isBase : V → Bool}

theorem applyGeneric_eq (hboth : bothBase base isBase args = false) (hsome : base = true → args ≠ []) :
    applyGeneric raise g classOf base isBase methods args =
      match computeMethods methods (argCpls g classOf args) with
      | .ok ms => oneStep raise args ms
      | .error e => raise e := by
  have hempty : (base && args.isEmpty) = false := by
    cases base with
    | false => rfl
    | true =>
      rw [Bool.true_and, List.isEmpty_eq_false_iff]
      exact hsome rfl
  rw [applyGeneric, hempty, if_neg Bool.false_ne_true, hboth, if_neg Bool.false_ne_true]
  rfl

/-- The invocations of a generic function to which `ms` were added, all with `n` specializers. -/
structure Invokes (raise : Fault → C) (g : ClassGraph) (classOf : V → Nat) (n : Nat)
    (ms methods : List (Method V C)) : Prop where
  /-- The methods run in the order of their specializers, where the arguments tell them apart. -/
  chain : ∀ base isBase args, bothBase base isBase args = false → (base = true → args ≠ []) →
    Distinct g classOf ms args → ∃ L, InOrder g classOf ms args L ∧
      applyGeneric raise g classOf base isBase methods args = chain raise args L
  /-- Else a condition is raised. -/
  tied : ∀ base isBase args, bothBase base isBase args = false → (base = true → args ≠ []) →
    ¬ Distinct g classOf ms args →
      applyGeneric raise g classOf base isBase methods args = raise fewerArguments
  /-- As many arguments as specializers tell them apart. -/
  enough : ∀ args, n ≤ args.length → Distinct g classOf ms args
  /-- A generic function of the protocol that is invoked on another calls the method for the
  specializers that were the first to be added; it has no next method. -/
  protocol : ∀ base isBase args, bothBase base isBase args = true → ∀ first rest, ms = first :: rest →
    ∃ m, Latest ms m ∧ m.specializers = first.specializers ∧
      applyGeneric raise g classOf base isBase methods args =
        m.procedure (raise (.functionError "cannot invoke constant type")) args

theorem Table.invokes (hg : g.Sound) (h : Table ms methods)
    (hlen : ∀ m ∈ ms, m.specializers.length = n) : Invokes raise g classOf n ms methods where
  chain base isBase args hboth hsome hdistinct := by
    obtain ⟨L, hrun, hL⟩ := (@computeMethods_spec _ _ g classOf _ _ args _ hg h hlen).1 hdistinct
    refine ⟨L, hL, ?_⟩
    rw [applyGeneric_eq hboth hsome, hrun]
    exact oneStep_eq raise args L
  tied base isBase args hboth hsome hnot := by
    have hrun := (@computeMethods_spec _ _ g classOf _ _ args _ hg h hlen).2 hnot
    rw [applyGeneric_eq hboth hsome, hrun]
  enough args hargs := h.distinct hlen hargs
  protocol base isBase args hboth first rest hms := by
    have hlast := h.last
    rw [hms, List.map_cons, List.head?_cons, List.getLast?_map, Option.map_eq_some_iff] at hlast
    obtain ⟨m, hm, hspec⟩ := hlast
    refine ⟨m, (h.mem m).mp (List.mem_of_getLast? hm), hspec, ?_⟩
    have hempty : (base && args.isEmpty) = false := by
      cases args with
      | nil => cases base <;> cases hboth
      | cons arg args => exact Bool.and_false base
    rw [applyGeneric, hempty, if_neg Bool.false_ne_true, if_pos hboth, hm]

/-- **Dispatch.**  Where `equal?` tells apart the different classes that stand at one place of
the specializers, the calls of `add-method!` end and an invocation runs the applicable methods
in the order of their specializers; the order of the calls does not matter for methods of
different specializers, and a method is replaced only by one with the same classes. -/
theorem dispatch {D : Type} [DecidableEq D] (hg : g.Built) (metaOf : Nat → Nat)
    (directSlots : Nat → D) (raise : Fault → C) (classOf : V → Nat)
    (hlen : ∀ m ∈ ms, m.specializers.length = n)
    (happart : ∀ m ∈ ms, ∀ m' ∈ ms, ∀ p ∈ m.specializers.zip m'.specializers, p.1 ≠ p.2 →
      TellsApart g metaOf directSlots p.1 p.2) :
    (∃ least, ∀ fuel, least ≤ fuel → ∃ methods,
      addMethods (equalList (equalClass g metaOf directSlots fuel)) [] ms = .ok methods ∧
      Invokes raise g classOf n ms methods ∧
      ((ms.map Method.specializers).Nodup → ∀ ms', ms'.Perm ms → ∃ methods',
        addMethods (equalList (equalClass g metaOf directSlots fuel)) [] ms' = .ok methods' ∧
        Invokes raise g classOf n ms' methods' ∧
        ∀ base isBase args, bothBase base isBase args = false → (base = true → args ≠ []) →
          applyGeneric raise g classOf base isBase methods' args =
            applyGeneric raise g classOf base isBase methods args)) ∧
      ∀ fuel (methods : List (Method V C)) m methods',
        computeNewMethods (equalList (equalClass g metaOf directSlots fuel)) methods m = .ok methods' →
        (∀ m' ∈ m :: methods, ∀ c ∈ m'.specializers, c < g.insts.length) →
        ∀ m' ∈ methods, m' ∉ methods' → m'.specializers = m.specializers := by
  have hsound := hg.sound
  constructor
  · obtain ⟨least, hleast⟩ := exists_forall_mem
      (P := fun fuel m => ∀ m' ∈ ms, ∀ p ∈ m.specializers.zip m'.specializers, p.1 ≠ p.2 →
        equalClass g metaOf directSlots fuel p.1 p.2 = .ok false) ms fun m hm =>
      exists_forall_mem ms fun m' hm' => exists_forall_mem _ fun p hp => by
        by_cases hne : p.1 = p.2
        · exact ⟨0, fun k _ h => absurd hne h⟩
        · obtain ⟨least, hleast⟩ := happart m hm m' hm' p hp hne
          exact ⟨least, fun k hk _ => hleast k hk⟩
    refine ⟨least + 1, fun fuel hfuel => ?_⟩
    have hequal : ∀ m ∈ ms, ∀ m' ∈ ms,
        equalList (equalClass g metaOf directSlots fuel) m.specializers m'.specializers =
          .ok (decide (m.specializers = m'.specializers)) := fun m hm m' hm' =>
      equalList_spec (fun c => equalClass_self (Nat.lt_of_lt_of_le (Nat.succ_pos _) hfuel))
        (hleast fuel (Nat.le_of_succ_le hfuel) m hm m' hm')
    obtain ⟨methods, hrun, htable⟩ := table_nil.addMethods hequal
    have hinvokes : Invokes raise g classOf n ms methods := htable.invokes hsound hlen
    refine ⟨methods, hrun, hinvokes, fun hnodup ms' hperm => ?_⟩
    obtain ⟨methods', hrun', htable'⟩ := table_nil.addMethods
      fun m hm m' hm' => hequal m (hperm.subset hm) m' (hperm.subset hm')
    have hinvokes' : Invokes raise g classOf n ms' methods' :=
      htable'.invokes hsound fun m hm => hlen m (hperm.subset hm)
    refine ⟨methods', hrun', hinvokes', fun base isBase args hboth hsome => ?_⟩
    have hnodup' : (ms'.map Method.specializers).Nodup :=
      (hperm.map Method.specializers).nodup_iff.mpr hnodup
    have hlatest : ∀ m, Latest ms' m ↔ Latest ms m := fun m => by
      rw [latest_iff_mem hnodup, latest_iff_mem hnodup', hperm.mem_iff]
    have hdistinct : Distinct g classOf ms' args ↔ Distinct g classOf ms args := by
      simp only [Distinct, hlatest]
    by_cases hd : Distinct g classOf ms args
    · obtain ⟨L, hL, heq⟩ := hinvokes.chain base isBase args hboth hsome hd
      obtain ⟨L', hL', heq'⟩ := hinvokes'.chain base isBase args hboth hsome (hdistinct.mpr hd)
      rw [heq, heq', hL'.unique hL hlatest]
    · rw [hinvokes.tied base isBase args hboth hsome hd,
        hinvokes'.tied base isBase args hboth hsome fun h => hd (hdistinct.mp h)]
  · intro fuel methods m methods' hrun hclasses
    obtain ⟨hm, hmethods⟩ := List.forall_mem_cons.mp hclasses
    exact computeNewMethods_replaced hrun fun m' hm' => equalList_eq hsound (hmethods m' hm') hm

end Invocations

/-! ## The methods of compute-apply-generic -/

/-- The number of `<generic>`. -/
def genericInst : Nat := 5

/-- A method for generic functions that calls the next one, and one for all values. -/
def protocolMethods : List (Method Unit (Result Nat)) :=
  [⟨[genericInst], fun next _ => next⟩, ⟨[topInst], fun _ _ => .ok 1⟩]

theorem generic_checked : ∃ g, objectAddPrimitives = .ok g ∧
    g.classCpl genericInst = [genericInst, objectInst, topInst] ∧
    g.className genericInst ≠ g.className topInst := by
  have hchecked : (objectAddPrimitives.toOption.any fun g =>
      decide (g.classCpl genericInst = [genericInst, objectInst, topInst] ∧
        g.className genericInst ≠ g.className topInst)) = true := by
    decide +kernel
  cases hbase : objectAddPrimitives with
  | error e => simp [hbase, Except.toOption] at hchecked
  | ok g =>
    simp only [hbase, Except.toOption, Option.any_some, decide_eq_true_eq] at hchecked
    exact ⟨g, rfl, hchecked⟩

theorem protocolMethods_apart {g : ClassGraph}
    (hname : g.className genericInst ≠ g.className topInst) :
    ∀ m ∈ protocolMethods, ∀ m' ∈ protocolMethods, ∀ p ∈ m.specializers.zip m'.specializers,
      p.1 ≠ p.2 → TellsApart g (fun _ => classInst) (fun _ => ()) p.1 p.2 := by
  intro m hm m' hm' p hp hne
  simp only [protocolMethods, List.mem_cons, List.not_mem_nil, or_false] at hm hm'
  refine tellsApart_of_className rfl ?_
  rcases hm with rfl | rfl <;> rcases hm' with rfl | rfl <;>
    simp only [List.zip_cons_cons, List.zip_nil_left, List.mem_singleton] at hp <;> subst hp
  · exact absurd rfl hne
  · exact hname
  · exact hname.symm
  · exact absurd rfl hne

theorem dispatch_protocolMethods : ∃ g, objectAddPrimitives = .ok g ∧
    ∃ least, ∀ fuel, least ≤ fuel → ∃ methods,
      addMethods (equalList (equalClass g (fun _ => classInst) (fun _ => ()) fuel)) []
        protocolMethods = .ok methods ∧
      Invokes .error g (fun _ => genericInst) 1 protocolMethods methods := by
  obtain ⟨g, hg, -, hname⟩ := generic_checked
  have hlen : ∀ m ∈ protocolMethods, m.specializers.length = 1 := by
    simp [protocolMethods]
  obtain ⟨⟨least, hleast⟩, -⟩ := dispatch (.base hg) (fun _ => classInst) (fun _ => ()) .error
    (fun _ => genericInst) hlen (protocolMethods_apart hname)
  refine ⟨g, hg, least, fun fuel hfuel => ?_⟩
  obtain ⟨methods, hrun, hinvokes, -⟩ := hleast fuel hfuel
  exact ⟨methods, hrun, hinvokes⟩

/-- `compute-apply-generic` invoked on a generic function of the protocol calls its method for
generic functions, and there is no method for `next-method` to call.  Invoked without an argument
an ordinary generic function with these methods raises a condition, as nothing tells them apart. -/
theorem protocol_no_next : ∃ g, objectAddPrimitives = .ok g ∧ ∃ methods,
    addMethods (equalList (equalClass g (fun _ => classInst) (fun _ => ()) 2)) []
      protocolMethods = .ok methods ∧
    InOrder g (fun _ => genericInst) protocolMethods [()] protocolMethods ∧
    chain .error [()] protocolMethods = .ok 1 ∧
    applyGeneric .error g (fun _ => genericInst) true (fun _ => true) methods [()] =
      .error (.functionError "cannot invoke constant type") ∧
    applyGeneric .error g (fun _ => genericInst) false (fun _ => false) methods [] =
      .error fewerArguments := by
  obtain ⟨g, hg, hcpl, hname⟩ := generic_checked
  have hnodup : (protocolMethods.map Method.specializers).Nodup := by decide
  have hrun : addMethods (equalList (equalClass g (fun _ => classInst) (fun _ => ()) 2)) []
      protocolMethods = .ok protocolMethods.reverse := by
    have happart : equalClass g (fun _ => classInst) (fun _ => ()) 2 genericInst topInst = .ok false :=
      equalClass_className rfl hname
    simp only [protocolMethods, addMethods, computeNewMethods, computeNewMethodsLoop, equalList,
      ok_bind, happart, Bool.false_eq_true, if_false, Option.map_none, List.reverse_cons,
      List.reverse_nil, List.nil_append, List.singleton_append]
  refine ⟨g, hg, _, hrun, ⟨fun m => ?_, ?_⟩, rfl, rfl, rfl⟩
  · rw [latest_iff_mem hnodup, argCpls, List.map_singleton, hcpl]
    refine ⟨fun hm => ⟨hm, ?_⟩, And.left⟩
    simp only [protocolMethods, List.mem_cons, List.not_mem_nil, or_false] at hm
    rcases hm with rfl | rfl
    · exact ⟨by decide, trivial⟩
    · exact ⟨by decide, trivial⟩
  · rw [argCpls, List.map_singleton, hcpl]
    refine List.pairwise_pair.mpr ?_
    decide

end Idio.Generic
