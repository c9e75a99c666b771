/-
  Mbe/Clauses.lean --- several sequences under one ellipsis, and the choice of a clause.

  `instantiate` is what the expansion of a template is to be, and `Fits` when an expression has
  the form of a pattern.  `Zips` and `Answers` say of the input when the expansion of a template
  and the match of a pattern come to an end without a condition.
-/
import Idio.Mbe.Expansion

set_option autoImplicit false

namespace Idio.Mbe

/-! ## Zipping -/

/-- The environments of several ellipsis variables, put together one after another. -/
def zipped : List (List (List Binding)) → List (List Binding)
  | [] => []
  | [envs] => envs
  | envs :: l => List.zipWith (· ++ ·) envs (zipped l)

theorem zipped_eq_nil {l : List (List (List Binding))} (h : [] ∈ l) : zipped l = [] := by
  induction l with
  | nil => exact absurd h List.not_mem_nil
  | cons envs l ih =>
    cases l with
    | nil => exact (List.mem_singleton.mp h).symm
    | cons envs' l =>
      rw [zipped]
      · rcases List.mem_cons.mp h with rfl | h
        · rfl
        · rw [ih h, List.zipWith_nil_right]
      · exact nofun

/-- The sequences of the variables under an ellipsis. -/
def sequences (k : List String) (ph : Sexp) (r : List Binding) : List (List (List Binding)) :=
  subEnvsList (Sexp.ofList .nil (getEllipsisNestings k ph)) r

/-- What a template is to be expanded to: under an ellipsis all sequences are zipped. -/
def instantiate (k : List String) : Sexp → List Binding → Result Sexp
  | .pair ph (.pair x pt), r =>
      if x = dots then
        if (sequences k ph r).isEmpty then .error (.paramType "list")
        else do
          let l ← (zipped (sequences k ph r)).mapM fun r1 => instantiate k ph (r1 ++ r)
          let tail ← instantiate k pt r
          .ok (Sexp.ofList tail l)
      else do
        let h ← instantiate k ph r
        let t ← instantiate k (.pair x pt) r
        .ok (.pair h t)
  | .pair ph pt, r => do
      let h ← instantiate k ph r
      let t ← instantiate k pt r
      .ok (.pair h t)
  | .symbol s, r =>
      if s ∈ k then .ok (.symbol s) else .ok ((lookup s r).getD (.symbol s))
  | p, _ => .ok p

/-- Under each ellipsis that comes to be expanded there is one sequence, or one of several is
empty. -/
def Zips (k : List String) : Sexp → List Binding → Prop
  | .pair ph (.pair x pt), r =>
      if x = dots then
        (2 ≤ (sequences k ph r).length → [] ∈ sequences k ph r) ∧
          (∀ r1 ∈ zipped (sequences k ph r), Zips k ph (r1 ++ r)) ∧ Zips k pt r
      else Zips k ph r ∧ Zips k (.pair x pt) r
  | .pair ph pt, r => Zips k ph r ∧ Zips k pt r
  | _, _ => True

section Zipping

variable {k : List String} {p ph pt e : Sexp} {r : List Binding} {rr : List (List Binding)}

theorem instantiate_pair (h : Plain pt) : instantiate k (.pair ph pt) r = (do
    let h ← instantiate k ph r
    let t ← instantiate k pt r
    .ok (.pair h t)) := by
  cases pt with
  | pair x pt => rw [instantiate, if_neg h.ne]
  | nil => rw [instantiate]; exact nofun
  | symbol s => rw [instantiate]; exact nofun
  | datum n => rw [instantiate]; exact nofun

theorem zips_pair (h : Plain pt) : Zips k (.pair ph pt) r ↔ Zips k ph r ∧ Zips k pt r := by
  cases pt with
  | pair x pt => rw [Zips, if_neg h.ne]
  | nil => rw [Zips]; exact nofun
  | symbol s => rw [Zips]; exact nofun
  | datum n => rw [Zips]; exact nofun

/-- `mbe:ellipsis-sub-envs` returns the sequences zipped, where it returns any. -/
theorem ellipsisSubEnvs_some {nestings : Sexp} :
    ellipsisSubEnvs nestings r = .ok (some rr) ↔ subEnvsList nestings r ≠ [] ∧
      (2 ≤ (subEnvsList nestings r).length → [] ∈ subEnvsList nestings r) ∧
      zipped (subEnvsList nestings r) = rr := by
  unfold ellipsisSubEnvs
  cases subEnvsList nestings r with
  | nil => exact iff_of_false nofun fun h => h.1 rfl
  | cons envs l =>
    cases l with
    | nil =>
      constructor
      · intro h
        cases h
        exact ⟨List.cons_ne_nil _ _, fun h => absurd h (Nat.not_succ_le_self 1), rfl⟩
      · rintro ⟨-, -, rfl⟩
        rfl
    | cons envs' l =>
      have hany : (envs :: envs' :: l).any List.isEmpty = true ↔ [] ∈ envs :: envs' :: l := by
        rw [List.any_eq_true]
        exact ⟨fun ⟨x, hx, hnil⟩ => List.isEmpty_iff.mp hnil ▸ hx, fun hnil => ⟨[], hnil, rfl⟩⟩
      dsimp only
      split_ifs with h
      · rw [zipped_eq_nil (hany.mp h)]
        constructor
        · intro heq
          cases heq
          exact ⟨List.cons_ne_nil _ _, fun _ => hany.mp h, rfl⟩
        · rintro ⟨-, -, rfl⟩
          rfl
      · refine iff_of_false nofun fun hboth => h (hany.mpr (hboth.2.1 ?_))
        exact Nat.le_add_left 2 l.length

theorem ellipsisSubEnvs_none {nestings : Sexp} (h : subEnvsList nestings r = []) :
    ellipsisSubEnvs nestings r = .ok none := by
  unfold ellipsisSubEnvs
  rw [h]

theorem mapM_congr {α β : Type} {f g : α → Result β} {xs : List α} (h : ∀ x ∈ xs, f x = g x) :
    xs.mapM f = xs.mapM g := by
  induction xs with
  | nil => rfl
  | cons x xs ih =>
    obtain ⟨hx, hxs⟩ := List.forall_mem_cons.mp h
    rw [List.mapM_cons, List.mapM_cons, hx, ih hxs]

/-- Such a template is expanded as it is to be. -/
theorem expandPattern_eq (h : Zips k p r) : expandPattern k p r = instantiate k p r := by
  induction p using pattern_induction generalizing r with
  | nil => rfl
  | symbol s => rfl
  | datum n => rfl
  | ellipsis ph pt ih₁ ih₂ =>
    rw [Zips, if_pos rfl] at h
    obtain ⟨hseq, hhead, htail⟩ := h
    rw [expandPattern, if_pos rfl, instantiate, if_pos rfl]
    unfold sequences at hseq hhead ⊢
    split_ifs with hnone
    · rw [ellipsisSubEnvs_none (List.isEmpty_iff.mp hnone)]
      rfl
    · have hne := fun heq => hnone (List.isEmpty_iff.mpr heq)
      rw [ellipsisSubEnvs_some.mpr ⟨hne, hseq, rfl⟩, ok_bind]
      dsimp only
      rw [mapM_congr fun r1 hr1 => ih₁ (hhead r1 hr1), ih₂ htail]
  | pair ph pt hpt ih₁ ih₂ =>
    rw [zips_pair hpt] at h
    rw [expandPattern_pair hpt, instantiate_pair hpt, ih₁ h.1, ih₂ h.2]

/-- And only such a template is expanded at all. -/
theorem zips_of_expandPattern (h : expandPattern k p r = .ok e) : Zips k p r := by
  induction p using pattern_induction generalizing r e with
  | nil => trivial
  | symbol s => trivial
  | datum n => trivial
  | ellipsis ph pt ih₁ ih₂ =>
    rw [expandPattern, if_pos rfl] at h
    obtain ⟨rr, hrr, h⟩ := bind_eq_ok.mp h
    cases rr with
    | none => cases h
    | some rr =>
      obtain ⟨-, hseq, rfl⟩ := ellipsisSubEnvs_some.mp hrr
      obtain ⟨l, hl, h⟩ := bind_eq_ok.mp h
      obtain ⟨tail, htail, -⟩ := bind_eq_ok.mp h
      rw [Zips, if_pos rfl]
      refine ⟨hseq, fun r1 hr1 => ?_, ih₂ htail⟩
      obtain ⟨i, hi, rfl⟩ := List.mem_iff_getElem.mp hr1
      have hall := List.forall₂_iff_get.mp (mapM_forall₂.mp hl)
      exact ih₁ (hall.2 i hi (hall.1 ▸ hi))
  | pair ph pt hpt ih₁ ih₂ =>
    rw [expandPattern_pair hpt] at h
    obtain ⟨h', hh', h⟩ := bind_eq_ok.mp h
    obtain ⟨t', ht', -⟩ := bind_eq_ok.mp h
    exact (zips_pair hpt).mpr ⟨ih₁ hh', ih₂ ht'⟩

end Zipping

/-! ## Matching -/

/-- Where an expression is cut for the tail of an ellipsis: if there is none at its end, else in
front of the first element that is the first of the tail. -/
inductive Cut : Sexp → Sexp → Sexp → Sexp → Prop
  | whole (e : Sexp) : Cut e .nil e .nil
  | before {x : Sexp} {xs : List Sexp} (rest t : Sexp) : x ∉ xs →
      Cut (Sexp.ofList (.pair x rest) xs) (.pair x t) (Sexp.ofList .nil xs) (.pair x rest)

/-- The elements of a list are all of a kind. -/
def AllFit (F : Sexp → Prop) : Sexp → Prop
  | .nil => True
  | .pair x t => F x ∧ AllFit F t
  | _ => False

/-- The expression has the form of the pattern. -/
def Fits (k : List String) : Sexp → Sexp → Prop
  | .pair ph (.pair x pt), e =>
      if x = dots then ∃ front rest, Cut e pt front rest ∧ AllFit (Fits k ph) front ∧ Fits k pt rest
      else ∃ h t, e = .pair h t ∧ Fits k ph h ∧ Fits k (.pair x pt) t
  | .pair ph pt, e => ∃ h t, e = .pair h t ∧ Fits k ph h ∧ Fits k pt t
  | .symbol s, e => s ∈ k → e = .symbol s
  | p, e => p = e

/-- The elements of a list satisfy `S`, up to the first that is not of the kind `F`; the list
ends properly, if it is gone through to its end. -/
def Walk (S F : Sexp → Prop) : Sexp → Prop
  | .nil => True
  | .pair x t => S x ∧ (F x → Walk S F t)
  | _ => False

/-- Where the match of the pattern comes to an ellipsis and a list, the list can be cut for the
tail; and where it goes through the front part to its end, that is a proper list.  It comes as far
as what stands before fits. -/
def Answers (k : List String) : Sexp → Sexp → Prop
  | .pair ph (.pair x pt), e =>
      if x = dots then e.isList = true → ∃ front rest, Cut e pt front rest ∧
        Walk (Answers k ph) (Fits k ph) front ∧ (AllFit (Fits k ph) front → Answers k pt rest)
      else ∀ h t, e = .pair h t → Answers k ph h ∧ (Fits k ph h → Answers k (.pair x pt) t)
  | .pair ph pt, e => ∀ h t, e = .pair h t → Answers k ph h ∧ (Fits k ph h → Answers k pt t)
  | _, _ => True

/-- A test that raises a condition unless `A`, and then says whether `F`. -/
def Decides (x : Result Bool) (A F : Prop) : Prop :=
  (A → ∃ b, x = .ok b ∧ (b = true ↔ F)) ∧ (¬ A → ∃ err, x = .error err)

section Matching

variable {k : List String} {p ph pt e tail front rest : Sexp} {x y : Result Bool} {A B F G : Prop}

/-- One test and, if it says yes, another. -/
theorem Decides.and (hx : Decides x A F) (hy : Decides y B G) :
    Decides (do if ← x then y else .ok false) (A ∧ (F → B)) (F ∧ G) := by
  constructor
  · rintro ⟨ha, hfb⟩
    obtain ⟨b, rfl, hb⟩ := hx.1 ha
    cases b with
    | false => exact ⟨false, rfl, iff_of_false Bool.false_ne_true fun h => Bool.false_ne_true (hb.mpr h.1)⟩
    | true =>
      have hf := hb.mp rfl
      obtain ⟨b, rfl, hb⟩ := hy.1 (hfb hf)
      exact ⟨b, rfl, hb.trans (and_iff_right hf).symm⟩
  · intro hnot
    by_cases ha : A
    · obtain ⟨b, rfl, hb⟩ := hx.1 ha
      cases b with
      | false => exact absurd ⟨ha, fun hf => absurd (hb.mpr hf) Bool.false_ne_true⟩ hnot
      | true => exact hy.2 fun hbb => hnot ⟨ha, fun _ => hbb⟩
    · obtain ⟨err, rfl⟩ := hx.2 ha
      exact ⟨err, rfl⟩

theorem Decides.congr {A' F' : Prop} (h : Decides x A F) (ha : A' ↔ A) (hf : F' ↔ F) :
    Decides x A' F' := by
  rwa [Decides, ha, hf]

theorem Decides.of_ok {b : Bool} (h : b = true ↔ F) : Decides (.ok b) True F :=
  ⟨fun _ => ⟨b, rfl, h⟩, fun hnot => absurd trivial hnot⟩

theorem Decides.of_error {err : Fault} : Decides (.error err) False F :=
  ⟨False.elim, fun _ => ⟨err, rfl⟩⟩

/-- `every` -/
theorem every_decides {f : Sexp → Result Bool} {S F : Sexp → Prop}
    (h : ∀ x, Decides (f x) (S x) (F x)) : Decides (e.every f) (Walk S F e) (AllFit F e) := by
  have hloop : ∀ x t, Decides (Sexp.everyLoop f (.pair x t)) (Walk S F (.pair x t))
      (AllFit F (.pair x t)) := by
    intro x t
    induction t generalizing x with
    | nil =>
      rw [Sexp.everyLoop]
      exact (h x).congr (and_iff_left fun _ => trivial) (and_iff_left trivial)
    | symbol s => exact (h x).and .of_error
    | datum n => exact (h x).and .of_error
    | pair y t _ ih => exact (h x).and (ih y)
  cases e with
  | nil => exact .of_ok (iff_of_true rfl trivial)
  | symbol s => exact .of_error
  | datum n => exact .of_error
  | pair x t => exact hloop x t

theorem position_some {x l : Sexp} {i : Nat} (h : position x l = some i) :
    ∃ xs rest, l = Sexp.ofList (.pair x rest) xs ∧ x ∉ xs ∧ xs.length = i := by
  induction l generalizing i with
  | pair y t _ ih =>
    rw [position] at h
    split_ifs at h with hy
    · cases h
      exact ⟨[], t, by rw [hy]; rfl, List.not_mem_nil, rfl⟩
    · obtain ⟨j, hj, rfl⟩ := Option.map_eq_some_iff.mp h
      obtain ⟨xs, rest, rfl, hx, rfl⟩ := ih hj
      exact ⟨y :: xs, rest, rfl, List.not_mem_cons_of_ne_of_not_mem (Ne.symm hy) hx, rfl⟩
  | nil => cases h
  | symbol s => cases h
  | datum n => cases h

theorem position_ofList {x : Sexp} {xs : List Sexp} (h : x ∉ xs) :
    position x (Sexp.ofList (.pair x rest) xs) = some xs.length := by
  induction xs with
  | nil => rw [Sexp.ofList, position, if_pos rfl]; rfl
  | cons y xs ih =>
    rw [List.mem_cons, not_or] at h
    rw [Sexp.ofList, position, if_neg (Ne.symm h.1), ih h.2]
    rfl

theorem withoutNth_ofList (xs : List Sexp) :
    withoutNth (Sexp.ofList rest xs) xs.length = .ok (Sexp.ofList .nil xs, rest) := by
  induction xs with
  | nil =>
    rw [Sexp.ofList, List.length_nil, withoutNth]
    rfl
  | cons x xs ih =>
    rw [Sexp.ofList, List.length_cons, withoutNth, ih]
    rfl

/-- `mbe:split-at-ellipsis` makes this cut. -/
theorem splitAtEllipsis_iff : splitAtEllipsis e tail = .ok (front, rest) ↔ Cut e tail front rest := by
  constructor
  · intro h
    cases tail with
    | nil =>
      cases h
      exact .whole e
    | pair x t =>
      rw [splitAtEllipsis] at h
      cases hpos : position x e with
      | none =>
        rw [hpos] at h
        cases h
      | some i =>
        obtain ⟨xs, rest, rfl, hx, rfl⟩ := position_some hpos
        rw [hpos] at h
        dsimp only at h
        rw [withoutNth_ofList] at h
        cases h
        exact .before rest t hx
    | symbol s => cases h
    | datum n => cases h
  · intro h
    cases h with
    | whole => rfl
    | before rest t hx =>
      rw [splitAtEllipsis, position_ofList hx]
      exact withoutNth_ofList _

theorem Cut.isList (h : Cut e tail front rest) {F : Sexp → Prop} (hf : AllFit F front) :
    e.isList = true := by
  cases h with
  | whole =>
    cases e with
    | nil => rfl
    | pair x t => rfl
    | symbol s => cases hf
    | datum n => cases hf
  | @before x xs rest t hx =>
    cases xs with
    | nil => rfl
    | cons y xs => rfl

/-- `mbe:matches-pattern?` -/
theorem matchesPattern_decides : Decides (matchesPattern k p e) (Answers k p e) (Fits k p e) := by
  induction p using pattern_induction generalizing e with
  | nil => exact .of_ok decide_eq_true_iff
  | datum n => exact .of_ok decide_eq_true_iff
  | symbol s =>
    rw [matchesPattern]
    split_ifs with hs
    · exact .of_ok (decide_eq_true_iff.trans ⟨fun h _ => h, fun h => h hs⟩)
    · exact .of_ok (iff_of_true rfl fun h => absurd h hs)
  | ellipsis ph pt ih₁ ih₂ =>
    rw [matchesPattern, if_pos rfl, Answers, if_pos rfl, Fits, if_pos rfl]
    split_ifs with hlist
    · cases hsplit : splitAtEllipsis e pt with
      | error err =>
        have hno : ∀ front rest, ¬ Cut e pt front rest := fun front rest hcut => by
          rw [splitAtEllipsis_iff.mpr hcut] at hsplit
          cases hsplit
        refine Decides.of_error.congr (iff_false_intro fun h => ?_) Iff.rfl
        obtain ⟨front, rest, hcut, -⟩ := h hlist
        exact hno front rest hcut
      | ok r =>
        have hcut : ∀ front rest, Cut e pt front rest ↔ (front, rest) = r := fun front rest => by
          rw [← splitAtEllipsis_iff, hsplit, Except.ok.injEq, eq_comm]
        obtain ⟨front, rest⟩ := r
        refine ((every_decides fun x => ih₁).and ih₂).congr ?_ ?_
        · simp only [hcut, Prod.mk.injEq, and_assoc, exists_and_left, exists_eq_left]
          exact forall_prop_of_true hlist
        · simp only [hcut, Prod.mk.injEq, and_assoc, exists_and_left, exists_eq_left]
    · refine Decides.of_ok (iff_of_false Bool.false_ne_true ?_) |>.congr
        (iff_true_intro fun h => absurd h hlist) Iff.rfl
      rintro ⟨front, rest, hcut, hfront, -⟩
      exact hlist (hcut.isList hfront)
  | pair ph pt hpt ih₁ ih₂ =>
    have hanswers : Answers k (.pair ph pt) e ↔
        ∀ h t, e = .pair h t → Answers k ph h ∧ (Fits k ph h → Answers k pt t) := by
      cases pt with
      | pair x pt => rw [Answers, if_neg hpt.ne]
      | nil => rw [Answers]; rintro x y ⟨⟩
      | symbol s => rw [Answers]; rintro x y ⟨⟩
      | datum n => rw [Answers]; rintro x y ⟨⟩
    have hfits : Fits k (.pair ph pt) e ↔ ∃ h t, e = .pair h t ∧ Fits k ph h ∧ Fits k pt t := by
      cases pt with
      | pair x pt => rw [Fits, if_neg hpt.ne]
      | nil => rw [Fits]; rintro x y ⟨⟩
      | symbol s => rw [Fits]; rintro x y ⟨⟩
      | datum n => rw [Fits]; rintro x y ⟨⟩
    have hother : (∀ h t, e ≠ .pair h t) →
        Decides (.ok false) (Answers k (.pair ph pt) e) (Fits k (.pair ph pt) e) := by
      intro hne
      refine (Decides.of_ok (iff_of_false Bool.false_ne_true ?_)).congr (hanswers.trans ?_) hfits
      · rintro ⟨h, t, heq, -⟩
        exact hne h t heq
      · exact iff_true_intro fun h t heq => absurd heq (hne h t)
    rw [matchesPattern_pair hpt]
    cases e with
    | pair h t =>
      refine (ih₁.and ih₂).congr (hanswers.trans ?_) (hfits.trans ?_)
      · refine ⟨fun hall => hall h t rfl, fun hboth h' t' heq => ?_⟩
        cases heq
        exact hboth
      · refine ⟨?_, fun hboth => ⟨h, t, rfl, hboth⟩⟩
        rintro ⟨h', t', heq, hboth⟩
        cases heq
        exact hboth
    | nil => exact hother fun h t heq => by cases heq
    | symbol s => exact hother fun h t heq => by cases heq
    | datum n => exact hother fun h t heq => by cases heq

end Matching

/-! ## Clauses -/

/-- The first clause whose pattern matches is found if and only if the patterns before it are
found not to match. -/
theorem findSyntaxClause_iff {k : List String} {form : Sexp} {front back : List (Sexp × Sexp)}
    {clause : Sexp × Sexp} (hfront : ∀ c ∈ front, matchesPattern k c.1 form ≠ .ok true)
    (h : matchesPattern k clause.1 form = .ok true) :
    findSyntaxClause k form (front ++ clause :: back) = .ok (some clause) ↔
      ∀ c ∈ front, matchesPattern k c.1 form = .ok false := by
  induction front with
  | nil =>
    rw [List.nil_append, findSyntaxClause, h]
    exact iff_of_true rfl fun c hc => absurd hc List.not_mem_nil
  | cons c front ih =>
    obtain ⟨hc, hfront⟩ := List.forall_mem_cons.mp hfront
    rw [List.cons_append, findSyntaxClause, List.forall_mem_cons]
    cases hm : matchesPattern k c.1 form with
    | error err => exact iff_of_false nofun fun hboth => by cases hboth.1
    | ok found =>
      cases found with
      | true => exact absurd hm hc
      | false => exact (ih hfront).trans (iff_and_self.mpr fun _ => rfl)

/-- **Macro by example.**  The pattern of a match, with its variables distinct, expands to the
expression that matched if and only if there is a variable under each ellipsis that is expanded; a
template expands to what it is to be, several sequences under one ellipsis zipped, if and only if
one of the several is empty; the first clause whose pattern matches is found if and only if, for
each clause before it, the match comes to an end. -/
theorem macro_by_example (k : List String) :
    (∀ p e, (names k p).Nodup → matchesPattern k p e = .ok true →
      ∃ b, getBindings k p e = .ok b ∧ (expandPattern k p b = .ok e ↔ Instantiable k p e)) ∧
    (∀ p r e, instantiate k p r = .ok e → (expandPattern k p r = .ok e ↔ Zips k p r)) ∧
    ∀ form front clause back, (∀ c ∈ front, matchesPattern k c.1 form ≠ .ok true) →
      matchesPattern k (Prod.fst clause) form = .ok true →
      (findSyntaxClause k form (front ++ clause :: back) = .ok (some clause) ↔
        ∀ c ∈ front, Answers k c.1 form) := by
  refine ⟨fun p e hnodup hmatches => expandPattern_getBindings hnodup hmatches, ?_, ?_⟩
  · intro p r e h
    exact ⟨zips_of_expandPattern, fun hz => (expandPattern_eq hz).trans h⟩
  · intro form front clause back hfront hclause
    rw [findSyntaxClause_iff hfront hclause]
    refine forall₂_congr fun c hc => ?_
    constructor
    · intro hno
      by_contra hnot
      obtain ⟨err, herr⟩ := matchesPattern_decides.2 hnot
      rw [hno] at herr
      cases herr
    · intro h
      obtain ⟨b, hb, -⟩ := matchesPattern_decides.1 h
      cases b with
      | false => exact hb
      | true => exact absurd hb (hfront c hc)

/-- `(a ...)` -/
def repeated (x : Sexp) : Sexp := .pair x (.pair dots .nil)

/-- `(m x ... 5)` -/
def withLast : Sexp := .pair (.symbol "m") (.pair (.symbol "x") (.pair dots (.pair (.datum 5) .nil)))

/-- `((x y) ... z ...)` -/
def twoUnder : Sexp :=
  .pair (.pair (.symbol "x") (.pair (.symbol "y") .nil)) (.pair dots (repeated (.symbol "z")))

/-- No `x`, a `y` and two `z`s. -/
def noX : List Binding :=
  [.nest (.pair (.symbol "x") .nil) [], .nest (.pair (.symbol "y") .nil) [[.var "y" (.datum 1)]],
    .nest (.pair (.symbol "z") .nil) [[.var "z" (.datum 2)], [.var "z" (.datum 3)]]]

/-- A list of numbers, its repetitions, and a clause of which the last element comes too soon. -/
theorem macro_by_example_repeated :
    (∃ b, getBindings [] (repeated (.symbol "x")) (.pair (.datum 1) (.pair (.datum 2) .nil)) = .ok b ∧
      (expandPattern [] (repeated (.symbol "x")) b = .ok (.pair (.datum 1) (.pair (.datum 2) .nil)) ↔
        Instantiable [] (repeated (.symbol "x")) (.pair (.datum 1) (.pair (.datum 2) .nil)))) ∧
    (expandPattern [] twoUnder noX = .ok (.pair (.datum 2) (.pair (.datum 3) .nil)) ↔
      Zips [] twoUnder noX) ∧
    (findSyntaxClause [] (.pair (.symbol "m") (.pair (.datum 5) (.pair (.datum 1) .nil)))
        ([(withLast, .nil)] ++ (repeated (.symbol "m"), .nil) :: []) =
      .ok (some (repeated (.symbol "m"), .nil)) ↔
        ∀ c ∈ [(withLast, Sexp.nil)],
          Answers [] c.1 (.pair (.symbol "m") (.pair (.datum 5) (.pair (.datum 1) .nil)))) := by
  refine ⟨(macro_by_example []).1 _ _ (by decide) rfl, (macro_by_example []).2.1 _ _ _ rfl,
    (macro_by_example []).2.2 _ _ _ _ ?_ rfl⟩
  intro c hc
  rw [List.mem_singleton.mp hc]
  have hno : matchesPattern [] withLast (.pair (.symbol "m") (.pair (.datum 5) (.pair (.datum 1) .nil))) =
      .ok false := rfl
  rw [hno]
  exact fun h => by cases h

/-- `((x y) ...)` -/
def twoEach : Sexp := repeated (.pair (.symbol "x") (.pair (.symbol "y") .nil))

/-- An `x` and a `y`. -/
def oneEach : List Binding :=
  [.nest (.pair (.symbol "x") .nil) [[.var "x" (.datum 1)]],
    .nest (.pair (.symbol "y") .nil) [[.var "y" (.datum 2)]]]

/-- A repetition without variables, two sequences under one ellipsis, and a clause whose pattern
needs an element that is not there. -/
theorem macro_by_example_wrong :
    (matchesPattern [] (repeated (.datum 1)) (.pair (.datum 1) .nil) = .ok true ∧
      ∃ b, getBindings [] (repeated (.datum 1)) (.pair (.datum 1) .nil) = .ok b ∧
        expandPattern [] (repeated (.datum 1)) b ≠ .ok (.pair (.datum 1) .nil)) ∧
    (instantiate [] twoEach oneEach =
        .ok (.pair (.pair (.datum 1) (.pair (.datum 2) .nil)) .nil) ∧
      expandPattern [] twoEach oneEach =
        .error (.variableUnbound "loop" "")) ∧
    (matchesPattern [] (.pair (.symbol "m") .nil) (.pair (.symbol "m") .nil) = .ok true ∧
      findSyntaxClause [] (.pair (.symbol "m") .nil)
          [(withLast, .nil), (.pair (.symbol "m") .nil, .nil)] =
        .error (.paramValue "mbe:split-at-ellipsis" "expr" "not found")) :=
  ⟨⟨rfl, _, rfl, by decide⟩, ⟨rfl, rfl⟩, rfl, rfl⟩

end Idio.Mbe
