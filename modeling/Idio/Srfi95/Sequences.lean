/-
  Srfi95/Sequences.lean --- sorting lists and arrays, and whether they are sorted.

  `sort!` of a list links its pairs to the stable sort and then swaps the pair that the
  sort begins with and the one that it was given; where it has to, what it returns is
  `#<unspec>`.  `sort` of a list copies the first pair and sorts the others where they
  are.  Of an array, the elements are sorted as a list, and are then taken for the
  indexes at which their places are stored.

  `sorted?` gets the key of the first element of a list by `(key ph seq)`, which is a
  call with two arguments: what it does, and what `less?` does with its result, is a
  parameter.  Of an array it answers `#t` up to two elements, and from three on asks
  each element to be less than the next.
-/
import Idio.Srfi95.Lists
import Idio.Array.Stack
import Mathlib.Data.List.Chain

set_option autoImplicit false

namespace Idio.Srfi95

open Chains StableSort

/-- What values are to the primitives. -/
structure Values (V : Type) extends Procedures V where
  /-- whether `(key ph seq)` returns -/
  keyPh : Result Unit
  /-- `(less? nxt last)`, `last` being what `(key ph seq)` has returned -/
  lessPh : V → Result Bool
  /-- the index that `array-set!` reads -/
  index : V → Result Int
  integer : Nat → V
  idioCopy : V → V

/-- What `sort!` returns. -/
inductive Returned where
  | list (p : Option Nat)
  | unspec
  deriving DecidableEq, Repr

section Model

variable {V : Type}

/-- The loop of `sort!`, to the pair in front of `seq`. -/
def headLoop : Nat → Pairs V → Option Nat → Option Nat → Option Nat → Result (Pairs V)
  | 0, _, _, _, _ => .error .diverges
  | fuel + 1, m, crt, ret, seq => do
      let t ← pt m crt
      if t = seq then do
        let m ← setPt m crt ret
        let sph ← ph m seq
        let spt ← pt m seq
        let m ← setPh m seq (← ph m ret)
        let m ← setPt m seq (← pt m ret)
        let m ← setPh m ret sph
        setPt m ret spt
      else headLoop fuel m t ret seq

/-- `sort!` of a list -/
def sortBangList (pr : Procedures V) (m : Pairs V) (seq : Option Nat) : Result (Returned × Pairs V) := do
  let (ret, m) ← sortSortList pr m seq
  if ret ≠ seq then do
    let m ← headLoop (m.length + 1) m ret ret seq
    return (.unspec, m)
  else return (.list seq, m)

/-- `copy-value` of a list, `'shallow` -/
def copyShallow (m : Pairs V) (p : Option Nat) : Result (Option Nat × Pairs V) :=
  if p = none then .ok (none, m)
  else do
    let h ← ph m p
    let t ← pt m p
    return pair m h t

/-- `sort` of a list -/
def sortList (pr : Procedures V) (m : Pairs V) (seq : Option Nat) : Result (Option Nat × Pairs V) := do
  let (copy, m) ← copyShallow m seq
  sortSortList pr m copy

/-- The loop of `sorted?` on a list. -/
def sortedListLoop (pr : Procedures V) (m : Pairs V) : Nat → (V → Result Bool) → Option Nat → Result Bool
  | 0, _, _ => .error .diverges
  | fuel + 1, lessLast, next =>
      if next = none then .ok true
      else do
        let e ← ph m next
        let nxt := pr.keyOf e.value
        if ← lessLast nxt then return false
        else sortedListLoop pr m fuel (fun k => .ok (pr.less k nxt)) (← pt m next)

/-- `sorted?` of a list -/
def sortedList (vs : Values V) (m : Pairs V) (seq : Option Nat) : Result Bool :=
  if seq = none then .ok true
  else do
    let t ← pt m seq
    if t = none then return true
    else do
      vs.keyPh
      sortedListLoop vs.toProcedures m (m.length + 1) vs.lessPh t

/-- `array-ref` -/
def arrayRef (a : IdioArray V) (idx : Int) : Result V :=
  match IdioArray.refIndex idx a with
  | .ok v _ => .ok v
  | .error e _ => .error e

/-- The loop of `rank-1-array->list`, from the index `n - 1` down. -/
def arrayListLoop (a : IdioArray V) : Nat → Pairs V → Option Nat → Result (Option Nat × Pairs V)
  | 0, m, lst => .ok (lst, m)
  | n + 1, m, lst => do
      let v ← arrayRef a n
      let (lst, m) := pair m (.plain v) lst
      arrayListLoop a n m lst

/-- `rank-1-array->list` -/
def arrayToList (a : IdioArray V) (m : Pairs V) : Result (Option Nat × Pairs V) :=
  arrayListLoop a a.usize m none

/-- `array-set! a v i`: the element is the index. -/
def arrayStore (vs : Values V) (a : IdioArray V) (e : Element V) (i : Nat) : Result (IdioArray V) :=
  match e with
  | .plain v => do
      let index ← vs.index v
      match IdioArray.arraySet index (vs.integer i) a with
      | .ok _ a => .ok a
      | .error e _ => .error e
  | .wrapped _ _ => .error (.paramType "integer")

/-- The loop of `sort!` and `sort` on arrays. -/
def storeLoop (vs : Values V) (m : Pairs V) : Nat → IdioArray V → Option Nat → Nat → Result (IdioArray V)
  | 0, _, _, _ => .error .diverges
  | fuel + 1, a, sorted, i =>
      if sorted = none then .ok a
      else do
        let a ← arrayStore vs a (← ph m sorted) i
        storeLoop vs m fuel a (← pt m sorted) (i + 1)

/-- The elements of the array are sorted and stored into `into`. -/
def sortInto (vs : Values V) (m : Pairs V) (a into : IdioArray V) : Result (IdioArray V) := do
  let (lst, m) ← arrayToList a m
  let (sorted, m) ← sortSortList vs.toProcedures m lst
  storeLoop vs m (m.length + 1) into sorted 0

/-- `sort!` of an array, which it returns -/
def sortBangArray (vs : Values V) (m : Pairs V) (a : IdioArray V) : Result (IdioArray V) :=
  sortInto vs m a a

/-- `sort` of an array -/
def sortArray (vs : Values V) (m : Pairs V) (a : IdioArray V) : Result (IdioArray V) :=
  match IdioArray.copyArray vs.idioCopy .deep 0 a with
  | .ok _ newra => sortInto vs m a newra
  | .error e _ => .error e

/-- The loop of `sorted?` on an array, from the index `n - 1` down. -/
def sortedArrayLoop (pr : Procedures V) (a : IdioArray V) : Nat → V → Result Bool
  | 0, _ => .ok true
  | n + 1, last => do
      let v ← arrayRef a n
      let nxt := pr.keyOf v
      if pr.less nxt last then sortedArrayLoop pr a n nxt
      else return false

/-- `sorted?` of an array -/
def sortedArray (pr : Procedures V) (a : IdioArray V) : Result Bool :=
  let dimax := (a.usize : Int) - 1
  if dimax ≤ 1 then .ok true
  else do
    let v ← arrayRef a dimax
    sortedArrayLoop pr a (a.usize - 1) (pr.keyOf v)

end Model

/-! ## Lists -/

section OfLists

variable {V : Type} {pr : Procedures V} {m m' : Pairs V} {p q seq : Option Nat} {fuel : Nat}
  {cs : List (Nat × Element V)} {l : List V}

/-- The two pairs swapped: `ret` from the front, and `seq`, which `crt` is linked to. -/
theorem headLoop_swap {crt r s : Nat} {x y z : Element V} {tr ts : Option Nat}
    {mid rest : List (Nat × Element V)} (hcrt : m[crt]? = some ⟨z, some s⟩)
    (hne : s ≠ crt) (hs : m[s]? = some ⟨y, ts⟩) (hr : (m.set crt ⟨z, some r⟩)[r]? = some ⟨x, tr⟩)
    (hmid : Seg (m.set crt ⟨z, some r⟩) tr mid (some r)) (hrest : Seg m ts rest none)
    (hnodup : (r :: s :: (places mid ++ places rest)).Nodup) (hcrt' : crt ∉ places rest) :
    ∃ m', headLoop (fuel + 1) m (some crt) (some r) (some s) = .ok m' ∧
      Seg m' (some s) ((s, x) :: mid ++ (r, y) :: rest) none := by
  obtain ⟨hr', hs', -⟩ : r ∉ s :: (places mid ++ places rest) ∧ s ∉ places mid ++ places rest ∧ True := by
    obtain ⟨hr', hnodup⟩ := List.nodup_cons.mp hnodup
    exact ⟨hr', (List.nodup_cons.mp hnodup).1, trivial⟩
  rw [List.mem_cons, List.mem_append, not_or, not_or] at hr'
  rw [List.mem_append, not_or] at hs'
  have hs₁ := (agrees_set m crt ⟨z, some r⟩).get (List.mem_singleton.not.mpr hne) hs
  have hrest₁ := hrest.set hcrt' ⟨z, some r⟩
  generalize hm₁ : m.set crt ⟨z, some r⟩ = m₁ at hr hmid hs₁ hrest₁
  have hr₂ (e : Element V) (t : Option Nat) :=
    (agrees_set m₁ s ⟨e, t⟩).get (List.mem_singleton.not.mpr hr'.1) hr
  have hs₂ := get_set hs₁ ⟨x, ts⟩
  have hs₃ := get_set hs₂ ⟨x, tr⟩
  have hr₃ := (agrees_set (m₁.set s ⟨x, ts⟩) s ⟨x, tr⟩).get (List.mem_singleton.not.mpr hr'.1) (hr₂ x ts)
  have hr₄ := get_set hr₃ ⟨y, tr⟩
  refine ⟨((((m₁.set s ⟨x, ts⟩).set s ⟨x, tr⟩).set r ⟨y, tr⟩).set r ⟨y, ts⟩), ?_, ?_⟩
  · rw [headLoop, pt_get hcrt, ok_bind, if_pos rfl, setPt_get hcrt, ok_bind, hm₁, ph_get hs₁, ok_bind,
      pt_get hs₁, ok_bind, ph_get hr, ok_bind, setPh_get hs₁, ok_bind, pt_get (hr₂ x ts), ok_bind,
      setPt_get hs₂, ok_bind, setPh_get hr₃, ok_bind, setPt_get hr₄]
  · have haway {ds : List (Nat × Element V)} {p q : Option Nat} (h : Seg m₁ p ds q) (hs : s ∉ places ds)
        (hr : r ∉ places ds) :
        Seg ((((m₁.set s ⟨x, ts⟩).set s ⟨x, tr⟩).set r ⟨y, tr⟩).set r ⟨y, ts⟩) p ds q :=
      (((h.set hs _).set hs _).set hr _).set hr _
    have hs₅ := (agrees_set (((m₁.set s ⟨x, ts⟩).set s ⟨x, tr⟩).set r ⟨y, tr⟩) r ⟨y, ts⟩).get
      (List.mem_singleton.not.mpr (Ne.symm hr'.1))
      ((agrees_set _ r ⟨y, tr⟩).get (List.mem_singleton.not.mpr (Ne.symm hr'.1)) hs₃)
    exact ⟨rfl, tr, hs₅, seg_append.mpr ⟨some r, haway hmid hs'.1 hr'.2.1, rfl, ts, get_set hr₄ _,
      haway hrest₁ hs'.2 hr'.2.2⟩⟩

/-- The loop goes on to the pair in front of `seq`. -/
theorem headLoop_step {crt s : Nat} {z : Element V} {t ret : Option Nat} (hget : m[crt]? = some ⟨z, t⟩)
    (hne : t ≠ some s) :
    headLoop (fuel + 1) m (some crt) ret (some s) = headLoop fuel m t ret (some s) := by
  rw [headLoop, pt_get hget, ok_bind, if_neg hne]

/-- **The head of the list**: the pair that is sorted to the front and the one that the list
was given by change their places. -/
theorem headLoop_spec {r s : Nat} {x y : Element V} {front mid rest : List (Nat × Element V)} {crt : Nat}
    {z : Element V} (hsplit : (r, x) :: mid = front ++ [(crt, z)])
    (hseg : Seg m (some r) ((r, x) :: mid ++ (s, y) :: rest) none)
    (hnodup : (places ((r, x) :: mid ++ (s, y) :: rest)).Nodup) :
    ∃ m', headLoop (fuel + 1) m (some crt) (some r) (some s) = .ok m' ∧
      Seg m' (some s) ((s, x) :: mid ++ (r, y) :: rest) none := by
  obtain ⟨t, hfront, rfl, ts, hs, hrest⟩ := seg_append.mp hseg
  rw [places_append] at hnodup
  obtain ⟨hnodup₁, hnodup₂, hdisjoint⟩ := List.nodup_append.mp hnodup
  rw [hsplit] at hfront hnodup₁
  obtain ⟨-, -, rfl, t, hcrt, rfl⟩ := seg_append.mp hfront
  have hmem : crt ∈ places ((r, x) :: mid) := by
    rw [hsplit, places_append]
    exact List.mem_append_right _ List.mem_cons_self
  -- the last of the pairs in front of `seq` is linked to the first
  have hrelinked := hfront.relink hnodup₁ (some r)
  rw [← hsplit] at hrelinked
  obtain ⟨-, tr, hr, hmid⟩ := hrelinked
  refine headLoop_swap hcrt (fun heq => ?_) hs hr hmid hrest ?_ fun hcrt' => ?_
  · exact hdisjoint crt hmem s List.mem_cons_self heq.symm
  · have hperm : (places ((r, x) :: mid) ++ places ((s, y) :: rest)).Perm
        (r :: s :: (places mid ++ places rest)) := List.Perm.cons r List.perm_middle
    exact hperm.nodup_iff.mp hnodup
  · exact hdisjoint crt hmem crt (List.mem_cons_of_mem _ hcrt') rfl

theorem headLoop_find {r s : Nat} {x y : Element V} {mid rest front back : List (Nat × Element V)}
    {crt : Nat} {z : Element V} (hsplit : (r, x) :: mid = front ++ (crt, z) :: back)
    (hseg : Seg m (some r) ((r, x) :: mid ++ (s, y) :: rest) none)
    (hnodup : (places ((r, x) :: mid ++ (s, y) :: rest)).Nodup) (hfuel : back.length < fuel) :
    ∃ m', headLoop fuel m (some crt) (some r) (some s) = .ok m' ∧
      Seg m' (some s) ((s, x) :: mid ++ (r, y) :: rest) none := by
  induction fuel generalizing front back crt z with
  | zero => exact absurd hfuel (Nat.not_lt_zero _)
  | succ fuel ih =>
    cases back with
    | nil => exact headLoop_spec hsplit hseg hnodup
    | cons c back =>
      obtain ⟨crt', z'⟩ := c
      have hseg' := hseg
      rw [hsplit, List.append_assoc] at hseg'
      obtain ⟨-, -, -, t, hget, htail⟩ := seg_append.mp hseg'
      have ht : t = some crt' := htail.1
      subst ht
      have hne : some crt' ≠ some s := by
        intro heq
        rw [hsplit, places_append] at hnodup
        refine (List.nodup_append.mp hnodup).2.2 crt' ?_ s List.mem_cons_self (Option.some.inj heq)
        rw [places_append]
        exact List.mem_append_right _ (List.mem_cons_of_mem _ List.mem_cons_self)
      rw [headLoop_step hget hne]
      refine @ih (front ++ [(crt, z)]) back crt' z' ?_ (Nat.lt_of_succ_lt_succ hfuel)
      rw [hsplit, List.append_assoc]
      rfl

/-- The list from `ret` on with its head moved to `seq`. -/
theorem headLoop_list {ret : Option Nat} (h : IsList m ret cs l) (hne : ret ≠ seq)
    (hseq : ∃ s ∈ places cs, seq = some s) :
    ∃ m' cs', headLoop (m.length + 1) m ret ret seq = .ok m' ∧ IsList m' seq cs' l := by
  obtain ⟨_, hs, rfl⟩ := hseq
  obtain ⟨⟨s, y⟩, hmem, rfl⟩ := List.mem_map.mp hs
  cases cs with
  | nil => exact absurd hmem List.not_mem_nil
  | cons c cs =>
    obtain ⟨r, x⟩ := c
    have hret : ret = some r := h.seg.1
    subst hret
    rcases List.mem_cons.mp hmem with heq | hmem
    · exact absurd (congrArg (fun c => some c.1) heq.symm) hne
    · obtain ⟨mid, rest, rfl⟩ := List.append_of_mem hmem
      have hroom := h.seg.length_le h.nodup
      obtain ⟨m', hrun, hseg⟩ := @headLoop_find V m (m.length + 1) r _ x y mid rest [] mid r x rfl
        h.seg h.nodup (by
          rw [List.length_cons, List.length_append] at hroom
          omega)
      refine ⟨m', _, hrun, hseg, ?_, ?_⟩
      · have hnodup := h.nodup
        have hperm : (places ((s, x) :: mid ++ (r, y) :: rest)).Perm
            (places ((r, x) :: (mid ++ (s, y) :: rest))) := by
          rw [← List.cons_append, places_append, places_append]
          show (s :: places mid ++ r :: places rest).Perm (r :: places mid ++ s :: places rest)
          exact List.perm_middle.trans (List.Perm.cons r List.perm_middle.symm)
        exact hperm.nodup_iff.mpr hnodup
      · have helements := h.elements
        simp only [List.map_append, List.map_cons, List.cons_append] at helements ⊢
        exact helements

/-- **`sort!` of a list** leaves the stable sort in the list it was given. -/
theorem sortBangList_spec [IsStrictWeakOrder V fun x y => pr.less x y] (h : IsList m seq cs l) :
    ∃ returned m' cs' l', sortBangList pr m seq = .ok (returned, m') ∧ IsList m' seq cs' l' ∧
      Sorts pr.order l l' ∧ (returned = .list seq ↔ l = [] ∨ LeastFirst pr.order l) := by
  obtain ⟨ret, m₁, cs₁, l', hrun, hlist, hplaces, hsorts, -, hfirst⟩ := sortSortList_spec pr h
  by_cases hret : ret = seq
  · subst hret
    refine ⟨.list ret, m₁, cs₁, l', ?_, hlist, hsorts, iff_of_true rfl (hfirst.mp rfl)⟩
    rw [sortBangList, hrun, ok_bind]
    exact if_neg (not_not.mpr rfl)
  · have hseq : ∃ s ∈ places cs₁, seq = some s := by
      cases cs with
      | nil =>
        have hl := h.length
        rw [List.length_nil] at hl
        exact absurd (hfirst.mpr (.inl (List.length_eq_zero_iff.mp hl.symm))) hret
      | cons c cs => exact ⟨c.1, hplaces.symm.subset List.mem_cons_self, h.seg.1⟩
    obtain ⟨m', cs', hloop, hlist'⟩ := headLoop_list hlist hret hseq
    refine ⟨.unspec, m', cs', l', ?_, hlist', hsorts, iff_of_false nofun (mt hfirst.mpr hret)⟩
    rw [sortBangList, hrun, ok_bind]
    dsimp only
    rw [if_pos hret, hloop]
    rfl

/-- **`sort` of a list** gives the stable sort.  It takes new pairs and leaves the list as it
was where there is at most one pair. -/
theorem sortList_spec [IsStrictWeakOrder V fun x y => pr.less x y] (h : IsList m seq cs l) :
    ∃ p m' cs' l', sortList pr m seq = .ok (p, m') ∧ IsList m' p cs' l' ∧ Sorts pr.order l l' ∧
      ((∀ c ∈ cs', m.length ≤ c.1) ∧ IsList m' seq cs l ↔ l.length ≤ 1) := by
  cases cs with
  | nil =>
    have hl := h.length
    rw [List.length_nil] at hl
    have hnil := List.length_eq_zero_iff.mp hl.symm
    subst hnil
    have hseq : none = seq := h.seg.symm
    subst hseq
    obtain ⟨p, m', cs', l', hrun, hlist, hplaces, hsorts, hagrees, -⟩ := sortSortList_spec pr h
    refine ⟨p, m', cs', l', ?_, hlist, hsorts, iff_of_true ⟨?_, rfl, h.nodup, h.elements⟩ (Nat.zero_le 1)⟩
    · rw [sortList, copyShallow, if_pos rfl, ok_bind]
      exact hrun
    · intro c hc
      exact absurd (hplaces.subset (List.mem_map_of_mem hc)) List.not_mem_nil
  | cons c cs =>
    obtain ⟨i, e⟩ := c
    obtain ⟨hseq, t, hget, hseg⟩ := id h.seg
    subst hseq
    have hnew := agrees_concat m ⟨e, t⟩
    have hold : ∀ j ∈ places ((i, e) :: cs), j < m.length := h.seg.lt_length
    have hnot : m.length ∉ places cs := fun hmem =>
      absurd (hold _ (List.mem_cons_of_mem i hmem)) (Nat.lt_irrefl _)
    have hget' : (m ++ [⟨e, t⟩])[m.length]? = some ⟨e, t⟩ := List.getElem?_concat_length
    have hcopy : IsList (m ++ [⟨e, t⟩]) (some m.length) ((m.length, e) :: cs) l := by
      refine ⟨⟨rfl, t, hget', hseg.frame hnew (List.disjoint_singleton.mpr hnot)⟩, ?_, h.elements⟩
      exact List.nodup_cons.mpr ⟨hnot, (List.nodup_cons.mp h.nodup).2⟩
    obtain ⟨p, m', cs', l', hrun, hlist, hplaces, hsorts, hagrees, -⟩ := sortSortList_spec pr hcopy
    refine ⟨p, m', cs', l', ?_, hlist, hsorts, ?_⟩
    · rw [sortList, copyShallow, if_neg nofun, ph_get hget, ok_bind, pt_get hget]
      exact hrun
    · have hlen := h.length
      rw [List.length_cons] at hlen
      rw [← hlen]
      cases cs with
      | nil =>
        refine iff_of_true ⟨fun c hc => ?_, ?_, h.nodup, h.elements⟩ (Nat.le_refl 1)
        · have hmem := hplaces.subset (List.mem_map_of_mem hc)
          exact Nat.le_of_eq (List.mem_singleton.mp hmem).symm
        · cases hseg
          have hi : i ∉ [m.length] := by
            rw [List.mem_singleton]
            exact Nat.ne_of_lt (hold i List.mem_cons_self)
          exact ⟨rfl, none, hagrees.get hi (hnew.get hi hget), rfl⟩
      | cons c cs =>
        -- the second pair is one of the list
        refine iff_of_false (fun hfresh => ?_) (by rw [List.length_cons]; omega)
        have hmem : c.1 ∈ places cs' :=
          hplaces.symm.subset (List.mem_cons_of_mem _ List.mem_cons_self)
        obtain ⟨c', hc', heq⟩ := List.mem_map.mp hmem
        have hlow := hfresh.1 c' hc'
        have hhigh := hold c.1 (List.mem_cons_of_mem _ List.mem_cons_self)
        rw [heq] at hlow
        omega

/-- No later element is less than the one in front of it. -/
def NonDecreasing (pr : Procedures V) (l : List V) : Prop := l.IsChain fun x y => pr.order x y

theorem sortedListLoop_spec {xs : List V} {last : V} (hseg : Seg m p cs none)
    (hcs : cs.map Prod.snd = xs.map .plain) (hfuel : cs.length < fuel) :
    ∃ b, sortedListLoop pr m fuel (fun k => .ok (pr.less k (pr.keyOf last))) p = .ok b ∧
      (b ↔ NonDecreasing pr (last :: xs)) := by
  induction fuel generalizing p cs xs last with
  | zero => exact absurd hfuel (Nat.not_lt_zero _)
  | succ fuel ih =>
    cases cs with
    | nil =>
      cases hseg
      cases xs with
      | nil =>
        refine ⟨true, ?_, iff_of_true rfl (.singleton _)⟩
        rw [sortedListLoop, if_pos rfl]
      | cons x xs => cases hcs
    | cons c cs =>
      cases xs with
      | nil => cases hcs
      | cons x xs =>
        obtain ⟨i, e⟩ := c
        obtain ⟨rfl, t, hget, hseg⟩ := hseg
        obtain ⟨rfl, hcs'⟩ := List.cons.inj hcs
        rw [sortedListLoop, if_neg nofun, ph_get hget, ok_bind, ok_bind, NonDecreasing,
          List.isChain_cons_cons]
        by_cases hless : pr.less (pr.keyOf x) (pr.keyOf last)
        · refine ⟨false, ?_, iff_of_false nofun fun h => leOf_iff.mp h.1 hless⟩
          exact if_pos hless
        · obtain ⟨b, hrun, hb⟩ := @ih t cs xs x hseg hcs' (Nat.lt_of_succ_lt_succ hfuel)
          refine ⟨b, ?_, ?_⟩
          · refine (if_neg hless).trans ?_
            rw [pt_get hget, ok_bind]
            exact hrun
          · rw [hb, NonDecreasing]
            exact (and_iff_right (leOf_iff.mpr hless)).symm

/-- What `sorted?` says of a list with more than one element is right where the call with two
arguments returns and `less?` takes what it returned for the key of the first. -/
def TellsFirst (vs : Values V) : List V → Prop
  | x :: y :: xs => vs.keyPh = .ok () ∧ ∃ b, vs.lessPh (vs.keyOf y) = .ok b ∧
      (NonDecreasing vs.toProcedures (y :: xs) → b = vs.less (vs.keyOf y) (vs.keyOf x))
  | _ => True

/-- The answer for the first two, and that for the rest. -/
theorem tells_iff {b b' c : Bool} {P : Prop} (h : b' ↔ P) :
    (∃ r, (.ok (!b && b') : Result Bool) = .ok r ∧ (r ↔ ¬ c ∧ P)) ↔
      ∃ d, (.ok b : Result Bool) = .ok d ∧ (P → d = c) := by
  simp only [Except.ok.injEq, exists_eq_left', Bool.and_eq_true, Bool.not_eq_true', h]
  cases b <;> cases c <;> simp

theorem sortedList_spec {vs : Values V} (h : IsList m seq cs l) :
    (∃ b, sortedList vs m seq = .ok b ∧ (b ↔ NonDecreasing vs.toProcedures l)) ↔ TellsFirst vs l := by
  have helements := h.elements
  match l, cs with
  | [], _ :: _ => cases helements
  | [], [] =>
    cases h.seg
    refine iff_of_true ⟨true, ?_, iff_of_true rfl .nil⟩ trivial
    rw [sortedList, if_pos rfl]
  | [x], [(i, e)] =>
    obtain ⟨rfl, t, hget, rfl⟩ := h.seg
    refine iff_of_true ⟨true, ?_, iff_of_true rfl (.singleton x)⟩ trivial
    rw [sortedList, if_neg nofun, pt_get hget, ok_bind, if_pos rfl]
    rfl
  | [_], _ :: _ :: _ => exact absurd h.length (by simp)
  | x :: y :: xs, [_] => exact absurd h.length (by simp)
  | x :: y :: xs, (i, ex) :: (j, ey) :: cs =>
    have hroom := h.seg.length_le h.nodup
    rw [List.length_cons, List.length_cons] at hroom
    obtain ⟨rfl, t, hi, rfl, u, hj, hseg⟩ := h.seg
    obtain ⟨-, helements⟩ := List.cons.inj helements
    obtain ⟨hy, hrest⟩ := List.cons.inj helements
    have hey : ey = .plain y := hy
    subst hey
    rw [sortedList, if_neg nofun, pt_get hi, ok_bind, if_neg nofun, TellsFirst]
    cases hkey : vs.keyPh with
    | error e =>
      refine iff_of_false ?_ (fun hright => absurd hright.1 nofun)
      rintro ⟨b, hrun, -⟩
      cases hrun
    | ok =>
      rw [ok_bind, sortedListLoop, if_neg nofun, ph_get hj, ok_bind]
      show (∃ b, (vs.lessPh (vs.keyOf y) >>= _) = .ok b ∧ _) ↔ _
      cases hless : vs.lessPh (vs.keyOf y) with
      | error e =>
        refine iff_of_false ?_ (fun ⟨_, b, hb, _⟩ => absurd hb nofun)
        rintro ⟨b, hrun, -⟩
        cases hrun
      | ok b =>
        obtain ⟨b', hloop, hb'⟩ := @sortedListLoop_spec V vs.toProcedures m u m.length cs xs y hseg
          hrest (by omega)
        have horder : NonDecreasing vs.toProcedures (x :: y :: xs) ↔
            ¬ vs.less (vs.keyOf y) (vs.keyOf x) ∧ NonDecreasing vs.toProcedures (y :: xs) := by
          rw [NonDecreasing, List.isChain_cons_cons]
          exact and_congr_left' leOf_iff
        rw [horder, ok_bind, pt_get hj, ok_bind, Element.value, hloop]
        refine Iff.trans ?_ (and_iff_right rfl).symm
        have hboth : (if b then return false else .ok b' : Result Bool) = .ok (!b && b') := by
          cases b <;> rfl
        rw [hboth]
        exact tells_iff hb'

end OfLists

/-! ## Arrays -/

section OfArrays

open IdioArray

variable {V : Type} {vs : Values V} {m : Pairs V} {p : Option Nat} {a into : IdioArray V}
  {cs : List (Nat × Element V)} {l f s : List V}

/-- Where `array-set!` puts a value at the index `v` if it is in an array of `n` elements. -/
def Values.place (vs : Values V) (n : Nat) (v : V) : Option Nat :=
  match vs.index v with
  | .ok i =>
      if 0 ≤ i ∧ i < n then some i.toNat
      else if i < 0 ∧ 0 ≤ i + n then some (i + n).toNat
      else none
  | .error _ => none

/-- The last of the elements, counted from `i` on, that is the index of the place `j`. -/
def Values.lastAt (vs : Values V) (n : Nat) : Nat → List V → Nat → Option Nat
  | _, [], _ => none
  | i, v :: s, j =>
      match vs.lastAt n (i + 1) s j with
      | some k => some k
      | none => if vs.place n v = some j then some i else none

/-- In the order `s`, the elements themselves are the indexes under which their places are
stored into `f`, and what then is there is `s`. -/
structure Values.Stored (vs : Values V) (f s : List V) : Prop where
  indexes : ∀ v ∈ s, vs.place s.length v ≠ none
  stored : ∀ j < s.length, s[j]? =
    match vs.lastAt s.length 0 s j with
    | some k => some (vs.integer k)
    | none => f[j]?

/-- An array holds one list. -/
theorem refines_unique (h : Refines a l) (h' : Refines a f) : l = f := by
  have heq := h.holds.usedSlots_eq.symm.trans h'.holds.usedSlots_eq
  exact List.map_injective_iff.mpr (fun _ _ => Option.some.inj) heq

theorem arrayRef_spec (h : Refines a l) {i : Nat} (hi : i < l.length) : arrayRef a i = .ok l[i] := by
  rw [arrayRef, refIndex_nat h hi]

theorem arrayListLoop_spec (h : Refines a l) {n : Nat} (hn : n ≤ l.length)
    (hlist : IsList m p cs (l.drop n)) :
    ∃ p' m' cs', arrayListLoop a n m p = .ok (p', m') ∧ IsList m' p' cs' l := by
  induction n generalizing m p cs with
  | zero => exact ⟨p, m, cs, rfl, hlist⟩
  | succ n ih =>
    have hnot : m.length ∉ places cs := fun hmem => absurd (hlist.seg.lt_length _ hmem) (Nat.lt_irrefl _)
    rw [arrayListLoop, arrayRef_spec h hn, ok_bind]
    refine @ih _ (some m.length) ((m.length, .plain l[n]) :: cs) (Nat.le_of_succ_le hn)
      ⟨⟨rfl, p, List.getElem?_concat_length, ?_⟩, ?_, ?_⟩
    · exact hlist.seg.frame (agrees_concat m _) (List.disjoint_singleton.mpr hnot)
    · exact List.nodup_cons.mpr ⟨hnot, hlist.nodup⟩
    · rw [List.drop_eq_getElem_cons hn, List.map_cons, List.map_cons, hlist.elements]

theorem place_eq_some {v : V} {n j : Nat} (h : vs.place n v = some j) :
    ∃ index, vs.index v = .ok index ∧ j < n ∧ (if index < 0 then index + n else index) = j := by
  rw [Values.place] at h
  cases hindex : vs.index v with
  | error e =>
    rw [hindex] at h
    cases h
  | ok index =>
    rw [hindex] at h
    refine ⟨index, rfl, ?_⟩
    dsimp only at h
    split_ifs at h with hin hneg
    · cases h
      rw [if_neg (by omega)]
      omega
    · cases h
      rw [if_pos hneg.1]
      omega

/-- An assignment on a list is to one of its places, or one more than they are. -/
theorem listPut_spec {v x dv : V} {index : Int} (hindex : vs.index v = .ok index) :
    (∀ r g, listPut dv f.length f.length index x f = (.ok r, g) → f.length ≤ g.length ∧
      (g.length = f.length → ∃ j, vs.place f.length v = some j ∧ g = f.set j x)) ∧
    ∀ j, vs.place f.length v = some j →
      listPut dv f.length f.length index x f = (.ok none, f.set j x) := by
  constructor
  · intro r g hput
    unfold listPut at hput
    dsimp only at hput
    generalize hi : (if index < 0 then index + (f.length : Int) else index) = i at hput
    split_ifs at hput with hlow hhigh
    · cases hput
    · cases hput
    obtain ⟨-, rfl⟩ := Prod.mk.inj hput
    rw [putAt_length]
    refine ⟨by split_ifs <;> omega, fun hsame => ⟨i.toNat, ?_, ?_⟩⟩
    · have hlt : i < f.length := by
        split_ifs at hsame <;> omega
      rw [Values.place, hindex]
      dsimp only
      split_ifs at hi with hneg
      · rw [if_neg (by omega), if_pos (by omega), hi]
      · subst hi
        rw [if_pos (by omega)]
    · rw [putAt_lt]
      split_ifs at hsame <;> omega
  · intro j hplace
    obtain ⟨index', hindex', hlt, hj⟩ := place_eq_some hplace
    cases hindex.symm.trans hindex'
    unfold listPut
    dsimp only
    rw [hj, if_neg (by omega), if_neg (by omega), Int.toNat_natCast, putAt_lt _ hlt]

/-- One element more is stored: the array keeps its size where the element is the index of a
place. -/
theorem arrayStore_spec (vs : Values V) (h : Refines a f) (v : V) (i : Nat) :
    (∀ a', arrayStore vs a (.plain v) i = .ok a' → ∃ f', Refines a' f' ∧ f.length ≤ f'.length ∧
      (f'.length = f.length → ∃ j, vs.place f.length v = some j ∧ f' = f.set j (vs.integer i))) ∧
    ∀ j, vs.place f.length v = some j →
      ∃ a', arrayStore vs a (.plain v) i = .ok a' ∧ Refines a' (f.set j (vs.integer i)) := by
  rw [arrayStore]
  cases hindex : vs.index v with
  | error e =>
    refine ⟨nofun, fun j hplace => ?_⟩
    obtain ⟨index, hindex', -⟩ := place_eq_some hplace
    cases hindex.symm.trans hindex'
  | ok index =>
    rw [ok_bind]
    have hagrees := arraySet_agrees h index (vs.integer i)
    obtain ⟨hgrows, hstores⟩ := @listPut_spec V vs f v (vs.integer i) a.dv index hindex
    generalize listPut a.dv f.length f.length index (vs.integer i) f = put at hagrees hgrows hstores
    obtain ⟨r, g⟩ := put
    cases hset : arraySet index (vs.integer i) a with
    | ok u a₁ =>
      rw [hset] at hagrees
      obtain ⟨hr, hrefines, -⟩ := hagrees
      subst hr
      refine ⟨fun a' ha' => ?_, fun j hplace => ?_⟩
      · cases ha'
        exact ⟨g, hrefines, hgrows none g rfl⟩
      · cases hstores j hplace
        exact ⟨a₁, rfl, hrefines⟩
    | error e a₁ =>
      rw [hset] at hagrees
      obtain ⟨hr, -, -⟩ := hagrees
      refine ⟨nofun, fun j hplace => ?_⟩
      cases hstores j hplace
      cases hr

/-- All elements stored, one after the other. -/
def Values.storeAll (vs : Values V) (n : Nat) : Nat → List V → List V → List V
  | _, [], f => f
  | i, v :: s, f =>
      vs.storeAll n (i + 1) s (match vs.place n v with
        | some j => f.set j (vs.integer i)
        | none => f)

theorem storeAll_length (n i : Nat) (s f : List V) : (vs.storeAll n i s f).length = f.length := by
  induction s generalizing i f with
  | nil => rfl
  | cons v s ih =>
    rw [Values.storeAll, ih]
    split
    · rw [List.length_set]
    · rfl

/-- What is at a place was stored there last. -/
theorem storeAll_getElem? {n i j : Nat} (hj : j < f.length) (s : List V) :
    (vs.storeAll n i s f)[j]? =
      match vs.lastAt n i s j with
      | some k => some (vs.integer k)
      | none => f[j]? := by
  induction s generalizing i f with
  | nil => rfl
  | cons v s ih =>
    have hlen : j < (match vs.place n v with
        | some j => f.set j (vs.integer i)
        | none => f).length := by
      split
      · rwa [List.length_set]
      · exact hj
    rw [Values.storeAll, Values.lastAt, ih hlen]
    cases vs.lastAt n (i + 1) s j with
    | some k => rfl
    | none =>
      dsimp only
      cases hplace : vs.place n v with
      | none => rw [if_neg nofun]
      | some j' =>
        by_cases heq : j' = j
        · subst heq
          rw [if_pos rfl]
          exact List.getElem?_set_self hj
        · rw [if_neg (fun h => heq (Option.some.inj h))]
          exact List.getElem?_set_ne heq

theorem storeAll_eq_iff (hlen : f.length = s.length) (hindexes : ∀ v ∈ s, vs.place s.length v ≠ none) :
    vs.storeAll s.length 0 s f = s ↔ vs.Stored f s := by
  constructor
  · intro heq
    refine ⟨hindexes, fun j hj => ?_⟩
    rw [← storeAll_getElem? (hlen ▸ hj), heq]
  · intro h
    refine List.ext_getElem? fun j => ?_
    by_cases hj : j < s.length
    · rw [storeAll_getElem? (hlen ▸ hj), h.stored j hj]
    · rw [List.getElem?_eq_none (by rw [storeAll_length]; omega), List.getElem?_eq_none (by omega)]

/-- **The loop that stores** goes to its end where all elements are indexes, and keeps the
size only there. -/
theorem storeLoop_spec {fuel i : Nat} (h : Refines a f) (hseg : Seg m p cs none)
    (hcs : cs.map Prod.snd = s.map .plain) (hfuel : cs.length < fuel) :
    (∀ a', storeLoop vs m fuel a p i = .ok a' → ∃ f', Refines a' f' ∧ f.length ≤ f'.length ∧
      (f'.length = f.length → (∀ v ∈ s, vs.place f.length v ≠ none) ∧
        f' = vs.storeAll f.length i s f)) ∧
    ((∀ v ∈ s, vs.place f.length v ≠ none) →
      ∃ a', storeLoop vs m fuel a p i = .ok a' ∧ Refines a' (vs.storeAll f.length i s f)) := by
  induction fuel generalizing a f p cs s i with
  | zero => exact absurd hfuel (Nat.not_lt_zero _)
  | succ fuel ih =>
    cases s with
    | nil =>
      have hnil := List.map_eq_nil_iff.mp hcs
      subst hnil
      cases hseg
      rw [storeLoop, if_pos rfl]
      refine ⟨fun a' ha' => ?_, fun _ => ⟨a, rfl, h⟩⟩
      cases ha'
      exact ⟨f, h, Nat.le_refl _, fun _ => ⟨nofun, rfl⟩⟩
    | cons v s =>
      cases cs with
      | nil => cases hcs
      | cons c cs =>
        obtain ⟨k, e⟩ := c
        obtain ⟨rfl, t, hget, hseg⟩ := hseg
        obtain ⟨he, hrest⟩ := List.cons.inj hcs
        have hplain : e = .plain v := he
        subst hplain
        rw [storeLoop, if_neg nofun, ph_get hget, ok_bind]
        obtain ⟨hgrows, hstores⟩ := arrayStore_spec vs h v i
        cases hstore : arrayStore vs a (.plain v) i with
        | error e =>
          refine ⟨nofun, fun hindexes => ?_⟩
          obtain ⟨j, hplace⟩ := Option.ne_none_iff_exists'.mp (hindexes v List.mem_cons_self)
          obtain ⟨a', hrun, -⟩ := hstores j hplace
          cases hstore.symm.trans hrun
        | ok a₁ =>
          rw [ok_bind, pt_get hget, ok_bind]
          obtain ⟨f₁, h₁, hlen₁, hsame₁⟩ := hgrows a₁ hstore
          obtain ⟨hall, hends⟩ := ih (i := i + 1) h₁ hseg hrest (Nat.lt_of_succ_lt_succ hfuel)
          constructor
          · intro a' ha'
            obtain ⟨f', h', hlen', hsame'⟩ := hall a' ha'
            refine ⟨f', h', Nat.le_trans hlen₁ hlen', fun hsame => ?_⟩
            obtain ⟨j, hplace, hf₁⟩ := hsame₁ (by omega)
            obtain ⟨hindexes, hf'⟩ := hsame' (by omega)
            rw [show f₁.length = f.length by omega] at hindexes hf'
            refine ⟨List.forall_mem_cons.mpr ⟨?_, hindexes⟩, ?_⟩
            · rw [hplace]
              nofun
            · rw [Values.storeAll, hplace, hf', hf₁]
          · intro hindexes
            rw [List.forall_mem_cons] at hindexes
            obtain ⟨j, hplace⟩ := Option.ne_none_iff_exists'.mp hindexes.1
            obtain ⟨a₂, hrun, h₂⟩ := hstores j hplace
            cases hstore.symm.trans hrun
            have hf₁ := refines_unique h₁ h₂
            have hsize : f₁.length = f.length := by rw [hf₁, List.length_set]
            rw [hsize] at hends
            obtain ⟨a', hloop, h'⟩ := hends hindexes.2
            refine ⟨a', hloop, ?_⟩
            rw [Values.storeAll, hplace]
            dsimp only
            rw [← hf₁]
            exact h'

/-- **Arrays**: the sorted elements are stored right where they are the indexes of their own
places. -/
theorem sortInto_spec [IsStrictWeakOrder V fun x y => vs.less x y] (h : Refines a l)
    (hinto : Refines into f) (hlen : f.length = l.length) :
    (∃ a' l', sortInto vs m a into = .ok a' ∧ Refines a' l' ∧ Sorts vs.order l l') ↔
      vs.Stored f (l.mergeSort vs.order) := by
  have hle := @order_totalPreorder V vs.toProcedures _
  obtain ⟨p₁, m₁, cs₁, hlist, h₁⟩ := @arrayListLoop_spec V m none a [] l h l.length (Nat.le_refl _)
    ⟨rfl, List.nodup_nil, by rw [List.drop_length]; rfl⟩
  obtain ⟨p₂, m₂, cs₂, s, hsort, h₂, -, hsorts, -, -⟩ := sortSortList_spec vs.toProcedures h₁
  have hs : s = l.mergeSort vs.order := hsorts.unique hle (sorts_mergeSort hle l)
  rw [← hs]
  have hlens : f.length = s.length := hlen.trans hsorts.perm.length_eq.symm
  have hrun : sortInto vs m a into = storeLoop vs m₂ (m₂.length + 1) into p₂ 0 := by
    rw [sortInto, arrayToList, h.size, hlist, ok_bind]
    dsimp only
    rw [hsort]
    rfl
  obtain ⟨hall, hends⟩ := @storeLoop_spec V vs m₂ p₂ into cs₂ f s (m₂.length + 1) 0 hinto h₂.seg
    h₂.elements (Nat.lt_succ_of_le (h₂.seg.length_le h₂.nodup))
  rw [hrun]
  constructor
  · rintro ⟨a', l', hstore, ha', hsorts'⟩
    obtain ⟨f', hf', -, hsame⟩ := hall a' hstore
    have hl' : l' = s := hsorts'.unique hle hsorts
    have heq : f' = s := (refines_unique hf' ha').trans hl'
    obtain ⟨hindexes, hstored⟩ := hsame (by rw [heq, hlens])
    rw [hlens] at hindexes hstored
    exact (storeAll_eq_iff hlens hindexes).mp (hstored.symm.trans heq)
  · intro hstored
    have hindexes := hstored.indexes
    rw [← hlens] at hindexes
    obtain ⟨a', hstore, ha'⟩ := hends hindexes
    rw [hlens, (storeAll_eq_iff hlens hstored.indexes).mpr hstored] at ha'
    exact ⟨a', s, hstore, ha', hsorts⟩

/-- Each element is less than the next. -/
def Increasing (pr : Procedures V) (l : List V) : Prop :=
  l.IsChain fun x y => pr.less (pr.keyOf x) (pr.keyOf y)

/-- What `sorted?` says of an array is right. -/
def TellsArray (pr : Procedures V) (l : List V) : Prop :=
  if l.length ≤ 2 then NonDecreasing pr l else NonDecreasing pr l → Increasing pr l

theorem increasing_nonDecreasing {pr : Procedures V} [h : IsStrictWeakOrder V fun x y => pr.less x y]
    (hl : Increasing pr l) : NonDecreasing pr l :=
  hl.imp fun _ _ hless => leOf_iff.mpr fun hless' => h.irrefl _ (h.trans _ _ _ hless hless')

theorem sortedArrayLoop_spec (pr : Procedures V) (h : Refines a l) {n : Nat} (hn : n < l.length) :
    ∃ b, sortedArrayLoop pr a n (pr.keyOf l[n]) = .ok b ∧ (b ↔ Increasing pr (l.take (n + 1))) := by
  induction n with
  | zero =>
    refine ⟨true, rfl, iff_of_true rfl ?_⟩
    rw [Increasing, List.take_succ_eq_append_getElem hn]
    exact .singleton _
  | succ n ih =>
    have hlt : n < l.length := Nat.lt_of_succ_lt hn
    have hlast : (l.take (n + 1)).getLast? = some l[n] := by
      rw [List.take_succ_eq_append_getElem hlt, List.getLast?_concat]
    rw [sortedArrayLoop, arrayRef_spec h hlt, ok_bind, Increasing, List.take_succ_eq_append_getElem hn,
      List.isChain_append, hlast]
    by_cases hless : pr.less (pr.keyOf l[n]) (pr.keyOf l[n + 1])
    · obtain ⟨b, hrun, hb⟩ := ih hlt
      refine ⟨b, (if_pos hless).trans hrun, ?_⟩
      rw [hb]
      refine ⟨fun h => ⟨h, .singleton _, ?_⟩, fun h => h.1⟩
      intro x hx y hy
      cases hx
      cases hy
      exact hless
    · refine ⟨false, if_neg hless, iff_of_false nofun fun h => hless ?_⟩
      exact h.2.2 _ rfl _ rfl

theorem sortedArray_spec {pr : Procedures V} [IsStrictWeakOrder V fun x y => pr.less x y]
    (h : Refines a l) :
    (∃ b, sortedArray pr a = .ok b ∧ (b ↔ NonDecreasing pr l)) ↔ TellsArray pr l := by
  have hsize := h.size
  rw [sortedArray, TellsArray]
  by_cases hsmall : l.length ≤ 2
  · rw [if_pos (by omega), if_pos hsmall]
    constructor
    · rintro ⟨b, hb, hright⟩
      cases hb
      exact hright.mp rfl
    · exact fun hright => ⟨true, rfl, iff_of_true rfl hright⟩
  · have hlast : l.length - 1 < l.length := by omega
    have hindex : (a.usize : Int) - 1 = ((l.length - 1 : Nat) : Int) := by omega
    rw [if_neg (by omega), if_neg hsmall, hindex, arrayRef_spec h hlast, ok_bind, hsize]
    obtain ⟨b, hrun, hb⟩ := sortedArrayLoop_spec pr h hlast
    rw [Nat.sub_add_cancel (by omega), List.take_length] at hb
    rw [hrun]
    constructor
    · rintro ⟨b', hb', hright⟩ hl
      cases hb'
      exact hb.mp (hright.mpr hl)
    · exact fun himp => ⟨b, rfl, hb.trans ⟨increasing_nonDecreasing, himp⟩⟩

end OfArrays

/-! ## Both kinds of sequences -/

section Both

variable {V : Type} {vs : Values V} {m : Pairs V} {seq : Option Nat} {cs : List (Nat × Element V)}
  {a : IdioArray V} {l : List V}

/-- On a list and on the array of its elements, for every strict weak order.  `sort!` leaves
the stable sort in the list and returns the list where a least element is in the part that the
halving ends with.  `sort` gives the stable sort of a list, of new pairs and with the list left
as it was where that has at most one element.  Of an array, both are right where the elements
are stored right as indexes.  Then `sorted?` of the list and of the array. -/
theorem sorting [IsStrictWeakOrder V fun x y => vs.less x y] (hlist : IsList m seq cs l)
    (harray : a.Refines l) :
    (∃ returned m' cs' l', sortBangList vs.toProcedures m seq = .ok (returned, m') ∧
      IsList m' seq cs' l' ∧ Sorts vs.order l l' ∧
      (returned = .list seq ↔ l = [] ∨ LeastFirst vs.order l)) ∧
    (∃ p m' cs' l', sortList vs.toProcedures m seq = .ok (p, m') ∧ IsList m' p cs' l' ∧
      Sorts vs.order l l' ∧
      ((∀ c ∈ cs', m.length ≤ c.1) ∧ IsList m' seq cs l ↔ l.length ≤ 1)) ∧
    ((∃ a' l', sortBangArray vs m a = .ok a' ∧ a'.Refines l' ∧ Sorts vs.order l l') ↔
      vs.Stored l (l.mergeSort vs.order)) ∧
    ((∃ a' l', sortArray vs m a = .ok a' ∧ a'.Refines l' ∧ Sorts vs.order l l') ↔
      vs.Stored (l.map vs.idioCopy) (l.mergeSort vs.order)) ∧
    ((∃ b, sortedList vs m seq = .ok b ∧ (b ↔ NonDecreasing vs.toProcedures l)) ↔ TellsFirst vs l) ∧
    ((∃ b, sortedArray vs.toProcedures a = .ok b ∧ (b ↔ NonDecreasing vs.toProcedures l)) ↔
      TellsArray vs.toProcedures l) := by
  refine ⟨sortBangList_spec hlist, sortList_spec hlist, sortInto_spec harray harray rfl, ?_,
    sortedList_spec hlist, sortedArray_spec harray⟩
  obtain ⟨newra, hcopy, hnewra, -⟩ :=
    IdioArray.copyArray_leaves vs.idioCopy .deep 0 harray.holds
  rw [sortArray, hcopy]
  exact sortInto_spec harray hnewra (List.length_map _)

end Both

/-- Numbers, in their order, and an array to index. -/
def numbers : Values Nat where
  less x y := x < y
  key := none
  keyPh := .ok ()
  lessPh _ := .error (.paramType "number")
  index n := .ok n
  integer i := i
  idioCopy n := n

instance : IsStrictWeakOrder Nat fun x y => numbers.less x y where
  irrefl x h := Nat.lt_irrefl x (of_decide_eq_true h)
  trans _ _ _ h h' := decide_eq_true (Nat.lt_trans (of_decide_eq_true h) (of_decide_eq_true h'))
  incomp_trans x y z h h' := by
    simp only [numbers, decide_eq_true_eq] at h h' ⊢
    omega

/-- The list `(2 1)`: the first of its pairs stays the first. -/
theorem sorted_in_place : ∃ returned m' cs' l',
    sortBangList numbers.toProcedures [⟨.plain 2, some 1⟩, ⟨.plain 1, none⟩] (some 0) =
      .ok (returned, m') ∧
    IsList m' (some 0) cs' l' ∧ Sorts numbers.order [2, 1] l' ∧
    (returned = .list (some 0) ↔ [2, 1] = [] ∨ LeastFirst numbers.order [2, 1]) :=
  (@sorting Nat numbers _ _ [(0, .plain 2), (1, .plain 1)] ⟨[some 2, some 1], 2, 2, 0⟩ _ _
    ⟨⟨rfl, _, rfl, rfl, _, rfl, rfl⟩, by decide, rfl⟩
    ⟨rfl, by decide, rfl, by decide, by decide, by decide⟩).1

/-- `sort!` of `(3 1 2)` returns `#<unspec>`; `sort` of it gives the second pair of the list it
was given, which then goes on to four elements; `sort` of `#[ 5 2 1 ]` stores at
the index 5; and `sorted?` compares with `ph`, and says of `#[ 2 1 ]` that it is sorted and of
`#[ 1 1 2 ]` that it is not. -/
theorem sorted_wrong :
    (sortBangList numbers.toProcedures
      [⟨.plain 3, some 1⟩, ⟨.plain 1, some 2⟩, ⟨.plain 2, none⟩] (some 0)).map Prod.fst = .ok .unspec ∧
    sortList numbers.toProcedures [⟨.plain 3, some 1⟩, ⟨.plain 1, some 2⟩, ⟨.plain 2, none⟩] (some 0) =
      .ok (some 1, [⟨.plain 3, some 1⟩, ⟨.plain 1, some 2⟩, ⟨.plain 2, some 3⟩, ⟨.plain 3, none⟩]) ∧
    sortArray numbers [] ⟨[some 5, some 2, some 1], 3, 3, 0⟩ =
      .error (.arrayError "array bounds error: abs (5) >= #elem 3") ∧
    sortedList numbers [⟨.plain 1, some 1⟩, ⟨.plain 2, none⟩] (some 0) =
      .error (.paramType "number") ∧
    sortedArray numbers.toProcedures ⟨[some 2, some 1], 2, 2, 0⟩ = .ok true ∧
    sortedArray numbers.toProcedures ⟨[some 1, some 1, some 2], 3, 3, 0⟩ = .ok false := by
  decide +kernel

end Idio.Srfi95
