/-
  Value/Equivalence.lean --- `equal?` is an equivalence on data.

  It is reflexive and symmetric on all data.  It is transitive on data that is not
  circular where the numbers compare by their values, no substring stands between
  strings of different kinds, and the hash tables have one comparator, which their
  hash function agrees with (`Regular`).  Without the first condition it is not
  (`equal_not_transitive`).

  The proof that it is transitive is an induction on the fuel.  The hard case is that
  of hash tables: a key of the first table is looked up in the second, what is found
  there in the third, and the look-up of the first key in the third must end at the
  same entry (`he_eq_of_compare`).  That takes an answer to every comparison on the way,
  so that the comparisons answer is part of the induction.
-/
import Idio.Value.Data

set_option autoImplicit false

namespace Idio

open Bignum KeyedList

/-! ## Comparable numbers, exact or not -/

/-- Whether a number is an inexact real. -/
def Number.inexact : Number → Bool
  | .real r => r.inexact
  | _ => false

theorem Number.RealValued.realArgument_inexact {x : Number} (h : x.RealValued) :
    ∃ r : NormalReal, Bignum.realArgument x.toNum.toBignum = .ok r.bn ∧ r.toRat = x.value ∧
      r.inexact = x.inexact := by
  cases x with
  | real r => exact ⟨r, rfl, rfl, rfl⟩
  | fixnum v hv =>
    obtain ⟨r, hrun, hval, hin⟩ := h.realArgument
    exact ⟨r, hrun, hval, hin trivial⟩
  | integer a =>
    obtain ⟨r, hrun, hval, hin⟩ := h.realArgument
    exact ⟨r, hrun, hval, hin trivial⟩

/-- Comparable numbers: equality of the values and of the exactness. -/
theorem realEqualP_comparable {x y : Number} (h : Comparable [x, y]) :
    realEqualP x.toNum.toBignum y.toNum.toBignum =
      .ok (decide (x.value = y.value ∧ x.inexact = y.inexact)) := by
  by_cases hint : x.IsInteger ∧ y.IsInteger
  · have hx : x.inexact = false := by
      cases x with
      | real r => exact hint.1.elim
      | _ => rfl
    have hy : y.inexact = false := by
      cases y with
      | real r => exact hint.2.elim
      | _ => rfl
    simp [realEqualP_integers hint.1.isInt hint.2.isInt, hint.1.value_eq, hint.2.value_eq, hx, hy]
  · have hreal := h.resolve_left (fun h => hint ⟨h x (by simp), h y (by simp)⟩)
    obtain ⟨r, hr, hrv, hrx⟩ := (hreal x (by simp)).realArgument_inexact
    obtain ⟨s, hs, hsv, hsx⟩ := (hreal y (by simp)).realArgument_inexact
    have hflag : (x.toNum.toBignum.flags.integer && y.toNum.toBignum.flags.integer) = false := by
      rw [Bool.and_eq_false_iff]
      by_contra hcon
      rw [not_or, Bool.not_eq_false, Bool.not_eq_false] at hcon
      exact hint ⟨x.integer_flag hcon.1, y.integer_flag hcon.2⟩
    rw [realEqualP_of_arguments hflag hr hs, ← hrx, ← hsx, ← hrv, ← hsv]
    by_cases hin : r.inexact = s.inexact
    · simp [realEqualP_normal hin, hin]
    · rw [realEqualP_eq]
      have hra : realArgument r.bn = .ok r.bn := rfl
      have hsa : realArgument s.bn = .ok s.bn := rfl
      have hne : (r.bn.flags.realInexact == s.bn.flags.realInexact) = false := by
        simpa [NormalReal.bn] using hin
      simp [NormalReal.integer_eq, hra, hsa, bind, Except.bind, realAlike, hne, hin]

theorem num_eq_comparable {x y : Number} (h : Comparable [x, y]) :
    Num.eq x.toNum [y.toNum] = .ok (decide (x.value = y.value ∧ x.inexact = y.inexact)) := by
  rw [num_eq_pair]
  split
  · exact realEqualP_comparable h
  · rename_i hfix
    cases x with
    | fixnum v hv =>
      cases y with
      | fixnum w hw =>
        have heq : decide (v = w) = decide ((v : ℚ) = w ∧ false = false) := by
          rw [decide_eq_decide]
          simp
        exact congrArg Except.ok heq
      | integer b => simp [Number.toNum, Num.isBignum] at hfix
      | real s => simp [Number.toNum, Num.isBignum] at hfix
    | integer a => simp [Number.toNum, Num.isBignum] at hfix
    | real r => simp [Number.toNum, Num.isBignum] at hfix

/-- The numbers in a set compare by their values: all are integers, or all are
values of reals in normal form. -/
def NumbersComparable (H : Heap) (D : Value → Prop) : Prop :=
  (∀ v m, D v → numberOf H v = some m → ∃ x : Number, x.toNum = m ∧ x.IsInteger) ∨
    ∀ v m, D v → numberOf H v = some m → ∃ x : Number, x.toNum = m ∧ x.RealValued

/-- A key of the equality of numbers: they are equal when their keys are. -/
theorem NumbersComparable.key {H : Heap} {D : Value → Prop} (h : NumbersComparable H D) :
    ∃ key : Num → ℚ × Bool, ∀ v w m n, D v → D w → numberOf H v = some m →
      numberOf H w = some n → Num.eq m [n] = .ok (decide (key m = key n)) := by
  classical
  -- The key of `m` is that of any number that stands for it.
  have hcore : ∀ P : Number → Prop, (∀ x y, P x → P y → Comparable [x, y]) →
      (∀ v m, D v → numberOf H v = some m → ∃ x : Number, x.toNum = m ∧ P x) →
      ∃ key : Num → ℚ × Bool, ∀ v w m n, D v → D w → numberOf H v = some m →
        numberOf H w = some n → Num.eq m [n] = .ok (decide (key m = key n)) := by
    intro P hP hnum
    refine ⟨fun m => if hm : ∃ x : Number, x.toNum = m ∧ P x then
      (hm.choose.value, hm.choose.inexact) else (0, false), fun v w m n hv hw hm hn => ?_⟩
    have hx := hnum v m hv hm
    have hy := hnum w n hw hn
    simp only [dif_pos hx, dif_pos hy, Prod.mk.injEq]
    obtain ⟨hxm, hxP⟩ := hx.choose_spec
    obtain ⟨hyn, hyP⟩ := hy.choose_spec
    have := num_eq_comparable (hP _ _ hxP hyP)
    rw [hxm, hyn] at this
    exact this
  rcases h with h | h
  · exact hcore Number.IsInteger (fun x y hx hy => Or.inl (by simp [hx, hy])) h
  · exact hcore Number.RealValued (fun x y hx hy => Or.inr (by simp [hx, hy])) h

/-! ## The recursion -/

/-- What the induction gives for components: comparisons answer, and the answer `#t`
is an equivalence. -/
structure Recursion.EquivalenceOn (R : Recursion) (D : Value → Prop) : Prop where
  total : ∀ level x y, D x → D y → ∃ b, R.equal level x y = .ok b
  refl : ∀ level x, D x → R.equal level x x = .ok true
  symm : ∀ level x y, D x → D y → R.equal level x y = .ok true → R.equal level y x = .ok true
  trans : ∀ level x y z, D x → D y → D z → R.equal level x y = .ok true →
    R.equal level y z = .ok true → R.equal level x z = .ok true

/-- Two tables with the same functions, and a hash function that equal keys agree
on. -/
structure Recursion.KeysAgree (R : Recursion) (s t : HashObject) : Prop where
  comp : s.comp = t.comp
  hash : s.hash = t.hash
  equiv : ∀ f, s.comp = .idio f → IsEquiv f
  index : ∀ k ∈ s.keysToList, ∀ k' ∈ t.keysToList, s.comp.compare R k k' = .ok true →
    ∀ mask, ∃ i, s.hash.index R s.comp.deep mask k = .ok i ∧
      s.hash.index R s.comp.deep mask k' = .ok i

/-- The components of a table are in the set. -/
def TableIn (D : Value → Prop) (h : HashObject) : Prop :=
  ∀ e ∈ h.table.ha.flatten, D e.1 ∧ D e.2

theorem tableIn_of_components {D : Value → Prop} {u : Addr} {h : HashObject}
    (hD : ∀ v ∈ (Object.hash u h).components, D v) : TableIn D h := fun e he =>
  ⟨hD e.1 (mem_entryParts.mpr ⟨e, he, Or.inl rfl⟩), hD e.2 (mem_entryParts.mpr ⟨e, he, Or.inr rfl⟩)⟩

theorem HashObject.mem_keysToList {h : HashObject} {k : Value} :
    k ∈ h.keysToList ↔ ∃ e ∈ h.table.ha.flatten, e.1 = k := by
  have hentries : h.entries = h.table.ha.flatten :=
    List.filter_eq_self.mpr fun e he => decide_eq_true (h.keys_ne_nil e he)
  rw [keysToList, List.mem_reverse, List.mem_map, hentries]

theorem HashObject.keysToList_ne_nil {h : HashObject} {k : Value} (hk : k ∈ h.keysToList) :
    k ≠ .nil := by
  obtain ⟨e, he, rfl⟩ := mem_keysToList.mp hk
  exact h.keys_ne_nil e he

section Tables

variable {R : Recursion} {D : Value → Prop} {s t o : HashObject}

theorem TableIn.key (hD : TableIn D s) {k : Value} (hk : k ∈ s.keysToList) : D k := by
  obtain ⟨e, he, rfl⟩ := HashObject.mem_keysToList.mp hk
  exact (hD e he).1

/-- The comparator answers, and is an equivalence. -/
theorem compare_equivalence (hR : R.EquivalenceOn D) {c : Comparator}
    (hc : ∀ f, c = .idio f → IsEquiv f) :
    (∀ x y, D x → D y → ∃ b, c.compare R x y = .ok b) ∧
      (∀ x, D x → c.compare R x x = .ok true) ∧
      (∀ x y, D x → D y → c.compare R x y = .ok true → c.compare R y x = .ok true) ∧
      ∀ x y z, D x → D y → D z → c.compare R x y = .ok true → c.compare R y z = .ok true →
        c.compare R x z = .ok true := by
  cases c with
  | C level => exact ⟨hR.total level, hR.refl level, hR.symm level, hR.trans level⟩
  | idio f =>
    have hf := hc f rfl
    simp only [Comparator.compare, Except.ok.injEq]
    exact ⟨fun x y _ _ => ⟨f x y, rfl⟩, fun x _ => hf.refl x, fun x y _ _ => hf.symm x y,
      fun x y z _ _ _ => hf.trans x y z⟩

/-- Equal keys compare alike with every key. -/
theorem compare_congr (hR : R.EquivalenceOn D) {c : Comparator}
    (hc : ∀ f, c = .idio f → IsEquiv f) {k k' e : Value} (hk : D k) (hk' : D k') (he : D e)
    (h : c.compare R k k' = .ok true) : c.compare R k e = c.compare R k' e := by
  obtain ⟨htotal, -, hsymm, htrans⟩ := compare_equivalence hR hc
  obtain ⟨b, hb⟩ := htotal k e hk he
  obtain ⟨b', hb'⟩ := htotal k' e hk' he
  have hiff : b = true ↔ b' = true := by
    constructor
    · rintro rfl
      have := htrans k' k e hk' hk he (hsymm k k' hk hk' h) hb
      rw [hb'] at this
      exact Except.ok.inj this
    · rintro rfl
      have := htrans k k' e hk hk' he h hb'
      rw [hb] at this
      exact Except.ok.inj this
  rw [hb, hb', Bool.eq_iff_iff.mpr hiff]

/-- **Looking up equal keys** is the same. -/
theorem he_eq_of_compare (hR : R.EquivalenceOn D) (hst : R.KeysAgree s t) (hs : TableIn D s)
    (ht : TableIn D t) (ho : TableIn D o) (hcomp : o.comp = s.comp) (hhash : o.hash = s.hash)
    {k k' : Value} (hk : k ∈ s.keysToList) (hk' : k' ∈ t.keysToList)
    (h : s.comp.compare R k k' = .ok true) (func : String) : o.he R func k = o.he R func k' := by
  obtain ⟨i, hi, hi'⟩ := hst.index k hk k' hk' h o.table.mask
  have hfind : findEntry (o.comp.compare R k) (o.table.bucket i) =
      findEntry (o.comp.compare R k') (o.table.bucket i) := by
    apply findEntry_congr
    intro e he
    have hmem := Table.mem_bucket_iff.mp ⟨i, he⟩
    rw [hcomp]
    exact compare_congr hR hst.equiv (hs.key hk) (ht.key hk') (ho e hmem).1 h
  simp only [HashObject.he, if_neg (HashObject.keysToList_ne_nil hk),
    if_neg (HashObject.keysToList_ne_nil hk'), hhash, hcomp, hi, hi', bind, Except.bind]
  rw [← hcomp]
  exact hfind

theorem exists_of_existsKey {k : Value} (h : o.existsKey R k = .ok true) :
    ∃ k' ∈ o.keysToList, o.comp.compare R k k' = .ok true := by
  unfold HashObject.existsKey HashObject.he at h
  split at h
  · cases h
  · cases hi : o.hash.index R o.comp.deep o.table.mask k with
    | error x =>
      rw [hi] at h
      cases h
    | ok i =>
      cases hf : findEntry (o.comp.compare R k) (o.table.bucket i) with
      | error x =>
        simp only [bind, Except.bind, hi, hf] at h
        cases h
      | ok r =>
        simp only [bind, Except.bind, hi, hf] at h
        cases r with
        | none => cases h
        | some e =>
          obtain ⟨hmem, hcmp⟩ := findEntry_mem hf
          exact ⟨e.1, HashObject.mem_keysToList.mpr
            ⟨e, Table.mem_bucket_iff.mp ⟨i, hmem⟩, rfl⟩, hcmp⟩

theorem existsKey_congr {k k' : Value} (h : ∀ func, o.he R func k = o.he R func k') :
    o.existsKey R k = o.existsKey R k' := by
  rw [HashObject.existsKey, HashObject.existsKey, h]

theorem ref_congr {k k' : Value} (h : ∀ func, o.he R func k = o.he R func k') :
    o.ref R k = o.ref R k' := by
  rw [HashObject.ref, HashObject.ref, h]

/-- What a look-up in a table of the set returns. -/
theorem TableIn.ref (hunspec : D .unspec) (ho : TableIn D o) {k v : Value}
    (hv : o.ref R k = .ok v) : D v := by
  rcases @HashObject.ref_components R o k v hv 0 with rfl | hmem
  · exact hunspec
  · obtain ⟨e, he, rfl | rfl⟩ := mem_entryParts.mp hmem
    · exact (ho e he).1
    · exact (ho e he).2

/-- Values that are equal in two tables, and in the second and a third. -/
theorem ValuesEqual.trans (hR : R.EquivalenceOn D) (hunspec : D .unspec) {level : EqualLevel}
    (hs : TableIn D s) (ht : TableIn D t) (ho : TableIn D o) {k : Value}
    (h : ValuesEqual R level s t k) (h' : ValuesEqual R level t o k) :
    ValuesEqual R level s o k := by
  obtain ⟨v, w, hv, hw, heq⟩ := h
  obtain ⟨w', u, hw', hu, heq'⟩ := h'
  rw [hw] at hw'
  cases hw'
  exact ⟨v, u, hv, hu, hR.trans level v w u (hs.ref hunspec hv) (ht.ref hunspec hw)
    (ho.ref hunspec hu) heq heq'⟩

/-- **Equality of tables is transitive.**  A key of `s` is found in `t` as `k'`, and
`k'` in `o`; there the first key finds what `k'` does. -/
theorem TablesEqual.trans (hR : R.EquivalenceOn D) (hunspec : D .unspec) {level : EqualLevel}
    (hst : R.KeysAgree s t) (hto : R.KeysAgree t o) (hot : R.KeysAgree o t) (hs : TableIn D s)
    (ht : TableIn D t) (ho : TableIn D o) (h : TablesEqual R level s t)
    (h' : TablesEqual R level t o) : TablesEqual R level s o := by
  refine ⟨h.count.trans h'.count, fun k hk => ?_, fun k hk => ?_⟩
  · obtain ⟨hexists, hvalues⟩ := h.left k hk
    obtain ⟨k', hk', hcmp⟩ := exists_of_existsKey hexists
    rw [← hst.comp] at hcmp
    obtain ⟨hexists', hvalues'⟩ := h'.left k' hk'
    have hsame : ∀ func, o.he R func k = o.he R func k' :=
      he_eq_of_compare hR hst hs ht ho (by rw [hst.comp, hto.comp]) (by rw [hst.hash, hto.hash])
        hk hk' hcmp
    have hsame' : ∀ func, t.he R func k = t.he R func k' :=
      he_eq_of_compare hR hst hs ht ht hst.comp.symm hst.hash.symm hk hk' hcmp
    refine ⟨by rw [existsKey_congr hsame, hexists'], hvalues.trans hR hunspec hs ht ho ?_⟩
    obtain ⟨v, w, hv, hw, heq⟩ := hvalues'
    exact ⟨v, w, by rw [ref_congr hsame', hv], by rw [ref_congr hsame, hw], heq⟩
  · obtain ⟨hexists, hvalues⟩ := h'.right k hk
    obtain ⟨k', hk', hcmp⟩ := exists_of_existsKey hexists
    rw [hto.comp] at hcmp
    obtain ⟨hexists', hvalues'⟩ := h.right k' hk'
    have hsame : ∀ func, s.he R func k = s.he R func k' :=
      he_eq_of_compare hR hot ho ht hs (by rw [hst.comp, hto.comp]) (by rw [hst.hash, hto.hash])
        hk hk' hcmp
    have hsame' : ∀ func, t.he R func k = t.he R func k' :=
      he_eq_of_compare hR hot ho ht ht hto.comp hto.hash hk hk' hcmp
    refine ⟨by rw [existsKey_congr hsame, hexists'], ValuesEqual.trans hR hunspec hs ht ho ?_ hvalues⟩
    obtain ⟨v, w, hv, hw, heq⟩ := hvalues'
    exact ⟨v, w, by rw [ref_congr hsame, hv], by rw [ref_congr hsame', hw], heq⟩

/-! ### Answers -/

theorem andAlso_total {r r' : Result Bool} (hr : ∃ b, r = .ok b) (hr' : ∃ b, r' = .ok b) :
    ∃ b, andAlso r r' = .ok b := by
  obtain ⟨b, rfl⟩ := hr
  cases b with
  | true => exact hr'
  | false => exact ⟨false, rfl⟩

theorem allEqual_total {eq : Value → Value → Result Bool}
    (h : ∀ x y, D x → D y → ∃ b, eq x y = .ok b) {xs ys : List Value}
    (hlen : xs.length = ys.length) (hx : ∀ x ∈ xs, D x) (hy : ∀ y ∈ ys, D y) :
    ∃ b, allEqual eq xs ys = .ok b := by
  induction xs generalizing ys with
  | nil => exact ⟨true, rfl⟩
  | cons x xs ih =>
    cases ys with
    | nil => cases hlen
    | cons y ys =>
      rw [List.forall_mem_cons] at hx hy
      exact andAlso_total (h x y hx.1 hy.1) (ih (Nat.succ.inj hlen) hx.2 hy.2)

theorem findEntry_total {f : Value → Result Bool} {es : List (Value × Value)}
    (h : ∀ e ∈ es, ∃ b, f e.1 = .ok b) : ∃ r, findEntry f es = .ok r := by
  induction es with
  | nil => exact ⟨none, rfl⟩
  | cons e es ih =>
    rw [List.forall_mem_cons] at h
    obtain ⟨b, hb⟩ := h.1
    rw [findEntry, hb]
    cases b with
    | true => exact ⟨some e, rfl⟩
    | false => exact ih h.2

/-- A key of one table is looked up in another with an answer. -/
theorem he_total (hR : R.EquivalenceOn D) (hss : R.KeysAgree s s) (hs : TableIn D s)
    (ho : TableIn D o) (hcomp : o.comp = s.comp) (hhash : o.hash = s.hash) {k : Value}
    (hk : k ∈ s.keysToList) (func : String) : ∃ r, o.he R func k = .ok r := by
  obtain ⟨htotal, hrefl, -, -⟩ := compare_equivalence hR hss.equiv
  obtain ⟨i, hi, -⟩ := hss.index k hk k hk (hrefl k (hs.key hk)) o.table.mask
  simp only [HashObject.he, if_neg (HashObject.keysToList_ne_nil hk), hhash, hcomp, hi, bind,
    Except.bind]
  apply findEntry_total
  intro e he
  exact htotal k e.1 (hs.key hk) (ho e (Table.mem_bucket_iff.mp ⟨i, he⟩)).1

theorem keysMatch_total (hR : R.EquivalenceOn D) (hunspec : D .unspec) (level : EqualLevel)
    {o1 o2 other : HashObject} (h1 : TableIn D o1) (h2 : TableIn D o2) {kl : List Value}
    (hhe : ∀ k ∈ kl, ∀ func, (∃ r, o1.he R func k = .ok r) ∧ (∃ r, o2.he R func k = .ok r) ∧
      ∃ r, other.he R func k = .ok r) :
    ∃ b, keysMatch R level o1 o2 other kl = .ok b := by
  induction kl with
  | nil => exact ⟨true, rfl⟩
  | cons k kl ih =>
    rw [List.forall_mem_cons] at hhe
    have hexists : ∃ b, other.existsKey R k = .ok b := by
      obtain ⟨-, -, r, hr⟩ := hhe.1 "hash-exists?"
      exact ⟨r.isSome, by rw [HashObject.existsKey, hr]; rfl⟩
    obtain ⟨⟨r1, hr1⟩, ⟨r2, hr2⟩, -⟩ := hhe.1 "hash-ref"
    have href1 : o1.ref R k = .ok ((r1.map Prod.snd).getD .unspec) := by
      rw [HashObject.ref, hr1]
      rfl
    have href2 : o2.ref R k = .ok ((r2.map Prod.snd).getD .unspec) := by
      rw [HashObject.ref, hr2]
      rfl
    rw [keysMatch, href1, href2]
    exact andAlso_total hexists (andAlso_total
      (hR.total level _ _ (h1.ref hunspec href1) (h2.ref hunspec href2)) (ih hhe.2))

theorem hashEqual_total (hR : R.EquivalenceOn D) (hunspec : D .unspec) (level : EqualLevel)
    (hss : R.KeysAgree s s) (htt : R.KeysAgree t t) (hst : R.KeysAgree s t) (hs : TableIn D s)
    (ht : TableIn D t) : ∃ b, hashEqual R level s t = .ok b := by
  unfold hashEqual
  split
  · exact ⟨false, rfl⟩
  · apply andAlso_total
    · exact keysMatch_total hR hunspec level hs ht fun k hk func =>
        ⟨he_total hR hss hs hs rfl rfl hk func,
          he_total hR hss hs ht hst.comp.symm hst.hash.symm hk func,
          he_total hR hss hs ht hst.comp.symm hst.hash.symm hk func⟩
    · exact keysMatch_total hR hunspec level hs ht fun k hk func =>
        ⟨he_total hR htt ht hs hst.comp hst.hash hk func, he_total hR htt ht ht rfl rfl hk func,
          he_total hR htt ht hs hst.comp hst.hash hk func⟩

end Tables

/-! ## Objects -/

theorem sameKind_trans {f g k : StringFlags} (h : f.sameKind g = true) (h' : g.sameKind k = true) :
    f.sameKind k = true := by
  unfold StringFlags.sameKind at *
  simp only [Bool.and_eq_true, beq_iff_eq] at *
  obtain ⟨⟨⟨h1, h2⟩, h3⟩, h4⟩ := h
  obtain ⟨⟨⟨h1', h2'⟩, h3'⟩, h4'⟩ := h'
  exact ⟨⟨⟨h1.trans h1', h2.trans h2'⟩, h3.trans h3'⟩, h4.trans h4'⟩

section Objects

variable {R : Recursion} {D : Value → Prop} {level : EqualLevel} {o p q : Object}

/-- The tables among three objects agree with each other. -/
def TablesAgree (R : Recursion) (os : List Object) : Prop :=
  ∀ u v s t, Object.hash u s ∈ os → Object.hash v t ∈ os → R.KeysAgree s t

/-- **Equality of distinct data objects is transitive**, the comparison of bignums
apart. -/
theorem DataEqual.trans (hR : R.EquivalenceOn D) (hunspec : D .unspec)
    (ho : ∀ v ∈ o.components, D v) (hp : ∀ v ∈ p.components, D v) (hq : ∀ v ∈ q.components, D v)
    (hbignum : level = .eqp ∨ ∀ bn sig, p ≠ .bignum bn sig)
    (hkinds : (∃ s, p = .string s) ∨
      ∀ s t, o = .string s → q = .string t → s.flags.sameKind t.flags = true)
    (htables : TablesAgree R [o, p, q]) (h : DataEqual R level o p)
    (h' : DataEqual R level p q) : DataEqual R level o q := by
  cases h with
  | @text _ _ s1 s2 hl h1 h2 hchars hkind =>
    cases h' with
    | @text _ _ s2' s3 hl' h2' h3 hchars' hkind' =>
      rw [h2] at h2'
      cases h2'
      refine .text hl h1 h3 (hchars.trans hchars') fun t1 t3 e1 e3 => ?_
      rcases hkinds with ⟨t2, e2⟩ | hkinds
      · exact sameKind_trans (hkind t1 t2 e1 e2) (hkind' t2 t3 e2 e3)
      · exact hkinds t1 t3 e1 e3
    | _ => cases h2
  | @pair h1 t1 h2 t2 hl hh ht =>
    cases h' with
    | @pair _ _ h3 t3 hl' hh' ht' =>
      simp only [Object.components, List.forall_mem_cons] at ho hp hq
      exact .pair hl (hR.trans level h1 h2 h3 ho.1 hp.1 hq.1 hh hh')
        (hR.trans level t1 t2 t3 ho.2.1 hp.2.1 hq.2.1 ht ht')
    | text _ h2 => cases h2
  | arrayIdentity hl =>
    cases h' with
    | arrayIdentity => exact .arrayIdentity hl
    | array hl' => exact absurd hl' hl
    | text _ h2 => cases h2
  | array hl h =>
    cases h' with
    | arrayIdentity hl' => exact absurd hl hl'
    | array hl' h' => exact .array hl (forall₂_trans (hR.trans level) ho hp hq h h')
    | text _ h2 => cases h2
  | hashIdentity hl =>
    cases h' with
    | hashIdentity => exact .hashIdentity hl
    | hash hl' => exact absurd hl' hl
    | text _ h2 => cases h2
  | @hash u1 u2 t1 t2 hl h =>
    cases h' with
    | hashIdentity hl' => exact absurd hl hl'
    | @hash _ u3 _ t3 hl' h' =>
      exact .hash hl (h.trans hR hunspec (htables u1 u2 t1 t2 (by simp) (by simp))
        (htables u2 u3 t2 t3 (by simp) (by simp)) (htables u3 u2 t3 t2 (by simp) (by simp))
        (tableIn_of_components ho) (tableIn_of_components hp) (tableIn_of_components hq) h')
    | text _ h2 => cases h2
  | @bignumIdentity sig bn1 bn2 hl =>
    cases h' with
    | bignumIdentity => exact .bignumIdentity hl
    | bignum hl' => exact absurd hl hl'
    | text _ h2 => cases h2
  | @bignum sig1 sig2 bn1 bn2 hl h =>
    rcases hbignum with hl' | hp
    · exact absurd hl' hl
    · exact absurd rfl (hp bn2 sig2)
  | bitset hl h =>
    cases h' with
    | bitset hl' h' => exact .bitset hl (equalBitset_trans h h')
    | text _ h2 => cases h2

/-- **The comparison of distinct data objects answers.** -/
theorem objectEqual_total (hR : R.EquivalenceOn D) (hunspec : D .unspec) (a b : Addr)
    (hodata : o.isData = true) (ho : ∀ v ∈ o.components, D v) (hp : ∀ v ∈ p.components, D v)
    (hbignums : ∀ bn1 sig1 bn2 sig2, o = .bignum bn1 sig1 → p = .bignum bn2 sig2 →
      ∃ c, realEqualP bn1 bn2 = .ok c)
    (htables : TablesAgree R [o, p]) : ∃ c, objectEqual R level a b o p = .ok c := by
  have hok : ∀ c : Bool, ∃ d, (Except.ok c : Result Bool) = .ok d := fun c => ⟨c, rfl⟩
  unfold objectEqual
  split
  case h_7 h1 t1 h2 t2 =>
    simp only [Object.components, List.forall_mem_cons] at ho hp
    split
    · exact hok _
    · exact andAlso_total (hR.total level h1 h2 ho.1 hp.1) (hR.total level t1 t2 ho.2.1 hp.2.1)
  case h_8 u1 ae1 u2 ae2 =>
    split
    · exact hok _
    · split
      · exact hok _
      · rename_i hlen
        exact allEqual_total (hR.total level) (not_not.mp hlen) ho hp
  case h_9 u1 t1 u2 t2 =>
    split
    · exact hok _
    · exact hashEqual_total hR hunspec level (htables u1 u1 t1 t1 (by simp) (by simp))
        (htables u2 u2 t2 t2 (by simp) (by simp)) (htables u1 u2 t1 t2 (by simp) (by simp))
        (tableIn_of_components ho) (tableIn_of_components hp)
  case h_12 bn1 sig1 bn2 sig2 =>
    split
    · exact hok _
    · exact hbignums bn1 sig1 bn2 sig2 rfl rfl
  case h_19 => cases hodata
  case h_21 => cases hodata
  case h_22 => cases hodata
  all_goals
    repeat' split
    all_goals exact hok _

end Objects

/-! ## Values -/

/-- The answer for a number says that the other value is one too. -/
theorem number_of_valueEqual {R : Recursion} {H : Heap} {D : Value → Prop} (hD : DataSet H D)
    {level : EqualLevel} (hl : level ≠ .eqp) {x y : Value} (hx : D x) (hxy : x ≠ y) {n : Num}
    (hn : numberOf H y = some n) (h : valueEqual R H level x y = .ok true) :
    ∃ m, numberOf H x = some m ∧ Num.eq m [n] = .ok true := by
  by_cases hpair : ∃ a b, x = .pointer a ∧ y = .pointer b
  · obtain ⟨a, b, rfl, rfl⟩ := hpair
    obtain ⟨bn, sig, hb, rfl⟩ := numberOf_pointer hn
    have hab : a ≠ b := fun hab => hxy (by rw [hab])
    have hdata := h
    rw [valueEqual_pointers _ _ _ hab, objectEqual_data hab (hD.data a hx), hb] at hdata
    generalize ha : H a = o at hdata
    cases hdata with
    | bignumIdentity hl' => exact absurd hl' hl
    | @bignum sig1 _ bn1 _ _ heq =>
      have hm : numberOf H (.pointer a) = some (.bignum bn1) := by
        simp only [numberOf, ha]
      refine ⟨_, hm, ?_⟩
      rw [← valueEqual_numbers hl hxy hm hn, h]
    | text _ _ h2 => cases h2
  · obtain ⟨-, m, n', hm, hn'⟩ :=
      valueEqual_fixnum hxy (fun a b ha hb => hpair ⟨a, b, ha, hb⟩) h
    rw [hn] at hn'
    cases hn'
    exact ⟨m, hm, by rw [← valueEqual_numbers hl hxy hm hn, h]⟩

/-! ## Regular data -/

/-- Two tables with the same functions, and a hash function that equal keys agree on
for every mask. -/
structure TablesRegular (H : Heap) (s t : HashObject) : Prop where
  comp : s.comp = t.comp
  hash : s.hash = t.hash
  equiv : ∀ f, s.comp = .idio f → IsEquiv f
  index : ∀ k ∈ s.keysToList, ∀ k' ∈ t.keysToList,
    (∀ᶠ n in Filter.atTop, s.comp.compare (recursion H n) k k' = .ok true) →
      ∀ mask, ∃ i, ∀ᶠ n in Filter.atTop,
        s.hash.index (recursion H n) s.comp.deep mask k = .ok i ∧
          s.hash.index (recursion H n) s.comp.deep mask k' = .ok i

/-- Data on which `equal?` is transitive: numbers that compare by their values, no
substring or strings of one kind only, and hash tables with one comparator that the
hash function agrees with. -/
structure Regular (H : Heap) (D : Value → Prop) : Prop where
  numbers : NumbersComparable H D
  strings : (∀ a parent offset len inside, D (.pointer a) →
      H a ≠ .substring parent offset len inside) ∨
    ∀ a b s t, D (.pointer a) → D (.pointer b) → H a = .string s → H b = .string t →
      s.flags.sameKind t.flags = true
  tables : ∀ a b u v s t, D (.pointer a) → D (.pointer b) → H a = .hash u s → H b = .hash v t →
    TablesRegular H s t

/-- What a stable sequence is in the end, it is as soon as it is stable. -/
theorem eventually_iff_of_stable {α : Type} {f : Nat → α} {d : Nat}
    (hf : ∀ n, d < n → f (n + 1) = f n) (P : α → Prop) {n : Nat} (hn : d < n) :
    (∀ᶠ m in Filter.atTop, P (f m)) ↔ P (f n) := by
  have hconst : ∀ k, f (n + k) = f n := by
    intro k
    induction k with
    | zero => rfl
    | succ k ih => rw [← Nat.add_assoc, hf (n + k) (by omega), ih]
  rw [Filter.eventually_atTop]
  constructor
  · rintro ⟨m, hm⟩
    have := hm (n + m) (by omega)
    rwa [hconst] at this
  · intro h
    refine ⟨n, fun m hm => ?_⟩
    obtain ⟨k, rfl⟩ := Nat.exists_eq_add_of_le hm
    rwa [hconst]

section Induction

variable {A : AcyclicHeap} {D : Value → Prop}

/-- With fuel for the keys, the recursion does what tables that are regular need. -/
theorem keysAgree_of_regular {s t : HashObject} (h : TablesRegular A.heap s t) {n : Nat}
    (hs : ∀ k ∈ s.keysToList, A.depth k < n) (ht : ∀ k ∈ t.keysToList, A.depth k < n) :
    (recursion A.heap n).KeysAgree s t := by
  refine ⟨h.comp, h.hash, h.equiv, fun k hk k' hk' hcmp mask => ?_⟩
  have hmax : max (A.depth k) (A.depth k') < n := Nat.max_lt.mpr ⟨hs k hk, ht k' hk'⟩
  have hcompare : ∀ m, max (A.depth k) (A.depth k') < m →
      s.comp.compare (recursion A.heap (m + 1)) k k' =
        s.comp.compare (recursion A.heap m) k k' := by
    intro m hm
    unfold Comparator.compare
    split
    · exact idioEqual_stable A _ (lt_of_le_of_lt (Nat.le_max_left _ _) hm)
        (lt_of_le_of_lt (Nat.le_max_right _ _) hm)
    · rfl
  have hindex : ∀ c, A.depth c ≤ max (A.depth k) (A.depth k') → ∀ m,
      max (A.depth k) (A.depth k') < m →
      s.hash.index (recursion A.heap (m + 1)) s.comp.deep mask c =
        s.hash.index (recursion A.heap m) s.comp.deep mask c := by
    intro c hc m hm
    unfold Hasher.index
    split
    · exact congrArg (Except.map BitVec.toNat)
        (defaultHashC_stable A s.comp.deep _ (lt_of_le_of_lt hc hm))
    · rfl
  have hequal := (@eventually_iff_of_stable (Result Bool)
    (fun m => s.comp.compare (recursion A.heap m) k k') _ hcompare
    (fun r => r = .ok true) n hmax).mpr hcmp
  obtain ⟨i, hi⟩ := h.index k hk k' hk' hequal mask
  have hnow : ∀ c, A.depth c ≤ max (A.depth k) (A.depth k') →
      (∀ᶠ m in Filter.atTop, s.hash.index (recursion A.heap m) s.comp.deep mask c = .ok i) →
      s.hash.index (recursion A.heap n) s.comp.deep mask c = .ok i := fun c hc =>
    (@eventually_iff_of_stable (Result Nat)
      (fun m => s.hash.index (recursion A.heap m) s.comp.deep mask c) _ (hindex c hc)
      (fun r => r = .ok i) n hmax).mp
  exact ⟨i, hnow k (Nat.le_max_left _ _) (hi.mono fun _ h => h.1),
    hnow k' (Nat.le_max_right _ _) (hi.mono fun _ h => h.2)⟩

/-- The tables among objects of the set agree. -/
theorem tablesAgree_of_regular (hD : Regular A.heap D) {n : Nat} {as : List Addr}
    (has : ∀ a ∈ as, D (.pointer a) ∧ A.depth (.pointer a) < n + 1) :
    TablesAgree (recursion A.heap n) (as.map A.heap) := by
  intro u v s t hs ht
  obtain ⟨a, ha, hs⟩ := List.mem_map.mp hs
  obtain ⟨b, hb, ht⟩ := List.mem_map.mp ht
  apply keysAgree_of_regular (hD.tables a b u v s t (has a ha).1 (has b hb).1 hs ht)
  · intro k hk
    apply A.depth_lt (has a ha).2
    rw [hs]
    exact s.keysToList_components hk
  · intro k hk
    apply A.depth_lt (has b hb).2
    rw [ht]
    exact t.keysToList_components hk

/-- The components of an object of the set, with the fuel for them. -/
theorem components_of_depth (hset : DataSet A.heap D) {n : Nat} {a : Addr}
    (ha : D (.pointer a) ∧ A.depth (.pointer a) < n + 1) :
    ∀ v ∈ (A.heap a).components, D v ∧ A.depth v < n :=
  fun v hv => ⟨hset.closed a ha.1 v hv, A.depth_lt ha.2 hv⟩

/-- With fuel for an object there is fuel for `#<unspec>`. -/
theorem unspec_of_depth (hset : DataSet A.heap D) {n : Nat} {a : Addr}
    (ha : A.depth (.pointer a) < n + 1) : D .unspec ∧ A.depth .unspec < n := by
  refine ⟨hset.unspec, ?_⟩
  simp only [AcyclicHeap.depth, Value.depth, Value.unspec] at *
  omega

section Step

variable (hset : DataSet A.heap D) (hD : Regular A.heap D) {n : Nat}
  (hR : (recursion A.heap n).EquivalenceOn fun v => D v ∧ A.depth v < n)

include hset hD hR

theorem valueEqual_total (level : EqualLevel) {x y : Value} (hx : D x ∧ A.depth x < n + 1)
    (hy : D y ∧ A.depth y < n + 1) :
    ∃ b, valueEqual (recursion A.heap n) A.heap level x y = .ok b := by
  obtain ⟨key, hkey⟩ := hD.numbers.key
  by_cases hxy : x = y
  · exact ⟨true, by rw [hxy, valueEqual_self]⟩
  have hnumber : ∀ m k, level ≠ .eqp → numberOf A.heap x = some m → numberOf A.heap y = some k →
      ∃ b, valueEqual (recursion A.heap n) A.heap level x y = .ok b := by
    intro m k hl hm hk
    exact ⟨_, by rw [valueEqual_numbers hl hxy hm hk, hkey _ _ _ _ hx.1 hy.1 hm hk]⟩
  cases x with
  | constant w => exact ⟨false, by rw [valueEqual, if_neg hxy]⟩
  | fixnum v =>
    cases y with
    | constant w => exact ⟨false, by rw [valueEqual, if_neg hxy]⟩
    | fixnum w => exact ⟨false, by rw [valueEqual, if_neg hxy]⟩
    | pointer b =>
      by_cases hl : level = .eqp
      · exact ⟨false, by simp [valueEqual, hl]⟩
      have hdata := hset.data b hy.1
      cases hb : A.heap b with
      | bignum bn sig => exact hnumber _ _ hl rfl (by simp only [numberOf, hb]; rfl)
      | _ =>
        first
          | (rw [hb] at hdata; cases hdata; done)
          | exact ⟨false, by simp [valueEqual, hl, hb, Object.isCNumber]⟩
  | pointer a =>
    cases y with
    | constant w => exact ⟨false, by rw [valueEqual, if_neg hxy]⟩
    | fixnum w =>
      by_cases hl : level = .eqp
      · exact ⟨false, by simp [valueEqual, hl]⟩
      cases ha : A.heap a with
      | bignum bn sig => exact hnumber _ _ hl (by simp only [numberOf, ha]; rfl) rfl
      | _ => exact ⟨false, by simp [valueEqual, hl, ha]⟩
    | pointer b =>
      have hab : a ≠ b := fun hab => hxy (by rw [hab])
      rw [valueEqual_pointers _ _ _ hab]
      refine objectEqual_total hR (unspec_of_depth hset hx.2) a b (hset.data a hx.1)
        (components_of_depth hset hx) (components_of_depth hset hy)
        (fun bn1 sig1 bn2 sig2 h1 h2 => ?_)
        (@tablesAgree_of_regular _ _ hD _ [a, b] (by
          rw [List.forall_mem_cons, List.forall_mem_singleton]
          exact ⟨hx, hy⟩))
      have hm : numberOf A.heap (.pointer a) = some (.bignum bn1) := by simp only [numberOf, h1]
      have hk : numberOf A.heap (.pointer b) = some (.bignum bn2) := by simp only [numberOf, h2]
      have heq := hkey _ _ _ _ hx.1 hy.1 hm hk
      rw [num_eq_pair] at heq
      exact ⟨_, heq⟩

theorem valueEqual_trans (level : EqualLevel) {x y z : Value} (hx : D x ∧ A.depth x < n + 1)
    (hy : D y ∧ A.depth y < n + 1) (hz : D z ∧ A.depth z < n + 1)
    (h : valueEqual (recursion A.heap n) A.heap level x y = .ok true)
    (h' : valueEqual (recursion A.heap n) A.heap level y z = .ok true) :
    valueEqual (recursion A.heap n) A.heap level x z = .ok true := by
  obtain ⟨key, hkey⟩ := hD.numbers.key
  by_cases hxy : x = y
  · rwa [hxy]
  by_cases hyz : y = z
  · rwa [← hyz]
  by_cases hxz : x = z
  · rw [hxz, valueEqual_self]
  by_cases hnumber : level ≠ .eqp ∧ ∃ k, numberOf A.heap y = some k
  · -- Numbers have equal keys.
    obtain ⟨hl, k, hk⟩ := hnumber
    obtain ⟨m, hm, heq⟩ := number_of_valueEqual hset hl hx.1 hxy hk h
    obtain ⟨l, hl', heq'⟩ := number_of_valueEqual hset hl hz.1 (Ne.symm hyz) hk
      (by
        have hsymm := @idioEqual_symm A.heap D hset (n + 1) level y z hy.1 hz.1
        exact hsymm h')
    rw [hkey _ _ _ _ hx.1 hy.1 hm hk] at heq
    rw [hkey _ _ _ _ hz.1 hy.1 hl' hk] at heq'
    rw [valueEqual_numbers hl hxz hm hl', hkey _ _ _ _ hx.1 hz.1 hm hl']
    have h1 : key m = key k := of_decide_eq_true (Except.ok.inj heq)
    have h2 : key l = key k := of_decide_eq_true (Except.ok.inj heq')
    simp [h1, h2]
  · -- Otherwise all three are objects.
    have hpointers : ∀ v w, v ≠ w → (v = y ∨ w = y) →
        valueEqual (recursion A.heap n) A.heap level v w = .ok true →
        ∃ a b, v = .pointer a ∧ w = .pointer b := by
      intro v w hvw hyvw heq
      by_contra hnot
      obtain ⟨hl, m, k, hm, hk⟩ :=
        valueEqual_fixnum hvw (fun a b ha hb => hnot ⟨a, b, ha, hb⟩) heq
      rcases hyvw with rfl | rfl
      · exact hnumber ⟨hl, m, hm⟩
      · exact hnumber ⟨hl, k, hk⟩
    obtain ⟨a, b, rfl, rfl⟩ := hpointers x y hxy (Or.inr rfl) h
    obtain ⟨b', c, hb', rfl⟩ := hpointers (.pointer b) z hyz (Or.inl rfl) h'
    have hab : a ≠ b := fun hab => hxy (by rw [hab])
    have hbc : b ≠ c := fun hbc => hyz (by rw [hbc])
    have hac : a ≠ c := fun hac => hxz (by rw [hac])
    rw [valueEqual_pointers _ _ _ hab, objectEqual_data hab (hset.data a hx.1)] at h
    rw [valueEqual_pointers _ _ _ hbc, objectEqual_data hbc (hset.data b hy.1)] at h'
    rw [valueEqual_pointers _ _ _ hac, objectEqual_data hac (hset.data a hx.1)]
    refine h.trans hR (unspec_of_depth hset hx.2) (components_of_depth hset hx)
      (components_of_depth hset hy) (components_of_depth hset hz) ?_ ?_
      (@tablesAgree_of_regular _ _ hD _ [a, b, c] ?_) h'
    · by_cases hl : level = .eqp
      · exact Or.inl hl
      · refine Or.inr fun bn sig hbn => hnumber ⟨hl, .bignum bn, ?_⟩
        simp only [numberOf, hbn]
    · rcases hD.strings with hsub | hkind
      · cases hb : A.heap b with
        | string s => exact Or.inl ⟨s, rfl⟩
        | substring parent offset len inside =>
          exact absurd hb (hsub b parent offset len inside hy.1)
        | _ =>
          rw [hb] at h
          refine Or.inr fun s t hs ht => ?_
          rw [hs] at h
          cases h with
          | text hl h1 h2 hc hk => cases h2
      · exact Or.inr fun s t hs ht => hkind a c s t hx.1 hz.1 hs ht
    · rw [List.forall_mem_cons, List.forall_mem_cons, List.forall_mem_singleton]
      exact ⟨hx, hy, hz⟩

end Step

/-- **The induction**: on regular data, with fuel for it, comparisons answer and the
answer `#t` is an equivalence. -/
theorem recursion_equivalence (hset : DataSet A.heap D) (hD : Regular A.heap D) (n : Nat) :
    (recursion A.heap n).EquivalenceOn fun v => D v ∧ A.depth v < n := by
  induction n with
  | zero =>
    refine ⟨fun _ x _ hx _ => ?_, fun _ x hx => ?_, fun _ x _ hx _ => ?_, fun _ x _ _ hx _ _ => ?_⟩
      <;> exact absurd hx.2 (Nat.not_lt_zero _)
  | succ n ih =>
    exact ⟨fun level x y hx hy => valueEqual_total hset hD ih level hx hy,
      fun level x _ => valueEqual_self _ _ _ _,
      fun level x y hx hy => idioEqual_symm hset (n + 1) level hx.1 hy.1,
      fun level x y z hx hy hz => valueEqual_trans hset hD ih level hx hy hz⟩

end Induction

/-! ## `equal?` -/

/-- The comparison answers `#t`, with enough fuel. -/
def Equal (H : Heap) (level : EqualLevel) (x y : Value) : Prop :=
  ∀ᶠ n in Filter.atTop, idioEqual H n level x y = .ok true

/-- The values that some values are built from, and `#<unspec>`. -/
def BuiltFrom (H : Heap) (roots : List Value) (v : Value) : Prop :=
  v = .unspec ∨ ∃ r ∈ roots, Relation.ReflTransGen (fun v w => w ∈ components H v) r v

/-- Values built from data objects only. -/
def IsData (H : Heap) (roots : List Value) : Prop :=
  ∀ a, BuiltFrom H roots (.pointer a) → (H a).isData = true

theorem builtFrom_root {H : Heap} {roots : List Value} {v : Value} (hv : v ∈ roots) :
    BuiltFrom H roots v := Or.inr ⟨v, hv, Relation.ReflTransGen.refl⟩

theorem IsData.dataSet {H : Heap} {roots : List Value} (h : IsData H roots) :
    DataSet H (BuiltFrom H roots) := by
  refine ⟨fun a ha v hv => ?_, h, Or.inl rfl⟩
  rcases ha with ha | ⟨r, hr, hreach⟩
  · cases ha
  · exact Or.inr ⟨r, hr, hreach.tail hv⟩

/-- **`equal?` on data** is reflexive and symmetric; on regular data that is not
circular it answers, and is transitive. -/
theorem equal_equivalence (H : Heap) (x y z : Value) (hdata : IsData H [x, y, z]) :
    Equal H .equalp x x ∧ (Equal H .equalp x y → Equal H .equalp y x) ∧
      ((∃ A : AcyclicHeap, A.heap = H) → Regular H (BuiltFrom H [x, y, z]) →
        (∃ b, ∀ᶠ n in Filter.atTop, idioEqual H n .equalp x y = .ok b) ∧
          (Equal H .equalp x y → Equal H .equalp y z → Equal H .equalp x z)) := by
  have hset := hdata.dataSet
  have hx : BuiltFrom H [x, y, z] x := builtFrom_root (by simp)
  have hy : BuiltFrom H [x, y, z] y := builtFrom_root (by simp)
  have hz : BuiltFrom H [x, y, z] z := builtFrom_root (by simp)
  refine ⟨?_, fun h => ?_, ?_⟩
  · filter_upwards [Filter.eventually_gt_atTop 0] with n hn
    obtain ⟨m, rfl⟩ := Nat.exists_eq_succ_of_ne_zero (Nat.ne_of_gt hn)
    exact valueEqual_self _ _ _ _
  · filter_upwards [h] with n hn
    exact idioEqual_symm hset n .equalp hx hy hn
  · rintro ⟨A, rfl⟩ hreg
    have hinduction := recursion_equivalence hset hreg
    constructor
    · obtain ⟨b, hb⟩ := (hinduction (max (A.depth x) (A.depth y) + 1)).total .equalp x y
        ⟨hx, by omega⟩ ⟨hy, by omega⟩
      have hstable : ∀ n, max (A.depth x) (A.depth y) < n →
          idioEqual A.heap (n + 1) .equalp x y = idioEqual A.heap n .equalp x y :=
        fun n hn => idioEqual_stable A .equalp (by omega) (by omega)
      exact ⟨b, (eventually_iff_of_stable hstable (fun r : Result Bool => r = .ok b)
        (Nat.lt_succ_self _)).mpr hb⟩
    · intro hxy hyz
      filter_upwards [hxy, hyz, Filter.eventually_gt_atTop (A.depth x),
        Filter.eventually_gt_atTop (A.depth y), Filter.eventually_gt_atTop (A.depth z)]
        with n h h' hdx hdy hdz
      exact (hinduction n).trans .equalp x y z ⟨hx, hdx⟩ ⟨hy, hdy⟩ ⟨hz, hdz⟩ h h'

/-- A pair of 1 and 2 at every address. -/
def pairHeap : Heap := fun _ => .pair (.fixnum 1) (.fixnum 2)

theorem equal_equivalence_pairs :
    Equal pairHeap .equalp (.pointer 16) (.pointer 16) ∧
      (Equal pairHeap .equalp (.pointer 16) (.pointer 32) →
        Equal pairHeap .equalp (.pointer 32) (.pointer 16)) ∧
      (∃ b, ∀ᶠ n in Filter.atTop, idioEqual pairHeap n .equalp (.pointer 16) (.pointer 32) =
        .ok b) ∧
      (Equal pairHeap .equalp (.pointer 16) (.pointer 32) →
        Equal pairHeap .equalp (.pointer 32) (.pointer 48) →
        Equal pairHeap .equalp (.pointer 16) (.pointer 48)) := by
  obtain ⟨hrefl, hsymm, hreg⟩ := equal_equivalence pairHeap (.pointer 16) (.pointer 32)
    (.pointer 48) fun _ _ => rfl
  refine ⟨hrefl, hsymm, hreg ⟨⟨pairHeap, fun _ => 0, fun a v hv => ?_⟩, rfl⟩ ⟨Or.inl ?_, ?_, ?_⟩⟩
  · have hv' : v = .fixnum 1 ∨ v = .fixnum 2 := by
      simpa [pairHeap, Object.components] using hv
    rcases hv' with rfl | rfl <;> exact Nat.le_refl _
  · intro v m hv hm
    cases v with
    | constant w => cases hm
    | pointer a => cases hm
    | fixnum i =>
      cases hm
      have hi : i = 1 ∨ i = 2 := by
        rcases hv with hv | ⟨r, hr, hreach⟩
        · cases hv
        · rcases hreach.cases_tail with rfl | ⟨w, -, hstep⟩
          · simp at hr
          · cases w with
            | pointer a => simpa [components, pairHeap, Object.components] using hstep
            | _ => cases hstep
      rcases hi with rfl | rfl
      · exact ⟨.fixnum 1 (by decide), rfl, trivial⟩
      · exact ⟨.fixnum 2 (by decide), rfl, trivial⟩
  · exact Or.inl fun a parent offset len inside _ h => by cases h
  · intro a b u v s t _ _ h
    cases h

/-- The real `1e18` at every address. -/
def realHeap : Heap :=
  fun a => .bignum (exactReal 18 1 (by decide) one_range (by decide)).bn a

/-- A real of one digit stands between two integers of 19. -/
theorem equal_not_transitive :
    ¬ ∀ (H : Heap) (x y z : Value), IsData H [x, y, z] →
      Equal H .equalp x x ∧ (Equal H .equalp x y → Equal H .equalp y x) ∧
        (Equal H .equalp x y → Equal H .equalp y z → Equal H .equalp x z) := by
  intro h
  obtain ⟨-, -, htrans⟩ := h realHeap (.fixnum (10 ^ 18)) (.pointer 16) (.fixnum (10 ^ 18 + 1))
    fun _ _ => rfl
  have hsucc : ∀ x y, (∀ n, idioEqual realHeap (n + 1) .equalp x y = .ok true) →
      Equal realHeap .equalp x y := by
    intro x y hxy
    filter_upwards [Filter.eventually_gt_atTop 0] with n hn
    obtain ⟨m, rfl⟩ := Nat.exists_eq_succ_of_ne_zero (Nat.ne_of_gt hn)
    exact hxy m
  have hequal := htrans (hsucc _ _ fun n => by rfl) (hsucc _ _ fun n => by rfl)
  obtain ⟨n, hn⟩ := (hequal.and (Filter.eventually_gt_atTop 0)).exists
  obtain ⟨m, rfl⟩ := Nat.exists_eq_succ_of_ne_zero (Nat.ne_of_gt hn.2)
  have hfalse : idioEqual realHeap (m + 1) .equalp (.fixnum (10 ^ 18)) (.fixnum (10 ^ 18 + 1)) =
      .ok false := rfl
  rw [hfalse] at hn
  cases hn.1

end Idio
