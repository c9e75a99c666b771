/-
  Value/Data.lean --- when two data values are equal.

  Data is built from numbers, characters and other constants, strings, substrings,
  symbols, keywords, pairs, arrays, hash tables and bitsets.  `DataEqual` has one
  constructor for each way two distinct data objects compare equal, and
  `objectEqual_data` says that there is no other.  What is proved of `equal?` on data
  goes through it: one case for each constructor.

  `Equal` is the answer `#t` with enough fuel.
-/
import Idio.Value.Equal
import Mathlib.Data.List.Forall2
import Mathlib.Order.Filter.AtTopBot.Basic

set_option autoImplicit false

namespace Idio

open Bignum

/-! ## Answers -/

theorem andAlso_eq_true {r s : Result Bool} :
    andAlso r s = .ok true ↔ r = .ok true ∧ s = .ok true := by
  rcases r with e | b
  · simp [andAlso, bind, Except.bind]
  · cases b <;> simp [andAlso, bind, Except.bind, pure, Except.pure]

theorem allEqual_eq_true {eq : Value → Value → Result Bool} {xs ys : List Value}
    (hlen : xs.length = ys.length) :
    allEqual eq xs ys = .ok true ↔ List.Forall₂ (fun x y => eq x y = .ok true) xs ys := by
  induction xs generalizing ys with
  | nil =>
    rw [List.eq_nil_of_length_eq_zero hlen.symm]
    simp [allEqual]
  | cons x xs ih =>
    cases ys with
    | nil => cases hlen
    | cons y ys =>
      rw [allEqual, andAlso_eq_true, ih (Nat.succ.inj hlen), List.forall₂_cons]

/-- The values of a key in two tables are equal. -/
def ValuesEqual (R : Recursion) (level : EqualLevel) (o1 o2 : HashObject) (k : Value) : Prop :=
  ∃ v w, o1.ref R k = .ok v ∧ o2.ref R k = .ok w ∧ R.equal level v w = .ok true

theorem keysMatch_eq_true {R : Recursion} {level : EqualLevel} {o1 o2 other : HashObject}
    {kl : List Value} : keysMatch R level o1 o2 other kl = .ok true ↔
      ∀ k ∈ kl, other.existsKey R k = .ok true ∧ ValuesEqual R level o1 o2 k := by
  induction kl with
  | nil => simp [keysMatch]
  | cons k kl ih =>
    have hvalues : (do
        let v1 ← o1.ref R k
        let v2 ← o2.ref R k
        R.equal level v1 v2) = .ok true ↔ ValuesEqual R level o1 o2 k := by
      unfold ValuesEqual
      cases o1.ref R k <;> cases o2.ref R k <;> simp [bind, Except.bind]
    rw [keysMatch, andAlso_eq_true, andAlso_eq_true, hvalues, ih, List.forall_mem_cons, and_assoc]

/-- Two tables with the same keys and equal values. -/
structure TablesEqual (R : Recursion) (level : EqualLevel) (o1 o2 : HashObject) : Prop where
  count : o1.table.count = o2.table.count
  left : ∀ k ∈ o1.keysToList, o2.existsKey R k = .ok true ∧ ValuesEqual R level o1 o2 k
  right : ∀ k ∈ o2.keysToList, o1.existsKey R k = .ok true ∧ ValuesEqual R level o1 o2 k

theorem hashEqual_eq_true {R : Recursion} {level : EqualLevel} {o1 o2 : HashObject} :
    hashEqual R level o1 o2 = .ok true ↔ TablesEqual R level o1 o2 := by
  unfold hashEqual
  split
  · rename_i hcount
    constructor
    · intro h
      cases h
    · intro h
      exact absurd h.count hcount
  · rename_i hcount
    rw [andAlso_eq_true, keysMatch_eq_true, keysMatch_eq_true]
    exact ⟨fun h => ⟨not_not.mp hcount, h.1, h.2⟩, fun h => ⟨h.left, h.right⟩⟩

/-! ## Data objects -/

/-- The types of data objects. -/
def Object.isData : Object → Bool
  | .string _ | .substring _ _ _ _ | .symbol _ | .keyword _ | .pair _ _ | .array _ _
  | .hash _ _ | .bignum _ _ | .bitset _ _ _ => true
  | _ => false

/-- How two distinct data objects compare equal. -/
inductive DataEqual (R : Recursion) (level : EqualLevel) : Object → Object → Prop
  /-- only simple strings have their flags compared -/
  | text {o1 o2 : Object} {s1 s2 : IdioString} (hlevel : level ≠ .eqp)
      (h1 : o1.text = some s1) (h2 : o2.text = some s2) (hchars : s1.chars = s2.chars)
      (hkind : ∀ t1 t2, o1 = .string t1 → o2 = .string t2 → t1.flags.sameKind t2.flags = true) :
      DataEqual R level o1 o2
  | pair {h1 t1 h2 t2 : Value} (hlevel : level = .equalp) (hh : R.equal level h1 h2 = .ok true)
      (ht : R.equal level t1 t2 = .ok true) : DataEqual R level (.pair h1 t1) (.pair h2 t2)
  | arrayIdentity {u : Addr} {ae1 ae2 : List Value} (hlevel : level ≠ .equalp) :
      DataEqual R level (.array u ae1) (.array u ae2)
  | array {u1 u2 : Addr} {ae1 ae2 : List Value} (hlevel : level = .equalp)
      (h : List.Forall₂ (fun x y => R.equal level x y = .ok true) ae1 ae2) :
      DataEqual R level (.array u1 ae1) (.array u2 ae2)
  | hashIdentity {u : Addr} {h1 h2 : HashObject} (hlevel : level ≠ .equalp) :
      DataEqual R level (.hash u h1) (.hash u h2)
  | hash {u1 u2 : Addr} {h1 h2 : HashObject} (hlevel : level = .equalp)
      (h : TablesEqual R level h1 h2) : DataEqual R level (.hash u1 h1) (.hash u2 h2)
  | bignumIdentity {sig : Addr} {bn1 bn2 : Bignum} (hlevel : level = .eqp) :
      DataEqual R level (.bignum bn1 sig) (.bignum bn2 sig)
  | bignum {sig1 sig2 : Addr} {bn1 bn2 : Bignum} (hlevel : level ≠ .eqp)
      (h : realEqualP bn1 bn2 = .ok true) : DataEqual R level (.bignum bn1 sig1) (.bignum bn2 sig2)
  | bitset {n1 n2 : Nat} {ws1 ws2 : List (BitVec 32)} {a1 a2 : Addr} (hlevel : level = .equalp)
      (h : equalBitset n1 n2 ws1 ws2 = true) :
      DataEqual R level (.bitset n1 ws1 a1) (.bitset n2 ws2 a2)

theorem EqualLevel.identity_iff {level : EqualLevel} :
    (level = .eqp ∨ level = .eqvp) ↔ level ≠ .equalp := by
  cases level <;> simp

theorem part_length {s : IdioString} {offset len : Nat} (h : offset + len ≤ s.chars.length) :
    (s.part offset len).chars.length = len := by
  rw [IdioString.part, List.length_take, List.length_drop]
  omega

/-- The comparison of texts, whose lengths are compared first. -/
theorem stringEqual_eq_true {s1 s2 : IdioString} {n m : Nat} (h1 : s1.chars.length = n)
    (h2 : s2.chars.length = m) :
    (if n ≠ m then Except.ok false else .ok (stringEqual s1 s2) : Result Bool) = .ok true ↔
      s1.chars = s2.chars := by
  subst h1 h2
  unfold stringEqual
  split
  · rename_i hne
    constructor
    · intro h
      cases h
    · intro h
      exact absurd (congrArg List.length h) hne
  · simp

section Characterisation

variable {R : Recursion} {level : EqualLevel} {a b : Addr} {o p : Object}

theorem dataEqual_of_objectEqual (hab : a ≠ b) (ho : o.isData = true)
    (h : objectEqual R level a b o p = .ok true) : DataEqual R level o p := by
  have hid : (Except.ok (a == b) : Result Bool) ≠ .ok true := by
    simpa using hab
  unfold objectEqual at h
  split at h
  case h_1 s1 p2 offset2 len2 inside2 =>
    split at h
    · cases h
    · rename_i hl
      exact .text hl rfl rfl ((stringEqual_eq_true rfl (part_length inside2)).mp h)
        (fun _ _ _ h2 => by cases h2)
  case h_2 p1 offset1 len1 inside1 s2 =>
    split at h
    · cases h
    · rename_i hl
      exact .text hl rfl rfl ((stringEqual_eq_true (part_length inside1) rfl).mp h)
        (fun _ _ h1 _ => by cases h1)
  case h_3 s1 s2 =>
    split at h
    · exact absurd h hid
    · rename_i hl
      split at h
      · cases h
      · rename_i hlen
        split at h
        · cases h
        · rename_i hkind
          have hchars := (@stringEqual_eq_true s1 s2 _ _ rfl rfl).mp (by rw [if_neg hlen, h])
          refine .text hl rfl rfl hchars fun t1 t2 h1 h2 => ?_
          cases h1
          cases h2
          simpa using hkind
  case h_4 p1 offset1 len1 inside1 p2 offset2 len2 inside2 =>
    split at h
    · exact absurd h hid
    · rename_i hl
      exact .text hl rfl rfl
        ((stringEqual_eq_true (part_length inside1) (part_length inside2)).mp h)
        (fun _ _ h1 _ => by cases h1)
  case h_7 h1 t1 h2 t2 =>
    split at h
    · exact absurd h hid
    · rename_i hl
      have hand := andAlso_eq_true.mp h
      exact .pair (not_not.mp fun hn => hl (EqualLevel.identity_iff.mpr hn)) hand.1 hand.2
  case h_8 u1 ae1 u2 ae2 =>
    split at h
    · rename_i hl
      have hu : u1 = u2 := by simpa using h
      rw [hu]
      exact .arrayIdentity (EqualLevel.identity_iff.mp hl)
    · rename_i hl
      split at h
      · cases h
      · rename_i hlen
        exact .array (not_not.mp fun hn => hl (EqualLevel.identity_iff.mpr hn))
          ((allEqual_eq_true (not_not.mp hlen)).mp h)
  case h_9 u1 t1 u2 t2 =>
    split at h
    · rename_i hl
      have hu : u1 = u2 := by simpa using h
      rw [hu]
      exact .hashIdentity (EqualLevel.identity_iff.mp hl)
    · rename_i hl
      exact .hash (not_not.mp fun hn => hl (EqualLevel.identity_iff.mpr hn))
        (hashEqual_eq_true.mp h)
  case h_12 bn1 sig1 bn2 sig2 =>
    split at h
    · rename_i hl
      have hsig : sig1 = sig2 := by simpa using h
      rw [hsig]
      exact .bignumIdentity hl
    · rename_i hl
      exact .bignum hl h
  case h_25 n1 ws1 a1 n2 ws2 a2 =>
    split at h
    · exact absurd h hid
    · rename_i hl
      have hbits : equalBitset n1 n2 ws1 ws2 = true := by simpa using h
      exact .bitset (not_not.mp fun hn => hl (EqualLevel.identity_iff.mpr hn)) hbits
  all_goals first
    | exact absurd h hid
    | cases h
    | cases ho

theorem objectEqual_of_dataEqual (h : DataEqual R level o p) :
    objectEqual R level a b o p = .ok true := by
  cases h with
  | @text _ _ s1 s2 hl h1 h2 hchars hkind =>
    cases o <;> cases h1 <;> cases p <;> cases h2 <;> simp only [objectEqual, if_neg hl]
    · rw [hkind s1 s2 rfl rfl]
      exact (stringEqual_eq_true rfl rfl).mpr hchars
    · exact (stringEqual_eq_true rfl (part_length ‹_›)).mpr hchars
    · exact (stringEqual_eq_true (part_length ‹_›) rfl).mpr hchars
    · exact (stringEqual_eq_true (part_length ‹_›) (part_length ‹_›)).mpr hchars
  | pair hl hh ht =>
    subst hl
    exact andAlso_eq_true.mpr ⟨hh, ht⟩
  | arrayIdentity hl => simp [objectEqual, if_pos (EqualLevel.identity_iff.mpr hl)]
  | @array u1 u2 ae1 ae2 hl h =>
    subst hl
    have hlen := h.length_eq
    simp only [objectEqual, reduceCtorEq, or_self, if_false, hlen, ne_eq, not_true_eq_false]
    exact (allEqual_eq_true hlen).mpr h
  | hashIdentity hl => simp [objectEqual, if_pos (EqualLevel.identity_iff.mpr hl)]
  | hash hl h =>
    subst hl
    exact hashEqual_eq_true.mpr h
  | bignumIdentity hl => simp [objectEqual, hl]
  | bignum hl h => simpa only [objectEqual, if_neg hl] using h
  | bitset hl h =>
    subst hl
    simp [objectEqual, h]

/-- **Distinct data objects** compare equal exactly in these ways. -/
theorem objectEqual_data (hab : a ≠ b) (ho : o.isData = true) :
    objectEqual R level a b o p = .ok true ↔ DataEqual R level o p :=
  ⟨dataEqual_of_objectEqual hab ho, objectEqual_of_dataEqual⟩

end Characterisation

/-! ## Numbers -/

theorem num_eq_pair (m n : Num) :
    Num.eq m [n] =
      if m.isBignum || n.isBignum then realEqualP m.toBignum n.toBignum
      else .ok (decide (m.fixnumVal = n.fixnumVal)) := by
  have hone {α : Type} (cmp : α → α → Result Bool) (x y : α) : cmpChain cmp x [y] = cmp x y := by
    rcases h : cmp x y with e | c
    · simp [cmpChain, h, bind, Except.bind]
    · cases c <;> simp [cmpChain, h, bind, Except.bind]
  simp only [Num.eq, arithmeticCmp, List.any_cons, List.any_nil, Bool.or_false, List.map_cons,
    List.map_nil, hone]

/-- When two reals compare equal, whichever is first. -/
def realAlike (ra rb : Bignum) : Bool :=
  ra.flags.realInexact == rb.flags.realInexact && ra.exp == rb.exp &&
    (realZeroP ra && realZeroP rb ||
      realNegativeP ra == realNegativeP rb && ra.sig == rb.sig)

theorem realAlike_comm (ra rb : Bignum) : realAlike ra rb = realAlike rb ra := by
  unfold realAlike
  rw [Bool.beq_comm (a := ra.flags.realInexact), Bool.beq_comm (a := realNegativeP ra),
    Bool.and_comm (realZeroP ra), BEq.comm (a := ra.exp), BEq.comm (a := ra.sig)]

theorem realEqualP_eq (a b : Bignum) :
    realEqualP a b =
      if a.flags.integer && b.flags.integer then .ok (equalP a b)
      else realArgument a >>= fun ra => realArgument b >>= fun rb => .ok (realAlike ra rb) := by
  unfold realEqualP
  split
  · rfl
  · rcases realArgument a with e | ra
    · rfl
    · rcases realArgument b with e | rb
      · rfl
      · simp only [bind, Except.bind, pure, Except.pure, realAlike]
        by_cases hin : ra.flags.realInexact = rb.flags.realInexact
        · by_cases hexp : ra.exp = rb.exp
          · by_cases hz : (realZeroP ra && realZeroP rb) = true
            · simp [hin, hexp, hz]
            · by_cases hneg : realNegativeP ra = realNegativeP rb
              · simp [hin, hexp, hz, hneg]
              · have hne := beq_eq_false_iff_ne.mpr hneg
                simp [hin, hexp, hz, hneg, hne]
          · have hne := beq_eq_false_iff_ne.mpr hexp
            simp [hin, hexp, hne]
        · have hne := beq_eq_false_iff_ne.mpr hin
          simp [hin, hne]

theorem realEqualP_symm {a b : Bignum} (h : realEqualP a b = .ok true) :
    realEqualP b a = .ok true := by
  rw [realEqualP_eq] at h ⊢
  rw [Bool.and_comm]
  split at h
  · rename_i hint
    rw [if_pos hint]
    unfold equalP at h ⊢
    rw [BEq.comm]
    exact h
  · rename_i hint
    rw [if_neg hint]
    cases ha : realArgument a with
    | error e =>
      rw [ha] at h
      cases h
    | ok ra =>
      cases hb : realArgument b with
      | error e =>
        rw [ha, hb] at h
        cases h
      | ok rb =>
        rw [ha, hb] at h
        simp only [bind, Except.bind] at h ⊢
        rw [realAlike_comm]
        exact h

theorem num_eq_symm {m n : Num} (h : Num.eq m [n] = .ok true) : Num.eq n [m] = .ok true := by
  rw [num_eq_pair] at h ⊢
  rw [Bool.or_comm]
  split at h
  · rename_i hbig
    rw [if_pos hbig]
    exact realEqualP_symm h
  · rename_i hfix
    rw [if_neg hfix]
    simpa [eq_comm] using h

theorem numberOf_pointer {H : Heap} {a : Addr} {m : Num} (h : numberOf H (.pointer a) = some m) :
    ∃ bn sig, H a = .bignum bn sig ∧ m = .bignum bn := by
  simp only [numberOf] at h
  split at h
  · rename_i bn sig ho
    exact ⟨bn, sig, ho, (Option.some.inj h).symm⟩
  · cases h

/-- The comparison of two numbers that are not the same word. -/
theorem valueEqual_numbers {R : Recursion} {H : Heap} {level : EqualLevel}
    (hlevel : level ≠ .eqp) {x y : Value} (hxy : x ≠ y) {m n : Num}
    (hm : numberOf H x = some m) (hn : numberOf H y = some n) :
    valueEqual R H level x y = Num.eq m [n] := by
  unfold valueEqual
  rw [if_neg hxy]
  cases x with
  | constant w => cases hm
  | fixnum v =>
    cases hm
    cases y with
    | constant w => cases hn
    | fixnum w =>
      cases hn
      have hvw : v ≠ w := fun h => hxy (by rw [h])
      simp [num_eq_pair, Num.isBignum, Num.fixnumVal, hvw]
    | pointer b =>
      obtain ⟨bn, sig, hb, rfl⟩ := numberOf_pointer hn
      simp only [hb, if_neg hlevel]
  | pointer a =>
    obtain ⟨bn, sig, ha, rfl⟩ := numberOf_pointer hm
    cases y with
    | constant w => cases hn
    | fixnum w =>
      cases hn
      simp only [ha, if_neg hlevel]
    | pointer b =>
      obtain ⟨cn, sig', hb, rfl⟩ := numberOf_pointer hn
      simp only [ha, hb, objectEqual, if_neg hlevel]
      rw [num_eq_pair]
      rfl

/-! ## Sets of data -/

/-- A set of data values that contains what they refer to, and what a look-up of a
missing key returns. -/
structure DataSet (H : Heap) (D : Value → Prop) : Prop where
  closed : ∀ a, D (.pointer a) → ∀ v ∈ (H a).components, D v
  data : ∀ a, D (.pointer a) → (H a).isData = true
  unspec : D .unspec

section Symmetry

variable {R : Recursion} {level : EqualLevel} {D : Value → Prop}

/-- The values a look-up returns are in the set. -/
theorem ref_mem (hunspec : D .unspec) {h : HashObject} {u : Addr}
    (hD : ∀ v ∈ (Object.hash u h).components, D v) {k v : Value} (hv : h.ref R k = .ok v) : D v := by
  rcases @HashObject.ref_components R h k v hv u with rfl | hv
  · exact hunspec
  · exact hD v hv

theorem ValuesEqual.symm (hunspec : D .unspec)
    (hR : ∀ x y, D x → D y → R.equal level x y = .ok true → R.equal level y x = .ok true)
    {o1 o2 : HashObject} {u1 u2 : Addr} (h1 : ∀ v ∈ (Object.hash u1 o1).components, D v)
    (h2 : ∀ v ∈ (Object.hash u2 o2).components, D v) {k : Value}
    (h : ValuesEqual R level o1 o2 k) : ValuesEqual R level o2 o1 k := by
  obtain ⟨v, w, hv, hw, heq⟩ := h
  exact ⟨w, v, hw, hv, hR v w (ref_mem hunspec h1 hv) (ref_mem hunspec h2 hw) heq⟩

theorem sameKind_comm (f g : StringFlags) : f.sameKind g = g.sameKind f := by
  unfold StringFlags.sameKind
  rw [Bool.beq_comm (a := decide (f = .octet)), Bool.beq_comm (a := decide (f = .pathname)),
    Bool.beq_comm (a := decide (f = .fdPathname)), Bool.beq_comm (a := decide (f = .fifoPathname))]

/-- `Forall₂` of a relation that is symmetric on the elements. -/
theorem forall₂_symm {α : Type} {Q : α → α → Prop} {P : α → Prop}
    (hQ : ∀ x y, P x → P y → Q x y → Q y x) {xs ys : List α} (hx : ∀ x ∈ xs, P x)
    (hy : ∀ y ∈ ys, P y) (h : List.Forall₂ Q xs ys) : List.Forall₂ Q ys xs := by
  induction h with
  | nil => exact List.Forall₂.nil
  | cons hxy hrest ih =>
    rw [List.forall_mem_cons] at hx hy
    exact List.Forall₂.cons (hQ _ _ hx.1 hy.1 hxy) (ih hx.2 hy.2)

/-- `Forall₂` of a relation that is transitive on the elements. -/
theorem forall₂_trans {α : Type} {Q : α → α → Prop} {P : α → Prop}
    (hQ : ∀ x y z, P x → P y → P z → Q x y → Q y z → Q x z) {xs ys zs : List α}
    (hx : ∀ x ∈ xs, P x) (hy : ∀ y ∈ ys, P y) (hz : ∀ z ∈ zs, P z)
    (h : List.Forall₂ Q xs ys) (h' : List.Forall₂ Q ys zs) : List.Forall₂ Q xs zs := by
  induction h generalizing zs with
  | nil =>
    cases h'
    exact List.Forall₂.nil
  | cons hxy hrest ih =>
    cases h' with
    | cons hyz hrest' =>
      rw [List.forall_mem_cons] at hx hy hz
      exact List.Forall₂.cons (hQ _ _ _ hx.1 hy.1 hz.1 hxy hyz) (ih hx.2 hy.2 hz.2 hrest')

theorem DataEqual.symm (hunspec : D .unspec)
    (hR : ∀ x y, D x → D y → R.equal level x y = .ok true → R.equal level y x = .ok true)
    {o p : Object} (ho : ∀ v ∈ o.components, D v) (hp : ∀ v ∈ p.components, D v)
    (h : DataEqual R level o p) : DataEqual R level p o := by
  cases h with
  | text hl h1 h2 hchars hkind =>
    exact .text hl h2 h1 hchars.symm fun t1 t2 e1 e2 => by
      rw [sameKind_comm]
      exact hkind t2 t1 e2 e1
  | @pair h1 t1 h2 t2 hl hh ht =>
    simp only [Object.components, List.forall_mem_cons] at ho hp
    exact .pair hl (hR h1 h2 ho.1 hp.1 hh) (hR t1 t2 ho.2.1 hp.2.1 ht)
  | arrayIdentity hl => exact .arrayIdentity hl
  | array hl h => exact .array hl (forall₂_symm hR ho hp h)
  | hashIdentity hl => exact .hashIdentity hl
  | hash hl h =>
    refine .hash hl ⟨h.count.symm, fun k hk => ?_, fun k hk => ?_⟩
    · exact ⟨(h.right k hk).1, (h.right k hk).2.symm hunspec hR ho hp⟩
    · exact ⟨(h.left k hk).1, (h.left k hk).2.symm hunspec hR ho hp⟩
  | bignumIdentity hl => exact .bignumIdentity hl
  | bignum hl h => exact .bignum hl (realEqualP_symm h)
  | bitset hl h => exact .bitset hl (equalBitset_symm h)

end Symmetry

/-- The number a value compares as, unless both are objects. -/
theorem valueEqual_fixnum {R : Recursion} {H : Heap} {level : EqualLevel} {x y : Value}
    (hxy : x ≠ y) (hpair : ∀ a b, x = .pointer a → y ≠ .pointer b)
    (h : valueEqual R H level x y = .ok true) :
    level ≠ .eqp ∧ ∃ m n, numberOf H x = some m ∧ numberOf H y = some n := by
  unfold valueEqual at h
  rw [if_neg hxy] at h
  cases x with
  | constant w => cases h
  | fixnum v =>
    cases y with
    | constant w => cases h
    | fixnum w => cases h
    | pointer b =>
      dsimp only at h
      split at h
      · cases h
      · rename_i hl
        split at h
        · rename_i bn sig hb
          exact ⟨hl, _, _, rfl, by simp only [numberOf, hb]; rfl⟩
        · split at h <;> cases h
  | pointer a =>
    cases y with
    | constant w => cases h
    | fixnum w =>
      dsimp only at h
      split at h
      · cases h
      · rename_i hl
        split at h
        · rename_i bn sig ha
          exact ⟨hl, _, _, by simp only [numberOf, ha]; rfl, rfl⟩
        · cases h
    | pointer b => exact absurd rfl (hpair a b rfl)

/-- `idio_equal` on data does not depend on the order of its arguments. -/
theorem idioEqual_symm {H : Heap} {D : Value → Prop} (hD : DataSet H D) (n : Nat)
    (level : EqualLevel) {x y : Value} (hx : D x) (hy : D y)
    (h : idioEqual H n level x y = .ok true) : idioEqual H n level y x = .ok true := by
  induction n generalizing level x y with
  | zero => cases h
  | succ n ih =>
    rw [idioEqual_succ] at h ⊢
    by_cases hxy : x = y
    · rw [hxy]
      exact valueEqual_self _ _ _ _
    · by_cases hpair : ∃ a b, x = .pointer a ∧ y = .pointer b
      · obtain ⟨a, b, rfl, rfl⟩ := hpair
        have hab : a ≠ b := fun hab => hxy (by rw [hab])
        rw [valueEqual_pointers _ _ _ hab, objectEqual_data hab (hD.data a hx)] at h
        rw [valueEqual_pointers _ _ _ hab.symm, objectEqual_data hab.symm (hD.data b hy)]
        exact h.symm hD.unspec (fun x y => ih level) (hD.closed a hx) (hD.closed b hy)
      · have hpair' : ∀ a b, x = .pointer a → y ≠ .pointer b :=
          fun a b ha hb => hpair ⟨a, b, ha, hb⟩
        obtain ⟨hl, m, k, hm, hk⟩ := valueEqual_fixnum hxy hpair' h
        rw [valueEqual_numbers hl hxy hm hk] at h
        rw [valueEqual_numbers hl (Ne.symm hxy) hk hm]
        exact num_eq_symm h

end Idio
