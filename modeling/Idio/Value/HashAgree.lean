/-
  Value/HashAgree.lean --- when equal keys have equal hash values.

  Objects other than strings and, in a table that looks at components, pairs, arrays
  and hash tables are hashed by a word of their own, for bignums and bitsets the
  address of their digits or words.  Equal bignums that are different objects are in
  different buckets (`equal_bignums_apart`), although the comparator of the table
  looks at their digits.

  `HashAlike` says when the hash values agree whatever the words are mixed into.  It
  is enough for all keys, and for keys that are hashed by a word it is necessary: the
  mixing is injective.
-/
import Idio.Value.Equivalence
import Mathlib.Data.List.Perm.Basic

set_option autoImplicit false

namespace Idio

open Filter

/-! ## Hash values -/

/-- The mask of a table of `2 ^ j` buckets. -/
def tableMask (j : Nat) : BitVec 64 := BitVec.ofNat 64 (2 ^ j - 1)

/-- The default hash function returns `b`, with enough fuel. -/
def Hashes (H : Heap) (deep : Bool) (mask : BitVec 64) (k : Value) (b : BitVec 64) : Prop :=
  ∀ᶠ n in atTop, defaultHashC H deep mask n k = .ok b

/-- The keys are in the same bucket of every table. -/
def SameBucket (H : Heap) (deep : Bool) (k1 k2 : Value) : Prop :=
  ∀ j, ∃ b, Hashes H deep (tableMask j) k1 b ∧ Hashes H deep (tableMask j) k2 b

/-! ## What is hashed -/

/-- The word that an object at `a` is hashed by, if it is hashed by one. -/
def Object.hashedWord (deep : Bool) (a : Addr) : Object → Option (BitVec 64)
  | .symbol s => some (foldPointer s)
  | .keyword s => some (foldPointer s)
  | .pair _ _ => if deep then none else some a
  | .array u _ => if deep then none else some (foldPointer u)
  | .hash u _ => if deep then none else some (foldPointer u)
  | .closure u => some (foldPointer u)
  | .primitive f => some (foldPointer f)
  | .bignum _ sig => some (foldPointer sig)
  | .module name => some (foldPointer name)
  | .handle _ stream => some (foldPointer stream)
  | .structType _ _ _ _ fieldsAddr => some (foldPointer fieldsAddr)
  | .structInstance _ _ fieldsAddr => some (foldPointer fieldsAddr)
  | .continuation _ stack => some (foldPointer stack)
  | .bitset _ _ wordsAddr => some (foldPointer wordsAddr)
  | .cInt _ v => some (BitVec.ofInt 64 v)
  | .cFloat bits => (realToUintmax 8 23 bits.toNat).toOption
  | .cDouble bits => (realToUintmax 11 52 bits.toNat).toOption
  | .cLongdouble converted => some converted
  | .cPointer p => some (foldPointer p)
  | _ => none

/-- The word that a key is hashed by, if it is hashed by one. -/
def hashedWord (H : Heap) (deep : Bool) : Value → Option (BitVec 64)
  | .fixnum v => some (Value.fixnum v).word
  | .constant w => some w
  | .pointer a => (H a).hashedWord deep a

/-- The components that an object is hashed by, if it is hashed by components. -/
def Object.hashedParts (deep : Bool) : Object → Option (List Value)
  | .pair h t => if deep then some [h, t] else none
  | .array _ ae => if deep then some ae else none
  | .hash _ h => if deep then some (entryParts h.entries) else none
  | _ => none

/-- Keys whose hash values agree: they are hashed by the same word, they are strings
of the same bytes, or their components agree in some order. -/
inductive HashAlike (H : Heap) (deep : Bool) : Value → Value → Prop
  | word {k1 k2 : Value} {w : BitVec 64} (h1 : hashedWord H deep k1 = some w)
      (h2 : hashedWord H deep k2 = some w) : HashAlike H deep k1 k2
  | text {a b : Addr} {s1 s2 : IdioString} {sk : List (BitVec 8)} (h1 : (H a).text = some s1)
      (h2 : (H b).text = some s2) (hs1 : stringAsC s1 = .ok sk) (hs2 : stringAsC s2 = .ok sk) :
      HashAlike H deep (.pointer a) (.pointer b)
  | parts {a b : Addr} {xs ys ys' : List Value} (h1 : (H a).hashedParts deep = some xs)
      (h2 : (H b).hashedParts deep = some ys) (hperm : ys'.Perm ys)
      (hlen : xs.length = ys'.length)
      (halike : ∀ (i : Nat) x y, xs[i]? = some x → ys'[i]? = some y → HashAlike H deep x y) :
      HashAlike H deep (.pointer a) (.pointer b)

section Hash

variable {H : Heap} {deep : Bool} {mask : BitVec 64}

theorem hashes_of_succ {k : Value} {b : BitVec 64}
    (h : ∀ n, defaultHashC H deep mask (n + 1) k = .ok b) : Hashes H deep mask k b := by
  filter_upwards [eventually_gt_atTop 0] with n hn
  obtain ⟨m, rfl⟩ := Nat.exists_eq_succ_of_ne_zero (Nat.ne_of_gt hn)
  exact h m

theorem Hashes.unique {k : Value} {b c : BitVec 64} (h : Hashes H deep mask k b)
    (h' : Hashes H deep mask k c) : b = c := by
  obtain ⟨n, hb, hc⟩ := (h.and h').exists
  exact Except.ok.inj (hb.symm.trans hc)

theorem objectHash_of_word {hash : Value → Result (BitVec 64)} {a : Addr} {o : Object}
    {w : BitVec 64} (h : o.hashedWord deep a = some w) :
    objectHash hash deep a o = .ok (hashUintmax w) := by
  cases o with
  | pair x y =>
    cases deep <;> cases h
    rfl
  | array u ae =>
    cases deep <;> cases h
    rfl
  | hash u t =>
    cases deep <;> cases h
    rfl
  | cFloat bits =>
    simp only [Object.hashedWord] at h
    cases hc : realToUintmax 8 23 bits.toNat with
    | error e =>
      rw [hc] at h
      cases h
    | ok x =>
      rw [hc] at h
      cases h
      simp only [objectHash, hc]
      rfl
  | cDouble bits =>
    simp only [Object.hashedWord] at h
    cases hc : realToUintmax 11 52 bits.toNat with
    | error e =>
      rw [hc] at h
      cases h
    | ok x =>
      rw [hc] at h
      cases h
      simp only [objectHash, hc]
      rfl
  | _ => cases h <;> rfl

/-- A key that is hashed by a word. -/
theorem hashes_word {k : Value} {w : BitVec 64} (h : hashedWord H deep k = some w) :
    Hashes H deep mask k (hashUintmax w &&& mask) := by
  apply hashes_of_succ
  intro n
  cases k with
  | fixnum v =>
    cases h
    rfl
  | constant c =>
    cases h
    rfl
  | pointer a =>
    rw [defaultHashC, objectHash_of_word h]
    rfl

/-- A key that is hashed by its bytes. -/
theorem hashes_text {a : Addr} {s : IdioString} {sk : List (BitVec 8)} (h : (H a).text = some s)
    (hs : stringAsC s = .ok sk) :
    Hashes H deep mask (.pointer a) ((murmurOAAT32 sk).setWidth 64 &&& mask) := by
  apply hashes_of_succ
  intro n
  rw [defaultHashC]
  generalize H a = o at h
  cases o with
  | string t =>
    cases h
    simp only [objectHash, hs]
    rfl
  | substring parent offset len inside =>
    cases h
    simp only [objectHash, hs]
    rfl
  | _ => cases h

/-- The hash values of a list, one after another. -/
theorem hashAll_eventually {xs : List Value} {bs : List (BitVec 64)}
    (h : List.Forall₂ (Hashes H deep mask) xs bs) (hv : BitVec 64) :
    ∀ᶠ n in atTop, hashAll (defaultHashC H deep mask n) xs hv =
      .ok (bs.foldl (fun x y => x ^^^ y) hv) := by
  induction h generalizing hv with
  | nil => exact Eventually.of_forall fun _ => rfl
  | cons hx hrest ih =>
    filter_upwards [hx, ih (hv ^^^ _)] with n hn hrest
    rw [hashAll, hn]
    exact hrest

/-- A key that is hashed by its components. -/
theorem hashes_parts {a : Addr} {xs : List Value} (h : (H a).hashedParts deep = some xs)
    {bs : List (BitVec 64)} (hbs : List.Forall₂ (Hashes H deep mask) xs bs) :
    Hashes H deep mask (.pointer a) (bs.foldl (fun x y => x ^^^ y) 0 &&& mask) := by
  have hobject : ∀ hash : Value → Result (BitVec 64),
      objectHash hash deep a (H a) = hashAll hash xs 0 := by
    intro hash
    generalize H a = o at h
    cases o <;> first
      | cases h
      | (cases deep <;> cases h; rfl)
  obtain ⟨m, hm⟩ := eventually_atTop.mp (hashAll_eventually hbs 0)
  refine eventually_atTop.mpr ⟨m + 1, fun n hn => ?_⟩
  obtain ⟨l, rfl⟩ := Nat.exists_eq_add_of_le' (Nat.le_of_succ_le hn)
  obtain ⟨i, hi⟩ : ∃ i, l + m = i + 1 := ⟨l + m - 1, by omega⟩
  rw [hi, defaultHashC, hobject, hm i (by omega)]
  rfl

/-- Exclusive or does not depend on the order. -/
theorem foldl_xor_perm {bs cs : List (BitVec 64)} (h : bs.Perm cs) (hv : BitVec 64) :
    bs.foldl (fun x y => x ^^^ y) hv = cs.foldl (fun x y => x ^^^ y) hv := by
  apply h.foldl_eq'
  intro x _ y _ z
  rw [BitVec.xor_assoc, BitVec.xor_comm x y, ← BitVec.xor_assoc]

/-- Lists that are hashed alike element by element have common hash values. -/
theorem forall₂_hashes {xs ys : List Value} (hlen : xs.length = ys.length)
    (h : ∀ (i : Nat) x y, xs[i]? = some x → ys[i]? = some y →
      ∃ b, Hashes H deep mask x b ∧ Hashes H deep mask y b) :
    ∃ bs, List.Forall₂ (Hashes H deep mask) xs bs ∧ List.Forall₂ (Hashes H deep mask) ys bs := by
  induction xs generalizing ys with
  | nil =>
    rw [List.eq_nil_of_length_eq_zero hlen.symm]
    exact ⟨[], List.Forall₂.nil, List.Forall₂.nil⟩
  | cons x xs ih =>
    cases ys with
    | nil => cases hlen
    | cons y ys =>
      obtain ⟨b, hx, hy⟩ := h 0 x y rfl rfl
      obtain ⟨bs, hxs, hys⟩ := ih (Nat.succ.inj hlen) fun i x' y' hx' hy' =>
        h (i + 1) x' y' hx' hy'
      exact ⟨b :: bs, List.Forall₂.cons hx hxs, List.Forall₂.cons hy hys⟩

/-- **Keys that are alike have the same hash value** for every mask. -/
theorem HashAlike.hashes {k1 k2 : Value} (h : HashAlike H deep k1 k2) (mask : BitVec 64) :
    ∃ b, Hashes H deep mask k1 b ∧ Hashes H deep mask k2 b := by
  induction h with
  | word h1 h2 => exact ⟨_, hashes_word h1, hashes_word h2⟩
  | text h1 h2 hs1 hs2 => exact ⟨_, hashes_text h1 hs1, hashes_text h2 hs2⟩
  | @parts a b xs ys ys' h1 h2 hperm hlen halike ih =>
    obtain ⟨bs, hxs, hys'⟩ := forall₂_hashes hlen ih
    obtain ⟨cs, hys, hcs⟩ := List.perm_comp_forall₂ hperm.symm hys'
    refine ⟨_, hashes_parts h1 hxs, ?_⟩
    rw [← foldl_xor_perm hcs 0]
    exact hashes_parts h2 hys

/-- Keys that are hashed by words are in one bucket only if the words are the same. -/
theorem hashAlike_of_word {k1 k2 : Value} {w1 w2 : BitVec 64}
    (h1 : hashedWord H deep k1 = some w1) (h2 : hashedWord H deep k2 = some w2)
    (h : SameBucket H deep k1 k2) : HashAlike H deep k1 k2 := by
  -- With `2 ^ 64` buckets nothing is masked.
  obtain ⟨b, hb1, hb2⟩ := h 64
  have hall : tableMask 64 = BitVec.allOnes 64 := by decide
  have e1 := hb1.unique (hashes_word h1)
  have e2 := hb2.unique (hashes_word h2)
  rw [hall, BitVec.and_allOnes] at e1 e2
  rw [← hashUintmax_injective (e1.symm.trans e2)] at h2
  exact .word h1 h2

end Hash

/-! ## Equal keys -/

/-- The default hash function agrees with the comparator of a table on two keys. -/
def Agrees (H : Heap) (level : EqualLevel) (k1 k2 : Value) : Prop :=
  Equal H level k1 k2 → SameBucket H (Comparator.C level).deep k1 k2

/-- **When hash values and equality agree**: always where the keys are hashed alike,
and for keys that are hashed by a word only there. -/
theorem default_hash_agrees (H : Heap) (level : EqualLevel) (k1 k2 : Value) :
    (HashAlike H (Comparator.C level).deep k1 k2 → Agrees H level k1 k2) ∧
      ∀ w1 w2, hashedWord H (Comparator.C level).deep k1 = some w1 →
        hashedWord H (Comparator.C level).deep k2 = some w2 →
        (Agrees H level k1 k2 ↔
          (Equal H level k1 k2 → HashAlike H (Comparator.C level).deep k1 k2)) := by
  have hsufficient : HashAlike H (Comparator.C level).deep k1 k2 →
      SameBucket H (Comparator.C level).deep k1 k2 := fun h j => h.hashes (tableMask j)
  refine ⟨fun h _ => hsufficient h, fun w1 w2 h1 h2 => ⟨fun h heq => ?_, fun h heq => ?_⟩⟩
  · exact hashAlike_of_word h1 h2 (h heq)
  · exact hsufficient (h heq)

/-- The bignum `10 ^ 18` at every address. -/
def bignumHeap : Heap := fun a => .bignum ⟨⟨true, false, false, false⟩, 0, [0, 1]⟩ a

/-- Two bignum objects of one value: they are equal, and in different buckets of a
table with 32. -/
theorem equal_bignums_apart :
    ¬ ∀ (H : Heap) (level : EqualLevel) (k1 k2 : Value), Agrees H level k1 k2 := by
  intro h
  have hequal : Equal bignumHeap .equalp (.pointer 0x1000) (.pointer 0x2000) := by
    filter_upwards [eventually_gt_atTop 0] with n hn
    obtain ⟨m, rfl⟩ := Nat.exists_eq_succ_of_ne_zero (Nat.ne_of_gt hn)
    rfl
  obtain ⟨b, hb1, hb2⟩ := h bignumHeap .equalp (.pointer 0x1000) (.pointer 0x2000) hequal 5
  have e1 := hb1.unique (hashes_word rfl)
  have e2 := hb2.unique (hashes_word rfl)
  exact absurd (e1.symm.trans e2) (by decide)

end Idio
