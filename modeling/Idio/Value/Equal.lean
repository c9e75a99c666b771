/-
  Value/Equal.lean --- `eq?`, `eqv?` and `equal?`.

  `objectEqual` compares two distinct objects, given the comparison and the default
  hash function for their components: hash tables look their keys up in each other.
  `idioEqual` ties the knot with fuel; on data that is not circular enough of it makes
  no difference (`idioEqual_stable`).

  Results are proved about the answer `#t`.  `DataEqual` says when two objects of the
  data types get it, and `idioEqual_pointers` that they do exactly then.
-/
import Idio.Comparison
import Idio.Value.Hash
import Idio.Bitset.Basic

set_option autoImplicit false

namespace Idio

/-! ## Parts of the comparison -/

/-- `r && s`. -/
def andAlso (r s : Result Bool) : Result Bool := do
  if ← r then s else pure false

/-- `idio_string_equal`: the lengths, then the code points. -/
def stringEqual (s1 s2 : IdioString) : Bool := s1.chars == s2.chars

/-- The flags that `idio_equal` compares: the width of the code points does not
count. -/
def StringFlags.sameKind (f g : StringFlags) : Bool :=
  decide (f = .octet) == decide (g = .octet) &&
    decide (f = .pathname) == decide (g = .pathname) &&
    decide (f = .fdPathname) == decide (g = .fdPathname) &&
    decide (f = .fifoPathname) == decide (g = .fifoPathname)

/-- `idio_C_float_C_eq_ULP` and `idio_C_double_C_eq_ULP`.  Numbers of different signs
are equal only if both are zero. -/
def equalULP {w : Nat} (o1 o2 : BitVec w) (max : Nat) : Bool :=
  if o1.msb != o2.msb then o1 <<< 1 == 0 && o2 <<< 1 == 0
  else decide ((o1.toInt - o2.toInt).natAbs ≤ max)

/-- The loops over the elements of two objects, as many as the first has. -/
def allEqual (eq : Value → Value → Result Bool) : List Value → List Value → Result Bool
  | [], _ => .ok true
  | _ :: _, [] => .error .undefined
  | x :: xs, y :: ys => andAlso (eq x y) (allEqual eq xs ys)

/-! ## Hash tables -/

/-- The comparison and the default hash function for components: the latter is told
whether to look at components itself, and the mask. -/
structure Recursion where
  equal : EqualLevel → Value → Value → Result Bool
  hash : Bool → BitVec 64 → Value → Result (BitVec 64)

/-- Whether the default hash function looks at components. -/
def Comparator.deep : Comparator → Bool
  | .C .eqp | .C .eqvp => false
  | _ => true

/-- `idio_hash_equal`. -/
def Comparator.compare (R : Recursion) (c : Comparator) (k1 k2 : Value) : Result Bool :=
  match c with
  | .C level => R.equal level k1 k2
  | .idio comp => .ok (comp k1 k2)

/-- `idio_hash_index`. -/
def Hasher.index (R : Recursion) (f : Hasher) (deep : Bool) (mask : Nat) (k : Value) :
    Result Nat :=
  match f with
  | .defaultHash => (R.hash deep (BitVec.ofNat 64 mask) k).map BitVec.toNat
  | .idio hash => .ok (hash k &&& mask)

/-- The first entry of a chain whose key compares equal. -/
def findEntry (compare : Value → Result Bool) :
    List (Value × Value) → Result (Option (Value × Value))
  | [] => .ok none
  | e :: es => do
      if ← compare e.1 then pure (some e) else findEntry compare es

/-- `idio_hash_he`; `func` is the function that refuses `#n`. -/
def HashObject.he (R : Recursion) (func : String) (h : HashObject) (k : Value) :
    Result (Option (Value × Value)) :=
  if k = .nil then .error (.paramNil func "key")
  else do
    let hv ← h.hash.index R h.comp.deep h.table.mask k
    findEntry (h.comp.compare R k) (h.table.bucket hv)

/-- `idio_hash_exists_key`. -/
def HashObject.existsKey (R : Recursion) (h : HashObject) (k : Value) : Result Bool :=
  (h.he R "hash-exists?" k).map Option.isSome

/-- `idio_hash_ref`. -/
def HashObject.ref (R : Recursion) (h : HashObject) (k : Value) : Result Value :=
  (h.he R "hash-ref" k).map fun e => (e.map Prod.snd).getD .unspec

/-- `idio_hash_keys_to_list`. -/
def HashObject.keysToList (h : HashObject) : List Value := (h.entries.map Prod.fst).reverse

/-- The loops over the keys of one of two tables: each must exist in `other`, and have
equal values in both. -/
def keysMatch (R : Recursion) (level : EqualLevel) (o1 o2 other : HashObject) :
    List Value → Result Bool
  | [] => .ok true
  | k :: kl => andAlso (other.existsKey R k) <| andAlso
      (do
        let v1 ← o1.ref R k
        let v2 ← o2.ref R k
        R.equal level v1 v2)
      (keysMatch R level o1 o2 other kl)

/-- The comparison of two hash tables by their entries. -/
def hashEqual (R : Recursion) (level : EqualLevel) (o1 o2 : HashObject) : Result Bool :=
  if o1.table.count ≠ o2.table.count then .ok false
  else andAlso (keysMatch R level o1 o2 o2 o1.keysToList) (keysMatch R level o1 o2 o1 o2.keysToList)

/-! ## `idio_equal` -/

/-- `idio_equal` on the distinct objects at two addresses. -/
def objectEqual (R : Recursion) (level : EqualLevel) (o1 o2 : Addr) :
    Object → Object → Result Bool
  | .string s1, .substring p2 offset2 len2 _ =>
      if level = .eqp then .ok false
      else if s1.chars.length ≠ len2 then .ok false
      else .ok (stringEqual s1 (p2.part offset2 len2))
  | .substring p1 offset1 len1 _, .string s2 =>
      if level = .eqp then .ok false
      else if len1 ≠ s2.chars.length then .ok false
      else .ok (stringEqual (p1.part offset1 len1) s2)
  | .string s1, .string s2 =>
      if level = .eqp then .ok (o1 == o2)
      else if s1.chars.length ≠ s2.chars.length then .ok false
      else if !s1.flags.sameKind s2.flags then .ok false
      else .ok (stringEqual s1 s2)
  | .substring p1 offset1 len1 _, .substring p2 offset2 len2 _ =>
      if level = .eqp then .ok (o1 == o2)
      else if len1 ≠ len2 then .ok false
      else .ok (stringEqual (p1.part offset1 len1) (p2.part offset2 len2))
  | .symbol _, .symbol _ => .ok (o1 == o2)
  | .keyword _, .keyword _ => .ok (o1 == o2)
  | .pair h1 t1, .pair h2 t2 =>
      if level = .eqp ∨ level = .eqvp then .ok (o1 == o2)
      else andAlso (R.equal level h1 h2) (R.equal level t1 t2)
  | .array u1 ae1, .array u2 ae2 =>
      if level = .eqp ∨ level = .eqvp then .ok (u1 == u2)
      else if ae1.length ≠ ae2.length then .ok false
      else allEqual (R.equal level) ae1 ae2
  | .hash u1 h1, .hash u2 h2 =>
      if level = .eqp ∨ level = .eqvp then .ok (u1 == u2) else hashEqual R level h1 h2
  | .closure _, .closure _ => .ok (o1 == o2)
  | .primitive _, .primitive _ => .ok (o1 == o2)
  | .bignum bn1 sig1, .bignum bn2 sig2 =>
      if level = .eqp then .ok (sig1 == sig2) else Bignum.realEqualP bn1 bn2
  | .module _, .module _ => .ok (o1 == o2)
  | .frame, .frame => .ok (o1 == o2)
  | .handle u1 _, .handle u2 _ => .ok (u1 == u2)
  | .cInt type1 v1, .cInt type2 v2 => .ok (type1 == type2 && v1 == v2)
  | .cFloat bits1, .cFloat bits2 => .ok (equalULP bits1 bits2 1)
  | .cDouble bits1, .cDouble bits2 => .ok (equalULP bits1 bits2 1)
  | .cLongdouble _, .cLongdouble _ =>
      .error (.paramTypeMsg "equality for C long double is not supported")
  | .cPointer p1, .cPointer p2 => .ok (p1 == p2)
  | .structType u1 name1 parent1 fields1 _, .structType u2 name2 parent2 fields2 _ =>
      if level = .eqp ∨ level = .eqvp then .ok (u1 == u2)
      else andAlso (allEqual (R.equal level) [name1, parent1] [name2, parent2])
        (if fields1.length ≠ fields2.length then .ok false
          else allEqual (R.equal level) fields1 fields2)
  | .structInstance type1 fields1 _, .structInstance type2 fields2 _ =>
      if level = .eqp ∨ level = .eqvp then .ok (o1 == o2)
      else andAlso (R.equal level type1 type2) (allEqual (R.equal level) fields1 fields2)
  | .thread u1, .thread u2 => .ok (u1 == u2)
  | .continuation u1 _, .continuation u2 _ => .ok (u1 == u2)
  | .bitset size1 words1 _, .bitset size2 words2 _ =>
      if level = .eqp ∨ level = .eqvp then .ok (o1 == o2)
      else .ok (equalBitset size1 size2 words1 words2)
  | _, _ => .ok false

/-- `idio_equal`, given the recursion for components. -/
def valueEqual (R : Recursion) (H : Heap) (level : EqualLevel) (o1 o2 : Value) : Result Bool :=
  if o1 = o2 then .ok true
  else
    match o1, o2 with
    | .fixnum _, .fixnum _ => .ok false
    | .fixnum v, .pointer b =>
        if level = .eqp then .ok false
        else
          match H b with
          | .bignum bn _ => Num.eq (.fixnum v) [.bignum bn]
          | o => if o.isCNumber then .error (.paramType "number") else .ok false
    | .fixnum _, .constant _ => .ok false
    | .constant _, _ => .ok false
    | .pointer a, .fixnum w =>
        if level = .eqp then .ok false
        else
          match H a with
          | .bignum bn _ => Num.eq (.bignum bn) [.fixnum w]
          | _ => .ok false
    | .pointer _, .constant _ => .ok false
    | .pointer a, .pointer b => objectEqual R level a b (H a) (H b)

/-- `idio_equal`. -/
def idioEqual (H : Heap) : Nat → EqualLevel → Value → Value → Result Bool
  | 0 => fun _ _ _ => .error .diverges
  | fuel + 1 =>
      valueEqual ⟨idioEqual H fuel, fun deep mask => defaultHashC H deep mask fuel⟩ H

/-- The recursion of `idioEqual`. -/
def recursion (H : Heap) (fuel : Nat) : Recursion :=
  ⟨idioEqual H fuel, fun deep mask => defaultHashC H deep mask fuel⟩

theorem idioEqual_succ (H : Heap) (fuel : Nat) :
    idioEqual H (fuel + 1) = valueEqual (recursion H fuel) H := rfl

theorem valueEqual_self (R : Recursion) (H : Heap) (level : EqualLevel) (v : Value) :
    valueEqual R H level v v = .ok true := if_pos rfl

theorem valueEqual_pointers (R : Recursion) (H : Heap) (level : EqualLevel) {a b : Addr}
    (hab : a ≠ b) :
    valueEqual R H level (.pointer a) (.pointer b) = objectEqual R level a b (H a) (H b) := by
  have hne : (Value.pointer a) ≠ .pointer b := fun h => hab (Value.pointer.inj h)
  rw [valueEqual, if_neg hne]

/-! ## Fuel -/

/-- Two recursions do the same on these values. -/
structure Recursion.AgreeOn (R R' : Recursion) (S : Value → Prop) : Prop where
  equal : ∀ level x y, S x → S y → R.equal level x y = R'.equal level x y
  hash : ∀ deep mask k, S k → R.hash deep mask k = R'.hash deep mask k

section Agree

variable {R R' : Recursion} {S : Value → Prop}

theorem allEqual_congr (hR : R.AgreeOn R' S) (level : EqualLevel) {xs ys : List Value}
    (hx : ∀ v ∈ xs, S v) (hy : ∀ v ∈ ys, S v) :
    allEqual (R.equal level) xs ys = allEqual (R'.equal level) xs ys := by
  induction xs generalizing ys with
  | nil => rfl
  | cons x xs ih =>
    cases ys with
    | nil => rfl
    | cons y ys =>
      rw [List.forall_mem_cons] at hx hy
      rw [allEqual, allEqual, hR.equal level x y hx.1 hy.1, ih hx.2 hy.2]

/-- The keys of a table are among its components, and so are the values. -/
theorem HashObject.mem_components {h : HashObject} {i : Nat} {e : Value × Value}
    (he : e ∈ h.table.bucket i) {u : Addr} :
    e.1 ∈ (Object.hash u h).components ∧ e.2 ∈ (Object.hash u h).components := by
  have hmem := Table.mem_bucket_iff.mp ⟨i, he⟩
  exact ⟨mem_entryParts.mpr ⟨e, hmem, Or.inl rfl⟩, mem_entryParts.mpr ⟨e, hmem, Or.inr rfl⟩⟩

theorem HashObject.keysToList_components {h : HashObject} {k : Value} (hk : k ∈ h.keysToList)
    {u : Addr} : k ∈ (Object.hash u h).components := by
  rw [keysToList, List.mem_reverse] at hk
  obtain ⟨e, he, rfl⟩ := List.mem_map.mp hk
  exact mem_entryParts.mpr ⟨e, List.mem_of_mem_filter he, Or.inl rfl⟩

theorem findEntry_congr {f g : Value → Result Bool} {es : List (Value × Value)}
    (h : ∀ e ∈ es, f e.1 = g e.1) : findEntry f es = findEntry g es := by
  induction es with
  | nil => rfl
  | cons e es ih =>
    rw [List.forall_mem_cons] at h
    rw [findEntry, findEntry, h.1, ih h.2]

theorem HashObject.he_congr (hR : R.AgreeOn R' S) (func : String) {h : HashObject} {u : Addr}
    (hS : ∀ v ∈ (Object.hash u h).components, S v) {k : Value} (hk : S k) :
    h.he R func k = h.he R' func k := by
  have hindex : h.hash.index R h.comp.deep h.table.mask k =
      h.hash.index R' h.comp.deep h.table.mask k := by
    unfold Hasher.index
    split
    · rw [hR.hash _ _ k hk]
    · rfl
  have hfind : ∀ hv, findEntry (h.comp.compare R k) (h.table.bucket hv) =
      findEntry (h.comp.compare R' k) (h.table.bucket hv) := by
    intro hv
    apply findEntry_congr
    intro e he
    unfold Comparator.compare
    split
    · exact hR.equal _ k e.1 hk (hS e.1 (mem_components he).1)
    · rfl
  simp only [he, hindex, hfind]

theorem findEntry_mem {compare : Value → Result Bool} {es : List (Value × Value)}
    {e : Value × Value} (h : findEntry compare es = .ok (some e)) :
    e ∈ es ∧ compare e.1 = .ok true := by
  induction es with
  | nil => cases h
  | cons f es ih =>
    rw [findEntry] at h
    cases hc : compare f.1 with
    | error x =>
      rw [hc] at h
      cases h
    | ok b =>
      rw [hc] at h
      cases b with
      | true =>
        cases h
        exact ⟨List.mem_cons_self, hc⟩
      | false =>
        obtain ⟨hmem, hcmp⟩ := ih h
        exact ⟨List.mem_cons_of_mem f hmem, hcmp⟩

/-- What a look-up returns is the value of an entry, or `#<unspec>`. -/
theorem HashObject.ref_components {h : HashObject} {k v : Value} (hv : h.ref R k = .ok v)
    {u : Addr} : v = .unspec ∨ v ∈ (Object.hash u h).components := by
  unfold ref he at hv
  split at hv
  · cases hv
  · cases hi : h.hash.index R h.comp.deep h.table.mask k with
    | error x =>
      rw [hi] at hv
      cases hv
    | ok i =>
      rw [hi] at hv
      cases hf : findEntry (h.comp.compare R k) (h.table.bucket i) with
      | error x =>
        simp only [bind, Except.bind, hf] at hv
        cases hv
      | ok r =>
        simp only [bind, Except.bind, hf] at hv
        cases r with
        | none =>
          cases hv
          exact Or.inl rfl
        | some e =>
          cases hv
          exact Or.inr (mem_components (findEntry_mem hf).1).2

theorem keysMatch_congr (hR : R.AgreeOn R' S) (hu : S .unspec) (level : EqualLevel)
    {o1 o2 other : HashObject} {u1 u2 : Addr} (h1 : ∀ v ∈ (Object.hash u1 o1).components, S v)
    (h2 : ∀ v ∈ (Object.hash u2 o2).components, S v) (hother : other = o1 ∨ other = o2)
    {kl : List Value} (hkl : ∀ k ∈ kl, S k) :
    keysMatch R level o1 o2 other kl = keysMatch R' level o1 o2 other kl := by
  induction kl with
  | nil => rfl
  | cons k kl ih =>
    rw [List.forall_mem_cons] at hkl
    have href1 : o1.ref R k = o1.ref R' k := by
      rw [HashObject.ref, HashObject.ref, HashObject.he_congr hR _ h1 hkl.1]
    have href2 : o2.ref R k = o2.ref R' k := by
      rw [HashObject.ref, HashObject.ref, HashObject.he_congr hR _ h2 hkl.1]
    have hexists : other.existsKey R k = other.existsKey R' k := by
      rcases hother with rfl | rfl
      · rw [HashObject.existsKey, HashObject.existsKey, HashObject.he_congr hR _ h1 hkl.1]
      · rw [HashObject.existsKey, HashObject.existsKey, HashObject.he_congr hR _ h2 hkl.1]
    have hvalues : (do
        let v1 ← o1.ref R k
        let v2 ← o2.ref R k
        R.equal level v1 v2) = (do
        let v1 ← o1.ref R' k
        let v2 ← o2.ref R' k
        R'.equal level v1 v2) := by
      rw [← href1, ← href2]
      cases hr1 : o1.ref R k with
      | error x => rfl
      | ok v1 =>
        cases hr2 : o2.ref R k with
        | error x => rfl
        | ok v2 =>
          apply hR.equal
          · rcases @HashObject.ref_components R o1 k v1 hr1 u1 with rfl | hv
            · exact hu
            · exact h1 v1 hv
          · rcases @HashObject.ref_components R o2 k v2 hr2 u2 with rfl | hv
            · exact hu
            · exact h2 v2 hv
    rw [keysMatch, keysMatch, hexists, hvalues, ih hkl.2]

/-- The comparison of two objects depends on the recursion for their components
only. -/
theorem objectEqual_congr (hR : R.AgreeOn R' S) (hu : S .unspec) (level : EqualLevel)
    (a b : Addr) {o p : Object} (ho : ∀ v ∈ o.components, S v) (hp : ∀ v ∈ p.components, S v) :
    objectEqual R level a b o p = objectEqual R' level a b o p := by
  unfold objectEqual
  split
  case h_7 h1 t1 h2 t2 =>
    rw [hR.equal level h1 h2 (ho h1 (by simp [Object.components]))
        (hp h2 (by simp [Object.components])),
      hR.equal level t1 t2 (ho t1 (by simp [Object.components]))
        (hp t2 (by simp [Object.components]))]
  case h_8 u1 ae1 u2 ae2 => rw [@allEqual_congr R R' S hR level ae1 ae2 ho hp]
  case h_9 u1 t1 u2 t2 =>
    have hk1 : ∀ k ∈ t1.keysToList, S k := fun k hk => ho k (t1.keysToList_components hk)
    have hk2 : ∀ k ∈ t2.keysToList, S k := fun k hk => hp k (t2.keysToList_components hk)
    simp only [hashEqual, keysMatch_congr hR hu level ho hp (Or.inr rfl) hk1,
      keysMatch_congr hR hu level ho hp (Or.inl rfl) hk2]
  case h_21 u1 name1 parent1 fields1 fa1 u2 name2 parent2 fields2 fa2 =>
    simp only [Object.components, List.forall_mem_cons] at ho hp
    have hnames := @allEqual_congr R R' S hR level [name1, parent1] [name2, parent2]
      (by simp [ho.1, ho.2.1]) (by simp [hp.1, hp.2.1])
    rw [hnames, allEqual_congr hR level ho.2.2 hp.2.2]
  case h_22 type1 fields1 fa1 type2 fields2 fa2 =>
    simp only [Object.components, List.forall_mem_cons] at ho hp
    rw [hR.equal level type1 type2 ho.1 hp.1, allEqual_congr hR level ho.2 hp.2]
  all_goals rfl

/-- **Enough fuel.**  More of it than the data is deep makes no difference. -/
theorem idioEqual_stable (A : AcyclicHeap) (level : EqualLevel) {n : Nat} {x y : Value}
    (hx : A.depth x < n) (hy : A.depth y < n) :
    idioEqual A.heap (n + 1) level x y = idioEqual A.heap n level x y := by
  induction n generalizing level x y with
  | zero => omega
  | succ n ih =>
    rw [idioEqual_succ, idioEqual_succ]
    have hagree : (recursion A.heap (n + 1)).AgreeOn (recursion A.heap n)
        fun v => A.depth v < n :=
      ⟨fun level x y hx hy => ih level hx hy,
        fun deep mask k hk => defaultHashC_stable A deep mask hk⟩
    cases x with
    | fixnum v => cases y <;> rfl
    | constant w => cases y <;> rfl
    | pointer a =>
      cases y with
      | fixnum v => rfl
      | constant w => rfl
      | pointer b =>
        by_cases hab : a = b
        · rw [hab, valueEqual_self, valueEqual_self]
        · have hu : A.depth .unspec < n := by
            simp only [AcyclicHeap.depth, Value.depth, Value.unspec] at *
            omega
          rw [valueEqual_pointers _ _ _ hab, valueEqual_pointers _ _ _ hab,
            objectEqual_congr hagree hu level a b (fun v hv => A.depth_lt hx hv)
              fun v hv => A.depth_lt hy hv]

end Agree

end Idio
