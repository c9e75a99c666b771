/-
  Hash/Table.lean --- hash tables with chained buckets.

  A table is an array of chains, `size` of them, where `size` is a power of two and
  `mask` one less; the entries of a key are in the chain `hash & mask`.  `hashPut`
  grows the table when it gets too full and `hashDelete` shrinks it; both ways the
  entries are put again, one by one, into new chains, by `hashPut` itself.

  `hashResize` takes the number of resizes that may be in progress at once.  With
  one, a resize that starts another is a fault; that it never does is part of what
  is proved (`newSize_spec`: the new size leaves room for all entries).

  `InOrder` is the invariant of a table, `lookup` the map it stands for.
-/
import Idio.Basic
import Idio.Lib.While
import Idio.Lib.KeyedList
import Mathlib.Data.Nat.Bitwise

set_option autoImplicit false

namespace Idio

open KeyedList WhileLoop

/-- `idio_hash_t`, less its functions. -/
structure Table (K V : Type) where
  /-- the chains, an entry being a key and a value -/
  ha : List (List (K × V))
  /-- `IDIO_HASH_MASK` -/
  mask : Nat
  /-- `IDIO_HASH_SIZE` -/
  size : Nat
  /-- `IDIO_HASH_COUNT` -/
  count : Nat
  deriving DecidableEq, Repr

/-- The functions of a table: `IDIO_HASH_COMP`, `IDIO_HASH_HASH` less the masking
that every hashing function ends with, and the test for a key of `#n`. -/
structure HashFns (K : Type) where
  comp : K → K → Bool
  hash : K → Nat
  isNil : K → Bool

/-- The comparator is an equivalence, and equal keys have equal hash values. -/
structure HashFns.Lawful {K : Type} (F : HashFns K) : Prop where
  equiv : IsEquiv F.comp
  hash_eq : ∀ a b, F.comp a b = true → F.hash a = F.hash b

namespace Table

variable {K V : Type}

/-! ## Allocation -/

/-- `while (s) { s >>= 1; mask = (mask << 1) | 1; }`; `s` halves, so that `size`
rounds are enough. -/
def maskLoop : Nat → Nat → Nat → Nat
  | 0, _, mask => mask
  | fuel + 1, s, mask => if s = 0 then mask else maskLoop fuel (s >>> 1) ((mask <<< 1) ||| 1)

/-- The mask in `idio_assign_hash_he`. -/
def roundMask (size : Nat) : Nat :=
  let mask := maskLoop size size 0
  if size &&& (mask >>> 1) = 0 then mask >>> 1 else mask

/-- `idio_assign_hash_he`, the count being set to zero beside it. -/
def assignHashHe (size : Nat) : Table K V :=
  let mask := roundMask size
  ⟨List.replicate (mask + 1) [], mask, mask + 1, 0⟩

/-! ## Looking up -/

/-- `idio_hash_index`. -/
def hashIndex (F : HashFns K) (h : Table K V) (k : K) : Nat := F.hash k &&& h.mask

/-- `IDIO_HASH_HA (h, i)`. -/
def bucket (h : Table K V) (i : Nat) : List (K × V) := h.ha.getD i []

/-- The look-up in the chain of a key, `idio_hash_he`. -/
def lookup (F : HashFns K) (h : Table K V) (k : K) : Option V :=
  find F.comp (h.bucket (h.hashIndex F k)) k

/-- `idio_hash_ref`; `none` stands for `#<unspec>`, no such key. -/
def hashRef (F : HashFns K) (h : Table K V) (k : K) : Result (Option V) :=
  if F.isNil k then .error (.paramNil "hash-ref" "key") else .ok (h.lookup F k)

/-! ## Putting and resizing -/

/-- The number of entries a table of this size may have: 75%. -/
def loadHigh (size : Nat) : Nat := size / 2 + size / 4

/-- The first half of `idio_hash_put`: the value is replaced or a new entry made. -/
def putEntry (F : HashFns K) (k : K) (v : V) (h : Table K V) : Table K V :=
  let hv := h.hashIndex F k
  match replace F.comp k v (h.bucket hv) with
  | some chain => { h with ha := h.ha.set hv chain }
  | none => { h with ha := h.ha.set hv ((k, v) :: h.bucket hv), count := h.count + 1 }

/-- `idio_hash_put`, given how to grow a table. -/
def putWith (F : HashFns K) (grow : Table K V → Result (Table K V)) (k : K) (v : V)
    (h : Table K V) : Result (Table K V) :=
  if F.isNil k then .error (.paramNil "hash-set!" "key")
  else
    let h' := putEntry F k v h
    if h'.count > loadHigh h'.size then grow h' else .ok h'

/-- The loop over all entries of a table that puts them into another. -/
def putAll (F : HashFns K) (put : K → V → Table K V → Result (Table K V)) :
    List (K × V) → Table K V → Result (Table K V)
  | [], h => .ok h
  | e :: es, h =>
      if F.isNil e.1 then putAll F put es h
      else do
        let h' ← put e.1 e.2 h
        putAll F put es h'

/-- The size a resize is to. -/
def newSize (larger : Bool) (h : Table K V) : Result Nat :=
  let osize := h.mask + 1
  let hcount := h.count
  if larger then
    if hcount > loadHigh osize then do
      let nsize ← whileLoop .diverges (fun n => decide (n ≤ hcount)) (fun n => .ok (n * 2))
        (hcount + 1) osize
      pure (nsize * 2)
    else pure osize
  else
    let loadLow := if osize / 16 < 8 then 8 else osize / 16
    if hcount < loadLow then do
      let nsize ← whileLoop .diverges (fun n => decide (n > hcount)) (fun n => .ok (n / 2))
        (osize + 1) osize
      pure (if nsize * 4 < loadLow then loadLow else nsize * 4)
    else pure osize

/-- `idio_hash_resize`; the first argument is the number of resizes that may be in
progress at once. -/
def hashResize (F : HashFns K) : Nat → Bool → Table K V → Result (Table K V)
  | 0, _, _ => .error .diverges
  | depth + 1, larger, h => do
      let nsize ← newSize larger h
      if nsize = h.mask + 1 then pure h
      else
        let h' ← putAll F (putWith F (hashResize F depth true)) h.ha.flatten (assignHashHe nsize)
        if h.count ≠ (h.ha.flatten.filter fun e => !F.isNil e.1).length then .error (.exit 2)
        else if h.count ≠ h'.count then .error (.exit 3)
        else pure h'

/-- `idio_hash_put`. -/
def hashPut (F : HashFns K) (depth : Nat) (k : K) (v : V) (h : Table K V) :
    Result (Table K V) := putWith F (hashResize F depth true) k v h

/-- `idio_hash_delete`, and whether there was such a key. -/
def hashDelete (F : HashFns K) (depth : Nat) (k : K) (h : Table K V) :
    Result (Bool × Table K V) :=
  if F.isNil k then .error (.paramNil "hash-delete!" "key")
  else
    let hv := h.hashIndex F k
    match erase F.comp k (h.bucket hv) with
    | none => .ok (false, h)
    | some chain =>
        let h' := { h with ha := h.ha.set hv chain, count := h.count - 1 }
        if h'.count < h'.size / 16 then (hashResize F depth false h').map fun h' => (true, h')
        else .ok (true, h')

/-! ## Copying and merging -/

/-- `idio_hash`. -/
def hash (size : Nat) : Table K V := assignHashHe size

/-- `idio_copy_hash`; a deep copy puts `copyValue` of each value. -/
def copyHash (F : HashFns K) (depth : Nat) (copyValue : V → V) (orig : Table K V) :
    Result (Table K V) :=
  putAll F (hashPut F depth) (orig.ha.flatten.map fun e => (e.1, copyValue e.2))
    (assignHashHe orig.count)

/-- `idio_merge_hash`. -/
def mergeHash (F : HashFns K) (depth : Nat) (ht1 ht2 : Table K V) : Result (Table K V) :=
  putAll F (hashPut F depth) ht2.ha.flatten ht1

/-! ## The invariant -/

/-- A table in order. -/
structure InOrder (F : HashFns K) (h : Table K V) : Prop where
  size_pow : ∃ k, h.size = 2 ^ k
  mask_succ : h.mask + 1 = h.size
  chains : h.ha.length = h.size
  /-- every entry is in the chain its hash selects -/
  chained : ∀ i, ∀ e ∈ h.bucket i, F.hash e.1 &&& h.mask = i
  distinct : ∀ i, Distinct F.comp (h.bucket i)
  count_eq : h.count = h.ha.flatten.length
  keys : ∀ e ∈ h.ha.flatten, F.isNil e.1 = false

section Chains

variable {F : HashFns K} {h : Table K V}

theorem InOrder.hashIndex_lt (hi : InOrder F h) (k : K) : h.hashIndex F k < h.ha.length := by
  obtain ⟨n, hn⟩ := hi.size_pow
  have hmask : h.mask = 2 ^ n - 1 := by
    have := hi.mask_succ
    omega
  rw [hashIndex, hmask, Nat.and_two_pow_sub_one_eq_mod, hi.chains, hn]
  exact Nat.mod_lt _ (Nat.two_pow_pos n)

theorem mem_bucket_iff {e : K × V} : (∃ i, e ∈ h.bucket i) ↔ e ∈ h.ha.flatten := by
  rw [List.mem_flatten]
  constructor
  · rintro ⟨i, he⟩
    unfold bucket at he
    by_cases hi : i < h.ha.length
    · rw [List.getD_eq_getElem _ _ hi] at he
      exact ⟨_, List.getElem_mem hi, he⟩
    · rw [List.getD_eq_default _ _ (by omega)] at he
      cases he
  · rintro ⟨c, hc, he⟩
    obtain ⟨i, hi, rfl⟩ := List.mem_iff_getElem.mp hc
    exact ⟨i, by rwa [bucket, List.getD_eq_getElem _ _ hi]⟩

/-- Equal keys select the same chain. -/
theorem hashIndex_congr (hF : F.Lawful) {a b : K} (hab : F.comp a b = true) :
    h.hashIndex F a = h.hashIndex F b := by
  rw [hashIndex, hashIndex, hF.hash_eq a b hab]

/-- A key has no entries outside its chain. -/
theorem InOrder.not_comp (hF : F.Lawful) (hi : InOrder F h) {k : K} {i : Nat}
    (hne : i ≠ h.hashIndex F k) {e : K × V} (he : e ∈ h.bucket i) : F.comp k e.1 = false := by
  rw [← Bool.not_eq_true]
  intro hk
  apply hne
  rw [hashIndex_congr hF hk]
  exact (hi.chained i e he).symm

/-- Looking among all entries is looking in the chain. -/
theorem InOrder.find_entries (hF : F.Lawful) (hi : InOrder F h) :
    find F.comp h.ha.flatten = h.lookup F := by
  funext x
  exact find_flatten fun j hj e he => hi.not_comp hF hj he

/-- No two entries of the table have equal keys. -/
theorem InOrder.entries_distinct (hF : F.Lawful) (hi : InOrder F h) :
    Distinct F.comp h.ha.flatten := by
  refine List.pairwise_flatten.mpr ⟨fun c hc => ?_, ?_⟩
  · obtain ⟨i, hlt, rfl⟩ := List.mem_iff_getElem.mp hc
    have hd := hi.distinct i
    rwa [bucket, List.getD_eq_getElem _ _ hlt] at hd
  · rw [List.pairwise_iff_getElem]
    intro i j hi' hj' hij e he f hf
    have hei : e ∈ h.bucket i := by rwa [bucket, List.getD_eq_getElem _ _ hi']
    have hfj : f ∈ h.bucket j := by rwa [bucket, List.getD_eq_getElem _ _ hj']
    have hidx : h.hashIndex F e.1 = i := hi.chained i e hei
    exact hi.not_comp hF (by omega) hfj

/-- The chains after one is replaced. -/
theorem bucket_set {c : List (K × V)} {i : Nat} (hi : i < h.ha.length) (count : Nat) (j : Nat) :
    ({ h with ha := h.ha.set i c, count := count } : Table K V).bucket j =
      if j = i then c else h.bucket j := by
  simp only [bucket, List.getD_eq_getElem?_getD, List.getElem?_set]
  by_cases hij : i = j
  · subst hij
    simp [hi]
  · simp [hij, Ne.symm hij]

/-- Replacing the chain of `k` by one whose keys belong there. -/
theorem InOrder.set_chain (hi : InOrder F h) (k : K) {c : List (K × V)} {count : Nat}
    (hchained : ∀ e ∈ c, F.hash e.1 &&& h.mask = h.hashIndex F k) (hd : Distinct F.comp c)
    (hcount : count + (h.bucket (h.hashIndex F k)).length = h.count + c.length)
    (hkeys : ∀ e ∈ c, F.isNil e.1 = false) :
    InOrder F { h with ha := h.ha.set (h.hashIndex F k) c, count := count } := by
  have hlt := hi.hashIndex_lt k
  have hbucket := @bucket_set _ _ h c _ hlt count
  refine ⟨hi.size_pow, hi.mask_succ, ?_, fun i e he => ?_, fun i => ?_, ?_, fun e he => ?_⟩
  · show (h.ha.set _ c).length = h.size
    rw [List.length_set, hi.chains]
  · rw [hbucket] at he
    split at he
    · rename_i hij
      rw [hij]
      exact hchained e he
    · exact hi.chained i e he
  · rw [hbucket]
    split
    · exact hd
    · exact hi.distinct i
  · have hlen := length_flatten_set h.ha hlt c
    have hc := hi.count_eq
    show count = (h.ha.set _ c).flatten.length
    unfold bucket at hcount
    omega
  · obtain ⟨i, he⟩ := mem_bucket_iff.mpr he
    rw [hbucket] at he
    split at he
    · exact hkeys e he
    · exact hi.keys e (mem_bucket_iff.mp ⟨i, he⟩)

/-- The map after the chain of `k` is replaced by one that differs on `k` only. -/
theorem lookup_set_chain (hF : F.Lawful) (hi : InOrder F h) (k : K) {c : List (K × V)}
    {count : Nat} {r : Option V}
    (hfind : ∀ x, find F.comp c x =
      if F.comp x k then r else find F.comp (h.bucket (h.hashIndex F k)) x) (x : K) :
    ({ h with ha := h.ha.set (h.hashIndex F k) c, count := count } : Table K V).lookup F x =
      if F.comp x k then r else h.lookup F x := by
  have hlt := hi.hashIndex_lt k
  have hidx : ({ h with ha := h.ha.set (h.hashIndex F k) c, count := count } :
      Table K V).hashIndex F x = h.hashIndex F x := rfl
  rw [lookup, hidx, bucket_set hlt]
  by_cases hxk : h.hashIndex F x = h.hashIndex F k
  · rw [if_pos hxk, hfind, lookup, hxk]
  · have hne : F.comp x k = false := by
      rw [← Bool.not_eq_true]
      exact fun hx => hxk (hashIndex_congr hF hx)
    rw [if_neg hxk, hne]
    rfl

end Chains

end Table

end Idio
