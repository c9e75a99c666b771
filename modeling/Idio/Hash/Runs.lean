/-
  Hash/Runs.lean --- hash tables refine finite maps.

  The operations on a table are compared with those on a map, a function from keys
  to optional values.  The comparator is any equivalence and the hash function any
  that equal keys agree on.

  Each operation has one lemma that says what it returns and which table it leaves;
  the number of resizes that may be in progress at once is any but zero, and the
  lemmas say that it makes no difference.  `tables_refine_maps` follows by induction
  on the operations.
-/
import Idio.Hash.Resize

set_option autoImplicit false

namespace Idio

open KeyedList

namespace Table

variable {K V : Type} {F : HashFns K}

/-! ## The operations -/

theorem new_fits (size : Nat) : Fits F (assignHashHe size : Table K V) :=
  ⟨assignHashHe_inOrder size, Nat.zero_le _⟩

theorem hashPut_spec (hF : F.Lawful) {h : Table K V} (hfits : Fits F h) {k : K}
    (hk : F.isNil k = false) (v : V) :
    ∃ h', (∀ depth, hashPut F (depth + 1) k v h = .ok h') ∧ Fits F h' ∧
      h'.lookup F = update F.comp (h.lookup F) k v := by
  obtain ⟨hi, hlook, hsize, -⟩ := putEntry_spec hF hfits.inOrder hk v
  by_cases hload : (putEntry F k v h).count > loadHigh (putEntry F k v h).size
  · obtain ⟨h', hrun, hfits', hlook', -⟩ := hashResize_spec hF hi (Or.inl rfl : true = true ∨ _)
    refine ⟨h', fun depth => ?_, hfits', by rw [hlook', hlook]⟩
    rw [← hrun depth]
    simp only [hashPut, putWith, hk, Bool.false_eq_true, if_false, if_pos hload]
  · refine ⟨putEntry F k v h, fun depth => ?_, ⟨hi, Nat.not_lt.mp hload⟩, hlook⟩
    simp only [hashPut, putWith, hk, Bool.false_eq_true, if_false, if_neg hload]

theorem hashDelete_spec (hF : F.Lawful) {h : Table K V} (hfits : Fits F h) {k : K}
    (hk : F.isNil k = false) :
    ∃ h', (∀ depth, hashDelete F (depth + 1) k h = .ok ((h.lookup F k).isSome, h')) ∧
      Fits F h' ∧ h'.lookup F = remove F.comp (h.lookup F) k := by
  have hi := hfits.inOrder
  cases herase : erase F.comp k (h.bucket (h.hashIndex F k)) with
  | none =>
    have hfree : h.lookup F k = none := erase_eq_none_iff.mp herase
    refine ⟨h, fun depth => ?_, hfits, ?_⟩
    · simp only [hashDelete, hk, Bool.false_eq_true, if_false, herase, hfree]
      rfl
    · funext x
      rw [remove]
      split
      · rename_i hx
        rw [lookup, find_eq_none_iff] at hfree ⊢
        rw [hashIndex_congr hF hx]
        intro e he
        rw [hF.equiv.congr_left hx]
        exact hfree e he
      · rfl
  | some chain =>
    obtain ⟨hsub, hlen⟩ := erase_sublist herase
    have hthere : (h.lookup F k).isSome = true := by
      rw [Option.isSome_iff_ne_none]
      intro hfree
      rw [erase_eq_none_iff.mpr hfree] at herase
      cases herase
    have hcount : 0 < h.count := by
      have hlt := hi.hashIndex_lt k
      have hset := length_flatten_set h.ha hlt chain
      have hentries := hi.count_eq
      unfold bucket at hlen
      omega
    have hi' : InOrder F { h with ha := h.ha.set (h.hashIndex F k) chain, count := h.count - 1 } :=
      hi.set_chain k (fun e he => hi.chained _ e (hsub.subset he))
        ((hi.distinct _).sublist hsub) (by omega)
        (fun e he => hi.keys e (mem_bucket_iff.mp ⟨_, hsub.subset he⟩))
    have hlook : Table.lookup F
        { h with ha := h.ha.set (h.hashIndex F k) chain, count := h.count - 1 } =
          remove F.comp (h.lookup F) k := by
      funext x
      exact lookup_set_chain hF hi k (find_erase hF.equiv (hi.distinct _) herase) x
    by_cases hlow : h.count - 1 < h.size / 16
    · have hroom : h.count - 1 ≤ loadHigh h.size := by
        unfold loadHigh
        omega
      obtain ⟨h', hrun, hfits', hlook', -⟩ :=
        hashResize_spec hF hi' (Or.inr hroom : false = true ∨ _)
      refine ⟨h', fun depth => ?_, hfits', by rw [hlook', hlook]⟩
      simp only [hashDelete, hk, Bool.false_eq_true, if_false, herase, if_pos hlow, hrun, hthere]
      rfl
    · have hload := hfits.load
      refine ⟨_, fun depth => ?_, ⟨hi', show h.count - 1 ≤ loadHigh h.size by omega⟩, hlook⟩
      simp only [hashDelete, hk, Bool.false_eq_true, if_false, herase, if_neg hlow, hthere]

/-- The entries of another table, or changed ones of this, put one after another. -/
theorem putAll_hashPut_spec (hF : F.Lawful) (es : List (K × V)) {h : Table K V}
    (hfits : Fits F h) :
    ∃ h', (∀ depth, putAll F (hashPut F (depth + 1)) es h = .ok h') ∧ Fits F h' ∧
      h'.lookup F = putEach F.comp (h.lookup F) (live F es) :=
  @putAll_spec K V F Nat (fun depth => hashPut F (depth + 1)) (fun _ h => Fits F h)
    (fun _ _ _ _ hfits => hfits) (fun e _ _ hnil hfits => hashPut_spec hF hfits hnil e.2)
    es h hfits

theorem copyHash_spec (hF : F.Lawful) (copyValue : V → V) {h : Table K V} (hfits : Fits F h) :
    ∃ h', (∀ depth, copyHash F (depth + 1) copyValue h = .ok h') ∧ Fits F h' ∧
      h'.lookup F = fun k => (h.lookup F k).map copyValue := by
  have hi := hfits.inOrder
  obtain ⟨h', hrun, hfits', hlook⟩ := putAll_hashPut_spec hF
    (h.ha.flatten.map fun e => (e.1, copyValue e.2)) (new_fits h.count)
  refine ⟨h', hrun, hfits', ?_⟩
  have hlive : live F (h.ha.flatten.map fun e => (e.1, copyValue e.2)) =
      h.ha.flatten.map fun e => (e.1, copyValue e.2) := by
    apply List.filter_eq_self.mpr
    intro e he
    obtain ⟨e', he', rfl⟩ := List.mem_map.mp he
    simp [hi.keys e' he']
  funext x
  rw [hlook, hlive, putEach_eq_override hF.equiv (distinct_map copyValue (hi.entries_distinct hF)),
    override, lookup_assignHashHe, Option.or_none, find_map, hi.find_entries hF]

/-! ## Runs -/

/-- The operations on a table. -/
inductive HashOp (K V : Type) where
  | put (k : K) (v : V)
  | delete (k : K)
  | ref (k : K)
  /-- another table, which may have other functions, is merged into this one -/
  | merge (ht2 : Table K V)
  /-- the run goes on with the copy -/
  | copy (copyValue : V → V)
  | resize (larger : Bool)

/-- What an operation returns. -/
inductive Answer (V : Type) where
  | done
  | found (there : Bool)
  | value (v : Option V)
  deriving DecidableEq, Repr

/-- What a call returns, and the table after it. -/
def outcome (h : Table K V) (res : Result (Answer V × Table K V)) :
    Result (Answer V) × Table K V :=
  match res with
  | .ok (answer, h') => (.ok answer, h')
  | .error e => (.error e, h)

/-- One operation on a table. -/
def step (F : HashFns K) (depth : Nat) (op : HashOp K V) (h : Table K V) :
    Result (Answer V) × Table K V :=
  outcome h (match op with
    | .put k v => (hashPut F depth k v h).map fun h' => (.done, h')
    | .delete k => (hashDelete F depth k h).map fun r => (.found r.1, r.2)
    | .ref k => (hashRef F h k).map fun v => (.value v, h)
    | .merge ht2 => (mergeHash F depth h ht2).map fun h' => (.done, h')
    | .copy copyValue => (copyHash F depth copyValue h).map fun h' => (.done, h')
    | .resize larger => (hashResize F depth larger h).map fun h' => (.done, h'))

/-- The same operation on a map. -/
def mapStep (F : HashFns K) (op : HashOp K V) (m : KeyMap K V) :
    Result (Answer V) × KeyMap K V :=
  match op with
  | .put k v =>
      if F.isNil k then (.error (.paramNil "hash-set!" "key"), m)
      else (.ok .done, update F.comp m k v)
  | .delete k =>
      if F.isNil k then (.error (.paramNil "hash-delete!" "key"), m)
      else (.ok (.found (m k).isSome), remove F.comp m k)
  | .ref k =>
      if F.isNil k then (.error (.paramNil "hash-ref" "key"), m)
      else (.ok (.value (m k)), m)
  | .merge ht2 => (.ok .done, putEach F.comp m (live F ht2.ha.flatten))
  | .copy copyValue => (.ok .done, fun k => (m k).map copyValue)
  | .resize _ => (.ok .done, m)

/-- The table is in order and its entries are those of the map, each key once. -/
structure Refines (F : HashFns K) (h : Table K V) (m : KeyMap K V) : Prop
    extends InOrder F h where
  load : h.count ≤ loadHigh h.size
  entries : ∀ k v, m k = some v ↔ ∃ e ∈ h.ha.flatten, F.comp k e.1 = true ∧ e.2 = v
  once : Distinct F.comp h.ha.flatten

theorem Fits.refines (hF : F.Lawful) {h : Table K V} (hfits : Fits F h) {m : KeyMap K V}
    (hm : h.lookup F = m) : Refines F h m := by
  have hd := hfits.inOrder.entries_distinct hF
  refine ⟨hfits.inOrder, hfits.load, fun k v => ?_, hd⟩
  rw [← hm, ← hfits.inOrder.find_entries hF]
  exact find_eq_some_iff hF.equiv hd

theorem Refines.lookup_eq (hF : F.Lawful) {h : Table K V} {m : KeyMap K V}
    (href : Refines F h m) : h.lookup F = m := by
  funext k
  apply Option.ext
  intro v
  rw [href.entries, ← href.find_entries hF]
  exact find_eq_some_iff hF.equiv href.once

/-- **One step** does on the table what it does on the map, and leaves the table in
order.  It needs no more than one resize at a time. -/
theorem step_refines (hF : F.Lawful) (op : HashOp K V) {h : Table K V} {m : KeyMap K V}
    (href : Refines F h m) :
    ∃ h', (∀ depth, step F (depth + 1) op h = ((mapStep F op m).1, h')) ∧
      Refines F h' (mapStep F op m).2 := by
  have hm := href.lookup_eq hF
  have hfits : Fits F h := ⟨href.toInOrder, href.load⟩
  subst hm
  cases op with
  | put k v =>
    cases hk : F.isNil k with
    | true =>
      refine ⟨h, fun depth => ?_, ?_⟩
      · simp only [step, hashPut, putWith, mapStep, hk, if_true]
        rfl
      · simpa only [mapStep, hk, if_true] using href
    | false =>
      obtain ⟨h', hrun, hfits', hlook⟩ := hashPut_spec hF hfits hk v
      refine ⟨h', fun depth => ?_, ?_⟩
      · simp only [step, hrun, mapStep, hk, Bool.false_eq_true, if_false]
        rfl
      · simp only [mapStep, hk, Bool.false_eq_true, if_false]
        exact hfits'.refines hF hlook
  | delete k =>
    cases hk : F.isNil k with
    | true =>
      refine ⟨h, fun depth => ?_, ?_⟩
      · simp only [step, hashDelete, mapStep, hk, if_true]
        rfl
      · simpa only [mapStep, hk, if_true] using href
    | false =>
      obtain ⟨h', hrun, hfits', hlook⟩ := hashDelete_spec hF hfits hk
      refine ⟨h', fun depth => ?_, ?_⟩
      · simp only [step, hrun, mapStep, hk, Bool.false_eq_true, if_false]
        rfl
      · simp only [mapStep, hk, Bool.false_eq_true, if_false]
        exact hfits'.refines hF hlook
  | ref k =>
    refine ⟨h, fun depth => ?_, ?_⟩
    · cases hk : F.isNil k <;> simp only [step, hashRef, mapStep, hk] <;> rfl
    · have hsame : (mapStep F (.ref k) (h.lookup F)).2 = h.lookup F := by
        cases hk : F.isNil k <;> simp only [mapStep, hk] <;> rfl
      rw [hsame]
      exact href
  | merge ht2 =>
    obtain ⟨h', hrun, hfits', hlook⟩ := putAll_hashPut_spec hF ht2.ha.flatten hfits
    refine ⟨h', fun depth => ?_, hfits'.refines hF hlook⟩
    simp only [step, mergeHash, hrun]
    rfl
  | copy copyValue =>
    obtain ⟨h', hrun, hfits', hlook⟩ := copyHash_spec hF copyValue hfits
    refine ⟨h', fun depth => ?_, hfits'.refines hF hlook⟩
    simp only [step, hrun]
    rfl
  | resize larger =>
    obtain ⟨h', hrun, hfits', hlook, -⟩ :=
      hashResize_spec hF hfits.inOrder (Or.inr hfits.load : larger = true ∨ _)
    refine ⟨h', fun depth => ?_, hfits'.refines hF hlook⟩
    simp only [step, hrun]
    rfl

/-- At every point of the run the table is in order and has the entries of the map,
and every step returns or raises the same on both. -/
def Agree (F : HashFns K) (depth : Nat) : List (HashOp K V) → Table K V → KeyMap K V → Prop
  | [], h, m => Refines F h m
  | op :: ops, h, m =>
      Refines F h m ∧ (step F depth op h).1 = (mapStep F op m).1 ∧
        Agree F depth ops (step F depth op h).2 (mapStep F op m).2

/-- A table in order, and the map it stands for. -/
structure MapTable (F : HashFns K) (V : Type) where
  table : Table K V
  map : KeyMap K V
  refines : Refines F table map

/-- **Hash tables refine finite maps** in every run, with no more than one resize in
progress at a time. -/
theorem tables_refine_maps (hF : F.Lawful) (depth : Nat) (ops : List (HashOp K V))
    (h : MapTable F V) : Agree F (depth + 1) ops h.table h.map := by
  obtain ⟨h, m, href⟩ := h
  induction ops generalizing h m with
  | nil => exact href
  | cons op ops ih =>
    obtain ⟨h', hrun, href'⟩ := step_refines hF op href
    refine ⟨href, by rw [hrun], ?_⟩
    rw [hrun]
    exact ih h' _ href'

/-- A new table. -/
def MapTable.new (hF : F.Lawful) (size : Nat) : MapTable F V :=
  ⟨hash size, fun _ => none, (new_fits size).refines hF (funext (lookup_assignHashHe size))⟩

/-- Numbers compared by their last digit, with zero for `#n`. -/
def lastDigit : HashFns Nat := ⟨fun a b => a % 10 == b % 10, fun a => a % 10, fun a => a == 0⟩

theorem lastDigit_lawful : lastDigit.Lawful where
  equiv := by
    refine ⟨fun a => ?_, fun a b h => ?_, fun a b c h h' => ?_⟩ <;>
      simp only [lastDigit, beq_iff_eq] at *
    · exact h.symm
    · exact h.trans h'
  hash_eq := by
    intro a b h
    simpa only [lastDigit, beq_iff_eq] using h

theorem tables_refine_maps_lastDigit :
    Agree lastDigit 1 [.put 1 "a", .put 12 "b", .put 21 "c", .delete 2, .resize true, .put 0 "d",
      .copy id, .ref 31] (hash 1) fun _ => none :=
  tables_refine_maps lastDigit_lawful 0 _ (MapTable.new lastDigit_lawful 1)

end Table

end Idio
