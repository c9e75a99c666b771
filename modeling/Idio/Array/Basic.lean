/-
  Array/Basic.lean --- arrays with an allocated and a used size.

  An array is `asize` slots, of which the first `usize` are in use; the slots
  beyond are meant to hold the array's default value, so that the used size can
  grow over them.  A slot of the model is `none` between its allocation and the
  first write to it, and reading it then, or touching memory outside the slots,
  is `Fault.undefined`.

  `Refines a l` says that `a` holds the list `l` and is in order.  For each
  operation there is one lemma that says which list it leaves behind; all of them
  come down to `store_refines`, one write within the allocation, and
  `resizeArrayTo_refines`.
-/
import Idio.Basic
import Mathlib.Data.List.GetD

set_option autoImplicit false

namespace Idio

/-- `idio_array_t`. -/
structure IdioArray (α : Type) where
  /-- the memory `ae` points to -/
  ae : List (Option α)
  /-- `IDIO_ARRAY_ASIZE` -/
  asize : Nat
  /-- `IDIO_ARRAY_USIZE` -/
  usize : Nat
  /-- `IDIO_ARRAY_DV` -/
  dv : α
  deriving DecidableEq, Repr

/-- A C function that works on an array; a condition leaves the array as it is at
that point. -/
abbrev ArrayM (α β : Type) : Type := EStateM Fault (IdioArray α) β

namespace IdioArray

variable {α β : Type}

/-! ## Memory -/

/-- `IDIO_ARRAY_AE (a, i)`. -/
def load (i : Nat) : ArrayM α α := fun a =>
  match a.ae[i]? with
  | some (some v) => .ok v a
  | _ => .error .undefined a

/-- `IDIO_ARRAY_AE (a, i) = o`. -/
def store (o : α) (i : Nat) : ArrayM α Unit := fun a =>
  if i < a.ae.length then .ok () { a with ae := a.ae.set i (some o) }
  else .error .undefined a

/-- `for (i = from; i < from + n; i++) IDIO_ARRAY_AE (a, i) = dv`. -/
def fillLoop (dv : α) : Nat → Nat → List (Option α) → List (Option α)
  | _, 0, ae => ae
  | i, n + 1, ae => fillLoop dv (i + 1) n (ae.set i (some dv))

/-- `IDIO_GC_REALLOC`. -/
def realloc (ae : List (Option α)) (nsize : Nat) : List (Option α) :=
  ae.take nsize ++ List.replicate (nsize - ae.length) none

/-! ## Construction and growth -/

/-- `idio_assign_array`. -/
def assignArray (asize : Nat) (dv : α) : IdioArray α :=
  ⟨fillLoop dv 0 asize (List.replicate asize none), asize, 0, dv⟩

/-- `idio_array_dv`. -/
def arrayDv (size0 : Nat) (dv : α) : IdioArray α :=
  assignArray (if size0 = 0 then 1 else size0) dv

/-- The primitive `make-array`, its size checked. -/
def makeArray (alen : Nat) (dv : α) : IdioArray α := { arrayDv alen dv with usize := alen }

/-- `idio_resize_array_to`. -/
def resizeArrayTo (a : IdioArray α) (nsize : Nat) : IdioArray α :=
  { a with
    ae := fillLoop a.dv a.usize (nsize - a.usize) (realloc a.ae nsize)
    asize := nsize }

/-- The new size in `idio_resize_array`. -/
def nextSize (oasize : Nat) : Nat := if oasize < 1024 then oasize * 2 else oasize + 1024

/-- `idio_resize_array`. -/
def resizeArray (a : IdioArray α) : IdioArray α := resizeArrayTo a (nextSize a.asize)

/-! ## References and assignments -/

/-- The condition of `idio_array_bounds_error`. -/
def boundsError (index : Int) (size : Nat) : Fault :=
  .arrayError ("array bounds error: abs (" ++ toString index ++ ") >= #elem " ++ toString size)

/-- `idio_array_ref_index`. -/
def refIndex (index : Int) : ArrayM α α := fun a =>
  let i := if index < 0 then index + a.usize else index
  if i < 0 then .error (boundsError index a.usize) a
  else if i ≥ a.usize then .error (boundsError i a.usize) a
  else load i.toNat a

/-- The end of `idio_array_insert_index`: the write, and the used size. -/
def put (o : α) (index : Nat) : ArrayM α Unit := do
  store o index
  modify fun a => { a with usize := if index + 1 > a.usize then index + 1 else a.usize }

/-- `idio_array_insert_index`. -/
def insertIndex (o : α) (index : Int) : ArrayM α Unit := fun a =>
  if index < 0 then
    if index + a.usize < 0 then .error (boundsError index a.usize) a
    else put o (index + a.usize).toNat a
  else if index ≥ a.asize then
    if index < a.asize + 1 then put o index.toNat (resizeArray a)
    else .error (boundsError index a.asize) a
  else put o index.toNat a

/-- `idio_array_set`, the index being an integer. -/
def arraySet (index : Int) (v : α) : ArrayM α Unit := fun a =>
  if index < 0 then
    if index + a.usize < 0 then .error (boundsError index a.usize) a
    else insertIndex v (index + a.usize) a
  else if index ≥ a.usize + 1 then .error (boundsError index a.usize) a
  else insertIndex v index a

/-! ## The array as a stack and a queue -/

/-- `idio_array_push`. -/
def push (o : α) : ArrayM α Unit := fun a => insertIndex o a.usize a

/-- `while ((index + nargs) >= IDIO_ARRAY_ASIZE (a)) idio_resize_array (a);` -/
def growLoop (need : Nat) : Nat → ArrayM α Unit
  | 0 => throw .diverges
  | fuel + 1 => do
      if need ≥ (← get).asize then
        modify resizeArray
        growLoop need fuel
      else pure ()

/-- The writes of `idio_array_push_n`. -/
def storeAll : Nat → List α → ArrayM α Unit
  | _, [] => pure ()
  | i, arg :: args => do
      store arg i
      storeAll (i + 1) args

/-- `idio_array_push_n`. -/
def pushN (args : List α) : ArrayM α Unit := do
  let index := (← get).usize
  growLoop (index + args.length) (index + args.length + 1)
  storeAll index args
  modify fun a =>
    { a with usize := if index + args.length > a.usize then index + args.length else a.usize }

/-- `idio_array_pop`; `none` stands for `#n`, the array being empty. -/
def pop : ArrayM α (Option α) := do
  let usize := (← get).usize
  if usize < 1 then
    modify fun a => { a with usize := 0 }
    pure none
  else
    let e ← load (usize - 1)
    store (← get).dv (usize - 1)
    modify fun a => { a with usize := a.usize - 1 }
    pure (some e)

/-- The loop of `idio_array_shift`. -/
def shiftLoop : Nat → Nat → ArrayM α Unit
  | 0, _ => throw .diverges
  | fuel + 1, i => do
      if i < (← get).usize - 1 then
        let e ← refIndex (i + 1 : Nat)
        insertIndex e i
        shiftLoop fuel (i + 1)
      else pure ()

/-- `idio_array_shift`. -/
def shift : ArrayM α (Option α) := do
  let usize := (← get).usize
  if usize < 1 then
    modify fun a => { a with usize := 0 }
    pure none
  else
    let e ← refIndex 0
    shiftLoop usize 0
    let _ ← pop
    pure (some e)

/-- The loop of `idio_array_unshift`, from `i` down to 1. -/
def unshiftLoop : Nat → ArrayM α Unit
  | 0 => pure ()
  | i + 1 => do
      let e ← refIndex i
      insertIndex e (i + 1 : Nat)
      unshiftLoop i

/-- `idio_array_unshift`. -/
def unshift (o : α) : ArrayM α Unit := do
  unshiftLoop (← get).usize
  insertIndex o 0

/-- The loop of `array-fill!`, from `ai` on for `n` more elements. -/
def arrayFillLoop (fill : α) : Nat → Nat → ArrayM α Unit
  | _, 0 => pure ()
  | ai, n + 1 => do
      insertIndex fill ai
      arrayFillLoop fill (ai + 1) n

/-- The primitive `array-fill!`. -/
def arrayFill (fill : α) : ArrayM α Unit := do
  arrayFillLoop fill 0 (← get).usize

/-! ## Copies -/

/-- `IDIO_COPY_SHALLOW` and `IDIO_COPY_DEEP`. -/
inductive CopyDepth where
  | shallow
  | deep
  deriving DecidableEq, Repr

/-- What is stored for an element: a deep copy goes through `idio_copy`. -/
def CopyDepth.elem (depth : CopyDepth) (idioCopy : α → α) (e : α) : α :=
  match depth with
  | .shallow => e
  | .deep => idioCopy e

/-- The loop that `idio_copy_array` and `idio_duplicate_array` share: the elements
of `o` from `i` on, `n` of them, are put at the same index. -/
def copyLoop (idioCopy : α → α) (depth : CopyDepth) (o : IdioArray α) :
    Nat → Nat → ArrayM α Unit
  | _, 0 => pure ()
  | i, n + 1 => do
      match refIndex (i : Int) o with
      | .error err _ => throw err
      | .ok e _ =>
          insertIndex (depth.elem idioCopy e) i
          copyLoop idioCopy depth o (i + 1) n

/-- `idio_copy_array`: the new array. -/
def copyArray (idioCopy : α → α) (depth : CopyDepth) (extra : Nat) (a : IdioArray α) :
    EStateM.Result Fault (IdioArray α) Unit :=
  copyLoop idioCopy depth a 0 a.usize (arrayDv (a.usize + extra) a.dv)

/-- `idio_duplicate_array` into this array, `o` being another array. -/
def duplicateArray (idioCopy : α → α) (o : IdioArray α) (n : Nat) (depth : CopyDepth) :
    ArrayM α Unit := do
  let osz := if n ≠ 0 then n else o.usize
  modify fun a => { a with ae := if osz > a.asize then List.replicate osz none else a.ae }
  modify fun a => { a with usize := osz }
  copyLoop idioCopy depth o 0 osz

/-! ## Arrays and the lists they hold -/

/-- The array is in order and holds the list `l`. -/
structure Refines (a : IdioArray α) (l : List α) : Prop where
  size : a.usize = l.length
  fits : a.usize ≤ a.asize
  alloc : a.ae.length = a.asize
  pos : 0 < a.asize
  /-- the used slots hold the elements -/
  used : ∀ i, i < a.usize → a.ae[i]? = l[i]?.map some
  /-- the other slots hold the default value -/
  spare : ∀ i, a.usize ≤ i → i < a.asize → a.ae[i]? = some (some a.dv)

variable {a : IdioArray α} {i : Nat} {l : List α}

/-- The contents of every slot at once. -/
theorem Refines.slot (h : Refines a l) (hi : i < a.asize) :
    a.ae[i]? = some (some (l.getD i a.dv)) := by
  have hsize := h.size
  by_cases hu : i < a.usize
  · have hl : i < l.length := by omega
    rw [h.used i hu, List.getElem?_eq_getElem hl, List.getD_eq_getElem _ _ hl]
    rfl
  · have hl : l.length ≤ i := by omega
    rw [h.spare i (by omega) hi, List.getD_eq_default _ _ hl]

theorem refines_of_slot (hsize : a.usize = l.length) (hfits : a.usize ≤ a.asize)
    (halloc : a.ae.length = a.asize) (hpos : 0 < a.asize)
    (hslot : ∀ i, i < a.asize → a.ae[i]? = some (some (l.getD i a.dv))) : Refines a l := by
  refine ⟨hsize, hfits, halloc, hpos, fun i hi => ?_, fun i hu hi => ?_⟩
  · have hl : i < l.length := by omega
    rw [hslot i (by omega), List.getElem?_eq_getElem hl, List.getD_eq_getElem _ _ hl]
    rfl
  · have hl : l.length ≤ i := by omega
    rw [hslot i hi, List.getD_eq_default _ _ hl]

/-- A call returns `v` and leaves an array that holds `l`, with the same default. -/
def Leaves (res : EStateM.Result Fault (IdioArray α) β) (v : β) (l : List α) (dv : α) : Prop :=
  ∃ a', res = .ok v a' ∧ Refines a' l ∧ a'.dv = dv

/-! ### Sequencing -/

theorem bind_ok {γ : Type} {x : ArrayM α β} {f : β → ArrayM α γ} {a' : IdioArray α} {v : β}
    (h : x a = .ok v a') : (x >>= f) a = f v a' := by
  show EStateM.bind x f a = _
  simp only [EStateM.bind, h]

@[simp] theorem get_bind (f : IdioArray α → ArrayM α β) (a : IdioArray α) :
    ((get : ArrayM α (IdioArray α)) >>= f) a = f a a := rfl

@[simp] theorem modify_bind (g : IdioArray α → IdioArray α) (f : PUnit → ArrayM α β)
    (a : IdioArray α) : ((modify g : ArrayM α PUnit) >>= f) a = f ⟨⟩ (g a) := rfl

@[simp] theorem modify_apply (g : IdioArray α → IdioArray α) (a : IdioArray α) :
    (modify g : ArrayM α PUnit) a = .ok ⟨⟩ (g a) := rfl

@[simp] theorem pure_apply (v : β) (a : IdioArray α) : (pure v : ArrayM α β) a = .ok v a := rfl

/-! ### Filling and growing -/

theorem fillLoop_length (dv : α) (i n : Nat) (ae : List (Option α)) :
    (fillLoop dv i n ae).length = ae.length := by
  induction n generalizing i ae with
  | zero => rfl
  | succ n ih => rw [fillLoop, ih, List.length_set]

theorem fillLoop_getElem? (dv : α) (i n : Nat) {ae : List (Option α)} {j : Nat}
    (hj : j < ae.length) :
    (fillLoop dv i n ae)[j]? = if i ≤ j ∧ j < i + n then some (some dv) else ae[j]? := by
  induction n generalizing i ae with
  | zero =>
    rw [if_neg (by omega)]
    rfl
  | succ n ih =>
    rw [fillLoop, ih (i + 1) (by rwa [List.length_set]), List.getElem?_set]
    by_cases hij : i = j
    · subst hij
      rw [if_neg (by omega), if_pos rfl, if_pos hj, if_pos (by omega)]
    · rw [if_neg hij]
      by_cases hin : i + 1 ≤ j ∧ j < i + 1 + n
      · rw [if_pos hin, if_pos (by omega)]
      · rw [if_neg hin, if_neg (by omega)]

theorem realloc_length (ae : List (Option α)) (nsize : Nat) :
    (realloc ae nsize).length = nsize := by
  rw [realloc, List.length_append, List.length_take, List.length_replicate]
  omega

variable {nsize : Nat}

theorem realloc_getElem? {ae : List (Option α)} {j : Nat} (hj : j < nsize) (ha : j < ae.length) :
    (realloc ae nsize)[j]? = ae[j]? := by
  rw [realloc, List.getElem?_append_left (by rw [List.length_take]; omega), List.getElem?_take,
    if_pos hj]

/-- The slots of a resized array: what was in use is kept, the rest is filled. -/
theorem resizeArrayTo_slot (a : IdioArray α) (hi : i < nsize) :
    (resizeArrayTo a nsize).ae[i]? =
      if a.usize ≤ i then some (some a.dv) else (realloc a.ae nsize)[i]? := by
  simp only [resizeArrayTo]
  rw [fillLoop_getElem? _ _ _ (by rwa [realloc_length])]
  by_cases hu : a.usize ≤ i
  · rw [if_pos (by omega), if_pos hu]
  · rw [if_neg (by omega), if_neg hu]

theorem resizeArrayTo_length (a : IdioArray α) (nsize : Nat) :
    (resizeArrayTo a nsize).ae.length = nsize := by
  simp only [resizeArrayTo]
  rw [fillLoop_length, realloc_length]

/-- Resizing to no less than the used size keeps the list. -/
theorem resizeArrayTo_refines (h : Refines a l) (hle : a.usize ≤ nsize) (hpos : 0 < nsize) :
    Refines (resizeArrayTo a nsize) l := by
  refine refines_of_slot h.size hle (resizeArrayTo_length a nsize) hpos fun i hi => ?_
  have hsize := h.size
  have hi' : i < nsize := hi
  rw [resizeArrayTo_slot a hi']
  split
  · rename_i hu
    rw [List.getD_eq_default _ _ (by omega)]
    rfl
  · rename_i hu
    have hfits := h.fits
    have halloc := h.alloc
    rw [realloc_getElem? hi' (by omega)]
    exact h.slot (by omega)

theorem lt_nextSize {n : Nat} (h : 0 < n) : n < nextSize n := by
  unfold nextSize
  split <;> omega

theorem resizeArray_refines (h : Refines a l) :
    Refines (resizeArray a) l := by
  have hlt := lt_nextSize h.pos
  have hfits := h.fits
  exact resizeArrayTo_refines h (by omega) (by omega)

/-- A new array is empty. -/
theorem arrayDv_refines (size0 : Nat) (dv : α) : Refines (arrayDv size0 dv) [] := by
  refine refines_of_slot rfl (Nat.zero_le _) ?_ ?_ fun i hi => ?_
  · simp [arrayDv, assignArray, fillLoop_length]
  · simp only [arrayDv, assignArray]
    split <;> omega
  · simp only [arrayDv, assignArray] at hi ⊢
    rw [fillLoop_getElem? _ _ _ (by rwa [List.length_replicate]), if_pos (by omega)]
    rfl

/-- `make-array` gives that many default values. -/
theorem makeArray_refines (alen : Nat) (dv : α) :
    Refines (makeArray alen dv) (List.replicate alen dv) := by
  have h := arrayDv_refines alen dv
  have hfits : alen ≤ (arrayDv alen dv).asize := by
    simp only [arrayDv, assignArray]
    split <;> omega
  refine refines_of_slot (by simp [makeArray]) hfits h.alloc h.pos fun i hi => ?_
  have hslot : (arrayDv alen dv).ae[i]? = some (some dv) := h.spare i (Nat.zero_le _) hi
  have hget : (List.replicate alen dv).getD i dv = dv := by
    by_cases hlt : i < alen
    · exact List.getD_replicate dv hlt
    · exact List.getD_eq_default _ _ (by rw [List.length_replicate]; omega)
  show (arrayDv alen dv).ae[i]? = some (some ((List.replicate alen dv).getD i dv))
  rw [hslot, hget]

/-! ### One write -/

/-- The list with `v` at the index `i`, the elements up to it being default values
where the list is shorter. -/
def putAt (dv : α) (l : List α) (i : Nat) (v : α) : List α :=
  if i < l.length then l.set i v else l ++ List.replicate (i - l.length) dv ++ [v]

theorem putAt_length (dv : α) (l : List α) (i : Nat) (v : α) :
    (putAt dv l i v).length = if i + 1 > l.length then i + 1 else l.length := by
  unfold putAt
  split
  · rw [List.length_set, if_neg (by omega)]
  · simp only [List.length_append, List.length_replicate, List.length_singleton]
    rw [if_pos (by omega)]
    omega

theorem putAt_getD (dv : α) (l : List α) (i : Nat) (v : α) (j : Nat) :
    (putAt dv l i v).getD j dv = if j = i then v else l.getD j dv := by
  unfold putAt
  split
  · rename_i hi
    simp only [List.getD_eq_getElem?_getD, List.getElem?_set]
    by_cases hj : j = i
    · subst hj
      simp [hi]
    · simp [hj, Ne.symm hj]
  · rename_i hi
    rcases Nat.lt_trichotomy j i with hlt | rfl | hgt
    · rw [List.getD_append _ _ _ _ (by simp; omega), if_neg (by omega)]
      by_cases hl : j < l.length
      · rw [List.getD_append _ _ _ _ hl]
      · rw [List.getD_append_right _ _ _ _ (by omega), List.getD_replicate dv (by omega),
          List.getD_eq_default _ _ (by omega)]
    · rw [List.getD_append_right _ _ _ _ (by simp; omega), if_pos rfl]
      have hz : j - (l ++ List.replicate (j - l.length) dv).length = 0 := by
        simp only [List.length_append, List.length_replicate]
        omega
      rw [hz]
      rfl
    · rw [List.getD_eq_default _ _ (by simp; omega), List.getD_eq_default _ _ (by omega),
        if_neg (by omega)]

/-- A write within the allocation. -/
theorem put_refines (h : Refines a l) (hi : i < a.asize) (o : α) :
    ∃ a', put o i a = .ok () a' ∧ Refines a' (putAt a.dv l i o) ∧ a'.dv = a.dv ∧
      a'.asize = a.asize := by
  have halloc := h.alloc
  have hfits := h.fits
  have hsize := h.size
  have hstore : store o i a = .ok () { a with ae := a.ae.set i (some o) } := by
    rw [store, if_pos (by omega)]
  refine ⟨{ a with ae := a.ae.set i (some o), usize := if i + 1 > a.usize then i + 1 else a.usize },
    ?_, refines_of_slot ?_ ?_ ?_ h.pos ?_, rfl, rfl⟩
  · rw [put, bind_ok hstore]
    rfl
  · rw [putAt_length, ← hsize]
  · show (if i + 1 > a.usize then i + 1 else a.usize) ≤ a.asize
    split <;> omega
  · show (a.ae.set i (some o)).length = a.asize
    rw [List.length_set, halloc]
  · intro j hj
    show (a.ae.set i (some o))[j]? = some (some ((putAt a.dv l i o).getD j a.dv))
    rw [putAt_getD, List.getElem?_set]
    by_cases hij : i = j
    · subst hij
      rw [if_pos rfl, if_pos (by omega), if_pos rfl]
    · rw [if_neg hij, if_neg (Ne.symm hij)]
      exact h.slot hj

/-- `idio_array_insert_index` at an index that is not negative. -/
theorem insertIndex_nat (h : Refines a l) (hi : i ≤ a.asize) (o : α) :
    ∃ a', insertIndex o i a = .ok () a' ∧ Refines a' (putAt a.dv l i o) ∧ a'.dv = a.dv ∧
      (i < a.asize → a'.asize = a.asize) := by
  unfold insertIndex
  rw [if_neg (by omega)]
  by_cases hroom : i < a.asize
  · obtain ⟨a', hrun, href, hdv, hsize⟩ := put_refines h hroom o
    exact ⟨a', by rw [if_neg (by omega)]; exact hrun, href, hdv, fun _ => hsize⟩
  · have hgrow : i < (resizeArray a).asize := by
      have := lt_nextSize h.pos
      show i < nextSize a.asize
      omega
    obtain ⟨a', hrun, href, hdv, -⟩ := put_refines (resizeArray_refines h) hgrow o
    refine ⟨a', ?_, href, hdv, fun hlt => absurd hlt hroom⟩
    rw [if_pos (by omega), if_pos (by omega)]
    exact hrun

/-- The used slots hold the list; the others may hold anything. -/
structure Holds (a : IdioArray α) (l : List α) : Prop where
  size : a.usize = l.length
  fits : a.usize ≤ a.asize
  alloc : a.ae.length = a.asize
  pos : 0 < a.asize
  used : ∀ i, i < a.usize → a.ae[i]? = l[i]?.map some

theorem Refines.holds (h : Refines a l) : Holds a l :=
  ⟨h.size, h.fits, h.alloc, h.pos, h.used⟩

theorem Holds.refIndex (h : Holds a l) (hi : i < l.length) :
    IdioArray.refIndex (i : Int) a = .ok l[i] a := by
  have hsize := h.size
  have hload : a.ae[i]? = some (some l[i]) := by
    rw [h.used i (by omega), List.getElem?_eq_getElem hi]
    rfl
  simp only [IdioArray.refIndex, load]
  rw [if_neg (by omega), if_neg (by omega), if_neg (by omega), Int.toNat_natCast, hload]

theorem refIndex_nat (h : Refines a l) (hi : i < l.length) :
    refIndex (i : Int) a = .ok l[i] a := h.holds.refIndex hi

end IdioArray

end Idio
