/-
  Array/Stack.lean --- arrays as stacks.

  The array of a stack need not have default values beyond its used size: restoring a
  continuation leaves there what was in use before.  Pushing, popping, copying and
  duplicating need no more than `Holds`, and none of them makes the allocation smaller.
-/
import Idio.Array.Runs

set_option autoImplicit false

namespace Idio

namespace IdioArray

variable {α β : Type}

/-- A call returns `v` and leaves an array that holds `l`, with no smaller an
allocation. -/
def LeavesStack (res : EStateM.Result Fault (IdioArray α) β) (v : β) (l : List α)
    (asize : Nat) : Prop :=
  ∃ a', res = .ok v a' ∧ Holds a' l ∧ asize ≤ a'.asize

/-- The slots in use. -/
def usedSlots (a : IdioArray α) : List (Option α) := a.ae.take a.usize

variable {a : IdioArray α} {l : List α}

theorem Holds.usedSlots_eq (h : Holds a l) :
    a.usedSlots = l.map some := by
  have hsize := h.size
  have hfits := h.fits
  have halloc := h.alloc
  refine List.ext_getElem? fun i => ?_
  rw [usedSlots, List.getElem?_take, List.getElem?_map]
  split
  · rename_i hi
    exact h.used i hi
  · rw [List.getElem?_eq_none (by omega)]
    rfl

/-- A write to a used slot or to the one after them. -/
theorem Holds.put (h : Holds a l) {i : Nat} (hi : i ≤ l.length) (hroom : i < a.asize) (o : α) :
    LeavesStack (IdioArray.put o i a) () (putAt a.dv l i o) a.asize := by
  have hsize := h.size
  have hfits := h.fits
  have halloc := h.alloc
  have hstore : store o i a = .ok () { a with ae := a.ae.set i (some o) } := by
    rw [store, if_pos (by omega)]
  refine ⟨{ a with ae := a.ae.set i (some o), usize := if i + 1 > a.usize then i + 1 else a.usize },
    ?_, ⟨?_, ?_, ?_, h.pos, ?_⟩, Nat.le_refl _⟩
  · rw [IdioArray.put, bind_ok hstore]
    rfl
  · rw [putAt_length, ← hsize]
  · show (if i + 1 > a.usize then i + 1 else a.usize) ≤ a.asize
    split <;> omega
  · show (a.ae.set i (some o)).length = a.asize
    rw [List.length_set, halloc]
  · intro j hj
    have hj' : j < if i + 1 > a.usize then i + 1 else a.usize := hj
    show (a.ae.set i (some o))[j]? = (putAt a.dv l i o)[j]?.map some
    have hjlen : j < (putAt a.dv l i o).length := by
      rw [putAt_length, ← hsize]
      exact hj'
    have hget := putAt_getD a.dv l i o j
    rw [List.getD_eq_getElem _ _ hjlen] at hget
    rw [List.getElem?_eq_getElem hjlen, hget, List.getElem?_set]
    by_cases hij : i = j
    · subst hij
      rw [if_pos rfl, if_pos (by omega), if_pos rfl]
      rfl
    · have hju : j < a.usize := by
        split at hj' <;> omega
      rw [if_neg hij, if_neg (Ne.symm hij), h.used j hju, List.getD_eq_getElem _ _ (by omega),
        List.getElem?_eq_getElem (by omega)]

theorem Holds.resize (h : Holds a l) :
    Holds (resizeArray a) l ∧ a.asize < (resizeArray a).asize := by
  have hsize := h.size
  have hfits := h.fits
  have halloc := h.alloc
  have hgrow : a.asize < nextSize a.asize := lt_nextSize h.pos
  refine ⟨⟨hsize, by show a.usize ≤ nextSize a.asize; omega, resizeArrayTo_length a _,
    by show 0 < nextSize a.asize; omega, fun i hi => ?_⟩, hgrow⟩
  have hi' : i < a.usize := hi
  simp only [resizeArray]
  rw [resizeArrayTo_slot a (by omega), if_neg (by omega), realloc_getElem? (by omega) (by omega)]
  exact h.used i hi'

theorem Holds.push (h : Holds a l) (o : α) :
    LeavesStack (IdioArray.push o a) () (l ++ [o]) a.asize := by
  have hsize := h.size
  have hfits := h.fits
  rw [IdioArray.push, insertIndex, if_neg (by omega), ← putAt_length_eq a.dv, ← hsize]
  by_cases hroom : a.usize < a.asize
  · rw [if_neg (by omega)]
    exact h.put (by omega) hroom o
  · obtain ⟨hresized, hgrow⟩ := h.resize
    rw [if_pos (by omega), if_pos (by omega)]
    obtain ⟨a', hrun, h', hasize⟩ := hresized.put (i := a.usize) (by omega) (by omega) o
    exact ⟨a', hrun, h', by omega⟩

theorem Holds.pop (h : Holds a l) :
    LeavesStack (IdioArray.pop a) l.getLast? l.dropLast a.asize := by
  have hsize := h.size
  have hfits := h.fits
  have halloc := h.alloc
  rcases List.eq_nil_or_concat' l with rfl | ⟨l, x, rfl⟩
  · have hzero : a.usize = 0 := hsize
    refine ⟨{ a with usize := 0 }, ?_, ⟨rfl, Nat.zero_le _, halloc, h.pos,
      fun i hi => absurd hi (Nat.not_lt_zero i)⟩, Nat.le_refl _⟩
    simp only [IdioArray.pop, get_bind]
    rw [if_pos (by omega)]
    rfl
  · rw [List.length_append, List.length_singleton] at hsize
    have hidx : a.usize - 1 = l.length := by omega
    have hload : load (a.usize - 1) a = .ok x a := by
      have hslot := h.used (a.usize - 1) (by omega)
      rw [hidx, List.getElem?_concat_length] at hslot
      simp [load, hidx, hslot]
    have hstore : store a.dv (a.usize - 1) a =
        .ok () { a with ae := a.ae.set (a.usize - 1) (some a.dv) } := by
      rw [store, if_pos (by omega)]
    refine ⟨{ a with ae := a.ae.set (a.usize - 1) (some a.dv), usize := a.usize - 1 }, ?_,
      ⟨?_, ?_, ?_, h.pos, ?_⟩, Nat.le_refl _⟩
    · simp only [IdioArray.pop, get_bind]
      rw [if_neg (by omega), bind_ok hload]
      simp only [get_bind]
      rw [bind_ok hstore]
      simp
    · show a.usize - 1 = (l ++ [x]).dropLast.length
      rw [List.dropLast_concat, hidx]
    · show a.usize - 1 ≤ a.asize
      omega
    · show (a.ae.set (a.usize - 1) (some a.dv)).length = a.asize
      rw [List.length_set, halloc]
    · intro i hi
      have hi' : i < a.usize - 1 := hi
      show (a.ae.set (a.usize - 1) (some a.dv))[i]? = (l ++ [x]).dropLast[i]?.map some
      rw [List.dropLast_concat, List.getElem?_set, if_neg (by omega), h.used i (by omega),
        List.getElem?_append_left (by omega)]

theorem Holds.pushN (h : Holds a l) (args : List α) :
    LeavesStack (IdioArray.pushN args a) () (l ++ args) a.asize := by
  have hpos := h.pos
  obtain ⟨b, hgrow, ⟨hb, hasize⟩, hroom⟩ :=
    growLoop_spec (P := fun b => Holds b l ∧ a.asize ≤ b.asize)
      (fun b hb => ⟨hb.1.pos, hb.1.resize.1, by have := hb.1.resize.2; omega⟩)
      ⟨h, Nat.le_refl _⟩
      (by omega : a.usize + args.length < a.asize + (a.usize + args.length))
  have hsize := h.size
  have hbsize := hb.size
  have halloc := hb.alloc
  obtain ⟨ae, hstore, hlen, hget⟩ := @storeAll_spec _ args a.usize b (by omega)
  have hused : (if a.usize + args.length > b.usize then a.usize + args.length else b.usize) =
      (l ++ args).length := by
    rw [List.length_append]
    split <;> omega
  refine ⟨{ b with ae := ae, usize := if a.usize + args.length > b.usize then
    a.usize + args.length else b.usize }, ?_, ⟨hused, ?_, ?_, hb.pos, ?_⟩, hasize⟩
  · simp only [IdioArray.pushN, get_bind]
    rw [bind_ok hgrow, bind_ok hstore]
    rfl
  · show (if a.usize + args.length > b.usize then a.usize + args.length else b.usize) ≤ b.asize
    rw [hused, List.length_append]
    omega
  · show ae.length = b.asize
    rw [hlen, halloc]
  · intro j hj
    have hj' : j < (l ++ args).length := by
      rw [← hused]
      exact hj
    rw [List.length_append] at hj'
    show ae[j]? = (l ++ args)[j]?.map some
    rw [hget]
    by_cases hin : a.usize ≤ j ∧ j < a.usize + args.length
    · rw [if_pos hin, List.getElem?_append_right (by omega), ← hsize]
      rw [List.getElem?_eq_getElem (by omega : j - a.usize < args.length)]
      rfl
    · rw [if_neg hin, hb.used j (by omega), List.getElem?_append_left (by omega)]

/-- The copy loop over an array whose used size is that of the other already; the
elements before `i` are in place. -/
theorem copyLoop_stack (idioCopy : α → α) {o : IdioArray α} {m : List α} (ho : Holds o m)
    {i n : Nat} (hi : i + n = m.length) (hsize : a.usize = m.length) (hfits : m.length ≤ a.asize)
    (halloc : a.ae.length = a.asize) (hpos : 0 < a.asize)
    (hcopied : ∀ j, j < i → a.ae[j]? = m[j]?.map some) :
    LeavesStack (copyLoop idioCopy .shallow o i n a) () m a.asize := by
  induction n generalizing a i with
  | zero =>
    refine ⟨a, rfl, ⟨hsize, by omega, halloc, hpos, fun j hj => hcopied j (by omega)⟩,
      Nat.le_refl _⟩
  | succ n ih =>
    have him : i < m.length := by omega
    have hins : insertIndex m[i] i a = .ok () { a with ae := a.ae.set i (some m[i]) } := by
      have hstore : store m[i] i a = .ok () { a with ae := a.ae.set i (some m[i]) } := by
        rw [store, if_pos (by omega)]
      have hused : (if i + 1 > a.usize then i + 1 else a.usize) = a.usize := if_neg (by omega)
      unfold insertIndex
      rw [if_neg (by omega), if_neg (by omega), Int.toNat_natCast, put, bind_ok hstore]
      simp only [modify_apply, hused]
    obtain ⟨a', hrun, h', hasize⟩ := ih (by omega : i + 1 + n = m.length)
      (a := { a with ae := a.ae.set i (some m[i]) }) hsize hfits
      ((List.length_set ..).trans halloc) hpos fun j hj => by
        show (a.ae.set i (some m[i]))[j]? = m[j]?.map some
        rw [List.getElem?_set]
        by_cases hij : i = j
        · subst hij
          rw [if_pos rfl, if_pos (by omega), List.getElem?_eq_getElem him]
          rfl
        · rw [if_neg hij]
          exact hcopied j (by omega)
    refine ⟨a', ?_, h', hasize⟩
    simp only [copyLoop, ho.refIndex him]
    rw [show CopyDepth.shallow.elem idioCopy m[i] = m[i] from rfl, bind_ok hins]
    exact hrun

/-- A stack is made a duplicate of an array that fits in its allocation. -/
theorem Holds.duplicate {o : IdioArray α} {m : List α} (h : Holds a l) (ho : Holds o m)
    (idioCopy : α → α) (hfits : m.length ≤ a.asize) :
    LeavesStack (duplicateArray idioCopy o o.usize .shallow a) () m a.asize := by
  have hosize := ho.size
  have hosz : (if o.usize ≠ 0 then o.usize else o.usize) = o.usize := by split <;> rfl
  have hae : (if o.usize > a.asize then List.replicate o.usize none else a.ae) = a.ae :=
    if_neg (by omega)
  simp only [duplicateArray, hosz, modify_bind, hae]
  exact copyLoop_stack idioCopy ho (by omega : 0 + o.usize = m.length) hosize hfits h.alloc h.pos
    fun j hj => absurd hj (Nat.not_lt_zero j)

/-- A copy of a stack. -/
theorem Holds.copy (h : Holds a l) (idioCopy : α → α) :
    ∃ na, copyArray idioCopy .shallow 0 a = .ok () na ∧ Holds na l := by
  obtain ⟨na, hrun, hna, -⟩ := copyArray_leaves idioCopy .shallow 0 h
  have hsame : l.map (CopyDepth.shallow.elem idioCopy) = l := List.map_id l
  rw [hsame] at hna
  exact ⟨na, hrun, hna.holds⟩

end IdioArray

end Idio
