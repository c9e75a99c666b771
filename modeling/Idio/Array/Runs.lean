/-
  Array/Runs.lean --- runs of array operations, against lists.

  `step` is one operation on an array, `listStep` the same operation on a list.
  An operation agrees with its list when `Proper` holds: a duplicate takes no more
  elements than there are and does not shorten the array past elements that are
  not the default value, and a resize does not cut the used slots off.  The first
  is where the code goes wrong: `idio_duplicate_array` lowers the used size as
  `idio_array_pop` does, but leaves the slots it gives up as they are.

  `arrays_refine_lists` is the statement about runs;
  `duplicate_leaves_stale_slot` is a run with such a duplicate.
-/
import Idio.Array.Basic
import Mathlib.Data.List.Basic
import Mathlib.Data.List.Induction

set_option autoImplicit false

namespace Idio

namespace IdioArray

variable {α β : Type}

/-! ## Stack and queue operations -/

variable {i : Nat} {l : List α}

theorem putAt_lt (dv : α) (h : i < l.length) (v : α) :
    putAt dv l i v = l.set i v := by
  rw [putAt, if_pos h]

theorem putAt_length_eq (dv : α) (l : List α) (v : α) : putAt dv l l.length v = l ++ [v] := by
  rw [putAt, if_neg (by omega)]
  simp

variable {a : IdioArray α}

theorem insertIndex_leaves (h : Refines a l) (hi : i ≤ a.asize) (o : α) :
    Leaves (insertIndex o i a) () (putAt a.dv l i o) a.dv := by
  obtain ⟨a', hrun, href, hdv, -⟩ := insertIndex_nat h hi o
  exact ⟨a', hrun, href, hdv⟩

theorem push_leaves (h : Refines a l) (o : α) :
    Leaves (push o a) () (l ++ [o]) a.dv := by
  have hrun := insertIndex_leaves h h.fits o
  rwa [h.size, putAt_length_eq, ← h.size] at hrun

/-- Assigning to an element of the list. -/
theorem insertIndex_set (h : Refines a l) (hi : i < l.length) (o : α) :
    Leaves (insertIndex o i a) () (l.set i o) a.dv := by
  have hsize := h.size
  have hfits := h.fits
  have hrun := insertIndex_leaves h (by omega : i ≤ a.asize) o
  rwa [putAt_lt _ hi] at hrun

theorem pop_leaves (h : Refines a l) :
    Leaves (pop a) l.getLast? l.dropLast a.dv := by
  have hsize := h.size
  have hfits := h.fits
  have halloc := h.alloc
  rcases List.eq_nil_or_concat' l with rfl | ⟨l, x, rfl⟩
  · have hzero : a.usize = 0 := hsize
    refine ⟨{ a with usize := 0 }, ?_, refines_of_slot rfl (Nat.zero_le _) halloc h.pos
      (fun i hi => h.slot hi), rfl⟩
    simp only [pop, get_bind]
    rw [if_pos (by omega)]
    rfl
  · rw [List.length_append, List.length_singleton] at hsize
    have hload : load (a.usize - 1) a = .ok x a := by
      have hslot := h.used (a.usize - 1) (by omega)
      have hidx : a.usize - 1 = l.length := by omega
      rw [hidx, List.getElem?_concat_length] at hslot
      simp [load, hidx, hslot]
    have hstore : store a.dv (a.usize - 1) a =
        .ok () { a with ae := a.ae.set (a.usize - 1) (some a.dv) } := by
      rw [store, if_pos (by omega)]
    refine ⟨{ a with ae := a.ae.set (a.usize - 1) (some a.dv), usize := a.usize - 1 }, ?_,
      refines_of_slot ?_ ?_ ?_ h.pos ?_, rfl⟩
    · simp only [pop, get_bind]
      rw [if_neg (by omega), bind_ok hload]
      simp only [get_bind]
      rw [bind_ok hstore]
      simp
    · show a.usize - 1 = (l ++ [x]).dropLast.length
      rw [List.dropLast_concat]
      omega
    · show a.usize - 1 ≤ a.asize
      omega
    · show (a.ae.set (a.usize - 1) (some a.dv)).length = a.asize
      rw [List.length_set, halloc]
    · intro i hi
      have hi' : i < a.asize := hi
      show (a.ae.set (a.usize - 1) (some a.dv))[i]? =
        some (some ((l ++ [x]).dropLast.getD i a.dv))
      rw [List.dropLast_concat, List.getElem?_set]
      by_cases hlast : a.usize - 1 = i
      · rw [if_pos hlast, if_pos (by omega), List.getD_eq_default _ _ (by omega)]
      · rw [if_neg hlast, h.slot hi']
        by_cases hl : i < l.length
        · rw [List.getD_append _ _ _ _ hl]
        · rw [List.getD_eq_default _ _ (by simp; omega), List.getD_eq_default _ _ (by omega)]

/-- The loop of `shift` moves everything beyond `x` down by one. -/
theorem shiftLoop_leaves {a : IdioArray α} {pre rest : List α} {x : α}
    (h : Refines a (pre ++ x :: rest)) {fuel : Nat} (hfuel : rest.length < fuel) :
    Leaves (shiftLoop fuel pre.length a) () (pre ++ rest ++ [(x :: rest).getLast (by simp)])
      a.dv := by
  induction rest generalizing a pre x fuel with
  | nil =>
    obtain ⟨fuel, rfl⟩ : ∃ n, fuel = n + 1 := ⟨fuel - 1, by omega⟩
    have hsize := h.size
    simp only [List.length_append, List.length_cons, List.length_nil] at hsize
    refine ⟨a, ?_, by simpa using h, rfl⟩
    simp only [shiftLoop, get_bind]
    rw [if_neg (by omega)]
    rfl
  | cons y rest ih =>
    obtain ⟨fuel, rfl⟩ : ∃ n, fuel = n + 1 := ⟨fuel - 1, by omega⟩
    have hsize := h.size
    simp only [List.length_append, List.length_cons] at hsize
    have href : refIndex ((pre.length + 1 : Nat) : Int) a = .ok y a := by
      rw [refIndex_nat h (by simp)]
      simp
    obtain ⟨a', hins, h', hdv⟩ := insertIndex_set h
      (by simp : pre.length < (pre ++ x :: y :: rest).length) y
    have hset : (pre ++ x :: y :: rest).set pre.length y = (pre ++ [y]) ++ y :: rest := by
      simp
    rw [hset] at h'
    obtain ⟨a'', hrun, h'', hdv'⟩ := ih h' (by simpa using hfuel)
    refine ⟨a'', ?_, ?_, by rw [hdv', hdv]⟩
    · simp only [shiftLoop, get_bind]
      rw [if_pos (by omega), bind_ok href, bind_ok hins]
      simpa using hrun
    · simpa using h''

theorem shift_leaves (h : Refines a l) :
    Leaves (shift a) l.head? l.tail a.dv := by
  have hsize := h.size
  cases l with
  | nil =>
    have hzero : a.usize = 0 := hsize
    refine ⟨{ a with usize := 0 }, ?_, refines_of_slot rfl (Nat.zero_le _) h.alloc h.pos
      (fun i hi => h.slot hi), rfl⟩
    simp only [shift, get_bind]
    rw [if_pos (by omega)]
    rfl
  | cons x rest =>
    rw [List.length_cons] at hsize
    have href : refIndex 0 a = .ok x a := by
      have := refIndex_nat h (by simp : 0 < (x :: rest).length)
      simpa using this
    obtain ⟨a', hloop, h', hdv⟩ := @shiftLoop_leaves _ a [] rest x h a.usize (by omega)
    have hloop' : shiftLoop a.usize 0 a = .ok () a' := hloop
    obtain ⟨a'', hpop, h'', hdv'⟩ := pop_leaves h'
    refine ⟨a'', ?_, by simpa using h'', by rw [hdv', hdv]⟩
    simp only [shift, get_bind]
    rw [if_neg (by omega), bind_ok href, bind_ok hloop', bind_ok hpop]
    rfl

/-- The loop of `unshift` copies everything before `y` up by one, over `y`. -/
theorem unshiftLoop_leaves {pre rest : List α} {y : α} (h : Refines a (pre ++ y :: rest)) :
    Leaves (unshiftLoop pre.length a) () ((pre ++ [y]).head (by simp) :: (pre ++ rest)) a.dv := by
  induction pre using List.reverseRecOn generalizing a y rest with
  | nil => exact ⟨a, rfl, by simpa using h, rfl⟩
  | append_singleton pre x ih =>
    have href : refIndex (pre.length : Int) a = .ok x a := by
      rw [refIndex_nat h (by simp)]
      simp
    obtain ⟨a', hins, h', hdv⟩ := insertIndex_set h
      (by simp : pre.length + 1 < (pre ++ [x] ++ y :: rest).length) x
    have hset : (pre ++ [x] ++ y :: rest).set (pre.length + 1) x = pre ++ x :: x :: rest := by
      simp
    rw [hset] at h'
    obtain ⟨a'', hrun, h'', hdv'⟩ := ih h'
    refine ⟨a'', ?_, ?_, by rw [hdv', hdv]⟩
    · rw [List.length_append, List.length_singleton, unshiftLoop, bind_ok href, bind_ok hins]
      exact hrun
    · have hlist : (pre ++ [x] ++ [y]).head (by simp) :: (pre ++ [x] ++ rest) =
          (pre ++ [x]).head (by simp) :: (pre ++ x :: rest) := by
        cases pre <;> simp
      rwa [hlist]

theorem unshift_leaves (h : Refines a l) (o : α) :
    Leaves (unshift o a) () (o :: l) a.dv := by
  have hsize := h.size
  rcases List.eq_nil_or_concat' l with rfl | ⟨l, x, rfl⟩
  · have hzero : a.usize = 0 := hsize
    obtain ⟨a', hins, h', hdv⟩ := push_leaves h o
    refine ⟨a', ?_, h', hdv⟩
    rw [push, hzero] at hins
    simp only [unshift, get_bind, hzero, unshiftLoop]
    exact hins
  · rw [List.length_append, List.length_singleton] at hsize
    -- The first round appends the last element, the others copy within the list.
    have href : refIndex (l.length : Int) a = .ok x a := by
      rw [refIndex_nat h (by simp)]
      simp
    obtain ⟨a₁, hpush, h₁, hdv₁⟩ := push_leaves h x
    rw [push, hsize] at hpush
    rw [List.append_assoc] at h₁
    obtain ⟨a₂, hloop, h₂, hdv₂⟩ := unshiftLoop_leaves h₁
    have hall : unshiftLoop (l.length + 1) a = .ok () a₂ := by
      rw [unshiftLoop, bind_ok href, bind_ok hpush]
      exact hloop
    obtain ⟨a₃, hins, h₃, hdv₃⟩ := insertIndex_set h₂ (Nat.succ_pos _) o
    refine ⟨a₃, ?_, by simpa using h₃, by rw [hdv₃, hdv₂, hdv₁]⟩
    simp only [unshift, get_bind, hsize]
    rw [bind_ok hall]
    exact hins

/-- The loop of `array-fill!` over the elements after `pre`. -/
theorem arrayFillLoop_leaves {a : IdioArray α} {pre rest : List α} (h : Refines a (pre ++ rest))
    (fill : α) :
    Leaves (arrayFillLoop fill pre.length rest.length a) ()
      (pre ++ List.replicate rest.length fill) a.dv := by
  induction rest generalizing a pre with
  | nil => exact ⟨a, rfl, by simpa using h, rfl⟩
  | cons x rest ih =>
    obtain ⟨a', hins, h', hdv⟩ := insertIndex_set h
      (by simp : pre.length < (pre ++ x :: rest).length) fill
    have hset : (pre ++ x :: rest).set pre.length fill = (pre ++ [fill]) ++ rest := by simp
    rw [hset] at h'
    obtain ⟨a'', hrun, h'', hdv'⟩ := ih h'
    refine ⟨a'', ?_, ?_, by rw [hdv', hdv]⟩
    · rw [List.length_cons, arrayFillLoop, bind_ok hins]
      simpa using hrun
    · simpa [List.replicate_succ] using h''

theorem arrayFill_leaves (h : Refines a l) (fill : α) :
    Leaves (arrayFill fill a) () (List.replicate l.length fill) a.dv := by
  have hrun := @arrayFillLoop_leaves _ a [] l h fill
  simp only [arrayFill, get_bind, h.size]
  exact hrun

/-! ## Pushing several values -/

/-- The allocation grows until there is room to spare, by resizing that keeps `P`. -/
theorem growLoop_spec {P : IdioArray α → Prop} (hP : ∀ a, P a → 0 < a.asize ∧ P (resizeArray a))
    (h : P a) {need fuel : Nat} (hfuel : need < a.asize + fuel) :
    ∃ a', growLoop need (fuel + 1) a = .ok () a' ∧ P a' ∧ need < a'.asize := by
  induction fuel generalizing a with
  | zero =>
    refine ⟨a, ?_, h, by omega⟩
    simp only [growLoop, get_bind]
    rw [if_neg (by omega)]
    rfl
  | succ fuel ih =>
    by_cases hneed : need ≥ a.asize
    · obtain ⟨hpos, hresized⟩ := hP a h
      have hlt : a.asize < (resizeArray a).asize := lt_nextSize hpos
      obtain ⟨a', hrun, h', hroom⟩ := ih hresized (by omega)
      refine ⟨a', ?_, h', hroom⟩
      simp only [growLoop, get_bind]
      rw [if_pos hneed, modify_bind]
      exact hrun
    · refine ⟨a, ?_, h, by omega⟩
      simp only [growLoop, get_bind]
      rw [if_neg hneed]
      rfl

/-- The writes of `pushN`: only the slots from `i` on change. -/
theorem storeAll_spec (args : List α) {i : Nat} {a : IdioArray α}
    (hi : i + args.length ≤ a.ae.length) :
    ∃ ae, storeAll i args a = .ok () { a with ae := ae } ∧ ae.length = a.ae.length ∧
      ∀ j, ae[j]? = if i ≤ j ∧ j < i + args.length then some args[j - i]? else a.ae[j]? := by
  induction args generalizing i a with
  | nil => exact ⟨a.ae, rfl, rfl, fun j => by rw [if_neg (by rw [List.length_nil]; omega)]⟩
  | cons v args ih =>
    rw [List.length_cons] at hi
    have hstore : store v i a = .ok () { a with ae := a.ae.set i (some v) } := by
      rw [store, if_pos (by omega)]
    obtain ⟨ae, hrun, hlen, hget⟩ := @ih (i + 1) { a with ae := a.ae.set i (some v) }
      (by rw [List.length_set]; omega)
    refine ⟨ae, by rw [storeAll, bind_ok hstore, hrun], by rw [hlen, List.length_set],
      fun j => ?_⟩
    rw [hget, List.length_cons, List.getElem?_set]
    rcases Nat.lt_trichotomy j i with hlt | rfl | hgt
    · rw [if_neg (by omega), if_neg (by omega), if_neg (by omega)]
    · rw [if_neg (by omega), if_pos rfl, if_pos (by omega), if_pos (by omega), Nat.sub_self]
      rfl
    · obtain ⟨k, rfl⟩ : ∃ k, j = i + 1 + k := ⟨j - (i + 1), by omega⟩
      have hidx : i + 1 + k - i = k + 1 := by omega
      by_cases hin : k < args.length
      · rw [if_pos (by omega), if_pos (by omega), hidx, List.getElem?_cons_succ,
          Nat.add_sub_cancel_left]
      · rw [if_neg (by omega), if_neg (by omega), if_neg (by omega)]

theorem pushN_leaves (h : Refines a l) (args : List α) :
    Leaves (pushN args a) () (l ++ args) a.dv := by
  have hpos := h.pos
  obtain ⟨b, hgrow, ⟨hb, hdv⟩, hroom⟩ :=
    growLoop_spec (P := fun b => Refines b l ∧ b.dv = a.dv)
      (fun b hb => ⟨hb.1.pos, resizeArray_refines hb.1, hb.2⟩) ⟨h, rfl⟩
      (by omega : a.usize + args.length < a.asize + (a.usize + args.length))
  have hsize := h.size
  have hbsize := hb.size
  have halloc := hb.alloc
  obtain ⟨ae, hstore, hlen, hget⟩ := @storeAll_spec _ args a.usize b (by omega)
  refine ⟨{ b with ae := ae, usize := if a.usize + args.length > b.usize then
    a.usize + args.length else b.usize }, ?_, refines_of_slot ?_ ?_ ?_ hb.pos ?_, hdv⟩
  · simp only [pushN, get_bind]
    rw [bind_ok hgrow, bind_ok hstore]
    rfl
  · rw [List.length_append]
    show (if a.usize + args.length > b.usize then a.usize + args.length else b.usize) = _
    split <;> omega
  · show (if a.usize + args.length > b.usize then a.usize + args.length else b.usize) ≤ b.asize
    have hfits := hb.fits
    split <;> omega
  · show ae.length = b.asize
    rw [hlen, halloc]
  · intro j hj
    have hj' : j < b.asize := hj
    show ae[j]? = some (some ((l ++ args).getD j b.dv))
    rw [hget]
    by_cases hin : a.usize ≤ j ∧ j < a.usize + args.length
    · have hidx : j - a.usize < args.length := by omega
      rw [if_pos hin, List.getD_append_right _ _ _ _ (by omega), ← hsize,
        List.getD_eq_getElem _ _ hidx, List.getElem?_eq_getElem hidx]
    · rw [if_neg hin, hb.slot hj']
      by_cases hl : j < l.length
      · rw [List.getD_append _ _ _ _ hl]
      · rw [List.getD_eq_default l _ (by omega),
          List.getD_eq_default _ _ (by rw [List.length_append]; omega)]

/-! ## Copies -/

variable {m : List α} {o : IdioArray α} {n : Nat}

/-- The copy loop appends the elements of `o` to an array that holds those before. -/
theorem copyLoop_leaves (idioCopy : α → α) (depth : CopyDepth) (ho : Holds o m) {acc : List α}
    (h : Refines a acc) (hn : acc.length + n ≤ m.length) :
    Leaves (copyLoop idioCopy depth o acc.length n a) ()
      (acc ++ ((m.drop acc.length).take n).map (depth.elem idioCopy)) a.dv := by
  induction n generalizing a acc with
  | zero => exact ⟨a, rfl, by simpa using h, rfl⟩
  | succ n ih =>
    have hi : acc.length < m.length := by omega
    obtain ⟨a', hins, h', hdv⟩ := push_leaves h (depth.elem idioCopy m[acc.length])
    rw [push, h.size] at hins
    obtain ⟨a'', hrun, h'', hdv'⟩ := ih h' (by rw [List.length_append, List.length_singleton]; omega)
    refine ⟨a'', ?_, ?_, by rw [hdv', hdv]⟩
    · simp only [copyLoop, ho.refIndex hi]
      rw [bind_ok hins]
      simpa using hrun
    · have hdrop : m.drop acc.length = m[acc.length] :: m.drop (acc.length + 1) :=
        List.drop_eq_getElem_cons hi
      simpa only [hdrop, List.take_succ_cons, List.map_cons, List.length_append,
        List.length_singleton, List.append_assoc, List.singleton_append] using h''

theorem copyArray_leaves (idioCopy : α → α) (depth : CopyDepth) (extra : Nat) (h : Holds a l) :
    Leaves (copyArray idioCopy depth extra a) () (l.map (depth.elem idioCopy)) a.dv := by
  obtain ⟨na, hrun, hna, hdv⟩ :=
    copyLoop_leaves idioCopy depth h (arrayDv_refines (a.usize + extra) a.dv)
      (by simp [h.size] : ([] : List α).length + a.usize ≤ l.length)
  exact ⟨na, hrun, by simpa [h.size] using hna, hdv⟩

/-! ## Duplicating -/

/-- In the loop of `duplicate`, `i` of the elements `t` being in place.  The used
size is that of the result already; the allocation is in order once it is reached. -/
structure Duplicating (a : IdioArray α) (t : List α) (i : Nat) : Prop where
  size : a.usize = t.length
  reached : i ≤ a.asize
  alloc : a.asize ≤ a.ae.length
  pos : 0 < a.asize
  copied : ∀ j, j < i → a.ae[j]? = t[j]?.map some
  spare : t.length ≤ a.asize →
    a.ae.length = a.asize ∧ ∀ j, t.length ≤ j → j < a.asize → a.ae[j]? = some (some a.dv)

variable {t : List α}

theorem Duplicating.refines (h : Duplicating a t t.length) :
    Refines a t := by
  obtain ⟨halloc, hspare⟩ := h.spare h.reached
  have hsize := h.size
  have hreached := h.reached
  exact ⟨hsize, by omega, halloc, h.pos, fun i hi => h.copied i (by omega),
    fun i hu hi => hspare i (by omega) hi⟩

theorem Duplicating.resize (h : Duplicating a t i) (hi : i < t.length) :
    Duplicating (resizeArray a) t i ∧ i < (resizeArray a).asize := by
  have hsize := h.size
  have hreached := h.reached
  have halloc := h.alloc
  have hlt : a.asize < nextSize a.asize := lt_nextSize h.pos
  have hlen : (resizeArray a).ae.length = nextSize a.asize := resizeArrayTo_length a _
  refine ⟨⟨hsize, by show i ≤ nextSize a.asize; omega, by rw [hlen]; exact Nat.le_refl _,
    by show 0 < nextSize a.asize; omega, fun j hj => ?_, fun ht => ⟨hlen, fun j hj hja => ?_⟩⟩,
    by show i < nextSize a.asize; omega⟩
  · rw [← h.copied j hj]
    simp only [resizeArray]
    rw [resizeArrayTo_slot a (by omega), if_neg (by omega),
      realloc_getElem? (by omega) (by omega)]
  · have hja' : j < nextSize a.asize := hja
    simp only [resizeArray]
    rw [resizeArrayTo_slot a hja', if_pos (by omega)]
    rfl

theorem Duplicating.put (h : Duplicating a t i) (hi : i < t.length) (hroom : i < a.asize) :
    ∃ a', put t[i] i a = .ok () a' ∧ Duplicating a' t (i + 1) ∧ a'.dv = a.dv := by
  have hsize := h.size
  have halloc := h.alloc
  have hstore : store t[i] i a = .ok () { a with ae := a.ae.set i (some t[i]) } := by
    rw [store, if_pos (by omega)]
  have hused : (if i + 1 > a.usize then i + 1 else a.usize) = a.usize := if_neg (by omega)
  refine ⟨{ a with ae := a.ae.set i (some t[i]) }, ?_, ⟨hsize, by show i + 1 ≤ a.asize; omega,
    by show a.asize ≤ (a.ae.set i (some t[i])).length; rw [List.length_set]; exact halloc,
    h.pos, fun j hj => ?_, fun ht => ⟨?_, fun j hj hja => ?_⟩⟩, rfl⟩
  · rw [IdioArray.put, bind_ok hstore]
    simp only [modify_apply, hused]
  · show (a.ae.set i (some t[i]))[j]? = t[j]?.map some
    rw [List.getElem?_set]
    by_cases hij : i = j
    · subst hij
      rw [if_pos rfl, if_pos (by omega), List.getElem?_eq_getElem hi]
      rfl
    · rw [if_neg hij, h.copied j (by omega)]
  · show (a.ae.set i (some t[i])).length = a.asize
    rw [List.length_set]
    exact (h.spare ht).1
  · show (a.ae.set i (some t[i]))[j]? = some (some a.dv)
    rw [List.getElem?_set, if_neg (by omega)]
    exact (h.spare ht).2 j hj hja

/-- The copy loop in `duplicate`. -/
theorem copyLoop_duplicating (idioCopy : α → α) (depth : CopyDepth) (ho : Refines o m) {osz : Nat}
    (hosz : osz ≤ m.length) (hi : i + n = osz)
    (h : Duplicating a ((m.take osz).map (depth.elem idioCopy)) i) :
    Leaves (copyLoop idioCopy depth o i n a) () ((m.take osz).map (depth.elem idioCopy)) a.dv := by
  have hlen : ((m.take osz).map (depth.elem idioCopy)).length = osz := by
    rw [List.length_map, List.length_take]
    omega
  induction n generalizing a i with
  | zero =>
    have hend : i = ((m.take osz).map (depth.elem idioCopy)).length := by omega
    subst hend
    exact ⟨a, rfl, h.refines, rfl⟩
  | succ n ih =>
    have hit : i < ((m.take osz).map (depth.elem idioCopy)).length := by omega
    have him : i < m.length := by omega
    have helem : ((m.take osz).map (depth.elem idioCopy))[i] = depth.elem idioCopy m[i] := by
      simp
    obtain ⟨a', hins, h', hdv⟩ : ∃ a', insertIndex (depth.elem idioCopy m[i]) i a = .ok () a' ∧
        Duplicating a' ((m.take osz).map (depth.elem idioCopy)) (i + 1) ∧ a'.dv = a.dv := by
      unfold insertIndex
      rw [if_neg (by omega), Int.toNat_natCast, ← helem]
      by_cases hroom : i < a.asize
      · rw [if_neg (by omega)]
        exact h.put hit hroom
      · obtain ⟨hr, hroom'⟩ := h.resize hit
        have hreached := h.reached
        rw [if_pos (by omega), if_pos (by omega)]
        exact hr.put hit hroom'
    obtain ⟨a'', hrun, h'', hdv'⟩ := ih (by omega : i + 1 + n = osz) h'
    refine ⟨a'', ?_, h'', by rw [hdv', hdv]⟩
    simp only [copyLoop, refIndex_nat ho him]
    rw [bind_ok hins]
    exact hrun

/-- `duplicate` holds the elements of the other array, given that what it gives up
was the default value. -/
theorem duplicateArray_leaves (idioCopy : α → α) (depth : CopyDepth) (h : Refines a l)
    (ho : Refines o m) {osz : Nat} (hosz : osz = if n ≠ 0 then n else o.usize) (hn : n ≤ m.length)
    (hstale : ∀ j, osz ≤ j → j < a.usize → a.ae[j]? = some (some a.dv)) :
    Leaves (duplicateArray idioCopy o n depth a) () ((m.take osz).map (depth.elem idioCopy))
      a.dv := by
  have hosize := ho.size
  have hfits := h.fits
  have hle : osz ≤ m.length := by
    split at hosz <;> omega
  have hlen : ((m.take osz).map (depth.elem idioCopy)).length = osz := by
    rw [List.length_map, List.length_take]
    omega
  have hstart : Duplicating
      { a with ae := if osz > a.asize then List.replicate osz none else a.ae, usize := osz }
      ((m.take osz).map (depth.elem idioCopy)) 0 := by
    refine ⟨hlen.symm, Nat.zero_le _, ?_, h.pos, fun j hj => absurd hj (by omega), fun ht => ?_⟩
    · show a.asize ≤ (if osz > a.asize then List.replicate osz none else a.ae).length
      split
      · rw [List.length_replicate]
        omega
      · exact Nat.le_of_eq h.alloc.symm
    · rw [hlen] at ht ⊢
      have ht' : ¬ osz > a.asize := by
        have : osz ≤ a.asize := ht
        omega
      simp only [if_neg ht']
      refine ⟨h.alloc, fun j hj hja => ?_⟩
      by_cases hju : j < a.usize
      · exact hstale j hj hju
      · exact h.spare j (by omega) hja
  obtain ⟨a', hrun, h', hdv⟩ :=
    copyLoop_duplicating idioCopy depth ho hle (by omega : 0 + osz = osz) hstart
  refine ⟨a', ?_, h', hdv⟩
  subst hosz
  exact hrun

/-! ## Runs -/

/-- An array in order, and the list it holds. -/
structure ListArray (α : Type) where
  arr : IdioArray α
  elems : List α
  refines : Refines arr elems

/-- The operations on an array. -/
inductive ArrayOp (α : Type) where
  | push (o : α)
  | pushN (args : List α)
  | pop
  | shift
  | unshift (o : α)
  | insertIndex (o : α) (index : Int)
  | set (index : Int) (v : α)
  | fill (v : α)
  /-- the run goes on with the copy -/
  | copy (depth : CopyDepth) (extra : Nat)
  /-- duplicate another array into this one -/
  | duplicate (o : ListArray α) (n : Nat) (depth : CopyDepth)
  | resize
  | resizeTo (nsize : Nat)

/-- What a call returns, and the array after it. -/
def outcome (res : EStateM.Result Fault (IdioArray α) β) (value : β → Option α) :
    Result (Option α) × IdioArray α :=
  match res with
  | .ok v a => (.ok (value v), a)
  | .error e a => (.error e, a)

/-- One operation on an array. -/
def step (idioCopy : α → α) (op : ArrayOp α) (a : IdioArray α) :
    Result (Option α) × IdioArray α :=
  match op with
  | .push o => outcome (push o a) fun _ => none
  | .pushN args => outcome (pushN args a) fun _ => none
  | .pop => outcome (pop a) id
  | .shift => outcome (shift a) id
  | .unshift o => outcome (unshift o a) fun _ => none
  | .insertIndex o index => outcome (IdioArray.insertIndex o index a) fun _ => none
  | .set index v => outcome (arraySet index v a) fun _ => none
  | .fill v => outcome (arrayFill v a) fun _ => none
  | .copy depth extra => outcome (copyArray idioCopy depth extra a) fun _ => none
  | .duplicate o n depth => outcome (duplicateArray idioCopy o.arr n depth a) fun _ => none
  | .resize => (.ok none, resizeArray a)
  | .resizeTo nsize => (.ok none, resizeArrayTo a nsize)

/-- An assignment on a list at an index that counts from the end when negative, up
to the index `room`; `size` is what the condition reports. -/
def listPut (dv : α) (room size : Nat) (index : Int) (v : α) (l : List α) :
    Result (Option α) × List α :=
  let i := if index < 0 then index + l.length else index
  if i < 0 then (.error (boundsError index l.length), l)
  else if i > room then (.error (boundsError index size), l)
  else (.ok none, putAt dv l i.toNat v)

/-- The same operation on a list.  The documented limit of `insert-index` is the
allocation, `asize`; indexes beyond the list are filled up with the default. -/
def listStep (idioCopy : α → α) (asize : Nat) (dv : α) (op : ArrayOp α) (l : List α) :
    Result (Option α) × List α :=
  match op with
  | .push o => (.ok none, l ++ [o])
  | .pushN args => (.ok none, l ++ args)
  | .pop => (.ok l.getLast?, l.dropLast)
  | .shift => (.ok l.head?, l.tail)
  | .unshift o => (.ok none, o :: l)
  | .insertIndex o index => listPut dv asize asize index o l
  | .set index v => listPut dv l.length l.length index v l
  | .fill v => (.ok none, List.replicate l.length v)
  | .copy depth _ => (.ok none, l.map (depth.elem idioCopy))
  | .duplicate o n depth =>
      (.ok none, (o.elems.take (if n ≠ 0 then n else o.elems.length)).map (depth.elem idioCopy))
  | .resize => (.ok none, l)
  | .resizeTo _ => (.ok none, l)

/-- The condition on a step: a duplicate takes no more elements than there are, and
the slots it gives up hold the default value already; a resize leaves room for the
used slots (and for one slot, as the function asserts). -/
def Proper (op : ArrayOp α) (a : IdioArray α) : Prop :=
  match op with
  | .duplicate o n _ =>
      n ≤ o.arr.usize ∧ ∀ j, (if n ≠ 0 then n else o.arr.usize) ≤ j → j < a.usize →
        a.ae[j]? = some (some a.dv)
  | .resizeTo nsize => 0 < nsize ∧ a.usize ≤ nsize
  | _ => True

/-- The outcome of a step agrees with that of its list step. -/
def StepAgrees (dv : α) (arr : Result (Option α) × IdioArray α)
    (list : Result (Option α) × List α) : Prop :=
  arr.1 = list.1 ∧ Refines arr.2 list.2 ∧ arr.2.dv = dv

theorem Leaves.agrees {res : EStateM.Result Fault (IdioArray α) β} {v : β} {dv : α}
    (h : Leaves res v l dv) (value : β → Option α) :
    StepAgrees dv (outcome res value) (.ok (value v), l) := by
  obtain ⟨a', rfl, href, hdv⟩ := h
  exact ⟨rfl, href, hdv⟩

theorem insertIndex_agrees (h : Refines a l) (o : α) (index : Int) :
    StepAgrees a.dv (outcome (IdioArray.insertIndex o index a) fun _ => none)
      (listPut a.dv a.asize a.asize index o l) := by
  have hsize := h.size
  have hfits := h.fits
  unfold listPut
  rw [← hsize]
  by_cases hneg : index < 0
  · simp only [if_pos hneg]
    by_cases hlow : index + a.usize < 0
    · rw [if_pos hlow, IdioArray.insertIndex, if_pos hneg, if_pos hlow]
      exact ⟨rfl, h, rfl⟩
    · obtain ⟨a', hrun, href, hdv, -⟩ := put_refines h
        (by omega : (index + a.usize).toNat < a.asize) o
      rw [if_neg hlow, if_neg (by omega), IdioArray.insertIndex, if_pos hneg, if_neg hlow, hrun]
      exact ⟨rfl, href, hdv⟩
  · simp only [if_neg hneg]
    obtain ⟨i, rfl⟩ := Int.eq_ofNat_of_zero_le (by omega : 0 ≤ index)
    by_cases hroom : i ≤ a.asize
    · rw [if_neg (by omega), Int.toNat_natCast]
      exact (insertIndex_leaves h hroom o).agrees fun _ => none
    · rw [if_pos (by omega), IdioArray.insertIndex, if_neg hneg, if_pos (by omega),
        if_neg (by omega)]
      exact ⟨rfl, h, rfl⟩

theorem arraySet_agrees (h : Refines a l) (index : Int) (v : α) :
    StepAgrees a.dv (outcome (arraySet index v a) fun _ => none)
      (listPut a.dv l.length l.length index v l) := by
  have hsize := h.size
  have hfits := h.fits
  unfold listPut arraySet
  rw [← hsize]
  have hput : ∀ i : Nat, i ≤ a.usize →
      StepAgrees a.dv (outcome (IdioArray.insertIndex v i a) fun _ => none)
        (.ok none, putAt a.dv l i v) :=
    fun i hi => (insertIndex_leaves h (by omega) v).agrees fun _ => none
  by_cases hneg : index < 0
  · simp only [if_pos hneg]
    by_cases hlow : index + a.usize < 0
    · rw [if_pos hlow, if_pos hlow]
      exact ⟨rfl, h, rfl⟩
    · obtain ⟨i, hi⟩ := Int.eq_ofNat_of_zero_le (by omega : 0 ≤ index + a.usize)
      rw [if_neg hlow, if_neg hlow, if_neg (by omega), hi, Int.toNat_natCast]
      exact hput i (by omega)
  · simp only [if_neg hneg]
    obtain ⟨i, rfl⟩ := Int.eq_ofNat_of_zero_le (by omega : 0 ≤ index)
    by_cases hroom : i ≤ a.usize
    · rw [if_neg (by omega), if_neg (by omega), Int.toNat_natCast]
      exact hput i hroom
    · rw [if_pos (by omega), if_pos (by omega)]
      exact ⟨rfl, h, rfl⟩

/-- **One step** does on the array what it does on the list, and leaves the array
in order. -/
theorem step_agrees (idioCopy : α → α) {op : ArrayOp α} (h : Refines a l) (hp : Proper op a) :
    StepAgrees a.dv (step idioCopy op a) (listStep idioCopy a.asize a.dv op l) := by
  cases op with
  | push o => exact (push_leaves h o).agrees _
  | pushN args => exact (pushN_leaves h args).agrees _
  | pop => exact (pop_leaves h).agrees _
  | shift => exact (shift_leaves h).agrees _
  | unshift o => exact (unshift_leaves h o).agrees _
  | insertIndex o index => exact insertIndex_agrees h o index
  | set index v => exact arraySet_agrees h index v
  | fill v => exact (arrayFill_leaves h v).agrees _
  | copy depth extra => exact (copyArray_leaves idioCopy depth extra h.holds).agrees _
  | duplicate o n depth =>
    obtain ⟨hn, hstale⟩ := hp
    have hosize := o.refines.size
    have hrun := duplicateArray_leaves idioCopy depth h o.refines rfl (by omega) hstale
    rw [hosize] at hrun
    exact hrun.agrees _
  | resize => exact ⟨rfl, resizeArray_refines h, rfl⟩
  | resizeTo nsize => exact ⟨rfl, resizeArrayTo_refines h hp.2 hp.1, rfl⟩

/-- Every step of the run meets its condition. -/
def ProperRun (idioCopy : α → α) : List (ArrayOp α) → IdioArray α → Prop
  | [], _ => True
  | op :: ops, a => Proper op a ∧ ProperRun idioCopy ops (step idioCopy op a).2

/-- At every point of the run the array is in order and holds the list of the run on
lists, and every step returns or raises the same on both. -/
def Agree (idioCopy : α → α) : List (ArrayOp α) → IdioArray α → List α → Prop
  | [], a, l => Refines a l
  | op :: ops, a, l =>
      Refines a l ∧
        (step idioCopy op a).1 = (listStep idioCopy a.asize a.dv op l).1 ∧
        Agree idioCopy ops (step idioCopy op a).2 (listStep idioCopy a.asize a.dv op l).2

/-- **Arrays refine lists** in every run whose steps meet their conditions. -/
theorem arrays_refine_lists (idioCopy : α → α) (ops : List (ArrayOp α)) (a : ListArray α)
    (h : ProperRun idioCopy ops a.arr) : Agree idioCopy ops a.arr a.elems := by
  obtain ⟨a, l, href⟩ := a
  induction ops generalizing a l with
  | nil => exact href
  | cons op ops ih =>
    obtain ⟨hp, hops⟩ := h
    obtain ⟨hres, href', -⟩ := step_agrees idioCopy href hp
    exact ⟨href, hres, ih _ _ href' hops⟩

/-- A new array. -/
def ListArray.new (size0 : Nat) (dv : α) : ListArray α :=
  ⟨arrayDv size0 dv, [], arrayDv_refines size0 dv⟩

/-- The array of `make-array`. -/
def ListArray.make (alen : Nat) (dv : α) : ListArray α :=
  ⟨makeArray alen dv, List.replicate alen dv, makeArray_refines alen dv⟩

theorem arrays_refine_lists_example :
    Agree id [.push 1, .unshift 2, .insertIndex 7 3, .duplicate (ListArray.make 5 9) 0 .shallow,
      .shift, .pop] (arrayDv 2 (0 : Nat)) [] :=
  arrays_refine_lists id _ (ListArray.new 2 0)
    ⟨trivial, trivial, trivial,
      ⟨by decide, fun _ hj hju => absurd (Nat.lt_of_le_of_lt hj hju) (by decide)⟩,
      trivial, trivial, trivial⟩

/-- `[1, 2]` made a duplicate of `[9]`: the slot of the 2 is beyond the used size,
and still holds it. -/
theorem duplicate_leaves_stale_slot :
    ¬ Agree id [.push 1, .push 2, .duplicate (ListArray.make 1 9) 0 .shallow]
      (arrayDv 2 (0 : Nat)) [] := by
  rintro ⟨-, -, -, -, -, -, h⟩
  exact absurd (h.spare 1 (by decide) (by decide)) (by decide)

end IdioArray

end Idio
