/-
  CharSet/Folds.lean --- what the folds over a character set visit.

  The function is called with the index of a bit in its plane: that is the code point
  in the first plane only.
-/
import Idio.CharSet.Points

set_option autoImplicit false

namespace Idio.CharSet

/-! ## One bitset -/

section Bitset

variable {β : Type}

/-- The numbers of the bits that are set, below `n`. -/
def setBits (bs : Bitset) (n : Nat) : List Nat := (List.range n).filter bs.bit

theorem foldlM_filter (l : List Nat) (p : Nat → Bool) (g : Nat → Nat) (f : Nat → β → Result β) (v : β) :
    l.foldlM (fun v j => if p j then f (g j) v else .ok v) v =
      ((l.filter p).map g).foldlM (fun v cp => f cp v) v := by
  induction l generalizing v with
  | nil => rfl
  | cons j l ih =>
    rw [List.foldlM_cons]
    by_cases hp : p j
    · rw [if_pos hp, List.filter_cons_of_pos hp, List.map_cons, List.foldlM_cons]
      exact bind_congr fun v => ih v
    · rw [if_neg hp, List.filter_cons_of_neg hp]
      exact ih v

theorem foldWord_eq {bs : Bitset} {i : Nat} (hi : i < bs.words.length) (f : Nat → β → Result β) (v : β) :
    foldWord bs f v i =
      (((List.range 32).map (32 * i + ·)).filter bs.bit).foldlM (fun v cp => f cp v) v := by
  have hbit : ∀ j < 32, bs.bit (32 * i + j) = (bs.words.getD i 0).getLsbD j := fun j hj =>
    WordBits.bitAt_word bs.words i hj
  have hlist : ((List.range 32).map (32 * i + ·)).filter bs.bit =
      ((List.range 32).filter fun j => (bs.words.getD i 0).getLsbD j).map (i * bitsetBitsPerWord + ·) := by
    rw [List.filter_map, show (i * bitsetBitsPerWord + ·) = (32 * i + ·) from by
      funext j
      rw [bitsetBitsPerWord, Nat.mul_comm]]
    congr 1
    refine List.filter_congr fun j hj => ?_
    exact hbit j (List.mem_range.mp hj)
  rw [foldWord, Bitset.word_eq hi, ok_bind, hlist]
  split
  · exact foldlM_filter ..
  · rename_i hzero
    have hnil : ((List.range 32).filter fun j => (bs.words.getD i 0).getLsbD j) = [] := by
      rw [not_not.mp hzero]
      exact List.filter_eq_nil_iff.mpr fun j _ => by simp
    rw [hnil]
    rfl

theorem foldWords_eq {bs : Bitset} {n : Nat} (hn : n ≤ bs.words.length) (f : Nat → β → Result β)
    (v : β) : (List.range n).foldlM (foldWord bs f) v =
      (setBits bs (32 * n)).foldlM (fun v cp => f cp v) v := by
  induction n with
  | zero => rfl
  | succ n ih =>
    rw [List.range_succ, List.foldlM_append, ih (by omega), Nat.mul_succ]
    simp only [setBits]
    rw [List.range_add, List.filter_append, List.foldlM_append]
    refine bind_congr fun v => ?_
    rw [List.foldlM_cons, foldWord_eq (by omega)]
    exact bind_pure _

/-- `fold-bitset` on a whole plane. -/
theorem foldBitset_eq {bs : Bitset} (h : bs.size = unicodePlaneSize) (f : Nat → β → Result β) (v : β) :
    foldBitset bs f v = (setBits bs unicodePlaneSize).foldlM (fun v cp => f cp v) v := by
  have hsize : 32 * Bitset.nUl bs.size = unicodePlaneSize := by rw [h]; rfl
  rw [foldBitset, foldWords_eq (Bitset.nUl_le_length bs), hsize]

end Bitset

/-! ## All planes -/

section Planes

variable {st : Store} {a : Nat} {β : Type}

/-- What is visited in plane `i`. -/
def Store.visitedPlane (st : Store) (a i : Nat) : List Nat :=
  (List.range unicodePlaneSize).filter (st.bit (st.plane a i))

theorem Store.Good.foldPlane_eq (hgood : st.Good) {a i : Nat} (ha : a < st.charSets.length)
    (hi : i < unicodePlaneCount) (f : Nat → β → Result β) (v : β) :
    st.foldPlane a f v i = (st.visitedPlane a i).foldlM (fun v cp => f cp v) v := by
  rw [Store.foldPlane, hgood.planeRef ha hi, ok_bind, Store.visitedPlane]
  cases hx : st.plane a i with
  | none =>
    have hnil : (List.range unicodePlaneSize).filter (st.bit none) = [] :=
      List.filter_eq_nil_iff.mpr fun _ _ => by simp [Store.bit]
    rw [hnil]
    rfl
  | some x =>
    obtain ⟨bs, hbs, hsize, hbit⟩ := hgood.bitset (hgood.places a i x hx)
    simp only [hbs, ok_bind]
    rw [foldBitset_eq hsize, setBits, show st.bit (some x) = bs.bit from funext hbit]

/-- The planes below `n`, one after the other. -/
theorem Store.Good.foldPlanes_eq (hgood : st.Good) {a n : Nat} (ha : a < st.charSets.length)
    (hn : n ≤ unicodePlaneCount) (f : Nat → β → Result β) (v : β) :
    (List.range n).foldlM (st.foldPlane a f) v =
      ((List.range n).flatMap (st.visitedPlane a)).foldlM (fun v cp => f cp v) v := by
  induction n with
  | zero => rfl
  | succ n ih =>
    rw [List.range_succ, List.foldlM_append, ih (by omega), List.flatMap_append, List.foldlM_append]
    refine bind_congr fun v => ?_
    rw [List.foldlM_cons, hgood.foldPlane_eq ha (by omega), List.flatMap_singleton]
    exact bind_pure _

/-- Its members are all in the first plane. -/
def Store.FirstPlane (st : Store) (a : Nat) : Prop := ∀ n ∈ st.members a, n < unicodePlaneSize

/-- The members in their order, if they are all in the first plane. -/
def Store.inOrder (st : Store) (a : Nat) : List Nat :=
  (List.range unicodePlaneSize).filter fun n => decide (n ∈ st.members a)

theorem Store.mem_inOrder (h : st.FirstPlane a) (n : Nat) : n ∈ st.inOrder a ↔ n ∈ st.members a := by
  rw [Store.inOrder, List.mem_filter, List.mem_range, decide_eq_true_eq]
  exact ⟨fun hn => hn.2, fun hn => ⟨h n hn, hn⟩⟩

theorem Store.inOrder_sorted (a : Nat) : (st.inOrder a).Pairwise (· < ·) :=
  List.Pairwise.filter _ List.pairwise_lt_range

theorem Store.FirstPlane.flatMap (h : st.FirstPlane a) (n : Nat) :
    (List.range (n + 1)).flatMap (st.visitedPlane a) = st.inOrder a := by
  have hzero : st.visitedPlane a 0 = st.inOrder a := by
    refine List.filter_congr fun b hb => ?_
    have hb := List.mem_range.mp hb
    rw [Bool.eq_iff_iff, decide_eq_true_eq, Store.mem_members, Nat.div_eq_of_lt hb,
      Nat.mod_eq_of_lt hb]
  have hsucc : ∀ i, st.visitedPlane a (i + 1) = [] := by
    intro i
    refine List.filter_eq_nil_iff.mpr fun b hb hbit => ?_
    have hb := List.mem_range.mp hb
    have hlt := h ((i + 1) * unicodePlaneSize + b) (by
      rw [Store.mem_members, (plane_cp hb).1, (plane_cp hb).2]
      exact hbit)
    have hge : unicodePlaneSize ≤ (i + 1) * unicodePlaneSize := Nat.le_mul_of_pos_left _ (Nat.succ_pos i)
    omega
  rw [List.range_succ_eq_map, List.flatMap_cons, hzero, List.flatMap_map]
  have hnil : (List.range n).flatMap (fun i => st.visitedPlane a i.succ) = [] :=
    List.flatMap_eq_nil_iff.mpr fun i _ => hsucc i
  rw [hnil, List.append_nil]

/-- `char-set-for-each-set`. -/
theorem Store.Good.charSetForEachSet_eq (hgood : st.Good) (ha : a < st.charSets.length)
    (h : st.FirstPlane a) (f : Nat → β → Result β) (v : β) :
    st.charSetForEachSet a f v = (st.inOrder a).foldlM (fun v cp => f cp v) v := by
  rw [Store.charSetForEachSet, hgood.countPlanes ha, ok_bind, hgood.foldPlanes_eq ha (by decide),
    h.flatMap]

/-- `fold-char-set`, which leaves the last plane out. -/
theorem Store.Good.foldCharSet_eq (hgood : st.Good) (ha : a < st.charSets.length)
    (h : st.FirstPlane a) (f : Nat → β → Result β) (v : β) :
    st.foldCharSet a f v = (st.inOrder a).foldlM (fun v cp => f cp v) v := by
  rw [Store.foldCharSet, hgood.countPlanes ha, ok_bind, hgood.foldPlanes_eq ha (by decide), h.flatMap]

end Planes

/-! ## Strings -/

section Strings

variable {st : Store} {a : Nat}

theorem foldlM_count (l : List Nat) (n : Nat) :
    l.foldlM (fun i (_ : Nat) => (.ok (i + 1) : Result Nat)) n = .ok (n + l.length) := by
  induction l generalizing n with
  | nil => rfl
  | cons cp l ih =>
    rw [List.foldlM_cons, ok_bind, ih, List.length_cons]
    congr 1
    omega

theorem foldlM_max (l : List Nat) (m : Nat) (hm : m < unicodeSize) (hl : ∀ cp ∈ l, cp < unicodeSize) :
    ∃ r, l.foldlM (fun max cp => (.ok (if cp > max then cp else max) : Result Nat)) m = .ok r ∧
      m ≤ r ∧ r < unicodeSize ∧ ∀ cp ∈ l, cp ≤ r := by
  induction l generalizing m with
  | nil => exact ⟨m, rfl, Nat.le_refl m, hm, by simp⟩
  | cons cp l ih =>
    obtain ⟨hcp, hl⟩ := List.forall_mem_cons.mp hl
    obtain ⟨r, hrun, hle, hlt, hall⟩ := ih (if cp > m then cp else m) (by split <;> omega) hl
    refine ⟨r, hrun, ?_, hlt, List.forall_mem_cons.mpr ⟨?_, hall⟩⟩
    · split at hle <;> omega
    · split at hle <;> omega

theorem integerToUnicode_of_lt {n : Nat} (h : n < unicodeSize) :
    ∃ c : CodePoint, integerToUnicode n = .ok c ∧ (c : Nat) = n := by
  rw [unicodeSize, unicodePlaneCount, unicodePlaneSize] at h
  exact ⟨⟨n, h⟩, by rw [integerToUnicode, dif_pos (by omega)]; rfl, rfl⟩

theorem cwidth_le {c d : CodePoint} (h : c ≤ d) : cwidth c ≤ cwidth d := by
  have hle : (c : Nat) ≤ d := h
  unfold cwidth
  split_ifs <;> omega

/-- One `string-set!` for each member. -/
theorem foldlM_stringSet (m : CodePoint) (l : List Nat) (hl : ∀ cp ∈ l, cp ≤ m)
    (pre : List CodePoint) :
    ∃ s : List CodePoint, l.foldlM (fun r cp => do
        let c ← integerToUnicode (cp : Nat)
        let s ← stringSet m r.2 r.1 c
        (.ok (r.1 + 1, s) : Result (Nat × List CodePoint)))
      (pre.length, pre ++ List.replicate l.length m) = .ok (pre.length + l.length, s) ∧
      s.map Fin.val = pre.map Fin.val ++ l := by
  induction l generalizing pre with
  | nil => exact ⟨pre, by simp; rfl, by simp⟩
  | cons cp l ih =>
    obtain ⟨hcp, hl⟩ := List.forall_mem_cons.mp hl
    obtain ⟨c, hc, hcval⟩ := integerToUnicode_of_lt (n := cp) (Nat.lt_of_le_of_lt hcp m.isLt)
    have hset : stringSet m (pre ++ List.replicate (l.length + 1) m) pre.length c =
        .ok ((pre ++ [c]) ++ List.replicate l.length m) := by
      have hle : c ≤ m := by
        show (c : Nat) ≤ m
        rw [hcval]
        exact hcp
      rw [stringSet, if_neg (Nat.not_lt.mpr (cwidth_le hle)), if_neg (by simp)]
      refine congrArg Except.ok ?_
      rw [List.replicate_succ, List.set_append_right _ _ (Nat.le_refl _), Nat.sub_self, List.set_cons_zero,
        List.append_assoc, List.singleton_append]
    obtain ⟨s, hrun, hs⟩ := ih hl (pre ++ [c])
    refine ⟨s, ?_, ?_⟩
    · rw [List.foldlM_cons, List.length_cons]
      simp only [hc, ok_bind, hset]
      rw [List.length_append, List.length_singleton] at hrun
      rw [hrun]
      refine congrArg Except.ok (Prod.ext ?_ rfl)
      show pre.length + 1 + l.length = pre.length + (l.length + 1)
      omega
    · rw [hs, List.map_append, List.append_assoc, List.map_singleton, hcval, List.singleton_append]

/-- `char-set->string`: the members in their order. -/
theorem Store.Good.charSetToString_spec (hgood : st.Good) (ha : a < st.charSets.length)
    (h : st.FirstPlane a) :
    ∃ s, st.charSetToString a = .ok s ∧ s.map Fin.val = st.inOrder a := by
  have hlt : ∀ cp ∈ st.inOrder a, cp < unicodeSize := fun cp hcp =>
    hgood.lt_unicodeSize ((st.mem_inOrder h cp).mp hcp)
  obtain ⟨r, hmax, -, hr, hall⟩ := foldlM_max (st.inOrder a) 0 (by decide) hlt
  obtain ⟨m, hm, hmval⟩ := integerToUnicode_of_lt hr
  obtain ⟨s, hrun, hs⟩ := foldlM_stringSet m (st.inOrder a)
    (fun cp hcp => by rw [hmval]; exact hall cp hcp) []
  rw [List.map_nil, List.nil_append] at hs
  rw [List.length_nil, List.nil_append] at hrun
  refine ⟨s, ?_, hs⟩
  rw [Store.charSetToString, hgood.foldCharSet_eq ha h, foldlM_count, ok_bind,
    hgood.foldCharSet_eq ha h, hmax, ok_bind, hm, ok_bind, hgood.charSetForEachSet_eq ha h,
    Nat.zero_add, hrun]
  rfl

end Strings

end Idio.CharSet
