/-
  Vm/Varuint.lean --- integers in byte code.

  `idio_ia_compute_varuint` writes a number in one to nine bytes: up to 240 as itself, up to
  67823 with the least number of its range taken off, and above that as a count of bytes and
  the bytes, the most significant first.  `idio_vm_get_varuint` reads it at the PC.  An integer
  of a fixed width is the bytes alone.

  A block of byte code is the list of its bytes, as far as they are in use.
-/
import Idio.Basic
import Mathlib.Data.UInt
import Mathlib.Data.Nat.Bitwise
import Mathlib.Tactic.Ring

set_option autoImplicit false

namespace Idio

/-- `IDIO_IA_T` -/
abbrev Ia : Type := List UInt8

/-! ## Writing -/

/-- The loop that writes the low byte of a number at the end of what is left, `n` times. -/
def pushBytes : Nat → UInt64 → Ia → Ia
  | 0, _, ia => ia
  | n + 1, offset, ia => pushBytes n (offset >>> 8) ((offset &&& 0xff).toUInt8 :: ia)

/-- `idio_ia_compute_varuint` -/
def computeVaruint (offset : UInt64) : Ia :=
  if offset ≤ 240 then [offset.toUInt8]
  else if offset ≤ 2287 then [((offset - 240) / 256 + 241).toUInt8, ((offset - 240) % 256).toUInt8]
  else if offset ≤ 67823 then
    [249, ((offset - 2288) / 256).toUInt8, ((offset - 2288) % 256).toUInt8]
  else if offset ≤ 16777215 then 250 :: pushBytes 3 offset []
  else if offset ≤ 4294967295 then 251 :: pushBytes 4 offset []
  else if offset ≤ 1099511627775 then 252 :: pushBytes 5 offset []
  else if offset ≤ 281474976710655 then 253 :: pushBytes 6 offset []
  else if offset ≤ 72057594037927935 then 254 :: pushBytes 7 offset []
  else 255 :: pushBytes 8 offset []

/-- `idio_ia_compute_fixuint` -/
def computeFixuint (n : Nat) (offset : UInt64) : Ia := pushBytes n offset []

/-! ## Reading -/

/-- `IDIO_IA_GET_NEXT` -/
def getNext (bc : Ia) (pc : Nat) : Result (UInt8 × Nat) :=
  match bc[pc]? with
  | some i => .ok (i, pc + 1)
  | none => .error .undefined

/-- The loop that reads `n` bytes onto a number. -/
def getBytes (bc : Ia) : Nat → UInt64 → Nat → Result (UInt64 × Nat)
  | 0, r, pc => .ok (r, pc)
  | n + 1, r, pc => do
      let (i, pc) ← getNext bc pc
      getBytes bc n (r <<< 8 ||| i.toUInt64) pc

/-- `idio_vm_get_varuint` -/
def getVaruint (bc : Ia) (pc : Nat) : Result (UInt64 × Nat) := do
  let (i, pc) ← getNext bc pc
  if i ≤ 240 then return (i.toUInt64, pc)
  else if i ≤ 248 then do
    let (j, pc) ← getNext bc pc
    return (240 + 256 * (i.toUInt64 - 241) + j.toUInt64, pc)
  else if i = 249 then do
    let (j, pc) ← getNext bc pc
    let (k, pc) ← getNext bc pc
    return (2288 + 256 * j.toUInt64 + k.toUInt64, pc)
  else getBytes bc (i.toNat - 250 + 3) 0 pc

/-- `idio_vm_get_fixuint` -/
def getFixuint (bc : Ia) (n : Nat) (pc : Nat) : Result (UInt64 × Nat) := getBytes bc n 0 pc

/-! ## Bytes -/

theorem pushBytes_append (n : Nat) (offset : UInt64) (ia : Ia) :
    pushBytes n offset ia = pushBytes n offset [] ++ ia := by
  induction n generalizing offset ia with
  | zero => rfl
  | succ n ih =>
    rw [pushBytes, pushBytes, ih, ih _ [_], List.append_assoc]
    rfl

theorem pushBytes_length (n : Nat) (offset : UInt64) : (pushBytes n offset []).length = n := by
  induction n generalizing offset with
  | zero => rfl
  | succ n ih =>
    rw [pushBytes, pushBytes_append, List.length_append, ih]
    rfl

theorem getNext_append (pre post : Ia) (i : UInt8) :
    getNext (pre ++ i :: post) pre.length = .ok (i, pre.length + 1) := by
  rw [getNext, List.getElem?_append_right (Nat.le_refl _), Nat.sub_self]
  rfl

/-- A number with one byte more. -/
theorem shift_toNat {r : UInt64} {i : UInt8} (h : r.toNat * 256 + i.toNat < 2 ^ 64) :
    (r <<< 8 ||| i.toUInt64).toNat = r.toNat * 256 + i.toNat := by
  have hi : i.toNat < 2 ^ 8 := i.toNat_lt
  have hr : r.toNat <<< 8 = r.toNat * 256 := Nat.shiftLeft_eq r.toNat 8
  have hmod : r.toNat <<< 8 % 2 ^ 64 = r.toNat <<< 8 := Nat.mod_eq_of_lt (by omega)
  rw [UInt64.toNat_or, UInt64.toNat_shiftLeft, UInt8.toNat_toUInt64]
  show r.toNat <<< 8 % 2 ^ 64 ||| i.toNat = _
  rw [hmod, ← Nat.shiftLeft_add_eq_or_of_lt hi, hr]

theorem shiftRight_toNat (offset : UInt64) : (offset >>> 8).toNat = offset.toNat / 256 := by
  rw [UInt64.toNat_shiftRight]
  exact Nat.shiftRight_eq_div_pow offset.toNat 8

theorem lowByte_toNat (offset : UInt64) : (offset &&& 0xff).toUInt8.toNat = offset.toNat % 256 := by
  rw [UInt64.toNat_toUInt8, UInt64.toNat_and]
  have h : offset.toNat &&& 255 = offset.toNat % 2 ^ 8 := Nat.and_two_pow_sub_one_eq_mod _ 8
  show (offset.toNat &&& 255) % 2 ^ 8 = _
  rw [h, Nat.mod_mod]
  rfl

/-- What reading some bytes makes of a number. -/
def shiftIn (r : UInt64) (bs : Ia) : UInt64 := bs.foldl (fun r i => r <<< 8 ||| i.toUInt64) r

theorem shiftIn_append (r : UInt64) (bs : Ia) (i : UInt8) :
    shiftIn r (bs ++ [i]) = shiftIn r bs <<< 8 ||| i.toUInt64 := List.foldl_append

theorem getBytes_append (pre bs post : Ia) (r : UInt64) :
    getBytes (pre ++ (bs ++ post)) bs.length r pre.length =
      .ok (shiftIn r bs, pre.length + bs.length) := by
  induction bs generalizing pre r with
  | nil => rfl
  | cons i bs ih =>
    have hrest := ih (pre ++ [i]) (r <<< 8 ||| i.toUInt64)
    rw [List.append_assoc, List.length_append, List.length_singleton] at hrest
    rw [List.length_cons, getBytes, List.cons_append, getNext_append, ok_bind]
    refine Eq.trans hrest ?_
    rw [Nat.add_assoc, Nat.add_comm 1]
    rfl

/-- The bytes of a number are read as the number. -/
theorem shiftIn_pushBytes (n : Nat) {r offset : UInt64} (hfit : offset.toNat < 256 ^ n)
    (h : r.toNat * 256 ^ n + offset.toNat < 2 ^ 64) :
    (shiftIn r (pushBytes n offset [])).toNat = r.toNat * 256 ^ n + offset.toNat := by
  induction n generalizing offset with
  | zero =>
    rw [Nat.pow_zero] at hfit ⊢
    rw [Nat.lt_one_iff.mp hfit, Nat.mul_one]
    rfl
  | succ n ih =>
    have hdiv : offset.toNat / 256 < 256 ^ n :=
      Nat.div_lt_of_lt_mul (by rwa [Nat.pow_succ, Nat.mul_comm] at hfit)
    have hpow : r.toNat * 256 ^ (n + 1) = r.toNat * 256 ^ n * 256 := by ring
    have hsplit := Nat.div_add_mod offset.toNat 256
    rw [hpow] at h
    have hfront := @ih (offset >>> 8) (by rwa [shiftRight_toNat]) (by rw [shiftRight_toNat]; omega)
    rw [shiftRight_toNat] at hfront
    have hjoin : (r.toNat * 256 ^ n + offset.toNat / 256) * 256 + offset.toNat % 256 =
        r.toNat * 256 ^ n * 256 + offset.toNat := by omega
    rw [pushBytes, pushBytes_append, shiftIn_append, shift_toNat, hfront, lowByte_toNat, hjoin, hpow]
    rw [hfront, lowByte_toNat, hjoin]
    exact h

/-! ## Round trips -/

/-- An integer of a fixed width is read where it was written. -/
theorem getFixuint_computeFixuint (pre post : Ia) {n : Nat} {offset : UInt64}
    (hfit : offset.toNat < 256 ^ n) :
    getFixuint (pre ++ (computeFixuint n offset ++ post)) n pre.length =
      .ok (offset, pre.length + n) := by
  have hread := getBytes_append pre (pushBytes n offset []) post 0
  rw [pushBytes_length] at hread
  have hvalue := @shiftIn_pushBytes n 0 offset hfit (by
    have := offset.toNat_lt
    rw [UInt64.toNat_zero]
    omega)
  rw [UInt64.toNat_zero, Nat.zero_mul, Nat.zero_add] at hvalue
  rw [getFixuint, computeFixuint, hread, UInt64.toNat_inj.mp hvalue]

theorem getNext_second (pre post : Ia) (i j : UInt8) :
    getNext (pre ++ i :: j :: post) (pre.length + 1) = .ok (j, pre.length + 2) := by
  simpa using getNext_append (pre ++ [i]) post j

theorem getNext_third (pre post : Ia) (i j k : UInt8) :
    getNext (pre ++ i :: j :: k :: post) (pre.length + 2) = .ok (k, pre.length + 3) := by
  simpa using getNext_append (pre ++ [i, j]) post k

theorem getVaruint_one (pre post : Ia) {i : UInt8} (hi : i.toNat ≤ 240) :
    getVaruint (pre ++ ([i] ++ post)) pre.length = .ok (i.toUInt64, pre.length + 1) := by
  rw [getVaruint, List.singleton_append, getNext_append, ok_bind]
  exact if_pos (UInt8.le_iff_toNat_le.mpr hi)

theorem getVaruint_two (pre post : Ia) {i : UInt8} (j : UInt8) (hlo : 240 < i.toNat)
    (hhi : i.toNat ≤ 248) :
    getVaruint (pre ++ ([i, j] ++ post)) pre.length =
      .ok (240 + 256 * (i.toUInt64 - 241) + j.toUInt64, pre.length + 2) := by
  have hi : getNext (pre ++ ([i, j] ++ post)) pre.length = .ok (i, pre.length + 1) :=
    getNext_append pre _ i
  have hj : getNext (pre ++ ([i, j] ++ post)) (pre.length + 1) = .ok (j, pre.length + 2) :=
    getNext_second pre post i j
  have h₁ : ¬ i ≤ 240 := fun hle =>
    absurd (UInt8.le_iff_toNat_le.mp hle) (Nat.not_le_of_lt hlo)
  have h₂ : i ≤ 248 := UInt8.le_iff_toNat_le.mpr hhi
  simp only [getVaruint, hi, hj, ok_bind, if_neg h₁, if_pos h₂]
  rfl

theorem getVaruint_three (pre post : Ia) (j k : UInt8) :
    getVaruint (pre ++ ([249, j, k] ++ post)) pre.length =
      .ok (2288 + 256 * j.toUInt64 + k.toUInt64, pre.length + 3) := by
  have hi : getNext (pre ++ ([249, j, k] ++ post)) pre.length = .ok (249, pre.length + 1) :=
    getNext_append pre _ 249
  have hj : getNext (pre ++ ([249, j, k] ++ post)) (pre.length + 1) = .ok (j, pre.length + 2) :=
    getNext_second pre _ 249 j
  have hk : getNext (pre ++ ([249, j, k] ++ post)) (pre.length + 2) = .ok (k, pre.length + 3) :=
    getNext_third pre post 249 j k
  have h₁ : ¬ (249 : UInt8) ≤ 240 := by decide
  have h₂ : ¬ (249 : UInt8) ≤ 248 := by decide
  simp only [getVaruint, hi, hj, hk, ok_bind, if_neg h₁, if_neg h₂]
  rfl

/-- A count of bytes, and the bytes. -/
theorem getVaruint_count (pre post : Ia) {i : UInt8} (hi : 249 < i.toNat) {n : Nat}
    (hn : i.toNat - 250 + 3 = n) {offset : UInt64} (hfit : offset.toNat < 256 ^ n) :
    getVaruint (pre ++ (i :: pushBytes n offset [] ++ post)) pre.length =
      .ok (offset, pre.length + (i :: pushBytes n offset []).length) := by
  have hread := getFixuint_computeFixuint (pre ++ [i]) post hfit
  rw [List.append_assoc, List.length_append] at hread
  have h₁ : ¬ i ≤ 240 := fun hle =>
    absurd (UInt8.le_iff_toNat_le.mp hle) (Nat.not_le_of_lt (Nat.lt_trans (by decide) hi))
  have h₂ : ¬ i ≤ 248 := fun hle =>
    absurd (UInt8.le_iff_toNat_le.mp hle) (Nat.not_le_of_lt (Nat.lt_trans (by decide) hi))
  have h₃ : ¬ i = 249 := fun heq => absurd (congrArg UInt8.toNat heq) (Nat.ne_of_gt hi)
  rw [getVaruint, List.cons_append, getNext_append, ok_bind]
  refine (if_neg h₁).trans ((if_neg h₂).trans ((if_neg h₃).trans ?_))
  rw [hn, List.length_cons, pushBytes_length, Nat.add_comm n 1, ← Nat.add_assoc]
  exact hread

theorem getVaruint_computeVaruint (pre post : Ia) (offset : UInt64) :
    getVaruint (pre ++ (computeVaruint offset ++ post)) pre.length =
      .ok (offset, pre.length + (computeVaruint offset).length) := by
  have hlt := offset.toNat_lt
  have fits {m : UInt64} (h : offset ≤ m) : offset.toNat < m.toNat + 1 :=
    Nat.lt_succ_of_le (UInt64.le_iff_toNat_le.mp h)
  rw [computeVaruint]
  split
  case isTrue h =>
    have hbyte : offset.toUInt8.toNat = offset.toNat := by
      rw [UInt64.toNat_toUInt8]
      exact Nat.mod_eq_of_lt (Nat.lt_of_lt_of_le (fits h) (by decide))
    rw [getVaruint_one pre post (by rw [hbyte]; exact UInt64.le_iff_toNat_le.mp h)]
    congr 2
    rw [← UInt64.toNat_inj, UInt8.toNat_toUInt64, hbyte]
  split
  case isTrue hlo h =>
    have hge : 240 < offset.toNat := Nat.lt_of_not_le fun hle => hlo (UInt64.le_iff_toNat_le.mpr hle)
    have hle : offset.toNat ≤ 2287 := UInt64.le_iff_toNat_le.mp h
    have hsub : (offset - 240).toNat = offset.toNat - 240 :=
      UInt64.toNat_sub_of_le _ _ (UInt64.le_iff_toNat_le.mpr (Nat.le_of_lt hge))
    have hi : ((offset - 240) / 256 + 241).toUInt8.toNat = (offset.toNat - 240) / 256 + 241 := by
      rw [UInt64.toNat_toUInt8, UInt64.toNat_add, UInt64.toNat_div, hsub]
      show ((offset.toNat - 240) / 256 + 241) % 2 ^ 64 % 2 ^ 8 = _
      omega
    have hj : ((offset - 240) % 256).toUInt8.toNat = (offset.toNat - 240) % 256 := by
      rw [UInt64.toNat_toUInt8, UInt64.toNat_mod, hsub]
      show (offset.toNat - 240) % 256 % 2 ^ 8 = _
      omega
    have hbase : (241 : UInt64).toNat = 241 := by decide
    have hrow : (((offset - 240) / 256 + 241).toUInt8.toUInt64 - 241).toNat =
        (offset.toNat - 240) / 256 := by
      have hle : 241 ≤ ((offset - 240) / 256 + 241).toUInt8.toUInt64 := by
        rw [UInt64.le_iff_toNat_le, UInt8.toNat_toUInt64, hi, hbase]
        omega
      rw [UInt64.toNat_sub_of_le _ _ hle, UInt8.toNat_toUInt64, hi, hbase, Nat.add_sub_cancel]
    rw [getVaruint_two pre post _ (by omega) (by omega)]
    congr 2
    rw [← UInt64.toNat_inj, UInt64.toNat_add, UInt64.toNat_add, UInt64.toNat_mul, hrow,
      UInt8.toNat_toUInt64, hj]
    show ((240 + 256 * ((offset.toNat - 240) / 256) % 2 ^ 64) % 2 ^ 64 +
      (offset.toNat - 240) % 256) % 2 ^ 64 = offset.toNat
    omega
  split
  case isTrue hlo h =>
    have hge : 2287 < offset.toNat :=
      Nat.lt_of_not_le fun hle => hlo (UInt64.le_iff_toNat_le.mpr hle)
    have hle : offset.toNat ≤ 67823 := UInt64.le_iff_toNat_le.mp h
    have hsub : (offset - 2288).toNat = offset.toNat - 2288 :=
      UInt64.toNat_sub_of_le _ _ (UInt64.le_iff_toNat_le.mpr hge)
    have hj : ((offset - 2288) / 256).toUInt8.toNat = (offset.toNat - 2288) / 256 := by
      rw [UInt64.toNat_toUInt8, UInt64.toNat_div, hsub]
      show (offset.toNat - 2288) / 256 % 2 ^ 8 = _
      omega
    have hk : ((offset - 2288) % 256).toUInt8.toNat = (offset.toNat - 2288) % 256 := by
      rw [UInt64.toNat_toUInt8, UInt64.toNat_mod, hsub]
      show (offset.toNat - 2288) % 256 % 2 ^ 8 = _
      omega
    rw [getVaruint_three]
    congr 2
    rw [← UInt64.toNat_inj, UInt64.toNat_add, UInt64.toNat_add, UInt64.toNat_mul,
      UInt8.toNat_toUInt64, UInt8.toNat_toUInt64, hj, hk]
    show ((2288 + 256 * ((offset.toNat - 2288) / 256) % 2 ^ 64) % 2 ^ 64 +
      (offset.toNat - 2288) % 256) % 2 ^ 64 = offset.toNat
    omega
  split
  case isTrue h => exact getVaruint_count pre post (by decide) rfl (fits h)
  split
  case isTrue h => exact getVaruint_count pre post (by decide) rfl (fits h)
  split
  case isTrue h => exact getVaruint_count pre post (by decide) rfl (fits h)
  split
  case isTrue h => exact getVaruint_count pre post (by decide) rfl (fits h)
  split
  case isTrue h => exact getVaruint_count pre post (by decide) rfl (fits h)
  exact getVaruint_count pre post (by decide) rfl hlt

/-! ## Lengths -/

/-- The greatest numbers written in one byte to eight. -/
def varuintLimits : List UInt64 :=
  [240, 2287, 67823, 16777215, 4294967295, 1099511627775, 281474976710655, 72057594037927935]

/-- One byte, and one more for each limit the number is above. -/
theorem computeVaruint_length (offset : UInt64) :
    (computeVaruint offset).length = 1 + varuintLimits.countP (· < offset) := by
  simp only [varuintLimits, List.countP_cons, List.countP_nil, decide_eq_true_eq, computeVaruint,
    apply_ite List.length, List.length_cons, List.length_nil, pushBytes_length,
    UInt64.le_iff_toNat_le, UInt64.lt_iff_toNat_lt, UInt64.toNat_ofNat]
  grind

/-- A greater number is written in as many bytes or more. -/
theorem computeVaruint_length_mono {m n : UInt64} (h : m ≤ n) :
    (computeVaruint m).length ≤ (computeVaruint n).length := by
  rw [computeVaruint_length, computeVaruint_length]
  have hmono : varuintLimits.countP (· < m) ≤ varuintLimits.countP (· < n) :=
    List.countP_mono_left fun l _ hl => decide_eq_true (UInt64.lt_of_lt_of_le (of_decide_eq_true hl) h)
  exact Nat.add_le_add_left hmono 1

theorem computeVaruint_length_le (offset : UInt64) : (computeVaruint offset).length ≤ 9 := by
  rw [computeVaruint_length, Nat.add_comm]
  exact Nat.succ_le_succ List.countP_le_length

/-- **Integers in byte code are read where they were written**: a number of any size with any
bytes around it, in at most nine bytes and never in fewer than a smaller number; and a number
that fits a width, in that width. -/
theorem varuint_round_trip (pre post : Ia) (offset : UInt64) :
    getVaruint (pre ++ (computeVaruint offset ++ post)) pre.length =
        .ok (offset, pre.length + (computeVaruint offset).length) ∧
      (computeVaruint offset).length ≤ 9 ∧
      (∀ m, m ≤ offset → (computeVaruint m).length ≤ (computeVaruint offset).length) ∧
      ∀ n, offset.toNat < 256 ^ n →
        getFixuint (pre ++ (computeFixuint n offset ++ post)) n pre.length =
          .ok (offset, pre.length + n) :=
  ⟨getVaruint_computeVaruint pre post offset, computeVaruint_length_le offset,
    fun _ => computeVaruint_length_mono, fun _ => getFixuint_computeFixuint pre post⟩

theorem varuint_round_trip_limit :
    getVaruint [7, 250, 1, 8, 240, 9] 1 = .ok (67824, 5) ∧
      getFixuint [7, 1, 8, 240, 9] 3 1 = .ok (67824, 4) := by
  have hv : computeVaruint 67824 = [250, 1, 8, 240] := by decide
  have hf : computeFixuint 3 67824 = [1, 8, 240] := by decide
  have h := varuint_round_trip [7] [9] 67824
  rw [hv] at h
  have hfix := h.2.2.2 3 (by decide)
  rw [hf] at hfix
  exact ⟨h.1, hfix⟩

end Idio
