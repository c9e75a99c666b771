/-
  Lib/Cells.lean --- arrays of little-endian cells in a list of bytes.

  The bytes of an allocation are read and written in cells of one width.  Cells are
  made wider in place, the last one first: a wide cell never covers a narrow one that
  is still to be read.
-/
import Mathlib.Algebra.Group.Nat.Defs
import Mathlib.Data.List.Basic

set_option autoImplicit false

namespace Cells

/-- The value of the bytes of a cell, the lowest first. -/
def value : List Nat → Nat
  | [] => 0
  | b :: bs => b + 256 * value bs

/-- The `w` bytes of a value. -/
def bytes : Nat → Nat → List Nat
  | 0, _ => []
  | w + 1, v => v % 256 :: bytes w (v / 256)

/-- The cell at an index. -/
def read (w i : Nat) (m : List Nat) : Option Nat :=
  if i * w + w ≤ m.length then some (value ((m.drop (i * w)).take w)) else none

/-- The allocation with a cell written. -/
def write (w i v : Nat) (m : List Nat) : Option (List Nat) :=
  if i * w + w ≤ m.length then some (m.take (i * w) ++ (bytes w v ++ m.drop (i * w + w))) else none

/-- The cells below an index made wider, the last one first. -/
def widen (w w' : Nat) : Nat → List Nat → Option (List Nat)
  | 0, m => some m
  | i + 1, m => do
      let v ← read w i m
      let m ← write w' i v m
      widen w w' i m

variable {w w' i j n v : Nat} {m m' : List Nat}

@[simp]
theorem length_bytes (w v : Nat) : (bytes w v).length = w := by
  induction w generalizing v with
  | zero => rfl
  | succ w ih => rw [bytes, List.length_cons, ih]

theorem value_bytes (w v : Nat) (h : v < 256 ^ w) : value (bytes w v) = v := by
  induction w generalizing v with
  | zero =>
    rw [Nat.pow_zero] at h
    exact (Nat.lt_one_iff.mp h).symm
  | succ w ih =>
    rw [Nat.pow_succ] at h
    rw [bytes, value, ih (v / 256) (by omega)]
    omega

theorem bytes_lt (w v : Nat) : ∀ b ∈ bytes w v, b < 256 := by
  induction w generalizing v with
  | zero => exact fun b hb => absurd hb List.not_mem_nil
  | succ w ih => exact List.forall_mem_cons.mpr ⟨Nat.mod_lt v (by decide), ih (v / 256)⟩

theorem value_lt {bs : List Nat} (h : ∀ b ∈ bs, b < 256) : value bs < 256 ^ bs.length := by
  induction bs with
  | nil => exact Nat.one_pos
  | cons b bs ih =>
    obtain ⟨hb, hbs⟩ := List.forall_mem_cons.mp h
    have hvalue := ih hbs
    rw [value, List.length_cons, Nat.pow_succ]
    omega

/-! ## One write -/

theorem read_lt (hm : ∀ b ∈ m, b < 256) (h : read w i m = some v) : v < 256 ^ w := by
  rw [read] at h
  split at h
  · cases h
    have hlt : value ((m.drop (i * w)).take w) < _ := value_lt
      fun b hb => hm b (List.mem_of_mem_drop (List.mem_of_mem_take hb))
    rwa [List.length_take, List.length_drop, Nat.min_eq_left (by omega)] at hlt
  · cases h

theorem write_eq_some (h : write w i v m = some m') :
    i * w + w ≤ m.length ∧ m' = m.take (i * w) ++ (bytes w v ++ m.drop (i * w + w)) := by
  rw [write] at h
  split at h
  · exact ⟨‹_›, (Option.some.inj h).symm⟩
  · cases h

theorem length_write (h : write w i v m = some m') : m'.length = m.length := by
  obtain ⟨hfits, rfl⟩ := write_eq_some h
  rw [List.length_append, List.length_append, length_bytes, List.length_take, List.length_drop]
  omega

theorem write_lt (hm : ∀ b ∈ m, b < 256) (h : write w i v m = some m') : ∀ b ∈ m', b < 256 := by
  obtain ⟨-, rfl⟩ := write_eq_some h
  intro b hb
  rcases List.mem_append.mp hb with hb | hb
  · exact hm b (List.mem_of_mem_take hb)
  · rcases List.mem_append.mp hb with hb | hb
    · exact bytes_lt w v b hb
    · exact hm b (List.mem_of_mem_drop hb)

theorem take_write (h : write w i v m = some m') {k : Nat} (hk : k ≤ i * w) :
    m'.take k = m.take k := by
  obtain ⟨hfits, rfl⟩ := write_eq_some h
  rw [List.take_append_of_le_length (by rw [List.length_take]; omega), List.take_take,
    Nat.min_eq_left hk]

theorem drop_write (h : write w i v m = some m') {k : Nat} (hk : i * w + w ≤ k) :
    m'.drop k = m.drop k := by
  obtain ⟨hfits, rfl⟩ := write_eq_some h
  have htake : (m.take (i * w)).length = i * w := List.length_take_of_le (by omega)
  rw [List.drop_append, List.drop_append, htake, length_bytes,
    List.drop_of_length_le (by omega : (m.take (i * w)).length ≤ k),
    List.drop_of_length_le (by rw [length_bytes]; omega), List.nil_append, List.nil_append,
    List.drop_drop]
  congr 1
  omega

theorem read_write_self (hv : v < 256 ^ w) (h : write w i v m = some m') : read w i m' = some v := by
  have hlen := length_write h
  obtain ⟨hfits, rfl⟩ := write_eq_some h
  have htake : (m.take (i * w)).length = i * w := List.length_take_of_le (by omega)
  rw [read, if_pos (by omega), List.drop_append, htake, Nat.sub_self, List.drop_zero,
    List.drop_of_length_le (Nat.le_of_eq htake), List.nil_append,
    List.take_append_of_le_length (Nat.le_of_eq (length_bytes w v).symm),
    List.take_of_length_le (Nat.le_of_eq (length_bytes w v)), value_bytes w v hv]

/-- A cell that ends below the bytes that are the same. -/
theorem read_of_take {k : Nat} (hlen : m'.length = m.length) (h : m'.take k = m.take k)
    (hk : j * w + w ≤ k) : read w j m' = read w j m := by
  have hcell (l : List Nat) : (l.drop (j * w)).take w = ((l.take k).drop (j * w)).take w := by
    rw [List.drop_take, List.take_take, Nat.min_eq_left (by omega)]
  rw [read, read, hlen, hcell m', hcell m, h]

/-- A cell that starts in the bytes that are the same. -/
theorem read_of_drop {k : Nat} (hlen : m'.length = m.length) (h : m'.drop k = m.drop k)
    (hk : k ≤ j * w) : read w j m' = read w j m := by
  have hcell (l : List Nat) : l.drop (j * w) = (l.drop k).drop (j * w - k) := by
    rw [List.drop_drop]
    congr 1
    omega
  rw [read, read, hlen, hcell m', hcell m, h]

theorem read_append {l : List Nat} (h : j * w + w ≤ m.length) : read w j (m ++ l) = read w j m := by
  rw [read, read, if_pos h, if_pos (by rw [List.length_append]; omega),
    List.drop_append_of_le_length (by omega),
    List.take_append_of_le_length (by rw [List.length_drop]; omega)]

theorem read_write_ne (h : write w i v m = some m') (hne : j ≠ i) : read w j m' = read w j m := by
  rcases Nat.lt_or_gt_of_ne hne with hlt | hgt
  · have hk : j * w + w ≤ i * w := by
      rw [← Nat.succ_mul]
      exact Nat.mul_le_mul_right w hlt
    exact read_of_take (length_write h) (take_write h (Nat.le_refl _)) hk
  · have hk : i * w + w ≤ j * w := by
      rw [← Nat.succ_mul]
      exact Nat.mul_le_mul_right w hgt
    exact read_of_drop (length_write h) (drop_write h (Nat.le_refl _)) hk

/-! ## Wider cells -/

/-- The first cells keep their values, and what is beyond the wide cells is left alone. -/
theorem widen_spec (hw : w ≤ w') (hm : ∀ b ∈ m, b < 256) (hlen : n * w' ≤ m.length) :
    ∃ m', widen w w' n m = some m' ∧ m'.length = m.length ∧ (∀ b ∈ m', b < 256) ∧
      (∀ j, j < n → read w' j m' = read w j m) ∧ m'.drop (n * w') = m.drop (n * w') := by
  induction n generalizing m with
  | zero => exact ⟨m, rfl, rfl, hm, fun j hj => absurd hj (Nat.not_lt_zero j), rfl⟩
  | succ n ih =>
    rw [Nat.succ_mul] at hlen
    have hnarrow (j : Nat) (hj : j ≤ n) : j * w ≤ n * w' := Nat.mul_le_mul hj hw
    obtain ⟨v, hv⟩ : ∃ v, read w n m = some v := ⟨_, if_pos (by have := hnarrow n (Nat.le_refl n); omega)⟩
    have hvlt : v < 256 ^ w' := Nat.lt_of_lt_of_le (read_lt hm hv) (Nat.pow_le_pow_right (by decide) hw)
    obtain ⟨m₁, hm₁⟩ : ∃ m₁, write w' n v m = some m₁ := ⟨_, if_pos hlen⟩
    have hlen₁ := length_write hm₁
    obtain ⟨m', hm', hlen', hlt', hread, hdrop⟩ := ih (write_lt hm hm₁) (by omega)
    refine ⟨m', ?_, hlen'.trans hlen₁, hlt', ?_, ?_⟩
    · change (read w n m).bind (fun v => (write w' n v m).bind (widen w w' n)) = some m'
      rw [hv, Option.bind_some, hm₁, Option.bind_some, hm']
    · intro j hj
      rcases Nat.lt_succ_iff_lt_or_eq.mp hj with hlt | rfl
      · -- the narrow cells below are left alone
        have hk : j * w + w ≤ n * w' := by
          rw [← Nat.succ_mul]
          exact hnarrow (j + 1) hlt
        rw [hread j hlt, read_of_take hlen₁ (take_write hm₁ (Nat.le_refl _)) hk]
      · rw [read_of_drop hlen' hdrop (Nat.le_refl _), read_write_self hvlt hm₁, hv]
    · have hsplit (l : List Nat) : l.drop ((n + 1) * w') = (l.drop (n * w')).drop w' := by
        rw [List.drop_drop, Nat.succ_mul]
      rw [hsplit, hdrop, ← hsplit, drop_write hm₁ (Nat.le_of_eq (Nat.succ_mul n w').symm)]

end Cells
