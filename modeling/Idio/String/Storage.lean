/-
  String/Storage.lean --- the storage of strings.

  The code points of a string are units of one, two or four bytes in an allocation of
  its own; the flags of the string say which.  The allocation is the list of its whole
  units.  A string of one-byte units has one more of them than it has code points, for
  the terminating NUL; in the wider ones the NUL takes a byte that is no unit.
-/
import Idio.Basic
import Idio.Value.Basic

set_option autoImplicit false

namespace Idio

/-- `idio_string_storage_size`. -/
def StringFlags.width : StringFlags → Nat
  | .oneByte | .octet | .pathname | .fdPathname | .fifoPathname => 1
  | .twoByte => 2
  | .fourByte => 4

/-- The flags once a code point has been taken into account. -/
def StringFlags.widen (flags : StringFlags) (cp : Nat) : StringFlags :=
  if cp > 0xffff then .fourByte
  else if cp > 0xff ∧ flags = .oneByte then .twoByte
  else flags

/-- What a unit of the width can hold. -/
def StringFlags.capacity (flags : StringFlags) : Nat := 256 ^ flags.width

/-- `struct idio_string_s`: `IDIO_STRING_BLEN`, `IDIO_STRING_LEN`, `IDIO_STRING_FLAGS`
and the units at `IDIO_STRING_S`. -/
structure StringS where
  blen : Nat
  len : Nat
  flags : StringFlags
  s : List Nat
  deriving DecidableEq, Repr

/-- The code points of a string. -/
def StringS.codePoints (so : StringS) : List Nat := so.s.take so.len

/-- `IDIO_GC_ALLOC`; the contents are what is written to it later. -/
def gcAlloc (flags : StringFlags) (bytes : Nat) : List Nat :=
  List.replicate (bytes / flags.width) 0

/-- `us8[k] = (uint8_t) cp`, `us16[k] = (uint16_t) cp` or `us32[k] = (uint32_t) cp`. -/
def putUnit (flags : StringFlags) (s : List Nat) (k cp : Nat) : Result (List Nat) :=
  if k < s.length then .ok (s.set k (cp % flags.capacity)) else .error .undefined

/-- `IDIO_STRING_S (so)[reqd_bytes] = '\0'`. -/
def terminate (flags : StringFlags) (s : List Nat) (reqdBytes : Nat) : List Nat :=
  s.set (reqdBytes / flags.width) 0

/-! ## Widths -/

/-- The flags once some code points have been taken into account. -/
def widest (flags : StringFlags) (cps : List Nat) : StringFlags := cps.foldl StringFlags.widen flags

/-- The flags of the three widths. -/
def StringFlags.isUnicode : StringFlags → Bool
  | .oneByte | .twoByte | .fourByte => true
  | .octet | .pathname | .fdPathname | .fifoPathname => false

theorem StringFlags.width_pos (flags : StringFlags) : 0 < flags.width := by
  cases flags <;> decide

theorem StringFlags.capacity_le_widen (flags : StringFlags) (cp : Nat) :
    flags.capacity ≤ (flags.widen cp).capacity := by
  rw [StringFlags.widen]
  split
  · cases flags <;> decide
  split
  · rename_i h
    rw [h.2]
    decide
  · exact Nat.le_refl _

variable {flags : StringFlags}

theorem lt_capacity_widen {cp : Nat} (hcp : cp < 256 ^ 4) (hflags : flags.isUnicode) :
    cp < (flags.widen cp).capacity := by
  rw [StringFlags.widen]
  split
  · exact hcp
  split
  · show cp < 256 ^ 2
    omega
  · rename_i h h'
    cases flags with
    | oneByte =>
      have : ¬ cp > 0xff := fun hlt => h' ⟨hlt, rfl⟩
      show cp < 256
      omega
    | twoByte =>
      show cp < 256 ^ 2
      omega
    | fourByte => exact hcp
    | octet | pathname | fdPathname | fifoPathname => cases hflags

theorem capacity_le_widest (flags : StringFlags) (cps : List Nat) :
    flags.capacity ≤ (widest flags cps).capacity := by
  induction cps generalizing flags with
  | nil => exact Nat.le_refl _
  | cons cp cps ih => exact Nat.le_trans (flags.capacity_le_widen cp) (ih _)

theorem StringFlags.isUnicode_widen (cp : Nat) (hflags : flags.isUnicode) :
    (flags.widen cp).isUnicode := by
  rw [StringFlags.widen]
  split
  · decide
  split
  · decide
  · exact hflags

theorem widest_isUnicode (hflags : flags.isUnicode) (cps : List Nat) :
    (widest flags cps).isUnicode := by
  induction cps generalizing flags with
  | nil => exact hflags
  | cons cp cps ih => exact ih (flags.isUnicode_widen cp hflags)

variable {cps : List Nat}

/-- The flags that take all code points into account are wide enough for them. -/
theorem lt_capacity_widest (hflags : flags.isUnicode) (h : ∀ cp ∈ cps, cp < 256 ^ 4) :
    ∀ cp ∈ cps, cp < (widest flags cps).capacity := by
  induction cps generalizing flags with
  | nil => exact fun cp hcp => absurd hcp List.not_mem_nil
  | cons c cps ih =>
    intro cp hcp
    rcases List.mem_cons.mp hcp with rfl | hcp
    · exact Nat.lt_of_lt_of_le (lt_capacity_widen (h _ List.mem_cons_self) hflags)
        (capacity_le_widest _ cps)
    · exact ih (flags.isUnicode_widen c hflags) (fun cp hcp => h cp (List.mem_cons_of_mem c hcp)) cp hcp

/-! ## Writing -/

/-- Code points written one after the other. -/
def putUnits (flags : StringFlags) (s : List Nat) (k : Nat) : List Nat → Result (List Nat)
  | [] => .ok s
  | cp :: cps => do putUnits flags (← putUnit flags s k cp) (k + 1) cps

theorem putUnits_append (flags : StringFlags) (s : List Nat) (k : Nat) (cps cps' : List Nat) :
    putUnits flags s k (cps ++ cps') =
      (putUnits flags s k cps).bind fun s => putUnits flags s (k + cps.length) cps' := by
  induction cps generalizing s k with
  | nil => rfl
  | cons cp cps ih =>
    rw [List.cons_append, putUnits, putUnits]
    cases putUnit flags s k cp with
    | error e => rfl
    | ok s =>
      simp only [ok_bind, ih, List.length_cons]
      rw [Nat.add_right_comm, Nat.add_assoc]

/-- What has room is written. -/
theorem putUnits_of_le {flags : StringFlags} {s : List Nat} {k : Nat} {cps : List Nat}
    (h : k + cps.length ≤ s.length) :
    putUnits flags s k cps =
      .ok (s.take k ++ cps.map (· % flags.capacity) ++ s.drop (k + cps.length)) := by
  induction cps generalizing s k with
  | nil => simp [putUnits]
  | cons cp cps ih =>
    rw [List.length_cons] at h
    have hk : k < s.length := by omega
    rw [putUnits, putUnit, if_pos hk, ok_bind, ih (by rw [List.length_set]; omega)]
    have htake : (s.set k (cp % flags.capacity)).take (k + 1) =
        s.take k ++ [cp % flags.capacity] := by
      rw [List.take_add_one, List.take_set_of_le (Nat.le_refl k), List.getElem?_set_self hk]
      rfl
    rw [htake, List.drop_set_of_lt (by omega), List.map_cons, List.length_cons]
    simp [Nat.add_assoc, Nat.add_comm 1]

variable {s : List Nat} {k : Nat}

/-- What has no room is not. -/
theorem putUnits_of_lt (hk : k ≤ s.length) (h : s.length < k + cps.length) :
    putUnits flags s k cps = .error .undefined := by
  induction cps generalizing s k with
  | nil => exact absurd h (Nat.not_lt.mpr hk)
  | cons cp cps ih =>
    rw [List.length_cons] at h
    rw [putUnits, putUnit]
    by_cases hlt : k < s.length
    · rw [if_pos hlt, ok_bind]
      exact ih (by rw [List.length_set]; omega) (by rw [List.length_set]; omega)
    · rw [if_neg hlt]
      rfl

/-! ## Allocations -/

theorem length_gcAlloc (flags : StringFlags) (n : Nat) :
    (gcAlloc flags (n * flags.width + 1)).length = n + 1 / flags.width := by
  rw [gcAlloc, List.length_replicate, Nat.mul_comm, Nat.mul_add_div flags.width_pos]

/-- The wider strings have no unit to spare. -/
theorem length_gcAlloc_of_ne (n : Nat) (h : flags.width ≠ 1) :
    (gcAlloc flags (n * flags.width + 1)).length = n := by
  have hpos := flags.width_pos
  rw [length_gcAlloc, Nat.div_eq_of_lt (by omega), Nat.add_zero]

variable {s' : List Nat}

theorem putUnits_length (h : putUnits flags s k cps = .ok s') : s'.length = s.length := by
  induction cps generalizing s k with
  | nil =>
    cases h
    rfl
  | cons cp cps ih =>
    obtain ⟨s₁, hput, h⟩ := bind_eq_ok.mp h
    rw [putUnit] at hput
    split at hput
    · cases hput
      rw [ih h, List.length_set]
    · cases hput

theorem putUnit_lt {cp : Nat} (h : putUnit flags s k cp = .ok s') (hs : ∀ u ∈ s, u < flags.capacity) :
    ∀ u ∈ s', u < flags.capacity := by
  rw [putUnit] at h
  split at h
  · cases h
    intro u hu
    rcases List.mem_or_eq_of_mem_set hu with hu | rfl
    · exact hs u hu
    · exact Nat.mod_lt _ (Nat.pow_pos (by decide))
  · cases h

theorem putUnits_lt (h : putUnits flags s k cps = .ok s') (hs : ∀ u ∈ s, u < flags.capacity) :
    ∀ u ∈ s', u < flags.capacity := by
  induction cps generalizing s k with
  | nil =>
    cases h
    exact hs
  | cons cp cps ih =>
    obtain ⟨s₁, hput, h⟩ := bind_eq_ok.mp h
    exact ih h (putUnit_lt hput hs)

theorem gcAlloc_lt (flags : StringFlags) (bytes : Nat) :
    ∀ u ∈ gcAlloc flags bytes, u < flags.capacity := by
  intro u hu
  rw [List.eq_of_mem_replicate hu]
  exact Nat.pow_pos (by decide)

theorem terminate_lt (reqdBytes : Nat) (hs : ∀ u ∈ s, u < flags.capacity) :
    ∀ u ∈ terminate flags s reqdBytes, u < flags.capacity := by
  intro u hu
  rcases List.mem_or_eq_of_mem_set hu with hu | rfl
  · exact hs u hu
  · exact Nat.pow_pos (by decide)

/-- An allocation for at least some code points takes them. -/
theorem putUnits_gcAlloc {n : Nat} (hn : cps.length ≤ n) (h : ∀ cp ∈ cps, cp < flags.capacity) :
    ∃ s, putUnits flags (gcAlloc flags (n * flags.width + 1)) 0 cps = .ok s ∧
      (terminate flags s (n * flags.width)).take cps.length = cps := by
  have hlen : 0 + cps.length ≤ (gcAlloc flags (n * flags.width + 1)).length := by
    rw [length_gcAlloc, Nat.zero_add]
    exact Nat.le_trans hn (Nat.le_add_right _ _)
  have hmap : cps.map (· % flags.capacity) = cps := by
    conv_rhs => rw [← List.map_id cps]
    exact List.map_congr_left fun cp hcp => Nat.mod_eq_of_lt (h cp hcp)
  refine ⟨_, putUnits_of_le hlen, ?_⟩
  rw [terminate, Nat.mul_div_cancel _ flags.width_pos, List.take_set_of_le hn, hmap,
    List.take_zero, List.nil_append, List.take_left]

/-! ## Strings -/

/-- A string of one of the three widths whose allocation has room for its code points and
for its bytes, and whose units hold what their width can hold. -/
structure StringS.Sound (so : StringS) : Prop where
  unicode : so.flags.isUnicode
  bytes : so.len ≤ so.blen / so.flags.width
  room : so.blen / so.flags.width ≤ so.s.length
  units : ∀ u ∈ so.s, u < so.flags.capacity

theorem StringS.Sound.len_le {so : StringS} (h : so.Sound) : so.len ≤ so.s.length :=
  Nat.le_trans h.bytes h.room

theorem StringS.Sound.length_codePoints {so : StringS} (h : so.Sound) :
    so.codePoints.length = so.len := by
  rw [StringS.codePoints, List.length_take, Nat.min_eq_left h.len_le]

/-- A string that has been filled with code points. -/
theorem StringS.sound_of_putUnits {n : Nat} (hflags : flags.isUnicode) (hn : cps.length ≤ n)
    (hs : putUnits flags (gcAlloc flags (n * flags.width + 1)) 0 cps = .ok s) :
    StringS.Sound ⟨n * flags.width, cps.length, flags, terminate flags s (n * flags.width)⟩ where
  unicode := hflags
  bytes := by
    dsimp only
    rwa [Nat.mul_div_cancel _ flags.width_pos]
  room := by
    dsimp only
    rw [Nat.mul_div_cancel _ flags.width_pos, terminate, List.length_set, putUnits_length hs,
      length_gcAlloc]
    exact Nat.le_add_right _ _
  units := terminate_lt _ (putUnits_lt hs (gcAlloc_lt _ _))

end Idio
