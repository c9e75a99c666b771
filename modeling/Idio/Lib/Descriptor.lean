/-
  Lib/Descriptor.lean --- a file descriptor that write(2) and lseek(2) work on.

  A write takes all the bytes it is given.  It puts them at the offset, or at the end if
  the descriptor appends or cannot seek.  Two writes in succession are one write of both.
  A read gives all there are from the offset on.
-/
import Mathlib.Data.List.Basic

set_option autoImplicit false

namespace Descriptors

/-- Bytes put over others from a position on, with zeros up to there if it is beyond the end. -/
def overwrite (l : List Nat) (at' : Nat) (bs : List Nat) : List Nat :=
  l.take at' ++ List.replicate (at' - l.length) 0 ++ bs ++ l.drop (at' + bs.length)

structure Descriptor where
  seekable : Bool
  append : Bool
  offset : Nat
  /-- the contents -/
  bytes : List Nat
  /-- all that write(2) has been given -/
  written : List Nat
  deriving DecidableEq, Repr

/-- Where the next write goes to. -/
def Descriptor.place (d : Descriptor) : Nat :=
  if d.seekable && !d.append then d.offset else d.bytes.length

/-- write(2) -/
def Descriptor.write (d : Descriptor) (bs : List Nat) : Descriptor :=
  if bs = [] then d
  else { d with
    offset := d.place + bs.length
    bytes := overwrite d.bytes d.place bs
    written := d.written ++ bs }

/-- What lseek(2) may say instead. -/
inductive SeekError where
  | einval
  | espipe
  deriving DecidableEq, Repr

/-- lseek(2) with `SEEK_SET` -/
def Descriptor.lseek (d : Descriptor) (offset : Int) : Except SeekError Descriptor :=
  if !d.seekable then .error .espipe
  else if offset < 0 then .error .einval
  else .ok { d with offset := offset.toNat }

/-- lseek(2) with `SEEK_END` -/
def Descriptor.lseekEnd (d : Descriptor) (offset : Int) : Except SeekError Descriptor :=
  d.lseek (d.bytes.length + offset)

/-- read(2) of at most `n` bytes, which returns as many as there are -/
def Descriptor.read (d : Descriptor) (n : Nat) : List Nat × Descriptor :=
  let bs := (d.bytes.drop d.offset).take n
  (bs, { d with offset := d.offset + bs.length })

section Writes

variable {d : Descriptor} {xs ys : List Nat}

theorem length_overwrite_prefix (l : List Nat) (a : Nat) :
    (l.take a ++ List.replicate (a - l.length) 0).length = a := by
  rw [List.length_append, List.length_take, List.length_replicate]
  omega

theorem overwrite_overwrite (l : List Nat) (a : Nat) (xs ys : List Nat) :
    overwrite (overwrite l a xs) (a + xs.length) ys = overwrite l a (xs ++ ys) := by
  have hpre : (l.take a ++ List.replicate (a - l.length) 0 ++ xs).length = a + xs.length := by
    rw [List.length_append, length_overwrite_prefix]
  have htake : (overwrite l a xs).take (a + xs.length) =
      l.take a ++ List.replicate (a - l.length) 0 ++ xs := by
    rw [overwrite, List.take_left' hpre]
  have hdrop : (overwrite l a xs).drop (a + xs.length + ys.length) =
      l.drop (a + xs.length + ys.length) := by
    rw [overwrite, ← List.drop_drop, List.drop_left' hpre, List.drop_drop]
  have hlen : a + xs.length - (overwrite l a xs).length = 0 := by
    rw [overwrite, List.length_append, hpre]
    omega
  rw [overwrite, htake, hlen, hdrop, overwrite, List.length_append, Nat.add_assoc]
  simp only [List.replicate_zero, List.append_nil, List.append_assoc]

theorem length_overwrite_end (l xs : List Nat) :
    (overwrite l l.length xs).length = l.length + xs.length := by
  rw [overwrite, List.drop_eq_nil_of_le (Nat.le_add_right _ _), List.append_nil, List.length_append,
    length_overwrite_prefix]

theorem write_nil (d : Descriptor) : d.write [] = d := if_pos rfl

theorem write_of_ne (d : Descriptor) (h : xs ≠ []) :
    d.write xs = ⟨d.seekable, d.append, d.place + xs.length, overwrite d.bytes d.place xs,
      d.written ++ xs⟩ := if_neg h

theorem written_write (d : Descriptor) (xs : List Nat) : (d.write xs).written = d.written ++ xs := by
  rw [Descriptor.write]
  split
  · rename_i h
    rw [h, List.append_nil]
  · rfl

/-- The next write goes behind the last. -/
theorem place_write (d : Descriptor) (xs : List Nat) : (d.write xs).place = d.place + xs.length := by
  by_cases h : xs = []
  · rw [h, write_nil]
    rfl
  rw [write_of_ne d h]
  rw [Descriptor.place, Descriptor.place]
  dsimp only
  split
  · rfl
  · exact length_overwrite_end _ _

theorem write_write (d : Descriptor) (xs ys : List Nat) : (d.write xs).write ys = d.write (xs ++ ys) := by
  by_cases hx : xs = []
  · rw [hx, write_nil, List.nil_append]
  by_cases hy : ys = []
  · rw [hy, write_nil, List.append_nil]
  have hplace := place_write d xs
  rw [write_of_ne _ hy, hplace, write_of_ne _ (List.append_ne_nil_of_left_ne_nil hx ys),
    List.length_append, ← Nat.add_assoc]
  rw [write_of_ne _ hx]
  dsimp only
  rw [overwrite_overwrite, List.append_assoc]

/-- The flags of a descriptor stay as they are. -/
theorem write_seekable (d : Descriptor) (xs : List Nat) : (d.write xs).seekable = d.seekable := by
  rw [Descriptor.write]
  split <;> rfl

theorem write_append (d : Descriptor) (xs : List Nat) : (d.write xs).append = d.append := by
  rw [Descriptor.write]
  split <;> rfl

/-- Nothing that is written can tell the descriptors apart. -/
structure Alike (d d' : Descriptor) : Prop where
  seekable : d.seekable = d'.seekable
  append : d.append = d'.append
  place : d.place = d'.place
  bytes : d.bytes = d'.bytes
  written : d.written = d'.written

theorem Alike.refl (d : Descriptor) : Alike d d := ⟨rfl, rfl, rfl, rfl, rfl⟩

theorem Alike.trans {d d' d'' : Descriptor} (h : Alike d d') (h' : Alike d' d'') : Alike d d'' :=
  ⟨h.seekable.trans h'.seekable, h.append.trans h'.append, h.place.trans h'.place,
    h.bytes.trans h'.bytes, h.written.trans h'.written⟩

theorem Alike.write {d' : Descriptor} (h : Alike d d') (xs : List Nat) :
    Alike (d.write xs) (d'.write xs) := by
  by_cases hxs : xs = []
  · rw [hxs, write_nil, write_nil]
    exact h
  · rw [write_of_ne _ hxs, write_of_ne _ hxs, h.seekable, h.append, h.place, h.bytes, h.written]
    exact .refl _

/-- A seek changes the offset. -/
theorem lseek_eq {d' : Descriptor} {offset : Int} (h : d.lseek offset = .ok d') :
    d' = { d with offset := offset.toNat } := by
  rw [Descriptor.lseek] at h
  split at h
  · cases h
  split at h
  · cases h
  · exact (Except.ok.inj h).symm

/-- A seek to where the next write goes anyway. -/
theorem lseek_alike {d' : Descriptor} {offset : Int} (h : d.lseek offset = .ok d')
    (hplace : d.seekable = true → d.append = false → offset = d.place) : Alike d' d := by
  rw [lseek_eq h]
  refine ⟨rfl, rfl, ?_, rfl, rfl⟩
  rw [Descriptor.place] at hplace ⊢
  rw [Descriptor.place]
  dsimp only
  cases hseek : d.seekable with
  | false => rfl
  | true =>
    cases happend : d.append with
    | true => rfl
    | false =>
      rw [hseek, happend] at hplace
      rw [hplace rfl rfl]
      rfl

end Writes

end Descriptors
