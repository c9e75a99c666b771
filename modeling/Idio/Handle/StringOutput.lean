/-
  Handle/StringOutput.lean --- output to string handles.

  What is written to a string handle goes to an allocation that grows with it: by half
  when `putb` or `putc` finds it full, by the length of the string and some more when
  `puts` does.  `get-output-string` decodes what is before `IDIO_STRING_HANDLE_END`.
  A seek moves `IDIO_STRING_HANDLE_PTR` only, and the next write goes over what is there.

  The reference is a tape of bytes.
-/
import Idio.Lib.Tape
import Idio.Handle.Basic

set_option autoImplicit false

namespace Idio

/-- `idio_string_handle_stream_t`.  `ptr` and `end_` are `IDIO_STRING_HANDLE_PTR` and
`IDIO_STRING_HANDLE_END` less `IDIO_STRING_HANDLE_BUF`; `buf` has `IDIO_STRING_HANDLE_BLEN` bytes. -/
structure StringStream where
  buf : List UInt8
  ptr : Nat
  end_ : Nat
  eof : Bool
  deriving DecidableEq, Repr

/-- What is before `IDIO_STRING_HANDLE_END`. -/
def StringStream.contents (sh : StringStream) : List UInt8 := sh.buf.take sh.end_

/-- Where `idio_seek_string_handle` is to put `IDIO_STRING_HANDLE_PTR`. -/
def StringStream.place (sh : StringStream) (offset : Int) : SeekWhence → Int
  | .set => offset
  | .cur => sh.ptr + offset
  | .end_ => sh.end_ + offset

/-- `idio_seek_string_handle` -/
def seekStringHandle (sh : Handle StringStream) (offset : Int) (whence : SeekWhence) :
    Sought StringStream :=
  let ptr := sh.stream.place offset whence
  if 0 ≤ ptr ∧ ptr ≤ sh.stream.end_ then
    .ok (ptr, { sh with stream := { sh.stream with eof := false, ptr := ptr.toNat } })
  else .ok (-1, sh)

theorem seek_stringHandle (h : Handle StringStream) (offset : Int) (whence : SeekWhence) :
    h.seek (some seekStringHandle) offset whence =
      if 0 ≤ h.target h.stream.end_ offset whence ∧
          h.target h.stream.end_ offset whence ≤ h.stream.end_ then
        .ok (h.target h.stream.end_ offset whence,
          ⟨{ h.stream with eof := false, ptr := (h.target h.stream.end_ offset whence).toNat }, EOF,
            Handle.soughtLine offset whence, h.target h.stream.end_ offset whence⟩)
      else .ok (-1, ⟨h.stream, EOF, Handle.soughtLine offset whence, -1⟩) := by
  have hmethod (line : Nat) (offset : Int) (whence : SeekWhence) :
      ((seekStringHandle { h with line := line } offset whence).map
        fun (pos, h) => (pos, { h with pos := pos, lc := EOF }) : Sought StringStream) =
      if 0 ≤ h.stream.place offset whence ∧ h.stream.place offset whence ≤ h.stream.end_ then
        .ok (h.stream.place offset whence,
          ⟨{ h.stream with eof := false, ptr := (h.stream.place offset whence).toNat }, EOF, line,
            h.stream.place offset whence⟩)
      else .ok (-1, ⟨h.stream, EOF, line, -1⟩) := by
    rw [seekStringHandle]
    by_cases hin : 0 ≤ h.stream.place offset whence ∧ h.stream.place offset whence ≤ h.stream.end_
    · rw [if_pos hin, if_pos hin]
      rfl
    · rw [if_neg hin, if_neg hin]
      rfl
  rw [Handle.seek_some]
  cases whence with
  | set => exact hmethod (Handle.soughtLine offset .set) offset .set
  | cur => exact hmethod (Handle.soughtLine offset .cur) (offset + h.pos) .set
  | end_ => exact hmethod (Handle.soughtLine offset .end_) offset .end_

/-- The bytes of the code point, of the type `char` that the handle has them in. -/
def charBytes (c : Nat) : List UInt8 := (codePointBytes c).map UInt8.ofNat

/-- `idio_get_output_string` -/
def getOutputString (sh : Handle StringStream) : Result StringS := stringCLen sh.stream.contents

section Output

-- what is in memory that has not been written
variable (junk : Nat → UInt8)

/-- `idio_alloc` -/
def allocBytes (n : Nat) : List UInt8 := (List.range n).map junk

/-- `idio_realloc` -/
def reallocBytes (buf : List UInt8) (n : Nat) : List UInt8 :=
  buf.take n ++ (allocBytes junk n).drop buf.length

/-- `memcpy` to the bytes from `i` on -/
def memcpy (buf : List UInt8) (i : Nat) (s : List UInt8) : Result (List UInt8) :=
  if i + s.length ≤ buf.length then .ok (buf.take i ++ s ++ buf.drop (i + s.length))
  else .error .undefined

/-- `IDIO_STRING_HANDLE_DEFAULT_OUTPUT_SIZE` -/
def stringHandleDefaultOutputSize : Nat := 256

/-- `open-output-string` -/
def openOutputString : Handle StringStream :=
  .ofStream ⟨allocBytes junk stringHandleDefaultOutputSize, 0, 0, false⟩

/-- Room for a byte at `IDIO_STRING_HANDLE_PTR`. -/
def StringStream.byteRoom (sh : StringStream) : StringStream :=
  if sh.ptr ≥ sh.end_ then
    let sh :=
      if sh.end_ = sh.buf.length then
        -- 50% more, and the pointer is to what was the end of the allocation
        { sh with
          buf := reallocBytes junk sh.buf (sh.buf.length + sh.buf.length / 2)
          ptr := sh.buf.length }
      else sh
    { sh with end_ := sh.ptr + 1 }
  else sh

/-- `*(IDIO_STRING_HANDLE_PTR (sh)) = b`, and the pointer one further. -/
def StringStream.store (sh : StringStream) (b : UInt8) : Result StringStream :=
  if sh.ptr < sh.buf.length then .ok { sh with buf := sh.buf.set sh.ptr b, ptr := sh.ptr + 1 }
  else .error .undefined

/-- `idio_putb_string_handle` -/
def putbStringHandle (sh : StringStream) (c : UInt8) : Result (Nat × StringStream) := do
  let sh ← (sh.byteRoom junk).store c
  return (1, sh)

/-- The loop of `idio_putc_string_handle` over the bytes of the character. -/
def putcStringLoop (sh : StringStream) : List Nat → Result StringStream
  | [] => .ok sh
  | b :: bs => do putcStringLoop (← (sh.byteRoom junk).store (UInt8.ofNat b)) bs

/-- `idio_putc_string_handle` and `size` -/
def putcStringHandle (sh : StringStream) (c : Nat) : Result (Nat × StringStream) := do
  let buf ← utf8CodePoint c
  let sh ← putcStringLoop junk sh buf
  return (buf.length, if sh.ptr > sh.end_ then { sh with end_ := sh.ptr } else sh)

/-- `idio_puts_string_handle` -/
def putsStringHandle (sh : StringStream) (s : List UInt8) : Result (Nat × StringStream) := do
  let buf :=
    if sh.ptr + s.length ≥ sh.buf.length then
      reallocBytes junk sh.buf (sh.buf.length + s.length + stringHandleDefaultOutputSize)
    else sh.buf
  let buf ← memcpy buf sh.ptr s
  let sh := { sh with buf := buf, ptr := sh.ptr + s.length }
  return (s.length, if sh.ptr > sh.end_ then { sh with end_ := sh.ptr } else sh)

/-! ## Runs -/

inductive OutputStringOp where
  | putb (c : UInt8)
  | putc (c : Nat)
  | puts (s : List UInt8)
  | seek (offset : Int) (whence : SeekWhence)
  deriving DecidableEq, Repr

/-- What the operation returns, and the handle. -/
def OutputStringOp.run (h : Handle StringStream) :
    OutputStringOp → Result (Int × Handle StringStream)
  | .putb c => h.putb (putbStringHandle junk) c
  | .putc c => h.putc (putcStringHandle junk) c
  | .puts s => h.puts (putsStringHandle junk) s
  | .seek offset whence => (h.seek (some seekStringHandle) offset whence).mapError Prod.fst

/-- The handle after operations none of which is a seek that returns `-1` or touches memory
outside of the allocation.  A `putc` that raises has not changed the handle. -/
def outputStringRun (h : Handle StringStream) : List OutputStringOp → Option (Handle StringStream)
  | [] => some h
  | op :: ops =>
      match op.run junk h with
      | .ok (n, h) => if n = -1 then none else outputStringRun h ops
      | .error (.paramValue _ _ _) => outputStringRun h ops
      | .error _ => none

end Output

/-- The operation on a tape. -/
def OutputStringOp.meaning (t : Tape UInt8) : OutputStringOp → Option (Tape UInt8)
  | .putb c => some (t.write [c])
  | .putc c => some (if validCodePoint c then t.write (charBytes c) else t)
  | .puts s => some (t.write s)
  | .seek offset .set => t.seek offset
  | .seek offset .cur => t.seek (t.cursor + offset)
  | .seek offset .end_ => t.seek (t.content.length + offset)

def tapeRun (t : Tape UInt8) : List OutputStringOp → Option (Tape UInt8)
  | [] => some t
  | op :: ops => (op.meaning t).bind fun t => tapeRun t ops

/-! ## Refinement -/

/-- The stream is the tape, in an allocation that half as much again makes larger. -/
structure Stored (sh : StringStream) (t : Tape UInt8) : Prop where
  contents : sh.contents = t.content
  ptr : sh.ptr = t.cursor
  room : sh.end_ ≤ sh.buf.length
  grows : 2 ≤ sh.buf.length

/-- The handle is the tape, and its position is the cursor. -/
structure Holds (h : Handle StringStream) (t : Tape UInt8) : Prop extends Stored h.stream t where
  pos : h.pos = t.cursor

section Refinement

variable (junk : Nat → UInt8) {sh : StringStream} {h : Handle StringStream} {t : Tape UInt8}
  {b : UInt8} {s : List UInt8}

theorem Stored.length (hs : Stored sh t) : sh.end_ = t.content.length := by
  rw [← hs.contents, StringStream.contents, List.length_take, Nat.min_eq_left hs.room]

theorem Stored.ptr_le (hs : Stored sh t) : sh.ptr ≤ sh.end_ := by
  rw [hs.ptr, hs.length]
  exact t.within

theorem length_reallocBytes {buf : List UInt8} {n : Nat} (hn : buf.length ≤ n) :
    (reallocBytes junk buf n).length = n := by
  rw [reallocBytes, List.length_append, List.length_take, List.length_drop, allocBytes,
    List.length_map, List.length_range]
  omega

theorem take_reallocBytes {buf : List UInt8} {n k : Nat} (hn : buf.length ≤ n) (hk : k ≤ buf.length) :
    (reallocBytes junk buf n).take k = buf.take k := by
  rw [reallocBytes, List.take_of_length_le hn, List.take_append_of_le_length hk]

/-- A larger allocation with the same contents. -/
theorem Stored.realloc (hs : Stored sh t) {n : Nat} (hn : sh.buf.length ≤ n) :
    Stored { sh with buf := reallocBytes junk sh.buf n } t := by
  have hlen := length_reallocBytes junk hn
  refine ⟨?_, hs.ptr, ?_, ?_⟩
  · rw [← hs.contents]
    exact take_reallocBytes junk hn hs.room
  · exact (Nat.le_trans hs.room hn).trans_eq hlen.symm
  · exact (Nat.le_trans hs.grows hn).trans_eq hlen.symm

/-- What is put at the cursor, with the end behind it if it was before. -/
theorem Stored.put (hs : Stored sh t) (hroom : sh.ptr + s.length ≤ sh.buf.length) :
    Stored { sh with
      buf := Tape.overwrite sh.buf sh.ptr s
      ptr := sh.ptr + s.length
      end_ := max sh.end_ (sh.ptr + s.length) } (t.write s) := by
  have hptr := Nat.le_trans hs.ptr_le hs.room
  have hlen : (Tape.overwrite sh.buf sh.ptr s).length = sh.buf.length := by
    rw [Tape.length_overwrite hptr]
    exact Nat.max_eq_left hroom
  refine ⟨?_, congrArg (· + s.length) hs.ptr, ?_, hlen ▸ hs.grows⟩
  · show (Tape.overwrite sh.buf sh.ptr s).take _ = Tape.overwrite t.content t.cursor s
    rw [Tape.take_overwrite hs.ptr_le hs.room, ← hs.ptr, ← hs.contents]
    rfl
  · exact hlen ▸ Nat.max_le.mpr ⟨hs.room, hroom⟩

theorem set_eq_overwrite {buf : List UInt8} {i : Nat} (hi : i < buf.length) :
    buf.set i b = Tape.overwrite buf i [b] := by
  rw [List.set_eq_take_append_cons_drop, if_pos hi, Tape.overwrite, List.append_assoc]
  rfl

/-- `putb` and the body of the loop of `putc`. -/
theorem Stored.byte (hs : Stored sh t) (b : UInt8) :
    ∃ sh', (sh.byteRoom junk).store b = .ok sh' ∧ Stored sh' (t.write [b]) := by
  by_cases hover : sh.ptr ≥ sh.end_
  swap
  · -- over a byte that is there
    have hlt : sh.ptr < sh.buf.length := Nat.lt_of_lt_of_le (Nat.lt_of_not_le hover) hs.room
    have hput := hs.put (s := [b]) hlt
    rw [List.length_singleton, Nat.max_eq_left (Nat.lt_of_not_le hover), ← set_eq_overwrite hlt] at hput
    refine ⟨_, ?_, hput⟩
    rw [StringStream.byteRoom, if_neg hover, StringStream.store, if_pos hlt]
  have hend : sh.ptr = sh.end_ := Nat.le_antisymm hs.ptr_le hover
  have hmax : max sh.end_ (sh.ptr + 1) = sh.ptr + 1 := by omega
  rw [StringStream.byteRoom, if_pos hover]
  by_cases hfull : sh.end_ = sh.buf.length
  · have hmore : sh.buf.length < sh.buf.length + sh.buf.length / 2 := by
      have hgrows := hs.grows
      omega
    have hlt : sh.ptr < (reallocBytes junk sh.buf (sh.buf.length + sh.buf.length / 2)).length := by
      rw [length_reallocBytes junk (Nat.le_of_lt hmore), hend, hfull]
      exact hmore
    have hput := (hs.realloc junk (Nat.le_of_lt hmore)).put (s := [b]) hlt
    dsimp only at hput
    rw [List.length_singleton, hmax, ← set_eq_overwrite hlt] at hput
    refine ⟨_, ?_, hput⟩
    rw [if_pos hfull, StringStream.store, ← hfull, ← hend] at *
    exact if_pos hlt
  · have hlt : sh.ptr < sh.buf.length := by
      have hroom := hs.room
      omega
    have hput := hs.put (s := [b]) hlt
    rw [List.length_singleton, hmax, ← set_eq_overwrite hlt] at hput
    refine ⟨_, ?_, hput⟩
    rw [if_neg hfull]
    exact if_pos hlt

theorem putcStringLoop_spec (hs : Stored sh t) (bs : List Nat) :
    ∃ sh', putcStringLoop junk sh bs = .ok sh' ∧ Stored sh' (t.write (bs.map UInt8.ofNat)) := by
  induction bs generalizing sh t with
  | nil => exact ⟨sh, rfl, (Tape.write_nil t).symm ▸ hs⟩
  | cons b bs ih =>
    obtain ⟨sh₁, hstore, hs₁⟩ := hs.byte junk (UInt8.ofNat b)
    obtain ⟨sh', hloop, hs'⟩ := ih hs₁
    rw [Tape.write_write, List.singleton_append] at hs'
    refine ⟨sh', ?_, hs'⟩
    rw [putcStringLoop, hstore]
    exact hloop

/-- The last test of `putc` finds the pointer where it is to be. -/
theorem Stored.clamp (hs : Stored sh t) :
    (if sh.ptr > sh.end_ then { sh with end_ := sh.ptr } else sh) = sh :=
  if_neg (Nat.not_lt.mpr hs.ptr_le)

theorem putsStringHandle_spec (hs : Stored sh t) (s : List UInt8) :
    ∃ sh', putsStringHandle junk sh s = .ok (s.length, sh') ∧ Stored sh' (t.write s) := by
  rw [putsStringHandle]
  generalize hbuf : (if sh.ptr + s.length ≥ sh.buf.length then
    reallocBytes junk sh.buf (sh.buf.length + s.length + stringHandleDefaultOutputSize)
    else sh.buf) = buf
  have hlarger : Stored { sh with buf := buf } t ∧ sh.ptr + s.length ≤ buf.length := by
    have hptr := Nat.le_trans hs.ptr_le hs.room
    split at hbuf
    · have hmore : sh.buf.length ≤ sh.buf.length + s.length + stringHandleDefaultOutputSize := by
        omega
      rw [← hbuf, length_reallocBytes junk hmore]
      exact ⟨hs.realloc junk hmore, by omega⟩
    · rw [← hbuf]
      exact ⟨hs, by omega⟩
  have hcopy : memcpy buf sh.ptr s = .ok (Tape.overwrite buf sh.ptr s) := if_pos hlarger.2
  have hput := hlarger.1.put hlarger.2
  rw [hcopy, ok_bind]
  refine ⟨_, rfl, ?_⟩
  dsimp only at hput ⊢
  split
  · rename_i hover
    rwa [Nat.max_eq_right (Nat.le_of_lt hover)] at hput
  · rename_i hover
    rwa [Nat.max_eq_left (Nat.le_of_not_lt hover)] at hput

theorem Holds.bumpLine (hh : Holds h t) (c : Int) : Holds (h.bumpLine c) t := by
  rw [Handle.bumpLine]
  split
  · exact ⟨⟨hh.contents, hh.ptr, hh.room, hh.grows⟩, hh.pos⟩
  · exact hh

/-- The position goes on with the cursor. -/
theorem Holds.advance (hh : Holds h t) (hs : Stored sh (t.write s)) :
    Holds { h with stream := sh, pos := h.pos + s.length } (t.write s) := by
  refine ⟨hs, ?_⟩
  show h.pos + s.length = ((t.cursor + s.length : Nat) : Int)
  rw [hh.pos, Int.natCast_add]

/-- What an operation on a handle makes of it, beside what it makes of the tape. -/
inductive Answers (t : Tape UInt8) :
    Result (Int × Handle StringStream) → Option (Tape UInt8) → Prop where
  | done {n : Int} {h' : Handle StringStream} {t' : Tape UInt8} (hn : n ≠ -1) (hh : Holds h' t') :
      Answers t (.ok (n, h')) (some t')
  | raised (func param msg : String) : Answers t (.error (.paramValue func param msg)) (some t)
  | refused (h' : Handle StringStream) : Answers t (.ok (-1, h')) none

theorem seek_answers (hh : Holds h t) (offset : Int) (whence : SeekWhence) :
    Answers t ((h.seek (some seekStringHandle) offset whence).mapError Prod.fst)
      (OutputStringOp.meaning t (.seek offset whence)) := by
  have hmeaning : OutputStringOp.meaning t (.seek offset whence) =
      t.seek (h.target h.stream.end_ offset whence) := by
    cases whence with
    | set => rfl
    | cur =>
      show t.seek (t.cursor + offset) = t.seek (offset + h.pos)
      rw [hh.pos, Int.add_comm]
    | end_ =>
      show t.seek (t.content.length + offset) = t.seek (h.stream.end_ + offset)
      rw [hh.length]
  rw [hmeaning, seek_stringHandle, Tape.seek]
  generalize h.target h.stream.end_ offset whence = target
  have hplaces : (0 ≤ target ∧ target ≤ h.stream.end_) ↔ 0 ≤ target ∧ target ≤ t.content.length := by
    rw [hh.length]
  by_cases hin : 0 ≤ target ∧ target ≤ h.stream.end_
  · rw [if_pos hin, dif_pos (hplaces.mp hin)]
    have hcast : (target.toNat : Int) = target := Int.toNat_of_nonneg hin.1
    exact .done (by omega) ⟨⟨hh.contents, rfl, hh.room, hh.grows⟩, hcast.symm⟩
  · rw [if_neg hin, dif_neg (hin ∘ hplaces.mpr)]
    exact .refused _

/-- One operation. -/
theorem run_answers (hh : Holds h t) (op : OutputStringOp) :
    Answers t (op.run junk h) (op.meaning t) := by
  cases op with
  | putb c =>
    obtain ⟨sh', hstore, hs'⟩ := hh.byte junk c
    show Answers t (h.putb (putbStringHandle junk) c) _
    rw [Handle.putb, putbStringHandle, hstore]
    exact .done nofun ((hh.advance hs').bumpLine c.toNat)
  | putc c =>
    show Answers t (h.putc (putcStringHandle junk) c) (some (if validCodePoint c then _ else _))
    rw [Handle.putc, putcStringHandle, utf8CodePoint]
    split
    · obtain ⟨sh', hloop, hs'⟩ := putcStringLoop_spec junk hh.toStored (codePointBytes c)
      have hadvance := hh.advance hs'
      rw [List.length_map] at hadvance
      rw [ok_bind, hloop, ok_bind, hs'.clamp]
      exact .done (by omega) (hadvance.bumpLine c)
    · exact .raised _ _ _
  | puts s =>
    obtain ⟨sh', hrun, hs'⟩ := putsStringHandle_spec junk hh.toStored s
    show Answers t (h.puts (putsStringHandle junk) s) _
    rw [Handle.puts, hrun]
    exact .done (by omega) (hh.advance hs')
  | seek offset whence => exact seek_answers hh offset whence

/-- A whole run: it is refused where that of the tape is. -/
theorem outputStringRun_refines (hh : Holds h t) (ops : List OutputStringOp) :
    (∀ t', tapeRun t ops = some t' → ∃ h', outputStringRun junk h ops = some h' ∧ Holds h' t') ∧
      (tapeRun t ops = none → outputStringRun junk h ops = none) := by
  induction ops generalizing h t with
  | nil =>
    refine ⟨fun t' ht => ?_, nofun⟩
    cases ht
    exact ⟨h, rfl, hh⟩
  | cons op ops ih =>
    have hanswers := run_answers junk hh op
    rw [tapeRun, outputStringRun]
    generalize op.run junk h = result, op.meaning t = next at hanswers
    cases hanswers with
    | done hn hh' =>
      dsimp only
      rw [Option.bind_some, if_neg hn]
      exact ih hh'
    | raised => exact ih hh
    | refused => exact ⟨nofun, fun _ => rfl⟩

theorem holds_open : Holds (openOutputString junk) .empty := by
  have hlen : (openOutputString junk).stream.buf.length = 256 := by
    show (allocBytes junk stringHandleDefaultOutputSize).length = 256
    rw [allocBytes, List.length_map, List.length_range, stringHandleDefaultOutputSize]
  exact ⟨⟨rfl, rfl, Nat.zero_le _, hlen ▸ by decide⟩, rfl⟩

/-- The characters one by one are the string. -/
theorem tapeRun_putc (t : Tape UInt8) (cs : List CodePoint) :
    tapeRun t (cs.map fun c : CodePoint => .putc c) =
      some (t.write (cs.flatMap fun c : CodePoint => charBytes c)) := by
  induction cs generalizing t with
  | nil => exact congrArg some t.write_nil.symm
  | cons c cs ih =>
    have hvalid : validCodePoint c = true := decide_eq_true (Nat.le_of_lt_succ c.isLt)
    rw [List.map_cons, tapeRun, OutputStringOp.meaning, if_pos hvalid, Option.bind_some, ih,
      Tape.write_write, List.flatMap_cons]

/-- `get-output-string` decodes what is on the tape after a sequence of operations, of which
`putb`, `putc` and `puts` succeed and a seek does where the tape has the place.  The cursor
is not behind the end, nor the end behind the allocation.  A text that is then written is
the same by `puts` and by `putc`. -/
theorem string_output (ops : List OutputStringOp) :
    (outputStringRun junk (openOutputString junk) ops).isSome = (tapeRun .empty ops).isSome ∧
    ∀ sh ∈ outputStringRun junk (openOutputString junk) ops, ∃ t, tapeRun .empty ops = some t ∧
      sh.stream.contents = t.content ∧ sh.stream.ptr = t.cursor ∧
      getOutputString sh = stringCLen t.content ∧
      sh.stream.ptr ≤ sh.stream.end_ ∧ sh.stream.end_ ≤ sh.stream.buf.length ∧
      ∀ cs : List CodePoint, ∃ sh₁ sh₂,
        outputStringRun junk sh [.puts (cs.flatMap fun c : CodePoint => charBytes c)] = some sh₁ ∧
        outputStringRun junk sh (cs.map fun c : CodePoint => .putc c) = some sh₂ ∧
        sh₁.stream.contents = sh₂.stream.contents ∧ sh₁.stream.ptr = sh₂.stream.ptr ∧
        sh₁.stream.end_ = sh₂.stream.end_ ∧ sh₁.pos = sh₂.pos := by
  have hrefines := outputStringRun_refines junk (holds_open junk) ops
  cases htape : tapeRun .empty ops with
  | none =>
    rw [hrefines.2 htape]
    exact ⟨rfl, nofun⟩
  | some t =>
    obtain ⟨sh, hrun, hh⟩ := hrefines.1 t htape
    rw [hrun]
    refine ⟨rfl, fun sh' hsh' => ?_⟩
    cases hsh'
    refine ⟨t, rfl, hh.contents, hh.ptr, congrArg stringCLen hh.contents, hh.ptr_le, hh.room,
      fun cs => ?_⟩
    obtain ⟨sh₁, hrun₁, hh₁⟩ := (outputStringRun_refines junk hh _).1 _ (rfl : tapeRun t [.puts _] = _)
    obtain ⟨sh₂, hrun₂, hh₂⟩ := (outputStringRun_refines junk hh _).1 _ (tapeRun_putc t cs)
    exact ⟨sh₁, sh₂, hrun₁, hrun₂, hh₁.contents.trans hh₂.contents.symm, hh₁.ptr.trans hh₂.ptr.symm,
      hh₁.length.trans hh₂.length.symm, hh₁.pos.trans hh₂.pos.symm⟩

end Refinement

end Idio
