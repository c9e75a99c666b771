/-
  Handle/Output.lean --- output to file handles.

  What is written to a file handle goes to a buffer, and from there to the descriptor
  when the buffer is flushed.  `write-char` puts the bytes of a character into the
  buffer in a loop that leaves at the first byte that has found room, and a flush for
  want of room takes the turn of a byte.  `puts` writes past the buffer.  A seek that
  the buffer cannot answer forgets it.

  The handle is one for output, and write(2) takes all it is given.
-/
import Idio.Lib.Descriptor
import Idio.String.Encode

set_option autoImplicit false

namespace Idio

open Descriptors

/-- A handle and its stream.  `ptr` and `end_` are `IDIO_FILE_HANDLE_PTR` and
`IDIO_FILE_HANDLE_END` less `IDIO_FILE_HANDLE_BUF`; `buf` has `IDIO_FILE_HANDLE_BUFSIZ` bytes. -/
structure FileHandle where
  fd : Descriptor
  buf : List Nat
  ptr : Nat
  end_ : Nat
  interactive : Bool
  /-- `IDIO_HANDLE_M_SEEK` is not `NULL` -/
  seeks : Bool
  closed : Bool
  lc : Option Nat
  line : Nat
  pos : Int
  deriving DecidableEq, Repr

/-- What a function makes of a handle; one that raises has changed it, too. -/
abbrev Handled (α : Type) : Type := Except (Fault × FileHandle) α

/-- `idio_flush_file_handle` -/
def flushFileHandle (fh : FileHandle) : Handled FileHandle :=
  if fh.closed then .error (.handleClosed, fh)
  else if fh.end_ = 0 then .ok fh
  else do
    let fd ← (if fh.seeks then
        match fh.fd.lseek (fh.pos - fh.ptr) with
        | .ok fd => .ok fd
        | .error .espipe => .ok fh.fd
        | .error .einval => .error (.systemErrno "lseek", fh)
      else .ok fh.fd)
    return { fh with fd := fd.write (fh.buf.take fh.end_), ptr := 0, end_ := 0 }

/-- A byte at `IDIO_FILE_HANDLE_PTR`, and both pointers one further. -/
def FileHandle.putByte (fh : FileHandle) (b : Nat) : FileHandle :=
  { fh with buf := fh.buf.set fh.ptr b, ptr := fh.ptr + 1, end_ := fh.end_ + 1 }

/-- The loop of `idio_putc_file_handle` over the bytes of the character. -/
def putcLoop (fh : FileHandle) : List Nat → Handled FileHandle
  | [] => .ok fh
  | b :: bs =>
      if fh.ptr < fh.end_ then .ok { fh with buf := fh.buf.set fh.ptr b, ptr := fh.ptr + 1 }
      else if fh.end_ < fh.buf.length then .ok (fh.putByte b)
      else do putcLoop (← flushFileHandle fh) bs

/-- `idio_putc_file_handle` and `size` -/
def putcFileHandle (fh : FileHandle) (c : CodePoint) : Handled (FileHandle × Nat) := do
  let buf := codePointBytes c
  let fh ← putcLoop fh buf
  let fh ← (if c = 0x0a ∧ fh.interactive then flushFileHandle fh else .ok fh)
  return (fh, buf.length)

/-- `idio_putc_handle` -/
def putcHandle (h : FileHandle) (c : CodePoint) : Handled FileHandle := do
  let (h, n) ← putcFileHandle h c
  let h := { h with pos := h.pos + n }
  if c = 0x0a ∧ h.line ≠ 0 then flushFileHandle { h with line := h.line + 1 } else .ok h

/-- `idio_puts_file_handle` and `r` -/
def putsFileHandle (fh : FileHandle) (s : List Nat) : Handled (FileHandle × Nat) := do
  let fh ← (if s.length > fh.buf.length ∨ (s.length : Int) > (fh.end_ : Int) - fh.ptr then do
      let fh ← flushFileHandle fh
      return { fh with fd := fh.fd.write s, ptr := 0, end_ := 0 }
    else
      match putUnits .octet fh.buf fh.ptr s with
      | .ok buf => .ok { fh with buf := buf, ptr := fh.ptr + s.length }
      | .error e => .error (e, fh))
  let fh ← flushFileHandle fh
  return ({ fh with line := fh.line + s.count 0x0a }, s.length)

/-- `idio_puts_handle` -/
def putsHandle (h : FileHandle) (s : List Nat) : Handled FileHandle := do
  let (h, n) ← putsFileHandle h s
  return { h with pos := h.pos + n }

/-- `idio_seek_file_handle` with `SEEK_SET`, and `lseek_r` -/
def seekFileHandle (fh : FileHandle) (offset : Int) : Handled (FileHandle × Int) :=
  let fh := if fh.lc ≠ none then { fh with ptr := fh.ptr - 1 } else fh
  let seekPos := offset - fh.pos
  let reqSeek : Bool :=
    if seekPos < 0 then decide ((fh.ptr : Int) + seekPos < 0)
    else decide (seekPos ≥ (fh.end_ : Int) - fh.ptr)
  if reqSeek then
    let fh := { fh with ptr := 0, end_ := 0 }
    match fh.fd.lseek offset with
    | .ok fd => .ok ({ fh with fd := fd }, offset)
    | .error _ => .error (.systemErrno "lseek", fh)
  else .ok ({ fh with ptr := (fh.ptr + seekPos).toNat }, offset)

inductive Whence where
  | set
  | cur
  deriving DecidableEq, Repr

/-- `idio_seek_handle` -/
def seekHandle (h : FileHandle) (offset : Int) (whence : Whence) : Handled FileHandle :=
  let h := { h with line := if offset = 0 ∧ whence = .set then 1 else 0 }
  let offset := if whence = .cur then offset + h.pos else offset
  if !h.seeks then .error (.paramValue "seek-handle" "method" "seek not available", h)
  else do
    let (h, pos) ← seekFileHandle h offset
    return { h with pos := pos, lc := none }

/-! ## Runs -/

/-- `idio_unicode_character_code_point` -/
def characterCodePoint (cp : Nat) : Bool :=
  validCodePoint cp && !(decide (cp ≥ 0xFDD0 ∧ cp ≤ 0xFDEF) || decide (cp ≥ 0xD800 ∧ cp ≤ 0xDFFF) ||
    decide (cp &&& 0xFFFF = 0xFFFE) || decide (cp &&& 0xFFFF = 0xFFFF))

inductive OutputOp where
  | writeChar (c : CodePoint)
  /-- `puts` of a string of some code points -/
  | puts (s : List CodePoint)
  | flush
  /-- a seek to the position where the handle is -/
  | seek (whence : Whence)
  deriving DecidableEq, Repr

def OutputOp.run (h : FileHandle) : OutputOp → Handled FileHandle
  | .writeChar c =>
      if characterCodePoint c then putcHandle h c
      else .error (.paramValue "write-char" "Unicode code point" ("U+" ++ hex04 c ++ " is not a character"), h)
  | .puts s => putsHandle h (s.flatMap fun c => codePointBytes c)
  | .flush => flushFileHandle h
  | .seek .set => seekHandle h h.pos .set
  | .seek .cur => seekHandle h 0 .cur

/-- The handle after an operation. -/
def OutputOp.next (h : FileHandle) (op : OutputOp) : FileHandle :=
  match op.run h with
  | .ok h' => h'
  | .error (_, h') => h'

def outputRun (h : FileHandle) (ops : List OutputOp) : FileHandle := ops.foldl OutputOp.next h

/-- The UTF-8 encoding of what an operation writes. -/
def OutputOp.text : OutputOp → List Nat
  | .writeChar c => if characterCodePoint c then codePointBytes c else []
  | .puts s => s.flatMap fun c => codePointBytes c
  | .flush | .seek _ => []

/-! ## What a handle delivers -/

/-- What is in the buffer. -/
def FileHandle.pending (h : FileHandle) : List Nat := h.buf.take h.end_

/-- An open handle for output: all of the buffer up to `ptr` is to be written, and its
position counts that. -/
structure FileHandle.Sound (h : FileHandle) : Prop where
  isOpen : h.closed = false
  atEnd : h.ptr = h.end_
  room : h.end_ ≤ h.buf.length
  noLookahead : h.lc = none
  /-- one does not seek on a terminal -/
  terminal : h.interactive = true → h.seeks = false
  counted : (h.end_ : Int) ≤ h.pos

/-- The next write goes where the position of the handle says, less what is in the buffer. -/
def FileHandle.Placed (h : FileHandle) : Prop :=
  h.seeks = true → h.fd.seekable = true → h.fd.append = false → (h.fd.place : Int) + h.end_ = h.pos

/-- From one handle to another, a text is written or is to be written behind all else. -/
structure Delivers (h h' : FileHandle) (text : List Nat) : Prop where
  sound : h'.Sound
  written : h'.fd.written ++ h'.pending = h.fd.written ++ h.pending ++ text
  pos : h'.pos = h.pos + text.length
  placed : h.Placed → h'.Placed ∧ Alike (h'.fd.write h'.pending) (h.fd.write (h.pending ++ text))

section Delivery

variable {h h' h'' : FileHandle} {text text' : List Nat}

theorem Delivers.refl (hs : h.Sound) : Delivers h h [] := by
  refine ⟨hs, (List.append_nil _).symm, (Int.add_zero _).symm, fun hp => ⟨hp, ?_⟩⟩
  rw [List.append_nil]
  exact .refl _

theorem Delivers.trans (hd : Delivers h h' text) (hd' : Delivers h' h'' text') :
    Delivers h h'' (text ++ text') := by
  refine ⟨hd'.sound, ?_, ?_, fun hp => ?_⟩
  · rw [hd'.written, hd.written, List.append_assoc]
  · rw [hd'.pos, hd.pos, List.length_append, Int.natCast_add, Int.add_assoc]
  · obtain ⟨hp', halike⟩ := hd.placed hp
    obtain ⟨hp'', halike'⟩ := hd'.placed hp'
    refine ⟨hp'', halike'.trans ?_⟩
    rw [← write_write, ← List.append_assoc, ← write_write _ (h.pending ++ text)]
    exact halike.write text'

theorem length_pending (hs : h.Sound) : h.pending.length = h.end_ := by
  rw [FileHandle.pending, List.length_take, Nat.min_eq_left hs.room]

/-- The descriptor that a flush writes to. -/
theorem delivers_flushed (hs : h.Sound) {fd : Descriptor}
    (hfd : fd = h.fd ∨ h.seeks = true ∧ h.fd.lseek (h.pos - h.ptr) = .ok fd) :
    Delivers h { h with fd := fd.write h.pending, ptr := 0, end_ := 0 } [] := by
  have hcounted := hs.counted
  have hwritten : fd.written = h.fd.written := by
    rcases hfd with rfl | ⟨-, hseek⟩
    · rfl
    · rw [lseek_eq hseek]
  have halike : h.Placed → Alike fd h.fd := by
    intro hp
    rcases hfd with rfl | ⟨hseeks, hseek⟩
    · exact .refl _
    · refine lseek_alike hseek fun hseekable happend => ?_
      have := hp hseeks hseekable happend
      rw [hs.atEnd]
      omega
  refine ⟨⟨hs.isOpen, rfl, Nat.zero_le _, hs.noLookahead, hs.terminal, ?_⟩, ?_, (Int.add_zero _).symm,
    fun hp => ⟨?_, ?_⟩⟩
  · show (0 : Int) ≤ h.pos
    omega
  · show (fd.write h.pending).written ++ [] = _
    rw [written_write, hwritten]
  · intro hseeks hseekable happend
    dsimp only at hseeks hseekable happend ⊢
    rw [write_seekable, (halike hp).seekable] at hseekable
    rw [write_append, (halike hp).append] at happend
    have := hp hseeks hseekable happend
    rw [place_write, (halike hp).place, length_pending hs]
    omega
  · show Alike ((fd.write h.pending).write []) _
    rw [write_nil, List.append_nil]
    exact (halike hp).write _

/-- A flush writes what is in the buffer. -/
theorem flush_spec (hs : h.Sound) : ∃ h', flushFileHandle h = .ok h' ∧ Delivers h h' [] ∧
    h'.end_ = 0 ∧ h'.buf = h.buf ∧ h'.line = h.line := by
  rw [flushFileHandle, if_neg (ne_true_of_eq_false hs.isOpen)]
  by_cases hempty : h.end_ = 0
  · rw [if_pos hempty]
    exact ⟨h, rfl, .refl hs, hempty, rfl, rfl⟩
  rw [if_neg hempty]
  by_cases hseeks : h.seeks = true
  swap
  · rw [if_neg hseeks]
    exact ⟨_, rfl, delivers_flushed hs (.inl rfl), rfl, rfl, rfl⟩
  · rw [if_pos hseeks]
    cases hseek : h.fd.lseek (h.pos - h.ptr) with
    | ok fd => exact ⟨_, rfl, delivers_flushed hs (.inr ⟨hseeks, hseek⟩), rfl, rfl, rfl⟩
    | error e =>
      cases e with
      | espipe => exact ⟨_, rfl, delivers_flushed hs (.inl rfl), rfl, rfl, rfl⟩
      | einval =>
        -- the position counts what is in the buffer
        have hcounted := hs.counted
        rw [Descriptor.lseek, hs.atEnd] at hseek
        split at hseek
        · cases hseek
        · rw [if_neg (by omega)] at hseek
          cases hseek

/-- A line number says nothing about the bytes. -/
theorem Delivers.line (hd : Delivers h h' text) (line : Nat) :
    Delivers h { h' with line := line } text :=
  ⟨⟨hd.sound.isOpen, hd.sound.atEnd, hd.sound.room, hd.sound.noLookahead, hd.sound.terminal,
    hd.sound.counted⟩, hd.written, hd.pos, hd.placed⟩

/-- A byte that finds room in the buffer. -/
theorem delivers_byte (hs : h.Sound) (hroom : h.end_ < h.buf.length) (b : Nat) :
    Delivers h { h.putByte b with pos := h.pos + 1 } [b] := by
  have hcounted := hs.counted
  have hpending : (h.buf.set h.ptr b).take (h.end_ + 1) = h.pending ++ [b] := by
    rw [hs.atEnd, List.take_add_one, List.take_set_of_le (Nat.le_refl _), List.getElem?_set_self hroom]
    rfl
  refine ⟨⟨hs.isOpen, ?_, ?_, hs.noLookahead, hs.terminal, ?_⟩, ?_, rfl, fun hp => ⟨?_, ?_⟩⟩
  · exact congrArg (· + 1) hs.atEnd
  · show h.end_ + 1 ≤ (h.buf.set h.ptr b).length
    rw [List.length_set]
    exact hroom
  · show ((h.end_ + 1 : Nat) : Int) ≤ h.pos + 1
    omega
  · show h.fd.written ++ (h.buf.set h.ptr b).take (h.end_ + 1) = _
    rw [hpending, List.append_assoc]
  · intro hseeks hseekable happend
    have := hp hseeks hseekable happend
    show (h.fd.place : Int) + (h.end_ + 1 : Nat) = h.pos + 1
    omega
  · show Alike (h.fd.write ((h.buf.set h.ptr b).take (h.end_ + 1))) _
    rw [hpending]
    exact .refl _

/-- On a terminal, a flush does not look at the position. -/
theorem flush_terminal (hopen : h.closed = false) (hseeks : h.seeks = false) (hne : h.end_ ≠ 0) :
    flushFileHandle h = .ok { h with fd := h.fd.write h.pending, ptr := 0, end_ := 0 } := by
  rw [flushFileHandle, if_neg (ne_true_of_eq_false hopen), if_neg hne,
    if_neg (ne_true_of_eq_false hseeks)]
  rfl

theorem putcFileHandle_spec (hs : h.Sound) {c : CodePoint} (hc : (c : Nat) < 0x80)
    (hroom : h.end_ < h.buf.length) : ∃ h', putcFileHandle h c = .ok (h', 1) ∧
      Delivers h { h' with pos := h'.pos + 1 } (codePointBytes c) := by
  have hbytes : codePointBytes c = [(c : Nat)] := by
    rw [codePointBytes_eq, if_neg (by omega), if_neg (by omega), if_neg (by omega),
      Nat.mod_eq_of_lt (by omega)]
  have hloop : putcLoop h [(c : Nat)] = .ok (h.putByte c) := by
    rw [putcLoop, hs.atEnd, if_neg (Nat.lt_irrefl _), if_pos hroom]
  have hbyte := delivers_byte hs hroom c
  rw [putcFileHandle, hbytes, hloop]
  by_cases hflush : c = 0x0a ∧ h.interactive = true
  · -- the position is the same before and after the flush of a terminal
    have hseeks := hs.terminal hflush.2
    obtain ⟨h', hrun, hd, -⟩ := flush_spec hbyte.sound
    have hne : (h.putByte c).end_ ≠ 0 := Nat.succ_ne_zero _
    rw [flush_terminal (h := { h.putByte c with pos := h.pos + 1 }) hs.isOpen hseeks hne] at hrun
    cases hrun
    refine ⟨{ h.putByte c with
      fd := h.fd.write (h.putByte c).pending, ptr := 0, end_ := 0 }, ?_, ?_⟩
    · show (if c = 0x0a ∧ h.interactive = true then flushFileHandle _ else .ok _) >>= _ = _
      rw [if_pos hflush, flush_terminal (h := h.putByte c) hs.isOpen hseeks hne]
      rfl
    · have hboth := hbyte.trans hd
      rwa [List.append_nil] at hboth
  · refine ⟨h.putByte c, ?_, hbyte⟩
    show (if c = 0x0a ∧ h.interactive = true then flushFileHandle _ else .ok _) >>= _ = _
    rw [if_neg hflush]
    rfl

theorem putcHandle_spec (hs : h.Sound) {c : CodePoint} (hc : (c : Nat) < 0x80)
    (hroom : h.end_ < h.buf.length) : ∃ h', putcHandle h c = .ok h' ∧
      Delivers h h' (codePointBytes c) := by
  obtain ⟨h₁, hrun, hd⟩ := putcFileHandle_spec hs hc hroom
  rw [putcHandle, hrun]
  by_cases hline : c = 0x0a ∧ h₁.line ≠ 0
  · obtain ⟨h₂, hflush, hd₂, -⟩ := flush_spec (hd.line (h₁.line + 1)).sound
    have hboth := (hd.line (h₁.line + 1)).trans hd₂
    rw [List.append_nil] at hboth
    refine ⟨h₂, ?_, hboth⟩
    show (if c = 0x0a ∧ h₁.line ≠ 0 then flushFileHandle _ else .ok _) = _
    rw [if_pos hline]
    exact hflush
  · refine ⟨_, ?_, hd⟩
    show (if c = 0x0a ∧ h₁.line ≠ 0 then flushFileHandle _ else .ok _) = _
    rw [if_neg hline]
    rfl

/-- A string that is written past an empty buffer. -/
theorem delivers_past (hs : h.Sound) (hempty : h.end_ = 0) (s : List Nat) :
    Delivers h { h with fd := h.fd.write s, ptr := 0, end_ := 0, pos := h.pos + s.length } s := by
  have hcounted := hs.counted
  have hpending : h.pending = [] := by
    rw [FileHandle.pending, hempty, List.take_zero]
  refine ⟨⟨hs.isOpen, rfl, Nat.zero_le _, hs.noLookahead, hs.terminal, ?_⟩, ?_, rfl,
    fun hp => ⟨?_, ?_⟩⟩
  · show (0 : Int) ≤ h.pos + s.length
    omega
  · show (h.fd.write s).written ++ [] = _
    rw [written_write, hpending, List.append_nil, List.append_nil]
  · intro hseeks hseekable happend
    dsimp only at hseeks hseekable happend ⊢
    rw [write_seekable] at hseekable
    rw [write_append] at happend
    have := hp hseeks hseekable happend
    rw [place_write]
    omega
  · show Alike ((h.fd.write s).write []) _
    rw [write_nil, hpending, List.nil_append]
    exact .refl _

theorem putsHandle_spec (hs : h.Sound) (s : List Nat) : ∃ h', putsHandle h s = .ok h' ∧
    Delivers h h' s := by
  have hend : (h.end_ : Int) - h.ptr = 0 := by
    rw [hs.atEnd]
    exact Int.sub_self _
  obtain ⟨h₁, hflush, hd, hempty, -⟩ := flush_spec hs
  rw [putsHandle, putsFileHandle, hend]
  by_cases hnil : s = []
  · subst hnil
    refine ⟨{ h₁ with line := h₁.line + 0, pos := h₁.pos + 0 }, ?_, ?_⟩
    · rw [if_neg (by simp)]
      show ((flushFileHandle { h with buf := h.buf, ptr := h.ptr + 0 } >>= _) >>= _) = _
      have hsame : ({ h with buf := h.buf, ptr := h.ptr + 0 } : FileHandle) = h := rfl
      rw [hsame, hflush]
      rfl
    · have hline := hd.line (h₁.line + 0)
      rw [show h₁.pos + 0 = h₁.pos from Int.add_zero _]
      exact hline
  · have hlong : s.length > h.buf.length ∨ (s.length : Int) > 0 :=
      .inr (Int.natCast_pos.mpr (List.length_pos_iff.mpr hnil))
    have hpast := delivers_past hd.sound hempty s
    refine ⟨_, ?_, (hd.trans hpast).line (h₁.line + s.count 0x0a)⟩
    rw [if_pos hlong, hflush]
    -- the second flush finds nothing
    have hsecond : flushFileHandle { h₁ with fd := h₁.fd.write s, ptr := 0, end_ := 0 } =
        .ok { h₁ with fd := h₁.fd.write s, ptr := 0, end_ := 0 } := by
      rw [flushFileHandle, if_neg (ne_true_of_eq_false hd.sound.isOpen), if_pos rfl]
    show ((flushFileHandle { h₁ with fd := h₁.fd.write s, ptr := 0, end_ := 0 } >>= _) >>= _) = _
    rw [hsecond]
    rfl

/-- A seek to where the handle is, with nothing in the buffer. -/
theorem seekHandle_spec (hs : h.Sound) (hnone : h.seeks = true → h.end_ = 0) {offset : Int} {whence : Whence}
    (hoffset : (if whence = .cur then offset + h.pos else offset) = h.pos) :
    (∃ h', seekHandle h offset whence = .ok h' ∧ Delivers h h' []) ∨
      ∃ e h', seekHandle h offset whence = .error (e, h') ∧ Delivers h h' [] := by
  generalize hline : (if offset = 0 ∧ whence = .set then 1 else 0 : Nat) = line
  have hd := (Delivers.refl hs).line line
  by_cases hseeks : h.seeks = true
  swap
  · refine .inr ⟨.paramValue "seek-handle" "method" "seek not available", _, ?_, hd⟩
    rw [seekHandle, hline]
    exact if_pos (by rw [Bool.not_eq_true', Bool.eq_false_iff]; exact hseeks)
  have hempty := hnone hseeks
  have hrun : seekHandle h offset whence =
      (seekFileHandle { h with line := line } h.pos >>= fun r =>
        .ok { r.1 with pos := r.2, lc := none }) := by
    rw [seekHandle, hline, if_neg (by rw [hseeks]; decide)]
    show (seekFileHandle { h with line := line } (if whence = .cur then offset + h.pos else offset) >>= _) = _
    rw [hoffset]
    rfl
  have hseekFile : seekFileHandle { h with line := line } h.pos =
      match h.fd.lseek h.pos with
      | .ok fd => .ok ({ h with fd := fd, ptr := 0, end_ := 0, line := line }, h.pos)
      | .error _ => .error (.systemErrno "lseek", { h with ptr := 0, end_ := 0, line := line }) := by
    rw [seekFileHandle, if_neg (not_not.mpr hs.noLookahead)]
    dsimp only
    rw [Int.sub_self, if_neg (Int.lt_irrefl 0), hs.atEnd, Int.sub_self]
    rfl
  rw [hrun, hseekFile]
  cases hseek : h.fd.lseek h.pos with
  | error e =>
    have hreset : ({ h with ptr := 0, end_ := 0, line := line } : FileHandle) = { h with line := line } := by
      rw [← hempty, ← hs.atEnd]
    refine .inr ⟨_, _, rfl, ?_⟩
    rw [hreset]
    exact hd
  | ok fd =>
    refine .inl ⟨_, rfl, ?_⟩
    have hflushed := @delivers_flushed _ hs fd (.inr ⟨hseeks, by
      rw [hs.atEnd, hempty]
      exact (congrArg _ (Int.sub_zero _)).trans hseek⟩)
    have hpending : h.pending = [] := by
      rw [FileHandle.pending, hempty, List.take_zero]
    rw [hpending, write_nil] at hflushed
    show Delivers h { h with fd := fd, ptr := 0, end_ := 0, line := line, lc := none } []
    rw [← hs.noLookahead]
    exact hflushed.line line

/-- What an operation must find not to lose anything: a character to write is a single byte
and has room in the buffer, and a seek finds the buffer empty if the handle can seek. -/
def OutputOp.Keeps (h : FileHandle) : OutputOp → Prop
  | .writeChar c => characterCodePoint c = true → (c : Nat) < 0x80 ∧ h.end_ < h.buf.length
  | .puts _ | .flush => True
  | .seek _ => h.seeks = true → h.end_ = 0

/-- One operation. -/
theorem next_delivers (hs : h.Sound) {op : OutputOp} (hop : op.Keeps h) :
    Delivers h (op.next h) op.text := by
  rw [OutputOp.next]
  cases op with
  | writeChar c =>
    rw [OutputOp.run, OutputOp.text]
    by_cases hc : characterCodePoint c = true
    · obtain ⟨hascii, hroom⟩ := hop hc
      obtain ⟨h', hrun, hd⟩ := putcHandle_spec hs hascii hroom
      rw [if_pos hc, if_pos hc, hrun]
      exact hd
    · rw [if_neg hc, if_neg hc]
      exact .refl hs
  | puts s =>
    obtain ⟨h', hrun, hd⟩ := putsHandle_spec hs (s.flatMap fun c => codePointBytes c)
    rw [OutputOp.run, hrun]
    exact hd
  | flush =>
    obtain ⟨h', hrun, hd, -⟩ := flush_spec hs
    rw [OutputOp.run, hrun]
    exact hd
  | seek whence =>
    cases whence with
    | set =>
      rw [OutputOp.run]
      rcases @seekHandle_spec _ hs hop h.pos .set rfl with
        ⟨h', hrun, hd⟩ | ⟨e, h', hrun, hd⟩
      all_goals
        rw [hrun]
        exact hd
    | cur =>
      rw [OutputOp.run]
      rcases @seekHandle_spec _ hs hop 0 .cur (Int.zero_add _) with
        ⟨h', hrun, hd⟩ | ⟨e, h', hrun, hd⟩
      all_goals
        rw [hrun]
        exact hd

/-- Every operation of a run finds what it must. -/
def KeepsAll : FileHandle → List OutputOp → Prop
  | _, [] => True
  | h, op :: ops => op.Keeps h ∧ KeepsAll (op.next h) ops

theorem run_delivers (hs : h.Sound) {ops : List OutputOp} (hops : KeepsAll h ops) :
    Delivers h (outputRun h ops) (ops.flatMap OutputOp.text) := by
  induction ops generalizing h with
  | nil => exact .refl hs
  | cons op ops ih =>
    obtain ⟨hop, hops⟩ := hops
    have hd := next_delivers hs hop
    exact hd.trans (ih hd.sound hops)

/-- **Output to file handles.**  In a run in which every character to write is a single byte
that has room in the buffer, and every seek to where the handle is finds the buffer empty if
the handle has a method that seeks, a flush at the end leaves the descriptor with all that
has been written in order behind what it had been given and what was in the buffer, and the
position has advanced by that.  A descriptor that was where the position said has it there. -/
theorem buffered_output (h : FileHandle) (hs : h.Sound) (ops : List OutputOp) (hops : KeepsAll h ops) :
    ∃ h', flushFileHandle (outputRun h ops) = .ok h' ∧ h'.end_ = 0 ∧
      h'.fd.written = h.fd.written ++ h.pending ++ ops.flatMap OutputOp.text ∧
      h'.pos = h.pos + (ops.flatMap OutputOp.text).length ∧
      (h.Placed → h'.Placed ∧
        h'.fd.bytes = (h.fd.write (h.pending ++ ops.flatMap OutputOp.text)).bytes) := by
  have hd := run_delivers hs hops
  obtain ⟨h', hflush, hd', hempty, -⟩ := flush_spec hd.sound
  have hall := hd.trans hd'
  have hpending : h'.pending = [] := by
    rw [FileHandle.pending, hempty, List.take_zero]
  rw [List.append_nil] at hall
  have hwritten := hall.written
  rw [hpending, List.append_nil] at hwritten
  refine ⟨h', hflush, hempty, hwritten, hall.pos, fun hp => ?_⟩
  obtain ⟨hp', halike⟩ := hall.placed hp
  rw [hpending, write_nil] at halike
  exact ⟨hp', halike.bytes⟩

/-- A handle of a new file. -/
def newFileHandle (bufsiz : Nat) : FileHandle where
  fd := ⟨true, false, 0, [], []⟩
  buf := List.replicate bufsiz 0
  ptr := 0
  end_ := 0
  interactive := false
  seeks := true
  closed := false
  lc := none
  line := 1
  pos := 0

/-- `é` loses its second byte, a character that finds the buffer full is lost, and so is what
is in the buffer at a seek to where the handle is. -/
theorem output_lost :
    ¬ ∀ (h : FileHandle) (_ : h.Sound) (ops : List OutputOp), ∃ h',
      flushFileHandle (outputRun h ops) = .ok h' ∧
        h'.fd.written = h.fd.written ++ h.pending ++ ops.flatMap OutputOp.text := by
  intro h
  obtain ⟨h', hflush, hwritten⟩ := h (newFileHandle 2)
    ⟨rfl, rfl, Nat.zero_le _, rfl, nofun, Int.le_refl _⟩
    [.writeChar 0xE9, .flush, .writeChar 0x61, .seek .cur, .writeChar 0x62, .writeChar 0x63,
      .writeChar 0x64]
  have hrun : (flushFileHandle (outputRun (newFileHandle 2)
      [.writeChar 0xE9, .flush, .writeChar 0x61, .seek .cur, .writeChar 0x62, .writeChar 0x63,
        .writeChar 0x64])).map (·.fd.written) = .ok [0xC3, 0x62, 0x63] := by
    decide +kernel
  rw [hflush] at hrun
  cases (Except.ok.inj hrun).symm.trans hwritten

theorem output_kept :
    ∃ h', flushFileHandle (outputRun (newFileHandle 2)
        [.writeChar 0x61, .puts [0xE9, 0x20AC], .seek .cur, .writeChar 0x0a]) = .ok h' ∧ h'.end_ = 0 ∧
      h'.fd.written = (newFileHandle 2).fd.written ++ (newFileHandle 2).pending ++
        [OutputOp.writeChar 0x61, .puts [0xE9, 0x20AC], .seek .cur, .writeChar 0x0a].flatMap OutputOp.text ∧
      h'.pos = (newFileHandle 2).pos + ([OutputOp.writeChar 0x61, .puts [0xE9, 0x20AC], .seek .cur,
        .writeChar 0x0a].flatMap OutputOp.text).length ∧
      ((newFileHandle 2).Placed → h'.Placed ∧
        h'.fd.bytes = ((newFileHandle 2).fd.write ((newFileHandle 2).pending ++
          [OutputOp.writeChar 0x61, .puts [0xE9, 0x20AC], .seek .cur,
            .writeChar 0x0a].flatMap OutputOp.text)).bytes) :=
  buffered_output (newFileHandle 2) ⟨rfl, rfl, Nat.zero_le _, rfl, nofun, Int.le_refl _⟩ _
    ⟨fun _ => by decide, trivial, fun _ => rfl, fun _ => by decide +kernel, trivial⟩

end Delivery

end Idio
