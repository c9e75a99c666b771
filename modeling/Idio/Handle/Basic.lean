/-
  Handle/Basic.lean --- what the handles have in common.

  The functions of handle.c keep the lookahead character, the line and the position of a
  handle, and leave the stream to its methods.  The method that seeks is given the handle.
-/
import Idio.Handle.Input

set_option autoImplicit false

namespace Idio

/-- `idio_handle_t`, less its names, its flags and its methods -/
structure Handle (σ : Type) where
  stream : σ
  lc : Int
  line : Nat
  pos : Int
  deriving DecidableEq, Repr

/-- `SEEK_SET`, `SEEK_CUR` and `SEEK_END` -/
inductive SeekWhence where
  | set
  | cur
  | end_
  deriving DecidableEq, Repr

/-- The position that a seek returns, and the handle.  One that raises has changed it, too. -/
abbrev Sought (σ : Type) : Type := Except (Fault × Handle σ) (Int × Handle σ)

namespace Handle

variable {σ : Type}

/-- `idio_handle`, with a stream -/
def ofStream (stream : σ) : Handle σ := ⟨stream, EOF, 1, 0⟩

/-- One more line at a newline, if the number of lines is known. -/
def bumpLine (h : Handle σ) (c : Int) : Handle σ :=
  if c = 0x0a ∧ h.line ≠ 0 then { h with line := h.line + 1 } else h

/-- One byte more, if the handle is not at the end. -/
def count (eofp : σ → Bool) (h : Handle σ) (r : Int) : Handle σ :=
  if eofp h.stream then h
  else
    let h := h.bumpLine r
    { h with pos := h.pos + 1 }

/-- `idio_getb_handle` -/
def getb (getbMethod : σ → Result (Int × σ)) (eofp : σ → Bool) (h : Handle σ) :
    Result (Int × Handle σ) :=
  if EOF ≠ h.lc then
    let r := h.lc
    .ok (r, ({ h with lc := EOF } : Handle σ).count eofp r)
  else do
    let (r, stream) ← getbMethod h.stream
    return (r, ({ h with stream := stream } : Handle σ).count eofp r)

/-- `idio_ungetc_handle` -/
def ungetc (h : Handle σ) (c : Int) : Result (Handle σ) :=
  if EOF ≠ h.lc then .error (.lookahead h.lc)
  else
    let h := { h with lc := c }
    let h := if c = 0x0a ∧ h.line ≠ 0 then { h with line := h.line - 1 } else h
    .ok (if h.pos ≠ 0 then { h with pos := h.pos - 1 } else h)

/-- `idio_putb_handle`, of a stream that is not flushed -/
def putb (putbMethod : σ → UInt8 → Result (Nat × σ)) (h : Handle σ) (c : UInt8) :
    Result (Int × Handle σ) := do
  let (n, stream) ← putbMethod h.stream c
  return (n, ({ h with stream := stream, pos := h.pos + n } : Handle σ).bumpLine c.toNat)

/-- `idio_putc_handle`, of a stream that is not flushed -/
def putc (putcMethod : σ → Nat → Result (Nat × σ)) (h : Handle σ) (c : Nat) :
    Result (Int × Handle σ) := do
  let (n, stream) ← putcMethod h.stream c
  return (n, ({ h with stream := stream, pos := h.pos + n } : Handle σ).bumpLine c)

/-- `idio_puts_handle` -/
def puts (putsMethod : σ → List UInt8 → Result (Nat × σ)) (h : Handle σ) (s : List UInt8) :
    Result (Int × Handle σ) := do
  let (n, stream) ← putsMethod h.stream s
  return (n, { h with stream := stream, pos := h.pos + n })

/-- The line number is invalidated unless the seek is to the position 0. -/
def soughtLine (offset : Int) (whence : SeekWhence) : Nat :=
  if offset = 0 ∧ whence = .set then 1 else 0

/-- The position that a seek is to, where the stream ends at `size`. -/
def target (h : Handle σ) (size : Nat) (offset : Int) : SeekWhence → Int
  | .set => offset
  | .cur => offset + h.pos
  | .end_ => size + offset

/-- `idio_seek_handle` -/
def seek (seekMethod : Option (Handle σ → Int → SeekWhence → Sought σ)) (h : Handle σ)
    (offset : Int) (whence : SeekWhence) : Sought σ :=
  let h := { h with line := soughtLine offset whence }
  let offset := if whence = .cur then offset + h.pos else offset
  let whence := if whence = .cur then .set else whence
  match seekMethod with
  | none => .error (.paramValue "seek-handle" "method" "seek not available", h)
  | some seekMethod =>
      match seekMethod h offset whence with
      | .ok (pos, h) => .ok (pos, { h with pos := pos, lc := EOF })
      | .error e => .error e

@[simp] theorem bumpLine_stream (h : Handle σ) (c : Int) : (h.bumpLine c).stream = h.stream := by
  rw [bumpLine]
  split <;> rfl

@[simp] theorem bumpLine_lc (h : Handle σ) (c : Int) : (h.bumpLine c).lc = h.lc := by
  rw [bumpLine]
  split <;> rfl

@[simp] theorem count_stream (eofp : σ → Bool) (h : Handle σ) (r : Int) :
    (h.count eofp r).stream = h.stream := by
  rw [count]
  split
  · rfl
  · exact h.bumpLine_stream r

@[simp] theorem count_lc (eofp : σ → Bool) (h : Handle σ) (r : Int) :
    (h.count eofp r).lc = h.lc := by
  rw [count]
  split
  · rfl
  · exact h.bumpLine_lc r

theorem seek_some (m : Handle σ → Int → SeekWhence → Sought σ) (h : Handle σ) (offset : Int)
    (whence : SeekWhence) :
    h.seek (some m) offset whence =
      (m { h with line := soughtLine offset whence } (if whence = .cur then offset + h.pos else offset)
        (if whence = .cur then .set else whence)).map
        fun (pos, h) => (pos, { h with pos := pos, lc := EOF }) := by
  rw [seek]
  dsimp only
  cases m { h with line := soughtLine offset whence }
    (if whence = .cur then offset + h.pos else offset) (if whence = .cur then .set else whence) <;> rfl

end Handle

end Idio
