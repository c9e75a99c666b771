/-
  Handle/Seek.lean --- seeks on input handles.

  `seek-handle` changes the line of a handle before it calls the method, and its position
  and its lookahead after that whatever the method returns.  The method of a string handle
  returns -1 for a place outside of the string.  That of a file handle moves the pointer
  into the buffer back for a lookahead, moves it by the difference from the position if
  the buffer has the place, and otherwise forgets the buffer and calls lseek(2), which may
  refuse.
-/
import Idio.Lib.Descriptor
import Idio.Handle.StringOutput
import Mathlib.Data.List.TakeDrop

set_option autoImplicit false

namespace Idio

open Descriptors

/-! ## Reading -/

/-- `idio_getb_string_handle` -/
def getbStringStream (sh : StringStream) : Result (Int × StringStream) :=
  if sh.ptr < sh.end_ then
    match sh.buf[sh.ptr]? with
    | some b => .ok (charInt b, { sh with ptr := sh.ptr + 1 })
    | none => .error .undefined
  else .ok (EOF, { sh with eof := true })

/-- `idio_file_handle_stream_t` for input.  `ptr` and `end_` are `IDIO_FILE_HANDLE_PTR` and
`IDIO_FILE_HANDLE_END` less `IDIO_FILE_HANDLE_BUF`; `buf` has `IDIO_FILE_HANDLE_BUFSIZ` bytes. -/
structure FileStream where
  fd : Descriptor
  buf : List Nat
  ptr : Int
  end_ : Nat
  /-- `IDIO_FILE_HANDLE_FLAG_EOF` -/
  eof : Bool
  deriving DecidableEq, Repr

/-- `(int) c` of a byte that is a `char` -/
def byteInt (b : Nat) : Int := charInt (UInt8.ofNat b)

/-- `idio_file_handle_read_more` -/
def readMore (fh : FileStream) : FileStream :=
  let (bs, fd) := fh.fd.read fh.buf.length
  if bs = [] then { fh with eof := true }
  else { fh with fd := fd, buf := bs ++ fh.buf.drop bs.length, ptr := 0, end_ := bs.length }

/-- `*(IDIO_FILE_HANDLE_PTR (fh))`, and the pointer one further. -/
def FileStream.fetch (fh : FileStream) : Result (Int × FileStream) :=
  if fh.ptr < 0 then .error .undefined
  else
    match fh.buf[fh.ptr.toNat]? with
    | some b => .ok (byteInt b, { fh with ptr := fh.ptr + 1 })
    | none => .error .undefined

/-- `idio_getb_file_handle`; what has been read more is not nothing. -/
def getbFileHandle (fh : FileStream) : Result (Int × FileStream) :=
  if fh.ptr < fh.end_ then fh.fetch
  else
    let fh := readMore fh
    if fh.eof then .ok (EOF, fh) else fh.fetch

/-! ## Seeking -/

/-- The buffer forgotten, for a seek by lseek(2). -/
def FileStream.forget (fh : FileStream) : FileStream := { fh with ptr := 0, end_ := 0 }

/-- The end of `idio_seek_file_handle`, with what lseek(2) returns. -/
def lseekFileHandle (fh : Handle FileStream) : Except SeekError Descriptor → Sought FileStream
  | .ok fd => .ok (fd.offset, { fh with stream := { fh.stream.forget with fd := fd, eof := false } })
  | .error _ => .error (.systemErrno "lseek", { fh with stream := fh.stream.forget })

/-- `idio_seek_file_handle` -/
def seekInputFile (fh : Handle FileStream) (offset : Int) (whence : SeekWhence) : Sought FileStream :=
  if whence = .end_ then lseekFileHandle fh (fh.stream.fd.lseekEnd offset)
  else
    let offset := if whence = .cur then offset + fh.pos else offset
    let ptr := if fh.lc ≠ EOF then fh.stream.ptr - 1 else fh.stream.ptr
    let seekPos := offset - fh.pos
    let reqSeek : Bool :=
      if seekPos < 0 then decide (ptr + seekPos < 0) else decide (seekPos ≥ fh.stream.end_ - ptr)
    if reqSeek then lseekFileHandle fh (fh.stream.fd.lseek offset)
    else if offset = -1 then
      -- the offset is taken for what lseek(2) returns
      .error (.systemErrno "lseek", { fh with stream := { fh.stream with ptr := ptr + seekPos } })
    else .ok (offset, { fh with stream := { fh.stream with ptr := ptr + seekPos, eof := false } })

/-- The seek method of a file handle, or of a pipe handle. -/
def fileSeekMethod (seeks : Bool) : Option (Handle FileStream → Int → SeekWhence → Sought FileStream) :=
  if seeks then some seekInputFile else none

/-! ## What a seek is to do -/

namespace Handle

variable {σ : Type} (getbMethod : σ → Result (Int × σ)) (eofp : σ → Bool)

/-- The next byte, if the handle is not at the end then, as callers of `idio_getb_handle`
read it. -/
def readByte (h : Handle σ) : Result (Option Int × Handle σ) := do
  let (r, h) ← h.getb getbMethod eofp
  return (if eofp h.stream then none else some r, h)

def reads : Nat → Handle σ → Result (List (Option Int))
  | 0, _ => .ok []
  | n + 1, h => do
      let (r, h) ← h.readByte getbMethod eofp
      let rs ← reads n h
      return r :: rs

/-- Nothing tells the handles apart. -/
structure Untouched (h h' : Handle σ) : Prop where
  pos : h'.pos = h.pos
  line : h'.line = h.line
  lc : h'.lc = h.lc
  reads : ∀ n, h'.reads getbMethod eofp n = h.reads getbMethod eofp n

end Handle

def byteAt (content : List Int) (p : Int) : Option Int :=
  if 0 ≤ p then content[p.toNat]? else none

/-- A seek that raises or returns -1 leaves the handle as it was; after one that returns a
position, the next byte is the one there. -/
def SeekRight {σ : Type} (getbMethod : σ → Result (Int × σ)) (eofp : σ → Bool)
    (content : List Int) (h : Handle σ) : Sought σ → Prop
  | .error (_, h') => h.Untouched getbMethod eofp h'
  | .ok (n, h') =>
      if n = -1 then h.Untouched getbMethod eofp h'
      else h'.reads getbMethod eofp 1 = .ok [byteAt content n]

/-! ## When it does -/

/-- The place is one in the string, or a seek that has failed left the handle. -/
def StringSeekHolds (h : Handle StringStream) (offset : Int) (whence : SeekWhence) : Prop :=
  (0 ≤ h.target h.stream.end_ offset whence ∧ h.target h.stream.end_ offset whence ≤ h.stream.end_) ∨
    h.pos = -1 ∧ h.line = 0 ∧ h.lc = EOF

namespace Handle

/-- A lookahead is taken for one byte. -/
def lead {σ : Type} (h : Handle σ) : Int := if h.lc ≠ EOF then 1 else 0

/-- Where the handle has the byte at `p`, if its buffer has it. -/
def place (h : Handle FileStream) (p : Int) : Int := h.stream.ptr - h.lead + (p - h.pos)

/-- The buffer is taken to have the byte at `p`. -/
def Buffers (h : Handle FileStream) (p : Int) : Prop :=
  if p < h.pos then 0 ≤ h.place p else h.place p < h.stream.end_

instance (h : Handle FileStream) (p : Int) : Decidable (h.Buffers p) :=
  inferInstanceAs (Decidable (if p < h.pos then 0 ≤ h.place p else h.place p < h.stream.end_))

/-- How far the next byte is from the position of the handle. -/
def adrift (h : Handle FileStream) : Int :=
  h.stream.fd.offset - h.stream.end_ + h.stream.ptr - h.lead - h.pos

/-- The bytes of the file. -/
def fileContent (h : Handle FileStream) : List Int := h.stream.fd.bytes.map byteInt

end Handle

/-- The buffer has the place, and the byte there is the one that it has so far from the
position as the next byte is; or lseek(2) does what it is asked; or the line is already the
one that a seek leaves, and there is nothing in the buffer to forget. -/
def FileSeekHolds (seeks : Bool) (h : Handle FileStream) (offset : Int) (whence : SeekWhence) : Prop :=
  let p := h.target h.stream.fd.bytes.length offset whence
  let lineKept := h.line = Handle.soughtLine offset whence
  if seeks = false then lineKept
  else if whence ≠ .end_ ∧ h.Buffers p then
    0 ≤ h.place p ∧
      if p = -1 then lineKept ∧ (h.stream.eof = true ∨ h.place p = h.stream.ptr)
      else byteAt h.fileContent (p + h.adrift) = byteAt h.fileContent p
  else
    h.stream.fd.seekable = true ∧ 0 ≤ p ∨
      lineKept ∧ (h.stream.eof = true ∨ h.stream.ptr = h.stream.end_)

/-! ## Reads -/

section Reads

variable {σ : Type} (getbMethod : σ → Result (Int × σ)) (eofp : σ → Bool) {h h' : Handle σ}

/-- What is read of a stream. -/
def observed (p : Int × σ) : Option Int := if eofp p.2 then none else some p.1

theorem readByte_eq {r : Int} (hget : h.getb getbMethod eofp = .ok (r, h')) :
    h.readByte getbMethod eofp = .ok (observed eofp (r, h'.stream), h') := by
  rw [Handle.readByte, hget]
  rfl

theorem reads_succ {r : Int} (hget : h.getb getbMethod eofp = .ok (r, h')) (n : Nat) :
    h.reads getbMethod eofp (n + 1) =
      (h'.reads getbMethod eofp n).map (observed eofp (r, h'.stream) :: ·) := by
  rw [Handle.reads, readByte_eq getbMethod eofp hget, ok_bind]
  dsimp only
  cases h'.reads getbMethod eofp n <;> rfl

/-- The reads of a stream, without a handle. -/
def streamReads : Nat → σ → Result (List (Option Int))
  | 0, _ => .ok []
  | n + 1, s => do
      let p ← getbMethod s
      let rs ← streamReads n p.2
      return observed eofp p :: rs

theorem reads_plain (hlc : h.lc = EOF) (n : Nat) :
    h.reads getbMethod eofp n = streamReads getbMethod eofp n h.stream := by
  induction n generalizing h with
  | zero => rfl
  | succ n ih =>
    rw [streamReads]
    cases hmethod : getbMethod h.stream with
    | error e =>
      rw [Handle.reads, Handle.readByte, Handle.getb, if_neg (not_not.mpr hlc.symm), hmethod]
      rfl
    | ok p =>
      have hget : h.getb getbMethod eofp =
          .ok (p.1, ({ h with stream := p.2 } : Handle σ).count eofp p.1) := by
        rw [Handle.getb, if_neg (not_not.mpr hlc.symm), hmethod]
        rfl
      rw [reads_succ getbMethod eofp hget, ih (by rw [Handle.count_lc, hlc]), Handle.count_stream,
        ok_bind]
      cases streamReads getbMethod eofp n p.2 <;> rfl

/-- A lookahead is read, and then what the stream has. -/
theorem reads_lookahead (hlc : h.lc ≠ EOF) (n : Nat) :
    h.reads getbMethod eofp (n + 1) =
      (streamReads getbMethod eofp n h.stream).map (observed eofp (h.lc, h.stream) :: ·) := by
  have hget : h.getb getbMethod eofp =
      .ok (h.lc, ({ h with lc := EOF } : Handle σ).count eofp h.lc) := by
    rw [Handle.getb, if_pos (Ne.symm hlc)]
  rw [reads_succ getbMethod eofp hget, reads_plain getbMethod eofp (Handle.count_lc _ _ _),
    Handle.count_stream]

/-- Handles with the same lookahead read the same if their streams do. -/
theorem reads_eq_iff (hlc : h'.lc = h.lc) (heof : eofp h'.stream = eofp h.stream) :
    (∀ n, h'.reads getbMethod eofp n = h.reads getbMethod eofp n) ↔
      ∀ n, streamReads getbMethod eofp n h'.stream = streamReads getbMethod eofp n h.stream := by
  by_cases hlook : h.lc = EOF
  · refine forall_congr' fun n => ?_
    rw [reads_plain getbMethod eofp hlook, reads_plain getbMethod eofp (hlc.trans hlook)]
  · have hlook' : h'.lc ≠ EOF := hlc ▸ hlook
    have hobserved : observed eofp (h'.lc, h'.stream) = observed eofp (h.lc, h.stream) := by
      rw [observed, observed, hlc, heof]
    constructor
    · intro hsame n
      have hnext := hsame (n + 1)
      rw [reads_lookahead getbMethod eofp hlook, reads_lookahead getbMethod eofp hlook',
        hobserved] at hnext
      revert hnext
      cases streamReads getbMethod eofp n h'.stream <;> cases streamReads getbMethod eofp n h.stream <;>
        simp [Except.map]
    · intro hsame n
      cases n with
      | zero => rfl
      | succ n =>
        rw [reads_lookahead getbMethod eofp hlook, reads_lookahead getbMethod eofp hlook', hobserved,
          hsame n]

end Reads

/-! ## What a file is read as -/

/-- The buffer is the part of the file before the offset of the descriptor, and the pointer
is in it. -/
structure FileStream.Sound (s : FileStream) : Prop where
  low : 0 ≤ s.ptr
  high : s.ptr ≤ s.end_
  inside : s.end_ ≤ s.fd.offset
  size : 0 < s.buf.length
  room : s.end_ ≤ s.buf.length
  window : s.buf.take s.end_ = (s.fd.bytes.drop (s.fd.offset - s.end_)).take s.end_

/-- The offset of the byte at the pointer. -/
def FileStream.next (s : FileStream) : Nat := s.fd.offset - s.end_ + s.ptr.toNat

/-- What is still to be read. -/
def FileStream.pending (s : FileStream) : List Int := (s.fd.bytes.drop s.next).map byteInt

section Files

variable {s : FileStream}

theorem FileStream.Sound.buffered (hs : s.Sound) {i : Nat} (hi : i < s.end_) :
    ∃ b, s.buf[i]? = some b ∧ s.fd.bytes[s.fd.offset - s.end_ + i]? = some b := by
  have hlt : i < s.buf.length := Nat.lt_of_lt_of_le hi hs.room
  refine ⟨s.buf[i], List.getElem?_eq_getElem hlt, ?_⟩
  have hwindow : (s.buf.take s.end_)[i]? = _ := congrArg (·[i]?) hs.window
  rw [List.getElem?_take_of_lt hi, List.getElem?_take_of_lt hi, List.getElem?_drop,
    List.getElem?_eq_getElem hlt] at hwindow
  exact hwindow.symm

/-- A byte that is in the buffer. -/
theorem FileStream.Sound.fetch (hs : s.Sound) (hlt : s.ptr < s.end_) :
    ∃ b s', s.fetch = .ok (byteInt b, s') ∧ s'.Sound ∧ s'.eof = s.eof ∧
      s.pending = byteInt b :: s'.pending := by
  have hlow := hs.low
  have hptr : s.ptr.toNat < s.end_ := by omega
  obtain ⟨b, hbuf, hbyte⟩ := hs.buffered hptr
  refine ⟨b, { s with ptr := s.ptr + 1 }, ?_, ⟨?_, ?_, hs.inside, hs.size, hs.room, hs.window⟩, rfl, ?_⟩
  · rw [FileStream.fetch, if_neg (Int.not_lt.mpr hlow), hbuf]
  · show 0 ≤ s.ptr + 1
    omega
  · show s.ptr + 1 ≤ s.end_
    omega
  · have hnext : FileStream.next { s with ptr := s.ptr + 1 } = s.next + 1 := by
      show s.fd.offset - s.end_ + (s.ptr + 1).toNat = s.fd.offset - s.end_ + s.ptr.toNat + 1
      omega
    obtain ⟨hin, hget⟩ := List.getElem?_eq_some_iff.mp hbyte
    rw [FileStream.pending, FileStream.pending, hnext, ← List.map_cons, ← hget]
    exact congrArg _ (List.drop_eq_getElem_cons hin)

/-- At the end of the buffer, more is read if there is more. -/
theorem FileStream.Sound.readMore (hs : s.Sound) (hend : s.ptr = s.end_) :
    (s.pending = [] ∧ readMore s = { s with eof := true }) ∨
      (readMore s).Sound ∧ (readMore s).ptr < (readMore s).end_ ∧ (readMore s).eof = s.eof ∧
        (readMore s).pending = s.pending := by
  have hnext : s.next = s.fd.offset := by
    have hinside := hs.inside
    rw [FileStream.next, hend]
    omega
  have hsize := hs.size
  rw [Idio.readMore, Descriptor.read]
  dsimp only
  generalize hbs : (s.fd.bytes.drop s.fd.offset).take s.buf.length = bs
  by_cases hnil : bs = []
  · rw [if_pos hnil]
    refine .inl ⟨?_, rfl⟩
    rw [FileStream.pending, hnext]
    rw [hnil, List.take_eq_nil_iff] at hbs
    rw [hbs.resolve_left (Nat.ne_of_gt hsize)]
    rfl
  · rw [if_neg hnil]
    have hlen : bs.length ≤ s.buf.length := hbs ▸ List.length_take_le _ _
    have hpos : 0 < bs.length := List.length_pos_iff.mpr hnil
    have hbufsize : (bs ++ s.buf.drop bs.length).length = s.buf.length := by
      rw [List.length_append, List.length_drop]
      omega
    refine .inr ⟨⟨Int.le_refl _, ?_, ?_, ?_, ?_, ?_⟩, ?_, rfl, ?_⟩
    · exact Int.natCast_nonneg _
    · exact Nat.le_add_left _ _
    · exact hbufsize ▸ hsize
    · exact hbufsize ▸ hlen
    · dsimp only
      rw [List.take_left, Nat.add_sub_cancel]
      calc bs = bs.take bs.length := List.take_length.symm
        _ = ((s.fd.bytes.drop s.fd.offset).take s.buf.length).take bs.length := by rw [hbs]
        _ = (s.fd.bytes.drop s.fd.offset).take bs.length := by
          rw [List.take_take, Nat.min_eq_left hlen]
    · exact Int.natCast_pos.mpr hpos
    · rw [FileStream.pending, FileStream.pending, hnext, FileStream.next]
      dsimp only
      rw [Nat.add_sub_cancel]
      rfl

/-- One byte. -/
theorem FileStream.Sound.getb (hs : s.Sound) :
    ∃ r s', getbFileHandle s = .ok (r, s') ∧ s'.Sound ∧
      (s'.eof = s.eof ∧ s.pending = r :: s'.pending ∨
        s'.eof = true ∧ (s.eof = true ∨ s.pending = [])) := by
  rw [getbFileHandle]
  by_cases hlt : s.ptr < s.end_
  · obtain ⟨b, s', hfetch, hs', heof, hpending⟩ := hs.fetch hlt
    rw [if_pos hlt]
    exact ⟨_, s', hfetch, hs', .inl ⟨heof, hpending⟩⟩
  rw [if_neg hlt]
  have hend : s.ptr = s.end_ := Int.le_antisymm hs.high (Int.not_lt.mp hlt)
  rcases hs.readMore hend with ⟨hnil, hmore⟩ | ⟨hmore, hlt', heof, hpending⟩
  · rw [hmore]
    exact ⟨_, _, rfl, ⟨hs.low, hs.high, hs.inside, hs.size, hs.room, hs.window⟩, .inr ⟨rfl, .inr hnil⟩⟩
  · dsimp only
    by_cases hflag : (Idio.readMore s).eof = true
    · rw [if_pos hflag]
      exact ⟨_, _, rfl, hmore, .inr ⟨hflag, .inl (heof ▸ hflag)⟩⟩
    · obtain ⟨b, s', hfetch, hs', heof', hpending'⟩ := hmore.fetch hlt'
      rw [if_neg hflag]
      exact ⟨_, s', hfetch, hs', .inl ⟨heof'.trans heof, hpending ▸ hpending'⟩⟩

/-- At the end, a handle stays there. -/
theorem streamReads_eof (hs : s.Sound) (heof : s.eof = true) (n : Nat) :
    streamReads getbFileHandle FileStream.eof n s = .ok (List.replicate n none) := by
  induction n generalizing s with
  | zero => rfl
  | succ n ih =>
    obtain ⟨r, s', hget, hs', hnext⟩ := hs.getb
    have heof' : s'.eof = true := by
      rcases hnext with ⟨hsame, -⟩ | ⟨hflag, -⟩
      · exact hsame.trans heof
      · exact hflag
    rw [streamReads, hget, ok_bind, ih hs' heof', ok_bind, observed, if_pos heof']
    rfl

theorem streamReads_file (hs : s.Sound) (heof : s.eof = false) (n : Nat) :
    streamReads getbFileHandle FileStream.eof n s =
      .ok (List.takeD n (s.pending.map some) none) := by
  induction n generalizing s with
  | zero => rfl
  | succ n ih =>
    obtain ⟨r, s', hget, hs', ⟨hsame, hpending⟩ | ⟨hflag, hend⟩⟩ := hs.getb
    · have hflag : ¬ s'.eof = true := by
        rw [hsame, heof]
        nofun
      rw [streamReads, hget, ok_bind, ih hs' (Bool.eq_false_iff.mpr hflag), ok_bind, observed,
        if_neg hflag, hpending]
      rfl
    · have hnil := hend.resolve_left (by
        rw [heof]
        nofun)
      rw [streamReads, hget, ok_bind, streamReads_eof hs' hflag, ok_bind, observed, if_pos hflag, hnil,
        List.map_nil, List.takeD_nil]
      rfl

theorem takeD_injective {α : Type} {l l' : List α}
    (h : ∀ n, List.takeD n (l.map some) none = List.takeD n (l'.map some) none) : l = l' := by
  induction l generalizing l' with
  | nil =>
    cases l' with
    | nil => rfl
    | cons y l' => cases h 1
  | cons x l ih =>
    cases l' with
    | nil => cases h 1
    | cons y l' =>
      have htail := ih fun n => (List.cons.inj (h (n + 1))).2
      have hhead := (List.cons.inj (h 1)).1
      rw [htail, Option.some.inj hhead]

/-- Streams that are not at the end read the same if the same is pending. -/
theorem streamReads_eq_iff {s' : FileStream} (hs : s.Sound) (hs' : s'.Sound) (heof : s'.eof = s.eof) :
    (∀ n, streamReads getbFileHandle FileStream.eof n s' =
        streamReads getbFileHandle FileStream.eof n s) ↔
      s.eof = true ∨ s'.pending = s.pending := by
  cases hflag : s.eof with
  | true =>
    refine iff_of_true (fun n => ?_) (.inl rfl)
    rw [streamReads_eof hs hflag, streamReads_eof hs' (heof.trans hflag)]
  | false =>
    constructor
    · intro hsame
      refine .inr (takeD_injective fun n => ?_)
      have hn := hsame n
      rw [streamReads_file hs hflag, streamReads_file hs' (heof.trans hflag)] at hn
      exact Except.ok.inj hn
    · rintro (hnot | hsame) n
      · cases hnot
      · rw [streamReads_file hs hflag, streamReads_file hs' (heof.trans hflag), hsame]

theorem FileStream.Sound.next_lt (hs : s.Sound) (hlt : s.ptr < s.end_) :
    s.next < s.fd.bytes.length := by
  have hlow := hs.low
  obtain ⟨b, -, hbyte⟩ := hs.buffered (show s.ptr.toNat < s.end_ by omega)
  exact (List.getElem?_eq_some_iff.mp hbyte).1

theorem FileStream.length_pending (s : FileStream) : s.pending.length = s.fd.bytes.length - s.next := by
  rw [FileStream.pending, List.length_map, List.length_drop]

/-- The pointer is where what is pending is. -/
theorem pending_ptr {p : Int} (hs : s.Sound) (hs' : ({ s with ptr := p } : FileStream).Sound) :
    ({ s with ptr := p } : FileStream).pending = s.pending ↔ p = s.ptr := by
  constructor
  · intro hsame
    have hlen := congrArg List.length hsame
    rw [FileStream.length_pending, FileStream.length_pending] at hlen
    have hlow := hs.low
    have hlow' : 0 ≤ p := hs'.low
    have hhigh : s.ptr ≤ s.end_ := hs.high
    have hhigh' : p ≤ s.end_ := hs'.high
    have hlt := hs.next_lt
    have hlt' := hs'.next_lt
    rw [FileStream.next] at hlen hlt hlt'
    rw [FileStream.next] at hlen
    dsimp only at hlen hlt'
    omega
  · rintro rfl
    rfl

theorem FileStream.Sound.at (hs : s.Sound) {p : Int} (hlow : 0 ≤ p) (hhigh : p ≤ s.end_) (eof : Bool) :
    ({ s with ptr := p, eof := eof } : FileStream).Sound :=
  ⟨hlow, hhigh, hs.inside, hs.size, hs.room, hs.window⟩

theorem FileStream.Sound.forget (hs : s.Sound) : s.forget.Sound :=
  ⟨Int.le_refl _, Int.le_refl _, Nat.zero_le _, hs.size, Nat.zero_le _, rfl⟩

/-- With the buffer, what is in it and behind the pointer is forgotten. -/
theorem pending_forget (hs : s.Sound) : s.forget.pending = s.pending ↔ s.ptr = s.end_ := by
  have hinside := hs.inside
  have hlast : s.forget.pending = ({ s with ptr := s.end_ } : FileStream).pending := by
    have hnext : s.forget.next = FileStream.next { s with ptr := s.end_ } := by
      show s.fd.offset - 0 + 0 = s.fd.offset - s.end_ + (s.end_ : Int).toNat
      omega
    rw [FileStream.pending, hnext]
    rfl
  rw [hlast, pending_ptr hs (hs.at (Int.natCast_nonneg _) (Int.le_refl _) s.eof), eq_comm]

end Files

/-! ## What a seek does -/

section Seeks

variable {h : Handle FileStream} {offset : Int} {whence : SeekWhence}

/-- The end of a seek that asks lseek(2). -/
def Handle.lseekTo (h : Handle FileStream) (line : Nat) (p : Int) : Sought FileStream :=
  if h.stream.fd.seekable = true ∧ 0 ≤ p then
    .ok (p, ⟨{ h.stream.forget with fd := { h.stream.fd with offset := p.toNat }, eof := false }, EOF,
      line, p⟩)
  else .error (.systemErrno "lseek", ⟨h.stream.forget, h.lc, line, h.pos⟩)

/-- The end of a seek that the buffer answers. -/
def Handle.moveTo (h : Handle FileStream) (line : Nat) (p : Int) : Sought FileStream :=
  if p = -1 then
    .error (.systemErrno "lseek", ⟨{ h.stream with ptr := h.place p }, h.lc, line, h.pos⟩)
  else .ok (p, ⟨{ h.stream with ptr := h.place p, eof := false }, EOF, line, p⟩)

theorem lseekFileHandle_eq (h : Handle FileStream) (line : Nat) (p : Int) :
    (lseekFileHandle { h with line := line } (h.stream.fd.lseek p)).map
      (fun (pos, h) => (pos, { h with pos := pos, lc := EOF })) = h.lseekTo line p := by
  rw [Handle.lseekTo, Descriptor.lseek]
  by_cases hseek : h.stream.fd.seekable = true
  · rw [if_neg (by rw [hseek]; exact Bool.false_ne_true)]
    by_cases hp : p < 0
    · rw [if_pos hp, if_neg fun hand => absurd hand.2 (Int.not_le.mpr hp)]
      rfl
    · have hcast : (p.toNat : Int) = p := Int.toNat_of_nonneg (Int.not_lt.mp hp)
      rw [if_neg hp, if_pos ⟨hseek, Int.not_lt.mp hp⟩]
      show Except.ok ((p.toNat : Int), (⟨_, _, _, (p.toNat : Int)⟩ : Handle FileStream)) = _
      rw [hcast]
  · rw [if_pos (by rw [Bool.eq_false_iff.mpr hseek]; rfl), if_neg fun hand => hseek hand.1]
    rfl

theorem seek_file (h : Handle FileStream) (offset : Int) (whence : SeekWhence) :
    h.seek (some seekInputFile) offset whence =
      if whence ≠ .end_ ∧ h.Buffers (h.target h.stream.fd.bytes.length offset whence) then
        h.moveTo (Handle.soughtLine offset whence) (h.target h.stream.fd.bytes.length offset whence)
      else
        h.lseekTo (Handle.soughtLine offset whence)
          (h.target h.stream.fd.bytes.length offset whence) := by
  have hset : ¬ SeekWhence.set = .end_ ∧ ¬ SeekWhence.set = .cur := by decide
  have hmethod (line : Nat) (p : Int) :
      ((seekInputFile { h with line := line } p .set).map
        fun (pos, h) => (pos, { h with pos := pos, lc := EOF }) : Sought FileStream) =
      if h.Buffers p then h.moveTo line p else h.lseekTo line p := by
    have hptr : (if h.lc ≠ EOF then h.stream.ptr - 1 else h.stream.ptr) = h.stream.ptr - h.lead := by
      rw [Handle.lead]
      split <;> omega
    have hreq : (if p - h.pos < 0 then decide (h.stream.ptr - h.lead + (p - h.pos) < 0)
        else decide (p - h.pos ≥ h.stream.end_ - (h.stream.ptr - h.lead))) = !decide (h.Buffers p) := by
      have hplace : h.place p = h.stream.ptr - h.lead + (p - h.pos) := rfl
      rw [← decide_not]
      by_cases hback : p < h.pos
      · have hbuffers : h.Buffers p ↔ 0 ≤ h.place p := by
          rw [Handle.Buffers, if_pos hback]
        rw [if_pos (by omega)]
        exact decide_eq_decide.mpr (by rw [hbuffers, hplace, Int.not_le])
      · have hbuffers : h.Buffers p ↔ h.place p < h.stream.end_ := by
          rw [Handle.Buffers, if_neg hback]
        rw [if_neg (by omega)]
        refine decide_eq_decide.mpr ?_
        rw [hbuffers, hplace]
        omega
    rw [seekInputFile, if_neg hset.1]
    dsimp only
    rw [if_neg hset.2, hptr, hreq]
    by_cases hbuffers : h.Buffers p
    · rw [if_neg (by simp [hbuffers]), if_pos hbuffers, Handle.moveTo]
      split <;> rfl
    · rw [if_pos (by simp [hbuffers]), if_neg hbuffers]
      exact lseekFileHandle_eq h line p
  rw [Handle.seek_some]
  cases whence with
  | set =>
    rw [if_neg hset.2, if_neg hset.2, hmethod]
    exact (if_congr (and_iff_right nofun) rfl rfl).symm
  | cur =>
    rw [if_pos rfl, if_pos rfl, hmethod]
    exact (if_congr (and_iff_right nofun) rfl rfl).symm
  | end_ =>
    rw [if_neg nofun, if_neg nofun, seekInputFile, if_pos rfl, if_neg fun hand => hand.1 rfl]
    exact lseekFileHandle_eq h _ _

/-! ## When a seek does it -/

/-- Where the lookahead stays, nothing tells the handles apart if the line is the same and
the same is read. -/
theorem untouched_iff {σ : Type} {getbMethod : σ → Result (Int × σ)} {eofp : σ → Bool} {h : Handle σ}
    {stream : σ} {line : Nat} (heof : eofp stream = eofp h.stream) :
    h.Untouched getbMethod eofp ⟨stream, h.lc, line, h.pos⟩ ↔
      h.line = line ∧
        ∀ n, streamReads getbMethod eofp n stream = streamReads getbMethod eofp n h.stream := by
  rw [← @reads_eq_iff σ getbMethod eofp h ⟨stream, h.lc, line, h.pos⟩ rfl heof]
  exact ⟨fun hsame => ⟨hsame.line.symm, hsame.reads⟩, fun hsame => ⟨rfl, hsame.1.symm, rfl, hsame.2⟩⟩

theorem seekRight_ok {σ : Type} {getbMethod : σ → Result (Int × σ)} {eofp : σ → Bool}
    {content : List Int} {h h' : Handle σ} {n : Int} (hn : n ≠ -1) :
    SeekRight getbMethod eofp content h (.ok (n, h')) ↔
      h'.reads getbMethod eofp 1 = .ok [byteAt content n] := by
  rw [SeekRight, if_neg hn]

theorem byteAt_natCast (content : List Int) (i : Nat) : byteAt content i = content[i]? := by
  rw [byteAt, if_pos (Int.natCast_nonneg i), Int.toNat_natCast]

theorem reads_one {s : FileStream} {line : Nat} {pos : Int} (hs : s.Sound) (heof : s.eof = false) :
    (⟨s, EOF, line, pos⟩ : Handle FileStream).reads getbFileHandle FileStream.eof 1 =
      .ok [byteAt (s.fd.bytes.map byteInt) s.next] := by
  rw [reads_plain _ _ rfl, streamReads_file hs heof, byteAt_natCast, FileStream.pending,
    List.takeD_succ, List.head?_map, List.head?_map, List.head?_drop, List.getElem?_map]
  cases s.fd.bytes[s.next]? <;> rfl

/-- A seek by lseek(2). -/
theorem lseekTo_right (hs : h.stream.Sound) (line : Nat) (p : Int) :
    SeekRight getbFileHandle FileStream.eof h.fileContent h (h.lseekTo line p) ↔
      h.stream.fd.seekable = true ∧ 0 ≤ p ∨
        h.line = line ∧ (h.stream.eof = true ∨ h.stream.ptr = h.stream.end_) := by
  rw [Handle.lseekTo]
  by_cases hseek : h.stream.fd.seekable = true ∧ 0 ≤ p
  · rw [if_pos hseek]
    refine iff_of_true ?_ (.inl hseek)
    have hcast : (p.toNat : Int) = p := Int.toNat_of_nonneg hseek.2
    rw [seekRight_ok (by omega)]
    have hsound : FileStream.Sound
        { h.stream.forget with fd := { h.stream.fd with offset := p.toNat }, eof := false } :=
      ⟨Int.le_refl _, Int.le_refl _, Nat.zero_le _, hs.size, Nat.zero_le _, rfl⟩
    refine (reads_one hsound rfl).trans ?_
    show Except.ok [byteAt h.fileContent (p.toNat : Int)] = Except.ok [byteAt h.fileContent p]
    rw [hcast]
  · rw [if_neg hseek, or_iff_right hseek, ← pending_forget hs, ← streamReads_eq_iff hs hs.forget rfl]
    exact untouched_iff rfl

theorem place_le (hs : h.stream.Sound) {p : Int} (hbuffers : h.Buffers p) :
    h.place p ≤ h.stream.end_ := by
  have hplace : h.place p = h.stream.ptr - h.lead + (p - h.pos) := rfl
  have hlead : 0 ≤ h.lead := by
    rw [Handle.lead]
    split <;> decide
  have hptr := hs.high
  rw [Handle.Buffers] at hbuffers
  split at hbuffers
  · omega
  · exact Int.le_of_lt hbuffers

/-- A seek in the buffer. -/
theorem moveTo_right (hs : h.stream.Sound) (line : Nat) {p : Int} (hbuffers : h.Buffers p) :
    SeekRight getbFileHandle FileStream.eof h.fileContent h (h.moveTo line p) ↔
      0 ≤ h.place p ∧
        if p = -1 then h.line = line ∧ (h.stream.eof = true ∨ h.place p = h.stream.ptr)
        else byteAt h.fileContent (p + h.adrift) = byteAt h.fileContent p := by
  have hhigh := place_le hs hbuffers
  -- a pointer before the buffer
  have hlost (hneg : h.place p < 0) (eof : Bool) :
      streamReads getbFileHandle FileStream.eof 1 { h.stream with ptr := h.place p, eof := eof } =
        .error .undefined := by
    have hlt : h.place p < h.stream.end_ := Int.lt_of_lt_of_le hneg (Int.natCast_nonneg _)
    rw [streamReads, getbFileHandle, if_pos hlt, FileStream.fetch, if_pos hneg]
    rfl
  have hread : ∃ rs, streamReads getbFileHandle FileStream.eof 1 h.stream = .ok rs := by
    cases heof : h.stream.eof with
    | true => exact ⟨_, streamReads_eof hs heof 1⟩
    | false => exact ⟨_, streamReads_file hs heof 1⟩
  rw [Handle.moveTo]
  by_cases hp : p = -1
  · rw [if_pos hp, if_pos hp]
    refine (@untouched_iff _ _ _ h { h.stream with ptr := h.place p } line rfl).trans ?_
    by_cases hneg : h.place p < 0
    · refine iff_of_false (fun hsame => ?_) fun hand => absurd hand.1 (Int.not_le.mpr hneg)
      obtain ⟨rs, hrs⟩ := hread
      have hone := hsame.2 1
      rw [hlost hneg h.stream.eof, hrs] at hone
      cases hone
    · have hsound := hs.at (Int.not_lt.mp hneg) hhigh h.stream.eof
      rw [and_iff_right (Int.not_lt.mp hneg), ← pending_ptr hs hsound]
      exact and_congr_right fun _ => streamReads_eq_iff hs hsound rfl
  · rw [if_neg hp, if_neg hp]
    rw [seekRight_ok hp]
    by_cases hneg : h.place p < 0
    · refine iff_of_false (fun hsame => ?_) fun hand => absurd hand.1 (Int.not_le.mpr hneg)
      rw [reads_plain _ _ rfl, hlost hneg false] at hsame
      cases hsame
    · have hsound := hs.at (Int.not_lt.mp hneg) hhigh false
      have hnext : ((FileStream.next { h.stream with ptr := h.place p, eof := false } : Nat) : Int) =
          p + h.adrift := by
        have hinside := hs.inside
        have hnn := Int.not_lt.mp hneg
        have hplace : h.place p = h.stream.ptr - h.lead + (p - h.pos) := rfl
        show ((h.stream.fd.offset - h.stream.end_ + (h.place p).toNat : Nat) : Int) = p + h.adrift
        rw [Handle.adrift]
        omega
      rw [reads_one hsound rfl, hnext, and_iff_right (Int.not_lt.mp hneg)]
      exact ⟨fun hsame => (List.cons.inj (Except.ok.inj hsame)).1, fun hsame => by rw [← hsame]; rfl⟩

theorem file_seek_iff (seeks : Bool) (hs : h.stream.Sound) :
    SeekRight getbFileHandle FileStream.eof h.fileContent h
        (h.seek (fileSeekMethod seeks) offset whence) ↔ FileSeekHolds seeks h offset whence := by
  rw [FileSeekHolds]
  cases seeks with
  | false =>
    rw [if_pos rfl]
    refine (untouched_iff (rfl : h.stream.eof = h.stream.eof)).trans ?_
    exact and_iff_left fun n => rfl
  | true =>
    show SeekRight _ _ _ h (h.seek (some seekInputFile) offset whence) ↔ _
    rw [if_neg nofun, seek_file]
    by_cases hbuffers : whence ≠ .end_ ∧ h.Buffers (h.target h.stream.fd.bytes.length offset whence)
    · rw [if_pos hbuffers, if_pos hbuffers]
      exact moveTo_right hs _ hbuffers.2
    · rw [if_neg hbuffers, if_neg hbuffers]
      exact lseekTo_right hs _ _

theorem string_seek_iff {h : Handle StringStream} (hroom : h.stream.end_ ≤ h.stream.buf.length) :
    SeekRight getbStringStream StringStream.eof (h.stream.contents.map charInt) h
        (h.seek (some seekStringHandle) offset whence) ↔ StringSeekHolds h offset whence := by
  have hstart : Handle.soughtLine offset whence ≠ 0 → h.target h.stream.end_ offset whence = 0 := by
    intro hline
    rw [Handle.soughtLine] at hline
    split at hline
    · rename_i hset
      rw [hset.1, hset.2]
      rfl
    · exact absurd rfl hline
  rw [seek_stringHandle, StringSeekHolds]
  revert hstart
  generalize h.target h.stream.end_ offset whence = p, Handle.soughtLine offset whence = line
  intro hstart
  by_cases hin : 0 ≤ p ∧ p ≤ h.stream.end_
  · rw [if_pos hin]
    refine iff_of_true ?_ (.inl hin)
    obtain ⟨i, rfl⟩ := Int.eq_ofNat_of_zero_le hin.1
    have hi : i ≤ h.stream.end_ := Int.ofNat_le.mp hin.2
    rw [seekRight_ok (by omega), reads_plain _ _ rfl, byteAt_natCast, streamReads, getbStringStream]
    dsimp only [Int.toNat_natCast]
    by_cases hlt : i < h.stream.end_
    · have hget := List.getElem?_eq_getElem (Nat.lt_of_lt_of_le hlt hroom)
      rw [if_pos hlt, hget, List.getElem?_map, StringStream.contents, List.getElem?_take_of_lt hlt,
        hget]
      rfl
    · rw [if_neg hlt, List.getElem?_eq_none (by
        rw [List.length_map, StringStream.contents, List.length_take]
        omega)]
      rfl
  · rw [if_neg hin, or_iff_right hin]
    have hline : line = 0 := by
      by_contra hne
      rw [hstart hne] at hin
      exact hin ⟨Int.le_refl _, Int.natCast_nonneg _⟩
    rw [hline]
    constructor
    · intro hsame
      exact ⟨hsame.pos.symm, hsame.line.symm, hsame.lc.symm⟩
    · rintro ⟨hpos, hline, hlc⟩
      have hsame : (⟨h.stream, EOF, 0, -1⟩ : Handle StringStream) = h := by
        rw [← hpos, ← hline, ← hlc]
      show Handle.Untouched _ _ h ⟨h.stream, EOF, 0, -1⟩
      rw [hsame]
      exact ⟨rfl, rfl, rfl, fun _ => rfl⟩

/-- A handle on a file after some reads and some seeks that do what they are to do.  Others
that read or look ahead change the lookahead, the line and the position besides. -/
inductive FileReached (seeks : Bool) : Handle FileStream → Prop where
  | opened (fd : Descriptor) {buf : List Nat} (hsize : 0 < buf.length) :
      FileReached seeks (.ofStream ⟨fd, buf, 0, 0, false⟩)
  | getb {h h' : Handle FileStream} {r : Int} (hr : FileReached seeks h)
      (hget : h.getb getbFileHandle FileStream.eof = .ok (r, h')) : FileReached seeks h'
  | lookahead {h : Handle FileStream} (hr : FileReached seeks h) (lc : Int) (line : Nat) (pos : Int) :
      FileReached seeks ⟨h.stream, lc, line, pos⟩
  | seek {h h' : Handle FileStream} {offset : Int} {whence : SeekWhence} (hr : FileReached seeks h)
      (hholds : FileSeekHolds seeks h offset whence)
      (hseek : (∃ n, h.seek (fileSeekMethod seeks) offset whence = .ok (n, h')) ∨
        ∃ e, h.seek (fileSeekMethod seeks) offset whence = .error (e, h')) : FileReached seeks h'

theorem lseekTo_sound (hs : h.stream.Sound) {line : Nat} {p : Int} {h' : Handle FileStream}
    (hseek : (∃ n, h.lseekTo line p = .ok (n, h')) ∨ ∃ e, h.lseekTo line p = .error (e, h')) :
    h'.stream.Sound := by
  rw [Handle.lseekTo] at hseek
  split at hseek
  · obtain ⟨n, hok⟩ | ⟨e, herror⟩ := hseek
    · cases hok
      exact ⟨Int.le_refl _, Int.le_refl _, Nat.zero_le _, hs.size, Nat.zero_le _, rfl⟩
    · cases herror
  · obtain ⟨n, hok⟩ | ⟨e, herror⟩ := hseek
    · cases hok
    · cases herror
      exact hs.forget

theorem moveTo_sound (hs : h.stream.Sound) {line : Nat} {p : Int} {h' : Handle FileStream}
    (hlow : 0 ≤ h.place p) (hhigh : h.place p ≤ h.stream.end_)
    (hseek : (∃ n, h.moveTo line p = .ok (n, h')) ∨ ∃ e, h.moveTo line p = .error (e, h')) :
    h'.stream.Sound := by
  rw [Handle.moveTo] at hseek
  split at hseek
  · obtain ⟨n, hok⟩ | ⟨e, herror⟩ := hseek
    · cases hok
    · cases herror
      exact hs.at hlow hhigh _
  · obtain ⟨n, hok⟩ | ⟨e, herror⟩ := hseek
    · cases hok
      exact hs.at hlow hhigh _
    · cases herror

/-- A handle that has been reached has its pointer in the part of the file that its buffer is. -/
theorem FileReached.sound {seeks : Bool} (hr : FileReached seeks h) : h.stream.Sound := by
  induction hr with
  | opened fd hsize =>
    exact ⟨Int.le_refl _, Int.le_refl _, Nat.zero_le _, hsize, Nat.zero_le _, rfl⟩
  | @getb h h' r _ hget hs =>
    rw [Handle.getb] at hget
    split at hget
    · cases hget
      rw [Handle.count_stream]
      exact hs
    · obtain ⟨r', s', hmethod, hs', -⟩ := hs.getb
      rw [hmethod] at hget
      cases hget
      rw [Handle.count_stream]
      exact hs'
  | lookahead _ _ _ _ hs => exact hs
  | @seek h h' offset whence _ hholds hseek hs =>
    rw [FileSeekHolds] at hholds
    cases seeks with
    | false =>
      obtain ⟨n, hok⟩ | ⟨e, herror⟩ := hseek
      · cases hok
      · cases herror
        exact hs
    | true =>
      rw [if_neg nofun] at hholds
      rw [fileSeekMethod, if_pos rfl, seek_file] at hseek
      split at hseek
      · rename_i hbuffers
        rw [if_pos hbuffers] at hholds
        exact moveTo_sound hs hholds.1 (place_le hs hbuffers.2) hseek
      · exact lseekTo_sound hs hseek

/-- A seek leaves the handle as it was if it fails, and goes to the place that it returns,
exactly where the place is one in the string or the handle was left by a failed seek, and
where the buffer of a file has the byte, lseek(2) does what it is asked or nothing is lost
with the buffer. -/
theorem seek_handle {sh : Handle StringStream} {fh : Handle FileStream}
    (hsh : sh.stream.end_ ≤ sh.stream.buf.length) (hfh : fh.stream.Sound) (seeks : Bool)
    (offset : Int) (whence : SeekWhence) :
    (SeekRight getbStringStream StringStream.eof (sh.stream.contents.map charInt) sh
        (sh.seek (some seekStringHandle) offset whence) ↔ StringSeekHolds sh offset whence) ∧
      (SeekRight getbFileHandle FileStream.eof fh.fileContent fh
        (fh.seek (fileSeekMethod seeks) offset whence) ↔ FileSeekHolds seeks fh offset whence) :=
  ⟨string_seek_iff hsh, file_seek_iff seeks hfh⟩

/-- The string `ab`. -/
def abString : Handle StringStream := .ofStream ⟨[0x61, 0x62], 0, 2, false⟩

/-- A file with the contents `ab`. -/
def abFile : Handle FileStream :=
  .ofStream ⟨⟨true, false, 0, [0x61, 0x62], []⟩, [0, 0, 0, 0], 0, 0, false⟩

theorem seek_handle_ab :
    (SeekRight getbStringStream StringStream.eof (abString.stream.contents.map charInt) abString
        (abString.seek (some seekStringHandle) (-1) .end_) ↔ StringSeekHolds abString (-1) .end_) ∧
      (SeekRight getbFileHandle FileStream.eof abFile.fileContent abFile
        (abFile.seek (fileSeekMethod true) (-1) .end_) ↔ FileSeekHolds true abFile (-1) .end_) :=
  seek_handle (by decide) ⟨by decide, by decide, by decide, by decide, by decide, rfl⟩ true (-1) .end_

/-- In the string, a seek to 3 returns -1 and loses the position.  In the file, after a read,
a seek to -1 raises, and `b` is lost with the buffer.  After a look at the end, the position
is one less, and a seek to 0 finds `b`. -/
theorem seek_handle_adrift :
    ¬ SeekRight getbStringStream StringStream.eof (abString.stream.contents.map charInt) abString
        (abString.seek (some seekStringHandle) 3 .set) ∧
    (∃ h, abFile.getb getbFileHandle FileStream.eof = .ok (0x61, h) ∧
      ¬ SeekRight getbFileHandle FileStream.eof h.fileContent h
        (h.seek (fileSeekMethod true) (-1) .set)) ∧
    ∃ h₁ h₂ h₃ h, abFile.getb getbFileHandle FileStream.eof = .ok (0x61, h₁) ∧
      h₁.getb getbFileHandle FileStream.eof = .ok (0x62, h₂) ∧
      h₂.getb getbFileHandle FileStream.eof = .ok (EOF, h₃) ∧ h₃.ungetc EOF = .ok h ∧
      ¬ SeekRight getbFileHandle FileStream.eof h.fileContent h
        (h.seek (fileSeekMethod true) 0 .set) := by
  refine ⟨?_, ⟨_, rfl, ?_⟩, _, _, _, _, rfl, rfl, rfl, rfl, ?_⟩
  · rw [string_seek_iff (by decide)]
    unfold StringSeekHolds
    decide
  · rw [file_seek_iff true ⟨by decide, by decide, by decide, by decide, by decide, rfl⟩]
    unfold FileSeekHolds
    decide
  · rw [file_seek_iff true ⟨by decide, by decide, by decide, by decide, by decide, rfl⟩]
    unfold FileSeekHolds
    decide

end Seeks

end Idio
