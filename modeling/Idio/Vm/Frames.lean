/-
  Vm/Frames.lean --- frames and the memory that instructions work on.

  A frame holds the arguments of a call and points at the frame of the code around it.  Frames
  are shared, by the closures made in them, and changed, so they are in a memory.  The frames of
  the memory are numbered in the order they are made in.

  Beside the frames the memory has VAL, `idio_command_suppress_rcse`, and a store that stands for
  everything only primitives, symbols and commands get at.  What a frame holds for the sake of
  error messages (the function, the names of the arguments, the source expression) is left out.
-/
import Idio.Vm.Thread

set_option autoImplicit false

namespace Idio.Machine

/-! ## Values -/

/-- `IDIO`, by what the instructions tell apart. -/
inductive VmValue (O : Type) where
  /-- `IDIO_FIXNUM` -/
  | fixnum (v : Int)
  /-- `IDIO_CONSTANT_IDIO` -/
  | constant (v : Int)
  /-- `IDIO_UNICODE` -/
  | unicode (v : Nat)
  | frame (a : Nat)
  | closure (a : Nat)
  | module (a : Nat)
  /-- any other object -/
  | object (o : O)
  deriving DecidableEq, Repr

namespace VmValue

variable {O : Type}

/-- `idio_S_nil` -/
def nil : VmValue O := .constant 0

/-- `idio_S_undef` -/
def undef : VmValue O := .constant 1

/-- `idio_S_true` -/
def true_ : VmValue O := .constant 4

/-- `idio_S_false` -/
def false_ : VmValue O := .constant 5

/-- A stack marker. -/
def marker (m : Marker) : VmValue O := .constant m.number

end VmValue

/-- `idio_frame_t`, with as many arguments as NALLOC says. -/
structure FrameObject (O : Type) where
  next : VmValue O
  nparams : Nat
  args : List (VmValue O)
  deriving DecidableEq, Repr

/-- What instructions work on, beside the registers, the stack and the closures. -/
structure Memory (O S : Type) where
  val : VmValue O
  /-- `idio_command_suppress_rcse` -/
  rcse : VmValue O
  frames : List (FrameObject O)
  store : S
  deriving Repr

/-! ## Frames -/

section Frames

variable {O : Type}

/-- What a frame points at. -/
def frameAt (frames : List (FrameObject O)) : VmValue O → Result (FrameObject O)
  | .frame a => match frames[a]? with
      | some f => .ok f
      | none => .error .undefined
  | _ => .error .undefined

/-- A frame in place of the one that `fo` points at. -/
def setFrame (frames : List (FrameObject O)) (fo : VmValue O) (f : FrameObject O) :
    List (FrameObject O) :=
  match fo with
  | .frame a => frames.set a f
  | _ => frames

/-- `idio_frame_allocate` -/
def frameAllocate (frames : List (FrameObject O)) (arityp1 : Int) :
    Result (VmValue O × List (FrameObject O)) :=
  if arityp1 ≤ 0 then .error .undefined
  else
    let nparams := (arityp1 - 1).toNat
    .ok (.frame frames.length,
      frames ++ [⟨.nil, nparams, List.replicate nparams .undef ++ [.nil]⟩])

/-- `IDIO_FRAME_ARGS`, to be read. -/
def frameArgs (frames : List (FrameObject O)) (fo : VmValue O) (i : Int) : Result (VmValue O) := do
  let f ← frameAt frames fo
  if i < 0 then .error .undefined
  else match f.args[i.toNat]? with
    | some v => .ok v
    | none => .error .undefined

/-- `IDIO_FRAME_ARGS`, to be written. -/
def setFrameArgs (frames : List (FrameObject O)) (fo : VmValue O) (i : Int) (v : VmValue O) :
    Result (List (FrameObject O)) := do
  let f ← frameAt frames fo
  if i < 0 ∨ (f.args.length : Int) ≤ i then .error .undefined
  else .ok (setFrame frames fo { f with args := f.args.set i.toNat v })

/-- The loops that follow `d` links. -/
def frameUp (frames : List (FrameObject O)) : Nat → VmValue O → Result (VmValue O)
  | 0, fo => .ok fo
  | d + 1, fo => do
      let f ← frameAt frames fo
      frameUp frames d f.next

/-- The check of an index against NALLOC. -/
def frameRange (frames : List (FrameObject O)) (fo : VmValue O) (i : Int) : Result Unit := do
  let f ← frameAt frames fo
  if (f.args.length : Int) ≤ i then
    .error (.codingError s!"frame #0 index #{i} is out of range")
  else .ok ()

/-- `idio_frame_fetch` -/
def frameFetch (frames : List (FrameObject O)) (fo : VmValue O) (d : Nat) (i : Int) :
    Result (VmValue O) := do
  let fo ← frameUp frames d fo
  frameRange frames fo i
  frameArgs frames fo i

/-- `idio_frame_update` -/
def frameUpdate (frames : List (FrameObject O)) (fo : VmValue O) (d : Nat) (i : Int) (v : VmValue O) :
    Result (List (FrameObject O)) := do
  let fo ← frameUp frames d fo
  frameRange frames fo i
  setFrameArgs frames fo i v

/-- `idio_link_frame` -/
def linkFrame (frames : List (FrameObject O)) (f1 f2 : VmValue O) :
    Result (List (FrameObject O)) :=
  match f2 with
  | .frame _ => do
      let f ← frameAt frames f2
      .ok (setFrame frames f2 { f with next := f1 })
  | _ => .error (.paramType "frame")

/-- `idio_extend_frame` -/
def extendFrame (frames : List (FrameObject O)) (fo : VmValue O) (nalloc : Int) :
    Result (List (FrameObject O)) := do
  let f ← frameAt frames fo
  if (f.nparams : Int) + 1 = nalloc then .ok frames
  else if nalloc < f.args.length then .ok frames
  else
    let more := (nalloc - f.args.length).toNat
    .ok (setFrame frames fo { f with args := f.args ++ List.replicate more .undef })

/-- The index that an operand is, as an `idio_fi_t`. -/
def frameIndex (v : UInt64) : Int := (v.toNat : Int).bmod (2 ^ 32)

theorem frameIndex_eq {v : UInt64} (h : v.toNat < 2 ^ 31) : frameIndex v = v.toNat := by
  have hle : (v.toNat : Int) < 2 ^ 31 := by exact_mod_cast h
  exact Int.bmod_eq_of_le (by omega) (by omega)

end Frames

end Idio.Machine
