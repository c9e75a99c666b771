/-
  Delim/Holes.lean --- delimited control with a stack of holes.

  delim-control.idio implements the control operators with undelimited continuations
  and a list of holes, each a tag, a mark and a continuation.  A continuation is here
  the list of frames it consists of, with the list of holes at its capture, which
  calling it restores; `abort-top!` is a frame, since what lies below it is never
  returned to.

  The procedures that the module defines for `dynamic-wind` are values like those of
  a program, whose code is a parameter.

  As calling a continuation restores the holes of its capture, what was pushed before
  the call is lost: so are the holes that `invoke-subcont` pushes.
-/
import Idio.Basic
import Idio.Lib.Prompts

set_option autoImplicit false

namespace Idio.Delim

open Prompts (Entry Act Language)

/-! ## Values and frames -/

/-- A prompt tag. -/
abbrev Tag : Type := Nat

/-- `unwind-protect-tag` -/
def unwindProtectTag : Tag := 0

/-- `yield-tag` -/
def yieldTag : Tag := 1

/-- A value of a program with code of type `C`. -/
inductive Value (C : Type) where
  | user (c : C) (env : List (Value C))
  | unspec
  | false_
  /-- `invoke-subcont` of `control-shift-at*` -/
  | subcont (n : Nat)
  /-- `(function (v) (unwind-to* tag v))` -/
  | unwindTo (tag : Tag)
  /-- `(function (v) (abort-to* tag v))` -/
  | abortTo (tag : Tag)
  | yieldRecord (v k : Value C)
  /-- `(function (k) (make-yield-record v k))` -/
  | makeYieldRecord (v : Value C)
  /-- `(function () (dynamic-wind before thunk after))` -/
  | wind (before thunk after : Value C)
  /-- the first argument of `dwy-loop` -/
  | windThunk (thunk : Value C)
  /-- the body of the prompt of `dwy-loop` -/
  | windPrompt (before after th : Value C)
  /-- `(function (dwy-k) ...)` of `dwy-loop` -/
  | windControl (before after th : Value C)
  /-- the argument of `dwy-loop` after a yield -/
  | windReenter (k reenter : Value C)
  /-- `dw/before` of `unwind-protect` -/
  | windBefore

/-- The frames of a program, and those of `dwy-loop`. -/
inductive Frame (C : Type) where
  | user (c : C) (env : List (Value C))
  /-- `((function (res) (after-thunk) res) [])` -/
  | applyAfter (after : Value C)
  /-- `{ []; res }` -/
  | thenReturn (res : Value C)
  /-- `{ []; res := (th); ... }` -/
  | windBody (k before after th : Value C)
  /-- `res := []` -/
  | windResult (k before after : Value C)
  /-- `{ []; (try-yield res ...) }` -/
  | windTry (res before after : Value C)
  /-- `reenter := []` -/
  | windYielded (k before after : Value C)

/-- What the code of a program does when it is called and when it is returned to. -/
structure Program (C S : Type) where
  code : C → List (Value C) → Value C → S → Act (Value C) (Frame C) Tag × S
  resume : C → List (Value C) → Value C → S → Act (Value C) (Frame C) Tag × S

section Code

variable {C S : Type}

/-- `dwy-loop` -/
def dwyLoop (before after th : Value C) : Act (Value C) (Frame C) Tag :=
  .prompt unwindProtectTag (.windPrompt before after th)

/-- `yield/control-at` -/
def yield (v : Value C) : Act (Value C) (Frame C) Tag :=
  .control false yieldTag (.makeYieldRecord v)

/-- `unwind-protect` -/
def unwindProtect (body cleanup : Value C) : Value C :=
  .wind .windBefore body cleanup

/-- The application of a procedure that neither is a captured continuation nor
unwinds. -/
def applyValue (P : Program C S) (f v : Value C) (s : S) :
    Option (Act (Value C) (Frame C) Tag × S) :=
  match f with
  | .user c env => some (P.code c env v s)
  | .makeYieldRecord w => some (.ret (.yieldRecord w v), s)
  | .wind before thunk after => some (dwyLoop before after (.windThunk thunk), s)
  | .windThunk thunk => some (.prompt yieldTag thunk, s)
  | .windPrompt before after th =>
      some (.push (.applyAfter after) (.control false unwindProtectTag (.windControl before after th)), s)
  | .windControl before after th =>
      some (.push (.windBody v before after th) (.call before .unspec), s)
  | .windReenter k reenter => some (.call k reenter, s)
  | .windBefore => some (.ret .false_, s)
  | .unspec | .false_ | .subcont _ | .unwindTo _ | .abortTo _ | .yieldRecord _ _ => none

/-- What a frame does with the value it is returned. -/
def resumeFrame (P : Program C S) (f : Frame C) (v : Value C) (s : S) :
    Act (Value C) (Frame C) Tag × S :=
  match f with
  | .user c env => P.resume c env v s
  | .applyAfter after => (.push (.thenReturn v) (.call after .unspec), s)
  | .thenReturn res => (.ret res, s)
  | .windBody k before after th =>
      (.push (.windResult k before after) (.call th .unspec), s)
  | .windResult k before after => (.push (.windTry v before after) (.call k v), s)
  | .windTry res before after =>
      match res with
      | .yieldRecord w k => (.push (.windYielded k before after) (yield w), s)
      | _ => (.ret res, s)
  | .windYielded k before after => (dwyLoop before after (.windReenter k v), s)

/-- The language of a program. -/
def language (P : Program C S) : Language (Value C) (Frame C) Tag S where
  unit := .unspec
  subcont := .subcont
  asSubcont
    | .subcont n => some n
    | _ => none
  apply := applyValue P
  resume := resumeFrame P

end Code

/-! ## Holes -/

/-- An entry of a continuation. -/
inductive KFrame (C : Type) where
  | frame (f : Frame C)
  /-- `(abort-top! [])` -/
  | abortTop

/-- `((tag & mark) & k)` -/
structure Hole (C : Type) where
  tag : Tag
  marked : Bool
  k : List (KFrame C)
  /-- the holes at the capture of `k` -/
  holes : List (Hole C)

/-- What `invoke-subcont` holds on to. -/
structure Subcont (C : Type) where
  shift : Bool
  tag : Tag
  controlK : List (KFrame C)
  /-- the holes at the capture of `control-k` -/
  controlHoles : List (Hole C)
  holesPrefix : List (Hole C)

/-- The state of the interpreter: what it does, the continuation, the holes and the
continuations captured so far. -/
structure State (C S : Type) where
  act : Act (Value C) (Frame C) Tag
  k : List (KFrame C)
  holes : List (Hole C)
  subs : List (Subcont C)
  store : S

section Operators

variable {C S : Type}

/-- `idio_vm_restore_continuation` -/
def restore (k : List (KFrame C)) (holes : List (Hole C)) (v : Value C) (st : State C S) :
    State C S :=
  { st with act := .ret v, k := k, holes := holes }

/-- `abort-top!` -/
def abortTop (v : Value C) (st : State C S) : Result (State C S) :=
  match st.holes with
  | [] => .error .undefined
  | h :: hs => .ok (restore h.k h.holes v { st with holes := hs })

/-- `hole-tagged?` -/
def Hole.tagged (h : Hole C) (tag : Tag) : Bool :=
  decide (h.tag = tag) && h.marked

/-- `tag-exists?` -/
def tagExists (hs : List (Hole C)) (tag : Tag) : Bool :=
  hs.any fun h => decide (h.tag = tag)

/-- `unwind-till-tagged!`, with the holes it leaves -/
def unwindTillTagged (tag : Tag) : List (Hole C) → Result (List (Hole C) × List (Hole C))
  | [] => .error (.variableUnbound "tag unbound" "unwind-to*")
  | h :: hs =>
      if tagExists (h :: hs) tag then
        if h.tagged tag then .ok ([], h :: hs)
        else do
          let r ← unwindTillTagged tag hs
          .ok (h :: r.1, r.2)
      else .error (.variableUnbound "tag unbound" "unwind-to*")

/-- `unwind-till-marked!`, with the holes it leaves -/
def unwindTillMarked : List (Hole C) → Result (List (Hole C) × List (Hole C))
  | [] => .error .undefined
  | h :: hs =>
      if h.marked then .ok ([], h :: hs)
      else do
        let r ← unwindTillMarked hs
        .ok (h :: r.1, r.2)

/-- `for-each vm/hole-push! l` -/
def pushAll (l hs : List (Hole C)) : List (Hole C) :=
  l.foldl (fun hs h => h :: hs) hs

/-- `prompt-at*` -/
def promptAt (tag : Tag) (thunk : Value C) (st : State C S) : State C S :=
  { st with act := .call thunk .unspec, k := .abortTop :: st.k,
            holes := ⟨tag, true, st.k, st.holes⟩ :: st.holes }

/-- `control-shift-at*` -/
def controlShiftAt (shift : Bool) (tag : Tag) (f : Value C) (st : State C S) :
    Result (State C S) := do
  let r ← unwindTillMarked st.holes
  .ok { st with act := .call f (.subcont st.subs.length), k := .abortTop :: st.k, holes := r.2,
                subs := st.subs ++ [⟨shift, tag, st.k, st.holes, r.1.reverse⟩] }

/-- `invoke-subcont` -/
def invokeSubcont (sub : Subcont C) (v : Value C) (st : State C S) : State C S :=
  -- `control-k` restores the holes of its capture: what is pushed here is lost
  restore sub.controlK sub.controlHoles v
    { st with holes :=
        pushAll sub.holesPrefix (⟨sub.tag, sub.shift, st.k, st.holes⟩ :: st.holes) }

/-- The loop of `unwind-to*`: the holes that follow those of `unwind-protect` are pushed
again. -/
def unwindLoop : List (Hole C) → List (Hole C) → List (Hole C)
  | [], hs => hs
  | [_], hs => hs
  | h :: y :: rest, hs =>
      if h.tagged unwindProtectTag then unwindLoop rest (y :: hs) else unwindLoop (y :: rest) hs

/-- `unwind-to*` -/
def unwindToStar (tag : Tag) (v : Value C) (st : State C S) : Result (State C S) := do
  let r ← unwindTillTagged tag st.holes
  abortTop v { st with holes := unwindLoop r.1.reverse r.2 }

/-- `abort-to*` -/
def abortToStar (tag : Tag) (v : Value C) (st : State C S) : Result (State C S) := do
  let r ← unwindTillTagged tag st.holes
  abortTop v { st with holes := r.2 }

variable (P : Program C S)

/-- One step; `none` when the program has returned. -/
def step (st : State C S) : Result (Option (State C S)) :=
  match st.act with
  | .ret v =>
      match st.k with
      | [] => .ok none
      | .frame f :: k =>
          let r := resumeFrame P f v st.store
          .ok (some { st with act := r.1, k := k, store := r.2 })
      | .abortTop :: _ => some <$> abortTop v st
  | .push f a => .ok (some { st with act := a, k := .frame f :: st.k })
  | .prompt tag thunk => .ok (some (promptAt tag thunk st))
  | .control shift tag f => some <$> controlShiftAt shift tag f st
  | .call (.subcont n) v =>
      match st.subs[n]? with
      | none => .error .undefined
      | some sub => .ok (some (invokeSubcont sub v st))
  | .call (.unwindTo tag) v => some <$> unwindToStar tag v st
  | .call (.abortTo tag) v => some <$> abortToStar tag v st
  | .call f v =>
      match applyValue P f v st.store with
      | none => .error (.functionError "cannot invoke constant type")
      | some r => .ok (some { st with act := r.1, store := r.2 })

/-- Any number of steps. -/
def Steps : State C S → State C S → Prop :=
  Relation.ReflTransGen fun st st' => step P st = .ok (some st')

/-- `n` steps. -/
def stepTimes : Nat → State C S → Option (State C S)
  | 0, st => some st
  | n + 1, st => match step P st with
      | .ok (some st') => stepTimes n st'
      | _ => none

variable {P} in
theorem steps_of_times (n : Nat) {st st' : State C S} (h : stepTimes P n st = some st') :
    Steps P st st' := by
  induction n generalizing st with
  | zero =>
    cases h
    exact .refl
  | succ n ih =>
    rw [stepTimes] at h
    split at h
    · rename_i mid hmid
      exact .head hmid (ih h)
    · cases h

end Operators

end Idio.Delim
