/-
  Codegen/Meaning.lean --- what intermediate code means.

  `eval` runs a term on a memory and a list of closures, and knows no byte code, stack or PC: a
  term is done by doing its parts, the code of a let is done in the frame of its arguments, and
  a call does the body of the closure.  A closure holds the function it is a closure of.

  The parts of a term are done by recursion on the term, and calls by a fuel.
-/
import Idio.Codegen.Basic

set_option autoImplicit false

namespace Idio.Codegen

open Idio.Machine

/-! ## Worlds -/

/-- What intermediate code changes. -/
structure World (O S : Type) where
  mem : Memory O S
  closures : List (ClosureObject (Lambda O) O)

/-- Where intermediate code is: its execution environment, the module and the frame. -/
structure Place (O : Type) where
  xi : Nat
  env : VmValue O
  frame : VmValue O

namespace World

variable {O S : Type} (w : World O S)

/-- Something done to the memory. -/
def onMemory (f : Memory O S → Result (Memory O S)) : Result (World O S) := do
  let mem ← f w.mem
  return { w with mem := mem }

/-- With another `idio_command_suppress_rcse`. -/
def withRcse (rcse : VmValue O) : World O S := { w with mem := { w.mem with rcse := rcse } }

/-- Something done while commands may fail. -/
def suppressed (f : World O S → Result (World O S)) : Result (World O S) := do
  let w' ← f (w.withRcse .true_)
  return w'.withRcse w.mem.rcse

/-- Something done while commands may fail, unless it is in tail position. -/
def suppressedUnless (tailp : Bool) (f : World O S → Result (World O S)) : Result (World O S) :=
  if tailp then f w else w.suppressed f

/-- A new closure in VAL. -/
def create (cl : ClosureObject (Lambda O) O) : World O S where
  mem := { w.mem with val := .closure w.closures.length }
  closures := w.closures ++ [cl]

end World

/-! ## Evaluation -/

section

variable {O S : Type} (host : Host O S)

/-- The module that the functions of an execution environment are made in, by number. -/
abbrev Home (O : Type) : Type := Nat → Nat → VmValue O

variable (home : Home O) (apply : Place O → VmValue O → World O S → Result (World O S))

/-- A function's arguments, checked. -/
def Lambda.enter (lambda : Lambda O) (w : World O S) : Result (World O S) :=
  if lambda.nary then do
    let w ← w.onMemory fun mem => mem.arityGe (lambda.arity + 1)
    w.onMemory fun mem => mem.pack host lambda.arity
  else w.onMemory fun mem => mem.arityEq (lambda.arity + 1)

/-- A primitive, with its arguments. -/
def primcall (k : Place O) (pd : Nat) (args : List (VmValue O)) (w : World O S) :
    Result (World O S) := do
  let (_, mem) ← w.mem.primcall host k.xi k.env pd args
  return { w with mem := mem }

/-- A clause of an AND or OR, with the clauses after it. -/
def evalClause (tailp : Bool) (mt : ICodes O) (f : World O S → Result (World O S))
    (w : World O S) : Result (World O S) :=
  match mt, tailp with
  | .nil, true => f w
  | _, _ => w.suppressed f

mutual

/-- The meaning of a term in a place. -/
def eval : ICode O → Place O → World O S → Result (World O S)
  | .shallowArgumentRef j, k, w =>
      w.onMemory fun mem => mem.withVal (frameArgs mem.frames k.frame j)
  | .deepArgumentRef i j, k, w =>
      w.onMemory fun mem => mem.withVal (frameFetch mem.frames k.frame i j)
  | .shallowArgumentSet j m1, k, w => do
      let w ← eval m1 k w
      w.onMemory fun mem => mem.withFrames (setFrameArgs mem.frames k.frame j mem.val)
  | .deepArgumentSet i j m1, k, w => do
      let w ← eval m1 k w
      w.onMemory fun mem => mem.withFrames (frameUpdate mem.frames k.frame i j mem.val)
  | .symbolRef r, k, w =>
      w.onMemory fun mem => mem.withHost (host.symbolRef r k.xi k.env mem.val)
  | .symbolSet _ a m1, k, w => do
      let w ← eval m1 k w
      w.onMemory fun mem => mem.withHost (host.symbolSet a k.xi k.env mem.val)
  | .constantRef c, _, w => w.onMemory fun mem => mem.constantRef host c
  | .alternative _ m1 m2 m3, k, w => do
      let w ← w.suppressed fun w => eval m1 k w
      if w.mem.val.isFalse then eval m3 k w else eval m2 k w
  | .sequence m1 mp, k, w => do
      let w ← eval m1 k w
      eval mp k w
  | .trFixLet ms mp _ _, k, w | .fixLet ms mp _ _, k, w => do
      let w ← evalArguments ms k w
      let fo := w.mem.val
      let w ← w.onMemory fun mem => mem.link k.frame
      eval mp { k with frame := fo } w
  | .local_ _ i m1 mp _ n, k, w => do
      let w ← eval m1 k w
      let w ← w.onMemory fun mem => mem.withFrames (extendFrame mem.frames k.frame n)
      let w ← w.onMemory fun mem => mem.withFrames (setFrameArgs mem.frames k.frame i mem.val)
      eval mp k w
  | .primcall0 _ pd, k, w => primcall host k pd [] w
  | .primcall1 _ m1 pd, k, w => do
      let w ← eval m1 k w
      primcall host k pd [w.mem.val] w
  | .primcall2 _ m1 m2 pd, k, w => do
      let w ← eval m1 k w
      let v := w.mem.val
      let w ← eval m2 k w
      primcall host k pd [v, w.mem.val] w
  | .trRegularCall _ m1 ms, k, w | .regularCall _ m1 ms, k, w => do
      let w ← eval m1 k w
      let func := w.mem.val
      let w ← evalArguments ms k w
      apply k func w
  | .closure nary mp a, k, w =>
      .ok (w.create ⟨k.xi, ⟨nary, a.arity, mp⟩, k.frame, home k.xi a.vi⟩)
  | .and_ tailp m1 mt, k, w => do
      let w ← evalClause tailp mt (fun w => eval m1 k w) w
      evalClauses tailp (fun v => v.isFalse) mt k w
  | .or_ tailp m1 mt, k, w => do
      let w ← evalClause tailp mt (fun w => eval m1 k w) w
      evalClauses tailp (fun v => !v.isFalse) mt k w
  | .begin_ _ m1 mt, k, w | .list m1 mt, k, w => do
      let w ← eval m1 k w
      evalList mt k w
  | .not tailp m1, k, w => do
      let w ← w.suppressedUnless tailp fun w => eval m1 k w
      w.onMemory fun mem => .ok mem.not
  | .return_, _, _ | .pushAbort _, _, _ | .popAbort, _, _ => .error .undefined
  | .nop, _, w => .ok w

/-- The meaning of a list. -/
def evalList : ICodes O → Place O → World O S → Result (World O S)
  | .nil, _, w => .ok w
  | .cons m mt, k, w => do
      let w ← eval m k w
      evalList mt k w

/-- The clauses of an AND or OR, until VAL is one to stop at. -/
def evalClauses (tailp : Bool) (stop : VmValue O → Bool) :
    ICodes O → Place O → World O S → Result (World O S)
  | .nil, _, w => .ok w
  | .cons m mt, k, w =>
      if stop w.mem.val then .ok w
      else do
        let w ← evalClause tailp mt (fun w => eval m k w) w
        evalClauses tailp stop mt k w

/-- A frame of arguments in VAL. -/
def evalArguments : Arguments O → Place O → World O S → Result (World O S)
  | .allocateFrame arity, _, w => w.onMemory fun mem => mem.allocate (arity + 1)
  | .allocateDottedFrame arity, _, w => w.onMemory fun mem => mem.allocateDotted (arity + 1)
  | .reuseFrame arity, _, w => w.onMemory fun mem => mem.allocate (arity + 1)
  | .storeArgument m1 ms rank, k, w => do
      let w ← eval m1 k w
      let v := w.mem.val
      let w ← evalArguments ms k w
      w.onMemory fun mem => mem.popFrame rank v
  | .listArgument m1 ms arity, k, w => do
      let w ← eval m1 k w
      let v := w.mem.val
      let w ← evalArguments ms k w
      w.onMemory fun mem => mem.popListFrame host arity v

end

/-- A call, with some fuel. -/
def call : Nat → Place O → VmValue O → World O S → Result (World O S)
  | 0, _, _, _ => .error .diverges
  | n + 1, k, func, w =>
      match func with
      | .closure c => match w.closures[c]? with
          | some cl => do
              let w ← cl.code.enter host w
              let fo := w.mem.val
              let w ← w.onMemory fun mem => mem.link cl.frame
              eval host home (call n) cl.code.body ⟨cl.xi, cl.env, fo⟩ w
          | none => .error .undefined
      | _ => w.onMemory fun mem => mem.invoke host func k.xi k.env

variable {host home} {n : Nat} {k : Place O} {w : World O S}

theorem call_other {func : VmValue O} (hno : ∀ c, func ≠ .closure c) :
    call host home (n + 1) k func w = w.onMemory fun mem => mem.invoke host func k.xi k.env := by
  cases func with
  | closure c => exact absurd rfl (hno c)
  | _ => rfl

theorem call_closure {c : Nat} {cl : ClosureObject (Lambda O) O} (hcl : w.closures[c]? = some cl) :
    call host home (n + 1) k (.closure c) w = (do
      let w ← cl.code.enter host w
      let fo := w.mem.val
      let w ← w.onMemory fun mem => mem.link cl.frame
      eval host home (call host home n) cl.code.body ⟨cl.xi, cl.env, fo⟩ w) := by
  unfold call
  simp only [hcl]

theorem call_none {c : Nat} (hcl : w.closures[c]? = none) :
    call host home (n + 1) k (.closure c) w = .error .undefined := by
  unfold call
  simp only [hcl]

end

end Idio.Codegen
