/-
  Codegen/Running.lean --- running expressions.

  An expression is compiled at the end of an evaluation environment and run from there.  The
  machine returns with the world that the expression means, or has the error that it means, or
  goes on for ever where it means nothing with any fuel.
-/
import Idio.Codegen.Program

set_option autoImplicit false

namespace Idio.Codegen

open Idio.Machine Simulation

/-! ## An expression on its own -/

section Alone

variable {O S : Type} [DecidableEq O]

/-- An environment with nothing in it. -/
def Eenv.empty : Eenv O := ⟨[], [], [], [], [], []⟩

/-- What an expression in an empty environment has to be for its numbers to be good. -/
structure Alone (m : ICode O) : Prop where
  fits : Fits false m
  byteCode : (codegen (topLevel m) Eenv.empty).2.byteCode.length < 2 ^ 64
  cs : (codegen (topLevel m) Eenv.empty).2.cs.length < 2 ^ 64
  ses : (codegen (topLevel m) Eenv.empty).2.ses.length < 2 ^ 64
  nodup : ((added m Eenv.empty).map Function.vi).Nodup

/-- Execution environment 1 has the expression, and execution environment 0 has nothing. -/
def Alone.environments {m : ICode O} (h : Alone m) : Environments O where
  eenvs := [Eenv.empty, (codegen (topLevel m) Eenv.empty).2]
  home := fun _ _ => .module 0
  compiled := by
    intro e he
    rcases List.mem_cons.mp he with rfl | he
    · exact .start rfl
    · obtain rfl := List.mem_singleton.mp he
      exact .codegen (.start rfl) h.fits
  byteCode := by
    intro e he
    rcases List.mem_cons.mp he with rfl | he
    · exact Nat.two_pow_pos 64
    · obtain rfl := List.mem_singleton.mp he
      exact h.byteCode
  cs := by
    intro e he
    rcases List.mem_cons.mp he with rfl | he
    · exact Nat.two_pow_pos 64
    · obtain rfl := List.mem_singleton.mp he
      exact h.cs
  ses := by
    intro e he
    rcases List.mem_cons.mp he with rfl | he
    · exact Nat.two_pow_pos 64
    · obtain rfl := List.mem_singleton.mp he
      exact h.ses
  isModule := fun _ _ => rfl

/-- The place of an expression on its own. -/
def atStart : Place O := ⟨1, .module 0, .nil⟩

/-- The machine before it, with some memory, which will return to an empty execution
environment. -/
def State.start (mem : Memory O S) : State O S where
  xi := 1
  pc := 0
  func := .nil
  reg1 := .nil
  reg2 := .nil
  expr := .nil
  frame := .nil
  env := .module 0
  stack := [.marker .return_, .fixnum 0, .fixnum 0]
  mem := mem
  closures := []
  vt := fun _ _ => 0
  values := [.undef]

theorem Alone.ready {m : ICode O} (h : Alone m) (mem : Memory O S) :
    Ready h.environments.program Eenv.empty m atStart
      [.marker .return_, .fixnum 0, .fixnum 0] ⟨mem, []⟩ (State.start mem) := by
  refine Environments.ready rfl h.fits (.start rfl) Nat.one_ne_zero (fun _ _ => rfl) ?_
    ⟨0, 0, [], rfl, Nat.zero_lt_two, Nat.zero_le _⟩
  refine ⟨rfl, rfl, rfl, rfl, rfl, rfl, rfl, .nil, ?_, fun _ _ => rfl, h.nodup,
    List.cons_ne_nil _ _⟩
  intro xi f hf
  rcases xi with _ | _ | xi
  · cases hf
  · exact .inr ⟨rfl, hf⟩
  · cases hf

/-- A memory with nothing in it. -/
def Memory.empty : Memory Unit Unit := ⟨.undef, .false_, [], ()⟩

/-- A host that has nothing. -/
def Host.none : Host Unit Unit where
  pair := fun _ _ store => (.object (), store)
  constantRef := fun _ _ => .error .undefined
  symbolRef := fun _ _ _ _ _ => .error .undefined
  symbolSet := fun _ _ _ _ _ => .error .undefined
  primitiveRef := fun _ _ _ _ => .error .undefined
  primitive := fun _ _ _ _ => .error .undefined
  invoke := fun _ _ _ _ _ _ => .error .undefined
  abort := fun _ _ => (.nil, .nil)
  other := fun _ _ _ => .error .undefined

/-- An expression that is not in a file. -/
def noSrc : Src Unit := ⟨false, none⟩

/-- `((function (x) body) arg)`, the function of which has the number `vi` -/
def applied (body : ICode Unit) (vi : Nat) (arg : ICode Unit) : ICode Unit :=
  .regularCall noSrc (.fixClosure body ⟨.nil, 1, .nil, .nil, noSrc, vi⟩)
    (.storeArgument arg (.allocateFrame 1) 0)

theorem applied_fits {body arg : ICode Unit} {vi : Nat} (hpos : 0 < vi) (hlt : vi < 65536)
    (hbody : Fits true body) (harg : Fits false arg) : Fits false (applied body vi arg) := by
  have htwo : 1 + 1 < 2 ^ 31 := by decide
  exact ⟨⟨Nat.lt_trans htwo (by decide), hpos, hlt, hbody⟩, Nat.two_pow_pos 31, harg, htwo⟩

/-- `((function (x) x) 7)` -/
def identityCall : ICode Unit := applied (.shallowArgumentRef 0) 1 (.constantRef (.fixnum 7))

/-- `(7 7)` -/
def constantCall : ICode Unit :=
  .regularCall noSrc (.constantRef (.fixnum 7))
    (.storeArgument (.constantRef (.fixnum 7)) (.allocateFrame 1) 0)

/-- `(x x)` -/
def selfCall : ICode Unit :=
  .trRegularCall noSrc (.shallowArgumentRef 0)
    (.storeArgument (.shallowArgumentRef 0) (.allocateFrame 1) 0)

/-- `((function (x) (x x)) (function (x) (x x)))` -/
def omega : ICode Unit :=
  applied selfCall 1 (.fixClosure selfCall ⟨.nil, 1, .nil, .nil, noSrc, 2⟩)

theorem identityCall_alone : Alone identityCall where
  fits := applied_fits (by decide) (by decide) (Nat.two_pow_pos 64) ⟨by decide, by decide⟩
  byteCode := by decide
  cs := by decide
  ses := by decide
  nodup := by decide

theorem constantCall_alone : Alone constantCall where
  fits := ⟨⟨by decide, by decide⟩, Nat.two_pow_pos 31, ⟨by decide, by decide⟩,
    show 1 + 1 < 2 ^ 31 by decide⟩
  byteCode := by decide
  cs := by decide
  ses := by decide
  nodup := by decide

theorem selfCall_fits : Fits true selfCall :=
  ⟨rfl, Nat.two_pow_pos 64, Nat.two_pow_pos 31, Nat.two_pow_pos 64, show 1 + 1 < 2 ^ 31 by decide⟩

theorem omega_alone : Alone omega where
  fits := applied_fits (by decide) (by decide) selfCall_fits
    ⟨show 1 + 1 < 2 ^ 64 by decide, by decide, by decide, selfCall_fits⟩
  byteCode := by decide
  cs := by decide
  ses := by decide
  nodup := by decide

end Alone

/-! ## What an expression does -/

/-- The meaning of an expression, with some fuel: its functions are made, and then it is done
outside of any frame, and its commands may not fail. -/
def meaning {O S : Type} [DecidableEq O] (host : Host O S) (home : Home O) (n : Nat) (e : Eenv O)
    (m : ICode O) (k : Place O) (w : World O S) : Result (World O S) :=
  eval host home (call host home n) m k.outside ((w.load k (added m e)).withRcse .false_)

section

variable {O S : Type} [DecidableEq O] {host : Host O S} {es : Environments O} {e : Eenv O}
  {m : ICode O} {k : Place O} {stack : List (VmValue O)} {w w' : World O S} {s : State O S} {n : Nat}

variable (host) in
theorem Ready.meant (h : Ready es.program e m k stack w s) (n : Nat) :
    Does es.program host n (meaning host es.home n e m k w) (Returned es.program stack) s :=
  h.does es.sound n

/-- **An expression returns what it means**: where its meaning is a world, the machine returns,
with the stack that there was before and that world. -/
theorem expression_returns (h : Ready es.program e m k stack w s)
    (hw : meaning host es.home n e m k w = .ok w') :
    ∃ j s', steps (run1 es.program.img host) j s = .ok s' ∧ Returned es.program stack w' s' := by
  have hdoes := h.meant host n
  rw [hw] at hdoes
  exact Reaches.steps_eq hdoes

/-- The identity of 7. -/
theorem identityCall_returns :
    ∃ j s', steps (run1 identityCall_alone.environments.program.img Host.none) j (State.start Memory.empty) =
        .ok s' ∧
      Returned identityCall_alone.environments.program [.marker .return_, .fixnum 0, .fixnum 0]
        ⟨⟨.fixnum 7, .false_, [⟨.nil, 1, [.fixnum 7, .nil]⟩], ()⟩,
          [⟨1, ⟨false, 1, .shallowArgumentRef 0⟩, .nil, .module 0⟩,
            ⟨1, ⟨false, 1, .shallowArgumentRef 0⟩, .nil, .module 0⟩]⟩ s' :=
  expression_returns (n := 1) (identityCall_alone.ready _) rfl

omit [DecidableEq O] in
theorem World.load_frames (w : World O S) (k : Place O) (fs : List (Function O)) :
    (w.load k fs).mem.frames = w.mem.frames := by
  unfold World.load
  induction fs generalizing w with
  | nil => rfl
  | cons f fs ih => exact ih (w.create _)

/-- **The frames there are keep their links**, whatever an expression does with them: their
arguments may change, and there may be more frames afterwards. -/
theorem expression_keeps (h : Ready es.program e m k stack w s)
    (hw : meaning host es.home n e m k w = .ok w') :
    ∃ j s', steps (run1 es.program.img host) j s = .ok s' ∧
      Keeps s.mem.frames.length s.mem.frames s'.mem.frames := by
  have hdoes := h.meant host n
  rw [hw] at hdoes
  obtain ⟨j, s', hsteps, xi, pc, rest, env, frame, -, hat⟩ := Reaches.steps_eq hdoes
  have hkeeps := eval_keeps (call_applyKeeps n) m hw
  have hframes : ((w.load k (added m e)).withRcse .false_).mem.frames = s.mem.frames := by
    rw [h.loading.mem]
    exact w.load_frames k (added m e)
  unfold World.Keeps at hkeeps
  rw [hframes, ← hat.mem] at hkeeps
  exact ⟨j, s', hsteps, hkeeps⟩

/-- The identity of 7 beside a frame. -/
theorem identityCall_keeps :
    ∃ j s', steps (run1 identityCall_alone.environments.program.img Host.none) j
        (State.start { Memory.empty with frames := [⟨.nil, 1, [.fixnum 3, .nil]⟩] }) = .ok s' ∧
      Keeps 1 [⟨.nil, 1, [.fixnum 3, .nil]⟩] s'.mem.frames :=
  expression_keeps (n := 1) (identityCall_alone.ready _) rfl

/-- **An expression fails as it means to**: where its meaning is an error, the machine comes to
the same error. -/
theorem expression_fails {x : Fault} (h : Ready es.program e m k stack w s)
    (hw : meaning host es.home n e m k w = .error x) (hx : x ≠ .diverges) :
    ∃ j, steps (run1 es.program.img host) j s = .error x := by
  have hdoes := h.meant host n
  rw [hw] at hdoes
  rcases hdoes with hfails | ⟨hlost, -⟩
  · exact hfails.steps_eq
  · exact absurd hlost hx

/-- A number cannot be called. -/
theorem constantCall_fails :
    ∃ j, steps (run1 constantCall_alone.environments.program.img Host.none) j (State.start Memory.empty) =
      .error (.functionError "cannot invoke constant type") :=
  expression_fails (n := 1) (constantCall_alone.ready _) rfl (by decide)

/-- **An expression that means nothing goes on for ever**: where no fuel is enough, the machine
takes step after step, unless something that it calls does not return. -/
theorem expression_lasts (h : Ready es.program e m k stack w s)
    (hw : ∀ n, meaning host es.home n e m k w = .error .diverges) :
    Forever (run1 es.program.img host) s ∨
      ∃ j, steps (run1 es.program.img host) j s = .error .diverges := by
  by_cases hfails : Fails (run1 es.program.img host) .diverges s
  · exact .inr hfails.steps_eq
  · refine .inl fun n => ?_
    have hdoes := h.meant host n
    rw [hw n] at hdoes
    rcases hdoes with hno | ⟨-, hlasts⟩
    · exact absurd hno hfails
    · exact hlasts

theorem frameAt_some {frames : List (FrameObject Unit)} {b : Nat} {f : FrameObject Unit}
    (hf : frames[b]? = some f) : frameAt frames (.frame b) = .ok f := by
  unfold frameAt
  simp only [hf]

/-- A closure that calls what it is given with itself. -/
theorem selfCall_diverges {home : Home Unit} (n : Nat) {k : Place Unit} {rcse next : VmValue Unit}
    {frames : List (FrameObject Unit)} {closures : List (ClosureObject (Lambda Unit) Unit)}
    {cl : ClosureObject (Lambda Unit) Unit} {c d b xi : Nat} {fr env : VmValue Unit}
    {rest : List (VmValue Unit)} (hc : closures[c]? = some cl) (hcode : cl.code = ⟨false, 1, selfCall⟩)
    (hcl : closures[d]? = some ⟨xi, ⟨false, 1, selfCall⟩, fr, env⟩)
    (hf : frames[b]? = some ⟨next, 1, .closure c :: rest⟩) :
    call Host.none home n k (.closure d) ⟨⟨.frame b, rcse, frames, ()⟩, closures⟩ =
      .error .diverges := by
  obtain ⟨xi', code, fr', env'⟩ := cl
  dsimp only at hcode
  subst hcode
  induction n generalizing k next frames b rest d xi fr env with
  | zero => rfl
  | succ n ih =>
    obtain ⟨hlt, -⟩ := List.getElem?_eq_some_iff.mp hf
    let fs := frames.set b ⟨fr, 1, .closure c :: rest⟩
    let new : FrameObject Unit := ⟨.nil, 1, [.undef, .nil]⟩
    have hfs : fs[b]? = some ⟨fr, 1, .closure c :: rest⟩ := List.getElem?_set_self hlt
    have hnew : (fs ++ [new])[fs.length]? = some new := List.getElem?_concat_length
    have henter : Lambda.enter Host.none ⟨false, 1, selfCall⟩
        ⟨⟨.frame b, rcse, frames, ()⟩, closures⟩ = .ok ⟨⟨.frame b, rcse, frames, ()⟩, closures⟩ := by
      unfold Lambda.enter World.onMemory Memory.arityEq Memory.nargs
      simp only [frameAt_some hf]
      rfl
    have hlink : (World.onMemory ⟨⟨.frame b, rcse, frames, ()⟩, closures⟩ fun mem =>
        mem.link fr) = .ok ⟨⟨.frame b, rcse, fs, ()⟩, closures⟩ := by
      unfold World.onMemory Memory.link linkFrame
      simp only [frameAt_some hf]
      rfl
    have href : ∀ v, (World.onMemory ⟨⟨v, rcse, fs, ()⟩, closures⟩ fun mem =>
        mem.withVal (frameArgs mem.frames (.frame b) 0)) =
          .ok ⟨⟨.closure c, rcse, fs, ()⟩, closures⟩ := by
      intro v
      unfold World.onMemory frameArgs
      simp only [frameAt_some hfs]
      rfl
    have hpop : (World.onMemory ⟨⟨.frame fs.length, rcse, fs ++ [new], ()⟩, closures⟩ fun mem =>
        mem.popFrame 0 (.closure c)) =
          .ok ⟨⟨.frame fs.length, rcse, fs ++ [⟨.nil, 1, [.closure c, .nil]⟩], ()⟩, closures⟩ := by
      unfold World.onMemory Memory.popFrame frameUpdate frameUp frameRange setFrameArgs
      simp only [ok_bind, frameAt_some hnew]
      show Except.ok (World.mk ⟨_, _, (fs ++ [new]).set fs.length _, _⟩ _) = _
      rw [List.set_append_right _ _ (Nat.le_refl _), Nat.sub_self]
      rfl
    rw [call_closure hcl, henter, ok_bind]
    simp only [hlink, ok_bind]
    show (World.onMemory ⟨⟨.frame b, rcse, fs, ()⟩, closures⟩ (fun mem =>
      mem.withVal (frameArgs mem.frames (.frame b) 0)) >>= _) = _
    rw [href, ok_bind]
    show ((World.onMemory ⟨⟨.closure c, rcse, fs, ()⟩, closures⟩ (fun mem =>
      mem.withVal (frameArgs mem.frames (.frame b) 0)) >>= _) >>= _) = _
    rw [href, ok_bind]
    show (World.onMemory ⟨⟨.frame fs.length, rcse, fs ++ [new], ()⟩, closures⟩ (fun mem =>
      mem.popFrame 0 (.closure c)) >>= _) = _
    rw [hpop, ok_bind]
    exact ih hc List.getElem?_concat_length

theorem omega_diverges (n : Nat) :
    meaning Host.none omega_alone.environments.home n Eenv.empty omega atStart ⟨Memory.empty, []⟩ =
      .error .diverges := by
  let cl : ClosureObject (Lambda Unit) Unit := ⟨1, ⟨false, 1, selfCall⟩, .nil, .module 0⟩
  show call Host.none _ n ⟨1, .module 0, .nil⟩ (.closure 2)
    ⟨⟨.frame 0, .false_, [⟨.nil, 1, [.closure 3, .nil]⟩], ()⟩, [cl, cl, cl, cl]⟩ = _
  exact selfCall_diverges n rfl rfl rfl rfl

/-- What calls itself goes on for ever. -/
theorem omega_lasts :
    Forever (run1 omega_alone.environments.program.img Host.none) (State.start Memory.empty) ∨
      ∃ j, steps (run1 omega_alone.environments.program.img Host.none) j (State.start Memory.empty) =
        .error .diverges :=
  expression_lasts (omega_alone.ready _) omega_diverges

end

end Idio.Codegen
