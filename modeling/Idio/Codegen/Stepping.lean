/-
  Codegen/Stepping.lean --- the machine at a place of a world.

  `At` says that the machine is at some byte of the code of a place, with a stack, and has the
  memory of a world and a closure for each closure of the world.  The closures are not the same:
  the machine has the PC of a function where the world has the function.  A `Program` is an image
  with the functions in it, which have all been made and are found in the tables of values.

  One instruction at a time, the machine at a place of a world comes to the next place with the
  world after it.
-/
import Idio.Codegen.Keeping
import Idio.Codegen.Layout
import Idio.Lib.Simulation
import Mathlib.Data.List.Forall2

set_option autoImplicit false

namespace Idio.Codegen

open Idio.Machine Simulation

/-! ## Programs -/

/-- Code that is run: an image, the functions in it and the modules they were made in. -/
structure Program (O : Type) where
  img : Image O
  functions : Nat → List (Function O)
  home : Home O

section Program

variable {O S : Type} [DecidableEq O] (p : Program O)

/-- What an evaluation environment has is in the image. -/
structure Built (xi : Nat) (e : Eenv O) : Prop where
  cs : e.cs <+: p.img.constants xi
  ses : e.ses.length < 2 ^ 64
  functions : ∀ f ∈ e.functions, f ∈ p.functions xi

/-- The code of a function is at a place. -/
def FunctionAt (xi pc : Nat) (lambda : Lambda O) : Prop :=
  ∃ e fci sei,
    Located (p.img.byteCode xi) pc
      (functionCode lambda.nary lambda.arity fci sei (compile lambda.body e).1) ∧
    Built p xi (compile lambda.body e).2 ∧ Fits true lambda.body ∧ lambda.arity + 1 < 2 ^ 64

/-- The functions of the image are where they are said to be, and the image is not too large. -/
structure Program.Sound : Prop where
  code : ∀ xi, (p.img.byteCode xi).length < 2 ^ 64
  constants : ∀ xi, (p.img.constants xi).length < 2 ^ 64
  home : ∀ xi vi, (p.home xi vi).isModule = true
  functions : ∀ xi, ∀ f ∈ p.functions xi, FunctionAt p xi f.pc f.lambda

/-- A function has been made, and is found by its number. -/
def Made (xi : Nat) (f : Function O) (s : State O S) : Prop :=
  ∃ cl, s.functionAt xi f.vi = some cl ∧ cl.xi = xi ∧ cl.code = f.pc ∧ cl.env = p.home xi f.vi

/-- The functions of the image have been made. -/
def Linked (s : State O S) : Prop := ∀ xi, ∀ f ∈ p.functions xi, Made p xi f s

/-- A closure of the machine is a closure of the world. -/
structure ClosureAt (cl : ClosureObject (Lambda O) O) (cl' : ClosureObject Nat O) : Prop where
  xi : cl'.xi = cl.xi
  frame : cl'.frame = cl.frame
  env : cl'.env = cl.env
  module : cl.env.isModule = true
  code : FunctionAt p cl.xi cl'.code cl.code

/-- The machine at a place of a world. -/
structure At (k : Place O) (stack : List (VmValue O)) (pc : Nat) (w : World O S) (s : State O S) :
    Prop where
  xi : s.xi = k.xi
  env : s.env = k.env
  module : k.env.isModule = true
  frame : s.frame = k.frame
  stack : s.stack = stack
  pc : s.pc = pc
  mem : s.mem = w.mem
  closures : List.Forall₂ (ClosureAt p) w.closures s.closures
  linked : Linked p s

/-- The stack to return with. -/
def IsReturn (stack : List (VmValue O)) : Prop :=
  ∃ (xi pc : Nat) (rest : List (VmValue O)),
    stack = .marker .return_ :: .fixnum xi :: .fixnum pc :: rest ∧ xi < p.img.length ∧
      pc ≤ (p.img.byteCode xi).length

/-- The machine has returned. -/
def Returned (stack : List (VmValue O)) (w : World O S) (s : State O S) : Prop :=
  ∃ (xi pc : Nat) (rest : List (VmValue O)) (env frame : VmValue O),
    stack = .marker .return_ :: .fixnum xi :: .fixnum pc :: rest ∧
      At p ⟨xi, env, frame⟩ rest pc w s

/-- The machine at the end of some code, or returned from code in tail position. -/
def Ends (tail : Bool) (k : Place O) (stack : List (VmValue O)) (pc : Nat) (w : World O S)
    (s : State O S) : Prop :=
  (∃ frame, (tail = false → frame = k.frame) ∧ At p { k with frame := frame } stack pc w s) ∨
    (tail = true ∧ Returned p stack w s)

/-- The machine does what the evaluator says. -/
abbrev Does (host : Host O S) (n : Nat) (r : Result (World O S))
    (post : World O S → State O S → Prop) (s : State O S) : Prop :=
  Obeys (run1 p.img host) .diverges n r post s

end Program

/-! ## Parts of code -/

section Parts

variable {O S : Type} [DecidableEq O] {p : Program O} {xi : Nat} {e e' : Eenv O}

omit [DecidableEq O] in
theorem Built.of_extends (h : Built p xi e') (he : e.Extends e') : Built p xi e where
  cs := he.cs.trans h.cs
  ses := Nat.lt_of_le_of_lt he.ses.length_le h.ses
  functions := fun f hf => h.functions f (he.functions.subset hf)

/-- A constant at its index. -/
theorem Built.constant {v : VmValue O} (h : Built p xi (constantsLookupOrExtend e v).2) :
    (p.img.constants xi)[(constantsLookupOrExtend e v).1]? = some v := by
  obtain ⟨-, hv⟩ := constantsLookupOrExtend_spec e v
  obtain ⟨hlt, -⟩ := List.getElem?_eq_some_iff.mp hv
  obtain ⟨post, hpost⟩ := h.cs
  rw [← hpost, List.getElem?_append_left hlt, hv]

theorem Built.constant_lt {v : VmValue O} (hs : p.Sound)
    (h : Built p xi (constantsLookupOrExtend e v).2) :
    (constantsLookupOrExtend e v).1 < 2 ^ 64 := by
  obtain ⟨hlt, -⟩ := List.getElem?_eq_some_iff.mp h.constant
  exact Nat.lt_trans hlt (hs.constants xi)

omit [DecidableEq O] in
/-- Code in an execution environment. -/
theorem xi_lt_of_located {pc : Nat} {b : UInt8} {bs : Ia}
    (h : Located (p.img.byteCode xi) pc (b :: bs)) : xi < p.img.length := by
  have hle := h.add_length_le
  by_contra hge
  have hnone : p.img[xi]? = none := List.getElem?_eq_none (Nat.le_of_not_lt hge)
  simp only [Image.byteCode, hnone, List.length_nil, List.length_cons] at hle
  omega

theorem length_lt_of_located {pc : Nat} {bs : Ia} (hs : p.Sound)
    (h : Located (p.img.byteCode xi) pc bs) : bs.length < 2 ^ 64 := by
  have hle := h.length_le
  rw [List.length_drop] at hle
  have := hs.code xi
  omega

theorem toNat_ofNat {v : Nat} (h : v < 2 ^ 64) : (UInt64.ofNat v).toNat = v :=
  UInt64.toNat_ofNat_of_lt' h

end Parts

/-! ## Ends -/

section Ends

variable {O S : Type} [DecidableEq O] {p : Program O} {tail : Bool} {k : Place O}
  {stack : List (VmValue O)} {pc pc' : Nat} {w : World O S} {s : State O S}
  {step : State O S → Result (State O S)}

theorem At.ends (h : At p k stack pc w s) : Ends p tail k stack pc w s :=
  .inl ⟨k.frame, fun _ => rfl, h⟩

theorem Ends.at_end (h : Ends p false k stack pc w s) : At p k stack pc w s := by
  rcases h with ⟨frame, hframe, h⟩ | ⟨htail, -⟩
  · cases hframe rfl
    exact h
  · cases htail

theorem Ends.weaken {tailp : Bool} (h : Ends p tailp k stack pc w s)
    (htail : tailp = true → tail = true) : Ends p tail k stack pc w s := by
  rcases h with ⟨frame, hframe, h⟩ | ⟨ht, h⟩
  · refine .inl ⟨frame, fun hfalse => hframe ?_, h⟩
    cases tailp with
    | false => rfl
    | true => exact absurd (htail rfl) (by rw [hfalse]; decide)
  · exact .inr ⟨htail ht, h⟩

/-- What the machine does at the end of some code, unless it has returned. -/
theorem Ends.reaches (h : Ends p tail k stack pc w s)
    (hnext : ∀ frame, At p { k with frame := frame } stack pc w s →
      Reaches step (At p { k with frame := frame } stack pc' w) s) :
    Reaches step (Ends p tail k stack pc' w) s := by
  rcases h with ⟨frame, hframe, h⟩ | ⟨ht, h⟩
  · exact (hnext frame h).mono fun s' h' => .inl ⟨frame, hframe, h'⟩
  · exact .here (.inr ⟨ht, h⟩)

end Ends

/-! ## Steps -/

section Steps

variable {O S : Type} [DecidableEq O] {p : Program O} {host : Host O S} {n : Nat} {k : Place O}
  {stack : List (VmValue O)} {pc : Nat} {w : World O S} {s : State O S} {o : Opcode}
  {vs : List UInt64}

variable (host) in
/-- The instruction at the PC is done. -/
theorem At.fetched (h : At p k stack pc w s) (hloc : Located (p.img.byteCode k.xi) pc (ins o vs))
    (ht : o.Takes vs) :
    run1 p.img host s = exec p.img host o vs { s with pc := pc + (ins o vs).length } := by
  rw [← h.xi, ← h.pc] at hloc
  rw [run1_eq host hloc ht, h.pc]

omit [DecidableEq O] in
/-- A step that works on the memory, and what the state after it is. -/
theorem does_onMemory {f : Memory O S → Result (Memory O S)} {g : Memory O S → State O S}
    {post : World O S → State O S → Prop}
    (hrun : run1 p.img host s = f w.mem >>= fun mem => .ok (g mem))
    (hpost : ∀ mem, f w.mem = .ok mem → post { w with mem := mem } (g mem)) :
    Does p host n (w.onMemory f) post s := by
  unfold World.onMemory
  cases hf : f w.mem with
  | error x =>
    rw [hf] at hrun
    exact .inl (.here hrun)
  | ok mem =>
    rw [hf] at hrun
    exact .next hrun (.here (hpost mem hf))

/-- An instruction that only works on the memory. -/
theorem At.memory {f : Memory O S → Result (Memory O S)} (h : At p k stack pc w s)
    (hloc : Located (p.img.byteCode k.xi) pc (ins o vs)) (ht : o.Takes vs)
    (hexec : ∀ s : State O S, s.xi = k.xi → s.env = k.env → s.frame = k.frame →
      exec p.img host o vs s = s.onMemory f) :
    Does p host n (w.onMemory f) (At p k stack (pc + (ins o vs).length)) s := by
  have hrun := (h.fetched host hloc ht).trans (hexec _ h.xi h.env h.frame)
  rw [State.onMemory, h.mem] at hrun
  exact does_onMemory hrun fun _ _ =>
    ⟨h.xi, h.env, h.module, h.frame, h.stack, rfl, rfl, h.closures, h.linked⟩

/-- An instruction that comes to a place. -/
theorem At.step {k' : Place O} {stack' : List (VmValue O)} {pc' : Nat} {w' : World O S}
    {s' : State O S} (h : At p k stack pc w s)
    (hloc : Located (p.img.byteCode k.xi) pc (ins o vs)) (ht : o.Takes vs)
    (hexec : exec p.img host o vs { s with pc := pc + (ins o vs).length } = .ok s')
    (h' : At p k' stack' pc' w' s') :
    Reaches (run1 p.img host) (At p k' stack' pc' w') s :=
  .next ((h.fetched _ hloc ht).trans hexec) (.here h')

theorem At.pushValue (h : At p k stack pc w s)
    (hloc : Located (p.img.byteCode k.xi) pc (ins .pushValue [])) :
    Reaches (run1 p.img host) (At p k (w.mem.val :: stack) (pc + 1) w) s := by
  refine h.step hloc .nil rfl ⟨h.xi, h.env, h.module, h.frame, ?_, rfl, h.mem, h.closures, h.linked⟩
  show s.mem.val :: s.stack = _
  rw [h.mem, h.stack]

theorem At.popFunction {v : VmValue O} (h : At p k (v :: stack) pc w s)
    (hloc : Located (p.img.byteCode k.xi) pc (ins .popFunction [])) :
    Reaches (run1 p.img host) (fun s' => At p k stack (pc + 1) w s' ∧ s'.func = v) s := by
  have hexec : exec p.img host .popFunction [] { s with pc := pc + 1 } =
      .ok { s with pc := pc + 1, stack := stack, func := v } := by
    unfold exec
    simp only [State.pop, h.stack]
  refine .next ((h.fetched _ hloc .nil).trans hexec) (.here ⟨?_, rfl⟩)
  exact ⟨h.xi, h.env, h.module, h.frame, rfl, rfl, h.mem, h.closures, h.linked⟩

theorem At.popReg1 {v : VmValue O} (h : At p k (v :: stack) pc w s)
    (hloc : Located (p.img.byteCode k.xi) pc (ins .popReg1 [])) :
    Reaches (run1 p.img host) (fun s' => At p k stack (pc + 1) w s' ∧ s'.reg1 = v) s := by
  have hexec : exec p.img host .popReg1 [] { s with pc := pc + 1 } =
      .ok { s with pc := pc + 1, stack := stack, reg1 := v } := by
    unfold exec
    simp only [State.pop, h.stack]
  refine .next ((h.fetched _ hloc .nil).trans hexec) (.here ⟨?_, rfl⟩)
  exact ⟨h.xi, h.env, h.module, h.frame, rfl, rfl, h.mem, h.closures, h.linked⟩

/-- The source expression of what follows, if there is one. -/
theorem At.srcExpr {e : Eenv O} {src : Src O} {reg1 : VmValue O}
    (h : At p k stack pc w s ∧ s.reg1 = reg1)
    (hloc : Located (p.img.byteCode k.xi) pc (codegenSrcExpr e src).1) :
    Reaches (run1 p.img host) (fun s' => At p k stack (pc + (codegenSrcExpr e src).1.length) w s' ∧
      s'.reg1 = reg1) s := by
  unfold codegenSrcExpr at hloc ⊢
  split at hloc
  · next hpair =>
    rw [if_pos hpair]
    have ht : Opcode.srcExpr.Takes [.ofNat (extendSrcExprs e src).1] := .cons trivial .nil
    refine .next ((h.1.fetched _ hloc ht).trans rfl) (.here ⟨?_, h.2⟩)
    exact ⟨h.1.xi, h.1.env, h.1.module, h.1.frame, h.1.stack, rfl, h.1.mem, h.1.closures,
      h.1.linked⟩
  · next hpair =>
    rw [if_neg hpair]
    exact .here h

theorem At.suppressRcse (h : At p k stack pc w s)
    (hloc : Located (p.img.byteCode k.xi) pc (ins .suppressRcse [])) :
    Reaches (run1 p.img host) (At p k (w.mem.rcse :: stack) (pc + 1) (w.withRcse .true_)) s := by
  refine h.step hloc .nil rfl
    ⟨h.xi, h.env, h.module, h.frame, ?_, rfl, ?_, h.closures, h.linked⟩
  · show s.mem.rcse :: s.stack = _
    rw [h.mem, h.stack]
  · exact congrArg (fun mem => { mem with rcse := VmValue.true_ }) h.mem

theorem At.popRcse {v : VmValue O} (h : At p k (v :: stack) pc w s)
    (hloc : Located (p.img.byteCode k.xi) pc (ins .popRcse [])) :
    Reaches (run1 p.img host) (At p k stack (pc + 1) (w.withRcse v)) s := by
  have hexec : exec p.img host .popRcse [] { s with pc := pc + 1 } =
      .ok { s with pc := pc + 1, stack := stack, mem := { w.mem with rcse := v } } := by
    unfold exec
    simp only [State.pop, h.stack, h.mem]
  exact h.step hloc .nil hexec
    ⟨h.xi, h.env, h.module, h.frame, rfl, rfl, rfl, h.closures, h.linked⟩

variable (host) in
/-- A jump, done or not. -/
theorem At.jump {short long : Opcode} {m : Nat} {c : Bool} (h : At p k stack pc w s)
    (hloc : Located (p.img.byteCode k.xi) pc (jump short long m)) (hm : m < 2 ^ 64)
    (hbyte : short.shape = [.byte]) (hvaruint : long.shape = [.varuint])
    (hshort : ∀ (s : State O S) v, s.mem = w.mem →
      exec p.img host short [v] s = .ok (s.jumpIf c v))
    (hlong : ∀ (s : State O S) v, s.mem = w.mem →
      exec p.img host long [v] s = .ok (s.jumpIf c v)) :
    Reaches (run1 p.img host)
      (At p k stack (pc + (jump short long m).length + if c then m else 0) w) s := by
  have hat : ∀ len, At p k stack (pc + len + if c then m else 0) w
      (State.jumpIf { s with pc := pc + len } c (.ofNat m)) := by
    intro len
    unfold State.jumpIf
    split
    · refine ⟨h.xi, h.env, h.module, h.frame, h.stack, ?_, h.mem, h.closures, h.linked⟩
      show pc + len + (UInt64.ofNat m).toNat = pc + len + m
      rw [toNat_ofNat hm]
    · exact ⟨h.xi, h.env, h.module, h.frame, h.stack, rfl, h.mem, h.closures, h.linked⟩
  unfold Codegen.jump at hloc ⊢
  split at hloc
  · next hle =>
    have ht : short.Takes [.ofNat m] := by
      unfold Opcode.Takes
      rw [hbyte]
      refine .cons ?_ .nil
      show (UInt64.ofNat m).toNat < 256
      rw [toNat_ofNat hm]
      omega
    rw [if_pos hle]
    exact h.step hloc ht (hshort _ _ h.mem) (hat _)
  · next hgt =>
    have ht : long.Takes [.ofNat m] := by
      unfold Opcode.Takes
      rw [hvaruint]
      exact .cons trivial .nil
    rw [if_neg hgt]
    exact h.step hloc ht (hlong _ _ h.mem) (hat _)

/-- A value popped into the memory. -/
theorem At.popMemory {v : VmValue O} {g : VmValue O → Memory O S → Result (Memory O S)}
    (h : At p k (v :: stack) pc w s) (hloc : Located (p.img.byteCode k.xi) pc (ins o vs))
    (ht : o.Takes vs)
    (hexec : ∀ s : State O S, exec p.img host o vs s = s.pop.2.onMemory (g s.pop.1)) :
    Does p host n (w.onMemory (g v)) (At p k stack (pc + (ins o vs).length)) s := by
  have hpop : State.pop { s with pc := pc + (ins o vs).length } =
      (v, { s with pc := pc + (ins o vs).length, stack := stack }) := by
    simp only [State.pop, h.stack]
  have hrun := (h.fetched host hloc ht).trans (hexec _)
  rw [hpop, State.onMemory, h.mem] at hrun
  exact does_onMemory hrun fun _ _ =>
    ⟨h.xi, h.env, h.module, h.frame, rfl, rfl, rfl, h.closures, h.linked⟩

variable (host) in
/-- The frame in VAL, linked. -/
theorem At.linkFrame {fci sei : Nat} (h : At p k stack pc w s)
    (hloc : Located (p.img.byteCode k.xi) pc (ins .linkFrame [.ofNat fci, .ofNat sei])) :
    Does p host n (w.onMemory fun mem => mem.link k.frame)
      (At p { k with frame := w.mem.val } stack
        (pc + (ins .linkFrame [.ofNat fci, .ofNat sei]).length)) s := by
  have hrun := h.fetched host hloc (.cons trivial (.cons trivial .nil))
  have hexec : run1 p.img host s = (w.mem.link k.frame >>= fun mem => .ok { s with
        pc := pc + (ins .linkFrame [.ofNat fci, .ofNat sei]).length
        mem := mem
        frame := s.mem.val }) := by
    refine hrun.trans ?_
    rw [← h.mem, ← h.frame]
    show ((s.mem.link s.frame >>= _) >>= _) = _
    cases s.mem.link s.frame <;> rfl
  refine does_onMemory hexec fun mem _ =>
    ⟨h.xi, h.env, h.module, ?_, h.stack, rfl, rfl, h.closures, h.linked⟩
  show s.mem.val = w.mem.val
  rw [h.mem]

variable (host) in
/-- The frame that the frame is linked to. -/
theorem At.unlinkFrame {a : Nat} {f : FrameObject O} (h : At p k stack pc w s)
    (hloc : Located (p.img.byteCode k.xi) pc (ins .unlinkFrame [])) (hk : k.frame = .frame a)
    (hf : w.mem.frames[a]? = some f) :
    Reaches (run1 p.img host) (At p { k with frame := f.next } stack (pc + 1) w) s := by
  have hat : frameAt s.mem.frames s.frame = .ok f := by
    rw [h.mem, h.frame, hk]
    simp only [frameAt, hf]
  have hexec : exec p.img host .unlinkFrame [] { s with pc := pc + 1 } =
      .ok { s with pc := pc + 1, frame := f.next } := by
    show (frameAt s.mem.frames s.frame >>= _) = _
    rw [hat]
    rfl
  exact h.step hloc .nil hexec
    ⟨h.xi, h.env, h.module, rfl, h.stack, rfl, h.mem, h.closures, h.linked⟩

theorem At.preserveState (h : At p k stack pc w s) {func : VmValue O} (hfunc : s.func = func)
    (hloc : Located (p.img.byteCode k.xi) pc (ins .preserveState [])) :
    Reaches (run1 p.img host) (fun s' => At p k
      (.marker .preserveState :: k.env :: k.frame :: stack) (pc + 1) w s' ∧ s'.func = func) s := by
  refine .next ((h.fetched _ hloc .nil).trans rfl) (.here ⟨?_, hfunc⟩)
  refine ⟨h.xi, h.env, h.module, h.frame, ?_, rfl, h.mem, h.closures, h.linked⟩
  show _ :: s.env :: s.frame :: s.stack = _
  rw [h.env, h.frame, h.stack]

theorem At.restoreState {env frame : VmValue O} {k' : Place O} (hmodule : env.isModule = true)
    (h : At p k' (.marker .preserveState :: env :: frame :: stack) pc w s)
    (hloc : Located (p.img.byteCode k'.xi) pc (ins .restoreState [])) :
    Reaches (run1 p.img host) (At p ⟨k'.xi, env, frame⟩ stack (pc + 1) w) s := by
  have hexec : exec p.img host .restoreState [] { s with pc := pc + 1 } =
      .ok { s with pc := pc + 1, stack := stack, env := env, frame := frame } := by
    unfold exec
    simp only [State.restore, State.pop, h.stack, hmodule]
    rfl
  exact h.step hloc .nil hexec
    ⟨h.xi, rfl, hmodule, rfl, rfl, rfl, h.mem, h.closures, h.linked⟩

/-- A return, with the stack for it. -/
theorem At.return_ (h : At p k stack pc w s) (hr : IsReturn p stack)
    (hloc : Located (p.img.byteCode k.xi) pc (ins .return_ [])) :
    Reaches (run1 p.img host) (Returned p stack w) s := by
  obtain ⟨xi, pc', rest, rfl, hxi, hpc⟩ := hr
  have hexec : exec p.img host .return_ [] { s with pc := pc + 1 } =
      .ok { s with xi := xi, pc := pc', stack := rest } := by
    have h₁ : ¬ ((xi : Int) < 0 ∨ (p.img.length : Int) ≤ xi) := by omega
    have h₂ : ¬ (((p.img.byteCode xi).length : Int) < pc' ∨ (pc' : Int) < 0) := by omega
    unfold exec
    simp only [State.return_, State.pop, h.stack, Int.toNat_natCast, if_neg h₁, if_neg h₂]
    rfl
  refine .next ((h.fetched _ hloc .nil).trans hexec) (.here ?_)
  exact ⟨xi, pc', rest, k.env, k.frame, rfl, rfl, h.env, h.module, h.frame, rfl, rfl, h.mem,
    h.closures, h.linked⟩

/-! ## Functions and calls -/

omit [DecidableEq O] in
/-- A function found is still found with more values and closures. -/
theorem functionAt_append {s' : State O S} {values : List (VmValue O)}
    {closures : List (ClosureObject Nat O)} {xi vi : Nat} {cl : ClosureObject Nat O}
    (h : s.functionAt xi vi = some cl) (hvt : s'.vt xi vi = s.vt xi vi)
    (hvalues : s'.values = s.values ++ values) (hclosures : s'.closures = s.closures ++ closures) :
    s'.functionAt xi vi = some cl := by
  unfold State.functionAt at h ⊢
  rw [hvt, hvalues, hclosures]
  split at h
  · cases h
  · next hne =>
    rw [if_neg hne]
    split at h
    · next c hc =>
      obtain ⟨hlt, -⟩ := List.getElem?_eq_some_iff.mp hc
      obtain ⟨hlt', -⟩ := List.getElem?_eq_some_iff.mp h
      simp only [List.getElem?_append_left hlt, hc, List.getElem?_append_left hlt', h]
    · cases h

omit [DecidableEq O] in
/-- More closures. -/
theorem Linked.append {s' : State O S} {more : List (ClosureObject Nat O)} (h : Linked p s)
    (hvt : s'.vt = s.vt) (hvalues : s'.values = s.values)
    (hclosures : s'.closures = s.closures ++ more) : Linked p s' := by
  intro xi f hf
  obtain ⟨cl, hcl, hspec⟩ := h xi f hf
  exact ⟨cl, functionAt_append hcl (by rw [hvt]) (by rw [hvalues, List.append_nil]) hclosures, hspec⟩

/-- A closure of a function of the image. -/
theorem At.createClosure {f : Function O} (hs : p.Sound) (h : At p k stack pc w s)
    (hf : f ∈ p.functions k.xi) (hvi : f.vi < 65536)
    (hloc : Located (p.img.byteCode k.xi) pc (ins .createClosure [.ofNat f.vi])) :
    Reaches (run1 p.img host) (At p k stack (pc + (ins .createClosure [.ofNat f.vi]).length)
      (w.create ⟨k.xi, f.lambda, k.frame, p.home k.xi f.vi⟩)) s := by
  obtain ⟨cl, hcl, hxi, hcode, henv⟩ := h.linked k.xi f hf
  have hn : (UInt64.ofNat f.vi).toNat = f.vi := toNat_ofNat (by omega)
  have ht : Opcode.createClosure.Takes [.ofNat f.vi] := by
    refine .cons ?_ .nil
    show (UInt64.ofNat f.vi).toNat < 65536
    rw [hn]
    exact hvi
  have hlen : w.closures.length = s.closures.length := h.closures.length_eq
  have hexec : exec p.img host .createClosure [.ofNat f.vi]
      { s with pc := pc + (ins .createClosure [.ofNat f.vi]).length } =
      .ok { s with
        pc := pc + (ins .createClosure [.ofNat f.vi]).length
        mem := { s.mem with val := .closure s.closures.length }
        closures := s.closures ++ [{ cl with frame := s.frame }] } := by
    show State.createClosure _ (UInt64.ofNat f.vi).toNat = _
    rw [hn]
    unfold State.createClosure
    have hfun : State.functionAt { s with pc := pc + (ins .createClosure [.ofNat f.vi]).length }
        s.xi f.vi = some cl := by
      rw [h.xi]
      exact hcl
    simp only [hfun]
    rfl
  refine h.step hloc ht hexec ⟨h.xi, h.env, h.module, h.frame, h.stack, rfl, ?_, ?_,
    h.linked.append rfl rfl rfl⟩
  · show { s.mem with val := VmValue.closure s.closures.length } =
      { w.mem with val := VmValue.closure w.closures.length }
    rw [h.mem, hlen]
  · refine List.rel_append h.closures (.cons ⟨hxi, h.frame, henv, hs.home k.xi f.vi, ?_⟩ .nil)
    show FunctionAt p k.xi cl.code f.lambda
    rw [hcode]
    exact hs.functions k.xi f hf

/-- A primitive called. -/
theorem At.primcall {pd : Nat} {args : List (VmValue O)} (h : At p k stack pc w s)
    (hloc : Located (p.img.byteCode k.xi) pc (ins o vs)) (ht : o.Takes vs)
    (hexec : exec p.img host o vs { s with pc := pc + (ins o vs).length } =
      State.primcall host { s with pc := pc + (ins o vs).length } pd args) :
    Does p host n (Codegen.primcall host k pd args w)
      (At p k stack (pc + (ins o vs).length)) s := by
  have hrun := (h.fetched host hloc ht).trans hexec
  have hcall : s.mem.primcall host s.xi s.env pd args = w.mem.primcall host k.xi k.env pd args := by
    rw [h.mem, h.xi, h.env]
  unfold State.primcall at hrun
  unfold Codegen.primcall
  rw [hcall] at hrun
  cases hw : w.mem.primcall host k.xi k.env pd args with
  | error x =>
    rw [hw] at hrun
    exact .inl (.here hrun)
  | ok r =>
    rw [hw] at hrun
    exact .next hrun (.here
      ⟨h.xi, h.env, h.module, h.frame, h.stack, rfl, rfl, h.closures, h.linked⟩)

theorem ins_length (o : Opcode) : (ins o []).length = 1 := by
  unfold ins
  cases o.shape <;> rfl

/-- What is invoked and is no closure. -/
theorem At.invokeOther {tailp : Bool} {func : VmValue O} (h : At p k stack pc w s)
    (hfunc : s.func = func) (hno : ∀ c, func ≠ .closure c)
    (hloc : Located (p.img.byteCode k.xi) pc (ins o [])) (ht : o.Takes [])
    (hexec : ∀ s : State O S, exec p.img host o [] s = s.invoke host tailp) :
    Does p host n (w.onMemory fun mem => mem.invoke host func k.xi k.env)
      (At p k stack (pc + 1)) s := by
  have hrun := (h.fetched host hloc ht).trans (hexec _)
  rw [ins_length] at hrun
  have hinvoke : State.invoke host { s with pc := pc + 1 } tailp =
      State.onMemory { s with pc := pc + 1 } fun mem => mem.invoke host func k.xi k.env := by
    unfold State.invoke
    rw [← h.xi, ← h.env]
    subst hfunc
    split
    · next c hc => exact absurd hc (hno c)
    · rfl
  rw [hinvoke, State.onMemory, h.mem] at hrun
  exact does_onMemory hrun fun _ _ =>
    ⟨h.xi, h.env, h.module, h.frame, h.stack, rfl, rfl, h.closures, h.linked⟩

/-- The closures that a number is. -/
theorem At.closure_cases (h : At p k stack pc w s) (c : Nat) :
    (w.closures[c]? = none ∧ s.closures[c]? = none) ∨
      ∃ cl cl', w.closures[c]? = some cl ∧ s.closures[c]? = some cl' ∧ ClosureAt p cl cl' := by
  obtain ⟨hlen, hget⟩ := List.forall₂_iff_get.mp h.closures
  rcases Nat.lt_or_ge c w.closures.length with hlt | hge
  · exact .inr ⟨_, _, List.getElem?_eq_getElem hlt, List.getElem?_eq_getElem (hlen ▸ hlt),
      hget c hlt (hlen ▸ hlt)⟩
  · exact .inl ⟨List.getElem?_eq_none hge, List.getElem?_eq_none (hlen ▸ hge)⟩

end Steps

end Idio.Codegen
