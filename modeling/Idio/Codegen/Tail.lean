/-
  Codegen/Tail.lean --- tail calls.

  A call in tail position is done by FUNCTION-GOTO, which leaves no record of where to return to.
  So a function that ends in a call gives way to what it calls, with the stack it was itself
  called with, and however many calls there are, one in the tail of the other, the stack stays
  what it was.
-/
import Idio.Codegen.Running
import Mathlib.Logic.Relation

set_option autoImplicit false

namespace Idio.Codegen

open Idio.Machine Simulation

/-! ## The call that a term ends in -/

section TailCalls

variable {O S : Type} (host : Host O S) (home : Home O)
  (apply : Place O → VmValue O → World O S → Result (World O S))

/-- A term in a place and a world ends in a call, of a function and with a world that has the
arguments. -/
inductive TailCalls : ICode O → Place O → World O S → VmValue O → World O S → Prop
  | goto {src : Src O} {m1 : ICode O} {ms : Arguments O} {k : Place O} {w w₁ w' : World O S} :
      eval host home apply m1 k w = .ok w₁ → evalArguments host home apply ms k w₁ = .ok w' →
      TailCalls (.trRegularCall src m1 ms) k w w₁.mem.val w'
  | alternative {src : Src O} {m1 m2 m3 : ICode O} {k : Place O} {w w₁ w' : World O S}
      {func : VmValue O} :
      (w.suppressed fun w => eval host home apply m1 k w) = .ok w₁ →
      TailCalls (if w₁.mem.val.isFalse then m3 else m2) k w₁ func w' →
      TailCalls (.alternative src m1 m2 m3) k w func w'
  | sequence {m1 mp : ICode O} {k : Place O} {w w₁ w' : World O S} {func : VmValue O} :
      eval host home apply m1 k w = .ok w₁ → TailCalls mp k w₁ func w' →
      TailCalls (.sequence m1 mp) k w func w'
  | trFixLet {ms : Arguments O} {mp : ICode O} {formals : VmValue O} {src : Src O} {k : Place O}
      {w w₁ w₂ w' : World O S} {func : VmValue O} :
      evalArguments host home apply ms k w = .ok w₁ →
      (w₁.onMemory fun mem => mem.link k.frame) = .ok w₂ →
      TailCalls mp { k with frame := w₁.mem.val } w₂ func w' →
      TailCalls (.trFixLet ms mp formals src) k w func w'
  | local_ {src : Src O} {i n : Nat} {m1 mp : ICode O} {formals : VmValue O} {k : Place O}
      {w w₁ w₂ w₃ w' : World O S} {func : VmValue O} :
      eval host home apply m1 k w = .ok w₁ →
      (w₁.onMemory fun mem => mem.withFrames (extendFrame mem.frames k.frame n)) = .ok w₂ →
      (w₂.onMemory fun mem => mem.withFrames (setFrameArgs mem.frames k.frame i mem.val)) = .ok w₃ →
      TailCalls mp k w₃ func w' → TailCalls (.local_ src i m1 mp formals n) k w func w'
  | begin_last {tailp : Bool} {m1 : ICode O} {k : Place O} {w w' : World O S} {func : VmValue O} :
      TailCalls m1 k w func w' → TailCalls (.begin_ tailp m1 .nil) k w func w'
  | begin_more {tailp : Bool} {m1 m : ICode O} {mt : ICodes O} {k : Place O} {w w₁ w' : World O S}
      {func : VmValue O} :
      eval host home apply m1 k w = .ok w₁ → TailCalls (.begin_ tailp m mt) k w₁ func w' →
      TailCalls (.begin_ tailp m1 (.cons m mt)) k w func w'
  | list_last {m1 : ICode O} {k : Place O} {w w' : World O S} {func : VmValue O} :
      TailCalls m1 k w func w' → TailCalls (.list m1 .nil) k w func w'
  | list_more {m1 m : ICode O} {mt : ICodes O} {k : Place O} {w w₁ w' : World O S}
      {func : VmValue O} :
      eval host home apply m1 k w = .ok w₁ → TailCalls (.list m mt) k w₁ func w' →
      TailCalls (.list m1 (.cons m mt)) k w func w'
  | and_last {m1 : ICode O} {k : Place O} {w w' : World O S} {func : VmValue O} :
      TailCalls m1 k w func w' → TailCalls (.and_ true m1 .nil) k w func w'
  | and_more {m1 m : ICode O} {mt : ICodes O} {k : Place O} {w w₁ w' : World O S}
      {func : VmValue O} :
      (w.suppressed fun w => eval host home apply m1 k w) = .ok w₁ →
      w₁.mem.val.isFalse = false → TailCalls (.and_ true m mt) k w₁ func w' →
      TailCalls (.and_ true m1 (.cons m mt)) k w func w'
  | or_last {m1 : ICode O} {k : Place O} {w w' : World O S} {func : VmValue O} :
      TailCalls m1 k w func w' → TailCalls (.or_ true m1 .nil) k w func w'
  | or_more {m1 m : ICode O} {mt : ICodes O} {k : Place O} {w w₁ w' : World O S}
      {func : VmValue O} :
      (w.suppressed fun w => eval host home apply m1 k w) = .ok w₁ →
      w₁.mem.val.isFalse = true → TailCalls (.or_ true m mt) k w₁ func w' →
      TailCalls (.or_ true m1 (.cons m mt)) k w func w'

end TailCalls

section Machine

variable {O S : Type} [DecidableEq O] {p : Program O} {host : Host O S} {n : Nat} {k : Place O}
  {stack : List (VmValue O)} {pc : Nat} {w w' : World O S} {s : State O S} {e : Eenv O} {m : ICode O}
  {ia : Ia} {f : World O S → Result (World O S)} {func : VmValue O}

/-- Some code, where what it does is known. -/
theorem Performs.reaches (h : Performs p host n false k ia f) (hw : f w = .ok w')
    (hloc : Located (p.img.byteCode k.xi) pc ia) (hat : At p k stack pc w s) :
    Reaches (run1 p.img host) (At p k stack (pc + ia.length) w') s := by
  have hdoes := h stack pc w s hloc (fun h => by cases h) hat
  rw [hw] at hdoes
  exact Reaches.mono hdoes fun _ h' => h'.at_end

/-- The machine at a FUNCTION-GOTO. -/
structure AtGoto (p : Program O) (xi : Nat) (stack : List (VmValue O)) (func : VmValue O)
    (w : World O S) (s : State O S) : Prop where
  func : s.func = func
  at_ : ∃ (k : Place O) (pc : Nat), k.xi = xi ∧ At p k stack pc w s ∧
    Located (p.img.byteCode k.xi) pc (ins .functionGoto [])

theorem TailCalls.reaches (hs : p.Sound)
    (h : TailCalls host p.home (call host p.home n) m k w func w') (hf : Fits true m)
    (hb : Built p k.xi (compile m e).2)
    (hloc : Located (p.img.byteCode k.xi) pc (compile m e).1) (hat : At p k stack pc w s) :
    Reaches (run1 p.img host) (AtGoto p k.xi stack func w') s := by
  have hc := calls_do host hs n
  induction h generalizing pc s e with
  | @goto src m1 ms k w w₁ w' h₁ h₂ =>
    obtain ⟨-, hf₁, hfs⟩ := hf
    have hbs := hb.of_extends (codegenSrcExpr_extends _ src)
    have hm1 := compile_performs hs hc m1 hf₁ (hbs.of_extends (compileArguments_extends hfs _))
    have hms := arguments_perform hs hc ms hfs hbs
    simp only [compile, List.append_assoc] at hloc
    refine (hm1.reaches h₁ hloc.left hat).bind fun s₁ h₁ => ?_
    refine (h₁.pushValue hloc.right.left).bind fun s₂ h₂' => ?_
    refine (hms.reaches h₂ hloc.right.right.left h₂').bind fun s₃ h₃ => ?_
    refine (At.srcExpr ⟨h₃, rfl⟩ hloc.right.right.right.left).bind fun s₄ h₄ => ?_
    refine (h₄.1.popFunction hloc.right.right.right.right.left).mono fun s₅ h₅ => ?_
    exact ⟨h₅.2, k, _, rfl, h₅.1, hloc.right.right.right.right.right⟩
  | @alternative src m1 m2 m3 k w w₁ w' func h₁ _ ih =>
    obtain ⟨hf₁, hf₂, hf₃⟩ := hf
    have hb₂ := hb.of_extends (compile_extends hf₃ _)
    have hb₁ := hb₂.of_extends (compile_extends hf₂ _)
    have hm1 : Performs p host n false k _ _ := (compile_performs hs hc m1 hf₁ hb₁).suppressed
    simp only [compile, List.append_assoc] at hloc
    refine (At.srcExpr ⟨hat, rfl⟩ hloc.left).bind fun s₁ hat₁ => ?_
    refine (hm1.reaches h₁ hloc.right.left hat₁.1).bind fun s₂ hat₂ => ?_
    have hskip := length_lt_of_located hs hloc.right.right.right
    simp only [List.length_append] at hskip
    have hjump := hat₂.jump host (c := w₁.mem.val.isFalse) hloc.right.right.left
      (by omega) rfl rfl (fun s v hs => by rw [← hs]; rfl) (fun s v hs => by rw [← hs]; rfl)
    refine hjump.bind fun s₃ hat₃ => ?_
    cases hval : w₁.mem.val.isFalse with
    | true =>
      rw [hval, if_pos rfl] at hat₃
      simp only [hval, if_true] at ih
      have hloc₃ := hloc.right.right.right.right.right
      rw [Nat.add_assoc _ (compile m2 _).1.length] at hloc₃
      exact ih hf₃ hb hloc₃ hat₃
    | false =>
      rw [hval, if_neg Bool.false_ne_true] at hat₃
      simp only [hval, Bool.false_eq_true, if_false] at ih
      exact ih hf₂ hb₂ hloc.right.right.right.left hat₃
  | @sequence m1 mp k w w₁ w' func h₁ _ ih =>
    obtain ⟨hf₁, hfp⟩ := hf
    have hm1 := compile_performs hs hc m1 hf₁ (hb.of_extends (compile_extends hfp _))
    exact (hm1.reaches h₁ hloc.left hat).bind fun s₁ hat₁ => ih hfp hb hloc.right hat₁
  | @trFixLet ms mp formals src k w w₁ w₂ w' func h₁ h₂ _ ih =>
    obtain ⟨-, hfs, hfp⟩ := hf
    have hms := arguments_perform hs hc ms hfs (hb.of_extends (compile_extends hfp _))
    simp only [compile, List.append_assoc] at hloc
    refine (hms.reaches h₁ hloc.left hat).bind fun s₁ hat₁ => ?_
    have hlink := hat₁.linkFrame host (n := n) hloc.right.left
    rw [h₂] at hlink
    exact Reaches.bind hlink fun s₂ hat₂ => ih hfp hb hloc.right.right hat₂
  | @local_ src i m m1 mp formals k w w₁ w₂ w₃ w' func h₁ h₂ h₃ _ ih =>
    obtain ⟨hi, hm, hf₁, hfp⟩ := hf
    have hb₁ := (hb.of_extends (compile_extends hfp _)).of_extends (codegenSrcExpr_extends _ src)
    have hm1 := compile_performs hs hc m1 hf₁ hb₁
    have hextend : ∀ fci, Performs p host n false k (ins .extendFrame [.ofNat m, .ofNat fci])
        fun w => w.onMemory fun mem => mem.withFrames (extendFrame mem.frames k.frame m) :=
      fun fci => performs_extendFrame hm
    have hset : Performs p host n false k (ins .shallowArgumentSet [.ofNat i]) _ :=
      performs_localSet hi
    simp only [compile, List.append_assoc] at hloc
    refine (hm1.reaches h₁ hloc.left hat).bind fun s₁ hat₁ => ?_
    refine (At.srcExpr ⟨hat₁, rfl⟩ hloc.right.left).bind fun s₂ hat₂ => ?_
    refine ((hextend _).reaches h₂ hloc.right.right.left hat₂.1).bind fun s₃ hat₃ => ?_
    refine (hset.reaches h₃ hloc.right.right.right.left hat₃).bind fun s₄ hat₄ => ?_
    exact ih hfp hb hloc.right.right.right.right hat₄
  | @begin_last tailp m1 k w w' func _ ih =>
    exact ih hf.1 hb hloc.left hat
  | @begin_more tailp m1 m mt k w w₁ w' func h₁ _ ih =>
    obtain ⟨hf₁, hft⟩ := hf
    have hm1 := compile_performs hs hc m1 hf₁ (hb.of_extends (compileList_extends hft _))
    exact (hm1.reaches h₁ hloc.left hat).bind fun s₁ hat₁ => ih hft hb hloc.right hat₁
  | @list_last m1 k w w' func _ ih =>
    exact ih hf.1 hb hloc.left hat
  | @list_more m1 m mt k w w₁ w' func h₁ _ ih =>
    obtain ⟨hf₁, hft⟩ := hf
    have hm1 := compile_performs hs hc m1 hf₁ (hb.of_extends (compileList_extends hft _))
    exact (hm1.reaches h₁ hloc.left hat).bind fun s₁ hat₁ => ih hft hb hloc.right hat₁
  | @and_last m1 k w w' func _ ih =>
    exact ih hf.2.1 hb hloc.left hat
  | @and_more m1 m mt k w w₁ w' func h₁ hval _ ih =>
    obtain ⟨htail, hf₁, hft⟩ := hf
    have hb₁ := hb.of_extends (compileClauses_extends hft _)
    have hm1 : Performs p host n false k _ _ := (compile_performs hs hc m1 hf₁ hb₁).suppressed
    have hrest := hloc.right
    rw [chain_cons] at hrest
    refine (hm1.reaches h₁ hloc.left hat).bind fun s₁ hat₁ => ?_
    have hjump := hat₁.jump host (c := w₁.mem.val.isFalse) hrest.left
      (length_lt_of_located hs hrest.right) rfl rfl (fun s v hs => by rw [← hs]; rfl)
      (fun s v hs => by rw [← hs]; rfl)
    refine hjump.bind fun s₂ hat₂ => ?_
    rw [hval, if_neg Bool.false_ne_true] at hat₂
    exact ih ⟨htail, hft⟩ hb hrest.right hat₂
  | @or_last m1 k w w' func _ ih =>
    exact ih hf.2.1 hb hloc.left hat
  | @or_more m1 m mt k w w₁ w' func h₁ hval _ ih =>
    obtain ⟨htail, hf₁, hft⟩ := hf
    have hb₁ := hb.of_extends (compileClauses_extends hft _)
    have hm1 : Performs p host n false k _ _ := (compile_performs hs hc m1 hf₁ hb₁).suppressed
    have hrest := hloc.right
    rw [chain_cons] at hrest
    refine (hm1.reaches h₁ hloc.left hat).bind fun s₁ hat₁ => ?_
    have hjump := hat₁.jump host (c := !w₁.mem.val.isFalse) hrest.left
      (length_lt_of_located hs hrest.right) rfl rfl (fun s v hs => by rw [← hs]; rfl)
      (fun s v hs => by rw [← hs]; rfl)
    refine hjump.bind fun s₂ hat₂ => ?_
    rw [hval, Bool.not_true, if_neg Bool.false_ne_true] at hat₂
    exact ih ⟨htail, hft⟩ hb hrest.right hat₂

/-! ## Functions that end in calls -/

/-- A closure that is called with some arguments. -/
structure Calling (O S : Type) where
  cl : ClosureObject (Lambda O) O
  w : World O S

/-- A function ends in a call of another. -/
def Calling.GivesWay (host : Host O S) (home : Home O) (c c' : Calling O S) : Prop :=
  ∃ n w₁ w₂ a, c.cl.code.enter host c.w = .ok w₁ ∧
    (w₁.onMemory fun mem => mem.link c.cl.frame) = .ok w₂ ∧
    TailCalls host home (call host home n) c.cl.code.body ⟨c.cl.xi, c.cl.env, w₁.mem.val⟩ w₂
      (.closure a) c'.w ∧ c'.w.closures[a]? = some c'.cl

/-- The machine at the first instruction of a function. -/
def Entered (p : Program O) (stack : List (VmValue O)) (c : Calling O S) (s : State O S) : Prop :=
  ∃ pc, FunctionAt p c.cl.xi pc c.cl.code ∧ At p ⟨c.cl.xi, c.cl.env, c.cl.frame⟩ stack pc c.w s

/-- A function gives way to what it calls at its end, with the stack that it has. -/
theorem Entered.givesWay {c c' : Calling O S} (hs : p.Sound) (h : Entered p stack c s)
    (hc : c.GivesWay host p.home c') :
    Reaches (run1 p.img host) (Entered p stack c') s := by
  obtain ⟨pc, ⟨e, fci, sei, hloc, hb, hfits, harity⟩, hat⟩ := h
  obtain ⟨n, w₁, w₂, a, henter, hlink, htail, hcl⟩ := hc
  unfold functionCode at hloc
  simp only [List.append_assoc] at hloc
  have hperform : Performs p host n false ⟨c.cl.xi, c.cl.env, c.cl.frame⟩ _ _ :=
    performs_enter harity
  refine (hperform.reaches henter hloc.left hat).bind fun s₁ hat₁ => ?_
  have hdoes := hat₁.linkFrame host (n := n) hloc.right.left
  rw [hlink] at hdoes
  refine Reaches.bind hdoes fun s₂ hat₂ => ?_
  refine (htail.reaches hs hfits hb hloc.right.right.left hat₂).bind fun s₃ h₃ => ?_
  obtain ⟨k, pc₃, -, hat₃, hgoto⟩ := h₃.at_
  rcases hat₃.closure_cases a with ⟨hnone, -⟩ | ⟨cl, cl', hw, hmachine, hclosure⟩
  · rw [hnone] at hcl
    cases hcl
  · rw [hw] at hcl
    cases hcl
    obtain ⟨s₄, hrun, hat₄⟩ := hat₃.invokeClosure host true h₃.func hmachine
      hclosure hgoto .nil (fun _ => rfl)
    exact .next hrun (.here ⟨_, hclosure.code, hat₄⟩)

theorem entered_run {c c' : Calling O S} (hs : p.Sound)
    (hc : Relation.ReflTransGen (Calling.GivesWay host p.home) c c') (h : Entered p stack c s) :
    Reaches (run1 p.img host) (Entered p stack c') s := by
  induction hc with
  | refl => exact .here h
  | tail _ hlast ih => exact ih.bind fun s' h' => h'.givesWay hs hlast

/-- **Tail calls do not grow the stack**: from a function, through any number of calls each at
the end of the function before, the machine comes to the last of them with the stack it had at
the first. -/
theorem tail_calls {es : Environments O} {c c' : Calling O S}
    (hc : Relation.ReflTransGen (Calling.GivesWay host es.home) c c')
    (h : Entered es.program stack c s) :
    ∃ j s', steps (run1 es.program.img host) j s = .ok s' ∧ s'.stack = stack ∧
      Entered es.program stack c' s' := by
  obtain ⟨j, s', hsteps, hentered⟩ := (entered_run es.sound hc h).steps_eq
  obtain ⟨pc, hcode, hat⟩ := hentered
  exact ⟨j, s', hsteps, hat.stack, pc, hcode, hat⟩

end Machine

/-! ## A loop -/

section Loop

/-- `(function (x) (x x))` -/
def selfCaller : ICode Unit := .fixClosure selfCall ⟨.nil, 1, .nil, .nil, noSrc, 1⟩

theorem selfCaller_alone : Alone selfCaller where
  fits := ⟨show 1 + 1 < 2 ^ 64 by decide, by decide, by decide, selfCall_fits⟩
  byteCode := by decide
  cs := by decide
  ses := by decide
  nodup := by decide

/-- It, called with itself, after a number of calls of it. -/
def selfCalling (n : Nat) : Calling Unit Unit where
  cl := ⟨1, ⟨false, 1, selfCall⟩, .nil, .module 0⟩
  w := ⟨⟨.frame n, .false_, List.replicate (n + 1) ⟨.nil, 1, [.closure 0, .nil]⟩, ()⟩,
    [⟨1, ⟨false, 1, selfCall⟩, .nil, .module 0⟩]⟩

/-- The machine that calls it. -/
def selfCallingState : State Unit Unit :=
  { State.start (selfCalling 0).w.mem with
    pc := 9
    closures := [⟨1, 9, .nil, .module 0⟩]
    vt := fun x v => if x = 1 ∧ v = 1 then 1 else 0
    values := [.undef, .closure 0] }

theorem selfCaller_entered :
    Entered selfCaller_alone.environments.program [.marker .return_, .fixnum 0, .fixnum 0]
      (selfCalling 0) selfCallingState := by
  have hcode : FunctionAt selfCaller_alone.environments.program 1 9 ⟨false, 1, selfCall⟩ :=
    selfCaller_alone.environments.sound.functions 1 ⟨1, 9, ⟨false, 1, selfCall⟩⟩
      (List.mem_singleton_self _)
  refine ⟨9, hcode, rfl, rfl, rfl, rfl, rfl, rfl, rfl, ?_, ?_⟩
  · exact .cons ⟨rfl, rfl, rfl, rfl, hcode⟩ .nil
  · intro xi f hf
    rcases xi with _ | _ | xi
    · cases hf
    · obtain rfl := List.mem_singleton.mp hf
      exact ⟨⟨1, 9, .nil, .module 0⟩, rfl, rfl, rfl, rfl⟩
    · cases hf

theorem selfCalling_givesWay (home : Home Unit) :
    (selfCalling 0).GivesWay Host.none home (selfCalling 1) := by
  let w : World Unit Unit := (selfCalling 0).w
  let w₁ : World Unit Unit := { w with mem := { w.mem with val := .closure 0 } }
  have htail : TailCalls Host.none home (call Host.none home 0) selfCall ⟨1, .module 0, .frame 0⟩ w
      w₁.mem.val (selfCalling 1).w := .goto rfl rfl
  exact ⟨0, w, w, 0, rfl, rfl, htail, rfl⟩

/-- A function that calls itself. -/
theorem selfCalling_again :
    ∃ j s', steps (run1 selfCaller_alone.environments.program.img Host.none) j selfCallingState =
        .ok s' ∧ s'.stack = [.marker .return_, .fixnum 0, .fixnum 0] ∧
      Entered selfCaller_alone.environments.program [.marker .return_, .fixnum 0, .fixnum 0]
        (selfCalling 1) s' :=
  tail_calls (.single (selfCalling_givesWay _)) selfCaller_entered

end Loop

end Idio.Codegen
