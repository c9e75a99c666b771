/-
  Codegen/Keeping.lean --- the links of frames.

  Running intermediate code makes frames and changes their arguments, but the frame around a
  frame is set once, when the frame is new: `Keeps` says that of the first frames of a memory.
  It is why the frame of a let can be left by its link.
-/
import Idio.Codegen.Meaning

set_option autoImplicit false

namespace Idio.Codegen

open Idio.Machine

section Frames

variable {O : Type}

/-- The first `n` frames still have their links. -/
structure Keeps (n : Nat) (fs fs' : List (FrameObject O)) : Prop where
  length_le : fs.length ≤ fs'.length
  next : ∀ a, a < n → ∀ f, fs[a]? = some f → ∃ f', fs'[a]? = some f' ∧ f'.next = f.next

namespace Keeps

variable {n m : Nat} {fs fs' fs'' : List (FrameObject O)}

theorem refl (n : Nat) (fs : List (FrameObject O)) : Keeps n fs fs where
  length_le := Nat.le_refl _
  next := fun _ _ f hf => ⟨f, hf, rfl⟩

theorem trans (h : Keeps n fs fs') (h' : Keeps m fs' fs'') (hnm : n ≤ m) : Keeps n fs fs'' where
  length_le := Nat.le_trans h.length_le h'.length_le
  next := by
    intro a ha f hf
    obtain ⟨f', hf', hnext⟩ := h.next a ha f hf
    obtain ⟨f'', hf'', hnext'⟩ := h'.next a (Nat.lt_of_lt_of_le ha hnm) f' hf'
    exact ⟨f'', hf'', hnext'.trans hnext⟩

theorem le (h : Keeps m fs fs') (hnm : n ≤ m) : Keeps n fs fs' :=
  (refl n fs).trans h hnm

/-- Frames before a new one. -/
theorem append (n : Nat) (fs more : List (FrameObject O)) : Keeps n fs (fs ++ more) where
  length_le := by
    rw [List.length_append]
    exact Nat.le_add_right _ _
  next := by
    intro a _ f hf
    obtain ⟨ha, -⟩ := List.getElem?_eq_some_iff.mp hf
    exact ⟨f, by rw [List.getElem?_append_left ha, hf], rfl⟩

/-- Another frame with the same link. -/
theorem set {b : Nat} {f f' : FrameObject O} (hf : fs[b]? = some f) (hnext : f'.next = f.next) :
    Keeps n fs (fs.set b f') where
  length_le := Nat.le_of_eq (List.length_set ..).symm
  next := by
    intro a _ g hg
    rcases Nat.decEq b a with hne | rfl
    · exact ⟨g, by rw [List.getElem?_set_ne hne, hg], rfl⟩
    · obtain ⟨hb, -⟩ := List.getElem?_eq_some_iff.mp hf
      refine ⟨f', List.getElem?_set_self hb, ?_⟩
      rw [hf] at hg
      cases hg
      exact hnext

/-- Another frame, after the first ones. -/
theorem set_above {b : Nat} (f' : FrameObject O) (hb : n ≤ b) : Keeps n fs (fs.set b f') where
  length_le := Nat.le_of_eq (List.length_set ..).symm
  next := by
    intro a ha g hg
    have hne : b ≠ a := Nat.ne_of_gt (Nat.lt_of_lt_of_le ha hb)
    exact ⟨g, by rw [List.getElem?_set_ne hne, hg], rfl⟩

end Keeps

/-! ## One operation -/

variable {n : Nat} {fs fs' : List (FrameObject O)} {fo v : VmValue O}

theorem frameAt_eq_ok {f : FrameObject O} (h : frameAt fs fo = .ok f) :
    ∃ a, fo = .frame a ∧ fs[a]? = some f := by
  cases fo with
  | frame a =>
    cases hf : fs[a]? with
    | none =>
      simp only [frameAt, hf] at h
      cases h
    | some g =>
      simp only [frameAt, hf] at h
      cases h
      exact ⟨a, rfl, hf⟩
  | _ => cases h

theorem setFrameArgs_keeps {i : Int} (h : setFrameArgs fs fo i v = .ok fs') :
    Keeps n fs fs' := by
  obtain ⟨f, hf, h⟩ := bind_eq_ok.mp h
  obtain ⟨a, rfl, ha⟩ := frameAt_eq_ok hf
  split at h
  · cases h
  · cases h
    exact Keeps.set ha rfl

theorem frameUpdate_keeps {d : Nat} {i : Int} (h : frameUpdate fs fo d i v = .ok fs') :
    Keeps n fs fs' := by
  obtain ⟨_, -, h⟩ := bind_eq_ok.mp h
  obtain ⟨_, -, h⟩ := bind_eq_ok.mp h
  exact setFrameArgs_keeps h

theorem extendFrame_keeps {nalloc : Int} (h : extendFrame fs fo nalloc = .ok fs') :
    Keeps n fs fs' := by
  obtain ⟨f, hf, h⟩ := bind_eq_ok.mp h
  obtain ⟨a, rfl, ha⟩ := frameAt_eq_ok hf
  split at h
  · cases h
    exact Keeps.refl n fs
  split at h
  · cases h
    exact Keeps.refl n fs
  · cases h
    exact Keeps.set ha rfl

theorem frameAllocate_keeps {arityp1 : Int} (h : frameAllocate fs arityp1 = .ok (v, fs')) :
    Keeps n fs fs' ∧ v = .frame fs.length ∧ fs'.length = fs.length + 1 := by
  unfold frameAllocate at h
  split at h
  · cases h
  · cases h
    exact ⟨Keeps.append n fs _, rfl, List.length_append⟩

theorem linkFrame_keeps {f1 : VmValue O} {b : Nat} (h : linkFrame fs f1 (.frame b) = .ok fs')
    (hn : n ≤ b) : Keeps n fs fs' := by
  obtain ⟨f, -, h⟩ := bind_eq_ok.mp h
  cases h
  exact Keeps.set_above _ hn

/-- What a frame is linked to. -/
theorem linkFrame_next {f1 : VmValue O} {b : Nat} (h : linkFrame fs f1 (.frame b) = .ok fs') :
    ∃ f, fs'[b]? = some f ∧ f.next = f1 := by
  obtain ⟨f, hf, h⟩ := bind_eq_ok.mp h
  obtain ⟨a, hb, hf⟩ := frameAt_eq_ok hf
  cases hb
  cases h
  obtain ⟨hb, -⟩ := List.getElem?_eq_some_iff.mp hf
  exact ⟨_, List.getElem?_set_self hb, rfl⟩

end Frames

/-! ## Instructions -/

section Memory

variable {O S : Type} {host : Host O S} {n : Nat} {mem mem' : Memory O S}

theorem withVal_frames {r : Result (VmValue O)} (h : mem.withVal r = .ok mem') :
    mem'.frames = mem.frames := by
  obtain ⟨v, -, h⟩ := bind_eq_ok.mp h
  cases h
  rfl

theorem withHost_frames {f : S → Result (VmValue O × S)} (h : mem.withHost f = .ok mem') :
    mem'.frames = mem.frames := by
  obtain ⟨v, -, h⟩ := bind_eq_ok.mp h
  cases h
  rfl

theorem withFrames_eq_ok {r : Result (List (FrameObject O))} (h : mem.withFrames r = .ok mem') :
    ∃ fs, r = .ok fs ∧ mem' = { mem with frames := fs } := by
  obtain ⟨fs, hr, h⟩ := bind_eq_ok.mp h
  cases h
  exact ⟨fs, hr, rfl⟩

theorem allocate_keeps {arityp1 : Int} (h : mem.allocate arityp1 = .ok mem') :
    Keeps n mem.frames mem'.frames ∧ mem'.val = .frame mem.frames.length ∧
      mem'.frames.length = mem.frames.length + 1 := by
  obtain ⟨⟨v, fs⟩, hr, h⟩ := bind_eq_ok.mp h
  cases h
  exact frameAllocate_keeps hr

theorem allocateDotted_keeps {arity : Int} (h : mem.allocateDotted arity = .ok mem') :
    Keeps n mem.frames mem'.frames ∧ mem'.val = .frame mem.frames.length ∧
      mem.frames.length < mem'.frames.length := by
  obtain ⟨mem₁, h₁, h⟩ := bind_eq_ok.mp h
  obtain ⟨hk, hv, hlen⟩ := allocate_keeps (n := n) h₁
  obtain ⟨fs, hr, rfl⟩ := withFrames_eq_ok h
  have hk' := frameUpdate_keeps (n := n) hr
  refine ⟨hk.trans hk' (Nat.le_refl n), hv, ?_⟩
  exact Nat.lt_of_lt_of_le (hlen ▸ Nat.lt_succ_self _) hk'.length_le

theorem popFrame_keeps {rank : Int} {v : VmValue O} (h : mem.popFrame rank v = .ok mem') :
    Keeps n mem.frames mem'.frames ∧ mem'.val = mem.val := by
  obtain ⟨fs, hr, rfl⟩ := withFrames_eq_ok h
  exact ⟨frameUpdate_keeps hr, rfl⟩

theorem popListFrame_keeps {arity : Int} {v : VmValue O}
    (h : mem.popListFrame host arity v = .ok mem') :
    Keeps n mem.frames mem'.frames ∧ mem'.val = mem.val := by
  obtain ⟨tail, -, h⟩ := bind_eq_ok.mp h
  have hk := popFrame_keeps (n := n) h
  exact hk

theorem listify_keeps {arity index : Nat} {result : VmValue O}
    (h : Memory.listify host arity index result mem = .ok mem') :
    Keeps n mem.frames mem'.frames ∧ mem'.val = mem.val := by
  induction index generalizing result mem with
  | zero =>
    unfold Memory.listify at h
    split at h
    · obtain ⟨fs, hr, rfl⟩ := withFrames_eq_ok h
      exact ⟨setFrameArgs_keeps hr, rfl⟩
    · cases h
  | succ index ih =>
    unfold Memory.listify at h
    split at h
    · obtain ⟨fs, hr, rfl⟩ := withFrames_eq_ok h
      exact ⟨setFrameArgs_keeps hr, rfl⟩
    · obtain ⟨v, -, h⟩ := bind_eq_ok.mp h
      have hk := ih h
      exact hk

theorem arityGe_eq_ok {arityp1 : Nat} (h : mem.arityGe arityp1 = .ok mem') : mem' = mem := by
  obtain ⟨nargs, -, h⟩ := bind_eq_ok.mp h
  split at h
  · cases h
  · cases h
    rfl

theorem arityEq_eq_ok {arityp1 : Nat} (h : mem.arityEq arityp1 = .ok mem') : mem' = mem := by
  obtain ⟨nargs, -, h⟩ := bind_eq_ok.mp h
  split at h
  · cases h
    rfl
  · cases h

theorem invoke_frames {func env : VmValue O} {xi : Nat} (h : mem.invoke host func xi env = .ok mem') :
    mem'.frames = mem.frames := by
  unfold Memory.invoke at h
  split at h
  iterate 3 cases h
  obtain ⟨f, -, h⟩ := bind_eq_ok.mp h
  exact withHost_frames h

theorem constantRef_frames {c : VmValue O} (h : mem.constantRef host c = .ok mem') :
    mem'.frames = mem.frames := by
  unfold Memory.constantRef at h
  split at h
  iterate 2 cases h
  · exact withHost_frames h
  · cases h
    rfl

theorem primcall_frames {xi vi : Nat} {env pd : VmValue O} {args : List (VmValue O)}
    (h : mem.primcall host xi env vi args = .ok (pd, mem')) : mem'.frames = mem.frames := by
  obtain ⟨⟨pd', store⟩, -, h⟩ := bind_eq_ok.mp h
  obtain ⟨mem₁, hr, h⟩ := bind_eq_ok.mp h
  cases h
  have hf := withHost_frames hr
  exact hf

end Memory

/-! ## Terms -/

section World

variable {O S : Type} {host : Host O S} {home : Home O}
  {apply : Place O → VmValue O → World O S → Result (World O S)} {w w' : World O S}

theorem onMemory_eq_ok {f : Memory O S → Result (Memory O S)} (h : w.onMemory f = .ok w') :
    ∃ mem, f w.mem = .ok mem ∧ w' = { w with mem := mem } := by
  obtain ⟨mem, hm, h⟩ := bind_eq_ok.mp h
  cases h
  exact ⟨mem, hm, rfl⟩

/-- The frames of a world keep their links. -/
abbrev World.Keeps (w w' : World O S) : Prop :=
  Codegen.Keeps w.mem.frames.length w.mem.frames w'.mem.frames

theorem World.Keeps.trans {w w' w'' : World O S} (h : w.Keeps w') (h' : w'.Keeps w'') :
    w.Keeps w'' :=
  Codegen.Keeps.trans h h' h.length_le

theorem World.Keeps.of_frames (h : w'.mem.frames = w.mem.frames) : w.Keeps w' := by
  unfold World.Keeps
  rw [h]
  exact Codegen.Keeps.refl _ _

theorem suppressed_eq_ok {f : World O S → Result (World O S)} (h : w.suppressed f = .ok w') :
    ∃ w₁, f (w.withRcse .true_) = .ok w₁ ∧ w' = w₁.withRcse w.mem.rcse := by
  obtain ⟨w₁, hf, h⟩ := bind_eq_ok.mp h
  cases h
  exact ⟨w₁, hf, rfl⟩

theorem suppressed_keeps {f : World O S → Result (World O S)}
    (hf : ∀ w w', f w = .ok w' → w.Keeps w') (h : w.suppressed f = .ok w') : w.Keeps w' := by
  obtain ⟨w₁, h₁, rfl⟩ := suppressed_eq_ok h
  have hk := hf (w.withRcse .true_) w₁ h₁
  exact hk

theorem suppressedUnless_keeps {tailp : Bool} {f : World O S → Result (World O S)}
    (hf : ∀ w w', f w = .ok w' → w.Keeps w') (h : w.suppressedUnless tailp f = .ok w') :
    w.Keeps w' := by
  unfold World.suppressedUnless at h
  split at h
  · exact hf _ _ h
  · exact suppressed_keeps hf h

theorem evalClause_keeps {tailp : Bool} {mt : ICodes O} {f : World O S → Result (World O S)}
    (hf : ∀ w w', f w = .ok w' → w.Keeps w') (h : evalClause tailp mt f w = .ok w') :
    w.Keeps w' := by
  unfold evalClause at h
  split at h
  · exact hf _ _ h
  · exact suppressed_keeps hf h

theorem enter_keeps {lambda : Lambda O} {n : Nat} (h : lambda.enter host w = .ok w') :
    Codegen.Keeps n w.mem.frames w'.mem.frames ∧ w'.mem.val = w.mem.val ∧
      w'.closures = w.closures := by
  unfold Lambda.enter at h
  split at h
  · obtain ⟨w₁, h₁, h⟩ := bind_eq_ok.mp h
    obtain ⟨mem₁, ha, rfl⟩ := onMemory_eq_ok h₁
    obtain ⟨mem₂, h₂, rfl⟩ := onMemory_eq_ok h
    cases arityGe_eq_ok ha
    obtain ⟨f, -, h₂⟩ := bind_eq_ok.mp h₂
    obtain ⟨hk, hv⟩ := listify_keeps (n := n) h₂
    exact ⟨hk, hv, rfl⟩
  · obtain ⟨mem, hm, rfl⟩ := onMemory_eq_ok h
    cases arityEq_eq_ok hm
    exact ⟨Codegen.Keeps.refl n _, rfl, rfl⟩

theorem codegenPrimcall_keeps {k : Place O} {pd : Nat} {args : List (VmValue O)}
    (h : primcall host k pd args w = .ok w') : w.Keeps w' := by
  obtain ⟨⟨_, mem⟩, hm, h⟩ := bind_eq_ok.mp h
  cases h
  exact World.Keeps.of_frames (primcall_frames hm)

/-- Calls keep the frames before the frame of their arguments. -/
def ApplyKeeps (apply : Place O → VmValue O → World O S → Result (World O S)) : Prop :=
  ∀ k func w w' b, w.mem.val = .frame b → apply k func w = .ok w' →
    Codegen.Keeps b w.mem.frames w'.mem.frames

/-- A let keeps the links, if its arguments leave a new frame. -/
theorem link_keeps {w₁ w₂ : World O S} {frame : VmValue O} {b : Nat} (h₁ : w.Keeps w₁)
    (hb : w₁.mem.val = .frame b) (hle : w.mem.frames.length ≤ b)
    (hlink : (w₁.onMemory fun mem => mem.link frame) = .ok w₂) (h₂ : w₂.Keeps w') :
    w.Keeps w' := by
  obtain ⟨mem, hm, rfl⟩ := onMemory_eq_ok hlink
  obtain ⟨fs, hr, rfl⟩ := withFrames_eq_ok hm
  rw [hb] at hr
  have hk := Codegen.Keeps.trans h₁ (linkFrame_keeps hr hle) (Nat.le_refl _)
  exact Codegen.Keeps.trans hk h₂ hk.length_le

/-- A call keeps the links, if its arguments leave a new frame. -/
theorem call_keeps (ha : ApplyKeeps apply) {w₁ w₂ : World O S} {k : Place O} {func : VmValue O}
    (h₁ : w.Keeps w₁)
    (h₂ : w₁.Keeps w₂ ∧ ∃ b, w₂.mem.val = .frame b ∧ w₁.mem.frames.length ≤ b ∧
      b < w₂.mem.frames.length)
    (h : apply k func w₂ = .ok w') : w.Keeps w' := by
  obtain ⟨hk, b, hb, hle, -⟩ := h₂
  exact h₁.trans (Codegen.Keeps.trans hk (ha _ _ _ _ b hb h) hle)

mutual

/-- Running intermediate code keeps the links of the frames there are. -/
theorem eval_keeps (ha : ApplyKeeps apply) (m : ICode O) {k : Place O} {w w' : World O S}
    (h : eval host home apply m k w = .ok w') : w.Keeps w' := by
  cases m with
  | shallowArgumentRef j =>
    obtain ⟨mem, hm, rfl⟩ := onMemory_eq_ok h
    exact .of_frames (withVal_frames hm)
  | deepArgumentRef i j =>
    obtain ⟨mem, hm, rfl⟩ := onMemory_eq_ok h
    exact .of_frames (withVal_frames hm)
  | shallowArgumentSet j m1 =>
    obtain ⟨w₁, h₁, h⟩ := bind_eq_ok.mp h
    obtain ⟨mem, hm, rfl⟩ := onMemory_eq_ok h
    obtain ⟨fs, hr, rfl⟩ := withFrames_eq_ok hm
    exact (eval_keeps ha m1 h₁).trans (setFrameArgs_keeps hr)
  | deepArgumentSet i j m1 =>
    obtain ⟨w₁, h₁, h⟩ := bind_eq_ok.mp h
    obtain ⟨mem, hm, rfl⟩ := onMemory_eq_ok h
    obtain ⟨fs, hr, rfl⟩ := withFrames_eq_ok hm
    exact (eval_keeps ha m1 h₁).trans (frameUpdate_keeps hr)
  | symbolRef r =>
    obtain ⟨mem, hm, rfl⟩ := onMemory_eq_ok h
    exact .of_frames (withHost_frames hm)
  | symbolSet e a m1 =>
    obtain ⟨w₁, h₁, h⟩ := bind_eq_ok.mp h
    obtain ⟨mem, hm, rfl⟩ := onMemory_eq_ok h
    exact (eval_keeps ha m1 h₁).trans (.of_frames (withHost_frames hm))
  | constantRef c =>
    obtain ⟨mem, hm, rfl⟩ := onMemory_eq_ok h
    exact .of_frames (constantRef_frames hm)
  | alternative src m1 m2 m3 =>
    obtain ⟨w₁, h₁, h⟩ := bind_eq_ok.mp h
    have hk := suppressed_keeps (fun _ _ => eval_keeps ha m1) h₁
    split at h
    · exact hk.trans (eval_keeps ha m3 h)
    · exact hk.trans (eval_keeps ha m2 h)
  | sequence m1 mp =>
    obtain ⟨w₁, h₁, h⟩ := bind_eq_ok.mp h
    exact (eval_keeps ha m1 h₁).trans (eval_keeps ha mp h)
  | trFixLet ms mp formals src =>
    obtain ⟨w₁, h₁, h⟩ := bind_eq_ok.mp h
    obtain ⟨w₂, h₂, h⟩ := bind_eq_ok.mp h
    obtain ⟨hk, b, hb, hle, -⟩ := evalArguments_keeps ha ms h₁
    exact link_keeps hk hb hle h₂ (eval_keeps ha mp h)
  | fixLet ms mp formals src =>
    obtain ⟨w₁, h₁, h⟩ := bind_eq_ok.mp h
    obtain ⟨w₂, h₂, h⟩ := bind_eq_ok.mp h
    obtain ⟨hk, b, hb, hle, -⟩ := evalArguments_keeps ha ms h₁
    exact link_keeps hk hb hle h₂ (eval_keeps ha mp h)
  | local_ e i m1 mp formals n =>
    obtain ⟨w₁, h₁, h⟩ := bind_eq_ok.mp h
    obtain ⟨w₂, h₂, h⟩ := bind_eq_ok.mp h
    obtain ⟨w₃, h₃, h⟩ := bind_eq_ok.mp h
    obtain ⟨mem₂, hm₂, rfl⟩ := onMemory_eq_ok h₂
    obtain ⟨mem₃, hm₃, rfl⟩ := onMemory_eq_ok h₃
    obtain ⟨fs₂, hr₂, rfl⟩ := withFrames_eq_ok hm₂
    obtain ⟨fs₃, hr₃, rfl⟩ := withFrames_eq_ok hm₃
    have hk₁ := eval_keeps ha m1 h₁
    have hk₂ := Codegen.Keeps.trans hk₁ (extendFrame_keeps hr₂) hk₁.length_le
    have hk₃ := Codegen.Keeps.trans hk₂ (setFrameArgs_keeps hr₃) hk₂.length_le
    exact Codegen.Keeps.trans hk₃ (eval_keeps ha mp h) hk₃.length_le
  | primcall0 e pd => exact codegenPrimcall_keeps h
  | primcall1 e m1 pd =>
    obtain ⟨w₁, h₁, h⟩ := bind_eq_ok.mp h
    exact (eval_keeps ha m1 h₁).trans (codegenPrimcall_keeps h)
  | primcall2 e m1 m2 pd =>
    obtain ⟨w₁, h₁, h⟩ := bind_eq_ok.mp h
    obtain ⟨w₂, h₂, h⟩ := bind_eq_ok.mp h
    exact ((eval_keeps ha m1 h₁).trans (eval_keeps ha m2 h₂)).trans (codegenPrimcall_keeps h)
  | trRegularCall e m1 ms =>
    obtain ⟨w₁, h₁, h⟩ := bind_eq_ok.mp h
    obtain ⟨w₂, h₂, h⟩ := bind_eq_ok.mp h
    exact call_keeps ha (eval_keeps ha m1 h₁) (evalArguments_keeps ha ms h₂) h
  | regularCall e m1 ms =>
    obtain ⟨w₁, h₁, h⟩ := bind_eq_ok.mp h
    obtain ⟨w₂, h₂, h⟩ := bind_eq_ok.mp h
    exact call_keeps ha (eval_keeps ha m1 h₁) (evalArguments_keeps ha ms h₂) h
  | closure nary mp a =>
    cases h
    exact .of_frames rfl
  | and_ tailp m1 mt =>
    obtain ⟨w₁, h₁, h⟩ := bind_eq_ok.mp h
    exact (evalClause_keeps (fun _ _ => eval_keeps ha m1) h₁).trans (evalClauses_keeps ha mt h)
  | or_ tailp m1 mt =>
    obtain ⟨w₁, h₁, h⟩ := bind_eq_ok.mp h
    exact (evalClause_keeps (fun _ _ => eval_keeps ha m1) h₁).trans (evalClauses_keeps ha mt h)
  | begin_ tailp m1 mt =>
    obtain ⟨w₁, h₁, h⟩ := bind_eq_ok.mp h
    exact (eval_keeps ha m1 h₁).trans (evalList_keeps ha mt h)
  | list m1 mt =>
    obtain ⟨w₁, h₁, h⟩ := bind_eq_ok.mp h
    exact (eval_keeps ha m1 h₁).trans (evalList_keeps ha mt h)
  | not tailp m1 =>
    obtain ⟨w₁, h₁, h⟩ := bind_eq_ok.mp h
    obtain ⟨mem, hm, rfl⟩ := onMemory_eq_ok h
    cases hm
    have hk := suppressedUnless_keeps (fun _ _ => eval_keeps ha m1) h₁
    exact hk.trans (.of_frames rfl)
  | return_ => cases h
  | pushAbort m1 => cases h
  | popAbort => cases h
  | nop =>
    cases h
    exact .of_frames rfl

theorem evalList_keeps (ha : ApplyKeeps apply) (mt : ICodes O) {k : Place O} {w w' : World O S}
    (h : evalList host home apply mt k w = .ok w') : w.Keeps w' := by
  cases mt with
  | nil =>
    cases h
    exact .of_frames rfl
  | cons m mt =>
    obtain ⟨w₁, h₁, h⟩ := bind_eq_ok.mp h
    exact (eval_keeps ha m h₁).trans (evalList_keeps ha mt h)

theorem evalClauses_keeps (ha : ApplyKeeps apply) (mt : ICodes O) {tailp : Bool}
    {stop : VmValue O → Bool} {k : Place O} {w w' : World O S}
    (h : evalClauses host home apply tailp stop mt k w = .ok w') : w.Keeps w' := by
  cases mt with
  | nil =>
    cases h
    exact .of_frames rfl
  | cons m mt =>
    unfold evalClauses at h
    split at h
    · cases h
      exact .of_frames rfl
    · obtain ⟨w₁, h₁, h⟩ := bind_eq_ok.mp h
      exact (evalClause_keeps (fun _ _ => eval_keeps ha m) h₁).trans (evalClauses_keeps ha mt h)

/-- The frame of the arguments is a new one. -/
theorem evalArguments_keeps (ha : ApplyKeeps apply) (ms : Arguments O) {k : Place O}
    {w w' : World O S} (h : evalArguments host home apply ms k w = .ok w') :
    w.Keeps w' ∧ ∃ b, w'.mem.val = .frame b ∧ w.mem.frames.length ≤ b ∧
      b < w'.mem.frames.length := by
  cases ms with
  | allocateFrame arity =>
    obtain ⟨mem, hm, rfl⟩ := onMemory_eq_ok h
    obtain ⟨hk, hv, hlen⟩ := allocate_keeps hm
    exact ⟨hk, _, hv, Nat.le_refl _, hlen ▸ Nat.lt_succ_self _⟩
  | allocateDottedFrame arity =>
    obtain ⟨mem, hm, rfl⟩ := onMemory_eq_ok h
    obtain ⟨hk, hv, hlen⟩ := allocateDotted_keeps hm
    exact ⟨hk, _, hv, Nat.le_refl _, hlen⟩
  | reuseFrame arity =>
    obtain ⟨mem, hm, rfl⟩ := onMemory_eq_ok h
    obtain ⟨hk, hv, hlen⟩ := allocate_keeps hm
    exact ⟨hk, _, hv, Nat.le_refl _, hlen ▸ Nat.lt_succ_self _⟩
  | storeArgument m1 ms rank =>
    obtain ⟨w₁, h₁, h⟩ := bind_eq_ok.mp h
    obtain ⟨w₂, h₂, h⟩ := bind_eq_ok.mp h
    obtain ⟨mem, hm, rfl⟩ := onMemory_eq_ok h
    have hk₁ := eval_keeps ha m1 h₁
    obtain ⟨hk₂, b, hb, hle, hlt⟩ := evalArguments_keeps ha ms h₂
    obtain ⟨hk₃, hv⟩ := popFrame_keeps hm
    exact ⟨(hk₁.trans hk₂).trans hk₃, b, hv.trans hb, Nat.le_trans hk₁.length_le hle,
      Nat.lt_of_lt_of_le hlt hk₃.length_le⟩
  | listArgument m1 ms arity =>
    obtain ⟨w₁, h₁, h⟩ := bind_eq_ok.mp h
    obtain ⟨w₂, h₂, h⟩ := bind_eq_ok.mp h
    obtain ⟨mem, hm, rfl⟩ := onMemory_eq_ok h
    have hk₁ := eval_keeps ha m1 h₁
    obtain ⟨hk₂, b, hb, hle, hlt⟩ := evalArguments_keeps ha ms h₂
    obtain ⟨hk₃, hv⟩ := popListFrame_keeps hm
    exact ⟨(hk₁.trans hk₂).trans hk₃, b, hv.trans hb, Nat.le_trans hk₁.length_le hle,
      Nat.lt_of_lt_of_le hlt hk₃.length_le⟩

end

/-- Calls keep the links, with any fuel. -/
theorem call_applyKeeps (n : Nat) : ApplyKeeps (call host home n) := by
  induction n with
  | zero =>
    intro k func w w' b _ h
    cases h
  | succ n ih =>
    intro k func w w' b hb h
    unfold call at h
    split at h
    · split at h
      · next cl _ =>
        obtain ⟨w₁, h₁, h⟩ := bind_eq_ok.mp h
        obtain ⟨w₂, h₂, h⟩ := bind_eq_ok.mp h
        obtain ⟨mem, hm, rfl⟩ := onMemory_eq_ok h₂
        obtain ⟨fs, hr, rfl⟩ := withFrames_eq_ok hm
        obtain ⟨hk₁, hv, -⟩ := enter_keeps h₁
        rw [hv, hb] at hr
        have hk₂ := linkFrame_keeps hr (Nat.le_refl b)
        have hk := hk₁.trans hk₂ (Nat.le_refl b)
        obtain ⟨f, hf, -⟩ := linkFrame_next hr
        obtain ⟨hlt, -⟩ := List.getElem?_eq_some_iff.mp hf
        exact hk.trans (eval_keeps ih _ h) (Nat.le_of_lt hlt)
      · cases h
    · obtain ⟨mem, hm, rfl⟩ := onMemory_eq_ok h
      have hf := invoke_frames hm
      show Codegen.Keeps b w.mem.frames mem.frames
      rw [hf]
      exact Codegen.Keeps.refl b _

end World

end Idio.Codegen
