/-
  Delim/Refinement.lean --- the control operators against contexts with prompts.

  `unwind-till-marked!` stops at the first marked hole, whatever its tag, and
  `control-k` restores the continuation and the holes of its capture, whatever was to be
  done where it was called.  While that hole has the tag that was asked for, and a
  captured continuation is called where nothing but its capture is left to return to,
  every step of the implementation is a step of the machine of `Lib/Prompts.lean` (or
  several, where adjacent prompts of one tag are left), whose rules are the reduction
  laws of the operators.
-/
import Mathlib.Data.List.Forall2
import Idio.Delim.Holes

set_option autoImplicit false

namespace Idio.Delim

open Prompts (Entry Act Language Alike)

section Contexts

variable {C S : Type}

/-- The frames that a continuation can still return to. -/
def frames : List (KFrame C) → List (Frame C)
  | [] => []
  | .frame f :: k => f :: frames k
  | .abortTop :: _ => []

/-- The same as a context. -/
def live (k : List (KFrame C)) : List (Entry (Frame C) Tag) :=
  (frames k).map .frame

/-- The context that holes stand for. -/
def holesContext : List (Hole C) → List (Entry (Frame C) Tag)
  | [] => []
  | h :: hs => (if h.marked then [.prompt h.tag] else []) ++ live h.k ++ holesContext hs

/-- What a value is returned to. -/
def returnContext (k : List (KFrame C)) (hs : List (Hole C)) : List (Entry (Frame C) Tag) :=
  live k ++ holesContext hs

/-- The continuation goes on with the top hole. -/
def Aborts (k : List (KFrame C)) : Prop :=
  KFrame.abortTop ∈ k

/-- Each continuation but the last goes on with the next hole. -/
def Chained (k : List (KFrame C)) : List (Hole C) → Prop
  | [] => ¬ Aborts k
  | h :: hs => Aborts k ∧ Chained h.k hs

/-- Every hole is that of a prompt, and restores the holes below it. -/
def Nested : List (Hole C) → Prop
  | [] => True
  | h :: hs => h.marked = true ∧ h.holes = hs ∧ Nested hs

/-- The prompt that `shift-at` takes with it. -/
def delimiter (shift : Bool) (tag : Tag) : List (Entry (Frame C) Tag) :=
  if shift then [.prompt tag] else []

/-- What a captured continuation holds on to is the context `e`. -/
structure Captures (sub : Subcont C) (e : List (Entry (Frame C) Tag)) : Prop where
  context : e = live sub.controlK ++ delimiter sub.shift sub.tag
  chained : Chained sub.controlK sub.controlHoles
  nested : Nested sub.controlHoles

/-- The state of the interpreter and that of the machine. -/
structure Represents (st : State C S) (sp : Prompts.State (Value C) (Frame C) Tag S) :
    Prop where
  act : sp.act = st.act
  store : sp.store = st.store
  context : Alike sp.ctx (returnContext st.k st.holes)
  chained : Chained st.k st.holes
  nested : Nested st.holes
  subs : List.Forall₂ Captures st.subs sp.subs

@[simp] theorem live_frame (f : Frame C) (k : List (KFrame C)) :
    live (.frame f :: k) = .frame f :: live k := rfl

@[simp] theorem live_abortTop (k : List (KFrame C)) : live (.abortTop :: k) = [] := rfl

theorem holesContext_prompt {h : Hole C} (hs : List (Hole C)) (hm : h.marked = true) :
    holesContext (h :: hs) = .prompt h.tag :: returnContext h.k hs := by
  rw [holesContext, if_pos hm]
  rfl

theorem Chained.frame {f : Frame C} {k : List (KFrame C)} {hs : List (Hole C)} :
    Chained (.frame f :: k) hs ↔ Chained k hs := by
  cases hs with
  | nil => simp [Chained, Aborts]
  | cons h hs => simp [Chained, Aborts]

/-- A continuation with no frame is the last. -/
theorem Chained.eq_nil {hs : List (Hole C)} (hc : Chained [] hs) : hs = [] := by
  cases hs with
  | nil => rfl
  | cons h hs => cases hc.1

/-- What aborts has a hole to go on with. -/
theorem Chained.hole {k : List (KFrame C)} {hs : List (Hole C)} (hc : Chained (.abortTop :: k) hs) :
    ∃ h r, hs = h :: r ∧ Chained h.k r := by
  cases hs with
  | nil => exact absurd List.mem_cons_self hc
  | cons h r => exact ⟨h, r, rfl, hc.2⟩

end Contexts

section Unwinding

variable {C : Type}

/-- The tag of the first marked hole. -/
def nearestTag : List (Hole C) → Option Tag
  | [] => none
  | h :: hs => if h.marked then some h.tag else nearestTag hs

/-- Holes of prompts only: `unwind-till-marked!` takes none. -/
theorem Nested.unwindTillMarked {hs : List (Hole C)} {t : Tag} (hn : Nested hs)
    (ht : nearestTag hs = some t) :
    ∃ g r, hs = g :: r ∧ g.tag = t ∧ unwindTillMarked hs = .ok ([], g :: r) := by
  cases hs with
  | nil => cases ht
  | cons g r =>
    have hm : g.marked = true := hn.1
    rw [nearestTag, if_pos hm] at ht
    exact ⟨g, r, rfl, Option.some.inj ht, by rw [Delim.unwindTillMarked, if_pos hm]⟩

theorem prompt_not_mem_live {k : List (KFrame C)} {t : Tag} : Entry.prompt t ∉ live k := by
  simp [live]

end Unwinding

section Simulation

variable {C S : Type}

/-- An operator that captures finds its tag on the nearest marked hole, a captured
continuation is called where its capture is what is left to return to, and there is no
unwinding. -/
def Faithful (st : State C S) : Prop :=
  match st.act with
  | .control _ tag _ => nearestTag st.holes = some tag
  | .call (.subcont n) _ =>
      ∀ sub, st.subs[n]? = some sub →
        Alike (delimiter sub.shift sub.tag ++ returnContext st.k st.holes)
          (holesContext sub.controlHoles)
  | .call (.unwindTo _) _ | .call (.abortTo _) _ => False
  | _ => True

/-- The state is at an operator that captures, or at the call of a captured continuation. -/
def AtCapture (st : State C S) : Prop :=
  match st.act with
  | .control _ _ _ | .call (.subcont _) _ => True
  | _ => False

variable {P : Program C S} {st st' : State C S}
  {sp : Prompts.State (Value C) (Frame C) Tag S}

theorem Represents.prompt {tag : Tag} {thunk : Value C} (h : Represents st sp) :
    Represents (promptAt tag thunk st)
      { sp with act := .call thunk .unspec, ctx := .prompt tag :: sp.ctx } := by
  refine ⟨rfl, h.store, ?_, ⟨List.mem_cons_self, h.chained⟩, ⟨rfl, rfl, h.nested⟩, h.subs⟩
  exact h.context.cons (.prompt tag)

/-- What is captured is the context up to the nearest prompt. -/
theorem Represents.control {shift : Bool} {tag : Tag} {f : Value C} (h : Represents st sp)
    (hact : st.act = .control shift tag f) (hf : nearestTag st.holes = some tag) :
    ∃ st' sp', controlShiftAt shift tag f st = .ok st' ∧
      Prompts.step (language P) sp = some sp' ∧ Represents st' sp' := by
  obtain ⟨g, r, hholes, rfl, hunwind⟩ := h.nested.unwindTillMarked hf
  have hm : g.marked = true := (hholes ▸ h.nested).1
  obtain ⟨act, ctx, subs, store⟩ := sp
  obtain rfl : act = st.act := h.act
  have hctx : Alike ctx (returnContext st.k st.holes) := h.context
  rw [returnContext, hholes, holesContext_prompt r hm] at hctx
  obtain ⟨c, rfl, hc⟩ := Alike.of_append hctx
  obtain ⟨c, rfl⟩ := hc.prompt
  refine ⟨_, _, by rw [controlShiftAt, hunwind]; rfl,
    by rw [hact]; exact Prompts.step_control prompt_not_mem_live, ?_⟩
  refine ⟨?_, h.store, ?_, ⟨List.mem_cons_self, (hholes ▸ h.chained).2⟩, hholes ▸ h.nested, ?_⟩
  · rw [h.subs.length_eq]
    rfl
  · rw [← holesContext_prompt r hm] at hc
    exact hc
  · exact List.rel_append h.subs (.cons ⟨rfl, h.chained, h.nested⟩ .nil)

/-- The machine's capture of a continuation that is there. -/
theorem Represents.captured {n : Nat} {sub : Subcont C} (h : Represents st sp)
    (hn : st.subs[n]? = some sub) : ∃ e, sp.subs[n]? = some e ∧ Captures sub e := by
  have hlt := (List.getElem?_eq_some_iff.mp hn).1
  have hlt' : n < sp.subs.length := h.subs.length_eq ▸ hlt
  have hget := h.subs.get hlt hlt'
  rw [List.getElem?_eq_getElem hlt, Option.some.injEq] at hn
  exact ⟨sp.subs[n], List.getElem?_eq_getElem hlt', by simpa [hn] using hget⟩

/-- The call of a captured continuation puts its context around the value just if what it
restores was there. -/
theorem Represents.subcont_iff {n : Nat} {v : Value C} {sub : Subcont C} (h : Represents st sp)
    (hact : st.act = .call (.subcont n) v) (hn : st.subs[n]? = some sub) :
    (∃ sp', Prompts.step (language P) sp = some sp' ∧ Represents (invokeSubcont sub v st) sp') ↔
      Faithful st := by
  obtain ⟨e, he, hsub⟩ := h.captured hn
  have hfaithful : Faithful st ↔ Alike (delimiter sub.shift sub.tag ++ returnContext st.k st.holes)
      (holesContext sub.controlHoles) := by
    simp [Faithful, hact, hn]
  have hcontext : Alike (delimiter sub.shift sub.tag ++ sp.ctx)
      (delimiter sub.shift sub.tag ++ returnContext st.k st.holes) := by
    cases sub.shift with
    | true => exact h.context.cons (.prompt sub.tag)
    | false => exact h.context
  obtain ⟨act, ctx, subs, store⟩ := sp
  obtain rfl : act = st.act := h.act
  have hstep : Prompts.step (language P) ⟨st.act, ctx, subs, store⟩ =
      some ⟨.ret v, e ++ ctx, subs, store⟩ := by
    rw [hact]
    exact Prompts.step_call_subcont rfl he
  have hrestored : Alike (e ++ ctx) (returnContext sub.controlK sub.controlHoles) ↔ Faithful st := by
    rw [hfaithful, hsub.context, List.append_assoc]
    refine Alike.append.trans ?_
    exact ⟨fun ha => hcontext.symm.trans ha, fun ha => hcontext.trans ha⟩
  refine ⟨fun hsp => ?_, fun hf => ?_⟩
  · obtain ⟨sp', hsp', hrep⟩ := hsp
    obtain rfl := Option.some.inj (hstep.symm.trans hsp')
    exact hrestored.mp hrep.context
  · exact ⟨_, hstep, rfl, h.store, hrestored.mpr hf, hsub.chained, hsub.nested, h.subs⟩

/-- An operator captures what the laws say just if its tag is that of the nearest prompt. -/
theorem Represents.control_iff {shift : Bool} {tag : Tag} {f : Value C} (h : Represents st sp)
    (hact : st.act = .control shift tag f) (hstep : controlShiftAt shift tag f st = .ok st') :
    (∃ sp', Prompts.step (language P) sp = some sp' ∧ Represents st' sp') ↔ Faithful st := by
  have hfaithful : Faithful st ↔ nearestTag st.holes = some tag := by
    rw [Faithful, hact]
  rw [hfaithful]
  refine ⟨fun hsp => ?_, fun hf => ?_⟩
  · obtain ⟨sp', hsp', hrep⟩ := hsp
    cases hholes : st.holes with
    | nil =>
      rw [controlShiftAt, hholes] at hstep
      cases hstep
    | cons g r =>
      have hm : g.marked = true := (hholes ▸ h.nested).1
      obtain ⟨e, c, hctx, hsubs⟩ := Prompts.eq_of_step_control (h.act.trans hact) hsp'
      -- the machine takes what is above its tag, the implementation its own frames
      have he : e = live st.k := by
        have hst' : st'.subs[st.subs.length]? = some ⟨shift, tag, st.k, st.holes, []⟩ := by
          rw [controlShiftAt, hholes, unwindTillMarked, if_pos hm] at hstep
          rw [← Except.ok.inj hstep, hholes]
          exact List.getElem?_concat_length
        obtain ⟨e', he', hcaptures⟩ := hrep.captured hst'
        rw [hsubs, h.subs.length_eq, List.getElem?_concat_length] at he'
        rw [← Option.some.inj he'] at hcaptures
        exact List.append_cancel_right hcaptures.context
      have halike := h.context
      rw [hctx, he, hholes, returnContext, holesContext_prompt r hm] at halike
      obtain ⟨c', hc'⟩ := (Alike.append.mp halike).prompt
      cases hc'
      exact if_pos hm
  · obtain ⟨st₁, sp₁, heq, hsp, hrep⟩ := h.control (P := P) hact hf
    obtain rfl : st₁ = st' := Except.ok.inj (heq.symm.trans hstep)
    exact ⟨sp₁, hsp, hrep⟩

/-- Either way, the states stay in step just if the condition holds. -/
theorem Represents.capture_iff (h : Represents st sp) (hat : AtCapture st)
    (hstep : step P st = .ok (some st')) :
    (∃ sp', Prompts.step (language P) sp = some sp' ∧ Represents st' sp') ↔ Faithful st := by
  cases hact : st.act with
  | control shift tag f =>
    refine h.control_iff hact ?_
    simp only [Delim.step, hact] at hstep
    cases hcontrol : controlShiftAt shift tag f st with
    | error e => simp [hcontrol] at hstep
    | ok st₁ => simpa [hcontrol] using hstep
  | call w v =>
    cases w with
    | subcont n =>
      cases hn : st.subs[n]? with
      | none => simp [Delim.step, hact, hn] at hstep
      | some sub =>
        obtain rfl : _ = st' := by simpa [Delim.step, hact, hn] using hstep
        exact h.subcont_iff hact hn
    | _ => simp [AtCapture, hact] at hat
  | _ => simp [AtCapture, hact] at hat

/-- A step of the implementation is one or several of the machine. -/
theorem Represents.step (h : Represents st sp) (hf : Faithful st)
    (hstep : step P st = .ok (some st')) :
    ∃ sp', Prompts.Steps (language P) sp sp' ∧ Represents st' sp' := by
  obtain ⟨act, ctx, subs, store⟩ := sp
  obtain rfl : act = st.act := h.act
  obtain rfl : store = st.store := h.store
  have hctx : Alike ctx (returnContext st.k st.holes) := h.context
  cases hact : st.act with
  | ret v =>
    cases hk : st.k with
    | nil => simp [Delim.step, hact, hk] at hstep
    | cons f k =>
      cases f with
      | frame f =>
        obtain rfl : _ = st' := by simpa [Delim.step, hact, hk] using hstep
        rw [hk, returnContext, live_frame, List.cons_append] at hctx
        obtain ⟨c, rfl, hc⟩ := hctx.frame
        exact ⟨_, .single rfl, rfl, rfl, hc, Chained.frame.mp (hk ▸ h.chained), h.nested, h.subs⟩
      | abortTop =>
        obtain ⟨g, hs, hholes, hchained⟩ := (hk ▸ h.chained).hole
        obtain rfl : _ = st' := by simpa [Delim.step, hact, hk, abortTop, hholes] using hstep
        obtain ⟨hm, hrestored, hnested⟩ := hholes ▸ h.nested
        rw [hk, hholes, returnContext, live_abortTop, List.nil_append,
          holesContext_prompt hs hm] at hctx
        obtain ⟨c, hsteps, hc⟩ := hctx.pop (L := language P) (v := v) subs st.store
        subst hrestored
        exact ⟨_, hsteps, rfl, rfl, hc, hchained, hnested, h.subs⟩
  | push f a =>
    obtain rfl : _ = st' := by simpa [Delim.step, hact] using hstep
    exact ⟨_, .single rfl, rfl, rfl, hctx.cons (.frame f), Chained.frame.mpr h.chained, h.nested,
      h.subs⟩
  | prompt tag thunk =>
    obtain rfl : _ = st' := by simpa [Delim.step, hact] using hstep
    exact ⟨_, .single rfl, h.prompt⟩
  | control shift tag f =>
    have htag : nearestTag st.holes = some tag := by simpa [Faithful, hact] using hf
    obtain ⟨st₁, sp₁, heq, hsp, hrep⟩ := h.control (P := P) hact htag
    obtain rfl : st₁ = st' := by simpa [Delim.step, hact, heq] using hstep
    exact ⟨sp₁, .single (hact ▸ hsp), hrep⟩
  | call w v =>
    cases w with
    | subcont n =>
      cases hn : st.subs[n]? with
      | none => simp [Delim.step, hact, hn] at hstep
      | some sub =>
        obtain ⟨sp₁, hsp, hrep⟩ := (h.subcont_iff (P := P) hact hn).mpr hf
        obtain rfl : _ = st' := by simpa [Delim.step, hact, hn] using hstep
        exact ⟨sp₁, .single (hact ▸ hsp), hrep⟩
    | unwindTo tag => simp [Faithful, hact] at hf
    | abortTo tag => simp [Faithful, hact] at hf
    | _ =>
      simp only [Delim.step, hact] at hstep
      split at hstep
      · simp at hstep
      · rename_i r happly
        obtain rfl : _ = st' := by simpa using hstep
        refine ⟨⟨r.1, ctx, subs, r.2⟩, .single ?_, rfl, rfl, hctx, h.chained, h.nested, h.subs⟩
        simp [Prompts.step, language, happly]

/-- With no continuation left the machine has none. -/
theorem Represents.ctx_eq_nil (h : Represents st sp) (hk : st.k = []) : sp.ctx = [] := by
  have hchained := h.chained
  have hctx := h.context
  rw [hk] at hchained
  rw [hk, hchained.eq_nil] at hctx
  exact hctx.eq_nil

/-- Where the machine can go on, so can the implementation. -/
theorem Represents.progress {sp' : Prompts.State (Value C) (Frame C) Tag S}
    (h : Represents st sp) (hf : Faithful st)
    (hsp : Prompts.step (language P) sp = some sp') : ∃ st', Delim.step P st = .ok (some st') := by
  cases hact : st.act with
  | ret v =>
    cases hk : st.k with
    | nil =>
      simp [Prompts.step, h.act, hact, h.ctx_eq_nil hk] at hsp
    | cons f k =>
      cases f with
      | frame f => exact ⟨_, by simp only [Delim.step, hact, hk]; rfl⟩
      | abortTop =>
        obtain ⟨g, hs, hholes, -⟩ := (hk ▸ h.chained).hole
        exact ⟨_, by simp only [Delim.step, hact, hk, abortTop, hholes]; rfl⟩
  | push f a => exact ⟨_, by simp only [Delim.step, hact]; rfl⟩
  | prompt tag thunk => exact ⟨_, by simp only [Delim.step, hact]; rfl⟩
  | control shift tag f =>
    have htag : nearestTag st.holes = some tag := by simpa [Faithful, hact] using hf
    obtain ⟨st₁, -, heq, -, -⟩ := h.control (P := P) hact htag
    exact ⟨st₁, by simp only [Delim.step, hact, heq]; rfl⟩
  | call w v =>
    cases w with
    | subcont n =>
      cases hn : st.subs[n]? with
      | none =>
        have hn' : sp.subs[n]? = none := by
          rw [List.getElem?_eq_none_iff, ← h.subs.length_eq]
          exact List.getElem?_eq_none_iff.mp hn
        simp [Prompts.step, h.act, hact, language, hn'] at hsp
      | some sub => exact ⟨_, by simp only [Delim.step, hact, hn]; rfl⟩
    | unwindTo tag => simp [Faithful, hact] at hf
    | abortTo tag => simp [Faithful, hact] at hf
    | _ =>
      simp only [Delim.step, hact]
      split
      · rename_i happly
        simp [Prompts.step, h.act, hact, language, h.store, happly] at hsp
      · exact ⟨_, rfl⟩

/-- A run of faithful steps is a run of the machine. -/
theorem Represents.run
    (hrun : Relation.ReflTransGen (fun a b => Faithful a ∧ Delim.step P a = .ok (some b)) st st')
    (h : Represents st sp) :
    ∃ sp', Prompts.Steps (language P) sp sp' ∧ Represents st' sp' := by
  induction hrun with
  | refl => exact ⟨sp, .refl, h⟩
  | tail _ hstep ih =>
    obtain ⟨sp₁, hsteps₁, h₁⟩ := ih
    obtain ⟨sp₂, hsteps₂, h₂⟩ := h₁.step hstep.1 hstep.2
    exact ⟨sp₂, hsteps₁.trans hsteps₂, h₂⟩

end Simulation

/-- **The control operators**: as long as every operator that captures finds its own tag on the
nearest marked hole, and captured continuations are called where their capture is what is
left, a program runs as on the machine whose rules are the reduction laws; it goes on as long
as that does, and returns where that does.  A capture or a call that does not meet the
condition is no step of that machine. -/
theorem control_operators {C S : Type} (P : Program C S) (act : Act (Value C) (Frame C) Tag)
    (s : S) (st : State C S)
    (hrun : Relation.ReflTransGen (fun a b => Faithful a ∧ step P a = .ok (some b))
      ⟨act, [], [], [], s⟩ st) :
    ∃ sp, Prompts.Steps (language P) ⟨act, [], [], s⟩ sp ∧ Represents st sp ∧
      (Faithful st → ∀ sp', Prompts.step (language P) sp = some sp' →
        ∃ st', step P st = .ok (some st')) ∧
      (st.k = [] → sp.ctx = []) ∧
      (AtCapture st → ∀ st', step P st = .ok (some st') →
        ((∃ sp', Prompts.step (language P) sp = some sp' ∧ Represents st' sp') ↔ Faithful st)) := by
  have hinit : Represents (⟨act, [], [], [], s⟩ : State C S) ⟨act, [], [], s⟩ :=
    ⟨rfl, rfl, rfl, by simp [Chained, Aborts], trivial, .nil⟩
  obtain ⟨sp, hsteps, hrep⟩ := hinit.run hrun
  exact ⟨sp, hsteps, hrep, fun hf sp' hsp => hrep.progress hf hsp, hrep.ctx_eq_nil,
    fun hat st' hstep => hrep.capture_iff hat hstep⟩

/-- Numbers and procedures:
`(prompt-at 2 (+ 10 (prompt-at 3 (+ 100 (control-at tag k (body k))))))` is what `0` does. -/
def nestedPrompts (tag : Tag) (body : Value Nat → Act (Value Nat) (Frame Nat) Tag) :
    Program Nat Unit where
  code c _ v s :=
    match c with
    | 0 => (.prompt 2 (.user 1 []), s)
    | 1 => (.push (.user 10 []) (.prompt 3 (.user 2 [])), s)
    | 2 => (.push (.user 100 []) (.control false tag (.user 3 [])), s)
    | _ => (body v, s)
  resume c _ v s :=
    match v with
    | .user n _ => (.ret (.user (c + n) []), s)
    | _ => (.ret v, s)

/-- `k` is called with nothing but the prompt of tag 3 to return to: the program returns 111, as
by the laws. -/
theorem control_operators_nested :
    ∃ subs, Prompts.Steps (language (nestedPrompts 3 fun k => .call k (.user 1 [])))
      ⟨.call (.user 0 []) .unspec, [], [], ()⟩ ⟨.ret (.user 111 []), [], subs, ()⟩ := by
  let k₂ : List (KFrame Nat) := [.frame (.user 10 []), .abortTop]
  obtain ⟨⟨act, ctx, subs, store⟩, hsteps, hrep, -, hctx, -⟩ :=
    control_operators (nestedPrompts 3 fun k => .call k (.user 1 [])) (.call (.user 0 []) .unspec) ()
      ⟨.ret (.user 111 []), [], [],
        [⟨false, 3, .frame (.user 100 []) :: .abortTop :: k₂,
          [⟨3, true, k₂, [⟨2, true, [], []⟩]⟩, ⟨2, true, [], []⟩], []⟩], ()⟩ (by
      refine .head ⟨trivial, rfl⟩ (.head ⟨trivial, rfl⟩ (.head ⟨trivial, rfl⟩ ?_))
      refine .head ⟨trivial, rfl⟩ (.head ⟨trivial, rfl⟩ (.head ⟨trivial, rfl⟩ ?_))
      refine .head ⟨trivial, rfl⟩ (.head ⟨rfl, rfl⟩ (.head ⟨trivial, rfl⟩ ?_))
      -- the call of `k`
      refine .head ⟨fun sub hsub => by cases hsub; rfl, rfl⟩ (.head ⟨trivial, rfl⟩ ?_)
      refine .head ⟨trivial, rfl⟩ (.head ⟨trivial, rfl⟩ ?_)
      exact .single ⟨trivial, rfl⟩)
  cases hrep.act
  cases hctx rfl
  exact ⟨subs, hsteps⟩

/-- By the laws an operator of tag 2 leaves the prompt of tag 2 with its 1, and what is called
before 1000 is added returns to that; the implementation goes on from the prompt of tag 3
and returns 11, and loses the 1000. -/
theorem control_breaks_laws :
    (∃ subs, Prompts.Steps (language (nestedPrompts 2 fun _ => .ret (.user 1 [])))
      ⟨.call (.user 0 []) .unspec, [], [], ()⟩ ⟨.ret (.user 1 []), [], subs, ()⟩) ∧
    (∃ subs, Steps (nestedPrompts 2 fun _ => .ret (.user 1 []))
      ⟨.call (.user 0 []) .unspec, [], [], [], ()⟩ ⟨.ret (.user 11 []), [], [], subs, ()⟩) ∧
    (∃ subs, Prompts.Steps
      (language (nestedPrompts 3 fun k => .push (.user 1000 []) (.call k (.user 1 []))))
      ⟨.call (.user 0 []) .unspec, [], [], ()⟩ ⟨.ret (.user 1111 []), [], subs, ()⟩) ∧
    ∃ subs, Steps (nestedPrompts 3 fun k => .push (.user 1000 []) (.call k (.user 1 [])))
      ⟨.call (.user 0 []) .unspec, [], [], [], ()⟩ ⟨.ret (.user 111 []), [], [], subs, ()⟩ := by
  refine ⟨?_, ?_, ?_, ?_⟩
  · apply Exists.intro
    refine .head rfl (.head rfl (.head rfl (.head rfl (.head rfl (.head rfl (.head rfl
      (.head rfl (.head rfl ?_))))))))
    exact .single rfl
  · exact ⟨_, steps_of_times 12 rfl⟩
  · apply Exists.intro
    refine .head rfl (.head rfl (.head rfl (.head rfl (.head rfl (.head rfl (.head rfl
      (.head rfl (.head rfl (.head rfl (.head rfl (.head rfl (.head rfl (.head rfl ?_)))))))))))))
    exact .head rfl (.single rfl)
  · exact ⟨_, steps_of_times 15 rfl⟩

end Idio.Delim
