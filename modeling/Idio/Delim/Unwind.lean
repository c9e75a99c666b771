/-
  Delim/Unwind.lean --- unwind-protect.

  While the body of a block runs, `dwy-loop` has two adjacent holes on the stack: that
  of `unwind-protect-tag` and above it that of `yield-tag`, whose continuation runs the
  cleanup.  `unwind-to*` pushes the second hole of every such pair again, and goes on with
  the innermost of them; as its continuation restores the holes of its capture, the
  others are lost, and the value is returned from the innermost block as that of its body
  would be.

  A layer is what stands on the stack between an unwind and its prompt: a prompt of the
  program, a block whose body runs, or a block whose cleanup (or before thunk) runs, of
  which the first of the two holes is there.
-/
import Idio.Delim.Holes

set_option autoImplicit false

namespace Idio.Delim

open Prompts (Act)

/-! ## Blocks -/

/-- An `unwind-protect` that was entered: its procedures, the continuation it returns to
and the captured continuation `dwy-k`. -/
structure Block (C : Type) where
  before : Value C
  after : Value C
  outer : List (KFrame C)
  n : Nat

section Blocks

variable {C S : Type}

/-- The continuation of `dwy-k`. -/
def Block.controlK (b : Block C) : List (KFrame C) :=
  .frame (.applyAfter b.after) :: .abortTop :: b.outer

/-- What the body returns to. -/
def Block.yieldK (b : Block C) : List (KFrame C) :=
  .frame (.windResult (.subcont b.n) b.before b.after) :: .abortTop :: b.controlK

/-- The hole of `prompt-at unwind-protect-tag`, above the holes at the entry. -/
def Block.promptHole (b : Block C) (hs : List (Hole C)) : Hole C :=
  ⟨unwindProtectTag, true, b.outer, hs⟩

/-- The hole of `prompt-at yield-tag`. -/
def Block.yieldHole (b : Block C) (hs : List (Hole C)) : Hole C :=
  ⟨yieldTag, true, b.yieldK, b.promptHole hs :: hs⟩

/-- `dwy-k` -/
def Block.sub (b : Block C) (hs : List (Hole C)) : Subcont C :=
  ⟨false, unwindProtectTag, b.controlK, b.promptHole hs :: hs, []⟩

/-- Calling the procedure does `eff` to the store and returns, and leaves the holes and
the continuations captured before as they were. -/
def Returns (P : Program C S) (f : Value C) (eff : S → S) : Prop :=
  ∀ k holes subs s, ∃ w more,
    Steps P ⟨.call f .unspec, k, holes, subs, s⟩ ⟨.ret w, k, holes, subs ++ more, eff s⟩

variable {P : Program C S}

/-- The body of a block starts below its two holes. -/
theorem wind_enters {before : Value C} {eff : S → S} (hbefore : Returns P before eff)
    (body cleanup u : Value C) (k : List (KFrame C)) (holes : List (Hole C))
    (subs : List (Subcont C)) (s : S) (b : Block C)
    (hb : b = ⟨before, cleanup, k, subs.length⟩) :
    ∃ more, Steps P ⟨.call (.wind before body cleanup) u, k, holes, subs, s⟩
      ⟨.call body .unspec, .abortTop :: b.yieldK, b.yieldHole holes :: b.promptHole holes :: holes,
        subs ++ [b.sub holes] ++ more, eff s⟩ := by
  subst hb
  let b : Block C := ⟨before, cleanup, k, subs.length⟩
  obtain ⟨w, more, hrun⟩ := hbefore
    (.frame (.windBody (.subcont subs.length) before cleanup (.windThunk body)) :: .abortTop ::
      b.controlK) (b.promptHole holes :: holes) (subs ++ [b.sub holes]) s
  have hcall : Steps P ⟨.call (.wind before body cleanup) u, k, holes, subs, s⟩
      ⟨.call before .unspec,
        .frame (.windBody (.subcont subs.length) before cleanup (.windThunk body)) :: .abortTop ::
          b.controlK, b.promptHole holes :: holes, subs ++ [b.sub holes], s⟩ := by
    refine .head rfl (.head rfl (.head rfl (.head rfl (.head rfl (.head rfl ?_)))))
    exact .single rfl
  refine ⟨more, hcall.trans (hrun.trans ?_)⟩
  exact .head rfl (.head rfl (.head rfl (.single rfl)))

variable {b : Block C} {subs : List (Subcont C)}

/-- A value returned from the body: the cleanup is called. -/
theorem body_calls_cleanup {v : Value C} {holes : List (Hole C)} {s : S}
    (hsub : subs[b.n]? = some (b.sub holes)) :
    Steps P ⟨.ret v, b.yieldK, b.promptHole holes :: holes, subs, s⟩
      ⟨.call b.after .unspec, .frame (.thenReturn v) :: .abortTop :: b.outer,
        b.promptHole holes :: holes, subs, s⟩ := by
  have hcall : Steps P ⟨.ret v, b.yieldK, b.promptHole holes :: holes, subs, s⟩
      ⟨.ret v, b.controlK, b.promptHole holes :: holes, subs, s⟩ := by
    refine .head rfl (.head rfl (.single ?_))
    simp only [step, hsub]
    rfl
  exact hcall.trans (.head rfl (.single rfl))

/-- The cleanup is run, and the value goes on to what the block returns to, with the holes of its
entry. -/
theorem cleanup_runs {eff : S → S} (hafter : Returns P b.after eff) (v : Value C)
    (holes : List (Hole C)) (s : S) (hsub : subs[b.n]? = some (b.sub holes)) :
    ∃ more, Steps P ⟨.ret v, b.yieldK, b.promptHole holes :: holes, subs, s⟩
      ⟨.ret v, b.outer, holes, subs ++ more, eff s⟩ := by
  obtain ⟨w, more, hcleanup⟩ := hafter (.frame (.thenReturn v) :: .abortTop :: b.outer)
    (b.promptHole holes :: holes) subs s
  refine ⟨more, (body_calls_cleanup hsub).trans (hcleanup.trans ?_)⟩
  exact .head rfl (.single rfl)

/-- A body that returns has its cleanup run once. -/
theorem body_returns {before body cleanup u w : Value C} {effBefore eff : S → S}
    (hbefore : Returns P before effBefore) (hafter : Returns P cleanup eff) {k : List (KFrame C)}
    {holes : List (Hole C)} {s s' : S} (hb : b = ⟨before, cleanup, k, subs.length⟩)
    (hbody : ∀ subs', (∃ more, subs' = subs ++ [b.sub holes] ++ more) → ∃ more, Steps P
      ⟨.call body .unspec, .abortTop :: b.yieldK, b.yieldHole holes :: b.promptHole holes :: holes,
        subs', effBefore s⟩
      ⟨.ret w, .abortTop :: b.yieldK, b.yieldHole holes :: b.promptHole holes :: holes,
        subs' ++ more, s'⟩) :
    ∃ more, Steps P ⟨.call (.wind before body cleanup) u, k, holes, subs, s⟩
      ⟨.ret w, k, holes, subs ++ more, eff s'⟩ := by
  obtain ⟨more₁, henter⟩ := wind_enters hbefore body cleanup u k holes subs s b hb
  obtain ⟨more₂, hbody⟩ := hbody _ ⟨more₁, rfl⟩
  have hsub : (subs ++ [b.sub holes] ++ more₁ ++ more₂)[b.n]? = some (b.sub holes) := by
    simp [hb]
  have hcleanup : Returns P b.after eff := by
    rw [hb]
    exact hafter
  obtain ⟨more₃, hrun⟩ := cleanup_runs hcleanup w holes s' hsub
  have hpop : Steps P
      ⟨.ret w, .abortTop :: b.yieldK, b.yieldHole holes :: b.promptHole holes :: holes,
        subs ++ [b.sub holes] ++ more₁ ++ more₂, s'⟩
      ⟨.ret w, b.yieldK, b.promptHole holes :: holes, subs ++ [b.sub holes] ++ more₁ ++ more₂, s'⟩ :=
    .single rfl
  have houter : b.outer = k := by rw [hb]
  rw [houter] at hrun
  refine ⟨[b.sub holes] ++ more₁ ++ more₂ ++ more₃, henter.trans (hbody.trans (hpop.trans ?_))⟩
  have hassoc : subs ++ ([b.sub holes] ++ more₁ ++ more₂ ++ more₃) =
      subs ++ [b.sub holes] ++ more₁ ++ more₂ ++ more₃ := by
    simp only [List.append_assoc]
  rw [hassoc]
  exact hrun

end Blocks

/-! ## Layers -/

/-- What stands on the stack of holes above a prompt. -/
inductive Layer (C : Type) where
  | prompt (tag : Tag) (k : List (KFrame C))
  | block (b : Block C)
  /-- a block whose cleanup or before thunk runs, and returns to `f` and then to `k` -/
  | cleaning (f : Frame C) (k : List (KFrame C)) (b : Block C)

section Layers

variable {C S : Type}

/-- The layer's holes, above those at its entry. -/
def Layer.holes (hs : List (Hole C)) : Layer C → List (Hole C)
  | .prompt tag k => [⟨tag, true, k, hs⟩]
  | .block b => [b.yieldHole hs, b.promptHole hs]
  | .cleaning _ _ b => [b.promptHole hs]

/-- The continuation at the entry. -/
def Layer.outer : Layer C → List (KFrame C)
  | .prompt _ k => k
  | .block b => b.outer
  | .cleaning _ _ b => b.outer

/-- What is returned to when all that was called inside has returned. -/
def Layer.inner : Layer C → List (KFrame C)
  | .prompt _ k => .abortTop :: k
  | .block b => .abortTop :: b.yieldK
  | .cleaning f k _ => .frame f :: k

/-- The tag is none of those that `dwy-loop` uses. -/
def UserTag (tag : Tag) : Prop :=
  tag ≠ unwindProtectTag ∧ tag ≠ yieldTag

instance (tag : Tag) : Decidable (UserTag tag) :=
  inferInstanceAs (Decidable (_ ∧ _))

/-- A layer of the program above the nearest prompt of tag `t`. -/
def Layer.Above (t : Tag) : Layer C → Prop
  | .prompt tag _ => UserTag tag ∧ tag ≠ t
  | .block _ | .cleaning _ _ _ => True

/-- The holes of the layers, innermost first, above `hs`. -/
def layersHoles (hs : List (Hole C)) : List (Layer C) → List (Hole C)
  | [] => []
  | l :: ls => l.holes (layersHoles hs ls ++ hs) ++ layersHoles hs ls

/-- The stack of holes with the layers on it. -/
def stack (hs : List (Hole C)) (ls : List (Layer C)) : List (Hole C) :=
  layersHoles hs ls ++ hs

/-- The blocks among the layers whose bodies run. -/
def blocks : List (Layer C) → List (Block C)
  | [] => []
  | .block b :: ls => b :: blocks ls
  | _ :: ls => blocks ls

/-- Frames above a continuation. -/
def Over (base k : List (KFrame C)) : Prop :=
  ∃ fs : List (Frame C), k = fs.map .frame ++ base

/-- The continuation `k` inside the layers, above a prompt that was entered with `k₀`. -/
def Formed (k₀ : List (KFrame C)) : List (Layer C) → List (KFrame C) → Prop
  | [], k => Over (.abortTop :: k₀) k
  | l :: ls, k => Over l.inner k ∧ Formed k₀ ls l.outer

/-- The captured continuations of the blocks are there. -/
def Holds (subs : List (Subcont C)) (hs : List (Hole C)) : List (Layer C) → Prop
  | [] => True
  | .block b :: ls => subs[b.n]? = some (b.sub (stack hs ls)) ∧ Holds subs hs ls
  | _ :: ls => Holds subs hs ls

/-- The state is inside the layers `ls`, above the prompt of tag `t` that was entered
with the continuation `k₀` and the holes `hs₀`. -/
structure Inside (t : Tag) (k₀ : List (KFrame C)) (hs₀ : List (Hole C)) (ls : List (Layer C))
    (st : State C S) : Prop where
  userTag : UserTag t
  above : ∀ l ∈ ls, l.Above t
  holes : st.holes = stack (⟨t, true, k₀, hs₀⟩ :: hs₀) ls
  formed : Formed k₀ ls st.k
  subs : Holds st.subs (⟨t, true, k₀, hs₀⟩ :: hs₀) ls

variable {t : Tag} {k₀ k : List (KFrame C)} {hs hs₀ : List (Hole C)} {ls : List (Layer C)}

theorem Over.refl (k : List (KFrame C)) : Over k k :=
  ⟨[], rfl⟩

variable {subs : List (Subcont C)}

/-- What was captured stays. -/
theorem Holds.append (h : Holds subs hs ls) (more : List (Subcont C)) :
    Holds (subs ++ more) hs ls := by
  induction ls with
  | nil => trivial
  | cons l ls ih =>
    cases l with
    | prompt tag k => exact ih h
    | block b =>
      refine ⟨?_, ih h.2⟩
      rw [List.getElem?_append_left (List.getElem?_eq_some_iff.mp h.1).1]
      exact h.1
    | cleaning f k b => exact ih h

theorem Holds.tail {l : Layer C} (h : Holds subs hs (l :: ls)) :
    Holds subs hs ls := by
  cases l with
  | prompt tag k => exact h
  | block b => exact h.2
  | cleaning f k b => exact h

theorem Holds.of_append {ls' : List (Layer C)} (h : Holds subs hs (ls ++ ls')) :
    Holds subs hs ls' := by
  induction ls with
  | nil => exact h
  | cons l ls ih => exact ih h.tail

theorem Formed.of_append {l : Layer C} {ls' : List (Layer C)} (h : Formed k₀ (ls ++ l :: ls') k) :
    Formed k₀ ls' l.outer := by
  induction ls generalizing k with
  | nil => exact h.2
  | cons l' ls ih => exact ih h.2

/-- Entering a prompt. -/
theorem inside_prompt (ht : UserTag t) (thunk : Value C) (st : State C S) :
    Inside t st.k st.holes [] (promptAt t thunk st) :=
  ⟨ht, by simp, rfl, Over.refl _, trivial⟩

variable {st : State C S}

/-- Entering another prompt inside. -/
theorem Inside.prompt (h : Inside t k₀ hs₀ ls st) {tag : Tag} (htag : UserTag tag) (hne : tag ≠ t)
    (thunk : Value C) :
    Inside t k₀ hs₀ (.prompt tag st.k :: ls) (promptAt tag thunk st) := by
  refine ⟨h.userTag, List.forall_mem_cons.mpr ⟨⟨htag, hne⟩, h.above⟩, ?_, ⟨Over.refl _, h.formed⟩,
    h.subs⟩
  rw [promptAt, h.holes]
  rfl

/-- Entering a block inside. -/
theorem Inside.block (h : Inside t k₀ hs₀ ls st) {b : Block C} {before cleanup : Value C}
    (hb : b = ⟨before, cleanup, st.k, st.subs.length⟩) (body : Value C) (more : List (Subcont C))
    (s : S) :
    Inside t k₀ hs₀ (.block b :: ls) ⟨.call body .unspec, .abortTop :: b.yieldK,
      b.yieldHole st.holes :: b.promptHole st.holes :: st.holes,
      st.subs ++ [b.sub st.holes] ++ more, s⟩ := by
  have houter : b.outer = st.k := by rw [hb]
  have hn : b.n = st.subs.length := by rw [hb]
  refine ⟨h.userTag, List.forall_mem_cons.mpr ⟨trivial, h.above⟩, ?_, ⟨Over.refl _, ?_⟩, ?_, ?_⟩
  · rw [h.holes]
    rfl
  · rw [Layer.outer, houter]
    exact h.formed
  · rw [h.holes, hn]
    simp
  · simpa only [List.append_assoc] using h.subs.append _

/-- The cleanup is called inside what stays of the block. -/
theorem Inside.cleaning {b : Block C} (h : Inside t k₀ hs₀ (.block b :: ls) st) (w : Value C)
    (s : S) :
    Inside t k₀ hs₀ (.cleaning (.thenReturn w) (.abortTop :: b.outer) b :: ls)
      ⟨.call b.after .unspec, .frame (.thenReturn w) :: .abortTop :: b.outer,
        b.promptHole (stack (⟨t, true, k₀, hs₀⟩ :: hs₀) ls) ::
          stack (⟨t, true, k₀, hs₀⟩ :: hs₀) ls, st.subs, s⟩ := by
  have habove := (List.forall_mem_cons.mp h.above).2
  exact ⟨h.userTag, List.forall_mem_cons.mpr ⟨trivial, habove⟩, rfl,
    ⟨Over.refl _, h.formed.2⟩, h.subs.2⟩

/-- No hole of the layers is the one an unwind looks for. -/
theorem Inside.not_tagged (h : Inside t k₀ hs₀ ls st) (hs : List (Hole C)) :
    ∀ g ∈ layersHoles hs ls, g.tagged t = false := by
  have ht := h.userTag
  have habove := h.above
  clear h
  induction ls with
  | nil => simp [layersHoles]
  | cons l ls ih =>
    obtain ⟨hl, hls⟩ := List.forall_mem_cons.mp habove
    have hprompt : ∀ (k : List (KFrame C)) hs, (⟨unwindProtectTag, true, k, hs⟩ : Hole C).tagged t =
        false := by
      intro k hs
      simp [Hole.tagged, ht.1.symm]
    rw [layersHoles]
    refine List.forall_mem_append.mpr ⟨?_, ih hls⟩
    cases l with
    | prompt tag k => simp [Layer.holes, Hole.tagged, hl.2]
    | block b =>
      refine List.forall_mem_cons.mpr ⟨?_, List.forall_mem_singleton.mpr (hprompt _ _)⟩
      simp [Block.yieldHole, Hole.tagged, ht.2.symm]
    | cleaning f k b => exact List.forall_mem_singleton.mpr (hprompt _ _)

theorem unwindTillTagged_append {p : List (Hole C)} {g : Hole C} (hg : g.tagged t = true)
    (hp : ∀ g' ∈ p, g'.tagged t = false) (r : List (Hole C)) :
    unwindTillTagged t (p ++ g :: r) = .ok (p, g :: r) := by
  have htag : g.tag = t := by
    simp only [Hole.tagged, Bool.and_eq_true, decide_eq_true_eq] at hg
    exact hg.1
  induction p with
  | nil => simp [unwindTillTagged, tagExists, htag, hg]
  | cons g' p ih =>
    have hrest := ih fun g'' hg'' => hp g'' (List.mem_cons_of_mem g' hg'')
    have hexists : tagExists (g' :: (p ++ g :: r)) t = true := by
      simp [tagExists, htag]
    simp [unwindTillTagged, hexists, hp g' List.mem_cons_self, hrest]

theorem Inside.unwindTillTagged (h : Inside t k₀ hs₀ ls st) :
    Delim.unwindTillTagged t st.holes =
      .ok (layersHoles (⟨t, true, k₀, hs₀⟩ :: hs₀) ls, ⟨t, true, k₀, hs₀⟩ :: hs₀) := by
  rw [h.holes]
  exact unwindTillTagged_append (by simp [Hole.tagged]) (h.not_tagged _) hs₀

/-- Inside the layers there is something to return to: a frame, or what aborts; inside a cleanup
a frame. -/
theorem Formed.cases (h : Formed k₀ ls k) :
    (∃ f k', k = .frame f :: k') ∨
      (∃ k', k = .abortTop :: k') ∧ ∀ f k' b ls', ls ≠ .cleaning f k' b :: ls' := by
  have hover : ∀ base : List (KFrame C), Over base k → (∃ f k', k = .frame f :: k') ∨ k = base := by
    rintro base ⟨fs, rfl⟩
    cases fs with
    | nil => exact .inr rfl
    | cons f fs => exact .inl ⟨f, _, rfl⟩
  cases ls with
  | nil =>
    refine (hover _ h).imp_right fun hk => ⟨⟨k₀, hk⟩, ?_⟩
    intro f k' b ls' heq
    cases heq
  | cons l ls =>
    rcases hover _ h.1 with hf | hk
    · exact .inl hf
    · cases l with
      | prompt tag k' =>
        refine .inr ⟨⟨_, hk⟩, ?_⟩
        intro f k' b ls' heq
        cases heq
      | block b =>
        refine .inr ⟨⟨_, hk⟩, ?_⟩
        intro f k' b ls' heq
        cases heq
      | cleaning f k' b => exact .inl ⟨f, k', hk⟩

end Layers

/-! ## The loop of unwind-to* -/

section Loop

variable {C : Type} {k₀ k : List (KFrame C)} {hs : List (Hole C)} {l : Layer C}
  {ls : List (Layer C)}

/-- The continuation at the entry of the layer is that of a prompt: what the layer returns is
returned by that. -/
def Layer.Last (l : Layer C) : Prop :=
  ∃ k, l.outer = .abortTop :: k

/-- From the innermost block outward nothing is done but to return. -/
def Straight : List (Layer C) → Prop
  | [] => True
  | .prompt _ _ :: ls => Straight ls
  | .block b :: ls => ∀ l ∈ Layer.block b :: ls, l.Last
  | .cleaning _ _ _ :: _ => False

/-- The same where the unwind may be made by a cleanup. -/
def Direct : List (Layer C) → Prop
  | .cleaning _ _ _ :: ls => Straight ls
  | ls => Straight ls

/-- The outermost of the layer's holes. -/
def Layer.firstHole (hs : List (Hole C)) : Layer C → Hole C
  | .prompt tag k => ⟨tag, true, k, hs⟩
  | .block b => b.promptHole hs
  | .cleaning _ _ b => b.promptHole hs

/-- What the loop has pushed, innermost first, and the hole of `unwind-protect-tag` that waits for
the one above it. -/
abbrev Pushed (C : Type) : Type := List (Hole C) × Option (Hole C)

/-- The loop over the holes of one layer, where none waits. -/
def Layer.keep (hs pushed : List (Hole C)) : Layer C → Pushed C
  | .prompt _ _ => (pushed, none)
  | .block b => (b.yieldHole hs :: pushed, none)
  | .cleaning _ _ b => (pushed, some (b.promptHole hs))

/-- The loop over the holes of the layers. -/
def kept (hs : List (Hole C)) : List (Layer C) → Pushed C
  | [] => ([], none)
  | l :: ls =>
      if (kept hs ls).2.isSome then (l.firstHole (stack hs ls) :: (kept hs ls).1, none)
      else l.keep (stack hs ls) (kept hs ls).1

theorem Layer.firstHole_k (l : Layer C) (hs : List (Hole C)) : (l.firstHole hs).k = l.outer := by
  cases l <;> rfl

variable {g : Hole C}

theorem kept_cons_some (h : (kept hs ls).2 = some g) (l : Layer C) :
    kept hs (l :: ls) = (l.firstHole (stack hs ls) :: (kept hs ls).1, none) := by
  rw [kept, h]
  exact if_pos rfl

theorem kept_cons_none (h : (kept hs ls).2 = none) (l : Layer C) :
    kept hs (l :: ls) = l.keep (stack hs ls) (kept hs ls).1 := by
  rw [kept, h, if_neg (by simp)]

theorem unwindLoop_skip (hg : g.tagged unwindProtectTag = false) (rest hs : List (Hole C)) :
    unwindLoop (g :: rest) hs = unwindLoop rest hs := by
  cases rest with
  | nil => rfl
  | cons y rest => simp [unwindLoop, hg]

theorem unwindLoop_keep (hg : g.tagged unwindProtectTag = true) (y : Hole C)
    (rest hs : List (Hole C)) : unwindLoop (g :: y :: rest) hs = unwindLoop rest (y :: hs) := by
  simp [unwindLoop, hg]

theorem Block.promptHole_tagged (b : Block C) (hs : List (Hole C)) :
    (b.promptHole hs).tagged unwindProtectTag = true := rfl

theorem Block.yieldHole_tagged (b : Block C) (hs : List (Hole C)) :
    (b.yieldHole hs).tagged unwindProtectTag = false := rfl

/-- A hole of `unwind-protect-tag` waits only for a layer inside a cleanup. -/
theorem kept_waiting (h : (kept hs ls).2 = some g) :
    g.tagged unwindProtectTag = true ∧ ∃ f k b ls', ls = .cleaning f k b :: ls' := by
  cases ls with
  | nil => cases h
  | cons l ls =>
    cases hwaiting : (kept hs ls).2 with
    | some g' =>
      rw [kept_cons_some hwaiting] at h
      cases h
    | none =>
      rw [kept_cons_none hwaiting] at h
      cases l with
      | prompt tag k => cases h
      | block b => cases h
      | cleaning f k b =>
        cases h
        exact ⟨b.promptHole_tagged _, f, k, b, ls, rfl⟩

/-- The loop over the holes of the layers. -/
theorem unwindLoop_layers (hs : List (Hole C))
    (hls : ∀ l ∈ ls, ∀ tag k, l = .prompt tag k → UserTag tag) (rest acc : List (Hole C)) :
    unwindLoop ((layersHoles hs ls).reverse ++ rest) acc =
      unwindLoop ((kept hs ls).2.toList ++ rest) ((kept hs ls).1 ++ acc) := by
  induction ls generalizing rest with
  | nil => rfl
  | cons l ls ih =>
    obtain ⟨hl, hls⟩ := List.forall_mem_cons.mp hls
    rw [layersHoles, List.reverse_append, List.append_assoc, ih hls]
    cases hwaiting : (kept hs ls).2 with
    | some g =>
      rw [kept_cons_some hwaiting]
      -- the waiting hole takes the outermost hole of the layer with it
      have hg := (kept_waiting hwaiting).1
      cases l with
      | prompt tag k => exact unwindLoop_keep hg _ _ _
      | block b =>
        refine (unwindLoop_keep hg _ _ _).trans ?_
        exact unwindLoop_skip (b.yieldHole_tagged _) _ _
      | cleaning f k b => exact unwindLoop_keep hg _ _ _
    | none =>
      rw [kept_cons_none hwaiting]
      cases l with
      | prompt tag k =>
        have htag := hl tag k rfl
        refine unwindLoop_skip (g := ⟨tag, true, k, layersHoles hs ls ++ hs⟩) ?_ _ _
        simp [Hole.tagged, htag.1]
      | block b => exact unwindLoop_keep (b.promptHole_tagged _) _ _ _
      | cleaning f k b => rfl

/-- Where the loop pushes nothing in the end. -/
theorem unwindLoop_waiting (g : Option (Hole C)) (acc : List (Hole C)) :
    unwindLoop (g.toList ++ []) acc = acc := by
  cases g <;> rfl

/-- The hole that `unwind-to*` goes on with: none where no block is left, that of the innermost
block, or one inside a cleanup, which returns to a frame of that. -/
inductive Target (hs : List (Hole C)) (ls : List (Layer C)) (direct : Prop) (l : List (Hole C)) : Prop
  | none (hkept : l = []) (hblocks : blocks ls = []) (hdirect : direct)
  | block (inside : List (Layer C)) (b : Block C) (outside : List (Layer C)) (rest : List (Hole C))
      (hls : ls = inside ++ .block b :: outside) (hblocks : blocks inside = [])
      (hkept : l = b.yieldHole (stack hs outside) :: rest)
      (hdirect : direct ↔ ∀ l' ∈ Layer.block b :: outside, l'.Last)
  | frame (g : Hole C) (rest : List (Hole C)) (f : Frame C) (k : List (KFrame C))
      (hkept : l = g :: rest) (hk : g.k = .frame f :: k) (l' : Layer C) (hl : l' ∈ ls)
      (houter : l'.outer = .frame f :: k) (hdirect : ¬ direct)

theorem Target.congr {direct direct' : Prop} {l : List (Hole C)} (h : Target hs ls direct l)
    (hiff : direct' ↔ direct) : Target hs ls direct' l := by
  rw [propext hiff]
  exact h

/-- A layer that is not a block and for which nothing is pushed. -/
theorem Target.cons {direct : Prop} {pushed : List (Hole C)} (h : Target hs ls direct pushed)
    (hl : ∀ b, l ≠ .block b) : Target hs (l :: ls) direct pushed := by
  have hblocks : ∀ ls', blocks (l :: ls') = blocks ls' := by
    intro ls'
    cases l with
    | block b => exact absurd rfl (hl b)
    | prompt tag k => rfl
    | cleaning f k b => rfl
  cases h with
  | none hkept hb hdirect => exact .none hkept ((hblocks ls).trans hb) hdirect
  | block inside b outside rest hls hb hkept hdirect =>
    refine .block (l :: inside) b outside rest ?_ ((hblocks inside).trans hb) hkept hdirect
    rw [hls, List.cons_append]
  | frame g rest f k hkept hk l' hl' houter hdirect =>
    exact .frame g rest f k hkept hk l' (List.mem_cons_of_mem l hl') houter hdirect

/-- What the loop pushes last, by the layers. -/
theorem kept_target (hs : List (Hole C)) (h : Formed k₀ ls k) :
    Target hs ls (Direct ls) (kept hs ls).1 ∧
      ((kept hs ls).2 = none → (Direct ls ↔ Straight ls)) := by
  induction ls generalizing k with
  | nil => exact ⟨.none rfl rfl trivial, fun _ => Iff.rfl⟩
  | cons l ls ih =>
    obtain ⟨htarget, hstraight⟩ := ih h.2
    cases hwaiting : (kept hs ls).2 with
    | some g =>
      rw [kept_cons_some hwaiting]
      -- directly inside a cleanup, which is to be returned to
      obtain ⟨-, f', k', b', ls', rfl⟩ := kept_waiting hwaiting
      rcases h.2.cases with ⟨f, k'', houter⟩ | ⟨-, hne⟩
      · have hlast : ¬ l.Last := by
          rintro ⟨k₁, hk₁⟩
          cases houter.symm.trans hk₁
        refine ⟨.frame _ _ f k'' rfl ((l.firstHole_k _).trans houter) l List.mem_cons_self houter ?_, ?_⟩
        · cases l with
          | prompt tag k₁ => exact id
          | block b => exact fun hdirect => hlast (hdirect _ List.mem_cons_self)
          | cleaning f₁ k₁ b => exact id
        · intro _
          cases l <;> exact Iff.rfl
      · exact absurd rfl (hne f' k' b' ls')
    | none =>
      rw [kept_cons_none hwaiting]
      have hdirect := hstraight hwaiting
      cases l with
      | prompt tag k' =>
        exact ⟨(htarget.congr hdirect.symm).cons (by simp), fun _ => Iff.rfl⟩
      | block b => exact ⟨.block [] b ls _ rfl rfl rfl Iff.rfl, fun _ => Iff.rfl⟩
      | cleaning f k' b =>
        exact ⟨(htarget.congr hdirect.symm).cons (by simp), fun hnone => by cases hnone⟩

end Loop

/-! ## Unwinding -/

section Unwinding

variable {C S : Type} {P : Program C S} {t : Tag} {k₀ k : List (KFrame C)} {hs hs₀ : List (Hole C)}
  {ls : List (Layer C)} {eff : Block C → S → S}

/-- The effects of the cleanups of blocks, innermost first. -/
def cleanupEffects (eff : Block C → S → S) (bs : List (Block C)) (s : S) : S :=
  bs.foldl (fun s b => eff b s) s

theorem cleanupEffects_append (eff : Block C → S → S) (bs bs' : List (Block C)) (s : S) :
    cleanupEffects eff (bs ++ bs') s = cleanupEffects eff bs' (cleanupEffects eff bs s) :=
  List.foldl_append

/-- The value is returned to a frame that waits at the entry of a layer, inside the prompt. -/
def ReturnsInside (P : Program C S) (ls : List (Layer C)) (st : State C S) (v : Value C) : Prop :=
  ∃ l ∈ ls, ∃ f k holes subs s, l.outer = .frame f :: k ∧
    Steps P st ⟨.ret v, .frame f :: k, holes, subs, s⟩

variable {subs : List (Subcont C)}

/-- A value returned by what a layer encloses is returned by the layer. -/
theorem layer_returns {l : Layer C} (h : Formed k₀ (l :: ls) (.abortTop :: k))
    (hafter : ∀ b ∈ blocks (l :: ls), Returns P b.after (eff b)) (hsubs : Holds subs hs (l :: ls))
    (v : Value C) (s : S) :
    ∃ more, Steps P ⟨.ret v, .abortTop :: k, stack hs (l :: ls), subs, s⟩
      ⟨.ret v, l.outer, stack hs ls, subs ++ more, cleanupEffects eff (blocks [l]) s⟩ := by
  cases l with
  | prompt tag k' =>
    refine ⟨[], .single ?_⟩
    rw [List.append_nil]
    rfl
  | block b =>
    obtain ⟨more, hrun⟩ := cleanup_runs (hafter b List.mem_cons_self) v (stack hs ls) s hsubs.1
    exact ⟨more, .head rfl hrun⟩
  | cleaning f k' b =>
    rcases h.cases with ⟨f', k'', heq⟩ | ⟨-, hne⟩
    · cases heq
    · exact absurd rfl (hne f k' b ls)

theorem ReturnsInside.head {st st' : State C S} {v : Value C} (hrun : Steps P st st')
    (h : ReturnsInside P ls st' v) : ReturnsInside P ls st v := by
  obtain ⟨l, hl, f, k, holes, subs, s, houter, hrest⟩ := h
  exact ⟨l, hl, f, k, holes, subs, s, houter, hrun.trans hrest⟩

variable {v : Value C} {st : State C S}

theorem ReturnsInside.mono {ls' : List (Layer C)} (h : ReturnsInside P ls st v)
    (hsub : ∀ l ∈ ls, l ∈ ls') : ReturnsInside P ls' st v := by
  obtain ⟨l, hl, hrest⟩ := h
  exact ⟨l, hsub l hl, hrest⟩

/-- The layer itself was entered with a frame to return to. -/
theorem ReturnsInside.here {l : Layer C} {f : Frame C} (hk : l.outer = .frame f :: k) (v : Value C)
    (holes : List (Hole C)) (subs : List (Subcont C)) (s : S) :
    ReturnsInside P (l :: ls) ⟨.ret v, l.outer, holes, subs, s⟩ v := by
  refine ⟨l, List.mem_cons_self, f, k, holes, subs, s, hk, ?_⟩
  rw [hk]
  exact .refl

theorem blocks_append (ls ls' : List (Layer C)) : blocks (ls ++ ls') = blocks ls ++ blocks ls' := by
  induction ls with
  | nil => rfl
  | cons l ls ih => cases l <;> simp [blocks, ih]

/-- What a layer returns is returned to the prompt if it and all layers outside of it were
entered with a prompt's continuation. -/
theorem layers_return {l : Layer C} (hlast : ∀ l' ∈ l :: ls, l'.Last) (h : Formed k₀ ls l.outer)
    (hafter : ∀ b ∈ blocks ls, Returns P b.after (eff b))
    (hsubs : Holds subs (⟨t, true, k₀, hs₀⟩ :: hs₀) ls) (v : Value C) (s : S) :
    ∃ more, Steps P ⟨.ret v, l.outer, stack (⟨t, true, k₀, hs₀⟩ :: hs₀) ls, subs, s⟩
      ⟨.ret v, k₀, hs₀, subs ++ more, cleanupEffects eff (blocks ls) s⟩ := by
  induction ls generalizing l subs s with
  | nil =>
    obtain ⟨k, hk⟩ := hlast l List.mem_cons_self
    refine ⟨[], .single ?_⟩
    rw [hk, List.append_nil]
    rfl
  | cons l' ls ih =>
    obtain ⟨k, hk⟩ := hlast l List.mem_cons_self
    rw [hk] at h ⊢
    obtain ⟨more, hrun⟩ := layer_returns h hafter hsubs v s
    have hblocks : blocks (l' :: ls) = blocks [l'] ++ blocks ls := blocks_append [l'] ls
    obtain ⟨more', hrest⟩ := ih (fun l₁ hl₁ => hlast l₁ (List.mem_cons_of_mem l hl₁)) h.2
      (fun b hb => hafter b (hblocks ▸ List.mem_append_right _ hb))
      (hsubs.tail.append more) (cleanupEffects eff (blocks [l']) s)
    refine ⟨more ++ more', hrun.trans ?_⟩
    rw [hblocks, cleanupEffects_append, ← List.append_assoc]
    exact hrest

/-- Else it is returned to a frame inside. -/
theorem layers_return_inside {l : Layer C} (hnot : ¬ ∀ l' ∈ l :: ls, l'.Last)
    (h : Formed k₀ ls l.outer) (hafter : ∀ b ∈ blocks ls, Returns P b.after (eff b))
    (hsubs : Holds subs hs ls) (v : Value C) (s : S) :
    ReturnsInside P (l :: ls) ⟨.ret v, l.outer, stack hs ls, subs, s⟩ v := by
  induction ls generalizing l subs s with
  | nil =>
    rcases h.cases with ⟨f, k, hk⟩ | ⟨⟨k, hk⟩, -⟩
    · exact .here hk v _ _ _
    · exact absurd (List.forall_mem_singleton.mpr ⟨k, hk⟩) hnot
  | cons l' ls ih =>
    rcases h.cases with ⟨f, k, hk⟩ | ⟨⟨k, hk⟩, -⟩
    · exact .here hk v _ _ _
    · have hnot' : ¬ ∀ l₁ ∈ l' :: ls, l₁.Last := fun hlast =>
        hnot (List.forall_mem_cons.mpr ⟨⟨k, hk⟩, hlast⟩)
      rw [hk] at h ⊢
      obtain ⟨more, hrun⟩ := layer_returns h hafter hsubs v s
      have hblocks : blocks (l' :: ls) = blocks [l'] ++ blocks ls := blocks_append [l'] ls
      refine ReturnsInside.head hrun ((ih hnot' h.2
        (fun b hb => hafter b (hblocks ▸ List.mem_append_right _ hb)) (hsubs.tail.append more)
        _).mono ?_)
      exact fun l₁ hl₁ => List.mem_cons_of_mem l hl₁

/-- `unwind-to*` goes on with the top hole of those that the loop leaves. -/
theorem Inside.unwind_step (h : Inside t k₀ hs₀ ls st) (hact : st.act = .call (.unwindTo t) v) :
    step P st = some <$> abortTop v
      { st with holes := (kept (⟨t, true, k₀, hs₀⟩ :: hs₀) ls).1 ++ ⟨t, true, k₀, hs₀⟩ :: hs₀ } := by
  have htags : ∀ l ∈ ls, ∀ tag k, l = .prompt tag k → UserTag tag := by
    rintro l hl tag k rfl
    exact (h.above _ hl).1
  have hloop := unwindLoop_layers (⟨t, true, k₀, hs₀⟩ :: hs₀) htags []
    (⟨t, true, k₀, hs₀⟩ :: hs₀)
  rw [unwindLoop_waiting, List.append_nil] at hloop
  simp only [step, hact, unwindToStar, h.unwindTillTagged, ok_bind, hloop]

/-- The innermost block's cleanup is run, and the block returns the value. -/
theorem Inside.unwind_block (h : Inside t k₀ hs₀ ls st) (hact : st.act = .call (.unwindTo t) v)
    (hafter : ∀ b ∈ blocks ls, Returns P b.after (eff b)) {inside outside : List (Layer C)}
    {b : Block C} {rest : List (Hole C)} (hls : ls = inside ++ .block b :: outside)
    (hkept : (kept (⟨t, true, k₀, hs₀⟩ :: hs₀) ls).1 =
      b.yieldHole (stack (⟨t, true, k₀, hs₀⟩ :: hs₀) outside) :: rest) :
    ∃ more, Steps P st ⟨.ret v, b.outer, stack (⟨t, true, k₀, hs₀⟩ :: hs₀) outside,
      st.subs ++ more, eff b st.store⟩ := by
  have hstep := h.unwind_step (P := P) hact
  have hsubs := (hls ▸ h.subs).of_append
  have hb : b ∈ blocks ls := by
    rw [hls, blocks_append]
    exact List.mem_append_right _ List.mem_cons_self
  obtain ⟨more, hrun⟩ := cleanup_runs (hafter b hb) v _ st.store hsubs.1
  refine ⟨more, .head ?_ hrun⟩
  rw [hstep, hkept]
  rfl

/-- `unwind-to*` runs the cleanups of the blocks it leaves, where the unwind is direct. -/
theorem Inside.unwind (h : Inside t k₀ hs₀ ls st) (hact : st.act = .call (.unwindTo t) v)
    (hafter : ∀ b ∈ blocks ls, Returns P b.after (eff b)) (hdirect : Direct ls) :
    ∃ more, Steps P st
      ⟨.ret v, k₀, hs₀, st.subs ++ more, cleanupEffects eff (blocks ls) st.store⟩ := by
  cases (kept_target (⟨t, true, k₀, hs₀⟩ :: hs₀) h.formed).1 with
  | none hkept hblocks _ =>
    refine ⟨[], .single ?_⟩
    rw [h.unwind_step hact, hkept, hblocks, List.append_nil]
    rfl
  | block inside b outside rest hls hblocks hkept hlast =>
    obtain ⟨more, hrun⟩ := h.unwind_block hact hafter hls hkept
    have hb : blocks ls = b :: blocks outside := by
      rw [hls, blocks_append, hblocks]
      rfl
    have hsubs := (hls ▸ h.subs).of_append
    have houtside : ∀ b' ∈ blocks outside, Returns P b'.after (eff b') := fun b' hb' =>
      hafter b' (hb ▸ List.mem_cons_of_mem b hb')
    obtain ⟨more', hrest⟩ := layers_return (hlast.mp hdirect) (hls ▸ h.formed).of_append houtside
      (hsubs.tail.append more) v (eff b st.store)
    refine ⟨more ++ more', hrun.trans ?_⟩
    rw [hb, ← List.append_assoc]
    exact hrest
  | frame g rest f k hkept hk l hl houter hnot => exact absurd hdirect hnot

/-- Elsewhere the value does not leave the prompt: it is returned to a frame inside. -/
theorem Inside.unwind_inside (h : Inside t k₀ hs₀ ls st) (hact : st.act = .call (.unwindTo t) v)
    (hafter : ∀ b ∈ blocks ls, Returns P b.after (eff b)) (hdirect : ¬ Direct ls) :
    ReturnsInside P ls st v := by
  cases (kept_target (⟨t, true, k₀, hs₀⟩ :: hs₀) h.formed).1 with
  | none _ _ hd => exact absurd hd hdirect
  | block inside b outside rest hls hblocks hkept hlast =>
    obtain ⟨more, hrun⟩ := h.unwind_block hact hafter hls hkept
    have hb : blocks ls = b :: blocks outside := by
      rw [hls, blocks_append, hblocks]
      rfl
    have hsubs := (hls ▸ h.subs).of_append
    have houtside : ∀ b' ∈ blocks outside, Returns P b'.after (eff b') := fun b' hb' =>
      hafter b' (hb ▸ List.mem_cons_of_mem b hb')
    have hinside := layers_return_inside (fun hall => hdirect (hlast.mpr hall))
      (hls ▸ h.formed).of_append houtside (hsubs.tail.append more) v (eff b st.store)
    refine (hinside.mono ?_).head hrun
    intro l hl
    rw [hls]
    exact List.mem_append_right _ hl
  | frame g rest f k hkept hk l hl houter _ =>
    refine ⟨l, hl, f, k, g.holes, st.subs, st.store, houter, .single ?_⟩
    rw [h.unwind_step hact, hkept, ← hk]
    rfl

/-- `abort-to*` runs none. -/
theorem Inside.abort (h : Inside t k₀ hs₀ ls st) (hact : st.act = .call (.abortTo t) v) :
    Steps P st ⟨.ret v, k₀, hs₀, st.subs, st.store⟩ := by
  refine .single ?_
  simp [step, hact, abortToStar, h.unwindTillTagged, abortTop, restore]

end Unwinding

/-- What `unwind-protect`, `unwind-to*` and `abort-to*` do in every nesting of blocks and prompts
inside a prompt. -/
structure CleanupsRunOnce {C S : Type} (P : Program C S) : Prop where
  /-- a prompt is entered with no layers -/
  enters : ∀ (t : Tag) (thunk : Value C) (st : State C S), UserTag t →
    Inside t st.k st.holes [] (promptAt t thunk st)
  /-- another prompt is a layer -/
  enters_prompt : ∀ (t tag : Tag) (k₀ : List (KFrame C)) (hs₀ : List (Hole C))
    (ls : List (Layer C)) (thunk : Value C) (st : State C S), Inside t k₀ hs₀ ls st →
    UserTag tag → tag ≠ t → Inside t k₀ hs₀ (.prompt tag st.k :: ls) (promptAt tag thunk st)
  /-- a block is a layer while its body runs -/
  enters_block : ∀ (t : Tag) (k₀ : List (KFrame C)) (hs₀ : List (Hole C)) (ls : List (Layer C))
    (before body cleanup u : Value C) (eff : S → S) (st : State C S), Inside t k₀ hs₀ ls st →
    st.act = .call (.wind before body cleanup) u → Returns P before eff →
    ∃ b st', b.after = cleanup ∧ b.outer = st.k ∧ Steps P st st' ∧ st'.act = .call body .unspec ∧
      st'.store = eff st.store ∧ Inside t k₀ hs₀ (.block b :: ls) st'
  /-- and while its cleanup runs -/
  enters_cleanup : ∀ (t : Tag) (k₀ : List (KFrame C)) (hs₀ : List (Hole C)) (ls : List (Layer C))
    (b : Block C) (w : Value C) (st : State C S), Inside t k₀ hs₀ (.block b :: ls) st →
    st.act = .ret w → st.k = .abortTop :: b.yieldK →
    ∃ f k st', Steps P st st' ∧ st'.act = .call b.after .unspec ∧ st'.store = st.store ∧
      Inside t k₀ hs₀ (.cleaning f k b :: ls) st'
  /-- a body that returns has its cleanup run once -/
  returns : ∀ (before body cleanup u w : Value C) (effBefore eff : S → S) (k : List (KFrame C))
    (holes : List (Hole C)) (subs : List (Subcont C)) (s s' : S) (b : Block C),
    b = ⟨before, cleanup, k, subs.length⟩ → Returns P before effBefore → Returns P cleanup eff →
    (∀ subs', (∃ more, subs' = subs ++ [b.sub holes] ++ more) → ∃ more, Steps P
      ⟨.call body .unspec, .abortTop :: b.yieldK, b.yieldHole holes :: b.promptHole holes :: holes,
        subs', effBefore s⟩
      ⟨.ret w, .abortTop :: b.yieldK, b.yieldHole holes :: b.promptHole holes :: holes,
        subs' ++ more, s'⟩) →
    ∃ more, Steps P ⟨.call (.wind before body cleanup) u, k, holes, subs, s⟩
      ⟨.ret w, k, holes, subs ++ more, eff s'⟩
  /-- a direct unwind runs the cleanup of each block once, innermost first, and the prompt returns
  its value with the holes as they were -/
  unwinds : ∀ (t : Tag) (k₀ : List (KFrame C)) (hs₀ : List (Hole C)) (ls : List (Layer C))
    (eff : Block C → S → S) (v : Value C) (st : State C S), Inside t k₀ hs₀ ls st →
    st.act = .call (.unwindTo t) v → (∀ b ∈ blocks ls, Returns P b.after (eff b)) → Direct ls →
    ∃ more, Steps P st
      ⟨.ret v, k₀, hs₀, st.subs ++ more, cleanupEffects eff (blocks ls) st.store⟩
  /-- any other goes on inside the prompt -/
  unwinds_inside : ∀ (t : Tag) (k₀ : List (KFrame C)) (hs₀ : List (Hole C)) (ls : List (Layer C))
    (eff : Block C → S → S) (v : Value C) (st : State C S), Inside t k₀ hs₀ ls st →
    st.act = .call (.unwindTo t) v → (∀ b ∈ blocks ls, Returns P b.after (eff b)) → ¬ Direct ls →
    ReturnsInside P ls st v
  /-- an abort runs no cleanup -/
  aborts : ∀ (t : Tag) (k₀ : List (KFrame C)) (hs₀ : List (Hole C)) (ls : List (Layer C))
    (v : Value C) (st : State C S), Inside t k₀ hs₀ ls st → st.act = .call (.abortTo t) v →
    Steps P st ⟨.ret v, k₀, hs₀, st.subs, st.store⟩

/-- `(prompt-at 2 (+ m (unwind-protect (unwind-protect (unwind-to* 2 7) note 4) note 5)))` is what
`0` does where `m` is something to add, and the same without the addition elsewhere; `note` puts
its number in the store.  `(prompt-at 2 (unwind-protect 50 (prompt-at 6 (unwind-to* 2 7))))` is what
`6` does. -/
def unwindings (m : Option Nat) : Program Nat (List Nat) where
  code c _ _ s :=
    match c with
    | 0 => (.prompt 2 (.user 1 []), s)
    | 1 =>
        match m with
        | some n => (.push (.user n []) (.call (unwindProtect (.user 2 []) (.user 5 [])) .unspec), s)
        | none => (.call (unwindProtect (.user 2 []) (.user 5 [])) .unspec, s)
    | 2 => (.call (unwindProtect (.user 3 []) (.user 4 [])) .unspec, s)
    | 3 => (.call (.unwindTo 2) (.user 7 []), s)
    | 6 => (.prompt 2 (.user 7 []), s)
    | 7 => (.call (unwindProtect (.user 8 []) (.user 9 [])) .unspec, s)
    | 8 => (.ret (.user 50 []), s)
    | 9 => (.prompt 6 (.user 3 []), s)
    | c => (.ret .unspec, c :: s)
  resume c _ v s :=
    match v with
    | .user n _ => (.ret (.user (c + n) []), s)
    | _ => (.ret v, s)

/-- The outer and the inner of the two blocks, where nothing is added. -/
def outerBlock : Block Nat := ⟨.windBefore, .user 5 [], [.abortTop], 0⟩

def innerBlock : Block Nat := ⟨.windBefore, .user 4 [], .abortTop :: outerBlock.yieldK, 1⟩

end Idio.Delim
