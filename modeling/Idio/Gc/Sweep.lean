/-
  Gc/Sweep.lean --- the loop over the list of the objects in use.

  The objects that are white and not sticky are taken off the list, which is left in its order,
  and put on the free list, the last on top.  An object that has a finalizer is not freed before
  the finalizer has been run.
-/
import Idio.Gc.Collect

set_option autoImplicit false

namespace Idio.Collector

/-- Sweeping frees the object. -/
def Gc.dead (g : Gc) (a : Addr) : Bool := !(g.at a).sticky && (g.at a).colour == .white

theorem Gc.length_release {g : Gc} {co : Addr} :
    (g.release co).objects.length = g.objects.length := by
  simp [release, alter]

theorem Gc.release_self {g : Gc} {co : Addr} (h : co < g.objects.length) :
    (g.release co).at co = { g.at co with value := .none, free := true } := by
  change (g.alter co fun ob => { ob with value := .none, free := true }).at co = _
  rw [Gc.at_alter_self h]

theorem Gc.release_ne {g : Gc} {co a : Addr} (h : a ≠ co) : (g.release co).at a = g.at a := by
  change (g.alter co fun ob => { ob with value := .none, free := true }).at a = _
  rw [Gc.at_alter_ne h]

/-- What sweeping asks of a heap. -/
structure Sweepable (g : Gc) (os : List Addr) : Prop where
  present : ∀ a ∈ os, g.Present a
  nodup : os.Nodup
  registered : Registered g
  table : ∀ t, g.finalizerHash = some t → t ∉ os

/-- The objects `gone` have been freed, the last first, and of those in use `used` are left. -/
structure Swept (g g' : Gc) (gone used : List Addr) : Prop where
  size : g'.objects.length = g.objects.length
  rest : g' = { g with
    objects := g'.objects, used := used, free := gone ++ g.free, nfree := g.nfree + gone.length,
    ran := g'.ran }
  same : ∀ a, a ∉ gone → g'.at a = g.at a
  freed : ∀ a ∈ gone, (g'.at a).value = .none ∧ (g'.at a).free = true ∧ (g'.at a).colour = .white
  ran : ∃ rs, Ran g g' rs ∧ (∀ a ∈ rs, a ∈ gone) ∧
    (g.finalizerHash ≠ none → ∀ a ∈ gone, (g.at a).finalizer = true → a ∈ rs)

/-- One object is freed. -/
theorem sweepFreeValue_swept {g : Gc} {co : Addr} {no : List Addr} (used : List Addr)
    (h : Sweepable g (co :: no)) (hd : g.dead co = true) :
    ∃ g₁, ({ g with used := used } : Gc).sweepFreeValue co = some g₁ ∧
      Swept g (g₁.release co) [co] used ∧ Registered (g₁.release co) := by
  have hp : (g.at co).value.isNone = false := h.present co List.mem_cons_self
  have hw : (g.at co).colour = .white := by
    unfold Gc.dead at hd
    simpa using (Bool.and_eq_true_iff.mp hd).2
  have swept : ∀ (g₁ : Gc) (rs : List Addr), Ran { g with used := used } g₁ rs →
      (∀ a ∈ rs, a = co) → (g.finalizerHash ≠ none → (g.at co).finalizer = true → co ∈ rs) →
      g₁ = { g with objects := g₁.objects, used := used, ran := g₁.ran } →
      g₁.objects.length = g.objects.length → (∀ a, a ≠ co → g₁.at a = g.at a) →
      (g₁.at co).colour = .white →
      Swept g (g₁.release co) [co] used ∧ Registered (g₁.release co) := by
    intro g₁ rs hran hrs hfin hrest hlen hsame hcol
    have hlt : co < g₁.objects.length := by
      rw [hlen]
      exact Gc.Present.lt hp
    have hself : (g₁.release co).at co = { g₁.at co with value := .none, free := true } :=
      Gc.release_self hlt
    have hne : ∀ a, a ≠ co → (g₁.release co).at a = g₁.at a := fun a ha => Gc.release_ne ha
    have hflag : ∀ a, ((g₁.release co).at a).finalizer = (g₁.at a).finalizer := by
      intro a
      obtain rfl | ha := eq_or_ne a co
      · rw [hself]
      · rw [hne a ha]
    refine ⟨⟨?_, ?_, ?_, ?_, rs, ?_, ?_, ?_⟩, ?_⟩
    · rw [← hlen]
      exact Gc.length_release
    · have : ∀ g₂ : Gc, g₂ = { g with objects := g₂.objects, used := used, ran := g₂.ran } →
          g₂.release co = { g with
            objects := (g₂.release co).objects, used := used, free := [co] ++ g.free,
            nfree := g.nfree + [co].length, ran := (g₂.release co).ran } := by
        intro g₂ h₂
        rw [h₂]
        rfl
      exact this g₁ hrest
    · intro a ha
      have ha' : a ≠ co := by simpa using ha
      rw [hne a ha', hsame a ha']
    · intro a ha
      rw [List.mem_singleton.mp ha, hself]
      exact ⟨rfl, rfl, hcol⟩
    · refine ⟨hran.ran, hran.nodup, hran.had, hran.lost, ?_, ?_⟩
      · intro a ha
        rw [hflag]
        exact hran.gone a ha
      · intro a ha
        rw [hflag]
        exact hran.other a ha
    · intro a ha
      simp [hrs a ha]
    · intro hh a ha hf
      rw [List.mem_singleton.mp ha] at hf ⊢
      exact hfin hh hf
    · intro t ht a ha
      have ht' : g.finalizerHash = some t := by
        have ht₁ : g₁.finalizerHash = some t := ht
        rwa [hrest] at ht₁
      have htco : t ≠ co := by
        rintro rfl
        exact h.table t ht' List.mem_cons_self
      have ha' : (g.at a).finalizer = true := by
        rw [hflag] at ha
        obtain har | har := Classical.em (a ∈ rs)
        · rw [hran.gone a har] at ha
          cases ha
        · rw [hran.other a har] at ha
          exact ha
      rw [hne t htco, hsame t htco]
      exact h.registered t ht' a ha'
  unfold Gc.sweepFreeValue
  cases hf : (g.at co).finalizer with
  | false =>
    have hat : (({ g with used := used } : Gc).at co).finalizer = false := hf
    have hval : (({ g with used := used } : Gc).at co).value.isNone = false := hp
    refine ⟨{ g with used := used }, ?_, ?_⟩
    · rw [hat]
      simp only [bind, Option.bind, Bool.false_eq_true, if_false, hval]
    · refine swept _ [] ⟨rfl, List.nodup_nil, ?_, ?_, ?_, fun _ _ => rfl⟩ ?_ ?_ rfl rfl
        (fun _ _ => rfl) hw
      · intro a ha
        cases ha
      · intro a ha
        cases ha
      · intro a ha
        cases ha
      · intro a ha
        cases ha
      · intro _ h'
        rw [hf] at h'
        cases h'
  | true =>
    obtain ⟨g₁, rs, hrun, hran, hgone, heq⟩ :=
      finalizerRun_ran (g := { g with used := used }) h.registered hf
        (fun hb => by rw [show (g.at co).colour = .black from hb] at hw; cases hw)
    have hone : ∀ a, a ≠ co → g₁.at a = g.at a := by
      intro a ha
      obtain rfl | rfl := heq
      · rfl
      · exact Gc.finalized_ne (g := { g with used := used }) ha
    have hco : (g₁.at co).value = (g.at co).value ∧ (g₁.at co).colour = (g.at co).colour := by
      obtain rfl | rfl := heq
      · exact ⟨rfl, rfl⟩
      · rw [Gc.finalized_self (g := { g with used := used }) (Gc.Present.lt hp)]
        exact ⟨rfl, rfl⟩
    have hat : (({ g with used := used } : Gc).at co).finalizer = true := hf
    refine ⟨g₁, ?_, swept g₁ rs hran ?_ ?_ ?_ ?_ hone (hco.2.trans hw)⟩
    · rw [hat]
      simp only [bind, Option.bind, if_true, hrun, hco.1, hp, Bool.false_eq_true, if_false]
    · intro a ha
      by_contra hne
      have hg := hran.gone a ha
      rw [hone a hne] at hg
      have hh : (g.at a).finalizer = true := hran.had a ha
      rw [hg] at hh
      cases hh
    · intro hh _
      by_contra hne
      obtain hgone | hgone := hgone
      · exact hh hgone
      · rw [hran.other co hne, hat] at hgone
        cases hgone
    · obtain rfl | rfl := heq <;> rfl
    · obtain rfl | rfl := heq
      · rfl
      · exact Gc.length_finalized (g := { g with used := used })

theorem Swept.trans {g g' g'' : Gc} {gone gone' used used' : List Addr}
    (h : Swept g g' gone used) (h' : Swept g' g'' gone' used') (hd : ∀ a ∈ gone', a ∉ gone)
    (hw : ∀ a ∈ gone, (g.at a).colour = .white) :
    Swept g g'' (gone' ++ gone) used' where
  size := h'.size.trans h.size
  rest := by
    have hfree : g'.free = gone ++ g.free := by rw [h.rest]
    have hn : g'.nfree = g.nfree + gone.length := by rw [h.rest]
    rw [h'.rest, hfree, hn, h.rest]
    simp [Nat.add_assoc, Nat.add_comm]
  same a ha := by
    rw [List.mem_append, not_or] at ha
    rw [h'.same a ha.1, h.same a ha.2]
  freed a ha := by
    obtain ha | ha := List.mem_append.mp ha
    · exact h'.freed a ha
    · obtain ha' | ha' := Classical.em (a ∈ gone')
      · exact h'.freed a ha'
      · rw [h'.same a ha']
        exact h.freed a ha
  ran := by
    obtain ⟨rs, hr, hin, hall⟩ := h.ran
    obtain ⟨rs', hr', hin', hall'⟩ := h'.ran
    have hh : g'.finalizerHash = g.finalizerHash := by rw [h.rest]
    have black : ∀ a, (g.at a).colour = .black → (g'.at a).colour = .black := by
      intro a ha
      rw [h.same a]
      · exact ha
      · intro hm
        rw [hw a hm] at ha
        cases ha
    refine ⟨rs' ++ rs, hr.trans hr' black, ?_, ?_⟩
    · intro a ha
      obtain ha | ha := List.mem_append.mp ha
      · exact List.mem_append_left _ (hin' a ha)
      · exact List.mem_append_right _ (hin a ha)
    · intro hne a ha hf
      obtain ha | ha := List.mem_append.mp ha
      · refine List.mem_append_left _ (hall' (by rwa [hh]) a ha ?_)
        rw [h.same a (hd a ha)]
        exact hf
      · exact List.mem_append_right _ (hall hne a ha hf)

theorem sweepFrom_swept : ∀ (os kept : List Addr) (g : Gc), Sweepable g os →
    ∃ g', Gc.sweepFrom kept os g = some g' ∧
      Swept g g' (os.filter g.dead).reverse (kept ++ os.filter fun a => !g.dead a) ∧
      Registered g' := by
  intro os
  induction os with
  | nil =>
    intro kept g h
    refine ⟨{ g with used := kept }, rfl, ?_, h.registered⟩
    refine ⟨rfl, by simp, fun _ _ => rfl, ?_, [], ⟨rfl, List.nodup_nil, ?_, ?_, ?_, fun _ _ => rfl⟩,
      ?_, ?_⟩
    · intro a ha
      cases ha
    · intro a ha
      cases ha
    · intro a ha
      cases ha
    · intro a ha
      cases ha
    · intro a ha
      cases ha
    · intro _ a ha
      cases ha
  | cons co no ih =>
    intro kept g h
    have hno : co ∉ no := (List.nodup_cons.mp h.nodup).1
    have rest : Sweepable g no := ⟨fun a ha => h.present a (List.mem_cons_of_mem _ ha),
      (List.nodup_cons.mp h.nodup).2, h.registered,
      fun t ht hm => h.table t ht (List.mem_cons_of_mem _ hm)⟩
    cases hd : g.dead co with
    | false =>
      have hcond : ¬ ((g.at co).sticky = false ∧ (g.at co).colour = .white) := by
        intro hc
        unfold Gc.dead at hd
        simp [hc.1, hc.2] at hd
      obtain ⟨g', hg', hs, hr⟩ := ih (kept ++ [co]) g rest
      refine ⟨g', ?_, ?_, hr⟩
      · unfold Gc.sweepFrom
        rw [if_neg hcond]
        exact hg'
      · simpa [List.filter_cons, hd] using hs
    | true =>
      have hcond : (g.at co).sticky = false ∧ (g.at co).colour = .white := by
        unfold Gc.dead at hd
        simpa using hd
      obtain ⟨g₁, hg₁, hs₁, hr₁⟩ := sweepFreeValue_swept (kept ++ no) h hd
      have hne : ∀ a ∈ no, a ∉ [co] := by
        intro a ha hm
        rw [List.mem_singleton.mp hm] at ha
        exact hno ha
      have hdead : ∀ a ∈ no, (g₁.release co).dead a = g.dead a := by
        intro a ha
        unfold Gc.dead
        rw [hs₁.same a (hne a ha)]
      have rest₁ : Sweepable (g₁.release co) no := by
        refine ⟨?_, rest.nodup, hr₁, ?_⟩
        · intro a ha
          unfold Gc.Present
          rw [hs₁.same a (hne a ha)]
          exact rest.present a ha
        · intro t ht
          rw [hs₁.rest] at ht
          exact rest.table t ht
      obtain ⟨g', hg', hs, hr⟩ := ih kept (g₁.release co) rest₁
      have hdead' : ∀ a ∈ no, (!(g₁.release co).dead a) = !g.dead a := by
        intro a ha
        rw [hdead a ha]
      rw [List.filter_congr hdead, List.filter_congr hdead'] at hs
      refine ⟨g', ?_, ?_, hr⟩
      · unfold Gc.sweepFrom
        rw [if_pos hcond, hg₁]
        exact hg'
      · have := hs₁.trans hs
          (fun a ha => hne a (List.mem_filter.mp (List.mem_reverse.mp ha)).1)
          (fun a ha => by rw [List.mem_singleton.mp ha]; exact hcond.2)
        simpa [List.filter_cons, hd] using this

end Idio.Collector
