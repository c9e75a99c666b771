/-
  Gc/Collect.lean --- marking as a whole, and sweeping.

  When marking is done there is nothing grey, and an object is black if marking came to it.
  Sweeping goes over the list of the objects in use and puts those that are white on the free
  list.
-/
import Idio.Gc.Ditch

set_option autoImplicit false

namespace Idio.Collector

open Marking (Reached TriColour)

/-! ## Marking -/

/-- What marking asks of a heap: only objects in use are left light grey, weak tables are hash
tables, and objects with finalizers are in their table. -/
structure Markable (g : Gc) : Prop where
  lgrey : ∀ a, (g.at a).colour = .lgrey → a ∈ g.used ∧ g.Present a
  hashes : ∀ o ∈ g.weak, (g.at o).value.isHash = true
  registered : Registered g

/-- What marking that began with `g₀` has come to. -/
structure Marked (g₀ gs g₁ g : Gc) : Prop where
  /-- what only roots and autos lead to -/
  strong : Weakly g₀ gs
  strongRep : Repainted g₀ gs
  strongNone : gs.grey = none
  /-- and with the first pass -/
  first : Weakly g₀ g₁
  firstRep : Repainted gs g₁
  firstNone : g₁.grey = none
  followed : ∀ o ∈ g₀.weak, ∀ e ∈ (gs.at o).value.entries, Followed g₀ gs e g₁
  /-- and with the second -/
  weakly : Weakly g₀ g
  second : Shrunk g₁ g
  none : g.grey = none
  held : ∀ o ∈ g₀.weak, ∀ e ∈ (g.at o).value.entries, Held g e

namespace Gc

variable {g : Gc}

theorem started_value (g : Gc) (a : Addr) : (g.started.at a).value = (g.at a).value := by
  rw [(started_whitened g).same a]

theorem started_weak (g : Gc) : g.started.weak = g.weak := by
  rw [(started_whitened g).rest]

theorem started_root (n : Addr) : g.started.Root n ↔ g.Root n := by
  unfold Root Present
  rw [started_value, (started_whitened g).rest]

theorem started_light (h : Markable g) (a : Addr) : (g.started.at a).colour ≠ .lgrey := by
  intro hc
  have hw := started_whitened g
  obtain hu | hu := Classical.em (a ∈ g.used ∧ g.Present a)
  · rw [hw.white a hu.1 hu.2] at hc
    cases hc
  · rw [hw.other a hu] at hc
    exact hu (h.lgrey a hc)

theorem started_registered (h : Registered g) : Registered g.started := by
  have hw := started_whitened g
  intro t ht a ha
  rw [hw.rest] at ht
  rw [hw.same a] at ha
  rw [started_value]
  exact h t ht a ha

/-- What only roots and autos lead to is marked. -/
theorem mark_strong (h : Markable g) {n : Nat} (hn : g.started.objects.length < n) :
    ∃ g₁ g₂ g₃, g.started.gccMarkAll n g.started.roots = some g₁ ∧
      g₁.gccMarkAll n g₁.autos = some g₂ ∧ g₂.drain n n = some g₃ ∧ Weakly g.started g₃ ∧
      Repainted g.started g₃ ∧ g₃.grey = none := by
  have marks : Marks g.started g.started.Root (Found g.started g.started) g.started
      (g.started.roots ++ (g.started.autos ++ [])) := by
    refine marks_start (by rw [(started_whitened g).rest]; rfl) (started_light h) Found.follow ?_ ?_
    · intro m hm
      rw [List.append_nil]
      exact hm
    · intro m hm
      rw [List.append_nil] at hm
      exact ⟨.root hm, .of_source (.inl hm)⟩
  obtain ⟨g₁, hg₁, hm₁, hr₁⟩ := gccMarkAll_marks marks (Nat.lt_of_le_of_lt (count_le _ _) hn)
  have hn₁ : g₁.objects.length < n := by rwa [hm₁.size]
  have hauto : g₁.autos = g.started.autos := by rw [hr₁.rest]
  obtain ⟨g₂, hg₂, hm₂, hr₂⟩ := gccMarkAll_marks hm₁ (Nat.lt_of_le_of_lt (count_le _ _) hn₁)
  have hn₂ : g₂.objects.length < n := by rwa [hm₂.size]
  obtain ⟨g₃, hg₃, hm₃, hr₃, hnone⟩ := drain_marks n hm₂
    (Nat.lt_of_le_of_lt (count_le _ _) hn₂) (Nat.le_trans (count_le _ _) (Nat.le_of_lt hn₂))
  have hr := (hr₁.trans hr₂).trans hr₃
  refine ⟨g₁, g₂, g₃, hg₁, by rw [hauto]; exact hg₂, hg₃, ?_, hr, hnone⟩
  constructor
  · exact {
      hm₃ with
      follow := Found.follow
      three := by
        refine hm₃.three.ask ?_ (fun m => Weakly.found_mono hr.shrunk) (fun _ h => h) ?_
        · rintro m (hm | ⟨_, _, _, _, _, _, _, _, _, hm⟩)
          · exact .inl hm
          · exact .inr (.inl hm)
        · intro m hm
          exact absurd hm.1 (by simp) }
  · exact hr.shrunk
  · exact Weakly.registered_repainted (started_registered h.registered) hr
  · intro o ho
    rw [hr.value o, started_value]
    rw [started_weak] at ho
    exact h.hashes o ho

theorem mark_marked (h : Markable g) : ∃ gs g₁ g', g.mark = some g' ∧ Marked g.started gs g₁ g' := by
  have hn : g.started.objects.length < g.objects.length + 1 := by
    rw [(started_whitened g).size]
    exact Nat.lt_succ_self _
  obtain ⟨ga, gb, gs, ha, hb, hs, hw, hr, hnone⟩ := mark_strong h hn
  obtain ⟨g₁, g', hg', hw₁, hr₁, hq₁, hnone₁, hw', hs', hnone', hheld⟩ := hw.markWeak hn
  refine ⟨gs, g₁, g', ?_, ⟨hw, hr, hnone, hw₁, hr₁, hnone₁, hq₁, hw', hs', hnone', hheld⟩⟩
  unfold mark
  simp only [bind, Option.bind, ha, hb, hs]
  exact hg'

end Gc

theorem Weakly.settled {g₀ g : Gc} (h : Weakly g₀ g) (hg : g.grey = none) (a : Addr) :
    (g.at a).colour ≠ .lgrey := by
  intro hc
  obtain ⟨l, hl⟩ := h.marks.grey
  have hm := (hl.mem a).mpr hc
  cases l with
  | nil => cases hm
  | cons o l =>
    have := hl.threaded.1
    rw [hg] at this
    cases this

theorem Weakly.black {g₀ g : Gc} (h : Weakly g₀ g) (hg : g.grey = none) (a : Addr)
    (ha : (g.at a).colour ≠ .white) : (g.at a).colour = .black := by
  cases hc : (g.at a).colour with
  | black => rfl
  | lgrey => exact absurd hc (h.settled hg a)
  | white => exact absurd hc ha

/-- What is reached, along the fields as they are at the end, is black. -/
theorem Weakly.complete {g₀ g : Gc} (h : Weakly g₀ g) (hg : g.grey = none) {a : Addr}
    (ha : Reached (Refers g₀ g) (Source g₀ g) a) : (g.at a).colour = .black := by
  have done := h.marks.three.drop (fun _ => False) (fun _ h => absurd h id)
    fun n hn => absurd hn.1 (by simp)
  exact done.black_of_reached (h.black hg) ha

/-- What is black is live, and was reached along the fields as they were at the beginning. -/
theorem Weakly.sound {g₀ g : Gc} (h : Weakly g₀ g) {a : Addr} (hw : (g₀.at a).colour = .white)
    (ha : (g.at a).colour = .black) : Live g₀ a ∧ Reached (Refers g₀ g₀) (Source g₀ g) a :=
  (h.marks.three.sound a (h.marks.three.done a ha)).resolve_left (absurd hw)

end Idio.Collector
