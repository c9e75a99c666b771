/-
  Gc/Sound.lean --- what holds of the heap from one operation to the next, and a collection.

  `Sound` is the invariant: no object is on two lists, those that objects in use refer to are in
  use or are weak tables, and so are the roots.  A collection keeps it, and frees what it should.
-/
import Idio.Gc.Sweep

set_option autoImplicit false

namespace Idio.Collector

open Marking (Reached)

/-! ## The invariant -/

/-- The object at `n` is in use, or is a weak table. -/
def Gc.InUse (g : Gc) (n : Addr) : Prop := n ∈ g.used ++ g.weak

/-- All objects among what is referred to are in use. -/
def Gc.Holds (g : Gc) (rs : List Ref) : Prop := ∀ n, .pointer n ∈ rs → g.InUse n

/-- What holds of the heap between the operations on it. -/
structure Sound (g : Gc) : Prop where
  distinct : (g.used ++ g.weak ++ g.free).Nodup
  inside : ∀ a ∈ g.used ++ g.weak ++ g.free, a < g.objects.length
  present : ∀ a ∈ g.used ++ g.weak, g.Present a
  notFree : ∀ a ∈ g.used ++ g.weak, (g.at a).free = false
  sticky : ∀ a ∈ g.used, (g.at a).sticky = false
  hashes : ∀ o ∈ g.weak, (g.at o).value.isHash = true
  counted : ∀ o ∈ g.weak, (g.at o).value.Counted
  nfree : g.nfree = g.free.length
  light : ∀ a, (g.at a).colour ≠ .lgrey
  registered : Registered g
  table : ∀ t, g.finalizerHash = some t → t ∈ g.weak
  roots : g.Holds (g.roots ++ g.autos)
  fields : ∀ a ∈ g.used, g.Holds (g.at a).value.fields
  keys : ∀ o ∈ g.weak, ∀ e ∈ (g.at o).value.entries, ∀ k, e.key = .pointer k →
    g.InUse k ∧ g.Holds [e.value]

/-! ## A collection -/

/-- The heap as marking begins. -/
def Gc.begun (g : Gc) : Gc := ({ g with request := false } : Gc).started

namespace Gc

variable {g : Gc} {a n : Addr}

theorem begun_value (g : Gc) (a : Addr) : (g.begun.at a).value = (g.at a).value :=
  started_value { g with request := false } a

theorem begun_same (g : Gc) (a : Addr) :
    g.begun.at a = { g.at a with colour := (g.begun.at a).colour } :=
  (started_whitened { g with request := false }).same a

theorem begun_ran (g : Gc) : g.begun.ran = g.ran := by
  unfold begun
  rw [(started_whitened _).rest]

theorem begun_weak (g : Gc) : g.begun.weak = g.weak := started_weak { g with request := false }

theorem begun_root : g.begun.Root n ↔ g.Root n := started_root (g := { g with request := false }) n

theorem begun_present : g.begun.Present a ↔ g.Present a := by
  unfold Present
  rw [begun_value]

theorem begun_white (ha : a ∈ g.used) (hp : g.Present a) : (g.begun.at a).colour = .white :=
  (started_whitened { g with request := false }).white a ha hp

/-- Of the free list what is beyond `allocMany` is given back, from the front. -/
theorem trim_eq : ∀ free : List Addr, ∃ back kept, free = back ++ kept ∧
    trim free free.length = some (kept, kept.length) ∧ kept.length ≤ allocMany := by
  intro free
  induction free with
  | nil => exact ⟨[], [], rfl, rfl, Nat.zero_le _⟩
  | cons a free ih =>
    unfold trim
    split
    · rename_i hle
      exact ⟨[], a :: free, rfl, rfl, hle⟩
    · obtain ⟨back, kept, heq, htrim, hle⟩ := ih
      refine ⟨a :: back, kept, ?_, htrim, hle⟩
      rw [heq]
      rfl

end Gc

/-- What a collection does with the heap `g`, by way of the heaps `gs`, `g₁` and `gm` while
marking. -/
structure Collected (g gs g₁ gm g' : Gc) : Prop where
  marked : Marked g.begun gs g₁ gm
  size : g'.objects.length = g.objects.length
  used : g'.used = g.used.filter fun a => !gm.dead a
  free : ∃ back kept, g.free = back ++ kept ∧ kept.length ≤ allocMany ∧
    g'.free = (g.used.filter gm.dead).reverse ++ kept
  nfree : g'.nfree = g'.free.length
  same : ∀ a, ¬ (a ∈ g.used ∧ gm.dead a = true) → g'.at a = gm.at a
  freed : ∀ a ∈ g.used, gm.dead a = true →
    (g'.at a).value = .none ∧ (g'.at a).free = true ∧ (g'.at a).colour = .white
  rest : g' = { g with
    objects := g'.objects, used := g'.used, free := g'.free, nfree := g'.nfree, grey := none,
    request := false, igets := 0, ran := g'.ran }
  registered : Registered g'
  ran : ∃ rs, Ran g₁ g' rs ∧ (g.finalizerHash ≠ none → ∀ a ∈ g.used, gm.dead a = true →
    (g.at a).finalizer = true → a ∈ rs)

theorem collect_collected {g : Gc} (h : Sound g) (hp : g.pause = 0) :
    ∃ gs g₁ gm g', g.collect = some g' ∧ Collected g gs g₁ gm g' := by
  have markable : Markable { g with request := false } :=
    ⟨fun a ha => absurd ha (h.light a), h.hashes, h.registered⟩
  obtain ⟨gs, g₁, gm, hgm, hm⟩ := Gc.mark_marked markable
  have hw := Gc.started_whitened { g with request := false }
  have hrest : gm = { g with
      objects := gm.objects, grey := none, request := false, ran := gm.ran } := by
    have hgrey := hm.none
    have hs : ∀ s : Gc, s = { ({ g with request := false } : Gc) with
        objects := s.objects, grey := s.grey } →
        ∀ t : Gc, t = { s with objects := t.objects, grey := t.grey, ran := t.ran } →
        t.grey = none →
        t = { g with objects := t.objects, grey := none, request := false, ran := t.ran } := by
      intro s hs t ht htg
      rw [ht, hs]
      rw [ht] at htg
      simpa using htg
    exact hs _ hw.rest gm hm.weakly.shrunk.rest hgrey
  have hused : gm.used = g.used := by rw [hrest]
  have hfh : gm.finalizerHash = g.finalizerHash := by rw [hrest]
  have hnf : gm.nfree = gm.free.length := by
    rw [hrest]
    exact h.nfree
  have hnodup : g.used.Nodup := (List.nodup_append.mp (List.nodup_append.mp h.distinct).1).1
  have hfree : gm.free = g.free := by rw [hrest]
  obtain ⟨back, kept, hkept, htrim, hle⟩ := Gc.trim_eq g.free
  rw [← h.nfree] at htrim
  have sweepable : Sweepable { gm with free := kept, nfree := kept.length } gm.used := by
    rw [hused]
    refine ⟨?_, hnodup, hm.weakly.registered, ?_⟩
    · intro a ha
      have hb : g.begun.Present a := Gc.begun_present.mpr (h.present a (List.mem_append_left _ ha))
      have : (gm.at a).value.isNone = (g.begun.at a).value.isNone := hm.weakly.shrunk.present a
      exact this.trans hb
    · intro t ht ha
      have ht' : g.finalizerHash = some t := by
        rw [← hfh]
        exact ht
      exact (List.nodup_append.mp (List.nodup_append.mp h.distinct).1).2.2 t ha t (h.table t ht')
        rfl
  obtain ⟨g'', hg'', hs, hreg⟩ := sweepFrom_swept gm.used [] _ sweepable
  refine ⟨gs, g₁, gm, { g'' with igets := 0 }, ?_, hm, ?_, ?_, ?_, ?_, ?_, ?_, ?_, hreg, ?_⟩
  · unfold Gc.collect
    rw [if_neg (by simp [hp])]
    simp only [bind, Option.bind, hgm]
    unfold Gc.sweep
    rw [hfree, hnf, hfree, ← h.nfree, htrim]
    simp only [bind, Option.bind, hg'']
  · have h₁ : g''.objects.length = gm.objects.length := hs.size
    have h₂ : gm.objects.length = g.begun.objects.length := hm.weakly.shrunk.size
    exact h₁.trans (h₂.trans hw.size)
  · change g''.used = _
    rw [hs.rest, hused]
    rfl
  · change ∃ back kept, g.free = back ++ kept ∧ kept.length ≤ allocMany ∧ g''.free = _ ++ kept
    rw [hs.rest, hused]
    exact ⟨back, kept, hkept, hle, rfl⟩
  · change g''.nfree = g''.free.length
    rw [hs.rest]
    simp only [List.length_append]
    omega
  · intro a ha
    refine hs.same a ?_
    intro hmem
    obtain ⟨hu, hd⟩ := List.mem_filter.mp (List.mem_reverse.mp hmem)
    rw [hused] at hu
    exact ha ⟨hu, hd⟩
  · intro a ha hd
    refine hs.freed a (List.mem_reverse.mpr (List.mem_filter.mpr ⟨?_, hd⟩))
    rwa [hused]
  · have : ∀ g₂ : Gc, (∃ u f n, g₂ = { gm with
        objects := g₂.objects, used := u, free := f, nfree := n, ran := g₂.ran }) →
        ({ g₂ with igets := 0 } : Gc) = { g with
          objects := g₂.objects, used := g₂.used, free := g₂.free, nfree := g₂.nfree, grey := none,
          request := false, igets := 0, ran := g₂.ran } := by
      rintro g₂ ⟨u, f, n, h₂⟩
      rw [h₂, hrest]
    exact this g'' ⟨_, _, _, hs.rest⟩
  · obtain ⟨rs₁, hr₁⟩ := hm.second.ran
    obtain ⟨rs₂, hr₂, hin, hall⟩ := hs.ran
    refine ⟨rs₂ ++ rs₁, ?_, ?_⟩
    · have hr : Ran gm { g'' with igets := 0 } rs₂ :=
        ⟨hr₂.ran, hr₂.nodup, hr₂.had, hr₂.lost, hr₂.gone, hr₂.other⟩
      exact hr₁.trans hr hm.second.black
    · intro hh a ha hd hf
      have hf₁ : (g₁.at a).finalizer = true := by
        rw [hm.firstRep.finalizer a, hm.strongRep.finalizer a, hw.same a]
        exact hf
      obtain har | har := Classical.em (a ∈ rs₁)
      · exact List.mem_append_right _ har
      · refine List.mem_append_left _ (hall ?_ a ?_ ?_)
        · rw [← hfh] at hh
          exact hh
        · refine List.mem_reverse.mpr (List.mem_filter.mpr ⟨?_, hd⟩)
          rwa [hused]
        · have : (gm.at a).finalizer = true := by rw [hr₁.other a har, hf₁]
          exact this

end Idio.Collector
