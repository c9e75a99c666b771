/-
  Gc/Runs.lean --- the heap over any run of a program.

  A program asks for objects, writes into the objects that it has, protects and exposes, registers
  finalizers, makes tables weak and collects, in any order.  It refers only to objects that are in
  use, and so does what it writes.  Then what it refers to is never freed.
-/
import Idio.Gc.Collection

set_option autoImplicit false

namespace Idio.Collector

open Marking (Reached)

/-! ## Steps -/

/-- One operation on the heap. -/
inductive Step : Gc → Gc → Prop
  | get {g : Gc} {v : Value} : v.isNone = false → g.Holds v.fields → Step g (g.get v).2
  | write {g : Gc} {a : Addr} {v : Value} : a ∈ g.used → v.isNone = false → g.Holds v.fields →
      Step g (g.store a v)
  | writeWeak {g : Gc} {o : Addr} {v : Value} : o ∈ g.weak → v.isHash = true → v.Counted →
      (∀ e ∈ v.entries, ∀ k, e.key = .pointer k → g.InUse k ∧ g.Holds [e.value]) →
      (g.finalizerHash = some o → ∀ a, (g.at a).finalizer = true →
        ∃ e ∈ v.entries, e.key = .pointer a) → Step g (g.store o v)
  | register {g : Gc} {a : Addr} : (∀ t, g.finalizerHash = some t →
      ∃ e ∈ (g.at t).value.entries, e.key = .pointer a) → Step g (g.setFinalizer a true)
  | deregister {g : Gc} {a : Addr} : Step g (g.setFinalizer a false)
  | finalizers {g : Gc} {t : Addr} : t ∈ g.weak → (∀ a, (g.at a).finalizer = false) →
      Step g { g with finalizerHash := some t }
  | protect {g : Gc} {r : Ref} : g.Holds [r] → Step g (g.protect r)
  | protectAuto {g : Gc} {r : Ref} : g.Holds [r] → Step g (g.protectAuto r)
  | expose {g g' : Gc} {r : Ref} : g.expose r = some g' → Step g g'
  | exposeRoots {g : Gc} : Step g g.exposeRoots
  | exposeAutos {g : Gc} : Step g g.exposeAutos
  | addWeak {g g' : Gc} {o : Addr} : (g.at o).value.Counted →
      (∀ e ∈ (g.at o).value.entries, ∀ k, e.key = .pointer k → g.InUse k ∧ g.Holds [e.value]) →
      g.addWeakObject o = some g' → Step g g'
  | pause {g : Gc} : Step g g.pauseGc
  | resume {g : Gc} : Step g g.resumeGc
  | reset {g : Gc} {n : Int} : Step g (g.resetGc n)
  | collect {g g' : Gc} : g.collect = some g' → Step g g'
  | possiblyCollect {g g' : Gc} : g.possiblyCollect = some g' → Step g g'

namespace Sound

variable {g g' : Gc}

/-! ## Objects that change -/

/-- One object is changed, in what the lists and the colours have no part in. -/
theorem alter (h : Sound g) {a : Addr} {f : Object → Object}
    (free : (f (g.at a)).free = (g.at a).free) (sticky : (f (g.at a)).sticky = (g.at a).sticky)
    (colour : (f (g.at a)).colour = (g.at a).colour)
    (present : g.InUse a → (f (g.at a)).value.isNone = false)
    (fields : a ∈ g.used → g.Holds (f (g.at a)).value.fields)
    (hash : a ∈ g.weak → (f (g.at a)).value.isHash = true ∧ (f (g.at a)).value.Counted)
    (keys : a ∈ g.weak → ∀ e ∈ (f (g.at a)).value.entries, ∀ k, e.key = .pointer k →
      g.InUse k ∧ g.Holds [e.value])
    (registered : Registered (g.alter a f)) : Sound (g.alter a f) := by
  have look : ∀ (P : Object → Prop) (b : Addr), (b = a → P (f (g.at a))) → P (g.at b) →
      P ((g.alter a f).at b) := by
    intro P b hs hn
    exact Gc.at_alter P (fun _ => hs) fun _ => hn
  constructor
  · exact h.distinct
  · intro b hb
    rw [Gc.length_alter]
    exact h.inside b hb
  · intro b hb
    refine look (fun ob => ob.value.isNone = false) b ?_ (h.present b hb)
    rintro rfl
    exact present hb
  · intro b hb
    refine look (fun ob => ob.free = false) b ?_ (h.notFree b hb)
    rintro rfl
    exact free.trans (h.notFree b hb)
  · intro b hb
    refine look (fun ob => ob.sticky = false) b ?_ (h.sticky b hb)
    rintro rfl
    exact sticky.trans (h.sticky b hb)
  · intro o ho
    refine look (fun ob => ob.value.isHash = true) o ?_ (h.hashes o ho)
    rintro rfl
    exact (hash ho).1
  · intro o ho
    refine look (fun ob => ob.value.Counted) o ?_ (h.counted o ho)
    rintro rfl
    exact (hash ho).2
  · exact h.nfree
  · intro b
    refine look (fun ob => ob.colour ≠ .lgrey) b ?_ (h.light b)
    rintro rfl
    rw [colour]
    exact h.light b
  · exact registered
  · exact h.table
  · exact h.roots
  · intro b hb
    refine look (fun ob => g.Holds ob.value.fields) b ?_ (h.fields b hb)
    rintro rfl
    exact fields hb
  · intro o ho
    refine look (fun ob => ∀ e ∈ ob.value.entries, ∀ k, e.key = .pointer k →
      g.InUse k ∧ g.Holds [e.value]) o ?_ (h.keys o ho)
    rintro rfl
    exact keys ho

/-- The object at `a` gets the value `v`: in use, the value refers to objects in use; a weak table,
it is a hash table of such, with the objects that have finalizers in it if it is theirs. -/
theorem store (h : Sound g) {a : Addr} {v : Value} (hp : v.isNone = false)
    (hf : a ∈ g.used → g.Holds v.fields) (hash : a ∈ g.weak → v.isHash = true ∧ v.Counted)
    (keys : a ∈ g.weak → ∀ e ∈ v.entries, ∀ k, e.key = .pointer k → g.InUse k ∧ g.Holds [e.value])
    (hr : g.finalizerHash = some a → ∀ b, (g.at b).finalizer = true →
      ∃ e ∈ v.entries, e.key = .pointer b) : Sound (g.store a v) := by
  refine h.alter rfl rfl rfl (fun _ => hp) hf hash keys ?_
  intro t ht b hb
  have hb' : (g.at b).finalizer = true :=
    Gc.at_alter (fun ob => ob.finalizer = true → (g.at b).finalizer = true)
      (fun _ hba hb => by rw [hba]; exact hb) (fun _ hb => hb) hb
  refine Gc.at_alter (fun ob => ∃ e ∈ ob.value.entries, e.key = .pointer b) ?_ fun _ =>
    h.registered t ht b hb'
  rintro - rfl
  exact hr ht b hb'

/-- An object gets or loses the flag of a finalizer. -/
theorem setFinalizer (h : Sound g) {a : Addr} {flag : Bool}
    (hr : flag = true → ∀ t, g.finalizerHash = some t →
      ∃ e ∈ (g.at t).value.entries, e.key = .pointer a) : Sound (g.setFinalizer a flag) := by
  refine h.alter rfl rfl rfl (h.present a) (h.fields a) (fun ha => ⟨h.hashes a ha, h.counted a ha⟩)
    (h.keys a) ?_
  intro t ht b hb
  have entries : ∃ e ∈ (g.at t).value.entries, e.key = .pointer b := by
    refine Gc.at_alter (fun ob => ob.finalizer = true →
      ∃ e ∈ (g.at t).value.entries, e.key = .pointer b) ?_ (fun _ => h.registered t ht b) hb
    rintro - rfl hflag
    exact hr hflag t ht
  refine Gc.at_alter (fun ob => ∃ e ∈ ob.value.entries, e.key = .pointer b) ?_ fun _ => entries
  rintro - rfl
  exact entries

/-! ## Lists that change -/

/-- Roots and autos are exchanged for others that are in use. -/
theorem rooted (h : Sound g) {roots autos : List Ref} (hr : g.Holds (roots ++ autos)) :
    Sound { g with roots := roots, autos := autos } :=
  ⟨h.distinct, h.inside, h.present, h.notFree, h.sticky, h.hashes, h.counted, h.nfree, h.light,
    h.registered, h.table, hr, h.fields, h.keys⟩

theorem protectIn_mem : ∀ {rs rs' : List Ref} {o r : Ref}, protectIn o rs = some rs' → r ∈ rs' →
    r = o ∨ r ∈ rs := by
  intro rs
  induction rs with
  | nil =>
    intro rs' o r h
    cases h
  | cons x rs ih =>
    intro rs' o r h hr
    unfold protectIn at h
    split at h
    · cases h
      exact .inr hr
    · split at h
      · cases h
        obtain rfl | hr := List.mem_cons.mp hr
        · exact .inl rfl
        · exact .inr (List.mem_cons_of_mem _ hr)
      · cases hp : protectIn o rs with
        | none =>
          rw [hp] at h
          cases h
        | some rs'' =>
          rw [hp] at h
          cases h
          obtain rfl | hr := List.mem_cons.mp hr
          · exact .inr List.mem_cons_self
          · exact (ih hp hr).imp_right (List.mem_cons_of_mem _)

/-- With an object protected that is in use, the list holds what is in use. -/
theorem protected_holds {rs rs' : List Ref} {o : Ref} (ho : g.Holds [o])
    (h : g.Holds (rs ++ rs')) : g.Holds ((protectIn o rs).getD (o :: rs) ++ rs') := by
  have mem : ∀ r ∈ (protectIn o rs).getD (o :: rs), r = o ∨ r ∈ rs := by
    intro r hr
    cases hp : protectIn o rs with
    | none =>
      rw [hp] at hr
      exact List.mem_cons.mp hr
    | some rs'' =>
      rw [hp] at hr
      exact protectIn_mem hp hr
  intro n hn
  obtain hn | hn := List.mem_append.mp hn
  · obtain hn | hn := mem _ hn
    · exact ho n (by simp [hn])
    · exact h n (List.mem_append_left _ hn)
  · exact h n (List.mem_append_right _ hn)

theorem protect (h : Sound g) {r : Ref} (hr : g.Holds [r]) : Sound (g.protect r) := by
  cases r with
  | pointer a => exact h.rooted (protected_holds hr h.roots)
  | _ => exact h

theorem protectAuto (h : Sound g) {r : Ref} (hr : g.Holds [r]) : Sound (g.protectAuto r) := by
  cases r with
  | pointer a =>
    refine h.rooted ?_
    have swap : ∀ {rs rs' : List Ref}, g.Holds (rs ++ rs') → g.Holds (rs' ++ rs) :=
      fun h n hn => h n (List.mem_append.mpr (List.mem_append.mp hn).symm)
    exact swap (protected_holds hr (swap h.roots))
  | _ => exact h

theorem expose (h : Sound g) {r : Ref} (hg : g.expose r = some g') : Sound g' := by
  cases r with
  | pointer a =>
    simp only [Gc.expose] at hg
    split at hg
    · cases hg
      refine h.rooted ?_
      intro n hn
      obtain hn | hn := List.mem_append.mp hn
      · exact h.roots n (List.mem_append_left _ (List.mem_of_mem_erase hn))
      · exact h.roots n (List.mem_append_right _ hn)
    · cases hg
  | _ =>
    cases hg
    exact h

/-- A table in use is made weak. -/
theorem addWeak (h : Sound g) {o : Addr} (hc : (g.at o).value.Counted)
    (hk : ∀ e ∈ (g.at o).value.entries, ∀ k, e.key = .pointer k → g.InUse k ∧ g.Holds [e.value])
    (hg : g.addWeakObject o = some g') : Sound g' := by
  unfold Gc.addWeakObject at hg
  split at hg
  · rename_i hash
    split at hg
    · rename_i ho
      cases hg
      have hperm : (g.used.erase o ++ o :: g.weak).Perm (g.used ++ g.weak) := by
        refine List.perm_middle.trans ?_
        exact (List.perm_cons_erase ho).symm.append_right g.weak
      have hin : ∀ n, n ∈ g.used.erase o ++ o :: g.weak ↔ n ∈ g.used ++ g.weak := fun n =>
        hperm.mem_iff
      have holds : ∀ {rs : List Ref}, g.Holds rs → ∀ n, .pointer n ∈ rs →
          n ∈ g.used.erase o ++ o :: g.weak := fun h n hn => (hin n).mpr (h n hn)
      constructor
      · exact (hperm.append_right g.free).nodup_iff.mpr h.distinct
      · intro a ha
        exact h.inside a ((hperm.append_right g.free).mem_iff.mp ha)
      · exact fun a ha => h.present a ((hin a).mp ha)
      · exact fun a ha => h.notFree a ((hin a).mp ha)
      · exact fun a ha => h.sticky a (List.mem_of_mem_erase ha)
      · intro a ha
        obtain rfl | ha := List.mem_cons.mp ha
        · exact hash
        · exact h.hashes a ha
      · intro a ha
        obtain rfl | ha := List.mem_cons.mp ha
        · exact hc
        · exact h.counted a ha
      · exact h.nfree
      · exact h.light
      · exact h.registered
      · exact fun t ht => List.mem_cons_of_mem _ (h.table t ht)
      · exact holds h.roots
      · exact fun a ha => holds (h.fields a (List.mem_of_mem_erase ha))
      · intro a ha e he k hke
        have both : g.InUse k ∧ g.Holds [e.value] := by
          obtain rfl | ha := List.mem_cons.mp ha
          · exact hk e he k hke
          · exact h.keys a ha e he k hke
        exact ⟨(hin k).mpr both.1, holds both.2⟩
    · cases hg
  · cases hg

/-! ## Objects given out -/

/-- The object that `idio_gc_get` takes is on no list, and nothing else has changed. -/
structure Taken (g : Gc) (o : Addr) (g' : Gc) : Prop where
  rest : g' = { g with
    objects := g'.objects, free := g'.free, nfree := g'.nfree, request := g'.request }
  same : ∀ a, g'.at a = g.at a
  distinct : (o :: (g.used ++ g.weak ++ g'.free)).Nodup
  inside : ∀ a ∈ o :: (g.used ++ g.weak ++ g'.free), a < g'.objects.length
  nfree : g'.nfree = g'.free.length

theorem take_taken (h : Sound g) : Taken g g.take.1 g.take.2 := by
  unfold Gc.take
  cases hf : g.free with
  | cons o free =>
    have hperm : (o :: (g.used ++ g.weak ++ free)).Perm (g.used ++ g.weak ++ g.free) := by
      rw [hf]
      exact List.perm_middle.symm
    constructor
    · rfl
    · exact fun _ => rfl
    · exact hperm.nodup_iff.mpr h.distinct
    · exact fun a ha => h.inside a (hperm.mem_iff.mp ha)
    · have := h.nfree
      rw [hf, List.length_cons] at this
      change g.nfree - 1 = free.length
      omega
  | nil =>
    have hpos : 0 < allocPool := Nat.zero_lt_succ _
    have hnew : ∀ a ∈ g.used ++ g.weak, a < g.objects.length := fun a ha =>
      h.inside a (List.mem_append_left _ ha)
    have hpool : ∀ a, a ∈ ((List.range (allocPool - 1)).map (g.objects.length + ·)).reverse ↔
        g.objects.length ≤ a ∧ a < g.objects.length + (allocPool - 1) := by
      intro a
      rw [List.mem_reverse, List.mem_map]
      constructor
      · rintro ⟨i, hi, rfl⟩
        have := List.mem_range.mp hi
        omega
      · intro ha
        refine ⟨a - g.objects.length, List.mem_range.mpr ?_, ?_⟩
        · omega
        · omega
    have hfree : g.getAlloc.2.free =
        ((List.range (allocPool - 1)).map (g.objects.length + ·)).reverse := by
      change _ ++ g.free = _
      rw [hf, List.append_nil]
    have hlen : g.getAlloc.2.objects.length = g.objects.length + allocPool := by
      change (g.objects ++ List.replicate allocPool ({} : Object)).length = _
      rw [List.length_append, List.length_replicate]
    constructor
    · rfl
    · intro a
      change (g.objects ++ List.replicate allocPool ({} : Object)).getD a {} = g.objects.getD a {}
      simp only [List.getD_eq_getElem?_getD]
      obtain hlt | hge := Nat.lt_or_ge a g.objects.length
      · rw [List.getElem?_append_left hlt]
      · rw [List.getElem?_append_right hge, List.getElem?_replicate,
          List.getElem?_eq_none hge]
        split
        · rfl
        · rfl
    · rw [hfree]
      change ((g.objects.length + (allocPool - 1)) :: _).Nodup
      refine List.nodup_cons.mpr ⟨?_, List.nodup_append.mpr ⟨?_, ?_, ?_⟩⟩
      · intro ha
        obtain ha | ha := List.mem_append.mp ha
        · exact absurd (hnew _ ha) (Nat.not_lt.mpr (Nat.le_add_right _ _))
        · exact absurd ((hpool _).mp ha).2 (Nat.lt_irrefl _)
      · exact (List.nodup_append.mp h.distinct).1
      · refine (List.reverse_perm _).nodup_iff.mpr (List.pairwise_map.mpr ?_)
        refine List.nodup_range.imp ?_
        intro i j hij h
        exact hij (Nat.add_left_cancel h)
      · rintro a ha b hb rfl
        exact absurd (hnew a ha) (Nat.not_lt.mpr ((hpool a).mp hb).1)
    · intro a ha
      rw [hlen]
      have hpos : 0 < allocPool := by decide
      rw [hfree] at ha
      obtain rfl | ha := List.mem_cons.mp ha
      · exact Nat.add_lt_add_left (Nat.sub_lt hpos Nat.one_pos) _
      · obtain ha | ha := List.mem_append.mp ha
        · exact Nat.lt_of_lt_of_le (hnew a ha) (Nat.le_add_right _ _)
        · exact Nat.lt_of_lt_of_le ((hpool a).mp ha).2
            (Nat.add_le_add_left (Nat.sub_le _ _) _)
    · rw [hfree]
      change g.nfree + (allocPool - 1) = _
      rw [h.nfree, hf]
      simp

/-- An object is given out, with a value that refers to objects in use. -/
theorem get (h : Sound g) {v : Value} (hp : v.isNone = false) (hv : g.Holds v.fields) :
    Sound (g.get v).2 := by
  have ht := take_taken h
  unfold Gc.get
  generalize g.take = t at ht
  obtain ⟨o, g₁⟩ := t
  simp only at ht ⊢
  have hlt : o < g₁.objects.length := ht.inside o List.mem_cons_self
  have hself : (g₁.alter o (Object.fresh v)).at o = Object.fresh v (g₁.at o) :=
    Gc.at_alter_self hlt
  have hne : ∀ a, a ≠ o → (g₁.alter o (Object.fresh v)).at a = g.at a := by
    intro a ha
    rw [Gc.at_alter_ne ha, ht.same a]
  have hused : g₁.used = g.used := by rw [ht.rest]
  have hweak : g₁.weak = g.weak := by rw [ht.rest]
  have hnew := (List.nodup_cons.mp ht.distinct).1
  have hold : ∀ a ∈ g.used ++ g.weak, a ≠ o := by
    rintro a ha rfl
    exact hnew (List.mem_append_left _ ha)
  have hin : ∀ n, n ∈ g.used ++ g.weak → n ∈ (o :: g₁.used) ++ g₁.weak := by
    intro n hn
    rw [hused, hweak]
    exact List.mem_cons_of_mem _ hn
  have holds : ∀ {rs : List Ref}, g.Holds rs → ∀ n, .pointer n ∈ rs →
      n ∈ (o :: g₁.used) ++ g₁.weak := fun h n hn => hin n (h n hn)
  have each : ∀ {P : Object → Prop}, P (Object.fresh v (g₁.at o)) →
      (∀ a ∈ g.used ++ g.weak, P (g.at a)) →
      ∀ a ∈ (o :: g₁.used) ++ g₁.weak, P ((g₁.alter o (Object.fresh v)).at a) := by
    intro P hs hn a ha
    rw [hused, hweak] at ha
    obtain rfl | ha := List.mem_cons.mp ha
    · rw [hself]
      exact hs
    · rw [hne a (hold a ha)]
      exact hn a ha
  constructor
  · change ((o :: g₁.used) ++ g₁.weak ++ g₁.free).Nodup
    rw [hused, hweak]
    exact ht.distinct
  · intro a ha
    have ha' : a ∈ (o :: g₁.used) ++ g₁.weak ++ g₁.free := ha
    rw [hused, hweak] at ha'
    have hlen : (g₁.alter o (Object.fresh v)).objects.length = g₁.objects.length :=
      Gc.length_alter
    exact Nat.lt_of_lt_of_eq (ht.inside a ha') hlen.symm
  · exact each (P := fun ob => ob.value.isNone = false) hp h.present
  · exact each (P := fun ob => ob.free = false) rfl h.notFree
  · intro a ha
    have ha' : a ∈ o :: g₁.used := ha
    rw [hused] at ha'
    obtain rfl | ha' := List.mem_cons.mp ha'
    · exact congrArg Object.sticky hself
    · exact (congrArg Object.sticky (hne a (hold a (List.mem_append_left _ ha')))).trans
        (h.sticky a ha')
  · intro a ha
    have ha' : a ∈ g₁.weak := ha
    rw [hweak] at ha'
    exact (congrArg (fun ob => ob.value.isHash)
      (hne a (hold a (List.mem_append_right _ ha')))).trans (h.hashes a ha')
  · intro a ha
    have ha' : a ∈ g₁.weak := ha
    rw [hweak] at ha'
    have := hne a (hold a (List.mem_append_right _ ha'))
    change ((g₁.alter o (Object.fresh v)).at a).value.Counted
    rw [this]
    exact h.counted a ha'
  · exact ht.nfree
  · intro a
    change ((g₁.alter o (Object.fresh v)).at a).colour ≠ .lgrey
    obtain rfl | ha := eq_or_ne a o
    · rw [hself]
      exact fun h => by cases h
    · rw [hne a ha]
      exact h.light a
  · intro t htab a ha
    have htab' : g.finalizerHash = some t := by
      have : g₁.finalizerHash = some t := htab
      rwa [ht.rest] at this
    have ha' : ((g₁.alter o (Object.fresh v)).at a).finalizer = true := ha
    change ∃ e ∈ ((g₁.alter o (Object.fresh v)).at t).value.entries, e.key = .pointer a
    rw [hne t (hold t (List.mem_append_right _ (h.table t htab')))]
    obtain rfl | hao := eq_or_ne a o
    · rw [hself] at ha'
      cases ha'
    · rw [hne a hao] at ha'
      exact h.registered t htab' a ha'
  · intro t htab
    have htab' : g.finalizerHash = some t := by
      have : g₁.finalizerHash = some t := htab
      rwa [ht.rest] at this
    change t ∈ g₁.weak
    rw [hweak]
    exact h.table t htab'
  · have : g₁.roots ++ g₁.autos = g.roots ++ g.autos := by rw [ht.rest]
    intro n hn
    have hn' : .pointer n ∈ g₁.roots ++ g₁.autos := hn
    rw [this] at hn'
    exact holds h.roots n hn'
  · intro a ha
    have ha' : a ∈ o :: g₁.used := ha
    rw [hused] at ha'
    intro n hn
    have hn' : .pointer n ∈ ((g₁.alter o (Object.fresh v)).at a).value.fields := hn
    obtain rfl | ha' := List.mem_cons.mp ha'
    · rw [hself] at hn'
      exact holds hv n hn'
    · rw [hne a (hold a (List.mem_append_left _ ha'))] at hn'
      exact holds (h.fields a ha') n hn'
  · intro a ha e he k hk
    have ha' : a ∈ g₁.weak := ha
    rw [hweak] at ha'
    have he' : e ∈ ((g₁.alter o (Object.fresh v)).at a).value.entries := he
    rw [hne a (hold a (List.mem_append_right _ ha'))] at he'
    obtain ⟨hkin, hval⟩ := h.keys a ha' e he' k hk
    exact ⟨hin k hkin, holds hval⟩

/-- A collection, if the collector is not paused. -/
theorem collect (h : Sound g) (hg : g.collect = some g') : Sound g' := by
  obtain hp | hp := Classical.em (g.pause = 0)
  · obtain ⟨gs, g₁, gm, g'', hg'', hc⟩ := collect_collected h hp
    rw [hg] at hg''
    cases hg''
    exact hc.sound h
  · unfold Gc.collect at hg
    rw [if_pos hp] at hg
    cases hg
    exact h

theorem step (h : Sound g) (hs : Step g g') : Sound g' := by
  cases hs with
  | get hp hv => exact h.get hp hv
  | write ha hp hv =>
    have hweak := (Collected.distinct h).1 _ ha
    refine h.store hp (fun _ => hv) (fun hw => absurd hw hweak) (fun hw => absurd hw hweak) ?_
    exact fun ht => absurd (h.table _ ht) hweak
  | @writeWeak o v ho hash hc hk hr =>
    have hused : o ∉ g.used := fun hu => (Collected.distinct h).1 o hu ho
    refine h.store ?_ (fun hu => absurd hu hused) (fun _ => ⟨hash, hc⟩) (fun _ => hk) hr
    cases v with
    | hash sk ha count comp fn => rfl
    | _ => cases hash
  | register hr => exact h.setFinalizer fun _ => hr
  | deregister => exact h.setFinalizer fun hf => by cases hf
  | finalizers ht hnone =>
    refine ⟨h.distinct, h.inside, h.present, h.notFree, h.sticky, h.hashes, h.counted, h.nfree,
      h.light, ?_, ?_, h.roots, h.fields, h.keys⟩
    · intro t _ a ha
      have hf : (g.at a).finalizer = true := ha
      rw [hnone a] at hf
      cases hf
    · intro t' ht'
      cases ht'
      exact ht
  | protect hr => exact h.protect hr
  | protectAuto hr => exact h.protectAuto hr
  | expose hg => exact h.expose hg
  | exposeRoots => exact h.rooted fun n hn => h.roots n (List.mem_append_right _ hn)
  | exposeAutos =>
    refine h.rooted ?_
    intro n hn
    rw [List.append_nil] at hn
    exact h.roots n (List.mem_append_left _ hn)
  | addWeak hc hk hg => exact h.addWeak hc hk hg
  | pause | resume | reset =>
    exact ⟨h.distinct, h.inside, h.present, h.notFree, h.sticky, h.hashes, h.counted, h.nfree,
      h.light, h.registered, h.table, h.roots, h.fields, h.keys⟩
  | collect hg => exact h.collect hg
  | possiblyCollect hg =>
    unfold Gc.possiblyCollect at hg
    split at hg
    · exact h.collect hg
    · cases hg
      exact h

/-- The heap before there is any object. -/
theorem empty : Sound {} := by
  constructor
  all_goals simp [Gc.Holds, Gc.at, Registered]

/-- Over any run the heap stays sound. -/
theorem run (hs : Relation.ReflTransGen Step {} g) : Sound g := by
  induction hs with
  | refl => exact empty
  | tail _ hs ih => exact ih.step hs

end Sound

/-- The one object leads to the other: it is in use and marking follows a field to it, or it is a
weak table with an entry for an object, which is the other or has it for a value.  The comparison
and hash functions of a weak table are not among these: nothing keeps them. -/
def Leads (g : Gc) (m n : Addr) : Prop :=
  m ∈ g.used ∧ .pointer n ∈ (g.at m).value.fields ∨
    m ∈ g.weak ∧ ∃ e ∈ (g.at m).value.entries, ∃ k, e.key = .pointer k ∧
      (n = k ∨ e.value = .pointer n)

/-- In a sound heap what an object leads to is in use. -/
theorem Sound.leads {g : Gc} (h : Sound g) {m n : Addr} (hn : Leads g m n) : g.InUse n := by
  obtain ⟨hm, hn⟩ | ⟨hm, e, he, k, hk, hn⟩ := hn
  · exact h.fields m hm n hn
  · obtain ⟨hkey, hval⟩ := h.keys m hm e he k hk
    obtain rfl | hn := hn
    · exact hkey
    · exact hval n (List.mem_singleton.mpr hn.symm)

/-- After any run no object is on two lists; what the roots and the autos lead to is in use and is
not free; `idio_gc_get` gives out no object that is in use; and a collection comes to an end. -/
theorem runs_safe {g : Gc} (hs : Relation.ReflTransGen Step {} g) :
    (g.used ++ g.weak ++ g.free).Nodup ∧
      (∀ a, Reached (Leads g) (fun n => .pointer n ∈ g.roots ++ g.autos) a →
        g.InUse a ∧ (g.at a).free = false ∧ g.Present a) ∧
      (∀ v, ¬ g.InUse (g.get v).1) ∧ (g.pause = 0 → ∃ g', g.collect = some g') := by
  have h := Sound.run hs
  refine ⟨h.distinct, ?_, ?_, ?_⟩
  · intro a ha
    have hin : g.InUse a := ha.holds h.roots fun _ _ _ => h.leads
    exact ⟨hin, h.notFree a hin, h.present a hin⟩
  · intro v hin
    exact (List.nodup_cons.mp h.take_taken.distinct).1 (List.mem_append_left _ hin)
  · intro hp
    obtain ⟨-, -, -, g', hg', -⟩ := collect_collected h hp
    exact ⟨g', hg'⟩

/-- Two handles, what is told of them, and a hash table for it. -/
def handlesGot : Gc :=
  let g := (({} : Gc).get (.handle .nil .nil)).2
  let g := (g.get (.handle .nil .nil)).2
  let g := (g.get .leaf).2
  let g := (g.get .leaf).2
  (g.get (.hash false [[], []] 0 .nil .nil)).2

/-- The table is made weak. -/
def handlesWeak : Gc := { handlesGot with used := [996, 997, 998, 999], weak := [995] }

/-- It is the table of finalizers. -/
def handlesTabled : Gc := { handlesWeak with finalizerHash := some 995 }

/-- The entries of the two handles. -/
def handlesEntries : Value :=
  .hash false [[⟨.pointer 999, .pointer 997⟩, ⟨.pointer 998, .pointer 996⟩], []] 2 .nil .nil

/-- Both handles are registered. -/
def handlesRegistered : Gc :=
  ((handlesTabled.store 995 handlesEntries).setFinalizer 999 true).setFinalizer 998 true

/-- One handle and the table are roots. -/
def handlesRooted : Gc := (handlesRegistered.protect (.pointer 999)).protect (.pointer 995)

theorem holds_nothing {g : Gc} {rs : List Ref} (h : rs.all fun r => r = .nil) : g.Holds rs := by
  intro n hn
  have := of_decide_eq_true (List.all_eq_true.mp h _ hn)
  cases this

theorem holds_inUse {g : Gc} {rs : List Ref}
    (h : rs.all fun r => (g.used ++ g.weak).any fun a => r = .pointer a) : g.Holds rs := by
  intro n hn
  obtain ⟨a, ha, heq⟩ := List.any_eq_true.mp (List.all_eq_true.mp h _ hn)
  cases of_decide_eq_true heq
  exact ha

/-- If no object has a finalizer there is none at any address. -/
theorem Gc.no_finalizer {g : Gc} (h : g.objects.all fun ob => ob.finalizer = false) (a : Addr) :
    (g.at a).finalizer = false := by
  unfold Gc.at
  rw [List.getD_eq_getElem?_getD]
  cases hget : g.objects[a]? with
  | none => rfl
  | some ob => exact of_decide_eq_true (List.all_eq_true.mp h ob (List.mem_of_getElem? hget))

/-- The program that makes this heap. -/
theorem handles_run : Relation.ReflTransGen Step {} handlesRooted := by
  have got : Relation.ReflTransGen Step {} handlesGot :=
    ((((Relation.ReflTransGen.single (.get rfl (holds_nothing rfl))).tail
      (.get rfl (holds_nothing rfl))).tail (.get rfl (holds_nothing rfl))).tail
      (.get rfl (holds_nothing rfl))).tail (.get rfl (holds_nothing rfl))
  have weak : Step handlesGot handlesWeak := by
    have hval : (handlesGot.at 995).value = .hash false [[], []] 0 .nil .nil := by decide +kernel
    refine .addWeak (o := 995) ?_ ?_ (by decide +kernel)
    · rw [hval]
      rfl
    · rw [hval]
      intro e he
      cases he
  have table : Step handlesWeak handlesTabled :=
    .finalizers (t := 995) List.mem_cons_self (Gc.no_finalizer (by decide +kernel))
  have entries : Step handlesTabled (handlesTabled.store 995 handlesEntries) := by
    refine .writeWeak List.mem_cons_self rfl rfl ?_ ?_
    · intro e he k hk
      have he' : e ∈ [⟨.pointer 999, .pointer 997⟩, (⟨.pointer 998, .pointer 996⟩ : Entry)] := he
      simp only [List.mem_cons, List.not_mem_nil, or_false] at he'
      obtain rfl | rfl := he'
      · cases hk
        exact ⟨List.mem_append_left _ (by decide), holds_inUse (by decide)⟩
      · cases hk
        exact ⟨List.mem_append_left _ (by decide), holds_inUse (by decide)⟩
    · intro _ a ha
      rw [Gc.no_finalizer (by decide +kernel)] at ha
      cases ha
  have hval : ((handlesTabled.store 995 handlesEntries).at 995).value = handlesEntries := by
    decide +kernel
  have first : Step (handlesTabled.store 995 handlesEntries)
      ((handlesTabled.store 995 handlesEntries).setFinalizer 999 true) := by
    refine .register fun t ht => ?_
    cases ht
    rw [hval]
    exact ⟨⟨.pointer 999, .pointer 997⟩, by decide, rfl⟩
  have hval' : (((handlesTabled.store 995 handlesEntries).setFinalizer 999 true).at 995).value =
      handlesEntries := by
    decide +kernel
  have second : Step ((handlesTabled.store 995 handlesEntries).setFinalizer 999 true)
      handlesRegistered := by
    refine .register fun t ht => ?_
    cases ht
    rw [hval']
    exact ⟨⟨.pointer 998, .pointer 996⟩, by decide, rfl⟩
  have made := ((((got.tail weak).tail table).tail entries).tail first).tail second
  have root : handlesRegistered.Holds [.pointer 999] := holds_inUse (by decide)
  have root' : (handlesRegistered.protect (.pointer 999)).Holds [.pointer 995] :=
    holds_inUse (by decide)
  exact (made.tail (.protect root)).tail (.protect root')

/-- The first collection comes upon the table as upon any other.  The second runs the finalizer of
the handle that is no root, takes its entry out of the table and frees it, so that it is the next
to be given out; the other handle, what is told of it and the table are still there. -/
theorem handles_safe : ∃ g₁ g, handlesRooted.collect = some g₁ ∧ g₁.collect = some g ∧
    g.ran = [998] ∧ (g.at 995).value.entries = [⟨.pointer 999, .pointer 997⟩] ∧
    (g.used ++ g.weak ++ g.free).Nodup ∧
    (g.InUse 997 ∧ (g.at 997).free = false ∧ g.Present 997) ∧
    (g.get .leaf).1 = 998 ∧ ¬ g.InUse 998 := by
  have hrun : ((handlesRooted.collect >>= Gc.collect).any fun g => g.ran = [998] ∧
      (g.at 995).value.entries = [⟨.pointer 999, .pointer 997⟩] ∧ g.weak = [995] ∧
      g.roots = [.pointer 995, .pointer 999] ∧ (g.get .leaf).1 = 998) = true := by
    decide +kernel
  obtain ⟨g, hg, hall⟩ := (Option.any_eq_true _ _).mp hrun
  obtain ⟨hran, hentries, hweak, hroots, hget⟩ := of_decide_eq_true hall
  obtain ⟨g₁, hg₁, hg⟩ := Option.bind_eq_some_iff.mp hg
  obtain ⟨hnodup, hreached, hnew, -⟩ :=
    runs_safe ((handles_run.tail (.collect hg₁)).tail (.collect hg))
  have hleads : Leads g 995 997 := by
    refine .inr ⟨by rw [hweak]; decide, ⟨.pointer 999, .pointer 997⟩, ?_, 999, rfl, .inr rfl⟩
    rw [hentries]
    exact List.mem_singleton.mpr rfl
  have hroot : .pointer 995 ∈ g.roots ++ g.autos := by
    rw [hroots]
    exact List.mem_cons_self
  have hpath : Reached (Leads g) (fun n => .pointer n ∈ g.roots ++ g.autos) 997 :=
    Reached.tail (Reached.of_source hroot) hleads
  exact ⟨g₁, g, hg₁, hg, hran, hentries, hnodup, hreached 997 hpath, hget, hget ▸ hnew .leaf⟩

end Idio.Collector
