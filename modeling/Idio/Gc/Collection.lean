/-
  Gc/Collection.lean --- what a collection frees and keeps, and that the heap stays sound.

  After a collection the objects that are left in use are those that marking came to.  All that
  the roots, the autos and the entries left in weak tables lead to is among them, along the fields
  as they are after the collection; and nothing else is that these do not lead to along the fields
  as they were before.  (The fields differ only for weak tables, which may have lost entries.)
-/
import Idio.Gc.Sound

set_option autoImplicit false

namespace Idio.Collector

open Marking (Reached TriColour)

/-! ## The heap stays sound -/

namespace Collected

variable {g gs g₁ gm g' : Gc} {a n : Addr}

theorem weak (hc : Collected g gs g₁ gm g') : g'.weak = g.weak := by rw [hc.rest]

theorem marked_value (hc : Collected g gs g₁ gm g') (ha : a ∉ g.weak) :
    (gm.at a).value = (g.at a).value := by
  have hw : a ∉ g.begun.weak := by rwa [Gc.begun_weak]
  rw [hc.marked.weakly.shrunk.value a hw, Gc.begun_value]

theorem dead_iff (h : Sound g) (hc : Collected g gs g₁ gm g') (ha : a ∈ g.used) :
    gm.dead a = false ↔ (gm.at a).colour = .black := by
  have hs : (gm.at a).sticky = false := by
    rw [hc.marked.weakly.shrunk.sticky a, Gc.begun_same]
    exact h.sticky a ha
  unfold Gc.dead
  rw [hs]
  constructor
  · intro hd
    refine hc.marked.weakly.black hc.marked.none a ?_
    intro hw
    rw [hw] at hd
    cases hd
  · intro hb
    rw [hb]
    rfl

/-- The objects that are left in use are those that are black. -/
theorem mem_used (h : Sound g) (hc : Collected g gs g₁ gm g') :
    a ∈ g'.used ↔ a ∈ g.used ∧ (gm.at a).colour = .black := by
  rw [hc.used, List.mem_filter]
  constructor
  · rintro ⟨ha, hd⟩
    exact ⟨ha, (hc.dead_iff h ha).mp (by simpa using hd)⟩
  · rintro ⟨ha, hb⟩
    exact ⟨ha, by simp [(hc.dead_iff h ha).mpr hb]⟩

theorem distinct (h : Sound g) : (∀ a ∈ g.used, a ∉ g.weak) ∧ ∀ a ∈ g.used ++ g.weak, a ∉ g.free :=
  ⟨fun a ha hw => (List.nodup_append.mp (List.nodup_append.mp h.distinct).1).2.2 a ha a hw rfl,
    fun a ha hf => (List.nodup_append.mp h.distinct).2.2 a ha a hf rfl⟩

/-- What stays in use is left as marking left it. -/
theorem same_inUse (h : Sound g) (hc : Collected g gs g₁ gm g') (ha : g'.InUse a) :
    g'.at a = gm.at a := by
  refine hc.same a ?_
  rintro ⟨hu, hd⟩
  obtain ha | ha := List.mem_append.mp ha
  · have := (hc.dead_iff h hu).mpr ((hc.mem_used h).mp ha).2
    rw [this] at hd
    cases hd
  · rw [hc.weak] at ha
    exact (distinct h).1 a hu ha

/-- What was in use and is marked stays in use. -/
theorem inUse (h : Sound g) (hc : Collected g gs g₁ gm g') (hn : g.InUse n)
    (hm : (gm.at n).colour ≠ .white) : g'.InUse n := by
  obtain hn | hn := List.mem_append.mp hn
  · refine List.mem_append_left _ ((hc.mem_used h).mpr ⟨hn, ?_⟩)
    exact hc.marked.weakly.black hc.marked.none n hm
  · refine List.mem_append_right _ ?_
    rwa [hc.weak]

theorem present_begun (h : Sound g) (hn : g.InUse n) : g.begun.Present n :=
  Gc.begun_present.mpr (h.present n hn)

/-- The fields of a black object lead to what stays in use. -/
theorem fields_inUse (h : Sound g) (hc : Collected g gs g₁ gm g') (ha : a ∈ g'.used) :
    g'.Holds (g'.at a).value.fields := by
  intro n hn
  obtain ⟨hu, hb⟩ := (hc.mem_used h).mp ha
  rw [hc.same_inUse h (List.mem_append_left _ ha)] at hn
  have hn' := hn
  rw [hc.marked_value ((distinct h).1 a hu)] at hn'
  have hin := h.fields a hu n hn'
  refine hc.inUse h hin ?_
  have hw := Gc.begun_white hu (h.present a (List.mem_append_left _ hu))
  exact (hc.marked.weakly.marks.three.closed a n hb
    ⟨hw, hn, present_begun h hin⟩).resolve_right (by simp)

/-- What is left in weak tables is in use. -/
theorem keys_inUse (h : Sound g) (hc : Collected g gs g₁ gm g') {o : Addr} (ho : o ∈ g'.weak)
    {e : Entry} (he : e ∈ (g'.at o).value.entries) {k : Addr} (hk : e.key = .pointer k) :
    g'.InUse k ∧ g'.Holds [e.value] := by
  rw [hc.same_inUse h (List.mem_append_right _ ho)] at he
  rw [hc.weak] at ho
  have hob : o ∈ g.begun.weak := by rwa [Gc.begun_weak]
  have he' : e ∈ (g.at o).value.entries := by
    have := hc.marked.weakly.shrunk.entries he
    rwa [Gc.begun_value] at this
  obtain ⟨hkin, hvin⟩ := h.keys o ho e he' k hk
  obtain ⟨hb, hv⟩ := hc.marked.held o hob e he k hk
  refine ⟨hc.inUse h hkin (by simp [hb]), ?_⟩
  intro n hn
  have hval : e.value = .pointer n := (List.mem_singleton.mp hn).symm
  have hin := hvin n hn
  refine hc.inUse h hin (hv n hval ?_)
  exact (hc.marked.weakly.marks.present n).mpr (present_begun h hin)

theorem root_inUse (h : Sound g) (hc : Collected g gs g₁ gm g') :
    g'.Holds (g'.roots ++ g'.autos) := by
  intro n hn
  have hn' : .pointer n ∈ g.roots ++ g.autos := by
    rw [hc.rest] at hn
    exact hn
  have hin := h.roots n hn'
  have hroot : g.begun.Root n := Gc.begun_root.mpr ⟨hn', h.present n hin⟩
  have := hc.marked.weakly.complete hc.marked.none (.of_source (.inl hroot))
  exact hc.inUse h hin (by simp [this])

theorem inUse_before (h : Sound g) (hc : Collected g gs g₁ gm g') (ha : g'.InUse a) :
    g.InUse a := by
  obtain ha | ha := List.mem_append.mp ha
  · exact List.mem_append_left _ ((hc.mem_used h).mp ha).1
  · rw [hc.weak] at ha
    exact List.mem_append_right _ ha

/-- A collection leaves the heap sound. -/
theorem sound (h : Sound g) (hc : Collected g gs g₁ gm g') : Sound g' := by
  obtain ⟨back, kept, hfree, hlen, hfree'⟩ := hc.free
  have hsub : ∀ a ∈ kept, a ∈ g.free := fun a ha => by
    rw [hfree]
    exact List.mem_append_right _ ha
  have hgone : ∀ a, a ∈ (g.used.filter gm.dead).reverse ↔ a ∈ g.used ∧ gm.dead a = true := by
    intro a
    rw [List.mem_reverse, List.mem_filter]
  obtain ⟨huw, hf⟩ := distinct h
  have hnodup := List.nodup_append.mp h.distinct
  have hnodup' := List.nodup_append.mp hnodup.1
  have shrunk := hc.marked.weakly.shrunk
  constructor
  · -- the dead have gone from one list to the other
    rw [hfree']
    refine List.nodup_append.mpr ⟨?_, List.nodup_append.mpr ⟨?_, ?_, ?_⟩, ?_⟩
    · refine List.nodup_append.mpr ⟨?_, ?_, ?_⟩
      · rw [hc.used]
        exact hnodup'.1.filter _
      · rw [hc.weak]
        exact hnodup'.2.1
      · rintro a ha b hb rfl
        rw [hc.weak] at hb
        exact huw a ((hc.mem_used h).mp ha).1 hb
    · exact (List.reverse_perm _).nodup_iff.mpr (hnodup'.1.filter _)
    · rw [hfree] at hnodup
      exact (List.nodup_append.mp hnodup.2.1).2.1
    · rintro a ha b hb rfl
      exact hf a (List.mem_append_left _ ((hgone a).mp ha).1) (hsub a hb)
    · rintro a ha b hb rfl
      obtain hb | hb := List.mem_append.mp hb
      · obtain ⟨hu, hd⟩ := (hgone a).mp hb
        obtain ha | ha := List.mem_append.mp ha
        · have := (hc.dead_iff h hu).mpr ((hc.mem_used h).mp ha).2
          rw [this] at hd
          cases hd
        · rw [hc.weak] at ha
          exact huw a hu ha
      · exact hf a (hc.inUse_before h ha) (hsub a hb)
  · intro a ha
    rw [hc.size]
    refine h.inside a ?_
    obtain ha | ha := List.mem_append.mp ha
    · exact List.mem_append_left _ (hc.inUse_before h ha)
    · rw [hfree'] at ha
      obtain ha | ha := List.mem_append.mp ha
      · exact List.mem_append_left _ (List.mem_append_left _ ((hgone a).mp ha).1)
      · exact List.mem_append_right _ (hsub a ha)
  · intro a ha
    unfold Gc.Present
    rw [hc.same_inUse h ha]
    exact (hc.marked.weakly.marks.present a).mpr (present_begun h (hc.inUse_before h ha))
  · intro a ha
    rw [hc.same_inUse h ha, shrunk.free a, Gc.begun_same]
    exact h.notFree a (hc.inUse_before h ha)
  · intro a ha
    rw [hc.same_inUse h (List.mem_append_left _ ha), shrunk.sticky a, Gc.begun_same]
    exact h.sticky a ((hc.mem_used h).mp ha).1
  · intro o ho
    rw [hc.same_inUse h (List.mem_append_right _ ho), shrunk.isHash o, Gc.begun_value]
    rw [hc.weak] at ho
    exact h.hashes o ho
  · intro o ho
    rw [hc.same_inUse h (List.mem_append_right _ ho)]
    refine shrunk.counted o ?_
    rw [Gc.begun_value]
    rw [hc.weak] at ho
    exact h.counted o ho
  · exact hc.nfree
  · intro a
    obtain hd | hd := Classical.em (a ∈ g.used ∧ gm.dead a = true)
    · rw [(hc.freed a hd.1 hd.2).2.2]
      exact fun h => by cases h
    · rw [hc.same a hd]
      exact hc.marked.weakly.settled hc.marked.none a
  · exact hc.registered
  · intro t ht
    rw [hc.weak]
    refine h.table t ?_
    rw [hc.rest] at ht
    exact ht
  · exact hc.root_inUse h
  · exact fun a ha => hc.fields_inUse h ha
  · exact fun o ho e he k hk => hc.keys_inUse h ho he hk

end Collected

/-! ## What is kept and what is freed -/

/-- What marking begins with: the roots, the autos, and the values of the entries that are left in
weak tables and have objects for keys. -/
def Begins (g g' : Gc) (n : Addr) : Prop :=
  g.Root n ∨ ∃ o ∈ g.weak, ∃ e ∈ (g'.at o).value.entries, ∃ k,
    e.key = .pointer k ∧ e.value = .pointer n ∧ g.Present n

namespace Collected

variable {g gs g₁ gm g' : Gc} {a n : Addr}

theorem weak_same (h : Sound g) (hc : Collected g gs g₁ gm g') {o : Addr} (ho : o ∈ g.weak) :
    g'.at o = gm.at o := by
  refine hc.same_inUse h (List.mem_append_right _ ?_)
  rwa [hc.weak]

theorem source_iff (h : Sound g) (hc : Collected g gs g₁ gm g') :
    Source g.begun gm n ↔ Begins g g' n := by
  unfold Source Begins
  rw [Gc.begun_root]
  constructor
  · rintro (hn | ⟨o, ho, e, he, k, hk, -, hv, hp, -⟩)
    · exact .inl hn
    · rw [Gc.begun_weak] at ho
      refine .inr ⟨o, ho, e, ?_, k, hk, hv, Gc.begun_present.mp hp⟩
      rwa [hc.weak_same h ho]
  · rintro (hn | ⟨o, ho, e, he, k, hk, hv, hp⟩)
    · exact .inl hn
    · have ho' : o ∈ g.begun.weak := by rwa [Gc.begun_weak]
      rw [hc.weak_same h ho] at he
      obtain ⟨hb, hm⟩ := hc.marked.held o ho' e he k hk
      have hp' : g.begun.Present n := Gc.begun_present.mpr hp
      refine .inr ⟨o, ho', e, he, k, hk, hb, hv, hp', hm n hv ?_⟩
      exact (hc.marked.weakly.marks.present n).mpr hp'

theorem black_of_source (hc : Collected g gs g₁ gm g') (hn : Source g.begun gm n) :
    (gm.at n).colour = .black :=
  hc.marked.weakly.complete hc.marked.none (.of_source hn)

/-- A collection does not change how the fields of an object lead on, but for those it frees. -/
theorem refers_marked (hc : Collected g gs g₁ gm g') {m : Addr}
    (hr : Refers g.begun g' m n) : Refers g.begun gm m n := by
  obtain ⟨hw, hn, hp⟩ := hr
  refine ⟨hw, ?_, hp⟩
  obtain hd | hd := Classical.em (m ∈ g.used ∧ gm.dead m = true)
  · rw [(hc.freed m hd.1 hd.2).1] at hn
    cases hn
  · rwa [hc.same m hd] at hn

theorem used_of_reached (h : Sound g) (hc : Collected g gs g₁ gm g') (ha : a ∈ g.used)
    (hr : Reached (Refers g.begun g') (Begins g g') a) : a ∈ g'.used := by
  refine (hc.mem_used h).mpr ⟨ha, hc.marked.weakly.complete hc.marked.none ?_⟩
  exact hr.mono (fun _ _ => hc.refers_marked) fun _ => (hc.source_iff h).mpr

theorem reached_of_used (h : Sound g) (hc : Collected g gs g₁ gm g') (ha : a ∈ g'.used) :
    Reached (Refers g.begun g.begun) (Begins g g') a := by
  obtain ⟨hu, hb⟩ := (hc.mem_used h).mp ha
  have hw := Gc.begun_white hu (h.present a (List.mem_append_left _ hu))
  exact (hc.marked.weakly.sound hw hb).2.mono (fun _ _ h => h) fun _ => (hc.source_iff h).mp

/-- Where no weak table is white, the fields lead where they led before. -/
theorem used_of_reached_before (h : Sound g) (hc : Collected g gs g₁ gm g')
    (hweak : ∀ o ∈ g.weak, (g.at o).colour ≠ .white) (ha : a ∈ g.used)
    (hr : Reached (Refers g.begun g.begun) (Begins g g') a) : a ∈ g'.used := by
  refine (hc.mem_used h).mpr ⟨ha, ?_⟩
  refine hr.holds (P := fun n => (gm.at n).colour = .black) ?_ ?_
  · exact fun s hs => hc.black_of_source ((hc.source_iff h).mpr hs)
  · rintro m n hm ⟨hw, hn, hp⟩
    have hmw : m ∉ g.weak := by
      intro hmw
      have hmu : ¬ (m ∈ ({ g with request := false } : Gc).used ∧
          ({ g with request := false } : Gc).Present m) := fun hu => (distinct h).1 m hu.1 hmw
      have := (Gc.started_whitened { g with request := false }).other m hmu
      exact hweak m hmw (this.symm.trans hw)
    have hval : (gm.at m).value = (g.begun.at m).value := by
      rw [hc.marked_value hmw, Gc.begun_value]
    refine hc.marked.weakly.black hc.marked.none n ?_
    rw [← hval] at hn
    exact (hc.marked.weakly.marks.three.closed m n hm ⟨hw, hn, hp⟩).resolve_right (by simp)

end Collected

/-- Two handles that are in the table of finalizers, and one of them is protected. -/
def twoHandles : Gc where
  objects := [
    { value := .hash false [[⟨.pointer 1, .pointer 3⟩, ⟨.pointer 2, .pointer 4⟩], []] 2 .nil .nil,
      colour := .black },
    { value := .handle .nil .nil, finalizer := true },
    { value := .handle .nil .nil, finalizer := true },
    { value := .leaf },
    { value := .leaf }]
  used := [4, 3, 2, 1]
  weak := [0]
  roots := [.pointer 1, .pointer 0]
  finalizerHash := some 0

theorem twoHandles_sound : Sound twoHandles := by
  have holds : ∀ rs : List Ref, (∀ r ∈ rs, r ∈ [Ref.nil, .pointer 0, .pointer 1, .pointer 3,
      .pointer 4]) → twoHandles.Holds rs := by
    intro rs h n hn
    have := h _ hn
    simp [Ref.nil] at this
    unfold Gc.InUse
    obtain rfl | rfl | rfl | rfl := this <;> decide
  constructor
  · decide
  · decide
  · unfold Gc.Present
    decide
  · decide
  · decide
  · decide
  · intro o ho
    rw [List.mem_singleton.mp ho]
    exact rfl
  · rfl
  · intro a
    obtain _ | _ | _ | _ | _ | a := a <;> simp [twoHandles, Gc.at]
  · intro t ht a ha
    cases ht
    obtain _ | _ | _ | _ | _ | a := a <;> simp_all [twoHandles, Gc.at, Value.entries]
  · decide
  · exact holds _ (by decide)
  · intro a ha
    refine holds _ ?_
    revert a
    decide
  · intro o ho e he k hk
    rw [List.mem_singleton.mp ho] at he
    have he' : e = ⟨.pointer 1, .pointer 3⟩ ∨ e = ⟨.pointer 2, .pointer 4⟩ := by
      simpa [twoHandles, Gc.at, Value.entries] using he
    obtain rfl | rfl := he'
    · cases hk
      exact ⟨List.mem_append_left _ (by decide), holds _ (by decide)⟩
    · cases hk
      exact ⟨List.mem_append_left _ (by decide), holds _ (by decide)⟩

/-- A collection comes to an end.  It leaves in use, with their values untouched, the objects
that are reached, and puts the others on the free list, each once, in front of what is left of
it. -/
theorem collect_frees {g : Gc} (h : Sound g) (hp : g.pause = 0) :
    ∃ g', g.collect = some g' ∧ g'.used.Sublist g.used ∧
      (∀ a ∈ g.used, Reached (Refers g.begun g') (Begins g g') a → a ∈ g'.used) ∧
      (∀ a ∈ g'.used, Reached (Refers g.begun g.begun) (Begins g g') a ∧
        (g'.at a).value = (g.at a).value) ∧
      ((∀ o ∈ g.weak, (g.at o).colour ≠ .white) → ∀ a ∈ g.used,
        (a ∈ g'.used ↔ Reached (Refers g.begun g.begun) (Begins g g') a)) ∧
      ∃ back kept, g.free = back ++ kept ∧ kept.length ≤ allocMany ∧
        g'.free = (g.used.filter fun a => decide (a ∉ g'.used)).reverse ++ kept := by
  obtain ⟨gs, g₁, gm, g', hg', hc⟩ := collect_collected h hp
  refine ⟨g', hg', ?_, fun a => hc.used_of_reached h, ?_, ?_, ?_⟩
  · rw [hc.used]
    exact List.filter_sublist
  · intro a ha
    refine ⟨hc.reached_of_used h ha, ?_⟩
    rw [hc.same_inUse h (List.mem_append_left _ ha)]
    exact hc.marked_value ((Collected.distinct h).1 a ((hc.mem_used h).mp ha).1)
  · intro hweak a ha
    exact ⟨hc.reached_of_used h, hc.used_of_reached_before h hweak ha⟩
  · obtain ⟨back, kept, hfree, hlen, hfree'⟩ := hc.free
    refine ⟨back, kept, hfree, hlen, ?_⟩
    rw [hfree']
    congr 2
    refine List.filter_congr ?_
    intro a ha
    cases hd : gm.dead a with
    | true =>
      have : a ∉ g'.used := by
        intro hm
        rw [(hc.dead_iff h ha).mpr ((hc.mem_used h).mp hm).2] at hd
        cases hd
      simp [this]
    | false =>
      have : a ∈ g'.used := (hc.mem_used h).mpr ⟨ha, (hc.dead_iff h ha).mp hd⟩
      simp [this]

/-- Of the two handles the one that is protected stays, with what its entry leads to. -/
theorem twoHandles_frees : ∃ g', twoHandles.collect = some g' ∧ g'.used.Sublist twoHandles.used ∧
    g'.used = [3, 1] ∧ g'.free = [2, 4] := by
  obtain ⟨g', hg', hsub, -, -, -, -⟩ := collect_frees twoHandles_sound rfl
  have hrun : twoHandles.collect.map (fun g => (g.used, g.free)) = some ([3, 1], [2, 4]) := by
    decide
  rw [hg'] at hrun
  exact ⟨g', hg', hsub, by simpa using hrun⟩

/-! ## Weak tables and finalizers -/

/-- The object is reached from the roots and autos, or from the values of weak entries whose keys
are: what the first pass comes to. -/
def Once (g : Gc) : Addr → Prop :=
  Reached (Refers g g) fun n => g.Root n ∨ ∃ o ∈ g.weak, ∃ e ∈ (g.at o).value.entries, ∃ k,
    e.key = .pointer k ∧ (Reached (Refers g g) g.Root k ∨ (g.at k).colour ≠ .white) ∧
    e.value = .pointer n ∧ g.Present n

/-- After the first pass what is reached in this way is black. -/
theorem Marked.once_black {g₀ gs g₁ g : Gc} (h : Marked g₀ gs g₁ g) {a : Addr}
    (ha : Once g₀ a ∨ (g₀.at a).colour ≠ .white) : (g₁.at a).colour = .black := by
  obtain ha | ha := ha
  · have hrep := h.strongRep.trans h.firstRep
    have strong : ∀ k, Reached (Refers g₀ g₀) g₀.Root k ∨ (g₀.at k).colour ≠ .white →
        (gs.at k).colour = .black := by
      rintro k (hk | hk)
      · refine h.strong.complete h.strongNone (hk.mono ?_ fun _ => .inl)
        rintro m n ⟨hw, hn, hp⟩
        refine ⟨hw, ?_, hp⟩
        rwa [h.strongRep.value m]
      · exact h.strong.marks.three.before k hk
    refine h.first.complete h.firstNone (ha.mono ?_ ?_)
    · rintro m n ⟨hw, hn, hp⟩
      refine ⟨hw, ?_, hp⟩
      rwa [hrep.value m]
    · rintro n (hn | ⟨o, ho, e, he, k, hk, hk', hv, hp⟩)
      · exact .inl hn
      · have hb := strong k hk'
        have hes : e ∈ (gs.at o).value.entries := by rwa [h.strongRep.value o]
        refine .inr ⟨o, ho, e, ?_, k, hk, h.firstRep.black k hb, hv, hp,
          h.followed o ho e hes k n hk hb hv hp⟩
        rwa [hrep.value o]
  · exact h.first.marks.three.before a ha

/-- An entry of a weak table stays if its key is no object, or is reached from the roots and from
the values of entries whose keys are reached from the roots, or is not white as marking begins (a
weak table that an earlier collection has blackened); and it stays only if its key is live or not
white then.  The key and the value are then still in use, and the table counts its entries. -/
theorem collect_weak {g : Gc} (h : Sound g) (hp : g.pause = 0) :
    ∃ g', g.collect = some g' ∧ ∀ o ∈ g.weak, (g'.at o).value.Counted ∧
      (∀ e ∈ (g'.at o).value.entries, e ∈ (g.at o).value.entries) ∧
      ∀ e ∈ (g.at o).value.entries,
        ((∀ k, e.key = .pointer k → Once g.begun k ∨ (g.begun.at k).colour ≠ .white) →
          e ∈ (g'.at o).value.entries) ∧
        (e ∈ (g'.at o).value.entries → ∀ k, e.key = .pointer k →
          (Live g.begun k ∨ (g.begun.at k).colour ≠ .white) ∧ g'.InUse k ∧
            g'.Holds [e.value]) := by
  obtain ⟨gs, g₁, gm, g', hg', hc⟩ := collect_collected h hp
  refine ⟨g', hg', ?_⟩
  intro o ho
  have ho' : o ∈ g'.weak := by rwa [hc.weak]
  have entries : ∀ e, e ∈ (g'.at o).value.entries → e ∈ (g.at o).value.entries := by
    intro e he
    rw [hc.weak_same h ho] at he
    have := hc.marked.weakly.shrunk.entries he
    rwa [Gc.begun_value] at this
  refine ⟨(hc.sound h).counted o ho', entries, ?_⟩
  intro e he
  constructor
  · intro hk
    have hrep := hc.marked.strongRep.trans hc.marked.firstRep
    rw [hc.weak_same h ho]
    refine hc.marked.second.kept ?_ fun k hk' => hc.marked.once_black (hk k hk')
    rwa [hrep.value o, Gc.begun_value]
  · intro he' k hk
    refine ⟨?_, hc.keys_inUse h ho' he' hk⟩
    rw [hc.weak_same h ho] at he'
    have hob : o ∈ g.begun.weak := by rwa [Gc.begun_weak]
    exact hc.marked.weakly.live (hc.marked.held o hob e he' k hk).1

/-- The entry of the handle that is not protected is dropped. -/
theorem twoHandles_weak : ∃ g', twoHandles.collect = some g' ∧ (g'.at 0).value.Counted ∧
    (g'.at 0).value.entries = [⟨.pointer 1, .pointer 3⟩] := by
  obtain ⟨g', hg', hweak⟩ := collect_weak twoHandles_sound rfl
  have hrun : twoHandles.collect.map (fun g => (g.at 0).value.entries) =
      some [⟨.pointer 1, .pointer 3⟩] := by
    decide
  rw [hg'] at hrun
  exact ⟨g', hg', (hweak 0 (by decide)).1, by simpa using hrun⟩

/-- A collection runs finalizers, each at most once, for objects that had one and have it no more,
and that the first pass did not come to; and it frees no object before its finalizer has been
run. -/
theorem collect_finalizers {g : Gc} (h : Sound g) (hp : g.pause = 0) :
    ∃ g' rs, g.collect = some g' ∧ g'.ran = rs ++ g.ran ∧ rs.Nodup ∧
      (∀ a ∈ rs, (g.at a).finalizer = true ∧ (g'.at a).finalizer = false ∧
        ¬ Once g.begun a) ∧
      (∀ a, a ∉ rs → (g'.at a).finalizer = (g.at a).finalizer) ∧
      (g.finalizerHash ≠ none → ∀ a ∈ g.used, a ∉ g'.used → (g.at a).finalizer = true →
        a ∈ rs) := by
  obtain ⟨gs, g₁, gm, g', hg', hc⟩ := collect_collected h hp
  obtain ⟨rs, hr, hall⟩ := hc.ran
  have hrep := hc.marked.strongRep.trans hc.marked.firstRep
  have flag : ∀ a, (g₁.at a).finalizer = (g.at a).finalizer := by
    intro a
    rw [hrep.finalizer a, Gc.begun_same]
  refine ⟨g', rs, hg', ?_, hr.nodup, ?_, ?_, ?_⟩
  · have hran : g₁.ran = g.ran := by
      rw [hrep.rest]
      exact Gc.begun_ran g
    rw [hr.ran, hran]
  · intro a ha
    refine ⟨?_, hr.gone a ha, ?_⟩
    · rw [← flag a]
      exact hr.had a ha
    · intro hone
      exact hr.lost a ha (hc.marked.once_black (.inl hone))
  · intro a ha
    rw [hr.other a ha, flag a]
  · intro hh a ha hu hf
    refine hall hh a ha ?_ hf
    cases hd : gm.dead a with
    | true => rfl
    | false => exact absurd ((hc.mem_used h).mpr ⟨ha, (hc.dead_iff h ha).mp hd⟩) hu

/-- The finalizer of the handle that is not protected is run. -/
theorem twoHandles_finalizers : ∃ g' rs, twoHandles.collect = some g' ∧
    g'.ran = rs ++ twoHandles.ran ∧ rs.Nodup ∧ rs = [2] := by
  obtain ⟨g', rs, hg', hran, hnodup, -⟩ := collect_finalizers twoHandles_sound rfl
  have hrun : twoHandles.collect.map Gc.ran = some [2] := by
    decide
  rw [hg'] at hrun
  refine ⟨g', rs, hg', hran, hnodup, ?_⟩
  have h2 : g'.ran = [2] := by simpa using hrun
  rw [hran] at h2
  exact (List.append_nil rs).symm.trans h2

end Idio.Collector
