/-
  Gc/Ditch.lean --- the second pass over the weak hash tables, and marking as a whole.

  An entry is dropped when its key is not black, and its key's finalizer is run first.  What is
  left in a table once the pass has been over it has black keys and marked values.
-/
import Idio.Gc.Passes

set_option autoImplicit false

namespace Idio.Collector

/-- An entry that stays in its table: where its key is an object, the key is black and the value
is marked. -/
def Held (g : Gc) (e : Entry) : Prop :=
  ∀ k, e.key = .pointer k → (g.at k).colour = .black ∧
    ∀ v, e.value = .pointer v → g.Present v → (g.at v).colour ≠ .white

theorem Held.mono {g g' : Gc} {e : Entry} (h : Held g e) (hs : Shrunk g g') : Held g' e := by
  intro k hk
  obtain ⟨hb, hv⟩ := h k hk
  refine ⟨hs.black k hb, ?_⟩
  intro v hv' hp
  refine hs.marked v (hv v hv' ?_)
  unfold Gc.Present at hp ⊢
  rwa [hs.present v] at hp

/-! ## Finalizers -/

namespace Gc

variable {g : Gc} {o a : Addr}

theorem length_finalized : (g.finalized o).objects.length = g.objects.length := by
  simp [finalized, alter]

theorem finalized_self (h : o < g.objects.length) :
    (g.finalized o).at o = { g.at o with finalizer := false } := by
  change (g.alter o fun ob => { ob with finalizer := false }).at o = _
  rw [at_alter_self h]

theorem finalized_ne (h : a ≠ o) : (g.finalized o).at a = g.at a := by
  change (g.alter o fun ob => { ob with finalizer := false }).at a = _
  rw [at_alter_ne h]

end Gc

theorem finalizerRun_ran {g : Gc} {o : Addr} (h : Registered g)
    (hf : (g.at o).finalizer = true) (hb : (g.at o).colour ≠ .black) :
    ∃ g' rs, g.finalizerRun o = some g' ∧ Ran g g' rs ∧
      (g.finalizerHash = none ∨ (g'.at o).finalizer = false) ∧
      (g' = g ∨ g' = g.finalized o) := by
  have hlt : o < g.objects.length := by
    by_contra hge
    rw [Gc.at_ge (Nat.le_of_not_lt hge)] at hf
    cases hf
  unfold Gc.finalizerRun
  cases hh : g.finalizerHash with
  | none =>
    refine ⟨g, [], rfl, ⟨rfl, List.nodup_nil, ?_, ?_, ?_, fun _ _ => rfl⟩, .inl rfl, .inl rfl⟩
    · intro a ha
      cases ha
    · intro a ha
      cases ha
    · intro a ha
      cases ha
  | some t =>
    obtain ⟨e, he, hk⟩ := h t hh o hf
    have hany : (g.at t).value.entries.any (·.key = .pointer o) = true := by
      rw [List.any_eq_true]
      exact ⟨e, he, by simpa using hk⟩
    have hself : ((g.finalized o).at o).finalizer = false := by
      rw [Gc.finalized_self hlt]
    refine ⟨g.finalized o, [o], ?_, ⟨rfl, by simp, ?_, ?_, ?_, ?_⟩, .inr hself, .inr rfl⟩
    · simp only [hany, if_true]
    · intro a ha
      rw [List.mem_singleton.mp ha]
      exact hf
    · intro a ha
      rw [List.mem_singleton.mp ha]
      exact hb
    · intro a ha
      rw [List.mem_singleton.mp ha]
      exact hself
    · intro a ha
      have ha' : a ≠ o := by simpa using ha
      rw [Gc.finalized_ne ha']

theorem finalizerRun_keeps {g g' : Gc} {o : Addr} {rs : List Addr} (hr : Ran g g' rs)
    (h : g' = g ∨ g' = g.finalized o) :
    Shrunk g g' ∧ Steady g g' ∧ ∀ a, (g'.at a).value = (g.at a).value := by
  obtain rfl | rfl := h
  · refine ⟨.refl _, ?_, fun _ => rfl⟩
    exact ⟨rfl, rfl, fun _ => rfl, fun _ => rfl, fun _ => rfl, fun _ => rfl, fun _ _ h => h⟩
  · have steady : Steady g (g.alter o ({ · with finalizer := false })) :=
      Steady.alter rfl rfl rfl rfl fun _ h => h
    have look : ∀ {P : Object → Object → Prop},
        (∀ ob : Object, P ob ob) → (∀ ob : Object, P ob { ob with finalizer := false }) →
        ∀ a, P (g.at a) ((g.alter o ({ · with finalizer := false })).at a) := by
      intro P hrefl hset a
      refine Gc.at_alter (P (g.at a)) ?_ fun _ => hrefl _
      rintro - rfl
      exact hset _
    have value := look (P := fun ob ob' => ob'.value = ob.value) (fun _ => rfl) fun _ => rfl
    refine ⟨?_, ⟨steady.1, rfl, steady.3, steady.4, steady.5, steady.6, steady.7⟩, value⟩
    constructor
    · exact steady.size
    · rfl
    · exact fun a _ => value a
    · exact steady.present
    · exact look (P := fun ob ob' => ob'.value.isHash = ob.value.isHash) (fun _ => rfl) fun _ => rfl
    · exact look (P := fun ob ob' => ob'.sticky = ob.sticky) (fun _ => rfl) fun _ => rfl
    · exact look (P := fun ob ob' => ob'.free = ob.free) (fun _ => rfl) fun _ => rfl
    · intro a ha
      exact (steady.colour a).trans ha
    · intro a ha
      exact fun hw => ha ((steady.colour a).symm.trans hw)
    · exact look (P := fun ob ob' => ob'.value.size = ob.value.size) (fun _ => rfl) fun _ => rfl
    · intro a i e he
      rwa [← value a]
    · intro a i e he _
      exact (value a).symm ▸ he
    · intro a hc
      exact (value a).symm ▸ hc
    · exact ⟨rs, hr⟩

/-! ## An entry is dropped -/

section

variable {g : Gc} {o k : Addr} {i : Nat} {kept hen : List Entry} {he : Entry}

theorem at_unlink (P : Object → Object → Prop) (hrefl : ∀ ob, P ob ob)
    (hset : P (g.at o) { g.at o with value := (g.at o).value.unlink i kept }) (a : Addr) :
    P (g.at a) ((g.unlink o i kept).at a) := by
  refine Gc.at_alter (P (g.at a)) ?_ fun _ => hrefl _
  rintro - rfl
  exact hset

theorem unlink_steady (hc : (g.at o).value.chain i = kept ++ he :: hen) :
    Steady g (g.unlink o i (kept ++ hen)) :=
  Steady.alter Value.isNone_unlink Value.shading_unlink rfl rfl fun _ => Value.fields_unlink hc

theorem unlink_shrunk (ho : o ∈ g.weak) (hi : i < (g.at o).value.size)
    (hc : (g.at o).value.chain i = kept ++ he :: hen) (hk : he.key = .pointer k)
    (hb : (g.at k).colour ≠ .black) : Shrunk g (g.unlink o i (kept ++ hen)) := by
  have steady := unlink_steady hc
  constructor
  · exact steady.size
  · rfl
  · intro a ha
    have hne : a ≠ o := by
      rintro rfl
      exact ha ho
    exact congrArg Object.value (Gc.at_alter_ne hne)
  · exact steady.present
  · exact at_unlink (fun ob ob' => ob'.value.isHash = ob.value.isHash) (fun _ => rfl)
      Value.isHash_unlink
  · exact at_unlink (fun ob ob' => ob'.sticky = ob.sticky) (fun _ => rfl) rfl
  · exact at_unlink (fun ob ob' => ob'.free = ob.free) (fun _ => rfl) rfl
  · intro a ha
    exact (steady.colour a).trans ha
  · intro a ha hw
    exact ha ((steady.colour a).symm.trans hw)
  · exact at_unlink (fun ob ob' => ob'.value.size = ob.value.size) (fun _ => rfl) Value.size_unlink
  · refine at_unlink (fun ob ob' => ∀ j e, e ∈ ob'.value.chain j → e ∈ ob.value.chain j)
      (fun _ _ _ h => h) ?_
    intro j e he'
    obtain rfl | hj := eq_or_ne j i
    · rw [Value.chain_unlink_self hi] at he'
      rw [hc]
      obtain he' | he' := List.mem_append.mp he'
      · exact List.mem_append_left _ he'
      · exact List.mem_append_right _ (List.mem_cons_of_mem _ he')
    · rwa [Value.chain_unlink_ne hj] at he'
  · refine at_unlink (fun ob ob' => ∀ j e, e ∈ ob.value.chain j →
      (∀ k, e.key = .pointer k → (g.at k).colour = .black) → e ∈ ob'.value.chain j)
      (fun _ _ _ h _ => h) ?_
    intro j e he' hblack
    obtain rfl | hj := eq_or_ne j i
    · rw [Value.chain_unlink_self hi]
      rw [hc] at he'
      obtain he' | he' := List.mem_append.mp he'
      · exact List.mem_append_left _ he'
      · obtain rfl | he' := List.mem_cons.mp he'
        · exact absurd (hblack k hk) hb
        · exact List.mem_append_right _ he'
    · rwa [Value.chain_unlink_ne hj]
  · refine at_unlink (fun ob ob' => ob.value.Counted → ob'.value.Counted) (fun _ h => h) ?_
    exact Value.counted_unlink hi hc
  · refine ⟨[], rfl, List.nodup_nil, ?_, ?_, ?_, ?_⟩
    · intro a ha
      cases ha
    · intro a ha
      cases ha
    · intro a ha
      cases ha
    · intro a _
      exact at_unlink (fun ob ob' => ob'.finalizer = ob.finalizer) (fun _ => rfl) rfl a

/-- The objects that have finalizers stay in their table, as the key of the entry has none. -/
theorem unlink_registered (h : Registered g) (hi : i < (g.at o).value.size)
    (hc : (g.at o).value.chain i = kept ++ he :: hen) (hk : he.key = .pointer k)
    (hf : g.finalizerHash = none ∨ (g.at k).finalizer = false) :
    Registered (g.unlink o i (kept ++ hen)) := by
  intro t ht a ha
  have ha' : (g.at a).finalizer = true := by
    have same : ((g.unlink o i (kept ++ hen)).at a).finalizer = (g.at a).finalizer :=
      at_unlink (fun ob ob' => ob'.finalizer = ob.finalizer) (fun _ => rfl) rfl a
    rwa [same] at ha
  have hka : k ≠ a := by
    rintro rfl
    obtain hf | hf := hf
    · have hn : g.finalizerHash = some t := ht
      rw [hf] at hn
      cases hn
    · rw [hf] at ha'
      cases ha'
  obtain ⟨e, he', hea⟩ := h t ht a ha'
  refine ⟨e, ?_, hea⟩
  refine at_unlink (fun ob ob' => e ∈ ob.value.entries → e ∈ ob'.value.entries)
    (fun _ h => h) ?_ t he'
  intro hm
  obtain ⟨j, hj⟩ := Value.mem_entries.mp hm
  refine Value.mem_entries.mpr ⟨j, ?_⟩
  obtain rfl | hji := eq_or_ne j i
  · rw [Value.chain_unlink_self hi]
    rw [hc] at hj
    obtain hj | hj := List.mem_append.mp hj
    · exact List.mem_append_left _ hj
    · obtain rfl | hj := List.mem_cons.mp hj
      · rw [hk] at hea
        cases hea
        exact absurd rfl hka
      · exact List.mem_append_right _ hj
  · rwa [Value.chain_unlink_ne hji]

end

namespace Weakly

variable {g₀ g : Gc} {n : Nat} {o : Addr}

/-- An entry whose key is not black is dropped, after the key's finalizer has been run. -/
theorem ditch (h : Weakly g₀ g) (ho : o ∈ g₀.weak) {i : Nat} (hi : i < (g.at o).value.size)
    {kept hen : List Entry} {he : Entry} (hc : (g.at o).value.chain i = kept ++ he :: hen)
    {k : Addr} (hk : he.key = .pointer k) (hb : (g.at k).colour ≠ .black) :
    ∃ g₁, (if (g.at k).finalizer then g.finalizerRun k else some g) = some g₁ ∧
      Weakly g₀ (g₁.unlink o i (kept ++ hen)) ∧ Shrunk g (g₁.unlink o i (kept ++ hen)) ∧
      (g₁.at o).value = (g.at o).value := by
  obtain ⟨g₁, hrun, hs₁, hst₁, hval, hreg₁, hf₁⟩ : ∃ g₁,
      (if (g.at k).finalizer then g.finalizerRun k else some g) = some g₁ ∧ Shrunk g g₁ ∧
      Steady g g₁ ∧ (∀ a, (g₁.at a).value = (g.at a).value) ∧ Registered g₁ ∧
      (g₁.finalizerHash = none ∨ (g₁.at k).finalizer = false) := by
    cases hfin : (g.at k).finalizer with
    | false =>
      refine ⟨g, rfl, .refl g, ?_, fun _ => rfl, h.registered, .inr hfin⟩
      exact ⟨rfl, rfl, fun _ => rfl, fun _ => rfl, fun _ => rfl, fun _ => rfl, fun _ _ h => h⟩
    | true =>
      obtain ⟨g₁, rs, hrun, hran, hgone, heq⟩ := finalizerRun_ran h.registered hfin hb
      obtain ⟨hs₁, hst₁, hval⟩ := finalizerRun_keeps hran heq
      refine ⟨g₁, hrun, hs₁, hst₁, hval, ?_, ?_⟩
      · intro t ht a ha
        rw [hs₁.finalizerHash] at ht
        have ha' : (g.at a).finalizer = true := by
          obtain har | har := Classical.em (a ∈ rs)
          · exact hran.had a har
          · rwa [hran.other a har] at ha
        obtain ⟨e, he, hek⟩ := h.registered t ht a ha'
        refine ⟨e, ?_, hek⟩
        rwa [hval t]
      · rw [hs₁.finalizerHash]
        exact hgone
  have hi₁ : i < (g₁.at o).value.size := by rwa [hval o]
  have hc₁ : (g₁.at o).value.chain i = kept ++ he :: hen := by rwa [hval o]
  have hb₁ : (g₁.at k).colour ≠ .black := by rwa [hst₁.colour k]
  have ho₁ : o ∈ g₁.weak := by
    rw [hs₁.weak, h.shrunk.weak]
    exact ho
  have hs₂ := unlink_shrunk ho₁ hi₁ hc₁ hk hb₁
  have hw₁ : Weakly g₀ g₁ := h.again hs₁ hreg₁ (h.marks.steady hst₁)
  refine ⟨g₁, hrun, ?_, hs₁.trans hs₂, hval o⟩
  exact hw₁.again hs₂ (unlink_registered hreg₁ hi₁ hc₁ hk hf₁)
    (hw₁.marks.steady (unlink_steady hc₁))

/-- The second pass along a chain. -/
theorem ditchChain (hn : g₀.objects.length < n) (ho : o ∈ g₀.weak) {i : Nat} :
    ∀ (hen kept : List Entry) {g : Gc}, Weakly g₀ g → i < (g.at o).value.size →
      (g.at o).value.chain i = kept ++ hen →
      ∃ g' stay, Gc.ditchChain n o i kept hen g = some g' ∧ Weakly g₀ g' ∧ Shrunk g g' ∧
        (g'.at o).value.chain i = kept ++ stay ∧ ∀ e ∈ stay, Held g' e := by
  intro hen
  induction hen with
  | nil =>
    intro kept g h _ hc
    exact ⟨g, [], rfl, h, .refl g, hc, fun e he => by cases he⟩
  | cons he hen ih =>
    intro kept g h hi hc
    have hmem : he ∈ (g.at o).value.entries :=
      Value.mem_entries.mpr ⟨i, by rw [hc]; simp⟩
    have stays : (∀ k, he.key ≠ .pointer k) →
        ∃ g' stay, Gc.ditchChain n o i (kept ++ [he]) hen g = some g' ∧ Weakly g₀ g' ∧ Shrunk g g' ∧
          (g'.at o).value.chain i = kept ++ stay ∧ ∀ e ∈ stay, Held g' e := by
      intro hkey
      obtain ⟨g', stay, hg', hw, hs, hch, hheld⟩ := ih (kept ++ [he]) h hi (by simpa using hc)
      refine ⟨g', he :: stay, hg', hw, hs, by simpa using hch, ?_⟩
      intro e hem
      obtain rfl | hem := List.mem_cons.mp hem
      · exact fun k hk => absurd hk (hkey k)
      · exact hheld e hem
    unfold Gc.ditchChain
    cases hk : he.key with
    | fixnum x => exact stays fun k h' => by rw [hk] at h'; cases h'
    | constant x => exact stays fun k h' => by rw [hk] at h'; cases h'
    | placeholder x => exact stays fun k h' => by rw [hk] at h'; cases h'
    | pointer k =>
      by_cases hb : (g.at k).colour = .black
      · obtain ⟨g₁, hg₁, hw₁, hr₁, hv₁⟩ := h.markValue hn ho hmem hk hb
        have hval := hr₁.value o
        obtain ⟨g', stay, hg', hw, hs, hch, hheld⟩ :=
          ih (kept ++ [he]) hw₁ (by rwa [hval]) (by rw [hval]; simpa using hc)
        refine ⟨g', he :: stay, ?_, hw, hr₁.shrunk.trans hs, by simpa using hch, ?_⟩
        · simp [hb, hg₁, hg']
        intro e hem
        obtain rfl | hem := List.mem_cons.mp hem
        · intro k' hk'
          rw [hk] at hk'
          cases hk'
          refine ⟨hs.black k (hr₁.black k hb), ?_⟩
          intro v hv hp
          refine hs.marked v (hv₁ v hv ?_)
          have := hs.present v
          rw [hr₁.value v] at this
          have hp' : (g.at v).value.isNone = false := by
            rw [← this]
            exact hp
          exact (h.marks.present v).mp hp'
        · exact hheld e hem
      · obtain ⟨g₁, hrun, hw₁, hs₁, hval⟩ := h.ditch ho hi hc hk hb
        have hi₁ : i < (g₁.at o).value.size := by rwa [hval]
        have hlt : o < g₁.objects.length := by
          by_contra hge
          rw [Gc.at_ge (Nat.le_of_not_lt hge)] at hi₁
          cases hi₁
        have hself : ((g₁.unlink o i (kept ++ hen)).at o).value =
            (g₁.at o).value.unlink i (kept ++ hen) := by
          unfold Gc.unlink
          rw [Gc.at_alter_self hlt]
        obtain ⟨g', stay, hg', hw, hs, hch, hheld⟩ := ih kept hw₁
          (by rw [hself, Value.size_unlink]; exact hi₁)
          (by rw [hself, Value.chain_unlink_self hi₁])
        refine ⟨g', stay, ?_, hw, hs₁.trans hs, hch, hheld⟩
        simp only [hb, if_false, hrun]
        exact hg'

/-- The second pass over a table: what is left of its entries stays. -/
theorem ditchTable (h : Weakly g₀ g) (hn : g₀.objects.length < n) (ho : o ∈ g₀.weak) :
    ∃ g', g.ditchTable n o = some g' ∧ Weakly g₀ g' ∧ Shrunk g g' ∧
      ∀ e ∈ (g'.at o).value.entries, Held g' e := by
  have hhash := h.hashes o ho
  unfold Gc.ditchTable
  cases hv : (g.at o).value with
  | hash sk ha count comp fn =>
    obtain ⟨g', hg', hw, hs, hq⟩ := Folding.foldlM_some
      (f := fun g i => Gc.ditchChain n o i [] ((g.at o).value.chain i) g)
      (P := Weakly g₀) (R := Shrunk)
      (Q := fun i g => ∀ e ∈ (g.at o).value.chain i, Held g e) Shrunk.refl (fun _ _ _ => .trans)
      (fun i s t hq hs e he => (hq e (hs.sub o i e he)).mono hs) (List.range ha.length) g h
      (fun i hi t ht hw => by
        have hsize : i < (t.at o).value.size := by
          rw [ht.sizes o, hv]
          exact List.mem_range.mp hi
        obtain ⟨g', stay, hg', hw', hs', hch, hheld⟩ :=
          ditchChain hn ho ((t.at o).value.chain i) [] hw hsize rfl
        refine ⟨g', hg', hw', hs', ?_⟩
        intro e he
        rw [hch] at he
        exact hheld e he)
    refine ⟨g', hg', hw, hs, ?_⟩
    intro e he
    obtain ⟨i, hi⟩ := Value.mem_entries.mp he
    obtain hlt | hge := Nat.lt_or_ge i ha.length
    · exact hq i (List.mem_range.mpr hlt) e hi
    · have := hs.sub o i e hi
      rw [hv] at this
      unfold Value.chain at this
      simp [hge] at this
  | _ =>
    rw [hv] at hhash
    cases hhash

/-- The weak tables have been gone over, and the grey list is empty again. -/
theorem markWeak (h : Weakly g₀ g) (hn : g₀.objects.length < n) :
    ∃ g₁ g', g.markWeak n = some g' ∧ Weakly g₀ g₁ ∧ Repainted g g₁ ∧
      (∀ o ∈ g₀.weak, ∀ e ∈ (g.at o).value.entries, Followed g₀ g e g₁) ∧ g₁.grey = none ∧
      Weakly g₀ g' ∧ Shrunk g₁ g' ∧ g'.grey = none ∧
      ∀ o ∈ g₀.weak, ∀ e ∈ (g'.at o).value.entries, Held g' e := by
  obtain ⟨g₁, hg₁, hw₁, hr₁, hnone₁, hq₁⟩ := h.passOne hn
  obtain ⟨g₂, hg₂, hw₂, hs₂, hq₂⟩ := Folding.foldlM_some (f := Gc.ditchTable n) (P := Weakly g₀)
    (R := Shrunk) (Q := fun o g => ∀ e ∈ (g.at o).value.entries, Held g e) Shrunk.refl
    (fun _ _ _ => .trans) (fun o s t hq hs e he => (hq e (hs.entries he)).mono hs) g₀.weak g₁ hw₁
    (fun o ho t _ hw => hw.ditchTable hn ho)
  obtain ⟨g', hg', hw', hr', hnone⟩ := hw₂.drain hn
  refine ⟨g₁, g', ?_, hw₁, hr₁, hq₁, hnone₁, hw', hs₂.trans hr'.shrunk, hnone, ?_⟩
  · unfold Gc.markWeak
    rw [hg₁]
    simp only [bind, Option.bind, hw₁.shrunk.weak, hg₂]
    exact hg'
  · intro o ho e he
    exact (hq₂ o ho e (hr'.shrunk.entries he)).mono hr'.shrunk

end Weakly

end Idio.Collector
