/-
  Gc/Passes.lean --- the values of weak tables as places that marking begins with.

  `Live` is the liveness that weak tables ask for: an object is live when marking may begin with
  it, when a live object refers to it, and when it is the value of an entry whose key is live.
  What the collector marks is live, and it is reached from the roots and from the values of the
  entries that the tables keep.  The converse fails, as the second pass does not follow what it
  marks before it drops entries.
-/
import Idio.Gc.Weak

set_option autoImplicit false

namespace Idio.Collector

open Marking (Reached TriColour)

/-! ## Liveness -/

/-- The objects that are live when marking begins with `g`. -/
inductive Live (g : Gc) : Addr → Prop
  | root {n : Addr} : g.Root n → Live g n
  | field {m n : Addr} : Live g m → Refers g g m n → Live g n
  | value {o k v : Addr} {e : Entry} : o ∈ g.weak → e ∈ (g.at o).value.entries →
      e.key = .pointer k → Live g k → e.value = .pointer v → g.Present v → Live g v
  | before {o k v : Addr} {e : Entry} : o ∈ g.weak → e ∈ (g.at o).value.entries →
      e.key = .pointer k → (g.at k).colour ≠ .white → e.value = .pointer v → g.Present v →
      Live g v

/-- The value of an entry of a weak table, where the key is black and the value is marked. -/
def Valued (g₀ g : Gc) (v : Addr) : Prop :=
  ∃ o ∈ g₀.weak, ∃ e ∈ (g.at o).value.entries, ∃ k, e.key = .pointer k ∧
    (g.at k).colour = .black ∧ e.value = .pointer v ∧ g₀.Present v ∧ (g.at v).colour ≠ .white

/-- What marking has begun with so far. -/
def Source (g₀ g : Gc) (n : Addr) : Prop := g₀.Root n ∨ Valued g₀ g n

/-- What may be marked. -/
def Found (g₀ g : Gc) (n : Addr) : Prop :=
  Live g₀ n ∧ Reached (Refers g₀ g₀) (Source g₀ g) n

/-- Every object with a finalizer is in the table of finalizers. -/
def Registered (g : Gc) : Prop :=
  ∀ h, g.finalizerHash = some h → ∀ a, (g.at a).finalizer = true →
    ∃ e ∈ (g.at h).value.entries, e.key = .pointer a

/-- Marking that began with `g₀` has come to `g`, weak tables included. -/
structure Weakly (g₀ g : Gc) : Prop where
  marks : Marks g₀ (Source g₀ g) (Found g₀ g) g []
  shrunk : Shrunk g₀ g
  registered : Registered g
  hashes : ∀ o ∈ g₀.weak, (g.at o).value.isHash = true

theorem Found.follow {g₀ g : Gc} (m n : Addr) (h : Found g₀ g m) (hr : Refers g₀ g₀ m n) :
    Found g₀ g n := ⟨.field h.1 hr, h.2.tail hr⟩

namespace Weakly

variable {g₀ g g' : Gc}

theorem valued_mono (hs : Shrunk g g') {v : Addr} (h : Valued g₀ g v) : Valued g₀ g' v := by
  obtain ⟨o, ho, e, he, k, hk, hb, hv, hp, hm⟩ := h
  refine ⟨o, ho, e, hs.kept he ?_, k, hk, hs.black k hb, hv, hp, hs.marked v hm⟩
  intro k' hk'
  rw [hk] at hk'
  cases hk'
  exact hb

theorem source_mono (hs : Shrunk g g') {n : Addr} (h : Source g₀ g n) : Source g₀ g' n :=
  h.imp_right (valued_mono hs)

theorem found_mono (hs : Shrunk g g') {n : Addr} (h : Found g₀ g n) : Found g₀ g' n :=
  ⟨h.1, h.2.mono (fun _ _ h => h) fun _ => source_mono hs⟩

/-- A key that is black is live, or was black before. -/
theorem live (h : Weakly g₀ g) {k : Addr} (hk : (g.at k).colour = .black) :
    Live g₀ k ∨ (g₀.at k).colour ≠ .white := by
  obtain hw | hf := h.marks.three.sound k (h.marks.three.done k hk)
  · exact .inr hw
  · exact .inl hf.1

theorem registered_repainted (h : Registered g) (hr : Repainted g g') : Registered g' := by
  intro f hf a ha
  rw [hr.rest] at hf
  rw [hr.finalizer a] at ha
  obtain ⟨e, he, hk⟩ := h f hf a ha
  refine ⟨e, ?_, hk⟩
  rwa [hr.value f]

/-- The heap has changed, and nothing more is to be marked at once. -/
theorem next (h : Weakly g₀ g) (hr : Shrunk g g') (hg : Registered g') {source found : Addr → Prop}
    (hm : Marks g₀ source found g' [])
    (hs : ∀ n, Source g₀ g' n → source n ∨ (g'.at n).colour ≠ .white)
    (hf : ∀ n, found n → Found g₀ g' n) : Weakly g₀ g' where
  marks := {
    hm with
    follow := Found.follow
    three := by
      refine hm.three.ask ?_ hf (fun _ h => h) ?_
      · intro n hn
        exact (hs n hn).imp_right .inl
      · intro n hn
        exact absurd hn.1 (by simp) }
  shrunk := h.shrunk.trans hr
  registered := hg
  hashes o ho := by
    rw [hr.isHash o]
    exact h.hashes o ho

/-- No more is asked of what marking begins with, as the values of weak tables are marked. -/
theorem again (h : Weakly g₀ g) (hr : Shrunk g g') (hg : Registered g')
    (hm : Marks g₀ (Source g₀ g) (Found g₀ g) g' []) : Weakly g₀ g' := by
  refine h.next hr hg hm ?_ fun n => found_mono hr
  rintro n (hn | ⟨_, _, _, _, _, _, _, _, _, hn⟩)
  · exact .inl (.inl hn)
  · exact .inr hn

/-- The grey list is emptied. -/
theorem drain (h : Weakly g₀ g) {n : Nat} (hn : g₀.objects.length < n) :
    ∃ g', g.drain n n = some g' ∧ Weakly g₀ g' ∧ Repainted g g' ∧ g'.grey = none := by
  have hlen : g.objects.length < n := by
    rw [h.marks.size]
    exact hn
  obtain ⟨g', hg', hm', hr', hnone⟩ := Gc.drain_marks n h.marks
    (Nat.lt_of_le_of_lt (g.count_le _) hlen) (Nat.le_trans (g.count_le _) (Nat.le_of_lt hlen))
  exact ⟨g', hg', h.again hr'.shrunk (registered_repainted h.registered hr') hm', hr', hnone⟩

/-- The value of an entry whose key is black is marked. -/
theorem markValue (h : Weakly g₀ g) {n : Nat} (hn : g₀.objects.length < n) {o k : Addr} {e : Entry}
    (ho : o ∈ g₀.weak) (he : e ∈ (g.at o).value.entries) (hk : e.key = .pointer k)
    (hb : (g.at k).colour = .black) :
    ∃ g', g.gccMark n e.value = some g' ∧ Weakly g₀ g' ∧ Repainted g g' ∧
      ∀ v, e.value = .pointer v → g₀.Present v → (g'.at v).colour ≠ .white := by
  have hlive : ∀ v, e.value = .pointer v → g₀.Present v → Live g₀ v := by
    intro v hv hp
    have he₀ := h.shrunk.entries he
    obtain hl | hw := h.live hb
    · exact .value ho he₀ hk hl hv hp
    · exact .before ho he₀ hk hw hv hp
  have asked : Marks g₀ (fun n => Source g₀ g n ∨ (e.value = .pointer n ∧ g₀.Present n))
      (fun n => Live g₀ n ∧ Reached (Refers g₀ g₀)
        (fun n => Source g₀ g n ∨ (e.value = .pointer n ∧ g₀.Present n)) n) g [e.value] := {
    h.marks with
    follow := fun m n hf hr => ⟨.field hf.1 hr, hf.2.tail hr⟩
    three := by
      refine h.marks.three.ask ?_ ?_ ?_ ?_
      · rintro n (hn | ⟨hv, hp⟩)
        · exact .inl hn
        · exact .inr (.inr ⟨by simp [hv], hp⟩)
      · rintro n ⟨hl, hr⟩
        exact ⟨hl, hr.mono (fun _ _ h => h) fun _ => .inl⟩
      · intro n hn
        exact absurd hn.1 (by simp)
      · rintro n ⟨hv, hp⟩
        have hv' : e.value = .pointer n := (List.mem_singleton.mp hv).symm
        exact ⟨hlive n hv' hp, .of_source (.inr ⟨hv', hp⟩)⟩ }
  have hlen : g.objects.length < n := by
    rw [h.marks.size]
    exact hn
  obtain ⟨g', hg', hm', hr'⟩ := Gc.gccMark_marks n asked (Nat.lt_of_le_of_lt (g.count_le _) hlen)
  have marked : ∀ v, e.value = .pointer v → g₀.Present v → (g'.at v).colour ≠ .white := by
    intro v hv hp
    exact (hm'.three.begun v (.inr ⟨hv, hp⟩)).resolve_right (by simp)
  refine ⟨g', hg', ?_, hr', marked⟩
  refine h.next hr'.shrunk (registered_repainted h.registered hr') hm' ?_ ?_
  · rintro n (hn | ⟨_, _, _, _, _, _, _, _, _, hn⟩)
    · exact .inl (.inl (.inl hn))
    · exact .inr hn
  · rintro n ⟨hl, hr⟩
    refine ⟨hl, hr.mono (fun _ _ h => h) ?_⟩
    rintro s (hs | ⟨hv, hp⟩)
    · exact source_mono hr'.shrunk hs
    · refine .inr ⟨o, ho, e, ?_, k, hk, hr'.black k hb, hv, hp, marked s hv hp⟩
      rwa [hr'.value o]

end Weakly

/-! ## The first pass -/

/-- If the key of an entry was black in `g₁`, its value is marked. -/
def Followed (g₀ g₁ : Gc) (e : Entry) (g : Gc) : Prop :=
  ∀ k v, e.key = .pointer k → (g₁.at k).colour = .black → e.value = .pointer v → g₀.Present v →
    (g.at v).colour ≠ .white

namespace Weakly

variable {g₀ g₁ g : Gc} {n : Nat}

theorem markEntry (h : Weakly g₀ g) (h₁ : Repainted g₁ g) (hn : g₀.objects.length < n) {o : Addr}
    {e : Entry} (ho : o ∈ g₀.weak) (he : e ∈ (g.at o).value.entries) (m : Nat) :
    ∃ s, Gc.markEntry n (g, m) e = some s ∧ Weakly g₀ s.1 ∧ Repainted g s.1 ∧
      Followed g₀ g₁ e s.1 := by
  have skip : (∀ k, e.key = .pointer k → (g.at k).colour ≠ .black) →
      Followed g₀ g₁ e g := by
    intro hskip k v hk hb _ _
    exact absurd (h₁.black k hb) (hskip k hk)
  unfold Gc.markEntry
  cases hk : e.key with
  | pointer k =>
    by_cases hb : (g.at k).colour = .black
    · obtain ⟨g', hg', hw', hr', hv'⟩ := h.markValue hn ho he hk hb
      refine ⟨(g', m + 1), ?_, hw', hr', fun _ v _ _ => hv' v⟩
      simp [hb, hg']
    · refine ⟨(g, m), ?_, h, .refl g, skip ?_⟩
      · simp [hb]
      · intro k' hk'
        rw [hk] at hk'
        cases hk'
        exact hb
  | _ =>
    refine ⟨(g, m), rfl, h, .refl g, skip ?_⟩
    intro k' hk'
    rw [hk] at hk'
    cases hk'

theorem markTable (h : Weakly g₀ g) (h₁ : Repainted g₁ g) (hn : g₀.objects.length < n) {o : Addr}
    (ho : o ∈ g₀.weak) (m : Nat) :
    ∃ s, Gc.markTable n (g, m) o = some s ∧ Weakly g₀ s.1 ∧ Repainted g s.1 ∧
      ∀ e ∈ (g₁.at o).value.entries, Followed g₀ g₁ e s.1 := by
  have hhash := h.hashes o ho
  unfold Gc.markTable
  cases hv : (g.at o).value with
  | hash sk ha count comp fn =>
    have hentries : (g₁.at o).value.entries = ha.flatten := by
      rw [← h₁.value o, hv]
      rfl
    rw [hentries]
    obtain ⟨s, hs, hw, hr, hq⟩ := Folding.foldlM_some (f := Gc.markEntry n)
      (P := fun s => Weakly g₀ s.1) (R := fun s t => Repainted s.1 t.1)
      (Q := fun e s => Followed g₀ g₁ e s.1) (fun s => .refl s.1) (fun _ _ _ => .trans)
      (fun e s t hq hr k v hk hb hv hp => hr.marked v (hq k v hk hb hv hp)) ha.flatten (g, m) h
      (fun e he t ht hw => by
        refine hw.markEntry (h₁.trans ht) hn ho ?_ t.2
        rw [ht.value o, hv]
        exact he)
    exact ⟨s, hs, hw, hr, hq⟩
  | _ =>
    rw [hv] at hhash
    cases hhash

/-- The first pass: the values of the entries whose keys were black are marked. -/
theorem passOne (h : Weakly g₀ g) (hn : g₀.objects.length < n) :
    ∃ g', Gc.passOne 2 n g g.weak = some g' ∧ Weakly g₀ g' ∧ Repainted g g' ∧ g'.grey = none ∧
      ∀ o ∈ g₀.weak, ∀ e ∈ (g.at o).value.entries, Followed g₀ g e g' := by
  obtain ⟨s, hs, hw, hr, hq⟩ := Folding.foldlM_some (f := Gc.markTable n)
    (P := fun s => Weakly g₀ s.1) (R := fun s t => Repainted s.1 t.1)
    (Q := fun o s => ∀ e ∈ (g.at o).value.entries, Followed g₀ g e s.1) (fun s => .refl s.1)
    (fun _ _ _ => .trans)
    (fun o s t hq hr e he k v hk hb hv hp => hr.marked v (hq e he k v hk hb hv hp)) g₀.weak (g, 0) h
    (fun o ho t ht hw => hw.markTable ht hn ho t.2)
  obtain ⟨g', hg', hw', hr', hnone⟩ := hw.drain hn
  refine ⟨g', ?_, hw', hr.trans hr', hnone, ?_⟩
  · -- The list of tables is not begun again: a second round has nothing to do.
    have again : g'.drain n n = some g' := by
      cases n <;> simp [Gc.drain, hnone]
    obtain ⟨g₁, m⟩ := s
    unfold Gc.passOne
    rw [h.shrunk.weak, hs]
    simp only [bind, Option.bind, hg']
    split
    · rfl
    · unfold Gc.passOne
      simp [again]
  · intro o ho e he k v hk hb hv hp
    exact hr'.marked v (hq o ho e he k v hk hb hv hp)

end Weakly

end Idio.Collector
