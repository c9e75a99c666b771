/-
  Gc/Mark.lean --- the grey list, and what marking one object after another comes to.

  While the collector marks, the light grey objects are those on the grey list, each once, and
  all of them are of a type that `idio_gc_process_grey` knows.  With that the three colours keep
  the invariant of `Lib/Marking.lean`: what has been marked was found, and all that a black object
  refers to is marked.

  No object is marked twice, so marking comes to an end: it goes no deeper than there are white
  objects, and there are no more steps of the grey list than objects that are not black.
-/
import Idio.Gc.Heap
import Idio.Lib.Marking

set_option autoImplicit false

namespace Idio.Collector

open Marking (TriColour)

/-! ## Objects that change -/

namespace Gc

variable {g : Gc} {a b : Addr} {f : Object → Object} {c : Colour}

@[simp] theorem length_alter : (g.alter a f).objects.length = g.objects.length := by
  simp [alter]

@[simp] theorem length_paint : (g.paint a c).objects.length = g.objects.length := length_alter

@[simp] theorem length_setGrey {o : Option Addr} :
    (g.setGrey o).objects.length = g.objects.length := rfl

@[simp] theorem at_setGrey {o : Option Addr} : (g.setGrey o).at a = g.at a := rfl

@[simp] theorem length_push : (g.push a).objects.length = g.objects.length := by
  simp [push]

theorem at_alter_ne (h : b ≠ a) : (g.alter a f).at b = g.at b := by
  unfold alter Gc.at
  simp only [List.getD_eq_getElem?_getD]
  rw [List.getElem?_set_ne h.symm]

theorem at_alter_self (h : a < g.objects.length) : (g.alter a f).at a = f (g.at a) := by
  simp [alter, Gc.at, h]

theorem at_ge (h : g.objects.length ≤ a) : g.at a = {} := by
  simp [Gc.at, h]

/-- What is at an address when only `alter` can have changed it. -/
theorem at_alter (P : Object → Prop) (hs : a < g.objects.length → b = a → P (f (g.at a)))
    (hn : b ≠ a ∨ g.objects.length ≤ a → P (g.at b)) : P ((g.alter a f).at b) := by
  obtain rfl | hb := eq_or_ne b a
  · obtain h | h := Nat.lt_or_ge b g.objects.length
    · rw [at_alter_self h]
      exact hs h rfl
    · have := hn (.inr h)
      rw [at_ge h] at this
      rw [at_ge (by simpa using h)]
      exact this
  · rw [at_alter_ne hb]
    exact hn (.inl hb)

/-- There is an object at the address. -/
def Present (g : Gc) (a : Addr) : Prop := (g.at a).value.isNone = false

theorem Present.lt (h : g.Present a) : a < g.objects.length := by
  by_contra hge
  unfold Present at h
  rw [at_ge (Nat.le_of_not_lt hge)] at h
  cases h

theorem paint_self (h : g.Present a) : (g.paint a c).at a = { g.at a with colour := c } :=
  at_alter_self h.lt

theorem paint_ne (h : b ≠ a) : (g.paint a c).at b = g.at b := at_alter_ne h

theorem push_self (h : g.Present a) :
    (g.push a).at a = { g.at a with colour := .lgrey, grey := g.grey } := by
  rw [push, at_setGrey, at_alter_self h.lt]

theorem push_ne (h : b ≠ a) : (g.push a).at b = g.at b := by
  rw [push, at_setGrey, at_alter_ne h]

/-- How many objects have a colour of a kind. -/
def count (g : Gc) (p : Colour → Bool) : Nat := g.objects.countP fun ob => p ob.colour

theorem count_setGrey {o : Option Addr} {p : Colour → Bool} : (g.setGrey o).count p = g.count p :=
  rfl

theorem count_le (g : Gc) (p : Colour → Bool) : g.count p ≤ g.objects.length :=
  List.countP_le_length

theorem count_alter_lt {p : Colour → Bool} (h : a < g.objects.length)
    (hp : p (g.at a).colour = true) (hf : p (f (g.at a)).colour = false) :
    (g.alter a f).count p < g.count p := by
  have hat : g.objects[a] = g.at a := by simp [Gc.at, h]
  have hpos : 0 < g.objects.countP fun ob => p ob.colour := by
    refine List.countP_pos_iff.mpr ⟨g.objects[a], List.getElem_mem h, ?_⟩
    rw [hat]
    exact hp
  unfold count alter
  simp only [List.countP_set h, hat, hp, hf]
  simp only [if_true, Bool.false_eq_true, if_false]
  omega

theorem count_alter_le {p : Colour → Bool}
    (hf : p (f (g.at a)).colour = true → p (g.at a).colour = true) :
    (g.alter a f).count p ≤ g.count p := by
  unfold count alter
  obtain h | h := Nat.lt_or_ge a g.objects.length
  · have hat : g.objects[a] = g.at a := by simp [Gc.at, h]
    have hpos : p (g.at a).colour = true → 0 < g.objects.countP fun ob => p ob.colour := by
      intro hp
      refine List.countP_pos_iff.mpr ⟨g.objects[a], List.getElem_mem h, ?_⟩
      rw [hat]
      exact hp
    simp only [List.countP_set h, hat]
    split
    · split
      · have := hpos (by assumption)
        omega
      · omega
    · split
      · exact absurd (hf (by assumption)) (by assumption)
      · omega
  · simp [List.set_eq_of_length_le h]

end Gc

/-! ## What marking leaves alone -/

/-- The collector as it was, but for colours that have become darker and the grey list. -/
structure Repainted (g g' : Gc) : Prop where
  size : g'.objects.length = g.objects.length
  same : ∀ a, g'.at a = { g.at a with colour := (g'.at a).colour, grey := (g'.at a).grey }
  rest : g' = { g with objects := g'.objects, grey := g'.grey }
  black : ∀ a, (g.at a).colour = .black → (g'.at a).colour = .black
  marked : ∀ a, (g.at a).colour ≠ .white → (g'.at a).colour ≠ .white
  whites : g'.count (· == .white) ≤ g.count (· == .white)
  lights : g'.count (· != .black) ≤ g.count (· != .black)

namespace Repainted

variable {g g' g'' : Gc} {a : Addr}

theorem refl (g : Gc) : Repainted g g where
  size := rfl
  same _ := rfl
  rest := rfl
  black _ h := h
  marked _ h := h
  whites := Nat.le_refl _
  lights := Nat.le_refl _

theorem value (h : Repainted g g') (a : Addr) : (g'.at a).value = (g.at a).value := by
  rw [h.same a]

theorem sticky (h : Repainted g g') (a : Addr) : (g'.at a).sticky = (g.at a).sticky := by
  rw [h.same a]

theorem finalizer (h : Repainted g g') (a : Addr) : (g'.at a).finalizer = (g.at a).finalizer := by
  rw [h.same a]

theorem free (h : Repainted g g') (a : Addr) : (g'.at a).free = (g.at a).free := by
  rw [h.same a]

theorem trans (h : Repainted g g') (h' : Repainted g' g'') : Repainted g g'' := by
  constructor
  · rw [h'.size, h.size]
  · intro a
    rw [h'.same a, h.same a]
  · rw [h'.rest, h.rest]
  · intro a ha
    exact h'.black a (h.black a ha)
  · intro a ha
    exact h'.marked a (h.marked a ha)
  · exact Nat.le_trans h'.whites h.whites
  · exact Nat.le_trans h'.lights h.lights

/-- An object becomes darker, and the grey list begins elsewhere. -/
theorem alter {f : Object → Object} {o : Option Addr}
    (hf : f (g.at a) = { g.at a with colour := (f (g.at a)).colour, grey := (f (g.at a)).grey })
    (hb : (g.at a).colour = .black → (f (g.at a)).colour = .black)
    (hm : (f (g.at a)).colour ≠ .white) :
    Repainted g ((g.alter a f).setGrey o) := by
  have look : ∀ P : Object → Object → Prop, (P (g.at a) (f (g.at a))) →
      (∀ b, P (g.at b) (g.at b)) → ∀ b, P (g.at b) ((g.alter a f).at b) := by
    intro P hs hn b
    refine Gc.at_alter (P (g.at b)) ?_ fun _ => hn b
    intro _ hb
    rw [hb]
    exact hs
  constructor
  · exact Gc.length_alter
  · exact look (fun ob ob' => ob' = { ob with colour := ob'.colour, grey := ob'.grey }) hf
      fun _ => rfl
  · rfl
  · exact look (fun ob ob' => ob.colour = .black → ob'.colour = .black) hb fun _ h => h
  · exact look (fun ob ob' => ob.colour ≠ .white → ob'.colour ≠ .white) (fun _ => hm) fun _ h => h
  · rw [Gc.count_setGrey]
    refine Gc.count_alter_le ?_
    intro h
    exact absurd (by simpa using h) hm
  · rw [Gc.count_setGrey]
    refine Gc.count_alter_le ?_
    intro h
    have : (f (g.at a)).colour ≠ .black := by simpa using h
    simpa using fun h' => this (hb h')

end Repainted

/-! ## The grey list -/

/-- The `grey` fields lead through the list, from its first object to its last. -/
def Threaded (g : Gc) : Option Addr → List Addr → Prop
  | o, [] => o = none
  | o, a :: l => o = some a ∧ Threaded g (g.at a).grey l

theorem Threaded.congr {g g' : Gc} : ∀ {o : Option Addr} {l : List Addr}, Threaded g o l →
    (∀ a ∈ l, (g'.at a).grey = (g.at a).grey) → Threaded g' o l := by
  intro o l
  induction l generalizing o with
  | nil => exact fun h _ => h
  | cons a l ih =>
    intro h hl
    refine ⟨h.1, ?_⟩
    rw [hl a List.mem_cons_self]
    exact ih h.2 fun b hb => hl b (List.mem_cons_of_mem _ hb)

/-- The grey list is `l`: the light grey objects, each once. -/
structure OnGrey (g : Gc) (l : List Addr) : Prop where
  threaded : Threaded g g.grey l
  nodup : l.Nodup
  mem : ∀ a, a ∈ l ↔ (g.at a).colour = .lgrey
  present : ∀ a ∈ l, g.Present a
  shading : ∀ a ∈ l, (g.at a).value.shading = .grey

/-- The types that go on the grey list are among those that `idio_gc_process_grey` takes off. -/
theorem scan_of_grey {v : Value} (h : v.shading = .grey) : v.scan = .pop v.fields := by
  cases v with
  | none => cases h
  | leaf => cases h
  | cPointer ptype => cases h
  | substring parent => cases h
  | _ => rfl

theorem fields_of_follow {v : Value} {parent : Ref} (h : v.shading = .follow parent) :
    v.fields = [parent] := by
  unfold Value.fields
  rw [h]

theorem fields_of_black {v : Value} (h : v.shading = .black) : v.fields = [] := by
  unfold Value.fields
  rw [h]

namespace OnGrey

variable {g : Gc} {l : List Addr} {a : Addr}

/-- Objects off the list may change their colour. -/
theorem paint (h : OnGrey g l) (ha : (g.at a).colour = .white) :
    OnGrey (g.paint a .black) l := by
  have hne : ∀ b ∈ l, b ≠ a := by
    rintro b hb rfl
    rw [(h.mem b).mp hb] at ha
    cases ha
  constructor
  · refine h.threaded.congr ?_
    intro b hb
    rw [Gc.paint_ne (hne b hb)]
  · exact h.nodup
  · intro b
    refine Gc.at_alter (fun ob => b ∈ l ↔ ob.colour = .lgrey) ?_ fun _ => h.mem b
    rintro - rfl
    constructor
    · intro hb
      exact absurd rfl (hne b hb)
    · intro hb
      cases hb
  · intro b hb
    unfold Gc.Present
    rw [Gc.paint_ne (hne b hb)]
    exact h.present b hb
  · intro b hb
    rw [Gc.paint_ne (hne b hb)]
    exact h.shading b hb

/-- A white object is put on the list. -/
theorem push (h : OnGrey g l) (hp : g.Present a) (hw : (g.at a).colour = .white)
    (hs : (g.at a).value.shading = .grey) : OnGrey (g.push a) (a :: l) := by
  have hne : ∀ b ∈ l, b ≠ a := by
    rintro b hb rfl
    rw [(h.mem b).mp hb] at hw
    cases hw
  have hself : (g.push a).at a = { g.at a with colour := .lgrey, grey := g.grey } :=
    Gc.push_self hp
  constructor
  · refine ⟨rfl, ?_⟩
    rw [hself]
    refine h.threaded.congr ?_
    intro b hb
    rw [Gc.push_ne (hne b hb)]
  · refine List.nodup_cons.mpr ⟨?_, h.nodup⟩
    intro ha
    exact hne a ha rfl
  · intro b
    obtain rfl | hb := eq_or_ne b a
    · rw [hself]
      simp
    · rw [Gc.push_ne hb, ← h.mem b]
      simp [hb]
  · intro b hb
    unfold Gc.Present
    obtain rfl | hb := List.mem_cons.mp hb
    · rw [hself]
      exact hp
    · rw [Gc.push_ne (hne b hb)]
      exact h.present b hb
  · intro b hb
    obtain rfl | hb := List.mem_cons.mp hb
    · rw [hself]
      exact hs
    · rw [Gc.push_ne (hne b hb)]
      exact h.shading b hb

/-- The first of the list is taken off it. -/
theorem pop (h : OnGrey g (a :: l)) : OnGrey ((g.paint a .black).setGrey (g.at a).grey) l := by
  have hne : ∀ b ∈ l, b ≠ a := by
    rintro b hb rfl
    exact (List.nodup_cons.mp h.nodup).1 hb
  constructor
  · refine h.threaded.2.congr ?_
    intro b hb
    rw [Gc.at_setGrey, Gc.paint_ne (hne b hb)]
  · exact (List.nodup_cons.mp h.nodup).2
  · intro b
    rw [Gc.at_setGrey]
    obtain rfl | hb := eq_or_ne b a
    · rw [Gc.paint_self (h.present b List.mem_cons_self)]
      constructor
      · intro hb
        exact absurd rfl (hne b hb)
      · intro hb
        cases hb
    · rw [Gc.paint_ne hb, ← h.mem b]
      simp [hb]
  · intro b hb
    unfold Gc.Present
    rw [Gc.at_setGrey, Gc.paint_ne (hne b hb)]
    exact h.present b (List.mem_cons_of_mem _ hb)
  · intro b hb
    rw [Gc.at_setGrey, Gc.paint_ne (hne b hb)]
    exact h.shading b (List.mem_cons_of_mem _ hb)

end OnGrey

/-! ## What holds while the collector marks -/

/-- Marking that begins with `g₀` follows a field of the object at `m`, as it is in `g`. -/
def Refers (g₀ g : Gc) (m n : Addr) : Prop :=
  (g₀.at m).colour = .white ∧ .pointer n ∈ (g.at m).value.fields ∧ g₀.Present n

/-- Marking that began with `g₀` has come to `g`, with `todo` still to be marked.  What is `found`
goes along the references. -/
structure Marks (g₀ : Gc) (source found : Addr → Prop) (g : Gc) (todo : List Ref) : Prop where
  follow : ∀ m n, found m → Refers g₀ g₀ m n → found n
  size : g.objects.length = g₀.objects.length
  present : ∀ a, g.Present a ↔ g₀.Present a
  fields : ∀ a n, .pointer n ∈ (g.at a).value.fields → .pointer n ∈ (g₀.at a).value.fields
  grey : ∃ l, OnGrey g l
  three : TriColour (Refers g₀ g) source found
    (fun n => (g₀.at n).colour ≠ .white) (fun n => (g.at n).colour ≠ .white)
    (fun n => (g.at n).colour = .black) (fun n => .pointer n ∈ todo ∧ g₀.Present n)

namespace Marks

variable {g₀ g g' : Gc} {source found : Addr → Prop} {todo : List Ref} {r : Ref} {o : Addr}

theorem refers (h : Marks g₀ source found g todo) {m n : Addr} (hr : Refers g₀ g m n) :
    Refers g₀ g₀ m n := ⟨hr.1, h.fields m n hr.2.1, hr.2.2⟩

/-- What is marked already, or is no object, need not be marked. -/
theorem drop (h : Marks g₀ source found g (r :: todo))
    (hr : ∀ n, r = .pointer n → g.Present n → (g.at n).colour ≠ .white) :
    Marks g₀ source found g todo where
  follow := h.follow
  size := h.size
  present := h.present
  fields := h.fields
  grey := h.grey
  three := by
    refine h.three.drop _ ?_ ?_
    · rintro n ⟨hn, hp⟩
      exact ⟨List.mem_cons_of_mem _ hn, hp⟩
    · rintro n ⟨hn, hp⟩
      obtain hn | hn := List.mem_cons.mp hn
      · exact .inl (hr n hn.symm ((h.present n).mpr hp))
      · exact .inr ⟨hn, hp⟩

/-- The colours and the grey list change, and with them what is still to be marked. -/
theorem repaint (h : Marks g₀ source found g todo) (hp : Repainted g g') {l : List Addr}
    (hl : OnGrey g' l) {todo' : List Ref}
    (ht : TriColour (Refers g₀ g) source found
      (fun n => (g₀.at n).colour ≠ .white) (fun n => (g'.at n).colour ≠ .white)
      (fun n => (g'.at n).colour = .black) (fun n => .pointer n ∈ todo' ∧ g₀.Present n)) :
    Marks g₀ source found g' todo' where
  follow := h.follow
  size := hp.size.trans h.size
  present a := by
    unfold Gc.Present
    rw [hp.value a]
    exact h.present a
  fields a := by
    rw [hp.value a]
    exact h.fields a
  grey := ⟨l, hl⟩
  three := by
    refine ht.forget ?_
    rintro m n ⟨hw, hn, hp'⟩
    rw [hp.value m] at hn
    exact ⟨hw, hn, hp'⟩

/-- What is white was white when marking began. -/
theorem white (h : Marks g₀ source found g todo) (hw : (g.at o).colour = .white) :
    (g₀.at o).colour = .white := by
  by_contra hne
  have := h.three.before o hne
  rw [this] at hw
  cases hw

/-- A white object that does not go on the grey list becomes black. -/
theorem paint (h : Marks g₀ source found g (.pointer o :: todo)) (hp : g.Present o)
    (hw : (g.at o).colour = .white) :
    Marks g₀ source found (g.paint o .black) ((g.at o).value.fields ++ todo) ∧
      Repainted g (g.paint o .black) := by
  obtain ⟨l, hl⟩ := h.grey
  have hself : (g.paint o .black).at o = { g.at o with colour := .black } := Gc.paint_self hp
  have hrep : Repainted g (g.paint o .black) := by
    refine Repainted.alter (f := ({ · with colour := .black })) (o := g.grey) rfl ?_ ?_
    · intro hb
      rfl
    · intro hb
      cases hb
  refine ⟨h.repaint hrep (hl.paint hw) ?_, hrep⟩
  have hf : found o :=
    h.three.noted o ⟨List.mem_cons_self, (h.present o).mp hp⟩
  have hm : ∀ n, ((g.paint o .black).at n).colour ≠ .white ↔ (g.at n).colour ≠ .white ∨ n = o := by
    intro n
    obtain rfl | hn := eq_or_ne n o
    · rw [hself]
      simp
    · rw [Gc.paint_ne hn]
      simp [hn]
  have hb : ∀ n, ((g.paint o .black).at n).colour = .black ↔ (g.at n).colour = .black ∨ n = o := by
    intro n
    obtain rfl | hn := eq_or_ne n o
    · rw [hself]
      simp
    · rw [Gc.paint_ne hn]
      simp [hn]
  have done := (h.three.shade hf hm).blacken
    (fun n => (.pointer n ∈ .pointer o :: todo ∧ g₀.Present n) ∨ Refers g₀ g o n)
    ((hm o).mpr (.inr rfl))
    (fun n hn => h.follow _ n hf (h.refers hn)) hb
    fun _ => Iff.rfl
  refine done.drop _ ?_ ?_
  · rintro n ⟨hn, hpn⟩
    obtain hn | hn := List.mem_append.mp hn
    · exact .inr ⟨h.white hw, hn, hpn⟩
    · exact .inl ⟨List.mem_cons_of_mem _ hn, hpn⟩
  · rintro n (⟨hn, hpn⟩ | ⟨_, hn, hpn⟩)
    · obtain hn | hn := List.mem_cons.mp hn
      · cases hn
        exact .inl ((hm o).mpr (.inr rfl))
      · exact .inr ⟨List.mem_append_right _ hn, hpn⟩
    · exact .inr ⟨List.mem_append_left _ hn, hpn⟩

/-- A white object goes on the grey list. -/
theorem push (h : Marks g₀ source found g (.pointer o :: todo)) (hp : g.Present o)
    (hw : (g.at o).colour = .white) (hs : (g.at o).value.shading = .grey) :
    Marks g₀ source found (g.push o) todo ∧ Repainted g (g.push o) := by
  obtain ⟨l, hl⟩ := h.grey
  have hself : (g.push o).at o = { g.at o with colour := .lgrey, grey := g.grey } :=
    Gc.push_self hp
  have hrep : Repainted g (g.push o) := by
    refine Repainted.alter (f := ({ · with colour := .lgrey, grey := g.grey })) (o := some o) rfl ?_ ?_
    · intro hb
      rw [hw] at hb
      cases hb
    · intro hb
      cases hb
  refine ⟨h.repaint hrep (hl.push hp hw hs) ?_, hrep⟩
  have hf : found o :=
    h.three.noted o ⟨List.mem_cons_self, (h.present o).mp hp⟩
  have hm : ∀ n, ((g.push o).at n).colour ≠ .white ↔ (g.at n).colour ≠ .white ∨ n = o := by
    intro n
    obtain rfl | hn := eq_or_ne n o
    · rw [hself]
      simp
    · rw [Gc.push_ne hn]
      simp [hn]
  have hb : ∀ n, ((g.push o).at n).colour = .black ↔ (g.at n).colour = .black := by
    intro n
    obtain rfl | hn := eq_or_ne n o
    · rw [hself, hw]
      simp
    · rw [Gc.push_ne hn]
  have done := (h.three.shade hf hm).drop (fun n => .pointer n ∈ todo ∧ g₀.Present n)
    (fun n hn => ⟨List.mem_cons_of_mem _ hn.1, hn.2⟩) (by
      rintro n ⟨hn, hpn⟩
      obtain hn | hn := List.mem_cons.mp hn
      · cases hn
        exact .inl ((hm o).mpr (.inr rfl))
      · exact .inr ⟨hn, hpn⟩)
  simpa only [hb] using done

/-- The first of the grey list is done with, once its fields are marked. -/
theorem pop (h : Marks g₀ source found g []) {l : List Addr} (hl : OnGrey g (o :: l)) :
    Marks g₀ source found ((g.paint o .black).setGrey (g.at o).grey) (g.at o).value.fields ∧
      Repainted g ((g.paint o .black).setGrey (g.at o).grey) := by
  have hp : g.Present o := hl.present o List.mem_cons_self
  have hc : (g.at o).colour = .lgrey := (hl.mem o).mp List.mem_cons_self
  have hself : (g.paint o .black).at o = { g.at o with colour := .black } := Gc.paint_self hp
  have hrep : Repainted g ((g.paint o .black).setGrey (g.at o).grey) := by
    refine Repainted.alter (f := ({ · with colour := .black })) rfl ?_ ?_
    · intro _
      rfl
    · intro hb
      cases hb
  refine ⟨h.repaint hrep hl.pop ?_, hrep⟩
  have hw : (g₀.at o).colour = .white := by
    by_contra hne
    have := h.three.before o hne
    rw [this] at hc
    cases hc
  have hf : found o := by
    have := h.three.sound o (by simp [hc])
    exact this.resolve_left (by simp [hw])
  have hm : ∀ n, (((g.paint o .black).setGrey (g.at o).grey).at n).colour ≠ .white ↔
      (g.at n).colour ≠ .white := by
    intro n
    rw [Gc.at_setGrey]
    obtain rfl | hn := eq_or_ne n o
    · rw [hself, hc]
      simp
    · rw [Gc.paint_ne hn]
  have hb : ∀ n, (((g.paint o .black).setGrey (g.at o).grey).at n).colour = .black ↔
      (g.at n).colour = .black ∨ n = o := by
    intro n
    rw [Gc.at_setGrey]
    obtain rfl | hn := eq_or_ne n o
    · rw [hself]
      simp
    · rw [Gc.paint_ne hn]
      simp [hn]
  have done := h.three.blacken (a := o)
    (fun n => .pointer n ∈ (g.at o).value.fields ∧ g₀.Present n) (by simp [hc])
    (fun n hn => h.follow _ n hf (h.refers hn)) hb (by
      intro n
      constructor
      · exact fun hn => .inr ⟨hw, hn.1, hn.2⟩
      · rintro (hn | hn)
        · exact absurd hn.1 (by simp)
        · exact ⟨hn.2.1, hn.2.2⟩)
  simpa only [hm] using done

end Marks

/-! ## Marking comes to an end -/

namespace Gc

variable {g₀ g : Gc} {source found : Addr → Prop}

/-- Marking an object, with what is to be marked at once. -/
theorem gccMark_marks : ∀ (n : Nat) {g : Gc} {r : Ref} {todo : List Ref},
    Marks g₀ source found g (r :: todo) → g.count (· == .white) < n →
    ∃ g', g.gccMark n r = some g' ∧ Marks g₀ source found g' todo ∧ Repainted g g' := by
  intro n
  induction n with
  | zero => exact fun _ hn => absurd hn (Nat.not_lt_zero _)
  | succ n ih =>
    intro g r todo h hn
    have skip : (∀ a, r = .pointer a → g.Present a → (g.at a).colour ≠ .white) →
        ∃ g', some g = some g' ∧ Marks g₀ source found g' todo ∧ Repainted g g' := fun hr =>
      ⟨g, rfl, h.drop hr, .refl g⟩
    cases r with
    | fixnum i => exact skip fun a ha => by cases ha
    | constant c => exact skip fun a ha => by cases ha
    | placeholder p => exact skip fun a ha => by cases ha
    | pointer o =>
      unfold gccMark
      split
      · rename_i hnone
        refine skip ?_
        intro a ha hp
        cases ha
        rw [Gc.Present, hnone] at hp
        cases hp
      rename_i hsome
      have hp : (g.at o).value.isNone = false := by simpa using hsome
      have marked : (g.at o).colour ≠ .white →
          ∃ g', some g = some g' ∧ Marks g₀ source found g' todo ∧ Repainted g g' := by
        intro hc
        refine skip ?_
        intro a ha _
        cases ha
        exact hc
      cases hc : (g.at o).colour with
      | black => exact marked (by simp [hc])
      | lgrey => exact marked (by simp [hc])
      | white =>
        cases hs : (g.at o).value.shading with
        | grey =>
          obtain ⟨hmarks, hrep⟩ := h.push hp hc hs
          exact ⟨_, rfl, hmarks, hrep⟩
        | black =>
          obtain ⟨hmarks, hrep⟩ := h.paint hp hc
          rw [fields_of_black hs] at hmarks
          exact ⟨_, rfl, hmarks, hrep⟩
        | follow parent =>
          obtain ⟨hmarks, hrep⟩ := h.paint hp hc
          rw [fields_of_follow hs] at hmarks
          have hless : (g.paint o .black).count (· == .white) < g.count (· == .white) :=
            count_alter_lt (Present.lt hp) (by simp [hc]) rfl
          obtain ⟨g', hg', hmarks', hrep'⟩ := ih hmarks (by omega)
          exact ⟨g', hg', hmarks', hrep.trans hrep'⟩

theorem gccMarkAll_marks {n : Nat} : ∀ {os : List Ref} {g : Gc} {todo : List Ref},
    Marks g₀ source found g (os ++ todo) → g.count (· == .white) < n →
    ∃ g', g.gccMarkAll n os = some g' ∧ Marks g₀ source found g' todo ∧ Repainted g g' := by
  intro os
  induction os with
  | nil => exact fun h _ => ⟨_, rfl, h, .refl _⟩
  | cons r os ih =>
    intro g todo h hn
    obtain ⟨g₁, hg₁, hm₁, hr₁⟩ := gccMark_marks n h hn
    obtain ⟨g₂, hg₂, hm₂, hr₂⟩ := ih hm₁ (Nat.lt_of_le_of_lt hr₁.whites hn)
    refine ⟨g₂, ?_, hm₂, hr₁.trans hr₂⟩
    unfold gccMarkAll
    rw [List.foldlM_cons, hg₁]
    exact hg₂

/-- One step of the grey list: an object that was not black is. -/
theorem processGrey_marks {n : Nat} (h : Marks g₀ source found g []) (hg : g.grey ≠ none)
    (hn : g.count (· == .white) < n) :
    ∃ g', g.processGrey n = some g' ∧ Marks g₀ source found g' [] ∧ Repainted g g' ∧
      g'.count (· != .black) < g.count (· != .black) := by
  obtain ⟨l, hl⟩ := h.grey
  cases l with
  | nil => exact absurd hl.threaded hg
  | cons o l =>
    have hp : g.Present o := hl.present o List.mem_cons_self
    have hc : (g.at o).colour = .lgrey := (hl.mem o).mp List.mem_cons_self
    obtain ⟨hm₁, hr₁⟩ := h.pop hl
    rw [← List.append_nil (g.at o).value.fields] at hm₁
    obtain ⟨g', hg', hm', hr'⟩ := gccMarkAll_marks hm₁ (Nat.lt_of_le_of_lt hr₁.whites hn)
    have hless : (g.paint o .black).count (· != .black) < g.count (· != .black) :=
      count_alter_lt hp.lt (by simp [hc]) rfl
    refine ⟨g', ?_, hm', hr₁.trans hr', Nat.lt_of_le_of_lt hr'.lights hless⟩
    unfold processGrey
    rw [hl.threaded.1]
    simp only [scan_of_grey (hl.shading o List.mem_cons_self)]
    exact hg'

/-- The grey list is emptied, with no more steps than there are objects that are not black. -/
theorem drain_marks {n : Nat} : ∀ (m : Nat) {g : Gc}, Marks g₀ source found g [] →
    g.count (· == .white) < n → g.count (· != .black) ≤ m →
    ∃ g', g.drain m n = some g' ∧ Marks g₀ source found g' [] ∧ Repainted g g' ∧ g'.grey = none := by
  intro m
  induction m with
  | zero =>
    intro g h hn hm
    unfold drain
    split
    · rename_i hg
      exact ⟨g, rfl, h, .refl g, hg⟩
    · rename_i hg
      obtain ⟨g', -, -, -, hless⟩ := processGrey_marks h hg hn
      omega
  | succ m ih =>
    intro g h hn hm
    unfold drain
    split
    · rename_i hg
      exact ⟨g, rfl, h, .refl g, hg⟩
    · rename_i hg
      obtain ⟨g₁, hg₁, hm₁, hr₁, hless⟩ := processGrey_marks h hg hn
      obtain ⟨g', hg', hm', hr', hnone⟩ :=
        ih hm₁ (Nat.lt_of_le_of_lt hr₁.whites hn) (by omega)
      refine ⟨g', ?_, hm', hr₁.trans hr', hnone⟩
      rw [hg₁]
      exact hg'

end Gc

end Idio.Collector
