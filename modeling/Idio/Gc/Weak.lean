/-
  Gc/Weak.lean --- the two passes over the weak hash tables.

  The first pass marks the values whose keys are black, the second drops the entries whose keys
  are not.  The second marks values too, and drops entries before what it has marked is followed,
  so that a key may be lost that is only referred to from there.  What holds of the two is that
  an entry is lost only if its key was not black before the second pass, and that an entry that
  stays, where its key is an object, has a black key and a value that is marked.

  The values that the passes mark are further places that marking begins with: `Weakly`.
-/
import Idio.Gc.Mark
import Idio.Lib.Folding

set_option autoImplicit false

namespace Idio.Collector

open Marking (Reached TriColour)

/-! ## Chains -/

/-- How many chains a hash table has. -/
def Value.size : Value → Nat
  | .hash _ ha _ _ _ => ha.length
  | _ => 0

/-- The `count` of a hash table is the number of its entries. -/
def Value.Counted : Value → Prop
  | .hash _ ha count _ _ => count = ha.flatten.length
  | _ => True

namespace Value

variable {v : Value} {e : Entry} {i j : Nat} {kept hen : List Entry} {he : Entry}

theorem mem_entries : e ∈ v.entries ↔ ∃ i, e ∈ v.chain i := by
  cases v with
  | hash sk ha count comp fn =>
    unfold entries chain
    simp only [List.mem_flatten, List.getD_eq_getElem?_getD]
    constructor
    · rintro ⟨c, hc, he⟩
      obtain ⟨i, hi⟩ := List.mem_iff_getElem?.mp hc
      refine ⟨i, ?_⟩
      rw [hi]
      exact he
    · rintro ⟨i, he⟩
      cases hi : ha[i]? with
      | none =>
        rw [hi] at he
        cases he
      | some c =>
        rw [hi] at he
        exact ⟨c, List.mem_of_getElem? hi, he⟩
  | _ =>
    constructor
    · intro h
      cases h
    · rintro ⟨i, h⟩
      cases h

theorem chain_unlink_self (hi : i < v.size) : (v.unlink i kept).chain i = kept := by
  cases v with
  | hash sk ha count comp fn =>
    have hlt : i < ha.length := hi
    simp [unlink, chain, hlt]
  | _ => cases hi

theorem chain_unlink_ne (h : j ≠ i) : (v.unlink i kept).chain j = v.chain j := by
  cases v with
  | hash sk ha count comp fn => simp [unlink, chain, h.symm]
  | _ => rfl

theorem size_unlink : (v.unlink i kept).size = v.size := by
  cases v with
  | hash sk ha count comp fn => simp [unlink, size]
  | _ => rfl

theorem isHash_unlink : (v.unlink i kept).isHash = v.isHash := by
  cases v <;> rfl

theorem isNone_unlink : (v.unlink i kept).isNone = v.isNone := by
  cases v <;> rfl

theorem shading_unlink : (v.unlink i kept).shading = v.shading := by
  cases v <;> rfl

/-- With an entry fewer, marking has fewer fields to follow. -/
theorem fields_unlink (hc : v.chain i = kept ++ he :: hen) {r : Ref}
    (hr : r ∈ (v.unlink i (kept ++ hen)).fields) : r ∈ v.fields := by
  cases v with
  | hash sk ha count comp fn =>
    have sub : ∀ e ∈ (ha.set i (kept ++ hen)).flatten, e ∈ ha.flatten := by
      intro e he'
      obtain ⟨c, hc', he'⟩ := List.mem_flatten.mp he'
      obtain hc' | rfl := List.mem_or_eq_of_mem_set hc'
      · exact List.mem_flatten.mpr ⟨c, hc', he'⟩
      · have hm : e ∈ (Value.hash sk ha count comp fn).chain i := by
          rw [hc]
          obtain he' | he' := List.mem_append.mp he'
          · exact List.mem_append_left _ he'
          · exact List.mem_append_right _ (List.mem_cons_of_mem _ he')
        exact mem_entries.mpr ⟨i, hm⟩
    have hr' : r ∈ (ha.set i (kept ++ hen)).flatten.flatMap (Entry.fields sk) ++ [comp, fn] := hr
    change r ∈ ha.flatten.flatMap (Entry.fields sk) ++ [comp, fn]
    obtain hr' | hr' := List.mem_append.mp hr'
    · obtain ⟨e, he', hr'⟩ := List.mem_flatMap.mp hr'
      exact List.mem_append_left _ (List.mem_flatMap.mpr ⟨e, sub e he', hr'⟩)
    · exact List.mem_append_right _ hr'
  | _ => exact hr

theorem flatten_set_length {α : Type} : ∀ {ha : List (List α)} {i : Nat} {c : List α},
    i < ha.length → (ha.set i c).flatten.length + (ha.getD i []).length =
      ha.flatten.length + c.length := by
  intro ha
  induction ha with
  | nil => exact fun h => absurd h (Nat.not_lt_zero _)
  | cons b ha ih =>
    intro i c h
    cases i with
    | zero =>
      simp only [List.set_cons_zero, List.flatten_cons, List.length_append,
        List.getD_cons_zero]
      omega
    | succ i =>
      have := ih (i := i) (c := c) (Nat.lt_of_succ_lt_succ h)
      simp only [List.set_cons_succ, List.flatten_cons, List.length_append,
        List.getD_cons_succ]
      omega

/-- The `count` goes with the entries. -/
theorem counted_unlink (hi : i < v.size) (hc : v.chain i = kept ++ he :: hen) (h : v.Counted) :
    (v.unlink i (kept ++ hen)).Counted := by
  cases v with
  | hash sk ha count comp fn =>
    have hlen := flatten_set_length (c := kept ++ hen) (show i < ha.length from hi)
    have hc' : ha.getD i [] = kept ++ he :: hen := hc
    rw [hc'] at hlen
    have h' : count = ha.flatten.length := h
    change count - 1 = (ha.set i (kept ++ hen)).flatten.length
    simp only [List.length_append, List.length_cons] at hlen
    omega
  | _ => cases hi

end Value

/-! ## How marking begins -/

/-- The objects `os` have been made white. -/
structure Whitened (g : Gc) (os : List Addr) (g' : Gc) : Prop where
  size : g'.objects.length = g.objects.length
  rest : g' = { g with objects := g'.objects, grey := g'.grey }
  same : ∀ a, g'.at a = { g.at a with colour := (g'.at a).colour }
  white : ∀ a ∈ os, g.Present a → (g'.at a).colour = .white
  other : ∀ a, ¬ (a ∈ os ∧ g.Present a) → (g'.at a).colour = (g.at a).colour

namespace Gc

variable {g : Gc}

theorem whiten_one (g : Gc) (o : Addr) : Whitened g [o] (g.whiten o) := by
  unfold whiten
  split
  · rename_i hnone
    constructor
    · rfl
    · rfl
    · exact fun _ => rfl
    · intro a ha hp
      rw [List.mem_singleton.mp ha, Present, hnone] at hp
      cases hp
    · exact fun _ _ => rfl
  · rename_i hsome
    have hp : (g.at o).value.isNone = false := by simpa using hsome
    constructor
    · exact length_paint
    · rfl
    · intro a
      obtain rfl | ha := eq_or_ne a o
      · rw [paint_self hp]
      · rw [paint_ne ha]
    · intro a ha _
      rw [List.mem_singleton.mp ha, paint_self hp]
    · intro a ha
      obtain rfl | hne := eq_or_ne a o
      · exact absurd ⟨by simp, hp⟩ ha
      · rw [paint_ne hne]

theorem foldl_whiten (os : List Addr) (g : Gc) : Whitened g os (os.foldl whiten g) := by
  induction os generalizing g with
  | nil =>
    constructor
    · rfl
    · rfl
    · exact fun _ => rfl
    · intro a ha
      cases ha
    · exact fun _ _ => rfl
  | cons o os ih =>
    have h := whiten_one g o
    have h' := ih (g.whiten o)
    have hp : ∀ a, (g.whiten o).Present a ↔ g.Present a := by
      intro a
      unfold Present
      rw [h.same a]
    constructor
    · exact h'.size.trans h.size
    · have hsame : ∀ os' o', { g.whiten o with objects := os', grey := o' } =
          { g with objects := os', grey := o' } := by
        intro os' o'
        rw [h.rest]
      exact h'.rest.trans (hsame _ _)
    · intro a
      rw [List.foldl_cons, h'.same a, h.same a]
    · intro a ha hpa
      obtain ha' | ha' := Classical.em (a ∈ os)
      · exact h'.white a ha' ((hp a).mpr hpa)
      · have ho : a ∈ [o] := by simpa [ha'] using ha
        rw [List.foldl_cons, h'.other a fun h => ha' h.1]
        exact h.white a ho hpa
    · intro a ha
      have hos : ¬ (a ∈ os ∧ (g.whiten o).Present a) := fun h =>
        ha ⟨List.mem_cons_of_mem _ h.1, (hp a).mp h.2⟩
      have ho : ¬ (a ∈ [o] ∧ g.Present a) := by
        rintro ⟨ho, hpa⟩
        rw [List.mem_singleton.mp ho] at ha hpa
        exact ha ⟨List.mem_cons_self, hpa⟩
      rw [List.foldl_cons, h'.other a hos, h.other a ho]

theorem started_whitened (g : Gc) : Whitened g g.used g.started := by
  have h := foldl_whiten g.used g
  constructor
  · exact h.size
  · unfold started setGrey
    rw [h.rest]
  · exact h.same
  · exact h.white
  · exact h.other

/-- Marking may begin with an object. -/
def Root (g : Gc) (n : Addr) : Prop := .pointer n ∈ g.roots ++ g.autos ∧ g.Present n

/-- Marking begins with nothing on the grey list and the sources still to be marked. -/
theorem marks_start {source found : Addr → Prop} {todo : List Ref} (hg : g.grey = none)
    (hl : ∀ a, (g.at a).colour ≠ .lgrey) (follow : ∀ m n, found m → Refers g g m n → found n)
    (hs : ∀ n, source n → .pointer n ∈ todo ∧ g.Present n)
    (hf : ∀ n, .pointer n ∈ todo ∧ g.Present n → found n) : Marks g source found g todo where
  follow := follow
  size := rfl
  present _ := Iff.rfl
  fields _ _ h := h
  grey := by
    refine ⟨[], hg, List.nodup_nil, ?_, ?_, ?_⟩
    · intro a
      simp [hl a]
    · intro a ha
      cases ha
    · intro a ha
      cases ha
  three := by
    refine TriColour.start ?_ ?_ ?_ ?_ hs hf
    · intro n hn
      cases hc : (g.at n).colour with
      | black => rfl
      | lgrey => exact absurd hc (hl n)
      | white => exact absurd hc hn
    · intro n hn
      simp [hn]
    · exact fun _ h => h
    · intro m n hr hm
      exact hm hr.1

end Gc

/-! ## What the passes leave alone -/

/-- The finalizers of the objects `rs` have been run, the last first, and no object was black. -/
structure Ran (g g' : Gc) (rs : List Addr) : Prop where
  ran : g'.ran = rs ++ g.ran
  nodup : rs.Nodup
  had : ∀ a ∈ rs, (g.at a).finalizer = true
  lost : ∀ a ∈ rs, (g.at a).colour ≠ .black
  gone : ∀ a ∈ rs, (g'.at a).finalizer = false
  other : ∀ a, a ∉ rs → (g'.at a).finalizer = (g.at a).finalizer

theorem Ran.trans {g g' g'' : Gc} {rs rs' : List Addr} (h : Ran g g' rs) (h' : Ran g' g'' rs')
    (hb : ∀ a, (g.at a).colour = .black → (g'.at a).colour = .black) :
    Ran g g'' (rs' ++ rs) := by
  have off : ∀ a ∈ rs', a ∉ rs := by
    intro a ha ha'
    have := h'.had a ha
    rw [h.gone a ha'] at this
    cases this
  constructor
  · rw [h'.ran, h.ran, List.append_assoc]
  · refine List.nodup_append.mpr ⟨h'.nodup, h.nodup, ?_⟩
    rintro a ha b hb rfl
    exact off a ha hb
  · intro a ha
    obtain ha | ha := List.mem_append.mp ha
    · rw [← h.other a (off a ha)]
      exact h'.had a ha
    · exact h.had a ha
  · intro a ha
    obtain ha | ha := List.mem_append.mp ha
    · exact fun h => h'.lost a ha (hb a h)
    · exact h.lost a ha
  · intro a ha
    obtain ha | ha := List.mem_append.mp ha
    · exact h'.gone a ha
    · obtain ha' | ha' := Classical.em (a ∈ rs')
      · exact h'.gone a ha'
      · rw [h'.other a ha']
        exact h.gone a ha
  · intro a ha
    rw [List.mem_append, not_or] at ha
    rw [h'.other a ha.1, h.other a ha.2]

/-- Objects have become darker, finalizers have been run and weak tables have lost entries whose
keys were not black. -/
structure Shrunk (g g' : Gc) : Prop where
  size : g'.objects.length = g.objects.length
  rest : g' = { g with objects := g'.objects, grey := g'.grey, ran := g'.ran }
  value : ∀ a, a ∉ g.weak → (g'.at a).value = (g.at a).value
  present : ∀ a, (g'.at a).value.isNone = (g.at a).value.isNone
  isHash : ∀ a, (g'.at a).value.isHash = (g.at a).value.isHash
  sticky : ∀ a, (g'.at a).sticky = (g.at a).sticky
  free : ∀ a, (g'.at a).free = (g.at a).free
  black : ∀ a, (g.at a).colour = .black → (g'.at a).colour = .black
  marked : ∀ a, (g.at a).colour ≠ .white → (g'.at a).colour ≠ .white
  sizes : ∀ a, (g'.at a).value.size = (g.at a).value.size
  sub : ∀ a i e, e ∈ (g'.at a).value.chain i → e ∈ (g.at a).value.chain i
  keep : ∀ a i e, e ∈ (g.at a).value.chain i →
    (∀ k, e.key = .pointer k → (g.at k).colour = .black) → e ∈ (g'.at a).value.chain i
  counted : ∀ a, (g.at a).value.Counted → (g'.at a).value.Counted
  ran : ∃ rs, Ran g g' rs

theorem Repainted.shrunk {g g' : Gc} (h : Repainted g g') : Shrunk g g' where
  size := h.size
  rest := by
    conv_lhs => rw [h.rest]
    rw [h.rest]
  value a _ := h.value a
  present a := by rw [h.value a]
  isHash a := by rw [h.value a]
  sticky := h.sticky
  free := h.free
  black := h.black
  marked := h.marked
  sizes a := by rw [h.value a]
  sub a i e he := by rwa [h.value a] at he
  keep a i e he _ := by rwa [h.value a]
  counted a hc := by rwa [h.value a]
  ran := by
    refine ⟨[], ?_, List.nodup_nil, ?_, ?_, ?_, ?_⟩
    · rw [h.rest]
      rfl
    · intro a ha
      cases ha
    · intro a ha
      cases ha
    · intro a ha
      cases ha
    · exact fun a _ => h.finalizer a

namespace Shrunk

variable {g g' g'' : Gc}

theorem refl (g : Gc) : Shrunk g g := (Repainted.refl g).shrunk

theorem weak (h : Shrunk g g') : g'.weak = g.weak := by rw [h.rest]

theorem finalizerHash (h : Shrunk g g') : g'.finalizerHash = g.finalizerHash := by rw [h.rest]

theorem trans (h : Shrunk g g') (h' : Shrunk g' g'') : Shrunk g g'' where
  size := h'.size.trans h.size
  rest := by
    rw [h'.rest, h.rest]
  value a ha := by rw [h'.value a (by rwa [h.weak]), h.value a ha]
  present a := by rw [h'.present a, h.present a]
  isHash a := by rw [h'.isHash a, h.isHash a]
  sticky a := by rw [h'.sticky a, h.sticky a]
  free a := by rw [h'.free a, h.free a]
  black a ha := h'.black a (h.black a ha)
  marked a ha := h'.marked a (h.marked a ha)
  sizes a := by rw [h'.sizes a, h.sizes a]
  sub a i e he := h.sub a i e (h'.sub a i e he)
  keep a i e he hk := h'.keep a i e (h.keep a i e he hk) fun k hk' => h.black k (hk k hk')
  counted a ha := h'.counted a (h.counted a ha)
  ran := by
    obtain ⟨rs, hr⟩ := h.ran
    obtain ⟨rs', hr'⟩ := h'.ran
    exact ⟨rs' ++ rs, hr.trans hr' h.black⟩

theorem entries (h : Shrunk g g') {a : Addr} {e : Entry} (he : e ∈ (g'.at a).value.entries) :
    e ∈ (g.at a).value.entries := by
  obtain ⟨i, hi⟩ := Value.mem_entries.mp he
  exact Value.mem_entries.mpr ⟨i, h.sub a i e hi⟩

theorem kept (h : Shrunk g g') {a : Addr} {e : Entry} (he : e ∈ (g.at a).value.entries)
    (hk : ∀ k, e.key = .pointer k → (g.at k).colour = .black) : e ∈ (g'.at a).value.entries := by
  obtain ⟨i, hi⟩ := Value.mem_entries.mp he
  exact Value.mem_entries.mpr ⟨i, h.keep a i e hi hk⟩

end Shrunk

/-- A change that colours and the grey list have no part in, and after which marking follows no
other fields. -/
structure Steady (g g' : Gc) : Prop where
  size : g'.objects.length = g.objects.length
  grey : g'.grey = g.grey
  present : ∀ a, (g'.at a).value.isNone = (g.at a).value.isNone
  shading : ∀ a, (g'.at a).value.shading = (g.at a).value.shading
  colour : ∀ a, (g'.at a).colour = (g.at a).colour
  link : ∀ a, (g'.at a).grey = (g.at a).grey
  fields : ∀ a r, r ∈ (g'.at a).value.fields → r ∈ (g.at a).value.fields

theorem Steady.alter {g : Gc} {a : Addr} {f : Object → Object}
    (hp : (f (g.at a)).value.isNone = (g.at a).value.isNone)
    (hs : (f (g.at a)).value.shading = (g.at a).value.shading)
    (hc : (f (g.at a)).colour = (g.at a).colour) (hl : (f (g.at a)).grey = (g.at a).grey)
    (hf : ∀ r, r ∈ (f (g.at a)).value.fields → r ∈ (g.at a).value.fields) :
    Steady g (g.alter a f) where
  size := Gc.length_alter
  grey := rfl
  present b := Gc.at_alter (fun ob => ob.value.isNone = (g.at b).value.isNone)
    (fun _ hb => by rw [hb, hp]) fun _ => rfl
  shading b := Gc.at_alter (fun ob => ob.value.shading = (g.at b).value.shading)
    (fun _ hb => by rw [hb, hs]) fun _ => rfl
  colour b := Gc.at_alter (fun ob => ob.colour = (g.at b).colour)
    (fun _ hb => by rw [hb, hc]) fun _ => rfl
  link b := Gc.at_alter (fun ob => ob.grey = (g.at b).grey)
    (fun _ hb => by rw [hb, hl]) fun _ => rfl
  fields b := Gc.at_alter (fun ob => ∀ r, r ∈ ob.value.fields → r ∈ (g.at b).value.fields)
    (fun _ hb => by rw [hb]; exact hf) fun _ _ h => h

theorem Marks.steady {g₀ g g' : Gc} {source found : Addr → Prop} {todo : List Ref}
    (h : Marks g₀ source found g todo) (hs : Steady g g') : Marks g₀ source found g' todo where
  follow := h.follow
  size := hs.size.trans h.size
  present a := by
    unfold Gc.Present
    rw [hs.present a]
    exact h.present a
  fields a n hn := h.fields a n (hs.fields a _ hn)
  grey := by
    obtain ⟨l, hl⟩ := h.grey
    refine ⟨l, ?_, hl.nodup, ?_, ?_, ?_⟩
    · rw [hs.grey]
      exact hl.threaded.congr fun a _ => hs.link a
    · intro a
      rw [hs.colour a]
      exact hl.mem a
    · intro a ha
      unfold Gc.Present
      rw [hs.present a]
      exact hl.present a ha
    · intro a ha
      rw [hs.shading a]
      exact hl.shading a ha
  three := by
    simp only [hs.colour]
    refine h.three.forget ?_
    rintro m n ⟨hw, hn, hp⟩
    exact ⟨hw, hs.fields m _ hn, hp⟩

end Idio.Collector
