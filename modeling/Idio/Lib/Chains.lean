/-
  Lib/Chains.lean --- linked cells in a memory.

  A cell has a value and the place of the next one.  `Seg m p cs q` says that the cells
  `cs`, each with its place, are linked one after the other from `p` on and that the
  last is linked to `q`.  `Agrees m m' is` is the frame of an operation: the memories
  are the same but for the places `is`.

  A segment away from the frame stays (`Seg.frame`).
-/
import Mathlib.Data.List.Basic
import Mathlib.Data.List.Nodup
import Mathlib.Data.List.Perm.Subperm

set_option autoImplicit false

namespace Chains

/-- A value and the place of the next cell. -/
structure Cell (β : Type) where
  value : β
  next : Option Nat
  deriving DecidableEq, Repr

abbrev Memory (β : Type) : Type := List (Cell β)

variable {β : Type}

/-- The cells `cs` are linked from `p` on, the last one to `q`. -/
def Seg (m : Memory β) : Option Nat → List (Nat × β) → Option Nat → Prop
  | p, [], q => p = q
  | p, (i, b) :: cs, q => p = some i ∧ ∃ t, m[i]? = some ⟨b, t⟩ ∧ Seg m t cs q

/-- The memories are the same but for the places `is`. -/
def Agrees (m m' : Memory β) (is : List Nat) : Prop := ∀ i, i ∉ is → m'[i]? = m[i]?

/-- The places of cells. -/
def places (cs : List (Nat × β)) : List Nat := cs.map Prod.fst

variable {m m' m'' : Memory β} {p q : Option Nat} {cs ds : List (Nat × β)} {is js : List Nat}

/-! ## Frames -/

theorem Agrees.refl (m : Memory β) (is : List Nat) : Agrees m m is := fun _ _ => rfl

theorem Agrees.trans (h : Agrees m m' is) (h' : Agrees m' m'' js) : Agrees m m'' (is ++ js) := by
  intro i hi
  rw [List.mem_append, not_or] at hi
  rw [h' i hi.2, h i hi.1]

theorem Agrees.mono (h : Agrees m m' is) (hsub : is ⊆ js) : Agrees m m' js :=
  fun i hi => h i fun hmem => hi (hsub hmem)

theorem agrees_set (m : Memory β) (i : Nat) (c : Cell β) : Agrees m (m.set i c) [i] := by
  intro j hj
  rw [List.mem_singleton] at hj
  exact List.getElem?_set_ne (Ne.symm hj)

/-- A cell outside of the frame. -/
theorem Agrees.get (h : Agrees m m' is) {i : Nat} (hi : i ∉ is) {c : Cell β} (hget : m[i]? = some c) :
    m'[i]? = some c := by
  rw [h i hi, hget]

theorem get_set {i : Nat} {c : Cell β} (hget : m[i]? = some c) (c' : Cell β) :
    (m.set i c')[i]? = some c' := by
  rw [List.getElem?_set_self (List.getElem?_eq_some_iff.mp hget).1]

/-! ## Segments -/

theorem seg_cons {i : Nat} {b : β} :
    Seg m p ((i, b) :: cs) q ↔ p = some i ∧ ∃ t, m[i]? = some ⟨b, t⟩ ∧ Seg m t cs q := Iff.rfl

theorem seg_append : Seg m p (cs ++ ds) q ↔ ∃ t, Seg m p cs t ∧ Seg m t ds q := by
  induction cs generalizing p with
  | nil => exact ⟨fun h => ⟨p, rfl, h⟩, fun ⟨t, hp, h⟩ => hp ▸ h⟩
  | cons c cs ih =>
    obtain ⟨i, b⟩ := c
    rw [List.cons_append, seg_cons]
    constructor
    · rintro ⟨hp, t, hget, h⟩
      obtain ⟨t', h₁, h₂⟩ := ih.mp h
      exact ⟨t', ⟨hp, t, hget, h₁⟩, h₂⟩
    · rintro ⟨t', ⟨hp, t, hget, h₁⟩, h₂⟩
      exact ⟨hp, t, hget, ih.mpr ⟨t', h₁, h₂⟩⟩

/-- Away from what is changed, the cells stay linked. -/
theorem Seg.frame (h : Seg m p cs q) (hagrees : Agrees m m' is) (haway : (places cs).Disjoint is) :
    Seg m' p cs q := by
  induction cs generalizing p with
  | nil => exact h
  | cons c cs ih =>
    obtain ⟨i, b⟩ := c
    obtain ⟨hp, t, hget, hrest⟩ := h
    rw [places, List.map_cons, List.disjoint_cons_left] at haway
    exact ⟨hp, t, hagrees.get haway.1 hget, ih hrest haway.2⟩

/-- One cell changed that is not of the segment. -/
theorem Seg.set (h : Seg m p cs q) {i : Nat} (hi : i ∉ places cs) (c : Cell β) :
    Seg (m.set i c) p cs q :=
  h.frame (agrees_set m i c) (List.disjoint_singleton.mpr hi)

/-- A cell linked to a segment that is made later. -/
theorem Seg.link {r : Nat} {b : β} {c : Cell β} (hget : m[r]? = some c)
    (hagrees : Agrees (m.set r ⟨b, p⟩) m' is) (hr : r ∉ is) (h : Seg m' p cs q) :
    Seg m' (some r) ((r, b) :: cs) q :=
  ⟨rfl, p, hagrees.get hr (get_set hget _), h⟩

theorem Seg.lt_length (h : Seg m p cs q) : ∀ i ∈ places cs, i < m.length := by
  induction cs generalizing p with
  | nil => exact fun i hi => absurd hi List.not_mem_nil
  | cons c cs ih =>
    obtain ⟨i, b⟩ := c
    obtain ⟨-, t, hget, hrest⟩ := h
    rw [places, List.map_cons, List.forall_mem_cons]
    exact ⟨(List.getElem?_eq_some_iff.mp hget).1, ih hrest⟩

/-- There is room for the cells. -/
theorem Seg.length_le (h : Seg m p cs q) (hnodup : (places cs).Nodup) : cs.length ≤ m.length := by
  have hsub : places cs ⊆ List.range m.length := fun i hi => List.mem_range.mpr (h.lt_length i hi)
  have hle := (List.subperm_of_subset hnodup hsub).length_le
  rwa [places, List.length_map, List.length_range] at hle

/-- The last cell of a segment linked to another place. -/
theorem Seg.relink {i : Nat} {b : β} (h : Seg m p (cs ++ [(i, b)]) q)
    (hnodup : (places (cs ++ [(i, b)])).Nodup) (q' : Option Nat) :
    Seg (m.set i ⟨b, q'⟩) p (cs ++ [(i, b)]) q' := by
  obtain ⟨t, hcs, rfl, t', hget, -⟩ := seg_append.mp h
  have hi : i ∉ cs.map Prod.fst := by
    rw [places, List.map_append, List.nodup_append] at hnodup
    exact fun hmem => hnodup.2.2 i hmem i List.mem_cons_self rfl
  exact seg_append.mpr ⟨some i, hcs.set hi _, rfl, q', get_set hget _, rfl⟩

/-- A cell more. -/
theorem agrees_concat (m : Memory β) (c : Cell β) : Agrees m (m ++ [c]) [m.length] := by
  intro i hi
  rw [List.mem_singleton] at hi
  by_cases hlt : i < m.length
  · exact List.getElem?_append_left hlt
  · have hlen : (m ++ [c]).length ≤ i := by
      rw [List.length_append, List.length_singleton]
      omega
    rw [List.getElem?_eq_none hlen, List.getElem?_eq_none (Nat.not_lt.mp hlt)]

theorem places_append : places (cs ++ ds) = places cs ++ places ds := List.map_append

theorem places_perm (h : cs.Perm ds) : (places cs).Perm (places ds) := h.map Prod.fst

end Chains
