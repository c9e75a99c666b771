/-
  Lib/Linearise.lean --- merging several orders, given as lists, into one list.

  Each list of a family puts its members in an order.  A linearisation of the
  family is one list without repetitions that holds exactly their members and
  keeps the order of each.  There is one if and only if the orders together have
  no cycle.  A merge builds it from the front: it takes a head that is in no tail,
  drops it from the lists it heads and goes on.  `exists_candidate` says that a
  family without a cycle always has such a head, `Linearises.cons` that taking it
  is right, and `acyclic_of_keeps` that a family whose orders one list keeps has no
  cycle.
-/
import Mathlib.Data.List.Nodup
import Mathlib.Logic.Relation
import Mathlib.Order.WellFoundedSet
import Mathlib.Data.Set.Finite.List

set_option autoImplicit false

namespace Linearise

variable {α : Type}

/-- `a` stands before an occurrence of `b` in one of the lists. -/
def Precedes (L : List (List α)) (a b : α) : Prop :=
  ∃ l ∈ L, List.Sublist [a, b] l

/-- The orders of the lists together have a cycle. -/
def Cyclic (L : List (List α)) : Prop :=
  ∃ a, Relation.TransGen (Precedes L) a a

/-- `out` holds the members of the lists, each once, and keeps the order of every
list. -/
structure Linearises (L : List (List α)) (out : List α) : Prop where
  nodup : out.Nodup
  members : ∀ a, a ∈ out ↔ ∃ l ∈ L, a ∈ l
  keeps : ∀ l ∈ L, l.Sublist out

/-- `c` is in no tail of the lists. -/
def InNoTail (L : List (List α)) (c : α) : Prop :=
  ∀ l ∈ L, c ∉ l.tail

theorem Precedes.mem_left {L : List (List α)} {a b : α} (h : Precedes L a b) :
    ∃ l ∈ L, a ∈ l := by
  obtain ⟨l, hl, hab⟩ := h
  exact ⟨l, hl, hab.subset (by simp)⟩

/-- The orders of lists that are parts of others are among those of the others. -/
theorem Precedes.mono {L M : List (List α)} {a b : α}
    (hLM : ∀ l ∈ L, ∃ m ∈ M, l.Sublist m) (h : Precedes L a b) : Precedes M a b := by
  obtain ⟨l, hl, hab⟩ := h
  obtain ⟨m, hm, hlm⟩ := hLM l hl
  exact ⟨m, hm, hab.trans hlm⟩

theorem Cyclic.mono {L M : List (List α)} (hLM : ∀ l ∈ L, ∃ m ∈ M, l.Sublist m)
    (h : Cyclic L) : Cyclic M := by
  obtain ⟨a, ha⟩ := h
  have hle : Precedes L ≤ Precedes M := fun _ _ hab => hab.mono hLM
  exact ⟨a, Relation.TransGen.mono hle _ _ ha⟩

/-! ## A linearisation excludes a cycle -/

/-- In a list without repetitions "stands before" is transitive. -/
theorem sublist_pair_trans {out : List α} (hnodup : out.Nodup) {a b c : α}
    (hab : List.Sublist [a, b] out) (hbc : List.Sublist [b, c] out) :
    List.Sublist [a, c] out := by
  induction out with
  | nil => simp at hab
  | cons x out ih =>
    obtain ⟨hx, hout⟩ := List.nodup_cons.mp hnodup
    -- `b` is not the head of the list: it stands behind `a`
    have hb : b ∈ out := by
      cases hab with
      | cons _ h => exact h.subset (by simp)
      | cons_cons _ h => exact h.subset (by simp)
    have hbc' : List.Sublist [b, c] out := by
      cases hbc with
      | cons _ h => exact h
      | cons_cons _ h => exact absurd hb hx
    cases hab with
    | cons _ h => exact (ih hout h hbc').cons x
    | cons_cons _ h =>
      have hc : c ∈ out := hbc'.subset (by simp)
      exact (List.singleton_sublist.mpr hc).cons_cons _

/-- A family whose orders a list without repetitions keeps has no cycle. -/
theorem acyclic_of_keeps {L : List (List α)} {out : List α} (hnodup : out.Nodup)
    (hkeeps : ∀ l ∈ L, l.Sublist out) : ¬ Cyclic L := by
  rintro ⟨a, ha⟩
  have hbefore : ∀ {b c}, Relation.TransGen (Precedes L) b c → List.Sublist [b, c] out := by
    intro b c hbc
    induction hbc with
    | single hbc =>
      obtain ⟨l, hl, hsub⟩ := hbc
      exact hsub.trans (hkeeps l hl)
    | tail _ hcd ih =>
      obtain ⟨l, hl, hsub⟩ := hcd
      exact sublist_pair_trans hnodup ih (hsub.trans (hkeeps l hl))
  exact List.nodup_iff_sublist.mp hnodup a (hbefore ha)

/-! ## A family without a cycle has a candidate -/

/-- Among finitely many members one has no other before it. -/
theorem exists_minimal {L : List (List α)} (hacyclic : ¬ Cyclic L)
    (hne : ∃ l ∈ L, l ≠ []) :
    ∃ m, (∃ l ∈ L, m ∈ l) ∧ ∀ a, ¬ Precedes L a m := by
  let members : Set α := {a | ∃ l ∈ L, a ∈ l}
  have hfinite : members.Finite := by
    refine (List.finite_toSet L.flatten).subset fun a ha => ?_
    obtain ⟨l, hl, hal⟩ := ha
    exact List.mem_flatten.mpr ⟨l, hl, hal⟩
  have : IsStrictOrder α (Relation.TransGen (Precedes L)) :=
    { irrefl := fun a ha => hacyclic ⟨a, ha⟩
      trans := fun _ _ _ hab hbc => hab.trans hbc }
  have hwf : members.WellFoundedOn (Relation.TransGen (Precedes L)) := hfinite.wellFoundedOn
  obtain ⟨l, hl, hlne⟩ := hne
  obtain ⟨x, hx⟩ := List.exists_mem_of_ne_nil l hlne
  obtain ⟨⟨m, hm⟩, -, hmin⟩ :=
    WellFounded.has_min hwf Set.univ ⟨⟨x, l, hl, hx⟩, Set.mem_univ _⟩
  refine ⟨m, hm, fun a ha => ?_⟩
  exact hmin ⟨a, ha.mem_left⟩ (Set.mem_univ _) (Relation.TransGen.single ha)

/-- A family without a cycle that is not exhausted has a head that is in no tail. -/
theorem exists_candidate {L : List (List α)} (hacyclic : ¬ Cyclic L)
    (hne : ∃ l ∈ L, l ≠ []) :
    ∃ c, (∃ l ∈ L, l.head? = some c) ∧ InNoTail L c := by
  obtain ⟨m, ⟨l, hl, hml⟩, hmin⟩ := exists_minimal hacyclic hne
  have htail : InNoTail L m := by
    intro k hk hmk
    cases k with
    | nil => simp at hmk
    | cons y ys =>
      exact hmin y ⟨y :: ys, hk, (List.singleton_sublist.mpr hmk).cons_cons y⟩
  refine ⟨m, ⟨l, hl, ?_⟩, htail⟩
  cases l with
  | nil => simp at hml
  | cons y ys =>
    rcases List.mem_cons.mp hml with rfl | hm
    · rfl
    · exact absurd hm (htail _ hl)

/-! ## Taking a candidate -/

section Drop

variable [DecidableEq α]

/-- The list less its head, where that is `c`. -/
def dropHead (c : α) (l : List α) : List α :=
  if l.head? = some c then l.tail else l

theorem dropHead_sublist (c : α) (l : List α) : (dropHead c l).Sublist l := by
  unfold dropHead
  split
  · exact List.tail_sublist l
  · exact List.Sublist.refl l

theorem not_mem_dropHead {L : List (List α)} {c : α} (h : InNoTail L c) {l : List α}
    (hl : l ∈ L) : c ∉ dropHead c l := by
  unfold dropHead
  split
  · exact h l hl
  · rename_i hhead
    cases l with
    | nil => simp
    | cons y ys =>
      have hne : c ≠ y := fun hcy => hhead (by simp [hcy])
      simpa [hne] using h (y :: ys) hl

theorem sublist_cons_dropHead (c : α) (l : List α) : l.Sublist (c :: dropHead c l) := by
  unfold dropHead
  split
  · rename_i hhead
    cases l with
    | nil => simp at hhead
    | cons y ys =>
      obtain rfl : y = c := by simpa using hhead
      exact List.Sublist.refl _
  · exact List.sublist_cons_self c l

/-- The candidate in front of a linearisation of what is left linearises the family. -/
theorem Linearises.cons {L : List (List α)} {c : α} {out : List α}
    (hhead : ∃ l ∈ L, l.head? = some c) (htail : InNoTail L c)
    (h : Linearises (L.map (dropHead c)) out) : Linearises L (c :: out) := by
  have hmember : ∀ a, a ∈ out ↔ ∃ l ∈ L, a ∈ dropHead c l := by
    intro a
    simp [h.members]
  refine ⟨?_, ?_, ?_⟩
  · refine List.nodup_cons.mpr ⟨fun hc => ?_, h.nodup⟩
    obtain ⟨l, hl, hcl⟩ := (hmember c).mp hc
    exact not_mem_dropHead htail hl hcl
  · intro a
    rw [List.mem_cons, hmember]
    constructor
    · rintro (rfl | ⟨l, hl, ha⟩)
      · obtain ⟨l, hl, hlc⟩ := hhead
        exact ⟨l, hl, List.mem_of_mem_head? hlc⟩
      · exact ⟨l, hl, (dropHead_sublist c l).subset ha⟩
    · rintro ⟨l, hl, ha⟩
      rcases List.mem_cons.mp ((sublist_cons_dropHead c l).subset ha) with rfl | ha'
      · exact Or.inl rfl
      · exact Or.inr ⟨l, hl, ha'⟩
  · intro l hl
    have hkeep : (dropHead c l).Sublist out := h.keeps _ (List.mem_map_of_mem hl)
    exact (sublist_cons_dropHead c l).trans (hkeep.cons_cons c)

/-- The lists that are left have no orders that the family does not have. -/
theorem Cyclic.of_dropHead {L : List (List α)} {c : α} (h : Cyclic (L.map (dropHead c))) :
    Cyclic L := by
  refine h.mono fun l hl => ?_
  obtain ⟨m, hm, rfl⟩ := List.mem_map.mp hl
  exact ⟨m, hm, dropHead_sublist c m⟩

/-- Taking a head makes the lists shorter. -/
theorem length_flatten_dropHead {L : List (List α)} {c : α}
    (hhead : ∃ l ∈ L, l.head? = some c) :
    (L.map (dropHead c)).flatten.length < L.flatten.length := by
  have hle : ∀ M : List (List α), (M.map (dropHead c)).flatten.length ≤ M.flatten.length := by
    intro M
    induction M with
    | nil => simp
    | cons l M ih =>
      have hl := (dropHead_sublist c l).length_le
      simp only [List.map_cons, List.flatten_cons, List.length_append]
      omega
  obtain ⟨l, hl, hlc⟩ := hhead
  obtain ⟨before, after, rfl⟩ := List.append_of_mem hl
  have hlt : (dropHead c l).length < l.length := by
    cases l with
    | nil => simp at hlc
    | cons y ys => simp [dropHead, hlc]
  have hb := hle before
  have ha := hle after
  simp only [List.map_append, List.map_cons, List.flatten_append, List.flatten_cons,
    List.length_append]
  omega

end Drop

/-- A family of exhausted lists is linearised by the empty list. -/
theorem linearises_nil {L : List (List α)} (h : ∀ l ∈ L, l = []) : Linearises L [] := by
  refine ⟨List.nodup_nil, fun a => ?_, fun l hl => ?_⟩
  · constructor
    · intro ha
      simp at ha
    · rintro ⟨l, hl, ha⟩
      simp [h l hl] at ha
  · rw [h l hl]

end Linearise
