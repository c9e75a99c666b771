/-
  Lib/Marking.lean --- marking what references lead to, in three colours.

  A collector marks nodes, starting from some sources, and is done with a node once it has
  marked, or noted as still to be marked, all that the node refers to.  A node is then white (not
  marked), grey (marked, but not done with) or black (done with).

  `TriColour` is what holds all the while: what is marked was found, and what a black node refers
  to is marked or noted.  When nothing is noted and nothing is grey any more, all that references
  lead to from the sources is black, and what is black was found.

  Some nodes may be marked before it begins.  Nothing is asked of them: `refers` is to say
  nothing of what they refer to.
-/
import Mathlib.Logic.Relation

set_option autoImplicit false

namespace Marking

variable {N : Type}

/-- References lead from a source to the node. -/
def Reached (refers : N → N → Prop) (source : N → Prop) (n : N) : Prop :=
  ∃ s, source s ∧ Relation.ReflTransGen refers s n

namespace Reached

variable {refers refers' : N → N → Prop} {source source' : N → Prop} {m n : N}

theorem of_source (h : source n) : Reached refers source n := ⟨n, h, .refl⟩

theorem tail (h : Reached refers source m) (hr : refers m n) : Reached refers source n := by
  obtain ⟨s, hs, hm⟩ := h
  exact ⟨s, hs, hm.tail hr⟩

theorem mono (hr : ∀ m n, refers m n → refers' m n) (hs : ∀ s, source s → source' s)
    (h : Reached refers source n) : Reached refers' source' n := by
  obtain ⟨s, h, hn⟩ := h
  exact ⟨s, hs s h, Relation.ReflTransGen.mono hr _ _ hn⟩

/-- What holds of the sources and goes along the references holds of all that is reached. -/
theorem holds {P : N → Prop} (hs : ∀ s, source s → P s) (hr : ∀ m n, P m → refers m n → P n)
    (h : Reached refers source n) : P n := by
  obtain ⟨s, h, hn⟩ := h
  induction hn with
  | refl => exact hs s h
  | tail _ hr' ih => exact hr _ _ ih hr'

end Reached

/-- What holds while nodes are marked: `was` had a mark before it began, `todo` is noted, and
`found` is what may be marked. -/
structure TriColour (refers : N → N → Prop) (source found was marked black todo : N → Prop) :
    Prop where
  before : ∀ n, was n → black n
  done : ∀ n, black n → marked n
  sound : ∀ n, marked n → was n ∨ found n
  noted : ∀ n, todo n → found n
  begun : ∀ n, source n → marked n ∨ todo n
  closed : ∀ m n, black m → refers m n → marked n ∨ todo n

namespace TriColour

variable {refers refers' : N → N → Prop}
  {source found was marked black todo source' found' marked' black' todo' : N → Prop} {a : N}

/-- It begins with the sources noted and nothing else marked. -/
theorem start (hb : ∀ n, was n → black n) (hd : ∀ n, black n → marked n)
    (hm : ∀ n, marked n → was n) (hr : ∀ m n, refers m n → ¬ was m)
    (hs : ∀ n, source n → todo n) (hf : ∀ n, todo n → found n) :
    TriColour refers source found was marked black todo where
  before := hb
  done := hd
  sound n h := .inl (hm n h)
  noted := hf
  begun n h := .inr (hs n h)
  closed m n h hn := absurd (hm m (hd m h)) (hr m n hn)

/-- More is noted, and what is noted or marked may be a source. -/
theorem ask (h : TriColour refers source found was marked black todo)
    (hs : ∀ n, source' n → source n ∨ marked n ∨ todo' n) (hf : ∀ n, found n → found' n)
    (ht : ∀ n, todo n → todo' n) (hn : ∀ n, todo' n → found' n) :
    TriColour refers source' found' was marked black todo' := by
  constructor
  · exact h.before
  · exact h.done
  · intro n h'
    exact (h.sound n h').imp_right (hf n)
  · exact hn
  · intro n h'
    obtain h' | h' := hs n h'
    · exact (h.begun n h').imp_right (ht n)
    · exact h'
  · intro m n hm hr
    exact (h.closed m n hm hr).imp_right (ht n)

/-- Nodes may refer to less. -/
theorem forget (h : TriColour refers source found was marked black todo)
    (hr : ∀ m n, refers' m n → refers m n) :
    TriColour refers' source found was marked black todo where
  before := h.before
  done := h.done
  sound := h.sound
  noted := h.noted
  begun := h.begun
  closed m n hm hmn := h.closed m n hm (hr m n hmn)

/-- What is marked need not be noted. -/
theorem drop (h : TriColour refers source found was marked black todo) (todo' : N → Prop)
    (ht : ∀ n, todo' n → todo n) (hm : ∀ n, todo n → marked n ∨ todo' n) :
    TriColour refers source found was marked black todo' := by
  have settle : ∀ n, marked n ∨ todo n → marked n ∨ todo' n := by
    intro n h'
    obtain h' | h' := h'
    · exact .inl h'
    · exact hm n h'
  constructor
  · exact h.before
  · exact h.done
  · exact h.sound
  · intro n h'
    exact h.noted n (ht n h')
  · intro n h'
    exact settle n (h.begun n h')
  · intro m n h' hr
    exact settle n (h.closed m n h' hr)

/-- A node that was found is marked. -/
theorem shade (h : TriColour refers source found was marked black todo) (ha : found a)
    (hm : ∀ n, marked' n ↔ marked n ∨ n = a) :
    TriColour refers source found was marked' black todo := by
  have grow : ∀ n, marked n → marked' n := fun n h' => (hm n).mpr (.inl h')
  constructor
  · exact h.before
  · intro n h'
    exact grow n (h.done n h')
  · intro n h'
    obtain h' | rfl := (hm n).mp h'
    · exact h.sound n h'
    · exact .inr ha
  · exact h.noted
  · intro n h'
    exact (h.begun n h').imp_left (grow n)
  · intro m n h' hr
    exact (h.closed m n h' hr).imp_left (grow n)

/-- A marked node is done with, once what it refers to is noted. -/
theorem blacken (h : TriColour refers source found was marked black todo) (todo' : N → Prop)
    (ha : marked a)
    (hf : ∀ n, refers a n → found n) (hb : ∀ n, black' n ↔ black n ∨ n = a)
    (ht : ∀ n, todo' n ↔ todo n ∨ refers a n) :
    TriColour refers source found was marked black' todo' := by
  have grow : ∀ n, todo n → todo' n := fun n h' => (ht n).mpr (.inl h')
  constructor
  · intro n h'
    exact (hb n).mpr (.inl (h.before n h'))
  · intro n h'
    obtain h' | rfl := (hb n).mp h'
    · exact h.done n h'
    · exact ha
  · exact h.sound
  · intro n h'
    obtain h' | h' := (ht n).mp h'
    · exact h.noted n h'
    · exact hf n h'
  · intro n h'
    exact (h.begun n h').imp_right (grow n)
  · intro m n h' hmn
    obtain h' | rfl := (hb m).mp h'
    · exact (h.closed m n h' hmn).imp_right (grow n)
    · exact .inr ((ht n).mpr (.inr hmn))

/-- At the end, all that is reached is black. -/
theorem black_of_reached (h : TriColour refers source found was marked black fun _ => False)
    (hd : ∀ n, marked n → black n) {n : N} (hn : Reached refers source n) : black n := by
  refine hn.holds ?_ ?_
  · intro s hs
    exact hd s ((h.begun s hs).resolve_right id)
  · intro m n hm hmn
    exact hd n ((h.closed m n hm hmn).resolve_right id)

end TriColour

end Marking
