/-
  CharSet/Planes.lean --- what the loops over the planes leave.

  `members` is the set that a character set stands for.  A write to a bitset is a write
  to every plane that is this bitset: `Alone` says that there is one only.
-/
import Mathlib.Data.Set.Insert
import Idio.CharSet.Basic

set_option autoImplicit false

namespace Idio.CharSet

/-! ## Members -/

/-- The bitset of plane `i` of the character set at `a`. -/
def Store.plane (st : Store) (a i : Nat) : Option Nat :=
  (st.charSets[a]?.map fun cs => cs.planes.getD i none).getD none

/-- Bit `b` of the bitset at a place, if there is one. -/
def Store.bit (st : Store) (p : Option Nat) (b : Nat) : Bool :=
  ((p.bind (st.bitsets[·]?)).map (·.bit b)).getD false

/-- The code points of the character set at `a`. -/
def Store.members (st : Store) (a : Nat) : Set Nat :=
  {cp | st.bit (st.plane a (cp / unicodePlaneSize)) (cp % unicodePlaneSize) = true}

theorem Store.mem_members {st : Store} {a cp : Nat} : cp ∈ st.members a ↔
    st.bit (st.plane a (cp / unicodePlaneSize)) (cp % unicodePlaneSize) = true := Iff.rfl

instance (st : Store) (a cp : Nat) : Decidable (cp ∈ st.members a) :=
  decidable_of_iff _ Store.mem_members.symm

/-- Character sets of the full size, with their planes in place. -/
structure Store.Good (st : Store) : Prop where
  sizes : ∀ cs ∈ st.charSets, cs.size = unicodeSize ∧ cs.planes.length = unicodePlaneCount
  places : ∀ a i x, st.plane a i = some x → x < st.bitsets.length
  bitsets : ∀ bs ∈ st.bitsets, bs.size = unicodePlaneSize
  empty : st.empty < st.charSets.length
  full : st.full < st.charSets.length

theorem div_lt_planes {cp : Nat} (h : cp < unicodeSize) : cp / unicodePlaneSize < unicodePlaneCount :=
  Nat.div_lt_of_lt_mul (by rwa [Nat.mul_comm])

theorem mod_lt_plane (cp : Nat) : cp % unicodePlaneSize < unicodePlaneSize :=
  Nat.mod_lt _ (by decide)

section Access

variable {st : Store}

theorem Store.Good.charSet (h : st.Good) {a : Nat} (ha : a < st.charSets.length) :
    ∃ cs, st.charSet a = .ok cs ∧ st.charSets[a]? = some cs ∧ cs.size = unicodeSize ∧
      cs.planes.length = unicodePlaneCount := by
  have hcs := List.getElem?_eq_getElem ha
  refine ⟨st.charSets[a], by rw [Store.charSet, hcs], hcs, ?_⟩
  exact h.sizes _ (List.getElem_mem ha)

theorem Store.Good.planeRef (h : st.Good) {a i : Nat} (ha : a < st.charSets.length)
    (hi : i < unicodePlaneCount) : st.planeRef a i = .ok (st.plane a i) := by
  obtain ⟨cs, hcs, hcs', -, hlen⟩ := h.charSet ha
  have hp : cs.planes[i]? = some cs.planes[i] := List.getElem?_eq_getElem (by omega)
  rw [Store.planeRef, hcs, ok_bind, hp, Store.plane, hcs', Option.map_some, Option.getD_some,
    List.getD_eq_getElem?_getD, hp, Option.getD_some]

theorem Store.plane_of_le {a i : Nat} (h : st.Good) (hi : unicodePlaneCount ≤ i) :
    st.plane a i = none := by
  rw [Store.plane]
  cases hcs : st.charSets[a]? with
  | none => rfl
  | some cs =>
    have hlen := (h.sizes cs (List.mem_of_getElem? hcs)).2
    rw [Option.map_some, Option.getD_some, List.getD_eq_default _ _ (by omega)]

theorem Store.Good.lt_unicodeSize (h : st.Good) {a cp : Nat} (hcp : cp ∈ st.members a) :
    cp < unicodeSize := by
  by_contra hge
  have hdiv : unicodePlaneCount ≤ cp / unicodePlaneSize :=
    (Nat.le_div_iff_mul_le (by decide)).mpr (Nat.not_lt.mp hge)
  rw [Store.mem_members, st.plane_of_le h hdiv] at hcp
  cases hcp

theorem Store.Good.bitset (h : st.Good) {x : Nat} (hx : x < st.bitsets.length) :
    ∃ bs, st.bitset x = .ok bs ∧ bs.size = unicodePlaneSize ∧ ∀ b, st.bit (some x) b = bs.bit b := by
  have hbs := List.getElem?_eq_getElem hx
  refine ⟨st.bitsets[x], by rw [Store.bitset, hbs], h.bitsets _ (List.getElem_mem hx), fun b => ?_⟩
  rw [Store.bit, Option.bind_some, hbs]
  rfl

theorem Store.Good.planeSet (h : st.Good) {a i : Nat} {p : Option Nat}
    (ha : a < st.charSets.length) (hi : i < unicodePlaneCount)
    (hp : ∀ x, p = some x → x < st.bitsets.length) :
    ∃ st', st.planeSet a i p = .ok st' ∧ st'.Good ∧ st'.bitsets = st.bitsets ∧
      st'.charSets.length = st.charSets.length ∧ st'.empty = st.empty ∧ st'.full = st.full ∧
      ∀ b j, st'.plane b j = if b = a ∧ j = i then p else st.plane b j := by
  obtain ⟨cs, hcs, hcs', hsize, hlen⟩ := h.charSet ha
  have hplane : ∀ b j, Store.plane { st with
      charSets := st.charSets.set a { cs with planes := cs.planes.set i p } } b j =
        if b = a ∧ j = i then p else st.plane b j := by
    intro b j
    rw [Store.plane, Store.plane]
    by_cases hb : b = a
    · subst hb
      rw [List.getElem?_set_self ha, hcs', Option.map_some, Option.map_some, Option.getD_some,
        Option.getD_some, List.getD_eq_getElem?_getD, List.getD_eq_getElem?_getD]
      by_cases hj : j = i
      · rw [hj, List.getElem?_set_self (by omega), if_pos ⟨rfl, rfl⟩, Option.getD_some]
      · rw [List.getElem?_set_ne (Ne.symm hj), if_neg fun hij => hj hij.2]
    · rw [List.getElem?_set_ne (Ne.symm hb), if_neg fun hij => hb hij.1]
  refine ⟨{ st with charSets := st.charSets.set a { cs with planes := cs.planes.set i p } },
    by rw [Store.planeSet, hcs, ok_bind, if_pos (by omega)], ?_, rfl, List.length_set .., rfl, rfl,
    hplane⟩
  refine ⟨?_, ?_, h.bitsets, ?_, ?_⟩
  · intro cs' hmem
    rcases List.mem_or_eq_of_mem_set hmem with hmem | rfl
    · exact h.sizes cs' hmem
    · exact ⟨hsize, by rw [List.length_set, hlen]⟩
  · intro b j x hx
    rw [hplane] at hx
    split at hx
    · exact hp x hx
    · exact h.places b j x hx
  · rw [List.length_set]
    exact h.empty
  · rw [List.length_set]
    exact h.full

/-- New bitsets leave what there was. -/
theorem Store.bit_of_prefix {st' : Store} (h : st.bitsets <+: st'.bitsets) {p : Option Nat}
    (hp : ∀ x, p = some x → x < st.bitsets.length) (b : Nat) : st'.bit p b = st.bit p b := by
  cases p with
  | none => rfl
  | some x =>
    rw [Store.bit, Store.bit, Option.bind_some, Option.bind_some,
      List.prefix_iff_getElem?.mp h x (hp x rfl), List.getElem?_eq_getElem (hp x rfl)]

/-- What a new bitset adds. -/
structure Store.Adds (st st' : Store) : Prop where
  good : st'.Good
  charSets : st'.charSets = st.charSets
  empty : st'.empty = st.empty
  full : st'.full = st.full
  bitsets : st.bitsets <+: st'.bitsets

theorem Store.Good.adds_refl (h : st.Good) : st.Adds st := ⟨h, rfl, rfl, rfl, List.prefix_rfl⟩

theorem Store.Good.addBitset (h : st.Good) {bs : Bitset} (hbs : bs.size = unicodePlaneSize) :
    st.Adds (st.addBitset bs).2 ∧ st.bitsets.length < (st.addBitset bs).2.bitsets.length ∧
      ∀ b, (st.addBitset bs).2.bit (st.addBitset bs).1 b = bs.bit b := by
  refine ⟨⟨⟨h.sizes, ?_, ?_, h.empty, h.full⟩, rfl, rfl, rfl, List.prefix_append ..⟩, ?_, ?_⟩
  · intro a i x hx
    have hlt := h.places a i x hx
    simp only [Store.addBitset, List.length_append]
    omega
  · intro bs' hbs'
    rcases List.mem_append.mp hbs' with hbs' | hbs'
    · exact h.bitsets bs' hbs'
    · rw [List.mem_singleton.mp hbs', hbs]
  · simp [Store.addBitset]
  · intro b
    simp [Store.addBitset, Store.bit]

end Access

/-! ## The loops -/

section Loops

variable {st st' : Store} {r : Nat}

/-- After the planes below `m` of the character set at `r`. -/
structure Store.After (st : Store) (r m : Nat) (st' : Store) : Prop where
  good : st'.Good
  length : st'.charSets.length = st.charSets.length
  empty : st'.empty = st.empty
  full : st'.full = st.full
  bitsets : st.bitsets <+: st'.bitsets
  planes : ∀ b j, b ≠ r ∨ m ≤ j → st'.plane b j = st.plane b j

/-- A character set that no step of the loop is about. -/
theorem Store.After.members {m : Nat} (h : st.After r m st') (hgood : st.Good) {b : Nat} (hb : b ≠ r) :
    st'.members b = st.members b := by
  ext cp
  rw [Store.mem_members, Store.mem_members, h.planes b _ (.inl hb),
    Store.bit_of_prefix h.bitsets (hgood.places b _)]

theorem Store.planesLoop_succ (n : Nat) (body : Nat → Store → Result (Option Nat × Store)) :
    st.planesLoop r (n + 1) body = st.planesLoop r n body >>= fun st =>
      body (n + 1) st >>= fun p => p.2.planeSet r (n + 1) p.1 := by
  rw [Store.planesLoop, List.range_succ, List.foldlM_append, Store.planesLoop]
  simp

/-- The plane that one step made: with these bits, in place, `#f` in some cases only, and a
new one if all are. -/
structure Store.Made (st : Store) (fresh absent : Prop) (k : Nat → Bool) (q : Option Nat)
    (st' : Store) : Prop where
  adds : st.Adds st'
  place : ∀ x, q = some x → x < st'.bitsets.length
  absent : q = none → absent
  bits : ∀ b < unicodePlaneSize, st'.bit q b = k b
  fresh : fresh → ∀ x, q = some x → st.bitsets.length ≤ x

/-- Planes of the character set at `r` that are bitsets of its own, made since `st`. -/
def Store.Owned (st : Store) (r m : Nat) (st' : Store) : Prop :=
  ∀ i < m, ∀ x, st'.plane r i = some x →
    st.bitsets.length ≤ x ∧ ∀ j < m, st'.plane r j = some x → j = i

/-- What the planes below `m` of the character set at `r` are after a loop. -/
structure Store.Filled (st : Store) (fresh : Prop) (absent : Nat → Prop) (k : Nat → Nat → Bool)
    (r m : Nat) (st' : Store) : Prop extends st.After r m st' where
  bits : ∀ j < m, ∀ b < unicodePlaneSize, st'.bit (st'.plane r j) b = k j b
  absent : ∀ j < m, st'.plane r j = none → absent j
  owned : fresh → st.Owned r m st'

theorem Store.loop_step {fresh : Prop} {absent : Nat → Prop} {k : Nat → Nat → Bool} {i : Nat}
    {st₁ st₂ : Store} {q : Option Nat} (hr : r < st.charSets.length) (hi : i < unicodePlaneCount)
    (h : st.Filled fresh absent k r i st₁) (hq : st₁.Made fresh (absent i) (k i) q st₂) :
    ∃ st₃, st₂.planeSet r i q = .ok st₃ ∧ st.Filled fresh absent k r (i + 1) st₃ := by
  obtain ⟨hgood, hcss, hempty, hfull, hbitsets⟩ := hq.adds
  have hr₂ : r < st₂.charSets.length := by rw [hcss, h.length]; exact hr
  obtain ⟨st₃, hset, hgood₃, hbits₃, hlen₃, hempty₃, hfull₃, hplane⟩ :=
    hgood.planeSet hr₂ hi hq.place
  have hold : ∀ b j, ¬ (b = r ∧ j = i) → st₃.plane b j = st₁.plane b j := by
    intro b j hbj
    rw [hplane, if_neg hbj, Store.plane, hcss, Store.plane]
  have hnew : st₃.plane r i = q := by rw [hplane, if_pos ⟨rfl, rfl⟩]
  have hprefix : st₁.bitsets <+: st₃.bitsets := by rw [hbits₃]; exact hbitsets
  have hbit : ∀ p b, st₃.bit p b = st₂.bit p b := fun p b => by
    rw [Store.bit, hbits₃, Store.bit]
  refine ⟨st₃, hset, ⟨hgood₃, ?_, hempty₃.trans (hempty.trans h.empty),
    hfull₃.trans (hfull.trans h.full), h.bitsets.trans hprefix, ?_⟩, ?_, ?_, ?_⟩
  · rw [hlen₃, hcss, h.length]
  · intro b j hbj
    rw [hold b j (by omega), h.planes b j (by omega)]
  · intro j hj b hb
    by_cases hji : j = i
    · rw [hji, hnew, hbit, hq.bits b hb]
    · rw [hold r j (by omega), Store.bit_of_prefix hprefix (h.good.places r j),
        h.bits j (by omega) b hb]
  · intro j hj hnone
    by_cases hji : j = i
    · rw [hji, hnew] at hnone
      rw [hji]
      exact hq.absent hnone
    · rw [hold r j (by omega)] at hnone
      exact h.absent j (by omega) hnone
  · intro hfresh j hj x hx
    have hlen : st.bitsets.length ≤ st₁.bitsets.length := h.bitsets.length_le
    by_cases hji : j = i
    · -- the new plane lies beyond every plane that the loop has made
      subst hji
      rw [hnew] at hx
      have hge := hq.fresh hfresh x hx
      refine ⟨by omega, fun j' hj' hx' => ?_⟩
      by_contra hne
      rw [hold r j' (by omega)] at hx'
      have hlt := h.good.places r j' x hx'
      omega
    · rw [hold r j (by omega)] at hx
      obtain ⟨hge, huniq⟩ := h.owned hfresh j (by omega) x hx
      refine ⟨hge, fun j' hj' hx' => ?_⟩
      by_cases hji' : j' = i
      · subst hji'
        rw [hnew] at hx'
        have hge' := hq.fresh hfresh x hx'
        have hlt := h.good.places r j x hx
        omega
      · rw [hold r j' (by omega)] at hx'
        exact huniq j' (by omega) hx'

/-- A loop whose step at plane `i` makes the bits `k i`. -/
theorem Store.planesLoop_spec {fresh : Prop} {absent : Nat → Prop} {k : Nat → Nat → Bool}
    {body : Nat → Store → Result (Option Nat × Store)} (hgood : st.Good)
    (hr : r < st.charSets.length)
    (hbody : ∀ i < unicodePlaneCount, ∀ st₁, st.After r i st₁ →
      ∃ q st₂, body i st₁ = .ok (q, st₂) ∧ st₁.Made fresh (absent i) (k i) q st₂) {n : Nat}
    (hn : n < unicodePlaneCount) :
    ∃ st', st.planesLoop r n body = .ok st' ∧ st.Filled fresh absent k r (n + 1) st' := by
  induction n with
  | zero =>
    have hafter : st.After r 0 st := ⟨hgood, rfl, rfl, rfl, List.prefix_rfl, fun _ _ _ => rfl⟩
    have hfilled : st.Filled fresh absent k r 0 st :=
      ⟨hafter, fun j hj => absurd hj (Nat.not_lt_zero j), fun j hj => absurd hj (Nat.not_lt_zero j),
        fun _ j hj => absurd hj (Nat.not_lt_zero j)⟩
    obtain ⟨q, st₂, hrun, hmade⟩ := hbody 0 hn st hafter
    obtain ⟨st', hset, hfilled'⟩ := Store.loop_step hr hn hfilled hmade
    refine ⟨st', ?_, hfilled'⟩
    simp [Store.planesLoop, hrun, hset]
  | succ n ih =>
    obtain ⟨st₁, hloop, hfilled⟩ := ih (by omega)
    obtain ⟨q, st₂, hrun, hmade⟩ := hbody (n + 1) hn st₁ hfilled.toAfter
    obtain ⟨st', hset, hfilled'⟩ := Store.loop_step hr hn hfilled hmade
    exact ⟨st', by rw [Store.planesLoop_succ, hloop, ok_bind, hrun, ok_bind, hset], hfilled'⟩

end Loops

end Idio.CharSet
