/-
  CharSet/Sets.lean --- the operations as operations on sets.

  One theorem for each function of the library: which set its result stands for, and
  that every other character set stands for what it did.
-/
import Mathlib.Order.SymmDiff
import Idio.CharSet.Planes

set_option autoImplicit false

namespace Idio.CharSet

/-! ## Results -/

/-- Plane `i` of the character set at `a` is the only plane that is its bitset. -/
def Store.Alone (st : Store) (a i : Nat) : Prop :=
  ∀ x, st.plane a i = some x → ∀ b j, st.plane b j = some x → b = a ∧ j = i

/-- What a function leaves that only makes things. -/
structure Store.Keeps (st st' : Store) : Prop where
  good : st'.Good
  length : st.charSets.length ≤ st'.charSets.length
  empty : st'.empty = st.empty
  full : st'.full = st.full
  members : ∀ b < st.charSets.length, st'.members b = st.members b

theorem Store.Good.keeps_refl {st : Store} (h : st.Good) : st.Keeps st :=
  ⟨h, Nat.le_refl _, rfl, rfl, fun _ _ => rfl⟩

/-- The members of the character set at `a` become `E`, and nothing else changes. -/
structure Store.Becomes (st : Store) (a : Nat) (E : Set Nat) (st' : Store) : Prop where
  good : st'.Good
  length : st'.charSets.length = st.charSets.length
  empty : st'.empty = st.empty
  full : st'.full = st.full
  members : st'.members a = E
  others : ∀ b, b ≠ a → st'.members b = st.members b

theorem Store.Becomes.trans {st₁ st₂ st₃ : Store} {a : Nat} {E E' : Set Nat}
    (h : st₁.Becomes a E st₂) (h' : st₂.Becomes a E' st₃) : st₁.Becomes a E' st₃ where
  good := h'.good
  length := h'.length.trans h.length
  empty := h'.empty.trans h.empty
  full := h'.full.trans h.full
  members := h'.members
  others := fun b hb => (h'.others b hb).trans (h.others b hb)

/-- A new character set that has become something is still new. -/
theorem Store.Keeps.becomes {st st₁ st₂ : Store} {a : Nat} {E : Set Nat} (h : st.Keeps st₁)
    (hnew : st.charSets.length ≤ a) (h' : st₁.Becomes a E st₂) : st.Keeps st₂ where
  good := h'.good
  length := h'.length ▸ h.length
  empty := h'.empty.trans h.empty
  full := h'.full.trans h.full
  members := fun b hb => (h'.others b (by omega)).trans (h.members b hb)

/-- A function that makes a character set with the members `E`, or returns one. -/
def Makes (st : Store) (r : Result (Nat × Store)) (E : Set Nat) : Prop :=
  ∃ a st', r = .ok (a, st') ∧ st.Keeps st' ∧ a < st'.charSets.length ∧ st'.members a = E

section Planes

variable {st : Store} {r : Nat}

theorem Store.Good.countPlanes (h : st.Good) {a : Nat} (ha : a < st.charSets.length) :
    st.countPlanes a = .ok 16 := by
  obtain ⟨cs, hcs, -, hsize, -⟩ := h.charSet ha
  rw [Store.countPlanes, hcs, ok_bind, hsize]
  rfl

theorem members_eq {st' : Store} (h : st'.Good) {k : Nat → Nat → Bool}
    (hbits : ∀ j < unicodePlaneCount, ∀ b < unicodePlaneSize, st'.bit (st'.plane r j) b = k j b) :
    st'.members r = {cp | cp < unicodeSize ∧ k (cp / unicodePlaneSize) (cp % unicodePlaneSize) = true} := by
  ext cp
  constructor
  · intro hcp
    have hlt := h.lt_unicodeSize hcp
    exact ⟨hlt, by rw [← hbits _ (div_lt_planes hlt) _ (mod_lt_plane cp)]; exact hcp⟩
  · rintro ⟨hlt, hcp⟩
    exact (hbits _ (div_lt_planes hlt) _ (mod_lt_plane cp)).trans hcp

/-- All planes of the character set at `r`. -/
theorem Store.allPlanes_spec {fresh : Prop} {absent : Nat → Prop} {k : Nat → Nat → Bool}
    {body : Nat → Store → Result (Option Nat × Store)} (hgood : st.Good)
    (hr : r < st.charSets.length)
    (hbody : ∀ i < unicodePlaneCount, ∀ st₁, st.After r i st₁ →
      ∃ q st₂, body i st₁ = .ok (q, st₂) ∧ st₁.Made fresh (absent i) (k i) q st₂) :
    ∃ st', st.planesLoop r 16 body = .ok st' ∧
      st.Becomes r {cp | cp < unicodeSize ∧
        k (cp / unicodePlaneSize) (cp % unicodePlaneSize) = true} st' ∧
      (∀ i < unicodePlaneCount, st'.plane r i = none → absent i) ∧
      (fresh → ∀ i, st'.Alone r i) := by
  obtain ⟨st', hrun, hfilled⟩ := Store.planesLoop_spec hgood hr hbody (n := 16) (by decide)
  refine ⟨st', hrun, ⟨hfilled.good, hfilled.length, hfilled.empty, hfilled.full,
    members_eq hfilled.good hfilled.bits, fun b hb => hfilled.toAfter.members hgood hb⟩,
    hfilled.absent, ?_⟩
  intro hfresh i x hx b j hb
  have hlt : ∀ i x, st'.plane r i = some x → i < 17 := by
    intro i x hx
    by_contra hge
    rw [st'.plane_of_le hfilled.good (Nat.not_lt.mp hge)] at hx
    cases hx
  obtain ⟨hge, huniq⟩ := hfilled.owned hfresh i (hlt i x hx) x hx
  by_cases hbr : b = r
  · subst hbr
    exact ⟨rfl, huniq j (hlt j x hb) hb⟩
  · rw [hfilled.planes b j (.inl hbr)] at hb
    exact absurd (hgood.places b j x hb) (by omega)

/-- A new character set has no planes. -/
theorem Store.Good.makeSparseCharSet (h : st.Good) :
    (st.makeSparseCharSet unicodeSize).2.Good ∧
      (∀ b j, (st.makeSparseCharSet unicodeSize).2.plane b j = st.plane b j) ∧
      ∀ j, (st.makeSparseCharSet unicodeSize).2.plane st.charSets.length j = none := by
  have hnone : ∀ j, Store.plane st st.charSets.length j = none := by
    intro j
    rw [Store.plane, List.getElem?_eq_none (Nat.le_refl _)]
    rfl
  have hplane : ∀ b j, (st.makeSparseCharSet unicodeSize).2.plane b j = st.plane b j := by
    intro b j
    rcases Nat.lt_trichotomy b st.charSets.length with hb | hb | hb
    · rw [Store.plane, Store.makeSparseCharSet, List.getElem?_append_left hb, Store.plane]
    · subst hb
      rw [hnone, Store.plane, Store.makeSparseCharSet, List.getElem?_concat_length, Option.map_some,
        Option.getD_some, List.getD_eq_getElem?_getD, List.getElem?_replicate]
      split <;> rfl
    · rw [Store.plane, Store.makeSparseCharSet, List.getElem?_eq_none (by simp; omega), Store.plane,
        List.getElem?_eq_none (by omega)]
  refine ⟨⟨?_, ?_, h.bitsets, ?_, ?_⟩, hplane, fun j => by rw [hplane, hnone]⟩
  · intro cs hcs
    rcases List.mem_append.mp hcs with hcs | hcs
    · exact h.sizes cs hcs
    · rw [List.mem_singleton.mp hcs]
      exact ⟨rfl, List.length_replicate⟩
  · intro a i x hx
    rw [hplane] at hx
    exact h.places a i x hx
  · have := h.empty
    simp only [Store.makeSparseCharSet, List.length_append]
    omega
  · have := h.full
    simp only [Store.makeSparseCharSet, List.length_append]
    omega

theorem Store.Good.makeSparseCharSet_keeps (h : st.Good) :
    st.Keeps (st.makeSparseCharSet unicodeSize).2 := by
  obtain ⟨hgood, hplane, -⟩ := h.makeSparseCharSet
  refine ⟨hgood, ?_, rfl, rfl, fun b _ => ?_⟩
  · simp [Store.makeSparseCharSet]
  · ext cp
    rw [Store.mem_members, Store.mem_members, hplane]
    rfl

end Planes

/-! ## Copies and complements -/

section Operations

variable {st : Store}

variable {absent : Prop}

/-- What the step of a loop makes of a bitset that it has computed. -/
theorem Store.Good.made {bs : Bitset} (h : st.Good) (hbs : bs.size = unicodePlaneSize)
    {fresh : Prop} {k : Nat → Bool} (hk : ∀ b < unicodePlaneSize, bs.bit b = k b) :
    st.Made fresh absent k (st.addBitset bs).1 (st.addBitset bs).2 := by
  obtain ⟨hadds, hlt, hbit⟩ := h.addBitset hbs
  refine ⟨hadds, fun x hx => ?_, nofun, fun b hb => by rw [hbit, hk b hb], fun _ x hx => ?_⟩
  · rwa [← Option.some.inj hx]
  · exact Nat.le_of_eq (Option.some.inj hx)

/-- In the loop of a function that makes a new character set, the others are as before. -/
theorem Store.After.planeRef {m a i r : Nat} {st₁ : Store} (h : st.After r m st₁) (hr : a ≠ r)
    (ha : a < st.charSets.length) (hi : i < unicodePlaneCount) :
    st₁.planeRef a i = .ok (st.plane a i) := by
  rw [h.good.planeRef (by rw [h.length]; exact ha) hi, h.planes a i (.inl hr)]

theorem Store.After.bitset {m r x a i : Nat} {st₁ : Store} (h : st.After r m st₁) (hgood : st.Good)
    (hx : st.plane a i = some x) :
    ∃ bs, st₁.bitset x = .ok bs ∧ bs.size = unicodePlaneSize ∧
      ∀ b, bs.bit b = st.bit (st.plane a i) b := by
  have hlt := hgood.places a i x hx
  obtain ⟨bs, hbs, hsize, hbit⟩ := h.good.bitset (Nat.lt_of_lt_of_le hlt h.bitsets.length_le)
  refine ⟨bs, hbs, hsize, fun b => ?_⟩
  rw [← hbit, hx, Store.bit_of_prefix h.bitsets]
  rintro x' hx'
  rwa [← Option.some.inj hx']

theorem bit_make (size b : Nat) : (Bitset.make size).bit b = false := by
  rw [Bitset.bit, WordBits.bitAt, Bitset.make, List.getD_eq_getElem?_getD, List.getElem?_replicate]
  split
  · simp
  · split <;> simp

theorem copy_of_size {bs : Bitset} (h : bs.size = unicodePlaneSize) : bs.copy = .ok bs :=
  Bitset.copy_eq (by rw [h]; decide)

/-- A new character set of the full size, filled by a loop about that at `a`. -/
theorem Store.newLoop_spec {fresh : Prop} {absent : Nat → Prop} {k : Nat → Nat → Bool}
    {body : Nat → Store → Result (Option Nat × Store)} (hgood : st.Good)
    (hbody : ∀ i < unicodePlaneCount, ∀ st₁,
      (st.makeSparseCharSet unicodeSize).2.After st.charSets.length i st₁ →
      ∃ q st₂, body i st₁ = .ok (q, st₂) ∧ st₁.Made fresh (absent i) (k i) q st₂) :
    ∃ st', (st.makeSparseCharSet unicodeSize).2.planesLoop st.charSets.length 16 body = .ok st' ∧
      st.Keeps st' ∧ st'.charSets.length = st.charSets.length + 1 ∧
      st'.members st.charSets.length = {cp | cp < unicodeSize ∧
        k (cp / unicodePlaneSize) (cp % unicodePlaneSize) = true} ∧
      (∀ i < unicodePlaneCount, st'.plane st.charSets.length i = none → absent i) ∧
      (fresh → ∀ i, st'.Alone st.charSets.length i) := by
  have hlen : (st.makeSparseCharSet unicodeSize).2.charSets.length = st.charSets.length + 1 := by
    simp [Store.makeSparseCharSet]
  obtain ⟨st', hrun, hbecomes, habsent, halone⟩ :=
    Store.allPlanes_spec hgood.makeSparseCharSet.1 (by omega) hbody
  exact ⟨st', hrun, hgood.makeSparseCharSet_keeps.becomes (Nat.le_refl _) hbecomes,
    by rw [hbecomes.length, hlen], hbecomes.members, habsent, halone⟩

section NewPlane

variable {a i : Nat} {st₁ : Store} (hgood : st.Good) (ha : a < st.charSets.length)
  (hi : i < unicodePlaneCount)
  (hafter : (st.makeSparseCharSet unicodeSize).2.After st.charSets.length i st₁)

include hgood ha hi hafter

theorem planeRef_new : st₁.planeRef a i = .ok (st.plane a i) := by
  rw [hafter.planeRef (Nat.ne_of_lt ha) (by simp [Store.makeSparseCharSet]; omega) hi,
    hgood.makeSparseCharSet.2.1]

omit ha hi in
theorem bitset_new {x : Nat} (hx : st.plane a i = some x) :
    ∃ bs, st₁.bitset x = .ok bs ∧ bs.size = unicodePlaneSize ∧
      ∀ b, bs.bit b = st.bit (st.plane a i) b := by
  obtain ⟨hnew, hplane, -⟩ := hgood.makeSparseCharSet
  obtain ⟨bs, hbs, hsize, hbit⟩ := hafter.bitset hnew (hplane a i ▸ hx)
  refine ⟨bs, hbs, hsize, fun b => ?_⟩
  rw [hbit, hplane]
  rfl

theorem copyPlane_spec :
    ∃ q st₂, Store.copyPlane a st.charSets.length i st₁ = .ok (q, st₂) ∧
      st₁.Made True (st.plane a i = none) (fun b => st.bit (st.plane a i) b) q st₂ := by
  rw [Store.copyPlane, planeRef_new hgood ha hi hafter, ok_bind]
  cases hx : st.plane a i with
  | none =>
    have hself : st₁.planeRef st.charSets.length i = .ok none := by
      rw [hafter.good.planeRef (by rw [hafter.length]; simp [Store.makeSparseCharSet]) hi,
        hafter.planes _ i (.inr (Nat.le_refl i)), hgood.makeSparseCharSet.2.2]
    exact ⟨none, st₁, by rw [hself]; rfl, hafter.good.adds_refl, nofun, fun _ => rfl,
      fun b _ => rfl, nofun⟩
  | some x =>
    obtain ⟨bs, hbs, hsize, hbit⟩ := bitset_new hgood hafter hx
    refine ⟨_, _, by simp only [hbs, ok_bind, copy_of_size hsize]; rfl, ?_⟩
    rw [← hx]
    exact hafter.good.made hsize fun b _ => hbit b

theorem notPlane_spec :
    ∃ q st₂, Store.notPlane a unicodeSize i st₁ = .ok (q, st₂) ∧
      st₁.Made True True (fun b => !st.bit (st.plane a i) b) q st₂ := by
  rw [Store.notPlane, planeRef_new hgood ha hi hafter, ok_bind]
  cases hx : st.plane a i with
  | none =>
    have hnew : (Bitset.make unicodePlaneSize).size = unicodePlaneSize := rfl
    obtain ⟨bs, hbs, hsize, hbit⟩ :=
      (@Bitset.complements_iff (Bitset.make unicodePlaneSize)).mpr (by rw [hnew]; decide)
    refine ⟨_, _, by
      show ((Bitset.make unicodePlaneSize).notBitset >>= _) = _
      rw [hbs]; rfl, hafter.good.made (hsize.trans hnew) fun b hb => ?_⟩
    rw [hbit b (by rw [hnew]; exact hb), bit_make]
    rfl
  | some x =>
    obtain ⟨bs, hbs, hsize, hbit⟩ := bitset_new hgood hafter hx
    obtain ⟨bs', hbs', hsize', hbit'⟩ := (@Bitset.complements_iff bs).mpr (by rw [hsize]; decide)
    refine ⟨_, _, by simp only [hbs, ok_bind, hbs'], hafter.good.made (hsize'.trans hsize) ?_⟩
    intro b hb
    rw [hbit' b (by rw [hsize]; exact hb), hbit, hx]

end NewPlane

/-- `copy-char-set`: a new character set, whose planes are bitsets of its own. -/
theorem Store.copyCharSet_spec (hgood : st.Good) {a : Nat} (ha : a < st.charSets.length) :
    ∃ st', st.copyCharSet a = .ok (st.charSets.length, st') ∧ st.Keeps st' ∧
      st'.charSets.length = st.charSets.length + 1 ∧
      st'.members st.charSets.length = st.members a ∧
      (∀ i < unicodePlaneCount, st'.plane st.charSets.length i = none → st.plane a i = none) ∧
      ∀ i, st'.Alone st.charSets.length i := by
  obtain ⟨cs, hcs, -, hsize, -⟩ := hgood.charSet ha
  obtain ⟨st', hrun, hkeeps, hlen, hmembers, habsent, halone⟩ := @Store.newLoop_spec st True
    (fun i => st.plane a i = none) (fun i b => st.bit (st.plane a i) b)
    (Store.copyPlane a st.charSets.length) hgood
    fun i hi st₁ hafter => copyPlane_spec hgood ha hi hafter
  refine ⟨st', ?_, hkeeps, hlen, ?_, habsent, halone trivial⟩
  · rw [Store.copyCharSet, hcs, ok_bind, hsize, hgood.countPlanes ha, ok_bind]
    exact (congrArg (· >>= _) hrun).trans rfl
  · rw [hmembers]
    ext cp
    exact ⟨fun h => h.2, fun h => ⟨hgood.lt_unicodeSize h, h⟩⟩

/-- `not-char-set`. -/
theorem Store.notCharSet_spec (hgood : st.Good) {a : Nat} (ha : a < st.charSets.length) :
    Makes st (st.notCharSet a) {cp | cp < unicodeSize ∧ cp ∉ st.members a} := by
  obtain ⟨cs, hcs, -, hsize, -⟩ := hgood.charSet ha
  obtain ⟨st', hrun, hkeeps, hlen, hmembers, -⟩ := @Store.newLoop_spec st True
    (fun _ => True) (fun i b => !st.bit (st.plane a i) b)
    (Store.notPlane a unicodeSize) hgood
    fun i hi st₁ hafter => notPlane_spec hgood ha hi hafter
  refine ⟨st.charSets.length, st', ?_, hkeeps, by omega, ?_⟩
  · rw [Store.notCharSet, hcs, ok_bind, hsize, hgood.countPlanes ha, ok_bind]
    exact (congrArg (· >>= _) hrun).trans rfl
  · rw [hmembers]
    ext cp
    simp [Store.mem_members]

/-! ## Combinations -/

/-- The operation of the bitset library on two bitsets of a plane. -/
def Computes (op : List Bitset → Result (Option Bitset)) (k : Bool → Bool → Bool) : Prop :=
  ∀ bs1 bs2 : Bitset, bs1.size = unicodePlaneSize → bs2.size = unicodePlaneSize →
    ∃ bs, op [bs1, bs2] = .ok (some bs) ∧ bs.size = unicodePlaneSize ∧
      ∀ b < unicodePlaneSize, bs.bit b = k (bs1.bit b) (bs2.bit b)

variable {k : Bool → Bool → Bool}

theorem computes_combine {f : BitVec 32 → BitVec 32 → BitVec 32}
    (hf : ∀ v w : BitVec 32, ∀ j < 32, (f v w).getLsbD j = k (v.getLsbD j) (w.getLsbD j)) :
    Computes (Bitset.combine f none) k := by
  intro bs1 bs2 h1 h2
  obtain ⟨bs, hrun, hsize, hbit⟩ := @Bitset.combine_spec _ _ hf [bs2] bs1
    (by simp [h1, h2])
  refine ⟨bs, ?_, hsize.trans h1, fun b hb => ?_⟩
  · rw [Bitset.combine, copy_of_size h1]
    exact hrun
  · rw [hbit b (by rw [h1]; exact hb)]
    rfl

theorem computes_and : Computes Bitset.andBitset (fun x y => x && y) :=
  computes_combine fun v w j _ => by rw [BitVec.getLsbD_and]

theorem computes_ior : Computes Bitset.iorBitset (fun x y => x || y) :=
  computes_combine fun v w j _ => by rw [BitVec.getLsbD_or]

theorem computes_xor : Computes Bitset.xorBitset (fun x y => x ^^ y) :=
  computes_combine fun v w j _ => by rw [BitVec.getLsbD_xor]

theorem computes_subtract : Computes Bitset.subtractBitset (fun x y => x && !y) := by
  apply computes_combine
  intro v w j hj
  by_cases hw : w = 0
  · simp [hw]
  · rw [if_pos hw, BitVec.getLsbD_and, BitVec.getLsbD_not]
    simp [hj]

/-- What the plane of an operation does to the bits, in the cases `cond`. -/
def PlaneOp (plane : Option Nat → Option Nat → Store → Result (Option Nat × Store))
    (k : Bool → Bool → Bool) (cond : Store → Option Nat → Option Nat → Prop) (absent : Prop) : Prop :=
  ∀ (st : Store) (p1 p2 : Option Nat), st.Good → (∀ x, p1 = some x → x < st.bitsets.length) →
    (∀ x, p2 = some x → x < st.bitsets.length) → cond st p1 p2 →
    ∃ q st', plane p1 p2 st = .ok (q, st') ∧
      st.Made False (absent ∨ p1 = none) (fun b => k (st.bit p1 b) (st.bit p2 b)) q st'

theorem bitsetOp_spec {op : List Bitset → Result (Option Bitset)} (hop : Computes op k)
    (hgood : st.Good) {x y : Nat} (hx : x < st.bitsets.length) (hy : y < st.bitsets.length) :
    ∃ q st', st.bitsetOp op x y = .ok (q, st') ∧
      st.Made False absent (fun b => k (st.bit (some x) b) (st.bit (some y) b)) q st' := by
  obtain ⟨bs1, h1, hs1, hb1⟩ := hgood.bitset hx
  obtain ⟨bs2, h2, hs2, hb2⟩ := hgood.bitset hy
  obtain ⟨bs, hrun, hsize, hbit⟩ := hop bs1 bs2 hs1 hs2
  refine ⟨_, _, ?_, hgood.made hsize fun b hb => ?_⟩
  · rw [Store.bitsetOp, h1, ok_bind, h2, ok_bind, hrun]
    rfl
  · rw [hbit b hb, hb1, hb2]

theorem planeOp_and : PlaneOp andPlane (fun x y => x && y) (fun _ _ _ => True) True := by
  intro st p1 p2 hgood hp1 hp2 _
  cases p1 with
  | none => exact ⟨none, st, rfl, hgood.adds_refl, nofun, fun _ => .inl trivial, fun b _ => rfl, nofun⟩
  | some x =>
    cases p2 with
    | none =>
      refine ⟨none, st, rfl, hgood.adds_refl, nofun, fun _ => .inl trivial, fun b _ => ?_, nofun⟩
      exact (Bool.and_false _).symm
    | some y => exact bitsetOp_spec computes_and hgood (hp1 x rfl) (hp2 y rfl)

theorem planeOp_other {op : List Bitset → Result (Option Bitset)} (hop : Computes op k)
    (hfalse : ∀ x, k x false = x) :
    PlaneOp (otherPlane op) k (fun st p1 p2 => p1 = none → ∀ b < unicodePlaneSize,
      k false (st.bit p2 b) = st.bit p2 b) False := by
  intro st p1 p2 hgood hp1 hp2 hcond
  cases p1 with
  | none =>
    exact ⟨p2, st, rfl, hgood.adds_refl, hp2, fun _ => .inr rfl, fun b hb => (hcond rfl b hb).symm,
      nofun⟩
  | some x =>
    cases p2 with
    | none =>
      exact ⟨some x, st, rfl, hgood.adds_refl, hp1, nofun, fun b _ => (hfalse _).symm, nofun⟩
    | some y => exact bitsetOp_spec hop hgood (hp1 x rfl) (hp2 y rfl)

/-- One round of `loop css res`. -/
theorem combinePlane_spec {plane : Option Nat → Option Nat → Store → Result (Option Nat × Store)}
    {cond : Store → Option Nat → Option Nat → Prop} (hop : PlaneOp plane k cond absent)
    (hgood : st.Good) {r c : Nat} (hr : r < st.charSets.length) (hc : c < st.charSets.length)
    (hcr : c ≠ r) (hcond : ∀ i < unicodePlaneCount, ∀ st₁, st.After r i st₁ →
      cond st₁ (st.plane r i) (st.plane c i)) :
    ∃ st', st.planesLoop r 16 (Store.combinePlane plane r c) = .ok st' ∧
      st.Becomes r {cp | cp < unicodeSize ∧ k (decide (cp ∈ st.members r)) (decide (cp ∈ st.members c)) = true} st' ∧
      ∀ i < unicodePlaneCount, st'.plane r i = none → absent ∨ st.plane r i = none := by
  obtain ⟨st', hrun, hbecomes, habsent, -⟩ := @Store.allPlanes_spec st r False
    (fun i => absent ∨ st.plane r i = none)
    (fun i b => k (st.bit (st.plane r i) b) (st.bit (st.plane c i) b))
    (Store.combinePlane plane r c) hgood hr (by
      intro i hi st₁ hafter
      have hself : st₁.planeRef r i = .ok (st.plane r i) := by
        rw [hafter.good.planeRef (by rw [hafter.length]; exact hr) hi,
          hafter.planes r i (.inr (Nat.le_refl i))]
      have hplaces : ∀ a x, st.plane a i = some x → x < st₁.bitsets.length := fun a x hx =>
        Nat.lt_of_lt_of_le (hgood.places a i x hx) hafter.bitsets.length_le
      obtain ⟨q, st₂, hplane, hmade⟩ := hop st₁ _ _ hafter.good (hplaces r) (hplaces c)
        (hcond i hi st₁ hafter)
      refine ⟨q, st₂, ?_, ?_⟩
      · rw [Store.combinePlane, hself, ok_bind, hafter.planeRef hcr hc hi, ok_bind, hplane]
      · rw [show (fun b => k (st.bit (st.plane r i) b) (st.bit (st.plane c i) b)) =
          fun b => k (st₁.bit (st.plane r i) b) (st₁.bit (st.plane c i) b) from by
            funext b
            rw [Store.bit_of_prefix hafter.bitsets (hgood.places r i),
              Store.bit_of_prefix hafter.bitsets (hgood.places c i)]]
        exact hmade)
  refine ⟨st', hrun, ?_, habsent⟩
  have hset : {cp | cp < unicodeSize ∧ k (decide (cp ∈ st.members r)) (decide (cp ∈ st.members c)) = true} =
      {cp | cp < unicodeSize ∧ k (st.bit (st.plane r (cp / unicodePlaneSize)) (cp % unicodePlaneSize))
        (st.bit (st.plane c (cp / unicodePlaneSize)) (cp % unicodePlaneSize)) = true} := by
    ext cp
    simp [Store.mem_members]
  rw [hset]
  exact hbecomes

/-- The sets that `loop css res` goes through are those of `F`. -/
theorem combineLoop_spec {plane : Option Nat → Option Nat → Store → Result (Option Nat × Store)}
    {k : Bool → Bool → Bool} {cond : Store → Option Nat → Option Nat → Prop} {absent : Prop}
    (hop : PlaneOp plane k cond absent) {F : Set Nat → Set Nat → Set Nat}
    (hF : ∀ st : Store, st.Good → ∀ r c, {cp | cp < unicodeSize ∧
      k (decide (cp ∈ st.members r)) (decide (cp ∈ st.members c)) = true} = F (st.members r) (st.members c))
    {st : Store} {r : Nat} {css : List Nat} (hcss : ∀ c ∈ css, c < st.charSets.length ∧ c ≠ r)
    (hcond : ∀ st' : Store, st'.Good → (∀ b, b ≠ r → st'.members b = st.members b) →
      (∀ i < unicodePlaneCount, st'.plane r i = none → absent ∨ st.plane r i = none) →
      ∀ c ∈ css, ∀ i < unicodePlaneCount, ∀ st₁, st'.After r i st₁ →
        cond st₁ (st'.plane r i) (st'.plane c i))
    {st' : Store} (hgood : st'.Good) (hlen : st'.charSets.length = st.charSets.length)
    (hr : r < st.charSets.length) (hothers : ∀ b, b ≠ r → st'.members b = st.members b)
    (habsent : ∀ i < unicodePlaneCount, st'.plane r i = none → absent ∨ st.plane r i = none) :
    ∃ st₂, st'.combineLoop plane r css = .ok st₂ ∧
      st'.Becomes r (css.foldl (fun A c => F A (st.members c)) (st'.members r)) st₂ := by
  induction css generalizing st' with
  | nil => exact ⟨st', rfl, hgood, rfl, rfl, rfl, rfl, fun _ _ => rfl⟩
  | cons c css ih =>
    obtain ⟨⟨hc, hcr⟩, hcss⟩ := List.forall_mem_cons.mp hcss
    obtain ⟨st₁, hrun, hbecomes, hplanes⟩ := combinePlane_spec hop hgood (r := r) (c := c)
      (by omega) (by omega) hcr (hcond st' hgood hothers habsent c (List.mem_cons_self ..))
    rw [hF st' hgood, hothers c hcr] at hbecomes
    obtain ⟨st₂, hrest, hbecomes'⟩ := ih hcss
      (fun st' hgood hothers habsent c hc =>
        hcond st' hgood hothers habsent c (List.mem_cons_of_mem _ hc))
      hbecomes.good (hbecomes.length.trans hlen)
      (fun b hb => (hbecomes.others b hb).trans (hothers b hb)) (by
        intro i hi hnone
        rcases hplanes i hi hnone with h | h
        · exact .inl h
        · exact habsent i hi h)
    refine ⟨st₂, ?_, ?_⟩
    · rw [Store.combineLoop, hgood.countPlanes (by omega), ok_bind, hrun, ok_bind, hrest]
    · rw [hbecomes.members] at hbecomes'
      exact hbecomes.trans hbecomes'

variable {css : List Nat}

/-- A copy of the first, combined with the others. -/
theorem combineCopy_spec {plane : Option Nat → Option Nat → Store → Result (Option Nat × Store)}
    {cond : Store → Option Nat → Option Nat → Prop} (hop : PlaneOp plane k cond absent)
    {F : Set Nat → Set Nat → Set Nat} (hF : ∀ st : Store, st.Good → ∀ r c, {cp | cp < unicodeSize ∧
      k (decide (cp ∈ st.members r)) (decide (cp ∈ st.members c)) = true} = F (st.members r) (st.members c))
    (hgood : st.Good) {cs : Nat} (hcs : cs < st.charSets.length)
    (hcss : ∀ c ∈ css, c < st.charSets.length)
    (hcond : ∀ st' : Store, st'.Good → (∀ b < st.charSets.length, st'.members b = st.members b) →
      (∀ i < unicodePlaneCount, st'.plane st.charSets.length i = none → absent ∨ st.plane cs i = none) →
      ∀ c ∈ css, ∀ i < unicodePlaneCount, ∀ st₁, st'.After st.charSets.length i st₁ →
        cond st₁ (st'.plane st.charSets.length i) (st'.plane c i)) :
    Makes st (do
      let new ← st.copyCharSet cs
      let st ← new.2.combineLoop plane new.1 css
      .ok (new.1, st)) (css.foldl (fun A c => F A (st.members c)) (st.members cs)) := by
  obtain ⟨st₁, hrun, hkeeps, hlen, hmembers, habsent, -⟩ := Store.copyCharSet_spec hgood hcs
  obtain ⟨st₂, hloop, hbecomes⟩ := @combineLoop_spec plane k cond absent hop F hF st₁ st.charSets.length
    css (fun c hc => by have := hcss c hc; omega) (by
      intro st' hgood' hothers habsent' c hc
      refine hcond st' hgood' (fun b hb => ?_) (fun i hi hnone => ?_) c hc
      · rw [hothers b (by omega), hkeeps.members b hb]
      · exact (habsent' i hi hnone).imp id (habsent i hi))
    st₁ hkeeps.good rfl (by omega) (fun _ _ => rfl) (fun _ _ h => .inr h)
  have hfold : ∀ (css : List Nat), (∀ c ∈ css, c < st.charSets.length) → ∀ A : Set Nat,
      css.foldl (fun A c => F A (st₁.members c)) A = css.foldl (fun A c => F A (st.members c)) A := by
    intro css hcss
    induction css with
    | nil => intro A; rfl
    | cons c css ih =>
      intro A
      obtain ⟨hc, hcss⟩ := List.forall_mem_cons.mp hcss
      rw [List.foldl_cons, List.foldl_cons, hkeeps.members c hc, ih hcss]
  refine ⟨st.charSets.length, st₂, ?_, hkeeps.becomes (Nat.le_refl _) hbecomes, ?_, ?_⟩
  · rw [hrun, ok_bind, hloop]
    rfl
  · rw [hbecomes.length]
    omega
  · rw [hbecomes.members, hmembers, hfold css hcss]

/-- No arguments: a copy. -/
theorem copy_makes (hgood : st.Good) {a : Nat} (ha : a < st.charSets.length) :
    Makes st (st.copyCharSet a) (st.members a) := by
  obtain ⟨st', hrun, hkeeps, hlen, hmembers, -, -⟩ := Store.copyCharSet_spec hgood ha
  exact ⟨_, st', hrun, hkeeps, by omega, hmembers⟩

theorem andCharSet_spec (hgood : st.Good) (hcss : ∀ c ∈ css, c < st.charSets.length) :
    Makes st (st.andCharSet css) (match css with
      | [] => st.members st.empty
      | cs :: css => css.foldl (fun A c => A ∩ st.members c) (st.members cs)) := by
  cases css with
  | nil => exact copy_makes hgood hgood.empty
  | cons cs css =>
    obtain ⟨hcs, hcss⟩ := List.forall_mem_cons.mp hcss
    refine combineCopy_spec planeOp_and ?_ hgood hcs hcss fun _ _ _ _ _ _ _ _ _ _ => trivial
    intro st hgood r c
    ext cp
    simp only [Set.mem_ofPred_eq, Bool.and_eq_true, decide_eq_true_eq, Set.mem_inter_iff]
    exact ⟨fun h => h.2, fun h => ⟨hgood.lt_unicodeSize h.1, h⟩⟩

theorem iorCharSet_spec (hgood : st.Good) (hcss : ∀ c ∈ css, c < st.charSets.length) :
    Makes st (st.iorCharSet css) (match css with
      | [] => st.members st.full
      | cs :: css => css.foldl (fun A c => A ∪ st.members c) (st.members cs)) := by
  cases css with
  | nil => exact copy_makes hgood hgood.full
  | cons cs css =>
    obtain ⟨hcs, hcss⟩ := List.forall_mem_cons.mp hcss
    refine combineCopy_spec (planeOp_other computes_ior Bool.or_false) ?_ hgood hcs hcss
      fun _ _ _ _ _ _ _ _ _ _ _ _ _ => Bool.false_or _
    intro st hgood r c
    ext cp
    simp only [Set.mem_ofPred_eq, Bool.or_eq_true, decide_eq_true_eq, Set.mem_union]
    exact ⟨fun h => h.2, fun h => ⟨h.elim hgood.lt_unicodeSize hgood.lt_unicodeSize, h⟩⟩

theorem xorCharSet_spec (hgood : st.Good) (hcss : ∀ c ∈ css, c < st.charSets.length) :
    Makes st (st.xorCharSet css) (match css with
      | [] => st.members st.empty
      | cs :: css => css.foldl (fun A c => symmDiff A (st.members c)) (st.members cs)) := by
  cases css with
  | nil => exact copy_makes hgood hgood.empty
  | cons cs css =>
    obtain ⟨hcs, hcss⟩ := List.forall_mem_cons.mp hcss
    refine combineCopy_spec (planeOp_other computes_xor Bool.xor_false) ?_ hgood hcs hcss
      fun _ _ _ _ _ _ _ _ _ _ _ _ _ => Bool.false_xor _
    intro st hgood r c
    ext cp
    have hr := @Store.Good.lt_unicodeSize st hgood r cp
    have hc := @Store.Good.lt_unicodeSize st hgood c cp
    simp only [Set.mem_ofPred_eq, Set.mem_symmDiff]
    by_cases h1 : cp ∈ st.members r <;> by_cases h2 : cp ∈ st.members c <;> simp_all

/-- Where `cs` has no plane the others have no members. -/
def Store.Subtracts (st : Store) (cs : Nat) (css : List Nat) : Prop :=
  ∀ i < unicodePlaneCount, st.plane cs i = none → ∀ c ∈ css, ∀ b < unicodePlaneSize,
    i * unicodePlaneSize + b ∉ st.members c

theorem plane_cp {i b : Nat} (hb : b < unicodePlaneSize) :
    (i * unicodePlaneSize + b) / unicodePlaneSize = i ∧
      (i * unicodePlaneSize + b) % unicodePlaneSize = b := by
  rw [unicodePlaneSize] at hb ⊢
  omega

theorem subtractCharSet_spec (hgood : st.Good) {cs : Nat} (hcs : cs < st.charSets.length)
    (hcss : ∀ c ∈ css, c < st.charSets.length) (hsub : st.Subtracts cs css) :
    Makes st (st.subtractCharSet cs css) (css.foldl (fun A c => A \ st.members c) (st.members cs)) := by
  refine combineCopy_spec (planeOp_other computes_subtract (fun x => by simp)) ?_ hgood hcs hcss ?_
  · intro st hgood r c
    ext cp
    simp only [Set.mem_ofPred_eq, Bool.and_eq_true, Bool.not_eq_true', decide_eq_true_eq,
      decide_eq_false_iff_not, Set.mem_sdiff]
    exact ⟨fun h => h.2, fun h => ⟨hgood.lt_unicodeSize h.1, h⟩⟩
  · intro st' hgood' hothers habsent c hc i hi st₁ hafter hnone b hb
    -- the result has a plane wherever `cs` has one, so there is none to subtract from here
    have hcs' : st.plane cs i = none := (habsent i hi hnone).resolve_left id
    have hnot := hsub i hi hcs' c hc b hb
    rw [← hothers c (hcss c hc), Store.mem_members, (plane_cp hb).1, (plane_cp hb).2,
      Bool.not_eq_true] at hnot
    rw [Store.bit_of_prefix hafter.bitsets (hgood'.places c i), hnot]
    rfl

end Operations

end Idio.CharSet
