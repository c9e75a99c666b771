/-
  CharSet/Points.lean --- code points put into character sets and taken out.

  A write to a plane that other planes share changes them too, unless the bit is what
  it was: `Writable` excludes that.
-/
import Idio.CharSet.Sets

set_option autoImplicit false

namespace Idio.CharSet

/-! ## One code point -/

/-- An argument that denotes the code point `n`. -/
def Cp.Denotes (cp : Cp) (n : Nat) : Prop :=
  n < unicodeSize ∧ (cp = .integer n ∨ ∃ c : CodePoint, cp = .unicode c ∧ (c : Nat) = n)

theorem Cp.Denotes.bit {cp : Cp} {n : Nat} (h : cp.Denotes n) : cp.bit = n := by
  obtain ⟨hlt, rfl | ⟨c, rfl, hc⟩⟩ := h
  · rw [unicodeSize, unicodePlaneCount, unicodePlaneSize] at hlt
    simp only [Cp.bit]
    omega
  · exact hc

theorem Cp.Denotes.toUnicode {cp : Cp} {n : Nat} (h : cp.Denotes n) :
    ∃ c : CodePoint, cp.toUnicode = .ok c ∧ (c : Nat) = n := by
  obtain ⟨hlt, rfl | ⟨c, rfl, hc⟩⟩ := h
  · rw [unicodeSize, unicodePlaneCount, unicodePlaneSize] at hlt
    exact ⟨⟨n, hlt⟩, by rw [Cp.toUnicode, integerToUnicode, dif_pos (by omega)]; rfl, rfl⟩
  · exact ⟨c, rfl, hc⟩

/-- A write of `v` for the code point `n` changes no plane but that of `a`. -/
def Store.Writable (st : Store) (a n : Nat) (v : Prop) : Prop :=
  st.Alone a (n / unicodePlaneSize) ∨ (n ∈ st.members a ↔ v)

section Writes

variable {st : Store}

variable {a n : Nat} {cp : Cp}

theorem Store.Good.charSetRef_spec (hgood : st.Good) (ha : a < st.charSets.length)
    (hcp : cp.Denotes n) : st.charSetRef a cp = .ok (decide (n ∈ st.members a)) := by
  obtain ⟨cs, hcs, -, hsize, -⟩ := hgood.charSet ha
  have hplane := div_lt_planes hcp.1
  rw [Store.charSetRef, hcs, ok_bind, hcp.bit, hsize, if_neg (Nat.not_le.mpr hcp.1),
    hgood.planeRef ha hplane, ok_bind]
  have hmem : ∀ p, st.plane a (n / unicodePlaneSize) = p →
      decide (n ∈ st.members a) = st.bit p (n % unicodePlaneSize) := by
    rintro p rfl
    rw [Bool.eq_iff_iff, decide_eq_true_eq, Store.mem_members]
  cases hx : st.plane a (n / unicodePlaneSize) with
  | none => rw [hmem _ hx]; rfl
  | some x =>
    obtain ⟨bs, hbs, hsize', hbit⟩ := hgood.bitset (hgood.places _ _ x hx)
    simp only [hbs, ok_bind]
    rw [Bitset.ref_spec (by rw [hsize']; exact mod_lt_plane n), hmem _ hx, hbit]

/-- A bit of the bitset at `x` written. -/
theorem Store.Good.writeBitset (hgood : st.Good) {x : Nat} (hx : x < st.bitsets.length) {bs : Bitset}
    (hsize : bs.size = unicodePlaneSize) {b : Nat} {v : Bool}
    (hbit : ∀ c, bs.bit c = if c = b then v else st.bit (some x) c) :
    (st.writeBitset x bs).Good ∧ (∀ a i, (st.writeBitset x bs).plane a i = st.plane a i) ∧
      ∀ p c, (st.writeBitset x bs).bit p c = if p = some x ∧ c = b then v else st.bit p c := by
  have hplane : ∀ a i, (st.writeBitset x bs).plane a i = st.plane a i := fun _ _ => rfl
  refine ⟨⟨hgood.sizes, ?_, ?_, hgood.empty, hgood.full⟩, hplane, ?_⟩
  · intro a i y hy
    rw [Store.writeBitset, List.length_set]
    exact hgood.places a i y hy
  · intro bs' hbs'
    rcases List.mem_or_eq_of_mem_set hbs' with hbs' | rfl
    · exact hgood.bitsets bs' hbs'
    · exact hsize
  · intro p c
    cases p with
    | none => rw [if_neg (by simp)]; rfl
    | some y =>
      rw [Store.bit, Option.bind_some, Store.writeBitset]
      by_cases hy : y = x
      · subst hy
        rw [List.getElem?_set_self hx, Option.map_some, Option.getD_some, hbit]
        simp
      · rw [List.getElem?_set_ne (Ne.symm hy), if_neg (by simp [hy])]
        rfl

/-- The members after a write to a plane that is there. -/
theorem Store.Good.write_becomes (hgood : st.Good) {x : Nat}
    (hx : st.plane a (n / unicodePlaneSize) = some x) {bs : Bitset}
    (hsize : bs.size = unicodePlaneSize) {v : Bool}
    (hbit : ∀ c, bs.bit c = if c = n % unicodePlaneSize then v else st.bit (some x) c)
    (hw : st.Writable a n (v = true)) :
    st.Becomes a {m | if m = n then v = true else m ∈ st.members a} (st.writeBitset x bs) := by
  obtain ⟨hgood', hplane, hbits⟩ := hgood.writeBitset (hgood.places _ _ x hx) hsize hbit
  have hmem : ∀ c m, m ∈ (st.writeBitset x bs).members c ↔
      if st.plane c (m / unicodePlaneSize) = some x ∧ m % unicodePlaneSize = n % unicodePlaneSize
        then v = true else m ∈ st.members c := by
    intro c m
    rw [Store.mem_members, hplane, hbits, Store.mem_members]
    split <;> rfl
  have hdiv : ∀ m, m / unicodePlaneSize = n / unicodePlaneSize →
      m % unicodePlaneSize = n % unicodePlaneSize → m = n := by
    intro m hdiv hmod
    rw [← Nat.div_add_mod m unicodePlaneSize, hdiv, hmod, Nat.div_add_mod]
  refine ⟨hgood', rfl, rfl, rfl, ?_, ?_⟩
  · ext m
    rw [hmem]
    by_cases hmn : m = n
    · simp [hmn, hx]
    · rw [Set.mem_ofPred_eq, if_neg hmn]
      split
      · rename_i h
        rcases hw with halone | hsame
        · exact absurd (hdiv m (halone x hx a _ h.1).2 h.2) hmn
        · rw [← hsame, Store.mem_members, Store.mem_members, hx, h.1, h.2]
      · rfl
  · intro c hc
    ext m
    rw [hmem]
    split
    · rename_i h
      rcases hw with halone | hsame
      · exact absurd (halone x hx c _ h.1).1 hc
      · rw [← hsame, Store.mem_members, Store.mem_members, hx, h.1, h.2]
    · rfl

theorem newPlaneSize_full (i : Nat) : newPlaneSize unicodeSize i = unicodePlaneSize := by
  rw [newPlaneSize]
  split
  · rfl
  · rw [if_neg (by decide)]

/-- `char-set-set!`. -/
theorem Store.Good.charSetSet_spec (hgood : st.Good) (ha : a < st.charSets.length)
    (hcp : cp.Denotes n) (hw : st.Writable a n True) :
    ∃ st', st.charSetSet a cp = .ok st' ∧ st.Becomes a (insert n (st.members a)) st' ∧
      ∀ i, st.Alone a i → st'.Alone a i := by
  obtain ⟨cs, hcs, -, hsize, -⟩ := hgood.charSet ha
  have hplane := div_lt_planes hcp.1
  have hmod := mod_lt_plane n
  have hrun : st.charSetSet a cp = (st.plane a (n / unicodePlaneSize)).elim
      (do
        let bs ← (Bitset.make unicodePlaneSize).set (n % unicodePlaneSize)
        (st.addBitset bs).2.planeSet a (n / unicodePlaneSize) (st.addBitset bs).1)
      (fun x => do
        let bs ← (← st.bitset x).set (n % unicodePlaneSize)
        .ok (st.writeBitset x bs)) := by
    rw [Store.charSetSet, hcs, ok_bind, hcp.bit, hsize, if_neg (Nat.not_le.mpr hcp.1)]
    dsimp only
    rw [newPlaneSize_full, hgood.planeRef ha hplane, ok_bind]
    cases st.plane a (n / unicodePlaneSize) <;> rfl
  cases hx : st.plane a (n / unicodePlaneSize) with
  | some x =>
    obtain ⟨bs, hbs, hsz, hbit⟩ := hgood.bitset (hgood.places _ _ x hx)
    obtain ⟨bs', hset, hsz', hbit'⟩ := @Bitset.set_spec bs _ (by rw [hsz]; exact hmod)
    have hbecomes := hgood.write_becomes hx (hsz'.trans hsz) (v := true)
      (fun c => by rw [hbit', hbit]) (hw.imp id fun h => h.trans (by simp))
    have hinsert : {m | if m = n then true = true else m ∈ st.members a} = insert n (st.members a) := by
      ext m
      by_cases hmn : m = n <;> simp [hmn]
    rw [hinsert] at hbecomes
    refine ⟨st.writeBitset x bs', ?_, hbecomes, fun i h => h⟩
    rw [hrun, hx, Option.elim_some]
    simp only [hbs, ok_bind, hset]
  | none =>
    obtain ⟨bs, hset, hsz, hbit⟩ := @Bitset.set_spec (Bitset.make unicodePlaneSize) _ hmod
    obtain ⟨hadds, hlt, hnew⟩ := @Store.Good.addBitset st hgood bs hsz
    have ha' : a < (st.addBitset bs).2.charSets.length := by rwa [hadds.charSets]
    obtain ⟨st', hset', hgood', hbits', hlen', hempty', hfull', hplane'⟩ :=
      hadds.good.planeSet (p := (st.addBitset bs).1) ha' hplane (by
        intro x hx
        rwa [← Option.some.inj hx])
    have hplanes : ∀ c j, st'.plane c j =
        if c = a ∧ j = n / unicodePlaneSize then some st.bitsets.length else st.plane c j := hplane'
    have hprefix : st.bitsets <+: st'.bitsets := by rw [hbits']; exact hadds.bitsets
    have hold : ∀ c j, ¬ (c = a ∧ j = n / unicodePlaneSize) → ∀ b,
        st'.bit (st'.plane c j) b = st.bit (st.plane c j) b := by
      intro c j hcj b
      rw [hplanes, if_neg hcj, Store.bit_of_prefix hprefix (hgood.places c j)]
    have hbitnew : ∀ b, st'.bit (some st.bitsets.length) b = decide (b = n % unicodePlaneSize) := by
      intro b
      have := hnew b
      rw [hbit, bit_make] at this
      rw [Store.bit, hbits']
      refine Eq.trans this ?_
      split <;> simp_all
    refine ⟨st', ?_, ⟨hgood', hlen', hempty', hfull', ?_, ?_⟩, ?_⟩
    · rw [hrun, hx]
      simp only [hset, ok_bind]
      exact hset'
    · ext m
      rw [Store.mem_members, Set.mem_insert_iff, Store.mem_members]
      by_cases hm : m / unicodePlaneSize = n / unicodePlaneSize
      · rw [hplanes, if_pos ⟨rfl, hm⟩, hbitnew, hm, hx, decide_eq_true_eq]
        constructor
        · intro hmod'
          left
          rw [← Nat.div_add_mod m unicodePlaneSize, hm, hmod', Nat.div_add_mod]
        · rintro (rfl | h)
          · rfl
          · cases h
      · rw [hold _ _ fun h => hm h.2]
        constructor
        · exact .inr
        · rintro (rfl | h)
          · exact absurd rfl hm
          · exact h
    · intro c hc
      ext m
      rw [Store.mem_members, Store.mem_members, hold _ _ fun h => hc h.1]
    · -- the new bitset is nobody else's
      intro i halone x hxi c j hcj
      rw [hplanes] at hxi hcj
      split at hxi
      · rename_i h
        split at hcj
        · rename_i h'
          exact ⟨h'.1, h'.2.trans h.2.symm⟩
        · have := hgood.places c j x hcj
          cases hxi
          omega
      · split at hcj
        · have := hgood.places a i x hxi
          cases hcj
          omega
        · exact halone x hxi c j hcj

/-- `char-set-clear!`. -/
theorem Store.Good.charSetClear_spec (hgood : st.Good) (ha : a < st.charSets.length)
    (hcp : cp.Denotes n) (hw : st.Writable a n False) :
    ∃ st', st.charSetClear a cp = .ok st' ∧ st.Becomes a (st.members a \ {n}) st' := by
  obtain ⟨cs, hcs, -, hsize, -⟩ := hgood.charSet ha
  have hplane := div_lt_planes hcp.1
  obtain ⟨c, hc, rfl⟩ := hcp.toUnicode
  have hrun : st.charSetClear a cp = (st.plane a (c / unicodePlaneSize)).elim (.ok st)
      (fun x => do
        let bs ← (← st.bitset x).clear (c % unicodePlaneSize)
        .ok (st.writeBitset x bs)) := by
    rw [Store.charSetClear, hc, ok_bind, hcs, ok_bind, hsize, if_neg (Nat.not_le.mpr hcp.1),
      hgood.planeRef ha hplane, ok_bind]
    cases st.plane a (c / unicodePlaneSize) <;> rfl
  have hset : {m | if m = (c : Nat) then false = true else m ∈ st.members a} =
      st.members a \ {(c : Nat)} := by
    ext m
    by_cases hmc : m = (c : Nat) <;> simp [hmc]
  cases hx : st.plane a (c / unicodePlaneSize) with
  | some x =>
    obtain ⟨bs, hbs, hsz, hbit⟩ := hgood.bitset (hgood.places _ _ x hx)
    obtain ⟨bs', hclear, hsz', hbit'⟩ := @Bitset.clear_spec bs (c % unicodePlaneSize)
      (by rw [hsz]; exact mod_lt_plane c)
    have hbecomes := hgood.write_becomes hx (hsz'.trans hsz) (v := false)
      (fun c => by rw [hbit', hbit]) (hw.imp id fun h => h.trans (by simp))
    rw [hset] at hbecomes
    refine ⟨st.writeBitset x bs', ?_, hbecomes⟩
    rw [hrun, hx, Option.elim_some]
    simp only [hbs, ok_bind, hclear]
  | none =>
    refine ⟨st, by rw [hrun, hx, Option.elim_none], hgood, rfl, rfl, rfl, ?_, fun _ _ => rfl⟩
    have hnot : (c : Nat) ∉ st.members a := by
      rw [Store.mem_members, hx]
      exact Bool.false_ne_true
    exact (Set.sdiff_singleton_eq_self hnot).symm

theorem Store.Writable.mono {st' : Store} {m : Nat} (h : st.Writable a n True)
    (halone : ∀ i, st.Alone a i → st'.Alone a i)
    (hmembers : st'.members a = insert m (st.members a)) :
    st'.Writable a n True := by
  refine h.imp (halone _) fun h => ?_
  rw [hmembers]
  exact iff_of_true (Set.mem_insert_of_mem _ (h.mpr trivial)) trivial

/-- Code points put in one after the other. -/
theorem charSetLoop_spec {cps : List Cp} {ns : List Nat} (hcps : List.Forall₂ Cp.Denotes cps ns)
    (hgood : st.Good) (ha : a < st.charSets.length) (hw : ∀ n ∈ ns, st.Writable a n True) :
    ∃ st', st.charSetLoop a cps = .ok st' ∧ st.Becomes a (st.members a ∪ {n | n ∈ ns}) st' := by
  induction hcps generalizing st with
  | nil => exact ⟨st, rfl, hgood, rfl, rfl, rfl, by simp, fun _ _ => rfl⟩
  | @cons cp n cps ns hcp _ ih =>
    obtain ⟨hwn, hw⟩ := List.forall_mem_cons.mp hw
    obtain ⟨st₁, hrun, hbecomes, halone⟩ := hgood.charSetSet_spec ha hcp hwn
    obtain ⟨st₂, hrest, hbecomes'⟩ := ih hbecomes.good (by rw [hbecomes.length]; exact ha)
      fun n hn => (hw n hn).mono halone hbecomes.members
    refine ⟨st₂, by rw [Store.charSetLoop, hrun, ok_bind, hrest], ?_⟩
    have hunion : insert n (st.members a) ∪ {m | m ∈ ns} = st.members a ∪ {m | m ∈ n :: ns} := by
      ext m
      simp only [Set.mem_union, Set.mem_insert_iff, Set.mem_ofPred_eq, List.mem_cons]
      tauto
    rw [hbecomes.members, hunion] at hbecomes'
    exact hbecomes.trans hbecomes'

end Writes

/-! ## Several code points -/

section Several

variable {st : Store}

variable {a : Nat} {cps : List Cp} {ns : List Nat}

/-- The code points of the arguments put into a new character set. -/
theorem copyLoop_makes (hgood : st.Good) (ha : a < st.charSets.length)
    (hcps : List.Forall₂ Cp.Denotes cps ns) :
    Makes st (do
      let new ← st.copyCharSet a
      let st ← new.2.charSetLoop new.1 cps
      .ok (new.1, st)) (st.members a ∪ {n | n ∈ ns}) := by
  obtain ⟨st₁, hrun, hkeeps, hlen, hmembers, -, halone⟩ := Store.copyCharSet_spec hgood ha
  obtain ⟨st₂, hloop, hbecomes⟩ := charSetLoop_spec hcps hkeeps.good (a := st.charSets.length)
    (by omega) fun n _ => .inl (halone _)
  refine ⟨st.charSets.length, st₂, ?_, hkeeps.becomes (Nat.le_refl _) hbecomes, ?_, ?_⟩
  · rw [hrun, ok_bind, hloop]
    rfl
  · rw [hbecomes.length]
    omega
  · rw [hbecomes.members, hmembers]

/-- `char-set`. -/
theorem charSetOf_spec (hgood : st.Good) (hcps : List.Forall₂ Cp.Denotes cps ns) :
    Makes st (st.charSetOf cps) {n | n ∈ ns} := by
  obtain ⟨cs, hcs, -, hsize, -⟩ := hgood.charSet hgood.empty
  obtain ⟨hnew, -, hnone⟩ := hgood.makeSparseCharSet
  have hlen : (st.makeSparseCharSet unicodeSize).2.charSets.length = st.charSets.length + 1 := by
    simp [Store.makeSparseCharSet]
  obtain ⟨st', hloop, hbecomes⟩ := charSetLoop_spec hcps hnew (a := st.charSets.length) (by omega)
    fun n _ => .inl fun x hx => by rw [hnone] at hx; cases hx
  refine ⟨st.charSets.length, st', ?_,
    hgood.makeSparseCharSet_keeps.becomes (Nat.le_refl _) hbecomes, ?_, ?_⟩
  · rw [Store.charSetOf, hcs, ok_bind, hsize]
    exact (congrArg (· >>= _) hloop).trans rfl
  · rw [hbecomes.length]
    omega
  · rw [hbecomes.members]
    ext n
    rw [Set.mem_union, Store.mem_members, hnone]
    simp [Store.bit]

theorem foldlM_charSetSet (a : Nat) (str : List CodePoint) (st : Store) :
    str.foldlM (fun st c => st.charSetSet a (.unicode c)) st = st.charSetLoop a (str.map .unicode) := by
  induction str generalizing st with
  | nil => rfl
  | cons c str ih =>
    rw [List.foldlM_cons, List.map_cons, Store.charSetLoop]
    exact bind_congr fun st => ih st

/-- `string->char-set`. -/
theorem stringToCharSet_spec (hgood : st.Good) {base : Option Nat}
    (hbase : base.getD st.empty < st.charSets.length) (str : List CodePoint) :
    Makes st (st.stringToCharSet str base)
      (st.members (base.getD st.empty) ∪ {n | ∃ c ∈ str, (c : Nat) = n}) := by
  have hcps : List.Forall₂ Cp.Denotes (str.map .unicode) (str.map Fin.val) := by
    rw [List.forall₂_map_left_iff, List.forall₂_map_right_iff]
    exact List.forall₂_same.mpr fun c _ => ⟨c.isLt, .inr ⟨c, rfl, rfl⟩⟩
  have h := copyLoop_makes hgood hbase hcps
  simp only [List.mem_map] at h
  rw [Store.stringToCharSet]
  simp only [foldlM_charSetSet]
  exact h

theorem ucsRangeLoop_eq (a : Nat) (fuel : Nat) (n e : Int) (h : fuel = (e - n + 1).toNat) (st : Store) :
    st.ucsRangeLoop a fuel n e =
      st.charSetLoop a ((List.range fuel).map fun i : Nat => .integer (n + i)) := by
  induction fuel generalizing n st with
  | zero =>
    rw [Store.ucsRangeLoop, if_pos (by omega)]
    rfl
  | succ fuel ih =>
    rw [Store.ucsRangeLoop, if_neg (by omega), List.range_succ_eq_map, List.map_cons, Store.charSetLoop,
      List.map_map]
    have hcons : (.integer (n + (0 : Nat)) : Cp) = .integer n := by simp
    rw [hcons]
    refine bind_congr fun st => ?_
    rw [ih (n + 1) (by omega)]
    congr 1
    refine List.map_congr_left fun i _ => ?_
    simp only [Function.comp_apply, Nat.succ_eq_add_one]
    congr 1
    push_cast
    ring

/-- `ucs-range->char-set` on integers. -/
theorem ucsRangeToCharSet_spec (hgood : st.Good) {base : Option Nat}
    (hbase : base.getD st.empty < st.charSets.length) {s e : Nat} (he : e < unicodeSize) :
    Makes st (st.ucsRangeToCharSet (.integer s) (.integer e) base)
      (st.members (base.getD st.empty) ∪ Set.Icc s e) := by
  have hcps : List.Forall₂ Cp.Denotes
      ((List.range ((e : Int) - s + 1).toNat).map fun i : Nat => .integer ((s : Int) + i))
      ((List.range ((e : Int) - s + 1).toNat).map fun i => s + i) := by
    rw [List.forall₂_map_left_iff, List.forall₂_map_right_iff]
    refine List.forall₂_same.mpr fun i hi => ⟨?_, .inl (by push_cast; rfl)⟩
    have := List.mem_range.mp hi
    omega
  have h := copyLoop_makes hgood hbase hcps
  have hset : {n | n ∈ (List.range ((e : Int) - s + 1).toNat).map fun i => s + i} = Set.Icc s e := by
    ext n
    simp only [Set.mem_ofPred_eq, List.mem_map, List.mem_range, Set.mem_Icc]
    constructor
    · rintro ⟨i, hi, rfl⟩
      omega
    · rintro ⟨h1, h2⟩
      exact ⟨n - s, by omega, by omega⟩
  rw [hset] at h
  rw [Store.ucsRangeToCharSet]
  simp only [ucsRangeLoop_eq _ _ _ _ rfl]
  exact h

/-- What `char-set-adjoin-loop` makes of an argument. -/
def Cp.toInteger : Cp → Cp
  | .integer i => .integer i
  | .unicode c => .integer (c : Nat)

theorem Cp.Denotes.toInteger {cp : Cp} {n : Nat} (h : cp.Denotes n) : cp.toInteger.Denotes n := by
  obtain ⟨hlt, rfl | ⟨c, rfl, rfl⟩⟩ := h
  · exact ⟨hlt, .inl rfl⟩
  · exact ⟨hlt, .inl rfl⟩

theorem charSetAdjoinLoop_eq (a : Nat) (cps : List Cp) (st : Store) :
    st.charSetAdjoinLoop a cps = st.charSetLoop a (cps.map Cp.toInteger) := by
  induction cps generalizing st with
  | nil => rfl
  | cons cp cps ih =>
    cases cp with
    | unicode c => exact bind_congr fun st => ih st
    | integer i => exact bind_congr fun st => ih st

/-- The loop of `char-set-delete` is that of `char-set-adjoin`. -/
theorem charSetDeleteLoop_eq (a : Nat) (cps : List Cp) (st : Store) :
    st.charSetDeleteLoop a cps = st.charSetAdjoinLoop a cps := by
  induction cps generalizing st with
  | nil => rfl
  | cons cp cps ih =>
    cases cp with
    | unicode c => exact bind_congr fun st => ih st
    | integer i => exact bind_congr fun st => ih st

theorem forall₂_toInteger (h : List.Forall₂ Cp.Denotes cps ns) :
    List.Forall₂ Cp.Denotes (cps.map Cp.toInteger) ns := by
  rw [List.forall₂_map_left_iff]
  exact h.imp fun _ _ h => h.toInteger

/-- `char-set-adjoin`. -/
theorem charSetAdjoin_spec (hgood : st.Good) (ha : a < st.charSets.length)
    (hcps : List.Forall₂ Cp.Denotes cps ns) :
    Makes st (st.charSetAdjoin a cps) (st.members a ∪ {n | n ∈ ns}) := by
  rw [Store.charSetAdjoin]
  cases hcps with
  | nil => exact ⟨a, st, rfl, hgood.keeps_refl, ha, by simp⟩
  | cons hcp hcps =>
    rw [if_neg (by simp)]
    simp only [charSetAdjoinLoop_eq]
    exact copyLoop_makes hgood ha (forall₂_toInteger (.cons hcp hcps))

/-- `char-set-adjoin!`. -/
theorem charSetAdjoinInPlace_spec (hgood : st.Good) (ha : a < st.charSets.length)
    (hcps : List.Forall₂ Cp.Denotes cps ns) (hw : ∀ n ∈ ns, st.Writable a n True) :
    ∃ st', st.charSetAdjoinInPlace a cps = .ok (a, st') ∧
      st.Becomes a (st.members a ∪ {n | n ∈ ns}) st' := by
  obtain ⟨st', hloop, hbecomes⟩ := charSetLoop_spec (forall₂_toInteger hcps) hgood ha hw
  refine ⟨st', ?_, hbecomes⟩
  rw [Store.charSetAdjoinInPlace]
  split
  · rename_i hnil
    rw [List.isEmpty_iff.mp hnil] at hloop
    cases hloop
    rfl
  · rw [charSetAdjoinLoop_eq, hloop]
    rfl

end Several

end Idio.CharSet
