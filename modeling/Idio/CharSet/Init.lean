/-
  CharSet/Init.lean --- the predefined character sets.

  `idio_init_SRFI_14` goes through all code points and adds each to the character sets
  that its entry in the table of code points calls for.  The table is a parameter.
-/
import Idio.CharSet.Points

set_option autoImplicit false

namespace Idio.CharSet

/-! ## The source -/

/-- `idio_SRFI_14_char_set_IDs_enum`. -/
inductive CharSetId where
  | lowerCase | upperCase | titleCase | letter | digit | letterDigit | graphic | printing
  | whitespace | isoControl | punctuation | symbol | hexDigit | blank | ascii | empty | full
  | nonl | control | wordConstituent | cased
  | asciiLetter | asciiLowerCase | asciiUpperCase | asciiDigit | asciiLetterDigit
  | asciiPunctuation | asciiSymbol | asciiGraphic | asciiWhitespace | asciiPrinting
  | asciiIsoControl | asciiWordConstituent
  | regionalIndicator | extendOrSpacingMark | hangulL | hangulV | hangulT | hangulLv | hangulLvt
  deriving DecidableEq, Repr

/-- `ncss`. -/
def ncss : Nat := CharSetId.hangulLvt.ctorIdx + 1

/-- What is looked at of an entry of the table: flags, and `IDIO_USI_CATEGORY_Zs` for `zs`. -/
structure USI where
  lowercase : Bool
  uppercase : Bool
  titlecaseLetter : Bool
  alphabetic : Bool
  decimalNumber : Bool
  letter : Bool
  number : Bool
  mark : Bool
  symbol : Bool
  punctuation : Bool
  whiteSpace : Bool
  asciiHexDigit : Bool
  zs : Bool
  control : Bool
  regionalIndicator : Bool
  extend : Bool
  spacingMark : Bool
  l : Bool
  v : Bool
  t : Bool
  lv : Bool
  lvt : Bool

open CharSetId in
/-- The tests on a code point in their order: which character sets it is added to, and to
which others if it is below `0x80`. -/
def initTests (var : USI) (cp : Nat) : List (Bool × List CharSetId × List CharSetId) :=
  [(var.lowercase, [lowerCase, cased], [asciiLowerCase]),
   (var.uppercase, [upperCase, cased], [asciiUpperCase]),
   (var.titlecaseLetter, [titleCase, cased], []),
   (var.alphabetic, [letter, letterDigit, wordConstituent],
     [asciiLetter, asciiLetterDigit, asciiWordConstituent]),
   (var.decimalNumber, [digit, letterDigit, wordConstituent],
     [asciiDigit, asciiLetterDigit, asciiWordConstituent]),
   (var.letter || var.number || var.mark || var.symbol || var.punctuation, [graphic, printing],
     [asciiGraphic, asciiPrinting]),
   (var.whiteSpace, [whitespace, printing], [asciiWhitespace, asciiPrinting]),
   (decide (cp ≤ 0x1f ∨ 0x7f ≤ cp ∧ cp ≤ 0x9f), [isoControl], [asciiIsoControl]),
   (var.punctuation, [punctuation], [asciiPunctuation]),
   (var.symbol, [symbol], [asciiSymbol]),
   (var.asciiHexDigit, [hexDigit], []),
   (var.zs, [blank], []),
   (decide (cp < 0x80), [ascii], []),
   (var.control, [control], []),
   (var.regionalIndicator, [regionalIndicator], []),
   (var.extend || var.spacingMark, [extendOrSpacingMark], []),
   (var.l, [hangulL], []), (var.v, [hangulV], []), (var.t, [hangulT], []), (var.lv, [hangulLv], []),
   (var.lvt, [hangulLvt], [])]

/-- The character sets that one code point is added to. -/
def initIds (var : USI) (cp : Nat) : List CharSetId :=
  (initTests var cp).flatMap fun test =>
    if test.1 then test.2.1 ++ (if cp < 0x80 then test.2.2 else []) else []

/-- `cp` is added to one character set, with a new bitset for its plane if there is none. -/
def initAdd (st : Store) (id : CharSetId) (cp : Nat) : Result Store := do
  let plane := cp / unicodePlaneSize
  match ← st.planeRef id.ctorIdx plane with
  | some x => do
      let bs ← (← st.bitset x).set (cp % unicodePlaneSize)
      .ok (st.writeBitset x bs)
  | none => do
      let bs ← (Bitset.make unicodePlaneSize).set (cp % unicodePlaneSize)
      let new := st.addBitset bs
      new.2.planeSet id.ctorIdx plane new.1

/-- The loop over the code points. -/
def initLoop (usi : Nat → USI) (st : Store) : Result Store :=
  (List.range unicodeSize).foldlM (fun st cp =>
    (initIds (usi cp) cp).foldlM (fun st id => initAdd st id cp) st) st

/-- `idio_bitset_set` or `idio_bitset_clear` on the bitset of plane 0. -/
def initBit (op : Bitset → Nat → Result Bitset) (st : Store) (id : CharSetId) (bit : Nat) :
    Result Store := do
  match ← st.planeRef id.ctorIdx 0 with
  | some x => do
      let bs ← op (← st.bitset x) bit
      .ok (st.writeBitset x bs)
  | none => .error .undefined

/-- `as[full]` and `as[nonl]` are filled. -/
def initFull (st : Store) (setBs : Option Nat) : Result Store :=
  (List.range unicodePlaneCount).foldlM (fun st pi => do
    let st ← st.planeSet CharSetId.full.ctorIdx pi setBs
    st.planeSet CharSetId.nonl.ctorIdx pi setBs) st

/-- Before the loops. -/
def initStore : Store where
  bitsets := []
  charSets := List.replicate ncss ⟨unicodeSize, List.replicate unicodePlaneCount none⟩
  empty := CharSetId.empty.ctorIdx
  full := CharSetId.full.ctorIdx

/-- `idio_init_SRFI_14`, as far as character sets are concerned. -/
def initSRFI14 (usi : Nat → USI) : Result Store := do
  let st ← initLoop usi initStore
  let st ← initBit Bitset.set st .blank 0x9
  let setBs ← (Bitset.make unicodePlaneSize).notBitset
  let set := st.addBitset setBs
  let st ← initFull set.2 set.1
  let nonl := st.addBitset (← setBs.copy)
  let st ← nonl.2.planeSet CharSetId.nonl.ctorIdx 0 nonl.1
  let st ← initBit Bitset.clear st .nonl 0xa
  let st ← initBit Bitset.set st .wordConstituent 0x5f
  initBit Bitset.set st .asciiWordConstituent 0x5f

/-! ## The loop -/

/-- What the loop does: it makes planes for character sets that are in `touched`. -/
structure Store.Fills (touched : Nat → Prop) (st st' : Store) : Prop where
  good : st'.Good
  length : st'.charSets.length = st.charSets.length
  empty : st'.empty = st.empty
  full : st'.full = st.full
  others : ∀ a, ¬ touched a → ∀ i, st'.plane a i = st.plane a i
  kept : ∀ a i, st.plane a i ≠ none → st'.plane a i ≠ none

theorem Store.Fills.trans {touched : Nat → Prop} {st₁ st₂ st₃ : Store} (h : st₁.Fills touched st₂)
    (h' : st₂.Fills touched st₃) : st₁.Fills touched st₃ where
  good := h'.good
  length := h'.length.trans h.length
  empty := h'.empty.trans h.empty
  full := h'.full.trans h.full
  others := fun a ha i => (h'.others a ha i).trans (h.others a ha i)
  kept := fun a i ha => h'.kept a i (h.kept a i ha)

section Loop

variable {st : Store} {touched : Nat → Prop}

theorem Store.Good.fills_refl (h : st.Good) : st.Fills touched st :=
  ⟨h, rfl, rfl, rfl, fun _ _ _ => rfl, fun _ _ h => h⟩

theorem initAdd_spec (hgood : st.Good) {id : CharSetId} (hid : id.ctorIdx < st.charSets.length)
    (htouched : touched id.ctorIdx) {cp : Nat} (hcp : cp < unicodeSize) :
    ∃ st', initAdd st id cp = .ok st' ∧ st.Fills touched st' ∧
      st'.plane id.ctorIdx (cp / unicodePlaneSize) ≠ none := by
  have hplane := div_lt_planes hcp
  rw [initAdd]
  dsimp only
  rw [hgood.planeRef hid hplane, ok_bind]
  cases hx : st.plane id.ctorIdx (cp / unicodePlaneSize) with
  | some x =>
    have hlt := hgood.places _ _ x hx
    obtain ⟨bs, hbs, hsize, hbit⟩ := hgood.bitset hlt
    obtain ⟨bs', hset, hsize', hbit'⟩ := @Bitset.set_spec bs _ (by
      rw [hsize]; exact mod_lt_plane cp)
    obtain ⟨hgood', hplane', -⟩ := hgood.writeBitset hlt (hsize'.trans hsize) (v := true)
      fun c => by rw [hbit', hbit]
    refine ⟨st.writeBitset x bs', by simp only [hbs, ok_bind, hset], ⟨hgood', rfl, rfl, rfl,
      fun _ _ _ => rfl, fun _ _ h => h⟩, ?_⟩
    rw [hplane', hx]
    exact Option.some_ne_none x
  | none =>
    obtain ⟨bs, hset, hsize, -⟩ := @Bitset.set_spec (Bitset.make unicodePlaneSize) _ (mod_lt_plane cp)
    obtain ⟨hadds, hlt, -⟩ := @Store.Good.addBitset st hgood bs hsize
    obtain ⟨st', hset', hgood', -, hlen', hempty', hfull', hplane'⟩ :=
      hadds.good.planeSet (p := (st.addBitset bs).1) (a := id.ctorIdx) (by rwa [hadds.charSets]) hplane (by
        intro x hx
        rwa [← Option.some.inj hx])
    have hplanes : ∀ c j, st'.plane c j =
        if c = id.ctorIdx ∧ j = cp / unicodePlaneSize then some st.bitsets.length else st.plane c j :=
      hplane'
    refine ⟨st', by simp only [hset, ok_bind]; exact hset', ⟨hgood', hlen', hempty', hfull', ?_, ?_⟩, ?_⟩
    · intro a ha i
      rw [hplanes, if_neg]
      rintro ⟨rfl, -⟩
      exact ha htouched
    · intro a i ha
      rw [hplanes]
      split
      · exact Option.some_ne_none _
      · exact ha
    · rw [hplanes, if_pos ⟨rfl, rfl⟩]
      exact Option.some_ne_none _

/-- One code point. -/
theorem initIds_spec (hgood : st.Good) (hlen : st.charSets.length = ncss) {ids : List CharSetId}
    (htouched : ∀ id ∈ ids, touched id.ctorIdx) {cp : Nat} (hcp : cp < unicodeSize) :
    ∃ st', ids.foldlM (fun st id => initAdd st id cp) st = .ok st' ∧ st.Fills touched st' ∧
      ∀ id ∈ ids, st'.plane id.ctorIdx (cp / unicodePlaneSize) ≠ none := by
  induction ids generalizing st with
  | nil => exact ⟨st, rfl, hgood.fills_refl, by simp⟩
  | cons id ids ih =>
    obtain ⟨hid, hids⟩ := List.forall_mem_cons.mp htouched
    have hlt : id.ctorIdx < st.charSets.length := by
      rw [hlen]
      cases id <;> decide
    obtain ⟨st₁, hrun, hfills, hplane⟩ := initAdd_spec hgood hlt hid hcp
    obtain ⟨st₂, hrest, hfills', hplanes⟩ := ih hfills.good (hfills.length.trans hlen) hids
    refine ⟨st₂, by rw [List.foldlM_cons, hrun, ok_bind, hrest], hfills.trans hfills', ?_⟩
    exact List.forall_mem_cons.mpr ⟨hfills'.kept _ _ hplane, hplanes⟩

theorem initCps_spec (usi : Nat → USI) (hgood : st.Good) (hlen : st.charSets.length = ncss)
    {cps : List Nat} (hcps : ∀ cp ∈ cps, cp < unicodeSize)
    (htouched : ∀ cp ∈ cps, ∀ id ∈ initIds (usi cp) cp, touched id.ctorIdx) :
    ∃ st', cps.foldlM (fun st cp =>
        (initIds (usi cp) cp).foldlM (fun st id => initAdd st id cp) st) st = .ok st' ∧
      st.Fills touched st' ∧
      ∀ cp ∈ cps, ∀ id ∈ initIds (usi cp) cp, st'.plane id.ctorIdx (cp / unicodePlaneSize) ≠ none := by
  induction cps generalizing st with
  | nil => exact ⟨st, rfl, hgood.fills_refl, by simp⟩
  | cons cp cps ih =>
    obtain ⟨hcp, hcps⟩ := List.forall_mem_cons.mp hcps
    obtain ⟨hids, htouched⟩ := List.forall_mem_cons.mp htouched
    obtain ⟨st₁, hrun, hfills, hplane⟩ := initIds_spec hgood hlen hids hcp
    obtain ⟨st₂, hrest, hfills', hplanes⟩ := ih hfills.good (hfills.length.trans hlen) hcps htouched
    refine ⟨st₂, by rw [List.foldlM_cons, hrun, ok_bind, hrest], hfills.trans hfills', ?_⟩
    exact List.forall_mem_cons.mpr ⟨fun id hid => hfills'.kept _ _ (hplane id hid), hplanes⟩

end Loop

/-- The character sets that the loop is not about. -/
def Untouched (a : Nat) : Prop :=
  a = CharSetId.empty.ctorIdx ∨ a = CharSetId.full.ctorIdx ∨ a = CharSetId.nonl.ctorIdx

theorem initIds_touched (var : USI) (cp : Nat) : ∀ id ∈ initIds var cp, ¬ Untouched id.ctorIdx := by
  have hempty : CharSetId.empty ∉ initIds var cp := by simp [initIds, initTests]
  have hfull : CharSetId.full ∉ initIds var cp := by simp [initIds, initTests]
  have hnonl : CharSetId.nonl ∉ initIds var cp := by simp [initIds, initTests]
  intro id hid hun
  cases id with
  | empty => exact hempty hid
  | full => exact hfull hid
  | nonl => exact hnonl hid
  | _ => revert hun; unfold Untouched; decide

theorem initStore_plane (a i : Nat) : initStore.plane a i = none := by
  rw [Store.plane, initStore, List.getElem?_replicate]
  split
  · rw [Option.map_some, Option.getD_some, List.getD_eq_getElem?_getD, List.getElem?_replicate]
    split <;> rfl
  · rfl

theorem initStore_good : initStore.Good := by
  refine ⟨?_, ?_, by simp [initStore], by decide, by decide⟩
  · intro cs hcs
    rw [List.eq_of_mem_replicate hcs]
    exact ⟨rfl, List.length_replicate⟩
  · intro a i x hx
    rw [initStore_plane] at hx
    cases hx

/-! ## After the loop -/

section Rest

variable {st : Store}

/-- One bit of the bitset of plane 0 of a character set: no other bitset changes. -/
theorem initBit_spec (hgood : st.Good) {op : Bitset → Nat → Result Bitset} {v : Bool}
    (hop : ∀ (bs : Bitset) (b : Nat), b < bs.size → ∃ r, op bs b = .ok r ∧ r.size = bs.size ∧
      ∀ i, r.bit i = if i = b then v else bs.bit i)
    (id : CharSetId) (hid : id.ctorIdx < st.charSets.length) {x : Nat}
    (hx : st.plane id.ctorIdx 0 = some x) {b : Nat} (hb : b < unicodePlaneSize) :
    ∃ st', initBit op st id b = .ok st' ∧ st'.Good ∧ st'.charSets = st.charSets ∧
      st'.bitsets.length = st.bitsets.length ∧ st'.empty = st.empty ∧ st'.full = st.full ∧
      ∀ p c, p ≠ some x → st'.bit p c = st.bit p c := by
  have hlt := hgood.places _ _ x hx
  obtain ⟨bs, hbs, hsize, hbit⟩ := hgood.bitset hlt
  obtain ⟨bs', hrun, hsize', hbit'⟩ := hop bs b (by rw [hsize]; exact hb)
  obtain ⟨hgood', -, hbits⟩ := hgood.writeBitset hlt (hsize'.trans hsize) (v := v)
    fun c => by rw [hbit', hbit]
  refine ⟨st.writeBitset x bs', ?_, hgood', rfl, List.length_set .., rfl, rfl, fun p c hp => ?_⟩
  · rw [initBit, hgood.planeRef hid (by decide), ok_bind, hx]
    simp only [hbs, ok_bind, hrun]
  · rw [hbits, if_neg fun h => hp h.1]

theorem initFull_spec (hgood : st.Good) (hlen : st.charSets.length = ncss) {x : Nat}
    (hx : x < st.bitsets.length) {n : Nat} (hn : n ≤ unicodePlaneCount) :
    ∃ st', (List.range n).foldlM (fun st pi => do
        let st ← st.planeSet CharSetId.full.ctorIdx pi (some x)
        st.planeSet CharSetId.nonl.ctorIdx pi (some x)) st = .ok st' ∧ st'.Good ∧
      st'.bitsets = st.bitsets ∧ st'.charSets.length = ncss ∧ st'.empty = st.empty ∧
      st'.full = st.full ∧ ∀ a i, st'.plane a i =
        if (a = CharSetId.full.ctorIdx ∨ a = CharSetId.nonl.ctorIdx) ∧ i < n then some x
        else st.plane a i := by
  induction n with
  | zero => exact ⟨st, rfl, hgood, rfl, hlen, rfl, rfl, fun a i => by rw [if_neg (by omega)]⟩
  | succ n ih =>
    obtain ⟨st₁, hrun, hgood₁, hbits₁, hlen₁, hempty₁, hfull₁, hplane₁⟩ := ih (by omega)
    obtain ⟨st₂, hset₂, hgood₂, hbits₂, hlen₂, hempty₂, hfull₂, hplane₂⟩ :=
      hgood₁.planeSet (a := CharSetId.full.ctorIdx) (i := n) (p := some x) (by rw [hlen₁]; decide)
        hn (by rintro y hy; rw [hbits₁]; rwa [← Option.some.inj hy])
    obtain ⟨st₃, hset₃, hgood₃, hbits₃, hlen₃, hempty₃, hfull₃, hplane₃⟩ :=
      hgood₂.planeSet (a := CharSetId.nonl.ctorIdx) (i := n) (p := some x)
        (by rw [hlen₂, hlen₁]; decide) hn
        (by rintro y hy; rw [hbits₂, hbits₁]; rwa [← Option.some.inj hy])
    refine ⟨st₃, ?_, hgood₃, by rw [hbits₃, hbits₂, hbits₁], by rw [hlen₃, hlen₂, hlen₁],
      by rw [hempty₃, hempty₂, hempty₁], by rw [hfull₃, hfull₂, hfull₁], fun a i => ?_⟩
    · rw [List.range_succ, List.foldlM_append, hrun, ok_bind]
      simp [hset₂, hset₃]
    · rw [hplane₃, hplane₂, hplane₁]
      split_ifs <;> first | rfl | omega

/-- The predefined character sets: whole, `char-set:empty` without members and `char-set:full`
with all code points. -/
theorem initSRFI14_spec {usi : Nat → USI} (hspace : (usi 0x20).zs = true)
    (hletter : (usi 0x41).alphabetic = true) :
    ∃ st, initSRFI14 usi = .ok st ∧ st.Good ∧ st.charSets.length = ncss ∧
      st.empty = CharSetId.empty.ctorIdx ∧ st.full = CharSetId.full.ctorIdx ∧
      st.members st.empty = ∅ ∧ st.members st.full = {n | n < unicodeSize} := by
  have hlen₀ : initStore.charSets.length = ncss := List.length_replicate
  obtain ⟨st₁, hloop, hfills, hplanes⟩ := @initCps_spec initStore (fun a => ¬ Untouched a) usi
    initStore_good hlen₀ (List.range unicodeSize) (fun cp hcp => List.mem_range.mp hcp)
    fun cp _ => initIds_touched (usi cp) cp
  have hlen₁ : st₁.charSets.length = ncss := hfills.length.trans hlen₀
  have hthere : ∀ (id : CharSetId) (cp : Nat), cp < unicodePlaneSize → id ∈ initIds (usi cp) cp →
      ∃ x, st₁.plane id.ctorIdx 0 = some x := by
    intro id cp hcp hid
    have h := hplanes cp (List.mem_range.mpr (Nat.lt_trans hcp (by decide))) id hid
    rw [Nat.div_eq_of_lt hcp] at h
    exact Option.ne_none_iff_exists'.mp h
  obtain ⟨xb, hxb⟩ := hthere .blank 0x20 (by decide) (by simp [initIds, initTests, hspace])
  obtain ⟨xw, hxw⟩ := hthere .wordConstituent 0x41 (by decide) (by simp [initIds, initTests, hletter])
  obtain ⟨xa, hxa⟩ := hthere .asciiWordConstituent 0x41 (by decide)
    (by simp [initIds, initTests, hletter])
  have hnone : ∀ i, st₁.plane CharSetId.empty.ctorIdx i = none := fun i =>
    (hfills.others _ (not_not.mpr (.inl rfl)) i).trans (initStore_plane _ i)
  obtain ⟨st₂, hblank, hgood₂, hcss₂, hblen₂, hempty₂, hfull₂, -⟩ := initBit_spec hfills.good
    (fun _ _ => Bitset.set_spec) .blank (by rw [hlen₁]; decide) hxb (b := 0x9) (by decide)
  have hplane₂ : ∀ a i, st₂.plane a i = st₁.plane a i := fun a i => by
    rw [Store.plane, hcss₂, Store.plane]
  obtain ⟨bs, hnot, hsize, hbits⟩ := (@Bitset.complements_iff (Bitset.make unicodePlaneSize)).mpr
    (by decide)
  obtain ⟨hadds, hltbs, hbitbs⟩ := @Store.Good.addBitset st₂ hgood₂ bs hsize
  obtain ⟨st₃, hfullrun, hgood₃, hbs₃, hlen₃, hempty₃, hfull₃, hplane₃⟩ :=
    initFull_spec hadds.good (by rw [hadds.charSets, hcss₂, hlen₁]) hltbs (Nat.le_refl _)
  obtain ⟨hadds₃, hltbs₃, -⟩ := @Store.Good.addBitset st₃ hgood₃ bs hsize
  obtain ⟨st₄, hset₄, hgood₄, hbs₄, hlen₄, hempty₄, hfull₄, hplane₄⟩ :=
    hadds₃.good.planeSet (a := CharSetId.nonl.ctorIdx) (i := 0) (p := (st₃.addBitset bs).1)
      (by rw [hadds₃.charSets, hlen₃]; decide) (by decide) (by
        intro x hx
        rwa [← Option.some.inj hx])
  have hnonl : st₄.plane CharSetId.nonl.ctorIdx 0 = some st₃.bitsets.length := by
    rw [hplane₄, if_pos ⟨rfl, rfl⟩]
    rfl
  obtain ⟨st₅, hclear, hgood₅, hcss₅, hblen₅, hempty₅, hfull₅, hbit₅⟩ := initBit_spec hgood₄
    (fun _ _ => Bitset.clear_spec) .nonl
    (by rw [hlen₄, hadds₃.charSets, hlen₃]; decide) hnonl (b := 0xa) (by decide)
  have hold₅ : ∀ a i, ¬ Untouched a → st₅.plane a i = st₁.plane a i := by
    intro a i ha
    rw [Store.plane, hcss₅, ← Store.plane, hplane₄, if_neg (fun h => ha (.inr (.inr h.1)))]
    refine (hplane₃ a i).trans ?_
    rw [if_neg (fun h => ha (h.1.elim (fun h => .inr (.inl h)) fun h => .inr (.inr h)))]
    exact hplane₂ a i
  obtain ⟨st₆, hword, hgood₆, hcss₆, hblen₆, hempty₆, hfull₆, hbit₆⟩ := initBit_spec hgood₅
    (fun _ _ => Bitset.set_spec) .wordConstituent
    (by rw [hcss₅, hlen₄, hadds₃.charSets, hlen₃]; decide)
    ((hold₅ _ 0 (by unfold Untouched; decide)).trans hxw) (b := 0x5f) (by decide)
  obtain ⟨st₇, hword', hgood₇, hcss₇, hblen₇, hempty₇, hfull₇, hbit₇⟩ := initBit_spec hgood₆
    (fun _ _ => Bitset.set_spec) .asciiWordConstituent
    (by rw [hcss₆, hcss₅, hlen₄, hadds₃.charSets, hlen₃]; decide)
    (x := xa) (by
      rw [Store.plane, hcss₆, ← Store.plane]
      exact (hold₅ _ 0 (by unfold Untouched; decide)).trans hxa) (b := 0x5f) (by decide)
  have hplane₇ : ∀ a i, st₇.plane a i = st₄.plane a i := fun a i => by
    rw [Store.plane, hcss₇, hcss₆, hcss₅, Store.plane]
  have hemptyid : st₇.empty = CharSetId.empty.ctorIdx := by
    rw [hempty₇, hempty₆, hempty₅, hempty₄, hadds₃.empty, hempty₃, hadds.empty, hempty₂, hfills.empty]
    rfl
  have hfullid : st₇.full = CharSetId.full.ctorIdx := by
    rw [hfull₇, hfull₆, hfull₅, hfull₄, hadds₃.full, hfull₃, hadds.full, hfull₂, hfills.full]
    rfl
  refine ⟨st₇, ?_, hgood₇, ?_, hemptyid, hfullid, ?_, ?_⟩
  · rw [initSRFI14, initLoop, hloop, ok_bind, hblank, ok_bind, hnot, ok_bind]
    dsimp only
    rw [initFull, show (st₂.addBitset bs).1 = some st₂.bitsets.length from rfl, hfullrun, ok_bind,
      copy_of_size hsize, ok_bind, hset₄, ok_bind, hclear, ok_bind, hword, ok_bind, hword']
  · rw [hcss₇, hcss₆, hcss₅, hlen₄, hadds₃.charSets, hlen₃]
  · ext cp
    rw [hemptyid, Store.mem_members, hplane₇, hplane₄, if_neg (fun h => absurd h.1 (by decide))]
    refine iff_of_false ?_ (Set.notMem_empty cp)
    have hnone₃ := hplane₃ CharSetId.empty.ctorIdx (cp / unicodePlaneSize)
    rw [if_neg (fun h => absurd h.1 (by decide))] at hnone₃
    have hnone₃' : (st₃.addBitset bs).2.plane CharSetId.empty.ctorIdx (cp / unicodePlaneSize) = none :=
      hnone₃.trans ((hplane₂ _ _).trans (hnone _))
    rw [hnone₃']
    exact Bool.false_ne_true
  · -- the bitset of all planes of `char-set:full` is the last one but the copy for `nonl`
    refine (members_eq hgood₇ (k := fun _ _ => true) ?_).trans (by simp)
    intro j hj b hb
    have hx : st₇.plane st₇.full j = some st₂.bitsets.length := by
      rw [hfullid, hplane₇, hplane₄, if_neg (fun h => absurd h.1 (by decide))]
      refine (hplane₃ CharSetId.full.ctorIdx j).trans ?_
      rw [if_pos ⟨.inl rfl, hj⟩]
    have hlt₃ : st₂.bitsets.length < st₃.bitsets.length := by
      rw [hbs₃]
      exact hltbs
    have hlast : ∀ {a i x : Nat}, st₁.plane a i = some x → x < st₂.bitsets.length := fun h =>
      hgood₂.places _ _ _ ((hplane₂ _ _).trans h)
    rw [hx, hbit₇ _ _ (fun h => absurd (hlast hxa) (by cases h; omega)),
      hbit₆ _ _ (fun h => absurd (hlast hxw) (by cases h; omega)),
      hbit₅ _ _ (fun h => absurd (Option.some.inj h) (by omega))]
    have hb₄ : st₄.bit (some st₂.bitsets.length) b = st₃.bit (some st₂.bitsets.length) b :=
      Store.bit_of_prefix (by rw [hbs₄]; exact hadds₃.bitsets) (by rintro x hx; cases hx; exact hlt₃) b
    have hb₃ : st₃.bit (some st₂.bitsets.length) b = (st₂.addBitset bs).2.bit (some st₂.bitsets.length) b := by
      rw [Store.bit, hbs₃, Store.bit]
    rw [hb₄, hb₃]
    exact (hbitbs b).trans ((hbits b hb).trans (by rw [bit_make]; rfl))

end Rest

end Idio.CharSet
