/-
  CharSet/Runs.lean --- sequences of calls of the library.

  `Agrees` says in terms of sets what each function is for.  `Fits` says when the code
  keeps to it: no code points are deleted, nothing is subtracted where there is no plane
  to subtract from, folds are over the first plane, ranges are of integers, and a write
  in place is to a plane of one character set.
-/
import Idio.CharSet.Folds
import Idio.CharSet.Init

set_option autoImplicit false

namespace Idio.CharSet

/-! ## Calls -/

/-- A call of the library; `complement-char-set!` is `notCharSet`, and
`difference-char-set!` is `differenceCharSet`. -/
inductive Op where
  | charSet (cps : List Cp)
  | copyCharSet (cs : Nat)
  | stringToCharSet (str : List CodePoint) (base : Option Nat)
  | ucsRangeToCharSet (s e : Cp) (base : Option Nat)
  | charSetContains (cs : Nat) (cp : Cp)
  | charSetSet (cs : Nat) (cp : Cp)
  | charSetClear (cs : Nat) (cp : Cp)
  | charSetAdjoin (cs : Nat) (cps : List Cp)
  | charSetAdjoinInPlace (cs : Nat) (cps : List Cp)
  | charSetDelete (cs : Nat) (cps : List Cp)
  | charSetDeleteInPlace (cs : Nat) (cps : List Cp)
  | andCharSet (css : List Nat)
  | iorCharSet (css : List Nat)
  | xorCharSet (css : List Nat)
  | notCharSet (cs : Nat)
  | subtractCharSet (cs : Nat) (css : List Nat)
  | differenceCharSet (cs : Nat) (css : List Nat)
  | unionInPlace (css : List Nat)
  | intersectionInPlace (css : List Nat)
  | charSetForEachSet (cs : Nat)
  | foldCharSet (cs : Nat)
  | charSetToString (cs : Nat)

/-- The value of a call; `visited` is what the function was called with, in order. -/
inductive Reply where
  | charSet (a : Nat)
  | bool (b : Bool)
  | unspec
  | visited (l : List Nat)
  | string (s : List CodePoint)
  deriving DecidableEq, Repr

/-- The value of a call that makes a character set. -/
def made (r : Result (Nat × Store)) : Result (Reply × Store) := do
  let r ← r
  .ok (.charSet r.1, r.2)

/-- The value of a call that only changes one. -/
def changed (r : Result Store) : Result (Reply × Store) := do
  let st ← r
  .ok (.unspec, st)

def step (st : Store) : Op → Result (Reply × Store)
  | .charSet cps => made (st.charSetOf cps)
  | .copyCharSet cs => made (st.copyCharSet cs)
  | .stringToCharSet str base => made (st.stringToCharSet str base)
  | .ucsRangeToCharSet s e base => made (st.ucsRangeToCharSet s e base)
  | .charSetContains cs cp => do .ok (.bool (← st.charSetRef cs cp), st)
  | .charSetSet cs cp => changed (st.charSetSet cs cp)
  | .charSetClear cs cp => changed (st.charSetClear cs cp)
  | .charSetAdjoin cs cps => made (st.charSetAdjoin cs cps)
  | .charSetAdjoinInPlace cs cps => made (st.charSetAdjoinInPlace cs cps)
  | .charSetDelete cs cps => made (st.charSetDelete cs cps)
  | .charSetDeleteInPlace cs cps => made (st.charSetDeleteInPlace cs cps)
  | .andCharSet css => made (st.andCharSet css)
  | .iorCharSet css => made (st.iorCharSet css)
  | .xorCharSet css => made (st.xorCharSet css)
  | .notCharSet cs => made (st.notCharSet cs)
  | .subtractCharSet cs css => made (st.subtractCharSet cs css)
  | .differenceCharSet cs css => made (st.differenceCharSet cs css)
  | .unionInPlace css => made (st.unionInPlace css)
  | .intersectionInPlace css => made (st.intersectionInPlace css)
  | .charSetForEachSet cs => do
      .ok (.visited (← st.charSetForEachSet cs (fun cp l => .ok (l ++ [cp])) []), st)
  | .foldCharSet cs => do
      .ok (.visited (← st.foldCharSet cs (fun cp l => .ok (l ++ [cp])) []), st)
  | .charSetToString cs => do .ok (.string (← st.charSetToString cs), st)

def run (st : Store) : List Op → Result (List Reply × Store)
  | [] => .ok ([], st)
  | op :: ops => do
      let r ← step st op
      let rs ← run r.2 ops
      .ok (r.1 :: rs.1, rs.2)

/-! ## Sets of code points -/

/-- Sets with names, and which of them are `char-set:empty` and `char-set:full`. -/
@[ext]
structure Family where
  count : Nat
  members : Nat → Set Nat
  empty : Nat
  full : Nat

/-- What a store stands for. -/
def Store.family (st : Store) : Family := ⟨st.charSets.length, st.members, st.empty, st.full⟩

namespace Family

/-- No set that there was has changed. -/
structure Unchanged (F F' : Family) : Prop where
  count : F.count ≤ F'.count
  members : ∀ b < F.count, F'.members b = F.members b
  empty : F'.empty = F.empty
  full : F'.full = F.full

/-- The reply is a set with the members `E`. -/
def Makes (F : Family) (r : Reply) (E : Set Nat) (F' : Family) : Prop :=
  F.Unchanged F' ∧ ∃ a < F'.count, r = .charSet a ∧ F'.members a = E

/-- The set `a` has the members `E` afterwards, and no other has changed. -/
structure Changes (F : Family) (a : Nat) (E : Set Nat) (F' : Family) : Prop where
  count : F'.count = F.count
  members : F'.members a = E
  others : ∀ b, b ≠ a → F'.members b = F.members b
  empty : F'.empty = F.empty
  full : F'.full = F.full

/-- The reply visits the members of `a`, once each and in increasing order. -/
def Visits (F : Family) (a : Nat) (l : List Nat) (F' : Family) : Prop :=
  F' = F ∧ l.Pairwise (· < ·) ∧ ∀ n, n ∈ l ↔ n ∈ F.members a

end Family

/-- The code points that arguments denote. -/
def denoted (cps : List Cp) : Set Nat := {n | ∃ cp ∈ cps, cp.Denotes n}

/-- What each call is to do. -/
def Agrees (F : Family) (r : Reply) (F' : Family) : Op → Prop
  | .charSet cps => F.Makes r (denoted cps) F'
  | .copyCharSet cs => F.Makes r (F.members cs) F'
  | .stringToCharSet str base =>
      F.Makes r (F.members (base.getD F.empty) ∪ {n | ∃ c ∈ str, (c : Nat) = n}) F'
  | .ucsRangeToCharSet s e base =>
      F.Makes r (F.members (base.getD F.empty) ∪
        {n | ∃ i j, s.Denotes i ∧ e.Denotes j ∧ i ≤ n ∧ n ≤ j}) F'
  | .charSetContains cs cp =>
      F' = F ∧ ∃ b, r = .bool b ∧ (b = true ↔ ∃ n, cp.Denotes n ∧ n ∈ F.members cs)
  | .charSetSet cs cp => F.Changes cs (F.members cs ∪ denoted [cp]) F'
  | .charSetClear cs cp => F.Changes cs (F.members cs \ denoted [cp]) F'
  | .charSetAdjoin cs cps => F.Makes r (F.members cs ∪ denoted cps) F'
  | .charSetAdjoinInPlace cs cps =>
      r = .charSet cs ∧ F.Changes cs (F.members cs ∪ denoted cps) F'
  | .charSetDelete cs cps => F.Makes r (F.members cs \ denoted cps) F'
  | .charSetDeleteInPlace cs cps =>
      r = .charSet cs ∧ F.Changes cs (F.members cs \ denoted cps) F'
  | .andCharSet [] => F.Makes r (F.members F.empty) F'
  | .andCharSet (cs :: css) => F.Makes r (css.foldl (fun A c => A ∩ F.members c) (F.members cs)) F'
  | .iorCharSet [] => F.Makes r (F.members F.full) F'
  | .iorCharSet (cs :: css) => F.Makes r (css.foldl (fun A c => A ∪ F.members c) (F.members cs)) F'
  | .xorCharSet [] => F.Makes r (F.members F.empty) F'
  | .xorCharSet (cs :: css) =>
      F.Makes r (css.foldl (fun A c => symmDiff A (F.members c)) (F.members cs)) F'
  | .notCharSet cs => F.Makes r {n | n < unicodeSize ∧ n ∉ F.members cs} F'
  | .subtractCharSet cs css | .differenceCharSet cs css =>
      F.Makes r (css.foldl (fun A c => A \ F.members c) (F.members cs)) F'
  | .unionInPlace [] => F.Makes r (F.members F.empty) F'
  | .unionInPlace (cs :: css) => F.Makes r (css.foldl (fun A c => A ∪ F.members c) (F.members cs)) F'
  | .intersectionInPlace [] => F.Makes r (F.members F.full) F'
  | .intersectionInPlace (cs :: css) =>
      F.Makes r (css.foldl (fun A c => A ∩ F.members c) (F.members cs)) F'
  | .charSetForEachSet cs | .foldCharSet cs => ∃ l, r = .visited l ∧ F.Visits cs l F'
  | .charSetToString cs => ∃ s, r = .string s ∧ F.Visits cs (s.map Fin.val) F'

def AgreesRun (F : Family) : List Op → List Reply → Family → Prop
  | [], rs, F' => rs = [] ∧ F' = F
  | op :: ops, rs, F' => ∃ r rs' F₁, rs = r :: rs' ∧ Agrees F r F₁ op ∧ AgreesRun F₁ ops rs' F'

/-! ## When the code does it -/

def Store.Has (st : Store) (a : Nat) : Prop := a < st.charSets.length

/-- An argument that is a code point. -/
def Cp.Valid (cp : Cp) : Prop := cp.Denotes cp.bit

/-- The calls that keep to `Agrees`. -/
def Fits (st : Store) : Op → Prop
  | .charSet cps => ∀ cp ∈ cps, cp.Valid
  | .copyCharSet cs => st.Has cs
  | .stringToCharSet _ base => st.Has (base.getD st.empty)
  | .ucsRangeToCharSet s e base => st.Has (base.getD st.empty) ∧ s.Valid ∧ e.Valid ∧
      s = .integer s.bit ∧ e = .integer e.bit
  | .charSetContains cs cp => st.Has cs ∧ cp.Valid
  | .charSetSet cs cp => st.Has cs ∧ cp.Valid ∧ st.Writable cs cp.bit True
  | .charSetClear cs cp => st.Has cs ∧ cp.Valid ∧ st.Writable cs cp.bit False
  | .charSetAdjoin cs cps => st.Has cs ∧ ∀ cp ∈ cps, cp.Valid
  | .charSetAdjoinInPlace cs cps => st.Has cs ∧ ∀ cp ∈ cps, cp.Valid ∧ st.Writable cs cp.bit True
  | .charSetDelete cs cps => st.Has cs ∧ cps = []
  | .charSetDeleteInPlace cs cps => st.Has cs ∧ cps = []
  | .andCharSet css => ∀ c ∈ css, st.Has c
  | .iorCharSet css => ∀ c ∈ css, st.Has c
  | .xorCharSet css => ∀ c ∈ css, st.Has c
  | .notCharSet cs => st.Has cs
  | .subtractCharSet cs css => st.Has cs ∧ (∀ c ∈ css, st.Has c) ∧ st.Subtracts cs css
  | .differenceCharSet cs css => st.Has cs ∧ (∀ c ∈ css, st.Has c) ∧ st.Subtracts cs css
  | .unionInPlace css => ∀ c ∈ css, st.Has c
  | .intersectionInPlace css => ∀ c ∈ css, st.Has c
  | .charSetForEachSet cs => st.Has cs ∧ st.FirstPlane cs
  | .foldCharSet cs => st.Has cs ∧ st.FirstPlane cs
  | .charSetToString cs => st.Has cs ∧ st.FirstPlane cs

def FitsRun (st : Store) : List Op → Prop
  | [] => True
  | op :: ops => Fits st op ∧ ∀ r st', step st op = .ok (r, st') → FitsRun st' ops

/-! ## Steps -/

section Steps

variable {st : Store}

theorem forall₂_denotes {cps : List Cp} (h : ∀ cp ∈ cps, cp.Valid) :
    List.Forall₂ Cp.Denotes cps (cps.map Cp.bit) := by
  rw [List.forall₂_map_right_iff]
  exact List.forall₂_same.mpr h

theorem denoted_eq {cps : List Cp} (h : ∀ cp ∈ cps, cp.Valid) :
    {n | n ∈ cps.map Cp.bit} = denoted cps := by
  ext n
  simp only [Set.mem_ofPred_eq, List.mem_map, denoted]
  constructor
  · rintro ⟨cp, hcp, rfl⟩
    exact ⟨cp, hcp, h cp hcp⟩
  · rintro ⟨cp, hcp, hn⟩
    exact ⟨cp, hcp, hn.bit⟩

/-- What the result of a call says of the family. -/
theorem made_agrees {r : Result (Nat × Store)} {E : Set Nat} (h : Makes st r E) :
    ∃ reply st', made r = .ok (reply, st') ∧ st'.Good ∧ st.family.Makes reply E st'.family := by
  obtain ⟨a, st', rfl, hkeeps, ha, hE⟩ := h
  exact ⟨.charSet a, st', rfl, hkeeps.good,
    ⟨hkeeps.length, hkeeps.members, hkeeps.empty, hkeeps.full⟩, a, ha, rfl, hE⟩

theorem Store.Becomes.changes {st' : Store} {a : Nat} {E : Set Nat} (h : st.Becomes a E st') :
    st.family.Changes a E st'.family :=
  ⟨h.length, h.members, h.others, h.empty, h.full⟩

theorem self_makes (hgood : st.Good) {a : Nat} (ha : st.Has a) : Makes st (.ok (a, st)) (st.members a) :=
  ⟨a, st, rfl, hgood.keeps_refl, ha, rfl⟩

theorem visits {a : Nat} (h : st.FirstPlane a) :
    st.family.Visits a (st.inOrder a) st.family :=
  ⟨rfl, Store.inOrder_sorted a, Store.mem_inOrder h⟩

theorem foldlM_snoc (l v : List Nat) :
    l.foldlM (fun v cp => (.ok (v ++ [cp]) : Result (List Nat))) v = .ok (v ++ l) := by
  induction l generalizing v with
  | nil => rw [List.append_nil]; rfl
  | cons cp l ih => rw [List.foldlM_cons, ok_bind, ih, List.append_assoc, List.singleton_append]

theorem insert_eq_union {cp : Cp} (h : cp.Valid) (A : Set Nat) :
    insert cp.bit A = A ∪ denoted [cp] := by
  rw [← denoted_eq (by simpa using h)]
  ext n
  simp [or_comm]

theorem sdiff_eq {cp : Cp} (h : cp.Valid) (A : Set Nat) : A \ {cp.bit} = A \ denoted [cp] := by
  rw [← denoted_eq (by simpa using h)]
  congr 1
  ext n
  simp

theorem subtract_agrees (hgood : st.Good) {cs : Nat} {css : List Nat} (hcs : st.Has cs)
    (hcss : ∀ c ∈ css, st.Has c) (hsub : st.Subtracts cs css) :
    Makes st (st.differenceCharSet cs css)
      (css.foldl (fun A c => A \ st.members c) (st.members cs)) := by
  rw [Store.differenceCharSet]
  cases css with
  | nil => exact self_makes hgood hcs
  | cons c css => exact subtractCharSet_spec hgood hcs hcss hsub

/-- One call. -/
theorem step_agrees (hgood : st.Good) {op : Op} (hfits : Fits st op) :
    ∃ r st', step st op = .ok (r, st') ∧ st'.Good ∧ Agrees st.family r st'.family op := by
  cases op with
  | charSet cps =>
    have h := charSetOf_spec hgood (forall₂_denotes hfits)
    rw [denoted_eq hfits] at h
    exact made_agrees h
  | copyCharSet cs => exact made_agrees (copy_makes hgood hfits)
  | stringToCharSet str base => exact made_agrees (stringToCharSet_spec hgood hfits str)
  | ucsRangeToCharSet s e base =>
    obtain ⟨hbase, hs, he, hsint, heint⟩ := hfits
    have h := ucsRangeToCharSet_spec hgood hbase (s := s.bit) he.1
    rw [← hsint, ← heint] at h
    have hset : Set.Icc s.bit e.bit = {n | ∃ i j, s.Denotes i ∧ e.Denotes j ∧ i ≤ n ∧ n ≤ j} := by
      ext n
      constructor
      · rintro ⟨h1, h2⟩
        exact ⟨_, _, hs, he, h1, h2⟩
      · rintro ⟨i, j, hi, hj, h1, h2⟩
        rw [Set.mem_Icc, hi.bit, hj.bit]
        exact ⟨h1, h2⟩
    rw [hset] at h
    exact made_agrees h
  | charSetContains cs cp =>
    obtain ⟨hcs, hcp⟩ := hfits
    refine ⟨_, st, by rw [step, hgood.charSetRef_spec hcs hcp]; rfl, hgood, rfl, _, rfl, ?_⟩
    rw [decide_eq_true_eq]
    constructor
    · exact fun h => ⟨_, hcp, h⟩
    · rintro ⟨n, hn, h⟩
      rwa [← hn.bit] at h
  | charSetSet cs cp =>
    obtain ⟨hcs, hcp, hw⟩ := hfits
    obtain ⟨st', hrun, hbecomes, -⟩ := hgood.charSetSet_spec hcs hcp hw
    rw [insert_eq_union hcp] at hbecomes
    exact ⟨.unspec, st', by rw [step, hrun]; rfl, hbecomes.good, hbecomes.changes⟩
  | charSetClear cs cp =>
    obtain ⟨hcs, hcp, hw⟩ := hfits
    obtain ⟨st', hrun, hbecomes⟩ := hgood.charSetClear_spec hcs hcp hw
    rw [sdiff_eq hcp] at hbecomes
    exact ⟨.unspec, st', by rw [step, hrun]; rfl, hbecomes.good, hbecomes.changes⟩
  | charSetAdjoin cs cps =>
    obtain ⟨hcs, hcps⟩ := hfits
    have h := charSetAdjoin_spec hgood hcs (forall₂_denotes hcps)
    rw [denoted_eq hcps] at h
    exact made_agrees h
  | charSetAdjoinInPlace cs cps =>
    obtain ⟨hcs, hcps⟩ := hfits
    obtain ⟨st', hrun, hbecomes⟩ := charSetAdjoinInPlace_spec hgood hcs
      (forall₂_denotes fun cp hcp => (hcps cp hcp).1) (by
        intro n hn
        obtain ⟨cp, hcp, rfl⟩ := List.mem_map.mp hn
        exact (hcps cp hcp).2)
    rw [denoted_eq fun cp hcp => (hcps cp hcp).1] at hbecomes
    exact ⟨.charSet cs, st', by rw [step, hrun]; rfl, hbecomes.good, rfl, hbecomes.changes⟩
  | charSetDelete cs cps =>
    obtain ⟨hcs, rfl⟩ := hfits
    have hset : st.members cs = st.members cs \ denoted [] := by simp [denoted]
    have h := self_makes hgood hcs
    rw [hset] at h
    exact made_agrees h
  | charSetDeleteInPlace cs cps =>
    obtain ⟨hcs, rfl⟩ := hfits
    refine ⟨.charSet cs, st, rfl, hgood, rfl, rfl, ?_, fun _ _ => rfl, rfl, rfl⟩
    simp [denoted, Store.family]
  | andCharSet css =>
    have h := andCharSet_spec hgood hfits
    cases css with
    | nil => exact made_agrees h
    | cons c css => exact made_agrees h
  | iorCharSet css =>
    have h := iorCharSet_spec hgood hfits
    cases css with
    | nil => exact made_agrees h
    | cons c css => exact made_agrees h
  | xorCharSet css =>
    have h := xorCharSet_spec hgood hfits
    cases css with
    | nil => exact made_agrees h
    | cons c css => exact made_agrees h
  | notCharSet cs => exact made_agrees (Store.notCharSet_spec hgood hfits)
  | subtractCharSet cs css =>
    obtain ⟨hcs, hcss, hsub⟩ := hfits
    exact made_agrees (subtractCharSet_spec hgood hcs hcss hsub)
  | differenceCharSet cs css =>
    obtain ⟨hcs, hcss, hsub⟩ := hfits
    exact made_agrees (subtract_agrees hgood hcs hcss hsub)
  | unionInPlace css =>
    cases css with
    | nil => exact made_agrees (copy_makes hgood hgood.empty)
    | cons c css => exact made_agrees (iorCharSet_spec hgood hfits)
  | intersectionInPlace css =>
    cases css with
    | nil => exact made_agrees (copy_makes hgood hgood.full)
    | cons c css => exact made_agrees (andCharSet_spec hgood hfits)
  | charSetForEachSet cs =>
    obtain ⟨hcs, hfirst⟩ := hfits
    refine ⟨.visited (st.inOrder cs), st, ?_, hgood, st.inOrder cs, rfl, visits hfirst⟩
    rw [step, hgood.charSetForEachSet_eq hcs hfirst, foldlM_snoc, List.nil_append]
    rfl
  | foldCharSet cs =>
    obtain ⟨hcs, hfirst⟩ := hfits
    refine ⟨.visited (st.inOrder cs), st, ?_, hgood, st.inOrder cs, rfl, visits hfirst⟩
    rw [step, hgood.foldCharSet_eq hcs hfirst, foldlM_snoc, List.nil_append]
    rfl
  | charSetToString cs =>
    obtain ⟨hcs, hfirst⟩ := hfits
    obtain ⟨s, hrun, hs⟩ := hgood.charSetToString_spec hcs hfirst
    refine ⟨.string s, st, by rw [step, hrun]; rfl, hgood, s, rfl, ?_⟩
    rw [hs]
    exact visits hfirst

/-- A sequence of calls. -/
theorem run_agrees (hgood : st.Good) {ops : List Op} (hfits : FitsRun st ops) :
    ∃ rs st', run st ops = .ok (rs, st') ∧ st'.Good ∧ AgreesRun st.family ops rs st'.family := by
  induction ops generalizing st with
  | nil => exact ⟨[], st, rfl, hgood, rfl, rfl⟩
  | cons op ops ih =>
    obtain ⟨hop, hops⟩ := hfits
    obtain ⟨r, st₁, hstep, hgood₁, hagrees⟩ := step_agrees hgood hop
    obtain ⟨rs, st₂, hrun, hgood₂, hagrees'⟩ := ih hgood₁ (hops r st₁ hstep)
    exact ⟨r :: rs, st₂, by rw [run, hstep, ok_bind, hrun]; rfl, hgood₂, r, rs, st₁.family, rfl,
      hagrees, hagrees'⟩

/-- A character set made a string and the string a character set. -/
theorem string_round_trip (hgood : st.Good) {a : Nat} (ha : st.Has a) (hfirst : st.FirstPlane a) :
    ∃ s b st', st.charSetToString a = .ok s ∧ st.stringToCharSet s none = .ok (b, st') ∧
      st'.members b = st.members st.empty ∪ st.members a := by
  obtain ⟨s, hrun, hs⟩ := hgood.charSetToString_spec ha hfirst
  obtain ⟨b, st', hrun', -, -, hmembers⟩ := @stringToCharSet_spec st hgood none hgood.empty s
  refine ⟨s, b, st', hrun, hrun', hmembers.trans ?_⟩
  congr 1
  ext n
  rw [← Store.mem_inOrder hfirst, ← hs, List.mem_map]
  rfl

end Steps

/-! ## Runs from the predefined character sets -/

/-- The table has U+0020 as a space separator and U+0041 as alphabetic.  Then the
predefined character sets are made, and in every run whose calls all fit each call does to
the sets what it is for. -/
theorem char_sets {usi : Nat → USI} (hspace : (usi 0x20).zs = true)
    (hletter : (usi 0x41).alphabetic = true) :
    ∃ st, initSRFI14 usi = .ok st ∧ st.members st.empty = ∅ ∧
      st.members st.full = {n | n < unicodeSize} ∧
      ∀ ops, FitsRun st ops →
        ∃ rs st', run st ops = .ok (rs, st') ∧ AgreesRun st.family ops rs st'.family ∧
          ∀ a, st'.Has a → st'.FirstPlane a →
            ∃ s b st'', st'.charSetToString a = .ok s ∧ st'.stringToCharSet s none = .ok (b, st'') ∧
              st''.members b = st'.members st'.empty ∪ st'.members a := by
  obtain ⟨st, hinit, hgood, -, -, -, hempty, hfull⟩ := initSRFI14_spec hspace hletter
  refine ⟨st, hinit, hempty, hfull, fun ops hops => ?_⟩
  obtain ⟨rs, st', hrun, hgood', hagrees⟩ := run_agrees hgood hops
  exact ⟨rs, st', hrun, hagrees, fun a ha hfirst => string_round_trip hgood' ha hfirst⟩

/-- An entry of the table with all flags. -/
def allFlags : USI :=
  ⟨true, true, true, true, true, true, true, true, true, true, true, true, true, true, true, true, true,
    true, true, true, true, true⟩

/-- A copy of `char-set:empty`, to which two code points are then added in place. -/
def copyAndAdjoin (st : Store) : List Op :=
  [.copyCharSet st.empty,
    .charSetAdjoinInPlace st.charSets.length [.integer 0x61, .integer 0x62],
    .charSetContains st.charSets.length (.integer 0x62)]

theorem char_sets_one :
    ∃ st, initSRFI14 (fun _ => allFlags) = .ok st ∧
      ∃ rs st', run st (copyAndAdjoin st) = .ok (rs, st') ∧
        AgreesRun st.family (copyAndAdjoin st) rs st'.family := by
  obtain ⟨st, hinit, -, -, hruns⟩ := @char_sets (fun _ => allFlags) rfl rfl
  obtain ⟨st₀, hinit₀, hgood, -⟩ := @initSRFI14_spec (fun _ => allFlags) rfl rfl
  have hst : st₀ = st := Except.ok.inj (hinit₀.symm.trans hinit)
  subst hst
  refine ⟨st₀, hinit, ?_⟩
  have ha : (Cp.integer 0x61).Valid := ⟨by decide, .inl (by decide)⟩
  have hb : (Cp.integer 0x62).Valid := ⟨by decide, .inl (by decide)⟩
  have hcps : ∀ cp ∈ [Cp.integer 0x61, .integer 0x62], cp.Valid :=
    List.forall_mem_cons.mpr ⟨ha, List.forall_mem_singleton.mpr hb⟩
  obtain ⟨st₁, hcopy, hkeeps, hlen, -, -, halone⟩ := Store.copyCharSet_spec hgood hgood.empty
  have hhas : st₁.Has st₀.charSets.length := by
    unfold Store.Has
    omega
  obtain ⟨st₂, hadjoin, hbecomes⟩ := charSetAdjoinInPlace_spec hkeeps.good hhas
    (forall₂_denotes hcps) fun n _ => .inl (halone _)
  have hfits : FitsRun st₀ (copyAndAdjoin st₀) := by
    refine ⟨hgood.empty, fun r st' hstep => ?_⟩
    rw [step, hcopy] at hstep
    cases hstep
    refine ⟨⟨hhas, fun cp hcp => ⟨hcps cp hcp, .inl (halone _)⟩⟩, fun r st' hstep => ?_⟩
    rw [step, hadjoin] at hstep
    cases hstep
    refine ⟨⟨?_, hb⟩, fun _ _ _ => trivial⟩
    unfold Store.Has at hhas ⊢
    rw [hbecomes.length]
    exact hhas
  obtain ⟨rs, st', hrun, hagrees, -⟩ := hruns _ hfits
  exact ⟨rs, st', hrun, hagrees⟩

/-- `char-set-delete char-set:empty #\a` makes a set with `#\a` in it. -/
theorem char_set_delete_adds :
    ∃ st r st', initSRFI14 (fun _ => allFlags) = .ok st ∧
      step st (.charSetDelete st.empty [.integer 0x61]) = .ok (r, st') ∧
      ¬ Agrees st.family r st'.family (.charSetDelete st.empty [.integer 0x61]) := by
  obtain ⟨st, hinit, hgood, -, -, -, -, -⟩ := @initSRFI14_spec (fun _ => allFlags) rfl rfl
  have hcps : List.Forall₂ Cp.Denotes [.integer 0x61] [0x61] :=
    .cons ⟨by decide, .inl (by decide)⟩ .nil
  have hsame : st.charSetDelete st.empty [.integer 0x61] = st.charSetAdjoin st.empty [.integer 0x61] := by
    rw [Store.charSetDelete, Store.charSetAdjoin]
    simp only [charSetDeleteLoop_eq]
  obtain ⟨a, st', hrun, -, -, hmembers⟩ := charSetAdjoin_spec hgood hgood.empty hcps
  refine ⟨st, .charSet a, st', hinit, by rw [step, hsame, hrun]; rfl, ?_⟩
  rintro ⟨-, b, -, hab, hb⟩
  have hab : a = b := Reply.charSet.inj hab
  subst hab
  have hin : 0x61 ∈ st'.members a := by
    rw [hmembers]
    exact .inr (List.mem_singleton.mpr rfl)
  have hb' : st'.members a = _ := hb
  rw [hb'] at hin
  exact hin.2 ⟨_, List.mem_singleton.mpr rfl, by decide, .inl (by decide)⟩

end Idio.CharSet
