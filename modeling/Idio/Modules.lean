/-
  Modules.lean --- what modules see of each other's symbols.

  A lookup that finds a symbol in an import, or as S of M/S, leaves the information it
  has found in the table of the module that asked.  `resolve` is what a lookup gives on
  tables as they are; `lookups` says which sequences of lookups go on to give what they
  would have given on the tables they started from.

  Information whose value index is 0 is not resolved: it counts as not found.
-/
import Idio.Vm.Refinement
import Idio.Vm.Symbols

set_option autoImplicit false

namespace Idio

/-! ## Names -/

section Names

/-- The name has the form M/S: it is split at its last slash, unless that is the first or
the last character. -/
def splitSlash (name : List Char) : Option (List Char × List Char) :=
  let s := (name.reverse.takeWhile (· ≠ '/')).reverse
  let m := (name.reverse.dropWhile (· ≠ '/')).reverse.dropLast
  if name.contains '/' ∧ s ≠ [] ∧ m ≠ [] then some (m, s) else none

/-- The names of symbols and modules. -/
structure Naming where
  /-- `IDIO_SYMBOL_S` -/
  name : Value → List Char
  /-- `idio_symbols_C_intern` -/
  intern : List Char → Value
  /-- `idio_module_find_module` -/
  module : Value → Option Value

/-- The module M and the symbol S of a symbol M/S. -/
def Naming.slashed (n : Naming) (sym : Value) : Option (Value × Value) :=
  match splitSlash (n.name sym) with
  | some (m, s) => (n.module (n.intern m)).map fun mod => (mod, n.intern s)
  | none => none

/-- Modules whose symbols have these names. -/
def Modules.named (mods : Modules) (n : Naming) : Modules :=
  { mods with slashed := n.slashed }

example : splitSlash "M/S-M/S".toList = some ("M/S-M".toList, "S".toList) := by decide

end Names

/-! ## Bindings -/

section Bindings

variable (ctx : Ctx) (mods : Modules) (s : Symbols)

/-- The value index of information, unless it is not resolved. -/
def Symbols.index (a : Nat) : Option Nat :=
  if (s.infos a).vi = 0 then none else some (s.infos a).vi

/-- The resolved binding of a symbol in the table of a module. -/
def Symbols.binding (sym module : Value) : Option Nat :=
  (s.find sym module).bind s.index

/-- The symbol is exported by a module; the main module exports everything. -/
def Modules.Exported (im sym : Value) : Prop :=
  im = mods.idio ∨ sym ∈ mods.exports im

instance (im sym : Value) : Decidable (mods.Exported im sym) :=
  inferInstanceAs (Decidable (_ ∨ _))

/-- The binding in the first of the imports that exports the symbol with a value. -/
def importsBinding (sym : Value) : List Value → Option Nat
  | [] => none
  | im :: ims =>
      if isaModule ctx im = true ∧ mods.Exported im sym then
        (s.binding sym im).orElse fun _ => importsBinding sym ims
      else importsBinding sym ims

/-- The binding of S in M, of a symbol M/S that M exports. -/
def directBinding (sym : Value) : Option Nat :=
  match mods.slashed sym with
  | some (m, n) => if n ∈ mods.exports m then s.binding n m else none
  | none => none

/-- What a symbol stands for in a module: its own binding, that of an import (where
imports are allowed), or that of a direct reference. -/
def resolve (sym module : Value) (recurse : Bool) : Option Nat :=
  ((s.binding sym module).orElse fun _ =>
    if recurse then importsBinding ctx mods s sym (mods.imports module) else none).orElse
      fun _ => directBinding mods s sym

/-- A lookup. -/
inductive Query where
  | recursive (sym module : Value)
  | moduleOnly (sym module : Value)
  | direct (sym : Value)

/-- What a lookup gives and leaves. -/
def answer : Query → Option Nat × Symbols
  | .recursive sym module =>
      let r := findSymbolRecurse ctx mods s sym module true
      (r.1.bind r.2.index, r.2)
  | .moduleOnly sym module =>
      let r := findSymbolRecurse ctx mods s sym module false
      (r.1.bind r.2.index, r.2)
  | .direct sym =>
      ((directReference mods s sym).bind fun info => if info.vi = 0 then none else some info.vi, s)

/-- What the lookup would give had none been made before. -/
def resolveQuery : Query → Option Nat
  | .recursive sym module => resolve ctx mods s sym module true
  | .moduleOnly sym module => resolve ctx mods s sym module false
  | .direct sym => directBinding mods s sym

/-- A sequence of lookups. -/
def answers (s : Symbols) : List Query → List (Option Nat) × Symbols
  | [] => ([], s)
  | q :: qs =>
      let r := answer ctx mods s q
      let rest := answers r.2 qs
      (r.1 :: rest.1, rest.2)

/-- The information of every table has been allocated, is not shared as long as it is not
resolved, and is resolved unless its scope is one of those resolved at run time. -/
structure Symbols.Settled : Prop where
  allocated : ∀ sym m a, s.find sym m = some a → a < s.next
  unshared : ∀ sym m sym' m' a, s.find sym m = some a → s.find sym' m' = some a →
    (s.infos a).vi = 0 → sym' = sym ∧ m' = m
  late : ∀ sym m a, s.find sym m = some a → (s.infos a).vi = 0 →
    (s.infos a).scope = .toplevel ∨ (s.infos a).scope = .environ ∨ (s.infos a).scope = .dynamic

end Bindings

/-! ## One lookup -/

section Lookup

variable {ctx : Ctx} {mods : Modules} {s : Symbols}

theorem find_set (sym : Value) (a : Nat) (module sym' m' : Value) :
    (s.set sym a module).find sym' m' =
      if sym' = sym ∧ m' = module then some a else s.find sym' m' := by
  by_cases hm : m' = module
  · subst hm
    by_cases hsym : sym' = sym
    · simp [Symbols.find, Symbols.set, hsym]
    · have hbeq : (sym' == sym) = false := by simpa using hsym
      simp [Symbols.find, Symbols.set, hsym, List.lookup_cons, hbeq]
  · simp [Symbols.find, Symbols.set, hm]

theorem index_eq_none {a : Nat} : s.index a = none ↔ (s.infos a).vi = 0 := by
  simp [Symbols.index]

theorem index_of_pos {a : Nat} (h : (s.infos a).vi ≠ 0) : s.index a = some (s.infos a).vi := by
  simp [Symbols.index, h]

/-- The loop over the imports finds the binding of the first import that has one. -/
theorem importsLoop_eq (sym : Value) (ims : List Value) :
    (importsLoop ctx mods s sym ims).bind s.index = importsBinding ctx mods s sym ims ∧
      ∀ a, importsLoop ctx mods s sym ims = some a →
        (s.infos a).vi ≠ 0 ∧ ∃ im, s.find sym im = some a := by
  induction ims with
  | nil => simp [importsLoop, importsBinding]
  | cons im ims ih =>
    simp only [importsLoop, importsBinding]
    by_cases hmod : isaModule ctx im = false
    · simpa [hmod] using ih
    · rw [if_neg hmod]
      have hmod' : isaModule ctx im = true := by simpa using hmod
      match hfind : s.find sym im with
      | none =>
        have hnone : findSymbolRecurseImports mods s sym im = none := by
          simp [findSymbolRecurseImports, hfind]
        have hbinding : s.binding sym im = none := by simp [Symbols.binding, hfind]
        simp only [hnone, hbinding]
        split <;> exact ih
      | some a =>
        by_cases hexp : mods.Exported im sym
        · have hsome : findSymbolRecurseImports mods s sym im = some a := by
            have hexp' : im = mods.idio ∨ sym ∈ mods.exports im := hexp
            simp [findSymbolRecurseImports, hfind, hexp']
          have hbinding : s.binding sym im = s.index a := by simp [Symbols.binding, hfind]
          simp only [hsome, hbinding, hmod', hexp, true_and, if_true]
          by_cases hvi : (s.infos a).vi > 0
          · rw [if_pos hvi]
            have hne : (s.infos a).vi ≠ 0 := Nat.pos_iff_ne_zero.mp hvi
            refine ⟨by simp [index_of_pos hne], ?_⟩
            intro b hb
            obtain rfl : a = b := Option.some.inj hb
            exact ⟨hne, im, hfind⟩
          · rw [if_neg hvi]
            have hzero : s.index a = none := index_eq_none.mpr (by omega)
            simpa [hzero] using ih
        · have hnone : findSymbolRecurseImports mods s sym im = none := by
            have hexp' : ¬ (im = mods.idio ∨ sym ∈ mods.exports im) := hexp
            simp [findSymbolRecurseImports, hfind, hexp']
          simp only [hnone, hexp, and_false, if_false]
          exact ih

/-- A direct reference gives the binding in the other module. -/
theorem directReference_eq (sym : Value) :
    ((directReference mods s sym).bind fun info => if info.vi = 0 then none else some info.vi) =
      directBinding mods s sym := by
  unfold directReference directBinding
  match mods.slashed sym with
  | none => rfl
  | some (m, n) =>
    by_cases hexp : n ∈ mods.exports m
    · simp only [if_pos hexp, Symbols.binding]
      cases s.find n m with
      | none => rfl
      | some a => rfl
    · simp only [if_neg hexp]
      rfl

/-- What a lookup of one symbol does to the tables. -/
structure Looked (s s' : Symbols) (sym module : Value) (r : Option Nat) : Prop where
  settled : s'.Settled
  binding : ∀ sym' m', s'.binding sym' m' =
    if sym' = sym ∧ m' = module then r else s.binding sym' m'

/-- The table already says what the lookup gives. -/
theorem Symbols.Settled.looked_refl (h : s.Settled) {sym module : Value} {r : Option Nat}
    (hr : s.binding sym module = r) : Looked s s sym module r := by
  refine ⟨h, ?_⟩
  intro sym' m'
  split
  · rename_i heq
    rw [heq.1, heq.2, hr]
  · rfl

/-- The information of an import is put into the table. -/
theorem Symbols.Settled.looked_set (h : s.Settled) {sym module im : Value} {a : Nat}
    (hfind : s.find sym im = some a) (hvi : (s.infos a).vi ≠ 0) :
    Looked s (s.set sym a module) sym module (some (s.infos a).vi) := by
  have hinfos : (s.set sym a module).infos = s.infos := rfl
  refine ⟨⟨?_, ?_, ?_⟩, ?_⟩
  · intro sym₁ m₁ b hb
    rw [find_set] at hb
    split at hb
    · obtain rfl : a = b := Option.some.inj hb
      exact h.allocated sym im a hfind
    · exact h.allocated sym₁ m₁ b hb
  · intro sym₁ m₁ sym₂ m₂ b hb₁ hb₂ hzero
    rw [hinfos] at hzero
    have hne : a ≠ b := by
      rintro rfl
      exact hvi hzero
    rw [find_set] at hb₁ hb₂
    split at hb₁
    · exact absurd (Option.some.inj hb₁) hne
    · split at hb₂
      · exact absurd (Option.some.inj hb₂) hne
      · exact h.unshared sym₁ m₁ sym₂ m₂ b hb₁ hb₂ hzero
  · intro sym₁ m₁ b hb hzero
    rw [find_set] at hb
    split at hb
    · obtain rfl : a = b := Option.some.inj hb
      exact absurd hzero hvi
    · exact h.late sym₁ m₁ b hb hzero
  · intro sym' m'
    rw [Symbols.binding, find_set]
    split
    · exact index_of_pos hvi
    · rfl

/-- The value index of an import is put into the module's own information. -/
theorem Symbols.Settled.looked_setInfo (h : s.Settled) {sym module : Value} {a v : Nat}
    (hfind : s.find sym module = some a) (hzero : (s.infos a).vi = 0) (hv : v ≠ 0) :
    Looked s (s.setInfo a { s.infos a with vi := v }) sym module (some v) := by
  have hfind' : ∀ sym' m', (s.setInfo a { s.infos a with vi := v }).find sym' m' =
      s.find sym' m' := fun _ _ => rfl
  have hself : (s.setInfo a { s.infos a with vi := v }).infos a = { s.infos a with vi := v } := by
    simp [Symbols.setInfo]
  have hother : ∀ b, b ≠ a →
      (s.setInfo a { s.infos a with vi := v }).infos b = s.infos b := by
    intro b hb
    simp [Symbols.setInfo, Function.update_of_ne hb]
  refine ⟨⟨?_, ?_, ?_⟩, ?_⟩
  · intro sym₁ m₁ b hb
    exact h.allocated sym₁ m₁ b hb
  · intro sym₁ m₁ sym₂ m₂ b hb₁ hb₂ hb
    by_cases hba : b = a
    · rw [hba, hself] at hb
      exact absurd hb hv
    · rw [hother b hba] at hb
      exact h.unshared sym₁ m₁ sym₂ m₂ b hb₁ hb₂ hb
  · intro sym₁ m₁ b hb hbz
    by_cases hba : b = a
    · rw [hba, hself] at hbz
      exact absurd hbz hv
    · rw [hother b hba] at hbz ⊢
      exact h.late sym₁ m₁ b hb hbz
  · intro sym' m'
    rw [Symbols.binding, hfind']
    split
    · rename_i heq
      rw [heq.1, heq.2, hfind]
      simp [Symbols.index, hself, hv]
    · rename_i hne
      rw [Symbols.binding]
      cases hb : s.find sym' m' with
      | none => rfl
      | some b =>
        have hba : b ≠ a := by
          rintro rfl
          exact hne (h.unshared sym module sym' m' b hfind hb hzero)
        simp [Symbols.index, hother b hba]

/-- A copy of the information of a direct reference is put into the table. -/
theorem Symbols.Settled.looked_define (h : s.Settled) {sym module : Value} {info : SymbolInfo}
    (hvi : info.vi ≠ 0) : Looked s (s.define sym info module) sym module (some info.vi) := by
  have hfind : ∀ sym' m', (s.define sym info module).find sym' m' =
      if sym' = sym ∧ m' = module then some s.next else s.find sym' m' :=
    fun sym' m' => find_set sym s.next module sym' m'
  have hself : (s.define sym info module).infos s.next = info := by
    simp [Symbols.define, Symbols.set, Symbols.setInfo]
  have hother : ∀ b, b ≠ s.next → (s.define sym info module).infos b = s.infos b := by
    intro b hb
    simp [Symbols.define, Symbols.set, Symbols.setInfo, Function.update_of_ne hb]
  have hold : ∀ {sym' m' b}, s.find sym' m' = some b → b ≠ s.next :=
    fun hb => Nat.ne_of_lt (h.allocated _ _ _ hb)
  have hnext : (s.define sym info module).next = s.next + 1 := rfl
  refine ⟨⟨?_, ?_, ?_⟩, ?_⟩
  · intro sym₁ m₁ b hb
    rw [hfind] at hb
    split at hb
    · obtain rfl : s.next = b := Option.some.inj hb
      omega
    · have hlt := h.allocated sym₁ m₁ b hb
      omega
  · intro sym₁ m₁ sym₂ m₂ b hb₁ hb₂ hzero
    have hne : s.next ≠ b := by
      rintro rfl
      rw [hself] at hzero
      exact hvi hzero
    rw [hother b hne.symm] at hzero
    rw [hfind] at hb₁ hb₂
    split at hb₁
    · exact absurd (Option.some.inj hb₁) hne
    · split at hb₂
      · exact absurd (Option.some.inj hb₂) hne
      · exact h.unshared sym₁ m₁ sym₂ m₂ b hb₁ hb₂ hzero
  · intro sym₁ m₁ b hb hzero
    rw [hfind] at hb
    split at hb
    · obtain rfl : s.next = b := Option.some.inj hb
      rw [hself] at hzero
      exact absurd hzero hvi
    · rw [hother b (hold hb)] at hzero ⊢
      exact h.late sym₁ m₁ b hb hzero
  · intro sym' m'
    rw [Symbols.binding, hfind]
    split
    · simp [Symbols.index, hself, hvi]
    · rw [Symbols.binding]
      cases hb : s.find sym' m' with
      | none => rfl
      | some b => simp [Symbols.index, hother b (hold hb)]

/-- A symbol that is found in the module itself. -/
theorem Symbols.Settled.foundIn (h : s.Settled) {sym module : Value} {recurse : Bool}
    (hfound : Idio.foundIn s (s.find sym module) recurse = true)
    (hclear : recurse = false → directBinding mods s sym = none ∨
      (s.binding sym module = none → s.find sym module = none)) :
    s.binding sym module = resolve ctx mods s sym module recurse := by
  match hfind : s.find sym module with
  | none => simp [Idio.foundIn, hfind] at hfound
  | some a =>
    have hbinding : s.binding sym module = s.index a := by simp [Symbols.binding, hfind]
    by_cases hvi : (s.infos a).vi = 0
    · have hlate := h.late sym module a hfind hvi
      have hrec : recurse = false := by
        simpa [Idio.foundIn, hfind, hlate, hvi] using hfound
      have hnone : s.binding sym module = none := hbinding.trans (index_eq_none.mpr hvi)
      have hdirect : directBinding mods s sym = none := by
        rcases hclear hrec with hd | hd
        · exact hd
        · rw [hfind] at hd
          cases hd hnone
      simp [resolve, hnone, hrec, hdirect]
    · simp [resolve, hbinding, index_of_pos hvi]

theorem not_foundIn (sym module : Value) {recurse : Bool}
    (hfound : ¬ foundIn s (s.find sym module) recurse = true) :
    s.binding sym module = none ∧
      ∀ a, s.find sym module = some a → (s.infos a).vi = 0 := by
  match hfind : s.find sym module with
  | none => simp [Symbols.binding, hfind]
  | some a =>
    have hvi : (s.infos a).vi = 0 := by
      by_contra hne
      apply hfound
      simp [foundIn, hfind, hne]
    refine ⟨by simp [Symbols.binding, hfind, index_eq_none.mpr hvi], ?_⟩
    intro b hb
    obtain rfl : a = b := Option.some.inj hb
    exact hvi

/-- A lookup gives what the tables resolve the symbol to, and leaves that in the table of
the module. -/
theorem Symbols.Settled.findSymbolRecurse (h : s.Settled) (sym module : Value) (recurse : Bool)
    (hclear : recurse = false → directBinding mods s sym = none ∨
      (s.binding sym module = none → s.find sym module = none)) :
    ∃ r s', Idio.findSymbolRecurse ctx mods s sym module recurse = (r, s') ∧
      r.bind s'.index = resolve ctx mods s sym module recurse ∧
      Looked s s' sym module (resolve ctx mods s sym module recurse) := by
  unfold Idio.findSymbolRecurse
  dsimp only
  by_cases hfound : Idio.foundIn s (s.find sym module) recurse = true
  · rw [if_pos hfound]
    have heq : s.binding sym module = resolve ctx mods s sym module recurse :=
      h.foundIn hfound hclear
    exact ⟨_, _, rfl, heq, h.looked_refl heq⟩
  · rw [if_neg hfound]
    obtain ⟨hnone, hzero⟩ := not_foundIn sym module hfound
    have hloop := @importsLoop_eq ctx mods s sym (mods.imports module)
    cases himp : (if recurse = true then importsLoop ctx mods s sym (mods.imports module)
        else none) with
    | some a =>
      have hrec : recurse = true := by
        by_contra hne
        simp [hne] at himp
      rw [if_pos hrec] at himp
      obtain ⟨hvi, im, hfind⟩ := hloop.2 a himp
      have hres : resolve ctx mods s sym module recurse = some (s.infos a).vi := by
        have himports := hloop.1
        rw [himp] at himports
        simp [resolve, hnone, hrec, ← himports, index_of_pos hvi]
      rw [hres]
      cases hown : s.find sym module with
      | none =>
        refine ⟨_, _, rfl, ?_, h.looked_set hfind hvi⟩
        exact index_of_pos hvi
      | some b =>
        refine ⟨_, _, rfl, ?_, h.looked_setInfo hown (hzero b hown) hvi⟩
        simp [Symbols.index, Symbols.setInfo, hvi]
    | none =>
      have himports : (if recurse = true then
          importsBinding ctx mods s sym (mods.imports module) else none) = none := by
        split
        · rename_i hrec
          rw [if_pos hrec] at himp
          rw [← hloop.1, himp]
          rfl
        · rfl
      have hres : resolve ctx mods s sym module recurse = directBinding mods s sym := by
        simp only [resolve, hnone, himports]
        rfl
      have hdirect := @directReference_eq mods s sym
      rw [hres]
      cases href : directReference mods s sym with
      | none =>
        have hd : directBinding mods s sym = none := by rw [← hdirect, href]; rfl
        rw [hd]
        exact ⟨_, _, rfl, hnone, h.looked_refl hnone⟩
      | some info =>
        by_cases hvi : info.vi = 0
        · have hd : directBinding mods s sym = none := by simp [← hdirect, href, hvi]
          rw [hd]
          refine ⟨s.find sym module, s, by simp [hvi], hnone, h.looked_refl hnone⟩
        · have hd : directBinding mods s sym = some info.vi := by simp [← hdirect, href, hvi]
          rw [hd]
          refine ⟨some s.next, s.define sym info module, by simp [hvi], ?_, h.looked_define hvi⟩
          simp [Symbols.index, Symbols.define, Symbols.set, Symbols.setInfo, hvi]

end Lookup

/-! ## Sequences of lookups -/

section Sequences

variable (ctx : Ctx) (mods : Modules) (s₀ : Symbols)

/-- A binding is only there from an earlier lookup. -/
def FromLookup (s : Symbols) (sym module : Value) : Prop :=
  s.binding sym module ≠ s₀.binding sym module

/-- A direct reference does not meet such a binding. -/
def DirectClear (s : Symbols) (sym : Value) : Prop :=
  ∀ m n, mods.slashed sym = some (m, n) → n ∈ mods.exports m → ¬ FromLookup s₀ s n m

/-- A lookup does not meet what an earlier one has left: no import exports the symbol
without defining it, and a module is not asked for its own definition of a symbol that it
has from an import.  Where a module is asked for a name M/S of its own alone, S exported by
M, no import exports that name and the module has no unresolved information about it. -/
def Clear (s : Symbols) : Query → Prop
  | .recursive sym module =>
      (∀ im ∈ mods.imports module, mods.Exported im sym → ¬ FromLookup s₀ s sym im) ∧
        DirectClear mods s₀ s sym
  | .moduleOnly sym module =>
      ¬ FromLookup s₀ s sym module ∧ DirectClear mods s₀ s sym ∧
        (directBinding mods s₀ sym = none ∨
          importsBinding ctx mods s₀ sym (mods.imports module) = none ∧
            (s₀.binding sym module = none → s.find sym module = none))
  | .direct sym => DirectClear mods s₀ s sym

/-- Every lookup of the sequence is clear when it is made. -/
def AllClear (s : Symbols) : List Query → Prop
  | [] => True
  | q :: qs => Clear ctx mods s₀ s q ∧ AllClear (answer ctx mods s q).2 qs

/-- What clear lookups keep: a binding is the one of the start, or was not there and is what
a lookup then gives. -/
structure KeptBindings (s : Symbols) : Prop where
  settled : s.Settled
  binding : ∀ sym m, s.binding sym m = s₀.binding sym m ∨
    s₀.binding sym m = none ∧ s.binding sym m = resolve ctx mods s₀ sym m true

variable {ctx mods s₀} {s : Symbols}

theorem importsBinding_congr {sym : Value} {ims : List Value}
    (h : ∀ im ∈ ims, mods.Exported im sym → ¬ FromLookup s₀ s sym im) :
    importsBinding ctx mods s sym ims = importsBinding ctx mods s₀ sym ims := by
  induction ims with
  | nil => rfl
  | cons im ims ih =>
    have hrest := ih fun im' him' => h im' (List.mem_cons_of_mem im him')
    simp only [importsBinding]
    by_cases hexp : isaModule ctx im = true ∧ mods.Exported im sym
    · have heq := not_not.mp (h im List.mem_cons_self hexp.2)
      rw [if_pos hexp, if_pos hexp, heq, hrest]
    · rw [if_neg hexp, if_neg hexp, hrest]

theorem DirectClear.eq {sym : Value} (h : DirectClear mods s₀ s sym) :
    directBinding mods s sym = directBinding mods s₀ sym := by
  unfold directBinding
  match hslashed : mods.slashed sym with
  | none => rfl
  | some (m, n) =>
    by_cases hexp : n ∈ mods.exports m
    · simp only [if_pos hexp]
      exact not_not.mp (h m n hslashed hexp)
    · simp only [if_neg hexp]

/-- A recursive lookup that is clear. -/
theorem KeptBindings.resolve_recursive (h : KeptBindings ctx mods s₀ s) {sym module : Value}
    (hclear : Clear ctx mods s₀ s (.recursive sym module)) :
    resolve ctx mods s sym module true = resolve ctx mods s₀ sym module true := by
  have himports : importsBinding ctx mods s sym (mods.imports module) =
      importsBinding ctx mods s₀ sym (mods.imports module) := importsBinding_congr hclear.1
  have hdirect := hclear.2.eq
  rcases h.binding sym module with heq | ⟨hnone, heq⟩
  · simp only [resolve, heq, himports, hdirect]
  · cases hr : resolve ctx mods s₀ sym module true with
    | some v =>
      have hv : s.binding sym module = some v := heq.trans hr
      simp [resolve, hv]
    | none =>
      have hboth : s.binding sym module = s₀.binding sym module := by rw [heq, hr, hnone]
      rw [← hr]
      simp only [resolve, hboth, himports, hdirect]

theorem KeptBindings.looked_recursive (h : KeptBindings ctx mods s₀ s) {s' : Symbols} {sym module : Value}
    (hlooked : Looked s s' sym module (resolve ctx mods s₀ sym module true)) :
    KeptBindings ctx mods s₀ s' := by
  refine ⟨hlooked.settled, ?_⟩
  intro sym' m'
  rw [hlooked.binding]
  split
  · rename_i heq
    rw [heq.1, heq.2]
    cases hb : s₀.binding sym module with
    | some v => exact .inl (by simp [resolve, hb])
    | none => exact .inr ⟨rfl, rfl⟩
  · exact h.binding sym' m'

/-- A clear lookup gives what it would have given first, and keeps the tables so. -/
theorem KeptBindings.answer (h : KeptBindings ctx mods s₀ s) {q : Query} (hclear : Clear ctx mods s₀ s q) :
    (Idio.answer ctx mods s q).1 = resolveQuery ctx mods s₀ q ∧
      KeptBindings ctx mods s₀ (Idio.answer ctx mods s q).2 := by
  cases q with
  | recursive sym module =>
    obtain ⟨r, s', heq, hr, hlooked⟩ :=
      @Symbols.Settled.findSymbolRecurse ctx mods s h.settled sym module true (by simp)
    rw [h.resolve_recursive hclear] at hr hlooked
    simp only [Idio.answer, heq]
    exact ⟨hr, h.looked_recursive hlooked⟩
  | moduleOnly sym module =>
    obtain ⟨hown, hdirect, himports⟩ := hclear
    have hbinding : s.binding sym module = s₀.binding sym module := not_not.mp hown
    have hres : resolve ctx mods s sym module false = resolve ctx mods s₀ sym module false := by
      simp [resolve, hbinding, hdirect.eq]
    obtain ⟨r, s', heq, hr, hlooked⟩ :=
      @Symbols.Settled.findSymbolRecurse ctx mods s h.settled sym module false (by
        intro _
        rw [hdirect.eq, hbinding]
        exact himports.imp id And.right)
    rw [hres] at hr hlooked
    simp only [Idio.answer, heq]
    refine ⟨hr, ?_⟩
    -- with no import in the way a lookup in the module alone gives what a recursive one does
    cases hd : directBinding mods s₀ sym with
    | none =>
      have hself : resolve ctx mods s₀ sym module false = s₀.binding sym module := by
        simp [resolve, hd]
      refine ⟨hlooked.settled, ?_⟩
      intro sym' m'
      rw [hlooked.binding]
      split
      · rename_i heq'
        rw [heq'.1, heq'.2]
        exact .inl hself
      · exact h.binding sym' m'
    | some v =>
      have hnone : importsBinding ctx mods s₀ sym (mods.imports module) = none := by
        rcases himports with hd' | hi
        · rw [hd] at hd'
          cases hd'
        · exact hi.1
      have hboth : resolve ctx mods s₀ sym module false = resolve ctx mods s₀ sym module true := by
        simp [resolve, hnone]
      rw [hboth] at hlooked
      exact h.looked_recursive hlooked
  | direct sym =>
    refine ⟨?_, h⟩
    have hdirect : DirectClear mods s₀ s sym := hclear
    simp only [Idio.answer, resolveQuery]
    rw [directReference_eq, hdirect.eq]

theorem KeptBindings.answers (h : KeptBindings ctx mods s₀ s) {qs : List Query}
    (hclear : AllClear ctx mods s₀ s qs) :
    (Idio.answers ctx mods s qs).1 = qs.map (resolveQuery ctx mods s₀) ∧
      KeptBindings ctx mods s₀ (Idio.answers ctx mods s qs).2 := by
  induction qs generalizing s with
  | nil => exact ⟨rfl, h⟩
  | cons q qs ih =>
    obtain ⟨hanswer, hkept⟩ := h.answer hclear.1
    obtain ⟨hrest, hfinal⟩ := ih hkept hclear.2
    exact ⟨by simp [Idio.answers, hanswer, hrest], hfinal⟩

end Sequences

/-! ## Setting a value -/

section SetValue

/-- `idio_vm_extend_tables`, with the index in the xenv and that of the value -/
def Tables.extendTables (t : Tables) (xi : Nat) (sym : Value) : Result (Tables × Nat × Nat) :=
  let gvi := t.values.length
  if xi = 0 then do
    let t ← t.extendValues.setValue gvi (.fixnum gvi)
    .ok (t, gvi, gvi)
  else
    let xenv := t.xenvs xi
    .ok ({ t.extendValues with
            xenvs := Function.update t.xenvs xi ⟨xenv.st ++ [sym], xenv.vt ++ [gvi]⟩ },
      xenv.vt.length, gvi)

-- the assignment to a variable of another scope than toplevel
variable (setOther : Scope → Nat → Value → Tables → Result Tables)

/-- `idio_module_set_symbol_value_xi` -/
def setSymbolValue (t : Tables) (xi : Nat) (sym val module : Value) : Result Tables :=
  match t.symbols.find sym module with
  | none => do
      let r ← t.extendTables xi sym
      let t := { r.1 with symbols := r.1.symbols.define sym ⟨.toplevel, r.2.1, r.2.2⟩ module }
      t.setValue r.2.2 val
  | some a =>
      let info := t.symbols.infos a
      if info.vi = 0 then
        let gvi := t.values.length
        let t := t.extendValues
        let t := if xi = 0 then t else t.setVt xi info.si gvi
        let t := { t with symbols := t.symbols.setInfo a { info with vi := gvi } }
        if info.scope = .toplevel then t.setValue gvi val else setOther info.scope gvi val t
      else if info.scope = .toplevel then t.setValue info.vi val
      else setOther info.scope info.vi val t

variable (ctx : Ctx) (mods : Modules)

/-- The value a module sees for a symbol. -/
def seen (t : Tables) (sym module : Value) : Option Value :=
  (resolve ctx mods t.symbols sym module true).bind fun gvi => t.values[gvi]?

variable {setOther ctx mods} {t : Tables}

/-- A symbol that has no value in the module gets one of its own. -/
theorem setSymbolValue_new (hsettled : t.symbols.Settled) (hpos : 0 < t.values.length) (xi : Nat)
    {sym module : Value} (val : Value) (hnone : t.symbols.binding sym module = none)
    (hscope : ∀ a, t.symbols.find sym module = some a → (t.symbols.infos a).scope = .toplevel) :
    ∃ t', setSymbolValue setOther t xi sym val module = .ok t' ∧
      t'.values = t.values ++ [val] ∧
      Looked t.symbols t'.symbols sym module (some t.values.length) := by
  have hne : t.values.length ≠ 0 := Nat.pos_iff_ne_zero.mp hpos
  have hset : (t.values ++ [Value.undef]).set t.values.length val = t.values ++ [val] := by
    simp
  match hfind : t.symbols.find sym module with
  | none =>
    have hdefine : ∀ si, Looked t.symbols (t.symbols.define sym ⟨.toplevel, si, t.values.length⟩ module)
        sym module (some t.values.length) :=
      fun si => @Symbols.Settled.looked_define t.symbols hsettled sym module
        ⟨.toplevel, si, t.values.length⟩ hne
    by_cases hxi : xi = 0
    · have hext : t.extendValues.setValue t.values.length (.fixnum t.values.length) =
          .ok { t with values := t.values ++ [.fixnum t.values.length] } := by
        rw [Tables.setValue_eq (by simp [Tables.extendValues])]
        simp [Tables.extendValues]
      refine ⟨{ t with values := t.values ++ [val], symbols := _ }, ?_, rfl,
        hdefine t.values.length⟩
      simp only [setSymbolValue, hfind, Tables.extendTables, hxi, if_true, hext, ok_bind]
      rw [Tables.setValue_eq (by simp)]
      simp only [List.set_append_right _ _ (Nat.le_refl _), Nat.sub_self, List.set_cons_zero]
      rfl
    · let xenv := t.xenvs xi
      refine ⟨⟨t.values ++ [val],
        Function.update t.xenvs xi ⟨xenv.st ++ [sym], xenv.vt ++ [t.values.length]⟩,
        t.symbols.define sym ⟨.toplevel, xenv.vt.length, t.values.length⟩ module⟩, ?_, rfl,
        hdefine xenv.vt.length⟩
      simp only [setSymbolValue, hfind, Tables.extendTables, hxi, if_false, ok_bind]
      rw [Tables.setValue_eq (by simp [Tables.extendValues])]
      simp only [Tables.extendValues, hset]
      rfl
  | some a =>
    have hvi : (t.symbols.infos a).vi = 0 := by
      rw [Symbols.binding, hfind] at hnone
      exact index_eq_none.mp hnone
    have hlooked := hsettled.looked_setInfo hfind hvi hne
    simp only [setSymbolValue, hfind, hvi, if_true, hscope a hfind]
    by_cases hxi : xi = 0
    · refine ⟨{ t with values := t.values ++ [val], symbols := _ }, ?_, rfl, hlooked⟩
      simp only [hxi, if_true]
      rw [Tables.setValue_eq (by simp [Tables.extendValues])]
      simp only [Tables.extendValues, hset, ← hscope a hfind]
      rfl
    · refine ⟨⟨t.values ++ [val],
        (t.extendValues.setVt xi (t.symbols.infos a).si t.values.length).xenvs, _⟩, ?_, rfl,
        hlooked⟩
      simp only [hxi, if_false]
      rw [Tables.setValue_eq (by simp [Tables.extendValues, Tables.setVt])]
      simp only [Tables.extendValues, Tables.setVt, hset, ← hscope a hfind]
      rfl

theorem binding_lt {s : Symbols} {n : Nat} (h : s.Below n) {sym module : Value} {v : Nat}
    (hv : s.binding sym module = some v) : v < n := by
  obtain ⟨a, -, ha⟩ := Option.bind_eq_some_iff.mp hv
  unfold Symbols.index at ha
  split at ha
  · cases ha
  · obtain rfl := Option.some.inj ha
    exact h a

theorem importsBinding_lt {s : Symbols} {n : Nat} (h : s.Below n) {sym : Value}
    {ims : List Value} {v : Nat} (hv : importsBinding ctx mods s sym ims = some v) : v < n := by
  induction ims with
  | nil => cases hv
  | cons im ims ih =>
    simp only [importsBinding] at hv
    split at hv
    · cases hb : s.binding sym im with
      | none => exact ih (by simpa [hb] using hv)
      | some w =>
        obtain rfl : w = v := by simpa [hb] using hv
        exact binding_lt h hb
    · exact ih hv

theorem resolve_lt {s : Symbols} {n : Nat} (h : s.Below n) {sym module : Value} {v : Nat}
    (hv : resolve ctx mods s sym module true = some v) : v < n := by
  unfold resolve at hv
  cases hb : s.binding sym module with
  | some w =>
    obtain rfl : w = v := by simpa [hb] using hv
    exact binding_lt h hb
  | none =>
    cases hi : importsBinding ctx mods s sym (mods.imports module) with
    | some w =>
      obtain rfl : w = v := by simpa [hb, hi] using hv
      exact importsBinding_lt h hi
    | none =>
      have hd : directBinding mods s sym = some v := by simpa [hb, hi] using hv
      unfold directBinding at hd
      split at hd
      · split at hd
        · exact binding_lt h hd
        · cases hd
      · cases hd

/-- A module that does not export a symbol is the only one whose resolving changes with its
binding. -/
theorem resolve_other {s s' : Symbols} {sym module : Value} {r : Option Nat}
    (hlooked : Looked s s' sym module r) (hexp : ¬ mods.Exported module sym) {m' : Value}
    (hm : m' ≠ module) (sym' : Value) :
    resolve ctx mods s' sym' m' true = resolve ctx mods s sym' m' true := by
  have hkeep : ∀ n m, ¬ (n = sym ∧ m = module) → s'.binding n m = s.binding n m := by
    intro n m hne
    rw [hlooked.binding, if_neg hne]
  have hown := hkeep sym' m' fun h => hm h.2
  have himports : ∀ ims, importsBinding ctx mods s' sym' ims = importsBinding ctx mods s sym' ims := by
    intro ims
    apply importsBinding_congr
    intro im _ him hfrom
    apply hfrom
    apply hkeep
    rintro ⟨rfl, rfl⟩
    exact hexp him
  have hdirect : directBinding mods s' sym' = directBinding mods s sym' := by
    apply DirectClear.eq
    intro m n _ hn hfrom
    apply hfrom
    apply hkeep
    rintro ⟨rfl, rfl⟩
    exact hexp (.inr hn)
  simp only [resolve, hown, himports, hdirect]

end SetValue

/-- Lookups that do not meet what earlier ones have left give what they would have given
first; setting a value for a symbol that has none in the module, whose information there is a
toplevel one if there is any, and that the module does not export, does not change what other
modules see. -/
theorem lookups (ctx : Ctx) (mods : Modules) (names : Naming) (s₀ : Symbols) (h₀ : s₀.Settled)
    (qs : List Query) (hclear : AllClear ctx (mods.named names) s₀ s₀ qs) :
    (answers ctx (mods.named names) s₀ qs).1 = qs.map (resolveQuery ctx (mods.named names) s₀) ∧
      ∀ (setOther : Scope → Nat → Value → Tables → Result Tables) (t : Tables) (xi : Nat)
        (sym val module : Value),
        t.symbols = (answers ctx (mods.named names) s₀ qs).2 → t.symbols.Below t.values.length →
        t.symbols.binding sym module = none →
        (∀ a, t.symbols.find sym module = some a → (t.symbols.infos a).scope = .toplevel) →
        ¬ (mods.named names).Exported module sym →
        ∃ t', setSymbolValue setOther t xi sym val module = .ok t' ∧
          ∀ sym' m', m' ≠ module → seen ctx (mods.named names) t' sym' m' =
            seen ctx (mods.named names) t sym' m' := by
  obtain ⟨hanswers, hkept⟩ := KeptBindings.answers (⟨h₀, fun _ _ => .inl rfl⟩ : KeptBindings ctx (mods.named names) s₀ s₀) hclear
  refine ⟨hanswers, ?_⟩
  intro setOther t xi sym val module hsymbols hbelow hnone hscope hexp
  have hpos : 0 < t.values.length := (Nat.zero_le _).trans_lt (hbelow 0)
  obtain ⟨t', hset, hvalues, hlooked⟩ :=
    @setSymbolValue_new setOther t (hsymbols ▸ hkept.settled) hpos xi sym module val hnone hscope
  refine ⟨t', hset, ?_⟩
  intro sym' m' hm
  unfold seen
  rw [resolve_other hlooked hexp hm]
  cases hr : resolve ctx (mods.named names) t.symbols sym' m' true with
  | none => rfl
  | some v =>
    have hlt := resolve_lt hbelow hr
    simp only [Option.bind_some, hvalues, List.getElem?_append_left hlt]

/-! ## Two modules -/

/-- Every object is a module. -/
def modulesCtx : Ctx :=
  { emptyCtx with heap := ⟨fun a => .module a, fun _ => 0, by simp [Object.components]⟩ }

/-- Module 1 imports module 2, which exports the symbol 10. -/
def importingModules : Modules where
  imports m := if m = .pointer 1 then [.pointer 2] else []
  exports m := if m = .pointer 2 then [.pointer 10] else []
  idio := .pointer 0
  slashed _ := none

/-- No symbol has a name with a slash in it. -/
def noNames : Naming := ⟨fun _ => [], fun _ => .nil, fun _ => none⟩

/-- The two modules. -/
def twoModules : Modules := importingModules.named noNames

/-- Module 2 defines the symbol; its value is at index 1. -/
def twoTables : Symbols where
  infos _ := ⟨.toplevel, 0, 1⟩
  next := 1
  tables m := if m = .pointer 2 then [(.pointer 10, 0)] else []

theorem twoTables_settled : twoTables.Settled := by
  have hzero : ∀ sym m a, twoTables.find sym m = some a → a = 0 := by
    intro sym m a ha
    unfold Symbols.find twoTables at ha
    dsimp only at ha
    split at ha
    · rw [List.lookup_cons] at ha
      split at ha
      · exact (Option.some.inj ha).symm
      · cases ha
    · cases ha
  refine ⟨?_, ?_, ?_⟩
  · intro sym m a ha
    rw [hzero sym m a ha]
    exact Nat.zero_lt_one
  · intro sym m sym' m' a _ _ hvi
    cases hvi
  · intro sym m a _ hvi
    cases hvi

/-- The symbol 12 has the name `B/x`, where `B` is module 2 and `x` is the symbol 10. -/
def slashNames : Naming where
  name sym := if sym = .pointer 12 then "B/x".toList else []
  intern name := if name = "B".toList then .pointer 20 else .pointer 10
  module name := if name = .pointer 20 then some (.pointer 2) else none

/-- Lookups of the symbols 10 and 12 in module 1 and of 10 in module 2, and again. -/
def severalQueries : List Query :=
  [.recursive (.pointer 10) (.pointer 1), .moduleOnly (.pointer 10) (.pointer 2),
    .recursive (.pointer 10) (.pointer 1), .direct (.pointer 12),
    .moduleOnly (.pointer 11) (.pointer 1), .recursive (.pointer 12) (.pointer 1)]

/-- The tables after these lookups. -/
def tablesAfter : Tables :=
  ⟨[.undef, .fixnum 5], fun _ => ⟨[], []⟩,
    (answers modulesCtx (importingModules.named slashNames) twoTables severalQueries).2⟩

theorem lookups_once :
    (answers modulesCtx (importingModules.named slashNames) twoTables severalQueries).1 =
        severalQueries.map (resolveQuery modulesCtx (importingModules.named slashNames) twoTables) ∧
      ∃ t', setSymbolValue (fun _ _ _ t => .ok t) tablesAfter 0 (.pointer 11) (.fixnum 7)
          (.pointer 1) = .ok t' ∧
        ∀ sym' m', m' ≠ .pointer 1 →
          seen modulesCtx (importingModules.named slashNames) t' sym' m' =
            seen modulesCtx (importingModules.named slashNames) tablesAfter sym' m' := by
  have hdirect : ∀ s sym, s.binding (.pointer 10) (.pointer 2) = some 1 →
      DirectClear (importingModules.named slashNames) twoTables s sym := by
    intro s sym hs m n hslashed _ hfrom
    have hsym : sym = .pointer 12 := by
      by_contra hne
      have hname : slashNames.name sym = [] := if_neg hne
      have hnone : slashNames.slashed sym = none := by
        rw [Naming.slashed, hname]
        rfl
      change slashNames.slashed sym = some (m, n) at hslashed
      rw [hnone] at hslashed
      cases hslashed
    subst hsym
    cases hslashed
    exact hfrom hs
  have himports : ∀ (s : Symbols) (sym : Value),
      s.binding sym (.pointer 2) = twoTables.binding sym (.pointer 2) →
      ∀ im ∈ (importingModules.named slashNames).imports (.pointer 1),
        (importingModules.named slashNames).Exported im sym → ¬ FromLookup twoTables s sym im := by
    intro s sym hs im him _ hfrom
    have him : im = .pointer 2 := List.mem_singleton.mp him
    subst him
    exact hfrom hs
  have hclear : AllClear modulesCtx (importingModules.named slashNames) twoTables twoTables
      severalQueries := by
    refine ⟨⟨himports _ _ rfl, hdirect _ _ (by decide)⟩, ⟨fun hfrom => hfrom (by decide),
      hdirect _ _ (by decide), .inl (by decide)⟩, ⟨himports _ _ (by decide), hdirect _ _ (by decide)⟩,
      hdirect _ _ (by decide), ⟨fun hfrom => hfrom (by decide), hdirect _ _ (by decide),
      .inl (by decide)⟩, ⟨himports _ _ (by decide), hdirect _ _ (by decide)⟩, trivial⟩
  have hbelow : tablesAfter.symbols.Below tablesAfter.values.length := by
    have hstart : twoTables.Below 2 := fun _ => Nat.lt_succ_self 1
    exact hstart.setInfo 1 (show (⟨.toplevel, 0, 1⟩ : SymbolInfo).vi < 2 from Nat.lt_succ_self 1)
  obtain ⟨hanswers, hset⟩ := lookups modulesCtx importingModules slashNames twoTables
    twoTables_settled severalQueries hclear
  exact ⟨hanswers, hset (fun _ _ _ t => .ok t) tablesAfter 0 (.pointer 11) (.fixnum 7) (.pointer 1)
    rfl hbelow (by decide) (fun a ha => by cases ha) (by decide)⟩

/-- After that lookup module 1 has the symbol as its own, and setting its value there sets
the value that module 2 sees. -/
theorem lookups_remembered :
    (answers modulesCtx twoModules twoTables
        [.recursive (.pointer 10) (.pointer 1), .moduleOnly (.pointer 10) (.pointer 1)]).1 =
      [some 1, some 1] ∧
    resolveQuery modulesCtx twoModules twoTables (.moduleOnly (.pointer 10) (.pointer 1)) = none ∧
    ∃ t t' : Tables,
      t.symbols = (answers modulesCtx twoModules twoTables
        [.recursive (.pointer 10) (.pointer 1)]).2 ∧
      twoTables.find (.pointer 10) (.pointer 1) = none ∧
      setSymbolValue (fun _ _ _ t => .ok t) t 0 (.pointer 10) (.fixnum 7) (.pointer 1) = .ok t' ∧
      seen modulesCtx twoModules t (.pointer 10) (.pointer 2) = some (.fixnum 5) ∧
      seen modulesCtx twoModules t' (.pointer 10) (.pointer 2) = some (.fixnum 7) := by
  refine ⟨by decide, by decide, ?_⟩
  let symbols := (answers modulesCtx twoModules twoTables
    [.recursive (.pointer 10) (.pointer 1)]).2
  exact ⟨⟨[.undef, .fixnum 5], fun _ => ⟨[], []⟩, symbols⟩,
    ⟨[.undef, .fixnum 7], fun _ => ⟨[], []⟩, symbols⟩, rfl, by decide, rfl, by decide, by decide⟩

end Idio
