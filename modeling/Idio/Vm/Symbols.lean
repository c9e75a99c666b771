/-
  Vm/Symbols.lean --- from the index of a symbol in a program to the index of its value.

  A program refers to a global by `si`, an index into the symbols of the execution
  environment (xenv) it was compiled in.  The values table of that xenv has the index
  of the value in xenv 0, where all values are, or 0 for a symbol that has not been
  used yet: `iref` then looks the symbol up in the modules.  `isetVal` is the
  assignment to a global.

  A module keeps the information about a symbol by reference: modules share it, and a
  change of the one is a change of the other.  `Symbols.infos` is that store.
-/
import Mathlib.Logic.Function.Basic
import Idio.Vm.Instructions

set_option autoImplicit false

namespace Idio

/-! ## Symbols in modules -/

/-- `idio_S_param` and the other scopes. -/
inductive Scope where
  | param
  | local_
  | toplevel
  | dynamic
  | environ
  | computed
  | predef
  deriving DecidableEq, Repr

/-- The information about a symbol, less what is only recorded. -/
structure SymbolInfo where
  scope : Scope
  si : Nat
  vi : Nat
  deriving DecidableEq, Repr

/-- The symbols of the modules. -/
structure Symbols where
  infos : Nat → SymbolInfo
  /-- where the next information goes -/
  next : Nat
  /-- `IDIO_MODULE_SYMBOLS` -/
  tables : Value → List (Value × Nat)

/-- What does not change about the modules here. -/
structure Modules where
  /-- `IDIO_MODULE_IMPORTS`, the modules alone -/
  imports : Value → List Value
  /-- `IDIO_MODULE_EXPORTS` -/
  exports : Value → List Value
  /-- `idio_Idio_module` -/
  idio : Value
  /-- the module M and the symbol S of a symbol M/S, where there is such a module -/
  slashed : Value → Option (Value × Value)

namespace Symbols

variable (s : Symbols)

/-- `idio_hash_ref (IDIO_MODULE_SYMBOLS (module), symbol)`. -/
def find (sym module : Value) : Option Nat := (s.tables module).lookup sym

/-- `idio_module_set_symbol`. -/
def set (sym : Value) (a : Nat) (module : Value) : Symbols :=
  { s with tables := Function.update s.tables module ((sym, a) :: s.tables module) }

/-- Change the information at an address. -/
def setInfo (a : Nat) (info : SymbolInfo) : Symbols :=
  { s with infos := Function.update s.infos a info }

/-- New information about a symbol. -/
def define (sym : Value) (info : SymbolInfo) (module : Value) : Symbols :=
  ({ s.setInfo s.next info with next := s.next + 1 } : Symbols).set sym s.next module

end Symbols

section Find

variable (ctx : Ctx) (mods : Modules) (s : Symbols)

/-- `idio_module_find_symbol_recurse_imports`. -/
def findSymbolRecurseImports (sym im : Value) : Option Nat :=
  match s.find sym im with
  | some a => if im = mods.idio ∨ sym ∈ mods.exports im then some a else none
  | none => none

/-- The loop over the imports: the first that has a value for the symbol. -/
def importsLoop (sym : Value) : List Value → Option Nat
  | [] => none
  | im :: ims =>
      if isaModule ctx im = false then importsLoop sym ims
      else match findSymbolRecurseImports mods s sym im with
        | some a => if (s.infos a).vi > 0 then some a else importsLoop sym ims
        | none => importsLoop sym ims

/-- `idio_module_direct_reference`, of a symbol M/S: a copy of the information about S
in M. -/
def directReference (sym : Value) : Option SymbolInfo :=
  match mods.slashed sym with
  | some (m, n) => if n ∈ mods.exports m then (s.find n m).map s.infos else none
  | none => none

/-- The symbol has been found in the module itself.  A value index of 0 is left to be
resolved from the imports. -/
def foundIn (siCm : Option Nat) (recurse : Bool) : Bool :=
  match siCm with
  | some a =>
      let info := s.infos a
      !(decide (info.scope = .toplevel ∨ info.scope = .environ ∨ info.scope = .dynamic) &&
        decide (info.vi = 0) && recurse)
  | none => false

/-- `idio_module_find_symbol_recurse`, `recurse` being 0 or 1. -/
def findSymbolRecurse (sym module : Value) (recurse : Bool) : Option Nat × Symbols :=
  let siCm := s.find sym module
  if foundIn s siCm recurse then (siCm, s)
  else
    match if recurse then importsLoop ctx mods s sym (mods.imports module) else none with
    | some im =>
        match siCm with
        | none => (some im, s.set sym im module)
        | some a => (some a, s.setInfo a { s.infos a with vi := (s.infos im).vi })
    | none =>
        match directReference mods s sym with
        | some info =>
            if info.vi ≠ 0 then (some s.next, s.define sym info module) else (siCm, s)
        | none => (siCm, s)

end Find

/-! ## The tables of the VM -/

/-- What an xenv other than xenv 0 has of symbols: the symbols by `si`, and the indices
of their values. -/
structure Xenv where
  st : List Value
  vt : List Nat

/-- The values of xenv 0, the other xenvs and the symbols of the modules. -/
structure Tables where
  values : List Value
  xenvs : Nat → Xenv
  symbols : Symbols

namespace Tables

variable (t : Tables)

/-- `idio_array_ref_index (vt, si)`. -/
def vtRef (xi si : Nat) : Result Nat :=
  match (t.xenvs xi).vt[si]? with
  | some gvi => .ok gvi
  | none => .error (IdioArray.boundsError si (t.xenvs xi).vt.length)

/-- `idio_vm_symbols_ref`. -/
def symbolsRef (xi si : Nat) : Result Value :=
  match (t.xenvs xi).st[si]? with
  | some sym => .ok sym
  | none => .error (IdioArray.boundsError si (t.xenvs xi).st.length)

/-- `idio_vm_values_set (xi, si, fgvi)`. -/
def setVt (xi si gvi : Nat) : Tables :=
  let xenv := t.xenvs xi
  { t with xenvs := Function.update t.xenvs xi { xenv with vt := xenv.vt.set si gvi } }

/-- `idio_vm_extend_values (0)`; the new index is the length before. -/
def extendValues : Tables := { t with values := t.values ++ [.undef] }

/-- `idio_vm_values_set (0, gvi, v)`. -/
def setValue (gvi : Nat) (v : Value) : Result Tables := do
  .ok { t with values := ← Stack.insertIndex t.values v gvi }

/-- The variable is known to have its value there. -/
def Located (xi si gvi : Nat) : Prop := (t.xenvs xi).vt[si]? = some gvi ∧ gvi ≠ 0

end Tables

section Values

variable (ctx : Ctx) (mods : Modules) (env : Value) (t : Tables)

/-- What `idio_vm_iref` makes of a symbol without a value: the value is the symbol. -/
def irefMissing (xi si : Nat) (sym : Value) : Result (Tables × Nat) := do
  let gvi := t.values.length
  let t ← (t.extendValues.setVt xi si gvi).setValue gvi sym
  .ok ({ t with symbols := t.symbols.define sym ⟨.toplevel, si, gvi⟩ env }, gvi)

/-- `idio_vm_iref`, the current environment being `env`. -/
def iref (xi si : Nat) : Result (Tables × Nat) := do
  let gvi ← t.vtRef xi si
  if gvi ≠ 0 then .ok (t, gvi)
  else do
    let sym ← t.symbolsRef xi si
    let (siCe, symbols) := findSymbolRecurse ctx mods t.symbols sym env true
    let t := { t with symbols := symbols }
    match siCe with
    | some a =>
        let gvi := (symbols.infos a).vi
        let t := t.setVt xi si gvi
        if gvi ≠ 0 then .ok (t, gvi) else irefMissing env t xi si sym
    | none => irefMissing env t xi si sym

/-- The symbol is a predefined one of the current module, and is given a value that is
not a primitive. -/
def overwritesPredef (sym val : Value) : Bool :=
  match findSymbolRecurse ctx mods t.symbols sym env false with
  | (some a, symbols) => decide ((symbols.infos a).scope = .predef) && !isaPrimitive ctx val
  | (none, _) => false

/-- `idio_vm_iset_val`. -/
def isetVal (xi si : Nat) (val : Value) : Result Tables := do
  let gvi ← t.vtRef xi si
  let (t, gvi) ← if gvi = 0 then iref ctx mods env t xi si else .ok (t, gvi)
  let sym ← t.symbolsRef xi si
  let (siCe, symbols) := findSymbolRecurse ctx mods t.symbols sym env false
  let t := { t with symbols := symbols }
  match siCe with
  | some a =>
      if (symbols.infos a).scope = .predef ∧ isaPrimitive ctx val = false then
        let gvi := t.values.length
        let symbols := (symbols.setInfo a ⟨.toplevel, si, gvi⟩).set sym a env
        ({ t.extendValues with symbols := symbols }.setVt xi si gvi).setValue gvi val
      else t.setValue gvi val
  | none => t.setValue gvi val

end Values

/-! ## What looking up a symbol does to the tables -/

/-- No information has a value index from `n` on. -/
def Symbols.Below (s : Symbols) (n : Nat) : Prop := ∀ a, (s.infos a).vi < n

theorem Symbols.Below.setInfo {s : Symbols} {n : Nat} (h : s.Below n) (a : Nat)
    {info : SymbolInfo} (hinfo : info.vi < n) : (s.setInfo a info).Below n := by
  intro b
  by_cases hb : b = a
  · simpa [Symbols.setInfo, hb] using hinfo
  · simpa [Symbols.setInfo, Function.update_of_ne hb] using h b

theorem Symbols.Below.mono {s : Symbols} {m n : Nat} (h : s.Below m) (hmn : m ≤ n) : s.Below n :=
  fun a => (h a).trans_le hmn

theorem directReference_below {mods : Modules} {s : Symbols} {n : Nat} (h : s.Below n)
    {sym : Value} {info : SymbolInfo} (hinfo : directReference mods s sym = some info) :
    info.vi < n := by
  unfold directReference at hinfo
  split at hinfo
  · split at hinfo
    · obtain ⟨a, -, rfl⟩ := Option.map_eq_some_iff.mp hinfo
      exact h a
    · cases hinfo
  · cases hinfo

theorem findSymbolRecurse_below (ctx : Ctx) (mods : Modules) {s : Symbols} {n : Nat}
    (h : s.Below n) (sym module : Value) (recurse : Bool) :
    (findSymbolRecurse ctx mods s sym module recurse).2.Below n := by
  unfold findSymbolRecurse
  dsimp only
  split
  · exact h
  · split
    · split
      · exact h
      · exact h.setInfo _ (h _)
    · split
      · rename_i info hinfo
        split
        · exact h.setInfo s.next (directReference_below h hinfo)
        · exact h
      · exact h

namespace Tables

/-- All indices of values are in range. -/
structure Sound (t : Tables) : Prop where
  /-- no variable has the index 0 -/
  pos : 0 < t.values.length
  vt : ∀ xi, ∀ gvi ∈ (t.xenvs xi).vt, gvi < t.values.length
  infos : t.symbols.Below t.values.length
  st : ∀ xi, (t.xenvs xi).st.length = (t.xenvs xi).vt.length

/-- The tables have been extended: what was located still is where it was. -/
structure Extends (t t' : Tables) : Prop where
  values : t.values <+: t'.values
  located : ∀ xi si gvi, t.Located xi si gvi → t'.Located xi si gvi
  vt : ∀ xi, (t'.xenvs xi).vt.length = (t.xenvs xi).vt.length

theorem Extends.refl (t : Tables) : t.Extends t :=
  ⟨List.prefix_rfl, fun _ _ _ h => h, fun _ => rfl⟩

theorem Extends.trans {a b c : Tables} (hab : a.Extends b) (hbc : b.Extends c) : a.Extends c :=
  ⟨hab.values.trans hbc.values, fun xi si gvi h => hbc.located xi si gvi (hab.located xi si gvi h),
    fun xi => (hbc.vt xi).trans (hab.vt xi)⟩

theorem vtRef_eq {t : Tables} {xi si gvi : Nat} (h : (t.xenvs xi).vt[si]? = some gvi) :
    t.vtRef xi si = .ok gvi := by
  unfold vtRef
  rw [h]

theorem Sound.symbolsRef {t : Tables} (ht : t.Sound) {xi si : Nat}
    (hsi : si < (t.xenvs xi).vt.length) : ∃ sym, t.symbolsRef xi si = .ok sym := by
  have hst : si < (t.xenvs xi).st.length := (ht.st xi).symm ▸ hsi
  refine ⟨(t.xenvs xi).st[si], ?_⟩
  unfold Tables.symbolsRef
  rw [List.getElem?_eq_getElem hst]

theorem setVt_xenvs (t : Tables) (xi si gvi other : Nat) :
    (t.setVt xi si gvi).xenvs other =
      if other = xi then { t.xenvs xi with vt := (t.xenvs xi).vt.set si gvi } else t.xenvs other := by
  simp only [setVt, Function.update_apply]

theorem setVt_located {t : Tables} {xi si gvi : Nat} (hsi : si < (t.xenvs xi).vt.length)
    (hgvi : gvi ≠ 0) : (t.setVt xi si gvi).Located xi si gvi := by
  refine ⟨?_, hgvi⟩
  rw [setVt_xenvs, if_pos rfl]
  exact List.getElem?_set_self hsi

/-- Only the variable itself is located anew. -/
theorem setVt_located_of_ne {t : Tables} {xi si other index : Nat} {old : Nat} (gvi : Nat)
    (h : t.Located other index old) (hne : ¬ (other = xi ∧ index = si)) :
    (t.setVt xi si gvi).Located other index old := by
  refine ⟨?_, h.2⟩
  rw [setVt_xenvs]
  split
  · rename_i hxi
    subst hxi
    rw [← h.1]
    exact List.getElem?_set_ne fun hsi => hne ⟨rfl, hsi.symm⟩
  · exact h.1

/-- A variable that was not located is located. -/
theorem setVt_extends {t : Tables} {xi si : Nat} (gvi : Nat)
    (h : (t.xenvs xi).vt[si]? = some 0) : t.Extends (t.setVt xi si gvi) := by
  refine ⟨List.prefix_rfl, fun other index old hold => ?_, fun other => ?_⟩
  · refine setVt_located_of_ne gvi hold fun hsame => hold.2 ?_
    obtain ⟨rfl, rfl⟩ := hsame
    exact Option.some.inj (hold.1.symm.trans h)
  · rw [setVt_xenvs]
    split
    · rename_i hxi
      subst hxi
      exact List.length_set
    · rfl

theorem Sound.setVt {t : Tables} (ht : t.Sound) {gvi : Nat} (hgvi : gvi < t.values.length)
    (xi si : Nat) : (t.setVt xi si gvi).Sound := by
  refine ⟨ht.pos, fun other g hg => ?_, ht.infos, fun other => ?_⟩
  · rw [setVt_xenvs] at hg
    split at hg
    · obtain hg | hg := List.mem_or_eq_of_mem_set hg
      · exact ht.vt xi g hg
      · exact hg ▸ hgvi
    · exact ht.vt other g hg
  · rw [setVt_xenvs]
    split
    · exact (ht.st xi).trans List.length_set.symm
    · exact ht.st other

theorem Sound.withValues {t : Tables} (ht : t.Sound) {values : List Value}
    (hlen : t.values.length ≤ values.length) : ({ t with values := values } : Tables).Sound :=
  ⟨ht.pos.trans_le hlen, fun xi g hg => (ht.vt xi g hg).trans_le hlen, ht.infos.mono hlen, ht.st⟩

theorem Sound.withSymbols {t : Tables} (ht : t.Sound) {symbols : Symbols}
    (h : symbols.Below t.values.length) : ({ t with symbols := symbols } : Tables).Sound :=
  ⟨ht.pos, ht.vt, h, ht.st⟩

theorem setValue_eq {t : Tables} {gvi : Nat} (h : gvi < t.values.length) (v : Value) :
    t.setValue gvi v = .ok { t with values := t.values.set gvi v } := by
  unfold setValue Stack.insertIndex
  rw [if_pos (by omega)]
  rfl

end Tables

section Specs

variable {ctx : Ctx} {mods : Modules} {env : Value} {t : Tables} {xi si : Nat}

/-- A variable that is located stays where it is. -/
theorem iref_located {gvi : Nat} (h : t.Located xi si gvi) :
    iref ctx mods env t xi si = .ok (t, gvi) := by
  unfold iref
  rw [Tables.vtRef_eq h.1]
  exact if_pos h.2

theorem irefMissing_extends (env : Value) (ht : t.Sound) (h : (t.xenvs xi).vt[si]? = some 0) (sym : Value) :
    ∃ t', irefMissing env t xi si sym = .ok (t', t.values.length) ∧ t'.Sound ∧ t.Extends t' ∧
      t'.Located xi si t.values.length := by
  have hsi : si < (t.xenvs xi).vt.length := (List.getElem?_eq_some_iff.mp h).1
  have hlen : (t.values ++ [Value.undef]).length = t.values.length + 1 := List.length_append
  have hext : t.extendValues.Sound := ht.withValues (by omega)
  have hset : t.values.length < ((t.extendValues.setVt xi si t.values.length).values).length := by
    show _ < (t.values ++ [Value.undef]).length
    omega
  have hvalues : (t.values ++ [Value.undef]).set t.values.length sym = t.values ++ [sym] := by
    rw [List.set_append_right _ _ (le_refl _), Nat.sub_self]
    rfl
  unfold irefMissing
  simp only [Tables.setValue_eq hset, ok_bind]
  refine ⟨_, rfl, ?_, ⟨?_, ?_, ?_⟩, ?_⟩
  · have hvt : (t.extendValues.setVt xi si t.values.length).Sound :=
      hext.setVt (by show _ < (t.values ++ _).length; omega) xi si
    refine (hvt.withValues List.length_set.ge).withSymbols ?_
    refine Symbols.Below.setInfo (hvt.withValues List.length_set.ge).infos _ ?_
    show t.values.length < ((t.values ++ [Value.undef]).set _ _).length
    rw [List.length_set]
    omega
  · show t.values <+: (t.values ++ [Value.undef]).set _ _
    rw [hvalues]
    exact List.prefix_append _ _
  · exact (Tables.setVt_extends (t := t) t.values.length h).located
  · exact (Tables.setVt_extends (t := t) t.values.length h).vt
  · exact Tables.setVt_located (t := t) hsi ht.pos.ne'

/-- `idio_vm_iref` locates the variable, and moves no other. -/
theorem iref_extends (ctx : Ctx) (mods : Modules) (env : Value) (ht : t.Sound)
    (hsi : si < (t.xenvs xi).vt.length) :
    ∃ t' gvi, iref ctx mods env t xi si = .ok (t', gvi) ∧ t'.Sound ∧ t.Extends t' ∧
      t'.Located xi si gvi := by
  obtain ⟨old, hold⟩ : ∃ old, (t.xenvs xi).vt[si]? = some old := ⟨_, List.getElem?_eq_getElem hsi⟩
  by_cases hzero : old = 0
  · subst hzero
    obtain ⟨sym, hsym⟩ := ht.symbolsRef hsi
    have hbelow := findSymbolRecurse_below ctx mods ht.infos sym env true
    unfold iref
    rw [Tables.vtRef_eq hold]
    simp only [ok_bind, ne_eq, not_true_eq_false, if_false, hsym]
    generalize hfound : findSymbolRecurse ctx mods t.symbols sym env true = found at hbelow ⊢
    obtain ⟨siCe, symbols⟩ := found
    have hsound : ({ t with symbols := symbols } : Tables).Sound := ht.withSymbols hbelow
    cases siCe with
    | none =>
      obtain ⟨t', hmissing, hs, hext, hloc⟩ := irefMissing_extends env hsound hold sym
      exact ⟨t', _, hmissing, hs, ⟨hext.values, hext.located, hext.vt⟩, hloc⟩
    | some a =>
      dsimp only
      have hvi : (symbols.infos a).vi < t.values.length := hbelow a
      have hset := hsound.setVt hvi xi si
      have hext := Tables.setVt_extends (t := { t with symbols := symbols })
        (symbols.infos a).vi hold
      by_cases hgvi : (symbols.infos a).vi = 0
      · rw [if_neg fun hne => hne hgvi]
        have hold' : ((({ t with symbols := symbols } : Tables).setVt xi si
            (symbols.infos a).vi).xenvs xi).vt[si]? = some 0 := by
          rw [Tables.setVt_xenvs, if_pos rfl, hgvi]
          exact List.getElem?_set_self hsi
        obtain ⟨t', hmissing, hs, hmore, hloc⟩ := irefMissing_extends env hset hold' sym
        have hall := hext.trans hmore
        exact ⟨t', _, hmissing, hs, ⟨hall.values, hall.located, hall.vt⟩, hloc⟩
      · rw [if_pos hgvi]
        exact ⟨_, _, rfl, hset, ⟨hext.values, hext.located, hext.vt⟩,
          Tables.setVt_located (t := { t with symbols := symbols }) hsi hgvi⟩
  · exact ⟨t, old, iref_located ⟨hold, hzero⟩, ht, .refl t, hold, hzero⟩

theorem Tables.Sound.located_lt (ht : t.Sound) {gvi : Nat} (h : t.Located xi si gvi) :
    gvi < t.values.length :=
  ht.vt xi gvi (List.mem_of_getElem? h.1)

/-- An assignment looks the variable up first. -/
theorem isetVal_of_iref {t' : Tables} {gvi : Nat} {val : Value}
    (h : iref ctx mods env t xi si = .ok (t', gvi)) (hloc : t'.Located xi si gvi) :
    isetVal ctx mods env t xi si val = isetVal ctx mods env t' xi si val := by
  unfold isetVal
  rw [Tables.vtRef_eq hloc.1]
  simp only [ok_bind, if_neg hloc.2]
  unfold iref at h
  cases hvt : t.vtRef xi si with
  | error e =>
    rw [hvt] at h
    cases h
  | ok old =>
    rw [hvt] at h
    simp only [ok_bind] at h ⊢
    by_cases hzero : old = 0
    · rw [if_pos hzero]
      have hiref : iref ctx mods env t xi si = .ok (t', gvi) := by
        unfold iref
        rw [hvt]
        exact h
      rw [hiref]
      rfl
    · rw [if_pos hzero] at h
      cases h
      rw [if_neg hzero]

/-- An assignment to a variable that is located. -/
theorem isetVal_located (ctx : Ctx) (mods : Modules) (env : Value) (ht : t.Sound) {gvi : Nat}
    {sym : Value} (val : Value) (hloc : t.Located xi si gvi)
    (hsym : t.symbolsRef xi si = .ok sym)
    (hkeeps : overwritesPredef ctx mods env t sym val = false) :
    ∃ t', isetVal ctx mods env t xi si val = .ok t' ∧ t'.Sound ∧
      t'.values = t.values.set gvi val ∧ t'.xenvs = t.xenvs := by
  have hlt := ht.located_lt hloc
  have hbelow := findSymbolRecurse_below ctx mods ht.infos sym env false
  unfold overwritesPredef at hkeeps
  unfold isetVal
  rw [Tables.vtRef_eq hloc.1]
  simp only [ok_bind, if_neg hloc.2, hsym]
  generalize findSymbolRecurse ctx mods t.symbols sym env false = found at hbelow hkeeps ⊢
  obtain ⟨siCe, symbols⟩ := found
  have hsound : ({ t with symbols := symbols } : Tables).Sound := ht.withSymbols hbelow
  have hset := Tables.setValue_eq (t := { t with symbols := symbols }) hlt val
  have hresult : ({ t with symbols := symbols, values := t.values.set gvi val } : Tables).Sound :=
    hsound.withValues List.length_set.ge
  cases siCe with
  | none => exact ⟨_, hset, hresult, rfl, rfl⟩
  | some a =>
    have hno : ¬ ((symbols.infos a).scope = .predef ∧ isaPrimitive ctx val = false) := by
      simpa using hkeeps
    dsimp only
    rw [if_neg hno]
    exact ⟨_, hset, hresult, rfl, rfl⟩

/-- An assignment that overwrites a predefined value: the variable moves to a new
place. -/
theorem isetVal_overwrites (ctx : Ctx) (mods : Modules) (env : Value) (ht : t.Sound) {gvi : Nat}
    {sym val : Value} (hloc : t.Located xi si gvi) (hsym : t.symbolsRef xi si = .ok sym)
    (hover : overwritesPredef ctx mods env t sym val = true) :
    ∃ t', isetVal ctx mods env t xi si val = .ok t' ∧ t'.Sound ∧
      t'.values = t.values ++ [val] ∧ t'.Located xi si t.values.length := by
  have hsi : si < (t.xenvs xi).vt.length := (List.getElem?_eq_some_iff.mp hloc.1).1
  have hbelow := findSymbolRecurse_below ctx mods ht.infos sym env false
  have hlen : (t.values ++ [Value.undef]).length = t.values.length + 1 := List.length_append
  unfold overwritesPredef at hover
  unfold isetVal
  rw [Tables.vtRef_eq hloc.1]
  simp only [ok_bind, if_neg hloc.2, hsym]
  generalize findSymbolRecurse ctx mods t.symbols sym env false = found at hbelow hover ⊢
  obtain ⟨siCe, symbols⟩ := found
  cases siCe with
  | none => cases hover
  | some a =>
    have hyes : (symbols.infos a).scope = .predef ∧ isaPrimitive ctx val = false := by
      simpa using hover
    dsimp only
    rw [if_pos hyes]
    let symbols' := (symbols.setInfo a ⟨.toplevel, si, t.values.length⟩).set sym a env
    let u : Tables := { t.extendValues with symbols := symbols' }
    have hu : u.Sound := by
      have hwide : t.values.length ≤ (t.values ++ [Value.undef]).length := by omega
      refine (ht.withValues hwide).withSymbols ?_
      exact Symbols.Below.setInfo (hbelow.mono hwide) a (by show t.values.length < _; omega)
    have hlt : t.values.length < (u.setVt xi si t.values.length).values.length := by
      show _ < (t.values ++ [Value.undef]).length
      omega
    refine ⟨_, Tables.setValue_eq hlt val, ?_, ?_, ?_⟩
    · exact (hu.setVt hlt xi si).withValues List.length_set.ge
    · show (t.values ++ [Value.undef]).set t.values.length val = _
      rw [List.set_append_right _ _ (le_refl _), Nat.sub_self]
      rfl
    · exact Tables.setVt_located (t := u) hsi ht.pos.ne'

end Specs

end Idio
