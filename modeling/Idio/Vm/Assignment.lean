/-
  Vm/Assignment.lean --- assignments to dynamic and environ variables.

  A program that assigns to a dynamic or environ variable runs SYM-SET, the instruction
  for variables of the top level, which writes the global value; a reference reads the
  innermost binding on the stack and the global value only where there is none.
  `assignments_seen` says when the two meet.

  `Form` is the part of the language that this is about: assignments, references and
  the block structure of bindings, which is that of `dynamic-let` and `environ-let`.
-/
import Idio.Vm.Dynamic
import Idio.Vm.Symbols

set_option autoImplicit false

namespace Idio

/-! ## The evaluator -/

/-- What `idio_meaning_variable_info` knows of a variable: the frame and the slot of a
parameter or a local, or (as the second index) the `si` of any other variable. -/
structure VariableInfo where
  scope : Scope
  i : Nat
  j : Nat
  deriving DecidableEq, Repr

/-- The instructions on variables of the top level and on bindings. -/
inductive VariableCode where
  | symSet (si : Nat)
  | dynamicSymRef (si : Nat)
  | environSymRef (si : Nat)
  | pushDynamic (si : Nat)
  | popDynamic
  | pushEnviron (si : Nat)
  | popEnviron
  deriving DecidableEq, Repr

/-- The intermediate code of references, assignments and bindings; an assignment
follows the code for the value. -/
inductive ICode where
  | variable_ (c : VariableCode)
  | shallowArgumentRef (j : Nat)
  | deepArgumentRef (i j : Nat)
  | symRef (si : Nat)
  | computedSymRef (si : Nat)
  | predefined (si : Nat)
  | shallowArgumentSet (j : Nat)
  | deepArgumentSet (i j : Nat)
  | computedSymSet (si : Nat)
  | computedSymDef (si : Nat)
  | symDef (scope : Scope) (si : Nat)
  deriving DecidableEq, Repr

/-- `idio_meaning_reference`. -/
def meaningReference (info : VariableInfo) : ICode :=
  match info.scope with
  | .param | .local_ =>
      if info.i = 0 then .shallowArgumentRef info.j else .deepArgumentRef info.i info.j
  | .toplevel => .symRef info.j
  | .dynamic => .variable_ (.dynamicSymRef info.j)
  | .environ => .variable_ (.environSymRef info.j)
  | .computed => .computedSymRef info.j
  | .predef => .predefined info.j

/-- `idio_meaning_assignment` to a symbol; a predefined symbol is given a new index,
`extended`, at the top level. -/
def meaningAssignment (info : VariableInfo) (isDefine : Bool) (extended : Nat) : List ICode :=
  let assign (scope : Scope) (si : Nat) : List ICode :=
    if isDefine then [.symDef scope si, .variable_ (.symSet si)] else [.variable_ (.symSet si)]
  match info.scope with
  | .param | .local_ =>
      if info.i = 0 then [.shallowArgumentSet info.j] else [.deepArgumentSet info.i info.j]
  | .toplevel => assign .toplevel info.j
  | .dynamic => assign .dynamic info.j
  | .environ => assign .environ info.j
  | .computed =>
      if isDefine then [.symDef .computed info.j, .computedSymDef info.j]
      else [.computedSymSet info.j]
  | .predef => assign .toplevel extended

/-- The scope of the variables of a kind. -/
def BindingKind.scope : BindingKind → Scope
  | .dynamic => .dynamic
  | .environ => .environ

/-! ## The VM -/

/-- A thread and the tables of the VM. -/
structure World (σ : Type) where
  thr : Thread σ
  tables : Tables

/-- The world whose stack is the layout of the records. -/
def World.concrete (w : World (List Record)) : World Stack := ⟨w.thr.concrete, w.tables⟩

/-- The instructions of a kind. -/
def BindingKind.push : BindingKind → Nat → VariableCode
  | .dynamic => .pushDynamic
  | .environ => .pushEnviron

def BindingKind.pop : BindingKind → VariableCode
  | .dynamic => .popDynamic
  | .environ => .popEnviron

section Execution

variable (ctx : Ctx) (mods : Modules)

/-- DYNAMIC-SYM-REF and ENVIRON-SYM-REF. -/
def symRefOf (kind : BindingKind) (xi si : Nat) (w : World Stack) : Result (World Stack) := do
  let (tables, gvi) ← iref ctx mods w.thr.env w.tables xi si
  let val ← variableRef ctx kind w.thr tables.values si gvi []
  .ok ⟨{ w.thr with val := val }, tables⟩

/-- PUSH-DYNAMIC and PUSH-ENVIRON. -/
def pushVariable (push : Thread Stack → Nat → Value → Result (Thread Stack)) (xi si : Nat)
    (w : World Stack) : Result (World Stack) := do
  let (tables, gvi) ← iref ctx mods w.thr.env w.tables xi si
  let thr ← push w.thr gvi w.thr.val
  .ok ⟨thr, tables⟩

/-- One instruction, in the xenv XI. -/
def VariableCode.exec (xi : Nat) (c : VariableCode) (w : World Stack) : Result (World Stack) :=
  match c with
  | .symSet si => do
      .ok ⟨w.thr, ← isetVal ctx mods w.thr.env w.tables xi si w.thr.val⟩
  | .dynamicSymRef si => symRefOf ctx mods .dynamic xi si w
  | .environSymRef si => symRefOf ctx mods .environ xi si w
  | .pushDynamic si => pushVariable ctx mods Idio.pushDynamic xi si w
  | .popDynamic => do .ok ⟨← Idio.popDynamic w.thr, w.tables⟩
  | .pushEnviron si => pushVariable ctx mods Idio.pushEnviron xi si w
  | .popEnviron => do .ok ⟨← Idio.popEnviron w.thr, w.tables⟩

/-- A sequence of instructions on variables. -/
def execCodes (xi : Nat) : List ICode → World Stack → Result (World Stack)
  | [], w => .ok w
  | .variable_ c :: cs, w => do execCodes xi cs (← c.exec ctx mods xi w)
  | _ :: _, _ => .error .undefined

/-- The value of an expression in VAL. -/
def World.withVal {σ : Type} (w : World σ) (v : Value) : World σ :=
  { w with thr := { w.thr with val := v } }

/-- `(set! v e)` for a variable of a kind, the value of `e` being known. -/
def assignVariable (kind : BindingKind) (xi si : Nat) (e : Value) (w : World Stack) :
    Result (World Stack) :=
  execCodes ctx mods xi (meaningAssignment ⟨kind.scope, si, si⟩ false 0) (w.withVal e)

/-- What a reference to a variable of a kind yields. -/
def referVariable (kind : BindingKind) (xi si : Nat) (w : World Stack) : Result Value := do
  let w ← execCodes ctx mods xi [meaningReference ⟨kind.scope, si, si⟩] w
  .ok w.thr.val

end Execution

/-- The part of the language with variables of both kinds: each variable is an `si` in
an xenv, and the value of an expression is given. -/
inductive Form where
  | skip
  | seq (a b : Form)
  | ref (kind : BindingKind) (xi si : Nat)
  | set (kind : BindingKind) (xi si : Nat) (e : Value)
  /-- `dynamic-let` and `environ-let` -/
  | bind (kind : BindingKind) (xi si : Nat) (e : OrdinaryValue) (body : Form)
  /-- a call of a function of another module -/
  | within (env : Value) (body : Form)
  deriving DecidableEq

/-- A form, run. -/
def Form.exec (ctx : Ctx) (mods : Modules) : Form → World Stack → Result (World Stack)
  | .skip, w => .ok w
  | .seq a b, w => do b.exec ctx mods (← a.exec ctx mods w)
  | .ref kind xi si, w =>
      execCodes ctx mods xi [meaningReference ⟨kind.scope, si, si⟩] w
  | .set kind xi si e, w => assignVariable ctx mods kind xi si e w
  | .bind kind xi si e body, w => do
      let w ← (kind.push si).exec ctx mods xi (w.withVal e.val)
      let w ← body.exec ctx mods w
      kind.pop.exec ctx mods xi w
  | .within env body, w => do
      let w' ← body.exec ctx mods { w with thr := { w.thr with env := env } }
      .ok { w' with thr := { w'.thr with env := w.thr.env } }

/-! ## References -/

/-- A value as `idio_vm_values_ref` gives it: paths are expanded. -/
def expandPath (ctx : Ctx) (v : Value) : Result Value :=
  match v with
  | .pointer a => match ctx.heap.heap a with
      | .structInstance type _ _ => do
          if ← structTypeIsa ctx (ctx.heap.depth type + 1) type ctx.pathType then
            ctx.pathExpand v
          else .ok v
      | _ => .ok v
  | _ => .ok v

theorem valuesRef_eq (ctx : Ctx) {values : List Value} {gvi : Nat} {v : Value} (hne : gvi ≠ 0)
    (h : values[gvi]? = some v) : valuesRef ctx values gvi = expandPath ctx v := by
  obtain ⟨hlt, hv⟩ := List.getElem?_eq_some_iff.mp h
  unfold valuesRef
  rw [if_pos hne, Stack.refIndex_nat values hlt, hv]
  rfl

namespace World

/-- The indices of values are in range, those of the bindings too. -/
structure Sound (w : World (List Record)) : Prop where
  tables : w.tables.Sound
  bindings : ∀ kind, ∀ b ∈ bindings kind w.thr.stack, b.1 < w.tables.values.length

/-- The value of the innermost binding of a variable of a kind. -/
def bound (w : World (List Record)) (kind : BindingKind) (gvi : Nat) : Option Value :=
  (Idio.bindings kind w.thr.stack).lookup gvi

end World

section References

variable {ctx : Ctx} {mods : Modules} {w : World (List Record)} {kind : BindingKind}
  {xi si gvi : Nat} {t : Tables}

theorem World.Sound.bound_fresh (hw : w.Sound) (kind : BindingKind) {gvi : Nat}
    (h : w.tables.values.length ≤ gvi) : w.bound kind gvi = none := by
  refine List.lookup_eq_none_iff.mpr fun b hb => ?_
  have hlt := hw.bindings kind b hb
  have hne : gvi ≠ b.1 := by omega
  simpa using hne

/-- What a reference makes of the global value. -/
def globalReads (ctx : Ctx) (kind : BindingKind) (si gvi : Nat) (v : Value) : Result Value :=
  expandPath ctx v >>= definedOr (unboundVariable kind si gvi) []

/-- What a reference to a variable yields, given its innermost binding and its global
value. -/
def reads (ctx : Ctx) (kind : BindingKind) (si gvi : Nat) (bound : Option Value) (v : Value) :
    Result Value :=
  match bound with
  | some b => definedOr (unboundVariable kind si gvi) [] b
  | none => globalReads ctx kind si gvi v

theorem meaningReference_kind (kind : BindingKind) (ctx : Ctx) (mods : Modules) (xi si : Nat)
    (w : World Stack) :
    execCodes ctx mods xi [meaningReference ⟨kind.scope, si, si⟩] w =
      symRefOf ctx mods kind xi si w := by
  cases kind <;> exact bind_pure _

theorem referVariable_eq {v : Value} (hiref : iref ctx mods w.thr.env w.tables xi si = .ok (t, gvi))
    (hne : gvi ≠ 0) (hv : t.values[gvi]? = some v) :
    referVariable ctx mods kind xi si w.concrete = reads ctx kind si gvi (w.bound kind gvi) v := by
  have hiref' : iref ctx mods w.concrete.thr.env w.concrete.tables xi si = .ok (t, gvi) := hiref
  have href := variableRef_eq ctx kind w.thr t.values si gvi []
  unfold referVariable
  rw [meaningReference_kind, symRefOf, hiref']
  simp only [ok_bind]
  have hthr : w.concrete.thr = w.thr.concrete := rfl
  rw [hthr, href]
  unfold innermost reads World.bound
  cases (Idio.bindings kind w.thr.stack).lookup gvi with
  | some b =>
    dsimp only
    rw [ok_bind]
    cases definedOr (unboundVariable kind si gvi) [] b <;> rfl
  | none =>
    dsimp only
    rw [valuesRef_eq ctx hne hv]
    show _ = globalReads ctx kind si gvi v
    unfold globalReads
    cases expandPath ctx v >>= definedOr (unboundVariable kind si gvi) [] <;> rfl

end References

/-! ## One assignment -/

/-- A variable of the xenv is named: it has been looked up, and its symbol is known. -/
structure Named (ctx : Ctx) (mods : Modules) (w : World (List Record)) (xi si : Nat)
    (t : Tables) (gvi : Nat) (sym : Value) : Prop where
  iref : Idio.iref ctx mods w.thr.env w.tables xi si = .ok (t, gvi)
  symbol : t.symbolsRef xi si = .ok sym
  located : t.Located xi si gvi
  extends_ : w.tables.Extends t
  sound : t.Sound

theorem exists_named (ctx : Ctx) (mods : Modules) {w : World (List Record)} (hw : w.Sound)
    {xi si : Nat} (hsi : si < (w.tables.xenvs xi).vt.length) :
    ∃ t gvi sym, Named ctx mods w xi si t gvi sym := by
  obtain ⟨t, gvi, hiref, hs, hext, hloc⟩ := iref_extends ctx mods w.thr.env hw.tables hsi
  obtain ⟨sym, hsym⟩ := hs.symbolsRef ((hext.vt xi).symm ▸ hsi)
  exact ⟨t, gvi, sym, hiref, hsym, hloc, hext, hs⟩

/-- The variables of two xenvs that have their value in one place. -/
def Tables.Same (t : Tables) (xi si xi' si' : Nat) : Prop :=
  ∃ gvi, t.Located xi si gvi ∧ t.Located xi' si' gvi

/-- A reference through either of them reads the same. -/
theorem referVariable_located {ctx : Ctx} {mods : Modules} {w : World (List Record)}
    {kind : BindingKind} {xi si gvi : Nat} {v : Value} (hloc : w.tables.Located xi si gvi)
    (hv : w.tables.values[gvi]? = some v) :
    referVariable ctx mods kind xi si w.concrete =
      reads ctx kind si gvi (w.bound kind gvi) v :=
  referVariable_eq (iref_located hloc) hloc.2 hv

section Assignment

variable {ctx : Ctx} {mods : Modules} {w : World (List Record)} {xi si gvi : Nat} {t : Tables}
  {sym : Value}

/-- The world after an assignment: only the tables have changed. -/
def World.withTables (w : World (List Record)) (e : Value) (t : Tables) : World (List Record) :=
  { w.withVal e with tables := t }

theorem meaningAssignment_kind (kind : BindingKind) (ctx : Ctx) (mods : Modules) (xi si : Nat)
    (e : Value) (w : World Stack) :
    assignVariable ctx mods kind xi si e w = (do
      .ok ⟨(w.withVal e).thr, ← isetVal ctx mods w.thr.env w.tables xi si e⟩) := by
  cases kind <;> exact bind_pure _

theorem assignVariable_eq (kind : BindingKind) {e : Value} {t' : Tables}
    (h : isetVal ctx mods w.thr.env w.tables xi si e = .ok t') :
    assignVariable ctx mods kind xi si e w.concrete = .ok (w.withTables e t').concrete := by
  rw [meaningAssignment_kind]
  have h' : isetVal ctx mods w.concrete.thr.env w.concrete.tables xi si e = .ok t' := h
  rw [h']
  rfl

/-- Where the value of the variable is after an assignment, and that nothing else of the
values has changed. -/
structure Assignment (ctx : Ctx) (mods : Modules) (w : World (List Record)) (xi si gvi : Nat)
    (t : Tables) (sym e : Value) (t' : Tables) (gvi' : Nat) : Prop where
  sound : t'.Sound
  located : t'.Located xi si gvi'
  value : t'.values[gvi']? = some e
  place : gvi' = if overwritesPredef ctx mods w.thr.env t sym e then t.values.length else gvi
  size : t.values.length ≤ t'.values.length
  others : ∀ i, i < t.values.length → i ≠ gvi' → t'.values[i]? = t.values[i]?
  xenvs : overwritesPredef ctx mods w.thr.env t sym e = false → t'.xenvs = t.xenvs

theorem exists_assignment (hn : Named ctx mods w xi si t gvi sym) (kind : BindingKind)
    (e : Value) :
    ∃ t' gvi', assignVariable ctx mods kind xi si e w.concrete =
        .ok (w.withTables e t').concrete ∧
      Assignment ctx mods w xi si gvi t sym e t' gvi' := by
  have hset : isetVal ctx mods w.thr.env w.tables xi si e = isetVal ctx mods w.thr.env t xi si e :=
    isetVal_of_iref hn.iref hn.located
  cases hover : overwritesPredef ctx mods w.thr.env t sym e with
  | false =>
    obtain ⟨t', hiset, hs, hvalues, hxenvs⟩ :=
      isetVal_located ctx mods w.thr.env hn.sound e hn.located hn.symbol hover
    have hlt := hn.sound.located_lt hn.located
    refine ⟨t', gvi, assignVariable_eq kind (hset.trans hiset), hs, ?_, ?_, ?_, ?_, ?_, fun _ => hxenvs⟩
    · exact ⟨hxenvs ▸ hn.located.1, hn.located.2⟩
    · rw [hvalues]
      exact List.getElem?_set_self hlt
    · rw [hover]
      rfl
    · rw [hvalues, List.length_set]
    · intro i _ hne
      rw [hvalues]
      exact List.getElem?_set_ne (Ne.symm hne)
  | true =>
    obtain ⟨t', hiset, hs, hvalues, hloc⟩ :=
      isetVal_overwrites ctx mods w.thr.env hn.sound hn.located hn.symbol hover
    refine ⟨t', t.values.length, assignVariable_eq kind (hset.trans hiset), hs, hloc, ?_, ?_, ?_, ?_, ?_⟩
    · rw [hvalues]
      exact List.getElem?_concat_length
    · rw [hover]
      rfl
    · rw [hvalues, List.length_append]
      exact Nat.le_add_right _ _
    · intro i hi _
      rw [hvalues]
      exact List.getElem?_append_left hi
    · intro hfalse
      rw [hover] at hfalse
      cases hfalse

theorem definedOr_eq_ok {unbound : Fault} {b e : Value} :
    definedOr unbound [] b = .ok e ↔ e ≠ .undef ∧ b = e := by
  unfold definedOr
  by_cases hb : b = .undef
  · rw [if_pos hb]
    exact ⟨fun h => (nomatch h), fun h => absurd (h.2 ▸ hb) h.1⟩
  · rw [if_neg hb]
    exact ⟨fun h => ⟨Except.ok.inj h ▸ hb, Except.ok.inj h⟩, fun h => h.2 ▸ rfl⟩

theorem globalReads_eq_ok {kind : BindingKind} {e : Value} :
    globalReads ctx kind si gvi e = .ok e ↔ e ≠ .undef ∧ expandPath ctx e = .ok e := by
  unfold globalReads
  rw [bind_eq_ok]
  constructor
  · rintro ⟨v, hv, hdef⟩
    obtain ⟨hne, rfl⟩ := definedOr_eq_ok.mp hdef
    exact ⟨hne, hv⟩
  · rintro ⟨hne, he⟩
    exact ⟨e, he, definedOr_eq_ok.mpr ⟨hne, rfl⟩⟩

/-- When a reference yields the value just assigned: the value is not `#<undef>`, and
either the variable's innermost binding already has it, or the variable has no binding
(or is moved away from its bindings) and the value is not a path that expands to another. -/
def SeenWhen (ctx : Ctx) (moved : Bool) (bound : Option Value) (e : Value) : Prop :=
  e ≠ .undef ∧
    if moved = true ∨ bound = none then expandPath ctx e = .ok e else bound = some e

/-- What a reference yields after an assignment. -/
theorem Assignment.refers {e : Value} {t' : Tables} {gvi' : Nat} {kind : BindingKind}
    (h : Assignment ctx mods w xi si gvi t sym e t' gvi') {xi' si' : Nat}
    (hloc : t'.Located xi' si' gvi') :
    referVariable ctx mods kind xi' si' (w.withTables e t').concrete =
      reads ctx kind si' gvi' (w.bound kind gvi') e :=
  referVariable_located (w := w.withTables e t') hloc h.value

/-- **One assignment and the next reference.** -/
theorem Assignment.seen_iff (hw : w.Sound) {e : Value} {t' : Tables} {gvi' : Nat}
    (hext : w.tables.Extends t) (h : Assignment ctx mods w xi si gvi t sym e t' gvi')
    (kind : BindingKind) :
    (∀ xi' si', t'.Same xi si xi' si' →
        referVariable ctx mods kind xi' si' (w.withTables e t').concrete = .ok e) ↔
      SeenWhen ctx (overwritesPredef ctx mods w.thr.env t sym e) (w.bound kind gvi) e := by
  have hreads : ∀ si', reads ctx kind si' gvi' (w.bound kind gvi') e = .ok e ↔
      SeenWhen ctx (overwritesPredef ctx mods w.thr.env t sym e) (w.bound kind gvi) e := by
    intro si'
    have hplace := h.place
    unfold SeenWhen
    cases hover : overwritesPredef ctx mods w.thr.env t sym e with
    | true =>
      rw [hover, if_pos rfl] at hplace
      have hfresh : w.bound kind gvi' = none :=
        hw.bound_fresh kind (hplace ▸ hext.values.length_le)
      rw [hfresh, if_pos (.inl rfl)]
      exact globalReads_eq_ok
    | false =>
      rw [hover, if_neg (by decide)] at hplace
      subst hplace
      cases hbound : w.bound kind gvi' with
      | none =>
        rw [if_pos (.inr rfl)]
        exact globalReads_eq_ok
      | some b =>
        rw [if_neg (by simp)]
        exact definedOr_eq_ok.trans (and_congr_right fun _ => Option.some_inj.symm)
  constructor
  · intro hall
    have hself := hall xi si ⟨gvi', h.located, h.located⟩
    rw [h.refers h.located] at hself
    exact (hreads si).mp hself
  · rintro hseen xi' si' ⟨g, hg, hg'⟩
    have hsame : g = gvi' := Option.some.inj (hg.1.symm.trans h.located.1)
    rw [h.refers (hsame ▸ hg')]
    exact (hreads si').mpr hseen

end Assignment

/-! ## Bindings -/

section Bindings

variable {ctx : Ctx} {mods : Modules} {w : World (List Record)} {xi si gvi : Nat} {t : Tables}

/-- The world with a variable bound. -/
def World.pushed (w : World (List Record)) (t : Tables) (kind : BindingKind) (gvi : Nat)
    (v : OrdinaryValue) : World (List Record) :=
  ⟨(w.withVal v.val).thr.pushRecord (.binding kind gvi v), t⟩

/-- The world with its topmost record popped. -/
def World.popped (w : World (List Record)) : World (List Record) :=
  { w with thr := w.thr.withStack w.thr.stack.tail }

theorem push_exec (kind : BindingKind) (v : OrdinaryValue)
    (hiref : iref ctx mods w.thr.env w.tables xi si = .ok (t, gvi)) :
    (kind.push si).exec ctx mods xi (w.concrete.withVal v.val) =
      .ok (w.pushed t kind gvi v).concrete := by
  have hshared : (kind.push si).exec ctx mods xi (w.concrete.withVal v.val) =
      pushVariable ctx mods (pushBinding kind.marker) xi si (w.withVal v.val).concrete := by
    cases kind <;> rfl
  have hiref' : iref ctx mods (w.withVal v.val).concrete.thr.env
      (w.withVal v.val).concrete.tables xi si = .ok (t, gvi) := hiref
  rw [hshared, pushVariable, hiref', ok_bind]
  show (pushBinding kind.marker (w.withVal v.val).thr.concrete gvi v.val >>= _) = _
  rw [pushBinding_refines]
  rfl

theorem pop_exec {kind : BindingKind} {v : OrdinaryValue} {rs : List Record}
    (h : w.thr.stack = .binding kind gvi v :: rs) :
    kind.pop.exec ctx mods xi w.concrete = .ok w.popped.concrete := by
  have htail : w.popped = { w with thr := w.thr.withStack rs } := by
    unfold World.popped
    rw [h]
    rfl
  rw [htail]
  cases kind with
  | dynamic =>
    have hpop := popRecord_refines .dynamic "iv-pop-dynamic: unexpected stack marker" h rfl
    show (popRecord _ _ w.thr.concrete >>= _) = _
    rw [hpop]
    rfl
  | environ =>
    have hpop := popRecord_refines .environ "iv-pop-environ: unexpected stack marker" h rfl
    show (popRecord _ _ w.thr.concrete >>= _) = _
    rw [hpop]
    rfl

theorem World.Sound.pushed (hw : w.Sound) (ht : t.Sound) (hext : w.tables.Extends t)
    (kind : BindingKind) (hgvi : gvi < t.values.length) (v : OrdinaryValue) :
    (w.pushed t kind gvi v).Sound := by
  refine ⟨ht, fun k b hb => ?_⟩
  have hb' : b ∈ Idio.bindings k (.binding kind gvi v :: w.thr.stack) := hb
  rw [bindings_binding] at hb'
  split at hb'
  · obtain rfl | hmem := List.mem_cons.mp hb'
    · exact hgvi
    · exact (hw.bindings k b hmem).trans_le hext.values.length_le
  · exact (hw.bindings k b hb').trans_le hext.values.length_le

/-- A binding leaves the bindings there are. -/
theorem World.pushed_bound (w : World (List Record)) (t : Tables) (kind : BindingKind)
    (gvi : Nat) (v : OrdinaryValue) (k : BindingKind) (g : Nat) :
    (w.pushed t kind gvi v).bound k g =
      if k = kind ∧ gvi = g then some v.val else w.bound k g := by
  show (Idio.bindings k (.binding kind gvi v :: w.thr.stack)).lookup g = _
  rw [bindings_binding]
  by_cases hk : k = kind
  · rw [if_pos hk, Scopes.lookup_cons]
    by_cases hg : gvi = g
    · rw [if_pos hg, if_pos ⟨hk, hg⟩]
    · rw [if_neg hg, if_neg fun h => hg h.2]
      rfl
  · rw [if_neg hk, if_neg fun h => hk h.1]
    rfl

/-- When references yield after a binding what they did before it, the variable having
been assigned to once in between: there is a binding left to read, or what is read of the
global value has not changed. -/
def RestoredWhen (ctx : Ctx) (kind : BindingKind) (si : Nat) (moved : Bool) (gvi' : Nat)
    (outer : Option Value) (e : Value) (before : Result Value) : Prop :=
  (moved = false ∧ outer ≠ none) ∨ globalReads ctx kind si gvi' e = before

/-- A binding that is assigned to. -/
def bindAndSet (kind : BindingKind) (xi si : Nat) (v : OrdinaryValue) (e : Value) : Form :=
  .bind kind xi si v (.set kind xi si e)

variable {sym : Value}

/-- **One assignment inside a binding, and the next reference outside.** -/
theorem bindAndSet_restores (hw : w.Sound) (hn : Named ctx mods w xi si t gvi sym)
    (kind : BindingKind) (v : OrdinaryValue) (e : Value) :
    ∃ w' : World (List Record),
      (bindAndSet kind xi si v e).exec ctx mods w.concrete = .ok w'.concrete ∧
      w'.thr.stack = w.thr.stack ∧
      (referVariable ctx mods kind xi si w'.concrete = referVariable ctx mods kind xi si w.concrete ↔
        RestoredWhen ctx kind si (overwritesPredef ctx mods w.thr.env t sym e)
          (if overwritesPredef ctx mods w.thr.env t sym e then t.values.length else gvi)
          (w.bound kind gvi) e (referVariable ctx mods kind xi si w.concrete)) := by
  have hlt := hn.sound.located_lt hn.located
  have hn' : Named ctx mods (w.pushed t kind gvi v) xi si t gvi sym :=
    ⟨iref_located hn.located, hn.symbol, hn.located, .refl t, hn.sound⟩
  obtain ⟨t', gvi', hassign, ha⟩ := exists_assignment hn' kind e
  have hpush := push_exec kind v hn.iref
  let w₂ := (w.pushed t kind gvi v).withTables e t'
  have hpop : kind.pop.exec ctx mods xi w₂.concrete = .ok w₂.popped.concrete :=
    pop_exec (w := w₂) (v := v) rfl
  refine ⟨w₂.popped, ?_, rfl, ?_⟩
  · unfold bindAndSet Form.exec
    rw [hpush, ok_bind]
    unfold Form.exec
    rw [hassign, ok_bind]
    exact hpop
  have hbefore : referVariable ctx mods kind xi si w.concrete =
      reads ctx kind si gvi (w.bound kind gvi) t.values[gvi] :=
    referVariable_eq hn.iref hn.located.2 (List.getElem?_eq_getElem hlt)
  have hafter : referVariable ctx mods kind xi si w₂.popped.concrete =
      reads ctx kind si gvi' (w.bound kind gvi') e :=
    referVariable_located (w := w₂.popped) ha.located ha.value
  have hplace := ha.place
  have henv : (w.pushed t kind gvi v).thr.env = w.thr.env := rfl
  rw [henv] at hplace
  rw [hafter]
  unfold RestoredWhen
  cases hover : overwritesPredef ctx mods w.thr.env t sym e with
  | true =>
    rw [hover, if_pos rfl] at hplace
    subst hplace
    rw [hw.bound_fresh kind hn.extends_.values.length_le]
    simp [reads]
  | false =>
    rw [hover, if_neg (by decide)] at hplace
    subst hplace
    cases hbound : w.bound kind gvi' with
    | none =>
      simp [reads]
    | some b =>
      rw [hbefore, hbound]
      simp [reads]

end Bindings

/-! ## Runs -/

section Runs

variable (ctx : Ctx) (mods : Modules)

/-- Every assignment of a form, run from a world, is to a variable without a binding
that stays where it is, of a value that reads back as it is. -/
def Form.AssignsGlobals : Form → World (List Record) → Prop
  | .skip, _ | .ref _ _ _, _ => True
  | .seq a b, w => a.AssignsGlobals w ∧
      ∀ w', a.exec ctx mods w.concrete = .ok (World.concrete w') → b.AssignsGlobals w'
  | .set _ xi si e, w => ∀ t gvi sym, Named ctx mods w xi si t gvi sym →
      overwritesPredef ctx mods w.thr.env t sym e = false ∧ (∀ kind, w.bound kind gvi = none) ∧
        e ≠ .undef ∧ expandPath ctx e = .ok e
  | .bind kind xi si v body, w => ∀ t gvi sym, Named ctx mods w xi si t gvi sym →
      body.AssignsGlobals (w.pushed t kind gvi v)
  | .within env body, w => body.AssignsGlobals { w with thr := { w.thr with env := env } }

/-- What is promised of every assignment and every binding of a form: the next reference
yields the value, and after the binding references yield what they did before. -/
def Form.Correct : Form → World Stack → Prop
  | .skip, _ | .ref _ _ _, _ => True
  | .seq a b, w => a.Correct w ∧ ∀ w', a.exec ctx mods w = .ok w' → b.Correct w'
  | .set kind xi si e, w => ∀ w', assignVariable ctx mods kind xi si e w = .ok w' →
      ∀ xi' si', w'.tables.Same xi si xi' si' → referVariable ctx mods kind xi' si' w' = .ok e
  | .bind kind xi si v body, w =>
      (∀ w', (kind.push si).exec ctx mods xi (w.withVal v.val) = .ok w' → body.Correct w') ∧
      ∀ w', (Form.bind kind xi si v body).exec ctx mods w = .ok w' →
        referVariable ctx mods kind xi si w' = referVariable ctx mods kind xi si w ∧
        ∀ xi' si' gvi, w'.tables.Located xi si gvi → w.tables.Located xi' si' gvi →
          referVariable ctx mods kind xi' si' w' = referVariable ctx mods kind xi' si' w
  | .within env body, w => body.Correct { w with thr := { w.thr with env := env } }

end Runs

/-- What a form leaves as it was. -/
structure NamesKept (w w' : World (List Record)) : Prop where
  sound : w'.Sound
  stack : w'.thr.stack = w.thr.stack
  env : w'.thr.env = w.thr.env
  located : ∀ xi si gvi, w.tables.Located xi si gvi → w'.tables.Located xi si gvi
  size : w.tables.values.length ≤ w'.tables.values.length
  values : ∀ kind gvi, w.bound kind gvi ≠ none →
    w'.tables.values[gvi]? = w.tables.values[gvi]?

theorem NamesKept.trans {a b c : World (List Record)} (hab : NamesKept a b) (hbc : NamesKept b c) : NamesKept a c := by
  refine ⟨hbc.sound, hbc.stack.trans hab.stack, hbc.env.trans hab.env, fun xi si gvi h =>
    hbc.located xi si gvi (hab.located xi si gvi h), hab.size.trans hbc.size,
    fun kind gvi h => ?_⟩
  have hb : b.bound kind gvi ≠ none := by
    unfold World.bound
    rw [hab.stack]
    exact h
  exact (hbc.values kind gvi hb).trans (hab.values kind gvi h)

theorem NamesKept.refl {w : World (List Record)} (hw : w.Sound) : NamesKept w w :=
  ⟨hw, rfl, rfl, fun _ _ _ h => h, le_rfl, fun _ _ _ => rfl⟩

theorem World.Sound.bound_lt {w : World (List Record)} (hw : w.Sound) {kind : BindingKind}
    {gvi : Nat} (h : w.bound kind gvi ≠ none) : gvi < w.tables.values.length := by
  by_contra hle
  exact h (hw.bound_fresh kind (by omega))

theorem Tables.lt_of_vtRef {t : Tables} {xi si gvi : Nat} (h : t.vtRef xi si = .ok gvi) :
    si < (t.xenvs xi).vt.length := by
  unfold Tables.vtRef at h
  split at h
  · rename_i hsi
    exact (List.getElem?_eq_some_iff.mp hsi).1
  · cases h

section Steps

variable {ctx : Ctx} {mods : Modules} {w : World (List Record)} {xi si gvi : Nat}
  {kind : BindingKind} {t : Tables}

theorem named_of_iref (hw : w.Sound)
    (h : iref ctx mods w.thr.env w.tables xi si = .ok (t, gvi)) :
    ∃ sym, Named ctx mods w xi si t gvi sym := by
  have hvt := h
  unfold iref at hvt
  obtain ⟨old, hold, -⟩ := bind_eq_ok.mp hvt
  obtain ⟨t', gvi', sym, hn⟩ := exists_named ctx mods hw (Tables.lt_of_vtRef hold)
  obtain ⟨rfl, rfl⟩ := Prod.mk.inj (Except.ok.inj (h.symm.trans hn.iref))
  exact ⟨sym, hn⟩

/-- Looking a variable up leaves everything. -/
theorem Named.kept (hw : w.Sound) {sym : Value} (hn : Named ctx mods w xi si t gvi sym)
    (val : Value) : NamesKept w (w.withTables val t) := by
  refine ⟨⟨hn.sound, fun k b hb => ?_⟩, rfl, rfl, hn.extends_.located,
    hn.extends_.values.length_le, fun k g h => ?_⟩
  · exact (hw.bindings k b hb).trans_le hn.extends_.values.length_le
  · obtain ⟨added, hadded⟩ := hn.extends_.values
    show t.values[g]? = _
    rw [← hadded]
    exact List.getElem?_append_left (hw.bound_lt h)

theorem ref_keeps (hw : w.Sound) {wc : World Stack}
    (h : symRefOf ctx mods kind xi si w.concrete = .ok wc) :
    ∃ w', wc = World.concrete w' ∧ NamesKept w w' := by
  unfold symRefOf at h
  obtain ⟨⟨t, gvi⟩, hiref, h⟩ := bind_eq_ok.mp h
  obtain ⟨val, -, h⟩ := bind_eq_ok.mp h
  obtain ⟨sym, hn⟩ := named_of_iref hw hiref
  cases h
  exact ⟨w.withTables val t, rfl, hn.kept hw val⟩

/-- An assignment to a variable without a binding leaves all bindings, and the global
values of what is bound. -/
theorem set_keeps (hw : w.Sound) {e : Value} {wc : World Stack}
    (hm : (Form.set kind xi si e).AssignsGlobals ctx mods w)
    (h : assignVariable ctx mods kind xi si e w.concrete = .ok wc) :
    ∃ w' t gvi sym t' gvi', wc = World.concrete w' ∧ w' = w.withTables e t' ∧ NamesKept w w' ∧
      Named ctx mods w xi si t gvi sym ∧ Assignment ctx mods w xi si gvi t sym e t' gvi' := by
  have hset := h
  rw [meaningAssignment_kind] at hset
  obtain ⟨t₀, hset, -⟩ := bind_eq_ok.mp hset
  unfold isetVal at hset
  obtain ⟨old, hold, -⟩ := bind_eq_ok.mp hset
  obtain ⟨t, gvi, sym, hn⟩ := exists_named ctx mods hw (Tables.lt_of_vtRef hold)
  obtain ⟨t', gvi', hassign, ha⟩ := exists_assignment hn kind e
  obtain ⟨hover, hfree, -, -⟩ := hm t gvi sym hn
  have hplace := ha.place
  rw [hover, if_neg (by decide)] at hplace
  have hkept := hn.kept hw e
  refine ⟨_, t, gvi, sym, t', gvi', Except.ok.inj (h.symm.trans hassign), rfl, ?_, hn, ha⟩
  refine ⟨⟨ha.sound, fun k b hb => ?_⟩, rfl, rfl, fun xi' si' g hg => ?_, ?_, fun k g hg => ?_⟩
  · exact (hkept.sound.bindings k b hb).trans_le ha.size
  · have hg' := hkept.located xi' si' g hg
    unfold Tables.Located at hg' ⊢
    show ((t'.xenvs xi').vt[si']? = some g) ∧ _
    rw [ha.xenvs hover]
    exact hg'
  · exact hkept.size.trans ha.size
  · have hne : g ≠ gvi' := by
      rintro rfl
      exact hg (hplace ▸ hfree k)
    have hlt : g < t.values.length := (hw.bound_lt hg).trans_le hkept.size
    exact (ha.others g hlt hne).trans (hkept.values k g hg)

theorem push_inv (hw : w.Sound) {v : OrdinaryValue} {wc : World Stack}
    (h : (kind.push si).exec ctx mods xi (w.concrete.withVal v.val) = .ok wc) :
    ∃ t gvi sym, Named ctx mods w xi si t gvi sym ∧ wc = (w.pushed t kind gvi v).concrete := by
  have hshared : (kind.push si).exec ctx mods xi (w.concrete.withVal v.val) =
      pushVariable ctx mods (pushBinding kind.marker) xi si (w.concrete.withVal v.val) := by
    cases kind <;> rfl
  have hlook := h
  rw [hshared] at hlook
  obtain ⟨⟨t, gvi⟩, hiref, -⟩ := bind_eq_ok.mp hlook
  obtain ⟨sym, hn⟩ := named_of_iref hw hiref
  rw [push_exec kind v hn.iref] at h
  exact ⟨t, gvi, sym, hn, (Except.ok.inj h).symm⟩

theorem bind_inv (hw : w.Sound) {v : OrdinaryValue} {body : Form} {wc : World Stack}
    (h : (Form.bind kind xi si v body).exec ctx mods w.concrete = .ok wc) :
    ∃ t gvi sym wb, Named ctx mods w xi si t gvi sym ∧
      body.exec ctx mods (w.pushed t kind gvi v).concrete = .ok wb ∧
      kind.pop.exec ctx mods xi wb = .ok wc := by
  unfold Form.exec at h
  obtain ⟨w₁, hpush, h⟩ := bind_eq_ok.mp h
  obtain ⟨wb, hbody, hpop⟩ := bind_eq_ok.mp h
  obtain ⟨t, gvi, sym, hn, rfl⟩ := push_inv hw hpush
  exact ⟨t, gvi, sym, wb, hn, hbody, hpop⟩

/-- What a body has kept of a binding is kept of the world around it. -/
theorem NamesKept.popped (hw : w.Sound) {sym : Value} (hn : Named ctx mods w xi si t gvi sym)
    {v : OrdinaryValue} {w₂ : World (List Record)} (h : NamesKept (w.pushed t kind gvi v) w₂) :
    NamesKept w w₂.popped := by
  have hstack : w₂.popped.thr.stack = w.thr.stack := by
    show w₂.thr.stack.tail = _
    rw [h.stack]
    rfl
  have hkept := hn.kept hw v.val
  have hsize : w.tables.values.length ≤ w₂.tables.values.length := hkept.size.trans h.size
  refine ⟨⟨h.sound.tables, fun k b hb => ?_⟩, hstack, h.env, fun xi' si' g hg =>
    h.located xi' si' g (hkept.located xi' si' g hg), hsize, fun k g hg => ?_⟩
  · rw [hstack] at hb
    exact (hw.bindings k b hb).trans_le hsize
  · have hbound : (w.pushed t kind gvi v).bound k g ≠ none := by
      rw [World.pushed_bound]
      split
      · exact Option.some_ne_none _
      · exact hg
    exact (h.values k g hbound).trans (hkept.values k g hg)

end Steps

section Forms

variable {ctx : Ctx} {mods : Modules}

/-- **The run lemma.**  A form whose assignments are to variables without a binding leaves
the stack as it was, and the global value of every variable that is bound. -/
theorem Form.keeps {s : Form} {w : World (List Record)} (hw : w.Sound)
    (hm : s.AssignsGlobals ctx mods w) {wc : World Stack}
    (h : s.exec ctx mods w.concrete = .ok wc) : ∃ w', wc = World.concrete w' ∧ NamesKept w w' := by
  induction s generalizing w wc with
  | skip =>
    cases h
    exact ⟨w, rfl, .refl hw⟩
  | seq a b iha ihb =>
    obtain ⟨wa, ha, hb⟩ := bind_eq_ok.mp h
    obtain ⟨w₁, rfl, hkept₁⟩ := iha hw hm.1 ha
    obtain ⟨w₂, rfl, hkept₂⟩ := ihb hkept₁.sound (hm.2 w₁ ha) hb
    exact ⟨w₂, rfl, hkept₁.trans hkept₂⟩
  | ref kind xi si =>
    unfold Form.exec at h
    rw [meaningReference_kind] at h
    exact ref_keeps hw h
  | set kind xi si e =>
    obtain ⟨w', -, -, -, -, -, rfl, -, hkept, -⟩ := set_keeps hw hm h
    exact ⟨w', rfl, hkept⟩
  | bind kind xi si v body ih =>
    obtain ⟨t, gvi, sym, wb, hn, hbody, hpop⟩ := bind_inv hw h
    have hsound := hw.pushed hn.sound hn.extends_ kind (hn.sound.located_lt hn.located) v
    obtain ⟨w₂, rfl, hkept⟩ := ih hsound (hm t gvi sym hn) hbody
    rw [pop_exec hkept.stack] at hpop
    cases hpop
    exact ⟨w₂.popped, rfl, hkept.popped hw hn⟩
  | within env body ih =>
    obtain ⟨wb, hbody, hend⟩ := bind_eq_ok.mp h
    obtain ⟨w₂, rfl, hkept⟩ := ih (w := { w with thr := { w.thr with env := env } })
      ⟨hw.tables, hw.bindings⟩ hm hbody
    cases hend
    refine ⟨{ w₂ with thr := { w₂.thr with env := w.thr.env } }, rfl, ?_⟩
    exact ⟨⟨hkept.sound.tables, hkept.sound.bindings⟩, hkept.stack, rfl, hkept.located,
      hkept.size, hkept.values⟩

/-- **Runs.**  In a form whose assignments are all to variables without a binding, every
assignment is seen by the next reference and every binding is undone. -/
theorem Form.correct_of_assignsGlobals {s : Form} {w : World (List Record)} (hw : w.Sound)
    (hm : s.AssignsGlobals ctx mods w) : s.Correct ctx mods w.concrete := by
  induction s generalizing w with
  | skip => trivial
  | ref kind xi si => trivial
  | seq a b iha ihb =>
    refine ⟨iha hw hm.1, fun wa ha => ?_⟩
    obtain ⟨w₁, rfl, hkept⟩ := Form.keeps hw hm.1 ha
    exact ihb hkept.sound (hm.2 w₁ ha)
  | set kind xi si e =>
    intro wc h xi' si' hsame
    obtain ⟨w', t, gvi, sym, t', gvi', rfl, rfl, -, hn, ha⟩ := set_keeps hw hm h
    obtain ⟨hover, hfree, hne, hpath⟩ := hm t gvi sym hn
    refine (ha.seen_iff hw hn.extends_ kind).mpr ⟨hne, ?_⟩ xi' si' hsame
    rw [if_pos (.inr (hfree kind))]
    exact hpath
  | bind kind xi si v body ih =>
    refine ⟨fun w₁ hpush => ?_, fun wc h => ?_⟩
    · obtain ⟨t, gvi, sym, hn, rfl⟩ := push_inv hw hpush
      have hlt := hn.sound.located_lt hn.located
      exact ih (hw.pushed hn.sound hn.extends_ kind hlt v) (hm t gvi sym hn)
    · obtain ⟨t, gvi, sym, wb, hn, hbody, hpop⟩ := bind_inv hw h
      have hlt := hn.sound.located_lt hn.located
      have hsound := hw.pushed hn.sound hn.extends_ kind hlt v
      obtain ⟨w₂, rfl, hkept⟩ := Form.keeps hsound (hm t gvi sym hn) hbody
      rw [pop_exec hkept.stack] at hpop
      cases hpop
      have hall := hkept.popped hw hn
      have hbound : (w.pushed t kind gvi v).bound kind gvi ≠ none := by
        rw [World.pushed_bound, if_pos ⟨rfl, rfl⟩]
        exact Option.some_ne_none _
      have hvalue : w₂.tables.values[gvi]? = some t.values[gvi] :=
        (hkept.values kind gvi hbound).trans (List.getElem?_eq_getElem hlt)
      have hsame : w₂.popped.bound kind gvi = w.bound kind gvi := by
        unfold World.bound
        rw [hall.stack]
      have hloc : w₂.tables.Located xi si gvi := hkept.located xi si gvi hn.located
      -- a reference before the binding and one after it read the same two places
      have hafter : ∀ xi' si', w₂.tables.Located xi' si' gvi →
          referVariable ctx mods kind xi' si' w₂.popped.concrete =
            reads ctx kind si' gvi (w.bound kind gvi) t.values[gvi] := fun xi' si' hl =>
        (referVariable_located (w := w₂.popped) hl hvalue).trans (by rw [hsame])
      refine ⟨?_, fun xi' si' g hg hg' => ?_⟩
      · rw [hafter xi si hloc]
        exact (referVariable_eq hn.iref hn.located.2 (List.getElem?_eq_getElem hlt)).symm
      · obtain rfl : gvi = g := Option.some.inj (hloc.1.symm.trans hg.1)
        rw [hafter xi' si' (hall.located xi' si' gvi hg')]
        have hbefore : w.tables.values[gvi]? = some t.values[gvi] := by
          have hlt' := hw.tables.located_lt hg'
          obtain ⟨added, hadded⟩ := hn.extends_.values
          rw [← List.getElem?_eq_getElem hlt, ← hadded]
          exact (List.getElem?_append_left hlt').symm
        exact (referVariable_located hg' hbefore).symm
  | within env body ih => exact ih (w := { w with thr := { w.thr with env := env } }) ⟨hw.tables, hw.bindings⟩ hm

/-- **Assignments to dynamic and environ variables.**  An assignment goes through from
every sound world; the next reference yields the value exactly when `SeenWhen` says so, and
after a binding that was assigned to references yield what they did before it exactly when
`RestoredWhen` says so.  In a run whose assignments are all to variables without a binding
every assignment is seen and every binding is undone. -/
theorem assignments_seen (ctx : Ctx) (mods : Modules) {w : World (List Record)} (hw : w.Sound)
    {xi si : Nat} (hsi : si < (w.tables.xenvs xi).vt.length) (kind : BindingKind) :
    (∃ t gvi sym, Named ctx mods w xi si t gvi sym ∧
      (∀ e, ∃ t', assignVariable ctx mods kind xi si e w.concrete =
          .ok (w.withTables e t').concrete ∧ t'.Same xi si xi si ∧
        ((∀ xi' si', t'.Same xi si xi' si' →
            referVariable ctx mods kind xi' si' (w.withTables e t').concrete = .ok e) ↔
          SeenWhen ctx (overwritesPredef ctx mods w.thr.env t sym e) (w.bound kind gvi) e)) ∧
      ∀ v e, ∃ w' : World (List Record),
        (bindAndSet kind xi si v e).exec ctx mods w.concrete = .ok w'.concrete ∧
        w'.thr.stack = w.thr.stack ∧
        (referVariable ctx mods kind xi si w'.concrete =
            referVariable ctx mods kind xi si w.concrete ↔
          RestoredWhen ctx kind si (overwritesPredef ctx mods w.thr.env t sym e)
            (if overwritesPredef ctx mods w.thr.env t sym e then t.values.length else gvi)
            (w.bound kind gvi) e (referVariable ctx mods kind xi si w.concrete))) ∧
    ∀ s : Form, s.AssignsGlobals ctx mods w → s.Correct ctx mods w.concrete := by
  obtain ⟨t, gvi, sym, hn⟩ := exists_named ctx mods hw hsi
  refine ⟨⟨t, gvi, sym, hn, fun e => ?_, bindAndSet_restores hw hn kind⟩,
    fun s => Form.correct_of_assignsGlobals hw⟩
  obtain ⟨t', gvi', hassign, ha⟩ := exists_assignment hn kind e
  exact ⟨t', hassign, ⟨gvi', ha.located, ha.located⟩, ha.seen_iff hw hn.extends_ kind⟩

end Forms

/-! ## A binding that is assigned to -/

/-- A module without imports. -/
def loneModule : Modules where
  imports := fun _ => []
  exports := fun _ => []
  idio := .nil
  slashed := fun _ => none

/-- A variable, with `si` 0 in every xenv, whose global value is 0. -/
def oneVariable : World (List Record) where
  thr := (emptyVm []).thr
  tables :=
    { values := [.undef, .fixnum 0]
      xenvs := fun _ => ⟨[.pointer 1], [1]⟩
      symbols := ⟨fun _ => ⟨.dynamic, 0, 1⟩, 0, fun _ => []⟩ }

theorem oneVariable_sound : oneVariable.Sound := by
  refine ⟨⟨by decide, fun xi gvi h => ?_, fun _ => Nat.one_lt_two, fun _ => rfl⟩, fun kind b h => ?_⟩
  · obtain rfl : gvi = 1 := List.mem_singleton.mp h
    decide
  · cases h

theorem assignments_seen_oneVariable :
    (assignVariable emptyCtx loneModule .dynamic 1 0 (.fixnum 30) oneVariable.concrete >>=
      referVariable emptyCtx loneModule .dynamic 1 0) = .ok (.fixnum 30) := by
  have hsi : 0 < (oneVariable.tables.xenvs 1).vt.length := by decide
  obtain ⟨⟨t, gvi, sym, -, hset, -⟩, -⟩ :=
    assignments_seen emptyCtx loneModule oneVariable_sound hsi .dynamic
  obtain ⟨t', hassign, hself, hseen⟩ := hset (.fixnum 30)
  rw [hassign]
  refine hseen.mpr ⟨by decide, ?_⟩ 1 0 hself
  rw [if_pos (.inr rfl)]
  rfl

/-- The variable is bound to 10 and assigned 30: it still is 10, and after the binding it
is 30. -/
theorem assignment_not_seen :
    ((BindingKind.dynamic.push 0).exec emptyCtx loneModule 1
          (oneVariable.concrete.withVal (.fixnum 10)) >>=
        assignVariable emptyCtx loneModule .dynamic 1 0 (.fixnum 30) >>=
        referVariable emptyCtx loneModule .dynamic 1 0) = .ok (.fixnum 10) ∧
      ((bindAndSet .dynamic 1 0 ⟨.fixnum 10, ordinary_fixnum 10⟩ (.fixnum 30)).exec emptyCtx
          loneModule oneVariable.concrete >>=
        referVariable emptyCtx loneModule .dynamic 1 0) = .ok (.fixnum 30) ∧
      referVariable emptyCtx loneModule .dynamic 1 0 oneVariable.concrete = .ok (.fixnum 0) ∧
      ((BindingKind.environ.push 0).exec emptyCtx loneModule 1
          (oneVariable.concrete.withVal (.fixnum 10)) >>=
        assignVariable emptyCtx loneModule .environ 1 0 (.fixnum 30) >>=
        referVariable emptyCtx loneModule .environ 1 0) = .ok (.fixnum 10) := by
  refine ⟨?_, ?_, ?_, ?_⟩ <;> rfl

end Idio
