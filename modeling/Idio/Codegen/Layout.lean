/-
  Codegen/Layout.lean --- what compiling adds, and what fits.

  Compiling a term only adds to the tables of the evaluation environment, so a constant keeps
  its index and a function its place.  `Fits` says of a term that its numbers fit the operands
  they are written in, that calls which do not return stand where nothing is left to do but to
  return, and that a frame is only left by a let that links it.
-/
import Idio.Codegen.Meaning
import Mathlib.Data.List.Infix

set_option autoImplicit false

namespace Idio.Codegen

open Idio.Machine

/-! ## Environments -/

section Extends

variable {O : Type}

/-- An environment with more in it. -/
structure Eenv.Extends (e e' : Eenv O) : Prop where
  cs : e.cs <+: e'.cs
  ses : e.ses <+: e'.ses
  byteCode : e.byteCode <+: e'.byteCode
  functions : e.functions <+: e'.functions

namespace Eenv.Extends

variable {e e' e'' : Eenv O}

theorem refl (e : Eenv O) : e.Extends e :=
  ⟨List.prefix_rfl, List.prefix_rfl, List.prefix_rfl, List.prefix_rfl⟩

theorem trans (h : e.Extends e') (h' : e'.Extends e'') : e.Extends e'' where
  cs := h.cs.trans h'.cs
  ses := h.ses.trans h'.ses
  byteCode := h.byteCode.trans h'.byteCode
  functions := h.functions.trans h'.functions

end Eenv.Extends

theorem createFunction_extends (tf : Ia) (nci fci dsci sei vi : Nat) (e : Eenv O)
    (lambda : Lambda O) : e.Extends (createFunction tf nci fci dsci sei vi e lambda) :=
  ⟨List.prefix_rfl, List.prefix_rfl, List.prefix_append _ _, List.prefix_append _ _⟩

variable [DecidableEq O]

/-- The index that a constant has. -/
theorem constantsLookupOrExtend_spec (e : Eenv O) (v : VmValue O) :
    e.Extends (constantsLookupOrExtend e v).2 ∧
      (constantsLookupOrExtend e v).2.cs[(constantsLookupOrExtend e v).1]? = some v := by
  unfold constantsLookupOrExtend
  split
  · next ci hci =>
    refine ⟨.refl e, ?_⟩
    obtain ⟨hlt, hv, -⟩ := List.findIdx?_eq_some_iff_getElem.mp hci
    exact List.getElem?_eq_some_iff.mpr ⟨hlt, of_decide_eq_true hv⟩
  · refine ⟨⟨List.prefix_append _ _, List.prefix_rfl, List.prefix_rfl, List.prefix_rfl⟩, ?_⟩
    exact List.getElem?_concat_length

theorem constantsLookupOrExtend_extends (e : Eenv O) (v : VmValue O) :
    e.Extends (constantsLookupOrExtend e v).2 :=
  (constantsLookupOrExtend_spec e v).1

/-- The index that a source expression has. -/
theorem extendSrcExprs_spec (e : Eenv O) (src : Src O) :
    e.Extends (extendSrcExprs e src).2 ∧ (extendSrcExprs e src).1 < (extendSrcExprs e src).2.ses.length := by
  have hses : e.Extends { e with ses := e.ses ++ [src] } :=
    ⟨List.prefix_rfl, List.prefix_append _ _, List.prefix_rfl, List.prefix_rfl⟩
  have hlt : e.ses.length < (e.ses ++ [src]).length := by
    rw [List.length_append]
    exact Nat.lt_succ_self _
  unfold extendSrcExprs
  split
  · next fn line _ _ =>
    have hcs := constantsLookupOrExtend_extends { e with ses := e.ses ++ [src] } fn
    refine ⟨hses.trans ⟨hcs.cs, hcs.ses, hcs.byteCode, hcs.functions⟩, ?_⟩
    exact Nat.lt_of_lt_of_le hlt hcs.ses.length_le
  · exact ⟨⟨List.prefix_rfl, List.prefix_append _ _, List.prefix_rfl, List.prefix_rfl⟩, hlt⟩

theorem extendSrcExprs_extends (e : Eenv O) (src : Src O) : e.Extends (extendSrcExprs e src).2 :=
  (extendSrcExprs_spec e src).1

end Extends

/-! ## Terms that fit -/

section Fits

variable {O : Type}

/-- The numbers of a reference fit their operands. -/
def SymbolRefFits : SymbolRef O → Prop
  | .symRef si | .functionSymRef si | .computedSymRef si | .symDef si _ => si < 65536
  | .predefined vi => vi < 2 ^ 64

/-- The numbers of an assignment fit their operands. -/
def SymbolSetFits : SymbolSet → Prop
  | .symSet si | .computedSymSet si | .computedSymDef si | .expander si => si < 65536
  | .infixOperator oi pri | .postfixOperator oi pri => oi < 65536 ∧ pri < 2 ^ 64

/-- A constant that is a number fits a fixnum. -/
def ConstantFits : VmValue O → Prop
  | .fixnum v | .constant v => fixnumMin ≤ v ∧ v ≤ fixnumMax
  | .unicode v => (v : Int) ≤ fixnumMax
  | _ => True

/-- Whether a term is in tail position, from whether its list is and what is after it. -/
def lastTail (tail : Bool) : ICodes O → Bool
  | .nil => tail
  | .cons _ _ => false

mutual

/-- A term fits, in tail position or not. -/
def Fits (tail : Bool) : ICode O → Prop
  | .shallowArgumentRef j => j < 2 ^ 64
  | .deepArgumentRef i j => i < 2 ^ 64 ∧ j < 2 ^ 31
  | .shallowArgumentSet j m1 => j < 2 ^ 64 ∧ Fits false m1
  | .deepArgumentSet i j m1 => i < 2 ^ 64 ∧ j < 2 ^ 31 ∧ Fits false m1
  | .symbolRef r => SymbolRefFits r
  | .symbolSet _ a m1 => SymbolSetFits a ∧ Fits false m1
  | .constantRef c => ConstantFits c
  | .alternative _ m1 m2 m3 => Fits false m1 ∧ Fits tail m2 ∧ Fits tail m3
  | .sequence m1 mp => Fits false m1 ∧ Fits tail mp
  | .trFixLet ms mp _ _ => tail = true ∧ ArgumentsFit ms ∧ Fits true mp
  | .fixLet ms mp _ _ => ArgumentsFit ms ∧ Fits false mp
  | .local_ _ i m1 mp _ n => i < 2 ^ 64 ∧ n < 2 ^ 31 ∧ Fits false m1 ∧ Fits tail mp
  | .primcall0 _ pd => pd < 2 ^ 64
  | .primcall1 _ m1 pd => pd < 2 ^ 64 ∧ Fits false m1
  | .primcall2 _ m1 m2 pd => pd < 2 ^ 64 ∧ Fits false m1 ∧ Fits false m2
  | .trRegularCall _ m1 ms => tail = true ∧ Fits false m1 ∧ ArgumentsFit ms
  | .regularCall _ m1 ms => Fits false m1 ∧ ArgumentsFit ms
  | .closure _ mp a => a.arity + 1 < 2 ^ 64 ∧ 0 < a.vi ∧ a.vi < 65536 ∧ Fits true mp
  | .and_ tailp m1 mt | .or_ tailp m1 mt =>
      (tailp = true → tail = true) ∧ Fits (lastTail tailp mt) m1 ∧ ListFits tailp mt
  | .begin_ _ m1 mt | .list m1 mt => Fits (lastTail tail mt) m1 ∧ ListFits tail mt
  | .not _ m1 => Fits false m1
  | .return_ | .pushAbort _ | .popAbort => False
  | .nop => True

/-- A list of terms fits, the last one in tail position or not. -/
def ListFits (tail : Bool) : ICodes O → Prop
  | .nil => True
  | .cons m mt => Fits (lastTail tail mt) m ∧ ListFits tail mt

/-- The terms of arguments fit. -/
def ArgumentsFit : Arguments O → Prop
  | .allocateFrame arity | .allocateDottedFrame arity | .reuseFrame arity => arity + 1 < 2 ^ 31
  | .storeArgument m1 ms rank | .listArgument m1 ms rank =>
      rank < 2 ^ 31 ∧ Fits false m1 ∧ ArgumentsFit ms

end

end Fits

/-! ## What compiling adds -/

section Additive

variable {O : Type} [DecidableEq O]

/-- A relation that holds between an environment and what compiling makes of it, as it holds for
each thing that is added: a constant, a source expression, a function. -/
structure Additive (R : Eenv O → Eenv O → Prop) : Prop where
  refl : ∀ e, R e e
  trans : ∀ {e e' e''}, R e e' → R e' e'' → R e e''
  constant : ∀ e v, R e (constantsLookupOrExtend e v).2
  srcExpr : ∀ e src, R e (extendSrcExprs e src).2
  function : ∀ (e : Eenv O) (nary : Bool) (arity nci fci dsci sei vi : Nat) (mp : ICode O),
    Fits true mp → arity + 1 < 2 ^ 64 → 0 < vi → vi < 65536 →
    R (compile mp e).2 (createFunction (functionCode nary arity fci sei (compile mp e).1)
      nci fci dsci sei vi (compile mp e).2 ⟨nary, arity, mp⟩)

variable {R : Eenv O → Eenv O → Prop}

namespace Additive

theorem codegenSrcExpr (hR : Additive R) (e : Eenv O) (src : Src O) :
    R e (codegenSrcExpr e src).2 := by
  unfold Codegen.codegenSrcExpr
  split
  · exact hR.srcExpr e src
  · exact hR.refl e

theorem symbolRef (hR : Additive R) (e : Eenv O) (r : SymbolRef O) : R e (symbolRef e r).2 := by
  cases r with
  | symDef si kind => exact hR.constant e kind
  | _ => exact hR.refl e

theorem constantRef (hR : Additive R) (e : Eenv O) (c : VmValue O) : R e (constantRef e c).2 := by
  cases c with
  | fixnum v => exact hR.refl e
  | constant v => exact hR.refl e
  | unicode v => exact hR.refl e
  | frame a => exact hR.constant e _
  | closure a => exact hR.constant e _
  | module a => exact hR.constant e _
  | object o => exact hR.constant e _

end Additive

mutual

theorem compile_additive (hR : Additive R) (m : ICode O) {tail : Bool} (hf : Fits tail m) (e : Eenv O) :
    R e (compile m e).2 := by
  cases m with
  | shallowArgumentRef j => exact hR.refl e
  | deepArgumentRef i j => exact hR.refl e
  | shallowArgumentSet j m1 => exact compile_additive hR m1 hf.2 e
  | deepArgumentSet i j m1 => exact compile_additive hR m1 hf.2.2 e
  | symbolRef r => exact hR.symbolRef e r
  | symbolSet src a m1 =>
    have h₁ := compile_additive hR m1 hf.2 e
    cases src with
    | none => exact h₁
    | some src => exact hR.trans h₁ (hR.codegenSrcExpr _ src)
  | constantRef c => exact hR.constantRef e c
  | alternative src m1 m2 m3 =>
    obtain ⟨hf₁, hf₂, hf₃⟩ := hf
    have h₁ := hR.trans (hR.codegenSrcExpr e src) (compile_additive hR m1 hf₁ _)
    exact hR.trans (hR.trans h₁ (compile_additive hR m2 hf₂ _)) (compile_additive hR m3 hf₃ _)
  | sequence m1 mp => exact hR.trans (compile_additive hR m1 hf.1 e) (compile_additive hR mp hf.2 _)
  | trFixLet ms mp formals src =>
    obtain ⟨-, hfs, hfp⟩ := hf
    have h₁ := hR.trans (hR.constant e formals) (hR.srcExpr _ src)
    exact hR.trans (hR.trans h₁ (compileArguments_additive hR ms hfs _)) (compile_additive hR mp hfp _)
  | fixLet ms mp formals src =>
    obtain ⟨hfs, hfp⟩ := hf
    have h₁ := hR.trans (hR.constant e formals) (hR.srcExpr _ src)
    exact hR.trans (hR.trans h₁ (compileArguments_additive hR ms hfs _)) (compile_additive hR mp hfp _)
  | local_ src i m1 mp formals n =>
    obtain ⟨-, -, hf₁, hfp⟩ := hf
    have h₁ := hR.trans (hR.constant e formals) (compile_additive hR m1 hf₁ _)
    exact hR.trans (hR.trans h₁ (hR.codegenSrcExpr _ src)) (compile_additive hR mp hfp _)
  | primcall0 src pd => exact hR.codegenSrcExpr e src
  | primcall1 src m1 pd =>
    exact hR.trans (compile_additive hR m1 hf.2 e) (hR.codegenSrcExpr _ src)
  | primcall2 src m1 m2 pd =>
    obtain ⟨-, hf₁, hf₂⟩ := hf
    have h₁ := hR.trans (compile_additive hR m1 hf₁ e) (compile_additive hR m2 hf₂ _)
    exact hR.trans h₁ (hR.codegenSrcExpr _ src)
  | trRegularCall src m1 ms =>
    obtain ⟨-, hf₁, hfs⟩ := hf
    have h₁ := hR.trans (compile_additive hR m1 hf₁ e) (compileArguments_additive hR ms hfs _)
    exact hR.trans h₁ (hR.codegenSrcExpr _ src)
  | regularCall src m1 ms =>
    obtain ⟨hf₁, hfs⟩ := hf
    have h₁ := hR.trans (compile_additive hR m1 hf₁ e) (compileArguments_additive hR ms hfs _)
    exact hR.trans h₁ (hR.codegenSrcExpr _ src)
  | closure nary mp a =>
    obtain ⟨harity, hpos, hlt, hfp⟩ := hf
    have h₁ := hR.trans (hR.constant e a.name) (hR.constant _ a.formals)
    have h₂ := hR.trans (hR.trans h₁ (hR.constant _ a.docstr)) (hR.srcExpr _ a.src)
    exact hR.trans (hR.trans h₂ (compile_additive hR mp hfp _))
      (hR.function _ _ _ _ _ _ _ _ _ hfp harity hpos hlt)
  | and_ tailp m1 mt =>
    obtain ⟨-, hf₁, hft⟩ := hf
    exact hR.trans (compile_additive hR m1 hf₁ e) (compileClauses_additive hR mt hft _)
  | or_ tailp m1 mt =>
    obtain ⟨-, hf₁, hft⟩ := hf
    exact hR.trans (compile_additive hR m1 hf₁ e) (compileClauses_additive hR mt hft _)
  | begin_ tailp m1 mt =>
    exact hR.trans (compile_additive hR m1 hf.1 e) (compileList_additive hR mt hf.2 _)
  | not tailp m1 => exact compile_additive hR m1 hf e
  | return_ => exact hR.refl e
  | pushAbort m1 => exact absurd hf id
  | popAbort => exact hR.refl e
  | nop => exact hR.refl e
  | list m1 mt => exact hR.trans (compile_additive hR m1 hf.1 e) (compileList_additive hR mt hf.2 _)

theorem compileList_additive (hR : Additive R) (mt : ICodes O) {tail : Bool}
    (hf : ListFits tail mt) (e : Eenv O) : R e (compileList mt e).2 := by
  cases mt with
  | nil => exact hR.refl e
  | cons m mt => exact hR.trans (compile_additive hR m hf.1 e) (compileList_additive hR mt hf.2 _)

theorem compileClauses_additive (hR : Additive R) (mt : ICodes O) {tail tailp : Bool}
    (hf : ListFits tail mt) (e : Eenv O) : R e (compileClauses tailp mt e).2 := by
  cases mt with
  | nil => exact hR.refl e
  | cons m mt => exact hR.trans (compile_additive hR m hf.1 e) (compileClauses_additive hR mt hf.2 _)

theorem compileArguments_additive (hR : Additive R) (ms : Arguments O) (hf : ArgumentsFit ms)
    (e : Eenv O) : R e (compileArguments ms e).2 := by
  cases ms with
  | allocateFrame arity => exact hR.refl e
  | allocateDottedFrame arity => exact hR.refl e
  | reuseFrame arity => exact hR.refl e
  | storeArgument m1 ms rank =>
    obtain ⟨-, hf₁, hfs⟩ := hf
    exact hR.trans (compile_additive hR m1 hf₁ e) (compileArguments_additive hR ms hfs _)
  | listArgument m1 ms arity =>
    obtain ⟨-, hf₁, hfs⟩ := hf
    exact hR.trans (compile_additive hR m1 hf₁ e) (compileArguments_additive hR ms hfs _)

end

/-! ## Compiling only adds -/

theorem extends_additive : Additive (Eenv.Extends (O := O)) where
  refl := Eenv.Extends.refl
  trans := Eenv.Extends.trans
  constant := constantsLookupOrExtend_extends
  srcExpr := extendSrcExprs_extends
  function := fun _ _ _ _ _ _ _ _ _ _ _ _ _ => createFunction_extends _ _ _ _ _ _ _ _

theorem codegenSrcExpr_extends (e : Eenv O) (src : Src O) : e.Extends (codegenSrcExpr e src).2 :=
  extends_additive.codegenSrcExpr e src

theorem compile_extends {tail : Bool} {m : ICode O} (hf : Fits tail m) (e : Eenv O) :
    e.Extends (compile m e).2 :=
  compile_additive extends_additive m hf e

theorem compileList_extends {tail : Bool} {mt : ICodes O} (hf : ListFits tail mt) (e : Eenv O) :
    e.Extends (compileList mt e).2 :=
  compileList_additive extends_additive mt hf e

theorem compileClauses_extends {tail tailp : Bool} {mt : ICodes O} (hf : ListFits tail mt)
    (e : Eenv O) : e.Extends (compileClauses tailp mt e).2 :=
  compileClauses_additive extends_additive mt hf e

theorem compileArguments_extends {ms : Arguments O} (hf : ArgumentsFit ms) (e : Eenv O) :
    e.Extends (compileArguments ms e).2 :=
  compileArguments_additive extends_additive ms hf e

end Additive

end Idio.Codegen
