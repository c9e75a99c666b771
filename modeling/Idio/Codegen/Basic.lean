/-
  Codegen/Basic.lean --- byte code from intermediate code.

  The evaluator turns an expression into intermediate code, a list that starts with an I-code;
  here it is a term of `ICode`.  `compile` is `idio_codegen_compile`: it writes the bytes of a
  term and extends the tables of the evaluation environment.  The code of a function does not
  stand where the function is made: it goes to the byte code of the environment, under an
  instruction that makes the function once, and a CREATE-CLOSURE stays in its place.

  Jumps are relative and as short as they can be, so code is made from its end.

  The I-codes for dynamic and environ variables, traps and escapers are left out, and I-VAL-SET
  and I-FINISH, which the evaluator does not make.
-/
import Idio.Vm.Run
import Mathlib.Data.List.Basic

set_option autoImplicit false

namespace Idio.Codegen

open Idio.Machine

/-! ## Intermediate code -/

/-- A source expression, as far as the code generator looks at it: whether it is a pair, and the
file and the line that its properties give. -/
structure Src (O : Type) where
  pair : Bool
  lexobj : Option (VmValue O × Nat)
  deriving DecidableEq, Repr

/-- What I-FIX-CLOSURE and I-NARY-CLOSURE say of a function beside its body. -/
structure Abstraction (O : Type) where
  name : VmValue O
  arity : Nat
  formals : VmValue O
  docstr : VmValue O
  src : Src O
  vi : Nat
  deriving DecidableEq, Repr

mutual

/-- Intermediate code. -/
inductive ICode (O : Type) where
  | shallowArgumentRef (j : Nat)
  | deepArgumentRef (i j : Nat)
  | shallowArgumentSet (j : Nat) (m1 : ICode O)
  | deepArgumentSet (i j : Nat) (m1 : ICode O)
  | symbolRef (r : SymbolRef O)
  | symbolSet (e : Option (Src O)) (a : SymbolSet) (m1 : ICode O)
  | constantRef (c : VmValue O)
  | alternative (src : Src O) (m1 m2 m3 : ICode O)
  | sequence (m1 mp : ICode O)
  | trFixLet (ms : Arguments O) (mp : ICode O) (formals : VmValue O) (src : Src O)
  | fixLet (ms : Arguments O) (mp : ICode O) (formals : VmValue O) (src : Src O)
  /-- with the length of the list of formals -/
  | local_ (e : Src O) (i : Nat) (m1 mp : ICode O) (formals : VmValue O) (n : Nat)
  | primcall0 (e : Src O) (pd : Nat)
  | primcall1 (e : Src O) (m1 : ICode O) (pd : Nat)
  | primcall2 (e : Src O) (m1 m2 : ICode O) (pd : Nat)
  | trRegularCall (e : Src O) (m1 : ICode O) (ms : Arguments O)
  | regularCall (e : Src O) (m1 : ICode O) (ms : Arguments O)
  | closure (nary : Bool) (mp : ICode O) (a : Abstraction O)
  | and_ (tailp : Bool) (m1 : ICode O) (mt : ICodes O)
  | or_ (tailp : Bool) (m1 : ICode O) (mt : ICodes O)
  | begin_ (tailp : Bool) (m1 : ICode O) (mt : ICodes O)
  | not (tailp : Bool) (m1 : ICode O)
  | return_
  | pushAbort (m1 : ICode O)
  | popAbort
  | nop
  /-- a list of intermediate code -/
  | list (m1 : ICode O) (mt : ICodes O)

/-- Some intermediate code in a list. -/
inductive ICodes (O : Type) where
  | nil
  | cons (m : ICode O) (mt : ICodes O)

/-- The intermediate code that leaves a frame of arguments in VAL. -/
inductive Arguments (O : Type) where
  | allocateFrame (arity : Nat)
  | allocateDottedFrame (arity : Nat)
  | reuseFrame (arity : Nat)
  | storeArgument (m1 : ICode O) (ms : Arguments O) (rank : Nat)
  | listArgument (m1 : ICode O) (ms : Arguments O) (arity : Nat)

end

namespace ICode

variable {O : Type}

/-- `IDIO_I_SYM_REF` -/
abbrev symRef (si : Nat) : ICode O := .symbolRef (.symRef si)

/-- `IDIO_I_FUNCTION_SYM_REF` -/
abbrev functionSymRef (si : Nat) : ICode O := .symbolRef (.functionSymRef si)

/-- `IDIO_I_COMPUTED_SYM_REF` -/
abbrev computedSymRef (si : Nat) : ICode O := .symbolRef (.computedSymRef si)

/-- `IDIO_I_PREDEFINED` -/
abbrev predefined (vi : Nat) : ICode O := .symbolRef (.predefined vi)

/-- `IDIO_I_SYM_DEF` -/
abbrev symDef (kind : VmValue O) (si : Nat) : ICode O := .symbolRef (.symDef si kind)

/-- `IDIO_I_SYM_SET` -/
abbrev symSet (e : Src O) (si : Nat) (m1 : ICode O) : ICode O := .symbolSet (some e) (.symSet si) m1

/-- `IDIO_I_COMPUTED_SYM_SET` -/
abbrev computedSymSet (si : Nat) (m1 : ICode O) : ICode O := .symbolSet none (.computedSymSet si) m1

/-- `IDIO_I_COMPUTED_SYM_DEF` -/
abbrev computedSymDef (si : Nat) (m1 : ICode O) : ICode O := .symbolSet none (.computedSymDef si) m1

/-- `IDIO_I_EXPANDER` -/
abbrev expander (si : Nat) (m1 : ICode O) : ICode O := .symbolSet none (.expander si) m1

/-- `IDIO_I_INFIX_OPERATOR` -/
abbrev infixOperator (oi pri : Nat) (m1 : ICode O) : ICode O :=
  .symbolSet none (.infixOperator oi pri) m1

/-- `IDIO_I_POSTFIX_OPERATOR` -/
abbrev postfixOperator (oi pri : Nat) (m1 : ICode O) : ICode O :=
  .symbolSet none (.postfixOperator oi pri) m1

/-- `IDIO_I_FIX_CLOSURE` -/
abbrev fixClosure (mp : ICode O) (a : Abstraction O) : ICode O := .closure false mp a

/-- `IDIO_I_NARY_CLOSURE` -/
abbrev naryClosure (mp : ICode O) (a : Abstraction O) : ICode O := .closure true mp a

end ICode

/-- A function: whether it takes a list of further arguments, how many others, and its body. -/
structure Lambda (O : Type) where
  nary : Bool
  arity : Nat
  body : ICode O

/-- A function in byte code: its number in the table of values, and where its code is. -/
structure Function (O : Type) where
  vi : Nat
  pc : Nat
  lambda : Lambda O

/-- The parts of an evaluation environment that the code generator extends. -/
structure Eenv (O : Type) where
  /-- `IDIO_EENV_ST_CS` -/
  cs : List (VmValue O)
  /-- `IDIO_EENV_ST_SES` -/
  ses : List (Src O)
  /-- `IDIO_EENV_ST_SPS`: the constant that a file name is, and a line -/
  sps : List (Option (Nat × Nat))
  /-- `IDIO_EENV_ST_BYTE_CODE` -/
  byteCode : Ia
  /-- `IDIO_EENV_ST_PCS` -/
  pcs : List Nat
  /-- the functions in the byte code: no field of the source, but a record of what it has written -/
  functions : List (Function O)

/-! ## Constants and source expressions -/

section

variable {O : Type} [DecidableEq O]

/-- `idio_codegen_constants_lookup`, in a table whose keys are compared by `eq?` -/
def constantsLookup (e : Eenv O) (v : VmValue O) : Option Nat := e.cs.findIdx? (· = v)

/-- `idio_codegen_extend_constants` -/
def extendConstants (e : Eenv O) (v : VmValue O) : Nat × Eenv O :=
  (e.cs.length, { e with cs := e.cs ++ [v] })

/-- `idio_codegen_constants_lookup_or_extend` -/
def constantsLookupOrExtend (e : Eenv O) (v : VmValue O) : Nat × Eenv O :=
  match constantsLookup e v with
  | some ci => (ci, e)
  | none => extendConstants e v

/-- `idio_codegen_extend_src_exprs` -/
def extendSrcExprs (e : Eenv O) (src : Src O) : Nat × Eenv O :=
  let sci := e.ses.length
  let e := { e with ses := e.ses ++ [src] }
  match src.pair, src.lexobj with
  | true, some (fn, line) =>
      let (ci, e) := constantsLookupOrExtend e fn
      (sci, { e with sps := e.sps ++ [some (ci, line)] })
  | _, _ => (sci, { e with sps := e.sps ++ [none] })

/-- `IDIO_CODEGEN_SRC_EXPR` -/
def codegenSrcExpr (e : Eenv O) (src : Src O) : Ia × Eenv O :=
  if src.pair then
    let (sei, e) := extendSrcExprs e src
    (ins .srcExpr [.ofNat sei], e)
  else ([], e)

/-! ## Instructions -/

/-- A jump over some bytes. -/
def jump (short long : Opcode) (n : Nat) : Ia :=
  if n ≤ 240 then ins short [.ofNat n] else ins long [.ofNat n]

/-- I-SHALLOW-ARGUMENT-REF -/
def shallowRef : Nat → Ia
  | 0 => ins .shallowArgumentRef0 []
  | 1 => ins .shallowArgumentRef1 []
  | 2 => ins .shallowArgumentRef2 []
  | 3 => ins .shallowArgumentRef3 []
  | j => ins .shallowArgumentRef [.ofNat j]

/-- I-SHALLOW-ARGUMENT-SET, after its code. -/
def shallowSet : Nat → Ia
  | 0 => ins .shallowArgumentSet0 []
  | 1 => ins .shallowArgumentSet1 []
  | 2 => ins .shallowArgumentSet2 []
  | 3 => ins .shallowArgumentSet3 []
  | j => ins .shallowArgumentSet [.ofNat j]

/-- I-STORE-ARGUMENT, after its code. -/
def popFrame : Nat → Ia
  | 0 => ins .popFrame0 []
  | 1 => ins .popFrame1 []
  | 2 => ins .popFrame2 []
  | 3 => ins .popFrame3 []
  | rank => ins .popFrame [.ofNat rank]

/-- I-ALLOCATE-FRAME -/
def allocateFrame : Nat → Ia
  | 0 => ins .allocateFrame1 []
  | 1 => ins .allocateFrame2 []
  | 2 => ins .allocateFrame3 []
  | 3 => ins .allocateFrame4 []
  | 4 => ins .allocateFrame5 []
  | arity => ins .allocateFrame [.ofNat (arity + 1)]

/-- I-SYM-REF and the other references. -/
def symbolRef (e : Eenv O) : SymbolRef O → Ia × Eenv O
  | .symRef si => (ins .symRef [.ofNat si], e)
  | .functionSymRef si => (ins .functionSymRef [.ofNat si], e)
  | .computedSymRef si => (ins .computedSymRef [.ofNat si], e)
  | .predefined vi => (ins .predefined [.ofNat vi], e)
  | .symDef si kind =>
      let (kci, e) := constantsLookupOrExtend e kind
      (ins .symDef [.ofNat si, .ofNat kci], e)

/-- I-SYM-SET and the other assignments, after their code. -/
def symbolSet : SymbolSet → Ia
  | .symSet si => ins .symSet [.ofNat si]
  | .computedSymSet si => ins .computedSymSet [.ofNat si]
  | .computedSymDef si => ins .computedSymDef [.ofNat si]
  | .expander si => ins .expander [.ofNat si]
  | .infixOperator oi pri => ins .infixOperator [.ofNat oi, .ofNat pri]
  | .postfixOperator oi pri => ins .postfixOperator [.ofNat oi, .ofNat pri]

/-- I-CONSTANT -/
def constantRef (e : Eenv O) : VmValue O → Ia × Eenv O
  | .fixnum v =>
      (if v = 0 then ins .constant0 []
      else if v = 1 then ins .constant1 []
      else if v = 2 then ins .constant2 []
      else if v = 3 then ins .constant3 []
      else if v = 4 then ins .constant4 []
      else if 0 ≤ v then ins .fixnum [.ofNat v.toNat]
      else ins .negFixnum [.ofNat (-v).toNat], e)
  | .constant v =>
      (if v = 4 then ins .predefined0 []
      else if v = 5 then ins .predefined1 []
      else if v = 0 then ins .predefined2 []
      else if 0 ≤ v then ins .constant [.ofNat v.toNat]
      else ins .negConstant [.ofNat (-v).toNat], e)
  | .unicode v => (ins .unicode [.ofNat v], e)
  | c =>
      let (ci, e) := constantsLookupOrExtend e c
      (ins .constantRef [.ofNat ci], e)

/-- Code with commands in it that may fail. -/
def suppressed (ia : Ia) : Ia := ins .suppressRcse [] ++ ia ++ ins .popRcse []

/-- The end of an AND or OR, with a jump to the end before each clause. -/
def chain (short long : Opcode) : List Ia → Ia
  | [] => []
  | iac :: iacs =>
      let iar := chain short long iacs
      jump short long (iar.length + iac.length) ++ iac ++ iar

/-- The check of the number of arguments, and the list of further ones. -/
def arityCode (nary : Bool) (arity : Nat) : Ia :=
  if nary then ins .arityGep [.ofNat (arity + 1)] ++ ins .packFrame [.ofNat arity]
  else match arity + 1 with
    | 1 => ins .arity1p []
    | 2 => ins .arity2p []
    | 3 => ins .arity3p []
    | 4 => ins .arity4p []
    | arityp1 => ins .arityEqp [.ofNat arityp1]

/-- The code of a function. -/
def functionCode (nary : Bool) (arity fci sei : Nat) (ia : Ia) : Ia :=
  arityCode nary arity ++ ins .linkFrame [.ofNat fci, .ofNat sei] ++ ia ++ ins .return_ []

/-- The instructions before the code of a function: to make the function, and to jump over it. -/
def functionHead (tf : Ia) (nci fci dsci sei : Nat) : Ia :=
  let goto := jump .shortGoto .longGoto tf.length
  ins .createFunction [.ofNat goto.length, .ofNat tf.length, .ofNat nci, .ofNat fci,
    .ofNat dsci, .ofNat sei] ++ goto

/-- The function of some code, and a value for it. -/
def createFunction (tf : Ia) (nci fci dsci sei vi : Nat) (e : Eenv O) (lambda : Lambda O) :
    Eenv O :=
  let fn := functionHead tf nci fci dsci sei
  { e with
    byteCode := e.byteCode ++ (fn ++ (tf ++ ins .valSet [.ofNat vi]))
    functions := e.functions ++ [⟨vi, e.byteCode.length + fn.length, lambda⟩] }

/-- The code of a clause of an AND or OR, with the clauses after it. -/
def clause (tailp : Bool) (mt : ICodes O) (ia : Ia) : Ia :=
  match mt, tailp with
  | .nil, true => ia
  | _, _ => suppressed ia

/-! ## Compiling -/

mutual

/-- `idio_codegen_compile` -/
def compile : ICode O → Eenv O → Ia × Eenv O
  | .shallowArgumentRef j, e => (shallowRef j, e)
  | .deepArgumentRef i j, e => (ins .deepArgumentRef [.ofNat i, .ofNat j], e)
  | .shallowArgumentSet j m1, e =>
      let (ia, e) := compile m1 e
      (ia ++ shallowSet j, e)
  | .deepArgumentSet i j m1, e =>
      let (ia, e) := compile m1 e
      (ia ++ ins .deepArgumentSet [.ofNat i, .ofNat j], e)
  | .symbolRef r, e => symbolRef e r
  | .symbolSet src a m1, e =>
      let (ia, e) := compile m1 e
      let (iae, e) := match src with
        | some src => codegenSrcExpr e src
        | none => ([], e)
      (ia ++ iae ++ symbolSet a, e)
  | .constantRef c, e => constantRef e c
  | .alternative src m1 m2 m3, e =>
      let (iae, e) := codegenSrcExpr e src
      let (ia, e) := compile m1 e
      let (ia2, e) := compile m2 e
      let (ia3, e) := compile m3 e
      let g7 := jump .shortGoto .longGoto ia3.length
      let jf6 := jump .shortJumpFalse .longJumpFalse (ia2.length + g7.length)
      (iae ++ suppressed ia ++ jf6 ++ ia2 ++ g7 ++ ia3, e)
  | .sequence m1 mp, e =>
      let (ia1, e) := compile m1 e
      let (iap, e) := compile mp e
      (ia1 ++ iap, e)
  | .trFixLet ms mp formals src, e =>
      let (fci, e) := constantsLookupOrExtend e formals
      let (sei, e) := extendSrcExprs e src
      let (ias, e) := compileArguments ms e
      let (iap, e) := compile mp e
      (ias ++ ins .linkFrame [.ofNat fci, .ofNat sei] ++ iap, e)
  | .fixLet ms mp formals src, e =>
      let (fci, e) := constantsLookupOrExtend e formals
      let (sei, e) := extendSrcExprs e src
      let (ias, e) := compileArguments ms e
      let (iap, e) := compile mp e
      (ias ++ ins .linkFrame [.ofNat fci, .ofNat sei] ++ iap ++ ins .unlinkFrame [], e)
  | .local_ src i m1 mp formals n, e =>
      let (fci, e) := constantsLookupOrExtend e formals
      let (ia1, e) := compile m1 e
      let (iae, e) := codegenSrcExpr e src
      let (iap, e) := compile mp e
      (ia1 ++ iae ++ ins .extendFrame [.ofNat n, .ofNat fci] ++
        ins .shallowArgumentSet [.ofNat i] ++ iap, e)
  | .primcall0 src pd, e =>
      let (iae, e) := codegenSrcExpr e src
      (iae ++ ins .primcall0 [.ofNat pd], e)
  | .primcall1 src m1 pd, e =>
      let (ia1, e) := compile m1 e
      let (iae, e) := codegenSrcExpr e src
      (ia1 ++ iae ++ ins .primcall1 [.ofNat pd], e)
  | .primcall2 src m1 m2 pd, e =>
      let (ia1, e) := compile m1 e
      let (ia2, e) := compile m2 e
      let (iae, e) := codegenSrcExpr e src
      (ia1 ++ ins .pushValue [] ++ ia2 ++ ins .popReg1 [] ++ iae ++ ins .primcall2 [.ofNat pd], e)
  | .trRegularCall src m1 ms, e =>
      let (ia1, e) := compile m1 e
      let (ias, e) := compileArguments ms e
      let (iae, e) := codegenSrcExpr e src
      (ia1 ++ ins .pushValue [] ++ ias ++ iae ++ ins .popFunction [] ++ ins .functionGoto [], e)
  | .regularCall src m1 ms, e =>
      let (ia1, e) := compile m1 e
      let (ias, e) := compileArguments ms e
      let (iae, e) := codegenSrcExpr e src
      (ia1 ++ ins .pushValue [] ++ ias ++ iae ++ ins .popFunction [] ++ ins .preserveState [] ++
        ins .functionInvoke [] ++ ins .restoreState [], e)
  | .closure nary mp a, e =>
      let (nci, e) := constantsLookupOrExtend e a.name
      let (fci, e) := constantsLookupOrExtend e a.formals
      let (dsci, e) := constantsLookupOrExtend e a.docstr
      let (sei, e) := extendSrcExprs e a.src
      let (ia, e) := compile mp e
      let tf := functionCode nary a.arity fci sei ia
      (ins .createClosure [.ofNat a.vi],
        createFunction tf nci fci dsci sei a.vi e ⟨nary, a.arity, mp⟩)
  | .and_ tailp m1 mt, e =>
      let (ia1, e) := compile m1 e
      let (iac, e) := compileClauses tailp mt e
      (clause tailp mt ia1 ++ chain .shortJumpFalse .longJumpFalse iac, e)
  | .or_ tailp m1 mt, e =>
      let (ia1, e) := compile m1 e
      let (iac, e) := compileClauses tailp mt e
      (clause tailp mt ia1 ++ chain .shortJumpTrue .longJumpTrue iac, e)
  | .begin_ _ m1 mt, e =>
      let (ia1, e) := compile m1 e
      let (iat, e) := compileList mt e
      (ia1 ++ iat, e)
  | .not tailp m1, e =>
      let (ia1, e) := compile m1 e
      ((if tailp then ia1 else suppressed ia1) ++ ins .not [], e)
  | .return_, e => (ins .return_ [], e)
  | .pushAbort m1, e =>
      let (ia1, e) := compile m1 e
      (ins .pushAbort [.ofNat ia1.length] ++ ia1, e)
  | .popAbort, e => (ins .popAbort [], e)
  | .nop, e => (ins .nop [], e)
  | .list m1 mt, e =>
      let (ia1, e) := compile m1 e
      let (iat, e) := compileList mt e
      (ia1 ++ iat, e)

/-- The code of a list, one after another. -/
def compileList : ICodes O → Eenv O → Ia × Eenv O
  | .nil, e => ([], e)
  | .cons m mt, e =>
      let (ia, e) := compile m e
      let (iat, e) := compileList mt e
      (ia ++ iat, e)

/-- The code of each clause of an AND or OR but the first. -/
def compileClauses (tailp : Bool) : ICodes O → Eenv O → List Ia × Eenv O
  | .nil, e => ([], e)
  | .cons m mt, e =>
      let (ia, e) := compile m e
      let (iac, e) := compileClauses tailp mt e
      (clause tailp mt ia :: iac, e)

/-- The code of the arguments of a call. -/
def compileArguments : Arguments O → Eenv O → Ia × Eenv O
  | .allocateFrame arity, e => (allocateFrame arity, e)
  | .allocateDottedFrame arity, e => (ins .allocateDottedFrame [.ofNat (arity + 1)], e)
  | .reuseFrame arity, e => (ins .reuseFrame [.ofNat (arity + 1)], e)
  | .storeArgument m1 ms rank, e =>
      let (ia1, e) := compile m1 e
      let (ias, e) := compileArguments ms e
      (ia1 ++ ins .pushValue [] ++ ias ++ popFrame rank, e)
  | .listArgument m1 ms arity, e =>
      let (ia1, e) := compile m1 e
      let (ias, e) := compileArguments ms e
      (ia1 ++ ins .pushValue [] ++ ias ++ ins .popListFrame [.ofNat arity], e)

end

/-- `idio_codegen` -/
def codegen (m : ICode O) (e : Eenv O) : Nat × Eenv O :=
  let pc0 := e.byteCode.length
  let (ia, e) := compile m e
  let ia := if ia.length = 0 then ins .nop [] else ia
  (pc0, { e with byteCode := e.byteCode ++ ia, pcs := pc0 :: e.pcs })

end

end Idio.Codegen
