/-
  Codegen/Program.lean --- whole expressions.

  `idio_evaluate` puts the intermediate code of an expression between PUSH-ABORT and POP-ABORT,
  with a RETURN after it.  Compiled, it is preceded by the functions in it: each is made and put
  in the table of values, and then the expression is done.  So an expression is run from where
  the byte code ended before it was compiled.
-/
import Idio.Codegen.Correct

set_option autoImplicit false

namespace Idio.Codegen

open Idio.Machine Simulation

/-! ## What compiling writes -/

section Written

variable {O : Type} [DecidableEq O] {e e' : Eenv O}

/-- The code of a function is in the byte code. -/
def Eenv.Has (e : Eenv O) (f : Function O) : Prop :=
  ∃ e₀ fci sei, Located e.byteCode f.pc
      (functionCode f.lambda.nary f.lambda.arity fci sei (compile f.lambda.body e₀).1) ∧
    (compile f.lambda.body e₀).2.Extends e ∧ Fits true f.lambda.body ∧
    f.lambda.arity + 1 < 2 ^ 64 ∧ 0 < f.vi ∧ f.vi < 65536

/-- The code of each function is in the byte code. -/
def Eenv.Complete (e : Eenv O) : Prop := ∀ f ∈ e.functions, e.Has f

theorem Located.of_prefix {bc bc' bs : Ia} {pc : Nat} (h : Located bc pc bs) (hbc : bc <+: bc') :
    Located bc' pc bs :=
  h.trans (hbc.drop pc)

theorem Eenv.Has.of_extends {f : Function O} (h : e.Has f) (he : e.Extends e') : e'.Has f := by
  obtain ⟨e₀, fci, sei, hloc, hext, hrest⟩ := h
  exact ⟨e₀, fci, sei, Located.of_prefix hloc he.byteCode, hext.trans he, hrest⟩

theorem Eenv.Complete.of_extends (h : e.Complete) (he : e.Extends e')
    (hf : e'.functions = e.functions) : e'.Complete := by
  intro f hmem
  rw [hf] at hmem
  exact (h f hmem).of_extends he

theorem constantsLookupOrExtend_functions (e : Eenv O) (v : VmValue O) :
    (constantsLookupOrExtend e v).2.functions = e.functions ∧
      (constantsLookupOrExtend e v).2.byteCode = e.byteCode := by
  unfold constantsLookupOrExtend
  split <;> exact ⟨rfl, rfl⟩

theorem extendSrcExprs_functions (e : Eenv O) (src : Src O) :
    (extendSrcExprs e src).2.functions = e.functions ∧
      (extendSrcExprs e src).2.byteCode = e.byteCode := by
  unfold extendSrcExprs
  split
  · exact constantsLookupOrExtend_functions _ _
  · exact ⟨rfl, rfl⟩

/-- Compiling keeps the code of each function in the byte code. -/
theorem complete_additive : Additive fun e e' : Eenv O => e.Complete → e'.Complete where
  refl := fun _ h => h
  trans := fun h h' hc => h' (h hc)
  constant := fun e v h => h.of_extends (constantsLookupOrExtend_extends e v)
    (constantsLookupOrExtend_functions e v).1
  srcExpr := fun e src h => h.of_extends (extendSrcExprs_extends e src)
    (extendSrcExprs_functions e src).1
  function := by
    intro e nary arity nci fci dsci sei vi mp hfits harity hpos hlt h f hf
    have hext := createFunction_extends (functionCode nary arity fci sei (compile mp e).1) nci fci
      dsci sei vi (compile mp e).2 ⟨nary, arity, mp⟩
    rcases List.mem_append.mp hf with hf | hf
    · exact (h f hf).of_extends hext
    · obtain rfl := List.mem_singleton.mp hf
      refine ⟨e, fci, sei, ?_, hext, hfits, harity, hpos, hlt⟩
      have hloc : Located (createFunction (functionCode nary arity fci sei (compile mp e).1) nci
        fci dsci sei vi (compile mp e).2 ⟨nary, arity, mp⟩).byteCode 0 (_ ++ (_ ++ (_ ++ _))) :=
        List.prefix_rfl
      have hat := hloc.right.right.left
      rw [Nat.zero_add] at hat
      exact hat

/-- The code that makes some functions, from a place on. -/
inductive Loads : Nat → List (Function O) → Ia → Prop
  | nil {pc : Nat} : Loads pc [] []
  | cons {pc vi : Nat} {lambda : Lambda O} {fs : List (Function O)} {bs : Ia}
      (tf : Ia) (nci fci dsci sei : Nat) :
      Loads (pc + (functionHead tf nci fci dsci sei ++ (tf ++ ins .valSet [.ofNat vi])).length)
        fs bs →
      Loads pc (⟨vi, pc + (functionHead tf nci fci dsci sei).length, lambda⟩ :: fs)
        (functionHead tf nci fci dsci sei ++ (tf ++ ins .valSet [.ofNat vi]) ++ bs)

omit [DecidableEq O] in
theorem Loads.append {pc : Nat} {fs fs' : List (Function O)} {bs bs' : Ia} (h : Loads pc fs bs)
    (h' : Loads (pc + bs.length) fs' bs') : Loads pc (fs ++ fs') (bs ++ bs') := by
  induction h with
  | nil => exact h'
  | cons tf nci fci dsci sei _ ih =>
    rw [List.length_append, ← Nat.add_assoc] at h'
    rw [List.append_assoc]
    exact .cons tf nci fci dsci sei (ih h')

/-- The functions that are new in an environment are those that its new byte code makes. -/
def Eenv.Grows (e e' : Eenv O) : Prop :=
  ∃ fs bs, e'.functions = e.functions ++ fs ∧ e'.byteCode = e.byteCode ++ bs ∧
    Loads e.byteCode.length fs bs

omit [DecidableEq O] in
theorem Eenv.Grows.of_same (hf : e'.functions = e.functions) (hb : e'.byteCode = e.byteCode) :
    e.Grows e' :=
  ⟨[], [], by rw [hf, List.append_nil], by rw [hb, List.append_nil], .nil⟩

theorem grows_additive : Additive (Eenv.Grows (O := O)) where
  refl := fun e => .of_same rfl rfl
  trans := by
    intro e e' e'' h h'
    obtain ⟨fs, bs, hf, hb, hl⟩ := h
    obtain ⟨fs', bs', hf', hb', hl'⟩ := h'
    rw [hb, List.length_append] at hl'
    refine ⟨fs ++ fs', bs ++ bs', ?_, ?_, hl.append hl'⟩
    · rw [hf', hf, List.append_assoc]
    · rw [hb', hb, List.append_assoc]
  constant := fun e v => .of_same (constantsLookupOrExtend_functions e v).1
    (constantsLookupOrExtend_functions e v).2
  srcExpr := fun e src => .of_same (extendSrcExprs_functions e src).1
    (extendSrcExprs_functions e src).2
  function := by
    intro e nary arity nci fci dsci sei vi mp _ _ _ _
    have hload : Loads (compile mp e).2.byteCode.length [⟨vi, _, ⟨nary, arity, mp⟩⟩] _ :=
      .cons (functionCode nary arity fci sei (compile mp e).1) nci fci dsci sei .nil
    rw [List.append_nil] at hload
    exact ⟨_, _, rfl, rfl, hload⟩

/-- The functions that compiling a term adds. -/
def added (m : ICode O) (e : Eenv O) : List (Function O) :=
  (compile m e).2.functions.drop e.functions.length

theorem compile_loads {tail : Bool} {m : ICode O} (hf : Fits tail m) (e : Eenv O) :
    ∃ bs, (compile m e).2.byteCode = e.byteCode ++ bs ∧
      Loads e.byteCode.length (added m e) bs := by
  obtain ⟨fs, bs, hfs, hbs, hl⟩ := compile_additive grows_additive m hf e
  refine ⟨bs, hbs, ?_⟩
  unfold added
  rw [hfs, List.drop_left]
  exact hl

end Written

/-! ## Making functions -/

section Loading

variable {O S : Type} [DecidableEq O] {p : Program O} {host : Host O S} {k : Place O}
  {stack : List (VmValue O)} {pc : Nat} {w : World O S} {s : State O S} {f : Function O}
  {fs : List (Function O)}

/-- The world with some functions made in a place. -/
def World.load (w : World O S) (k : Place O) (fs : List (Function O)) : World O S :=
  fs.foldl (fun w f => w.create ⟨k.xi, f.lambda, k.frame, k.env⟩) w

/-- The machine where some functions are still to be made. -/
structure Loading (p : Program O) (k : Place O) (fs : List (Function O)) (stack : List (VmValue O))
    (pc : Nat) (w : World O S) (s : State O S) : Prop where
  xi : s.xi = k.xi
  env : s.env = k.env
  module : k.env.isModule = true
  frame : s.frame = k.frame
  stack : s.stack = stack
  pc : s.pc = pc
  mem : s.mem = w.mem
  closures : List.Forall₂ (ClosureAt p) w.closures s.closures
  made : ∀ xi, ∀ f ∈ p.functions xi, Made p xi f s ∨ (xi = k.xi ∧ f ∈ fs)
  /-- their numbers are new -/
  fresh : ∀ f ∈ fs, s.vt k.xi f.vi = 0
  nodup : (fs.map Function.vi).Nodup
  values : s.values ≠ []

theorem Loading.at (h : Loading p k [] stack pc w s) : At p k stack pc w s where
  xi := h.xi
  env := h.env
  module := h.module
  frame := h.frame
  stack := h.stack
  pc := h.pc
  mem := h.mem
  closures := h.closures
  linked := fun xi f hf => (h.made xi f hf).resolve_right fun hno => List.not_mem_nil hno.2

omit [DecidableEq O] in
/-- A jump that is always done. -/
theorem run1_goto {m : Nat} (hloc : Located (p.img.byteCode s.xi) s.pc (jump .shortGoto .longGoto m))
    (hm : m < 2 ^ 64) :
    run1 p.img host s = .ok { s with pc := s.pc + (jump .shortGoto .longGoto m).length + m } := by
  have hn : (UInt64.ofNat m).toNat = m := toNat_ofNat hm
  unfold jump at hloc ⊢
  split at hloc
  · next hle =>
    have ht : Opcode.shortGoto.Takes [.ofNat m] := by
      refine .cons ?_ .nil
      show (UInt64.ofNat m).toNat < 256
      omega
    rw [run1_eq host hloc ht, if_pos hle]
    show Except.ok { s with pc := _ + (UInt64.ofNat m).toNat } = _
    rw [hn]
  · next hgt =>
    rw [run1_eq host hloc (takes_varuint rfl), if_neg hgt]
    show Except.ok { s with pc := _ + (UInt64.ofNat m).toNat } = _
    rw [hn]

omit [DecidableEq O] in
/-- A value for a number that has none. -/
theorem run1_valSet {vi : Nat} (hloc : Located (p.img.byteCode s.xi) s.pc (ins .valSet [.ofNat vi]))
    (hpos : 0 < vi) (hlt : vi < 65536) (hxi : s.xi ≠ 0) (hvt : s.vt s.xi vi = 0) :
    run1 p.img host s = .ok { s with
      pc := s.pc + (ins .valSet [.ofNat vi]).length
      vt := fun x v => if x = s.xi ∧ v = vi then s.values.length else s.vt x v
      values := s.values ++ [s.mem.val] } := by
  rw [run1_eq host hloc (takes_ref rfl hlt)]
  show State.valSet _ (UInt64.ofNat vi).toNat = _
  rw [toNat_ofNat (by omega)]
  unfold State.valSet
  rw [if_neg (Nat.ne_of_gt hpos), if_neg hxi, if_pos hvt]

omit [DecidableEq O] in
/-- The instructions before the code of a function. -/
theorem run1_functionHead {tf : Ia} {nci fci dsci sei : Nat}
    (hloc : Located (p.img.byteCode s.xi) s.pc (functionHead tf nci fci dsci sei))
    (hlen : (functionHead tf nci fci dsci sei).length < 2 ^ 64) (htf : tf.length < 2 ^ 64) :
    Reaches (run1 p.img host) (fun s' => s' = { s with
      pc := s.pc + (functionHead tf nci fci dsci sei).length + tf.length
      mem := { s.mem with val := .closure s.closures.length }
      closures := s.closures ++
        [⟨s.xi, s.pc + (functionHead tf nci fci dsci sei).length, s.frame, s.env⟩] }) s := by
  unfold functionHead at hloc hlen ⊢
  simp only [List.length_append, ← Nat.add_assoc] at hlen ⊢
  have hgoto := hloc.right
  have hn : (UInt64.ofNat (jump .shortGoto .longGoto tf.length).length).toNat =
      (jump .shortGoto .longGoto tf.length).length := toNat_ofNat (by omega)
  have hcreate := run1_eq host hloc.left
    (.cons trivial (.cons trivial (.cons trivial (.cons trivial (.cons trivial (.cons trivial .nil))))))
  refine .next (hcreate.trans rfl) ?_
  refine .next ((run1_goto hgoto htf).trans rfl) (.here ?_)
  unfold State.createFunction State.setVal operand
  simp only [List.getD_cons_zero, hn]

omit [DecidableEq O] in
/-- A function found is not at a number that is new. -/
theorem Made.keeps {xi vi : Nat} {g : Function O} {values : List (VmValue O)}
    {closures : List (ClosureObject Nat O)} {s' : State O S} (h : Made p xi g s)
    (hfresh : s.vt s.xi vi = 0)
    (hvt : s'.vt = fun x v => if x = s.xi ∧ v = vi then s.values.length else s.vt x v)
    (hvalues : s'.values = s.values ++ values) (hclosures : s'.closures = s.closures ++ closures) :
    Made p xi g s' := by
  obtain ⟨cl, hcl, hspec⟩ := h
  refine ⟨cl, functionAt_append hcl ?_ hvalues hclosures, hspec⟩
  rw [hvt]
  refine if_neg fun hsame => ?_
  unfold State.functionAt at hcl
  rw [hsame.1, hsame.2, if_pos (.inr (.inr hfresh))] at hcl
  cases hcl

omit [DecidableEq O] in
/-- The function at a number that was new. -/
theorem Made.new {xi : Nat} {s' : State O S} (hs : s.xi = xi) (hxi : xi ≠ 0) (hpos : 0 < f.vi)
    (hne : s.values ≠ []) (hhome : p.home xi f.vi = s.env)
    (hvt : s'.vt = fun x v => if x = s.xi ∧ v = f.vi then s.values.length else s.vt x v)
    (hvalues : s'.values = s.values ++ [.closure s.closures.length])
    (hclosures : s'.closures = s.closures ++ [⟨s.xi, f.pc, s.frame, s.env⟩]) :
    Made p xi f s' := by
  subst hs
  have hgvi : s'.vt s.xi f.vi = s.values.length := by
    rw [hvt]
    exact if_pos ⟨rfl, rfl⟩
  have hlen : s.values.length ≠ 0 := (List.length_pos_iff.mpr hne).ne'
  have hvalue : s'.values[s.values.length]? = some (.closure s.closures.length) := by
    rw [hvalues, List.getElem?_concat_length]
  have hcl : s'.closures[s.closures.length]? = some ⟨s.xi, f.pc, s.frame, s.env⟩ := by
    rw [hclosures, List.getElem?_concat_length]
  refine ⟨⟨s.xi, f.pc, s.frame, s.env⟩, ?_, rfl, rfl, hhome.symm⟩
  unfold State.functionAt
  rw [hgvi, if_neg (by omega)]
  simp only [hvalue, hcl]

/-- A function is made, and found from then on. -/
theorem Loading.next {tf : Ia} {nci fci dsci sei : Nat} (hs : p.Sound)
    (h : Loading p k (f :: fs) stack pc w s)
    (hloc : Located (p.img.byteCode k.xi) pc
      (functionHead tf nci fci dsci sei ++ (tf ++ ins .valSet [.ofNat f.vi])))
    (hpc : f.pc = pc + (functionHead tf nci fci dsci sei).length)
    (hxi : k.xi ≠ 0) (hf : f ∈ p.functions k.xi) (hhome : p.home k.xi f.vi = k.env)
    (hpos : 0 < f.vi) (hlt : f.vi < 65536) :
    Reaches (run1 p.img host)
      (Loading p k fs stack
        (pc + (functionHead tf nci fci dsci sei ++ (tf ++ ins .valSet [.ofNat f.vi])).length)
        (w.create ⟨k.xi, f.lambda, k.frame, k.env⟩)) s := by
  have hhead : Located (p.img.byteCode s.xi) s.pc (functionHead tf nci fci dsci sei) := by
    rw [h.xi, h.pc]
    exact hloc.left
  have hset := hloc.right.right
  rw [← h.xi, ← h.pc] at hset
  have hfresh : s.vt s.xi f.vi = 0 := h.xi ▸ h.fresh f (List.mem_cons_self)
  have hlen : w.closures.length = s.closures.length := h.closures.length_eq
  refine (run1_functionHead hhead (length_lt_of_located hs hloc.left)
    (length_lt_of_located hs hloc.right.left)).bind fun s₁ hs₁ => ?_
  subst hs₁
  refine .next (run1_valSet hset hpos hlt (h.xi ▸ hxi) hfresh) (.here ?_)
  refine ⟨h.xi, h.env, h.module, h.frame, h.stack, ?_, ?_, ?_, ?_, ?_, (List.nodup_cons.mp h.nodup).2,
    List.append_ne_nil_of_left_ne_nil h.values _⟩
  · simp only [h.pc, List.length_append, ← Nat.add_assoc]
  · show { s.mem with val := VmValue.closure s.closures.length } =
      { w.mem with val := VmValue.closure w.closures.length }
    rw [h.mem, hlen]
  · refine List.rel_append h.closures (.cons ⟨h.xi, h.frame, h.env, h.module, ?_⟩ .nil)
    show FunctionAt p k.xi (s.pc + (functionHead tf nci fci dsci sei).length) f.lambda
    rw [h.pc, ← hpc]
    exact hs.functions k.xi f hf
  · intro xi g hg
    rcases h.made xi g hg with hmade | ⟨rfl, hmem⟩
    · exact .inl (hmade.keeps hfresh rfl rfl rfl)
    · rcases List.mem_cons.mp hmem with rfl | hmem
      · refine .inl (Made.new h.xi hxi hpos h.values (hhome.trans h.env.symm) rfl rfl ?_)
        rw [hpc, ← h.pc]
      · exact .inr ⟨rfl, hmem⟩
  · intro g hg
    have hne : g.vi ≠ f.vi := fun heq =>
      (List.nodup_cons.mp h.nodup).1 (heq ▸ List.mem_map_of_mem hg)
    exact (if_neg fun hsame => hne hsame.2).trans (h.fresh g (List.mem_cons_of_mem f hg))

/-- The functions before the code of an expression are made. -/
theorem loads_do {bs : Ia} (hs : p.Sound) (hl : Loads pc fs bs)
    (hloc : Located (p.img.byteCode k.xi) pc bs) (hxi : k.xi ≠ 0)
    (hf : ∀ f ∈ fs, f ∈ p.functions k.xi ∧ p.home k.xi f.vi = k.env ∧ 0 < f.vi ∧ f.vi < 65536)
    (h : Loading p k fs stack pc w s) :
    Reaches (run1 p.img host) (At p k stack (pc + bs.length) (w.load k fs)) s := by
  induction hl generalizing w s with
  | nil => exact .here h.at
  | @cons pc vi lambda fs bs tf nci fci dsci sei _ ih =>
    obtain ⟨hmem, hhome, hpos, hlt⟩ := hf _ List.mem_cons_self
    refine (h.next hs hloc.left rfl hxi hmem hhome hpos hlt).bind fun s₁ h₁ => ?_
    rw [List.length_append, ← Nat.add_assoc]
    exact ih hloc.right (fun f hf' => hf f (List.mem_cons_of_mem _ hf')) h₁

end Loading

/-! ## Expressions -/

section Expression

variable {O S : Type} [DecidableEq O] {p : Program O} {host : Host O S} {n : Nat} {k : Place O}
  {stack : List (VmValue O)} {pc : Nat} {w : World O S} {s : State O S} {e : Eenv O} {m : ICode O}

/-- What `idio_evaluate` makes of the intermediate code of an expression. -/
def topLevel (m : ICode O) : ICode O := .list (.pushAbort m) (.cons .popAbort (.cons .return_ .nil))

/-- A place outside of any frame. -/
abbrev Place.outside (k : Place O) : Place O := { k with frame := .nil }

theorem At.pushAbort {m : Nat} (h : At p k stack pc w s)
    (hloc : Located (p.img.byteCode k.xi) pc (ins .pushAbort [.ofNat m])) :
    Reaches (run1 p.img host) (fun s' => ∃ asp krun, At p k.outside
      (.marker .abort :: krun :: asp :: stack) (pc + (ins .pushAbort [.ofNat m]).length)
      (w.withRcse .false_) s') s := by
  let s₁ : State O S := { s with pc := pc + (ins .pushAbort [.ofNat m]).length }
  let r := host.abort (UInt64.ofNat m).toNat s₁
  refine .next ((h.fetched _ hloc (takes_varuint rfl)).trans rfl) (.here ⟨r.1, r.2, ?_⟩)
  refine ⟨h.xi, h.env, h.module, rfl, ?_, rfl, ?_, h.closures, h.linked⟩
  · exact congrArg (fun st => VmValue.marker .abort :: r.2 :: r.1 :: st) h.stack
  · exact congrArg (fun mem => { mem with rcse := VmValue.false_ }) h.mem

theorem At.popAbort {krun asp : VmValue O} (h : At p k (.marker .abort :: krun :: asp :: stack) pc w s)
    (hloc : Located (p.img.byteCode k.xi) pc (ins .popAbort [])) :
    Reaches (run1 p.img host) (At p k stack (pc + 1) w) s := by
  have hexec : exec p.img host .popAbort [] { s with pc := pc + 1 } =
      .ok { s with pc := pc + 1, stack := stack } := by
    show State.popAbort _ = _
    unfold State.popAbort
    simp only [State.pop, h.stack]
    rfl
  exact h.step hloc .nil hexec
    ⟨h.xi, h.env, h.module, h.frame, rfl, rfl, h.mem, h.closures, h.linked⟩

/-- The code of an expression, from PUSH-ABORT until it has returned. -/
theorem topLevel_does (hs : p.Sound) (hf : Fits false m) (hb : Built p k.xi (compile m e).2)
    (hloc : Located (p.img.byteCode k.xi) pc (compile (topLevel m) e).1) (hr : IsReturn p stack)
    (h : At p k stack pc w s) :
    Does p host n
      (eval host p.home (call host p.home n) m k.outside (w.withRcse .false_))
      (Returned p stack) s := by
  have hpush : Located (p.img.byteCode k.xi) pc
      (ins .pushAbort [.ofNat (compile m e).1.length] ++ (compile m e).1) := hloc.left
  have hpop : Located _ _ (ins .popAbort [] ++ (ins .return_ [] ++ [])) := hloc.right
  rw [List.length_append, ← Nat.add_assoc] at hpop
  refine .after (h.pushAbort hpush.left) fun s₁ h₁ => ?_
  obtain ⟨asp, krun, h₁⟩ := h₁
  have hperform := compile_performs hs (calls_do host hs n) m (k := k.outside) hf hb
  refine (hperform _ _ _ s₁ hpush.right (fun h => by cases h) h₁).finish fun w' s₂ _ h₂ => ?_
  refine (h₂.at_end.popAbort hpop.left).bind fun s₃ h₃ => ?_
  exact h₃.return_ hr hpop.right.left

/-- An expression that has been compiled, where its code starts. -/
structure Ready (p : Program O) (e : Eenv O) (m : ICode O) (k : Place O) (stack : List (VmValue O))
    (w : World O S) (s : State O S) : Prop where
  fits : Fits false m
  code : (codegen (topLevel m) e).2.byteCode <+: p.img.byteCode k.xi
  built : Built p k.xi (codegen (topLevel m) e).2
  xi : k.xi ≠ 0
  functions : ∀ f ∈ added m e, f ∈ p.functions k.xi ∧ p.home k.xi f.vi = k.env ∧ 0 < f.vi ∧
    f.vi < 65536
  loading : Loading p k (added m e) stack (codegen (topLevel m) e).1 w s
  return_ : IsReturn p stack

/-- What the machine does with an expression. -/
theorem Ready.does (hs : p.Sound) (h : Ready p e m k stack w s) (n : Nat) :
    Does p host n
      (eval host p.home (call host p.home n) m k.outside ((w.load k (added m e)).withRcse .false_))
      (Returned p stack) s := by
  obtain ⟨bs, hbs, hl⟩ := compile_loads h.fits e
  have hcode : (codegen (topLevel m) e).2.byteCode =
      e.byteCode ++ (bs ++ (compile (topLevel m) e).1) := by
    show (compile m e).2.byteCode ++ (compile (topLevel m) e).1 = _
    rw [hbs, List.append_assoc]
  have hloc : Located (p.img.byteCode k.xi) e.byteCode.length
      (bs ++ (compile (topLevel m) e).1) := by
    have hpre : Located (p.img.byteCode k.xi) 0
        (e.byteCode ++ (bs ++ (compile (topLevel m) e).1)) := hcode ▸ h.code
    have hat := hpre.right
    rw [Nat.zero_add] at hat
    exact hat
  refine .after (loads_do hs hl hloc.left h.xi h.functions h.loading) fun s₁ h₁ => ?_
  exact topLevel_does hs h.fits (h.built.of_extends
    ⟨List.prefix_rfl, List.prefix_rfl, List.prefix_append _ _, List.prefix_rfl⟩) hloc.right
    h.return_ h₁

end Expression

/-! ## Environments -/

section Environments

variable {O S : Type} [DecidableEq O]

/-- An environment that expressions have been compiled in. -/
inductive Eenv.Compiled : Eenv O → Prop
  | start {e : Eenv O} : e.functions = [] → e.Compiled
  | codegen {e : Eenv O} {m : ICode O} :
      e.Compiled → Fits false m → (codegen (topLevel m) e).2.Compiled

theorem Eenv.Compiled.complete {e : Eenv O} (h : e.Compiled) : e.Complete := by
  induction h with
  | start hf =>
    intro _ hmem
    rw [hf] at hmem
    cases hmem
  | @codegen e m _ hfits ih =>
    have hext : (compile m e).2.Extends (Codegen.codegen (topLevel m) e).2 :=
      ⟨List.prefix_rfl, List.prefix_rfl, List.prefix_append _ _, List.prefix_rfl⟩
    exact (compile_additive complete_additive m hfits e ih).of_extends hext rfl

/-- The evaluation environments behind an image, and the modules their functions are made in. -/
structure Environments (O : Type) [DecidableEq O] where
  eenvs : List (Eenv O)
  home : Home O
  compiled : ∀ e ∈ eenvs, e.Compiled
  byteCode : ∀ e ∈ eenvs, e.byteCode.length < 2 ^ 64
  cs : ∀ e ∈ eenvs, e.cs.length < 2 ^ 64
  ses : ∀ e ∈ eenvs, e.ses.length < 2 ^ 64
  isModule : ∀ xi vi, (home xi vi).isModule = true

namespace Environments

variable (es : Environments O)

/-- The execution environment of each evaluation environment. -/
def program : Program O where
  img := es.eenvs.map fun e => ⟨e.byteCode, e.cs⟩
  functions := fun xi => match es.eenvs[xi]? with
    | some e => e.functions
    | none => []
  home := es.home

variable {es} {xi : Nat} {e : Eenv O}

theorem program_byteCode (h : es.eenvs[xi]? = some e) :
    es.program.img.byteCode xi = e.byteCode := by
  unfold Image.byteCode program
  simp only [List.getElem?_map, h, Option.map_some]

theorem program_constants (h : es.eenvs[xi]? = some e) : es.program.img.constants xi = e.cs := by
  unfold Image.constants program
  simp only [List.getElem?_map, h, Option.map_some]

theorem program_functions (h : es.eenvs[xi]? = some e) : es.program.functions xi = e.functions := by
  unfold program
  simp only [h]

/-- What is in an environment is in the program. -/
theorem built {e' : Eenv O} (h : es.eenvs[xi]? = some e) (he : e'.Extends e) :
    Built es.program xi e' where
  cs := (program_constants h).symm ▸ he.cs
  ses := Nat.lt_of_le_of_lt he.ses.length_le (es.ses e (List.mem_of_getElem? h))
  functions := fun _ hf => (program_functions h).symm ▸ he.functions.subset hf

theorem sound (es : Environments O) : es.program.Sound where
  code := by
    intro xi
    cases h : es.eenvs[xi]? with
    | some e => exact program_byteCode h ▸ es.byteCode e (List.mem_of_getElem? h)
    | none =>
      unfold Image.byteCode program
      simp only [List.getElem?_map, h, Option.map_none]
      exact Nat.two_pow_pos 64
  constants := by
    intro xi
    cases h : es.eenvs[xi]? with
    | some e => exact program_constants h ▸ es.cs e (List.mem_of_getElem? h)
    | none =>
      unfold Image.constants program
      simp only [List.getElem?_map, h, Option.map_none]
      exact Nat.two_pow_pos 64
  home := es.isModule
  functions := by
    intro xi f hf
    cases h : es.eenvs[xi]? with
    | none =>
      unfold program at hf
      simp only [h] at hf
      cases hf
    | some e =>
      rw [program_functions h] at hf
      obtain ⟨e₀, fci, sei, hloc, hext, hfits, harity, -⟩ :=
        (es.compiled e (List.mem_of_getElem? h)).complete f hf
      refine ⟨e₀, fci, sei, ?_, built h hext, hfits, harity⟩
      rw [program_byteCode h]
      exact hloc

/-- An expression just compiled is ready, if its functions are to be made. -/
theorem ready {k : Place O} {m : ICode O} {stack : List (VmValue O)} {w : World O S}
    {s : State O S} (h : es.eenvs[k.xi]? = some (codegen (topLevel m) e).2) (hf : Fits false m)
    (he : e.Compiled) (hxi : k.xi ≠ 0) (hhome : ∀ f ∈ added m e, es.home k.xi f.vi = k.env)
    (hl : Loading es.program k (added m e) stack (codegen (topLevel m) e).1 w s)
    (hr : IsReturn es.program stack) : Ready es.program e m k stack w s where
  fits := hf
  code := by
    rw [program_byteCode h]
  built := built h (.refl _)
  xi := hxi
  functions := by
    intro f hnew
    have hmem := List.mem_of_mem_drop hnew
    obtain ⟨-, -, -, -, -, -, -, hpos, hlt⟩ := (he.codegen hf).complete f hmem
    exact ⟨(program_functions h).symm ▸ hmem, hhome f hnew, hpos, hlt⟩
  loading := hl
  return_ := hr

end Environments

end Environments

end Idio.Codegen
