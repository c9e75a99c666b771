/-
  Codegen/Correct.lean --- byte code does what intermediate code means.

  The machine at the code of a term comes to the end of it with the world that `eval` makes of
  the world before; or, where the term is in tail position, it may have returned with that world.
  Where `eval` has an error the machine has the same error, and where the fuel of `eval` is not
  enough the machine goes on for as many steps.

  `Performs` says that of some code and of a function on worlds.  There is a lemma for each way
  that `compile` puts code together; the theorem is by induction on the fuel, for calls, and on
  the term.
-/
import Idio.Codegen.Stepping

set_option autoImplicit false

namespace Idio.Codegen

open Idio.Machine Simulation

/-- The machine does what a function on worlds does, in a place, by running some code. -/
def Performs {O S : Type} [DecidableEq O] (p : Program O) (host : Host O S) (n : Nat) (tail : Bool)
    (k : Place O) (ia : Ia) (f : World O S → Result (World O S)) : Prop :=
  ∀ stack pc w s, Located (p.img.byteCode k.xi) pc ia → (tail = true → IsReturn p stack) →
    At p k stack pc w s →
    Does p host n (f w) (Ends p tail k stack (pc + ia.length)) s

section

variable {O S : Type} [DecidableEq O] {p : Program O} {host : Host O S} {n : Nat} {tail : Bool}
  {k : Place O} {ia ib : Ia} {f g : World O S → Result (World O S)} {e : Eenv O}

/-! ## Single instructions -/

variable {vs : List UInt64} {o : Opcode}

/-- An instruction that only works on the memory. -/
theorem performs_memory {f : Memory O S → Result (Memory O S)} (ht : o.Takes vs)
    (hexec : ∀ s : State O S, s.xi = k.xi → s.env = k.env → s.frame = k.frame →
      exec p.img host o vs s = s.onMemory f) :
    Performs p host n tail k (ins o vs) fun w => w.onMemory f := by
  intro stack pc w s hloc _ h
  exact (h.memory hloc ht hexec).mono fun _ _ _ h' => h'.ends

theorem takes_varuint {v : UInt64} (h : o.shape = [.varuint]) : o.Takes [v] := by
  unfold Opcode.Takes
  rw [h]
  exact .cons trivial .nil

theorem takes_ref {v : Nat} (h : o.shape = [.ref]) (hv : v < 65536) :
    o.Takes [.ofNat v] := by
  unfold Opcode.Takes
  rw [h]
  refine .cons ?_ .nil
  show (UInt64.ofNat v).toNat < 65536
  rwa [toNat_ofNat (by omega)]

theorem takes_ref_varuint {v : Nat} {i : UInt64} (h : o.shape = [.ref, .varuint]) (hv : v < 65536) :
    o.Takes [.ofNat v, i] := by
  unfold Opcode.Takes
  rw [h]
  refine .cons ?_ (.cons trivial .nil)
  show (UInt64.ofNat v).toNat < 65536
  rwa [toNat_ofNat (by omega)]

variable {i : Nat}

theorem frameIndex_ofNat (h : i < 2 ^ 31) : frameIndex (.ofNat i) = i := by
  have hn : (UInt64.ofNat i).toNat = i := toNat_ofNat (by omega)
  rw [frameIndex_eq (by rwa [hn]), hn]

variable {j : Nat}

theorem performs_shallowRef (hj : j < 2 ^ 64) :
    Performs p host n tail k (shallowRef j) fun w =>
      w.onMemory fun mem => mem.withVal (frameArgs mem.frames k.frame j) := by
  rcases j with _ | _ | _ | _ | j
  iterate 4
    refine performs_memory .nil fun s _ _ hf => ?_
    rw [← hf]
    rfl
  refine performs_memory (takes_varuint rfl) fun s _ _ hf => ?_
  show (s.onMemory fun mem => mem.withVal (frameArgs mem.frames s.frame (UInt64.ofNat (j + 4)).toNat)) = _
  rw [toNat_ofNat hj, hf]

theorem performs_shallowSet (hj : j < 2 ^ 64) :
    Performs p host n tail k (shallowSet j) fun w =>
      w.onMemory fun mem => mem.withFrames (setFrameArgs mem.frames k.frame j mem.val) := by
  rcases j with _ | _ | _ | _ | j
  iterate 4
    refine performs_memory .nil fun s _ _ hf => ?_
    rw [← hf]
    rfl
  refine performs_memory (takes_varuint rfl) fun s _ _ hf => ?_
  show (s.onMemory fun mem =>
    mem.withFrames (setFrameArgs mem.frames s.frame (UInt64.ofNat (j + 4)).toNat mem.val)) = _
  rw [toNat_ofNat hj, hf]

theorem performs_deepRef (hi : i < 2 ^ 64) (hj : j < 2 ^ 31) :
    Performs p host n tail k (ins .deepArgumentRef [.ofNat i, .ofNat j]) fun w =>
      w.onMemory fun mem => mem.withVal (frameFetch mem.frames k.frame i j) := by
  refine performs_memory (.cons trivial (.cons trivial .nil)) fun s _ _ hf => ?_
  show (s.onMemory fun mem => mem.withVal
    (frameFetch mem.frames s.frame (UInt64.ofNat i).toNat (frameIndex (.ofNat j)))) = _
  rw [toNat_ofNat hi, frameIndex_ofNat hj, hf]

theorem performs_deepSet (hi : i < 2 ^ 64) (hj : j < 2 ^ 31) :
    Performs p host n tail k (ins .deepArgumentSet [.ofNat i, .ofNat j]) fun w =>
      w.onMemory fun mem => mem.withFrames (frameUpdate mem.frames k.frame i j mem.val) := by
  refine performs_memory (.cons trivial (.cons trivial .nil)) fun s _ _ hf => ?_
  show (s.onMemory fun mem => mem.withFrames
    (frameUpdate mem.frames s.frame (UInt64.ofNat i).toNat (frameIndex (.ofNat j)) mem.val)) = _
  rw [toNat_ofNat hi, frameIndex_ofNat hj, hf]

variable {fci : Nat}

theorem performs_extendFrame {m : Nat} (hm : m < 2 ^ 31) :
    Performs p host n tail k (ins .extendFrame [.ofNat m, .ofNat fci]) fun w =>
      w.onMemory fun mem => mem.withFrames (extendFrame mem.frames k.frame m) := by
  refine performs_memory (.cons trivial (.cons trivial .nil)) fun s _ _ hf => ?_
  show (s.onMemory fun mem =>
    mem.withFrames (extendFrame mem.frames s.frame (frameIndex (.ofNat m)))) = _
  rw [frameIndex_ofNat hm, hf]

variable {arity : Nat}

theorem performs_allocateFrame (hn : arity + 1 < 2 ^ 31) :
    Performs p host n tail k (allocateFrame arity) fun w =>
      w.onMemory fun mem => mem.allocate (arity + 1) := by
  rcases arity with _ | _ | _ | _ | _ | arity
  iterate 5 exact performs_memory .nil fun s _ _ _ => rfl
  refine performs_memory (takes_varuint rfl) fun s _ _ _ => ?_
  show (s.onMemory fun mem => mem.allocate (frameIndex (.ofNat (arity + 5 + 1)))) = _
  rw [frameIndex_ofNat hn]
  rfl

theorem performs_allocateDottedFrame (hn : arity + 1 < 2 ^ 31) :
    Performs p host n tail k (ins .allocateDottedFrame [.ofNat (arity + 1)]) fun w =>
      w.onMemory fun mem => mem.allocateDotted (arity + 1) := by
  refine performs_memory (takes_varuint rfl) fun s _ _ _ => ?_
  show (s.onMemory fun mem => mem.allocateDotted (frameIndex (.ofNat (arity + 1)))) = _
  rw [frameIndex_ofNat hn]
  rfl

theorem performs_reuseFrame (hn : arity + 1 < 2 ^ 31) :
    Performs p host n tail k (ins .reuseFrame [.ofNat (arity + 1)]) fun w =>
      w.onMemory fun mem => mem.allocate (arity + 1) := by
  refine performs_memory (takes_varuint rfl) fun s _ _ _ => ?_
  show (s.onMemory fun mem => mem.allocate (frameIndex (.ofNat (arity + 1)))) = _
  rw [frameIndex_ofNat hn]
  rfl

theorem performs_localSet (hi : i < 2 ^ 64) :
    Performs p host n tail k (ins .shallowArgumentSet [.ofNat i]) fun w =>
      w.onMemory fun mem => mem.withFrames (setFrameArgs mem.frames k.frame i mem.val) := by
  refine performs_memory (takes_varuint rfl) fun s _ _ hf => ?_
  show (s.onMemory fun mem =>
    mem.withFrames (setFrameArgs mem.frames s.frame (UInt64.ofNat i).toNat mem.val)) = _
  rw [toNat_ofNat hi, hf]

variable {w : World O S} {pc : Nat} {s : State O S} {stack : List (VmValue O)}

theorem At.popFrame {rank : Nat} {v : VmValue O} (hrank : rank < 2 ^ 31)
    (h : At p k (v :: stack) pc w s) (hloc : Located (p.img.byteCode k.xi) pc (popFrame rank)) :
    Does p host n (w.onMemory fun mem => mem.popFrame rank v)
      (At p k stack (pc + (popFrame rank).length)) s := by
  rcases rank with _ | _ | _ | _ | rank
  iterate 4 exact h.popMemory (g := fun v mem => mem.popFrame _ v) hloc .nil fun s => rfl
  refine h.popMemory (g := fun v mem => mem.popFrame _ v) hloc (takes_varuint rfl) fun s => ?_
  show (s.pop.2.onMemory fun mem => mem.popFrame (frameIndex (.ofNat (rank + 4))) s.pop.1) = _
  rw [frameIndex_ofNat hrank]

theorem At.popListFrame {v : VmValue O} (harity : arity < 2 ^ 31) (h : At p k (v :: stack) pc w s)
    (hloc : Located (p.img.byteCode k.xi) pc (ins .popListFrame [.ofNat arity])) :
    Does p host n (w.onMemory fun mem => mem.popListFrame host arity v)
      (At p k stack (pc + (ins .popListFrame [.ofNat arity]).length)) s := by
  refine h.popMemory (g := fun v mem => mem.popListFrame host arity v) hloc (takes_varuint rfl)
    fun s => ?_
  show (s.pop.2.onMemory fun mem => mem.popListFrame host (frameIndex (.ofNat arity)) s.pop.1) = _
  rw [frameIndex_ofNat harity]

/-- A reference to a symbol. -/
theorem performs_reference (r : SymbolRef O) (ht : o.Takes vs)
    (hexec : ∀ s : State O S, s.xi = k.xi → exec p.img host o vs s =
      s.onMemory fun mem => mem.withHost (host.symbolRef r s.xi s.env mem.val)) :
    Performs p host n tail k (ins o vs) fun w =>
      w.onMemory fun mem => mem.withHost (host.symbolRef r k.xi k.env mem.val) := by
  refine performs_memory ht fun s hxi henv _ => ?_
  rw [hexec s hxi, hxi, henv]

theorem performs_symbolRef (hs : p.Sound) {r : SymbolRef O} (hr : SymbolRefFits r)
    (hb : Built p k.xi (symbolRef e r).2) :
    Performs p host n tail k (symbolRef e r).1 fun w =>
      w.onMemory fun mem => mem.withHost (host.symbolRef r k.xi k.env mem.val) := by
  have hsi : ∀ si, si < 65536 → (UInt64.ofNat si).toNat = si :=
    fun si h => toNat_ofNat (Nat.lt_trans h (by omega))
  cases r with
  | symRef si =>
    refine performs_reference _ (takes_ref rfl hr) fun s _ => ?_
    unfold exec operand
    simp only [List.getD_cons_zero, hsi si hr]
  | functionSymRef si =>
    refine performs_reference _ (takes_ref rfl hr) fun s _ => ?_
    unfold exec operand
    simp only [List.getD_cons_zero, hsi si hr]
  | computedSymRef si =>
    refine performs_reference _ (takes_ref rfl hr) fun s _ => ?_
    unfold exec operand
    simp only [List.getD_cons_zero, hsi si hr]
  | predefined vi =>
    refine performs_reference _ (takes_varuint rfl) fun s _ => ?_
    unfold exec operand
    simp only [List.getD_cons_zero, toNat_ofNat hr]
  | symDef si kind =>
    have hkind : (p.img.constants k.xi)[(constantsLookupOrExtend e kind).1]? = some kind :=
      Built.constant hb
    have hlt : (constantsLookupOrExtend e kind).1 < 2 ^ 64 := Built.constant_lt hs hb
    show Performs p host n tail k
      (ins .symDef [.ofNat si, .ofNat (constantsLookupOrExtend e kind).1]) _
    generalize (constantsLookupOrExtend e kind).1 = kci at hkind hlt ⊢
    refine performs_reference _ (takes_ref_varuint rfl hr) fun s hxi => ?_
    unfold exec operand
    simp only [List.getD_cons_zero, List.getD_cons_succ, hsi si hr, toNat_ofNat hlt, hxi, hkind]

/-- An assignment to a symbol. -/
theorem performs_assignment (a : SymbolSet) (ht : o.Takes vs)
    (hexec : ∀ s : State O S, exec p.img host o vs s =
      s.onMemory fun mem => mem.withHost (host.symbolSet a s.xi s.env mem.val)) :
    Performs p host n tail k (ins o vs) fun w =>
      w.onMemory fun mem => mem.withHost (host.symbolSet a k.xi k.env mem.val) := by
  refine performs_memory ht fun s hxi henv _ => ?_
  rw [hexec s, hxi, henv]

theorem performs_symbolSet {a : SymbolSet} (ha : SymbolSetFits a) :
    Performs p host n tail k (symbolSet a) fun w =>
      w.onMemory fun mem => mem.withHost (host.symbolSet a k.xi k.env mem.val) := by
  have hsi : ∀ si, si < 65536 → (UInt64.ofNat si).toNat = si :=
    fun si h => toNat_ofNat (Nat.lt_trans h (by omega))
  cases a with
  | symSet si | computedSymSet si | computedSymDef si | expander si =>
    refine performs_assignment _ (takes_ref rfl ha) fun s => ?_
    unfold exec operand
    simp only [List.getD_cons_zero, hsi si ha]
  | infixOperator oi pri | postfixOperator oi pri =>
    refine performs_assignment _ (takes_ref_varuint rfl ha.1) fun s => ?_
    unfold exec operand
    simp only [List.getD_cons_zero, List.getD_cons_succ, hsi oi ha.1, toNat_ofNat ha.2]

/-- A constant that is in the code. -/
theorem performs_immediate (c : VmValue O) (ht : o.Takes vs)
    (hc : ∀ mem : Memory O S, mem.constantRef host c = .ok { mem with val := c })
    (hexec : ∀ s : State O S, exec p.img host o vs s = .ok (s.setVal c)) :
    Performs p host n tail k (ins o vs) fun w => w.onMemory fun mem => mem.constantRef host c := by
  refine performs_memory ht fun s _ _ _ => ?_
  rw [hexec s, State.onMemory, hc]
  rfl

theorem signed_neg {v : Int} (hneg : ¬ 0 ≤ v) (h : fixnumMin ≤ v) :
    -signed (.ofNat (-v).toNat) = v := by
  unfold fixnumMin at h
  have hn : ((-v).toNat : Int) = -v := Int.toNat_of_nonneg (by omega)
  have hlt : (UInt64.ofNat (-v).toNat).toNat = (-v).toNat := toNat_ofNat (by omega)
  unfold signed
  rw [hlt, hn, Int.bmod_eq_of_le (by omega) (by omega), Int.neg_neg]

theorem fixnum_toNat {v : Int} (hpos : 0 ≤ v) (h : v ≤ fixnumMax) :
    ((UInt64.ofNat v.toNat).toNat : Int) = v := by
  unfold fixnumMax at h
  rw [toNat_ofNat (by omega), Int.toNat_of_nonneg hpos]

theorem performs_constantRef (hs : p.Sound) {c : VmValue O} (hc : ConstantFits c)
    (hb : Built p k.xi (constantRef e c).2) :
    Performs p host n tail k (constantRef e c).1 fun w =>
      w.onMemory fun mem => mem.constantRef host c := by
  have hindex : Built p k.xi (constantsLookupOrExtend e c).2 →
      Performs p host n tail k (ins .constantRef [.ofNat (constantsLookupOrExtend e c).1])
        fun w => w.onMemory fun mem => mem.constantRef host c := by
    intro hb
    refine performs_memory (takes_varuint rfl) fun s hxi _ _ => ?_
    unfold exec operand
    simp only [List.getD_cons_zero, toNat_ofNat (hb.constant_lt hs), hxi, hb.constant]
  cases c with
  | fixnum v =>
    unfold constantRef
    dsimp only
    split
    · next h => exact h ▸ performs_immediate _ .nil (fun _ => rfl) fun _ => rfl
    split
    · next h => exact h ▸ performs_immediate _ .nil (fun _ => rfl) fun _ => rfl
    split
    · next h => exact h ▸ performs_immediate _ .nil (fun _ => rfl) fun _ => rfl
    split
    · next h => exact h ▸ performs_immediate _ .nil (fun _ => rfl) fun _ => rfl
    split
    · next h => exact h ▸ performs_immediate _ .nil (fun _ => rfl) fun _ => rfl
    split
    · next hpos =>
      refine performs_immediate _ (takes_varuint rfl) (fun _ => rfl) fun s => ?_
      unfold exec operand
      simp only [List.getD_cons_zero, fixnum_toNat hpos hc.2, if_neg (Int.not_lt.mpr hc.2)]
    · next hneg =>
      refine performs_immediate _ (takes_varuint rfl) (fun _ => rfl) fun s => ?_
      unfold exec operand
      simp only [List.getD_cons_zero, signed_neg hneg hc.1, if_neg (Int.not_lt.mpr hc.1)]
  | constant v =>
    unfold constantRef
    dsimp only
    split
    · next h => exact h ▸ performs_immediate _ .nil (fun _ => rfl) fun _ => rfl
    split
    · next h => exact h ▸ performs_immediate _ .nil (fun _ => rfl) fun _ => rfl
    split
    · next h => exact h ▸ performs_immediate _ .nil (fun _ => rfl) fun _ => rfl
    split
    · next hpos =>
      refine performs_immediate _ (takes_varuint rfl) (fun _ => rfl) fun s => ?_
      unfold exec operand
      simp only [List.getD_cons_zero, fixnum_toNat hpos hc.2, if_neg (Int.not_lt.mpr hc.2)]
    · next hneg =>
      refine performs_immediate _ (takes_varuint rfl) (fun _ => rfl) fun s => ?_
      unfold exec operand
      simp only [List.getD_cons_zero, signed_neg hneg hc.1, if_neg (Int.not_lt.mpr hc.1)]
  | unicode v =>
    have hv : (UInt64.ofNat v).toNat = v := by
      have hle : (v : Int) ≤ 2305843009213693951 := hc
      exact toNat_ofNat (by omega)
    refine performs_immediate _ (takes_varuint rfl) (fun _ => rfl) fun s => ?_
    unfold exec operand
    simp only [List.getD_cons_zero, hv, if_neg (Int.not_lt.mpr hc)]
  | frame a => exact hindex hb
  | closure a => exact hindex hb
  | module a => exact hindex hb
  | object o => exact hindex hb

/-! ## Code put together -/

/-- A clause and those after it, and the jump over them. -/
theorem chain_cons (short long : Opcode) (ia : Ia) (iacs : List Ia) :
    chain short long (ia :: iacs) =
      jump short long (ia ++ chain short long iacs).length ++ (ia ++ chain short long iacs) := by
  rw [List.length_append, Nat.add_comm, ← List.append_assoc]
  rfl

namespace Performs

/-- No code. -/
theorem nil : Performs p host n tail k [] (S := S) .ok := by
  intro stack pc w s _ _ h
  exact .value h.ends

/-- Some code and then some other. -/
theorem append (hf : Performs p host n false k ia f) (hg : Performs p host n tail k ib g) :
    Performs p host n tail k (ia ++ ib) fun w => f w >>= g := by
  intro stack pc w s hloc hr h
  rw [List.length_append, ← Nat.add_assoc]
  refine (hf stack pc w s hloc.left (fun h => by cases h) h).bind fun w' s' _ h' => ?_
  exact hg stack _ w' s' hloc.right hr h'.at_end

/-- Code that need not return. -/
theorem weaken {tailp : Bool} (hf : Performs p host n tailp k ia f)
    (htail : tailp = true → tail = true) : Performs p host n tail k ia f := by
  intro stack pc w s hloc hr h
  refine (hf stack pc w s hloc (fun ht => hr (htail ht)) h).mono fun _ _ _ h' => ?_
  exact h'.weaken htail

/-- The source expression of what follows. -/
theorem srcExpr (src : Src O) (e : Eenv O) (hf : Performs p host n tail k ia f) :
    Performs p host n tail k ((codegenSrcExpr e src).1 ++ ia) f := by
  intro stack pc w s hloc hr h
  rw [List.length_append, ← Nat.add_assoc]
  refine .after (At.srcExpr ⟨h, rfl⟩ hloc.left) fun s' h' => ?_
  exact hf stack _ w s' hloc.right hr h'.1

/-- Code with commands in it that may fail. -/
theorem suppressed (hf : Performs p host n false k ia f) :
    Performs p host n tail k (suppressed ia) fun w => w.suppressed f := by
  intro stack pc w s hloc _ h
  have hpre : Located (p.img.byteCode k.xi) pc (ins .suppressRcse [] ++ ia) := hloc.left
  refine .after (h.suppressRcse hpre.left) fun s₁ h₁ => ?_
  refine (hf _ _ _ s₁ hpre.right (fun h => by cases h) h₁).bind fun w' s₂ _ h₂ => ?_
  have hpop := hloc.right
  rw [List.length_append, ← Nat.add_assoc] at hpop
  refine Reaches.mono (h₂.at_end.popRcse hpop) fun s₃ h₃ => ?_
  have hend : Ends p tail k stack _ _ s₃ := h₃.ends
  unfold Codegen.suppressed
  rw [List.length_append, List.length_append, ← Nat.add_assoc, ← Nat.add_assoc]
  exact hend

theorem suppressedUnless (tailp : Bool) (hf : Performs p host n false k ia f) :
    Performs p host n false k (if tailp then ia else Codegen.suppressed ia) fun w =>
      w.suppressedUnless tailp f := by
  cases tailp with
  | true => exact hf
  | false => exact hf.suppressed

/-- A value kept on the stack while some other code runs. -/
theorem saving {h : VmValue O → World O S → Result (World O S)} {ic : Ia}
    (hf : Performs p host n false k ia f) (hg : Performs p host n false k ib g)
    (hh : ∀ v stack pc w s, Located (p.img.byteCode k.xi) pc ic →
      (tail = true → IsReturn p stack) → At p k (v :: stack) pc w s →
      Does p host n (h v w) (Ends p tail k stack (pc + ic.length)) s) :
    Performs p host n tail k (ia ++ (ins .pushValue [] ++ (ib ++ ic))) (fun w => do
      let w ← f w
      let v := w.mem.val
      let w ← g w
      h v w) := by
  intro stack pc w s hloc hr hat
  simp only [List.length_append, ← Nat.add_assoc]
  refine (hf stack pc w s hloc.left (fun h => by cases h) hat).bind fun w₁ s₁ _ h₁ => ?_
  refine .after (h₁.at_end.pushValue hloc.right.left) fun s₂ h₂ => ?_
  refine (hg _ _ w₁ s₂ hloc.right.right.left (fun h => by cases h) h₂).bind fun w₂ s₃ _ h₃ => ?_
  exact hh _ stack _ w₂ s₃ hloc.right.right.right hr h₃.at_end

/-- A choice. -/
theorem alternative {ic : Ia} {h : World O S → Result (World O S)} (hs : p.Sound)
    (hf : Performs p host n false k ia f) (hg : Performs p host n tail k ib g)
    (hh : Performs p host n tail k ic h) :
    Performs p host n tail k
      (ia ++ (jump .shortJumpFalse .longJumpFalse
          (ib.length + (jump .shortGoto .longGoto ic.length).length) ++
        (ib ++ (jump .shortGoto .longGoto ic.length ++ ic)))) (fun w => do
      let w ← f w
      if w.mem.val.isFalse then h w else g w) := by
  intro stack pc w s hloc hr hat
  have hib := hloc.right.right.left
  have hgoto := hloc.right.right.right.left
  have hic := hloc.right.right.right.right
  have hskip : ib.length + (jump .shortGoto .longGoto ic.length).length < 2 ^ 64 := by
    have hlt := length_lt_of_located hs hloc.right.right
    simp only [List.length_append] at hlt
    omega
  refine (hf stack pc w s hloc.left (fun h => by cases h) hat).bind fun w₁ s₁ _ h₁ => ?_
  have hjump := h₁.at_end.jump host (c := w₁.mem.val.isFalse) hloc.right.left hskip rfl
    rfl (fun s v hs => by rw [← hs]; rfl) (fun s v hs => by rw [← hs]; rfl)
  refine .after hjump fun s₂ h₂ => ?_
  cases hc : w₁.mem.val.isFalse with
  | true =>
    rw [hc, if_pos rfl] at h₂
    rw [if_pos rfl]
    rw [Nat.add_assoc _ ib.length] at hic
    simp only [List.length_append, ← Nat.add_assoc] at h₂ hic ⊢
    exact hh stack _ w₁ s₂ hic hr h₂
  | false =>
    rw [hc, if_neg Bool.false_ne_true] at h₂
    rw [if_neg Bool.false_ne_true]
    refine (hg stack _ w₁ s₂ hib hr h₂).finish fun w₂ s₃ _ h₃ => h₃.reaches fun frame h₃ => ?_
    have hgoto := h₃.jump host (c := true) hgoto
      (length_lt_of_located hs hic) rfl rfl (fun s v _ => rfl) (fun s v _ => rfl)
    simp only [List.length_append, ← Nat.add_assoc]
    exact hgoto

/-- Some code with nothing after it. -/
theorem last (hf : Performs p host n tail k ia f) :
    Performs p host n tail k (ia ++ []) fun w => f w >>= .ok := by
  rw [List.append_nil]
  intro stack pc w s hloc hr h
  have hlast := hf stack pc w s hloc hr h
  show Does p host n (f w >>= .ok) _ s
  cases hw : f w with
  | ok w' =>
    rw [hw] at hlast
    exact hlast
  | error x =>
    rw [hw] at hlast
    exact hlast

/-- A term before a list. -/
theorem list {m : ICodes O} {apply : Place O → VmValue O → World O S → Result (World O S)}
    (hf : Performs p host n (lastTail tail m) k ia f)
    (hm : Performs p host n tail k (compileList m e).1 (evalList host p.home apply m k)) :
    Performs p host n tail k (ia ++ (compileList m e).1)
      fun w => f w >>= evalList host p.home apply m k := by
  cases m with
  | nil => exact hf.last
  | cons m mt => exact hf.append hm

/-- A clause of an AND or OR. -/
theorem clause {mt : ICodes O} (hf : Performs p host n (lastTail tail mt) k ia f) :
    Performs p host n (lastTail tail mt) k (clause tail mt ia) (evalClause tail mt f) := by
  cases mt with
  | nil =>
    cases tail with
    | true => exact hf
    | false => exact hf.suppressed
  | cons m mt => exact hf.suppressed

/-- The clauses of an AND or OR before some others. -/
theorem clauses {m : ICodes O} {apply : Place O → VmValue O → World O S → Result (World O S)}
    {stop : VmValue O → Bool} {short long : Opcode}
    (hf : Performs p host n (lastTail tail m) k ia f)
    (hm : Performs p host n tail k (chain short long (compileClauses tail m e).1)
      (evalClauses host p.home apply tail stop m k)) :
    Performs p host n tail k (ia ++ chain short long (compileClauses tail m e).1)
      fun w => f w >>= evalClauses host p.home apply tail stop m k := by
  cases m with
  | nil => exact hf.last
  | cons m mt => exact hf.append hm

/-- Code that is jumped over, if VAL says so. -/
theorem guarded {stop : VmValue O → Bool} {short long : Opcode} (hs : p.Sound)
    (hbyte : short.shape = [.byte]) (hvaruint : long.shape = [.varuint])
    (hshort : ∀ (s : State O S) v, exec p.img host short [v] s = .ok (s.jumpIf (stop s.mem.val) v))
    (hlong : ∀ (s : State O S) v, exec p.img host long [v] s = .ok (s.jumpIf (stop s.mem.val) v))
    (hf : Performs p host n tail k ia f) :
    Performs p host n tail k (jump short long ia.length ++ ia)
      fun w => if stop w.mem.val then .ok w else f w := by
  intro stack pc w s hloc hr h
  have hjump := h.jump host (c := stop w.mem.val) hloc.left
    (length_lt_of_located hs hloc.right) hbyte hvaruint
    (fun s v hs => by rw [← hs]; exact hshort s v) (fun s v hs => by rw [← hs]; exact hlong s v)
  refine .after hjump fun s₁ h₁ => ?_
  rw [List.length_append, ← Nat.add_assoc]
  show Does p host n (if stop w.mem.val then .ok w else f w) _ s₁
  cases hc : stop w.mem.val with
  | true =>
    rw [hc, if_pos rfl] at h₁
    rw [if_pos rfl]
    exact .value h₁.ends
  | false =>
    rw [hc, if_neg Bool.false_ne_true] at h₁
    rw [if_neg Bool.false_ne_true]
    exact hf stack _ w s₁ hloc.right hr h₁

end Performs

/-! ## Lets -/

variable {sei : Nat}

/-- Code in the frame of some arguments. -/
theorem does_inFrame {h : Place O → World O S → Result (World O S)}
    (hf : Performs p host n false k ia f)
    (hh : ∀ frame, Performs p host n tail { k with frame := frame } ib (h { k with frame := frame }))
    (hloc : Located (p.img.byteCode k.xi) pc (ia ++ (ins .linkFrame [.ofNat fci, .ofNat sei] ++ ib)))
    (hr : tail = true → IsReturn p stack) (hat : At p k stack pc w s) :
    Does p host n
      (do
        let w ← f w
        let fo := w.mem.val
        let w ← w.onMemory fun mem => mem.link k.frame
        h { k with frame := fo } w)
      (fun w' s' => ∃ w₁, f w = .ok w₁ ∧ Ends p tail { k with frame := w₁.mem.val } stack
        (pc + (ia ++ (ins .linkFrame [.ofNat fci, .ofNat sei] ++ ib)).length) w' s') s := by
  simp only [List.length_append, ← Nat.add_assoc]
  refine (hf stack pc w s hloc.left (fun h => by cases h) hat).bind fun w₁ s₁ hw₁ h₁ => ?_
  refine (h₁.at_end.linkFrame host hloc.right.left).bind fun w₂ s₂ _ h₂ => ?_
  exact (hh w₁.mem.val stack _ w₂ s₂ hloc.right.right hr h₂).mono fun _ _ _ h₃ => ⟨w₁, hw₁, h₃⟩

theorem performs_trFixLet {h : Place O → World O S → Result (World O S)}
    (hf : Performs p host n false k ia f)
    (hh : ∀ frame, Performs p host n true { k with frame := frame } ib
      (h { k with frame := frame })) :
    Performs p host n true k (ia ++ (ins .linkFrame [.ofNat fci, .ofNat sei] ++ ib)) (fun w => do
      let w ← f w
      let fo := w.mem.val
      let w ← w.onMemory fun mem => mem.link k.frame
      h { k with frame := fo } w) := by
  intro stack pc w s hloc hr hat
  refine (does_inFrame hf hh hloc hr hat).mono fun w' s' _ hend => ?_
  obtain ⟨w₁, -, hend⟩ := hend
  rcases hend with ⟨frame, -, hend⟩ | ⟨-, hend⟩
  · exact .inl ⟨frame, (fun h => by cases h), hend⟩
  · exact .inr ⟨rfl, hend⟩

/-- The frame of a let is left by its link. -/
theorem performs_fixLet {h : Place O → World O S → Result (World O S)}
    (hf : Performs p host n false k ia f)
    (hh : ∀ frame, Performs p host n false { k with frame := frame } ib
      (h { k with frame := frame })) (hnew : ∀ w w', f w = .ok w' → ∃ b, w'.mem.val = .frame b)
    (hkeeps : ∀ k' w w', h k' w = .ok w' → w.Keeps w') :
    Performs p host n tail k
      (ia ++ (ins .linkFrame [.ofNat fci, .ofNat sei] ++ (ib ++ ins .unlinkFrame []))) (fun w => do
      let w ← f w
      let fo := w.mem.val
      let w ← w.onMemory fun mem => mem.link k.frame
      h { k with frame := fo } w) := by
  rw [← List.append_assoc _ ib, ← List.append_assoc ia]
  intro stack pc w s hloc hr hat
  refine (does_inFrame hf hh hloc.left (fun h => by cases h) hat).finish fun w' s' hw' hend => ?_
  obtain ⟨w₁, hw₁, hend⟩ := hend
  rw [hw₁, ok_bind] at hw'
  obtain ⟨w₂, hlink, hw'⟩ := bind_eq_ok.mp hw'
  obtain ⟨b, hb⟩ := hnew w w₁ hw₁
  obtain ⟨mem, hmem, rfl⟩ := onMemory_eq_ok hlink
  obtain ⟨fs, hfs, rfl⟩ := withFrames_eq_ok hmem
  rw [hb] at hfs hend
  obtain ⟨fo, hfo, hnext⟩ := linkFrame_next hfs
  obtain ⟨hlt, -⟩ := List.getElem?_eq_some_iff.mp hfo
  obtain ⟨fo', hfo', hnext'⟩ := (hkeeps _ _ _ hw').next b hlt fo hfo
  have hout := hend.at_end.unlinkFrame host hloc.right rfl hfo'
  rw [hnext', hnext] at hout
  refine hout.mono fun s₃ h₃ => ?_
  rw [List.length_append, ← Nat.add_assoc]
  exact At.ends h₃

/-! ## Calls -/

/-- The machine calls what `call` calls, with some fuel. -/
structure CallsDo (p : Program O) (host : Host O S) (n : Nat) : Prop where
  invoke : ∀ (k : Place O) (stack : List (VmValue O)) (pc : Nat) (w : World O S) (s : State O S),
    Located (p.img.byteCode k.xi) pc (ins .functionInvoke []) → At p k stack pc w s →
    Does p host n (call host p.home n k s.func w)
      (fun w' s' => ∃ env frame, At p ⟨k.xi, env, frame⟩ stack (pc + 1) w' s') s
  goto : ∀ (k : Place O) (stack : List (VmValue O)) (pc : Nat) (w : World O S) (s : State O S),
    Located (p.img.byteCode k.xi) pc (ins .functionGoto []) → IsReturn p stack →
    At p k stack pc w s →
    Does p host n (call host p.home n k s.func w) (Ends p true k stack (pc + 1)) s

variable {src : Src O}

theorem CallsDo.trRegularCall (hc : CallsDo p host n) (hf : Performs p host n false k ia f)
    (hg : Performs p host n false k ib g) :
    Performs p host n true k
      (ia ++ (ins .pushValue [] ++ (ib ++ ((codegenSrcExpr e src).1 ++
        (ins .popFunction [] ++ ins .functionGoto []))))) (fun w => do
      let w ← f w
      let func := w.mem.val
      let w ← g w
      call host p.home n k func w) := by
  refine hf.saving hg fun v stack pc w s hloc hr h => ?_
  simp only [List.length_append, ← Nat.add_assoc]
  refine .after (At.srcExpr ⟨h, rfl⟩ hloc.left) fun s₁ h₁ => ?_
  refine .after (h₁.1.popFunction hloc.right.left) fun s₂ h₂ => ?_
  obtain ⟨h₂, rfl⟩ := h₂
  exact hc.goto k stack _ w s₂ hloc.right.right (hr rfl) h₂

theorem CallsDo.regularCall (hc : CallsDo p host n) (hf : Performs p host n false k ia f)
    (hg : Performs p host n false k ib g) :
    Performs p host n tail k
      (ia ++ (ins .pushValue [] ++ (ib ++ ((codegenSrcExpr e src).1 ++ (ins .popFunction [] ++
        (ins .preserveState [] ++ (ins .functionInvoke [] ++ ins .restoreState []))))))) (fun w => do
      let w ← f w
      let func := w.mem.val
      let w ← g w
      call host p.home n k func w) := by
  refine hf.saving hg fun v stack pc w s hloc hr h => ?_
  simp only [List.length_append, ← Nat.add_assoc]
  refine .after (At.srcExpr ⟨h, rfl⟩ hloc.left) fun s₁ h₁ => ?_
  refine .after (h₁.1.popFunction hloc.right.left) fun s₂ h₂ => ?_
  refine .after (h₂.1.preserveState h₂.2 hloc.right.right.left) fun s₃ h₃ => ?_
  obtain ⟨h₃, rfl⟩ := h₃
  refine (hc.invoke k _ _ w s₃ hloc.right.right.right.left h₃).finish fun w' s' _ hret => ?_
  obtain ⟨env, frame, hret⟩ := hret
  exact (hret.restoreState h.module hloc.right.right.right.right).mono fun _ h' => h'.ends

/-- The check of the arguments of a function. -/
theorem performs_enter {lambda : Lambda O} (ha : lambda.arity + 1 < 2 ^ 64) :
    Performs p host n tail k (arityCode lambda.nary lambda.arity) (lambda.enter host) := by
  obtain ⟨nary, arity, body⟩ := lambda
  dsimp only at ha
  cases nary with
  | true =>
    show Performs p host n tail k (ins .arityGep [.ofNat (arity + 1)] ++ ins .packFrame [.ofNat arity])
      fun w => w.onMemory (fun mem => mem.arityGe (arity + 1)) >>= fun w =>
        w.onMemory fun mem => mem.pack host arity
    refine Performs.append (performs_memory (takes_varuint rfl) fun s _ _ _ => ?_)
      (performs_memory (takes_varuint rfl) fun s _ _ _ => ?_)
    · show (s.onMemory fun mem => mem.arityGe (UInt64.ofNat (arity + 1)).toNat) = _
      rw [toNat_ofNat ha]
    · show (s.onMemory fun mem => mem.pack host (UInt64.ofNat arity).toNat) = _
      rw [toNat_ofNat (by omega)]
  | false =>
    show Performs p host n tail k (arityCode false arity) fun w =>
      w.onMemory fun mem => mem.arityEq (arity + 1)
    rcases arity with _ | _ | _ | _ | arity
    iterate 4 exact performs_memory .nil fun s _ _ _ => rfl
    refine performs_memory (takes_varuint rfl) fun s _ _ _ => ?_
    show (s.onMemory fun mem => mem.arityEq (UInt64.ofNat (arity + 4 + 1)).toNat) = _
    rw [toNat_ofNat ha]

/-- The function of a closure, from its first instruction until it has returned. -/
theorem function_does {lambda : Lambda O} {xi : Nat} {env frame : VmValue O}
    (hcode : FunctionAt p xi pc lambda)
    (hbody : ∀ (k : Place O) (e : Eenv O) (m : ICode O), Fits true m →
      Built p k.xi (compile m e).2 →
      Performs p host n true k (compile m e).1 (eval host p.home (call host p.home n) m k))
    (hr : IsReturn p stack) (h : At p ⟨xi, env, frame⟩ stack pc w s) :
    Does p host n
      (do
        let w ← lambda.enter host w
        let fo := w.mem.val
        let w ← w.onMemory fun mem => mem.link frame
        eval host p.home (call host p.home n) lambda.body ⟨xi, env, fo⟩ w)
      (Returned p stack) s := by
  obtain ⟨e, fci, sei, hloc, hb, hfits, ha⟩ := hcode
  unfold functionCode at hloc
  have hpre := hloc.left
  have hret := hloc.right
  rw [List.append_assoc] at hpre hret
  have hrun := performs_trFixLet (k := ⟨xi, env, frame⟩)
    (h := eval host p.home (call host p.home n) lambda.body) (performs_enter ha)
    (fun frame => hbody ⟨xi, env, frame⟩ e lambda.body hfits hb) stack pc w s hpre (fun _ => hr) h
  refine hrun.finish fun w' s' _ hend => ?_
  rcases hend with ⟨frame', -, hend⟩ | ⟨-, hend⟩
  · exact hend.return_ hr hret
  · exact .here hend

variable (host) in
/-- The machine at the function of a closure. -/
theorem At.invokeClosure (tailp : Bool) {c : Nat} {cl : ClosureObject (Lambda O) O}
    {cl' : ClosureObject Nat O} (h : At p k stack pc w s) (hfunc : s.func = .closure c)
    (hs : s.closures[c]? = some cl') (hcl : ClosureAt p cl cl')
    (hloc : Located (p.img.byteCode k.xi) pc (ins o [])) (ht : o.Takes [])
    (hexec : ∀ s : State O S, exec p.img host o [] s = s.invoke host tailp) :
    ∃ s', run1 p.img host s = .ok s' ∧ At p ⟨cl.xi, cl.env, cl.frame⟩
      (if tailp then stack
        else .marker .return_ :: .fixnum k.xi :: .fixnum ↑(pc + 1) :: stack) cl'.code w s' := by
  have hrun := (h.fetched host hloc ht).trans (hexec _)
  rw [ins_length] at hrun
  unfold State.invoke at hrun
  simp only [hfunc, hs] at hrun
  refine ⟨_, hrun, ?_⟩
  cases tailp with
  | true =>
    exact ⟨hcl.xi, hcl.env, hcl.module, hcl.frame, h.stack, rfl, h.mem, h.closures, h.linked⟩
  | false =>
    refine ⟨hcl.xi, hcl.env, hcl.module, hcl.frame, ?_, rfl, h.mem, h.closures, h.linked⟩
    show _ :: VmValue.fixnum s.xi :: VmValue.fixnum ↑(pc + 1) :: s.stack = _
    rw [h.xi, h.stack]
    rfl

/-- The two ways to call: what is no closure, and the function of a closure. -/
theorem invoke_does (tailp : Bool) {post : World O S → State O S → Prop}
    (hbody : ∀ (k : Place O) (e : Eenv O) (m : ICode O), Fits true m →
      Built p k.xi (compile m e).2 →
      Performs p host n true k (compile m e).1 (eval host p.home (call host p.home n) m k))
    (hloc : Located (p.img.byteCode k.xi) pc (ins o [])) (ht : o.Takes [])
    (hexec : ∀ s : State O S, exec p.img host o [] s = s.invoke host tailp)
    (hr : IsReturn p (if tailp then stack
        else .marker .return_ :: .fixnum k.xi :: .fixnum ↑(pc + 1) :: stack))
    (hother : ∀ w' s', At p k stack (pc + 1) w' s' → post w' s')
    (hreturned : ∀ w' s', Returned p (if tailp then stack
        else .marker .return_ :: .fixnum k.xi :: .fixnum ↑(pc + 1) :: stack) w' s' → post w' s')
    (h : At p k stack pc w s) :
    Does p host (n + 1) (call host p.home (n + 1) k s.func w) post s := by
  by_cases hfunc : ∃ c, s.func = .closure c
  · obtain ⟨c, hfunc⟩ := hfunc
    rw [hfunc]
    rcases h.closure_cases c with ⟨hw, hs⟩ | ⟨cl, cl', hw, hs, hcl⟩
    · have hrun := (h.fetched host hloc ht).trans (hexec _)
      unfold State.invoke at hrun
      simp only [hfunc, hs] at hrun
      rw [call_none hw]
      exact .inl (.here hrun)
    · obtain ⟨s₁, hrun, h₁⟩ := h.invokeClosure host tailp hfunc hs hcl hloc ht hexec
      rw [call_closure hw]
      exact .tick hrun ((function_does hcl.code hbody hr h₁).mono fun w' s' _ h' =>
        hreturned w' s' h')
  · have hno := not_exists.mp hfunc
    rw [call_other hno]
    exact (h.invokeOther rfl hno hloc ht hexec).mono fun w' s' _ h' => hother w' s' h'

/-- More fuel, for calls. -/
theorem CallsDo.succ (hbody : ∀ (k : Place O) (e : Eenv O) (m : ICode O), Fits true m →
      Built p k.xi (compile m e).2 →
      Performs p host n true k (compile m e).1 (eval host p.home (call host p.home n) m k)) :
    CallsDo p host (n + 1) where
  invoke := by
    intro k stack pc w s hloc h
    have hxi := xi_lt_of_located hloc
    have hpc := hloc.add_length_le
    refine invoke_does false hbody hloc .nil (fun _ => rfl)
      ⟨k.xi, pc + 1, stack, rfl, hxi, hpc⟩ (fun w' s' h' => ⟨k.env, k.frame, h'⟩) ?_ h
    intro w' s' hret
    obtain ⟨xi', pc', rest, env, frame, hstack, h'⟩ := hret
    simp only [Bool.false_eq_true, if_false, List.cons.injEq, VmValue.fixnum.injEq, Int.natCast_inj,
      true_and] at hstack
    obtain ⟨rfl, rfl, rfl⟩ := hstack
    exact ⟨env, frame, h'⟩
  goto := by
    intro k stack pc w s hloc hr h
    exact invoke_does true hbody hloc .nil (fun _ => rfl) hr
      (fun w' s' h' => h'.ends) (fun w' s' h' => .inr ⟨rfl, h'⟩) h

/-- No fuel. -/
theorem CallsDo.zero : CallsDo p host 0 where
  invoke := fun _ _ _ _ _ _ _ => .lost_zero
  goto := fun _ _ _ _ _ _ _ _ => .lost_zero

/-! ## Terms -/

theorem performs_closure (hs : p.Sound) {nary : Bool} {mp : ICode O} {a : Abstraction O}
    (hf : Fits false (.closure nary mp a)) (hb : Built p k.xi (compile (.closure nary mp a) e).2) :
    Performs p host n tail k (ins .createClosure [.ofNat a.vi]) fun w =>
      .ok (w.create ⟨k.xi, ⟨nary, a.arity, mp⟩, k.frame, p.home k.xi a.vi⟩) := by
  obtain ⟨-, -, hvi, -⟩ := hf
  intro stack pc w s hloc _ h
  have hmem := hb.functions _ (List.mem_append_right _ (List.mem_singleton_self _))
  exact (h.createClosure hs hmem hvi hloc).mono fun _ h' => h'.ends

/-- A primitive called, after its arguments. -/
theorem performs_primcall {pd : Nat} (hshape : o.shape = [.varuint]) (hpd : pd < 2 ^ 64)
    (args : World O S → List (VmValue O)) (hexec : ∀ (s : State O S) w v, s.mem = w.mem →
      exec p.img host o [v] s = s.primcall host v.toNat (args w)) :
    Performs p host n tail k ((codegenSrcExpr e src).1 ++ ins o [.ofNat pd]) fun w =>
      primcall host k pd (args w) w := by
  refine Performs.srcExpr src e fun stack pc w s hloc _ h => ?_
  refine (h.primcall hloc (takes_varuint hshape) ?_).mono fun _ _ _ h' => h'.ends
  refine (hexec _ w (.ofNat pd) ?_).trans ?_
  · exact h.mem
  · rw [toNat_ofNat hpd]

theorem performs_primcall2 {pd : Nat} (hpd : pd < 2 ^ 64) (hf : Performs p host n false k ia f)
    (hg : Performs p host n false k ib g) :
    Performs p host n tail k
      (ia ++ (ins .pushValue [] ++ (ib ++ (ins .popReg1 [] ++ ((codegenSrcExpr e src).1 ++
        ins .primcall2 [.ofNat pd]))))) (fun w => do
      let w ← f w
      let v := w.mem.val
      let w ← g w
      primcall host k pd [v, w.mem.val] w) := by
  refine hf.saving (h := fun v w => primcall host k pd [v, w.mem.val] w) hg
    fun v stack pc w s hloc _ h => ?_
  simp only [List.length_append, ← Nat.add_assoc]
  refine .after (h.popReg1 hloc.left) fun s₁ h₁ => ?_
  refine .after (At.srcExpr h₁ hloc.right.left) fun s₂ h₂ => ?_
  obtain ⟨h₂, hreg1⟩ := h₂
  refine (h₂.primcall hloc.right.right (takes_varuint rfl) ?_).mono fun _ _ _ h' => h'.ends
  unfold exec operand
  simp only [List.getD_cons_zero, toNat_ofNat hpd, hreg1, h₂.mem]

theorem performs_nop : Performs p host n tail k (ins .nop []) (S := S) .ok := by
  intro stack pc w s hloc _ h
  refine Reaches.mono (h.step hloc .nil rfl ?_) fun _ h' => h'.ends
  exact ⟨h.xi, h.env, h.module, h.frame, h.stack, rfl, h.mem, h.closures, h.linked⟩

mutual

/-- The code of a term does what the term means, with the fuel that calls are known to have. -/
theorem compile_performs (hs : p.Sound) (hc : CallsDo p host n) (m : ICode O) {tail : Bool}
    {k : Place O} {e : Eenv O} (hf : Fits tail m) (hb : Built p k.xi (compile m e).2) :
    Performs p host n tail k (compile m e).1 (eval host p.home (call host p.home n) m k) := by
  cases m with
  | shallowArgumentRef j => exact performs_shallowRef hf
  | deepArgumentRef i j =>
    obtain ⟨hi, hj⟩ := hf
    exact performs_deepRef hi hj
  | shallowArgumentSet j m1 =>
    obtain ⟨hj, hf⟩ := hf
    exact (compile_performs hs hc m1 hf hb).append (performs_shallowSet hj)
  | deepArgumentSet i j m1 =>
    obtain ⟨hi, hj, hf⟩ := hf
    exact (compile_performs hs hc m1 hf hb).append (performs_deepSet hi hj)
  | symbolRef r => exact performs_symbolRef hs hf hb
  | symbolSet src a m1 =>
    obtain ⟨ha, hf⟩ := hf
    cases src with
    | none =>
      show Performs p host n tail k ((compile m1 e).1 ++ [] ++ symbolSet a) _
      rw [List.append_nil]
      exact (compile_performs hs hc m1 hf hb).append (performs_symbolSet ha)
    | some src =>
      have h₁ := compile_performs hs hc m1 hf (hb.of_extends (codegenSrcExpr_extends _ src))
      show Performs p host n tail k
        ((compile m1 e).1 ++ (codegenSrcExpr (compile m1 e).2 src).1 ++ symbolSet a) _
      rw [List.append_assoc]
      exact h₁.append ((performs_symbolSet ha).srcExpr src _)
  | constantRef c => exact performs_constantRef hs hf hb
  | alternative src m1 m2 m3 =>
    obtain ⟨hf₁, hf₂, hf₃⟩ := hf
    have hb₂ := hb.of_extends (compile_extends hf₃ _)
    have h₁ := compile_performs hs hc m1 hf₁ (hb₂.of_extends (compile_extends hf₂ _))
    have h := h₁.suppressed.alternative hs (compile_performs hs hc m2 hf₂ hb₂)
      (compile_performs hs hc m3 hf₃ hb)
    simp only [compile, List.append_assoc]
    exact h.srcExpr src e
  | sequence m1 mp =>
    obtain ⟨hf₁, hfp⟩ := hf
    have h₁ := compile_performs hs hc m1 hf₁ (hb.of_extends (compile_extends hfp _))
    exact h₁.append (compile_performs hs hc mp hfp hb)
  | trFixLet ms mp formals src =>
    obtain ⟨rfl, hfs, hfp⟩ := hf
    have hargs := arguments_perform hs hc ms hfs (k := k) (hb.of_extends (compile_extends hfp _))
    simp only [compile, List.append_assoc]
    exact performs_trFixLet hargs fun frame => compile_performs hs hc mp hfp hb
  | fixLet ms mp formals src =>
    obtain ⟨hfs, hfp⟩ := hf
    have hargs := arguments_perform hs hc ms hfs (k := k) (hb.of_extends (compile_extends hfp _))
    have hkeeps : ApplyKeeps (call host p.home n) := call_applyKeeps n
    simp only [compile, List.append_assoc]
    refine performs_fixLet hargs (fun frame => compile_performs hs hc mp hfp hb) ?_
      fun k' w w' hw => eval_keeps hkeeps mp hw
    intro w w' hw
    obtain ⟨-, b, hval, -⟩ := evalArguments_keeps hkeeps ms hw
    exact ⟨b, hval⟩
  | local_ src i m1 mp formals m =>
    obtain ⟨hi, hm, hf₁, hfp⟩ := hf
    have hb₁ := (hb.of_extends (compile_extends hfp _)).of_extends (codegenSrcExpr_extends _ src)
    have h₁ := compile_performs hs hc m1 hf₁ hb₁
    have hset := (performs_localSet hi).append (compile_performs hs hc mp hfp hb)
    simp only [compile, List.append_assoc]
    exact h₁.append (((performs_extendFrame hm).append hset).srcExpr src _)
  | primcall0 src pd => exact performs_primcall rfl hf (fun _ => []) fun s w v _ => rfl
  | primcall1 src m1 pd =>
    obtain ⟨hpd, hf⟩ := hf
    have h₁ := compile_performs hs hc m1 hf (hb.of_extends (codegenSrcExpr_extends _ src))
    simp only [compile, List.append_assoc]
    refine h₁.append (performs_primcall rfl hpd (fun w => [w.mem.val]) fun s w v hmem => ?_)
    rw [← hmem]
    rfl
  | primcall2 src m1 m2 pd =>
    obtain ⟨hpd, hf₁, hf₂⟩ := hf
    have hb₂ := hb.of_extends (codegenSrcExpr_extends _ src)
    have h₁ := compile_performs hs hc m1 hf₁ (hb₂.of_extends (compile_extends hf₂ _))
    have h₂ := compile_performs hs hc m2 hf₂ hb₂
    simp only [compile, List.append_assoc]
    exact performs_primcall2 hpd h₁ h₂
  | trRegularCall src m1 ms =>
    obtain ⟨rfl, hf₁, hfs⟩ := hf
    have hbs := hb.of_extends (codegenSrcExpr_extends _ src)
    have h₁ := compile_performs hs hc m1 hf₁ (hbs.of_extends (compileArguments_extends hfs _))
    simp only [compile, List.append_assoc]
    exact hc.trRegularCall h₁ (arguments_perform hs hc ms hfs hbs)
  | regularCall src m1 ms =>
    obtain ⟨hf₁, hfs⟩ := hf
    have hbs := hb.of_extends (codegenSrcExpr_extends _ src)
    have h₁ := compile_performs hs hc m1 hf₁ (hbs.of_extends (compileArguments_extends hfs _))
    simp only [compile, List.append_assoc]
    exact hc.regularCall h₁ (arguments_perform hs hc ms hfs hbs)
  | closure nary mp a => exact performs_closure hs hf hb
  | and_ tailp m1 mt =>
    obtain ⟨htail, hf₁, hft⟩ := hf
    have h₁ := compile_performs hs hc m1 hf₁ (hb.of_extends (compileClauses_extends hft _))
    have ht := clauses_perform hs hc mt hft hb (fun v => v.isFalse) .shortJumpFalse .longJumpFalse
      rfl rfl (fun s v => rfl) (fun s v => rfl)
    exact (h₁.clause.clauses ht).weaken htail
  | or_ tailp m1 mt =>
    obtain ⟨htail, hf₁, hft⟩ := hf
    have h₁ := compile_performs hs hc m1 hf₁ (hb.of_extends (compileClauses_extends hft _))
    have ht := clauses_perform hs hc mt hft hb (fun v => !v.isFalse) .shortJumpTrue .longJumpTrue
      rfl rfl (fun s v => rfl) (fun s v => rfl)
    exact (h₁.clause.clauses ht).weaken htail
  | begin_ tailp m1 mt =>
    obtain ⟨hf₁, hft⟩ := hf
    have h₁ := compile_performs hs hc m1 hf₁ (hb.of_extends (compileList_extends hft _))
    exact h₁.list (list_performs hs hc mt hft hb)
  | list m1 mt =>
    obtain ⟨hf₁, hft⟩ := hf
    have h₁ := compile_performs hs hc m1 hf₁ (hb.of_extends (compileList_extends hft _))
    exact h₁.list (list_performs hs hc mt hft hb)
  | not tailp m1 =>
    have h₁ := compile_performs hs hc m1 hf hb
    exact (h₁.suppressedUnless tailp).append (performs_memory .nil fun s _ _ _ => rfl)
  | return_ => exact absurd hf id
  | pushAbort m1 => exact absurd hf id
  | popAbort => exact absurd hf id
  | nop => exact performs_nop

theorem list_performs (hs : p.Sound) (hc : CallsDo p host n) (mt : ICodes O) {tail : Bool}
    {k : Place O} {e : Eenv O} (hf : ListFits tail mt) (hb : Built p k.xi (compileList mt e).2) :
    Performs p host n tail k (compileList mt e).1
      (evalList host p.home (call host p.home n) mt k) := by
  cases mt with
  | nil => exact .nil
  | cons m mt =>
    obtain ⟨hf₁, hft⟩ := hf
    have h₁ := compile_performs hs hc m hf₁ (hb.of_extends (compileList_extends hft _))
    exact h₁.list (list_performs hs hc mt hft hb)

theorem clauses_perform (hs : p.Sound) (hc : CallsDo p host n) (mt : ICodes O) {tail : Bool}
    {k : Place O} {e : Eenv O} (hf : ListFits tail mt) (hb : Built p k.xi (compileClauses tail mt e).2)
    (stop : VmValue O → Bool) (short long : Opcode)
    (hbyte : short.shape = [.byte]) (hvaruint : long.shape = [.varuint])
    (hshort : ∀ (s : State O S) v, exec p.img host short [v] s = .ok (s.jumpIf (stop s.mem.val) v))
    (hlong : ∀ (s : State O S) v, exec p.img host long [v] s = .ok (s.jumpIf (stop s.mem.val) v)) :
    Performs p host n tail k (chain short long (compileClauses tail mt e).1)
      (evalClauses host p.home (call host p.home n) tail stop mt k) := by
  cases mt with
  | nil => exact .nil
  | cons m mt =>
    obtain ⟨hf₁, hft⟩ := hf
    have h₁ := compile_performs hs hc m hf₁ (hb.of_extends (compileClauses_extends hft _))
    have ht := clauses_perform hs hc mt hft hb stop short long hbyte hvaruint hshort hlong
    have h := (h₁.clause.clauses ht).guarded hs hbyte hvaruint hshort hlong
    rw [← chain_cons] at h
    exact h

theorem arguments_perform (hs : p.Sound) (hc : CallsDo p host n) (ms : Arguments O)
    {k : Place O} {e : Eenv O} (hf : ArgumentsFit ms)
    (hb : Built p k.xi (compileArguments ms e).2) :
    Performs p host n false k (compileArguments ms e).1
      (evalArguments host p.home (call host p.home n) ms k) := by
  cases ms with
  | allocateFrame arity => exact performs_allocateFrame hf
  | allocateDottedFrame arity => exact performs_allocateDottedFrame hf
  | reuseFrame arity => exact performs_reuseFrame hf
  | storeArgument m1 ms rank =>
    obtain ⟨hrank, hf₁, hfs⟩ := hf
    have h₁ := compile_performs hs hc m1 hf₁ (hb.of_extends (compileArguments_extends hfs _))
    simp only [compileArguments, List.append_assoc]
    exact h₁.saving (h := fun v w => w.onMemory fun mem => mem.popFrame rank v)
      (arguments_perform hs hc ms hfs hb)
      fun v stack pc w s hloc _ h => (h.popFrame hrank hloc).mono fun _ _ _ h' => h'.ends
  | listArgument m1 ms arity =>
    obtain ⟨harity, hf₁, hfs⟩ := hf
    have h₁ := compile_performs hs hc m1 hf₁ (hb.of_extends (compileArguments_extends hfs _))
    simp only [compileArguments, List.append_assoc]
    exact h₁.saving (h := fun v w => w.onMemory fun mem => mem.popListFrame host arity v)
      (arguments_perform hs hc ms hfs hb)
      fun v stack pc w s hloc _ h => (h.popListFrame harity hloc).mono fun _ _ _ h' => h'.ends

end

variable (host) in
/-- Calls, with any fuel. -/
theorem calls_do (hs : p.Sound) (n : Nat) : CallsDo p host n := by
  induction n with
  | zero => exact .zero
  | succ n ih => exact .succ fun k e m hf hb => compile_performs hs ih m hf hb

end

end Idio.Codegen
