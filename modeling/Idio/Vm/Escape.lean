/-
  Vm/Escape.lean --- what an escape restores.

  ESCAPER-LABEL-REF goes back to the innermost block with its label: the PC and the
  frame are the ones PUSH-ESCAPER stored, and the stack is cut where the block began.
  XI and `idio_command_suppress_rcse` stay what they are.

  The flag is set by SUPPRESS-RCSE, by PUSH-ABORT and by a `fork` in the child.  Only the
  first is taken back, by the POP-RCSE of the record that it pushed; an escape that cuts off
  the record skips that too.  `FlagSetters` keeps, along a run, which of them set the flag
  last and was not taken back.

  `escape_restores` says when an escape does restore the state of its block.
-/
import Idio.Vm.Refinement
import Mathlib.Data.List.Forall2

set_option autoImplicit false

namespace Idio

/-! ## The records of a block -/

/-- A record that is left alone or a binding with another value. -/
inductive Record.Reassigned : Record → Record → Prop where
  | same (r : Record) : Record.Reassigned r r
  | binding (kind : BindingKind) (gvi : Nat) (v v' : OrdinaryValue) :
      Record.Reassigned (.binding kind gvi v) (.binding kind gvi v')

/-- The same records, some bindings with other values. -/
abbrev Reassigned : List Record → List Record → Prop := List.Forall₂ Record.Reassigned

theorem Record.Reassigned.trans {a b c : Record} (hab : Record.Reassigned a b)
    (hbc : Record.Reassigned b c) : Record.Reassigned a c := by
  cases hab with
  | same => exact hbc
  | binding kind gvi v v' =>
    cases hbc with
    | same => exact .binding kind gvi v v'
    | binding _ _ _ w => exact .binding kind gvi v w

theorem Reassigned.refl (rs : List Record) : Reassigned rs rs :=
  List.forall₂_same.mpr fun r _ => .same r

theorem Reassigned.trans {as bs cs : List Record} (hab : Reassigned as bs)
    (hbc : Reassigned bs cs) : Reassigned as cs := by
  induction hab generalizing cs with
  | nil => exact hbc
  | cons hr _ ih =>
    cases hbc with
    | cons hr' hrest => exact .cons (hr.trans hr') (ih hrest)

theorem Reassigned.height_eq {rs rs' : List Record} (h : Reassigned rs rs') :
    height rs' = height rs := by
  induction h with
  | nil => rfl
  | cons hr _ ih =>
    rw [height, height, ih]
    cases hr <;> rfl

theorem reassigned_assign (kind : BindingKind) (gvi : Nat) (v : OrdinaryValue)
    (rs : List Record) : Reassigned rs (assign kind gvi v rs) := by
  induction rs with
  | nil => exact .nil
  | cons r rs ih =>
    cases r with
    | binding k g val =>
      rw [assign]
      split
      · exact .cons (.binding k g val v) (Reassigned.refl rs)
      · exact .cons (.same _) ih
    | _ => exact .cons (.same _) ih

theorem assignRecords_reassigned {thr thr' : Thread (List Record)} {kind : BindingKind}
    {values values' : List Value} {gvi : Nat} {v : Value}
    (h : assignRecords thr kind values gvi v = some (thr', values')) :
    Reassigned thr.stack thr'.stack := by
  simp only [assignRecords, Option.bind_eq_bind, Option.bind_eq_some_iff] at h
  obtain ⟨o, -, h⟩ := h
  split at h
  · cases h
    exact reassigned_assign kind gvi o thr.stack
  · split at h
    · cases h
      exact Reassigned.refl _
    · cases h

/-- The lower part of reassigned records. -/
theorem Reassigned.split {above rs rs' : List Record} (h : Reassigned (above ++ rs) rs') :
    ∃ above' low, rs' = above' ++ low ∧ Reassigned rs low := by
  induction above generalizing rs' with
  | nil => exact ⟨[], rs', rfl, h⟩
  | cons r above ih =>
    cases h with
    | cons hr hrest =>
      obtain ⟨above', low, rfl, hlow⟩ := ih hrest
      exact ⟨_ :: above', low, rfl, hlow⟩

/-- What a step does to the stack: it pushes, or it pops, or it assigns. -/
theorem recordStep_stack {ctx : Ctx} {i : Instr} {vm vm' : Vm (List Record)}
    (h : recordStep ctx i vm = some vm') :
    (∃ above, vm'.thr.stack = above ++ vm.thr.stack) ∨ vm'.thr.stack <:+ vm.thr.stack ∨
      Reassigned vm.thr.stack vm'.thr.stack := by
  have popped : ∀ {r : Record}, vm.thr.stack = r :: vm'.thr.stack →
      vm'.thr.stack <:+ vm.thr.stack := by
    intro r hr
    exact ⟨[r], hr.symm⟩
  cases recordStep_effect h with
  | saves hi stack flag =>
    obtain ⟨saved, hpush, -⟩ | ⟨saved, hpop, -⟩ := stack
    · exact .inl ⟨saved, hpush⟩
    · exact .inr (.inl ⟨saved, hpop.symm⟩)
  | pushDynamic v val eq =>
    subst eq
    exact .inl ⟨[_], rfl⟩
  | pushEnviron v val eq =>
    subst eq
    exact .inl ⟨[_], rfl⟩
  | popDynamic stack flag => exact .inr (.inl (popped stack))
  | popEnviron stack flag => exact .inr (.inl (popped stack))
  | dynamicSet assign eq =>
    subst eq
    exact .inr (.inr (assignRecords_reassigned assign))
  | environSet assign eq =>
    subst eq
    exact .inr (.inr (assignRecords_reassigned assign))
  | pushTrap handler eq =>
    subst eq
    exact .inl ⟨[_], rfl⟩
  | popTrap stack flag => exact .inr (.inl (popped stack))
  | pushEscaper frame val eq =>
    subst eq
    exact .inl ⟨[_], rfl⟩
  | popEscaper stack flag => exact .inr (.inl (popped stack))
  | escaperLabelRef found eq =>
    rename_i e below
    subst eq
    obtain ⟨-, above, hstack⟩ := findEscaper_eq_some found
    exact .inr (.inl ⟨above ++ [.escaper e], by rw [hstack]; simp⟩)
  | suppressRcse flag val eq =>
    subst eq
    exact .inl ⟨[_], rfl⟩
  | popRcse stack restored => exact .inr (.inl (popped stack))
  | pushAbort k stack reset => exact .inl ⟨[.abort k], stack⟩
  | popAbort stack flag => exact .inr (.inl (popped stack))
  | fork stack reset => exact .inl ⟨[], stack⟩
  | raise select following savedOn returnOn stack flag =>
    obtain ⟨s, hs, -⟩ := savedOn
    rename_i t next saved return_
    refine .inl ⟨return_ ++ .trap (next.copy saved) :: s, ?_⟩
    rw [stack, hs]
    simp

/-- A suffix is determined by its height. -/
theorem suffix_of_height {as bs rs : List Record} (ha : as <:+ rs) (hb : bs <:+ rs)
    (hle : height as ≤ height bs) : as <:+ bs := by
  obtain h | h := List.suffix_or_suffix_of_suffix ha hb
  · exact h
  · obtain ⟨above, rfl⟩ := h
    cases above with
    | nil => exact List.suffix_refl _
    | cons r above =>
      have hpos := r.size_pos
      have hrest := height_append_le above bs
      simp only [List.cons_append, height] at hle
      omega

theorem suffix_eq_of_height {as bs rs : List Record} (ha : as <:+ rs) (hb : bs <:+ rs)
    (heq : height as = height bs) : as = bs :=
  (suffix_of_height ha hb heq.le).sublist.antisymm (suffix_of_height hb ha heq.ge).sublist

/-- Records on top of others, some of those with other values in their bindings. -/
def Above (start rs : List Record) : Prop :=
  ∃ above low, rs = above ++ low ∧ Reassigned start low

theorem Above.refl (rs : List Record) : Above rs rs := ⟨[], rs, rfl, Reassigned.refl rs⟩

/-- A step that does not go below the height of some records leaves them there, but for
assignments. -/
theorem Above.step {ctx : Ctx} {i : Instr} {vm vm' : Vm (List Record)} {start : List Record}
    (h : Above start vm.thr.stack) (hstep : recordStep ctx i vm = some vm')
    (hfloor : (height start : Int) ≤ height vm'.thr.stack) : Above start vm'.thr.stack := by
  obtain ⟨above, low, hvm, hlow⟩ := h
  obtain ⟨more, hvm'⟩ | hvm' | hvm' := recordStep_stack hstep
  · exact ⟨more ++ above, low, by rw [hvm', hvm, List.append_assoc], hlow⟩
  · have hsuffix : low <:+ vm'.thr.stack := by
      refine suffix_of_height ⟨above, hvm.symm⟩ hvm' ?_
      rw [hlow.height_eq]
      omega
    obtain ⟨above', heq⟩ := hsuffix
    exact ⟨above', low, heq.symm, hlow⟩
  · rw [hvm] at hvm'
    obtain ⟨above', low', heq, hlow'⟩ := hvm'.split
    exact ⟨above', low', heq, hlow.trans hlow'⟩

/-- In a run above the floor the records below it stay, but for assignments. -/
theorem runAbove_keeps {ctx : Ctx} {is : List Instr} {vm vm' : Vm (List Record)}
    (h : runAbove ctx (height vm.thr.stack) is vm = some vm') :
    Above vm.thr.stack vm'.thr.stack :=
  runAbove_invariant (P := fun u => Above vm.thr.stack u.thr.stack) h
    (fun _ _ _ _ hu hstep hfloor => hu.step hstep hfloor) (Above.refl _)

/-! ## The suppress flag -/

/-- What sets the flag. -/
inductive FlagSetter where
  | suppressRcse
  | pushAbort
  | fork
  deriving DecidableEq, Repr

/-- What the flag is set to. -/
def FlagSetter.value : FlagSetter → Value
  | .suppressRcse => .true_
  | .pushAbort | .fork => .false_

/-- The setters of the flag since some moment of a run: the last that was not taken back,
and for each SUPPRESS-RCSE whose record is still on the stack the one before it, which its
POP-RCSE goes back to. -/
structure FlagSetters where
  last : Option FlagSetter
  before : List (Option FlagSetter)

/-- No setters. -/
def FlagSetters.none_ : FlagSetters := ⟨none, []⟩

/-- The values of the flag on the stack. -/
def oldFlags : List Record → List Value
  | [] => []
  | .rcse flag :: rs => flag.val :: oldFlags rs
  | _ :: rs => oldFlags rs

/-- The setters after an instruction that makes `rs'` of the records `rs`. -/
def FlagSetters.step (s : FlagSetters) (i : Instr) (rs rs' : List Record) : FlagSetters :=
  match i with
  | .suppressRcse => ⟨some .suppressRcse, s.last :: s.before⟩
  | .popRcse => ⟨s.before.headD none, s.before.tail⟩
  | .pushAbort _ => { s with last := some .pushAbort }
  | .fork _ => { s with last := some .fork }
  | .escaperLabelRef _ =>
      -- the records are cut off, and the flag stays
      { s with before := s.before.drop ((oldFlags rs).length - (oldFlags rs').length) }
  | _ => s

/-- The setters after a run. -/
def flagSetters (ctx : Ctx) : List Instr → Vm (List Record) → FlagSetters → FlagSetters
  | [], _, s => s
  | i :: is, vm, s => match recordStep ctx i vm with
      | none => s
      | some mid => flagSetters ctx is mid (s.step i vm.thr.stack mid.thr.stack)

theorem SavedOn.oldFlags {rs rs' : List Record} (h : SavedOn rs rs') :
    oldFlags rs' = oldFlags rs := by
  obtain ⟨saved, rfl, hsaved⟩ := h
  induction saved with
  | nil => rfl
  | cons r saved ih =>
    have hr := hsaved r (List.mem_cons_self ..)
    rw [← ih fun r hr => hsaved r (List.mem_cons_of_mem _ hr)]
    cases r with
    | rcse old => cases hr
    | _ => rfl

theorem Reassigned.oldFlags {rs rs' : List Record} (h : Reassigned rs rs') :
    oldFlags rs' = oldFlags rs := by
  induction h with
  | nil => rfl
  | @cons r _ _ _ hr _ ih =>
    cases hr with
    | same =>
      cases r with
      | rcse old => exact congrArg (old.val :: ·) ih
      | _ => exact ih
    | binding kind gvi v v' => exact ih

theorem oldFlags_append (above rs : List Record) :
    oldFlags (above ++ rs) = oldFlags above ++ oldFlags rs := by
  induction above with
  | nil => rfl
  | cons r above ih =>
    cases r with
    | rcse old => exact congrArg (old.val :: ·) ih
    | _ => exact ih

theorem Above.oldFlags {start rs : List Record} (h : Above start rs) :
    oldFlags start <:+ oldFlags rs := by
  obtain ⟨above, low, rfl, hlow⟩ := h
  rw [oldFlags_append, hlow.oldFlags]
  exact List.suffix_append ..

/-- The value of the flag, if that was its value before the setters. -/
def flagAfter (flag : Value) (setter : Option FlagSetter) : Value :=
  (setter.map FlagSetter.value).getD flag

/-- The setters say what the flag is and what its values on the stack are, given its
value before them and the values that were on the stack then. -/
structure FlagSetters.Describe (s : FlagSetters) (flag : Value) (base : List Value)
    (vm : Vm (List Record)) : Prop where
  current : vm.suppressRcse = flagAfter flag s.last
  saved : oldFlags vm.thr.stack = s.before.map (flagAfter flag) ++ base

namespace FlagSetters.Describe

variable {ctx : Ctx} {s : FlagSetters} {flag : Value} {base : List Value}
  {vm vm' : Vm (List Record)}

/-- An instruction that leaves the flag and its values on the stack alone. -/
theorem frame (h : s.Describe flag base vm) (hflag : vm'.suppressRcse = vm.suppressRcse)
    (hbefore : oldFlags vm'.thr.stack = oldFlags vm.thr.stack) : s.Describe flag base vm' :=
  ⟨hflag.trans h.current, hbefore.trans h.saved⟩

/-- The flag set, its values on the stack as they were. -/
theorem set (h : s.Describe flag base vm) (setter : FlagSetter)
    (hflag : vm'.suppressRcse = setter.value)
    (hbefore : oldFlags vm'.thr.stack = oldFlags vm.thr.stack) :
    FlagSetters.Describe { s with last := some setter } flag base vm' :=
  ⟨hflag, hbefore.trans h.saved⟩

/-- SUPPRESS-RCSE. -/
theorem suppress (h : s.Describe flag base vm) {old : OrdinaryValue}
    (hold : old.val = vm.suppressRcse) :
    FlagSetters.Describe ⟨some .suppressRcse, s.last :: s.before⟩ flag base
      { vm.push (.rcse old) with suppressRcse := .true_ } := by
  refine ⟨rfl, ?_⟩
  show old.val :: oldFlags vm.thr.stack = _
  rw [hold, h.current, h.saved]
  rfl

/-- POP-RCSE, of a record pushed since. -/
theorem pop (h : s.Describe flag base vm) {old : OrdinaryValue}
    (hstack : vm.thr.stack = .rcse old :: vm'.thr.stack) (hflag : vm'.suppressRcse = old.val)
    (hbase : base <:+ oldFlags vm'.thr.stack) :
    FlagSetters.Describe ⟨s.before.headD none, s.before.tail⟩ flag base vm' := by
  have hflags : old.val :: oldFlags vm'.thr.stack = s.before.map (flagAfter flag) ++ base := by
    rw [← h.saved, hstack]
    rfl
  cases hs : s.before with
  | nil =>
    rw [hs, List.map_nil, List.nil_append] at hflags
    have hlen := hbase.length_le
    rw [← hflags, List.length_cons] at hlen
    omega
  | cons setter before =>
    rw [hs, List.map_cons, List.cons_append] at hflags
    injection hflags with hhead htail
    exact ⟨hflag.trans hhead, htail⟩

/-- An escape, which leaves the flag alone and cuts its values off. -/
theorem cut (h : s.Describe flag base vm) {above : List Record}
    (hstack : vm.thr.stack = above ++ vm'.thr.stack) (hflag : vm'.suppressRcse = vm.suppressRcse)
    (hbase : base <:+ oldFlags vm'.thr.stack) :
    FlagSetters.Describe
      { s with before :=
          s.before.drop ((oldFlags vm.thr.stack).length - (oldFlags vm'.thr.stack).length) }
      flag base vm' := by
  obtain ⟨kept, hkept⟩ := hbase
  have hcut : oldFlags vm.thr.stack = oldFlags above ++ oldFlags vm'.thr.stack := by
    rw [hstack, oldFlags_append]
  have hmap : oldFlags above ++ kept = s.before.map (flagAfter flag) := by
    have hall : oldFlags above ++ kept ++ base = s.before.map (flagAfter flag) ++ base := by
      rw [List.append_assoc, hkept, ← hcut, h.saved]
    exact List.append_cancel_right hall
  refine ⟨hflag.trans h.current, ?_⟩
  rw [hcut, List.length_append, Nat.add_sub_cancel, List.map_drop, ← hmap, List.drop_left, hkept]

/-- One instruction. -/
theorem step {i : Instr} (h : s.Describe flag base vm) (hstep : recordStep ctx i vm = some vm')
    (hbase : base <:+ oldFlags vm'.thr.stack) :
    (s.step i vm.thr.stack vm'.thr.stack).Describe flag base vm' := by
  cases recordStep_effect hstep with
  | saves hi stack flag =>
    have hsame : s.step i vm.thr.stack vm'.thr.stack = s := by
      cases i <;> first | rfl | cases hi
    rw [hsame]
    refine h.frame flag ?_
    obtain hpush | hpop := stack
    · exact hpush.oldFlags
    · exact hpop.oldFlags.symm
  | pushDynamic v val eq =>
    subst eq
    exact h.frame rfl rfl
  | pushEnviron v val eq =>
    subst eq
    exact h.frame rfl rfl
  | popDynamic stack flag => exact h.frame flag (by rw [stack]; rfl)
  | popEnviron stack flag => exact h.frame flag (by rw [stack]; rfl)
  | dynamicSet assign eq =>
    subst eq
    exact h.frame rfl (assignRecords_reassigned assign).oldFlags
  | environSet assign eq =>
    subst eq
    exact h.frame rfl (assignRecords_reassigned assign).oldFlags
  | pushTrap handler eq =>
    subst eq
    exact h.frame rfl rfl
  | popTrap stack flag => exact h.frame flag (by rw [stack]; rfl)
  | pushEscaper frame val eq =>
    subst eq
    exact h.frame rfl rfl
  | popEscaper stack flag => exact h.frame flag (by rw [stack]; rfl)
  | escaperLabelRef found eq =>
    rename_i ci e below
    subst eq
    obtain ⟨-, above, hstack⟩ := findEscaper_eq_some found
    have hbelow : vm.thr.stack = (above ++ [.escaper e]) ++ below := by
      rw [hstack]
      simp
    exact h.cut hbelow rfl hbase
  | suppressRcse old val eq =>
    subst eq
    exact h.suppress val
  | popRcse stack restored => exact h.pop stack restored hbase
  | pushAbort k stack reset => exact h.set .pushAbort reset (by rw [stack]; rfl)
  | popAbort stack flag => exact h.frame flag (by rw [stack]; rfl)
  | fork stack reset => exact h.set .fork reset (by rw [stack])
  | raise select following savedOn returnOn stack flag =>
    rename_i t next saved return_
    have hreturn : SavedOn (.trap (next.copy saved) :: saved) vm'.thr.stack :=
      ⟨return_, stack, returnOn⟩
    exact h.frame flag (hreturn.oldFlags.trans savedOn.oldFlags)

/-- A run above a floor. -/
theorem run {start : List Record} {is : List Instr}
    (h : s.Describe flag (oldFlags start) vm) (habove : Above start vm.thr.stack)
    (hrun : runAbove ctx (height start) is vm = some vm') :
    (flagSetters ctx is vm s).Describe flag (oldFlags start) vm' := by
  induction is generalizing vm s with
  | nil =>
    cases runAbove_run hrun
    exact h
  | cons i is ih =>
    obtain ⟨mid, hstep, hrest⟩ := runAbove_cons hrun
    have hmid := habove.step hstep (runAbove_height hrest)
    rw [flagSetters, hstep]
    exact ih (h.step hstep hmid.oldFlags) hmid hrest

end FlagSetters.Describe

/-! ## Escapes -/

/-- The state of a block restored: the code goes on after its POP-ESCAPER, with the
frame, the stack and the flag that the block was entered with. -/
structure Restored (offset : Nat) (entry after : Vm (List Record)) : Prop where
  pc : after.thr.pc = entry.thr.pc + offset + 1
  xi : after.thr.xi = entry.thr.xi
  frame : after.thr.frame = entry.thr.frame
  stack : after.thr.stack = entry.thr.stack
  suppressRcse : after.suppressRcse = entry.suppressRcse

/-- **Escapes.**  A thread enters a block and runs inside of it.  An escape to the block
goes to the PC after its POP-ESCAPER, with its frame and its stack, but for assignments to
the variables bound there; and it restores all of the state of the block exactly if it
runs in the xenv of the block, no such assignment was made, and nothing has set the flag
since the entry, or what did so last, and was not taken back, sets it to its value at the
entry. -/
theorem escape_restores {ctx : Ctx} {during : List Instr} {entry inside vm' : Vm (List Record)}
    {ci : Int} {offset : Nat} {e : EscaperRecord} {below : List Record}
    (henter : recordStep ctx (.pushEscaper ci offset) entry = some inside)
    (hduring : runAbove ctx (height inside.thr.stack) during inside = some vm')
    (hfound : findEscaper ci vm'.thr.stack = some (e, below))
    (hthis : height below = height entry.thr.stack) :
    ∃ after, step ctx (.escaperLabelRef ci) vm'.concrete = .ok after.concrete ∧
      after.thr.pc = entry.thr.pc + offset + 1 ∧ after.thr.frame = entry.thr.frame ∧
      Reassigned entry.thr.stack after.thr.stack ∧
      (Restored offset entry after ↔ vm'.thr.xi = entry.thr.xi ∧ below = entry.thr.stack ∧
        ∀ setter ∈ (flagSetters ctx during inside .none_).last,
          setter.value = entry.suppressRcse) := by
  obtain ⟨frame, hframe, rfl⟩ : ∃ frame : OrdinaryValue, frame.val = entry.thr.frame ∧
      inside = entry.push
        (.escaper ⟨entry.thr.pc + offset + 1, frame, ci, entry.thr.xi, entry.suppressRcse⟩) := by
    cases recordStep_effect henter with
    | saves hi => cases hi
    | pushEscaper frame val eq => exact ⟨frame, val, eq⟩
  -- the block that is found is the one that was entered
  obtain ⟨above, low, hstack, hlow⟩ := runAbove_keeps hduring
  obtain ⟨-, above', hstack'⟩ := findEscaper_eq_some hfound
  cases hlow with
  | @cons _ r' _ low hr hlow =>
    cases hr
    have hheight : height low = height entry.thr.stack := Reassigned.height_eq hlow
    have hblock := suffix_eq_of_height ⟨above', hstack'.symm⟩ ⟨above, hstack.symm⟩
      (by rw [height, height, hthis, hheight]; rfl)
    cases hblock
    have hflag := (FlagSetters.Describe.run (s := .none_) ⟨rfl, rfl⟩ (Above.refl _) hduring).current
    have hescape : recordStep ctx (.escaperLabelRef ci) vm' = some
        { vm' with thr :=
            { vm'.thr with frame := frame.val, pc := entry.thr.pc + offset + 1, stack := below } } := by
      simp only [recordStep, escapeRecords, hfound]
      rfl
    refine ⟨_, step_refines hescape, rfl, hframe, hlow, ?_⟩
    constructor
    · intro h
      refine ⟨h.xi, h.stack, ?_⟩
      intro setter hsetter
      have hsame : vm'.suppressRcse = entry.suppressRcse := h.suppressRcse
      rw [hflag, Option.mem_def.mp hsetter] at hsame
      exact hsame
    · rintro ⟨hxi, hbelow, hset⟩
      refine ⟨rfl, hxi, hframe, hbelow, ?_⟩
      show vm'.suppressRcse = entry.suppressRcse
      rw [hflag]
      cases hlast : (flagSetters ctx during _ .none_).last with
      | none => rfl
      | some setter => exact hset setter hlast

/-- In a block a condition is tested; a binding and saved registers are pushed; an inner
block is left by an escape from the first clause of an `and`, and a file is loaded. -/
def testingRun : List Instr :=
  [.suppressRcse, .popRcse, .work (registersWith (.fixnum 20)), .pushDynamic 1, .preserveState,
    .pushEscaper 8 3, .suppressRcse, .escaperLabelRef 8, .pushAbort (.pointer 1), .popAbort]

/-- The block is entered. -/
def blockVm : Vm (List Record) :=
  (recordStep emptyCtx (.pushEscaper 7 9) (emptyVm [])).getD (emptyVm [])

/-- What the run leaves. -/
def testedVm : Vm (List Record) := (runAbove emptyCtx 4 testingRun blockVm).getD (emptyVm [])

theorem escape_restores_after_test :
    ∃ after, step emptyCtx (.escaperLabelRef 7) testedVm.concrete = .ok after.concrete ∧
      Restored 9 (emptyVm []) after := by
  have henter : recordStep emptyCtx (.pushEscaper 7 9) (emptyVm []) = some blockVm := by decide
  have hduring : runAbove emptyCtx (height blockVm.thr.stack) testingRun blockVm = some testedVm := by
    decide
  have hfound : findEscaper 7 testedVm.thr.stack =
      some (⟨10, ⟨.nil, by decide⟩, 7, 0, .false_⟩, []) := by decide
  obtain ⟨after, hstep, -, -, -, hrestored⟩ := escape_restores henter hduring hfound rfl
  exact ⟨after, hstep, hrestored.mpr (by decide)⟩

/-- An escape from the first clause of an `and`, which runs after SUPPRESS-RCSE. -/
theorem escape_leaves_flag :
    ∃ after, run emptyCtx [.pushEscaper 7 9, .suppressRcse, .escaperLabelRef 7]
        (emptyVm []).concrete = .ok after ∧
      after.thr.pc = 10 ∧ after.thr.stack = [] ∧ (emptyVm []).suppressRcse = .false_ ∧
      after.suppressRcse = .true_ :=
  ⟨{ emptyVm [] with
      thr := { (emptyVm []).thr with pc := 10, stack := [] }, suppressRcse := .true_ },
    by decide, rfl, rfl, rfl, rfl⟩

end Idio
