/-
  Vm/Continuation.lean --- capturing and restoring continuations.

  The stack of a thread is an array, and here the thread has its address: capturing a
  continuation for `%%call/uc` copies the array to a new address, restoring one copies
  it back into the array of the thread.  `Machine` has the arrays at all addresses and
  the continuations captured so far, so that pushes after a restore could be seen by a
  later one, if the arrays were shared.

  For `%%call/dc` the continuation has the height of the stack in place of a copy and a
  flag that says so; but the flag is cleared before `idio_continuation` returns, and
  restoring takes the height for an array.

  `continuation_reinstates` is the result about runs.  The `sigjmp_buf` is left out.
-/
import Idio.Array.Stack
import Idio.Vm.Thread

set_option autoImplicit false

namespace Idio

/-! ## Continuations -/

/-- `IDIO_CONTINUATION_CALL_CC` and `IDIO_CONTINUATION_CALL_DC`. -/
inductive ContinuationKind where
  | cc
  | dc
  deriving DecidableEq, Repr

/-- `IDIO_CONTINUATION_STACK`: an array or a fixnum. -/
inductive SavedStack where
  | array (a : Nat)
  | height (n : Nat)
  deriving DecidableEq, Repr

/-- `IDIO_CONTINUATION_FLAGS`. -/
inductive ContinuationFlags where
  | none_
  | delimited
  deriving DecidableEq, Repr

/-- `idio_continuation_t`. -/
structure Continuation where
  pc : Int
  xi : Nat
  stack : SavedStack
  flags : ContinuationFlags
  frame : Value
  env : Value
  module : Value
  holes : List Value
  deriving DecidableEq, Repr

/-- A thread, the arrays and the continuations. -/
structure Machine where
  /-- its stack is the address of an array -/
  thr : Thread Nat
  arrays : List (IdioArray Value)
  continuations : List Continuation
  deriving DecidableEq, Repr

/-- The loop of `idio_copy_pair` for a deep copy, which makes new pairs. -/
def copyPair : List Value → List Value
  | [] => []
  | h :: t => h :: copyPair t

/-- What a function on arrays leaves. -/
def arrayLeft {β : Type} : EStateM.Result Fault (IdioArray Value) β → Result (IdioArray Value)
  | .ok _ a => .ok a
  | .error err _ => .error err

namespace Machine

/-- The array at an address. -/
def arrayAt (m : Machine) (a : Nat) : Result (IdioArray Value) :=
  match m.arrays[a]? with
  | some arr => .ok arr
  | none => .error .undefined

/-- The machine after a function on the array of the stack. -/
def onStack {β : Type} (m : Machine) (f : ArrayM Value β) : Result Machine := do
  let stack ← m.arrayAt m.thr.stack
  let stack ← arrayLeft (f stack)
  .ok { m with arrays := m.arrays.set m.thr.stack stack }

/-- The stack of `idio_continuation`, the flags at that point, and the arrays. -/
def saveStack (m : Machine) :
    ContinuationKind → Result (SavedStack × ContinuationFlags × List (IdioArray Value))
  | .dc => do
      let stack ← m.arrayAt m.thr.stack
      .ok (.height stack.usize, .delimited, m.arrays)
  | .cc => do
      let stack ← m.arrayAt m.thr.stack
      let copy ← arrayLeft (IdioArray.copyArray id .shallow 0 stack)
      .ok (.array m.arrays.length, .none_, m.arrays ++ [copy])

/-- The fields that `idio_continuation` takes from the thread. -/
def saveState (m : Machine) (stack : SavedStack) (flags : ContinuationFlags) : Continuation where
  pc := m.thr.pc
  xi := m.thr.xi
  stack := stack
  flags := flags
  frame := m.thr.frame
  env := m.thr.env
  module := m.thr.module
  holes := copyPair m.thr.holes

/-- `idio_continuation`. -/
def continuation (m : Machine) (kind : ContinuationKind) : Result (Continuation × Machine) := do
  let (stack, flags, arrays) ← m.saveStack kind
  let k := { m.saveState stack flags with flags := .none_ }
  .ok (k, { m with arrays := arrays, continuations := m.continuations ++ [k] })

/-- The part of `idio_vm_restore_continuation_data` about the stack. -/
def restoreStack (m : Machine) (k : Continuation) : Result Machine :=
  match k.flags, k.stack with
  | .delimited, .height n => do
      let stack ← m.arrayAt m.thr.stack
      if stack.usize < n then .error .assertion
      else .ok { m with arrays := m.arrays.set m.thr.stack { stack with usize := n } }
  | .delimited, .array _ => .error .undefined
  | .none_, .array a => do
      let kStack ← m.arrayAt a
      m.onStack (IdioArray.duplicateArray id kStack kStack.usize .shallow)
  -- the size of a fixnum is asked for
  | .none_, .height _ => .error (.paramType "array")

/-- `idio_vm_restore_continuation_data`. -/
def restoreContinuationData (m : Machine) (k : Continuation) (val : Value) : Result Machine := do
  let m ← { m with thr := { m.thr with pc := k.pc, xi := k.xi } }.restoreStack k
  .ok { m with thr := { m.thr with frame := k.frame, env := k.env, module := k.module,
                                   holes := copyPair k.holes, val := val } }

end Machine

/-! ## Runs -/

/-- What a thread does that matters to its continuations. -/
inductive MachineOp where
  /-- the registers change, among them the holes -/
  | work (r : Registers) (xi : Nat)
  | push (v : Value)
  | pushN (vs : List Value)
  | pop
  /-- `%%call/uc` and `%%call/dc` -/
  | capture (kind : ContinuationKind)
  /-- the i-th continuation is invoked -/
  | invoke (i : Nat) (val : Value)
  deriving DecidableEq, Repr

/-- One of these. -/
def machineStep (m : Machine) : MachineOp → Result Machine
  | .work r xi => .ok { m with thr := { toRegisters := r, xi := xi, stack := m.thr.stack } }
  | .push v => m.onStack (IdioArray.push v)
  | .pushN vs => m.onStack (IdioArray.pushN vs)
  | .pop => m.onStack IdioArray.pop
  | .capture kind => do
      let (_, m) ← m.continuation kind
      .ok m
  | .invoke i val =>
      match m.continuations[i]? with
      | some k => m.restoreContinuationData k val
      | none => .error .undefined

/-- A run. -/
def machineRun : List MachineOp → Machine → Result Machine
  | [], m => .ok m
  | op :: ops, m => do machineRun ops (← machineStep m op)

/-! ## What a run keeps -/

/-- At `a` there is the copy of a stack `l`, which is not the thread's and fits in its
allocation. -/
def Kept (m : Machine) (a : Nat) (l : List Value) : Prop :=
  a ≠ m.thr.stack ∧ (∃ arr, m.arrays[a]? = some arr ∧ arr.Holds l) ∧
    ∃ stack, m.arrays[m.thr.stack]? = some stack ∧ l.length ≤ stack.asize

/-- The stack of the thread is an array in order, and those of the continuations are
kept. -/
structure MachineOk (m : Machine) : Prop where
  stack : ∃ arr l, m.arrays[m.thr.stack]? = some arr ∧ arr.Holds l
  kept : ∀ k ∈ m.continuations, ∀ a, k.stack = .array a → ∃ l, Kept m a l
  flags : ∀ k ∈ m.continuations, k.flags = .none_

/-- Another thread state with the stack in the same place and the same array elsewhere. -/
theorem Kept.setStack {m m' : Machine} {a : Nat} {l : List Value} {stack stack' : IdioArray Value}
    (h : Kept m a l) (hthr : m'.thr.stack = m.thr.stack)
    (hstack : m.arrays[m.thr.stack]? = some stack) (hasize : stack.asize ≤ stack'.asize)
    (harrays : m'.arrays = m.arrays.set m.thr.stack stack') : Kept m' a l := by
  obtain ⟨hne, ⟨arr, harr, hholds⟩, s, hs, hfits⟩ := h
  have hlt : m.thr.stack < m.arrays.length := (List.getElem?_eq_some_iff.mp hstack).1
  rw [hstack] at hs
  cases hs
  refine ⟨by rw [hthr]; exact hne, ⟨arr, ?_, hholds⟩, stack', ?_, by omega⟩
  · rw [harrays, List.getElem?_set_ne (Ne.symm hne)]
    exact harr
  · rw [harrays, hthr, List.getElem?_set_self hlt]

/-- What a step that changes the array of the stack keeps. -/
theorem MachineOk.setStack {m m' : Machine} {l : List Value} {stack stack' : IdioArray Value}
    (h : MachineOk m) (hthr : m'.thr.stack = m.thr.stack)
    (hstack : m.arrays[m.thr.stack]? = some stack) (hholds : stack'.Holds l)
    (hasize : stack.asize ≤ stack'.asize) (harrays : m'.arrays = m.arrays.set m.thr.stack stack')
    (hk : m'.continuations = m.continuations) : MachineOk m' := by
  have hlt : m.thr.stack < m.arrays.length := (List.getElem?_eq_some_iff.mp hstack).1
  refine ⟨⟨stack', l, ?_, hholds⟩, fun k hmem a ha => ?_, fun k hmem => ?_⟩
  · rw [harrays, hthr, List.getElem?_set_self hlt]
  · rw [hk] at hmem
    obtain ⟨lk, hkept⟩ := h.kept k hmem a ha
    exact ⟨lk, hkept.setStack hthr hstack hasize harrays⟩
  · rw [hk] at hmem
    exact h.flags k hmem

/-- A function on stacks. -/
theorem onStack_ok {β : Type} {f : ArrayM Value β} {m m' : Machine} (h : MachineOk m)
    (hf : ∀ arr l, IdioArray.Holds arr l → ∃ v l', IdioArray.LeavesStack (f arr) v l' arr.asize)
    (hrun : m.onStack f = .ok m') : MachineOk m' ∧ ∀ a l, Kept m a l → Kept m' a l := by
  obtain ⟨arr, l, harr, hholds⟩ := h.stack
  obtain ⟨v, l', arr', hcall, hholds', hasize⟩ := hf arr l hholds
  have hm' : m.onStack f = .ok { m with arrays := m.arrays.set m.thr.stack arr' } := by
    simp only [Machine.onStack, Machine.arrayAt, harr, ok_bind, hcall, arrayLeft]
  rw [hm'] at hrun
  cases hrun
  exact ⟨h.setStack rfl harr hholds' hasize rfl rfl,
    fun a lk hk => hk.setStack rfl harr hasize rfl⟩

/-- The part of a machine's state that a continuation saves. -/
def Continuation.Saves (k : Continuation) (m : Machine) : Prop :=
  k.pc = m.thr.pc ∧ k.xi = m.thr.xi ∧ k.frame = m.thr.frame ∧ k.env = m.thr.env ∧
    k.module = m.thr.module ∧ k.holes = m.thr.holes

theorem copyPair_eq (l : List Value) : copyPair l = l := by
  induction l with
  | nil => rfl
  | cons h t ih => rw [copyPair, ih]

/-- Capturing a continuation. -/
theorem continuation_ok {m : Machine} (h : MachineOk m) (kind : ContinuationKind) :
    ∃ k m', m.continuation kind = .ok (k, m') ∧ k.Saves m ∧ k.flags = .none_ ∧ MachineOk m' ∧
      (∀ a l, Kept m a l → Kept m' a l) ∧
      match kind with
      | .cc => ∃ a l arr, k.stack = .array a ∧ Kept m' a l ∧ m.arrays[m.thr.stack]? = some arr ∧
          arr.Holds l
      | .dc => ∃ n, k.stack = .height n := by
  obtain ⟨arr, l, harr, hholds⟩ := h.stack
  have hholes := copyPair_eq m.thr.holes
  cases kind with
  | dc =>
    refine ⟨{ m.saveState (.height arr.usize) .delimited with flags := .none_ },
      { m with continuations := m.continuations ++
          [{ m.saveState (.height arr.usize) .delimited with flags := .none_ }] }, ?_,
      ⟨rfl, rfl, rfl, rfl, rfl, hholes⟩, rfl, ⟨⟨arr, l, harr, hholds⟩, ?_, ?_⟩,
      fun a lk hk => hk, arr.usize, rfl⟩
    · simp only [Machine.continuation, Machine.saveStack, Machine.arrayAt, harr, ok_bind]
    · intro k hmem a ha
      obtain hmem | hmem := List.mem_append.mp hmem
      · exact h.kept k hmem a ha
      · rw [List.mem_singleton.mp hmem] at ha
        cases ha
    · intro k hmem
      obtain hmem | hmem := List.mem_append.mp hmem
      · exact h.flags k hmem
      · rw [List.mem_singleton.mp hmem]
  | cc =>
    obtain ⟨copy, hcopy, hcopied⟩ := hholds.copy id
    have hlt : m.thr.stack < m.arrays.length := (List.getElem?_eq_some_iff.mp harr).1
    have hstack : (m.arrays ++ [copy])[m.thr.stack]? = some arr := by
      rw [List.getElem?_append_left hlt]
      exact harr
    have keeps : ∀ {cs : List Continuation} {a lk}, Kept m a lk →
        Kept { m with arrays := m.arrays ++ [copy], continuations := cs } a lk := by
      rintro cs a lk ⟨hne, ⟨ak, hak, hlk⟩, s, hs, hfits⟩
      rw [harr] at hs
      cases hs
      refine ⟨hne, ⟨ak, ?_, hlk⟩, arr, hstack, hfits⟩
      show (m.arrays ++ [copy])[a]? = some ak
      rw [List.getElem?_append_left (List.getElem?_eq_some_iff.mp hak).1]
      exact hak
    have hnew : ∀ {cs : List Continuation},
        Kept { m with arrays := m.arrays ++ [copy], continuations := cs } m.arrays.length l := by
      intro cs
      refine ⟨by show m.arrays.length ≠ m.thr.stack; omega, ⟨copy, ?_, hcopied⟩, arr, hstack, ?_⟩
      · exact List.getElem?_concat_length
      · have hsize := hholds.size
        have hfits := hholds.fits
        omega
    refine ⟨{ m.saveState (.array m.arrays.length) .none_ with flags := .none_ },
      { m with arrays := m.arrays ++ [copy], continuations := m.continuations ++
          [{ m.saveState (.array m.arrays.length) .none_ with flags := .none_ }] }, ?_,
      ⟨rfl, rfl, rfl, rfl, rfl, hholes⟩, rfl, ⟨⟨arr, l, hstack, hholds⟩, ?_, ?_⟩,
      fun a lk hk => keeps hk, m.arrays.length, l, arr, rfl, hnew, harr, hholds⟩
    · simp only [Machine.continuation, Machine.saveStack, Machine.arrayAt, harr, ok_bind, hcopy,
        arrayLeft]
    · intro k hmem a ha
      obtain hmem | hmem := List.mem_append.mp hmem
      · obtain ⟨lk, hk⟩ := h.kept k hmem a ha
        exact ⟨lk, keeps hk⟩
      · rw [List.mem_singleton.mp hmem] at ha
        cases ha
        exact ⟨l, hnew⟩
    · intro k hmem
      obtain hmem | hmem := List.mem_append.mp hmem
      · exact h.flags k hmem
      · rw [List.mem_singleton.mp hmem]

/-- Restoring a continuation that has a copy. -/
theorem restore_ok {m : Machine} (h : MachineOk m) {k : Continuation} {a : Nat} {l : List Value}
    (hflags : k.flags = .none_) (hstack : k.stack = .array a) (hkept : Kept m a l) (val : Value) :
    ∃ m' now, m.restoreContinuationData k val = .ok m' ∧ MachineOk m' ∧
      (∀ a l, Kept m a l → Kept m' a l) ∧ k.Saves m' ∧ m'.thr.val = val ∧
      m'.arrays[m'.thr.stack]? = some now ∧ now.Holds l := by
  obtain ⟨arr, l₀, harr, hholds⟩ := h.stack
  obtain ⟨hne, ⟨copy, hcopy, hcopied⟩, s, hs, hfits⟩ := hkept
  rw [harr] at hs
  cases hs
  obtain ⟨now, hdup, hnow, hasize⟩ := hholds.duplicate hcopied id hfits
  have hlt : m.thr.stack < m.arrays.length := (List.getElem?_eq_some_iff.mp harr).1
  have hholes := copyPair_eq k.holes
  refine ⟨{ m with
      thr := { m.thr with pc := k.pc, xi := k.xi, frame := k.frame, env := k.env,
                          module := k.module, holes := copyPair k.holes, val := val },
      arrays := m.arrays.set m.thr.stack now }, now, ?_, ?_, ?_, ?_, rfl, ?_, hnow⟩
  · simp only [Machine.restoreContinuationData, Machine.restoreStack, hflags, hstack,
      Machine.arrayAt, hcopy, ok_bind, Machine.onStack, harr, hdup, arrayLeft]
  · exact h.setStack rfl harr hnow hasize rfl rfl
  · exact fun a lk hk => hk.setStack rfl harr hasize rfl
  · exact ⟨rfl, rfl, rfl, rfl, rfl, hholes.symm⟩
  · exact List.getElem?_set_self hlt

/-- One step. -/
theorem machineStep_ok {m m' : Machine} {op : MachineOp} (h : MachineOk m)
    (hstep : machineStep m op = .ok m') : MachineOk m' ∧ ∀ a l, Kept m a l → Kept m' a l := by
  cases op with
  | work r xi =>
    cases hstep
    obtain ⟨arr, l, harr, hholds⟩ := h.stack
    exact ⟨⟨⟨arr, l, harr, hholds⟩, h.kept, h.flags⟩, fun a l hk => hk⟩
  | push v => exact onStack_ok h (fun arr l hl => ⟨_, _, hl.push v⟩) hstep
  | pushN vs => exact onStack_ok h (fun arr l hl => ⟨_, _, hl.pushN vs⟩) hstep
  | pop => exact onStack_ok h (fun arr l hl => ⟨_, _, hl.pop⟩) hstep
  | capture kind =>
    obtain ⟨k, m₁, hrun, -, -, hok, hkeeps, -⟩ := continuation_ok h kind
    simp only [machineStep, hrun, ok_bind] at hstep
    cases hstep
    exact ⟨hok, hkeeps⟩
  | invoke i val =>
    simp only [machineStep] at hstep
    split at hstep
    · rename_i k hk
      have hmem : k ∈ m.continuations := List.mem_of_getElem? hk
      cases hstack : k.stack with
      | array a =>
        obtain ⟨l, hkept⟩ := h.kept k hmem a hstack
        obtain ⟨m₁, now, hrun, hok, hkeeps, -⟩ :=
          restore_ok h (h.flags k hmem) hstack hkept val
        rw [hrun] at hstep
        cases hstep
        exact ⟨hok, hkeeps⟩
      | height n =>
        simp only [Machine.restoreContinuationData, Machine.restoreStack, h.flags k hmem,
          hstack] at hstep
        cases hstep
    · cases hstep

theorem machineRun_ok {m m' : Machine} {ops : List MachineOp} (h : MachineOk m)
    (hrun : machineRun ops m = .ok m') : MachineOk m' ∧ ∀ a l, Kept m a l → Kept m' a l := by
  induction ops generalizing m with
  | nil =>
    cases hrun
    exact ⟨h, fun a l hk => hk⟩
  | cons op ops ih =>
    rw [machineRun] at hrun
    cases hstep : machineStep m op with
    | error e =>
      rw [hstep] at hrun
      cases hrun
    | ok mid =>
      rw [hstep] at hrun
      obtain ⟨hmid, hkeeps⟩ := machineStep_ok h hstep
      obtain ⟨hok, hkeeps'⟩ := ih hmid hrun
      exact ⟨hok, fun a l hk => hkeeps' a l (hkeeps a l hk)⟩

/-! ## Reinstating -/

/-- The machine `m'` is in the state of `m`, with `val` in VAL. -/
structure Reinstated (m m' : Machine) (val : Value) : Prop where
  pc : m'.thr.pc = m.thr.pc
  xi : m'.thr.xi = m.thr.xi
  frame : m'.thr.frame = m.thr.frame
  env : m'.thr.env = m.thr.env
  module : m'.thr.module = m.thr.module
  holes : m'.thr.holes = m.thr.holes
  val : m'.thr.val = val
  stack : ∃ captured now, m.arrays[m.thr.stack]? = some captured ∧
    m'.arrays[m'.thr.stack]? = some now ∧ now.usedSlots = captured.usedSlots ∧
    now.usize = captured.usize ∧ now.usize ≤ now.asize

/-- **Continuations.**  A continuation that is captured in any state of a thread can be
invoked after any run, in which it may have been invoked before: doing so reinstates
that state exactly if it was captured by `%%call/uc`. -/
theorem continuation_reinstates {start m : Machine} {before : List MachineOp}
    {arr : IdioArray Value} {l : List Value} (hstack : start.arrays[start.thr.stack]? = some arr)
    (hstart : arr.Refines l) (hnew : start.continuations = [])
    (hbefore : machineRun before start = .ok m) (kind : ContinuationKind) :
    ∃ k m₁, m.continuation kind = .ok (k, m₁) ∧
      ∀ after m₂ val, machineRun after m₁ = .ok m₂ →
        ((∃ m₃, m₂.restoreContinuationData k val = .ok m₃ ∧ Reinstated m m₃ val) ↔
          kind = .cc) := by
  have hok : MachineOk start := by
    refine ⟨⟨arr, l, hstack, hstart.holds⟩, fun k hmem => ?_, fun k hmem => ?_⟩
    · rw [hnew] at hmem
      cases hmem
    · rw [hnew] at hmem
      cases hmem
  obtain ⟨hm, -⟩ := machineRun_ok hok hbefore
  obtain ⟨k, m₁, hcapture, hsaves, hflags, hm₁, -, hkind⟩ := continuation_ok hm kind
  refine ⟨k, m₁, hcapture, fun after m₂ val hafter => ?_⟩
  obtain ⟨hm₂, hkeeps⟩ := machineRun_ok hm₁ hafter
  cases kind with
  | dc =>
    obtain ⟨n, hn⟩ := hkind
    constructor
    · rintro ⟨m₃, hrestore, -⟩
      simp only [Machine.restoreContinuationData, Machine.restoreStack, hflags, hn] at hrestore
      cases hrestore
    · intro h
      cases h
  | cc =>
    obtain ⟨a, lk, captured, ha, hkept, hcaptured, hlk⟩ := hkind
    obtain ⟨m₃, now, hrestore, -, -, hsaves₃, hval, hnow, hnowHolds⟩ :=
      restore_ok hm₂ hflags ha (hkeeps a lk hkept) val
    obtain ⟨hpc, hxi, hframe, henv, hmodule, hholes⟩ := hsaves
    obtain ⟨hpc₃, hxi₃, hframe₃, henv₃, hmodule₃, hholes₃⟩ := hsaves₃
    refine ⟨fun _ => rfl, fun _ => ⟨m₃, hrestore, hpc₃.symm.trans hpc, hxi₃.symm.trans hxi,
      hframe₃.symm.trans hframe, henv₃.symm.trans henv, hmodule₃.symm.trans hmodule,
      hholes₃.symm.trans hholes, hval, captured, now, hcaptured, hnow, ?_, ?_, hnowHolds.fits⟩⟩
    · rw [hnowHolds.usedSlots_eq, hlk.usedSlots_eq]
    · rw [hnowHolds.size, hlk.size]

/-! ## A run with continuations -/

/-- A thread with an empty stack. -/
def newMachine : Machine where
  thr := { toRegisters := registersWith .nil, xi := 0, stack := 0 }
  arrays := [IdioArray.arrayDv 2 .nil]
  continuations := []

/-- Two values are pushed. -/
def pushTwo : List MachineOp := [.push (.fixnum 1), .push (.fixnum 2)]

/-- The state that leaves. -/
def capturedMachine : Machine := (machineRun pushTwo newMachine).toOption.getD newMachine

/-- More is pushed, the first continuation is invoked, and more is popped than was
pushed since. -/
def invokeOnce : List MachineOp :=
  [.pushN [.fixnum 3, .fixnum 4], .work (registersWith (.fixnum 5)) 1, .invoke 0 (.fixnum 6),
    .push (.fixnum 7), .pop, .pop, .push (.fixnum 8)]

/-- Capture, then that run. -/
def invokedMachine : Machine :=
  (machineRun (.capture .cc :: invokeOnce) capturedMachine).toOption.getD newMachine

theorem continuation_reinstates_again :
    ∃ k m₁, capturedMachine.continuation .cc = .ok (k, m₁) ∧
      machineRun invokeOnce m₁ = .ok invokedMachine ∧
      ∃ m₃, invokedMachine.restoreContinuationData k (.fixnum 9) = .ok m₃ ∧
        Reinstated capturedMachine m₃ (.fixnum 9) := by
  have hbefore : machineRun pushTwo newMachine = .ok capturedMachine := by decide
  have hafter : machineRun (.capture .cc :: invokeOnce) capturedMachine = .ok invokedMachine := by
    decide +kernel
  have hstack : newMachine.arrays[newMachine.thr.stack]? = some (IdioArray.arrayDv 2 .nil) := rfl
  obtain ⟨k, m₁, hcapture, hinvoke⟩ := continuation_reinstates hstack
    (IdioArray.arrayDv_refines 2 Value.nil) rfl hbefore .cc
  have hstep : machineStep capturedMachine (.capture .cc) = .ok m₁ := by
    simp only [machineStep, hcapture, ok_bind]
  rw [machineRun, hstep] at hafter
  exact ⟨k, m₁, hcapture, hafter, (hinvoke invokeOnce invokedMachine (.fixnum 9) hafter).mpr rfl⟩

/-- A continuation captured by `%%call/dc` cannot be invoked. -/
theorem delimited_continuation_fails :
    ∃ k m₁, capturedMachine.continuation .dc = .ok (k, m₁) ∧ m₁.thr.stack = 0 ∧
      m₁.restoreContinuationData k (.fixnum 9) = .error (.paramType "array") := by
  refine ⟨{ capturedMachine.saveState (.height 2) .delimited with flags := .none_ },
    { capturedMachine with continuations :=
        [{ capturedMachine.saveState (.height 2) .delimited with flags := .none_ }] }, ?_, ?_, ?_⟩
  · decide
  · decide
  · decide

end Idio
