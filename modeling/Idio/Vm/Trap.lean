/-
  Vm/Trap.lean --- which traps a condition is offered to.

  A thread starts with a base trap, whose stored index is its own, and the default
  traps (`threadInit`).  From then on the traps are `InOrder`: the stored index of every
  trap is that of a trap pushed before it, or of the base trap.  A trap that
  `idio_vm_raise_condition` has pushed again counts as pushed where PUSH-TRAP pushed
  it, so that the order is one of the traps and not of their copies.

  While a handler runs, the copy of the trap after its own is on the stack.  `Guarded`
  says what the traps above that copy can lead to: traps the handler has pushed, traps
  older than its own, and the base trap.

  `trap_dispatch` is the result about runs.  It leaves out a condition raised with
  `reraise` while a handler runs: that one starts at the trap with the largest stored
  index, which is the trap of the handler itself (`reraise_reenters`).
-/
import Idio.Lib.Chain
import Idio.Vm.Refinement

set_option autoImplicit false

namespace Idio

/-! ## A new thread -/

/-- The constants and the handlers of the default traps. -/
structure DefaultTraps where
  /-- `idio_condition_condition_type_gci` -/
  conditionGci : Int
  rcseGci : Int
  racseGci : Int
  sigchldGci : Int
  /-- `idio_condition_reset_condition_handler` -/
  reset : Value
  /-- `idio_condition_restart_condition_handler` -/
  restart : Value
  /-- `idio_condition_default_condition_handler` -/
  default_ : Value
  /-- `idio_condition_default_rcse_handler` -/
  rcse : Value
  /-- `idio_condition_default_racse_handler` -/
  racse : Value
  /-- `idio_condition_default_SIGCHLD_handler` -/
  sigchld : Value
  deriving DecidableEq, Repr

section Init

variable (ctx : Ctx) (d : DefaultTraps)

/-- The base trap of `idio_vm_thread_init`, where there is no trap yet. -/
def pushBaseTrap (thr : Thread Stack) (tsp : Int) : Thread Stack :=
  if tsp < 1 then
    thr.pushN [.fixnum (thr.stack.length + 3), .fixnum d.conditionGci, d.reset,
      Marker.trap.value]
  else thr

/-- `idio_vm_thread_init`. -/
def threadInit (thr : Thread Stack) : Result (Thread Stack) := do
  let tsp ← findStackMarker thr.stack .trap 0
  if tsp > thr.stack.length then .error .assertion
  else do
    let thr ← pushTrap ctx (pushBaseTrap d thr tsp) d.restart (.fixnum d.conditionGci) 0
    let thr ← pushTrap ctx thr d.default_ (.fixnum d.conditionGci) 0
    let thr ← pushTrap ctx thr d.rcse (.fixnum d.rcseGci) 0
    let thr ← pushTrap ctx thr d.racse (.fixnum d.racseGci) 0
    pushTrap ctx thr d.sigchld (.fixnum d.sigchldGci) 0

/-- PUSH-TRAP of a trap that is pushed for the first time. -/
def pushNewTrap (thr : Thread (List Record)) (handler : Value) (fgci : Int) :
    Option (Thread (List Record)) :=
  pushTrapRecord ctx thr handler fgci 0 (height thr.stack + 3)

/-- `idio_vm_thread_init`, on records. -/
def threadInitRecords (thr : Thread (List Record)) : Option (Thread (List Record)) := do
  let reset ← ordinary? d.reset
  let thr := if lastMarker .trap thr.stack < 1 then
      thr.pushRecord
        (.trap ⟨height thr.stack + 3, d.conditionGci, reset, height thr.stack + 3⟩)
    else thr
  let thr ← pushNewTrap ctx thr d.restart d.conditionGci
  let thr ← pushNewTrap ctx thr d.default_ d.conditionGci
  let thr ← pushNewTrap ctx thr d.rcse d.rcseGci
  let thr ← pushNewTrap ctx thr d.racse d.racseGci
  pushNewTrap ctx thr d.sigchld d.sigchldGci

theorem threadInit_refines {thr thr' : Thread (List Record)}
    (h : threadInitRecords ctx d thr = some thr') :
    threadInit ctx d thr.concrete = .ok thr'.concrete := by
  simp only [threadInitRecords, Option.bind_eq_bind, Option.bind_eq_some_iff] at h
  obtain ⟨reset, hreset, thr1, h1, thr2, h2, thr3, h3, thr4, h4, h5⟩ := h
  have hfind : findStackMarker thr.concrete.stack .trap 0 =
      .ok (lastMarker .trap thr.stack) := findStackMarker_layout _ _
  have hlen : thr.concrete.stack.length = height thr.stack := layout_length _
  have hlt := lastMarker_lt .trap thr.stack
  have hbase : pushBaseTrap d thr.concrete (lastMarker .trap thr.stack) =
      (if lastMarker .trap thr.stack < 1 then
        thr.pushRecord
          (.trap ⟨height thr.stack + 3, d.conditionGci, reset, height thr.stack + 3⟩)
      else thr).concrete := by
    unfold pushBaseTrap
    split
    · rw [Thread.concrete_push, hlen]
      simp only [Record.slots, ordinary?_eq_some hreset]
    · rfl
  unfold threadInit
  rw [hfind]
  simp only [ok_bind]
  rw [if_neg (by omega), hbase, pushTrap_refines h1]
  simp only [ok_bind]
  rw [pushTrap_refines h2]
  simp only [ok_bind]
  rw [pushTrap_refines h3]
  simp only [ok_bind]
  rw [pushTrap_refines h4]
  exact pushTrap_refines h5

end Init

/-! ## Where traps are -/

variable {p : Int} {t : TrapRecord}

theorem trapAt_range {rs : List Record} (h : trapAt rs p = some t) :
    3 ≤ p ∧ p < height rs := by
  obtain ⟨hlo, hhi, -⟩ := trapAt_slots [] h
  exact ⟨hlo, hhi⟩

theorem trapAt_cons {r : Record} (h : r.marker ≠ some .trap) (rs : List Record) :
    trapAt (r :: rs) = trapAt rs := by
  cases r with
  | trap t => exact absurd rfl h
  | _ => rfl

theorem trapAt_push_self (t : TrapRecord) (rs : List Record) :
    trapAt (.trap t :: rs) (height rs + 3) = some t := by
  rw [trapAt, if_pos rfl]

theorem trapAt_push_of_some {rs : List Record} {u : TrapRecord} (t : TrapRecord)
    (h : trapAt rs p = some u) : trapAt (.trap t :: rs) p = some u := by
  obtain ⟨-, hlt⟩ := trapAt_range h
  rw [trapAt, if_neg (by omega)]
  exact h

theorem trapAt_push_cases {rs : List Record} {u : TrapRecord}
    (h : trapAt (.trap t :: rs) p = some u) :
    p = height rs + 3 ∧ u = t ∨ trapAt rs p = some u := by
  rw [trapAt] at h
  split at h
  · rename_i hp
    exact .inl ⟨hp, (Option.some.inj h).symm⟩
  · exact .inr h

/-- What is pushed does not hide a trap. -/
theorem trapAt_append (above rs : List Record) (h : p < height rs) :
    trapAt (above ++ rs) p = trapAt rs p := by
  induction above with
  | nil => rfl
  | cons r above ih =>
    have hle := height_append_le above rs
    rw [List.cons_append]
    cases r with
    | trap t =>
      rw [trapAt, if_neg (by omega)]
      exact ih
    | _ => exact ih

theorem Record.marker_ne_trap {r : Record} (h : r.saves = true) : r.marker ≠ some .trap := by
  intro hm
  obtain ⟨t, rfl⟩ := Record.eq_trap hm
  cases h

theorem SavedOn.trapAt {rs rs' : List Record} (h : SavedOn rs rs') :
    Idio.trapAt rs' = Idio.trapAt rs := by
  obtain ⟨saved, rfl, hsaved⟩ := h
  induction saved with
  | nil => rfl
  | cons r saved ih =>
    have hr := Record.marker_ne_trap (hsaved r (List.mem_cons_self ..))
    rw [List.cons_append, trapAt_cons hr]
    exact ih fun r hr => hsaved r (List.mem_cons_of_mem _ hr)

theorem SavedOn.lastMarker_trap {rs rs' : List Record} (h : SavedOn rs rs') :
    lastMarker .trap rs' = lastMarker .trap rs := by
  obtain ⟨saved, rfl, hsaved⟩ := h
  induction saved with
  | nil => rfl
  | cons r saved ih =>
    have hr := Record.marker_ne_trap (hsaved r (List.mem_cons_self ..))
    rw [List.cons_append, lastMarker, if_neg hr]
    exact ih fun r hr => hsaved r (List.mem_cons_of_mem _ hr)

theorem trapAt_assign (kind : BindingKind) (gvi : Nat) (v : OrdinaryValue) (rs : List Record) :
    trapAt (assign kind gvi v rs) = trapAt rs := by
  induction rs with
  | nil => rfl
  | cons r rs ih =>
    cases r with
    | binding k g val =>
      rw [assign]
      split
      · rfl
      · exact ih
    | trap t =>
      funext p
      simp only [assign, trapAt, assign_height, ih]
    | _ => exact ih

theorem lastMarker_trap (t : TrapRecord) (rs : List Record) :
    lastMarker .trap (.trap t :: rs) = height rs + 3 := by
  have hmarker : (Record.trap t).marker = some .trap := rfl
  rw [lastMarker, if_pos hmarker, height]
  simp only [Record.size]
  push_cast
  omega

/-- The newest trap is above every other. -/
theorem trapAt_lastMarker {rs : List Record} (h : trapAt rs p = some t) :
    p ≤ lastMarker .trap rs ∧ ∃ u, trapAt rs (lastMarker .trap rs) = some u := by
  induction rs with
  | nil => cases h
  | cons r rs ih =>
    by_cases hr : r.marker = some .trap
    · obtain ⟨u, rfl⟩ := Record.eq_trap hr
      obtain ⟨-, hlt⟩ := trapAt_range h
      simp only [height, Record.size] at hlt
      rw [lastMarker_trap]
      exact ⟨by push_cast at hlt; omega, u, trapAt_push_self u rs⟩
    · rw [trapAt_cons hr] at h ⊢
      rw [lastMarker, if_neg hr]
      exact ih h

/-- The search for the largest stored index finds a trap, if any index is large enough. -/
theorem maxTrap_trapAt (rs : List Record) (max maxNext : Int) :
    (maxTrap rs max maxNext = max ∧ ∀ p t, trapAt rs p = some t → t.next ≤ maxNext) ∨
      ∃ t, trapAt rs (maxTrap rs max maxNext) = some t := by
  induction rs generalizing max maxNext with
  | nil => exact .inl ⟨rfl, fun p t h => by cases h⟩
  | cons r rs ih =>
    by_cases hr : r.marker = some .trap
    · obtain ⟨u, rfl⟩ := Record.eq_trap hr
      rw [maxTrap]
      split
      · obtain ⟨hmax, -⟩ | ⟨t, ht⟩ := ih (height rs + 3) u.next
        · rw [hmax]
          exact .inr ⟨u, trapAt_push_self u rs⟩
        · exact .inr ⟨t, trapAt_push_of_some u ht⟩
      · rename_i hle
        obtain ⟨hmax, hall⟩ | ⟨t, ht⟩ := ih max maxNext
        · refine .inl ⟨hmax, fun p t ht => ?_⟩
          obtain ⟨-, rfl⟩ | ht := trapAt_push_cases ht
          · omega
          · exact hall p t ht
        · exact .inr ⟨t, trapAt_push_of_some u ht⟩
    · have hmax : maxTrap (r :: rs) max maxNext = maxTrap rs max maxNext := by
        cases r with
        | trap u => exact absurd rfl hr
        | _ => rfl
      rw [hmax, trapAt_cons hr]
      exact ih max maxNext

/-! ## What a step does to the traps -/

/-- Whether an instruction raises a condition again. -/
def Instr.reraises : Instr → Bool
  | .raise _ _ _ reraise _ => reraise
  | _ => false

/-- The traps stay, some are popped, or one is pushed. -/
inductive TrapEffect (ctx : Ctx) (thr : Thread (List Record)) (rs' : List Record) :
    Instr → Prop where
  | keeps {i : Instr} (traps : trapAt rs' = trapAt thr.stack) : TrapEffect ctx thr rs' i
  | cuts {i : Instr} (suffix : rs' <:+ thr.stack) : TrapEffect ctx thr rs' i
  | pushes {fgci : Int} (handler : OrdinaryValue)
      (stack : rs' = .trap ⟨storedTrap (lastMarker .trap thr.stack), fgci, handler,
        height thr.stack + 3⟩ :: thr.stack) : TrapEffect ctx thr rs' (.pushTrap fgci)
  | raises {continuablep IHR reraise : Bool} {condition fr : Value} {sp : Int}
      {t next : TrapRecord} {saved return_ : List Record}
      (select : selectTrap ctx thr condition reraise = some (sp, t))
      (following : trapAt thr.stack t.next = some next)
      (savedOn : SavedOn thr.stack saved)
      (returnOn : ∀ r ∈ return_, r.saves = true)
      (stack : rs' = return_ ++ .trap (next.copy saved) :: saved) :
      TrapEffect ctx thr rs' (.raise continuablep condition IHR reraise fr)

variable {thr : Thread (List Record)}

theorem assignRecords_trapAt {kind : BindingKind} {thr' : Thread (List Record)} {gvi : Nat}
    {v : Value} {values values' : List Value}
    (h : assignRecords thr kind values gvi v = some (thr', values')) :
    trapAt thr'.stack = trapAt thr.stack := by
  simp only [assignRecords, Option.bind_eq_bind, Option.bind_eq_some_iff] at h
  obtain ⟨o, -, h⟩ := h
  split at h
  · cases h
    exact trapAt_assign kind gvi o thr.stack
  · split at h
    · cases h
      rfl
    · cases h

theorem recordStep_trapEffect {ctx : Ctx} {i : Instr} {vm vm' : Vm (List Record)}
    (h : recordStep ctx i vm = some vm') : TrapEffect ctx vm.thr vm'.thr.stack i := by
  have popped : ∀ {r : Record}, vm.thr.stack = r :: vm'.thr.stack →
      TrapEffect ctx vm.thr vm'.thr.stack i := by
    intro r hr
    exact .cuts ⟨[r], hr.symm⟩
  cases recordStep_effect h with
  | saves hi stack flag =>
    obtain hpush | ⟨saved, hpop, -⟩ := stack
    · exact .keeps hpush.trapAt
    · exact .cuts ⟨saved, hpop.symm⟩
  | pushDynamic v val eq =>
    subst eq
    exact .keeps rfl
  | pushEnviron v val eq =>
    subst eq
    exact .keeps rfl
  | popDynamic stack flag => exact popped stack
  | popEnviron stack flag => exact popped stack
  | dynamicSet assign eq =>
    subst eq
    exact .keeps (assignRecords_trapAt assign)
  | environSet assign eq =>
    subst eq
    exact .keeps (assignRecords_trapAt assign)
  | pushTrap handler eq =>
    subst eq
    exact .pushes handler rfl
  | popTrap stack flag => exact popped stack
  | pushEscaper frame val eq =>
    subst eq
    exact .keeps rfl
  | popEscaper stack flag => exact popped stack
  | escaperLabelRef found eq =>
    rename_i e below
    subst eq
    obtain ⟨-, above, hstack⟩ := findEscaper_eq_some found
    exact .cuts ⟨above ++ [.escaper e], by rw [hstack]; simp⟩
  | suppressRcse flag val eq =>
    subst eq
    exact .keeps rfl
  | popRcse stack restored => exact popped stack
  | pushAbort k stack reset => exact .keeps (by rw [stack]; rfl)
  | popAbort stack flag => exact popped stack
  | fork stack reset => exact .keeps (by rw [stack])
  | raise select following savedOn returnOn stack flag =>
    exact .raises select following savedOn returnOn stack

/-! ## The order of the traps -/

/-- The traps above a base trap at `b`: each is one that PUSH-TRAP pushed or a copy of
one, and leads to one pushed before it or to the base trap. -/
structure InOrder (b : Int) (rs : List Record) : Prop where
  base : ∃ t, trapAt rs b = some t ∧ t.next = b ∧ t.origin = b
  original : ∀ p t, trapAt rs p = some t → b ≤ t.origin ∧ t.origin ≤ p ∧
    ∃ o, trapAt rs t.origin = some o ∧ o.origin = t.origin ∧ o.fgci = t.fgci ∧
      o.handler = t.handler
  next : ∀ p t, trapAt rs p = some t → p = b ∧ t.next = b ∨
    t.next < p ∧ ∃ n, trapAt rs t.next = some n ∧ (n.origin < t.origin ∨ n.origin = b)

namespace InOrder

variable {b : Int} {rs rs' : List Record}

theorem congr (h : InOrder b rs) (hsame : trapAt rs' = trapAt rs) : InOrder b rs' := by
  obtain ⟨hbase, horiginal, hnext⟩ := h
  refine ⟨?_, ?_, ?_⟩
  · rw [hsame]
    exact hbase
  · rw [hsame]
    exact horiginal
  · rw [hsame]
    exact hnext

theorem cut (h : InOrder b rs) (hcut : rs' <:+ rs) (hb : b < height rs') : InOrder b rs' := by
  obtain ⟨above, rfl⟩ := hcut
  have lift : ∀ {p : Int} {t}, trapAt rs' p = some t → trapAt (above ++ rs') p = some t := by
    intro p t ht
    rw [trapAt_append above rs' (trapAt_range ht).2]
    exact ht
  have lower : ∀ {p : Int} {t}, p < height rs' → trapAt (above ++ rs') p = some t →
      trapAt rs' p = some t := by
    intro p t hp ht
    rw [← trapAt_append above rs' hp]
    exact ht
  refine ⟨?_, ?_, ?_⟩
  · obtain ⟨t, ht, hown⟩ := h.base
    exact ⟨t, lower hb ht, hown⟩
  · intro p t ht
    obtain ⟨hlo, hhi, o, ho, heq⟩ := h.original p t (lift ht)
    have hp := (trapAt_range ht).2
    exact ⟨hlo, hhi, o, lower (by omega) ho, heq⟩
  · intro p t ht
    have hp := (trapAt_range ht).2
    obtain hown | ⟨hlt, n, hn, horder⟩ := h.next p t (lift ht)
    · exact .inl hown
    · exact .inr ⟨hlt, n, lower (by omega) hn, horder⟩

/-- A trap pushed on traps that are in order. -/
theorem push (h : InOrder b rs) {t : TrapRecord}
    (horigin : t.origin = height rs + 3 ∨ ∃ p u, trapAt rs p = some u ∧ u.origin = t.origin ∧
      u.fgci = t.fgci ∧ u.handler = t.handler)
    (hnext : ∃ n, trapAt rs t.next = some n ∧ (n.origin < t.origin ∨ n.origin = b)) :
    InOrder b (.trap t :: rs) := by
  obtain ⟨base, hbase, hown⟩ := h.base
  refine ⟨⟨base, trapAt_push_of_some t hbase, hown⟩, ?_, ?_⟩
  · intro p u hu
    obtain ⟨rfl, rfl⟩ | hu := trapAt_push_cases hu
    · obtain hnew | ⟨q, v, hv, hvo, hvf, hvh⟩ := horigin
      · have hb := (trapAt_range hbase).2
        refine ⟨by omega, by omega, u, ?_, rfl, rfl, rfl⟩
        rw [hnew]
        exact trapAt_push_self u rs
      · obtain ⟨hlo, hhi, o, ho, hoo, hof, hoh⟩ := h.original q v hv
        have hq := (trapAt_range hv).2
        rw [hvo] at hlo hhi ho hoo
        exact ⟨hlo, by omega, o, trapAt_push_of_some u ho, hoo, hof.trans hvf, hoh.trans hvh⟩
    · obtain ⟨hlo, hhi, o, ho, heq⟩ := h.original p u hu
      exact ⟨hlo, hhi, o, trapAt_push_of_some t ho, heq⟩
  · intro p u hu
    obtain ⟨rfl, rfl⟩ | hu := trapAt_push_cases hu
    · obtain ⟨n, hn, horder⟩ := hnext
      have hlt := (trapAt_range hn).2
      exact .inr ⟨by omega, n, trapAt_push_of_some u hn, horder⟩
    · obtain hself | ⟨hlt, n, hn, horder⟩ := h.next p u hu
      · exact .inl hself
      · exact .inr ⟨hlt, n, trapAt_push_of_some t hn, horder⟩

variable {p : Int}

/-- Every stored index is that of a trap. -/
theorem next_trapAt (h : InOrder b rs) {t : TrapRecord} (ht : trapAt rs p = some t) :
    ∃ n, trapAt rs t.next = some n ∧ (n.origin < t.origin ∨ n.origin = b) := by
  obtain ⟨-, hown⟩ | ⟨-, hnext⟩ := h.next p t ht
  · obtain ⟨base, hbase, -, horigin⟩ := h.base
    exact ⟨base, hown ▸ hbase, .inr horigin⟩
  · exact hnext

/-- The newest trap. -/
theorem newest (h : InOrder b rs) :
    b ≤ lastMarker .trap rs ∧ ∃ t, trapAt rs (lastMarker .trap rs) = some t := by
  obtain ⟨base, hbase, -⟩ := h.base
  exact trapAt_lastMarker hbase

/-- PUSH-TRAP keeps the order. -/
theorem pushTrap (h : InOrder b rs) (fgci : Int) (handler : OrdinaryValue) :
    InOrder b (.trap ⟨storedTrap (lastMarker .trap rs), fgci, handler, height rs + 3⟩ :: rs) := by
  obtain ⟨-, t, ht⟩ := h.newest
  obtain ⟨hlo, hhi⟩ := trapAt_range ht
  obtain ⟨-, horigin, -⟩ := h.original _ t ht
  have hstored : storedTrap (lastMarker .trap rs) = lastMarker .trap rs := if_pos (by omega)
  rw [hstored]
  have hnewer : t.origin < (height rs : Int) + 3 := by omega
  exact h.push (.inl rfl) ⟨t, ht, .inl hnewer⟩

/-- The copy of a trap leads where the trap leads. -/
theorem copy_next (h : InOrder b rs) {n : TrapRecord} (hn : trapAt rs p = some n)
    (saved : List Record) : (n.copy saved).next = n.next := by
  obtain ⟨m, hm, -⟩ := h.next_trapAt hn
  obtain ⟨hlo, -⟩ := trapAt_range hm
  show storedTrap (if n.next ≠ 0 then n.next else _) = n.next
  rw [if_pos (by omega)]
  exact if_pos (by omega)

/-- Pushing a copy keeps the order. -/
theorem pushCopy (h : InOrder b rs) {n : TrapRecord} (hn : trapAt rs p = some n)
    (saved : List Record) : InOrder b (.trap (n.copy saved) :: rs) := by
  obtain ⟨m, hm, horder⟩ := h.next_trapAt hn
  refine h.push (.inr ⟨p, n, hn, rfl, rfl, rfl⟩) ⟨m, ?_, horder⟩
  rw [h.copy_next hn]
  exact hm

/-- One instruction keeps the order, if the base trap stays. -/
theorem step {ctx : Ctx} {i : Instr} {vm vm' : Vm (List Record)} (h : InOrder b vm.thr.stack)
    (hstep : recordStep ctx i vm = some vm') (hb : b < height vm'.thr.stack) :
    InOrder b vm'.thr.stack := by
  cases recordStep_trapEffect hstep with
  | keeps traps => exact h.congr traps
  | cuts suffix => exact h.cut suffix hb
  | pushes handler stack =>
    rw [stack]
    exact h.pushTrap _ handler
  | raises select following savedOn returnOn stack =>
    rename_i t n saved return_
    have hsaved : InOrder b saved := h.congr savedOn.trapAt
    have hn : trapAt saved t.next = some n := by
      rw [savedOn.trapAt]
      exact following
    have hreturn : SavedOn (.trap (n.copy saved) :: saved) vm'.thr.stack :=
      ⟨return_, stack, returnOn⟩
    exact (hsaved.pushCopy hn saved).congr hreturn.trapAt

end InOrder

/-! ## The walk -/

/-- The walk from a trap visits the traps that a condition is offered to. -/
theorem InOrder.walk {b : Int} {rs : List Record} (h : InOrder b rs) (ht : trapAt rs p = some t) :
    ∃ ts, Chain.Walk (trapAt rs) TrapRecord.next p ts ∧ ts.length ≤ height rs := by
  have hdescends : Chain.Descends (trapAt rs) TrapRecord.next := by
    intro q u hu
    obtain ⟨rfl, hown⟩ | ⟨hlt, n, hn, -⟩ := h.next q u hu
    · exact .inl hown
    · exact .inr ⟨hlt, n, hn⟩
  have hlo : ∀ q u, trapAt rs q = some u → 3 ≤ q := fun q u hu => (trapAt_range hu).1
  obtain ⟨ts, hwalk, hlen⟩ := Chain.walk_exists hdescends hlo ht
  have hhi := (trapAt_range ht).2
  exact ⟨ts, hwalk, by omega⟩

/-- What a trap without a next one gives, if it does not match. -/
def noMoreTraps : Fault := .panic "ivrc: no more TRAP handlers\n"

variable {ts : List (Int × TrapRecord)}

/-- The loop of `idio_vm_raise_condition` is the search along the walk. -/
theorem trapLoop_eq_firstMatch {isa : Value → Int → Result Bool} {rs : List Record}
    (h : Chain.Walk (trapAt rs) TrapRecord.next p ts) {fuel : Nat} (hfuel : ts.length ≤ fuel) :
    trapLoop isa (layout rs) fuel p =
      (Chain.firstMatch noMoreTraps (fun t => isa (.fixnum t.fgci) t.next) ts).map
        fun v => (v.1, v.2.handler.val) := by
  have unfolded : ∀ {q : Int} {t : TrapRecord} {n : Nat}, trapAt rs q = some t →
      trapLoop isa (layout rs) (n + 1) q = (isa (.fixnum t.fgci) t.next >>= fun found =>
        if found then .ok (q, t.handler.val)
        else if q = t.next then .error noMoreTraps
        else trapLoop isa (layout rs) n t.next) := by
    intro q t n ht
    obtain ⟨-, -, hhandler, hgci, hnext⟩ := trapAt_slots [] ht
    rw [List.nil_append] at hhandler hgci hnext
    rw [trapLoop, hhandler, hgci, hnext]
    rfl
  induction h generalizing fuel with
  | last ht hown =>
    obtain ⟨fuel, rfl⟩ : ∃ n, fuel = n + 1 := ⟨fuel - 1, by simp at hfuel; omega⟩
    rw [unfolded ht, Chain.firstMatch]
    cases isa _ _ with
    | error e => rfl
    | ok found =>
      cases found with
      | true => rfl
      | false =>
        rw [ok_bind, if_neg (by simp), if_pos hown.symm]
        rfl
  | step ht hother hrest ih =>
    simp only [List.length_cons] at hfuel
    obtain ⟨fuel, rfl⟩ : ∃ n, fuel = n + 1 := ⟨fuel - 1, by omega⟩
    rw [unfolded ht, Chain.firstMatch]
    cases isa _ _ with
    | error e => rfl
    | ok found =>
      cases found with
      | true => rfl
      | false =>
        rw [ok_bind, if_neg (by simp), if_neg (Ne.symm hother)]
        exact ih (by omega)

/-- Every visited record is a trap of the stack. -/
theorem trapAt_of_walk {rs : List Record} (h : Chain.Walk (trapAt rs) TrapRecord.next p ts) :
    ∀ v ∈ ts, trapAt rs v.1 = some v.2 := by
  have hall := Chain.Walk.forall (P := fun _ => True) (fun _ _ _ _ _ _ => trivial) h
    fun _ _ => trivial
  exact fun v hv => (hall v hv).1

/-- Where the search starts. -/
theorem InOrder.first {b : Int} {rs : List Record} (h : InOrder b rs) (reraise : Bool) :
    ∃ p t, firstTrapRecord rs reraise = some p ∧ trapAt rs p = some t ∧
      (reraise = false → p = lastMarker .trap rs) := by
  have start : ∀ {p t}, trapAt rs p = some t →
      (if p < 3 ∨ p ≥ (height rs : Int) then none else some p) = some p := by
    intro p t ht
    obtain ⟨hlo, hhi⟩ := trapAt_range ht
    exact if_neg (by omega)
  cases reraise with
  | false =>
    obtain ⟨-, t, ht⟩ := h.newest
    exact ⟨_, t, start ht, ht, fun _ => rfl⟩
  | true =>
    obtain ⟨-, hnone⟩ | ⟨t, ht⟩ := maxTrap_trapAt rs 0 0
    · obtain ⟨base, hbase, hown, -⟩ := h.base
      have hlo := (trapAt_range hbase).1
      have := hnone _ _ hbase
      omega
    · exact ⟨_, t, start ht, ht, fun h => by cases h⟩

/-- The traps that a condition is offered to, the newest first: where the search of
`idio_vm_raise_condition` starts, the walk, and that the search along it ends. -/
structure Offers (rs : List Record) (reraise : Bool) (p : Int) (ts : List (Int × TrapRecord)) :
    Prop where
  first : firstTrap (layout rs) reraise = .ok p
  newest : reraise = false → p = lastMarker .trap rs
  walk : Chain.Walk (trapAt rs) TrapRecord.next p ts
  next : ∀ v ∈ ts, 0 ≤ v.2.next ∧ v.2.next < height rs
  search : ∀ isa fuel, height rs ≤ fuel → trapLoop isa (layout rs) fuel p =
    (Chain.firstMatch noMoreTraps (fun t => isa (.fixnum t.fgci) t.next) ts).map
      fun v => (v.1, v.2.handler.val)

theorem InOrder.offers {b : Int} {rs : List Record} (h : InOrder b rs) (reraise : Bool) :
    ∃ p ts, Offers rs reraise p ts := by
  obtain ⟨p, t, hfirst, ht, hnewest⟩ := h.first reraise
  obtain ⟨ts, hwalk, hlen⟩ := h.walk ht
  refine ⟨p, ts, firstTrap_refines hfirst, hnewest, hwalk, fun v hv => ?_,
    fun isa fuel hfuel => trapLoop_eq_firstMatch hwalk (by omega)⟩
  obtain ⟨n, hn, -⟩ := h.next_trapAt (trapAt_of_walk hwalk v hv)
  obtain ⟨hlo, hhi⟩ := trapAt_range hn
  exact ⟨by omega, hhi⟩

theorem selectTrap_trapAt {ctx : Ctx} {condition : Value} {reraise : Bool} {v : Int × TrapRecord}
    (h : selectTrap ctx thr condition reraise = some v) :
    trapAt thr.stack v.1 = some v.2 := by
  simp only [selectTrap, Option.bind_eq_bind, Option.bind_eq_some_iff] at h
  obtain ⟨first, -, hwalk⟩ := h
  exact walkTraps_trapAt hwalk

/-- The trap that is selected. -/
theorem Offers.select {ctx : Ctx} {condition : Value} {reraise : Bool}
    (h : Offers thr.stack reraise p ts) {v : Int × TrapRecord}
    (hv : selectTrap ctx thr condition reraise = some v) :
    ∃ newer older, ts = newer ++ v :: older ∧
      trapIsa ctx thr.env condition (height thr.stack) (.fixnum v.2.fgci) v.2.next = .ok true ∧
      ∀ u ∈ newer, trapIsa ctx thr.env condition (height thr.stack) (.fixnum u.2.fgci) u.2.next =
        .ok false := by
  have hsplit := hv
  simp only [selectTrap, Option.bind_eq_bind, Option.bind_eq_some_iff] at hsplit
  obtain ⟨first, hfirst, hwalk⟩ := hsplit
  have hp : first = p := by
    have := firstTrap_refines hfirst
    rw [h.first] at this
    exact (Except.ok.inj this).symm
  subst hp
  have hloop := trapLoop_layout hwalk
  rw [h.search _ _ (Nat.le_succ _)] at hloop
  cases hfound : Chain.firstMatch noMoreTraps (fun t => trapIsa ctx thr.env condition
      (height thr.stack) (.fixnum t.fgci) t.next) ts with
  | error e =>
    rw [hfound] at hloop
    cases hloop
  | ok u =>
    rw [hfound] at hloop
    obtain ⟨hidx, -⟩ := Prod.mk.inj (Except.ok.inj hloop)
    obtain ⟨newer, older, hts, hmatch, hnewer⟩ := Chain.firstMatch_eq_ok hfound
    have hut := trapAt_of_walk h.walk u (by rw [hts]; simp)
    have hvt := selectTrap_trapAt hv
    have huv : u = v := by
      rw [hidx, hvt] at hut
      exact Prod.ext hidx (Option.some.inj hut).symm
    subst huv
    exact ⟨newer, older, hts, hmatch, hnewer⟩

/-! ## While a handler runs -/

/-- A trap that a handler may give a condition to: one pushed above the index `k`, one
pushed below `s`, or the base trap. -/
def Outside (k s b : Int) (t : TrapRecord) : Prop := k < t.origin ∨ t.origin < s ∨ t.origin = b

/-- The traps from the copy at `k` up, and all that they lead to, are such traps. -/
structure Guarded (k s b : Int) (rs : List Record) : Prop where
  top : ∃ t, trapAt rs k = some t
  above : ∀ p t, k ≤ p → trapAt rs p = some t → Outside k s b t
  closed : ∀ p t u, trapAt rs p = some t → Outside k s b t → trapAt rs t.next = some u →
    Outside k s b u

namespace Guarded

variable {k s b : Int} {rs rs' : List Record}

theorem congr (h : Guarded k s b rs) (hsame : trapAt rs' = trapAt rs) : Guarded k s b rs' := by
  obtain ⟨htop, habove, hclosed⟩ := h
  refine ⟨?_, ?_, ?_⟩
  · rw [hsame]
    exact htop
  · rw [hsame]
    exact habove
  · rw [hsame]
    exact hclosed

theorem cut (h : Guarded k s b rs) (hcut : rs' <:+ rs) (hk : k < height rs') :
    Guarded k s b rs' := by
  obtain ⟨above, rfl⟩ := hcut
  have lift : ∀ {p : Int} {t}, trapAt rs' p = some t → trapAt (above ++ rs') p = some t := by
    intro p t ht
    rw [trapAt_append above rs' (trapAt_range ht).2]
    exact ht
  obtain ⟨t, ht⟩ := h.top
  refine ⟨⟨t, ?_⟩, fun p t hp ht => h.above p t hp (lift ht),
    fun p t u ht hout hu => h.closed p t u (lift ht) hout (lift hu)⟩
  rw [← trapAt_append above rs' hk]
  exact ht

theorem push (h : Guarded k s b rs) {t : TrapRecord}
    (hout : Outside k s b t) (hnext : ∀ n, trapAt rs t.next = some n → Outside k s b n) :
    Guarded k s b (.trap t :: rs) := by
  obtain ⟨top, htop⟩ := h.top
  refine ⟨⟨top, trapAt_push_of_some t htop⟩, ?_, ?_⟩
  · intro p u hp hu
    obtain ⟨-, rfl⟩ | hu := trapAt_push_cases hu
    · exact hout
    · exact h.above p u hp hu
  · intro p u v hu huout hv
    obtain ⟨hat, rfl⟩ | hvold := trapAt_push_cases hv
    · exact hout
    · obtain ⟨-, rfl⟩ | huold := trapAt_push_cases hu
      · exact hnext v hvold
      · exact h.closed p u v huold huout hvold

/-- All that a condition is offered to. -/
theorem offers (h : Guarded k s b rs) {p : Int} {ts : List (Int × TrapRecord)}
    (hoffers : Offers rs false p ts) : ∀ v ∈ ts, Outside k s b v.2 := by
  obtain ⟨top, htop⟩ := h.top
  obtain ⟨hk, -⟩ := trapAt_lastMarker htop
  have hp := hoffers.newest rfl
  have hall := Chain.Walk.forall h.closed hoffers.walk fun t ht => h.above p t (by omega) ht
  exact fun v hv => (hall v hv).2

/-- One instruction of the handler, if the copy stays. -/
theorem step {ctx : Ctx} {i : Instr} {vm vm' : Vm (List Record)}
    (h : Guarded k s b vm.thr.stack) (hin : InOrder b vm.thr.stack)
    (hstep : recordStep ctx i vm = some vm') (hk : k < height vm'.thr.stack)
    (hreraise : i.reraises = false) : Guarded k s b vm'.thr.stack := by
  cases recordStep_trapEffect hstep with
  | keeps traps => exact h.congr traps
  | cuts suffix => exact h.cut suffix hk
  | pushes handler stack =>
    obtain ⟨top, htop⟩ := h.top
    obtain ⟨hle, t, ht⟩ := trapAt_lastMarker htop
    obtain ⟨hlo, hhi⟩ := trapAt_range ht
    have hstored : storedTrap (lastMarker .trap vm.thr.stack) = lastMarker .trap vm.thr.stack :=
      if_pos (by omega)
    rw [stack, hstored]
    refine h.push (.inl ?_) fun n hn => h.above _ n hle hn
    show k < (height vm.thr.stack : Int) + 3
    omega
  | raises select following savedOn returnOn stack =>
    rename_i reraise condition fr sp t n saved return_
    have hreraise' : reraise = false := hreraise
    subst hreraise'
    obtain ⟨p, ts, hoffers⟩ := hin.offers false
    obtain ⟨newer, older, hts, -, -⟩ := hoffers.select select
    have hmem : (sp, t) ∈ ts := by
      rw [hts]
      simp
    have ht := trapAt_of_walk hoffers.walk _ hmem
    have hn : Outside k s b n := h.closed sp t n ht (h.offers hoffers _ hmem) following
    have hnext : ∀ m, trapAt vm.thr.stack n.next = some m → Outside k s b m :=
      fun m hm => h.closed _ n m following hn hm
    have hsaved : Guarded k s b saved := h.congr savedOn.trapAt
    have hreturn : SavedOn (.trap (n.copy saved) :: saved) vm'.thr.stack :=
      ⟨return_, stack, returnOn⟩
    refine (hsaved.push (t := n.copy saved) hn ?_).congr hreturn.trapAt
    rw [hin.copy_next following, savedOn.trapAt]
    exact hnext

end Guarded

/-- A handler starts guarded, by the copy of the trap after its own. -/
theorem InOrder.raise {b : Int} {rs saved : List Record} (h : InOrder b rs)
    (hsaved : SavedOn rs saved) {sp : Int} {n : TrapRecord} (ht : trapAt rs sp = some t)
    (hn : trapAt rs t.next = some n) :
    Guarded (height saved + 3) t.origin b (.trap (n.copy saved) :: saved) := by
  have hin : InOrder b saved := h.congr hsaved.trapAt
  have hnsaved : trapAt saved t.next = some n := by
    rw [hsaved.trapAt]
    exact hn
  have hout : Outside (height saved + 3) t.origin b n := by
    obtain ⟨n', hn', horder⟩ := h.next_trapAt ht
    rw [hn] at hn'
    cases hn'
    exact .inr horder
  refine ⟨⟨_, trapAt_push_self _ saved⟩, ?_, ?_⟩
  · intro p u hp hu
    obtain ⟨-, rfl⟩ | hu := trapAt_push_cases hu
    · exact hout
    · have := (trapAt_range hu).2
      omega
  · intro p u v hu huout hv
    have older : ∀ w : TrapRecord, (∃ q, trapAt saved q = some w) →
        Outside (height saved + 3) t.origin b w → trapAt saved w.next = some v →
        Outside (height saved + 3) t.origin b v := by
      rintro w ⟨q, hw⟩ hwout hvw
      obtain ⟨v', hv', horder⟩ := hin.next_trapAt hw
      rw [hvw] at hv'
      cases hv'
      obtain ⟨-, hwq, -⟩ := hin.original q w hw
      have hq := (trapAt_range hw).2
      obtain hover | hlt | hb := hwout
      · omega
      · obtain hold | hbase := horder
        · exact .inr (.inl (by omega))
        · exact .inr (.inr hbase)
      · obtain hold | hbase := horder
        · obtain ⟨hlo, -⟩ := hin.original _ v hvw
          omega
        · exact .inr (.inr hbase)
    obtain ⟨hat, rfl⟩ | hvold := trapAt_push_cases hv
    · exact hout
    · obtain ⟨-, rfl⟩ | huold := trapAt_push_cases hu
      · rw [hin.copy_next hnsaved] at hvold
        exact older n ⟨_, hnsaved⟩ hout hvold
      · exact older u ⟨p, huold⟩ huout hvold

/-! ## Runs -/

/-- The traps of a new thread are in order. -/
theorem threadInit_inOrder {ctx : Ctx} {d : DefaultTraps} {thr' : Thread (List Record)}
    (hnew : lastMarker .trap thr.stack < 1) (h : threadInitRecords ctx d thr = some thr') :
    InOrder (height thr.stack + 3) thr'.stack := by
  have pushed : ∀ {u v : Thread (List Record)} {handler fgci},
      InOrder (height thr.stack + 3) u.stack → pushNewTrap ctx u handler fgci = some v →
      InOrder (height thr.stack + 3) v.stack := by
    intro u v handler fgci hu hv
    obtain ⟨o, -, rfl⟩ := pushTrapRecord_eq hv
    exact hu.pushTrap fgci o
  have none_ : ∀ p t, trapAt thr.stack p ≠ some t := by
    intro p t ht
    have hlo := (trapAt_range ht).1
    have hle := (trapAt_lastMarker ht).1
    omega
  simp only [threadInitRecords, Option.bind_eq_bind, Option.bind_eq_some_iff, if_pos hnew] at h
  obtain ⟨reset, -, thr1, h1, thr2, h2, thr3, h3, thr4, h4, h5⟩ := h
  refine pushed (pushed (pushed (pushed (pushed ?_ h1) h2) h3) h4) h5
  refine ⟨⟨_, trapAt_push_self _ thr.stack, rfl, rfl⟩, ?_, ?_⟩
  · intro p t ht
    obtain ⟨rfl, rfl⟩ | hold := trapAt_push_cases ht
    · exact ⟨le_refl _, le_refl _, _, trapAt_push_self _ thr.stack, rfl, rfl, rfl⟩
    · exact absurd hold (none_ p t)
  · intro p t ht
    obtain ⟨rfl, rfl⟩ | hold := trapAt_push_cases ht
    · exact .inl ⟨rfl, rfl⟩
    · exact absurd hold (none_ p t)

/-- The trap a condition selects is the first of `ts` that matches it. -/
def Selected (ctx : Ctx) (thr : Thread (List Record)) (condition : Value)
    (ts : List (Int × TrapRecord)) (v : Int × TrapRecord) : Prop :=
  ∃ newer older, ts = newer ++ v :: older ∧
    trapIsa ctx thr.env condition (height thr.stack) (.fixnum v.2.fgci) v.2.next = .ok true ∧
    ∀ u ∈ newer, trapIsa ctx thr.env condition (height thr.stack) (.fixnum u.2.fgci) u.2.next =
      .ok false

/-- A trap on the stack has the type and the handler of the record that PUSH-TRAP made
at its origin. -/
def PushedAt (rs : List Record) (t : TrapRecord) : Prop :=
  ∃ o, trapAt rs t.origin = some o ∧ o.origin = t.origin ∧ o.fgci = t.fgci ∧
    o.handler = t.handler

/-- **Trap dispatch.**  In every run of a thread that keeps its base trap, the search for
a trap ends and selects the first that matches; and while the handler of the selected
trap runs, every condition is offered only to traps that were pushed since, to traps
older than the selected one, and to the base trap. -/
theorem trap_dispatch {ctx : Ctx} {d : DefaultTraps} {vm vm' : Vm (List Record)}
    {thr : Thread (List Record)} {is : List Instr} (hnew : lastMarker .trap vm.thr.stack < 1)
    (hinit : threadInitRecords ctx d vm.thr = some thr)
    (hrun : runAbove ctx (height vm.thr.stack + 4) is { vm with thr := thr } = some vm') :
    threadInit ctx d vm.thr.concrete = .ok thr.concrete ∧
      run ctx is (Vm.concrete { vm with thr := thr }) = .ok vm'.concrete ∧
      (∀ reraise, ∃ p ts, Offers vm'.thr.stack reraise p ts) ∧
      ∀ continuablep condition IHR reraise fr vm'',
        recordStep ctx (.raise continuablep condition IHR reraise fr) vm' = some vm'' →
        step ctx (.raise continuablep condition IHR reraise fr) vm'.concrete = .ok vm''.concrete ∧
          ∃ sp t, selectTrap ctx vm'.thr condition reraise = some (sp, t) ∧
            (∀ p ts, Offers vm'.thr.stack reraise p ts →
              Selected ctx vm'.thr condition ts (sp, t)) ∧
            height vm'.thr.stack ≤ lastMarker .trap vm''.thr.stack ∧
            ∀ during vm₃,
              runAbove ctx (lastMarker .trap vm''.thr.stack + 1) during vm'' = some vm₃ →
              (∀ i ∈ during, i.reraises = false) →
              run ctx during vm''.concrete = .ok vm₃.concrete ∧
                ∀ p ts, Offers vm₃.thr.stack false p ts → ∀ v ∈ ts, PushedAt vm₃.thr.stack v.2 ∧
                  (lastMarker .trap vm''.thr.stack < v.2.origin ∨ v.2.origin < t.origin ∨
                    v.2.origin = height vm.thr.stack + 3) := by
  have hin : InOrder (height vm.thr.stack + 3) vm'.thr.stack := by
    refine runAbove_invariant (P := fun u => InOrder (height vm.thr.stack + 3) u.thr.stack) hrun
      ?_ (threadInit_inOrder hnew hinit)
    intro i _ u v hu hstep hheight
    exact hu.step hstep (by omega)
  refine ⟨threadInit_refines ctx d hinit, run_refines (runAbove_run hrun), hin.offers, ?_⟩
  intro continuablep condition IHR reraise fr vm'' hraise
  refine ⟨step_refines hraise, ?_⟩
  obtain ⟨thr'', hthr, rfl⟩ := Option.map_eq_some_iff.mp hraise
  obtain ⟨sp, t, next, saved, return_, hselect, hnext, hsaved, hreturn, hstack⟩ :=
    raiseRecord_stack hthr
  have hhigher := hsaved.height_le
  have ht := selectTrap_trapAt hselect
  have hcopied : SavedOn (.trap (next.copy saved) :: saved) thr''.stack :=
    ⟨return_, hstack, hreturn⟩
  have hcopy : lastMarker .trap thr''.stack = height saved + 3 := by
    rw [hcopied.lastMarker_trap]
    exact lastMarker_trap _ saved
  have hguarded : Guarded (lastMarker .trap thr''.stack) t.origin (height vm.thr.stack + 3)
      thr''.stack := by
    rw [hcopy]
    exact (hin.raise hsaved ht hnext).congr hcopied.trapAt
  have hbase : (height vm.thr.stack : Int) + 3 < height vm'.thr.stack := by
    obtain ⟨base, hbase, -⟩ := hin.base
    exact (trapAt_range hbase).2
  have hin'' : InOrder (height vm.thr.stack + 3) thr''.stack := by
    refine hin.step hraise ?_
    have hlt := lastMarker_lt .trap thr''.stack
    show (height vm.thr.stack : Int) + 3 < height thr''.stack
    omega
  refine ⟨sp, t, hselect, fun p ts hoffers => hoffers.select hselect,
    by show _ ≤ lastMarker .trap thr''.stack; omega, fun during vm₃ hduring hreraises =>
      ⟨run_refines (runAbove_run hduring), ?_⟩⟩
  have keeps : ∀ i ∈ during, ∀ u v, InOrder (height vm.thr.stack + 3) u.thr.stack ∧
      Guarded (lastMarker .trap thr''.stack) t.origin (height vm.thr.stack + 3) u.thr.stack →
      recordStep ctx i u = some v → lastMarker .trap thr''.stack + 1 ≤ height v.thr.stack →
      InOrder (height vm.thr.stack + 3) v.thr.stack ∧
        Guarded (lastMarker .trap thr''.stack) t.origin (height vm.thr.stack + 3)
          v.thr.stack := by
    rintro i hi u v ⟨hu, hgu⟩ hstep hheight
    exact ⟨hu.step hstep (by omega), hgu.step hu hstep (by omega) (hreraises i hi)⟩
  obtain ⟨hin₃, hguarded₃⟩ := runAbove_invariant (P := fun u =>
    InOrder (height vm.thr.stack + 3) u.thr.stack ∧
      Guarded (lastMarker .trap thr''.stack) t.origin (height vm.thr.stack + 3) u.thr.stack)
    hduring keeps ⟨hin'', hguarded⟩
  intro p ts hoffers v hv
  obtain ⟨-, -, horiginal⟩ := hin₃.original _ _ (trapAt_of_walk hoffers.walk v hv)
  exact ⟨horiginal, hguarded₃.offers hoffers v hv⟩

/-! ## A run with a handler -/

/-- The types ^condition and ^error, a condition, a handler, and the names of the
types. -/
def conditionObjects (a : Addr) : Object :=
  if a = 0 then .structType 0 .nil .nil [] 0
  else if a = 1 then .structType 1 .nil (.pointer 0) [] 0
  else if a = 2 then .structInstance (.pointer 1) [] 0
  else if a = 3 then .closure 3
  else .symbol a

theorem conditionObjects_descends (a : Addr) :
    ∀ v ∈ (conditionObjects a).components, v.depth BitVec.toNat ≤ a.toNat := by
  intro v hv
  unfold conditionObjects at hv
  split at hv
  · obtain rfl : v = .nil := by simpa [Object.components] using hv
    exact Nat.zero_le _
  · split at hv
    · rename_i h1
      obtain rfl | rfl : v = .nil ∨ v = .pointer 0 := by simpa [Object.components] using hv
      · exact Nat.zero_le _
      · rw [h1]
        decide
    · split at hv
      · rename_i h2
        obtain rfl : v = .pointer 1 := by simpa [Object.components] using hv
        rw [h2]
        decide
      · split at hv <;> cases hv

/-- A context with these objects. -/
def conditionCtx : Ctx :=
  { emptyCtx with
    heap := ⟨conditionObjects, BitVec.toNat, conditionObjects_descends⟩
    constants := [.pointer 4, .pointer 5]
    symbolValueRecurse := fun sym _ => .ok (if sym = .pointer 4 then .pointer 0 else .pointer 1) }

/-- The default traps, all with one handler. -/
def conditionTraps : DefaultTraps where
  conditionGci := 0
  rcseGci := 1
  racseGci := 1
  sigchldGci := 1
  reset := .pointer 3
  restart := .pointer 3
  default_ := .pointer 3
  rcse := .pointer 3
  racse := .pointer 3
  sigchld := .pointer 3

/-- A new thread. -/
def trapThread : Thread (List Record) :=
  (threadInitRecords conditionCtx conditionTraps (emptyVm []).thr).getD (emptyVm []).thr

/-- PUSH-TRAP of a trap for ^error. -/
def pushErrorTrap : List Instr := [.work (registersWith (.pointer 3)), .pushTrap 1]

/-- The thread with such a trap. -/
def trappedVm : Vm (List Record) :=
  (runAbove conditionCtx 4 pushErrorTrap { emptyVm [] with thr := trapThread }).getD (emptyVm [])

/-- A condition of type ^error is raised. -/
def raiseError (reraise : Bool) : Instr := .raise true (.pointer 2) false reraise .nil

/-- Its handler is about to run. -/
def handlingVm : Vm (List Record) := (recordStep conditionCtx (raiseError false) trappedVm).getD
  (emptyVm [])

/-- The handler pushes a trap of its own, raises a condition and raises another one in
the handler of that. -/
def nestedRun : List Instr := pushErrorTrap ++ [raiseError false, raiseError false]

/-- What that leaves. -/
def nestedVm : Vm (List Record) :=
  (runAbove conditionCtx 38 nestedRun handlingVm).getD (emptyVm [])

theorem trap_dispatch_nested :
    lastMarker .trap handlingVm.thr.stack = 37 ∧
      ∀ p ts, Offers nestedVm.thr.stack false p ts → ∀ v ∈ ts,
        PushedAt nestedVm.thr.stack v.2 ∧
          (37 < v.2.origin ∨ v.2.origin < 27 ∨ v.2.origin = 3) := by
  have hinit : threadInitRecords conditionCtx conditionTraps (emptyVm []).thr =
      some trapThread := by decide
  have hrun : runAbove conditionCtx (height (emptyVm []).thr.stack + 4) pushErrorTrap
      { emptyVm [] with thr := trapThread } = some trappedVm := by decide
  have hraise : recordStep conditionCtx (raiseError false) trappedVm = some handlingVm := by
    decide
  obtain ⟨-, -, -, hhandler⟩ := trap_dispatch (by decide) hinit hrun
  obtain ⟨-, sp, t, hselect, -, -, hduring⟩ := hhandler _ _ _ _ _ _ hraise
  have ht : t.origin = 27 := by
    have hsame : (selectTrap conditionCtx trappedVm.thr (.pointer 2) false).map
        (fun v => v.2.origin) = some 27 := by decide
    rw [hselect] at hsame
    exact Option.some.inj hsame
  have hcopy : lastMarker .trap handlingVm.thr.stack = 37 := by decide
  rw [hcopy, ht] at hduring
  exact ⟨hcopy, (hduring nestedRun nestedVm (by decide) (by decide)).2⟩

/-- A condition that a handler raises with `reraise` goes to the trap of that handler. -/
theorem reraise_reenters :
    firstTrap trappedVm.concrete.thr.stack false = .ok 27 ∧
      trapLoop (trapIsa conditionCtx .nil (.pointer 2) 28) trappedVm.concrete.thr.stack 29 27 =
        .ok (27, .pointer 3) ∧
      step conditionCtx (raiseError false) trappedVm.concrete = .ok handlingVm.concrete ∧
      firstTrap handlingVm.concrete.thr.stack true = .ok 27 ∧
      trapLoop (trapIsa conditionCtx .nil (.pointer 2) 41) handlingVm.concrete.thr.stack 42 27 =
        .ok (27, .pointer 3) := by
  have hraise : recordStep conditionCtx (raiseError false) trappedVm = some handlingVm := by
    decide
  exact ⟨by decide, by decide, step_refines hraise, by decide, by decide⟩

end Idio
