/-
  Vm/Records.lean --- the stack as a list of records.

  `Record` is what the instructions push and pop, and `layout` the slots of a list of
  records, topmost record first.  A record holds ordinary values only, so that the
  markers of a layout are where its records end.

  Three fields are no part of a layout.  They say where a record comes from: the index
  of the record PUSH-TRAP made for a trap that `idio_vm_raise_condition` pushed again,
  and XI and the suppress flag at the entry of an escape block.

  `lastMarker` and `trapAt` are what the searches of the VM find in a layout.
-/
import Idio.Vm.Instructions
import Mathlib.Data.List.TakeDrop

set_option autoImplicit false

namespace Idio

/-- A value that can be on the stack outside the markers. -/
abbrev OrdinaryValue : Type := { v : Value // Ordinary v }

/-- The value, if it is ordinary. -/
def ordinary? (v : Value) : Option OrdinaryValue := if h : Ordinary v then some ⟨v, h⟩ else none

theorem ordinary?_eq_some {v : Value} {o : OrdinaryValue} (h : ordinary? v = some o) :
    o.val = v := by
  unfold ordinary? at h
  split at h
  · exact congrArg Subtype.val (Option.some.inj h).symm
  · cases h

/-- The two kinds of variables with bindings on the stack. -/
inductive BindingKind where
  | dynamic
  | environ
  deriving DecidableEq, Repr

/-- The marker of a binding. -/
def BindingKind.marker : BindingKind → Marker
  | .dynamic => .dynamic
  | .environ => .environ

/-- A trap on the stack. -/
structure TrapRecord where
  /-- the stored index of the next trap -/
  next : Int
  fgci : Int
  handler : OrdinaryValue
  /-- the index of the record that PUSH-TRAP made -/
  origin : Int
  deriving DecidableEq

/-- An escape block on the stack. -/
structure EscaperRecord where
  pc : Int
  frame : OrdinaryValue
  label : Int
  /-- XI at the entry of the block -/
  entryXi : Nat
  /-- `idio_command_suppress_rcse` at the entry of the block -/
  entryFlag : Value
  deriving DecidableEq

/-- What one instruction pushes. -/
inductive Record where
  /-- PUSH-VALUE -/
  | value (v : OrdinaryValue)
  /-- SUPPRESS-RCSE -/
  | rcse (flag : OrdinaryValue)
  | ret (pc : Int) (xi : Nat)
  | state (frame env : OrdinaryValue)
  | allState (reg1 reg2 expr func val : OrdinaryValue)
  | binding (kind : BindingKind) (gvi : Nat) (val : OrdinaryValue)
  | trap (t : TrapRecord)
  | escaper (e : EscaperRecord)
  /-- PUSH-ABORT -/
  | abort (krun : OrdinaryValue)
  deriving DecidableEq

namespace Record

/-- How many slots a record has. -/
def size : Record → Nat
  | .value _ | .rcse _ => 1
  | .ret _ _ | .state _ _ | .abort _ => 3
  | .allState .. => 6
  | .binding .. | .trap _ | .escaper _ => 4

/-- The marker at the end of a record. -/
def marker : Record → Option Marker
  | .value _ | .rcse _ => none
  | .ret _ _ => some .return_
  | .state _ _ => some .preserveState
  | .allState .. => some .preserveAllState
  | .binding kind _ _ => some kind.marker
  | .trap _ => some .trap
  | .escaper _ => some .escaper
  | .abort _ => some .abort

end Record

/-- The used size of the stack. -/
def height : List Record → Nat
  | [] => 0
  | r :: rs => height rs + r.size

/-- The index of the topmost marker of a kind. -/
def lastMarker (m : Marker) : List Record → Int
  | [] => -1
  | r :: rs => if r.marker = some m then height (r :: rs) - 1 else lastMarker m rs

/-- The index that a new binding stores as that of the next. -/
def storedBinding (sp : Int) : Int := if sp ≥ 3 then sp else -1

/-- The slots of a record on top of others. -/
def Record.slots (rs : List Record) : Record → List Value
  | .value v => [v.val]
  | .rcse flag => [flag.val]
  | .ret pc xi => [.fixnum pc, .fixnum xi, Marker.return_.value]
  | .state frame env => [frame.val, env.val, Marker.preserveState.value]
  | .allState reg1 reg2 expr func val =>
      [reg1.val, reg2.val, expr.val, func.val, val.val, Marker.preserveAllState.value]
  | .binding kind gvi val =>
      [.fixnum (storedBinding (lastMarker kind.marker rs)), val.val, .fixnum gvi,
        kind.marker.value]
  | .trap t => [.fixnum t.next, .fixnum t.fgci, t.handler.val, Marker.trap.value]
  | .escaper e => [.fixnum e.pc, e.frame.val, .fixnum e.label, Marker.escaper.value]
  | .abort krun =>
      [.fixnum (storedAbort (lastMarker .abort rs)), krun.val, Marker.abort.value]

/-- The slots of all records. -/
def layout : List Record → Stack
  | [] => []
  | r :: rs => layout rs ++ r.slots rs

/-- The trap whose marker has that index. -/
def trapAt : List Record → Int → Option TrapRecord
  | [], _ => none
  | .trap t :: rs, sp => if sp = height rs + 3 then some t else trapAt rs sp
  | _ :: rs, sp => trapAt rs sp

/-! ## Sizes -/

@[simp] theorem Record.slots_length (rs : List Record) (r : Record) :
    (r.slots rs).length = r.size := by
  cases r <;> rfl

@[simp] theorem layout_length (rs : List Record) : (layout rs).length = height rs := by
  induction rs with
  | nil => rfl
  | cons r rs ih => rw [layout, List.length_append, ih, Record.slots_length, height]

theorem Record.size_pos (r : Record) : 0 < r.size := by
  cases r <;> simp [Record.size]

theorem lastMarker_lt (m : Marker) (rs : List Record) : lastMarker m rs < height rs := by
  induction rs with
  | nil => simp [lastMarker, height]
  | cons r rs ih =>
    have hpos := r.size_pos
    simp only [lastMarker, height]
    split
    · omega
    · omega

/-! ## The searches -/

/-- A slot of the lower part is a slot of the whole. -/
theorem markerLoop_append (s t : Stack) (m : Marker) {n : Nat} (h : n ≤ s.length) :
    markerLoop (s ++ t) m n = markerLoop s m n := by
  induction n with
  | zero => rfl
  | succ n ih =>
    simp only [markerLoop]
    rw [List.getElem?_append_left (by omega), ih (by omega)]

variable {k : Nat}

/-- Slots that hold no such marker are passed over. -/
theorem markerLoop_skip (s t : Stack) (m : Marker) (h : ∀ v ∈ t.take k, v ≠ m.value)
    (hk : k ≤ t.length) :
    markerLoop (s ++ t) m (s.length + k) = markerLoop s m s.length := by
  induction k with
  | zero => exact markerLoop_append s t m (Nat.le_refl _)
  | succ k ih =>
    have hlt : k < t.length := by omega
    have hmem : t[k] ∈ t.take (k + 1) := by
      rw [List.mem_take_iff_getElem]
      exact ⟨k, by omega, rfl⟩
    have hne : (s ++ t)[s.length + k]? ≠ some m.value := by
      rw [List.getElem?_append_right (by omega), Nat.add_sub_cancel_left,
        List.getElem?_eq_getElem hlt]
      exact fun he => h _ hmem (Option.some.inj he)
    show markerLoop (s ++ t) m (s.length + k + 1) = _
    rw [markerLoop, if_neg hne]
    refine ih (fun v hv => h v ?_) (by omega)
    exact List.take_subset_take_left t (Nat.le_succ k) hv

/-- The slots below the marker of a record hold no markers. -/
theorem Record.slots_ordinary (rs : List Record) (r : Record) {m : Marker}
    (hm : r.marker = some m) :
    ∃ vs, r.slots rs = vs ++ [m.value] ∧ (∀ v ∈ vs, Ordinary v) ∧ vs.length + 1 = r.size := by
  cases r with
  | value v => cases hm
  | rcse flag => cases hm
  | ret pc xi =>
    cases hm
    exact ⟨[_, _], rfl, by simp [ordinary_fixnum], rfl⟩
  | state frame env =>
    cases hm
    exact ⟨[_, _], rfl, by simp [frame.property, env.property], rfl⟩
  | allState reg1 reg2 expr func val =>
    cases hm
    exact ⟨[_, _, _, _, _], rfl, by
      simp [reg1.property, reg2.property, expr.property, func.property, val.property], rfl⟩
  | binding kind gvi val =>
    cases hm
    exact ⟨[_, _, _], rfl, by simp [ordinary_fixnum, val.property], rfl⟩
  | trap t =>
    cases hm
    exact ⟨[_, _, _], rfl, by simp [ordinary_fixnum, t.handler.property], rfl⟩
  | escaper e =>
    cases hm
    exact ⟨[_, _, _], rfl, by simp [ordinary_fixnum, e.frame.property], rfl⟩
  | abort krun =>
    cases hm
    exact ⟨[_, _], rfl, by simp [ordinary_fixnum, krun.property], rfl⟩

/-- A record without a marker is one ordinary value. -/
theorem Record.slots_of_no_marker (rs : List Record) (r : Record) (hm : r.marker = none) :
    ∃ v : OrdinaryValue, r.slots rs = [v.val] ∧ r.size = 1 := by
  cases r with
  | value v => exact ⟨v, rfl, rfl⟩
  | rcse flag => exact ⟨flag, rfl, rfl⟩
  | _ => cases hm

/-- The search for a marker finds the topmost record of that kind. -/
theorem markerLoop_layout (m : Marker) (rs : List Record) :
    markerLoop (layout rs) m (height rs) = lastMarker m rs := by
  induction rs with
  | nil => rfl
  | cons r rs ih =>
    rw [← layout_length rs] at ih
    rw [layout, height, ← layout_length rs, lastMarker]
    cases hr : r.marker with
    | none =>
      obtain ⟨v, hv, hsize⟩ := r.slots_of_no_marker rs hr
      rw [if_neg (by simp), hv, hsize, markerLoop_skip, ih]
      · simpa using v.property m
      · simp
    | some n =>
      obtain ⟨vs, hvs, hord, hlen⟩ := r.slots_ordinary rs hr
      have htop : (layout rs ++ r.slots rs)[(layout rs).length + vs.length]? = some n.value := by
        rw [hvs, List.getElem?_append_right (by omega), Nat.add_sub_cancel_left]
        simp
      have hidx : (layout rs).length + r.size = (layout rs).length + vs.length + 1 := by omega
      rw [hidx, markerLoop, htop]
      by_cases hnm : n = m
      · subst hnm
        rw [if_pos rfl, if_pos rfl, height, ← hlen, layout_length]
        omega
      · rw [if_neg (by simpa using hnm), if_neg (by simpa using hnm), hvs, markerLoop_skip, ih]
        · intro v hv
          rw [List.take_left] at hv
          exact hord v hv m
        · simp

/-- `idio_vm_find_stack_marker` from the top. -/
theorem findStackMarker_layout (m : Marker) (rs : List Record) :
    findStackMarker (layout rs) m 0 = .ok (lastMarker m rs) := by
  unfold findStackMarker
  dsimp only
  rw [layout_length]
  by_cases h0 : height rs = 0
  · have hnil : rs = [] := by
      cases rs with
      | nil => rfl
      | cons r rs =>
        have := r.size_pos
        simp only [height] at h0
        omega
    subst hnil
    rfl
  · rw [if_neg (by omega), if_neg (by simp), markerLoop_layout]

/-! ## Slots -/

theorem Stack.refIndex_nat (s : Stack) {i : Nat} (h : i < s.length) :
    s.refIndex i = .ok s[i] := by
  unfold Stack.refIndex
  dsimp only
  rw [if_neg (by omega), if_neg (by omega), Int.toNat_natCast, List.getElem?_eq_getElem h]

theorem Stack.refIndex_append (s t u : Stack) (h : k < t.length) :
    (s ++ t ++ u).refIndex (s.length + k : Nat) = .ok t[k] := by
  have hlt : s.length + k < (s ++ t ++ u).length := by
    simp only [List.length_append]
    omega
  rw [Stack.refIndex_nat _ hlt]
  congr 1
  rw [List.getElem_append_left (by rw [List.length_append]; omega),
    List.getElem_append_right (by omega)]
  simp

theorem layout_append (above rs : List Record) : ∃ u, layout (above ++ rs) = layout rs ++ u := by
  induction above with
  | nil => exact ⟨[], by simp⟩
  | cons r above ih =>
    obtain ⟨u, hu⟩ := ih
    exact ⟨u ++ r.slots (above ++ rs), by rw [List.cons_append, layout, hu, List.append_assoc]⟩

theorem height_append_le (above rs : List Record) : height rs ≤ height (above ++ rs) := by
  obtain ⟨u, hu⟩ := layout_append above rs
  rw [← layout_length, ← layout_length, hu, List.length_append]
  exact Nat.le_add_right _ _

/-- A slot of a record, whatever is above the record. -/
theorem refIndex_layout (above rs : List Record) (r : Record) {i : Int} {v : Value}
    (hv : (r.slots rs)[k]? = some v) (hi : i = height rs + k) :
    (layout (above ++ r :: rs)).refIndex i = .ok v := by
  obtain ⟨hk, rfl⟩ := List.getElem?_eq_some_iff.mp hv
  obtain ⟨u, hu⟩ := layout_append above (r :: rs)
  have hcast : i = ((layout rs).length + k : Nat) := by
    rw [layout_length, hi]
    push_cast
    rfl
  rw [hu, hcast, layout]
  exact Stack.refIndex_append _ _ _ _

/-! ## Bindings -/

/-- The value of the innermost binding. -/
def lookup (kind : BindingKind) (gvi : Nat) : List Record → Option OrdinaryValue
  | [] => none
  | .binding k g val :: rs => if k = kind ∧ g = gvi then some val else lookup kind gvi rs
  | _ :: rs => lookup kind gvi rs

/-- The records with another value in the innermost binding. -/
def assign (kind : BindingKind) (gvi : Nat) (v : OrdinaryValue) : List Record → List Record
  | [] => []
  | .binding k g val :: rs =>
      if k = kind ∧ g = gvi then .binding k g v :: rs
      else .binding k g val :: assign kind gvi v rs
  | r :: rs => r :: assign kind gvi v rs

/-- The index of the marker of the innermost binding. -/
def boundAt (kind : BindingKind) (gvi : Nat) : List Record → Option Int
  | [] => none
  | .binding k g _ :: rs =>
      if k = kind ∧ g = gvi then some (height rs + 3) else boundAt kind gvi rs
  | _ :: rs => boundAt kind gvi rs

variable {r : Record} {kind : BindingKind}

/-- Only bindings have the marker of a binding. -/
theorem Record.eq_binding (h : r.marker = some kind.marker) :
    ∃ gvi val, r = .binding kind gvi val := by
  cases r with
  | binding k gvi val =>
    have hk : k = kind := by
      cases k <;> cases kind <;> first | rfl | cases h
    exact ⟨gvi, val, by rw [hk]⟩
  | _ => cases kind <;> cases h

variable {gvi : Nat}

theorem boundAt_cons_of_ne (rs : List Record) (h : r.marker ≠ some kind.marker) :
    boundAt kind gvi (r :: rs) = boundAt kind gvi rs := by
  cases r with
  | binding k g val =>
    have hk : k ≠ kind := by
      rintro rfl
      exact h rfl
    rw [boundAt, if_neg fun hc => hk hc.1]
  | _ => rfl

/-- Where no binding is, the loop may as well start at -1. -/
theorem bindingLoop_stored (s : Stack) (gvi fuel : Nat) (sp : Int) :
    bindingLoop s gvi (fuel + 1) (storedBinding sp) = bindingLoop s gvi (fuel + 1) sp := by
  unfold storedBinding
  split
  · rfl
  · rename_i h
    rw [bindingLoop, bindingLoop, if_neg (by omega), if_neg h]

variable {fuel : Nat}

/-- The loop follows the chain of bindings to the innermost one of the variable. -/
theorem bindingLoop_layout (kind : BindingKind) (gvi : Nat) (rs above : List Record)
    (hfuel : height rs < fuel) :
    bindingLoop (layout (above ++ rs)) gvi fuel (lastMarker kind.marker rs) =
      .ok (boundAt kind gvi rs) := by
  induction rs generalizing above fuel with
  | nil =>
    obtain ⟨fuel, rfl⟩ : ∃ n, fuel = n + 1 := ⟨fuel - 1, by omega⟩
    rfl
  | cons r rs ih =>
    have hpos := r.size_pos
    simp only [height] at hfuel
    obtain ⟨fuel, rfl⟩ : ∃ n, fuel = n + 1 := ⟨fuel - 1, by omega⟩
    by_cases hr : r.marker = some kind.marker
    · obtain ⟨g, val, rfl⟩ := Record.eq_binding hr
      simp only [Record.size] at hfuel
      have hsp : lastMarker kind.marker (.binding kind g val :: rs) = height rs + 3 := by
        rw [lastMarker, if_pos hr, height]
        simp only [Record.size]
        push_cast
        omega
      have hvi := refIndex_layout above rs (.binding kind g val) (k := 2)
        (i := height rs + 3 - 1) rfl (by push_cast; omega)
      have hnext := refIndex_layout above rs (.binding kind g val) (k := 0)
        (i := height rs + 3 - 3) rfl (by push_cast; omega)
      rw [hsp, bindingLoop, if_pos (by omega), hvi, hnext]
      simp only [ok_bind, fixnumVal]
      rw [boundAt]
      by_cases hg : g = gvi
      · subst hg
        rw [if_pos rfl, if_pos ⟨rfl, rfl⟩]
      · obtain ⟨fuel, rfl⟩ : ∃ n, fuel = n + 1 := ⟨fuel - 1, by omega⟩
        have hshift : above ++ .binding kind g val :: rs =
            (above ++ [.binding kind g val]) ++ rs := by simp
        rw [if_neg (by omega), if_neg fun hc => hg hc.2, bindingLoop_stored, hshift]
        exact ih _ (by omega)
    · have hshift : above ++ r :: rs = (above ++ [r]) ++ rs := by simp
      rw [lastMarker, if_neg hr, boundAt_cons_of_ne rs hr, hshift]
      exact ih _ (by omega)

variable {sp : Int}

/-- The slot of the value, where there is a binding. -/
theorem boundAt_slot (rs above : List Record) (h : boundAt kind gvi rs = some sp) :
    ∃ v, lookup kind gvi rs = some v ∧
      (layout (above ++ rs)).refIndex (sp - 2) = .ok v.val := by
  induction rs generalizing above with
  | nil => cases h
  | cons r rs ih =>
    have hshift : above ++ r :: rs = (above ++ [r]) ++ rs := by simp
    cases r with
    | binding k g val =>
      rw [boundAt] at h
      by_cases hk : k = kind ∧ g = gvi
      · rw [if_pos hk] at h
        cases h
        refine ⟨val, by rw [lookup, if_pos hk], ?_⟩
        exact refIndex_layout above rs (.binding k g val) (k := 1) rfl
          (by push_cast; omega)
      · rw [if_neg hk] at h
        obtain ⟨v, hv, href⟩ := ih (above ++ [.binding k g val]) h
        exact ⟨v, by rw [lookup, if_neg hk]; exact hv, hshift ▸ href⟩
    | _ =>
      obtain ⟨v, hv, href⟩ := ih _ h
      exact ⟨v, hv, hshift ▸ href⟩

variable {rs : List Record}

theorem boundAt_none (h : boundAt kind gvi rs = none) : lookup kind gvi rs = none := by
  induction rs with
  | nil => rfl
  | cons r rs ih =>
    cases r with
    | binding k g val =>
      rw [boundAt] at h
      by_cases hk : k = kind ∧ g = gvi
      · rw [if_pos hk] at h
        cases h
      · rw [if_neg hk] at h
        rw [lookup, if_neg hk]
        exact ih h
    | _ => exact ih h

theorem assign_height (kind : BindingKind) (gvi : Nat) (v : OrdinaryValue) (rs : List Record) :
    height (assign kind gvi v rs) = height rs := by
  induction rs with
  | nil => rfl
  | cons r rs ih =>
    cases r with
    | binding k g val =>
      rw [assign]
      split
      · rfl
      · rw [height, ih, height]
    | _ => simp only [assign, height, ih]

theorem assign_lastMarker (kind : BindingKind) (gvi : Nat) (v : OrdinaryValue)
    (rs : List Record) (m : Marker) :
    lastMarker m (assign kind gvi v rs) = lastMarker m rs := by
  induction rs with
  | nil => rfl
  | cons r rs ih =>
    cases r with
    | binding k g val =>
      rw [assign]
      split
      · rfl
      · simp only [lastMarker, height, ih, assign_height]
    | _ => simp only [assign, lastMarker, height, ih, assign_height]

/-- Assigning to a binding is one write to the stack. -/
theorem layout_assign (v : OrdinaryValue) (rs : List Record) (h : boundAt kind gvi rs = some sp) :
    3 ≤ sp ∧ sp < height rs ∧
      layout (assign kind gvi v rs) = (layout rs).set (sp - 2).toNat v.val := by
  induction rs with
  | nil => cases h
  | cons r rs ih =>
    have lift : boundAt kind gvi rs = some sp → assign kind gvi v (r :: rs) =
        r :: assign kind gvi v rs → 3 ≤ sp ∧ sp < height (r :: rs) ∧
          layout (assign kind gvi v (r :: rs)) =
            (layout (r :: rs)).set (sp - 2).toNat v.val := by
      intro hb hassign
      obtain ⟨hlo, hhi, hlay⟩ := ih hb
      have hslots : r.slots (assign kind gvi v rs) = r.slots rs := by
        cases r <;> simp only [Record.slots, assign_lastMarker]
      refine ⟨hlo, by rw [height]; omega, ?_⟩
      rw [hassign, layout, layout, hlay, hslots, List.set_append_left]
      rw [layout_length]
      omega
    cases r with
    | binding k g val =>
      rw [boundAt] at h
      by_cases hk : k = kind ∧ g = gvi
      · rw [if_pos hk] at h
        cases h
        have hidx : ((height rs : Int) + 3 - 2).toNat = (layout rs).length + 1 := by
          rw [layout_length]
          omega
        refine ⟨by omega, by rw [height]; simp only [Record.size]; push_cast; omega, ?_⟩
        rw [assign, if_pos hk, layout, layout, hidx, List.set_append_right _ _ (by omega),
          Nat.add_sub_cancel_left]
        rfl
      · rw [if_neg hk] at h
        exact lift h (by rw [assign, if_neg hk])
    | _ => exact lift h rfl

/-! ## Traps -/

variable {t : TrapRecord}

/-- The slots of a trap. -/
theorem trapAt_slots (above : List Record) (h : trapAt rs sp = some t) :
    3 ≤ sp ∧ sp < height rs ∧
      (layout (above ++ rs)).refIndex (sp - 1) = .ok t.handler.val ∧
      (layout (above ++ rs)).refIndex (sp - 2) = .ok (.fixnum t.fgci) ∧
      (layout (above ++ rs)).refIndex (sp - 3) = .ok (.fixnum t.next) := by
  induction rs generalizing above with
  | nil => cases h
  | cons r rs ih =>
    have hshift : above ++ r :: rs = (above ++ [r]) ++ rs := by simp
    have below : trapAt rs sp = some t → 3 ≤ sp ∧ sp < height (r :: rs) ∧
        (layout (above ++ r :: rs)).refIndex (sp - 1) = .ok t.handler.val ∧
        (layout (above ++ r :: rs)).refIndex (sp - 2) = .ok (.fixnum t.fgci) ∧
        (layout (above ++ r :: rs)).refIndex (sp - 3) = .ok (.fixnum t.next) := by
      intro hb
      obtain ⟨hlo, hhi, hslots⟩ := ih (above ++ [r]) hb
      exact ⟨hlo, by rw [height]; omega, hshift ▸ hslots⟩
    cases r with
    | trap t' =>
      rw [trapAt] at h
      by_cases hsp : sp = height rs + 3
      · rw [if_pos hsp] at h
        cases h
        refine ⟨by omega, by rw [height]; simp only [Record.size]; push_cast; omega, ?_, ?_, ?_⟩
        · exact refIndex_layout above rs (.trap t) (k := 2) rfl (by push_cast; omega)
        · exact refIndex_layout above rs (.trap t) (k := 1) rfl (by push_cast; omega)
        · exact refIndex_layout above rs (.trap t) (k := 0) rfl (by push_cast; omega)
      · rw [if_neg hsp] at h
        exact below h
    | _ => exact below h

/-- Only traps have the marker of a trap. -/
theorem Record.eq_trap (h : r.marker = some .trap) : ∃ t, r = .trap t := by
  cases r with
  | trap t => exact ⟨t, rfl⟩
  | binding kind _ _ => cases kind <;> cases h
  | _ => cases h

/-- The walk of `idio_vm_raise_condition` over the records: the trap that is selected,
and its index. -/
def walkTraps (isa : Value → Int → Result Bool) (rs : List Record) :
    Nat → Int → Option (Int × TrapRecord)
  | 0, _ => none
  | fuel + 1, sp =>
      match trapAt rs sp with
      | none => none
      | some t =>
          match isa (.fixnum t.fgci) t.next with
          | .ok true => some (sp, t)
          | .ok false => if sp = t.next then none else walkTraps isa rs fuel t.next
          | .error _ => none

theorem walkTraps_trapAt {isa : Value → Int → Result Bool} {sp' : Int}
    (h : walkTraps isa rs fuel sp = some (sp', t)) :
    trapAt rs sp' = some t := by
  induction fuel generalizing sp with
  | zero => cases h
  | succ fuel ih =>
    rw [walkTraps] at h
    cases ht : trapAt rs sp with
    | none => simp [ht] at h
    | some u =>
      rw [ht] at h
      dsimp only at h
      split at h
      · cases h
        exact ht
      · split at h
        · cases h
        · exact ih h
      · cases h

theorem trapLoop_layout {isa : Value → Int → Result Bool} {sp' : Int}
    (h : walkTraps isa rs fuel sp = some (sp', t)) :
    trapLoop isa (layout rs) fuel sp = .ok (sp', t.handler.val) := by
  induction fuel generalizing sp with
  | zero => cases h
  | succ fuel ih =>
    rw [walkTraps] at h
    cases ht : trapAt rs sp with
    | none => simp [ht] at h
    | some u =>
      obtain ⟨-, -, hhandler, hgci, hnext⟩ := trapAt_slots [] ht
      rw [List.nil_append] at hhandler hgci hnext
      rw [ht] at h
      dsimp only at h
      rw [trapLoop, hhandler, hgci, hnext]
      simp only [ok_bind, fixnumVal]
      split at h
      · rename_i hisa
        cases h
        rw [hisa]
        rfl
      · rename_i hisa
        rw [hisa]
        simp only [ok_bind, Bool.false_eq_true, if_false]
        split at h
        · cases h
        · rename_i hne
          rw [if_neg hne]
          exact ih h
      · cases h

/-- What the search for the largest stored index finds. -/
def maxTrap : List Record → Int → Int → Int
  | [], max, _ => max
  | .trap t :: rs, max, maxNext =>
      if t.next > maxNext then maxTrap rs (height rs + 3) t.next else maxTrap rs max maxNext
  | _ :: rs, max, maxNext => maxTrap rs max maxNext

theorem maxLoop_skip (s : Stack) (a k : Nat) (max maxNext : Int)
    (h : ∀ i, a ≤ i → i < a + k → s[i]? ≠ some Marker.trap.value) :
    maxLoop s (a + k - 1) max maxNext = maxLoop s (a - 1) max maxNext := by
  induction k with
  | zero => rfl
  | succ k ih =>
    by_cases h0 : a + k = 0
    · rw [show a + (k + 1) - 1 = a - 1 by omega]
    · rw [show a + (k + 1) - 1 = (a + k - 1) + 1 by omega, maxLoop,
        if_neg (h _ (by omega) (by omega))]
      exact ih fun i hlo hhi => h i hlo (by omega)

/-- The slots of a record that is no trap, and the lower slots of one, hold no marker
of a trap. -/
theorem slots_ne_trap {above : List Record} {i : Nat} (hlo : height rs ≤ i)
    (hhi : i < height (r :: rs)) (h : r.marker = some .trap → i + 1 < height (r :: rs)) :
    (layout (above ++ r :: rs))[i]? ≠ some Marker.trap.value := by
  obtain ⟨u, hu⟩ := layout_append above (r :: rs)
  simp only [height] at hhi h
  have hslot : (layout (above ++ r :: rs))[i]? = (r.slots rs)[i - height rs]? := by
    rw [hu, layout, List.append_assoc, List.getElem?_append_right (by rw [layout_length]; omega),
      layout_length, List.getElem?_append_left (by rw [Record.slots_length]; omega)]
  rw [hslot]
  cases hr : r.marker with
  | none =>
    obtain ⟨v, hv, hsize⟩ := r.slots_of_no_marker rs hr
    rw [hv, show i - height rs = 0 by omega]
    exact fun he => v.property _ (Option.some.inj he)
  | some m =>
    obtain ⟨vs, hvs, hord, hlen⟩ := r.slots_ordinary rs hr
    rw [hvs]
    by_cases hi : i - height rs < vs.length
    · rw [List.getElem?_append_left hi, List.getElem?_eq_getElem hi]
      exact fun he => hord _ (List.getElem_mem hi) _ (Option.some.inj he)
    · rw [List.getElem?_append_right (by omega), show i - height rs - vs.length = 0 by omega]
      intro he
      have hm : m = .trap := Marker.value_injective (Option.some.inj he)
      have := h (by rw [hr, hm])
      omega

theorem maxLoop_layout (rs above : List Record) (max maxNext : Int) :
    maxLoop (layout (above ++ rs)) (height rs - 1) max maxNext =
      .ok (maxTrap rs max maxNext) := by
  induction rs generalizing above max maxNext with
  | nil => rfl
  | cons r rs ih =>
    have hshift : above ++ r :: rs = (above ++ [r]) ++ rs := by simp
    by_cases hr : r.marker = some .trap
    · obtain ⟨t, rfl⟩ := Record.eq_trap hr
      have hnext := refIndex_layout above rs (.trap t) (k := 0)
        (i := (height rs + 2 + 1 : Nat) - 3) rfl (by push_cast; omega)
      have htop : (layout (above ++ .trap t :: rs))[height rs + 2 + 1]? =
          some Marker.trap.value := by
        obtain ⟨u, hu⟩ := layout_append above (.trap t :: rs)
        rw [hu, layout, List.append_assoc,
          List.getElem?_append_right (by rw [layout_length]; omega), layout_length,
          show height rs + 2 + 1 - height rs = 3 by omega]
        rfl
      have hskip : ∀ max maxNext, maxLoop (layout (above ++ .trap t :: rs)) (height rs + 2) max
          maxNext = maxLoop (layout (above ++ .trap t :: rs)) (height rs - 1) max maxNext := by
        intro max maxNext
        exact maxLoop_skip _ (height rs) 3 max maxNext fun i hlo hhi =>
          slots_ne_trap hlo (by simp only [height, Record.size]; omega)
            fun _ => by simp only [height, Record.size]; omega
      rw [show height (.trap t :: rs) - 1 = height rs + 2 + 1 by
        simp only [height, Record.size]; omega, maxLoop, if_pos htop, hnext]
      simp only [ok_bind, fixnumVal]
      rw [maxTrap, hskip, hskip, hshift]
      split
      · exact ih _ _ _
      · exact ih _ _ _
    · have hmax : maxTrap (r :: rs) max maxNext = maxTrap rs max maxNext := by
        cases r with
        | trap t => exact absurd rfl hr
        | _ => rfl
      rw [hmax, height, maxLoop_skip _ (height rs) r.size max maxNext fun i hlo hhi =>
        slots_ne_trap hlo (by simpa only [height] using hhi) fun h => absurd h hr, hshift]
      exact ih _ _ _

/-! ## Escape blocks -/

/-- The innermost block with the label, and the records below its own. -/
def findEscaper (label : Int) : List Record → Option (EscaperRecord × List Record)
  | [] => none
  | .escaper e :: rs => if e.label = label then some (e, rs) else findEscaper label rs
  | _ :: rs => findEscaper label rs

/-- The block that is found is in the list, and none above it has the label. -/
theorem findEscaper_eq_some {label : Int} {below : List Record} {e : EscaperRecord}
    (h : findEscaper label rs = some (e, below)) :
    e.label = label ∧ ∃ above, rs = above ++ .escaper e :: below := by
  induction rs with
  | nil => cases h
  | cons r rs ih =>
    have lift : findEscaper label rs = some (e, below) →
        e.label = label ∧ ∃ above, r :: rs = above ++ .escaper e :: below := by
      intro hrest
      obtain ⟨hlabel, above, hrs⟩ := ih hrest
      exact ⟨hlabel, r :: above, by rw [hrs]; rfl⟩
    cases r with
    | escaper e' =>
      rw [findEscaper] at h
      by_cases hl : e'.label = label
      · rw [if_pos hl] at h
        cases h
        exact ⟨hl, [], rfl⟩
      · rw [if_neg hl] at h
        exact lift h
    | _ => exact lift h

/-- The search for the next block below one. -/
theorem findStackMarker_below (above rs : List Record) (e : EscaperRecord) :
    findStackMarker (layout (above ++ .escaper e :: rs)) .escaper (height rs + 3 - 1) =
      .ok (lastMarker .escaper rs) := by
  obtain ⟨u, hu⟩ := layout_append above (.escaper e :: rs)
  have hlen : (height rs : Int) + 4 ≤ (layout (above ++ .escaper e :: rs)).length := by
    rw [hu, List.length_append, layout_length, height]
    simp only [Record.size]
    push_cast
    omega
  unfold findStackMarker
  dsimp only
  rw [if_neg (by omega), if_pos (by omega), if_neg (by omega),
    show ((height rs : Int) + 3 - 1).toNat + 1 = (layout rs).length + 3 by
      rw [layout_length]; omega, hu, layout, List.append_assoc,
    markerLoop_skip, layout_length, markerLoop_layout]
  · intro v hv
    have hslots : Record.slots rs (.escaper e) ++ u =
        [.fixnum e.pc, e.frame.val, .fixnum e.label] ++ (Marker.escaper.value :: u) := rfl
    rw [hslots] at hv
    obtain rfl | rfl | rfl : v = .fixnum e.pc ∨ v = e.frame.val ∨ v = .fixnum e.label := by
      simpa using hv
    · exact ordinary_fixnum _ _
    · exact e.frame.property _
    · exact ordinary_fixnum _ _
  · rw [List.length_append, Record.slots_length]
    simp only [Record.size]
    omega

/-- The loop goes from block to block, to the innermost one with the label. -/
theorem escaperLoop_layout (label : Int) (rs above : List Record) (hsp : 0 ≤ sp)
    (hfind : findStackMarker (layout (above ++ rs)) .escaper (sp - 1) =
      .ok (lastMarker .escaper rs)) (hfuel : height rs + 1 < fuel) :
    escaperLoop (layout (above ++ rs)) label fuel sp =
      .ok ((findEscaper label rs).map fun found => (height found.2 + 3 : Int)) := by
  induction rs generalizing above fuel sp with
  | nil =>
    obtain ⟨fuel, rfl⟩ : ∃ n, fuel = n + 1 + 1 := ⟨fuel - 2, by omega⟩
    rw [escaperLoop, if_pos hsp, hfind]
    rfl
  | cons r rs ih =>
    have hshift : above ++ r :: rs = (above ++ [r]) ++ rs := by simp
    have hpos := r.size_pos
    simp only [height] at hfuel
    obtain ⟨fuel, rfl⟩ : ∃ n, fuel = n + 1 := ⟨fuel - 1, by omega⟩
    by_cases hr : r.marker = some .escaper
    · obtain ⟨e, rfl⟩ : ∃ e, r = .escaper e := by
        cases r with
        | escaper e => exact ⟨e, rfl⟩
        | binding kind _ _ => cases kind <;> cases hr
        | _ => cases hr
      simp only [Record.size] at hfuel
      have hlast : lastMarker .escaper (.escaper e :: rs) = height rs + 3 := by
        rw [lastMarker, if_pos hr, height]
        simp only [Record.size]
        push_cast
        omega
      have hlabel := refIndex_layout above rs (.escaper e) (k := 2)
        (i := height rs + 3 - 1) rfl (by push_cast; omega)
      rw [hlast] at hfind
      rw [escaperLoop, if_pos hsp, hfind]
      simp only [ok_bind]
      rw [if_pos (by omega), hlabel, findEscaper]
      simp only [ok_bind, Value.fixnum.injEq]
      by_cases hl : e.label = label
      · rw [if_pos hl, if_pos hl]
        rfl
      · rw [if_neg hl, if_neg hl]
        have hbelow := findStackMarker_below above rs e
        rw [hshift] at hbelow ⊢
        exact ih _ (by omega) hbelow (by omega)
    · have hlast : lastMarker .escaper (r :: rs) = lastMarker .escaper rs := by
        rw [lastMarker, if_neg hr]
      have hesc : findEscaper label (r :: rs) = findEscaper label rs := by
        cases r with
        | escaper e => exact absurd rfl hr
        | _ => rfl
      rw [hesc, hshift]
      rw [hlast, hshift] at hfind
      exact ih _ hsp hfind (by omega)

/-- The search of `idio_vm_escaper_label_ref`. -/
theorem escaperLoop_top (label : Int) (rs : List Record) :
    escaperLoop (layout rs) label ((layout rs).length + 2) (layout rs).length =
      .ok ((findEscaper label rs).map fun found => (height found.2 + 3 : Int)) := by
  refine escaperLoop_layout label rs [] (by omega) ?_ (by rw [layout_length]; omega)
  rw [List.nil_append, ← findStackMarker_layout]
  unfold findStackMarker
  dsimp only
  by_cases h0 : (layout rs).length = 0
  · rw [if_pos (by omega), if_pos (by omega)]
  · have hneg : ¬ ((layout rs).length : Int) - 1 < 0 := by omega
    have hzero : ¬ (0 : Int) ≠ 0 := by simp
    simp only [if_neg hneg, if_neg hzero]
    by_cases h1 : ((layout rs).length : Int) - 1 = 0
    · rw [if_neg (by omega)]
    · rw [if_pos h1, if_neg (by omega),
        show (((layout rs).length : Int) - 1).toNat + 1 = (layout rs).length by omega]

end Idio
