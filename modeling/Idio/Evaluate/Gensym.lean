/-
  Evaluate/Gensym.lean --- symbols that there were not.

  `idio_gensym` tries `g/1`, `g/2` and so on from a counter of its own, and interns the first
  that is no symbol yet.
-/
import Mathlib.Algebra.Group.Nat.Defs
import Mathlib.Data.List.Nodup
import Idio.Evaluate.Datum

set_option autoImplicit false

namespace Idio

/-- The symbols that there are, and the number that the next new one is tried with. -/
structure SymbolTable where
  symbols : List Sym
  gensymId : Nat

/-- The loop of `idio_gensym`.  The buffer is too small for a number of twenty digits, so the
number never wraps around. -/
def gensymLoop (symbols : List Sym) (id : Nat) : Result Nat :=
  if id = 0 then .error (.idioError "You've used all the symbols!")
  else if 10 ^ 19 ≤ id then
    .error (.stringError
      ("idio_snprintf: reqd 22 in 22 available: \"g/" ++ toString (id / 10) ++ "\""))
  else if .g id ∈ symbols then gensymLoop symbols (id + 1)
  else .ok id
termination_by 10 ^ 19 - id
decreasing_by omega

/-- `idio_gensym`, with the prefix that it has by default -/
def gensym (st : SymbolTable) : Result (Sym × SymbolTable) := do
  let id ← gensymLoop st.symbols st.gensymId
  return (.g id, ⟨.g id :: st.symbols, id⟩)

/-! ## New symbols -/

/-- A symbol that `idio_gensym` may try from `id` on. -/
def Sym.from (id : Nat) : Sym → Bool
  | .g n => id ≤ n
  | _ => false

/-- A bound for the numbers that the next new symbol is tried with. -/
def SymbolTable.reach (st : SymbolTable) : Nat :=
  st.gensymId + st.symbols.countP (Sym.from st.gensymId)

theorem countP_from_succ {symbols : List Sym} {id : Nat} (hmem : .g id ∈ symbols) :
    symbols.countP (Sym.from (id + 1)) + 1 ≤ symbols.countP (Sym.from id) := by
  have hle (l : List Sym) : l.countP (Sym.from (id + 1)) ≤ l.countP (Sym.from id) := by
    apply List.countP_mono_left
    intro s _ hs
    cases s with
    | g n => exact decide_eq_true (Nat.le_of_succ_le (of_decide_eq_true hs))
    | _ => exact hs
  obtain ⟨l₁, l₂, rfl⟩ := List.append_of_mem hmem
  have h₁ := hle l₁
  have h₂ := hle l₂
  have hout : Sym.from (id + 1) (.g id) = false := decide_eq_false (Nat.not_succ_le_self id)
  have hin : Sym.from id (.g id) = true := decide_eq_true (Nat.le_refl id)
  simp only [List.countP_append, List.countP_cons, hout, hin, if_true, Bool.false_eq_true,
    if_false]
  omega

/-- The loop ends with a number that is not in use, unless it gets to one of twenty digits. -/
theorem gensymLoop_spec {symbols : List Sym} {id : Nat} (hid : 0 < id) :
    (∃ n, gensymLoop symbols id = .ok n ∧ .g n ∉ symbols ∧ 0 < n ∧
      n + symbols.countP (Sym.from n) ≤ id + symbols.countP (Sym.from id)) ∨
    (10 ^ 19 ≤ id + symbols.countP (Sym.from id) ∧
      ∃ msg, gensymLoop symbols id = .error (.stringError msg)) := by
  fun_induction gensymLoop symbols id with
  | case1 => exact absurd hid (Nat.lt_irrefl 0)
  | case2 id _ hbig => exact .inr ⟨Nat.le_add_right_of_le hbig, _, rfl⟩
  | case3 id _ _ hmem ih =>
    have hcount := countP_from_succ hmem
    rcases ih (Nat.succ_pos id) with ⟨n, hrun, hn, hpos, hle⟩ | ⟨hle, herr⟩
    · exact .inl ⟨n, hrun, hn, hpos, by omega⟩
    · exact .inr ⟨by omega, herr⟩
  | case4 id _ _ hn => exact .inl ⟨id, rfl, hn, hid, Nat.le_refl _⟩

/-- `idio_gensym` makes a symbol that there was not. -/
theorem gensym_spec {st : SymbolTable} (hid : 0 < st.gensymId) :
    (∃ gs st', gensym st = .ok (gs, st') ∧ gs ∉ st.symbols ∧ st'.symbols = gs :: st.symbols ∧
      0 < st'.gensymId ∧ st'.reach ≤ st.reach + 1) ∨
    (10 ^ 19 ≤ st.reach ∧ ∃ msg, gensym st = .error (.stringError msg)) := by
  rcases @gensymLoop_spec st.symbols _ hid with ⟨n, hrun, hn, hpos, hle⟩ | ⟨hle, msg, hrun⟩
  · refine .inl ⟨.g n, ⟨.g n :: st.symbols, n⟩, by rw [gensym, hrun]; rfl, hn, rfl, hpos, ?_⟩
    have hin : Sym.from n (.g n) = true := decide_eq_true (Nat.le_refl n)
    simp only [SymbolTable.reach, List.countP_cons, hin, if_true]
    omega
  · exact .inr ⟨hle, msg, by rw [gensym, hrun]; rfl⟩

/-- The new symbols of a run. -/
def SymbolTable.Grown (st st' : SymbolTable) : Prop :=
  ∃ gs, st'.symbols = gs ++ st.symbols ∧ gs.Nodup ∧ ∀ x ∈ gs, x ∉ st.symbols

theorem SymbolTable.Grown.refl (st : SymbolTable) : st.Grown st :=
  ⟨[], rfl, .nil, nofun⟩

theorem SymbolTable.Grown.cons {st st₁ st₂ : SymbolTable} {gs : Sym} (hgs : gs ∉ st.symbols)
    (hst : st₁.symbols = gs :: st.symbols) (h : st₁.Grown st₂) : st.Grown st₂ := by
  obtain ⟨xs, hxs, hnodup, hnew⟩ := h
  rw [hst] at hxs hnew
  refine ⟨xs ++ [gs], by rw [hxs, List.append_assoc]; rfl, ?_, ?_⟩
  · refine hnodup.append (List.nodup_singleton gs) fun x hx hgs => ?_
    rw [List.mem_singleton.mp hgs] at hx
    exact hnew gs hx List.mem_cons_self
  · intro x hx
    rcases List.mem_append.mp hx with hx | hx
    · exact fun hmem => hnew x hx (List.mem_cons_of_mem gs hmem)
    · rw [List.mem_singleton.mp hx]
      exact hgs

end Idio
