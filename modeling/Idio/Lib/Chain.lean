/-
  Lib/Chain.lean --- chains of records that store the index of the next.

  `find` gives the record at an index and `next` the index a record stores; the last
  record of a chain stores its own.  `Walk p ts` says that the walk from `p` visits the
  records `ts`.  Where every stored index is a smaller one that holds a record, or the
  record's own, there is a walk from every record (`walk_exists`), and what is passed
  on from a record to the next holds all along a walk (`Walk.forall`).

  `firstMatch` is what a search along a chain finds.
-/
import Mathlib.Data.List.Basic
import Mathlib.Tactic.Common

set_option autoImplicit false

namespace Chain

variable {T : Type}

/-- The records a walk visits, with their indices. -/
inductive Walk (find : Int → Option T) (next : T → Int) : Int → List (Int × T) → Prop where
  | last {p : Int} {t : T} (at_ : find p = some t) (own : next t = p) : Walk find next p [(p, t)]
  | step {p : Int} {t : T} {ts : List (Int × T)} (at_ : find p = some t) (other : next t ≠ p)
      (rest : Walk find next (next t) ts) : Walk find next p ((p, t) :: ts)

/-- Every stored index is that of a record further down, or the record's own. -/
def Descends (find : Int → Option T) (next : T → Int) : Prop :=
  ∀ p t, find p = some t → next t = p ∨ next t < p ∧ ∃ u, find (next t) = some u

variable {find : Int → Option T} {next : T → Int}

/-- There is a walk from every record, and it is no longer than the index. -/
theorem walk_exists (h : Descends find next) {lo : Int} (hlo : ∀ p t, find p = some t → lo ≤ p)
    {p : Int} {t : T} (hp : find p = some t) :
    ∃ ts, Walk find next p ts ∧ (ts.length : Int) ≤ p - lo + 1 := by
  obtain ⟨n, hn⟩ : ∃ n : Nat, p = lo + n := ⟨(p - lo).toNat, by have := hlo p t hp; omega⟩
  induction n using Nat.strongRecOn generalizing p t with
  | ind n ih =>
    obtain hown | ⟨hlt, u, hu⟩ := h p t hp
    · have := hlo p t hp
      exact ⟨_, .last hp hown, by simp only [List.length_singleton]; omega⟩
    · have hge := hlo _ u hu
      obtain ⟨ts, hwalk, hlen⟩ := ih (next t - lo).toNat (by omega) hu (by omega)
      exact ⟨_, .step hp (by omega) hwalk, by simp only [List.length_cons]; push_cast; omega⟩

/-- What a record passes on to the next holds of all that a walk visits. -/
theorem Walk.forall {P : T → Prop}
    (hstep : ∀ p t u, find p = some t → P t → find (next t) = some u → P u)
    {p : Int} {ts : List (Int × T)} (h : Walk find next p ts) :
    (∀ t, find p = some t → P t) → ∀ v ∈ ts, find v.1 = some v.2 ∧ P v.2 := by
  induction h with
  | last hp hown =>
    intro h0 v hv
    rw [List.mem_singleton] at hv
    subst hv
    exact ⟨hp, h0 _ hp⟩
  | step hp hother hrest ih =>
    intro h0 v hv
    obtain rfl | hv := List.mem_cons.mp hv
    · exact ⟨hp, h0 _ hp⟩
    · exact ih (fun u hu => hstep _ _ u hp (h0 _ hp) hu) v hv

/-- The first record on a walk that a test accepts. -/
def firstMatch {ε : Type} (none_ : ε) (test : T → Except ε Bool) :
    List (Int × T) → Except ε (Int × T)
  | [] => .error none_
  | (p, t) :: ts =>
      match test t with
      | .ok true => .ok (p, t)
      | .ok false => firstMatch none_ test ts
      | .error err => .error err

/-- The record that is found is accepted, and all before it are not. -/
theorem firstMatch_eq_ok {ε : Type} {none_ : ε} {test : T → Except ε Bool}
    {ts : List (Int × T)} {v : Int × T} (h : firstMatch none_ test ts = .ok v) :
    ∃ newer older, ts = newer ++ v :: older ∧ test v.2 = .ok true ∧
      ∀ u ∈ newer, test u.2 = .ok false := by
  induction ts with
  | nil => cases h
  | cons u ts ih =>
    obtain ⟨p, t⟩ := u
    rw [firstMatch] at h
    split at h
    · rename_i htest
      cases h
      exact ⟨[], ts, rfl, htest, by simp⟩
    · rename_i htest
      obtain ⟨newer, older, rfl, hv, hnewer⟩ := ih h
      refine ⟨(p, t) :: newer, older, rfl, hv, fun u hu => ?_⟩
      obtain rfl | hu := List.mem_cons.mp hu
      · exact htest
      · exact hnewer u hu
    · cases h

end Chain
