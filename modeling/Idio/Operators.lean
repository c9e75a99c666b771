/-
  Operators.lean --- the operator tables of the expander.

  For the infix and for the postfix operators the module `operator` keeps a list of
  names with their procedures and a list of groups, one for each priority, with the
  highest priority first.  `idio_install_operator` and `idio_copy_operator` splice
  into both.

  An operator that is installed again gets its new procedure in its group, but only
  if that is the group of the new priority: the entry in a group of another priority
  stays.  `tables_consistent_iff` says that this is the one way in which the tables
  and the operators come apart.
-/
import Idio.Basic
import Idio.Lib.KeyedList
import Mathlib.Data.List.Induction

set_option autoImplicit false

namespace Idio

section Assq

variable {K V : Type} [DecidableEq K]

/-- The tail of `idio_list_assq (k, l)`; `none` for `#f`. -/
def assq (k : K) (l : List (K × V)) : Option V :=
  KeyedList.find (fun a b => decide (a = b)) l k

/-- `IDIO_PAIR_T (idio_list_assq (k, l)) = v`; `none` where the pair is `#f`. -/
def setAssq (k : K) (v : V) (l : List (K × V)) : Option (List (K × V)) :=
  KeyedList.replace (fun a b => decide (a = b)) k v l

/-- A new pair in front, or a new tail in the old pair. -/
def putAssq (k : K) (v : V) (l : List (K × V)) : List (K × V) :=
  (setAssq k v l).getD ((k, v) :: l)

/-- The values of all the pairs with a key. -/
def entries (k : K) (l : List (K × V)) : List V := (l.filter fun e => e.1 = k).map Prod.snd

@[simp] theorem entries_nil (k : K) : entries k ([] : List (K × V)) = [] := rfl

theorem entries_cons (k : K) (e : K × V) (l : List (K × V)) :
    entries k (e :: l) = if e.1 = k then e.2 :: entries k l else entries k l := by
  rw [entries, List.filter_cons]
  by_cases h : e.1 = k
  · simp [h, entries]
  · simp [h, entries]

@[simp] theorem entries_append (k : K) (l l' : List (K × V)) :
    entries k (l ++ l') = entries k l ++ entries k l' := by
  simp [entries]

theorem assq_eq_head? (k : K) (l : List (K × V)) : assq k l = (entries k l).head? := by
  induction l with
  | nil => rfl
  | cons e l ih =>
    rw [assq, KeyedList.find, entries_cons]
    by_cases h : e.1 = k
    · simp [h]
    · have h' : ¬ k = e.1 := fun hk => h hk.symm
      simp only [h, h', decide_false, if_false, Bool.false_eq_true]
      exact ih

variable {k : K} {l : List (K × V)}

theorem entries_eq_nil_of_assq (h : assq k l = none) :
    entries k l = [] := by
  rwa [assq_eq_head?, List.head?_eq_none_iff] at h

theorem setAssq_eq_none {v : V} (h : assq k l = none) :
    setAssq k v l = none := by
  rw [assq, KeyedList.find_eq_none_iff] at h
  exact KeyedList.replace_eq_none_iff.mpr h

/-- Where the pair that is found stands, and what setting its tail does. -/
theorem assq_split {v : V} (h : assq k l = some v) :
    ∃ front back, l = front ++ (k, v) :: back ∧ entries k front = [] ∧
      ∀ w, setAssq k w l = some (front ++ (k, w) :: back) := by
  induction l with
  | nil => cases h
  | cons e l ih =>
    obtain ⟨ek, ev⟩ := e
    by_cases hk : k = ek
    · subst hk
      have hv : ev = v := by
        simpa [assq, KeyedList.find] using h
      subst hv
      exact ⟨[], l, rfl, rfl, fun w => by simp [setAssq, KeyedList.replace]⟩
    · have hrest : assq k l = some v := by
        simpa [assq, KeyedList.find, hk] using h
      obtain ⟨front, back, rfl, hfront, hset⟩ := ih hrest
      refine ⟨(ek, ev) :: front, back, rfl, ?_, ?_⟩
      · rw [entries_cons, if_neg (fun he => hk he.symm), hfront]
      · intro w
        have := hset w
        rw [setAssq] at this
        simp [setAssq, KeyedList.replace, hk, this]

/-- On a list with one pair for `k` at most. -/
theorem entries_putAssq (v : V) (h : (entries k l).length ≤ 1) (x : K) :
    entries x (putAssq k v l) = if x = k then [v] else entries x l := by
  cases hk : assq k l with
  | none =>
    have hnil := entries_eq_nil_of_assq hk
    rw [putAssq, setAssq_eq_none hk, Option.getD_none, entries_cons]
    by_cases hx : x = k
    · simp [hx, hnil]
    · have hx' : ¬ k = x := fun he => hx he.symm
      simp [hx, hx']
  | some w =>
    obtain ⟨front, back, rfl, hfront, hset⟩ := assq_split hk
    have hback : entries k back = [] := by
      rw [entries_append, hfront, entries_cons, if_pos rfl] at h
      exact List.length_eq_zero_iff.mp (by simpa using h)
    rw [putAssq, hset, Option.getD_some, entries_append, entries_append, entries_cons,
      entries_cons]
    by_cases hx : x = k
    · simp [hx, hfront, hback]
    · have hx' : ¬ k = x := fun he => hx he.symm
      simp [hx, hx']

end Assq

/-! ## The tables -/

section Tables

variable {Symbol Proc : Type}

/-- A group: a priority, and the operators of that priority. -/
abbrev Group (Symbol Proc : Type) : Type := Int × List (Symbol × Proc)

/-- `*infix-operator-list*` and `*infix-operator-group*`, or the same for postfix. -/
structure OperatorTable (Symbol Proc : Type) where
  list : List (Symbol × Proc)
  groups : List (Group Symbol Proc)

/-- The walk with `c` and `p`: a new group goes before the first group of a lower
priority, or to the end. -/
def spliceGroup (g : Group Symbol Proc) : List (Group Symbol Proc) → List (Group Symbol Proc)
  | [] => [g]
  | c :: cs => if c.1 < g.1 then g :: c :: cs else c :: spliceGroup g cs

/-- The group of a priority changed by `f`, or a new group with what `f` makes of no
operators. -/
def putGroup (pri : Int) (f : List (Symbol × Proc) → List (Symbol × Proc))
    (og : List (Group Symbol Proc)) : List (Group Symbol Proc) :=
  match assq pri og with
  | none => spliceGroup (pri, f []) og
  | some procs => (setAssq pri (f procs) og).getD og

/-! ## The order of the groups -/

/-- Strictly descending priorities. -/
def Descending (og : List (Group Symbol Proc)) : Prop := og.Pairwise fun g h => h.1 < g.1

variable {og : List (Group Symbol Proc)}

theorem assq_none_priorities {pri : Int} (h : assq pri og = none) :
    ∀ g ∈ og, g.1 ≠ pri := by
  rw [assq, KeyedList.find_eq_none_iff] at h
  intro g hg hpri
  have := h g hg
  simp [hpri] at this

/-- The walk ends between the higher and the lower priorities. -/
theorem spliceGroup_split (g : Group Symbol Proc) (hd : Descending og) (hne : ∀ c ∈ og, c.1 ≠ g.1) :
    ∃ front back, og = front ++ back ∧ spliceGroup g og = front ++ g :: back ∧
      (∀ c ∈ front, g.1 < c.1) ∧ ∀ c ∈ back, c.1 < g.1 := by
  induction og with
  | nil => exact ⟨[], [], rfl, rfl, by simp, by simp⟩
  | cons c cs ih =>
    obtain ⟨hc, hd⟩ := List.pairwise_cons.mp hd
    rw [spliceGroup]
    by_cases hlt : c.1 < g.1
    · refine ⟨[], c :: cs, rfl, by rw [if_pos hlt]; rfl, by simp, ?_⟩
      intro d hdm
      rcases List.mem_cons.mp hdm with rfl | hdm
      · exact hlt
      · exact Int.lt_trans (hc d hdm) hlt
    · obtain ⟨front, back, rfl, hsplice, hfront, hback⟩ :=
        ih hd fun d hdm => hne d (List.mem_cons_of_mem c hdm)
      refine ⟨c :: front, back, rfl, by rw [if_neg hlt, hsplice]; rfl, ?_, hback⟩
      intro d hdm
      rcases List.mem_cons.mp hdm with rfl | hdm
      · have := hne d List.mem_cons_self
        omega
      · exact hfront d hdm

/-- What `putGroup` does: the groups on both sides stay, and `f` is applied between. -/
theorem putGroup_split (pri : Int) (f : List (Symbol × Proc) → List (Symbol × Proc))
    (hd : Descending og) :
    ∃ front back procs, (og = front ++ back ∧ procs = [] ∨ og = front ++ (pri, procs) :: back) ∧
      putGroup pri f og = front ++ (pri, f procs) :: back ∧
      (∀ c ∈ front, pri < c.1) ∧ ∀ c ∈ back, c.1 < pri := by
  rw [putGroup]
  cases h : assq pri og with
  | none =>
    obtain ⟨front, back, hog, hsplice, hfront, hback⟩ :=
      spliceGroup_split (pri, f []) hd (assq_none_priorities h)
    exact ⟨front, back, [], .inl ⟨hog, rfl⟩, hsplice, hfront, hback⟩
  | some procs =>
    obtain ⟨front, back, rfl, -, hset⟩ := assq_split h
    obtain ⟨-, hmid, hacross⟩ := List.pairwise_append.mp hd
    refine ⟨front, back, procs, .inr rfl, by simp [hset], ?_, ?_⟩
    · intro c hc
      exact hacross c hc (pri, procs) List.mem_cons_self
    · exact (List.pairwise_cons.mp hmid).1

theorem putGroup_descending (pri : Int) (f : List (Symbol × Proc) → List (Symbol × Proc))
    (hd : Descending og) : Descending (putGroup pri f og) := by
  obtain ⟨front, back, procs, hog, hput, hfront, hback⟩ := putGroup_split pri f hd
  have hparts : Descending front ∧ Descending back := by
    rcases hog with ⟨rfl, -⟩ | rfl
    · exact ⟨(List.pairwise_append.mp hd).1, (List.pairwise_append.mp hd).2.1⟩
    · obtain ⟨hf, hb, -⟩ := List.pairwise_append.mp hd
      exact ⟨hf, (List.pairwise_cons.mp hb).2⟩
  rw [hput]
  refine List.pairwise_append.mpr ⟨hparts.1, List.pairwise_cons.mpr ⟨hback, hparts.2⟩, ?_⟩
  intro c hc d hdm
  rcases List.mem_cons.mp hdm with rfl | hdm
  · exact hfront c hc
  · exact Int.lt_trans (hback d hdm) (hfront c hc)

/-! ## Installing and copying -/

variable [DecidableEq Symbol]

/-- `idio_install_operator`, less the value of the symbol. -/
def OperatorTable.install (t : OperatorTable Symbol Proc) (id : Symbol) (proc : Proc) (pri : Int) :
    OperatorTable Symbol Proc where
  list := putAssq id proc t.list
  -- only the group of `pri` is looked at, wherever else `id` is listed
  groups := putGroup pri (putAssq id proc) t.groups

/-- `idio_copy_operator`. -/
def OperatorTable.copy (t : OperatorTable Symbol Proc) (newId : Symbol) (fpri : Int)
    (oldId : Symbol) : Result (OperatorTable Symbol Proc) :=
  match assq newId t.list, assq oldId t.list with
  | some _, _ => .error (.evaluationError "operator already defined")
  | none, none => .error (.evaluationError "operator not defined")
  | none, some old =>
      .ok {
        list := (newId, old) :: t.list
        groups := putGroup fpri (fun procs => (newId, old) :: procs) t.groups }

/-- Where an operator is listed: the priorities of its groups, with its procedures. -/
def listings (x : Symbol) (og : List (Group Symbol Proc)) : List (Int × Proc) :=
  og.flatMap fun g => (entries x g.2).map fun proc => (g.1, proc)

@[simp] theorem listings_append (x : Symbol) (og og' : List (Group Symbol Proc)) :
    listings x (og ++ og') = listings x og ++ listings x og' := List.flatMap_append

@[simp] theorem listings_cons (x : Symbol) (g : Group Symbol Proc) (og : List (Group Symbol Proc)) :
    listings x (g :: og) = (entries x g.2).map (fun proc => (g.1, proc)) ++ listings x og :=
  List.flatMap_cons

/-- The operators as they ought to be: for each name its latest priority and procedure. -/
abbrev Latest (Symbol Proc : Type) : Type := Symbol → Option (Int × Proc)

/-- The tables list each operator once, in the group of its latest priority and with
its latest procedure, and the groups are in descending order. -/
structure Consistent (t : OperatorTable Symbol Proc) (m : Latest Symbol Proc) : Prop where
  descending : Descending t.groups
  inList : ∀ x, entries x t.list = ((m x).map Prod.snd).toList
  inGroups : ∀ x, listings x t.groups = (m x).toList

variable {m : Latest Symbol Proc} {t : OperatorTable Symbol Proc}

theorem Consistent.list_length_le (h : Consistent t m) (x : Symbol) :
    (entries x t.list).length ≤ 1 := by
  rw [h.inList]
  cases m x <;> simp

theorem Consistent.assq_eq (h : Consistent t m) (x : Symbol) :
    assq x t.list = (m x).map Prod.snd := by
  rw [assq_eq_head?, h.inList]
  cases m x <;> rfl

/-- Installing `id` leaves no entry in a group of another priority. -/
def KeepsPriority (t : OperatorTable Symbol Proc) (id : Symbol) (pri : Int) : Prop :=
  ∀ g ∈ t.groups, g.1 ≠ pri → entries id g.2 = []

theorem listings_eq_nil_iff {x : Symbol} :
    listings x og = [] ↔ ∀ g ∈ og, entries x g.2 = [] := by
  simp [listings]

/-- An install keeps the tables consistent exactly if `id` is in no other group. -/
theorem install_consistent_iff (h : Consistent t m) (id : Symbol) (proc : Proc) (pri : Int) :
    Consistent (t.install id proc pri) (Function.update m id (some (pri, proc))) ↔
      KeepsPriority t id pri := by
  have hlist : ∀ x, entries x (t.install id proc pri).list =
      ((Function.update m id (some (pri, proc)) x).map Prod.snd).toList := by
    intro x
    rw [OperatorTable.install, entries_putAssq proc (h.list_length_le id), Function.update_apply]
    by_cases hx : x = id
    · simp [hx]
    · simp [hx, h.inList x]
  obtain ⟨front, back, procs, hog, hput, hfront, hback⟩ :=
    putGroup_split pri (putAssq id proc) h.descending
  have hone : (entries id procs).length ≤ 1 := by
    have hle : (listings id t.groups).length ≤ 1 := by
      rw [h.inGroups]
      cases m id <;> simp
    rcases hog with ⟨-, rfl⟩ | hog
    · simp
    · rw [hog] at hle
      simp only [listings_append, listings_cons, List.length_append, List.length_map] at hle
      omega
  -- the listings of `id` outside its new group decide
  have hkeeps : KeepsPriority t id pri ↔ listings id front = [] ∧ listings id back = [] := by
    rw [KeepsPriority, listings_eq_nil_iff, listings_eq_nil_iff]
    constructor
    · intro hk
      refine ⟨fun g hg => hk g ?_ (Int.ne_of_lt (hfront g hg)).symm, fun g hg => hk g ?_ (Int.ne_of_lt (hback g hg))⟩
      · rcases hog with ⟨hog, -⟩ | hog <;> simp [hog, hg]
      · rcases hog with ⟨hog, -⟩ | hog <;> simp [hog, hg]
    · rintro ⟨hf, hb⟩ g hg hne
      rcases hog with ⟨hog, -⟩ | hog
      · rw [hog, List.mem_append] at hg
        exact hg.elim (hf g) (hb g)
      · rw [hog, List.mem_append, List.mem_cons] at hg
        rcases hg with hg | rfl | hg
        · exact hf g hg
        · exact absurd rfl hne
        · exact hb g hg
  have hself : listings id (t.install id proc pri).groups =
      listings id front ++ (pri, proc) :: listings id back := by
    rw [OperatorTable.install, hput]
    simp [entries_putAssq proc hone]
  rw [hkeeps]
  constructor
  · intro h'
    have hat := h'.inGroups id
    rw [hself, Function.update_self] at hat
    have hlen := congrArg List.length hat
    simp only [List.length_append, List.length_cons, Option.toList_some, List.length_nil] at hlen
    exact ⟨List.length_eq_zero_iff.mp (by omega), List.length_eq_zero_iff.mp (by omega)⟩
  · rintro ⟨hf, hb⟩
    refine ⟨putGroup_descending pri _ h.descending, hlist, ?_⟩
    intro x
    by_cases hx : x = id
    · rw [hx, hself, hf, hb, Function.update_self]
      rfl
    · have hother : listings x (t.install id proc pri).groups = listings x t.groups := by
        rw [OperatorTable.install, hput]
        rcases hog with ⟨hog, rfl⟩ | hog
        · rw [hog]
          simp [entries_putAssq proc hone, hx]
        · rw [hog]
          simp [entries_putAssq proc hone, hx]
      rw [hother, Function.update_of_ne hx, h.inGroups]

/-- Copying to a new name is installing the old procedure under it. -/
theorem copy_eq_install (h : Consistent t m) {newId oldId : Symbol} {fpri pri : Int} {old : Proc}
    (hnew : m newId = none) (hold : m oldId = some (pri, old)) :
    t.copy newId fpri oldId = .ok (t.install newId old fpri) := by
  have hnone : assq newId t.list = none := by rw [h.assq_eq, hnew]; rfl
  have hsome : assq oldId t.list = some old := by rw [h.assq_eq, hold]; rfl
  have hfree : listings newId t.groups = [] := by rw [h.inGroups, hnew]; rfl
  have hgroups : putGroup fpri (fun procs => (newId, old) :: procs) t.groups =
      putGroup fpri (putAssq newId old) t.groups := by
    rw [putGroup, putGroup]
    cases hg : assq fpri t.groups with
    | none => rfl
    | some procs =>
      obtain ⟨front, back, hog, -⟩ := assq_split hg
      have hprocs : assq newId procs = none := by
        have hmem : (fpri, procs) ∈ t.groups := by rw [hog]; simp
        rw [assq_eq_head?, listings_eq_nil_iff.mp hfree _ hmem]
        rfl
      dsimp only
      rw [putAssq, setAssq_eq_none hprocs, Option.getD_none]
  rw [OperatorTable.copy, hnone, hsome, OperatorTable.install, putAssq, setAssq_eq_none hnone]
  simp only [hgroups, Option.getD_none]

/-! ## Runs -/

/-- The two kinds of operators. -/
inductive OperatorKind where
  | infixOperator
  | postfixOperator
  deriving DecidableEq, Repr

/-- A call of one of the functions that change the tables. -/
inductive OperatorCall (Symbol Proc : Type) where
  /-- `idio_install_infix_operator`, `idio_install_postfix_operator` -/
  | install (kind : OperatorKind) (id : Symbol) (proc : Proc) (pri : Int)
  /-- `idio_copy_infix_operator`, `idio_copy_postfix_operator` -/
  | copy (kind : OperatorKind) (newId : Symbol) (fpri : Int) (oldId : Symbol)

/-- The tables of the module `operator`. -/
abbrev OperatorTables (Symbol Proc : Type) : Type := OperatorKind → OperatorTable Symbol Proc

/-- The tables after a call; a call that raises changes nothing. -/
def OperatorCall.run (c : OperatorCall Symbol Proc) (ts : OperatorTables Symbol Proc) :
    OperatorTables Symbol Proc :=
  match c with
  | .install kind id proc pri => Function.update ts kind ((ts kind).install id proc pri)
  | .copy kind newId fpri oldId =>
      match (ts kind).copy newId fpri oldId with
      | .ok t => Function.update ts kind t
      | .error _ => ts

/-- What a call makes of the operators. -/
def OperatorCall.latest (c : OperatorCall Symbol Proc) (ms : OperatorKind → Latest Symbol Proc) :
    OperatorKind → Latest Symbol Proc :=
  match c with
  | .install kind id proc pri =>
      Function.update ms kind (Function.update (ms kind) id (some (pri, proc)))
  | .copy kind newId fpri oldId =>
      match ms kind newId, ms kind oldId with
      | none, some old =>
          Function.update ms kind (Function.update (ms kind) newId (some (fpri, old.2)))
      | _, _ => ms

/-- The tables of `idio_init_expander`, and then of the calls in order. -/
def runCalls (cs : List (OperatorCall Symbol Proc)) : OperatorTables Symbol Proc :=
  cs.foldl (fun ts c => c.run ts) fun _ => ⟨[], []⟩

/-- The operators after the calls. -/
def latestOf (cs : List (OperatorCall Symbol Proc)) : OperatorKind → Latest Symbol Proc :=
  cs.foldl (fun ms c => c.latest ms) fun _ _ => none

/-- A call does not install an operator that is listed under another priority. -/
def OperatorCall.Keeps (c : OperatorCall Symbol Proc) (ts : OperatorTables Symbol Proc) : Prop :=
  match c with
  | .install kind id _ pri => KeepsPriority (ts kind) id pri
  | .copy _ _ _ _ => True

/-- Both tables are consistent. -/
def AllConsistent (ts : OperatorTables Symbol Proc) (ms : OperatorKind → Latest Symbol Proc) :
    Prop :=
  ∀ kind, Consistent (ts kind) (ms kind)

theorem allConsistent_update {ts : OperatorTables Symbol Proc}
    {ms : OperatorKind → Latest Symbol Proc} (h : AllConsistent ts ms) {kind : OperatorKind} :
    AllConsistent (Function.update ts kind t) (Function.update ms kind m) ↔ Consistent t m := by
  constructor
  · intro h'
    simpa using h' kind
  · intro ht k
    by_cases hk : k = kind
    · subst hk
      simpa using ht
    · rw [Function.update_of_ne hk, Function.update_of_ne hk]
      exact h k

/-- One call, from consistent tables. -/
theorem call_consistent_iff {ts : OperatorTables Symbol Proc}
    {ms : OperatorKind → Latest Symbol Proc} (h : AllConsistent ts ms)
    (c : OperatorCall Symbol Proc) : AllConsistent (c.run ts) (c.latest ms) ↔ c.Keeps ts := by
  cases c with
  | install kind id proc pri =>
    exact (allConsistent_update h).trans (install_consistent_iff (h kind) id proc pri)
  | copy kind newId fpri oldId =>
    have hkeeps : (OperatorCall.copy kind newId fpri oldId).Keeps ts := trivial
    refine iff_of_true ?_ hkeeps
    cases hnew : ms kind newId with
    | some new =>
      have herr : (ts kind).copy newId fpri oldId =
          .error (.evaluationError "operator already defined") := by
        rw [OperatorTable.copy, (h kind).assq_eq newId, hnew]
        rfl
      simpa only [OperatorCall.run, OperatorCall.latest, herr, hnew] using h
    | none =>
      cases hold : ms kind oldId with
      | none =>
        have herr : (ts kind).copy newId fpri oldId =
            .error (.evaluationError "operator not defined") := by
          rw [OperatorTable.copy, (h kind).assq_eq newId, hnew, (h kind).assq_eq oldId, hold]
          rfl
        simpa only [OperatorCall.run, OperatorCall.latest, herr, hnew, hold] using h
      | some old =>
        have hok : (ts kind).copy newId fpri oldId = .ok ((ts kind).install newId old.2 fpri) :=
          copy_eq_install (h kind) hnew hold
        simp only [OperatorCall.run, OperatorCall.latest, hok, hnew, hold]
        apply (allConsistent_update h).mpr
        apply (install_consistent_iff (h kind) newId old.2 fpri).mpr
        intro g hg _
        have hfree : listings newId (ts kind).groups = [] := by rw [(h kind).inGroups, hnew]; rfl
        exact listings_eq_nil_iff.mp hfree g hg

theorem init_consistent : AllConsistent (runCalls ([] : List (OperatorCall Symbol Proc)))
    (latestOf []) := fun _ => ⟨List.Pairwise.nil, fun _ => rfl, fun _ => rfl⟩

/-- In every run the groups are in descending order, installed twice or not. -/
theorem runCalls_descending (cs : List (OperatorCall Symbol Proc)) (kind : OperatorKind) :
    Descending (runCalls cs kind).groups := by
  induction cs using List.reverseRecOn generalizing kind with
  | nil => exact List.Pairwise.nil
  | append_singleton cs c ih =>
    have hstep : runCalls (cs ++ [c]) = c.run (runCalls cs) := by simp [runCalls]
    have update : ∀ (k : OperatorKind) (t : OperatorTable Symbol Proc), Descending t.groups →
        Descending (Function.update (runCalls cs) k t kind).groups := by
      intro k t ht
      rw [Function.update_apply]
      split
      · exact ht
      · exact ih kind
    rw [hstep]
    cases c with
    | install k id proc pri => exact update k _ (putGroup_descending pri _ (ih k))
    | copy k newId fpri oldId =>
      cases hcopy : (runCalls cs k).copy newId fpri oldId with
      | error f => simpa only [OperatorCall.run, hcopy] using ih kind
      | ok t =>
        simp only [OperatorCall.run, hcopy]
        apply update
        rw [OperatorTable.copy] at hcopy
        split at hcopy
        · cases hcopy
        · cases hcopy
        · cases hcopy
          exact putGroup_descending fpri _ (ih k)

/-- In any run, the tables stay consistent exactly as long as no call installs an
operator under a second priority. -/
theorem tables_consistent_iff (cs : List (OperatorCall Symbol Proc)) :
    (∀ pre, pre <+: cs → AllConsistent (runCalls pre) (latestOf pre)) ↔
      ∀ pre c, pre ++ [c] <+: cs → c.Keeps (runCalls pre) := by
  have hstep : ∀ (pre : List (OperatorCall Symbol Proc)) c,
      runCalls (pre ++ [c]) = c.run (runCalls pre) ∧
        latestOf (pre ++ [c]) = c.latest (latestOf pre) := by
    intro pre c
    simp [runCalls, latestOf]
  constructor
  · intro h pre c hpre
    have hafter := h _ hpre
    rw [(hstep pre c).1, (hstep pre c).2] at hafter
    have hbefore := h pre ((List.prefix_append pre [c]).trans hpre)
    exact (call_consistent_iff hbefore c).mp hafter
  · intro h pre
    induction pre using List.reverseRecOn with
    | nil => exact fun _ => init_consistent
    | append_singleton pre c ih =>
      intro hpre
      have hbefore := ih ((List.prefix_append pre [c]).trans hpre)
      rw [(hstep pre c).1, (hstep pre c).2]
      exact (call_consistent_iff hbefore c).mpr (h pre c hpre)

end Tables

/-- `+` at the priority 700, and then again at 600. -/
def twoPriorities : List (OperatorCall String Nat) :=
  [.install .infixOperator "+" 1 700, .install .infixOperator "+" 2 600]

/-- Both procedures are listed, and the old one comes first. -/
theorem operator_in_two_groups :
    listings "+" (runCalls twoPriorities .infixOperator).groups = [(700, 1), (600, 2)] ∧
      ¬ AllConsistent (runCalls twoPriorities) (latestOf twoPriorities) := by
  have hlist : listings "+" (runCalls twoPriorities .infixOperator).groups =
      [(700, 1), (600, 2)] := by decide
  refine ⟨hlist, ?_⟩
  intro h
  have hone := (h .infixOperator).inGroups "+"
  rw [hlist] at hone
  have hlatest : latestOf twoPriorities .infixOperator "+" = some (600, 2) := by decide
  rw [hlatest] at hone
  exact absurd (congrArg List.length hone) (by decide)

end Idio
