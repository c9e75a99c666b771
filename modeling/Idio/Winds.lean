/-
  Winds.lean --- the wind tree of `dynamic-wind`.

  call-cc.idio keeps a tree of pairs.  `*here*` is its root for the time being, and each other
  pair holds a `before` and an `after` thunk and leads to the neighbour that is next on the way
  to `*here*`.  `reroot!` goes to a pair: it reroots the tree to the neighbour first and then
  turns the one link that is left, so that the pair is the root and its thunk `before` is called.

  The tree that stays the same is that of the extents: `dynamic-wind` makes a pair below the one
  that is `*here*`, and that is its parent for good.  Thunks are values of any type, and the state
  lists those that were called; a thunk returns and does not reroot the tree.
-/
import Idio.Basic
import Idio.Lib.ParentTree
import Mathlib.Data.List.Perm.Subperm

set_option autoImplicit false

namespace Idio.Winds

section Winds

variable {T : Type}

/-! ## The code -/

/-- A pair of the tree: `(before . after)` or `#f`, and a pair of the tree or `#n`. -/
structure Node (T : Type) where
  ph : Option (T × T)
  pt : Option Nat
  deriving DecidableEq, Repr

/-- The pairs in the order they are made, `*here*`, and the thunks that were called. -/
structure State (T : Type) where
  nodes : List (Node T)
  here : Nat
  called : List T
  deriving DecidableEq, Repr

/-- `(pt there)` -/
def State.pt (st : State T) (there : Nat) : Result Nat :=
  match st.nodes[there]? with
  | none => .error .undefined
  | some node => match node.pt with
      | none => .error (.paramType "pair")
      | some p => .ok p

/-- `(phh there)` and `(pth there)` -/
def State.ph (st : State T) (there : Nat) : Result (T × T) :=
  match st.nodes[there]? with
  | none => .error .undefined
  | some node => match node.ph with
      | none => .error (.paramType "pair")
      | some p => .ok p

/-- `reroot!` -/
def reroot : Nat → Nat → State T → Result (State T)
  | 0, _, _ => .error .diverges
  | fuel + 1, there, st =>
      if st.here = there then .ok st
      else do
        let st ← reroot fuel (← st.pt there) st
        let (before, after) ← st.ph there
        let nodes := st.nodes.set st.here ⟨some (after, before), some there⟩
        let nodes := nodes.set there ⟨none, none⟩
        .ok ⟨nodes, there, st.called ++ [before]⟩

/-- `(pair (pair before after) here)` -/
def State.push (st : State T) (before after : T) : State T :=
  { st with nodes := st.nodes ++ [⟨some (before, after), some st.here⟩] }

/-- The first part of `dynamic-wind`. -/
def wind (fuel : Nat) (before after : T) (st : State T) : Result (State T) :=
  reroot fuel st.nodes.length (st.push before after)

/-! ## The extents -/

/-- An extent of `dynamic-wind`: where it was entered, and its thunks. -/
structure Extent (T : Type) where
  parent : Nat
  before : T
  after : T
  deriving DecidableEq, Repr

/-- The extent of a pair; the first pair has none. -/
def extent (es : List (Extent T)) : Nat → Option (Extent T)
  | 0 => none
  | k + 1 => es[k]?

/-- The pair that was `*here*` when the extent was entered, which is an older one. -/
def parentOf (es : List (Extent T)) (n : Nat) : Option Nat :=
  (extent es n).bind fun e => if e.parent < n then some e.parent else none

theorem parentOf_lt {es : List (Extent T)} {n p : Nat} (h : parentOf es n = some p) : p < n := by
  obtain ⟨e, -, h⟩ := Option.bind_eq_some_iff.mp h
  split at h
  · rename_i hlt
    cases h
    exact hlt
  · cases h

def ancestorsOf (es : List (Extent T)) (n : Nat) : List Nat :=
  n :: match h : parentOf es n with
    | none => []
    | some p =>
      have := parentOf_lt h
      ancestorsOf es p
termination_by n

/-- The tree of the extents. -/
def tree (es : List (Extent T)) : ParentTree Nat where
  parent := parentOf es
  ancestors := ancestorsOf es
  ancestors_eq n := by
    rw [ancestorsOf]
    split <;> rename_i h <;> simp [h]

/-- The thunks for going from `m` to its neighbour `n`, and back. -/
def crossing (es : List (Extent T)) (m n : Nat) : Option (T × T) :=
  if parentOf es n = some m then (extent es n).map fun e => (e.before, e.after)
  else (extent es m).map fun e => (e.after, e.before)

/-- The after thunks of the extents that are left on the way, and the before thunks of those that
are entered. -/
def thunks (es : List (Extent T)) (m n : Nat) : List (Option T) :=
  ((tree es).leaves m n).map (fun k => (extent es k).map Extent.after) ++
    ((tree es).leaves n m).reverse.map fun k => (extent es k).map Extent.before

/-- What a run makes of the extents and of the state. -/
inductive Reached : List (Extent T) → State T → Prop where
  | init : Reached [] ⟨[⟨none, none⟩], 0, []⟩
  | wind {es : List (Extent T)} {st st' : State T} {fuel : Nat} {before after : T} :
      Reached es st → wind fuel before after st = .ok st' →
      Reached (es ++ [⟨st.here, before, after⟩]) st'
  | reroot {es : List (Extent T)} {st st' : State T} {fuel there : Nat} :
      Reached es st → there < st.nodes.length → reroot fuel there st = .ok st' → Reached es st'

/-! ## The invariant -/

/-- The pair of `n` where the root is `h`. -/
def nodeTowards (es : List (Extent T)) (h n : Nat) : Node T :=
  if n = h then ⟨none, none⟩
  else
    let m := (tree es).toward h n
    ⟨m.bind fun m => crossing es m n, m⟩

/-- Each pair leads towards `*here*`, with its thunks for the way from there and to there. -/
structure Oriented (es : List (Extent T)) (st : State T) : Prop where
  length : st.nodes.length = es.length + 1
  here_lt : st.here < st.nodes.length
  older : ∀ n, 0 < n → n < st.nodes.length → ∃ p, parentOf es n = some p
  node : ∀ n, n < st.nodes.length → st.nodes[n]? = some (nodeTowards es st.here n)

section Tree

variable {es : List (Extent T)} {st : State T} {h m n p there : Nat}

theorem ancestors_le (hm : m ∈ (tree es).ancestors n) : m ≤ n := by
  induction n using Nat.strongRecOn with
  | ind n ih =>
    cases hp : (tree es).parent n with
    | none =>
      rw [(tree es).ancestors_root hp, List.mem_singleton] at hm
      exact Nat.le_of_eq hm
    | some p =>
      rw [(tree es).ancestors_parent hp] at hm
      have hlt := parentOf_lt hp
      rcases List.mem_cons.mp hm with rfl | hm
      · exact Nat.le_refl m
      · exact Nat.le_trans (ih p hlt hm) (Nat.le_of_lt hlt)

/-- The first pair is an ancestor of all. -/
theorem Oriented.zero_mem (ho : Oriented es st) (hn : n < st.nodes.length) :
    0 ∈ (tree es).ancestors n := by
  induction n using Nat.strongRecOn with
  | ind n ih =>
    rcases Nat.eq_zero_or_pos n with rfl | hpos
    · exact (tree es).mem_ancestors_self 0
    · obtain ⟨p, hp⟩ := ho.older n hpos hn
      have hlt := parentOf_lt hp
      rw [(tree es).ancestors_parent hp]
      exact List.mem_cons_of_mem _ (ih p hlt (Nat.lt_trans hlt hn))

/-- There is a way from every pair to every other. -/
theorem Oriented.toward_some (ho : Oriented es st) (hh : h < st.nodes.length)
    (hn : n < st.nodes.length) (hne : n ≠ h) :
    ∃ m, (tree es).toward h n = some m ∧ m < st.nodes.length := by
  by_cases hmem : n ∈ (tree es).ancestors h
  · obtain ⟨m, front, hm, -, hfront⟩ := (tree es).toward_child hmem hne
    have hmh : m ∈ (tree es).ancestors h := by
      rw [hfront]
      exact List.mem_append_right _ ((tree es).mem_ancestors_self m)
    exact ⟨m, hm, Nat.lt_of_le_of_lt (ancestors_le hmh) hh⟩
  · have hpos : 0 < n := Nat.pos_of_ne_zero fun h0 => hmem (h0 ▸ ho.zero_mem hh)
    obtain ⟨p, hp⟩ := ho.older n hpos hn
    exact ⟨p, ((tree es).toward_parent hmem).trans hp, Nat.lt_trans (parentOf_lt hp) hn⟩

/-- The thunks of a link are those of one extent, the one way round or the other. -/
theorem crossing_adjacent (hadj : (tree es).Adjacent m n) :
    ∃ before after, crossing es m n = some (before, after) ∧
      crossing es n m = some (after, before) := by
  have hdown : ∀ {m n : Nat}, parentOf es n = some m → ∃ before after,
      crossing es m n = some (before, after) ∧ crossing es n m = some (after, before) := by
    intro m n hp
    obtain ⟨e, he, -⟩ := Option.bind_eq_some_iff.mp hp
    have hnot : ¬ parentOf es m = some n := fun hq =>
      Nat.lt_asymm (parentOf_lt hp) (parentOf_lt hq)
    refine ⟨e.before, e.after, ?_, ?_⟩
    · rw [crossing, if_pos hp, he]
      rfl
    · rw [crossing, if_neg hnot, he]
      rfl
  rcases hadj with hp | hp
  · obtain ⟨before, after, h₁, h₂⟩ := hdown hp
    exact ⟨after, before, h₂, h₁⟩
  · exact hdown hp

theorem thunks_self (n : Nat) : thunks es n n = [] := by
  rw [thunks, (tree es).leaves_self]
  rfl

/-- One more step calls one more thunk. -/
theorem thunks_step (hne : n ≠ h) (hm : (tree es).toward h n = some m) :
    thunks es h n = thunks es h m ++ [(crossing es m n).map Prod.fst] := by
  rw [thunks, thunks]
  rcases (tree es).leaves_step hne hm with ⟨hp, hup, hdown⟩ | ⟨hp, hup, hdown, hm⟩
  · have hp : parentOf es n = some m := hp
    rw [hup, hdown, crossing, if_pos hp, List.reverse_cons, List.map_append, ← List.append_assoc,
      Option.map_map]
    rfl
  · have hnot : ¬ parentOf es n = some m := fun hq =>
      Nat.lt_asymm (parentOf_lt hp) (parentOf_lt hq)
    rw [hup, hdown, hm, crossing, if_neg hnot, Option.map_map, List.reverse_nil, List.map_nil,
      List.append_nil, List.append_nil, List.map_append]
    rfl

theorem nodeTowards_root (h : Nat) : nodeTowards es h h = ⟨none, none⟩ := if_pos rfl

theorem nodeTowards_link (hne : n ≠ h) (hm : (tree es).toward h n = some m) :
    nodeTowards es h n = ⟨crossing es m n, some m⟩ := by
  rw [nodeTowards, if_neg hne, hm]
  rfl

theorem Oriented.pt_eq (ho : Oriented es st) (hn : n < st.nodes.length) (hne : n ≠ st.here)
    (hm : (tree es).toward st.here n = some m) : st.pt n = .ok m := by
  rw [State.pt, ho.node n hn, nodeTowards_link hne hm]

/-- Turning the link between `*here*` and a neighbour. -/
theorem Oriented.turn (ho : Oriented es st) (hn : n < st.nodes.length)
    (hadj : (tree es).Adjacent st.here n) :
    ∃ before after, st.ph n = .ok (before, after) ∧ crossing es st.here n = some (before, after) ∧
      Oriented es ⟨(st.nodes.set st.here ⟨some (after, before), some n⟩).set n ⟨none, none⟩, n,
        st.called ++ [before]⟩ := by
  have hne : n ≠ st.here := fun h => hadj.ne h.symm
  obtain ⟨before, after, hcross, hback⟩ := crossing_adjacent hadj
  have hlink := nodeTowards_link hne ((tree es).toward_neighbour hadj)
  refine ⟨before, after, ?_, hcross, ?_⟩
  · rw [State.ph, ho.node n hn, hlink, hcross]
  · have hlen : ((st.nodes.set st.here ⟨some (after, before), some n⟩).set n
        (⟨none, none⟩ : Node T)).length = st.nodes.length := by
      rw [List.length_set, List.length_set]
    refine ⟨hlen.trans ho.length, hlen.symm ▸ hn, fun k hpos hk => ?_, fun k hk => ?_⟩
    · exact ho.older k hpos (hlen ▸ hk)
    · change k < ((st.nodes.set st.here _).set n _).length at hk
      rw [hlen] at hk
      change ((st.nodes.set st.here _).set n _)[k]? = some (nodeTowards es n k)
      by_cases hkn : k = n
      · subst hkn
        rw [List.getElem?_set_self (by rw [List.length_set]; exact hn), nodeTowards_root]
      · rw [List.getElem?_set_ne (Ne.symm hkn)]
        by_cases hkh : k = st.here
        · subst hkh
          rw [List.getElem?_set_self ho.here_lt,
            nodeTowards_link hkn ((tree es).toward_neighbour hadj.symm), hback]
        · rw [List.getElem?_set_ne (Ne.symm hkh), ho.node k hk, nodeTowards, nodeTowards,
            if_neg hkh, if_neg hkn, (tree es).toward_move hadj hkh hkn]

/-- `reroot!` goes the way from `*here*` to `there`, a link at a time. -/
theorem Oriented.reroot (ho : Oriented es st) (hthere : there < st.nodes.length) {fuel : Nat}
    (hfuel : (tree es).distance st.here there < fuel) :
    ∃ st', (∀ fuel', fuel ≤ fuel' → Winds.reroot fuel' there st = .ok st') ∧ Oriented es st' ∧
      st'.here = there ∧ st'.nodes.length = st.nodes.length ∧
      st'.called.map some = st.called.map some ++ thunks es st.here there := by
  induction fuel generalizing there with
  | zero => exact absurd hfuel (Nat.not_lt_zero _)
  | succ fuel ih =>
    by_cases hhere : st.here = there
    · subst hhere
      refine ⟨st, fun fuel' hle => ?_, ho, rfl, rfl, by rw [thunks_self, List.append_nil]⟩
      obtain ⟨k, rfl⟩ := Nat.exists_eq_add_of_lt (Nat.lt_of_succ_le hle)
      rw [Winds.reroot, if_pos rfl]
    · have hne : there ≠ st.here := Ne.symm hhere
      obtain ⟨m, hm, hmlt⟩ := ho.toward_some ho.here_lt hthere hne
      have hdist := (tree es).distance_step hne hm
      obtain ⟨st₁, hrun, ho₁, hhere₁, hlen₁, hcalled⟩ := ih hmlt (by omega)
      have hadj : (tree es).Adjacent st₁.here there := by
        rw [hhere₁]
        exact ((tree es).toward_adjacent hne hm).symm
      obtain ⟨before, after, hph, hcross, hturned⟩ := ho₁.turn (hlen₁.symm ▸ hthere) hadj
      refine ⟨_, fun fuel' hle => ?_, hturned, rfl, ?_, ?_⟩
      · obtain ⟨k, rfl⟩ := Nat.exists_eq_add_of_lt (Nat.lt_of_succ_le hle)
        rw [Winds.reroot, if_neg hhere, ho.pt_eq hthere hne hm, ok_bind,
          hrun (fuel + k) (Nat.le_add_right _ _), ok_bind, hph, ok_bind]
      · rw [List.length_set, List.length_set, hlen₁]
      · rw [List.map_append, hcalled, thunks_step hne hm, List.append_assoc, ← hhere₁, hcross]
        rfl

/-- The way is no longer than there are pairs. -/
theorem Oriented.distance_le (ho : Oriented es st) (hn : n < st.nodes.length) :
    (tree es).distance st.here n ≤ st.nodes.length := by
  have hnodup := (tree es).leaves_nodup st.here n
  have hsub : (tree es).leaves st.here n ++ ((tree es).leaves n st.here).reverse ⊆
      List.range st.nodes.length := by
    intro k hk
    rw [List.mem_range]
    rcases List.mem_append.mp hk with hk | hk
    · exact Nat.lt_of_le_of_lt (ancestors_le (List.mem_filter.mp hk).1) ho.here_lt
    · exact Nat.lt_of_le_of_lt (ancestors_le (List.mem_filter.mp (List.mem_reverse.mp hk)).1) hn
  have hle := (List.subperm_of_subset hnodup hsub).length_le
  rw [List.length_append, List.length_reverse, List.length_range] at hle
  exact hle

end Tree

/-! ## Runs -/

section Runs

variable {es : List (Extent T)} {st st' : State T} {m n there fuel : Nat} {before after : T}

theorem extent_append (e : Extent T) (hn : n ≤ es.length) : extent (es ++ [e]) n = extent es n := by
  cases n with
  | zero => rfl
  | succ k => exact List.getElem?_append_left hn

theorem extent_new (e : Extent T) : extent (es ++ [e]) (es.length + 1) = some e :=
  List.getElem?_concat_length

theorem parentOf_append (e : Extent T) (hn : n ≤ es.length) :
    parentOf (es ++ [e]) n = parentOf es n := by
  rw [parentOf, extent_append e hn, parentOf]

theorem ancestors_append (e : Extent T) (hn : n ≤ es.length) :
    (tree (es ++ [e])).ancestors n = (tree es).ancestors n := by
  induction n using Nat.strongRecOn with
  | ind n ih =>
    have hparent : (tree (es ++ [e])).parent n = (tree es).parent n := parentOf_append e hn
    rw [(tree (es ++ [e])).ancestors_eq, hparent, (tree es).ancestors_eq n]
    cases hp : (tree es).parent n with
    | none => rfl
    | some p =>
      have hlt := parentOf_lt hp
      exact congrArg _ (ih p hlt (Nat.le_trans (Nat.le_of_lt hlt) hn))

/-- The pair that `dynamic-wind` makes is a new extent below `*here*`. -/
theorem Oriented.push (ho : Oriented es st) (before after : T) :
    Oriented (es ++ [⟨st.here, before, after⟩]) (st.push before after) := by
  have hlen : (st.push before after).nodes.length = st.nodes.length + 1 := List.length_append
  have hnew : extent (es ++ [⟨st.here, before, after⟩]) st.nodes.length =
      some ⟨st.here, before, after⟩ := by
    rw [ho.length]
    exact extent_new _
  have hparent : parentOf (es ++ [⟨st.here, before, after⟩]) st.nodes.length = some st.here := by
    rw [parentOf, hnew]
    exact if_pos ho.here_lt
  have hle : ∀ {k : Nat}, k < st.nodes.length → k ≤ es.length := fun hk =>
    Nat.le_of_lt_succ (Nat.lt_of_lt_of_eq hk ho.length)
  refine ⟨?_, ?_, fun k hpos hk => ?_, fun k hk => ?_⟩
  · rw [hlen, ho.length, List.length_append, List.length_singleton]
  · rw [hlen]
    exact Nat.lt_succ_of_lt ho.here_lt
  · rw [hlen] at hk
    rcases Nat.lt_or_eq_of_le (Nat.le_of_lt_succ hk) with hk | rfl
    · rw [parentOf_append _ (hle hk)]
      exact ho.older k hpos hk
    · exact ⟨_, hparent⟩
  · rw [hlen] at hk
    rcases Nat.lt_or_eq_of_le (Nat.le_of_lt_succ hk) with hk | rfl
    · -- an old pair stays as it was
      refine (List.getElem?_append_left hk).trans ((ho.node k hk).trans ?_)
      by_cases hne : k = st.here
      · rw [hne]
        exact congrArg some ((nodeTowards_root _).trans (nodeTowards_root _).symm)
      · obtain ⟨m, hm, hmlt⟩ := ho.toward_some ho.here_lt hk hne
        have htoward : (tree (es ++ [⟨st.here, before, after⟩])).toward st.here k = some m := by
          have hp : (tree (es ++ [⟨st.here, before, after⟩])).parent k = (tree es).parent k :=
            parentOf_append _ (hle hk)
          rw [ParentTree.toward, ancestors_append _ (hle ho.here_lt), hp]
          exact hm
        have hcross : crossing (es ++ [⟨st.here, before, after⟩]) m k = crossing es m k := by
          rw [crossing, parentOf_append _ (hle hk), extent_append _ (hle hk),
            extent_append _ (hle hmlt), crossing]
        exact congrArg some ((nodeTowards_link hne hm).trans
          (hcross ▸ (nodeTowards_link hne htoward).symm))
    · -- the new pair is a leaf
      have hne : st.nodes.length ≠ st.here := (Nat.ne_of_lt ho.here_lt).symm
      have hmem : st.nodes.length ∉
          (tree (es ++ [⟨st.here, before, after⟩])).ancestors st.here := fun h =>
        Nat.not_lt.mpr (ancestors_le h) ho.here_lt
      have htoward := ((tree _).toward_parent hmem).trans hparent
      refine List.getElem?_concat_length.trans (congrArg some ?_)
      change _ = nodeTowards _ st.here st.nodes.length
      rw [nodeTowards_link hne htoward, crossing, if_pos hparent, hnew]
      rfl

/-- A call that ends does so with the same state for more fuel. -/
theorem reroot_mono {fuel' : Nat} (hle : fuel ≤ fuel') (hrun : reroot fuel there st = .ok st') :
    reroot fuel' there st = .ok st' := by
  induction fuel generalizing there st' fuel' with
  | zero => cases hrun
  | succ fuel ih =>
    obtain ⟨k, rfl⟩ := Nat.exists_eq_add_of_lt (Nat.lt_of_succ_le hle)
    rw [reroot] at hrun ⊢
    split
    · rename_i hhere
      rwa [if_pos hhere] at hrun
    · rename_i hhere
      rw [if_neg hhere] at hrun
      obtain ⟨m, hm, hrun⟩ := bind_eq_ok.mp hrun
      obtain ⟨st₁, hst₁, hrun⟩ := bind_eq_ok.mp hrun
      rw [hm, ok_bind, ih (Nat.le_add_right fuel k) hst₁]
      exact hrun

theorem Oriented.reroot_of_ok (ho : Oriented es st) (hthere : there < st.nodes.length)
    (hrun : Winds.reroot fuel there st = .ok st') : Oriented es st' := by
  obtain ⟨st₁, hrun₁, ho₁, -⟩ := ho.reroot hthere (Nat.lt_succ_self _)
  have h₁ := hrun₁ _ (Nat.le_max_right fuel _)
  rw [reroot_mono (Nat.le_max_left _ _) hrun] at h₁
  cases h₁
  exact ho₁

theorem Reached.oriented (h : Reached es st) : Oriented es st := by
  induction h with
  | init =>
    refine ⟨rfl, Nat.zero_lt_one, fun n hpos hn => ?_, fun n hn => ?_⟩
    · exact absurd hn (Nat.not_lt.mpr hpos)
    · obtain rfl : n = 0 := Nat.lt_one_iff.mp hn
      rfl
  | @wind es st st' fuel before after _ hrun ih =>
    have hlen : (st.push before after).nodes.length = st.nodes.length + 1 := List.length_append
    exact (ih.push before after).reroot_of_ok (hlen ▸ Nat.lt_succ_self _) hrun
  | reroot _ hthere hrun ih => exact ih.reroot_of_ok hthere hrun

/-- The link of one pair leads to the other. -/
def Linked (st : State T) (m n : Nat) : Prop := ∃ ph, st.nodes[m]? = some ⟨ph, some n⟩

/-- The links are the edges of the tree of the extents, turned towards `*here*`, and each pair
has the thunk for coming from there and the one for going there. -/
structure Rooted (es : List (Extent T)) (st : State T) : Prop where
  root : st.nodes[st.here]? = some ⟨none, none⟩
  link : ∀ n, n < st.nodes.length → n ≠ st.here → ∃ m before after,
    (tree es).Adjacent n m ∧ crossing es m n = some (before, after) ∧
      st.nodes[n]? = some ⟨some (before, after), some m⟩
  edge : ∀ m n, m < st.nodes.length → n < st.nodes.length → (tree es).Adjacent m n →
    Linked st m n ∨ Linked st n m
  reaches : ∀ n, n < st.nodes.length → Relation.ReflTransGen (Linked st) n st.here

theorem Oriented.linked (ho : Oriented es st) (hn : n < st.nodes.length) (hne : n ≠ st.here)
    (hm : (tree es).toward st.here n = some m) : Linked st n m :=
  ⟨_, (ho.node n hn).trans (congrArg some (nodeTowards_link hne hm))⟩

theorem Oriented.rooted (ho : Oriented es st) : Rooted es st where
  root := (ho.node _ ho.here_lt).trans (congrArg some (nodeTowards_root _))
  link n hn hne := by
    obtain ⟨m, hm, -⟩ := ho.toward_some ho.here_lt hn hne
    have hadj := (tree es).toward_adjacent hne hm
    obtain ⟨before, after, hcross, -⟩ := crossing_adjacent hadj.symm
    refine ⟨m, before, after, hadj, hcross, ?_⟩
    rw [ho.node n hn, nodeTowards_link hne hm, hcross]
  edge m n hm hn hadj := by
    have hdown : ∀ {m n : Nat}, m < st.nodes.length → n < st.nodes.length →
        (tree es).parent n = some m → Linked st m n ∨ Linked st n m := by
      intro m n hm hn hp
      have hne : n ≠ m := Nat.ne_of_gt (parentOf_lt hp)
      by_cases hmem : n ∈ (tree es).ancestors st.here
      · -- `n` is on the way from its parent to `*here*`
        obtain ⟨front, hfront⟩ := (tree es).suffix_of_mem hmem
        have hmne : m ≠ st.here := by
          rintro rfl
          exact Nat.not_lt.mpr (ancestors_le hmem) (parentOf_lt hp)
        have hnodup := (tree es).ancestors_nodup st.here
        rw [← hfront, (tree es).ancestors_parent hp, (tree es).ancestors_eq m] at hnodup
        refine .inl (ho.linked hm hmne ?_)
        rw [ParentTree.toward, ← hfront, (tree es).ancestors_parent hp, (tree es).ancestors_eq m,
          ParentTree.precedes_append hnodup]
        rfl
      · have hnne : n ≠ st.here := fun h => hmem (h ▸ (tree es).mem_ancestors_self n)
        exact .inr (ho.linked hn hnne (((tree es).toward_parent hmem).trans hp))
    rcases hadj with hp | hp
    · exact (hdown hn hm hp).symm
    · exact hdown hm hn hp
  reaches n hn := by
    induction hd : (tree es).distance st.here n using Nat.strongRecOn generalizing n with
    | ind d ih =>
      by_cases hne : n = st.here
      · rw [hne]
      · obtain ⟨m, hm, hmlt⟩ := ho.toward_some ho.here_lt hn hne
        have hdist := (tree es).distance_step hne hm
        exact .head (ho.linked hn hne hm) (ih _ (by omega) m hmlt rfl)

/-- **Rerooting the wind tree**: in every run `reroot!` of a pair ends with the pair as `*here*`
and the same tree turned to it, and calls the after thunks of the extents that are left, up to
the common ancestor, and then the before thunks of those that are entered, each once. -/
theorem reroot_runs (h : Reached es st) (hthere : there < st.nodes.length) :
    ∃ st', (∀ fuel, st.nodes.length < fuel → reroot fuel there st = .ok st') ∧
      st'.here = there ∧ st'.nodes.length = st.nodes.length ∧ Rooted es st' ∧
      st'.called.map some = st.called.map some ++
        (((tree es).leaves st.here there).map (fun k => (extent es k).map Extent.after) ++
          ((tree es).leaves there st.here).reverse.map fun k =>
            (extent es k).map Extent.before) ∧
      ((tree es).leaves st.here there ++ ((tree es).leaves there st.here).reverse).Nodup := by
  have ho := h.oriented
  have hdist := ho.distance_le hthere
  obtain ⟨st', hrun, ho', hhere, hlen, hcalled⟩ := ho.reroot hthere (Nat.lt_succ_of_le hdist)
  exact ⟨st', fun fuel hfuel => hrun fuel hfuel, hhere, hlen, ho'.rooted, hcalled,
    (tree es).leaves_nodup _ _⟩

end Runs

/-- An extent with two others in it. -/
def branches : List (Extent String) :=
  [⟨0, "in₁", "out₁"⟩, ⟨1, "in₂", "out₂"⟩, ⟨1, "in₃", "out₃"⟩]

/-- From the last extent to the one beside it. -/
theorem reroot_runs_out : ∃ st : State String, Reached branches st ∧ st.here = 3 ∧
    ∃ st', (∀ fuel, st.nodes.length < fuel → reroot fuel 2 st = .ok st') ∧
      st'.here = 2 ∧ st'.nodes.length = st.nodes.length ∧ Rooted branches st' ∧
      st'.called.map some = st.called.map some ++
        (((tree branches).leaves st.here 2).map (fun k => (extent branches k).map Extent.after) ++
          ((tree branches).leaves 2 st.here).reverse.map fun k =>
            (extent branches k).map Extent.before) ∧
      ((tree branches).leaves st.here 2 ++ ((tree branches).leaves 2 st.here).reverse).Nodup := by
  have h₁ := @Reached.wind String [] _ _ 9 "in₁" "out₁" .init rfl
  have h₂ := @Reached.wind String _ _ _ 9 "in₂" "out₂" h₁ rfl
  have h₃ := @Reached.reroot String _ _ _ 9 1 h₂ (by decide) rfl
  have h₄ : Reached branches _ := @Reached.wind String _ _ _ 9 "in₃" "out₃" h₃ rfl
  exact ⟨_, h₄, rfl, reroot_runs h₄ (by decide)⟩
/-- In, in, out of the inner extent, into another, and back into the first of the two. -/
example : ((do
    let st ← wind 9 "in₁" "out₁" ⟨[⟨none, none⟩], 0, []⟩
    let st ← wind 9 "in₂" "out₂" st
    let st ← reroot 9 1 st
    let st ← wind 9 "in₃" "out₃" st
    reroot 9 2 st).map State.called).toOption =
      some ["in₁", "in₂", "out₂", "in₃", "out₃", "in₂"] := by
  decide

end Winds

end Idio.Winds
