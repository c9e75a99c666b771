/-
  Lib/PairHeap.lean --- pairs in a memory.

  A pair has a head and a tail, each the empty list, an atom or a pair at a place.
  `Chain m v cs w` says that from `v` on the pairs `cs`, each given by its place and its head, follow
  one another by their tails and that the last tail is `w`.  Nothing is said about the heads, so a
  memory is any graph.

  `Keeps m m' is` is the frame of an operation: the pairs of `m` that are not at the places `is`
  are the same pairs of `m'`.  What an operation makes for itself is `Private`: chains that share
  no pair with one another or with the memory at its beginning, and that it may turn and link as it
  likes.
-/
import Mathlib.Data.List.Nodup
import Mathlib.Data.List.Perm.Subperm
import Mathlib.Data.Finset.Card
import Mathlib.Data.Finset.Image
import Mathlib.Logic.Function.Iterate
import Mathlib.Tactic.Ring

set_option autoImplicit false

namespace PairHeap

/-- The empty list, a pair at a place, or anything else. -/
inductive Val (α : Type) where
  | nil
  | atom (a : α)
  | ref (i : Nat)
  deriving DecidableEq, Repr

structure Pair (α : Type) where
  head : Val α
  tail : Val α
  deriving DecidableEq, Repr

abbrev Memory (α : Type) : Type := List (Pair α)

/-- Pairs by their places and heads. -/
abbrev Cells (α : Type) : Type := List (Nat × Val α)

variable {α : Type}

def Val.isPair : Val α → Bool
  | .ref _ => true
  | _ => false

@[simp] theorem Val.isPair_nil : (Val.nil : Val α).isPair = false := rfl

@[simp] theorem Val.isPair_atom (a : α) : (Val.atom a).isPair = false := rfl

@[simp] theorem Val.isPair_ref (i : Nat) : (Val.ref i : Val α).isPair = true := rfl

def places (cs : Cells α) : List Nat := cs.map Prod.fst

def heads (cs : Cells α) : List (Val α) := cs.map Prod.snd

/-- From `v` on there are the pairs `cs`, and then `w`. -/
inductive Chain (m : Memory α) : Val α → Cells α → Val α → Prop where
  | done (v : Val α) : Chain m v [] v
  | pair {i : Nat} {h t w : Val α} {cs : Cells α} (hget : m[i]? = some ⟨h, t⟩)
      (rest : Chain m t cs w) : Chain m (.ref i) ((i, h) :: cs) w

/-- The list of the values `xs`. -/
def ListIs (m : Memory α) (v : Val α) (xs : List (Val α)) : Prop :=
  ∃ cs, Chain m v cs .nil ∧ heads cs = xs

/-- The pairs of `m` are those of `m'`, but for the places `is`. -/
def Keeps (m m' : Memory α) (is : List Nat) : Prop :=
  ∀ i c, i ∉ is → m[i]? = some c → m'[i]? = some c

variable {m m' m'' base : Memory α} {v w x : Val α} {cs ds : Cells α} {xs ys : List (Val α)}
  {is js : List Nat}

@[simp] theorem heads_cons (c : Nat × Val α) (cs : Cells α) : heads (c :: cs) = c.2 :: heads cs := rfl

theorem places_append : places (cs ++ ds) = places cs ++ places ds := List.map_append

theorem heads_append : heads (cs ++ ds) = heads cs ++ heads ds := List.map_append

theorem places_reverse : (places cs.reverse).Perm (places cs) :=
  cs.reverse_perm.map Prod.fst

theorem heads_reverse : heads cs.reverse = (heads cs).reverse := List.map_reverse

/-! ## Frames -/

theorem Keeps.refl (m : Memory α) (is : List Nat) : Keeps m m is := fun _ _ _ hget => hget

theorem Keeps.trans (h : Keeps m m' is) (h' : Keeps m' m'' js) : Keeps m m'' (is ++ js) := by
  intro i c hi hget
  rw [List.mem_append, not_or] at hi
  exact h' i c hi.2 (h i c hi.1 hget)

theorem Keeps.mono (h : Keeps m m' is) (hsub : is ⊆ js) : Keeps m m' js :=
  fun i c hi => h i c fun hmem => hi (hsub hmem)

/-- Changes to pairs that were not there before. -/
theorem Keeps.fresh (h : Keeps m m' is) (h' : Keeps m' m'' js) (hnew : ∀ j ∈ js, m.length ≤ j) :
    Keeps m m'' is := by
  intro i c hi hget
  have hlt : i < m.length := (List.getElem?_eq_some_iff.mp hget).1
  exact h' i c (fun hmem => Nat.not_lt.mpr (hnew i hmem) hlt) (h i c hi hget)

theorem keeps_alloc (m : Memory α) (c : Pair α) : Keeps m (m ++ [c]) [] := by
  intro i d _ hget
  rw [List.getElem?_append_left (List.getElem?_eq_some_iff.mp hget).1, hget]

theorem keeps_set (m : Memory α) (i : Nat) (c : Pair α) : Keeps m (m.set i c) [i] := by
  intro j d hj hget
  rw [List.mem_singleton] at hj
  rw [List.getElem?_set_ne (Ne.symm hj), hget]

theorem get_set {i : Nat} {c : Pair α} (hget : m[i]? = some c) (c' : Pair α) :
    (m.set i c')[i]? = some c' := by
  rw [List.getElem?_set_self (List.getElem?_eq_some_iff.mp hget).1]

theorem get_alloc (m : Memory α) (c : Pair α) : (m ++ [c])[m.length]? = some c := by
  rw [List.getElem?_append_right (Nat.le_refl _), Nat.sub_self]
  rfl

/-! ## Chains -/

theorem chain_append : Chain m v (cs ++ ds) w ↔ ∃ u, Chain m v cs u ∧ Chain m u ds w := by
  induction cs generalizing v with
  | nil =>
    constructor
    · exact fun h => ⟨v, .done v, h⟩
    · rintro ⟨u, hcs, hds⟩
      cases hcs
      exact hds
  | cons c cs ih =>
    constructor
    · intro h
      cases h with
      | pair hget rest =>
        obtain ⟨u, hcs, hds⟩ := ih.mp rest
        exact ⟨u, .pair hget hcs, hds⟩
    · rintro ⟨u, hcs, hds⟩
      cases hcs with
      | pair hget rest => exact .pair hget (ih.mpr ⟨u, rest, hds⟩)

theorem Chain.eq_of_nil (h : Chain m v [] w) : v = w := by
  cases h
  rfl

/-- Where there is a pair, the first value is one. -/
theorem Chain.isPair (h : Chain m v cs w) (hcs : cs ≠ []) : v.isPair = true := by
  cases h with
  | done => exact absurd rfl hcs
  | pair => rfl

/-- Away from what is changed, a chain stays. -/
theorem Chain.keep (h : Chain m v cs w) (hk : Keeps m m' is) (haway : (places cs).Disjoint is) :
    Chain m' v cs w := by
  induction h with
  | done v => exact .done v
  | pair hget rest ih =>
    rw [places, List.map_cons, List.disjoint_cons_left] at haway
    exact .pair (hk _ _ haway.1 hget) (ih haway.2)

theorem Chain.grow (h : Chain m v cs w) (hk : Keeps m m' []) : Chain m' v cs w :=
  h.keep hk (List.disjoint_nil_right _)

theorem Chain.lt_length (h : Chain m v cs w) : ∀ i ∈ places cs, i < m.length := by
  induction h with
  | done v => exact fun i hi => absurd hi List.not_mem_nil
  | pair hget rest ih =>
    rw [places, List.map_cons, List.forall_mem_cons]
    exact ⟨(List.getElem?_eq_some_iff.mp hget).1, ih⟩

/-- A chain ends in one way only. -/
theorem Chain.unique {w' : Val α} (h : Chain m v cs w) (h' : Chain m v ds w')
    (hw : w.isPair = false) (hw' : w'.isPair = false) : cs = ds ∧ w = w' := by
  induction h generalizing ds with
  | done v =>
    cases h' with
    | done => exact ⟨rfl, rfl⟩
    | pair => exact absurd hw nofun
  | pair hget rest ih =>
    cases h' with
    | done => exact absurd hw' nofun
    | pair hget' rest' =>
      cases Option.some.inj (hget.symm.trans hget')
      obtain ⟨rfl, rfl⟩ := ih rest' hw
      exact ⟨rfl, rfl⟩

/-- No pair is twice in a chain that ends. -/
theorem Chain.nodup (h : Chain m v cs w) (hw : w.isPair = false) : (places cs).Nodup := by
  induction h with
  | done v => exact List.nodup_nil
  | @pair i b t w cs hget rest ih =>
    refine List.nodup_cons.mpr ⟨fun hmem => ?_, ih hw⟩
    obtain ⟨⟨j, b'⟩, hc, rfl⟩ := List.mem_map.mp hmem
    obtain ⟨as, bs, rfl⟩ := List.append_of_mem hc
    obtain ⟨u, -, hagain⟩ := chain_append.mp rest
    have hu : u = .ref j := by cases hagain; rfl
    subst hu
    have hlen := congrArg List.length ((Chain.pair hget rest).unique hagain hw hw).1
    simp only [List.length_cons, List.length_append] at hlen
    omega

theorem Chain.length_le (h : Chain m v cs w) (hw : w.isPair = false) : cs.length ≤ m.length := by
  have hsub : places cs ⊆ List.range m.length := fun i hi => List.mem_range.mpr (h.lt_length i hi)
  have hle := (List.subperm_of_subset (h.nodup hw) hsub).length_le
  rwa [places, List.length_map, List.length_range] at hle

/-- The tail of the last pair set. -/
theorem Chain.relink {k : Nat} (h : Chain m v (cs ++ [(k, x)]) w) (hk : k ∉ places cs)
    (w' : Val α) : Chain (m.set k ⟨x, w'⟩) v (cs ++ [(k, x)]) w' := by
  obtain ⟨u, hcs, hlast⟩ := chain_append.mp h
  cases hlast with
  | pair hget rest =>
    have haway : (places cs).Disjoint [k] := List.disjoint_singleton.mpr hk
    exact chain_append.mpr ⟨.ref k, hcs.keep (keeps_set m k _) haway, .pair (get_set hget _) (.done w')⟩

/-- The first value of a chain, by its pairs. -/
theorem Chain.start_eq (h : Chain m v cs w) (h' : Chain m' x cs w) : v = x := by
  cases h with
  | done => cases h'; rfl
  | pair => cases h'; rfl

theorem Chain.get_eq (h : Chain m v cs w) (h' : Chain m' x cs w) :
    ∀ i ∈ places cs, m'[i]? = m[i]? := by
  induction h generalizing x with
  | done v => exact nofun
  | pair hget rest ih =>
    cases h' with
    | pair hget' rest' =>
      refine List.forall_mem_cons.mpr ⟨?_, ih rest'⟩
      rw [hget, hget', rest.start_eq rest']

/-- What a chain was made of leaves one memory only. -/
theorem Chain.heap_unique (h : Chain m' v cs w) (h' : Chain m'' v cs w)
    (hk : Keeps m m' (places cs)) (hk' : Keeps m m'' (places cs)) (hlen : m'.length = m.length)
    (hlen' : m''.length = m.length) : m' = m'' := by
  refine List.ext_getElem? fun i => ?_
  by_cases hi : i ∈ places cs
  · exact h'.get_eq h i hi
  · by_cases hlt : i < m.length
    · have hget := List.getElem?_eq_getElem hlt
      rw [hk i _ hi hget, hk' i _ hi hget]
    · rw [List.getElem?_eq_none (by omega), List.getElem?_eq_none (by omega)]

theorem ListIs.unique (h : ListIs m v xs) (h' : ListIs m v ys) : xs = ys := by
  obtain ⟨cs, hcs, rfl⟩ := h
  obtain ⟨ds, hds, rfl⟩ := h'
  rw [(hcs.unique hds rfl rfl).1]

theorem ListIs.nil (h : ListIs m v []) : v = .nil := by
  obtain ⟨cs, hcs, hxs⟩ := h
  rw [heads, List.map_eq_nil_iff] at hxs
  exact (hxs ▸ hcs).eq_of_nil

theorem ListIs.cons (h : ListIs m v (x :: xs)) :
    ∃ i t, v = .ref i ∧ m[i]? = some ⟨x, t⟩ ∧ ListIs m t xs := by
  obtain ⟨cs, hcs, hxs⟩ := h
  obtain ⟨⟨i, y⟩, cs, rfl, rfl, rfl⟩ := List.map_eq_cons_iff.mp hxs
  cases hcs with
  | pair hget rest => exact ⟨i, _, rfl, hget, cs, rest, rfl⟩

theorem ListIs.grow (h : ListIs m v xs) (hk : Keeps m m' []) : ListIs m' v xs := by
  obtain ⟨cs, hcs, hxs⟩ := h
  exact ⟨cs, hcs.grow hk, hxs⟩

/-! ## Going along the tails -/

/-- Pairs all of whose values are there, and one such value. -/
structure Graph (α : Type) where
  heap : Memory α
  value : Val α
  closed : ∀ c ∈ heap, ∀ i, c.head = .ref i ∨ c.tail = .ref i → i < heap.length
  inside : ∀ i, value = .ref i → i < heap.length

/-- The tail of a pair; anything else stays. -/
def tailOf (m : Memory α) : Val α → Val α
  | .ref i =>
      match m[i]? with
      | some c => c.tail
      | none => .ref i
  | v => v

theorem tailOf_pair {i : Nat} {c : Pair α} (hget : m[i]? = some c) : tailOf m (.ref i) = c.tail := by
  simp only [tailOf, hget]

theorem tailOf_end (hv : v.isPair = false) (n : Nat) : (tailOf m)^[n] v = v := by
  induction n with
  | zero => rfl
  | succ n ih =>
    rw [Function.iterate_succ_apply', ih]
    cases v with
    | ref i => exact absurd hv nofun
    | _ => rfl

/-- Behind the end there is nothing else. -/
theorem tailOf_after {n k : Nat} (hn : ((tailOf m)^[n] v).isPair = false) (hk : n ≤ k) :
    (tailOf m)^[k] v = (tailOf m)^[n] v := by
  obtain ⟨d, rfl⟩ := Nat.exists_eq_add_of_le' hk
  rw [Function.iterate_add_apply, tailOf_end hn]

theorem Chain.tailOf_length (h : Chain m v cs w) : (tailOf m)^[cs.length] v = w := by
  induction h with
  | done v => rfl
  | pair hget rest ih =>
    rw [List.length_cons, Function.iterate_succ_apply, tailOf_pair hget]
    exact ih

/-- A list is what has the empty list behind it. -/
theorem listIs_iff : (∃ xs, ListIs m v xs) ↔ ∃ n, (tailOf m)^[n] v = .nil := by
  constructor
  · rintro ⟨xs, cs, hcs, -⟩
    exact ⟨cs.length, hcs.tailOf_length⟩
  · rintro ⟨n, hn⟩
    induction n generalizing v with
    | zero => exact ⟨[], [], hn ▸ .done _, rfl⟩
    | succ n ih =>
      obtain ⟨xs, cs, hcs, hxs⟩ := ih hn
      cases v with
      | ref i =>
        cases hget : m[i]? with
        | none =>
          simp only [tailOf, hget] at hcs
          exact ⟨xs, cs, hcs, hxs⟩
        | some c =>
          rw [tailOf_pair hget] at hcs
          exact ⟨c.head :: xs, (i, c.head) :: cs, .pair hget hcs, congrArg _ hxs⟩
      | _ => exact ⟨xs, cs, hcs, hxs⟩

theorem Graph.iterate_inside (g : Graph α) {n i : Nat} (h : (tailOf g.heap)^[n] g.value = .ref i) :
    i < g.heap.length := by
  induction n generalizing i with
  | zero => exact g.inside i h
  | succ n ih =>
    rw [Function.iterate_succ_apply'] at h
    cases hv : (tailOf g.heap)^[n] g.value with
    | ref j =>
      have hget := List.getElem?_eq_getElem (ih hv)
      rw [hv, tailOf_pair hget] at h
      exact g.closed _ (List.getElem_mem _) i (.inr h)
    | _ =>
      rw [hv] at h
      exact absurd h nofun

section Race

variable {σ : Type} {f : σ → σ} {x : σ} {i j : Nat}

theorem iterate_period (h : f^[i] x = f^[j] x) (hij : i < j) {n : Nat} (hn : i ≤ n) (c : Nat) :
    f^[n + (j - i) * c] x = f^[n] x := by
  induction c with
  | zero => rfl
  | succ c ih =>
    obtain ⟨d, rfl⟩ := Nat.exists_eq_add_of_le' hn
    have hback : d + i + (j - i) * (c + 1) = d + (j - i) * c + j := by
      have : (j - i) * (c + 1) = (j - i) * c + (j - i) := Nat.mul_succ _ _
      omega
    have hround : d + i + (j - i) * c = d + (j - i) * c + i := by omega
    rw [hback, Function.iterate_add_apply, ← h, ← Function.iterate_add_apply, ← hround, ih]

/-- Where one comes back to a place, one is met by somebody who is twice as fast. -/
theorem exists_meet (h : f^[i] x = f^[j] x) (hij : i < j) :
    ∃ k, k < j ∧ f^[k] x = f^[2 * k + 1] x := by
  have hpos : 0 < j - i := Nat.sub_pos_of_lt hij
  have hdiv := Nat.div_add_mod i (j - i)
  have hmod := Nat.mod_lt i hpos
  have hstep : (j - i) * (i / (j - i) + 1) = (j - i) * (i / (j - i)) + (j - i) := Nat.mul_succ _ _
  have hk : i ≤ (j - i) * (i / (j - i) + 1) - 1 := by omega
  refine ⟨(j - i) * (i / (j - i) + 1) - 1, by omega, ?_⟩
  rw [← iterate_period h hij hk (i / (j - i) + 1)]
  congr 1
  omega

/-- Who is met there is on the way round. -/
theorem iterate_meet {k : Nat} (h : f^[k] x = f^[2 * k + 1] x) (c : Nat) :
    f^[k + (k + 1) * c] x = f^[k] x := by
  have hperiod := iterate_period h (by omega) (Nat.le_refl k) c
  rwa [show 2 * k + 1 - k = k + 1 by omega] at hperiod

end Race

/-- As many steps as there are pairs come back to one of them, or to an end. -/
theorem Graph.exists_repeat (g : Graph α)
    (hpairs : ∀ n, n ≤ g.heap.length → ((tailOf g.heap)^[n] g.value).isPair = true) :
    ∃ i j, i < j ∧ j ≤ g.heap.length ∧
      (tailOf g.heap)^[i] g.value = (tailOf g.heap)^[j] g.value := by
  have hplace : ∀ n ∈ Finset.range (g.heap.length + 1), ∃ i, i ∈ Finset.range g.heap.length ∧
      (tailOf g.heap)^[n] g.value = .ref i := by
    intro n hn
    have hpair := hpairs n (Nat.lt_succ_iff.mp (Finset.mem_range.mp hn))
    cases hv : (tailOf g.heap)^[n] g.value with
    | ref i => exact ⟨i, Finset.mem_range.mpr (g.iterate_inside hv), rfl⟩
    | _ =>
      rw [hv] at hpair
      exact absurd hpair nofun
  choose! place hmem hplace using hplace
  have hcard : (Finset.range g.heap.length).card < (Finset.range (g.heap.length + 1)).card := by
    rw [Finset.card_range, Finset.card_range]
    exact Nat.lt_succ_self _
  obtain ⟨i, hi, j, hj, hne, heq⟩ := Finset.exists_ne_map_eq_of_card_lt_of_maps_to hcard hmem
  have hvals : (tailOf g.heap)^[i] g.value = (tailOf g.heap)^[j] g.value := by
    rw [hplace i hi, hplace j hj, heq]
  rcases Nat.lt_or_gt_of_ne hne with hlt | hlt
  · exact ⟨i, j, hlt, Nat.lt_succ_iff.mp (Finset.mem_range.mp hj), hvals⟩
  · exact ⟨j, i, hlt, Nat.lt_succ_iff.mp (Finset.mem_range.mp hi), hvals.symm⟩

/-! ## What can be reached -/

/-- The pair at a place is a part of the value. -/
inductive Reach (m : Memory α) : Val α → Nat → Prop where
  | here (i : Nat) : Reach m (.ref i) i
  | head {i j : Nat} {c : Pair α} (hget : m[i]? = some c) (rest : Reach m c.head j) :
      Reach m (.ref i) j
  | tail {i j : Nat} {c : Pair α} (hget : m[i]? = some c) (rest : Reach m c.tail j) :
      Reach m (.ref i) j

/-- The value has the same parts in both memories. -/
def Unchanged (m m' : Memory α) (v : Val α) : Prop :=
  ∀ i c, Reach m v i → m[i]? = some c → m'[i]? = some c

theorem Keeps.unchanged (h : Keeps m m' []) (v : Val α) : Unchanged m m' v :=
  fun i c _ => h i c List.not_mem_nil

/-- What is a part of an element is a part of the list. -/
theorem Chain.reach_head {i : Nat} (h : Chain m v cs w) (hx : x ∈ heads cs) (hi : Reach m x i) :
    Reach m v i := by
  induction h with
  | done v => exact absurd hx List.not_mem_nil
  | pair hget rest ih =>
    rcases List.mem_cons.mp hx with rfl | hx
    · exact .head hget hi
    · exact .tail hget (ih hx)

/-! ## Chains of one's own -/

/-- A value and the pairs from it on. -/
abbrev Owned (α : Type) : Type := Val α × Cells α

/-- The chains `ls` share no pair, and none of their pairs was there in `base`, which is as it
was. -/
structure Private (base m : Memory α) (ls : List (Owned α)) : Prop where
  keeps : Keeps base m []
  chain : ∀ l ∈ ls, Chain m l.1 l.2 .nil
  nodup : (ls.flatMap fun l => places l.2).Nodup
  new : ∀ i ∈ ls.flatMap fun l => places l.2, base.length ≤ i

variable {ls ls' : List (Owned α)}

theorem Private.start (m : Memory α) : Private m m [] :=
  ⟨.refl m [], nofun, List.nodup_nil, nofun⟩

theorem Private.perm (h : Private base m ls) (hperm : ls'.Perm ls) : Private base m ls' where
  keeps := h.keeps
  chain l hl := h.chain l (hperm.mem_iff.mp hl)
  nodup := (hperm.flatMap_right _).nodup_iff.mpr h.nodup
  new i hi := h.new i ((hperm.flatMap_right _).mem_iff.mp hi)

theorem Private.behind {l : Owned α} (pre : List (Owned α)) (h : Private base m (l :: (pre ++ ls))) :
    Private base m (pre ++ l :: ls) :=
  h.perm List.perm_middle

/-- An empty chain is private. -/
theorem Private.nil (h : Private base m ls) : Private base m ((.nil, []) :: ls) where
  keeps := h.keeps
  chain := List.forall_mem_cons.mpr ⟨.done _, h.chain⟩
  nodup := h.nodup
  new := h.new

/-- The frame rule: the first of the chains is made into another one of the same pairs. -/
theorem Private.replace (h : Private base m ((v, cs) :: ls)) (hk : Keeps m m' (places cs))
    (hchain : Chain m' w ds .nil) (hperm : (places ds).Perm (places cs)) :
    Private base m' ((w, ds) :: ls) := by
  have hnodup := h.nodup
  have hnew := h.new
  rw [List.flatMap_cons, List.nodup_append'] at hnodup
  rw [List.flatMap_cons] at hnew
  constructor
  · exact h.keeps.fresh hk fun i hi => hnew i (List.mem_append_left _ hi)
  · refine List.forall_mem_cons.mpr ⟨hchain, fun l hl => ?_⟩
    refine (h.chain l (List.mem_cons_of_mem _ hl)).keep hk fun i hi hcs => ?_
    exact hnodup.2.2 hcs (List.mem_flatMap.mpr ⟨l, hl, hi⟩)
  · rw [List.flatMap_cons]
    exact (hperm.append_right _).nodup_iff.mpr h.nodup
  · intro i hi
    rw [List.flatMap_cons] at hi
    exact hnew i ((hperm.append_right _).mem_iff.mp hi)

/-- Pairs more change nothing. -/
theorem Private.grow (h : Private base m ls) (hk : Keeps m m' []) : Private base m' ls where
  keeps := h.keeps.trans hk
  chain l hl := (h.chain l hl).grow hk
  nodup := h.nodup
  new := h.new

theorem Private.length_le (h : Private base m ls) : base.length ≤ m.length := by
  refine Nat.le_of_not_lt fun hlt => ?_
  have hget := h.keeps m.length _ List.not_mem_nil (List.getElem?_eq_getElem hlt)
  exact Nat.lt_irrefl _ (List.getElem?_eq_some_iff.mp hget).1

theorem Private.lt_length (h : Private base m ls) :
    ∀ i ∈ ls.flatMap fun l => places l.2, i < m.length := by
  intro i hi
  obtain ⟨l, hl, hi⟩ := List.mem_flatMap.mp hi
  exact (h.chain l hl).lt_length i hi

/-- A new pair in front of the first of the chains. -/
theorem Private.push (h : Private base m ((v, cs) :: ls)) (x : Val α) :
    Private base (m ++ [⟨x, v⟩]) ((.ref m.length, (m.length, x) :: cs) :: ls) := by
  have hgrown := h.grow (keeps_alloc m ⟨x, v⟩)
  have hlt := h.lt_length
  constructor
  · exact hgrown.keeps
  · have hchains := List.forall_mem_cons.mp hgrown.chain
    exact List.forall_mem_cons.mpr ⟨.pair (get_alloc m _) hchains.1, hchains.2⟩
  · exact List.nodup_cons.mpr ⟨fun hmem => Nat.lt_irrefl _ (hlt _ hmem), h.nodup⟩
  · exact List.forall_mem_cons.mpr ⟨h.length_le, h.new⟩

/-- A new pair in front of one of the chains. -/
theorem Private.pushAt (pre : List (Owned α)) (h : Private base m (pre ++ (v, cs) :: ls))
    (x : Val α) :
    Private base (m ++ [⟨x, v⟩]) (pre ++ (.ref m.length, (m.length, x) :: cs) :: ls) :=
  ((h.perm List.perm_middle.symm).push x).behind pre

/-- Two chains linked. -/
theorem Private.join {k : Nat} {y : Val α}
    (h : Private base m ((v, cs ++ [(k, y)]) :: (w, ds) :: ls)) :
    Private base (m.set k ⟨y, w⟩) ((v, cs ++ [(k, y)] ++ ds) :: ls) := by
  have hflat : ((v, cs ++ [(k, y)] ++ ds) :: ls).flatMap (fun l => places l.2) =
      ((v, cs ++ [(k, y)]) :: (w, ds) :: ls).flatMap fun l => places l.2 := by
    rw [List.flatMap_cons, List.flatMap_cons, List.flatMap_cons, places_append, List.append_assoc]
  have hk : k ∈ places (cs ++ [(k, y)]) := by
    rw [places_append]
    exact List.mem_append_right _ List.mem_cons_self
  obtain ⟨hcs, hrest⟩ := List.forall_mem_cons.mp h.chain
  have hnodup := h.nodup
  rw [List.flatMap_cons, List.nodup_append'] at hnodup
  have haway (l : Owned α) (hl : l ∈ (w, ds) :: ls) : Chain (m.set k ⟨y, w⟩) l.1 l.2 .nil :=
    (hrest l hl).keep (keeps_set m k _) <| List.disjoint_singleton.mpr fun hmem =>
      hnodup.2.2 hk (List.mem_flatMap.mpr ⟨l, hl, hmem⟩)
  constructor
  · exact h.keeps.fresh (keeps_set m k _) fun i hi => by
      rw [List.mem_singleton.mp hi]
      exact h.new k (List.mem_flatMap.mpr ⟨_, List.mem_cons_self, hk⟩)
  · have hnot : k ∉ places cs := by
      have hcs := hnodup.1
      rw [places_append, List.nodup_append'] at hcs
      exact fun hmem => hcs.2.2 hmem List.mem_cons_self
    refine List.forall_mem_cons.mpr ⟨?_, fun l hl => haway l (List.mem_cons_of_mem _ hl)⟩
    exact chain_append.mpr ⟨w, Chain.relink hcs hnot w, haway (w, ds) List.mem_cons_self⟩
  · rw [hflat]
    exact h.nodup
  · rw [hflat]
    exact h.new

/-- A new pair behind the last one of the first of the chains. -/
theorem Private.extend {k : Nat} {y : Val α} (h : Private base m ((v, cs ++ [(k, y)]) :: ls))
    (x : Val α) :
    Private base ((m ++ [Pair.mk x .nil]).set k ⟨y, .ref m.length⟩)
      ((v, cs ++ [(k, y)] ++ [(m.length, x)]) :: ls) :=
  ((h.nil.push x).perm (.swap _ _ _)).join

/-! ## Expressions -/

/-- A value, or a list of expressions. -/
inductive Shape (α : Type) where
  | val (v : Val α)
  | list (es : List (Shape α))

mutual

/-- The value is the expression, written with pairs. -/
def Spells (m : Memory α) : Val α → Shape α → Prop
  | v, .val w => v = w
  | v, .list es => ∃ vs, ListIs m v vs ∧ SpellAll m vs es

/-- The values are the expressions. -/
def SpellAll (m : Memory α) : List (Val α) → List (Shape α) → Prop
  | [], [] => True
  | v :: vs, e :: es => Spells m v e ∧ SpellAll m vs es
  | _, _ => False

end

mutual

/-- Pairs more change no expression. -/
theorem Spells.grow (hk : Keeps m m' []) : ∀ {v : Val α} {e : Shape α}, Spells m v e → Spells m' v e
  | _, .val _, h => h
  | _, .list _, ⟨vs, hvs, h⟩ => ⟨vs, hvs.grow hk, SpellAll.grow hk h⟩

theorem SpellAll.grow (hk : Keeps m m' []) :
    ∀ {vs : List (Val α)} {es : List (Shape α)}, SpellAll m vs es → SpellAll m' vs es
  | [], [], _ => trivial
  | _ :: _, _ :: _, ⟨he, hes⟩ => ⟨Spells.grow hk he, SpellAll.grow hk hes⟩

end

theorem spellAll_vals (m : Memory α) (vs : List (Val α)) : SpellAll m vs (vs.map .val) := by
  induction vs with
  | nil => trivial
  | cons v vs ih => exact ⟨rfl, ih⟩

theorem ListIs.spells (h : ListIs m v xs) : Spells m v (.list (xs.map .val)) :=
  ⟨xs, h, spellAll_vals m xs⟩

theorem SpellAll.append {vs ws : List (Val α)} {es fs : List (Shape α)} (h : SpellAll m vs es)
    (h' : SpellAll m ws fs) : SpellAll m (vs ++ ws) (es ++ fs) := by
  induction vs generalizing es with
  | nil =>
    cases es with
    | nil => exact h'
    | cons e es => exact h.elim
  | cons v vs ih =>
    cases es with
    | nil => exact h.elim
    | cons e es => exact ⟨h.1, ih h.2⟩

theorem SpellAll.length_eq {vs : List (Val α)} {es : List (Shape α)} (h : SpellAll m vs es) :
    vs.length = es.length := by
  induction vs generalizing es with
  | nil =>
    cases es with
    | nil => rfl
    | cons e es => exact h.elim
  | cons v vs ih =>
    cases es with
    | nil => exact h.elim
    | cons e es => rw [List.length_cons, List.length_cons, ih h.2]

/-- The parts of a list that is two expressions. -/
theorem Spells.parts {es fs : List (Shape α)} (h : Spells m v (.list es))
    (h' : Spells m v (.list fs)) : ∃ vs, SpellAll m vs es ∧ SpellAll m vs fs := by
  obtain ⟨vs, hvs, h⟩ := h
  obtain ⟨ws, hws, h'⟩ := h'
  obtain rfl := hvs.unique hws
  exact ⟨vs, h, h'⟩

end PairHeap
