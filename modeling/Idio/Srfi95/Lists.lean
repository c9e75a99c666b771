/-
  Srfi95/Lists.lean --- the merge sort of lists.

  The sort takes the pairs of a list apart and links them anew.  The heads of the pairs
  hold the elements, or while there is a key function the key and the element.  A list
  of two is sorted by its heads, longer ones by their halves and `sort:merge!`.

  The pairs of the result are those of the list, and the list they hold is the stable
  sort.  The first pair comes first only where a least element is in the part that the
  halving ends with, the first one or two (`firstPart`).
-/
import Idio.Basic
import Idio.Lib.StableSort
import Idio.Lib.Chains

set_option autoImplicit false

namespace Idio.Srfi95

open Chains StableSort

/-- The head of a pair: an element, or `(pair key element)`. -/
inductive Element (V : Type) where
  | plain (v : V)
  | wrapped (key v : V)
  deriving DecidableEq, Repr

/-- Pairs; `#n` is no place. -/
abbrev Pairs (V : Type) : Type := Memory (Element V)

/-- The procedures that are given: `less?` and, if there is one, `key`. -/
structure Procedures (V : Type) where
  less : V → V → Bool
  key : Option (V → V)

section Model

variable {V : Type}

/-- `ph` -/
def ph (m : Pairs V) (p : Option Nat) : Result (Element V) :=
  match p.bind (m[·]?) with
  | some c => .ok c.value
  | none => .error (.paramType "pair")

/-- `pt` -/
def pt (m : Pairs V) (p : Option Nat) : Result (Option Nat) :=
  match p.bind (m[·]?) with
  | some c => .ok c.next
  | none => .error (.paramType "pair")

/-- `set-ph!` -/
def setPh (m : Pairs V) (p : Option Nat) (v : Element V) : Result (Pairs V) :=
  match p with
  | some i =>
      match m[i]? with
      | some c => .ok (m.set i ⟨v, c.next⟩)
      | none => .error (.paramType "pair")
  | none => .error (.paramType "pair")

/-- `set-pt!` -/
def setPt (m : Pairs V) (p t : Option Nat) : Result (Pairs V) :=
  match p with
  | some i =>
      match m[i]? with
      | some c => .ok (m.set i ⟨c.value, t⟩)
      | none => .error (.paramType "pair")
  | none => .error (.paramType "pair")

/-- `pair` -/
def pair (m : Pairs V) (h : Element V) (t : Option Nat) : Option Nat × Pairs V :=
  (some m.length, m ++ [⟨h, t⟩])

/-- `keyer`: `ph` where there is a key, else `identity`. -/
def Procedures.keyer (pr : Procedures V) : Element V → Result V
  | .plain v => if pr.key.isSome then .error (.paramType "pair") else .ok v
  | .wrapped k _ => if pr.key.isSome then .ok k else .error .undefined

/-- The loop of `sort:merge!`. -/
def mergeLoop (pr : Procedures V) :
    Nat → Pairs V → Option Nat → Option Nat → V → Option Nat → V → Result (Pairs V)
  | 0, _, _, _, _, _, _ => .error .diverges
  | fuel + 1, m, r, a, kpha, b, kphb =>
      if pr.less kphb kpha then do
        let m ← setPt m r b
        let t ← pt m b
        if t = none then setPt m b a
        else do
          let kphb ← pr.keyer (← ph m t)
          mergeLoop pr fuel m b a kpha t kphb
      else do
        let m ← setPt m r a
        let t ← pt m a
        if t = none then setPt m a b
        else do
          let kpha ← pr.keyer (← ph m t)
          mergeLoop pr fuel m a t kpha b kphb

/-- `sort:merge!` -/
def sortMerge (pr : Procedures V) (m : Pairs V) (a b : Option Nat) : Result (Option Nat × Pairs V) :=
  if a = none then .ok (b, m)
  else if b = none then .ok (a, m)
  else do
    let kpha ← pr.keyer (← ph m a)
    let kphb ← pr.keyer (← ph m b)
    if pr.less kphb kpha then do
      let t ← pt m b
      let m ← (if t = none then setPt m b a
        else do
          let kphb ← pr.keyer (← ph m t)
          mergeLoop pr (2 * m.length) m b a kpha t kphb)
      return (b, m)
    else do
      let t ← pt m a
      let m ← (if t = none then setPt m a b
        else do
          let kpha ← pr.keyer (← ph m t)
          mergeLoop pr (2 * m.length) m a t kpha b kphb)
      return (a, m)

/-- `step`: the sorted list of the first `n` pairs of `seq`, and what `seq` then is. -/
def step (pr : Procedures V) (n : Nat) (seq : Option Nat) (m : Pairs V) :
    Result (Option Nat × Option Nat × Pairs V) :=
  if _h : 2 < n then do
    let j := n / 2
    let (a, seq, m) ← step pr j seq m
    let k := n - j
    let (b, seq, m) ← step pr k seq m
    let (p, m) ← sortMerge pr m a b
    return (p, seq, m)
  else if n = 2 then do
    let x ← ph m seq
    let y ← ph m (← pt m seq)
    let p := seq
    let seq ← pt m (← pt m seq)
    let ky ← pr.keyer y
    let kx ← pr.keyer x
    let m ← (if pr.less ky kx then do
        let m ← setPh m p y
        setPh m (← pt m p) x
      else .ok m)
    let m ← setPt m (← pt m p) none
    return (p, seq, m)
  else if n = 1 then do
    let p := seq
    let seq ← pt m seq
    let m ← setPt m p none
    return (p, seq, m)
  else return (none, seq, m)
termination_by n

/-- The loops of `key-wrap!` and `key-unwrap!`, which change each head. -/
def headsLoop (f : Element V → Result (Element V)) : Nat → Pairs V → Option Nat → Result (Pairs V)
  | 0, _, _ => .error .diverges
  | fuel + 1, m, lst =>
      if lst = none then .ok m
      else do
        let m ← setPh m lst (← f (← ph m lst))
        headsLoop f fuel m (← pt m lst)

/-- `key-wrap!` -/
def keyWrap (key : V → V) (m : Pairs V) (lst : Option Nat) : Result (Pairs V) :=
  headsLoop (fun
    | .plain v => .ok (.wrapped (key v) v)
    | .wrapped _ _ => .error .undefined) (m.length + 1) m lst

/-- `key-unwrap!`, which takes the `pth`. -/
def keyUnwrap (m : Pairs V) (lst : Option Nat) : Result (Pairs V) :=
  headsLoop (fun
    | .plain _ => .error (.paramType "pair")
    | .wrapped _ v => .ok (.plain v)) (m.length + 1) m lst

/-- `length` -/
def listLength (m : Pairs V) : Nat → Option Nat → Result Nat
  | 0, _ => .error .diverges
  | fuel + 1, l =>
      if l = none then .ok 0
      else do
        let len ← listLength m fuel (← pt m l)
        return len + 1

/-- `sort:sort-list!` -/
def sortSortList (pr : Procedures V) (m : Pairs V) (seq : Option Nat) :
    Result (Option Nat × Pairs V) :=
  match pr.key with
  | some key => do
      let m ← keyWrap key m seq
      let n ← listLength m (m.length + 1) seq
      let (seq, _, m) ← step pr n seq m
      let m ← keyUnwrap m seq
      return (seq, m)
  | none => do
      let n ← listLength m (m.length + 1) seq
      let (p, _, m) ← step pr n seq m
      return (p, m)

end Model

variable {V : Type} {pr : Procedures V} {m m' : Pairs V} {p q t : Option Nat} {i : Nat}
  {e : Element V} {cs : List (Nat × Element V)}

/-! ## Pairs -/

theorem ph_get (h : m[i]? = some ⟨e, t⟩) : ph m (some i) = .ok e := by
  rw [ph, Option.bind_some, h]

theorem pt_get (h : m[i]? = some ⟨e, t⟩) : pt m (some i) = .ok t := by
  rw [pt, Option.bind_some, h]

theorem setPh_get (h : m[i]? = some ⟨e, t⟩) (e' : Element V) :
    setPh m (some i) e' = .ok (m.set i ⟨e', t⟩) := by
  rw [setPh, h]

theorem setPt_get (h : m[i]? = some ⟨e, t⟩) (t' : Option Nat) :
    setPt m (some i) t' = .ok (m.set i ⟨e, t'⟩) := by
  rw [setPt, h]

/-- The key that is compared. -/
def Element.key : Element V → V
  | .plain v => v
  | .wrapped k _ => k

def Element.value : Element V → V
  | .plain v => v
  | .wrapped _ v => v

/-- An element as it is while the list is sorted. -/
def Element.Fits (pr : Procedures V) : Element V → Prop
  | .plain _ => pr.key.isSome = false
  | .wrapped _ _ => pr.key.isSome = true

theorem keyer_fits (h : e.Fits pr) : pr.keyer e = .ok e.key := by
  cases e with
  | plain v => exact if_neg (ne_true_of_eq_false h)
  | wrapped k v => exact if_pos h

/-- The order of the cells. -/
def before (pr : Procedures V) (x y : Nat × Element V) : Bool := leOf pr.less x.2.key y.2.key

/-! ## Merging -/

section Merging

variable {ca cb : List (Nat × Element V)} {a b r fuel : Nat} {ea eb er : Element V}

/-- The cell `r`, linked to the two lists merged. -/
def Merged (pr : Procedures V) (m : Pairs V) (r : Nat) (er : Element V)
    (ca cb : List (Nat × Element V)) (res : Result (Pairs V)) : Prop :=
  ∃ m', res = .ok m' ∧ Seg m' (some r) ((r, er) :: List.merge ca cb (before pr)) none ∧
    Agrees m m' (r :: (places ca ++ places cb))

/-- What the loop is given. -/
structure Halves (pr : Procedures V) (m : Pairs V) (ca cb : List (Nat × Element V)) (p q : Option Nat) :
    Prop where
  left : Seg m p ca none
  right : Seg m q cb none
  nodup : (places ca ++ places cb).Nodup
  fits : ∀ c ∈ ca ++ cb, c.2.Fits pr

def LoopMerges (pr : Procedures V) (fuel : Nat) : Prop :=
  ∀ {m : Pairs V} {r a b : Nat} {er ea eb : Element V} {t : Option Nat}
    {ca cb : List (Nat × Element V)}, m[r]? = some ⟨er, t⟩ →
    Halves pr m ((a, ea) :: ca) ((b, eb) :: cb) (some a) (some b) →
    r ∉ places ((a, ea) :: ca) ++ places ((b, eb) :: cb) → ca.length + cb.length < fuel →
    Merged pr m r er ((a, ea) :: ca) ((b, eb) :: cb)
      (mergeLoop pr fuel m (some r) (some a) ea.key (some b) eb.key)

/-- The first of the second list has been taken: it is linked to the rest. -/
theorem takes_right (hloop : LoopMerges pr fuel)
    (h : Halves pr m ((a, ea) :: ca) ((b, eb) :: cb) (some a) (some b))
    (hfuel : ca.length + cb.length ≤ fuel) :
    Merged pr m b eb ((a, ea) :: ca) cb (do
      let t ← pt m (some b)
      if t = none then setPt m (some b) (some a)
      else do
        let kphb ← pr.keyer (← ph m t)
        mergeLoop pr fuel m (some b) (some a) ea.key t kphb) := by
  obtain ⟨-, t, hget, hcb⟩ := h.right
  have hnodup := h.nodup
  rw [show places ((b, eb) :: cb) = b :: places cb from rfl,
    List.perm_middle.nodup_iff, List.nodup_cons] at hnodup
  rw [pt_get hget, ok_bind]
  cases cb with
  | nil =>
    cases hcb
    rw [if_pos rfl, setPt_get hget, Merged, List.merge_right]
    have hb : b ∉ places ((a, ea) :: ca) := fun hmem =>
      hnodup.1 (List.mem_append_left _ hmem)
    exact ⟨_, rfl, (h.left.set hb _).link hget (.refl _ []) List.not_mem_nil,
      (agrees_set m b _).mono (List.cons_subset_cons b (List.nil_subset _))⟩
  | cons c cb =>
    obtain ⟨b', eb'⟩ := c
    have ht : t = some b' := hcb.1
    obtain ⟨-, t', hget', -⟩ := id hcb
    subst ht
    have hkey : pr.keyer eb' = .ok eb'.key :=
      keyer_fits (h.fits (b', eb') (by simp))
    rw [if_neg nofun, ph_get hget', ok_bind, hkey, ok_bind]
    refine hloop hget ⟨h.left, hcb, hnodup.2, fun c hc => h.fits c ?_⟩ hnodup.1 ?_
    · rw [List.mem_append] at hc ⊢
      exact hc.imp_right (List.mem_cons_of_mem _)
    · rw [List.length_cons] at hfuel
      omega

/-- The first of the first list has been taken. -/
theorem takes_left (hloop : LoopMerges pr fuel)
    (h : Halves pr m ((a, ea) :: ca) ((b, eb) :: cb) (some a) (some b))
    (hfuel : ca.length + cb.length ≤ fuel) :
    Merged pr m a ea ca ((b, eb) :: cb) (do
      let t ← pt m (some a)
      if t = none then setPt m (some a) (some b)
      else do
        let kpha ← pr.keyer (← ph m t)
        mergeLoop pr fuel m (some a) t kpha (some b) eb.key) := by
  obtain ⟨-, t, hget, hca⟩ := h.left
  have hnodup := List.nodup_cons.mp h.nodup
  rw [pt_get hget, ok_bind]
  cases ca with
  | nil =>
    cases hca
    rw [if_pos rfl, setPt_get hget, Merged, List.nil_merge]
    exact ⟨_, rfl, (h.right.set hnodup.1 _).link hget (.refl _ []) List.not_mem_nil,
      (agrees_set m a _).mono (List.cons_subset_cons a (List.nil_subset _))⟩
  | cons c ca =>
    obtain ⟨a', ea'⟩ := c
    have ht : t = some a' := hca.1
    obtain ⟨-, t', hget', -⟩ := id hca
    subst ht
    have hkey : pr.keyer ea' = .ok ea'.key :=
      keyer_fits (h.fits (a', ea') (by simp))
    rw [if_neg nofun, ph_get hget', ok_bind, hkey, ok_bind]
    refine hloop hget ⟨hca, h.right, hnodup.2, fun c hc => h.fits c (List.mem_cons_of_mem _ hc)⟩
      hnodup.1 ?_
    rw [List.length_cons] at hfuel
    omega

theorem before_iff {x y : Nat × Element V} : before pr x y ↔ ¬ pr.less y.2.key x.2.key := leOf_iff

/-- **The loop of `sort:merge!`** merges. -/
theorem mergeLoop_merges (pr : Procedures V) (fuel : Nat) : LoopMerges pr fuel := by
  induction fuel with
  | zero => exact fun _ _ _ hfuel => absurd hfuel (Nat.not_lt_zero _)
  | succ fuel ih =>
    intro m r a b er ea eb t ca cb hr h haway hfuel
    rw [List.mem_append, not_or] at haway
    -- `r` is linked to the one that is taken, then that one to the rest
    have hset (p : Option Nat) :
        Halves pr (m.set r ⟨er, p⟩) ((a, ea) :: ca) ((b, eb) :: cb) (some a) (some b) :=
      ⟨h.left.set haway.1 _, h.right.set haway.2 _, h.nodup, h.fits⟩
    have hlinked {x : Nat} {ex : Element V} {cx cy : List (Nat × Element V)} {res : Result (Pairs V)}
        (hmerged : Merged pr (m.set r ⟨er, some x⟩) x ex cx cy res)
        (hmerge : List.merge ((a, ea) :: ca) ((b, eb) :: cb) (before pr) =
          (x, ex) :: List.merge cx cy (before pr))
        (hsub : x :: (places cx ++ places cy) ⊆ places ((a, ea) :: ca) ++ places ((b, eb) :: cb)) :
        Merged pr m r er ((a, ea) :: ca) ((b, eb) :: cb) res := by
      obtain ⟨m', hrun, hseg, hagrees⟩ := hmerged
      refine ⟨m', hrun, ?_, ?_⟩
      · rw [hmerge]
        exact hseg.link hr hagrees fun hmem => by
          rcases List.mem_append.mp (hsub hmem) with hmem | hmem
          · exact haway.1 hmem
          · exact haway.2 hmem
      · exact ((agrees_set m r _).trans hagrees).mono (List.cons_subset_cons r hsub)
    rw [mergeLoop]
    by_cases hless : pr.less eb.key ea.key
    · rw [if_pos hless, setPt_get hr, ok_bind]
      refine hlinked (takes_right ih (hset _) (Nat.le_of_lt_succ hfuel)) ?_ ?_
      · exact List.cons_merge_cons_neg _ _ _ fun hbefore => before_iff.mp hbefore hless
      · exact List.perm_middle.symm.subset
    · rw [if_neg hless, setPt_get hr, ok_bind]
      refine hlinked (takes_left ih (hset _) (Nat.le_of_lt_succ hfuel)) ?_ (List.Subset.refl _)
      exact List.cons_merge_cons_pos _ _ _ (before_iff.mpr hless)

/-- **`sort:merge!`**: the two lists merged, with the first cell of one of them in front. -/
theorem sortMerge_spec (h : Halves pr m ca cb p q) :
    ∃ p' m', sortMerge pr m p q = .ok (p', m') ∧
      Seg m' p' (List.merge ca cb (before pr)) none ∧ Agrees m m' (places ca ++ places cb) ∧
      (∀ x ca', ca = x :: ca' → if ∀ y ∈ cb.head?, before pr x y then p' = p else p' = q) := by
  cases ca with
  | nil =>
    cases h.left
    rw [sortMerge, if_pos rfl, List.nil_merge]
    exact ⟨q, m, rfl, h.right, .refl _ _, nofun⟩
  | cons c ca =>
    obtain ⟨a, ea⟩ := c
    obtain ⟨rfl, ta, hgeta, -⟩ := id h.left
    cases cb with
    | nil =>
      cases h.right
      rw [sortMerge, if_neg nofun, if_pos rfl, List.merge_right]
      refine ⟨some a, m, rfl, h.left, .refl _ _, fun x ca' hx => ?_⟩
      rw [if_pos nofun]
    | cons c cb =>
      obtain ⟨b, eb⟩ := c
      obtain ⟨rfl, tb, hgetb, -⟩ := id h.right
      have hkeya : pr.keyer ea = .ok ea.key := keyer_fits (h.fits (a, ea) List.mem_cons_self)
      have hkeyb : pr.keyer eb = .ok eb.key :=
        keyer_fits (h.fits (b, eb) (List.mem_append_right _ List.mem_cons_self))
      have hnodup := List.nodup_append.mp h.nodup
      have hfuel : ca.length + cb.length ≤ 2 * m.length := by
        have hlea := h.left.length_le hnodup.1
        have hleb := h.right.length_le hnodup.2.1
        rw [List.length_cons] at hlea hleb
        omega
      have hfirst : ∀ x ca', (a, ea) :: ca = x :: ca' →
          ((∀ y ∈ ((b, eb) :: cb).head?, before pr x y) ↔ ¬ pr.less eb.key ea.key) := by
        intro x ca' hx
        cases hx
        rw [List.head?_cons]
        simp only [Option.mem_some_iff, forall_eq', before_iff]
      rw [sortMerge, if_neg nofun, if_neg nofun, ph_get hgeta, ok_bind, hkeya, ok_bind, ph_get hgetb,
        ok_bind, hkeyb, ok_bind]
      by_cases hless : pr.less eb.key ea.key
      · rw [if_pos hless]
        obtain ⟨m', hrun, hseg, hagrees⟩ := takes_right (mergeLoop_merges pr _) h hfuel
        refine ⟨some b, m', ?_, ?_, hagrees.mono List.perm_middle.symm.subset, fun x ca' hx => ?_⟩
        · rw [← bind_assoc, hrun]
          rfl
        · rw [List.cons_merge_cons_neg _ _ _ fun hbefore => before_iff.mp hbefore hless]
          exact hseg
        · rw [if_neg (mt (hfirst x ca' hx).mp (not_not.mpr hless))]
      · rw [if_neg hless]
        obtain ⟨m', hrun, hseg, hagrees⟩ := takes_left (mergeLoop_merges pr _) h hfuel
        refine ⟨some a, m', ?_, ?_, hagrees, fun x ca' hx => ?_⟩
        · rw [← bind_assoc, hrun]
          rfl
        · rw [List.cons_merge_cons_pos _ _ _ (before_iff.mpr hless)]
          exact hseg
        · rw [if_pos ((hfirst x ca' hx).mpr hless)]

end Merging

/-! ## The steps -/

/-- The part that the halving of `n` elements ends with. -/
def firstPart (n : Nat) : Nat := if _h : 2 < n then firstPart (n / 2) else n
termination_by n

/-- One of the elements that the halving ends with is a least one. -/
def LeastFirst {α : Type} (le : α → α → Bool) (l : List α) : Prop :=
  ∃ x ∈ l.take (firstPart l.length), ∀ y ∈ l, le x y

section Steps

variable {α : Type} {le : α → α → Bool} {l l' r r' : List α}

theorem leastFirst_map {β : Type} {leβ : β → β → Bool} {f : α → β}
    (hle : ∀ x y, leβ (f x) (f y) = le x y) : LeastFirst leβ (l.map f) ↔ LeastFirst le l := by
  rw [LeastFirst, List.length_map, ← List.map_take]
  constructor
  · rintro ⟨b, hb, hleast⟩
    obtain ⟨x, hx, rfl⟩ := List.mem_map.mp hb
    exact ⟨x, hx, fun y hy => hle x y ▸ hleast (f y) (List.mem_map_of_mem hy)⟩
  · rintro ⟨x, hx, hleast⟩
    refine ⟨f x, List.mem_map_of_mem hx, List.forall_mem_map.mpr fun y hy => ?_⟩
    rw [hle]
    exact hleast y hy

theorem firstPart_le (n : Nat) : firstPart n ≤ n := by
  induction n using Nat.strongRecOn with
  | ind n ih =>
    rw [firstPart]
    split
    · exact Nat.le_trans (ih (n / 2) (by omega)) (Nat.div_le_self n 2)
    · exact Nat.le_refl n

/-- One or two elements. -/
theorem leastFirst_of_le_two (hle : TotalPreorder le) (hpos : l ≠ []) (htwo : l.length ≤ 2) :
    LeastFirst le l := by
  have hsorts := sorts_mergeSort hle l
  cases hr : l.mergeSort le with
  | nil =>
    rw [hr] at hsorts
    exact absurd (List.nil_perm.mp hsorts.perm) hpos
  | cons x r =>
    rw [hr] at hsorts
    refine ⟨x, ?_, hsorts.first_le hle⟩
    rw [firstPart, dif_neg (Nat.not_lt.mpr htwo), List.take_length]
    exact hsorts.perm.subset List.mem_cons_self

/-- A least element is in the first part of both halves if it is in that of the first half
and not greater than the least of the second. -/
theorem leastFirst_append (hle : TotalPreorder le) (hlen : 2 < (l ++ l').length)
    (hhalf : l.length = (l ++ l').length / 2) {x : α} (h : Sorts le l (x :: r))
    (h' : Sorts le l' r') :
    LeastFirst le (l ++ l') ↔ (∀ y ∈ r'.head?, le x y) ∧ LeastFirst le l := by
  have htake : (l ++ l').take (firstPart (l ++ l').length) = l.take (firstPart l.length) := by
    rw [firstPart, dif_pos hlen, ← hhalf, List.take_append_of_le_length (firstPart_le _)]
  rw [LeastFirst, htake]
  constructor
  · rintro ⟨z, hz, hleast⟩
    rw [List.forall_mem_append] at hleast
    refine ⟨fun y hy => ?_, z, hz, hleast.1⟩
    have hy' : y ∈ l' := h'.perm.subset (List.mem_of_mem_head? hy)
    exact hle.trans x z y (h.first_le hle z (List.mem_of_mem_take hz)) (hleast.2 y hy')
  · rintro ⟨hfirst, z, hz, hleast⟩
    refine ⟨z, hz, List.forall_mem_append.mpr ⟨hleast, fun y hy => ?_⟩⟩
    cases r' with
    | nil => exact absurd (h'.perm.symm.subset hy) List.not_mem_nil
    | cons y' r' =>
      have hzx : le z x := hleast x (h.perm.subset List.mem_cons_self)
      exact hle.trans z x y hzx (hle.trans x y' y (hfirst y' rfl) (h'.first_le hle y hy))

variable {rest : List (Nat × Element V)} {n : Nat}

/-- The order of the elements in the heads. -/
def beforeElement (pr : Procedures V) (x y : Element V) : Bool := leOf pr.less x.key y.key

/-- The result of sorting the cells `cs`. -/
structure Sorted (pr : Procedures V) (m : Pairs V) (cs : List (Nat × Element V)) (p : Option Nat)
    (m' : Pairs V) (cs' : List (Nat × Element V)) : Prop where
  seg : Seg m' p cs' none
  places : (places cs').Perm (places cs)
  sorts : Sorts (beforeElement pr) (cs.map Prod.snd) (cs'.map Prod.snd)
  agrees : Agrees m m' (Chains.places cs)

theorem map_merge_elements (ca cb : List (Nat × Element V)) :
    (List.merge ca cb (before pr)).map Prod.snd =
      List.merge (ca.map Prod.snd) (cb.map Prod.snd) (beforeElement pr) :=
  List.map_merge fun _ _ _ _ => rfl

theorem Sorted.fits {cs' : List (Nat × Element V)} (h : Sorted pr m cs p m' cs')
    (hfits : ∀ c ∈ cs, c.2.Fits pr) : ∀ c ∈ cs', c.2.Fits pr := by
  intro c hc
  obtain ⟨c', hc', heq⟩ := List.mem_map.mp (h.sorts.perm.subset (List.mem_map_of_mem hc))
  rw [← heq]
  exact hfits c' hc'

/-- The second of two cells changed, and then the end of the list. -/
theorem sorted_two {m₁ : Pairs V} {x y a b : Element V} {k : Nat} (hne : i ≠ k)
    (hi : m₁[i]? = some ⟨a, some k⟩) (hk : m₁[k]? = some ⟨b, t⟩) (hagrees : Agrees m m₁ [i, k])
    (hsorts : Sorts (beforeElement pr) [x, y] [a, b]) :
    Sorted pr m [(i, x), (k, y)] (some i) (m₁.set k ⟨b, none⟩) [(i, a), (k, b)] := by
  refine ⟨⟨rfl, some k, ?_, rfl, none, get_set hk _, rfl⟩, .refl _, hsorts, ?_⟩
  · exact (agrees_set m₁ k _).get (List.mem_singleton.not.mpr hne) hi
  · exact (hagrees.trans (agrees_set m₁ k _)).mono (List.append_subset.mpr
      ⟨List.Subset.refl _, List.cons_subset.mpr ⟨by simp [places], List.nil_subset _⟩⟩)

/-- A list of two is sorted by its heads. -/
theorem step_two {x y : Element V} {k : Nat} (hle : TotalPreorder (beforeElement pr))
    (hx : m[i]? = some ⟨x, some k⟩) (hy : m[k]? = some ⟨y, t⟩) (hne : i ≠ k) (hfx : x.Fits pr)
    (hfy : y.Fits pr) :
    ∃ m' cs', step pr 2 (some i) m = .ok (some i, t, m') ∧
      Sorted pr m [(i, x), (k, y)] (some i) m' cs' := by
  have hpair := sorts_pair hle x y
  rw [beforeElement] at hpair
  rw [step, dif_neg (by decide), if_pos rfl, ph_get hx, ok_bind, pt_get hx, ok_bind, ph_get hy, ok_bind,
    ok_bind, pt_get hy, ok_bind, keyer_fits hfy, ok_bind, keyer_fits hfx, ok_bind]
  by_cases hless : pr.less y.key x.key
  · have hi := get_set hx ⟨y, some k⟩
    have hk := (agrees_set m i ⟨y, some k⟩).get (List.mem_singleton.not.mpr (Ne.symm hne)) hy
    have hi' := (agrees_set (m.set i ⟨y, some k⟩) k ⟨x, t⟩).get (List.mem_singleton.not.mpr hne) hi
    have hk' := get_set hk ⟨x, t⟩
    rw [if_neg fun hbefore => leOf_iff.mp hbefore hless] at hpair
    rw [if_pos hless, setPh_get hx, ok_bind, pt_get hi, ok_bind, setPh_get hk, ok_bind, pt_get hi',
      ok_bind, setPt_get hk', ok_bind]
    exact ⟨_, _, rfl, sorted_two hne hi' hk' ((agrees_set m i _).trans (agrees_set _ k _)) hpair⟩
  · rw [if_pos (leOf_iff.mpr hless)] at hpair
    rw [if_neg hless, ok_bind, pt_get hx, ok_bind, setPt_get hy, ok_bind]
    exact ⟨_, _, rfl, sorted_two hne hx hy (.refl m _) hpair⟩

theorem step_one (pr : Procedures V) (hget : m[i]? = some ⟨e, t⟩) :
    ∃ m', step pr 1 (some i) m = .ok (some i, t, m') ∧ Sorted pr m [(i, e)] (some i) m' [(i, e)] := by
  rw [step, dif_neg (by decide), if_neg (by decide), if_pos rfl, pt_get hget, ok_bind, setPt_get hget,
    ok_bind]
  exact ⟨_, rfl, ⟨rfl, none, get_set hget _, rfl⟩, .refl _, sorts_singleton e, agrees_set m i _⟩

/-- The two halves, and then the merge. -/
theorem step_halves {p₁ q₁ p₂ q₂ p' : Option Nat} {m₁ m₂ : Pairs V} (hbig : 2 < n)
    (h₁ : step pr (n / 2) p m = .ok (p₁, q₁, m₁)) (h₂ : step pr (n - n / 2) q₁ m₁ = .ok (p₂, q₂, m₂))
    (hmerge : sortMerge pr m₂ p₁ p₂ = .ok (p', m')) : step pr n p m = .ok (p', q₂, m') := by
  rw [step, dif_pos hbig]
  dsimp only
  rw [h₁, ok_bind]
  dsimp only
  rw [h₂, ok_bind]
  dsimp only
  rw [hmerge]
  rfl

variable {ca cb ca' cb' : List (Nat × Element V)} {p₁ p₂ : Option Nat} {m₁ m₂ : Pairs V}

/-- Two sorted parts are merged; which of the two is in front is which has the least
element. -/
theorem Sorted.merge (hle : TotalPreorder (beforeElement pr)) (h₁ : Sorted pr m ca p₁ m₁ ca')
    (h₂ : Sorted pr m₁ cb p₂ m₂ cb') (hnodup : (Chains.places (ca ++ cb)).Nodup)
    (hfits : ∀ c ∈ ca ++ cb, c.2.Fits pr) :
    ∃ p' m', sortMerge pr m₂ p₁ p₂ = .ok (p', m') ∧
      Sorted pr m (ca ++ cb) p' m' (List.merge ca' cb' (before pr)) ∧
      Agrees m₂ m' (Chains.places (ca ++ cb)) ∧
      (∀ x ca₀, ca' = x :: ca₀ → if ∀ y ∈ cb'.head?, before pr x y then p' = p₁ else p' = p₂) := by
  rw [places_append] at hnodup ⊢
  have hdisjoint := List.disjoint_of_nodup_append hnodup
  have hplaces := h₁.places.append h₂.places
  have hmerge : Halves pr m₂ ca' cb' p₁ p₂ := by
    refine ⟨h₁.seg.frame h₂.agrees fun j hj hj' => ?_, h₂.seg, hplaces.nodup_iff.mpr hnodup, ?_⟩
    · exact hdisjoint (h₁.places.subset hj) hj'
    · rw [List.forall_mem_append] at hfits ⊢
      exact ⟨h₁.fits hfits.1, h₂.fits hfits.2⟩
  obtain ⟨p', m', hrun, hseg, hagrees, hhead⟩ := sortMerge_spec hmerge
  refine ⟨p', m', hrun, ⟨hseg, ?_, ?_, ?_⟩, hagrees.mono hplaces.subset, hhead⟩
  · have hperm := places_perm (@List.merge_perm_append _ (before pr) ca' cb')
    rw [places_append] at hperm ⊢
    exact hperm.trans hplaces
  · rw [List.map_append, map_merge_elements]
    exact h₁.sorts.merge hle h₂.sorts
  · rw [places_append]
    exact ((h₁.agrees.trans h₂.agrees).trans hagrees).mono
      (List.append_subset.mpr ⟨List.Subset.refl _, hplaces.subset⟩)

/-- The first pair comes first in the whole where the first half is chosen and it comes
first there. -/
theorem first_halves {p' : Option Nat} (hle : TotalPreorder (beforeElement pr))
    (hlen : 2 < (ca ++ cb).length) (hhalf : ca.length = (ca ++ cb).length / 2)
    (hseg : Seg m p ca q) (h₁ : Sorted pr m ca p₁ m₁ ca') (h₂ : Sorted pr m₁ cb p₂ m₂ cb')
    (hnodup : (places (ca ++ cb)).Nodup)
    (hfirst : p₁ = p ↔ LeastFirst (beforeElement pr) (ca.map Prod.snd))
    (hhead : ∀ x ca₀, ca' = x :: ca₀ → if ∀ y ∈ cb'.head?, before pr x y then p' = p₁ else p' = p₂) :
    p' = p ↔ LeastFirst (beforeElement pr) ((ca ++ cb).map Prod.snd) := by
  have hsame : ca'.length = ca.length := by
    have hlength := h₁.sorts.perm.length_eq
    rwa [List.length_map, List.length_map] at hlength
  cases ca' with
  | nil =>
    rw [List.length_nil] at hsame
    omega
  | cons x ca₀ =>
    have hsorts₁ := h₁.sorts
    rw [List.map_cons] at hsorts₁
    rw [List.map_append, leastFirst_append hle (by rwa [← List.map_append, List.length_map])
      (by rwa [← List.map_append, List.length_map, List.length_map]) hsorts₁ h₂.sorts, ← hfirst]
    have hchosen := hhead x ca₀ rfl
    by_cases hbefore : ∀ y ∈ cb'.head?, before pr x y
    · rw [if_pos hbefore] at hchosen
      have hbefore' : ∀ y ∈ (cb'.map Prod.snd).head?, beforeElement pr x.2 y := by
        intro y hy
        rw [List.head?_map, Option.mem_def, Option.map_eq_some_iff] at hy
        obtain ⟨c, hc, rfl⟩ := hy
        exact hbefore c hc
      rw [hchosen]
      exact (and_iff_right hbefore').symm
    · rw [if_neg hbefore] at hchosen
      refine iff_of_false ?_ fun h => hbefore fun y hy => ?_
      · -- a pair of the second half comes first
        cases cb' with
        | nil => exact absurd nofun hbefore
        | cons y cb₀ =>
          cases ca with
          | nil =>
            rw [List.length_nil] at hsame
            cases hsame
          | cons z ca =>
            rw [hchosen, h₂.seg.1, hseg.1]
            intro heq
            rw [places_append] at hnodup
            have hy : y.1 ∈ Chains.places cb := h₂.places.subset List.mem_cons_self
            rw [Option.some.inj heq] at hy
            exact List.disjoint_of_nodup_append hnodup List.mem_cons_self hy
      · refine h.1 y.2 ?_
        rw [List.head?_map]
        exact Option.mem_map_of_mem _ hy

/-- **A step** sorts the first pairs and leaves the rest. -/
theorem step_sorts (hle : TotalPreorder (beforeElement pr)) (hseg : Seg m p (cs ++ rest) none)
    (hnodup : (places (cs ++ rest)).Nodup) (hfits : ∀ c ∈ cs, c.2.Fits pr) (hn : cs.length = n) :
    ∃ p' q m' cs', step pr n p m = .ok (p', q, m') ∧ Sorted pr m cs p' m' cs' ∧
      Seg m' q rest none ∧
      (0 < n → (p' = p ↔ LeastFirst (beforeElement pr) (cs.map Prod.snd))) := by
  induction n using Nat.strongRecOn generalizing m p cs rest with
  | ind n ih =>
    have hnodup' := hnodup
    rw [places_append] at hnodup'
    have hdisjoint := List.disjoint_of_nodup_append hnodup'
    have hnodup₀ := (List.nodup_append.mp hnodup').1
    have hsmall (hne : cs ≠ []) (htwo : cs.length ≤ 2) :
        LeastFirst (beforeElement pr) (cs.map Prod.snd) :=
      leastFirst_of_le_two hle (mt List.map_eq_nil_iff.mp hne) (by rwa [List.length_map])
    obtain ⟨q₀, hcs, hrest⟩ := seg_append.mp hseg
    by_cases hbig : 2 < n
    · obtain ⟨ca, cb, rfl, hlen⟩ : ∃ ca cb, cs = ca ++ cb ∧ ca.length = n / 2 := by
        refine ⟨cs.take (n / 2), cs.drop (n / 2), (List.take_append_drop _ _).symm, ?_⟩
        rw [List.length_take]
        omega
      rw [List.append_assoc] at hseg hnodup
      have hfits' := List.forall_mem_append.mp hfits
      have hlength : ca.length + cb.length = n := by rw [← hn, List.length_append]
      obtain ⟨p₁, q₁, m₁, ca', hrun₁, h₁, hseg₁, hfirst₁⟩ :=
        ih (n / 2) (by omega) hseg hnodup hfits'.1 hlen
      rw [places_append] at hnodup
      obtain ⟨p₂, q₂, m₂, cb', hrun₂, h₂, hseg₂, -⟩ :=
        ih (n - n / 2) (by omega) hseg₁ (List.nodup_append.mp hnodup).2.1 hfits'.2 (by omega)
      obtain ⟨p', m', hrun, hsorted, hagrees, hhead⟩ := h₁.merge hle h₂ hnodup₀ hfits
      obtain ⟨q', hca, -⟩ := seg_append.mp hcs
      refine ⟨p', q₂, m', _, step_halves hbig hrun₁ hrun₂ hrun, hsorted, ?_, fun _ => ?_⟩
      · exact hseg₂.frame hagrees fun j hj hj' => hdisjoint hj' hj
      · exact first_halves hle (by omega) (by omega) hca h₁ h₂ hnodup₀ (hfirst₁ (by omega)) hhead
    · match cs, hn with
      | [], hn =>
        subst hn
        refine ⟨none, p, m, [], ?_, ⟨rfl, .refl _, sorts_nil, .refl _ _⟩, hseg, nofun⟩
        rw [step, dif_neg hbig, if_neg nofun, if_neg nofun]
        rfl
      | [(i, e)], hn =>
        subst hn
        obtain ⟨rfl, t, hget, rfl⟩ := hcs
        obtain ⟨m', hrun, hsorted⟩ := step_one pr hget
        refine ⟨some i, t, m', _, hrun, hsorted, ?_, fun _ => iff_of_true rfl (hsmall nofun (by simp))⟩
        exact hrest.frame hsorted.agrees fun j hj hj' => hdisjoint hj' hj
      | [(i, x), (k, y)], hn =>
        subst hn
        obtain ⟨rfl, _, hx, rfl, t, hy, rfl⟩ := hcs
        have hne : i ≠ k := fun heq => (List.nodup_cons.mp hnodup₀).1 (heq ▸ List.mem_cons_self)
        obtain ⟨m', cs', hrun, hsorted⟩ := step_two hle hx hy hne (hfits (i, x) List.mem_cons_self)
          (hfits (k, y) (List.mem_cons_of_mem _ List.mem_cons_self))
        refine ⟨some i, t, m', cs', hrun, hsorted, ?_, fun _ => iff_of_true rfl (hsmall nofun (by simp))⟩
        exact hrest.frame hsorted.agrees fun j hj hj' => hdisjoint hj' hj
      | _ :: _ :: _ :: cs, hn =>
        rw [List.length_cons, List.length_cons, List.length_cons] at hn
        omega

end Steps

/-! ## Whole lists -/

section Whole

variable {l : List V} {fuel : Nat}

/-- What is compared of an element. -/
def Procedures.keyOf (pr : Procedures V) (v : V) : V :=
  match pr.key with
  | some key => key v
  | none => v

/-- The order of the elements: `x` is not greater. -/
def Procedures.order (pr : Procedures V) (x y : V) : Bool :=
  leOf pr.less (pr.keyOf x) (pr.keyOf y)

/-- The pairs `cs` from `p` on are a proper list of the elements `l`. -/
structure IsList (m : Pairs V) (p : Option Nat) (cs : List (Nat × Element V)) (l : List V) : Prop where
  seg : Seg m p cs none
  nodup : (places cs).Nodup
  elements : cs.map Prod.snd = l.map .plain

theorem IsList.length (h : IsList m p cs l) : cs.length = l.length := by
  have hlength := congrArg List.length h.elements
  rwa [List.length_map, List.length_map] at hlength

theorem headsLoop_spec {f : Element V → Result (Element V)} {g : Element V → Element V}
    (hseg : Seg m p cs none) (hnodup : (places cs).Nodup) (hf : ∀ c ∈ cs, f c.2 = .ok (g c.2))
    (hfuel : cs.length < fuel) :
    ∃ m', headsLoop f fuel m p = .ok m' ∧ Seg m' p (cs.map fun c => (c.1, g c.2)) none ∧
      Agrees m m' (places cs) := by
  induction fuel generalizing m p cs with
  | zero => exact absurd hfuel (Nat.not_lt_zero _)
  | succ fuel ih =>
    cases cs with
    | nil =>
      cases hseg
      rw [headsLoop, if_pos rfl]
      exact ⟨m, rfl, rfl, .refl _ _⟩
    | cons c cs =>
      obtain ⟨i, e⟩ := c
      obtain ⟨rfl, t, hget, hseg⟩ := hseg
      obtain ⟨hi, hnodup⟩ := List.nodup_cons.mp hnodup
      rw [List.forall_mem_cons] at hf
      obtain ⟨m', hrun, hseg', hagrees⟩ := ih (hseg.set hi ⟨g e, t⟩) hnodup hf.2
        (Nat.lt_of_succ_lt_succ hfuel)
      refine ⟨m', ?_, hseg'.link hget hagrees hi, ?_⟩
      · rw [headsLoop, if_neg nofun, ph_get hget, ok_bind, hf.1, ok_bind, setPh_get hget, ok_bind,
          pt_get (get_set hget _), ok_bind]
        exact hrun
      · exact (agrees_set m i _).trans hagrees

theorem listLength_spec (hseg : Seg m p cs none) (hfuel : cs.length < fuel) :
    listLength m fuel p = .ok cs.length := by
  induction fuel generalizing p cs with
  | zero => exact absurd hfuel (Nat.not_lt_zero _)
  | succ fuel ih =>
    cases cs with
    | nil =>
      cases hseg
      rw [listLength, if_pos rfl]
      rfl
    | cons c cs =>
      obtain ⟨i, e⟩ := c
      obtain ⟨rfl, t, hget, hseg⟩ := hseg
      rw [listLength, if_neg nofun, pt_get hget, ok_bind, ih hseg (Nat.lt_of_succ_lt_succ hfuel)]
      rfl

/-- Each head changed: the elements that were `l` by `f` are `l` by `f'`. -/
theorem headsLoop_elements {f : Element V → Result (Element V)} {a b : V → Element V}
    (hseg : Seg m p cs none) (hnodup : (places cs).Nodup) (hcs : cs.map Prod.snd = l.map a)
    (hf : ∀ v, f (a v) = .ok (b v)) (hvalue : ∀ v, (a v).value = v) :
    ∃ m' cs', headsLoop f (m.length + 1) m p = .ok m' ∧ Seg m' p cs' none ∧ places cs' = places cs ∧
      cs'.map Prod.snd = l.map b ∧ Agrees m m' (places cs) := by
  have hmem : ∀ c ∈ cs, ∃ v, c.2 = a v := by
    intro c hc
    obtain ⟨v, -, heq⟩ := List.mem_map.mp (hcs ▸ List.mem_map_of_mem hc)
    exact ⟨v, heq.symm⟩
  have hf' : ∀ c ∈ cs, f c.2 = .ok (b c.2.value) := by
    intro c hc
    obtain ⟨v, hv⟩ := hmem c hc
    rw [hv, hf, hvalue]
  obtain ⟨m', hrun, hseg', hagrees⟩ := @headsLoop_spec V m p cs _ f (fun e => b e.value) hseg hnodup hf'
    (Nat.lt_succ_of_le (hseg.length_le hnodup))
  refine ⟨m', _, hrun, hseg', ?_, ?_, hagrees⟩
  · rw [places, List.map_map]
    rfl
  · rw [List.map_map, show Prod.snd ∘ (fun c : Nat × Element V => (c.1, b c.2.value)) =
      (fun e => b e.value) ∘ Prod.snd from rfl, ← List.map_map, hcs, List.map_map]
    exact List.map_congr_left fun v _ => congrArg b (hvalue v)

/-- The steps on a whole list whose heads are the elements `l` by `f`. -/
theorem steps_whole {f : V → Element V} (hle : TotalPreorder (beforeElement pr))
    (hseg : Seg m p cs none) (hnodup : (places cs).Nodup) (hcs : cs.map Prod.snd = l.map f)
    (hfits : ∀ v, (f v).Fits pr) (hvalue : ∀ v, (f v).value = v)
    (horder : ∀ x y, beforeElement pr (f x) (f y) = pr.order x y) :
    ∃ n p' q m' cs' l', listLength m (m.length + 1) p = .ok n ∧ step pr n p m = .ok (p', q, m') ∧
      Seg m' p' cs' none ∧ (places cs').Perm (places cs) ∧ cs'.map Prod.snd = l'.map f ∧
      Sorts pr.order l l' ∧ Agrees m m' (places cs) ∧ (p' = p ↔ l = [] ∨ LeastFirst pr.order l) := by
  have hlen : cs.length = l.length := by
    have hlength := congrArg List.length hcs
    rwa [List.length_map, List.length_map] at hlength
  have hroom := hseg.length_le hnodup
  have hfits' : ∀ c ∈ cs, c.2.Fits pr := by
    intro c hc
    obtain ⟨v, -, heq⟩ := List.mem_map.mp (hcs ▸ List.mem_map_of_mem hc)
    exact heq ▸ hfits v
  rw [← List.append_nil cs] at hseg hnodup
  obtain ⟨p', q, m', cs', hrun, hsorted, -, hfirst⟩ := step_sorts hle hseg hnodup hfits' rfl
  rw [List.append_nil] at hseg hnodup
  have hsorts := hsorted.sorts
  rw [hcs] at hsorts hfirst
  obtain ⟨l', hl', hsorts'⟩ := hsorts.of_map hvalue horder
  refine ⟨cs.length, p', q, m', cs', l', listLength_spec hseg (Nat.lt_succ_of_le hroom), hrun, hsorted.seg,
    hsorted.places, hl', hsorts', hsorted.agrees, ?_⟩
  rw [leastFirst_map horder] at hfirst
  cases l with
  | nil =>
    -- nothing is sorted
    rw [List.length_nil] at hlen
    have hnil := List.length_eq_zero_iff.mp hlen
    subst hnil
    rw [List.length_nil, step, dif_neg (by decide), if_neg nofun, if_neg nofun] at hrun
    cases hrun
    cases hseg
    exact iff_of_true rfl (.inl rfl)
  | cons v l =>
    rw [hfirst (by rw [hlen]; exact Nat.succ_pos _)]
    exact (or_iff_right nofun).symm

theorem order_totalPreorder [IsStrictWeakOrder V fun x y => pr.less x y] :
    TotalPreorder pr.order := (leOf_totalPreorder pr.less).comap pr.keyOf

theorem beforeElement_totalPreorder [IsStrictWeakOrder V fun x y => pr.less x y] :
    TotalPreorder (beforeElement pr) := (leOf_totalPreorder pr.less).comap Element.key

/-- **`sort:sort-list!`** links the pairs of the list to the stable sort. -/
theorem sortSortList_spec (pr : Procedures V) [IsStrictWeakOrder V fun x y => pr.less x y] (h : IsList m p cs l) :
    ∃ p' m' cs' l', sortSortList pr m p = .ok (p', m') ∧ IsList m' p' cs' l' ∧
      (places cs').Perm (places cs) ∧ Sorts pr.order l l' ∧ Agrees m m' (places cs) ∧
      (p' = p ↔ l = [] ∨ LeastFirst pr.order l) := by
  have hle := @beforeElement_totalPreorder V pr _
  cases hkey : pr.key with
  | none =>
    obtain ⟨n, p', q, m', cs', l', hlength, hrun, hseg, hperm, hcs', hsorts, hagrees, hfirst⟩ :=
      @steps_whole V pr m p cs l .plain hle h.seg h.nodup h.elements
        (fun v => by rw [Element.Fits, hkey]; rfl) (fun v => rfl)
        (fun x y => by rw [beforeElement, Procedures.order, Procedures.keyOf, Procedures.keyOf, hkey]; rfl)
    refine ⟨p', m', cs', l', ?_, ⟨hseg, hperm.nodup_iff.mpr h.nodup, hcs'⟩, hperm, hsorts, hagrees, hfirst⟩
    rw [sortSortList, hkey]
    dsimp only
    rw [hlength, ok_bind, hrun]
    rfl
  | some key =>
    obtain ⟨m₁, cs₁, hwrap, hseg₁, hplaces₁, hcs₁, hagrees₁⟩ :=
      @headsLoop_elements V m p cs l
        (fun
          | .plain v => .ok (.wrapped (key v) v)
          | .wrapped _ _ => .error .undefined)
        .plain (fun v => .wrapped (key v) v) h.seg h.nodup h.elements (fun v => rfl) fun v => rfl
    obtain ⟨n, p', q, m₂, cs₂, l', hlength, hrun, hseg₂, hperm₂, hcs₂, hsorts, hagrees₂, hfirst⟩ :=
      @steps_whole V pr m₁ p cs₁ l (fun v => .wrapped (key v) v) hle hseg₁ (hplaces₁ ▸ h.nodup) hcs₁
        (fun v => by rw [Element.Fits, hkey]; rfl) (fun v => rfl)
        (fun x y => by rw [beforeElement, Procedures.order, Procedures.keyOf, Procedures.keyOf, hkey]; rfl)
    rw [hplaces₁] at hperm₂ hagrees₂
    obtain ⟨m', cs', hunwrap, hseg', hplaces', hcs', hagrees'⟩ :=
      @headsLoop_elements V m₂ p' cs₂ l'
        (fun
          | .plain _ => .error (.paramType "pair")
          | .wrapped _ v => .ok (.plain v))
        (fun v => .wrapped (key v) v) .plain hseg₂ (hperm₂.nodup_iff.mpr h.nodup) hcs₂ (fun v => rfl)
        fun v => rfl
    refine ⟨p', m', cs', l', ?_, ⟨hseg', ?_, hcs'⟩, ?_, hsorts, ?_, hfirst⟩
    · rw [sortSortList, hkey]
      dsimp only
      rw [keyWrap, hwrap, ok_bind, hlength, ok_bind, hrun, ok_bind]
      dsimp only
      rw [keyUnwrap, hunwrap]
      rfl
    · rw [hplaces']
      exact hperm₂.nodup_iff.mpr h.nodup
    · rw [hplaces']
      exact hperm₂
    · refine ((hagrees₁.trans hagrees₂).trans hagrees').mono ?_
      exact List.append_subset.mpr
        ⟨List.append_subset.mpr ⟨List.Subset.refl _, List.Subset.refl _⟩, hperm₂.subset⟩

end Whole

end Idio.Srfi95
