/-
  Pair.lean --- lists made of pairs.

  The functions of pair.c work on any graph of pairs.  `idio_listp` tells a list from what ends in
  another value or comes back to itself by two walks along the tails, one of them twice as fast.
  `idio_list_nreverse` and `idio_list_nappend` make new lists of the pairs that there are,
  `idio_list_append2` copies the pairs of its first argument.
-/
import Idio.Basic
import Idio.Lib.PairHeap

set_option autoImplicit false

namespace Idio.Pairs

open PairHeap

variable {α : Type}

/-! ## Pairs -/

/-- `IDIO_PAIR_H` -/
def pairH (m : Memory α) : Val α → Result (Val α)
  | .ref i =>
      match m[i]? with
      | some c => .ok c.head
      | none => .error .undefined
  | _ => .error .undefined

/-- `IDIO_PAIR_T` -/
def pairT (m : Memory α) : Val α → Result (Val α)
  | .ref i =>
      match m[i]? with
      | some c => .ok c.tail
      | none => .error .undefined
  | _ => .error .undefined

/-- `IDIO_PAIR_T (p) = t` -/
def setPairT (m : Memory α) (p t : Val α) : Result (Memory α) :=
  match p with
  | .ref i =>
      match m[i]? with
      | some c => .ok (m.set i ⟨c.head, t⟩)
      | none => .error .undefined
  | _ => .error .undefined

/-- `idio_pair` -/
def pair (m : Memory α) (h t : Val α) : Val α × Memory α := (.ref m.length, m ++ [⟨h, t⟩])

/-! ## Lists -/

/-- The loop of `idio_listp`: `x` goes two pairs on, `y` one. -/
def listpLoop [DecidableEq α] (m : Memory α) : Nat → Val α → Val α → Result Bool
  | 0, _, _ => .error .diverges
  | fuel + 1, x, y =>
      if x = y then .ok false
      else if x = .nil then .ok true
      else if x.isPair then do
        let tx ← pairT m x
        if tx = .nil then .ok true
        else if tx.isPair then do
          let x ← pairT m tx
          let y ← pairT m y
          listpLoop m fuel x y
        else .ok false
      else .ok false

/-- `idio_listp` -/
def listp [DecidableEq α] (m : Memory α) (x : Val α) : Result Bool :=
  if x = .nil then .ok true
  else if x.isPair then do
    let y := x
    let x ← pairT m x
    listpLoop m (m.length + 1) x y
  else .ok false

/-- The loop of `idio_list_length`. -/
def listLengthLoop (m : Memory α) : Nat → Val α → Nat → Result Nat
  | 0, _, _ => .error .diverges
  | fuel + 1, l, len =>
      match l with
      | .nil => .ok len
      | l => do
          let l ← pairT m l
          listLengthLoop m fuel l (len + 1)

/-- `idio_list_length` -/
def listLength (m : Memory α) (l : Val α) : Result Nat := listLengthLoop m (m.length + 1) l 0

/-- The loop of `idio_listv` behind the first pair. -/
def listvLoop (m : Memory α) (p : Val α) : List (Val α) → Result (Memory α)
  | [] => .ok m
  | arg :: args => do
      let (c, m) := pair m arg .nil
      let m ← setPairT m p c
      listvLoop m c args

/-- `idio_listv` -/
def listv (m : Memory α) : List (Val α) → Result (Val α × Memory α)
  | [] => .ok (.nil, m)
  | arg :: args => do
      let (r, m) := pair m arg .nil
      let m ← listvLoop m r args
      return (r, m)

/-- The loop of `idio_list_nreverse`.  On the way back from a cycle each pair of the way there is
met once more. -/
def nreverseLoop : Nat → Memory α → Val α → Val α → Result (Val α × Memory α)
  | 0, _, _, _ => .error .diverges
  | fuel + 1, m, l, r =>
      match l with
      | .nil => .ok (r, m)
      | l => do
          let t ← pairT m l
          let m ← setPairT m l r
          nreverseLoop fuel m t l

/-- `idio_list_nreverse` -/
def nreverse (m : Memory α) (l : Val α) : Result (Val α × Memory α) :=
  nreverseLoop (2 * m.length + 1) m l .nil

/-- The loop of `idio_list_append2` behind the first pair of the copy: the last pair of the
copy. -/
def append2Loop : Nat → Memory α → Val α → Val α → Result (Val α × Memory α)
  | 0, _, _, _ => .error .diverges
  | fuel + 1, m, p, l1 =>
      if l1.isPair then do
        let h ← pairH m l1
        let (t, m) := pair m h .nil
        let m ← setPairT m p t
        let l1 ← pairT m l1
        append2Loop fuel m t l1
      else .ok (p, m)

/-- `idio_list_append2`; to take the tail of `#n` where the first argument is no list is
undefined. -/
def append2 (m : Memory α) (l1 l2 : Val α) : Result (Val α × Memory α) :=
  match l1 with
  | .nil => .ok (l2, m)
  | l1 =>
      if l1.isPair then do
        let h ← pairH m l1
        let (r, m) := pair m h .nil
        let l1 ← pairT m l1
        let (p, m) ← append2Loop (m.length + 1) m r l1
        let m ← setPairT m p l2
        return (r, m)
      else .error .undefined

/-- The loop of `idio_last_pair`. -/
def lastPairLoop (m : Memory α) : Nat → Val α → Result (Val α)
  | 0, _ => .error .diverges
  | fuel + 1, list => do
      let tail ← pairT m list
      if tail.isPair then lastPairLoop m fuel tail else .ok list

/-- `idio_last_pair` -/
def lastPair (m : Memory α) (list : Val α) : Result (Val α) :=
  match list with
  | .nil => .ok .nil
  | list => lastPairLoop m (m.length + 1) list

/-- The inner loop of `idio_list_nappend`. -/
def nappendTail : Nat → Memory α → Val α → Val α → Result (Memory α)
  | 0, _, _, _ => .error .diverges
  | fuel + 1, m, tailCons, rest =>
      if rest.isPair then do
        let next ← pairH m rest
        let rest ← pairT m rest
        let m ← setPairT m tailCons next
        let tailCons ← (if next.isPair then lastPair m next else .ok tailCons)
        nappendTail fuel m tailCons rest
      else .ok m

/-- The outer loop of `idio_list_nappend`. -/
def nappendLoop (m : Memory α) : Nat → Val α → Val α → Result (Val α × Memory α)
  | 0, _, _ => .error .diverges
  | fuel + 1, lists, prev =>
      if lists.isPair then do
        let first ← pairH m lists
        let rest ← pairT m lists
        if first.isPair then do
          let tailCons ← lastPair m first
          let m ← nappendTail (m.length + 1) m tailCons rest
          return (first, m)
        else nappendLoop m fuel rest first
      else .ok (prev, m)

/-- `idio_list_nappend` -/
def nappend (m : Memory α) (lists : Val α) : Result (Val α × Memory α) :=
  nappendLoop m (m.length + 1) lists .nil

variable {m base : Memory α} {v w x t l : Val α} {cs ds : Cells α} {i : Nat} {c : Pair α}

theorem pairH_ref (hget : m[i]? = some c) : pairH m (.ref i) = .ok c.head := by
  simp only [pairH, hget]

theorem pairT_ref (hget : m[i]? = some c) : pairT m (.ref i) = .ok c.tail := by
  simp only [pairT, hget]

theorem setPairT_ref (hget : m[i]? = some c) (t : Val α) :
    setPairT m (.ref i) t = .ok (m.set i ⟨c.head, t⟩) := by
  simp only [setPairT, hget]

/-! ## The two walks -/

section Listp

variable {g : Graph α}

theorem Graph.pairT_iterate {n : Nat} (h : ((tailOf g.heap)^[n] g.value).isPair = true) :
    pairT g.heap ((tailOf g.heap)^[n] g.value) = .ok ((tailOf g.heap)^[n + 1] g.value) := by
  cases hv : (tailOf g.heap)^[n] g.value with
  | ref i =>
    have hget := List.getElem?_eq_getElem (g.iterate_inside hv)
    rw [pairT_ref hget, Function.iterate_succ_apply', hv, tailOf_pair hget]
  | _ =>
    rw [hv] at h
    exact absurd h nofun

/-- Before an end there are pairs. -/
theorem isPair_before {n k : Nat} (h : ((tailOf m)^[n] v).isPair = true) (hk : k ≤ n) :
    ((tailOf m)^[k] v).isPair = true := by
  rw [← Bool.not_eq_false]
  intro hend
  rw [tailOf_after hend hk, hend] at h
  cases h

variable [DecidableEq α]

/-- After `k` times round, while the walks have not met. -/
theorem listpLoop_spec {k fuel : Nat} (hfuel : g.heap.length < k + fuel)
    (hpairs : ((tailOf g.heap)^[2 * k] g.value).isPair = true)
    (hapart : ∀ n, n < k → (tailOf g.heap)^[n] g.value ≠ (tailOf g.heap)^[2 * n + 1] g.value) :
    ∃ b, listpLoop g.heap fuel ((tailOf g.heap)^[2 * k + 1] g.value)
        ((tailOf g.heap)^[k] g.value) = .ok b ∧
      (b = true ↔ ∃ n, (tailOf g.heap)^[n] g.value = .nil) := by
  induction fuel generalizing k with
  | zero =>
    -- the pairs of the way are one more than there are, so the walks have met
    obtain ⟨i, j, hij, hj, heq⟩ :=
      g.exists_repeat fun n hn => isPair_before hpairs (by omega)
    obtain ⟨n, hn, hmeet⟩ := exists_meet heq hij
    exact absurd hmeet (hapart n (by omega))
  | succ fuel ih =>
    have stays {n : Nat} (hend : ((tailOf g.heap)^[n] g.value).isPair = false)
        (hne : (tailOf g.heap)^[n] g.value ≠ .nil) :
        ¬ ∃ n, (tailOf g.heap)^[n] g.value = .nil := by
      rintro ⟨n', hn'⟩
      rcases Nat.le_total n n' with hle | hle
      · exact hne ((tailOf_after hend hle).symm.trans hn')
      · have hnil : ((tailOf g.heap)^[n'] g.value).isPair = false := by rw [hn']; rfl
        exact hne ((tailOf_after hnil hle).trans hn')
    have hy := isPair_before hpairs (show k ≤ 2 * k by omega)
    rw [listpLoop]
    split
    case isTrue hmeet =>
      refine ⟨false, rfl, ⟨nofun, ?_⟩⟩
      rintro ⟨n, hn⟩
      have hend : ((tailOf g.heap)^[n] g.value).isPair = false := by rw [hn]; rfl
      have hround := iterate_meet hmeet.symm n
      have hle : n ≤ k + (k + 1) * n := by
        have : 1 * n ≤ (k + 1) * n := Nat.mul_le_mul_right n (Nat.le_add_left 1 k)
        omega
      rw [← hround, tailOf_after hend hle, hend] at hy
      cases hy
    case isFalse hapart' =>
    split
    case isTrue hnil => exact ⟨true, rfl, ⟨fun _ => ⟨_, hnil⟩, fun _ => rfl⟩⟩
    case isFalse hne =>
    split
    case isFalse hend => exact ⟨false, rfl, ⟨nofun, fun h => absurd h (stays (by simpa using hend) hne)⟩⟩
    case isTrue hx =>
    rw [Graph.pairT_iterate hx, ok_bind]
    split
    case isTrue hnil => exact ⟨true, rfl, ⟨fun _ => ⟨_, hnil⟩, fun _ => rfl⟩⟩
    case isFalse hne =>
    split
    case isFalse hend => exact ⟨false, rfl, ⟨nofun, fun h => absurd h (stays (by simpa using hend) hne)⟩⟩
    case isTrue htx =>
    rw [Graph.pairT_iterate htx, ok_bind, Graph.pairT_iterate hy, ok_bind]
    refine ih (k := k + 1) (by omega) htx fun n hn => ?_
    rcases Nat.lt_succ_iff_lt_or_eq.mp hn with hlt | rfl
    · exact hapart n hlt
    · exact fun h => hapart' h.symm

/-- `idio_listp` ends and tells what is a list. -/
theorem listp_spec (g : Graph α) :
    ∃ b, listp g.heap g.value = .ok b ∧ (b = true ↔ ∃ xs, ListIs g.heap g.value xs) := by
  rw [listp]
  simp only [listIs_iff]
  split
  case isTrue hnil => exact ⟨true, rfl, ⟨fun _ => ⟨0, hnil⟩, fun _ => rfl⟩⟩
  case isFalse hne =>
  split
  case isTrue hpair =>
    have hstep := Graph.pairT_iterate (n := 0) hpair
    rw [Function.iterate_zero_apply] at hstep
    rw [hstep, ok_bind]
    exact listpLoop_spec (k := 0) (by omega) hpair nofun
  case isFalse hend =>
    refine ⟨false, rfl, ⟨nofun, ?_⟩⟩
    rintro ⟨n, hn⟩
    rw [tailOf_end (by simpa using hend)] at hn
    exact absurd hn hne

end Listp

/-! ## Lists that end -/

variable {fuel : Nat}

theorem listLengthLoop_spec {n : Nat} (h : Chain m l cs .nil) (hfuel : cs.length < fuel) :
    listLengthLoop m fuel l n = .ok (n + cs.length) := by
  induction cs generalizing l fuel n with
  | nil =>
    cases h
    cases fuel with
    | zero => exact absurd hfuel (Nat.not_lt_zero _)
    | succ fuel => rfl
  | cons c cs ih =>
    cases fuel with
    | zero => exact absurd hfuel (Nat.not_lt_zero _)
    | succ fuel =>
      cases h with
      | pair hget rest =>
        simp only [listLengthLoop, pairT_ref hget, ok_bind]
        rw [ih rest (Nat.lt_of_succ_lt_succ hfuel), List.length_cons, Nat.add_assoc, Nat.add_comm 1]

theorem listLength_spec (h : Chain m l cs .nil) : listLength m l = .ok cs.length := by
  rw [listLength, listLengthLoop_spec h (Nat.lt_succ_of_le (h.length_le rfl)), Nat.zero_add]

theorem listLength_list {xs : List (Val α)} (h : ListIs m l xs) : listLength m l = .ok xs.length := by
  obtain ⟨cs, hcs, rfl⟩ := h
  rw [listLength_spec hcs, heads, List.length_map]

/-- The loop turns the pairs that are left around, in front of those that it has turned. -/
theorem nreverseLoop_spec {r : Val α} (h : Chain m l cs .nil) (hr : Chain m r ds .nil)
    (hnodup : (places cs ++ places ds).Nodup) (hfuel : cs.length < fuel) :
    ∃ r' m', nreverseLoop fuel m l r = .ok (r', m') ∧ Chain m' r' (cs.reverse ++ ds) .nil ∧
      Keeps m m' (places cs) := by
  induction cs generalizing m l r ds fuel with
  | nil =>
    cases h
    cases fuel with
    | zero => exact absurd hfuel (Nat.not_lt_zero _)
    | succ fuel => exact ⟨r, m, rfl, hr, .refl m _⟩
  | cons c cs ih =>
    cases fuel with
    | zero => exact absurd hfuel (Nat.not_lt_zero _)
    | succ fuel =>
      cases h with
      | @pair i b t w cs hget rest =>
        have hi : i ∉ places cs ++ places ds := (List.nodup_cons.mp hnodup).1
        rw [List.mem_append, not_or] at hi
        have hrest := rest.keep (keeps_set m i ⟨b, r⟩) (List.disjoint_singleton.mpr hi.1)
        have hturned : Chain (m.set i ⟨b, r⟩) (.ref i) ((i, b) :: ds) .nil :=
          .pair (get_set hget _) (hr.keep (keeps_set m i _) (List.disjoint_singleton.mpr hi.2))
        have hnodup' : (places cs ++ places ((i, b) :: ds)).Nodup := List.nodup_middle.mpr hnodup
        obtain ⟨r', m', hrun, hchain, hkeeps⟩ :=
          ih hrest hturned hnodup' (Nat.lt_of_succ_lt_succ hfuel)
        refine ⟨r', m', ?_, ?_, (keeps_set m i _).trans hkeeps⟩
        · simp only [nreverseLoop, pairT_ref hget, setPairT_ref hget, ok_bind]
          exact hrun
        · rw [List.reverse_cons, List.append_assoc]
          exact hchain

theorem nreverse_spec (h : Chain m l cs .nil) :
    ∃ r m', nreverse m l = .ok (r, m') ∧ Chain m' r cs.reverse .nil ∧ Keeps m m' (places cs) := by
  have hle := h.length_le rfl
  have hnodup : (places cs ++ places ([] : Cells α)).Nodup := by
    rw [← places_append, List.append_nil]
    exact h.nodup rfl
  have hrun := nreverseLoop_spec h (.done .nil) hnodup (show cs.length < 2 * m.length + 1 by omega)
  rwa [List.append_nil] at hrun

variable {ls : List (Owned α)}

/-- A private list is turned around in place. -/
theorem nreverse_private (pre : List (Owned α)) (h : Private base m (pre ++ (l, cs) :: ls)) :
    ∃ r m', nreverse m l = .ok (r, m') ∧ Private base m' (pre ++ (r, cs.reverse) :: ls) := by
  have hfront := h.perm List.perm_middle.symm
  obtain ⟨r, m', hrun, hchain, hkeeps⟩ := nreverse_spec (hfront.chain (l, cs) List.mem_cons_self)
  exact ⟨r, m', hrun, (hfront.replace hkeeps hchain places_reverse).behind pre⟩

/-! ## New lists -/

variable {y : Val α} {k : Nat}

/-- A new pair behind the last one. -/
theorem extend_run (h : Private base m ((v, cs ++ [(k, y)]) :: ls)) (x : Val α) :
    ∃ m', setPairT (m ++ [⟨x, .nil⟩]) (.ref k) (.ref m.length) = .ok m' ∧
      Private base m' ((v, cs ++ [(k, y)] ++ [(m.length, x)]) :: ls) := by
  obtain ⟨u, -, hlast⟩ := chain_append.mp (h.chain _ List.mem_cons_self)
  cases hlast with
  | pair hget rest =>
    exact ⟨_, setPairT_ref (keeps_alloc m ⟨x, .nil⟩ k _ List.not_mem_nil hget) _, h.extend x⟩

theorem listvLoop_spec {ls : List (Owned α)} {args : List (Val α)} {k : Nat} {y : Val α}
    (h : Private base m ((v, cs ++ [(k, y)]) :: ls)) :
    ∃ m' cs', listvLoop m (.ref k) args = .ok m' ∧ Private base m' ((v, cs') :: ls) ∧
      heads cs' = heads (cs ++ [(k, y)]) ++ args := by
  induction args generalizing m cs k y with
  | nil => exact ⟨m, _, rfl, h, (List.append_nil _).symm⟩
  | cons arg args ih =>
    obtain ⟨m₁, hset, h₁⟩ := extend_run h arg
    obtain ⟨m', cs', hrun, h', hheads⟩ := ih h₁
    refine ⟨m', cs', ?_, h', ?_⟩
    · simp only [listvLoop, pair, hset, ok_bind]
      exact hrun
    · rw [hheads, heads_append, List.append_assoc]
      rfl

/-- `idio_listv` makes a list of its own. -/
theorem listv_spec (h : Private base m ls) (args : List (Val α)) :
    ∃ v m' cs, listv m args = .ok (v, m') ∧ Private base m' ((v, cs) :: ls) ∧ heads cs = args := by
  cases args with
  | nil => exact ⟨.nil, m, [], rfl, h.nil, rfl⟩
  | cons arg args =>
    have hfirst : Private base (m ++ [⟨arg, .nil⟩])
        ((.ref m.length, [] ++ [(m.length, arg)]) :: ls) := h.nil.push arg
    obtain ⟨m', cs, hrun, h', hheads⟩ := @listvLoop_spec _ _ _ _ _ _ args _ _ hfirst
    refine ⟨.ref m.length, m', cs, ?_, h', hheads⟩
    simp only [listv, pair, hrun, ok_bind]
    rfl

/-- The same of a memory in which nothing is private. -/
theorem listv_run (m : Memory α) (args : List (Val α)) :
    ∃ v m', listv m args = .ok (v, m') ∧ Keeps m m' [] ∧ ListIs m' v args := by
  obtain ⟨v, m', cs, hrun, h, hheads⟩ := listv_spec (Private.start m) args
  exact ⟨v, m', hrun, h.keeps, cs, h.chain _ List.mem_cons_self, hheads⟩

theorem append2Loop_spec (hl : Chain base l ds .nil) (h : Private base m [(v, cs ++ [(k, y)])])
    (hfuel : ds.length < fuel) :
    ∃ k' m' cs' y', append2Loop fuel m (.ref k) l = .ok (.ref k', m') ∧
      Private base m' [(v, cs' ++ [(k', y')])] ∧
      heads (cs' ++ [(k', y')]) = heads (cs ++ [(k, y)]) ++ heads ds := by
  induction ds generalizing m l cs k y fuel with
  | nil =>
    cases hl
    cases fuel with
    | zero => exact absurd hfuel (Nat.not_lt_zero _)
    | succ fuel => exact ⟨k, m, cs, y, rfl, h, (List.append_nil _).symm⟩
  | cons d ds ih =>
    cases fuel with
    | zero => exact absurd hfuel (Nat.not_lt_zero _)
    | succ fuel =>
      cases hl with
      | @pair i b t w ds hget rest =>
        obtain ⟨m₁, hset, h₁⟩ := extend_run h b
        obtain ⟨k', m', cs', y', hrun, h', hheads⟩ :=
          ih rest h₁ (Nat.lt_of_succ_lt_succ hfuel)
        refine ⟨k', m', cs', y', ?_, h', ?_⟩
        · simp only [append2Loop, Val.isPair_ref, if_true, pairH_ref (h.keeps i _ List.not_mem_nil hget),
            pair, hset, ok_bind, pairT_ref (h₁.keeps i _ List.not_mem_nil hget)]
          exact hrun
        · rw [hheads, heads_append, List.append_assoc]
          rfl

/-- `idio_list_append2` copies its first argument and has its second for the tail. -/
theorem append2_spec (hl : Chain m l ds .nil) (w : Val α) :
    ∃ r m' cs, append2 m l w = .ok (r, m') ∧ Keeps m m' [] ∧ Chain m' r cs w ∧
      heads cs = heads ds := by
  cases hl with
  | done => exact ⟨w, m, [], rfl, .refl m _, .done w, rfl⟩
  | @pair i b t _ ds hget rest =>
    have hfirst : Private m (m ++ [⟨b, .nil⟩])
        [(.ref m.length, [] ++ [(m.length, b)])] := (Private.start m).nil.push b
    have hle := (rest.grow hfirst.keeps).length_le rfl
    obtain ⟨k, m₁, cs, y, hrun, h, hheads⟩ := append2Loop_spec rest hfirst (Nat.lt_succ_of_le hle)
    have hchain := h.chain _ List.mem_cons_self
    obtain ⟨u, -, hlast⟩ := chain_append.mp hchain
    cases hlast with
    | pair hget' _ =>
      have hk : k ∉ places cs := by
        have hnodup := hchain.nodup rfl
        rw [places_append, List.nodup_append'] at hnodup
        exact fun hmem => hnodup.2.2 hmem List.mem_cons_self
      refine ⟨.ref m.length, _, cs ++ [(k, y)], ?_, ?_, hchain.relink hk w, ?_⟩
      · simp only [append2, Val.isPair_ref, if_true, pairH_ref hget, pair, ok_bind,
          pairT_ref (keeps_alloc m ⟨b, .nil⟩ i _ List.not_mem_nil hget), hrun,
          setPairT_ref hget']
        rfl
      · refine h.keeps.fresh (keeps_set m₁ k _) fun i hi => ?_
        rw [List.mem_singleton.mp hi]
        refine h.new k ?_
        rw [List.flatMap_cons, places_append, List.append_assoc]
        exact List.mem_append_right _ List.mem_cons_self
      · rw [hheads]
        rfl

theorem append2_list {xs ys : List (Val α)} (hl : ListIs m l xs) (hw : ListIs m w ys) :
    ∃ r m', append2 m l w = .ok (r, m') ∧ Keeps m m' [] ∧ ListIs m' r (xs ++ ys) := by
  obtain ⟨ds, hds, rfl⟩ := hl
  obtain ⟨es, hes, rfl⟩ := hw
  obtain ⟨r, m', cs, hrun, hkeeps, hcs, hheads⟩ := append2_spec hds w
  refine ⟨r, m', hrun, hkeeps, cs ++ es, chain_append.mpr ⟨w, hcs, hes.grow hkeeps⟩, ?_⟩
  rw [heads_append, hheads]

/-! ## Lists linked to one another -/

theorem lastPairLoop_spec (h : Chain m v (cs ++ [(k, y)]) w) (hw : w.isPair = false)
    (hfuel : cs.length < fuel) :
    lastPairLoop m fuel v = .ok (.ref k) := by
  induction cs generalizing v fuel with
  | nil =>
    cases fuel with
    | zero => exact absurd hfuel (Nat.not_lt_zero _)
    | succ fuel =>
      cases h with
      | pair hget rest =>
        cases rest with
        | done =>
          simp only [lastPairLoop, pairT_ref hget, ok_bind, hw, Bool.false_eq_true, if_false]
  | cons c cs ih =>
    cases fuel with
    | zero => exact absurd hfuel (Nat.not_lt_zero _)
    | succ fuel =>
      cases h with
      | @pair i b t _ _ hget rest =>
        have hpair : t.isPair = true := rest.isPair (by simp)
        simp only [lastPairLoop, pairT_ref hget, ok_bind, hpair, if_true]
        exact ih rest (Nat.lt_of_succ_lt_succ hfuel)

theorem lastPair_spec (h : Chain m v (cs ++ [(k, y)]) w) (hw : w.isPair = false) :
    lastPair m v = .ok (.ref k) := by
  have hle := h.length_le hw
  rw [List.length_append, List.length_singleton] at hle
  have hrun := lastPairLoop_spec h hw (show cs.length < m.length + 1 by omega)
  cases v with
  | nil =>
    have hnil := (h.unique (.done .nil) hw rfl).1
    exact absurd hnil (by simp)
  | _ => exact hrun

/-- The pairs of the lists but those of the last one. -/
def butLast (css : List (Cells α)) : List Nat := places css.dropLast.flatten

theorem butLast_join (ds : Cells α) (css : List (Cells α)) :
    butLast ((cs ++ ds) :: css) ⊆ butLast (cs :: ds :: css) := by
  cases css with
  | nil => exact List.nil_subset _
  | cons es css =>
    simp only [butLast, List.dropLast_cons_cons, List.flatten_cons, List.append_assoc]
    exact List.Subset.refl _

theorem mem_butLast (hi : i ∈ places cs) (ds : Cells α) (css : List (Cells α)) :
    i ∈ butLast (cs :: ds :: css) := by
  simp only [butLast, List.dropLast_cons_cons, List.flatten_cons, places_append]
  exact List.mem_append_left _ hi

/-- The lists that are given. -/
def Lists (m : Memory α) (as : Cells α) (css : List (Cells α)) : Prop :=
  List.Forall₂ (fun x cs => Chain m x cs .nil) (heads as) css

variable {css : List (Cells α)} {as : Cells α}

theorem Lists.keep {m' : Memory α} {is : List Nat} (h : Lists m as css) (hk : Keeps m m' is)
    (haway : (places css.flatten).Disjoint is) :
    Lists m' as css := by
  induction css generalizing as with
  | nil =>
    cases as with
    | nil => exact .nil
    | cons a as => exact absurd h nofun
  | cons cs css ih =>
    cases as with
    | nil => exact absurd h nofun
    | cons a as =>
      rw [List.flatten_cons, places_append, List.disjoint_append_left] at haway
      obtain ⟨hcs, hrest⟩ := List.forall₂_cons.mp h
      exact .cons (hcs.keep hk haway.1) (ih hrest haway.2)

/-- The loop links the last pair that there is to the lists that are left. -/
theorem nappendTail_spec {rest : Val α} (hrest : Chain m rest as .nil) (hlists : Lists m as css)
    (h : Chain m v (cs ++ [(k, y)]) .nil)
    (hnodup : (places as ++ places (cs ++ [(k, y)] ++ css.flatten)).Nodup)
    (hfuel : as.length < fuel) :
    ∃ m', nappendTail fuel m (.ref k) rest = .ok m' ∧
      Chain m' v (cs ++ [(k, y)] ++ css.flatten) .nil ∧
      Keeps m m' (butLast ((cs ++ [(k, y)]) :: css)) ∧ m'.length = m.length := by
  induction css generalizing m cs k y as rest fuel with
  | nil =>
    cases as with
    | cons a as => exact absurd hlists nofun
    | nil =>
      cases fuel with
      | zero => exact absurd hfuel (Nat.not_lt_zero _)
      | succ fuel =>
        cases hrest
        exact ⟨m, rfl, by rwa [List.flatten_nil, List.append_nil], .refl m _, rfl⟩
  | cons ds css ih =>
    cases as with
    | nil => exact absurd hlists nofun
    | cons a as =>
    cases fuel with
    | zero => exact absurd hfuel (Nat.not_lt_zero _)
    | succ fuel =>
    obtain ⟨hds, hleft⟩ := List.forall₂_cons.mp hlists
    cases hrest with
    | @pair j x rest _ _ hget hrest =>
    have hnodup : (places as ++ places (cs ++ [(k, y)] ++ (ds :: css).flatten)).Nodup :=
      (List.nodup_cons.mp hnodup).2
    have hflat : cs ++ [(k, y)] ++ (ds :: css).flatten = cs ++ [(k, y)] ++ ds ++ css.flatten := by
      rw [List.flatten_cons, ← List.append_assoc]
    rw [hflat] at hnodup ⊢
    have hplaces : places as ++ places (cs ++ [(k, y)] ++ ds ++ css.flatten) =
        (places as ++ places cs) ++ k :: (places ds ++ places css.flatten) := by
      simp only [places_append, List.append_assoc]
      rfl
    have hk := hnodup
    rw [hplaces, List.nodup_middle, List.nodup_cons] at hk
    simp only [List.mem_append, not_or] at hk
    obtain ⟨⟨⟨hkas, hkcs⟩, hkds, hkcss⟩, -⟩ := hk
    -- the last pair is linked to what comes next
    obtain ⟨u, -, hlast⟩ := chain_append.mp h
    cases hlast with
    | @pair _ _ _ _ _ hgetk _ =>
    have hkeep := keeps_set m k ⟨y, x⟩
    have hlinked : Chain (m.set k ⟨y, x⟩) v (cs ++ [(k, y)] ++ ds) .nil :=
      chain_append.mpr ⟨x, h.relink hkcs x, hds.keep hkeep (List.disjoint_singleton.mpr hkds)⟩
    obtain ⟨cs', k', y', hcs', htail⟩ : ∃ cs' k' y', cs ++ [(k, y)] ++ ds = cs' ++ [(k', y')] ∧
        (if x.isPair then lastPair (m.set k ⟨y, x⟩) x else .ok (.ref k)) = .ok (.ref k') := by
      rcases List.eq_nil_or_concat' ds with rfl | ⟨ds, ⟨k', y'⟩, rfl⟩
      · have hx : x = .nil := hds.eq_of_nil
        exact ⟨cs, k, y, List.append_nil _, by rw [hx]; rfl⟩
      · have hx : x.isPair = true := hds.isPair (by simp)
        refine ⟨cs ++ [(k, y)] ++ ds, k', y', (List.append_assoc _ _ _).symm, ?_⟩
        rw [if_pos hx]
        exact lastPair_spec (hds.keep hkeep (List.disjoint_singleton.mpr hkds)) rfl
    rw [hcs'] at hlinked hnodup ⊢
    obtain ⟨m', hrun, hchain, hkeeps, hlen⟩ :=
      ih (hrest.keep hkeep (List.disjoint_singleton.mpr hkas))
        (Lists.keep hleft hkeep (List.disjoint_singleton.mpr hkcss)) hlinked hnodup
        (Nat.lt_of_succ_lt_succ hfuel)
    refine ⟨m', ?_, hchain, (hkeep.trans hkeeps).mono ?_, ?_⟩
    · simp only [nappendTail, Val.isPair_ref, if_true, pairH_ref hget, pairT_ref hget, ok_bind,
        setPairT_ref hgetk]
      rw [htail, ok_bind]
      exact hrun
    · rw [← hcs']
      refine List.append_subset.mpr ⟨?_, butLast_join ds css⟩
      refine List.cons_subset.mpr ⟨mem_butLast ?_ ds css, List.nil_subset _⟩
      rw [places_append]
      exact List.mem_append_right _ List.mem_cons_self
    · rw [hlen, List.length_set]

theorem nappendLoop_spec {lists : Val α} (hl : Chain m lists as .nil) (hlists : Lists m as css)
    (hnodup : (places as ++ places css.flatten).Nodup) (hfuel : as.length < fuel) :
    ∃ r m', nappendLoop m fuel lists .nil = .ok (r, m') ∧ Chain m' r css.flatten .nil ∧
      Keeps m m' (butLast css) ∧ m'.length = m.length := by
  induction css generalizing as lists fuel with
  | nil =>
    cases as with
    | cons a as => exact absurd hlists nofun
    | nil =>
      cases fuel with
      | zero => exact absurd hfuel (Nat.not_lt_zero _)
      | succ fuel =>
        cases hl
        exact ⟨.nil, m, rfl, .done .nil, .refl m _, rfl⟩
  | cons ds css ih =>
    cases as with
    | nil => exact absurd hlists nofun
    | cons a as =>
    cases fuel with
    | zero => exact absurd hfuel (Nat.not_lt_zero _)
    | succ fuel =>
    obtain ⟨hds, hleft⟩ := List.forall₂_cons.mp hlists
    cases hl with
    | @pair j x rest _ _ hget hrest =>
    have hnodup : (places as ++ places (ds :: css).flatten).Nodup := (List.nodup_cons.mp hnodup).2
    rcases List.eq_nil_or_concat' ds with rfl | ⟨cs, ⟨k, y⟩, rfl⟩
    · have hx : x = .nil := hds.eq_of_nil
      obtain ⟨r, m', hrun, hchain, hkeeps, hlen⟩ :=
        ih hrest hleft hnodup (Nat.lt_of_succ_lt_succ hfuel)
      refine ⟨r, m', ?_, hchain, hkeeps.mono ?_, hlen⟩
      · subst hx
        simp only [nappendLoop, Val.isPair_ref, Val.isPair_nil, if_true, pairH_ref hget,
          pairT_ref hget, ok_bind, Bool.false_eq_true, if_false]
        exact hrun
      · cases css with
        | nil => exact List.nil_subset _
        | cons ds css => exact List.Subset.refl _
    · have hx : x.isPair = true := hds.isPair (by simp)
      have hle := (Chain.pair hget hrest).length_le rfl
      obtain ⟨m', hrun, hchain, hkeeps, hlen⟩ :=
        nappendTail_spec hrest hleft hds hnodup (show as.length < m.length + 1 by
          rw [List.length_cons] at hle
          omega)
      refine ⟨x, m', ?_, hchain, hkeeps, hlen⟩
      have hlast : lastPair m x = .ok (.ref k) := lastPair_spec hds rfl
      simp only [nappendLoop, Val.isPair_ref, if_true, pairH_ref hget, pairT_ref hget, ok_bind]
      rw [if_pos hx, hlast, ok_bind, hrun]
      rfl

/-- `idio_list_nappend` makes one list of the pairs of its arguments. -/
theorem nappend_spec {lists : Val α} (hl : Chain m lists as .nil) (hlists : Lists m as css)
    (hnodup : (places as ++ places css.flatten).Nodup) :
    ∃ r m', nappend m lists = .ok (r, m') ∧ Chain m' r css.flatten .nil ∧
      Keeps m m' (butLast css) ∧ m'.length = m.length :=
  nappendLoop_spec hl hlists hnodup (Nat.lt_succ_of_le (hl.length_le rfl))

theorem butLast_subset (css : List (Cells α)) : butLast css ⊆ places css.flatten := by
  rcases List.eq_nil_or_concat' css with rfl | ⟨css, ds, rfl⟩
  · exact List.Subset.refl _
  · rw [butLast, List.dropLast_concat, List.flatten_append, places_append]
    exact List.subset_append_left _ _

/-- The lists without the empty ones. -/
theorem Lists.filter [DecidableEq α] {as' : Cells α} (h : Lists m as css)
    (has : heads as' = (heads as).filter (· ≠ .nil)) :
    Lists m as' (css.filter (· ≠ [])) := by
  rw [Lists, has]
  clear has
  induction css generalizing as with
  | nil =>
    cases as with
    | nil => exact .nil
    | cons a as => exact absurd h nofun
  | cons cs css ih =>
    cases as with
    | nil => exact absurd h nofun
    | cons a as =>
      obtain ⟨hcs, hleft⟩ := List.forall₂_cons.mp h
      show List.Forall₂ _ ((a.2 :: heads as).filter _) _
      by_cases hnil : cs = []
      · have hx : a.2 = .nil := (hnil ▸ hcs).eq_of_nil
        rw [List.filter_cons_of_neg (by simp [hx]), List.filter_cons_of_neg (by simp [hnil])]
        exact ih hleft
      · have hx : a.2 ≠ .nil := fun hx =>
          hnil ((hx ▸ hcs).unique (.done .nil) rfl rfl).1
        rw [List.filter_cons_of_pos (by simp [hx]), List.filter_cons_of_pos (by simp [hnil])]
        exact .cons hcs (ih hleft)

/-- **Lists in any graph of pairs.**  `idio_listp` ends and tells what is a list.
`idio_list_nappend` makes one list of the pairs of its arguments, of which it changes none of the
last argument; without the empty lists among them it does the same. -/
theorem listp_nappend (α : Type) [DecidableEq α] :
    (∀ g : Graph α, ∃ b, listp g.heap g.value = .ok b ∧
      (b = true ↔ ∃ xs, ListIs g.heap g.value xs)) ∧
    ∀ (m : Memory α) (lists : Val α) (as : Cells α) (css : List (Cells α)),
      Chain m lists as .nil → Lists m as css → (places as ++ places css.flatten).Nodup →
      ∃ r m', nappend m lists = .ok (r, m') ∧ Chain m' r css.flatten .nil ∧
        Keeps m m' (butLast css) ∧ m'.length = m.length ∧
        ∀ (lists' : Val α) (as' : Cells α), Chain m lists' as' .nil →
          heads as' = (heads as).filter (· ≠ .nil) →
          (places as').Disjoint (places css.flatten) → nappend m lists' = .ok (r, m') := by
  refine ⟨listp_spec, fun m lists as css hl hlists hnodup => ?_⟩
  obtain ⟨r, m', hrun, hchain, hkeeps, hlen⟩ := nappend_spec hl hlists hnodup
  refine ⟨r, m', hrun, hchain, hkeeps, hlen, fun lists' as' hl' has haway => ?_⟩
  have hflat : (css.filter (· ≠ [])).flatten = css.flatten := List.flatten_filter_ne_nil
  have hnodup' : (places as' ++ places (css.filter (· ≠ [])).flatten).Nodup := by
    rw [hflat, List.nodup_append']
    exact ⟨hl'.nodup rfl, (List.nodup_append'.mp hnodup).2.1, haway⟩
  obtain ⟨r', m'', hrun', hchain', hkeeps', hlen'⟩ := nappend_spec hl' (hlists.filter has) hnodup'
  have hsub := butLast_subset (css.filter (· ≠ []))
  rw [hflat] at hchain' hsub
  obtain rfl := hchain.start_eq hchain'
  rw [hrun', hchain.heap_unique hchain' (hkeeps.mono (butLast_subset css)) (hkeeps'.mono hsub) hlen
    hlen']

/-- The lists `(1)` and `(2 3)`, and the lists of the two with `#n` between them and without. -/
def oneTwoThree : Memory Nat :=
  [⟨.atom 1, .nil⟩, ⟨.atom 2, .ref 2⟩, ⟨.atom 3, .nil⟩, ⟨.ref 0, .ref 4⟩, ⟨.nil, .ref 5⟩,
    ⟨.ref 1, .nil⟩, ⟨.ref 0, .ref 7⟩, ⟨.ref 1, .nil⟩]

theorem listp_nappend_oneTwoThree :
    (∃ b, listp [⟨.atom 1, .ref 1⟩, ⟨.atom 2, .ref 0⟩] (.ref 0 : Val Nat) = .ok b ∧
      (b = true ↔ ∃ xs, ListIs [⟨.atom 1, .ref 1⟩, ⟨.atom 2, .ref 0⟩] (.ref 0 : Val Nat) xs)) ∧
    ∃ r m', nappend oneTwoThree (.ref 3) = .ok (r, m') ∧
      Chain m' r [(0, .atom 1), (1, .atom 2), (2, .atom 3)] .nil ∧ Keeps oneTwoThree m' [0] ∧
      nappend oneTwoThree (.ref 6) = .ok (r, m') := by
  have hone : Chain oneTwoThree (.ref 0) [(0, .atom 1)] .nil := .pair rfl (.done _)
  have htwo : Chain oneTwoThree (.ref 1) [(1, .atom 2), (2, .atom 3)] .nil :=
    .pair rfl (.pair rfl (.done _))
  have hlists : Chain oneTwoThree (.ref 3) [(3, .ref 0), (4, .nil), (5, .ref 1)] .nil :=
    .pair rfl (.pair rfl (.pair rfl (.done _)))
  have hshort : Chain oneTwoThree (.ref 6) [(6, .ref 0), (7, .ref 1)] .nil :=
    .pair rfl (.pair rfl (.done _))
  obtain ⟨hlistp, hnappend⟩ := listp_nappend Nat
  refine ⟨hlistp ⟨[⟨.atom 1, .ref 1⟩, ⟨.atom 2, .ref 0⟩], .ref 0, ?_, ?_⟩, ?_⟩
  · simp
  · simp
  · obtain ⟨r, m', hrun, hchain, hkeeps, -, hsame⟩ := hnappend _ _ _
      [[(0, .atom 1)], [], [(1, .atom 2), (2, .atom 3)]] hlists
      (.cons hone (.cons (.done _) (.cons htwo .nil))) (by decide)
    exact ⟨r, m', hrun, hchain, hkeeps, hsame _ _ hshort (by decide) (by simp [places])⟩

end Idio.Pairs
