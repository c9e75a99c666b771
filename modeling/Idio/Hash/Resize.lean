/-
  Hash/Resize.lean --- putting entries and resizing.

  `putEntry_spec` is one entry put into a table that may be as full as it likes.
  `putAll_spec` is the rule for the loop over all entries of a table: an invariant
  of the entries still to be put and the table so far.  It is used with three
  invariants: when a table is resized no put meets an equal key or fills the table
  (`hashResize_spec`), when one is copied or merged they may.
-/
import Idio.Hash.Table
import Mathlib.Tactic.Ring

set_option autoImplicit false

namespace Idio

open KeyedList WhileLoop

namespace Table

variable {K V : Type} {F : HashFns K}

/-! ## Sizes -/

theorem shiftLeft_or_one (m : Nat) : (m <<< 1) ||| 1 = 2 * m + 1 := by
  have h := @Nat.two_pow_add_eq_or_of_lt 1 1 (by decide) m
  rw [Nat.shiftLeft_eq, Nat.mul_comm, ← h, pow_one]

/-- The loop shifts in as many ones as `s` has binary digits. -/
theorem maskLoop_spec {fuel s : Nat} (hs : s ≤ fuel) (m : Nat) :
    ∃ j, maskLoop fuel s m + 1 = (m + 1) * 2 ^ j ∧ s < 2 ^ j ∧
      (2 ^ j ≤ 2 * s ∨ (s = 0 ∧ j = 0)) := by
  induction fuel generalizing s m with
  | zero =>
    have h0 : s = 0 := by omega
    exact ⟨0, by simp [maskLoop], by simp [h0], Or.inr ⟨h0, rfl⟩⟩
  | succ fuel ih =>
    rw [maskLoop]
    split
    · rename_i h0
      exact ⟨0, by simp, by simp [h0], Or.inr ⟨h0, rfl⟩⟩
    · rename_i h0
      rw [shiftLeft_or_one, Nat.shiftRight_one]
      obtain ⟨j, hmask, hlt, hle⟩ := ih (by omega : s / 2 ≤ fuel) (2 * m + 1)
      refine ⟨j + 1, ?_, ?_, Or.inl ?_⟩
      · rw [hmask, pow_succ]
        ring
      · rw [pow_succ]
        omega
      · rw [pow_succ]
        rcases hle with h | ⟨hz, rfl⟩
        · omega
        · omega

/-- The mask is one less than the least power of two that is not below the size. -/
theorem roundMask_spec (size : Nat) :
    ∃ k, roundMask size + 1 = 2 ^ k ∧ size ≤ 2 ^ k ∧ (2 ^ k < 2 * size ∨ (size = 0 ∧ k = 0)) := by
  obtain ⟨j, hmask, hlt, hle⟩ := maskLoop_spec (le_refl size) 0
  rw [zero_add, one_mul] at hmask
  unfold roundMask
  rcases hle with hle | ⟨h0, rfl⟩
  · obtain ⟨i, rfl⟩ : ∃ i, j = i + 1 := by
      cases j with
      | zero => omega
      | succ i => exact ⟨i, rfl⟩
    rw [pow_succ] at hmask hlt hle
    have hhalf : maskLoop size size 0 >>> 1 = 2 ^ i - 1 := by
      rw [Nat.shiftRight_one]
      omega
    have hpos : 0 < 2 ^ i := Nat.two_pow_pos i
    simp only [hhalf, Nat.and_two_pow_sub_one_eq_mod]
    have hmod : size % 2 ^ i = size - 2 ^ i := by
      rw [Nat.mod_eq_sub_mod (by omega), Nat.mod_eq_of_lt (by omega)]
    rw [hmod]
    split
    · exact ⟨i, by omega, by omega, Or.inl (by omega)⟩
    · refine ⟨i + 1, ?_, ?_, Or.inl ?_⟩
      · rw [hmask, pow_succ]
      · rw [pow_succ]
        omega
      · rw [pow_succ]
        omega
  · refine ⟨0, ?_, ?_, Or.inr ⟨h0, rfl⟩⟩
    · subst h0
      rfl
    · rw [h0]
      exact Nat.zero_le _

/-- A power of two is not rounded. -/
theorem roundMask_two_pow (k : Nat) : roundMask (2 ^ k) + 1 = 2 ^ k := by
  obtain ⟨j, hmask, hle, hlt⟩ := roundMask_spec (2 ^ k)
  have hpos : 0 < 2 ^ k := Nat.two_pow_pos k
  rcases hlt with hlt | ⟨h0, -⟩
  · rw [← pow_succ'] at hlt
    have hjk : j < k + 1 := (Nat.pow_lt_pow_iff_right (by decide)).mp hlt
    have hkj : k ≤ j := (Nat.pow_le_pow_iff_right (by decide)).mp hle
    have heq : j = k := by omega
    rw [hmask, heq]
  · omega

/-- A newly allocated table. -/
theorem assignHashHe_inOrder (size : Nat) : InOrder F (assignHashHe size : Table K V) := by
  obtain ⟨k, hk, -⟩ := roundMask_spec size
  have hbucket : ∀ i, (assignHashHe size : Table K V).bucket i = [] := by
    intro i
    simp only [bucket, assignHashHe]
    by_cases hi : i < roundMask size + 1
    · exact List.getD_replicate [] hi
    · exact List.getD_eq_default _ _ (by rw [List.length_replicate]; omega)
  have hflat : (assignHashHe size : Table K V).ha.flatten = [] := by
    simp [assignHashHe]
  refine ⟨⟨k, hk⟩, rfl, by simp [assignHashHe], fun i e he => ?_, fun i => ?_, ?_, fun e he => ?_⟩
  · rw [hbucket] at he
    cases he
  · rw [hbucket]
    exact distinct_nil
  · rw [hflat]
    rfl
  · rw [hflat] at he
    cases he

theorem lookup_assignHashHe (size : Nat) (x : K) :
    (assignHashHe size : Table K V).lookup F x = none := by
  have hi := @assignHashHe_inOrder K V F size
  rw [lookup, find_eq_none_iff]
  intro e he
  have hmem := mem_bucket_iff.mp ⟨_, he⟩
  simp [assignHashHe] at hmem

/-- The least size of a table that shrinks. -/
theorem loadLow_two_pow (j : Nat) :
    ∃ k, (if 2 ^ j / 16 < 8 then 8 else 2 ^ j / 16) = 2 ^ k ∧ 8 ≤ 2 ^ k := by
  split
  · exact ⟨3, by decide, by decide⟩
  · rename_i hlow
    have hj : 4 ≤ j := by
      by_contra hlt
      have : 2 ^ j ≤ 2 ^ 4 := Nat.pow_le_pow_right (by decide) (by omega)
      omega
    obtain ⟨i, rfl⟩ : ∃ i, j = i + 4 := ⟨j - 4, by omega⟩
    have hdiv : 2 ^ (i + 4) / 16 = 2 ^ i := by
      rw [pow_add]
      exact Nat.mul_div_cancel _ (by decide)
    rw [hdiv] at hlow ⊢
    exact ⟨i, rfl, by omega⟩

/-- **The size of a resize** is a power of two with room for all entries, unless it
is the size the table has. -/
theorem newSize_spec {h : Table K V} (hi : InOrder F h) {larger : Bool}
    (hroom : larger = true ∨ h.count ≤ loadHigh h.size) :
    ∃ n k, newSize larger h = .ok n ∧ n = 2 ^ k ∧
      ((n = h.size ∧ h.count ≤ loadHigh h.size) ∨ (2 * h.count < n ∧ 4 ≤ n)) := by
  obtain ⟨j, hj⟩ := hi.size_pow
  have hpos : 0 < h.size := by
    rw [hj]
    exact Nat.two_pow_pos j
  unfold newSize
  simp only [hi.mask_succ]
  cases larger with
  | true =>
    simp only [if_true]
    split
    · -- Doubling ends above the count.
      rename_i hload
      obtain ⟨n, hrun, ⟨k, hk, -⟩, hstop⟩ := @whileLoop_total Fault Nat .diverges
        (fun n => decide (n ≤ h.count)) (fun n => .ok (n * 2))
        (fun n => ∃ k, n = 2 ^ k ∧ 0 < n) (fun n => h.count + 1 - n)
        (by
          rintro s ⟨k, hk, hs⟩ hcond
          have hle : s ≤ h.count := of_decide_eq_true hcond
          refine ⟨s * 2, rfl, ⟨k + 1, by rw [hk, pow_succ], by omega⟩, ?_⟩
          show h.count + 1 - s * 2 < h.count + 1 - s
          omega)
        (h.count + 1) h.size ⟨j, hj, hpos⟩ (by omega)
      have hgt : ¬ n ≤ h.count := of_decide_eq_false hstop
      refine ⟨n * 2, k + 1, ?_, by rw [hk, pow_succ], Or.inr ⟨by omega, by omega⟩⟩
      rw [hrun]
      rfl
    · rename_i hload
      exact ⟨h.size, j, rfl, hj, Or.inl ⟨rfl, by omega⟩⟩
  | false =>
    have hload := hroom.resolve_left (by decide)
    have hlt : h.count < h.size := by
      unfold loadHigh at hload
      omega
    obtain ⟨i, hlow, hlow8⟩ := loadLow_two_pow j
    rw [← hj] at hlow
    simp only [Bool.false_eq_true, if_false, hlow]
    by_cases hcount : h.count < 2 ^ i
    · -- Halving ends at most at the count, and above half of it.
      obtain ⟨n, hrun, hn, hstop⟩ := @whileLoop_total Fault Nat .diverges
        (fun n => decide (n > h.count)) (fun n => .ok (n / 2))
        (fun n => (∃ k, n = 2 ^ k ∧ h.count < 2 * n) ∨ (n = 0 ∧ h.count = 0)) (fun n => n)
        (by
          rintro s hs hcond
          have hgt : h.count < s := of_decide_eq_true hcond
          refine ⟨s / 2, rfl, ?_, by show s / 2 < s; omega⟩
          rcases hs with ⟨k, hk, -⟩ | ⟨hz, -⟩
          · cases k with
            | zero =>
              rw [pow_zero] at hk
              exact Or.inr ⟨by omega, by omega⟩
            | succ k =>
              rw [pow_succ] at hk
              exact Or.inl ⟨k, by omega, by omega⟩
          · omega)
        (h.size + 1) h.size (Or.inl ⟨j, hj, by omega⟩) (Nat.lt_succ_self _)
      have hle : ¬ n > h.count := of_decide_eq_false hstop
      rw [if_pos hcount, hrun]
      by_cases hsmall : n * 4 < 2 ^ i
      · refine ⟨2 ^ i, i, ?_, rfl, Or.inr ⟨?_, by omega⟩⟩
        · show Except.ok (if n * 4 < 2 ^ i then 2 ^ i else n * 4) = _
          rw [if_pos hsmall]
        · rcases hn with ⟨k, hk, hhalf⟩ | ⟨hz, hzero⟩ <;> omega
      · obtain ⟨k, hk, hhalf⟩ : ∃ k, n = 2 ^ k ∧ h.count < 2 * n := by
          rcases hn with hn | ⟨hz, -⟩
          · exact hn
          · omega
        refine ⟨n * 4, k + 2, ?_, by rw [hk, pow_succ, pow_succ]; omega, Or.inr ⟨by omega, by omega⟩⟩
        show Except.ok (if n * 4 < 2 ^ i then 2 ^ i else n * 4) = _
        rw [if_neg hsmall]
    · rw [if_neg hcount]
      exact ⟨h.size, j, rfl, hj, Or.inl ⟨rfl, hload⟩⟩

/-! ## Putting entries -/

/-- One entry put, whether or not the table is full. -/
theorem putEntry_spec (hF : F.Lawful) {h : Table K V} (hi : InOrder F h) {k : K}
    (hk : F.isNil k = false) (v : V) :
    InOrder F (putEntry F k v h) ∧
      (putEntry F k v h).lookup F = update F.comp (h.lookup F) k v ∧
      (putEntry F k v h).size = h.size ∧
      (putEntry F k v h).count = h.count + if (h.lookup F k).isNone then 1 else 0 := by
  have hbucket : ∀ e ∈ h.bucket (h.hashIndex F k),
      F.hash e.1 &&& h.mask = h.hashIndex F k := hi.chained _
  have hnil : ∀ e ∈ h.bucket (h.hashIndex F k), F.isNil e.1 = false :=
    fun e he => hi.keys e (mem_bucket_iff.mp ⟨_, he⟩)
  cases hrep : replace F.comp k v (h.bucket (h.hashIndex F k)) with
  | none =>
    have hput : putEntry F k v h =
        { h with ha := h.ha.set (h.hashIndex F k) ((k, v) :: h.bucket (h.hashIndex F k)),
                 count := h.count + 1 } := by
      simp only [putEntry, hrep]
    rw [hput]
    -- A new entry at the head of the chain.
    have hnone : ∀ e ∈ h.bucket (h.hashIndex F k), F.comp k e.1 = false :=
      replace_eq_none_iff.mp hrep
    have hfree : h.lookup F k = none := find_eq_none_iff.mpr hnone
    refine ⟨hi.set_chain k (fun e he => ?_) ?_ ?_ (fun e he => ?_), ?_, rfl, ?_⟩
    · rcases List.mem_cons.mp he with rfl | he
      · rfl
      · exact hbucket e he
    · exact distinct_cons.mpr ⟨hnone, hi.distinct _⟩
    · rw [List.length_cons]
      omega
    · rcases List.mem_cons.mp he with rfl | he
      · exact hk
      · exact hnil e he
    · funext x
      exact lookup_set_chain hF hi k (fun _ => rfl) x
    · rw [hfree]
      rfl
  | some chain =>
    have hput : putEntry F k v h =
        { h with ha := h.ha.set (h.hashIndex F k) chain, count := h.count } := by
      simp only [putEntry, hrep]
    rw [hput]
    -- The value of the entry that is there.
    have hkeys := replace_keys hrep
    have hmem : ∀ e ∈ chain, ∃ e' ∈ h.bucket (h.hashIndex F k), e'.1 = e.1 := by
      intro e he
      have hfst : e.1 ∈ (h.bucket (h.hashIndex F k)).map Prod.fst := by
        rw [← hkeys]
        exact List.mem_map_of_mem he
      exact List.mem_map.mp hfst
    have hlen : chain.length = (h.bucket (h.hashIndex F k)).length := by
      have := congrArg List.length hkeys
      rwa [List.length_map, List.length_map] at this
    refine ⟨hi.set_chain k (fun e he => ?_) ?_ ?_ (fun e he => ?_), ?_, rfl, ?_⟩
    · obtain ⟨e', he', heq⟩ := hmem e he
      rw [← heq]
      exact hbucket e' he'
    · rw [distinct_iff_keys, hkeys, ← distinct_iff_keys]
      exact hi.distinct _
    · rw [hlen]
    · obtain ⟨e', he', heq⟩ := hmem e he
      rw [← heq]
      exact hnil e' he'
    · funext x
      exact lookup_set_chain hF hi k (find_replace hF.equiv hrep) x
    · have hsome : (h.lookup F k).isNone = false := by
        rw [← Bool.not_eq_true, Option.isNone_iff_eq_none]
        intro hfree
        rw [replace_eq_none_iff.mpr (find_eq_none_iff.mp hfree)] at hrep
        cases hrep
      rw [hsome]
      rfl

/-- The entries of a list whose keys are not `#n`. -/
def live (F : HashFns K) (es : List (K × V)) : List (K × V) := es.filter fun e => !F.isNil e.1

/-- **The loop over all entries.**  `Inv` relates the entries that are still to be put
and the table so far.  The put may depend on a parameter (how to grow, how many
resizes may be in progress) that makes no difference. -/
theorem putAll_spec {ι : Type} {put : ι → K → V → Table K V → Result (Table K V)}
    {Inv : List (K × V) → Table K V → Prop}
    (hskip : ∀ e es h, F.isNil e.1 = true → Inv (e :: es) h → Inv es h)
    (hput : ∀ e es h, F.isNil e.1 = false → Inv (e :: es) h →
      ∃ h', (∀ i, put i e.1 e.2 h = .ok h') ∧ Inv es h' ∧
        h'.lookup F = update F.comp (h.lookup F) e.1 e.2)
    {es : List (K × V)} {h : Table K V} (hinv : Inv es h) :
    ∃ h', (∀ i, putAll F (put i) es h = .ok h') ∧ Inv [] h' ∧
      h'.lookup F = putEach F.comp (h.lookup F) (live F es) := by
  induction es generalizing h with
  | nil => exact ⟨h, fun _ => rfl, hinv, rfl⟩
  | cons e es ih =>
    cases hnil : F.isNil e.1 with
    | true =>
      obtain ⟨h', hrun, hinv', hlook⟩ := ih (hskip e es h hnil hinv)
      refine ⟨h', fun i => ?_, hinv', ?_⟩
      · rw [putAll, if_pos hnil, hrun]
      · rw [hlook, live, live, List.filter_cons_of_neg (by simp [hnil])]
    | false =>
      obtain ⟨h₁, hone, hinv₁, hlook₁⟩ := hput e es h hnil hinv
      obtain ⟨h', hrun, hinv', hlook⟩ := ih hinv₁
      refine ⟨h', fun i => ?_, hinv', ?_⟩
      · rw [putAll, if_neg (by simp [hnil]), hone]
        exact hrun i
      · rw [hlook, hlook₁, live, live, List.filter_cons_of_pos (by simp [hnil])]
        rfl

/-! ## Resizing -/

/-- A table that is in order and at most 75% full, as puts and deletes leave it. -/
structure Fits (F : HashFns K) (h : Table K V) : Prop where
  inOrder : InOrder F h
  load : h.count ≤ loadHigh h.size

/-- **Rehashing.**  Into a table of size `n` with room for all of them, entries with
keys that are distinct, and not in the table so far, are put without it growing. -/
theorem rehash_spec (hF : F.Lawful) {n k : Nat} (hn : n = 2 ^ k) (hn4 : 4 ≤ n)
    {es : List (K × V)} (hd : Distinct F.comp es) (hkeys : ∀ e ∈ es, F.isNil e.1 = false)
    (hroom : 2 * es.length < n) :
    ∃ h', (∀ grow, putAll F (putWith F grow) es (assignHashHe n) = .ok h') ∧
      Fits F h' ∧ h'.count = es.length ∧ h'.lookup F = find F.comp es := by
  obtain ⟨h', hrun, ⟨hi, hsize, hcount, -⟩, hlook⟩ := @putAll_spec K V F
    (Table K V → Result (Table K V)) (putWith F)
    (fun rest h => InOrder F h ∧ h.size = n ∧ h.count + rest.length = es.length ∧
      Distinct F.comp rest ∧ ∀ e ∈ rest, F.isNil e.1 = false ∧ h.lookup F e.1 = none)
    (by
      rintro e rest h hnil ⟨-, -, -, -, hrest⟩
      rw [(hrest e List.mem_cons_self).1] at hnil
      cases hnil)
    (by
      rintro e rest h hnil ⟨hi, hsize, hcount, hd, hrest⟩
      obtain ⟨hfirst, hd⟩ := distinct_cons.mp hd
      obtain ⟨hi', hlook', hsize', hcount'⟩ := putEntry_spec hF hi hnil e.2
      rw [(hrest e List.mem_cons_self).2] at hcount'
      simp only [Option.isNone_none, if_true] at hcount'
      rw [List.length_cons] at hcount
      have hroom' : ¬ (putEntry F e.1 e.2 h).count > loadHigh (putEntry F e.1 e.2 h).size := by
        unfold loadHigh
        omega
      refine ⟨putEntry F e.1 e.2 h, fun grow => ?_, ⟨hi', by omega, by omega, hd, ?_⟩, hlook'⟩
      · simp only [putWith, hnil, Bool.false_eq_true, if_false, if_neg hroom']
      · intro f hf
        refine ⟨(hrest f (List.mem_cons_of_mem e hf)).1, ?_⟩
        rw [hlook', update, hF.equiv.comm, hfirst f hf]
        exact (hrest f (List.mem_cons_of_mem e hf)).2)
    es (assignHashHe n)
    ⟨assignHashHe_inOrder n, by rw [hn]; exact roundMask_two_pow k, Nat.zero_add _, hd,
      fun e he => ⟨hkeys e he, lookup_assignHashHe n e.1⟩⟩
  refine ⟨h', hrun, ⟨hi, ?_⟩, hcount, ?_⟩
  · rw [List.length_nil] at hcount
    unfold loadHigh
    omega
  · have hlive : live F es = es := List.filter_eq_self.mpr fun e he => by simp [hkeys e he]
    funext x
    rw [hlook, hlive, putEach_eq_override hF.equiv hd, override, lookup_assignHashHe,
      Option.or_none]

/-- **A resize** keeps the map and the count, leaves the table at most 75% full, and
starts no other resize. -/
theorem hashResize_spec (hF : F.Lawful) {h : Table K V} (hi : InOrder F h) {larger : Bool}
    (hroom : larger = true ∨ h.count ≤ loadHigh h.size) :
    ∃ h', (∀ depth, hashResize F (depth + 1) larger h = .ok h') ∧ Fits F h' ∧
      h'.lookup F = h.lookup F ∧ h'.count = h.count := by
  obtain ⟨n, k, hsize, hn, hcase⟩ := newSize_spec hi hroom
  by_cases hsame : n = h.mask + 1
  · refine ⟨h, fun depth => ?_, ⟨hi, ?_⟩, rfl, rfl⟩
    · rw [hashResize, hsize]
      exact if_pos hsame
    · rw [hi.mask_succ] at hsame
      have hcount := hi.count_eq
      rcases hcase with ⟨-, hload⟩ | ⟨hlt, hn4⟩
      · exact hload
      · unfold loadHigh
        omega
  · rcases hcase with ⟨hold, -⟩ | ⟨hlt, hn4⟩
    · exact absurd (hold.trans hi.mask_succ.symm) hsame
    rw [hi.count_eq] at hlt
    obtain ⟨h', hrun, hfits, hcount, hlook⟩ :=
      rehash_spec hF hn hn4 (hi.entries_distinct hF) hi.keys hlt
    have hlive : (h.ha.flatten.filter fun e => !F.isNil e.1) = h.ha.flatten :=
      List.filter_eq_self.mpr fun e he => by simp [hi.keys e he]
    have hkept : h'.count = h.count := by rw [hcount, hi.count_eq]
    refine ⟨h', fun depth => ?_, hfits, by rw [hlook, hi.find_entries hF], hkept⟩
    rw [hashResize, hsize]
    simp only [bind, Except.bind, if_neg hsame, hrun, hlive, ← hi.count_eq, hkept, ne_eq,
      not_true_eq_false, if_false]
    rfl

end Table

end Idio
