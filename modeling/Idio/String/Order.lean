/-
  String/Order.lean --- the comparisons of strings.

  `string<?` and its kin compare the bytes of two strings with strncmp(3), up to the
  length of the shorter one as an `int`, and take the lengths in bytes for what is to
  decide when no unlike bytes are found.  UTF-8 keeps the order of the code points, so
  the first unlike bytes are in the order of the strings; but strncmp does not go past
  a U+0000, and the bytes of an octet string are its own.
-/
import Idio.Lib.OrderedCode
import Idio.String.Strip

set_option autoImplicit false

namespace Idio

open OrderedCode

/-- `strncmp`, of two allocations that have a NUL each. -/
def strncmp : List Nat → List Nat → Nat → Result Int
  | a :: as, b :: bs, n =>
      if n = 0 then .ok 0
      else if a ≠ b then .ok ((a : Int) - b)
      else if a = 0 then .ok 0
      else strncmp as bs (n - 1)
  | _, _, n => if n = 0 then .ok 0 else .error .undefined

/-- `cmp` -/
inductive StringCmp where
  | lt
  | le
  | eq
  | ge
  | gt
  deriving DecidableEq, Repr

/-- A comparison in terms of an order. -/
def StringCmp.rel {α : Type} [LT α] (cmp : StringCmp) (a b : α) : Prop :=
  match cmp with
  | .lt => a < b
  | .le => a < b ∨ a = b
  | .eq => a = b
  | .ge => b < a ∨ a = b
  | .gt => b < a

instance {α : Type} [LT α] [DecidableEq α] [DecidableLT α] (cmp : StringCmp) (a b : α) :
    Decidable (cmp.rel a b) :=
  match cmp with
  | .lt => inferInstanceAs (Decidable (a < b))
  | .le => inferInstanceAs (Decidable (a < b ∨ a = b))
  | .eq => inferInstanceAs (Decidable (a = b))
  | .ge => inferInstanceAs (Decidable (b < a ∨ a = b))
  | .gt => inferInstanceAs (Decidable (b < a))

/-- `int l`, as the `size_t` it is passed for -/
def compareLimit (l1 l2 : Nat) : Nat :=
  (((if l2 < l1 then l2 else l1 : Nat) : Int).bmod (2 ^ 32) % 2 ^ 64).toNat

section

variable (isprint : Nat → Bool) (ipcp : ConversionPrecision) (st : Strings) (cmp : StringCmp)

/-- The loop of the comparisons. -/
def Strings.compareLoop (C1 : List Nat) (l1 : Nat) : List Nat → Result Bool
  | [] => .ok true
  | s2 :: args => do
      let (C2, l2) ← st.utf8String isprint ipcp s2 false false true
      let sc ← strncmp C1 C2 (compareLimit l1 l2)
      let cr := if sc = 0 then decide (cmp.rel l1 l2) else decide (cmp.rel sc 0)
      if !cr then .ok false else Strings.compareLoop C2 l2 args

/-- `IDIO_DEFINE_STRING_PRIMITIVE2V` with `strncmp` -/
def Strings.compareStrings (s1 s2 : Nat) (args : List Nat) : Result Bool := do
  let (C1, l1) ← st.utf8String isprint ipcp s1 false false true
  st.compareLoop isprint ipcp cmp C1 l1 (s2 :: args)

end

/-! ## What is seen of a string -/

/-- A value that is compared: its flags and its code points. -/
structure Compared where
  flags : StringFlags
  cps : List Nat
  deriving DecidableEq, Repr

/-- The bytes that a string is compared by. -/
def Compared.bytes (prec : Int) (s : Compared) : List Nat :=
  (precede prec s.cps).flatMap (plainBytes s.flags)

/-- The first unlike bytes of two strings, as far as `strncmp` goes. -/
def Compared.unlike (prec : Int) (s t : Compared) : Option (Nat × Nat) :=
  firstUnlike 0 (s.bytes prec) (t.bytes prec)
    (compareLimit (s.bytes prec).length (t.bytes prec).length)

/-- What a comparison of two strings comes to. -/
def Compared.Judged (prec : Int) (cmp : StringCmp) (s t : Compared) : Prop :=
  match s.unlike prec t with
  | some (a, b) => cmp.rel a b
  | none => cmp.rel (s.bytes prec).length (t.bytes prec).length

/-- A value whose text can be encoded; the units of what is no unicode string are bytes. -/
structure Compares (st : Strings) (v : Nat) (s : Compared) : Prop where
  reads : ∃ sp, Reads st v sp s.cps ∧ sp.flags = s.flags
  valid : ∀ c ∈ s.cps, validCodePoint c
  raw : ¬ s.flags.isUnicode → ∀ c ∈ s.cps, c < 256

section Steps

variable {isprint : Nat → Bool} {ipcp : ConversionPrecision} {st : Strings} {cmp : StringCmp}
  {v : Nat} {s t : Compared} {prec : Int}

theorem mem_of_mem_precede {cs : List Nat} {c : Nat} (h : c ∈ precede prec cs) : c ∈ cs := by
  rw [precede] at h
  split at h
  · exact List.mem_of_mem_take h
  · exact h

/-- `idio_string_as_C` -/
theorem Compares.utf8String (h : Compares st v s) (isprint : Nat → Bool)
    (hprec : ipcp.prec = .ok prec) :
    ∃ rest, st.utf8String isprint ipcp v false false true =
      .ok (s.bytes prec ++ 0 :: rest, (s.bytes prec).length) := by
  obtain ⟨sp, hreads, hflags⟩ := h.reads
  obtain ⟨r, size, hrun, hsized⟩ :=
    @utf8String_sized isprint ipcp st v sp s.cps hreads h.valid false false true prec hprec
  rw [hflags] at hsized
  have htext : r.take size = s.bytes prec :=
    hsized.plain (fun c hc => h.valid c (mem_of_mem_precede hc))
      fun hkind c hc => h.raw hkind c (mem_of_mem_precede hc)
  have hfits := hsized.fits
  have hsize : size = (s.bytes prec).length := by
    rw [← htext, List.length_take, Nat.min_eq_left (by omega)]
  obtain ⟨hlt, hzero⟩ := List.getElem?_eq_some_iff.mp hsized.terminated
  have hr : s.bytes prec ++ 0 :: r.drop (size + 1) = r := by
    rw [← htext, ← hzero, ← List.drop_eq_getElem_cons hlt, List.take_append_drop]
  exact ⟨r.drop (size + 1), by rw [hrun, hr, hsize]⟩

/-- `strncmp` finds the first unlike bytes, or the end of the shorter string. -/
theorem strncmp_spec (as bs xs ys : List Nat) (n : Nat) :
    ∃ sc, strncmp (as ++ 0 :: xs) (bs ++ 0 :: ys) n = .ok sc ∧
      match firstUnlike 0 as bs n with
      | some (a, b) => a ≠ b ∧ sc = (a : Int) - b
      | none => sc = 0 ∨ sc < 0 ∧ as.length < bs.length ∨ 0 < sc ∧ bs.length < as.length := by
  induction as generalizing bs n with
  | nil =>
    rw [firstUnlike_nil (.inl rfl)]
    cases bs with
    | nil =>
      rw [List.nil_append, List.nil_append, strncmp, if_neg (not_not.mpr rfl), if_pos rfl, ite_self]
      exact ⟨0, rfl, .inl rfl⟩
    | cons b bs =>
      rw [List.nil_append, List.cons_append, strncmp]
      split_ifs with hn hb
      · exact ⟨0, rfl, .inl rfl⟩
      · exact ⟨_, rfl, .inr (.inl ⟨by omega, Nat.succ_pos _⟩)⟩
      · exact ⟨0, rfl, .inl rfl⟩
      · exact absurd rfl ‹¬ 0 = 0›
  | cons a as ih =>
    cases bs with
    | nil =>
      rw [firstUnlike_nil (.inr rfl), List.nil_append, List.cons_append, strncmp]
      split_ifs with hn ha
      · exact ⟨0, rfl, .inl rfl⟩
      · exact ⟨_, rfl, .inr (.inr ⟨by omega, Nat.succ_pos _⟩)⟩
      · exact ⟨0, rfl, .inl rfl⟩
      · omega
    | cons b bs =>
      rw [List.cons_append, List.cons_append, strncmp, firstUnlike]
      split_ifs with hn hab ha
      · exact ⟨0, rfl, .inl rfl⟩
      · exact ⟨_, rfl, hab, rfl⟩
      · exact ⟨0, rfl, .inl rfl⟩
      · obtain ⟨sc, hsc, hspec⟩ := ih bs (n - 1)
        refine ⟨sc, hsc, ?_⟩
        simpa only [List.length_cons, Nat.add_lt_add_iff_right] using hspec

/-- Two pairs that are in the same order compare alike. -/
theorem StringCmp.rel_congr {α β : Type} [LinearOrder α] [LinearOrder β] (cmp : StringCmp) {a b : α}
    {x y : β} (h : a < b ∧ x < y ∨ a = b ∧ x = y ∨ b < a ∧ y < x) : cmp.rel a b ↔ cmp.rel x y := by
  rcases h with ⟨h, h'⟩ | ⟨rfl, rfl⟩ | ⟨h, h'⟩
  · cases cmp <;> simp [StringCmp.rel, h, h', h.ne, h'.ne, h.not_gt, h'.not_gt]
  · cases cmp <;> simp [StringCmp.rel]
  · cases cmp <;> simp [StringCmp.rel, h, h', h.ne', h'.ne', h.not_gt, h'.not_gt]

/-- `cr` -/
theorem compare_step (cmp : StringCmp) (prec : Int) (s t : Compared) (xs ys : List Nat) :
    ∃ sc, strncmp (s.bytes prec ++ 0 :: xs) (t.bytes prec ++ 0 :: ys)
        (compareLimit (s.bytes prec).length (t.bytes prec).length) = .ok sc ∧
      ((if sc = 0 then decide (cmp.rel (s.bytes prec).length (t.bytes prec).length)
        else decide (cmp.rel sc 0)) = true ↔ s.Judged prec cmp t) := by
  obtain ⟨sc, hsc, hspec⟩ := strncmp_spec (s.bytes prec) (t.bytes prec) xs ys
    (compareLimit (s.bytes prec).length (t.bytes prec).length)
  refine ⟨sc, hsc, ?_⟩
  rw [Compared.Judged, Compared.unlike]
  split at hspec
  · rename_i a b hu
    obtain ⟨hab, rfl⟩ := hspec
    rw [if_neg (by omega), decide_eq_true_iff]
    refine cmp.rel_congr ?_
    omega
  · rename_i hu
    rcases hspec with rfl | hless | hmore
    · rw [if_pos rfl, decide_eq_true_iff]
    · rw [if_neg (by omega), decide_eq_true_iff]
      exact cmp.rel_congr (.inl hless)
    · rw [if_neg (by omega), decide_eq_true_iff]
      exact cmp.rel_congr (.inr (.inr hmore))

/-- The loop stops at the first pair that is judged not to be so related. -/
theorem compareLoop_spec (isprint : Nat → Bool) (cmp : StringCmp) (hprec : ipcp.prec = .ok prec) {vs : List Nat} {ts : List Compared}
    (h : List.Forall₂ (Compares st) vs ts) (s : Compared) (xs : List Nat) :
    ∃ b, st.compareLoop isprint ipcp cmp (s.bytes prec ++ 0 :: xs) (s.bytes prec).length vs = .ok b ∧
      (b = true ↔ ∀ p ∈ (s :: ts).zip ts, p.1.Judged prec cmp p.2) := by
  induction h generalizing s xs with
  | nil => exact ⟨true, rfl, fun _ p hp => absurd hp List.not_mem_nil, fun _ => rfl⟩
  | @cons v t vs ts hv _ ih =>
    obtain ⟨ys, hstring⟩ := hv.utf8String isprint hprec
    obtain ⟨sc, hsc, hcr⟩ := compare_step cmp prec s t xs ys
    rw [Strings.compareLoop, hstring, ok_bind]
    dsimp only
    rw [hsc, ok_bind, List.zip_cons_cons, List.forall_mem_cons]
    by_cases hjudged : s.Judged prec cmp t
    · rw [hcr.mpr hjudged]
      obtain ⟨b, hb, hspec⟩ := ih t ys
      exact ⟨b, hb, hspec.trans ⟨fun h => ⟨hjudged, h⟩, fun h => h.2⟩⟩
    · rw [Bool.eq_false_iff.mpr (mt hcr.mp hjudged)]
      exact ⟨false, rfl, fun h => absurd h Bool.false_ne_true, fun h => absurd h.1 hjudged⟩

end Steps

/-! ## UTF-8 keeps the order -/

/-- Of two numbers in order either the leading digits are in order, or the last ones are. -/
theorem lt_digits {c d : Nat} {p : Prop} (h : c < d ∨ c = d ∧ p) :
    c / 64 < d / 64 ∨ c / 64 = d / 64 ∧ (c % 64 < d % 64 ∨ c % 64 = d % 64 ∧ p) := by
  rcases h with h | ⟨rfl, hp⟩
  · rcases Nat.lt_or_ge (c / 64) (d / 64) with hlt | hge
    · exact .inl hlt
    · exact .inr ⟨by omega, .inl (by omega)⟩
  · exact .inr ⟨rfl, .inr ⟨rfl, hp⟩⟩

theorem keeps_codePointBytes : Keeps codePointBytes fun c => validCodePoint c := by
  intro c d hc hd hlt
  rw [validCodePoint, decide_eq_true_iff] at hc hd
  have h12 (e : Nat) : e / 64 / 64 = e / 2 ^ 12 := Nat.div_div_eq_div_mul e 64 64
  have h18 (e : Nat) : e / 64 / 64 / 64 = e / 2 ^ 18 :=
    (h12 (e / 64)).trans (Nat.div_div_eq_div_mul e 64 (2 ^ 12))
  have hdigits := lt_digits (lt_digits (lt_digits (p := False) (.inl hlt)))
  rw [h18, h18, h12, h12] at hdigits
  rw [codePointBytes_eq, codePointBytes_eq]
  -- more bytes have a greater first one
  split_ifs <;> simp only [precedes_cons, not_precedes_nil, Nat.add_lt_add_iff_right,
    Nat.add_right_cancel_iff] <;> try omega
  rw [Nat.mod_eq_of_lt (a := c / 2 ^ 18) (by omega), Nat.mod_eq_of_lt (a := d / 2 ^ 18) (by omega)]
  exact hdigits

theorem keeps_plainBytes (flags : StringFlags) :
    Keeps (plainBytes flags) fun c => validCodePoint c := by
  cases hkind : flags.isUnicode with
  | true =>
    intro c d hc hd hlt
    rw [plainBytes, plainBytes, hkind, if_pos rfl, if_pos rfl]
    exact keeps_codePointBytes c d hc hd hlt
  | false =>
    intro c d _ _ hlt
    rw [plainBytes, plainBytes, hkind, if_neg Bool.false_ne_true, if_neg Bool.false_ne_true]
    exact .inl hlt

/-! ## The order of the strings -/

/-- A pair that the bytes seen of it are no measure of: no bytes are seen to be unlike and the
lengths are not in the order of the strings, or the bytes are those of strings of different kinds
and not in their order. -/
def Compared.Misread (prec : Int) (cmp : StringCmp) (s t : Compared) : Prop :=
  match s.unlike prec t with
  | some (a, b) => s.flags.isUnicode ≠ t.flags.isUnicode ∧ ¬ (cmp.rel a b ↔ cmp.rel s.cps t.cps)
  | none => ¬ (cmp.rel (s.bytes prec).length (t.bytes prec).length ↔ cmp.rel s.cps t.cps)

/-- No pair is misread, or one that is not so related is seen, or some misread pairs are so
related and some are not. -/
def SeenRight (prec : Int) (cmp : StringCmp) (ps : List (Compared × Compared)) : Prop :=
  (∀ p ∈ ps, ¬ p.1.Misread prec cmp p.2) ∨
  (∃ p ∈ ps, ¬ cmp.rel p.1.cps p.2.cps ∧ ¬ p.1.Misread prec cmp p.2) ∨
  (∃ p ∈ ps, cmp.rel p.1.cps p.2.cps ∧ p.1.Misread prec cmp p.2) ∧
    ∃ p ∈ ps, ¬ cmp.rel p.1.cps p.2.cps ∧ p.1.Misread prec cmp p.2

/-- A text without U+0000 that is compared in full. -/
structure Compared.Plain (prec : Int) (s : Compared) : Prop where
  kind : s.flags.isUnicode
  clear : 0 ∉ s.cps
  short : (s.bytes prec).length < 2 ^ 31
  full : ¬ (0 < prec ∧ prec < s.cps.length)

section Order

variable {isprint : Nat → Bool} {ipcp : ConversionPrecision} {st : Strings} {cmp : StringCmp}
  {v w : Nat} {s t : Compared} {prec : Int}

theorem bytes_of_kind {flags : StringFlags} (h : s.flags.isUnicode = flags.isUnicode) :
    s.bytes prec = (precede prec s.cps).flatMap (plainBytes flags) := by
  rw [Compared.bytes]
  refine List.flatMap_congr fun c _ => ?_
  rw [plainBytes, plainBytes, h]

/-- Unlike bytes of two strings of a kind are in the order of the strings. -/
theorem Compared.unlike_order (cmp : StringCmp) (hs : ∀ c ∈ s.cps, validCodePoint c)
    (ht : ∀ c ∈ t.cps, validCodePoint c)
    (hkind : s.flags.isUnicode = t.flags.isUnicode) {a b : Nat} (hu : s.unlike prec t = some (a, b)) :
    cmp.rel a b ↔ cmp.rel s.cps t.cps := by
  rw [Compared.unlike, bytes_of_kind hkind, bytes_of_kind rfl] at hu
  obtain ⟨xs, hxs, -⟩ := precede_append prec s.cps
  obtain ⟨ys, hys, -⟩ := precede_append prec t.cps
  have horder := (keeps_plainBytes t.flags).order (fun c hc => hs c (mem_of_mem_precede hc))
    (fun c hc => ht c (mem_of_mem_precede hc)) hu xs ys
  rw [← hxs, ← hys] at horder
  refine cmp.rel_congr ?_
  rcases horder with h | h
  · exact .inl h
  · exact .inr (.inr h)

/-- A pair is judged right unless it is misread. -/
theorem Compared.judged_iff (hs : ∀ c ∈ s.cps, validCodePoint c) (ht : ∀ c ∈ t.cps, validCodePoint c) :
    s.Judged prec cmp t ↔ (cmp.rel s.cps t.cps ↔ ¬ s.Misread prec cmp t) := by
  rw [Compared.Judged, Compared.Misread]
  split
  · rename_i a b hu
    by_cases hkind : s.flags.isUnicode = t.flags.isUnicode
    · have h := Compared.unlike_order cmp hs ht hkind hu
      tauto
    · tauto
  · tauto

theorem int_size {l : Nat} (h : l < 2 ^ 31) : ((l : Int).bmod (2 ^ 32) % 2 ^ 64).toNat = l := by
  have hint : (l : Int).bmod (2 ^ 32) = l := by
    apply Int.bmod_eq_of_le_mul_two
    · omega
    · omega
  simp only [hint]
  omega

theorem compareLimit_of_short {l1 l2 : Nat} (h1 : l1 < 2 ^ 31) (h2 : l2 < 2 ^ 31) :
    compareLimit l1 l2 = min l2 l1 := by
  have hl : (if l2 < l1 then l2 else l1) = min l2 l1 := by
    split <;> omega
  unfold compareLimit
  exact (int_size (by split <;> omega)).trans hl

theorem clear_codePointBytes {c : Nat} (hc : c ≠ 0) : 0 ∉ codePointBytes c := by
  rw [codePointBytes_eq]
  split_ifs <;> simp only [List.mem_cons, List.not_mem_nil, or_false] <;> omega

theorem Compared.Plain.bytes_eq (h : s.Plain prec) : s.bytes prec = s.cps.flatMap codePointBytes := by
  obtain ⟨rest, hrest, hnil⟩ := precede_append prec s.cps
  rw [hnil.mpr h.full, List.append_nil] at hrest
  rw [Compared.bytes, ← hrest]
  refine List.flatMap_congr fun c _ => ?_
  rw [plainBytes, if_pos h.kind]

/-- A text with another at its beginning is the greater one, and has more bytes. -/
theorem rel_of_begins {xs ys : List Nat} (h : xs <+: ys) :
    (xs.flatMap codePointBytes).length < (ys.flatMap codePointBytes).length ∧ xs < ys ∨
      (xs.flatMap codePointBytes).length = (ys.flatMap codePointBytes).length ∧ xs = ys := by
  obtain ⟨rest, rfl⟩ := h
  cases rest with
  | nil => exact .inr ⟨by rw [List.append_nil], (List.append_nil xs).symm⟩
  | cons c rest =>
    have hpos : 0 < (codePointBytes c).length := by
      rw [codePointBytes_eq]
      split_ifs <;> exact Nat.succ_pos _
    have hlt : xs ++ [] < xs ++ c :: rest := List.append_left_lt (List.nil_lt_cons c rest)
    rw [List.append_nil] at hlt
    rw [List.flatMap_append, List.flatMap_cons, List.length_append, List.length_append]
    exact .inl ⟨by omega, hlt⟩

/-- Plain texts are judged right. -/
theorem Compared.Plain.not_misread (hs : s.Plain prec) (ht : t.Plain prec)
    (hsv : ∀ c ∈ s.cps, validCodePoint c) (htv : ∀ c ∈ t.cps, validCodePoint c) :
    ¬ s.Misread prec cmp t := by
  rw [Compared.Misread, Compared.unlike]
  split
  · exact fun h => h.1 (hs.kind.trans ht.kind.symm)
  · rename_i hu
    have hlimit := compareLimit_of_short hs.short ht.short
    rw [hs.bytes_eq, ht.bytes_eq] at hu hlimit ⊢
    have hbegins := keeps_codePointBytes.begins
      (fun c hc => ⟨hsv c hc, clear_codePointBytes fun h => hs.clear (h ▸ hc)⟩)
      (fun c hc => ⟨htv c hc, clear_codePointBytes fun h => ht.clear (h ▸ hc)⟩)
      (by omega) hu
    refine not_not.mpr (cmp.rel_congr ?_)
    rcases hbegins with h | h
    · exact (rel_of_begins h).imp_right .inl
    · rcases rel_of_begins h with h | ⟨h, h'⟩
      · exact .inr (.inr h)
      · exact .inr (.inl ⟨h.symm, h'.symm⟩)

/-- Of all pairs that are related as they are seen to be unless they are misread, when all are
related as often as all are seen to be. -/
theorem all_seen_iff {α : Type} {l : List α} {p q : α → Prop} :
    ((∀ x ∈ l, (p x ↔ ¬ q x)) ↔ ∀ x ∈ l, p x) ↔
      (∀ x ∈ l, ¬ q x) ∨ (∃ x ∈ l, ¬ p x ∧ ¬ q x) ∨ (∃ x ∈ l, p x ∧ q x) ∧ ∃ x ∈ l, ¬ p x ∧ q x := by
  by_cases hp : ∀ x ∈ l, p x
  · have hseen : (∀ x ∈ l, (p x ↔ ¬ q x)) ↔ ∀ x ∈ l, ¬ q x :=
      forall₂_congr fun x hx => by rw [iff_true_left (hp x hx)]
    rw [hseen, iff_true_right hp, or_iff_left]
    rintro (⟨x, hx, hnot, -⟩ | ⟨-, x, hx, hnot, -⟩)
    · exact hnot (hp x hx)
    · exact hnot (hp x hx)
  · rw [iff_false_right hp]
    push Not at hp
    obtain ⟨x, hx, hnot⟩ := hp
    constructor
    · intro h
      push Not at h
      obtain ⟨y, hy, h⟩ := h
      rcases h with ⟨hpy, hqy⟩ | ⟨hpy, hqy⟩
      · by_cases hqx : q x
        · exact .inr (.inr ⟨⟨y, hy, hpy, hqy⟩, x, hx, hnot, hqx⟩)
        · exact .inr (.inl ⟨x, hx, hnot, hqx⟩)
      · exact .inr (.inl ⟨y, hy, hpy, hqy⟩)
    · rintro (hall | ⟨y, hy, hpy, hqy⟩ | ⟨⟨y, hy, hpy, hqy⟩, -⟩) h
      · exact hnot ((h x hx).mpr (hall x hx))
      · exact hpy ((h y hy).mpr hqy)
      · exact (h y hy).mp hpy hqy

theorem valid_of_compares {vs : List Nat} {ts : List Compared} (h : List.Forall₂ (Compares st) vs ts) :
    ∀ x ∈ ts, ∀ c ∈ x.cps, validCodePoint c := by
  induction h with
  | nil => exact fun x hx => absurd hx List.not_mem_nil
  | cons hv _ ih => exact List.forall_mem_cons.mpr ⟨hv.valid, ih⟩

/-- The comparisons are those of the code points if the pairs are seen right; plain texts are
never misread. -/
theorem compare_strings {args : List Nat} {ts : List Compared}
    (hs : Compares st v s) (ht : Compares st w t) (hargs : List.Forall₂ (Compares st) args ts) :
    (st.compareStrings isprint ipcp cmp v w args =
        .ok (decide (∀ p ∈ (s :: t :: ts).zip (t :: ts), cmp.rel p.1.cps p.2.cps)) ↔
      ∃ prec, ipcp.prec = .ok prec ∧ SeenRight prec cmp ((s :: t :: ts).zip (t :: ts))) ∧
    (∀ prec, s.Plain prec → t.Plain prec → ¬ s.Misread prec cmp t) ∧
    st.stringEqual v w = .ok (decide (s.cps = t.cps)) := by
  refine ⟨?_, fun prec hsp htp => hsp.not_misread htp hs.valid ht.valid, ?_⟩
  · cases hprec : ipcp.prec with
    | error e =>
      rw [Strings.compareStrings, Strings.utf8String, if_pos rfl, hprec]
      constructor
      · intro h
        cases h
      · rintro ⟨_, h, -⟩
        cases h
    | ok prec =>
      obtain ⟨xs, hstring⟩ := hs.utf8String isprint hprec
      obtain ⟨b, hloop, hb⟩ := compareLoop_spec isprint cmp hprec
        (.cons ht hargs) s xs
      have hall : ∀ x ∈ s :: t :: ts, ∀ c ∈ x.cps, validCodePoint c :=
        List.forall_mem_cons.mpr ⟨hs.valid, List.forall_mem_cons.mpr ⟨ht.valid, valid_of_compares hargs⟩⟩
      have hseen : (∀ p ∈ (s :: t :: ts).zip (t :: ts), p.1.Judged prec cmp p.2) ↔
          ∀ p ∈ (s :: t :: ts).zip (t :: ts),
            (cmp.rel p.1.cps p.2.cps ↔ ¬ p.1.Misread prec cmp p.2) := by
        refine forall₂_congr fun p hp => ?_
        obtain ⟨h1, h2⟩ := List.of_mem_zip (show (p.1, p.2) ∈ _ from hp)
        exact Compared.judged_iff (hall p.1 h1) (hall p.2 (List.mem_cons_of_mem s h2))
      rw [Strings.compareStrings, hstring, ok_bind]
      dsimp only
      rw [hloop, Except.ok.injEq, Bool.eq_iff_iff, decide_eq_true_iff, hb, hseen, all_seen_iff]
      constructor
      · exact fun hright => ⟨prec, rfl, hright⟩
      · rintro ⟨_, h, hright⟩
        cases h
        exact hright
  · obtain ⟨sp, hreads, -⟩ := hs.reads
    obtain ⟨sp', hreads', -⟩ := ht.reads
    rw [hreads.stringEqual hreads', Except.ok.injEq, Bool.eq_iff_iff, beq_iff_eq, decide_eq_true_iff]

end Order

/-- "a\0b", "a\0c" and "ab" -/
def nulStrings : Strings :=
  [.string ⟨3, 3, .oneByte, [0x61, 0, 0x62, 0]⟩, .string ⟨3, 3, .oneByte, [0x61, 0, 0x63, 0]⟩,
    .string ⟨2, 2, .oneByte, [0x61, 0x62, 0]⟩]

/-- What comes after a U+0000 is not seen. -/
theorem nul_hides_the_rest :
    nulStrings.string2list 0 = .ok [0x61, 0, 0x62] ∧ nulStrings.string2list 1 = .ok [0x61, 0, 0x63] ∧
    nulStrings.compareStrings (fun _ => true) .none .eq 0 1 [] = .ok true ∧
    nulStrings.compareStrings (fun _ => true) .none .lt 0 1 [] = .ok false ∧
    nulStrings.stringEqual 0 1 = .ok false ∧ [0x61, 0, 0x62] < ([0x61, 0, 0x63] : List Nat) := by
  decide +kernel

/-- "a\0b" and "ab" -/
theorem compare_strings_nul :
    let s : Compared := ⟨.oneByte, [0x61, 0, 0x62]⟩
    let t : Compared := ⟨.oneByte, [0x61, 0x62]⟩
    (nulStrings.compareStrings (fun _ => true) .none .lt 0 2 [] =
        .ok (decide (∀ p ∈ [s, t].zip [t], StringCmp.lt.rel p.1.cps p.2.cps)) ↔
      ∃ prec, ConversionPrecision.none.prec = .ok prec ∧ SeenRight prec .lt ([s, t].zip [t])) ∧
    (∀ prec, s.Plain prec → t.Plain prec → ¬ s.Misread prec .lt t) ∧
    nulStrings.stringEqual 0 2 = .ok (decide (s.cps = t.cps)) := by
  intro s t
  have hs : Compares nulStrings 0 s :=
    ⟨⟨⟨0, 0, 3, .oneByte⟩, reads_of_span rfl rfl, rfl⟩, by decide, absurd rfl⟩
  have ht : Compares nulStrings 2 t :=
    ⟨⟨⟨2, 0, 2, .oneByte⟩, reads_of_span rfl rfl, rfl⟩, by decide, absurd rfl⟩
  exact compare_strings hs ht .nil

end Idio
