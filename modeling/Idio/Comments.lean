/-
  Comments.lean --- block comments and semi-literate block comments.

  `#* ... *#` and `#| ... |#` are read by two functions that call each other for nested
  comments and that differ in one character.  The loop keeps three flags: `esc` after
  the escape character, `half` after the first character of the closer and `hash` after
  a `#`.

  `Body` says where a comment ends.  The loop does not keep to it in two places: a
  second escape character leaves `esc` set, and a character that ends one attempt at
  a delimiter does not start another, so that `**#` does not close.  `comments` has the
  texts on whose reading neither of them lies.
-/
import Idio.Text

set_option autoImplicit false

namespace Idio.Comments

/-! ## The source -/

/-- The two kinds of comments. -/
inductive CommentKind where
  | asterisk
  | pipe
  deriving DecidableEq, Repr

/-- The character of the delimiters that is not `#`. -/
def CommentKind.half : CommentKind → Char
  | .asterisk => '*'
  | .pipe => '|'

/-- `isgraph` -/
def isgraph (c : Char) : Bool := decide (0x21 ≤ c.toNat) && decide (c.toNat ≤ 0x7e)

/-- `esc_char`, from the first character of the comment. -/
def escChar (c : Char) : Char := if isgraph c then c else '\\'

/-- `idio_read_error_comment (.., "unterminated")` -/
def unterminated : Fault := .readErrorParse "comment: unterminated"

structure Flags where
  esc : Bool
  half : Bool
  hash : Bool

def Flags.clear : Flags := ⟨false, false, false⟩

/-- A comment from its first character on. -/
def startComment (loop : CommentKind → Char → Flags → Text → Result Text) (k : CommentKind) :
    Text → Result Text
  | [] => .error unterminated
  | c :: s => loop k (escChar c) .clear s

/-- The loop of the comment readers; what it returns is the text after the comment. -/
def commentLoop : Nat → CommentKind → Char → Flags → Text → Result Text
  | 0, _, _, _, _ => .error .diverges
  | _ + 1, _, _, _, [] => .error unterminated
  | fuel + 1, k, e, fl, c :: s =>
      if e = c then
        if !fl.esc then commentLoop fuel k e { fl with esc := true } s
        else commentLoop fuel k e fl s
      else if fl.esc then commentLoop fuel k e .clear s
      else if fl.half then
        if c = '#' then .ok s else commentLoop fuel k e .clear s
      else if fl.hash then
        if c = '*' then do commentLoop fuel k e .clear (← startComment (commentLoop fuel) .asterisk s)
        else if c = '|' then do commentLoop fuel k e .clear (← startComment (commentLoop fuel) .pipe s)
        else commentLoop fuel k e .clear s
      else if c = k.half then commentLoop fuel k e { fl with half := true } s
      else if c = '#' then commentLoop fuel k e { fl with hash := true } s
      else commentLoop fuel k e .clear s

/-- A comment, on the text after its first two characters. -/
def readComment (k : CommentKind) (s : Text) : Result Text :=
  startComment (commentLoop (s.length + 1)) k s

/-- `idio_read_block_comment` -/
def readBlockComment (s : Text) : Result Text := readComment .asterisk s

/-- `idio_read_sl_block_comment` -/
def readSlBlockComment (s : Text) : Result Text := readComment .pipe s

/-! ## Where a comment ends -/

/-- A comment of the kind `k` with the escape character `e` ends where `r` is left of the text.
An escape character makes the next character ordinary, and is no part of a delimiter. -/
inductive Body : CommentKind → Char → Text → Text → Prop where
  | closer {k : CommentKind} {e : Char} {r : Text} : k.half ≠ e → '#' ≠ e →
      Body k e (k.half :: '#' :: r) r
  | escaped {k : CommentKind} {e c : Char} {s r : Text} : Body k e s r → Body k e (e :: c :: s) r
  | nested {k k' : CommentKind} {e c : Char} {s s' r : Text} : '#' ≠ e → k'.half ≠ e →
      Body k' (escChar c) s s' → Body k e s' r → Body k e ('#' :: k'.half :: c :: s) r
  | other {k : CommentKind} {e c : Char} {s r : Text} : c ≠ e →
      (c = k.half → '#' ≠ e → s.head? ≠ some '#') →
      (c = '#' → ∀ k' : CommentKind, k'.half ≠ e → s.head? ≠ some k'.half) →
      Body k e s r → Body k e (c :: s) r

/-- The same for the text that the readers get. -/
def Ends (k : CommentKind) (s r : Text) : Prop := ∃ c t, s = c :: t ∧ Body k (escChar c) t r

/-- The reader takes the comment and no more of the text, and complains just if the comment has
no end. -/
def ReadsComment (read : Text → Result Text) (k : CommentKind) (s : Text) : Prop :=
  (∀ r, read s = .ok r ↔ Ends k s r) ∧ (read s = .error unterminated ↔ ¬ ∃ r, Ends k s r)

/-- The reading of the text comes by an escaped escape character, or by two characters of which
each may begin a delimiter, before the comment ends. -/
inductive Defect : CommentKind → Char → Text → Prop where
  | escapes {k : CommentKind} {e : Char} {s : Text} : Defect k e (e :: e :: s)
  | halves {k : CommentKind} {e : Char} {s : Text} : k.half ≠ e → Defect k e (k.half :: k.half :: s)
  | hashes {k : CommentKind} {e : Char} {s : Text} : '#' ≠ e → Defect k e ('#' :: '#' :: s)
  | escaped {k : CommentKind} {e c : Char} {s : Text} : Defect k e s → Defect k e (e :: c :: s)
  | inside {k k' : CommentKind} {e c : Char} {s : Text} : '#' ≠ e → k'.half ≠ e →
      Defect k' (escChar c) s → Defect k e ('#' :: k'.half :: c :: s)
  | nested {k k' : CommentKind} {e c : Char} {s s' : Text} : '#' ≠ e → k'.half ≠ e →
      Body k' (escChar c) s s' → Defect k e s' → Defect k e ('#' :: k'.half :: c :: s)
  | other {k : CommentKind} {e c : Char} {s : Text} : c ≠ e →
      (c = k.half → '#' ≠ e → s.head? ≠ some '#') →
      (c = '#' → ∀ k' : CommentKind, k'.half ≠ e → s.head? ≠ some k'.half) →
      Defect k e s → Defect k e (c :: s)

/-- The reading of the text has no defect. -/
def Sound (k : CommentKind) (s : Text) : Prop := ∀ c t, s = c :: t → ¬ Defect k (escChar c) t

theorem half_ne_hash (k : CommentKind) : k.half ≠ '#' := by
  cases k <;> decide

theorem half_inj {k k' : CommentKind} (h : k.half = k'.half) : k = k' := by
  cases k <;> cases k' <;> first | rfl | exact absurd h (by decide)

/-! ## The steps of a reading -/

section Steps

variable {k k' : CommentKind} {e c : Char} {s r : Text}

theorem not_body_nil : ¬ Body k e [] r := by
  rintro ⟨⟩

theorem body_escape : Body k e (e :: s) r ↔ ∃ c t, s = c :: t ∧ Body k e t r := by
  constructor
  · intro h
    cases h with
    | closer hk _ => exact absurd rfl hk
    | escaped h => exact ⟨_, _, rfl, h⟩
    | nested hhash _ _ _ => exact absurd rfl hhash
    | other hc _ _ _ => exact absurd rfl hc
  · rintro ⟨c, t, rfl, h⟩
    exact .escaped h

theorem body_closer (hk : k.half ≠ e) (hhash : '#' ≠ e) :
    Body k e (k.half :: '#' :: s) r ↔ r = s := by
  constructor
  · intro h
    generalize ht : k.half :: '#' :: s = t at h
    cases h with
    | closer _ _ =>
      cases ht
      rfl
    | escaped h => exact absurd (List.cons.inj ht).1 hk
    | nested _ _ _ _ => exact absurd (List.cons.inj ht).1 (half_ne_hash k)
    | other _ hcloser _ _ =>
      cases ht
      exact absurd rfl (hcloser rfl hhash)
  · rintro rfl
    exact .closer hk hhash

theorem body_nested (hhash : '#' ≠ e) (hk : k'.half ≠ e) :
    Body k e ('#' :: k'.half :: s) r ↔
      ∃ c t s', s = c :: t ∧ Body k' (escChar c) t s' ∧ Body k e s' r := by
  constructor
  · intro h
    generalize ht : '#' :: k'.half :: s = t at h
    cases h with
    | closer _ _ => exact absurd (List.cons.inj ht).1.symm (half_ne_hash k)
    | escaped h => exact absurd (List.cons.inj ht).1 hhash
    | nested _ _ hin hafter =>
      obtain ⟨-, ht⟩ := List.cons.inj ht
      obtain ⟨hhalf, hs⟩ := List.cons.inj ht
      cases half_inj hhalf
      exact ⟨_, _, _, hs, hin, hafter⟩
    | other _ _ hopener _ =>
      cases ht
      exact absurd rfl (hopener rfl k' hk)
  · rintro ⟨c, t, s', rfl, hin, hafter⟩
    exact .nested hhash hk hin hafter

theorem body_other (hc : c ≠ e) (hcloser : c = k.half → '#' ≠ e → s.head? ≠ some '#')
    (hopener : c = '#' → ∀ k' : CommentKind, k'.half ≠ e → s.head? ≠ some k'.half) :
    Body k e (c :: s) r ↔ Body k e s r := by
  constructor
  · intro h
    cases h with
    | closer _ hhash => exact absurd rfl (hcloser rfl hhash)
    | escaped h => exact absurd rfl hc
    | nested _ hk _ _ => exact absurd rfl (hopener rfl _ hk)
    | other _ _ _ h => exact h
  · exact .other hc hcloser hopener

end Steps

/-! ## The loop -/

/-- What the loop does where `P` says what may be left: it returns the one text that may, of at
most `n` characters, or there is none and the comment is unterminated. -/
def Outcome (n : Nat) (res : Result Text) (P : Text → Prop) : Prop :=
  (∃ r, res = .ok r ∧ r.length ≤ n ∧ ∀ r', P r' ↔ r' = r) ∨ res = .error unterminated ∧ ∀ r, ¬ P r

section Loop

variable {n m fuel : Nat} {k k' : CommentKind} {e c : Char} {fl : Flags} {s : Text} {res : Result Text}
  {P Q : Text → Prop}

theorem Outcome.congr (h : Outcome n res P) (hle : n ≤ m) (hiff : ∀ r, Q r ↔ P r) : Outcome m res Q := by
  rcases h with ⟨r, hr, hlen, hP⟩ | ⟨he, hP⟩
  · exact .inl ⟨r, hr, by omega, fun r' => (hiff r').trans (hP r')⟩
  · exact .inr ⟨he, fun r h => hP r ((hiff r).mp h)⟩

theorem Outcome.unterminated (h : ∀ r, ¬ P r) : Outcome n (.error unterminated) P := .inr ⟨rfl, h⟩

theorem commentLoop_nil (hfuel : 0 < fuel) : commentLoop fuel k e fl [] = .error unterminated := by
  obtain ⟨f, rfl⟩ : ∃ f, fuel = f + 1 := ⟨fuel - 1, by omega⟩
  rfl

/-- An escape character, whatever a character before it has begun. -/
theorem commentLoop_escape (hfl : fl.esc = false) :
    commentLoop (fuel + 1) k e fl (e :: s) = commentLoop fuel k e { fl with esc := true } s := by
  rw [commentLoop, if_pos rfl, hfl]
  rfl

/-- A character that is no escape character. -/
theorem commentLoop_ne (hc : e ≠ c) :
    commentLoop (fuel + 1) k e fl (c :: s) =
      if fl.esc then commentLoop fuel k e .clear s
      else if fl.half then
        if c = '#' then .ok s else commentLoop fuel k e .clear s
      else if fl.hash then
        if c = '*' then startComment (commentLoop fuel) .asterisk s >>= commentLoop fuel k e .clear
        else if c = '|' then startComment (commentLoop fuel) .pipe s >>= commentLoop fuel k e .clear
        else commentLoop fuel k e .clear s
      else if c = k.half then commentLoop fuel k e { fl with half := true } s
      else if c = '#' then commentLoop fuel k e { fl with hash := true } s
      else commentLoop fuel k e .clear s := by
  rw [commentLoop, if_neg hc]

/-- The character after an escape character, unless it is one. -/
theorem commentLoop_escaped (hfl : fl.esc = true) (hc : e ≠ c) :
    commentLoop (fuel + 1) k e fl (c :: s) = commentLoop fuel k e .clear s := by
  rw [commentLoop_ne hc, hfl]
  rfl

/-- A character that begins nothing. -/
theorem commentLoop_other (hc : e ≠ c) (hk : c ≠ k.half) (hhash : c ≠ '#') :
    commentLoop (fuel + 1) k e .clear (c :: s) = commentLoop fuel k e .clear s := by
  rw [commentLoop_ne hc]
  simp only [Flags.clear, Bool.false_eq_true, if_false, if_neg hk, if_neg hhash]

theorem commentLoop_half (hk : e ≠ k.half) :
    commentLoop (fuel + 1) k e .clear (k.half :: s) =
      commentLoop fuel k e ⟨false, true, false⟩ s := by
  rw [commentLoop_ne hk, if_pos rfl]
  rfl

theorem commentLoop_hash (hhash : e ≠ '#') :
    commentLoop (fuel + 1) k e .clear ('#' :: s) = commentLoop fuel k e ⟨false, false, true⟩ s := by
  rw [commentLoop_ne hhash, if_neg (half_ne_hash k).symm, if_pos rfl]
  rfl

theorem commentLoop_closer (hhash : e ≠ '#') :
    commentLoop (fuel + 1) k e ⟨false, true, false⟩ ('#' :: s) = .ok s := by
  rw [commentLoop_ne hhash]
  rfl

theorem commentLoop_no_closer (hc : e ≠ c) (hhash : c ≠ '#') :
    commentLoop (fuel + 1) k e ⟨false, true, false⟩ (c :: s) = commentLoop fuel k e .clear s := by
  rw [commentLoop_ne hc]
  simp only [Bool.false_eq_true, if_false, if_true, if_neg hhash]

theorem commentLoop_opener (hk' : e ≠ k'.half) :
    commentLoop (fuel + 1) k e ⟨false, false, true⟩ (k'.half :: s) =
      startComment (commentLoop fuel) k' s >>= commentLoop fuel k e .clear := by
  rw [commentLoop_ne hk']
  cases k' <;> rfl

theorem commentLoop_no_opener (hc : e ≠ c) (hno : ∀ k' : CommentKind, c ≠ k'.half) :
    commentLoop (fuel + 1) k e ⟨false, false, true⟩ (c :: s) = commentLoop fuel k e .clear s := by
  rw [commentLoop_ne hc]
  have h1 : c ≠ '*' := hno .asterisk
  have h2 : c ≠ '|' := hno .pipe
  simp only [Bool.false_eq_true, if_false, if_true, if_neg h1, if_neg h2]

end Loop

/-- An escape character and what comes after it. -/
theorem outcome_escape {n fuel : Nat} {k : CommentKind} {e : Char} {fl : Flags} {t : Text}
    (hfl : fl.esc = false) (hfuel : t.length + 1 < fuel) (hdef : ¬ Defect k e (e :: t))
    (ih : ∀ c s, t = c :: s → ∀ fuel, s.length < fuel →
      Outcome n (commentLoop fuel k e .clear s) (Body k e s)) :
    Outcome n (commentLoop fuel k e fl (e :: t)) (Body k e (e :: t)) := by
  obtain ⟨f, rfl⟩ : ∃ f, fuel = f + 1 := ⟨fuel - 1, by omega⟩
  rw [commentLoop_escape hfl]
  cases t with
  | nil =>
    rw [commentLoop_nil (by omega)]
    refine .unterminated fun r h => ?_
    obtain ⟨c, t, ht, -⟩ := body_escape.mp h
    cases ht
  | cons c s =>
    have hc : e ≠ c := by
      rintro rfl
      exact hdef .escapes
    rw [List.length_cons] at hfuel
    obtain ⟨f, rfl⟩ : ∃ f', f = f' + 1 := ⟨f - 1, by omega⟩
    rw [commentLoop_escaped rfl hc]
    refine (ih c s rfl f (by omega)).congr (le_refl n) fun r => ?_
    rw [body_escape]
    constructor
    · rintro ⟨c', t', ht, h⟩
      cases ht
      exact h
    · exact fun h => ⟨c, s, rfl, h⟩

/-- **The loop**, from a state without flags: on a text whose reading has no defect it ends where
the comment ends. -/
theorem commentLoop_outcome (n : Nat) : ∀ (fuel : Nat) (k : CommentKind) (e : Char) (s : Text),
    s.length = n → n < fuel → ¬ Defect k e s →
      Outcome n (commentLoop fuel k e .clear s) (Body k e s) := by
  induction n using Nat.strong_induction_on with
  | _ n ih =>
  intro fuel k e s hn hfuel hdef
  have ih' : ∀ (k : CommentKind) (e : Char) (t : Text), t.length < n → ¬ Defect k e t →
      ∀ fuel, t.length < fuel → Outcome n (commentLoop fuel k e .clear t) (Body k e t) := by
    intro k e t ht hd fuel hf
    exact (ih t.length ht fuel k e t rfl hf hd).congr ht.le fun r => Iff.rfl
  obtain ⟨f, rfl⟩ : ∃ f, fuel = f + 1 := ⟨fuel - 1, by omega⟩
  cases s with
  | nil =>
    rw [commentLoop_nil (by omega)]
    exact .unterminated fun r => not_body_nil
  | cons c t =>
    rw [List.length_cons] at hn
    by_cases hce : e = c
    · subst hce
      refine outcome_escape rfl (by omega) hdef fun c' s' ht fuel hf => ?_
      rw [ht, List.length_cons] at hn
      exact ih' k e s' (by omega) (fun hd => hdef (ht ▸ .escaped hd)) fuel hf
    -- a character before an escape character is ordinary
    have hpending : ∀ fl : Flags, fl.esc = false → ∀ t', t = e :: t' →
        (c = k.half → '#' ≠ e → t.head? ≠ some '#') →
        (c = '#' → ∀ k' : CommentKind, k'.half ≠ e → t.head? ≠ some k'.half) →
        Outcome n (commentLoop f k e fl t) (Body k e (c :: t)) := by
      intro fl hfl t' ht hcloser hopener
      subst ht
      rw [List.length_cons] at hn
      have hdef' : ¬ Defect k e (e :: t') := fun hd =>
        hdef (.other (Ne.symm hce) hcloser hopener hd)
      refine (outcome_escape hfl (by omega) hdef' fun c' s' ht fuel hf => ?_).congr (le_refl n)
        fun r => body_other (Ne.symm hce) hcloser hopener
      rw [ht, List.length_cons] at hn
      exact ih' k e s' (by omega) (fun hd => hdef' (ht ▸ .escaped hd)) fuel hf
    by_cases hhalf : c = k.half
    · subst hhalf
      have hopener : ∀ s : Text, k.half = '#' → ∀ k' : CommentKind, k'.half ≠ e →
          s.head? ≠ some k'.half := fun s h => absurd h (half_ne_hash k)
      rw [commentLoop_half hce]
      cases t with
      | nil =>
        rw [commentLoop_nil (by omega)]
        exact .unterminated fun r h =>
          not_body_nil ((body_other (Ne.symm hce) (by simp) (hopener [])).mp h)
      | cons c' t' =>
        rw [List.length_cons] at hn
        by_cases hce' : e = c'
        · subst hce'
          refine hpending _ rfl t' rfl (fun _ hne h => ?_) (hopener _)
          exact hne (Option.some.inj h).symm
        obtain ⟨f, rfl⟩ : ∃ f', f = f' + 1 := ⟨f - 1, by omega⟩
        by_cases hhash : c' = '#'
        · subst hhash
          rw [commentLoop_closer hce']
          exact .inl ⟨t', rfl, by omega, fun r' => body_closer (Ne.symm hce) (Ne.symm hce')⟩
        · have hne : c' ≠ k.half := by
            rintro rfl
            exact hdef (.halves (Ne.symm hce'))
          rw [commentLoop_no_closer hce' hhash]
          have hcloser : k.half = k.half → '#' ≠ e → (c' :: t').head? ≠ some '#' :=
            fun _ _ h => hhash (Option.some.inj h)
          have hbody : ∀ r, Body k e (k.half :: c' :: t') r ↔ Body k e t' r := fun r =>
            (body_other (Ne.symm hce) hcloser (hopener _)).trans
              (body_other (Ne.symm hce') (fun h => absurd h hne) (fun h => absurd h hhash))
          refine (ih' k e t' (by omega) (fun hd => hdef ?_) f (by omega)).congr (le_refl n) hbody
          exact .other (Ne.symm hce) hcloser (hopener _)
            (.other (Ne.symm hce') (fun h => absurd h hne) (fun h => absurd h hhash) hd)
    by_cases hhash : c = '#'
    · subst hhash
      have hcloser : ∀ s : Text, '#' = k.half → '#' ≠ e → s.head? ≠ some '#' :=
        fun s h => absurd h hhalf
      rw [commentLoop_hash hce]
      cases t with
      | nil =>
        rw [commentLoop_nil (by omega)]
        exact .unterminated fun r h =>
          not_body_nil ((body_other (Ne.symm hce) (hcloser []) (by simp)).mp h)
      | cons c' t' =>
        rw [List.length_cons] at hn
        by_cases hce' : e = c'
        · subst hce'
          refine hpending _ rfl t' rfl (hcloser _) (fun _ k' hne h => ?_)
          exact hne (Option.some.inj h).symm
        obtain ⟨f, rfl⟩ : ∃ f', f = f' + 1 := ⟨f - 1, by omega⟩
        by_cases hopens : ∃ k' : CommentKind, c' = k'.half
        · obtain ⟨k', rfl⟩ := hopens
          rw [commentLoop_opener hce']
          have hbody := fun r => @body_nested k k' e t' r (Ne.symm hce) (Ne.symm hce')
          cases t' with
          | nil =>
            refine .unterminated fun r h => ?_
            obtain ⟨d, u, s', ht, -⟩ := (hbody r).mp h
            cases ht
          | cons d u =>
            rw [List.length_cons] at hn
            have hin : ¬ Defect k' (escChar d) u := fun hd =>
              hdef (.inside (Ne.symm hce) (Ne.symm hce') hd)
            rcases ih u.length (by omega) f k' (escChar d) u rfl (by omega) hin with
              ⟨s', hs', hlen, hunique⟩ | ⟨herr, hnone⟩
            · rw [startComment, hs', ok_bind]
              have hafter : ¬ Defect k e s' := fun hd =>
                hdef (.nested (Ne.symm hce) (Ne.symm hce') ((hunique s').mpr rfl) hd)
              refine (ih' k e s' (by omega) hafter f (by omega)).congr (le_refl n) fun r => ?_
              rw [hbody]
              constructor
              · rintro ⟨d', u', s'', ht, h, h'⟩
                cases ht
                rwa [(hunique s'').mp h] at h'
              · exact fun h => ⟨d, u, s', rfl, (hunique s').mpr rfl, h⟩
            · rw [startComment, herr, error_bind]
              refine .unterminated fun r h => ?_
              obtain ⟨d', u', s'', ht, h, -⟩ := (hbody r).mp h
              cases ht
              exact hnone s'' h
        · have hno : ∀ k' : CommentKind, c' ≠ k'.half := fun k' h => hopens ⟨k', h⟩
          have hne : c' ≠ '#' := by
            rintro rfl
            exact hdef (.hashes (Ne.symm hce'))
          rw [commentLoop_no_opener hce' hno]
          have hopener : '#' = '#' → ∀ k' : CommentKind, k'.half ≠ e →
              (c' :: t').head? ≠ some k'.half := fun _ k' _ h => hno k' (Option.some.inj h)
          have hbody : ∀ r, Body k e ('#' :: c' :: t') r ↔ Body k e t' r := fun r =>
            (body_other (Ne.symm hce) (hcloser _) hopener).trans
              (body_other (Ne.symm hce') (fun h => absurd h (hno k)) (fun h => absurd h hne))
          refine (ih' k e t' (by omega) (fun hd => hdef ?_) f (by omega)).congr (le_refl n) hbody
          exact .other (Ne.symm hce) (hcloser _) hopener
            (.other (Ne.symm hce') (fun h => absurd h (hno k)) (fun h => absurd h hne) hd)
    · rw [commentLoop_other hce hhalf hhash]
      refine (ih' k e t (by omega) (fun hd => hdef ?_) f (by omega)).congr (le_refl n) fun r =>
        body_other (Ne.symm hce) (fun h => absurd h hhalf) (fun h => absurd h hhash)
      exact .other (Ne.symm hce) (fun h => absurd h hhalf) (fun h => absurd h hhash) hd

theorem readComment_spec {k : CommentKind} {s : Text} (h : Sound k s) :
    ReadsComment (readComment k) k s := by
  cases s with
  | nil =>
    refine ⟨fun r => ⟨fun h => (by cases h), ?_⟩, fun _ => ?_, fun _ => rfl⟩
    · rintro ⟨c, t, ht, -⟩
      cases ht
    · rintro ⟨r, c, t, ht, -⟩
      cases ht
  | cons c t =>
    have hends : ∀ r, Ends k (c :: t) r ↔ Body k (escChar c) t r := by
      intro r
      constructor
      · rintro ⟨c', t', ht, hb⟩
        cases ht
        exact hb
      · exact fun hb => ⟨c, t, rfl, hb⟩
    have hread : readComment k (c :: t) =
        commentLoop (t.length + 2) k (escChar c) .clear t := rfl
    rw [ReadsComment, hread]
    simp only [hends]
    rcases commentLoop_outcome t.length (t.length + 2) k (escChar c) t rfl (by omega) (h c t rfl) with
      ⟨r, hr, -, hunique⟩ | ⟨herr, hnone⟩
    · rw [hr]
      refine ⟨fun r' => ?_, fun h => (by cases h), fun h => absurd ⟨r, (hunique r).mpr rfl⟩ h⟩
      rw [hunique, Except.ok.injEq]
      exact eq_comm
    · rw [herr]
      refine ⟨fun r' => ⟨fun h => (by cases h), fun h => absurd h (hnone r')⟩, fun _ => ?_, fun _ => rfl⟩
      rintro ⟨r, h⟩
      exact hnone r h

/-- A closer has no defect. -/
theorem not_defect_closer {k : CommentKind} {e : Char} {s : Text} (hk : k.half ≠ e) (hhash : '#' ≠ e) :
    ¬ Defect k e (k.half :: '#' :: s) := by
  intro h
  generalize ht : k.half :: '#' :: s = t at h
  cases h with
  | escapes => exact hk (List.cons.inj ht).1
  | halves _ => exact half_ne_hash k (List.cons.inj (List.cons.inj ht).2).1.symm
  | hashes _ => exact half_ne_hash k (List.cons.inj ht).1
  | escaped _ => exact hk (List.cons.inj ht).1
  | inside _ _ _ => exact half_ne_hash k (List.cons.inj ht).1
  | nested _ _ _ _ => exact half_ne_hash k (List.cons.inj ht).1
  | other _ hcloser _ _ =>
    cases ht
    exact hcloser rfl hhash rfl

/-- An escaped character is none, unless it is an escape character. -/
theorem Defect.of_escaped {k : CommentKind} {e c : Char} {s : Text} (h : Defect k e (e :: c :: s))
    (hc : c ≠ e) : Defect k e s := by
  generalize ht : e :: c :: s = t at h
  cases h with
  | escapes => exact absurd (List.cons.inj (List.cons.inj ht).2).1 hc
  | halves hk => exact absurd (List.cons.inj ht).1.symm hk
  | hashes hhash => exact absurd (List.cons.inj ht).1.symm hhash
  | escaped h =>
    cases ht
    exact h
  | inside hhash _ _ => exact absurd (List.cons.inj ht).1.symm hhash
  | nested hhash _ _ _ => exact absurd (List.cons.inj ht).1.symm hhash
  | other hne _ _ _ => exact absurd (List.cons.inj ht).1.symm hne

/-- Where a comment is nested a defect is inside of it or behind it. -/
theorem Defect.of_nested {k k' : CommentKind} {e c : Char} {s : Text}
    (h : Defect k e ('#' :: k'.half :: c :: s)) (hhash : '#' ≠ e) (hk : k'.half ≠ e) :
    Defect k' (escChar c) s ∨ ∃ s', Body k' (escChar c) s s' ∧ Defect k e s' := by
  generalize ht : '#' :: k'.half :: c :: s = t at h
  cases h with
  | escapes => exact absurd (List.cons.inj ht).1 hhash
  | halves _ => exact absurd (List.cons.inj ht).1.symm (half_ne_hash k)
  | hashes _ => exact absurd (List.cons.inj (List.cons.inj ht).2).1 (half_ne_hash k')
  | escaped _ => exact absurd (List.cons.inj ht).1 hhash
  | @inside _ k'' _ _ _ _ _ h =>
    obtain ⟨hhalf, hs⟩ := List.cons.inj (List.cons.inj ht).2
    cases half_inj hhalf
    cases hs
    exact .inl h
  | @nested _ k'' _ _ _ _ _ _ hin hafter =>
    obtain ⟨hhalf, hs⟩ := List.cons.inj (List.cons.inj ht).2
    cases half_inj hhalf
    cases hs
    exact .inr ⟨_, hin, hafter⟩
  | other _ _ hopener _ =>
    cases ht
    exact absurd rfl (hopener rfl k' hk)

/-- **Block comments.**  The readers take a text whose reading has no defect as the comment that
it is. -/
theorem comments (s : Text) :
    (Sound .asterisk s → ReadsComment readBlockComment .asterisk s) ∧
      (Sound .pipe s → ReadsComment readSlBlockComment .pipe s) :=
  ⟨readComment_spec, readComment_spec⟩

/-- An escaped delimiter, a nested comment with one of its own, and a closer: the text
`\* #| \#|# *#` without its blanks, and the same with the kinds exchanged. -/
theorem comments_closer :
    ReadsComment readBlockComment .asterisk
        [' ', '\\', '*', '#', '|', ' ', '\\', '#', '|', '#', '*', '#'] ∧
      ReadsComment readSlBlockComment .pipe
        [' ', '\\', '|', '#', '*', ' ', '\\', '#', '*', '#', '|', '#'] := by
  have hsound : ∀ k k' : CommentKind,
      Sound k [' ', '\\', k.half, '#', k'.half, ' ', '\\', '#', k'.half, '#', k.half, '#'] := by
    rintro k k' c t ⟨⟩ h
    have hhalf : ∀ k : CommentKind, k.half ≠ '\\' := fun k => by cases k <;> decide
    have hhash : '#' ≠ '\\' := by decide
    rcases (h.of_escaped (hhalf k)).of_nested hhash (hhalf k') with hin | ⟨s', hbody, hafter⟩
    · exact not_defect_closer (hhalf k') hhash (hin.of_escaped hhash)
    · obtain ⟨c, t, ht, hbody⟩ := body_escape.mp hbody
      cases ht
      cases (body_closer (hhalf k') hhash).mp hbody
      exact not_defect_closer (hhalf k) hhash hafter
  exact ⟨(comments _).1 (hsound .asterisk .pipe), (comments _).2 (hsound .pipe .asterisk)⟩

/-- `**#` and `\\*#` close a comment, and are not taken for its end. -/
theorem closers_missed :
    (readBlockComment [' ', '*', '*', '#'] = .error unterminated ∧ Ends .asterisk [' ', '*', '*', '#'] []) ∧
      (readBlockComment [' ', '\\', '\\', '*', '#'] = .error unterminated ∧
        Ends .asterisk [' ', '\\', '\\', '*', '#'] []) ∧
      (readSlBlockComment [' ', '|', '|', '#'] = .error unterminated ∧ Ends .pipe [' ', '|', '|', '#'] []) := by
  refine ⟨⟨rfl, ' ', _, rfl, ?_⟩, ⟨rfl, ' ', _, rfl, ?_⟩, ⟨rfl, ' ', _, rfl, ?_⟩⟩
  · exact .other (by decide) (by decide) (fun h => absurd h (by decide)) (.closer (by decide) (by decide))
  · exact .escaped (.closer (by decide) (by decide))
  · exact .other (by decide) (by decide) (fun h => absurd h (by decide)) (.closer (by decide) (by decide))

end Idio.Comments
