/-
  Format.lean --- `%format`, of the type `args`.

  The format is read with an index that runs ahead of the character it is about, and the
  variables `idio-print-conversion-format` and `idio-print-conversion-precision` are assigned as
  a specification is read and put back after its argument is displayed.  How an argument is
  displayed is a parameter: it depends on the two variables, may fail and may assign to them.

  `traverse` is the same by the text that is left of the format.  A specification that the end of
  the format cuts off is read beyond the end, so `string-ref` complains and not `%format`; a call
  in the course of a display has the precision of the specification that is displayed; the sign
  of a number counts as one of its digits; and a precision of 0 is none.
-/
import Idio.Text

set_option autoImplicit false

namespace Idio.Format

/-! ## The state of a call -/

/-- `idio-print-conversion-format` and `idio-print-conversion-precision`; `none` for `#f`. -/
structure Vars where
  format : Option Char
  precision : Option Nat
  deriving DecidableEq, Repr

/-- What `%format` asks about arguments; `ε` is the type of the errors of these calls. -/
structure Printing (α ε : Type) where
  /-- `display-string`, with the variables that it leaves -/
  display : Vars → α → Except ε Text × Vars
  /-- `number?` -/
  number : α → Bool
  /-- `fixnum?` -/
  fixnum : α → Bool
  /-- the elements that `for-each` goes through -/
  elements : α → Except ε (List α)

/-- Why there is no text. -/
inductive Stop (ε : Type) where
  /-- `string-ref`: "out of bounds" -/
  | stringRef (i : Nat)
  /-- `%format`: "not enough args for %K at I" -/
  | notEnoughArgs (k : Char) (i : Nat)
  /-- an error of a display -/
  | raised (e : ε)
  deriving DecidableEq, Repr

/-- The variables, the arguments that are left, what every turn of the loop wrote to `osh` and
which arguments were displayed so far, with the variables they were displayed under. -/
structure State (α : Type) where
  vars : Vars
  args : List α
  osh : List Text
  shown : List (Vars × α)

section Model

variable {α ε : Type}

/-! ## A specification -/

/-- `string-ref` -/
def stringRef (fmt : Text) (i : Nat) : Except (Stop ε) Char :=
  match fmt[i]? with
  | some c => .ok c
  | none => .error (.stringRef i)

/-- `substring` -/
def substring (s : Text) (p0 pn : Nat) : Text := (s.drop p0).take (pn - p0)

/-- `read-number` of decimal digits -/
def readNumber (s : Text) : Nat := s.foldl (fun n c => 10 * n + (c.toNat - '0'.toNat)) 0

/-- What was read of a specification, up to the position before its last character. -/
structure Scan where
  leftAligned : Bool
  leftPad : Char
  specWidth : Nat
  specPrec : Option Nat
  i : Nat
  deriving DecidableEq, Repr

/-- The flag at `i + 1`. -/
def scanFlag (fmt : Text) (i : Nat) : Except (Stop ε) (Bool × Char × Nat) :=
  if i + 1 < fmt.length then do
    let c ← stringRef fmt (i + 1)
    if c = '-' then .ok (true, ' ', i + 1)
    else if c = ' ' then .ok (false, c, i + 1)
    else if c = '0' then .ok (false, c, i + 1)
    else .ok (false, ' ', i)
  else .ok (false, ' ', i)

/-- `w-loop` and `p-loop`, with the end of the digits so far. -/
def digitLoop (fmt : Text) : Nat → Nat → Nat → Except (Stop ε) (Nat × Nat)
  | 0, i, _ => .error (.stringRef (i + 1))
  | fuel + 1, i, we => do
      let c ← stringRef fmt (i + 1)
      if c.isDigit then digitLoop fmt fuel (i + 1) (we + 1) else .ok (i, we)

/-- The width after `i`. -/
def scanWidth (fmt : Text) (i : Nat) : Except (Stop ε) (Nat × Nat) := do
  let ws := i + 1
  let (i, we) ← digitLoop fmt fmt.length i ws
  .ok (if 0 < we - ws then readNumber (substring fmt ws we) else 0, i)

/-- The precision after `i`; `spec-prec` is 0 and the variable is not assigned where it has no
digits. -/
def scanPrec (fmt : Text) (i : Nat) : Except (Stop ε) (Option Nat × Nat) := do
  let c ← stringRef fmt (i + 1)
  if c = '.' then do
    let i := i + 1
    let ps := i + 1
    let (i, pe) ← digitLoop fmt fmt.length i ps
    .ok (if 0 < pe - ps then some (readNumber (substring fmt ps pe)) else none, i)
  else .ok (none, i)

/-- The specification after the `%` at `i`, but for its last character. -/
def scanSpec (fmt : Text) (i : Nat) : Except (Stop ε) Scan := do
  let (leftAligned, leftPad, i) ← scanFlag fmt i
  let (specWidth, i) ← scanWidth fmt i
  let (specPrec, i) ← scanPrec fmt i
  .ok ⟨leftAligned, leftPad, specWidth, specPrec, i⟩

/-! ## An argument -/

/-- What of a string is printed with a precision. -/
def cut : Option Nat → Text → Text
  | some prec, s => if 0 < prec ∧ prec < s.length then s.take prec else s
  | none, s => s

/-- `display-string v` -/
def displayString (p : Printing α ε) (v : α) (st : State α) :
    Except (Stop ε) Text × State α :=
  let r := p.display st.vars v
  ((match r.1 with
    | .ok s => .ok s
    | .error e => .error (.raised e)),
    { st with vars := r.2, shown := st.shown ++ [(st.vars, v)] })

/-- `sprintf "%K" e`: a call of `%format` with one argument, and its text printed once more. -/
def sprintf (p : Printing α ε) (k : Char) (e : α) (st : State α) :
    Except (Stop ε) Text × State α :=
  let orig := st.vars
  match displayString p e { st with vars := { st.vars with format := some k } } with
  | (.error x, st) => (.error x, { st with vars := orig })
  | (.ok vs, st) => (.ok (cut orig.precision (cut orig.precision vs)), { st with vars := orig })

/-- The elements of the list of a `%@`, with `c` of them done. -/
def splice (p : Printing α ε) : List α → Nat → Text → State α → Except (Stop ε) Text × State α
  | [], _, vs, st => (.ok vs, st)
  | e :: es, c, vs, st =>
      let vs := if 0 < c then vs ++ [' '] else vs
      match sprintf p (if p.fixnum e then 'd' else 's') e st with
      | (.error x, st) => (.error x, st)
      | (.ok s, st) => splice p es (c + 1) (vs ++ s) st

/-- `number? v` and `vs` for the specification whose last character is `k`, at `i`. -/
def convert (p : Printing α ε) (k : Char) (i : Nat) (st : State α) :
    Except (Stop ε) (Bool × Text) × State α :=
  if k = '%' then (.ok (false, ['%']), st)
  else match st.args with
    | [] => (.error (.notEnoughArgs k i), st)
    | v :: args =>
        let st := { st with args := args }
        if k = '@' then
          match p.elements v with
          | .error e => (.error (.raised e), st)
          | .ok es => match splice p es 0 [] st with
              | (.error x, st) => (.error x, st)
              | (.ok vs, st) => (.ok (false, vs), st)
        else
          match displayString p v { st with vars := { st.vars with format := some k } } with
          | (.error x, st) => (.error x, st)
          | (.ok vs, st) => (.ok (p.number v, vs), st)

/-- What is written for a converted argument; `puts` prints with the precision `prec`. -/
def layout (leftAligned : Bool) (leftPad : Char) (specWidth : Nat) (specPrec prec : Option Nat)
    (number : Bool) (vs : Text) : Text :=
  let sp := specPrec.getD 0
  let vsPrecWidth :=
    if 0 < sp ∧ ((number ∧ vs.length < sp) ∨ (¬ number ∧ sp < vs.length)) then sp
    else vs.length
  let vsPrec := if 0 < sp ∧ ¬ number ∧ sp < vs.length then vs.take sp else vs
  (if leftAligned then [] else List.replicate (specWidth - vsPrecWidth) leftPad) ++
    (if number then List.replicate (sp - vs.length) '0' else []) ++
    cut prec vsPrec ++
    (if leftAligned then List.replicate (specWidth - vsPrecWidth) ' ' else [])

/-! ## The loop -/

/-- One turn of `cp-loop`, with the position of the last character that was read. -/
def cpStep (p : Printing α ε) (fmt : Text) (orig : Vars) (i : Nat) (st : State α) :
    Except (Stop ε) Nat × State α :=
  match stringRef fmt i with
  | .error x => (.error x, st)
  | .ok c =>
    if c = '%' then
      match scanSpec fmt i with
      | .error x => (.error x, st)
      | .ok sc =>
        let st := match sc.specPrec with
          | some n => { st with vars := { st.vars with precision := some n } }
          | none => st
        if sc.i < fmt.length then
          let i := sc.i + 1
          match stringRef fmt i with
          | .error x => (.error x, st)
          | .ok k => match convert p k i st with
              | (.error x, st) => (.error x, st)
              | (.ok (number, vs), st) =>
                (.ok i, { st with
                  vars := orig
                  osh := st.osh ++ [layout sc.leftAligned sc.leftPad sc.specWidth sc.specPrec
                    orig.precision number vs] })
        else (.ok sc.i, st)
    else (.ok i, { st with osh := st.osh ++ [[c]] })

/-- `cp-loop` -/
def cpLoop (p : Printing α ε) (fmt : Text) (orig : Vars) :
    Nat → Nat → State α → Except (Stop ε) Unit × State α
  | 0, _, st => (.ok (), st)
  | fuel + 1, i, st =>
      if fmt.length ≤ i then (.ok (), st)
      else match cpStep p fmt orig i st with
        | (.error x, st) => (.error x, st)
        | (.ok i, st) => cpLoop p fmt orig fuel (i + 1) st

/-- What a call does: its text or why there is none, what the turns of the loop wrote, the
arguments that were displayed and the variables after it. -/
structure Outcome (α ε : Type) where
  result : Except (Stop ε) Text
  turns : List Text
  shown : List (Vars × α)
  vars : Vars

/-- `%format 'args fmt args`; the variables are put back however the loop ends. -/
def format (p : Printing α ε) (vars : Vars) (fmt : Text) (args : List α) : Outcome α ε :=
  let r := cpLoop p fmt vars fmt.length 0 ⟨vars, args, [], []⟩
  { result := match r.1 with
      | .ok () => .ok r.2.osh.flatten
      | .error x => .error x
    turns := r.2.osh
    shown := r.2.shown
    vars := { r.2.vars with format := vars.format, precision := vars.precision } }

/-! ## What a format says -/

/-- A specification: `%`, the flag, the width, the precision and the last character. -/
structure Spec where
  leftAligned : Bool
  leftPad : Char
  width : Nat
  prec : Option Nat
  k : Char
  deriving DecidableEq, Repr

/-- A part of a format; `cut` is a specification that the end of the format cuts off. -/
inductive Item where
  | char (c : Char)
  | spec (s : Spec)
  | cut
  deriving DecidableEq, Repr

/-- The flag, if there is one. -/
def parseFlag : Text → (Bool × Char) × Text
  | '-' :: s => ((true, ' '), s)
  | ' ' :: s => ((false, ' '), s)
  | '0' :: s => ((false, '0'), s)
  | s => ((false, ' '), s)

/-- The precision, if there is one. -/
def parsePrec : Text → Option Nat × Text
  | '.' :: s =>
      let ds := s.takeWhile Char.isDigit
      (if ds = [] then none else some (readNumber ds), s.dropWhile Char.isDigit)
  | s => (none, s)

/-- What a `%` begins, and the text after it. -/
def parseSpec (s : Text) : Option (Spec × Text) :=
  let flag := parseFlag s
  let prec := parsePrec (flag.2.dropWhile Char.isDigit)
  match prec.2 with
  | [] => none
  | k :: rest =>
      some (⟨flag.1.1, flag.1.2, readNumber (flag.2.takeWhile Char.isDigit), prec.1, k⟩, rest)

/-- The parts of a format; there is one for every one of `fuel`. -/
def parse : Nat → Text → List Item
  | 0, _ => []
  | _ + 1, [] => []
  | fuel + 1, c :: s =>
      if c = '%' then
        match parseSpec s with
        | none => [.cut]
        | some (sp, rest) => .spec sp :: parse fuel rest
      else .char c :: parse fuel s

/-- How the specifications end. -/
inductive End (ε : Type) where
  | complete
  /-- at one that is cut off -/
  | cut
  /-- at one that lacks its argument -/
  | lacking
  /-- at one whose argument is not displayed -/
  | raised (e : ε)
  deriving DecidableEq, Repr

/-- A part of the text: a character of the format, or an argument in its display form. -/
inductive Piece where
  | char (c : Char)
  | value (s : Spec) (number : Bool) (text : Text)

/-- The display forms of the elements of a list, and what is displayed. -/
def displayElements (p : Printing α ε) (prec : Option Nat) :
    List α → List (Vars × α) × Except ε (List Text)
  | [] => ([], .ok [])
  | e :: es =>
      let vars : Vars := ⟨some (if p.fixnum e then 'd' else 's'), prec⟩
      match (p.display vars e).1 with
      | .error x => ([(vars, e)], .error x)
      | .ok s =>
          let r := displayElements p prec es
          ((vars, e) :: r.1, r.2.map (cut prec (cut prec s) :: ·))

/-- The display form that a specification is replaced by, with the arguments after it, and what
is displayed. -/
def pick (p : Printing α ε) (prec : Option Nat) (k : Char) (args : List α) :
    List (Vars × α) × Except (End ε) ((Bool × Text) × List α) :=
  if k = '%' then ([], .ok ((false, ['%']), args))
  else match args with
    | [] => ([], .error .lacking)
    | v :: args =>
        if k = '@' then
          match p.elements v with
          | .error e => ([], .error (.raised e))
          | .ok es =>
              let r := displayElements p prec es
              (r.1, match r.2 with
                | .error e => .error (.raised e)
                | .ok ss => .ok ((false, [' '].intercalate ss), args))
        else
          let vars : Vars := ⟨some k, prec⟩
          ([(vars, v)], match (p.display vars v).1 with
            | .error e => .error (.raised e)
            | .ok s => .ok ((p.number v, s), args))

/-- The pieces of the text, what is displayed and how it ends.  A specification without a
precision has that of `dflt`. -/
structure Traversal (α ε : Type) where
  pieces : List Piece
  shown : List (Vars × α)
  ends : End ε

/-- Go through the parts of a format. -/
def traverse (p : Printing α ε) (dflt : Option Nat) : List Item → List α → Traversal α ε
  | [], _ => ⟨[], [], .complete⟩
  | .char c :: items, args =>
      let t := traverse p dflt items args
      { t with pieces := .char c :: t.pieces }
  | .cut :: _, _ => ⟨[], [], .cut⟩
  | .spec s :: items, args =>
      let r := pick p (s.prec.or dflt) s.k args
      match r.2 with
      | .error e => ⟨[], r.1, e⟩
      | .ok ((number, text), args) =>
          let t := traverse p dflt items args
          ⟨.value s number text :: t.pieces, r.1 ++ t.shown, t.ends⟩

/-- What the code writes for a piece. -/
def Piece.written (prec : Option Nat) : Piece → Text
  | .char c => [c]
  | .value s number text => layout s.leftAligned s.leftPad s.width s.prec prec number text

/-! ## The text of a specification -/

variable {p : Printing α ε} {fmt s rest : Text} {i j fuel : Nat} {st : State α} {k : Char}
  {q : Option Nat} {args : List α}

theorem stringRef_drop {c : Char} (h : fmt.drop i = c :: s) :
    (stringRef fmt i : Except (Stop ε) Char) = .ok c := by
  have hget : fmt[i]? = some c := by
    rw [← List.head?_drop, h]
    rfl
  rw [stringRef, hget]

theorem stringRef_end (h : fmt.drop i = []) :
    (stringRef fmt i : Except (Stop ε) Char) = .error (.stringRef i) := by
  have hget : fmt[i]? = none := by
    rw [← List.head?_drop, h]
    rfl
  rw [stringRef, hget]

theorem drop_tail {c : Char} (h : fmt.drop i = c :: s) : fmt.drop (i + 1) = s := by
  rw [← List.tail_drop, h]
  rfl

theorem lt_of_drop {c : Char} (h : fmt.drop i = c :: s) : i < fmt.length := by
  by_contra hge
  rw [List.drop_eq_nil_of_le (Nat.le_of_not_lt hge)] at h
  cases h

/-- The flag that is read is the one of the text. -/
theorem scanFlag_spec (fmt : Text) (i : Nat) :
    ∃ i', (scanFlag fmt i : Except (Stop ε) _) =
        .ok ((parseFlag (fmt.drop (i + 1))).1.1, (parseFlag (fmt.drop (i + 1))).1.2, i') ∧
      fmt.drop (i' + 1) = (parseFlag (fmt.drop (i + 1))).2 := by
  rw [scanFlag]
  cases hs : fmt.drop (i + 1) with
  | nil =>
    rw [if_neg (by rw [List.drop_eq_nil_iff] at hs; omega)]
    exact ⟨i, rfl, hs⟩
  | cons c s =>
    rw [if_pos (lt_of_drop hs), stringRef_drop hs]
    change ∃ i', (if c = '-' then _ else _) = _ ∧ _
    by_cases hminus : c = '-'
    · subst hminus
      exact ⟨i + 1, rfl, drop_tail hs⟩
    · by_cases hspace : c = ' '
      · subst hspace
        exact ⟨i + 1, rfl, drop_tail hs⟩
      · by_cases hzero : c = '0'
        · subst hzero
          exact ⟨i + 1, rfl, drop_tail hs⟩
        · have hnone : parseFlag (c :: s) = ((false, ' '), c :: s) := by
            rw [parseFlag]
            all_goals simp_all
          rw [if_neg hminus, if_neg hspace, if_neg hzero, hnone]
          exact ⟨i, rfl, hs⟩

/-- The loop goes over the digits to another character. -/
theorem digitLoop_stop {ds : Text} {c : Char} (hds : ∀ d ∈ ds, d.isDigit) (hc : ¬ c.isDigit)
    (hs : fmt.drop (i + 1) = ds ++ c :: s) (hfuel : ds.length < fuel) (we : Nat) :
    (digitLoop fmt fuel i we : Except (Stop ε) _) = .ok (i + ds.length, we + ds.length) ∧
      fmt.drop (i + ds.length + 1) = c :: s := by
  induction ds generalizing i we fuel with
  | nil =>
    obtain ⟨fuel, rfl⟩ := Nat.exists_eq_add_one_of_ne_zero (Nat.ne_of_gt hfuel)
    rw [digitLoop, stringRef_drop hs]
    exact ⟨if_neg hc, hs⟩
  | cons d ds ih =>
    obtain ⟨fuel, rfl⟩ := Nat.exists_eq_add_one_of_ne_zero (Nat.ne_of_gt (Nat.zero_lt_of_lt hfuel))
    obtain ⟨hloop, hdrop⟩ := ih (fun x hx => hds x (List.mem_cons_of_mem d hx)) (drop_tail hs)
      (Nat.lt_of_succ_lt_succ hfuel) (we + 1)
    have hlen : i + (d :: ds).length = i + 1 + ds.length := by
      rw [List.length_cons]
      omega
    rw [digitLoop, stringRef_drop hs]
    refine ⟨(if_pos (hds d List.mem_cons_self)).trans (hloop.trans ?_), hlen ▸ hdrop⟩
    rw [hlen, List.length_cons, Nat.add_right_comm we 1, Nat.add_assoc we]

/-- The end of the format is an error. -/
theorem digitLoop_end (hds : ∀ d ∈ fmt.drop (i + 1), d.isDigit) (we : Nat) :
    ∃ j, (digitLoop fmt fuel i we : Except (Stop ε) _) = .error (.stringRef j) := by
  induction fuel generalizing i we with
  | zero => exact ⟨i + 1, rfl⟩
  | succ fuel ih =>
    rw [digitLoop]
    cases hs : fmt.drop (i + 1) with
    | nil =>
      rw [stringRef_end hs]
      exact ⟨i + 1, rfl⟩
    | cons d s =>
      rw [hs] at hds
      obtain ⟨j, hj⟩ := ih (i := i + 1) (by
        rw [drop_tail hs]
        exact fun x hx => hds x (List.mem_cons_of_mem d hx)) (we + 1)
      rw [stringRef_drop hs]
      exact ⟨j, (if_pos (hds d List.mem_cons_self)).trans hj⟩

theorem mem_takeWhile_isDigit {c : Char} (h : c ∈ s.takeWhile Char.isDigit) : c.isDigit :=
  List.all_eq_true.mp List.all_takeWhile c h

/-- The loop goes over the digits that are next. -/
theorem digitLoop_spec (fuel i we : Nat) (hfuel : (fmt.drop (i + 1)).length < fuel) :
    match (fmt.drop (i + 1)).dropWhile Char.isDigit with
    | [] => ∃ j, (digitLoop fmt fuel i we : Except (Stop ε) _) = .error (.stringRef j)
    | c :: s => ∃ n, substring fmt (i + 1) (i + 1 + n) = (fmt.drop (i + 1)).takeWhile Char.isDigit ∧
        n = ((fmt.drop (i + 1)).takeWhile Char.isDigit).length ∧
        (digitLoop fmt fuel i we : Except (Stop ε) _) = .ok (i + n, we + n) ∧
        fmt.drop (i + n + 1) = c :: s := by
  have hsplit := List.takeWhile_append_dropWhile (p := Char.isDigit) (l := fmt.drop (i + 1))
  split
  · rename_i hnil
    rw [hnil, List.append_nil] at hsplit
    exact digitLoop_end (fun d hd => mem_takeWhile_isDigit (hsplit ▸ hd)) we
  · rename_i c s hcons
    rw [hcons] at hsplit
    have hc : ¬ c.isDigit := by
      have := List.head?_dropWhile_not Char.isDigit (fmt.drop (i + 1))
      rw [hcons] at this
      simpa using this
    have hlen : ((fmt.drop (i + 1)).takeWhile Char.isDigit).length ≤ (fmt.drop (i + 1)).length :=
      (List.takeWhile_sublist _).length_le
    obtain ⟨hloop, hdrop⟩ := digitLoop_stop (ε := ε) (fun d hd => mem_takeWhile_isDigit hd) hc
      hsplit.symm (Nat.lt_of_le_of_lt hlen hfuel) we
    refine ⟨_, ?_, rfl, hloop, hdrop⟩
    rw [substring, Nat.add_sub_cancel_left]
    exact (List.prefix_iff_eq_take.mp (List.takeWhile_prefix _)).symm

/-- The width that is read is the one of the text. -/
theorem scanWidth_spec (hfuel : (fmt.drop (i + 1)).length < fmt.length) :
    match (fmt.drop (i + 1)).dropWhile Char.isDigit with
    | [] => ∃ j, (scanWidth fmt i : Except (Stop ε) _) = .error (.stringRef j)
    | c :: s => ∃ j, (scanWidth fmt i : Except (Stop ε) _) =
          .ok (readNumber ((fmt.drop (i + 1)).takeWhile Char.isDigit), j) ∧
        fmt.drop (j + 1) = c :: s := by
  have hloop := digitLoop_spec (ε := ε) fmt.length i (i + 1) hfuel
  rw [scanWidth]
  split at hloop
  · obtain ⟨j, hj⟩ := hloop
    exact ⟨j, by rw [hj]; rfl⟩
  · obtain ⟨n, hsub, hn, hloop, hnext⟩ := hloop
    refine ⟨i + n, ?_, hnext⟩
    rw [hloop]
    change Except.ok (if 0 < i + 1 + n - (i + 1) then _ else 0, i + n) = _
    rw [hsub, Nat.add_sub_cancel_left]
    split
    · rfl
    · rw [List.eq_nil_of_length_eq_zero (hn.symm.trans (by omega))]
      rfl

/-- The precision that is read is the one of the text. -/
theorem scanPrec_spec {c : Char} (hdrop : fmt.drop (i + 1) = c :: s) :
    match (parsePrec (c :: s)).2 with
    | [] => ∃ j, (scanPrec fmt i : Except (Stop ε) _) = .error (.stringRef j)
    | k :: rest => ∃ j, (scanPrec fmt i : Except (Stop ε) _) = .ok ((parsePrec (c :: s)).1, j) ∧
        fmt.drop (j + 1) = k :: rest := by
  rw [scanPrec, stringRef_drop hdrop]
  by_cases hc : c = '.'
  · subst hc
    have htail := drop_tail hdrop
    have hfuel : (fmt.drop (i + 1 + 1)).length < fmt.length := by
      rw [List.length_drop]
      have := lt_of_drop hdrop
      omega
    have hloop := digitLoop_spec (ε := ε) fmt.length (i + 1) (i + 1 + 1) hfuel
    rw [htail] at hloop
    rw [parsePrec]
    dsimp only
    split at hloop
    · rename_i hnil
      obtain ⟨j, hj⟩ := hloop
      rw [hnil]
      refine ⟨j, ?_⟩
      change (digitLoop fmt fmt.length (i + 1) (i + 1 + 1) >>= _) = _
      rw [hj]
      rfl
    · rename_i k rest hcons
      obtain ⟨n, hsub, hn, hloop, hnext⟩ := hloop
      rw [hcons]
      refine ⟨i + 1 + n, ?_, hnext⟩
      change (digitLoop fmt fmt.length (i + 1) (i + 1 + 1) >>= _) = _
      rw [hloop]
      change Except.ok (if 0 < i + 1 + 1 + n - (i + 1 + 1) then _ else none, i + 1 + n) = _
      rw [hsub, Nat.add_sub_cancel_left]
      by_cases hds : s.takeWhile Char.isDigit = []
      · rw [if_pos hds, if_neg (by rw [hn, hds]; decide)]
      · rw [if_neg hds, if_pos (by rw [hn]; exact List.length_pos_of_ne_nil hds)]
  · have hnone : parsePrec (c :: s) = (none, c :: s) := by
      rw [parsePrec]
      rintro s' ⟨rfl, -⟩
      exact hc rfl
    rw [hnone]
    exact ⟨i, if_neg hc, hdrop⟩

/-- What is read of a specification is what the text says, and one that is cut off is an error. -/
theorem scanSpec_spec (hlt : i < fmt.length) :
    match parseSpec (fmt.drop (i + 1)) with
    | none => ∃ j, (scanSpec fmt i : Except (Stop ε) _) = .error (.stringRef j)
    | some (sp, rest) => ∃ j, (scanSpec fmt i : Except (Stop ε) _) =
          .ok ⟨sp.leftAligned, sp.leftPad, sp.width, sp.prec, j⟩ ∧
        fmt.drop (j + 1) = sp.k :: rest := by
  obtain ⟨i', hflag, hdrop⟩ := scanFlag_spec (ε := ε) fmt i
  have hfuel : (fmt.drop (i' + 1)).length < fmt.length := by
    rw [List.length_drop]
    omega
  have hwidth := scanWidth_spec (ε := ε) hfuel
  rw [scanSpec, hflag, parseSpec]
  dsimp only
  rw [hdrop] at hwidth
  split at hwidth
  · rename_i hnil
    obtain ⟨j, hj⟩ := hwidth
    rw [hnil]
    refine ⟨j, ?_⟩
    change (scanWidth fmt i' >>= _) = _
    rw [hj]
    rfl
  · rename_i c s hcons
    obtain ⟨i₂, hwidth, hdrop₂⟩ := hwidth
    have hprec := scanPrec_spec (ε := ε) hdrop₂
    rw [hcons]
    cases hnext : (parsePrec (c :: s)).2 with
    | nil =>
      rw [hnext] at hprec
      obtain ⟨j, hj⟩ := hprec
      refine ⟨j, ?_⟩
      change (scanWidth fmt i' >>= _) = _
      rw [hwidth]
      change (scanPrec fmt i₂ >>= _) = _
      rw [hj]
      rfl
    | cons k rest =>
      rw [hnext] at hprec
      obtain ⟨j, hj, hdrop₃⟩ := hprec
      refine ⟨j, ?_, hdrop₃⟩
      change (scanWidth fmt i' >>= _) = _
      rw [hwidth]
      change (scanPrec fmt i₂ >>= _) = _
      rw [hj]
      rfl

/-! ## The arguments of a specification -/

/-- The error that a call ends with. -/
def Ends : End ε → Stop ε → Prop
  | .cut, .stringRef _ => True
  | .lacking, .notEnoughArgs _ _ => True
  | .raised e, .raised e' => e = e'
  | _, _ => False

/-- A nested call displays its argument with the precision of the call it is made in. -/
theorem sprintf_eq (k : Char) (e : α) (st : State α) :
    sprintf p k e st =
      ((match (p.display ⟨some k, st.vars.precision⟩ e).1 with
        | .ok s => .ok (cut st.vars.precision (cut st.vars.precision s))
        | .error x => .error (.raised x)),
        { st with shown := st.shown ++ [(⟨some k, st.vars.precision⟩, e)] }) := by
  rw [sprintf, displayString]
  dsimp only
  cases (p.display ⟨some k, st.vars.precision⟩ e).1 <;> rfl

/-- Texts with a space before each. -/
def spaced (ss : List Text) : Text := (ss.map (' ' :: ·)).flatten

theorem intercalate_cons (s : Text) (ss : List Text) :
    [' '].intercalate (s :: ss) = s ++ spaced ss := by
  induction ss generalizing s with
  | nil => simp [spaced]
  | cons t ss ih =>
    rw [List.intercalate_cons_cons, ih]
    simp [spaced]

/-- The elements that follow others. -/
theorem splice_rest (es : List α) (c : Nat) (vs : Text) (st : State α) :
    match displayElements p st.vars.precision es with
    | (shown, .ok ss) => splice p es (c + 1) vs st =
        (.ok (vs ++ spaced ss), { st with shown := st.shown ++ shown })
    | (shown, .error e) => splice p es (c + 1) vs st =
        (.error (.raised e), { st with shown := st.shown ++ shown }) := by
  induction es generalizing c vs st with
  | nil => simp [displayElements, splice, spaced]
  | cons e es ih =>
    rw [displayElements, splice, if_pos (Nat.succ_pos c), sprintf_eq]
    dsimp only
    cases (p.display ⟨some (if p.fixnum e then 'd' else 's'), st.vars.precision⟩ e).1 with
    | error x => rfl
    | ok s =>
      have hrest := ih (c + 1) (vs ++ [' '] ++ cut st.vars.precision (cut st.vars.precision s))
        { st with shown := st.shown ++
          [(⟨some (if p.fixnum e then 'd' else 's'), st.vars.precision⟩, e)] }
      dsimp only at hrest ⊢
      cases hr : displayElements p st.vars.precision es with
      | mk shown r =>
        rw [hr] at hrest
        cases r with
        | error x =>
          dsimp only [Except.map] at hrest ⊢
          rw [hrest]
          simp
        | ok ss =>
          dsimp only [Except.map] at hrest ⊢
          rw [hrest]
          simp [spaced]

/-- The elements of a list are displayed one after the other. -/
theorem splice_spec (es : List α) (st : State α) :
    match displayElements p st.vars.precision es with
    | (shown, .ok ss) => splice p es 0 [] st =
        (.ok ([' '].intercalate ss), { st with shown := st.shown ++ shown })
    | (shown, .error e) => splice p es 0 [] st =
        (.error (.raised e), { st with shown := st.shown ++ shown }) := by
  cases es with
  | nil => simp [displayElements, splice]
  | cons e es =>
    rw [displayElements, splice, if_neg (Nat.lt_irrefl 0), sprintf_eq]
    dsimp only
    cases (p.display ⟨some (if p.fixnum e then 'd' else 's'), st.vars.precision⟩ e).1 with
    | error x => rfl
    | ok s =>
      have hrest := splice_rest (p := p) es 0 ([] ++ cut st.vars.precision (cut st.vars.precision s))
        { st with shown := st.shown ++
          [(⟨some (if p.fixnum e then 'd' else 's'), st.vars.precision⟩, e)] }
      dsimp only at hrest ⊢
      cases hr : displayElements p st.vars.precision es with
      | mk shown r =>
        rw [hr] at hrest
        cases r with
        | error x =>
          dsimp only [Except.map] at hrest ⊢
          rw [hrest]
          simp
        | ok ss =>
          dsimp only [Except.map] at hrest ⊢
          rw [hrest, intercalate_cons]
          simp

/-- A specification takes its argument, and displays it, with the precision of the moment. -/
theorem convert_spec (k : Char) (i : Nat) (st : State α) :
    match pick p st.vars.precision k st.args with
    | (shown, .ok (x, args)) => ∃ vars, convert p k i st =
        (.ok x, ⟨vars, args, st.osh, st.shown ++ shown⟩)
    | (shown, .error e) => ∃ stop st', convert p k i st = (.error stop, st') ∧ Ends e stop ∧
        st'.shown = st.shown ++ shown := by
  unfold pick convert
  by_cases hpercent : k = '%'
  · rw [if_pos hpercent, if_pos hpercent]
    exact ⟨st.vars, by simp⟩
  · rw [if_neg hpercent, if_neg hpercent]
    cases hargs : st.args with
    | nil => exact ⟨_, _, rfl, trivial, by simp⟩
    | cons v args =>
      dsimp only
      by_cases hat : k = '@'
      · rw [if_pos hat, if_pos hat]
        cases p.elements v with
        | error e => exact ⟨_, _, rfl, rfl, by simp⟩
        | ok es =>
          have hsplice := splice_spec (p := p) es { st with args := args }
          dsimp only at hsplice ⊢
          cases hr : displayElements p st.vars.precision es with
          | mk shown r =>
            rw [hr] at hsplice
            cases r with
            | error e =>
              dsimp only at hsplice ⊢
              rw [hsplice]
              exact ⟨_, _, rfl, rfl, rfl⟩
            | ok ss =>
              dsimp only at hsplice ⊢
              rw [hsplice]
              exact ⟨_, rfl⟩
      · rw [if_neg hat, if_neg hat, displayString]
        dsimp only
        cases (p.display ⟨some k, st.vars.precision⟩ v).1 with
        | error e => exact ⟨_, _, rfl, rfl, rfl⟩
        | ok s => exact ⟨_, rfl⟩

/-! ## The loop goes through the parts of the format -/

theorem parseFlag_length (s : Text) : (parseFlag s).2.length ≤ s.length := by
  unfold parseFlag
  split <;> simp

theorem parsePrec_length (s : Text) : (parsePrec s).2.length ≤ s.length := by
  unfold parsePrec
  split
  · rename_i s
    exact Nat.le_succ_of_le (List.dropWhile_sublist Char.isDigit).length_le
  · exact Nat.le_refl _

theorem parseSpec_length {sp : Spec} (h : parseSpec s = some (sp, rest)) :
    rest.length < s.length := by
  rw [parseSpec] at h
  have hflag := parseFlag_length s
  have hwidth : ((parseFlag s).2.dropWhile Char.isDigit).length ≤ (parseFlag s).2.length :=
    (List.dropWhile_sublist Char.isDigit).length_le
  have hprec := parsePrec_length ((parseFlag s).2.dropWhile Char.isDigit)
  cases hk : (parsePrec ((parseFlag s).2.dropWhile Char.isDigit)).2 with
  | nil =>
    rw [hk] at h
    cases h
  | cons k rest' =>
    rw [hk] at h hprec
    cases h
    rw [List.length_cons] at hprec
    omega

/-- The texts of some pieces, as they are written under a precision. -/
def written (prec : Option Nat) (pieces : List Piece) : List Text := pieces.map (Piece.written prec)

/-- What the loop does where the parts of the format are gone through so. -/
def Traversal.Yields (t : Traversal α ε) (prec : Option Nat) (st : State α)
    (r : Except (Stop ε) Unit × State α) : Prop :=
  r.2.shown = st.shown ++ t.shown ∧
    match r.1 with
    | .ok () => t.ends = .complete ∧ r.2.osh = st.osh ++ written prec t.pieces
    | .error stop => Ends t.ends stop

/-- A piece is written, and then the rest is gone through. -/
theorem Traversal.Yields.cons {t : Traversal α ε} {st₁ : State α} {x : Piece}
    {shown : List (Vars × α)} {r : Except (Stop ε) Unit × State α} (h : t.Yields q st₁ r)
    (hosh : st₁.osh = st.osh ++ [x.written q]) (hshown : st₁.shown = st.shown ++ shown) :
    (⟨x :: t.pieces, shown ++ t.shown, t.ends⟩ : Traversal α ε).Yields q st r := by
  obtain ⟨hs, hr⟩ := h
  refine ⟨by rw [hs, hshown, List.append_assoc], ?_⟩
  obtain ⟨r, st'⟩ := r
  cases r with
  | error stop => exact hr
  | ok u =>
    refine ⟨hr.1, hr.2.trans ?_⟩
    rw [hosh, List.append_assoc]
    rfl

/-- The loop, by induction on the characters that are left; the variables are those of the call
at the beginning of every turn. -/
theorem cpLoop_spec (orig : Vars) (fuel i : Nat) (st : State α) (hvars : st.vars = orig)
    (hfuel : (fmt.drop i).length ≤ fuel) :
    (traverse p orig.precision (parse fuel (fmt.drop i)) st.args).Yields orig.precision st
      (cpLoop p fmt orig fuel i st) := by
  induction fuel generalizing i st with
  | zero => exact ⟨(List.append_nil _).symm, rfl, (List.append_nil _).symm⟩
  | succ fuel ih =>
    rw [cpLoop]
    cases hs : fmt.drop i with
    | nil =>
      rw [if_pos (List.drop_eq_nil_iff.mp hs)]
      exact ⟨(List.append_nil _).symm, rfl, (List.append_nil _).symm⟩
    | cons c s =>
      have hlt := lt_of_drop hs
      have htail := drop_tail hs
      rw [hs, List.length_cons] at hfuel
      rw [if_neg (Nat.not_le_of_lt hlt), cpStep, stringRef_drop hs, parse]
      dsimp only
      by_cases hc : c = '%'
      · rw [if_pos hc, if_pos hc]
        have hscan := scanSpec_spec (ε := ε) hlt
        rw [htail] at hscan
        cases hspec : parseSpec s with
        | none =>
          rw [hspec] at hscan
          obtain ⟨j, hj⟩ := hscan
          rw [hj]
          exact ⟨(List.append_nil _).symm, trivial⟩
        | some r =>
          obtain ⟨sp, rest⟩ := r
          rw [hspec] at hscan
          obtain ⟨j, hj, hdrop⟩ := hscan
          have hlen := parseSpec_length hspec
          -- the variable while the argument is displayed
          obtain ⟨st₁, hst₁, hprec, hargs, hosh, hshown⟩ : ∃ st₁ : State α,
              (match sp.prec with
                | some n => { st with vars := { st.vars with precision := some n } }
                | none => st) = st₁ ∧ st₁.vars.precision = sp.prec.or orig.precision ∧
              st₁.args = st.args ∧ st₁.osh = st.osh ∧ st₁.shown = st.shown := by
            subst hvars
            cases sp.prec with
            | none => exact ⟨_, rfl, rfl, rfl, rfl, rfl⟩
            | some n => exact ⟨_, rfl, rfl, rfl, rfl, rfl⟩
          have hjlt : j < fmt.length := by
            have := lt_of_drop hdrop
            omega
          have hconvert := convert_spec (p := p) sp.k (j + 1) st₁
          rw [hprec, hargs, hosh, hshown] at hconvert
          rw [hj]
          dsimp only
          rw [hst₁, if_pos hjlt, stringRef_drop hdrop, traverse]
          dsimp only
          cases hpick : pick p (sp.prec.or orig.precision) sp.k st.args with
          | mk shown res =>
            rw [hpick] at hconvert
            cases res with
            | error e =>
              obtain ⟨stop, st', hrun, hends, hst'⟩ := hconvert
              rw [hrun]
              exact ⟨hst', hends⟩
            | ok x =>
              obtain ⟨⟨number, text⟩, args⟩ := x
              obtain ⟨vars, hrun⟩ := hconvert
              rw [hrun]
              dsimp only
              have hrest := ih (j + 1 + 1)
                ⟨orig, args, st.osh ++ [layout sp.leftAligned sp.leftPad sp.width sp.prec
                  orig.precision number text], st.shown ++ shown⟩ rfl (by
                    rw [drop_tail hdrop]
                    omega)
              rw [drop_tail hdrop] at hrest
              exact hrest.cons rfl rfl
      · rw [if_neg hc, if_neg hc]
        have hrest := ih (i + 1) { st with osh := st.osh ++ [[c]] } hvars (by
          rw [htail]
          omega)
        rw [htail] at hrest
        rw [traverse]
        have hosh : st.osh ++ [[c]] = st.osh ++ [(Piece.char c).written orig.precision] := rfl
        have hshown : st.shown = st.shown ++ [] := (List.append_nil _).symm
        exact hrest.cons hosh hshown

/-! ## What a call should do -/

/-- The digits of a number that is displayed for `%k`; a sign, a point and an exponent's letter
are none. -/
def digits (k : Char) (text : Text) : Nat :=
  text.countP fun c => c.isDigit || ((k = 'x' || k = 'X') && c.isAlpha)

/-- The text, or its first code points where there is a precision. -/
def cutTo : Option Nat → Text → Text
  | some prec, text => text.take prec
  | none, text => text

/-- The text that a specification is replaced by: a number padded on the left with zeros to as
many digits as the precision, another value cut to that many code points, and then padded to
the width. -/
def Piece.specified : Piece → Text
  | .char c => [c]
  | .value s number text =>
      let body :=
        if number then List.replicate (s.prec.getD 0 - digits s.k text) '0' ++ text
        else cutTo s.prec text
      if s.leftAligned then body ++ List.replicate (s.width - body.length) ' '
      else List.replicate (s.width - body.length) s.leftPad ++ body

/-- A result is the one that is specified: every turn writes its text, and these make the text
that is returned; or `%format` says that the format or its arguments are not right; or the error
of a display. -/
def Meets : Except (Stop ε) Text → List Text → End ε → List Text → Prop
  | .ok text, turns, .complete, texts => turns = texts ∧ text = texts.flatten
  | .error (.notEnoughArgs _ _), _, .lacking, _ => True
  | .error (.notEnoughArgs _ _), _, .cut, _ => True
  | .error (.raised e), _, .raised e', _ => e = e'
  | _, _, _, _ => False

/-- A call does what is specified: the texts or an error, every argument displayed with the last
character of its specification and the precision of it, and the variables as they were. -/
def AsSpecified (p : Printing α ε) (vars : Vars) (fmt : Text) (args : List α) : Prop :=
  let t := traverse p none (parse fmt.length fmt) args
  let r := format p vars fmt args
  r.vars = vars ∧ r.shown = t.shown ∧ Meets r.result r.turns t.ends (t.pieces.map Piece.specified)

/-- A value that is no number is to be cut to nothing. -/
def Piece.CutToNothing : Piece → Prop
  | .char _ => False
  | .value s number _ => number = false ∧ s.prec = some 0

/-- Nothing is printed of the value but what may be the padding of the width. -/
def OnlyPadding (q : Option Nat) : Piece → Prop
  | .char _ => True
  | .value s _ text => s.width - text.length + (cut q text).length = s.width ∧
      ∀ c ∈ cut q text, c = if s.leftAligned then ' ' else s.leftPad

/-- What is printed of a piece while the precision is `q` is all of it. -/
def Uncut (q : Option Nat) : Piece → Prop
  | .char _ => True
  | .value s number text =>
      let prec := s.prec.getD 0
      let vsPrec := if 0 < prec ∧ ¬ number ∧ prec < text.length then text.take prec else text
      cut q vsPrec = vsPrec

/-- A number whose precision asks for more digits than it has has nothing but digits, or else is
padded with zeros to the width. -/
def DigitsOnly : Piece → Prop
  | .char _ => True
  | .value s number text =>
      let prec := s.prec.getD 0
      number → prec ≤ digits s.k text ∨ digits s.k text = text.length ∨
        (s.leftAligned = false ∧ s.leftPad = '0' ∧
          text.length + (prec - digits s.k text) ≤ s.width)

/-- Nothing is printed of a value that is to be cut to nothing, and of another one nothing is cut
and no sign counts as a digit. -/
def Kept (q : Option Nat) (x : Piece) : Prop :=
  (x.CutToNothing → OnlyPadding q x) ∧ (¬ x.CutToNothing → Uncut q x ∧ DigitsOnly x)

/-- No specification is cut off; the precision is not set when `%format` is called, or else each
specification that displays something has a precision of its own; and if the text is printed,
its pieces are kept. -/
def Sound (p : Printing α ε) (vars : Vars) (fmt : Text) (args : List α) : Prop :=
  let t := traverse p none (parse fmt.length fmt) args
  t.ends ≠ .cut ∧
    (vars.precision = none ∨ ∀ x ∈ t.shown, x.1.precision ≠ none) ∧
    (t.ends = .complete → ∀ x ∈ t.pieces, Kept vars.precision x)

theorem digits_le (k : Char) (text : Text) : digits k text ≤ text.length := List.countP_le_length

theorem cut_length_le (q : Option Nat) (s : Text) : (cut q s).length ≤ s.length := by
  rw [cut.eq_def]
  split
  · split
    · rw [List.length_take]
      omega
    · exact Nat.le_refl _
  · exact Nat.le_refl _

theorem cut_eq_of_length {q : Option Nat} (h : (cut q s).length = s.length) : cut q s = s := by
  unfold cut at h ⊢
  split at h
  · split at h
    · rw [List.length_take] at h
      omega
    · rename_i hnot
      rw [if_neg hnot]
  · rfl

variable {leftAligned : Bool} {leftPad : Char} {width : Nat} {prec : Option Nat} {text : Text}

/-- A text between the paddings. -/
def padded (leftAligned : Bool) (leftPad : Char) (n : Nat) (body : Text) : Text :=
  (if leftAligned then [] else List.replicate n leftPad) ++ body ++
    (if leftAligned then List.replicate n ' ' else [])

theorem padded_length (leftAligned : Bool) (leftPad : Char) (n : Nat) (body : Text) :
    (padded leftAligned leftPad n body).length = n + body.length := by
  cases leftAligned <;> simp [padded, Nat.add_comm]

theorem padded_inj {n : Nat} {b b' : Text}
    (h : padded leftAligned leftPad n b = padded leftAligned leftPad n b') : b = b' := by
  cases leftAligned
  · simpa [padded] using h
  · simpa [padded] using h

/-- A value that is no number is cut and padded. -/
theorem layout_other :
    layout leftAligned leftPad width prec q false text =
      let vsPrec := if 0 < prec.getD 0 ∧ prec.getD 0 < text.length then text.take (prec.getD 0)
        else text
      padded leftAligned leftPad (width - vsPrec.length) (cut q vsPrec) := by
  have hlen : (if 0 < prec.getD 0 ∧ prec.getD 0 < text.length then prec.getD 0 else text.length) =
      (if 0 < prec.getD 0 ∧ prec.getD 0 < text.length then text.take (prec.getD 0)
        else text).length := by
    split
    · rw [List.length_take]
      omega
    · rfl
  simp [layout, padded, ← hlen]

/-- A number is padded with zeros to the precision, and then to the width. -/
theorem layout_number :
    layout leftAligned leftPad width prec q true text =
      padded leftAligned leftPad (width - max text.length (prec.getD 0))
        (List.replicate (prec.getD 0 - text.length) '0' ++ cut q text) := by
  have hlen : (if 0 < prec.getD 0 ∧ text.length < prec.getD 0 then prec.getD 0 else text.length) =
      max text.length (prec.getD 0) := by
    split <;> omega
  simp [layout, padded, hlen]

/-- A value that is cut to a precision is cut to one that is not 0. -/
theorem specified_other (k : Char) (hprec : prec ≠ some 0) :
    (Piece.value ⟨leftAligned, leftPad, width, prec, k⟩ false text).specified =
      let vsPrec := if 0 < prec.getD 0 ∧ prec.getD 0 < text.length then text.take (prec.getD 0)
        else text
      padded leftAligned leftPad (width - vsPrec.length) vsPrec := by
  have hbody : cutTo prec text =
      if 0 < prec.getD 0 ∧ prec.getD 0 < text.length then text.take (prec.getD 0) else text := by
    cases prec with
    | none => rfl
    | some n =>
      have hn : 0 < n := Nat.pos_of_ne_zero fun h => hprec (h ▸ rfl)
      rw [cutTo, Option.getD_some]
      by_cases h : n < text.length
      · rw [if_pos ⟨hn, h⟩]
      · rw [if_neg (fun hc => h hc.2), List.take_of_length_le (Nat.le_of_not_lt h)]
  cases leftAligned <;> simp [Piece.specified, padded, hbody]

theorem specified_nothing (k : Char) :
    (Piece.value ⟨leftAligned, leftPad, width, some 0, k⟩ false text).specified =
      List.replicate width (if leftAligned then ' ' else leftPad) := by
  cases leftAligned <;> simp [Piece.specified, cutTo]

theorem specified_number (k : Char) :
    (Piece.value ⟨leftAligned, leftPad, width, prec, k⟩ true text).specified =
      padded leftAligned leftPad (width - (text.length + (prec.getD 0 - digits k text)))
        (List.replicate (prec.getD 0 - digits k text) '0' ++ text) := by
  cases leftAligned <;> simp [Piece.specified, padded, Nat.add_comm]

theorem padded_eq_replicate {n : Nat} {body : Text} :
    padded leftAligned leftPad n body =
        List.replicate width (if leftAligned then ' ' else leftPad) ↔
      n + body.length = width ∧ ∀ c ∈ body, c = if leftAligned then ' ' else leftPad := by
  rw [List.eq_replicate_iff, padded_length]
  refine and_congr_right fun _ => ?_
  cases leftAligned <;> simp [padded, or_imp]

theorem padded_count (n : Nat) (body : Text) :
    (padded leftAligned leftPad n body).count '0' =
      (if leftAligned = false ∧ leftPad = '0' then n else 0) + body.count '0' := by
  have hspace : (List.replicate n ' ').count '0' = 0 := by
    rw [List.count_replicate]
    rfl
  cases leftAligned
  · simp [padded, List.count_replicate]
  · simp [padded, hspace]

/-- Two paddings of one number agree where they are as long and have as many zeros. -/
theorem padded_number {a b : Nat} (hle : text.length + a ≤ text.length + b)
    (h : padded leftAligned leftPad (width - (text.length + a)) (List.replicate a '0' ++ text) =
      padded leftAligned leftPad (width - (text.length + b)) (List.replicate b '0' ++ text)) :
    a = b ∨ (leftAligned = false ∧ leftPad = '0' ∧ text.length + b ≤ width) := by
  have hlen := congrArg List.length h
  have hcount := congrArg (List.count '0') h
  rw [padded_length, padded_length, List.length_append, List.length_append, List.length_replicate,
    List.length_replicate] at hlen
  rw [padded_count, padded_count, List.count_append, List.count_append, List.count_replicate_self,
    List.count_replicate_self] at hcount
  by_cases hzero : leftAligned = false ∧ leftPad = '0'
  · refine (Nat.eq_or_lt_of_le (Nat.le_of_add_le_add_left hle)).imp_right fun hlt => ?_
    exact ⟨hzero.1, hzero.2, by omega⟩
  · rw [if_neg hzero, if_neg hzero] at hcount
    exact .inl (by omega)

/-- A value to be cut to nothing is not cut. -/
theorem written_nothing_iff (k : Char) :
    (Piece.value ⟨leftAligned, leftPad, width, some 0, k⟩ false text).written q =
        (Piece.value ⟨leftAligned, leftPad, width, some 0, k⟩ false text).specified ↔
      OnlyPadding q (.value ⟨leftAligned, leftPad, width, some 0, k⟩ false text) := by
  rw [Piece.written, layout_other, specified_nothing]
  exact padded_eq_replicate

/-- Another piece is written as it is specified just if nothing is cut and no sign is a digit. -/
theorem written_value_iff (q : Option Nat) (x : Piece) (hx : ¬ x.CutToNothing) :
    x.written q = x.specified ↔ Uncut q x ∧ DigitsOnly x := by
  cases x with
  | char c => exact ⟨fun _ => ⟨trivial, trivial⟩, fun _ => rfl⟩
  | value sp number text =>
    obtain ⟨leftAligned, leftPad, width, prec, k⟩ := sp
    cases number with
    | false =>
      have huncut : Uncut q (.value ⟨leftAligned, leftPad, width, prec, k⟩ false text) ↔
          cut q (if 0 < prec.getD 0 ∧ prec.getD 0 < text.length then text.take (prec.getD 0)
            else text) =
            if 0 < prec.getD 0 ∧ prec.getD 0 < text.length then text.take (prec.getD 0)
            else text := by
        simp [Uncut]
      have hdigits : DigitsOnly (.value ⟨leftAligned, leftPad, width, prec, k⟩ false text) :=
        fun h => by cases h
      rw [Piece.written, layout_other, specified_other k fun h => hx ⟨rfl, h⟩, huncut]
      constructor
      · exact fun h => ⟨padded_inj h, hdigits⟩
      · intro h
        dsimp only
        rw [h.1]
    | true =>
      have huncut : Uncut q (.value ⟨leftAligned, leftPad, width, prec, k⟩ true text) ↔
          cut q text = text := by
        simp [Uncut]
      have hle := digits_le k text
      have hmax : max text.length (prec.getD 0) = text.length + (prec.getD 0 - text.length) := by
        omega
      rw [huncut, DigitsOnly, Piece.written, layout_number, specified_number, hmax]
      dsimp only
      constructor
      · intro h
        have hcut : cut q text = text := by
          have hlen := congrArg List.length h
          rw [padded_length, padded_length, List.length_append, List.length_append,
            List.length_replicate, List.length_replicate] at hlen
          have := cut_length_le q text
          exact cut_eq_of_length (by omega)
        rw [hcut] at h
        refine ⟨hcut, fun _ => ?_⟩
        rcases padded_number (by omega) h with heq | hzero
        · omega
        · exact .inr (.inr hzero)
      · rintro ⟨hcut, hd⟩
        rw [hcut]
        by_cases heq : prec.getD 0 - text.length = prec.getD 0 - digits k text
        · rw [heq]
        · rcases hd rfl with h | h | ⟨rfl, rfl, hw⟩
          · omega
          · omega
          · simp only [padded, Bool.false_eq_true, if_false, List.append_nil, ← List.append_assoc,
              List.replicate_append_replicate]
            congr 2
            omega

theorem written_eq_iff (q : Option Nat) (x : Piece) : x.written q = x.specified ↔ Kept q x := by
  by_cases hx : x.CutToNothing
  · have hkept : Kept q x ↔ OnlyPadding q x :=
      ⟨fun h => h.1 hx, fun h => ⟨fun _ => h, fun hnot => absurd hx hnot⟩⟩
    rw [hkept]
    cases x with
    | char c => exact hx.elim
    | value sp number text =>
      obtain ⟨leftAligned, leftPad, width, prec, k⟩ := sp
      obtain ⟨rfl, hprec⟩ := hx
      have hprec : prec = some 0 := hprec
      subst hprec
      exact written_nothing_iff k
  · rw [written_value_iff q x hx]
    exact ⟨fun h => ⟨fun hnot => absurd hnot hx, fun _ => h⟩, fun h => h.2 hx⟩

theorem written_pieces_iff (q : Option Nat) (xs : List Piece) :
    written q xs = xs.map Piece.specified ↔ ∀ x ∈ xs, Kept q x := by
  rw [written, List.map_inj_left]
  exact forall₂_congr fun x _ => written_eq_iff q x

/-! ## The precision that a call begins with -/

theorem displayElements_precision (q : Option Nat) (es : List α) :
    ∀ x ∈ (displayElements p q es).1, x.1.precision = q := by
  induction es with
  | nil => simp [displayElements]
  | cons e es ih =>
    rw [displayElements]
    dsimp only
    cases (p.display ⟨some (if p.fixnum e then 'd' else 's'), q⟩ e).1 with
    | error x =>
      intro y hy
      rw [List.mem_singleton.mp hy]
    | ok s =>
      intro y hy
      rcases List.mem_cons.mp hy with rfl | hy
      · rfl
      · exact ih y hy

/-- What a specification displays, it displays with its precision. -/
theorem pick_precision (q : Option Nat) (k : Char) (args : List α) :
    ∀ x ∈ (pick p q k args).1, x.1.precision = q := by
  unfold pick
  split
  · simp
  · split
    · simp
    · split
      · split
        · simp
        · exact displayElements_precision q _
      · intro x hx
        rw [List.mem_singleton.mp hx]

/-- A specification that displays nothing is the same with any precision. -/
theorem pick_nil {q' : Option Nat} (h : (pick p q k args).1 = []) :
    pick p q' k args = pick p q k args := by
  revert h
  unfold pick
  split
  · exact fun _ => rfl
  · split
    · exact fun _ => rfl
    · split
      · split
        · exact fun _ => rfl
        · rename_i es _
          intro h
          cases es with
          | nil => rfl
          | cons e es =>
            rw [displayElements] at h
            dsimp only at h
            split at h <;> cases h
      · exact fun h => by cases h

theorem pick_nil_iff {q' : Option Nat} :
    (pick p q' k args).1 = [] ↔ (pick p q k args).1 = [] :=
  ⟨fun h => by rw [pick_nil h, h], fun h => by rw [pick_nil h, h]⟩

/-- What a specification displays comes before what those after it display. -/
theorem traverse_spec_shown (dflt : Option Nat) (sp : Spec) (items : List Item) (args : List α) :
    ∃ shown, (traverse p dflt (.spec sp :: items) args).shown =
      (pick p (sp.prec.or dflt) sp.k args).1 ++ shown := by
  rw [traverse]
  cases pick p (sp.prec.or dflt) sp.k args with
  | mk shown res =>
    cases res with
    | error e => exact ⟨[], (List.append_nil _).symm⟩
    | ok r => exact ⟨_, rfl⟩

/-- With a precision from outside the displays are the same just if each has one of its own, and
then all is the same. -/
theorem traverse_dflt (n : Nat) (items : List Item) (args : List α) :
    ((traverse p (some n) items args).shown = (traverse p none items args).shown ↔
      ∀ x ∈ (traverse p none items args).shown, x.1.precision ≠ none) ∧
    ((∀ x ∈ (traverse p none items args).shown, x.1.precision ≠ none) →
      traverse p (some n) items args = traverse p none items args) := by
  induction items generalizing args with
  | nil => simp [traverse]
  | cons item items ih =>
    cases item with
    | char c =>
      obtain ⟨hshown, hall⟩ := ih args
      rw [traverse, traverse]
      refine ⟨hshown, fun h => ?_⟩
      rw [hall h]
    | cut => simp [traverse]
    | spec sp =>
      by_cases hnone : sp.prec = none ∧ (pick p none sp.k args).1 ≠ []
      · -- the first display is with the precision from outside, and should be with none
        obtain ⟨hprec, hne⟩ := hnone
        have hne' : (pick p (some n) sp.k args).1 ≠ [] := fun h => hne (pick_nil_iff.mp h)
        obtain ⟨x, xs, hx⟩ := List.exists_cons_of_ne_nil hne'
        obtain ⟨y, ys, hy⟩ := List.exists_cons_of_ne_nil hne
        have hxp := pick_precision (p := p) (some n) sp.k args x (hx ▸ List.mem_cons_self)
        have hyp := pick_precision (p := p) none sp.k args y (hy ▸ List.mem_cons_self)
        obtain ⟨rest, hrest⟩ := traverse_spec_shown (p := p) (some n) sp items args
        obtain ⟨rest', hrest'⟩ := traverse_spec_shown (p := p) none sp items args
        rw [hprec, Option.none_or, hx, List.cons_append] at hrest
        rw [hprec, Option.none_or, hy, List.cons_append] at hrest'
        have hbad : ¬ ∀ z ∈ y :: (ys ++ rest'), z.1.precision ≠ none := fun h =>
          h y List.mem_cons_self hyp
        rw [hrest, hrest']
        refine ⟨⟨fun h => ?_, fun h => absurd h hbad⟩, fun h => absurd h hbad⟩
        rw [(List.cons.inj h).1, hyp] at hxp
        cases hxp
      · -- its own precision, or no display
        have hsame : pick p (sp.prec.or (some n)) sp.k args = pick p (sp.prec.or none) sp.k args ∧
            ∀ x ∈ (pick p (sp.prec.or none) sp.k args).1, x.1.precision ≠ none := by
          cases hprec : sp.prec with
          | some m =>
            refine ⟨rfl, fun x hx => ?_⟩
            rw [pick_precision _ _ _ x hx]
            simp
          | none =>
            have hnil : (pick p none sp.k args).1 = [] := by
              by_contra h
              exact hnone ⟨hprec, h⟩
            refine ⟨pick_nil hnil, fun x hx => ?_⟩
            rw [Option.or_none, hnil] at hx
            cases hx
        obtain ⟨hpick, hown⟩ := hsame
        rw [traverse, traverse, hpick]
        cases hres : pick p (sp.prec.or none) sp.k args with
        | mk shown res =>
          rw [hres] at hown
          cases res with
          | error e => exact ⟨⟨fun _ => hown, fun _ => rfl⟩, fun _ => rfl⟩
          | ok r =>
            obtain ⟨⟨number, text⟩, args'⟩ := r
            obtain ⟨hshown, hall⟩ := ih args'
            have hiff : (∀ x ∈ shown ++ (traverse p none items args').shown,
                x.1.precision ≠ none) ↔
                ∀ x ∈ (traverse p none items args').shown, x.1.precision ≠ none := by
              rw [List.forall_mem_append]
              exact ⟨fun h => h.2, fun h => ⟨hown, h⟩⟩
            dsimp only
            rw [hiff, List.append_cancel_left_eq]
            refine ⟨hshown, fun h => ?_⟩
            rw [hall h]

/-! ## A call -/

/-- The result of a traversal is the one that is specified just if no specification is cut off
and, if there is a text, its pieces are written as they should be. -/
theorem Traversal.Yields.meets_iff {t : Traversal α ε} {r : Except (Stop ε) Unit × State α}
    {vars : Vars} (h : t.Yields q ⟨vars, args, [], []⟩ r) :
    Meets (match r.1 with
        | .ok () => .ok r.2.osh.flatten
        | .error x => .error x) r.2.osh t.ends (t.pieces.map Piece.specified) ↔
      (t.ends ≠ .cut ∧ (t.ends = .complete → ∀ x ∈ t.pieces, Kept q x)) := by
  obtain ⟨res, st'⟩ := r
  obtain ⟨-, h⟩ := h
  cases res with
  | ok u =>
    obtain ⟨hends, hosh⟩ := h
    dsimp only at hosh ⊢
    rw [hends, hosh, List.nil_append, ← written_pieces_iff]
    simp only [Meets, ne_eq, reduceCtorEq, not_false_eq_true, true_and, true_imp_iff]
    exact ⟨fun h => h.1, fun h => ⟨h, congrArg List.flatten h⟩⟩
  | error stop =>
    dsimp only at h ⊢
    cases hends : t.ends with
    | complete =>
      rw [hends] at h
      cases stop <;> cases h
    | cut =>
      rw [hends] at h
      cases stop with
      | stringRef i => simp [Meets]
      | notEnoughArgs k i => cases h
      | raised e => cases h
    | lacking =>
      rw [hends] at h
      cases stop with
      | stringRef i => cases h
      | notEnoughArgs k i => simp [Meets]
      | raised e => cases h
    | raised e' =>
      rw [hends] at h
      cases stop with
      | stringRef i => cases h
      | notEnoughArgs k i => cases h
      | raised e =>
        cases h
        simp [Meets]

/-- Without a width and a precision a value is printed as it is. -/
theorem layout_plain (number : Bool) :
    layout false leftPad 0 none q number text = cut q text := by
  cases number with
  | false =>
    rw [layout_other]
    simp [padded]
  | true =>
    rw [layout_number]
    simp [padded]

/-- `sprintf` is a call of its own, and its text is printed once more. -/
theorem sprintf_format (hk : k = 'd' ∨ k = 's') (e : α) (st : State α) :
    (sprintf p k e st).1 =
      match (format p st.vars ['%', k] [e]).result with
      | .ok s => .ok (cut st.vars.precision s)
      | .error x => .error x := by
  have hparse : parse 2 ['%', k] = [.spec ⟨false, ' ', 0, none, k⟩] := by
    rcases hk with rfl | rfl <;> rfl
  have hpick : pick p st.vars.precision k [e] =
      ([(⟨some k, st.vars.precision⟩, e)],
        match (p.display ⟨some k, st.vars.precision⟩ e).1 with
        | .error x => .error (.raised x)
        | .ok s => .ok ((p.number e, s), [])) := by
    rcases hk with rfl | rfl <;> rfl
  have hfuel : (['%', k].drop 0).length ≤ 2 := Nat.le_refl _
  have hloop := cpLoop_spec (p := p) st.vars 2 0 ⟨st.vars, [e], [], []⟩ rfl hfuel
  rw [List.drop_zero, hparse, traverse, Option.none_or, hpick] at hloop
  rw [sprintf_eq, format]
  generalize cpLoop p ['%', k] st.vars ['%', k].length 0 ⟨st.vars, [e], [], []⟩ = r at hloop ⊢
  obtain ⟨res, st'⟩ := r
  obtain ⟨-, hloop⟩ := hloop
  cases hd : (p.display ⟨some k, st.vars.precision⟩ e).1 with
  | error x =>
    rw [hd] at hloop
    cases res with
    | ok u => cases hloop.1
    | error stop =>
      cases stop with
      | raised x' =>
        have hx : x = x' := hloop
        rw [hx]
      | _ => exact hloop.elim
  | ok s =>
    rw [hd] at hloop
    cases res with
    | error stop => cases stop <;> exact hloop.elim
    | ok u =>
      have htext : st'.osh.flatten = cut st.vars.precision s := by
        rw [hloop.2]
        simp [written, traverse, Piece.written, layout_plain]
      dsimp only
      rw [htext]

end Model

/-! ## Formats that go wrong -/

/-- Texts as arguments; those of digits, with a sign or none, are numbers. -/
def texts : Printing Text Unit where
  display vars s :=
    (.ok (if s.all (fun c => c.isDigit || c = '-') then s else cut vars.precision s), vars)
  number s := s.all fun c => c.isDigit || c = '-'
  fixnum s := s.all fun c => c.isDigit || c = '-'
  elements _ := .error ()

end Idio.Format
