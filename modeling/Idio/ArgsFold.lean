/-
  ArgsFold.lean --- the arguments of a program, in the manner of SRFI 37.

  `args-fold` goes through the arguments and calls the processor of an option, or the procedure
  for operands, for each, with the seeds so far.  An option has names, which are code points or
  strings, and may require an argument or accept one.

  The code decides in four places where an option gets its argument from: for a long option, for
  one with `=` and text, for a short option that stands alone and for a group of these.  `calls`
  is the list of the calls that are due where all four go by the same rule, `argument`, and
  `Uniform` is when the code makes these calls.
-/
import Idio.Basic

set_option autoImplicit false

namespace Idio.ArgsFold

/-! ## Options and arguments -/

/-- The name of an option. -/
inductive Name where
  | long (s : List Char)
  | short (c : Char)
  deriving DecidableEq, Repr

/-- What a processor is handed as the argument of an option. -/
inductive Arg where
  | false_
  | true_
  | text (s : List Char)
  deriving DecidableEq, Repr

/-- `option-type`, with processors of any type `P`. -/
structure Opt (P : Type) where
  names : List Name
  requiredArg : Bool
  optionalArg : Bool
  processor : P
  deriving DecidableEq, Repr

/-- `options` and `unrecognized-option-proc` -/
structure Table (P : Type) where
  options : List (Opt P)
  unrecognizedOptionProc : P

/-- What the procedures do with the seeds. -/
structure Procedures (P S : Type) where
  processor : P → Opt P → Name → Arg → S → Result S
  operandProc : List Char → S → Result S

/-- What `regex-case` makes of an argument. -/
inductive Form where
  | end_
  | longArg (name text : List Char)
  | long (name : List Char)
  | short (name : Char)
  | shorts (names : List Char)
  | operand
  deriving DecidableEq, Repr

/-- The clauses of `regex-case`, in order. -/
def classify : List Char → Form
  | '-' :: '-' :: [] => .end_
  | '-' :: '-' :: rest =>
      let name := rest.takeWhile (· ≠ '=')
      if name = [] then .shorts ('-' :: rest)
      else match rest.dropWhile (· ≠ '=') with
        | _ :: text => .longArg name text
        | [] => .long name
  | '-' :: c :: [] => .short c
  | '-' :: c :: cs => .shorts (c :: cs)
  | _ => .operand

section Scan

variable {P S : Type} (procs : Procedures P S) (table : Table P)

/-- `(or (find-option name) (option (list name) required #f unrecognized-option-proc))` -/
def findOption (name : Name) (required : Bool) : Opt P :=
  match table.options.find? fun option => option.names.contains name with
  | some option => option
  | none => ⟨[name], required, false, table.unrecognizedOptionProc⟩

/-- `(apply (option-processor option) option name arg seeds)` -/
def process (option : Opt P) (name : Name) (arg : Arg) (seeds : S) : Result S :=
  procs.processor option.processor option name arg seeds

/-- `scan-short-options`, from `index` on, up to its call of `scan-args`: whether the first of
the arguments is taken, and the seeds. -/
def scanShortOptions (args : List (List Char)) : List Char → S → Result (Bool × S)
  | [], seeds => .ok (false, seeds)
  | name :: shorts, seeds =>
      let option := findOption table (.short name) false
      if shorts ≠ [] ∧ (option.requiredArg ∨ option.optionalArg) then do
        let seeds ← process procs option (.short name) (.text shorts) seeds
        .ok (false, seeds)
      else if (option.requiredArg ∨ option.optionalArg) ∧ args ≠ [] then do
        let seeds ← process procs option (.short name) (.text (args.headD [])) seeds
        .ok (true, seeds)
      else if option.optionalArg then do
        let seeds ← process procs option (.short name) .true_ seeds
        .ok (false, seeds)
      else do
        let seeds ← process procs option (.short name) .false_ seeds
        scanShortOptions args shorts seeds

/-- `(unicode=? #\- (string-ref (ph args) 0))` -/
def looksLikeOption : List Char → Result Bool
  | [] => .error (.stringError "string length: out of bounds")
  | c :: _ => .ok (c = '-')

/-- The test for the next argument, of a long option and of a single short one. -/
def takesNext (option : Opt P) : List (List Char) → Result Bool
  | [] => .ok false
  | next :: _ =>
      if option.requiredArg then .ok true
      else if option.optionalArg then do .ok !(← looksLikeOption next)
      else .ok false

/-- The clause for a long option with an argument. -/
def scanLongArg (name text : List Char) (seeds : S) : Result (Bool × S) := do
  let option := findOption table (.long name) true
  let seeds ← process procs option (.long name) (.text text) seeds
  .ok (false, seeds)

/-- The clause for a long option. -/
def scanLong (args : List (List Char)) (name : List Char) (seeds : S) : Result (Bool × S) := do
  let option := findOption table (.long name) false
  if ← takesNext option args then
    let seeds ← process procs option (.long name) (.text (args.headD [])) seeds
    .ok (true, seeds)
  else if option.optionalArg then
    let seeds ← process procs option (.long name) .true_ seeds
    .ok (false, seeds)
  else
    let seeds ← process procs option (.long name) .false_ seeds
    .ok (false, seeds)

/-- The clause for a single short option. -/
def scanShort (args : List (List Char)) (name : Char) (seeds : S) : Result (Bool × S) := do
  let option := findOption table (.short name) false
  if ← takesNext option args then
    let seeds ← process procs option (.short name) (.text (args.headD [])) seeds
    .ok (true, seeds)
  else
    let seeds ← process procs option (.short name) .true_ seeds
    .ok (false, seeds)

/-- `scan-operands` -/
def scanOperands : List (List Char) → S → Result S
  | [], seeds => .ok seeds
  | operand :: operands, seeds => do
      let seeds ← procs.operandProc operand seeds
      scanOperands operands seeds

/-- The clauses of `scan-args` that go on with `scan-args`. -/
def scanArg (args : List (List Char)) (arg : List Char) (seeds : S) : Result (Bool × S) :=
  match classify arg with
  | .longArg name text => scanLongArg procs table name text seeds
  | .long name => scanLong procs table args name seeds
  | .short name => scanShort procs table args name seeds
  | .shorts shorts => scanShortOptions procs table args shorts seeds
  | .end_ | .operand => do
      let seeds ← procs.operandProc arg seeds
      .ok (false, seeds)

/-- The arguments that are left where the first may be taken. -/
def remaining (taken : Bool) (args : List (List Char)) : List (List Char) :=
  if taken then args.tail else args

theorem remaining_length (taken : Bool) (args : List (List Char)) :
    (remaining taken args).length ≤ args.length := by
  cases taken with
  | false => exact Nat.le_refl _
  | true => exact List.length_tail ▸ Nat.sub_le _ _

/-- `scan-args` -/
def scanArgs : List (List Char) → S → Result S
  | [], seeds => .ok seeds
  | arg :: args, seeds =>
      if classify arg = .end_ then scanOperands procs args seeds
      else do
        let (taken, seeds) ← scanArg procs table args arg seeds
        scanArgs (remaining taken args) seeds
termination_by args => args.length
decreasing_by
  have := remaining_length taken args
  simp only [List.length_cons]
  omega

end Scan

/-! ## One rule for all spellings -/

section Rule

variable {P : Type} (table : Table P)

/-- The argument of an option, with the text that is attached to it and the arguments that
follow, and whether the next one is taken. -/
def argument (option : Opt P) (attached : Option (List Char)) (args : List (List Char)) :
    Arg × Bool :=
  if option.requiredArg then
    match attached, args with
    | some text, _ => (.text text, false)
    | none, next :: _ => (.text next, true)
    | none, [] => (.false_, false)
  else if option.optionalArg then
    match attached, args with
    | some text, _ => (.text text, false)
    | none, next :: _ => if next.head? = some '-' then (.true_, false) else (.text next, true)
    | none, [] => (.true_, false)
  else (.false_, false)

/-- A call of a processor or of the procedure for operands. -/
inductive Call (P : Type) where
  | option (option : Opt P) (name : Name) (arg : Arg)
  | operand (s : List Char)
  deriving DecidableEq, Repr

/-- The call for an option. -/
def optionCalls (option : Opt P) (name : Name) (attached : Option (List Char))
    (args : List (List Char)) : List (Call P) × Bool :=
  ([.option option name (argument option attached args).1], (argument option attached args).2)

/-- The calls for a group of short options: one that takes an argument ends it. -/
def shortsCalls (args : List (List Char)) : List Char → List (Call P) × Bool
  | [] => ([], false)
  | name :: shorts =>
      let option := findOption table (.short name) false
      if option.requiredArg ∨ option.optionalArg then
        optionCalls option (.short name) (if shorts = [] then none else some shorts) args
      else
        let rest := shortsCalls args shorts
        (.option option (.short name) .false_ :: rest.1, rest.2)

/-- The calls for an argument, and whether the next one is taken. -/
def argCalls (args : List (List Char)) (arg : List Char) : List (Call P) × Bool :=
  match classify arg with
  | .longArg name text => optionCalls (findOption table (.long name) true) (.long name) (some text) args
  | .long name => optionCalls (findOption table (.long name) false) (.long name) none args
  | .short name => optionCalls (findOption table (.short name) false) (.short name) none args
  | .shorts shorts => shortsCalls table args shorts
  | .end_ | .operand => ([.operand arg], false)

/-- All the calls, in order. -/
def calls : List (List Char) → List (Call P)
  | [] => []
  | arg :: args =>
      if classify arg = .end_ then args.map .operand
      else (argCalls table args arg).1 ++ calls (remaining (argCalls table args arg).2 args)
termination_by args => args.length
decreasing_by
  have := remaining_length (argCalls table args arg).2 args
  simp only [List.length_cons]
  omega

/-- The seeds after a call. -/
def perform {S : Type} (procs : Procedures P S) (seeds : S) : Call P → Result S
  | .option option name arg => process procs option name arg seeds
  | .operand s => procs.operandProc s seeds

/-! ## Where the code goes by the rule -/

/-- A long option: none that may do without an argument is followed by an empty one, and none
that requires and accepts one is the last. -/
def LongAlike (option : Opt P) (args : List (List Char)) : Prop :=
  if option.requiredArg then option.optionalArg = true → args ≠ []
  else option.optionalArg = true → args.head? ≠ some []

/-- A single short option: it takes an argument, and an argument follows if it is required, and
no empty one if it is not. -/
def ShortAlike (option : Opt P) (args : List (List Char)) : Prop :=
  if option.requiredArg then args ≠ []
  else option.optionalArg = true ∧ args.head? ≠ some []

/-- The last option of a group: none that may do without an argument is followed by one that
looks like an option. -/
def LastAlike (option : Opt P) (args : List (List Char)) : Prop :=
  if option.requiredArg then option.optionalArg = true → args ≠ []
  else option.optionalArg = true → ∀ next ∈ args.head?, next.head? ≠ some '-'

/-- A group: the option that ends it, if that is the last. -/
def ShortsAlike (args : List (List Char)) : List Char → Prop
  | [] => True
  | [name] => LastAlike (findOption table (.short name) false) args
  | name :: shorts =>
      let option := findOption table (.short name) false
      (option.requiredArg ∨ option.optionalArg) ∨ ShortsAlike args shorts

/-- An argument. -/
def Alike (args : List (List Char)) (arg : List Char) : Prop :=
  match classify arg with
  | .longArg name _ =>
      let option := findOption table (.long name) true
      option.requiredArg ∨ option.optionalArg
  | .long name => LongAlike (findOption table (.long name) false) args
  | .short name => ShortAlike (findOption table (.short name) false) args
  | .shorts shorts => ShortsAlike table args shorts
  | .end_ | .operand => True

/-- All the arguments up to `--`. -/
def Uniform : List (List Char) → Prop
  | [] => True
  | arg :: args => classify arg = .end_ ∨
      (Alike table args arg ∧ Uniform (remaining (argCalls table args arg).2 args))
termination_by args => args.length
decreasing_by
  have := remaining_length (argCalls table args arg).2 args
  simp only [List.length_cons]
  omega

end Rule

/-! ## The code where it goes by the rule -/

section Follow

variable {P S : Type} (procs : Procedures P S) (table : Table P) {option : Opt P}
  {args : List (List Char)} {arg : List Char}

/-- The calls made one after the other. -/
def performAll (cs : List (Call P)) (seeds : S) : Result S := cs.foldlM (perform procs) seeds

/-- The same, with what is taken. -/
def follow (r : List (Call P) × Bool) (seeds : S) : Result (Bool × S) := do
  let seeds ← performAll procs r.1 seeds
  .ok (r.2, seeds)

theorem performAll_nil (seeds : S) : performAll procs [] seeds = .ok seeds := rfl

theorem performAll_cons (call : Call P) (cs : List (Call P)) (seeds : S) :
    performAll procs (call :: cs) seeds =
      (perform procs seeds call >>= fun seeds => performAll procs cs seeds) := rfl

theorem performAll_append (cs ds : List (Call P)) (seeds : S) :
    performAll procs (cs ++ ds) seeds =
      (performAll procs cs seeds >>= fun seeds => performAll procs ds seeds) :=
  List.foldlM_append

/-- The one call for an option. -/
theorem follow_optionCalls (option : Opt P) (name : Name) (attached : Option (List Char))
    (args : List (List Char)) (seeds : S) :
    follow procs (optionCalls option name attached args) seeds =
      (process procs option name (argument option attached args).1 seeds >>= fun seeds =>
        .ok ((argument option attached args).2, seeds)) := by
  rw [follow, optionCalls, performAll_cons, perform]
  cases process procs option name (argument option attached args).1 seeds <;> rfl

/-- The next argument is taken as the rule says, but for an empty one. -/
theorem takesNext_eq (h : option.requiredArg = false → option.optionalArg = true →
    args.head? ≠ some []) : takesNext option args = .ok (argument option none args).2 := by
  unfold argument
  cases hr : option.requiredArg with
  | true => cases args <;> simp [takesNext, hr]
  | false =>
    cases ho : option.optionalArg with
    | false => cases args <;> simp [takesNext, hr, ho]
    | true =>
      rcases args with _ | ⟨_ | ⟨c, next⟩, args⟩
      · rfl
      · exact absurd rfl (h hr ho)
      · by_cases hc : c = '-' <;> simp [takesNext, looksLikeOption, hr, ho, hc]

/-- An argument that is taken is the next one. -/
theorem argument_taken (h : (argument option none args).2 = true) :
    (argument option none args).1 = .text (args.headD []) := by
  unfold argument at h ⊢
  cases args with
  | nil => cases hr : option.requiredArg <;> cases ho : option.optionalArg <;> simp [hr, ho] at h
  | cons next args =>
    cases hr : option.requiredArg with
    | true => rfl
    | false =>
      cases ho : option.optionalArg with
      | true =>
        by_cases hnext : next.head? = some '-'
        · simp [hr, ho, hnext] at h
        · simp [hnext]
      | false => simp [hr, ho] at h

/-- What is handed over where none is taken. -/
theorem argument_left (h : (argument option none args).2 = false) :
    (argument option none args).1 =
      if option.requiredArg then .false_ else if option.optionalArg then .true_ else .false_ := by
  unfold argument at h ⊢
  cases args with
  | nil => cases option.requiredArg <;> cases option.optionalArg <;> rfl
  | cons next args =>
    cases hr : option.requiredArg with
    | true => simp [hr] at h
    | false =>
      cases ho : option.optionalArg with
      | true =>
        by_cases hnext : next.head? = some '-'
        · simp [hnext]
        · simp [hr, ho, hnext] at h
      | false => rfl

theorem scanLong_follow (name : List Char) (seeds : S)
    (h : LongAlike (findOption table (.long name) false) args) :
    scanLong procs table args name seeds = follow procs
      (optionCalls (findOption table (.long name) false) (.long name) none args) seeds := by
  rw [follow_optionCalls, scanLong]
  generalize findOption table (.long name) false = option at h ⊢
  rw [LongAlike] at h
  have htakes : takesNext option args = .ok (argument option none args).2 :=
    takesNext_eq fun hr ho => by rw [hr] at h; exact h ho
  rw [htakes, ok_bind]
  cases htaken : (argument option none args).2 with
  | true => rw [argument_taken htaken, if_pos rfl]
  | false =>
    rw [argument_left htaken, if_neg (by decide)]
    cases ho : option.optionalArg with
    | false => cases option.requiredArg <;> rfl
    | true =>
      have hr : option.requiredArg = false := by
        -- one that is required would have been taken
        cases hr : option.requiredArg with
        | false => rfl
        | true =>
          rw [hr] at h
          obtain ⟨next, rest, rfl⟩ := List.exists_cons_of_ne_nil (h ho)
          simp [argument, hr] at htaken
      rw [hr]
      rfl

theorem scanShort_follow (name : Char) (seeds : S)
    (h : ShortAlike (findOption table (.short name) false) args) :
    scanShort procs table args name seeds = follow procs
      (optionCalls (findOption table (.short name) false) (.short name) none args) seeds := by
  rw [follow_optionCalls, scanShort]
  generalize findOption table (.short name) false = option at h ⊢
  rw [ShortAlike] at h
  have htakes : takesNext option args = .ok (argument option none args).2 :=
    takesNext_eq fun hr _ => by rw [hr] at h; exact h.2
  rw [htakes, ok_bind]
  cases htaken : (argument option none args).2 with
  | true => rw [argument_taken htaken, if_pos rfl]
  | false =>
    rw [argument_left htaken, if_neg (by decide)]
    cases hr : option.requiredArg with
    | true =>
      rw [hr] at h
      obtain ⟨next, rest, rfl⟩ := List.exists_cons_of_ne_nil h
      simp [argument, hr] at htaken
    | false =>
      rw [hr] at h
      rw [h.1]
      rfl

theorem argument_attached (text : List Char)
    (h : option.requiredArg = true ∨ option.optionalArg = true) :
    argument option (some text) args = (.text text, false) := by
  unfold argument
  by_cases hr : option.requiredArg = true
  · rw [if_pos hr]
  · rw [if_neg hr, if_pos (h.resolve_left hr)]

theorem scanLongArg_follow (name text : List Char) (seeds : S)
    (h : (findOption table (.long name) true).requiredArg = true ∨
      (findOption table (.long name) true).optionalArg = true) :
    scanLongArg procs table name text seeds = follow procs
      (optionCalls (findOption table (.long name) true) (.long name) (some text) args) seeds := by
  rw [follow_optionCalls, scanLongArg]
  generalize findOption table (.long name) true = option at h ⊢
  rw [argument_attached text h]

/-- The last option of a group. -/
theorem argument_last (h : LastAlike option args)
    (htakes : option.requiredArg = true ∨ option.optionalArg = true) :
    argument option none args =
      if args ≠ [] then (.text (args.headD []), true)
      else if option.optionalArg then (.true_, false) else (.false_, false) := by
  rw [LastAlike] at h
  unfold argument
  cases args with
  | nil =>
    rw [if_neg (fun h : ([] : List (List Char)) ≠ [] => h rfl)]
    cases hr : option.requiredArg with
    | true =>
      rw [hr] at h
      cases ho : option.optionalArg with
      | true => exact absurd rfl (h ho)
      | false => rfl
    | false =>
      rw [hr] at htakes
      simp only [Bool.false_eq_true, false_or] at htakes
      rw [htakes]
      rfl
  | cons next args =>
    rw [if_pos (List.cons_ne_nil next args)]
    cases hr : option.requiredArg with
    | true => rfl
    | false =>
      rw [hr] at h htakes
      simp only [Bool.false_eq_true, false_or] at htakes
      rw [if_neg (by decide), if_pos htakes]
      exact if_neg (h htakes next rfl)

/-- A group, by induction on the options that are left of it. -/
theorem scanShortOptions_follow (shorts : List Char) (seeds : S)
    (h : ShortsAlike table args shorts) :
    scanShortOptions procs table args shorts seeds =
      follow procs (shortsCalls table args shorts) seeds := by
  induction shorts generalizing seeds with
  | nil => rfl
  | cons name shorts ih =>
    have hnone : ∀ seeds, shorts = [] ∨ ShortsAlike table args shorts →
        scanShortOptions procs table args shorts seeds =
          follow procs (shortsCalls table args shorts) seeds := by
      rintro seeds (rfl | h)
      · rfl
      · exact ih seeds h
    rw [scanShortOptions, shortsCalls]
    by_cases htakes : (findOption table (.short name) false).requiredArg = true ∨
        (findOption table (.short name) false).optionalArg = true
    · rw [if_pos htakes, follow_optionCalls]
      by_cases hshorts : shorts = []
      · subst hshorts
        rw [if_neg (fun h : ([] : List Char) ≠ [] ∧ _ => h.1 rfl), if_pos rfl,
          argument_last h htakes]
        by_cases hargs : args = []
        · rw [if_neg (fun h : _ ∧ args ≠ [] => h.2 hargs), if_neg (fun h : args ≠ [] => h hargs)]
          by_cases ho : (findOption table (.short name) false).optionalArg = true
          · rw [if_pos ho, if_pos ho]
          · rw [if_neg ho, if_neg ho]
            rfl
        · rw [if_pos ⟨htakes, hargs⟩, if_pos hargs]
      · rw [if_pos ⟨hshorts, htakes⟩, if_neg hshorts, argument_attached shorts htakes]
    · have hrest : shorts = [] ∨ ShortsAlike table args shorts := by
        cases shorts with
        | nil => exact .inl rfl
        | cons c shorts => exact .inr ((show _ ∨ _ from h).resolve_left htakes)
      rw [if_neg fun h => htakes h.2, if_neg fun h => htakes h.1, if_neg htakes,
        if_neg fun h => htakes (.inr h), follow, performAll_cons, perform]
      cases process procs (findOption table (.short name) false) (.short name) .false_ seeds with
      | error e => rfl
      | ok seeds =>
        rw [ok_bind, hnone seeds hrest]
        rfl

/-- Where an argument is treated alike, the code makes its calls. -/
theorem scanArg_follow (seeds : S) (h : Alike table args arg) :
    scanArg procs table args arg seeds = follow procs (argCalls table args arg) seeds := by
  have hoperand : (procs.operandProc arg seeds >>= fun seeds => .ok (false, seeds)) =
      follow procs ([.operand arg], false) seeds := by
    rw [follow, performAll_cons, perform]
    cases procs.operandProc arg seeds <;> rfl
  rw [Alike] at h
  rw [scanArg, argCalls]
  cases hform : classify arg with
  | end_ => exact hoperand
  | operand => exact hoperand
  | longArg name text =>
    rw [hform] at h
    exact scanLongArg_follow procs table name text seeds h
  | long name =>
    rw [hform] at h
    exact scanLong_follow procs table name seeds h
  | short name =>
    rw [hform] at h
    exact scanShort_follow procs table name seeds h
  | shorts shorts =>
    rw [hform] at h
    exact scanShortOptions_follow procs table shorts seeds h

theorem scanOperands_eq (operands : List (List Char)) (seeds : S) :
    scanOperands procs operands seeds = performAll procs (operands.map .operand) seeds := by
  induction operands generalizing seeds with
  | nil => rfl
  | cons operand operands ih =>
    rw [scanOperands, List.map_cons, performAll_cons, perform]
    exact bind_congr fun seeds => ih seeds

/-- Where all are, it makes all calls. -/
theorem scanArgs_performAll {n : Nat} (hn : args.length ≤ n) (seeds : S) (h : Uniform table args) :
    scanArgs procs table args seeds = performAll procs (calls table args) seeds := by
  induction n using Nat.strongRecOn generalizing args seeds with
  | ind n ih =>
    cases args with
    | nil => rw [scanArgs, calls, performAll_nil]
    | cons arg args =>
      rw [scanArgs, calls]
      by_cases hend : classify arg = .end_
      · rw [if_pos hend, if_pos hend, scanOperands_eq]
      · rw [Uniform] at h
        obtain ⟨halike, huniform⟩ := h.resolve_left hend
        have hlen := remaining_length (argCalls table args arg).2 args
        rw [List.length_cons] at hn
        rw [if_neg hend, if_neg hend, scanArg_follow procs table seeds halike, performAll_append,
          follow]
        cases performAll procs (argCalls table args arg).1 seeds with
        | error e => rfl
        | ok seeds =>
          rw [ok_bind, ok_bind, ok_bind]
          exact ih args.length (by omega) hlen seeds huniform

end Follow

/-! ## The code where it does not -/

section Preserved

variable {P S : Type} {procs : Procedures P S} {table : Table P} {I : S → Prop}
  {args : List (List Char)} {seeds seeds' : S} {taken : Bool}

/-- What every call keeps of the seeds. -/
def Preserves (procs : Procedures P S) (I : S → Prop) : Prop :=
  ∀ call seeds seeds', I seeds → perform procs seeds call = .ok seeds' → I seeds'

theorem Preserves.process (h : Preserves procs I) (hI : I seeds) {option : Opt P} {name : Name}
    {arg : Arg} {r : Bool} (hrun : (ArgsFold.process procs option name arg seeds >>= fun seeds =>
      (.ok (r, seeds) : Result (Bool × S))) = .ok (taken, seeds')) : I seeds' := by
  obtain ⟨s, hs, heq⟩ := bind_eq_ok.mp hrun
  cases heq
  exact h (.option option name arg) seeds _ hI hs

theorem Preserves.scanShortOptions (h : Preserves procs I) (shorts : List Char) (hI : I seeds)
    (hrun : ArgsFold.scanShortOptions procs table args shorts seeds = .ok (taken, seeds')) :
    I seeds' := by
  induction shorts generalizing seeds with
  | nil =>
    cases hrun
    exact hI
  | cons name shorts ih =>
    rw [ArgsFold.scanShortOptions] at hrun
    split at hrun
    · exact h.process hI hrun
    · split at hrun
      · exact h.process hI hrun
      · split at hrun
        · exact h.process hI hrun
        · obtain ⟨s, hs, hrun⟩ := bind_eq_ok.mp hrun
          exact ih (h (.option _ _ _) seeds s hI hs) hrun

theorem Preserves.scanArg (h : Preserves procs I) (arg : List Char) (hI : I seeds)
    (hrun : ArgsFold.scanArg procs table args arg seeds = .ok (taken, seeds')) : I seeds' := by
  have hoperand : (procs.operandProc arg seeds >>= fun seeds =>
      (.ok (false, seeds) : Result (Bool × S))) = .ok (taken, seeds') → I seeds' := by
    intro hrun
    obtain ⟨s, hs, heq⟩ := bind_eq_ok.mp hrun
    cases heq
    exact h (.operand arg) seeds _ hI hs
  rw [ArgsFold.scanArg] at hrun
  split at hrun
  · exact h.process hI hrun
  · obtain ⟨next, -, hrun⟩ := bind_eq_ok.mp hrun
    split at hrun
    · exact h.process hI hrun
    · split at hrun <;> exact h.process hI hrun
  · obtain ⟨next, -, hrun⟩ := bind_eq_ok.mp hrun
    split at hrun <;> exact h.process hI hrun
  · exact h.scanShortOptions _ hI hrun
  · exact hoperand hrun
  · exact hoperand hrun

theorem Preserves.scanArgs (h : Preserves procs I) {n : Nat} (hn : args.length ≤ n) (hI : I seeds)
    (hrun : ArgsFold.scanArgs procs table args seeds = .ok seeds') : I seeds' := by
  induction n using Nat.strongRecOn generalizing args seeds with
  | ind n ih =>
    cases args with
    | nil =>
      rw [ArgsFold.scanArgs] at hrun
      cases hrun
      exact hI
    | cons arg args =>
      rw [ArgsFold.scanArgs] at hrun
      split at hrun
      · clear ih hn
        induction args generalizing seeds with
        | nil =>
          cases hrun
          exact hI
        | cons operand operands ih =>
          obtain ⟨s, hs, hrun⟩ := bind_eq_ok.mp hrun
          exact ih (h (.operand operand) seeds s hI hs) hrun
      · obtain ⟨⟨t, s⟩, hs, hrun⟩ := bind_eq_ok.mp hrun
        have hlen := remaining_length t args
        rw [List.length_cons] at hn
        exact ih args.length (by omega) hlen (h.scanArg arg hI hs) hrun

end Preserved

section Recorder

variable {P : Type} (table : Table P) {option : Opt P} {name : Name} {args : List (List Char)}
  {arg : List Char} {seeds : List (Call P)}

/-- Procedures that note down how they are called. -/
def recorder : Procedures P (List (Call P)) where
  processor _ option name arg seeds := .ok (seeds ++ [.option option name arg])
  operandProc s seeds := .ok (seeds ++ [.operand s])

theorem perform_recorder (call : Call P) : perform recorder seeds call = .ok (seeds ++ [call]) := by
  cases call <;> rfl

theorem performAll_recorder (cs : List (Call P)) (seeds : List (Call P)) :
    performAll recorder cs seeds = .ok (seeds ++ cs) := by
  induction cs generalizing seeds with
  | nil => rw [performAll_nil, List.append_nil]
  | cons call cs ih =>
    rw [performAll_cons, perform_recorder, ok_bind, ih, List.append_assoc, List.singleton_append]

theorem recorder_preserves (cs : List (Call P)) : Preserves recorder (cs <+: ·) := by
  intro call seeds seeds' hcs hrun
  rw [perform_recorder] at hrun
  cases hrun
  exact hcs.trans (List.prefix_append seeds _)

/-- A condition is raised, or calls are made that are not those of `cs`. -/
def Differs (res : Result (Bool × List (Call P))) (seeds cs : List (Call P)) : Prop :=
  (∃ e, res = .error e) ∨
    ∃ taken ds, res = .ok (taken, seeds ++ ds) ∧ ds.length = cs.length ∧ ds ≠ cs

/-- One call with another argument. -/
theorem differs_option {a b : Arg} (hne : a ≠ b) (taken : Bool) :
    Differs (process recorder option name a seeds >>= fun seeds =>
      (.ok (taken, seeds) : Result (Bool × List (Call P)))) seeds [.option option name b] := by
  refine .inr ⟨taken, [.option option name a], rfl, rfl, ?_⟩
  simpa using hne

theorem scanLongArg_differs (name text : List Char)
    (h : ¬ ((findOption table (.long name) true).requiredArg = true ∨
      (findOption table (.long name) true).optionalArg = true)) :
    Differs (scanLongArg recorder table name text seeds) seeds
      (optionCalls (findOption table (.long name) true) (.long name) (some text) args).1 := by
  rw [scanLongArg, optionCalls]
  generalize findOption table (.long name) true = option at h ⊢
  rw [not_or] at h
  have hargument : (argument option (some text) args).1 = .false_ := by
    unfold argument
    rw [if_neg h.1, if_neg h.2]
  rw [hargument]
  exact differs_option (by simp) false

theorem scanLong_differs (name : List Char)
    (h : ¬ LongAlike (findOption table (.long name) false) args) :
    Differs (scanLong recorder table args name seeds) seeds
      (optionCalls (findOption table (.long name) false) (.long name) none args).1 := by
  rw [scanLong, optionCalls]
  generalize findOption table (.long name) false = option at h ⊢
  rw [LongAlike] at h
  cases hr : option.requiredArg with
  | true =>
    rw [hr, if_pos rfl, Classical.not_imp, not_not] at h
    obtain ⟨ho, rfl⟩ := h
    have hargument : (argument option none []).1 = .false_ := by
      simp [argument, hr]
    rw [hargument, takesNext, ok_bind, if_neg (by decide), if_pos ho]
    exact differs_option (by decide) false
  | false =>
    rw [hr, if_neg (by decide), Classical.not_imp, not_not] at h
    obtain ⟨next, rest, rfl, rfl⟩ : ∃ next rest, args = next :: rest ∧ next = [] := by
      cases args with
      | nil => cases h.2
      | cons next rest => exact ⟨next, rest, rfl, Option.some.inj h.2⟩
    refine .inl ⟨.stringError "string length: out of bounds", ?_⟩
    simp [takesNext, looksLikeOption, hr, h.1]

theorem scanShort_differs (name : Char)
    (h : ¬ ShortAlike (findOption table (.short name) false) args) :
    Differs (scanShort recorder table args name seeds) seeds
      (optionCalls (findOption table (.short name) false) (.short name) none args).1 := by
  rw [scanShort, optionCalls]
  generalize findOption table (.short name) false = option at h ⊢
  rw [ShortAlike] at h
  cases hr : option.requiredArg with
  | true =>
    rw [hr, if_pos rfl, not_not] at h
    subst h
    have hargument : (argument option none []).1 = .false_ := by
      simp [argument, hr]
    rw [hargument, takesNext, ok_bind, if_neg (by decide)]
    exact differs_option (by decide) false
  | false =>
    rw [hr, if_neg (by decide), not_and_or, not_not] at h
    cases ho : option.optionalArg with
    | false =>
      have hargument : (argument option none args).1 = .false_ := by
        simp [argument, hr, ho]
      have htakes : takesNext option args = .ok false := by
        cases args <;> simp [takesNext, hr, ho]
      rw [hargument, htakes, ok_bind, if_neg (by decide)]
      exact differs_option (by decide) false
    | true =>
      obtain ⟨next, rest, rfl, rfl⟩ : ∃ next rest, args = next :: rest ∧ next = [] := by
        have hhead := h.resolve_left fun h => h ho
        cases args with
        | nil => cases hhead
        | cons next rest => exact ⟨next, rest, rfl, Option.some.inj hhead⟩
      refine .inl ⟨.stringError "string length: out of bounds", ?_⟩
      simp [takesNext, looksLikeOption, hr, ho]

theorem scanShortOptions_differs (shorts : List Char) (seeds : List (Call P))
    (h : ¬ ShortsAlike table args shorts) :
    Differs (scanShortOptions recorder table args shorts seeds) seeds
      (shortsCalls table args shorts).1 := by
  induction shorts generalizing seeds with
  | nil => exact absurd trivial h
  | cons name shorts ih =>
    rw [scanShortOptions, shortsCalls]
    cases shorts with
    | nil =>
      rw [ShortsAlike] at h
      generalize findOption table (.short name) false = option at h ⊢
      rw [LastAlike] at h
      rw [if_neg (fun h : ([] : List Char) ≠ [] ∧ _ => h.1 rfl)]
      cases hr : option.requiredArg with
      | true =>
        rw [hr, if_pos rfl, Classical.not_imp, not_not] at h
        obtain ⟨ho, rfl⟩ := h
        have hargument : (argument option none []).1 = .false_ := by
          simp [argument, hr]
        rw [if_neg (fun h : _ ∧ ([] : List (List Char)) ≠ [] => h.2 rfl), if_pos ho,
          if_pos (.inl rfl), if_pos rfl, optionCalls, hargument]
        exact differs_option (by decide) false
      | false =>
        rw [hr, if_neg (by decide), Classical.not_imp] at h
        obtain ⟨ho, h⟩ := h
        obtain ⟨next, rest, rfl, hnext⟩ : ∃ next rest, args = next :: rest ∧
            next.head? = some '-' := by
          cases args with
          | nil => simp at h
          | cons next rest => exact ⟨next, rest, rfl, by simpa using h⟩
        have hargument : (argument option none (next :: rest)).1 = .true_ := by
          simp [argument, hr, ho, hnext]
        rw [if_pos ⟨.inr ho, List.cons_ne_nil next rest⟩, if_pos (.inr ho), if_pos rfl, optionCalls,
          hargument]
        exact differs_option (by simp) true
    | cons c shorts =>
      have h := not_or.mp (show ¬ (_ ∨ ShortsAlike table args (c :: shorts)) from h)
      have hnone := h.1
      rw [if_neg fun h => hnone h.2, if_neg fun h => hnone h.1, if_neg hnone,
        if_neg fun h => hnone (.inr h)]
      rcases ih (seeds ++ [.option (findOption table (.short name) false) (.short name) .false_])
        h.2 with ⟨e, he⟩ | ⟨taken, ds, hds, hlen, hne⟩
      · exact .inl ⟨e, he⟩
      · refine .inr ⟨taken, .option (findOption table (.short name) false) (.short name) .false_ :: ds,
          hds.trans ?_, congrArg Nat.succ hlen, fun heq => hne ?_⟩
        · rw [List.append_assoc, List.singleton_append]
        · exact (List.cons.inj heq).2

/-- Where an argument is not treated alike, other calls are made. -/
theorem scanArg_differs (h : ¬ Alike table args arg) :
    Differs (scanArg recorder table args arg seeds) seeds (argCalls table args arg).1 := by
  rw [Alike] at h
  rw [scanArg, argCalls]
  cases hform : classify arg with
  | end_ => exact absurd trivial (by rwa [hform] at h)
  | operand => exact absurd trivial (by rwa [hform] at h)
  | longArg name text =>
    rw [hform] at h
    exact scanLongArg_differs table name text h
  | long name =>
    rw [hform] at h
    exact scanLong_differs table name h
  | short name =>
    rw [hform] at h
    exact scanShort_differs table name h
  | shorts shorts =>
    rw [hform] at h
    exact scanShortOptions_differs table shorts seeds h

/-- The calls noted down are those of the rule only where all arguments are treated alike. -/
theorem uniform_of_recorder {n : Nat} (hn : args.length ≤ n) (seeds : List (Call P))
    (h : scanArgs recorder table args seeds = .ok (seeds ++ calls table args)) :
    Uniform table args := by
  induction n using Nat.strongRecOn generalizing args seeds with
  | ind n ih =>
    cases args with
    | nil =>
      rw [Uniform]
      trivial
    | cons arg args =>
      rw [Uniform]
      by_cases hend : classify arg = .end_
      · exact .inl hend
      rw [scanArgs, calls, if_neg hend, if_neg hend] at h
      rw [List.length_cons] at hn
      refine .inr ?_
      by_cases halike : Alike table args arg
      · refine ⟨halike, ?_⟩
        rw [scanArg_follow recorder table seeds halike, follow, performAll_recorder, ok_bind, ok_bind,
          ← List.append_assoc] at h
        have hlen := remaining_length (argCalls table args arg).2 args
        exact ih args.length (by omega) hlen _ h
      · exfalso
        have hdiffers : Differs (scanArg recorder table args arg seeds) seeds
            (argCalls table args arg).1 := scanArg_differs table halike
        rcases hdiffers with ⟨e, he⟩ | ⟨taken, ds, hds, hlen, hne⟩
        · rw [he] at h
          cases h
        · rw [hds, ok_bind] at h
          have hprefix := (recorder_preserves (seeds ++ ds)).scanArgs (Nat.le_refl _)
            (List.prefix_refl _) h
          rw [List.prefix_append_right_inj] at hprefix
          have hds := List.prefix_of_prefix_length_le hprefix
            (List.prefix_append _ _) (Nat.le_of_eq hlen)
          exact hne (hds.eq_of_length hlen)

end Recorder

/-! ## Groups, and missing arguments -/

section Groups

variable {P : Type} (table : Table P) {args : List (List Char)} {cs : List Char}

theorem shortsCalls_none (h : ∀ c ∈ cs, (findOption table (.short c) false).requiredArg = false ∧
    (findOption table (.short c) false).optionalArg = false) :
    shortsCalls table args cs =
      (cs.map fun c => .option (findOption table (.short c) false) (.short c) .false_, false) := by
  induction cs with
  | nil => rfl
  | cons c cs ih =>
    obtain ⟨hc, hcs⟩ := List.forall_mem_cons.mp h
    rw [shortsCalls, if_neg (by simp [hc.1, hc.2]), ih hcs]
    rfl

theorem calls_singles (h : ∀ c ∈ cs, (findOption table (.short c) false).requiredArg = false ∧
    (findOption table (.short c) false).optionalArg = false) (hdash : ∀ c ∈ cs, c ≠ '-') :
    calls table (cs.map (fun c => ['-', c]) ++ args) =
      (cs.map fun c => .option (findOption table (.short c) false) (.short c) .false_) ++
        calls table args := by
  induction cs with
  | nil => rfl
  | cons c cs ih =>
    obtain ⟨hc, hcs⟩ := List.forall_mem_cons.mp h
    obtain ⟨hdc, hdash⟩ := List.forall_mem_cons.mp hdash
    have hform : classify ['-', c] = .short c := by
      unfold classify
      split <;> simp_all
    have hcalls : ∀ args, argCalls table args ['-', c] =
        ([.option (findOption table (.short c) false) (.short c) .false_], false) := by
      intro args
      simp [argCalls, hform, optionCalls, argument, hc.1, hc.2]
    rw [List.map_cons, List.cons_append, calls, hform, if_neg (by simp), hcalls]
    exact congrArg _ (ih hcs hdash)

/-- A group of options without arguments is called as these are one by one. -/
theorem calls_group (hlen : 1 < cs.length) (h : ∀ c ∈ cs,
    (findOption table (.short c) false).requiredArg = false ∧
      (findOption table (.short c) false).optionalArg = false) (hdash : ∀ c ∈ cs, c ≠ '-') :
    calls table (('-' :: cs) :: args) = calls table (cs.map (fun c => ['-', c]) ++ args) := by
  have hform : classify ('-' :: cs) = .shorts cs := by
    match cs, hlen with
    | c :: d :: cs, _ =>
      have hc : c ≠ '-' := hdash c List.mem_cons_self
      unfold classify
      split <;> simp_all
  rw [calls_singles table h hdash, calls, hform, if_neg (by simp), argCalls, hform]
  dsimp only
  rw [shortsCalls_none table h]
  rfl

/-- `arg-type` of argparse. -/
inductive ArgType where
  | required
  | optional
  | none_
  deriving DecidableEq, Repr

/-- The option that `add-option` makes. -/
def addOption (names : List Name) (argType : ArgType) (processor : P) : Opt P :=
  ⟨names, argType = .required, argType = .optional, processor⟩

/-- The argument that the processor of `add-option` keeps; `none` where it reports that the
option requires one, and exits. -/
def addOptionProcessor (argType : ArgType) (arg : Arg) : Option Arg :=
  if arg = .false_ ∧ argType = .required then none
  else some (if argType = .required ∨ argType = .optional then arg else .true_)

/-- By the rule a required argument is reported just if it is missing. -/
theorem missing_reported (names : List Name) (argType : ArgType) (processor : P)
    (attached : Option (List Char)) (args : List (List Char)) :
    addOptionProcessor argType (argument (addOption names argType processor) attached args).1 =
        none ↔ argType = .required ∧ attached = none ∧ args = [] := by
  cases argType <;> cases attached <;> cases args <;>
    simp [addOptionProcessor, argument, addOption]

end Groups

/-- **The arguments of a program**: whatever the procedures do, the calls are those of the one
rule, in order, just if every argument up to `--` is treated alike.  By that rule a group of
options without arguments is as these one by one, and a required argument that is missing is
reported. -/
theorem args_fold {P : Type} (table : Table P) (args : List (List Char)) :
    ((∀ (S : Type) (procs : Procedures P S) (seeds : S),
        scanArgs procs table args seeds = performAll procs (calls table args) seeds) ↔
      Uniform table args) ∧
    (∀ cs : List Char, 1 < cs.length → (∀ c ∈ cs,
        (findOption table (.short c) false).requiredArg = false ∧
          (findOption table (.short c) false).optionalArg = false) → (∀ c ∈ cs, c ≠ '-') →
      calls table (('-' :: cs) :: args) = calls table (cs.map (fun c => ['-', c]) ++ args)) ∧
    ∀ names argType (processor : P) attached,
      addOptionProcessor argType (argument (addOption names argType processor) attached args).1 =
        none ↔ argType = .required ∧ attached = none ∧ args = [] := by
  refine ⟨⟨fun h => ?_, fun h S procs seeds => ?_⟩, fun cs hlen h hdash => ?_, ?_⟩
  · refine uniform_of_recorder table (Nat.le_refl _) [] ?_
    rw [h, performAll_recorder]
  · exact scanArgs_performAll procs table (Nat.le_refl _) seeds h
  · exact calls_group table hlen h hdash
  · exact fun names argType processor attached =>
      missing_reported names argType processor attached args

/-- An option `-x` that requires an argument. -/
def requiredX : Opt Unit := addOption [.short 'x'] .required ()

/-- `-x` on its own: the processor is handed `#t`, and does not report what it would have
reported of `#f`. -/
theorem short_required_missing :
    scanArgs recorder ⟨[requiredX], ()⟩ [['-', 'x']] [] =
        .ok [.option requiredX (.short 'x') .true_] ∧
      calls ⟨[requiredX], ()⟩ [['-', 'x']] = [.option requiredX (.short 'x') .false_] ∧
      addOptionProcessor .required .true_ ≠ none ∧ addOptionProcessor .required .false_ = none := by
  refine ⟨?_, ?_, by decide, by decide⟩
  · simp [scanArgs, scanArg, classify, scanShort, findOption, requiredX, addOption, takesNext,
      process, recorder, remaining]
  · simp [calls, argCalls, classify, optionCalls, findOption, requiredX, addOption, argument,
      remaining]

end Idio.ArgsFold
