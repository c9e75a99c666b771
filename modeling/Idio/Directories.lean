/-
  Directories.lean --- the directory stack of path-functions.

  `pushd`, `popd` and `setd` share `test-and-chdir`, which changes the directory and
  pushes an entry.  What a name denotes is a matter of the file system: `d?` is a
  parameter, of the current directory and the name, and `libc/chdir` succeeds.

  `Holds` is what the stack is for: its top is the current directory, and each
  command changes it as its documentation says.  `directory_stack` says which runs
  keep to it.
-/
import Idio.Text

set_option autoImplicit false

namespace Idio.Directories

/-! ## Names -/

/-- The name matches `/*`. -/
def Absolute (d : Text) : Prop :=
  d.head? = some '/'

instance (d : Text) : Decidable (Absolute d) :=
  inferInstanceAs (Decidable (d.head? = some '/'))

/-- One element of `reduce-pathname`; `r` holds the elements so far, last first. -/
def reduceElement (r : List Text) (e : Text) : List Text :=
  if e = [] then r
  else if e = ['.'] then r
  else if e = ['.', '.'] then
    match r with
    | [] => []
    | _ :: t => t
  else e :: r

/-- `reduce-pathname`, with `#\/` for `sep` -/
def reducePathname (val : Text) : Text :=
  if 0 < val.length then
    if val = ['.'] then val
    else
      let r := ((val.splitOn '/').foldl reduceElement []).reverse
      if r = [] then
        if val.head? = some '/' then ['/'] else []
      else
        let rs := ['/'].intercalate r
        if val.head? = some '/' then '/' :: rs else rs
  else val

/-- `normalize-pathname`, with `#\/` for `sep` -/
def normalizePathname (pwd val : Text) : Text :=
  reducePathname
    (if ¬ (0 < val.length ∧ val.head? = some '/') then pwd ++ ['/'] ++ val else val)

theorem absolute_reducePathname {val : Text} (h : Absolute val) :
    Absolute (reducePathname val) := by
  have hlen : 0 < val.length := by
    cases val with
    | nil => simp [Absolute] at h
    | cons c cs => simp
  have hdot : val ≠ ['.'] := by
    rintro rfl
    simp [Absolute] at h
  have hhead : val.head? = some '/' := h
  simp only [reducePathname, if_pos hlen, if_neg hdot, if_pos hhead]
  split <;> rfl

theorem absolute_normalizePathname {pwd d : Text} (h : Absolute pwd) :
    Absolute (normalizePathname pwd (pwd ++ ['/'] ++ d)) := by
  obtain ⟨c, cs, rfl⟩ : ∃ c cs, pwd = c :: cs := by
    cases pwd with
    | nil => simp [Absolute] at h
    | cons c cs => exact ⟨c, cs, rfl⟩
  have hc : c = '/' := by simpa [Absolute] using h
  apply absolute_reducePathname
  simp [Absolute, hc]

/-! ## The commands -/

/-- `PWD` and `dir-stack` -/
structure Shell where
  pwd : Text
  dirStack : List Text
  deriving DecidableEq, Repr

section Commands

-- `d?`, of the current directory and a name
variable (isDirectory : Text → Text → Bool)

/-- `test-and-chdir` -/
def testAndChdir (st : Shell) (d : Text) : Shell × Bool :=
  if isDirectory st.pwd d then
    let pwd := if Absolute d then d else normalizePathname st.pwd (st.pwd ++ ['/'] ++ d)
    ({ st with dirStack := d :: st.dirStack, pwd := pwd }, true)
  else (st, false)

/-- `pushd` -/
def pushd (st : Shell) (d : Text) : Shell × Bool :=
  testAndChdir isDirectory st d

/-- `setd` -/
def setd (st : Shell) (d : Text) : Shell × Bool :=
  testAndChdir isDirectory st d

/-- `popd` -/
def popd (st : Shell) : Shell × Bool :=
  match st.dirStack with
  | _ :: d :: ds => setd isDirectory { st with dirStack := d :: ds } d
  | [] | [_] => (st, false)

/-- A call of one of the commands. -/
inductive Command where
  | pushd (d : Text)
  | popd
  | setd (d : Text)
  deriving DecidableEq, Repr

/-- What a command leaves. -/
def step (st : Shell) : Command → Shell
  | .pushd d => (pushd isDirectory st d).1
  | .popd => (popd isDirectory st).1
  | .setd d => (setd isDirectory st d).1

variable {isDirectory}

theorem step_pushd {st : Shell} {d : Text} (hd : isDirectory st.pwd d = true) :
    step isDirectory st (.pushd d) =
      { pwd := if Absolute d then d else normalizePathname st.pwd (st.pwd ++ ['/'] ++ d),
        dirStack := d :: st.dirStack } := by
  simp [step, pushd, testAndChdir, hd]

theorem step_setd {st : Shell} {d : Text} (hd : isDirectory st.pwd d = true) :
    step isDirectory st (.setd d) =
      { pwd := if Absolute d then d else normalizePathname st.pwd (st.pwd ++ ['/'] ++ d),
        dirStack := d :: st.dirStack } := by
  simp [step, setd, testAndChdir, hd]

theorem step_popd_one {st : Shell} {e : Text} (h : st.dirStack = [e]) :
    step isDirectory st .popd = st := by
  simp [step, popd, h]

theorem step_popd {st : Shell} {a b : Text} {r : List Text} (h : st.dirStack = a :: b :: r)
    (hb : isDirectory st.pwd b = true) :
    (step isDirectory st .popd).dirStack = b :: b :: r := by
  simp [step, popd, h, setd, testAndChdir, hb]

end Commands

/-! ## What the stack is for -/

/-- The top of the stack is the current directory. -/
def TopIsPwd (st : Shell) : Prop :=
  st.dirStack.head? = some st.pwd

/-- What the documentation of a command says it does. -/
def Does (st : Shell) (st' : Shell) : Command → Prop
  | .pushd _ => ∃ e, st'.dirStack = e :: st.dirStack
  | .setd _ => ∃ e, st'.dirStack = e :: st.dirStack.tail
  | .popd => ∀ a b r, st.dirStack = a :: b :: r → st'.dirStack = b :: r ∧ st'.pwd = b

section Runs

variable (isDirectory : Text → Text → Bool)

/-- Every state of the run has the current directory on top, and every command does
what it says. -/
def Holds (st : Shell) : List Command → Prop
  | [] => TopIsPwd st
  | c :: cs =>
      TopIsPwd st ∧ Does st (step isDirectory st c) c ∧ Holds (step isDirectory st c) cs

/-- The names given to the commands are those of directories. -/
def Named (st : Shell) : List Command → Prop
  | [] => True
  | c :: cs =>
      (∀ d, c = .pushd d ∨ c = .setd d → isDirectory st.pwd d = true) ∧
        Named (step isDirectory st c) cs

/-- The command pushes an absolute name, or is refused for a stack of one entry. -/
def Keeps (st : Shell) : Command → Prop
  | .pushd d => Absolute d
  | .popd => st.dirStack.length ≤ 1
  | .setd _ => False

/-- Every command of the run is such a command. -/
def KeepsAll (st : Shell) : List Command → Prop
  | [] => True
  | c :: cs => Keeps st c ∧ KeepsAll (step isDirectory st c) cs

/-- What is true of the stack in a run of such commands: its entries are absolute names
of directories, the current directory first. -/
structure Sound (st : Shell) : Prop where
  top : TopIsPwd st
  absolute : ∀ e ∈ st.dirStack, Absolute e
  directory : ∀ e ∈ st.dirStack, ∀ pwd, isDirectory pwd e = true

variable {isDirectory}

theorem Sound.pwd {st : Shell} (h : Sound isDirectory st) : Absolute st.pwd :=
  h.absolute st.pwd (List.mem_of_mem_head? h.top)

/-- A name that is not absolute never becomes the current directory. -/
theorem Sound.pushd_absolute {st : Shell} {d : Text} (h : Sound isDirectory st)
    (hd : isDirectory st.pwd d = true) (htop : TopIsPwd (step isDirectory st (.pushd d))) :
    Absolute d := by
  rw [step_pushd hd] at htop
  by_cases ha : Absolute d
  · exact ha
  · have heq : d = normalizePathname st.pwd (st.pwd ++ ['/'] ++ d) := by
      simpa [TopIsPwd, if_neg ha] using htop
    rw [heq]
    exact absolute_normalizePathname h.pwd

/-- A command that does what it says, from a sound state, is one that keeps it. -/
theorem Sound.keeps {st : Shell} {c : Command} (h : Sound isDirectory st)
    (hnamed : ∀ d, c = .pushd d ∨ c = .setd d → isDirectory st.pwd d = true)
    (hdoes : Does st (step isDirectory st c) c) (htop : TopIsPwd (step isDirectory st c)) :
    Keeps st c := by
  cases c with
  | pushd d => exact h.pushd_absolute (hnamed d (.inl rfl)) htop
  | setd d =>
    -- the entry is added, not replaced: the stack is one longer than it should be
    obtain ⟨e, he⟩ := hdoes
    rw [step_setd (hnamed d (.inr rfl))] at he
    have hlen := congrArg List.length he
    have hpos : 0 < st.dirStack.length :=
      List.length_pos_of_mem (List.mem_of_mem_head? h.top)
    simp at hlen
    omega
  | popd =>
    match hstack : st.dirStack with
    | [] => simp [Keeps, hstack]
    | [_] => simp [Keeps, hstack]
    | a :: b :: r =>
      -- `setd` pushes again what `popd` has left on top
      have hb := h.directory b (by simp [hstack]) st.pwd
      have heq := (hdoes a b r hstack).1
      rw [step_popd hstack hb] at heq
      simp at heq

/-- Such a command does what it says and leaves a sound state. -/
theorem Sound.step {st : Shell} {c : Command}
    (habs : ∀ pwd pwd' d, Absolute d → isDirectory pwd d = isDirectory pwd' d)
    (h : Sound isDirectory st)
    (hnamed : ∀ d, c = .pushd d ∨ c = .setd d → isDirectory st.pwd d = true)
    (hkeeps : Keeps st c) :
    Does st (step isDirectory st c) c ∧ Sound isDirectory (step isDirectory st c) := by
  cases c with
  | setd d => exact hkeeps.elim
  | pushd d =>
    have hd := hnamed d (.inl rfl)
    have ha : Absolute d := hkeeps
    rw [step_pushd hd, if_pos ha]
    refine ⟨⟨d, rfl⟩, rfl, ?_, ?_⟩
    · intro e he
      rcases List.mem_cons.mp he with rfl | he
      · exact ha
      · exact h.absolute e he
    · intro e he pwd
      rcases List.mem_cons.mp he with rfl | he
      · rw [habs pwd st.pwd e ha]
        exact hd
      · exact h.directory e he pwd
  | popd =>
    obtain ⟨e, he⟩ : ∃ e, st.dirStack = [e] := by
      have htop := h.top
      match hstack : st.dirStack with
      | [] => simp [TopIsPwd, hstack] at htop
      | [e] => exact ⟨e, rfl⟩
      | a :: b :: r => simp [Keeps, hstack] at hkeeps
    rw [step_popd_one he]
    refine ⟨?_, h⟩
    intro a b r hstack
    simp [he] at hstack

theorem Sound.holds_iff
    (habs : ∀ pwd pwd' d, Absolute d → isDirectory pwd d = isDirectory pwd' d)
    {st : Shell} {cs : List Command} (h : Sound isDirectory st)
    (hnamed : Named isDirectory st cs) :
    Holds isDirectory st cs ↔ KeepsAll isDirectory st cs := by
  induction cs generalizing st with
  | nil => exact ⟨fun _ => trivial, fun _ => h.top⟩
  | cons c cs ih =>
    obtain ⟨hc, hcs⟩ := hnamed
    constructor
    · rintro ⟨-, hdoes, hrest⟩
      have htop : TopIsPwd (Directories.step isDirectory st c) := by
        cases cs with
        | nil => exact hrest
        | cons c' cs => exact hrest.1
      have hkeeps := h.keeps hc hdoes htop
      exact ⟨hkeeps, (ih (h.step habs hc hkeeps).2 hcs).mp hrest⟩
    · rintro ⟨hkeeps, hrest⟩
      obtain ⟨hdoes, hsound⟩ := h.step habs hc hkeeps
      exact ⟨h.top, hdoes, (ih hsound hcs).mpr hrest⟩

end Runs

/-- The directory stack is a stack in the runs that only push absolute names, and in no
other: `popd` puts back the entry that it uncovers, `setd` adds one, and a name that is
not absolute is pushed as it was given. -/
theorem directory_stack (isDirectory : Text → Text → Bool) (pwd : Text) (cs : List Command)
    (habs : ∀ pwd₁ pwd₂ d, Absolute d → isDirectory pwd₁ d = isDirectory pwd₂ d)
    (hpwd : Absolute pwd) (hdir : isDirectory pwd pwd = true)
    (hnamed : Named isDirectory ⟨pwd, [pwd]⟩ cs) :
    Holds isDirectory ⟨pwd, [pwd]⟩ cs ↔ KeepsAll isDirectory ⟨pwd, [pwd]⟩ cs := by
  apply Sound.holds_iff habs _ hnamed
  refine ⟨rfl, ?_, ?_⟩
  · intro e he
    rw [List.mem_singleton.mp he]
    exact hpwd
  · intro e he pwd'
    rw [List.mem_singleton.mp he, habs pwd' pwd pwd hpwd]
    exact hdir

/-- A file system in which every name is that of a directory. -/
theorem directory_stack_pushed :
    Holds (fun _ _ => true) ⟨['/'], [['/']]⟩ [.pushd ['/', 't'], .pushd ['/', 'u']] ↔
      KeepsAll (fun _ _ => true) ⟨['/'], [['/']]⟩ [.pushd ['/', 't'], .pushd ['/', 'u']] :=
  directory_stack (fun _ _ => true) ['/'] [.pushd ['/', 't'], .pushd ['/', 'u']]
    (fun _ _ _ _ => rfl) rfl rfl ⟨fun _ _ => rfl, fun _ _ => rfl, trivial⟩

/-- `pushd /t` and then `popd` at `/`. -/
theorem popd_puts_back :
    (step (fun _ _ => true) (step (fun _ _ => true) ⟨['/'], [['/']]⟩ (.pushd ['/', 't']))
        .popd = ⟨['/'], [['/'], ['/']]⟩) ∧
      ¬ Holds (fun _ _ => true) ⟨['/'], [['/']]⟩ [.pushd ['/', 't'], .popd] := by
  refine ⟨by decide, ?_⟩
  rintro ⟨-, -, -, hdoes, -⟩
  have h := (hdoes ['/', 't'] ['/'] [] (by decide)).1
  revert h
  decide

end Idio.Directories
