import SystemProgramming.Calls

/-!
# Error reporting: `handle_err`, `WARN` and `FATAL`

The error routine that every program of the repository is linked with
(`common.c`). A caller uses it in two ways, both macros of `common.h`: `WARN`
reports and comes back, `FATAL` reports and exits – so a check
`if (failed) FATAL(…);` is written without a `return`, and the code behind it
relies on what was checked.

`handle_err` formats the message in memory it allocates itself, and gives up
when that allocation fails: it returns -1, *before* looking at `fatal`. So
whether `FATAL` comes back is decided by an allocation
(`SystemProgramming.HandleErr.handleErr_returns_iff`), and a caller that has just
met a failed allocation is the one most likely to see it come back.
-/

namespace SystemProgramming

namespace HandleErr

/-- The size of the memory the message is formatted in. -/
def ERRSTRMAX : ℕ := 512

/-- `EXIT_FAILURE`, the status `FATAL` exits with. -/
def EXIT_FAILURE : ℤ := 1

/-- `NON_FATAL`, which `WARN` calls `handle_err` with. -/
def NON_FATAL : ℤ := 0

/-- What becomes of the control: the call returns a value, or the process exits
with a status. -/
inductive Control where
  /-- The call returns to its caller. -/
  | returns (v : ℤ)
  /-- The process exits. -/
  | exits (status : ℤ)
  deriving DecidableEq, Repr

/-- What a call of `handle_err` does: what it prints on `stderr`, and where the
control goes. -/
structure Report where
  stderr : List Char
  control : Control
  deriving DecidableEq, Repr

/-- What `perror("kernel says")` prints, after two blanks, when `errno` is set. -/
def kernelSays (strerror : ℤ → List Char) (errno : ℤ) : List Char :=
  if errno = 0 then []
  else "  ".toList ++ "kernel says: ".toList ++ strerror errno ++ "\n".toList

/-- `handle_err`. The message `msg` is the format with its arguments filled in;
`vsnprintf` keeps what fits `ERRSTRMAX - 1` bytes with the closing NUL. `alloc`
is whether the allocation of the message memory succeeds. -/
def handleErr (strerror : ℤ → List Char) (fatal : ℤ) (msg : List Char) (errno : ℤ)
    (alloc : Bool) : Report :=
  if alloc = false then ⟨[], .returns (-1)⟩
  else
    let out := msg.take (ERRSTRMAX - 2) ++ kernelSays strerror errno
    if fatal = 0 then ⟨out, .returns 0⟩ else ⟨out, .exits fatal⟩

/-- The place in the source that both macros put in front of the message. -/
def place (file func line : List Char) : List Char :=
  file ++ ":".toList ++ func ++ ":".toList ++ line ++ ": ".toList

/-- The macro `WARN`. -/
def WARN (strerror : ℤ → List Char) (file func line warnmsg : List Char) (errno : ℤ)
    (alloc : Bool) : Report :=
  handleErr strerror NON_FATAL ("!WARNING! ".toList ++ place file func line ++ warnmsg) errno alloc

/-- The macro `FATAL`. -/
def FATAL (strerror : ℤ → List Char) (file func line errmsg : List Char) (errno : ℤ)
    (alloc : Bool) : Report :=
  handleErr strerror EXIT_FAILURE ("FATAL:".toList ++ place file func line ++ errmsg) errno alloc

variable {strerror : ℤ → List Char} {fatal : ℤ} {msg : List Char} {errno : ℤ} {alloc : Bool}

/-- **A fatal report exits with its status exactly when its own allocation
succeeds.** -/
theorem handleErr_exits_iff (hfatal : fatal ≠ 0) :
    (handleErr strerror fatal msg errno alloc).control = .exits fatal ↔ alloc = true := by
  cases alloc <;> simp [handleErr, hfatal]

/-- **A fatal report comes back exactly when its own allocation fails**, whatever
the message and `errno`. -/
theorem handleErr_returns_iff (hfatal : fatal ≠ 0) :
    (∃ v, (handleErr strerror fatal msg errno alloc).control = .returns v) ↔ alloc = false := by
  cases alloc <;> simp [handleErr, hfatal]

/-- A report that is not fatal always comes back. -/
theorem handleErr_returns_of_nonfatal :
    ∃ v, (handleErr strerror NON_FATAL msg errno alloc).control = .returns v := by
  cases alloc
  · exact ⟨-1, rfl⟩
  · exact ⟨0, rfl⟩

/-- Nothing longer than the message memory is printed of the message. -/
theorem length_stderr_le : (handleErr strerror fatal msg errno alloc).stderr.length ≤
    (ERRSTRMAX - 2) + (kernelSays strerror errno).length := by
  rw [handleErr]
  split_ifs
  · simp
  all_goals
    simp only [List.length_append, List.length_take]
    omega

/-- Where the control goes after `FATAL`, as its callers see it. -/
def fatalControl (alloc : Bool) : Control := if alloc then .exits EXIT_FAILURE else .returns (-1)

/-- **The message does not matter** to where the control goes after `FATAL`: the
programs below keep `SystemProgramming.HandleErr.fatalControl` of it only. -/
theorem control_FATAL (file func line errmsg : List Char) :
    (FATAL strerror file func line errmsg errno alloc).control = fatalControl alloc := by
  cases alloc <;> rfl

/-- What a program's step function makes of a call of `FATAL`: the process exits, or the
program goes on in the state `back`. -/
def afterFatal {σ : Type*} (a : Answer) (exit : ℤ → σ) (back : σ) : Option σ :=
  a.status.map fun ok =>
    match fatalControl ok with
    | .exits status => exit status
    | .returns _ => back

theorem afterFatal_cases {σ : Type*} {a : Answer} {exit : ℤ → σ} {back t : σ}
    (h : afterFatal a exit back = some t) : t = back ∨ t = exit EXIT_FAILURE := by
  obtain ⟨ok, -, rfl⟩ := Option.map_eq_some_iff.mp h
  cases ok
  · exact Or.inl rfl
  · exact Or.inr rfl

/-- With the memory for its message, `FATAL` does not come back. -/
theorem afterFatal_exits {σ : Type*} {a : Answer} {exit : ℤ → σ} {back t : σ}
    (h : afterFatal a exit back = some t) (ha : a ≠ .err) : t = exit EXIT_FAILURE := by
  obtain ⟨ok, hok, rfl⟩ := Option.map_eq_some_iff.mp h
  rcases Answer.status_cases hok with ⟨-, rfl⟩ | ⟨herr, -⟩
  · rfl
  · exact absurd herr ha

/-! ### `FATAL`, call by call -/

/-- Where a call of `handle_err` by `FATAL` stands. A thread that can be cancelled can be
cancelled in the calls that print. -/
inductive Stage where
  /-- About to allocate the memory of the message. -/
  | alloc
  /-- About to print the message. -/
  | print
  /-- About to look at `errno`. -/
  | errno
  /-- About to print two blanks. -/
  | blanks
  /-- About to call `perror`. -/
  | perror
  deriving DecidableEq, Repr

/-- The next call is one of the standard I/O library. -/
def Stage.isStdio : Stage → Bool
  | .print | .blanks | .perror => true
  | _ => false

/-- What follows a call of `handle_err`: the next one, or what becomes of the control. -/
def Stage.next : Stage → Answer → Option (Stage ⊕ Control)
  | .alloc, a => a.status.map fun ok => if ok then .inl .print else .inr (.returns (-1))
  | .print, .ok => some (.inl .errno)
  | .errno, a => a.status.map fun ok => if ok then .inl .blanks else .inr (.exits EXIT_FAILURE)
  | .blanks, .ok => some (.inl .perror)
  | .perror, .ok => some (.inr (.exits EXIT_FAILURE))
  | _, _ => none

/-- **Call by call, `FATAL` does what it does at once**: it comes back from its
allocation or not at all. -/
theorem Stage.next_cases {st : Stage} {a : Answer} {r : Stage ⊕ Control}
    (h : st.next a = some r) :
    (∃ st', r = .inl st' ∧ st' ≠ .alloc) ∨ (r = .inr (fatalControl true) ∧ st ≠ .alloc) ∨
      (r = .inr (fatalControl false) ∧ st = .alloc ∧ a = .err) := by
  cases st with
  | alloc =>
    obtain ⟨ok, hok, rfl⟩ := Option.map_eq_some_iff.mp h
    rcases Answer.status_cases hok with ⟨-, rfl⟩ | ⟨rfl, rfl⟩
    · exact Or.inl ⟨.print, rfl, by simp⟩
    · exact Or.inr (Or.inr ⟨rfl, rfl, rfl⟩)
  | errno =>
    obtain ⟨ok, -, rfl⟩ := Option.map_eq_some_iff.mp h
    cases ok
    · exact Or.inr (Or.inl ⟨rfl, by simp⟩)
    · exact Or.inl ⟨.blanks, rfl, by simp⟩
  | print =>
    cases a <;> simp only [Stage.next, reduceCtorEq] at h
    exact Or.inl ⟨.errno, (Option.some.inj h).symm, by simp⟩
  | blanks =>
    cases a <;> simp only [Stage.next, reduceCtorEq] at h
    exact Or.inl ⟨.perror, (Option.some.inj h).symm, by simp⟩
  | perror =>
    cases a <;> simp only [Stage.next, reduceCtorEq] at h
    exact Or.inr (Or.inl ⟨(Option.some.inj h).symm, by simp⟩)

end HandleErr

end SystemProgramming
