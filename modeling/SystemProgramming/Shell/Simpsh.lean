import SystemProgramming.Calls
import SystemProgramming.HandleErr
import SystemProgramming.Runs
import SystemProgramming.Strings

/-!
# The simple shell

`simpsh_v1`, `simpsh_v2` and `simpsh_v3` (`ch10/`): a prompt, a line read with `fgets`, a
child that executes it, and the wait for the child. The three read their commands alike.
They differ in how they wait: the first two call `wait`, which returns when *some* child
has terminated, and the third calls `waitpid` for any child, which returns as well when
some child has stopped or been continued.

The shell and its children are one step function (`SystemProgramming.Simpsh.step`), with
the version as a parameter. A label says who moves: the shell, whose calls the kernel
answers, or a child, whose state changes. Which of several children a wait returns for is
up to the kernel, and so is part of the label.

The stream is what the shell's own reads yield; a command is what the child hands to
`execlp`.
-/

namespace SystemProgramming

open HandleErr Runs Strings

namespace Simpsh

/-- The size of the buffer. -/
def CMD_MAXLEN : ℕ := 128

/-- `EXIT_SUCCESS`. -/
def EXIT_SUCCESS : ℤ := 0

/-- The command that ends the shell, `quit`. -/
def quit : List UInt8 := [113, 117, 105, 116]

/-! ### Reading a command -/

/-- What becomes of a call of `getcmd`. -/
inductive Got where
  /-- It returns NULL. -/
  | null
  /-- It returns the buffer, which is this now; the rest of the stream is left. -/
  | cmd (cmdstr rest : List UInt8)
  /-- It writes to the byte in front of the buffer. -/
  | wild
  deriving DecidableEq, Repr

/-- The last byte of the string is overwritten, which is meant to be the newline. -/
def chop (cmdstr rest : List UInt8) : Got :=
  match strlen cmdstr with
  | 0 => .wild
  | k + 1 => .cmd (cmdstr.set k 0) rest

/-- `getcmd`. -/
def getcmd (cmdstr input : List UInt8) : Got :=
  match fgets (CMD_MAXLEN - 1) cmdstr input with
  | none => .null
  | some (cmdstr, rest) => chop cmdstr rest

/-! ### The children -/

/-- A change of a child's state, as the status of a wait tells it. -/
inductive Change where
  /-- It has exited with this status. -/
  | exited (status : ℤ)
  /-- This signal has killed it; `core` is whether a core was dumped. -/
  | signaled (signal : ℤ) (core : Bool)
  /-- This signal has stopped it. -/
  | stopped (signal : ℤ)
  /-- It has been continued. -/
  | continued
  deriving DecidableEq, Repr

/-- The child is there no longer. -/
def Change.isEnd : Change → Bool
  | .exited _ | .signaled _ _ => true
  | _ => false

/-- The state of a child. -/
inductive Phase where
  | running
  | stopped
  /-- It has terminated, and nobody has waited for it. -/
  | zombie
  /-- It has terminated, and a wait has returned for it. -/
  | reaped
  deriving DecidableEq, Repr

/-- A child, and its last change of state as long as no wait has returned with it. -/
structure Child where
  phase : Phase
  news : Option Change
  deriving DecidableEq, Repr

namespace Child

/-- A child that has been forked. -/
def new : Child := ⟨.running, none⟩

/-- The state of a child changes. -/
def change (c : Child) (ch : Change) : Option Child :=
  match c.phase, ch with
  | .running, .exited n => some ⟨.zombie, some (.exited n)⟩
  | .running, .signaled g core => some ⟨.zombie, some (.signaled g core)⟩
  | .stopped, .signaled g core => some ⟨.zombie, some (.signaled g core)⟩
  | .running, .stopped g => some ⟨.stopped, some (.stopped g)⟩
  | .stopped, .continued => some ⟨.running, some .continued⟩
  | _, _ => none

/-- A wait returns for the child; `options` is whether it asks for stopped and continued
children, too. -/
def wait (c : Child) (options : Bool) : Option (Change × Child) :=
  match c.news with
  | none => none
  | some ch =>
    if ch.isEnd then some (ch, ⟨.reaped, none⟩)
    else if options then some (ch, { c with news := none })
    else none

end Child

/-! ### The shell -/

/-- The three programs. -/
inductive Version where
  | v1
  | v2
  | v3
  deriving DecidableEq, Repr

namespace Version

/-- It waits with `WUNTRACED|WCONTINUED`. -/
def options : Version → Bool
  | v1 => false
  | v2 => false
  | v3 => true

/-- It frees the buffer when the wait has failed. -/
def freesOnWait : Version → Bool
  | v1 => false
  | v2 => true
  | v3 => true

end Version

/-- Where the shell stands. -/
inductive Pc where
  /-- About to allocate the buffer. -/
  | calloc
  /-- That failed; `FATAL` is about to allocate its message. -/
  | callocFatal
  /-- About to prompt and read. -/
  | getcmd
  /-- There was nothing to read and the buffer has been freed; about to call `FATAL`. -/
  | eofFatal
  /-- About to look at the command. -/
  | test
  /-- About to fork. -/
  | fork
  /-- That failed and the buffer has been freed; about to call `FATAL`. -/
  | forkFatal
  /-- About to wait. -/
  | wait
  /-- That failed; about to call `FATAL`. -/
  | waitFatal
  deriving DecidableEq, Repr

/-- How the shell ends. -/
inductive End where
  /-- It has exited with this status. -/
  | exited (status : ℤ)
  /-- It has written to a byte outside its buffer. -/
  | wild
  /-- It has used a buffer that is not there: NULL, or freed. -/
  | noBuffer
  deriving DecidableEq, Repr

/-- What a wait has returned: for which child, and which command was the last. -/
structure Report where
  command : ℕ
  child : ℕ
  change : Change
  deriving DecidableEq, Repr

/-- The state of the shell and of its children. -/
structure Shell where
  pc : Pc
  /-- What is left of the stream. -/
  input : List UInt8
  /-- The buffer. -/
  cmd : List UInt8
  /-- The commands executed. -/
  execd : List (List UInt8)
  /-- The children, in the order of the commands. -/
  children : List Child
  reports : List Report
  ended : Option End
  deriving DecidableEq, Repr

/-- What happens. -/
inductive Label where
  /-- The shell goes on, without a call that the kernel answers. -/
  | go
  /-- The shell allocates memory, for its buffer or for the message of `FATAL`. -/
  | alloc (a : Answer)
  /-- The shell forks. -/
  | fork (a : Answer)
  /-- The wait returns for this child. -/
  | wait (k : ℕ)
  /-- The wait fails. -/
  | waitFails
  /-- The state of a child changes. -/
  | child (k : ℕ) (ch : Change)
  deriving DecidableEq, Repr

/-- The shell is started on a stream. -/
def Shell.start (input : List UInt8) : Shell := ⟨.calloc, input, [], [], [], [], none⟩

/-- `FATAL`, where the buffer is not there to go on with. -/
def fatalNoBuffer (s : Shell) (a : Answer) : Option Shell :=
  afterFatal a (fun status => { s with ended := some (.exited status) })
    { s with ended := some .noBuffer }

/-- `do_simpsh`, and the exit of `main` behind it. -/
def shellStep (v : Version) (s : Shell) (l : Label) : Option Shell :=
  match s.pc, l with
  | .calloc, .alloc a => a.status.map fun ok =>
    if ok then { s with pc := .getcmd, cmd := List.replicate CMD_MAXLEN 0 }
    else { s with pc := .callocFatal }
  | .callocFatal, .alloc a => fatalNoBuffer s a
  | .getcmd, .go =>
    match getcmd s.cmd s.input with
    | .null => some { s with pc := .eofFatal }
    | .cmd cmdstr rest => some { s with pc := .test, cmd := cmdstr, input := rest }
    | .wild => some { s with ended := some .wild }
  | .eofFatal, .alloc a => fatalNoBuffer s a
  | .test, .go =>
    if strncmpEq s.cmd quit 4 then some { s with ended := some (.exited EXIT_SUCCESS) }
    else if s.cmd[0]? = some 0 then some { s with pc := .getcmd }
    else some { s with pc := .fork }
  | .fork, .fork a => a.status.map fun ok =>
    if ok then
      { s with pc := .wait, execd := s.execd ++ [cstr s.cmd], children := s.children ++ [.new] }
    else { s with pc := .forkFatal }
  | .forkFatal, .alloc a => fatalNoBuffer s a
  | .wait, .wait k =>
    match s.children[k]?.bind fun c => c.wait v.options with
    | some (ch, c) =>
      some { s with
        pc := .getcmd
        children := s.children.set k c
        reports := s.reports ++ [⟨s.children.length - 1, k, ch⟩] }
    | none => none
  | .wait, .waitFails => some { s with pc := .waitFatal }
  | .waitFatal, .alloc a =>
    if v.freesOnWait then fatalNoBuffer s a
    else afterFatal a (fun status => { s with ended := some (.exited status) })
      { s with pc := .getcmd }
  | _, _ => none

/-- **The step function.** The children go on when the shell has ended. -/
def step (v : Version) (s : Shell) : Label → Option Shell
  | .child k ch =>
    (s.children[k]?.bind fun c => c.change ch).map fun c =>
      { s with children := s.children.set k c }
  | l =>
    match s.ended with
    | some _ => none
    | none => shellStep v s l

/-- A line that `interpret_wait` prints. -/
inductive Shown where
  | statusChanged (child : ℕ)
  | normal (status : ℤ)
  | abnormal (signal : ℤ) (core : Bool)
  | stopped (signal : ℤ)
  | resumed
  deriving DecidableEq, Repr

/-- `interpret_wait`. -/
def interpretWait (child : ℕ) (wstatus : Change) : List Shown :=
  .statusChanged child ::
    match wstatus with
    | .exited n => [.normal n]
    | .signaled g core => [.abnormal g core]
    | .stopped g => [.stopped g]
    | .continued => [.resumed]

section Steps

variable {v : Version} {s s' : Shell} {l : Label}

/-- What a child does is nothing to the shell. -/
theorem step_child {k : ℕ} {ch : Change} (h : step v s (.child k ch) = some s') :
    ∃ cs, s' = { s with children := cs } := by
  obtain ⟨c, -, rfl⟩ := Option.map_eq_some_iff.mp h
  exact ⟨_, rfl⟩

/-- A step of the shell is one of a shell that has not ended. -/
theorem step_shell (hl : ∀ k ch, l ≠ .child k ch) (h : step v s l = some s') :
    s.ended = none ∧ shellStep v s l = some s' := by
  unfold step at h
  cases l <;> simp only at h
  case child k ch => exact absurd rfl (hl k ch)
  all_goals
    split at h
    · cases h
    · exact ⟨by assumption, h⟩

/-- `FATAL`, where there is no buffer to go on with: what becomes of the shell. -/
theorem fatalNoBuffer_cases {a : Answer} (h : fatalNoBuffer s a = some s') :
    (a ≠ .err ∧ s' = { s with ended := some (.exited EXIT_FAILURE) }) ∨
      (a = .err ∧ s' = { s with ended := some .noBuffer }) := by
  obtain ⟨ok, hok, rfl⟩ := Option.map_eq_some_iff.mp h
  rcases Answer.status_cases hok with ⟨rfl, rfl⟩ | ⟨rfl, rfl⟩
  · exact Or.inl ⟨by simp, rfl⟩
  · exact Or.inr ⟨rfl, rfl⟩

end Steps

end Simpsh

end SystemProgramming
