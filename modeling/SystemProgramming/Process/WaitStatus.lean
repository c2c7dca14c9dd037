import Mathlib.Data.Nat.Notation

/-!
# The status of a wait

How a process has died, the number that a wait returns of it, and the macros of the C library that
take this number apart. Nothing here mentions a program.
-/

namespace SystemProgramming

namespace WaitStatus

/-- How a process has died. -/
inductive Death where
  | exited (status : ℕ)
  | signaled (signal : ℕ) (core : Bool)
  deriving DecidableEq, Repr

/-- What can happen: a status has eight bits, and there are 64 signals. -/
def Death.Valid : Death → Prop
  | .exited status => status < 256
  | .signaled signal _ => 1 ≤ signal ∧ signal ≤ 64

/-- The number that a wait returns of it. -/
def Death.stat : Death → ℕ
  | .exited status => status * 256
  | .signaled signal core => signal + if core then 128 else 0

def WTERMSIG (stat : ℕ) : ℕ := stat &&& 0x7f

def WEXITSTATUS (stat : ℕ) : ℕ := (stat &&& 0xff00) >>> 8

def WIFEXITED (stat : ℕ) : Bool := WTERMSIG stat = 0

/-- One more than the signal, as a `signed char`, is halved. -/
def WIFSIGNALED (stat : ℕ) : Bool := 0 < (Int8.ofNat ((stat &&& 0x7f) + 1)).toInt / 2

def WIFSTOPPED (stat : ℕ) : Bool := stat &&& 0xff = 0x7f

def WSTOPSIG (stat : ℕ) : ℕ := WEXITSTATUS stat

def WCOREDUMP (stat : ℕ) : ℕ := stat &&& 0x80

def WIFCONTINUED (stat : ℕ) : Bool := stat = 0xffff

/-- **The macros of a status**, for a process that has exited. -/
theorem macros_exited {status : ℕ} (h : status < 256) :
    WIFEXITED (Death.exited status).stat = true ∧ WEXITSTATUS (Death.exited status).stat = status ∧
    WIFSIGNALED (Death.exited status).stat = false ∧
    WIFSTOPPED (Death.exited status).stat = false ∧
    WIFCONTINUED (Death.exited status).stat = false := by
  revert status
  decide +kernel

/-- For a process that a signal has killed. -/
theorem macros_signaled {signal : ℕ} {core : Bool} (h : (Death.signaled signal core).Valid) :
    WIFEXITED (Death.signaled signal core).stat = false ∧
    WIFSIGNALED (Death.signaled signal core).stat = true ∧
    WTERMSIG (Death.signaled signal core).stat = signal ∧
    (WCOREDUMP (Death.signaled signal core).stat ≠ 0 ↔ core = true) ∧
    WIFSTOPPED (Death.signaled signal core).stat = false ∧
    WIFCONTINUED (Death.signaled signal core).stat = false := by
  obtain ⟨hlow, hhigh⟩ := h
  have hall : ∀ signal < 65, 1 ≤ signal → ∀ core,
      WIFEXITED (Death.signaled signal core).stat = false ∧
      WIFSIGNALED (Death.signaled signal core).stat = true ∧
      WTERMSIG (Death.signaled signal core).stat = signal ∧
      (WCOREDUMP (Death.signaled signal core).stat ≠ 0 ↔ core = true) ∧
      WIFSTOPPED (Death.signaled signal core).stat = false ∧
      WIFCONTINUED (Death.signaled signal core).stat = false := by
    decide +kernel
  exact hall signal (Nat.lt_succ_of_le hhigh) hlow core

end WaitStatus

end SystemProgramming
