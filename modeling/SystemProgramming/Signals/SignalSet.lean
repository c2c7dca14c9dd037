import Mathlib.Data.Finset.Basic
import Mathlib.Order.Interval.Finset.Nat

/-!
# Signals and sets of signals

The numbers of the signals on Linux, the sets of them that `sigfillset` and `sigdelset` of the C
library make, and what the kernel makes of such a set when it is to be blocked. Nothing here
mentions a program.
-/

namespace SystemProgramming

/-- A signal that has been sent: its number, and what else is known of it. -/
structure Signal (α : Type*) where
  signo : ℕ
  info : α
  deriving DecidableEq, Repr

namespace SignalSet

def SIGINT : ℕ := 2
def SIGQUIT : ℕ := 3
def SIGILL : ℕ := 4
def SIGABRT : ℕ := 6
def SIGBUS : ℕ := 7
def SIGFPE : ℕ := 8
def SIGKILL : ℕ := 9
def SIGSEGV : ℕ := 11
def SIGSTOP : ℕ := 19

/-- The first real-time signal, as the C library numbers them. -/
def SIGRTMIN : ℕ := 34

/-- The last one. -/
def SIGRTMAX : ℕ := 64

/-- A real-time signal: it is queued as often as it is sent. -/
def IsRealTime (n : ℕ) : Prop := SIGRTMIN ≤ n ∧ n ≤ SIGRTMAX

instance : DecidablePred IsRealTime := fun n =>
  inferInstanceAs (Decidable (SIGRTMIN ≤ n ∧ n ≤ SIGRTMAX))

/-- The set of all signals; the C library keeps two numbers for itself. -/
def sigfillset : Finset ℕ := ((Finset.Icc 1 64).erase 32).erase 33

/-- A signal is taken out of a set. -/
def sigdelset (s : Finset ℕ) (n : ℕ) : Finset ℕ := s.erase n

/-- What the kernel blocks of a set: two signals are never blocked. -/
def maskable (s : Finset ℕ) : Finset ℕ := (s.erase SIGKILL).erase SIGSTOP

theorem mem_maskable {s : Finset ℕ} {n : ℕ} :
    n ∈ maskable s ↔ n ≠ SIGSTOP ∧ n ≠ SIGKILL ∧ n ∈ s := by
  rw [maskable, Finset.mem_erase, Finset.mem_erase]

theorem mem_sigfillset {n : ℕ} :
    n ∈ sigfillset ↔ n ≠ 33 ∧ n ≠ 32 ∧ 1 ≤ n ∧ n ≤ 64 := by
  rw [sigfillset, Finset.mem_erase, Finset.mem_erase, Finset.mem_Icc]

/-- Every real-time signal can be blocked, with all others. -/
theorem IsRealTime.mem {n : ℕ} (h : IsRealTime n) : n ∈ maskable sigfillset := by
  obtain ⟨hlow, hhigh⟩ := h
  rw [mem_maskable, mem_sigfillset]
  simp only [SIGSTOP, SIGKILL, SIGRTMIN, SIGRTMAX] at *
  omega

end SignalSet

end SystemProgramming
