import Mathlib.Data.List.Basic

/-!
# Threads, a mutex and a condition variable

The threads of a process – the one that runs `main` and the ones it creates – and what
they share to wait for each other. Nothing here mentions a program.

* A mutex is the thread that holds it. Locking waits while somebody does; unlocking is
  for the holder only, and what an unlock by anybody else does is left open
  (`SystemProgramming.Mutex.unlock` has no result there).
* A condition variable is the list of the threads that wait for it and have not been
  woken. A signal wakes one of them, and is dropped when there is none
  (`SystemProgramming.CondVar.signal`); a thread may also wake for no reason
  (`SystemProgramming.CondVar.spurious`).
-/

namespace SystemProgramming

/-- The threads of a process. -/
inductive Thread where
  /-- The thread that runs `main`. -/
  | main
  /-- The thread that was created with this number. -/
  | worker (i : ℕ)
  deriving DecidableEq, Repr

/-- A mutex: the thread that holds it, if one does. -/
structure Mutex where
  owner : Option Thread
  deriving DecidableEq, Repr

namespace Mutex

variable {m m' : Mutex} {t : Thread}

/-- A mutex nobody holds. -/
def free : Mutex := ⟨none⟩

/-- The thread `t` takes the mutex, which waits while it is held. -/
def lock (m : Mutex) (t : Thread) : Option Mutex := if m.owner = none then some ⟨some t⟩ else none

/-- The thread `t` gives the mutex back, if it is the one that holds it. -/
def unlock (m : Mutex) (t : Thread) : Option Mutex := if m.owner = some t then some free else none

theorem lock_eq_some : m.lock t = some m' ↔ m.owner = none ∧ m' = ⟨some t⟩ := by
  rw [lock]
  split_ifs with h <;> simp [h, eq_comm]

theorem unlock_eq_some : m.unlock t = some m' ↔ m.owner = some t ∧ m' = free := by
  rw [unlock]
  split_ifs with h <;> simp [h, eq_comm]

end Mutex

/-- A condition variable: the threads that wait for it and have not been woken. -/
structure CondVar where
  waiters : List Thread
  deriving DecidableEq, Repr

namespace CondVar

variable {c c' : CondVar} {t : Thread} {woken : Option Thread}

/-- A condition variable nobody waits for. -/
def init : CondVar := ⟨[]⟩

/-- The thread `t` begins to wait. -/
def wait (c : CondVar) (t : Thread) : CondVar := ⟨t :: c.waiters⟩

/-- A signal: it wakes a waiting thread, and nobody only when nobody waits. -/
def signal (c : CondVar) : Option Thread → Option CondVar
  | none => if c.waiters = [] then some c else none
  | some t => if t ∈ c.waiters then some ⟨c.waiters.erase t⟩ else none

/-- The waiting thread `t` wakes for no reason. -/
def spurious (c : CondVar) (t : Thread) : Option CondVar :=
  if t ∈ c.waiters then some ⟨c.waiters.erase t⟩ else none

/-- **A signal wakes a thread if one waits**, and is dropped if none does. -/
theorem signal_cases (h : c.signal woken = some c') :
    (c.waiters = [] ∧ c' = c) ∨ ∃ t ∈ c.waiters, c'.waiters = c.waiters.erase t := by
  cases woken with
  | none =>
    rw [signal] at h
    split_ifs at h with hnil
    exact Or.inl ⟨hnil, (Option.some.inj h).symm⟩
  | some t =>
    rw [signal] at h
    split_ifs at h with hmem
    obtain rfl := Option.some.inj h
    exact Or.inr ⟨t, hmem, rfl⟩

theorem spurious_cases (h : c.spurious t = some c') :
    t ∈ c.waiters ∧ c'.waiters = c.waiters.erase t := by
  rw [spurious] at h
  split_ifs at h with hmem
  obtain rfl := Option.some.inj h
  exact ⟨hmem, rfl⟩

end CondVar

end SystemProgramming
