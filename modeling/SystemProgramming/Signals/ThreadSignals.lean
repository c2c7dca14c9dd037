import SystemProgramming.HandleErr
import SystemProgramming.Runs
import SystemProgramming.Signals.SignalSet

/-!
# Threads, their signal masks and their handlers

What a multithreaded program does with signals is decided by three things it cannot see in one
place: which signals each of its threads blocks, which of them have a handler, and which thread
waits for a signal with `sigwait`. This file is the part of the kernel that puts them together, for
programs of which only the calls matter that have to do with signals. Nothing here mentions one.

* A program is a list of calls for every kind of thread, those it repeats, and those of its handler
  (`SystemProgramming.ThreadSignals.Program`). A thread that is created inherits the mask of the one
  that creates it.
* A signal sent to the process may be delivered to any thread that does not block it, and may be
  taken by any thread that waits for it; one that a thread raises is its own, and is delivered
  before the thread goes on. A fault hits the thread that makes it: where the signal is blocked or
  has no handler, the process ends.
* A run of a handler begins with its signal blocked, and restores the mask it has found.

Signals of job control are left out: a process that is stopped and continued does the same.

Two rules carry the developments. What every move of a thread keeps, all threads keep in every run
(`SystemProgramming.ThreadSignals.Kept.run`); and a signal that all threads block is never handled
and never ends the process, but stays until it is taken
(`SystemProgramming.ThreadSignals.pending_or_taken`).
-/

namespace SystemProgramming

open HandleErr Runs SignalSet

namespace ThreadSignals

/-- The signals that the default action throws away. -/
def discarded : List ℕ := [17, 23, 28]

/-- The signals of job control. -/
def jobControl : List ℕ := [18, 19, 20, 21, 22]

/-- The signals that the processor raises. -/
def faults : List ℕ := [4, 5, 7, 8, 11, 31]

/-- What a thread makes of a call that fails. -/
inductive Failure where
  /-- It goes on. -/
  | ignored
  /-- It has the process exit. -/
  | exits (status : ℤ)
  /-- It calls `FATAL`. -/
  | fatal
  deriving DecidableEq, Repr

/-- A call of a thread; `ρ` are the kinds of threads. -/
inductive Call (ρ : Type*) where
  /-- One that has nothing to do with signals. -/
  | other (f : Failure)
  /-- `pthread_sigmask(SIG_BLOCK, …)`, which does not fail. -/
  | block (s : Finset ℕ)
  /-- `sigaction`, which installs the handler for a signal. -/
  | sigaction (n : ℕ) (f : Failure)
  /-- `signal(…, SIG_DFL)`. -/
  | revert (n : ℕ) (f : Failure)
  /-- `raise`. -/
  | raise (n : ℕ) (f : Failure)
  /-- `pthread_create`. -/
  | create (r : ρ) (f : Failure)
  /-- `sigwait`. -/
  | sigwait (s : Finset ℕ)
  /-- The signal that was taken is stored where others see it. -/
  | store
  /-- It is printed. -/
  | print
  /-- `exit`. -/
  | exit (status : ℤ)
  /-- `FATAL`. -/
  | fatal
  deriving DecidableEq

variable {ρ : Type*}

/-- The calls that a failure leads to. -/
def Failure.calls : Failure → List (Call ρ)
  | .ignored => []
  | .exits status => [.exit status]
  | .fatal => [.fatal]

/-- A run of the handler: its signal, the mask it will restore, and what it is still to do. -/
structure Frame (ρ : Type*) where
  signum : ℕ
  saved : Finset ℕ
  todo : List (Call ρ)
  deriving DecidableEq

/-- A thread. -/
structure ThreadState (ρ : Type*) where
  kind : ρ
  /-- What it is still to do of its own. -/
  todo : List (Call ρ)
  blocked : Finset ℕ
  /-- The runs of the handler that have not returned, the uppermost first. -/
  frames : List (Frame ρ)
  /-- The signals that wait for this thread. -/
  pending : List ℕ
  /-- The signal it has taken last. -/
  sig : ℕ
  /-- All it has taken. -/
  taken : List ℕ
  /-- Those it has printed. -/
  printed : List ℕ
  deriving DecidableEq

/-- How a process ends. -/
inductive Ending where
  /-- It has called `exit`. -/
  | exited (status : ℤ)
  /-- A signal without a handler was delivered. -/
  | killed (n : ℕ)
  /-- A thread has made a fault that could not be handled. -/
  | faulted (n : ℕ)
  deriving DecidableEq, Repr

/-- The state of a process. -/
structure State (ρ : Type*) where
  threads : List (ThreadState ρ)
  /-- The signals that wait for the process. -/
  pending : List ℕ
  /-- The signals with the handler installed. -/
  handled : Finset ℕ
  /-- The signal that was stored last, -1 before. -/
  stored : ℤ
  /-- The thread that has ended it, and how. -/
  ended : Option (ℕ × Ending)
  deriving DecidableEq

/-- A program. -/
structure Program (ρ : Type*) where
  /-- The kind of the first thread. -/
  main : ρ
  /-- What a thread does first. -/
  code : ρ → List (Call ρ)
  /-- What it does again and again afterwards; if this is nothing, it ends. -/
  loop : ρ → List (Call ρ)
  /-- What the handler does, called for a signal. -/
  handler : ℕ → List (Call ρ)
  /-- What else is blocked while it runs. -/
  saMask : Finset ℕ

/-- What happens. -/
inductive Event where
  /-- A signal is sent to the process. -/
  | send (n : ℕ)
  /-- A signal is delivered to a thread. -/
  | deliver (i n : ℕ)
  /-- A thread that waits takes a signal. -/
  | take (i n : ℕ)
  /-- A thread makes a fault. -/
  | fault (i n : ℕ)
  /-- A thread goes on, its call being answered so. -/
  | go (i : ℕ) (a : Answer)
  deriving DecidableEq, Repr

/-- What the call of a step is answered. -/
def Event.answer : Event → Option Answer
  | .go _ a => some a
  | _ => none

/-- What a move of a thread does to the process. -/
inductive Effect (ρ : Type*) where
  | nothing
  | install (n : ℕ)
  | revert (n : ℕ)
  | create (t : ThreadState ρ)
  | store (n : ℕ)
  | ends (e : Ending)
  deriving DecidableEq

section Kernel

variable (P : Program ρ)

/-- A thread that has just been created. -/
def ThreadState.new (r : ρ) (blocked : Finset ℕ) : ThreadState ρ :=
  ⟨r, P.code r, blocked, [], [], 0, [], []⟩

/-- The process begins, with a mask that is inherited. -/
def start (inherited : Finset ℕ) : State ρ :=
  ⟨[.new P P.main (maskable inherited)], [], ∅, -1, none⟩

/-- A signal joins those that wait: one that is not real-time waits once only. -/
def post (pending : List ℕ) (n : ℕ) : List ℕ :=
  if n ∈ pending ∧ ¬ IsRealTime n then pending else pending ++ [n]

/-- What a thread is about to do. -/
def ThreadState.current (t : ThreadState ρ) : List (Call ρ) :=
  match t.frames with
  | [] => t.todo
  | f :: _ => f.todo

/-- It is left with this to do. -/
def ThreadState.next (t : ThreadState ρ) (rest : List (Call ρ)) : ThreadState ρ :=
  match t.frames with
  | [] => { t with todo := rest }
  | f :: below => { t with frames := { f with todo := rest } :: below }

/-- None of its own signals can be delivered to it. -/
def ThreadState.Quiet (t : ThreadState ρ) : Prop := ∀ n ∈ t.pending, n ∈ t.blocked

instance (t : ThreadState ρ) : Decidable t.Quiet := inferInstanceAs (Decidable (∀ n ∈ t.pending, _))

/-- It has not ended. -/
def ThreadState.Alive (t : ThreadState ρ) : Prop :=
  t.current ≠ [] ∨ t.frames ≠ [] ∨ P.loop t.kind ≠ []

instance (t : ThreadState ρ) : Decidable (t.Alive P) :=
  inferInstanceAs (Decidable (t.current ≠ [] ∨ t.frames ≠ [] ∨ P.loop t.kind ≠ []))

/-- The handler begins in a thread. -/
def ThreadState.enter (t : ThreadState ρ) (n : ℕ) : ThreadState ρ :=
  { t with frames := ⟨n, t.blocked, P.handler n⟩ :: t.frames,
           blocked := t.blocked ∪ maskable (insert n P.saMask) }

/-- A call that has succeeded, with an effect, or failed. -/
def ThreadState.either (t : ThreadState ρ) (rest : List (Call ρ)) (f : Failure) (e : Effect ρ)
    (ok : Bool) : ThreadState ρ × Effect ρ :=
  if ok then (t.next rest, e) else (t.next (f.calls ++ rest), .nothing)

/-- A call of a thread. The kernel installs no handler for a signal that cannot be blocked. -/
def ThreadState.call (t : ThreadState ρ) (rest : List (Call ρ)) :
    Call ρ → Answer → Option (ThreadState ρ × Effect ρ)
  | .other f, a => a.status.map (t.either rest f .nothing)
  | .block s, .ok => some ({ t.next rest with blocked := t.blocked ∪ maskable s }, .nothing)
  | .sigaction n f, a => a.status.map fun ok =>
    t.either rest f (.install n) (ok && decide (n ∈ maskable sigfillset))
  | .revert n f, a => a.status.map (t.either rest f (.revert n))
  | .raise n f, a => a.status.map fun ok =>
    if ok then ({ t.next rest with pending := post t.pending n }, .nothing)
    else (t.next (f.calls ++ rest), .nothing)
  | .create r f, a => a.status.map (t.either rest f (.create (.new P r t.blocked)))
  | .store, .ok => some (t.next rest, .store t.sig)
  | .print, a => a.status.map fun _ =>
    ({ t.next rest with printed := t.printed ++ [t.sig] }, .nothing)
  | .exit status, .ok => some (t, .ends (.exited status))
  | .fatal, a => afterFatal a (fun status => (t, .ends (.exited status))) (t.next rest, .nothing)
  | _, _ => none

/-- **A thread goes on**: it makes its next call, or its handler returns, or it begins its loop
again. -/
def ThreadState.go (t : ThreadState ρ) (a : Answer) : Option (ThreadState ρ × Effect ρ) :=
  match t.current, t.frames with
  | c :: rest, _ => t.call P rest c a
  | [], f :: below =>
    if a = .ok then some ({ t with frames := below, blocked := f.saved }, .nothing) else none
  | [], [] =>
    if a = .ok ∧ P.loop t.kind ≠ [] then some ({ t with todo := P.loop t.kind }, .nothing) else none

/-- A thread that waits has got a signal. -/
def ThreadState.get (t : ThreadState ρ) (n : ℕ) : Option (ThreadState ρ) :=
  match t.current with
  | .sigwait s :: rest =>
    if n ∈ maskable s then some { t.next rest with sig := n, taken := t.taken ++ [n] } else none
  | _ => none

/-- A signal leaves those that wait for the thread, or else those that wait for the process. -/
def fetch (pending : List ℕ) (t : ThreadState ρ) (n : ℕ) : Option (ThreadState ρ × List ℕ) :=
  if n ∈ t.pending then some ({ t with pending := t.pending.erase n }, pending)
  else if n ∈ pending then some (t, pending.erase n)
  else none

/-- The effect of a move of thread `i`. -/
def State.apply (p : State ρ) (i : ℕ) : Effect ρ → State ρ
  | .nothing => p
  | .install n => { p with handled := insert n p.handled }
  | .revert n => { p with handled := p.handled.erase n }
  | .create t => { p with threads := p.threads ++ [t] }
  | .store n => { p with stored := n }
  | .ends e => { p with ended := some (i, e) }

/-- Thread `i` has made a move. -/
def State.put (p : State ρ) (i : ℕ) (m : ThreadState ρ × Effect ρ) : State ρ :=
  State.apply { p with threads := p.threads.set i m.1 } i m.2

/-- A step of a thread. -/
def threadStep (p : State ρ) (i : ℕ) (t : ThreadState ρ) : Event → Option (State ρ)
  | .deliver _ n =>
    if n ∈ t.blocked then none
    else (fetch p.pending t n).map fun (u, pending) =>
      if n ∈ p.handled then { p with pending := pending }.put i (u.enter P n, .nothing)
      else if n ∈ discarded then { p with pending := pending }.put i (u, .nothing)
      else p.put i (t, .ends (.killed n))
  | .take _ n =>
    if t.Quiet then (fetch p.pending t n).bind fun (u, pending) =>
      (u.get n).map fun v => { p with pending := pending }.put i (v, .nothing)
    else none
  | .fault _ n =>
    if t.Quiet ∧ n ∈ faults then
      if n ∈ t.blocked ∨ n ∉ p.handled then some (p.put i (t, .ends (.faulted n)))
      else some (p.put i (t.enter P n, .nothing))
    else none
  | .go _ a => if t.Quiet then (t.go P a).map (p.put i) else none
  | .send _ => none

/-- The thread of a step. -/
def Event.thread : Event → Option ℕ
  | .send _ => none
  | .deliver i _ | .take i _ | .fault i _ | .go i _ => some i

/-- A step of a process that has not ended. -/
def move (p : State ρ) : Event → Option (State ρ)
  | .send n =>
    if n ∈ sigfillset ∧ n ∉ jobControl then some { p with pending := post p.pending n } else none
  | l => l.thread.bind fun i => p.threads[i]?.bind fun t =>
    if t.Alive P then threadStep P p i t l else none

/-- **The step function.** -/
def step (p : State ρ) (l : Event) : Option (State ρ) := if p.ended = none then move P p l else none

/-! ### What a step does -/

variable {P} {p q : State ρ} {l : Event} {ls : List Event} {i n : ℕ} {t t' u : ThreadState ρ}
  {e : Effect ρ} {m : ThreadState ρ × Effect ρ} {a : Answer} {pending : List ℕ}

/-- An effect that does not end the process: what is created has this mask, and a handler is
installed for a signal that can be blocked. -/
def Effect.Mild (P : Program ρ) (blocked : Finset ℕ) : Effect ρ → Prop
  | .create u => ∃ r, u = .new P r blocked
  | .install n => n ∈ maskable sigfillset
  | .ends _ => False
  | _ => True

theorem ThreadState.either_cases {rest : List (Call ρ)} {f : Failure} {x : Effect ρ} {ok : Bool}
    (h : t.either rest f x ok = (t', e)) :
    (t' = t.next rest ∧ e = x ∧ ok = true) ∨ (t' = t.next (f.calls ++ rest) ∧ e = .nothing) := by
  cases ok <;> obtain ⟨rfl, rfl⟩ := Prod.mk.inj h
  · exact Or.inr ⟨rfl, rfl⟩
  · exact Or.inl ⟨rfl, rfl, rfl⟩

@[simp] theorem ThreadState.next_taken (t : ThreadState ρ) (rest : List (Call ρ)) :
    (t.next rest).taken = t.taken := by
  rw [ThreadState.next]
  split <;> rfl

theorem ThreadState.next_of_nil {rest : List (Call ρ)} (h : t.frames = []) :
    t.next rest = { t with todo := rest } := by
  rw [ThreadState.next, h]

/-- **What a call does to its thread.** -/
theorem ThreadState.call_cases {rest : List (Call ρ)} {c : Call ρ}
    (h : t.call P rest c a = some (t', e)) :
    (t' = t.next rest ∧ e.Mild P t.blocked) ∨
    (∃ f : Failure, t' = t.next (f.calls ++ rest) ∧ e = .nothing ∧
      ∀ n g, c = .raise n g → a = .err) ∨
    (∃ s, c = .block s ∧ t' = { t.next rest with blocked := t.blocked ∪ maskable s } ∧
      e = .nothing) ∨
    (∃ n f, c = .raise n f ∧ t' = { t.next rest with pending := post t.pending n } ∧
      e = .nothing) ∨
    (c = .print ∧ t' = { t.next rest with printed := t.printed ++ [t.sig] } ∧ e = .nothing) ∨
    (t' = t ∧ ∃ status, e = .ends (.exited status) ∧
      (c = .exit status ∨ c = .fatal ∧ status = EXIT_FAILURE)) := by
  have either : ∀ {f : Failure} {x : Effect ρ} {ok : Bool}, t.either rest f x ok = (t', e) →
      (ok = true → x.Mild P t.blocked) → (∀ n g, c ≠ .raise n g) →
      (t' = t.next rest ∧ e.Mild P t.blocked) ∨
      (∃ f : Failure, t' = t.next (f.calls ++ rest) ∧ e = .nothing ∧
        ∀ n g, c = .raise n g → a = .err) := by
    intro f x ok heq hx hc
    rcases either_cases heq with ⟨rfl, rfl, hok⟩ | ⟨rfl, rfl⟩
    · exact Or.inl ⟨rfl, hx hok⟩
    · exact Or.inr ⟨f, rfl, rfl, fun n g hraise => absurd hraise (hc n g)⟩
  cases c with
  | sigwait s => simp only [ThreadState.call, reduceCtorEq] at h
  | raise n f =>
    obtain ⟨ok, hok, heq⟩ := Option.map_eq_some_iff.mp h
    rcases Answer.status_cases hok with ⟨rfl, rfl⟩ | ⟨rfl, rfl⟩
    · obtain ⟨rfl, rfl⟩ := Prod.mk.inj heq
      exact Or.inr (Or.inr (Or.inr (Or.inl ⟨n, f, rfl, rfl, rfl⟩)))
    · obtain ⟨rfl, rfl⟩ := Prod.mk.inj heq
      exact Or.inr (Or.inl ⟨f, rfl, rfl, fun _ _ _ => rfl⟩)
  | block s =>
    cases a <;> simp only [ThreadState.call, reduceCtorEq] at h
    obtain ⟨rfl, rfl⟩ := Prod.mk.inj (Option.some.inj h)
    exact Or.inr (Or.inr (Or.inl ⟨s, rfl, rfl, rfl⟩))
  | store =>
    cases a <;> simp only [ThreadState.call, reduceCtorEq] at h
    obtain ⟨rfl, rfl⟩ := Prod.mk.inj (Option.some.inj h)
    exact Or.inl ⟨rfl, trivial⟩
  | print =>
    obtain ⟨ok, -, heq⟩ := Option.map_eq_some_iff.mp h
    obtain ⟨rfl, rfl⟩ := Prod.mk.inj heq
    exact Or.inr (Or.inr (Or.inr (Or.inr (Or.inl ⟨rfl, rfl, rfl⟩))))
  | exit status =>
    cases a <;> simp only [ThreadState.call, reduceCtorEq] at h
    obtain ⟨rfl, rfl⟩ := Prod.mk.inj (Option.some.inj h)
    exact Or.inr (Or.inr (Or.inr (Or.inr (Or.inr ⟨rfl, status, rfl, Or.inl rfl⟩))))
  | fatal =>
    rcases afterFatal_cases h with heq | heq
    · obtain ⟨rfl, rfl⟩ := Prod.mk.inj heq
      exact Or.inl ⟨rfl, trivial⟩
    · obtain ⟨rfl, rfl⟩ := Prod.mk.inj heq
      exact Or.inr (Or.inr (Or.inr (Or.inr (Or.inr ⟨rfl, _, rfl, Or.inr ⟨rfl, rfl⟩⟩))))
  | other f =>
    obtain ⟨ok, -, heq⟩ := Option.map_eq_some_iff.mp h
    exact (either heq (fun _ => trivial) (by rintro _ _ ⟨⟩)).imp id Or.inl
  | sigaction n f =>
    obtain ⟨ok, -, heq⟩ := Option.map_eq_some_iff.mp h
    have hmask : (ok && decide (n ∈ maskable sigfillset)) = true → n ∈ maskable sigfillset :=
      fun hand => of_decide_eq_true (Bool.and_eq_true_iff.mp hand).2
    exact (either heq hmask (by rintro _ _ ⟨⟩)).imp id Or.inl
  | revert n f =>
    obtain ⟨ok, -, heq⟩ := Option.map_eq_some_iff.mp h
    exact (either heq (fun _ => trivial) (by rintro _ _ ⟨⟩)).imp id Or.inl
  | create r f =>
    obtain ⟨ok, -, heq⟩ := Option.map_eq_some_iff.mp h
    exact (either heq (fun _ => ⟨r, rfl⟩) (by rintro _ _ ⟨⟩)).imp id Or.inl

/-- **What a thread does that goes on.** -/
theorem ThreadState.go_cases (h : t.go P a = some (t', e)) :
    (∃ c rest, t.current = c :: rest ∧ t.call P rest c a = some (t', e)) ∨
    (∃ f below, t.current = [] ∧ t.frames = f :: below ∧
      t' = { t with frames := below, blocked := f.saved } ∧ e = .nothing) ∨
    (t.current = [] ∧ t.frames = [] ∧ t' = { t with todo := P.loop t.kind } ∧ e = .nothing) := by
  rw [ThreadState.go.eq_def] at h
  split at h
  · rename_i c rest hcur
    exact Or.inl ⟨c, rest, hcur, h⟩
  · rename_i f below hcur hframes
    obtain ⟨-, heq⟩ := Option.ite_none_right_eq_some.mp h
    obtain ⟨rfl, rfl⟩ := Prod.mk.inj (Option.some.inj heq)
    exact Or.inr (Or.inl ⟨f, below, hcur, hframes, rfl, rfl⟩)
  · rename_i hcur hframes
    obtain ⟨-, heq⟩ := Option.ite_none_right_eq_some.mp h
    obtain ⟨rfl, rfl⟩ := Prod.mk.inj (Option.some.inj heq)
    exact Or.inr (Or.inr ⟨hcur, hframes, rfl, rfl⟩)

/-- What a thread does that has got a signal. -/
theorem ThreadState.get_cases (h : t.get n = some u) :
    ∃ s rest, t.current = .sigwait s :: rest ∧ n ∈ maskable s ∧
      u = { t.next rest with sig := n, taken := t.taken ++ [n] } := by
  rw [ThreadState.get.eq_def] at h
  split at h
  · rename_i s rest hcur
    obtain ⟨hn, heq⟩ := Option.ite_none_right_eq_some.mp h
    exact ⟨s, rest, hcur, hn, (Option.some.inj heq).symm⟩
  · cases h

/-- A signal that is fetched was waiting, and nothing else happens to those that wait. -/
theorem fetch_cases (h : fetch p.pending t n = some (u, pending)) :
    (n ∈ t.pending ∧ u = { t with pending := t.pending.erase n } ∧ pending = p.pending) ∨
      (n ∈ p.pending ∧ u = t ∧ pending = p.pending.erase n) := by
  rw [fetch] at h
  split_ifs at h with hown hshared
  · obtain ⟨rfl, rfl⟩ := Prod.mk.inj (Option.some.inj h)
    exact Or.inl ⟨hown, rfl, rfl⟩
  · obtain ⟨rfl, rfl⟩ := Prod.mk.inj (Option.some.inj h)
    exact Or.inr ⟨hshared, rfl, rfl⟩

/-- **What a step does.** -/
theorem step_cases (h : step P p l = some q) :
    p.ended = none ∧
    ((∃ n, l = .send n ∧ q = { p with pending := post p.pending n }) ∨
    ∃ i t, p.threads[i]? = some t ∧ t.Alive P ∧
      ((∃ n u pending, l = .deliver i n ∧ n ∉ t.blocked ∧ fetch p.pending t n = some (u, pending) ∧
        ((n ∈ p.handled ∧ q = State.put { p with pending := pending } i (u.enter P n, .nothing)) ∨
        (n ∉ p.handled ∧ n ∈ discarded ∧
          q = State.put { p with pending := pending } i (u, .nothing)) ∨
        (n ∉ p.handled ∧ n ∉ discarded ∧ q = p.put i (t, .ends (.killed n))))) ∨
      (∃ n u v pending, l = .take i n ∧ t.Quiet ∧ fetch p.pending t n = some (u, pending) ∧
        u.get n = some v ∧ q = State.put { p with pending := pending } i (v, .nothing)) ∨
      (∃ n, l = .fault i n ∧ t.Quiet ∧ n ∈ faults ∧
        (((n ∈ t.blocked ∨ n ∉ p.handled) ∧ q = p.put i (t, .ends (.faulted n))) ∨
        (n ∉ t.blocked ∧ n ∈ p.handled ∧ q = p.put i (t.enter P n, .nothing)))) ∨
      ∃ a m, l = .go i a ∧ t.Quiet ∧ t.go P a = some m ∧ q = p.put i m)) := by
  have main : ∀ i, l.thread = some i → (p.threads[i]?.bind fun t =>
      if t.Alive P then threadStep P p i t l else none) = some q →
      ∃ t, p.threads[i]? = some t ∧ t.Alive P ∧ threadStep P p i t l = some q := by
    intro i hi hbind
    obtain ⟨t, ht, hstep⟩ := Option.bind_eq_some_iff.mp hbind
    obtain ⟨halive, hmove⟩ := Option.ite_none_right_eq_some.mp hstep
    exact ⟨t, ht, halive, hmove⟩
  obtain ⟨hend, hmove⟩ := Option.ite_none_right_eq_some.mp h
  refine ⟨hend, ?_⟩
  cases l with
  | send n =>
    obtain ⟨-, heq⟩ := Option.ite_none_right_eq_some.mp hmove
    exact Or.inl ⟨n, rfl, (Option.some.inj heq).symm⟩
  | deliver j n =>
    obtain ⟨t, ht, halive, hmove⟩ := main j rfl hmove
    refine Or.inr ⟨j, t, ht, halive, ?_⟩
    rw [threadStep] at hmove
    obtain ⟨hblocked, hmap⟩ := Option.ite_none_left_eq_some.mp hmove
    obtain ⟨⟨u, pending⟩, hfetch, rfl⟩ := Option.map_eq_some_iff.mp hmap
    refine Or.inl ⟨n, u, pending, rfl, hblocked, hfetch, ?_⟩
    dsimp only
    split_ifs with hhandled hdiscarded
    · exact Or.inl ⟨hhandled, rfl⟩
    · exact Or.inr (Or.inl ⟨hhandled, hdiscarded, rfl⟩)
    · exact Or.inr (Or.inr ⟨hhandled, hdiscarded, rfl⟩)
  | take j n =>
    obtain ⟨t, ht, halive, hmove⟩ := main j rfl hmove
    refine Or.inr ⟨j, t, ht, halive, ?_⟩
    obtain ⟨hquiet, hbind⟩ := Option.ite_none_right_eq_some.mp hmove
    obtain ⟨⟨u, pending⟩, hfetch, hget⟩ := Option.bind_eq_some_iff.mp hbind
    obtain ⟨v, hv, rfl⟩ := Option.map_eq_some_iff.mp hget
    exact Or.inr (Or.inl ⟨n, u, v, pending, rfl, hquiet, hfetch, hv, rfl⟩)
  | fault j n =>
    obtain ⟨t, ht, halive, hmove⟩ := main j rfl hmove
    refine Or.inr ⟨j, t, ht, halive, ?_⟩
    obtain ⟨⟨hquiet, hfault⟩, hmove⟩ := Option.ite_none_right_eq_some.mp hmove
    refine Or.inr (Or.inr (Or.inl ⟨n, rfl, hquiet, hfault, ?_⟩))
    split_ifs at hmove with hdead
    · exact Or.inl ⟨hdead, (Option.some.inj hmove).symm⟩
    · obtain ⟨hblocked, hhandled⟩ := not_or.mp hdead
      exact Or.inr ⟨hblocked, not_not.mp hhandled, (Option.some.inj hmove).symm⟩
  | go j a =>
    obtain ⟨t, ht, halive, hmove⟩ := main j rfl hmove
    refine Or.inr ⟨j, t, ht, halive, ?_⟩
    obtain ⟨hquiet, hmap⟩ := Option.ite_none_right_eq_some.mp hmove
    obtain ⟨m, hm, rfl⟩ := Option.map_eq_some_iff.mp hmap
    exact Or.inr (Or.inr (Or.inr ⟨a, m, rfl, hquiet, hm, rfl⟩))

/-! ### What all threads keep -/

/-- **A property of a thread that its moves keep**, as long as its calls are answered in a way that
is considered. -/
structure Kept (P : Program ρ) (A : ThreadState ρ → Answer → Prop) (I : ThreadState ρ → Prop) :
    Prop where
  new : ∀ {t a t' r}, I t → A t a → t.go P a = some (t', .create (.new P r t.blocked)) →
    I (.new P r t.blocked)
  go : ∀ {t a t' e}, I t → t.Quiet → A t a → t.go P a = some (t', e) → I t'
  enter : ∀ {t n} (pending : List ℕ), I t → n ∉ t.blocked → n ∈ maskable sigfillset →
    I ({ t with pending := pending }.enter P n)
  drop : ∀ {t n}, I t → n ∈ discarded → I { t with pending := t.pending.erase n }
  take : ∀ {t n v} (pending : List ℕ), I t → { t with pending := pending }.get n = some v → I v

/-- The call of a step is answered in a way that is considered. -/
def Answers (A : ThreadState ρ → Answer → Prop) (p : State ρ) (l : Event) : Prop :=
  ∀ i a t, l = .go i a → p.threads[i]? = some t → A t a

theorem threads_apply {x : Effect ρ} (h : u ∈ (p.apply i x).threads) :
    u ∈ p.threads ∨ x = .create u := by
  cases x with
  | create t =>
    rcases List.mem_append.mp h with hold | hnew
    · exact Or.inl hold
    · exact Or.inr (by rw [List.mem_singleton.mp hnew])
  | _ => exact Or.inl h

/-- The threads after a move: the others, the one that has moved, and one that was created. -/
theorem threads_put (h : u ∈ (p.put i m).threads) :
    u ∈ p.threads ∨ u = m.1 ∨ m.2 = .create u := by
  rcases threads_apply h with hset | hnew
  · rcases List.mem_or_eq_of_mem_set hset with hold | rfl
    · exact Or.inl hold
    · exact Or.inr (Or.inl rfl)
  · exact Or.inr (Or.inr hnew)

/-- What a thread that goes on creates has its mask, and what it installs can be blocked. -/
theorem ThreadState.go_mild (h : t.go P a = some (t', e)) :
    (∀ u, e = .create u → ∃ r, u = .new P r t.blocked) ∧
      ∀ n, e = .install n → n ∈ maskable sigfillset := by
  rcases go_cases h with ⟨c, rest, -, hcall⟩ | ⟨f, below, -, -, -, rfl⟩ | ⟨-, -, -, rfl⟩
  · rcases call_cases hcall with ⟨-, hmild⟩ | ⟨f, -, rfl, -⟩ | ⟨s, -, -, rfl⟩ | ⟨n, f, -, -, rfl⟩ |
      ⟨-, -, rfl⟩ | ⟨-, status, rfl, -⟩
    · exact ⟨by rintro u rfl; exact hmild, by rintro n rfl; exact hmild⟩
    all_goals exact ⟨by rintro _ ⟨⟩, by rintro _ ⟨⟩⟩
  all_goals exact ⟨by rintro _ ⟨⟩, by rintro _ ⟨⟩⟩

variable {A : ThreadState ρ → Answer → Prop} {I : ThreadState ρ → Prop}

theorem handled_apply {x : Effect ρ} (hp : p.handled ⊆ maskable sigfillset)
    (hx : ∀ n, x = .install n → n ∈ maskable sigfillset) :
    (p.apply i x).handled ⊆ maskable sigfillset := by
  cases x with
  | install n => exact Finset.insert_subset (hx n rfl) hp
  | revert n => exact (Finset.erase_subset _ _).trans hp
  | _ => exact hp

/-- **One step keeps what every move keeps.** -/
theorem Kept.step (hk : Kept P A I)
    (hp : (∀ t ∈ p.threads, I t) ∧ p.handled ⊆ maskable sigfillset)
    (hA : Answers A p l) (h : step P p l = some q) :
    (∀ t ∈ q.threads, I t) ∧ q.handled ⊆ maskable sigfillset := by
  obtain ⟨hall, hmask⟩ := hp
  have put : ∀ {p' : State ρ} {i : ℕ} {v : ThreadState ρ} {x : Effect ρ}, p'.threads = p.threads →
      p'.handled = p.handled → I v → (∀ u, x = .create u → I u) →
      (∀ n, x = .install n → n ∈ maskable sigfillset) →
      (∀ t ∈ (p'.put i (v, x)).threads, I t) ∧ (p'.put i (v, x)).handled ⊆ maskable sigfillset := by
    intro p' i v x hthreads hhandled hv hcreate hinstall
    refine ⟨fun t ht => ?_, handled_apply (by rw [← hhandled] at hmask; exact hmask) hinstall⟩
    rcases threads_put ht with hold | rfl | hnew
    · exact hall t (by rwa [hthreads] at hold)
    · exact hv
    · exact hcreate t hnew
  obtain ⟨-, ⟨n, -, rfl⟩ | ⟨i, t, ht, -, hcases⟩⟩ := step_cases h
  · exact ⟨hall, hmask⟩
  have hI : I t := hall t (List.mem_of_getElem? ht)
  rcases hcases with ⟨n, u, pending, -, hblocked, hfetch, hrest⟩ |
    ⟨n, u, v, pending, -, -, hfetch, hget, rfl⟩ | ⟨n, -, -, -, hrest⟩ |
    ⟨a, m, rfl, hquiet, hgo, rfl⟩
  · have hu : ∃ own, u = { t with pending := own } := by
      rcases fetch_cases hfetch with ⟨-, rfl, -⟩ | ⟨-, rfl, -⟩
      · exact ⟨_, rfl⟩
      · exact ⟨_, rfl⟩
    rcases hrest with ⟨hhandled, rfl⟩ | ⟨-, hdiscarded, rfl⟩ | ⟨-, -, rfl⟩
    · obtain ⟨own, rfl⟩ := hu
      exact put rfl rfl (hk.enter own hI hblocked (hmask hhandled)) (by rintro _ ⟨⟩)
        (by rintro _ ⟨⟩)
    · refine put rfl rfl ?_ (by rintro _ ⟨⟩) (by rintro _ ⟨⟩)
      rcases fetch_cases hfetch with ⟨-, rfl, -⟩ | ⟨-, rfl, -⟩
      · exact hk.drop hI hdiscarded
      · exact hI
    · exact put rfl rfl hI (by rintro _ ⟨⟩) (by rintro _ ⟨⟩)
  · refine put rfl rfl ?_ (by rintro _ ⟨⟩) (by rintro _ ⟨⟩)
    rcases fetch_cases hfetch with ⟨-, rfl, -⟩ | ⟨-, rfl, -⟩
    · exact hk.take _ hI hget
    · exact hk.take _ hI hget
  · rcases hrest with ⟨-, rfl⟩ | ⟨hblocked, hhandled, rfl⟩
    · exact put rfl rfl hI (by rintro _ ⟨⟩) (by rintro _ ⟨⟩)
    · exact put rfl rfl (hk.enter _ hI hblocked (hmask hhandled)) (by rintro _ ⟨⟩) (by rintro _ ⟨⟩)
  · obtain ⟨hcreate, hinstall⟩ := ThreadState.go_mild hgo
    refine put rfl rfl (hk.go hI hquiet (hA i a t rfl ht) hgo) (fun u hu => ?_) hinstall
    obtain ⟨v, x⟩ := m
    obtain ⟨r, rfl⟩ := hcreate u hu
    obtain rfl : x = .create (.new P r t.blocked) := hu
    exact hk.new hI (hA i a t rfl ht) hgo

/-- **What every move keeps, all threads keep in every run.** -/
theorem Kept.run (hk : Kept P A I) (hA : Every (ThreadSignals.step P) (Answers A) p ls)
    (hp : (∀ t ∈ p.threads, I t) ∧ p.handled ⊆ maskable sigfillset)
    (h : run (ThreadSignals.step P) p ls = some q) :
    (∀ t ∈ q.threads, I t) ∧ q.handled ⊆ maskable sigfillset :=
  Every.invariant (fun _ _ _ hall hlabel hstep => hk.step hall hlabel hstep) hA hp h

/-- The same where nothing is asked of the answers. -/
theorem Kept.run_any (hk : Kept P (fun _ _ => True) I)
    (hp : (∀ t ∈ p.threads, I t) ∧ p.handled ⊆ maskable sigfillset)
    (h : Runs.run (ThreadSignals.step P) p ls = some q) :
    (∀ t ∈ q.threads, I t) ∧ q.handled ⊆ maskable sigfillset :=
  hk.run ((every_of_forall (D := fun _ => True) (fun _ _ => trivial) _).imp
    fun _ _ _ _ _ _ _ _ => trivial) hp h

/-! ### A floor under the masks -/

section Floor

variable {B : Finset ℕ}

/-- The signals of `B` are blocked in a thread, will be when its handlers have returned, and are not
being handled. -/
def Floor (B : Finset ℕ) (t : ThreadState ρ) : Prop :=
  B ⊆ t.blocked ∧ ∀ f ∈ t.frames, B ⊆ f.saved ∧ f.signum ∉ B

theorem Floor.next {rest : List (Call ρ)} (h : Floor B t) : Floor B (t.next rest) := by
  rw [ThreadState.next]
  split
  · exact h
  · rename_i f below hframes
    refine ⟨h.1, fun g hg => ?_⟩
    rcases List.mem_cons.mp hg with rfl | hbelow
    · exact h.2 f (by rw [hframes]; exact List.mem_cons_self)
    · exact h.2 g (by rw [hframes]; exact List.mem_cons_of_mem _ hbelow)

theorem Floor.call {rest : List (Call ρ)} {c : Call ρ} (h : Floor B t)
    (hcall : t.call P rest c a = some (t', e)) : Floor B t' := by
  rcases ThreadState.call_cases hcall with ⟨rfl, -⟩ | ⟨f, rfl, -⟩ | ⟨s, -, rfl, -⟩ |
    ⟨n, f, -, rfl, -⟩ | ⟨-, rfl, -⟩ | ⟨rfl, -⟩
  · exact h.next
  · exact h.next
  · exact ⟨h.1.trans Finset.subset_union_left, h.next.2⟩
  · exact h.next
  · exact h.next
  · exact h

/-- **What is blocked stays blocked**, in all threads. -/
theorem floor_kept : Kept P (fun _ _ => True) (Floor B) where
  new h _ _ := ⟨h.1, by rintro _ ⟨⟩⟩
  go {t _ _ _} h _ _ hgo := by
    rcases ThreadState.go_cases hgo with ⟨c, rest, -, hcall⟩ | ⟨f, below, -, hframes, rfl, -⟩ |
      ⟨-, -, rfl, -⟩
    · exact h.call hcall
    · refine ⟨(h.2 f (by rw [hframes]; exact List.mem_cons_self)).1, fun g hg => ?_⟩
      exact h.2 g (by rw [hframes]; exact List.mem_cons_of_mem _ hg)
    · exact h
  enter _ h hblocked _ := by
    refine ⟨h.1.trans Finset.subset_union_left, fun f hf => ?_⟩
    rcases List.mem_cons.mp hf with rfl | hbelow
    · exact ⟨h.1, fun hn => hblocked (h.1 hn)⟩
    · exact h.2 f hbelow
  drop h _ := h
  take {t n _} pending h hget := by
    have hu : Floor B { t with pending := pending } := h
    obtain ⟨s, rest, -, -, rfl⟩ := ThreadState.get_cases hget
    exact hu.next

@[simp] theorem pending_put (p : State ρ) (i : ℕ) (m : ThreadState ρ × Effect ρ) :
    (p.put i m).pending = p.pending := by
  obtain ⟨t, x⟩ := m
  cases x <;> rfl

theorem mem_post {pending : List ℕ} {n k : ℕ} : k ∈ post pending n ↔ k ∈ pending ∨ k = n := by
  rw [post]
  split_ifs with h
  · exact ⟨Or.inl, fun hk => hk.elim id fun heq => heq ▸ h.1⟩
  · rw [List.mem_append, List.mem_singleton]

/-- A signal that waits for the process waits on while others are fetched. -/
theorem mem_of_fetch (h : fetch p.pending t n = some (u, pending)) {k : ℕ} (hk : k ∈ p.pending)
    (hne : k ≠ n) : k ∈ pending := by
  rcases fetch_cases h with ⟨-, -, rfl⟩ | ⟨-, -, rfl⟩
  · exact hk
  · exact (List.mem_erase_of_ne hne).mpr hk

/-- **A signal that all threads block stays until it is taken.** -/
theorem step_pending (hfloor : ∀ t ∈ p.threads, Floor B t) (hn : n ∈ B) (hp : n ∈ p.pending)
    (h : step P p l = some q) : n ∈ q.pending ∨ ∃ i, l = .take i n := by
  obtain ⟨-, ⟨k, -, rfl⟩ | ⟨i, t, ht, -, hcases⟩⟩ := step_cases h
  · exact Or.inl (mem_post.mpr (Or.inl hp))
  rcases hcases with ⟨k, u, pending, -, hblocked, hfetch, hrest⟩ |
    ⟨k, u, v, pending, rfl, -, hfetch, -, rfl⟩ | ⟨k, -, -, -, hrest⟩ | ⟨a, m, rfl, -, -, rfl⟩
  · have hne : n ≠ k := by
      rintro rfl
      exact hblocked ((hfloor t (List.mem_of_getElem? ht)).1 hn)
    rcases hrest with ⟨-, rfl⟩ | ⟨-, -, rfl⟩ | ⟨-, -, rfl⟩
    · exact Or.inl (by rw [pending_put]; exact mem_of_fetch hfetch hp hne)
    · exact Or.inl (by rw [pending_put]; exact mem_of_fetch hfetch hp hne)
    · exact Or.inl (by rwa [pending_put])
  · by_cases hne : n = k
    · exact Or.inr ⟨i, by rw [hne]⟩
    · exact Or.inl (by rw [pending_put]; exact mem_of_fetch hfetch hp hne)
  · rcases hrest with ⟨-, rfl⟩ | ⟨-, -, rfl⟩ <;> exact Or.inl (by rwa [pending_put])
  · exact Or.inl (by rwa [pending_put])

/-- The state of the threads that the rules above are about. -/
def Floored (B : Finset ℕ) (p : State ρ) : Prop :=
  (∀ t ∈ p.threads, Floor B t) ∧ p.handled ⊆ maskable sigfillset

theorem Floored.step (hp : Floored B p) (h : ThreadSignals.step P p l = some q) : Floored B q :=
  floor_kept.step hp (fun _ _ _ _ _ => trivial) h

theorem Floored.run (hp : Floored B p) (h : Runs.run (ThreadSignals.step P) p ls = some q) :
    Floored B q :=
  floor_kept.run_any hp h

/-- **A signal that is blocked in all threads and waits is still there at the end of a run, or has
been taken in it.** -/
theorem pending_or_taken (hn : n ∈ B) (hfloor : Floored B p) (hp : n ∈ p.pending)
    (h : run (step P) p ls = some q) : n ∈ q.pending ∨ ∃ i, .take i n ∈ ls := by
  induction ls generalizing p with
  | nil =>
    obtain rfl := Option.some.inj h
    exact Or.inl hp
  | cons l ls ih =>
    obtain ⟨r, hr, hrest⟩ := run_cons_eq_some.mp h
    rcases step_pending hfloor.1 hn hp hr with hstill | ⟨i, rfl⟩
    · rcases ih (hfloor.step hr) hstill hrest with hend | ⟨i, hi⟩
      · exact Or.inl hend
      · exact Or.inr ⟨i, List.mem_cons_of_mem _ hi⟩
    · exact Or.inr ⟨i, List.mem_cons_self⟩

/-- The same from the moment it is sent. -/
theorem pending_or_taken_of_send (hn : n ∈ B) (hfloor : Floored B p) {before after : List Event}
    (h : run (step P) p (before ++ .send n :: after) = some q) :
    n ∈ q.pending ∨ ∃ i, .take i n ∈ after := by
  rw [run_append] at h
  obtain ⟨r, hr, hrest⟩ := Option.bind_eq_some_iff.mp h
  obtain ⟨r', hsend, hrest⟩ := run_cons_eq_some.mp hrest
  have hfloor' : Floored B r := hfloor.run hr
  refine pending_or_taken hn (hfloor'.step hsend) ?_ hrest
  obtain ⟨-, ⟨k, hk, rfl⟩ | ⟨i, t, -, -, hcases⟩⟩ := step_cases hsend
  · obtain rfl := Event.send.inj hk
    exact mem_post.mpr (Or.inr rfl)
  · rcases hcases with ⟨_, _, _, hl, -⟩ | ⟨_, _, _, _, hl, -⟩ | ⟨_, hl, -⟩ | ⟨_, _, hl, -⟩ <;>
      cases hl

end Floor


/-- The process is as it was when it began. -/
def Fresh (P : Program ρ) (inherited : Finset ℕ) (p : State ρ) : Prop :=
  p.threads = [.new P P.main (maskable inherited)] ∧ p.handled = ∅

/-- Only its first call changes it. -/
theorem Fresh.step {s inherited : Finset ℕ} {rest : List (Call ρ)}
    (hcode : P.code P.main = .block s :: rest) (hp : Fresh P inherited p)
    (h : ThreadSignals.step P p l = some q) :
    (Fresh P inherited q ∧ ∀ i a, l ≠ .go i a) ∨ Floored (maskable s) q := by
  obtain ⟨hthreads, hhandled⟩ := hp
  have hcur : (ThreadState.new P P.main (maskable inherited)).current = .block s :: rest := hcode
  obtain ⟨-, ⟨k, rfl, rfl⟩ | ⟨i, t, ht, -, hcases⟩⟩ := step_cases h
  · exact Or.inl ⟨⟨hthreads, hhandled⟩, by rintro _ _ ⟨⟩⟩
  obtain ⟨rfl, rfl⟩ : i = 0 ∧ t = .new P P.main (maskable inherited) := by
    rw [hthreads] at ht
    obtain ⟨hlt, rfl⟩ := List.getElem?_eq_some_iff.mp ht
    exact ⟨by simpa using hlt, by simp only [List.getElem_singleton]⟩
  have hset : ∀ v, p.threads.set 0 v = [v] := fun v => by rw [hthreads]; rfl
  rcases hcases with ⟨k, u, pending, rfl, -, hfetch, hrest⟩ |
    ⟨k, u, v, pending, rfl, -, hfetch, hget, rfl⟩ | ⟨k, rfl, -, -, hrest⟩ |
    ⟨a, ⟨v, x⟩, rfl, -, hmove, rfl⟩
  · refine Or.inl ⟨?_, by rintro _ _ ⟨⟩⟩
    rcases hrest with ⟨hin, -⟩ | ⟨-, -, rfl⟩ | ⟨-, -, rfl⟩
    · exact absurd hin (by rw [hhandled]; exact Finset.notMem_empty k)
    · rcases fetch_cases hfetch with ⟨hown, -⟩ | ⟨-, rfl, -⟩
      · exact absurd hown List.not_mem_nil
      · exact ⟨hset _, hhandled⟩
    · exact ⟨hset _, hhandled⟩
  · have hu : u = .new P P.main (maskable inherited) := by
      rcases fetch_cases hfetch with ⟨hown, -⟩ | ⟨-, rfl, -⟩
      · exact absurd hown List.not_mem_nil
      · rfl
    obtain ⟨s', rest', hcur', -⟩ := ThreadState.get_cases hget
    rw [hu, hcur] at hcur'
    cases hcur'
  · refine Or.inl ⟨?_, by rintro _ _ ⟨⟩⟩
    rcases hrest with ⟨-, rfl⟩ | ⟨-, hin, -⟩
    · exact ⟨hset _, hhandled⟩
    · exact absurd hin (by rw [hhandled]; exact Finset.notMem_empty k)
  · refine Or.inr ⟨fun t ht => ?_, ?_⟩
    · rw [ThreadState.go, hcur] at hmove
      cases a <;> simp only [ThreadState.call, reduceCtorEq] at hmove
      obtain ⟨rfl, rfl⟩ := Prod.mk.inj (Option.some.inj hmove)
      have hmem : t ∈ p.threads.set 0 _ := ht
      rw [hset] at hmem
      obtain rfl := List.mem_singleton.mp hmem
      exact ⟨Finset.subset_union_right, by rintro _ ⟨⟩⟩
    · exact handled_apply (by rw [hhandled]; exact Finset.empty_subset _)
        (ThreadState.go_mild hmove).2

/-- **A program that begins by blocking signals**: before it has done so, it is as it was when it
began; from then on they are blocked in all threads. -/
theorem fresh_or_floored {s inherited : Finset ℕ} {rest : List (Call ρ)}
    (hcode : P.code P.main = .block s :: rest) (h : run (step P) (start P inherited) ls = some p) :
    (Fresh P inherited p ∧ ∀ i a, .go i a ∉ ls) ∨ Floored (maskable s) p := by
  refine run_history (P := fun ls (p : State ρ) =>
    (Fresh P inherited p ∧ ∀ i a, .go i a ∉ ls) ∨ Floored (maskable s) p)
    ?_ (Or.inl ⟨⟨rfl, rfl⟩, by rintro _ _ ⟨⟩⟩) h
  rintro ls p l q (⟨hfresh, hgo⟩ | hfloored) hstep
  · refine (hfresh.step hcode hstep).imp (fun ⟨hstill, hl⟩ => ⟨hstill, fun i a hmem => ?_⟩) id
    rcases List.mem_append.mp hmem with hold | hnew
    · exact hgo i a hold
    · exact hl i a (List.mem_singleton.mp hnew).symm
  · exact Or.inr (hfloored.step hstep)

/-! ### How a process ends -/

/-- What is known of the thread that has ended the process. -/
def Final (handled : Finset ℕ) (t : ThreadState ρ) : Ending → Prop
  | .exited status => t.Quiet ∧ ∃ rest, t.current = .exit status :: rest ∨
      t.current = .fatal :: rest ∧ status = EXIT_FAILURE
  | .killed n => n ∉ t.blocked ∧ n ∉ handled
  | .faulted n => n ∈ t.blocked ∨ n ∉ handled

theorem ended_put {x : Effect ρ} (hp : p.ended = none) (hx : ∀ y, x ≠ .ends y) :
    (p.put i (t, x)).ended = none := by
  cases x with
  | ends y => exact absurd rfl (hx y)
  | _ => exact hp

/-- The thread that ends the process is as it was. -/
theorem final_put {y : Ending} (ht : p.threads[i]? = some t) (hy : Final p.handled t y) {j : ℕ}
    {e : Ending} (h : (p.put i (t, .ends y)).ended = some (j, e)) :
    ∃ u, (p.put i (t, .ends y)).threads[j]? = some u ∧
      Final (p.put i (t, .ends y)).handled u e := by
  obtain ⟨rfl, rfl⟩ := Prod.mk.inj (Option.some.inj h)
  refine ⟨t, ?_, hy⟩
  have hlt := (List.getElem?_eq_some_iff.mp ht).1
  exact List.getElem?_set_self hlt

/-- **The end of a process**, in the thread that has ended it. -/
theorem final_step (h : step P p l = some q) {e : Ending} (hq : q.ended = some (i, e)) :
    ∃ t, q.threads[i]? = some t ∧ Final q.handled t e := by
  obtain ⟨hend, ⟨k, -, rfl⟩ | ⟨j, t, ht, -, hcases⟩⟩ := step_cases h
  · cases hend.symm.trans hq
  rcases hcases with ⟨k, u, pending, -, hblocked, -, hrest⟩ |
    ⟨k, u, v, pending, -, -, -, -, rfl⟩ | ⟨k, -, -, -, hrest⟩ | ⟨a, ⟨v, x⟩, -, hquiet, hgo, rfl⟩
  · rcases hrest with ⟨-, rfl⟩ | ⟨-, -, rfl⟩ | ⟨hhandled, -, rfl⟩
    · cases hend.symm.trans hq
    · cases hend.symm.trans hq
    · exact final_put ht (y := .killed k) ⟨hblocked, hhandled⟩ hq
  · cases hend.symm.trans hq
  · rcases hrest with ⟨hdead, rfl⟩ | ⟨-, -, rfl⟩
    · exact final_put ht (y := .faulted k) hdead hq
    · cases hend.symm.trans hq
  · rcases ThreadState.go_cases hgo with ⟨c, rest, hcur, hcall⟩ | ⟨f, below, -, -, -, rfl⟩ |
      ⟨-, -, -, rfl⟩
    · rcases ThreadState.call_cases hcall with ⟨-, hmild⟩ | ⟨f, -, rfl, -⟩ | ⟨s, -, -, rfl⟩ |
        ⟨n, f, -, -, rfl⟩ | ⟨-, -, rfl⟩ | ⟨rfl, status, rfl, hc⟩
      · have hx : ∀ y, x ≠ .ends y := by
          rintro y rfl
          exact hmild
        cases (ended_put hend hx).symm.trans hq
      · cases hend.symm.trans hq
      · cases hend.symm.trans hq
      · cases hend.symm.trans hq
      · cases hend.symm.trans hq
      · refine final_put ht (y := .exited status) ⟨hquiet, rest, ?_⟩ hq
        rcases hc with rfl | ⟨rfl, hstatus⟩
        · exact Or.inl hcur
        · exact Or.inr ⟨hcur, hstatus⟩
    · cases hend.symm.trans hq
    · cases hend.symm.trans hq

theorem final_run (hp : p.ended = none) (h : run (step P) p ls = some q) {e : Ending}
    (hq : q.ended = some (i, e)) : ∃ t, q.threads[i]? = some t ∧ Final q.handled t e := by
  refine run_invariant (P := fun q : State ρ => ∀ i e, q.ended = some (i, e) →
    ∃ t, q.threads[i]? = some t ∧ Final q.handled t e) ?_ ?_ h i e hq
  · intro r l r' _ hstep i e hend
    exact final_step hstep hend
  · intro i e hend
    cases hp.symm.trans hend

/-! ### What is taken is printed -/

/-- A thread that is to do this prints before it waits again. -/
def owes : List (Call ρ) → Bool
  | [] | .sigwait _ :: _ => false
  | .print :: _ => true
  | _ :: rest => owes rest

/-- After every signal that is taken, and at no other time, one is printed. -/
def Paired : List (Call ρ) → Prop
  | [] => True
  | .sigwait _ :: rest => owes rest = true ∧ Paired rest
  | .print :: rest => owes rest = false ∧ Paired rest
  | _ :: rest => Paired rest

/-- No signal is waited for, and none is printed. -/
def Silent (calls : List (Call ρ)) : Prop := ∀ c ∈ calls, c ≠ .print ∧ ∀ s, c ≠ .sigwait s

theorem owes_cons {c : Call ρ} {rest : List (Call ρ)} (hprint : c ≠ .print)
    (hwait : ∀ s, c ≠ .sigwait s) : owes (c :: rest) = owes rest := by
  cases c with
  | sigwait s => exact absurd rfl (hwait s)
  | print => exact absurd rfl hprint
  | _ => rfl

theorem Paired.tail {c : Call ρ} {rest : List (Call ρ)} (h : Paired (c :: rest)) : Paired rest := by
  cases c with
  | sigwait s => exact h.2
  | print => exact h.2
  | _ => exact h

theorem owes_calls (f : Failure) (rest : List (Call ρ)) : owes (f.calls ++ rest) = owes rest := by
  cases f <;> rfl

theorem paired_calls {f : Failure} {rest : List (Call ρ)} (h : Paired rest) :
    Paired (f.calls ++ rest) := by
  cases f <;> exact h

theorem silent_calls (f : Failure) : Silent (ρ := ρ) f.calls := by
  cases f <;> simp [Failure.calls, Silent]

/-- Only threads of certain kinds wait for signals, and they print what they take. -/
structure Tidy (P : Program ρ) (K : ρ → Prop) : Prop where
  code : ∀ r, Paired (P.code r) ∧ owes (P.code r) = false
  loop : ∀ r, Paired (P.loop r) ∧ owes (P.loop r) = false
  handler : ∀ n, Silent (P.handler n)
  waits : ∀ r s, .sigwait s ∈ P.code r ++ P.loop r → K r

/-- **The account of a thread**: it has printed what it has taken, but for the last. -/
structure Orderly (K : ρ → Prop) (t : ThreadState ρ) : Prop where
  paired : Paired t.todo
  silent : ∀ f ∈ t.frames, Silent f.todo
  account : t.taken = t.printed ++ if owes t.todo then [t.sig] else []
  waits : ∀ s, .sigwait s ∈ t.todo → K t.kind
  taker : t.taken ≠ [] → K t.kind

variable {K : ρ → Prop}

theorem Orderly.congr {rest : List (Call ρ)} (h : Orderly K t) (hpaired : Paired rest)
    (howes : owes rest = owes t.todo) (hwaits : ∀ s, .sigwait s ∈ rest → .sigwait s ∈ t.todo) :
    Orderly K { t with todo := rest } where
  paired := hpaired
  silent := h.silent
  account := by rw [howes]; exact h.account
  waits s hs := h.waits s (hwaits s hs)
  taker := h.taker

/-- A thread leaves a call behind that has nothing to do with the account. -/
theorem Orderly.next {c : Call ρ} {rest : List (Call ρ)} {f : Failure} (h : Orderly K t)
    (hcur : t.current = c :: rest) (hprint : c ≠ .print) (hwait : ∀ s, c ≠ .sigwait s) :
    Orderly K (t.next (f.calls ++ rest)) := by
  rw [ThreadState.current] at hcur
  rw [ThreadState.next]
  split at hcur
  · rename_i hframes
    have hpaired : Paired (c :: rest) := hcur ▸ h.paired
    refine h.congr (paired_calls hpaired.tail) ?_ ?_
    · rw [owes_calls, hcur, owes_cons hprint hwait]
    · intro s hs
      rw [hcur]
      rcases List.mem_append.mp hs with hcalls | hrest
      · exact absurd rfl ((silent_calls f _ hcalls).2 s)
      · exact List.mem_cons_of_mem _ hrest
  · rename_i g below hframes
    refine ⟨h.paired, fun g' hg' => ?_, h.account, h.waits, h.taker⟩
    rcases List.mem_cons.mp hg' with rfl | hbelow
    · intro x hx
      rcases List.mem_append.mp hx with hcalls | hrest
      · exact silent_calls f x hcalls
      · exact h.silent g (by rw [hframes]; exact List.mem_cons_self) x
          (by rw [hcur]; exact List.mem_cons_of_mem _ hrest)
    · exact h.silent g' (by rw [hframes]; exact List.mem_cons_of_mem _ hbelow)

/-- Where a thread prints or waits, no handler is running in it. -/
theorem Orderly.frames_eq {c : Call ρ} {rest : List (Call ρ)} (h : Orderly K t)
    (hcur : t.current = c :: rest) (hc : c = .print ∨ ∃ s, c = .sigwait s) :
    t.frames = [] ∧ t.todo = c :: rest := by
  rw [ThreadState.current] at hcur
  split at hcur
  · rename_i hframes
    exact ⟨hframes, hcur⟩
  · rename_i f below hframes
    obtain ⟨hprint, hwait⟩ := h.silent f (by rw [hframes]; exact List.mem_cons_self) c
      (by rw [hcur]; exact List.mem_cons_self)
    rcases hc with rfl | ⟨s, rfl⟩
    · exact absurd rfl hprint
    · exact absurd rfl (hwait s)

theorem Orderly.call {rest : List (Call ρ)} {c : Call ρ} (h : Orderly K t)
    (hcur : t.current = c :: rest) (hcall : t.call P rest c a = some (t', e)) :
    Orderly K t' := by
  by_cases hc : c = .print ∨ ∃ s, c = .sigwait s
  · obtain ⟨hframes, htodo⟩ := h.frames_eq hcur hc
    rcases hc with rfl | ⟨s, rfl⟩
    · obtain ⟨ok, -, heq⟩ := Option.map_eq_some_iff.mp hcall
      obtain ⟨rfl, -⟩ := Prod.mk.inj heq
      have hpaired : Paired (.print :: rest) := htodo ▸ h.paired
      have haccount : t.taken = t.printed ++ [t.sig] := by
        have h' := h.account
        rwa [htodo] at h'
      rw [ThreadState.next_of_nil hframes]
      refine ⟨hpaired.2, h.silent, ?_, fun s hs => h.waits s ?_, h.taker⟩
      · rw [haccount, hpaired.1]
        simp
      · rw [htodo]
        exact List.mem_cons_of_mem _ hs
    · simp only [ThreadState.call, reduceCtorEq] at hcall
  · obtain ⟨hprint, hwait⟩ := not_or.mp hc
    have hnext : ∀ f : Failure, Orderly K (t.next (f.calls ++ rest)) := fun f =>
      h.next hcur hprint (not_exists.mp hwait)
    have hrest : Orderly K (t.next rest) := hnext .ignored
    rcases ThreadState.call_cases hcall with ⟨rfl, -⟩ | ⟨f, rfl, -⟩ | ⟨s, -, rfl, -⟩ |
      ⟨n, f, -, rfl, -⟩ | ⟨rfl, -⟩ | ⟨rfl, -⟩
    · exact hrest
    · exact hnext f
    · exact ⟨hrest.paired, hrest.silent, hrest.account, hrest.waits, hrest.taker⟩
    · exact ⟨hrest.paired, hrest.silent, hrest.account, hrest.waits, hrest.taker⟩
    · exact absurd rfl hprint
    · exact h

theorem orderly_new (hP : Tidy P K) (r : ρ) (blocked : Finset ℕ) :
    Orderly K (.new P r blocked) where
  paired := (hP.code r).1
  silent := by rintro _ ⟨⟩
  account := by rw [ThreadState.new, (hP.code r).2]; rfl
  waits s hs := hP.waits r s (List.mem_append_left _ hs)
  taker hne := absurd rfl hne

/-- **What is taken is printed**, in every thread of a program that sees to it. -/
theorem orderly_kept (hP : Tidy P K) : Kept P (fun _ _ => True) (Orderly K) where
  new _ _ _ := orderly_new hP _ _
  go {t _ _ _} h _ _ hgo := by
    rcases ThreadState.go_cases hgo with ⟨c, rest, hcur, hcall⟩ | ⟨f, below, -, hframes, rfl, -⟩ |
      ⟨hcur, hframes, rfl, -⟩
    · exact h.call hcur hcall
    · refine ⟨h.paired, fun g hg => h.silent g ?_, h.account, h.waits, h.taker⟩
      rw [hframes]
      exact List.mem_cons_of_mem _ hg
    · have htodo : t.todo = [] := by
        rwa [ThreadState.current, hframes] at hcur
      refine ⟨(hP.loop t.kind).1, h.silent, ?_, fun s hs => ?_, h.taker⟩
      · rw [(hP.loop t.kind).2, h.account, htodo]
        rfl
      · exact hP.waits t.kind s (List.mem_append_right _ hs)
  enter _ h _ _ := by
    refine ⟨h.paired, fun g hg => ?_, h.account, h.waits, h.taker⟩
    rcases List.mem_cons.mp hg with rfl | hbelow
    · exact hP.handler _
    · exact h.silent g hbelow
  drop h _ := ⟨h.paired, h.silent, h.account, h.waits, h.taker⟩
  take {t n _} pending h hget := by
    have hu : Orderly K { t with pending := pending } :=
      ⟨h.paired, h.silent, h.account, h.waits, h.taker⟩
    obtain ⟨s, rest, hcur, -, rfl⟩ := ThreadState.get_cases hget
    obtain ⟨hframes, htodo⟩ := hu.frames_eq hcur (Or.inr ⟨s, rfl⟩)
    have hpaired : Paired (.sigwait s :: rest) := htodo ▸ hu.paired
    have haccount : t.taken = t.printed := by
      have h' := hu.account
      rw [htodo] at h'
      exact h'.trans (List.append_nil _)
    rw [ThreadState.next_of_nil hframes]
    refine ⟨hpaired.2, h.silent, ?_, fun s' hs => ?_, ?_⟩
    · rw [hpaired.1, if_pos rfl]
      exact congrArg (· ++ [n]) haccount
    · exact hu.waits s' (by rw [htodo]; exact List.mem_cons_of_mem _ hs)
    · exact fun _ => hu.waits s (by rw [htodo]; exact List.mem_cons_self)

/-- The signals that thread `i` has taken in a run. -/
def takenBy (i : ℕ) (ls : List Event) : List ℕ :=
  ls.filterMap fun l => match l with
    | .take j n => if j = i then some n else none
    | _ => none

/-- The signals that thread `i` has taken, as it knows them. -/
def State.takenOf (p : State ρ) (i : ℕ) : List ℕ := (p.threads[i]?.map ThreadState.taken).getD []

theorem takenOf_put {v : ThreadState ρ} {x : Effect ρ} {j : ℕ} (ht : p.threads[j]? = some t)
    (hx : ∀ u, x = .create u → u.taken = []) :
    (p.put j (v, x)).takenOf i = if j = i then v.taken else p.takenOf i := by
  have hlt := (List.getElem?_eq_some_iff.mp ht).1
  have hset : ((p.threads.set j v)[i]?.map ThreadState.taken).getD [] =
      if j = i then v.taken else p.takenOf i := by
    rw [List.getElem?_set]
    split_ifs
    · rfl
    · rfl
  cases x with
  | create u =>
    rw [← hset]
    change ((p.threads.set j v ++ [u])[i]?.map ThreadState.taken).getD [] = _
    rcases lt_or_ge i (p.threads.set j v).length with hi | hi
    · rw [List.getElem?_append_left hi]
    · rw [List.getElem?_append_right hi, List.getElem?_eq_none hi]
      rcases Nat.eq_zero_or_pos (i - (p.threads.set j v).length) with hz | hpos
      · rw [hz]
        exact hx u rfl
      · rw [List.getElem?_eq_none (by simpa using Nat.succ_le_of_lt hpos)]
  | _ => exact hset

/-- A thread that goes on takes nothing. -/
theorem ThreadState.go_taken (h : t.go P a = some (t', e)) : t'.taken = t.taken := by
  rcases go_cases h with ⟨c, rest, -, hcall⟩ | ⟨f, below, -, -, rfl, -⟩ | ⟨-, -, rfl, -⟩
  · rcases call_cases hcall with ⟨rfl, -⟩ | ⟨f, rfl, -⟩ | ⟨s, -, rfl, -⟩ | ⟨n, f, -, rfl, -⟩ |
      ⟨-, rfl, -⟩ | ⟨rfl, -⟩ <;> simp
  all_goals rfl

theorem takenOf_step (h : step P p l = some q) : q.takenOf i = p.takenOf i ++ takenBy i [l] := by
  have same : ∀ {j : ℕ} {t v : ThreadState ρ} {x : Effect ρ} {pending : List ℕ},
      p.threads[j]? = some t → v.taken = t.taken → (∀ u, x = .create u → u.taken = []) →
      (State.put { p with pending := pending } j (v, x)).takenOf i = p.takenOf i := by
    intro j t v x pending ht hv hx
    rw [takenOf_put (p := { p with pending := pending }) ht hx]
    split_ifs with hji
    · subst hji
      rw [State.takenOf, ht, hv]
      rfl
    · rfl
  obtain ⟨-, ⟨k, rfl, rfl⟩ | ⟨j, t, ht, -, hcases⟩⟩ := step_cases h
  · exact (List.append_nil _).symm
  rcases hcases with ⟨k, u, pending, rfl, -, hfetch, hrest⟩ |
    ⟨k, u, v, pending, rfl, -, hfetch, hget, rfl⟩ | ⟨k, rfl, -, -, hrest⟩ |
    ⟨a, ⟨v, x⟩, rfl, -, hgo, rfl⟩
  · have hu : u.taken = t.taken := by
      rcases fetch_cases hfetch with ⟨-, rfl, -⟩ | ⟨-, rfl, -⟩ <;> rfl
    refine Eq.trans ?_ (List.append_nil _).symm
    rcases hrest with ⟨-, rfl⟩ | ⟨-, -, rfl⟩ | ⟨-, -, rfl⟩
    · exact same ht hu (by rintro _ ⟨⟩)
    · exact same ht hu (by rintro _ ⟨⟩)
    · exact same ht rfl (by rintro _ ⟨⟩)
  · have hu : u.taken = t.taken := by
      rcases fetch_cases hfetch with ⟨-, rfl, -⟩ | ⟨-, rfl, -⟩ <;> rfl
    obtain ⟨s, rest, -, -, rfl⟩ := ThreadState.get_cases hget
    rw [takenOf_put (p := { p with pending := pending }) (x := .nothing) ht (by rintro _ ⟨⟩),
      takenBy]
    by_cases hji : j = i
    · subst hji
      rw [if_pos rfl, State.takenOf, ht]
      simp [hu]
    · rw [if_neg hji]
      simp [hji, State.takenOf]
  · refine Eq.trans ?_ (List.append_nil _).symm
    rcases hrest with ⟨-, rfl⟩ | ⟨-, -, rfl⟩
    · exact same ht rfl (by rintro _ ⟨⟩)
    · exact same ht rfl (by rintro _ ⟨⟩)
  · refine Eq.trans ?_ (List.append_nil _).symm
    refine same ht (ThreadState.go_taken hgo) fun u hu => ?_
    obtain ⟨r, rfl⟩ := (ThreadState.go_mild hgo).1 u hu
    rfl

/-- **A thread knows what it has taken.** -/
theorem taken_eq {inherited : Finset ℕ} (h : run (step P) (start P inherited) ls = some q)
    (ht : q.threads[i]? = some t) : t.taken = takenBy i ls := by
  have hall : q.takenOf i = takenBy i ls := by
    refine run_history (P := fun ls (q : State ρ) => q.takenOf i = takenBy i ls) ?_ ?_ h
    · intro ls p l q hp hstep
      rw [takenOf_step hstep, hp]
      exact (List.filterMap_append ..).symm
    · cases i <;> rfl
  rw [← hall, State.takenOf, ht]
  rfl

end Kernel

end ThreadSignals

end SystemProgramming
