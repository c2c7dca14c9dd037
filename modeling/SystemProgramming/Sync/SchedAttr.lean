import SystemProgramming.HandleErr
import SystemProgramming.Runs
import SystemProgramming.Sync.ThreadParams

/-!
# The scheduling attributes of a thread that may not have begun

`assgn2` (`solutions_to_assgn/ch17/`) creates three threads, changes the scheduling policy and the
priority of the one its arguments name, and prints what all of them have, before and after. A thread
is known to the kernel by a number that it writes down itself when it begins, and `main` just sleeps
for a second before it reads these numbers: it skips a thread whose number is still zero when it
prints, and when it sets, but not when it prints the second time, and the kernel takes zero for the
thread that asks.

In every interleaving, what is printed of a thread that is there is what it has nevertheless
(`SystemProgramming.SchedAttr.rows_true`): one that has not begun to run cannot have been changed,
and has inherited what `main` has. Whether the change is made is another question, since it is
announced in any case: it is if and only if the thread had begun and had not ended when it was
looked for, and the policy is not `SCHED_OTHER`, which the arguments offer and the kernel does not
accept with any of the priorities that they allow (`SystemProgramming.SchedAttr.changed_iff`).

A number that has been used is not used again for another thread here.
-/

namespace SystemProgramming

open HandleErr Runs

namespace SchedAttr

/-- The number of threads. -/
def NTHREADS : ℕ := 3

/-- The lowest and the highest priority for `SCHED_FIFO`. -/
def prioMin : ℤ := 1

def prioMax : ℤ := 99

/-- What is printed of the attributes and was set: the policy and the priority. -/
structure Attr where
  policy : ℤ
  prio : ℤ
  deriving DecidableEq, Repr

/-- What `main` is asked to do: which thread is to be changed, and to what. -/
structure Request where
  thrdnum : ℕ
  attr : Attr
  deriving DecidableEq, Repr

/-- The arguments that `main` accepts. -/
def args (argv : List (List UInt8)) : Option Request :=
  let thrdnum := (ThreadParams.atoi argv 1).toInt
  let policy := (ThreadParams.atoi argv 2).toInt
  let rtprio := (ThreadParams.atoi argv 3).toInt
  if argv.length ≠ 4 then none
  else if thrdnum < 0 ∨ thrdnum ≥ NTHREADS then none
  else if policy < 0 ∨ policy ≥ 3 then none
  else if rtprio < prioMin ∨ rtprio > prioMax then none
  else some ⟨thrdnum.toNat, policy, rtprio⟩

/-- What the kernel accepts of `sched_setattr`: a priority with `SCHED_FIFO` and `SCHED_RR`, and
none with `SCHED_OTHER`. -/
def Accepted (x : Attr) : Prop :=
  (x.policy = 1 ∨ x.policy = 2) ∧ prioMin ≤ x.prio ∧ x.prio ≤ prioMax ∨ x.policy = 0 ∧ x.prio = 0

instance : DecidablePred Accepted := fun x => by unfold Accepted; infer_instance

/-- A thread, as far as it is seen. -/
inductive Worker where
  /-- It has not been created. -/
  | absent
  /-- It has not written down its number. -/
  | created
  /-- It has. -/
  | begun
  /-- It has ended. -/
  | exited
  deriving DecidableEq, Repr

/-- A line of the table: the thread it names, what it shows, unless this is junk, and what the
thread has when it is printed, if it is there. -/
structure Row where
  thrdnum : ℕ
  shown : Option Attr
  real : Option Attr
  deriving DecidableEq, Repr

/-- Where `main` stands. -/
inductive MainPc where
  /-- About to allocate the structure of thread `i`. -/
  | calloc (i : ℕ)
  /-- That failed; about to call `FATAL`. -/
  | callocFatal (i : ℕ)
  /-- About to create the thread. -/
  | create (i : ℕ)
  /-- That failed; about to call `FATAL`. -/
  | createFatal (i : ℕ)
  /-- About to sleep for a second. -/
  | sleep
  /-- About to print the head of the table. -/
  | header
  /-- About to see whether the number of thread `i` is there. -/
  | check (i : ℕ)
  /-- About to print its row. -/
  | query (i : ℕ)
  /-- About to see whether it is to be changed. -/
  | compare (i : ℕ)
  /-- About to announce the change. -/
  | announce
  /-- `set_sched`: about to see whether the number is there. -/
  | look
  /-- About to call `sched_setattr`. -/
  | set
  /-- That failed; about to warn. -/
  | warn
  /-- About to print the row of the thread that was to be changed. -/
  | show
  /-- About to join thread `i`. -/
  | join (i : ℕ)
  /-- That failed; about to warn. -/
  | joinWarn (i : ℕ)
  /-- It has left its threads. -/
  | gone
  /-- The process has exited. -/
  | exited (status : ℤ)
  /-- `main` has used a structure, or joined a thread, that is not there. -/
  | undefined
  deriving DecidableEq, Repr

/-- The state of the process, and of the kernel. -/
structure State where
  pc : MainPc
  workers : ℕ → Worker
  /-- The attributes of the threads. -/
  attr : ℕ → Attr
  rows : List Row

/-- What happens. -/
inductive Label where
  /-- `main` goes on, its call being answered so. -/
  | main (a : Answer)
  /-- A thread writes down its number, or ends. -/
  | worker (i : ℕ)
  deriving DecidableEq, Repr

section Program

variable (own : Attr) (req : Request)

/-- The process begins, and `main` has these attributes. A thread inherits them. -/
def start : State := ⟨.calloc 0, fun _ => .absent, fun _ => own, []⟩

/-- What thread `i` has, if it is there. -/
def State.real (p : State) (i : ℕ) : Option Attr :=
  match p.workers i with
  | .created | .begun => some (p.attr i)
  | .absent | .exited => none

/-- `get_show_sched`, called with the number of thread `i` as it is then: zero stands for `main`. -/
def State.getShowSched (p : State) (i : ℕ) : Row :=
  match p.workers i with
  | .absent | .created => ⟨i, some own, p.real i⟩
  | .begun => ⟨i, some (p.attr i), p.real i⟩
  | .exited => ⟨i, none, p.real i⟩

/-- The number of thread `i` is there. -/
def State.Known (p : State) (i : ℕ) : Prop := p.workers i = .begun ∨ p.workers i = .exited

instance (p : State) (i : ℕ) : Decidable (p.Known i) :=
  inferInstanceAs (Decidable (p.workers i = .begun ∨ p.workers i = .exited))

/-- The next round of the loop that creates the threads. -/
def MainPc.nextCreate (i : ℕ) : MainPc := if i + 1 < NTHREADS then .calloc (i + 1) else .sleep

/-- The next round of the loop that prints the table. -/
def MainPc.nextRow (i : ℕ) : MainPc := if i + 1 < NTHREADS then .check (i + 1) else .join 0

/-- The next round of the loop that joins the threads. -/
def MainPc.nextJoin (i : ℕ) : MainPc := if i + 1 < NTHREADS then .join (i + 1) else .gone

/-- `pthread_join` of thread `i`, which waits for it to end. -/
def State.join (p : State) (i : ℕ) (a : Answer) : Option State :=
  if p.workers i = .absent then some { p with pc := .undefined }
  else match a with
    | .ok => if p.workers i = .exited then some { p with pc := .nextJoin i } else none
    | .err => some { p with pc := .joinWarn i }
    | _ => none

/-- `main`, with `change_sched_policy_prio` and `set_sched`. The structure that `set_sched` fills in
is a local variable of which it leaves the flags, the nice value and the runtime as they are: they
are taken not to matter to the kernel. Nor does `main` have the flag that keeps its threads from
inheriting its policy. -/
def mainStep (p : State) (a : Answer) : Option State :=
  let goto (p : State) (pc : MainPc) : State := { p with pc := pc }
  match p.pc with
  | .calloc i => a.status.map fun ok => goto p (if ok then .create i else .callocFatal i)
  | .callocFatal _ => afterFatal a (fun status => goto p (.exited status)) (goto p .undefined)
  | .create i => a.status.map fun ok =>
    if ok then goto { p with workers := Function.update p.workers i .created } (.nextCreate i)
    else goto p (.createFatal i)
  | .createFatal i =>
    afterFatal a (fun status => goto p (.exited status)) (goto p (.nextCreate i))
  | .sleep => a.status.map fun _ => goto p .header
  | .header => a.status.map fun _ => goto p (.check 0)
  | .check i => if a = .ok then some (goto p (if p.Known i then .query i else .compare i)) else none
  | .query i => a.status.map fun _ =>
    goto { p with rows := p.rows ++ [p.getShowSched own i] } (.compare i)
  | .compare i =>
    if a = .ok then some (goto p (if i = req.thrdnum then .announce else .nextRow i)) else none
  | .announce => a.status.map fun _ => goto p .look
  | .look => if a = .ok then some (goto p (if p.Known req.thrdnum then .set else .show)) else none
  | .set => match a with
    | .ok => if p.workers req.thrdnum = .begun ∧ Accepted req.attr then
        some (goto { p with attr := Function.update p.attr req.thrdnum req.attr } .show) else none
    | .err => some (goto p .warn)
    | _ => none
  | .warn => a.status.map fun _ => goto p .show
  | .show => a.status.map fun _ =>
    goto { p with rows := p.rows ++ [p.getShowSched own req.thrdnum] } (.nextRow req.thrdnum)
  | .join i => p.join i a
  | .joinWarn i => a.status.map fun _ => goto p (.nextJoin i)
  | .gone | .exited _ | .undefined => none

/-- A thread. -/
def workerStep (p : State) (i : ℕ) : Option State :=
  match p.workers i with
  | .created => some { p with workers := Function.update p.workers i .begun }
  | .begun => some { p with workers := Function.update p.workers i .exited }
  | .absent | .exited => none

/-- The process has ended. -/
def MainPc.Ended : MainPc → Bool
  | .exited _ | .undefined => true
  | _ => false

/-- **The step function.** -/
def step (p : State) (l : Label) : Option State :=
  if p.pc.Ended then none
  else match l with
    | .main a => mainStep own req p a
    | .worker i => workerStep p i

end Program

/-! ### What a step does -/

section Steps

variable {own : Attr} {req : Request} {p q : State} {l : Label} {a : Answer} {ls : List Label}
  {i j : ℕ}

theorem step_cases (h : step own req p l = some q) : p.pc.Ended = false ∧
    ((∃ a, l = .main a ∧ mainStep own req p a = some q) ∨
      ∃ i, l = .worker i ∧ workerStep p i = some q) := by
  rw [step.eq_def] at h
  split_ifs at h with hended
  refine ⟨by simpa using hended, ?_⟩
  cases l with
  | main a => exact Or.inl ⟨a, rfl, h⟩
  | worker i => exact Or.inr ⟨i, rfl, h⟩

/-- The threads are being created. -/
def MainPc.Creates : MainPc → Prop
  | .calloc _ | .callocFatal _ | .create _ | .createFatal _ => True
  | _ => False

theorem MainPc.not_creates_nextRow (i : ℕ) : ¬(MainPc.nextRow i).Creates := by
  rw [MainPc.nextRow]
  split_ifs <;> exact id

theorem MainPc.not_creates_nextJoin (i : ℕ) : ¬(MainPc.nextJoin i).Creates := by
  rw [MainPc.nextJoin]
  split_ifs <;> exact id

theorem join_cases (h : p.join i a = some q) :
    ∃ pc, q = { p with pc := pc } ∧ (pc = .undefined ∨ pc = .joinWarn i ∨ pc = .nextJoin i) := by
  rw [State.join.eq_def] at h
  split at h
  · exact ⟨_, (Option.some.inj h).symm, Or.inl rfl⟩
  · split at h
    · obtain ⟨-, heq⟩ := Option.ite_none_right_eq_some.mp h
      exact ⟨_, (Option.some.inj heq).symm, Or.inr (Or.inr rfl)⟩
    · exact ⟨_, (Option.some.inj h).symm, Or.inr (Or.inl rfl)⟩
    · cases h

/-- **What `main` does**: it goes on, or creates a thread, or prints a row, or sets what it is asked
to. -/
theorem mainStep_cases (h : mainStep own req p a = some q) :
    (∃ pc, q = { p with pc := pc } ∧ (pc.Creates → p.pc.Creates)) ∨
    (∃ i pc, p.pc.Creates ∧
      q = { p with workers := Function.update p.workers i .created, pc := pc }) ∨
    (∃ i pc, ¬pc.Creates ∧ q = { p with rows := p.rows ++ [p.getShowSched own i], pc := pc }) ∨
    (p.workers req.thrdnum = .begun ∧ Accepted req.attr ∧
      q = { p with attr := Function.update p.attr req.thrdnum req.attr, pc := .show }) := by
  obtain ⟨pc, workers, attr, rows⟩ := p
  have goto : ∀ {pc' : MainPc}, (pc'.Creates → pc.Creates) → ∃ pc'',
      (⟨pc', workers, attr, rows⟩ : State) = ⟨pc'', workers, attr, rows⟩ ∧
        (pc''.Creates → pc.Creates) := fun h => ⟨_, rfl, h⟩
  cases pc with
  | calloc i =>
    obtain ⟨ok, -, rfl⟩ := Option.map_eq_some_iff.mp h
    exact Or.inl (goto fun _ => trivial)
  | callocFatal i =>
    rcases afterFatal_cases h with rfl | rfl <;> exact Or.inl (goto fun _ => trivial)
  | create i =>
    obtain ⟨ok, -, rfl⟩ := Option.map_eq_some_iff.mp h
    cases ok
    · exact Or.inl (goto fun _ => trivial)
    · exact Or.inr (Or.inl ⟨i, _, trivial, rfl⟩)
  | createFatal i =>
    rcases afterFatal_cases h with rfl | rfl <;> exact Or.inl (goto fun _ => trivial)
  | sleep =>
    obtain ⟨ok, -, rfl⟩ := Option.map_eq_some_iff.mp h
    exact Or.inl (goto id)
  | header =>
    obtain ⟨ok, -, rfl⟩ := Option.map_eq_some_iff.mp h
    exact Or.inl (goto id)
  | check i =>
    obtain ⟨-, heq⟩ := Option.ite_none_right_eq_some.mp h
    obtain rfl := Option.some.inj heq
    exact Or.inl (goto (by split_ifs <;> exact id))
  | query i =>
    obtain ⟨ok, -, rfl⟩ := Option.map_eq_some_iff.mp h
    exact Or.inr (Or.inr (Or.inl ⟨i, .compare i, id, rfl⟩))
  | compare i =>
    obtain ⟨-, heq⟩ := Option.ite_none_right_eq_some.mp h
    obtain rfl := Option.some.inj heq
    refine Or.inl (goto ?_)
    split_ifs
    · exact id
    · exact fun hc => absurd hc (MainPc.not_creates_nextRow i)
  | announce =>
    obtain ⟨ok, -, rfl⟩ := Option.map_eq_some_iff.mp h
    exact Or.inl (goto id)
  | look =>
    obtain ⟨-, heq⟩ := Option.ite_none_right_eq_some.mp h
    obtain rfl := Option.some.inj heq
    exact Or.inl (goto (by split_ifs <;> exact id))
  | set =>
    cases a <;> simp only [mainStep, reduceCtorEq] at h
    · obtain ⟨⟨hbegun, haccepted⟩, heq⟩ := Option.ite_none_right_eq_some.mp h
      exact Or.inr (Or.inr (Or.inr ⟨hbegun, haccepted, (Option.some.inj heq).symm⟩))
    · obtain rfl := Option.some.inj h
      exact Or.inl (goto id)
  | warn =>
    obtain ⟨ok, -, rfl⟩ := Option.map_eq_some_iff.mp h
    exact Or.inl (goto id)
  | «show» =>
    obtain ⟨ok, -, rfl⟩ := Option.map_eq_some_iff.mp h
    exact Or.inr (Or.inr (Or.inl ⟨req.thrdnum, _, MainPc.not_creates_nextRow _, rfl⟩))
  | join i =>
    obtain ⟨pc, rfl, hpc⟩ := join_cases h
    refine Or.inl (goto fun hc => absurd hc ?_)
    rcases hpc with rfl | rfl | rfl
    · exact id
    · exact id
    · exact MainPc.not_creates_nextJoin i
  | joinWarn i =>
    obtain ⟨ok, -, rfl⟩ := Option.map_eq_some_iff.mp h
    exact Or.inl (goto fun hc => absurd hc (MainPc.not_creates_nextJoin i))
  | _ => simp only [mainStep, reduceCtorEq] at h

/-- A thread begins, or ends. -/
theorem workerStep_cases (h : workerStep p i = some q) :
    (p.workers i = .created ∧ q = { p with workers := Function.update p.workers i .begun }) ∨
      (p.workers i = .begun ∧ q = { p with workers := Function.update p.workers i .exited }) := by
  rw [workerStep] at h
  split at h
  · exact Or.inl ⟨‹_›, (Option.some.inj h).symm⟩
  · exact Or.inr ⟨‹_›, (Option.some.inj h).symm⟩
  · cases h
  · cases h

/-- **The invariant**: only a thread that has written down its number can have been changed, and
what is shown of a thread is what it has. -/
structure Inv (own : Attr) (req : Request) (p : State) : Prop where
  creates : p.pc.Creates → ∀ j, p.attr j = own
  unknown : ∀ j, ¬p.Known j → p.attr j = own
  others : ∀ j, j ≠ req.thrdnum → p.attr j = own
  value : p.attr req.thrdnum = own ∨ p.attr req.thrdnum = req.attr ∧ Accepted req.attr
  rows : ∀ r ∈ p.rows, ∀ x, r.real = some x → r.shown = some x

theorem inv_start : Inv own req (start own) :=
  ⟨fun _ _ => rfl, fun _ _ => rfl, fun _ _ => rfl, Or.inl rfl, by rintro _ ⟨⟩⟩

/-- The row of a thread that is there is right, though `main` may have asked for its own. -/
theorem Inv.shown (hp : Inv own req p) {x : Attr} (h : (p.getShowSched own i).real = some x) :
    (p.getShowSched own i).shown = some x := by
  have hunknown := hp.unknown i
  rw [State.getShowSched] at h ⊢
  cases hw : p.workers i with
  | absent =>
    simp only [hw, State.real, reduceCtorEq] at h
  | created =>
    simp only [hw, State.real, Option.some.injEq] at h ⊢
    rw [← h, hunknown (by simp [State.Known, hw])]
  | begun =>
    simp only [hw, State.real] at h ⊢
    exact h
  | exited =>
    simp only [hw, State.real, reduceCtorEq] at h

/-- **One step keeps the invariant.** -/
theorem Inv.step (hp : Inv own req p) (h : SchedAttr.step own req p l = some q) :
    Inv own req q := by
  obtain ⟨-, ⟨a, rfl, hmain⟩ | ⟨i, rfl, hworker⟩⟩ := step_cases h
  · rcases mainStep_cases hmain with ⟨pc, rfl, hpc⟩ | ⟨i, pc, hcreates, rfl⟩ |
      ⟨i, pc, hpc, rfl⟩ | ⟨hbegun, haccepted, rfl⟩
    · exact ⟨fun hc => hp.creates (hpc hc), hp.unknown, hp.others, hp.value, hp.rows⟩
    · have hall := hp.creates hcreates
      exact ⟨fun _ => hall, fun j _ => hall j, hp.others, hp.value, hp.rows⟩
    · refine ⟨fun hc => absurd hc hpc, hp.unknown, hp.others, hp.value, fun r hr x hx => ?_⟩
      rcases List.mem_append.mp hr with hold | hnew
      · exact hp.rows r hold x hx
      · obtain rfl := List.mem_singleton.mp hnew
        exact hp.shown hx
    · have hother : ∀ j, j ≠ req.thrdnum →
          Function.update p.attr req.thrdnum req.attr j = own := fun j hj => by
        rw [Function.update_of_ne hj]
        exact hp.others j hj
      refine ⟨False.elim, fun j hj => hother j ?_, hother, Or.inr ⟨?_, haccepted⟩, hp.rows⟩
      · rintro rfl
        exact hj (Or.inl hbegun)
      · exact Function.update_self ..
  · have known : ∀ w : Worker, p.workers i = .created ∨ p.workers i = .begun → ∀ j,
        ¬State.Known { p with workers := Function.update p.workers i w } j →
        w = .begun ∨ w = .exited → ¬p.Known j := by
      intro w hi j hj hw hknown
      apply hj
      by_cases hji : j = i
      · subst hji
        rw [State.Known]
        rcases hw with rfl | rfl
        · exact Or.inl (Function.update_self ..)
        · exact Or.inr (Function.update_self ..)
      · rw [State.Known]
        rcases hknown with hw' | hw'
        · exact Or.inl ((Function.update_of_ne hji ..).trans hw')
        · exact Or.inr ((Function.update_of_ne hji ..).trans hw')
    rcases workerStep_cases hworker with ⟨hw, rfl⟩ | ⟨hw, rfl⟩
    · exact ⟨hp.creates, fun j hj => hp.unknown j (known _ (Or.inl hw) j hj (Or.inl rfl)),
        hp.others, hp.value, hp.rows⟩
    · exact ⟨hp.creates, fun j hj => hp.unknown j (known _ (Or.inr hw) j hj (Or.inr rfl)),
        hp.others, hp.value, hp.rows⟩

/-- **What is printed of a thread is what it has**, in every run: every row of the table that is
about a thread that is there shows the attributes it has at that time. And no thread but the one
that is asked for is ever changed, nor that one to anything else. -/
theorem rows_true (hrun : run (step own req) (start own) ls = some p) :
    (∀ r ∈ p.rows, ∀ x, r.real = some x → r.shown = some x) ∧
    (∀ j, j ≠ req.thrdnum → p.attr j = own) ∧
    (p.attr req.thrdnum = own ∨ p.attr req.thrdnum = req.attr ∧ Accepted req.attr) := by
  have hp : Inv own req p := run_invariant (fun _ _ _ hp h => hp.step h) inv_start hrun
  exact ⟨hp.rows, hp.others, hp.value⟩

/-- The third thread is to be changed and has not begun: the row shows what `main` has. -/
theorem rows_true_unbegun : ∃ ls p, run (step ⟨0, 0⟩ ⟨2, 1, 81⟩) (start ⟨0, 0⟩) ls = some p ∧
    p.rows = [⟨2, some ⟨0, 0⟩, some ⟨0, 0⟩⟩] ∧ p.attr 1 = ⟨0, 0⟩ := by
  obtain ⟨ls, p, hrun, hrows⟩ : ∃ ls p, run (step ⟨0, 0⟩ ⟨2, 1, 81⟩) (start ⟨0, 0⟩) ls = some p ∧
      p.rows = [⟨2, some ⟨0, 0⟩, some ⟨0, 0⟩⟩] :=
    ⟨List.replicate 17 (.main .ok), _, rfl, rfl⟩
  exact ⟨ls, p, hrun, hrows, (rows_true hrun).2.1 1 (by decide)⟩

/-! ### Whether the change is made -/

/-- **The condition**: when `main` looks for the thread that is to be changed, and when it calls
`sched_setattr` for it, the thread has begun and has not ended. -/
def Ready (req : Request) (p : State) : Label → Prop
  | .main _ => p.pc = .look ∨ p.pc = .set → p.workers req.thrdnum = .begun
  | .worker _ => True

instance (req : Request) (p : State) (l : Label) : Decidable (Ready req p l) := by
  cases l <;> unfold Ready <;> infer_instance

/-- `main` may change its threads. -/
def Granted (req : Request) (p : State) : Label → Prop
  | .main .err => p.pc = .set → ¬(p.workers req.thrdnum = .begun ∧ Accepted req.attr)
  | _ => True

instance (req : Request) (p : State) (l : Label) : Decidable (Granted req p l) := by
  unfold Granted
  split <;> infer_instance

/-- How far the change has come. -/
inductive Stage where
  | undecided
  | set
  | refused
  | past
  | ended
  deriving DecidableEq

def MainPc.stage (k : ℕ) : MainPc → Stage
  | .check i | .query i | .compare i => if k < i then .past else .undecided
  | .set => .set
  | .warn => .refused
  | .show | .join _ | .joinWarn _ | .gone => .past
  | .exited _ | .undefined => .ended
  | _ => .undecided

/-- The thread was ready all along. -/
def Prompt (own : Attr) (req : Request) (ls : List Label) : Prop :=
  Every (step own req) (Ready req) (start own) ls

/-- **What a run has come to.** -/
def Phase (own : Attr) (req : Request) (ls : List Label) (p : State) : Prop :=
  match p.pc.stage req.thrdnum with
  | .undecided => Prompt own req ls ∧ p.attr req.thrdnum = own
  | .set => p.Known req.thrdnum ∧ p.attr req.thrdnum = own ∧
      (p.workers req.thrdnum = .begun → Prompt own req ls)
  | .refused => p.attr req.thrdnum = own ∧ (Accepted req.attr → ¬Prompt own req ls)
  | .past => p.attr req.thrdnum = req.attr ↔ Accepted req.attr ∧ Prompt own req ls
  | .ended => True

theorem prompt_append (hrun : run (step own req) (start own) ls = some p) :
    Prompt own req (ls ++ [l]) ↔ Prompt own req ls ∧ Ready req p l := by
  rw [Prompt, every_append hrun]
  exact and_congr_right fun _ => ⟨fun h => h.1, fun h => ⟨h, fun _ _ => trivial⟩⟩

theorem MainPc.stage_nextRow {k : ℕ} (hk : k < NTHREADS) (i : ℕ) :
    (MainPc.nextRow i).stage k = if k ≤ i then .past else .undecided := by
  rw [MainPc.nextRow]
  split_ifs with hi hle hle
  · exact if_pos (Nat.lt_succ_of_le hle)
  · exact if_neg (by omega)
  · rfl
  · omega

theorem MainPc.stage_check_zero (k : ℕ) : (MainPc.check 0).stage k = .undecided := by
  rw [MainPc.stage, if_neg (Nat.not_lt_zero k)]

theorem MainPc.stage_nextJoin (k i : ℕ) : (MainPc.nextJoin i).stage k = .past := by
  rw [MainPc.nextJoin]
  split_ifs <;> rfl

theorem MainPc.stage_nextCreate (k i : ℕ) : (MainPc.nextCreate i).stage k = .undecided := by
  rw [MainPc.nextCreate]
  split_ifs <;> rfl

theorem MainPc.stage_ne_set {pc : MainPc} {k : ℕ} (h : pc ≠ .set) : pc.stage k ≠ .set := by
  cases pc with
  | set => exact absurd rfl h
  | check | query | compare =>
    rw [MainPc.stage]
    split_ifs <;> rintro ⟨⟩
  | _ => rintro ⟨⟩

/-- A step that has nothing to do with the change. -/
theorem Phase.keep (hp : Phase own req ls p) (hrun : run (step own req) (start own) ls = some p)
    (hready : Ready req p l) (hset : p.pc.stage req.thrdnum ≠ .set)
    (hstage : q.pc.stage req.thrdnum = p.pc.stage req.thrdnum) (hattr : q.attr = p.attr) :
    Phase own req (ls ++ [l]) q := by
  have hprompt : Prompt own req (ls ++ [l]) ↔ Prompt own req ls :=
    (prompt_append hrun).trans (and_iff_left hready)
  rw [Phase] at hp ⊢
  rw [hstage, hattr, hprompt]
  split at hp
  · exact hp
  · exact absurd ‹_› hset
  · exact hp
  · exact hp
  · trivial

/-- **A step of `main`.** -/
theorem Phase.main (hk : req.thrdnum < NTHREADS) (hown : own ≠ req.attr) (hp : Phase own req ls p)
    (hrun : run (SchedAttr.step own req) (start own) ls = some p) (hG : Granted req p (.main a))
    (h : mainStep own req p a = some q) : Phase own req (ls ++ [.main a]) q := by
  obtain ⟨pc, workers, attr, rows⟩ := p
  -- `main` asks for the thread at two points only
  have keep : ∀ {q : State}, pc ≠ .look ∧ pc ≠ .set →
      q.pc.stage req.thrdnum = pc.stage req.thrdnum → q.attr = attr →
      Phase own req (ls ++ [.main a]) q := by
    rintro q ⟨hlook, hset⟩ hstage hattr
    refine hp.keep hrun ?_ (MainPc.stage_ne_set hset) hstage hattr
    rintro (hpc | hpc)
    · exact absurd hpc hlook
    · exact absurd hpc hset
  cases pc with
  | calloc i =>
    obtain ⟨ok, -, rfl⟩ := Option.map_eq_some_iff.mp h
    exact keep (by simp) (by cases ok <;> rfl) rfl
  | callocFatal i =>
    rcases afterFatal_cases h with rfl | rfl <;> trivial
  | create i =>
    obtain ⟨ok, -, rfl⟩ := Option.map_eq_some_iff.mp h
    cases ok
    · exact keep (by simp) rfl rfl
    · exact keep (by simp) (MainPc.stage_nextCreate _ i) rfl
  | createFatal i =>
    rcases afterFatal_cases h with rfl | rfl
    · exact keep (by simp) (MainPc.stage_nextCreate _ i) rfl
    · trivial
  | sleep =>
    obtain ⟨ok, -, rfl⟩ := Option.map_eq_some_iff.mp h
    exact keep (by simp) rfl rfl
  | header =>
    obtain ⟨ok, -, rfl⟩ := Option.map_eq_some_iff.mp h
    exact keep (by simp) (MainPc.stage_check_zero _) rfl
  | check i =>
    obtain ⟨-, heq⟩ := Option.ite_none_right_eq_some.mp h
    obtain rfl := Option.some.inj heq
    exact keep (by simp) (by dsimp only; split_ifs <;> rfl) rfl
  | query i =>
    obtain ⟨ok, -, rfl⟩ := Option.map_eq_some_iff.mp h
    exact keep (by simp) rfl rfl
  | compare i =>
    obtain ⟨-, heq⟩ := Option.ite_none_right_eq_some.mp h
    obtain rfl := Option.some.inj heq
    refine keep (by simp) ?_ rfl
    dsimp only
    split_ifs with hi
    · rw [MainPc.stage, if_neg (by omega)]
      rfl
    · rw [MainPc.stage_nextRow hk, MainPc.stage]
      have hlt : req.thrdnum ≤ i ↔ req.thrdnum < i := by omega
      simp only [hlt]
  | announce =>
    obtain ⟨ok, -, rfl⟩ := Option.map_eq_some_iff.mp h
    exact keep (by simp) rfl rfl
  | look =>
    obtain ⟨-, heq⟩ := Option.ite_none_right_eq_some.mp h
    obtain rfl := Option.some.inj heq
    obtain ⟨hprompt, hattr⟩ := hp
    by_cases hknown : State.Known ⟨.look, workers, attr, rows⟩ req.thrdnum
    · rw [if_pos hknown]
      exact ⟨hknown, hattr, fun hbegun => (prompt_append hrun).mpr ⟨hprompt, fun _ => hbegun⟩⟩
    · rw [if_neg hknown]
      refine iff_of_false (fun heq => hown (hattr.symm.trans heq)) ?_
      rintro ⟨-, hprompt'⟩
      exact hknown (Or.inl (((prompt_append hrun).mp hprompt').2 (Or.inl rfl)))
  | set =>
    obtain ⟨-, hattr, hbegun⟩ := hp
    cases a <;> simp only [mainStep, reduceCtorEq] at h
    · obtain ⟨⟨hb, haccepted⟩, heq⟩ := Option.ite_none_right_eq_some.mp h
      obtain rfl := Option.some.inj heq
      have hprompt : Prompt own req (ls ++ [.main .ok]) :=
        (prompt_append hrun).mpr ⟨hbegun hb, fun _ => hb⟩
      exact iff_of_true (Function.update_self ..) ⟨haccepted, hprompt⟩
    · obtain rfl := Option.some.inj h
      refine ⟨hattr, fun haccepted hprompt => ?_⟩
      exact hG rfl ⟨((prompt_append hrun).mp hprompt).2 (Or.inr rfl), haccepted⟩
  | warn =>
    obtain ⟨ok, -, rfl⟩ := Option.map_eq_some_iff.mp h
    obtain ⟨hattr, hnot⟩ := hp
    refine iff_of_false (fun heq => hown (hattr.symm.trans heq)) ?_
    rintro ⟨haccepted, hprompt⟩
    exact hnot haccepted ((prompt_append hrun).mp hprompt).1
  | «show» =>
    obtain ⟨ok, -, rfl⟩ := Option.map_eq_some_iff.mp h
    refine keep (by simp) ?_ rfl
    rw [MainPc.stage_nextRow hk, if_pos le_rfl]
    rfl
  | join i =>
    obtain ⟨pc, rfl, rfl | rfl | rfl⟩ := join_cases h
    · trivial
    · exact keep (by simp) rfl rfl
    · exact keep (by simp) (MainPc.stage_nextJoin _ i) rfl
  | joinWarn i =>
    obtain ⟨ok, -, rfl⟩ := Option.map_eq_some_iff.mp h
    exact keep (by simp) (MainPc.stage_nextJoin _ i) rfl
  | _ => simp only [mainStep, reduceCtorEq] at h

/-- A step of a thread. -/
theorem Phase.worker (hp : Phase own req ls p)
    (hrun : run (SchedAttr.step own req) (start own) ls = some p) (h : workerStep p i = some q) :
    Phase own req (ls ++ [.worker i]) q := by
  have hkeep : q.pc = p.pc ∧ q.attr = p.attr := by
    rcases workerStep_cases h with ⟨-, rfl⟩ | ⟨-, rfl⟩ <;> exact ⟨rfl, rfl⟩
  by_cases hset : p.pc.stage req.thrdnum = .set
  · have hp' : p.Known req.thrdnum ∧ p.attr req.thrdnum = own ∧
        (p.workers req.thrdnum = .begun → Prompt own req ls) := by
      simpa only [Phase, hset] using hp
    obtain ⟨hknown, hattr, hbegun⟩ := hp'
    have hgoal : q.Known req.thrdnum ∧ q.attr req.thrdnum = own ∧
        (q.workers req.thrdnum = .begun → Prompt own req (ls ++ [.worker i])) := by
      rw [hkeep.2]
      have hworkers : q.workers req.thrdnum = p.workers req.thrdnum ∨
          q.workers req.thrdnum = .exited := by
        by_cases hi : req.thrdnum = i
        · subst hi
          rcases workerStep_cases h with ⟨hw, rfl⟩ | ⟨hw, rfl⟩
          · rcases hknown with hk | hk <;> cases hw.symm.trans hk
          · exact Or.inr (Function.update_self ..)
        · rcases workerStep_cases h with ⟨-, rfl⟩ | ⟨-, rfl⟩ <;>
            exact Or.inl (Function.update_of_ne hi ..)
      refine ⟨?_, hattr, fun hw => ?_⟩
      · rcases hworkers with heq | heq
        · rwa [State.Known, heq]
        · exact Or.inr heq
      · rcases hworkers with heq | heq
        · exact (prompt_append hrun).mpr ⟨hbegun (heq.symm.trans hw), trivial⟩
        · cases heq.symm.trans hw
    rw [Phase, hkeep.1, hset]
    exact hgoal
  · exact hp.keep hrun trivial hset (by rw [hkeep.1]) hkeep.2

theorem phase_run (hk : req.thrdnum < NTHREADS) (hown : own ≠ req.attr)
    (hrun : run (step own req) (start own) ls = some p)
    (hG : Every (step own req) (Granted req) (start own) ls) : Phase own req ls p := by
  induction ls using List.reverseRecOn generalizing p with
  | nil =>
    obtain rfl := Option.some.inj hrun
    exact ⟨trivial, rfl⟩
  | append_singleton ls l ih =>
    rw [run_append] at hrun
    obtain ⟨r, hr, hlast⟩ := Option.bind_eq_some_iff.mp hrun
    obtain ⟨q, hstep, hq⟩ := run_cons_eq_some.mp hlast
    obtain rfl := Option.some.inj hq
    obtain ⟨hbefore, hlabel, -⟩ := (every_append hr).mp hG
    have hphase := ih hr hbefore
    obtain ⟨-, ⟨a, rfl, hmain⟩ | ⟨i, rfl, hworker⟩⟩ := step_cases hstep
    · exact hphase.main hk hown hr hlabel hmain
    · exact hphase.worker hr hworker

/-- What the arguments allow is accepted unless the policy is `SCHED_OTHER`. -/
theorem accepted_iff {argv : List (List UInt8)} (hargs : args argv = some req) :
    req.thrdnum < NTHREADS ∧ (Accepted req.attr ↔ req.attr.policy ≠ 0) := by
  rw [args] at hargs
  split_ifs at hargs with hlen hthread hpolicy hprio
  obtain rfl := Option.some.inj hargs
  simp only [Accepted, NTHREADS, prioMin, prioMax] at *
  omega

/-- **Whether the change is made**, in every run in which `main` may change its threads: when it has
come past the change, the thread has what it was asked to have if and only if the policy is not
`SCHED_OTHER`, and the thread had begun and had not ended whenever `main` turned to it. -/
theorem changed_iff {argv : List (List UInt8)} (hargs : args argv = some req)
    (hown : own ≠ req.attr) (hrun : run (step own req) (start own) ls = some p)
    (hG : Every (step own req) (Granted req) (start own) ls)
    (hpast : p.pc.stage req.thrdnum = .past) :
    p.attr req.thrdnum = req.attr ↔
      req.attr.policy ≠ 0 ∧ Every (step own req) (Ready req) (start own) ls := by
  obtain ⟨hk, haccepted⟩ := accepted_iff hargs
  have hphase := phase_run hk hown hrun hG
  rw [Phase, hpast] at hphase
  rw [← haccepted]
  exact hphase

/-- The third thread has begun, and is changed. -/
theorem changed_iff_begun : ∃ ls p, run (step ⟨0, 0⟩ ⟨2, 1, 81⟩) (start ⟨0, 0⟩) ls = some p ∧
    p.pc.stage 2 = .past ∧ p.attr 2 = ⟨1, 81⟩ := by
  obtain ⟨ls, p, hrun, hpast, hgranted, hready⟩ : ∃ ls p,
      run (step ⟨0, 0⟩ ⟨2, 1, 81⟩) (start ⟨0, 0⟩) ls = some p ∧ p.pc.stage 2 = .past ∧
      (∀ l ∈ ls, l ≠ .main .err) ∧
      Every (step ⟨0, 0⟩ ⟨2, 1, 81⟩) (Ready ⟨2, 1, 81⟩) (start ⟨0, 0⟩) ls :=
    ⟨List.replicate 6 (.main .ok) ++ .worker 2 :: List.replicate 13 (.main .ok), _, rfl, rfl,
      by decide, by decide⟩
  have hargs : args [[], [50], [49], [56, 49]] = some ⟨2, 1, 81⟩ := by decide
  refine ⟨ls, p, hrun, hpast, (changed_iff hargs (by decide) hrun ?_ hpast).mpr ⟨by decide, hready⟩⟩
  refine (every_of_forall hgranted _).imp fun q l hl => ?_
  unfold Granted
  split
  · exact absurd rfl hl
  · trivial

end Steps

end SchedAttr

end SystemProgramming
