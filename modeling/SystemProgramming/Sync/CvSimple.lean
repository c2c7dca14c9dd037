import SystemProgramming.Calls
import SystemProgramming.HandleErr
import SystemProgramming.Mutex
import SystemProgramming.Runs

/-!
# Waiting for the work to be done

`cv_simple` (`ch15/`): the thread B does some work, sets `gWorkDone` and signals a
condition variable; the thread A waits for the condition variable in a loop that looks
at `gWorkDone` *behind* the wait. So A leaves its loop only when the work is done, however
often it wakes for no reason – but it also begins to wait when the work is done already,
and then the signal that it waits for has been given before.

The process is one step function (`SystemProgramming.CvSimple.step`); the steps are the
lock and the unlock of the mutex, the wait, the return from it, the signal and the
accesses to `gWorkDone`. A wake-up for no reason is a step that no thread makes.

A run in which A takes the mutex before B does never loses the wake-up
(`SystemProgramming.CvSimple.no_lost_wakeup`). The `sleep(1)` of B makes it likely that
it does, and nothing makes it certain.
-/

namespace SystemProgramming

open HandleErr Runs

namespace CvSimple

/-! ### The process -/

/-- Where the thread A stands. -/
inductive APc where
  /-- It has not been created. -/
  | absent
  /-- About to lock the mutex. -/
  | lock
  /-- About to wait for the condition variable. -/
  | wait
  /-- In the wait: blocked as long as it has not been woken, then about to take the mutex
  again. -/
  | waiting
  /-- Back from the wait, about to look at `gWorkDone`. -/
  | recheck
  /-- About to unlock the mutex. -/
  | unlock
  /-- It has exited. -/
  | exited
  deriving DecidableEq, Repr

/-- Where the thread B stands. -/
inductive BPc where
  /-- It has not been created. -/
  | absent
  /-- Its work is done; about to lock the mutex. -/
  | lock
  /-- About to set `gWorkDone`. -/
  | setDone
  /-- About to signal the condition variable. -/
  | signal
  /-- About to unlock the mutex. -/
  | unlock
  /-- It has exited. -/
  | exited
  deriving DecidableEq, Repr

/-- Where the main thread stands. -/
inductive MainPc where
  /-- About to create A. -/
  | createA
  /-- That failed; `FATAL` is about to allocate its message. -/
  | createAFatal
  /-- About to create B. -/
  | createB
  /-- That failed. -/
  | createBFatal
  /-- About to join A. -/
  | joinA
  /-- About to join B. -/
  | joinB
  /-- The process has exited with this status. -/
  | exited (status : ℤ)
  /-- The process has joined a thread that was not created, or given back a mutex that
  its thread did not hold. -/
  | undefined
  deriving DecidableEq, Repr

/-- The state of the process. -/
structure System where
  main : MainPc
  a : APc
  b : BPc
  /-- `gWorkDone` is not zero. -/
  gWorkDone : Bool
  mutex : Mutex
  mycv : CondVar
  deriving DecidableEq, Repr

/-- The thread that runs `workerA`. -/
def threadA : Thread := .worker 0

/-- The thread that runs `workerB`. -/
def threadB : Thread := .worker 1

/-- What a step is made by. -/
inductive Label where
  /-- The main thread, whose call is answered so. -/
  | main (a : Answer)
  /-- The thread A. -/
  | workerA
  /-- The thread B; its signal, if it is one, wakes this thread. -/
  | workerB (woken : Option Thread)
  /-- Nobody: a waiting thread wakes for no reason. -/
  | spurious (t : Thread)
  deriving DecidableEq, Repr

/-- The mutex and the condition variable have been initialized. -/
def System.start : System := ⟨.createA, .absent, .absent, false, .free, .init⟩

/-- A call of `FATAL`, with the state it leaves when it comes back. -/
def fatal (s : System) (a : Answer) (back : System) : Option System :=
  afterFatal a (fun status => { s with main := .exited status }) back

/-- `main`, from the creation of the threads on. -/
def mainStep (s : System) (a : Answer) : Option System :=
  match s.main, a with
  | .createA, a => a.status.map fun ok =>
    if ok then { s with main := .createB, a := .lock } else { s with main := .createAFatal }
  | .createAFatal, a => fatal s a { s with main := .createB }
  | .createB, a => a.status.map fun ok =>
    if ok then { s with main := .joinA, b := .lock } else { s with main := .createBFatal }
  | .createBFatal, a => fatal s a { s with main := .joinA }
  | .joinA, .ok =>
    match s.a with
    | .exited => some { s with main := .joinB }
    | .absent => some { s with main := .undefined }
    | _ => none
  | .joinB, .ok =>
    match s.b with
    | .exited => some { s with main := .exited 0 }
    | .absent => some { s with main := .undefined }
    | _ => none
  | _, _ => none

/-- What follows an unlock of the thread `t`. -/
def unlockThen (s : System) (t : Thread) (next : Mutex → System) : System :=
  match s.mutex.unlock t with
  | some m => next m
  | none => { s with main := .undefined }

/-- `workerA`. The wait gives the mutex back and begins in one step; it returns when the
thread has been woken and has the mutex again. -/
def workerA (s : System) : Option System :=
  match s.a with
  | .lock => (s.mutex.lock threadA).map fun m => { s with a := .wait, mutex := m }
  | .wait => some <| unlockThen s threadA fun m =>
    { s with a := .waiting, mutex := m, mycv := s.mycv.wait threadA }
  | .waiting =>
    if threadA ∈ s.mycv.waiters then none
    else (s.mutex.lock threadA).map fun m => { s with a := .recheck, mutex := m }
  | .recheck => some { s with a := if s.gWorkDone then .unlock else .wait }
  | .unlock => some <| unlockThen s threadA fun m => { s with a := .exited, mutex := m }
  | _ => none

/-- `workerB`, from the end of its work on. -/
def workerB (s : System) (woken : Option Thread) : Option System :=
  match s.b with
  | .lock => (s.mutex.lock threadB).map fun m => { s with b := .setDone, mutex := m }
  | .setDone => some { s with b := .signal, gWorkDone := true }
  | .signal => (s.mycv.signal woken).map fun c => { s with b := .unlock, mycv := c }
  | .unlock => some <| unlockThen s threadB fun m => { s with b := .exited, mutex := m }
  | _ => none

/-- A step of a process that is there. -/
def move (s : System) : Label → Option System
  | .main a => mainStep s a
  | .workerA => workerA s
  | .workerB woken => workerB s woken
  | .spurious t => (s.mycv.spurious t).map fun c => { s with mycv := c }

/-- **The step function of the process.** -/
def step (s : System) (l : Label) : Option System :=
  match s.main with
  | .exited _ => none
  | .undefined => none
  | _ => move s l

/-! ### Who holds the mutex -/

/-- The thread A is between its lock and its unlock, and not in the wait. -/
def APc.holds : APc → Prop
  | .wait | .recheck | .unlock => True
  | _ => False

/-- The thread B is between its lock and its unlock. -/
def BPc.holds : BPc → Prop
  | .setDone | .signal | .unlock => True
  | _ => False

/-- The thread A has left its loop. -/
def APc.leftLoop : APc → Prop
  | .unlock | .exited => True
  | _ => False

/-- The thread B has set `gWorkDone`. -/
def BPc.hasSet : BPc → Prop
  | .signal | .unlock | .exited => True
  | _ => False

/-- The thread A has not been created. -/
def MainPc.beforeA : MainPc → Prop
  | .createA => True
  | _ => False

/-- The thread B has not been created. -/
def MainPc.beforeB : MainPc → Prop
  | .createA | .createAFatal | .createB => True
  | _ => False

/-- The thread A is in the wait, and no wake-up has been issued to it. -/
def System.Blocked (s : System) : Prop := s.a = .waiting ∧ threadA ∈ s.mycv.waiters

/-- **The invariant of every run.** -/
structure Ok (s : System) : Prop where
  ownerA : s.a.holds ↔ s.mutex.owner = some threadA
  ownerB : s.b.holds ↔ s.mutex.owner = some threadB
  /-- Only A waits, and only while it is in the wait. -/
  waiters : s.mycv.waiters = [] ∨ s.mycv.waiters = [threadA]
  waiting : s.mycv.waiters ≠ [] → s.a = .waiting
  done : s.gWorkDone = true ↔ s.b.hasSet
  left : s.a.leftLoop → s.b.hasSet
  uncreatedA : s.main.beforeA → s.a = .absent
  uncreatedB : s.main.beforeB → s.b = .absent

theorem ok_start : Ok System.start where
  ownerA := by simp [System.start, APc.holds, Mutex.free]
  ownerB := by simp [System.start, BPc.holds, Mutex.free]
  waiters := by simp [System.start, CondVar.init]
  waiting := by simp [System.start, CondVar.init]
  done := by simp [System.start, BPc.hasSet]
  left := by simp [System.start, APc.leftLoop]
  uncreatedA := fun _ => rfl
  uncreatedB := fun _ => rfl

section Steps

variable {s s' : System}

/-- The threads do not hold the mutex at the same time. -/
theorem Ok.exclusive (h : Ok s) (ha : s.a.holds) : ¬s.b.holds := by
  rw [h.ownerB, h.ownerA.mp ha]
  simp [threadA, threadB]

theorem unlockThen_of_owner {t : Thread} (h : s.mutex.owner = some t) (next : Mutex → System) :
    unlockThen s t next = next .free := by
  rw [unlockThen, Mutex.unlock_eq_some.mpr ⟨h, rfl⟩]

/-- What a signal, or a wake-up for no reason, leaves waiting. -/
theorem Ok.erase (h : Ok s) {t : Thread} (ht : t ∈ s.mycv.waiters) :
    s.mycv.waiters.erase t = [] := by
  rcases h.waiters with hnil | hone
  · rw [hnil] at ht
    cases ht
  · rw [hone] at ht ⊢
    obtain rfl := List.mem_singleton.mp ht
    rfl

/-- **A step of the thread A**: it never gives back a mutex it does not hold, and leaves
its loop only when it has seen that the work is done. -/
theorem Ok.workerA (h : Ok s) (hstep : workerA s = some s') : Ok s' := by
  have hexcl := h.exclusive
  obtain ⟨hownA, hownB, hlist, hwait, hdone, hleft, hunA, hunB⟩ := h
  unfold CvSimple.workerA at hstep
  cases ha : s.a <;> simp only [ha, reduceCtorEq] at hstep
  case lock =>
    obtain ⟨m, hm, rfl⟩ := Option.map_eq_some_iff.mp hstep
    obtain ⟨hnone, rfl⟩ := Mutex.lock_eq_some.mp hm
    refine ⟨?_, ?_, hlist, ?_, hdone, ?_, ?_, hunB⟩ <;>
      simp_all [APc.holds, APc.leftLoop, threadA, threadB]
  case wait =>
    have hown : s.mutex.owner = some threadA := hownA.mp (by simp [ha, APc.holds])
    rw [unlockThen_of_owner hown] at hstep
    obtain rfl := Option.some.inj hstep
    -- nobody else waits
    have hnil : s.mycv.waiters = [] := by
      by_contra hne
      rw [ha] at hwait
      cases hwait hne
    refine ⟨?_, ?_, ?_, fun _ => rfl, hdone, ?_, ?_, hunB⟩ <;>
      simp_all [APc.holds, APc.leftLoop, CondVar.wait, Mutex.free]
  case waiting =>
    split_ifs at hstep with hmem
    obtain ⟨m, hm, rfl⟩ := Option.map_eq_some_iff.mp hstep
    obtain ⟨hnone, rfl⟩ := Mutex.lock_eq_some.mp hm
    have hnil : s.mycv.waiters = [] := by
      rcases hlist with hnil | hone
      · exact hnil
      · exact absurd (hone ▸ List.mem_singleton_self threadA) hmem
    refine ⟨?_, ?_, hlist, ?_, hdone, ?_, ?_, hunB⟩ <;>
      simp_all [APc.holds, APc.leftLoop, threadA, threadB]
  case recheck =>
    obtain rfl := Option.some.inj hstep
    by_cases hset : s.gWorkDone = true
    · refine ⟨?_, hownB, hlist, ?_, hdone, ?_, ?_, hunB⟩ <;> simp_all [APc.holds, APc.leftLoop]
    · -- the work is not done, so A waits again
      refine ⟨?_, hownB, hlist, ?_, hdone, ?_, ?_, hunB⟩ <;> simp_all [APc.holds, APc.leftLoop]
  case unlock =>
    have hown : s.mutex.owner = some threadA := hownA.mp (by simp [ha, APc.holds])
    rw [unlockThen_of_owner hown] at hstep
    obtain rfl := Option.some.inj hstep
    refine ⟨?_, ?_, hlist, ?_, hdone, ?_, ?_, hunB⟩ <;>
      simp_all [APc.holds, APc.leftLoop, Mutex.free]

/-- **A step of the thread B.** -/
theorem Ok.workerB (h : Ok s) {woken : Option Thread} (hstep : workerB s woken = some s') :
    Ok s' := by
  have hexcl := h.exclusive
  have herase := @Ok.erase s h
  obtain ⟨hownA, hownB, hlist, hwait, hdone, hleft, hunA, hunB⟩ := h
  unfold CvSimple.workerB at hstep
  cases hb : s.b <;> simp only [hb, reduceCtorEq] at hstep
  case lock =>
    obtain ⟨m, hm, rfl⟩ := Option.map_eq_some_iff.mp hstep
    obtain ⟨hnone, rfl⟩ := Mutex.lock_eq_some.mp hm
    refine ⟨?_, ?_, hlist, hwait, ?_, ?_, hunA, ?_⟩ <;>
      simp_all [BPc.holds, BPc.hasSet, threadA, threadB]
  case setDone =>
    obtain rfl := Option.some.inj hstep
    refine ⟨hownA, ?_, hlist, hwait, ?_, ?_, hunA, ?_⟩ <;> simp_all [BPc.holds, BPc.hasSet]
  case signal =>
    obtain ⟨c, hc, rfl⟩ := Option.map_eq_some_iff.mp hstep
    have hnil : c.waiters = [] := by
      rcases CondVar.signal_cases hc with ⟨hnil, rfl⟩ | ⟨t, ht, heq⟩
      · exact hnil
      · exact heq.trans (herase ht)
    refine ⟨hownA, ?_, Or.inl hnil, fun hne => absurd hnil hne, ?_, ?_, hunA, ?_⟩ <;>
      simp_all [BPc.holds, BPc.hasSet]
  case unlock =>
    have hown : s.mutex.owner = some threadB := hownB.mp (by simp [hb, BPc.holds])
    rw [unlockThen_of_owner hown] at hstep
    obtain rfl := Option.some.inj hstep
    refine ⟨?_, ?_, hlist, hwait, ?_, ?_, hunA, ?_⟩ <;> simp_all [BPc.holds, BPc.hasSet, Mutex.free]

/-- **A step of the main thread** creates at most a thread that is not there. -/
theorem mainStep_cases (h : Ok s) {a : Answer} (hstep : mainStep s a = some s') :
    (∃ m, s' = { s with main := m } ∧ (m.beforeA → s.main.beforeA) ∧
      (m.beforeB → s.main.beforeB)) ∨
    (s.a = .absent ∧ s' = { s with main := .createB, a := .lock } ∧ s.main.beforeB) ∨
    (s.b = .absent ∧ s' = { s with main := .joinA, b := .lock }) := by
  unfold mainStep at hstep
  cases hm : s.main <;> simp only [hm] at hstep
  case createA =>
    obtain ⟨ok, -, rfl⟩ := Option.map_eq_some_iff.mp hstep
    cases ok
    · exact Or.inl ⟨_, rfl, False.elim, fun _ => trivial⟩
    · -- the thread A is created
      exact Or.inr (Or.inl ⟨h.uncreatedA (hm ▸ trivial), rfl, trivial⟩)
  case createAFatal =>
    rcases afterFatal_cases hstep with rfl | rfl
    · exact Or.inl ⟨_, rfl, False.elim, fun _ => trivial⟩
    · exact Or.inl ⟨_, rfl, False.elim, False.elim⟩
  case createB =>
    obtain ⟨ok, -, rfl⟩ := Option.map_eq_some_iff.mp hstep
    cases ok
    · exact Or.inl ⟨_, rfl, False.elim, False.elim⟩
    · exact Or.inr (Or.inr ⟨h.uncreatedB (hm ▸ trivial), rfl⟩)
  case createBFatal =>
    rcases afterFatal_cases hstep with rfl | rfl <;>
      exact Or.inl ⟨_, rfl, False.elim, False.elim⟩
  case joinA =>
    cases a <;> simp only [reduceCtorEq] at hstep
    cases ha : s.a <;> simp only [ha, Option.some.injEq, reduceCtorEq] at hstep <;>
      obtain rfl := hstep <;> exact Or.inl ⟨_, rfl, False.elim, False.elim⟩
  case joinB =>
    cases a <;> simp only [reduceCtorEq] at hstep
    cases hb : s.b <;> simp only [hb, Option.some.injEq, reduceCtorEq] at hstep <;>
      obtain rfl := hstep <;> exact Or.inl ⟨_, rfl, False.elim, False.elim⟩
  case exited => simp at hstep
  case undefined => simp at hstep

theorem Ok.mainStep (h : Ok s) {a : Answer} (hstep : mainStep s a = some s') : Ok s' := by
  have hmove := mainStep_cases h hstep
  obtain ⟨hownA, hownB, hlist, hwait, hdone, hleft, hunA, hunB⟩ := h
  rcases hmove with ⟨m, rfl, hA, hB⟩ | ⟨ha, rfl, hbefore⟩ | ⟨hb, rfl⟩
  · exact ⟨hownA, hownB, hlist, hwait, hdone, hleft, fun hm => hunA (hA hm),
      fun hm => hunB (hB hm)⟩
  · refine ⟨?_, hownB, hlist, ?_, hdone, ?_, False.elim, fun _ => hunB hbefore⟩ <;>
      simp_all [APc.holds, APc.leftLoop]
  · refine ⟨hownA, ?_, hlist, hwait, ?_, ?_, False.elim, False.elim⟩ <;>
      simp_all [BPc.holds, BPc.hasSet]

/-- A wake-up for no reason. -/
theorem Ok.spurious (h : Ok s) {t : Thread} {c : CondVar} (hc : s.mycv.spurious t = some c) :
    Ok { s with mycv := c } := by
  obtain ⟨ht, heq⟩ := CondVar.spurious_cases hc
  have hnil : c.waiters = [] := heq.trans (h.erase ht)
  exact ⟨h.ownerA, h.ownerB, Or.inl hnil, fun hne => absurd hnil hne, h.done, h.left,
    h.uncreatedA, h.uncreatedB⟩

/-- A step is a step of a thread, or of none, in a process that is there. -/
theorem step_cases {l : Label} (h : step s l = some s') :
    (∃ a, l = .main a ∧ mainStep s a = some s') ∨ (l = .workerA ∧ workerA s = some s') ∨
      (∃ woken, l = .workerB woken ∧ workerB s woken = some s') ∨
      ∃ t c, l = .spurious t ∧ s.mycv.spurious t = some c ∧ s' = { s with mycv := c } := by
  have hmove : move s l = some s' := by
    unfold CvSimple.step at h
    split at h
    · cases h
    · cases h
    · exact h
  cases l with
  | main a => exact Or.inl ⟨a, rfl, hmove⟩
  | workerA => exact Or.inr (Or.inl ⟨rfl, hmove⟩)
  | workerB woken => exact Or.inr (Or.inr (Or.inl ⟨woken, rfl, hmove⟩))
  | spurious t =>
    obtain ⟨c, hc, rfl⟩ := Option.map_eq_some_iff.mp hmove
    exact Or.inr (Or.inr (Or.inr ⟨t, c, rfl, hc, rfl⟩))

theorem Ok.step {l : Label} (h : Ok s) (hstep : step s l = some s') : Ok s' := by
  rcases step_cases hstep with ⟨a, -, hs⟩ | ⟨-, hs⟩ | ⟨woken, -, hs⟩ | ⟨t, c, -, hc, rfl⟩
  · exact h.mainStep hs
  · exact h.workerA hs
  · exact h.workerB hs
  · exact h.spurious hc

end Steps

/-! ### The order of the two locks -/

/-- The thread A has taken the mutex. -/
def APc.hasLocked : APc → Prop
  | .absent | .lock => False
  | _ => True

/-- The thread A has begun its first wait, and is not about to begin another one. -/
def APc.hasWaited : APc → Prop
  | .absent | .lock | .wait => False
  | _ => True

/-- The thread B has taken the mutex. -/
def BPc.hasLocked : BPc → Prop
  | .absent | .lock => False
  | _ => True

instance : DecidablePred APc.hasLocked := fun a => by
  cases a <;> unfold APc.hasLocked <;> infer_instance

/-- **A is first**: B does not take the mutex before A has taken it. -/
def AFirst (s : System) : Label → Prop
  | .workerB _ => s.b = .lock → s.a.hasLocked
  | _ => True

instance (s : System) : DecidablePred (AFirst s) := fun l => by
  cases l <;> unfold AFirst <;> infer_instance

/-- **The invariant of the runs in which A is first**: while B is at it or done, A is in
its wait or past it, and once B has signalled nobody is left waiting. -/
structure Ordered (s : System) : Prop where
  waited : s.b.hasLocked → s.a.hasWaited
  woken : s.b = .unlock ∨ s.b = .exited → s.mycv.waiters = []

section Order

variable {s s' : System}

theorem ordered_start : Ordered System.start where
  waited := False.elim
  woken := by simp [System.start]

theorem Ordered.workerA (h : Ordered s) (hok : Ok s) (hstep : workerA s = some s') :
    Ordered s' := by
  have hexcl := hok.exclusive
  have hdone := hok.done
  have hownA := hok.ownerA
  obtain ⟨hwaited, hwoken⟩ := h
  unfold CvSimple.workerA at hstep
  cases ha : s.a <;> simp only [ha, reduceCtorEq] at hstep
  case lock =>
    obtain ⟨m, -, rfl⟩ := Option.map_eq_some_iff.mp hstep
    refine ⟨fun hb => ?_, hwoken⟩
    simpa [ha, APc.hasWaited] using hwaited hb
  case wait =>
    rw [unlockThen_of_owner (hownA.mp (by simp [ha, APc.holds]))] at hstep
    obtain rfl := Option.some.inj hstep
    -- B has not taken the mutex, so it has not signalled
    have hnot : ¬s.b.hasLocked := fun hb => by simpa [ha, APc.hasWaited] using hwaited hb
    refine ⟨fun _ => trivial, ?_⟩
    rintro (hb | hb) <;> exact absurd (by rw [show s.b = _ from hb]; trivial) hnot
  case waiting =>
    split_ifs at hstep
    obtain ⟨m, -, rfl⟩ := Option.map_eq_some_iff.mp hstep
    exact ⟨fun _ => trivial, hwoken⟩
  case recheck =>
    obtain rfl := Option.some.inj hstep
    refine ⟨fun hb => ?_, hwoken⟩
    -- A looks with the mutex in its hands, so B has set `gWorkDone` if it has begun
    have hset : s.b.hasSet := by
      have hnot : ¬s.b.holds := hexcl (by rw [ha]; trivial)
      change s.b.hasLocked at hb
      cases hpc : s.b <;> simp_all [BPc.hasLocked, BPc.holds, BPc.hasSet]
    change (if s.gWorkDone = true then APc.unlock else APc.wait).hasWaited
    rw [if_pos (hdone.mpr hset)]
    trivial
  case unlock =>
    rw [unlockThen_of_owner (hownA.mp (by simp [ha, APc.holds]))] at hstep
    obtain rfl := Option.some.inj hstep
    exact ⟨fun _ => trivial, hwoken⟩

theorem Ordered.workerB (h : Ordered s) (hok : Ok s) {woken : Option Thread}
    (hfirst : AFirst s (.workerB woken)) (hstep : workerB s woken = some s') : Ordered s' := by
  have hownA := hok.ownerA
  have hownB := hok.ownerB
  have herase := @Ok.erase s hok
  obtain ⟨hwaited, hwoken⟩ := h
  unfold CvSimple.workerB at hstep
  cases hb : s.b <;> simp only [hb, reduceCtorEq] at hstep
  case lock =>
    obtain ⟨m, hm, rfl⟩ := Option.map_eq_some_iff.mp hstep
    obtain ⟨hnone, rfl⟩ := Mutex.lock_eq_some.mp hm
    refine ⟨fun _ => ?_, by simp⟩
    -- A has taken the mutex and does not hold it, so it is not before its wait
    have hlocked := hfirst hb
    change s.a.hasWaited
    cases ha : s.a <;> simp_all [APc.hasLocked, APc.hasWaited, APc.holds]
  case setDone =>
    obtain rfl := Option.some.inj hstep
    exact ⟨fun _ => hwaited (by rw [hb]; trivial), by simp⟩
  case signal =>
    obtain ⟨c, hc, rfl⟩ := Option.map_eq_some_iff.mp hstep
    refine ⟨fun _ => hwaited (by rw [hb]; trivial), fun _ => ?_⟩
    rcases CondVar.signal_cases hc with ⟨hnil, rfl⟩ | ⟨t, ht, heq⟩
    · exact hnil
    · exact heq.trans (herase ht)
  case unlock =>
    rw [unlockThen_of_owner (hownB.mp (by simp [hb, BPc.holds]))] at hstep
    obtain rfl := Option.some.inj hstep
    exact ⟨fun _ => hwaited (by rw [hb]; trivial), fun _ => hwoken (Or.inl hb)⟩

theorem Ordered.step {l : Label} (h : Ordered s) (hok : Ok s) (hfirst : AFirst s l)
    (hstep : step s l = some s') : Ordered s' := by
  rcases step_cases hstep with ⟨a, -, hs⟩ | ⟨-, hs⟩ | ⟨woken, rfl, hs⟩ | ⟨t, c, -, hc, rfl⟩
  · rcases mainStep_cases hok hs with ⟨m, rfl, -, -⟩ | ⟨ha, rfl, -⟩ | ⟨hb, rfl⟩
    · exact ⟨h.waited, h.woken⟩
    · refine ⟨fun hb => ?_, h.woken⟩
      simpa [ha, APc.hasWaited] using h.waited hb
    · exact ⟨False.elim, by simp⟩
  · exact h.workerA hok hs
  · exact h.workerB hok hfirst hs
  · refine ⟨h.waited, fun _ => ?_⟩
    obtain ⟨ht, heq⟩ := CondVar.spurious_cases hc
    exact heq.trans (hok.erase ht)

variable {ls : List Label}

theorem ok_run (h : run CvSimple.step System.start ls = some s) : Ok s :=
  run_invariant (fun _ _ _ hs => hs.step) ok_start h

theorem ordered_run (hfirst : Every CvSimple.step AFirst System.start ls)
    (h : run CvSimple.step System.start ls = some s) : Ordered s := by
  refine (hfirst.invariant (P := fun s => Ok s ∧ Ordered s) ?_ ⟨ok_start, ordered_start⟩ h).2
  rintro s l s' ⟨hok, hord⟩ hl hstep
  exact ⟨hok.step hstep, hord.step hok hl hstep⟩

/-- **No lost wake-up when A is first.** In every run A leaves its loop only after B has
set `gWorkDone`; and in a run in which B does not take the mutex before A has taken it,
B has not exited while A is blocked without a wake-up issued to it. -/
theorem no_lost_wakeup (h : run CvSimple.step System.start ls = some s) :
    (s.a.leftLoop → s.b.hasSet ∧ s.gWorkDone = true) ∧
      (Every CvSimple.step AFirst System.start ls → ¬(s.b = .exited ∧ s.Blocked)) := by
  have hok := ok_run h
  refine ⟨fun ha => ⟨hok.left ha, hok.done.mpr (hok.left ha)⟩, fun hfirst => ?_⟩
  rintro ⟨hb, -, hmem⟩
  rw [(ordered_run hfirst h).woken (Or.inr hb)] at hmem
  cases hmem

end Order

/-- A schedule in which A is first. -/
def aFirst : List Label :=
  [.main .ok, .main .ok, .workerA, .workerA, .workerB none, .workerB none,
    .workerB (some threadA), .workerB none, .workerA, .workerA, .workerA, .main .ok, .main .ok]

/-- The schedule `aFirst` brings the process to its end. -/
theorem no_lost_wakeup_at :
    ∃ s : System, run step System.start aFirst = some s ∧ s.main = .exited 0 ∧
      (s.b.hasSet ∧ s.gWorkDone = true) ∧ ¬(s.b = .exited ∧ s.Blocked) := by
  obtain ⟨s, hs, hmain, hleft⟩ : ∃ s : System, run step System.start aFirst = some s ∧
      s.main = .exited 0 ∧ s.a.leftLoop := ⟨_, rfl, rfl, trivial⟩
  exact ⟨s, hs, hmain, (no_lost_wakeup hs).1 hleft, (no_lost_wakeup hs).2 (by decide)⟩

/-- **B first**: the signal is dropped, B exits, and A blocks without a wake-up issued to
it; no thread makes a step any more. -/
theorem lost_wakeup :
    ∃ s : System, run step System.start
        [.main .ok, .main .ok, .workerB none, .workerB none, .workerB none, .workerB none,
          .workerA, .workerA] = some s ∧
      s.b = .exited ∧ s.Blocked ∧ s.gWorkDone = true ∧
      (∀ a, step s (.main a) = none) ∧ step s .workerA = none ∧
      ∀ woken, step s (.workerB woken) = none :=
  ⟨_, rfl, rfl, ⟨rfl, by decide⟩, rfl, fun a => by cases a <;> rfl, rfl, fun _ => rfl⟩

end CvSimple

end SystemProgramming
