import Mathlib.Logic.Function.Basic
import SystemProgramming.Calls
import SystemProgramming.HandleErr
import SystemProgramming.Mutex
import SystemProgramming.Runs

/-!
# Who has been cancelled

`mt_primes2` (`solutions_to_assgn/ch16/`): three workers put text in buffers, and `main`
joins them, writes the buffers to a file in the order of the threads, and frees them.
The third worker may be cancelled; then its cleanup handler frees what belongs to it, and
leaves its number in the global `gCanceledThread`, so that `main` does neither.

That global begins as 0, which is the number of the *first* worker. When nobody is
cancelled – because it was not asked for, or came too late – `main` passes over the first
worker, whose text is not written and whose memory is not freed.

The process is one step function (`SystemProgramming.MtPrimes.step`). A complete run does
what it should exactly if the third worker has been cancelled in it
(`SystemProgramming.MtPrimes.exact_iff_cancelled`).
-/

namespace SystemProgramming

open HandleErr Runs

namespace MtPrimes

variable {α : Type*}

/-- The number of workers. -/
def NTHREADS : ℕ := 3

/-! ### The process -/

/-- Where a worker stands. -/
inductive Pc where
  /-- It has not been created. -/
  | absent
  /-- About to install the cleanup handler. -/
  | push
  /-- About to sleep, as the third worker does. -/
  | sleep
  /-- About to generate its text. -/
  | gen
  /-- About to print how much it has generated. -/
  | report
  /-- About to print the length of the text. -/
  | length
  /-- About to remove the handler. -/
  | pop
  /-- It has exited. -/
  | exited
  /-- Cancelled, in the handler: about to lock the mutex. -/
  | lock
  /-- In the handler: about to set `gCanceledThread`. -/
  | set
  /-- In the handler: about to unlock the mutex. -/
  | unlock
  /-- In the handler: about to free the buffer and the structure of the worker. -/
  | free
  /-- It has been cancelled, and its handler has run. -/
  | cancelled
  deriving DecidableEq, Repr

/-- The worker may be cancelled in its next call. -/
def Pc.isCancellationPoint : Pc → Bool
  | .sleep | .report | .length => true
  | _ => false

/-- A worker: its control point, its `stToThread` structure and its buffer. -/
structure Worker (α : Type*) where
  pc : Pc
  /-- What `ToThread[i]` points to. -/
  st : Buf
  /-- What the `iobuf` of the structure points to. -/
  iobuf : Buf
  /-- The text in the buffer. -/
  text : List α

/-- Where the main thread stands. -/
inductive MainPc where
  /-- About to open the data file. -/
  | openFile
  /-- That failed; `FATAL` is about to allocate its message. -/
  | openFatal
  /-- About to allocate `ToThread[i]`. -/
  | calloc (i : ℕ)
  /-- That failed. -/
  | callocFatal (i : ℕ)
  /-- About to allocate the buffer of the worker `i`. -/
  | callocBuf (i : ℕ)
  /-- That failed. -/
  | callocBufFatal (i : ℕ)
  /-- About to create the worker `i`. -/
  | create (i : ℕ)
  /-- That failed. -/
  | createFatal (i : ℕ)
  /-- About to send the cancellation request. -/
  | cancel
  /-- That failed. -/
  | cancelFatal
  /-- About to join the worker `i`. -/
  | join (i : ℕ)
  /-- In `write_the_primes`, at the worker `i`. -/
  | write (i : ℕ)
  /-- In the last loop, at the worker `i`. -/
  | free (i : ℕ)
  /-- About to exit. -/
  | exit
  deriving DecidableEq, Repr

/-- How the process ends. -/
inductive End where
  /-- It has exited with this status. -/
  | exited (status : ℤ)
  /-- An assertion has failed. -/
  | aborted
  /-- It has done something whose effect is left open. -/
  | undefined
  deriving DecidableEq, Repr

/-- The state of the process. -/
structure System (α : Type*) where
  main : MainPc
  workers : ℕ → Worker α
  /-- The cancellation request has been sent to the worker 2. -/
  pending : Bool
  gCanceledThread : ℕ
  mylock : Mutex
  /-- What the data file has received. -/
  received : List α
  ended : Option End

/-- What a step is made by. -/
inductive Label where
  /-- The main thread, whose call is answered so. -/
  | main (a : Answer)
  /-- The worker with this number. -/
  | worker (t : ℕ)
  /-- The worker 2, which is cancelled in its call. -/
  | cancel
  deriving DecidableEq, Repr

/-- A write of the main thread writes all it is given. -/
def Label.Full : Label → Prop
  | .main a => a.FullTransfer
  | _ => True

instance : DecidablePred Label.Full := fun l => by
  cases l <;> unfold Label.Full <;> infer_instance

namespace System

/-- `main` is called. -/
def start : System α :=
  ⟨.openFile, fun _ => ⟨.absent, .null, .null, []⟩, false, 0, .free, [], none⟩

/-- The worker `t` is changed to `k`. -/
def set (s : System α) (t : ℕ) (k : Worker α) : System α :=
  { s with workers := Function.update s.workers t k }

/-- The worker `t` goes on to `p`. -/
def goto (s : System α) (t : ℕ) (p : Pc) : System α :=
  s.set t { s.workers t with pc := p }

/-- The process ends. -/
def finish (s : System α) (e : End) : System α := { s with ended := some e }

/-- A call of `FATAL`, with the state it leaves when it comes back. -/
def fatal (s : System α) (a : Answer) (back : System α) : Option (System α) :=
  afterFatal a (fun status => s.finish (.exited status)) back

end System

/-- The buffer and the structure of a worker are freed, in this order; the pointer to the
one is in the other. -/
def Worker.release (k : Worker α) : Option (Worker α) :=
  if k.st = .live then k.iobuf.free.map fun b => { k with st := .freed, iobuf := b } else none

/-- `worker`, with `cleanup_handler`: the worker `t`, whose text is going to be
`content`. -/
def worker (content : List α) (t : ℕ) (s : System α) : Option (System α) :=
  match (s.workers t).pc with
  | .push => some (s.goto t (if t = 2 then .sleep else .gen))
  | .sleep => some (s.goto t .gen)
  | .gen =>
    if (s.workers t).iobuf = .null then some (s.finish .aborted)
    else some (s.set t { s.workers t with pc := .report, text := content })
  | .report => some (s.goto t .length)
  | .length => some (s.goto t .pop)
  | .pop => some (s.goto t .exited)
  | .lock => (s.mylock.lock (.worker t)).map fun m => { s.goto t .set with mylock := m }
  | .set => some { s.goto t .unlock with gCanceledThread := t }
  | .unlock => (s.mylock.unlock (.worker t)).map fun m => { s.goto t .free with mylock := m }
  | .free =>
    match (s.workers t).release with
    | some k => some (s.set t { k with pc := .cancelled })
    | none => some (s.finish .undefined)
  | _ => none

/-- The cancellation of the worker 2 is acted upon. -/
def cancelWorker (s : System α) : Option (System α) :=
  if s.pending = true ∧ (s.workers 2).pc.isCancellationPoint = true then some (s.goto 2 .lock)
  else none

/-- The control point of `main` where `i` workers have been dealt with in the creation
loop. -/
def creation (cancels : Bool) (i : ℕ) : MainPc :=
  if i < NTHREADS then .calloc i else if cancels then .cancel else .join 0

/-- The control point of `main` where `i` workers have been joined. -/
def joining (i : ℕ) : MainPc := if i < NTHREADS then .join i else .write 0

/-- The control point of `main` where `i` workers have been dealt with in
`write_the_primes`. -/
def writing (i : ℕ) : MainPc := if i < NTHREADS then .write i else .free 0

/-- The control point of `main` where `i` workers have been dealt with in the last
loop. -/
def freeing (i : ℕ) : MainPc := if i < NTHREADS then .free i else .exit

/-- `main`; `cancels` is whether its argument asks for the cancellation. A write that
fails is only warned of. -/
def mainStep (cancels : Bool) (s : System α) (a : Answer) : Option (System α) :=
  match s.main, a with
  | .openFile, a => a.status.map fun ok =>
    { s with main := if ok then creation cancels 0 else .openFatal }
  | .openFatal, a => s.fatal a { s with main := creation cancels 0 }
  | .calloc i, a => a.status.map fun ok =>
    if ok then { s.set i { s.workers i with st := .live } with main := .callocBuf i }
    else { s with main := .callocFatal i }
  -- the next statement writes to `ToThread[i]`, which is NULL
  | .callocFatal _, a => s.fatal a (s.finish .undefined)
  | .callocBuf i, a => a.status.map fun ok =>
    if ok then { s.set i { s.workers i with iobuf := .live } with main := .create i }
    else { s with main := .callocBufFatal i }
  | .callocBufFatal i, a => s.fatal a { s with main := .create i }
  | .create i, a => a.status.map fun ok =>
    if ok then { s.goto i .push with main := creation cancels (i + 1) }
    else { s with main := .createFatal i }
  | .createFatal i, a => s.fatal a { s with main := creation cancels (i + 1) }
  | .cancel, a =>
    if (s.workers 2).pc = .absent then some (s.finish .undefined)
    else a.status.map fun ok =>
      if ok then { s with main := .join 0, pending := true } else { s with main := .cancelFatal }
  | .cancelFatal, a => s.fatal a { s with main := .join 0 }
  | .join i, .ok =>
    match (s.workers i).pc with
    | .exited => some { s with main := joining (i + 1) }
    | .cancelled => some { s with main := joining (i + 1) }
    | .absent => some (s.finish .undefined)
    | _ => none
  | .write i, a =>
    if i = s.gCanceledThread then
      if a = .ok then some { s with main := writing (i + 1) } else none
    else if (s.workers i).st ≠ .live then some (s.finish .undefined)
    else match (s.workers i).iobuf with
      | .null => some (s.finish .aborted)
      | .freed => some (s.finish .undefined)
      | .live => (a.transfer (s.workers i).text.length).map fun r =>
        { s with main := writing (i + 1),
                 received := s.received ++ (s.workers i).text.take (r.getD 0) }
  | .free i, .ok =>
    if i = s.gCanceledThread then some { s with main := freeing (i + 1) }
    else match (s.workers i).release with
      | some k => some { s.set i k with main := freeing (i + 1) }
      | none => some (s.finish .undefined)
  | .exit, .ok => some (s.finish (.exited 0))
  | _, _ => none

/-- **The step function of the process**, with the text that each worker puts in its
buffer. -/
def step (content : ℕ → List α) (cancels : Bool) (s : System α) (l : Label) :
    Option (System α) :=
  match s.ended with
  | some _ => none
  | none =>
    match l with
    | .main a => mainStep cancels s a
    | .worker t => worker (content t) t s
    | .cancel => cancelWorker s

/-! ### The invariant -/

/-- The worker has exited, or has been cancelled and its handler has run. -/
def Pc.ended : Pc → Prop
  | .exited | .cancelled => True
  | _ => False

/-- The cancellation of the worker has been acted upon. -/
def Pc.hit : Pc → Prop
  | .lock | .set | .unlock | .free | .cancelled => True
  | _ => False

/-- The handler of the worker has set `gCanceledThread`. -/
def Pc.hasSet : Pc → Prop
  | .unlock | .free | .cancelled => True
  | _ => False

instance : DecidablePred Pc.hasSet := fun p => by
  cases p <;> unfold Pc.hasSet <;> infer_instance

/-- **What belongs to a worker**, by its control point. Of a worker that has exited, the
main thread may have freed it all. -/
def WorkerOk (content : List α) (k : Worker α) : Prop :=
  match k.pc with
  | .absent => k.iobuf ≠ .freed
  | .report | .length | .pop => k.st = .live ∧ k.iobuf = .live ∧ k.text = content
  | .exited => (k.st = .live ∧ k.iobuf = .live ∧ k.text = content) ∨
      (k.st = .freed ∧ k.iobuf = .freed)
  | .cancelled => k.st = .freed ∧ k.iobuf ≠ .live
  | _ => k.st = .live ∧ k.iobuf ≠ .freed

/-- What the first `i` workers give to the file, all but the one that is passed over. -/
def written (content : ℕ → List α) (skipped i : ℕ) : List α :=
  ((List.range i).filter fun j => decide (j ≠ skipped)).flatMap content

/-- The main thread frees, or has freed, what the workers have left. -/
def MainPc.frees : MainPc → Prop
  | .free _ | .exit => True
  | _ => False

/-- The main thread has not begun to write. -/
def MainPc.early : MainPc → Prop
  | .write _ | .free _ | .exit => False
  | _ => True

/-- The workers that have exited and are not passed over are freed up to the worker
`i`. -/
def FreedTo (s : System α) (i : ℕ) : Prop :=
  ∀ j < NTHREADS, (s.workers j).pc = .exited →
    ((s.workers j).st = .freed ↔ j < i ∧ j ≠ s.gCanceledThread)

/-- **What the main thread has done**, by its control point. -/
def Phase (content : ℕ → List α) (s : System α) : MainPc → Prop
  | .openFile | .openFatal => ∀ j, (s.workers j).pc = .absent
  | .calloc i | .callocFatal i => i < NTHREADS ∧ ∀ j, i ≤ j → (s.workers j).pc = .absent
  | .callocBuf i | .callocBufFatal i | .create i | .createFatal i =>
    i < NTHREADS ∧ (∀ j, i ≤ j → (s.workers j).pc = .absent) ∧ (s.workers i).st = .live
  | .cancel | .cancelFatal => True
  | .join i => ∀ j < i, (s.workers j).pc.ended
  | .write i => (∀ j < NTHREADS, (s.workers j).pc.ended) ∧ i < NTHREADS ∧
      s.received = written content s.gCanceledThread i
  | .free i => (∀ j < NTHREADS, (s.workers j).pc.ended) ∧ i < NTHREADS ∧
      s.received = written content s.gCanceledThread NTHREADS ∧ FreedTo s i
  | .exit => (∀ j < NTHREADS, (s.workers j).pc.ended) ∧
      s.received = written content s.gCanceledThread NTHREADS ∧ FreedTo s NTHREADS

/-- **The invariant of every run.** -/
structure Ok (content : ℕ → List α) (s : System α) : Prop where
  worker : ∀ t, WorkerOk (content t) (s.workers t)
  /-- Only the worker 2 is cancelled. -/
  two : ∀ t, (s.workers t).pc.hit → t = 2
  /-- The global tells which worker has been cancelled, or that it is the first. -/
  global : s.gCanceledThread = if (s.workers 2).pc.hasSet then 2 else 0
  /-- Nothing of a worker that has exited is freed before the last loop. -/
  unfreed : ¬s.main.frees → ∀ t, (s.workers t).pc = .exited → (s.workers t).st = .live
  few : ∀ t, (s.workers t).pc ≠ .absent → t < NTHREADS
  early : s.main.early → s.received = []
  phase : Phase content s s.main

section Invariant

variable {content : ℕ → List α} {cancels : Bool} {s s' : System α} {t i : ℕ}

theorem ok_start (content : ℕ → List α) : Ok content (System.start : System α) where
  worker _ := by simp [System.start, WorkerOk]
  two _ h := h.elim
  global := rfl
  unfreed _ _ h := by simp [System.start] at h
  few _ h := absurd rfl h
  early _ := rfl
  phase _ := rfl

/-- **A worker moves**: it was there and had not ended, and it is changed to `k`. -/
structure WorkerMove (content : List α) (s s' : System α) (t : ℕ) (k : Worker α) : Prop where
  begun : (s.workers t).pc ≠ .absent
  running : ¬(s.workers t).pc.ended
  workers : s'.workers = Function.update s.workers t k
  main : s'.main = s.main
  received : s'.received = s.received
  ok : WorkerOk content k
  here : k.pc ≠ .absent
  left : k.pc = .exited → k.st = .live
  hasSet : (s.workers t).pc.hasSet → k.pc.hasSet
  global : s'.gCanceledThread =
    if k.pc.hasSet ∧ ¬(s.workers t).pc.hasSet then t else s.gCanceledThread

/-- A worker that goes on to another control point. -/
theorem workerMove_goto {c : List α} {p : Pc} {m : Mutex} (hbegun : (s.workers t).pc ≠ .absent)
    (hrun : ¬(s.workers t).pc.ended) (hok : WorkerOk c { s.workers t with pc := p })
    (hp : p ≠ .absent) (hleft : p = .exited → (s.workers t).st = .live)
    (hset : p.hasSet ↔ (s.workers t).pc.hasSet) :
    WorkerMove c s { s.goto t p with mylock := m } t { s.workers t with pc := p } where
  begun := hbegun
  running := hrun
  workers := rfl
  main := rfl
  received := rfl
  ok := hok
  here := hp
  left := hleft
  hasSet := hset.mpr
  global := by
    rw [if_neg fun h => h.2 (hset.mp h.1)]
    rfl

/-- A worker that brings the process to its end. -/
theorem workerMove_finish {c : List α} {e : End} (hbegun : (s.workers t).pc ≠ .absent)
    (hrun : ¬(s.workers t).pc.ended) (hok : WorkerOk c (s.workers t)) :
    WorkerMove c s (s.finish e) t (s.workers t) where
  begun := hbegun
  running := hrun
  workers := (Function.update_eq_self t s.workers).symm
  main := rfl
  received := rfl
  ok := hok
  here := hbegun
  left h := absurd (by rw [h]; trivial) hrun
  hasSet := id
  global := by
    rw [if_neg fun h => h.2 h.1]
    rfl

/-- What `release` leaves. -/
theorem Worker.release_cases {k k' : Worker α} (h : k.release = some k') :
    k.st = .live ∧ ∃ b, k.iobuf.free = some b ∧ k' = { k with st := .freed, iobuf := b } := by
  rw [Worker.release] at h
  split_ifs at h with hst
  obtain ⟨b, hb, rfl⟩ := Option.map_eq_some_iff.mp h
  exact ⟨hst, b, hb, rfl⟩

/-- **A step of a worker.** -/
theorem worker_cases {c : List α} (hok : WorkerOk c (s.workers t))
    (h : worker c t s = some s') :
    ∃ k, WorkerMove c s s' t k ∧ (k.pc.hit ↔ (s.workers t).pc.hit) := by
  unfold MtPrimes.worker at h
  have hall := hok
  cases hpc : (s.workers t).pc <;> simp only [hpc, reduceCtorEq] at h <;>
    simp only [WorkerOk, hpc] at hok
  case push =>
    obtain rfl := Option.some.inj h
    refine ⟨_, workerMove_goto (by simp [hpc]) (by simp [hpc, Pc.ended]) ?_ ?_ ?_ ?_, ?_⟩ <;>
      split_ifs <;> simp_all [WorkerOk, Pc.hasSet, Pc.hit]
  case sleep =>
    obtain rfl := Option.some.inj h
    refine ⟨_, workerMove_goto (by simp [hpc]) (by simp [hpc, Pc.ended]) ?_ ?_ ?_ ?_, ?_⟩ <;>
      simp_all [WorkerOk, Pc.hasSet, Pc.hit]
  case gen =>
    split_ifs at h with hnull
    · obtain rfl := Option.some.inj h
      exact ⟨_, workerMove_finish (by simp [hpc]) (by simp [hpc, Pc.ended]) hall, by rw [hpc]⟩
    · obtain rfl := Option.some.inj h
      -- the buffer is there, and gets the text
      have hlive : (s.workers t).iobuf = .live := by
        cases hb : (s.workers t).iobuf
        · exact absurd hb hnull
        · rfl
        · exact absurd hb hok.2
      refine ⟨{ s.workers t with pc := .report, text := c },
        ⟨by simp [hpc], by simp [hpc, Pc.ended], rfl, rfl, rfl, ⟨hok.1, hlive, rfl⟩, by simp,
          by simp, by simp [hpc, Pc.hasSet], ?_⟩, by simp [Pc.hit]⟩
      rw [if_neg (by simp [Pc.hasSet])]
      rfl
  case report =>
    obtain rfl := Option.some.inj h
    refine ⟨_, workerMove_goto (by simp [hpc]) (by simp [hpc, Pc.ended]) ?_ ?_ ?_ ?_, ?_⟩ <;>
      simp_all [WorkerOk, Pc.hasSet, Pc.hit]
  case length =>
    obtain rfl := Option.some.inj h
    refine ⟨_, workerMove_goto (by simp [hpc]) (by simp [hpc, Pc.ended]) ?_ ?_ ?_ ?_, ?_⟩ <;>
      simp_all [WorkerOk, Pc.hasSet, Pc.hit]
  case pop =>
    obtain rfl := Option.some.inj h
    refine ⟨_, workerMove_goto (by simp [hpc]) (by simp [hpc, Pc.ended]) ?_ ?_ ?_ ?_, ?_⟩ <;>
      simp_all [WorkerOk, Pc.hasSet, Pc.hit]
  case lock =>
    obtain ⟨m, -, rfl⟩ := Option.map_eq_some_iff.mp h
    refine ⟨_, workerMove_goto (by simp [hpc]) (by simp [hpc, Pc.ended]) ?_ ?_ ?_ ?_, ?_⟩ <;>
      simp_all [WorkerOk, Pc.hasSet, Pc.hit]
  case set =>
    obtain rfl := Option.some.inj h
    refine ⟨{ s.workers t with pc := .unlock },
      ⟨by simp [hpc], by simp [hpc, Pc.ended], rfl, rfl, rfl, hok, by simp, by simp,
        by simp [hpc, Pc.hasSet], ?_⟩, by simp [Pc.hit]⟩
    rw [if_pos ⟨trivial, by simp [hpc, Pc.hasSet]⟩]
  case unlock =>
    obtain ⟨m, -, rfl⟩ := Option.map_eq_some_iff.mp h
    refine ⟨_, workerMove_goto (by simp [hpc]) (by simp [hpc, Pc.ended]) ?_ ?_ ?_ ?_, ?_⟩ <;>
      simp_all [WorkerOk, Pc.hasSet, Pc.hit]
  case free =>
    cases hrel : (s.workers t).release with
    | none =>
      rw [hrel] at h
      obtain rfl := Option.some.inj h
      exact ⟨_, workerMove_finish (by simp [hpc]) (by simp [hpc, Pc.ended]) hall, by rw [hpc]⟩
    | some k =>
      rw [hrel] at h
      obtain rfl := Option.some.inj h
      obtain ⟨-, b, hb, rfl⟩ := Worker.release_cases hrel
      refine ⟨_, ⟨by simp [hpc], by simp [hpc, Pc.ended], rfl, rfl, rfl,
        ⟨rfl, Buf.ne_live_of_free hb⟩, by simp, by simp, by simp [hpc, Pc.hasSet], ?_⟩,
        by simp [Pc.hit]⟩
      rw [if_neg (by simp [hpc, Pc.hasSet])]
      rfl

/-- A worker that moves has not ended, so the main thread is not past its join. -/
theorem Phase.workerMove {c : List α} {k : Worker α} {m : MainPc} (h : Phase content s m)
    (hm : WorkerMove c s s' t k) (ht : t < NTHREADS) : Phase content s' m := by
  have hother : ∀ j, (s.workers j).pc = .absent ∨ (s.workers j).pc.ended →
      s'.workers j = s.workers j := by
    intro j hj
    have hne : j ≠ t := by
      rintro rfl
      exact hj.elim hm.begun hm.running
    rw [hm.workers, Function.update_of_ne hne]
  have habs : ∀ j, (s.workers j).pc = .absent → (s'.workers j).pc = .absent := by
    intro j hj
    rwa [hother j (Or.inl hj)]
  have hend : ∀ j, (s.workers j).pc.ended → (s'.workers j).pc.ended := by
    intro j hj
    rwa [hother j (Or.inr hj)]
  -- when all have ended, none moves
  have hlast : ∀ {P : Prop}, (∀ j < NTHREADS, (s.workers j).pc.ended) → P :=
    fun hall => absurd (hall t ht) hm.running
  cases m
  case openFile => exact fun j => habs j (h j)
  case openFatal => exact fun j => habs j (h j)
  case calloc i => exact ⟨h.1, fun j hj => habs j (h.2 j hj)⟩
  case callocFatal i => exact ⟨h.1, fun j hj => habs j (h.2 j hj)⟩
  case cancel => trivial
  case cancelFatal => trivial
  case join i => exact fun j hj => hend j (h j hj)
  case write i => exact hlast h.1
  case free i => exact hlast h.1
  case exit => exact hlast h.1
  all_goals
    refine ⟨h.1, fun j hj => habs j (h.2.1 j hj), ?_⟩
    rw [hother _ (Or.inl (h.2.1 _ le_rfl))]
    exact h.2.2

theorem Pc.hit_of_hasSet {p : Pc} (h : p.hasSet) : p.hit := by
  cases p <;> first | exact h | trivial

/-- **A move of a worker keeps the invariant**, when only the worker 2 is cancelled. -/
theorem Ok.workerMove (h : Ok content s) {k : Worker α} (hm : WorkerMove (content t) s s' t k)
    (htwo : k.pc.hit → t = 2) : Ok content s' := by
  constructor
  case worker =>
    rw [hm.workers]
    exact forall_update (P := fun j (k : Worker α) => WorkerOk (content j) k) h.worker hm.ok
  case two =>
    rw [hm.workers]
    exact forall_update (P := fun j (k : Worker α) => k.pc.hit → j = 2) h.two htwo
  case global =>
    rw [hm.global, h.global, hm.workers]
    rcases eq_or_ne t 2 with rfl | hne
    · have hmono := hm.hasSet
      rw [Function.update_self]
      by_cases hk : k.pc.hasSet <;> by_cases hold : (s.workers 2).pc.hasSet <;> simp_all
    · -- another worker never sets the global
      have hnot : ¬k.pc.hasSet := fun hk => hne (htwo (Pc.hit_of_hasSet hk))
      rw [if_neg fun hk => hnot hk.1, Function.update_of_ne hne.symm]
  case unfreed =>
    rw [hm.main, hm.workers]
    intro hfrees
    exact forall_update (P := fun _ (k : Worker α) => k.pc = .exited → k.st = .live)
      (h.unfreed hfrees) hm.left
  case few =>
    rw [hm.workers]
    exact forall_update (P := fun j (k : Worker α) => k.pc ≠ .absent → j < NTHREADS) h.few
      fun _ => h.few t hm.begun
  case early =>
    rw [hm.main, hm.received]
    exact h.early
  case phase =>
    rw [hm.main]
    exact h.phase.workerMove hm (h.few t hm.begun)

/-- **The cancellation of the worker 2.** -/
theorem Ok.cancelWorker (h : Ok content s) (hstep : cancelWorker s = some s') :
    Ok content s' ∧ (s'.workers 2).pc.hit := by
  rw [MtPrimes.cancelWorker] at hstep
  split_ifs at hstep with hc
  obtain rfl := Option.some.inj hstep
  have hok := h.worker 2
  have hmove : WorkerMove (content 2) s (s.goto 2 .lock) 2 { s.workers 2 with pc := .lock } := by
    cases hpc : (s.workers 2).pc <;> simp only [hpc, Pc.isCancellationPoint, and_false,
      Bool.false_eq_true] at hc <;> simp only [WorkerOk, hpc] at hok
    all_goals
      refine workerMove_goto (m := s.mylock) ?_ ?_ ?_ ?_ ?_ ?_ <;>
        simp_all [WorkerOk, Pc.hasSet, Pc.ended]
  refine ⟨h.workerMove hmove fun _ => rfl, ?_⟩
  rw [hmove.workers, Function.update_self]
  trivial

/-! ### The main thread -/

theorem Ok.finish (h : Ok content s) (e : End) : Ok content (s.finish e) :=
  ⟨h.worker, h.two, h.global, h.unfreed, h.few, h.early, h.phase⟩

/-- The main thread goes on, before its last loop. -/
theorem Ok.goto (h : Ok content s) {m : MainPc} (hfrees : ¬s.main.frees)
    (hearly : m.early → s.main.early) (hphase : Phase content s m) :
    Ok content { s with main := m } :=
  ⟨h.worker, h.two, h.global, fun _ => h.unfreed hfrees, h.few, fun hm => h.early (hearly hm),
    hphase⟩

theorem phase_creation (h : ∀ j, i ≤ j → (s.workers j).pc = .absent) :
    Phase content s (creation cancels i) := by
  rw [creation]
  split_ifs with hi
  · exact ⟨hi, h⟩
  · trivial
  · exact fun j hj => absurd hj (Nat.not_lt_zero j)

/-- Something is done for a worker that does not run yet. -/
theorem Ok.set (h : Ok content s) {k : Worker α} {m : MainPc} (hi : i < NTHREADS)
    (habs : (s.workers i).pc = .absent) (hpc : k.pc = .absent ∨ k.pc = .push)
    (hk : WorkerOk (content i) k) (hfrees : ¬s.main.frees) (hearly : m.early → s.main.early)
    (hphase : Phase content { s.set i k with main := m } m) :
    Ok content { s.set i k with main := m } := by
  have hnew : ¬k.pc.hit ∧ ¬k.pc.hasSet ∧ k.pc ≠ .exited := by
    rcases hpc with hpc | hpc <;> simp [hpc, Pc.hit, Pc.hasSet]
  constructor
  case worker =>
    exact forall_update (P := fun j (k : Worker α) => WorkerOk (content j) k) h.worker hk
  case two =>
    exact forall_update (P := fun j (k : Worker α) => k.pc.hit → j = 2) h.two
      fun hh => absurd hh hnew.1
  case global =>
    change s.gCanceledThread = if (Function.update s.workers i k 2).pc.hasSet then 2 else 0
    rw [h.global]
    rcases eq_or_ne 2 i with rfl | hne
    · rw [Function.update_self, habs, if_neg hnew.2.1]
      rfl
    · rw [Function.update_of_ne hne]
  case unfreed =>
    intro _
    exact forall_update (P := fun _ (k : Worker α) => k.pc = .exited → k.st = .live)
      (h.unfreed hfrees) fun hh => absurd hh hnew.2.2
  case few =>
    exact forall_update (P := fun j (k : Worker α) => k.pc ≠ .absent → j < NTHREADS) h.few
      fun _ => hi
  case early => exact fun hm => h.early (hearly hm)
  case phase => exact hphase

theorem written_succ (content : ℕ → List α) (skipped i : ℕ) :
    written content skipped (i + 1) =
      written content skipped i ++ if i = skipped then [] else content i := by
  rw [written, List.range_succ, List.filter_append, List.flatMap_append]
  split_ifs with h <;> simp [written, h]

/-- A step of the main thread that leaves the workers where they are. -/
def Keeps (content : ℕ → List α) (s s' : System α) : Prop :=
  Ok content s' ∧ ∀ t, (s'.workers t).pc.hit ↔ (s.workers t).pc.hit

theorem Ok.keeps_goto (h : Ok content s) {m : MainPc} (hfrees : ¬s.main.frees)
    (hearly : m.early → s.main.early) (hphase : Phase content s m) :
    Keeps content s { s with main := m } := ⟨h.goto hfrees hearly hphase, fun _ => Iff.rfl⟩

theorem Ok.keeps_finish (h : Ok content s) (e : End) : Keeps content s (s.finish e) :=
  ⟨h.finish e, fun _ => Iff.rfl⟩

theorem Ok.keeps_fatal (h : Ok content s) {a : Answer} {back : System α}
    (hback : Keeps content s back) (hstep : s.fatal a back = some s') : Keeps content s s' := by
  rcases afterFatal_cases hstep with rfl | rfl
  · exact hback
  · exact h.keeps_finish _

/-- The worker `i`, which does not run yet, is given memory or is started. -/
theorem Ok.keeps_set (h : Ok content s) {k : Worker α} {m : MainPc} (hi : i < NTHREADS)
    (habs : (s.workers i).pc = .absent) (hpc : k.pc = .absent ∨ k.pc = .push)
    (hk : WorkerOk (content i) k) (hfrees : ¬s.main.frees) (hearly : m.early → s.main.early)
    (hphase : Phase content { s.set i k with main := m } m) :
    Keeps content s { s.set i k with main := m } := by
  refine ⟨h.set hi habs hpc hk hfrees hearly hphase, ?_⟩
  refine forall_update (P := fun j (k : Worker α) => k.pc.hit ↔ (s.workers j).pc.hit)
    (fun _ => Iff.rfl) ?_
  rw [habs]
  rcases hpc with hpc | hpc <;> simp [hpc, Pc.hit]

/-- The workers from `i` on are not created by giving one of them memory. -/
theorem absent_update {k : Worker α} (habs : ∀ j, i ≤ j → (s.workers j).pc = .absent)
    (hk : k.pc = .absent) : ∀ j, i ≤ j → (Function.update s.workers i k j).pc = .absent :=
  forall_update (P := fun j (k : Worker α) => i ≤ j → k.pc = .absent) habs fun _ => hk

/-- **The creation of the workers**, and the cancellation request. -/
theorem Ok.setUp (h : Ok content s) {a : Answer} (hmain : s.main.early)
    (hjoin : ∀ i, s.main ≠ .join i) (hstep : mainStep cancels s a = some s') :
    Keeps content s s' := by
  have hfrees : ¬s.main.frees := by
    cases hm : s.main <;> simp_all [MainPc.frees, MainPc.early]
  have hphase := h.phase
  unfold MtPrimes.mainStep at hstep
  cases hm : s.main <;> simp only [hm] at hstep hphase
  case openFile =>
    obtain ⟨ok, -, rfl⟩ := Option.map_eq_some_iff.mp hstep
    cases ok
    · exact h.keeps_goto hfrees (fun _ => hmain) hphase
    · change Keeps content s { s with main := creation cancels 0 }
      exact h.keeps_goto hfrees (fun _ => hmain) (phase_creation fun j _ => hphase j)
  case openFatal =>
    exact h.keeps_fatal (h.keeps_goto hfrees (fun _ => hmain)
      (phase_creation fun j _ => hphase j)) hstep
  case calloc i =>
    obtain ⟨hi, habs⟩ := hphase
    obtain ⟨ok, -, rfl⟩ := Option.map_eq_some_iff.mp hstep
    cases ok
    · exact h.keeps_goto hfrees (fun _ => hmain) ⟨hi, habs⟩
    · have hw := h.worker i
      rw [WorkerOk, habs i le_rfl] at hw
      -- the worker gets its structure; its buffer is left as it is
      refine h.keeps_set hi (habs i le_rfl) (Or.inl (habs i le_rfl)) ?_ hfrees (fun _ => hmain) ?_
      · rw [WorkerOk]
        simp only [habs i le_rfl]
        exact hw
      · refine ⟨hi, absent_update habs (habs i le_rfl), ?_⟩
        change (Function.update s.workers i _ i).st = .live
        rw [Function.update_self]
  case callocFatal i => exact h.keeps_fatal (h.keeps_finish _) hstep
  case callocBuf i =>
    obtain ⟨hi, habs, hst⟩ := hphase
    obtain ⟨ok, -, rfl⟩ := Option.map_eq_some_iff.mp hstep
    cases ok
    · exact h.keeps_goto hfrees (fun _ => hmain) ⟨hi, habs, hst⟩
    · refine h.keeps_set hi (habs i le_rfl) (Or.inl (habs i le_rfl)) ?_ hfrees (fun _ => hmain) ?_
      · rw [WorkerOk]
        simp [habs i le_rfl]
      · refine ⟨hi, absent_update habs (habs i le_rfl), ?_⟩
        change (Function.update s.workers i _ i).st = .live
        rw [Function.update_self]
        exact hst
  case callocBufFatal i =>
    refine h.keeps_fatal (h.keeps_goto hfrees (fun _ => hmain) ?_) hstep
    exact hphase
  case create i =>
    obtain ⟨hi, habs, hst⟩ := hphase
    obtain ⟨ok, -, rfl⟩ := Option.map_eq_some_iff.mp hstep
    cases ok
    · exact h.keeps_goto hfrees (fun _ => hmain) ⟨hi, habs, hst⟩
    · have hw := h.worker i
      rw [WorkerOk, habs i le_rfl] at hw
      refine h.keeps_set hi (habs i le_rfl) (Or.inr rfl) ⟨hst, hw⟩ hfrees (fun _ => hmain) ?_
      refine phase_creation fun j hj => ?_
      change (Function.update s.workers i _ j).pc = .absent
      rw [Function.update_of_ne (by omega)]
      exact habs j (by omega)
  case createFatal i =>
    obtain ⟨-, habs, -⟩ := hphase
    refine h.keeps_fatal (h.keeps_goto hfrees (fun _ => hmain) ?_) hstep
    exact phase_creation fun j hj => habs j (by omega)
  case cancel =>
    split_ifs at hstep
    · obtain rfl := Option.some.inj hstep
      exact h.keeps_finish _
    · obtain ⟨ok, -, rfl⟩ := Option.map_eq_some_iff.mp hstep
      cases ok
      · exact h.keeps_goto hfrees (fun _ => hmain) trivial
      · have hjoined := h.goto (m := .join 0) hfrees (fun _ => hmain)
          fun j hj => absurd hj (Nat.not_lt_zero j)
        exact ⟨⟨hjoined.worker, hjoined.two, hjoined.global, hjoined.unfreed, hjoined.few,
          hjoined.early, hjoined.phase⟩, fun _ => Iff.rfl⟩
  case cancelFatal =>
    refine h.keeps_fatal (h.keeps_goto hfrees (fun _ => hmain) ?_) hstep
    exact fun j hj => absurd hj (Nat.not_lt_zero j)
  case join i => exact absurd hm (hjoin i)
  all_goals
    rw [hm] at hmain
    exact hmain.elim

/-- **A join**: the next worker has ended. -/
theorem Ok.join (h : Ok content s) {a : Answer} (hm : s.main = .join i)
    (hstep : mainStep cancels s a = some s') : Keeps content s s' := by
  have hfrees : ¬s.main.frees := by
    rw [hm]
    exact id
  have hearly : s.main.early := by
    rw [hm]
    trivial
  have hphase := h.phase
  rw [hm] at hphase
  have hnext : (s.workers i).pc.ended → Keeps content s { s with main := joining (i + 1) } := by
    intro hend
    have hall : ∀ j < i + 1, (s.workers j).pc.ended := by
      intro j hj
      rcases Nat.lt_succ_iff_lt_or_eq.mp hj with hlt | rfl
      · exact hphase j hlt
      · exact hend
    refine h.keeps_goto hfrees (fun _ => hearly) ?_
    rw [joining]
    split_ifs with hlt
    · exact hall
    · -- the last worker has been joined, and nothing is written yet
      refine ⟨fun j hj => hall j (by omega), by decide, ?_⟩
      rw [h.early hearly]
      rfl
  unfold MtPrimes.mainStep at hstep
  simp only [hm] at hstep
  cases a <;> simp only [reduceCtorEq] at hstep
  cases hpc : (s.workers i).pc <;> simp only [hpc, Option.some.injEq, reduceCtorEq] at hstep
  case absent =>
    obtain rfl := hstep
    exact h.keeps_finish _
  case exited =>
    obtain rfl := hstep
    exact hnext (by rw [hpc]; trivial)
  case cancelled =>
    obtain rfl := hstep
    exact hnext (by rw [hpc]; trivial)

/-- **A write**: the text of the next worker is appended, unless it is passed over. -/
theorem Ok.write (h : Ok content s) {a : Answer} (hm : s.main = .write i) (ha : a.FullTransfer)
    (hstep : mainStep cancels s a = some s') : Keeps content s s' := by
  have hfrees : ¬s.main.frees := by
    rw [hm]
    exact id
  have hphase := h.phase
  rw [hm] at hphase
  obtain ⟨hall, hi, hrec⟩ := hphase
  -- what is left to show once the text of the worker has been dealt with
  have hnext : ∀ d, d = (if i = s.gCanceledThread then [] else content i) →
      Keeps content s { s with main := writing (i + 1), received := s.received ++ d } := by
    intro d hd
    have hrec' : s.received ++ d = written content s.gCanceledThread (i + 1) := by
      rw [written_succ, hrec, hd]
    refine ⟨⟨h.worker, h.two, h.global, fun _ => h.unfreed hfrees, h.few, ?_, ?_⟩, fun _ => Iff.rfl⟩
    · change (writing (i + 1)).early → _
      rw [writing]
      split_ifs <;> exact False.elim
    · change Phase content _ (writing (i + 1))
      rw [writing]
      split_ifs with hlt
      · exact ⟨hall, hlt, hrec'⟩
      · have hlast : i + 1 = NTHREADS := by omega
        rw [hlast] at hrec'
        refine ⟨hall, by decide, hrec', fun j _ hexited => ?_⟩
        have hlive : (s.workers j).st = .live := h.unfreed hfrees j hexited
        simp [hlive]
  unfold MtPrimes.mainStep at hstep
  simp only [hm] at hstep
  split_ifs at hstep with hskip hok hst
  · obtain rfl := Option.some.inj hstep
    have hkeep := hnext [] (by rw [if_pos hskip])
    rwa [List.append_nil] at hkeep
  · obtain rfl := Option.some.inj hstep
    exact h.keeps_finish _
  · -- the worker has exited, for what belongs to it is there
    have hexited : (s.workers i).text = content i := by
      have hw := h.worker i
      have hend := hall i hi
      cases hpc : (s.workers i).pc <;> rw [hpc] at hend <;> simp only [Pc.ended] at hend <;>
        simp only [WorkerOk, hpc] at hw <;> simp_all
    cases hb : (s.workers i).iobuf <;> simp only [hb] at hstep
    case null =>
      obtain rfl := Option.some.inj hstep
      exact h.keeps_finish _
    case freed =>
      obtain rfl := Option.some.inj hstep
      exact h.keeps_finish _
    case live =>
      obtain ⟨r, hr, rfl⟩ := Option.map_eq_some_iff.mp hstep
      refine hnext _ ?_
      rw [if_neg hskip]
      rcases Answer.transfer_cases hr with ⟨rfl, rfl⟩ | ⟨k, rfl, -⟩ | ⟨rfl, -⟩
      · rw [Option.getD_some, List.take_length, hexited]
      · exact ha.elim
      · exact ha.elim

/-- **The last loop**: what the next worker has left is freed, unless it is passed
over. -/
theorem Ok.free (h : Ok content s) {a : Answer} (hm : s.main = .free i)
    (hstep : mainStep cancels s a = some s') : Keeps content s s' := by
  have hphase := h.phase
  rw [hm] at hphase
  obtain ⟨hall, hi, hrec, hfreed⟩ := hphase
  have hnext : ∀ {x : System α}, (∀ j < NTHREADS, (x.workers j).pc.ended) →
      x.received = written content x.gCanceledThread NTHREADS → FreedTo x (i + 1) →
      Phase content x (freeing (i + 1)) := by
    intro x hx hrecx hfx
    rw [freeing]
    split_ifs with hlt
    · exact ⟨hx, hlt, hrecx, hfx⟩
    · have hlast : i + 1 = NTHREADS := by omega
      exact ⟨hx, hrecx, hlast ▸ hfx⟩
  have hmain : (freeing (i + 1)).frees ∧ ¬(freeing (i + 1)).early := by
    rw [freeing]
    split_ifs <;> exact ⟨trivial, id⟩
  unfold MtPrimes.mainStep at hstep
  simp only [hm] at hstep
  cases a <;> simp only [reduceCtorEq] at hstep
  split_ifs at hstep with hskip
  · obtain rfl := Option.some.inj hstep
    refine ⟨⟨h.worker, h.two, h.global, fun hf => absurd hmain.1 hf, h.few,
      fun he => absurd he hmain.2, hnext hall hrec fun j hj hexited => ?_⟩, fun _ => Iff.rfl⟩
    change (s.workers j).st = .freed ↔ j < i + 1 ∧ j ≠ s.gCanceledThread
    rw [hfreed j hj hexited]
    omega
  · cases hrel : (s.workers i).release with
    | none =>
      rw [hrel] at hstep
      obtain rfl := Option.some.inj hstep
      exact h.keeps_finish _
    | some k =>
      rw [hrel] at hstep
      obtain rfl := Option.some.inj hstep
      obtain ⟨hst, b, hb, rfl⟩ := Worker.release_cases hrel
      -- the worker has exited, for its structure is there
      have hw := h.worker i
      have hend := hall i hi
      have hexited : (s.workers i).pc = .exited ∧ (s.workers i).iobuf = .live := by
        cases hpc : (s.workers i).pc <;> rw [hpc] at hend <;> simp only [Pc.ended] at hend <;>
          simp only [WorkerOk, hpc] at hw <;> simp_all
      rw [hexited.2] at hb
      obtain rfl : Buf.freed = b := Option.some.inj hb
      have hpc : ∀ j, (Function.update s.workers i
          { s.workers i with st := .freed, iobuf := .freed } j).pc = (s.workers j).pc :=
        forall_update (P := fun j (k : Worker α) => k.pc = (s.workers j).pc) (fun _ => rfl) rfl
      refine ⟨⟨?_, fun j hj => h.two j ((hpc j) ▸ hj), ?_,
        fun hf => absurd hmain.1 hf, fun j hj => h.few j ((hpc j) ▸ hj),
        fun he => absurd he hmain.2, hnext ?_ hrec fun j hj hex => ?_⟩, fun j => ?_⟩
      · refine forall_update (P := fun j (k : Worker α) => WorkerOk (content j) k) h.worker ?_
        simp [WorkerOk, hexited.1]
      · change s.gCanceledThread = if (Function.update s.workers i _ 2).pc.hasSet then 2 else 0
        rw [hpc]
        exact h.global
      · intro j hj
        change (Function.update s.workers i _ j).pc.ended
        rw [hpc]
        exact hall j hj
      · -- the worker `i` is freed now, and of the others nothing is
        change (Function.update s.workers i _ j).pc = .exited at hex
        change (Function.update s.workers i _ j).st = .freed ↔ j < i + 1 ∧ j ≠ s.gCanceledThread
        rcases eq_or_ne j i with rfl | hne
        · rw [Function.update_self]
          exact ⟨fun _ => ⟨Nat.lt_succ_self j, hskip⟩, fun _ => rfl⟩
        · rw [hpc] at hex
          rw [Function.update_of_ne hne, hfreed j hj hex]
          omega
      · change (Function.update s.workers i _ j).pc.hit ↔ _
        rw [hpc]

/-- **A step of the main thread**, whose writes write all they are given. -/
theorem Ok.mainStep (h : Ok content s) {a : Answer} (ha : a.FullTransfer)
    (hstep : mainStep cancels s a = some s') : Keeps content s s' := by
  cases hm : s.main
  case join i => exact h.join hm hstep
  case write i => exact h.write hm ha hstep
  case free i => exact h.free hm hstep
  case exit =>
    unfold MtPrimes.mainStep at hstep
    simp only [hm] at hstep
    cases a <;> simp only [reduceCtorEq] at hstep
    obtain rfl := Option.some.inj hstep
    exact h.keeps_finish _
  all_goals exact h.setUp (by rw [hm]; trivial) (by simp [hm]) hstep

/-- **One step**: the invariant is kept, and only a cancellation marks the worker 2. -/
theorem Ok.step {l : Label} (h : Ok content s) (hl : l.Full)
    (hstep : MtPrimes.step content cancels s l = some s') :
    Ok content s' ∧ ((s'.workers 2).pc.hit ↔ (s.workers 2).pc.hit ∨ l = .cancel) := by
  unfold MtPrimes.step at hstep
  cases he : s.ended with
  | some e => simp [he] at hstep
  | none =>
    simp only [he] at hstep
    cases l with
    | main a =>
      obtain ⟨hok, hhit⟩ := h.mainStep hl hstep
      exact ⟨hok, by simp [hhit 2]⟩
    | worker t =>
      obtain ⟨k, hmove, hhit⟩ := worker_cases (h.worker t) hstep
      refine ⟨h.workerMove hmove fun hk => h.two t (hhit.mp hk), ?_⟩
      rw [hmove.workers]
      rcases eq_or_ne 2 t with rfl | hne
      · simp [hhit]
      · simp [Function.update_of_ne hne]
    | cancel =>
      obtain ⟨hok, hhit⟩ := h.cancelWorker hstep
      exact ⟨hok, by simp [hhit]⟩

end Invariant

/-! ### What `main` should do -/

/-- `main` has run to its end. -/
def System.Complete (s : System α) : Prop := s.main = .exit ∧ s.ended = some (.exited 0)

/-- **What a complete run should bring about**: the file has received the texts of the
workers that were not cancelled, in their order, and what belonged to each worker has been
freed. A second `free` ends a run, so it has been freed once. -/
def Exact (content : ℕ → List α) (s : System α) : Prop :=
  s.received = ((List.range NTHREADS).filter fun t =>
      decide ((s.workers t).pc ≠ .cancelled)).flatMap content ∧
    ∀ t < NTHREADS, (s.workers t).st = .freed ∧ (s.workers t).iobuf ≠ .live

section Exact

variable {content : ℕ → List α} {cancels : Bool} {s : System α} {ls : List Label}

/-- A worker that has ended without being cancelled has exited. -/
theorem Pc.exited_of_ended {p : Pc} (h : p.ended) (hnot : ¬p.hit) : p = .exited := by
  cases p <;> first | rfl | exact h.elim | exact absurd trivial hnot

theorem Ok.exact_of_hit (h : Ok content s) (hmain : s.main = .exit)
    (hhit : (s.workers 2).pc.hit) : Exact content s := by
  have hphase := h.phase
  rw [hmain] at hphase
  obtain ⟨hall, hrec, hfreed⟩ := hphase
  -- a worker in its handler has not ended
  have hcancelled : (s.workers 2).pc = .cancelled := by
    have hend := hall 2 (by decide)
    cases hpc : (s.workers 2).pc <;> rw [hpc] at hend hhit <;>
      first | rfl | exact hend.elim | exact hhit.elim
  have hglobal : s.gCanceledThread = 2 := by
    rw [h.global, hcancelled]
    rfl
  have hexited : ∀ t < NTHREADS, t ≠ 2 → (s.workers t).pc = .exited := fun t ht hne =>
    Pc.exited_of_ended (hall t ht) fun hh => hne (h.two t hh)
  refine ⟨?_, fun t ht => ?_⟩
  · rw [hrec, written]
    congr 1
    refine List.filter_congr fun t ht => ?_
    rw [hglobal, decide_eq_decide]
    rcases eq_or_ne t 2 with rfl | hne
    · simp [hcancelled]
    · simp [hne, hexited t (List.mem_range.mp ht) hne]
  · have hw := h.worker t
    rcases eq_or_ne t 2 with rfl | hne
    · simpa only [WorkerOk, hcancelled] using hw
    · -- the other two have exited, and the last loop has come past them
      have hex := hexited t ht hne
      have hst := (hfreed t ht hex).mpr ⟨ht, hglobal ▸ hne⟩
      simp only [WorkerOk, hex] at hw
      rcases hw with ⟨hlive, -⟩ | ⟨-, hbuf⟩
      · exact absurd (hlive.symm.trans hst) (by simp)
      · exact ⟨hst, by simp [hbuf]⟩

/-- Where nobody has been cancelled, what belongs to the first worker is not freed. -/
theorem Ok.not_exact (h : Ok content s) (hmain : s.main = .exit)
    (hhit : ¬(s.workers 2).pc.hit) : ¬Exact content s := by
  have hphase := h.phase
  rw [hmain] at hphase
  obtain ⟨hall, -, hfreed⟩ := hphase
  have hglobal : s.gCanceledThread = 0 := by
    rw [h.global, if_neg fun hset => hhit (Pc.hit_of_hasSet hset)]
  have hexited : (s.workers 0).pc = .exited :=
    Pc.exited_of_ended (hall 0 (by decide)) fun hh => absurd (h.two 0 hh) (by decide)
  rintro ⟨-, hfree⟩
  exact ((hfreed 0 (by decide) hexited).mp (hfree 0 (by decide)).1).2 hglobal.symm

/-- **A complete run does what it should exactly if the worker 2 has been cancelled in
it**, whatever the workers put in their buffers, when writes write all they are given. -/
theorem exact_iff_cancelled (hfull : ∀ l ∈ ls, l.Full)
    (hrun : run (step content cancels) System.start ls = some s) (hend : s.Complete) :
    Exact content s ↔ Label.cancel ∈ ls := by
  obtain ⟨hok, hhit⟩ : Ok content s ∧ ((s.workers 2).pc.hit ↔
      (System.start.workers 2 : Worker α).pc.hit ∨ ∃ l ∈ ls, l = Label.cancel) := by
    refine run_mark (P := Ok content) (Q := fun s => (s.workers 2).pc.hit) (A := Label.Full)
      (D := fun l => l = .cancel) ?_ (ok_start content) hfull hrun
    exact fun _ _ _ hs hl hst => hs.step hl hst
  have hmem : (s.workers 2).pc.hit ↔ Label.cancel ∈ ls := by
    rw [hhit]
    simp [System.start, Pc.hit]
  rw [← hmem]
  by_cases h2 : (s.workers 2).pc.hit
  · exact iff_of_true (hok.exact_of_hit hend.1 h2) h2
  · exact iff_of_false (hok.not_exact hend.1 h2) h2

end Exact

/-- `main` up to the creation of the last worker. -/
def created : List Label := List.replicate 10 (.main .ok)

/-- The third worker is cancelled while it sleeps. -/
def cancelledRun : List Label :=
  created ++ [.main .ok] ++ List.replicate 5 (.worker 0) ++ List.replicate 5 (.worker 1) ++
    [.worker 2, .cancel] ++ List.replicate 4 (.worker 2) ++ List.replicate 3 (.main .ok) ++
    [.main .full, .main .full] ++ List.replicate 5 (.main .ok)

/-- Nobody is cancelled, because it is not asked for. -/
def uncancelledRun : List Label :=
  created ++ List.replicate 5 (.worker 0) ++ List.replicate 5 (.worker 1) ++
    List.replicate 6 (.worker 2) ++ List.replicate 4 (.main .ok) ++
    [.main .full, .main .full] ++ List.replicate 4 (.main .ok)

theorem exact_iff_cancelled_at :
    ∃ s : System UInt8, run (step (fun t => [[1, 2], [3], [4]].getD t []) true) System.start
        cancelledRun = some s ∧ s.Complete ∧ s.received = [1, 2, 3] ∧
      Exact (fun t => [[1, 2], [3], [4]].getD t []) s := by
  obtain ⟨s, hs, hend, hrec⟩ : ∃ s : System UInt8,
      run (step (fun t => [[1, 2], [3], [4]].getD t []) true) System.start cancelledRun = some s ∧
      s.Complete ∧ s.received = [1, 2, 3] := ⟨_, rfl, ⟨rfl, rfl⟩, rfl⟩
  exact ⟨s, hs, hend, hrec, (exact_iff_cancelled (by decide) hs hend).mpr (by decide)⟩

/-- **Nobody is cancelled, and the first worker is passed over**: the file receives the
texts of the other two only, and what belongs to the first worker is not freed. -/
theorem first_worker_lost :
    ∃ s : System UInt8, run (step (fun t => [[1, 2], [3], [4]].getD t []) false) System.start
        uncancelledRun = some s ∧ s.Complete ∧ s.received = [3, 4] ∧
      (s.workers 0).st = .live ∧ (s.workers 0).iobuf = .live ∧
      ¬Exact (fun t => [[1, 2], [3], [4]].getD t []) s :=
  ⟨_, rfl, ⟨rfl, rfl⟩, rfl, rfl, rfl, fun h => absurd (h.2 0 (by decide)).1 (by decide)⟩

end MtPrimes

end SystemProgramming
