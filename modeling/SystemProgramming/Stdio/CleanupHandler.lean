import SystemProgramming.Calls
import SystemProgramming.HandleErr
import SystemProgramming.Runs

/-!
# A buffer and its cleanup handler

A worker of `cleanup_hdlr` (`ch16/`): it allocates a buffer, installs a cleanup handler
that frees it, does its I/O, removes the handler without running it and frees the buffer
itself. A worker that is cancelled in a call of the standard I/O library has its buffer
freed by the handler.

There is a third place that frees the buffer: when a write has gone wrong, the buffer is
freed with the handler still installed, *before* `FATAL` reports it. The calls of `FATAL`
print, so the worker can be cancelled in them, and `FATAL` may come back.

The worker is one step function (`SystemProgramming.CleanupHdlr.step`). The buffer is its
own, so what the other threads do is in the answers of the calls, and in when the
cancellation request comes. A worker that passes a buffer that is not there to a call, or
frees one a second time, ends in `SystemProgramming.CleanupHdlr.End.undefined`.

A worker's run handles its buffer well exactly if, in the report of a failed write, no
cancellation is acted upon and the allocation of the message succeeds
(`SystemProgramming.CleanupHdlr.freed_once_iff`).
-/

namespace SystemProgramming

open HandleErr Runs

namespace CleanupHdlr

/-- The size of the buffer, and the request of every read. -/
def NREAD : ℕ := 512

/-! ### The worker -/

/-- Where the worker stands: about to make a call. -/
inductive Pc where
  /-- About to allocate the buffer. -/
  | malloc
  /-- That failed, and is reported. -/
  | mallocFatal (st : Stage)
  /-- About to print what it is going to do. -/
  | vprint
  /-- About to read, in the iteration `i`. -/
  | fread (i : ℕ)
  /-- Nothing was read, which is reported. -/
  | freadFatal (i : ℕ) (st : Stage)
  /-- About to write `fnr` bytes. -/
  | fwrite (i fnr : ℕ)
  /-- Nothing was written; about to ask whether the file is at its end. -/
  | feof (i : ℕ)
  /-- About to ask whether the file is in error. -/
  | ferror (i : ℕ)
  /-- It is; about to free the buffer. -/
  | free (i : ℕ)
  /-- The failed write is reported. -/
  | fwriteFatal (i : ℕ) (st : Stage)
  /-- Back from the I/O, about to remove the handler. -/
  | pop
  /-- About to free the buffer. -/
  | freeBuf
  /-- About to exit. -/
  | exit
  deriving DecidableEq, Repr

/-- How a worker ends. -/
inductive End where
  /-- By `pthread_exit`. -/
  | exited
  /-- By a cancellation. -/
  | cancelled
  /-- With the whole process, by `exit`. -/
  | process (status : ℤ)
  /-- By something whose effect is left open. -/
  | undefined
  deriving DecidableEq, Repr

/-- The state of the worker. -/
structure Worker where
  pc : Pc
  /-- A cancellation request has been sent to it. -/
  pending : Bool
  /-- The cleanup handler is installed. -/
  handler : Bool
  iobuf : Buf
  /-- How often the buffer has been freed. -/
  frees : ℕ
  /-- The buffer has been passed to a call after it was freed. -/
  stale : Bool
  ended : Option End
  deriving DecidableEq, Repr

/-- What happens to the worker. -/
inductive Label where
  /-- A cancellation request is sent to it. -/
  | request
  /-- Its call is answered so. -/
  | call (a : Answer)
  /-- It is cancelled in its call. -/
  | cancel
  deriving DecidableEq, Repr

namespace Worker

/-- The worker begins. -/
def start : Worker := ⟨.malloc, false, false, .null, 0, false, none⟩

/-- The buffer is freed. -/
def free (w : Worker) : Worker :=
  match w.iobuf with
  | .null => w
  | .live => { w with iobuf := .freed, frees := w.frees + 1 }
  | .freed => { w with frees := w.frees + 1, ended := some .undefined }

/-- The worker ends: the handler runs, if it is installed. -/
def finish (e : End) (w : Worker) : Worker :=
  let w' := if w.handler then w.free else w
  { w' with ended := some (w'.ended.getD e) }

/-- A buffer that is not there is passed to a call. -/
def misuse (w : Worker) : Worker :=
  { w with stale := w.stale || decide (w.iobuf = .freed), ended := some .undefined }

end Worker

/-- The call is one of the standard I/O library, in which the worker may be cancelled. -/
def Pc.isStdio : Pc → Bool
  | .vprint | .fread _ | .fwrite _ _ | .feof _ | .ferror _ => true
  | .mallocFatal st | .freadFatal _ st | .fwriteFatal _ st => st.isStdio
  | _ => false

/-- The call is passed the buffer. -/
def Pc.passesBuf : Pc → Bool
  | .fread _ | .fwrite _ _ => true
  | _ => false

/-- The head of the loop, where `i` iterations have been made. -/
def Pc.iteration (numio i : ℕ) : Pc := if i < numio then .fread i else .pop

/-- A call of `FATAL`: `point` is the control point of each of its calls, and `back` the
state it leaves when it comes back. -/
def fatal (w : Worker) (point : Stage → Pc) (st : Stage) (a : Answer) (back : Worker) :
    Option Worker :=
  (st.next a).map fun
    | .inl st' => { w with pc := point st' }
    | .inr (.exits status) => { w with ended := some (.process status) }
    | .inr (.returns _) => back

/-- `wrapper_testit_mt_refactored`, with `testit_mt_refactored` in it. -/
def callStep (numio : ℕ) (w : Worker) (a : Answer) : Option Worker :=
  match w.pc, a with
  | .malloc, a => a.status.map fun ok =>
    if ok then { w with pc := .vprint, iobuf := .live, handler := true }
    else { w with pc := .mallocFatal .alloc }
  | .mallocFatal st, a => fatal w .mallocFatal st a { w with pc := .vprint, handler := true }
  | .vprint, .ok => some { w with pc := .iteration numio 0 }
  | .fread i, a => (a.transfer NREAD).map fun r =>
    { w with pc := if r.getD 0 = 0 then .freadFatal i .alloc else .fwrite i (r.getD 0) }
  | .freadFatal i st, a => fatal w (.freadFatal i) st a { w with pc := .fwrite i 0 }
  | .fwrite i fnr, a => (a.transfer fnr).map fun r =>
    { w with pc := if r.getD 0 = 0 then .feof i else .iteration numio (i + 1) }
  | .feof i, a => a.status.map fun ok => { w with pc := if ok then .pop else .ferror i }
  | .ferror i, a => a.status.map fun ok =>
    { w with pc := if ok then .free i else .iteration numio (i + 1) }
  | .free i, .ok => some { w.free with pc := .fwriteFatal i .alloc }
  | .fwriteFatal i st, a =>
    fatal w (.fwriteFatal i) st a { w with pc := .iteration numio (i + 1) }
  | .pop, .ok => some { w with pc := .freeBuf, handler := false }
  | .freeBuf, .ok => some { w.free with pc := .exit }
  | .exit, .ok => some (w.finish .exited)
  | _, _ => none

/-- A step of a worker that has not ended. -/
def move (numio : ℕ) (w : Worker) : Label → Option Worker
  | .request => some { w with pending := true }
  | .call a =>
    if w.pc.passesBuf = true ∧ w.iobuf ≠ .live then some w.misuse else callStep numio w a
  | .cancel =>
    if w.pending = true ∧ w.pc.isStdio = true then
      if w.pc.passesBuf = true ∧ w.iobuf ≠ .live then some w.misuse
      else some (w.finish .cancelled)
    else none

/-- **The step function of the worker**, which makes `numio` iterations. -/
def step (numio : ℕ) (w : Worker) (l : Label) : Option Worker :=
  match w.ended with
  | some _ => none
  | none => move numio w l

/-! ### Handling the buffer well -/

/-- **The buffer is handled well**: it is not freed twice, not passed to a call after it
was freed, and freed when the worker has exited or has been cancelled, if it was
allocated at all. -/
structure Safe (w : Worker) : Prop where
  once : w.frees ≤ 1
  fresh : w.stale = false
  freed : w.ended = some .exited ∨ w.ended = some .cancelled →
    w.frees = if w.iobuf = .null then 0 else 1

/-- In the report of a failed write no cancellation is acted upon, and the allocation of
the message succeeds. -/
def ReportExits (w : Worker) (l : Label) : Prop :=
  match w.pc with
  | .fwriteFatal _ st => l ≠ .cancel ∧ (st = .alloc → l ≠ .call .err)
  | _ => True

instance (w : Worker) : DecidablePred (ReportExits w) := fun l => by
  unfold ReportExits
  cases w.pc <;> infer_instance

/-! ### Up to a report that does not exit -/

/-- The buffer is not there, or has not been freed. -/
def Unfreed (w : Worker) : Prop := w.iobuf ≠ .freed ∧ w.frees = 0

/-- The buffer was never there, or has been freed once. -/
def Settled (w : Worker) : Prop :=
  (w.iobuf = .null ∧ w.frees = 0) ∨ (w.iobuf = .freed ∧ w.frees = 1)

/-- **The invariant**, by the control point: whether the handler is installed, and what
has become of the buffer. -/
def AtPoint (w : Worker) : Pc → Prop
  | .malloc | .mallocFatal _ => w.handler = false ∧ w.iobuf = .null ∧ w.frees = 0
  | .vprint | .fread _ | .pop => w.handler = true ∧ Unfreed w
  | .fwriteFatal _ _ => w.handler = true ∧ w.iobuf = .freed ∧ w.frees = 1
  | .freeBuf => w.handler = false ∧ Unfreed w
  | .exit => w.handler = false ∧ Settled w
  | _ => w.handler = true ∧ w.iobuf = .live ∧ w.frees = 0

/-- The worker handles its buffer well, and is where it may go on to do so. -/
structure Inv (w : Worker) : Prop where
  safe : Safe w
  point : w.ended = none → AtPoint w w.pc

section Steps

variable {numio : ℕ} {w w' : Worker} {l : Label} {a : Answer}

theorem inv_start : Inv .start :=
  ⟨⟨Nat.zero_le 1, rfl, by simp [Worker.start]⟩, fun _ => ⟨rfl, rfl, rfl⟩⟩

/-- A worker that has not ended is safe as long as it has not freed twice or misused its
buffer. -/
theorem safe_of_running (hend : w.ended = none) (honce : w.frees ≤ 1) (hstale : w.stale = false) :
    Safe w := ⟨honce, hstale, by simp [hend]⟩

/-- Freeing the buffer for the first time. -/
theorem Unfreed.free (h : Unfreed w) :
    Settled w.free ∧ w.free.ended = w.ended ∧ w.free.stale = w.stale ∧
      w.free.handler = w.handler := by
  obtain ⟨hbuf, hfrees⟩ := h
  rw [Worker.free]
  cases hb : w.iobuf with
  | null => exact ⟨Or.inl ⟨hb, hfrees⟩, rfl, rfl, rfl⟩
  | live => exact ⟨Or.inr ⟨rfl, by simp [hfrees]⟩, rfl, rfl, rfl⟩
  | freed => exact absurd hb hbuf

/-- A worker that ends with its buffer settled has handled it well. -/
theorem Settled.safe (h : Settled w) (hstale : w.stale = false) : Safe w := by
  refine ⟨?_, hstale, fun _ => ?_⟩
  · rcases h with ⟨-, h⟩ | ⟨-, h⟩ <;> omega
  · rcases h with ⟨hb, h⟩ | ⟨hb, h⟩ <;> simp [hb, h]

/-- The end of a worker whose handler is installed, with the buffer not freed yet. -/
theorem Unfreed.finish (h : Unfreed w) (hw : w.handler = true) (hend : w.ended = none)
    (hstale : w.stale = false) (e : End) : Inv (w.finish e) := by
  obtain ⟨hsettled, hend', hstale', -⟩ := h.free
  have hfinish : w.finish e = { w.free with ended := some e } := by
    simp only [Worker.finish, if_pos hw, hend', hend, Option.getD_none]
  rw [hfinish]
  exact ⟨Settled.safe (w := { w.free with ended := some e }) hsettled (hstale'.trans hstale),
    by simp⟩

/-- A worker that goes on to a control point it may be at. -/
theorem inv_goto (hend : w.ended = none) (hstale : w.stale = false) (h : AtPoint w w.pc) :
    Inv w := by
  refine ⟨safe_of_running hend ?_ hstale, fun _ => h⟩
  revert h
  cases w.pc <;> simp only [AtPoint, Unfreed, Settled] <;> omega

theorem atPoint_iteration {i : ℕ} (hw : w.handler = true) (h : Unfreed w) :
    AtPoint w (.iteration numio i) := by
  rw [Pc.iteration]
  split_ifs <;> exact ⟨hw, h⟩

/-- A call of `FATAL` goes on, ends the process, or has come back from its
allocation. -/
theorem fatal_cases {point : Stage → Pc} {st : Stage} {back : Worker}
    (h : fatal w point st a back = some w') :
    (∃ st', w' = { w with pc := point st' }) ∨
      (∃ status, w' = { w with ended := some (.process status) }) ∨
      (st = .alloc ∧ a = .err ∧ w' = back) := by
  obtain ⟨r, hr, rfl⟩ := Option.map_eq_some_iff.mp h
  rcases Stage.next_cases hr with ⟨st', rfl, -⟩ | ⟨rfl, -⟩ | ⟨rfl, hst, ha⟩
  · exact Or.inl ⟨st', rfl⟩
  · exact Or.inr (Or.inl ⟨_, rfl⟩)
  · exact Or.inr (Or.inr ⟨hst, ha, rfl⟩)

/-- The report of a failed call that leaves the buffer as it is, and comes back to a
point with the same buffer. -/
theorem inv_fatal {point : Stage → Pc} {st : Stage} {back : Worker} (hend : w.ended = none)
    (hs : Safe w) (hpoint : ∀ st', AtPoint w (point st'))
    (hback : st = .alloc → a = .err → Inv back) (h : fatal w point st a back = some w') :
    Inv w' := by
  rcases fatal_cases h with ⟨st', rfl⟩ | ⟨status, rfl⟩ | ⟨hst, ha, rfl⟩
  · exact inv_goto hend hs.fresh (hpoint st')
  · exact ⟨⟨hs.once, hs.fresh, by simp⟩, by simp⟩
  · exact hback hst ha

/-- **A call of the worker**, with the buffer there if it is passed, keeps the
invariant. -/
theorem Inv.callStep (h : Inv w) (hend : w.ended = none)
    (hbuf : w.pc.passesBuf = true → w.iobuf = .live) (hl : ReportExits w (.call a))
    (hstep : callStep numio w a = some w') : Inv w' := by
  have hs := h.safe
  have hp := h.point hend
  unfold CleanupHdlr.callStep at hstep
  cases hpc : w.pc <;> simp only [hpc] at hstep hp hbuf
  case malloc =>
    obtain ⟨hw, hnull, hfrees⟩ := hp
    obtain ⟨ok, -, rfl⟩ := Option.map_eq_some_iff.mp hstep
    cases ok
    · -- no buffer: the report is next
      exact inv_goto hend hs.fresh ⟨hw, hnull, hfrees⟩
    · exact inv_goto hend hs.fresh ⟨rfl, by simp, hfrees⟩
  case mallocFatal st =>
    refine inv_fatal hend hs ?_ ?_ hstep
    · exact fun _ => hp
    · exact fun _ _ => inv_goto hend hs.fresh ⟨rfl, by simp [hp.2.1], hp.2.2⟩
  case vprint =>
    cases a <;> simp only [reduceCtorEq] at hstep
    obtain rfl := Option.some.inj hstep
    exact inv_goto hend hs.fresh (atPoint_iteration hp.1 hp.2)
  case fread i =>
    obtain ⟨r, -, rfl⟩ := Option.map_eq_some_iff.mp hstep
    have hlive : w.iobuf = .live := hbuf rfl
    -- a read of nothing is reported, and then nothing is written
    refine inv_goto hend hs.fresh ?_
    change AtPoint w (if r.getD 0 = 0 then _ else _)
    split_ifs <;> exact ⟨hp.1, hlive, hp.2.2⟩
  case freadFatal i st =>
    refine inv_fatal hend hs ?_ ?_ hstep
    · exact fun _ => hp
    · exact fun _ _ => inv_goto hend hs.fresh hp
  case fwrite i fnr =>
    obtain ⟨r, -, rfl⟩ := Option.map_eq_some_iff.mp hstep
    obtain ⟨hw, hlive, hfrees⟩ := hp
    refine inv_goto hend hs.fresh ?_
    change AtPoint w (if r.getD 0 = 0 then _ else _)
    split_ifs
    · exact ⟨hw, hlive, hfrees⟩
    · exact atPoint_iteration hw ⟨by simp [hlive], hfrees⟩
  case feof i =>
    obtain ⟨ok, -, rfl⟩ := Option.map_eq_some_iff.mp hstep
    obtain ⟨hw, hlive, hfrees⟩ := hp
    cases ok
    · exact inv_goto hend hs.fresh ⟨hw, hlive, hfrees⟩
    · exact inv_goto hend hs.fresh ⟨hw, by simp [hlive], hfrees⟩
  case ferror i =>
    obtain ⟨ok, -, rfl⟩ := Option.map_eq_some_iff.mp hstep
    obtain ⟨hw, hlive, hfrees⟩ := hp
    cases ok
    · exact inv_goto hend hs.fresh (atPoint_iteration hw ⟨by simp [hlive], hfrees⟩)
    · exact inv_goto hend hs.fresh ⟨hw, hlive, hfrees⟩
  case free i =>
    cases a <;> simp only [reduceCtorEq] at hstep
    obtain rfl := Option.some.inj hstep
    obtain ⟨hw, hlive, hfrees⟩ := hp
    -- the first `free`; the handler is still installed
    have hfree : w.free = { w with iobuf := .freed, frees := w.frees + 1 } := by
      simp only [Worker.free, hlive]
    rw [hfree]
    exact inv_goto hend hs.fresh ⟨hw, rfl, by simp [hfrees]⟩
  case fwriteFatal i st =>
    refine inv_fatal hend hs ?_ ?_ hstep
    · exact fun _ => hp
    · -- the report exits, so it does not come back
      intro hst ha
      rw [ReportExits, hpc] at hl
      exact absurd (congrArg Label.call ha) (hl.2 hst)
  case pop =>
    cases a <;> simp only [reduceCtorEq] at hstep
    obtain rfl := Option.some.inj hstep
    exact inv_goto hend hs.fresh ⟨rfl, hp.2⟩
  case freeBuf =>
    cases a <;> simp only [reduceCtorEq] at hstep
    obtain rfl := Option.some.inj hstep
    obtain ⟨hsettled, hend', hstale', hhandler'⟩ := hp.2.free
    exact inv_goto (w := { w.free with pc := .exit }) (hend'.trans hend) (hstale'.trans hs.fresh)
      ⟨hhandler'.trans hp.1, hsettled⟩
  case exit =>
    cases a <;> simp only [reduceCtorEq] at hstep
    obtain rfl := Option.some.inj hstep
    -- the handler has been removed, so it does not run
    have hfinish : w.finish .exited = { w with ended := some .exited } := by
      simp only [Worker.finish, hp.1, hend, Bool.false_eq_true, if_false, Option.getD_none]
    rw [hfinish]
    exact ⟨Settled.safe (w := { w with ended := some .exited }) hp.2 hs.fresh, by simp⟩

/-- A buffer that is passed to a call without being there was never there. -/
theorem AtPoint.null_of_misuse (h : AtPoint w w.pc) (hpass : w.pc.passesBuf = true)
    (hbuf : w.iobuf ≠ .live) : w.iobuf = .null := by
  revert h
  cases hpc : w.pc <;> simp only [hpc, Pc.passesBuf, Bool.false_eq_true] at hpass
  case fread i =>
    rintro ⟨-, hfreed, -⟩
    cases hb : w.iobuf
    · rfl
    · exact absurd hb hbuf
    · exact absurd hb hfreed
  case fwrite i fnr =>
    rintro ⟨-, hlive, -⟩
    exact absurd hlive hbuf

theorem Inv.misuse (h : Inv w) (hnull : w.iobuf = .null) : Inv w.misuse := by
  refine ⟨⟨h.safe.once, ?_, by simp [Worker.misuse]⟩, by simp [Worker.misuse]⟩
  simp [Worker.misuse, hnull, h.safe.fresh]

/-- **A cancellation** that is acted upon in another call than those of the report of a
failed write keeps the invariant: the handler frees a buffer that has not been freed. -/
theorem Inv.cancel (h : Inv w) (hend : w.ended = none) (hio : w.pc.isStdio = true)
    (hl : ReportExits w .cancel) : Inv (w.finish .cancelled) := by
  have hp := h.point hend
  have hfresh := h.safe.fresh
  cases hpc : w.pc <;> simp only [hpc] at hp hio
  case malloc => cases hio
  case mallocFatal st =>
    -- no handler is installed, and there is no buffer
    obtain ⟨hw, hnull, hfrees⟩ := hp
    have hfinish : w.finish .cancelled = { w with ended := some .cancelled } := by
      simp only [Worker.finish, hw, hend, Bool.false_eq_true, if_false, Option.getD_none]
    rw [hfinish]
    exact ⟨Settled.safe (w := { w with ended := some .cancelled }) (Or.inl ⟨hnull, hfrees⟩) hfresh,
      by simp⟩
  case vprint => exact hp.2.finish hp.1 hend hfresh _
  case fread i => exact hp.2.finish hp.1 hend hfresh _
  case freadFatal i st => exact Unfreed.finish ⟨by simp [hp.2.1], hp.2.2⟩ hp.1 hend hfresh _
  case fwrite i fnr => exact Unfreed.finish ⟨by simp [hp.2.1], hp.2.2⟩ hp.1 hend hfresh _
  case feof i => exact Unfreed.finish ⟨by simp [hp.2.1], hp.2.2⟩ hp.1 hend hfresh _
  case ferror i => exact Unfreed.finish ⟨by simp [hp.2.1], hp.2.2⟩ hp.1 hend hfresh _
  case free i => cases hio
  case fwriteFatal i st =>
    rw [ReportExits, hpc] at hl
    exact absurd rfl hl.1
  case pop => cases hio
  case freeBuf => cases hio
  case exit => cases hio

/-- The three things that can happen to a worker that has not ended. -/
theorem step_cases (h : step numio w l = some w') : w.ended = none ∧
    ((l = .request ∧ w' = { w with pending := true }) ∨
      (w.pc.passesBuf = true ∧ w.iobuf ≠ .live ∧ w' = w.misuse) ∨
      ((w.pc.passesBuf = true → w.iobuf = .live) ∧ ∃ a, l = .call a ∧
        callStep numio w a = some w') ∨
      ((w.pc.passesBuf = true → w.iobuf = .live) ∧ l = .cancel ∧ w.pc.isStdio = true ∧
        w' = w.finish .cancelled)) := by
  have hend : w.ended = none := by
    cases hend : w.ended with
    | none => rfl
    | some e => simp [step, hend] at h
  simp only [step, hend] at h
  refine ⟨hend, ?_⟩
  cases l with
  | request => exact Or.inl ⟨rfl, (Option.some.inj h).symm⟩
  | call a =>
    rw [move] at h
    split_ifs at h with hmis
    · exact Or.inr (Or.inl ⟨hmis.1, hmis.2, (Option.some.inj h).symm⟩)
    · exact Or.inr (Or.inr (Or.inl ⟨fun hpass => not_not.mp fun hb => hmis ⟨hpass, hb⟩, a, rfl, h⟩))
  | cancel =>
    rw [move] at h
    split_ifs at h with hio hmis
    · exact Or.inr (Or.inl ⟨hmis.1, hmis.2, (Option.some.inj h).symm⟩)
    · exact Or.inr (Or.inr (Or.inr ⟨fun hpass => not_not.mp fun hb => hmis ⟨hpass, hb⟩, rfl, hio.2,
        (Option.some.inj h).symm⟩))

/-- **One step that a report of a failed write does not spoil.** -/
theorem Inv.step (h : Inv w) (hl : ReportExits w l)
    (hstep : CleanupHdlr.step numio w l = some w') : Inv w' := by
  obtain ⟨hend, hmove⟩ := step_cases hstep
  rcases hmove with ⟨-, rfl⟩ | ⟨hpass, hb, rfl⟩ | ⟨hbuf, a, rfl, hcall⟩ | ⟨-, rfl, hio, rfl⟩
  · exact ⟨⟨h.safe.once, h.safe.fresh, h.safe.freed⟩, fun _ => h.point hend⟩
  · exact h.misuse ((h.point hend).null_of_misuse hpass hb)
  · exact h.callStep hend hbuf hl hcall
  · exact h.cancel hend hio hl

end Steps

/-! ### Behind a report that does not exit -/

/-- The buffer has been freed, and the worker is about to pass it to a call or to free it
again. -/
def Doomed (w : Worker) : Prop :=
  w.iobuf = .freed ∧ w.frees = 1 ∧ match w.pc with
    | .fread _ | .pop | .freeBuf => True
    | _ => False

/-- The buffer has been handled badly, or is going to be. -/
def Spoilt (w : Worker) : Prop := (w.ended = none ∧ Doomed w) ∨ (w.ended ≠ none ∧ ¬Safe w)

section Spoilt

variable {numio : ℕ} {w w' : Worker} {l : Label} {ls : List Label}

/-- **What a report that does not exit brings about**: the handler frees the buffer a
second time, or the worker goes on with a buffer that is not there. -/
theorem Inv.spoilt (h : Inv w) (hl : ¬ReportExits w l)
    (hstep : CleanupHdlr.step numio w l = some w') :
    Spoilt w' := by
  obtain ⟨hend, hmove⟩ := step_cases hstep
  have hp := h.point hend
  cases hpc : w.pc <;> simp only [ReportExits, hpc, not_true_eq_false] at hl
  case fwriteFatal i st =>
    rw [hpc] at hp
    obtain ⟨hw, hfreed, hfrees⟩ := hp
    simp only [hpc, Pc.passesBuf, Bool.false_eq_true, false_and, false_or] at hmove
    rcases hmove with ⟨rfl, -⟩ | ⟨-, a, rfl, hcall⟩ | ⟨-, rfl, -, rfl⟩
    · exact absurd ⟨by simp, by simp⟩ hl
    · -- the allocation of the message has failed
      obtain ⟨rfl, rfl⟩ : st = .alloc ∧ a = .err := by simpa using hl
      simp only [CleanupHdlr.callStep, hpc, fatal, Stage.next, Answer.status, Option.map_some,
        Bool.false_eq_true, if_false, Option.some.injEq] at hcall
      obtain rfl := hcall
      refine Or.inl ⟨hend, hfreed, hfrees, ?_⟩
      change match Pc.iteration numio (i + 1) with
        | .fread _ | .pop | .freeBuf => True
        | _ => False
      rw [Pc.iteration]
      split_ifs <;> trivial
    · refine Or.inr ⟨by simp [Worker.finish], fun hsafe => ?_⟩
      have honce := hsafe.once
      simp [Worker.finish, hw, Worker.free, hfreed, hfrees] at honce

/-- **It lasts.** -/
theorem Spoilt.step (h : Spoilt w) (hstep : CleanupHdlr.step numio w l = some w') :
    Spoilt w' := by
  obtain ⟨hend, hmove⟩ := step_cases hstep
  rcases h with ⟨-, hfreed, hfrees, hpoint⟩ | ⟨hne, -⟩
  · rcases hmove with ⟨-, rfl⟩ | ⟨-, -, rfl⟩ | ⟨hbuf, a, rfl, hcall⟩ | ⟨hbuf, -, hio, rfl⟩
    · exact Or.inl ⟨hend, hfreed, hfrees, hpoint⟩
    · refine Or.inr ⟨by simp [Worker.misuse], fun hsafe => ?_⟩
      have hfresh := hsafe.fresh
      simp [Worker.misuse, hfreed] at hfresh
    · cases hpc : w.pc <;> simp only [hpc] at hpoint hbuf
      case fread i => exact absurd ((hbuf rfl).symm.trans hfreed) (by simp)
      case pop =>
        cases a <;> simp only [callStep, hpc, reduceCtorEq] at hcall
        obtain rfl := Option.some.inj hcall
        exact Or.inl ⟨hend, hfreed, hfrees, trivial⟩
      case freeBuf =>
        cases a <;> simp only [callStep, hpc, reduceCtorEq] at hcall
        obtain rfl := Option.some.inj hcall
        refine Or.inr ⟨by simp [Worker.free, hfreed], fun hsafe => ?_⟩
        have honce := hsafe.once
        simp [Worker.free, hfreed, hfrees] at honce
    · cases hpc : w.pc <;> simp only [hpc] at hpoint hbuf hio
      case fread i => exact absurd ((hbuf rfl).symm.trans hfreed) (by simp)
      case pop => cases hio
      case freeBuf => cases hio
  · exact absurd hend hne

/-- **The buffer of a worker is handled well exactly if no report of a failed write goes
wrong**: it is, in every state of a run in which no cancellation is acted upon in such a
report and the allocation of its message succeeds; and a worker that has ended without
this has not handled it well. -/
theorem freed_once_iff (hrun : run (step numio) .start ls = some w) :
    (Every (step numio) ReportExits .start ls → Safe w) ∧
      (w.ended ≠ none → (Safe w ↔ Every (step numio) ReportExits .start ls)) := by
  have hsafe : Every (step numio) ReportExits .start ls → Safe w := fun hall =>
    (hall.invariant (fun _ _ _ hw hl hst => hw.step hl hst) inv_start hrun).safe
  refine ⟨hsafe, fun hend => ⟨fun hs => ?_, hsafe⟩⟩
  -- a run meets the condition all along, or ends spoilt
  have hbroken : Every (step numio) ReportExits .start ls ∨ Spoilt w := by
    refine Every.or_broken (P := fun w => Inv w ∨ Spoilt w) (D := fun _ _ => True) ?_ ?_ ?_
      (every_of_forall (fun _ _ => trivial) _) (Or.inl inv_start) hrun
    · rintro x l y (hx | hx) - hst
      · by_cases hl : ReportExits x l
        · exact Or.inl (hx.step hl hst)
        · exact Or.inr (hx.spoilt hl hst)
      · exact Or.inr (hx.step hst)
    · rintro x l y (hx | hx) - hl hst
      · exact hx.spoilt hl hst
      · exact hx.step hst
    · exact fun _ _ _ _ hx _ hst => hx.step hst
  rcases hbroken with hall | ⟨hnone, -⟩ | ⟨-, hnot⟩
  · exact hall
  · exact absurd hnone hend
  · exact absurd hs hnot

end Spoilt

/-- A worker that is cancelled in its second read. -/
def cancelledInRead : List Label :=
  [.call .ok, .call .ok, .call .full, .call .full, .request, .cancel]

/-- The handler frees the buffer of that worker, once. -/
theorem freed_once_iff_at :
    ∃ w : Worker, run (step 2) .start cancelledInRead = some w ∧ w.ended = some .cancelled ∧
      w.frees = 1 ∧ (Safe w ↔ Every (step 2) ReportExits .start cancelledInRead) := by
  obtain ⟨w, hw, hend, hfrees⟩ : ∃ w : Worker, run (step 2) .start cancelledInRead = some w ∧
      w.ended = some .cancelled ∧ w.frees = 1 := ⟨_, rfl, rfl, rfl⟩
  exact ⟨w, hw, hend, hfrees, (freed_once_iff hw).2 (by simp [hend])⟩

/-- **Cancelled while it reports**: the write fails, the buffer is freed, `FATAL` has its
memory and prints, and the handler frees the buffer again. -/
theorem freed_twice :
    ∃ w : Worker, run (step 1) .start
        [.call .ok, .call .ok, .call .full, .call .fail, .call .err, .call .ok, .call .ok,
          .call .ok, .request, .cancel] = some w ∧
      w.frees = 2 ∧ ¬Safe w :=
  ⟨_, rfl, rfl, fun h => absurd h.once (by decide)⟩

end CleanupHdlr

end SystemProgramming
