import SystemProgramming.Bytes
import SystemProgramming.Copy.Wrappers
import SystemProgramming.HandleErr
import SystemProgramming.Mutex
import SystemProgramming.Runs

/-!
# The multithreaded copier

`do_mt_copy` of `mt_copy` (`solutions_to_assgn/ch18/`) and everything it runs, as
one step function over the state of the whole process: a step is one call of the
main thread or of a worker, so a list of labels is an interleaving together with
the answer to every call.

* `__do_mt_copy` copies one segment (`SystemProgramming.MtCopy.segStep`). It reads
  with `fd_read` and writes with `fd_write`, whose loops are those of `simpcp2`
  over `pread` and `pwrite` – and which, again, advance neither the buffer, nor
  the request, nor the offset.
* `worker` copies its own segment and, in the last thread, the remainder
  (`SystemProgramming.MtCopy.workerStep`). What `__do_mt_copy` returns is dropped.
* `do_mt_copy` allocates and starts the workers one by one, joins them, and
  returns 0 (`SystemProgramming.MtCopy.mainStep`). Where an allocation fails it
  calls `FATAL` and then goes on to write to the structure it did not get.

The source file is the parameter `src`, and `numthrds` the number of threads. A
fresh allocation holds arbitrary bytes: `heap i k` is the memory that the `k`-th
allocation of thread `i` returns. The destination carries the list of all the
writes made to it, for the statements only.
-/

namespace SystemProgramming

open Bytes HandleErr Wrappers

namespace MtCopy

variable {α : Type*}

/-! ### Copying one segment -/

/-- Where `__do_mt_copy` stands: about to make a call, or returned. -/
inductive SegPc where
  /-- About to allocate the buffer. -/
  | malloc
  /-- About to call `pread`, `tr` bytes being counted already. -/
  | read (tr : ℕ)
  /-- About to call `pwrite` for `nr` bytes, `tw` of them counted. -/
  | write (nr tw : ℕ)
  /-- Returned the value `v`. -/
  | ret (v : ℤ)
  deriving DecidableEq, Repr

/-- A call of `__do_mt_copy`. -/
structure Seg (α : Type*) where
  /-- Where the segment starts, in both files. -/
  startOffset : ℕ
  /-- How long it is. -/
  len : ℕ
  /-- The control point. -/
  pc : SegPc
  /-- The memory from the address of the buffer on. -/
  buf : ℕ → α
  /-- The counts handed to `fd_write`. -/
  handed : List ℕ

/-- The destination file, with the writes made to it: offset and data. -/
structure Dest (α : Type*) where
  /-- The bytes of the file. -/
  file : List α
  /-- The writes so far, latest first. -/
  writes : List (ℕ × List α)

/-- `pwrite` put `d` at the offset `off`. -/
def Dest.pwrite [Zero α] (off : ℕ) (d : List α) (w : Dest α) : Dest α :=
  ⟨overwrite w.file off d, (off, d) :: w.writes⟩

namespace Seg

/-- `__do_mt_copy` is called; `heap` is the memory `malloc` is going to return. -/
def call (startOffset len : ℕ) (heap : ℕ → α) : Seg α := ⟨startOffset, len, .malloc, heap, []⟩

/-- `pread` put the first `rd` bytes of the segment at the start of the buffer. -/
def readBytes (src : List α) (rd : ℕ) (g : Seg α) : Seg α :=
  { g with buf := blit g.buf ((src.drop g.startOffset).take rd) }

/-- `__do_mt_copy` between the value `nr` of `fd_read` and its next call. -/
def gotRead (nr : ℤ) (g : Seg α) : Seg α :=
  if nr < 0 then { g with pc := .ret (-3) }
  else if nr = 0 then { g with pc := .ret 0 }
  else { g with pc := .write nr.toNat 0, handed := g.handed ++ [nr.toNat] }

/-- `__do_mt_copy` between the value `nw` of `fd_write` and its return. -/
def gotWrite (nw : ℤ) (g : Seg α) : Seg α :=
  if nw < 0 then { g with pc := .ret (-4) } else { g with pc := .ret 0 }

end Seg

/-- The allocation of the segment's buffer. -/
def mallocBuf (g : Seg α) (a : Answer) : Option (Seg α) :=
  a.status.map fun ok => if ok then { g with pc := .read 0 } else { g with pc := .ret (-2) }

/-- One round of the loop of `fd_read`, called with the segment's offset and
length, and what `__do_mt_copy` makes of its value. Every round reads from the
segment's offset to the start of the buffer. -/
def fdRead (src : List α) (tr : ℕ) (g : Seg α) (a : Answer) : Option (Seg α) :=
  (a.transfer (min g.len (src.length - g.startOffset))).map fun r =>
    match fdReadRound g.len tr r with
    | .again tr' => { g.readBytes src (r.getD 0) with pc := .read tr' }
    | .value v => (g.readBytes src (r.getD 0)).gotRead v

/-- One round of the loop of `fd_write`, called for `nr` bytes at the segment's
offset, and what `__do_mt_copy` makes of its value. Every round writes from the
start of the buffer to the segment's offset. -/
def fdWrite [Zero α] (nr tw : ℕ) (g : Seg α) (w : Dest α) (a : Answer) :
    Option (Seg α × Dest α) :=
  (a.transfer nr).map fun r =>
    let w' := match r with
      | none => w
      | some wr => w.pwrite g.startOffset (slice g.buf wr)
    match fdWriteRound nr tw r with
    | .again tw' => ({ g with pc := .write nr tw' }, w')
    | .value v => (g.gotWrite v, w')

/-- `__do_mt_copy`. -/
def segStep [Zero α] (src : List α) (g : Seg α) (w : Dest α) (a : Answer) :
    Option (Seg α × Dest α) :=
  match g.pc with
  | .malloc => (mallocBuf g a).map fun g' => (g', w)
  | .read tr => (fdRead src tr g a).map fun g' => (g', w)
  | .write nr tw => fdWrite nr tw g w a
  | .ret _ => none

/-! ### The worker threads -/

/-- What a worker is doing. -/
inductive Phase (α : Type*) where
  /-- Copying its own segment. -/
  | segment (g : Seg α)
  /-- Copying the bytes that remain after all the segments. -/
  | remainder (g : Seg α)
  /-- The thread has exited. -/
  | exited

/-- A worker thread: its `stToThread` structure, less the file descriptors, and
what it is doing. -/
structure Worker (α : Type*) where
  thrdnum : ℕ
  thrdtotal : ℕ
  startOffset : ℕ
  len : ℕ
  rem : ℕ
  phase : Phase α

/-- The thread `i` of `numthrds` as `do_mt_copy` starts it on a file of `fsize`
bytes. -/
def Worker.init (numthrds fsize i : ℕ) (heap : ℕ → ℕ → ℕ → α) : Worker α :=
  { thrdnum := i
    thrdtotal := numthrds
    startOffset := i * (fsize / numthrds)
    len := fsize / numthrds
    rem := fsize % numthrds
    phase := .segment (Seg.call (i * (fsize / numthrds)) (fsize / numthrds) (heap i 0)) }

/-- `worker` after `__do_mt_copy` has returned from the segment, whatever it
returned: the last thread goes on to the remainder, if there is one. -/
def Worker.afterSegment (heap : ℕ → ℕ → ℕ → α) (k : Worker α) : Phase α :=
  if k.rem ≠ 0 ∧ k.thrdnum = k.thrdtotal - 1 then
    .remainder (Seg.call (k.startOffset + k.len) k.rem (heap k.thrdnum 1))
  else .exited

/-- `worker`. -/
def workerStep [Zero α] (src : List α) (heap : ℕ → ℕ → ℕ → α) (k : Worker α) (w : Dest α)
    (a : Answer) : Option (Worker α × Dest α) :=
  match k.phase with
  | .segment g => (segStep src g w a).map fun r =>
    match r.1.pc with
    | .ret _ => ({ k with phase := k.afterSegment heap }, r.2)
    | _ => ({ k with phase := .segment r.1 }, r.2)
  | .remainder g => (segStep src g w a).map fun r =>
    match r.1.pc with
    | .ret _ => ({ k with phase := .exited }, r.2)
    | _ => ({ k with phase := .remainder r.1 }, r.2)
  | .exited => none

/-! ### The main thread, and the process -/

/-- Where `do_mt_copy` stands. -/
inductive MainPc where
  /-- About to allocate `ToThread[i]`. -/
  | calloc (i : ℕ)
  /-- That failed; `FATAL` is about to allocate its message. -/
  | callocFatal (i : ℕ)
  /-- About to create thread `i`, whose structure is filled in. -/
  | create (i : ℕ)
  /-- That failed; `FATAL` is about to allocate its message. -/
  | createFatal (i : ℕ)
  /-- About to join thread `i`. -/
  | join (i : ℕ)
  /-- Returned the value `v`. -/
  | ret (v : ℤ)
  /-- The process has exited with this status. -/
  | exited (status : ℤ)
  /-- The process was killed on writing through `ToThread[i]`, which is NULL. -/
  | segv (i : ℕ)
  /-- Joins a thread that was never created, by an identifier that was never stored:
  nothing is known of the process from here on. -/
  | undefined
  deriving DecidableEq, Repr

/-- The state of the process. The workers stand in the order of their numbers; a
worker that could not be created is `none`. -/
structure System (α : Type*) where
  main : MainPc
  workers : List (Option (Worker α))
  dest : Dest α

/-- `do_mt_copy` is called, with `old` in the destination file. -/
def System.start (old : List α) : System α := ⟨.calloc 0, [], ⟨old, []⟩⟩

/-- The control point after thread `i` has been dealt with in the creation loop. -/
def afterCreate (numthrds i : ℕ) : MainPc :=
  if i + 1 < numthrds then .calloc (i + 1) else .join 0

/-- The control point after thread `i` has been dealt with in the join loop. -/
def afterJoin (numthrds i : ℕ) : MainPc := if i + 1 < numthrds then .join (i + 1) else .ret 0

/-- `do_mt_copy`. When the allocation of `ToThread[i]` fails and `FATAL` comes
back, the next statement writes through the NULL pointer. Joining waits for the
thread to exit. Where `FATAL` comes back after a failed creation, `tid` of the thread
was never stored, and the join loop reads it. -/
def mainStep (numthrds fsize : ℕ) (heap : ℕ → ℕ → ℕ → α) (s : System α) (a : Answer) :
    Option (System α) :=
  match s.main with
  | .calloc i => a.status.map fun ok =>
    if ok then { s with main := .create i } else { s with main := .callocFatal i }
  | .callocFatal i => a.status.map fun ok =>
    match fatalControl ok with
    | .exits status => { s with main := .exited status }
    | .returns _ => { s with main := .segv i }
  | .create i => a.status.map fun ok =>
    if ok then
      { s with main := afterCreate numthrds i,
               workers := s.workers ++ [some (Worker.init numthrds fsize i heap)] }
    else { s with main := .createFatal i }
  | .createFatal i => a.status.map fun ok =>
    match fatalControl ok with
    | .exits status => { s with main := .exited status }
    | .returns _ => { s with main := afterCreate numthrds i, workers := s.workers ++ [none] }
  | .join i => a.status.bind fun ok =>
    match s.workers[i]?, ok with
    | some (some k), true =>
      match k.phase with
      | .exited => some { s with main := afterJoin numthrds i }
      | _ => none
    | some none, _ => some { s with main := .undefined }
    | _, _ => none
  | .ret _ => none
  | .exited _ => none
  | .segv _ => none
  | .undefined => none

/-- A step of the worker `i`, in a process that is alive. -/
def threadStep [Zero α] (src : List α) (heap : ℕ → ℕ → ℕ → α) (s : System α) (i : ℕ)
    (a : Answer) : Option (System α) :=
  match s.workers[i]? with
  | some (some k) => (workerStep src heap k s.dest a).map fun r =>
    { s with workers := s.workers.set i (some r.1), dest := r.2 }
  | _ => none

/-- **The step function of the process.** A process that has exited, was killed or
is undefined makes no step. -/
def step [Zero α] (src : List α) (numthrds : ℕ) (heap : ℕ → ℕ → ℕ → α) (s : System α)
    (l : Thread × Answer) : Option (System α) :=
  match s.main with
  | .exited _ => none
  | .segv _ => none
  | .undefined => none
  | _ =>
    match l.1 with
    | .main => mainStep numthrds src.length heap s l.2
    | .worker i => threadStep src heap s i l.2

/-! ### What a step of a segment can do -/

section Cases

variable {src : List α} {g g' : Seg α} {w w' : Dest α} {a : Answer}

@[simp] theorem Seg.readBytes_zero (src : List α) (g : Seg α) : g.readBytes src 0 = g := by
  have hblit : blit g.buf ([] : List α) = g.buf := funext fun i => blit_of_le _ (Nat.zero_le i)
  simp [Seg.readBytes, hblit]

/-- **The three ways on from the read of a segment.** -/
theorem Seg.gotRead_cases (nr : ℤ) (g : Seg α) :
    (nr < 0 ∧ g.gotRead nr = { g with pc := .ret (-3) }) ∨
      (nr = 0 ∧ g.gotRead nr = { g with pc := .ret 0 }) ∨
      (0 < nr ∧ g.gotRead nr =
        { g with pc := .write nr.toNat 0, handed := g.handed ++ [nr.toNat] }) := by
  rcases lt_trichotomy nr 0 with h | h | h
  · exact Or.inl ⟨h, by rw [Seg.gotRead, if_pos h]⟩
  · exact Or.inr (Or.inl ⟨h, by rw [Seg.gotRead, if_neg (by omega), if_pos h]⟩)
  · exact Or.inr (Or.inr ⟨h, by rw [Seg.gotRead, if_neg (by omega), if_neg (by omega)]⟩)

/-- **The two ways on from the write of a segment**: both return. -/
theorem Seg.gotWrite_cases (nw : ℤ) (g : Seg α) :
    (nw < 0 ∧ g.gotWrite nw = { g with pc := .ret (-4) }) ∨
      (0 ≤ nw ∧ g.gotWrite nw = { g with pc := .ret 0 }) := by
  rcases lt_or_ge nw 0 with h | h
  · exact Or.inl ⟨h, by rw [Seg.gotWrite, if_pos h]⟩
  · exact Or.inr ⟨h, by rw [Seg.gotWrite, if_neg (by omega)]⟩

theorem mallocBuf_cases (h : mallocBuf g a = some g') :
    (a = .ok ∧ g' = { g with pc := .read 0 }) ∨ (a = .err ∧ g' = { g with pc := .ret (-2) }) := by
  cases a <;> simp_all [mallocBuf, Answer.status]

/-- **One round of `fd_read`** on a segment. -/
theorem fdRead_cases {tr : ℕ} (h : fdRead src tr g a = some g') :
    (a = .fail ∧ g' = { g with pc := .ret (-3) }) ∨
      ∃ rd, a.transfer (min g.len (src.length - g.startOffset)) = some (some rd) ∧
        ((rd = 0 ∧ g' = g.gotRead (toInt tr)) ∨
          (0 < rd ∧ tr + rd < g.len ∧ g' = { g.readBytes src rd with pc := .read (tr + rd) }) ∨
          (0 < rd ∧ g.len ≤ tr + rd ∧
            g' = (g.readBytes src rd).gotRead (toInt (tr + rd)))) := by
  obtain ⟨r, hr, rfl⟩ := Option.map_eq_some_iff.mp h
  rcases r with _ | rd
  · exact Or.inl ⟨Answer.eq_fail_of_transfer hr, by simp [fdReadRound, Seg.gotRead]⟩
  · refine Or.inr ⟨rd, hr, ?_⟩
    rcases fdReadRound_cases g.len tr rd with ⟨rfl, heq⟩ | ⟨hpos, hlt, heq⟩ | ⟨hpos, hge, heq⟩ <;>
      rw [heq]
    · exact Or.inl ⟨rfl, by simp⟩
    · exact Or.inr (Or.inl ⟨hpos, hlt, rfl⟩)
    · exact Or.inr (Or.inr ⟨hpos, hge, rfl⟩)

/-- **One round of `fd_write`** on a segment. -/
theorem fdWrite_cases [Zero α] {nr tw : ℕ} (h : fdWrite nr tw g w a = some (g', w')) :
    (a = .fail ∧ g' = { g with pc := .ret (-4) } ∧ w' = w) ∨
      ∃ wr, a.transfer nr = some (some wr) ∧ w' = w.pwrite g.startOffset (slice g.buf wr) ∧
        ((tw + wr < nr ∧ g' = { g with pc := .write nr (tw + wr) }) ∨
          (nr ≤ tw + wr ∧ g' = g.gotWrite (toInt (tw + wr)))) := by
  obtain ⟨r, hr, heq⟩ := Option.map_eq_some_iff.mp h
  rcases r with _ | wr
  · obtain ⟨rfl, rfl⟩ := Prod.mk.inj heq
    exact Or.inl ⟨Answer.eq_fail_of_transfer hr, by simp [Seg.gotWrite], rfl⟩
  · refine Or.inr ⟨wr, hr, ?_⟩
    rcases fdWriteRound_cases nr tw wr with ⟨hlt, hround⟩ | ⟨hge, hround⟩ <;>
      rw [hround] at heq <;> obtain ⟨rfl, rfl⟩ := Prod.mk.inj heq
    · exact ⟨rfl, Or.inl ⟨hlt, rfl⟩⟩
    · exact ⟨rfl, Or.inr ⟨hge, rfl⟩⟩

end Cases

/-! ### The copier does not look at the bytes -/

section Map

variable {β : Type*} {φ : α → β}

/-- The same call, with the bytes replaced. -/
def Seg.map (φ : α → β) (g : Seg α) : Seg β :=
  ⟨g.startOffset, g.len, g.pc, fun i => φ (g.buf i), g.handed⟩

/-- The same destination, with the bytes replaced. -/
def Dest.map (φ : α → β) (w : Dest α) : Dest β :=
  ⟨w.file.map φ, w.writes.map fun x => (x.1, x.2.map φ)⟩

/-- The same activity, with the bytes replaced. -/
def Phase.map (φ : α → β) : Phase α → Phase β
  | .segment g => .segment (g.map φ)
  | .remainder g => .remainder (g.map φ)
  | .exited => .exited

/-- The same worker, with the bytes replaced. -/
def Worker.map (φ : α → β) (k : Worker α) : Worker β :=
  ⟨k.thrdnum, k.thrdtotal, k.startOffset, k.len, k.rem, k.phase.map φ⟩

/-- The same process, with the bytes replaced. -/
def System.map (φ : α → β) (s : System α) : System β :=
  ⟨s.main, s.workers.map (Option.map (Worker.map φ)), s.dest.map φ⟩

@[simp] theorem Seg.map_pc (g : Seg α) : (g.map φ).pc = g.pc := rfl

theorem Seg.map_call (off len : ℕ) (heap : ℕ → α) :
    (Seg.call off len heap).map φ = Seg.call off len fun i => φ (heap i) := rfl

theorem Seg.map_readBytes (src : List α) (rd : ℕ) (g : Seg α) :
    (g.map φ).readBytes (src.map φ) rd = (g.readBytes src rd).map φ := by
  simp only [Seg.readBytes, Seg.map, ← List.map_drop, ← List.map_take, blit_map]

theorem Seg.map_gotRead (nr : ℤ) (g : Seg α) :
    (g.map φ).gotRead nr = (g.gotRead nr).map φ := by
  rw [Seg.gotRead, Seg.gotRead]
  split_ifs <;> rfl

theorem Seg.map_gotWrite (nw : ℤ) (g : Seg α) :
    (g.map φ).gotWrite nw = (g.gotWrite nw).map φ := by
  rw [Seg.gotWrite, Seg.gotWrite]
  split_ifs <;> rfl

theorem mallocBuf_map (g : Seg α) (a : Answer) :
    mallocBuf (g.map φ) a = (mallocBuf g a).map (Seg.map φ) := by
  cases a <;> rfl

theorem fdRead_map (src : List α) (tr : ℕ) (g : Seg α) (a : Answer) :
    fdRead (src.map φ) tr (g.map φ) a = (fdRead src tr g a).map (Seg.map φ) := by
  have hlen : (g.map φ).len = g.len := rfl
  have hoff : (g.map φ).startOffset = g.startOffset := rfl
  rw [fdRead, fdRead, List.length_map, hlen, hoff]
  rcases a.transfer (min g.len (src.length - g.startOffset)) with _ | r
  · rfl
  · simp only [Option.map_some, Seg.map_readBytes, Seg.map_gotRead]
    cases fdReadRound g.len tr r <;> rfl

variable [Zero α] [Zero β]

theorem Dest.map_pwrite (hφ : φ 0 = 0) (off : ℕ) (d : List α) (w : Dest α) :
    (w.map φ).pwrite off (d.map φ) = (w.pwrite off d).map φ := by
  simp only [Dest.pwrite, Dest.map, overwrite_map hφ, List.map_cons]

theorem fdWrite_map (hφ : φ 0 = 0) (nr tw : ℕ) (g : Seg α) (w : Dest α) (a : Answer) :
    fdWrite nr tw (g.map φ) (w.map φ) a =
      (fdWrite nr tw g w a).map (Prod.map (Seg.map φ) (Dest.map φ)) := by
  rw [fdWrite, fdWrite]
  rcases a.transfer nr with _ | r
  · rfl
  · have hdest : (match r with
        | none => w.map φ
        | some wr => (w.map φ).pwrite (g.map φ).startOffset (slice (g.map φ).buf wr)) =
        (match r with
        | none => w
        | some wr => w.pwrite g.startOffset (slice g.buf wr)).map φ := by
      cases r with
      | none => rfl
      | some wr =>
        change (w.map φ).pwrite g.startOffset (slice (fun i => φ (g.buf i)) wr) = _
        rw [slice_map, Dest.map_pwrite hφ]
    simp only [Option.map_some, hdest, Seg.map_gotWrite]
    cases fdWriteRound nr tw r <;> rfl

/-- **Replacing the bytes commutes with every step of `__do_mt_copy`.** -/
theorem segStep_map (hφ : φ 0 = 0) (src : List α) (g : Seg α) (w : Dest α) (a : Answer) :
    segStep (src.map φ) (g.map φ) (w.map φ) a =
      (segStep src g w a).map (Prod.map (Seg.map φ) (Dest.map φ)) := by
  rw [segStep, segStep, Seg.map_pc]
  cases g.pc with
  | malloc =>
    change (mallocBuf (g.map φ) a).map (fun g' => (g', w.map φ)) =
      ((mallocBuf g a).map fun g' => (g', w)).map _
    rw [mallocBuf_map, Option.map_map, Option.map_map]
    rfl
  | read tr =>
    change (fdRead (src.map φ) tr (g.map φ) a).map (fun g' => (g', w.map φ)) =
      ((fdRead src tr g a).map fun g' => (g', w)).map _
    rw [fdRead_map, Option.map_map, Option.map_map]
    rfl
  | write nr tw => exact fdWrite_map hφ nr tw g w a
  | ret v => rfl

omit [Zero α] [Zero β] in
theorem Worker.map_afterSegment (heap : ℕ → ℕ → ℕ → α) (k : Worker α) :
    (k.map φ).afterSegment (fun i c j => φ (heap i c j)) = (k.afterSegment heap).map φ := by
  rw [Worker.afterSegment, Worker.afterSegment, apply_ite (Phase.map φ)]
  rfl

theorem workerStep_map (hφ : φ 0 = 0) (src : List α) (heap : ℕ → ℕ → ℕ → α) (k : Worker α)
    (w : Dest α) (a : Answer) :
    workerStep (src.map φ) (fun i c j => φ (heap i c j)) (k.map φ) (w.map φ) a =
      (workerStep src heap k w a).map (Prod.map (Worker.map φ) (Dest.map φ)) := by
  have hphase : (k.map φ).phase = k.phase.map φ := rfl
  rw [workerStep, workerStep, hphase]
  cases k.phase with
  | segment g =>
    simp only [Phase.map, segStep_map hφ]
    rcases segStep src g w a with _ | ⟨g', w'⟩
    · rfl
    · simp only [Option.map_some, Prod.map_apply, Seg.map_pc, Worker.map_afterSegment]
      cases g'.pc <;> rfl
  | remainder g =>
    simp only [Phase.map, segStep_map hφ]
    rcases segStep src g w a with _ | ⟨g', w'⟩
    · rfl
    · simp only [Option.map_some, Prod.map_apply, Seg.map_pc]
      cases g'.pc <;> rfl
  | exited => rfl

theorem threadStep_map (hφ : φ 0 = 0) (src : List α) (heap : ℕ → ℕ → ℕ → α) (s : System α)
    (i : ℕ) (a : Answer) :
    threadStep (src.map φ) (fun i c j => φ (heap i c j)) (s.map φ) i a =
      (threadStep src heap s i a).map (System.map φ) := by
  have hget : (s.map φ).workers[i]? = (s.workers[i]?).map (Option.map (Worker.map φ)) :=
    List.getElem?_map
  rw [threadStep, threadStep, hget]
  rcases s.workers[i]? with _ | _ | k
  · rfl
  · rfl
  · change (workerStep (src.map φ) _ (k.map φ) (s.dest.map φ) a).map _ =
      ((workerStep src heap k s.dest a).map _).map _
    rw [workerStep_map hφ]
    rcases workerStep src heap k s.dest a with _ | ⟨k', w'⟩
    · rfl
    · simp [System.map, List.map_set]

omit [Zero α] [Zero β] in
theorem mainStep_map (numthrds fsize : ℕ) (heap : ℕ → ℕ → ℕ → α) (s : System α) (a : Answer) :
    mainStep numthrds fsize (fun i c j => φ (heap i c j)) (s.map φ) a =
      (mainStep numthrds fsize heap s a).map (System.map φ) := by
  have hmain : (s.map φ).main = s.main := rfl
  rw [mainStep, mainStep, hmain]
  cases s.main with
  | calloc i => rcases a.status with _ | _ | _ <;> rfl
  | callocFatal i => rcases a.status with _ | _ | _ <;> rfl
  | create i =>
    rcases a.status with _ | _ | _
    · rfl
    · rfl
    · simp [System.map, Worker.init, Worker.map, Phase.map, Seg.map_call]
  | createFatal i =>
    rcases a.status with _ | _ | _
    · rfl
    · simp [System.map, fatalControl]
    · rfl
  | join i =>
    have hget : (s.map φ).workers[i]? = (s.workers[i]?).map (Option.map (Worker.map φ)) :=
      List.getElem?_map
    simp only [hget]
    rcases a.status with _ | ok
    · rfl
    · rcases s.workers[i]? with _ | _ | k
      · rfl
      · cases ok <;> rfl
      · -- whether the thread has exited does not depend on the bytes
        have hphase : (k.map φ).phase = k.phase.map φ := rfl
        cases ok
        · rfl
        · simp only [Option.map_some, Option.bind_some, hphase]
          cases k.phase <;> rfl
  | ret v => rfl
  | exited status => rfl
  | segv i => rfl
  | undefined => rfl

/-- **Replacing the bytes commutes with every step of the process.** -/
theorem step_map (hφ : φ 0 = 0) (src : List α) (numthrds : ℕ) (heap : ℕ → ℕ → ℕ → α)
    (s : System α) (l : Thread × Answer) :
    step (src.map φ) numthrds (fun i c j => φ (heap i c j)) (s.map φ) l =
      (step src numthrds heap s l).map (System.map φ) := by
  obtain ⟨th, a⟩ := l
  have hmain : (s.map φ).main = s.main := rfl
  have h1 : mainStep numthrds (src.map φ).length (fun i c j => φ (heap i c j)) (s.map φ) a =
      (mainStep numthrds src.length heap s a).map (System.map φ) := by
    rw [List.length_map]
    exact mainStep_map numthrds src.length heap s a
  rw [step, step, hmain]
  cases th with
  | main => cases s.main <;> first | rfl | exact h1
  | worker i => cases s.main <;> first | rfl | exact threadStep_map hφ src heap s i a

end Map

end MtCopy

end SystemProgramming
