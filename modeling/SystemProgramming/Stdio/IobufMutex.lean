import Mathlib.Logic.Function.Basic
import SystemProgramming.Bytes
import SystemProgramming.Calls
import SystemProgramming.HandleErr
import SystemProgramming.Mutex
import SystemProgramming.Runs

/-!
# One buffer for all threads

`mt_iobuf_mtx` (`ch16/`): the threads read blocks of a stream to one global buffer
and write them to a file, each with a critical section for the read and another one
for the write. The header says that the lock renders the function thread safe. But
the lock is given back *between* the two sections, with the block still in the
buffer, and another thread's read may come in between.

The process is one step function (`SystemProgramming.IobufMtx.step`); a step is one
call of one thread. It covers the error paths, too:

* a read of nothing is answered with `FATAL`, and when that comes back the thread
  goes on to write no bytes;
* a write of nothing frees the buffer – which is every thread's – and gives the lock
  back *before* it asks for the reason, and once more when there is none or `FATAL`
  has come back.

Both streams and the buffer are looked at by calls only while they are there:
`SystemProgramming.IobufMtx.End.undefined` is where a process ends up that uses a
freed buffer or a stream that was not opened, frees twice, gives back a lock it does
not hold, or joins a thread that was not created.

The process carries the list of the blocks read, and that of the blocks written,
each with its thread and its iteration. In the runs in which no thread reads while
another one has a block in the buffer that it has not written, the two agree
(`SystemProgramming.IobufMtx.blocks_kept`).
-/

namespace SystemProgramming

open Bytes HandleErr Runs

namespace IobufMtx

variable {α : Type*}

/-- The size of the buffer, and the request of every read. -/
def NREAD : ℕ := 512

/-! ### The process -/

/-- Where a thread stands in `testit_mt_mtx`, in the iteration `i`: about to make a
call. -/
inductive Pc where
  /-- The thread has not been created. -/
  | absent
  /-- About to lock for the read. -/
  | lockRead (i : ℕ)
  /-- About to read. -/
  | fread (i : ℕ)
  /-- About to unlock, `fnr` bytes having been read. -/
  | unlockRead (i fnr : ℕ)
  /-- Nothing was read; `FATAL` is about to allocate its message. -/
  | freadFatal (i : ℕ)
  /-- About to lock for the write. -/
  | lockWrite (i fnr : ℕ)
  /-- About to write `fnr` bytes. -/
  | fwrite (i fnr : ℕ)
  /-- Nothing was written; about to free the buffer. -/
  | free (i : ℕ)
  /-- About to unlock, the buffer being freed. -/
  | unlockFreed (i : ℕ)
  /-- About to ask whether the file is at its end. -/
  | feof (i : ℕ)
  /-- About to ask whether the file is in error. -/
  | ferror (i : ℕ)
  /-- It is; `FATAL` is about to allocate its message. -/
  | fwriteFatal (i : ℕ)
  /-- About to unlock at the end of the iteration. -/
  | unlockWrite (i : ℕ)
  /-- The thread has exited. -/
  | exited
  deriving DecidableEq, Repr

/-- The head of the loop, where `i` iterations have been made. -/
def Pc.iteration (numio i : ℕ) : Pc := if i < numio then .lockRead i else .exited

/-- Where the main thread stands. -/
inductive MainPc where
  /-- About to allocate the buffer. -/
  | malloc
  /-- That failed; `FATAL` is about to allocate its message. -/
  | mallocFatal
  /-- About to open the file. -/
  | fopenWrite
  /-- That failed. -/
  | fopenWriteFatal
  /-- About to open the stream. -/
  | fopenRead
  /-- That failed. -/
  | fopenReadFatal
  /-- About to allocate `ToThread[i]`. -/
  | calloc (i : ℕ)
  /-- That failed. -/
  | callocFatal (i : ℕ)
  /-- About to create the thread `i`. -/
  | create (i : ℕ)
  /-- That failed. -/
  | createFatal (i : ℕ)
  /-- About to join the thread `i`. -/
  | join (i : ℕ)
  /-- About to destroy the mutex. -/
  | destroy
  /-- That failed. -/
  | destroyFatal
  /-- About to close both streams. -/
  | fclose
  /-- About to free the buffer. -/
  | free
  /-- The thread has exited. -/
  | exited
  deriving DecidableEq, Repr

/-- How a process ends. -/
inductive End where
  /-- It has exited with this status. -/
  | exited (status : ℤ)
  /-- It has done something whose effect is left open. -/
  | undefined
  deriving DecidableEq, Repr

/-- A block of bytes, with the thread and the iteration that it belongs to. -/
structure Block (α : Type*) where
  thread : ℕ
  iter : ℕ
  bytes : List α
  deriving DecidableEq

/-- The thread and the iteration of a block. -/
def Block.tag (b : Block α) : ℕ × ℕ := (b.thread, b.iter)

/-- The state of the process. -/
structure System (α : Type*) where
  main : MainPc
  pc : ℕ → Pc
  mylock : Mutex
  /-- What `gbuf` points to. -/
  gbuf : Buf
  /-- The memory from the address of the buffer on. -/
  mem : ℕ → α
  /-- The file is open. -/
  wfp : Bool
  /-- The stream is open. -/
  rfp : Bool
  /-- How much of the stream has been read. -/
  rdOff : ℕ
  /-- What has been appended to the file. -/
  out : List α
  /-- The blocks read. -/
  reads : List (Block α)
  /-- The blocks written. -/
  writes : List (Block α)
  ended : Option End

namespace System

/-- `main` has accepted its argument; `junk` is in the memory it is going to get. -/
def start (junk : ℕ → α) : System α :=
  ⟨.malloc, fun _ => .absent, .free, .null, junk, false, false, 0, [], [], [], none⟩

/-- The thread `t` goes on to `p`. -/
def goto (s : System α) (t : ℕ) (p : Pc) : System α := { s with pc := Function.update s.pc t p }

/-- The process does something whose effect is left open. -/
def undefined (s : System α) : System α := { s with ended := some .undefined }

/-- A call of `FATAL`, with the state it leaves when it comes back. -/
def fatal (s : System α) (a : Answer) (back : System α) : Option (System α) :=
  afterFatal a (fun status => { s with ended := some (.exited status) }) back

/-- How much a read could deliver. -/
def most (stream : List α) (s : System α) : ℕ := min NREAD (stream.length - s.rdOff)

/-- How much a read does deliver, by the answer it gets. -/
def delivers (stream : List α) (s : System α) (a : Answer) : ℕ :=
  ((a.transfer (s.most stream)).getD none).getD 0

/-- The thread `t` has read the next `fnr` bytes of the stream to the buffer. -/
def gotRead (stream : List α) (t i fnr : ℕ) (s : System α) : System α :=
  let d := (stream.drop s.rdOff).take fnr
  { s.goto t (.unlockRead i fnr) with
    mem := blit s.mem d, rdOff := s.rdOff + fnr, reads := s.reads ++ [⟨t, i, d⟩] }

/-- The thread `t` has appended the first `fnw` bytes of the buffer to the file. -/
def gotWrite (t i fnw : ℕ) (s : System α) : System α :=
  let d := slice s.mem fnw
  { s.goto t (if fnw = 0 then .free i else .unlockWrite i) with
    out := s.out ++ d, writes := s.writes ++ [⟨t, i, d⟩] }

end System

/-- A lock of the thread `t`. -/
def lock (t : ℕ) (p : Pc) (s : System α) : Option (System α) :=
  (s.mylock.lock (.worker t)).map fun m => { s.goto t p with mylock := m }

/-- An unlock of the thread `t`. -/
def unlock (t : ℕ) (p : Pc) (s : System α) : System α :=
  match s.mylock.unlock (.worker t) with
  | some m => { s.goto t p with mylock := m }
  | none => s.undefined

/-- `testit_mt_mtx`, run by the thread `t`. The calls that print are left out, and so
are the answers that a lock can give only when it is used wrongly. -/
def testitMtMtx (stream : List α) (numio t : ℕ) (s : System α) (a : Answer) :
    Option (System α) :=
  match s.pc t, a with
  | .lockRead i, .ok => lock t (.fread i) s
  | .fread i, a =>
    if s.gbuf ≠ .live ∨ s.rfp = false then some s.undefined
    else (a.transfer (s.most stream)).map fun r => s.gotRead stream t i (r.getD 0)
  | .unlockRead i fnr, .ok =>
    some (unlock t (if fnr = 0 then .freadFatal i else .lockWrite i fnr) s)
  | .freadFatal i, a => s.fatal a (s.goto t (.lockWrite i 0))
  | .lockWrite i fnr, .ok => lock t (.fwrite i fnr) s
  | .fwrite i fnr, a =>
    if s.gbuf ≠ .live ∨ s.wfp = false then some s.undefined
    else (a.transfer fnr).map fun r => s.gotWrite t i (r.getD 0)
  | .free i, .ok =>
    match s.gbuf.free with
    | some b => some { s.goto t (.unlockFreed i) with gbuf := b }
    | none => some s.undefined
  | .unlockFreed i, .ok => some (unlock t (.feof i) s)
  | .feof i, a => a.status.map fun ok => s.goto t (if ok then .exited else .ferror i)
  | .ferror i, a => a.status.map fun ok => s.goto t (if ok then .fwriteFatal i else .unlockWrite i)
  | .fwriteFatal i, a => s.fatal a (s.goto t (.unlockWrite i))
  | .unlockWrite i, .ok => some (unlock t (.iteration numio (i + 1)) s)
  | _, _ => none

/-- The control point of `main` where `i` threads have been joined. -/
def joining (nthreads i : ℕ) : MainPc := if i < nthreads then .join i else .destroy

/-- The control point of `main` where `i` threads have been dealt with in the creation
loop. -/
def creation (nthreads i : ℕ) : MainPc := if i < nthreads then .calloc i else joining nthreads 0

/-- `main`, behind its check of the argument. -/
def mainStep (nthreads : ℕ) (numio : ℕ → ℕ) (s : System α) (a : Answer) : Option (System α) :=
  match s.main, a with
  | .malloc, a => a.status.map fun ok =>
    if ok then { s with main := .fopenWrite, gbuf := .live } else { s with main := .mallocFatal }
  | .mallocFatal, a => s.fatal a { s with main := .fopenWrite }
  | .fopenWrite, a => a.status.map fun ok =>
    if ok then { s with main := .fopenRead, wfp := true } else { s with main := .fopenWriteFatal }
  | .fopenWriteFatal, a => s.fatal a { s with main := .fopenRead }
  | .fopenRead, a => a.status.map fun ok =>
    if ok then { s with main := creation nthreads 0, rfp := true }
    else { s with main := .fopenReadFatal }
  | .fopenReadFatal, a => s.fatal a { s with main := creation nthreads 0 }
  | .calloc i, a => a.status.map fun ok =>
    { s with main := if ok then .create i else .callocFatal i }
  -- the next statement writes to `ToThread[i]`, which is NULL
  | .callocFatal _, a => s.fatal a s.undefined
  | .create i, a => a.status.map fun ok =>
    if ok then { s.goto i (.iteration (numio i) 0) with main := creation nthreads (i + 1) }
    else { s with main := .createFatal i }
  | .createFatal i, a => s.fatal a { s with main := creation nthreads (i + 1) }
  | .join i, .ok =>
    match s.pc i with
    | .exited => some { s with main := joining nthreads (i + 1) }
    | .absent => some s.undefined
    | _ => none
  | .destroy, a => a.status.map fun ok => { s with main := if ok then .fclose else .destroyFatal }
  | .destroyFatal, a => s.fatal a { s with main := .fclose }
  | .fclose, .ok =>
    if s.wfp = false ∨ s.rfp = false then some s.undefined else some { s with main := .free }
  | .free, .ok =>
    match s.gbuf.free with
    | some b => some { s with main := .exited, gbuf := b, ended := some (.exited 0) }
    | none => some s.undefined
  | _, _ => none

/-- **The step function of the process**, with `nthreads` threads of which the thread
`t` makes `numio t` iterations. -/
def step (stream : List α) (nthreads : ℕ) (numio : ℕ → ℕ) (s : System α) (l : Thread × Answer) :
    Option (System α) :=
  match s.ended with
  | some _ => none
  | none =>
    match l.1 with
    | .main => mainStep nthreads numio s l.2
    | .worker t => testitMtMtx stream (numio t) t s l.2

/-! ### What a step does to the blocks -/

/-- The iteration and the length of a block that has been read and not been written. -/
def Pc.unwritten : Pc → Option (ℕ × ℕ)
  | .unlockRead i fnr => some (i, fnr)
  | .freadFatal i => some (i, 0)
  | .lockWrite i fnr => some (i, fnr)
  | .fwrite i fnr => some (i, fnr)
  | _ => none

/-- The thread has made the read of the iteration `j`. -/
def Pc.HasRead (j : ℕ) : Pc → Prop
  | .absent => False
  | .lockRead i => j < i
  | .fread i => j < i
  | .unlockRead i _ => j ≤ i
  | .freadFatal i => j ≤ i
  | .lockWrite i _ => j ≤ i
  | .fwrite i _ => j ≤ i
  | .free i => j ≤ i
  | .unlockFreed i => j ≤ i
  | .feof i => j ≤ i
  | .ferror i => j ≤ i
  | .fwriteFatal i => j ≤ i
  | .unlockWrite i => j ≤ i
  | .exited => True

/-- The thread has made the write of the iteration `j`. -/
def Pc.HasWritten (j : ℕ) : Pc → Prop
  | .absent => False
  | .lockRead i => j < i
  | .fread i => j < i
  | .unlockRead i _ => j < i
  | .freadFatal i => j < i
  | .lockWrite i _ => j < i
  | .fwrite i _ => j < i
  | .free i => j ≤ i
  | .unlockFreed i => j ≤ i
  | .feof i => j ≤ i
  | .ferror i => j ≤ i
  | .fwriteFatal i => j ≤ i
  | .unlockWrite i => j ≤ i
  | .exited => True

/-- A thread goes on from `p` to `q` between its reads and its writes. -/
structure Advances (p q : Pc) : Prop where
  unwritten : q.unwritten = p.unwritten
  read : ∀ j, p.HasRead j → q.HasRead j
  written : ∀ j, p.HasWritten j → q.HasWritten j

/-- The step leaves the blocks, and what they are made of, as they are. -/
structure Frame (s s' : System α) : Prop where
  mem : s'.mem = s.mem
  rdOff : s'.rdOff = s.rdOff
  out : s'.out = s.out
  reads : s'.reads = s.reads
  writes : s'.writes = s.writes

/-- Which threads have not been created, by where the main thread stands. -/
def Uncreated (nthreads : ℕ) (pc : ℕ → Pc) : MainPc → Prop
  | .malloc | .mallocFatal => ∀ j, pc j = .absent
  | .fopenWrite | .fopenWriteFatal => ∀ j, pc j = .absent
  | .fopenRead | .fopenReadFatal => ∀ j, pc j = .absent
  | .calloc i | .callocFatal i => i < nthreads ∧ ∀ j, i ≤ j → pc j = .absent
  | .create i | .createFatal i => i < nthreads ∧ ∀ j, i ≤ j → pc j = .absent
  | _ => ∀ j, nthreads ≤ j → pc j = .absent

/-- The threads that the main thread has joined have exited. -/
def Joined (nthreads : ℕ) (pc : ℕ → Pc) : MainPc → Prop
  | .join i => ∀ t < i, pc t = .exited
  | .destroy | .destroyFatal | .fclose | .free => ∀ t < nthreads, pc t = .exited
  | _ => True

section Cases

variable {stream : List α} {nthreads : ℕ} {numio : ℕ → ℕ} {s s' : System α} {a : Answer}

theorem Advances.refl (p : Pc) : Advances p p := ⟨rfl, fun _ => id, fun _ => id⟩

theorem Frame.refl (s : System α) : Frame s s := ⟨rfl, rfl, rfl, rfl, rfl⟩

theorem advances_iteration (n i : ℕ) : Advances (.unlockWrite i) (.iteration n (i + 1)) := by
  rw [Pc.iteration]
  split_ifs
  · exact ⟨rfl, fun _ => Nat.lt_succ_of_le, fun _ => Nat.lt_succ_of_le⟩
  · exact ⟨rfl, fun _ _ => trivial, fun _ _ => trivial⟩

theorem advances_absent (n : ℕ) : Advances .absent (.iteration n 0) := by
  rw [Pc.iteration]
  split_ifs <;> exact ⟨rfl, fun _ h => h.elim, fun _ h => h.elim⟩

/-- A step of one thread leaves the others where they are. -/
theorem advances_update {pc : ℕ → Pc} {t : ℕ} {p : Pc} (h : Advances (pc t) p) (j : ℕ) :
    Advances (pc j) (Function.update pc t p j) :=
  forall_update (P := fun j q => Advances (pc j) q) (fun _ => Advances.refl _) h j

/-- A thread that does not stand at `q` is not one of those that do. -/
theorem update_keep {pc : ℕ → Pc} {t j : ℕ} {q : Pc} (hj : pc j = q) (ht : pc t ≠ q) (p : Pc) :
    Function.update pc t p j = q := by
  have hne : j ≠ t := by
    rintro rfl
    exact ht hj
  rwa [Function.update_of_ne hne]

/-- A step of a thread that has been created creates none. -/
theorem Uncreated.update {pc : ℕ → Pc} {m : MainPc} {t : ℕ} (h : Uncreated nthreads pc m)
    (ht : pc t ≠ .absent) (p : Pc) : Uncreated nthreads (Function.update pc t p) m := by
  cases m <;>
    first
      | exact fun j => update_keep (h j) ht p
      | exact fun j hj => update_keep (h j hj) ht p
      | exact ⟨h.1, fun j hj => update_keep (h.2 j hj) ht p⟩

theorem uncreated_joining {pc : ℕ → Pc} {i : ℕ} (h : ∀ j, nthreads ≤ j → pc j = .absent) :
    Uncreated nthreads pc (joining nthreads i) := by
  rw [joining]
  split_ifs <;> exact h

theorem uncreated_creation {pc : ℕ → Pc} {i : ℕ} (hi : i ≤ nthreads)
    (h : ∀ j, i ≤ j → pc j = .absent) : Uncreated nthreads pc (creation nthreads i) := by
  rw [creation]
  split_ifs with hlt
  · exact ⟨hlt, h⟩
  · exact uncreated_joining fun j hj => h j (hi.trans hj)

theorem joined_joining {pc : ℕ → Pc} {i : ℕ} (h : ∀ t < i, pc t = .exited) :
    Joined nthreads pc (joining nthreads i) := by
  rw [joining]
  split_ifs with hi
  · exact h
  · exact fun t ht => h t (by omega)

theorem joined_creation {pc : ℕ → Pc} (i : ℕ) : Joined nthreads pc (creation nthreads i) := by
  rw [creation]
  split_ifs
  · trivial
  · exact joined_joining fun t ht => absurd ht (Nat.not_lt_zero t)

theorem joining_ne_free (nthreads i : ℕ) : joining nthreads i ≠ .free := by
  rw [joining]
  split_ifs <;> simp

theorem creation_ne_free (nthreads i : ℕ) : creation nthreads i ≠ .free := by
  rw [creation]
  split_ifs
  · simp
  · exact joining_ne_free nthreads 0

/-- **What a step of the main thread may be**, from the control point `m`. -/
inductive MainMove (nthreads : ℕ) (s : System α) (m : MainPc) : System α → Prop where
  /-- It goes on. -/
  | goto (m' : MainPc) : (Uncreated nthreads s.pc m → Uncreated nthreads s.pc m') →
      (Joined nthreads s.pc m → Joined nthreads s.pc m') → (m' = .free → m = .fclose) →
      MainMove nthreads s m { s with main := m' }
  /-- Before it has created a thread, it gets the buffer, or opens a stream. -/
  | early (m' : MainPc) (b : Buf) (w r : Bool) :
      (Uncreated nthreads s.pc m → ∀ j, s.pc j = .absent) →
      (Uncreated nthreads s.pc m → Uncreated nthreads s.pc m') → Joined nthreads s.pc m' →
      m' ≠ .free → (b = .freed → s.gbuf = .freed) → (s.wfp = true → w = true) →
      (s.rfp = true → r = true) →
      MainMove nthreads s m { s with main := m', gbuf := b, wfp := w, rfp := r }
  /-- It creates the thread `i`, which makes `n` iterations. -/
  | create (i n : ℕ) : m = .create i →
      MainMove nthreads s m { s.goto i (.iteration n 0) with main := creation nthreads (i + 1) }
  /-- The process ends. -/
  | ends (e : End) : MainMove nthreads s m { s with ended := some e }
  /-- It ends in the regular way. -/
  | exits (b : Buf) : m = .free →
      MainMove nthreads s m { s with main := .exited, gbuf := b, ended := some (.exited 0) }

theorem mainMove_fatal {m m' : MainPc} (h : s.fatal a { s with main := m' } = some s')
    (hU : Uncreated nthreads s.pc m → Uncreated nthreads s.pc m')
    (hJ : Joined nthreads s.pc m → Joined nthreads s.pc m') (hfree : m' ≠ .free) :
    MainMove nthreads s m s' := by
  rcases afterFatal_cases h with rfl | rfl
  · exact .goto m' hU hJ fun heq => absurd heq hfree
  · exact .ends _

/-- **The steps of the main thread**, one by one. -/
theorem mainStep_move (h : mainStep nthreads numio s a = some s') :
    MainMove nthreads s s.main s' := by
  unfold mainStep at h
  cases hm : s.main <;> simp only [hm] at h
  case malloc =>
    obtain ⟨ok, -, rfl⟩ := Option.map_eq_some_iff.mp h
    cases ok
    · exact .goto .mallocFatal id id (by simp)
    · exact .early .fopenWrite .live s.wfp s.rfp id id trivial (by simp) (by simp) id id
  case mallocFatal => exact mainMove_fatal h id id (by simp)
  case fopenWrite =>
    obtain ⟨ok, -, rfl⟩ := Option.map_eq_some_iff.mp h
    cases ok
    · exact .goto .fopenWriteFatal id id (by simp)
    · exact .early .fopenRead s.gbuf true s.rfp id id trivial (by simp) id (fun _ => rfl) id
  case fopenWriteFatal => exact mainMove_fatal h id id (by simp)
  case fopenRead =>
    obtain ⟨ok, -, rfl⟩ := Option.map_eq_some_iff.mp h
    cases ok
    · exact .goto .fopenReadFatal id id (by simp)
    · exact .early (creation nthreads 0) s.gbuf s.wfp true id
        (fun hU => uncreated_creation (Nat.zero_le _) fun j _ => hU j) (joined_creation 0)
        (creation_ne_free nthreads 0) id id fun _ => rfl
  case fopenReadFatal =>
    exact mainMove_fatal h (fun hU => uncreated_creation (Nat.zero_le _) fun j _ => hU j)
      (fun _ => joined_creation 0) (creation_ne_free nthreads 0)
  case calloc i =>
    obtain ⟨ok, -, rfl⟩ := Option.map_eq_some_iff.mp h
    cases ok
    · exact .goto (.callocFatal i) id id (by simp)
    · exact .goto (.create i) id id (by simp)
  case callocFatal i =>
    rcases afterFatal_cases h with rfl | rfl <;> exact .ends _
  case create i =>
    obtain ⟨ok, -, rfl⟩ := Option.map_eq_some_iff.mp h
    cases ok
    · exact .goto (.createFatal i) id id (by simp)
    · exact .create i (numio i) rfl
  case createFatal i =>
    exact mainMove_fatal h (fun hU => uncreated_creation hU.1 fun j hj => hU.2 j (by omega))
      (fun _ => joined_creation (i + 1)) (creation_ne_free nthreads (i + 1))
  case join i =>
    cases a <;> simp only [reduceCtorEq] at h
    cases hp : s.pc i <;> simp only [hp, Option.some.injEq, reduceCtorEq] at h
    · obtain rfl := h
      exact .ends _
    · obtain rfl := h
      refine .goto (joining nthreads (i + 1)) uncreated_joining (fun hJ => ?_)
        fun heq => absurd heq (joining_ne_free nthreads (i + 1))
      refine joined_joining fun t ht => ?_
      rcases Nat.lt_succ_iff_lt_or_eq.mp ht with hlt | rfl
      · exact hJ t hlt
      · exact hp
  case destroy =>
    obtain ⟨ok, -, rfl⟩ := Option.map_eq_some_iff.mp h
    cases ok
    · exact .goto .destroyFatal id id (by simp)
    · exact .goto .fclose id id (by simp)
  case destroyFatal => exact mainMove_fatal h id id (by simp)
  case fclose =>
    cases a <;> simp only [reduceCtorEq] at h
    split_ifs at h <;> obtain rfl := Option.some.inj h
    · exact .ends _
    · exact .goto .free id id fun _ => rfl
  case free =>
    cases a <;> simp only [reduceCtorEq] at h
    cases hfree : s.gbuf.free <;> rw [hfree] at h <;> obtain rfl := Option.some.inj h
    · exact .ends _
    · exact .exits _ rfl
  case exited => simp at h

/-- **A step of the main thread** leaves the blocks alone, and creates at most the
thread that is next. -/
theorem mainStep_cases (hU : Uncreated nthreads s.pc s.main)
    (h : mainStep nthreads numio s a = some s') :
    Uncreated nthreads s'.pc s'.main ∧ Frame s s' ∧ ∀ j, Advances (s.pc j) (s'.pc j) := by
  have hframe : ∀ m b w r e,
      Frame s { s with main := m, gbuf := b, wfp := w, rfp := r, ended := e } :=
    fun _ _ _ _ _ => ⟨rfl, rfl, rfl, rfl, rfl⟩
  cases mainStep_move h with
  | goto m' hU' => exact ⟨hU' hU, hframe _ _ _ _ _, fun j => Advances.refl _⟩
  | early m' b w r _ hU' => exact ⟨hU' hU, hframe _ _ _ _ _, fun j => Advances.refl _⟩
  | ends e => exact ⟨hU, hframe _ _ _ _ _, fun j => Advances.refl _⟩
  | exits b hm =>
    rw [hm] at hU
    exact ⟨hU, hframe _ _ _ _ _, fun j => Advances.refl _⟩
  | create i n hm =>
    rw [hm] at hU
    refine ⟨uncreated_creation hU.1 fun j hj => ?_, ⟨rfl, rfl, rfl, rfl, rfl⟩, fun j => ?_⟩
    · change Function.update s.pc i _ j = .absent
      rw [Function.update_of_ne (by omega)]
      exact hU.2 j (by omega)
    · refine advances_update ?_ j
      rw [hU.2 i le_rfl]
      exact advances_absent _

/-- An unlock moves the thread on, or is one whose effect is left open. -/
theorem unlock_cases (t : ℕ) (p : Pc) (s : System α) :
    (∃ m, unlock t p s = { s.goto t p with mylock := m }) ∨ unlock t p s = s.undefined := by
  rw [unlock]
  cases s.mylock.unlock (.worker t) with
  | some m => exact Or.inl ⟨m, rfl⟩
  | none => exact Or.inr rfl

/-- What a step of the thread `t` may be: its read, or its write, or one that leaves the
blocks alone. -/
def ThreadMove (stream : List α) (t : ℕ) (a : Answer) (s s' : System α) : Prop :=
  s.pc t ≠ .absent ∧ s'.main = s.main ∧ (∃ p, s'.pc = Function.update s.pc t p) ∧
    ((Frame s s' ∧ Advances (s.pc t) (s'.pc t)) ∨
      (∃ i, s.pc t = .fread i ∧ s' = s.gotRead stream t i (s.delivers stream a)) ∨
      ∃ i fnr r, s.pc t = .fwrite i fnr ∧ a.transfer fnr = some r ∧
        s' = s.gotWrite t i (r.getD 0))

theorem threadMove_goto {t : ℕ} {p q : Pc} (hp : s.pc t = q) (hq : q ≠ .absent)
    (h : Advances q p) (m : Mutex) (b : Buf) :
    ThreadMove stream t a s { s.goto t p with mylock := m, gbuf := b } := by
  refine ⟨hp ▸ hq, rfl, ⟨p, rfl⟩, Or.inl ⟨⟨rfl, rfl, rfl, rfl, rfl⟩, ?_⟩⟩
  change Advances (s.pc t) (Function.update s.pc t p t)
  rwa [Function.update_self, hp]

theorem threadMove_end {t : ℕ} {q : Pc} (hp : s.pc t = q) (hq : q ≠ .absent)
    (e : Option End) : ThreadMove stream t a s { s with ended := e } :=
  ⟨hp ▸ hq, rfl, ⟨s.pc t, (Function.update_eq_self t s.pc).symm⟩,
    Or.inl ⟨⟨rfl, rfl, rfl, rfl, rfl⟩, Advances.refl _⟩⟩

theorem threadMove_unlock {t : ℕ} {p q : Pc} (hp : s.pc t = q) (hq : q ≠ .absent)
    (h : Advances q p) : ThreadMove stream t a s (unlock t p s) := by
  rcases unlock_cases t p s with ⟨m, hm⟩ | hm <;> rw [hm]
  · exact threadMove_goto hp hq h m _
  · exact threadMove_end hp hq _

theorem threadMove_fatal {t : ℕ} {p q : Pc} (hp : s.pc t = q) (hq : q ≠ .absent)
    (h : Advances q p) (hf : s.fatal a (s.goto t p) = some s') : ThreadMove stream t a s s' := by
  rcases afterFatal_cases hf with rfl | rfl
  · exact threadMove_goto hp hq h _ _
  · exact threadMove_end hp hq _

/-- **A step of a thread** is its read, or its write, or leaves the blocks alone. -/
theorem testitMtMtx_cases {n t : ℕ} (h : testitMtMtx stream n t s a = some s') :
    ThreadMove stream t a s s' := by
  unfold testitMtMtx at h
  cases hp : s.pc t <;> simp only [hp] at h
  case absent => simp at h
  case lockRead i =>
    cases a <;> simp only [reduceCtorEq] at h
    obtain ⟨m, -, rfl⟩ := Option.map_eq_some_iff.mp h
    refine threadMove_goto hp (by simp) ?_ _ _
    exact ⟨rfl, fun _ => id, fun _ => id⟩
  case fread i =>
    split_ifs at h
    · obtain rfl := Option.some.inj h
      exact threadMove_end hp (by simp) _
    · obtain ⟨r, hr, rfl⟩ := Option.map_eq_some_iff.mp h
      refine ⟨by simp [hp], rfl, ⟨_, rfl⟩, Or.inr (Or.inl ⟨i, hp, ?_⟩)⟩
      rw [System.delivers, hr]
      rfl
  case unlockRead i fnr =>
    cases a <;> simp only [reduceCtorEq] at h
    obtain rfl := Option.some.inj h
    refine threadMove_unlock hp (by simp) ?_
    split_ifs with hzero
    · -- a read of nothing leaves a block of no bytes
      exact ⟨congrArg (fun k => some (i, k)) hzero.symm, fun _ => id, fun _ => id⟩
    · exact ⟨rfl, fun _ => id, fun _ => id⟩
  case freadFatal i =>
    refine threadMove_fatal hp (by simp) ?_ h
    exact ⟨rfl, fun _ => id, fun _ => id⟩
  case lockWrite i fnr =>
    cases a <;> simp only [reduceCtorEq] at h
    obtain ⟨m, -, rfl⟩ := Option.map_eq_some_iff.mp h
    refine threadMove_goto hp (by simp) ?_ _ _
    exact ⟨rfl, fun _ => id, fun _ => id⟩
  case fwrite i fnr =>
    split_ifs at h
    · obtain rfl := Option.some.inj h
      exact threadMove_end hp (by simp) _
    · obtain ⟨r, hr, rfl⟩ := Option.map_eq_some_iff.mp h
      exact ⟨by simp [hp], rfl, ⟨_, rfl⟩, Or.inr (Or.inr ⟨i, fnr, r, hp, hr, rfl⟩)⟩
  case free i =>
    cases a <;> simp only [reduceCtorEq] at h
    cases hfree : s.gbuf.free <;> rw [hfree] at h <;> obtain rfl := Option.some.inj h
    · exact threadMove_end hp (by simp) _
    · refine threadMove_goto hp (by simp) ?_ _ _
      exact ⟨rfl, fun _ => id, fun _ => id⟩
  case unlockFreed i =>
    cases a <;> simp only [reduceCtorEq] at h
    obtain rfl := Option.some.inj h
    refine threadMove_unlock hp (by simp) ?_
    exact ⟨rfl, fun _ => id, fun _ => id⟩
  case feof i =>
    obtain ⟨ok, -, rfl⟩ := Option.map_eq_some_iff.mp h
    refine threadMove_goto hp (by simp) ?_ _ _
    cases ok
    · exact ⟨rfl, fun _ => id, fun _ => id⟩
    · -- the end of the file: the loop is left
      exact ⟨rfl, fun _ _ => trivial, fun _ _ => trivial⟩
  case ferror i =>
    obtain ⟨ok, -, rfl⟩ := Option.map_eq_some_iff.mp h
    refine threadMove_goto hp (by simp) ?_ _ _
    cases ok <;> exact ⟨rfl, fun _ => id, fun _ => id⟩
  case fwriteFatal i =>
    refine threadMove_fatal hp (by simp) ?_ h
    exact ⟨rfl, fun _ => id, fun _ => id⟩
  case unlockWrite i =>
    cases a <;> simp only [reduceCtorEq] at h
    obtain rfl := Option.some.inj h
    exact threadMove_unlock hp (by simp) (advances_iteration n i)
  case exited => simp at h

/-- **One step of the process**, as far as the blocks are concerned. -/
theorem step_cases {l : Thread × Answer} (hU : Uncreated nthreads s.pc s.main)
    (h : step stream nthreads numio s l = some s') :
    Uncreated nthreads s'.pc s'.main ∧
      ((Frame s s' ∧ ∀ j, Advances (s.pc j) (s'.pc j)) ∨
        (∃ t i, l.1 = .worker t ∧ s.pc t = .fread i ∧
          s' = s.gotRead stream t i (s.delivers stream l.2)) ∨
        ∃ t i fnr r, l.1 = .worker t ∧ s.pc t = .fwrite i fnr ∧ l.2.transfer fnr = some r ∧
          s' = s.gotWrite t i (r.getD 0)) := by
  rw [step] at h
  obtain ⟨th, a⟩ := l
  cases he : s.ended with
  | some e => simp [he] at h
  | none =>
    simp only [he] at h
    cases th with
    | main =>
      obtain ⟨hU', hframe, hadv⟩ := mainStep_cases hU h
      exact ⟨hU', Or.inl ⟨hframe, hadv⟩⟩
    | worker t =>
      obtain ⟨hne, hmain, ⟨p, hpc⟩, hmove⟩ := testitMtMtx_cases h
      refine ⟨?_, ?_⟩
      · rw [hmain, hpc]
        exact hU.update hne p
      · rcases hmove with ⟨hframe, hadv⟩ | ⟨i, hp, heq⟩ | ⟨i, fnr, r, hp, hr, heq⟩
        · refine Or.inl ⟨hframe, fun j => ?_⟩
          rw [hpc, Function.update_self] at hadv
          rw [hpc]
          exact advances_update hadv j
        · exact Or.inr (Or.inl ⟨t, i, rfl, hp, heq⟩)
        · exact Or.inr (Or.inr ⟨t, i, fnr, r, rfl, hp, hr, heq⟩)

/-- The threads beyond the last one are never created. -/
theorem Uncreated.absent {pc : ℕ → Pc} {m : MainPc} {j : ℕ} (h : Uncreated nthreads pc m)
    (hj : nthreads ≤ j) : pc j = .absent := by
  cases m <;>
    first
      | exact h j
      | exact h j hj
      | exact h.2 j (h.1.le.trans hj)

end Cases

/-! ### The blocks of a run -/

/-- The number of bytes that the thread has read and not written. -/
def Pc.pending (p : Pc) : ℕ := (p.unwritten.getD (0, 0)).2

/-- The thread is about to read. -/
def Pc.isRead : Pc → Bool
  | .fread _ => true
  | _ => false

/-- The thread is about to write. -/
def Pc.isWrite : Pc → Bool
  | .fwrite _ _ => true
  | _ => false

/-- No thread but `t` has bytes in the buffer that it has not written. -/
def System.Quiet (nthreads t : ℕ) (s : System α) : Prop :=
  ∀ u < nthreads, u ≠ t → (s.pc u).pending = 0

/-- **No read comes between the read and the write of another thread**: when a step
delivers bytes to the buffer, no other thread has bytes in it that it has not
written. -/
def ReadsAlone (stream : List α) (nthreads : ℕ) (s : System α) (l : Thread × Answer) : Prop :=
  ∀ t < nthreads, l.1 = .worker t → (s.pc t).isRead = true → 0 < s.delivers stream l.2 →
    s.Quiet nthreads t

/-- Writes append all the bytes they are given. -/
def WritesAll (nthreads : ℕ) (s : System α) (l : Thread × Answer) : Prop :=
  ∀ t < nthreads, l.1 = .worker t → (s.pc t).isWrite = true → l.2 = .full

/-- **The blocks of a run agree**: the invariant of the runs whose reads are alone. -/
structure BlocksOk (stream : List α) (s : System α) : Prop where
  /-- What has been written is what the same thread read in the same iteration. -/
  kept : ∀ b ∈ s.writes, b ∈ s.reads
  /-- What is to be written is in the buffer. -/
  held : ∀ t i k, (s.pc t).unwritten = some (i, k) → ⟨t, i, slice s.mem k⟩ ∈ s.reads
  /-- What has been read has been written, or is to be written. -/
  left : ∀ b ∈ s.reads, b ∈ s.writes ∨ ∃ k, (s.pc b.thread).unwritten = some (b.iter, k)
  hasRead : ∀ b ∈ s.reads, (s.pc b.thread).HasRead b.iter
  hasWritten : ∀ b ∈ s.writes, (s.pc b.thread).HasWritten b.iter
  /-- A thread reads once in an iteration. -/
  readsNodup : (s.reads.map Block.tag).Nodup
  /-- A thread writes once in an iteration. -/
  writesNodup : (s.writes.map Block.tag).Nodup
  file : s.out = (s.writes.map Block.bytes).flatten
  stream : (s.reads.map Block.bytes).flatten = stream.take s.rdOff

section Blocks

variable {stream : List α} {nthreads : ℕ} {numio : ℕ → ℕ} {s s' : System α} {t i k : ℕ}

/-- A read does not go beyond the end of the stream. -/
theorem System.delivers_le (stream : List α) (s : System α) (a : Answer) :
    s.delivers stream a ≤ stream.length - s.rdOff := by
  have hmost : s.most stream ≤ stream.length - s.rdOff := Nat.min_le_right _ _
  rw [System.delivers]
  rcases h : a.transfer (s.most stream) with _ | _ | k
  · exact Nat.zero_le _
  · exact Nat.zero_le _
  · exact (Answer.transfer_le h).1.trans hmost

instance (nthreads t : ℕ) (s : System α) : Decidable (s.Quiet nthreads t) := by
  unfold System.Quiet
  infer_instance

instance (stream : List α) (nthreads : ℕ) (s : System α) :
    DecidablePred (ReadsAlone stream nthreads s) := fun l => by
  unfold ReadsAlone
  infer_instance

instance (nthreads : ℕ) (s : System α) : DecidablePred (WritesAll nthreads s) := fun l => by
  unfold WritesAll
  infer_instance

theorem blocksOk_start (junk : ℕ → α) : BlocksOk stream (System.start junk) where
  kept := by simp [System.start]
  held := by simp [System.start, Pc.unwritten]
  left := by simp [System.start]
  hasRead := by simp [System.start]
  hasWritten := by simp [System.start]
  readsNodup := List.nodup_nil
  writesNodup := List.nodup_nil
  file := rfl
  stream := rfl

theorem BlocksOk.frame (h : BlocksOk stream s) (hf : Frame s s')
    (hadv : ∀ j, Advances (s.pc j) (s'.pc j)) : BlocksOk stream s' where
  kept := by
    rw [hf.writes, hf.reads]
    exact h.kept
  held := by
    intro t i k hu
    rw [hf.mem, hf.reads]
    exact h.held t i k ((hadv t).unwritten ▸ hu)
  left := by
    rw [hf.writes, hf.reads]
    intro b hb
    rw [(hadv b.thread).unwritten]
    exact h.left b hb
  hasRead := by
    rw [hf.reads]
    exact fun b hb => (hadv b.thread).read _ (h.hasRead b hb)
  hasWritten := by
    rw [hf.writes]
    exact fun b hb => (hadv b.thread).written _ (h.hasWritten b hb)
  readsNodup := hf.reads ▸ h.readsNodup
  writesNodup := hf.writes ▸ h.writesNodup
  file := by
    rw [hf.out, hf.writes]
    exact h.file
  stream := by
    rw [hf.reads, hf.rdOff]
    exact h.stream

/-- A list of blocks with one more, of a thread and an iteration that are new to it. -/
theorem nodup_tag_append {bs : List (Block α)} {b : Block α} (h : (bs.map Block.tag).Nodup)
    (hnew : ∀ c ∈ bs, c.thread = b.thread → c.iter ≠ b.iter) :
    ((bs ++ [b]).map Block.tag).Nodup := by
  rw [List.map_append, List.map_singleton]
  refine h.append (List.nodup_singleton _) ?_
  rintro x hx hxb
  obtain rfl := List.mem_singleton.mp hxb
  obtain ⟨c, hc, htag⟩ := List.mem_map.mp hx
  obtain ⟨hthread, hiter⟩ := Prod.ext_iff.mp htag
  exact hnew c hc hthread hiter

/-- **A read** puts a block in the buffer, where nobody's is lost. -/
theorem BlocksOk.read (h : BlocksOk stream s) (hp : s.pc t = .fread i)
    (hk : k ≤ stream.length - s.rdOff)
    (halone : 0 < k → ∀ u, u ≠ t → (s.pc u).pending = 0) :
    BlocksOk stream (s.gotRead stream t i k) := by
  have hlen : ((stream.drop s.rdOff).take k).length = k := by
    rw [List.length_take, List.length_drop]
    omega
  have hself : (s.gotRead stream t i k).pc t = .unlockRead i k := Function.update_self _ _ _
  have hother : ∀ {u}, u ≠ t → (s.gotRead stream t i k).pc u = s.pc u :=
    fun hu => Function.update_of_ne hu _ _
  constructor
  case kept => exact fun b hb => List.mem_append_left _ (h.kept b hb)
  case held =>
    intro u j m hu
    rcases eq_or_ne u t with rfl | hne
    · rw [hself] at hu
      obtain ⟨rfl, rfl⟩ : i = j ∧ k = m := by simpa [Pc.unwritten] using hu
      refine List.mem_append_right _ (List.mem_singleton.mpr ?_)
      change Block.mk u i (slice (blit s.mem _) k) = _
      rw [slice_blit _ hlen.ge, List.take_take, Nat.min_self]
    · rw [hother hne] at hu
      refine List.mem_append_left _ ?_
      change Block.mk u j (slice (blit s.mem _) m) ∈ s.reads
      -- either nothing comes into the buffer, or nothing of `u` is in it
      rcases Nat.eq_zero_or_pos k with rfl | hpos
      · have hblit : blit s.mem ([] : List α) = s.mem :=
          funext fun x => blit_of_le _ (Nat.zero_le x)
        rw [List.take_zero, hblit]
        exact h.held u j m hu
      · have hm : m = 0 := by
          have hzero := halone hpos u hne
          rwa [Pc.pending, hu] at hzero
        subst hm
        exact h.held u j 0 hu
  case left =>
    intro b hb
    rcases List.mem_append.mp hb with hold | hnew
    · rcases h.left b hold with hw | ⟨m, hm⟩
      · exact Or.inl hw
      · refine Or.inr ⟨m, ?_⟩
        rw [hother, hm]
        rintro heq
        rw [heq, hp] at hm
        cases hm
    · obtain rfl := List.mem_singleton.mp hnew
      refine Or.inr ⟨k, ?_⟩
      rw [hself]
      rfl
  case hasRead =>
    intro b hb
    rcases List.mem_append.mp hb with hold | hnew
    · have hread := h.hasRead b hold
      rcases eq_or_ne b.thread t with heq | hne
      · rw [heq, hself]
        rw [heq, hp] at hread
        exact Nat.le_of_lt hread
      · rwa [hother hne]
    · obtain rfl := List.mem_singleton.mp hnew
      rw [hself]
      exact Nat.le_refl i
  case hasWritten =>
    intro b hb
    have hwritten := h.hasWritten b hb
    rcases eq_or_ne b.thread t with heq | hne
    · rw [heq, hself]
      rw [heq, hp] at hwritten
      exact hwritten
    · rwa [hother hne]
  case readsNodup =>
    refine nodup_tag_append h.readsNodup fun b hb hthread hiter => ?_
    have hread := h.hasRead b hb
    rw [hthread, hp, hiter] at hread
    exact Nat.lt_irrefl i hread
  case writesNodup => exact h.writesNodup
  case file => exact h.file
  case stream =>
    change ((s.reads ++ [_]).map Block.bytes).flatten = stream.take (s.rdOff + k)
    rw [List.map_append, List.flatten_append, h.stream, List.take_add]
    simp

/-- **A write** appends the block that its thread has read in the same iteration. -/
theorem BlocksOk.write (h : BlocksOk stream s) (hp : s.pc t = .fwrite i k) :
    BlocksOk stream (s.gotWrite t i k) := by
  have hread : Block.mk t i (slice s.mem k) ∈ s.reads := by
    refine h.held t i k ?_
    rw [hp]
    rfl
  have hself : (s.gotWrite t i k).pc t = (if k = 0 then .free i else .unlockWrite i) :=
    Function.update_self _ _ _
  have hother : ∀ {u}, u ≠ t → (s.gotWrite t i k).pc u = s.pc u :=
    fun hu => Function.update_of_ne hu _ _
  constructor
  case kept =>
    intro b hb
    rcases List.mem_append.mp hb with hold | hnew
    · exact h.kept b hold
    · obtain rfl := List.mem_singleton.mp hnew
      exact hread
  case held =>
    intro u j m hu
    rcases eq_or_ne u t with rfl | hne
    · rw [hself] at hu
      -- the thread has nothing left to write
      split_ifs at hu <;> cases hu
    · rw [hother hne] at hu
      exact h.held u j m hu
  case left =>
    intro b hb
    rcases h.left b hb with hw | ⟨m, hm⟩
    · exact Or.inl (List.mem_append_left _ hw)
    · rcases eq_or_ne b.thread t with heq | hne
      · -- the block is the one that has just been written
        rw [heq, hp] at hm
        obtain ⟨hiter, -⟩ : i = b.iter ∧ k = m := by simpa [Pc.unwritten] using hm
        have htag : b.tag = (Block.mk t i (slice s.mem k)).tag := by
          rw [Block.tag, Block.tag, heq, hiter]
        have hsame : b = ⟨t, i, slice s.mem k⟩ :=
          List.inj_on_of_nodup_map h.readsNodup hb hread htag
        exact Or.inl (List.mem_append_right _ (List.mem_singleton.mpr hsame))
      · refine Or.inr ⟨m, ?_⟩
        rwa [hother hne]
  case hasRead =>
    intro b hb
    have hreadb := h.hasRead b hb
    rcases eq_or_ne b.thread t with heq | hne
    · rw [heq, hself]
      rw [heq, hp] at hreadb
      split_ifs <;> exact hreadb
    · rwa [hother hne]
  case hasWritten =>
    intro b hb
    rcases List.mem_append.mp hb with hold | hnew
    · have hwritten := h.hasWritten b hold
      rcases eq_or_ne b.thread t with heq | hne
      · rw [heq, hself]
        rw [heq, hp] at hwritten
        split_ifs <;> exact Nat.le_of_lt hwritten
      · rwa [hother hne]
    · obtain rfl := List.mem_singleton.mp hnew
      rw [hself]
      split_ifs <;> exact Nat.le_refl i
  case readsNodup => exact h.readsNodup
  case writesNodup =>
    refine nodup_tag_append h.writesNodup fun b hb hthread hiter => ?_
    have hwritten := h.hasWritten b hb
    rw [hthread, hp, hiter] at hwritten
    exact Nat.lt_irrefl i hwritten
  case file =>
    change s.out ++ slice s.mem k = ((s.writes ++ [_]).map Block.bytes).flatten
    rw [List.map_append, List.flatten_append, ← h.file]
    simp
  case stream => exact h.stream

theorem BlocksOk.step {l : Thread × Answer} (h : BlocksOk stream s)
    (hU : Uncreated nthreads s.pc s.main) (hall : WritesAll nthreads s l)
    (halone : ReadsAlone stream nthreads s l) (hstep : step stream nthreads numio s l = some s') :
    BlocksOk stream s' := by
  have hlt : ∀ {t}, s.pc t ≠ .absent → t < nthreads :=
    fun hne => Nat.lt_of_not_le fun hle => hne (hU.absent hle)
  obtain ⟨-, ⟨hf, hadv⟩ | ⟨t, i, hl, hp, rfl⟩ | ⟨t, i, fnr, r, hl, hp, hr, rfl⟩⟩ :=
    step_cases hU hstep
  · exact h.frame hf hadv
  · have ht : t < nthreads := hlt (by simp [hp])
    refine h.read hp (s.delivers_le stream l.2) fun hpos u hu => ?_
    rcases Nat.lt_or_ge u nthreads with hun | hun
    · exact halone t ht hl (by rw [hp]; rfl) hpos u hun hu
    · rw [hU.absent hun]
      rfl
  · have ht : t < nthreads := hlt (by simp [hp])
    have hfull : l.2 = .full := hall t ht hl (by rw [hp]; rfl)
    rw [hfull] at hr
    obtain rfl : some fnr = r := Option.some.inj hr
    exact h.write hp

variable {junk : ℕ → α} {ls : List (Thread × Answer)}

theorem blocksOk_run
    (hall : Every (step stream nthreads numio) (WritesAll nthreads) (System.start junk) ls)
    (halone : Every (step stream nthreads numio) (ReadsAlone stream nthreads)
      (System.start junk) ls)
    (hrun : run (step stream nthreads numio) (System.start junk) ls = some s) :
    Uncreated nthreads s.pc s.main ∧ BlocksOk stream s := by
  have hstart : Uncreated nthreads (System.start junk).pc (System.start junk).main := fun _ => rfl
  refine (hall.and halone).invariant
    (P := fun s => Uncreated nthreads s.pc s.main ∧ BlocksOk stream s)
    ?_ ⟨hstart, blocksOk_start junk⟩ hrun
  rintro s l s' ⟨hU, hB⟩ ⟨hl, hl'⟩ hstep
  exact ⟨(step_cases hU hstep).1, hB.step hU hl hl' hstep⟩

/-- **No block is lost and none is doubled**, in a run in which no read delivers bytes
while another thread has bytes in the buffer that it has not written, and in which
writes append all they are given: what a thread writes is what it has read in the same
iteration; it reads and writes once in an iteration; and when no thread is between its
read and its write, the blocks written are the blocks read. -/
theorem blocks_kept
    (hall : Every (step stream nthreads numio) (WritesAll nthreads) (System.start junk) ls)
    (halone : Every (step stream nthreads numio) (ReadsAlone stream nthreads)
      (System.start junk) ls)
    (hrun : run (step stream nthreads numio) (System.start junk) ls = some s) :
    (∀ b ∈ s.writes, b ∈ s.reads) ∧ (s.reads.map Block.tag).Nodup ∧
      (s.writes.map Block.tag).Nodup ∧
      ((∀ t < nthreads, (s.pc t).unwritten = none) → s.writes.Perm s.reads) ∧
      s.out = (s.writes.map Block.bytes).flatten ∧
      (s.reads.map Block.bytes).flatten = stream.take s.rdOff := by
  obtain ⟨hU, h⟩ := blocksOk_run hall halone hrun
  refine ⟨h.kept, h.readsNodup, h.writesNodup, fun hnone => ?_, h.file, h.stream⟩
  refine (List.perm_ext_iff_of_nodup h.writesNodup.of_map h.readsNodup.of_map).mpr fun b => ?_
  refine ⟨h.kept b, fun hb => ?_⟩
  rcases h.left b hb with hw | ⟨k, hk⟩
  · exact hw
  · rcases Nat.lt_or_ge b.thread nthreads with hlt | hge
    · rw [hnone _ hlt] at hk
      cases hk
    · rw [hU.absent hge] at hk
      cases hk

end Blocks

/-- `main` up to the creation of two threads, all of its calls succeeding. -/
def twoThreads : List (Thread × Answer) := List.replicate 7 (.main, .ok)

/-- The thread `t` reads a block, the answer of the read being `a`. -/
def oneRead (t : ℕ) (a : Answer) : List (Thread × Answer) :=
  [(.worker t, .ok), (.worker t, a), (.worker t, .ok)]

/-- The thread `t` writes its block. -/
def oneWrite (t : ℕ) : List (Thread × Answer) :=
  [(.worker t, .ok), (.worker t, .full), (.worker t, .ok)]

/-- `main` from the first join on. -/
def joinBoth : List (Thread × Answer) := List.replicate 5 (.main, .ok)

/-- Two threads one after the other: each writes what it has read. -/
theorem blocks_kept_at :
    ∃ s : System UInt8,
      run (step [1, 2, 3] 2 fun _ => 1) (System.start fun _ => 0)
        (twoThreads ++ oneRead 0 (.short 2) ++ oneWrite 0 ++ oneRead 1 .full ++ oneWrite 1 ++
          joinBoth) = some s ∧
      s.ended = some (.exited 0) ∧ s.out = [1, 2, 3] ∧ s.writes.Perm s.reads := by
  obtain ⟨s, hs, hend, hout, hnone⟩ : ∃ s : System UInt8,
      run (step [1, 2, 3] 2 fun _ => 1) (System.start fun _ => 0)
        (twoThreads ++ oneRead 0 (.short 2) ++ oneWrite 0 ++ oneRead 1 .full ++ oneWrite 1 ++
          joinBoth) = some s ∧
      s.ended = some (.exited 0) ∧ s.out = [1, 2, 3] ∧
      ∀ t < 2, (s.pc t).unwritten = none := ⟨_, rfl, rfl, rfl, by decide⟩
  exact ⟨s, hs, hend, hout, (blocks_kept (by decide) (by decide) hs).2.2.2.1 hnone⟩

/-- **A block is lost and another one doubled** when the second thread reads between
the read and the write of the first. -/
theorem block_lost :
    (run (step (List.replicate 512 1 ++ List.replicate 512 2) 2 fun _ => 1)
        (System.start fun _ => (0 : UInt8))
        (twoThreads ++ oneRead 0 .full ++ oneRead 1 .full ++ oneWrite 0 ++ oneWrite 1 ++
          joinBoth)).map (fun s => (s.ended, s.reads, s.writes)) =
      some (some (.exited 0),
        [⟨0, 0, List.replicate 512 1⟩, ⟨1, 0, List.replicate 512 2⟩],
        [⟨0, 0, List.replicate 512 2⟩, ⟨1, 0, List.replicate 512 2⟩]) := by
  decide +kernel

end IobufMtx

end SystemProgramming
