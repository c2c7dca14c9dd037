import SystemProgramming.Stdio.IobufMutex

/-!
# A buffer for each thread

`mt_iobuf_rfct` and `mt_iobuf_tls` (`ch16/`) are the answer to the lock of `mt_iobuf_mtx`:
no lock, and a buffer for each thread – allocated by the thread in the first, thread-local
memory in the second. Each thread reads a block of the stream and appends it to the file,
again and again; the calls of different threads come in any order.

No block is lost between a read and a write this way, for nobody else writes to the buffer
(`SystemProgramming.ThreadBufs.blocks_once`). It can be lost all the same: a thread that
reads nothing calls `FATAL`, and that ends the process with the blocks of the other threads
in their buffers.

The process is one step function (`SystemProgramming.ThreadBufs.step`), with the variant as
a parameter; a step is one call of one thread. The main thread is left out: a thread that it
has not created yet is one that has not made a step, and it closes the streams when the
threads have exited.
-/

namespace SystemProgramming

open Bytes HandleErr Runs

open IobufMtx (Block)

namespace ThreadBufs

variable {α : Type*}

/-- The size of a buffer, and the request of every read. -/
def NREAD : ℕ := 512

/-! ### The threads -/

/-- The two programs. -/
inductive Variant where
  /-- `mt_iobuf_rfct`: the thread allocates its buffer. -/
  | rfct
  /-- `mt_iobuf_tls`: the buffer is thread-local memory. -/
  | tls
  deriving DecidableEq, Repr

/-- Where a thread stands, in the iteration `i`: about to make a call. -/
inductive Pc where
  /-- About to allocate its buffer. -/
  | malloc
  /-- That failed; `FATAL` is about to allocate its message. -/
  | mallocFatal
  /-- About to read. -/
  | fread (i : ℕ)
  /-- Nothing was read; `FATAL` is about to allocate its message. -/
  | freadFatal (i : ℕ)
  /-- About to write `fnr` bytes. -/
  | fwrite (i fnr : ℕ)
  /-- Nothing was written; about to ask whether the file is at its end. -/
  | feof (i : ℕ)
  /-- About to ask whether the file is in error. -/
  | ferror (i : ℕ)
  /-- It is; about to free the buffer. -/
  | freeError (i : ℕ)
  /-- About to call `FATAL`. -/
  | fwriteFatal (i : ℕ)
  /-- The iterations are over; about to free the buffer. -/
  | free
  /-- The thread has exited. -/
  | exited
  deriving DecidableEq, Repr

/-- Where the wrapper begins. -/
def Variant.begin (numio : ℕ) : Variant → Pc
  | .rfct => .malloc
  | .tls => if 0 < numio then .fread 0 else .exited

/-- Where the wrapper goes on when the function has returned. -/
def Variant.leave : Variant → Pc
  | .rfct => .free
  | .tls => .exited

/-- The head of the loop, where `i` iterations have been made. -/
def Pc.iteration (v : Variant) (numio i : ℕ) : Pc := if i < numio then .fread i else v.leave

/-- A thread, with its buffer. -/
structure Worker (α : Type*) where
  pc : Pc
  /-- What `iobuf` points to. -/
  iobuf : Buf
  /-- The memory from the address of the buffer on. -/
  mem : ℕ → α

/-- The state of the process. -/
structure System (α : Type*) where
  workers : ℕ → Worker α
  /-- How much of the stream has been read. -/
  rdOff : ℕ
  /-- What has been appended to the file. -/
  out : List α
  /-- The blocks read. -/
  reads : List (Block α)
  /-- The blocks written. -/
  writes : List (Block α)
  ended : Option IobufMtx.End

namespace System

/-- The threads are to be created; `junk` is in the memory each is going to get. -/
def start (v : Variant) (numio : ℕ → ℕ) (junk : ℕ → ℕ → α) : System α where
  workers t := ⟨v.begin (numio t), if v = .tls then .live else .null, junk t⟩
  rdOff := 0
  out := []
  reads := []
  writes := []
  ended := none

/-- The thread `t` becomes `w`. -/
def setWorker (s : System α) (t : ℕ) (w : Worker α) : System α :=
  { s with workers := Function.update s.workers t w }

/-- The thread `t` goes on to `p`. -/
def goto (s : System α) (t : ℕ) (p : Pc) : System α :=
  s.setWorker t { s.workers t with pc := p }

/-- The process does something whose effect is left open. -/
def undefined (s : System α) : System α := { s with ended := some .undefined }

/-- A call of `FATAL`, with the state it leaves when it comes back. -/
def fatal (s : System α) (a : Answer) (back : System α) : Option (System α) :=
  afterFatal a (fun status => { s with ended := some (.exited status) }) back

/-- How much a read could deliver. -/
def most (stream : List α) (s : System α) : ℕ := min NREAD (stream.length - s.rdOff)

/-- The block `d` of the thread `t`, if it is one. -/
def block (t i : ℕ) (d : List α) : List (Block α) := if d = [] then [] else [⟨t, i, d⟩]

/-- The thread `t` has read the next `fnr` bytes of the stream to its buffer. -/
def gotRead (stream : List α) (t i fnr : ℕ) (s : System α) : System α :=
  let d := (stream.drop s.rdOff).take fnr
  { s.setWorker t { s.workers t with
      pc := if fnr = 0 then .freadFatal i else .fwrite i fnr, mem := blit (s.workers t).mem d } with
    rdOff := s.rdOff + fnr, reads := s.reads ++ block t i d }

/-- The thread `t` has appended the first `fnw` bytes of its buffer to the file. -/
def gotWrite (v : Variant) (numio t i fnw : ℕ) (s : System α) : System α :=
  let d := slice (s.workers t).mem fnw
  { s.goto t (if fnw = 0 then .feof i else .iteration v numio (i + 1)) with
    out := s.out ++ d, writes := s.writes ++ block t i d }

end System

/-- `testit_mt_refactored` and its wrapper, or `testit_mt_tls` and its, run by the thread
`t`. The calls that print are left out. -/
def testit (v : Variant) (stream : List α) (numio t : ℕ) (s : System α) (a : Answer) :
    Option (System α) :=
  match (s.workers t).pc, a with
  | .malloc, a => a.status.map fun ok =>
    if ok then s.setWorker t { s.workers t with pc := .iteration v numio 0, iobuf := .live }
    else s.goto t .mallocFatal
  | .mallocFatal, a => s.fatal a (s.goto t (.iteration v numio 0))
  | .fread i, a =>
    if (s.workers t).iobuf ≠ .live then some s.undefined
    else (a.transfer (s.most stream)).map fun r => s.gotRead stream t i (r.getD 0)
  | .freadFatal i, a => s.fatal a (s.goto t (.fwrite i 0))
  | .fwrite i fnr, a =>
    if (s.workers t).iobuf ≠ .live then some s.undefined
    else (a.transfer fnr).map fun r => s.gotWrite v numio t i (r.getD 0)
  | .feof i, a => a.status.map fun ok => s.goto t (if ok then v.leave else .ferror i)
  | .ferror i, a => a.status.map fun ok =>
    s.goto t (if ok then (if v = .rfct then .freeError i else .fwriteFatal i)
      else .iteration v numio (i + 1))
  | .freeError i, .ok =>
    match (s.workers t).iobuf.free with
    | some b => some (s.setWorker t { s.workers t with pc := .fwriteFatal i, iobuf := b })
    | none => some s.undefined
  | .fwriteFatal i, a => s.fatal a (s.goto t (.iteration v numio (i + 1)))
  | .free, .ok =>
    match (s.workers t).iobuf.free with
    | some b => some (s.setWorker t { s.workers t with pc := .exited, iobuf := b })
    | none => some s.undefined
  | _, _ => none

/-- **The step function**, with `nthreads` threads of which the thread `t` makes `numio t`
iterations: the next call of a thread is answered so. -/
def step (v : Variant) (stream : List α) (nthreads : ℕ) (numio : ℕ → ℕ) (s : System α)
    (l : ℕ × Answer) : Option (System α) :=
  match s.ended with
  | some _ => none
  | none => if l.1 < nthreads then testit v stream (numio l.1) l.1 s l.2 else none

/-! ### The blocks -/

/-- The blocks of the thread `t`. -/
def ofThread (t : ℕ) (bs : List (Block α)) : List (Block α) := bs.filter (·.thread = t)

/-- The block that a thread has in its buffer and has not written. -/
def held (t : ℕ) (w : Worker α) : List (Block α) :=
  match w.pc with
  | .fwrite i fnr => System.block t i (slice w.mem fnr)
  | _ => []

/-- **The file is made of the blocks read**: it is their concatenation in some order, in which
every one occurs exactly once, and those of a thread in the order it has read them. -/
def Concatenation (s : System α) : Prop :=
  ∃ bs : List (Block α), s.out = (bs.map Block.bytes).flatten ∧ bs.Perm s.reads ∧
    ∀ t, ofThread t bs = ofThread t s.reads

/-- **No block is lost but those that are held.** -/
structure LossFree (stream : List α) (nthreads : ℕ) (s : System α) : Prop where
  /-- The blocks read are consecutive pieces of the stream. -/
  stream : (s.reads.map Block.bytes).flatten <+: stream
  /-- The file is the concatenation of the blocks written. -/
  out : s.out = (s.writes.map Block.bytes).flatten
  /-- A thread has written the blocks it has read, in that order, but for the one it holds. -/
  order : ∀ t, ofThread t s.reads = ofThread t s.writes ++ held t (s.workers t)
  /-- When no thread holds a block, all are in the file. -/
  whole : (∀ t < nthreads, held t (s.workers t) = []) → Concatenation s

/-- A write appends all the bytes it is given. -/
def FullWrites (s : System α) (l : ℕ × Answer) : Prop :=
  match (s.workers l.1).pc with
  | .fwrite _ _ => l.2 = .full
  | _ => True

instance (s : System α) : DecidablePred (FullWrites s) := fun l => by
  unfold FullWrites
  split <;> infer_instance

/-- **The invariant.** -/
structure Ok (stream : List α) (nthreads : ℕ) (s : System α) : Prop where
  le : s.rdOff ≤ stream.length
  read : (s.reads.map Block.bytes).flatten = stream.take s.rdOff
  out : s.out = (s.writes.map Block.bytes).flatten
  order : ∀ t, ofThread t s.reads = ofThread t s.writes ++ held t (s.workers t)
  idle : ∀ t, nthreads ≤ t → held t (s.workers t) = []

section Blocks

variable {t j i : ℕ} {d : List α} {as bs : List (Block α)}

theorem ofThread_append (t : ℕ) (as bs : List (Block α)) :
    ofThread t (as ++ bs) = ofThread t as ++ ofThread t bs := List.filter_append _ _

theorem ofThread_block_self : ofThread t (System.block t i d) = System.block t i d := by
  rw [System.block]
  split_ifs
  · rfl
  · simp [ofThread]

theorem ofThread_block_of_ne (h : j ≠ t) : ofThread j (System.block t i d) = [] := by
  rw [System.block]
  split_ifs
  · rfl
  · simp [ofThread, h.symm]

@[simp] theorem block_nil : System.block t i ([] : List α) = [] := if_pos rfl

/-- The bytes of a block are the bytes it was made of. -/
theorem flatten_block : ((System.block t i d).map Block.bytes).flatten = d := by
  rw [System.block]
  split_ifs with hd
  · exact hd.symm
  · simp

/-- **Lists of blocks are permutations** if they have the same blocks of every thread. -/
theorem perm_of_ofThread (h : ∀ t, ofThread t as = ofThread t bs) : as.Perm bs := by
  classical
  refine List.perm_iff_count.mpr fun b => ?_
  have hcount : ∀ l : List (Block α), (ofThread b.thread l).count b = l.count b :=
    fun l => List.count_filter (decide_eq_true rfl)
  rw [← hcount as, ← hcount bs, h]

end Blocks

section Steps

variable {v : Variant} {stream : List α} {nthreads : ℕ} {numio : ℕ → ℕ} {s s' : System α}
  {t i j : ℕ} {a : Answer} {l : ℕ × Answer} {ls : List (ℕ × Answer)} {w : Worker α}

theorem System.setWorker_self : (s.setWorker t w).workers t = w := Function.update_self _ _ _

theorem System.setWorker_of_ne (h : j ≠ t) : (s.setWorker t w).workers j = s.workers j :=
  Function.update_of_ne h _ _

theorem held_of_ne (h : ∀ i fnr, w.pc ≠ .fwrite i fnr) : held t w = [] := by
  unfold held
  split
  · rename_i hpc
    exact absurd hpc (h _ _)
  · rfl

theorem leave_ne (v : Variant) (i fnr : ℕ) : v.leave ≠ .fwrite i fnr := by
  cases v <;> exact Pc.noConfusion

theorem iteration_ne (v : Variant) (m j i fnr : ℕ) : Pc.iteration v m j ≠ .fwrite i fnr := by
  rw [Pc.iteration]
  split_ifs
  · exact Pc.noConfusion
  · exact leave_ne v i fnr

theorem begin_ne (v : Variant) (m i fnr : ℕ) : v.begin m ≠ .fwrite i fnr := by
  cases v <;> rw [Variant.begin]
  · exact Pc.noConfusion
  · split_ifs <;> exact Pc.noConfusion

theorem ok_start (junk : ℕ → ℕ → α) : Ok stream nthreads (System.start v numio junk) where
  le := Nat.zero_le _
  read := rfl
  out := rfl
  order _ := (held_of_ne (begin_ne v _)).symm
  idle _ _ := held_of_ne (begin_ne v _)

/-- **A thread goes on** that holds no block, before and after. -/
theorem Ok.setWorker (h : Ok stream nthreads s) (hold : held t (s.workers t) = [])
    (hw : held t w = []) : Ok stream nthreads (s.setWorker t w) := by
  have hheld : ∀ j, held j ((s.setWorker t w).workers j) = held j (s.workers j) := by
    intro j
    rcases eq_or_ne j t with rfl | hne
    · rw [System.setWorker_self, hw, hold]
    · rw [System.setWorker_of_ne hne]
  constructor
  case le => exact h.le
  case read => exact h.read
  case out => exact h.out
  case order =>
    intro j
    rw [hheld]
    exact h.order j
  case idle =>
    intro j hj
    rw [hheld]
    exact h.idle j hj

/-- What is left open, and a call of `FATAL` that exits, changes no block. -/
theorem Ok.setEnded (h : Ok stream nthreads s) (e : IobufMtx.End) :
    Ok stream nthreads { s with ended := some e } := ⟨h.le, h.read, h.out, h.order, h.idle⟩

theorem Ok.fatal (h : Ok stream nthreads s) {back : System α} (hback : Ok stream nthreads back)
    (hstep : s.fatal a back = some s') : Ok stream nthreads s' := by
  rcases afterFatal_cases hstep with rfl | rfl
  · exact hback
  · exact h.setEnded _

/-- **A block is read**, and its thread holds it. -/
theorem Ok.gotRead (h : Ok stream nthreads s) (ht : t < nthreads) {fnr : ℕ}
    (hold : held t (s.workers t) = []) (hfnr : fnr ≤ s.most stream) :
    Ok stream nthreads (s.gotRead stream t i fnr) := by
  have hmost : s.most stream ≤ stream.length - s.rdOff := min_le_right _ _
  have hle := h.le
  have hlen : ((stream.drop s.rdOff).take fnr).length = fnr := by
    rw [List.length_take, List.length_drop]
    omega
  have hheld : held t ((s.gotRead stream t i fnr).workers t) =
      System.block t i ((stream.drop s.rdOff).take fnr) := by
    simp only [System.gotRead, System.setWorker, Function.update_self]
    by_cases h0 : fnr = 0
    · rw [if_pos h0, held, h0, List.take_zero, block_nil]
    · rw [if_neg h0, held]
      simp only
      rw [slice_blit _ hlen.ge, List.take_take, Nat.min_self]
  have hother : ∀ j, j ≠ t → (s.gotRead stream t i fnr).workers j = s.workers j :=
    fun j hne => Function.update_of_ne hne _ _
  constructor
  case le =>
    change s.rdOff + fnr ≤ stream.length
    omega
  case read =>
    change ((s.reads ++ System.block t i _).map Block.bytes).flatten = stream.take (s.rdOff + fnr)
    rw [List.map_append, List.flatten_append, flatten_block, h.read, List.take_add]
  case out => exact h.out
  case order =>
    intro j
    change ofThread j (s.reads ++ System.block t i _) = ofThread j s.writes ++ _
    rw [ofThread_append, h.order]
    rcases eq_or_ne j t with rfl | hne
    · rw [hheld, hold, List.append_nil, ofThread_block_self]
    · rw [hother j hne, ofThread_block_of_ne hne, List.append_nil]
  case idle =>
    intro j hj
    rw [hother j (by omega)]
    exact h.idle j hj

/-- **A block is written**, and its thread holds it no longer. -/
theorem Ok.gotWrite (h : Ok stream nthreads s) (ht : t < nthreads) {fnr m : ℕ}
    (hpc : (s.workers t).pc = .fwrite i fnr) : Ok stream nthreads (s.gotWrite v m t i fnr) := by
  have hold : held t (s.workers t) = System.block t i (slice (s.workers t).mem fnr) := by
    rw [held, hpc]
  have hheld : held t ((s.gotWrite v m t i fnr).workers t) = [] := by
    refine held_of_ne fun j n => ?_
    simp only [System.gotWrite, System.goto, System.setWorker, Function.update_self]
    split_ifs
    · exact Pc.noConfusion
    · exact iteration_ne v m (i + 1) j n
  have hother : ∀ j, j ≠ t → (s.gotWrite v m t i fnr).workers j = s.workers j :=
    fun j hne => Function.update_of_ne hne _ _
  constructor
  case le => exact h.le
  case read => exact h.read
  case out =>
    change s.out ++ _ = ((s.writes ++ System.block t i _).map Block.bytes).flatten
    rw [List.map_append, List.flatten_append, flatten_block, h.out]
  case order =>
    intro j
    change ofThread j s.reads = ofThread j (s.writes ++ System.block t i _) ++ _
    rw [ofThread_append, h.order]
    rcases eq_or_ne j t with rfl | hne
    · rw [hheld, hold, List.append_nil, ofThread_block_self]
    · rw [hother j hne, ofThread_block_of_ne hne, List.append_nil]
  case idle =>
    intro j hj
    rw [hother j (by omega)]
    exact h.idle j hj

/-- **A step of a thread**, whose writes append all they are given. -/
theorem Ok.testit (h : Ok stream nthreads s) (ht : t < nthreads) (hl : FullWrites s (t, a))
    {m : ℕ} (hstep : testit v stream m t s a = some s') : Ok stream nthreads s' := by
  have hgoto : (∀ i fnr, (s.workers t).pc ≠ .fwrite i fnr) → ∀ {w : Worker α},
      (∀ i fnr, w.pc ≠ .fwrite i fnr) → Ok stream nthreads (s.setWorker t w) :=
    fun hold _ hw => h.setWorker (held_of_ne hold) (held_of_ne hw)
  unfold ThreadBufs.testit at hstep
  unfold FullWrites at hl
  cases hpc : (s.workers t).pc <;> simp only [hpc] at hstep hl hgoto
  case malloc =>
    obtain ⟨ok, -, rfl⟩ := Option.map_eq_some_iff.mp hstep
    cases ok
    · exact hgoto (fun _ _ => Pc.noConfusion) fun _ _ => Pc.noConfusion
    · exact hgoto (fun _ _ => Pc.noConfusion) (iteration_ne v m 0)
  case mallocFatal =>
    exact h.fatal (hgoto (fun _ _ => Pc.noConfusion) (iteration_ne v m 0)) hstep
  case fread i =>
    split_ifs at hstep
    · obtain rfl := Option.some.inj hstep
      exact h.setEnded _
    · obtain ⟨r, hr, rfl⟩ := Option.map_eq_some_iff.mp hstep
      refine h.gotRead ht (held_of_ne (by simp [hpc])) ?_
      cases r with
      | none => exact Nat.zero_le _
      | some k => exact (Answer.transfer_le hr).1
  case freadFatal i =>
    refine h.fatal (h.setWorker (held_of_ne (by simp [hpc])) ?_) hstep
    exact block_nil
  case fwrite i fnr =>
    split_ifs at hstep
    · obtain rfl := Option.some.inj hstep
      exact h.setEnded _
    · obtain rfl : a = .full := hl
      obtain ⟨r, hr, rfl⟩ := Option.map_eq_some_iff.mp hstep
      obtain rfl : some fnr = r := Option.some.inj hr
      exact h.gotWrite ht hpc
  case feof i =>
    obtain ⟨ok, -, rfl⟩ := Option.map_eq_some_iff.mp hstep
    refine hgoto (fun _ _ => Pc.noConfusion) ?_
    split_ifs
    · exact leave_ne v
    · exact fun _ _ => Pc.noConfusion
  case ferror i =>
    obtain ⟨ok, -, rfl⟩ := Option.map_eq_some_iff.mp hstep
    refine hgoto (fun _ _ => Pc.noConfusion) ?_
    split_ifs
    · exact fun _ _ => Pc.noConfusion
    · exact fun _ _ => Pc.noConfusion
    · exact iteration_ne v m (i + 1)
  case freeError i =>
    cases a <;> simp only [reduceCtorEq] at hstep
    split at hstep <;> obtain rfl := Option.some.inj hstep
    · exact hgoto (fun _ _ => Pc.noConfusion) fun _ _ => Pc.noConfusion
    · exact h.setEnded _
  case fwriteFatal i =>
    exact h.fatal (hgoto (fun _ _ => Pc.noConfusion) (iteration_ne v m (i + 1))) hstep
  case free =>
    cases a <;> simp only [reduceCtorEq] at hstep
    split at hstep <;> obtain rfl := Option.some.inj hstep
    · exact hgoto (fun _ _ => Pc.noConfusion) fun _ _ => Pc.noConfusion
    · exact h.setEnded _
  case exited => cases hstep

/-- **One step.** -/
theorem Ok.step (h : Ok stream nthreads s) (hl : FullWrites s l)
    (hstep : step v stream nthreads numio s l = some s') : Ok stream nthreads s' := by
  unfold ThreadBufs.step at hstep
  split at hstep
  · cases hstep
  · split_ifs at hstep with ht
    exact h.testit ht hl hstep

/-- The invariant says that no block is lost. -/
theorem Ok.lossFree (h : Ok stream nthreads s) : LossFree stream nthreads s where
  stream := h.read ▸ List.take_prefix _ _
  out := h.out
  order := h.order
  whole hnone := by
    have heq : ∀ t, ofThread t s.writes = ofThread t s.reads := by
      intro t
      have hheld : held t (s.workers t) = [] := by
        rcases Nat.lt_or_ge t nthreads with hlt | hge
        · exact hnone t hlt
        · exact h.idle t hge
      rw [h.order, hheld, List.append_nil]
    exact ⟨s.writes, h.out, perm_of_ofThread heq, heq⟩

/-- **No block is lost but those that are held**, for any number of threads and iterations, any
stream and any order of the calls: every block that a thread has read is in the file exactly
once, in the order the thread has read them, but for the one it holds in its buffer. -/
theorem blocks_once {junk : ℕ → ℕ → α}
    (hfull : Every (ThreadBufs.step v stream nthreads numio) FullWrites
      (System.start v numio junk) ls)
    (hrun : run (ThreadBufs.step v stream nthreads numio) (System.start v numio junk) ls = some s) :
    LossFree stream nthreads s :=
  (hfull.invariant (P := Ok stream nthreads) (fun _ _ _ h hl hst => h.step hl hst)
    (ok_start junk) hrun).lossFree

end Steps

/-- Two threads, with an iteration each and zeros in their memory. -/
def twoThreads (v : Variant) : System ℕ := System.start v (fun _ => 1) fun _ _ => 0

/-- Both threads read before either writes; they have different blocks, and the file has
both. -/
theorem blocks_once_at :
    ∃ s : System ℕ, run (step .rfct [1, 2, 3] 2 fun _ => 1) (twoThreads .rfct)
        [(0, .ok), (1, .ok), (1, .short 2), (0, .full), (0, .full), (1, .full), (0, .ok),
          (1, .ok)] = some s ∧
      s.out = [3, 1, 2] ∧ LossFree [1, 2, 3] 2 s := by
  obtain ⟨s, hs, hout⟩ : ∃ s : System ℕ, run (step .rfct [1, 2, 3] 2 fun _ => 1)
        (twoThreads .rfct)
        [(0, .ok), (1, .ok), (1, .short 2), (0, .full), (0, .full), (1, .full), (0, .ok),
          (1, .ok)] = some s ∧ s.out = [3, 1, 2] := ⟨_, rfl, rfl⟩
  exact ⟨s, hs, hout, blocks_once (by decide) hs⟩

/-- **A block that is lost**: a thread has read the whole stream, the other one reads nothing,
and `FATAL` ends the process. -/
theorem lost_at_exit :
    ∃ s : System ℕ, run (step .tls [7] 2 fun _ => 1) (twoThreads .tls)
        [(0, .full), (1, .full), (1, .ok)] = some s ∧
      s.ended = some (.exited 1) ∧ s.reads = [⟨0, 0, [7]⟩] ∧ s.out = [] ∧ ¬Concatenation s := by
  refine ⟨_, rfl, rfl, rfl, rfl, ?_⟩
  rintro ⟨bs, hout, hperm, -⟩
  have hbs : bs = [⟨0, 0, [7]⟩] := List.perm_singleton.mp hperm
  rw [hbs] at hout
  cases hout

end ThreadBufs

end SystemProgramming
