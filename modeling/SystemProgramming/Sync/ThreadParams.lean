import SystemProgramming.HandleErr
import SystemProgramming.Printf
import SystemProgramming.Runs

/-!
# A parameter of its own for every thread

Three programs pass each of their threads a structure that `main` allocates for it, and frees when
it has joined the thread: `struct_as_param` (`ch14/param_passing/`), `pthreads_joiner3` and
`pthreads_joiner4` (`solutions_to_assgn/ch14/`). They differ in what they do when a join fails – a
join that waits no longer than a given time fails often. The first two warn, and free the structure
all the same; the third one frees it only if the thread has been joined.

They are one step function (`SystemProgramming.ThreadParams.step`), in which the threads' accesses
to their structures are interleaved with `main`. A thread that accesses a structure that has been
freed ends in `SystemProgramming.ThreadParams.MainPc.stale`. The invariant is ownership: a structure
belongs to its thread until the thread has made its last access to it
(`SystemProgramming.ThreadParams.Inv`).

* Freed only after a join, a structure is never accessed afterwards, whatever the joins come to;
  what is not freed at the end are exactly the structures of the threads that were not joined
  (`SystemProgramming.ThreadParams.joined_owns`).
* Freed in any case, it is safe exactly if every failed join finds its thread behind its last access
  (`SystemProgramming.ThreadParams.freed_safe_iff`).
-/

namespace SystemProgramming

open HandleErr Printf Runs

namespace ThreadParams

/-- What a thread does next. -/
inductive Op where
  /-- It reads its structure. -/
  | access
  /-- It prints something else. -/
  | print
  /-- It sleeps. -/
  | sleep
  deriving DecidableEq, Repr

/-- What `main` does when a join has failed, and it has warned. -/
inductive FailedJoin where
  /-- It goes on with the next thread. -/
  | skip
  /-- It prints that it has joined the thread, and frees the structure. -/
  | report
  /-- It frees the structure. -/
  | free
  deriving DecidableEq, Repr

/-- What distinguishes the programs. -/
structure Program where
  /-- The thread function, up to its `pthread_exit`. -/
  worker : List Op
  /-- `main` gets the time before a join, and waits for the thread until some time later. -/
  timed : Bool
  failedJoin : FailedJoin
  /-- The structure is freed when the thread cannot be created. -/
  freesUncreated : Bool
  deriving DecidableEq, Repr

/-- Where `main` stands. -/
inductive MainPc where
  /-- About to print that it creates the thread. -/
  | creating (i : ℕ)
  /-- About to allocate its structure. -/
  | calloc (i : ℕ)
  /-- That failed; about to call `FATAL`. -/
  | callocFatal (i : ℕ)
  /-- About to fill the structure in. -/
  | store (i : ℕ)
  /-- About to create the thread. -/
  | create (i : ℕ)
  /-- That failed; about to call `FATAL`. -/
  | createFatal (i : ℕ)
  /-- About to print that it joins the thread. -/
  | joining (j : ℕ)
  /-- About to get the time. -/
  | clock (j : ℕ)
  /-- That failed; about to call `FATAL`. -/
  | clockFatal (j : ℕ)
  /-- About to join the thread. -/
  | join (j : ℕ)
  /-- That failed; about to warn. -/
  | warn (j : ℕ)
  /-- About to print that it has joined the thread. -/
  | joined (j : ℕ)
  /-- About to free its structure. -/
  | free (j : ℕ)
  /-- About to print its farewell. -/
  | farewell
  /-- About to leave its threads alone. -/
  | exit
  /-- It has left them. -/
  | gone
  /-- The process has exited. -/
  | exited (status : ℤ)
  /-- The process was killed on filling in a structure at NULL. -/
  | killed
  /-- A structure that had been freed was accessed, or freed again. -/
  | stale
  /-- It has called for a join of a thread that is not there. -/
  | undefined
  deriving DecidableEq, Repr

/-- Where a thread stands. -/
inductive Worker where
  /-- It has not been created. -/
  | absent
  /-- It has this to do. -/
  | at (todo : List Op)
  /-- It has exited. -/
  | exited
  deriving DecidableEq, Repr

/-- A structure: whether it is there, and what it holds. -/
structure Cell (π : Type*) where
  buf : Buf
  value : Option π
  deriving DecidableEq, Repr

variable {π : Type*}

/-- The state of the process. -/
structure State (π : Type*) where
  pc : MainPc
  cells : ℕ → Cell π
  workers : ℕ → Worker
  /-- What the threads have read, each with its number. -/
  seen : List (ℕ × Option π)
  /-- The threads that have been joined. -/
  joined : List ℕ

/-- What happens. -/
inductive Label where
  /-- `main` goes on, its call being answered so. -/
  | main (a : Answer)
  /-- The thread goes on. -/
  | worker (t : ℕ)
  deriving DecidableEq, Repr

/-- `main` comes to the head of its first loop. -/
def State.start (nthreads : ℕ) : State π :=
  ⟨if 0 < nthreads then .creating 0 else .farewell, fun _ => ⟨.null, none⟩, fun _ => .absent, [],
    []⟩

/-- The head of the loop that creates the threads. -/
def MainPc.nextCreate (nthreads i : ℕ) : MainPc := if i < nthreads then .creating i else .joining 0

/-- The head of the loop that joins them. -/
def MainPc.nextJoin (nthreads j : ℕ) : MainPc := if j < nthreads then .joining j else .farewell

/-- The structure of the thread `i` is changed. -/
def State.setCell (p : State π) (i : ℕ) (c : Cell π) : State π :=
  { p with cells := Function.update p.cells i c }

/-- The structure of the thread `i` is freed, and `main` goes on at `pc`. -/
def State.free (p : State π) (i : ℕ) (pc : MainPc) : State π :=
  match (p.cells i).buf.free with
  | none => { p with pc := .stale }
  | some b => { p.setCell i { p.cells i with buf := b } with pc := pc }

/-- Where `main` goes on when it has warned of a failed join. -/
def FailedJoin.next (nthreads j : ℕ) : FailedJoin → MainPc
  | .skip => .nextJoin nthreads (j + 1)
  | .report => .joined j
  | .free => .free j

/-- `main`, with the parameters `param` of its threads. A thread is joined when it has exited; a
thread that has not been created cannot be joined. -/
def mainStep (prog : Program) (nthreads : ℕ) (param : ℕ → π) (p : State π) (a : Answer) :
    Option (State π) :=
  let goto (p : State π) (pc : MainPc) : State π := { p with pc := pc }
  match p.pc with
  | .creating i => a.status.map fun _ => goto p (.calloc i)
  | .calloc i => a.status.map fun ok =>
    if ok then goto (p.setCell i ⟨.live, none⟩) (.store i) else goto p (.callocFatal i)
  | .callocFatal i => afterFatal a (fun status => goto p (.exited status)) (goto p (.store i))
  | .store i => if a = .ok then
      some (if (p.cells i).buf = .live then goto (p.setCell i ⟨.live, some (param i)⟩) (.create i)
        else goto p .killed)
    else none
  | .create i => a.status.map fun ok =>
    if ok then
      goto { p with workers := Function.update p.workers i (.at prog.worker) }
        (.nextCreate nthreads (i + 1))
    else if prog.freesUncreated then p.free i (.createFatal i) else goto p (.createFatal i)
  | .createFatal i =>
    afterFatal a (fun status => goto p (.exited status)) (goto p (.nextCreate nthreads (i + 1)))
  | .joining j => a.status.map fun _ => goto p (if prog.timed then .clock j else .join j)
  | .clock j => a.status.map fun ok => goto p (if ok then .join j else .clockFatal j)
  | .clockFatal j => afterFatal a (fun status => goto p (.exited status)) (goto p (.join j))
  | .join j =>
    if p.workers j = .absent then some (goto p .undefined)
    else match a with
      | .ok =>
        if p.workers j = .exited then some (goto { p with joined := p.joined ++ [j] } (.joined j))
        else none
      | .err => some (goto p (.warn j))
      | _ => none
  | .warn j => a.status.map fun _ => goto p (prog.failedJoin.next nthreads j)
  | .joined j => a.status.map fun _ => goto p (.free j)
  | .free j => if a = .ok then some (p.free j (.nextJoin nthreads (j + 1))) else none
  | .farewell => a.status.map fun _ => goto p .exit
  | .exit => if a = .ok then some (goto p .gone) else none
  | .gone | .exited _ | .killed | .stale | .undefined => none

/-- A thread. -/
def workerStep (p : State π) (t : ℕ) : Option (State π) :=
  let goto (p : State π) (w : Worker) : State π :=
    { p with workers := Function.update p.workers t w }
  match p.workers t with
  | .at [] => some (goto p .exited)
  | .at (.access :: todo) =>
    some (if (p.cells t).buf = .live then
        goto { p with seen := p.seen ++ [(t, (p.cells t).value)] } (.at todo)
      else { p with pc := .stale })
  | .at (_ :: todo) => some (goto p (.at todo))
  | .absent | .exited => none

/-- The process has ended. -/
def MainPc.Ended : MainPc → Bool
  | .exited _ | .killed | .stale | .undefined => true
  | _ => false

/-- **The step function.** When `main` has left its threads, they go on. -/
def step (prog : Program) (nthreads : ℕ) (param : ℕ → π) (p : State π) (l : Label) :
    Option (State π) :=
  if p.pc.Ended then none
  else match l with
    | .main a => mainStep prog nthreads param p a
    | .worker t => workerStep p t

/-! ### The programs -/

/-- The structure that the joiners pass. -/
structure Passit where
  thrdnum : Int32
  sleeptm : Int32
  deriving DecidableEq, Repr

/-- How long a thread of theirs sleeps. -/
def Passit.slptm (x : Passit) : Int32 := x.sleeptm - x.thrdnum

/-- What the joiners pass to the thread `i`. -/
def passthis (sleeptm : Int32) (i : ℕ) : Passit := ⟨.ofNat i, sleeptm⟩

/-- `atoi` of an argument. -/
def atoi (argv : List (List UInt8)) (k : ℕ) : Int32 := (atol (argv.getD k [])).toInt32

/-- The time that `main` of `pthreads_joiner3` takes from its arguments, if it accepts them. -/
def joiner3Args (nthreads : ℕ) (argv : List (List UInt8)) : Option Int32 :=
  if argv.length ≠ 2 then none
  else if (atoi argv 1).toInt ≤ nthreads - 1 then none
  else some (atoi argv 1)

/-- The time that `main` of `pthreads_joiner4` takes from its arguments, which are two. -/
def joiner4Args (nthreads : ℕ) (argv : List (List UInt8)) : Option Int32 :=
  if argv.length ≠ 3 then none
  else if (atoi argv 1).toInt ≤ nthreads - 1 ∨ (atoi argv 2).toInt ≤ nthreads - 1 then none
  else some (atoi argv 1)

/-- `pthreads_joiner3`: a thread computes its time to sleep, prints its structure, prints what it
does, sleeps, and prints that it is done. -/
def joiner3 : Program := ⟨[.access, .access, .access, .sleep, .access], false, .report, true⟩

/-- `pthreads_joiner4`: a thread computes its time to sleep, prints what it does, sleeps, and prints
that it is done. -/
def joiner4 : Program := ⟨[.access, .access, .sleep, .access], true, .skip, true⟩

/-- `struct_as_param`: a thread prints its structure, prints what it does, sleeps, and prints that
it is done. -/
def structAsParam : Program := ⟨[.access, .print, .sleep, .print], false, .free, false⟩

/-! ### Ownership -/

/-- The round of the first loop. -/
def MainPc.round : MainPc → Option ℕ
  | .creating i | .calloc i | .callocFatal i | .store i | .create i | .createFatal i => some i
  | _ => none

/-- The first thread whose structure has not been dealt with by the second loop. -/
def MainPc.next : MainPc → Option ℕ
  | .creating _ | .calloc _ | .callocFatal _ | .store _ | .create _ | .createFatal _ => some 0
  | .joining j | .clock j | .clockFatal j | .join j | .warn j | .joined j | .free j => some j
  | _ => none

/-- The thread that `main` has tried to join. -/
def MainPc.tried : MainPc → Option ℕ
  | .warn j | .joined j | .free j => some j
  | _ => none

/-- The thread does not access its structure any more. -/
def Worker.Behind : Worker → Prop
  | .at todo => .access ∉ todo
  | _ => True

instance (w : Worker) : Decidable w.Behind :=
  match w with
  | .absent => isTrue trivial
  | .at todo => inferInstanceAs (Decidable (.access ∉ todo))
  | .exited => isTrue trivial

/-- **The invariant**: every thread has a structure with its own parameter, which is there as long
as the thread accesses it. -/
structure Inv (param : ℕ → π) (p : State π) : Prop where
  pc : p.pc ≠ .stale
  own : ∀ t, p.workers t ≠ .absent → (p.cells t).value = some (param t) ∧
    ((p.cells t).buf = .live ∨ (p.cells t).buf = .freed ∧ (p.workers t).Behind)
  fresh : ∀ i, p.pc.round = some i → ∀ t, i ≤ t → p.workers t = .absent
  held : ∀ j, p.pc.next = some j → ∀ t, j ≤ t → p.workers t ≠ .absent → (p.cells t).buf = .live
  filled : ∀ i, p.pc = .create i → p.cells i = ⟨.live, some (param i)⟩
  there : ∀ j, p.pc.tried = some j → p.workers j ≠ .absent
  seen : ∀ x ∈ p.seen, x.2 = some (param x.1)

section Steps

variable {prog : Program} {nthreads : ℕ} {param : ℕ → π} {p q : State π} {l : Label} {a : Answer}
  {ls : List Label} {t : ℕ}

/-- A move of `main` from one control point to another. -/
structure MainPc.Leads (p : State π) (pc : MainPc) : Prop where
  fine : pc ≠ .stale
  round : ∀ i, pc.round = some i → ∃ k ≤ i, p.pc.round = some k
  next : ∀ j, pc.next = some j → ∃ k ≤ j, p.pc.next = some k
  create : ∀ i, pc ≠ .create i
  tried : ∀ j, pc.tried = some j → p.workers j ≠ .absent

/-- **`main` moves**, and nothing else changes. -/
theorem Inv.goto (hp : Inv param p) {pc : MainPc} (h : pc.Leads p) :
    Inv param { p with pc := pc } where
  pc := h.fine
  own := hp.own
  fresh i hi t ht := by
    obtain ⟨k, hk, hround⟩ := h.round i hi
    exact hp.fresh k hround t (hk.trans ht)
  held j hj t ht := by
    obtain ⟨k, hk, hnext⟩ := h.next j hj
    exact hp.held k hnext t (hk.trans ht)
  filled i hi := absurd hi (h.create i)
  there := h.tried
  seen := hp.seen

variable (nthreads) in
theorem MainPc.leads_nextCreate {i : ℕ} (h : p.pc.round = some i) (hnext : p.pc.next = some 0) :
    (MainPc.nextCreate nthreads (i + 1)).Leads p := by
  rw [MainPc.nextCreate]
  split_ifs
  · refine ⟨by simp, fun k hk => ?_, fun j hj => ?_, by simp, by simp [MainPc.tried]⟩
    · obtain rfl := Option.some.inj hk
      exact ⟨i, i.le_succ, h⟩
    · exact ⟨0, j.zero_le, hnext⟩
  · exact ⟨by simp, by simp [MainPc.round], fun j hj => ⟨0, j.zero_le, hnext⟩, by simp,
      by simp [MainPc.tried]⟩

variable (nthreads) in
theorem MainPc.leads_nextJoin {j : ℕ} (h : p.pc.next = some j) :
    (MainPc.nextJoin nthreads (j + 1)).Leads p := by
  rw [MainPc.nextJoin]
  split_ifs
  · refine ⟨by simp, by simp [MainPc.round], fun k hk => ?_, by simp, by simp [MainPc.tried]⟩
    obtain rfl := Option.some.inj hk
    exact ⟨j, j.le_succ, h⟩
  · exact ⟨by simp, by simp [MainPc.round], by simp [MainPc.next], by simp, by simp [MainPc.tried]⟩

/-- A structure is given to the thread `i`, which is not there yet. -/
theorem Inv.setCell (hp : Inv param p) {i : ℕ} (hround : p.pc.round = some i) {pc : MainPc}
    (hpc : pc.round = some i) (c : Cell π)
    (hfilled : pc = .create i → c = ⟨.live, some (param i)⟩) :
    Inv param { p.setCell i c with pc := pc } := by
  have habsent := hp.fresh i hround i le_rfl
  have hother : ∀ t, p.workers t ≠ .absent → Function.update p.cells i c t = p.cells t := by
    intro t ht
    refine Function.update_of_ne ?_ _ _
    rintro rfl
    exact ht habsent
  constructor
  case pc => rintro rfl; cases hpc
  case own =>
    intro t ht
    change (Function.update p.cells i c t).value = _ ∧
      ((Function.update p.cells i c t).buf = .live ∨
        (Function.update p.cells i c t).buf = .freed ∧ (p.workers t).Behind)
    rw [hother t ht]
    exact hp.own t ht
  case fresh =>
    intro k hk
    obtain rfl : i = k := Option.some.inj (hpc.symm.trans hk)
    exact hp.fresh i hround
  case held =>
    intro j hj t hjt ht
    change (Function.update p.cells i c t).buf = .live
    rw [hother t ht]
    refine hp.held 0 ?_ t t.zero_le ht
    revert hround
    cases p.pc <;> simp [MainPc.round, MainPc.next]
  case filled =>
    rintro k rfl
    obtain rfl : k = i := Option.some.inj hpc
    change Function.update p.cells k c k = _
    rw [Function.update_self, hfilled rfl]
  case there =>
    intro j hj
    cases pc <;> simp [MainPc.round, MainPc.tried] at hpc hj
  case seen => exact hp.seen

theorem next_of_round {pc : MainPc} {i : ℕ} (h : pc.round = some i) : pc.next = some 0 := by
  revert h
  cases pc <;> simp [MainPc.round, MainPc.next]

/-- The thread `i` is created. -/
theorem Inv.create (hp : Inv param p) {i : ℕ} (hpc : p.pc = .create i) :
    Inv param { p with workers := Function.update p.workers i (.at prog.worker),
                       pc := .nextCreate nthreads (i + 1) } := by
  have hround : p.pc.round = some i := by rw [hpc]; rfl
  have hcell := hp.filled i hpc
  have hleads := MainPc.leads_nextCreate nthreads hround (next_of_round hround)
  constructor
  case pc => exact hleads.fine
  case own =>
    intro t ht
    change _ ∧ (_ ∨ _ ∧ (Function.update p.workers i _ t).Behind)
    rcases eq_or_ne t i with rfl | hne
    · exact ⟨by rw [hcell], Or.inl (by rw [hcell])⟩
    · change Function.update p.workers i _ t ≠ _ at ht
      rw [Function.update_of_ne hne] at ht ⊢
      exact hp.own t ht
  case fresh =>
    intro k hk t hkt
    change Function.update p.workers i _ t = _
    have hik : k = i + 1 := by
      change (MainPc.nextCreate nthreads (i + 1)).round = some k at hk
      rw [MainPc.nextCreate] at hk
      split_ifs at hk
      · exact (Option.some.inj hk).symm
      · cases hk
    rw [Function.update_of_ne (by omega)]
    exact hp.fresh i hround t (by omega)
  case held =>
    intro j hj t hjt ht
    change Function.update p.workers i _ t ≠ _ at ht
    rcases eq_or_ne t i with rfl | hne
    · exact congrArg Cell.buf hcell
    · rw [Function.update_of_ne hne] at ht
      exact hp.held 0 (next_of_round hround) t t.zero_le ht
  case filled => exact fun k hk => absurd hk (hleads.create k)
  case there =>
    intro j hj
    change (MainPc.nextCreate nthreads (i + 1)).tried = some j at hj
    rw [MainPc.nextCreate] at hj
    split_ifs at hj <;> cases hj
  case seen => exact hp.seen

/-- The structure of a thread that could not be created is freed. -/
theorem Inv.freeUncreated (hp : Inv param p) {i : ℕ} (hpc : p.pc = .create i) :
    Inv param (p.free i (.createFatal i)) := by
  have hround : p.pc.round = some i := by rw [hpc]; rfl
  rw [State.free, hp.filled i hpc]
  exact hp.setCell hround rfl _ (by simp)

/-- The structure of the thread `j` is freed, which is behind its last access. -/
theorem Inv.free (hp : Inv param p) {j : ℕ} (hpc : p.pc = .free j)
    (hbehind : (p.workers j).Behind) :
    Inv param (p.free j (.nextJoin nthreads (j + 1))) := by
  have hnext : p.pc.next = some j := by rw [hpc]; rfl
  have hthere := hp.there j (by rw [hpc]; rfl)
  have hleads := MainPc.leads_nextJoin nthreads hnext
  rw [State.free, hp.held j hnext j le_rfl hthere]
  have hother : ∀ t, t ≠ j → ∀ c, Function.update p.cells j c t = p.cells t :=
    fun t hne c => Function.update_of_ne hne _ _
  constructor
  case pc => exact hleads.fine
  case own =>
    intro t ht
    obtain ⟨hvalue, hbuf⟩ := hp.own t ht
    change (Function.update p.cells j _ t).value = _ ∧
      ((Function.update p.cells j _ t).buf = .live ∨
        (Function.update p.cells j _ t).buf = .freed ∧ (p.workers t).Behind)
    rcases eq_or_ne t j with rfl | hne
    · rw [Function.update_self]
      exact ⟨hvalue, Or.inr ⟨rfl, hbehind⟩⟩
    · rw [hother t hne]
      exact ⟨hvalue, hbuf⟩
  case fresh =>
    intro k hk
    obtain ⟨i, -, hi⟩ := hleads.round k hk
    rw [hpc] at hi
    cases hi
  case held =>
    intro k hk t hkt ht
    have hjk : k = j + 1 := by
      change (MainPc.nextJoin nthreads (j + 1)).next = some k at hk
      rw [MainPc.nextJoin] at hk
      split_ifs at hk
      · exact (Option.some.inj hk).symm
      · cases hk
    change (Function.update p.cells j _ t).buf = .live
    rw [hother t (by omega)]
    exact hp.held j hnext t (by omega) ht
  case filled => exact fun k hk => absurd hk (hleads.create k)
  case there => exact hleads.tried
  case seen => exact hp.seen

/-- **The condition**: a structure is freed when its thread is behind its last access. -/
def FreedBehind (p : State π) (l : Label) : Prop :=
  ∀ j ∈ p.pc.tried, p.pc = .free j → l = .main .ok → (p.workers j).Behind

instance (p : State π) (l : Label) : Decidable (FreedBehind p l) :=
  inferInstanceAs (Decidable (∀ j ∈ p.pc.tried, _))

/-- A control point that no condition is about. -/
theorem MainPc.leads_of_same {pc : MainPc} (hround : pc.round = p.pc.round)
    (hnext : pc.next = p.pc.next) (htried : pc.tried = none) (hcreate : ∀ i, pc ≠ .create i)
    (hfine : pc ≠ .stale) : pc.Leads p :=
  ⟨hfine, fun i hi => ⟨i, le_rfl, hround ▸ hi⟩, fun j hj => ⟨j, le_rfl, hnext ▸ hj⟩, hcreate,
    by simp [htried]⟩

/-- A control point behind the try to join a thread. -/
theorem MainPc.leads_of_tried {pc : MainPc} {j : ℕ} (h : p.pc.next = some j)
    (hround : pc.round = none) (hnext : pc.next = some j) (htried : pc.tried = some j)
    (hthere : p.workers j ≠ .absent) : pc.Leads p := by
  refine ⟨?_, by simp [hround], fun k hk => ⟨k, le_rfl, h.trans (hnext.symm.trans hk)⟩, ?_,
    fun k hk => ?_⟩
  · rintro rfl
    cases hnext
  · rintro i rfl
    cases hround
  · obtain rfl : j = k := Option.some.inj (htried.symm.trans hk)
    exact hthere

/-- The end of the process. -/
theorem MainPc.leads_exited (status : ℤ) : (MainPc.exited status).Leads p :=
  ⟨by simp, by simp [MainPc.round], by simp [MainPc.next], by simp, by simp [MainPc.tried]⟩

/-- **`main` goes on**, where the condition is met. -/
theorem Inv.main (hp : Inv param p) (hG : FreedBehind p (.main a))
    (h : mainStep prog nthreads param p a = some q) : Inv param q := by
  rw [mainStep.eq_def] at h
  split at h <;> rename_i hpc
  case h_1 i =>
    obtain ⟨ok, -, rfl⟩ := Option.map_eq_some_iff.mp h
    exact hp.goto (MainPc.leads_of_same (by rw [hpc]; rfl) (by rw [hpc]; rfl) rfl (by simp)
      (by simp))
  case h_2 i =>
    obtain ⟨ok, -, rfl⟩ := Option.map_eq_some_iff.mp h
    split_ifs
    · exact hp.setCell (by rw [hpc]; rfl) rfl _ (by simp)
    · exact hp.goto
        (MainPc.leads_of_same (by rw [hpc]; rfl) (by rw [hpc]; rfl) rfl (by simp) (by simp))
  case h_3 i =>
    rcases afterFatal_cases h with rfl | rfl
    · exact hp.goto
        (MainPc.leads_of_same (by rw [hpc]; rfl) (by rw [hpc]; rfl) rfl (by simp) (by simp))
    · exact hp.goto (MainPc.leads_exited _)
  case h_4 i =>
    split_ifs at h <;> obtain rfl := Option.some.inj h
    · exact hp.setCell (by rw [hpc]; rfl) rfl _ (by simp)
    · exact hp.goto ⟨by simp, by simp [MainPc.round], by simp [MainPc.next], by simp,
        by simp [MainPc.tried]⟩
  case h_5 i =>
    obtain ⟨ok, -, rfl⟩ := Option.map_eq_some_iff.mp h
    split_ifs
    · exact hp.create hpc
    · exact hp.freeUncreated hpc
    · exact hp.goto
        (MainPc.leads_of_same (by rw [hpc]; rfl) (by rw [hpc]; rfl) rfl (by simp) (by simp))
  case h_6 i =>
    rcases afterFatal_cases h with rfl | rfl
    · exact hp.goto (MainPc.leads_nextCreate nthreads (by rw [hpc]; rfl) (by rw [hpc]; rfl))
    · exact hp.goto (MainPc.leads_exited _)
  case h_7 j =>
    obtain ⟨ok, -, rfl⟩ := Option.map_eq_some_iff.mp h
    split_ifs <;> exact hp.goto
      (MainPc.leads_of_same (by rw [hpc]; rfl) (by rw [hpc]; rfl) rfl (by simp) (by simp))
  case h_8 j =>
    obtain ⟨ok, -, rfl⟩ := Option.map_eq_some_iff.mp h
    split_ifs <;> exact hp.goto
      (MainPc.leads_of_same (by rw [hpc]; rfl) (by rw [hpc]; rfl) rfl (by simp) (by simp))
  case h_9 j =>
    rcases afterFatal_cases h with rfl | rfl
    · exact hp.goto
        (MainPc.leads_of_same (by rw [hpc]; rfl) (by rw [hpc]; rfl) rfl (by simp) (by simp))
    · exact hp.goto (MainPc.leads_exited _)
  case h_10 j =>
    have hnext : p.pc.next = some j := by rw [hpc]; rfl
    by_cases habsent : p.workers j = .absent
    · rw [if_pos habsent] at h
      obtain rfl := Option.some.inj h
      exact hp.goto ⟨by simp, by simp [MainPc.round], by simp [MainPc.next], by simp,
        by simp [MainPc.tried]⟩
    · rw [if_neg habsent] at h
      split at h
      · rw [Option.ite_none_right_eq_some] at h
        obtain ⟨-, h⟩ := h
        obtain rfl := Option.some.inj h
        have hleads : (MainPc.joined j).Leads p :=
          MainPc.leads_of_tried hnext rfl rfl rfl habsent
        have hjoined := hp.goto hleads
        exact ⟨hjoined.pc, hjoined.own, hjoined.fresh, hjoined.held, hjoined.filled, hjoined.there,
          hjoined.seen⟩
      · obtain rfl := Option.some.inj h
        exact hp.goto (MainPc.leads_of_tried hnext rfl rfl rfl habsent)
      · cases h
  case h_11 j =>
    obtain ⟨ok, -, rfl⟩ := Option.map_eq_some_iff.mp h
    have hthere := hp.there j (by rw [hpc]; rfl)
    have hnext : p.pc.next = some j := by rw [hpc]; rfl
    refine hp.goto ?_
    cases prog.failedJoin with
    | skip => exact MainPc.leads_nextJoin nthreads hnext
    | report => exact MainPc.leads_of_tried hnext rfl rfl rfl hthere
    | free => exact MainPc.leads_of_tried hnext rfl rfl rfl hthere
  case h_12 j =>
    obtain ⟨ok, -, rfl⟩ := Option.map_eq_some_iff.mp h
    exact hp.goto (MainPc.leads_of_tried (by rw [hpc]; rfl) rfl rfl rfl
      (hp.there j (by rw [hpc]; rfl)))
  case h_13 j =>
    split_ifs at h with hok
    obtain rfl := Option.some.inj h
    exact hp.free hpc (hG j (by rw [hpc]; rfl) hpc (by rw [hok]))
  case h_14 =>
    obtain ⟨ok, -, rfl⟩ := Option.map_eq_some_iff.mp h
    exact hp.goto
      (MainPc.leads_of_same (by rw [hpc]; rfl) (by rw [hpc]; rfl) rfl (by simp) (by simp))
  case h_15 =>
    split_ifs at h
    obtain rfl := Option.some.inj h
    exact hp.goto
      (MainPc.leads_of_same (by rw [hpc]; rfl) (by rw [hpc]; rfl) rfl (by simp) (by simp))
  all_goals cases h

/-- What a thread is about to access is there. -/
theorem Inv.live_of_access (hp : Inv param p) {todo : List Op}
    (hw : p.workers t = .at (.access :: todo)) : (p.cells t).buf = .live := by
  refine (hp.own t (by simp [hw])).2.resolve_right fun hb => ?_
  rw [hw] at hb
  exact hb.2 List.mem_cons_self

/-- **A thread goes on.** -/
theorem Inv.worker (hp : Inv param p) (h : workerStep p t = some q) : Inv param q := by
  -- a thread that is there is still there, and behind where it was
  have hmove : ∀ w seen, w ≠ .absent → p.workers t ≠ .absent → ((p.workers t).Behind → w.Behind) →
      (∀ x ∈ seen, x.2 = some (param x.1)) →
      Inv param { p with workers := Function.update p.workers t w, seen := seen } := by
    intro w seen hw hthere hbehind hseen
    have hpresent : ∀ u, Function.update p.workers t w u ≠ .absent ↔ p.workers u ≠ .absent := by
      intro u
      rcases eq_or_ne u t with rfl | hne
      · rw [Function.update_self]
        exact iff_of_true hw hthere
      · rw [Function.update_of_ne hne]
    refine ⟨hp.pc, fun u hu => ?_, fun i hi u hu => ?_, fun j hj u hju hu =>
      hp.held j hj u hju ((hpresent u).mp hu), hp.filled,
      fun j hj => (hpresent j).mpr (hp.there j hj), hseen⟩
    · obtain ⟨hvalue, hbuf⟩ := hp.own u ((hpresent u).mp hu)
      refine ⟨hvalue, hbuf.imp id fun hb => ⟨hb.1, ?_⟩⟩
      change (Function.update p.workers t w u).Behind
      rcases eq_or_ne u t with rfl | hne
      · rw [Function.update_self]
        exact hbehind hb.2
      · rw [Function.update_of_ne hne]
        exact hb.2
    · exact not_not.mp fun hne => (hpresent u).mp hne (hp.fresh i hi u hu)
  rw [workerStep] at h
  split at h <;> rename_i hw
  · obtain rfl := Option.some.inj h
    exact hmove _ _ (by simp) (by simp [hw]) (fun _ => trivial) hp.seen
  · rename_i todo
    have hthere : p.workers t ≠ .absent := by simp [hw]
    obtain ⟨hvalue, hbuf⟩ := hp.own t hthere
    rw [if_pos (hp.live_of_access hw)] at h
    obtain rfl := Option.some.inj h
    refine hmove _ _ (by simp) hthere (fun hb => ?_) fun x hx => ?_
    · rw [hw] at hb
      exact fun hmem => hb (List.mem_cons_of_mem _ hmem)
    · rcases List.mem_append.mp hx with hold | hnew
      · exact hp.seen x hold
      · rw [List.mem_singleton.mp hnew]
        exact hvalue
  · obtain rfl := Option.some.inj h
    refine hmove _ _ (by simp) (by simp [hw]) (fun hb => ?_) hp.seen
    rw [hw] at hb
    exact fun hmem => hb (List.mem_cons_of_mem _ hmem)
  · cases h
  · cases h

theorem step_cases (h : step prog nthreads param p l = some q) : p.pc.Ended = false ∧
    ((∃ a, l = .main a ∧ mainStep prog nthreads param p a = some q) ∨
      ∃ t, l = .worker t ∧ workerStep p t = some q) := by
  rw [step.eq_def] at h
  split_ifs at h with hended
  refine ⟨by simpa using hended, ?_⟩
  cases l with
  | main a => exact Or.inl ⟨a, rfl, h⟩
  | worker t => exact Or.inr ⟨t, rfl, h⟩

/-- **The invariant along one step** that meets the condition. -/
theorem Inv.step (hp : Inv param p) (hG : FreedBehind p l)
    (h : ThreadParams.step prog nthreads param p l = some q) : Inv param q := by
  rcases (step_cases h).2 with ⟨a, rfl, hmain⟩ | ⟨t, rfl, hworker⟩
  · exact hp.main hG hmain
  · exact hp.worker hworker

theorem inv_start : Inv param (.start nthreads) where
  pc := by rw [State.start]; split_ifs <;> simp
  own _ ht := absurd rfl ht
  fresh _ _ _ _ := rfl
  held _ _ _ _ ht := absurd rfl ht
  filled i hi := by
    rw [State.start] at hi
    split_ifs at hi
  there j hj := by
    rw [State.start] at hj
    split_ifs at hj <;> cases hj
  seen := by simp [State.start]

/-! ### Freeing in any case -/

/-- **Whatever the threads do next**, none of them accesses a structure that has been freed, and
each has read its own parameter. -/
def Safe (prog : Program) (nthreads : ℕ) (param : ℕ → π) (p : State π) : Prop :=
  ∀ (ts : List ℕ) (q : State π),
    run (step prog nthreads param) p (ts.map .worker) = some q →
      q.pc ≠ .stale ∧ ∀ x ∈ q.seen, x.2 = some (param x.1)

theorem Inv.safe (hp : Inv param p) : Safe prog nthreads param p := by
  intro ts q hrun
  have hworkers : ∀ l ∈ ts.map Label.worker, ∃ t, l = .worker t := by simp
  have hend : Inv param q := by
    refine (every_of_forall hworkers p).invariant (P := Inv param) ?_ hp hrun
    rintro r l r' hr ⟨t, rfl⟩ hstep
    exact hr.step (fun j _ _ hok => by cases hok) hstep
  exact ⟨hend.pc, hend.seen⟩

/-- A thread that has an access ahead of it, and whose structure is not there any more, comes to
it. -/
theorem not_safe_of_access {todo : List Op} (hw : p.workers t = .at todo) (hmem : .access ∈ todo)
    (hbuf : (p.cells t).buf ≠ .live) (hended : p.pc.Ended = false) :
    ¬Safe prog nthreads param p := by
  suffices h : ∃ k q, run (step prog nthreads param) p ((List.replicate k t).map .worker) = some q ∧
      q.pc = .stale by
    obtain ⟨k, q, hrun, hpc⟩ := h
    exact fun hsafe => (hsafe _ q hrun).1 hpc
  induction todo generalizing p with
  | nil => cases hmem
  | cons op todo ih =>
    by_cases hop : op = .access
    · refine ⟨1, { p with pc := .stale }, run_cons_eq_some.mpr ⟨_, ?_, rfl⟩, rfl⟩
      rw [step, hended, workerStep, hw, hop]
      simp [hbuf]
    · have hstep : step prog nthreads param p (.worker t) =
          some { p with workers := Function.update p.workers t (.at todo) } := by
        rw [step, hended, workerStep, hw]
        cases op <;> first | rfl | exact absurd rfl hop
      have hrest : .access ∈ todo := (List.mem_cons.mp hmem).resolve_left (Ne.symm hop)
      obtain ⟨k, q, hrun, hpc⟩ :=
        ih (p := { p with workers := Function.update p.workers t (.at todo) })
          (Function.update_self _ _ _) hrest hbuf hended
      exact ⟨k + 1, q, run_cons_eq_some.mpr ⟨_, hstep, hrun⟩, hpc⟩

/-- A thread that is not behind its last access has one ahead of it. -/
theorem Worker.exists_todo {w : Worker} (h : ¬w.Behind) :
    ∃ todo, w = .at todo ∧ .access ∈ todo := by
  cases w with
  | «at» todo => exact ⟨todo, rfl, not_not.mp h⟩
  | absent => exact absurd trivial h
  | exited => exact absurd trivial h

/-- A structure that is freed too early is accessed. -/
theorem Inv.not_safe (hp : Inv param p) (hG : ¬FreedBehind p l)
    (h : ThreadParams.step prog nthreads param p l = some q) : ¬Safe prog nthreads param q := by
  simp only [FreedBehind, not_forall] at hG
  obtain ⟨j, hj, hpc, rfl, hbehind⟩ := hG
  obtain ⟨-, ⟨a, ha, hmain⟩ | ⟨t, ht, -⟩⟩ := step_cases h
  · obtain rfl : .ok = a := Label.main.inj ha
    have hlive := hp.held j (by rw [hpc]; rfl) j le_rfl (hp.there j hj)
    simp only [mainStep, hpc, State.free, hlive, Buf.free, if_true, Option.some.injEq] at hmain
    subst hmain
    obtain ⟨todo, hw, hmem⟩ := Worker.exists_todo hbehind
    refine not_safe_of_access (t := j) hw hmem ?_ ?_
    · simp [State.setCell]
    · simp only [MainPc.nextJoin]
      split_ifs <;> rfl
  · cases ht

/-- **The structures are safe exactly if none is freed too early**: in a run, every structure is
freed when its thread is behind its last access if and only if, wherever the run comes through, no
thread can come to access a structure that has been freed, or has read another parameter than its
own. -/
theorem safe_iff (hrun : run (step prog nthreads param) (.start nthreads) ls = some p) :
    Every (step prog nthreads param) FreedBehind (.start nthreads) ls ↔
      ∀ js q, js <+: ls → run (step prog nthreads param) (.start nthreads) js = some q →
        Safe prog nthreads param q :=
  every_iff_of_break (P := Inv param) (fun _ _ _ hp hG hst => hp.step hG hst)
    (fun _ hp => hp.safe) (fun _ _ _ hp hG hst => hp.not_safe hG hst) inv_start hrun

/-- A join that fails while the thread sleeps: `pthreads_joiner3` frees the structure all the
same. -/
theorem safe_iff_early : ∃ ls : List Label,
    ¬∀ js q, js <+: ls →
      run (step joiner3 1 (passthis 5)) (.start 1) js = some q → Safe joiner3 1 (passthis 5) q := by
  have hrun : ∃ ls p, run (step joiner3 1 (passthis 5)) (.start 1) ls = some p ∧
      ¬Every (step joiner3 1 (passthis 5)) FreedBehind (.start 1) ls :=
    ⟨[.main .ok, .main .ok, .main .ok, .main .ok, .main .ok, .worker 0, .main .err, .main .ok,
      .main .ok, .main .ok], _, rfl, by decide⟩
  obtain ⟨ls, p, hrun, hnot⟩ := hrun
  exact ⟨ls, fun hsafe => hnot ((safe_iff hrun).mpr hsafe)⟩

/-! ### Freeing after a join only -/

/-- The thread that has been joined, and whose structure has not been freed yet. -/
def MainPc.inHand : MainPc → Option ℕ
  | .joined j | .free j => some j
  | _ => none

/-- How many threads the second loop has gone through. -/
def MainPc.passed (nthreads : ℕ) : MainPc → ℕ
  | .joining j | .clock j | .clockFatal j | .join j | .warn j | .joined j | .free j => j
  | .farewell | .exit | .gone => nthreads
  | _ => 0

/-- **The books**: what has been freed are the structures of the threads that have been joined. -/
structure Books (nthreads : ℕ) (p : State π) : Prop where
  exited : ∀ t ∈ p.joined, p.workers t = .exited
  known : ∀ j, p.pc.inHand = some j → j ∈ p.joined
  account : ∀ t, p.workers t ≠ .absent →
    ((p.cells t).buf = .freed ↔ t ∈ p.joined ∧ p.pc.inHand ≠ some t)
  passed : ∀ t < p.pc.passed nthreads, p.workers t ≠ .absent

/-- `main` moves, and nothing else changes. -/
theorem Books.goto (hb : Books nthreads p) {pc : MainPc} (hinHand : pc.inHand = p.pc.inHand)
    (hpassed : ∀ t < pc.passed nthreads, t < p.pc.passed nthreads ∨ p.workers t ≠ .absent) :
    Books nthreads { p with pc := pc } where
  exited := hb.exited
  known j hj := hb.known j (hinHand ▸ hj)
  account t ht := by
    change _ ↔ t ∈ p.joined ∧ pc.inHand ≠ some t
    rw [hinHand]
    exact hb.account t ht
  passed t ht := (hpassed t ht).elim (hb.passed t) id

theorem passed_nextJoin {j t : ℕ} (ht : t < (MainPc.nextJoin nthreads (j + 1)).passed nthreads) :
    t < j + 1 := by
  rw [MainPc.nextJoin] at ht
  split_ifs at ht with hlt
  · exact ht
  · simp only [MainPc.passed] at ht
    omega

theorem inHand_nextJoin (j : ℕ) : (MainPc.nextJoin nthreads j).inHand = none := by
  rw [MainPc.nextJoin]
  split_ifs <;> rfl

theorem inHand_nextCreate (i : ℕ) : (MainPc.nextCreate nthreads i).inHand = none := by
  rw [MainPc.nextCreate]
  split_ifs <;> rfl

theorem passed_nextCreate (i : ℕ) : (MainPc.nextCreate nthreads i).passed nthreads = 0 := by
  rw [MainPc.nextCreate]
  split_ifs <;> rfl

/-- The structure of a thread that is not there changes. -/
theorem Books.setCell (hb : Books nthreads p) {i : ℕ} (habsent : p.workers i = .absent)
    {pc : MainPc} (hinHand : pc.inHand = p.pc.inHand) (hpassed : pc.passed nthreads = 0)
    (c : Cell π) : Books nthreads { p.setCell i c with pc := pc } := by
  have hgoto := hb.goto hinHand fun t ht => absurd (hpassed ▸ ht) t.not_lt_zero
  refine ⟨hgoto.exited, hgoto.known, fun t ht => ?_, hgoto.passed⟩
  change (Function.update p.cells i c t).buf = .freed ↔ _
  have hne : t ≠ i := by
    rintro rfl
    exact ht habsent
  rw [Function.update_of_ne hne]
  exact hgoto.account t ht

/-- **`main` goes on**, when a failed join is only warned of. -/
theorem Books.main (hb : Books nthreads p) (hp : Inv param p) (hskip : prog.failedJoin = .skip)
    (h : mainStep prog nthreads param p a = some q) : Books nthreads q := by
  rw [mainStep.eq_def] at h
  split at h <;> rename_i hpc
  case h_1 i =>
    obtain ⟨ok, -, rfl⟩ := Option.map_eq_some_iff.mp h
    exact hb.goto (by rw [hpc]; rfl) (by simp [MainPc.passed])
  case h_2 i =>
    obtain ⟨ok, -, rfl⟩ := Option.map_eq_some_iff.mp h
    split_ifs
    · exact hb.setCell (hp.fresh i (by rw [hpc]; rfl) i le_rfl) (by rw [hpc]; rfl) rfl _
    · exact hb.goto (by rw [hpc]; rfl) (by simp [MainPc.passed])
  case h_3 i =>
    rcases afterFatal_cases h with rfl | rfl <;>
      exact hb.goto (by rw [hpc]; rfl) (by simp [MainPc.passed])
  case h_4 i =>
    split_ifs at h <;> obtain rfl := Option.some.inj h
    · exact hb.setCell (hp.fresh i (by rw [hpc]; rfl) i le_rfl) (by rw [hpc]; rfl) rfl _
    · exact hb.goto (by rw [hpc]; rfl) (by simp [MainPc.passed])
  case h_5 i =>
    obtain ⟨ok, -, rfl⟩ := Option.map_eq_some_iff.mp h
    have habsent := hp.fresh i (by rw [hpc]; rfl) i le_rfl
    have hcell := hp.filled i hpc
    split_ifs
    · have hgoto : Books nthreads { p with pc := .nextCreate nthreads (i + 1) } :=
        hb.goto (by rw [hpc, inHand_nextCreate]; rfl) (by simp [passed_nextCreate])
      have hnot : i ∉ p.joined := fun hi => by simp [hb.exited i hi] at habsent
      refine ⟨fun t ht => ?_, hgoto.known, fun t ht => ?_, fun t ht => ?_⟩
      · change Function.update p.workers i _ t = _
        have hne : t ≠ i := by
          rintro rfl
          exact hnot ht
        rw [Function.update_of_ne hne]
        exact hb.exited t ht
      · rcases eq_or_ne t i with rfl | hne
        · simp [hcell, hnot]
        · change Function.update p.workers i _ t ≠ _ at ht
          rw [Function.update_of_ne hne] at ht
          exact hgoto.account t ht
      · exact absurd ht (by simp [passed_nextCreate])
    · rw [State.free, hcell]
      exact hb.setCell habsent (by rw [hpc]; rfl) rfl _
    · exact hb.goto (by rw [hpc]; rfl) (by simp [MainPc.passed])
  case h_6 i =>
    rcases afterFatal_cases h with rfl | rfl
    · exact hb.goto (by rw [hpc, inHand_nextCreate]; rfl) (by simp [passed_nextCreate])
    · exact hb.goto (by rw [hpc]; rfl) (by simp [MainPc.passed])
  case h_7 j =>
    obtain ⟨ok, -, rfl⟩ := Option.map_eq_some_iff.mp h
    split_ifs <;> exact hb.goto (by rw [hpc]; rfl) (fun t ht => Or.inl (by rw [hpc]; exact ht))
  case h_8 j =>
    obtain ⟨ok, -, rfl⟩ := Option.map_eq_some_iff.mp h
    split_ifs <;> exact hb.goto (by rw [hpc]; rfl) (fun t ht => Or.inl (by rw [hpc]; exact ht))
  case h_9 j =>
    rcases afterFatal_cases h with rfl | rfl
    · exact hb.goto (by rw [hpc]; rfl) (fun t ht => Or.inl (by rw [hpc]; exact ht))
    · exact hb.goto (by rw [hpc]; rfl) (by simp [MainPc.passed])
  case h_10 j =>
    by_cases habsent : p.workers j = .absent
    · rw [if_pos habsent] at h
      obtain rfl := Option.some.inj h
      exact hb.goto (by rw [hpc]; rfl) (by simp [MainPc.passed])
    · rw [if_neg habsent] at h
      have hlive := hp.held j (by rw [hpc]; rfl) j le_rfl habsent
      split at h
      · rw [Option.ite_none_right_eq_some] at h
        obtain ⟨hexited, h⟩ := h
        obtain rfl := Option.some.inj h
        refine ⟨fun t ht => ?_, fun k hk => ?_, fun t ht => ?_, fun t ht => ?_⟩
        · rcases List.mem_append.mp ht with hold | hnew
          · exact hb.exited t hold
          · rw [List.mem_singleton.mp hnew]
            exact hexited
        · obtain rfl : j = k := Option.some.inj hk
          exact List.mem_append_right _ (List.mem_singleton_self j)
        · have hnone : p.pc.inHand ≠ some t := by simp [hpc, MainPc.inHand]
          have hacc := hb.account t ht
          rw [and_iff_left hnone] at hacc
          change _ ↔ t ∈ p.joined ++ [j] ∧ some j ≠ some t
          rcases eq_or_ne t j with rfl | hne
          · simp [hlive]
          · simp [hacc, hne, hne.symm]
        · exact hb.passed t (by rw [hpc]; exact ht)
      · obtain rfl := Option.some.inj h
        exact hb.goto (by rw [hpc]; rfl) (fun t ht => Or.inl (by rw [hpc]; exact ht))
      · cases h
  case h_11 j =>
    obtain ⟨ok, -, rfl⟩ := Option.map_eq_some_iff.mp h
    rw [hskip]
    refine hb.goto (by rw [hpc]; exact inHand_nextJoin _) fun t ht => ?_
    rcases (Nat.lt_succ_iff_lt_or_eq.mp (passed_nextJoin ht)) with hlt | rfl
    · exact Or.inl (by rw [hpc]; exact hlt)
    · exact Or.inr (hp.there t (by rw [hpc]; rfl))
  case h_12 j =>
    obtain ⟨ok, -, rfl⟩ := Option.map_eq_some_iff.mp h
    exact hb.goto (by rw [hpc]; rfl) (fun t ht => Or.inl (by rw [hpc]; exact ht))
  case h_13 j =>
    split_ifs at h with hok
    obtain rfl := Option.some.inj h
    have hthere := hp.there j (by rw [hpc]; rfl)
    have hjoined := hb.known j (by rw [hpc]; rfl)
    rw [State.free, hp.held j (by rw [hpc]; rfl) j le_rfl hthere]
    refine ⟨hb.exited, fun k hk => ?_, fun t ht => ?_, fun t ht => ?_⟩
    · change (MainPc.nextJoin nthreads (j + 1)).inHand = some k at hk
      simp [inHand_nextJoin] at hk
    · change (Function.update p.cells j _ t).buf = .freed ↔
        t ∈ p.joined ∧ (MainPc.nextJoin nthreads (j + 1)).inHand ≠ some t
      rw [inHand_nextJoin]
      rcases eq_or_ne t j with rfl | hne
      · simp [hjoined]
      · rw [Function.update_of_ne hne, hb.account t ht, hpc]
        simp [MainPc.inHand, hne.symm]
    · rcases (Nat.lt_succ_iff_lt_or_eq.mp (passed_nextJoin ht)) with hlt | rfl
      · exact hb.passed t (by rw [hpc]; exact hlt)
      · exact hthere
  case h_14 =>
    obtain ⟨ok, -, rfl⟩ := Option.map_eq_some_iff.mp h
    exact hb.goto (by rw [hpc]; rfl) (fun t ht => Or.inl (by rw [hpc]; exact ht))
  case h_15 =>
    split_ifs at h
    obtain rfl := Option.some.inj h
    exact hb.goto (by rw [hpc]; rfl) (fun t ht => Or.inl (by rw [hpc]; exact ht))
  all_goals cases h

/-- A thread goes on. -/
theorem Books.worker (hb : Books nthreads p) (hp : Inv param p) (h : workerStep p t = some q) :
    Books nthreads q := by
  have hmove : ∀ w seen, w ≠ .absent → p.workers t ≠ .absent → p.workers t ≠ .exited →
      Books nthreads { p with workers := Function.update p.workers t w, seen := seen } := by
    intro w seen hw hthere hexited
    have hpresent : ∀ u, Function.update p.workers t w u ≠ .absent ↔ p.workers u ≠ .absent := by
      intro u
      rcases eq_or_ne u t with rfl | hne
      · rw [Function.update_self]
        exact iff_of_true hw hthere
      · rw [Function.update_of_ne hne]
    refine ⟨fun u hu => ?_, hb.known, fun u hu => hb.account u ((hpresent u).mp hu),
      fun u hu => (hpresent u).mpr (hb.passed u hu)⟩
    change Function.update p.workers t w u = _
    have hne : u ≠ t := by
      rintro rfl
      exact hexited (hb.exited u hu)
    rw [Function.update_of_ne hne]
    exact hb.exited u hu
  rw [workerStep] at h
  split at h <;> rename_i hw
  · obtain rfl := Option.some.inj h
    exact hmove _ _ (by simp) (by simp [hw]) (by simp [hw])
  · rw [if_pos (hp.live_of_access hw)] at h
    obtain rfl := Option.some.inj h
    exact hmove _ _ (by simp) (by simp [hw]) (by simp [hw])
  · obtain rfl := Option.some.inj h
    exact hmove _ _ (by simp) (by simp [hw]) (by simp [hw])
  · cases h
  · cases h

theorem books_start : Books nthreads (.start nthreads : State π) where
  exited t ht := by cases ht
  known j hj := by
    rw [State.start] at hj
    split_ifs at hj <;> cases hj
  account _ ht := absurd rfl ht
  passed t ht := by
    rw [State.start] at ht
    split_ifs at ht with hpos
    · cases ht
    · exact absurd (Nat.zero_lt_of_lt ht) hpos

/-- **Both invariants along a run**, when a failed join is only warned of. -/
theorem Books.run (hskip : prog.failedJoin = .skip)
    (hrun : Runs.run (step prog nthreads param) (.start nthreads) ls = some p) :
    Inv param p ∧ Books nthreads p := by
  refine run_invariant (P := fun p => Inv param p ∧ Books nthreads p) ?_
    ⟨inv_start, books_start⟩ hrun
  rintro p l q ⟨hp, hb⟩ hstep
  have hbehind : FreedBehind p l := by
    intro j _ hpc _
    rw [hb.exited j (hb.known j (by rw [hpc]; rfl))]
    trivial
  refine ⟨hp.step hbehind hstep, ?_⟩
  rcases (step_cases hstep).2 with ⟨a, rfl, hmain⟩ | ⟨t, rfl, hworker⟩
  · exact hb.main hp hskip hmain
  · exact hb.worker hp hworker

/-- **Freed after a join only, a structure is never accessed afterwards**, and each thread reads its
own parameter; when `main` has left its threads, what has not been freed are the structures of those
that it could not join. -/
theorem joined_owns (hskip : prog.failedJoin = .skip)
    (hrun : Runs.run (step prog nthreads param) (.start nthreads) ls = some p) :
    p.pc ≠ .stale ∧ (∀ x ∈ p.seen, x.2 = some (param x.1)) ∧
      (p.pc = .gone →
        ∀ t < nthreads, (p.cells t).buf = if t ∈ p.joined then .freed else .live) := by
  obtain ⟨hp, hb⟩ := Books.run hskip hrun
  refine ⟨hp.pc, hp.seen, fun hpc t ht => ?_⟩
  have hthere := hb.passed t (by rw [hpc]; exact ht)
  have hacc := hb.account t hthere
  rw [hpc, and_iff_left (by simp [MainPc.inHand])] at hacc
  split_ifs with hmem
  · exact hacc.mpr hmem
  · exact (hp.own t hthere).2.resolve_right fun hfreed => hmem (hacc.mp hfreed.1)

/-- **The joiners' threads sleep a positive time**, and no longer than they are asked to. -/
theorem slptm_pos {sleeptm : Int32} (h : (nthreads : ℤ) - 1 < sleeptm.toInt) (ht : t < nthreads) :
    0 < (passthis sleeptm t).slptm.toInt ∧ (passthis sleeptm t).slptm.toInt ≤ sleeptm.toInt := by
  have hhigh := sleeptm.toInt_lt
  have hsub : (sleeptm - Int32.ofNat t).toInt = sleeptm.toInt - t := by
    rw [Int32.toInt_sub, Int32.toInt_ofNat_of_lt (by omega)]
    exact Int.bmod_eq_of_le (by omega) (by omega)
  rw [Passit.slptm, passthis, hsub]
  omega

/-- **`pthreads_joiner4` is safe whatever its joins come to**: no thread accesses a structure that
has been freed, each reads its own number and the time of the command line and sleeps a positive
time, and when `main` has left its threads, the structures that are still there are those of the
threads that it could not join in time. -/
theorem joiner4_owns {argv : List (List UInt8)} {sleeptm : Int32} {p : State Passit}
    (hargs : joiner4Args nthreads argv = some sleeptm)
    (hrun : Runs.run (step joiner4 nthreads (passthis sleeptm)) (.start nthreads) ls = some p) :
    p.pc ≠ .stale ∧ (∀ x ∈ p.seen, x.2 = some (passthis sleeptm x.1)) ∧
      (∀ t < nthreads, 0 < (passthis sleeptm t).slptm.toInt) ∧
      (p.pc = .gone → ∀ t < nthreads,
        (p.cells t).buf = if t ∈ p.joined then .freed else .live) := by
  have hskip : joiner4.failedJoin = .skip := rfl
  obtain ⟨hfine, hseen, hgone⟩ := joined_owns hskip hrun
  refine ⟨hfine, hseen, fun t ht => (slptm_pos ?_ ht).1, hgone⟩
  rw [joiner4Args] at hargs
  split_ifs at hargs with hlen hsmall
  obtain rfl := Option.some.inj hargs
  omega

/-- Two threads, the second of which is joined too late: its structure is left. -/
theorem joiner4_owns_late : ∃ p : State Passit, p.pc = .gone ∧ (p.cells 0).buf = .freed ∧
    (p.cells 1).buf = .live ∧ p.pc ≠ .stale := by
  have hrun : ∃ ls p, joiner4Args 2 [[], [53], [53]] = some 5 ∧
      run (step joiner4 2 (passthis 5)) (.start 2) ls = some p ∧ p.pc = .gone ∧ p.joined = [0] :=
    ⟨List.replicate 8 (.main .ok) ++ List.replicate 5 (.worker 0) ++
      [.main .ok, .main .ok, .main .ok, .main .ok, .main .ok, .main .ok, .main .ok, .main .err,
        .worker 1, .main .ok, .main .ok, .main .ok], _, by decide, rfl, rfl, rfl⟩
  obtain ⟨ls, p, hargs, hrun, hpc, hjoined⟩ := hrun
  obtain ⟨hfine, -, -, hgone⟩ := joiner4_owns hargs hrun
  refine ⟨p, hpc, ?_, ?_, hfine⟩
  · rw [hgone hpc 0 (by decide), hjoined]
    rfl
  · rw [hgone hpc 1 (by decide), hjoined]
    rfl

end Steps

end ThreadParams

end SystemProgramming
