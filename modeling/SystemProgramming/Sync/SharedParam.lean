import SystemProgramming.Sync.ThreadParams

/-!
# One parameter for all threads

Two programs pass the same variable to all their threads: `pthreads1_wrong` (`ch14/param_passing/`)
the counter of the loop that creates them, and `pthreads_joiner_BUGGY_3`
(`solutions_to_assgn/ch14/`) one structure, whose number `main` overwrites in each round. A thread
that reads late reads the number of another one.

Whatever the program, a thread reads its own number for certain exactly if `main` does not touch the
variable while a thread that has been created still has to read it
(`SystemProgramming.SharedParam.own_numbers_iff`): neither to write the next number nor to free it.
So with two threads and more the first one is to be through before the second is created – though
the threads of the second program sleep for seconds before they read their number the last time.
-/

namespace SystemProgramming

open HandleErr Runs ThreadParams

namespace SharedParam

/-- What distinguishes the programs. -/
structure Program where
  /-- The thread function, up to its `pthread_exit`. -/
  worker : List Op
  /-- The variable is allocated, and freed when the threads have been joined; otherwise it is the
  counter of the loop, and the process exits after a while. -/
  heap : Bool
  deriving DecidableEq, Repr

/-- Where `main` stands. -/
inductive MainPc where
  /-- About to write the number `i`. -/
  | store (i : ℕ)
  /-- About to create the thread. -/
  | create (i : ℕ)
  /-- That failed; about to call `FATAL`. -/
  | createFatal (i : ℕ)
  /-- About to join the thread. -/
  | join (j : ℕ)
  /-- That failed; about to warn. -/
  | warn (j : ℕ)
  /-- About to free the structure. -/
  | free
  /-- In its `sleep`. -/
  | sleep
  /-- It has left its threads. -/
  | gone
  /-- The process has exited. -/
  | exited (status : ℤ)
  /-- A thread has read a structure that had been freed. -/
  | stale
  /-- `main` has written to one, or called for a join of a thread that is not there. -/
  | undefined
  deriving DecidableEq, Repr

/-- The state of the process. -/
structure State where
  pc : MainPc
  /-- The variable is there. -/
  live : Bool
  /-- The number in it. -/
  value : ℕ
  workers : ℕ → Worker
  /-- The numbers that the threads have read. -/
  seen : List (ℕ × ℕ)

/-- What follows the join of a thread. -/
def MainPc.nextJoin (nthreads j : ℕ) : MainPc := if j < nthreads then .join j else .free

/-- The head of the loop. The counter is written once more after the last round. -/
def Program.next (prog : Program) (nthreads i : ℕ) : MainPc :=
  if prog.heap = true ∧ nthreads ≤ i then .nextJoin nthreads 0 else .store i

/-- `main` comes to its loop. -/
def State.start (prog : Program) (nthreads : ℕ) : State :=
  ⟨prog.next nthreads 0, true, 0, fun _ => .absent, []⟩

/-- `main`. -/
def mainStep (prog : Program) (nthreads : ℕ) (p : State) (a : Answer) : Option State :=
  let goto (p : State) (pc : MainPc) : State := { p with pc := pc }
  match p.pc with
  | .store i => if a = .ok then
      some (if p.live then goto { p with value := i } (if i < nthreads then .create i else .sleep)
        else goto p .undefined)
    else none
  | .create i => a.status.map fun ok =>
    if ok then
      goto { p with workers := Function.update p.workers i (.at prog.worker) }
        (prog.next nthreads (i + 1))
    else goto (if prog.heap then { p with live := false } else p) (.createFatal i)
  | .createFatal i =>
    afterFatal a (fun status => goto p (.exited status)) (goto p (prog.next nthreads (i + 1)))
  | .join j =>
    if p.workers j = .absent then some (goto p .undefined)
    else match a with
      | .ok => if p.workers j = .exited then some (goto p (.nextJoin nthreads (j + 1))) else none
      | .err => some (goto p (.warn j))
      | _ => none
  | .warn j => a.status.map fun _ => goto p (.nextJoin nthreads (j + 1))
  | .free => if a = .ok then some (goto { p with live := false } .gone) else none
  | .sleep => a.status.map fun _ => goto p (.exited 0)
  | .gone | .exited _ | .stale | .undefined => none

/-- A thread. -/
def workerStep (p : State) (t : ℕ) : Option State :=
  let goto (p : State) (w : Worker) : State := { p with workers := Function.update p.workers t w }
  match p.workers t with
  | .at [] => some (goto p .exited)
  | .at (.access :: todo) =>
    some (if p.live then goto { p with seen := p.seen ++ [(t, p.value)] } (.at todo)
      else { p with pc := .stale })
  | .at (_ :: todo) => some (goto p (.at todo))
  | .absent | .exited => none

/-- The process has ended. -/
def MainPc.Ended : MainPc → Bool
  | .exited _ | .stale | .undefined => true
  | _ => false

/-- **The step function.** -/
def step (prog : Program) (nthreads : ℕ) (p : State) (l : ThreadParams.Label) : Option State :=
  if p.pc.Ended then none
  else match l with
    | .main a => mainStep prog nthreads p a
    | .worker t => workerStep p t

/-- `pthreads1_wrong`: a thread reads its number, and prints it. -/
def pthreads1Wrong : Program := ⟨[.access, .print], false⟩

/-- `pthreads_joiner_BUGGY_3`: a thread computes its time to sleep, prints its structure, prints
what it does, sleeps, and prints that it is done. -/
def joinerBuggy3 : Program := ⟨[.access, .access, .access, .sleep, .access], true⟩

/-! ### Reading one's own number -/

/-- `main` overwrites the variable, or frees it. -/
def Touches (prog : Program) (p : State) (l : ThreadParams.Label) : Prop :=
  match p.pc with
  | .store _ | .free => l = .main .ok
  | .create _ => prog.heap = true ∧ l = .main .err
  | _ => False

instance (prog : Program) (p : State) (l : ThreadParams.Label) : Decidable (Touches prog p l) := by
  unfold Touches
  split <;> infer_instance

/-- **The condition**: the variable is touched when all threads are behind their last access. -/
def Apart (prog : Program) (nthreads : ℕ) (p : State) (l : ThreadParams.Label) : Prop :=
  Touches prog p l → ∀ t < nthreads, (p.workers t).Behind

instance (prog : Program) (nthreads : ℕ) (p : State) (l : ThreadParams.Label) :
    Decidable (Apart prog nthreads p l) :=
  inferInstanceAs (Decidable (_ → _))

/-- **Whatever the threads do next**, each reads its own number, and none a structure that has been
freed. -/
def Safe (prog : Program) (nthreads : ℕ) (p : State) : Prop :=
  ∀ (ts : List ℕ) (q : State), run (step prog nthreads) p (ts.map .worker) = some q →
    q.pc ≠ .stale ∧ ∀ x ∈ q.seen, x.2 = x.1

/-- The round in which the variable is. -/
def MainPc.round : MainPc → Option ℕ
  | .create i | .createFatal i => some i
  | .store (i + 1) => some i
  | _ => none

/-- **The invariant**: the one thread that may still read is the one whose number is there. -/
structure Inv (nthreads : ℕ) (p : State) : Prop where
  pc : p.pc ≠ .stale
  own : ∀ t, ¬(p.workers t).Behind → p.live = true ∧ p.value = t
  round : ∀ i, p.pc.round = some i → p.value = i
  lt : ∀ i, p.pc = .create i → i < nthreads ∧ p.live = true
  first : p.pc = .store 0 → ∀ t, (p.workers t).Behind
  few : ∀ t, nthreads ≤ t → p.workers t = .absent
  seen : ∀ x ∈ p.seen, x.2 = x.1

section Steps

variable {prog : Program} {nthreads : ℕ} {p q : State} {l : ThreadParams.Label} {a : Answer}
  {ls : List ThreadParams.Label} {t : ℕ}

theorem step_cases (h : step prog nthreads p l = some q) : p.pc.Ended = false ∧
    ((∃ a, l = .main a ∧ mainStep prog nthreads p a = some q) ∨
      ∃ t, l = .worker t ∧ workerStep p t = some q) := by
  rw [step.eq_def] at h
  split_ifs at h with hended
  refine ⟨by simpa using hended, ?_⟩
  cases l with
  | main a => exact Or.inl ⟨a, rfl, h⟩
  | worker t => exact Or.inr ⟨t, rfl, h⟩

theorem Inv.behind (hp : Inv nthreads p) (h : ∀ t < nthreads, (p.workers t).Behind) (t : ℕ) :
    (p.workers t).Behind := by
  rcases lt_or_ge t nthreads with hlt | hge
  · exact h t hlt
  · rw [hp.few t hge]
    trivial

/-- `main` moves, and nothing else changes. -/
theorem Inv.goto (hp : Inv nthreads p) {pc : MainPc} (hfine : pc ≠ .stale)
    (hround : ∀ i, pc.round = some i → p.value = i) (hcreate : ∀ i, pc ≠ .create i)
    (hfirst : pc ≠ .store 0) : Inv nthreads { p with pc := pc } :=
  ⟨hfine, hp.own, hround, fun i hi => absurd hi (hcreate i), fun h => absurd h hfirst, hp.few,
    hp.seen⟩

theorem nextJoin_cases (nthreads j : ℕ) :
    MainPc.nextJoin nthreads j = .join j ∨ MainPc.nextJoin nthreads j = .free := by
  rw [MainPc.nextJoin]
  split_ifs
  · exact Or.inl rfl
  · exact Or.inr rfl

theorem Inv.gotoJoin (hp : Inv nthreads p) (j : ℕ) :
    Inv nthreads { p with pc := .nextJoin nthreads j } := by
  rcases nextJoin_cases nthreads j with h | h <;> rw [h] <;>
    exact hp.goto (by simp) (by simp [MainPc.round]) (by simp) (by simp)

/-- The end of a round. -/
theorem Inv.gotoNext (hp : Inv nthreads p) {i : ℕ} (hvalue : p.value = i) :
    Inv nthreads { p with pc := prog.next nthreads (i + 1) } := by
  rw [Program.next]
  split_ifs
  · exact hp.gotoJoin 0
  · exact hp.goto (by simp) (by simp [MainPc.round, hvalue]) (by simp) (by simp)

/-- The variable changes, or goes, when all are behind their last access. -/
theorem Inv.touch (hp : Inv nthreads p) (h : ∀ t < nthreads, (p.workers t).Behind) {pc : MainPc}
    {live : Bool} {value : ℕ} (hfine : pc ≠ .stale) (hround : ∀ i, pc.round = some i → value = i)
    (hcreate : ∀ i, pc = .create i → i < nthreads ∧ live = true) :
    Inv nthreads { p with pc := pc, live := live, value := value } :=
  ⟨hfine, fun t ht => absurd (hp.behind h t) ht, hround, hcreate, fun _ => hp.behind h, hp.few,
    hp.seen⟩

/-- The thread `i` is created, in its round. -/
theorem Inv.create (hp : Inv nthreads p) {i : ℕ} (hpc : p.pc = .create i) :
    Inv nthreads { p with workers := Function.update p.workers i (.at prog.worker) } := by
  have hvalue := hp.round i (by rw [hpc]; rfl)
  obtain ⟨hlt, hlive⟩ := hp.lt i hpc
  refine ⟨hp.pc, fun t ht => ?_, hp.round, hp.lt, fun h => ?_, fun t ht => ?_, hp.seen⟩
  · change ¬(Function.update p.workers i _ t).Behind at ht
    rcases eq_or_ne t i with rfl | hne
    · exact ⟨hlive, hvalue⟩
    · rw [Function.update_of_ne hne] at ht
      exact hp.own t ht
  · change p.pc = _ at h
    rw [hpc] at h
    cases h
  · change Function.update p.workers i _ t = _
    rw [Function.update_of_ne (by omega)]
    exact hp.few t ht

/-- **`main` goes on**, where the condition is met. -/
theorem Inv.main (hp : Inv nthreads p) (hG : Apart prog nthreads p (.main a))
    (h : mainStep prog nthreads p a = some q) : Inv nthreads q := by
  rw [mainStep.eq_def] at h
  split at h <;> rename_i hpc
  case h_1 i =>
    have htouch : a = .ok → ∀ t < nthreads, (p.workers t).Behind := fun ha =>
      hG (by rw [Touches, hpc, ha])
    rw [Option.ite_none_right_eq_some] at h
    obtain ⟨hok, h⟩ := h
    obtain rfl := Option.some.inj h
    split_ifs with hlive hlt
    · exact hp.touch (htouch hok) (by simp) (fun k hk => Option.some.inj hk)
        (fun k hk => ⟨MainPc.create.inj hk ▸ hlt, hlive⟩)
    · exact hp.touch (htouch hok) (by simp) (by simp [MainPc.round]) (by simp)
    · exact hp.goto (by simp) (by simp [MainPc.round]) (by simp) (by simp)
  case h_2 i =>
    obtain ⟨ok, hok, rfl⟩ := Option.map_eq_some_iff.mp h
    have hvalue := hp.round i (by rw [hpc]; rfl)
    cases ok with
    | true => exact (hp.create hpc).gotoNext hvalue
    | false =>
      simp only [Bool.false_eq_true, if_false]
      split_ifs with hheap
      · have ha : a = .err := by
          rcases Answer.status_cases hok with ⟨-, h⟩ | ⟨h, -⟩
          · cases h
          · exact h
        refine hp.touch (hG ?_) (by simp) (fun k hk => ?_) (by simp)
        · rw [Touches, hpc, ha]
          exact ⟨hheap, rfl⟩
        · exact hvalue.trans (Option.some.inj hk)
      · exact hp.goto (by simp) (fun k hk => hvalue.trans (Option.some.inj hk)) (by simp) (by simp)
  case h_3 i =>
    rcases afterFatal_cases h with rfl | rfl
    · exact hp.gotoNext (hp.round i (by rw [hpc]; rfl))
    · exact hp.goto (by simp) (by simp [MainPc.round]) (by simp) (by simp)
  case h_4 j =>
    by_cases habsent : p.workers j = .absent
    · rw [if_pos habsent] at h
      obtain rfl := Option.some.inj h
      exact hp.goto (by simp) (by simp [MainPc.round]) (by simp) (by simp)
    · rw [if_neg habsent] at h
      split at h
      · rw [Option.ite_none_right_eq_some] at h
        obtain rfl := Option.some.inj h.2
        exact hp.gotoJoin _
      · obtain rfl := Option.some.inj h
        exact hp.goto (by simp) (by simp [MainPc.round]) (by simp) (by simp)
      · cases h
  case h_5 j =>
    obtain ⟨ok, -, rfl⟩ := Option.map_eq_some_iff.mp h
    exact hp.gotoJoin _
  case h_6 =>
    rw [Option.ite_none_right_eq_some] at h
    obtain ⟨hok, h⟩ := h
    obtain rfl := Option.some.inj h
    exact hp.touch (hG (by rw [Touches, hpc, hok])) (by simp) (by simp [MainPc.round]) (by simp)
  case h_7 =>
    obtain ⟨ok, -, rfl⟩ := Option.map_eq_some_iff.mp h
    exact hp.goto (by simp) (by simp [MainPc.round]) (by simp) (by simp)
  all_goals cases h

/-- **A thread goes on.** -/
theorem Inv.worker (hp : Inv nthreads p) (h : workerStep p t = some q) : Inv nthreads q := by
  have hmove : ∀ w seen, p.workers t ≠ .absent → ((p.workers t).Behind → w.Behind) →
      (∀ x ∈ seen, x.2 = x.1) →
      Inv nthreads { p with workers := Function.update p.workers t w, seen := seen } := by
    intro w seen hthere hbehind hseen
    have hmono : ∀ u, (p.workers u).Behind → (Function.update p.workers t w u).Behind := by
      intro u hu
      rcases eq_or_ne u t with rfl | hne
      · rw [Function.update_self]
        exact hbehind hu
      · rwa [Function.update_of_ne hne]
    refine ⟨hp.pc, fun u hu => hp.own u fun hb => hu (hmono u hb), hp.round, hp.lt,
      fun hpc u => hmono u (hp.first hpc u), fun u hu => ?_, hseen⟩
    change Function.update p.workers t w u = _
    have hne : u ≠ t := by
      rintro rfl
      exact hthere (hp.few u hu)
    rw [Function.update_of_ne hne]
    exact hp.few u hu
  rw [workerStep] at h
  split at h <;> rename_i hw
  · obtain rfl := Option.some.inj h
    exact hmove _ _ (by simp [hw]) (fun _ => trivial) hp.seen
  · rename_i todo
    have hahead : ¬(p.workers t).Behind := by
      rw [hw]
      exact fun hb => hb List.mem_cons_self
    obtain ⟨hlive, hvalue⟩ := hp.own t hahead
    rw [if_pos hlive] at h
    obtain rfl := Option.some.inj h
    refine hmove _ _ (by simp [hw]) (fun hb => absurd hb hahead) fun x hx => ?_
    rcases List.mem_append.mp hx with hold | hnew
    · exact hp.seen x hold
    · rw [List.mem_singleton.mp hnew]
      exact hvalue
  · obtain rfl := Option.some.inj h
    refine hmove _ _ (by simp [hw]) (fun hb => ?_) hp.seen
    rw [hw] at hb
    exact fun hmem => hb (List.mem_cons_of_mem _ hmem)
  · cases h
  · cases h

/-- **The invariant along one step** that meets the condition. -/
theorem Inv.step (hp : Inv nthreads p) (hG : Apart prog nthreads p l)
    (h : SharedParam.step prog nthreads p l = some q) : Inv nthreads q := by
  rcases (step_cases h).2 with ⟨a, rfl, hmain⟩ | ⟨t, rfl, hworker⟩
  · exact hp.main hG hmain
  · exact hp.worker hworker

theorem inv_start : Inv nthreads (.start prog nthreads) := by
  have habsent : ∀ pc, pc ≠ .stale → (∀ i, pc.round = some i → 0 = i) → (∀ i, pc ≠ .create i) →
      Inv nthreads ⟨pc, true, 0, fun _ => .absent, []⟩ := fun pc hfine hround hcreate =>
    ⟨hfine, fun t ht => absurd trivial ht, hround, fun i hi => absurd hi (hcreate i),
      fun _ _ => trivial, fun _ _ => rfl, by simp⟩
  rw [State.start, Program.next]
  split_ifs
  · rcases nextJoin_cases nthreads 0 with h | h <;> rw [h] <;>
      exact habsent _ (by simp) (by simp [MainPc.round]) (by simp)
  · exact habsent _ (by simp) (by simp [MainPc.round]) (by simp)

/-! ### The condition is exact -/

theorem Inv.safe (hp : Inv nthreads p) : Safe prog nthreads p := by
  intro ts q hrun
  have hworkers : ∀ l ∈ ts.map ThreadParams.Label.worker, ∃ t, l = .worker t := by simp
  have hq : Inv nthreads q := by
    refine (every_of_forall hworkers p).invariant (P := Inv nthreads) ?_ hp hrun
    rintro r l r' hr ⟨t, rfl⟩ hstep
    refine hr.step (fun htouch => ?_) hstep
    rw [Touches] at htouch
    split at htouch
    · cases htouch
    · cases htouch
    · cases htouch.2
    · exact htouch.elim
  exact ⟨hq.pc, hq.seen⟩

/-- A thread that still reads, where its number is not to be read any more, comes to read. -/
theorem not_safe_of_access {todo : List Op} (hw : p.workers t = .at todo) (hmem : .access ∈ todo)
    (hvalue : p.live = true → p.value ≠ t) (hended : p.pc.Ended = false) :
    ¬Safe prog nthreads p := by
  suffices h : ∃ k q, run (step prog nthreads) p ((List.replicate k t).map .worker) = some q ∧
      (q.pc = .stale ∨ ∃ x ∈ q.seen, x.2 ≠ x.1) by
    obtain ⟨k, q, hrun, hbad⟩ := h
    intro hsafe
    obtain ⟨hpc, hseen⟩ := hsafe _ q hrun
    rcases hbad with hstale | ⟨x, hx, hne⟩
    · exact hpc hstale
    · exact hne (hseen x hx)
  induction todo generalizing p with
  | nil => cases hmem
  | cons op todo ih =>
    by_cases hop : op = .access
    · have hstep : step prog nthreads p (.worker t) = some (if p.live then
          { p with seen := p.seen ++ [(t, p.value)],
                   workers := Function.update p.workers t (.at todo) }
          else { p with pc := .stale }) := by
        rw [step, hended, workerStep, hw, hop]
        rfl
      refine ⟨1, _, run_cons_eq_some.mpr ⟨_, hstep, rfl⟩, ?_⟩
      split_ifs with hlive
      · exact Or.inr ⟨(t, p.value), by simp, hvalue hlive⟩
      · exact Or.inl rfl
    · have hstep : step prog nthreads p (.worker t) =
          some { p with workers := Function.update p.workers t (.at todo) } := by
        rw [step, hended, workerStep, hw]
        cases op <;> first | rfl | exact absurd rfl hop
      have hrest : .access ∈ todo := (List.mem_cons.mp hmem).resolve_left (Ne.symm hop)
      obtain ⟨k, q, hrun, hbad⟩ :=
        ih (p := { p with workers := Function.update p.workers t (.at todo) })
          (Function.update_self _ _ _) hrest hvalue hended
      exact ⟨k + 1, q, run_cons_eq_some.mpr ⟨_, hstep, hrun⟩, hbad⟩

/-- A number that is written too early is read. -/
theorem Inv.not_safe (hp : Inv nthreads p) (hG : ¬Apart prog nthreads p l)
    (h : SharedParam.step prog nthreads p l = some q) : ¬Safe prog nthreads q := by
  simp only [Apart, Classical.not_imp, not_forall] at hG
  obtain ⟨htouch, t, ht, hahead⟩ := hG
  obtain ⟨hlive, hvalue⟩ := hp.own t hahead
  obtain ⟨todo, hw, hmem⟩ := Worker.exists_todo hahead
  obtain ⟨-, ⟨a, rfl, hmain⟩ | ⟨u, rfl, -⟩⟩ := step_cases h
  · rw [Touches] at htouch
    split at htouch <;> rename_i hpc
    · rename_i i
      obtain rfl : a = .ok := ThreadParams.Label.main.inj htouch
      simp only [mainStep, hpc, hlive, if_true, Option.some.injEq] at hmain
      subst hmain
      refine not_safe_of_access (t := t) hw hmem (fun _ heq => ?_) ?_
      · -- the number written is the next one
        cases i with
        | zero => exact hahead (hp.first hpc t)
        | succ i =>
          have hold := hp.round i (by rw [hpc]; rfl)
          change i + 1 = t at heq
          omega
      · dsimp only
        split_ifs <;> rfl
    · obtain rfl : a = .ok := ThreadParams.Label.main.inj htouch
      simp only [mainStep, hpc, if_true, Option.some.injEq] at hmain
      subst hmain
      exact not_safe_of_access (t := t) hw hmem (fun hl => by cases hl) rfl
    · obtain ⟨hheap, ha⟩ := htouch
      obtain rfl : a = .err := ThreadParams.Label.main.inj ha
      simp only [mainStep, hpc, hheap, Answer.status, Option.map_some, if_true, Bool.false_eq_true,
        if_false, Option.some.injEq] at hmain
      subst hmain
      exact not_safe_of_access (t := t) hw hmem (fun hl => by cases hl) rfl
    · exact htouch.elim
  · rw [Touches] at htouch
    split at htouch
    · cases htouch
    · cases htouch
    · cases htouch.2
    · exact htouch.elim

/-- **The threads read their own numbers exactly if the variable is left alone meanwhile**: in a
run, `main` touches the variable only when all threads that have been created are behind their last
access if and only if, wherever the run comes through, no thread can come to read another number
than its own, or a structure that has been freed. -/
theorem own_numbers_iff (hrun : run (step prog nthreads) (.start prog nthreads) ls = some p) :
    Every (step prog nthreads) (Apart prog nthreads) (.start prog nthreads) ls ↔
      ∀ js q, js <+: ls → run (step prog nthreads) (.start prog nthreads) js = some q →
        Safe prog nthreads q :=
  every_iff_of_break (P := Inv nthreads) (fun _ _ _ hp hG hst => hp.step hG hst)
    (fun _ hp => hp.safe) (fun _ _ _ hp hG hst => hp.not_safe hG hst) inv_start hrun

/-- The second thread is created while the first one sleeps: it will print the wrong number. -/
theorem own_numbers_iff_early : ∃ ls : List ThreadParams.Label, ¬∀ js q, js <+: ls →
    run (step joinerBuggy3 3) (.start joinerBuggy3 3) js = some q → Safe joinerBuggy3 3 q := by
  have hrun : ∃ ls p, run (step joinerBuggy3 3) (.start joinerBuggy3 3) ls = some p ∧
      ¬Every (step joinerBuggy3 3) (Apart joinerBuggy3 3) (.start joinerBuggy3 3) ls :=
    ⟨[.main .ok, .main .ok, .worker 0, .worker 0, .worker 0, .main .ok], _, rfl, by decide⟩
  obtain ⟨ls, p, hrun, hnot⟩ := hrun
  exact ⟨ls, fun hsafe => hnot ((own_numbers_iff hrun).mpr hsafe)⟩

end Steps

end SharedParam

end SystemProgramming
