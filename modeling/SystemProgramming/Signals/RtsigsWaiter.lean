import SystemProgramming.HandleErr
import SystemProgramming.PriorityQueue
import SystemProgramming.Runs
import SystemProgramming.Signals.SignalSet

/-!
# Real-time signals that arrive faster than they are handled

`rtsigs_waiter` (`ch12/`) installs one handler for three real-time signals, with all signals
blocked while it runs, and waits. What is sent meanwhile is queued; when the handler returns, the
kernel delivers the next one, of the lowest number and among these the oldest.

The process and the kernel's queue are one step function (`SystemProgramming.RtsigsWaiter.step`),
in which signals are sent between any two steps. The mask is state, as the kernel keeps it: a run
of the handler begins with everything blocked, and restores what it has found. That the handler is
never interrupted is a consequence (`SystemProgramming.RtsigsWaiter.Inv`), and so are

* the accounts: nothing is lost, nothing is handled twice, and the signals that arrived while the
  handler ran are handled in the order of their numbers
  (`SystemProgramming.RtsigsWaiter.handled_in_order`);
* the counters `s` and `t`, which the handler updates and prints with nobody in between
  (`SystemProgramming.RtsigsWaiter.reports_eq`).
-/

namespace SystemProgramming

open HandleErr PriorityQueue Runs SignalSet

namespace RtsigsWaiter

/-- `MAX`, which `s` does not reach in the end. -/
def MAX : ℤ := 10

/-- The largest `int`. -/
def INT_MAX : ℤ := 2147483647

/-- The signals that are handled, as they are installed. -/
def handled : List ℕ := [SIGRTMAX - 5, SIGRTMIN + 5, SIGRTMAX]

/-- Where a run of `rt_sighdlr` stands. -/
inductive HandlerPc where
  /-- About to print the number of the signal. -/
  | announce
  /-- About to compare it with those that are handled. -/
  | compare
  /-- About to count in `s`. -/
  | incS
  /-- About to count in `t`. -/
  | incT
  /-- About to look whether `s` has reached `MAX`. -/
  | test
  /-- About to print both. -/
  | report
  /-- In the silent delay loop. -/
  | delay
  /-- About to print a star. -/
  | star
  /-- About to return. -/
  | return
  deriving DecidableEq, Repr

/-- A run of the handler: its signal, where it stands, and the mask it will restore. -/
structure Frame where
  signum : ℕ
  pc : HandlerPc
  saved : Finset ℕ
  deriving DecidableEq

/-- Where `main` stands. -/
inductive MainPc where
  /-- About to print what it does. -/
  | trapping
  /-- About to install the handler of the signal of this index. -/
  | sigaction (k : Fin handled.length)
  /-- That failed; about to call `FATAL`. -/
  | fatal (k : Fin handled.length)
  /-- About to print that it waits. -/
  | awaiting
  /-- In the loop. -/
  | pause
  /-- The process has exited. -/
  | exited (status : ℤ)
  /-- A signal without a handler has ended it. -/
  | killed
  /-- The counter `t` has overflowed. -/
  | undefined
  deriving DecidableEq, Repr

/-- The state of the process, and the signals that wait for it. -/
structure State (α : Type*) where
  pc : MainPc
  /-- The signals with the handler installed. -/
  installed : Finset ℕ
  /-- The signals that are blocked. -/
  blocked : Finset ℕ
  /-- The runs of the handler that have not returned, the uppermost first. -/
  frames : List Frame
  s : ℤ
  t : ℤ
  /-- The signals that wait, the oldest first. -/
  pending : List (Signal α)
  /-- All that have been sent. -/
  sent : List (Signal α)
  /-- Those for which a run of the handler has begun. -/
  delivered : List (Signal α)
  /-- The values of `s` and `t` that have been printed. -/
  reports : List (ℤ × ℤ)
  deriving DecidableEq

/-- What happens. -/
inductive Label (α : Type*) where
  /-- A real-time signal is sent and queued. -/
  | send (x : Signal α)
  /-- The kernel delivers a signal. -/
  | deliver
  /-- `main` goes on, its call being answered so. -/
  | main (a : Answer)
  /-- The uppermost run of the handler goes on. -/
  | handler (a : Answer)
  deriving DecidableEq, Repr

variable {α : Type*}

/-- `main` is called, with a mask that is inherited. -/
def State.start (inherited : Finset ℕ) : State α :=
  ⟨.trapping, ∅, inherited, [], 0, 0, [], [], [], []⟩

/-- After the handler of one signal is installed. -/
def MainPc.after (k : Fin handled.length) : MainPc :=
  if h : k.1 + 1 < handled.length then .sigaction ⟨k.1 + 1, h⟩ else .awaiting

/-- `main`. -/
def mainStep (p : State α) (a : Answer) : Option (State α) :=
  let goto (p : State α) (pc : MainPc) : State α := { p with pc := pc }
  match p.pc with
  | .trapping => a.status.map fun _ => goto p (.sigaction ⟨0, by decide⟩)
  | .sigaction k => a.status.map fun ok =>
    if ok then goto { p with installed := insert (handled.get k) p.installed } (.after k)
    else goto p (.fatal k)
  | .fatal k => afterFatal a (fun status => goto p (.exited status)) (goto p (.after k))
  | .awaiting => a.status.map fun _ => goto p .pause
  | _ => none

/-- `rt_sighdlr`, called for the signal of the frame `f`; `below` is what it has interrupted. -/
def handlerStep (p : State α) (f : Frame) (below : List Frame) (a : Answer) : Option (State α) :=
  let goto (p : State α) (pc : HandlerPc) : State α :=
    { p with frames := { f with pc := pc } :: below }
  match f.pc, a with
  | .announce, a => a.status.map fun _ => goto p .compare
  | .compare, .ok => some (goto p (if f.signum ∈ handled then .incS else .return))
  | .incS, .ok => some (goto { p with s := p.s + 1 } .incT)
  | .incT, .ok =>
    if p.t = INT_MAX then some { p with pc := .undefined }
    else some (goto { p with t := p.t + 1 } .test)
  | .test, .ok => some (goto (if p.s ≥ MAX then { p with s := 1 } else p) .report)
  | .report, a => a.status.map fun _ => goto { p with reports := p.reports ++ [(p.s, p.t)] } .delay
  | .delay, .ok => some (goto p .star)
  | .star, a => a.status.map fun _ => goto p .return
  | .return, .ok => some { p with frames := below, blocked := f.saved }
  | _, _ => none

/-- The signals that may be delivered. -/
def Deliverable (p : State α) (n : ℕ) : Bool := n ∉ p.blocked

/-- **The kernel delivers a signal**: the handler begins with all signals blocked, which is the
`sa_mask` it was installed with; without a handler, the process ends. -/
def deliver (p : State α) : Option (State α) :=
  (take Signal.signo (Deliverable p) p.pending).map fun (x, rest) =>
    if x.signo ∈ p.installed then
      { p with pending := rest, delivered := p.delivered ++ [x],
               frames := ⟨x.signo, .announce, p.blocked⟩ :: p.frames,
               blocked := p.blocked ∪ insert x.signo (maskable sigfillset) }
    else { p with pc := .killed }

/-- A step of a process that is there. `main` does not go on while the handler is running. -/
def move (p : State α) : Label α → Option (State α)
  | .send x =>
    if IsRealTime x.signo then some { p with pending := p.pending ++ [x], sent := p.sent ++ [x] }
    else none
  | .deliver => deliver p
  | .main a => if p.frames = [] then mainStep p a else none
  | .handler a =>
    match p.frames with
    | [] => none
    | f :: below => handlerStep p f below a

/-- **The step function.** -/
def step (p : State α) (l : Label α) : Option (State α) :=
  match p.pc with
  | .exited _ | .killed | .undefined => none
  | _ => move p l

/-! ### What a step does -/

/-- How many signals have been counted in `s` after `n` of them. -/
def turn (n : ℕ) : ℤ := if n = 0 then 0 else (n - 1) % 9 + 1

/-- What has been printed after `n` of them. -/
def expected (n : ℕ) : List (ℤ × ℤ) := (List.range n).map fun i => (turn (i + 1), (i + 1 : ℕ))

/-- The counters, and what is printed of them, where a run of the handler stands; `n` runs have
begun before it. -/
def CountsAt (n : ℕ) (s t : ℤ) (reports : List (ℤ × ℤ)) : HandlerPc → Prop
  | .announce | .compare | .incS => s = turn n ∧ t = n ∧ reports = expected n
  | .incT => s = turn n + 1 ∧ t = n ∧ reports = expected n
  | .test => s = turn n + 1 ∧ t = n + 1 ∧ reports = expected n
  | .report => s = turn (n + 1) ∧ t = n + 1 ∧ reports = expected n
  | .delay | .star | .return => s = turn (n + 1) ∧ t = n + 1 ∧ reports = expected (n + 1)

/-- The counters are right, whether a run of the handler has begun or not. -/
def Counts (p : State α) : Prop :=
  match p.frames with
  | [] => p.s = turn p.delivered.length ∧ p.t = p.delivered.length ∧
      p.reports = expected p.delivered.length
  | f :: _ => ∃ n, p.delivered.length = n + 1 ∧ CountsAt n p.s p.t p.reports f.pc

/-- **The invariant**: the accounts are right, the handler is not interrupted, and the counters say
what they should. -/
structure Inv (inherited : Finset ℕ) (p : State α) : Prop where
  ledger : Ledger Signal.signo p.sent p.delivered p.pending
  realTime : ∀ x ∈ p.pending, IsRealTime x.signo
  installed : ∀ n ∈ p.installed, n ∈ handled
  quiet : p.frames = [] → p.blocked = inherited
  alone : ∀ f below, p.frames = f :: below → below = [] ∧ f.saved = inherited ∧
    f.signum ∈ handled ∧ ∀ n, IsRealTime n → n ∈ p.blocked
  counts : Counts p

theorem turn_succ (n : ℕ) : (if turn n + 1 ≥ MAX then 1 else turn n + 1) = turn (n + 1) := by
  rw [turn, turn, if_neg n.succ_ne_zero, MAX]
  split_ifs <;> push_cast <;> omega

theorem expected_succ (n : ℕ) : expected (n + 1) = expected n ++ [(turn (n + 1), (n : ℤ) + 1)] := by
  simp [expected, List.range_succ]

section Steps

variable {inherited : Finset ℕ} {p p' q : State α} {l : Label α} {ls ls' : List (Label α)}
  {a : Answer}
  {f : Frame} {below : List Frame}

/-- `main` changes its control point, and what is installed. -/
theorem mainStep_keeps (h : mainStep p a = some q) :
    ∃ pc installed, q = { p with pc := pc, installed := installed } ∧
      ∀ n ∈ installed, n ∈ p.installed ∨ n ∈ handled := by
  obtain ⟨pc, installed, blocked, frames, s, t, pending, sent, delivered, reports⟩ := p
  cases pc with
  | trapping =>
    obtain ⟨ok, -, rfl⟩ := Option.map_eq_some_iff.mp h
    exact ⟨_, installed, rfl, fun n hn => Or.inl hn⟩
  | sigaction k =>
    obtain ⟨ok, -, rfl⟩ := Option.map_eq_some_iff.mp h
    cases ok
    · exact ⟨_, installed, rfl, fun n hn => Or.inl hn⟩
    · refine ⟨_, insert (handled.get k) installed, rfl, fun n hn => ?_⟩
      rcases Finset.mem_insert.mp hn with rfl | hold
      · exact Or.inr (List.get_mem _ _)
      · exact Or.inl hold
  | fatal k =>
    rcases afterFatal_cases h with rfl | rfl <;> exact ⟨_, installed, rfl, fun n hn => Or.inl hn⟩
  | awaiting =>
    obtain ⟨ok, -, rfl⟩ := Option.map_eq_some_iff.mp h
    exact ⟨_, installed, rfl, fun n hn => Or.inl hn⟩
  | _ => simp only [mainStep, reduceCtorEq] at h

/-- **What a step does.** -/
theorem step_cases (h : step p l = some q) :
    (∃ x, l = .send x ∧ IsRealTime x.signo ∧
      q = { p with pending := p.pending ++ [x], sent := p.sent ++ [x] }) ∨
    (∃ x rest, l = .deliver ∧ take Signal.signo (Deliverable p) p.pending = some (x, rest) ∧
      ((x.signo ∈ p.installed ∧
        q = { p with pending := rest, delivered := p.delivered ++ [x],
                     frames := ⟨x.signo, .announce, p.blocked⟩ :: p.frames,
                     blocked := p.blocked ∪ insert x.signo (maskable sigfillset) }) ∨
        q = { p with pc := .killed })) ∨
    (∃ a pc installed, l = .main a ∧ p.frames = [] ∧
      q = { p with pc := pc, installed := installed } ∧
      ∀ n ∈ installed, n ∈ p.installed ∨ n ∈ handled) ∨
    (∃ a f below, l = .handler a ∧ p.frames = f :: below ∧ handlerStep p f below a = some q) := by
  have hmove : move p l = some q := by
    rw [step.eq_def] at h
    split at h
    · cases h
    · cases h
    · cases h
    · exact h
  cases l with
  | send x =>
    rw [move] at hmove
    split_ifs at hmove with hx
    exact Or.inl ⟨x, rfl, hx, (Option.some.inj hmove).symm⟩
  | deliver =>
    obtain ⟨⟨x, rest⟩, htake, rfl⟩ := Option.map_eq_some_iff.mp hmove
    refine Or.inr (Or.inl ⟨x, rest, rfl, htake, ?_⟩)
    dsimp only
    split_ifs with hin
    · exact Or.inl ⟨hin, rfl⟩
    · exact Or.inr rfl
  | main a =>
    rw [move] at hmove
    split_ifs at hmove with hframes
    obtain ⟨pc, installed, hq, hall⟩ := mainStep_keeps hmove
    exact Or.inr (Or.inr (Or.inl ⟨a, pc, installed, rfl, hframes, hq, hall⟩))
  | handler a =>
    rw [move] at hmove
    split at hmove
    · cases hmove
    · rename_i f below hframes
      exact Or.inr (Or.inr (Or.inr ⟨a, f, below, rfl, hframes, hmove⟩))

/-- **What a run of the handler does**: it goes on, or returns, or `t` overflows. -/
theorem handlerStep_cases (h : handlerStep p f below a = some q) :
    (∃ pc s t reports, q = { p with frames := { f with pc := pc } :: below, s := s, t := t,
                                    reports := reports } ∧
      (f.signum ∈ handled → ∀ n, CountsAt n p.s p.t p.reports f.pc → CountsAt n s t reports pc)) ∨
    (f.pc = .return ∧ q = { p with frames := below, blocked := f.saved }) ∨
    q = { p with pc := .undefined } := by
  obtain ⟨signum, hpc, saved⟩ := f
  cases hpc with
  | announce =>
    obtain ⟨ok, -, rfl⟩ := Option.map_eq_some_iff.mp h
    exact Or.inl ⟨.compare, _, _, _, rfl, fun _ _ hc => hc⟩
  | compare =>
    cases a <;> simp only [handlerStep, reduceCtorEq] at h
    obtain rfl := Option.some.inj h
    exact Or.inl ⟨_, _, _, _, rfl, fun hin _ hc => by rwa [if_pos hin]⟩
  | incS =>
    cases a <;> simp only [handlerStep, reduceCtorEq] at h
    obtain rfl := Option.some.inj h
    exact Or.inl ⟨.incT, _, _, _, rfl, fun _ n hc => ⟨by rw [hc.1], hc.2⟩⟩
  | incT =>
    cases a <;> simp only [handlerStep, reduceCtorEq] at h
    split_ifs at h <;> obtain rfl := Option.some.inj h
    · exact Or.inr (Or.inr rfl)
    · exact Or.inl ⟨.test, _, _, _, rfl, fun _ n hc => ⟨hc.1, by rw [hc.2.1], hc.2.2⟩⟩
  | test =>
    cases a <;> simp only [handlerStep, reduceCtorEq] at h
    obtain rfl := Option.some.inj h
    refine Or.inl ⟨.report, if p.s ≥ MAX then 1 else p.s, p.t, p.reports, ?_, ?_⟩
    · split_ifs <;> rfl
    · rintro - n ⟨hs, ht, hr⟩
      exact ⟨by rw [hs, turn_succ], ht, hr⟩
  | report =>
    obtain ⟨ok, -, rfl⟩ := Option.map_eq_some_iff.mp h
    refine Or.inl ⟨.delay, _, _, _, rfl, ?_⟩
    rintro - n ⟨hs, ht, hr⟩
    exact ⟨hs, ht, by rw [expected_succ, hr, hs, ht]⟩
  | delay =>
    cases a <;> simp only [handlerStep, reduceCtorEq] at h
    obtain rfl := Option.some.inj h
    exact Or.inl ⟨.star, _, _, _, rfl, fun _ _ hc => hc⟩
  | star =>
    obtain ⟨ok, -, rfl⟩ := Option.map_eq_some_iff.mp h
    exact Or.inl ⟨.return, _, _, _, rfl, fun _ _ hc => hc⟩
  | «return» =>
    cases a <;> simp only [handlerStep, reduceCtorEq] at h
    obtain rfl := Option.some.inj h
    exact Or.inr (Or.inl ⟨rfl, rfl⟩)

/-! ### The invariant -/

theorem inv_start : Inv (α := α) inherited (.start inherited) where
  ledger := Ledger.nil
  realTime := by simp [State.start]
  installed := by simp [State.start]
  quiet _ := rfl
  alone _ _ h := by cases h
  counts := ⟨rfl, rfl, rfl⟩

/-- While the handler runs, no signal can be delivered. -/
theorem Inv.quiet_of_take (hp : Inv inherited p) {x : Signal α} {rest : List (Signal α)}
    (h : take Signal.signo (Deliverable p) p.pending = some (x, rest)) :
    p.frames = [] ∧ IsRealTime x.signo := by
  obtain ⟨l, r, hsplit, -, hx, -, -⟩ := take_split h
  have hreal : IsRealTime x.signo := hp.realTime x (by simp [hsplit])
  refine ⟨?_, hreal⟩
  cases hframes : p.frames with
  | nil => rfl
  | cons f below =>
    obtain ⟨-, -, -, hall⟩ := hp.alone f below hframes
    simp [Deliverable, hall x.signo hreal] at hx

/-- A delivery to a process that handles the signal. -/
theorem Inv.deliver (hp : Inv inherited p) {x : Signal α} {rest : List (Signal α)}
    (h : take Signal.signo (Deliverable p) p.pending = some (x, rest))
    (hin : x.signo ∈ p.installed) :
    Inv inherited { p with pending := rest, delivered := p.delivered ++ [x],
                           frames := ⟨x.signo, .announce, p.blocked⟩ :: p.frames,
                           blocked := p.blocked ∪ insert x.signo (maskable sigfillset) } := by
  obtain ⟨hnil, -⟩ := hp.quiet_of_take h
  constructor
  case ledger => exact hp.ledger.take h
  case realTime =>
    obtain ⟨l, r, hsplit, rfl, -⟩ := take_split h
    refine fun y hy => hp.realTime y ?_
    rw [hsplit]
    exact List.mem_append.mpr ((List.mem_append.mp hy).imp_right (List.mem_cons_of_mem _))
  case installed => exact hp.installed
  case quiet => exact fun hcons => by cases hcons
  case alone =>
    intro f below hframes
    obtain ⟨rfl, rfl⟩ := List.cons.inj hframes
    refine ⟨hnil, hp.quiet hnil, hp.installed _ hin, fun n hn => ?_⟩
    exact Finset.mem_union_right _ (Finset.mem_insert_of_mem hn.mem)
  case counts =>
    have hcounts := hp.counts
    rw [Counts, hnil] at hcounts
    exact ⟨p.delivered.length, by simp, hcounts⟩

/-- **The invariant along one step.** -/
theorem Inv.step (hp : Inv inherited p) (h : step p l = some q) : Inv inherited q := by
  rcases step_cases h with ⟨x, -, hx, rfl⟩ | ⟨x, rest, -, htake, ⟨hin, rfl⟩ | rfl⟩ |
    ⟨a, pc, installed, -, -, rfl, hall⟩ | ⟨a, f, below, -, hframes, hhandler⟩
  · refine ⟨hp.ledger.send x, fun y hy => ?_, hp.installed, hp.quiet, hp.alone, hp.counts⟩
    rcases List.mem_append.mp hy with hold | hnew
    · exact hp.realTime y hold
    · exact List.mem_singleton.mp hnew ▸ hx
  · exact hp.deliver htake hin
  · exact ⟨hp.ledger, hp.realTime, hp.installed, hp.quiet, hp.alone, hp.counts⟩
  · exact ⟨hp.ledger, hp.realTime, fun n hn => (hall n hn).elim (hp.installed n) id, hp.quiet,
      hp.alone, hp.counts⟩
  · obtain ⟨rfl, hsaved, hsignum, hblocked⟩ := hp.alone f below hframes
    have hcounts := hp.counts
    rw [Counts, hframes] at hcounts
    obtain ⟨n, hlen, hat⟩ := hcounts
    rcases handlerStep_cases hhandler with ⟨pc, s, t, reports, rfl, hgo⟩ | ⟨hpc, rfl⟩ | rfl
    · refine ⟨hp.ledger, hp.realTime, hp.installed, fun hnil => (by cases hnil), ?_, ?_⟩
      · intro f' below' heq
        obtain ⟨rfl, rfl⟩ := List.cons.inj heq
        exact ⟨rfl, hsaved, hsignum, hblocked⟩
      · exact ⟨n, hlen, hgo hsignum n hat⟩
    · refine ⟨hp.ledger, hp.realTime, hp.installed, fun _ => hsaved, fun _ _ heq => (by cases heq),
        ?_⟩
      rw [hpc] at hat
      change p.s = turn p.delivered.length ∧ p.t = p.delivered.length ∧
        p.reports = expected p.delivered.length
      rw [hlen]
      exact ⟨hat.1, by rw [hat.2.1]; simp, hat.2.2⟩
    · exact ⟨hp.ledger, hp.realTime, hp.installed, hp.quiet, hp.alone, hp.counts⟩

/-- **The invariant along a run.** -/
theorem Inv.run (hrun : run RtsigsWaiter.step (.start inherited) ls = some p) : Inv inherited p :=
  run_invariant (fun _ _ _ hp h => hp.step h) inv_start hrun

/-! ### The order of the deliveries -/

/-- **Without new arrivals**, the queue is taken from in the order of its numbers. -/
theorem Inv.drains (hp : Inv inherited p) (hquiet : ∀ x, Label.send x ∉ ls)
    (hrun : Runs.run RtsigsWaiter.step p ls = some q) : Inv inherited q ∧ q.sent = p.sent ∧
      ∃ out, q.delivered = p.delivered ++ out ∧
        Drains Signal.signo (fun n => n ∉ inherited) p.pending out q.pending := by
  have hsend : ∀ l ∈ ls, ∀ x, l ≠ Label.send x := fun l hl x heq => hquiet x (heq ▸ hl)
  refine (every_of_forall hsend p).invariant (P := fun r => Inv inherited r ∧ r.sent = p.sent ∧
      ∃ out, r.delivered = p.delivered ++ out ∧
        Drains Signal.signo (fun n => n ∉ inherited) p.pending out r.pending) ?_
    ⟨hp, rfl, [], (List.append_nil _).symm, .nil _⟩ hrun
  rintro r l r' ⟨hr, hsent, out, hout, hdrains⟩ hl hstep
  refine ⟨hr.step hstep, ?_⟩
  rcases step_cases hstep with ⟨x, rfl, -⟩ | ⟨x, rest, -, htake, ⟨-, rfl⟩ | rfl⟩ |
    ⟨a, pc, installed, -, -, rfl, -⟩ | ⟨a, f, below, -, -, hhandler⟩
  · exact absurd rfl (hl x)
  · have hdeliverable : Deliverable r = fun n => decide (n ∉ inherited) := by
      funext n
      rw [Deliverable, hr.quiet (hr.quiet_of_take htake).1]
    rw [hdeliverable] at htake
    refine ⟨hsent, out ++ [x], ?_, hdrains.concat htake⟩
    rw [hout, List.append_assoc]
  · exact ⟨hsent, out, hout, hdrains⟩
  · exact ⟨hsent, out, hout, hdrains⟩
  · rcases handlerStep_cases hhandler with ⟨pc, s, t, reports, rfl, -⟩ | ⟨-, rfl⟩ | rfl <;>
      exact ⟨hsent, out, hout, hdrains⟩

/-- **When the queue has been drained**, what is not blocked has been delivered in the order of the
numbers, and the rest still waits. -/
theorem Inv.drained (hp : Inv inherited p) (hquiet : ∀ x, Label.send x ∉ ls')
    (hrun' : Runs.run RtsigsWaiter.step p ls' = some p')
    (hend : take Signal.signo (Deliverable p') p'.pending = none) (hidle : p'.frames = []) :
    p'.delivered = p.delivered ++
        sorted Signal.signo (p.pending.filter fun x => x.signo ∉ inherited) ∧
      p'.pending = p.pending.filter fun x => x.signo ∈ inherited := by
  obtain ⟨hp', -, out, hout, hdrains⟩ := hp.drains hquiet hrun'
  have hdeliverable : Deliverable p' = fun n => decide (n ∉ inherited) := by
    funext n
    rw [Deliverable, hp'.quiet hidle]
  rw [hdeliverable] at hend
  obtain ⟨rfl, hpending⟩ := hdrains.eq_sorted hend
  exact ⟨hout, by simpa using hpending⟩

/-- **The handler counts undisturbed**: at most one run of it is there, and what has been printed
are the first so many values of the two counters. -/
theorem reports_eq (hrun : Runs.run step (.start inherited) ls = some p) :
    p.frames.length ≤ 1 ∧ ∃ n, p.reports = expected n ∧ p.delivered.length ≤ n + 1 ∧
      n ≤ p.delivered.length ∧ (p.frames = [] → n = p.delivered.length ∧ p.t = n) := by
  have hp := Inv.run hrun
  have hcounts := hp.counts
  rw [Counts] at hcounts
  cases hframes : p.frames with
  | nil =>
    rw [hframes] at hcounts
    obtain ⟨-, ht, hreports⟩ := hcounts
    exact ⟨by simp, _, hreports, by omega, le_rfl, fun _ => ⟨rfl, ht⟩⟩
  | cons f below =>
    obtain ⟨rfl, -⟩ := hp.alone f below hframes
    rw [hframes] at hcounts
    obtain ⟨n, hlen, hat⟩ := hcounts
    refine ⟨by simp, ?_⟩
    obtain ⟨signum, pc, saved⟩ := f
    cases pc
    case delay | star | «return» =>
      exact ⟨n + 1, hat.2.2, by omega, by omega, fun hnil => by cases hnil⟩
    all_goals exact ⟨n, hat.2.2, by omega, by omega, fun hnil => by cases hnil⟩

theorem reports_eq_two : ∃ p : State ℕ, p.frames.length ≤ 1 ∧
    p.reports = [(1, 1), (2, 2)] := by
  have hrun : ∃ p : State ℕ, Runs.run step (.start ∅) (List.replicate 5 (.main .ok) ++
      .send ⟨64, 0⟩ :: .deliver :: .send ⟨59, 1⟩ :: List.replicate 9 (.handler .ok) ++
      .deliver :: List.replicate 9 (.handler .ok)) = some p ∧
      p.reports = [(1, 1), (2, 2)] := ⟨_, rfl, rfl⟩
  obtain ⟨p, hp, hreports⟩ := hrun
  exact ⟨p, (reports_eq hp).1, hreports⟩

/-! ### Nothing waits for ever -/

/-- How many steps a run of the handler has ahead of it. -/
def HandlerPc.left : HandlerPc → ℕ
  | .announce => 9
  | .compare => 8
  | .incS => 7
  | .incT => 6
  | .test => 5
  | .report => 4
  | .delay => 3
  | .star => 2
  | .return => 1

/-- What every step makes less, when nothing is sent. -/
def left (p : State α) : ℕ := 10 * p.pending.length + (p.frames.map fun f => f.pc.left).sum

/-- The process waits for signals: what is pending is handled or blocked, and the counter `t` is
not at its end. -/
structure Waits (inherited : Finset ℕ) (p : State α) : Prop where
  pc : p.pc = .pause
  pending : ∀ x ∈ p.pending, x.signo ∈ p.installed ∨ x.signo ∈ inherited
  sent : (p.sent.length : ℤ) ≤ INT_MAX

/-- A run of the handler can go on. -/
theorem handlerStep_ok (below : List Frame) (ht : f.pc = .incT → p.t ≠ INT_MAX)
    (hsignum : f.signum ∈ handled) :
    ∃ q, handlerStep p f below .ok = some q ∧ q.pc = p.pc ∧ q.installed = p.installed ∧
      q.pending = p.pending ∧ q.sent = p.sent ∧
      (q.frames.map fun f => f.pc.left).sum < ((f :: below).map fun f => f.pc.left).sum := by
  obtain ⟨signum, pc, saved⟩ := f
  cases pc with
  | compare =>
    refine ⟨_, rfl, rfl, rfl, rfl, rfl, ?_⟩
    rw [if_pos hsignum]
    simp [HandlerPc.left]
  | incT => exact ⟨_, if_neg (ht rfl), rfl, rfl, rfl, rfl, by simp [HandlerPc.left]⟩
  | test =>
    refine ⟨_, rfl, ?_⟩
    split_ifs <;> exact ⟨rfl, rfl, rfl, rfl, by simp [HandlerPc.left]⟩
  | _ => exact ⟨_, rfl, rfl, rfl, rfl, rfl, by simp [HandlerPc.left]⟩

/-- **Somebody can move**, as long as there is something to deliver or the handler runs. -/
theorem Inv.exists_step (hp : Inv inherited p) (hw : Waits inherited p)
    (hnot : ¬(p.frames = [] ∧ take Signal.signo (Deliverable p) p.pending = none)) :
    ∃ l q, (∀ x, l ≠ Label.send x) ∧ RtsigsWaiter.step p l = some q ∧ Waits inherited q ∧
      left q < left p := by
  have hstep : ∀ l, RtsigsWaiter.step p l = move p l := fun l => by
    rw [RtsigsWaiter.step, hw.pc]
  cases hframes : p.frames with
  | nil =>
    cases htake : take Signal.signo (Deliverable p) p.pending with
    | none => exact absurd ⟨hframes, htake⟩ hnot
    | some r =>
      obtain ⟨x, rest⟩ := r
      obtain ⟨l, r, hsplit, rfl, hx, -⟩ := take_split htake
      have hin : x.signo ∈ p.installed := by
        refine (hw.pending x (by simp [hsplit])).resolve_right fun hmem => ?_
        rw [Deliverable, hp.quiet hframes] at hx
        simp [hmem] at hx
      have hdeliver : move p .deliver = some { p with
          pending := l ++ r, delivered := p.delivered ++ [x],
          frames := ⟨x.signo, .announce, p.blocked⟩ :: p.frames,
          blocked := p.blocked ∪ insert x.signo (maskable sigfillset) } := by
        rw [move, RtsigsWaiter.deliver, htake, Option.map_some]
        exact congrArg some (if_pos hin)
      refine ⟨.deliver, _, by simp, (hstep _).trans hdeliver, ⟨hw.pc, fun y hy => ?_, hw.sent⟩, ?_⟩
      · refine hw.pending y ?_
        rw [hsplit]
        exact List.mem_append.mpr ((List.mem_append.mp hy).imp_right (List.mem_cons_of_mem _))
      · simp only [left, hframes, hsplit, List.length_append, List.length_cons, List.map_cons,
          List.map_nil, List.sum_cons, List.sum_nil, HandlerPc.left]
        omega
  | cons f below =>
    obtain ⟨rfl, -, hsignum, -⟩ := hp.alone f below hframes
    have hcounts := hp.counts
    rw [Counts, hframes] at hcounts
    obtain ⟨n, hlen, hat⟩ := hcounts
    have ht : f.pc = .incT → p.t ≠ INT_MAX := by
      intro hpc heq
      rw [hpc] at hat
      have hsent := hp.ledger.perm.length_eq
      rw [List.length_append] at hsent
      have hbound := hw.sent
      have hcount := hat.2.1
      omega
    obtain ⟨q, hgo, hpc, hinstalled, hpending, hsent, hless⟩ := handlerStep_ok [] ht hsignum
    have hmove : move p (.handler .ok) = some q := by
      rw [move, hframes]
      exact hgo
    refine ⟨.handler .ok, q, by simp, (hstep _).trans hmove, ⟨hpc.trans hw.pc, ?_, ?_⟩, ?_⟩
    · rw [hpending, hinstalled]
      exact hw.pending
    · rw [hsent]
      exact hw.sent
    · rw [left, left, hpending, hframes]
      exact Nat.add_lt_add_left hless _

/-- **Nothing waits for ever**: from wherever a run has led the waiting process, it can come to
where the handler has returned for all that is not blocked, without anything new. -/
theorem exists_handled (hrun : Runs.run step (.start inherited) ls = some p)
    (hw : Waits inherited p) : ∃ ls' p', (∀ x, Label.send x ∉ ls') ∧
      Runs.run step p ls' = some p' ∧ p'.frames = [] ∧
      p'.delivered = p.delivered ++
        sorted Signal.signo (p.pending.filter fun x => x.signo ∉ inherited) ∧
      p'.reports = expected p'.delivered.length := by
  have hmove : ∀ r : State α, Inv inherited r ∧ Waits inherited r →
      ¬(r.frames = [] ∧ take Signal.signo (Deliverable r) r.pending = none) →
      ∃ l r', (∀ x, l ≠ Label.send x) ∧ step r l = some r' ∧
        (Inv inherited r' ∧ Waits inherited r') ∧ left r' < left r := by
    rintro r ⟨hr, hrw⟩ hnot
    obtain ⟨l, r', hl, hst, hw', hless⟩ := hr.exists_step hrw hnot
    exact ⟨l, r', hl, hst, ⟨hr.step hst, hw'⟩, hless⟩
  obtain ⟨ls', p', hE, hrun', ⟨hp', -⟩, hidle, hend⟩ :=
    exists_run_of_measure (G := fun _ l => ∀ x, l ≠ Label.send x) left hmove p ⟨Inv.run hrun, hw⟩
  have hquiet : ∀ x, Label.send x ∉ ls' := fun x hx => forall_of_every hE hrun' _ hx x rfl
  obtain ⟨hdelivered, -⟩ := (Inv.run hrun).drained hquiet hrun' hend hidle
  refine ⟨ls', p', hquiet, hrun', hidle, hdelivered, ?_⟩
  have hcounts := hp'.counts
  rw [Counts, hidle] at hcounts
  exact hcounts.2.2

theorem exists_handled_burst : ∃ p p' : State ℕ, p'.frames = [] ∧
    p'.delivered = p.delivered ++
      sorted Signal.signo (p.pending.filter fun x => x.signo ∉ (∅ : Finset ℕ)) ∧
    p.pending = [⟨59, 1⟩, ⟨39, 2⟩] := by
  have hrun : ∃ p : State ℕ, Runs.run step (.start ∅) (List.replicate 5 (.main .ok) ++
      [.send ⟨64, 0⟩, .deliver, .send ⟨59, 1⟩, .send ⟨39, 2⟩]) = some p ∧ p.pc = .pause ∧
      (∀ x ∈ p.pending, x.signo ∈ p.installed ∨ x.signo ∈ (∅ : Finset ℕ)) ∧
      (p.sent.length : ℤ) ≤ INT_MAX ∧ p.pending = [⟨59, 1⟩, ⟨39, 2⟩] :=
    ⟨_, rfl, rfl, by decide, by decide, rfl⟩
  obtain ⟨p, hfirst, hpc, hpending, hsent, heq⟩ := hrun
  obtain ⟨-, p', -, -, hidle, hdelivered, -⟩ := exists_handled hfirst ⟨hpc, hpending, hsent⟩
  exact ⟨p, p', hidle, hdelivered, heq⟩

end Steps

end RtsigsWaiter

end SystemProgramming
