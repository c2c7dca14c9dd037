import SystemProgramming.HandleErr
import SystemProgramming.Printf
import SystemProgramming.Runs

/-!
# A handler that is interrupted by its own signal

`defer_or_not` (`ch11/`) counts the `SIGUSR1` it receives: in `t` without end, and in `s` from 1 to
9 and round again, so that `s` can be printed as a digit. With its argument 2 it sets `SA_NODEFER`,
and the handler is interrupted by the next signal wherever it stands – also between the read and
the write that make up `t ++`.

The process is one step function (`SystemProgramming.DeferOrNot.step`), on a stack of runs of the
handler of which the uppermost moves. What becomes of the two counters is read off the stack:

* a run that stands between the read and the write of `t` is going to write what it has read, and
  one more, whatever the runs above it add. So the total is the number of the runs exactly if no run
  has begun above such a one (`SystemProgramming.DeferOrNot.total_iff`);
* `s` may be anything from 0 on while runs are nested, but each run leaves a digit, since it looks
  at `s` after it has written it, and so does every run above it
  (`SystemProgramming.DeferOrNot.digit`).
-/

namespace SystemProgramming

open HandleErr Printf Runs

namespace DeferOrNot

/-- `MAX`, which `s` does not reach in the end. -/
def MAX : ℤ := 10

/-- The largest `int`. -/
def INT_MAX : ℤ := 2147483647

/-- Where a run of `sighdlr` stands. -/
inductive HandlerPc where
  /-- About to print the number of the signal. -/
  | announce
  /-- About to read `s`. -/
  | loadS
  /-- About to write `s`, having read this. -/
  | storeS (v : ℤ)
  /-- About to read `t`. -/
  | loadT
  /-- About to write `t`, having read this. -/
  | storeT (v : ℤ)
  /-- About to look whether `s` has reached `MAX`. -/
  | test
  /-- About to set `s` back. -/
  | reset
  /-- About to take the value of `s`. -/
  | save
  /-- About to read `t`, which it prints. -/
  | argT (saved : ℤ)
  /-- About to read `s`, which it prints. -/
  | argS (saved total : ℤ)
  /-- About to print both. -/
  | report (saved total cur : ℤ)
  /-- In the delay loop, about to print the digit; so many times it has done so. -/
  | beep (saved : ℤ) (done : ℕ)
  /-- About to print a star. -/
  | star (saved : ℤ)
  deriving DecidableEq, Repr

/-- Where `main` stands. -/
inductive MainPc where
  /-- About to look at its argument. -/
  | args
  /-- About to install the handler. -/
  | sigaction
  /-- That failed; about to call `FATAL`. -/
  | fatal
  /-- In the loop. -/
  | pause
  /-- The process has exited. -/
  | exited (status : ℤ)
  /-- The signal, not handled, has ended it. -/
  | killed
  /-- A counter has overflowed. -/
  | undefined
  deriving DecidableEq, Repr

/-- The state of the process. -/
structure State where
  pc : MainPc
  /-- `SA_NODEFER` is set. -/
  nodefer : Bool
  /-- The signal is handled. -/
  trapped : Bool
  /-- The runs of the handler that have not returned, the uppermost first. -/
  frames : List HandlerPc
  s : ℤ
  t : ℤ
  /-- How many runs have begun. -/
  runs : ℕ
  /-- The values of `s` and of the total that have been printed. -/
  reports : List (ℤ × ℤ)
  /-- What the delay loops have printed. -/
  beeps : List UInt8
  deriving DecidableEq, Repr

/-- What happens. -/
inductive Label where
  /-- `main` goes on, its call being answered so. -/
  | main (a : Answer)
  /-- The uppermost run of the handler goes on, its call being answered so. -/
  | handler (a : Answer)
  /-- `SIGUSR1` is delivered. -/
  | deliver
  deriving DecidableEq, Repr

/-- `main` is called. -/
def State.start : State := ⟨.args, false, false, [], 0, 0, 0, [], []⟩

/-- How many times the delay loop prints its character. -/
def loopCount : ℕ := 5

/-- `main`. -/
def mainStep (argv : List (List UInt8)) (p : State) (a : Answer) : Option State :=
  let goto (p : State) (pc : MainPc) : State := { p with pc := pc }
  match p.pc, a with
  | .args, .ok =>
    if argv.length ≠ 2 then some (goto p (.exited EXIT_FAILURE))
    else
      let flag : Bool := (atol (argv.getD 1 [])).toInt32 = 2
      some (goto { p with nodefer := flag } .sigaction)
  | .sigaction, a => a.status.map fun ok =>
    if ok then goto { p with trapped := true } .pause else goto p .fatal
  | .fatal, a => afterFatal a (fun status => goto p (.exited status)) (goto p .pause)
  | _, _ => none

/-- `sighdlr`, called for `SIGUSR1`; `below` is what it has interrupted. -/
def handlerStep (p : State) (below : List HandlerPc) (pc : HandlerPc) (a : Answer) : Option State :=
  let goto (p : State) (pc : HandlerPc) : State := { p with frames := pc :: below }
  match pc, a with
  | .announce, a => a.status.map fun _ => goto p .loadS
  | .loadS, .ok => some (goto p (.storeS p.s))
  | .storeS v, .ok =>
    if v = INT_MAX then some { p with pc := .undefined }
    else some (goto { p with s := v + 1 } .loadT)
  | .loadT, .ok => some (goto p (.storeT p.t))
  | .storeT v, .ok =>
    if v = INT_MAX then some { p with pc := .undefined }
    else some (goto { p with t := v + 1 } .test)
  | .test, .ok => some (goto p (if p.s ≥ MAX then .reset else .save))
  | .reset, .ok => some (goto { p with s := 1 } .save)
  | .save, .ok => some (goto p (.argT p.s))
  | .argT saved, .ok => some (goto p (.argS saved p.t))
  | .argS saved total, .ok => some (goto p (.report saved total p.s))
  | .report saved total cur, a => a.status.map fun ok =>
    goto { p with reports := if ok then p.reports ++ [(cur, total)] else p.reports } (.beep saved 0)
  | .beep saved done, a => a.status.map fun ok =>
    goto { p with beeps := if ok then p.beeps ++ [UInt8.ofInt (saved + 48)] else p.beeps }
      (if done + 1 < loopCount then .beep saved (done + 1) else .star saved)
  | .star _, a => a.status.map fun _ => { p with frames := below }
  | _, _ => none

/-- A step of a process that is there. `main` does not go on while the handler is running, and
without `SA_NODEFER` the signal is not delivered meanwhile. -/
def move (argv : List (List UInt8)) (p : State) : Label → Option State
  | .main a => if p.frames = [] then mainStep argv p a else none
  | .handler a =>
    match p.frames with
    | [] => none
    | pc :: below => handlerStep p below pc a
  | .deliver =>
    if p.trapped = false then some { p with pc := .killed }
    else if p.nodefer = false ∧ p.frames ≠ [] then none
    else some { p with frames := .announce :: p.frames, runs := p.runs + 1 }

/-- **The step function**, with the arguments. -/
def step (argv : List (List UInt8)) (p : State) (l : Label) : Option State :=
  match p.pc with
  | .exited _ | .killed | .undefined => none
  | _ => move argv p l

section Counters

variable {argv : List (List UInt8)} {p q : State} {below : List HandlerPc} {pc : HandlerPc}
  {a : Answer} {l : Label} {ls : List Label}

theorem mainStep_keeps (h : mainStep argv p a = some q) :
    q.frames = p.frames ∧ q.s = p.s ∧ q.t = p.t ∧ q.runs = p.runs ∧ q.beeps = p.beeps ∧
      (q.trapped = false → p.trapped = false) := by
  obtain ⟨pc, nodefer, trapped, frames, s, t, runs, reports, beeps⟩ := p
  cases pc with
  | args =>
    cases a <;> simp only [mainStep, reduceCtorEq] at h
    split_ifs at h <;> obtain rfl := Option.some.inj h <;> exact ⟨rfl, rfl, rfl, rfl, rfl, id⟩
  | sigaction =>
    obtain ⟨ok, -, rfl⟩ := Option.map_eq_some_iff.mp h
    cases ok
    · exact ⟨rfl, rfl, rfl, rfl, rfl, id⟩
    · exact ⟨rfl, rfl, rfl, rfl, rfl, by simp⟩
  | fatal => rcases afterFatal_cases h with rfl | rfl <;> exact ⟨rfl, rfl, rfl, rfl, rfl, id⟩
  | _ => simp only [mainStep, reduceCtorEq] at h

/-- **What a step does**: it is one of `main`, which leaves the counters alone, or of the uppermost
run of the handler, or begins a run, or ends the process. -/
theorem step_cases (h : step argv p l = some q) :
    ((q.frames = p.frames ∧ q.s = p.s ∧ q.t = p.t ∧ q.runs = p.runs ∧ q.beeps = p.beeps ∧
      (q.trapped = false → p.trapped = false)) ∧ (l = .deliver → p.trapped = false)) ∨
    (∃ a pc below, l = .handler a ∧ p.frames = pc :: below ∧ handlerStep p below pc a = some q) ∨
    (l = .deliver ∧ p.trapped = true ∧
      q = { p with frames := .announce :: p.frames, runs := p.runs + 1 }) := by
  have hmove : move argv p l = some q := by
    rw [step.eq_def] at h
    split at h
    · exact absurd h (by simp)
    · exact absurd h (by simp)
    · exact absurd h (by simp)
    · exact h
  cases l with
  | main a =>
    rw [move] at hmove
    split_ifs at hmove
    exact Or.inl ⟨mainStep_keeps hmove, by simp⟩
  | handler a =>
    rw [move] at hmove
    split at hmove
    · exact absurd hmove (by simp)
    · rename_i pc below hframes
      exact Or.inr (Or.inl ⟨a, pc, below, rfl, hframes, hmove⟩)
  | deliver =>
    rw [move] at hmove
    split_ifs at hmove with htrapped hdefer
    · obtain rfl := Option.some.inj hmove
      exact Or.inl ⟨⟨rfl, rfl, rfl, rfl, rfl, id⟩, fun _ => htrapped⟩
    · obtain rfl := Option.some.inj hmove
      exact Or.inr (Or.inr ⟨rfl, by simpa using htrapped, rfl⟩)

/-! ### The total -/

/-- A run stands between the read and the write of `t`. -/
def HandlerPc.between : HandlerPc → Bool
  | .storeT _ => true
  | _ => false

/-- What `t` is when a run has made its increment, given what it is when the run goes on. -/
def HandlerPc.settle : HandlerPc → ℤ → ℤ
  | .announce, t | .loadS, t | .storeS _, t | .loadT, t => t + 1
  | .storeT v, _ => v + 1
  | _, t => t

/-- What `t` is when all runs have made theirs, the uppermost first. -/
def settled : List HandlerPc → ℤ → ℤ
  | [], t => t
  | pc :: below, t => settled below (pc.settle t)

/-- **The condition**: the signal is not delivered while a run stands between the read and the
write of `t`. -/
def Apart (p : State) : Label → Prop
  | .deliver => ∀ pc ∈ p.frames, pc.between = false
  | _ => True

instance (p : State) : DecidablePred (Apart p) := fun l => by
  cases l <;> unfold Apart <;> infer_instance

theorem settle_add_one (h : pc.between = false) (t : ℤ) : pc.settle (t + 1) = pc.settle t + 1 := by
  cases pc with
  | storeT v => exact absurd h (by simp [HandlerPc.between])
  | _ => rfl

/-- Below runs that are not in between, one more is one more. -/
theorem settled_add_one {frames : List HandlerPc} (h : ∀ pc ∈ frames, pc.between = false) (t : ℤ) :
    settled frames (t + 1) = settled frames t + 1 := by
  induction frames generalizing t with
  | nil => rfl
  | cons pc below ih =>
    obtain ⟨hpc, hbelow⟩ := List.forall_mem_cons.mp h
    rw [settled, settled, settle_add_one hpc, ih hbelow]

/-- **Above a run that is in between, all is lost.** -/
theorem settled_eq_of_between {frames : List HandlerPc} (h : ∃ pc ∈ frames, pc.between = true)
    (t t' : ℤ) : settled frames t = settled frames t' := by
  induction frames generalizing t t' with
  | nil => exact absurd h (by simp)
  | cons pc below ih =>
    rw [settled, settled]
    rcases (List.exists_mem_cons_iff _ _ _).mp h with hpc | hbelow
    · cases pc with
      | storeT v => rfl
      | _ => exact absurd hpc (by simp [HandlerPc.between])
    · exact ih hbelow _ _

/-- **A step of a run does what was expected of it.** -/
theorem settled_handlerStep (hframes : p.frames = pc :: below)
    (h : handlerStep p below pc a = some q) :
    settled q.frames q.t = settled p.frames p.t ∧ q.runs = p.runs ∧ q.trapped = p.trapped := by
  obtain ⟨mpc, nodefer, trapped, frames, s, t, runs, reports, beeps⟩ := p
  obtain rfl : frames = pc :: below := hframes
  cases pc with
  | announce =>
    obtain ⟨ok, -, rfl⟩ := Option.map_eq_some_iff.mp h
    exact ⟨rfl, rfl, rfl⟩
  | report saved total cur =>
    obtain ⟨ok, -, rfl⟩ := Option.map_eq_some_iff.mp h
    exact ⟨rfl, rfl, rfl⟩
  | beep saved done =>
    obtain ⟨ok, -, rfl⟩ := Option.map_eq_some_iff.mp h
    refine ⟨?_, rfl, rfl⟩
    simp only [settled]
    split_ifs <;> rfl
  | star saved =>
    obtain ⟨ok, -, rfl⟩ := Option.map_eq_some_iff.mp h
    exact ⟨rfl, rfl, rfl⟩
  | storeS v =>
    cases a <;> simp only [handlerStep, reduceCtorEq] at h
    split_ifs at h <;> obtain rfl := Option.some.inj h <;> exact ⟨rfl, rfl, rfl⟩
  | storeT v =>
    cases a <;> simp only [handlerStep, reduceCtorEq] at h
    split_ifs at h <;> obtain rfl := Option.some.inj h <;> exact ⟨rfl, rfl, rfl⟩
  | test =>
    cases a <;> simp only [handlerStep, reduceCtorEq] at h
    obtain rfl := Option.some.inj h
    refine ⟨?_, rfl, rfl⟩
    simp only [settled]
    split_ifs <;> rfl
  | _ =>
    cases a <;> simp only [handlerStep, reduceCtorEq] at h
    obtain rfl := Option.some.inj h
    exact ⟨rfl, rfl, rfl⟩

/-- Without the handler, there are no runs of it. -/
def Trapped (p : State) : Prop := p.trapped = false → p.frames = []

theorem Trapped.step (hp : Trapped p) (h : step argv p l = some q) : Trapped q := by
  intro hq
  rcases step_cases h with ⟨⟨hframes, -, -, -, -, htrapped⟩, -⟩ |
    ⟨a, pc, below, -, hframes, hstep⟩ | ⟨-, htrapped, rfl⟩
  · rw [hframes]
    exact hp (htrapped hq)
  · rw [(settled_handlerStep hframes hstep).2.2] at hq
    exact absurd (hframes.symm.trans (hp hq)) (by simp)
  · exact absurd (htrapped.symm.trans hq) (by simp)

/-- **A run that is begun counts**, unless it is begun above one that is in between. -/
theorem settled_step (hp : Trapped p) (h : step argv p l = some q) :
    (Apart p l → settled q.frames q.t - q.runs = settled p.frames p.t - p.runs) ∧
      (¬Apart p l → settled q.frames q.t - q.runs < settled p.frames p.t - p.runs) := by
  rcases step_cases h with ⟨⟨hframes, -, ht, hruns, -, -⟩, hdeliver⟩ |
    ⟨a, pc, below, rfl, hframes, hstep⟩ | ⟨rfl, -, rfl⟩
  · rw [hframes, ht, hruns]
    refine ⟨fun _ => rfl, fun hnot => absurd ?_ hnot⟩
    cases l with
    | deliver =>
      rw [Apart, hp (hdeliver rfl)]
      simp
    | _ => trivial
  · obtain ⟨hsettled, hruns, -⟩ := settled_handlerStep hframes hstep
    rw [hsettled, hruns]
    exact ⟨fun _ => rfl, fun hnot => absurd trivial hnot⟩
  · have hnew : settled (.announce :: p.frames) p.t = settled p.frames (p.t + 1) := rfl
    simp only [hnew, Nat.cast_add, Nat.cast_one]
    constructor
    · intro hapart
      rw [settled_add_one hapart]
      omega
    · intro hnot
      have hbetween : ∃ pc ∈ p.frames, pc.between = true := by
        simpa [Apart] using hnot
      rw [settled_eq_of_between hbetween (p.t + 1) p.t]
      omega

/-- **The total is the number of the runs**, whenever none is left, exactly in the runs of the
process in which the signal is never delivered between the read and the write of `t`. -/
theorem total_iff (h : run (step argv) .start ls = some p) (hidle : p.frames = []) :
    p.t = p.runs ↔ Every (step argv) Apart .start ls := by
  have hstart : Trapped .start := fun _ => rfl
  obtain ⟨-, hiff⟩ := every_iff_of_loss (fun _ _ _ hs hst => hs.step hst)
    (fun _ _ _ hs hG hst => (settled_step hs hst).1 hG)
    (fun _ _ _ hs hG hst => (settled_step hs hst).2 hG) hstart h
  have hzero : settled State.start.frames State.start.t - (State.start.runs : ℤ) = 0 := rfl
  rw [hiff, hzero, hidle, settled, sub_eq_zero]

/-! ### The digit -/

/-- A number that is printed as a digit, and not as zero. -/
def IsDigit (v : ℤ) : Prop := 1 ≤ v ∧ v ≤ MAX - 1

/-- The value that a run has taken. -/
def HandlerPc.saved : HandlerPc → Option ℤ
  | .argT v | .argS v _ | .report v _ _ | .beep v _ | .star v => some v
  | _ => none

/-- What a run says of the values that it holds. -/
def HandlerPc.Sound : HandlerPc → Prop
  | .storeS v => 0 ≤ v
  | pc => ∀ v, pc.saved = some v → IsDigit v

/-- What a run needs of `s` when it goes on. -/
def HandlerPc.Needs (s : ℤ) : HandlerPc → Prop
  | .announce | .loadS | .storeS _ => 0 ≤ s
  | .loadT | .storeT _ | .test | .reset => 1 ≤ s
  | _ => IsDigit s

/-- What holds of every run of the process. -/
structure Inv (p : State) : Prop where
  sound : ∀ pc ∈ p.frames, pc.Sound
  needs : ∀ pc ∈ p.frames.head?, pc.Needs p.s
  idle : p.frames = [] → 0 ≤ p.s ∧ (0 < p.runs → IsDigit p.s)
  beeps : ∀ b ∈ p.beeps, b ∈ ascii "123456789"

/-- **A digit is enough for every run**, wherever it stands. -/
theorem needs_of_isDigit {v : ℤ} (h : IsDigit v) (pc : HandlerPc) : pc.Needs v := by
  obtain ⟨hone, hmax⟩ := h
  cases pc <;> simp only [HandlerPc.Needs] <;> first | omega | exact ⟨hone, hmax⟩

/-- And nothing is ever needed that is negative. -/
theorem nonneg_of_needs {v : ℤ} (h : pc.Needs v) : 0 ≤ v := by
  cases pc <;> simp only [HandlerPc.Needs, IsDigit] at h <;> omega

/-- The character is a decimal digit. -/
theorem char_mem {v : ℤ} (h : IsDigit v) : UInt8.ofInt (v + 48) ∈ ascii "123456789" := by
  obtain ⟨hone, hmax⟩ := h
  have hnine : v ≤ 9 := hmax
  interval_cases v <;> decide

/-- `sound` and `needs` when the uppermost run has gone on. -/
theorem Inv.goto {pc' : HandlerPc} (hp : Inv p) (hframes : p.frames = pc :: below)
    (hq : q.frames = pc' :: below) (hsound : pc'.Sound) (hneeds : pc'.Needs q.s)
    (hbeeps : ∀ b ∈ q.beeps, b ∈ ascii "123456789") : Inv q where
  sound := by
    have hold := hp.sound
    rw [hframes] at hold
    rw [hq]
    exact List.forall_mem_cons.mpr ⟨hsound, (List.forall_mem_cons.mp hold).2⟩
  needs := by
    rw [hq]
    rintro pc hpc
    obtain rfl : pc' = pc := Option.some.inj hpc
    exact hneeds
  idle := by
    rw [hq]
    exact fun h => absurd h (by simp)
  beeps := hbeeps

theorem Inv.handlerStep (hp : Inv p) (hframes : p.frames = pc :: below)
    (h : handlerStep p below pc a = some q) : Inv q := by
  have hsound : pc.Sound := hp.sound pc (by simp [hframes])
  have hneeds : pc.Needs p.s := hp.needs pc (by simp [hframes])
  cases pc with
  | announce =>
    obtain ⟨ok, -, rfl⟩ := Option.map_eq_some_iff.mp h
    exact hp.goto hframes rfl (by simp [HandlerPc.Sound, HandlerPc.saved]) hneeds hp.beeps
  | loadS =>
    cases a <;> simp only [DeferOrNot.handlerStep, reduceCtorEq] at h
    obtain rfl := Option.some.inj h
    exact hp.goto hframes rfl hneeds hneeds hp.beeps
  | storeS v =>
    cases a <;> simp only [DeferOrNot.handlerStep, reduceCtorEq] at h
    split_ifs at h
    · obtain rfl := Option.some.inj h
      exact ⟨hp.sound, hp.needs, hp.idle, hp.beeps⟩
    · obtain rfl := Option.some.inj h
      -- what has been read is not negative, whatever the runs above have done since
      refine hp.goto hframes rfl (by simp [HandlerPc.Sound, HandlerPc.saved]) ?_ hp.beeps
      change 1 ≤ v + 1
      change 0 ≤ v at hsound
      omega
  | loadT =>
    cases a <;> simp only [DeferOrNot.handlerStep, reduceCtorEq] at h
    obtain rfl := Option.some.inj h
    exact hp.goto hframes rfl (by simp [HandlerPc.Sound, HandlerPc.saved]) hneeds hp.beeps
  | storeT v =>
    cases a <;> simp only [DeferOrNot.handlerStep, reduceCtorEq] at h
    split_ifs at h
    · obtain rfl := Option.some.inj h
      exact ⟨hp.sound, hp.needs, hp.idle, hp.beeps⟩
    · obtain rfl := Option.some.inj h
      exact hp.goto hframes rfl (by simp [HandlerPc.Sound, HandlerPc.saved]) hneeds hp.beeps
  | test =>
    cases a <;> simp only [DeferOrNot.handlerStep, reduceCtorEq] at h
    obtain rfl := Option.some.inj h
    by_cases hmax : p.s ≥ MAX
    · rw [if_pos hmax]
      exact hp.goto hframes rfl (by simp [HandlerPc.Sound, HandlerPc.saved]) hneeds hp.beeps
    · rw [if_neg hmax]
      refine hp.goto hframes rfl (by simp [HandlerPc.Sound, HandlerPc.saved]) ?_ hp.beeps
      exact ⟨hneeds, by change p.s ≤ MAX - 1; omega⟩
  | reset =>
    cases a <;> simp only [DeferOrNot.handlerStep, reduceCtorEq] at h
    obtain rfl := Option.some.inj h
    refine hp.goto hframes rfl (by simp [HandlerPc.Sound, HandlerPc.saved]) ?_ hp.beeps
    exact ⟨le_rfl, (by decide : (1 : ℤ) ≤ MAX - 1)⟩
  | save =>
    cases a <;> simp only [DeferOrNot.handlerStep, reduceCtorEq] at h
    obtain rfl := Option.some.inj h
    refine hp.goto hframes rfl ?_ hneeds hp.beeps
    intro v hv
    obtain rfl := Option.some.inj hv
    exact hneeds
  | argT saved =>
    cases a <;> simp only [DeferOrNot.handlerStep, reduceCtorEq] at h
    obtain rfl := Option.some.inj h
    exact hp.goto hframes rfl hsound hneeds hp.beeps
  | argS saved total =>
    cases a <;> simp only [DeferOrNot.handlerStep, reduceCtorEq] at h
    obtain rfl := Option.some.inj h
    exact hp.goto hframes rfl hsound hneeds hp.beeps
  | report saved total cur =>
    obtain ⟨ok, -, rfl⟩ := Option.map_eq_some_iff.mp h
    exact hp.goto hframes rfl hsound hneeds hp.beeps
  | beep saved done =>
    obtain ⟨ok, -, rfl⟩ := Option.map_eq_some_iff.mp h
    have hbeeps : ∀ b ∈ (if ok = true then p.beeps ++ [UInt8.ofInt (saved + 48)] else p.beeps),
        b ∈ ascii "123456789" := by
      cases ok with
      | false => exact hp.beeps
      | true =>
        rintro b hb
        rcases List.mem_append.mp hb with hold | hnew
        · exact hp.beeps b hold
        · rw [List.mem_singleton.mp hnew]
          exact char_mem (hsound saved rfl)
    by_cases hdone : done + 1 < loopCount
    · rw [if_pos hdone]
      exact hp.goto hframes rfl hsound hneeds hbeeps
    · rw [if_neg hdone]
      exact hp.goto hframes rfl hsound hneeds hbeeps
  | star saved =>
    obtain ⟨ok, -, rfl⟩ := Option.map_eq_some_iff.mp h
    -- the run leaves a digit, with which the run below can go on
    have hdigit : IsDigit p.s := hneeds
    have hnonneg : 0 ≤ p.s := zero_le_one.trans hdigit.1
    refine ⟨fun pc hpc => hp.sound pc ?_, fun pc _ => needs_of_isDigit hdigit pc,
      fun _ => ⟨hnonneg, fun _ => hdigit⟩, hp.beeps⟩
    rw [hframes]
    exact List.mem_cons_of_mem _ hpc

/-- **One step preserves it.** -/
theorem Inv.step (hp : Inv p) (h : step argv p l = some q) : Inv q := by
  rcases step_cases h with ⟨⟨hframes, hs, -, hruns, hbeeps, -⟩, -⟩ |
    ⟨a, pc, below, -, hframes, hstep⟩ | ⟨-, -, rfl⟩
  · refine ⟨?_, ?_, ?_, ?_⟩
    · rw [hframes]
      exact hp.sound
    · rw [hframes, hs]
      exact hp.needs
    · rw [hframes, hs, hruns]
      exact hp.idle
    · rw [hbeeps]
      exact hp.beeps
  · exact hp.handlerStep hframes hstep
  · refine ⟨?_, ?_, fun hnil => absurd hnil (by simp), hp.beeps⟩
    · refine List.forall_mem_cons.mpr ⟨?_, hp.sound⟩
      simp [HandlerPc.Sound, HandlerPc.saved]
    · rintro pc hpc
      obtain rfl : HandlerPc.announce = pc := Option.some.inj hpc
      -- wherever the run below stands, `s` is not negative
      cases hframes : p.frames with
      | nil => exact (hp.idle hframes).1
      | cons pc below => exact nonneg_of_needs (hp.needs pc (by rw [hframes]; rfl))

/-- **Only digits are taken and printed**: the value that a run takes is between 1 and 9, the
characters of the delay loop are decimal digits, and `s` is between 1 and 9 whenever no run is left
and there has been one. -/
theorem digit (h : run (step argv) .start ls = some p) :
    (∀ pc ∈ p.frames, ∀ v, pc.saved = some v → 1 ≤ v ∧ v ≤ MAX - 1) ∧
      (∀ b ∈ p.beeps, b ∈ ascii "123456789") ∧
      (p.frames = [] → 0 < p.runs → 1 ≤ p.s ∧ p.s ≤ MAX - 1) := by
  have hstart : Inv .start := by
    refine ⟨by simp [State.start], by simp [State.start], fun _ => ⟨le_rfl, fun hpos => ?_⟩,
      by simp [State.start]⟩
    exact absurd hpos (lt_irrefl 0)
  have hp : Inv p := run_invariant (fun _ _ _ hs hst => hs.step hst) hstart h
  refine ⟨fun pc hpc v hv => ?_, hp.beeps, fun hidle => (hp.idle hidle).2⟩
  have hsound := hp.sound pc hpc
  cases pc with
  | storeS v => exact absurd hv (by simp [HandlerPc.saved])
  | _ => exact hsound v hv

end Counters

/-- The arguments that set `SA_NODEFER`. -/
def nodeferArgv : List (List UInt8) := [ascii "defer_or_not", ascii "2"]

/-- So many steps of the handler. -/
def steps (n : ℕ) : List Label := List.replicate n (.handler .ok)

/-- The handler is installed, and a second signal comes when the first run has made so many
steps. -/
def nested (n : ℕ) : List Label :=
  [.main .ok, .main .ok, .deliver] ++ steps n ++ [.deliver] ++ steps 16 ++ steps (16 - n)

/-- A second signal that comes when `t` has been written. -/
theorem total_iff_at : ∃ p : State, run (step nodeferArgv) .start (nested 5) = some p ∧
    p.frames = [] ∧ p.runs = 2 ∧
    (p.t = p.runs ↔ Every (step nodeferArgv) Apart .start (nested 5)) := by
  have hrun : run (step nodeferArgv) .start (nested 5) = some ⟨.pause, true, true, [], 2, 2, 2,
      [(2, 2), (2, 2)], List.replicate 10 50⟩ := by decide +kernel
  exact ⟨_, hrun, rfl, rfl, total_iff hrun rfl⟩

/-- **A signal that is lost**: the second run begins between the read and the write of `t`, and
the total is 1 when both have returned. -/
theorem total_one_of_two : ∃ p : State, run (step nodeferArgv) .start (nested 4) = some p ∧
    p.nodefer = true ∧ p.frames = [] ∧ p.runs = 2 ∧ p.t = 1 := by
  have hrun : run (step nodeferArgv) .start (nested 4) = some ⟨.pause, true, true, [], 2, 1, 2,
      [(2, 1), (2, 1)], List.replicate 10 50⟩ := by decide +kernel
  exact ⟨_, hrun, rfl, rfl, rfl, rfl⟩

/-- A second signal that comes between the read and the write of `s`: both runs have returned, and
each has printed ten times the digit 1. -/
theorem digit_at : ∃ p : State, run (step nodeferArgv) .start (nested 2) = some p ∧
    p.frames = [] ∧ p.runs = 2 ∧ p.s = 1 ∧ p.beeps = ascii "1111111111" ∧
    (∀ pc ∈ p.frames, ∀ v, pc.saved = some v → 1 ≤ v ∧ v ≤ MAX - 1) ∧
    (∀ b ∈ p.beeps, b ∈ ascii "123456789") ∧
    (p.frames = [] → 0 < p.runs → 1 ≤ p.s ∧ p.s ≤ MAX - 1) := by
  have hrun : run (step nodeferArgv) .start (nested 2) = some ⟨.pause, true, true, [], 1, 2, 2,
      [(1, 1), (1, 2)], List.replicate 10 49⟩ := by decide +kernel
  exact ⟨_, hrun, rfl, rfl, rfl, by decide, digit hrun⟩

end DeferOrNot

end SystemProgramming
