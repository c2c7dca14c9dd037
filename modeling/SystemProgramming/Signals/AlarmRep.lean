import SystemProgramming.HandleErr
import SystemProgramming.Printf
import SystemProgramming.Runs

/-!
# An alarm that is set again

`alarm2_rep` (`ch13/`) promises a timeout every `n` seconds: `main` sets an alarm, and in its loop
waits in `pause` for the signal and sets the alarm again. The handler only writes a message.

So the alarm is set again when `pause` returns, and `pause` returns when a handler has run *during*
it. A signal that is handled before – between `alarm` and `pause`, because the process has been
delayed for the whole timeout – sets nothing, and `main` then waits in `pause` with no alarm set and
no signal to come. This happens in no run in which the signal is handled only while `main` is in
`pause`, and is bound to happen in every other (`SystemProgramming.AlarmRep.repeats_iff`).
-/

namespace SystemProgramming

open HandleErr Printf Runs

namespace AlarmRep

/-- Where `main` stands. -/
inductive Pc where
  /-- About to look at its argument. -/
  | args
  /-- About to install the handler. -/
  | sigaction
  /-- That failed; about to call `FATAL`. -/
  | fatal
  /-- About to set the alarm. -/
  | alarm
  /-- About to print that it is set. -/
  | print
  /-- About to call `pause`. -/
  | pause
  /-- Blocked in `pause`. -/
  | blocked
  /-- About to set the alarm again. -/
  | rearm
  /-- About to print that it is set again. -/
  | reprint
  /-- The process has exited. -/
  | exited (status : ℤ)
  /-- The signal, not handled, has ended it. -/
  | killed
  deriving DecidableEq, Repr

/-- Where the handler stands. -/
inductive HandlerPc where
  /-- About to write its message. -/
  | write
  /-- That failed; about to call `WARN`. -/
  | warn
  deriving DecidableEq, Repr

/-- The state of the process. -/
structure State where
  pc : Pc
  handler : Option HandlerPc
  n : ℤ
  /-- The signal is handled. -/
  trapped : Bool
  /-- An alarm is set. -/
  armed : Bool
  /-- The signal is pending. -/
  pending : Bool
  deriving DecidableEq, Repr

/-- What happens. -/
inductive Label where
  /-- `main` goes on, its call being answered so. -/
  | main (a : Answer)
  /-- The handler goes on. -/
  | handler (a : Answer)
  /-- The alarm expires. -/
  | expire
  /-- The signal is delivered. -/
  | deliver
  deriving DecidableEq, Repr

/-- What the process does itself. -/
def Label.own : Label → Bool
  | .main _ | .handler _ => true
  | _ => false

/-- `main` is called. -/
def State.start : State := ⟨.args, none, 0, false, false, false⟩

/-- `main`. An alarm of no seconds would be none. -/
def mainStep (argv : List (List UInt8)) (s : State) (a : Answer) : Option State :=
  let goto (s : State) (pc : Pc) : State := { s with pc := pc }
  let alarm (s : State) : State := { s with armed := decide (s.n ≠ 0) }
  match s.pc, a with
  | .args, .ok =>
    if argv.length ≠ 2 then some (goto s (.exited EXIT_FAILURE))
    else
      let s := { s with n := (atol (argv.getD 1 [])).toInt32.toInt }
      some (goto s (if s.n ≤ 0 then .exited EXIT_FAILURE else .sigaction))
  | .sigaction, a => a.status.map fun ok =>
    if ok then goto { s with trapped := true } .alarm else goto s .fatal
  | .fatal, a => afterFatal a (fun status => goto s (.exited status)) (goto s .alarm)
  | .alarm, .ok => some (goto (alarm s) .print)
  | .print, a => a.status.map fun _ => goto s .pause
  | .pause, .ok => some (goto s .blocked)
  | .rearm, .ok => some (goto (alarm s) .reprint)
  | .reprint, a => a.status.map fun _ => goto s .pause
  | _, _ => none

/-- The handler returns; if it has interrupted `pause`, so does `pause`. -/
def State.resume (s : State) : State :=
  { s with handler := none, pc := if s.pc = .blocked then .rearm else s.pc }

/-- `sig_handler`, called for `SIGALRM`. -/
def handlerStep (s : State) (h : HandlerPc) (a : Answer) : Option State :=
  match h with
  | .write => a.status.map fun ok => if ok then s.resume else { s with handler := some .warn }
  | .warn => a.status.map fun _ => s.resume

/-- A step of a process that is there. -/
def move (argv : List (List UInt8)) (s : State) : Label → Option State
  | .main a => if s.handler = none then mainStep argv s a else none
  | .handler a => s.handler.bind fun h => handlerStep s h a
  | .expire => if s.armed then some { s with armed := false, pending := true } else none
  | .deliver =>
    if s.pending ∧ s.handler = none then
      some (if s.trapped then { s with pending := false, handler := some .write }
        else { s with pc := .killed })
    else none

/-- **The step function**, with the arguments. -/
def step (argv : List (List UInt8)) (s : State) (l : Label) : Option State :=
  match s.pc with
  | .exited _ | .killed => none
  | _ => move argv s l

/-- **The timeouts have stopped**: `main` is blocked in `pause`, no alarm is set, and no signal is
pending. -/
def Stopped (s : State) : Prop :=
  s.pc = .blocked ∧ s.handler = none ∧ s.armed = false ∧ s.pending = false

/-- **The condition**: the signal is handled only while `main` is blocked in `pause`. -/
def InPause (s : State) : Label → Prop
  | .deliver => s.trapped = true → s.pc = .blocked
  | _ => True

/-- The process comes to that **by itself**, with neither an expiry nor a delivery. -/
def Stops (argv : List (List UInt8)) (s : State) : Prop :=
  ∃ is t, (∀ l ∈ is, l.own = true) ∧ run (step argv) s is = some t ∧ Stopped t

/-! ### What holds while the condition is met -/

section Invariant

variable {argv : List (List UInt8)} {s t : State} {a : Answer} {h : HandlerPc} {l : Label}

/-- `main` has found its argument positive. -/
def Pc.checked : Pc → Bool
  | .args | .exited _ | .killed => false
  | _ => true

/-- `main` has set the alarm, and relies on it. -/
def Pc.waiting : Pc → Bool
  | .print | .pause | .blocked | .reprint => true
  | _ => false

/-- `main` has not set the alarm, or has had its signal. -/
def Pc.early : Pc → Bool
  | .print | .pause | .blocked | .reprint | .killed => false
  | _ => true

/-- What holds as long as the signal is handled in `pause` only. -/
structure Inv (s : State) : Prop where
  positive : s.pc.checked = true → 0 < s.n
  early : s.pc.early = true → s.armed = false ∧ s.pending = false ∧ s.handler = none
  /-- **An alarm is set, or the signal is there.** -/
  waiting : s.pc.waiting = true → s.handler = none → s.armed = true ∨ s.pending = true
  handling : s.handler ≠ none → s.pc = .blocked ∧ s.armed = false ∧ s.pending = false
  once : s.pending = true → s.armed = false

theorem inv_start : Inv .start := by
  constructor <;> simp [State.start, Pc.checked, Pc.waiting]

/-- **Where the invariant holds, the timeouts have not stopped.** -/
theorem Inv.not_stopped (hs : Inv s) : ¬Stopped s := by
  rintro ⟨hpc, hhandler, harmed, hpending⟩
  rcases hs.waiting (by rw [hpc]; rfl) hhandler with h | h
  · exact absurd (h.symm.trans harmed) (by simp)
  · exact absurd (h.symm.trans hpending) (by simp)

/-- **What a step of `main` does**: it sets the alarm, or leaves alarm and signal alone. -/
theorem mainStep_cases (h : mainStep argv s a = some t) :
    t.pending = s.pending ∧ t.handler = s.handler ∧
    ((s.pc.early = true ∧ t.pc.early = true ∧ t.pc.waiting = false ∧ t.armed = s.armed ∧
        (t.pc.checked = true → 0 < t.n ∨ s.pc.checked = true ∧ t.n = s.n)) ∨
      (s.pc.early = true ∧ s.pc.checked = true ∧ t.pc.early = false ∧ t.n = s.n ∧
        t.armed = decide (s.n ≠ 0)) ∨
      (s.pc.waiting = true ∧ t.pc.waiting = true ∧ t.armed = s.armed ∧ t.n = s.n)) := by
  obtain ⟨pc, handler, n, trapped, armed, pending⟩ := s
  cases pc with
  | args =>
    cases a <;> simp only [mainStep, reduceCtorEq] at h
    split_ifs at h with hargc hn
    · obtain rfl := Option.some.inj h
      exact ⟨rfl, rfl, Or.inl ⟨rfl, rfl, rfl, rfl, fun hc => absurd hc (by simp [Pc.checked])⟩⟩
    · obtain rfl := Option.some.inj h
      exact ⟨rfl, rfl, Or.inl ⟨rfl, rfl, rfl, rfl, fun hc => absurd hc (by simp [Pc.checked])⟩⟩
    · obtain rfl := Option.some.inj h
      exact ⟨rfl, rfl, Or.inl ⟨rfl, rfl, rfl, rfl, fun _ => Or.inl (not_le.mp hn)⟩⟩
  | sigaction =>
    obtain ⟨ok, -, rfl⟩ := Option.map_eq_some_iff.mp h
    cases ok <;> exact ⟨rfl, rfl, Or.inl ⟨rfl, rfl, rfl, rfl, fun _ => Or.inr ⟨rfl, rfl⟩⟩⟩
  | fatal =>
    rcases afterFatal_cases h with rfl | rfl
    · exact ⟨rfl, rfl, Or.inl ⟨rfl, rfl, rfl, rfl, fun _ => Or.inr ⟨rfl, rfl⟩⟩⟩
    · exact ⟨rfl, rfl, Or.inl ⟨rfl, rfl, rfl, rfl, fun _ => Or.inr ⟨rfl, rfl⟩⟩⟩
  | alarm | rearm =>
    cases a <;> simp only [mainStep, reduceCtorEq] at h
    obtain rfl := Option.some.inj h
    exact ⟨rfl, rfl, Or.inr (Or.inl ⟨rfl, rfl, rfl, rfl, rfl⟩)⟩
  | print | reprint =>
    obtain ⟨ok, -, rfl⟩ := Option.map_eq_some_iff.mp h
    exact ⟨rfl, rfl, Or.inr (Or.inr ⟨rfl, rfl, rfl, rfl⟩)⟩
  | pause =>
    cases a <;> simp only [mainStep, reduceCtorEq] at h
    obtain rfl := Option.some.inj h
    exact ⟨rfl, rfl, Or.inr (Or.inr ⟨rfl, rfl, rfl, rfl⟩)⟩
  | _ => simp only [mainStep, reduceCtorEq] at h

theorem not_early_of_waiting {pc : Pc} (h : pc.waiting = true) : pc.early = false := by
  cases pc <;> first | rfl | exact absurd h (by simp [Pc.waiting])

theorem checked_of_waiting {pc : Pc} (h : pc.waiting = true) : pc.checked = true := by
  cases pc <;> first | rfl | exact absurd h (by simp [Pc.waiting])

theorem Inv.mainStep (hs : Inv s) (hidle : s.handler = none) (h : mainStep argv s a = some t) :
    Inv t := by
  obtain ⟨hpending, hhandler, hcase⟩ := mainStep_cases h
  have hnone : t.handler = none := hhandler.trans hidle
  rcases hcase with ⟨hearly, hearly', hwaiting, harmed, hn⟩ |
    ⟨hearly, hchecked, hearly', hn, harmed⟩ | ⟨hwaiting, hwaiting', harmed, hn⟩
  · obtain ⟨hoff, hquiet, -⟩ := hs.early hearly
    refine ⟨fun hc => ?_, fun _ => ⟨harmed.trans hoff, hpending.trans hquiet, hnone⟩, fun hw => ?_,
      fun hsome => absurd hnone hsome, fun _ => harmed.trans hoff⟩
    · rcases hn hc with hpos | ⟨hc, heq⟩
      · exact hpos
      · rw [heq]
        exact hs.positive hc
    · exact absurd (hw.symm.trans hwaiting) (by simp)
  · -- the alarm is set: the number of seconds is positive
    obtain ⟨-, hquiet, -⟩ := hs.early hearly
    have hpos : 0 < s.n := hs.positive hchecked
    have hon : t.armed = true := harmed.trans (decide_eq_true hpos.ne')
    refine ⟨fun _ => hn.symm ▸ hpos, fun he => ?_, fun _ _ => Or.inl hon,
      fun hsome => absurd hnone hsome, fun hp => ?_⟩
    · exact absurd (he.symm.trans hearly') (by simp)
    · exact absurd (hp.symm.trans (hpending.trans hquiet)) (by simp)
  · refine ⟨fun _ => ?_, fun he => ?_, fun _ _ => ?_, fun hsome => absurd hnone hsome, ?_⟩
    · rw [hn]
      exact hs.positive (checked_of_waiting hwaiting)
    · exact absurd (he.symm.trans (not_early_of_waiting hwaiting')) (by simp)
    · rw [harmed, hpending]
      exact hs.waiting hwaiting hidle
    · rw [harmed, hpending]
      exact hs.once

/-- The handler has interrupted `pause`, and so the alarm is set again. -/
theorem Inv.resume (hs : Inv s) (hhandler : s.handler ≠ none) : Inv s.resume := by
  obtain ⟨hpc, harmed, hpending⟩ := hs.handling hhandler
  have hrearm : s.resume.pc = .rearm := if_pos hpc
  refine ⟨fun _ => hs.positive (by rw [hpc]; rfl), fun _ => ⟨harmed, hpending, rfl⟩, fun hw => ?_,
    fun hsome => absurd rfl hsome, fun _ => harmed⟩
  rw [hrearm] at hw
  exact absurd hw (by simp [Pc.waiting])

theorem Inv.handlerStep (hs : Inv s) (hh : s.handler = some h)
    (hstep : handlerStep s h a = some t) : Inv t := by
  have hsome : s.handler ≠ none := by simp [hh]
  obtain ⟨hpc, harmed, hpending⟩ := hs.handling hsome
  cases h with
  | write =>
    obtain ⟨ok, -, rfl⟩ := Option.map_eq_some_iff.mp hstep
    cases ok with
    | true => exact hs.resume hsome
    | false =>
      refine ⟨hs.positive, fun he => ?_, fun _ hnone => absurd hnone (by simp),
        fun _ => ⟨hpc, harmed, hpending⟩, hs.once⟩
      exact absurd he (by simp [hpc, Pc.early])
  | warn =>
    obtain ⟨ok, -, rfl⟩ := Option.map_eq_some_iff.mp hstep
    exact hs.resume hsome

/-- A process that can go on. -/
theorem move_of_step (h : step argv s l = some t) :
    move argv s l = some t ∧ (s.pc.early = true ∨ s.pc.waiting = true) := by
  rw [step.eq_def] at h
  split at h
  · exact absurd h (by simp)
  · exact absurd h (by simp)
  · rename_i hkilled
    refine ⟨h, ?_⟩
    cases hpc : s.pc with
    | killed => exact absurd hpc hkilled
    | _ => simp [Pc.early, Pc.waiting]

/-- **One step preserves it**, if it meets the condition. -/
theorem Inv.step (hs : Inv s) (hin : InPause s l) (h : step argv s l = some t) : Inv t := by
  obtain ⟨hmove, -⟩ := move_of_step h
  cases l with
  | main a =>
    rw [move] at hmove
    split_ifs at hmove with hidle
    exact hs.mainStep hidle hmove
  | handler a =>
    obtain ⟨h', hh, hstep⟩ := Option.bind_eq_some_iff.mp hmove
    exact hs.handlerStep hh hstep
  | expire =>
    rw [move] at hmove
    split_ifs at hmove with harmed
    obtain rfl := Option.some.inj hmove
    have hearly : s.pc.early ≠ true := fun he =>
      absurd (harmed.symm.trans (hs.early he).1) (by simp)
    refine ⟨hs.positive, fun he => absurd he hearly, fun _ _ => Or.inr rfl, fun hsome => ?_,
      fun _ => rfl⟩
    exact absurd (harmed.symm.trans (hs.handling hsome).2.1) (by simp)
  | deliver =>
    rw [move] at hmove
    split_ifs at hmove with hcond htrapped
    · obtain ⟨hpending, hidle⟩ := hcond
      obtain rfl := Option.some.inj hmove
      have hblocked : s.pc = .blocked := hin htrapped
      refine ⟨hs.positive, fun he => ?_, fun _ hnone => absurd hnone (by simp),
        fun _ => ⟨hblocked, hs.once hpending, rfl⟩, fun hp => absurd hp (by simp)⟩
      exact absurd he (by simp [hblocked, Pc.early])
    · obtain ⟨-, hidle⟩ := hcond
      obtain rfl := Option.some.inj hmove
      exact ⟨fun hc => absurd hc (by simp [Pc.checked]), fun he => absurd he (by simp [Pc.early]),
        fun hw => absurd hw (by simp [Pc.waiting]), fun hsome => absurd hidle hsome, hs.once⟩

/-- As long as the condition is met, the process does not come to a stop by itself. -/
theorem Inv.not_stops (hs : Inv s) : ¬Stops argv s := by
  rintro ⟨is, t, hown, hrun, hstopped⟩
  have hin : Every (AlarmRep.step argv) InPause s is :=
    (every_of_forall (D := fun l => l.own = true) hown s).imp fun s l hl => by
      cases l with
      | deliver => exact absurd hl (by simp [Label.own])
      | _ => trivial
  exact (hin.invariant (fun _ _ _ hs hG hst => hs.step hG hst) hs hrun).not_stopped hstopped

/-- **A signal that is handled before `pause`** is the last: the handler returns, and `main` calls
`pause` with no alarm set. -/
theorem Inv.stops (hs : Inv s) (hout : ¬InPause s l) (h : AlarmRep.step argv s l = some t) :
    Stops argv t := by
  obtain ⟨hmove, hpc⟩ := move_of_step h
  cases l with
  | deliver =>
    obtain ⟨htrapped, hblocked⟩ := Classical.not_imp.mp hout
    rw [move, if_pos htrapped] at hmove
    split_ifs at hmove with hcond
    obtain ⟨hpending, hidle⟩ := hcond
    obtain rfl := Option.some.inj hmove
    have harmed : s.armed = false := hs.once hpending
    have hwaiting : s.pc.waiting = true := hpc.resolve_left fun he =>
      absurd (hpending.symm.trans (hs.early he).2.1) (by simp)
    obtain ⟨pc, handler, n, trapped, armed, pending⟩ := s
    simp only at htrapped hblocked hidle harmed
    subst htrapped hidle harmed
    cases pc with
    | print =>
      exact ⟨[.handler .ok, .main .ok, .main .ok], _, by simp [Label.own], rfl, rfl, rfl, rfl, rfl⟩
    | reprint =>
      exact ⟨[.handler .ok, .main .ok, .main .ok], _, by simp [Label.own], rfl, rfl, rfl, rfl, rfl⟩
    | pause =>
      exact ⟨[.handler .ok, .main .ok], _, by simp [Label.own], rfl, rfl, rfl, rfl, rfl⟩
    | blocked => exact absurd rfl hblocked
    | _ => exact absurd hwaiting (by simp [Pc.waiting])
  | _ => exact absurd trivial hout

/-- **The timeouts go on exactly in the runs in which the signal is handled in `pause` only**: from
none of the states of such a run does the process come, by itself, to wait in `pause` with no alarm
set and no signal pending, and in any other run there is a state from which it does. -/
theorem repeats_iff {is : List Label} (h : run (AlarmRep.step argv) .start is = some s) :
    Every (AlarmRep.step argv) InPause .start is ↔
      ∀ js t, js <+: is → run (AlarmRep.step argv) .start js = some t → ¬Stops argv t :=
  every_iff_of_break (fun _ _ _ hs hG hst => hs.step hG hst) (fun _ hs => hs.not_stops)
    (fun _ _ _ hs hout hst hnot => hnot (hs.stops hout hst)) inv_start h

end Invariant

/-- A process that has come to a stop is moved by nothing. -/
theorem step_of_stopped {argv : List (List UInt8)} {s : State} (h : Stopped s) (l : Label) :
    step argv s l = none := by
  obtain ⟨pc, handler, n, trapped, armed, pending⟩ := s
  obtain ⟨hpc, hhandler, harmed, hpending⟩ := h
  simp only at hpc hhandler harmed hpending
  subst hpc hhandler harmed hpending
  cases l <;> rfl

/-- The alarm is set for a second, expires, and its signal is handled in `pause`. -/
def oneTimeout : List Label :=
  List.replicate 5 (.main .ok) ++ [.expire, .deliver, .handler .ok, .main .ok]

/-- A timeout that is repeated. -/
theorem repeats_iff_at :
    ∃ s, run (step [ascii "alarm2_rep", ascii "1"]) .start oneTimeout = some s ∧
      s.armed = true ∧
      (Every (step [ascii "alarm2_rep", ascii "1"]) InPause .start oneTimeout ↔
        ∀ js t, js <+: oneTimeout → run (step [ascii "alarm2_rep", ascii "1"]) .start js = some t →
          ¬Stops [ascii "alarm2_rep", ascii "1"] t) := by
  have hrun : run (step [ascii "alarm2_rep", ascii "1"]) .start oneTimeout =
      some ⟨.reprint, none, 1, true, true, false⟩ := by decide +kernel
  exact ⟨_, hrun, rfl, repeats_iff hrun⟩

/-- **The timeouts stop**: the second passes before `main` prints that the alarm is set, and then
`main` waits for nothing. -/
theorem stopped_after_one :
    ∃ s, run (step [ascii "alarm2_rep", ascii "1"]) .start
      (List.replicate 3 (.main .ok) ++ [.expire, .deliver, .handler .ok, .main .ok, .main .ok]) =
        some s ∧ s.n = 1 ∧ Stopped s := by
  have hrun : run (step [ascii "alarm2_rep", ascii "1"]) .start
      (List.replicate 3 (.main .ok) ++ [.expire, .deliver, .handler .ok, .main .ok, .main .ok]) =
      some ⟨.blocked, none, 1, true, false, false⟩ := by decide +kernel
  exact ⟨_, hrun, rfl, rfl, rfl, rfl, rfl⟩

end AlarmRep

end SystemProgramming
