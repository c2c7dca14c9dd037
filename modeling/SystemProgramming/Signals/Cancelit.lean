import SystemProgramming.HandleErr
import SystemProgramming.Runs
import Mathlib.Logic.Function.Basic

/-!
# A thread that is not cancelled at its work

`cancelit` (`ch16/`): `main` creates two threads, asks for the cancellation of the first one, and
joins both. The first thread switches cancellation off, does its work – a hundred characters, each
written by a call at which a cancellation could be acted upon – and switches it on again before it
sleeps; the second one only sleeps.

The request can come at any time. If the thread is cancelled before it has switched cancellation
off, it has not begun its work, and if it is cancelled later, the work is done whole; it says that
it is done only if the request came when it had slept. The second thread is never cancelled
(`SystemProgramming.Cancelit.joined_whole`). All this rests on a call that does not fail, since
`FATAL` may come back from its report.
-/

namespace SystemProgramming

open HandleErr Runs

namespace Cancelit

/-! ### The threads -/

/-- `PTHREAD_CANCELED`. -/
def PTHREAD_CANCELED : ℤ := -1

/-- How many characters the work consists of. -/
def LOOPS : ℕ := 100

/-- Where a thread stands in `worker`. -/
inductive Pc where
  /-- It has not been created. -/
  | absent
  /-- About to print that it switches cancellation off. -/
  | sayDisable
  | disable
  /-- That failed. -/
  | disableFatal
  /-- In the work, about to write the next character after these. -/
  | beep (n : ℕ)
  /-- About to print that it switches cancellation on. -/
  | sayEnable
  | enable
  /-- That failed. -/
  | enableFatal
  /-- About to print that it sleeps. -/
  | saySleep
  | sleep
  /-- About to print that it is done. -/
  | sayDone
  | exit
  /-- It has ended with this value. -/
  | ended (value : ℤ)
  deriving DecidableEq, Repr

/-- A thread. -/
structure Thread where
  pc : Pc
  /-- Cancellation is switched on. -/
  enabled : Bool
  /-- Where it stood when its cancellation was asked for. -/
  request : Option Pc
  /-- How many characters of its work have been written. -/
  worked : ℕ
  deriving DecidableEq, Repr

/-- Where `main` stands. -/
inductive Main where
  | sayCreate (i : ℕ)
  | create (i : ℕ)
  | createFatal (i : ℕ)
  | cancel
  | cancelFatal
  | sayJoin (i : ℕ)
  | join (i : ℕ)
  | joinWarn (i : ℕ)
  /-- About to print what the thread ended with. -/
  | sayJoined (i : ℕ) (stat : ℤ)
  /-- About to print that it was cancelled. -/
  | sayCancelled (i : ℕ)
  | farewell
  | ended
  /-- It has used a thread that is not there; what follows is left open. -/
  | undefined
  deriving DecidableEq, Repr

/-- The process. -/
structure State where
  main : Main
  threads : ℕ → Thread
  /-- The threads that `main` has joined, with what they ended with. -/
  joined : List (ℕ × ℤ)
  /-- The process has exited with this status. -/
  exited : Option ℤ

/-- What happens. -/
inductive Label where
  /-- `main` goes on, its call being answered so. -/
  | main (a : Answer)
  /-- A thread does. -/
  | thread (i : ℕ) (a : Answer)
  /-- The request for the cancellation of a thread is acted upon. -/
  | cancelled (i : ℕ)
  deriving DecidableEq, Repr

/-- `main` is called. -/
def State.start : State := ⟨.sayCreate 0, fun _ => ⟨.absent, true, none, 0⟩, [], none⟩

/-- A cancellation can be acted upon here: in a call that prints, writes, or sleeps. -/
def Pc.isPoint : Pc → Bool
  | .sayDisable | .disableFatal | .beep _ | .sayEnable | .enableFatal | .saySleep | .sleep
  | .sayDone => true
  | _ => false

/-- The two calls at which it has to be acted upon; in the others it may be. -/
def Pc.mustAct : Pc → Bool
  | .beep _ | .sleep => true
  | _ => false

/-- What comes in the work after `n` characters. -/
def nextBeep (n : ℕ) : Pc := if n < LOOPS then .beep n else .sayEnable

/-- `worker`: the thread that it leads to, or the end of the process. -/
def worker (th : Thread) (a : Answer) : Option (Thread ⊕ ℤ) :=
  let goto (pc : Pc) : Thread ⊕ ℤ := .inl { th with pc := pc }
  match th.pc with
  | .sayDisable => a.status.map fun _ => goto .disable
  | .disable => a.status.map fun ok =>
    if ok then .inl { th with pc := nextBeep 0, enabled := false } else goto .disableFatal
  | .disableFatal => afterFatal a .inr (goto (nextBeep 0))
  -- what becomes of the write is not looked at
  | .beep n => a.status.map fun _ =>
    .inl { th with pc := nextBeep (n + 1), worked := th.worked + 1 }
  | .sayEnable => a.status.map fun _ => goto .enable
  | .enable => a.status.map fun ok =>
    if ok then .inl { th with pc := .saySleep, enabled := true } else goto .enableFatal
  | .enableFatal => afterFatal a .inr (goto .saySleep)
  | .saySleep => a.status.map fun _ => goto .sleep
  | .sleep => a.status.map fun _ => goto .sayDone
  | .sayDone => a.status.map fun _ => goto .exit
  | .exit => some (goto (.ended 0))
  | .absent | .ended _ => none

namespace State

/-- A thread has changed. -/
def set (p : State) (i : ℕ) (th : Thread) : State :=
  { p with threads := Function.update p.threads i th }

/-- A thread that is created begins its work if it is the first one. -/
def created (p : State) (i : ℕ) : State :=
  p.set i { p.threads i with pc := if i = 0 then .sayDisable else .saySleep }

/-- A loop of `main` goes on to the next thread. -/
def next (p : State) (i : ℕ) (loop : ℕ → Main) (behind : Main) : State :=
  { p with main := if i + 1 < 2 then loop (i + 1) else behind }

end State

/-- `main`. -/
def mainStep (p : State) (a : Answer) : Option State :=
  match p.main with
  | .sayCreate i => a.status.map fun _ => { p with main := .create i }
  | .create i => a.status.map fun ok =>
    if ok then (p.created i).next i .sayCreate .cancel else { p with main := .createFatal i }
  | .createFatal i =>
    afterFatal a (fun status => { p with exited := some status }) (p.next i .sayCreate .cancel)
  | .cancel =>
    if (p.threads 0).pc = .absent then some { p with main := .undefined }
    else a.status.map fun ok =>
      if ok then
        { p.set 0 { p.threads 0 with request := some (p.threads 0).pc } with main := .sayJoin 0 }
      else { p with main := .cancelFatal }
  | .cancelFatal =>
    afterFatal a (fun status => { p with exited := some status }) { p with main := .sayJoin 0 }
  | .sayJoin i => a.status.map fun _ => { p with main := .join i }
  | .join i =>
    match (p.threads i).pc with
    | .absent => some { p with main := .undefined }
    | .ended stat => a.status.map fun ok =>
      if ok then { p with main := .sayJoined i stat, joined := p.joined ++ [(i, stat)] }
      else { p with main := .joinWarn i }
    | _ => none
  | .joinWarn i => a.status.map fun _ => p.next i .sayJoin .farewell
  | .sayJoined i stat => a.status.map fun _ =>
    if stat = PTHREAD_CANCELED then { p with main := .sayCancelled i }
    else p.next i .sayJoin .farewell
  | .sayCancelled i => a.status.map fun _ => p.next i .sayJoin .farewell
  | .farewell => a.status.map fun _ => { p with main := .ended }
  | .ended | .undefined => none

/-- A thread goes on, unless a cancellation has to be acted upon. -/
def threadStep (p : State) (i : ℕ) (a : Answer) : Option State :=
  let th := p.threads i
  if th.request ≠ none ∧ th.enabled = true ∧ th.pc.mustAct = true then none
  else (worker th a).map fun
    | .inl th' => p.set i th'
    | .inr status => { p with exited := some status }

/-- The cancellation of a thread is acted upon. -/
def cancelStep (p : State) (i : ℕ) : Option State :=
  let th := p.threads i
  if th.request ≠ none ∧ th.enabled = true ∧ th.pc.isPoint = true then
    some (p.set i { th with pc := .ended PTHREAD_CANCELED })
  else none

/-- **The step function**, up to the exit of the process. -/
def step (p : State) (l : Label) : Option State :=
  if p.exited = none then
    match l with
    | .main a => mainStep p a
    | .thread i a => threadStep p i a
    | .cancelled i => cancelStep p i
  else none

/-! ### What the threads have done -/

/-- **The condition**: a thread that could not switch cancellation off does not go on. -/
def Stops (p : State) (l : Label) : Prop :=
  ∀ i, (p.threads i).pc = .disableFatal → l ≠ .thread i .err

/-- The request came when the thread had slept, if it came at all. -/
def Late (th : Thread) : Prop :=
  ∀ pc, th.request = some pc → pc = .sayDone ∨ pc = .exit ∨ ∃ value, pc = .ended value

/-- How the first thread ends: cancelled, with its work not begun or done whole; or with all done,
and then a request that was made, if any was and the thread had enabled its cancellation again,
came too late. -/
def First (th : Thread) (value : ℤ) : Prop :=
  (value = PTHREAD_CANCELED ∧ th.request ≠ none ∧ (th.worked = 0 ∨ th.worked = LOOPS)) ∨
    (value = 0 ∧ th.worked = LOOPS ∧ (th.enabled = true → Late th))

/-- How the second thread ends. -/
def Second (th : Thread) (value : ℤ) : Prop := value = 0 ∧ th.request = none

/-- What holds of the first thread, where it stands. -/
def FirstAt (th : Thread) : Pc → Prop
  | .absent => th.worked = 0 ∧ th.enabled = true ∧ th.request = none
  | .sayDisable | .disable | .disableFatal => th.worked = 0 ∧ th.enabled = true
  | .beep n => th.worked = n ∧ n < LOOPS ∧ th.enabled = false
  | .sayEnable | .enable | .enableFatal => th.worked = LOOPS ∧ th.enabled = false
  | .saySleep | .sleep => th.worked = LOOPS
  | .sayDone | .exit => th.worked = LOOPS ∧ (th.enabled = true → Late th)
  | .ended value => First th value

/-- What holds of the second thread. -/
def SecondAt (th : Thread) : Pc → Prop
  | .absent | .saySleep | .sleep | .sayDone | .exit => th.request = none
  | .ended value => Second th value
  | _ => False

/-- The thread that `main` is about to create. -/
def Main.creating : Main → Option ℕ
  | .sayCreate i | .create i | .createFatal i => some i
  | _ => none

/-- **The invariant.** -/
structure Inv (p : State) : Prop where
  first : FirstAt (p.threads 0) (p.threads 0).pc
  second : SecondAt (p.threads 1) (p.threads 1).pc
  joined : ∀ j ∈ p.joined, (p.threads j.1).pc = .ended j.2
  creating : ∀ i, p.main.creating = some i →
    (∀ j ≥ i, (p.threads j).pc = .absent) ∧ p.joined = []

section Steps

variable {p q : State} {l : Label} {ls : List Label} {a : Answer} {i : ℕ} {th th' : Thread}

theorem inv_start : Inv .start :=
  ⟨⟨rfl, rfl, rfl⟩, rfl, fun j hj => (by cases hj), fun _ _ => ⟨fun _ _ => rfl, rfl⟩⟩

/-- **A step of the first thread** that stops where it should. -/
theorem FirstAt.worker (h : FirstAt th th.pc) (hG : th.pc = .disableFatal → a ≠ .err)
    (hnot : ¬(th.request ≠ none ∧ th.enabled = true ∧ th.pc.mustAct = true))
    (hstep : worker th a = some (.inl th')) : FirstAt th' th'.pc := by
  have hzero : nextBeep 0 = .beep 0 := rfl
  rw [Cancelit.worker.eq_def] at hstep
  dsimp only at hstep
  split at hstep <;> rename_i hpc <;> rw [hpc] at h hnot
  case h_1 =>
    obtain ⟨ok, -, hth⟩ := Option.map_eq_some_iff.mp hstep
    cases hth
    exact h
  case h_2 =>
    obtain ⟨ok, -, hth⟩ := Option.map_eq_some_iff.mp hstep
    cases ok <;> cases hth
    · exact h
    · exact ⟨h.1, by decide, rfl⟩
  case h_3 =>
    have hexit := afterFatal_exits hstep (hG hpc)
    cases hexit
  case h_4 n =>
    obtain ⟨ok, -, hth⟩ := Option.map_eq_some_iff.mp hstep
    cases hth
    obtain ⟨hn, hlt, hoff⟩ := h
    change FirstAt _ (nextBeep (n + 1))
    rw [nextBeep]
    split_ifs with hmore
    · exact ⟨congrArg (· + 1) hn, hmore, hoff⟩
    · have hlast : n + 1 = LOOPS := by omega
      exact ⟨(congrArg (· + 1) hn).trans hlast, hoff⟩
  case h_5 =>
    obtain ⟨ok, -, hth⟩ := Option.map_eq_some_iff.mp hstep
    cases hth
    exact h
  case h_6 =>
    obtain ⟨ok, -, hth⟩ := Option.map_eq_some_iff.mp hstep
    cases ok <;> cases hth
    · exact h
    · exact h.1
  case h_7 =>
    rcases afterFatal_cases hstep with hth | hth <;> cases hth
    exact h.1
  case h_8 =>
    obtain ⟨ok, -, hth⟩ := Option.map_eq_some_iff.mp hstep
    cases hth
    exact h
  case h_9 =>
    obtain ⟨ok, -, hth⟩ := Option.map_eq_some_iff.mp hstep
    cases hth
    refine ⟨h, fun henabled pc hpc => absurd ⟨?_, henabled, rfl⟩ hnot⟩
    exact fun hnone => by rw [show th.request = some pc from hpc] at hnone; cases hnone
  case h_10 =>
    obtain ⟨ok, -, hth⟩ := Option.map_eq_some_iff.mp hstep
    cases hth
    exact h
  case h_11 =>
    cases Option.some.inj hstep
    exact Or.inr ⟨rfl, h⟩
  case h_12 | h_13 => cases hstep

/-- **A step of the second thread.** -/
theorem SecondAt.worker (h : SecondAt th th.pc) (hstep : worker th a = some (.inl th')) :
    SecondAt th' th'.pc := by
  rw [Cancelit.worker.eq_def] at hstep
  dsimp only at hstep
  split at hstep <;> rename_i hpc <;> rw [hpc] at h
  case h_8 | h_9 | h_10 =>
    obtain ⟨ok, -, hth⟩ := Option.map_eq_some_iff.mp hstep
    cases hth
    exact h
  case h_11 =>
    cases Option.some.inj hstep
    exact ⟨rfl, h⟩
  case h_12 | h_13 => cases hstep
  all_goals exact h.elim

/-- The first thread is cancelled. -/
theorem FirstAt.cancelled (h : FirstAt th th.pc) (hrequest : th.request ≠ none)
    (henabled : th.enabled = true) (hpoint : th.pc.isPoint = true) :
    First { th with pc := .ended PTHREAD_CANCELED } PTHREAD_CANCELED := by
  refine Or.inl ⟨rfl, hrequest, ?_⟩
  change th.worked = 0 ∨ th.worked = LOOPS
  cases hpc : th.pc <;> rw [hpc] at h hpoint
  case sayDisable | disableFatal => exact Or.inl h.1
  case beep | sayEnable | enableFatal =>
    -- cancellation is switched off here
    simp_all [FirstAt]
  case saySleep | sleep => exact Or.inr h
  case sayDone => exact Or.inr h.1
  all_goals cases hpoint

/-- A thread that has changed. -/
theorem Inv.set (hp : Inv p) (hfirst : i = 0 → FirstAt th th.pc)
    (hsecond : i = 1 → SecondAt th th.pc)
    (hended : ∀ value, (p.threads i).pc = .ended value → th.pc = .ended value)
    (habsent : (p.threads i).pc = .absent → th.pc = .absent) : Inv (p.set i th) := by
  constructor
  case first =>
    change FirstAt (Function.update p.threads i th 0) (Function.update p.threads i th 0).pc
    by_cases h0 : i = 0
    · subst h0
      rw [Function.update_self]
      exact hfirst rfl
    · rw [Function.update_of_ne (Ne.symm h0)]
      exact hp.first
  case second =>
    change SecondAt (Function.update p.threads i th 1) (Function.update p.threads i th 1).pc
    by_cases h1 : i = 1
    · subst h1
      rw [Function.update_self]
      exact hsecond rfl
    · rw [Function.update_of_ne (Ne.symm h1)]
      exact hp.second
  case joined =>
    intro j hj
    change (Function.update p.threads i th j.1).pc = _
    by_cases hji : j.1 = i
    · rw [hji, Function.update_self]
      exact hended _ (hji ▸ hp.joined j hj)
    · rw [Function.update_of_ne hji]
      exact hp.joined j hj
  case creating =>
    intro k hk
    obtain ⟨hall, hnone⟩ := hp.creating k hk
    refine ⟨fun j hj => ?_, hnone⟩
    change (Function.update p.threads i th j).pc = _
    by_cases hji : j = i
    · rw [hji, Function.update_self]
      exact habsent (hji ▸ hall j hj)
    · rw [Function.update_of_ne hji]
      exact hall j hj

/-- **A thread goes on.** -/
theorem Inv.threadStep (hp : Inv p) (hG : Stops p (.thread i a))
    (h : threadStep p i a = some q) : Inv q := by
  unfold Cancelit.threadStep at h
  dsimp only at h
  obtain ⟨hnot, h⟩ := Option.ite_none_left_eq_some.mp h
  obtain ⟨r, hworker, hq⟩ := Option.map_eq_some_iff.mp h
  cases r with
  | inr status =>
    cases hq
    exact ⟨hp.first, hp.second, hp.joined, hp.creating⟩
  | inl th' =>
    cases hq
    refine hp.set ?_ ?_ ?_ ?_
    · rintro rfl
      exact hp.first.worker (fun hpc herr => hG 0 hpc (by rw [herr])) hnot hworker
    · rintro rfl
      exact hp.second.worker hworker
    · intro value hpc
      simp [worker, hpc] at hworker
    · intro hpc
      simp [worker, hpc] at hworker

/-- **The cancellation of a thread** is acted upon. -/
theorem Inv.cancelStep (hp : Inv p) (h : cancelStep p i = some q) : Inv q := by
  unfold Cancelit.cancelStep at h
  dsimp only at h
  obtain ⟨⟨hrequest, henabled, hpoint⟩, h⟩ := Option.ite_none_right_eq_some.mp h
  obtain rfl := Option.some.inj h
  refine hp.set ?_ ?_ ?_ ?_
  · rintro rfl
    exact hp.first.cancelled hrequest henabled hpoint
  · rintro rfl
    -- nobody has asked for its cancellation
    have hsecond := hp.second
    cases hpc : (p.threads 1).pc <;> rw [hpc] at hsecond hpoint
    case ended => cases hpoint
    all_goals first
      | exact absurd hsecond hrequest
      | exact hsecond.elim
  · intro value hpc
    rw [hpc] at hpoint
    cases hpoint
  · intro hpc
    rw [hpc] at hpoint
    cases hpoint

/-- The cancellation of the first thread is asked for. -/
theorem FirstAt.requested (h : FirstAt th th.pc) (hne : th.pc ≠ .absent) :
    FirstAt { th with request := some th.pc } th.pc := by
  have hlate : (th.pc = .sayDone ∨ th.pc = .exit ∨ ∃ value, th.pc = .ended value) →
      Late { th with request := some th.pc } := by
    rintro hpc pc hrequest
    obtain rfl := Option.some.inj hrequest
    exact hpc
  cases hpc : th.pc <;> rw [hpc] at h hlate
  case absent => exact absurd hpc hne
  case sayDone => exact ⟨h.1, fun _ => hlate (Or.inl rfl)⟩
  case exit => exact ⟨h.1, fun _ => hlate (Or.inr (Or.inl rfl))⟩
  case ended value =>
    rcases h with ⟨hvalue, -, hworked⟩ | ⟨hvalue, hworked, -⟩
    · exact Or.inl ⟨hvalue, Option.some_ne_none _, hworked⟩
    · exact Or.inr ⟨hvalue, hworked, fun _ => hlate (Or.inr (Or.inr ⟨value, rfl⟩))⟩
  all_goals exact h

/-- A thread is created. -/
theorem Inv.created (hp : Inv p) (hmain : p.main.creating = some i) :
    Inv { p.created i with main := .cancel } ∧
      ∀ j ≥ i + 1, ((p.created i).threads j).pc = .absent := by
  obtain ⟨hall, hnone⟩ := hp.creating i hmain
  have hpc := hall i le_rfl
  have hother : ∀ j, j ≠ i → (p.created i).threads j = p.threads j := fun j hj =>
    Function.update_of_ne hj _ _
  constructor
  · constructor
    case first =>
      change FirstAt ((p.created i).threads 0) ((p.created i).threads 0).pc
      by_cases h0 : i = 0
      · subst h0
        have hfirst := hp.first
        rw [hpc] at hfirst
        exact ⟨hfirst.1, hfirst.2.1⟩
      · rw [hother 0 (Ne.symm h0)]
        exact hp.first
    case second =>
      change SecondAt ((p.created i).threads 1) ((p.created i).threads 1).pc
      by_cases h1 : i = 1
      · subst h1
        have hsecond := hp.second
        rw [hpc] at hsecond
        exact hsecond
      · rw [hother 1 (Ne.symm h1)]
        exact hp.second
    case joined =>
      intro j hj
      change j ∈ p.joined at hj
      rw [hnone] at hj
      cases hj
    case creating =>
      intro k hk
      cases hk
  · intro j hj
    rw [hother j (by omega)]
    exact hall j (by omega)

/-- `main` has gone to another place. -/
theorem Inv.goto (hp : Inv p) {m : Main} (hm : ∀ i, m.creating = some i →
    (∀ j ≥ i, (p.threads j).pc = .absent) ∧ p.joined = []) : Inv { p with main := m } :=
  ⟨hp.first, hp.second, hp.joined, hm⟩

/-- **A step of `main`.** -/
theorem Inv.mainStep (hp : Inv p) (h : mainStep p a = some q) : Inv q := by
  have hexit : ∀ status, Inv { p with exited := some status } := fun status =>
    ⟨hp.first, hp.second, hp.joined, hp.creating⟩
  rw [Cancelit.mainStep.eq_def] at h
  split at h <;> rename_i hmain
  case h_1 i =>
    obtain ⟨ok, -, rfl⟩ := Option.map_eq_some_iff.mp h
    refine hp.goto fun k hk => hp.creating k ?_
    rw [hmain]
    exact hk
  case h_2 i =>
    obtain ⟨ok, -, rfl⟩ := Option.map_eq_some_iff.mp h
    have hcreating : p.main.creating = some i := by rw [hmain]; rfl
    cases ok
    · refine hp.goto fun k hk => hp.creating k ?_
      rw [hcreating]
      exact hk
    · obtain ⟨hcreated, hall⟩ := hp.created hcreating
      refine hcreated.goto (m := if i + 1 < 2 then .sayCreate (i + 1) else .cancel) fun k hk => ?_
      split_ifs at hk
      · cases hk
        exact ⟨hall, (hp.creating i hcreating).2⟩
      · cases hk
  case h_3 i =>
    have hcreating : p.main.creating = some i := by rw [hmain]; rfl
    rcases afterFatal_cases h with rfl | rfl
    · refine hp.goto (m := if i + 1 < 2 then .sayCreate (i + 1) else .cancel) fun k hk => ?_
      obtain ⟨hall, hnone⟩ := hp.creating i hcreating
      split_ifs at hk
      · cases hk
        exact ⟨fun j hj => hall j (by omega), hnone⟩
      · cases hk
    · exact hexit _
  case h_4 =>
    split_ifs at h with habsent
    · obtain rfl := Option.some.inj h
      exact hp.goto fun k hk => by cases hk
    · obtain ⟨ok, -, rfl⟩ := Option.map_eq_some_iff.mp h
      cases ok
      · exact hp.goto fun k hk => by cases hk
      · have hrequested : Inv (p.set 0 { p.threads 0 with request := some (p.threads 0).pc }) :=
          hp.set (fun _ => hp.first.requested habsent) (fun h => absurd h (by decide))
            (fun _ h => h) fun h => h
        exact hrequested.goto fun k hk => by cases hk
  case h_5 =>
    rcases afterFatal_cases h with rfl | rfl
    · exact hp.goto fun k hk => by cases hk
    · exact hexit _
  case h_7 i =>
    split at h
    · obtain rfl := Option.some.inj h
      exact hp.goto fun k hk => by cases hk
    · rename_i stat hpc
      obtain ⟨ok, -, rfl⟩ := Option.map_eq_some_iff.mp h
      cases ok
      · exact hp.goto fun k hk => by cases hk
      · refine ⟨hp.first, hp.second, fun j hj => ?_, fun k hk => by cases hk⟩
        rcases List.mem_append.mp hj with hj | hj
        · exact hp.joined j hj
        · rw [List.mem_singleton.mp hj]
          exact hpc
    · cases h
  case h_9 i stat =>
    obtain ⟨ok, -, rfl⟩ := Option.map_eq_some_iff.mp h
    split_ifs
    · exact hp.goto fun k hk => by cases hk
    · refine hp.goto (m := if i + 1 < 2 then .sayJoin (i + 1) else .farewell) fun k hk => ?_
      split_ifs at hk <;> cases hk
  case h_8 i | h_10 i =>
    obtain ⟨ok, -, rfl⟩ := Option.map_eq_some_iff.mp h
    refine hp.goto (m := if i + 1 < 2 then .sayJoin (i + 1) else .farewell) fun k hk => ?_
    split_ifs at hk <;> cases hk
  case h_6 | h_11 =>
    obtain ⟨ok, -, rfl⟩ := Option.map_eq_some_iff.mp h
    exact hp.goto fun k hk => by cases hk
  case h_12 | h_13 => cases h

/-- **A step.** -/
theorem Inv.step (hp : Inv p) (hG : Stops p l) (h : step p l = some q) : Inv q := by
  unfold Cancelit.step at h
  obtain ⟨-, h⟩ := Option.ite_none_right_eq_some.mp h
  cases l with
  | main a => exact hp.mainStep h
  | thread i a => exact hp.threadStep hG h
  | cancelled i => exact hp.cancelStep h

/-- **The work is done whole or not at all**: of the threads that have been joined, the first one
has ended as it should, and so has the second. -/
theorem joined_whole (hrun : run Cancelit.step .start ls = some p)
    (hG : Every Cancelit.step Stops .start ls) :
    ∀ j ∈ p.joined, (j.1 = 0 → First (p.threads 0) j.2) ∧ (j.1 = 1 → Second (p.threads 1) j.2) := by
  have hp : Inv p := hG.invariant (P := Inv) (fun _ _ _ hp hG hstep => hp.step hG hstep)
    inv_start hrun
  intro j hj
  have hpc := hp.joined j hj
  constructor
  · intro h0
    rw [h0] at hpc
    have hfirst := hp.first
    rwa [hpc] at hfirst
  · intro h1
    rw [h1] at hpc
    have hsecond := hp.second
    rwa [hpc] at hsecond

end Steps

/-- The request comes in the middle of the work: the work is done, and then the thread is
cancelled. -/
theorem joined_whole_middle : ∃ ls p, run step .start ls = some p ∧
    p.joined = [(0, PTHREAD_CANCELED)] ∧ First (p.threads 0) PTHREAD_CANCELED ∧
    (p.threads 0).worked = 100 := by
  let ls : List Label := [.main .ok, .main .ok, .main .ok, .main .ok, .thread 0 .ok,
    .thread 0 .ok] ++ List.replicate 50 (.thread 0 .ok) ++ [.main .ok] ++
    List.replicate 52 (.thread 0 .ok) ++ [.cancelled 0, .main .ok, .main .ok]
  obtain ⟨p, hrun, hjoined, hworked⟩ : ∃ p, run step .start ls = some p ∧
      p.joined = [(0, PTHREAD_CANCELED)] ∧ (p.threads 0).worked = 100 := ⟨_, rfl, rfl, rfl⟩
  have hok : ∀ l ∈ ls, ∀ i, l ≠ .thread i .err := by
    have hall : ∀ l ∈ ls, l = .main .ok ∨ l = .thread 0 .ok ∨ l = .cancelled 0 := by decide
    rintro l hl i rfl
    rcases hall _ hl with h | h | h <;> cases h
  have hG : Every step Stops .start ls :=
    (every_of_forall hok _).imp fun p l hl i _ => hl i
  have hmem : (0, PTHREAD_CANCELED) ∈ p.joined := by rw [hjoined]; exact List.mem_singleton_self _
  exact ⟨ls, p, hrun, hjoined, (joined_whole hrun hG _ hmem).1 rfl, hworked⟩

end Cancelit

end SystemProgramming
