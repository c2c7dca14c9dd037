import SystemProgramming.Calls
import SystemProgramming.Printf
import SystemProgramming.Process.Offspring
import SystemProgramming.Process.WaitStatus
import SystemProgramming.Runs

/-!
# A parent that waits for all its children

`fork2c` (`solutions_to_assgn/ch10/`): two children sleep for some time each, and the parent waits
until there is nobody left to wait for. Each wait tells it of one child, by a number that it takes
apart with the macros of the C library and displays.

The children may end in any order, in whatever way and at any time: a signal can kill one before it
has done anything. When the parent says that all children are dead, it has displayed both of them,
each once, and what it has displayed says how each of them has died
(`SystemProgramming.Fork2c.all_shown`).
-/

namespace SystemProgramming

open Offspring Printf Runs WaitStatus

namespace Fork2c

/-! ### The display -/

/-- What is displayed of a child. -/
structure Display where
  cpid : ℕ
  wifexited : Bool
  exitStatus : ℕ
  wifsignaled : Bool
  terminationSignal : ℕ
  wifstopped : Bool
  stopSignal : ℕ
  wcoredump : ℕ
  wifcontinued : Bool
  deriving DecidableEq, Repr

/-- `displayChildStatus`. -/
def displayChildStatus (stat cpid : ℕ) : Display :=
  ⟨cpid, WIFEXITED stat, WEXITSTATUS stat, WIFSIGNALED stat, WTERMSIG stat, WIFSTOPPED stat,
    WSTOPSIG stat, WCOREDUMP stat, WIFCONTINUED stat⟩

/-- What a reader makes of a display. -/
def Display.death (d : Display) : Death :=
  if d.wifexited then .exited d.exitStatus else .signaled d.terminationSignal (d.wcoredump ≠ 0)

/-- The display says that the child has died like this, and nothing else. -/
def Display.Tells (d : Display) (how : Death) : Prop :=
  d.death = how ∧ d.wifsignaled = !d.wifexited ∧ d.wifstopped = false ∧ d.wifcontinued = false

/-- **A display says how the child has died**: its nine numbers lead back to it. -/
theorem tells_display {how : Death} (h : how.Valid) (cpid : ℕ) :
    (displayChildStatus how.stat cpid).Tells how := by
  cases how with
  | exited status =>
    obtain ⟨hexited, hstatus, hsignaled, hstopped, hcontinued⟩ := macros_exited h
    refine ⟨?_, ?_, hstopped, hcontinued⟩
    · simp only [Display.death, displayChildStatus, hexited, hstatus, if_true]
    · simp only [displayChildStatus, hexited, hsignaled, Bool.not_true]
  | signaled signal core =>
    obtain ⟨hexited, hsignaled, hsignal, hcore, hstopped, hcontinued⟩ := macros_signaled h
    refine ⟨?_, ?_, hstopped, hcontinued⟩
    · have hdump : decide (WCOREDUMP (Death.signaled signal core).stat ≠ 0) = core :=
        Bool.eq_iff_iff.mpr (decide_eq_true_iff.trans hcore)
      simp only [Display.death, displayChildStatus, hexited, hsignal, hdump, Bool.false_eq_true,
        if_false]
    · simp only [displayChildStatus, hexited, hsignaled, Bool.not_false]

/-! ### The processes -/

/-- Where a child stands. -/
inductive Body where
  /-- About to print that it sleeps. -/
  | say
  | sleep
  | exit
  deriving DecidableEq, Repr

/-- Where the parent stands. -/
inductive Pc where
  | fork
  /-- That failed, and is reported. -/
  | perror
  /-- In `createChild`, about to fork once more. -/
  | createChild
  /-- That failed. -/
  | createPerror
  | wait
  /-- A wait has returned with this child. -/
  | display (z : ℕ × Death)
  /-- About to say that all children are dead. -/
  | farewell
  | exited (status : ℤ)
  deriving DecidableEq, Repr

/-- The parent and its children. -/
structure State where
  pc : Pc
  table : Table Death
  bodies : ℕ → Body
  shown : List Display

/-- What happens. -/
inductive Label where
  /-- The parent goes on, its call being answered so. -/
  | parent (a : Answer)
  /-- A wait returns with a child. -/
  | returns (z : ℕ × Death)
  /-- A wait says that there are no children. -/
  | childless
  /-- A child goes on. -/
  | child (i : ℕ) (a : Answer)
  /-- A signal kills a child. -/
  | kill (i signal : ℕ) (core : Bool)
  deriving DecidableEq, Repr

/-- A time to sleep, from an argument: the number is cut off at 16 bits before it is looked at. -/
def slptm (arg : List UInt8) : Option ℕ :=
  let n := ((atol arg).toInt32.toInt % 2 ^ 16).toNat
  if 1 ≤ n ∧ n ≤ 60 then some n else none

/-- `main` is called. Nothing depends on how long the children sleep. -/
def main (argv : List (List UInt8)) : State :=
  let start : State := ⟨.fork, .empty, fun _ => .say, []⟩
  if argv.length = 3 then
    match slptm (argv.getD 1 []), slptm (argv.getD 2 []) with
    | some _, some _ => start
    | _, _ => { start with pc := .exited 1 }
  else start

namespace State

/-- A child is forked. -/
def forked (p : State) (pc : Pc) : State :=
  { p with pc := pc, table := p.table.fork,
           bodies := Function.update p.bodies p.table.next .say }

/-- The parent exits. -/
def exit (p : State) (status : ℤ) : State :=
  { p with pc := .exited status, table := p.table.orphan }

end State

/-- `main`, with `createChild`, in the parent. -/
def parentStep (p : State) (a : Answer) : Option State :=
  match p.pc with
  | .fork => a.status.map fun ok =>
    if ok then p.forked .createChild else { p with pc := .perror }
  | .perror => a.status.map fun _ => p.exit 1
  | .createChild => a.status.map fun ok =>
    if ok then p.forked .wait else { p with pc := .createPerror }
  | .createPerror => a.status.map fun _ => p.exit 1
  | .display z => a.status.map fun _ =>
    { p with pc := .wait, shown := p.shown ++ [displayChildStatus z.2.stat z.1] }
  | .farewell => a.status.map fun _ => p.exit 0
  | _ => none

/-- A child. -/
def childStep (p : State) (i : ℕ) (a : Answer) : Option State :=
  if i ∈ p.table.running then
    match p.bodies i with
    | .say => a.status.map fun _ => { p with bodies := Function.update p.bodies i .sleep }
    | .sleep => a.status.map fun _ => { p with bodies := Function.update p.bodies i .exit }
    | .exit => (p.table.die i (.exited 0)).map fun t => { p with table := t }
  else none

/-- **The step function.** -/
def step (p : State) : Label → Option State
  | .parent a => parentStep p a
  | .returns z =>
    if p.pc = .wait then (p.table.wait z).map fun t => { p with pc := .display z, table := t }
    else none
  | .childless =>
    if p.pc = .wait ∧ p.table.Childless then some { p with pc := .farewell } else none
  | .child i a => childStep p i a
  | .kill i signal core =>
    if 1 ≤ signal ∧ signal ≤ 64 then
      (p.table.die i (.signaled signal core)).map fun t => { p with table := t }
    else none

/-! ### What has been displayed -/

/-- How many children there are, where the parent stands. -/
def Pc.created : Pc → ℕ
  | .fork | .perror => 0
  | .createChild | .createPerror => 1
  | _ => 2

/-- The child that a wait has returned with, and that is not displayed yet. -/
def Pc.returned : Pc → List (ℕ × Death)
  | .display z => [z]
  | _ => []

/-- The display of a child. -/
def display (z : ℕ × Death) : Display := displayChildStatus z.2.stat z.1

/-- **The invariant**: up to an exit in failure, all children that a wait has returned with are
displayed, and none has got lost otherwise. -/
structure Inv (p : State) : Prop where
  sound : p.table.Sound
  valid : ∀ z ∈ p.table.ended, z.2.Valid
  going : p.pc ≠ .exited 1 → p.table.next = p.pc.created ∧ p.table.dropped = [] ∧
    ∃ w, p.table.waited = w ++ p.pc.returned ∧ p.shown = w.map display
  keeps : p.pc ≠ .exited 0 → p.pc ≠ .exited 1 → p.table.keeps = true
  childless : p.pc = .farewell ∨ p.pc = .exited 0 → p.table.Childless

section Steps

variable {p q : State} {l : Label} {ls : List Label} {a : Answer} {i : ℕ} {how : Death}
  {argv : List (List UInt8)}

theorem inv_main (argv : List (List UInt8)) : Inv (main argv) := by
  have hstart : Inv ⟨.fork, .empty, fun _ => .say, []⟩ :=
    ⟨Table.sound_empty, fun z hz => (by cases hz), fun _ => ⟨rfl, rfl, [], rfl, rfl⟩,
      fun _ _ => rfl, fun h => by simp at h⟩
  have hfail : Inv ⟨.exited 1, .empty, fun _ => .say, []⟩ :=
    ⟨Table.sound_empty, fun z hz => (by cases hz), fun h => absurd rfl h, fun _ _ => rfl,
      fun h => by simp at h⟩
  unfold main
  split_ifs
  · split
    · exact hstart
    · exact hfail
  · exact hstart

/-- **A child dies**, wherever the parent stands. -/
theorem Inv.die (hp : Inv p) (hhow : how.Valid) {t : Table Death} (h : p.table.die i how = some t) :
    Inv { p with table := t } := by
  obtain ⟨hi, -, -, hnext, hkeeps, hwaited, -, hdropped, hended⟩ := Table.die_eq_some h
  have hbusy : ¬p.table.Childless := fun hnone => by
    rw [hnone.1] at hi
    cases hi
  have hone : p.pc ≠ .exited 0 := fun hpc => hbusy (hp.childless (Or.inr hpc))
  constructor
  case sound => exact hp.sound.die h
  case valid =>
    intro z hz
    rcases List.mem_append.mp (hended.mem_iff.mp hz) with hz | hz
    · exact hp.valid z hz
    · rw [List.mem_singleton.mp hz]
      exact hhow
  case going =>
    intro hpc
    obtain ⟨hcreated, hnone, w, hw, hshown⟩ := hp.going hpc
    refine ⟨hnext.trans hcreated, ?_, w, hwaited.trans hw, hshown⟩
    change t.dropped = []
    rw [hdropped, if_pos (hp.keeps hone hpc)]
    exact hnone
  case keeps => exact fun h0 h1 => hkeeps.trans (hp.keeps h0 h1)
  case childless => exact fun hpc => absurd (hp.childless hpc) hbusy

/-- **A child is forked.** -/
theorem Inv.forked (hp : Inv p) {pc : Pc} (hpc : p.pc = .fork ∧ pc = .createChild ∨
    p.pc = .createChild ∧ pc = .wait) : Inv (p.forked pc) := by
  have hgoing := hp.going (by rcases hpc with ⟨hpc, -⟩ | ⟨hpc, -⟩ <;> simp [hpc])
  have hkeeps := hp.keeps (by rcases hpc with ⟨hpc, -⟩ | ⟨hpc, -⟩ <;> simp [hpc])
    (by rcases hpc with ⟨hpc, -⟩ | ⟨hpc, -⟩ <;> simp [hpc])
  obtain ⟨hnext, hdropped, w, hw, hshown⟩ := hgoing
  refine ⟨hp.sound.fork, hp.valid, fun _ => ⟨?_, hdropped, w, ?_, hshown⟩, fun _ _ => hkeeps, ?_⟩
  · change p.table.next + 1 = pc.created
    rcases hpc with ⟨hpc, rfl⟩ | ⟨hpc, rfl⟩ <;> rw [hnext, hpc] <;> rfl
  · change p.table.waited = w ++ pc.returned
    rcases hpc with ⟨hpc, rfl⟩ | ⟨hpc, rfl⟩ <;> rw [hw, hpc] <;> rfl
  · intro hend
    change pc = .farewell ∨ pc = .exited 0 at hend
    rcases hpc with ⟨-, rfl⟩ | ⟨-, rfl⟩ <;> simp at hend

/-- The parent exits in failure. -/
theorem Inv.fail (hp : Inv p) : Inv (p.exit 1) := by
  have hsound := hp.sound.orphan
  refine ⟨hsound, fun z hz => hp.valid z ?_, fun h => absurd rfl h, fun _ h => absurd rfl h,
    fun h => ?_⟩
  · exact Table.mem_ended_orphan.mp hz
  · rcases h with h | h <;> cases h

/-- **A step of the parent.** -/
theorem Inv.parentStep (hp : Inv p) (h : parentStep p a = some q) : Inv q := by
  rw [Fork2c.parentStep.eq_def] at h
  split at h <;> rename_i hpc
  case h_1 =>
    obtain ⟨ok, -, rfl⟩ := Option.map_eq_some_iff.mp h
    have hgoing := hp.going (by simp [hpc])
    cases ok
    · rw [hpc] at hgoing
      exact ⟨hp.sound, hp.valid, fun _ => hgoing,
        fun _ _ => hp.keeps (by simp [hpc]) (by simp [hpc]), fun h => by simp at h⟩
    · exact hp.forked (Or.inl ⟨hpc, rfl⟩)
  case h_2 =>
    obtain ⟨ok, -, rfl⟩ := Option.map_eq_some_iff.mp h
    exact hp.fail
  case h_3 =>
    obtain ⟨ok, -, rfl⟩ := Option.map_eq_some_iff.mp h
    have hgoing := hp.going (by simp [hpc])
    cases ok
    · rw [hpc] at hgoing
      exact ⟨hp.sound, hp.valid, fun _ => hgoing,
        fun _ _ => hp.keeps (by simp [hpc]) (by simp [hpc]), fun h => by simp at h⟩
    · exact hp.forked (Or.inr ⟨hpc, rfl⟩)
  case h_4 =>
    obtain ⟨ok, -, rfl⟩ := Option.map_eq_some_iff.mp h
    exact hp.fail
  case h_5 z =>
    obtain ⟨ok, -, rfl⟩ := Option.map_eq_some_iff.mp h
    obtain ⟨hnext, hdropped, w, hw, hshown⟩ := hp.going (by simp [hpc])
    rw [hpc] at hw hnext
    refine ⟨hp.sound, hp.valid, fun _ => ⟨hnext, hdropped, w ++ [z], ?_, ?_⟩,
      fun _ _ => hp.keeps (by simp [hpc]) (by simp [hpc]), fun h => by simp at h⟩
    · exact hw.trans (List.append_nil _).symm
    · change p.shown ++ [display z] = (w ++ [z]).map display
      rw [hshown, List.map_append, List.map_singleton]
  case h_6 =>
    obtain ⟨ok, -, rfl⟩ := Option.map_eq_some_iff.mp h
    obtain ⟨hnext, hdropped, w, hw, hshown⟩ := hp.going (by simp [hpc])
    have hnone := hp.childless (Or.inl hpc)
    rw [hpc] at hw hnext
    refine ⟨hp.sound.orphan, fun z hz => hp.valid z (Table.mem_ended_orphan.mp hz),
      fun _ => ⟨hnext, ?_, w, hw, hshown⟩, fun h => absurd rfl h, fun _ => ⟨hnone.1, rfl⟩⟩
    change p.table.dropped ++ p.table.zombies = []
    rw [hdropped, hnone.2, List.nil_append]
  case h_7 => cases h

/-- **A step.** -/
theorem Inv.step (hp : Inv p) (h : step p l = some q) : Inv q := by
  cases l with
  | parent a => exact hp.parentStep h
  | returns z =>
    unfold Fork2c.step at h
    obtain ⟨hpc, h⟩ := Option.ite_none_right_eq_some.mp h
    obtain ⟨t, hwait, rfl⟩ := Option.map_eq_some_iff.mp h
    obtain ⟨hz, rfl⟩ := Table.wait_eq_some hwait
    obtain ⟨hnext, hdropped, w, hw, hshown⟩ := hp.going (by simp [hpc])
    rw [hpc] at hw hnext
    refine ⟨hp.sound.wait hwait, fun y hy => hp.valid y ((Table.mem_ended_wait hwait).mp hy),
      fun _ => ⟨hnext, hdropped, w, ?_, hshown⟩,
      fun _ _ => hp.keeps (by simp [hpc]) (by simp [hpc]), fun h => by simp at h⟩
    have hnil : Pc.wait.returned = [] := rfl
    rw [hnil, List.append_nil] at hw
    exact congrArg (· ++ [z]) hw
  | childless =>
    unfold Fork2c.step at h
    obtain ⟨⟨hpc, hnone⟩, h⟩ := Option.ite_none_right_eq_some.mp h
    obtain rfl := Option.some.inj h
    have hgoing := hp.going (by simp [hpc])
    rw [hpc] at hgoing
    exact ⟨hp.sound, hp.valid, fun _ => hgoing,
      fun _ _ => hp.keeps (by simp [hpc]) (by simp [hpc]), fun _ => hnone⟩
  | child i a =>
    change childStep p i a = some q at h
    unfold childStep at h
    obtain ⟨hi, h⟩ := Option.ite_none_right_eq_some.mp h
    split at h
    · obtain ⟨ok, -, rfl⟩ := Option.map_eq_some_iff.mp h
      exact ⟨hp.sound, hp.valid, hp.going, hp.keeps, hp.childless⟩
    · obtain ⟨ok, -, rfl⟩ := Option.map_eq_some_iff.mp h
      exact ⟨hp.sound, hp.valid, hp.going, hp.keeps, hp.childless⟩
    · obtain ⟨t, hdie, rfl⟩ := Option.map_eq_some_iff.mp h
      have hvalid : Death.Valid (.exited 0) := Nat.zero_lt_succ 255
      exact hp.die hvalid hdie
  | kill i signal core =>
    unfold Fork2c.step at h
    obtain ⟨hsignal, h⟩ := Option.ite_none_right_eq_some.mp h
    obtain ⟨t, hdie, rfl⟩ := Option.map_eq_some_iff.mp h
    have hvalid : Death.Valid (.signaled signal core) := hsignal
    exact hp.die hvalid hdie

/-- **All children are displayed**: when the parent has said that all are dead, there have been two,
it has displayed both of them, each once, and the display of each says how it has died. -/
theorem all_shown (hrun : run Fork2c.step (main argv) ls = some p) (hpc : p.pc = .exited 0) :
    (p.shown.map Display.cpid).Perm [0, 1] ∧
    ∀ d ∈ p.shown, ∃ how, p.table.ends d.cpid = some how ∧ d.Tells how := by
  have hp : Inv p := run_invariant (fun _ _ _ hp h => hp.step h) (inv_main argv) hrun
  obtain ⟨hnext, hdropped, w, hw, hshown⟩ := hp.going (by simp [hpc])
  obtain ⟨hperm, hends⟩ := hp.sound.waited_all (hp.childless (Or.inr hpc)) hdropped
  have hnil : (Pc.exited 0).returned = [] := rfl
  rw [hpc, hnil, List.append_nil] at hw
  rw [hnext, hpc] at hperm
  constructor
  · have hmap : p.shown.map Display.cpid = p.table.waited.map Prod.fst := by
      rw [hshown, hw, List.map_map]
      rfl
    rw [hmap]
    exact hperm
  · intro d hd
    rw [hshown, ← hw] at hd
    obtain ⟨z, hz, rfl⟩ := List.mem_map.mp hd
    have hvalid := hp.valid z (List.mem_append_left _ (List.mem_append_right _ hz))
    exact ⟨z.2, hends z hz, tells_display hvalid z.1⟩

end Steps

/-- The second child ends first, the first one is killed in its sleep. -/
theorem all_shown_killed : ∃ ls p, run step (main []) ls = some p ∧
    p.shown.map Display.cpid = [1, 0] ∧ p.table.ends 0 = some (.signaled 9 false) ∧
    ∀ d ∈ p.shown, ∃ how, p.table.ends d.cpid = some how ∧ d.Tells how := by
  obtain ⟨ls, p, hrun, hpc, hshown, hends⟩ : ∃ ls p, run step (main []) ls = some p ∧
      p.pc = .exited 0 ∧ p.shown.map Display.cpid = [1, 0] ∧
      p.table.ends 0 = some (.signaled 9 false) :=
    ⟨[.parent .ok, .child 0 .ok, .parent .ok, .child 1 .ok, .child 1 .ok, .child 1 .ok,
      .returns (1, .exited 0), .parent .ok, .kill 0 9 false, .returns (0, .signaled 9 false),
      .parent .ok, .childless, .parent .ok], _, rfl, rfl, rfl, rfl⟩
  exact ⟨ls, p, hrun, hshown, hends, (all_shown hrun hpc).2⟩

end Fork2c

end SystemProgramming
