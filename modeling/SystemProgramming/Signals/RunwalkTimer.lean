import SystemProgramming.Calls
import SystemProgramming.HandleErr
import SystemProgramming.Printf
import SystemProgramming.Runs
import SystemProgramming.Timespec

/-!
# The run-walk timer

`runwalk_timer` (`ch13/`) arms a one-shot timer for the time to run; the handler of its signal
arms it for the time to walk, then again for the time to run, and so on. What the timer is to be
armed for the handler finds in a record that it zeroes and fills in, according to the phase that
has come to its end.

The two times are converted by `strtoul`, and stored in variables of type `int`. A number from
`2 ^ 31` on loses its upper bits there, and what is left may well be positive; then it passes the
check. So the alternation is the right one exactly if both numbers are below `2 ^ 31`
(`SystemProgramming.RunwalkTimer.alternates_iff`).
-/

namespace SystemProgramming

open HandleErr Printf Runs

namespace RunwalkTimer

/-! ### The program -/

/-- The verbosity at which the program asks for the time left. -/
def HIGH : ℤ := 2

/-- The verbosity at first. -/
def LOW : ℤ := 1

/-- `EXIT_SUCCESS`. -/
def EXIT_SUCCESS : ℤ := 0

/-- What is being timed. -/
inductive Phase where
  | RUN
  | WALK
  deriving DecidableEq, Repr

/-- The phase that follows: `!type`. -/
def Phase.toggle : Phase → Phase
  | .RUN => .WALK
  | .WALK => .RUN

/-- Where `main` stands, with `runwalk_timer_init_and_arm`. Behind the name of a call that has
failed `FATAL` is about to allocate its message. -/
inductive Pc where
  /-- About to look at the number of arguments, and at the third. -/
  | args
  /-- About to trap `SIGINT`. -/
  | trapInt
  | trapIntFatal
  /-- About to convert the first argument. -/
  | run
  | runFatal
  /-- About to convert the second argument. -/
  | walk
  | walkFatal
  /-- About to look at the two times. -/
  | check
  /-- About to allocate the timer's record. -/
  | calloc
  | callocFatal
  /-- About to install the handler. -/
  | trap
  | trapFatal
  /-- About to zero the record and to fill it in. -/
  | fill
  /-- About to create the timer. -/
  | create
  | createFatal
  /-- About to arm it. -/
  | settime
  | settimeFatal
  /-- In the loop; at the verbosity `HIGH`, about to ask for the time left. -/
  | loop
  | loopFatal
  /-- The process has exited. -/
  | exited (status : ℤ)
  /-- A signal that is not handled has ended it. -/
  | killed
  /-- The record is zeroed without having been allocated. -/
  | undefined
  deriving DecidableEq, Repr

/-- Where the handler `its_time` stands. -/
inductive HandlerPc where
  /-- About to zero the record. -/
  | zero
  /-- About to fill in the seconds. -/
  | fill
  /-- About to toggle the type. -/
  | toggle
  /-- About to arm the timer. -/
  | settime
  | settimeFatal
  deriving DecidableEq, Repr

/-- An arming of the timer: what it is set by, and the type at that time. -/
structure Arming where
  spec : Itimerspec
  type : Phase
  deriving DecidableEq, Repr

/-- The state of the process: the control points, the variables, and the timer. -/
structure State where
  pc : Pc
  handler : Option HandlerPc
  verbose : ℤ
  trun : ℤ
  twalk : ℤ
  type : Phase
  /-- The record, unless the pointer to it is NULL. -/
  itmrspec : Option Itimerspec
  /-- `SIGINT` is handled. -/
  trappedInt : Bool
  /-- The timer's signal is handled. -/
  trapped : Bool
  /-- There is a timer. -/
  created : Bool
  /-- It is running. -/
  armed : Bool
  /-- Its signal is pending. -/
  pending : Bool
  armings : List Arming
  deriving DecidableEq, Repr

/-- What happens. -/
inductive Label where
  /-- `main` goes on, its call being answered so. -/
  | main (a : Answer)
  /-- The handler goes on. -/
  | handler (a : Answer)
  /-- The timer expires. -/
  | expire
  /-- Its signal is delivered. -/
  | deliver
  /-- `SIGINT` is delivered. -/
  | interrupt
  deriving DecidableEq, Repr

/-- `main` is called. -/
def State.start : State :=
  ⟨.args, none, LOW, 0, 0, .RUN, none, false, false, false, false, false, []⟩

/-- The process exits. -/
def State.exit (s : State) (status : ℤ) : State := { s with pc := .exited status }

/-- `timer_settime` of a timer that is there: one set to zero does not run. -/
def State.arm (s : State) (spec : Itimerspec) : State :=
  { s with armed := decide (spec.itValue ≠ .zero), armings := s.armings ++ [⟨spec, s.type⟩] }

/-- The number that `strtoul` reads from the first argument. -/
def u (argv : List (List UInt8)) : ℕ := (strtoul (argv.getD 1 [])).1.toNat

/-- The number that it reads from the second. -/
def v (argv : List (List UInt8)) : ℕ := (strtoul (argv.getD 2 [])).1.toNat

/-- `main`, `help_and_die` and `runwalk_timer_init_and_arm`. -/
def mainStep (argv : List (List UInt8)) (s : State) (a : Answer) : Option State :=
  let goto (s : State) (pc : Pc) : State := { s with pc := pc }
  match s.pc, a with
  | .args, .ok =>
    let level := (atol (argv.getD 3 [])).toInt32.toInt
    if argv.length < 3 then some (s.exit EXIT_FAILURE)
    else if argv.length = 4 then
      if level < 0 ∨ level > HIGH then some ({ s with verbose := level }.exit EXIT_FAILURE)
      else some (goto { s with verbose := level } .trapInt)
    else some (goto s .trapInt)
  | .trapInt, a => a.status.map fun ok =>
    if ok then goto { s with trappedInt := true } .run else goto s .trapIntFatal
  | .trapIntFatal, a => afterFatal a s.exit (goto s .run)
  | .run, .ok =>
    some (goto { s with trun := toInt (u argv) }
      (if (strtoul (argv.getD 1 [])).2 then .runFatal else .walk))
  | .runFatal, a => afterFatal a s.exit (goto s .walk)
  | .walk, .ok =>
    some (goto { s with twalk := toInt (v argv) }
      (if (strtoul (argv.getD 2 [])).2 then .walkFatal else .check))
  | .walkFatal, a => afterFatal a s.exit (goto s .check)
  | .check, .ok =>
    some (if s.trun ≤ 0 ∨ s.twalk ≤ 0 then s.exit EXIT_FAILURE else goto s .calloc)
  | .calloc, a => a.status.map fun ok =>
    if ok then goto { s with itmrspec := some .zero } .trap else goto s .callocFatal
  | .callocFatal, a => afterFatal a s.exit (goto s .trap)
  | .trap, a => a.status.map fun ok =>
    if ok then goto { s with trapped := true } .fill else goto s .trapFatal
  | .trapFatal, a => afterFatal a s.exit (goto s .fill)
  | .fill, .ok =>
    match s.itmrspec with
    | none => some (goto s .undefined)
    | some _ =>
      some (goto { s with itmrspec := some ⟨.zero, ⟨s.trun, 0⟩⟩, type := .RUN } .create)
  | .create, a => a.status.map fun ok =>
    if ok then goto { s with created := true } .settime else goto s .createFatal
  | .createFatal, a => afterFatal a s.exit (goto s .settime)
  | .settime, .ok =>
    match s.created, s.itmrspec with
    | true, some spec => some (goto (s.arm spec) .loop)
    | _, _ => none
  | .settime, .err => some (goto s .settimeFatal)
  | .settimeFatal, a => afterFatal a s.exit (goto s .loop)
  | .loop, a =>
    if s.verbose = HIGH then a.status.map fun ok => if ok then s else goto s .loopFatal
    else some s
  | .loopFatal, a => afterFatal a s.exit (goto s .loop)
  | _, _ => none

/-- `its_time`. The record has the size of the context, so that zeroing as many bytes as the
context has zeroes the record. -/
def handlerStep (s : State) (h : HandlerPc) (a : Answer) : Option State :=
  match h, a, s.itmrspec with
  | .zero, .ok, some _ => some { s with itmrspec := some .zero, handler := some .fill }
  | .fill, .ok, some spec =>
    some { s with
      itmrspec := some { spec with itValue :=
        { spec.itValue with tvSec := if s.type = .WALK then s.trun else s.twalk } }
      handler := some .toggle }
  | .toggle, .ok, _ => some { s with type := s.type.toggle, handler := some .settime }
  | .settime, .ok, some spec => some { s.arm spec with handler := none }
  | .settime, .err, _ => some { s with handler := some .settimeFatal }
  | .settimeFatal, a, _ => afterFatal a s.exit { s with handler := none }
  | _, _, _ => none

/-- A step of a process that is there. The handler masks all signals, and `main` does not go on
while it is running. -/
def move (argv : List (List UInt8)) (s : State) : Label → Option State
  | .main a => if s.handler = none then mainStep argv s a else none
  | .handler a => s.handler.bind fun h => handlerStep s h a
  | .expire => if s.armed then some { s with armed := false, pending := true } else none
  | .deliver =>
    if s.pending ∧ s.handler = none then
      some (if s.trapped then { s with pending := false, handler := some .zero }
        else { s with pc := .killed })
    else none
  | .interrupt =>
    if s.handler = none then
      some (if s.trappedInt then s.exit EXIT_SUCCESS else { s with pc := .killed })
    else none

/-- **The step function**, with the arguments. -/
def step (argv : List (List UInt8)) (s : State) (l : Label) : Option State :=
  match s.pc with
  | .exited _ | .killed | .undefined => none
  | _ => move argv s l

/-! ### What it should do -/

/-- The phase of the `k`-th arming. -/
def phase (k : ℕ) : Phase := if k % 2 = 0 then .RUN else .WALK

/-- **The armings alternate**: the `k`-th is for `u` seconds if `k` is even and for `v` seconds if
it is odd, without nanoseconds and without an interval; the type names the phase at each arming,
and as long as the timer is running. -/
def Alternates (u v : ℕ) (s : State) : Prop :=
  (∀ k a, s.armings[k]? = some a →
    a.spec = ⟨.zero, ⟨if k % 2 = 0 then u else v, 0⟩⟩ ∧ a.type = phase k) ∧
    (s.armed = true → s.type = phase (s.armings.length - 1))

/-- `main` accepts its arguments: it comes to the allocation behind its checks. -/
def Accepted (argv : List (List UInt8)) : Prop :=
  ∃ s, Reaches (step argv) .start s ∧ s.pc = .calloc

/-! ### What a run preserves -/

section Invariant

variable {argv : List (List UInt8)} {s t : State} {a : Answer}

/-- The `k`-th arming, for the times that are stored. -/
def arming (argv : List (List UInt8)) (k : ℕ) : Arming :=
  ⟨⟨.zero, ⟨if k % 2 = 0 then toInt (u argv) else toInt (v argv), 0⟩⟩, phase k⟩

/-- The timer has not been armed. -/
def Pc.early : Pc → Bool
  | .settimeFatal | .loop | .loopFatal | .exited _ | .killed | .undefined => false
  | _ => true

/-- The record is filled in for the first time, and the timer not armed. -/
def Pc.filled : Pc → Bool
  | .create | .createFatal | .settime => true
  | _ => false

/-- How far the arguments have been dealt with: the first is stored, both are, they have passed
the check. -/
def Pc.stage : Pc → ℕ
  | .args | .trapInt | .trapIntFatal | .run | .exited _ | .killed | .undefined => 0
  | .runFatal | .walk => 1
  | .walkFatal | .check => 2
  | _ => 3

/-- What a handler relies on. -/
def HandlerInv (argv : List (List UInt8)) (s : State) : HandlerPc → Prop
  | .zero => s.armings ≠ [] ∧ s.type = phase (s.armings.length - 1)
  | .fill => s.armings ≠ [] ∧ s.type = phase (s.armings.length - 1) ∧ s.itmrspec = some .zero
  | .toggle => s.armings ≠ [] ∧ s.type = phase (s.armings.length - 1) ∧
      s.itmrspec = some (arming argv s.armings.length).spec
  | .settime => s.type = phase s.armings.length ∧
      s.itmrspec = some (arming argv s.armings.length).spec
  | .settimeFatal => True

/-- What holds of every run. -/
structure Inv (argv : List (List UInt8)) (s : State) : Prop where
  early : s.pc.early = true →
    s.armings = [] ∧ s.armed = false ∧ s.pending = false ∧ s.handler = none
  filled : s.pc.filled = true → s.type = phase 0 ∧ s.itmrspec = some (arming argv 0).spec
  run : 1 ≤ s.pc.stage → s.trun = toInt (u argv)
  walk : 2 ≤ s.pc.stage → s.twalk = toInt (v argv)
  positive : 3 ≤ s.pc.stage → 0 < s.trun ∧ 0 < s.twalk
  armings : ∀ k b, s.armings[k]? = some b → b = arming argv k
  timed : s.armed = true ∨ s.pending = true →
    s.handler = none ∧ s.armings ≠ [] ∧ s.type = phase (s.armings.length - 1)
  oneShot : s.pending = true → s.armed = false
  handler : ∀ h, s.handler = some h → HandlerInv argv s h

theorem phase_succ (k : ℕ) : phase (k + 1) = (phase k).toggle := by
  rw [phase, phase]
  split_ifs <;> first | rfl | omega

theorem phase_pred_eq_walk_iff {n : ℕ} (hn : n ≠ 0) : phase (n - 1) = .WALK ↔ n % 2 = 0 := by
  rw [phase]
  split_ifs
  · simp only [false_iff]
    omega
  · simp only [true_iff]
    omega

/-- As long as the timer has not been armed, little is asked for. -/
theorem inv_of_unarmed
    (hearly : s.armings = [] ∧ s.armed = false ∧ s.pending = false ∧ s.handler = none)
    (hfilled : s.pc.filled = true → s.type = phase 0 ∧ s.itmrspec = some (arming argv 0).spec)
    (hrun : 1 ≤ s.pc.stage → s.trun = toInt (u argv))
    (hwalk : 2 ≤ s.pc.stage → s.twalk = toInt (v argv))
    (hpositive : 3 ≤ s.pc.stage → 0 < s.trun ∧ 0 < s.twalk) : Inv argv s where
  early := fun _ => hearly
  filled := hfilled
  run := hrun
  walk := hwalk
  positive := hpositive
  armings := by
    rw [hearly.1]
    exact fun k b hk => absurd hk (by simp)
  timed := by
    rw [hearly.2.1, hearly.2.2.1]
    exact fun h => absurd h (by simp)
  oneShot := fun _ => hearly.2.1
  handler := by
    rw [hearly.2.2.2]
    exact fun h hh => absurd hh (by simp)

theorem inv_start (argv : List (List UInt8)) : Inv argv .start :=
  inv_of_unarmed ⟨rfl, rfl, rfl, rfl⟩ (by simp [State.start, Pc.filled])
    (by simp [State.start, Pc.stage]) (by simp [State.start, Pc.stage])
    (by simp [State.start, Pc.stage])

/-- While the handler is running, the timer has been armed. -/
theorem Inv.not_early {h : HandlerPc} (hs : Inv argv s) (hh : s.handler = some h) :
    ¬s.pc.early = true := fun hearly =>
  absurd ((hs.early hearly).2.2.2.symm.trans hh) (by simp)

/-- A step that neither the timer nor its record sees. -/
structure Quiet (s t : State) : Prop where
  armings : t.armings = s.armings
  armed : t.armed = s.armed
  pending : t.pending = s.pending
  handler : t.handler = s.handler
  type : t.type = s.type
  itmrspec : t.itmrspec = s.itmrspec
  trun : t.trun = s.trun
  twalk : t.twalk = s.twalk
  early : t.pc.early = true → s.pc.early = true
  filled : t.pc.filled = true → s.pc.filled = true
  stage : t.pc.stage ≤ s.pc.stage

theorem quiet_exit (s : State) (status : ℤ) : Quiet s (s.exit status) where
  armings := rfl
  armed := rfl
  pending := rfl
  handler := rfl
  type := rfl
  itmrspec := rfl
  trun := rfl
  twalk := rfl
  early := fun h => absurd h (by simp [State.exit, Pc.early])
  filled := fun h => absurd h (by simp [State.exit, Pc.filled])
  stage := Nat.zero_le _

theorem quiet_afterFatal {back : State} (hback : Quiet s back)
    (h : afterFatal a s.exit back = some t) : Quiet s t := by
  rcases afterFatal_cases h with rfl | rfl
  · exact hback
  · exact quiet_exit s _

/-- **A quiet step preserves all.** -/
theorem Inv.quiet (hs : Inv argv s) (hq : Quiet s t) : Inv argv t where
  early := by
    rw [hq.armings, hq.armed, hq.pending, hq.handler]
    exact fun h => hs.early (hq.early h)
  filled := by
    rw [hq.type, hq.itmrspec]
    exact fun h => hs.filled (hq.filled h)
  run := by
    rw [hq.trun]
    exact fun h => hs.run (h.trans hq.stage)
  walk := by
    rw [hq.twalk]
    exact fun h => hs.walk (h.trans hq.stage)
  positive := by
    rw [hq.trun, hq.twalk]
    exact fun h => hs.positive (h.trans hq.stage)
  armings := by
    rw [hq.armings]
    exact hs.armings
  timed := by
    rw [hq.armings, hq.armed, hq.pending, hq.handler, hq.type]
    exact hs.timed
  oneShot := by
    rw [hq.pending, hq.armed]
    exact hs.oneShot
  handler := by
    intro h hh
    rw [hq.handler] at hh
    have hinv := hs.handler h hh
    cases h with
    | settimeFatal => trivial
    | _ =>
      simp only [HandlerInv, hq.armings, hq.type, hq.itmrspec]
      exact hinv

/-- **What a step of `main` does.** -/
theorem mainStep_cases (h : mainStep argv s a = some t) :
    Quiet s t ∨
    (s.pc = .run ∧ ∃ p, (p = .runFatal ∨ p = .walk) ∧
      t = { s with trun := toInt (u argv), pc := p }) ∨
    (s.pc = .walk ∧ ∃ p, (p = .walkFatal ∨ p = .check) ∧
      t = { s with twalk := toInt (v argv), pc := p }) ∨
    (s.pc = .check ∧ 0 < s.trun ∧ 0 < s.twalk ∧ t = { s with pc := .calloc }) ∨
    (s.pc = .calloc ∧ t = { s with itmrspec := some .zero, pc := .trap }) ∨
    (s.pc = .fill ∧
      t = { s with itmrspec := some ⟨.zero, ⟨s.trun, 0⟩⟩, type := .RUN, pc := .create }) ∨
    (s.pc = .settime ∧ ∃ spec, s.itmrspec = some spec ∧ t = { s.arm spec with pc := .loop }) := by
  obtain ⟨pc, handler, verbose, trun, twalk, type, itmrspec, trappedInt, trapped, created, armed,
    pending, armings⟩ := s
  -- the verbosity and what has been set up do not matter to the timer
  have hgoto : ∀ {p : Pc} {verbose' : ℤ} {trappedInt' trapped' created' : Bool},
      (p.early = true → pc.early = true) → (p.filled = true → pc.filled = true) →
      p.stage ≤ pc.stage → Quiet
        ⟨pc, handler, verbose, trun, twalk, type, itmrspec, trappedInt, trapped, created, armed,
          pending, armings⟩
        ⟨p, handler, verbose', trun, twalk, type, itmrspec, trappedInt', trapped', created', armed,
          pending, armings⟩ := fun hearly hfilled hstage =>
    ⟨rfl, rfl, rfl, rfl, rfl, rfl, rfl, rfl, hearly, hfilled, hstage⟩
  have hfatal : ∀ p : Pc, (p.early = true → pc.early = true) →
      (p.filled = true → pc.filled = true) → p.stage ≤ pc.stage →
      afterFatal a (State.exit ⟨pc, handler, verbose, trun, twalk, type, itmrspec, trappedInt,
        trapped, created, armed, pending, armings⟩) ⟨p, handler, verbose, trun, twalk, type,
          itmrspec, trappedInt, trapped, created, armed, pending, armings⟩ = some t →
      Quiet ⟨pc, handler, verbose, trun, twalk, type, itmrspec, trappedInt, trapped, created,
        armed, pending, armings⟩ t := fun p hearly hfilled hstage =>
    quiet_afterFatal (hgoto hearly hfilled hstage)
  cases pc with
  | args =>
    left
    cases a <;> simp only [mainStep, reduceCtorEq] at h
    split_ifs at h <;> obtain rfl := Option.some.inj h
    · exact quiet_exit _ _
    · exact hgoto (by simp [Pc.early]) (by simp [Pc.filled]) le_rfl
    · exact hgoto (fun _ => rfl) (by simp [Pc.filled]) le_rfl
    · exact hgoto (fun _ => rfl) (by simp [Pc.filled]) le_rfl
  | trapInt =>
    left
    obtain ⟨ok, -, rfl⟩ := Option.map_eq_some_iff.mp h
    cases ok
    · exact hgoto (fun _ => rfl) (by simp [Pc.filled]) le_rfl
    · exact hgoto (fun _ => rfl) (by simp [Pc.filled]) le_rfl
  | trapIntFatal => exact Or.inl (hfatal .run (fun _ => rfl) (by simp [Pc.filled]) le_rfl h)
  | run =>
    right; left
    cases a <;> simp only [mainStep, reduceCtorEq] at h
    obtain rfl := Option.some.inj h
    refine ⟨rfl, _, ?_, rfl⟩
    split_ifs
    · exact Or.inl rfl
    · exact Or.inr rfl
  | runFatal => exact Or.inl (hfatal .walk (fun _ => rfl) (by simp [Pc.filled]) le_rfl h)
  | walk =>
    right; right; left
    cases a <;> simp only [mainStep, reduceCtorEq] at h
    obtain rfl := Option.some.inj h
    refine ⟨rfl, _, ?_, rfl⟩
    split_ifs
    · exact Or.inl rfl
    · exact Or.inr rfl
  | walkFatal => exact Or.inl (hfatal .check (fun _ => rfl) (by simp [Pc.filled]) le_rfl h)
  | check =>
    cases a <;> simp only [mainStep, reduceCtorEq] at h
    obtain rfl := Option.some.inj h
    split_ifs with hneg
    · exact Or.inl (quiet_exit _ _)
    · right; right; right; left
      rw [not_or, not_le, not_le] at hneg
      exact ⟨rfl, hneg.1, hneg.2, rfl⟩
  | calloc =>
    obtain ⟨ok, -, rfl⟩ := Option.map_eq_some_iff.mp h
    cases ok
    · exact Or.inl (hgoto (fun _ => rfl) (by simp [Pc.filled]) le_rfl)
    · exact Or.inr (Or.inr (Or.inr (Or.inr (Or.inl ⟨rfl, rfl⟩))))
  | callocFatal => exact Or.inl (hfatal .trap (fun _ => rfl) (by simp [Pc.filled]) le_rfl h)
  | trap =>
    left
    obtain ⟨ok, -, rfl⟩ := Option.map_eq_some_iff.mp h
    cases ok
    · exact hgoto (fun _ => rfl) (by simp [Pc.filled]) le_rfl
    · exact hgoto (fun _ => rfl) (by simp [Pc.filled]) le_rfl
  | trapFatal => exact Or.inl (hfatal .fill (fun _ => rfl) (by simp [Pc.filled]) le_rfl h)
  | fill =>
    cases a <;> simp only [mainStep, reduceCtorEq] at h
    cases itmrspec with
    | none =>
      obtain rfl := Option.some.inj h
      exact Or.inl (hgoto (by simp [Pc.early]) (by simp [Pc.filled]) (Nat.zero_le _))
    | some spec =>
      obtain rfl := Option.some.inj h
      exact Or.inr (Or.inr (Or.inr (Or.inr (Or.inr (Or.inl ⟨rfl, rfl⟩)))))
  | create =>
    left
    obtain ⟨ok, -, rfl⟩ := Option.map_eq_some_iff.mp h
    cases ok
    · exact hgoto (fun _ => rfl) (fun _ => rfl) le_rfl
    · exact hgoto (fun _ => rfl) (fun _ => rfl) le_rfl
  | createFatal => exact Or.inl (hfatal .settime (fun _ => rfl) (fun _ => rfl) le_rfl h)
  | settime =>
    cases a with
    | ok =>
      cases created <;> cases itmrspec <;> simp only [mainStep, reduceCtorEq] at h
      obtain rfl := Option.some.inj h
      exact Or.inr (Or.inr (Or.inr (Or.inr (Or.inr (Or.inr ⟨rfl, _, rfl, rfl⟩)))))
    | err =>
      obtain rfl := Option.some.inj h
      exact Or.inl (hgoto (by simp [Pc.early]) (by simp [Pc.filled]) le_rfl)
    | _ => cases h
  | settimeFatal => exact Or.inl (hfatal .loop (fun h => h) (fun h => h) le_rfl h)
  | loop =>
    left
    simp only [mainStep] at h
    split_ifs at h
    · obtain ⟨ok, -, rfl⟩ := Option.map_eq_some_iff.mp h
      cases ok
      · exact hgoto (fun h => h) (fun h => h) le_rfl
      · exact hgoto (fun h => h) (fun h => h) le_rfl
    · obtain rfl := Option.some.inj h
      exact hgoto (fun h => h) (fun h => h) le_rfl
  | loopFatal => exact Or.inl (hfatal .loop (fun h => h) (fun h => h) le_rfl h)
  | exited status => cases h
  | killed => cases h
  | undefined => cases h

/-- The next arming, the record being filled in for it. -/
theorem armings_append (hs : Inv argv s) {spec : Itimerspec}
    (htype : s.type = phase s.armings.length)
    (hspec : s.itmrspec = some (arming argv s.armings.length).spec)
    (hmem : s.itmrspec = some spec) (k : ℕ) (b : Arming)
    (hk : (s.armings ++ [⟨spec, s.type⟩])[k]? = some b) : b = arming argv k := by
  rcases Nat.lt_or_ge k s.armings.length with hlt | hge
  · rw [List.getElem?_append_left hlt] at hk
    exact hs.armings k b hk
  · rw [List.getElem?_append_right hge, List.getElem?_singleton] at hk
    split_ifs at hk with hzero
    obtain rfl : k = s.armings.length := by omega
    obtain rfl : (arming argv s.armings.length).spec = spec :=
      Option.some.inj (hspec.symm.trans hmem)
    rw [← Option.some.inj hk, htype]
    rfl

/-- **What a step of `main` preserves.** -/
theorem inv_main (hs : Inv argv s) (h : mainStep argv s a = some t) : Inv argv t := by
  rcases mainStep_cases h with hq | ⟨hpc, p, hp, rfl⟩ | ⟨hpc, p, hp, rfl⟩ |
    ⟨hpc, hrun, hwalk, rfl⟩ | ⟨hpc, rfl⟩ | ⟨hpc, rfl⟩ | ⟨hpc, spec, hspec, rfl⟩
  · exact hs.quiet hq
  · refine inv_of_unarmed (hs.early (by rw [hpc]; rfl)) ?_ (fun _ => rfl) ?_ ?_
    · rcases hp with rfl | rfl <;> simp [Pc.filled]
    · rcases hp with rfl | rfl <;> simp [Pc.stage]
    · rcases hp with rfl | rfl <;> simp [Pc.stage]
  · have hrun := hs.run (by rw [hpc]; exact le_rfl)
    refine inv_of_unarmed (hs.early (by rw [hpc]; rfl)) ?_ (fun _ => hrun) (fun _ => rfl) ?_
    · rcases hp with rfl | rfl <;> simp [Pc.filled]
    · rcases hp with rfl | rfl <;> simp [Pc.stage]
  · have hstage : s.pc.stage = 2 := by rw [hpc]; rfl
    exact inv_of_unarmed (hs.early (by rw [hpc]; rfl)) (by simp [Pc.filled])
      (fun _ => hs.run (by omega)) (fun _ => hs.walk (by omega)) (fun _ => ⟨hrun, hwalk⟩)
  · have hstage : s.pc.stage = 3 := by rw [hpc]; rfl
    exact inv_of_unarmed (hs.early (by rw [hpc]; rfl)) (by simp [Pc.filled])
      (fun _ => hs.run (by omega)) (fun _ => hs.walk (by omega)) (fun _ => hs.positive (by omega))
  · have hstage : s.pc.stage = 3 := by rw [hpc]; rfl
    have hrun := hs.run (by omega)
    refine inv_of_unarmed (hs.early (by rw [hpc]; rfl)) (fun _ => ⟨rfl, ?_⟩) (fun _ => hrun)
      (fun _ => hs.walk (by omega)) (fun _ => hs.positive (by omega))
    rw [hrun]
    rfl
  · have hstage : s.pc.stage = 3 := by rw [hpc]; rfl
    obtain ⟨hnone, -, hpending, hhandler⟩ := hs.early (by rw [hpc]; rfl)
    obtain ⟨htype, hrecord⟩ := hs.filled (by rw [hpc]; rfl)
    have hlen : s.armings.length = 0 := by rw [hnone, List.length_nil]
    exact
      { early := by simp [Pc.early]
        filled := by simp [Pc.filled]
        run := fun _ => hs.run (by omega)
        walk := fun _ => hs.walk (by omega)
        positive := fun _ => hs.positive (by omega)
        armings := armings_append hs (by rw [hlen, htype]) (by rw [hlen, hrecord]) hspec
        timed := fun _ => ⟨hhandler, by simp [State.arm], by simp [State.arm, hlen, htype]⟩
        oneShot := fun h => absurd (hpending.symm.trans h) (by simp)
        handler := fun h hh => absurd (hhandler.symm.trans hh) (by simp) }

theorem early_of_filled {p : Pc} (h : p.filled = true) : p.early = true := by
  cases p <;> first | rfl | cases h

/-- A handler that goes on leaves the armings, and so does one that comes to its end without
having armed the timer. -/
theorem Inv.handle {h : HandlerPc} (hs : Inv argv s) (hh : s.handler = some h) {type : Phase}
    {itmrspec : Option Itimerspec} {next : Option HandlerPc}
    (hnext : ∀ h', next = some h' →
      HandlerInv argv { s with type := type, itmrspec := itmrspec, handler := next } h') :
    Inv argv { s with type := type, itmrspec := itmrspec, handler := next } := by
  have hearly := hs.not_early hh
  exact
    { early := fun h => absurd h hearly
      filled := fun h => absurd (early_of_filled h) hearly
      run := hs.run
      walk := hs.walk
      positive := hs.positive
      armings := hs.armings
      timed := fun h => absurd ((hs.timed h).1.symm.trans hh) (by simp)
      oneShot := hs.oneShot
      handler := hnext }

/-- **What a step of the handler preserves.** -/
theorem inv_handler {h : HandlerPc} (hs : Inv argv s) (hh : s.handler = some h)
    (hstage : 2 ≤ s.pc.stage) (hst : handlerStep s h a = some t) : Inv argv t := by
  have hinv := hs.handler h hh
  have hearly := hs.not_early hh
  unfold handlerStep at hst
  split at hst
  · next spec _ =>
    obtain rfl := Option.some.inj hst
    refine hs.handle hh fun h' heq => ?_
    obtain rfl := Option.some.inj heq
    exact ⟨hinv.1, hinv.2, rfl⟩
  · next spec hspec =>
    obtain rfl := Option.some.inj hst
    obtain ⟨hne, htype, hzero⟩ := hinv
    obtain rfl : spec = .zero := Option.some.inj (hspec.symm.trans hzero)
    refine hs.handle hh fun h' heq => ?_
    obtain rfl := Option.some.inj heq
    have hlen : s.armings.length ≠ 0 := fun h => hne (List.length_eq_zero_iff.mp h)
    have hsec : (if s.type = .WALK then s.trun else s.twalk) =
        if s.armings.length % 2 = 0 then toInt (u argv) else toInt (v argv) := by
      rw [htype, hs.run (by omega), hs.walk hstage]
      exact if_congr (phase_pred_eq_walk_iff hlen) rfl rfl
    refine ⟨hne, htype, ?_⟩
    rw [hsec]
    rfl
  · obtain rfl := Option.some.inj hst
    obtain ⟨hne, htype, hspec⟩ := hinv
    refine hs.handle hh fun h' heq => ?_
    obtain rfl := Option.some.inj heq
    refine ⟨?_, hspec⟩
    have hlen : s.armings.length ≠ 0 := fun h => hne (List.length_eq_zero_iff.mp h)
    have hsucc : s.armings.length = s.armings.length - 1 + 1 := by omega
    change s.type.toggle = phase s.armings.length
    rw [htype, hsucc, phase_succ]
    rfl
  · next spec hspec =>
    obtain rfl := Option.some.inj hst
    obtain ⟨htype, hrecord⟩ := hinv
    exact
      { early := fun h => absurd h hearly
        filled := fun h => absurd (early_of_filled h) hearly
        run := hs.run
        walk := hs.walk
        positive := hs.positive
        armings := armings_append hs htype hrecord hspec
        timed := fun _ => ⟨rfl, by simp [State.arm], by simp [State.arm, htype]⟩
        oneShot := fun h => absurd ((hs.timed (Or.inr h)).1.symm.trans hh) (by simp)
        handler := fun h hh => by cases hh }
  · obtain rfl := Option.some.inj hst
    refine hs.handle hh fun h' heq => ?_
    obtain rfl := Option.some.inj heq
    trivial
  · rcases afterFatal_cases hst with rfl | rfl
    · exact hs.handle hh fun h' heq => by cases heq
    · exact hs.quiet (quiet_exit s _)
  · cases hst

/-- A process that is there. -/
def Pc.there : Pc → Bool
  | .exited _ | .killed | .undefined => false
  | _ => true

theorem step_eq_some {l : Label} (h : step argv s l = some t) :
    s.pc.there = true ∧ move argv s l = some t := by
  unfold step at h
  split at h
  · cases h
  · cases h
  · cases h
  · next hexited hkilled hundefined =>
    refine ⟨?_, h⟩
    cases hpc : s.pc with
    | exited status => exact absurd hpc (hexited status)
    | killed => exact absurd hpc hkilled
    | undefined => exact absurd hpc hundefined
    | _ => rfl

theorem stage_eq {p : Pc} (hthere : p.there = true) (hearly : ¬p.early = true) : p.stage = 3 := by
  cases p <;> first | rfl | exact absurd rfl hearly | cases hthere

/-- A signal that is not handled. -/
theorem quiet_killed (s : State) : Quiet s { s with pc := .killed } where
  armings := rfl
  armed := rfl
  pending := rfl
  handler := rfl
  type := rfl
  itmrspec := rfl
  trun := rfl
  twalk := rfl
  early := fun h => absurd h (by simp [Pc.early])
  filled := fun h => absurd h (by simp [Pc.filled])
  stage := Nat.zero_le _

/-- **What a step preserves.** -/
theorem inv_step {l : Label} (hs : Inv argv s) (h : step argv s l = some t) : Inv argv t := by
  obtain ⟨hthere, hmove⟩ := step_eq_some h
  cases l with
  | main a =>
    simp only [move] at hmove
    split_ifs at hmove
    exact inv_main hs hmove
  | handler a =>
    obtain ⟨h, hh, hst⟩ := Option.bind_eq_some_iff.mp hmove
    have hearly := hs.not_early hh
    exact inv_handler hs hh (by rw [stage_eq hthere hearly]; omega) hst
  | expire =>
    simp only [move] at hmove
    split_ifs at hmove with harmed
    obtain rfl := Option.some.inj hmove
    have htimed := hs.timed (Or.inl harmed)
    exact { hs with
      early := fun h => absurd ((hs.early h).2.1.symm.trans harmed) (by simp)
      timed := fun _ => htimed
      oneShot := fun _ => rfl
      handler := fun h hh => absurd (htimed.1.symm.trans hh) (by simp) }
  | deliver =>
    simp only [move] at hmove
    split_ifs at hmove with hpending htrapped
    · obtain rfl := Option.some.inj hmove
      have htimed := hs.timed (Or.inr hpending.1)
      have hearly : ¬s.pc.early = true := fun h =>
        absurd ((hs.early h).2.2.1.symm.trans hpending.1) (by simp)
      have harmed := hs.oneShot hpending.1
      exact { hs with
        early := fun h => absurd h hearly
        timed := fun h => h.elim (fun h => absurd (harmed.symm.trans h) (by simp)) (by simp)
        oneShot := fun _ => harmed
        handler := fun h hh => by
          obtain rfl := Option.some.inj hh
          exact htimed.2 }
    · obtain rfl := Option.some.inj hmove
      exact hs.quiet (quiet_killed s)
  | interrupt =>
    simp only [move] at hmove
    split_ifs at hmove
    · obtain rfl := Option.some.inj hmove
      exact hs.quiet (quiet_exit s _)
    · obtain rfl := Option.some.inj hmove
      exact hs.quiet (quiet_killed s)

/-! ### Every arming -/

/-- The timer is running, and its signal is handled. -/
structure Running (s : State) : Prop where
  pc : s.pc = .loop
  handler : s.handler = none
  armed : s.armed = true
  trapped : s.trapped = true
  itmrspec : ∃ spec, s.itmrspec = some spec

theorem inv_of_reaches (h : Reaches (step argv) .start s) : Inv argv s := by
  obtain ⟨ls, hrun⟩ := h
  exact run_invariant (P := Inv argv) (fun s l t hs hst => inv_step hs hst) (inv_start argv) hrun

/-- An arming that is for some time sets the timer running. -/
theorem armed_of_inv (hs : Inv argv s) (hstage : s.pc.stage = 3) {b : Arming}
    (hb : b ∈ s.armings) : decide (b.spec.itValue ≠ .zero) = true := by
  obtain ⟨k, hk⟩ := List.mem_iff_getElem?.mp hb
  obtain rfl := hs.armings k b hk
  have hpos := hs.positive (by omega)
  rw [hs.run (by omega), hs.walk (by omega)] at hpos
  refine decide_eq_true fun hzero => ?_
  have hsec : (if k % 2 = 0 then toInt (u argv) else toInt (v argv)) = 0 :=
    congrArg Timespec.tvSec hzero
  split_ifs at hsec <;> omega

/-- **The first arming** is reached where the arguments are accepted. -/
theorem exists_first (h : Accepted argv) :
    ∃ s, Reaches (step argv) .start s ∧ Running s ∧ s.armings.length = 1 := by
  obtain ⟨s, hs, hpc⟩ := h
  obtain ⟨hnone, -, -, hhandler⟩ := (inv_of_reaches hs).early (by rw [hpc]; rfl)
  obtain ⟨pc, handler, verbose, trun, twalk, type, itmrspec, trappedInt, trapped, created, armed,
    pending, armings⟩ := s
  simp only at hpc hnone hhandler
  subst hpc hnone hhandler
  have hrun : run (step argv) ⟨.calloc, none, verbose, trun, twalk, type, itmrspec, trappedInt,
      trapped, created, armed, pending, []⟩ (List.replicate 5 (.main .ok)) =
      some ⟨.loop, none, verbose, trun, twalk, .RUN, some ⟨.zero, ⟨trun, 0⟩⟩, trappedInt, true,
        true, decide ((⟨trun, 0⟩ : Timespec) ≠ .zero), pending, [⟨⟨.zero, ⟨trun, 0⟩⟩, .RUN⟩]⟩ := rfl
  have hreach := hs.trans ⟨_, hrun⟩
  have harmed := armed_of_inv (inv_of_reaches hreach) rfl List.mem_cons_self
  exact ⟨_, hreach, ⟨rfl, rfl, harmed, rfl, _, rfl⟩, rfl⟩

/-- **Another arming** is reached from every one. -/
theorem exists_next (hs : Reaches (step argv) .start s) (hrunning : Running s) :
    ∃ t, Reaches (step argv) .start t ∧ Running t ∧ t.armings.length = s.armings.length + 1 := by
  obtain ⟨hpc, hhandler, harmed, htrapped, spec, hspec⟩ := hrunning
  obtain ⟨pc, handler, verbose, trun, twalk, type, itmrspec, trappedInt, trapped, created, armed,
    pending, armings⟩ := s
  simp only at hpc hhandler harmed htrapped hspec
  subst hpc hhandler harmed htrapped hspec
  have hrun : run (step argv) ⟨.loop, none, verbose, trun, twalk, type, some spec, trappedInt,
      true, created, true, pending, armings⟩
      ([.expire, .deliver] ++ List.replicate 4 (.handler .ok)) =
      some ⟨.loop, none, verbose, trun, twalk, type.toggle,
        some ⟨.zero, ⟨if type = .WALK then trun else twalk, 0⟩⟩, trappedInt, true, created,
        decide ((⟨if type = .WALK then trun else twalk, 0⟩ : Timespec) ≠ .zero), false,
        armings ++ [⟨⟨.zero, ⟨if type = .WALK then trun else twalk, 0⟩⟩, type.toggle⟩]⟩ := rfl
  have hreach := hs.trans ⟨_, hrun⟩
  have harmed := armed_of_inv (inv_of_reaches hreach) rfl
    (List.mem_append_right _ List.mem_cons_self)
  refine ⟨_, hreach, ⟨rfl, rfl, harmed, rfl, _, rfl⟩, ?_⟩
  rw [List.length_append, List.length_singleton]

/-- **Every arming comes about**, in some run. -/
theorem exists_arming (h : Accepted argv) (k : ℕ) :
    ∃ s, Reaches (step argv) .start s ∧ s.armings[k]? = some (arming argv k) := by
  have hmany : ∃ s, Reaches (step argv) .start s ∧ Running s ∧ s.armings.length = k + 1 := by
    induction k with
    | zero => exact exists_first h
    | succ k ih =>
      obtain ⟨s, hs, hrunning, hlen⟩ := ih
      obtain ⟨t, ht, hrunning', hlen'⟩ := exists_next hs hrunning
      exact ⟨t, ht, hrunning', by rw [hlen', hlen]⟩
  obtain ⟨s, hs, -, hlen⟩ := hmany
  have hlt : k < s.armings.length := by omega
  refine ⟨s, hs, ?_⟩
  rw [List.getElem?_eq_getElem hlt]
  exact congrArg some ((inv_of_reaches hs).armings k _ (List.getElem?_eq_getElem hlt))

/-- **The armings alternate between the two numbers** in all runs exactly if both are below
`2 ^ 31`. -/
theorem alternates_iff (h : Accepted argv) :
    (∀ s, Reaches (step argv) .start s → Alternates (u argv) (v argv) s) ↔
      u argv < 2 ^ 31 ∧ v argv < 2 ^ 31 := by
  constructor
  · intro hall
    constructor
    · obtain ⟨s, hs, hk⟩ := exists_arming h 0
      have hsec : toInt (u argv) = u argv :=
        congrArg (fun i => i.itValue.tvSec) ((hall s hs).1 0 _ hk).1
      by_contra hge
      exact absurd hsec (toInt_lt_of_le (Nat.le_of_not_lt hge)).ne
    · obtain ⟨s, hs, hk⟩ := exists_arming h 1
      have hsec : toInt (v argv) = v argv :=
        congrArg (fun i => i.itValue.tvSec) ((hall s hs).1 1 _ hk).1
      by_contra hge
      exact absurd hsec (toInt_lt_of_le (Nat.le_of_not_lt hge)).ne
  · rintro ⟨hu, hv⟩ s hs
    have hinv := inv_of_reaches hs
    refine ⟨fun k b hk => ?_, fun harmed => (hinv.timed (Or.inl harmed)).2.2⟩
    obtain rfl := hinv.armings k b hk
    rw [arming, toInt_of_lt hu, toInt_of_lt hv]
    exact ⟨rfl, rfl⟩

end Invariant

/-- Twenty seconds to run, ten to walk. -/
theorem alternates_iff_at : Accepted [ascii "runwalk_timer", ascii "20", ascii "10"] ∧
    ((∀ s, Reaches (step [ascii "runwalk_timer", ascii "20", ascii "10"]) .start s →
      Alternates (u [ascii "runwalk_timer", ascii "20", ascii "10"])
        (v [ascii "runwalk_timer", ascii "20", ascii "10"]) s) ↔
      u [ascii "runwalk_timer", ascii "20", ascii "10"] < 2 ^ 31 ∧
        v [ascii "runwalk_timer", ascii "20", ascii "10"] < 2 ^ 31) := by
  have haccepted : Accepted [ascii "runwalk_timer", ascii "20", ascii "10"] :=
    ⟨_, ⟨List.replicate 5 (.main .ok), rfl⟩, rfl⟩
  exact ⟨haccepted, alternates_iff haccepted⟩

/-- **A time that loses its upper bits**: the program accepts 4294967301 seconds to run, and arms
the timer for 5. -/
theorem armed_for_five : Accepted [ascii "runwalk_timer", ascii "4294967301", ascii "10"] ∧
    u [ascii "runwalk_timer", ascii "4294967301", ascii "10"] = 4294967301 ∧
    ∃ s, Reaches (step [ascii "runwalk_timer", ascii "4294967301", ascii "10"]) .start s ∧
      s.armings = [⟨⟨.zero, ⟨5, 0⟩⟩, .RUN⟩] ∧
      ¬Alternates (u [ascii "runwalk_timer", ascii "4294967301", ascii "10"])
        (v [ascii "runwalk_timer", ascii "4294967301", ascii "10"]) s := by
  have hu : u [ascii "runwalk_timer", ascii "4294967301", ascii "10"] = 4294967301 := by
    decide +kernel
  refine ⟨⟨_, ⟨List.replicate 5 (.main .ok), rfl⟩, rfl⟩, hu, _,
    ⟨List.replicate 10 (.main .ok), rfl⟩, rfl, fun h => ?_⟩
  have hsec : (5 : ℤ) = u [ascii "runwalk_timer", ascii "4294967301", ascii "10"] :=
    congrArg (fun i => i.itValue.tvSec) (h.1 0 _ rfl).1
  rw [hu] at hsec
  exact absurd hsec (by decide)

end RunwalkTimer

end SystemProgramming
