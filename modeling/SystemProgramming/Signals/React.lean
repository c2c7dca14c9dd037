import SystemProgramming.Calls
import SystemProgramming.HandleErr
import SystemProgramming.Runs
import SystemProgramming.Timespec

/-!
# The reaction game

`react` (`ch13/`): an alarm goes off, the handler `startoff` arms a timer, says so, and
records the time; the user presses `^C`, and the handler `userpress` records the time and
reports the difference. In between the handler `timer_handler` counts the ticks.

No handler masks the signals of the other two, so they nest in any way that no handler is
interrupted by its own signal. `startoff` announces the game – by clearing
`jumped_the_gun` – two calls before it records its time; a press that comes in between is
measured from whatever the record holds, which is zero at first. And a `startoff` that runs
within a `userpress` that has recorded its time moves the start behind the end.

The process is one step function (`SystemProgramming.React.step`), on a stack of handler
frames of which the uppermost moves. In the runs that avoid the two nestings, and in which
`FATAL` does not come back, every report is the time from a start to a press that followed
it, and not more than the time since the timer was armed
(`SystemProgramming.React.reports_fair`).
-/

namespace SystemProgramming

open HandleErr Runs

namespace React

/-! ### The handlers -/

/-- The signals that are handled. -/
inductive Signal where
  /-- `SIGALRM`, handled by `startoff`. -/
  | alrm
  /-- `SIGRTMIN`, handled by `timer_handler`. -/
  | rtmin
  /-- `SIGINT`, handled by `userpress`. -/
  | int
  deriving DecidableEq, Repr

/-- Where `startoff` stands. -/
inductive StartPc where
  /-- About to arm the timer. -/
  | settime
  /-- That failed; about to call `FATAL`. -/
  | settimeFatal
  /-- About to clear `jumped_the_gun`. -/
  | clearJumped
  /-- About to write its message. -/
  | write
  /-- About to record the time. -/
  | gettime
  /-- That failed; about to call `FATAL`. -/
  | gettimeFatal
  deriving DecidableEq, Repr

/-- Where `timer_handler` stands. -/
inductive TimerPc where
  /-- About to read the count. -/
  | load
  /-- About to write the count, having read this. -/
  | store (v : ℤ)
  /-- About to write a dot. -/
  | write
  /-- About to ask for the overrun. -/
  | overrun
  deriving DecidableEq, Repr

/-- Where `userpress` stands. -/
inductive PressPc where
  /-- About to record the time. -/
  | gettime
  /-- That failed; about to call `FATAL`. -/
  | gettimeFatal
  /-- About to look at `jumped_the_gun`. -/
  | testJumped
  /-- About to print that the gun was jumped. -/
  | whoops
  /-- About to look at `first_time`. -/
  | testFirst
  /-- About to look at the count. -/
  | testCount
  /-- About to print that the reaction was perfect. -/
  | wow
  /-- About to print that the key was pressed. -/
  | pressed
  /-- About to subtract the seconds. -/
  | subSec
  /-- About to subtract the nanoseconds, the seconds being these. -/
  | subNsec (sec : ℤ)
  /-- About to print the result. -/
  | report (res : Timespec)
  /-- About to clear `first_time`. -/
  | clearFirst
  /-- About to print that the key was pressed again. -/
  | again
  /-- About to clear the count. -/
  | clearCount
  /-- About to look at `gTimerRepeats`. -/
  | testRepeats
  deriving DecidableEq, Repr

/-- A handler that is running, or interrupted. -/
inductive Frame where
  | startoff (pc : StartPc)
  | timer (pc : TimerPc)
  | press (pc : PressPc)
  deriving DecidableEq, Repr

/-- The signal that a handler handles, which it masks. -/
def Frame.signal : Frame → Signal
  | .startoff _ => .alrm
  | .timer _ => .rtmin
  | .press _ => .int

/-- The handler of a signal, as it begins. -/
def Signal.handler : Signal → Frame
  | .alrm => .startoff .settime
  | .rtmin => .timer .load
  | .int => .press .gettime

/-! ### The process -/

/-- A reading of the clock: the how-manyth it is, and what it yielded. -/
structure Stamp where
  turn : ℕ
  ns : ℕ
  deriving DecidableEq, Repr

/-- A report, with the times it is about: when the timer was armed, the start, the press,
and the time of the report. -/
structure Report where
  res : Timespec
  count : ℤ
  armed : Option ℕ
  start : Option Stamp
  press : Option Stamp
  now : ℕ
  deriving DecidableEq, Repr

/-- The state of the process. -/
structure Game where
  /-- The handlers, the uppermost first. -/
  frames : List Frame
  c : ℤ
  firstTime : Bool
  jumpedTheGun : Bool
  tmStart : Timespec
  tmEnd : Timespec
  /-- The clock, in nanoseconds. -/
  now : ℕ
  /-- The number of readings of the clock. -/
  turn : ℕ
  /-- When the timer was armed last. -/
  armed : Option ℕ
  /-- The reading that `tmStart` holds. -/
  start : Option Stamp
  /-- The reading that `tmEnd` holds. -/
  press : Option Stamp
  reports : List Report
  ended : Option ℤ
  deriving DecidableEq, Repr

/-- What happens. -/
inductive Label where
  /-- A signal is delivered. -/
  | deliver (sig : Signal)
  /-- The uppermost handler goes on, its call being answered so. -/
  | handler (a : Answer)
  /-- The clock goes on by some nanoseconds. -/
  | tick (d : ℕ)
  deriving DecidableEq, Repr

/-- `gTimerRepeats`, which nothing assigns. -/
def gTimerRepeats : ℤ := 0

/-- `EXIT_SUCCESS`. -/
def EXIT_SUCCESS : ℤ := 0

/-- The process with its handlers installed. -/
def Game.ready (now : ℕ) : Game :=
  ⟨[], 0, true, true, .zero, .zero, now, 0, none, none, none, [], none⟩

/-- The handler exits. -/
def Game.exit (s : Game) (status : ℤ) : Game := { s with ended := some status }

/-- `startoff`, with `arm_timer`; `below` is what it has interrupted. -/
def startoffStep (s : Game) (below : List Frame) (pc : StartPc) (a : Answer) : Option Game :=
  let goto (s : Game) (pc : StartPc) : Game := { s with frames := .startoff pc :: below }
  match pc, a with
  | .settime, a => a.status.map fun ok =>
    if ok then goto { s with armed := some s.now } .clearJumped else goto s .settimeFatal
  | .settimeFatal, a => afterFatal a s.exit (goto s .clearJumped)
  | .clearJumped, .ok => some (goto { s with jumpedTheGun := false } .write)
  | .write, a => a.status.map fun _ => goto s .gettime
  | .gettime, a => a.status.map fun ok =>
    if ok then
      { s with frames := below, tmStart := .ofNs s.now, start := some ⟨s.turn, s.now⟩,
               turn := s.turn + 1 }
    else goto s .gettimeFatal
  | .gettimeFatal, a => afterFatal a s.exit { s with frames := below }
  | _, _ => none

/-- `timer_handler`. What the overrun is, is only printed. -/
def timerStep (verbose : Bool) (s : Game) (below : List Frame) (pc : TimerPc) (a : Answer) :
    Option Game :=
  let goto (s : Game) (pc : TimerPc) : Game := { s with frames := .timer pc :: below }
  match pc, a with
  | .load, .ok => some (goto s (.store s.c))
  | .store v, .ok =>
    if verbose then some (goto { s with c := v + 1 } .write)
    else some { s with frames := below, c := v + 1 }
  | .write, a => a.status.map fun _ => goto s .overrun
  | .overrun, a => a.status.map fun _ => { s with frames := below }
  | _, _ => none

/-- `userpress`. -/
def pressStep (s : Game) (below : List Frame) (pc : PressPc) (a : Answer) : Option Game :=
  let goto (s : Game) (pc : PressPc) : Game := { s with frames := .press pc :: below }
  match pc, a with
  | .gettime, a => a.status.map fun ok =>
    if ok then
      goto { s with tmEnd := .ofNs s.now, press := some ⟨s.turn, s.now⟩, turn := s.turn + 1 }
        .testJumped
    else goto s .gettimeFatal
  | .gettimeFatal, a => afterFatal a s.exit (goto s .testJumped)
  | .testJumped, .ok => some (goto s (if s.jumpedTheGun then .whoops else .testFirst))
  | .whoops, .ok => some (s.exit EXIT_FAILURE)
  | .testFirst, .ok => some (goto s (if s.firstTime then .testCount else .again))
  | .testCount, .ok => some (goto s (if s.c = 0 then .wow else .pressed))
  | .wow, .ok => some (goto s .clearFirst)
  | .pressed, .ok => some (goto s .subSec)
  | .subSec, .ok => some (goto s (.subNsec (s.tmEnd.tvSec - s.tmStart.tvSec)))
  | .subNsec sec, .ok =>
    some (goto s (.report (Timespec.borrow ⟨sec, s.tmEnd.tvNsec - s.tmStart.tvNsec⟩)))
  | .report res, .ok =>
    some (goto { s with reports := s.reports ++ [⟨res, s.c, s.armed, s.start, s.press, s.now⟩] }
      .clearFirst)
  | .clearFirst, .ok => some (goto { s with firstTime := false } .clearCount)
  | .again, .ok => some (goto s .clearCount)
  | .clearCount, .ok => some (goto { s with c := 0 } .testRepeats)
  | .testRepeats, .ok =>
    if gTimerRepeats = 0 then some (s.exit EXIT_SUCCESS) else some { s with frames := below }
  | _, _ => none

/-- A step of a process that is there. -/
def move (verbose : Bool) (s : Game) : Label → Option Game
  | .deliver sig =>
    if sig ∈ s.frames.map Frame.signal then none
    else some { s with frames := sig.handler :: s.frames }
  | .handler a =>
    match s.frames with
    | [] => none
    | .startoff pc :: below => startoffStep s below pc a
    | .timer pc :: below => timerStep verbose s below pc a
    | .press pc :: below => pressStep s below pc a
  | .tick d => some { s with now := s.now + d }

/-- **The step function**, of the quiet or of the verbose program. -/
def step (verbose : Bool) (s : Game) (l : Label) : Option Game :=
  match s.ended with
  | some _ => none
  | none => move verbose s l

/-! ### The reports -/

/-- **A fair report**: the start was recorded before the press, and what is reported is the
difference, which is not negative, and not more than the time since the timer was armed. -/
def Fair (r : Report) : Prop :=
  ∃ (a : ℕ) (st p : Stamp), r.armed = some a ∧ r.start = some st ∧ r.press = some p ∧
    st.turn < p.turn ∧ r.res.Normal ∧ r.res.toNs = (p.ns : ℤ) - st.ns ∧
    0 ≤ r.res.toNs ∧ r.res.toNs ≤ (r.now : ℤ) - a

/-- A `startoff` that has armed the timer and announced the game, and has not recorded its
time. -/
def Frame.arming (jumpedTheGun : Bool) : Frame → Bool
  | .startoff .clearJumped => !jumpedTheGun
  | .startoff .write | .startoff .gettime | .startoff .gettimeFatal => true
  | _ => false

/-- A `userpress` that has recorded its time and is going to report, or has not found out
that it is not. -/
def PressPc.measuring : PressPc → Bool
  | .testJumped | .testFirst | .testCount | .pressed | .subSec | .subNsec _ | .report _ => true
  | _ => false

/-- A `userpress` that is measuring. -/
def Frame.measuring : Frame → Bool
  | .press pc => pc.measuring
  | _ => false

/-- A handler that is about to call `FATAL`. -/
def Frame.fatal : Frame → Bool
  | .startoff .settimeFatal | .startoff .gettimeFatal | .press .gettimeFatal => true
  | _ => false

/-- **Nothing comes in between**: no press between the announcement and the start, no start
between a press and its report; and `FATAL` does not come back. -/
def Undisturbed (s : Game) : Label → Prop
  | .deliver .int => ∀ f ∈ s.frames, f.arming s.jumpedTheGun = false
  | .deliver .alrm => ∀ f ∈ s.frames, f.measuring = false
  | .handler .err => s.frames.head?.map Frame.fatal ≠ some true
  | _ => True

instance (s : Game) : DecidablePred (Undisturbed s) := fun l => by
  unfold Undisturbed
  split <;> infer_instance

/-- What an upper frame says of a lower one: it is another handler's, it is not arming below a
`userpress`, and not measuring below a `startoff`. -/
def Above (jumpedTheGun : Bool) (f g : Frame) : Prop :=
  g.signal ≠ f.signal ∧ (f.signal = .int → g.arming jumpedTheGun = false) ∧
    (f.signal = .alrm → g.measuring = false)

/-- The time of the press has been recorded, and that of the start before. -/
def Timed (s : Game) : Prop :=
  ∃ p, s.press = some p ∧ ∀ st, s.start = some st → st.turn < p.turn ∧ st.ns ≤ p.ns

/-- What a `userpress` has done, by its control point. -/
def Measured (s : Game) : PressPc → Prop
  | .testJumped => Timed s
  | .testFirst | .testCount | .pressed | .subSec => Timed s ∧ s.jumpedTheGun = false
  | .subNsec sec => (Timed s ∧ s.jumpedTheGun = false) ∧ sec = s.tmEnd.tvSec - s.tmStart.tvSec
  | .report res => (Timed s ∧ s.jumpedTheGun = false) ∧ res = Timespec.sub s.tmEnd s.tmStart
  | _ => True

/-- A `startoff` that has armed the timer. -/
def Frame.hasArmed : Frame → Bool
  | .startoff .clearJumped | .startoff .write | .startoff .gettime | .startoff .gettimeFatal => true
  | _ => false

/-- **The invariant of the undisturbed runs.** -/
structure Ok (s : Game) : Prop where
  start : ∀ st, s.start = some st → s.tmStart = .ofNs st.ns ∧ st.ns ≤ s.now ∧ st.turn < s.turn
  press : ∀ p, s.press = some p → s.tmEnd = .ofNs p.ns ∧ p.ns ≤ s.now
  armed : ∀ a, s.armed = some a → a ≤ s.now
  hasArmed : ∀ f ∈ s.frames, f.hasArmed = true → s.armed ≠ none
  /-- Once the game is announced and no `startoff` is arming, the start follows the arming. -/
  settled : s.jumpedTheGun = false → (∀ f ∈ s.frames, f.arming false = false) →
    ∃ a st, s.armed = some a ∧ s.start = some st ∧ a ≤ st.ns
  nested : s.frames.Pairwise (Above s.jumpedTheGun)
  measured : ∀ pc, .press pc ∈ s.frames → Measured s pc
  fair : ∀ r ∈ s.reports, Fair r

section Steps

variable {verbose : Bool} {s s' : Game} {l : Label} {ls : List Label} {f : Frame}
  {below : List Frame}

theorem ok_ready (now : ℕ) : Ok (Game.ready now) where
  start st h := by cases h
  press p h := by cases h
  armed a h := by cases h
  hasArmed f h := by cases h
  settled h := by cases h
  nested := List.Pairwise.nil
  measured pc h := by cases h
  fair r h := by cases h

/-- A press that is not measuring has nothing to tell. -/
theorem measured_of_not {pc : PressPc} (h : pc.measuring = false) : Measured s pc := by
  cases pc <;> trivial

/-- **A change of the frames alone**, and of what no other handler reads. -/
theorem Ok.setFrames (h : Ok s) {fs : List Frame} {c : ℤ} {firstTime : Bool} {ended : Option ℤ}
    (harmed : ∀ f ∈ fs, f.hasArmed = true → s.armed ≠ none)
    (hsettled : (∀ f ∈ fs, f.arming false = false) → ∀ f ∈ s.frames, f.arming false = false)
    (hnested : fs.Pairwise (Above s.jumpedTheGun))
    (hmeasured : ∀ pc, .press pc ∈ fs → Measured s pc) :
    Ok { s with frames := fs, c := c, firstTime := firstTime, ended := ended } where
  start := h.start
  press := h.press
  armed := h.armed
  hasArmed := harmed
  settled hj hq := h.settled hj (hsettled hq)
  nested := hnested
  measured pc hpc := by
    have hm := hmeasured pc hpc
    cases pc <;> exact hm
  fair := h.fair

/-- **The uppermost handler goes on**, from the frame `f` to `f'` of the same handler. -/
theorem Ok.goto (h : Ok s) (f' : Frame) (hf : s.frames = f :: below) (hsig : f'.signal = f.signal)
    (harmed : f'.hasArmed = true → f.hasArmed = true)
    (harming : f'.arming false = false → f.arming false = false)
    (hmeasured : ∀ pc, f' = .press pc → Measured s pc) {c : ℤ} {firstTime : Bool} :
    Ok { s with frames := f' :: below, c := c, firstTime := firstTime } := by
  have hnested := h.nested
  rw [hf, List.pairwise_cons] at hnested
  have hold := h.hasArmed
  rw [hf] at hold
  refine h.setFrames ?_ ?_ ?_ ?_
  · intro g hg ha
    rcases List.mem_cons.mp hg with rfl | hmem
    · exact hold f List.mem_cons_self (harmed ha)
    · exact hold g (List.mem_cons_of_mem _ hmem) ha
  · intro hq g hg
    rw [hf] at hg
    rcases List.mem_cons.mp hg with rfl | hmem
    · exact harming (hq f' List.mem_cons_self)
    · exact hq g (List.mem_cons_of_mem _ hmem)
  · refine List.pairwise_cons.mpr ⟨fun g hg => ?_, hnested.2⟩
    have habove := hnested.1 g hg
    rwa [Above, ← hsig] at habove
  · intro pc hpc
    rcases List.mem_cons.mp hpc with heq | hmem
    · exact hmeasured pc heq.symm
    · refine h.measured pc ?_
      rw [hf]
      exact List.mem_cons_of_mem _ hmem

/-- **The uppermost handler returns.** -/
theorem Ok.ret (h : Ok s) (hf : s.frames = f :: below) (harming : f.arming false = false) {c : ℤ} :
    Ok { s with frames := below, c := c } := by
  have hnested := h.nested
  rw [hf, List.pairwise_cons] at hnested
  have hsub : ∀ g ∈ below, g ∈ s.frames := fun g hg => by
    rw [hf]
    exact List.mem_cons_of_mem _ hg
  refine h.setFrames ?_ ?_ hnested.2 ?_
  · exact fun g hg => h.hasArmed g (hsub g hg)
  · intro hq g hg
    rw [hf] at hg
    rcases List.mem_cons.mp hg with rfl | hmem
    · exact harming
    · exact hq g hmem
  · exact fun pc hpc => h.measured pc (hsub _ hpc)

/-- The process exits. -/
theorem Ok.exit (h : Ok s) (status : ℤ) : Ok (s.exit status) :=
  h.setFrames h.hasArmed id h.nested h.measured

/-- A call of `FATAL` that does not come back. -/
theorem Ok.fatal (h : Ok s) {a : Answer} {back : Game} (ha : a ≠ .err)
    (hstep : afterFatal a s.exit back = some s') : Ok s' := by
  obtain ⟨ok, hok, rfl⟩ := Option.map_eq_some_iff.mp hstep
  rcases Answer.status_cases hok with ⟨rfl, rfl⟩ | ⟨rfl, rfl⟩
  · exact h.exit _
  · exact absurd rfl ha

/-- **A step of `timer_handler`.** -/
theorem Ok.timerStep (h : Ok s) {pc : TimerPc} {a : Answer} (hf : s.frames = .timer pc :: below)
    (hstep : timerStep verbose s below pc a = some s') : Ok s' := by
  unfold React.timerStep at hstep
  cases pc <;> simp only at hstep
  case load =>
    cases a <;> simp only [reduceCtorEq] at hstep
    obtain rfl := Option.some.inj hstep
    exact h.goto (.timer (.store s.c)) hf rfl id (fun _ => rfl) fun _ hpc => by cases hpc
  case store v =>
    cases a <;> simp only [reduceCtorEq] at hstep
    split_ifs at hstep
    · obtain rfl := Option.some.inj hstep
      exact h.goto (.timer .write) hf rfl id (fun _ => rfl) fun _ hpc => by cases hpc
    · obtain rfl := Option.some.inj hstep
      exact h.ret hf rfl
  case write =>
    obtain ⟨ok, -, rfl⟩ := Option.map_eq_some_iff.mp hstep
    exact h.goto (.timer .overrun) hf rfl id (fun _ => rfl) fun _ hpc => by cases hpc
  case overrun =>
    obtain ⟨ok, -, rfl⟩ := Option.map_eq_some_iff.mp hstep
    exact h.ret hf rfl

/-- Below a `startoff` there is no `startoff`, and no press is measuring. -/
theorem Ok.below_startoff (h : Ok s) {pc : StartPc} (hf : s.frames = .startoff pc :: below) :
    (∀ g ∈ below, g.signal ≠ .alrm ∧ g.measuring = false) ∧
      below.Pairwise (Above s.jumpedTheGun) := by
  have hnested := h.nested
  rw [hf, List.pairwise_cons] at hnested
  exact ⟨fun g hg => ⟨(hnested.1 g hg).1, (hnested.1 g hg).2.2 rfl⟩, hnested.2⟩

/-- Another handler than `startoff` is not arming. -/
theorem arming_of_signal_ne {g : Frame} (hg : g.signal ≠ .alrm) (j : Bool) :
    g.arming j = false := by
  cases g with
  | startoff pc => exact absurd rfl hg
  | timer pc => rfl
  | press pc => rfl

/-- **A step of `startoff`** with a new state of the clock and the flag: the handlers below it
have nothing to say. -/
theorem Ok.setStart (h : Ok s) {pc : StartPc} (hf : s.frames = .startoff pc :: below)
    {fs : List Frame} (hfs : fs = below ∨ ∃ pc', fs = .startoff pc' :: below) {j : Bool}
    {tm : Timespec} {turn : ℕ} {armed : Option ℕ} {start : Option Stamp}
    (hstart : ∀ st, start = some st → tm = .ofNs st.ns ∧ st.ns ≤ s.now ∧ st.turn < turn)
    (harmed : ∀ a, armed = some a → a ≤ s.now)
    (hhas : ∀ f ∈ fs, f.hasArmed = true → armed ≠ none)
    (hsettled : j = false → (∀ f ∈ fs, f.arming false = false) →
      ∃ a st, armed = some a ∧ start = some st ∧ a ≤ st.ns) :
    Ok { s with frames := fs, jumpedTheGun := j, tmStart := tm, turn := turn, armed := armed,
                start := start } := by
  obtain ⟨hquiet, hnested⟩ := h.below_startoff hf
  have hpair : below.Pairwise (Above j) := by
    refine hnested.imp_of_mem fun {f g} _ hg hfg => ⟨hfg.1, fun _ => ?_, hfg.2.2⟩
    exact arming_of_signal_ne (hquiet g hg).1 j
  constructor
  case start => exact hstart
  case press => exact h.press
  case armed => exact harmed
  case hasArmed => exact hhas
  case settled => exact hsettled
  case nested =>
    rcases hfs with rfl | ⟨pc', rfl⟩
    · exact hpair
    · refine List.pairwise_cons.mpr ⟨fun g hg => ?_, hpair⟩
      exact ⟨(hquiet g hg).1, fun he => (by cases he), fun _ => (hquiet g hg).2⟩
  case measured =>
    intro pc' hpc'
    have hmem : Frame.press pc' ∈ below := by
      rcases hfs with rfl | ⟨pc'', rfl⟩
      · exact hpc'
      · rcases List.mem_cons.mp hpc' with heq | hmem
        · cases heq
        · exact hmem
    exact measured_of_not (hquiet _ hmem).2
  case fair => exact h.fair

/-- **A step of `startoff`.** -/
theorem Ok.startoffStep (h : Ok s) {pc : StartPc} {a : Answer}
    (hf : s.frames = .startoff pc :: below)
    (hl : a = .err → (Frame.startoff pc).fatal = false)
    (hstep : startoffStep s below pc a = some s') : Ok s' := by
  unfold React.startoffStep at hstep
  have hhas := h.hasArmed
  rw [hf] at hhas
  have hbelow : ∀ f ∈ below, f.hasArmed = true → s.armed ≠ none :=
    fun f hmem => hhas f (List.mem_cons_of_mem _ hmem)
  cases pc <;> simp only at hstep
  case settime =>
    obtain ⟨ok, -, rfl⟩ := Option.map_eq_some_iff.mp hstep
    cases ok with
    | true =>
      refine h.setStart hf (Or.inr ⟨_, rfl⟩) h.start ?_ (fun _ _ _ => by simp) ?_
      · rintro a ha
        exact (Option.some.inj ha).ge
      · exact fun _ hq => absurd (hq _ List.mem_cons_self) (by decide)
    | false =>
      exact h.goto (.startoff .settimeFatal) hf rfl id (fun _ => rfl) fun _ hpc => by cases hpc
  case settimeFatal => exact h.fatal (fun ha => by cases hl ha) hstep
  case clearJumped =>
    cases a <;> simp only [reduceCtorEq] at hstep
    obtain rfl := Option.some.inj hstep
    refine h.setStart hf (Or.inr ⟨_, rfl⟩) h.start h.armed ?_ ?_
    · intro f hmem harmed
      rcases List.mem_cons.mp hmem with rfl | hmem
      · exact hhas _ List.mem_cons_self rfl
      · exact hbelow f hmem harmed
    · exact fun _ hq => absurd (hq _ List.mem_cons_self) (by decide)
  case write =>
    obtain ⟨ok, -, rfl⟩ := Option.map_eq_some_iff.mp hstep
    exact h.goto (.startoff .gettime) hf rfl id (fun hq => by cases hq) fun _ hpc => by cases hpc
  case gettime =>
    obtain ⟨ok, -, rfl⟩ := Option.map_eq_some_iff.mp hstep
    cases ok with
    | true =>
      obtain ⟨t, ht⟩ := Option.ne_none_iff_exists'.mp (hhas _ List.mem_cons_self rfl)
      refine h.setStart hf (Or.inl rfl) ?_ h.armed hbelow
        fun _ _ => ⟨t, ⟨s.turn, s.now⟩, ht, rfl, h.armed t ht⟩
      rintro st hst
      obtain rfl := Option.some.inj hst
      exact ⟨rfl, le_rfl, Nat.lt_succ_self _⟩
    | false =>
      exact h.goto (.startoff .gettimeFatal) hf rfl id (fun hq => by cases hq)
        fun _ hpc => by cases hpc
  case gettimeFatal => exact h.fatal (fun ha => by cases hl ha) hstep

/-- Below a `userpress` there is no `userpress`, and no `startoff` is arming. -/
theorem Ok.below_press (h : Ok s) {pc : PressPc} (hf : s.frames = .press pc :: below) :
    ∀ g ∈ below, g.signal ≠ .int ∧ g.arming s.jumpedTheGun = false := by
  have hnested := h.nested
  rw [hf, List.pairwise_cons] at hnested
  exact fun g hg => ⟨(hnested.1 g hg).1, (hnested.1 g hg).2.1 rfl⟩

/-- A `userpress` goes on. -/
theorem Ok.gotoPress (h : Ok s) {pc : PressPc} (pc' : PressPc) (hf : s.frames = .press pc :: below)
    (hm : Measured s pc') {c : ℤ} {firstTime : Bool} :
    Ok { s with frames := .press pc' :: below, c := c, firstTime := firstTime } := by
  refine h.goto (.press pc') hf rfl (fun ha => by cases ha) (fun _ => rfl) fun pc'' heq => ?_
  obtain rfl := Frame.press.inj heq
  exact hm

/-- **The time of the press is recorded**, after that of the start. -/
theorem Ok.recordPress (h : Ok s) (hf : s.frames = .press .gettime :: below) :
    Ok { s with frames := .press .testJumped :: below, tmEnd := .ofNs s.now,
                press := some ⟨s.turn, s.now⟩, turn := s.turn + 1 } := by
  have hbelow := h.below_press hf
  have hframes : Ok { s with frames := .press .whoops :: below, c := s.c,
                             firstTime := s.firstTime } := h.gotoPress .whoops hf trivial
  constructor
  case start =>
    intro st hst
    obtain ⟨htm, hns, hturn⟩ := h.start st hst
    exact ⟨htm, hns, Nat.lt_succ_of_lt hturn⟩
  case press =>
    rintro p hp
    obtain rfl := Option.some.inj hp
    exact ⟨rfl, le_rfl⟩
  case armed => exact h.armed
  case hasArmed =>
    intro f hmem ha
    rcases List.mem_cons.mp hmem with rfl | hmem
    · cases ha
    · exact hframes.hasArmed f (List.mem_cons_of_mem _ hmem) ha
  case settled =>
    intro hj hq
    refine hframes.settled hj fun f hmem => ?_
    rcases List.mem_cons.mp hmem with rfl | hmem
    · rfl
    · exact hq f (List.mem_cons_of_mem _ hmem)
  case nested =>
    obtain ⟨habove, hpair⟩ := List.pairwise_cons.mp hframes.nested
    exact List.pairwise_cons.mpr ⟨habove, hpair⟩
  case measured =>
    intro pc hpc
    rcases List.mem_cons.mp hpc with heq | hmem
    · obtain rfl := Frame.press.inj heq
      refine ⟨_, rfl, fun st hst => ?_⟩
      obtain ⟨-, hns, hturn⟩ := h.start st hst
      exact ⟨hturn, hns⟩
    · exact absurd rfl (hbelow _ hmem).1
  case fair => exact h.fair

/-- **What is about to be reported is fair.** -/
theorem Ok.fair_report (h : Ok s) {res : Timespec} (hf : s.frames = .press (.report res) :: below) :
    Fair ⟨res, s.c, s.armed, s.start, s.press, s.now⟩ := by
  obtain ⟨⟨⟨p, hp, htimed⟩, hj⟩, rfl⟩ := h.measured (.report res) (by
    rw [hf]
    exact List.mem_cons_self)
  have hquiet : ∀ f ∈ s.frames, f.arming false = false := by
    intro f hmem
    rw [hf] at hmem
    rcases List.mem_cons.mp hmem with rfl | hmem
    · rfl
    · have hquiet := (h.below_press hf f hmem).2
      rwa [hj] at hquiet
  obtain ⟨a, st, ha, hst, hle⟩ := h.settled hj hquiet
  obtain ⟨hturn, hns⟩ := htimed st hst
  obtain ⟨hstart, -, -⟩ := h.start st hst
  obtain ⟨hend, hnow⟩ := h.press p hp
  have hdelta : (Timespec.sub s.tmEnd s.tmStart).toNs = (p.ns : ℤ) - st.ns := by
    rw [hstart, hend, Timespec.toNs_sub, Timespec.toNs_ofNs, Timespec.toNs_ofNs]
  refine ⟨a, st, p, ha, hst, hp, hturn, ?_, hdelta, ?_, ?_⟩
  · rw [hstart, hend]
    exact Timespec.normal_sub (Timespec.normal_ofNs _) (Timespec.normal_ofNs _)
  · rw [hdelta]
    omega
  · rw [hdelta]
    change (p.ns : ℤ) - st.ns ≤ (s.now : ℤ) - a
    omega

/-- A fair report is added. -/
theorem Ok.addReport (h : Ok s) {r : Report} (hr : Fair r) :
    Ok { s with reports := s.reports ++ [r] } where
  start := h.start
  press := h.press
  armed := h.armed
  hasArmed := h.hasArmed
  settled := h.settled
  nested := h.nested
  measured pc hpc := by
    have hm := h.measured pc hpc
    cases pc <;> exact hm
  fair r' hr' := by
    rcases List.mem_append.mp hr' with hold | hnew
    · exact h.fair r' hold
    · obtain rfl := List.mem_singleton.mp hnew
      exact hr

/-- **A step of `userpress`.** -/
theorem Ok.pressStep (h : Ok s) {pc : PressPc} {a : Answer} (hf : s.frames = .press pc :: below)
    (hl : a = .err → (Frame.press pc).fatal = false)
    (hstep : pressStep s below pc a = some s') : Ok s' := by
  have hmeasured : Measured s pc := h.measured pc (by rw [hf]; exact List.mem_cons_self)
  unfold React.pressStep at hstep
  cases pc <;> simp only at hstep
  case gettime =>
    obtain ⟨ok, -, rfl⟩ := Option.map_eq_some_iff.mp hstep
    cases ok with
    | true => exact h.recordPress hf
    | false => exact h.gotoPress .gettimeFatal hf trivial
  case gettimeFatal => exact h.fatal (fun ha => by cases hl ha) hstep
  case testRepeats =>
    cases a <;> simp only [reduceCtorEq] at hstep
    rw [if_pos (by rfl)] at hstep
    obtain rfl := Option.some.inj hstep
    exact h.exit _
  -- the calls that are left do not fail, and what follows each is one state
  all_goals
    cases a <;> simp only [reduceCtorEq] at hstep
    obtain rfl := Option.some.inj hstep
  case testJumped.ok =>
    split_ifs with hj
    · exact h.gotoPress .whoops hf trivial
    · exact h.gotoPress .testFirst hf ⟨hmeasured, eq_false_of_ne_true hj⟩
  case whoops.ok => exact h.exit _
  case testFirst.ok =>
    split_ifs
    · exact h.gotoPress .testCount hf hmeasured
    · exact h.gotoPress .again hf trivial
  case testCount.ok =>
    split_ifs
    · exact h.gotoPress .wow hf trivial
    · exact h.gotoPress .pressed hf hmeasured
  case wow.ok => exact h.gotoPress .clearFirst hf trivial
  case pressed.ok => exact h.gotoPress .subSec hf hmeasured
  case subSec.ok => exact h.gotoPress (.subNsec _) hf ⟨hmeasured, rfl⟩
  case subNsec.ok sec =>
    obtain ⟨hm, rfl⟩ := hmeasured
    exact h.gotoPress (.report _) hf ⟨hm, rfl⟩
  case report.ok res => exact (h.gotoPress .clearFirst hf trivial).addReport (h.fair_report hf)
  case clearFirst.ok => exact h.gotoPress .clearCount hf trivial
  case again.ok => exact h.gotoPress .clearCount hf trivial
  case clearCount.ok => exact h.gotoPress .testRepeats hf trivial

/-- **A signal is delivered**, in an undisturbed run. -/
theorem Ok.deliver (h : Ok s) {sig : Signal} (hl : Undisturbed s (.deliver sig))
    (hsig : sig ∉ s.frames.map Frame.signal) : Ok { s with frames := sig.handler :: s.frames } := by
  have hne : ∀ g ∈ s.frames, g.signal ≠ sig :=
    fun g hg he => hsig (he ▸ List.mem_map_of_mem hg)
  have hhandler : sig.handler.signal = sig := by cases sig <;> rfl
  refine h.setFrames ?_ ?_ ?_ ?_
  · intro f hmem ha
    rcases List.mem_cons.mp hmem with rfl | hmem
    · cases sig <;> cases ha
    · exact h.hasArmed f hmem ha
  · exact fun hq f hmem => hq f (List.mem_cons_of_mem _ hmem)
  · refine List.pairwise_cons.mpr ⟨fun g hg => ⟨?_, ?_, ?_⟩, h.nested⟩
    · rw [hhandler]
      exact hne g hg
    · cases sig with
      | int => exact fun _ => hl g hg
      | alrm => exact fun he => by cases he
      | rtmin => exact fun he => by cases he
    · cases sig with
      | alrm => exact fun _ => hl g hg
      | int => exact fun he => by cases he
      | rtmin => exact fun he => by cases he
  · intro pc hpc
    rcases List.mem_cons.mp hpc with heq | hmem
    · cases sig with
      | int =>
        obtain rfl := Frame.press.inj heq
        trivial
      | alrm => cases heq
      | rtmin => cases heq
    · exact h.measured pc hmem

/-- The clock goes on. -/
theorem Ok.tick (h : Ok s) (d : ℕ) : Ok { s with now := s.now + d } where
  start st hst := by
    obtain ⟨htm, hns, hturn⟩ := h.start st hst
    exact ⟨htm, Nat.le_add_right_of_le hns, hturn⟩
  press p hp := by
    obtain ⟨htm, hns⟩ := h.press p hp
    exact ⟨htm, Nat.le_add_right_of_le hns⟩
  armed a ha := Nat.le_add_right_of_le (h.armed a ha)
  hasArmed := h.hasArmed
  settled := h.settled
  nested := h.nested
  measured pc hpc := by
    have hm := h.measured pc hpc
    cases pc <;> exact hm
  fair := h.fair

/-- **One step of an undisturbed run.** -/
theorem Ok.step (h : Ok s) (hl : Undisturbed s l) (hstep : step verbose s l = some s') : Ok s' := by
  have hmove : move verbose s l = some s' := by
    unfold React.step at hstep
    split at hstep
    · cases hstep
    · exact hstep
  cases l with
  | deliver sig =>
    simp only [move] at hmove
    split_ifs at hmove with hsig
    obtain rfl := Option.some.inj hmove
    exact h.deliver hl hsig
  | handler a =>
    have hfatal : ∀ f, s.frames.head? = some f → a = .err → f.fatal = false := by
      rintro f hf rfl
      unfold Undisturbed at hl
      rw [hf] at hl
      simpa using hl
    simp only [move] at hmove
    split at hmove <;> rename_i hf
    · cases hmove
    · exact h.startoffStep hf (hfatal _ (by rw [hf]; rfl)) hmove
    · exact h.timerStep hf hmove
    · exact h.pressStep hf (hfatal _ (by rw [hf]; rfl)) hmove
  | tick d =>
    obtain rfl := Option.some.inj hmove
    exact h.tick d

/-- **Every report is fair** in an undisturbed run: the start was recorded before the press, and
the reported time is their difference, which is not negative and not more than the time since
the timer was armed. -/
theorem reports_fair {now : ℕ} (hquiet : Every (React.step verbose) Undisturbed (Game.ready now) ls)
    (hrun : run (React.step verbose) (Game.ready now) ls = some s) : ∀ r ∈ s.reports, Fair r :=
  (hquiet.invariant (P := Ok) (fun _ _ _ h hl hst => h.step hl hst) (ok_ready now) hrun).fair

end Steps

/-- The uppermost handler makes this many steps. -/
def handlerSteps (n : ℕ) : List Label := List.replicate n (.handler .ok)

/-- A tick of the timer, counted by the quiet program. -/
def timerTick : List Label := .deliver .rtmin :: handlerSteps 2

/-- The alarm goes off, and the start is recorded. -/
def alarm : List Label := .deliver .alrm :: handlerSteps 4

/-- A start, a tick, and a press shortly after. -/
theorem reports_fair_at :
    ∃ s : Game, run (step false) (Game.ready 7000000000)
        (alarm ++ timerTick ++ [.tick 25, .deliver .int] ++ handlerSteps 8) = some s ∧
      s.reports = [⟨⟨0, 25⟩, 1, some 7000000000, some ⟨0, 7000000000⟩,
        some ⟨1, 7000000025⟩, 7000000025⟩] ∧ ∀ r ∈ s.reports, Fair r := by
  obtain ⟨s, hs, hres⟩ : ∃ s : Game, run (step false) (Game.ready 7000000000)
        (alarm ++ timerTick ++ [.tick 25, .deliver .int] ++ handlerSteps 8) = some s ∧
      s.reports = [⟨⟨0, 25⟩, 1, some 7000000000, some ⟨0, 7000000000⟩,
        some ⟨1, 7000000025⟩, 7000000025⟩] := ⟨_, rfl, rfl⟩
  exact ⟨s, hs, hres, reports_fair (by decide) hs⟩

/-- **Two unfair reports.** A press between the announcement and the start is measured from
zero; an alarm between a press and its report makes the reported time negative. -/
theorem unfair_reports :
    (∃ s : Game, run (step false) (Game.ready 7000000000)
        (.deliver .alrm :: handlerSteps 3 ++ timerTick ++ [.deliver .int] ++ handlerSteps 8) =
          some s ∧
      s.reports = [⟨⟨7, 0⟩, 1, some 7000000000, none, some ⟨0, 7000000000⟩, 7000000000⟩] ∧
      ¬∀ r ∈ s.reports, Fair r) ∧
    ∃ s : Game, run (step false) (Game.ready 7000000000)
        (alarm ++ timerTick ++ [.tick 200, .deliver .int, .handler .ok, .tick 300] ++ alarm ++
          handlerSteps 7) = some s ∧
      s.reports = [⟨⟨-1, 999999700⟩, 1, some 7000000500, some ⟨2, 7000000500⟩,
        some ⟨1, 7000000200⟩, 7000000500⟩] ∧
      ¬∀ r ∈ s.reports, Fair r := by
  constructor
  · refine ⟨_, rfl, rfl, fun h => ?_⟩
    obtain ⟨a, st, p, -, hst, -⟩ := h _ List.mem_cons_self
    cases hst
  · refine ⟨_, rfl, rfl, fun h => ?_⟩
    obtain ⟨a, st, p, -, -, -, -, -, -, hpos, -⟩ := h _ List.mem_cons_self
    exact absurd hpos (by decide)

end React

end SystemProgramming
