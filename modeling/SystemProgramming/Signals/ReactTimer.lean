import SystemProgramming.Printf
import SystemProgramming.Signals.React

/-!
# The timer of the reaction game

What goes before the game of `react` (`ch13/`): `main` takes the period of the timer, in
milliseconds, from its argument, `init` makes an `itimerspec` of it, and after a while the handler
`startoff` arms the timer by it.

The period is multiplied by 1,000,000 before it is split into seconds and nanoseconds, in 64 bits
that wrap round. Whatever the product is, seconds and nanoseconds make it up, so all depends on
the product: the record is valid and exact for periods up to 9,223,372,036,854 ms, and for no
other that `main` accepts (`SystemProgramming.React.period_iff`). Beyond, the time may be negative,
too short, or zero – and then the timer is not armed at all.
-/

namespace SystemProgramming

open HandleErr Printf Runs

namespace React

/-- Where `main` and `init` stand. Behind the name of a call that has failed `FATAL` is about to
allocate its message. -/
inductive MainPc where
  /-- About to look at its arguments. -/
  | args
  /-- About to install the handler of a signal. -/
  | trap (sig : Signal)
  | trapFatal (sig : Signal)
  /-- About to create the timer. -/
  | create
  | createFatal
  /-- About to fill in the `itimerspec`. -/
  | fill
  /-- About to turn off core dumps; a failure is only warned of. -/
  | prlimit
  /-- About to set the alarm. -/
  | start
  /-- In the loop. -/
  | pause
  /-- The process has exited. -/
  | exited (status : ℤ)
  deriving DecidableEq, Repr

/-- The process. -/
structure Process where
  pc : MainPc
  verbose : Bool
  freqMs : Int64
  itv : Itimerspec
  game : Game
  /-- What `timer_settime` has been called with. -/
  passed : List Itimerspec
  deriving DecidableEq, Repr

/-- What happens to the process. -/
inductive ProcessLabel where
  /-- `main` goes on, its call being answered so. -/
  | main (a : Answer)
  /-- Something happens in the game. -/
  | game (l : Label)
  deriving DecidableEq, Repr

/-- `main` is called. -/
def Process.start : Process := ⟨.args, false, 0, .zero, .ready 0, []⟩

/-- The period in nanoseconds, in 64 bits. -/
def product (freqMs : Int64) : Int64 := freqMs * 1000000

/-- The seconds and nanoseconds of the period. -/
def period (freqMs : Int64) : Timespec :=
  ⟨(product freqMs / 1000000000).toInt, (product freqMs % 1000000000).toInt⟩

/-- What installing a handler is followed by. -/
def Signal.next : Signal → MainPc
  | .rtmin => .trap .int
  | .int => .trap .alrm
  | .alrm => .create

/-- `main`, with `init` and `random_start`. -/
def mainStep (argv : List (List UInt8)) (s : Process) (a : Answer) : Option Process :=
  let goto (s : Process) (pc : MainPc) : Process := { s with pc := pc }
  let exit (status : ℤ) : Process := goto s (.exited status)
  match s.pc, a with
  | .args, .ok =>
    if argv.length < 2 then some (exit EXIT_FAILURE)
    else
      let s := { s with
        verbose := argv.length = 3 && (atol (argv.getD 2 [])).toInt32 = 1
        freqMs := atol (argv.getD 1 []) }
      some (goto s (if s.freqMs < 1 then .exited EXIT_FAILURE else .trap .rtmin))
  | .trap sig, a => a.status.map fun ok => goto s (if ok then sig.next else .trapFatal sig)
  | .trapFatal sig, a => afterFatal a exit (goto s sig.next)
  | .create, a => a.status.map fun ok => goto s (if ok then .fill else .createFatal)
  | .createFatal, a => afterFatal a exit (goto s .fill)
  | .fill, .ok => some (goto { s with itv := ⟨period s.freqMs, period s.freqMs⟩ } .prlimit)
  | .prlimit, a => a.status.map fun _ => goto s .start
  | .start, .ok => some (goto s .pause)
  | _, _ => none

/-- The step of the game is a call of `timer_settime`: `arm_timer` is called by `startoff` only. -/
def arms (g : Game) (l : Label) : Bool :=
  match g.frames, l with
  | .startoff .settime :: _, .handler _ => true
  | _, _ => false

/-- **The step function** of the process, with its arguments. The alarm is set right in front of the
loop, and signals come from there on. -/
def processStep (argv : List (List UInt8)) (s : Process) (l : ProcessLabel) : Option Process :=
  match s.pc, l with
  | .pause, .game l => (step s.verbose s.game l).map fun g =>
    { s with game := g, passed := if arms s.game l then s.passed ++ [s.itv] else s.passed }
  | _, .main a => mainStep argv s a
  | _, _ => none

/-- The period that the argument denotes. -/
def freq (argv : List (List UInt8)) : Int64 := atol (argv.getD 1 [])

/-- **A valid and exact time**: it is not zero, the seconds are not negative, the nanoseconds are
less than a second's, and both make up the period. -/
def IsPeriod (freqMs : Int64) (t : Timespec) : Prop :=
  t ≠ .zero ∧ 0 ≤ t.tvSec ∧ t.Normal ∧ t.toNs = freqMs.toInt * 1000000

/-- `main` accepts its arguments: it comes to the first call behind its check. -/
def Accepted (argv : List (List UInt8)) : Prop :=
  ∃ s, Reaches (processStep argv) .start s ∧ s.pc = .trap .rtmin

/-! ### The product -/

section Product

variable {f : Int64}

/-- **Up to the bound, the product is the product.** -/
theorem toInt_product (hpos : 0 < f.toInt) (h : f.toInt ≤ 9223372036854) :
    (product f).toInt = f.toInt * 1000000 := by
  have hmul : (product f).toInt = (f.toInt * 1000000).bmod (2 ^ 64) := Int64.toInt_mul f 1000000
  rcases bmod_cases (x := f.toInt * 1000000) (by omega) (by omega) with
    ⟨-, -, heq⟩ | ⟨hlarge, -⟩ | ⟨hsmall, -⟩
  · rw [hmul, heq]
  · omega
  · omega

/-- **Beyond it, the product is not**: 64 bits do not hold it. -/
theorem toInt_product_ne (h : 9223372036854 < f.toInt) :
    (product f).toInt ≠ f.toInt * 1000000 := by
  have hlt := (product f).toInt_lt
  omega

theorem tvSec_period (f : Int64) : (period f).tvSec = (product f).toInt.tdiv Timespec.nsPerSec :=
  Int64.toInt_div_of_ne_right _ _ (by decide)

theorem tvNsec_period (f : Int64) :
    (period f).tvNsec = (product f).toInt.tmod Timespec.nsPerSec :=
  Int64.toInt_mod _ _

/-- **Whatever the product is, seconds and nanoseconds make it up.** -/
theorem toNs_period (f : Int64) : (period f).toNs = (product f).toInt := by
  rw [Timespec.toNs, tvSec_period, tvNsec_period]
  exact Int.tdiv_mul_add_tmod _ _

/-- **The record is right up to the bound, and not beyond.** -/
theorem isPeriod_iff (hpos : 0 < f.toInt) : IsPeriod f (period f) ↔ f.toInt ≤ 9223372036854 := by
  constructor
  · rintro ⟨-, -, -, hns⟩
    rw [toNs_period] at hns
    by_contra hlarge
    exact toInt_product_ne (not_le.mp hlarge) hns
  · intro h
    have hns : (period f).toNs = f.toInt * 1000000 := by rw [toNs_period, toInt_product hpos h]
    have hprod : 0 ≤ (product f).toInt := by
      rw [toInt_product hpos h]
      omega
    refine ⟨?_, ?_, ⟨?_, ?_⟩, hns⟩
    · intro hzero
      rw [hzero] at hns
      change (0 : ℤ) = _ at hns
      omega
    · rw [tvSec_period]
      exact Int.tdiv_nonneg hprod (by decide)
    · rw [tvNsec_period]
      exact Int.tmod_nonneg _ hprod
    · rw [tvNsec_period]
      exact Int.tmod_lt_of_pos _ (by decide)

end Product

/-! ### What a run preserves -/

section Invariant

variable {argv : List (List UInt8)} {s t : Process} {a : Answer} {l : ProcessLabel}

/-- `main` has passed the check of its argument. -/
def MainPc.checked : MainPc → Bool
  | .args | .exited _ => false
  | _ => true

/-- `init` has filled in the record. -/
def MainPc.filled : MainPc → Bool
  | .prlimit | .start | .pause => true
  | _ => false

/-- What holds of every run. -/
structure ProcessInv (argv : List (List UInt8)) (s : Process) : Prop where
  checked : s.pc.checked = true → s.freqMs = freq argv ∧ 0 < (freq argv).toInt
  filled : s.pc.filled = true → s.itv = ⟨period (freq argv), period (freq argv)⟩
  passed : ∀ spec ∈ s.passed, spec = ⟨period (freq argv), period (freq argv)⟩
  ready : s.pc ≠ .pause → s.game = .ready 0

theorem processInv_start (argv : List (List UInt8)) : ProcessInv argv .start where
  checked := fun h => absurd h (by simp [Process.start, MainPc.checked])
  filled := fun h => absurd h (by simp [Process.start, MainPc.filled])
  passed := by simp [Process.start]
  ready := fun _ => rfl

/-- **What a step of `main` does**: it checks its argument, fills in the record, or neither. -/
theorem mainStep_cases (h : mainStep argv s a = some t) :
    t.passed = s.passed ∧ t.game = s.game ∧ s.pc ≠ .pause ∧
    ((∃ status, t.pc = .exited status) ∨
      (s.pc = .args ∧ t.pc = .trap .rtmin ∧ t.freqMs = freq argv ∧ ¬freq argv < 1) ∨
      (s.pc = .fill ∧ t.pc = .prlimit ∧ t.freqMs = s.freqMs ∧
        t.itv = ⟨period s.freqMs, period s.freqMs⟩) ∨
      (s.pc.checked = true ∧ t.freqMs = s.freqMs ∧ t.itv = s.itv ∧
        (t.pc.filled = true → s.pc.filled = true))) := by
  obtain ⟨pc, verbose, freqMs, itv, game, passed⟩ := s
  cases pc with
  | args =>
    cases a <;> simp only [mainStep, reduceCtorEq] at h
    split_ifs at h with hargc hfreq
    · obtain rfl := Option.some.inj h
      exact ⟨rfl, rfl, by simp, Or.inl ⟨_, rfl⟩⟩
    · obtain rfl := Option.some.inj h
      exact ⟨rfl, rfl, by simp, Or.inl ⟨_, rfl⟩⟩
    · obtain rfl := Option.some.inj h
      exact ⟨rfl, rfl, by simp, Or.inr (Or.inl ⟨rfl, rfl, rfl, hfreq⟩)⟩
  | trap sig =>
    obtain ⟨ok, -, rfl⟩ := Option.map_eq_some_iff.mp h
    refine ⟨rfl, rfl, by simp, Or.inr (Or.inr (Or.inr ⟨rfl, rfl, rfl, ?_⟩))⟩
    cases ok <;> cases sig <;> simp [Signal.next, MainPc.filled]
  | trapFatal sig =>
    rcases afterFatal_cases h with rfl | rfl
    · refine ⟨rfl, rfl, by simp, Or.inr (Or.inr (Or.inr ⟨rfl, rfl, rfl, ?_⟩))⟩
      cases sig <;> simp [Signal.next, MainPc.filled]
    · exact ⟨rfl, rfl, by simp, Or.inl ⟨_, rfl⟩⟩
  | create =>
    obtain ⟨ok, -, rfl⟩ := Option.map_eq_some_iff.mp h
    refine ⟨rfl, rfl, by simp, Or.inr (Or.inr (Or.inr ⟨rfl, rfl, rfl, ?_⟩))⟩
    cases ok <;> simp [MainPc.filled]
  | createFatal =>
    rcases afterFatal_cases h with rfl | rfl
    · exact ⟨rfl, rfl, by simp, Or.inr (Or.inr (Or.inr ⟨rfl, rfl, rfl, by simp [MainPc.filled]⟩))⟩
    · exact ⟨rfl, rfl, by simp, Or.inl ⟨_, rfl⟩⟩
  | fill =>
    cases a <;> simp only [mainStep, reduceCtorEq] at h
    obtain rfl := Option.some.inj h
    exact ⟨rfl, rfl, by simp, Or.inr (Or.inr (Or.inl ⟨rfl, rfl, rfl, rfl⟩))⟩
  | prlimit =>
    obtain ⟨ok, -, rfl⟩ := Option.map_eq_some_iff.mp h
    exact ⟨rfl, rfl, by simp, Or.inr (Or.inr (Or.inr ⟨rfl, rfl, rfl, fun _ => rfl⟩))⟩
  | start =>
    cases a <;> simp only [mainStep, reduceCtorEq] at h
    obtain rfl := Option.some.inj h
    exact ⟨rfl, rfl, by simp, Or.inr (Or.inr (Or.inr ⟨rfl, rfl, rfl, fun _ => rfl⟩))⟩
  | _ => simp only [mainStep, reduceCtorEq] at h

theorem ProcessInv.mainStep (hs : ProcessInv argv s) (h : mainStep argv s a = some t) :
    ProcessInv argv t := by
  obtain ⟨hpassed, hgame, hpause, hcase⟩ := mainStep_cases h
  refine ⟨?_, ?_, ?_, ?_⟩
  · intro hchecked
    rcases hcase with ⟨status, hpc⟩ | ⟨-, -, hfreq, hge⟩ | ⟨hpc, -, hfreq, -⟩ | ⟨hpc, hfreq, -, -⟩
    · rw [hpc] at hchecked
      exact absurd hchecked (by simp [MainPc.checked])
    · have hlt := mt Int64.lt_iff_toInt_lt.mpr hge
      exact ⟨hfreq, Int.lt_of_lt_of_le (by decide : (0 : ℤ) < (1 : Int64).toInt) (not_lt.mp hlt)⟩
    · rw [hfreq]
      exact hs.checked (by simp [hpc, MainPc.checked])
    · rw [hfreq]
      exact hs.checked hpc
  · intro hfilled
    rcases hcase with ⟨status, hpc⟩ | ⟨-, hpc, -, -⟩ | ⟨hpc, -, -, hitv⟩ | ⟨-, -, hitv, hpc⟩
    · rw [hpc] at hfilled
      exact absurd hfilled (by simp [MainPc.filled])
    · rw [hpc] at hfilled
      exact absurd hfilled (by simp [MainPc.filled])
    · rw [hitv, (hs.checked (by simp [hpc, MainPc.checked])).1]
    · rw [hitv]
      exact hs.filled (hpc hfilled)
  · rw [hpassed]
    exact hs.passed
  · intro _
    rw [hgame]
    exact hs.ready hpause

/-- **One step preserves it.** -/
theorem ProcessInv.step (hs : ProcessInv argv s) (h : processStep argv s l = some t) :
    ProcessInv argv t := by
  rw [processStep.eq_def] at h
  split at h
  case h_1 l hpc =>
    obtain ⟨g, -, rfl⟩ := Option.map_eq_some_iff.mp h
    refine ⟨hs.checked, hs.filled, ?_, fun hne => absurd hpc hne⟩
    intro spec hspec
    simp only at hspec
    split_ifs at hspec
    · rcases List.mem_append.mp hspec with hold | hnew
      · exact hs.passed spec hold
      · rw [List.mem_singleton.mp hnew]
        exact hs.filled (by simp [hpc, MainPc.filled])
    · exact hs.passed spec hspec
  case h_2 => exact hs.mainStep h
  case h_3 => exact absurd h (by simp)

/-- **Every run preserves it.** -/
theorem processInv_of_reaches (h : Reaches (processStep argv) .start s) : ProcessInv argv s := by
  obtain ⟨is, his⟩ := h
  exact run_invariant (fun _ _ _ hs hst => hs.step hst) (processInv_start argv) his

/-- **The timer can be armed**: from where `main` has accepted its argument, some run comes to a
call of `timer_settime`. -/
theorem exists_passed (h : Accepted argv) :
    ∃ s, Reaches (processStep argv) .start s ∧
      (⟨period (freq argv), period (freq argv)⟩ : Itimerspec) ∈ s.passed := by
  obtain ⟨s, hs, hpc⟩ := h
  have hinv := processInv_of_reaches hs
  obtain ⟨hfreq, -⟩ := hinv.checked (by rw [hpc]; rfl)
  have hgame := hinv.ready (by simp [hpc])
  obtain ⟨pc, verbose, freqMs, itv, game, passed⟩ := s
  simp only at hpc hfreq hgame
  subst hpc hfreq hgame
  refine ⟨_, hs.trans ⟨[.main .ok, .main .ok, .main .ok, .main .ok, .main .ok, .main .ok, .main .ok,
    .game (.deliver .alrm), .game (.handler .ok)], rfl⟩, ?_⟩
  exact List.mem_append_right _ (List.mem_singleton.mpr rfl)

end Invariant

/-- **The period is right up to 9,223,372,036,854 ms, and for no other period that is accepted**:
what the timer is armed by is valid and exact in all runs if and only if the argument is not
beyond. -/
theorem period_iff {argv : List (List UInt8)} (h : Accepted argv) :
    (∀ s, Reaches (processStep argv) .start s → ∀ spec ∈ s.passed,
        IsPeriod (freq argv) spec.itValue ∧ IsPeriod (freq argv) spec.itInterval) ↔
      (freq argv).toInt ≤ 9223372036854 := by
  have hpos : 0 < (freq argv).toInt := by
    obtain ⟨s, hs, hpc⟩ := h
    exact ((processInv_of_reaches hs).checked (by rw [hpc]; rfl)).2
  constructor
  · intro hall
    obtain ⟨s, hs, hmem⟩ := exists_passed h
    exact (isPeriod_iff hpos).mp (hall s hs _ hmem).1
  · intro hle s hs spec hspec
    rw [(processInv_of_reaches hs).passed spec hspec]
    exact ⟨(isPeriod_iff hpos).mpr hle, (isPeriod_iff hpos).mpr hle⟩

/-- A tick every 100 ms. -/
theorem period_iff_at : Accepted [ascii "react", ascii "100"] ∧
    ((∀ s, Reaches (processStep [ascii "react", ascii "100"]) .start s → ∀ spec ∈ s.passed,
        IsPeriod (freq [ascii "react", ascii "100"]) spec.itValue ∧
        IsPeriod (freq [ascii "react", ascii "100"]) spec.itInterval) ↔
      (freq [ascii "react", ascii "100"]).toInt ≤ 9223372036854) := by
  have haccepted : Accepted [ascii "react", ascii "100"] := ⟨_, ⟨[.main .ok], rfl⟩, rfl⟩
  exact ⟨haccepted, period_iff haccepted⟩

/-- **A timer that is not armed**: of 2 ^ 58 ms the product is zero. The program accepts them, and
the time it passes on disarms the timer. -/
theorem disarmed : Accepted [ascii "react", ascii "288230376151711744"] ∧
    (freq [ascii "react", ascii "288230376151711744"]).toInt = 2 ^ 58 ∧
    ∃ s, Reaches (processStep [ascii "react", ascii "288230376151711744"]) .start s ∧
      s.passed = [.zero] ∧
      ¬IsPeriod (freq [ascii "react", ascii "288230376151711744"]) Itimerspec.zero.itValue := by
  have hfreq : freq [ascii "react", ascii "288230376151711744"] = 288230376151711744 := by
    decide +kernel
  have hrun : run (processStep [ascii "react", ascii "288230376151711744"]) .start
      (List.replicate 8 (.main .ok) ++ [.game (.deliver .alrm), .game (.handler .ok)]) =
      some ⟨.pause, false, 288230376151711744, .zero,
        { Game.ready 0 with frames := [.startoff .clearJumped], armed := some 0 }, [.zero]⟩ := by
    decide +kernel
  refine ⟨⟨_, ⟨[.main .ok], rfl⟩, rfl⟩, ?_, _, ⟨_, hrun⟩, rfl, fun h => h.1 rfl⟩
  rw [hfreq]
  decide

end React

end SystemProgramming
