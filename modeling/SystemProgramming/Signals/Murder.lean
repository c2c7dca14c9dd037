import SystemProgramming.Printf
import SystemProgramming.Runs
import SystemProgramming.Strings

/-!
# A process that kills all others

`murder` (`solutions_to_assgn/ch12/`) is to go over all processes alive and to try and kill them.
It asks the system for the greatest PID, and goes through all numbers below it: `kill` with the
signal 0 tells whether there is such a process, and `SIGKILL` is sent if there is.

There are three ways in which a process is spared. The first `kill` fails as well where there is
such a process, but it may not be killed, and then the attempt is not made. Among the
processes there is the one that executes the loop: when it comes to its own number it kills
itself, and nobody kills those behind it. And there may be one whose death ends it, like the leader
of its session, usually the shell it was started from: then `SIGHUP` goes to the foreground process
group, and its handling is the default one, so that those behind the leader may be spared, too
(`SystemProgramming.Murder.attempts_iff`). Only the process 1, which the kernel protects from its
own `SIGKILL` and from a `SIGHUP` that it does not handle, outlives that.
-/

namespace SystemProgramming

open Printf Runs Strings

namespace Murder

/-- The largest `pid_t`. -/
def INT_MAX : ℕ := 2147483647

/-- The processes at the start: which PIDs are alive, which of them may be sent a signal, whose
death sends this process a signal that ends it, and the own PID. And what the command that is asked
for the greatest PID prints, if it can be run. While the loop goes on, the others do not begin or
end but by its `SIGKILL`. -/
structure Table where
  live : ℕ → Bool
  permitted : ℕ → Bool
  hangup : ℕ → Bool
  self : ℕ
  out : Option (List UInt8)
  range : ∀ p, live p = true → 1 ≤ p ∧ p ≤ INT_MAX
  live_self : live self = true
  permitted_self : permitted self = true

/-- Where the process stands: about to make a call, or at the end. -/
inductive Pc where
  | popen
  | fgets
  | pclose
  | fgetc
  | system
  /-- About to call `kill` with the signal 0. -/
  | probe
  /-- About to call `kill` with `SIGKILL`. -/
  | sigkill
  /-- The process has exited with this status. -/
  | exited (status : ℤ)
  /-- The process has killed itself. -/
  | killed
  /-- The death of another process has ended this one. -/
  | hungUp
  /-- The process is about to close a stream that was not opened, or has counted beyond
  `INT_MAX`. -/
  | undefined
  deriving DecidableEq, Repr

structure State where
  pc : Pc
  i : ℕ
  pidMax : UInt64
  /-- The processes that are alive now. -/
  live : ℕ → Bool
  /-- The processes that `SIGKILL` was sent to, or tried to, the latest first. -/
  attempts : List ℕ
  /-- A process has been killed whose death ends this one: the signal is on its way. -/
  hup : Bool

/-- What happens. -/
inductive Label where
  /-- The process makes its next call. -/
  | go
  /-- The signal comes that a death has brought about. -/
  | hangup
  deriving DecidableEq, Repr

/-- What `get_pid_max` makes of the text of the command. -/
def getPidMax (out : List UInt8) : UInt64 :=
  match fgets 16 (List.replicate 16 0) out with
  | none => 0
  | some (res, _) => strtoul10 (cstr res)

/-- The greatest PID that `main` reckons with. -/
def pidMax (out : List UInt8) : UInt64 := if getPidMax out = 0 then 32768 else getPidMax out

/-- The head of the loop. -/
def State.loop (s : State) : State :=
  { s with pc := if s.i < s.pidMax.toNat then .probe else .exited 0 }

/-- The next number. -/
def State.next (s : State) : State :=
  if s.i = INT_MAX then { s with pc := .undefined } else State.loop { s with i := s.i + 1 }

/-- What becomes of the processes when `p` is sent `SIGKILL`: the process 1 is protected. -/
def kill (live : ℕ → Bool) (p : ℕ) : ℕ → Bool :=
  if p = 1 then live else Function.update live p false

/-- Whether the signal is on its way when the process `i` has been killed: the process 1 does not
die. -/
def State.hupAfter (tab : Table) (s : State) : Bool := s.hup || (s.i != 1 && tab.hangup s.i)

def start (tab : Table) : State := ⟨.popen, 1, 0, tab.live, [], false⟩

/-- One call. -/
def call (tab : Table) (s : State) : Option State :=
  match s.pc with
  | .popen => some { s with pc := if tab.out.isSome then .fgets else .undefined }
  | .fgets => some { s with pc := .pclose, pidMax := pidMax (tab.out.getD []) }
  | .pclose => some { s with pc := .fgetc }
  | .fgetc => some { s with pc := .system }
  | .system => some s.loop
  | .probe =>
    some (if (s.live s.i && tab.permitted s.i) = true then { s with pc := .sigkill } else s.next)
  | .sigkill =>
    let t := { s with attempts := s.i :: s.attempts }
    if (s.live s.i && tab.permitted s.i) = true then
      if s.i = tab.self ∧ s.i ≠ 1 then some { t with pc := .killed, live := kill s.live s.i }
      else some (State.next { t with live := kill s.live s.i, hup := s.hupAfter tab })
    else some t.next
  | .exited _ => none
  | .killed => none
  | .hungUp => none
  | .undefined => none

/-- **The step function**: one call, or the signal that a death has brought about. It may come at
any time after it; the process 1 does not get it. -/
def step (tab : Table) (s : State) : Label → Option State
  | .go => call tab s
  | .hangup =>
    if s.hup = true ∧ tab.self ≠ 1 then (call tab s).map fun _ => { s with pc := .hungUp } else none

/-! ### What the loop has done -/

/-- **The sweep up to `m`**: the attempts are those on the processes below `m` that may be killed,
from `m` on all is as it was, and so is the process itself; and the signal is on its way if one of
those that are dead brings it about. -/
structure Swept (tab : Table) (m : ℕ) (s : State) : Prop where
  mem : ∀ p, p ∈ s.attempts ↔ p < m ∧ tab.live p = true ∧ tab.permitted p = true
  live : ∀ p, m ≤ p → s.live p = tab.live p
  alive : tab.self = 1 ∨ m ≤ tab.self
  hup : s.hup = true ↔ ∃ q < m, (tab.live q = true ∧ tab.permitted q = true) ∧ q ≠ 1 ∧
    tab.hangup q = true

/-- **The invariant**, where the command prints `out`. -/
inductive Inv (tab : Table) (out : List UInt8) (s : State) : Prop where
  | early : s.pc = .popen ∨ s.pc = .fgets → s.i = 1 → Swept tab 1 s → Inv tab out s
  | ready : s.pc = .pclose ∨ s.pc = .fgetc ∨ s.pc = .system → s.i = 1 → s.pidMax = pidMax out →
      Swept tab 1 s → Inv tab out s
  | probe : s.pc = .probe → s.pidMax = pidMax out → s.i < (pidMax out).toNat → s.i ≤ INT_MAX →
      Swept tab s.i s → Inv tab out s
  | sigkill : s.pc = .sigkill → s.pidMax = pidMax out → s.i < (pidMax out).toNat →
      s.i ≤ INT_MAX → tab.live s.i = true → tab.permitted s.i = true → Swept tab s.i s →
      Inv tab out s
  | exited : s.pc = .exited 0 → (pidMax out).toNat ≤ s.i → Swept tab s.i s → Inv tab out s
  | killed : s.pc = .killed → tab.self ≠ 1 →
      (∀ p, p ∈ s.attempts ↔ p ≤ tab.self ∧ tab.live p = true ∧ tab.permitted p = true) →
      Inv tab out s
  | hungUp (m : ℕ) : s.pc = .hungUp → tab.self ≠ 1 → s.hup = true → Swept tab m s → Inv tab out s
  | undefined : s.pc = .undefined → Swept tab (INT_MAX + 1) s → Inv tab out s

/-- What every step makes less. -/
def left (s : State) : ℕ :=
  match s.pc with
  | .popen => 2 * INT_MAX + 8
  | .fgets => 2 * INT_MAX + 7
  | .pclose => 2 * INT_MAX + 6
  | .fgetc => 2 * INT_MAX + 5
  | .system => 2 * INT_MAX + 4
  | .probe => 2 * (INT_MAX - s.i) + 2
  | .sigkill => 2 * (INT_MAX - s.i) + 1
  | .exited _ | .killed | .hungUp | .undefined => 0

section Sweep

variable {tab : Table} {out : List UInt8} {s t : State} {m : ℕ} {l : Label}

theorem Table.self_pos (tab : Table) : 1 ≤ tab.self := (tab.range tab.self tab.live_self).1

theorem Table.self_le (tab : Table) : tab.self ≤ INT_MAX := (tab.range tab.self tab.live_self).2

/-- The counter and the control point do not matter to it. -/
theorem Swept.congr (h : Swept tab m s) (hmem : t.attempts = s.attempts) (hlive : t.live = s.live)
    (hhup : t.hup = s.hup) : Swept tab m t :=
  ⟨fun p => hmem ▸ h.mem p, fun p hp => hlive ▸ h.live p hp, h.alive, hhup ▸ h.hup⟩

theorem swept_start (tab : Table) : Swept tab 1 (start tab) := by
  refine ⟨fun p => iff_of_false List.not_mem_nil ?_, fun p _ => rfl, Or.inr tab.self_pos,
    iff_of_false Bool.false_ne_true ?_⟩
  · rintro ⟨hlt, hlive, -⟩
    have hpos := (tab.range p hlive).1
    omega
  · rintro ⟨q, hlt, ⟨hlive, -⟩, -⟩
    have hpos := (tab.range q hlive).1
    omega

/-- A process that is not there, or that may not be killed, is passed over. -/
theorem Swept.pass (h : Swept tab m s) (hm : ¬(tab.live m = true ∧ tab.permitted m = true)) :
    Swept tab (m + 1) s := by
  refine ⟨fun p => ?_, fun p hp => h.live p (Nat.le_of_succ_le hp), ?_, ?_⟩
  · rw [h.mem, Nat.lt_succ_iff_lt_or_eq]
    constructor
    · rintro ⟨hlt, hboth⟩
      exact ⟨Or.inl hlt, hboth⟩
    · rintro ⟨hlt | rfl, hboth⟩
      · exact ⟨hlt, hboth⟩
      · exact absurd hboth hm
  · rcases h.alive with hone | hle
    · exact Or.inl hone
    · refine Or.inr (Nat.lt_of_le_of_ne hle ?_)
      rintro rfl
      exact hm ⟨tab.live_self, tab.permitted_self⟩
  · rw [h.hup]
    constructor
    · rintro ⟨q, hlt, hq⟩
      exact ⟨q, Nat.lt_succ_of_lt hlt, hq⟩
    · rintro ⟨q, hlt, hboth, hq⟩
      rcases Nat.lt_succ_iff_lt_or_eq.mp hlt with hlt | rfl
      · exact ⟨q, hlt, hboth, hq⟩
      · exact absurd hboth hm

/-- The attempts after one more of them. -/
theorem Swept.mem_cons (h : Swept tab m s) (hlive : tab.live m = true)
    (hperm : tab.permitted m = true) (p : ℕ) :
    p ∈ m :: s.attempts ↔ p < m + 1 ∧ tab.live p = true ∧ tab.permitted p = true := by
  rw [List.mem_cons, h.mem, Nat.lt_succ_iff_lt_or_eq]
  constructor
  · rintro (rfl | ⟨hlt, hboth⟩)
    · exact ⟨Or.inr rfl, hlive, hperm⟩
    · exact ⟨Or.inl hlt, hboth⟩
  · rintro ⟨hlt | rfl, hboth⟩
    · exact Or.inr ⟨hlt, hboth⟩
    · exact Or.inl rfl

theorem kill_of_lt {live : ℕ → Bool} {p q : ℕ} (h : p < q) : kill live p q = live q := by
  rw [kill]
  split_ifs
  · rfl
  · exact Function.update_of_ne h.ne' _ _

/-- One more process is killed, and it is not the one that kills. -/
theorem Swept.shot (h : Swept tab s.i s) (hlive : tab.live s.i = true)
    (hperm : tab.permitted s.i = true) (hself : ¬(s.i = tab.self ∧ s.i ≠ 1)) :
    Swept tab (s.i + 1) { s with
      live := kill s.live s.i, attempts := s.i :: s.attempts, hup := s.hupAfter tab } := by
  refine ⟨h.mem_cons hlive hperm, fun p hp => ?_, ?_, ?_⟩
  · exact (kill_of_lt hp).trans (h.live p (Nat.le_of_succ_le hp))
  · rcases h.alive with hone | hle
    · exact Or.inl hone
    · rw [not_and, not_not] at hself
      rcases Nat.lt_or_eq_of_le hle with hlt | heq
      · exact Or.inr hlt
      · exact Or.inl (heq ▸ hself heq)
  · change s.hupAfter tab = true ↔ _
    rw [State.hupAfter, Bool.or_eq_true, Bool.and_eq_true, bne_iff_ne, h.hup]
    constructor
    · rintro (⟨q, hlt, hq⟩ | hq)
      · exact ⟨q, Nat.lt_succ_of_lt hlt, hq⟩
      · exact ⟨s.i, Nat.lt_succ_self _, ⟨hlive, hperm⟩, hq⟩
    · rintro ⟨q, hlt, hboth, hq⟩
      rcases Nat.lt_succ_iff_lt_or_eq.mp hlt with hlt | rfl
      · exact Or.inl ⟨q, hlt, hboth, hq⟩
      · exact Or.inr hq

/-- The head of the loop. -/
theorem Swept.loop (h : Swept tab s.i s) (hmax : s.pidMax = pidMax out) (hi : s.i ≤ INT_MAX) :
    Inv tab out s.loop ∧ left s.loop ≤ 2 * (INT_MAX - s.i) + 2 := by
  rw [State.loop]
  rcases lt_or_ge s.i (pidMax out).toNat with hlt | hge
  · rw [if_pos (by rwa [hmax])]
    exact ⟨Inv.probe rfl hmax hlt hi (h.congr rfl rfl rfl), le_rfl⟩
  · rw [if_neg (by rwa [hmax, not_lt])]
    exact ⟨Inv.exited rfl hge (h.congr rfl rfl rfl), Nat.zero_le _⟩

/-- The end of the loop's body. -/
theorem Swept.next (h : Swept tab (s.i + 1) s) (hmax : s.pidMax = pidMax out)
    (hi : s.i ≤ INT_MAX) : Inv tab out s.next ∧ left s.next ≤ 2 * (INT_MAX - s.i) := by
  rw [State.next]
  rcases Decidable.em (s.i = INT_MAX) with heq | hne
  · rw [if_pos heq]
    refine ⟨Inv.undefined rfl ?_, Nat.zero_le _⟩
    rw [← heq]
    exact h.congr rfl rfl rfl
  · rw [if_neg hne]
    obtain ⟨hinv, hleft⟩ := Swept.loop (s := { s with i := s.i + 1 })
      (h.congr rfl rfl rfl) hmax (by change s.i + 1 ≤ INT_MAX; omega)
    refine ⟨hinv, hleft.trans ?_⟩
    change 2 * (INT_MAX - (s.i + 1)) + 2 ≤ _
    omega

/-- **A call keeps the invariant**, and brings the end nearer. -/
theorem Inv.call (hout : tab.out = some out) (hs : Inv tab out s) (h : call tab s = some t) :
    Inv tab out t ∧ left t < left s := by
  cases hs with
  | early hpc hi hswept =>
    rcases hpc with hpc | hpc <;> rw [Murder.call, hpc] at h <;> obtain rfl := Option.some.inj h
    · rw [left, left, hpc, hout]
      exact ⟨Inv.early (Or.inr rfl) hi (hswept.congr rfl rfl rfl), Nat.lt_succ_self _⟩
    · rw [left, left, hpc, hout]
      exact ⟨Inv.ready (Or.inl rfl) hi rfl (hswept.congr rfl rfl rfl), Nat.lt_succ_self _⟩
  | ready hpc hi hmax hswept =>
    rcases hpc with hpc | hpc | hpc <;> rw [Murder.call, hpc] at h <;>
      obtain rfl := Option.some.inj h
    · rw [left, left, hpc]
      exact ⟨Inv.ready (Or.inr (Or.inl rfl)) hi hmax (hswept.congr rfl rfl rfl),
        Nat.lt_succ_self _⟩
    · rw [left, left, hpc]
      exact ⟨Inv.ready (Or.inr (Or.inr rfl)) hi hmax (hswept.congr rfl rfl rfl),
        Nat.lt_succ_self _⟩
    · obtain ⟨hinv, hleft⟩ := Swept.loop (s := s) (by rwa [hi]) hmax (by rw [hi]; decide)
      refine ⟨hinv, ?_⟩
      rw [left.eq_def s, hpc]
      change _ < 2 * INT_MAX + 4
      omega
  | probe hpc hmax hlt hi hswept =>
    rw [Murder.call, hpc] at h
    obtain rfl := Option.some.inj h
    rw [left.eq_def s, hpc, hswept.live s.i le_rfl]
    rcases Decidable.em ((tab.live s.i && tab.permitted s.i) = true) with hboth | hboth
    · rw [if_pos hboth]
      obtain ⟨hlive, hperm⟩ := Bool.and_eq_true_iff.mp hboth
      exact ⟨Inv.sigkill rfl hmax hlt hi hlive hperm (hswept.congr rfl rfl rfl),
        Nat.lt_succ_self _⟩
    · rw [if_neg hboth]
      obtain ⟨hinv, hleft⟩ := (hswept.pass (mt Bool.and_eq_true_iff.mpr hboth)).next hmax hi
      exact ⟨hinv, by change _ < 2 * (INT_MAX - s.i) + 2; omega⟩
  | sigkill hpc hmax hlt hi hlive hperm hswept =>
    rw [Murder.call, hpc] at h
    dsimp only at h
    rw [hswept.live s.i le_rfl, if_pos (Bool.and_eq_true_iff.mpr ⟨hlive, hperm⟩)] at h
    rw [left.eq_def s, hpc]
    split_ifs at h with hself
    · obtain rfl := Option.some.inj h
      refine ⟨Inv.killed rfl (hself.1 ▸ hself.2) fun p => ?_, Nat.succ_pos _⟩
      rw [← hself.1, ← Nat.lt_succ_iff]
      exact hswept.mem_cons hlive hperm p
    · obtain rfl := Option.some.inj h
      obtain ⟨hinv, hleft⟩ := Swept.next
        (s := { s with
          live := kill s.live s.i, attempts := s.i :: s.attempts, hup := s.hupAfter tab })
        (hswept.shot hlive hperm hself) hmax hi
      exact ⟨hinv, Nat.lt_succ_of_le hleft⟩
  | exited hpc | killed hpc | hungUp m hpc | undefined hpc =>
    rw [Murder.call, hpc] at h
    exact absurd h (by simp)

/-- Nothing comes behind the end. -/
theorem ended_iff : (∀ l, step tab s l = none) ↔ call tab s = none := by
  constructor
  · intro h
    exact h .go
  · rintro h (_ | _)
    · exact h
    · rw [Murder.step, h]
      exact ite_self none

/-- As long as the process goes on, a sweep is on its way. -/
theorem Inv.swept (hs : Inv tab out s) (h : Murder.call tab s = some t) : ∃ m, Swept tab m s := by
  cases hs with
  | early hpc hi hswept => exact ⟨1, hswept⟩
  | ready hpc hi hmax hswept => exact ⟨1, hswept⟩
  | probe hpc hmax hlt hi hswept => exact ⟨s.i, hswept⟩
  | sigkill hpc hmax hlt hi hlive hperm hswept => exact ⟨s.i, hswept⟩
  | exited hpc | killed hpc | hungUp m hpc | undefined hpc =>
    rw [Murder.call, hpc] at h
    exact absurd h (by simp)

/-- **A step keeps the invariant.** -/
theorem Inv.step (hout : tab.out = some out) (hs : Inv tab out s) (h : step tab s l = some t) :
    Inv tab out t := by
  cases l with
  | go => exact (hs.call hout h).1
  | hangup =>
    rw [Murder.step] at h
    split_ifs at h with hhup
    obtain ⟨u, hu, rfl⟩ := Option.map_eq_some_iff.mp h
    obtain ⟨m, hswept⟩ := hs.swept hu
    exact Inv.hungUp m rfl hhup.2 hhup.1 (hswept.congr rfl rfl rfl)

/-- Every state that is reached is as the invariant says. -/
theorem inv_of_reaches (hout : tab.out = some out) (h : Reaches (step tab) (start tab) s) :
    Inv tab out s := by
  obtain ⟨is, his⟩ := h
  exact run_invariant (P := Inv tab out) (fun _ _ _ hs hst => hs.step hout hst)
    (Inv.early (Or.inl rfl) rfl (swept_start tab)) his

/-- **How far the sweep has come in the end**: beyond all processes below the greatest PID, for the
process 1; up to the process itself; or not as far, but beyond a process whose death ended it. -/
theorem Inv.of_end (hself : tab.self < (pidMax out).toNat) (hs : Inv tab out s)
    (hend : Murder.call tab s = none) :
    ∃ m, (∀ p, p ∈ s.attempts ↔ p < m ∧ tab.live p = true ∧ tab.permitted p = true) ∧
      ((tab.self = 1 ∧ ∀ p, tab.live p = true → p < (pidMax out).toNat → p < m) ∨
        tab.self ≠ 1 ∧ (m = tab.self + 1 ∨
          m ≤ tab.self ∧ ∃ q < m, tab.live q = true ∧ q ≠ 1 ∧ tab.hangup q = true)) := by
  have hle := tab.self_le
  cases hs with
  | early hpc => rcases hpc with hpc | hpc <;> rw [Murder.call, hpc] at hend <;> cases hend
  | ready hpc => rcases hpc with hpc | hpc | hpc <;> rw [Murder.call, hpc] at hend <;> cases hend
  | probe hpc =>
    rw [Murder.call, hpc] at hend
    cases hend
  | sigkill hpc =>
    rw [Murder.call, hpc] at hend
    dsimp only at hend
    split_ifs at hend
  | exited hpc hge hswept =>
    exact ⟨s.i, hswept.mem, Or.inl ⟨hswept.alive.resolve_right (by omega),
      fun p _ hp => hp.trans_le hge⟩⟩
  | killed hpc hne hmem =>
    exact ⟨tab.self + 1, fun p => by rw [hmem, Nat.lt_succ_iff], Or.inr ⟨hne, Or.inl rfl⟩⟩
  | hungUp m hpc hne hhup hswept =>
    obtain ⟨q, hlt, hboth, hq⟩ := hswept.hup.mp hhup
    exact ⟨m, hswept.mem,
      Or.inr ⟨hne, Or.inr ⟨hswept.alive.resolve_left hne, q, hlt, hboth.1, hq⟩⟩⟩
  | undefined hpc hswept =>
    exact ⟨INT_MAX + 1, hswept.mem, Or.inl ⟨hswept.alive.resolve_right (by omega),
      fun p hlive _ => Nat.lt_succ_of_le (tab.range p hlive).2⟩⟩

theorem attempts_next (s : State) : s.next.attempts = s.attempts := by
  rw [State.next]
  split_ifs <;> rfl

/-- An attempt is made where `SIGKILL` is about to be sent. -/
theorem step_attempts (h : Murder.step tab s l = some t) {p : ℕ} (hs : p ∉ s.attempts)
    (ht : p ∈ t.attempts) : s.pc = .sigkill ∧ s.i = p := by
  cases l with
  | hangup =>
    rw [Murder.step] at h
    split_ifs at h
    obtain ⟨u, -, rfl⟩ := Option.map_eq_some_iff.mp h
    exact absurd ht hs
  | go =>
    rw [Murder.step] at h
    cases hpc : s.pc with
    | popen | fgets | pclose | fgetc | system =>
      rw [Murder.call, hpc] at h
      obtain rfl := Option.some.inj h
      exact absurd ht hs
    | probe =>
      rw [Murder.call, hpc] at h
      obtain rfl := Option.some.inj h
      split_ifs at ht
      · exact absurd ht hs
      · rw [attempts_next] at ht
        exact absurd ht hs
    | sigkill =>
      have hmem : t.attempts = s.i :: s.attempts := by
        rw [Murder.call, hpc] at h
        dsimp only at h
        split_ifs at h <;> obtain rfl := Option.some.inj h
        · rfl
        · exact attempts_next _
        · exact attempts_next _
      rw [hmem] at ht
      exact ⟨rfl, ((List.mem_cons.mp ht).resolve_right hs).symm⟩
    | exited status | killed | hungUp | undefined =>
      rw [Murder.call, hpc] at h
      cases h

/-- **A death in front spares**: if the death of `q` ends the process, some run ends so before
`SIGKILL` is tried on a process behind `q`. -/
theorem exists_spared (hout : tab.out = some out) (hne : tab.self ≠ 1) {p q : ℕ} (hqp : q < p)
    (hlive : tab.live q = true) (hperm : tab.permitted q = true) (hq : q ≠ 1)
    (hhangup : tab.hangup q = true) (hreach : Reaches (step tab) (start tab) s)
    (hp : p ∈ s.attempts) :
    ∃ t, Reaches (step tab) (start tab) t ∧ (∀ l, step tab t l = none) ∧ p ∉ t.attempts := by
  obtain ⟨u, l, v, hu, hstep, hnot, hmem⟩ := hreach.exists_change
    (Q := fun x => p ∈ x.attempts) List.not_mem_nil hp
  obtain ⟨hpc, hi⟩ := step_attempts hstep hnot hmem
  have hcall : ∃ w, Murder.call tab u = some w := by
    rw [Murder.call, hpc]
    dsimp only
    split_ifs <;> exact ⟨_, rfl⟩
  obtain ⟨w, hw⟩ := hcall
  have hhup : u.hup = true := by
    have hinv := inv_of_reaches hout hu
    cases hinv with
    | sigkill _ _ _ _ _ _ hswept =>
      exact hswept.hup.mpr ⟨q, hi ▸ hqp, ⟨hlive, hperm⟩, hq, hhangup⟩
    | early hpc' | ready hpc' => rw [hpc] at hpc'; simp at hpc'
    | probe hpc' | exited hpc' | killed hpc' | hungUp _ hpc' | undefined hpc' =>
      exact absurd (hpc.symm.trans hpc') (by simp)
  have hend : step tab u .hangup = some { u with pc := .hungUp } := by
    rw [Murder.step, if_pos ⟨hhup, hne⟩, hw]
    rfl
  exact ⟨_, hu.trans (Reaches.single hend), ended_iff.mpr rfl, hnot⟩

/-- **The program comes to an end.** -/
theorem exists_end (hout : tab.out = some out) :
    ∃ s, Reaches (Murder.step tab) (start tab) s ∧ ∀ l, Murder.step tab s l = none := by
  have hmove : ∀ s, Inv tab out s → ¬Murder.call tab s = none →
      ∃ l t, True ∧ Murder.step tab s l = some t ∧ Inv tab out t ∧ left t < left s := by
    intro s hs hne
    obtain ⟨t, ht⟩ := Option.ne_none_iff_exists'.mp hne
    obtain ⟨hinv, hlt⟩ := hs.call hout ht
    exact ⟨.go, t, trivial, ht, hinv, hlt⟩
  obtain ⟨is, s, -, hrun, -, hend⟩ := exists_run_of_measure left hmove (start tab)
    (Inv.early (Or.inl rfl) rfl (swept_start tab))
  exact ⟨s, ⟨is, hrun⟩, ended_iff.mpr hend⟩

end Sweep

/-- **When `murder` reaches every process.** For all processes that are alive, all permissions, all
that may be brought about by the death of one of them, and all that the system may say of the
greatest PID, above the own one: the program can come to an end, and whenever it does `SIGKILL` has
been tried on all other processes alive below the greatest PID exactly if all of them may be killed,
are in front of the process itself, and have no process in front of them whose death ends it. The
process 1 reaches those behind it, too, and none of the deaths ends it. -/
theorem attempts_iff (tab : Table) {out : List UInt8} (hout : tab.out = some out)
    (hself : tab.self < (pidMax out).toNat) :
    (∃ s, Reaches (step tab) (start tab) s ∧ ∀ l, step tab s l = none) ∧
      ((∀ s, Reaches (step tab) (start tab) s → (∀ l, step tab s l = none) →
          ∀ p, tab.live p = true → p ≠ tab.self → p < (pidMax out).toNat → p ∈ s.attempts) ↔
        ∀ p, tab.live p = true → p ≠ tab.self → p < (pidMax out).toNat →
          tab.permitted p = true ∧ (tab.self = 1 ∨ p < tab.self ∧
            ∀ q < p, tab.live q = true → q ≠ 1 → tab.hangup q = false)) := by
  obtain ⟨s, hreach, hend⟩ := exists_end hout
  refine ⟨⟨s, hreach, hend⟩, ?_⟩
  constructor
  · intro hall
    obtain ⟨m, hmem, hm⟩ := (inv_of_reaches hout hreach).of_end hself (ended_iff.mp hend)
    have hfront : ∀ p, tab.live p = true → p ≠ tab.self → p < (pidMax out).toNat →
        tab.permitted p = true ∧ (tab.self = 1 ∨ p < tab.self) := by
      intro p hlive hne hp
      obtain ⟨hlt, -, hperm⟩ := (hmem p).mp (hall s hreach hend p hlive hne hp)
      refine ⟨hperm, ?_⟩
      rcases hm with ⟨hone, -⟩ | ⟨-, rfl | ⟨hle, -⟩⟩
      · exact Or.inl hone
      · exact Or.inr (lt_of_le_of_ne (Nat.le_of_lt_succ hlt) hne)
      · exact Or.inr (hlt.trans_le hle)
    intro p hlive hne hp
    obtain ⟨hperm, hone | hlt⟩ := hfront p hlive hne hp
    · exact ⟨hperm, Or.inl hone⟩
    · refine ⟨hperm, or_iff_not_imp_left.mpr fun hself' => ⟨hlt, fun q hqp hlive' hq => ?_⟩⟩
      rw [← Bool.not_eq_true]
      intro hhangup
      have hperm' := (hfront q hlive' (by omega) (by omega)).1
      obtain ⟨t, hreach', hend', hnot⟩ := exists_spared hout hself' hqp hlive' hperm' hq hhangup
        hreach (hall s hreach hend p hlive hne hp)
      exact hnot (hall t hreach' hend' p hlive hne hp)
  · intro hcond t hreach' hend' p hlive hne hp
    obtain ⟨hperm, hfront⟩ := hcond p hlive hne hp
    obtain ⟨m, hmem, hm⟩ := (inv_of_reaches hout hreach').of_end hself (ended_iff.mp hend')
    refine (hmem p).mpr ⟨?_, hlive, hperm⟩
    rcases hm with ⟨-, hbelow⟩ | ⟨hself', rfl | ⟨-, q, hqm, hlive', hq, hhangup⟩⟩
    · exact hbelow p hlive hp
    · exact Nat.lt_succ_of_lt (hfront.resolve_left hself').1
    · by_contra hge
      have hnone := (hfront.resolve_left hself').2 q (by omega) hlive' hq
      exact absurd (hhangup.symm.trans hnone) (by decide)

/-- Three processes, of which `self` is the own one, `spared` may not be killed, and the death of
`leader` ends the own one. -/
def three (self spared leader : ℕ) (h : self = 7 ∨ self = 9) (h' : spared ≠ self) : Table where
  live p := p == 7 || p == 8 || p == 9
  permitted p := p != spared
  hangup p := p == leader
  self := self
  out := some (ascii "32768\n")
  range p hp := by
    have hp' : p = 7 ∨ p = 8 ∨ p = 9 := by simpa [or_assoc] using hp
    rcases hp' with rfl | rfl | rfl <;> decide
  live_self := by rcases h with rfl | rfl <;> rfl
  permitted_self := bne_iff_ne.mpr h'.symm

/-- The process 9 reaches the processes 7 and 8. -/
theorem attempts_nine :
    (9 : ℕ) < (pidMax (ascii "32768\n")).toNat ∧
      ∃ s, Reaches (step (three 9 0 0 (by decide) (by decide)))
          (start (three 9 0 0 (by decide) (by decide))) s ∧
        (∀ l, step (three 9 0 0 (by decide) (by decide)) s l = none) ∧
        7 ∈ s.attempts ∧ 8 ∈ s.attempts := by
  have hmax : (9 : ℕ) < (pidMax (ascii "32768\n")).toNat := by decide +kernel
  obtain ⟨⟨s, hreach, hend⟩, hiff⟩ :=
    attempts_iff (three 9 0 0 (by decide) (by decide)) rfl hmax
  have hall := hiff.mpr fun p hlive hne hp => by
    have hp' : p = 7 ∨ p = 8 ∨ p = 9 := by simpa [three, or_assoc] using hlive
    refine ⟨?_, Or.inr ⟨?_, fun q _ hlive' _ => ?_⟩⟩
    · rcases hp' with rfl | rfl | rfl <;> rfl
    · change p ≠ 9 at hne
      change p < 9
      omega
    · have hq' : q = 7 ∨ q = 8 ∨ q = 9 := by simpa [three, or_assoc] using hlive'
      rcases hq' with rfl | rfl | rfl <;> rfl
  exact ⟨hmax, s, hreach, hend, hall s hreach hend 7 rfl (by decide) (by decide +kernel),
    hall s hreach hend 8 rfl (by decide) (by decide +kernel)⟩

/-- **Three ways to be spared**: the process 7 kills itself before it comes to the process 9; the
process 9 does not try the process 7, which it may not kill; and the process 9 is ended by the death
of the process 7, the leader of its session, before it comes to the process 8. -/
theorem spares :
    (three 7 0 0 (by decide) (by decide)).live 9 = true ∧
      (three 7 0 0 (by decide) (by decide)).permitted 9 = true ∧
      (run (step (three 7 0 0 (by decide) (by decide)))
        (start (three 7 0 0 (by decide) (by decide)))
        (List.replicate 13 .go)).map (fun s => (s.pc, s.attempts)) = some (.killed, [7]) ∧
      (three 9 7 0 (by decide) (by decide)).live 7 = true ∧
      (run (step (three 9 7 0 (by decide) (by decide)))
        (start (three 9 7 0 (by decide) (by decide)))
        (List.replicate 16 .go)).map (fun s => (s.pc, s.attempts)) = some (.killed, [9, 8]) ∧
      (three 9 0 7 (by decide) (by decide)).live 8 = true ∧
      (three 9 0 7 (by decide) (by decide)).permitted 8 = true ∧
      (run (step (three 9 0 7 (by decide) (by decide)))
        (start (three 9 0 7 (by decide) (by decide)))
        (List.replicate 13 .go ++ [.hangup])).map (fun s => (s.pc, s.attempts)) =
          some (.hungUp, [7]) ∧
      pidMax (ascii "32768\n") = 32768 := by
  decide +kernel

end Murder

end SystemProgramming
