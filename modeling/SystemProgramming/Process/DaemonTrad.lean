import SystemProgramming.Calls
import SystemProgramming.Process.FdTable
import SystemProgramming.Runs

/-!
# The descriptors of a daemon

`daemonize_traditional` (`B_daemon/`) follows the steps of the manual page daemon(7): it
closes the descriptors from 3 up to the hard limit, resets the signals, forks twice, opens
`/dev/null` and makes the descriptors 0, 1 and 2 refer to it. Then it closes the descriptor
that `/dev/null` was opened at.

That last step takes for granted that this is another descriptor than the three. It is not
when one of them was closed at the start: `/dev/null` is opened at the lowest descriptor
that is free, the `dup2` onto it does nothing, and closing it leaves it closed. Descriptors
from the hard limit on, which a process may have opened before the limit was lowered, are
not closed.

The function, in the process that the forks lead to, is one step function
(`SystemProgramming.DaemonTrad.step`). The daemon has its descriptors as it should exactly
if the three were open at the start, and none at or above the limit was
(`SystemProgramming.DaemonTrad.devNull_iff`).

Of the signals, the handlers are reset one by one. The mask is not: the step that is to reset
it empties a set of signals that it then does not use, and the daemon keeps the mask that the
process was started with (`SystemProgramming.DaemonTrad.signals_reset_iff`).
-/

namespace SystemProgramming

open Runs

namespace DaemonTrad

variable {φ : Type*}

/-- The number of signals, and one. -/
def NSIG : ℕ := 65

/-- `SIGKILL`. -/
def SIGKILL : ℕ := 9

/-- `SIGSTOP`. -/
def SIGSTOP : ℕ := 19

/-! ### The function -/

/-- What becomes of a signal. -/
inductive Disposition where
  /-- `SIG_DFL`. -/
  | default
  /-- It is ignored. -/
  | ignored
  /-- The handler with this number runs. -/
  | handler (h : ℕ)
  deriving DecidableEq, Repr

/-- Where the process stands. -/
inductive Pc where
  /-- About to ask for the limits. -/
  | prlimit
  /-- At the head of the closing loop. -/
  | close (i : ℕ)
  /-- At the head of the loop that resets the signals. -/
  | sigaction (i : ℕ)
  /-- About to empty a signal set. -/
  | sigemptyset
  /-- About to fork. -/
  | fork
  /-- In the first child, about to create a session. -/
  | setsid
  /-- About to fork a second time. -/
  | forkAgain
  /-- In the second child, about to open `/dev/null`. -/
  | openNull
  /-- About to make the descriptor `k` refer to what `fdNull` does. -/
  | dup2 (fdNull k : ℕ)
  /-- About to close `fdNull`. -/
  | closeNull (fdNull : ℕ)
  /-- About to set the umask. -/
  | umask
  /-- About to change to the root directory. -/
  | chdir
  /-- In its pause. -/
  | pause
  /-- The function has returned. -/
  | ret (v : ℤ)
  /-- The process has exited. -/
  | exited (status : ℤ)
  deriving DecidableEq, Repr

/-- The limits on the number of descriptors. -/
structure Limits where
  cur : ℕ
  max : ℕ
  deriving DecidableEq, Repr

/-- The state of the process. -/
structure Process (φ : Type*) where
  pc : Pc
  fds : FdTable φ
  disposition : ℕ → Disposition
  /-- The signal is blocked. -/
  mask : ℕ → Bool
  umask : ℕ
  /-- The current directory is the root. -/
  atRoot : Bool

/-- What the kernel answers. -/
inductive Label where
  /-- The call succeeds or fails. -/
  | call (a : Answer)
  /-- The fork succeeds, and this is the parent. -/
  | parent
  /-- The fork succeeds, and this is the child. -/
  | child
  deriving DecidableEq, Repr

/-- The signals that the loop leaves out. -/
def skipped (i : ℕ) : Bool := i == SIGKILL || i == SIGSTOP || i == 32 || i == 33

/-- A call that makes the function return when it fails. -/
def checked (s : Process φ) (a : Answer) (error : ℤ) (next : Process φ) : Option (Process φ) :=
  a.status.map fun ok => if ok then next else { s with pc := .ret error }

/-- `daemonize_traditional`; `null` is what opening `/dev/null` yields. The calls that print
are left out, and the failures, which are only warned of before the function returns. What
`close` answers is not looked at: the descriptor is free afterwards. -/
def step (null : φ) (lim : Limits) (s : Process φ) (l : Label) : Option (Process φ) :=
  match s.pc, l with
  | .prlimit, .call a => checked s a (-1) { s with pc := .close 3 }
  | .close i, .call .ok =>
    if i < lim.max then some { s with pc := .close (i + 1), fds := s.fds.close i }
    else some { s with pc := .sigaction 1 }
  | .sigaction i, .call a =>
    if i < NSIG then
      if skipped i then
        if a = .ok then some { s with pc := .sigaction (i + 1) } else none
      else checked s a (-2)
        { s with pc := .sigaction (i + 1),
                 disposition := Function.update s.disposition i .default }
    else if a = .ok then some { s with pc := .sigemptyset } else none
  | .sigemptyset, .call a => checked s a (-3) { s with pc := .fork }
  | .fork, .call .err => some { s with pc := .ret (-5) }
  | .fork, .parent => some { s with pc := .exited 0 }
  | .fork, .child => some { s with pc := .setsid }
  | .setsid, .call a => checked s a (-6) { s with pc := .forkAgain }
  | .forkAgain, .call .err => some { s with pc := .ret (-7) }
  | .forkAgain, .parent => some { s with pc := .exited 0 }
  | .forkAgain, .child => some { s with pc := .openNull }
  | .openNull, .call .err => some { s with pc := .ret (-9) }
  | .openNull, .call .ok =>
    match s.fds.openFile lim.cur null with
    | some (fdNull, fds) => some { s with pc := .dup2 fdNull 0, fds := fds }
    | none => some { s with pc := .ret (-9) }
  | .dup2 _ _, .call .err => some { s with pc := .ret (-9) }
  | .dup2 fdNull k, .call .ok =>
    match s.fds.dup2 lim.cur fdNull k with
    | some fds =>
      some { s with pc := if k < 2 then .dup2 fdNull (k + 1) else .closeNull fdNull, fds := fds }
    | none => some { s with pc := .ret (-9) }
  | .closeNull fdNull, .call .ok => some { s with pc := .umask, fds := s.fds.close fdNull }
  | .umask, .call .ok => some { s with pc := .chdir, umask := 0 }
  | .chdir, .call a => checked s a (-11) { s with pc := .pause, atRoot := true }
  | .pause, .call .ok => some { s with pc := .exited 0 }
  | _, _ => none

/-- The function is called, with this descriptor table. -/
def Process.start (t : FdTable φ) (disposition : ℕ → Disposition) (mask : ℕ → Bool)
    (umask : ℕ) : Process φ :=
  ⟨.prlimit, t, disposition, mask, umask, false⟩

/-! ### The descriptors -/

/-- **The descriptors as they should be**: 0, 1 and 2 on `/dev/null`, and no other. -/
def DevNull (null : φ) (t : FdTable φ) : Prop :=
  ∀ fd, t fd = if fd < 3 then some null else none

/-- The table when the descriptors from 3 on and below `i` have been closed. -/
def closedTo (t : FdTable φ) (i : ℕ) : FdTable φ := fun fd => if 3 ≤ fd ∧ fd < i then none else t fd

/-- The table when `/dev/null` is open at `f` and at the descriptors below `k`. -/
def nulled (null : φ) (t : FdTable φ) (f k : ℕ) : FdTable φ :=
  fun fd => if fd = f ∨ fd < k then some null else t fd

/-- The table that is left when `/dev/null` was opened at `f`. -/
def left (null : φ) (t : FdTable φ) (f : ℕ) : FdTable φ :=
  fun fd => if fd = f then none else if fd < 3 then some null else t fd

/-- `f` is the lowest descriptor that is free. -/
def IsLowest (t : FdTable φ) (f : ℕ) : Prop := t f = none ∧ ∀ g < f, t g ≠ none

/-- **What has become of the table**, by the control point. -/
def AtPoint (null : φ) (lim : Limits) (t : FdTable φ) (s : Process φ) : Prop :=
  match s.pc with
  | .prlimit => s.fds = t
  | .close i => s.fds = closedTo t i ∧ 3 ≤ i ∧ (i ≤ 3 ∨ i ≤ lim.max)
  | .sigaction _ | .sigemptyset | .fork | .setsid | .forkAgain | .openNull =>
    s.fds = closedTo t lim.max
  | .dup2 f k => IsLowest (closedTo t lim.max) f ∧ s.fds = nulled null (closedTo t lim.max) f k ∧
      k < 3
  | .closeNull f => IsLowest (closedTo t lim.max) f ∧
      s.fds = nulled null (closedTo t lim.max) f 3
  | .umask | .chdir | .pause =>
    ∃ f, IsLowest (closedTo t lim.max) f ∧ s.fds = left null (closedTo t lim.max) f
  | .ret _ | .exited _ => True

section Steps

variable {null : φ} {lim : Limits} {t : FdTable φ} {s s' : Process φ} {l : Label}
  {ls : List Label} {f i k : ℕ}

/-- One more descriptor is closed. -/
theorem close_closedTo (hi : 3 ≤ i) : (closedTo t i).close i = closedTo t (i + 1) := by
  funext fd
  rw [FdTable.close, closedTo]
  rcases eq_or_ne fd i with rfl | hne
  · rw [FdTable.set_self, if_pos ⟨hi, Nat.lt_succ_self fd⟩]
  · rw [FdTable.set_of_ne _ hne, closedTo]
    split_ifs <;> first | rfl | omega

/-- Before the loop no descriptor has been closed. -/
theorem closedTo_three : closedTo t 3 = t := by
  funext fd
  rw [closedTo, if_neg (by omega)]

/-- At the end of the loop the descriptors below the limit are closed. -/
theorem closedTo_eq (hi : 3 ≤ i) (hle : i ≤ 3 ∨ i ≤ lim.max) (hge : lim.max ≤ i) :
    closedTo t i = closedTo t lim.max := by
  funext fd
  rw [closedTo, closedTo]
  split_ifs <;> first | rfl | omega

/-- `/dev/null` has been opened. -/
theorem set_eq_nulled : t.set f (some null) = nulled null t f 0 := by
  funext fd
  rw [nulled]
  rcases eq_or_ne fd f with rfl | hne
  · rw [FdTable.set_self, if_pos (Or.inl rfl)]
  · rw [FdTable.set_of_ne _ hne, if_neg (by omega)]

/-- One more descriptor refers to `/dev/null`. -/
theorem set_nulled : (nulled null t f k).set k (some null) = nulled null t f (k + 1) := by
  funext fd
  rw [nulled]
  rcases eq_or_ne fd k with rfl | hne
  · rw [FdTable.set_self, if_pos (Or.inr (Nat.lt_succ_self fd))]
  · rw [FdTable.set_of_ne _ hne, nulled]
    split_ifs <;> first | rfl | omega

/-- The descriptor that `/dev/null` was opened at is closed. -/
theorem close_nulled : (nulled null t f 3).close f = left null t f := by
  funext fd
  rw [FdTable.close, left]
  rcases eq_or_ne fd f with rfl | hne
  · rw [FdTable.set_self, if_pos rfl]
  · rw [FdTable.set_of_ne _ hne, nulled, if_neg hne]
    split_ifs <;> first | rfl | omega

/-- A call that is checked goes on, or makes the function return. -/
theorem checked_cases {a : Answer} {error : ℤ} {next : Process φ}
    (h : checked s a error next = some s') :
    s' = next ∨ s' = { s with pc := .ret error } := by
  obtain ⟨ok, -, rfl⟩ := Option.map_eq_some_iff.mp h
  cases ok
  · exact Or.inr rfl
  · exact Or.inl rfl

/-- A call that is checked goes on to where the table is as it should be, or makes the
function return. -/
theorem AtPoint.checked {a : Answer} {error : ℤ} {next : Process φ}
    (h : checked s a error next = some s') (hnext : AtPoint null lim t next) :
    AtPoint null lim t s' := by
  rcases checked_cases h with rfl | rfl
  · exact hnext
  · trivial

/-- A call that is not checked goes on to where the table is as it should be. -/
theorem AtPoint.goto {next : Process φ} (h : some next = some s')
    (hnext : AtPoint null lim t next) :
    AtPoint null lim t s' := by
  obtain rfl := Option.some.inj h
  exact hnext

/-- `/dev/null` is opened. -/
theorem AtPoint.openFile {fdNull : ℕ} {u : FdTable φ}
    (hopen : (closedTo t lim.max).openFile lim.cur null = some (fdNull, u)) :
    IsLowest (closedTo t lim.max) fdNull ∧ u = nulled null (closedTo t lim.max) fdNull 0 := by
  obtain ⟨hu, hlow⟩ := FdTable.openFile_eq_some hopen
  exact ⟨hlow, hu.trans set_eq_nulled⟩

/-- `dup2` onto the next descriptor. -/
theorem AtPoint.dup2 {u : FdTable φ}
    (hdup : (nulled null (closedTo t lim.max) f k).dup2 lim.cur f k = some u) :
    u = nulled null (closedTo t lim.max) f (k + 1) :=
  (FdTable.dup2_eq_some hdup (if_pos (Or.inl rfl))).trans set_nulled

/-- **One step** of the process. -/
theorem AtPoint.step (h : AtPoint null lim t s) (hstep : step null lim s l = some s') :
    AtPoint null lim t s' := by
  unfold DaemonTrad.step at hstep
  unfold AtPoint at h
  split at hstep <;> rename_i hpc <;> simp only [hpc] at h
  -- the limits are asked for
  · exact AtPoint.checked hstep ⟨h.trans closedTo_three.symm, le_rfl, Or.inl le_rfl⟩
  -- the closing loop
  · obtain ⟨hfds, hi, hle⟩ := h
    split_ifs at hstep with hlt
    · obtain rfl := Option.some.inj hstep
      refine ⟨?_, Nat.le_succ_of_le hi, Or.inr hlt⟩
      exact (congrArg (FdTable.close · _) hfds).trans (close_closedTo hi)
    · exact AtPoint.goto hstep (hfds.trans (closedTo_eq hi hle (Nat.le_of_not_lt hlt)))
  -- the signals
  · split_ifs at hstep
    · exact AtPoint.goto hstep h
    · exact AtPoint.checked hstep h
    · exact AtPoint.goto hstep h
  · exact AtPoint.checked hstep h
  -- the forks, and the session
  · exact AtPoint.goto hstep trivial
  · exact AtPoint.goto hstep trivial
  · exact AtPoint.goto hstep h
  · exact AtPoint.checked hstep h
  · exact AtPoint.goto hstep trivial
  · exact AtPoint.goto hstep trivial
  · exact AtPoint.goto hstep h
  -- `/dev/null` is opened
  · exact AtPoint.goto hstep trivial
  · rw [h] at hstep
    split at hstep
    · rename_i hopen
      obtain rfl := Option.some.inj hstep
      obtain ⟨hlow, hu⟩ := AtPoint.openFile hopen
      exact ⟨hlow, hu, by omega⟩
    · exact AtPoint.goto hstep trivial
  -- the three descriptors are made to refer to it
  · exact AtPoint.goto hstep trivial
  · obtain ⟨hlow, hfds, hk⟩ := h
    rw [hfds] at hstep
    split at hstep
    · rename_i k _ _ hdup
      obtain rfl := Option.some.inj hstep
      have hu := AtPoint.dup2 hdup
      unfold AtPoint
      by_cases hlt : k < 2
      · simp only [if_pos hlt]
        exact ⟨hlow, hu, by omega⟩
      · obtain rfl : k = 2 := by omega
        exact ⟨hlow, hu⟩
    · exact AtPoint.goto hstep trivial
  -- the descriptor it was opened at is closed
  · obtain ⟨hlow, hfds⟩ := h
    obtain rfl := Option.some.inj hstep
    exact ⟨_, hlow, (congrArg (FdTable.close · _) hfds).trans close_nulled⟩
  · exact AtPoint.goto hstep h
  · exact AtPoint.checked hstep h
  · exact AtPoint.goto hstep trivial
  · cases hstep

theorem atPoint_start (disposition : ℕ → Disposition) (mask : ℕ → Bool) (umask : ℕ) :
    AtPoint null lim t (Process.start t disposition mask umask) := rfl

/-- **The table in the pause**: `/dev/null` was opened at the lowest descriptor free after the
closing loop, and that one is free again. -/
theorem fds_pause {disposition : ℕ → Disposition} {mask : ℕ → Bool} {umask : ℕ}
    (hrun : run (DaemonTrad.step null lim) (Process.start t disposition mask umask) ls = some s)
    (hpc : s.pc = .pause) :
    ∃ f, IsLowest (closedTo t lim.max) f ∧ s.fds = left null (closedTo t lim.max) f := by
  have hpoint : AtPoint null lim t s :=
    run_invariant (fun _ _ _ h hst => AtPoint.step h hst) (atPoint_start _ _ _) hrun
  unfold AtPoint at hpoint
  simp only [hpc] at hpoint
  exact hpoint

/-- **When the table that is left is as it should be.** -/
theorem devNull_left_iff (hlow : IsLowest (closedTo t lim.max) f) :
    DevNull null (left null (closedTo t lim.max) f) ↔
      (∀ fd < 3, t fd ≠ none) ∧ ∀ fd, 3 ≤ fd → lim.max ≤ fd → t fd = none := by
  obtain ⟨hfree, hbelow⟩ := hlow
  constructor
  · intro h
    -- it was opened at none of the three, for that one is free again
    have hf : 3 ≤ f := by
      by_contra hlt
      have hclosed := h f
      rw [left, if_pos rfl, if_pos (Nat.lt_of_not_le hlt)] at hclosed
      cases hclosed
    refine ⟨fun fd hfd => ?_, fun fd hfd hmax => ?_⟩
    · have hopen := hbelow fd (by omega)
      rwa [closedTo, if_neg (by omega)] at hopen
    · rcases eq_or_ne fd f with rfl | hne
      · rwa [closedTo, if_neg (by omega)] at hfree
      · have hclosed := h fd
        rwa [left, if_neg hne, if_neg (by omega), closedTo, if_neg (by omega),
          if_neg (by omega)] at hclosed
  · rintro ⟨hopen, hnone⟩ fd
    have hf : 3 ≤ f := by
      by_contra hlt
      rw [closedTo, if_neg (by omega)] at hfree
      exact hopen f (Nat.lt_of_not_le hlt) hfree
    rw [left]
    by_cases hfd : fd < 3
    · rw [if_neg (by omega), if_pos hfd, if_pos hfd]
    · rw [if_neg hfd, if_neg hfd, closedTo]
      split_ifs
      · rfl
      · rfl
      · exact hnone fd (by omega) (by omega)

/-- **The daemon has its descriptors as it should** – 0, 1 and 2 on `/dev/null` and no other
open – in its pause, exactly if the three were open at the start and none from the hard limit
on was. -/
theorem devNull_iff {disposition : ℕ → Disposition} {mask : ℕ → Bool} {umask : ℕ}
    (hrun : run (DaemonTrad.step null lim) (Process.start t disposition mask umask) ls = some s)
    (hpc : s.pc = .pause) :
    DevNull null s.fds ↔
      (∀ fd < 3, t fd ≠ none) ∧ ∀ fd, 3 ≤ fd → lim.max ≤ fd → t fd = none := by
  obtain ⟨f, hlow, hfds⟩ := fds_pause hrun hpc
  rw [hfds]
  exact devNull_left_iff hlow

end Steps

/-- The hard limit is 8. -/
def fewLimits : Limits := ⟨8, 8⟩

/-- A terminal, open at these descriptors. -/
def openAt (fds : List ℕ) : FdTable String :=
  fun fd => if fd ∈ fds then some "/dev/tty" else none

/-- The process is started with this table. -/
def startWith (t : FdTable String) : Process String :=
  Process.start t (fun _ => .default) (fun _ => false) 0o22

/-- Every call succeeds, and the process is the child each time. -/
def toPause : List Label :=
  List.replicate 73 (.call .ok) ++ [.child, .call .ok, .child] ++ List.replicate 7 (.call .ok)

/-- The daemon started from a terminal, with descriptor 5 open as well. -/
theorem devNull_iff_at :
    ∃ s : Process String,
      run (step "/dev/null" fewLimits) (startWith (openAt [0, 1, 2, 5])) toPause = some s ∧
        s.pc = .pause ∧ DevNull "/dev/null" s.fds := by
  obtain ⟨s, hs, hpc⟩ : ∃ s : Process String,
      run (step "/dev/null" fewLimits) (startWith (openAt [0, 1, 2, 5])) toPause = some s ∧
        s.pc = .pause := ⟨_, rfl, rfl⟩
  refine ⟨s, hs, hpc, (devNull_iff hs hpc).mpr ⟨fun fd hfd => ?_, fun fd _ h8 => if_neg ?_⟩⟩
  · have hmem : fd ∈ [0, 1, 2, 5] := by
      simp only [List.mem_cons]
      omega
    rw [openAt, if_pos hmem]
    exact Option.some_ne_none _
  · have hge : 8 ≤ fd := h8
    simp only [List.mem_cons, List.not_mem_nil, or_false]
    omega

/-- **Standard input closed at the start**: it is closed in the daemon, too. -/
theorem stdin_closed :
    ∃ s : Process String,
      run (step "/dev/null" fewLimits) (startWith (openAt [1, 2])) toPause = some s ∧
        s.pc = .pause ∧ s.fds 0 = none ∧ ¬DevNull "/dev/null" s.fds := by
  refine ⟨_, rfl, rfl, rfl, fun h => ?_⟩
  exact absurd (h 0) (by decide)

/-! ### The signals -/

/-- **The signals as they should be**: every handler that can be reset is the default one, and no
signal is blocked. -/
def SignalsReset (s : Process φ) : Prop :=
  (∀ i, 1 ≤ i → i < NSIG → skipped i = false → s.disposition i = .default) ∧
    ∀ i, 1 ≤ i → i < NSIG → s.mask i = false

/-- The handlers of the signals below `n` have been reset. -/
def ResetBelow (n : ℕ) (s : Process φ) : Prop :=
  ∀ i, 1 ≤ i → i < n → skipped i = false → s.disposition i = .default

/-- **What has become of the signals**, by the control point. -/
structure SigOk (mask : ℕ → Bool) (s : Process φ) : Prop where
  mask_eq : s.mask = mask
  reset : match s.pc with
    | .prlimit | .close _ | .ret _ | .exited _ => True
    | .sigaction i => ResetBelow i s
    | _ => ResetBelow NSIG s

section Signals

variable {null : φ} {lim : Limits} {mask : ℕ → Bool} {s s' next : Process φ} {l : Label}
  {ls : List Label} {i : ℕ} {a : Answer} {error : ℤ}

/-- A call that is checked. -/
theorem SigOk.checked (h : SigOk mask s) (hstep : checked s a error next = some s')
    (hnext : SigOk mask next) : SigOk mask s' := by
  rcases checked_cases hstep with rfl | rfl
  · exact hnext
  · exact ⟨h.mask_eq, trivial⟩

/-- A call that is not checked. -/
theorem SigOk.goto (hstep : some next = some s') (hnext : SigOk mask next) : SigOk mask s' := by
  obtain rfl := Option.some.inj hstep
  exact hnext

theorem ResetBelow.skip (h : ResetBelow i s) (hi : skipped i = true) : ResetBelow (i + 1) s := by
  intro j hj hlt hskip
  rcases eq_or_ne j i with rfl | hne
  · rw [hi] at hskip
    cases hskip
  · exact h j hj (by omega) hskip

/-- One more handler is reset. -/
theorem ResetBelow.update (h : ResetBelow i s) {pc : Pc} :
    ResetBelow (i + 1)
      { s with pc := pc, disposition := Function.update s.disposition i .default } := by
  intro j hj hlt hskip
  rcases eq_or_ne j i with rfl | hne
  · exact Function.update_self _ _ _
  · exact (Function.update_of_ne hne _ _).trans (h j hj (by omega) hskip)

/-- **One step** of the process. -/
theorem SigOk.step (h : SigOk mask s) (hstep : DaemonTrad.step null lim s l = some s') :
    SigOk mask s' := by
  have hreset := h.reset
  unfold DaemonTrad.step at hstep
  split at hstep <;> rename_i hpc <;> simp only [hpc] at hreset
  -- the limits, and the closing loop
  · exact h.checked hstep ⟨h.mask_eq, trivial⟩
  · split_ifs at hstep
    · exact SigOk.goto hstep ⟨h.mask_eq, trivial⟩
    · exact SigOk.goto hstep ⟨h.mask_eq, fun i hi hlt => absurd hi (by omega)⟩
  -- the loop that resets the handlers
  · split_ifs at hstep with hlt hskip hok hok
    · exact SigOk.goto hstep ⟨h.mask_eq, hreset.skip hskip⟩
    · exact h.checked hstep ⟨h.mask_eq, hreset.update⟩
    · refine SigOk.goto hstep ⟨h.mask_eq, fun i hi hi' => hreset i hi ?_⟩
      omega
  -- from here on nothing is done to the signals
  · exact h.checked hstep ⟨h.mask_eq, hreset⟩
  · exact SigOk.goto hstep ⟨h.mask_eq, trivial⟩
  · exact SigOk.goto hstep ⟨h.mask_eq, trivial⟩
  · exact SigOk.goto hstep ⟨h.mask_eq, hreset⟩
  · exact h.checked hstep ⟨h.mask_eq, hreset⟩
  · exact SigOk.goto hstep ⟨h.mask_eq, trivial⟩
  · exact SigOk.goto hstep ⟨h.mask_eq, trivial⟩
  · exact SigOk.goto hstep ⟨h.mask_eq, hreset⟩
  · exact SigOk.goto hstep ⟨h.mask_eq, trivial⟩
  · split at hstep
    · exact SigOk.goto hstep ⟨h.mask_eq, hreset⟩
    · exact SigOk.goto hstep ⟨h.mask_eq, trivial⟩
  · exact SigOk.goto hstep ⟨h.mask_eq, trivial⟩
  · split at hstep
    · refine SigOk.goto hstep ⟨h.mask_eq, ?_⟩
      split_ifs <;> exact hreset
    · exact SigOk.goto hstep ⟨h.mask_eq, trivial⟩
  · exact SigOk.goto hstep ⟨h.mask_eq, hreset⟩
  · exact SigOk.goto hstep ⟨h.mask_eq, hreset⟩
  · exact h.checked hstep ⟨h.mask_eq, hreset⟩
  · exact SigOk.goto hstep ⟨h.mask_eq, trivial⟩
  · cases hstep

/-- **The daemon has its signals as it should** – every handler the default one, and no signal
blocked – in its pause, exactly if no signal was blocked at the start. -/
theorem signals_reset_iff {t : FdTable φ} {disposition : ℕ → Disposition} {umask : ℕ}
    (hrun : run (DaemonTrad.step null lim) (Process.start t disposition mask umask) ls = some s)
    (hpc : s.pc = .pause) : SignalsReset s ↔ ∀ i, 1 ≤ i → i < NSIG → mask i = false := by
  have hok : SigOk mask s :=
    run_invariant (P := SigOk mask) (fun _ _ _ h hst => h.step hst) ⟨rfl, trivial⟩ hrun
  have hreset := hok.reset
  simp only [hpc] at hreset
  rw [SignalsReset, hok.mask_eq]
  exact and_iff_right hreset

end Signals

/-- The process is started with these signals blocked, and a handler for each signal. -/
def startBlocking (signals : List ℕ) : Process String :=
  Process.start (openAt [0, 1, 2]) (fun _ => .handler 0) (fun i => decide (i ∈ signals)) 0o22

/-- The daemon started with no signal blocked. -/
theorem signals_reset_iff_at :
    ∃ s : Process String,
      run (step "/dev/null" fewLimits) (startBlocking []) toPause = some s ∧
        s.pc = .pause ∧ SignalsReset s := by
  obtain ⟨s, hs, hpc⟩ : ∃ s : Process String,
      run (step "/dev/null" fewLimits) (startBlocking []) toPause = some s ∧
        s.pc = .pause := ⟨_, rfl, rfl⟩
  exact ⟨s, hs, hpc, (signals_reset_iff hs hpc).mpr fun i _ _ => rfl⟩

/-- **A signal that stays blocked**: `SIGUSR1` is in the daemon, as it was at the start. -/
theorem sigusr1_blocked :
    ∃ s : Process String,
      run (step "/dev/null" fewLimits) (startBlocking [10]) toPause = some s ∧
        s.pc = .pause ∧ s.mask 10 = true ∧ ¬SignalsReset s := by
  refine ⟨_, rfl, rfl, rfl, fun h => ?_⟩
  exact absurd (h.2 10 (by decide) (by decide)) (by decide)

end DaemonTrad

end SystemProgramming
