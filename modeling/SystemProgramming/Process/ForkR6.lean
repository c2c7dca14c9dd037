import Mathlib.Order.Interval.Finset.Nat
import SystemProgramming.Calls
import SystemProgramming.Cells
import SystemProgramming.HandleErr
import SystemProgramming.Runs
import SystemProgramming.Strings

/-!
# One file offset for two processes

`fork_r6_of` (`ch10/`): a file is open across a `fork`. The child seeks to an offset `s` and
writes `n` lines of `L` bytes; the parent seeks to where the child's lines should end, and
writes `n` lines, too. But the two have one file offset between them, and whoever seeks
second takes the other along.

The lines stay whole, since all places are `s` and a number of lines apart: the file is made
of cells (`SystemProgramming.Cells`), and a line is written to one of them. What may happen
is that the child seeks second, after the parent has written some lines, and all that
follows goes over them. A quarter of the lines is lost at most
(`SystemProgramming.ForkR6.lines_survive`).

The line size, the start offset and the number of lines are constants of type `int`; here
they are numbers, so that no sum of them is too large.
-/

namespace SystemProgramming

open Bytes Cells HandleErr Runs Strings

namespace ForkR6

/-! ### The two processes -/

/-- The two processes. -/
inductive Who where
  | child
  | parent
  deriving DecidableEq, Repr

/-- The other process. -/
def Who.other : Who → Who
  | .child => .parent
  | .parent => .child

/-- Where a process stands, from its call of `work_on_file` on. -/
inductive Pc where
  | calloc
  /-- That failed; `FATAL` is about to allocate its message. -/
  | callocFatal
  | lseek
  /-- That failed, and the buffer has been freed and the file closed. -/
  | lseekFatal
  /-- About to write a line, after `i` others. -/
  | write (i : ℕ)
  /-- That failed, and the buffer has been freed and the file closed. -/
  | writeFatal
  | free
  | close
  /-- The process has exited. -/
  | exited (status : ℤ)
  /-- It has done something whose effect is left open. -/
  | undefined
  deriving DecidableEq, Repr

/-- A process: where it stands, and its buffer. -/
structure Proc where
  pc : Pc
  buf : Buf
  deriving DecidableEq, Repr

/-- The two processes, and what they share: the file, and the offset. -/
structure State where
  procs : Who → Proc
  file : List UInt8
  off : ℕ

namespace State

/-- The processes after the `fork`, with an empty file. -/
def start : State := ⟨fun _ => ⟨.calloc, .null⟩, [], 0⟩

/-- The process `w` goes on to `pc`. -/
def goto (st : State) (w : Who) (pc : Pc) : State :=
  { st with procs := Function.update st.procs w { st.procs w with pc := pc } }

/-- A call of `FATAL` by `w`; where it comes back, the process goes on to `back`. -/
def fatal (st : State) (w : Who) (a : Answer) (back : Pc) : Option State :=
  afterFatal a (fun status => st.goto w (.exited status)) (st.goto w back)

/-- Both processes have exited, with success. -/
def Done (st : State) : Prop := ∀ w, (st.procs w).pc = .exited 0

end State

/-- A line of the process `w`, as it is put in the buffer. -/
def line (L : ℕ) : Who → List UInt8
  | .child => List.replicate (L - 1) 99 ++ [newline]
  | .parent => List.replicate (L - 1) 112 ++ [newline]

/-- Where the process `w` seeks to. -/
def seekto (L s n : ℕ) : Who → ℕ
  | .child => s
  | .parent => s + L * n

/-- The head of the loop. -/
def loop (n i : ℕ) : Pc := if i < n then .write i else .free

/-- **The step function**, with the line size, the start offset and the number of lines: a
process makes its next call, which is answered so. -/
def step (L s n : ℕ) (st : State) : Who × Answer → Option State
  | (w, a) =>
    match (st.procs w).pc with
    | .calloc => a.status.map fun ok =>
        if ok then { st with procs := Function.update st.procs w ⟨.lseek, .live⟩ }
        else st.goto w .callocFatal
    | .callocFatal => st.fatal w a .lseek
    | .lseek => a.status.map fun ok =>
        if ok then
          -- the line is put in the buffer
          { st.goto w (if (st.procs w).buf = .live then loop n 0 else .undefined) with
            off := seekto L s n w }
        else st.goto w .lseekFatal
    | .lseekFatal => st.fatal w a .undefined
    | .write i => (a.transfer L).map fun r =>
        match r with
        | some k =>
          { st.goto w (loop n (i + 1)) with
            file := overwrite st.file st.off ((line L w).take k)
            off := st.off + k }
        | none => st.goto w .writeFatal
    -- the next write fails, and the buffer is freed again
    | .writeFatal => st.fatal w a .undefined
    | .free => a.status.map fun _ => st.goto w .close
    | .close => a.status.map fun _ => st.goto w (.exited 0)
    | .exited _ => none
    | .undefined => none

/-! ### What is left of the lines -/

/-- The cell holds a line of one of the two. -/
def IsLine (L : ℕ) (t : List UInt8) : Prop := t = line L .child ∨ t = line L .parent

instance (L : ℕ) (t : List UInt8) : Decidable (IsLine L t) :=
  inferInstanceAs (Decidable (t = line L .child ∨ t = line L .parent))

/-- The number of the cells below `m` that hold a line. -/
def survivors (L s : ℕ) (f : List UInt8) (m : ℕ) : ℕ :=
  ((Finset.range m).filter fun k => IsLine L (cell s L f k)).card

/-- **What the two processes leave**: a file of cells, at most three for each two lines, each
of which holds a line or is a hole; and three quarters of the lines at least. -/
structure Left (L s n : ℕ) (f : List UInt8) (m : ℕ) : Prop where
  le : m ≤ 3 * n
  length : f.length = s + m * L
  cell : ∀ k < m, IsLine L (cell s L f k) ∨ Cells.cell s L f k = List.replicate L 0
  survivors : 3 * n ≤ 2 * survivors L s f m

/-! ### The invariant -/

/-- The first cell of the lines of `w`, as `w` means it. -/
def first (n : ℕ) : Who → ℕ
  | .child => 0
  | .parent => n

/-- The process has found its place in the file. -/
def Pc.Sought : Pc → Prop
  | .write _ | .free | .close | .exited _ => True
  | _ => False

/-- How many lines a process has written. -/
def Pc.lines (n : ℕ) : Pc → ℕ
  | .write i => i
  | .free | .close | .exited _ => n
  | _ => 0

/-- What holds of a control point that is reached without a failure. -/
def Pc.Fine (n : ℕ) : Pc → Prop
  | .calloc | .lseek | .free | .close => True
  | .write i => i < n
  | .exited status => status = 0
  | _ => False

/-- **Who has sought, and where the lines are**: the cells of `a` lines from where `w`, the first
to seek, has begun, and of `b` lines from where the other has. Before the other seeks, all
lines are those of `w`. -/
inductive Phase (L s n : ℕ) (pc : Who → Pc) (off : ℕ) (written : ℕ → Prop) : Prop where
  | nobody : (∀ w, ¬(pc w).Sought) → (∀ k, ¬written k) → Phase L s n pc off written
  | one (w : Who) : (pc w).Sought → ¬(pc w.other).Sought →
      off = s + (first n w + (pc w).lines n) * L →
      (∀ k, written k ↔ first n w ≤ k ∧ k < first n w + (pc w).lines n) →
      Phase L s n pc off written
  | both (w : Who) (a b : ℕ) : (pc w).Sought → (pc w.other).Sought →
      a + b = (pc w).lines n + (pc w.other).lines n →
      off = s + (first n w.other + b) * L →
      (∀ k, written k ↔ first n w ≤ k ∧ k < first n w + a ∨
        first n w.other ≤ k ∧ k < first n w.other + b) →
      Phase L s n pc off written

/-- **The invariant**, while nothing fails and every write is full. -/
structure Ok (L s n : ℕ) (st : State) : Prop where
  fine : ∀ w, (st.procs w).pc.Fine n
  live : ∀ w, (st.procs w).pc ≠ .calloc → (st.procs w).buf = .live
  cells : ∃ c m, m ≤ 3 * n ∧ Holds s L st.file c m ∧ (∀ k d, c k = some d → IsLine L d) ∧
    Phase L s n (fun w => (st.procs w).pc) st.off fun k => c k ≠ none

/-! ### The lines and the phases -/

section Phases

variable {L s n m off : ℕ} {w : Who} {p : Pc} {pc : Who → Pc} {written : ℕ → Prop}

@[simp] theorem other_other (w : Who) : w.other.other = w := by cases w <;> rfl

theorem other_ne (w : Who) : w.other ≠ w := by cases w <;> simp [Who.other]

theorem eq_or_eq_other (w v : Who) : v = w ∨ v = w.other := by
  cases w <;> cases v <;> simp [Who.other]

theorem length_line (hL : 0 < L) (w : Who) : (line L w).length = L := by
  cases w <;> rw [line, List.length_append, List.length_replicate, List.length_singleton] <;> omega

theorem isLine_line (L : ℕ) (w : Who) : IsLine L (line L w) := by
  cases w
  · exact Or.inl rfl
  · exact Or.inr rfl

theorem first_le (n : ℕ) (w : Who) : first n w ≤ n := by
  cases w
  · exact Nat.zero_le n
  · exact le_refl n

theorem seekto_eq (L s n : ℕ) (w : Who) : seekto L s n w = s + first n w * L := by
  cases w
  · rw [seekto, first, Nat.zero_mul, Nat.add_zero]
  · rw [seekto, first, Nat.mul_comm]

theorem sought_loop (n i : ℕ) : (loop n i).Sought := by
  rw [loop]
  split_ifs <;> trivial

theorem lines_loop {i : ℕ} (hi : i ≤ n) : (loop n i).lines n = i := by
  rw [loop]
  split_ifs with hlt
  · rfl
  · exact le_antisymm (Nat.le_of_not_lt hlt) hi

theorem fine_loop (n i : ℕ) : (loop n i).Fine n := by
  rw [loop]
  split_ifs with hlt
  · exact hlt
  · trivial

theorem Pc.Fine.lines_le (h : p.Fine n) : p.lines n ≤ n := by
  cases p with
  | write i => exact le_of_lt h
  | free | close | exited => exact le_refl n
  | _ => exact Nat.zero_le n

/-- **A step that neither seeks nor writes** changes nothing of the phase. -/
theorem Phase.stay (h : Phase L s n pc off written) (hsought : p.Sought ↔ (pc w).Sought)
    (hlines : p.lines n = (pc w).lines n) :
    Phase L s n (Function.update pc w p) off written := by
  have hs : ∀ v, (Function.update pc w p v).Sought ↔ (pc v).Sought :=
    forall_update (P := fun v (q : Pc) => q.Sought ↔ (pc v).Sought) (fun _ => Iff.rfl) hsought
  have hl : ∀ v, (Function.update pc w p v).lines n = (pc v).lines n :=
    forall_update (P := fun v (q : Pc) => q.lines n = (pc v).lines n) (fun _ => rfl) hlines
  cases h with
  | nobody hno hnone => exact .nobody (fun v => by rw [hs]; exact hno v) hnone
  | one v hv hother hoff hw =>
    refine .one v ((hs v).mpr hv) (by rwa [hs]) ?_ ?_
    · rwa [hl]
    · rwa [hl]
  | both v a b hv hother hab hoff hw =>
    refine .both v a b ((hs v).mpr hv) ((hs _).mpr hother) ?_ hoff hw
    rwa [hl, hl]

/-- **A process seeks**: it is the first to do so, or it takes the other along. -/
theorem Phase.seek (h : Phase L s n pc off written) (hns : ¬(pc w).Sought) (hp : p.Sought)
    (hlines : p.lines n = 0) :
    Phase L s n (Function.update pc w p) (seekto L s n w) written := by
  have hself : Function.update pc w p w = p := Function.update_self ..
  have hother : Function.update pc w p w.other = pc w.other := Function.update_of_ne (other_ne w) ..
  rw [seekto_eq]
  cases h with
  | nobody hno hnone =>
    refine .one w (by rwa [hself]) (by rw [hother]; exact hno _) ?_ fun k => ?_
    · rw [hself, hlines, Nat.add_zero]
    · rw [hself, hlines]
      exact iff_of_false (hnone k) (by omega)
  | one v hv hvo hoff hw =>
    obtain rfl : v = w.other := by
      rcases eq_or_eq_other w v with rfl | h
      · exact absurd hv hns
      · exact h
    refine .both w.other ((pc w.other).lines n) 0 (by rwa [hother]) ?_ ?_ ?_ fun k => ?_
    · rwa [other_other, hself]
    · rw [other_other, hself, hother, hlines]
    · rw [other_other, Nat.add_zero]
    · rw [hw k]
      omega
  | both v a b hv hvo =>
    rcases eq_or_eq_other v w with rfl | rfl
    · exact absurd hv hns
    · exact absurd hvo hns

/-- **A process writes a line**, to a cell. -/
theorem Phase.write (h : Phase L s n pc off written) (hs : (pc w).Sought) (hp : p.Sought)
    (hlines : p.lines n = (pc w).lines n + 1) (hlt : (pc w).lines n < n)
    (hle : (pc w.other).lines n ≤ n) :
    ∃ k < 3 * n, off = s + k * L ∧
      Phase L s n (Function.update pc w p) (off + L) fun j => j = k ∨ written j := by
  have hself : Function.update pc w p w = p := Function.update_self ..
  have hother : Function.update pc w p w.other = pc w.other := Function.update_of_ne (other_ne w) ..
  have hfirst := first_le n
  cases h with
  | nobody hno => exact absurd hs (hno w)
  | one v hv hvo hoff hw =>
    obtain rfl : v = w := by
      rcases eq_or_eq_other v w with h | rfl
      · exact h.symm
      · exact absurd hs hvo
    have hv := hfirst v
    refine ⟨_, by omega, hoff, .one v (by rwa [hself]) (by rwa [hother]) ?_ fun j => ?_⟩
    · rw [hoff, hself, hlines, ← Nat.add_assoc, Nat.succ_mul, Nat.add_assoc]
    · rw [hself, hlines, hw]
      omega
  | both v a b hv hvo hab hoff hw =>
    have hsum : (pc v).lines n + (pc v.other).lines n = (pc w).lines n + (pc w.other).lines n := by
      rcases eq_or_eq_other v w with rfl | rfl
      · rfl
      · rw [other_other, Nat.add_comm]
    have hsum' : (Function.update pc w p v).lines n + (Function.update pc w p v.other).lines n =
        (pc w).lines n + 1 + (pc w.other).lines n := by
      rcases eq_or_eq_other v w with rfl | rfl
      · rw [hself, hother, hlines]
      · rw [other_other] at hother ⊢
        rw [hself, hother, hlines, Nat.add_comm]
    have hsought : ∀ u, (Function.update pc w p u).Sought := by
      refine forall_update (P := fun _ (q : Pc) => q.Sought) (fun u => ?_) hp
      rcases eq_or_eq_other v u with rfl | rfl
      · exact hv
      · exact hvo
    have hv := hfirst v.other
    refine ⟨_, by omega, hoff, .both v a (b + 1) (hsought _) (hsought _) (by omega) ?_
      fun j => ?_⟩
    · rw [hoff, ← Nat.add_assoc, Nat.succ_mul, Nat.add_assoc]
    · rw [hw]
      omega

end Phases

/-! ### What the steps preserve -/

section Steps

variable {L s n m : ℕ} {st st' : State} {w : Who} {p : Pc} {a : Answer}

theorem pc_update (procs : Who → Proc) (w : Who) (q : Proc) :
    (fun v => (Function.update procs w q v).pc) =
      Function.update (fun v => (procs v).pc) w q.pc := by
  funext v
  exact Function.apply_update (fun _ r => Proc.pc r) procs w q v

theorem procs_goto (hlive : (st.procs w).buf = .live) (p : Pc) :
    (st.goto w p).procs = Function.update st.procs w ⟨p, .live⟩ := by
  rw [← hlive]
  rfl

/-- What a step by which `w` comes to `p` does to the file and to the offset. -/
inductive Move (L s n : ℕ) (w : Who) (p : Pc) (st st' : State) : Prop where
  | quiet : (p.Sought ↔ (st.procs w).pc.Sought) → p.lines n = (st.procs w).pc.lines n →
      st'.file = st.file → st'.off = st.off → Move L s n w p st st'
  | seek : ¬(st.procs w).pc.Sought → p.Sought → p.lines n = 0 →
      st'.file = st.file → st'.off = seekto L s n w → Move L s n w p st st'
  | write : (st.procs w).pc.Sought → p.Sought → p.lines n = (st.procs w).pc.lines n + 1 →
      (st.procs w).pc.lines n < n → st'.file = overwrite st.file st.off (line L w) →
      st'.off = st.off + L → Move L s n w p st st'

/-- **What a step does**, where no call fails and every write is full: it moves the process
on, and touches the file and the offset only where it seeks or writes. -/
theorem step_cases (h : step L s n st (w, a) = some st') (hfull : a.IsFull) (hL : 0 < L)
    (hfine : (st.procs w).pc.Fine n)
    (hlive : (st.procs w).pc ≠ .calloc → (st.procs w).buf = .live) :
    ∃ p, st'.procs = Function.update st.procs w ⟨p, .live⟩ ∧ p.Fine n ∧ Move L s n w p st st' := by
  have hok : ∀ {ok}, a.status = some ok → ok = true := by
    intro ok hstatus
    rcases Answer.status_cases hstatus with ⟨-, rfl⟩ | ⟨rfl, -⟩
    · rfl
    · exact absurd rfl hfull.ne_err
  rw [step] at h
  split at h
  case h_1 hpc =>
    obtain ⟨ok, hstatus, rfl⟩ := Option.map_eq_some_iff.mp h
    obtain rfl := hok hstatus
    exact ⟨.lseek, rfl, trivial,
      .quiet (by rw [hpc]; exact Iff.rfl) (by rw [hpc]; rfl) rfl rfl⟩
  case h_3 hpc =>
    have hbuf := hlive (by rw [hpc]; simp)
    obtain ⟨ok, hstatus, rfl⟩ := Option.map_eq_some_iff.mp h
    obtain rfl := hok hstatus
    refine ⟨loop n 0, ?_, fine_loop n 0,
      .seek (by rw [hpc]; exact id) (sought_loop n 0) (lines_loop (Nat.zero_le n)) rfl rfl⟩
    exact (congrArg (fun p => (st.goto w p).procs) (if_pos hbuf)).trans (procs_goto hbuf _)
  case h_5 i hpc =>
    have hbuf := hlive (by rw [hpc]; simp)
    rw [hpc] at hfine
    obtain ⟨r, htransfer, rfl⟩ := Option.map_eq_some_iff.mp h
    obtain rfl : a = .full := by
      rcases hfull with rfl | rfl
      · cases htransfer
      · rfl
    obtain rfl : some L = r := Option.some.inj htransfer
    have htake : (line L w).take L = line L w := List.take_of_length_le (length_line hL w).le
    have hsought : (st.procs w).pc.Sought := by rw [hpc]; trivial
    have hlines : (st.procs w).pc.lines n = i := by rw [hpc]; rfl
    refine ⟨loop n (i + 1), procs_goto hbuf _, fine_loop n (i + 1),
      .write hsought (sought_loop n (i + 1)) ?_ ?_ (congrArg (overwrite st.file st.off) htake) rfl⟩
    · rw [hlines]
      exact lines_loop hfine
    · rw [hlines]
      exact hfine
  case h_7 hpc =>
    have hbuf := hlive (by rw [hpc]; simp)
    obtain ⟨ok, -, rfl⟩ := Option.map_eq_some_iff.mp h
    exact ⟨.close, procs_goto hbuf _, trivial,
      .quiet (by rw [hpc]; exact Iff.rfl) (by rw [hpc]; rfl) rfl rfl⟩
  case h_8 hpc =>
    have hbuf := hlive (by rw [hpc]; simp)
    obtain ⟨ok, -, rfl⟩ := Option.map_eq_some_iff.mp h
    exact ⟨.exited 0, procs_goto hbuf _, rfl,
      .quiet (by rw [hpc]; exact Iff.rfl) (by rw [hpc]; rfl) rfl rfl⟩
  -- no other place is reached without a failure
  case h_9 => cases h
  case h_10 => cases h
  all_goals
    rename_i hpc
    rw [hpc] at hfine
    cases hfine

theorem ok_start (L s n : ℕ) : Ok L s n State.start where
  fine _ := trivial
  live _ h := absurd rfl h
  cells := ⟨_, 0, Nat.zero_le _, holds_nil, fun _ _ h => (by cases h),
    .nobody (fun _ => id) fun _ h => h rfl⟩

/-- **The step lemma.** -/
theorem Ok.step {l : Who × Answer} (h : Ok L s n st) (hL : 0 < L) (hfull : l.2.IsFull)
    (hst : step L s n st l = some st') : Ok L s n st' := by
  obtain ⟨w, a⟩ := l
  obtain ⟨c, m, hm, hholds, hline, hphase⟩ := h.cells
  obtain ⟨p, hprocs, hfine, hmove⟩ := step_cases hst hfull hL (h.fine w) (h.live w)
  have hpc : (fun v => (st'.procs v).pc) = Function.update (fun v => (st.procs v).pc) w p := by
    rw [hprocs, pc_update]
  have hother := (h.fine w.other).lines_le
  refine ⟨?_, ?_, ?_⟩
  · rw [hprocs]
    exact forall_update (P := fun _ (q : Proc) => q.pc.Fine n) h.fine hfine
  · rw [hprocs]
    exact forall_update (P := fun _ (q : Proc) => q.pc ≠ .calloc → q.buf = .live) h.live
      fun _ => rfl
  · cases hmove with
    | quiet hs hl hfile hoff =>
      refine ⟨c, m, hm, by rwa [hfile], hline, ?_⟩
      rw [hpc, hoff]
      exact hphase.stay hs hl
    | seek hns hs hl hfile hoff =>
      refine ⟨c, m, hm, by rwa [hfile], hline, ?_⟩
      rw [hpc, hoff]
      exact hphase.seek hns hs hl
    | write hs hs' hl hlt hfile hoff =>
      obtain ⟨k, hk, hplace, hphase'⟩ := hphase.write hs hs' hl hlt hother
      have hwritten := hholds.write (k := k) hL (length_line hL w)
      refine ⟨Function.update c k (some (line L w)), max m (k + 1), by omega, ?_, ?_, ?_⟩
      · rwa [hfile, hplace]
      · refine forall_update (P := fun _ o => ∀ d, o = some d → IsLine L d) hline ?_
        rintro d hd
        obtain rfl := Option.some.inj hd
        exact isLine_line L w
      · rw [hpc, hoff]
        convert hphase' using 2 with j
        rcases eq_or_ne j k with rfl | hjk
        · simp
        · simp [hjk]

end Steps

/-! ### What is left in the end -/

section Result

variable {L s n m a b : ℕ} {st : State} {ls : List (Who × Answer)} {c : ℕ → Option (List UInt8)}

/-- **A quarter is lost at most**: where the other has begun in front of the first to seek, its
lines go over those of the first, or reach them and end there. -/
theorem card_written (v : Who) (hab : a + b = 2 * n) :
    3 * n ≤ 2 * (Finset.Ico (first n v) (first n v + a) ∪
      Finset.Ico (first n v.other) (first n v.other + b)).card := by
  have hcard := Finset.card_union_add_card_inter (Finset.Ico (first n v) (first n v + a))
    (Finset.Ico (first n v.other) (first n v.other + b))
  rw [Finset.Ico_inter_Ico, Nat.card_Ico, Nat.card_Ico, Nat.card_Ico] at hcard
  cases v with
  | child =>
    simp only [first, Who.other] at hcard ⊢
    omega
  | parent =>
    simp only [first, Who.other] at hcard ⊢
    omega

/-- A cell that has been written holds a line. -/
theorem card_le_survivors (h : Holds s L st.file c m) (hline : ∀ k d, c k = some d → IsLine L d)
    (written : Finset ℕ) (hw : ∀ k ∈ written, c k ≠ none) :
    written.card ≤ survivors L s st.file m := by
  refine Finset.card_le_card fun k hk => ?_
  have hkm : k < m := by
    by_contra hge
    exact hw k hk (h.beyond k (Nat.le_of_not_lt hge))
  obtain ⟨d, hd⟩ := Option.ne_none_iff_exists'.mp (hw k hk)
  rw [Finset.mem_filter, Finset.mem_range, h.cell k hkm, hd]
  exact ⟨hkm, hline k d hd⟩

theorem survivors_le (L s : ℕ) (f : List UInt8) (m : ℕ) : survivors L s f m ≤ m :=
  (Finset.card_filter_le _ _).trans_eq (Finset.card_range m)

theorem Ok.length_le (h : Ok L s n st) : st.file.length ≤ s + 3 * n * L := by
  obtain ⟨c, m, hm, hholds, -⟩ := h.cells
  have hmul : m * L ≤ 3 * n * L := Nat.mul_le_mul_right L hm
  rw [hholds.length]
  split_ifs <;> omega

theorem Ok.left (h : Ok L s n st) (hn : 0 < n) (hdone : st.Done) : ∃ m, Left L s n st.file m := by
  obtain ⟨c, m, hm, hholds, hline, hphase⟩ := h.cells
  have hsought : ∀ w, (st.procs w).pc.Sought := fun w => by rw [hdone w]; trivial
  have hlines : ∀ w, (st.procs w).pc.lines n = n := fun w => by rw [hdone w]; rfl
  cases hphase with
  | nobody hno => exact absurd (hsought .child) (hno .child)
  | one v _ hno => exact absurd (hsought v.other) hno
  | both v a b _ _ hab _ hw =>
    rw [hlines, hlines] at hab
    have hcard := card_written v (show a + b = 2 * n by omega)
    have hle := card_le_survivors hholds hline (Finset.Ico (first n v) (first n v + a) ∪
      Finset.Ico (first n v.other) (first n v.other + b)) fun k hk => by
        rw [Finset.mem_union, Finset.mem_Ico, Finset.mem_Ico] at hk
        exact (hw k).mpr hk
    have hm' := survivors_le L s st.file m
    refine ⟨m, hm, ?_, fun k hk => ?_, by omega⟩
    · rw [hholds.length, if_neg (by omega)]
    · rw [hholds.cell k hk]
      cases hck : c k with
      | none => exact Or.inr rfl
      | some d => exact Or.inl (hline k d hck)

/-- **The lines stay whole, and three quarters of them stay**, whatever the order of the steps
of the two, as long as no call fails and every write is full: the file never gets longer than
`3 n` lines, and in the end each of its cells holds a line of one of the two or is a hole, and
at least half of `3 n` hold a line. -/
theorem lines_survive (hL : 0 < L) (hn : 0 < n) (hfull : ∀ l ∈ ls, l.2.IsFull)
    (hrun : run (step L s n) State.start ls = some st) :
    st.file.length ≤ s + 3 * n * L ∧ (st.Done → ∃ m, Left L s n st.file m) := by
  have hok : Ok L s n st :=
    (every_of_forall hfull State.start).invariant (fun _ _ _ h hl hst => h.step hL hl hst)
      (ok_start L s n) hrun
  exact ⟨hok.length_le, hok.left hn⟩

/-- Two lines of two bytes for each: the parent has written one when the child seeks. The
parent's second line follows the child's first one, and the child's second line goes over the
parent's first. -/
def takenAlong : List (Who × Answer) :=
  [(.parent, .ok), (.child, .ok), (.parent, .ok), (.parent, .full), (.child, .ok), (.child, .full),
    (.parent, .full), (.child, .full), (.parent, .ok), (.child, .ok), (.parent, .ok), (.child, .ok)]

/-- Three of four lines are left, and no fewer can be. -/
theorem lines_survive_at : ∃ st, run (step 2 1 2) State.start takenAlong = some st ∧ st.Done ∧
    st.file = [0, 99, 10, 112, 10, 99, 10] ∧ ∃ m, Left 2 1 2 st.file m := by
  refine ⟨_, rfl, ?_, rfl, (lines_survive (by decide) (by decide)
    (show ∀ l ∈ takenAlong, l.2.IsFull by decide) rfl).2 ?_⟩
  all_goals
    intro w
    cases w <;> rfl

end Result

end ForkR6

end SystemProgramming
