import SystemProgramming.HandleErr
import SystemProgramming.Process.Offspring
import SystemProgramming.Process.WaitStatus
import SystemProgramming.Runs

/-!
# Whether the reader has succeeded

`pdf_rdr` (`solutions_to_assgn/ch10/`): a child executes the PDF reader, and the parent waits for it
and prints whether it has succeeded. Both run the same `main`, whose `switch` has no `break`: a
child that cannot execute the reader calls `FATAL`, and if that comes back, goes on with what is
meant for the parent. It waits for children that it does not have, calls `FATAL` again, and if that
comes back too, exits in success.

What the parent prints is what has become of its child, in every run. That the *reader* has
succeeded follows unless the child has come through both
(`SystemProgramming.PdfRdr.reports_success_iff`).
-/

namespace SystemProgramming

open HandleErr Offspring Runs WaitStatus

namespace PdfRdr

/-! ### The processes -/

/-- A line that `interpret_wait` prints. -/
inductive Line where
  | changed (child : ℤ)
  | normal (exstat : ℕ)
  | success
  | failed (exstat : ℕ)
  | abnormal (signal : ℕ) (core : Bool)
  | stopped (signal : ℕ)
  | resumed
  deriving DecidableEq, Repr

/-- `interpret_wait`. -/
def interpretWait (child : ℤ) (wstatus : ℕ) : List Line :=
  .changed child ::
    ((if WIFEXITED wstatus then
        [.normal (WEXITSTATUS wstatus),
          if WEXITSTATUS wstatus = 0 then .success else .failed (WEXITSTATUS wstatus)]
      else []) ++
    (if WIFSIGNALED wstatus then [.abnormal (WTERMSIG wstatus) (WCOREDUMP wstatus ≠ 0)] else []) ++
    (if WIFSTOPPED wstatus then [.stopped (WSTOPSIG wstatus)] else []) ++
    if WIFCONTINUED wstatus then [.resumed] else [])

/-- Where a process stands in `main`. -/
inductive Pc where
  /-- The child has not been forked. -/
  | absent
  | fork
  /-- That failed; `FATAL` is about to allocate its message. -/
  | forkFatal
  /-- About to print that it executes the reader. -/
  | sayExec
  | execv
  /-- That failed, and is warned of. -/
  | execWarn
  /-- `FATAL` is about to allocate the message that the reader could not be executed. -/
  | execFatal
  /-- About to print that it waits. -/
  | sayWait
  | wait
  /-- That failed. -/
  | waitFatal
  /-- About to print what a wait has told it. -/
  | interpret (cpid : ℤ) (wstat : ℕ)
  /-- About to exit. -/
  | exit (status : ℕ)
  | exited (status : ℕ)
  /-- The reader is executed in its place. -/
  | reader
  deriving DecidableEq, Repr

/-- A process: where it stands, and what it has had printed of its wait. -/
structure Proc where
  pc : Pc
  lines : List Line
  deriving DecidableEq, Repr

/-- The parent, its child, and what the kernel keeps of it. -/
structure State where
  parent : Proc
  child : Proc
  table : Table Death

/-- What happens. -/
inductive Label where
  /-- The parent goes on, its call being answered so. -/
  | parent (a : Answer)
  /-- The child does. -/
  | child (a : Answer)
  /-- The wait of the parent returns with a child. -/
  | returns (z : ℕ × Death)
  /-- The reader exits. -/
  | readerExits (status : ℕ)
  /-- A signal kills the child, or the reader. -/
  | kill (signal : ℕ) (core : Bool)
  deriving DecidableEq, Repr

/-- The parent is called with an argument. -/
def State.start : State := ⟨⟨.fork, []⟩, ⟨.absent, []⟩, .empty⟩

/-- **`main`**, with `exec_pdf_reader_app`, in either process, but for its `fork`, a wait that
returns, and its end. -/
def mainStep (q : Proc) (a : Answer) : Option Proc :=
  let goto (pc : Pc) : Proc := { q with pc := pc }
  match q.pc, a with
  | .forkFatal, a => afterFatal a (fun _ => goto (.exit 1)) (goto (.exit 1))
  | .sayExec, a => a.status.map fun _ => goto .execv
  | .execv, a => a.status.map fun ok => goto (if ok then .reader else .execWarn)
  | .execWarn, a => a.status.map fun _ => goto .execFatal
  -- the case for the child ends here, and the one for the parent follows
  | .execFatal, a => afterFatal a (fun _ => goto (.exit 1)) (goto .sayWait)
  | .sayWait, a => a.status.map fun _ => goto .wait
  | .waitFatal, a => afterFatal a (fun _ => goto (.exit 1)) (goto (.interpret (-1) 0))
  | .interpret cpid wstat, a => a.status.map fun _ => ⟨.exit 0, q.lines ++ interpretWait cpid wstat⟩
  | _, _ => none

/-- A step of the parent. -/
def parentStep (p : State) (a : Answer) : Option State :=
  match p.parent.pc with
  | .fork => a.status.map fun ok =>
    if ok then
      { p with parent := { p.parent with pc := .sayWait }, child := { p.child with pc := .sayExec },
               table := p.table.fork }
    else { p with parent := { p.parent with pc := .forkFatal } }
  | .exit status =>
    some { p with parent := { p.parent with pc := .exited status }, table := p.table.orphan }
  | .wait =>
    if p.table.Childless then some { p with parent := { p.parent with pc := .waitFatal } } else none
  | _ => (mainStep p.parent a).map fun q => { p with parent := q }

/-- A step of the child, which has no children. -/
def childStep (p : State) (a : Answer) : Option State :=
  if 0 ∈ p.table.running then
    match p.child.pc with
    | .exit status => (p.table.die 0 (.exited status)).map fun t =>
      { p with child := { p.child with pc := .exited status }, table := t }
    | .wait => some { p with child := { p.child with pc := .waitFatal } }
    | _ => (mainStep p.child a).map fun q => { p with child := q }
  else none

/-- **The step function.** -/
def step (p : State) : Label → Option State
  | .parent a => parentStep p a
  | .child a => childStep p a
  | .returns z =>
    if p.parent.pc = .wait then (p.table.wait z).map fun t =>
      { p with parent := { p.parent with pc := .interpret z.1 z.2.stat }, table := t }
    else none
  | .readerExits status =>
    if p.child.pc = .reader ∧ status < 256 then
      (p.table.die 0 (.exited status)).map fun t => { p with table := t }
    else none
  | .kill signal core =>
    if 1 ≤ signal ∧ signal ≤ 64 then
      (p.table.die 0 (.signaled signal core)).map fun t => { p with table := t }
    else none

/-! ### What the parent prints -/

/-- **The condition**: the child does not come back from its second `FATAL`. -/
def Stops (p : State) (l : Label) : Prop := p.child.pc = .waitFatal → l ≠ .child .err

/-- The lines say that the child has exited with success exactly if it has. -/
theorem success_mem_iff {how : Death} (h : how.Valid) (child : ℤ) :
    .success ∈ interpretWait child how.stat ↔ how = .exited 0 := by
  cases how with
  | exited status =>
    obtain ⟨hexited, hstatus, hsignaled, hstopped, hcontinued⟩ := macros_exited h
    simp only [interpretWait, hexited, hstatus, hsignaled, hstopped, hcontinued]
    by_cases h0 : status = 0 <;> simp [h0]
  | signaled signal core =>
    obtain ⟨hexited, hsignaled, -, -, hstopped, hcontinued⟩ := macros_signaled h
    simp [interpretWait, hexited, hsignaled, hstopped, hcontinued]

/-- What holds of the parent, where it stands: whether it has a child, and what it has printed of
how the child has ended. -/
def ParentAt (p : State) : Pc → Prop
  | .fork => p.table = .empty ∧ p.parent.lines = []
  | .forkFatal => p.table = .empty
  | .sayWait | .wait => p.table.next = 1 ∧ p.parent.lines = [] ∧ p.table.waited = [] ∧
      p.table.dropped = [] ∧ p.table.keeps = true
  | .interpret cpid wstat => p.parent.lines = [] ∧
      ∃ how, p.table.ends 0 = some how ∧ how.Valid ∧ cpid = 0 ∧ wstat = how.stat
  | .exit status | .exited status => status = 0 →
      ∃ how, p.table.ends 0 = some how ∧ how.Valid ∧ p.parent.lines = interpretWait 0 how.stat
  | _ => False

/-- **The invariant.** -/
structure Inv (p : State) : Prop where
  sound : p.table.Sound
  valid : ∀ z ∈ p.table.ended, z.2.Valid
  parent : ParentAt p p.parent.pc
  status : ∀ status, p.child.pc = .exit status → status ≤ 1

section Steps

variable {p q : State} {l : Label} {ls : List Label} {a : Answer} {how : Death} {t : Table Death}

theorem inv_start : Inv .start where
  sound := Table.sound_empty
  valid z hz := by cases hz
  parent := ⟨rfl, rfl⟩
  status _ h := by cases h

/-- A child that has ended stays as it has ended. -/
theorem ends_of_die (hs : p.table.Sound) (hdie : p.table.die 0 how = some t) {d : Death}
    (h : p.table.ends 0 = some d) : t.ends 0 = some d := by
  obtain ⟨hi, -⟩ := Table.die_eq_some hdie
  rw [hs.alive 0 hi] at h
  cases h

/-- **The child ends.** -/
theorem Inv.die (hp : Inv p) (hhow : how.Valid) (hdie : p.table.die 0 how = some t) {u : Proc}
    (hu : ∀ status, u.pc = .exit status → status ≤ 1) :
    Inv { p with child := u, table := t } := by
  obtain ⟨hi, -, -, hnext, hkeeps, hwaited, -, hdropped, hended⟩ := Table.die_eq_some hdie
  refine ⟨hp.sound.die hdie, fun z hz => ?_, ?_, hu⟩
  · rcases List.mem_append.mp (hended.mem_iff.mp hz) with hz | hz
    · exact hp.valid z hz
    · rw [List.mem_singleton.mp hz]
      exact hhow
  · have hparent := hp.parent
    change ParentAt _ p.parent.pc
    cases hpc : p.parent.pc <;> rw [hpc] at hparent
    case fork =>
      rw [hparent.1] at hi
      cases hi
    case forkFatal =>
      rw [show p.table = .empty from hparent] at hi
      cases hi
    case sayWait | wait =>
      obtain ⟨hone, hlines, hnone, hno, hk⟩ := hparent
      refine ⟨hnext.trans hone, hlines, hwaited.trans hnone, ?_, hkeeps.trans hk⟩
      change t.dropped = []
      rw [hdropped, if_pos hk]
      exact hno
    case interpret =>
      obtain ⟨hlines, d, hd, hrest⟩ := hparent
      exact ⟨hlines, d, ends_of_die hp.sound hdie hd, hrest⟩
    case exit | exited =>
      intro h0
      obtain ⟨d, hd, hrest⟩ := hparent h0
      exact ⟨d, ends_of_die hp.sound hdie hd, hrest⟩
    all_goals exact hparent

/-- The child goes on. -/
theorem Inv.child (hp : Inv p) {u : Proc} (hu : ∀ status, u.pc = .exit status → status ≤ 1) :
    Inv { p with child := u } :=
  ⟨hp.sound, hp.valid, hp.parent, hu⟩

/-- A process exits with 0 or 1. -/
theorem mainStep_status {q u : Proc} (h : mainStep q a = some u) :
    ∀ status, u.pc = .exit status → status ≤ 1 := by
  rw [mainStep.eq_def] at h
  dsimp only at h
  split at h
  case h_1 =>
    rcases afterFatal_cases h with rfl | rfl <;> rintro status hs <;> cases hs <;> exact le_rfl
  case h_5 | h_7 =>
    rcases afterFatal_cases h with rfl | rfl <;> rintro status hs <;> cases hs
    exact le_rfl
  case h_3 =>
    obtain ⟨ok, -, rfl⟩ := Option.map_eq_some_iff.mp h
    cases ok <;> rintro status hs <;> cases hs
  case h_8 =>
    obtain ⟨ok, -, rfl⟩ := Option.map_eq_some_iff.mp h
    rintro status hs
    cases hs
    exact Nat.zero_le 1
  case h_9 => cases h
  all_goals
    obtain ⟨ok, -, rfl⟩ := Option.map_eq_some_iff.mp h
    rintro status hs
    cases hs

/-- **A step of the child.** -/
theorem Inv.childStep (hp : Inv p) (h : childStep p a = some q) : Inv q := by
  unfold PdfRdr.childStep at h
  obtain ⟨-, h⟩ := Option.ite_none_right_eq_some.mp h
  split at h <;> rename_i hpc
  · obtain ⟨t, hdie, rfl⟩ := Option.map_eq_some_iff.mp h
    refine hp.die ?_ hdie fun status hs => ?_
    · exact (hp.status _ hpc).trans_lt (by decide)
    · cases hs
  · obtain rfl := Option.some.inj h
    exact hp.child fun status hs => by cases hs
  · obtain ⟨u, hu, rfl⟩ := Option.map_eq_some_iff.mp h
    exact hp.child (mainStep_status hu)

/-- **A step of the parent.** -/
theorem Inv.parentStep (hp : Inv p) (h : parentStep p a = some q) : Inv q := by
  rw [PdfRdr.parentStep.eq_def] at h
  have hparent := hp.parent
  split at h <;> rename_i hpc
  · obtain ⟨ok, -, rfl⟩ := Option.map_eq_some_iff.mp h
    rw [hpc] at hparent
    obtain ⟨htable, hlines⟩ := hparent
    cases ok
    · exact ⟨hp.sound, hp.valid, htable, hp.status⟩
    · refine ⟨hp.sound.fork, hp.valid, ?_, fun status hs => by cases hs⟩
      change p.table.next + 1 = 1 ∧ p.parent.lines = [] ∧ p.table.waited = [] ∧
        p.table.dropped = [] ∧ p.table.keeps = true
      rw [htable]
      exact ⟨rfl, hlines, rfl, rfl, rfl⟩
  · obtain rfl := Option.some.inj h
    rw [hpc] at hparent
    exact ⟨hp.sound.orphan, fun z hz => hp.valid z (Table.mem_ended_orphan.mp hz), hparent,
      hp.status⟩
  · obtain ⟨hnone, h⟩ := Option.ite_none_right_eq_some.mp h
    -- the child is there, or a zombie: the wait of the parent does not fail
    rw [hpc] at hparent
    obtain ⟨hone, -, hwaited, hdropped, -⟩ := hparent
    obtain ⟨hperm, -⟩ := hp.sound.waited_all hnone hdropped
    rw [hwaited, hone] at hperm
    exact absurd hperm.length_eq (by decide)
  · obtain ⟨u, hu, rfl⟩ := Option.map_eq_some_iff.mp h
    refine ⟨hp.sound, hp.valid, ?_, hp.status⟩
    rw [mainStep.eq_def] at hu
    dsimp only at hu
    split at hu
    case h_9 => cases hu
    all_goals rename_i hpc'; rw [hpc'] at hparent
    case h_1 =>
      rcases afterFatal_cases hu with rfl | rfl <;> exact fun h0 => absurd h0 (by decide)
    case h_6 =>
      obtain ⟨ok, -, rfl⟩ := Option.map_eq_some_iff.mp hu
      exact hparent
    case h_8 =>
      obtain ⟨ok, -, rfl⟩ := Option.map_eq_some_iff.mp hu
      obtain ⟨hlines, how, hends, hvalid, rfl, rfl⟩ := hparent
      intro _
      refine ⟨how, hends, hvalid, ?_⟩
      change p.parent.lines ++ interpretWait 0 how.stat = _
      rw [hlines, List.nil_append]
    all_goals exact hparent.elim

/-- **A step.** -/
theorem Inv.step (hp : Inv p) (h : step p l = some q) : Inv q := by
  cases l with
  | parent a => exact hp.parentStep h
  | child a => exact hp.childStep h
  | returns z =>
    unfold PdfRdr.step at h
    obtain ⟨hpc, h⟩ := Option.ite_none_right_eq_some.mp h
    obtain ⟨t, hwait, rfl⟩ := Option.map_eq_some_iff.mp h
    have hparent := hp.parent
    rw [hpc] at hparent
    obtain ⟨hone, hlines, -⟩ := hparent
    obtain ⟨hz, rfl⟩ := Table.wait_eq_some hwait
    have hended : z ∈ p.table.ended := List.mem_append_left _ (List.mem_append_left _ hz)
    have hzero : z.1 = 0 := by
      have hmem := hp.sound.perm.mem_iff.mp
        (List.mem_append_right _ (List.mem_map_of_mem (f := Prod.fst) hended))
      rw [hone] at hmem
      exact Nat.lt_one_iff.mp (List.mem_range.mp hmem)
    refine ⟨hp.sound.wait hwait, fun y hy => hp.valid y ((Table.mem_ended_wait hwait).mp hy),
      ⟨hlines, z.2, ?_, hp.valid z hended, ?_, rfl⟩, hp.status⟩
    · change p.table.ends 0 = some z.2
      rw [← hzero]
      exact hp.sound.ends z hended
    · rw [hzero]
      rfl
  | readerExits status =>
    unfold PdfRdr.step at h
    obtain ⟨⟨-, hlt⟩, h⟩ := Option.ite_none_right_eq_some.mp h
    obtain ⟨t, hdie, rfl⟩ := Option.map_eq_some_iff.mp h
    have hvalid : Death.Valid (.exited status) := hlt
    exact hp.die hvalid hdie hp.status
  | kill signal core =>
    unfold PdfRdr.step at h
    obtain ⟨hsignal, h⟩ := Option.ite_none_right_eq_some.mp h
    obtain ⟨t, hdie, rfl⟩ := Option.map_eq_some_iff.mp h
    have hvalid : Death.Valid (.signaled signal core) := hsignal
    exact hp.die hvalid hdie hp.status

/-- **The child stays what the parent takes it for**: it does not go through the parent's part of
`main`, and only the reader exits with success. -/
structure Honest (p : State) : Prop where
  interpret : ∀ cpid wstat, p.child.pc ≠ .interpret cpid wstat
  exit : p.child.pc ≠ .exit 0
  ends : p.table.ends 0 = some (.exited 0) → p.child.pc = .reader

/-- A child that goes on has not ended. -/
theorem Honest.child (hp : Inv p) (hi : 0 ∈ p.table.running) {u : Proc}
    (hinterpret : ∀ cpid wstat, u.pc ≠ .interpret cpid wstat) (hexit : u.pc ≠ .exit 0) :
    Honest { p with child := u } where
  interpret := hinterpret
  exit := hexit
  ends h := by
    have hnone := hp.sound.alive 0 hi
    rw [show p.table.ends 0 = some (.exited 0) from h] at hnone
    cases hnone

/-- A child that ends, with success only if it is the reader. -/
theorem Honest.die (h : Honest p) (hdie : p.table.die 0 how = some t)
    (hhow : how = .exited 0 → p.child.pc = .reader) : Honest { p with table := t } where
  interpret := h.interpret
  exit := h.exit
  ends h0 := by
    obtain ⟨-, -, hends, -⟩ := Table.die_eq_some hdie
    change t.ends 0 = _ at h0
    rw [hends, Function.update_self] at h0
    exact hhow (Option.some.inj h0)

/-- **A step that stops where it should.** -/
theorem Honest.step (h : Honest p) (hp : Inv p) (hG : Stops p l) (hstep : step p l = some q) :
    Honest q := by
  cases l with
  | parent a =>
    change PdfRdr.parentStep p a = some q at hstep
    rw [PdfRdr.parentStep.eq_def] at hstep
    split at hstep
    · obtain ⟨ok, -, rfl⟩ := Option.map_eq_some_iff.mp hstep
      cases ok
      · exact ⟨h.interpret, h.exit, h.ends⟩
      · rename_i hpc
        have hparent := hp.parent
        rw [hpc] at hparent
        refine ⟨fun _ _ hc => (by cases hc), fun hc => (by cases hc), fun h0 => ?_⟩
        change p.table.ends 0 = _ at h0
        rw [hparent.1] at h0
        cases h0
    · obtain rfl := Option.some.inj hstep
      exact ⟨h.interpret, h.exit, h.ends⟩
    · obtain ⟨-, hstep⟩ := Option.ite_none_right_eq_some.mp hstep
      obtain rfl := Option.some.inj hstep
      exact ⟨h.interpret, h.exit, h.ends⟩
    · obtain ⟨u, -, rfl⟩ := Option.map_eq_some_iff.mp hstep
      exact ⟨h.interpret, h.exit, h.ends⟩
  | child a =>
    change PdfRdr.childStep p a = some q at hstep
    unfold PdfRdr.childStep at hstep
    replace hstep := Option.ite_none_right_eq_some.mp hstep
    obtain ⟨hi, hstep⟩ := hstep
    split at hstep
    · rename_i status hpc
      obtain ⟨t, hdie, rfl⟩ := Option.map_eq_some_iff.mp hstep
      have hne : status ≠ 0 := by
        rintro rfl
        exact h.exit hpc
      obtain ⟨-, -, hends, -⟩ := Table.die_eq_some hdie
      refine ⟨fun _ _ hc => (by cases hc), fun hc => (by cases hc), fun h0 => ?_⟩
      change t.ends 0 = _ at h0
      rw [hends, Function.update_self] at h0
      exact absurd (Death.exited.inj (Option.some.inj h0)) hne
    · obtain rfl := Option.some.inj hstep
      exact Honest.child hp hi (fun _ _ hc => by cases hc) fun hc => by cases hc
    · obtain ⟨u, hu, rfl⟩ := Option.map_eq_some_iff.mp hstep
      rw [mainStep.eq_def] at hu
      dsimp only at hu
      split at hu
      case h_7 hwait =>
        -- its second `FATAL` does not come back
        obtain rfl := afterFatal_exits hu fun herr => hG hwait (by rw [herr])
        exact Honest.child hp hi (fun _ _ hc => by cases hc) fun hc => by cases hc
      case h_8 hinterpret => exact absurd hinterpret (h.interpret _ _)
      case h_9 => cases hu
      case h_1 | h_5 =>
        rcases afterFatal_cases hu with rfl | rfl <;>
          exact Honest.child hp hi (fun _ _ hc => by cases hc) fun hc => by cases hc
      case h_3 =>
        obtain ⟨ok, -, rfl⟩ := Option.map_eq_some_iff.mp hu
        cases ok <;> exact Honest.child hp hi (fun _ _ hc => by cases hc) fun hc => by cases hc
      all_goals
        obtain ⟨ok, -, rfl⟩ := Option.map_eq_some_iff.mp hu
        exact Honest.child hp hi (fun _ _ hc => by cases hc) fun hc => by cases hc
  | returns z =>
    unfold PdfRdr.step at hstep
    obtain ⟨-, hstep⟩ := Option.ite_none_right_eq_some.mp hstep
    obtain ⟨t, hwait, rfl⟩ := Option.map_eq_some_iff.mp hstep
    obtain ⟨-, rfl⟩ := Table.wait_eq_some hwait
    exact ⟨h.interpret, h.exit, h.ends⟩
  | readerExits status =>
    unfold PdfRdr.step at hstep
    obtain ⟨⟨hreader, -⟩, hstep⟩ := Option.ite_none_right_eq_some.mp hstep
    obtain ⟨t, hdie, rfl⟩ := Option.map_eq_some_iff.mp hstep
    exact h.die hdie fun _ => hreader
  | kill signal core =>
    unfold PdfRdr.step at hstep
    obtain ⟨-, hstep⟩ := Option.ite_none_right_eq_some.mp hstep
    obtain ⟨t, hdie, rfl⟩ := Option.map_eq_some_iff.mp hstep
    exact h.die hdie fun hc => by cases hc

/-- **Whether the reader has succeeded**: a parent that has exited in success has printed that its
child exited with success exactly if it did; and it was the reader that did, unless the child has
come back from its second `FATAL`. -/
theorem reports_success_iff (hrun : run PdfRdr.step .start ls = some p)
    (hpc : p.parent.pc = .exited 0) :
    (.success ∈ p.parent.lines ↔ p.table.ends 0 = some (.exited 0)) ∧
    (Every PdfRdr.step Stops .start ls → .success ∈ p.parent.lines → p.child.pc = .reader) := by
  have hp : Inv p := run_invariant (fun _ _ _ hp h => hp.step h) inv_start hrun
  have hparent := hp.parent
  rw [hpc] at hparent
  obtain ⟨how, hends, hvalid, hlines⟩ := hparent rfl
  have hiff : .success ∈ p.parent.lines ↔ p.table.ends 0 = some (.exited 0) := by
    rw [hlines, success_mem_iff hvalid, hends, Option.some.injEq]
  refine ⟨hiff, fun hG hsuccess => ?_⟩
  have hhonest : Inv p ∧ Honest p :=
    hG.invariant (P := fun p => Inv p ∧ Honest p)
      (fun _ _ _ hs hG hstep => ⟨hs.1.step hstep, hs.2.step hs.1 hG hstep⟩)
      ⟨inv_start, fun _ _ hc => (by cases hc), fun hc => (by cases hc), fun hc => (by cases hc)⟩
      hrun
  exact hhonest.2.ends (hiff.mp hsuccess)

end Steps

/-- There is no reader, and no memory for a message: the child goes through both `FATAL`s, exits in
success, and the parent takes it for the reader. -/
theorem reports_success_iff_fooled : ∃ ls p, run step .start ls = some p ∧ p.parent.pc = .exited 0 ∧
    .success ∈ p.parent.lines ∧ p.child.pc ≠ .reader ∧ ¬Every step Stops .start ls := by
  obtain ⟨ls, p, hrun, hpc, hends, hchild⟩ : ∃ ls p, run step .start ls = some p ∧
      p.parent.pc = .exited 0 ∧ p.table.ends 0 = some (.exited 0) ∧ p.child.pc = .exited 0 :=
    ⟨[.parent .ok, .child .ok, .child .err, .child .ok, .child .err, .child .ok, .child .ok,
      .child .err, .child .ok, .child .ok, .parent .ok, .returns (0, .exited 0), .parent .ok,
      .parent .ok], _, rfl, rfl, rfl, rfl⟩
  obtain ⟨hiff, hreader⟩ := reports_success_iff hrun hpc
  have hne : p.child.pc ≠ .reader := by rw [hchild]; simp
  exact ⟨ls, p, hrun, hpc, hiff.mpr hends, hne, fun hG => hne (hreader hG (hiff.mpr hends))⟩

end PdfRdr

end SystemProgramming
