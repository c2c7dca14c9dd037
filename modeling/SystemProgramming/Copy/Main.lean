import SystemProgramming.Copy.MtCopy
import SystemProgramming.Copy.Simpcp

/-!
# The `main` of the copiers

`simpcp1`, `simpcp2` and `mt_copy` have the same `main`, from the point on where the
arguments have been accepted: open the source, ask for its mode (`simpcp1` does
not), open the destination, call the copy function, exit. Every failure is answered
with `FATAL`, and where `FATAL` comes back the program goes on – with a descriptor
that is not one, or past a copy that reported an error.

It is one step function here (`SystemProgramming.CopyMain.step`), over the step
function of the copy it calls (`SystemProgramming.CopyMain.Program`); the three
programs are its instances at the end of the file. A label is the answer to one of
`main`'s own calls, or a label of the copy.

The destination is opened with `O_CREAT | O_WRONLY`, in all three. What that leaves
of the old content is a function of the flags
(`SystemProgramming.CopyMain.openFile`): all of it, since `O_TRUNC` is not among
them.
-/

namespace SystemProgramming

open HandleErr Runs

namespace CopyMain

variable {α σ ι : Type*}

/-- The flags of `open` that decide about a file's content. -/
structure OpenFlags where
  /-- `O_TRUNC` is given. -/
  trunc : Bool
  deriving DecidableEq, Repr

/-- `O_CREAT | O_WRONLY`, the flags all three programs open the destination with. -/
def CREAT_WRONLY : OpenFlags := ⟨false⟩

/-- What a file that held `old` holds when it has been opened. -/
def openFile (flags : OpenFlags) (old : List α) : List α := if flags.trunc then [] else old

/-- The descriptor a call of the copy function is made on. -/
inductive Fd where
  /-- The source's descriptor. -/
  | src
  /-- The destination's descriptor. -/
  | dest
  deriving DecidableEq, Repr

/-- What `main` is given: the copy function, as a step function with a start state for
each content of the destination, and what differs between the programs. -/
structure Program (α σ ι : Type*) where
  /-- `main` calls `stat` on the source. -/
  stats : Bool
  /-- `main` hands the size that `stat` filled in to the copy function. -/
  sizes : Bool
  /-- The flags that the destination is opened with. -/
  flags : OpenFlags
  /-- The copy function is called, with this content in the destination. -/
  start : List α → σ
  /-- A step of the copy function. -/
  step : σ → ι → Option σ
  /-- The value the copy function has returned. -/
  value : σ → Option ℤ
  /-- The descriptor the call of a label is made on, if it is a transfer. -/
  fd : σ → ι → Option Fd
  /-- What the call of a label is answered. -/
  answer : ι → Answer

/-- Where `main` stands. -/
inductive Pc where
  /-- About to open the source. -/
  | openSrc
  /-- That failed; `FATAL` is about to allocate its message. -/
  | openSrcFatal
  /-- About to call `stat` on the source. -/
  | stat
  /-- That failed. -/
  | statFatal
  /-- About to open the destination. -/
  | openDest
  /-- That failed. -/
  | openDestFatal
  /-- In the copy function. -/
  | copying
  /-- That returned an error. -/
  | copyFatal
  /-- The process has exited with this status. -/
  | exited (status : ℤ)
  /-- A size is used that `stat` has not filled in. -/
  | undefined
  deriving DecidableEq, Repr

/-- The state of the process. -/
structure Main (σ : Type*) where
  /-- The control point. -/
  pc : Pc
  /-- The source's descriptor is one. -/
  fdr : Bool
  /-- The destination's descriptor is one. -/
  fdw : Bool
  /-- The state of the copy, and with it the destination file. -/
  copy : σ

variable (P : Program α σ ι)

/-- `main` is called, with `old` in the destination file. -/
def Program.main (old : List α) : Main σ := ⟨.openSrc, false, false, P.start old⟩

/-- The control point behind the opening of the source. -/
def Program.afterSrc : Pc := if P.stats then .stat else .openDest

/-- The control point behind the `stat`, when it failed and `FATAL` came back. -/
def Program.afterStatFatal : Pc := if P.sizes then .undefined else .openDest

/-- A call of `FATAL`, and the control point where the program goes on if it comes
back. -/
def fatal (s : Main σ) (pc : Pc) (a : Answer) : Option (Main σ) :=
  afterFatal a (fun status => { s with pc := .exited status }) { s with pc := pc }

/-- The transfer of the label is made on a descriptor that is not one. -/
def Program.badFd (s : Main σ) (i : ι) : Bool :=
  match P.fd s.copy i with
  | none => false
  | some .src => !s.fdr
  | some .dest => !s.fdw

/-- `main` after a step of the copy function has left it in the state `c`: when it has
returned, its value decides. -/
def Program.gotCopy (s : Main σ) (c : σ) : Main σ :=
  match P.value c with
  | none => { s with copy := c }
  | some v => { s with copy := c, pc := if v < 0 then .copyFatal else .exited 0 }

/-- A step of the copy function. Transfers on a descriptor that is not one fail. -/
def Program.copyStep (s : Main σ) (i : ι) : Option (Main σ) :=
  if P.badFd s i = true ∧ P.answer i ≠ .fail then none
  else (P.step s.copy i).map (P.gotCopy s)

/-- **The step function of the process**, with `old` in the destination file before
it is opened. -/
def step (old : List α) (s : Main σ) (l : Answer ⊕ ι) : Option (Main σ) :=
  match s.pc, l with
  | .openSrc, .inl a => a.status.map fun ok =>
    if ok then { s with pc := P.afterSrc, fdr := true } else { s with pc := .openSrcFatal }
  | .openSrcFatal, .inl a => fatal s P.afterSrc a
  | .stat, .inl a => a.status.map fun ok =>
    if ok then { s with pc := .openDest } else { s with pc := .statFatal }
  | .statFatal, .inl a => fatal s P.afterStatFatal a
  | .openDest, .inl a => a.status.map fun ok =>
    if ok then { s with pc := .copying, fdw := true, copy := P.start (openFile P.flags old) }
    else { s with pc := .openDestFatal }
  | .openDestFatal, .inl a => fatal s .copying a
  | .copying, .inr i => P.copyStep s i
  | .copyFatal, .inl a => fatal s (.exited 0) a
  | _, _ => none

/-- The labels of the copy function, in a list of labels. -/
def copyLabels (ls : List (Answer ⊕ ι)) : List ι := ls.filterMap Sum.getRight?

/-! ### The copy inside a run -/

variable {P} {old : List α} {s t : Main σ} {l : Answer ⊕ ι}

/-- What is true of the copy at each control point: it has not begun, or it has
returned. -/
def AtPoint (P : Program α σ ι) (old : List α) (s : Main σ) : Pc → Prop
  | .copying => True
  | .copyFatal => ∃ v, P.value s.copy = some v
  | .exited status => status = 0 → ∃ v, P.value s.copy = some v
  | .undefined => True
  | _ => s.copy = P.start old

theorem fatal_cases {pc : Pc} {a : Answer} (h : fatal s pc a = some t) :
    t = { s with pc := .exited EXIT_FAILURE } ∨ t = { s with pc := pc } :=
  (afterFatal_cases h).symm

theorem atPoint_exit : AtPoint P old s (.exited EXIT_FAILURE) := by
  rintro ⟨⟩

theorem gotCopy_copy (c : σ) : (P.gotCopy s c).copy = c := by
  rw [Program.gotCopy]
  cases P.value c <;> rfl

theorem atPoint_gotCopy (hpc : s.pc = .copying) (c : σ) :
    AtPoint P old (P.gotCopy s c) (P.gotCopy s c).pc := by
  rw [Program.gotCopy]
  cases hv : P.value c with
  | none =>
    change AtPoint P old _ s.pc
    rw [hpc]
    trivial
  | some v =>
    change AtPoint P old _ (if v < 0 then .copyFatal else .exited 0)
    split_ifs
    · exact ⟨v, hv⟩
    · exact fun _ => ⟨v, hv⟩

/-- **One step of `main`** makes the step of its label in the copy, or leaves the copy
as it is. -/
theorem step_copy (hflags : P.flags.trunc = false) (h : AtPoint P old s s.pc)
    (hstep : step P old s l = some t) :
    AtPoint P old t t.pc ∧ match l with
      | .inl _ => t.copy = s.copy
      | .inr i => P.step s.copy i = some t.copy := by
  have hopen : openFile P.flags old = old := by simp [openFile, hflags]
  obtain ⟨pc, fdr, fdw, c⟩ := s
  change AtPoint P old _ pc at h
  cases l with
  | inl a =>
    cases pc with
    | openSrc =>
      obtain ⟨ok, -, rfl⟩ := Option.map_eq_some_iff.mp hstep
      refine ⟨?_, by split_ifs <;> rfl⟩
      split_ifs
      · change AtPoint P old _ P.afterSrc
        rw [Program.afterSrc]
        split_ifs <;> exact h
      · exact h
    | openSrcFatal =>
      rcases fatal_cases hstep with rfl | rfl
      · exact ⟨atPoint_exit, rfl⟩
      · refine ⟨?_, rfl⟩
        change AtPoint P old _ P.afterSrc
        rw [Program.afterSrc]
        split_ifs <;> exact h
    | stat =>
      obtain ⟨ok, -, rfl⟩ := Option.map_eq_some_iff.mp hstep
      split_ifs <;> exact ⟨h, rfl⟩
    | statFatal =>
      rcases fatal_cases hstep with rfl | rfl
      · exact ⟨atPoint_exit, rfl⟩
      · refine ⟨?_, rfl⟩
        change AtPoint P old _ P.afterStatFatal
        rw [Program.afterStatFatal]
        split_ifs
        · trivial
        · exact h
    | openDest =>
      obtain ⟨ok, -, rfl⟩ := Option.map_eq_some_iff.mp hstep
      split_ifs
      · -- without `O_TRUNC` the copy starts on the old content
        exact ⟨trivial, (congrArg P.start hopen).trans h.symm⟩
      · exact ⟨h, rfl⟩
    | openDestFatal =>
      rcases fatal_cases hstep with rfl | rfl
      · exact ⟨atPoint_exit, rfl⟩
      · exact ⟨trivial, rfl⟩
    | copying => cases hstep
    | copyFatal =>
      rcases fatal_cases hstep with rfl | rfl
      · exact ⟨atPoint_exit, rfl⟩
      · exact ⟨fun _ => h, rfl⟩
    | exited status => cases hstep
    | undefined => cases hstep
  | inr i =>
    cases pc with
    | copying =>
      change P.copyStep _ i = some t at hstep
      rw [Program.copyStep] at hstep
      split_ifs at hstep
      obtain ⟨c', hc', rfl⟩ := Option.map_eq_some_iff.mp hstep
      exact ⟨atPoint_gotCopy rfl c', hc'.trans (congrArg some (gotCopy_copy c').symm)⟩
    | _ => cases hstep

/-- **A run of `main` contains a run of the copy**, and it has returned when `main`
exits with success. -/
theorem run_copy (hflags : P.flags.trunc = false) {ls : List (Answer ⊕ ι)}
    (h : AtPoint P old s s.pc) (hrun : run (step P old) s ls = some t) :
    run P.step s.copy (copyLabels ls) = some t.copy ∧ AtPoint P old t t.pc := by
  induction ls generalizing s with
  | nil =>
    obtain rfl : s = t := by simpa using hrun
    exact ⟨rfl, h⟩
  | cons l ls ih =>
    obtain ⟨u, hu, hrest⟩ := run_cons_eq_some.mp hrun
    obtain ⟨hpoint, hcopy⟩ := step_copy hflags h hu
    obtain ⟨hrun', hpoint'⟩ := ih hpoint hrest
    refine ⟨?_, hpoint'⟩
    cases l with
    | inl a =>
      rw [← hcopy]
      exact hrun'
    | inr i => exact run_cons_eq_some.mpr ⟨u.copy, hcopy, hrun'⟩

/-! ### Replacing the bytes -/

section Map

variable {β τ : Type*} {P' : Program β τ ι} {old' : List β} {f : σ → τ}

/-- The two programs do the same on corresponding states: they differ in the bytes
only. -/
structure SameUpTo (P : Program α σ ι) (P' : Program β τ ι) (old : List α) (old' : List β)
    (f : σ → τ) : Prop where
  stats : P'.stats = P.stats
  sizes : P'.sizes = P.sizes
  answer : ∀ i, P'.answer i = P.answer i
  start : P'.start old' = f (P.start old)
  opened : P'.start (openFile P'.flags old') = f (P.start (openFile P.flags old))
  step : ∀ c i, P'.step (f c) i = (P.step c i).map f
  value : ∀ c, P'.value (f c) = P.value c
  fd : ∀ c i, P'.fd (f c) i = P.fd c i

/-- The same state of `main`, the copy's replaced. -/
def Main.map (f : σ → τ) (s : Main σ) : Main τ := ⟨s.pc, s.fdr, s.fdw, f s.copy⟩

theorem fatal_map (s : Main σ) (pc : Pc) (a : Answer) :
    fatal (s.map f) pc a = (fatal s pc a).map (Main.map f) := by
  rcases ha : a.status with _ | _ | _ <;> simp [fatal, afterFatal, ha, fatalControl, Main.map]

/-- **Replacing the bytes commutes with every step of `main`.** -/
theorem step_map (h : SameUpTo P P' old old' f) (s : Main σ) (l : Answer ⊕ ι) :
    step P' old' (s.map f) l = (step P old s l).map (Main.map f) := by
  obtain ⟨pc, fdr, fdw, c⟩ := s
  have hsrc : P'.afterSrc = P.afterSrc := by rw [Program.afterSrc, Program.afterSrc, h.stats]
  have hstat : P'.afterStatFatal = P.afterStatFatal := by
    rw [Program.afterStatFatal, Program.afterStatFatal, h.sizes]
  cases l with
  | inl a =>
    cases pc with
    | openSrc => rcases ha : a.status with _ | _ | _ <;> simp [step, Main.map, ha, hsrc]
    | openSrcFatal =>
      change fatal _ P'.afterSrc a = (fatal _ P.afterSrc a).map _
      rw [hsrc, ← fatal_map]
    | stat => rcases ha : a.status with _ | _ | _ <;> simp [step, Main.map, ha]
    | statFatal =>
      change fatal _ P'.afterStatFatal a = (fatal _ P.afterStatFatal a).map _
      rw [hstat, ← fatal_map]
    | openDest => rcases ha : a.status with _ | _ | _ <;> simp [step, Main.map, ha, h.opened]
    | openDestFatal => exact fatal_map _ _ _
    -- a step of `main` alone is not one of the copy
    | copying => rfl
    | copyFatal => exact fatal_map _ _ _
    | exited status => rfl
    | undefined => rfl
  | inr i =>
    cases pc with
    | copying =>
      -- whether a call is made on a bad descriptor does not depend on the bytes
      have hbad : P'.badFd (Main.map f ⟨.copying, fdr, fdw, c⟩) i =
          P.badFd ⟨.copying, fdr, fdw, c⟩ i := by
        simp only [Program.badFd, Main.map, h.fd]
      change P'.copyStep _ i = (P.copyStep _ i).map _
      rw [Program.copyStep, Program.copyStep, hbad, h.answer]
      split_ifs
      · rfl
      · change (P'.step (f c) i).map _ = _
        rw [h.step]
        rcases P.step c i with _ | c'
        · rfl
        · simp only [Option.map_some, Program.gotCopy, h.value]
          cases P.value c' <;> rfl
    | _ => rfl

theorem run_main_map (h : SameUpTo P P' old old' f) (ls : List (Answer ⊕ ι)) :
    run (step P' old') (P'.main old') ls =
      (run (step P old) (P.main old) ls).map (Main.map f) := by
  rw [← run_map (step_map h)]
  congr 1
  rw [Program.main, Program.main, Main.map, h.start]

end Map

end CopyMain

/-! ### The three programs -/

open CopyMain

section Programs

variable {α : Type*} [Zero α]

/-- The value that `docopy` has returned. -/
def Simpcp.Copy.value (c : Simpcp.Copy α) : Option ℤ :=
  match c.pc with
  | .ret v => some v
  | _ => none

/-- The descriptor that the next call of `docopy` is made on, if it is a transfer. -/
def Simpcp.Copy.fd (c : Simpcp.Copy α) : Option Fd :=
  match c.pc with
  | .read _ => some .src
  | .write _ _ => some .dest
  | _ => none

/-- The program `simpcp1`. -/
def Simpcp1.program (src : List α) (n : ℕ) (heap : ℕ → α) :
    Program α (Simpcp.Copy α) Answer where
  stats := false
  sizes := false
  flags := CREAT_WRONLY
  start := fun dest => Simpcp.Copy.start dest heap
  step := Simpcp1.docopy src n
  value := Simpcp.Copy.value
  fd := fun c _ => c.fd
  answer := id

/-- The program `simpcp2`. -/
def Simpcp2.program (src : List α) (n : ℕ) (heap : ℕ → α) :
    Program α (Simpcp.Copy α) Answer where
  stats := true
  sizes := false
  flags := CREAT_WRONLY
  start := fun dest => Simpcp.Copy.start dest heap
  step := Simpcp2.docopy src n
  value := Simpcp.Copy.value
  fd := fun c _ => c.fd
  answer := id

/-- The value that `do_mt_copy` has returned. -/
def MtCopy.System.value (s : MtCopy.System α) : Option ℤ :=
  match s.main with
  | .ret v => some v
  | _ => none

/-- The descriptor that a call of `__do_mt_copy` is made on, if it is a transfer. -/
def MtCopy.Seg.fd (g : MtCopy.Seg α) : Option Fd :=
  match g.pc with
  | .read _ => some .src
  | .write _ _ => some .dest
  | _ => none

/-- The descriptor that the next call of a thread is made on, if it is a transfer. -/
def MtCopy.System.fd (s : MtCopy.System α) (th : Thread) : Option Fd :=
  match th with
  | .main => none
  | .worker i =>
    match s.workers[i]? with
    | some (some k) =>
      match k.phase with
      | .segment g => g.fd
      | .remainder g => g.fd
      | .exited => none
    | _ => none

/-- The program `mt_copy`, run with `numthrds` threads. -/
def MtCopy.program (src : List α) (numthrds : ℕ) (heap : ℕ → ℕ → ℕ → α) :
    Program α (MtCopy.System α) (Thread × Answer) where
  stats := true
  sizes := true
  flags := CREAT_WRONLY
  start := MtCopy.System.start
  step := MtCopy.step src numthrds heap
  value := MtCopy.System.value
  fd := fun s l => s.fd l.1
  answer := Prod.snd

end Programs

end SystemProgramming
