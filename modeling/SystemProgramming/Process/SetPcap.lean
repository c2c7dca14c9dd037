import SystemProgramming.Calls
import SystemProgramming.HandleErr
import SystemProgramming.Process.Creds
import SystemProgramming.Runs

/-!
# Dropping privileges

`set_pcap` (`ch8/`) raises the capability `CAP_SETUID`, shows that it can become root with
it, and then means to become its "normal true self" again: `drop_caps_be_normal` clears all
capabilities and calls `setuid(getuid())`.

In this order. Without `CAP_SETUID` that call changes the effective user id only, and the
saved one stays what it was. A process that was started from a file that sets the user id
to root has root as its saved user id, and can become root again at any time.

The function is one step function (`SystemProgramming.SetPcap.step`), in which the calls
of the capability library may fail and `FATAL` may come back; what the kernel answers to
the others is in the credentials. Root cannot be regained exactly if the saved user id was
not root (`SystemProgramming.SetPcap.dropped_for_good_iff`).
-/

namespace SystemProgramming

open HandleErr Runs

namespace SetPcap

/-! ### The functions -/

/-- Where `drop_caps_be_normal` stands. -/
inductive Pc where
  /-- About to allocate the empty capability state. -/
  | capInit
  /-- That failed; `FATAL` is about to allocate its message. -/
  | capInitFatal
  /-- About to install the empty capability state, which may not be there. -/
  | capSetProc (there : Bool)
  /-- That failed. -/
  | capSetProcFatal (there : Bool)
  /-- About to call `setuid(getuid())`. -/
  | setuid
  /-- That failed. -/
  | setuidFatal
  /-- Returned. -/
  | returned
  /-- The process has exited. -/
  | exited (status : ℤ)
  /-- The state has been freed twice, which leaves everything open. -/
  | undefined
  deriving DecidableEq, Repr

/-- Where the function stands, and the credentials of the process. -/
structure State where
  pc : Pc
  cred : Cred
  deriving DecidableEq

/-- `drop_caps_be_normal` is called. -/
def State.start (c : Cred) : State := ⟨.capInit, c⟩

/-- A call of `FATAL`, with where it comes back to. -/
def State.fatal (s : State) (a : Answer) (back : Pc) : Option State :=
  afterFatal a (fun status => { s with pc := .exited status }) { s with pc := back }

/-- `drop_caps_be_normal`. The kernel's verdict on `cap_set_proc` and `setuid` follows from
the credentials, and their label is `.ok`; the library may refuse a capability state, too,
as it does when there is none. -/
def step (s : State) (a : Answer) : Option State :=
  match s.pc, a with
  | .capInit, a => a.status.map fun ok =>
    { s with pc := if ok then .capSetProc true else .capInitFatal }
  | .capInitFatal, a => s.fatal a (.capSetProc false)
  | .capSetProc there, .ok =>
    match there, s.cred.capSet ∅ ∅ with
    | true, some c => some ⟨.setuid, c⟩
    | _, _ => some { s with pc := .capSetProcFatal there }
  | .capSetProc there, .err => some { s with pc := .capSetProcFatal there }
  -- the state has been freed before the report, and is freed once more behind it
  | .capSetProcFatal there, a => s.fatal a (if there then .undefined else .setuid)
  | .setuid, .ok =>
    match s.cred.setuid s.cred.ruid with
    | some c => some ⟨.returned, c⟩
    | none => some { s with pc := .setuidFatal }
  | .setuidFatal, a => s.fatal a .returned
  | _, _ => none

/-- `test_setuid`: a failure is only warned of. -/
def testSetuid (c : Cred) : Cred := c.call (.seteuid 0)

/-- The effective set that `main` installs, by its option. -/
def raised (opt : ℕ) (c : Cred) : Finset ℕ :=
  if opt = 1 then insert CAP_SETUID c.effective \ {CAP_SYS_ADMIN}
  else insert CAP_SETUID (insert CAP_SYS_ADMIN c.effective)

/-- `main` up to `drop_caps_be_normal`, where its calls succeed: it installs the effective
set and tests whether it can become root. -/
def beforeDrop (opt : ℕ) (c : Cred) : Option Cred :=
  (c.capSet c.permitted (raised opt c)).map testSetuid

/-! ### What is left -/

/-- **Dropped for good**: whatever calls of `seteuid` and `setuid` follow, the process does
not become root. -/
def ForGood (c : Cred) : Prop := ∀ cs, (c.calls cs).euid ≠ 0

section Steps

variable {c d : Cred} {s s' : State} {ls : List Answer} {opt : ℕ}

/-- The credentials that `drop_caps_be_normal` leaves. -/
def dropped (c : Cred) : Cred := ⟨c.ruid, c.ruid, c.suid, ∅, ∅⟩

theorem bare_dropped (c : Cred) : (dropped c).Bare := ⟨rfl, rfl⟩

/-- **The capabilities are gone before the user ids are set**, so only the effective one
changes. -/
theorem setuid_bare (c : Cred) :
    Cred.setuid { c with permitted := ∅, effective := ∅ } c.ruid = some (dropped c) := by
  have hcap : CAP_SETUID ∉ (∅ : Finset ℕ) := Finset.notMem_empty _
  rw [Cred.setuid, if_neg hcap, if_pos (Or.inl rfl), Cred.fixup]
  split_ifs <;> rfl

/-- **What has been done of the drop**, by the control point, while all calls succeed. -/
def AtPoint (c : Cred) (s : State) : Prop :=
  match s.pc with
  | .capInit | .capSetProc true => s.cred = c
  | .setuid => s.cred = { c with permitted := ∅, effective := ∅ }
  | .returned => s.cred = dropped c
  | _ => False

theorem AtPoint.step (h : AtPoint c s) (hstep : step s .ok = some s') :
    AtPoint c s' := by
  obtain ⟨pc, d⟩ := s
  cases pc
  case capInit =>
    obtain rfl : d = c := h
    obtain rfl := Option.some.inj hstep
    exact rfl
  case capSetProc there =>
    cases there
    · exact h.elim
    · obtain rfl : d = c := h
      have hset : d.capSet ∅ ∅ = some { d with permitted := ∅, effective := ∅ } :=
        if_pos ⟨Finset.empty_subset _, Finset.Subset.refl _⟩
      simp only [SetPcap.step, hset] at hstep
      obtain rfl := Option.some.inj hstep
      exact rfl
  case setuid =>
    obtain rfl : d = { c with permitted := ∅, effective := ∅ } := h
    simp only [SetPcap.step, setuid_bare] at hstep
    obtain rfl := Option.some.inj hstep
    exact rfl
  case returned => cases hstep
  all_goals exact h.elim

/-- When its calls succeed, `drop_caps_be_normal` leaves these credentials. -/
theorem run_drop (hok : ∀ a ∈ ls, a = .ok)
    (hrun : run step (State.start c) ls = some s) (hret : s.pc = .returned) :
    s.cred = dropped c := by
  have hpoint : AtPoint c s := by
    refine (every_of_forall hok (State.start c)).invariant (P := AtPoint c) ?_ rfl hrun
    rintro u a v hu rfl hst
    exact hu.step hst
  rw [AtPoint, hret] at hpoint
  exact hpoint

/-- The process that is left can become root exactly if its saved user id is that of
root. -/
theorem forGood_dropped_iff (hr : c.ruid ≠ 0) : ForGood (dropped c) ↔ c.suid ≠ 0 := by
  have hex := Cred.exists_calls_euid_iff (u := 0) (bare_dropped c)
  have hgood : ForGood (dropped c) ↔ ¬∃ cs, ((dropped c).calls cs).euid = 0 := by
    rw [not_exists]
    rfl
  rw [hgood, hex]
  constructor
  · intro hno hs
    exact hno (Or.inr (Or.inr hs.symm))
  · rintro hs (he | he | he)
    · exact hr he.symm
    · exact hr he.symm
    · exact hs he.symm

/-- **The privileges are dropped for good exactly if the saved user id was not root**, for a
real user id that is not root, and any effective user id and capabilities. -/
theorem dropped_for_good_iff (hr : c.ruid ≠ 0) (hok : ∀ a ∈ ls, a = .ok)
    (hrun : run step (State.start c) ls = some s) (hret : s.pc = .returned) :
    ForGood s.cred ↔ c.suid ≠ 0 := by
  rw [run_drop hok hrun hret]
  exact forGood_dropped_iff hr

/-- A process that was started as an ordinary user, from a file with capabilities. -/
theorem dropped_for_good_at :
    ∃ s : State, run step (State.start ⟨1000, 0, 1000, {CAP_SETUID}, {CAP_SETUID}⟩)
        [.ok, .ok, .ok] = some s ∧ s.pc = .returned ∧ ForGood s.cred := by
  obtain ⟨s, hs, hret⟩ : ∃ s : State,
      run step (State.start ⟨1000, 0, 1000, {CAP_SETUID}, {CAP_SETUID}⟩) [.ok, .ok, .ok] =
        some s ∧ s.pc = .returned := ⟨_, rfl, rfl⟩
  exact ⟨s, hs, hret, (dropped_for_good_iff (by decide) (by decide) hs hret).mpr (by decide)⟩

/-- **A process that was started from a file of root's that sets the user id** becomes root
again by `seteuid(0)`. -/
theorem root_regained :
    ∃ s : State, run step (State.start ⟨1000, 0, 0, {CAP_SETUID}, {CAP_SETUID}⟩)
        [.ok, .ok, .ok] = some s ∧ s.pc = .returned ∧ s.cred.euid = 1000 ∧
      (testSetuid s.cred).euid = 0 ∧ ¬ForGood s.cred :=
  ⟨_, rfl, rfl, rfl, rfl, fun h => h [.seteuid 0] rfl⟩

/-- What `main` does before leaves the real and the saved user id as they are. -/
theorem ids_beforeDrop (h : beforeDrop opt c = some d) : d.ruid = c.ruid ∧ d.suid = c.suid := by
  obtain ⟨e, he, rfl⟩ := Option.map_eq_some_iff.mp h
  rw [Cred.capSet] at he
  split_ifs at he
  obtain rfl := Option.some.inj he
  rw [testSetuid, Cred.call, Cred.seteuid]
  split_ifs
  · exact ⟨Cred.ruid_fixup _ _, Cred.suid_fixup _ _⟩
  · exact ⟨rfl, rfl⟩

/-- **The whole of `main`**: what decides is the saved user id the program is started
with. -/
theorem main_for_good_iff (hr : c.ruid ≠ 0) (hmain : beforeDrop opt c = some d)
    (hok : ∀ a ∈ ls, a = .ok) (hrun : run step (State.start d) ls = some s)
    (hret : s.pc = .returned) : ForGood s.cred ↔ c.suid ≠ 0 := by
  obtain ⟨hruid, hsuid⟩ := ids_beforeDrop hmain
  rw [← hruid] at hr
  rw [run_drop hok hrun hret, forGood_dropped_iff hr, hsuid]

end Steps

end SetPcap

end SystemProgramming
