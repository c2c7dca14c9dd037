import SystemProgramming.HandleErr
import SystemProgramming.Process.Creds
import SystemProgramming.Runs

/-!
# Giving up root, and becoming root again

`savedset_demo` (`ch7/`), a setuid-root program: it gives up the effective user id of root for the
real one, becomes root again by the saved one, and gives root up for good – or so it seems, since
the saved user id is still that of root.

Whether this works depends on the ids that the program is started with, and whatever its
capabilities are: it needs the effective id of root, and another one that is root's
(`SystemProgramming.SavedSet.status_iff`). It does not depend on a capability since the effective
set is empty once root is given up.
-/

namespace SystemProgramming

open HandleErr Runs

namespace SavedSet

/-- Where `main` stands. -/
inductive Pc where
  /-- About to show the ids, and to look whether it is root. -/
  | start
  /-- It is not. -/
  | rootFatal
  /-- About to take the real user id, at first and in the end. -/
  | drop (again : Bool)
  | dropFatal (again : Bool)
  | showDropped (again : Bool)
  /-- About to become root again. -/
  | raise
  | raiseFatal
  | showRaised
  /-- It has not become root. -/
  | stillFatal
  | exited (status : ℤ)
  deriving DecidableEq, Repr

/-- The process: its credentials, the variable `saved_setuid`, and the real and effective ids that
it has shown. -/
structure State where
  pc : Pc
  cred : Cred
  saved : ℕ
  shown : List (ℕ × ℕ)
  deriving DecidableEq

/-- `main` is called. -/
def start (c : Cred) : State := ⟨.start, c, 0, []⟩

/-- `SHOW_CREDS`. -/
def State.show (p : State) : List (ℕ × ℕ) := p.shown ++ [(p.cred.ruid, p.cred.euid)]

/-- **`main`**. An answer is that of the allocation in a report. -/
def step (p : State) (a : Answer) : Option State :=
  match p.pc with
  | .start =>
    some { p with shown := p.show, pc := if p.cred.euid = 0 then .drop false else .rootFatal }
  | .rootFatal =>
    afterFatal a (fun status => { p with pc := .exited status }) { p with pc := .drop false }
  | .drop again =>
    -- the effective id is saved before the first call
    let saved := if again then p.saved else p.cred.euid
    match p.cred.seteuid p.cred.ruid with
    | some c => some { p with pc := .showDropped again, cred := c, saved := saved }
    | none => some { p with pc := .dropFatal again, saved := saved }
  | .dropFatal again =>
    afterFatal a (fun status => { p with pc := .exited status }) { p with pc := .showDropped again }
  | .showDropped again =>
    some { p with shown := p.show, pc := if again then .exited 0 else .raise }
  | .raise =>
    match p.cred.seteuid p.saved with
    | some c => some { p with pc := .showRaised, cred := c }
    | none => some { p with pc := .raiseFatal }
  | .raiseFatal =>
    afterFatal a (fun status => { p with pc := .exited status }) { p with pc := .showRaised }
  | .showRaised =>
    some { p with shown := p.show, pc := if p.cred.euid = 0 then .drop true else .stillFatal }
  | .stillFatal =>
    afterFatal a (fun status => { p with pc := .exited status }) { p with pc := .drop true }
  | .exited _ => none

/-! ### Whether it works -/

/-- **The condition**: a report that should not come back does not. -/
def Stops (p : State) (a : Answer) : Prop := p.pc = .rootFatal ∨ p.pc = .raiseFatal → a ≠ .err

/-- The ids that the program needs. -/
def Able (c : Cred) : Prop := c.euid = 0 ∧ (c.ruid = 0 ∨ c.suid = 0)

instance : DecidablePred Able := fun c =>
  inferInstanceAs (Decidable (c.euid = 0 ∧ (c.ruid = 0 ∨ c.suid = 0)))

/-- The process has kept the ids that it was started with, its effective id is this one, and the
effective set is empty if it is not root's. -/
structure Has (c₀ : Cred) (u : ℕ) (c : Cred) : Prop where
  ruid : c.ruid = c₀.ruid
  suid : c.suid = c₀.suid
  euid : c.euid = u
  effective : u ≠ 0 → c.effective = ∅

/-- What holds of the process, where it stands. -/
def At (c₀ : Cred) (p : State) : Pc → Prop
  | .start => p.cred = c₀ ∧ p.shown = []
  | .rootFatal => c₀.euid ≠ 0
  | .drop false => Has c₀ 0 p.cred ∧ c₀.euid = 0 ∧ p.shown = [(c₀.ruid, 0)]
  | .showDropped false => Has c₀ c₀.ruid p.cred ∧ c₀.euid = 0 ∧ p.saved = 0 ∧
      p.shown = [(c₀.ruid, 0)]
  | .raise => Has c₀ c₀.ruid p.cred ∧ c₀.euid = 0 ∧ p.saved = 0 ∧
      p.shown = [(c₀.ruid, 0), (c₀.ruid, c₀.ruid)]
  | .raiseFatal => ¬Able c₀
  | .showRaised => Has c₀ 0 p.cred ∧ Able c₀ ∧ p.shown = [(c₀.ruid, 0), (c₀.ruid, c₀.ruid)]
  | .drop true => Has c₀ 0 p.cred ∧ Able c₀ ∧
      p.shown = [(c₀.ruid, 0), (c₀.ruid, c₀.ruid), (c₀.ruid, 0)]
  | .showDropped true => Has c₀ c₀.ruid p.cred ∧ Able c₀ ∧
      p.shown = [(c₀.ruid, 0), (c₀.ruid, c₀.ruid), (c₀.ruid, 0)]
  | .exited status => (status = 1 ∧ ¬Able c₀) ∨ (status = 0 ∧ Able c₀ ∧ Has c₀ c₀.ruid p.cred ∧
      p.shown = [(c₀.ruid, 0), (c₀.ruid, c₀.ruid), (c₀.ruid, 0), (c₀.ruid, c₀.ruid)])
  | _ => False

section Steps

variable {c c' c₀ : Cred} {p q : State} {a : Answer} {as : List Answer} {u : ℕ}

/-- **The effective id is changed**: the others stay, and without root, nothing is effective. -/
theorem Has.seteuid (h : Has c₀ u c) {v : ℕ} (hc : c.seteuid v = some c') : Has c₀ v c' := by
  unfold Cred.seteuid at hc
  obtain ⟨-, hc⟩ := Option.ite_none_right_eq_some.mp hc
  obtain rfl := Option.some.inj hc
  refine ⟨(Cred.ruid_fixup _ _).trans h.ruid, (Cred.suid_fixup _ _).trans h.suid,
    Cred.euid_fixup _ _, fun hv => ?_⟩
  unfold Cred.fixup
  rcases eq_or_ne u 0 with rfl | hu
  · -- root is given up
    have hold : c.euid = 0 := h.euid
    simp [hold, hv]
  · have hnone := h.effective hu
    split_ifs <;> simp_all

/-- **A process can become root** if another id of it is root's, and only then. -/
theorem Has.seteuid_zero (h : Has c₀ u c) (hu : u = c₀.ruid) :
    (∃ c', c.seteuid 0 = some c') ↔ c₀.ruid = 0 ∨ c₀.suid = 0 := by
  unfold Cred.seteuid
  rw [h.ruid, h.suid, h.euid, hu]
  constructor
  · rintro ⟨c', hc⟩
    obtain ⟨hmay, -⟩ := Option.ite_none_right_eq_some.mp hc
    by_cases hzero : c₀.ruid = 0
    · exact Or.inl hzero
    · have hnone := h.effective (hu ▸ hzero)
      rw [hnone] at hmay
      rcases hmay with hcap | hr | hr | hs
      · exact absurd hcap (Finset.notMem_empty _)
      · exact Or.inl hr.symm
      · exact Or.inl hr.symm
      · exact Or.inr hs.symm
  · intro hroot
    refine ⟨_, if_pos ?_⟩
    rcases hroot with hr | hs
    · exact Or.inr (Or.inl hr.symm)
    · exact Or.inr (Or.inr (Or.inr hs.symm))

/-- The real id can always be taken. -/
theorem seteuid_ruid (c : Cred) : c.seteuid c.ruid ≠ none := by
  unfold Cred.seteuid
  rw [if_pos (Or.inr (Or.inl rfl))]
  exact Option.some_ne_none _

/-- **A step.** -/
theorem At.step (hp : At c₀ p p.pc) (hG : Stops p a) (h : step p a = some q) :
    At c₀ q q.pc := by
  rw [SavedSet.step.eq_def] at h
  split at h <;> rename_i hpc <;> rw [hpc] at hp
  case h_1 =>
    obtain rfl := Option.some.inj h
    obtain ⟨rfl, hshown⟩ := hp
    change At p.cred { p with shown := p.show, pc := _ } (if p.cred.euid = 0 then _ else _)
    split_ifs with hroot
    · refine ⟨⟨rfl, rfl, hroot, fun hne => absurd rfl hne⟩, hroot, ?_⟩
      change p.shown ++ _ = _
      rw [hshown, hroot, List.nil_append]
    · exact hroot
  case h_2 =>
    obtain rfl := afterFatal_exits h (hG (Or.inl hpc))
    exact Or.inl ⟨rfl, fun hable => hp hable.1⟩
  case h_3 again =>
    cases hc : p.cred.seteuid p.cred.ruid with
    | none => exact absurd hc (seteuid_ruid _)
    | some c =>
      rw [hc] at h
      obtain rfl := Option.some.inj h
      cases again with
      | false =>
        obtain ⟨hhas, hroot, hshown⟩ := hp
        have hnext := hhas.seteuid hc
        rw [hhas.ruid] at hnext
        exact ⟨hnext, hroot, hhas.euid, hshown⟩
      | true =>
        obtain ⟨hhas, hable, hshown⟩ := hp
        have hnext := hhas.seteuid hc
        rw [hhas.ruid] at hnext
        exact ⟨hnext, hable, hshown⟩
  case h_4 again => cases again <;> exact hp.elim
  case h_5 again =>
    obtain rfl := Option.some.inj h
    have hshow : ∀ {u}, Has c₀ u p.cred → p.show = p.shown ++ [(c₀.ruid, u)] := fun hhas => by
      rw [State.show, hhas.ruid, hhas.euid]
    cases again with
    | false =>
      obtain ⟨hhas, hroot, hsaved, hshown⟩ := hp
      refine ⟨hhas, hroot, hsaved, ?_⟩
      change p.show = _
      rw [hshow hhas, hshown]
      rfl
    | true =>
      obtain ⟨hhas, hable, hshown⟩ := hp
      refine Or.inr ⟨rfl, hable, hhas, ?_⟩
      change p.show = _
      rw [hshow hhas, hshown]
      rfl
  case h_6 =>
    obtain ⟨hhas, hroot, hsaved, hshown⟩ := hp
    have hiff := hhas.seteuid_zero rfl
    rw [hsaved] at h
    split at h
    · rename_i c hc
      obtain rfl := Option.some.inj h
      exact ⟨hhas.seteuid hc, ⟨hroot, hiff.mp ⟨c, hc⟩⟩, hshown⟩
    · rename_i hc
      obtain rfl := Option.some.inj h
      intro hable
      obtain ⟨c, hc'⟩ := hiff.mpr hable.2
      rw [hc] at hc'
      cases hc'
  case h_7 =>
    obtain rfl := afterFatal_exits h (hG (Or.inr hpc))
    exact Or.inl ⟨rfl, hp⟩
  case h_8 =>
    obtain rfl := Option.some.inj h
    obtain ⟨hhas, hable, hshown⟩ := hp
    change At c₀ { p with shown := p.show, pc := _ } (if p.cred.euid = 0 then _ else _)
    rw [if_pos hhas.euid]
    refine ⟨hhas, hable, ?_⟩
    change p.show = _
    rw [State.show, hhas.ruid, hhas.euid, hshown]
    rfl
  case h_9 => exact hp.elim
  case h_10 => cases h

/-- How far `main` is from its end, at most. -/
def Pc.left : Pc → ℕ
  | .start => 12
  | .rootFatal => 11
  | .drop false => 10
  | .dropFatal false => 9
  | .showDropped false => 8
  | .raise => 7
  | .raiseFatal => 6
  | .showRaised => 5
  | .stillFatal => 4
  | .drop true => 3
  | .dropFatal true => 2
  | .showDropped true => 1
  | .exited _ => 0

/-- **`main` can go on**, with answers that let no report come back. -/
theorem exists_step (p : State) (hnot : ¬∃ status, p.pc = .exited status) :
    ∃ q, SavedSet.step p .ok = some q ∧ q.pc.left < p.pc.left := by
  obtain ⟨pc, cred, saved, shown⟩ := p
  cases pc with
  | start =>
    refine ⟨_, rfl, ?_⟩
    change (if cred.euid = 0 then Pc.drop false else .rootFatal).left < 12
    split_ifs <;> decide
  | rootFatal | raiseFatal | stillFatal => exact ⟨_, rfl, Nat.zero_lt_succ _⟩
  | drop again =>
    rw [SavedSet.step]
    dsimp only
    split <;> exact ⟨_, rfl, by cases again <;> simp [Pc.left]⟩
  | dropFatal again => cases again <;> exact ⟨_, rfl, Nat.zero_lt_succ _⟩
  | showDropped again => cases again <;> exact ⟨_, rfl, by simp [Pc.left]⟩
  | raise =>
    rw [SavedSet.step]
    dsimp only
    split <;> exact ⟨_, rfl, by simp [Pc.left]⟩
  | showRaised =>
    refine ⟨_, rfl, ?_⟩
    change (if cred.euid = 0 then Pc.drop true else .stillFatal).left < 5
    split_ifs <;> decide
  | exited status => exact absurd ⟨status, rfl⟩ hnot

/-- **Every run can be continued to an exit.** -/
theorem exists_exited (p : State) : ∃ as q, Every SavedSet.step Stops p as ∧
    run SavedSet.step p as = some q ∧ ∃ status, q.pc = .exited status := by
  have hmove : ∀ p : State, True → ¬(∃ status, p.pc = .exited status) →
      ∃ a q, Stops p a ∧ SavedSet.step p a = some q ∧ True ∧ q.pc.left < p.pc.left := by
    intro p _ hnot
    obtain ⟨q, hq, hless⟩ := exists_step p hnot
    exact ⟨.ok, q, fun _ => by decide, hq, trivial, hless⟩
  obtain ⟨as, q, hG, hrun, -, hexited⟩ :=
    exists_run_of_measure (fun p : State => p.pc.left) hmove p trivial
  exact ⟨as, q, hG, hrun, hexited⟩

/-- **Whether it works**: every run can be continued to an exit, and the program exits in success
exactly if its effective id and another one are root's. Then it has shown itself as root, as its
real user, as root again, and as its real user; and it ends as its real user, with the saved id as
it was. -/
theorem status_iff (hrun : run SavedSet.step (start c₀) as = some p)
    (hG : Every SavedSet.step Stops (start c₀) as) :
    (∃ as' q, Every SavedSet.step Stops p as' ∧ run SavedSet.step p as' = some q ∧
      ∃ status, q.pc = .exited status) ∧
    ∀ status, p.pc = .exited status →
      (status = 0 ↔ Able c₀) ∧
      (status = 0 →
        p.shown = [(c₀.ruid, 0), (c₀.ruid, c₀.ruid), (c₀.ruid, 0), (c₀.ruid, c₀.ruid)] ∧
        p.cred.euid = c₀.ruid ∧ p.cred.suid = c₀.suid) := by
  refine ⟨exists_exited p, fun status hpc => ?_⟩
  have hp : At c₀ p p.pc := hG.invariant (P := fun p => At c₀ p p.pc)
    (fun _ _ _ hp hG hstep => hp.step hG hstep) ⟨rfl, rfl⟩ hrun
  rw [hpc] at hp
  rcases hp with ⟨hstatus, hnot⟩ | ⟨hstatus, hable, hhas, hshown⟩
  · have hne : status ≠ 0 := by omega
    exact ⟨⟨fun h => absurd h hne, fun hable => absurd hable hnot⟩, fun h => absurd h hne⟩
  · exact ⟨⟨fun _ => hable, fun _ => hstatus⟩, fun _ => ⟨hshown, hhas.euid, hhas.suid⟩⟩

end Steps

/-- A setuid-root program of the user 1000: in the end its saved id is still root's. -/
theorem status_iff_setuid : ∃ as p, run step (start ⟨1000, 0, 0, {7}, {7}⟩) as = some p ∧
    p.pc = .exited 0 ∧ p.cred.euid = 1000 ∧ p.cred.suid = 0 := by
  obtain ⟨as, p, hrun, hpc, hok⟩ : ∃ as p, run step (start ⟨1000, 0, 0, {7}, {7}⟩) as = some p ∧
      p.pc = .exited 0 ∧ ∀ a ∈ as, a = .ok :=
    ⟨List.replicate 7 .ok, _, rfl, by decide, fun _ ha => List.eq_of_mem_replicate ha⟩
  have hG : Every step Stops (start ⟨1000, 0, 0, {7}, {7}⟩) as :=
    (every_of_forall hok _).imp fun _ _ ha _ => by rw [ha]; decide
  obtain ⟨-, hids⟩ := (status_iff hrun hG).2 0 hpc
  obtain ⟨-, heuid, hsuid⟩ := hids rfl
  exact ⟨as, p, hrun, hpc, heuid, hsuid⟩

end SavedSet

end SystemProgramming
