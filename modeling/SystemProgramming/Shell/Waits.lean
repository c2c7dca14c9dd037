import SystemProgramming.Shell.Simpsh

/-!
# Which child a wait returns for

After every fork the shell waits. It never says for whom: `wait`, and `waitpid` with -1,
return for any child. That is the child just forked as long as every earlier one is gone,
and so it is in the second version, whose wait returns only when a child has terminated
(`SystemProgramming.Simpsh.wait_paired`).

The third version asks for stopped and continued children, too. A wait that returns because
the child was stopped leaves it behind, and any later wait may return for it: from then on
the status that is shown may belong to another command than the last, and a child that has
terminated may stay a zombie. As long as every wait returns when the child just forked has
terminated, all is well (`SystemProgramming.Simpsh.waits_paired`).
-/

namespace SystemProgramming

open HandleErr Runs Strings

namespace Simpsh

/-- **Every wait is for the last command**: what it returns is a change of the child forked for
that command, and no earlier child is a zombie. -/
structure Paired (s : Shell) : Prop where
  own : ∀ r ∈ s.reports, r.child = r.command
  noZombie : ∀ (k : ℕ) (c : Child), s.children[k]? = some c → k + 1 < s.children.length →
    c.phase ≠ .zombie

/-- The child just forked has terminated when the wait returns. -/
def Terminated (s : Shell) : Label → Prop
  | .wait _ => (s.children.getLast?).map Child.phase = some .zombie
  | _ => True

instance (s : Shell) : DecidablePred (Terminated s)
  | .wait _ => inferInstanceAs (Decidable ((s.children.getLast?).map Child.phase = some .zombie))
  | .go | .alloc _ | .fork _ | .waitFails | .child _ _ => isTrue trivial

/-- What the verbose shell prints of its waits. -/
def Shell.shown (s : Shell) : List Shown :=
  s.reports.flatMap fun r => interpretWait r.child r.change

/-- The last change of a child that is not waited for yet is its end exactly if it is a
zombie, and after its end it has none. -/
def Child.Sound (c : Child) : Prop :=
  match c.phase with
  | .running | .stopped => ∀ ch, c.news = some ch → ch.isEnd = false
  | .zombie => ∃ ch, c.news = some ch ∧ ch.isEnd = true
  | .reaped => c.news = none

/-- The shell is about to wait, or that has failed. -/
def Pc.waiting : Pc → Bool
  | .wait | .waitFatal => true
  | _ => false

/-- **The invariant**: every child but the one that is waited for has been waited for. -/
structure WaitsOk (s : Shell) : Prop where
  own : ∀ r ∈ s.reports, r.child = r.command
  sound : ∀ (k : ℕ) (c : Child), s.children[k]? = some c → c.Sound
  gone : ∀ (k : ℕ) (c : Child), s.children[k]? = some c →
    s.pc.waiting = false ∨ k + 1 < s.children.length → c.phase = .reaped

section Children

variable {c c' : Child} {ch : Change} {options : Bool}

/-- A child that is gone does not change, and a change keeps a child sound. -/
theorem Child.change_sound (h : c.change ch = some c') : c.phase ≠ .reaped ∧ c'.Sound := by
  obtain ⟨phase, news⟩ := c
  cases phase <;> cases ch <;> simp only [Child.change, Option.some.injEq, reduceCtorEq] at h <;>
    subst h
  -- running, then stopped
  · exact ⟨by simp, _, rfl, rfl⟩
  · exact ⟨by simp, _, rfl, rfl⟩
  · refine ⟨by simp, fun ch hch => ?_⟩
    obtain rfl := Option.some.inj hch
    rfl
  · exact ⟨by simp, _, rfl, rfl⟩
  · refine ⟨by simp, fun ch hch => ?_⟩
    obtain rfl := Option.some.inj hch
    rfl

/-- A child that has news is not gone, and is a zombie exactly if they are of its end. -/
theorem Child.sound_news {n : Change} {phase : Phase} (hs : Child.Sound ⟨phase, some n⟩) :
    phase ≠ .reaped ∧ (phase = .zombie ↔ n.isEnd = true) := by
  cases phase with
  | running => exact ⟨by simp, by simp [hs n rfl]⟩
  | stopped => exact ⟨by simp, by simp [hs n rfl]⟩
  | zombie =>
    obtain ⟨ch, hch, hend⟩ := hs
    obtain rfl := Option.some.inj hch
    exact ⟨by simp, by simp [hend]⟩
  | reaped => cases hs

/-- **A wait returns** for a child that is not gone. It is gone afterwards if it was a
zombie, and it was one if the wait asked for no other. -/
theorem Child.wait_sound (hs : c.Sound) (h : c.wait options = some (ch, c')) :
    c.phase ≠ .reaped ∧ c'.Sound ∧ (c.phase = .zombie → c'.phase = .reaped) ∧
      (options = false → c.phase = .zombie) := by
  obtain ⟨phase, news⟩ := c
  unfold Child.wait at h
  cases news with
  | none => cases h
  | some n =>
    obtain ⟨hgone, hzombie⟩ := Child.sound_news hs
    simp only at h
    split_ifs at h with hend hopt
    · obtain ⟨rfl, rfl⟩ := Prod.mk.inj (Option.some.inj h)
      exact ⟨hgone, rfl, fun _ => rfl, fun _ => hzombie.mpr hend⟩
    · obtain ⟨rfl, rfl⟩ := Prod.mk.inj (Option.some.inj h)
      have hne : phase ≠ .zombie := fun he => hend (hzombie.mp he)
      refine ⟨hgone, ?_, fun he => absurd he hne, fun hf => absurd hf (by simp [hopt])⟩
      cases phase with
      | running => exact fun ch hch => by cases hch
      | stopped => exact fun ch hch => by cases hch
      | zombie => exact absurd rfl hne
      | reaped => exact rfl

end Children

section Runs

variable {v : Version} {input : List UInt8} {s s' : Shell} {l : Label} {ls : List Label}

theorem waitsOk_start : WaitsOk (Shell.start input) where
  own := by simp [Shell.start]
  sound k c h := by simp [Shell.start] at h
  gone k c h := by simp [Shell.start] at h

theorem WaitsOk.paired (h : WaitsOk s) : Paired s where
  own := h.own
  noZombie k c hc hlt := by
    rw [h.gone k c hc (Or.inr hlt)]
    simp

/-- A shell that goes on, its children being as they were: it has not begun to wait, or was
waiting and still is. -/
theorem WaitsOk.goto (h : WaitsOk s) {p : Pc} (hp : p.waiting = false → s.pc.waiting = false)
    {rest cmd : List UInt8} {ended : Option End} :
    WaitsOk { s with pc := p, input := rest, cmd := cmd, ended := ended } where
  own := h.own
  sound := h.sound
  gone k c hc hor := h.gone k c hc (hor.imp_left hp)

/-- What a child is after the state of one has been set. -/
theorem getElem?_set_cases {cs : List Child} {j k : ℕ} {c d : Child}
    (h : (cs.set k c)[j]? = some d) : (j = k ∧ d = c) ∨ (j ≠ k ∧ cs[j]? = some d) := by
  rcases eq_or_ne k j with rfl | hne
  · rw [List.getElem?_set_self' ] at h
    obtain ⟨c', -, hd⟩ := Option.map_eq_some_iff.mp h
    exact Or.inl ⟨rfl, hd.symm⟩
  · rw [List.getElem?_set_ne hne] at h
    exact Or.inr ⟨hne.symm, h⟩

/-- **A child changes**: it is the one that is waited for. -/
theorem WaitsOk.child (h : WaitsOk s) {k : ℕ} {ch : Change}
    (hstep : step v s (.child k ch) = some s') : WaitsOk s' := by
  obtain ⟨c', hbind, rfl⟩ := Option.map_eq_some_iff.mp hstep
  obtain ⟨c, hc, hch⟩ := Option.bind_eq_some_iff.mp hbind
  obtain ⟨hgone, hsound⟩ := Child.change_sound hch
  constructor
  case own => exact h.own
  case sound =>
    intro j d hd
    rcases getElem?_set_cases hd with ⟨-, rfl⟩ | ⟨-, hold⟩
    · exact hsound
    · exact h.sound j d hold
  case gone =>
    intro j d hd hor
    rw [List.length_set] at hor
    rcases getElem?_set_cases hd with ⟨rfl, -⟩ | ⟨-, hold⟩
    · exact absurd (h.gone j c hc hor) hgone
    · exact h.gone j d hold hor

/-- **A command is executed**: every earlier child is gone. -/
theorem WaitsOk.fork (h : WaitsOk s) (hpc : s.pc.waiting = false) {execd : List (List UInt8)} :
    WaitsOk { s with pc := .wait, execd := execd, children := s.children ++ [.new] } := by
  have hcases : ∀ {j : ℕ} {d : Child}, (s.children ++ [Child.new])[j]? = some d →
      (s.children[j]? = some d) ∨ (d = .new ∧ j = s.children.length) := by
    intro j d hd
    rcases Nat.lt_or_ge j s.children.length with hlt | hge
    · rw [List.getElem?_append_left hlt] at hd
      exact Or.inl hd
    · rw [List.getElem?_append_right hge, List.getElem?_singleton] at hd
      split_ifs at hd with hj
      exact Or.inr ⟨(Option.some.inj hd).symm, by omega⟩
  constructor
  case own => exact h.own
  case sound =>
    intro j d hd
    rcases hcases hd with hold | ⟨rfl, -⟩
    · exact h.sound j d hold
    · exact fun ch hch => by cases hch
  case gone =>
    intro j d hd hor
    rcases hcases hd with hold | ⟨-, rfl⟩
    · exact h.gone j d hold (Or.inl hpc)
    · rcases hor with hwait | hlt
      · cases hwait
      · rw [List.length_append, List.length_singleton] at hlt
        omega

/-- The child that a wait returns for is the one forked last. -/
theorem WaitsOk.last (h : WaitsOk s) {k : ℕ} {c : Child} (hc : s.children[k]? = some c)
    (hne : c.phase ≠ .reaped) : k + 1 = s.children.length := by
  have hlt : k < s.children.length := (List.getElem?_eq_some_iff.mp hc).1
  by_contra hlast
  exact hne (h.gone k c hc (Or.inr (by omega)))

/-- **The wait returns** when the child has terminated. -/
theorem WaitsOk.wait (h : WaitsOk s) {k : ℕ} {c c' : Child} {ch : Change}
    (hc : s.children[k]? = some c) (hwait : c.wait v.options = some (ch, c'))
    (hzombie : k + 1 = s.children.length → c.phase = .zombie) :
    WaitsOk { s with
      pc := .getcmd
      children := s.children.set k c'
      reports := s.reports ++ [⟨s.children.length - 1, k, ch⟩] } := by
  obtain ⟨hgone, hsound, hreap, -⟩ := Child.wait_sound (h.sound k c hc) hwait
  have hlast := h.last hc hgone
  constructor
  case own =>
    intro r hr
    rcases List.mem_append.mp hr with hold | hnew
    · exact h.own r hold
    · obtain rfl := List.mem_singleton.mp hnew
      change k = s.children.length - 1
      omega
  case sound =>
    intro j d hd
    rcases getElem?_set_cases hd with ⟨-, rfl⟩ | ⟨-, hold⟩
    · exact hsound
    · exact h.sound j d hold
  case gone =>
    intro j d hd _
    rcases getElem?_set_cases hd with ⟨-, rfl⟩ | ⟨hne, hold⟩
    · exact hreap (hzombie hlast)
    · have hlt : j < s.children.length := (List.getElem?_eq_some_iff.mp hold).1
      exact h.gone j d hold (Or.inr (by omega))

/-- **A step of the shell** that does not come back from a failed wait, and whose waits
return when the child has terminated. -/
theorem WaitsOk.shellStep (h : WaitsOk s) (hfrees : v.freesOnWait = true)
    (hl : v.options = true → Terminated s l) (hstep : shellStep v s l = some s') : WaitsOk s' := by
  unfold Simpsh.shellStep at hstep
  cases hpc : s.pc <;> cases l <;> simp only [hpc, reduceCtorEq] at hstep
  case calloc.alloc a =>
    obtain ⟨ok, -, rfl⟩ := Option.map_eq_some_iff.mp hstep
    cases ok
    · exact h.goto (by simp [hpc, Pc.waiting])
    · exact h.goto (by simp [hpc, Pc.waiting])
  case wait.wait k =>
    split at hstep
    · rename_i ch c' hbind
      obtain rfl := Option.some.inj hstep
      obtain ⟨c, hc, hwait⟩ := Option.bind_eq_some_iff.mp hbind
      refine h.wait hc hwait fun hlast => ?_
      cases hopt : v.options with
      | false => exact (Child.wait_sound (h.sound k c hc) hwait).2.2.2 hopt
      | true =>
        have hterm : (s.children.getLast?).map Child.phase = some .zombie := hl hopt
        rw [List.getLast?_eq_getElem?, ← hlast, Nat.add_sub_cancel, hc] at hterm
        exact Option.some.inj hterm
    · cases hstep
  case callocFatal.alloc a =>
    rcases fatalNoBuffer_cases hstep with ⟨-, rfl⟩ | ⟨-, rfl⟩ <;> exact h.goto id
  case getcmd.go =>
    split at hstep <;> obtain rfl := Option.some.inj hstep <;>
      exact h.goto (by simp [hpc, Pc.waiting])
  case eofFatal.alloc a =>
    rcases fatalNoBuffer_cases hstep with ⟨-, rfl⟩ | ⟨-, rfl⟩ <;> exact h.goto id
  case test.go =>
    split_ifs at hstep <;> obtain rfl := Option.some.inj hstep <;>
      exact h.goto (by simp [hpc, Pc.waiting])
  case fork.fork a =>
    obtain ⟨ok, -, rfl⟩ := Option.map_eq_some_iff.mp hstep
    cases ok
    · exact h.goto (by simp [hpc, Pc.waiting])
    · exact h.fork (by rw [hpc]; rfl)
  case forkFatal.alloc a =>
    rcases fatalNoBuffer_cases hstep with ⟨-, rfl⟩ | ⟨-, rfl⟩ <;> exact h.goto id
  case wait.waitFails =>
    obtain rfl := Option.some.inj hstep
    exact h.goto (by simp [Pc.waiting])
  case waitFatal.alloc a =>
    rw [if_pos hfrees] at hstep
    rcases fatalNoBuffer_cases hstep with ⟨-, rfl⟩ | ⟨-, rfl⟩ <;> exact h.goto id

/-- **One step.** -/
theorem WaitsOk.step (h : WaitsOk s) (hfrees : v.freesOnWait = true)
    (hl : v.options = true → Terminated s l) (hstep : step v s l = some s') : WaitsOk s' := by
  by_cases hchild : ∃ k ch, l = .child k ch
  · obtain ⟨k, ch, rfl⟩ := hchild
    exact h.child hstep
  · obtain ⟨-, hst⟩ := step_shell (fun k ch he => hchild ⟨k, ch, he⟩) hstep
    exact h.shellStep hfrees hl hst

/-- **The second version**, whose wait returns when a child has terminated: it is always the
child of the last command. -/
theorem wait_paired (hrun : run (Simpsh.step .v2) (Shell.start input) ls = some s) : Paired s :=
  (run_invariant (P := WaitsOk) (fun _ _ _ h hst => h.step rfl (fun hopt => by cases hopt) hst)
    waitsOk_start hrun).paired

/-- **The third version**, as long as the child just forked has terminated whenever the wait
returns: it always returns for the child of the last command, and no zombie is left. -/
theorem waits_paired
    (hterm : Every (Simpsh.step .v3) Terminated (Shell.start input) ls)
    (hrun : run (Simpsh.step .v3) (Shell.start input) ls = some s) : Paired s :=
  (hterm.invariant (P := WaitsOk) (fun _ _ _ h hl hst => h.step rfl (fun _ => hl) hst)
    waitsOk_start hrun).paired

end Runs

/-- Three commands, `a`, `b` and `c`. -/
def threeCommands : List UInt8 := [97, 10, 98, 10, 99, 10]

/-- A command is read and executed. -/
def execute : List Label := [.go, .go, .fork .ok]

/-- The first command exits, the second is killed, while the third is running. -/
theorem waits_paired_at :
    ∃ s : Shell, run (step .v3) (Shell.start threeCommands)
        (.alloc .ok :: execute ++ [.child 0 (.exited 0), .wait 0] ++ execute ++
          [.child 1 (.signaled 9 false), .wait 1] ++ execute) = some s ∧
      s.shown = [.statusChanged 0, .normal 0, .statusChanged 1, .abnormal 9 false] ∧ Paired s := by
  obtain ⟨s, hs, hshown⟩ : ∃ s : Shell, run (step .v3) (Shell.start threeCommands)
        (.alloc .ok :: execute ++ [.child 0 (.exited 0), .wait 0] ++ execute ++
          [.child 1 (.signaled 9 false), .wait 1] ++ execute) = some s ∧
      s.shown = [.statusChanged 0, .normal 0, .statusChanged 1, .abnormal 9 false] :=
    ⟨_, rfl, rfl⟩
  exact ⟨s, hs, hshown, waits_paired (by decide) hs⟩

/-- **A stopped command shifts the pairing.** The first command is stopped, and the wait
returns; when it is killed while the second is running, the second wait returns for it. If
instead the second exits as well and the wait returns for that one, the first is a zombie
while the third is running. -/
theorem stopped_shifts :
    (∃ s : Shell, run (step .v3) (Shell.start threeCommands)
        (.alloc .ok :: execute ++ [.child 0 (.stopped 20), .wait 0] ++ execute ++
          [.child 0 (.signaled 9 false), .wait 0]) = some s ∧
      s.reports = [⟨0, 0, .stopped 20⟩, ⟨1, 0, .signaled 9 false⟩] ∧
      s.shown = [.statusChanged 0, .stopped 20, .statusChanged 0, .abnormal 9 false] ∧
      ¬Paired s) ∧
    ∃ s : Shell, run (step .v3) (Shell.start threeCommands)
        (.alloc .ok :: execute ++ [.child 0 (.stopped 20), .wait 0] ++ execute ++
          [.child 0 (.signaled 9 false), .child 1 (.exited 0), .wait 1] ++ execute) = some s ∧
      s.children[0]? = some ⟨.zombie, some (.signaled 9 false)⟩ ∧ ¬Paired s := by
  constructor
  · refine ⟨_, rfl, rfl, rfl, fun h => ?_⟩
    exact absurd (h.own ⟨1, 0, .signaled 9 false⟩ (List.mem_cons_of_mem _ List.mem_cons_self))
      (by decide)
  · exact ⟨_, rfl, rfl, fun h => h.noZombie 0 _ rfl (by decide) rfl⟩

end Simpsh

end SystemProgramming
