import SystemProgramming.Runs
import SystemProgramming.Timespec

/-!
# Sleeping on after a signal

`r_sleep` (`common.c`) sleeps by `nanosleep`. A signal that is handled interrupts the call, which
then fails with `EINTR` and reports what is left of the time; the loop asks for that. Any other
failure ends it. The loop of `sleeping_beauty` (`ch12/`) is the same, except that it does not tell
the two ends apart.

What carries the loop is that the time asked for and the time slept so far make up the time that
was asked for at first. So the function returns 0 only when it has all been slept, never asks for
more than what is left, and returns -1 exactly if a call has failed otherwise, in which case there
is nothing else it can come to (`SystemProgramming.RSleep.completes`).

The intervals that are slept are in the labels of a run. That a signal handler leaves `errno` as
it is – or no handler runs between the call and the look at `errno` – is taken for granted.
-/

namespace SystemProgramming

open Runs

namespace RSleep

/-- `EINTR`. -/
def EINTR : ℤ := 4

/-- Where the function stands. -/
inductive Pc where
  /-- About to call `nanosleep`. -/
  | nanosleep
  /-- The call has failed; about to look at `errno`, which is this. -/
  | errno (e : ℤ)
  /-- About to ask for what is left. -/
  | restart
  /-- Returned. -/
  | ret (v : ℤ)
  deriving DecidableEq, Repr

/-- The variables. -/
structure State where
  pc : Pc
  req : Timespec
  rem : Timespec
  deriving DecidableEq, Repr

/-- What happens. -/
inductive Label where
  /-- The call has slept for `d` nanoseconds, and succeeds. -/
  | elapsed (d : ℕ)
  /-- It has slept for `d` nanoseconds when a signal interrupts it, and reports what is left. -/
  | interrupted (d : ℕ) (rem : Timespec)
  /-- It fails for another reason. -/
  | failed (e : ℤ)
  /-- The function goes on. -/
  | go
  deriving DecidableEq, Repr

/-- A time that can be slept. -/
def Valid (t : Timespec) : Prop := 0 ≤ t.tvSec ∧ t.Normal

instance : DecidablePred Valid := fun t => inferInstanceAs (Decidable (0 ≤ t.tvSec ∧ t.Normal))

/-- The loop, which ends in `other` when a call fails for another reason than a signal. The kernel
sleeps at least as long as it is asked to, unless it is interrupted; then it reports exactly what is
left. -/
def loop (other : Pc) (s : State) (l : Label) : Option State :=
  match s.pc, l with
  | .nanosleep, .elapsed d =>
    if Valid s.req ∧ s.req.toNs ≤ d then some { s with pc := .ret 0 } else none
  | .nanosleep, .interrupted d rem =>
    if Valid s.req ∧ Valid rem ∧ rem.toNs = s.req.toNs - d then
      some { s with rem := rem, pc := .errno EINTR }
    else none
  | .nanosleep, .failed e => if e ≠ EINTR then some { s with pc := .errno e } else none
  | .errno e, .go => some { s with pc := if e ≠ EINTR then other else .restart }
  | .restart, .go => some { s with req := s.rem, pc := .nanosleep }
  | _, _ => none

/-- `r_sleep`. -/
def rSleep : State → Label → Option State := loop (.ret (-1))

/-- The loop of `sleeping_beauty`, with the status its `main` exits with. -/
def sleepingBeauty : State → Label → Option State := loop (.ret 0)

/-- The function is called. Nothing is in `rem`. -/
def State.start (sec nsec : Int64) (rem : Timespec) : State :=
  ⟨.nanosleep, ⟨sec.toInt, nsec.toInt⟩, rem⟩

/-- The time that a call slept. -/
def Label.slept : Label → ℕ
  | .elapsed d => d
  | .interrupted d _ => d
  | _ => 0

/-- The time that is slept in a run. -/
def slept (ls : List Label) : ℕ := (ls.map Label.slept).sum

/-- A call failed for another reason than a signal. -/
def Label.IsFailure : Label → Prop
  | .failed e => e ≠ EINTR
  | _ => False

section Balance

variable {other : Pc} {asked : ℤ} {ls : List Label} {s t : State} {l : Label}

theorem slept_append (ls : List Label) (l : Label) : slept (ls ++ [l]) = slept ls + l.slept := by
  rw [slept, slept, List.map_append, List.sum_append]
  rfl

/-- **The balance**: what is asked for, or is going to be, and what has been slept make up the
time `asked`; and whether a call has failed is seen from where the loop stands. -/
def Balanced (other : Pc) (asked : ℤ) (ls : List Label) (s : State) : Prop :=
  match s.pc with
  | .nanosleep => s.req.toNs = asked - slept ls ∧ ∀ l ∈ ls, ¬l.IsFailure
  | .errno e => (e = EINTR ∧ s.rem.toNs = asked - slept ls ∧ ∀ l ∈ ls, ¬l.IsFailure) ∨
      (e ≠ EINTR ∧ ∃ l ∈ ls, l.IsFailure)
  | .restart => s.rem.toNs = asked - slept ls ∧ ∀ l ∈ ls, ¬l.IsFailure
  | .ret v => (v = 0 ∧ asked ≤ slept ls ∧ ∀ l ∈ ls, ¬l.IsFailure) ∨
      (other = .ret v ∧ ∃ l ∈ ls, l.IsFailure)

theorem not_isFailure_append (hls : ∀ l ∈ ls, ¬l.IsFailure) (hl : ¬l.IsFailure) :
    ∀ m ∈ ls ++ [l], ¬m.IsFailure := by
  intro m hm
  rcases List.mem_append.mp hm with h | h
  · exact hls m h
  · obtain rfl := List.mem_singleton.mp h
    exact hl

/-- **What a step preserves.** -/
theorem balanced_step {v : ℤ} (hother : other = .ret v) (hs : Balanced other asked ls s)
    (h : loop other s l = some t) : Balanced other asked (ls ++ [l]) t := by
  obtain ⟨pc, req, rem⟩ := s
  cases pc with
  | nanosleep =>
    obtain ⟨hasked, hls⟩ := hs
    have hreq : req.toNs = asked - slept ls := hasked
    cases l with
    | elapsed d =>
      simp only [loop] at h
      split_ifs at h with hd
      obtain rfl := Option.some.inj h
      refine Or.inl ⟨rfl, ?_, not_isFailure_append hls id⟩
      rw [slept_append, Label.slept]
      omega
    | interrupted d rem' =>
      simp only [loop] at h
      split_ifs at h with hd
      obtain rfl := Option.some.inj h
      refine Or.inl ⟨rfl, ?_, not_isFailure_append hls id⟩
      change rem'.toNs = asked - slept _
      rw [slept_append, Label.slept, hd.2.2]
      omega
    | failed e =>
      simp only [loop] at h
      split_ifs at h with he
      obtain rfl := Option.some.inj h
      exact Or.inr ⟨he, .failed e, List.mem_append_right _ List.mem_cons_self, he⟩
    | go => cases h
  | errno e =>
    cases l with
    | go =>
      obtain rfl := Option.some.inj h
      rcases hs with ⟨rfl, hrem, hls⟩ | ⟨he, l, hl, hfailure⟩
      · refine ⟨?_, not_isFailure_append hls id⟩
        rw [slept_append]
        exact hrem
      · rw [Balanced, if_pos he, hother]
        exact Or.inr ⟨rfl, l, List.mem_append_left _ hl, hfailure⟩
    | _ => cases h
  | restart =>
    obtain ⟨hrem, hls⟩ := hs
    cases l with
    | go =>
      obtain rfl := Option.some.inj h
      refine ⟨?_, not_isFailure_append hls id⟩
      rw [slept_append]
      exact hrem
    | _ => cases h
  | ret v => cases l <;> cases h

theorem balanced_run {v : ℤ} {sec nsec : Int64} {rem : Timespec} (hother : other = .ret v)
    (h : run (loop other) (.start sec nsec rem) ls = some s) :
    Balanced other (State.start sec nsec rem).req.toNs ls s := by
  have hstart : Balanced other (State.start sec nsec rem).req.toNs [] (.start sec nsec rem) :=
    ⟨(sub_zero _).symm, fun l hl => absurd hl List.not_mem_nil⟩
  exact run_history (P := Balanced other (State.start sec nsec rem).req.toNs)
    (fun ls s l t hs h => balanced_step hother hs h) hstart h

/-- Once a call has failed, the function has ended as it does then, or is about to look at `errno`
and to do so. -/
theorem Balanced.of_failure (hs : Balanced other asked ls s)
    (hfailure : ∃ l ∈ ls, l.IsFailure) : s.pc = other ∨ ∃ e, e ≠ EINTR ∧ s.pc = .errno e := by
  obtain ⟨l, hl, hfail⟩ := hfailure
  obtain ⟨pc, req, rem⟩ := s
  cases pc with
  | nanosleep => exact absurd hfail (hs.2 l hl)
  | errno e =>
    rcases hs with ⟨-, -, hnone⟩ | ⟨he, -⟩
    · exact absurd hfail (hnone l hl)
    · exact Or.inr ⟨e, he, rfl⟩
  | restart => exact absurd hfail (hs.2 l hl)
  | ret w =>
    rcases hs with ⟨-, -, hnone⟩ | ⟨hw, -⟩
    · exact absurd hfail (hnone l hl)
    · exact Or.inl hw.symm

/-- **After a failure there is one way to go on**, and it leads to the end. -/
theorem Balanced.ends {v : ℤ} (hother : other = .ret v) (hs : Balanced other asked ls s)
    (hfailure : ∃ l ∈ ls, l.IsFailure) :
    (∃ ms t, run (loop other) s ms = some t ∧ t.pc = other) ∧
      ∀ l t, loop other s l = some t → t.pc = other := by
  subst hother
  have hpc := hs.of_failure hfailure
  obtain ⟨pc, req, rem⟩ := s
  rcases hpc with rfl | ⟨e, he, rfl⟩
  · refine ⟨⟨[], _, rfl, rfl⟩, fun l t h => ?_⟩
    cases l <;> cases h
  · have hgo : loop (.ret v) ⟨.errno e, req, rem⟩ .go = some ⟨.ret v, req, rem⟩ := by
      simp only [loop]
      rw [if_pos he]
    refine ⟨⟨[.go], _, run_cons_eq_some.mpr ⟨_, hgo, rfl⟩, rfl⟩, fun l t h => ?_⟩
    cases l with
    | go =>
      obtain rfl := Option.some.inj (hgo.symm.trans h)
      rfl
    | _ => cases h

end Balance

section Progress

variable {other : Pc} {ls : List Label} {s t : State} {l : Label}

/-- The time that is asked for, or is going to be, can be slept. -/
def Ready (s : State) : Prop :=
  match s.pc with
  | .nanosleep => Valid s.req
  | .errno e => e = EINTR → Valid s.rem
  | .restart => Valid s.rem
  | .ret _ => True

/-- **What a step preserves**: the kernel reports a time that can be slept. -/
theorem ready_step {v : ℤ} (hother : other = .ret v) (hs : Ready s)
    (h : loop other s l = some t) : Ready t := by
  subst hother
  obtain ⟨pc, req, rem⟩ := s
  cases pc with
  | nanosleep =>
    cases l with
    | elapsed d =>
      simp only [loop] at h
      split_ifs at h with hd
      obtain rfl := Option.some.inj h
      trivial
    | interrupted d rem' =>
      simp only [loop] at h
      split_ifs at h with hd
      obtain rfl := Option.some.inj h
      exact fun _ => hd.2.1
    | failed e =>
      simp only [loop] at h
      split_ifs at h with he
      obtain rfl := Option.some.inj h
      exact fun heq => absurd heq he
    | go => cases h
  | errno e =>
    cases l with
    | go =>
      simp only [loop] at h
      split_ifs at h with he <;> obtain rfl := Option.some.inj h
      · trivial
      · exact hs (not_not.mp he)
    | _ => cases h
  | restart =>
    cases l with
    | go =>
      obtain rfl := Option.some.inj h
      exact hs
    | _ => cases h
  | ret v => cases l <;> cases h

/-- A time that can be slept is slept, if no signal comes. -/
theorem exists_slept {req rem : Timespec} (hreq : Valid req) :
    loop other ⟨.nanosleep, req, rem⟩ (.elapsed req.toNs.toNat) = some ⟨.ret 0, req, rem⟩ := by
  simp only [loop]
  rw [if_pos ⟨hreq, Int.self_le_toNat _⟩]

/-- **As long as no call has failed, the sleep can be completed.** -/
theorem exists_completed {asked : ℤ} (hs : Balanced other asked ls s) (hready : Ready s)
    (hnone : ∀ l ∈ ls, ¬l.IsFailure) :
    ∃ ms t, (∀ l ∈ ms, ¬l.IsFailure) ∧ run (loop other) s ms = some t ∧ t.pc = .ret 0 := by
  have hsleep : ∀ req rem, Valid req → ∃ ms t, (∀ l ∈ ms, ¬l.IsFailure) ∧
      run (loop other) ⟨.nanosleep, req, rem⟩ ms = some t ∧ t.pc = .ret 0 := by
    intro req rem hreq
    refine ⟨[.elapsed req.toNs.toNat], _, ?_,
      run_cons_eq_some.mpr ⟨_, exists_slept hreq, rfl⟩, rfl⟩
    rintro l hl
    obtain rfl := List.mem_singleton.mp hl
    exact id
  obtain ⟨pc, req, rem⟩ := s
  cases pc with
  | nanosleep => exact hsleep req rem hready
  | errno e =>
    rcases hs with ⟨rfl, -⟩ | ⟨-, l, hl, hfailure⟩
    · obtain ⟨ms, t, hms, hrun, hpc⟩ := hsleep rem rem (hready rfl)
      refine ⟨.go :: .go :: ms, t, ?_, hrun, hpc⟩
      exact List.forall_mem_cons.mpr ⟨id, List.forall_mem_cons.mpr ⟨id, hms⟩⟩
    · exact absurd hfailure (hnone l hl)
  | restart =>
    obtain ⟨ms, t, hms, hrun, hpc⟩ := hsleep rem rem hready
    exact ⟨.go :: ms, t, List.forall_mem_cons.mpr ⟨id, hms⟩, hrun, hpc⟩
  | ret v =>
    rcases hs with ⟨rfl, -⟩ | ⟨-, l, hl, hfailure⟩
    · exact ⟨[], _, fun l hl => absurd hl List.not_mem_nil, rfl, rfl⟩
    · exact absurd hfailure (hnone l hl)

end Progress

/-- **The sleep is completed**, whatever time is asked for, and however often and whenever a signal
interrupts it: each call asks for exactly what is left, the function returns 0 only when the time
that was asked for has been slept, and -1 exactly if a call has failed for another reason. Once one
has, the function can go on to return -1, and to nothing else; and as long as none has, a time that
can be slept can be slept to its end, and the function then returns 0. -/
theorem completes {sec nsec : Int64} {rem : Timespec} {ls : List Label} {s : State}
    (h : run rSleep (.start sec nsec rem) ls = some s) :
    (s.pc = .nanosleep → s.req.toNs = (State.start sec nsec rem).req.toNs - slept ls) ∧
      (s.pc = .ret 0 → (State.start sec nsec rem).req.toNs ≤ slept ls) ∧
      (∀ v, s.pc = .ret v → (v = 0 ∨ v = -1) ∧ (v = -1 ↔ ∃ l ∈ ls, l.IsFailure)) ∧
      ((∃ l ∈ ls, l.IsFailure) →
        (∃ ms t, run rSleep s ms = some t ∧ t.pc = .ret (-1)) ∧
          ∀ l t, rSleep s l = some t → t.pc = .ret (-1)) ∧
      (Valid (State.start sec nsec rem).req → (∀ l ∈ ls, ¬l.IsFailure) →
        ∃ ms t, (∀ l ∈ ms, ¬l.IsFailure) ∧ run rSleep s ms = some t ∧ t.pc = .ret 0) := by
  have hbalanced := balanced_run rfl h
  have hend := hbalanced
  rw [Balanced] at hend
  refine ⟨fun hpc => ?_, fun hpc => ?_, fun v hpc => ?_, fun hfailure => ?_, fun hreq hnone => ?_⟩
  · rw [hpc] at hend
    exact hend.1
  · rw [hpc] at hend
    rcases hend with ⟨-, hasked, -⟩ | ⟨hv, -⟩
    · exact hasked
    · exact absurd (Pc.ret.inj hv) (by decide)
  · rw [hpc] at hend
    rcases hend with ⟨rfl, -, hnone⟩ | ⟨hv, hsome⟩
    · refine ⟨Or.inl rfl, iff_of_false (by decide) ?_⟩
      rintro ⟨l, hl, hfailure⟩
      exact hnone l hl hfailure
    · obtain rfl := Pc.ret.inj hv
      exact ⟨Or.inr rfl, iff_of_true rfl hsome⟩
  · exact hbalanced.ends rfl hfailure
  · have hready : Ready s := run_invariant (P := Ready) (fun s l t hs hst => ready_step rfl hs hst)
      (show Ready (.start sec nsec rem) from hreq) h
    exact exists_completed hbalanced hready hnone

/-- A signal interrupts the sleep after 0.3 s; what is left is slept, and a little more. -/
def interruptedOnce : List Label :=
  [.interrupted 300000000 ⟨0, 200000000⟩, .go, .go, .elapsed 200000100]

/-- A signal interrupts the sleep after 0.3 s, and the next call fails (with `EFAULT`). -/
def failedThen : List Label := [.interrupted 300000000 ⟨0, 200000000⟩, .go, .go, .failed 14]

/-- Half a second: interrupted once, and completed; and interrupted once, with a failure then,
which makes the function return -1. -/
theorem completes_at :
    (∃ s : State, run rSleep (.start 0 500000000 .zero) interruptedOnce = some s ∧ s.pc = .ret 0 ∧
      (State.start 0 500000000 .zero).req.toNs ≤ slept interruptedOnce ∧
      ¬∃ l ∈ interruptedOnce, l.IsFailure) ∧
    ∃ s : State, run rSleep (.start 0 500000000 .zero) failedThen = some s ∧
      (∃ ms t, run rSleep s ms = some t ∧ t.pc = .ret (-1)) ∧
      ∀ l t, rSleep s l = some t → t.pc = .ret (-1) := by
  have hslept : run rSleep (.start 0 500000000 .zero) interruptedOnce =
      some ⟨.ret 0, ⟨0, 200000000⟩, ⟨0, 200000000⟩⟩ := by decide
  have hfailed : run rSleep (.start 0 500000000 .zero) failedThen =
      some ⟨.errno 14, ⟨0, 200000000⟩, ⟨0, 200000000⟩⟩ := by decide
  have hfailure : ∃ l ∈ failedThen, l.IsFailure :=
    ⟨.failed 14, by decide, show (14 : ℤ) ≠ EINTR by decide⟩
  obtain ⟨-, hasked, hret, -⟩ := completes hslept
  obtain ⟨-, -, -, hends, -⟩ := completes hfailed
  refine ⟨⟨_, hslept, rfl, hasked rfl, fun hsome => ?_⟩, _, hfailed, hends hfailure⟩
  exact absurd ((hret 0 rfl).2.mpr hsome) (by decide)

/-- **`sleeping_beauty`** leaves its loop only when it has slept, or when a call has failed for
another reason than a signal. -/
theorem sleepingBeauty_slept {sec nsec : Int64} {rem : Timespec} {ls : List Label} {s : State}
    (h : run sleepingBeauty (.start sec nsec rem) ls = some s) {v : ℤ} (hpc : s.pc = .ret v) :
    v = 0 ∧ ((State.start sec nsec rem).req.toNs ≤ slept ls ∨ ∃ l ∈ ls, l.IsFailure) := by
  have hend := balanced_run rfl h
  rw [Balanced, hpc] at hend
  rcases hend with ⟨hv, hasked, -⟩ | ⟨hv, hsome⟩
  · exact ⟨hv, Or.inl hasked⟩
  · exact ⟨(Pc.ret.inj hv).symm, Or.inr hsome⟩

end RSleep

end SystemProgramming
