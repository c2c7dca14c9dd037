import SystemProgramming.HandleErr
import SystemProgramming.Spawning

/-!
# A small fork bomb

`smallbomb` (`solutions_to_assgn/ch10/`) forks three times, one fork behind the other, and prints
its PID behind each. Each fork is carried out by every process that is there by then, so that the
processes double with it – as long as it succeeds in all of them.

A process at a fork stands for all those that are still to descend from it. This is what a fork
leaves as it is, in whatever order the processes come to theirs, and what one that fails makes less
for good, even where `FATAL` comes back and the process goes on to its other forks. So the processes
born with the `r`-th fork are `2 ^ (r - 1)` in the end exactly if none of the first `r` forks has
failed anywhere (`SystemProgramming.Smallbomb.born_eq_iff`), and it is the same with the lines that
are printed (`SystemProgramming.Smallbomb.printed_eq`): these depend, besides, on the buffer of
`stdout` being empty at each fork, since a child is born with the buffer of its parent.
-/

namespace SystemProgramming

open HandleErr Runs Spawning

namespace Smallbomb

/-- Where a process stands. -/
inductive Pc where
  | fork
  /-- `fork` failed; `FATAL` is about to allocate its message. -/
  | fatal
  | printf
  | fflush
  /-- In its `pause`, which comes back from a signal that is handled only, and none is. -/
  | pause
  /-- `exit` is about to flush the buffer. -/
  | exit (status : ℤ)
  | exited (status : ℤ)
  deriving DecidableEq, Repr

/-- A process. -/
structure Proc where
  pc : Pc
  /-- How many forks are behind it. -/
  tried : ℕ
  /-- The fork it was born with, counted from 1; 0 for the first process. -/
  born : ℕ
  /-- The PIDs that are printed, and not written yet. -/
  buf : List ℕ
  deriving DecidableEq, Repr

/-- Behind a `FORK_AND_PRINT`, of which there are `rounds`. -/
def Proc.next (rounds : ℕ) (q : Proc) : Proc :=
  { q with pc := if q.tried < rounds then .fork else .pause }

/-- The parent, behind a fork, and a child, which differs from it by when it was born. -/
def Proc.forked (q : Proc) : Proc := { q with pc := .printf, tried := q.tried + 1 }

def Proc.child (q : Proc) : Proc := { q.forked with born := q.tried + 1 }

/-- Behind a fork that failed. -/
def Proc.failed (q : Proc) : Proc := { q with pc := .fatal, tried := q.tried + 1 }

/-- **A call of a process**, the `k`-th to have been created; its number stands for its PID. `out`
is what has been written to `stdout`; the lines that are buffered for it are written one by one to a
terminal, and only by `fflush` and `exit` elsewhere. -/
def call (rounds : ℕ) (terminal : Bool) (_ k : ℕ) (q : Proc) (out : List ℕ) (a : Answer) :
    Option (Move Proc (List ℕ)) :=
  match q.pc with
  | .fork => a.status.map fun ok =>
    if ok then ⟨q.forked, some q.child, out⟩ else ⟨q.failed, none, out⟩
  | .fatal => (afterFatal a (fun status => { q with pc := .exit status })
      { q with pc := .printf }).map fun q' => ⟨q', none, out⟩
  | .printf =>
    let q' := { q with pc := .fflush }
    if terminal then a.status.map fun ok =>
      if ok then ⟨{ q' with buf := [] }, none, out ++ (q.buf ++ [k])⟩
      else ⟨{ q' with buf := q.buf ++ [k] }, none, out⟩
    else
      match a with
      | .ok => some ⟨{ q' with buf := q.buf ++ [k] }, none, out⟩
      | _ => none
  | .fflush => a.status.map fun ok =>
    if ok then ⟨Proc.next rounds { q with buf := [] }, none, out ++ q.buf⟩
    else ⟨q.next rounds, none, out⟩
  | .exit status => a.status.map fun ok =>
    let q' := { q with pc := .exited status }
    if ok then ⟨{ q' with buf := [] }, none, out ++ q.buf⟩ else ⟨q', none, out⟩
  | .pause => none
  | .exited _ => none

/-- The source's three `FORK_AND_PRINT`s. -/
def ROUNDS : ℕ := 3

/-- `main` of a process that has `rounds` of them. -/
def start (rounds : ℕ) : System Proc (List ℕ) := ⟨[Proc.next rounds ⟨.pause, 0, 0, []⟩], []⟩

/-- **The step function.** -/
def step (rounds : ℕ) (terminal : Bool) :
    System Proc (List ℕ) → ℕ × Answer → Option (System Proc (List ℕ)) :=
  Spawning.step (call rounds terminal)

/-- The process is at rest: it pauses, or has exited. -/
def Proc.Rests (q : Proc) : Prop := q.pc = .pause ∨ ∃ status, q.pc = .exited status

/-- The process is going to its other forks. -/
def Pc.alive : Pc → Bool
  | .exit _ | .exited _ => false
  | _ => true

/-- Where the process may stand, having so many forks behind it. -/
def Proc.Placed (rounds : ℕ) (q : Proc) : Prop :=
  match q.pc with
  | .fork => q.tried < rounds
  | .pause => q.tried = rounds
  | _ => 1 ≤ q.tried ∧ q.tried ≤ rounds

/-- **The condition**: no fork of those in `D` fails, counted from 0. -/
def Forks (D : ℕ → Prop) (s : System Proc (List ℕ)) (l : ℕ × Answer) : Prop :=
  ∀ q ∈ s.procs[l.1]?, q.pc = .fork → D q.tried → l.2 ≠ .err

section Steps

variable {rounds n k : ℕ} {terminal : Bool} {q : Proc} {out : List ℕ} {a : Answer}
  {m : Move Proc (List ℕ)} {s s' : System Proc (List ℕ)} {l : ℕ × Answer} {ls : List (ℕ × Answer)}

/-- **What a call does** to the process and to its number of forks. -/
theorem call_cases (h : call rounds terminal n k q out a = some m) :
    (q.pc = .fork ∧ a = .ok ∧ m = ⟨q.forked, some q.child, out⟩) ∨
    (q.pc = .fork ∧ a = .err ∧ m = ⟨q.failed, none, out⟩) ∨
    (q.pc = .fatal ∧ m = ⟨{ q with pc := .exit EXIT_FAILURE }, none, out⟩) ∨
    (q.pc ≠ .fork ∧ m.child = none ∧ m.proc.tried = q.tried ∧ m.proc.born = q.born ∧
      m.proc.pc.alive = q.pc.alive ∧ m.proc.pc ≠ .fatal ∧
      (q.Placed rounds → m.proc.Placed rounds)) := by
  rw [call.eq_def] at h
  split at h <;> rename_i hpc
  case h_1 =>
    obtain ⟨ok, hok, rfl⟩ := Option.map_eq_some_iff.mp h
    rcases Answer.status_cases hok with ⟨rfl, rfl⟩ | ⟨rfl, rfl⟩
    · exact Or.inl ⟨hpc, rfl, rfl⟩
    · exact Or.inr (Or.inl ⟨hpc, rfl, rfl⟩)
  case h_2 =>
    obtain ⟨q', hq', rfl⟩ := Option.map_eq_some_iff.mp h
    rcases afterFatal_cases hq' with rfl | rfl
    · refine Or.inr (Or.inr (Or.inr ⟨by simp [hpc], rfl, rfl, rfl, by rw [hpc]; rfl, by simp, ?_⟩))
      rw [Proc.Placed, hpc]
      exact id
    · exact Or.inr (Or.inr (Or.inl ⟨hpc, rfl⟩))
  case h_3 =>
    have hplaced : ∀ buf, q.Placed rounds →
        Proc.Placed rounds { q with pc := .fflush, buf := buf } := fun buf hq => by
      rw [Proc.Placed, hpc] at hq
      exact hq
    refine Or.inr (Or.inr (Or.inr ⟨by simp [hpc], ?_⟩))
    rw [hpc]
    split at h
    · obtain ⟨ok, -, rfl⟩ := Option.map_eq_some_iff.mp h
      cases ok
      · exact ⟨rfl, rfl, rfl, rfl, by simp, hplaced _⟩
      · exact ⟨rfl, rfl, rfl, rfl, by simp, hplaced _⟩
    · split at h
      · obtain rfl := Option.some.inj h
        exact ⟨rfl, rfl, rfl, rfl, by simp, hplaced _⟩
      · cases h
  case h_4 =>
    have hplaced : ∀ buf, q.Placed rounds →
        (Proc.next rounds { q with buf := buf }).Placed rounds := fun buf hq => by
      rw [Proc.Placed, hpc] at hq
      by_cases hlt : q.tried < rounds
      · simp [Proc.next, Proc.Placed, hlt]
      · simpa [Proc.next, Proc.Placed, hlt] using le_antisymm hq.2 (not_lt.mp hlt)
    have halive : ∀ u : Proc, (u.next rounds).pc.alive = true ∧ (u.next rounds).pc ≠ .fatal :=
      fun u => by unfold Proc.next; split_ifs <;> simp [Pc.alive]
    refine Or.inr (Or.inr (Or.inr ⟨by simp [hpc], ?_⟩))
    obtain ⟨ok, -, rfl⟩ := Option.map_eq_some_iff.mp h
    rw [hpc]
    cases ok
    · exact ⟨rfl, rfl, rfl, (halive q).1, (halive q).2, hplaced q.buf⟩
    · exact ⟨rfl, rfl, rfl, (halive _).1, (halive _).2, hplaced []⟩
  case h_5 =>
    refine Or.inr (Or.inr (Or.inr ⟨by simp [hpc], ?_⟩))
    obtain ⟨ok, -, rfl⟩ := Option.map_eq_some_iff.mp h
    rw [Proc.Placed, hpc]
    cases ok
    · exact ⟨rfl, rfl, rfl, rfl, by simp, id⟩
    · exact ⟨rfl, rfl, rfl, rfl, by simp, id⟩
  case h_6 => cases h
  case h_7 => cases h

/-! ### What a process stands for -/

/-- **A potential**: what a process stands for that goes on or does not, having so many forks behind
it, and having been born with this one. A fork divides it; one of those in `D` that fails makes it
less. -/
structure Potential (rounds : ℕ) (D : ℕ → Prop) (w : Bool → ℕ → ℕ → ℕ) : Prop where
  fork : ∀ j b, j < rounds → w true (j + 1) b + w true (j + 1) (j + 1) = w true j b
  lost : ∀ j b, j < rounds → D j → w true (j + 1) b < w true j b
  kept : ∀ j b, j < rounds → ¬D j → w true (j + 1) b = w true j b
  gone : ∀ j b, j ≤ rounds → w false j b ≤ w true j b
  idle : ∀ j b, ¬D j → w false (j + 1) b = w true (j + 1) b

/-- What the process stands for. -/
def weight (w : Bool → ℕ → ℕ → ℕ) (q : Proc) : ℕ := w q.pc.alive q.tried q.born

/-- No fork of those in `D` has failed where somebody is about to report it. -/
def Quiet (D : ℕ → Prop) (s : System Proc (List ℕ)) : Prop :=
  ∀ q ∈ s.procs, q.pc = .fatal → ∀ j, q.tried = j + 1 → ¬D j

variable {D : ℕ → Prop} {w : Bool → ℕ → ℕ → ℕ}

/-- Everybody stands where he may. -/
def Inv (rounds : ℕ) (s : System Proc (List ℕ)) : Prop := ∀ q ∈ s.procs, q.Placed rounds

theorem inv_start (rounds : ℕ) : Inv rounds (start rounds) := by
  intro q hq
  obtain rfl := List.mem_singleton.mp hq
  by_cases hrounds : 0 < rounds
  · simp [Proc.next, Proc.Placed, hrounds]
  · simpa [Proc.next, Proc.Placed, hrounds] using (Nat.eq_zero_of_not_pos hrounds).symm

theorem Inv.step (hs : Inv rounds s) (h : step rounds terminal s l = some s') : Inv rounds s' := by
  obtain ⟨pre, q, post, m, hsplit, -, hcall, ht⟩ := step_cases h
  have hq : q.Placed rounds := hs q (by simp [hsplit])
  rcases call_cases hcall with ⟨hpc, -, rfl⟩ | ⟨hpc, -, rfl⟩ | ⟨hpc, rfl⟩ |
    ⟨-, hchild, -, -, -, -, hm⟩
  · rw [Proc.Placed, hpc] at hq
    refine forall_step hs hsplit ht ⟨Nat.succ_pos _, hq⟩ fun u hu => ?_
    obtain rfl := Option.some.inj hu
    exact ⟨Nat.succ_pos _, hq⟩
  · rw [Proc.Placed, hpc] at hq
    exact forall_step hs hsplit ht ⟨Nat.succ_pos _, hq⟩ fun u hu => by cases hu
  · rw [Proc.Placed, hpc] at hq
    exact forall_step hs hsplit ht hq fun u hu => by cases hu
  · exact forall_step hs hsplit ht (hm hq) fun u hu => by rw [hchild] at hu; cases hu

theorem forks_iff {pre post : List Proc} (hs : s.procs = pre ++ q :: post) (hl : pre.length = l.1) :
    Forks D s l ↔ (q.pc = .fork → D q.tried → l.2 ≠ .err) := by
  have hq : s.procs[l.1]? = some q := by
    rw [hs, ← hl, List.getElem?_append_right le_rfl, Nat.sub_self]
    rfl
  unfold Forks
  rw [hq]
  exact ⟨fun h => h q rfl, fun h u hu => by obtain rfl := Option.some.inj hu; exact h⟩

/-- **A step does not make more of a potential, and a failing fork makes less of it.** -/
theorem Potential.step_le (hw : Potential rounds D w) (hs : Inv rounds s)
    (h : step rounds terminal s l = some s') :
    total (weight w) s'.procs ≤ total (weight w) s.procs ∧
    (¬Forks D s l → total (weight w) s'.procs < total (weight w) s.procs) := by
  obtain ⟨pre, q, post, m, hsplit, hl, hcall, ht⟩ := step_cases h
  have hq : q.Placed rounds := hs q (by simp [hsplit])
  have htotal := total_step (weight w) hsplit ht
  rw [forks_iff hsplit hl]
  rcases call_cases hcall with ⟨hpc, ha, rfl⟩ | ⟨hpc, ha, rfl⟩ | ⟨hpc, rfl⟩ |
    ⟨hpc, hchild, htried, hborn, halive, -, -⟩
  · rw [Proc.Placed, hpc] at hq
    have hfork := hw.fork q.tried q.born hq
    have hbefore : weight w q = w true q.tried q.born := by rw [weight, hpc]; rfl
    have hafter : weight w q.forked + total (weight w) [q.child] = w true q.tried q.born := hfork
    refine ⟨by simp only [Option.toList] at htotal; omega, fun hnot => absurd (fun _ _ => ?_) hnot⟩
    rw [ha]
    decide
  · rw [Proc.Placed, hpc] at hq
    have hbefore : weight w q = w true q.tried q.born := by rw [weight, hpc]; rfl
    have hafter : weight w q.failed = w true (q.tried + 1) q.born := rfl
    simp only [Option.toList, total_nil] at htotal
    by_cases hD : D q.tried
    · have hlost := hw.lost q.tried q.born hq hD
      exact ⟨by omega, fun _ => by omega⟩
    · have hkept := hw.kept q.tried q.born hq hD
      exact ⟨by omega, fun hnot => absurd (fun _ hin => absurd hin hD) hnot⟩
  · rw [Proc.Placed, hpc] at hq
    have hbefore : weight w q = w true q.tried q.born := by rw [weight, hpc]; rfl
    have hgone := hw.gone q.tried q.born hq.2
    have hafter : weight w { q with pc := .exit EXIT_FAILURE } = w false q.tried q.born := rfl
    simp only [Option.toList, total_nil] at htotal
    exact ⟨by omega, fun hnot => absurd (fun hfork => absurd (hpc.symm.trans hfork) (by simp)) hnot⟩
  · have hsame : weight w m.proc = weight w q := by rw [weight, htried, hborn, halive]; rfl
    rw [hchild, hsame] at htotal
    simp only [Option.toList, total_nil] at htotal
    exact ⟨by omega, fun hnot => absurd (fun hfork => absurd hfork hpc) hnot⟩

/-- **Without a failing fork it stays as it is.** -/
theorem Potential.step_eq (hw : Potential rounds D w) (hs : Inv rounds s) (hquiet : Quiet D s)
    (hl : Forks D s l) (h : step rounds terminal s l = some s') :
    total (weight w) s'.procs = total (weight w) s.procs ∧ Quiet D s' := by
  obtain ⟨pre, q, post, m, hsplit, hpos, hcall, ht⟩ := step_cases h
  have hmem : q ∈ s.procs := by simp [hsplit]
  have hq : q.Placed rounds := hs q hmem
  have htotal := total_step (weight w) hsplit ht
  rw [forks_iff hsplit hpos] at hl
  rcases call_cases hcall with ⟨hpc, ha, rfl⟩ | ⟨hpc, ha, rfl⟩ | ⟨hpc, rfl⟩ |
    ⟨hpc, hchild, htried, hborn, halive, hfatal, -⟩
  · rw [Proc.Placed, hpc] at hq
    have hbefore : weight w q = w true q.tried q.born := by rw [weight, hpc]; rfl
    have hafter : weight w q.forked + total (weight w) [q.child] = w true q.tried q.born :=
      hw.fork q.tried q.born hq
    refine ⟨by simp only [Option.toList] at htotal; omega,
      forall_step hquiet hsplit ht (fun hf => by cases hf) fun u hu => ?_⟩
    obtain rfl := Option.some.inj hu
    exact fun hf => by cases hf
  · rw [Proc.Placed, hpc] at hq
    have hD : ¬D q.tried := fun hD => hl hpc hD ha
    have hbefore : weight w q = w true q.tried q.born := by rw [weight, hpc]; rfl
    have hafter : weight w q.failed = w true q.tried q.born := hw.kept q.tried q.born hq hD
    simp only [Option.toList, total_nil] at htotal
    refine ⟨by omega, forall_step hquiet hsplit ht (fun _ j hj => ?_) fun u hu => by cases hu⟩
    obtain rfl : q.tried = j := Nat.succ.inj hj
    exact hD
  · rw [Proc.Placed, hpc] at hq
    obtain ⟨j, hj⟩ : ∃ j, q.tried = j + 1 := Nat.exists_eq_add_of_lt hq.1 |>.imp fun _ h => by omega
    have hbefore : weight w q = w true (j + 1) q.born := by rw [weight, hpc, hj]; rfl
    have hafter : weight w { q with pc := .exit EXIT_FAILURE } = w true (j + 1) q.born := by
      rw [← hw.idle j q.born (hquiet q hmem hpc j hj), ← hj]
      rfl
    simp only [Option.toList, total_nil] at htotal
    exact ⟨by omega, forall_step hquiet hsplit ht (fun hf => by cases hf) fun u hu => by cases hu⟩
  · have hsame : weight w m.proc = weight w q := by rw [weight, htried, hborn, halive]; rfl
    rw [hchild, hsame] at htotal
    simp only [Option.toList, total_nil] at htotal
    exact ⟨by omega, forall_step hquiet hsplit ht (fun hf => absurd hf hfatal) fun u hu => by
      rw [hchild] at hu; cases hu⟩

/-- **What there is of a potential in the end**: all of it exactly if no fork of those in `D` has
failed. -/
theorem Potential.total_eq_iff (hw : Potential rounds D w)
    (hrun : run (step rounds terminal) (start rounds) ls = some s) :
    total (weight w) s.procs ≤ w true 0 0 ∧
    (total (weight w) s.procs = w true 0 0 ↔
      Every (step rounds terminal) (Forks D) (start rounds) ls) := by
  have hstart : total (weight w) (start rounds).procs = w true 0 0 := by
    have halive : (Proc.next rounds ⟨.pause, 0, 0, []⟩).pc.alive = true := by
      unfold Proc.next
      split_ifs <;> rfl
    change w (Proc.next rounds ⟨.pause, 0, 0, []⟩).pc.alive 0 0 = w true 0 0
    rw [halive]
  have hle : Inv rounds s ∧ total (weight w) s.procs ≤ w true 0 0 :=
    run_invariant (P := fun s => Inv rounds s ∧ total (weight w) s.procs ≤ w true 0 0)
      (fun _ _ _ hs h => ⟨hs.1.step h, (hw.step_le hs.1 h).1.trans hs.2⟩)
      ⟨inv_start rounds, hstart.le⟩ hrun
  refine ⟨hle.2, fun heq => ?_, fun hevery => ?_⟩
  · have hcases := Every.or_broken (G := Forks D)
      (P := fun s => Inv rounds s ∧ total (weight w) s.procs ≤ w true 0 0)
      (Q := fun s => total (weight w) s.procs < w true 0 0) (D := fun _ _ => True)
      (fun _ _ _ hs _ h => ⟨hs.1.step h, (hw.step_le hs.1 h).1.trans hs.2⟩)
      (fun _ _ _ hs _ hnot h => ((hw.step_le hs.1 h).2 hnot).trans_le hs.2)
      (fun _ _ _ hs hlt _ h => (hw.step_le hs.1 h).1.trans_lt hlt)
      (every_of_forall (fun _ _ => trivial) _) ⟨inv_start rounds, hstart.le⟩ hrun
    exact hcases.resolve_right heq.not_lt
  · have hquiet : Quiet D (start rounds) := by
      intro q hq hpc
      obtain rfl := List.mem_singleton.mp hq
      unfold Proc.next at hpc
      split_ifs at hpc
    exact (hevery.invariant (P := fun s => Inv rounds s ∧ Quiet D s ∧
      total (weight w) s.procs = w true 0 0) (fun _ _ _ hs hl h =>
        ⟨hs.1.step h, (hw.step_eq hs.1 hs.2.1 hl h).2,
          (hw.step_eq hs.1 hs.2.1 hl h).1.trans hs.2.2⟩)
      ⟨inv_start rounds, hquiet, hstart⟩ hrun).2.2

/-! ### How many are born -/

/-- What a process stands for with respect to the `r`-th fork: itself, and those that are still to
be born with it. -/
def ofRound (r : ℕ) (alive : Bool) (j b : ℕ) : ℕ :=
  (if b = r then 1 else 0) + if alive ∧ j < r then 2 ^ (r - j - 1) else 0

theorem potential_ofRound (r : ℕ) : Potential rounds (· < r) (ofRound r) where
  fork j b _ := by
    rcases lt_trichotomy r (j + 1) with hlt | rfl | hgt
    · simp [ofRound, show ¬j < r by omega, show ¬j + 1 < r by omega, show ¬j + 1 = r by omega]
    · simp [ofRound]
    · have hpow : 2 ^ (r - j - 1) = 2 ^ (r - (j + 1) - 1) + 2 ^ (r - (j + 1) - 1) := by
        rw [← Nat.two_mul, ← Nat.pow_succ', show r - j - 1 = (r - (j + 1) - 1).succ by omega]
      simp [ofRound, show j < r by omega, hgt, show ¬j + 1 = r by omega, hpow, Nat.add_assoc]
  lost j b _ hj := by
    rcases Nat.lt_or_ge (j + 1) r with hlt | hge
    · have hpow : 2 ^ (r - (j + 1) - 1) < 2 ^ (r - j - 1) :=
        Nat.pow_lt_pow_right (by omega) (by omega)
      simpa [ofRound, hj, hlt] using hpow
    · have hafter : ofRound r true (j + 1) b = if b = r then 1 else 0 := by
        simp [ofRound, show ¬j + 1 < r by omega]
      have hbefore : ofRound r true j b = (if b = r then 1 else 0) + 2 ^ (r - j - 1) := by
        simp [ofRound, hj]
      rw [hafter, hbefore]
      exact Nat.lt_add_of_pos_right (Nat.two_pow_pos _)
  kept j b _ hj := by simp [ofRound, hj, show ¬j + 1 < r by omega]
  gone j b _ := by simp [ofRound]
  idle j b hj := by simp [ofRound, show ¬j + 1 < r by omega]

/-- What a process stands for with respect to all. -/
def descendants (rounds : ℕ) (alive : Bool) (j _ : ℕ) : ℕ := if alive then 2 ^ (rounds - j) else 1

theorem potential_descendants (rounds : ℕ) :
    Potential rounds (fun _ => True) (descendants rounds) where
  fork j _ hj := by
    have hsucc : rounds - (j + 1) + 1 = rounds - j := by omega
    simp [descendants, ← Nat.two_mul, ← Nat.pow_succ', hsucc]
  lost j b hj _ := Nat.pow_lt_pow_right (by omega) (by omega)
  kept _ _ _ h := absurd trivial h
  gone j _ _ := Nat.one_le_two_pow
  idle _ _ h := absurd trivial h

/-- A process at rest stands for no others. -/
theorem weight_of_rests (hq : q.Placed rounds) (hrests : q.Rests) :
    weight (descendants rounds) q = 1 ∧
      ∀ r ≤ rounds, weight (ofRound r) q = if q.born = r then 1 else 0 := by
  rcases hrests with hpc | ⟨status, hpc⟩
  · rw [Proc.Placed, hpc] at hq
    refine ⟨by simp [weight, descendants, hpc, Pc.alive, hq], fun r hr => ?_⟩
    simp [weight, ofRound, hq, Nat.not_lt.mpr hr]
  · exact ⟨by simp [weight, descendants, hpc, Pc.alive], fun r _ => by
      simp [weight, ofRound, hpc, Pc.alive]⟩

/-- **How many processes there come to be**: never more than `2 ^ (r - 1)` are born with the `r`-th
fork, and `2 ^ rounds` in all. When all have come to rest, there are as many born with the `r`-th
fork exactly if none of the first `r` forks has failed in any process, and as many in all exactly if
no fork has failed. -/
theorem born_eq_iff (hrun : run (step rounds terminal) (start rounds) ls = some s) {r : ℕ}
    (hr : 1 ≤ r) (hle : r ≤ rounds) :
    s.procs.countP (fun q => q.born = r) ≤ 2 ^ (r - 1) ∧ s.procs.length ≤ 2 ^ rounds ∧
    ((∀ q ∈ s.procs, q.Rests) →
      (s.procs.countP (fun q => q.born = r) = 2 ^ (r - 1) ↔
        Every (step rounds terminal) (Forks (· < r)) (start rounds) ls) ∧
      (s.procs.length = 2 ^ rounds ↔
        Every (step rounds terminal) (Forks fun _ => True) (start rounds) ls)) := by
  have hs : Inv rounds s := run_invariant (fun _ _ _ hs h => hs.step h) (inv_start rounds) hrun
  have hround := (potential_ofRound r).total_eq_iff hrun
  have hall := (potential_descendants rounds).total_eq_iff hrun
  have hfirst : ofRound r true 0 0 = 2 ^ (r - 1) := by
    simp [ofRound, show ¬0 = r by omega, show 0 < r by omega]
  have hfirst' : descendants rounds true 0 0 = 2 ^ rounds := rfl
  have hcount : total (fun q => if q.born = r then 1 else 0) s.procs =
      s.procs.countP fun q => q.born = r := total_ite _ _
  have hlength : total (fun _ => 1) s.procs = s.procs.length := by simp [total]
  rw [hfirst] at hround
  rw [hfirst'] at hall
  refine ⟨?_, ?_, fun hrest => ⟨?_, ?_⟩⟩
  · rw [← hcount]
    exact (total_le fun q _ => Nat.le_add_right _ _).trans hround.1
  · rw [← hlength]
    refine (total_le fun q _ => ?_).trans hall.1
    unfold weight descendants
    split_ifs
    · exact Nat.one_le_two_pow
    · exact le_rfl
  · have hsame : total (weight (ofRound r)) s.procs =
        total (fun q => if q.born = r then 1 else 0) s.procs :=
      total_congr fun q hq => (weight_of_rests (hs q hq) (hrest q hq)).2 r hle
    rw [← hround.2, hsame, hcount]
  · have hsame : total (weight (descendants rounds)) s.procs = total (fun _ => 1) s.procs :=
      total_congr fun q hq => (weight_of_rests (hs q hq) (hrest q hq)).1
    rw [← hall.2, hsame, hlength]

/-! ### What is printed -/

/-- How often the process has printed its PID: once behind each fork, from the one on it was born
with. -/
def Proc.shown (q : Proc) : ℕ :=
  match q.pc with
  | .fork | .fflush | .pause => q.tried + 1 - max 1 q.born
  | _ => q.tried - max 1 q.born

/-- **The condition**: what is to be written is written. -/
def Writes (s : System Proc (List ℕ)) (l : ℕ × Answer) : Prop :=
  ∀ q ∈ s.procs[l.1]?, q.pc ≠ .fork → q.pc ≠ .fatal → l.2 = .ok

/-- What the process with the PID `k` has to do with what has been written: its lines are there, or
in its buffer, which is empty but behind a `printf`. -/
structure Printed (out : List ℕ) (k : ℕ) (q : Proc) : Prop where
  count : out.count k + q.buf.length = q.shown
  own : ∀ p ∈ q.buf, p = k
  empty : q.pc ≠ .fflush → q.buf = []
  born : q.pc ≠ .fork → q.pc ≠ .pause → max 1 q.born ≤ q.tried
  born' : q.born ≤ q.tried

theorem Printed.other {out lines : List ℕ} (h : Printed out k q) (hk : ∀ p ∈ lines, p ≠ k) :
    Printed (out ++ lines) k q := by
  refine ⟨?_, h.own, h.empty, h.born, h.born'⟩
  rw [List.count_append, List.count_eq_zero.mpr fun hmem => hk k hmem rfl]
  exact h.count

/-- **A call** of a process whose lines are in order: it writes its own PID only, as often as it has
printed it, and so will its child. -/
theorem Printed.call (hq : Printed out k q)
    (ha : q.pc ≠ .fork → q.pc ≠ .fatal → a = .ok)
    (h : call rounds terminal n k q out a = some m) :
    ∃ lines, m.shared = out ++ lines ∧ (∀ p ∈ lines, p = k) ∧ Printed m.shared k m.proc ∧
      lines.length + m.proc.buf.length + q.shown = q.buf.length + m.proc.shown ∧
      ∀ u ∈ m.child, u.buf = [] ∧ u.shown = 0 ∧ u.pc = .printf ∧ 1 ≤ u.born ∧ u.born = u.tried := by
  have hcount := hq.count
  rw [Smallbomb.call.eq_def] at h
  split at h <;> rename_i hpc
  case h_1 =>
    obtain ⟨ok, -, rfl⟩ := Option.map_eq_some_iff.mp h
    have hbuf := hq.empty (by simp [hpc])
    have hborn := hq.born'
    have hshown : q.shown = q.tried + 1 - max 1 q.born := by rw [Proc.shown, hpc]
    have hmax : max 1 q.born ≤ q.tried + 1 := by omega
    cases ok
    · refine ⟨[], (List.append_nil _).symm, by simp, ⟨?_, hq.own, fun _ => hbuf, fun _ _ => hmax,
        hborn.trans (Nat.le_succ _)⟩, ?_, fun u hu => by cases hu⟩
      · exact hcount.trans hshown
      · rw [hshown]
        simp [Proc.failed, Proc.shown]
    · refine ⟨[], (List.append_nil _).symm, by simp, ⟨?_, hq.own, fun _ => hbuf, fun _ _ => hmax,
        hborn.trans (Nat.le_succ _)⟩, ?_, fun u hu => ?_⟩
      · exact hcount.trans hshown
      · rw [hshown]
        simp [Proc.forked, Proc.shown]
      · obtain rfl := Option.some.inj hu
        exact ⟨hbuf, by simp [Proc.child, Proc.forked, Proc.shown], rfl, Nat.succ_pos _, rfl⟩
  case h_2 =>
    obtain ⟨q', hq', rfl⟩ := Option.map_eq_some_iff.mp h
    have hbuf := hq.empty (by simp [hpc])
    have hborn := hq.born (by simp [hpc]) (by simp [hpc])
    have hshown : q.shown = q.tried - max 1 q.born := by rw [Proc.shown, hpc]
    rcases afterFatal_cases hq' with rfl | rfl
    · exact ⟨[], (List.append_nil _).symm, by simp, ⟨hcount.trans hshown, hq.own, fun _ => hbuf,
        fun _ _ => hborn, hq.born'⟩, by rw [hshown]; simp [Proc.shown], fun u hu => by cases hu⟩
    · exact ⟨[], (List.append_nil _).symm, by simp, ⟨hcount.trans hshown, hq.own, fun _ => hbuf,
        fun _ _ => hborn, hq.born'⟩, by rw [hshown]; simp [Proc.shown], fun u hu => by cases hu⟩
  case h_3 =>
    obtain rfl := ha (by simp [hpc]) (by simp [hpc])
    have hbuf := hq.empty (by simp [hpc])
    have hborn := hq.born (by simp [hpc]) (by simp [hpc])
    have hshown : q.shown = q.tried - max 1 q.born := by rw [Proc.shown, hpc]
    rw [hbuf, List.length_nil, hshown] at hcount
    cases terminal
    · obtain rfl := Option.some.inj h
      refine ⟨[], (List.append_nil _).symm, by simp, ⟨?_, ?_, fun hne => absurd rfl hne,
        fun _ _ => hborn, hq.born'⟩, ?_, fun u hu => by cases hu⟩
      · simp only [hbuf, Proc.shown, List.nil_append, List.length_singleton]
        omega
      · simp [hbuf]
      · rw [hshown, hbuf]
        simp only [Proc.shown, List.nil_append, List.length_singleton, List.length_nil]
        omega
    · obtain rfl : (⟨{ q with pc := .fflush, buf := [] }, none, out ++ (q.buf ++ [k])⟩ :
          Move Proc (List ℕ)) = m := Option.some.inj h
      refine ⟨[k], by simp [hbuf], by simp, ⟨?_, by simp, fun _ => rfl, fun _ _ => hborn, hq.born'⟩,
        ?_, fun u hu => by cases hu⟩
      · simp only [hbuf, Proc.shown, List.nil_append, List.length_nil, List.count_append,
          List.count_singleton_self]
        omega
      · rw [hshown, hbuf]
        simp only [Proc.shown, List.length_singleton, List.length_nil]
        omega
  case h_4 =>
    obtain rfl := ha (by simp [hpc]) (by simp [hpc])
    obtain rfl : (⟨Proc.next rounds { q with buf := [] }, none, out ++ q.buf⟩ :
      Move Proc (List ℕ)) = m := Option.some.inj h
    have hshown : q.shown = q.tried + 1 - max 1 q.born := by rw [Proc.shown, hpc]
    have hborn := hq.born (by simp [hpc]) (by simp [hpc])
    have hnext : (Proc.next rounds { q with buf := [] }).shown = q.tried + 1 - max 1 q.born := by
      unfold Proc.next
      split_ifs <;> rfl
    have hall : q.buf.count k = q.buf.length :=
      List.count_eq_length.mpr fun p hp => (hq.own p hp).symm
    refine ⟨q.buf, rfl, hq.own, ⟨?_, by simp [Proc.next], fun _ => rfl, fun _ _ => hborn, hq.born'⟩,
      ?_, fun u hu => by cases hu⟩
    · rw [List.count_append, hall, hnext, ← hshown, ← hcount]
      rfl
    · rw [hnext, hshown]
      rfl
  case h_5 =>
    obtain rfl := ha (by simp [hpc]) (by simp [hpc])
    obtain rfl := Option.some.inj h
    have hbuf := hq.empty (by simp [hpc])
    have hborn := hq.born (by simp [hpc]) (by simp [hpc])
    have hshown : q.shown = q.tried - max 1 q.born := by rw [Proc.shown, hpc]
    refine ⟨[], by simp [hbuf], by simp, ⟨?_, by simp, fun _ => rfl, fun _ _ => hborn, hq.born'⟩,
      ?_, fun u hu => by cases hu⟩
    · rw [hbuf, hshown] at hcount
      simpa [hbuf, Proc.shown] using hcount
    · rw [hshown, hbuf]
      rfl
  case h_6 => cases h
  case h_7 => cases h

/-- **The invariant** of what has been printed: everybody's lines are in order, and no others have
been written. -/
structure Lines (s : System Proc (List ℕ)) : Prop where
  printed : ∀ k q, s.procs[k]? = some q → Printed s.shared k q
  known : ∀ p ∈ s.shared, p < s.procs.length
  length : s.shared.length + total (fun q => q.buf.length) s.procs = total Proc.shown s.procs

theorem lines_start (rounds : ℕ) : Lines (start rounds) := by
  have hpc : (Proc.next rounds ⟨.pause, 0, 0, []⟩).pc = .fork ∨
      (Proc.next rounds ⟨.pause, 0, 0, []⟩).pc = .pause := by
    unfold Proc.next
    split_ifs
    · exact Or.inl rfl
    · exact Or.inr rfl
  have hshown : (Proc.next rounds ⟨.pause, 0, 0, []⟩).shown = 0 := by
    rcases hpc with hpc | hpc <;> rw [Proc.shown, hpc] <;> rfl
  refine ⟨fun k q hq => ?_, fun p hp => absurd hp List.not_mem_nil, ?_⟩
  swap
  · change 0 + total _ [Proc.next rounds ⟨.pause, 0, 0, []⟩] = total Proc.shown [_]
    rw [total_cons, total_cons, hshown]
    rfl
  obtain ⟨rfl, rfl⟩ : k = 0 ∧ q = Proc.next rounds ⟨.pause, 0, 0, []⟩ := by
    cases k with
    | zero => exact ⟨rfl, (Option.some.inj hq).symm⟩
    | succ k => simp [start] at hq
  exact ⟨hshown.symm, fun p hp => absurd hp List.not_mem_nil, fun _ => rfl,
    fun hfork hpause => absurd hpc (not_or.mpr ⟨hfork, hpause⟩), le_rfl⟩

/-- **A step** keeps the lines in order. -/
theorem Lines.step (hlines : Lines s) (hl : Writes s l)
    (h : step rounds terminal s l = some s') : Lines s' := by
  obtain ⟨pre, q, post, m, hsplit, hpos, hcall, ht⟩ := step_cases h
  have hget : s.procs[l.1]? = some q := by
    rw [hsplit, ← hpos, List.getElem?_append_right le_rfl, Nat.sub_self]
    rfl
  obtain ⟨lines, hshared, hown, hproc, hsum, hchild⟩ :=
    (hlines.printed l.1 q hget).call (hl q hget) hcall
  have hlen : l.1 < s.procs.length := (List.getElem?_eq_some_iff.mp hget).1
  have hshared' : s'.shared = s.shared ++ lines := by rw [ht]; exact hshared
  refine ⟨forall_getElem_step hsplit ht (fun k u hk hu => ?_) ?_ fun u hu => ?_, fun p hp => ?_, ?_⟩
  · rw [hshared']
    exact (hlines.printed k u hu).other fun p hp => by rw [hown p hp, ← hpos]; exact Ne.symm hk
  · rw [hpos, ht]
    exact hproc
  · obtain ⟨hbuf, hshown, hpc, hone, hborn⟩ := hchild u hu
    refine ⟨?_, by simp [hbuf], fun _ => hbuf, fun _ _ => by omega, hborn.le⟩
    have hfresh : s.procs.length ∉ s'.shared := by
      rw [hshared', List.mem_append]
      rintro (hmem | hmem)
      · exact lt_irrefl _ (hlines.known _ hmem)
      · exact hlen.ne (hown _ hmem).symm
    rw [List.count_eq_zero.mpr hfresh, hbuf, hshown]
    rfl
  · have hle : s.procs.length ≤ s'.procs.length := by rw [hsplit, ht]; simp
    rw [hshared'] at hp
    rcases List.mem_append.mp hp with hp | hp
    · exact (hlines.known p hp).trans_le hle
    · rw [hown p hp]
      exact hlen.trans_le hle
  · have hbufs := total_step (fun q => q.buf.length) hsplit ht
    have hshown := total_step Proc.shown hsplit ht
    have hbufs' : total (fun q => q.buf.length) m.child.toList = 0 := by
      cases hm : m.child with
      | none => rfl
      | some u => simp [(hchild u hm).1]
    have hshown' : total Proc.shown m.child.toList = 0 := by
      cases hm : m.child with
      | none => rfl
      | some u => simp [(hchild u hm).2.1]
    have hlength := hlines.length
    rw [hshared', List.length_append]
    omega

/-- What a process stands for with respect to the lines: its own, all told, and those of its
descendants. -/
def linesOf (rounds : ℕ) (alive : Bool) (j b : ℕ) : ℕ :=
  if alive then (rounds + 1 - max 1 b) + (2 ^ (rounds - j + 1) - 2 - (rounds - j)) else j - max 1 b

theorem potential_linesOf (rounds : ℕ) : Potential rounds (fun _ => True) (linesOf rounds) where
  fork j b hj := by
    obtain ⟨d, rfl⟩ : ∃ d, rounds = j + d + 1 := ⟨rounds - j - 1, by omega⟩
    have hpow : d < 2 ^ d := Nat.lt_two_pow_self
    have hfirst : j + d + 1 - j = d + 1 := by omega
    have hsecond : j + d + 1 - (j + 1) = d := by omega
    simp only [linesOf, if_true, hfirst, hsecond, Nat.pow_succ]
    omega
  lost j b hj _ := by
    obtain ⟨d, rfl⟩ : ∃ d, rounds = j + d + 1 := ⟨rounds - j - 1, by omega⟩
    have hpow : d < 2 ^ d := Nat.lt_two_pow_self
    have hfirst : j + d + 1 - j = d + 1 := by omega
    have hsecond : j + d + 1 - (j + 1) = d := by omega
    simp only [linesOf, if_true, hfirst, hsecond, Nat.pow_succ]
    omega
  kept _ _ _ h := absurd trivial h
  gone j b hj := by
    simp only [linesOf, if_true, Bool.false_eq_true, if_false]
    omega
  idle _ _ h := absurd trivial h

/-- A process has not printed more lines than it stands for, and at rest it has printed as many. -/
theorem shown_le_weight (hq : q.Placed rounds) : q.shown ≤ weight (linesOf rounds) q ∧
    (q.Rests → weight (linesOf rounds) q = q.shown) := by
  have hlines : ∀ j ≤ rounds, j + 1 - max 1 q.born ≤ linesOf rounds true j q.born := fun j hj => by
    simp only [linesOf, if_true]
    omega
  have hshown : q.shown ≤ q.tried + 1 - max 1 q.born := by
    unfold Proc.shown
    split <;> omega
  constructor
  · cases hpc : q.pc with
    | fork | pause =>
      rw [Proc.Placed, hpc] at hq
      rw [weight, hpc]
      exact hshown.trans (hlines q.tried (by omega))
    | fatal | printf | fflush =>
      rw [Proc.Placed, hpc] at hq
      rw [weight, hpc]
      exact hshown.trans (hlines q.tried hq.2)
    | exit status | exited status =>
      rw [Proc.shown, weight, hpc]
      exact le_rfl
  · rintro (hpc | ⟨status, hpc⟩)
    · rw [Proc.Placed, hpc] at hq
      rw [Proc.shown, weight, hpc, hq]
      simp [linesOf, Pc.alive]
    · rw [Proc.shown, weight, hpc]
      rfl

/-- **What is printed**, where everything that is to be written is written: whatever forks have
failed, each process that pauses has written its PID once behind each fork from the one on it was
born with. There are at most `2 ^ (rounds + 1) - 2` lines; and as many when all have come to rest
exactly if no fork has failed. -/
theorem printed_eq (hrun : run (step rounds terminal) (start rounds) ls = some s)
    (hwrites : Every (step rounds terminal) Writes (start rounds) ls) :
    (∀ k q, s.procs[k]? = some q → q.pc = .pause →
      s.shared.count k = rounds + 1 - max 1 q.born) ∧
    s.shared.length ≤ 2 ^ (rounds + 1) - 2 ∧
    ((∀ q ∈ s.procs, q.Rests) → (s.shared.length = 2 ^ (rounds + 1) - 2 ↔
      Every (step rounds terminal) (Forks fun _ => True) (start rounds) ls)) := by
  have hs : Inv rounds s := run_invariant (fun _ _ _ hs h => hs.step h) (inv_start rounds) hrun
  have hlines : Lines s :=
    hwrites.invariant (fun _ _ _ hs hl h => hs.step hl h) (lines_start rounds) hrun
  have htotal := (potential_linesOf rounds).total_eq_iff hrun
  have hfirst : linesOf rounds true 0 0 = 2 ^ (rounds + 1) - 2 := by
    have hpow : rounds < 2 ^ rounds := Nat.lt_two_pow_self
    simp only [linesOf, if_true, Nat.sub_zero, Nat.pow_succ]
    omega
  rw [hfirst] at htotal
  have hlength := hlines.length
  refine ⟨fun k q hq hpc => ?_, ?_, fun hrest => ?_⟩
  · have hprinted := hlines.printed k q hq
    have hcount := hprinted.count
    have hplaced := hs q (List.mem_of_getElem? hq)
    rw [Proc.Placed, hpc] at hplaced
    rwa [hprinted.empty (by simp [hpc]), Proc.shown, hpc, hplaced] at hcount
  · have hle : total Proc.shown s.procs ≤ total (weight (linesOf rounds)) s.procs :=
      total_le fun q hq => (shown_le_weight (hs q hq)).1
    omega
  · have hbufs : total (fun q => q.buf.length) s.procs = 0 := total_eq_zero fun q hq => by
      obtain ⟨k, hk⟩ := List.mem_iff_getElem?.mp hq
      have hpc : q.pc ≠ .fflush := by
        rcases hrest q hq with hpc | ⟨status, hpc⟩ <;> simp [hpc]
      rw [(hlines.printed k q hk).empty hpc, List.length_nil]
    rw [hbufs, Nat.add_zero] at hlength
    rw [← htotal.2, total_congr fun q hq => (shown_le_weight (hs q hq)).2 (hrest q hq), hlength]

end Steps

/-- The tree that the source draws: eight processes, and fourteen lines. -/
theorem printed_eq_rounds : ∃ ls s, run (step ROUNDS false) (start ROUNDS) ls = some s ∧
    s.procs.length = 8 ∧ s.shared.length = 14 ∧
    Every (step ROUNDS false) (Forks fun _ => True) (start ROUNDS) ls := by
  obtain ⟨ls, s, hok, hrun, hrest, hlength, hlines⟩ : ∃ ls s, (∀ l ∈ ls, l.2 = Answer.ok) ∧
      run (step ROUNDS false) (start ROUNDS) ls = some s ∧
      (∀ q ∈ s.procs, q.pc = .pause) ∧ s.procs.length = 8 ∧ s.shared.length = 14 :=
    ⟨List.replicate 9 (0, .ok) ++ List.replicate 8 (1, .ok) ++ List.replicate 5 (2, .ok) ++
      List.replicate 2 (3, .ok) ++ List.replicate 5 (4, .ok) ++ List.replicate 2 (5, .ok) ++
      List.replicate 2 (6, .ok) ++ List.replicate 2 (7, .ok), _, by decide, rfl, by decide +kernel,
      rfl, rfl⟩
  have hwrites : Every (step ROUNDS false) Writes (start ROUNDS) ls :=
    (every_of_forall hok _).imp fun _ _ hl _ _ _ _ => hl
  exact ⟨ls, s, hrun, hlength, hlines,
    ((printed_eq hrun hwrites).2.2 fun q hq => Or.inl (hrest q hq)).mp hlines⟩

/-- The first process fails in its second fork, and exits. -/
theorem born_eq_iff_failed : ∃ ls s, run (step ROUNDS true) (start ROUNDS) ls = some s ∧
    Every (step ROUNDS true) (Forks (· < 1)) (start ROUNDS) ls ∧
    ¬Every (step ROUNDS true) (Forks (· < 2)) (start ROUNDS) ls := by
  obtain ⟨s, hrun, hrest, hone, htwo⟩ : ∃ s, run (step ROUNDS true) (start ROUNDS)
      (List.replicate 3 (0, .ok) ++ [(0, .err), (0, .ok), (0, .ok)] ++ List.replicate 8 (1, .ok) ++
        List.replicate 5 (2, .ok) ++ List.replicate 2 (3, .ok) ++ List.replicate 2 (4, .ok)) =
        some s ∧
      (∀ q ∈ s.procs, q.pc = .pause ∨ q.pc = .exited 1) ∧
      s.procs.countP (fun q => q.born = 1) = 1 ∧ s.procs.countP (fun q => q.born = 2) = 1 :=
    ⟨_, rfl, by decide +kernel, by decide +kernel, by decide +kernel⟩
  have hrests : ∀ q ∈ s.procs, q.Rests := fun q hq => (hrest q hq).imp id fun hpc => ⟨1, hpc⟩
  refine ⟨_, s, hrun, ?_, ?_⟩
  · exact ((born_eq_iff hrun le_rfl (by decide)).2.2 hrests).1.mp hone
  · rw [← ((born_eq_iff hrun (by decide : 1 ≤ 2) (by decide)).2.2 hrests).1, htwo]
    decide

end Smallbomb

end SystemProgramming
