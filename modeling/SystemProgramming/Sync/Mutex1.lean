import Mathlib.Algebra.BigOperators.Group.Finset.Basic
import Mathlib.Data.Fin.VecNotation
import Mathlib.Tactic.FinCases
import SystemProgramming.CriticalSection

/-!
# Three global variables, with a lock and without

`mutex1` (`ch15/`): threads that count in three global variables, one after another, and print all
three. Its argument says whether they take a mutex meanwhile.

With the mutex, the lines are those of a single thread that goes round and round: the first one
that has entered prints the next values of the three variables, the second one the values after
these, and so on (`SystemProgramming.Mutex1.lines_eq`). Without it, a thread may write what it has
read before others have written, and their increments are lost. Whether a variable has the value it
should is then a matter of every single increment: it has it in the end exactly if each thread has
written the variable before any other did, from its own reading on
(`SystemProgramming.Mutex1.all_counted_iff`) – one increment that is not up to date is never made
good.
-/

namespace SystemProgramming

open CriticalSection Runs

namespace Mutex1

/-- A line of the output: the number of the thread, and the three variables. -/
structure Line where
  datum : ℕ
  shown : List ℤ
  deriving DecidableEq, Repr

/-- What the threads share: the variables `g1`, `g2` and `g3`, and what has been printed. The
variables are of type `long`, and are integers here: they start small, and each thread – the program
has three – adds one, so that none of them wraps round. -/
structure Globals where
  g : Fin 3 → ℤ
  out : List Line
  deriving DecidableEq

/-- The variables as the program is loaded. -/
def Globals.start : Globals := ⟨![10, 12, 14], []⟩

/-- Where a thread stands in its critical section. -/
inductive Point where
  /-- About to read a variable, in order to add 1. -/
  | load (i : Fin 3)
  /-- About to write it, having read this. -/
  | store (i : Fin 3) (v : ℤ)
  /-- About to read a variable, in order to print it; these have been read. -/
  | arg (i : Fin 3) (shown : List ℤ)
  /-- About to print them. -/
  | print (shown : List ℤ)
  /-- Through. -/
  | through
  deriving DecidableEq, Repr

/-- **A critical section**, step by step: the body of `worker`. -/
def next (t : ℕ) (k : Point) (x : Globals) : Option (Point × Globals) :=
  match k with
  | .load i => some (.store i (x.g i), x)
  | .store i v => some (if i = 2 then .arg 0 [] else .load (i + 1),
      { x with g := Function.update x.g i (v + 1) })
  | .arg i shown =>
    some (if i = 2 then .print (shown ++ [x.g i]) else .arg (i + 1) (shown ++ [x.g i]), x)
  | .print shown => some (.through, { x with out := x.out ++ [⟨t + 1, shown⟩] })
  | .through => none

/-- A thread begins with `g1`. -/
def init (_ : ℕ) : Point := .load 0

/-- **The step function.** -/
def step (locking : Bool) (nthreads : ℕ) :
    System Point Globals → ℕ → Option (System Point Globals) :=
  CriticalSection.step locking nthreads init next

/-! ### With the lock -/

/-- The variables from `i` on are counted. -/
def counted (i : Fin 3) (g : Fin 3 → ℤ) : Fin 3 → ℤ := fun j => if i ≤ j then g j + 1 else g j

/-- The line that the thread `t` prints. -/
def line (t : ℕ) (g : Fin 3 → ℤ) : Line := ⟨t + 1, [g 0, g 1, g 2]⟩

/-- What is left to do from a point on, by a thread alone. -/
def finish (t : ℕ) : Point → Globals → Globals
  | .load i, x => ⟨counted i x.g, x.out ++ [line t (counted i x.g)]⟩
  | .store i v, x =>
    let g := Function.update (counted i x.g) i (v + 1)
    ⟨g, x.out ++ [line t g]⟩
  | .arg i shown, x => { x with out := x.out ++ [⟨t + 1, shown ++ ([x.g 0, x.g 1, x.g 2].drop i)⟩] }
  | .print shown, x => { x with out := x.out ++ [⟨t + 1, shown⟩] }
  | .through, x => x

theorem outcome_finish : Outcome next finish where
  goOn := by
    rintro t k x k' x' hnext
    cases k with
    | load i =>
      obtain ⟨rfl, rfl⟩ := Prod.mk.inj (Option.some.inj hnext)
      have hg : Function.update (counted i x.g) i (x.g i + 1) = counted i x.g :=
        Function.update_eq_self_iff.mpr (by simp [counted])
      simp only [finish, hg]
    | store i v =>
      obtain ⟨rfl, rfl⟩ := Prod.mk.inj (Option.some.inj hnext)
      fin_cases i <;>
        simp [finish, counted, line, Function.update_apply, funext_iff, Fin.forall_fin_succ]
    | arg i shown =>
      obtain ⟨rfl, rfl⟩ := Prod.mk.inj (Option.some.inj hnext)
      fin_cases i <;> simp [finish]
    | print shown =>
      obtain ⟨rfl, rfl⟩ := Prod.mk.inj (Option.some.inj hnext)
      rfl
    | through => cases hnext
  through := by
    rintro t k x hnext
    cases k with
    | through => rfl
    | _ => cases hnext

/-- How many steps are left in the critical section. -/
def Point.left : Point → ℕ
  | .load i => 11 - 2 * i
  | .store i _ => 10 - 2 * i
  | .arg i _ => 4 - i
  | .print _ => 1
  | .through => 0

theorem left_next (t : ℕ) (k : Point) (x : Globals) (k' : Point) (x' : Globals)
    (hnext : next t k x = some (k', x')) : k'.left < k.left := by
  cases k with
  | load i =>
    obtain ⟨rfl, -⟩ := Prod.mk.inj (Option.some.inj hnext)
    fin_cases i <;> simp [Point.left]
  | store i v =>
    obtain ⟨rfl, -⟩ := Prod.mk.inj (Option.some.inj hnext)
    fin_cases i <;> simp [Point.left]
  | arg i shown =>
    obtain ⟨rfl, -⟩ := Prod.mk.inj (Option.some.inj hnext)
    fin_cases i <;> simp [Point.left]
  | print shown =>
    obtain ⟨rfl, -⟩ := Prod.mk.inj (Option.some.inj hnext)
    simp [Point.left]
  | through => cases hnext

/-- **One thread after another**: each counts all three variables once, and prints what they are
then. -/
theorem serial_eq (ts : List ℕ) (x : Globals) : serial init finish ts x =
    ⟨fun i => x.g i + ts.length,
      x.out ++ ts.mapIdx fun k t => line t fun i => x.g i + (k + 1 : ℕ)⟩ := by
  induction ts using List.reverseRecOn with
  | nil => simp [serial]
  | append_singleton ts t ih =>
    have hg : (counted 0 fun i => x.g i + (ts.length : ℤ)) =
        fun i => x.g i + (ts.length + 1 : ℕ) := by
      funext i
      simp only [counted, Fin.zero_le, if_true]
      omega
    rw [serial_concat, ih]
    simp only [finish, init, hg, List.length_append, List.length_singleton, List.mapIdx_concat,
      List.append_assoc]

/-- **With the mutex, the lines are those of one thread that goes round and round**: all threads get
through, and then the `k`-th of them to have entered has printed the three variables `k` further
than they were, so that they have kept their distances. -/
theorem lines_eq {nthreads : ℕ} {ls : List ℕ} {s : System Point Globals}
    (hrun : run (step true nthreads) (System.start .start) ls = some s) :
    (∃ ls' s', run (step true nthreads) s ls' = some s' ∧ s'.Done nthreads) ∧
    (s.Done nthreads →
      s.shared.out = s.entered.mapIdx (fun k t =>
        (⟨t + 1, [10 + (k + 1 : ℕ), 12 + (k + 1 : ℕ), 14 + (k + 1 : ℕ)]⟩ : Line)) ∧
      s.entered.Perm (List.range nthreads)) := by
  constructor
  · exact outcome_finish.exists_run_done left_next hrun
  · intro hdone
    obtain ⟨hshared, hperm⟩ := shared_eq_serial outcome_finish hrun hdone
    refine ⟨?_, hperm⟩
    rw [hshared, serial_eq]
    rfl

/-- Three threads, the last of which enters first. -/
theorem lines_eq_three : ∃ ls s, run (step true 3) (System.start .start) ls = some s ∧
    s.shared.out = [⟨3, [11, 13, 15]⟩, ⟨1, [12, 14, 16]⟩, ⟨2, [13, 15, 17]⟩] := by
  obtain ⟨s, hrun, hdone, hentered⟩ : ∃ s, run (step true 3) (System.start .start)
      (List.replicate 12 2 ++ List.replicate 12 0 ++ List.replicate 12 1) = some s ∧
      s.Done 3 ∧ s.entered = [2, 0, 1] := ⟨_, rfl, by decide, rfl⟩
  obtain ⟨hout, -⟩ := (lines_eq hrun).2 hdone
  refine ⟨_, s, hrun, ?_⟩
  rw [hout, hentered]
  rfl

/-! ### Without the lock -/

/-- The thread has written the variable `i`. -/
def Point.wrote (i : Fin 3) : Point → Bool
  | .load j | .store j _ => i < j
  | _ => true

/-- How often the thread has counted in the variable `i`: once, or not at all. -/
def counts (i : Fin 3) : Phase Point → ℕ
  | .outside => 0
  | .inside k => if k.wrote i then 1 else 0
  | .done => 1

/-- How many threads have counted in the variable `i`. -/
def total (nthreads : ℕ) (i : Fin 3) (s : System Point Globals) : ℕ :=
  ∑ t ∈ Finset.range nthreads, counts i (s.phase t)

/-- **The condition**: what the thread has read of the variable `i` is still there when it is about
to write it. -/
def UpToDate (i : Fin 3) (s : System Point Globals) (t : ℕ) : Prop :=
  match s.phase t with
  | .inside (.store j v) => j = i → v = s.shared.g i
  | _ => True

instance (i : Fin 3) (s : System Point Globals) (t : ℕ) : Decidable (UpToDate i s t) := by
  unfold UpToDate
  split <;> infer_instance

/-- A thread is about to write the variable `i`, having read `v`. -/
def Holds (i : Fin 3) (s : System Point Globals) (v : ℤ) : Prop :=
  ∃ t, s.phase t = .inside (.store i v)

/-- The variable is not ahead of the threads that have counted in it, and neither is what has been
read of it. -/
def Bound (nthreads : ℕ) (i : Fin 3) (x : ℤ) (s : System Point Globals) : Prop :=
  s.shared.g i ≤ x + total nthreads i s ∧ ∀ v, Holds i s v → v ≤ x + total nthreads i s

/-- It is behind them, and so is what has been read of it. -/
def Behind (nthreads : ℕ) (i : Fin 3) (x : ℤ) (s : System Point Globals) : Prop :=
  s.shared.g i < x + total nthreads i s ∧ ∀ v, Holds i s v → v < x + total nthreads i s

section Unlocked

variable {nthreads t : ℕ} {i : Fin 3} {x : ℤ} {s s' : System Point Globals} {ls : List ℕ}

/-- **What a step does to the variable `i`**: a thread writes it, one more than it has read; or
nobody has counted in it, and what is newly read of it is what is there. -/
theorem step_variable (h : step false nthreads s t = some s') (i : Fin 3) :
    (∃ v, s.phase t = .inside (.store i v) ∧ s'.shared.g i = v + 1 ∧
      total nthreads i s' = total nthreads i s + 1 ∧ ∀ w, Holds i s' w → Holds i s w) ∨
    ((∀ v, s.phase t ≠ .inside (.store i v)) ∧ s'.shared.g i = s.shared.g i ∧
      total nthreads i s' = total nthreads i s ∧
      ∀ w, Holds i s' w → Holds i s w ∨ w = s.shared.g i) := by
  have hother : ∀ (p : Phase Point) (w : ℤ), p ≠ .inside (.store i w) →
      (∃ u, Function.update s.phase t p u = .inside (.store i w)) → Holds i s w := by
    rintro p w hp ⟨u, hu⟩
    rcases eq_or_ne u t with rfl | hne
    · rw [Function.update_self] at hu
      exact absurd hu hp
    · rw [Function.update_of_ne hne] at hu
      exact ⟨u, hu⟩
  unfold step CriticalSection.step at h
  split_ifs at h with ht
  have htotal : ∀ p : Phase Point,
      ∑ u ∈ Finset.range nthreads, counts i (Function.update s.phase t p u) + counts i (s.phase t) =
        total nthreads i s + counts i p := fun p => sum_update_add ht
  have hsame : ∀ p : Phase Point, counts i p = counts i (s.phase t) →
      ∑ u ∈ Finset.range nthreads, counts i (Function.update s.phase t p u) = total nthreads i s :=
    fun p hp => Nat.add_right_cancel (hp ▸ htotal p)
  split at h <;> rename_i hphase
  · obtain ⟨m, -, rfl⟩ := Option.map_eq_some_iff.mp h
    refine Or.inr ⟨by simp [hphase], rfl, hsame _ ?_, fun w hw =>
      Or.inl (hother _ w (by simp [init]) hw)⟩
    simp [hphase, counts, init, Point.wrote]
  · rename_i k
    split at h <;> rename_i hnext
    · obtain rfl := Option.some.inj h
      cases k with
      | load j =>
        obtain ⟨rfl, rfl⟩ := Prod.mk.inj (Option.some.inj hnext)
        refine Or.inr ⟨by simp [hphase], rfl, hsame _ (by rw [hphase]; rfl), ?_⟩
        rintro w ⟨u, hu⟩
        change Function.update s.phase t _ u = _ at hu
        rcases eq_or_ne u t with rfl | hne
        · rw [Function.update_self] at hu
          obtain ⟨rfl, rfl⟩ := Point.store.inj (Phase.inside.inj hu)
          exact Or.inr rfl
        · rw [Function.update_of_ne hne] at hu
          exact Or.inl ⟨u, hu⟩
      | store j v =>
        obtain ⟨rfl, rfl⟩ := Prod.mk.inj (Option.some.inj hnext)
        have hkeep : ∀ w, (∃ u, Function.update s.phase t
            (.inside (if j = 2 then .arg 0 [] else .load (j + 1))) u = .inside (.store i w)) →
            Holds i s w := fun w hw => hother _ w (by split_ifs <;> simp) hw
        rcases eq_or_ne j i with rfl | hj
        · refine Or.inl ⟨v, hphase, by simp, ?_, hkeep⟩
          have hbefore : counts j (s.phase t) = 0 := by simp [hphase, counts, Point.wrote]
          have hafter : counts j (.inside (if j = 2 then .arg 0 [] else .load (j + 1))) = 1 := by
            fin_cases j <;> rfl
          have hsum := htotal (.inside (if j = 2 then .arg 0 [] else .load (j + 1)))
          rwa [hbefore, hafter] at hsum
        · refine Or.inr ⟨by simp [hphase, hj], by simp [Function.update_of_ne (Ne.symm hj)],
            hsame _ ?_, fun w hw => Or.inl (hkeep w hw)⟩
          rw [hphase]
          revert hj
          fin_cases j <;> fin_cases i <;> simp [counts, Point.wrote]
      | arg j shown =>
        obtain ⟨rfl, rfl⟩ := Prod.mk.inj (Option.some.inj hnext)
        refine Or.inr ⟨by simp [hphase], rfl, hsame _ ?_, fun w hw =>
          Or.inl (hother _ w (by split_ifs <;> simp) hw)⟩
        rw [hphase]
        split_ifs <;> rfl
      | print shown =>
        obtain ⟨rfl, rfl⟩ := Prod.mk.inj (Option.some.inj hnext)
        exact Or.inr ⟨by simp [hphase], rfl, hsame _ (by rw [hphase]; rfl), fun w hw =>
          Or.inl (hother _ w (by simp) hw)⟩
      | through => cases hnext
    · obtain rfl : k = .through := by
        cases k with
        | through => rfl
        | _ => cases hnext
      obtain ⟨m, -, rfl⟩ := Option.map_eq_some_iff.mp h
      exact Or.inr ⟨by simp [hphase], rfl, hsame _ (by rw [hphase]; rfl), fun w hw =>
        Or.inl (hother _ w (by simp) hw)⟩
  · cases h

/-- A step that is not up to date is one that writes the variable. -/
theorem of_not_upToDate (h : ¬UpToDate i s t) :
    ∃ v, s.phase t = .inside (.store i v) ∧ v ≠ s.shared.g i := by
  unfold UpToDate at h
  split at h
  · rename_i j v hphase
    obtain ⟨rfl, hv⟩ : j = i ∧ v ≠ s.shared.g i := by simpa using h
    exact ⟨v, hphase, hv⟩
  · exact absurd trivial h

theorem UpToDate.store {v : ℤ} (h : UpToDate i s t) (hphase : s.phase t = .inside (.store i v)) :
    v = s.shared.g i := by
  unfold UpToDate at h
  rw [hphase] at h
  exact h rfl

/-- **The variable is never ahead**. -/
theorem Bound.step (hb : Bound nthreads i x s) (h : step false nthreads s t = some s') :
    Bound nthreads i x s' := by
  obtain ⟨hg, hholds⟩ := hb
  rcases step_variable h i with ⟨v, hphase, hg', htotal, hkeep⟩ | ⟨-, hg', htotal, hkeep⟩
  · have hv := hholds v ⟨t, hphase⟩
    refine ⟨by omega, fun w hw => ?_⟩
    have := hholds w (hkeep w hw)
    omega
  · refine ⟨by omega, fun w hw => ?_⟩
    rcases hkeep w hw with hw | rfl
    · have := hholds w hw
      omega
    · omega

/-- **A lost increment is not made good.** -/
theorem Behind.step (hb : Behind nthreads i x s) (h : Mutex1.step false nthreads s t = some s') :
    Behind nthreads i x s' := by
  obtain ⟨hg, hholds⟩ := hb
  rcases step_variable h i with ⟨v, hphase, hg', htotal, hkeep⟩ | ⟨-, hg', htotal, hkeep⟩
  · have hv := hholds v ⟨t, hphase⟩
    refine ⟨by omega, fun w hw => ?_⟩
    have := hholds w (hkeep w hw)
    omega
  · refine ⟨by omega, fun w hw => ?_⟩
    rcases hkeep w hw with hw | rfl
    · have := hholds w hw
      omega
    · omega

/-- **The invariant**: the variable is never ahead, and it is what it should be unless an increment
has been lost for good. -/
def Inv (nthreads : ℕ) (i : Fin 3) (x : ℤ) (s : System Point Globals) : Prop :=
  Bound nthreads i x s ∧ (s.shared.g i = x + total nthreads i s ∨ Behind nthreads i x s)

/-- An increment that is not up to date is lost. -/
theorem Inv.lost (hi : Inv nthreads i x s) (hnot : ¬UpToDate i s t)
    (h : Mutex1.step false nthreads s t = some s') : Behind nthreads i x s' := by
  obtain ⟨hb, hg | hbehind⟩ := hi
  · obtain ⟨v, hphase, hv⟩ := of_not_upToDate hnot
    rcases step_variable h i with ⟨w, hphase', hg', htotal, hkeep⟩ | ⟨hnone, -⟩
    · obtain rfl : v = w := by
        rw [hphase] at hphase'
        exact (Point.store.inj (Phase.inside.inj hphase')).2
      have hle := hb.2 v ⟨t, hphase⟩
      refine ⟨by omega, fun u hu => ?_⟩
      have := hb.2 u (hkeep u hu)
      omega
    · exact absurd hphase (hnone v)
  · exact hbehind.step h

/-- One that is up to date counts. -/
theorem UpToDate.counts (hup : UpToDate i s t) (h : Mutex1.step false nthreads s t = some s')
    (hg : s.shared.g i = x + total nthreads i s) : s'.shared.g i = x + total nthreads i s' := by
  rcases step_variable h i with ⟨v, hphase, hg', htotal, -⟩ | ⟨-, hg', htotal, -⟩
  · have hv := hup.store hphase
    omega
  · omega

theorem Inv.step (hi : Inv nthreads i x s) (h : Mutex1.step false nthreads s t = some s') :
    Inv nthreads i x s' := by
  refine ⟨hi.1.step h, ?_⟩
  by_cases hup : UpToDate i s t
  · obtain ⟨-, hg | hbehind⟩ := hi
    · exact Or.inl (hup.counts h hg)
    · exact Or.inr (hbehind.step h)
  · exact Or.inr (hi.lost hup h)

/-- Nobody has counted yet. -/
theorem total_start (nthreads : ℕ) (i : Fin 3) : total nthreads i (System.start .start) = 0 :=
  Finset.sum_eq_zero fun _ _ => rfl

theorem inv_start (nthreads : ℕ) (i : Fin 3) :
    Inv nthreads i (Globals.start.g i) (System.start .start) := by
  unfold Inv Bound
  rw [total_start, Int.ofNat_zero, add_zero]
  refine ⟨⟨le_rfl, ?_⟩, Or.inl rfl⟩
  rintro v ⟨t, ht⟩
  cases ht

/-- At the end, everyone has counted in every variable. -/
theorem total_of_done (hdone : s.Done nthreads) : total nthreads i s = nthreads := by
  have hone : ∀ t ∈ Finset.range nthreads, counts i (s.phase t) = 1 := fun t ht => by
    rw [hdone t (Finset.mem_range.mp ht)]
    rfl
  unfold total
  rw [Finset.sum_congr rfl hone]
  simp

/-- No thread counts twice. -/
theorem total_le (nthreads : ℕ) (i : Fin 3) (s : System Point Globals) :
    total nthreads i s ≤ nthreads := by
  have hone : ∀ t ∈ Finset.range nthreads, counts i (s.phase t) ≤ 1 := fun t _ => by
    unfold counts
    split <;> first | exact le_rfl | (split_ifs <;> omega) | exact Nat.zero_le _
  calc total nthreads i s ≤ ∑ _t ∈ Finset.range nthreads, 1 := Finset.sum_le_sum hone
    _ = nthreads := by simp

/-- **Without the mutex, every increment matters**: in whatever way the threads are interleaved,
none of the three variables is ever counted too far, and in the end one of them is counted up to its
due value exactly if each thread, as it was about to write the variable, had read it after all
earlier writes. -/
theorem all_counted_iff (hrun : run (step false nthreads) (System.start .start) ls = some s)
    (i : Fin 3) :
    s.shared.g i ≤ Globals.start.g i + nthreads ∧
    (s.Done nthreads → (s.shared.g i = Globals.start.g i + nthreads ↔
      Every (step false nthreads) (fun s t => UpToDate i s t) (System.start .start) ls)) := by
  have hinv : Inv nthreads i (Globals.start.g i) s :=
    run_invariant (fun _ _ _ hi h => hi.step h) (inv_start nthreads i) hrun
  have hle := hinv.1.1
  have htotal := total_le nthreads i s
  refine ⟨by omega, fun hdone => ⟨fun heq => ?_, fun hevery => ?_⟩⟩
  · have hall : Every (step false nthreads) (fun _ _ => True) (System.start .start) ls :=
      every_of_forall (fun _ _ => trivial) _
    have hcases := Every.or_broken (P := Inv nthreads i (Globals.start.g i))
      (Q := Behind nthreads i (Globals.start.g i)) (G := fun s t => UpToDate i s t)
      (fun _ _ _ hi _ h => hi.step h) (fun _ _ _ hi _ hnot h => hi.lost hnot h)
      (fun _ _ _ _ hb _ h => hb.step h) hall (inv_start nthreads i) hrun
    rcases hcases with hevery | ⟨hlt, -⟩
    · exact hevery
    · rw [total_of_done hdone] at hlt
      omega
  · have hg := hevery.invariant
      (P := fun s => s.shared.g i = Globals.start.g i + total nthreads i s)
      (fun _ _ _ hg hup h => hup.counts h hg) (by rw [total_start, Int.ofNat_zero, add_zero]; rfl)
      hrun
    rwa [total_of_done hdone] at hg

/-- Two threads that have both read the second variable before either writes it: the first and the
third are counted twice, the second once. -/
theorem all_counted_iff_two : ∃ ls s, run (step false 2) (System.start .start) ls = some s ∧
    s.shared.g 0 = 12 ∧ s.shared.g 1 = 13 ∧ s.shared.g 2 = 16 ∧
    Every (step false 2) (fun s t => UpToDate 0 s t) (System.start .start) ls ∧
    ¬Every (step false 2) (fun s t => UpToDate 1 s t) (System.start .start) ls ∧
    Every (step false 2) (fun s t => UpToDate 2 s t) (System.start .start) ls := by
  obtain ⟨s, hrun, hdone, h0, h1, h2⟩ : ∃ s, run (step false 2) (System.start .start)
      ([0, 0, 0, 1, 1, 1, 0, 1, 0, 1] ++ List.replicate 7 0 ++ List.replicate 7 1) = some s ∧
      s.Done 2 ∧ s.shared.g 0 = 12 ∧ s.shared.g 1 = 13 ∧ s.shared.g 2 = 16 :=
    ⟨_, rfl, by decide, by decide, by decide, by decide⟩
  refine ⟨_, s, hrun, h0, h1, h2, ?_, ?_, ?_⟩
  · exact ((all_counted_iff hrun 0).2 hdone).mp (by rw [h0]; rfl)
  · rw [← (all_counted_iff hrun 1).2 hdone, h1]
    decide
  · exact ((all_counted_iff hrun 2).2 hdone).mp (by rw [h2]; rfl)

end Unlocked

end Mutex1

end SystemProgramming
