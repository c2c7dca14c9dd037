import Mathlib.Data.List.Nodup
import Mathlib.Data.List.Perm.Subperm
import Mathlib.Logic.Function.Basic
import SystemProgramming.Mutex
import SystemProgramming.Runs

/-!
# Threads with one critical section each

Threads that take a lock, work on shared data step by step, and give the lock back. Nothing
here mentions a program: what a thread does to the data is a step function. What is proved of
it is stated in two ways.

* **A protocol**: an invariant of the data that holds while the lock is free – the *resource*,
  which may speak of the threads that have entered – and one for each control point inside
  (`SystemProgramming.CriticalSection.Protocol`). With the lock, the resource invariant holds
  when all threads have left (`SystemProgramming.CriticalSection.Guarded.resource`).
* **An outcome**: what comes of the data when nobody interferes, a function that the steps do
  not change (`SystemProgramming.CriticalSection.Outcome`). It is a protocol: with the lock,
  any interleaving of the steps comes to what the threads come to one after another, in the
  order in which they have taken the lock
  (`SystemProgramming.CriticalSection.shared_eq_serial`).

Where a thread gets through its section, all of them do: whatever has happened, the rest can
happen (`SystemProgramming.CriticalSection.Guarded.exists_run_done`).
-/

namespace SystemProgramming

open Runs

namespace CriticalSection

variable {κ σ : Type*}

/-- Where a thread stands with respect to its critical section. -/
inductive Phase (κ : Type*) where
  /-- It has not entered it. -/
  | outside
  /-- It is in it, at this control point. -/
  | inside (k : κ)
  /-- It has left it. -/
  | done
  deriving DecidableEq, Repr

/-- The threads, and what they share. -/
structure System (κ σ : Type*) where
  mutex : Mutex
  phase : ℕ → Phase κ
  shared : σ
  /-- The threads that have entered, in this order. -/
  entered : List ℕ

/-- No thread has entered. -/
def System.start (x : σ) : System κ σ := ⟨.free, fun _ => .outside, x, []⟩

/-- The thread `t` enters at the control point `k`, with the lock if there is locking; it
waits while the lock is held. -/
def enter (locking : Bool) (t : ℕ) (k : κ) (s : System κ σ) : Option (System κ σ) :=
  (if locking then s.mutex.lock (.worker t) else some s.mutex).map fun m =>
    { s with mutex := m, phase := Function.update s.phase t (.inside k),
             entered := s.entered ++ [t] }

/-- The thread `t` leaves, and gives the lock back. -/
def leave (locking : Bool) (t : ℕ) (s : System κ σ) : Option (System κ σ) :=
  (if locking then s.mutex.unlock (.worker t) else some s.mutex).map fun m =>
    { s with mutex := m, phase := Function.update s.phase t .done }

/-- **The step function**: `next` says what a thread does in its critical section, and has no
result when it is through. -/
def step (locking : Bool) (nthreads : ℕ) (init : ℕ → κ) (next : ℕ → κ → σ → Option (κ × σ))
    (s : System κ σ) (t : ℕ) : Option (System κ σ) :=
  if t < nthreads then
    match s.phase t with
    | .outside => enter locking t (init t) s
    | .inside k =>
      match next t k s.shared with
      | some (k', x) =>
        some { s with phase := Function.update s.phase t (.inside k'), shared := x }
      | none => leave locking t s
    | .done => none
  else none

/-- All threads have left. -/
def System.Done (nthreads : ℕ) (s : System κ σ) : Prop := ∀ t < nthreads, s.phase t = .done

instance [DecidableEq κ] (nthreads : ℕ) (s : System κ σ) : Decidable (s.Done nthreads) :=
  inferInstanceAs (Decidable (∀ t < nthreads, s.phase t = .done))

/-- **A protocol**: `R ts x` is what holds of the data `x` while the lock is free, the threads
`ts` having entered, and `A ts t k x` is what holds of it while `t`, the last of them, is
inside at `k`. -/
structure Protocol (nthreads : ℕ) (init : ℕ → κ) (next : ℕ → κ → σ → Option (κ × σ))
    (R : List ℕ → σ → Prop) (A : List ℕ → ℕ → κ → σ → Prop) : Prop where
  enter : ∀ ts t x, R ts x → t < nthreads → t ∉ ts → A (ts ++ [t]) t (init t) x
  goOn : ∀ ts t k x k' x', A ts t k x → next t k x = some (k', x') → A ts t k' x'
  through : ∀ ts t k x, A ts t k x → next t k x = none → R ts x

/-- **The invariant**: a thread is inside exactly if it has the lock, and the data is as the
protocol says. -/
structure Guarded (nthreads : ℕ) (R : List ℕ → σ → Prop) (A : List ℕ → ℕ → κ → σ → Prop)
    (s : System κ σ) : Prop where
  worker : s.mutex.owner ≠ some .main
  inside : ∀ t, s.mutex.owner = some (.worker t) →
    ∃ k, s.phase t = .inside k ∧ A s.entered t k s.shared
  alone : ∀ t k, s.phase t = .inside k → s.mutex.owner = some (.worker t)
  free : s.mutex.owner = none → R s.entered s.shared
  nodup : s.entered.Nodup
  mem : ∀ t, t ∈ s.entered ↔ s.phase t ≠ .outside
  lt : ∀ t ∈ s.entered, t < nthreads

section Steps

variable {nthreads t : ℕ} {init : ℕ → κ} {next : ℕ → κ → σ → Option (κ × σ)}
  {R : List ℕ → σ → Prop} {A : List ℕ → ℕ → κ → σ → Prop} {x : σ} {s s' : System κ σ}
  {ls : List ℕ} {k k' : κ}

theorem guarded_start (h : R [] x) : Guarded nthreads R A (System.start x) where
  worker := by simp [System.start, Mutex.free]
  inside _ h := by cases h
  alone _ _ h := by cases h
  free _ := h
  nodup := List.nodup_nil
  mem t := by simp [System.start]
  lt _ h := by cases h

/-- What holds of the data while a thread is inside. -/
theorem Guarded.at (h : Guarded nthreads R A s) (hphase : s.phase t = .inside k) :
    A s.entered t k s.shared := by
  obtain ⟨k₀, hk₀, hA⟩ := h.inside t (h.alone t k hphase)
  obtain rfl : k₀ = k := by simpa [hphase] using hk₀.symm
  exact hA

/-- **A thread enters**, nobody being inside. -/
theorem Guarded.enter (h : Guarded nthreads R A s) (hprot : Protocol nthreads init next R A)
    (ht : t < nthreads) (hphase : s.phase t = .outside)
    (hstep : enter true t (init t) s = some s') : Guarded nthreads R A s' := by
  obtain ⟨m, hlock, rfl⟩ := Option.map_eq_some_iff.mp hstep
  obtain ⟨hfree, rfl⟩ := Mutex.lock_eq_some.mp hlock
  have hnot : t ∉ s.entered := fun hmem => (h.mem t).mp hmem hphase
  constructor
  case worker => simp
  case inside =>
    intro u hu
    obtain rfl : t = u := by simpa using hu
    exact ⟨init t, Function.update_self _ _ _, hprot.enter _ _ _ (h.free hfree) ht hnot⟩
  case alone =>
    intro u k hu
    rcases eq_or_ne u t with rfl | hne
    · rfl
    · change Function.update s.phase t _ u = _ at hu
      rw [Function.update_of_ne hne] at hu
      exact absurd (hfree.symm.trans (h.alone u k hu)) (by simp)
  case free => exact fun hf => by cases hf
  case nodup =>
    exact List.nodup_append.mpr ⟨h.nodup, List.nodup_singleton t, fun a ha b hb heq =>
      hnot (List.mem_singleton.mp hb ▸ heq ▸ ha)⟩
  case mem =>
    intro u
    change u ∈ s.entered ++ [t] ↔ Function.update s.phase t _ u ≠ _
    rcases eq_or_ne u t with rfl | hne
    · simp
    · rw [Function.update_of_ne hne, List.mem_append, h.mem, List.mem_singleton]
      exact or_iff_left hne
  case lt =>
    intro u hu
    rcases List.mem_append.mp hu with hold | hnew
    · exact h.lt u hold
    · exact List.mem_singleton.mp hnew ▸ ht

/-- **A thread inside goes on.** -/
theorem Guarded.goOn (h : Guarded nthreads R A s) (hprot : Protocol nthreads init next R A)
    (hphase : s.phase t = .inside k) {y : σ} (hnext : next t k s.shared = some (k', y)) :
    Guarded nthreads R A
      { s with phase := Function.update s.phase t (.inside k'), shared := y } := by
  have howner := h.alone t k hphase
  have hother : ∀ u, u ≠ t → Function.update s.phase t (.inside k') u = s.phase u :=
    fun u hne => Function.update_of_ne hne _ _
  constructor
  case worker => exact h.worker
  case inside =>
    intro u hu
    obtain rfl : u = t := by
      have hut := hu.symm.trans howner
      simpa using hut
    exact ⟨k', Function.update_self _ _ _, hprot.goOn _ _ _ _ _ _ (h.at hphase) hnext⟩
  case alone =>
    intro u k₀ hu
    rcases eq_or_ne u t with rfl | hne
    · exact howner
    · change Function.update s.phase t _ u = _ at hu
      rw [hother u hne] at hu
      exact h.alone u k₀ hu
  case free => exact fun hf => absurd (hf.symm.trans howner) (by simp)
  case nodup => exact h.nodup
  case mem =>
    intro u
    change u ∈ s.entered ↔ Function.update s.phase t _ u ≠ _
    rw [h.mem]
    rcases eq_or_ne u t with rfl | hne
    · simp [hphase]
    · rw [hother u hne]
  case lt => exact h.lt

/-- **A thread leaves.** -/
theorem Guarded.leave (h : Guarded nthreads R A s) (hprot : Protocol nthreads init next R A)
    (hphase : s.phase t = .inside k) (hnext : next t k s.shared = none)
    (hstep : leave true t s = some s') : Guarded nthreads R A s' := by
  obtain ⟨m, hunlock, rfl⟩ := Option.map_eq_some_iff.mp hstep
  obtain ⟨howner, rfl⟩ := Mutex.unlock_eq_some.mp hunlock
  have hother : ∀ u, u ≠ t → Function.update s.phase t .done u = s.phase u :=
    fun u hne => Function.update_of_ne hne _ _
  constructor
  case worker => simp [Mutex.free]
  case inside => exact fun u hu => by cases hu
  case alone =>
    intro u k₀ hu
    change Function.update s.phase t _ u = _ at hu
    rcases eq_or_ne u t with rfl | hne
    · rw [Function.update_self] at hu
      cases hu
    · rw [hother u hne] at hu
      have hut := (h.alone u k₀ hu).symm.trans howner
      exact absurd (by simpa using hut) hne
  case free =>
    exact fun _ => hprot.through _ _ _ _ (h.at hphase) hnext
  case nodup => exact h.nodup
  case mem =>
    intro u
    change u ∈ s.entered ↔ Function.update s.phase t _ u ≠ _
    rw [h.mem]
    rcases eq_or_ne u t with rfl | hne
    · simp [hphase]
    · rw [hother u hne]
  case lt => exact h.lt

/-- **One step**, with locking. -/
theorem Guarded.step (h : Guarded nthreads R A s) (hprot : Protocol nthreads init next R A)
    (hstep : step true nthreads init next s t = some s') : Guarded nthreads R A s' := by
  unfold CriticalSection.step at hstep
  split_ifs at hstep with ht
  split at hstep <;> rename_i hphase
  · exact h.enter hprot ht hphase hstep
  · split at hstep <;> rename_i hnext
    · obtain rfl := Option.some.inj hstep
      exact h.goOn hprot hphase hnext
    · exact h.leave hprot hphase hnext hstep
  · cases hstep

/-- **The invariant along a run**, with locking. -/
theorem Guarded.run (hprot : Protocol nthreads init next R A) (hstart : R [] x)
    (hrun : run (CriticalSection.step true nthreads init next) (System.start x) ls = some s) :
    Guarded nthreads R A s :=
  run_invariant (P := Guarded nthreads R A) (fun _ _ _ h hst => h.step hprot hst)
    (guarded_start hstart) hrun

/-- **When all have left**, nobody has the lock, and all have entered, each once. -/
theorem Guarded.resource (h : Guarded nthreads R A s) (hdone : s.Done nthreads) :
    R s.entered s.shared ∧ s.entered.Perm (List.range nthreads) := by
  constructor
  · refine h.free ?_
    cases howner : s.mutex.owner with
    | none => rfl
    | some u =>
      cases u with
      | main => exact absurd howner h.worker
      | worker t =>
        obtain ⟨k, hk, -⟩ := h.inside t howner
        have hmem : t ∈ s.entered := (h.mem t).mpr (by simp [hk])
        exact absurd (hk.symm.trans (hdone t (h.lt t hmem))) (by simp)
  · refine (List.perm_ext_iff_of_nodup h.nodup List.nodup_range).mpr fun t => ?_
    rw [List.mem_range]
    refine ⟨h.lt t, fun ht => (h.mem t).mpr ?_⟩
    rw [hdone t ht]
    simp

/-! ### All threads get through -/

/-- **Somebody can move**, as long as not all have left: the thread inside if there is one,
and any that has not entered if there is none. -/
theorem Guarded.exists_step (h : Guarded nthreads R A s) (hnot : ¬s.Done nthreads) :
    ∃ t s', CriticalSection.step true nthreads init next s t = some s' := by
  cases howner : s.mutex.owner with
  | none =>
    rw [System.Done] at hnot
    push Not at hnot
    obtain ⟨t, ht, hphase⟩ := hnot
    have houtside : s.phase t = .outside := by
      cases hp : s.phase t with
      | outside => rfl
      | inside k => exact absurd (howner.symm.trans (h.alone t k hp)) (by simp)
      | done => exact absurd hp hphase
    refine ⟨t, { s with mutex := ⟨some (.worker t)⟩,
                        phase := Function.update s.phase t (.inside (init t)),
                        entered := s.entered ++ [t] }, ?_⟩
    simp [CriticalSection.step, ht, houtside, CriticalSection.enter, Mutex.lock, howner]
  | some u =>
    cases u with
    | main => exact absurd howner h.worker
    | worker t =>
      obtain ⟨k, hk, -⟩ := h.inside t howner
      have ht : t < nthreads := h.lt t ((h.mem t).mpr (by simp [hk]))
      cases hnext : next t k s.shared with
      | none =>
        refine ⟨t, { s with mutex := .free, phase := Function.update s.phase t .done }, ?_⟩
        simp [CriticalSection.step, ht, hk, hnext, CriticalSection.leave, Mutex.unlock, howner]
      | some ky =>
        refine ⟨t, { s with phase := Function.update s.phase t (.inside ky.1), shared := ky.2 }, ?_⟩
        simp [CriticalSection.step, ht, hk, hnext]

/-- How many steps are left to a thread, where `left` says it of those that are inside. -/
def Phase.left (left : κ → ℕ) (k : κ) : Phase κ → ℕ
  | .outside => left k + 2
  | .inside k => left k + 1
  | .done => 0

/-- Every step leaves less to do. -/
theorem Guarded.left_step {left : κ → ℕ}
    (hleft : ∀ ts t k y k' y', A ts t k y → next t k y = some (k', y') → left k' < left k)
    (h : Guarded nthreads R A s)
    (hstep : CriticalSection.step true nthreads init next s t = some s') :
    ∑ u ∈ Finset.range nthreads, Phase.left left (init u) (s'.phase u) <
      ∑ u ∈ Finset.range nthreads, Phase.left left (init u) (s.phase u) := by
  unfold CriticalSection.step at hstep
  split_ifs at hstep with ht
  split at hstep <;> rename_i hphase
  · obtain ⟨m, -, rfl⟩ := Option.map_eq_some_iff.mp hstep
    refine sum_update_lt (f := fun u => Phase.left left (init u)) ht ?_
    rw [hphase]
    exact Nat.lt_succ_self _
  · split at hstep <;> rename_i hnext
    · obtain rfl := Option.some.inj hstep
      refine sum_update_lt (f := fun u => Phase.left left (init u)) ht ?_
      rw [hphase]
      exact Nat.succ_lt_succ (hleft _ _ _ _ _ _ (h.at hphase) hnext)
    · obtain ⟨m, -, rfl⟩ := Option.map_eq_some_iff.mp hstep
      refine sum_update_lt (f := fun u => Phase.left left (init u)) ht ?_
      rw [hphase]
      exact Nat.succ_pos _
  · cases hstep

/-- **All threads get through**: from wherever a run has led, another leads on to where all
have left, if what a thread does inside comes to an end. -/
theorem Guarded.exists_run_done {left : κ → ℕ} (hprot : Protocol nthreads init next R A)
    (hleft : ∀ ts t k y k' y', A ts t k y → next t k y = some (k', y') → left k' < left k)
    (h : Guarded nthreads R A s) :
    ∃ ls s', Runs.run (CriticalSection.step true nthreads init next) s ls = some s' ∧
      s'.Done nthreads := by
  have hmove : ∀ s, Guarded nthreads R A s → ¬s.Done nthreads → ∃ t s', True ∧
      CriticalSection.step true nthreads init next s t = some s' ∧
      Guarded nthreads R A s' ∧
      ∑ u ∈ Finset.range nthreads, Phase.left left (init u) (s'.phase u) <
        ∑ u ∈ Finset.range nthreads, Phase.left left (init u) (s.phase u) := by
    intro s hs hnot
    obtain ⟨t, s', hstep⟩ : ∃ t s', CriticalSection.step true nthreads init next s t = some s' :=
      hs.exists_step hnot
    exact ⟨t, s', trivial, hstep, hs.step hprot hstep, hs.left_step hleft hstep⟩
  obtain ⟨ls, s', -, hrun, -, hdone⟩ :=
    exists_run_of_measure (G := fun _ _ => True) _ hmove s h
  exact ⟨ls, s', hrun, hdone⟩

end Steps

/-! ### What the threads come to -/

/-- **An outcome** of the critical sections: what comes of the data when a thread goes on from
a control point to its end. -/
structure Outcome (next : ℕ → κ → σ → Option (κ × σ)) (outcome : ℕ → κ → σ → σ) : Prop where
  goOn : ∀ t k x k' x', next t k x = some (k', x') → outcome t k x = outcome t k' x'
  through : ∀ t k x, next t k x = none → outcome t k x = x

/-- The threads one after another. -/
def serial (init : ℕ → κ) (outcome : ℕ → κ → σ → σ) (ts : List ℕ) (x : σ) : σ :=
  ts.foldl (fun x t => outcome t (init t) x) x

section Serial

variable {nthreads t : ℕ} {init : ℕ → κ} {next : ℕ → κ → σ → Option (κ × σ)}
  {outcome : ℕ → κ → σ → σ} {x : σ} {s s' : System κ σ} {ls : List ℕ}

theorem serial_concat (ts : List ℕ) (t : ℕ) :
    serial init outcome (ts ++ [t]) x = outcome t (init t) (serial init outcome ts x) :=
  List.foldl_append

/-- **An outcome is a protocol.** -/
theorem Outcome.protocol (hout : Outcome next outcome) : Protocol nthreads init next
    (fun ts y => y = serial init outcome ts x)
    (fun ts t k y => outcome t k y = serial init outcome ts x) where
  enter ts t y hy _ _ := by rw [serial_concat, hy]
  goOn ts t k y k' y' hA hnext := (hout.goOn t k y k' y' hnext).symm.trans hA
  through ts t k y hA hnext := (hout.through t k y hnext).symm.trans hA

/-- **With the lock, the threads are serialised**: when all have left their critical sections,
the data is what the threads come to one after another, in the order they have entered. -/
theorem shared_eq_serial (hout : Outcome next outcome)
    (hrun : Runs.run (CriticalSection.step true nthreads init next) (System.start x) ls = some s)
    (hdone : s.Done nthreads) :
    s.shared = serial init outcome s.entered x ∧ s.entered.Perm (List.range nthreads) := by
  exact (Guarded.run hout.protocol rfl hrun).resource hdone

/-- **All threads get through**: from wherever a run has led, another leads on to where all
have left, if what a thread does inside comes to an end. -/
theorem Outcome.exists_run_done {left : κ → ℕ} (hout : Outcome next outcome)
    (hleft : ∀ t k y k' y', next t k y = some (k', y') → left k' < left k)
    (hrun : run (CriticalSection.step true nthreads init next) (System.start x) ls = some s) :
    ∃ ls s', Runs.run (CriticalSection.step true nthreads init next) s ls = some s' ∧
      s'.Done nthreads :=
  (Guarded.run (x := x) hout.protocol rfl hrun).exists_run_done hout.protocol
    fun _ t k y k' y' _ hnext => hleft t k y k' y' hnext

end Serial

end CriticalSection

end SystemProgramming
