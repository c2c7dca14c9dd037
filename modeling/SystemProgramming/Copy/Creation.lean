import SystemProgramming.Copy.Threads

/-!
# A `FATAL` that returns, in the creation loop

The creation loop of `do_mt_copy` allocates `ToThread[i]`, calls `FATAL` when that
fails, and then fills the structure in. It relies on `FATAL` not to return. But
`handle_err` returns when *its* allocation fails
(`SystemProgramming.HandleErr.handleErr_returns_iff`), and then the next statement
writes through a NULL pointer.

That happens exactly when the two allocations fail one after the other
(`SystemProgramming.MtCopy.fatal_exits_iff`), in any iteration of the loop and
whatever the workers created before are doing meanwhile.
-/

namespace SystemProgramming

open HandleErr Runs

namespace MtCopy

variable {α : Type*} [Zero α] {src old : List α} {heap : ℕ → ℕ → ℕ → α} {N : ℕ}
  {s s' : System α} {l : Thread × Answer}

/-- The allocation that `handle_err` makes for itself, after a failed allocation of
`ToThread[i]`, succeeds. -/
def FatalAllocates (s : System α) (l : Thread × Answer) : Prop :=
  ∀ i, s.main = .callocFatal i → l ≠ (.main, .err)

theorem afterCreate_ne_segv (i j : ℕ) : afterCreate N i ≠ .segv j := by
  rw [afterCreate]
  split_ifs <;> simp

theorem afterJoin_ne_segv (i j : ℕ) : afterJoin N i ≠ .segv j := by
  rw [afterJoin]
  split_ifs <;> simp

/-- **The one step that dereferences NULL**: the message of `FATAL` cannot be
allocated, after `ToThread[i]` could not be. -/
theorem main_eq_segv_iff (hstep : step src N heap s l = some s') (i : ℕ) :
    s'.main = .segv i ↔ s.main = .callocFatal i ∧ l = (.main, .err) := by
  have hlive : s.main ≠ .segv i := by
    intro hpc
    rw [step, hpc] at hstep
    cases hstep
  obtain ⟨th, a⟩ := l
  rcases step_cases hstep with ⟨rfl, hmove⟩ | ⟨j, k, k', w', rfl, -, -, rfl⟩
  · cases hmove with
    | calloc hpc => simp [hpc]
    | callocFails hpc => simp [hpc]
    | exits hpc => simp
    | segv hpc => simp [hpc]
    | create hpc => simp [hpc, afterCreate_ne_segv]
    | createFails hpc => simp [hpc]
    | goesOn hpc => simp [hpc, afterCreate_ne_segv]
    | join hpc => simp [afterJoin_ne_segv]
    | joinAbsent hpc => simp [hpc]
  · simp [hlive]

/-- **When `FATAL` is the end**: a fatal report never returns exactly if it can
allocate its message; and in a run of `do_mt_copy` no `ToThread[i]` that is NULL is
dereferenced exactly if the reports on failed allocations of `ToThread[i]` all
can. -/
theorem fatal_exits_iff {ls : List (Thread × Answer)}
    (hrun : run (step src N heap) (System.start old) ls = some s) :
    (∀ (strerror : ℤ → List Char) (fatal : ℤ) (msg : List Char) (errno : ℤ) (alloc : Bool),
        fatal ≠ 0 → ((∀ v, (handleErr strerror fatal msg errno alloc).control ≠ .returns v) ↔
          alloc = true)) ∧
      ((∀ i, s.main ≠ .segv i) ↔
        Every (step src N heap) FatalAllocates (System.start old) ls) := by
  constructor
  · intro strerror fatal msg errno alloc hfatal
    have h : (∃ v, (handleErr strerror fatal msg errno alloc).control = .returns v) ↔
        alloc = false := handleErr_returns_iff hfatal
    rw [← Bool.not_eq_false, ← h, not_exists]
  · constructor
    · intro hnot
      have hbreak : ∀ (s : System α) l t, ¬FatalAllocates s l →
          step src N heap s l = some t → ∃ i, t.main = .segv i := by
        intro s l t hG hst
        obtain ⟨i, hpc, hl⟩ : ∃ i, s.main = .callocFatal i ∧ l = (.main, .err) := by
          simpa [FatalAllocates] using hG
        exact ⟨i, (main_eq_segv_iff hst i).mpr ⟨hpc, hl⟩⟩
      -- a process that was killed makes no step
      have hkeep : ∀ (s : System α) l t, (∃ i, s.main = .segv i) →
          step src N heap s l = some t → ∃ i, t.main = .segv i := by
        rintro s l t ⟨i, hpc⟩ hst
        rw [step, hpc] at hst
        cases hst
      rcases Every.or_broken (P := fun _ => True) (D := fun _ _ => True)
        (fun _ _ _ _ _ _ => trivial) (fun s l t _ _ => hbreak s l t)
        (fun s l t _ hQ _ => hkeep s l t hQ) (every_of_forall (fun _ _ => trivial) _) trivial
        hrun with hE | ⟨i, hi⟩
      · exact hE
      · exact absurd hi (hnot i)
    · intro hE
      refine hE.invariant (P := fun s => ∀ i, s.main ≠ .segv i) (fun s l t _ hG hst i hi => ?_)
        (fun i hi => ?_) hrun
      · obtain ⟨hpc, hl⟩ := (main_eq_segv_iff hst i).mp hi
        exact hG i hpc hl
      · cases hi

/-- The first allocation fails, and so does that of the message. -/
theorem fatal_exits_iff_at :
    ∃ s : System UInt8, run (step [1, 2, 3] 2 fun _ _ _ => 0) (System.start [])
        [(.main, .err), (.main, .ok)] = some s ∧
      (∀ (strerror : ℤ → List Char) (fatal : ℤ) (msg : List Char) (errno : ℤ) (alloc : Bool),
        fatal ≠ 0 → ((∀ v, (handleErr strerror fatal msg errno alloc).control ≠ .returns v) ↔
          alloc = true)) ∧
      ((∀ i, s.main ≠ .segv i) ↔ Every (step [(1 : UInt8), 2, 3] 2 fun _ _ _ => 0)
        FatalAllocates (System.start []) [(.main, .err), (.main, .ok)]) :=
  ⟨_, rfl, fatal_exits_iff rfl⟩

/-- **`FATAL` returns when memory is out**: `handle_err` gives up with -1, and
`do_mt_copy` writes through the NULL pointer it has just reported. -/
theorem fatal_returns :
    (handleErr (fun _ => []) EXIT_FAILURE "calloc stToThread[0] failed!".toList 12 false).control =
        .returns (-1) ∧
      ∃ s : System UInt8, run (step [1, 2, 3] 2 fun _ _ _ => 0) (System.start [])
        [(.main, .err), (.main, .err)] = some s ∧ s.main = .segv 0 :=
  ⟨rfl, _, rfl, rfl⟩

end MtCopy

end SystemProgramming
