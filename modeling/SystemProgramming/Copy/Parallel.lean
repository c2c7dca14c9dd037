import SystemProgramming.Copy.ShortCounts
import SystemProgramming.Copy.Threads

/-!
# What a parallel copy leaves behind

Two results about whole runs of `do_mt_copy`, on the course established in
`SystemProgramming.Copy.Threads`.

* **Failures are not reported** (`SystemProgramming.MtCopy.all_written_iff`).
  `worker` drops what `__do_mt_copy` returns, so `do_mt_copy` returns 0 whatever
  became of the pieces. The source has then been written completely exactly if
  every call made for a piece that is not empty succeeded, and an `int` counts the
  pieces. A failed call loses the first byte of its piece for good
  (`SystemProgramming.MtCopy.Lost`): no later call is made for that piece, and the
  calls for the others write elsewhere.
* **Without failures, the parallel copy is the sequential one**
  (`SystemProgramming.MtCopy.do_mt_copy_eq_docopy`): the pieces tile the file, each
  is written once and in full, and the order does not matter. Every run can be
  brought to its end, since a thread that can move is always found and the calls
  still to be made become fewer.
-/

namespace SystemProgramming

open Bytes Pieces Runs

namespace MtCopy

variable {α : Type*} {src old : List α} {N j p : ℕ}

/-- The byte at position `p` of the source was written to the same position. -/
def Written (src : List α) (w : Dest α) (p : ℕ) : Prop :=
  ∃ x ∈ w.writes, Covers x p ∧ x.2[p - x.1]? = src[p]?

instance [DecidableEq α] (src : List α) (w : Dest α) (p : ℕ) : Decidable (Written src w p) :=
  inferInstanceAs (Decidable (∃ x ∈ w.writes, Covers x p ∧ x.2[p - x.1]? = src[p]?))

/-! ### What is written of a piece -/

/-- What is written of a piece is the source in its place. -/
theorem pieceData_agrees : Agrees src (pieceData src N j) := by
  rintro p ⟨h1, h2⟩
  have hlt : p - pieceOff N src.length j < intCount (pieceLen N src.length j) := by
    simp only [pieceData, List.length_take] at h1 h2
    omega
  simp only [pieceData] at h1 ⊢
  rw [List.getElem?_take, if_pos hlt, List.getElem?_drop]
  congr 1
  omega

/-- What is written of a piece lies in it, and is counted by an `int`. -/
theorem covers_pieceData (hj : j ≤ N) : Covers (pieceData src N j) p ↔
    pieceOff N src.length j ≤ p ∧
      p < pieceOff N src.length j + intCount (pieceLen N src.length j) := by
  have hend : pieceOff N src.length j + pieceLen N src.length j ≤ src.length :=
    piece_le_length hj
  have hcount := intCount_le (pieceLen N src.length j)
  have hlen : (pieceData src N j).2.length = intCount (pieceLen N src.length j) := by
    simp only [pieceData, List.length_take, List.length_drop]
    omega
  rw [Covers, hlen]
  rfl

theorem inPiece_of_covers (hj : j ≤ N) (h : Covers (pieceData src N j) p) :
    InPiece N src.length j p := by
  obtain ⟨h1, h2⟩ := (covers_pieceData hj).mp h
  exact ⟨h1, lt_of_lt_of_le h2 (Nat.add_le_add_left (intCount_le _) _)⟩

/-- Where every piece is counted by an `int`, all of it is written. -/
theorem covers_of_inPiece (hj : j ≤ N) (hlen : pieceLen N src.length j < 2 ^ 31)
    (h : InPiece N src.length j p) : Covers (pieceData src N j) p := by
  rw [covers_pieceData hj, intCount_of_lt hlen]
  exact h

/-- The pieces are counted by an `int` when the segments are. -/
theorem pieceLen_lt {L : ℕ} (hN : 0 < N) (hN5 : N ≤ 5) (hseg : L / N < 2 ^ 31) (j : ℕ) :
    pieceLen N L j < 2 ^ 31 := by
  rw [pieceLen]
  split_ifs
  · exact hseg
  · calc L % N < N := Nat.mod_lt _ hN
      _ ≤ 5 := hN5
      _ < 2 ^ 31 := by decide

section Failures

variable [Zero α] {heap : ℕ → ℕ → ℕ → α} {s s' : System α} {l : Thread × Answer}

/-! ### A call that fails -/

/-- **A piece is lost**: it is passed or abandoned, and its first byte was never
written. (A process that has exited makes no difference to the runs below.) -/
def Lost (src : List α) (N : ℕ) (s : System α) : Prop :=
  (∃ status, s.main = .exited status) ∨
    ∃ j ≤ N, 0 < pieceLen N src.length j ∧ (Passed N s j ∨ Abandoned N s j) ∧
      ∀ x ∈ s.dest.writes, ¬Covers x (pieceOff N src.length j)

/-- A piece that is not passed yet has not been written. -/
theorem SystemOk.not_covers (h : SystemOk src old N s) (hj : j ≤ N)
    (hpos : 0 < pieceLen N src.length j) (hnot : ¬Passed N s j) :
    ∀ x ∈ s.dest.writes, ¬Covers x (pieceOff N src.length j) := by
  intro x hx hcov
  obtain ⟨k, hk, hpass, rfl⟩ := h.writes x hx
  obtain rfl : k = j := (inPiece_of_covers hk hcov).unique hk hj (inPiece_pieceOff hpos)
  exact hnot hpass

/-- **A call that fails loses its piece**, unless that is empty. -/
theorem SystemOk.lost (h : SystemOk src old N s) (ha : l.2.Whole)
    (hfail : ¬CallSucceeds N src.length s l) (hstep : MtCopy.step src N heap s l = some s') :
    Lost src N s' := by
  refine Or.inr ?_
  by_cases hwork : WorkerSucceeds s l
  · -- a thread could not be created
    have hcreate : ¬CreateSucceeds N src.length s l := fun hc => hfail ⟨hwork, hc⟩
    obtain ⟨i, j, hmain, hpc, hown, hpos, herr⟩ : ∃ i j, l.1 = .main ∧ s.main = .create i ∧
        Owns N i j ∧ 0 < pieceLen N src.length j ∧ l.2 = .err := by
      simpa [CreateSucceeds] using hcreate
    obtain ⟨th, a⟩ := l
    obtain rfl : th = .main := hmain
    obtain rfl : a = .err := herr
    have hok := h.main
    rw [hpc] at hok
    have hj : j ≤ N := hown.le hok.2
    obtain ⟨hok', hkeep, hcase⟩ := h.step ha hstep
    rcases step_cases hstep with ⟨-, hmove⟩ | ⟨i', k, k', w', hi', -⟩
    · cases hmove with
      | createFails hpc' =>
        obtain rfl : i = _ := by simpa [hpc] using hpc'
        have hab : Abandoned N { s with main := .createFatal i } j := ⟨i, hown, Or.inr rfl⟩
        exact ⟨j, hj, hpos, Or.inr hab,
          hok'.not_covers hj hpos (hab.not_passed hok'.length_le hok'.main)⟩
      | callocFails hpc' => simp [hpc] at hpc'
      | segv hpc' => simp [hpc] at hpc'
      | goesOn hpc' => simp [hpc] at hpc'
      | joinAbsent hpc' => simp [hpc] at hpc'
    · cases hi'
  · -- a call of a worker failed: its piece is passed, and not written
    obtain ⟨-, -, hcase⟩ := h.step ha hstep
    rcases hcase with ⟨-, hok, -⟩ | ⟨j, hj, hnot, hpass, hcalls, hend, -⟩
    · exact absurd hok hwork
    · obtain ⟨hpos, hnfull⟩ : 0 < pieceLen N src.length j ∧ ¬l.2.IsFull := by
        rw [hcalls] at hwork
        exact Classical.not_imp.mp hwork
      refine ⟨j, hj, hpos, Or.inl hpass, ?_⟩
      rcases hend with ⟨hdest, -⟩ | ⟨hfull, -⟩
      · rw [hdest]
        exact h.not_covers hj hpos hnot
      · exact absurd hfull hnfull

/-- **What is lost stays so**: the other pieces are written elsewhere. -/
theorem Lost.step (h : Lost src N s) (hok : SystemOk src old N s) (ha : l.2.Whole)
    (hstep : MtCopy.step src N heap s l = some s') : Lost src N s' := by
  rcases h with ⟨status, hpc⟩ | ⟨j, hj, hpos, hgone, hunc⟩
  · rw [MtCopy.step, hpc] at hstep
    cases hstep
  obtain ⟨hok', hkeep, hcase⟩ := hok.step ha hstep
  have hgone' : (Passed N s j ∨ Abandoned N s' j) ∨ ∃ status, s'.main = .exited status := by
    rcases hgone with hpass | hab
    · exact Or.inl (Or.inl hpass)
    · exact (hab.step hok hstep).imp_left Or.inr
  rcases hgone' with hgone' | hexit
  · refine Or.inr ⟨j, hj, hpos, hgone'.imp_left (hkeep j), ?_⟩
    rcases hcase with ⟨hdest, -⟩ | ⟨k, hk, hnot, hpass, -, hend, -⟩
    · rwa [hdest]
    · rcases hend with ⟨hdest, -⟩ | ⟨-, -, hdest⟩ <;> rw [hdest]
      · exact hunc
      · intro x hx hcov
        rcases List.mem_cons.mp hx with rfl | hx
        · have hin : InPiece N src.length k (pieceOff N src.length j) := inPiece_of_covers hk hcov
          obtain rfl : k = j := hin.unique hk hj (inPiece_pieceOff hpos)
          rcases hgone' with hpass' | hab'
          · exact hnot hpass'
          · exact hab'.not_passed hok'.length_le hok'.main hpass
        · exact hunc x hx hcov
  · exact Or.inl hexit

/-! ### Calls that succeed -/

/-- Every piece that is passed, and not empty, has been written. -/
def Filled (src : List α) (N : ℕ) (s : System α) : Prop :=
  ∀ j ≤ N, Passed N s j → 0 < pieceLen N src.length j → pieceData src N j ∈ s.dest.writes

/-- **A call that succeeds keeps the pieces that are passed written.** -/
theorem Filled.step (h : Filled src N s) (hok : SystemOk src old N s)
    (hlen : ∀ j, pieceLen N src.length j < 2 ^ 31) (ha : l.2.Whole)
    (hcall : WorkerSucceeds s l) (hstep : MtCopy.step src N heap s l = some s') :
    Filled src N s' := by
  intro j hj hpass hpos
  obtain ⟨-, -, hcase⟩ := hok.step ha hstep
  rcases hcase with ⟨hdest, -, hsame⟩ | ⟨k, hk, -, -, hcalls, hend, honly⟩
  · rw [hdest]
    exact h j hj (hsame j hpass) hpos
  · have hgrow : ∀ x ∈ s.dest.writes, x ∈ s'.dest.writes := by
      intro x hx
      rcases hend with ⟨hdest, -⟩ | ⟨-, -, hdest⟩ <;> rw [hdest]
      · exact hx
      · exact List.mem_cons_of_mem _ hx
    rcases honly j hpass with rfl | hpass' | hempty
    · rcases hend with ⟨-, hnot | hzero⟩ | ⟨-, -, hdest⟩
      · exact absurd (hcalls.mp hcall hpos) hnot
      · rw [intCount_of_lt (hlen j)] at hzero
        omega
      · rw [hdest]
        exact List.mem_cons_self
    · exact hgrow _ (h j hj hpass' hpos)
    · omega

/-! ### Whole runs -/

/-- When `do_mt_copy` has returned, it has joined every thread, and every piece is
passed. -/
theorem SystemOk.passed_of_ret (h : SystemOk src old N s) (hN : 0 < N) {v : ℤ}
    (hret : s.main = .ret v) (hj : j ≤ N) : Passed N s j := by
  have hmain := h.main
  rw [hret] at hmain
  obtain ⟨i, hi, hown⟩ := exists_owns hN hj
  obtain ⟨k, hk, hphase⟩ := hmain.2.2 i hi
  refine ⟨i, k, hk, hown, ?_⟩
  rw [Worker.Done, hphase]
  trivial

/-- **A run of the process** keeps the course. -/
theorem systemOk_run (hN : 0 < N) {ls : List (Thread × Answer)} (hl : ∀ l ∈ ls, l.2.Whole)
    (h : run (MtCopy.step src N heap) (System.start old) ls = some s) :
    SystemOk src old N s :=
  (every_of_forall hl _).invariant (fun _ _ _ hs hD hst => (hs.step hD hst).1)
    (systemOk_start src old hN) h

/-- **A run without failures**: the source is written, all of it. -/
theorem written_of_calls (hN : 0 < N) (hlen : ∀ j, pieceLen N src.length j < 2 ^ 31)
    {ls : List (Thread × Answer)} (hl : ∀ l ∈ ls, l.2.Whole)
    (hcalls : Every (MtCopy.step src N heap) (CallSucceeds N src.length) (System.start old) ls)
    (h : run (MtCopy.step src N heap) (System.start old) ls = some s) {v : ℤ}
    (hret : s.main = .ret v) : ∀ p < src.length, ∃ x ∈ s.dest.writes, Covers x p := by
  obtain ⟨hok, hfill⟩ : SystemOk src old N s ∧ Filled src N s := by
    refine Every.invariant (P := fun s => SystemOk src old N s ∧ Filled src N s)
      (G := fun s l => l.2.Whole ∧ CallSucceeds N src.length s l) ?_ ?_ ?_ h
    · exact fun x i y hx hG hst =>
        ⟨(hx.1.step hG.1 hst).1, hx.2.step hx.1 hlen hG.1 hG.2.1 hst⟩
    · exact (every_of_forall hl _).and hcalls
    · refine ⟨systemOk_start src old hN, ?_⟩
      rintro j - ⟨i, k, hk, -⟩
      cases hk
  intro p hp
  obtain ⟨j, hj, hin⟩ := exists_inPiece (N := N) hp
  have hpos : 0 < pieceLen N src.length j := by
    have := hin.1
    have := hin.2
    omega
  exact ⟨_, hfill j hj (hok.passed_of_ret hN hret hj) hpos, covers_of_inPiece hj (hlen j) hin⟩

/-- A segment that an `int` does not count is not written to its end. -/
theorem SystemOk.not_covers_of_le (h : SystemOk src old N s) (hN : 0 < N)
    (hbig : 2 ^ 31 ≤ src.length / N) :
    ∀ x ∈ s.dest.writes, ¬Covers x (src.length / N - 1) := by
  intro x hx hcov
  obtain ⟨j, hj, -, rfl⟩ := h.writes x hx
  have hzero : InPiece N src.length 0 (src.length / N - 1) := by
    rw [InPiece, pieceLen_of_lt hN, pieceOff, Nat.zero_mul]
    omega
  obtain rfl : j = 0 := (inPiece_of_covers hj hcov).unique hj (Nat.zero_le N) hzero
  obtain ⟨-, hlt⟩ := (covers_pieceData hj).mp hcov
  have := toInt_lt_of_le hbig
  rw [pieceLen_of_lt hN, pieceOff, Nat.zero_mul, intCount] at hlt
  omega

/-- **What the process writes is the source in its place**, so a position is written
right as soon as it is written at all. -/
theorem SystemOk.written_iff (h : SystemOk src old N s) :
    Written src s.dest p ↔ ∃ x ∈ s.dest.writes, Covers x p := by
  constructor
  · rintro ⟨x, hx, hcov, -⟩
    exact ⟨x, hx, hcov⟩
  · rintro ⟨x, hx, hcov⟩
    obtain ⟨j, -, -, rfl⟩ := h.writes x hx
    exact ⟨_, hx, hcov, pieceData_agrees p hcov⟩

/-- **The covered positions**: in a run that brings `do_mt_copy` to its return, all
of the source is written exactly if the calls for pieces that are not empty
succeed and an `int` counts the segments. -/
theorem covered_iff (hN : 0 < N) (hN5 : N ≤ 5) {ls : List (Thread × Answer)}
    (hl : ∀ l ∈ ls, l.2.Whole)
    (h : run (MtCopy.step src N heap) (System.start old) ls = some s) {v : ℤ}
    (hret : s.main = .ret v) :
    (∀ p < src.length, ∃ x ∈ s.dest.writes, Covers x p) ↔
      Every (MtCopy.step src N heap) (CallSucceeds N src.length) (System.start old) ls ∧
        src.length / N < 2 ^ 31 := by
  have hok : SystemOk src old N s := systemOk_run hN hl h
  constructor
  · intro hall
    constructor
    · rcases Every.or_broken (P := SystemOk src old N) (G := CallSucceeds N src.length)
        (fun _ _ _ hs hD hst => (hs.step hD hst).1)
        (fun _ _ _ hs hD hG hst => hs.lost hD hG hst)
        (fun _ _ _ hs hQ hD hst => hQ.step hs hD hst)
        (every_of_forall hl _) (systemOk_start src old hN) h with
        hE | ⟨status, hpc⟩ | ⟨j, hj, hpos, -, hunc⟩
      · exact hE
      · -- the process has not exited
        rw [hret] at hpc
        cases hpc
      · -- the first byte of the lost piece was not written
        have hlt : pieceOff N src.length j < src.length :=
          lt_of_lt_of_le (Nat.lt_add_of_pos_right hpos) (piece_le_length hj)
        obtain ⟨x, hx, hcov⟩ := hall _ hlt
        exact absurd hcov (hunc x hx)
    · by_contra hbig
      -- no segment is written when its length does not fit an `int`
      rw [Nat.not_lt] at hbig
      have hlt : src.length / N - 1 < src.length := by
        have := Nat.div_le_self src.length N
        omega
      obtain ⟨x, hx, hcov⟩ := hall _ hlt
      exact hok.not_covers_of_le hN hbig x hx hcov
  · rintro ⟨hcalls, hseg⟩
    exact written_of_calls hN (pieceLen_lt hN hN5 hseg) hl hcalls h hret

/-- **Failures are not reported**: `do_mt_copy` returns 0 whatever its workers met,
and then the whole source has been written to the destination exactly if every
call made for a piece that is not empty succeeded – the creation of its thread
included – and an `int` counts the segments. -/
theorem all_written_iff (hN : 2 ≤ N) (hN5 : N ≤ 5) {ls : List (Thread × Answer)}
    (hl : ∀ l ∈ ls, l.2.Whole)
    (h : run (MtCopy.step src N heap) (System.start old) ls = some s) {v : ℤ}
    (hret : s.main = .ret v) :
    v = 0 ∧ ((∀ p < src.length, Written src s.dest p) ↔
      Every (MtCopy.step src N heap) (CallSucceeds N src.length) (System.start old) ls ∧
        src.length / N < 2 ^ 31) := by
  have hok : SystemOk src old N s := systemOk_run (by omega) hl h
  have hmain := hok.main
  rw [hret] at hmain
  refine ⟨hmain.1, ?_⟩
  rw [← covered_iff (by omega) hN5 hl h hret]
  exact forall₂_congr fun p _ => hok.written_iff

/-- A schedule of two threads on three bytes, all calls succeeding. -/
def threeBytes : List (Thread × Answer) :=
  [(.main, .ok), (.main, .ok), (.main, .ok), (.worker 0, .ok), (.main, .ok), (.worker 1, .ok),
    (.worker 0, .full), (.worker 1, .full), (.worker 1, .full), (.worker 0, .full),
    (.worker 1, .ok), (.main, .ok), (.worker 1, .full), (.worker 1, .full), (.main, .ok)]

/-- The schedule `threeBytes` brings `do_mt_copy` to its return. -/
theorem all_written_iff_at :
    ∃ s : System UInt8,
      run (MtCopy.step [1, 2, 3] 2 fun _ _ _ => 0) (System.start []) threeBytes = some s ∧
      s.main = .ret 0 ∧ ((∀ p < [(1 : UInt8), 2, 3].length, Written [1, 2, 3] s.dest p) ↔
        Every (MtCopy.step [(1 : UInt8), 2, 3] 2 fun _ _ _ => 0) (CallSucceeds 2 3)
          (System.start []) threeBytes ∧
        [(1 : UInt8), 2, 3].length / 2 < 2 ^ 31) := by
  obtain ⟨s, hs, hret⟩ : ∃ s : System UInt8,
      run (MtCopy.step [1, 2, 3] 2 fun _ _ _ => 0) (System.start []) threeBytes = some s ∧
      s.main = .ret 0 := ⟨_, rfl, rfl⟩
  exact ⟨s, hs, hret, (all_written_iff (by decide) (by decide) (by decide) hs hret).2⟩

/-- **One failed allocation is enough**: the first worker gets no buffer, its byte is
never written, and `do_mt_copy` returns 0 all the same. -/
theorem unreported_failure :
    ∃ s : System UInt8, run (MtCopy.step [1, 2, 3] 2 fun _ _ _ => 0) (System.start [])
        [(.main, .ok), (.main, .ok), (.main, .ok), (.main, .ok), (.worker 0, .err),
          (.worker 1, .ok), (.worker 1, .full), (.worker 1, .full), (.worker 1, .ok),
          (.worker 1, .full), (.worker 1, .full), (.main, .ok), (.main, .ok)] = some s ∧
      s.main = .ret 0 ∧ s.dest.file = [0, 2, 3] ∧ ¬Written [1, 2, 3] s.dest 0 :=
  ⟨_, rfl, rfl, rfl, by decide⟩

end Failures

/-! ### Bringing a copy to its end -/

section Termination

/-- How many calls the main thread, and the workers it has not created yet, still
make at most. -/
def MainPc.left (N : ℕ) : MainPc → ℕ
  | .calloc i => 8 * (N - i) + N + 1
  | .create i => 8 * (N - i) + N
  | .join i => N - i
  | _ => 0

/-- How many calls the workers still make at most. -/
def workersLeft (ws : List (Option (Worker α))) : ℕ := (ws.map fun o => o.elim 0 Worker.left).sum

/-- How many calls the process still makes at most. -/
def System.left (N : ℕ) (s : System α) : ℕ := s.main.left N + workersLeft s.workers

theorem workersLeft_append (ws : List (Option (Worker α))) (k : Worker α) :
    workersLeft (ws ++ [some k]) = workersLeft ws + k.left := by
  simp [workersLeft]

theorem workersLeft_set {ws : List (Option (Worker α))} {i : ℕ} {k k' : Worker α}
    (hk : ws[i]? = some (some k)) (hlt : k'.left < k.left) :
    workersLeft (ws.set i (some k')) < workersLeft ws := by
  induction ws generalizing i with
  | nil => cases hk
  | cons o ws ih =>
    cases i with
    | zero =>
      obtain rfl : o = some k := by simpa using hk
      simpa [workersLeft] using hlt
    | succ i =>
      have := ih (i := i) (by simpa using hk)
      simpa [workersLeft] using this

variable [Zero α] {heap : ℕ → ℕ → ℕ → α} {s : System α}

/-- A segment that is being copied can go on, by a call that succeeds. -/
theorem exists_segStep (src : List α) {g : Seg α} (hg : 0 < g.pc.left) (w : Dest α) :
    ∃ a r, a.IsFull ∧ segStep src g w a = some r := by
  cases hpc : g.pc with
  | malloc => exact ⟨.ok, _, Or.inl rfl, by rw [segStep, hpc]; rfl⟩
  | read tr => exact ⟨.full, _, Or.inr rfl, by rw [segStep, hpc]; rfl⟩
  | write nr tw => exact ⟨.full, _, Or.inr rfl, by rw [segStep, hpc]; rfl⟩
  | ret v =>
    rw [hpc] at hg
    exact absurd hg (lt_irrefl 0)

/-- A worker that has not exited can go on, by a call that succeeds. -/
theorem exists_workerStep (heap : ℕ → ℕ → ℕ → α) {i : ℕ} {k : Worker α} (hk : WorkerOk src N i k)
    (hrun : k.phase ≠ .exited) (w : Dest α) :
    ∃ a r, a.IsFull ∧ workerStep src heap k w a = some r := by
  have hphase := hk.phase
  cases hph : k.phase with
  | segment g =>
    rw [hph] at hphase
    obtain ⟨a, r, ha, hr⟩ := exists_segStep src hphase.2 w
    exact ⟨a, _, ha, by simp only [workerStep, hph, hr]; rfl⟩
  | remainder g =>
    rw [hph] at hphase
    obtain ⟨a, r, ha, hr⟩ := exists_segStep src hphase.2.2 w
    exact ⟨a, _, ha, by simp only [workerStep, hph, hr]; rfl⟩
  | exited => exact absurd hph hrun

/-- Nothing has failed in the main thread so far. -/
structure Smooth (s : System α) : Prop where
  workers : ∀ i : ℕ, s.workers[i]? ≠ some none
  main : match s.main with
    | .calloc _ => True
    | .create _ => True
    | .join _ => True
    | .ret _ => True
    | _ => False

omit [Zero α] in
theorem smooth_start (old : List α) : Smooth (System.start old) :=
  ⟨fun i hi => (by cases hi), trivial⟩

/-- **A call that does all it can** keeps it so. -/
theorem Smooth.step {s' : System α} {l : Thread × Answer} (h : Smooth s) (hl : l.2.IsFull)
    (hstep : MtCopy.step src N heap s l = some s') : Smooth s' := by
  have hmain := h.main
  obtain ⟨th, a⟩ := l
  rcases step_cases hstep with ⟨-, hmove⟩ | ⟨i, k, k', w', -, hk, -, rfl⟩
  · have herr : a ≠ .err := hl.ne_err
    cases hmove with
    | calloc hpc => exact ⟨h.workers, trivial⟩
    | @create i hpc =>
      refine ⟨fun i' hi' => ?_, ?_⟩
      · rcases eq_some_of_getElem?_append hi' with hold | ⟨-, hnew⟩
        · exact h.workers i' hold
        · cases hnew
      · change match MtCopy.afterCreate N i with
          | .calloc _ => True
          | .create _ => True
          | .join _ => True
          | .ret _ => True
          | _ => False
        rw [MtCopy.afterCreate]
        split_ifs <;> trivial
    | @join i k hpc hk hphase =>
      refine ⟨h.workers, ?_⟩
      change match MtCopy.afterJoin N i with
        | .calloc _ => True
        | .create _ => True
        | .join _ => True
        | .ret _ => True
        | _ => False
      rw [MtCopy.afterJoin]
      split_ifs <;> trivial
    | exits hpc =>
      rcases hpc with hpc | hpc <;> rw [hpc] at hmain <;> exact hmain.elim
    | callocFails hpc => exact absurd rfl herr
    | segv hpc => exact absurd rfl herr
    | createFails hpc => exact absurd rfl herr
    | goesOn hpc => exact absurd rfl herr
    | joinAbsent hpc hk => exact absurd hk (h.workers _)
  · refine ⟨fun i' hi' => ?_, hmain⟩
    by_cases heq : i = i'
    · subst heq
      have hself : (s.setWorker i k' w').workers[i]? = some (some k') :=
        getElem?_setWorker_self hk
      cases hself.symm.trans hi'
    · exact h.workers i' ((getElem?_setWorker_ne heq).symm.trans hi')

/-- **The process can go on until `do_mt_copy` returns**, by a call that does all it
can and leaves fewer to be made: where the main thread waits for a worker, that
worker can move. -/
theorem SystemOk.progress (h : SystemOk src old N s) (hs : Smooth s)
    (hrun : ∀ v, s.main ≠ .ret v) :
    ∃ l s', l.2.IsFull ∧ MtCopy.step src N heap s l = some s' ∧ s'.left N < s.left N := by
  have hmain := h.main
  have hsmooth := hs.main
  cases hpc : s.main with
  | calloc i =>
    refine ⟨(.main, .ok), { s with main := .create i }, Or.inl rfl, ?_, ?_⟩
    · simp [MtCopy.step, mainStep, hpc, Answer.status]
    · simp [System.left, MainPc.left, hpc]
  | create i =>
    rw [hpc] at hmain
    refine ⟨(.main, .ok), { s with
      main := MtCopy.afterCreate N i
      workers := s.workers ++ [some (Worker.init N src.length i heap)] }, Or.inl rfl, ?_, ?_⟩
    · simp [MtCopy.step, mainStep, hpc, Answer.status]
    · have hinit : (Worker.init N src.length i heap).left = 6 := rfl
      have hi : i < N := hmain.2
      have hafter : (MtCopy.afterCreate N i).left N ≤ 8 * (N - (i + 1)) + N + 1 := by
        rw [MtCopy.afterCreate]
        split_ifs
        · exact le_rfl
        · change N - 0 ≤ _
          omega
      simp only [System.left, hpc, workersLeft_append, hinit]
      change _ < 8 * (N - i) + N + _
      omega
  | join i =>
    rw [hpc] at hmain
    obtain ⟨hlen, hi, -⟩ := hmain
    obtain ⟨k, hk⟩ : ∃ k, s.workers[i]? = some (some k) := by
      have hget : s.workers[i]? = some s.workers[i] := List.getElem?_eq_getElem (hlen ▸ hi)
      rcases hw : s.workers[i] with _ | k
      · exact absurd (hget.trans (congrArg some hw)) (hs.workers i)
      · exact ⟨k, hget.trans (congrArg some hw)⟩
    by_cases hph : k.phase = .exited
    · -- the worker has exited, and the join comes back
      refine ⟨(.main, .ok), { s with main := MtCopy.afterJoin N i }, Or.inl rfl, ?_, ?_⟩
      · simp [MtCopy.step, mainStep, hpc, Answer.status, hk, hph]
      · have hafter : (MtCopy.afterJoin N i).left N < N - i := by
          rw [MtCopy.afterJoin]
          split_ifs
          · change N - (i + 1) < N - i
            omega
          · change 0 < N - i
            omega
        simp only [System.left, hpc]
        exact Nat.add_lt_add_right hafter _
    · -- it has not, and makes a step itself
      obtain ⟨a, ⟨k', w'⟩, ha, hstep⟩ := exists_workerStep heap (h.workers i k hk) hph s.dest
      obtain ⟨-, hleft, -⟩ := (h.workers i k hk).step hi ha.whole hstep
      refine ⟨(.worker i, a), s.setWorker i k' w', ha, ?_, ?_⟩
      · simp [MtCopy.step, threadStep, hpc, hk, hstep, System.setWorker]
      · exact Nat.add_lt_add_left (workersLeft_set hk hleft) _
  | ret v => exact absurd hpc (hrun v)
  | callocFatal i =>
    rw [hpc] at hsmooth
    exact hsmooth.elim
  | createFatal i =>
    rw [hpc] at hsmooth
    exact hsmooth.elim
  | exited status =>
    rw [hpc] at hsmooth
    exact hsmooth.elim
  | segv i =>
    rw [hpc] at hsmooth
    exact hsmooth.elim
  | undefined =>
    rw [hpc] at hsmooth
    exact hsmooth.elim

/-- **Every run without failures can be brought to the return of `do_mt_copy`**, by
calls that do all they can. -/
theorem SystemOk.exists_run (heap : ℕ → ℕ → ℕ → α) (h : SystemOk src old N s) (hs : Smooth s) :
    ∃ ls t, (∀ l ∈ ls, l.2.IsFull) ∧ run (MtCopy.step src N heap) s ls = some t ∧
      t.main = .ret 0 := by
  have hend : ∃ ls t, Every (MtCopy.step src N heap) (fun _ l => l.2.IsFull) s ls ∧
      run (MtCopy.step src N heap) s ls = some t ∧ (SystemOk src old N t ∧ Smooth t) ∧
        ∃ v, t.main = .ret v := by
    refine exists_run_of_measure (P := fun s => SystemOk src old N s ∧ Smooth s) (System.left N)
      (fun s hs hrun => ?_) s ⟨h, hs⟩
    obtain ⟨l, t, hl, hst, hlt⟩ := hs.1.progress hs.2 fun v hv => hrun ⟨v, hv⟩
    exact ⟨l, t, hl, hst, ⟨(hs.1.step hl.whole hst).1, hs.2.step hl hst⟩, hlt⟩
  obtain ⟨ls, t, hG, hrun, ⟨hok, -⟩, v, hret⟩ := hend
  refine ⟨ls, t, forall_of_every hG hrun, hrun, ?_⟩
  have hmain := hok.main
  rw [hret] at hmain ⊢
  rw [hmain.1]

end Termination

/-! ### The parallel copy is the sequential one -/

section Refinement

variable [Zero α] {heap : ℕ → ℕ → ℕ → α} {s s' : System α} {l : Thread × Answer}

/-- **What has been written completely** is the source, over as many of the old
bytes. -/
theorem SystemOk.file_eq_of_covered (h : SystemOk src old N s)
    (hcov : ∀ p < src.length, ∃ x ∈ s.dest.writes, Covers x p) :
    s.dest.file = src ++ old.drop src.length := by
  rw [h.file_eq]
  refine patch_eq (fun x hx => ?_) (fun x hx => ?_) hcov
  · obtain ⟨j, -, -, rfl⟩ := h.writes x hx
    exact pieceData_agrees
  · obtain ⟨j, hj, -, rfl⟩ := h.writes x hx
    have hend : pieceOff N src.length j + pieceLen N src.length j ≤ src.length :=
      piece_le_length hj
    simp only [pieceData, List.length_take, List.length_drop]
    omega

/-- **The parallel copy leaves `final`**: so does every run of `do_mt_copy` whose
calls do all they can, when it returns, and it can be brought there. -/
def ParallelLeaves (src old : List α) (N : ℕ) (heap : ℕ → ℕ → ℕ → α) (final : List α) : Prop :=
  ∀ ls s, (∀ l ∈ ls, l.2.IsFull) →
    run (MtCopy.step src N heap) (System.start old) ls = some s →
      (∀ v, s.main = .ret v → v = 0 ∧ s.dest.file = final) ∧
        ∃ ls' t, (∀ l ∈ ls', l.2.IsFull) ∧ run (MtCopy.step src N heap) s ls' = some t ∧
          t.main = .ret 0

/-- **The sequential copy leaves `final`**: so does every run of `docopy` whose calls
do all they can, when it returns, and it can be brought there. -/
def SequentialLeaves (src old : List α) (n : ℕ) (heap : ℕ → α) (final : List α) : Prop :=
  ∀ as c, (∀ a ∈ as, a.IsFull) →
    run (Simpcp2.docopy src n) (Simpcp.Copy.start old heap) as = some c →
      (∀ v, c.pc = .ret v → v = 0 ∧ c.dest = final) ∧
        ∃ as' d, (∀ a ∈ as', a.IsFull) ∧ run (Simpcp2.docopy src n) c as' = some d ∧
          d.pc = .ret 0

theorem parallelLeaves (hN : 0 < N) (hN5 : N ≤ 5) (hseg : src.length / N < 2 ^ 31) :
    ParallelLeaves src old N heap (src ++ old.drop src.length) := by
  intro ls s hfull hrun
  have hl : ∀ l ∈ ls, l.2.Whole := fun l hmem => (hfull l hmem).whole
  have hok : SystemOk src old N s := systemOk_run hN hl hrun
  constructor
  · intro v hret
    have hmain := hok.main
    rw [hret] at hmain
    have hcalls : Every (MtCopy.step src N heap) (CallSucceeds N src.length)
        (System.start old) ls :=
      (every_of_forall hfull _).imp fun s l hfull =>
        ⟨fun _ _ _ _ _ => hfull, fun _ _ _ _ _ _ => hfull.ne_err⟩
    exact ⟨hmain.1, hok.file_eq_of_covered
      (written_of_calls hN (pieceLen_lt hN hN5 hseg) hl hcalls hrun hret)⟩
  · have hsmooth : Smooth s := (every_of_forall hfull _).invariant
      (fun _ _ _ hs hl hst => hs.step hl hst) (smooth_start old) hrun
    exact hok.exists_run heap hsmooth

theorem sequentialLeaves {n : ℕ} {heap : ℕ → α} (hn : 1 ≤ n) (hn31 : n < 2 ^ 31) :
    SequentialLeaves src old n heap (src ++ old.drop src.length) := by
  intro as c hfull hrun
  have hfits : min n src.length < 2 ^ 31 := lt_of_le_of_lt (min_le_left _ _) hn31
  have htr : Simpcp2.Tracks src old n c := Simpcp2.tracks_of_full hn hfull hfits hrun
  constructor
  · intro v hpc
    have hpoint := htr.point
    rw [hpc] at hpoint
    exact ⟨hpoint.1, htr.dest_of_ret hpc⟩
  · exact htr.exists_run hn hfits

end Refinement

/-- **The parallel copy refines the sequential one**: when all calls do all they can,
`do_mt_copy` under every interleaving and `docopy` with every block size leave the
same destination, the source over as many of the old bytes. -/
theorem do_mt_copy_eq_docopy {src old : List UInt8} {n : ℕ} (hN : 2 ≤ N) (hN5 : N ≤ 5)
    (hseg : src.length / N < 2 ^ 31) (hn : 1 ≤ n) (hn31 : n < 2 ^ 31)
    (heap : ℕ → ℕ → ℕ → UInt8) (heap' : ℕ → UInt8) :
    ParallelLeaves src old N heap (src ++ old.drop src.length) ∧
      SequentialLeaves src old n heap' (src ++ old.drop src.length) :=
  ⟨parallelLeaves (by omega) hN5 hseg, sequentialLeaves hn hn31⟩

/-- Two threads on three bytes, each with a segment of one byte, and the second one
with the remainder as well. -/
theorem do_mt_copy_eq_docopy_at :
    (ParallelLeaves [(1 : UInt8), 2, 3] [4, 5, 6, 7] 2 (fun _ _ _ => 0) [1, 2, 3, 7] ∧
      SequentialLeaves [(1 : UInt8), 2, 3] [4, 5, 6, 7] 2 (fun _ => 0) [1, 2, 3, 7]) ∧
      ∃ s : System UInt8, run (MtCopy.step [1, 2, 3] 2 fun _ _ _ => 0)
        (System.start [4, 5, 6, 7]) threeBytes = some s ∧ s.main = .ret 0 ∧
          s.dest.file = [1, 2, 3, 7] :=
  ⟨do_mt_copy_eq_docopy (by decide) (by decide) (by decide) (by decide) (by decide) _ _,
    _, rfl, rfl, rfl⟩

end MtCopy

end SystemProgramming
