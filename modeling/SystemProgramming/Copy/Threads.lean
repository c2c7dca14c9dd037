import SystemProgramming.Copy.MtCopy
import SystemProgramming.Pieces

/-!
# The course of a parallel copy

What is true of the process of `do_mt_copy` at every moment of a run in which no
transfer is short – calls may fail, those of the main thread and those of the
workers. The file is cut into pieces as in `SystemProgramming.Pieces`: thread `i`
copies piece `i`, and the last thread the remainder as well
(`SystemProgramming.MtCopy.Owns`).

* **A piece** is copied by at most three calls, and put down by one write of all
  of it, or as much as an `int` counts of it
  (`SystemProgramming.MtCopy.SegOk.step`).
* **A worker** goes through its pieces in order, and no failure keeps it from the
  next one (`SystemProgramming.MtCopy.WorkerOk.step`).
* **The process** has, in `do_mt_copy`, as many workers as it has created, and
  writes nothing that is not a piece of the source in its place
  (`SystemProgramming.MtCopy.SystemOk`).
-/

namespace SystemProgramming

open Bytes HandleErr Pieces Runs Wrappers

namespace MtCopy

variable {α : Type*}

/-- What an `int` counts of a piece of `len` bytes. -/
def intCount (len : ℕ) : ℕ := (toInt len).toNat

theorem intCount_le (len : ℕ) : intCount len ≤ len := by
  have := toInt_le len
  rw [intCount]
  omega

theorem intCount_of_lt {len : ℕ} (h : len < 2 ^ 31) : intCount len = len := by
  rw [intCount, toInt_of_lt h, Int.toNat_natCast]

/-! ### One piece -/

/-- The course of `__do_mt_copy` on a segment, as long as no transfer is short. -/
def SegOk (src : List α) (off len : ℕ) (g : Seg α) : Prop :=
  g.startOffset = off ∧ g.len = len ∧ match g.pc with
    | .malloc => True
    | .read tr => tr = 0
    | .write nr tw => tw = 0 ∧ 0 < nr ∧ nr = intCount len ∧
        slice g.buf nr = (src.drop off).take nr
    | .ret _ => True

/-- How many calls `__do_mt_copy` still makes at most. -/
def SegPc.left : SegPc → ℕ
  | .malloc => 3
  | .read _ => 2
  | .write _ _ => 1
  | .ret _ => 0

section Steps

variable [Zero α] {src : List α} {off len : ℕ} {g g' : Seg α} {w w' : Dest α} {a : Answer}

/-- What has been written of a segment when `__do_mt_copy` returns from it: nothing,
if a call failed or if an `int` counts nothing of it; else what an `int` counts of
it. -/
def SegEnd (src : List α) (off len : ℕ) (a : Answer) (w w' : Dest α) : Prop :=
  (w' = w ∧ (¬a.IsFull ∨ intCount len = 0)) ∨
    (a.IsFull ∧ 0 < intCount len ∧ w' = w.pwrite off ((src.drop off).take (intCount len)))

omit [Zero α] in
/-- From a piece that was read in full, as much is handed on as an `int` counts. -/
theorem segOk_gotRead (hoff : g.startOffset = off) (hlen : g.len = len)
    (hbuf : slice g.buf len = (src.drop off).take len) :
    SegOk src off len (g.gotRead (toInt len)) ∧ (g.gotRead (toInt len)).pc.left < 2 ∧
      ((∃ v, (g.gotRead (toInt len)).pc = .ret v) → intCount len = 0) := by
  rcases Seg.gotRead_cases (toInt len) g with ⟨hneg, heq⟩ | ⟨hzero, heq⟩ | ⟨hpos, heq⟩ <;> rw [heq]
  · refine ⟨⟨hoff, hlen, trivial⟩, Nat.zero_lt_two, fun _ => ?_⟩
    rw [intCount]
    omega
  · refine ⟨⟨hoff, hlen, trivial⟩, Nat.zero_lt_two, fun _ => ?_⟩
    rw [intCount]
    omega
  · refine ⟨⟨hoff, hlen, rfl, ?_, rfl, ?_⟩, Nat.one_lt_two, ?_⟩
    · omega
    · have hle : (toInt len).toNat ≤ len := intCount_le len
      change slice g.buf (toInt len).toNat = _
      rw [← take_slice g.buf hle, hbuf, List.take_take, Nat.min_eq_left hle]
    · rintro ⟨v, hv⟩
      cases hv

/-- **One call of `__do_mt_copy`** on a segment inside the source: it goes on, the
call having succeeded, or returns. -/
theorem SegOk.step (h : SegOk src off len g) (hin : off + len ≤ src.length) (ha : a.Whole)
    (hstep : segStep src g w a = some (g', w')) :
    SegOk src off len g' ∧ g'.pc.left < g.pc.left ∧
      ((w' = w ∧ a.IsFull ∧ ∀ v, g'.pc ≠ .ret v) ∨
        ((∃ v, g'.pc = .ret v) ∧ SegEnd src off len a w w')) := by
  obtain ⟨hoff, hlen, hpoint⟩ := h
  rw [segStep] at hstep
  cases hpc : g.pc with
  | malloc =>
    simp only [hpc] at hstep
    obtain ⟨g₁, hg₁, heq⟩ := Option.map_eq_some_iff.mp hstep
    obtain ⟨rfl, rfl⟩ := Prod.mk.inj heq
    rcases mallocBuf_cases hg₁ with ⟨rfl, rfl⟩ | ⟨rfl, rfl⟩
    · exact ⟨⟨hoff, hlen, rfl⟩, Nat.lt_succ_self 2,
        Or.inl ⟨rfl, Or.inl rfl, fun v hv => by cases hv⟩⟩
    · exact ⟨⟨hoff, hlen, trivial⟩, Nat.zero_lt_succ 2,
        Or.inr ⟨⟨_, rfl⟩, Or.inl ⟨rfl, Or.inl (by decide)⟩⟩⟩
  | read tr =>
    simp only [hpc] at hstep hpoint
    subst hpoint
    obtain ⟨g₁, hg₁, heq⟩ := Option.map_eq_some_iff.mp hstep
    obtain ⟨rfl, rfl⟩ := Prod.mk.inj heq
    rcases fdRead_cases hg₁ with ⟨rfl, rfl⟩ | ⟨rd, hrd, hcase⟩
    · exact ⟨⟨hoff, hlen, trivial⟩, Nat.zero_lt_two,
        Or.inr ⟨⟨_, rfl⟩, Or.inl ⟨rfl, Or.inl (by decide)⟩⟩⟩
    rcases Answer.transfer_cases hrd with ⟨rfl, hr⟩ | ⟨k, rfl, -⟩ | ⟨-, hr⟩
    · -- the read was full, so it read the segment
      obtain rfl : rd = len := by
        have hmin : rd = min g.len (src.length - g.startOffset) := Option.some.inj hr
        omega
      rcases hcase with ⟨rfl, rfl⟩ | ⟨-, hlt, -⟩ | ⟨-, -, rfl⟩
      · -- the segment is empty
        have hload : slice g.buf 0 = (src.drop off).take 0 := by simp [slice]
        obtain ⟨hok, hleft, -⟩ := segOk_gotRead hoff hlen hload
        refine ⟨hok, hleft, Or.inr ⟨⟨0, rfl⟩, Or.inl ⟨rfl, Or.inr rfl⟩⟩⟩
      · omega
      · have hload : slice (g.readBytes src rd).buf rd = (src.drop off).take rd := by
          change slice (blit g.buf ((src.drop g.startOffset).take rd)) rd = _
          rw [hoff, slice_blit _ (by rw [List.length_take, List.length_drop]; omega),
            List.take_take, Nat.min_self]
        obtain ⟨hok, hleft, hret⟩ :=
          segOk_gotRead (g := g.readBytes src rd) hoff hlen hload
        rw [Nat.zero_add]
        refine ⟨hok, hleft, ?_⟩
        -- the count may be no count of bytes, when it does not fit an `int`
        by_cases hv : ∃ v, ((g.readBytes src rd).gotRead (toInt rd)).pc = .ret v
        · exact Or.inr ⟨hv, Or.inl ⟨rfl, Or.inr (hret hv)⟩⟩
        · exact Or.inl ⟨rfl, Or.inr rfl, fun v hv' => hv ⟨v, hv'⟩⟩
    · exact ha.elim
    · exact absurd hr (by simp)
  | write nr tw =>
    simp only [hpc] at hstep hpoint
    obtain ⟨rfl, hpos, hnr, hbuf⟩ := hpoint
    rcases fdWrite_cases hstep with ⟨rfl, rfl, rfl⟩ | ⟨wr, hwr, rfl, hcase⟩
    · exact ⟨⟨hoff, hlen, trivial⟩, Nat.zero_lt_one,
        Or.inr ⟨⟨_, rfl⟩, Or.inl ⟨rfl, Or.inl (by decide)⟩⟩⟩
    rcases Answer.transfer_cases hwr with ⟨rfl, hr⟩ | ⟨k, rfl, -⟩ | ⟨-, hr⟩
    · obtain rfl : wr = nr := Option.some.inj hr
      rcases hcase with ⟨hlt, -⟩ | ⟨-, rfl⟩
      · omega
      have hend : SegEnd src off len .full w (w.pwrite g.startOffset (slice g.buf wr)) := by
        refine Or.inr ⟨Or.inr rfl, hnr ▸ hpos, ?_⟩
        rw [hoff, hbuf, hnr]
      rcases Seg.gotWrite_cases (toInt (0 + wr)) g with ⟨-, heq⟩ | ⟨-, heq⟩ <;> rw [heq] <;>
        exact ⟨⟨hoff, hlen, trivial⟩, Nat.zero_lt_one, Or.inr ⟨⟨_, rfl⟩, hend⟩⟩
    · exact ha.elim
    · exact absurd hr (by simp)
  | ret v =>
    simp only [hpc] at hstep
    exact absurd hstep (by simp)

end Steps

/-! ### One worker -/

/-- Thread `i` of `N` copies piece `j`: its own, or the remainder when it is the
last thread. -/
def Owns (N i j : ℕ) : Prop := j = i ∨ j = N ∧ i + 1 = N

/-- A piece has one owner. -/
theorem Owns.unique {N i i' j : ℕ} (hi : i < N) (hi' : i' < N) (h : Owns N i j)
    (h' : Owns N i' j) : i = i' := by
  rcases h with rfl | ⟨rfl, hlast⟩ <;> rcases h' with heq | ⟨heq, hlast'⟩ <;> omega

theorem Owns.le {N i j : ℕ} (hi : i < N) (h : Owns N i j) : j ≤ N := by
  rcases h with rfl | ⟨rfl, -⟩
  · exact hi.le
  · exact le_rfl

theorem exists_owns {N j : ℕ} (hN : 0 < N) (hj : j ≤ N) : ∃ i < N, Owns N i j := by
  rcases Nat.lt_or_eq_of_le hj with hlt | rfl
  · exact ⟨j, hlt, Or.inl rfl⟩
  · exact ⟨j - 1, by omega, Or.inr ⟨rfl, by omega⟩⟩

/-- The worker is through with piece `j`, one of those it owns. -/
def Worker.Done (k : Worker α) (j : ℕ) : Prop :=
  match k.phase with
  | .segment _ => False
  | .remainder _ => j = k.thrdnum
  | .exited => True

/-- How long the piece is that the worker is copying; 0 when it has exited. -/
def Worker.current (k : Worker α) : ℕ :=
  match k.phase with
  | .segment g => g.len
  | .remainder g => g.len
  | .exited => 0

/-- How many calls the worker still makes at most. -/
def Worker.left (k : Worker α) : ℕ :=
  match k.phase with
  | .segment g => g.pc.left + 3
  | .remainder g => g.pc.left
  | .exited => 0

/-- The course of a worker: what it was started with, and the course of the piece
it is copying. -/
structure WorkerOk (src : List α) (N i : ℕ) (k : Worker α) : Prop where
  thrdnum_eq : k.thrdnum = i
  thrdtotal_eq : k.thrdtotal = N
  startOffset_eq : k.startOffset = pieceOff N src.length i
  len_eq : k.len = src.length / N
  rem_eq : k.rem = src.length % N
  phase : match k.phase with
    | .segment g => SegOk src (pieceOff N src.length i) (pieceLen N src.length i) g ∧
        0 < g.pc.left
    | .remainder g => i + 1 = N ∧
        SegOk src (pieceOff N src.length N) (pieceLen N src.length N) g ∧ 0 < g.pc.left
    | .exited => True

theorem workerOk_init (src : List α) {N i : ℕ} (hi : i < N) (heap : ℕ → ℕ → ℕ → α) :
    WorkerOk src N i (Worker.init N src.length i heap) where
  thrdnum_eq := rfl
  thrdtotal_eq := rfl
  startOffset_eq := rfl
  len_eq := rfl
  rem_eq := rfl
  phase := ⟨⟨rfl, (pieceLen_of_lt hi).symm, trivial⟩, Nat.zero_lt_succ 2⟩

theorem SegPc.left_pos_of_ne {pc : SegPc} (h : ∀ v, pc ≠ .ret v) : 0 < pc.left := by
  cases pc with
  | malloc => exact Nat.zero_lt_succ 2
  | read tr => exact Nat.zero_lt_two
  | write nr tw => exact Nat.zero_lt_one
  | ret v => exact absurd rfl (h v)

section Steps

variable [Zero α] {src : List α} {heap : ℕ → ℕ → ℕ → α} {N i : ℕ} {k k' : Worker α}
  {w w' : Dest α} {a : Answer}

/-- A call of a worker with its own piece: `__do_mt_copy` has not returned, or it has, and its
value is dropped. -/
theorem workerStep_segment {g : Seg α} (hph : k.phase = .segment g)
    (hstep : workerStep src heap k w a = some (k', w')) :
    ∃ g', segStep src g w a = some (g', w') ∧
      (((∀ v, g'.pc ≠ .ret v) ∧ k' = { k with phase := .segment g' }) ∨
        ((∃ v, g'.pc = .ret v) ∧ k' = { k with phase := k.afterSegment heap })) := by
  rw [workerStep] at hstep
  simp only [hph] at hstep
  obtain ⟨⟨g', v'⟩, hg, heq⟩ := Option.map_eq_some_iff.mp hstep
  cases hpc : g'.pc with
  | ret v =>
    obtain ⟨rfl, rfl⟩ : k' = { k with phase := k.afterSegment heap } ∧ v' = w' := by
      simpa [hpc, eq_comm] using heq
    exact ⟨g', hg, Or.inr ⟨⟨v, hpc⟩, rfl⟩⟩
  | _ =>
    obtain ⟨rfl, rfl⟩ : k' = { k with phase := .segment g' } ∧ v' = w' := by
      simpa [hpc, eq_comm] using heq
    exact ⟨g', hg, Or.inl ⟨by simp [hpc], rfl⟩⟩

/-- The same for the remainder. -/
theorem workerStep_remainder {g : Seg α} (hph : k.phase = .remainder g)
    (hstep : workerStep src heap k w a = some (k', w')) :
    ∃ g', segStep src g w a = some (g', w') ∧
      (((∀ v, g'.pc ≠ .ret v) ∧ k' = { k with phase := .remainder g' }) ∨
        ((∃ v, g'.pc = .ret v) ∧ k' = { k with phase := .exited })) := by
  rw [workerStep] at hstep
  simp only [hph] at hstep
  obtain ⟨⟨g', v'⟩, hg, heq⟩ := Option.map_eq_some_iff.mp hstep
  cases hpc : g'.pc with
  | ret v =>
    obtain ⟨rfl, rfl⟩ : k' = { k with phase := .exited } ∧ v' = w' := by
      simpa [hpc, eq_comm] using heq
    exact ⟨g', hg, Or.inr ⟨⟨v, hpc⟩, rfl⟩⟩
  | _ =>
    obtain ⟨rfl, rfl⟩ : k' = { k with phase := .remainder g' } ∧ v' = w' := by
      simpa [hpc, eq_comm] using heq
    exact ⟨g', hg, Or.inl ⟨by simp [hpc], rfl⟩⟩

/-- What a call of a worker brings about, closer to its end: either it goes on with its piece,
the call having succeeded, or it is through with that piece, whatever came of it, and with no
other that is not empty. -/
def WorkerMoves (src : List α) (N i : ℕ) (k k' : Worker α) (a : Answer) (w w' : Dest α) : Prop :=
  k'.left < k.left ∧
    ((w' = w ∧ a.IsFull ∧ ∀ j, k'.Done j ↔ k.Done j) ∨
      ∃ j, Owns N i j ∧ ¬k.Done j ∧ k'.Done j ∧ k.current = pieceLen N src.length j ∧
        SegEnd src (pieceOff N src.length j) (pieceLen N src.length j) a w w' ∧
        (∀ j', Owns N i j' → k.Done j' → k'.Done j') ∧
        ∀ j', Owns N i j' → k'.Done j' → j' = j ∨ k.Done j' ∨ pieceLen N src.length j' = 0)

/-- **A worker is through with its own piece**: the last one goes on to the remainder if there is
one, the others exit. -/
theorem WorkerOk.endSegment {g : Seg α} (hk : WorkerOk src N i k) (hi : i < N)
    (hph : k.phase = .segment g)
    (hend : SegEnd src (pieceOff N src.length i) (pieceLen N src.length i) a w w') :
    WorkerOk src N i { k with phase := k.afterSegment heap } ∧
      WorkerMoves src N i k { k with phase := k.afterSegment heap } a w w' := by
  have hphase := hk.phase
  simp only [hph] at hphase
  have hkDone : ∀ j, ¬k.Done j := fun j hj => by simp [Worker.Done, hph] at hj
  have hcur : k.current = pieceLen N src.length i := by
    simp only [Worker.current, hph]
    exact hphase.1.2.1
  have hleft3 : 3 < k.left := by
    have hkleft : k.left = g.pc.left + 3 := by simp [Worker.left, hph]
    rw [hkleft]
    exact Nat.lt_add_of_pos_left hphase.2
  by_cases hrem : k.rem ≠ 0 ∧ k.thrdnum = k.thrdtotal - 1
  · -- the last thread goes on to the remainder
    have hafter : k.afterSegment heap =
        .remainder (Seg.call (k.startOffset + k.len) k.rem (heap k.thrdnum 1)) := if_pos hrem
    have hlast : i + 1 = N := by
      have := hrem.2
      rw [hk.thrdnum_eq, hk.thrdtotal_eq] at this
      omega
    have hoff : k.startOffset + k.len = pieceOff N src.length N := by
      have hnext : pieceOff N src.length (i + 1) = _ := pieceOff_succ hi
      rw [hk.startOffset_eq, hk.len_eq, ← pieceLen_of_lt hi, ← hnext, hlast]
    have hlen : k.rem = pieceLen N src.length N := by rw [hk.rem_eq, pieceLen_self]
    refine ⟨{ hk with phase := ?_ }, ?_, Or.inr ⟨i, Or.inl rfl, hkDone i, ?_, hcur, hend,
      fun j' _ hj' => absurd hj' (hkDone j'), fun j' _ hj' => Or.inl ?_⟩⟩
    · rw [hafter]
      exact ⟨hlast, ⟨hoff, hlen, trivial⟩, Nat.zero_lt_succ 2⟩
    · simpa [Worker.left, hafter, Seg.call, SegPc.left] using hleft3
    · simpa [Worker.Done, hafter] using hk.thrdnum_eq.symm
    · have : j' = k.thrdnum := by simpa [Worker.Done, hafter] using hj'
      rw [this, hk.thrdnum_eq]
  · have hafter : k.afterSegment heap = .exited := if_neg hrem
    refine ⟨{ hk with phase := ?_ }, ?_, Or.inr ⟨i, Or.inl rfl, hkDone i, ?_, hcur, hend,
      fun j' _ hj' => absurd hj' (hkDone j'), fun j' hown _ => ?_⟩⟩
    · rw [hafter]
      trivial
    · simpa [Worker.left, hafter] using Nat.zero_lt_of_lt hleft3
    · simp [Worker.Done, hafter]
    · rcases hown with rfl | ⟨rfl, hlast⟩
      · exact Or.inl rfl
      · -- the last thread exits only when there is no remainder
        refine Or.inr (Or.inr ?_)
        rw [pieceLen_self, ← hk.rem_eq]
        by_contra hne
        refine hrem ⟨hne, ?_⟩
        rw [hk.thrdnum_eq, hk.thrdtotal_eq]
        omega

/-- **One call of a worker** with its own piece. -/
theorem WorkerOk.segmentStep {g : Seg α} (hk : WorkerOk src N i k) (hi : i < N) (ha : a.Whole)
    (hph : k.phase = .segment g) (hstep : workerStep src heap k w a = some (k', w')) :
    WorkerOk src N i k' ∧ WorkerMoves src N i k k' a w w' := by
  have hphase := hk.phase
  simp only [hph] at hphase
  obtain ⟨g', hg, hcase⟩ := workerStep_segment hph hstep
  obtain ⟨hok, hleft, hmoves⟩ := hphase.1.step (piece_le_length hi.le) ha hg
  rcases hcase with ⟨hrun, rfl⟩ | ⟨⟨v, hv⟩, rfl⟩
  · rcases hmoves with ⟨rfl, hfull, -⟩ | ⟨⟨v, hv⟩, -⟩
    · refine ⟨{ hk with phase := ⟨hok, SegPc.left_pos_of_ne hrun⟩ }, ?_, Or.inl ⟨rfl, hfull, ?_⟩⟩
      · simpa [Worker.left, hph] using hleft
      · intro j
        simp [Worker.Done, hph]
    · exact absurd hv (hrun v)
  · rcases hmoves with ⟨-, -, hrun⟩ | ⟨-, hend⟩
    · exact absurd hv (hrun v)
    · exact hk.endSegment hi hph hend

/-- **One call of a worker** with the remainder. -/
theorem WorkerOk.remainderStep {g : Seg α} (hk : WorkerOk src N i k) (hi : i < N) (ha : a.Whole)
    (hph : k.phase = .remainder g) (hstep : workerStep src heap k w a = some (k', w')) :
    WorkerOk src N i k' ∧ WorkerMoves src N i k k' a w w' := by
  have hphase := hk.phase
  simp only [hph] at hphase
  obtain ⟨g', hg, hcase⟩ := workerStep_remainder hph hstep
  obtain ⟨hok, hleft, hmoves⟩ := hphase.2.1.step (piece_le_length le_rfl) ha hg
  have hkDone : ∀ j, k.Done j ↔ j = i := fun j => by simp [Worker.Done, hph, hk.thrdnum_eq]
  have hkleft : k.left = g.pc.left := by simp [Worker.left, hph]
  have hcur : k.current = pieceLen N src.length N := by
    simp only [Worker.current, hph]
    exact hphase.2.1.2.1
  rcases hcase with ⟨hrun, rfl⟩ | ⟨⟨v, hv⟩, rfl⟩
  · rcases hmoves with ⟨rfl, hfull, -⟩ | ⟨⟨v, hv⟩, -⟩
    · refine ⟨{ hk with phase := ⟨hphase.1, hok, SegPc.left_pos_of_ne hrun⟩ }, ?_,
        Or.inl ⟨rfl, hfull, ?_⟩⟩
      · rw [hkleft]
        exact hleft
      · intro j
        rw [hkDone]
        simp [Worker.Done, hk.thrdnum_eq]
    · exact absurd hv (hrun v)
  · rcases hmoves with ⟨-, -, hrun⟩ | ⟨-, hend⟩
    · exact absurd hv (hrun v)
    · refine ⟨{ hk with phase := trivial }, ?_, Or.inr ⟨N, Or.inr ⟨rfl, hphase.1⟩, ?_, trivial,
        hcur, hend, fun _ _ _ => trivial, fun j' hown _ => ?_⟩⟩
      · rw [hkleft]
        exact hphase.2.2
      · rw [hkDone]
        exact hi.ne'
      · rcases hown with rfl | ⟨rfl, -⟩
        · exact Or.inr (Or.inl ((hkDone _).mpr rfl))
        · exact Or.inl rfl

/-- **One call of a worker.** -/
theorem WorkerOk.step (hk : WorkerOk src N i k) (hi : i < N) (ha : a.Whole)
    (hstep : workerStep src heap k w a = some (k', w')) :
    WorkerOk src N i k' ∧ WorkerMoves src N i k k' a w w' := by
  cases hph : k.phase with
  | segment g => exact hk.segmentStep hi ha hph hstep
  | remainder g => exact hk.remainderStep hi ha hph hstep
  | exited =>
    rw [workerStep] at hstep
    simp only [hph] at hstep
    exact absurd hstep (by simp)

end Steps

/-! ### The main thread -/

/-- What a call of the main thread does, given what it is answered. -/
inductive MainMove (N fsize : ℕ) (heap : ℕ → ℕ → ℕ → α) (s : System α) :
    Answer → System α → Prop
  | calloc {i : ℕ} (h : s.main = .calloc i) :
      MainMove N fsize heap s .ok { s with main := .create i }
  | callocFails {i : ℕ} (h : s.main = .calloc i) :
      MainMove N fsize heap s .err { s with main := .callocFatal i }
  | exits {i : ℕ} (h : s.main = .callocFatal i ∨ s.main = .createFatal i) :
      MainMove N fsize heap s .ok { s with main := .exited EXIT_FAILURE }
  | segv {i : ℕ} (h : s.main = .callocFatal i) :
      MainMove N fsize heap s .err { s with main := .segv i }
  | create {i : ℕ} (h : s.main = .create i) :
      MainMove N fsize heap s .ok
        { s with main := afterCreate N i,
                 workers := s.workers ++ [some (Worker.init N fsize i heap)] }
  | createFails {i : ℕ} (h : s.main = .create i) :
      MainMove N fsize heap s .err { s with main := .createFatal i }
  | goesOn {i : ℕ} (h : s.main = .createFatal i) :
      MainMove N fsize heap s .err
        { s with main := afterCreate N i, workers := s.workers ++ [none] }
  | join {i : ℕ} {k : Worker α} (h : s.main = .join i) (hk : s.workers[i]? = some (some k))
      (hphase : k.phase = .exited) :
      MainMove N fsize heap s .ok { s with main := afterJoin N i }
  | joinAbsent {i : ℕ} {a : Answer} (h : s.main = .join i) (hk : s.workers[i]? = some none) :
      MainMove N fsize heap s a { s with main := .undefined }

/-- **Every step of the main thread is one of these moves.** -/
theorem mainStep_move {N fsize : ℕ} {heap : ℕ → ℕ → ℕ → α} {s s' : System α} {a : Answer}
    (h : mainStep N fsize heap s a = some s') : MainMove N fsize heap s a s' := by
  rw [mainStep] at h
  cases hm : s.main with
  | calloc i =>
    simp only [hm] at h
    obtain ⟨ok, hok, rfl⟩ := Option.map_eq_some_iff.mp h
    rcases Answer.status_cases hok with ⟨rfl, rfl⟩ | ⟨rfl, rfl⟩
    · exact .calloc hm
    · exact .callocFails hm
  | callocFatal i =>
    simp only [hm] at h
    obtain ⟨ok, hok, rfl⟩ := Option.map_eq_some_iff.mp h
    rcases Answer.status_cases hok with ⟨rfl, rfl⟩ | ⟨rfl, rfl⟩
    · exact .exits (Or.inl hm)
    · exact .segv hm
  | create i =>
    simp only [hm] at h
    obtain ⟨ok, hok, rfl⟩ := Option.map_eq_some_iff.mp h
    rcases Answer.status_cases hok with ⟨rfl, rfl⟩ | ⟨rfl, rfl⟩
    · exact .create hm
    · exact .createFails hm
  | createFatal i =>
    simp only [hm] at h
    obtain ⟨ok, hok, rfl⟩ := Option.map_eq_some_iff.mp h
    rcases Answer.status_cases hok with ⟨rfl, rfl⟩ | ⟨rfl, rfl⟩
    · exact .exits (Or.inr hm)
    · exact .goesOn hm
  | join i =>
    simp only [hm] at h
    obtain ⟨ok, hok, hjoin⟩ := Option.bind_eq_some_iff.mp h
    rcases hw : s.workers[i]? with _ | _ | k
    · simp [hw] at hjoin
    · obtain rfl : { s with main := .undefined } = s' := by simpa [hw] using hjoin
      exact .joinAbsent hm hw
    · rcases Answer.status_cases hok with ⟨rfl, rfl⟩ | ⟨rfl, rfl⟩
      · cases hph : k.phase with
        | exited =>
          obtain rfl : { s with main := afterJoin N i } = s' := by simpa [hw, hph] using hjoin
          exact .join hm hw hph
        | segment g => simp [hw, hph] at hjoin
        | remainder g => simp [hw, hph] at hjoin
      · simp [hw] at hjoin
  | ret v => simp [hm] at h
  | exited status => simp [hm] at h
  | segv i => simp [hm] at h
  | undefined => simp [hm] at h

section Process

variable [Zero α] {src old : List α} {heap : ℕ → ℕ → ℕ → α} {N : ℕ} {s s' : System α}
  {l : Thread × Answer}

/-- **Every step of the process** is a call of the main thread, or of one of the
workers. -/
theorem step_cases (h : step src N heap s l = some s') :
    (l.1 = .main ∧ MainMove N src.length heap s l.2 s') ∨
      ∃ i k k' w', l.1 = .worker i ∧ s.workers[i]? = some (some k) ∧
        workerStep src heap k s.dest l.2 = some (k', w') ∧
        s' = { s with workers := s.workers.set i (some k'), dest := w' } := by
  obtain ⟨th, a⟩ := l
  rw [step] at h
  cases th with
  | main =>
    have hlive : mainStep N src.length heap s a = some s' := by
      cases hm : s.main with
      | exited status => simp [hm] at h
      | segv i => simp [hm] at h
      | undefined => simp [hm] at h
      | _ => simpa [hm] using h
    exact Or.inl ⟨rfl, mainStep_move hlive⟩
  | worker i =>
    have hlive : threadStep src heap s i a = some s' := by
      cases hm : s.main with
      | exited status => simp [hm] at h
      | segv i => simp [hm] at h
      | undefined => simp [hm] at h
      | _ => simpa [hm] using h
    rw [threadStep] at hlive
    rcases hw : s.workers[i]? with _ | _ | k
    · simp [hw] at hlive
    · simp [hw] at hlive
    · simp only [hw] at hlive
      obtain ⟨⟨k', w'⟩, hstep, rfl⟩ := Option.map_eq_some_iff.mp hlive
      exact Or.inr ⟨i, k, k', w', rfl, hw, hstep, rfl⟩

/-! ### The process -/

/-- The worker that owns piece `j` is through with it. -/
def Passed (N : ℕ) (s : System α) (j : ℕ) : Prop :=
  ∃ i k, s.workers[i]? = some (some k) ∧ Owns N i j ∧ k.Done j

/-- Thread `i` has exited. -/
def Exited (s : System α) (i : ℕ) : Prop :=
  ∃ k, s.workers[i]? = some (some k) ∧ k.phase = .exited

/-- The thread that owns piece `j` could not be created. -/
def Abandoned (N : ℕ) (s : System α) (j : ℕ) : Prop :=
  ∃ i, Owns N i j ∧ (s.workers[i]? = some none ∨ s.main = .createFatal i)

/-- A call that a worker makes for a piece that is not empty succeeds. -/
def WorkerSucceeds (s : System α) (l : Thread × Answer) : Prop :=
  ∀ i k, l.1 = .worker i → s.workers[i]? = some (some k) → 0 < k.current → l.2.IsFull

/-- A thread that owns a piece that is not empty can be created. -/
def CreateSucceeds (N fsize : ℕ) (s : System α) (l : Thread × Answer) : Prop :=
  ∀ i j, l.1 = .main → s.main = .create i → Owns N i j → 0 < pieceLen N fsize j → l.2 ≠ .err

/-- A call made for a piece that is not empty succeeds. -/
def CallSucceeds (N fsize : ℕ) (s : System α) (l : Thread × Answer) : Prop :=
  WorkerSucceeds s l ∧ CreateSucceeds N fsize s l

/-- The data that is written of piece `j`. -/
def pieceData (src : List α) (N j : ℕ) : ℕ × List α :=
  (pieceOff N src.length j,
    (src.drop (pieceOff N src.length j)).take (intCount (pieceLen N src.length j)))

/-- What is true where the main thread stands. -/
def MainOk (N : ℕ) (s : System α) : MainPc → Prop
  | .calloc i => s.workers.length = i ∧ i < N
  | .callocFatal i => s.workers.length = i ∧ i < N
  | .create i => s.workers.length = i ∧ i < N
  | .createFatal i => s.workers.length = i ∧ i < N
  | .join i => s.workers.length = N ∧ i < N ∧ ∀ j < i, Exited s j
  | .ret v => v = 0 ∧ s.workers.length = N ∧ ∀ j < N, Exited s j
  | _ => True

/-- **The course of the process**: what every run keeps, whatever the interleaving. -/
structure SystemOk (src old : List α) (N : ℕ) (s : System α) : Prop where
  length_le : s.workers.length ≤ N
  workers : ∀ i k, s.workers[i]? = some (some k) → WorkerOk src N i k
  main : MainOk N s s.main
  file_eq : s.dest.file = patch s.dest.writes old
  writes : ∀ x ∈ s.dest.writes, ∃ j ≤ N, Passed N s j ∧ x = pieceData src N j

theorem systemOk_start (src old : List α) (hN : 0 < N) :
    SystemOk src old N (System.start old) where
  length_le := Nat.zero_le N
  workers := fun i k hk => by cases hk
  main := ⟨rfl, hN⟩
  file_eq := rfl
  writes := fun x hx => by cases hx

/-! ### What a call of the main thread keeps -/

omit [Zero α] in
theorem getElem?_append_of_some {ws : List (Option (Worker α))} {o o' : Option (Worker α)} {i : ℕ}
    (h : ws[i]? = some o') : (ws ++ [o])[i]? = some o' := by
  obtain ⟨hlt, -⟩ := List.getElem?_eq_some_iff.mp h
  exact (List.getElem?_append_left hlt).trans h

omit [Zero α] in
/-- A thread that is known after one more was added is a known one, or the one added. -/
theorem eq_some_of_getElem?_append {ws : List (Option (Worker α))} {o o' : Option (Worker α)}
    {i : ℕ} (h : (ws ++ [o])[i]? = some o') :
    ws[i]? = some o' ∨ i = ws.length ∧ o' = o := by
  rcases Nat.lt_or_ge i ws.length with hlt | hge
  · exact Or.inl ((List.getElem?_append_left hlt).symm.trans h)
  · rw [List.getElem?_append_right hge] at h
    obtain ⟨hlt, -⟩ := List.getElem?_eq_some_iff.mp h
    have hzero : i - ws.length = 0 := by simpa using hlt
    rw [hzero] at h
    exact Or.inr ⟨by omega, by simpa using h.symm⟩

omit [Zero α] in
/-- A new thread is through with nothing. -/
theorem passed_append {m : MainPc} {o : Option (Worker α)} {j : ℕ}
    (ho : ∀ k, o = some k → ¬k.Done j) :
    Passed N { s with main := m, workers := s.workers ++ [o] } j ↔ Passed N s j := by
  constructor
  · rintro ⟨i, k, hk, hown, hdone⟩
    rcases eq_some_of_getElem?_append hk with hk | ⟨-, hko⟩
    · exact ⟨i, k, hk, hown, hdone⟩
    · exact absurd hdone (ho k hko.symm)
  · rintro ⟨i, k, hk, hown, hdone⟩
    exact ⟨i, k, getElem?_append_of_some hk, hown, hdone⟩

/-- **The creation loop goes on** with one more thread, or one that could not be
created. -/
theorem SystemOk.afterCreate (h : SystemOk src old N s) {i : ℕ} (hlen : s.workers.length = i)
    (hi : i < N) {o : Option (Worker α)} (ho : ∀ k, o = some k → WorkerOk src N i k)
    (hdone : ∀ k, o = some k → ∀ j, ¬k.Done j) :
    SystemOk src old N { s with main := MtCopy.afterCreate N i, workers := s.workers ++ [o] } := by
  have hlen' : (s.workers ++ [o]).length = i + 1 := by simp [hlen]
  refine ⟨?_, ?_, ?_, h.file_eq, ?_⟩
  · change (s.workers ++ [o]).length ≤ N
    rw [hlen']
    exact hi
  · intro i' k hk
    rcases eq_some_of_getElem?_append hk with hk | ⟨rfl, hko⟩
    · exact h.workers i' k hk
    · rw [hlen]
      exact ho k hko.symm
  · change MainOk N _ (MtCopy.afterCreate N i)
    rw [MtCopy.afterCreate]
    split_ifs with hlt
    · exact ⟨hlen', hlt⟩
    · exact ⟨hlen'.trans (by omega), by omega, fun j hj => absurd hj (Nat.not_lt_zero j)⟩
  · intro x hx
    obtain ⟨j, hj, hpass, hdata⟩ := h.writes x hx
    exact ⟨j, hj, (passed_append fun k hk => hdone k hk j).mpr hpass, hdata⟩

/-- **The join loop goes on** when the thread has ended. -/
theorem SystemOk.afterJoin (h : SystemOk src old N s) {i : ℕ} (hpc : s.main = .join i)
    (hend : Exited s i) :
    SystemOk src old N { s with main := MtCopy.afterJoin N i } := by
  have hmain := h.main
  rw [hpc] at hmain
  obtain ⟨hlen, hi, hended⟩ := hmain
  have hended' : ∀ j < i + 1, Exited s j := by
    intro j hj
    rcases Nat.lt_succ_iff_lt_or_eq.mp hj with hlt | rfl
    · exact hended j hlt
    · exact hend
  refine { h with main := ?_ }
  change MainOk N _ (MtCopy.afterJoin N i)
  rw [MtCopy.afterJoin]
  split_ifs with hlt
  · exact ⟨hlen, hlt, hended'⟩
  · exact ⟨rfl, hlen, fun j hj => hended' j (by omega)⟩

/-- **A call of the main thread** keeps the course, and leaves the copy alone. -/
theorem SystemOk.mainMove {a : Answer} (h : SystemOk src old N s)
    (hm : MainMove N src.length heap s a s') :
    SystemOk src old N s' ∧ s'.dest = s.dest ∧ ∀ j, Passed N s' j ↔ Passed N s j := by
  have hmain := h.main
  cases hm with
  | calloc hpc =>
    rw [hpc] at hmain
    exact ⟨{ h with main := hmain }, rfl, fun j => Iff.rfl⟩
  | callocFails hpc =>
    rw [hpc] at hmain
    exact ⟨{ h with main := hmain }, rfl, fun j => Iff.rfl⟩
  | exits hpc => exact ⟨{ h with main := trivial }, rfl, fun j => Iff.rfl⟩
  | segv hpc => exact ⟨{ h with main := trivial }, rfl, fun j => Iff.rfl⟩
  | @create i hpc =>
    rw [hpc] at hmain
    -- a new thread is through with no piece
    have hdone : ∀ k, some (Worker.init N src.length i heap) = some k → ∀ j, ¬k.Done j := by
      rintro k ⟨⟩ j hj
      exact hj.elim
    refine ⟨h.afterCreate hmain.1 hmain.2 ?_ hdone, rfl,
      fun j => passed_append fun k hk => hdone k hk j⟩
    rintro k ⟨⟩
    exact workerOk_init src hmain.2 heap
  | createFails hpc =>
    rw [hpc] at hmain
    exact ⟨{ h with main := hmain }, rfl, fun j => Iff.rfl⟩
  | goesOn hpc =>
    rw [hpc] at hmain
    have hnone : ∀ {P : Worker α → Prop} k, (none : Option (Worker α)) = some k → P k := by
      rintro P k ⟨⟩
    exact ⟨h.afterCreate hmain.1 hmain.2 hnone hnone, rfl, fun j => passed_append hnone⟩
  | join hpc hk hphase =>
    exact ⟨h.afterJoin hpc ⟨_, hk, hphase⟩, rfl, fun j => Iff.rfl⟩
  | joinAbsent hpc hk => exact ⟨{ h with main := trivial }, rfl, fun j => Iff.rfl⟩

/-! ### What a call of a worker keeps -/

section Worker

variable {i : ℕ} {k k' : Worker α} {w' : Dest α} {a : Answer}

/-- The process after a call of worker `i`. -/
def System.setWorker (s : System α) (i : ℕ) (k' : Worker α) (w' : Dest α) : System α :=
  { s with workers := s.workers.set i (some k'), dest := w' }

omit [Zero α] in
theorem getElem?_setWorker_self (hk : s.workers[i]? = some (some k)) :
    (s.setWorker i k' w').workers[i]? = some (some k') := by
  obtain ⟨hlt, -⟩ := List.getElem?_eq_some_iff.mp hk
  exact List.getElem?_set_self hlt

omit [Zero α] in
theorem getElem?_setWorker_ne {j : ℕ} (hne : i ≠ j) :
    (s.setWorker i k' w').workers[j]? = s.workers[j]? := List.getElem?_set_ne hne

omit [Zero α] in
/-- The pieces passed are those of the other workers, and those of worker `i`. -/
theorem passed_setWorker {j : ℕ} (hk : s.workers[i]? = some (some k)) :
    Passed N (s.setWorker i k' w') j ↔ (Owns N i j ∧ k'.Done j) ∨
      ∃ i' k₁, i' ≠ i ∧ s.workers[i']? = some (some k₁) ∧ Owns N i' j ∧ k₁.Done j := by
  constructor
  · rintro ⟨i', k₁, hk₁, hown, hdone⟩
    by_cases heq : i' = i
    · subst heq
      rw [getElem?_setWorker_self hk] at hk₁
      obtain rfl : k' = k₁ := by simpa using hk₁
      exact Or.inl ⟨hown, hdone⟩
    · rw [getElem?_setWorker_ne (Ne.symm heq)] at hk₁
      exact Or.inr ⟨i', k₁, heq, hk₁, hown, hdone⟩
  · rintro (⟨hown, hdone⟩ | ⟨i', k₁, hne, hk₁, hown, hdone⟩)
    · exact ⟨i, k', getElem?_setWorker_self hk, hown, hdone⟩
    · exact ⟨i', k₁, (getElem?_setWorker_ne (Ne.symm hne)).trans hk₁, hown, hdone⟩

omit [Zero α] in
/-- A thread that has exited stays so when another one makes a call. -/
theorem Exited.setWorker {j : ℕ} (h : Exited s j) (hk : s.workers[i]? = some (some k))
    (hrun : k.phase ≠ .exited) : Exited (s.setWorker i k' w') j := by
  obtain ⟨k₁, hk₁, hphase⟩ := h
  have hne : i ≠ j := by
    rintro rfl
    rw [hk] at hk₁
    obtain rfl : k = k₁ := by simpa using hk₁
    exact hrun hphase
  exact ⟨k₁, (getElem?_setWorker_ne hne).trans hk₁, hphase⟩

omit [Zero α] in
/-- What has been passed stays so when a worker goes on, if the worker forgets nothing of its
own. -/
theorem Passed.setWorker {j : ℕ} (h : Passed N s j) (hk : s.workers[i]? = some (some k))
    (hkeep : ∀ j, Owns N i j → k.Done j → k'.Done j) : Passed N (s.setWorker i k' w') j := by
  obtain ⟨i', k₁, hk₁, hown, hdone⟩ := h
  rw [passed_setWorker hk]
  by_cases heq : i' = i
  · subst heq
    rw [hk] at hk₁
    obtain rfl : k = k₁ := by simpa using hk₁
    exact Or.inl ⟨hown, hkeep j hown hdone⟩
  · exact Or.inr ⟨i', k₁, heq, hk₁, hown, hdone⟩

/-- **A worker goes on**: the course is kept if that of the worker is, and the destination is
what has been written there, in its places. -/
theorem SystemOk.setWorker (h : SystemOk src old N s) (hk : s.workers[i]? = some (some k))
    (hrun : k.phase ≠ .exited) (hok : WorkerOk src N i k') (hfile : w'.file = patch w'.writes old)
    (hwrites : ∀ x ∈ w'.writes, ∃ j ≤ N, Passed N (s.setWorker i k' w') j ∧ x = pieceData src N j) :
    SystemOk src old N (s.setWorker i k' w') := by
  refine ⟨?_, ?_, ?_, hfile, hwrites⟩
  · change (s.workers.set i _).length ≤ N
    rw [List.length_set]
    exact h.length_le
  · intro i' k₁ hk₁
    by_cases heq : i = i'
    · subst heq
      rw [getElem?_setWorker_self hk] at hk₁
      obtain rfl : k' = k₁ := by simpa using hk₁
      exact hok
    · exact h.workers i' k₁ ((getElem?_setWorker_ne heq).symm.trans hk₁)
  · have hmain := h.main
    have hlen : (s.setWorker i k' w').workers.length = s.workers.length := List.length_set
    have hended : ∀ j, Exited s j → Exited (s.setWorker i k' w') j :=
      fun j hex => hex.setWorker hk hrun
    change MainOk N _ s.main
    cases hpc : s.main <;> rw [hpc] at hmain
    case join => exact ⟨hlen.trans hmain.1, hmain.2.1, fun j hj => hended j (hmain.2.2 j hj)⟩
    case ret => exact ⟨hmain.1, hlen.trans hmain.2.1, fun j hj => hended j (hmain.2.2 j hj)⟩
    case exited => trivial
    case segv => trivial
    case undefined => trivial
    all_goals exact ⟨hlen.trans hmain.1, hmain.2⟩

/-- **A call of a worker** keeps the course; the worker is through with at most one
piece more that is not empty, and the call is the last one made for it. -/
theorem SystemOk.workerCall (h : SystemOk src old N s) (hk : s.workers[i]? = some (some k))
    (ha : a.Whole) (hstep : workerStep src heap k s.dest a = some (k', w')) :
    SystemOk src old N (s.setWorker i k' w') ∧
      (∀ j, Passed N s j → Passed N (s.setWorker i k' w') j) ∧
      ((w' = s.dest ∧ a.IsFull ∧ ∀ j, Passed N (s.setWorker i k' w') j → Passed N s j) ∨
        ∃ j ≤ N, ¬Passed N s j ∧ Passed N (s.setWorker i k' w') j ∧
          k.current = pieceLen N src.length j ∧
          SegEnd src (pieceOff N src.length j) (pieceLen N src.length j) a s.dest w' ∧
          ∀ j', Passed N (s.setWorker i k' w') j' →
            j' = j ∨ Passed N s j' ∨ pieceLen N src.length j' = 0) := by
  obtain ⟨hlt, -⟩ := List.getElem?_eq_some_iff.mp hk
  have hi : i < N := lt_of_lt_of_le hlt h.length_le
  obtain ⟨hok, hleft, hcase⟩ := (h.workers i k hk).step hi ha hstep
  have hrun : k.phase ≠ .exited := by
    intro hph
    have : k.left = 0 := by simp [Worker.left, hph]
    omega
  have hold : (∀ j, Passed N s j → Passed N (s.setWorker i k' w') j) →
      ∀ x ∈ s.dest.writes, ∃ j ≤ N, Passed N (s.setWorker i k' w') j ∧ x = pieceData src N j := by
    intro hkeep x hx
    obtain ⟨j, hj, hpass, hdata⟩ := h.writes x hx
    exact ⟨j, hj, hkeep j hpass, hdata⟩
  rcases hcase with ⟨rfl, hfull, hsame⟩ | ⟨j, hown, hnot, hdone, hcur, hend, hkeep, honly⟩
  · have hkeep : ∀ j, Passed N s j → Passed N (s.setWorker i k' s.dest) j :=
      fun j hj => hj.setWorker hk fun j _ => (hsame j).mpr
    refine ⟨h.setWorker hk hrun hok h.file_eq (hold hkeep), hkeep,
      Or.inl ⟨rfl, hfull, fun j hj => ?_⟩⟩
    rcases (passed_setWorker hk).mp hj with ⟨hown, hdone⟩ | ⟨i', k₁, -, hk₁, hown, hdone⟩
    · exact ⟨i, k, hk, hown, (hsame j).mp hdone⟩
    · exact ⟨i', k₁, hk₁, hown, hdone⟩
  · have hkeep' : ∀ j, Passed N s j → Passed N (s.setWorker i k' w') j :=
      fun j hj => hj.setWorker hk hkeep
    have hpass : Passed N (s.setWorker i k' w') j :=
      (passed_setWorker hk).mpr (Or.inl ⟨hown, hdone⟩)
    refine ⟨?_, hkeep', Or.inr ⟨j, hown.le hi, ?_, hpass, hcur, hend, fun j' hj' => ?_⟩⟩
    · rcases hend with ⟨rfl, -⟩ | ⟨-, -, rfl⟩
      · exact h.setWorker hk hrun hok h.file_eq (hold hkeep')
      · refine h.setWorker hk hrun hok ?_ ?_
        · change overwrite s.dest.file _ _ = patch (_ :: s.dest.writes) old
          rw [h.file_eq, patch_cons]
        · intro x hx
          rcases List.mem_cons.mp hx with rfl | hx
          · exact ⟨j, hown.le hi, hpass, rfl⟩
          · exact hold hkeep' x hx
    · rintro ⟨i', k₁, hk₁, hown', hdone'⟩
      obtain ⟨hlt', -⟩ := List.getElem?_eq_some_iff.mp hk₁
      obtain rfl : i = i' := hown.unique hi (lt_of_lt_of_le hlt' h.length_le) hown'
      rw [hk] at hk₁
      obtain rfl : k = k₁ := by simpa using hk₁
      exact hnot hdone'
    · rcases (passed_setWorker hk).mp hj' with ⟨hown', hdone'⟩ | ⟨i', k₁, -, hk₁, hown', hdone'⟩
      · rcases honly j' hown' hdone' with heq | hdone' | hempty
        · exact Or.inl heq
        · exact Or.inr (Or.inl ⟨i, k, hk, hown', hdone'⟩)
        · exact Or.inr (Or.inr hempty)
      · exact Or.inr (Or.inl ⟨i', k₁, hk₁, hown', hdone'⟩)

end Worker

/-- **One step of the process** keeps the course. Either it leaves the destination
alone and passes no piece that is not empty, or it is the last call made for one. -/
theorem SystemOk.step (h : SystemOk src old N s) (ha : l.2.Whole)
    (hstep : MtCopy.step src N heap s l = some s') :
    SystemOk src old N s' ∧ (∀ j, Passed N s j → Passed N s' j) ∧
      ((s'.dest = s.dest ∧ WorkerSucceeds s l ∧ ∀ j, Passed N s' j → Passed N s j) ∨
        ∃ j ≤ N, ¬Passed N s j ∧ Passed N s' j ∧
          (WorkerSucceeds s l ↔ (0 < pieceLen N src.length j → l.2.IsFull)) ∧
          SegEnd src (pieceOff N src.length j) (pieceLen N src.length j) l.2 s.dest s'.dest ∧
          ∀ j', Passed N s' j' → j' = j ∨ Passed N s j' ∨ pieceLen N src.length j' = 0) := by
  obtain ⟨th, a⟩ := l
  rcases step_cases hstep with ⟨rfl, hmove⟩ | ⟨i, k, k', w', rfl, hk, hwork, rfl⟩
  · obtain ⟨hok, hdest, hpass⟩ := h.mainMove hmove
    have hcalls : WorkerSucceeds s (.main, a) := by
      rintro i k ⟨⟩
    exact ⟨hok, fun j => (hpass j).mpr, Or.inl ⟨hdest, hcalls, fun j => (hpass j).mp⟩⟩
  · obtain ⟨hok, hkeep, hcase⟩ := h.workerCall hk ha hwork
    have hcalls : WorkerSucceeds s (.worker i, a) ↔ (0 < k.current → a.IsFull) := by
      constructor
      · exact fun hs => hs i k rfl hk
      · rintro hs i' k₁ hi' hk₁ hpos
        cases hi'
        rw [hk] at hk₁
        obtain rfl : k = k₁ := by simpa using hk₁
        exact hs hpos
    refine ⟨hok, hkeep, ?_⟩
    rcases hcase with ⟨hdest, hfull, hsame⟩ | ⟨j, hj, hnot, hpass, hcur, hend, honly⟩
    · exact Or.inl ⟨hdest, hcalls.mpr fun _ => hfull, hsame⟩
    · exact Or.inr ⟨j, hj, hnot, hpass, hcur ▸ hcalls, hend, honly⟩

/-! ### Threads that could not be created -/

omit [Zero α] in
/-- A piece that is abandoned is not passed: no other thread copies it. -/
theorem Abandoned.not_passed {j : ℕ} (h : Abandoned N s j) (hle : s.workers.length ≤ N)
    (hmain : MainOk N s s.main) : ¬Passed N s j := by
  rintro ⟨i', k, hk, hown', -⟩
  obtain ⟨hlt, -⟩ := List.getElem?_eq_some_iff.mp hk
  obtain ⟨i, hown, hcase⟩ := h
  rcases hcase with hnone | hpc
  · obtain ⟨hlt', -⟩ := List.getElem?_eq_some_iff.mp hnone
    obtain rfl : i = i' := hown.unique (lt_of_lt_of_le hlt' hle) (lt_of_lt_of_le hlt hle) hown'
    -- there is no thread at its place, and there is one
    rw [hk] at hnone
    cases hnone
  · rw [hpc] at hmain
    obtain rfl : i = i' := hown.unique hmain.2 (lt_of_lt_of_le hlt hle) hown'
    rw [hmain.1] at hlt
    exact lt_irrefl _ hlt

/-- **A piece that is abandoned stays so**, unless the process exits. -/
theorem Abandoned.step {j : ℕ} (hab : Abandoned N s j) (h : SystemOk src old N s)
    (hstep : MtCopy.step src N heap s l = some s') :
    Abandoned N s' j ∨ ∃ status, s'.main = .exited status := by
  obtain ⟨i, hown, hcase⟩ := hab
  obtain ⟨th, a⟩ := l
  rcases step_cases hstep with ⟨rfl, hmove⟩ | ⟨i', k, k', w', rfl, hk, -, rfl⟩
  · have hmain := h.main
    rcases hcase with hnone | hpc'
    · refine Or.inl ⟨i, hown, Or.inl ?_⟩
      -- the list of the threads only grows
      cases hmove with
      | create hpc => exact getElem?_append_of_some hnone
      | goesOn hpc => exact getElem?_append_of_some hnone
      | _ => exact hnone
    · rw [hpc'] at hmain
      cases hmove with
      | exits hpc => exact Or.inr ⟨_, rfl⟩
      | @goesOn i₀ hpc =>
        refine Or.inl ⟨i, hown, Or.inl ?_⟩
        change (s.workers ++ [none])[i]? = some none
        rw [List.getElem?_append_right hmain.1.le, hmain.1, Nat.sub_self]
        rfl
      | calloc hpc => simp [hpc] at hpc'
      | callocFails hpc => simp [hpc] at hpc'
      | segv hpc => simp [hpc] at hpc'
      | create hpc => simp [hpc] at hpc'
      | createFails hpc => simp [hpc] at hpc'
      | join hpc hk hphase => simp [hpc] at hpc'
      | joinAbsent hpc hk => simp [hpc] at hpc'
  · refine Or.inl ⟨i, hown, hcase.imp_left fun hnone => ?_⟩
    have hne : i' ≠ i := by
      rintro rfl
      rw [hk] at hnone
      cases hnone
    exact (getElem?_setWorker_ne hne).trans hnone

end Process

end MtCopy

end SystemProgramming
