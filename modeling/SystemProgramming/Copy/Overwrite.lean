import SystemProgramming.Copy.Main
import SystemProgramming.Copy.Parallel

/-!
# Copying over an existing file

The headers of the copiers promise that “the destination file is overwritten if it
exists”. The destination is opened without `O_TRUNC`
(`SystemProgramming.CopyMain.CREAT_WRONLY`), so an old file that is longer than the
source keeps its end. For runs of the whole programs that exit with success, and
whose transfers are full, it is settled here when the destination does become the
source (`SystemProgramming.CopyMain.overwritten_iff`):

* the old content must not be longer than the source;
* what `main` goes on past must not have gone wrong: when `FATAL` comes back, the
  programs exit with success although `docopy` has reported an error, and
  `mt_copy` exits with success whatever became of its pieces;
* an `int` must count the blocks, in `simpcp2`, and the segments, in `mt_copy`.

The statements are about all contents of given lengths. Where the condition does not
hold it is two contents that tell: a source of ones over a destination of zeros.
-/

namespace SystemProgramming

open Bytes CopyMain Pieces Runs

/-! ### The course of `simpcp1` -/

namespace Simpcp1

open Simpcp

variable {α : Type*} {src e : List α} {n : ℕ} {s t : Copy α} {a : Answer}

/-- **The copy is right so far**: the destination holds the source up to the file
offset, and its old content from there on. -/
def Course (src e : List α) (n : ℕ) (s : Copy α) : Prop :=
  s.destOff ≤ src.length ∧ s.dest = src.take s.destOff ++ e.drop s.destOff ∧ match s.pc with
    | .stat => s.srcOff = 0 ∧ s.destOff = 0
    | .malloc => s.srcOff = 0 ∧ s.destOff = 0
    | .read _ => s.srcOff = s.destOff
    | .write nr _ => 0 < nr ∧ nr = min n (src.length - s.destOff) ∧ s.srcOff = s.destOff + nr ∧
        slice s.buf nr = (src.drop s.destOff).take nr
    | .ret v => v = 0 ∧ s.destOff = src.length

/-- The copy has stopped before its first block. -/
def Halted (e : List α) (s : Copy α) : Prop := s.dest = e ∧ ∃ v, s.pc = .ret v

theorem course_start (src e : List α) (n : ℕ) (heap : ℕ → α) :
    Course src e n (Copy.start e heap) := ⟨Nat.zero_le _, rfl, rfl, rfl⟩

variable [Zero α]

/-- **One step of `docopy`** whose call, when it is a transfer, is full. -/
theorem Course.step (hn : 1 ≤ n) (h : Course src e n s) (ha : a.FullTransfer)
    (hstep : docopy src n s a = some t) :
    (a.IsFull ∧ Course src e n t) ∨ (¬a.IsFull ∧ Halted e t) := by
  obtain ⟨hle, hdest, hpoint⟩ := h
  rw [docopy] at hstep
  cases hpc : s.pc with
  | stat =>
    simp only [hpc] at hstep hpoint
    rcases statSource_cases hstep with ⟨rfl, rfl⟩ | ⟨rfl, rfl⟩
    · exact Or.inl ⟨Or.inl rfl, hle, hdest, hpoint⟩
    · refine Or.inr ⟨by decide, hdest.trans ?_, _, rfl⟩
      rw [hpoint.2]
      rfl
  | malloc =>
    simp only [hpc] at hstep hpoint
    rcases mallocBuf_cases hstep with ⟨rfl, rfl⟩ | ⟨rfl, rfl⟩
    · exact Or.inl ⟨Or.inl rfl, hle, hdest, hpoint.1.trans hpoint.2.symm⟩
    · refine Or.inr ⟨by decide, hdest.trans ?_, _, rfl⟩
      rw [hpoint.2]
      rfl
  | read tr =>
    simp only [hpc] at hstep hpoint
    obtain ⟨r, hr, rfl⟩ := Option.map_eq_some_iff.mp hstep
    rcases Answer.transfer_cases hr with ⟨rfl, rfl⟩ | ⟨k, rfl, -⟩ | ⟨rfl, -⟩
    · refine Or.inl ⟨Or.inr rfl, ?_⟩
      change Course src e n ((s.readBytes src (min n (src.length - s.srcOff))).gotRead _)
      rw [hpoint]
      rcases Copy.gotRead_cases ((min n (src.length - s.destOff) : ℕ) : ℤ)
        (s.readBytes src (min n (src.length - s.destOff))) with
        ⟨hneg, -⟩ | ⟨hzero, heq⟩ | ⟨hpos, heq⟩
      · omega
      · rw [heq]
        -- nothing is left to read, so all has been written
        refine ⟨hle, hdest, rfl, ?_⟩
        change s.destOff = src.length
        omega
      · rw [heq, Int.toNat_natCast]
        -- the buffer now holds the next block of the source
        refine ⟨hle, hdest, by omega, rfl, ?_, ?_⟩
        · change s.srcOff + _ = s.destOff + _
          rw [hpoint]
        · change slice (blit s.buf _) _ = _
          rw [hpoint, slice_blit _ (by simp only [List.length_take, List.length_drop]; omega),
            List.take_take, Nat.min_self]
          rfl
    · exact ha.elim
    · exact ha.elim
  | write nr tw =>
    simp only [hpc] at hstep hpoint
    obtain ⟨hpos, hnr, hoff, hbuf⟩ := hpoint
    obtain ⟨r, hr, rfl⟩ := Option.map_eq_some_iff.mp hstep
    rcases Answer.transfer_cases hr with ⟨rfl, rfl⟩ | ⟨k, rfl, -⟩ | ⟨rfl, -⟩
    · refine Or.inl ⟨Or.inr rfl, ?_⟩
      change Course src e n ((s.writeBytes nr).gotWrite nr)
      rcases Copy.gotWrite_cases (nr : ℤ) (s.writeBytes nr) with ⟨hneg, -⟩ | ⟨-, heq⟩
      · omega
      rw [heq]
      have hlen : (slice s.buf nr).length = nr := length_slice _ _
      -- the block is written where the last one ended
      refine ⟨?_, ?_, hoff⟩
      · change s.destOff + nr ≤ src.length
        omega
      · change overwrite s.dest s.destOff (slice s.buf nr) =
          src.take (s.destOff + nr) ++ e.drop (s.destOff + nr)
        have hover := overwrite_take_append_drop src (slice s.buf nr) e hle
          (slice_ne_nil _ hpos) (by rw [hlen, hbuf])
        rw [hlen] at hover
        rw [hdest, hover]
    · exact ha.elim
    · exact ha.elim
  | ret v =>
    simp only [hpc] at hstep
    exact absurd hstep (by simp)

/-- **A run of `docopy`** whose transfers are full stays on the course, or has stopped
before its first block. -/
theorem course_run (hn : 1 ≤ n) : ∀ {as : List Answer} {s t : Copy α}, Course src e n s →
    (∀ a ∈ as, a.FullTransfer) → run (docopy src n) s as = some t →
      ((∀ a ∈ as, a.IsFull) ∧ Course src e n t) ∨ (¬(∀ a ∈ as, a.IsFull) ∧ Halted e t)
  | [], s, t, hs, _, h => by
    obtain rfl : s = t := by simpa using h
    exact Or.inl ⟨by simp, hs⟩
  | a :: as, s, t, hs, hall, h => by
    obtain ⟨u, hu, hrest⟩ := run_cons_eq_some.mp h
    obtain ⟨ha, has⟩ := List.forall_mem_cons.mp hall
    rcases hs.step hn ha hu with ⟨hfull, hu'⟩ | ⟨hnot, hhalt⟩
    · rcases course_run hn hu' has hrest with ⟨hfulls, ht⟩ | ⟨hnots, ht⟩
      · exact Or.inl ⟨List.forall_mem_cons.mpr ⟨hfull, hfulls⟩, ht⟩
      · exact Or.inr ⟨fun hfulls => hnots (List.forall_mem_cons.mp hfulls).2, ht⟩
    · refine Or.inr ⟨fun hfulls => hnot (List.forall_mem_cons.mp hfulls).1, ?_⟩
      obtain ⟨hdest, v, hpc⟩ := hhalt
      cases as with
      | nil =>
        obtain rfl : u = t := by simpa using hrest
        exact ⟨hdest, v, hpc⟩
      | cons b bs =>
        obtain ⟨w, hw, -⟩ := run_cons_eq_some.mp hrest
        rw [docopy, hpc] at hw
        cases hw

/-- **Replacing the bytes commutes with every step of `docopy`.** -/
theorem docopy_map {β : Type*} [Zero β] {φ : α → β} (hφ : φ 0 = 0) (src : List α) (n : ℕ)
    (s : Copy α) (a : Answer) :
    docopy (src.map φ) n (s.map φ) a = (docopy src n s a).map (Copy.map φ) := by
  have hpc : (s.map φ).pc = s.pc := rfl
  have hsrc : (s.map φ).srcOff = s.srcOff := rfl
  rw [docopy, docopy, hpc]
  cases s.pc with
  | stat => exact statSource_map s a
  | malloc => exact mallocBuf_map s a
  | read tr =>
    simp only [List.length_map, hsrc]
    rcases a.transfer (min n (src.length - s.srcOff)) with _ | _ | nr
    · rfl
    · exact congrArg some (Copy.map_gotRead (-1) s)
    · simp only [Option.map_some, Copy.map_readBytes, Copy.map_gotRead]
  | write nr tw =>
    dsimp only
    rcases a.transfer nr with _ | _ | nw
    · rfl
    · exact congrArg some (Copy.map_gotWrite (-1) s)
    · simp only [Option.map_some, Copy.map_writeBytes hφ, Copy.map_gotWrite]
  | ret v => rfl

end Simpcp1

/-! ### Runs of a program on all contents -/

namespace CopyMain

section Contents

variable {σ σ' ι H : Type*}

/-- The labels make the program exit with success, on some contents of these
lengths. -/
def ExitsWithSuccess (P : List UInt8 → H → Program UInt8 σ ι) (L M : ℕ)
    (ls : List (Answer ⊕ ι)) : Prop :=
  ∃ (src old : List UInt8) (heap : H) (t : Main σ), src.length = L ∧ old.length = M ∧
    run (step (P src heap) old) ((P src heap).main old) ls = some t ∧ t.pc = .exited 0

/-- The labels make the destination the source, on all contents of these lengths. -/
def Overwrites (P : List UInt8 → H → Program UInt8 σ ι) (dest : σ → List UInt8) (L M : ℕ)
    (ls : List (Answer ⊕ ι)) : Prop :=
  ∀ (src old : List UInt8) (heap : H) (t : Main σ), src.length = L → old.length = M →
    run (step (P src heap) old) ((P src heap).main old) ls = some t → dest t.copy = src

variable {P : List UInt8 → H → Program UInt8 σ ι} {PL : Program Label σ' ι} {L M : ℕ}
  {ls : List (Answer ⊕ ι)}

/-- **What exits with success on some contents does so on all of these lengths**, when
the program does not look at the bytes. -/
theorem ExitsWithSuccess.run (h : ExitsWithSuccess P L M ls)
    (hmap : ∀ (src old : List UInt8) (heap : H), src.length = L → old.length = M →
      ∃ f, SameUpTo PL (P src heap) (Label.oldList M) old f)
    {src old : List UInt8} (heap : H) (hsrc : src.length = L) (hold : old.length = M) :
    ∃ t, Runs.run (step (P src heap) old) ((P src heap).main old) ls = some t ∧
      t.pc = .exited 0 := by
  obtain ⟨src', old', heap', t', hsrc', hold', hrun, hpc⟩ := h
  obtain ⟨f', hf'⟩ := hmap src' old' heap' hsrc' hold'
  obtain ⟨f, hf⟩ := hmap src old heap hsrc hold
  rw [run_main_map hf'] at hrun
  obtain ⟨u, hu, rfl⟩ := Option.map_eq_some_iff.mp hrun
  refine ⟨u.map f, ?_, hpc⟩
  rw [run_main_map hf, hu]
  rfl

/-- **The copy of a run that exits with success** has returned. -/
theorem ExitsWithSuccess.copy (h : ExitsWithSuccess P L M ls)
    (hmap : ∀ (src old : List UInt8) (heap : H), src.length = L → old.length = M →
      ∃ f, SameUpTo PL (P src heap) (Label.oldList M) old f)
    (hflags : ∀ src heap, (P src heap).flags = CREAT_WRONLY)
    {src old : List UInt8} {heap : H} {t : Main σ} (hsrc : src.length = L) (hold : old.length = M)
    (hrun : Runs.run (step (P src heap) old) ((P src heap).main old) ls = some t) :
    Runs.run (P src heap).step ((P src heap).start old) (copyLabels ls) = some t.copy ∧
      ∃ v, (P src heap).value t.copy = some v := by
  have htrunc : (P src heap).flags.trunc = false := by
    rw [hflags]
    rfl
  obtain ⟨t', ht', hpc⟩ := h.run hmap heap hsrc hold
  obtain rfl : t' = t := Option.some.inj (ht'.symm.trans hrun)
  obtain ⟨hcopy, hpoint⟩ := run_copy (s := (P src heap).main old) htrunc rfl hrun
  rw [hpc] at hpoint
  exact ⟨hcopy, hpoint rfl⟩

end Contents

/-- The contents that tell: a source of ones, over a destination of zeros. -/
theorem getElem?_zeros_ne_ones {L p : ℕ} (M : ℕ) (hp : p < L) :
    (List.replicate M (0 : UInt8))[p]? ≠ (List.replicate L (1 : UInt8))[p]? := by
  rw [List.getElem?_replicate, List.getElem?_replicate, if_pos hp]
  split_ifs <;> simp

/-- Where all of the source has been put in place, the destination is the source unless
the old content was longer. -/
theorem append_drop_eq_iff {src old : List UInt8} :
    src ++ old.drop src.length = src ↔ old.length ≤ src.length := by
  rw [List.append_right_eq_self, List.drop_eq_nil_iff]

end CopyMain

/-! ### The three programs -/

section Programs

open Simpcp

variable {n L M : ℕ} {ls : List (Answer ⊕ Answer)}

theorem Simpcp1.sameUpTo (n : ℕ) {src old : List UInt8} (heap : ℕ → UInt8) :
    SameUpTo (Simpcp1.program (Label.srcList src.length) n (Label.heap 0 0))
      (Simpcp1.program src n heap) (Label.oldList old.length) old
      (Copy.map (Label.unlabel src old fun _ _ => heap)) := by
  have hstart : Copy.start old heap = (Copy.start (Label.oldList old.length) (Label.heap 0 0)).map
      (Label.unlabel src old fun _ _ => heap) := by
    rw [Copy.map_start, Label.map_oldList]
    rfl
  refine ⟨rfl, rfl, fun _ => rfl, hstart, hstart, fun c a => ?_, fun _ => rfl, fun _ _ => rfl⟩
  have h := Simpcp1.docopy_map (φ := Label.unlabel src old fun _ _ => heap) rfl
    (Label.srcList src.length) n c a
  rwa [Label.map_srcList] at h

theorem Simpcp2.sameUpTo (n : ℕ) {src old : List UInt8} (heap : ℕ → UInt8) :
    SameUpTo (Simpcp2.program (Label.srcList src.length) n (Label.heap 0 0))
      (Simpcp2.program src n heap) (Label.oldList old.length) old
      (Copy.map (Label.unlabel src old fun _ _ => heap)) := by
  have hstart : Copy.start old heap = (Copy.start (Label.oldList old.length) (Label.heap 0 0)).map
      (Label.unlabel src old fun _ _ => heap) := by
    rw [Copy.map_start, Label.map_oldList]
    rfl
  refine ⟨rfl, rfl, fun _ => rfl, hstart, hstart, fun c a => ?_, fun _ => rfl, fun _ _ => rfl⟩
  have h := Simpcp2.docopy_map (φ := Label.unlabel src old fun _ _ => heap) rfl
    (Label.srcList src.length) n c a
  rwa [Label.map_srcList] at h

/-- The value of a copy is where it has returned. -/
theorem Simpcp.Copy.pc_of_value {α : Type*} {c : Copy α} {v : ℤ} (h : c.value = some v) :
    c.pc = .ret v := by
  rw [Copy.value] at h
  cases hpc : c.pc <;> simp_all

/-- **When `simpcp1` overwrites.** -/
theorem Simpcp1.overwrites_iff (hn : 1 ≤ n) (hfull : ∀ a ∈ copyLabels ls, a.FullTransfer)
    (h : ExitsWithSuccess (fun src heap => Simpcp1.program src n heap) L M ls) :
    Overwrites (fun src heap => Simpcp1.program src n heap) Copy.dest L M ls ↔
      M ≤ L ∧ (0 < L → ∀ a ∈ copyLabels ls, a.IsFull) := by
  have hmap : ∀ (src old : List UInt8) (heap : ℕ → UInt8), src.length = L → old.length = M →
      ∃ f, SameUpTo (Simpcp1.program (Label.srcList L) n (Label.heap 0 0))
        (Simpcp1.program src n heap) (Label.oldList M) old f := by
    rintro src old heap rfl rfl
    exact ⟨_, Simpcp1.sameUpTo n heap⟩
  -- in every such run, `docopy` has copied all of it, or stopped before its first block
  have hends : ∀ {src old : List UInt8} {heap : ℕ → UInt8} {t : Main (Copy UInt8)},
      src.length = L → old.length = M →
      run (step (Simpcp1.program src n heap) old) ((Simpcp1.program src n heap).main old) ls =
        some t →
      ((∀ a ∈ copyLabels ls, a.IsFull) ∧ t.copy.dest = src ++ old.drop src.length) ∨
        (¬(∀ a ∈ copyLabels ls, a.IsFull) ∧ t.copy.dest = old) := by
    intro src old heap t hsrc hold hrun
    obtain ⟨hcopy, v, hv⟩ := h.copy hmap (fun _ _ => rfl) hsrc hold hrun
    rcases Simpcp1.course_run hn (Simpcp1.course_start src old n heap) hfull hcopy with
      ⟨has, -, hdest, hpoint⟩ | ⟨hnot, hdest, -⟩
    · rw [Copy.pc_of_value hv] at hpoint
      refine Or.inl ⟨has, ?_⟩
      rw [hdest, hpoint.2, List.take_length]
    · exact Or.inr ⟨hnot, hdest⟩
  constructor
  · intro hall
    have hL : (List.replicate L (1 : UInt8)).length = L := List.length_replicate
    have hM : (List.replicate M (0 : UInt8)).length = M := List.length_replicate
    obtain ⟨t, ht, -⟩ := h.run hmap (fun _ => 0) hL hM
    have hdest := hall _ _ _ t hL hM ht
    rcases hends hL hM ht with ⟨has, heq⟩ | ⟨-, heq⟩
    · refine ⟨?_, fun _ => has⟩
      have hle := append_drop_eq_iff.mp (heq.symm.trans hdest)
      rwa [hL, hM] at hle
    · have hsame : List.replicate M (0 : UInt8) = List.replicate L 1 := heq.symm.trans hdest
      constructor
      · have hlen := congrArg List.length hsame
        rw [hL, hM] at hlen
        exact hlen.le
      · intro hpos
        exact absurd (congrArg (fun l : List UInt8 => l[0]?) hsame) (getElem?_zeros_ne_ones M hpos)
  · rintro ⟨hML, hcond⟩ src old heap t hsrc hold hrun
    rcases hends hsrc hold hrun with ⟨-, heq⟩ | ⟨hnot, heq⟩
    · rw [heq]
      exact append_drop_eq_iff.mpr (by omega)
    · have hL0 : ¬0 < L := fun hpos => hnot (hcond hpos)
      rw [heq, List.length_eq_zero_iff.mp (show src.length = 0 by omega),
        List.length_eq_zero_iff.mp (show old.length = 0 by omega)]

/-- **When `simpcp2` overwrites.** -/
theorem Simpcp2.overwrites_iff (hn : 1 ≤ n) (hfull : ∀ a ∈ copyLabels ls, a.FullTransfer)
    (h : ExitsWithSuccess (fun src heap => Simpcp2.program src n heap) L M ls) :
    Overwrites (fun src heap => Simpcp2.program src n heap) Copy.dest L M ls ↔
      M ≤ L ∧ (0 < L → (∀ a ∈ copyLabels ls, a.IsFull) ∧ min n L < 2 ^ 31) := by
  have hmap : ∀ (src old : List UInt8) (heap : ℕ → UInt8), src.length = L → old.length = M →
      ∃ f, SameUpTo (Simpcp2.program (Label.srcList L) n (Label.heap 0 0))
        (Simpcp2.program src n heap) (Label.oldList M) old f := by
    rintro src old heap rfl rfl
    exact ⟨_, Simpcp2.sameUpTo n heap⟩
  -- in every such run, `docopy` has copied all of it, or is behind
  have hends : ∀ {src old : List UInt8} {heap : ℕ → UInt8} {t : Main (Copy UInt8)},
      src.length = L → old.length = M →
      run (step (Simpcp2.program src n heap) old) ((Simpcp2.program src n heap).main old) ls =
        some t →
      (((∀ a ∈ copyLabels ls, a.IsFull) ∧ min n L < 2 ^ 31) ∧
          t.copy.dest = src ++ old.drop src.length) ∨
        (¬((∀ a ∈ copyLabels ls, a.IsFull) ∧ min n L < 2 ^ 31) ∧
          (∀ p, t.copy.destOff ≤ p → t.copy.dest[p]? = old[p]?) ∧
          (t.copy.destOff < L ∨ t.copy.destOff = 0 ∧ L = 0)) := by
    intro src old heap t hsrc hold hrun
    obtain ⟨hcopy, v, hv⟩ := h.copy hmap (fun _ _ => rfl) hsrc hold hrun
    rcases Simpcp2.tracks_run hn (Simpcp2.tracks_start src old n heap) hcopy with
      ⟨has, htr⟩ | ⟨hbig, -, hbehind⟩
    · have hpoint := htr.point
      rw [Copy.pc_of_value hv] at hpoint
      exact Or.inl ⟨⟨has, hsrc ▸ hpoint.2.2⟩, htr.dest_of_ret (Copy.pc_of_value hv)⟩
    · obtain ⟨hdest, hpoint⟩ := hbehind hfull
      rw [Copy.pc_of_value hv] at hpoint
      refine Or.inr ⟨fun hcond => ?_, hdest, hsrc ▸ hpoint⟩
      have := hbig hcond.1
      omega
  constructor
  · intro hall
    have hL : (List.replicate L (1 : UInt8)).length = L := List.length_replicate
    have hM : (List.replicate M (0 : UInt8)).length = M := List.length_replicate
    obtain ⟨t, ht, -⟩ := h.run hmap (fun _ => 0) hL hM
    have hdest := hall _ _ _ t hL hM ht
    rcases hends hL hM ht with ⟨hcond, heq⟩ | ⟨-, heq, hoff⟩
    · refine ⟨?_, fun _ => hcond⟩
      have hle := append_drop_eq_iff.mp (heq.symm.trans hdest)
      rwa [hL, hM] at hle
    · rw [hdest] at heq
      constructor
      · -- a byte of the old content beyond the source would still be there
        by_contra hlt
        have hend := heq L (by omega)
        rw [List.getElem?_eq_none hL.le, List.getElem?_replicate, if_pos (by omega)] at hend
        cases hend
      · intro hpos
        have hlt : t.copy.destOff < L := hoff.resolve_right fun h0 => by omega
        exact absurd (heq _ le_rfl).symm (getElem?_zeros_ne_ones M hlt)
  · rintro ⟨hML, hcond⟩ src old heap t hsrc hold hrun
    rcases hends hsrc hold hrun with ⟨-, heq⟩ | ⟨hnot, heq, hoff⟩
    · rw [heq]
      exact append_drop_eq_iff.mpr (by omega)
    · have hL0 : ¬0 < L := fun hpos => hnot (hcond hpos)
      have hsame : t.copy.dest = old := by
        ext1 p
        exact heq p (by omega)
      rw [hsame, List.length_eq_zero_iff.mp (show src.length = 0 by omega),
        List.length_eq_zero_iff.mp (show old.length = 0 by omega)]

end Programs

namespace MtCopy

section Map

variable {α β : Type*} {φ : α → β} {N L : ℕ}

theorem Worker.map_current (k : Worker α) : (k.map φ).current = k.current := by
  have hphase : (k.map φ).phase = k.phase.map φ := rfl
  rw [Worker.current, Worker.current, hphase]
  cases k.phase <;> rfl

theorem getElem?_map_workers (s : System α) (i : ℕ) :
    (s.map φ).workers[i]? = (s.workers[i]?).map (Option.map (Worker.map φ)) := List.getElem?_map

/-- Whether a call succeeds does not depend on the bytes. -/
theorem callSucceeds_map (s : System α) (l : Thread × Answer) :
    CallSucceeds N L (s.map φ) l ↔ CallSucceeds N L s l := by
  refine and_congr ?_ Iff.rfl
  constructor
  · intro h i k hi hk hpos
    refine h i (k.map φ) hi ?_ (by rwa [Worker.map_current])
    rw [getElem?_map_workers, hk]
    rfl
  · intro h i k' hi hk' hpos
    rw [getElem?_map_workers] at hk'
    obtain ⟨o, ho, hmap⟩ := Option.map_eq_some_iff.mp hk'
    obtain ⟨k, rfl, rfl⟩ := Option.map_eq_some_iff.mp hmap
    rw [Worker.map_current] at hpos
    exact h i k hi ho hpos

/-- The descriptor of a call does not depend on the bytes. -/
theorem System.map_fd (s : System α) (th : Thread) : (s.map φ).fd th = s.fd th := by
  cases th with
  | main => rfl
  | worker i =>
    rw [System.fd, System.fd, getElem?_map_workers]
    rcases s.workers[i]? with _ | _ | k
    · rfl
    · rfl
    · have hphase : (k.map φ).phase = k.phase.map φ := rfl
      simp only [Option.map_some, hphase]
      cases k.phase <;> rfl

end Map

/-- The memory of the process, on the labels. -/
def heapLabels : ℕ → ℕ → ℕ → Label := Label.heap

theorem start_eq_map_labels (old src : List UInt8) (heap : ℕ → ℕ → ℕ → UInt8) :
    System.start old =
      (System.start (Label.oldList old.length)).map (Label.unlabel src old heap) := by
  rw [System.start, System.start, System.map]
  congr 1
  rw [Dest.map, Label.map_oldList]
  rfl

/-- **Every step is the step on the labels, with the bytes put back.** -/
theorem step_map_labels (N : ℕ) (src old : List UInt8) (heap : ℕ → ℕ → ℕ → UInt8)
    (s : System Label) (l : Thread × Answer) :
    step src N heap (s.map (Label.unlabel src old heap)) l =
      (step (Label.srcList src.length) N heapLabels s l).map
        (System.map (Label.unlabel src old heap)) := by
  have h := step_map (φ := Label.unlabel src old heap) rfl (Label.srcList src.length) N heapLabels
    s l
  rwa [Label.map_srcList] at h

theorem sameUpTo (N : ℕ) {src old : List UInt8} (heap : ℕ → ℕ → ℕ → UInt8) :
    SameUpTo (MtCopy.program (Label.srcList src.length) N heapLabels) (MtCopy.program src N heap)
      (Label.oldList old.length) old (System.map (Label.unlabel src old heap)) :=
  ⟨rfl, rfl, fun _ => rfl, start_eq_map_labels old src heap, start_eq_map_labels old src heap,
    step_map_labels N src old heap, fun _ => rfl, fun s l => System.map_fd s l.1⟩

/-- **Where a position was not written**, the zeros of the old content, or of a gap, do
not become the ones of the source. -/
theorem getElem?_ne_of_not_covers {L M N p : ℕ} {s : System UInt8}
    (h : SystemOk (List.replicate L (1 : UInt8)) (List.replicate M 0) N s) (hp : p < L)
    (hunc : ∀ x ∈ s.dest.writes, ¬Covers x p) :
    s.dest.file[p]? ≠ (List.replicate L (1 : UInt8))[p]? := by
  rw [h.file_eq]
  have hone : (List.replicate L (1 : UInt8))[p]? = some 1 := by
    rw [List.getElem?_replicate, if_pos hp]
  have hlen : (List.replicate M (0 : UInt8)).length = M := List.length_replicate
  rcases Nat.lt_or_ge p M with hlt | hge
  · rw [(getElem?_patch_of_not_covers hunc (hlen.symm ▸ hlt)).1]
    exact getElem?_zeros_ne_ones M hp
  · rw [hone]
    rcases getElem?_patch_of_gap hunc (hlen.le.trans hge) with hgap | hgap <;>
      rw [hgap] <;> simp

/-- **When `mt_copy` overwrites.** -/
theorem overwrites_iff {N L M : ℕ} {ls : List (Answer ⊕ (Thread × Answer))} (hN : 0 < N)
    (hN5 : N ≤ 5) (hfull : ∀ l ∈ copyLabels ls, l.2.FullTransfer)
    (h : ExitsWithSuccess (fun src heap => MtCopy.program src N heap) L M ls) :
    Overwrites (fun src heap => MtCopy.program src N heap) (fun s => s.dest.file) L M ls ↔
      M ≤ L ∧ Every (step (Label.srcList L) N heapLabels) (CallSucceeds N L)
        (System.start (Label.oldList M)) (copyLabels ls) ∧ L / N < 2 ^ 31 := by
  have hwhole : ∀ l ∈ copyLabels ls, l.2.Whole := fun l hl => (hfull l hl).whole
  have hmap : ∀ (src old : List UInt8) (heap : ℕ → ℕ → ℕ → UInt8), src.length = L →
      old.length = M → ∃ f, SameUpTo (MtCopy.program (Label.srcList L) N heapLabels)
        (MtCopy.program src N heap) (Label.oldList M) old f := by
    rintro src old heap rfl rfl
    exact ⟨_, sameUpTo N heap⟩
  -- the condition is the same on all contents of these lengths
  have hcond : ∀ {src old : List UInt8} (heap : ℕ → ℕ → ℕ → UInt8), src.length = L →
      old.length = M → (Every (step src N heap) (CallSucceeds N src.length) (System.start old)
        (copyLabels ls) ↔ Every (step (Label.srcList L) N heapLabels) (CallSucceeds N L)
          (System.start (Label.oldList M)) (copyLabels ls)) := by
    rintro src old heap rfl rfl
    rw [start_eq_map_labels old src heap]
    exact every_map (step_map_labels N src old heap) callSucceeds_map _ _
  have hends : ∀ {src old : List UInt8} {heap : ℕ → ℕ → ℕ → UInt8} {t : Main (System UInt8)},
      src.length = L → old.length = M →
      run (CopyMain.step (MtCopy.program src N heap) old) ((MtCopy.program src N heap).main old)
        ls = some t →
      run (step src N heap) (System.start old) (copyLabels ls) = some t.copy ∧
        ∃ v, t.copy.main = .ret v := by
    intro src old heap t hsrc hold hrun
    obtain ⟨hcopy, v, hv⟩ := h.copy hmap (fun _ _ => rfl) hsrc hold hrun
    refine ⟨hcopy, v, ?_⟩
    change t.copy.value = some v at hv
    rw [System.value] at hv
    cases hpc : t.copy.main <;> simp_all
  constructor
  · intro hall
    have hL : (List.replicate L (1 : UInt8)).length = L := List.length_replicate
    have hM : (List.replicate M (0 : UInt8)).length = M := List.length_replicate
    obtain ⟨t, ht, -⟩ := h.run hmap (fun _ _ _ => 0) hL hM
    obtain ⟨hrun, v, hret⟩ := hends hL hM ht
    have hdest : t.copy.dest.file = List.replicate L 1 := hall _ _ _ t hL hM ht
    have hok : SystemOk (List.replicate L (1 : UInt8)) (List.replicate M 0) N t.copy :=
      systemOk_run hN hwhole hrun
    have hcov : ∀ p < (List.replicate L (1 : UInt8)).length,
        ∃ x ∈ t.copy.dest.writes, Covers x p := by
      intro p hp
      by_contra hunc
      refine getElem?_ne_of_not_covers hok (hL ▸ hp) (fun x hx hxp => hunc ⟨x, hx, hxp⟩) ?_
      rw [hdest]
    obtain ⟨hevery, hseg⟩ := (covered_iff hN hN5 hwhole hrun hret).mp hcov
    refine ⟨?_, (hcond _ hL hM).mp hevery, by rwa [hL] at hseg⟩
    have hle := append_drop_eq_iff.mp ((hok.file_eq_of_covered hcov).symm.trans hdest)
    rwa [hL, hM] at hle
  · rintro ⟨hML, hevery, hseg⟩ src old heap t hsrc hold ht
    obtain ⟨hrun, v, hret⟩ := hends hsrc hold ht
    have hok : SystemOk src old N t.copy := systemOk_run hN hwhole hrun
    have hcov := (covered_iff hN hN5 hwhole hrun hret).mpr
      ⟨(hcond heap hsrc hold).mpr hevery, by rwa [hsrc]⟩
    change t.copy.dest.file = src
    rw [hok.file_eq_of_covered hcov]
    exact append_drop_eq_iff.mpr (by omega)

end MtCopy

/-! ### The promise of the headers -/

namespace CopyMain

/-- **When an existing destination is overwritten**, in runs that exit with success and
whose transfers are full: all contents of given lengths arrive exactly if the old
content is not longer than the source, the calls that `main` does not look back at
succeed, and an `int` counts what it has to count. -/
theorem overwritten_iff {n N L M : ℕ} (hn : 1 ≤ n) (hN : 2 ≤ N) (hN5 : N ≤ 5) :
    (∀ ls : List (Answer ⊕ Answer), (∀ a ∈ copyLabels ls, a.FullTransfer) →
      ExitsWithSuccess (fun src heap => Simpcp1.program src n heap) L M ls →
        (Overwrites (fun src heap => Simpcp1.program src n heap) Simpcp.Copy.dest L M ls ↔
          M ≤ L ∧ (0 < L → ∀ a ∈ copyLabels ls, a.IsFull))) ∧
    (∀ ls : List (Answer ⊕ Answer), (∀ a ∈ copyLabels ls, a.FullTransfer) →
      ExitsWithSuccess (fun src heap => Simpcp2.program src n heap) L M ls →
        (Overwrites (fun src heap => Simpcp2.program src n heap) Simpcp.Copy.dest L M ls ↔
          M ≤ L ∧ (0 < L → (∀ a ∈ copyLabels ls, a.IsFull) ∧ min n L < 2 ^ 31))) ∧
    (∀ ls : List (Answer ⊕ (Thread × Answer)), (∀ l ∈ copyLabels ls, l.2.FullTransfer) →
      ExitsWithSuccess (fun src heap => MtCopy.program src N heap) L M ls →
        (Overwrites (fun src heap => MtCopy.program src N heap) (fun s => s.dest.file) L M ls ↔
          M ≤ L ∧ Every (MtCopy.step (Label.srcList L) N MtCopy.heapLabels)
            (MtCopy.CallSucceeds N L) (MtCopy.System.start (Label.oldList M)) (copyLabels ls) ∧
          L / N < 2 ^ 31)) :=
  ⟨fun _ hfull h => Simpcp1.overwrites_iff hn hfull h,
    fun _ hfull h => Simpcp2.overwrites_iff hn hfull h,
    fun _ hfull h => MtCopy.overwrites_iff (by omega) hN5 hfull h⟩

/-- The calls of `simpcp1` on three bytes, in blocks of four: all of them full. -/
def threeBytes1 : List (Answer ⊕ Answer) :=
  [.inl .ok, .inl .ok, .inr .ok, .inr .ok, .inr .full, .inr .full, .inr .full]

/-- The calls of `simpcp2` on three bytes, in blocks of four: all of them full. -/
def threeBytes2 : List (Answer ⊕ Answer) :=
  [.inl .ok, .inl .ok, .inl .ok, .inr .ok, .inr .ok, .inr .full, .inr .full, .inr .full, .inr .full]

/-- The calls of `mt_copy` on three bytes, with two threads: all of them full. -/
def threeBytesMt : List (Answer ⊕ (Thread × Answer)) :=
  [.inl .ok, .inl .ok, .inl .ok] ++ MtCopy.threeBytes.map .inr

/-- Four old bytes are too many for three new ones, in each of the programs. -/
theorem overwritten_iff_at :
    ¬Overwrites (fun src heap => Simpcp1.program src 4 heap) Simpcp.Copy.dest 3 4 threeBytes1 ∧
    ¬Overwrites (fun src heap => Simpcp2.program src 4 heap) Simpcp.Copy.dest 3 4 threeBytes2 ∧
    ¬Overwrites (fun src heap => MtCopy.program src 2 heap) (fun s => s.dest.file) 3 4
      threeBytesMt := by
  obtain ⟨h1, h2, h3⟩ :=
    overwritten_iff (n := 4) (N := 2) (L := 3) (M := 4) (by decide) (by decide) (by decide)
  refine ⟨fun h => ?_, fun h => ?_, fun h => ?_⟩
  · have hexit : ExitsWithSuccess (fun src heap => Simpcp1.program src 4 heap) 3 4 threeBytes1 :=
      ⟨[1, 2, 3], [9, 9, 9, 9], fun _ => 0, _, rfl, rfl, rfl, rfl⟩
    exact absurd ((h1 _ (by decide) hexit).mp h).1 (by decide)
  · have hexit : ExitsWithSuccess (fun src heap => Simpcp2.program src 4 heap) 3 4 threeBytes2 :=
      ⟨[1, 2, 3], [9, 9, 9, 9], fun _ => 0, _, rfl, rfl, rfl, rfl⟩
    exact absurd ((h2 _ (by decide) hexit).mp h).1 (by decide)
  · have hexit : ExitsWithSuccess (fun src heap => MtCopy.program src 2 heap) 3 4 threeBytesMt :=
      ⟨[1, 2, 3], [9, 9, 9, 9], fun _ _ _ => 0, _, rfl, rfl, rfl, rfl⟩
    exact absurd ((h3 _ (by decide) hexit).mp h).1 (by decide)

/-- **A longer old file shows through**: with all transfers full, each of the programs
exits with success and leaves the fourth of the old bytes behind the three new ones. -/
theorem old_end_kept :
    (∃ t : Main (Simpcp.Copy UInt8), (∀ a ∈ copyLabels threeBytes1, a.FullTransfer) ∧
      run (step (Simpcp1.program [1, 2, 3] 4 fun _ => 0) [9, 9, 9, 9])
        ((Simpcp1.program [1, 2, 3] 4 fun _ => 0).main [9, 9, 9, 9]) threeBytes1 = some t ∧
      t.pc = .exited 0 ∧ t.copy.dest = [1, 2, 3, 9]) ∧
    (∃ t : Main (Simpcp.Copy UInt8), (∀ a ∈ copyLabels threeBytes2, a.FullTransfer) ∧
      run (step (Simpcp2.program [1, 2, 3] 4 fun _ => 0) [9, 9, 9, 9])
        ((Simpcp2.program [1, 2, 3] 4 fun _ => 0).main [9, 9, 9, 9]) threeBytes2 = some t ∧
      t.pc = .exited 0 ∧ t.copy.dest = [1, 2, 3, 9]) ∧
    (∃ t : Main (MtCopy.System UInt8), (∀ l ∈ copyLabels threeBytesMt, l.2.FullTransfer) ∧
      run (step (MtCopy.program [1, 2, 3] 2 fun _ _ _ => 0) [9, 9, 9, 9])
        ((MtCopy.program [1, 2, 3] 2 fun _ _ _ => 0).main [9, 9, 9, 9]) threeBytesMt = some t ∧
      t.pc = .exited 0 ∧ t.copy.dest.file = [1, 2, 3, 9]) :=
  ⟨⟨_, by decide, rfl, rfl, rfl⟩, ⟨_, by decide, rfl, rfl, rfl⟩, ⟨_, by decide, rfl, rfl, rfl⟩⟩

end CopyMain

end SystemProgramming
