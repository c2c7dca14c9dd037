import SystemProgramming.Copy.Segment
import SystemProgramming.Copy.Threads

/-!
# Segments that an `int` does not count

`fd_read` and `fd_write` count in a `size_t` and return the count through an `int`. With a
segment of `2 ^ 31` bytes and more the value that `__do_mt_copy` gets is not the length: it is
negative, which is taken for a failed read, or 0, which is taken for the end of the file, or
smaller, and then only so much is written. Nothing has failed in any of these cases.

So when every call does all it is asked to, a segment is copied exactly if it is shorter than
`2 ^ 31` bytes (`SystemProgramming.MtCopy.long_segment_copied_iff`).
-/

namespace SystemProgramming

open Bytes Runs Wrappers

namespace MtCopy

variable {α : Type*} [Zero α] {src old : List α} {off len L M : ℕ} {heap : ℕ → α}

/-- **The segment is copied** by `__do_mt_copy`, which returns 0, when its allocation succeeds and
its transfers are full. -/
def Copies (src old : List α) (off len : ℕ) (heap : ℕ → α) : Prop :=
  ∃ as p, (∀ a ∈ as, a.IsFull) ∧ run (segRun src) (segStart off len old heap) as = some p ∧
    p.1.pc = .ret 0 ∧ SegCopied src old off len p.2.file

/-- The values of the two wrappers are the length, when one call transfers all of it. -/
def Counted (len : ℕ) : Prop :=
  fdReadRound len 0 (some len) = .value len ∧ fdWriteRound len 0 (some len) = .value len

/-- The values are the length exactly if an `int` holds it. -/
theorem counted_iff (hpos : 1 ≤ len) : Counted len ↔ len < 2 ^ 31 := by
  have hread : fdReadRound len 0 (some len) = .value (toInt len) := by
    rw [fdReadRound, if_neg (by omega), if_neg (by omega), Nat.zero_add]
  have hwrite : fdWriteRound len 0 (some len) = .value (toInt len) := by
    rw [fdWriteRound, if_neg (by omega), Nat.zero_add]
  rw [Counted, hread, hwrite, and_self, Round.value.injEq]
  constructor
  · intro heq
    by_contra hge
    have hlt := toInt_lt_of_le (Nat.le_of_not_lt hge)
    omega
  · exact toInt_of_lt

/-- A segment that an `int` counts is copied. -/
theorem copies_of_lt (hpos : 1 ≤ len) (hin : off + len ≤ src.length) (hlen : len < 2 ^ 31) :
    Copies src old off len heap := by
  have hint : toInt len = len := toInt_of_lt hlen
  have hmin : min len (src.length - off) = len := by omega
  obtain ⟨p, hp, hpc⟩ : ∃ p, run (segRun src) (segStart off len old heap)
      [.ok, .full, .full] = some p ∧ p.1.pc = .ret 0 := by
    have hne : len ≠ 0 := by omega
    have hrest : src.length - off ≠ 0 := by omega
    have hneg : ¬(len : ℤ) < 0 := by omega
    simp [run_cons, segRun, segStart, Seg.call, segStep, mallocBuf, fdRead, fdWrite, fdReadRound,
      fdWriteRound, Answer.status, Answer.transfer, hmin, hint, hne, hrest, hneg,
      Seg.gotRead, Seg.gotWrite, Seg.readBytes]
  exact ⟨_, p, by simp [Answer.IsFull], hp, hpc, (copied_of_full hin hlen hp hpc rfl rfl).1⟩

/-- The states of `__do_mt_copy` on a segment, none of its transfers being short: nothing has been
written, or it has returned and no more than an `int` counts has been. -/
def CountedOnly (src old : List α) (off len : ℕ) (p : Seg α × Dest α) : Prop :=
  SegOk src off len p.1 ∧ (p.2.file = old ∨ (∃ v, p.1.pc = .ret v) ∧
    p.2.file = overwrite old off ((src.drop off).take (intCount len)))

theorem CountedOnly.step {p q : Seg α × Dest α} {a : Answer} (h : CountedOnly src old off len p)
    (hin : off + len ≤ src.length) (ha : a.Whole) (hstep : segRun src p a = some q) :
    CountedOnly src old off len q := by
  obtain ⟨g, w⟩ := p
  obtain ⟨g', w'⟩ := q
  obtain ⟨hok, hfile⟩ := h
  have hfile' : w.file = old := by
    rcases hfile with heq | ⟨⟨v, hv⟩, -⟩
    · exact heq
    · rw [segRun, segStep] at hstep
      simp only at hv
      simp only [hv, reduceCtorEq] at hstep
  obtain ⟨hok', -, hcase⟩ := hok.step hin ha hstep
  refine ⟨hok', ?_⟩
  rcases hcase with ⟨rfl, -, -⟩ | ⟨hret, ⟨rfl, -⟩ | ⟨-, -, rfl⟩⟩
  · exact Or.inl hfile'
  · exact Or.inl hfile'
  · refine Or.inr ⟨hret, ?_⟩
    change overwrite w.file off _ = _
    rw [hfile']

/-- **The end of a segment that an `int` does not count is not copied.** -/
theorem not_copies_of_le (hin : off + len ≤ L) (hlen : 2 ^ 31 ≤ len) :
    ¬Copies (List.replicate L (1 : UInt8)) (List.replicate M 0) off len fun _ => 0 := by
  rintro ⟨as, p, hfull, hrun, -, hcopied⟩
  have hsrc : off + len ≤ (List.replicate L (1 : UInt8)).length := by rwa [List.length_replicate]
  have hstart : CountedOnly (List.replicate L (1 : UInt8)) (List.replicate M 0) off len
      (segStart off len (List.replicate M 0) fun _ => 0) :=
    ⟨⟨rfl, rfl, trivial⟩, Or.inl rfl⟩
  have hcounted :=
    (every_of_forall hfull (segStart off len (List.replicate M 0) fun _ => 0)).invariant
      (fun _ _ _ h ha hst => CountedOnly.step h hsrc ha.whole hst) hstart hrun
  have hcount : intCount len < len := by
    have hlt := toInt_lt_of_le hlen
    rw [intCount]
    omega
  -- the last byte of the segment is an old one, or there is none
  have hold : ∀ i : ℕ, (List.replicate M (0 : UInt8))[i]? ≠ some 1 := by
    intro i heq
    have hmem := List.mem_of_getElem? heq
    rw [List.mem_replicate] at hmem
    exact absurd hmem.2 (by decide)
  have hend : p.2.file[off + len - 1]? = some 1 := by
    rw [hcopied.inside _ (by omega) (by omega), List.getElem?_replicate, if_pos (by omega)]
  rcases hcounted.2 with hfile | ⟨-, hfile⟩
  · rw [hfile] at hend
    exact hold _ hend
  · have hlast : ((List.replicate L (1 : UInt8)).drop off |>.take (intCount len)).length =
        intCount len := by
      rw [List.length_take, List.length_drop, List.length_replicate]
      omega
    rw [hfile, getElem?_overwrite_of_ge (by omega)] at hend
    exact hold _ hend

/-- **Segments of any length are copied**, returning 0, exactly if an `int` holds their length, and
exactly then do the two wrappers return the number of bytes transferred. -/
theorem long_segment_copied_iff (hpos : 1 ≤ len) (hin : off + len ≤ L) :
    ((∀ (src old : List UInt8) (heap : ℕ → UInt8), src.length = L → old.length = M →
      Copies src old off len heap) ↔ len < 2 ^ 31) ∧ (Counted len ↔ len < 2 ^ 31) := by
  refine ⟨⟨fun hall => ?_, fun hlen src old heap hL _ => ?_⟩, counted_iff hpos⟩
  · by_contra hge
    exact not_copies_of_le hin (Nat.le_of_not_lt hge)
      (hall _ _ _ List.length_replicate List.length_replicate)
  · exact copies_of_lt hpos (hL ▸ hin) hlen

/-- The longest segment that an `int` counts. -/
theorem long_segment_copied_iff_at :
    1 ≤ 2 ^ 31 - 1 ∧ 7 + (2 ^ 31 - 1) ≤ 2 ^ 31 + 6 ∧
      (∀ (src old : List UInt8) (heap : ℕ → UInt8), src.length = 2 ^ 31 + 6 → old.length = 0 →
        Copies src old 7 (2 ^ 31 - 1) heap) ∧ Counted (2 ^ 31 - 1) := by
  have hiff : ((∀ (src old : List UInt8) (heap : ℕ → UInt8), src.length = 2 ^ 31 + 6 →
      old.length = 0 → Copies src old 7 (2 ^ 31 - 1) heap) ↔ 2 ^ 31 - 1 < 2 ^ 31) ∧
      (Counted (2 ^ 31 - 1) ↔ 2 ^ 31 - 1 < 2 ^ 31) :=
    long_segment_copied_iff (by omega) (by omega)
  exact ⟨by omega, by omega, hiff.1.mpr (by omega), hiff.2.mpr (by omega)⟩

/-- **A segment of `2 ^ 31` bytes is not copied**: what was read is taken for a failure. -/
theorem segment_too_long :
    ¬Copies (List.replicate (2 ^ 31) (1 : UInt8)) [] 0 (2 ^ 31) (fun _ => 0) ∧
      fdReadRound (2 ^ 31) 0 (some (2 ^ 31)) = .value (-2 ^ 31) ∧
      fdReadRound (2 ^ 32) 0 (some (2 ^ 32)) = .value 0 ∧
      fdReadRound (2 ^ 32 + 1) 0 (some (2 ^ 32 + 1)) = .value 1 := by
  refine ⟨?_, by decide, by decide, by decide⟩
  exact not_copies_of_le (M := 0) le_rfl le_rfl

end MtCopy

end SystemProgramming
