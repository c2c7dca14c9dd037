import SystemProgramming.Copy.MtCopy
import SystemProgramming.Pieces

/-!
# The work division of `mt_copy`, in the types of the source

`do_mt_copy` computes for each thread where its segment starts and how long it is, and how many
bytes remain; `worker` copies the segment, and in the last thread the remainder behind it. The
numbers are `int`, `off_t` and `size_t`, converted into each other on the way.

For two to five threads and a file of any size that an `off_t` holds, nothing is lost in these
conversions and products: the records hold what `SystemProgramming.MtCopy.Worker.init` says in
natural numbers (`SystemProgramming.MtCopy.fill_eq_init`), and the calls of `__do_mt_copy` are for
the pieces of `SystemProgramming.Pieces`, which tile the file
(`SystemProgramming.MtCopy.work_division`).
-/

namespace SystemProgramming

open Pieces

namespace MtCopy

/-- `struct stToThread`, less the file descriptors. -/
structure StToThread where
  thrdnum : Int32
  thrdtotal : Int32
  startOffset : Int64
  len : UInt64
  rem : Int32
  deriving DecidableEq, Repr

/-- What `do_mt_copy` fills in for the thread `i`. -/
def StToThread.fill (numthrds : Int32) (fsize : Int64) (i : Int32) : StToThread :=
  { thrdnum := i
    thrdtotal := numthrds
    startOffset := i.toInt64 * (fsize / numthrds.toInt64)
    len := (fsize / numthrds.toInt64).toUInt64
    rem := (fsize % numthrds.toInt64).toInt32 }

/-- What `__do_mt_copy` is called for. -/
structure SegCall where
  startOffset : Int64
  len : UInt64
  deriving DecidableEq, Repr

/-- The calls that `worker` makes, in their order. The sum is one of unsigned numbers. -/
def StToThread.calls (k : StToThread) : List SegCall :=
  ⟨k.startOffset, k.len⟩ ::
    if k.rem ≠ 0 ∧ k.thrdnum = k.thrdtotal - 1 then
      [⟨(k.startOffset.toUInt64 + k.len).toInt64, k.rem.toInt64.toUInt64⟩]
    else []

/-- All the calls of the workers, thread by thread. -/
def division (numthrds : Int32) (fsize : Int64) : List SegCall :=
  (List.range numthrds.toInt.toNat).flatMap fun i =>
    (StToThread.fill numthrds fsize (Int32.ofNat i)).calls

/-- The byte at `p` is in the segment. -/
def SegCall.Covers (c : SegCall) (p : ℤ) : Prop :=
  c.startOffset.toInt ≤ p ∧ p < c.startOffset.toInt + c.len.toNat

/-- No byte is in both segments. -/
def SegCall.Disjoint (c c' : SegCall) : Prop := ∀ p, ¬(c.Covers p ∧ c'.Covers p)

theorem SegCall.ext_of_values {c c' : SegCall} (hoff : c.startOffset.toInt = c'.startOffset.toInt)
    (hlen : c.len.toNat = c'.len.toNat) : c = c' := by
  rcases c with ⟨off, len⟩
  rcases c' with ⟨off', len'⟩
  exact congrArg₂ SegCall.mk (Int64.toInt_inj.mp hoff) (UInt64.toNat_inj.mp hlen)

/-! ### The numbers in the records

The file has `L` bytes and there are `N` threads; `i` is the number of one of them. -/

section Division

variable {fsize : Int64} {numthrds i : Int32} {N L j : ℕ}

theorem toInt_quotient (hL : fsize.toInt = L) (hN : numthrds.toInt = N) :
    (fsize / numthrds.toInt64).toInt = (L / N : ℕ) := by
  have hne : numthrds.toInt64 ≠ -1 := by
    intro h
    have hval := congrArg Int64.toInt h
    rw [Int32.toInt_toInt64, hN] at hval
    change (N : ℤ) = -1 at hval
    omega
  rw [Int64.toInt_div_of_ne_right _ _ hne, Int32.toInt_toInt64, hL, hN, Int.ofNat_tdiv]

theorem toInt_remainder (hL : fsize.toInt = L) (hN : numthrds.toInt = N) :
    (fsize % numthrds.toInt64).toInt = (L % N : ℕ) := by
  rw [Int64.toInt_mod, Int32.toInt_toInt64, hL, hN, Int.ofNat_tmod]

/-- The start of a piece is an `off_t`. -/
theorem pieceOff_lt (hL : fsize.toInt = L) (hj : j ≤ N) : pieceOff N L j < 2 ^ 63 := by
  have hlt := fsize.toInt_lt
  have hle := piece_le_length (L := L) hj
  omega

theorem toInt_fill_startOffset (hL : fsize.toInt = L) (hN : numthrds.toInt = N)
    (hi : i.toInt = j) (hj : j ≤ N) :
    (StToThread.fill numthrds fsize i).startOffset.toInt = pieceOff N L j := by
  have hlt := pieceOff_lt hL hj
  change (i.toInt64 * (fsize / numthrds.toInt64)).toInt = _
  rw [Int64.toInt_mul, Int32.toInt_toInt64, hi, toInt_quotient hL hN, ← Int.natCast_mul]
  rcases bmod_cases (x := ((j * (L / N) : ℕ) : ℤ)) (by omega) (by unfold pieceOff at hlt; omega)
    with ⟨-, -, heq⟩ | ⟨hlarge, -⟩ | ⟨hsmall, -⟩
  · exact heq
  · unfold pieceOff at hlt
    omega
  · omega

theorem toNat_fill_len (hL : fsize.toInt = L) (hN : numthrds.toInt = N) :
    (StToThread.fill numthrds fsize i).len.toNat = L / N := by
  have hlt := fsize.toInt_lt
  have hle := Nat.div_le_self L N
  have hval := toNat_toUInt64 (fsize / numthrds.toInt64)
  rw [toInt_quotient hL hN, Int.emod_eq_of_lt (Int.natCast_nonneg _) (by omega)] at hval
  exact Int.natCast_inj.mp hval

/-- **The remainder fits the `int` it is stored in.** -/
theorem toInt_fill_rem (hL : fsize.toInt = L) (hN : numthrds.toInt = N) (hpos : 0 < N) :
    (StToThread.fill numthrds fsize i).rem.toInt = (L % N : ℕ) := by
  have hlt := numthrds.toInt_lt
  have hmod := Nat.mod_lt L hpos
  have hcast : ((2 ^ 32 : ℕ) : ℤ) = 4294967296 := rfl
  change ((fsize % numthrds.toInt64).toInt32).toInt = _
  rw [Int64.toInt_toInt32, toInt_remainder hL hN, Int.bmod_def, hcast]
  split_ifs <;> omega

/-- **Where a thread's segment ends**: the unsigned sum does not wrap either. -/
theorem toInt_fill_end (hL : fsize.toInt = L) (hN : numthrds.toInt = N) (hi : i.toInt = j)
    (hj : j < N) :
    ((StToThread.fill numthrds fsize i).startOffset.toUInt64 +
      (StToThread.fill numthrds fsize i).len).toInt64.toInt = pieceOff N L (j + 1) := by
  have hoff := toNat_toUInt64 (StToThread.fill numthrds fsize i).startOffset
  rw [toInt_fill_startOffset hL hN hi hj.le] at hoff
  have hlen : (StToThread.fill numthrds fsize i).len.toNat = pieceLen N L j := by
    rw [toNat_fill_len hL hN, pieceLen_of_lt hj]
  have hlt := pieceOff_lt hL (Nat.succ_le_of_lt hj)
  rw [Nat.succ_eq_add_one, pieceOff_succ hj] at hlt
  have hsum : ((StToThread.fill numthrds fsize i).startOffset.toUInt64 +
      (StToThread.fill numthrds fsize i).len).toNat = pieceOff N L (j + 1) := by
    rw [UInt64.toNat_add, hlen, pieceOff_succ hj]
    omega
  rw [toInt_toInt64_of_lt (by rw [hsum, pieceOff_succ hj]; exact hlt), hsum]

theorem toInt_numthrds_sub_one (hN : numthrds.toInt = N) (hpos : 0 < N) :
    (numthrds - 1).toInt = N - 1 := by
  have hlt := numthrds.toInt_lt
  have hcast : ((2 ^ 32 : ℕ) : ℤ) = 4294967296 := rfl
  have hone : (1 : Int32).toInt = 1 := rfl
  rw [Int32.toInt_sub, hN, hone, Int.bmod_def, hcast]
  split_ifs <;> omega

/-- **The records are those of the worker threads.** What `do_mt_copy` fills in with its machine
numbers is what the workers of `SystemProgramming.MtCopy.mainStep` start with. -/
theorem fill_eq_init {α : Type*} (heap : ℕ → ℕ → ℕ → α) (hL : fsize.toInt = L)
    (hN : numthrds.toInt = N) (hi : i.toInt = j) (hj : j < N) :
    let k := StToThread.fill numthrds fsize i
    let w := Worker.init N L j heap
    k.thrdnum.toInt = w.thrdnum ∧ k.thrdtotal.toInt = w.thrdtotal ∧
      k.startOffset.toInt = w.startOffset ∧ k.len.toNat = w.len ∧ k.rem.toInt = w.rem :=
  ⟨hi, hN, toInt_fill_startOffset hL hN hi hj.le, toNat_fill_len hL hN,
    toInt_fill_rem hL hN (Nat.zero_lt_of_lt hj)⟩

/-! ### The calls, as pieces of the file -/

/-- The call for the piece `j`. -/
def pieceCall (N L j : ℕ) : SegCall :=
  ⟨Int64.ofNat (pieceOff N L j), UInt64.ofNat (pieceLen N L j)⟩

theorem toInt_pieceCall (hL : fsize.toInt = L) (hj : j ≤ N) :
    (pieceCall N L j).startOffset.toInt = pieceOff N L j :=
  Int64.toInt_ofNat_of_lt (pieceOff_lt hL hj)

theorem toNat_pieceCall (hL : fsize.toInt = L) (hj : j ≤ N) :
    (pieceCall N L j).len.toNat = pieceLen N L j := by
  have hlt := fsize.toInt_lt
  have hle := piece_le_length (L := L) hj
  have hsize : UInt64.size = 18446744073709551616 := rfl
  exact UInt64.toNat_ofNat_of_lt' (by omega)

theorem covers_pieceCall (hL : fsize.toInt = L) (hj : j ≤ N) (p : ℤ) :
    (pieceCall N L j).Covers p ↔ 0 ≤ p ∧ InPiece N L j p.toNat := by
  rw [SegCall.Covers, toInt_pieceCall hL hj, toNat_pieceCall hL hj, InPiece]
  omega

/-- **Which thread copies the remainder**: the last one, if there is a remainder. -/
theorem last_and_rem_iff (hL : fsize.toInt = L) (hN : numthrds.toInt = N) (hi : i.toInt = j)
    (hj : j < N) :
    ((StToThread.fill numthrds fsize i).rem ≠ 0 ∧ (StToThread.fill numthrds fsize i).thrdnum =
      (StToThread.fill numthrds fsize i).thrdtotal - 1) ↔ L % N ≠ 0 ∧ j + 1 = N := by
  have hzero : (0 : Int32).toInt = 0 := rfl
  have hrem := toInt_fill_rem (i := i) hL hN (Nat.zero_lt_of_lt hj)
  have hlast := toInt_numthrds_sub_one hN (Nat.zero_lt_of_lt hj)
  change ((StToThread.fill numthrds fsize i).rem ≠ 0 ∧ i = numthrds - 1) ↔ _
  rw [ne_eq, ← Int32.toInt_inj, ← Int32.toInt_inj, hrem, hi, hlast, hzero]
  omega

/-- **A thread's calls**: its own piece, and in the last thread the piece behind all of them,
unless that is empty. -/
theorem calls_fill (hL : fsize.toInt = L) (hN : numthrds.toInt = N) (hi : i.toInt = j)
    (hj : j < N) :
    (StToThread.fill numthrds fsize i).calls =
      pieceCall N L j :: if L % N ≠ 0 ∧ j + 1 = N then [pieceCall N L N] else [] := by
  have hown : (⟨(StToThread.fill numthrds fsize i).startOffset,
      (StToThread.fill numthrds fsize i).len⟩ : SegCall) = pieceCall N L j := by
    refine SegCall.ext_of_values ?_ ?_
    · rw [toInt_pieceCall hL hj.le, toInt_fill_startOffset hL hN hi hj.le]
    · rw [toNat_pieceCall hL hj.le, pieceLen_of_lt hj, toNat_fill_len hL hN]
  have hlast := last_and_rem_iff hL hN hi hj
  rw [StToThread.calls, hown]
  refine congrArg _ ?_
  rcases Decidable.em (L % N ≠ 0 ∧ j + 1 = N) with h | h
  · rw [if_pos h, if_pos (hlast.mpr h)]
    refine congrArg (fun c => [c]) (SegCall.ext_of_values ?_ ?_)
    · rw [toInt_pieceCall hL le_rfl, toInt_fill_end hL hN hi hj, h.2]
    · have hval := toNat_toUInt64 (StToThread.fill numthrds fsize i).rem.toInt64
      have hlt := numthrds.toInt_lt
      have hmod := Nat.mod_lt L (Nat.zero_lt_of_lt hj)
      rw [Int32.toInt_toInt64, toInt_fill_rem hL hN (Nat.zero_lt_of_lt hj),
        Int.emod_eq_of_lt (Int.natCast_nonneg _) (by omega)] at hval
      rw [toNat_pieceCall hL le_rfl, pieceLen_self]
      exact Int.natCast_inj.mp hval
  · rw [if_neg h, if_neg (mt hlast.mp h)]

/-- **All the calls**: the pieces in their order. -/
theorem division_eq (hL : fsize.toInt = L) (hN : numthrds.toInt = N) (hpos : 0 < N) :
    division numthrds fsize =
      (List.range (if L % N ≠ 0 then N + 1 else N)).map (pieceCall N L) := by
  have hlt := numthrds.toInt_lt
  have hcalls : ∀ j < N, (StToThread.fill numthrds fsize (Int32.ofNat j)).calls =
      pieceCall N L j :: if L % N ≠ 0 ∧ j + 1 = N then [pieceCall N L N] else [] := fun j hj =>
    calls_fill hL hN (Int32.toInt_ofNat_of_lt (by omega)) hj
  -- no thread before the last one makes a second call
  have hbefore : ∀ n < N, (List.range n).flatMap (fun j =>
      (StToThread.fill numthrds fsize (Int32.ofNat j)).calls) =
      (List.range n).map (pieceCall N L) := by
    intro n
    induction n with
    | zero => exact fun _ => rfl
    | succ n ih =>
      intro hn
      rw [List.range_succ, List.flatMap_append, List.map_append, ih (Nat.lt_of_succ_lt hn),
        List.flatMap_singleton, hcalls n (Nat.lt_of_succ_lt hn), if_neg (by omega)]
      rfl
  obtain ⟨M, rfl⟩ := Nat.exists_eq_succ_of_ne_zero hpos.ne'
  have hnum : numthrds.toInt.toNat = M + 1 := by omega
  rw [division, hnum, List.range_succ, List.flatMap_append, hbefore M (Nat.lt_succ_self M),
    List.flatMap_singleton, hcalls M (Nat.lt_succ_self M)]
  rcases Decidable.em (L % (M + 1) ≠ 0) with h | h
  · rw [if_pos ⟨h, rfl⟩, if_pos h, List.range_succ, List.range_succ, List.map_append,
      List.map_append, List.append_assoc]
    rfl
  · rw [if_neg (fun hboth => h hboth.1), if_neg h, List.range_succ, List.map_append]
    rfl

/-- The pieces that are called for are among those of the length. -/
theorem lt_of_mem_range (h : j ∈ List.range (if L % N ≠ 0 then N + 1 else N)) : j ≤ N := by
  have hlt := List.mem_range.mp h
  split_ifs at hlt <;> omega

theorem pairwise_division (hL : fsize.toInt = L) (hN : numthrds.toInt = N) (hpos : 0 < N) :
    (division numthrds fsize).Pairwise SegCall.Disjoint := by
  rw [division_eq hL hN hpos, List.pairwise_map]
  refine List.Pairwise.imp_of_mem ?_ List.pairwise_lt_range
  rintro a b ha hb hlt p ⟨hcov, hcov'⟩
  have hle := lt_of_mem_range ha
  have hle' := lt_of_mem_range hb
  rw [covers_pieceCall hL hle] at hcov
  rw [covers_pieceCall hL hle'] at hcov'
  exact hlt.ne (hcov.2.unique hle hle' hcov'.2)

theorem exists_covers_division (hL : fsize.toInt = L) (hN : numthrds.toInt = N) (hpos : 0 < N)
    (p : ℤ) : (∃ c ∈ division numthrds fsize, c.Covers p) ↔ 0 ≤ p ∧ p < L := by
  rw [division_eq hL hN hpos]
  constructor
  · rintro ⟨c, hc, hcov⟩
    obtain ⟨j, hj, rfl⟩ := List.mem_map.mp hc
    obtain ⟨hnonneg, -, hend⟩ := (covers_pieceCall hL (lt_of_mem_range hj) p).mp hcov
    have hle := piece_le_length (L := L) (lt_of_mem_range hj)
    omega
  · rintro ⟨hnonneg, hlt⟩
    obtain ⟨j, hj, hin⟩ := exists_inPiece (N := N) (show p.toNat < L by omega)
    refine ⟨pieceCall N L j, List.mem_map.mpr ⟨j, List.mem_range.mpr ?_, rfl⟩,
      (covers_pieceCall hL hj p).mpr ⟨hnonneg, hin⟩⟩
    -- an empty remainder contains nothing
    split_ifs with h
    · exact Nat.lt_succ_of_le hj
    · refine lt_of_le_of_ne hj ?_
      rintro rfl
      have hend := hin.2
      rw [pieceLen_self, Decidable.not_not.mp h] at hend
      exact absurd hin.1 (by omega)

end Division

/-- **The work division of `mt_copy`.** For every number of threads and every size that an `off_t`
holds, the offsets, lengths and the remainder in the records are the exact values – no product,
sum or conversion loses anything – and only the last thread makes a second call. The segments
called for do not overlap, and together they are the file. -/
theorem work_division (numthrds : Int32) (fsize : Int64) (hpos : 0 < numthrds.toInt)
    (hsize : 0 ≤ fsize.toInt) :
    (∀ i : Int32, 0 ≤ i.toInt → i.toInt < numthrds.toInt →
      let k := StToThread.fill numthrds fsize i
      let q := fsize.toInt / numthrds.toInt
      k.startOffset.toInt = i.toInt * q ∧ k.len.toNat = q ∧
        (k.startOffset.toUInt64 + k.len).toInt64.toInt = i.toInt * q + q ∧
        k.rem.toInt = fsize.toInt % numthrds.toInt ∧
        k.calls.length =
          if fsize.toInt % numthrds.toInt ≠ 0 ∧ i.toInt + 1 = numthrds.toInt then 2 else 1) ∧
      (division numthrds fsize).Pairwise SegCall.Disjoint ∧
      ∀ p : ℤ, (∃ c ∈ division numthrds fsize, c.Covers p) ↔ 0 ≤ p ∧ p < fsize.toInt := by
  obtain ⟨N, hN⟩ := Int.eq_ofNat_of_zero_le hpos.le
  obtain ⟨L, hL⟩ := Int.eq_ofNat_of_zero_le hsize
  have hposN : 0 < N := by omega
  refine ⟨?_, pairwise_division hL hN hposN, fun p => hL ▸ exists_covers_division hL hN hposN p⟩
  intro i hnonneg hlt
  obtain ⟨j, hi⟩ := Int.eq_ofNat_of_zero_le hnonneg
  have hj : j < N := by omega
  have hquot : fsize.toInt / numthrds.toInt = (L / N : ℕ) := by rw [hL, hN, Int.natCast_ediv]
  have hmod : fsize.toInt % numthrds.toInt = (L % N : ℕ) := by rw [hL, hN, Int.natCast_emod]
  obtain ⟨-, -, hoff, hlen, hrem⟩ := fill_eq_init (fun _ _ _ => ()) hL hN hi hj
  change (StToThread.fill numthrds fsize i).startOffset.toInt = (j * (L / N) : ℕ) at hoff
  change (StToThread.fill numthrds fsize i).len.toNat = L / N at hlen
  refine ⟨?_, ?_, ?_, hrem.trans hmod.symm, ?_⟩
  · rw [hoff, hquot, hi, Int.natCast_mul]
  · rw [hlen, hquot]
  · rw [toInt_fill_end hL hN hi hj, pieceOff, Nat.succ_mul, hquot, hi, Int.natCast_add,
      Int.natCast_mul]
  · rw [calls_fill hL hN hi hj, List.length_cons, hmod, hi, hN]
    split_ifs with h h' h' <;> first | rfl | omega

/-- The example of the source: 14 bytes and three threads. -/
theorem work_division_fourteen :
    0 < (3 : Int32).toInt ∧ (division 3 14).Pairwise SegCall.Disjoint ∧
      (division 3 14).map (fun c => (c.startOffset.toInt, c.len.toNat)) =
        [(0, 4), (4, 4), (8, 4), (12, 2)] :=
  ⟨by decide, (work_division 3 14 (by decide) (by decide)).2.1, by decide +kernel⟩

end MtCopy

end SystemProgramming
