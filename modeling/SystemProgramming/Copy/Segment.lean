import SystemProgramming.Copy.MtCopy
import SystemProgramming.Labels

/-!
# Short counts in `mt_copy`

A segment of `mt_copy` is copied by `__do_mt_copy`, through the same two loops as
in `simpcp2` but over `pread` and `pwrite`. Their calls name the offset, so a
repeated call does not even continue where the last one stopped: it reads, or
writes, the front of the segment again.

For a segment that lies inside the source and is shorter than `2 ^ 31` bytes this
is settled by two of the answers
(`SystemProgramming.MtCopy.segment_copied_iff`):

* the **first** `pread` must be full – after a short one, the counts can add up
  to the length of the segment only while its end is still unread, and otherwise
  a count larger than the buffer is handed to `fd_write`;
* the **last** `pwrite` must be full – the short ones before it do no harm, since
  the last one writes the whole segment once more, but a loop that ends on a
  short one has never written the segment's end.

What goes wrong is followed at the last byte of the segment
(`SystemProgramming.MtCopy.Spoilt`), on labelled contents.
-/

namespace SystemProgramming

open Bytes Runs Wrappers

namespace MtCopy

variable {α : Type*} [Zero α]

/-- `__do_mt_copy` on its own, with the destination it writes to. -/
def segRun (src : List α) (p : Seg α × Dest α) (a : Answer) : Option (Seg α × Dest α) :=
  segStep src p.1 p.2 a

/-- `__do_mt_copy` is called for a segment, with `old` in the destination. -/
def segStart (off len : ℕ) (old : List α) (heap : ℕ → α) : Seg α × Dest α :=
  (Seg.call off len heap, ⟨old, []⟩)

/-- **The segment is copied**: the destination holds the source's bytes in it, the
old bytes outside, and is no longer than either makes it. -/
structure SegCopied (src old : List α) (off len : ℕ) (file : List α) : Prop where
  inside : ∀ i, off ≤ i → i < off + len → file[i]? = src[i]?
  outside : ∀ i, i < old.length → i < off ∨ off + len ≤ i → file[i]? = old[i]?
  length_le : file.length ≤ max old.length (off + len)

/-! ### Nothing outside the segment is written -/

/-- The destination agrees with the old one outside the segment. -/
structure Framed (old : List α) (off len : ℕ) (file : List α) : Prop where
  outside : ∀ i, i < old.length → i < off ∨ off + len ≤ i → file[i]? = old[i]?
  le_length : old.length ≤ file.length
  length_le : file.length ≤ max old.length (off + len)

variable {src old : List α} {off len : ℕ} {a : Answer}

omit [Zero α] in
theorem framed_self (old : List α) (off len : ℕ) : Framed old off len old :=
  ⟨fun _ _ _ => rfl, le_rfl, le_max_left _ _⟩

/-- Writing no more than the segment, at its offset, changes nothing outside. -/
theorem Framed.overwrite {file : List α} (h : Framed old off len file) {d : List α}
    (hd : d.length ≤ len) : Framed old off len (overwrite file off d) := by
  refine ⟨fun i hi hout => ?_, h.le_length.trans length_le_length_overwrite, ?_⟩
  · rw [getElem?_overwrite_of_lt (hout.imp_right fun ho => by omega)
      (lt_of_lt_of_le hi h.le_length)]
    exact h.outside i hi hout
  · rcases eq_or_ne d [] with rfl | hne
    · simpa [Bytes.overwrite] using h.length_le
    · rw [length_overwrite hne]
      have := h.length_le
      omega

/-- Writing the whole segment copies it. -/
theorem Framed.copied {file : List α} (h : Framed old off len file) {d : List α}
    (hd : d = (src.drop off).take len) (hlen : d.length = len) :
    SegCopied src old off len (Bytes.overwrite file off d) := by
  have hframe := h.overwrite (d := d) hlen.le
  refine ⟨fun i h1 h2 => ?_, hframe.outside, hframe.length_le⟩
  rw [getElem?_overwrite_of_mem h1 (by omega), hd, List.getElem?_take, if_pos (by omega),
    List.getElem?_drop]
  congr 1
  omega

/-! ### A first read that is full -/

/-- The states of `__do_mt_copy` once its first read was full: it is writing the
segment from a buffer that holds it, or it has returned. -/
def Loaded (src old : List α) (off len : ℕ) (p : Seg α × Dest α) : Prop :=
  p.1.startOffset = off ∧ (∀ c ∈ p.1.handed, c ≤ len) ∧ Framed old off len p.2.file ∧
    match p.1.pc with
    | .write nr tw => nr = len ∧ tw < len ∧ slice p.1.buf len = (src.drop off).take len
    | .ret _ => True
    | _ => False

theorem Loaded.step {p q : Seg α × Dest α} (h : Loaded src old off len p)
    (hstep : segRun src p a = some q) : Loaded src old off len q := by
  obtain ⟨g, w⟩ := p
  obtain ⟨hoff, hhand, hframe, hpoint⟩ := h
  rw [segRun, segStep] at hstep
  cases hpc : g.pc with
  | malloc => simp [hpc] at hpoint
  | read tr => simp [hpc] at hpoint
  | write nr tw =>
    simp only [hpc] at hstep hpoint
    obtain ⟨rfl, htw, hbuf⟩ := hpoint
    obtain ⟨g', w'⟩ := q
    rcases fdWrite_cases hstep with ⟨-, rfl, rfl⟩ | ⟨wr, hwr, rfl, hcase⟩
    · exact ⟨hoff, hhand, hframe, trivial⟩
    have hframe' : Framed old off nr (w.pwrite g.startOffset (slice g.buf wr)).file := by
      change Framed old off nr (Bytes.overwrite w.file g.startOffset (slice g.buf wr))
      rw [show g.startOffset = off from hoff]
      exact hframe.overwrite (by rw [length_slice]; exact (Answer.transfer_le hwr).1)
    rcases hcase with ⟨hlt, rfl⟩ | ⟨-, rfl⟩
    · exact ⟨hoff, hhand, hframe', rfl, hlt, hbuf⟩
    · rcases Seg.gotWrite_cases (toInt (tw + wr)) g with ⟨-, heq⟩ | ⟨-, heq⟩ <;> rw [heq] <;>
        exact ⟨hoff, hhand, hframe', trivial⟩
  | ret v =>
    simp only [hpc] at hstep
    exact absurd hstep (by simp)

/-- A full write from a loaded buffer copies the segment. -/
theorem Loaded.copied {p q : Seg α × Dest α} (h : Loaded src old off len p)
    (hsrc : off + len ≤ src.length) (hstep : segRun src p .full = some q) :
    SegCopied src old off len q.2.file := by
  obtain ⟨g, w⟩ := p
  obtain ⟨hoff, -, hframe, hpoint⟩ := h
  rw [segRun, segStep] at hstep
  cases hpc : g.pc with
  | malloc => simp [hpc] at hpoint
  | read tr => simp [hpc] at hpoint
  | write nr tw =>
    simp only [hpc] at hstep hpoint
    obtain ⟨rfl, htw, hbuf⟩ := hpoint
    obtain ⟨g', w'⟩ := q
    rcases fdWrite_cases hstep with ⟨ha, -, -⟩ | ⟨wr, hwr, rfl, -⟩
    · exact absurd ha (by simp)
    obtain rfl : nr = wr := by simpa [Answer.transfer] using hwr
    change SegCopied src old off nr (Bytes.overwrite w.file g.startOffset (slice g.buf nr))
    rw [show g.startOffset = off from hoff]
    exact hframe.copied hbuf (length_slice _ _)
  | ret v =>
    simp only [hpc] at hstep
    exact absurd hstep (by simp)

/-! ### The first two calls -/

/-- `__do_mt_copy` about to make its first read. -/
def segReading (off len : ℕ) (old : List α) (heap : ℕ → α) : Seg α × Dest α :=
  ({ Seg.call off len heap with pc := .read 0 }, ⟨old, []⟩)

/-- A call that returns 0 has allocated its buffer and read. -/
theorem exists_first_read {heap : ℕ → α} {as : List Answer} {q : Seg α × Dest α}
    (h : run (segRun src) (segStart off len old heap) as = some q) (hret : q.1.pc = .ret 0) :
    ∃ a rest u, as = .ok :: a :: rest ∧ segRun src (segReading off len old heap) a = some u ∧
      run (segRun src) u rest = some q := by
  cases as with
  | nil =>
    obtain rfl : segStart off len old heap = q := by simpa using h
    cases hret
  | cons a₀ as =>
    obtain ⟨p, hp, hrest⟩ := run_cons_eq_some.mp h
    obtain ⟨g, hg, rfl⟩ := Option.map_eq_some_iff.mp hp
    rcases mallocBuf_cases hg with ⟨rfl, rfl⟩ | ⟨rfl, rfl⟩
    · cases as with
      | nil =>
        obtain rfl := Option.some.inj hrest
        cases hret
      | cons a as =>
        obtain ⟨u, hu, hrest'⟩ := run_cons_eq_some.mp hrest
        exact ⟨a, as, u, rfl, hu, hrest'⟩
    · cases as with
      | nil =>
        obtain rfl := Option.some.inj hrest
        cases hret
      | cons a as =>
        obtain ⟨u, hu, -⟩ := run_cons_eq_some.mp hrest
        cases hu

/-- **A first read that is full** loads the buffer with the segment, or finds it
empty. -/
theorem loaded_of_full {heap : ℕ → α} {u : Seg α × Dest α} (hsrc : off + len ≤ src.length)
    (hlen : len < 2 ^ 31) (h : segRun src (segReading off len old heap) .full = some u) :
    Loaded src old off len u ∧ u.2.file = old ∧
      (u.1.pc = .write len 0 ∧ 0 < len ∨ u.1.pc = .ret 0 ∧ len = 0) := by
  have h' : (fdRead src 0 { Seg.call off len heap with pc := .read 0 } .full).map
      (fun g => (g, (⟨old, []⟩ : Dest α))) = some u := h
  obtain ⟨g, hg, rfl⟩ := Option.map_eq_some_iff.mp h'
  rcases fdRead_cases hg with ⟨ha, -⟩ | ⟨rd, hrd, hcase⟩
  · exact absurd ha (by simp)
  change some (some (min len (src.length - off))) = some (some rd) at hrd
  obtain rfl : len = rd := by
    have hrd' : min len (src.length - off) = rd := Option.some.inj (Option.some.inj hrd)
    omega
  -- the read came back with nothing, or with too little, or with the segment
  rcases hcase with ⟨hzero, rfl⟩ | ⟨hpos, hlt, -⟩ | ⟨hpos, -, rfl⟩
  · exact ⟨⟨rfl, by simp [Seg.gotRead, toInt, Seg.call], framed_self _ _ _, trivial⟩, rfl,
      Or.inr ⟨rfl, hzero⟩⟩
  · change 0 + len < len at hlt
    omega
  · have hcast : toInt (0 + len) = len := by
      rw [Nat.zero_add]
      exact toInt_of_lt hlen
    rw [hcast]
    rcases Seg.gotRead_cases len ((Seg.mk off len (.read 0) heap []).readBytes src len) with
      ⟨hneg, -⟩ | ⟨hzero, -⟩ | ⟨-, heq⟩
    · omega
    · omega
    have hload : slice (blit heap ((src.drop off).take len)) len = (src.drop off).take len := by
      rw [slice_blit _ (by rw [List.length_take, List.length_drop]; omega), List.take_take,
        Nat.min_self]
    refine ⟨?_, rfl, Or.inl ⟨congrArg Seg.pc heq, hpos⟩⟩
    change Loaded src old off len
      (Seg.gotRead len ((Seg.mk off len (.read 0) heap []).readBytes src len), ⟨old, []⟩)
    rw [heq]
    exact ⟨rfl, by simp [Seg.readBytes], framed_self _ _ _, rfl, hpos, hload⟩

/-- **When the first read and the last write are full, the segment is copied.** -/
theorem copied_of_full {heap : ℕ → α} {as : List Answer} {q : Seg α × Dest α}
    (hsrc : off + len ≤ src.length) (hlen : len < 2 ^ 31)
    (h : run (segRun src) (segStart off len old heap) as = some q) (hret : q.1.pc = .ret 0)
    (hfirst : as[1]? = some .full) (hlast : as.getLast? = some .full) :
    SegCopied src old off len q.2.file ∧ ∀ c ∈ q.1.handed, c ≤ len := by
  obtain ⟨a, rest, u, rfl, hu, hrest⟩ := exists_first_read h hret
  obtain rfl : a = .full := by simpa using hfirst
  obtain ⟨hload, hfile, hpoint⟩ := loaded_of_full hsrc hlen hu
  rcases List.eq_nil_or_concat rest with rfl | ⟨init, b, rfl⟩
  · obtain rfl : u = q := by simpa using hrest
    rcases hpoint with ⟨hpc, -⟩ | ⟨-, rfl⟩
    · rw [hpc] at hret
      cases hret
    · refine ⟨⟨fun i h1 h2 => absurd h2 (by omega), fun i _ _ => ?_, ?_⟩, hload.2.1⟩
      · rw [hfile]
      · rw [hfile]
        exact le_max_left _ _
  · rw [List.concat_eq_append, ← List.cons_append, ← List.cons_append, List.getLast?_concat]
      at hlast
    obtain rfl : b = .full := by simpa using hlast
    rw [List.concat_eq_append, run_append, Option.bind_eq_some_iff] at hrest
    obtain ⟨v, hv, hb⟩ := hrest
    obtain ⟨w, hw, hnil⟩ := run_cons_eq_some.mp hb
    obtain rfl : w = q := by simpa using hnil
    have hloadv : Loaded src old off len v :=
      run_invariant (fun _ _ _ hp hst => hp.step hst) hload hv
    exact ⟨hloadv.copied hsrc hw, (hloadv.step hw).2.1⟩

/-! ### A first read that is short -/

/-- **The end of the segment is spoilt**: a count beyond the buffer was handed to
`fd_write`, or the segment's last byte is not in the destination and not in the
buffer either. -/
def Spoilt (src : List α) (off len : ℕ) (p : Seg α × Dest α) : Prop :=
  p.1.startOffset = off ∧ p.1.len = len ∧ ((∃ c ∈ p.1.handed, len < c) ∨
    p.2.file[off + len - 1]? ≠ src[off + len - 1]? ∧ match p.1.pc with
      | .read tr => 0 < tr ∧ tr < len ∧ some (p.1.buf (len - 1)) ≠ src[off + len - 1]?
      | .write nr tw => tw < nr ∧ nr ≤ len ∧ some (p.1.buf (len - 1)) ≠ src[off + len - 1]?
      | .ret _ => True
      | .malloc => False)

theorem Spoilt.step {p q : Seg α × Dest α} (hsrc : off + len ≤ src.length)
    (hlen : len < 2 ^ 31) (h : Spoilt src off len p) (hstep : segRun src p a = some q) :
    Spoilt src off len q := by
  obtain ⟨g, w⟩ := p
  obtain ⟨g', w'⟩ := q
  obtain ⟨hoff, hglen, hbad⟩ := h
  change g.startOffset = off at hoff
  change g.len = len at hglen
  rw [segRun, segStep] at hstep
  cases hpc : g.pc with
  | malloc =>
    simp only [hpc] at hstep hbad
    obtain ⟨g₁, hg₁, heq⟩ := Option.map_eq_some_iff.mp hstep
    obtain ⟨rfl, rfl⟩ := Prod.mk.inj heq
    have hhand : ∃ c ∈ g.handed, len < c := hbad.resolve_right fun hf => hf.2
    rcases mallocBuf_cases hg₁ with ⟨-, rfl⟩ | ⟨-, rfl⟩ <;> exact ⟨hoff, hglen, Or.inl hhand⟩
  | read tr =>
    simp only [hpc] at hstep hbad
    obtain ⟨g₁, hg₁, heq⟩ := Option.map_eq_some_iff.mp hstep
    obtain ⟨rfl, rfl⟩ := Prod.mk.inj heq
    rcases fdRead_cases hg₁ with ⟨-, rfl⟩ | ⟨rd, hrd, hcase⟩
    · exact ⟨hoff, hglen, hbad.imp_right fun h' => ⟨h'.1, trivial⟩⟩
    obtain ⟨hrdle, hrdpos⟩ := Answer.transfer_le hrd
    rw [hglen, hoff] at hrdle hrdpos
    rcases hcase with ⟨rfl, rfl⟩ | ⟨hpos, hlt, rfl⟩ | ⟨hpos, hge, rfl⟩
    · rcases hbad with hhand | ⟨hne, htr, htrlt, hbuf⟩
      · rcases Seg.gotRead_cases (toInt tr) g with ⟨-, heq⟩ | ⟨-, heq⟩ | ⟨-, heq⟩ <;> rw [heq]
        · exact ⟨hoff, hglen, Or.inl hhand⟩
        · exact ⟨hoff, hglen, Or.inl hhand⟩
        · obtain ⟨c, hc, hlt⟩ := hhand
          exact ⟨hoff, hglen, Or.inl ⟨c, List.mem_append_left _ hc, hlt⟩⟩
      · omega
    · -- another read is asked for: this one was too short to reach the last byte
      refine ⟨hoff, hglen, hbad.imp_right fun h' => ⟨h'.1, by omega, by omega, ?_⟩⟩
      change some (blit g.buf _ (len - 1)) ≠ _
      rw [blit_of_le _ (by rw [List.length_take]; omega)]
      exact h'.2.2.2
    · -- the count has reached the length: exactly, and then the end was not read, or beyond
      rw [hglen] at hge
      rcases Seg.gotRead_cases (toInt (tr + rd)) (g.readBytes src rd) with
        ⟨-, heq⟩ | ⟨-, heq⟩ | ⟨hnr, heq⟩ <;> rw [heq]
      · exact ⟨hoff, hglen, hbad.imp_right fun h' => ⟨h'.1, trivial⟩⟩
      · exact ⟨hoff, hglen, hbad.imp_right fun h' => ⟨h'.1, trivial⟩⟩
      · rcases hbad with ⟨c, hc, hlt⟩ | ⟨hne, htr, htrlt, hbuf⟩
        · exact ⟨hoff, hglen, Or.inl ⟨c, List.mem_append_left _ hc, hlt⟩⟩
        have hcast : toInt (tr + rd) = (tr + rd : ℕ) :=
          toInt_eq_of_nonneg (by omega) hnr.le
        have hnat : (toInt (tr + rd)).toNat = tr + rd := by omega
        rw [hnat]
        rcases Nat.eq_or_lt_of_le hge with hex | hbeyond
        · refine ⟨hoff, hglen, Or.inr ⟨hne, by omega, by omega, ?_⟩⟩
          change some (blit g.buf _ (len - 1)) ≠ _
          rw [blit_of_le _ (by rw [List.length_take]; omega)]
          exact hbuf
        · exact ⟨hoff, hglen, Or.inl ⟨tr + rd, List.mem_append_right _ (by simp), hbeyond⟩⟩
  | write nr tw =>
    simp only [hpc] at hstep hbad
    rcases fdWrite_cases hstep with ⟨-, rfl, rfl⟩ | ⟨wr, hwr, rfl, hcase⟩
    · exact ⟨hoff, hglen, hbad.imp_right fun h' => ⟨h'.1, trivial⟩⟩
    have hwrle := (Answer.transfer_le hwr).1
    -- a write that reaches the last byte writes the wrong one there
    have hfile : w.file[off + len - 1]? ≠ src[off + len - 1]? → tw < nr → nr ≤ len →
        some (g.buf (len - 1)) ≠ src[off + len - 1]? →
        (w.pwrite g.startOffset (slice g.buf wr)).file[off + len - 1]? ≠
          src[off + len - 1]? := by
      intro hne htw hnr hbuf
      change (Bytes.overwrite w.file g.startOffset _)[off + len - 1]? ≠ _
      rw [hoff]
      rcases Nat.lt_or_ge wr len with hlt | hge
      · rw [getElem?_overwrite_of_ge (by rw [length_slice]; omega)]
        exact hne
      · rw [getElem?_overwrite_of_mem (by omega) (by rw [length_slice]; omega), getElem?_slice,
          if_pos (by omega), show off + len - 1 - off = len - 1 from by omega]
        exact hbuf
    rcases hcase with ⟨hlt, rfl⟩ | ⟨-, rfl⟩
    · exact ⟨hoff, hglen, hbad.imp_right fun h' =>
        ⟨hfile h'.1 h'.2.1 h'.2.2.1 h'.2.2.2, hlt, h'.2.2.1, h'.2.2.2⟩⟩
    · rcases Seg.gotWrite_cases (toInt (tw + wr)) g with ⟨-, heq⟩ | ⟨-, heq⟩ <;> rw [heq] <;>
        exact ⟨hoff, hglen, hbad.imp_right fun h' =>
          ⟨hfile h'.1 h'.2.1 h'.2.2.1 h'.2.2.2, trivial⟩⟩
  | ret v =>
    simp only [hpc] at hstep
    exact absurd hstep (by simp)

/-- **A first read that is short** spoils the segment's end. -/
theorem spoilt_of_short {heap : ℕ → α} {k : ℕ} {u : Seg α × Dest α}
    (hold : old[off + len - 1]? ≠ src[off + len - 1]?)
    (hheap : some (heap (len - 1)) ≠ src[off + len - 1]?)
    (h : segRun src (segReading off len old heap) (.short k) = some u) :
    Spoilt src off len u := by
  have h' : (fdRead src 0 { Seg.call off len heap with pc := .read 0 } (.short k)).map
      (fun g => (g, (⟨old, []⟩ : Dest α))) = some u := h
  obtain ⟨g, hg, rfl⟩ := Option.map_eq_some_iff.mp h'
  rcases fdRead_cases hg with ⟨ha, -⟩ | ⟨rd, hrd, hcase⟩
  · exact absurd ha (by simp)
  rcases Answer.transfer_cases hrd with ⟨ha, -⟩ | ⟨j, -, hpos, hlt, hr⟩ | ⟨ha, -⟩
  · exact absurd ha (by simp)
  · obtain rfl : rd = j := Option.some.inj hr
    change rd < min len (src.length - off) at hlt
    rcases hcase with ⟨rfl, -⟩ | ⟨-, -, rfl⟩ | ⟨-, hge, -⟩
    · omega
    · refine ⟨rfl, rfl, Or.inr ⟨hold, by omega, by omega, ?_⟩⟩
      change some (blit heap _ (len - 1)) ≠ _
      rw [blit_of_le _ (by rw [List.length_take]; omega)]
      exact hheap
    · change len ≤ 0 + rd at hge
      omega
  · exact absurd ha (by simp)

/-! ### A last write that is short -/

/-- The segment's last byte has not been written, and the loop that writes the
segment is still running. -/
def Unwritten (src : List α) (off len : ℕ) (p : Seg α × Dest α) : Prop :=
  p.1.startOffset = off ∧ match p.1.pc with
    | .write nr _ => nr = len ∧ 0 < len ∧ p.2.file[off + len - 1]? ≠ src[off + len - 1]?
    | .ret _ => True
    | _ => False

/-- **A write that is not full leaves the segment's last byte alone.** -/
theorem Unwritten.of_not_full {p q : Seg α × Dest α} (h : Unwritten src off len p)
    (ha : a ≠ .full) (hstep : segRun src p a = some q) :
    q.2.file[off + len - 1]? ≠ src[off + len - 1]? := by
  obtain ⟨g, w⟩ := p
  obtain ⟨g', w'⟩ := q
  obtain ⟨hoff, hpoint⟩ := h
  change g.startOffset = off at hoff
  rw [segRun, segStep] at hstep
  cases hpc : g.pc with
  | malloc => simp [hpc] at hpoint
  | read tr => simp [hpc] at hpoint
  | write nr tw =>
    simp only [hpc] at hstep hpoint
    obtain ⟨rfl, hlen, hne⟩ := hpoint
    rcases fdWrite_cases hstep with ⟨-, -, rfl⟩ | ⟨wr, hwr, rfl, -⟩
    · exact hne
    rcases Answer.transfer_cases hwr with ⟨ha', -⟩ | ⟨k, -, -, hk, hr⟩ | ⟨-, hr⟩
    · exact absurd ha' ha
    · obtain rfl : wr = k := Option.some.inj hr
      change (Bytes.overwrite w.file g.startOffset _)[off + nr - 1]? ≠ _
      rw [hoff, getElem?_overwrite_of_ge (by rw [length_slice]; omega)]
      exact hne
    · exact absurd hr (by simp)
  | ret v =>
    simp only [hpc] at hstep
    exact absurd hstep (by simp)

theorem Unwritten.step {p q : Seg α × Dest α} (h : Unwritten src off len p)
    (hstep : segRun src p a = some q) : Unwritten src off len q := by
  have hkeep : a ≠ .full → q.2.file[off + len - 1]? ≠ src[off + len - 1]? := fun ha =>
    h.of_not_full ha hstep
  obtain ⟨g, w⟩ := p
  obtain ⟨g', w'⟩ := q
  obtain ⟨hoff, hpoint⟩ := h
  change g.startOffset = off at hoff
  rw [segRun, segStep] at hstep
  cases hpc : g.pc with
  | malloc => simp [hpc] at hpoint
  | read tr => simp [hpc] at hpoint
  | write nr tw =>
    simp only [hpc] at hstep hpoint
    obtain ⟨rfl, hlen, -⟩ := hpoint
    rcases fdWrite_cases hstep with ⟨-, rfl, -⟩ | ⟨wr, hwr, -, hcase⟩
    · exact ⟨hoff, trivial⟩
    rcases hcase with ⟨hlt, rfl⟩ | ⟨-, rfl⟩
    · refine ⟨hoff, rfl, hlen, hkeep fun ha => ?_⟩
      subst ha
      have : nr = wr := by simpa [Answer.transfer] using hwr
      omega
    · rcases Seg.gotWrite_cases (toInt (tw + wr)) g with ⟨-, heq⟩ | ⟨-, heq⟩ <;> rw [heq] <;>
        exact ⟨hoff, trivial⟩
  | ret v =>
    simp only [hpc] at hstep
    exact absurd hstep (by simp)

/-! ### The run on the labels -/

section Labels

/-- The start of a call on the labels. -/
def segStartLabels (off len M : ℕ) : Seg Label × Dest Label :=
  segStart off len (Label.oldList M) (Label.heap 0 0)

/-- Replacing the bytes in a call and its destination. -/
def segMap {β : Type*} (φ : α → β) (p : Seg α × Dest α) : Seg β × Dest β :=
  (p.1.map φ, p.2.map φ)

/-- **Replacing the bytes commutes with the calls of `__do_mt_copy`.** -/
theorem segRun_map {β : Type*} [Zero β] {φ : α → β} (hφ : φ 0 = 0) (src : List α)
    (p : Seg α × Dest α) (as : List Answer) :
    run (segRun (src.map φ)) (segMap φ p) as = (run (segRun src) p as).map (segMap φ) :=
  run_map (fun q a => segStep_map hφ src q.1 q.2 a) p as

/-- The answers make `__do_mt_copy` return 0 on some source of `L` bytes, over some
old destination of `M` bytes. On which ones does not matter. -/
def SegReturns (off len L M : ℕ) (as : List Answer) : Prop :=
  ∃ (src old : List UInt8) (heap : ℕ → UInt8) (p : Seg UInt8 × Dest UInt8), src.length = L ∧
    old.length = M ∧ run (segRun src) (segStart off len old heap) as = some p ∧ p.1.pc = .ret 0

variable {L M : ℕ} {as : List Answer}

theorem segRun_eq_map_labels (src old : List UInt8) (off len : ℕ) (heap : ℕ → UInt8)
    (as : List Answer) :
    run (segRun src) (segStart off len old heap) as =
      (run (segRun (Label.srcList src.length)) (segStartLabels off len old.length) as).map
        (segMap (Label.unlabel src old fun _ _ => heap)) := by
  rw [← segRun_map rfl, segMap, Label.map_srcList]
  congr 1
  exact Prod.ext rfl (congrArg (fun l => Dest.mk l []) Label.map_oldList.symm)

/-- Answers that make `__do_mt_copy` return 0 do so on the labels. -/
theorem SegReturns.labels (h : SegReturns off len L M as) :
    ∃ q, run (segRun (Label.srcList L)) (segStartLabels off len M) as = some q ∧
      q.1.pc = .ret 0 := by
  obtain ⟨src, old, heap, p, rfl, rfl, hrun, hpc⟩ := h
  rw [segRun_eq_map_labels] at hrun
  obtain ⟨q, hq, rfl⟩ := Option.map_eq_some_iff.mp hrun
  exact ⟨q, hq, hpc⟩

/-- Answers that make `__do_mt_copy` return 0 do so on all contents of these
lengths. -/
theorem SegReturns.pc_eq (h : SegReturns off len L M as) {src old : List UInt8}
    {heap : ℕ → UInt8} {p : Seg UInt8 × Dest UInt8} (hsrc : src.length = L)
    (hold : old.length = M)
    (hrun : run (segRun src) (segStart off len old heap) as = some p) : p.1.pc = .ret 0 := by
  obtain ⟨q, hq, hpc⟩ := h.labels
  subst hsrc hold
  rw [segRun_eq_map_labels, hq] at hrun
  obtain rfl := Option.some.inj hrun
  exact hpc

/-- **On the labels**, answers that make `__do_mt_copy` return 0 but whose first read
or last write is not full spoil the end of the segment. -/
theorem labels_spoilt (hin : off + len ≤ L) (hlen : len < 2 ^ 31)
    {q : Seg Label × Dest Label}
    (hrun : run (segRun (Label.srcList L)) (segStartLabels off len M) as = some q)
    (hret : q.1.pc = .ret 0) (hcond : ¬(as[1]? = some .full ∧ as.getLast? = some .full)) :
    0 < len ∧ ((∃ c ∈ q.1.handed, len < c) ∨
      q.2.file[off + len - 1]? ≠ (Label.srcList L)[off + len - 1]?) := by
  have hsrc : off + len ≤ (Label.srcList L).length := by rwa [Label.length_srcList]
  obtain ⟨a, rest, u, rfl, hu, hrest⟩ := exists_first_read hrun hret
  by_cases ha : a = .full
  · -- the first read was full, so the last write was not
    subst ha
    obtain ⟨hload, hfile, hpoint⟩ := loaded_of_full hsrc hlen hu
    rcases List.eq_nil_or_concat rest with rfl | ⟨init, b, rfl⟩
    · exact absurd ⟨rfl, rfl⟩ hcond
    rw [List.concat_eq_append, run_append, Option.bind_eq_some_iff] at hrest
    obtain ⟨v, hv, hb⟩ := hrest
    obtain ⟨w, hw, hnil⟩ := run_cons_eq_some.mp hb
    obtain rfl : w = q := by simpa using hnil
    have hbne : b ≠ .full := by
      rintro rfl
      refine hcond ⟨rfl, ?_⟩
      rw [List.concat_eq_append, ← List.cons_append, ← List.cons_append, List.getLast?_concat]
    rcases hpoint with ⟨hpc, hpos⟩ | ⟨hpc, -⟩
    · have hun : Unwritten (Label.srcList L) off len u := by
        refine ⟨hload.1, ?_⟩
        rw [hpc, hfile]
        exact ⟨rfl, hpos, Label.getElem?_oldList_ne (by omega)⟩
      have hunv : Unwritten (Label.srcList L) off len v :=
        run_invariant (fun _ _ _ hp hst => hp.step hst) hun hv
      exact ⟨hpos, Or.inr (hunv.of_not_full hbne hw)⟩
    · -- a segment of no bytes is finished by its first read
      have hstuck : ∀ c, segRun (Label.srcList L) u c = none := by
        intro c
        rw [segRun, segStep, hpc]
      cases init with
      | nil =>
        obtain rfl : u = v := by simpa using hv
        exact absurd hw (by simp [hstuck])
      | cons c cs =>
        obtain ⟨w', hw', -⟩ := run_cons_eq_some.mp hv
        exact absurd hw' (by simp [hstuck])
  · -- the first read was short: it cannot have failed, since the call returned 0
    obtain ⟨k, rfl, hpos⟩ : ∃ k, a = .short k ∧ 0 < len := by
      have hu' : (fdRead (Label.srcList L) 0 { Seg.call off len (Label.heap 0 0) with
          pc := .read 0 } a).map (fun g => (g, (⟨Label.oldList M, []⟩ : Dest Label))) = some u := hu
      obtain ⟨g, hg, rfl⟩ := Option.map_eq_some_iff.mp hu'
      rcases fdRead_cases hg with ⟨rfl, rfl⟩ | ⟨rd, hrd, -⟩
      · exfalso
        cases rest with
        | nil =>
          obtain rfl := Option.some.inj hrest
          cases hret
        | cons c cs =>
          obtain ⟨w', hw', -⟩ := run_cons_eq_some.mp hrest
          cases hw'
      · rcases Answer.transfer_cases hrd with ⟨rfl, -⟩ | ⟨k, rfl, hk, hlt, -⟩ | ⟨-, hr⟩
        · exact absurd rfl ha
        · refine ⟨k, rfl, ?_⟩
          change k < min len _ at hlt
          omega
        · exact absurd hr (by simp)
    have hsp : Spoilt (Label.srcList L) off len u := by
      refine spoilt_of_short (Label.getElem?_oldList_ne (by omega)) ?_ hu
      rw [Label.getElem?_srcList (by omega)]
      simp
    have hspq : Spoilt (Label.srcList L) off len q :=
      run_invariant (fun _ _ _ hp hst => hp.step hsrc hlen hst) hsp hrest
    exact ⟨hpos, hspq.2.2.imp_right And.left⟩

/-- **When a segment is copied**: if `__do_mt_copy` returns 0, then whatever the
contents of these lengths, the segment arrives, nothing else changes and no count
beyond the buffer is handed to `fd_write`, exactly if the first `pread` and the
last `pwrite` were full. (In a segment of no bytes, the last call *is* the first
`pread`.) -/
theorem segment_copied_iff (hin : off + len ≤ L) (hlen : len < 2 ^ 31)
    (h : SegReturns off len L M as) :
    (∀ (src old : List UInt8) (heap : ℕ → UInt8) (p : Seg UInt8 × Dest UInt8),
        src.length = L → old.length = M →
        run (segRun src) (segStart off len old heap) as = some p →
        SegCopied src old off len p.2.file ∧ ∀ c ∈ p.1.handed, c ≤ len) ↔
      as[1]? = some .full ∧ as.getLast? = some .full := by
  constructor
  · intro hall
    by_contra hcond
    obtain ⟨q, hq, hret⟩ := h.labels
    obtain ⟨hpos, hbad⟩ := labels_spoilt hin hlen hq hret hcond
    have hmap := segRun_map (Label.mark_zero (off + len - 1)) (Label.srcList L)
      (segStartLabels off len M) as
    rw [hq] at hmap
    obtain ⟨hcopied, hhand⟩ := hall ((Label.srcList L).map (Label.mark (off + len - 1)))
      ((Label.oldList M).map (Label.mark (off + len - 1)))
      (fun j => Label.mark (off + len - 1) (.heap 0 0 j)) (segMap (Label.mark _) q)
      (by simp) (by simp) hmap
    rcases hbad with ⟨c, hc, hlt⟩ | hne
    · exact absurd (hhand c hc) (by omega)
    · exact Label.getElem?_map_mark_ne (by omega) hne
        (hcopied.inside (off + len - 1) (by omega) (by omega))
  · rintro ⟨hfirst, hlast⟩ src old heap p rfl rfl hrun
    exact copied_of_full hin hlen hrun (h.pc_eq rfl rfl hrun) hfirst hlast

/-- The short writes before the last one do no harm. -/
theorem segment_copied_iff_at :
    (∀ (src old : List UInt8) (heap : ℕ → UInt8) (p : Seg UInt8 × Dest UInt8),
        src.length = 4 → old.length = 0 →
        run (segRun src) (segStart 1 2 old heap) [.ok, .full, .short 1, .full] = some p →
        SegCopied src old 1 2 p.2.file ∧ ∀ c ∈ p.1.handed, c ≤ 2) ↔
      [Answer.ok, .full, .short 1, .full][1]? = some .full ∧
        [Answer.ok, .full, .short 1, .full].getLast? = some .full :=
  segment_copied_iff (by decide) (by decide)
    ⟨[1, 2, 3, 4], [], fun _ => 0, _, rfl, rfl, rfl, rfl⟩

/-- **One short `pread` is enough**: a segment of 2 bytes is read as 1 byte and then
2 more from the same offset, 3 bytes are handed to `fd_write` for a buffer of 2,
and a byte beyond the segment is overwritten. -/
theorem segment_short_read :
    ∃ p : Seg UInt8 × Dest UInt8,
      run (segRun [1, 2, 3, 4]) (segStart 1 2 [9, 9, 9, 9] fun _ => 0)
        [.ok, .short 1, .full, .full] = some p ∧
      p.1.pc = .ret 0 ∧ p.1.handed = [3] ∧ p.2.file = [9, 2, 3, 0] ∧
      ¬SegCopied [1, 2, 3, 4] [9, 9, 9, 9] 1 2 p.2.file :=
  ⟨_, rfl, rfl, rfl, rfl, fun h => absurd (h.outside 3 (by decide) (by decide)) (by decide)⟩

end Labels

end MtCopy

end SystemProgramming
