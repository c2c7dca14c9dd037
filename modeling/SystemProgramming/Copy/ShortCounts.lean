import SystemProgramming.Copy.Simpcp
import SystemProgramming.Labels

/-!
# Short counts in `simpcp2`

`simpcp2` says of itself that it checks how many bytes a call transferred and
arranges “to transfer the remaining by encoding the IO in a loop”. The loops
count, but they advance neither the buffer nor the request: after a short
`read` the next one overwrites the bytes already read, and after a short `write`
the same bytes are written again. This file settles what that costs.

The copy is followed on the run as long as it is right
(`SystemProgramming.Simpcp2.Tracks`): the destination is the source up to the
file offset and the old content after it. A full answer keeps it so – until a
block of `2 ^ 31` bytes or more, whose count does not survive the `int` that
`fd_read` returns. Any other answer, and such a block, leaves it for good
(`SystemProgramming.Simpcp2.Gone`): some position `p` of the destination is
going to hold a byte from elsewhere in the source
(`SystemProgramming.Simpcp2.Astray`), or `docopy` reports an error.

The converse is proved on a source whose bytes are all different, where a byte
from elsewhere is a wrong byte; `SystemProgramming.Simpcp2.docopy_map` carries
it to bytes.
-/

namespace SystemProgramming

open Bytes Runs Simpcp

namespace Simpcp2

variable {α : Type*}

/-! ### Two lists side by side -/

section Lists

variable {src e : List α}

/-- Past a prefix of `src` that is as long as the prefix dropped from `e`, the
two pieces together read as `e`. -/
theorem getElem?_take_append_drop_of_le {o p : ℕ} (ho : o ≤ src.length) (hp : o ≤ p) :
    (src.take o ++ e.drop o)[p]? = e[p]? := by
  have hlen : (src.take o).length = o := by
    rw [List.length_take]
    omega
  rw [List.getElem?_append_right (by omega), hlen, List.getElem?_drop]
  congr 1
  omega

/-- Two positions of a list without repetition hold different bytes. -/
theorem getElem?_ne_of_nodup (hsrc : src.Nodup) {i j : ℕ} (hi : i < src.length) (hne : i ≠ j) :
    src[i]? ≠ src[j]? := fun h => hne ((List.getElem?_inj hi hsrc).mp h)

/-- A list none of whose bytes is in `src` agrees with it at no position. -/
theorem getElem?_ne_of_disjoint (he : ∀ x ∈ e, x ∉ src) {p : ℕ} (hp : p < src.length) :
    e[p]? ≠ src[p]? := by
  intro h
  rw [List.getElem?_eq_getElem hp] at h
  exact he _ (List.mem_of_getElem? h) (List.getElem_mem hp)

/-- A buffer that starts with a piece of `src` starts with its first byte. -/
theorem buf_zero_of_slice {m : ℕ → α} {o b : ℕ} (hb : 0 < b)
    (hbuf : slice m b = (src.drop o).take b) : some (m 0) = src[o]? := by
  have h0 : (slice m b)[0]? = ((src.drop o).take b)[0]? := by rw [hbuf]
  rwa [getElem?_slice, if_pos hb, List.getElem?_take, if_pos hb, List.getElem?_drop,
    Nat.add_zero] at h0

end Lists

variable {src e : List α} {n : ℕ} {s t : Copy α} {a : Answer}

/-! ### The course of a copy -/

/-- What is true at each control point of a copy that is right so far. -/
def AtPoint (src : List α) (n : ℕ) (s : Copy α) : Pc → Prop
  | .stat => s.srcOff = 0 ∧ s.destOff = 0
  | .malloc => s.srcOff = 0 ∧ s.destOff = 0
  | .read tr => s.srcOff = s.destOff + tr ∧ s.srcOff ≤ src.length ∧
      (tr ≠ 0 → tr < n ∧ s.srcOff = src.length ∧ slice s.buf tr = src.drop s.destOff)
  | .write nr tw => tw = 0 ∧ 0 < nr ∧ nr < 2 ^ 31 ∧ nr = min n (src.length - s.destOff) ∧
      s.srcOff = s.destOff + nr ∧ slice s.buf nr = (src.drop s.destOff).take nr
  | .ret v => v = 0 ∧ s.destOff = src.length ∧ min n src.length < 2 ^ 31

/-- **The copy is right so far**: the destination holds the source up to the
file offset and its old content `e` from there on, no count handed to `fd_write`
exceeded the block, and a block that was written fits an `int`. -/
structure Tracks (src e : List α) (n : ℕ) (s : Copy α) : Prop where
  destOff_le : s.destOff ≤ src.length
  dest_eq : s.dest = src.take s.destOff ++ e.drop s.destOff
  handed_le : ∀ c ∈ s.handed, c ≤ n
  fits : s.destOff ≠ 0 → min n src.length < 2 ^ 31
  point : AtPoint src n s s.pc

theorem tracks_start (src e : List α) (n : ℕ) (heap : ℕ → α) :
    Tracks src e n (Copy.start e heap) :=
  { destOff_le := Nat.zero_le _
    dest_eq := rfl
    handed_le := by simp [Copy.start]
    fits := fun h => absurd rfl h
    point := ⟨rfl, rfl⟩ }

/-- Where a copy that is lost at position `p` stands: the file offset has passed
`p`, or it is at `p` and the next byte to be written is another byte. -/
def LostAt (src : List α) (p : ℕ) (s : Copy α) : Pc → Prop
  | .read tr => p < s.destOff ∨ s.destOff = p ∧ p < s.srcOff ∧
      (tr = 0 ∨ s.srcOff < src.length ∨ some (s.buf 0) ≠ src[p]?)
  | .write nr tw => tw < nr ∧ (p < s.destOff ∨ s.destOff = p ∧ some (s.buf 0) ≠ src[p]?)
  | .ret _ => True
  | _ => False

/-- **The copy is lost at position `p`**: the destination does not hold the byte
of the source there, and is not going to. -/
structure Astray (src : List α) (p : ℕ) (s : Copy α) : Prop where
  lt_length : p < src.length
  ne : s.dest[p]? ≠ src[p]?
  destOff_le : s.destOff ≤ s.dest.length
  point : LostAt src p s s.pc

/-- **A block was cut by the conversion to `int`**: fewer bytes are about to be
written than were read. -/
def Cut (src e : List α) (s : Copy α) : Prop :=
  ∃ nr, s.pc = .write nr 0 ∧ 0 < nr ∧ s.destOff + nr < s.srcOff ∧ s.srcOff ≤ src.length ∧
    s.dest = src.take s.destOff ++ e.drop s.destOff ∧ some (s.buf 0) = src[s.destOff]?

/-- The copy is not right any more, or `docopy` has reported an error. -/
def Gone (src e : List α) (s : Copy α) : Prop :=
  (∃ v, v < 0 ∧ s.pc = .ret v) ∨ (∃ p, Astray src p s) ∨ Cut src e s

/-! ### A copy that is astray stays so -/

/-- Between the read and the write of a block, what is at the front of the
buffer decides. -/
theorem astray_gotRead {p : ℕ} (hp : p < src.length) (hne : s.dest[p]? ≠ src[p]?)
    (hle : s.destOff ≤ s.dest.length) {nr : ℤ}
    (h : p < s.destOff ∨ s.destOff = p ∧ (0 < nr → some (s.buf 0) ≠ src[p]?)) :
    Astray src p (s.gotRead nr) := by
  rcases Copy.gotRead_cases nr s with ⟨-, heq⟩ | ⟨-, heq⟩ | ⟨hnr, heq⟩ <;> rw [heq]
  · exact ⟨hp, hne, hle, trivial⟩
  · exact ⟨hp, hne, hle, trivial⟩
  · exact ⟨hp, hne, hle, by omega, h.imp_right fun h' => ⟨h'.1, h'.2 hnr⟩⟩

theorem astray_fdRead (hsrc : src.Nodup) (hn : 1 ≤ n) {p tr : ℕ} (h : Astray src p s)
    (hpc : s.pc = .read tr) (hstep : fdRead src n tr s a = some t) : Astray src p t := by
  obtain ⟨hp, hne, hle, hpoint⟩ := h
  rw [hpc] at hpoint
  rcases fdRead_cases hstep with ⟨-, rfl⟩ | ⟨rd, hrd, hcase⟩
  · exact ⟨hp, hne, hle, trivial⟩
  obtain ⟨hrdle, hrdpos⟩ := Answer.transfer_le hrd
  -- whatever is read now comes from behind `p`, and lands at the front of the buffer
  have hbuf : 0 < rd → p < s.srcOff → some ((s.readBytes src rd).buf 0) ≠ src[p]? := by
    intro hpos hlt
    rw [Copy.readBytes_buf_zero hpos (by omega)]
    exact getElem?_ne_of_nodup hsrc (by omega) (by omega)
  rcases hcase with ⟨rfl, rfl⟩ | ⟨hpos, -, rfl⟩ | ⟨hpos, -, rfl⟩
  · refine astray_gotRead hp hne hle (hpoint.imp_right fun h' => ⟨h'.1, fun hnr => ?_⟩)
    rcases h'.2.2 with rfl | hlt | hbuf'
    · simp [toInt] at hnr
    · omega
    · exact hbuf'
  · refine ⟨hp, hne, hle, hpoint.imp_right fun h' => ⟨h'.1, ?_, ?_⟩⟩
    · exact lt_of_lt_of_le h'.2.1 (Nat.le_add_right _ _)
    · exact Or.inr (Or.inr (hbuf hpos h'.2.1))
  · exact astray_gotRead (s := s.readBytes src rd) hp hne hle
      (hpoint.imp_right fun h' => ⟨h'.1, fun _ => hbuf hpos h'.2.1⟩)

section Steps

variable [Zero α]

/-- What a write at the position does to it, and to the positions before. -/
theorem astray_writeBytes {p wr : ℕ} (hpos : 0 < wr) (hne : s.dest[p]? ≠ src[p]?)
    (hle : s.destOff ≤ s.dest.length)
    (h : p < s.destOff ∨ s.destOff = p ∧ some (s.buf 0) ≠ src[p]?) :
    (s.writeBytes wr).dest[p]? ≠ src[p]? ∧ p < (s.writeBytes wr).destOff ∧
      (s.writeBytes wr).destOff ≤ (s.writeBytes wr).dest.length := by
  have hdlen : (slice s.buf wr).length = wr := length_slice _ _
  have hend : s.destOff + wr ≤ (overwrite s.dest s.destOff (slice s.buf wr)).length := by
    rw [length_overwrite (slice_ne_nil _ hpos), hdlen]
    exact le_max_right _ _
  rcases h with hlt | ⟨heq, hbuf⟩
  · have hsame : (overwrite s.dest s.destOff (slice s.buf wr))[p]? = s.dest[p]? :=
      getElem?_overwrite_of_lt (Or.inl hlt) (by omega)
    exact ⟨hsame ▸ hne, lt_of_lt_of_le hlt (Nat.le_add_right _ _), hend⟩
  · have hnew : (overwrite s.dest s.destOff (slice s.buf wr))[p]? = some (s.buf 0) := by
      rw [getElem?_overwrite_of_mem (by omega) (by omega), heq, Nat.sub_self, getElem?_slice,
        if_pos hpos]
    refine ⟨?_, ?_, hend⟩
    · change (overwrite s.dest s.destOff (slice s.buf wr))[p]? ≠ src[p]?
      rw [hnew]
      exact hbuf
    · change p < s.destOff + wr
      omega

theorem astray_fdWrite {p nr tw : ℕ} (h : Astray src p s) (hpc : s.pc = .write nr tw)
    (hstep : fdWrite nr tw s a = some t) : Astray src p t := by
  obtain ⟨hp, hne, hle, hpoint⟩ := h
  rw [hpc] at hpoint
  obtain ⟨htw, hpoint⟩ := hpoint
  rcases fdWrite_cases hstep with ⟨-, rfl⟩ | ⟨wr, hwr, hcase⟩
  · exact ⟨hp, hne, hle, trivial⟩
  obtain ⟨-, hwrpos⟩ := Answer.transfer_le hwr
  obtain ⟨hne', hlt', hle'⟩ := astray_writeBytes (hwrpos (by omega)) hne hle hpoint
  rcases hcase with ⟨hlt, rfl⟩ | ⟨-, rfl⟩
  · exact ⟨hp, hne', hle', hlt, Or.inl hlt'⟩
  · rcases Copy.gotWrite_cases (toInt (tw + wr)) (s.writeBytes wr) with ⟨-, heq⟩ | ⟨-, heq⟩ <;>
      rw [heq]
    · exact ⟨hp, hne', hle', trivial⟩
    · exact ⟨hp, hne', hle', Or.inl hlt'⟩

/-- **A copy that is lost at a position stays so.** -/
theorem Astray.step (hsrc : src.Nodup) (hn : 1 ≤ n) {p : ℕ} (h : Astray src p s)
    (hstep : docopy src n s a = some t) : Astray src p t := by
  have hpoint := h.point
  rw [docopy] at hstep
  cases hpc : s.pc with
  | stat =>
    rw [hpc] at hpoint
    exact hpoint.elim
  | malloc =>
    rw [hpc] at hpoint
    exact hpoint.elim
  | read tr =>
    rw [hpc] at hstep
    exact astray_fdRead hsrc hn h hpc hstep
  | write nr tw =>
    rw [hpc] at hstep
    exact astray_fdWrite h hpc hstep
  | ret v =>
    rw [hpc] at hstep
    exact absurd hstep (by simp)

end Steps

/-! ### Leaving the course -/

theorem getElem?_dest_of_tracks {o p : ℕ} (he : ∀ x ∈ e, x ∉ src) (ho : o ≤ src.length)
    (hop : o ≤ p) (hp : p < src.length) : (src.take o ++ e.drop o)[p]? ≠ src[p]? := by
  rw [getElem?_take_append_drop_of_le ho hop]
  exact getElem?_ne_of_disjoint he hp

theorem le_length_dest {o : ℕ} (ho : o ≤ src.length) :
    o ≤ (src.take o ++ e.drop o).length := by
  rw [List.length_append, List.length_take]
  omega

/-- **The copy is behind**: less has been written, and is about to be, than was read,
and the destination is the old one from there on. -/
def Behind (src e : List α) (s : Copy α) : Prop :=
  (∀ p, s.destOff ≤ p → s.dest[p]? = e[p]?) ∧ match s.pc with
    | .read tr => s.destOff + tr < s.srcOff ∧ s.srcOff ≤ src.length
    | .write nr tw => tw = 0 ∧ 0 < nr ∧ s.destOff + nr < s.srcOff ∧ s.srcOff ≤ src.length
    | .ret _ => s.destOff < src.length ∨ s.destOff = 0 ∧ src.length = 0
    | _ => False

/-- A step that leaves the course: the answer was not full, or a block of the
file does not fit an `int`; and where a byte from elsewhere is a wrong byte, the
copy is gone. When it was no transfer that was not full, the copy is behind. -/
def Leaves (src e : List α) (n : ℕ) (a : Answer) (t : Copy α) : Prop :=
  (a.IsFull → 2 ^ 31 ≤ min n src.length) ∧
    (src.Nodup → (∀ x ∈ e, x ∉ src) → Gone src e t) ∧ (a.FullTransfer → Behind src e t)

theorem Leaves.of_error (ha : ¬a.IsFull) {v : ℤ} (hv : v < 0) (ht : t.pc = .ret v)
    (hb : a.FullTransfer → Behind src e t) : Leaves src e n a t :=
  ⟨fun h => absurd h ha, fun _ _ => Or.inl ⟨v, hv, ht⟩, hb⟩

/-- A copy whose call failed before the first block is behind. -/
theorem Tracks.behind_of_error (h : Tracks src e n s) (h0 : s.destOff = 0) (v : ℤ) :
    Behind src e { s with pc := .ret v } := by
  refine ⟨fun p _ => ?_, ?_⟩
  · change s.dest[p]? = e[p]?
    rw [h.dest_eq, h0]
    rfl
  · change s.destOff < src.length ∨ s.destOff = 0 ∧ src.length = 0
    omega

/-- A copy that counts no more than it is behind stays behind. -/
theorem behind_gotRead {c : ℕ} (hdest : ∀ p, s.destOff ≤ p → s.dest[p]? = e[p]?)
    (hlt : (s.destOff : ℤ) + toInt c < s.srcOff) (hdo : s.destOff < s.srcOff)
    (hle : s.srcOff ≤ src.length) : Behind src e (s.gotRead (toInt c)) := by
  rcases Copy.gotRead_cases (toInt c) s with ⟨-, heq⟩ | ⟨-, heq⟩ | ⟨hpos, heq⟩ <;> rw [heq]
  · exact ⟨hdest, Or.inl (lt_of_lt_of_le hdo hle)⟩
  · exact ⟨hdest, Or.inl (lt_of_lt_of_le hdo hle)⟩
  · refine ⟨hdest, rfl, by omega, ?_, hle⟩
    change s.destOff + (toInt c).toNat < s.srcOff
    omega

/-- **A block has been read in full**: it is handed on whole, unless its count
does not fit an `int`. -/
theorem tracks_gotRead {o b : ℕ} (ho : s.destOff = o) (hb : b = min n (src.length - o))
    (hbpos : 0 < b) (hdest : s.dest = src.take o ++ e.drop o) (hoff : s.srcOff = o + b)
    (hhand : ∀ c ∈ s.handed, c ≤ n) (hfits : o ≠ 0 → min n src.length < 2 ^ 31)
    (hbuf : slice s.buf b = (src.drop o).take b) :
    Tracks src e n (s.gotRead (toInt b)) ∨
      2 ^ 31 ≤ min n src.length ∧ ((∀ x ∈ e, x ∉ src) → Gone src e (s.gotRead (toInt b))) ∧
        Behind src e (s.gotRead (toInt b)) := by
  have holt : o < src.length := by omega
  have hbuf0 : some (s.buf 0) = src[o]? := buf_zero_of_slice hbpos hbuf
  rcases Nat.lt_or_ge b (2 ^ 31) with hlt | hge
  · refine Or.inl ?_
    have hcast : toInt b = b := toInt_of_lt hlt
    rcases Copy.gotRead_cases (toInt b) s with ⟨hneg, -⟩ | ⟨hzero, -⟩ | ⟨-, heq⟩
    · omega
    · omega
    · have hnat : (toInt b).toNat = b := by omega
      rw [heq, hnat]
      exact
        { destOff_le := by rw [ho]; exact holt.le
          dest_eq := by rw [ho]; exact hdest
          handed_le := fun c hc => by
            rcases List.mem_append.mp hc with h | h
            · exact hhand c h
            · have : c = b := by simpa using h
              omega
          fits := by rw [ho]; exact hfits
          point := ⟨rfl, hbpos, hlt, by rw [ho]; exact hb, by rw [ho]; exact hoff,
            by rw [ho]; exact hbuf⟩ }
  · have hlt : toInt b < b := toInt_lt_of_le hge
    -- the count has wrapped round: it is negative, or zero, or that of a shorter block
    have hbehind : Behind src e (s.gotRead (toInt b)) := by
      refine behind_gotRead (fun p hp => ?_) (by omega) (by omega) (by omega)
      rw [hdest, getElem?_take_append_drop_of_le holt.le (ho ▸ hp)]
    refine Or.inr ⟨by omega, fun he => ?_, hbehind⟩
    rcases Copy.gotRead_cases (toInt b) s with ⟨-, heq⟩ | ⟨-, heq⟩ | ⟨hpos, heq⟩ <;> rw [heq]
    · exact Or.inl ⟨-3, by omega, rfl⟩
    · refine Or.inr (Or.inl ⟨o, holt, ?_, ?_, trivial⟩)
      · rw [hdest]
        exact getElem?_dest_of_tracks he holt.le le_rfl holt
      · rw [ho, hdest]
        exact le_length_dest holt.le
    · refine Or.inr (Or.inr ⟨(toInt b).toNat, rfl, by omega, ?_, ?_, ?_, ?_⟩)
      · rw [ho, hoff]
        omega
      · rw [hoff]
        omega
      · rw [ho]
        exact hdest
      · rw [ho]
        exact hbuf0

/-- A read that brings bytes is the first one of its block. -/
theorem Tracks.first_of_bytes {tr rd : ℕ} (h : Tracks src e n s) (hpc : s.pc = .read tr)
    (hpos : 0 < rd) (hle : rd ≤ min n (src.length - s.srcOff)) : tr = 0 := by
  have hpoint := h.point
  rw [hpc] at hpoint
  by_contra hne
  have hend := (hpoint.2.2 hne).2.1
  omega

/-- **A block that is complete** keeps the course when the answer was full, unless its count does
not fit an `int`. -/
theorem tracks_or_leaves_of_block {u : Copy α} (ha : a.IsFull)
    (h : Tracks src e n u ∨
      2 ^ 31 ≤ min n src.length ∧ ((∀ x ∈ e, x ∉ src) → Gone src e u) ∧ Behind src e u) :
    (a.IsFull ∧ Tracks src e n u) ∨ Leaves src e n a u := by
  rcases h with htracks | ⟨hbig, hgone, hbehind⟩
  · exact Or.inl ⟨ha, htracks⟩
  · exact Or.inr ⟨fun _ => hbig, fun _ he => hgone he, fun _ => hbehind⟩

/-- The end of the file is read: the call could transfer nothing. -/
theorem tracks_fdRead_end (hn : 1 ≤ n) {tr : ℕ} (h : Tracks src e n s) (hpc : s.pc = .read tr)
    (hrd : a.transfer (min n (src.length - s.srcOff)) = some (some 0)) :
    (a.IsFull ∧ Tracks src e n (s.gotRead (toInt tr))) ∨
      Leaves src e n a (s.gotRead (toInt tr)) := by
  have hpoint := h.point
  rw [hpc] at hpoint
  obtain ⟨hoff, hofflen, hrest⟩ := hpoint
  obtain ⟨-, hrdpos⟩ := Answer.transfer_le hrd
  have hend : s.srcOff = src.length := by omega
  have hfull : a.IsFull := Answer.isFull_of_le hrd (by omega)
  rcases Nat.eq_zero_or_pos tr with rfl | htr
  · have hret : s.gotRead (toInt 0) = { s with pc := .ret 0 } := rfl
    rw [hret]
    have hfits : min n src.length < 2 ^ 31 := by
      rcases Nat.eq_zero_or_pos s.destOff with h0 | h0
      · omega
      · exact h.fits (by omega)
    have hdone : s.destOff = src.length := by omega
    exact Or.inl ⟨hfull, h.destOff_le, h.dest_eq, h.handed_le, fun _ => hfits, rfl, hdone, hfits⟩
  · obtain ⟨htrn, -, hbuf⟩ := hrest (by omega)
    -- the last block, which is shorter than the size asked for, is complete
    have hb : tr = min n (src.length - s.destOff) := by omega
    have htake : (src.drop s.destOff).take tr = src.drop s.destOff :=
      List.take_of_length_le (by rw [List.length_drop]; omega)
    exact tracks_or_leaves_of_block hfull (tracks_gotRead rfl hb htr h.dest_eq hoff h.handed_le
      h.fits (by rw [htake]; exact hbuf))

/-- Bytes are read, and more are asked for. -/
theorem tracks_fdRead_again {rd : ℕ} (h : Tracks src e n s) (hpc : s.pc = .read 0)
    (hrd : a.transfer (min n (src.length - s.srcOff)) = some (some rd)) (hpos : 0 < rd)
    (hlt : 0 + rd < n) :
    (a.IsFull ∧ Tracks src e n { s.readBytes src rd with pc := .read (0 + rd) }) ∨
      Leaves src e n a { s.readBytes src rd with pc := .read (0 + rd) } := by
  have hpoint := h.point
  rw [hpc] at hpoint
  obtain ⟨hoff, hofflen, -⟩ := hpoint
  rcases Answer.transfer_cases hrd with ⟨rfl, hr⟩ | ⟨k, rfl, -, hk, hr⟩ | ⟨-, hr⟩
  · have hrdeq : rd = min n (src.length - s.srcOff) := Option.some.inj hr
    refine Or.inl ⟨Or.inr rfl, h.destOff_le, h.dest_eq, h.handed_le, h.fits, ?_, ?_, fun _ => ?_⟩
    · change s.srcOff + rd = s.destOff + (0 + rd)
      omega
    · change s.srcOff + rd ≤ src.length
      omega
    · refine ⟨hlt, ?_, ?_⟩
      · change s.srcOff + rd = src.length
        omega
      · change slice (blit s.buf _) (0 + rd) = src.drop s.destOff
        rw [slice_blit _ (by simp only [List.length_take, List.length_drop]; omega),
          List.take_take, List.take_of_length_le (by rw [List.length_drop]; omega)]
        congr 1
  · -- a short read: the next one goes to the start of the buffer again
    have hrdeq : rd = k := Option.some.inj hr
    subst hrdeq
    refine Or.inr ⟨fun hf => absurd hf (by rintro (h | h) <;> cases h), fun _ he =>
      Or.inr (Or.inl ⟨s.destOff, by omega, ?_, ?_, Or.inr ⟨rfl, ?_, Or.inr (Or.inl ?_)⟩⟩),
      False.elim⟩
    · change s.dest[s.destOff]? ≠ _
      rw [h.dest_eq]
      exact getElem?_dest_of_tracks he h.destOff_le le_rfl (by omega)
    · change s.destOff ≤ s.dest.length
      rw [h.dest_eq]
      exact le_length_dest h.destOff_le
    · change s.destOff < s.srcOff + rd
      omega
    · change s.srcOff + rd < src.length
      omega
  · exact absurd hr (by simp)

/-- A whole block is read in one round. -/
theorem tracks_fdRead_block {rd : ℕ} (h : Tracks src e n s) (hpc : s.pc = .read 0)
    (hrd : a.transfer (min n (src.length - s.srcOff)) = some (some rd)) (hpos : 0 < rd)
    (hge : n ≤ 0 + rd) :
    (a.IsFull ∧ Tracks src e n ((s.readBytes src rd).gotRead (toInt (0 + rd)))) ∨
      Leaves src e n a ((s.readBytes src rd).gotRead (toInt (0 + rd))) := by
  have hpoint := h.point
  rw [hpc] at hpoint
  obtain ⟨hoff, hofflen, -⟩ := hpoint
  obtain ⟨hrdle, -⟩ := Answer.transfer_le hrd
  have hfull : a.IsFull := Answer.isFull_of_le hrd (by omega)
  have hb : 0 + rd = min n (src.length - s.destOff) := by omega
  have hread : slice (s.readBytes src rd).buf (0 + rd) = (src.drop s.destOff).take (0 + rd) := by
    change slice (blit s.buf _) (0 + rd) = _
    rw [slice_blit _ (by simp only [List.length_take, List.length_drop]; omega), List.take_take]
    congr 2
    omega
  have hsrcOff : (s.readBytes src rd).srcOff = s.destOff + (0 + rd) := by
    change s.srcOff + rd = _
    omega
  exact tracks_or_leaves_of_block hfull (tracks_gotRead (s := s.readBytes src rd) (o := s.destOff)
    rfl hb (by omega) h.dest_eq hsrcOff h.handed_le h.fits hread)

/-- **One round of `fd_read` on the course**: a full answer keeps it, and any other
answer, or a block too large for an `int`, leaves it. -/
theorem tracks_fdRead (hn : 1 ≤ n) {tr : ℕ} (h : Tracks src e n s) (hpc : s.pc = .read tr)
    (hstep : fdRead src n tr s a = some t) :
    (a.IsFull ∧ Tracks src e n t) ∨ Leaves src e n a t := by
  rcases fdRead_cases hstep with ⟨rfl, rfl⟩ | ⟨rd, hrd, hcase⟩
  · exact Or.inr (Leaves.of_error (by decide) (v := -3) (by omega) rfl False.elim)
  rcases hcase with ⟨rfl, rfl⟩ | ⟨hpos, hlt, rfl⟩ | ⟨hpos, hge, rfl⟩
  · exact tracks_fdRead_end hn h hpc hrd
  · obtain rfl := h.first_of_bytes hpc hpos (Answer.transfer_le hrd).1
    exact tracks_fdRead_again h hpc hrd hpos hlt
  · obtain rfl := h.first_of_bytes hpc hpos (Answer.transfer_le hrd).1
    exact tracks_fdRead_block h hpc hrd hpos hge

section Steps

variable [Zero α]

/-- **One round of `fd_write` on the course**: a full answer keeps it, any other
answer leaves it. -/
theorem tracks_fdWrite {nr tw : ℕ} (h : Tracks src e n s) (hpc : s.pc = .write nr tw)
    (hstep : fdWrite nr tw s a = some t) :
    (a.IsFull ∧ Tracks src e n t) ∨ Leaves src e n a t := by
  have hpoint := h.point
  rw [hpc] at hpoint
  obtain ⟨rfl, hpos, hint, hnr, hoff, hbuf⟩ := hpoint
  have hwritten : ∀ wr ≤ nr, slice s.buf wr = (src.drop s.destOff).take wr := by
    intro wr hwr
    have := congrArg (List.take wr) hbuf
    rwa [take_slice _ hwr, List.take_take, Nat.min_eq_left hwr] at this
  -- a write of `wr` bytes extends the copied part by as many
  have hdest : ∀ wr, 0 < wr → wr ≤ nr → (s.writeBytes wr).dest =
      src.take (s.destOff + wr) ++ e.drop (s.destOff + wr) := by
    intro wr hwr hle
    have hover := overwrite_take_append_drop src (slice s.buf wr) e h.destOff_le
      (slice_ne_nil _ hwr) (by rw [length_slice, hwritten wr hle])
    rw [length_slice] at hover
    rw [Copy.writeBytes, h.dest_eq]
    exact hover
  rcases fdWrite_cases hstep with ⟨rfl, rfl⟩ | ⟨wr, hwr, hcase⟩
  · exact Or.inr (Leaves.of_error (by decide) (v := -4) (by omega) rfl False.elim)
  rcases Answer.transfer_cases hwr with ⟨rfl, hr⟩ | ⟨k, rfl, hkpos, hk, hr⟩ | ⟨-, hr⟩
  · obtain rfl : wr = nr := Option.some.inj hr
    rcases hcase with ⟨hlt, -⟩ | ⟨-, rfl⟩
    · omega
    have hcast : toInt (0 + wr) = wr := by
      rw [Nat.zero_add]
      exact toInt_of_lt hint
    rcases Copy.gotWrite_cases (toInt (0 + wr)) (s.writeBytes wr) with ⟨hneg, -⟩ | ⟨-, heq⟩
    · omega
    rw [heq]
    have hfits : min n src.length < 2 ^ 31 := by
      rcases Nat.eq_zero_or_pos s.destOff with h0 | h0
      · omega
      · exact h.fits (by omega)
    refine Or.inl ⟨Or.inr rfl, ?_, hdest wr hpos le_rfl, h.handed_le, fun _ => hfits, ?_, ?_,
      fun h0 => absurd rfl h0⟩
    · change s.destOff + wr ≤ src.length
      omega
    · exact hoff
    · change s.srcOff ≤ src.length
      omega
  · obtain rfl : wr = k := Option.some.inj hr
    -- a short write: the next one begins with the block's first byte again
    rcases hcase with ⟨-, rfl⟩ | ⟨hge, -⟩
    · have hdst := hdest wr hkpos hk.le
      have hbuf0 : some (s.buf 0) = src[s.destOff]? := buf_zero_of_slice hpos hbuf
      refine Or.inr ⟨fun hf => absurd hf (by rintro (h | h) <;> cases h), fun hsrc he =>
        Or.inr (Or.inl ⟨s.destOff + wr, by omega, ?_, ?_, ?_, Or.inr ⟨rfl, ?_⟩⟩), False.elim⟩
      · change (s.writeBytes wr).dest[s.destOff + wr]? ≠ _
        rw [hdst]
        exact getElem?_dest_of_tracks he (by omega) le_rfl (by omega)
      · change s.destOff + wr ≤ (s.writeBytes wr).dest.length
        rw [hdst]
        exact le_length_dest (by omega)
      · omega
      · change some (s.buf 0) ≠ _
        rw [hbuf0]
        exact getElem?_ne_of_nodup hsrc (by omega) (by omega)
    · omega
  · exact absurd hr (by simp)

/-- **One step on the course**: a full answer keeps it, and any other answer, or a
block too large for an `int`, leaves it. -/
theorem Tracks.step (hn : 1 ≤ n) (h : Tracks src e n s) (hstep : docopy src n s a = some t) :
    (a.IsFull ∧ Tracks src e n t) ∨ Leaves src e n a t := by
  have hpoint := h.point
  rw [docopy] at hstep
  cases hpc : s.pc with
  | stat =>
    rw [hpc] at hstep hpoint
    rcases statSource_cases hstep with ⟨rfl, rfl⟩ | ⟨rfl, rfl⟩
    · exact Or.inl ⟨Or.inl rfl, h.destOff_le, h.dest_eq, h.handed_le, h.fits, hpoint⟩
    · exact Or.inr (Leaves.of_error (by decide) (v := -1) (by omega) rfl
        fun _ => h.behind_of_error hpoint.2 (-1))
  | malloc =>
    rw [hpc] at hstep hpoint
    obtain ⟨hsoff, hdoff⟩ := hpoint
    rcases mallocBuf_cases hstep with ⟨rfl, rfl⟩ | ⟨rfl, rfl⟩
    · refine Or.inl ⟨Or.inl rfl, h.destOff_le, h.dest_eq, h.handed_le, h.fits, ?_, ?_,
        fun h0 => absurd rfl h0⟩
      · change s.srcOff = s.destOff + 0
        omega
      · change s.srcOff ≤ src.length
        omega
    · exact Or.inr (Leaves.of_error (by decide) (v := -2) (by omega) rfl
        fun _ => h.behind_of_error hdoff (-2))
  | read tr =>
    rw [hpc] at hstep
    exact tracks_fdRead hn h hpc hstep
  | write nr tw =>
    rw [hpc] at hstep
    exact tracks_fdWrite h hpc hstep
  | ret v =>
    rw [hpc] at hstep
    exact absurd hstep (by simp)

/-- A block that was cut leaves the copy astray at the first byte that is not
written. -/
theorem Cut.step (hsrc : src.Nodup) (he : ∀ x ∈ e, x ∉ src) (h : Cut src e s)
    (hstep : docopy src n s a = some t) : Gone src e t := by
  obtain ⟨nr, hpc, hpos, hlt, hle, hdest, hbuf⟩ := h
  -- the byte behind what is written is still the old one
  have hold : ∀ wr, 0 < wr → wr ≤ nr →
      (s.writeBytes wr).dest[s.destOff + wr]? ≠ src[s.destOff + wr]? := by
    intro wr _ hwr
    have hge : s.destOff + (slice s.buf wr).length ≤ s.destOff + wr := by rw [length_slice]
    rw [Copy.writeBytes, getElem?_overwrite_of_ge hge, hdest]
    exact getElem?_dest_of_tracks he (by omega) (by omega) (by omega)
  have hend : ∀ wr, 0 < wr → s.destOff + wr ≤ (s.writeBytes wr).dest.length := by
    intro wr hwr
    rw [Copy.writeBytes, length_overwrite (slice_ne_nil _ hwr), length_slice]
    exact le_max_right _ _
  rw [docopy, hpc] at hstep
  rcases fdWrite_cases hstep with ⟨rfl, rfl⟩ | ⟨wr, hwr, hcase⟩
  · exact Or.inl ⟨-4, by omega, rfl⟩
  obtain ⟨hwrle, hwrpos⟩ := Answer.transfer_le hwr
  rcases hcase with ⟨hwrlt, rfl⟩ | ⟨hge, rfl⟩
  · refine Or.inr (Or.inl ⟨s.destOff + wr, by omega, hold wr (hwrpos hpos) hwrle,
      hend wr (hwrpos hpos), by omega, Or.inr ⟨rfl, ?_⟩⟩)
    change some (s.buf 0) ≠ _
    rw [hbuf]
    exact getElem?_ne_of_nodup hsrc (by omega) (by have := hwrpos hpos; omega)
  · rcases Copy.gotWrite_cases (toInt (0 + wr)) (s.writeBytes wr) with ⟨hneg, heq⟩ | ⟨-, heq⟩ <;>
      rw [heq]
    · exact Or.inl ⟨-4, by omega, rfl⟩
    · refine Or.inr (Or.inl ⟨s.destOff + wr, by omega, hold wr (hwrpos hpos) hwrle,
        hend wr (hwrpos hpos), Or.inr ⟨rfl, ?_, Or.inl rfl⟩⟩)
      change s.destOff + wr < s.srcOff
      omega

/-- **What is behind stays behind**, as long as the transfers are full. -/
theorem Behind.step (h : Behind src e s) (ha : a.FullTransfer)
    (hstep : docopy src n s a = some t) : Behind src e t := by
  obtain ⟨hdest, hpoint⟩ := h
  rw [docopy] at hstep
  cases hpc : s.pc with
  | stat => simp [hpc] at hpoint
  | malloc => simp [hpc] at hpoint
  | read tr =>
    simp only [hpc] at hstep hpoint
    obtain ⟨hlt, hle⟩ := hpoint
    rcases fdRead_cases hstep with ⟨rfl, -⟩ | ⟨rd, hrd, hcase⟩
    · exact ha.elim
    have hrdle := (Answer.transfer_le hrd).1
    have htr := toInt_le tr
    have htr' := toInt_le (tr + rd)
    rcases hcase with ⟨rfl, rfl⟩ | ⟨-, -, rfl⟩ | ⟨-, -, rfl⟩
    · exact behind_gotRead hdest (by omega) (by omega) hle
    · refine ⟨hdest, ?_, ?_⟩
      · change s.destOff + (tr + rd) < s.srcOff + rd
        omega
      · change s.srcOff + rd ≤ src.length
        omega
    · refine behind_gotRead (s := s.readBytes src rd) hdest ?_ ?_ ?_
      · change (s.destOff : ℤ) + _ < ((s.srcOff + rd : ℕ) : ℤ)
        omega
      · change s.destOff < s.srcOff + rd
        omega
      · change s.srcOff + rd ≤ src.length
        omega
  | write nr tw =>
    simp only [hpc] at hstep hpoint
    obtain ⟨rfl, hpos, hlt, hle⟩ := hpoint
    rcases fdWrite_cases hstep with ⟨rfl, -⟩ | ⟨wr, hwr, hcase⟩
    · exact ha.elim
    rcases Answer.transfer_cases hwr with ⟨rfl, hr⟩ | ⟨k, rfl, -⟩ | ⟨-, hr⟩
    · obtain rfl : wr = nr := Option.some.inj hr
      rcases hcase with ⟨hlt', -⟩ | ⟨-, rfl⟩
      · omega
      -- beyond what has been written the file is the old one
      have hdest' : ∀ p, (s.writeBytes wr).destOff ≤ p →
          (s.writeBytes wr).dest[p]? = e[p]? := by
        intro p hp
        change s.destOff + wr ≤ p at hp
        rw [Copy.writeBytes, getElem?_overwrite_of_ge (by rw [length_slice]; exact hp)]
        exact hdest p (by omega)
      rcases Copy.gotWrite_cases (toInt (0 + wr)) (s.writeBytes wr) with ⟨-, heq⟩ | ⟨-, heq⟩ <;>
        rw [heq]
      · refine ⟨hdest', Or.inl ?_⟩
        change s.destOff + wr < src.length
        omega
      · exact ⟨hdest', hlt, hle⟩
    · exact ha.elim
    · exact absurd hr (by simp)
  | ret v =>
    simp only [hpc] at hstep
    exact absurd hstep (by simp)

/-- **What is gone stays gone.** -/
theorem Gone.step (hsrc : src.Nodup) (he : ∀ x ∈ e, x ∉ src) (hn : 1 ≤ n) (h : Gone src e s)
    (hstep : docopy src n s a = some t) : Gone src e t := by
  rcases h with ⟨v, -, hpc⟩ | ⟨p, hp⟩ | hcut
  · rw [docopy, hpc] at hstep
    exact absurd hstep (by simp)
  · exact Or.inr (Or.inl ⟨p, hp.step hsrc hn hstep⟩)
  · exact hcut.step hsrc he hstep

end Steps

/-! ### Whole runs -/

section Runs

variable [Zero α]

/-- **A whole run**: it stays on the course as long as the answers are full and
the blocks fit an `int`; otherwise it leaves the course for good. -/
theorem tracks_run (hn : 1 ≤ n) : ∀ {as : List Answer} {s t : Copy α}, Tracks src e n s →
    run (docopy src n) s as = some t →
    ((∀ a ∈ as, a.IsFull) ∧ Tracks src e n t) ∨
      (((∀ a ∈ as, a.IsFull) → 2 ^ 31 ≤ min n src.length) ∧
        (src.Nodup → (∀ x ∈ e, x ∉ src) → Gone src e t) ∧
        ((∀ a ∈ as, a.FullTransfer) → Behind src e t))
  | [], s, t, hs, h => by
    obtain rfl : s = t := by simpa using h
    exact Or.inl ⟨by simp, hs⟩
  | a :: as, s, t, hs, h => by
    obtain ⟨u, hu, hrest⟩ := run_cons_eq_some.mp h
    rcases hs.step hn hu with ⟨ha, hu'⟩ | ⟨hbig, hgone, hbehind⟩
    · rcases tracks_run hn hu' hrest with ⟨has, ht⟩ | ⟨hbig, hgone, hbehind⟩
      · exact Or.inl ⟨List.forall_mem_cons.mpr ⟨ha, has⟩, ht⟩
      · exact Or.inr ⟨fun hall => hbig (List.forall_mem_cons.mp hall).2, hgone,
          fun hall => hbehind (List.forall_mem_cons.mp hall).2⟩
    · refine Or.inr ⟨fun hall => hbig (List.forall_mem_cons.mp hall).1, fun hsrc he => ?_,
        fun hall => ?_⟩
      · exact run_invariant (fun _ _ _ hg hst => hg.step hsrc he hn hst) (hgone hsrc he) hrest
      · obtain ⟨ha, has⟩ := List.forall_mem_cons.mp hall
        exact (every_of_forall has _).invariant (fun _ _ _ hb hfull hst => hb.step hfull hst)
          (hbehind ha) hrest

/-- **The full run**: when every answer is full and the blocks fit an `int`, the
copy is right at every point of the run. -/
theorem tracks_of_full (hn : 1 ≤ n) {as : List Answer} (has : ∀ a ∈ as, a.IsFull)
    (hfits : min n src.length < 2 ^ 31) {heap : ℕ → α}
    (h : run (docopy src n) (Copy.start e heap) as = some t) : Tracks src e n t := by
  rcases tracks_run hn (tracks_start src e n heap) h with ⟨-, ht⟩ | ⟨hbig, -⟩
  · exact ht
  · have := hbig has
    omega

omit [Zero α] in
/-- What a copy that was right all along has done when it returns. -/
theorem Tracks.dest_of_ret (h : Tracks src e n s) {v : ℤ} (hpc : s.pc = .ret v) :
    s.dest = src ++ e.drop src.length := by
  have hpoint := h.point
  rw [hpc] at hpoint
  rw [h.dest_eq, hpoint.2.1, List.take_length]

/-- How many calls a copy on the course still makes at most: three for each block,
and the first two. -/
def callsLeft (src : List α) (s : Copy α) : ℕ :=
  3 * (src.length - s.destOff) + match s.pc with
    | .stat => 5
    | .malloc => 4
    | .read tr => if tr = 0 then 3 else 2
    | .write _ _ => 1
    | .ret _ => 0

omit [Zero α] in
theorem callsLeft_gotRead_lt (src : List α) (s : Copy α) (nr : ℤ) :
    callsLeft src (s.gotRead nr) < 3 * (src.length - s.destOff) + 2 := by
  rcases Copy.gotRead_cases nr s with ⟨-, heq⟩ | ⟨-, heq⟩ | ⟨-, heq⟩ <;> rw [heq] <;>
    simp [callsLeft]

/-- **A copy on the course can go on until it returns**, by a call that does all it
can and leaves fewer to be made. -/
theorem Tracks.progress (hn : 1 ≤ n) (hfits : min n src.length < 2 ^ 31) (h : Tracks src e n s)
    (hrun : ∀ v, s.pc ≠ .ret v) :
    ∃ a t, a.IsFull ∧ docopy src n s a = some t ∧ Tracks src e n t ∧
      callsLeft src t < callsLeft src s := by
  -- a full answer leaves the course only when a block is too large
  have hkeep : ∀ {a t}, a.IsFull → docopy src n s a = some t → Tracks src e n t := by
    intro a t ha hst
    rcases h.step hn hst with ⟨-, ht⟩ | ⟨hbig, -⟩
    · exact ht
    · exact absurd (hbig ha) (by omega)
  have hpoint := h.point
  cases hpc : s.pc with
  | stat =>
    have hst : docopy src n s .ok = some { s with pc := .malloc } := by rw [docopy, hpc]; rfl
    refine ⟨.ok, _, Or.inl rfl, hst, hkeep (Or.inl rfl) hst, ?_⟩
    simp [callsLeft, hpc]
  | malloc =>
    have hst : docopy src n s .ok = some { s with pc := .read 0 } := by rw [docopy, hpc]; rfl
    refine ⟨.ok, _, Or.inl rfl, hst, hkeep (Or.inl rfl) hst, ?_⟩
    simp [callsLeft, hpc]
  | read tr =>
    rw [hpc] at hpoint
    obtain ⟨hoff, hofflen, hrest⟩ := hpoint
    obtain ⟨t, hst⟩ : ∃ t, docopy src n s .full = some t := by rw [docopy, hpc]; exact ⟨_, rfl⟩
    refine ⟨.full, t, Or.inr rfl, hst, hkeep (Or.inr rfl) hst, ?_⟩
    rw [docopy, hpc] at hst
    have hleft : callsLeft src s = 3 * (src.length - s.destOff) + if tr = 0 then 3 else 2 := by
      rw [callsLeft, hpc]
    have hle : 3 * (src.length - s.destOff) + 2 ≤ callsLeft src s := by
      rw [hleft]
      split_ifs <;> omega
    rcases fdRead_cases hst with ⟨ha, -⟩ | ⟨rd, hrd, hcase⟩
    · exact absurd ha (by decide)
    rcases hcase with ⟨-, rfl⟩ | ⟨hpos, -, rfl⟩ | ⟨-, -, rfl⟩
    · exact lt_of_lt_of_le (callsLeft_gotRead_lt src s _) hle
    · -- a second read of the block is made at the end of the file only
      have htr : tr = 0 := by
        by_contra hne
        have hrdle := (Answer.transfer_le hrd).1
        obtain ⟨-, hend, -⟩ := hrest hne
        omega
      have hne : ¬tr + rd = 0 := by omega
      rw [hleft, if_pos htr]
      simp only [callsLeft, if_neg hne]
      exact Nat.lt_succ_self _
    · exact lt_of_lt_of_le (callsLeft_gotRead_lt src (s.readBytes src rd) _) hle
  | write nr tw =>
    rw [hpc] at hpoint
    obtain ⟨rfl, hpos, -, hnr, -⟩ := hpoint
    obtain ⟨t, hst⟩ : ∃ t, docopy src n s .full = some t := by rw [docopy, hpc]; exact ⟨_, rfl⟩
    refine ⟨.full, t, Or.inr rfl, hst, hkeep (Or.inr rfl) hst, ?_⟩
    rw [docopy, hpc] at hst
    have hleft : callsLeft src s = 3 * (src.length - s.destOff) + 1 := by rw [callsLeft, hpc]
    rcases fdWrite_cases hst with ⟨ha, -⟩ | ⟨wr, hwr, hcase⟩
    · exact absurd ha (by decide)
    obtain rfl : nr = wr := by simpa [Answer.transfer] using hwr
    have hmove : (s.writeBytes nr).destOff = s.destOff + nr := rfl
    rcases hcase with ⟨hlt, -⟩ | ⟨-, rfl⟩
    · omega
    · rw [hleft]
      rcases Copy.gotWrite_cases (toInt (0 + nr)) (s.writeBytes nr) with ⟨-, heq⟩ | ⟨-, heq⟩ <;>
        rw [heq] <;> simp only [callsLeft, hmove, if_true] <;> omega
  | ret v => exact absurd hpc (hrun v)

/-- **Every full run can be brought to the return of `docopy`**, by calls that do all
they can. -/
theorem Tracks.exists_run (hn : 1 ≤ n) (hfits : min n src.length < 2 ^ 31)
    (h : Tracks src e n s) :
    ∃ as t, (∀ a ∈ as, a.IsFull) ∧ run (docopy src n) s as = some t ∧ t.pc = .ret 0 := by
  have hend : ∃ as t, Every (docopy src n) (fun _ a => a.IsFull) s as ∧
      run (docopy src n) s as = some t ∧ Tracks src e n t ∧ ∃ v, t.pc = .ret v := by
    refine exists_run_of_measure (callsLeft src) (fun s hs hrun => ?_) s h
    obtain ⟨a, t, ha, hst, ht, hlt⟩ := hs.progress hn hfits fun v hv => hrun ⟨v, hv⟩
    exact ⟨a, t, ha, hst, ht, hlt⟩
  obtain ⟨as, t, hG, hrun, ht, v, hpc⟩ := hend
  refine ⟨as, t, forall_of_every hG hrun, hrun, ?_⟩
  have hpoint := ht.point
  rw [hpc] at hpoint ⊢
  rw [hpoint.1]

end Runs

/-! ### The run on the labels -/

/-- The start of a copy on the labels. -/
def startLabels (M : ℕ) : Copy Label := Copy.start (Label.oldList M) (Label.heap 0 0)

/-- **Every run is the run on the labels, with the bytes put back.** -/
theorem run_eq_map_labels [Zero α] (src e : List α) (n : ℕ) (heap : ℕ → α) (as : List Answer) :
    run (docopy src n) (Copy.start e heap) as =
      (run (docopy (Label.srcList src.length) n) (startLabels e.length) as).map
        (Copy.map (Label.unlabel src e fun _ _ => heap)) := by
  have h := run_map (fun s a => docopy_map (φ := Label.unlabel src e fun _ _ => heap) rfl
    (Label.srcList src.length) n s a) (startLabels e.length) as
  rwa [startLabels, Copy.map_start, Label.map_srcList, Label.map_oldList] at h

/-! ### Exactly when the copy is right -/

section Exact

variable {L M : ℕ} {as : List Answer}

/-- The answers make `docopy` return 0 on some source of `L` bytes, over some old
destination of `M` bytes. On which ones does not matter. -/
def Returns (n L M : ℕ) (as : List Answer) : Prop :=
  ∃ (src e : List UInt8) (heap : ℕ → UInt8) (s : Copy UInt8), src.length = L ∧ e.length = M ∧
    run (docopy src n) (Copy.start e heap) as = some s ∧ s.pc = .ret 0

/-- Answers that make `docopy` return 0 do so on the labels. -/
theorem Returns.labels (h : Returns n L M as) :
    ∃ t, run (docopy (Label.srcList L) n) (startLabels M) as = some t ∧ t.pc = .ret 0 := by
  obtain ⟨src, e, heap, s, rfl, rfl, hrun, hpc⟩ := h
  rw [run_eq_map_labels src e n heap as] at hrun
  obtain ⟨t, ht, rfl⟩ := Option.map_eq_some_iff.mp hrun
  exact ⟨t, ht, hpc⟩

/-- Answers that make `docopy` return 0 do so on every source and destination of
these lengths. -/
theorem Returns.pc_eq (h : Returns n L M as) {src e : List UInt8} {heap : ℕ → UInt8}
    {s : Copy UInt8} (hsrc : src.length = L) (he : e.length = M)
    (hrun : run (docopy src n) (Copy.start e heap) as = some s) : s.pc = .ret 0 := by
  obtain ⟨t, ht, hpc⟩ := h.labels
  subst hsrc he
  rw [run_eq_map_labels src e n heap as, ht] at hrun
  obtain rfl := Option.some.inj hrun
  exact hpc

/-- **The bytes betray a copy that is gone**: there is a source on which the
destination is wrong. -/
theorem exists_dest_ne (hn : 1 ≤ n) (h : Returns n L M as)
    (hcond : ¬((∀ a ∈ as, a.IsFull) ∧ min n L < 2 ^ 31)) :
    ∃ (src e : List UInt8) (heap : ℕ → UInt8) (s : Copy UInt8), src.length = L ∧ e.length = M ∧
      run (docopy src n) (Copy.start e heap) as = some s ∧ s.dest ≠ src := by
  obtain ⟨t, ht, hpc⟩ := h.labels
  rcases tracks_run hn (tracks_start _ _ n _) ht with ⟨has, htr⟩ | ⟨-, hgone, -⟩
  · have hpoint := htr.point
    rw [hpc] at hpoint
    exact absurd ⟨has, Label.length_srcList L ▸ hpoint.2.2⟩ hcond
  · rcases hgone (Label.nodup_srcList L) (Label.notMem_srcList L M) with
      ⟨v, hv, hpc'⟩ | ⟨p, hp⟩ | ⟨nr, hpc', -⟩
    · rw [hpc] at hpc'
      cases hpc'
      exact absurd hv (by omega)
    · -- only the byte at `p` is 1, and it is the only one that can be
      have hlt : p < L := Label.length_srcList L ▸ hp.lt_length
      have hmap := run_map (fun s a => docopy_map (Label.mark_zero p) (Label.srcList L) n s a)
        (startLabels M) as
      rw [ht] at hmap
      refine ⟨(Label.srcList L).map (Label.mark p), (Label.oldList M).map (Label.mark p),
        fun j => Label.mark p (.heap 0 0 j), t.map (Label.mark p), by simp, by simp, hmap,
        fun heq => ?_⟩
      exact Label.getElem?_map_mark_ne hlt hp.ne (congrArg (fun l : List UInt8 => l[p]?) heq)
    · rw [hpc] at hpc'
      cases hpc'

/-- **Over an old destination**: when `docopy` returns 0, it has copied whatever
source into whatever destination of these lengths exactly if every answer was
full, the blocks fit an `int`, and the old destination was not longer. -/
theorem copies_iff (hn : 1 ≤ n) (h : Returns n L M as) :
    (∀ (src e : List UInt8) (heap : ℕ → UInt8) (s : Copy UInt8), src.length = L →
        e.length = M → run (docopy src n) (Copy.start e heap) as = some s →
        s.dest = src ∧ ∀ c ∈ s.handed, c ≤ n) ↔
      (∀ a ∈ as, a.IsFull) ∧ min n L < 2 ^ 31 ∧ M ≤ L := by
  constructor
  · intro hall
    have hcond : (∀ a ∈ as, a.IsFull) ∧ min n L < 2 ^ 31 := by
      by_contra hcond
      obtain ⟨src, e, heap, s, hsrc, he, hrun, hne⟩ := exists_dest_ne hn h hcond
      exact hne (hall src e heap s hsrc he hrun).1
    refine ⟨hcond.1, hcond.2, ?_⟩
    obtain ⟨src, e, heap, s, rfl, rfl, hrun, hpc⟩ := h
    have hdest := (hall src e heap s rfl rfl hrun).1
    rw [(tracks_of_full hn hcond.1 hcond.2 hrun).dest_of_ret hpc] at hdest
    have hlen := congrArg List.length hdest
    rw [List.length_append, List.length_drop] at hlen
    omega
  · rintro ⟨has, hfits, hML⟩ src e heap s rfl rfl hrun
    have htr := tracks_of_full hn has hfits hrun
    refine ⟨?_, htr.handed_le⟩
    rw [htr.dest_of_ret (h.pc_eq rfl rfl hrun), List.drop_eq_nil_of_le hML, List.append_nil]

/-- **When `simpcp2` copies**: into an empty destination, when `docopy` returns 0,
every source of `L` bytes arrives unchanged – and no count beyond the buffer is
handed to `fd_write` – exactly if every answer was full and the blocks fit an
`int`. -/
theorem docopy_copies_iff_full (hn : 1 ≤ n) (h : Returns n L 0 as) :
    (∀ (src : List UInt8) (heap : ℕ → UInt8) (s : Copy UInt8), src.length = L →
        run (docopy src n) (Copy.start [] heap) as = some s →
        s.dest = src ∧ ∀ c ∈ s.handed, c ≤ n) ↔
      (∀ a ∈ as, a.IsFull) ∧ min n L < 2 ^ 31 := by
  constructor
  · intro hall
    obtain ⟨has, hfits, -⟩ := (copies_iff hn h).mp fun src e heap s hsrc he hrun => by
      obtain rfl := List.length_eq_zero_iff.mp he
      exact hall src heap s hsrc hrun
    exact ⟨has, hfits⟩
  · rintro ⟨has, hfits⟩ src heap s hsrc hrun
    exact (copies_iff hn h).mpr ⟨has, hfits, Nat.zero_le _⟩ src [] heap s hsrc rfl hrun

/-- The answers of a run in which every call does all it can. -/
theorem docopy_copies_iff_full_at :
    (∀ (src : List UInt8) (heap : ℕ → UInt8) (s : Copy UInt8), src.length = 3 →
        run (docopy src 2) (Copy.start [] heap)
          [.ok, .ok, .full, .full, .full, .full, .full, .full] = some s →
        s.dest = src ∧ ∀ c ∈ s.handed, c ≤ 2) ↔
      (∀ a ∈ [Answer.ok, .ok, .full, .full, .full, .full, .full, .full], a.IsFull) ∧
        min 2 3 < 2 ^ 31 :=
  docopy_copies_iff_full (by decide)
    ⟨[1, 2, 3], [], fun _ => 0, _, rfl, rfl, rfl, rfl⟩

/-- **One short read is enough**: a block of 2 bytes is read as 1 byte and then 2
more, 3 bytes are handed to `fd_write` for a buffer of 2, and the first byte of
the source is lost. -/
theorem docopy_short_read :
    ∃ s : Copy UInt8, run (docopy [1, 2, 3] 2) (Copy.start [] fun _ => 0)
        [.ok, .ok, .short 1, .full, .full, .full] = some s ∧
      s.pc = .ret 0 ∧ s.dest = [2, 3, 0] ∧ s.dest ≠ [1, 2, 3] ∧ s.handed = [3] :=
  ⟨_, rfl, rfl, by decide, by decide, rfl⟩

end Exact

end Simpcp2

end SystemProgramming
