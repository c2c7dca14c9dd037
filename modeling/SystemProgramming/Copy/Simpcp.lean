import SystemProgramming.Bytes
import SystemProgramming.Copy.Wrappers
import SystemProgramming.Runs

/-!
# The sequential copiers

`docopy` of `simpcp1` and of `simpcp2` (`A_fileio/`), one step per call they
make. The state holds what the calls read and write: the two file offsets, the
block buffer, the destination file, and – for the statements only – the byte
counts handed to `fd_write`.

The source file is a parameter, and so is `n`, the block size `st_blksize` that
the buffer is allocated with. Between two calls the code is straight, so a
control point (`SystemProgramming.Simpcp.Pc`) is “about to make this call”, with
the loop variables that are live there.

The two programs differ in how they transfer a block:

* `simpcp1` makes one `read` and one `write`, and believes what they return;
* `simpcp2` calls `fd_read` and `fd_write`, whose loops repeat the call until `n`
  bytes are *counted* – with the same buffer address and the same request every
  time – and return the count through an `int`.

Neither looks at the bytes, and that is a theorem
(`SystemProgramming.Simpcp2.docopy_map`): replacing the bytes by other bytes
commutes with every step. So a run may be studied on a source whose bytes are
all different, whatever the alphabet.
-/

namespace SystemProgramming

open Bytes Wrappers

namespace Simpcp

variable {α : Type*}

/-! ### The state of a copy -/

/-- Where `docopy` stands: about to make a call, or returned. -/
inductive Pc where
  /-- About to call `stat` on the source. -/
  | stat
  /-- About to allocate the block buffer. -/
  | malloc
  /-- About to call `read`, `tr` bytes of the block being counted already. -/
  | read (tr : ℕ)
  /-- About to call `write` for a block of `nr` bytes, `tw` of them counted. -/
  | write (nr tw : ℕ)
  /-- Returned the value `v`. -/
  | ret (v : ℤ)
  deriving DecidableEq, Repr

/-- The state of `docopy`. -/
structure Copy (α : Type*) where
  /-- The control point. -/
  pc : Pc
  /-- The file offset of the source. -/
  srcOff : ℕ
  /-- The file offset of the destination. -/
  destOff : ℕ
  /-- The memory from the address of the block buffer on. -/
  buf : ℕ → α
  /-- The destination file. -/
  dest : List α
  /-- The counts handed to `fd_write` so far. -/
  handed : List ℕ

namespace Copy

/-- `docopy` is called, with `dest` in the destination file and `heap` in the
memory that `malloc` is going to return. -/
def start (dest : List α) (heap : ℕ → α) : Copy α := ⟨.stat, 0, 0, heap, dest, []⟩

/-- `read` put the next `rd` bytes of the source at the start of the buffer. -/
def readBytes (src : List α) (rd : ℕ) (s : Copy α) : Copy α :=
  { s with buf := blit s.buf ((src.drop s.srcOff).take rd), srcOff := s.srcOff + rd }

/-- `write` put the first `wr` bytes of the buffer in the destination. -/
def writeBytes [Zero α] (wr : ℕ) (s : Copy α) : Copy α :=
  { s with dest := overwrite s.dest s.destOff (slice s.buf wr), destOff := s.destOff + wr }

/-- `docopy` between the value `nr` of a block's read and its next call. -/
def gotRead (nr : ℤ) (s : Copy α) : Copy α :=
  if nr < 0 then { s with pc := .ret (-3) }
  else if nr = 0 then { s with pc := .ret 0 }
  else { s with pc := .write nr.toNat 0, handed := s.handed ++ [nr.toNat] }

/-- `docopy` between the value `nw` of a block's write and its next call. -/
def gotWrite (nw : ℤ) (s : Copy α) : Copy α :=
  if nw < 0 then { s with pc := .ret (-4) } else { s with pc := .read 0 }

@[simp] theorem readBytes_zero (src : List α) (s : Copy α) : s.readBytes src 0 = s := by
  have hblit : blit s.buf ([] : List α) = s.buf := funext fun i => blit_of_le _ (Nat.zero_le i)
  simp [readBytes, hblit]

@[simp] theorem writeBytes_zero [Zero α] (s : Copy α) : s.writeBytes 0 = s := by
  simp [writeBytes, overwrite]

/-- The first byte of the buffer, after something was read to it, is the byte
the source offset was at. -/
theorem readBytes_buf_zero {src : List α} {s : Copy α} {rd : ℕ} (hpos : 0 < rd)
    (hle : s.srcOff + rd ≤ src.length) :
    some ((s.readBytes src rd).buf 0) = src[s.srcOff]? := by
  have hlen : 0 < ((src.drop s.srcOff).take rd).length := by
    simp only [List.length_take, List.length_drop]
    omega
  rw [readBytes, blit_of_lt _ hlen, List.getElem?_take, if_pos hpos, List.getElem?_drop,
    Nat.add_zero]

/-- **The three ways on from a block's read**: an error, the end of the file, or
a write of the count that came back. -/
theorem gotRead_cases (nr : ℤ) (s : Copy α) :
    (nr < 0 ∧ s.gotRead nr = { s with pc := .ret (-3) }) ∨
      (nr = 0 ∧ s.gotRead nr = { s with pc := .ret 0 }) ∨
      (0 < nr ∧ s.gotRead nr =
        { s with pc := .write nr.toNat 0, handed := s.handed ++ [nr.toNat] }) := by
  rcases lt_trichotomy nr 0 with h | h | h
  · exact Or.inl ⟨h, by rw [gotRead, if_pos h]⟩
  · exact Or.inr (Or.inl ⟨h, by rw [gotRead, if_neg (by omega), if_pos h]⟩)
  · exact Or.inr (Or.inr ⟨h, by rw [gotRead, if_neg (by omega), if_neg (by omega)]⟩)

/-- **The two ways on from a block's write.** -/
theorem gotWrite_cases (nw : ℤ) (s : Copy α) :
    (nw < 0 ∧ s.gotWrite nw = { s with pc := .ret (-4) }) ∨
      (0 ≤ nw ∧ s.gotWrite nw = { s with pc := .read 0 }) := by
  rcases lt_or_ge nw 0 with h | h
  · exact Or.inl ⟨h, by rw [gotWrite, if_pos h]⟩
  · exact Or.inr ⟨h, by rw [gotWrite, if_neg (by omega)]⟩

end Copy

/-- The call of `stat`, the same in both programs. -/
def statSource (s : Copy α) (a : Answer) : Option (Copy α) :=
  a.status.map fun ok => if ok then { s with pc := .malloc } else { s with pc := .ret (-1) }

/-- The allocation of the block buffer, the same in both programs. -/
def mallocBuf (s : Copy α) (a : Answer) : Option (Copy α) :=
  a.status.map fun ok => if ok then { s with pc := .read 0 } else { s with pc := .ret (-2) }

end Simpcp

open Simpcp

/-! ### `simpcp1` -/

namespace Simpcp1

variable {α : Type*} [Zero α] (src : List α) (n : ℕ)

/-- `docopy` of `simpcp1`: each block is one `read` and one `write`. -/
def docopy (s : Copy α) (a : Answer) : Option (Copy α) :=
  match s.pc with
  | .stat => statSource s a
  | .malloc => mallocBuf s a
  | .read _ => (a.transfer (min n (src.length - s.srcOff))).map fun
    | none => s.gotRead (-1)
    | some nr => (s.readBytes src nr).gotRead nr
  | .write nr _ => (a.transfer nr).map fun
    | none => s.gotWrite (-1)
    | some nw => (s.writeBytes nw).gotWrite nw
  | .ret _ => none

end Simpcp1

/-! ### `simpcp2` -/

namespace Simpcp2

variable {α : Type*} (src : List α) (n : ℕ)

/-- One round of the loop of `fd_read`, called with a request of `n` bytes, and
what `docopy` makes of its value. Every round reads to the start of the buffer
and asks for `n` bytes again. -/
def fdRead (tr : ℕ) (s : Copy α) (a : Answer) : Option (Copy α) :=
  (a.transfer (min n (src.length - s.srcOff))).map fun r =>
    match fdReadRound n tr r with
    | .again tr' => { s.readBytes src (r.getD 0) with pc := .read tr' }
    | .value v => (s.readBytes src (r.getD 0)).gotRead v

variable [Zero α]

/-- One round of the loop of `fd_write`, called with a request of `nr` bytes, and
what `docopy` makes of its value. Every round writes from the start of the
buffer and asks for `nr` bytes again. -/
def fdWrite (nr tw : ℕ) (s : Copy α) (a : Answer) : Option (Copy α) :=
  (a.transfer nr).map fun r =>
    match fdWriteRound nr tw r with
    | .again tw' => { s.writeBytes (r.getD 0) with pc := .write nr tw' }
    | .value v => (s.writeBytes (r.getD 0)).gotWrite v

/-- `docopy` of `simpcp2`: each block is one `fd_read` and one `fd_write`. -/
def docopy (s : Copy α) (a : Answer) : Option (Copy α) :=
  match s.pc with
  | .stat => statSource s a
  | .malloc => mallocBuf s a
  | .read tr => fdRead src n tr s a
  | .write nr tw => fdWrite nr tw s a
  | .ret _ => none

end Simpcp2

/-! ### What a step can do -/

namespace Simpcp

variable {α : Type*} {s t : Copy α} {a : Answer}

theorem statSource_cases (h : statSource s a = some t) :
    (a = .ok ∧ t = { s with pc := .malloc }) ∨ (a = .err ∧ t = { s with pc := .ret (-1) }) := by
  cases a <;> simp_all [statSource, Answer.status]

theorem mallocBuf_cases (h : mallocBuf s a = some t) :
    (a = .ok ∧ t = { s with pc := .read 0 }) ∨ (a = .err ∧ t = { s with pc := .ret (-2) }) := by
  cases a <;> simp_all [mallocBuf, Answer.status]

end Simpcp

namespace Simpcp2

variable {α : Type*} {src : List α} {n : ℕ} {s t : Copy α} {a : Answer}

/-- **One round of `fd_read`**: it fails, or meets the end of the file, or goes
round again, or has counted the block. -/
theorem fdRead_cases {tr : ℕ} (h : fdRead src n tr s a = some t) :
    (a = .fail ∧ t = { s with pc := .ret (-3) }) ∨
      ∃ rd, a.transfer (min n (src.length - s.srcOff)) = some (some rd) ∧
        ((rd = 0 ∧ t = s.gotRead (toInt tr)) ∨
          (0 < rd ∧ tr + rd < n ∧ t = { s.readBytes src rd with pc := .read (tr + rd) }) ∨
          (0 < rd ∧ n ≤ tr + rd ∧ t = (s.readBytes src rd).gotRead (toInt (tr + rd)))) := by
  obtain ⟨r, hr, rfl⟩ := Option.map_eq_some_iff.mp h
  rcases r with _ | rd
  · exact Or.inl ⟨Answer.eq_fail_of_transfer hr, by simp [fdReadRound, Copy.gotRead]⟩
  · refine Or.inr ⟨rd, hr, ?_⟩
    rcases fdReadRound_cases n tr rd with ⟨rfl, heq⟩ | ⟨hpos, hlt, heq⟩ | ⟨hpos, hge, heq⟩ <;>
      rw [heq]
    · exact Or.inl ⟨rfl, by simp⟩
    · exact Or.inr (Or.inl ⟨hpos, hlt, rfl⟩)
    · exact Or.inr (Or.inr ⟨hpos, hge, rfl⟩)

/-- **One round of `fd_write`**: it fails, or goes round again, or has counted
the block. -/
theorem fdWrite_cases [Zero α] {nr tw : ℕ} (h : fdWrite nr tw s a = some t) :
    (a = .fail ∧ t = { s with pc := .ret (-4) }) ∨
      ∃ wr, a.transfer nr = some (some wr) ∧
        ((tw + wr < nr ∧ t = { s.writeBytes wr with pc := .write nr (tw + wr) }) ∨
          (nr ≤ tw + wr ∧ t = (s.writeBytes wr).gotWrite (toInt (tw + wr)))) := by
  obtain ⟨r, hr, rfl⟩ := Option.map_eq_some_iff.mp h
  rcases r with _ | wr
  · exact Or.inl ⟨Answer.eq_fail_of_transfer hr, by simp [fdWriteRound, Copy.gotWrite]⟩
  · refine Or.inr ⟨wr, hr, ?_⟩
    rcases fdWriteRound_cases nr tw wr with ⟨hlt, heq⟩ | ⟨hge, heq⟩ <;> rw [heq]
    · exact Or.inl ⟨hlt, rfl⟩
    · exact Or.inr ⟨hge, rfl⟩

end Simpcp2

/-! ### The copiers do not look at the bytes -/

namespace Simpcp

variable {α β : Type*}

/-- The same state, with the bytes replaced. -/
def Copy.map (φ : α → β) (s : Copy α) : Copy β :=
  { pc := s.pc, srcOff := s.srcOff, destOff := s.destOff, buf := fun i => φ (s.buf i),
    dest := s.dest.map φ, handed := s.handed }

variable {φ : α → β}

@[simp] theorem Copy.map_start (dest : List α) (heap : ℕ → α) :
    (Copy.start dest heap).map φ = Copy.start (dest.map φ) fun i => φ (heap i) := rfl

theorem Copy.map_readBytes (src : List α) (rd : ℕ) (s : Copy α) :
    (s.map φ).readBytes (src.map φ) rd = (s.readBytes src rd).map φ := by
  simp only [Copy.readBytes, Copy.map, ← List.map_drop, ← List.map_take, blit_map]

theorem Copy.map_writeBytes [Zero α] [Zero β] (hφ : φ 0 = 0) (wr : ℕ) (s : Copy α) :
    (s.map φ).writeBytes wr = (s.writeBytes wr).map φ := by
  simp only [Copy.writeBytes, Copy.map, slice_map, overwrite_map hφ]

theorem Copy.map_gotRead (nr : ℤ) (s : Copy α) :
    (s.map φ).gotRead nr = (s.gotRead nr).map φ := by
  rw [Copy.gotRead, Copy.gotRead]
  split_ifs <;> rfl

theorem Copy.map_gotWrite (nw : ℤ) (s : Copy α) :
    (s.map φ).gotWrite nw = (s.gotWrite nw).map φ := by
  rw [Copy.gotWrite, Copy.gotWrite]
  split_ifs <;> rfl

theorem statSource_map (s : Copy α) (a : Answer) :
    statSource (s.map φ) a = (statSource s a).map (Copy.map φ) := by
  cases a <;> rfl

theorem mallocBuf_map (s : Copy α) (a : Answer) :
    mallocBuf (s.map φ) a = (mallocBuf s a).map (Copy.map φ) := by
  cases a <;> rfl

end Simpcp

namespace Simpcp2

variable {α β : Type*} {φ : α → β}

theorem fdRead_map (src : List α) (n tr : ℕ) (s : Copy α) (a : Answer) :
    fdRead (src.map φ) n tr (s.map φ) a = (fdRead src n tr s a).map (Copy.map φ) := by
  have hsrc : (s.map φ).srcOff = s.srcOff := rfl
  rw [fdRead, fdRead, List.length_map, hsrc]
  rcases a.transfer (min n (src.length - s.srcOff)) with _ | r
  · rfl
  · simp only [Option.map_some, Copy.map_readBytes, Copy.map_gotRead]
    cases fdReadRound n tr r <;> rfl

theorem fdWrite_map [Zero α] [Zero β] (hφ : φ 0 = 0) (nr tw : ℕ) (s : Copy α) (a : Answer) :
    fdWrite nr tw (s.map φ) a = (fdWrite nr tw s a).map (Copy.map φ) := by
  rw [fdWrite, fdWrite]
  rcases a.transfer nr with _ | r
  · rfl
  · simp only [Option.map_some, Copy.map_writeBytes hφ, Copy.map_gotWrite]
    cases fdWriteRound nr tw r <;> rfl

/-- **Replacing the bytes commutes with every step of `docopy`.** -/
theorem docopy_map [Zero α] [Zero β] (hφ : φ 0 = 0) (src : List α) (n : ℕ) (s : Copy α)
    (a : Answer) : docopy (src.map φ) n (s.map φ) a = (docopy src n s a).map (Copy.map φ) := by
  have hpc : (s.map φ).pc = s.pc := rfl
  rw [docopy, docopy, hpc]
  cases s.pc with
  | stat => exact statSource_map s a
  | malloc => exact mallocBuf_map s a
  | read tr => exact fdRead_map src n tr s a
  | write nr tw => exact fdWrite_map hφ nr tw s a
  | ret v => rfl

end Simpcp2

end SystemProgramming
