import Mathlib.Algebra.Ring.Int.Defs
import Mathlib.Algebra.Ring.Nat
import Mathlib.Data.UInt
import Mathlib.Order.MinMax

/-!
# What a call answers, what a pointer points to, and what an `int` keeps

Five pieces of the machine below a C program, none of which mentions one.

* **The kernel's answers.** A call that moves no data succeeds or fails; a call
  that transfers data moves all it can, or less, or fails. An answer is given
  *relative* to what the call could transfer at most – the request, and for a
  read the bytes left before the end of the file – so that “every transfer is
  full” is a condition on the answers alone
  (`SystemProgramming.Answer.transfer`). A full read at the end of the file
  transfers nothing, and a short transfer always moves something.
* **Pointers.** A pointer to allocated memory is NULL, or its memory is there, or it
  has been freed (`SystemProgramming.Buf`); freeing it a second time has no result.
* **Conversion to `int`.** A `size_t` returned through an `int` keeps its low 32
  bits, read as a two's-complement number (`SystemProgramming.toInt`): the value
  survives below `2 ^ 31`, and from there on it may come out negative or zero.
* **Sums of type `long`.** They wrap round at 64 bits: a sum is what it should be, or
  off by `2 ^ 64` (`SystemProgramming.long_add_cases`).
* **Unsigned numbers read as signed ones, and back.** The upper half of them comes out negative
  (`SystemProgramming.toInt_ofNat_eq_iff`, `SystemProgramming.toInt_toInt32_cases`), and the
  negative ones as the upper half (`SystemProgramming.toNat_toUInt64`).
-/

namespace SystemProgramming

/-! ### Answers -/

/-- What the kernel, or the C library, answers to one call. -/
inductive Answer where
  /-- A call that transfers no data succeeded. -/
  | ok
  /-- A call that transfers no data failed. -/
  | err
  /-- A read or a write transferred all it could. -/
  | full
  /-- A read or a write transferred `k` bytes, and could have transferred more. -/
  | short (k : ℕ)
  /-- A read or a write failed. -/
  | fail
  deriving DecidableEq, Repr

namespace Answer

/-- The answer to a read or a write that could transfer at most `most` bytes:
`some (some k)` when `k` bytes went through, `some none` when the call failed,
`none` when the kernel does not answer so. -/
def transfer (most : ℕ) : Answer → Option (Option ℕ)
  | full => some (some most)
  | short k => if 0 < k ∧ k < most then some (some k) else none
  | fail => some none
  | _ => none

/-- The answer to a call that transfers no data: whether it succeeded. -/
def status : Answer → Option Bool
  | ok => some true
  | err => some false
  | _ => none

/-- The answers a program meets when nothing fails and nothing is short. -/
def IsFull (a : Answer) : Prop := a = ok ∨ a = full

instance : DecidablePred IsFull := fun a => inferInstanceAs (Decidable (a = ok ∨ a = full))

/-- The answers to transfers are full; the other calls may answer anything. -/
def FullTransfer : Answer → Prop
  | short _ => False
  | fail => False
  | _ => True

/-- Calls succeed or fail, and no transfer is short. -/
def Whole : Answer → Prop
  | short _ => False
  | _ => True

instance : DecidablePred FullTransfer := fun a => by
  cases a <;> unfold FullTransfer <;> infer_instance

instance : DecidablePred Whole := fun a => by cases a <;> unfold Whole <;> infer_instance

theorem IsFull.ne_err {a : Answer} (h : a.IsFull) : a ≠ err := by
  rcases h with rfl | rfl <;> simp

theorem IsFull.whole {a : Answer} (h : a.IsFull) : a.Whole := by
  rcases h with rfl | rfl <;> trivial

theorem FullTransfer.whole {a : Answer} (h : a.FullTransfer) : a.Whole := by
  cases a with
  | short k => exact h
  | _ => trivial

/-- **The three ways a transfer can go.** -/
theorem transfer_cases {a : Answer} {most : ℕ} {r : Option ℕ} (h : a.transfer most = some r) :
    (a = full ∧ r = some most) ∨ (∃ k, a = short k ∧ 0 < k ∧ k < most ∧ r = some k) ∨
      (a = fail ∧ r = none) := by
  cases a with
  | ok => simp [transfer] at h
  | err => simp [transfer] at h
  | full =>
    refine Or.inl ⟨rfl, ?_⟩
    simpa [transfer] using h.symm
  | short k =>
    rw [transfer] at h
    split_ifs at h with hk
    exact Or.inr (Or.inl ⟨k, rfl, hk.1, hk.2, by simpa using h.symm⟩)
  | fail =>
    refine Or.inr (Or.inr ⟨rfl, ?_⟩)
    simpa [transfer] using h.symm

/-- Only a failure transfers nothing at all. -/
theorem eq_fail_of_transfer {a : Answer} {most : ℕ} (h : a.transfer most = some none) :
    a = fail := by
  rcases transfer_cases h with ⟨-, hr⟩ | ⟨k, -, -, -, hr⟩ | ⟨ha, -⟩
  · exact absurd hr (by simp)
  · exact absurd hr (by simp)
  · exact ha

/-- A transfer never moves more than it could, and moves something whenever it
could. -/
theorem transfer_le {a : Answer} {most k : ℕ} (h : a.transfer most = some (some k)) :
    k ≤ most ∧ (0 < most → 0 < k) := by
  rcases transfer_cases h with ⟨-, hr⟩ | ⟨j, -, hpos, hlt, hr⟩ | ⟨-, hr⟩
  · obtain rfl : k = most := Option.some.inj hr
    exact ⟨le_refl _, id⟩
  · obtain rfl : k = j := Option.some.inj hr
    exact ⟨hlt.le, fun _ => hpos⟩
  · exact absurd hr (by simp)

/-- A transfer of all that could be moved is a full one. -/
theorem isFull_of_le {a : Answer} {most k : ℕ} (h : a.transfer most = some (some k))
    (hk : most ≤ k) : a.IsFull := by
  rcases transfer_cases h with ⟨rfl, -⟩ | ⟨j, -, -, hlt, hr⟩ | ⟨-, hr⟩
  · exact Or.inr rfl
  · obtain rfl : k = j := Option.some.inj hr
    exact absurd hk (not_le.mpr hlt)
  · exact absurd hr (by simp)

theorem status_cases {a : Answer} {b : Bool} (h : a.status = some b) :
    (a = ok ∧ b = true) ∨ (a = err ∧ b = false) := by
  cases a <;> simp_all [status]

end Answer

/-! ### Pointers -/

/-- What a pointer to allocated memory points to. -/
inductive Buf where
  /-- Nothing: it is NULL. -/
  | null
  /-- Memory that is there. -/
  | live
  /-- Memory that has been freed. -/
  | freed
  deriving DecidableEq, Repr

/-- `free` of a pointer: it does nothing to NULL, and what a second `free` does is left
open. -/
def Buf.free : Buf → Option Buf
  | .null => some .null
  | .live => some .freed
  | .freed => none

/-- Memory that has been given to `free` is not there any more. -/
theorem Buf.ne_live_of_free {b b' : Buf} (h : b.free = some b') : b' ≠ .live := by
  cases b <;> simp only [Buf.free, Option.some.injEq, reduceCtorEq] at h <;> simp [← h]

/-! ### Conversion to `int` -/

/-- What an `int` keeps of a `size_t`: its low 32 bits, in two's complement. -/
def toInt (x : ℕ) : ℤ :=
  if x % 2 ^ 32 < 2 ^ 31 then ((x % 2 ^ 32 : ℕ) : ℤ) else ((x % 2 ^ 32 : ℕ) : ℤ) - 2 ^ 32

/-- **Below `2 ^ 31` nothing is lost.** -/
theorem toInt_of_lt {x : ℕ} (h : x < 2 ^ 31) : toInt x = x := by
  rw [toInt]
  split_ifs <;> omega

/-- What an `int` keeps never exceeds the value. -/
theorem toInt_le (x : ℕ) : toInt x ≤ x := by
  rw [toInt]
  split_ifs <;> omega

/-- Below `2 ^ 32`, what an `int` keeps is the value or is negative. -/
theorem toInt_eq_of_nonneg {x : ℕ} (h : x < 2 ^ 32) (hpos : 0 ≤ toInt x) : toInt x = x := by
  rw [toInt] at hpos ⊢
  split_ifs at hpos ⊢ <;> omega

/-- From `2 ^ 31` on, what an `int` keeps is smaller than the value. -/
theorem toInt_lt_of_le {x : ℕ} (h : 2 ^ 31 ≤ x) : toInt x < x := by
  rw [toInt]
  split_ifs <;> omega

/-! ### Sums of type `long` -/

/-- What 64 bits keep of a sum or a difference of two that they can hold. -/
theorem bmod_cases {x : ℤ} (hlow : -2 ^ 64 ≤ x) (hhigh : x < 2 ^ 64) :
    (-2 ^ 63 ≤ x ∧ x < 2 ^ 63 ∧ x.bmod (2 ^ 64) = x) ∨
      (2 ^ 63 ≤ x ∧ x.bmod (2 ^ 64) = x - 2 ^ 64) ∨
      (x < -2 ^ 63 ∧ x.bmod (2 ^ 64) = x + 2 ^ 64) := by
  have hcast : ((2 ^ 64 : ℕ) : ℤ) = 18446744073709551616 := rfl
  rw [Int.bmod_def, hcast]
  split_ifs <;> omega

/-- **A sum is what it should be, or has wrapped round.** -/
theorem long_add_cases (a b : Int64) :
    (-2 ^ 63 ≤ a.toInt + b.toInt ∧ a.toInt + b.toInt < 2 ^ 63 ∧ (a + b).toInt = a.toInt + b.toInt) ∨
      (2 ^ 63 ≤ a.toInt + b.toInt ∧ (a + b).toInt = a.toInt + b.toInt - 2 ^ 64) ∨
      (a.toInt + b.toInt < -2 ^ 63 ∧ (a + b).toInt = a.toInt + b.toInt + 2 ^ 64) := by
  have ha := a.le_toInt
  have ha' := a.toInt_lt
  have hb := b.le_toInt
  have hb' := b.toInt_lt
  rw [Int64.toInt_add]
  exact bmod_cases (by omega) (by omega)

/-- **A difference is what it should be, or has wrapped round.** -/
theorem long_sub_cases (a b : Int64) :
    (-2 ^ 63 ≤ a.toInt - b.toInt ∧ a.toInt - b.toInt < 2 ^ 63 ∧ (a - b).toInt = a.toInt - b.toInt) ∨
      (2 ^ 63 ≤ a.toInt - b.toInt ∧ (a - b).toInt = a.toInt - b.toInt - 2 ^ 64) ∨
      (a.toInt - b.toInt < -2 ^ 63 ∧ (a - b).toInt = a.toInt - b.toInt + 2 ^ 64) := by
  have ha := a.le_toInt
  have ha' := a.toInt_lt
  have hb := b.le_toInt
  have hb' := b.toInt_lt
  rw [Int64.toInt_sub]
  exact bmod_cases (by omega) (by omega)

/-! ### Unsigned numbers as signed ones -/

/-- An `unsigned long long` read as a `long long` is the same below `2 ^ 63`, and only there. -/
theorem toInt_ofNat_eq_iff (m : ℕ) :
    (Int64.ofNat m).toInt = ((m % 2 ^ 64 : ℕ) : ℤ) ↔ m % 2 ^ 64 < 2 ^ 63 := by
  have hcast : ((Int64.size : ℕ) : ℤ) = 18446744073709551616 := rfl
  rw [Int64.toInt_ofNat', Int.bmod_def, hcast]
  split_ifs <;> omega

/-- **An `unsigned int` read as an `int`** is the same below `2 ^ 31`, and negative from there
on. -/
theorem toInt_toInt32_cases (x : UInt32) :
    (x.toNat < 2 ^ 31 ∧ x.toInt32.toInt = x.toNat) ∨
      (2 ^ 31 ≤ x.toNat ∧ x.toInt32.toInt = x.toNat - 2 ^ 32) := by
  have hlt := x.toNat_lt
  have hval : x.toInt32.toInt = (x.toNat : ℤ).bmod (2 ^ 32) := BitVec.toInt_eq_toNat_bmod _
  have hcast : ((2 ^ 32 : ℕ) : ℤ) = 4294967296 := rfl
  rw [hval, Int.bmod_def, hcast]
  split_ifs <;> omega

/-- A `long` read as an `unsigned long` is taken modulo `2 ^ 64`. -/
theorem toNat_toUInt64 (x : Int64) : (x.toUInt64.toNat : ℤ) = x.toInt % 2 ^ 64 := by
  have hval : x.toInt = (x.toUInt64.toNat : ℤ).bmod (2 ^ 64) := BitVec.toInt_eq_toNat_bmod _
  have hcast : ((2 ^ 64 : ℕ) : ℤ) = 18446744073709551616 := rfl
  have hlt := x.toUInt64.toNat_lt
  rw [hval, Int.bmod_def, hcast]
  split_ifs <;> omega

/-- An `unsigned long` below `2 ^ 63` is the same as a `long`. -/
theorem toInt_toInt64_of_lt {x : UInt64} (h : x.toNat < 2 ^ 63) : x.toInt64.toInt = x.toNat := by
  have hval : x.toInt64.toInt = (x.toNat : ℤ).bmod (2 ^ 64) := BitVec.toInt_eq_toNat_bmod _
  rcases bmod_cases (x := (x.toNat : ℤ)) (by omega) (by omega) with
    ⟨-, -, heq⟩ | ⟨hlarge, -⟩ | ⟨hsmall, -⟩
  · rw [hval, heq]
  · omega
  · omega

end SystemProgramming
