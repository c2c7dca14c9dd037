import Mathlib.Algebra.Order.Ring.Int
import Mathlib.Tactic.Ring

/-!
# Times in seconds and nanoseconds

The record `timespec` of POSIX, and the subtraction of two of them; and `itimerspec`, which a
timer is set by. Nothing in this file mentions a program.

The nanoseconds of a normal time are at least 0 and less than a second's worth, also where
the time is negative. The subtraction borrows a second where the nanoseconds come out
negative, and so the difference of two normal times is normal
(`SystemProgramming.Timespec.normal_sub`), and is the difference
(`SystemProgramming.Timespec.toNs_sub`).
-/

namespace SystemProgramming

/-- A time. -/
structure Timespec where
  tvSec : ℤ
  tvNsec : ℤ
  deriving DecidableEq, Repr

namespace Timespec

/-- The nanoseconds of a second. -/
def nsPerSec : ℤ := 1000000000

/-- The time as memory that is all zeros reads. -/
def zero : Timespec := ⟨0, 0⟩

/-- A number of nanoseconds, as the clock tells it. -/
def ofNs (ns : ℕ) : Timespec := ⟨ns / nsPerSec, ns % nsPerSec⟩

/-- The number of nanoseconds. -/
def toNs (t : Timespec) : ℤ := t.tvSec * nsPerSec + t.tvNsec

/-- The nanoseconds are those of less than a second. -/
def Normal (t : Timespec) : Prop := 0 ≤ t.tvNsec ∧ t.tvNsec < nsPerSec

instance : DecidablePred Normal := fun t =>
  inferInstanceAs (Decidable (0 ≤ t.tvNsec ∧ t.tvNsec < nsPerSec))

/-- A second is borrowed if the nanoseconds are negative. -/
def borrow (t : Timespec) : Timespec :=
  if t.tvNsec < 0 then ⟨t.tvSec - 1, t.tvNsec + nsPerSec⟩ else t

/-- The difference of two times. -/
def sub (a b : Timespec) : Timespec := borrow ⟨a.tvSec - b.tvSec, a.tvNsec - b.tvNsec⟩

variable {a b : Timespec}

theorem normal_ofNs (ns : ℕ) : (ofNs ns).Normal :=
  ⟨Int.emod_nonneg _ (by decide), Int.emod_lt_of_pos _ (by decide)⟩

theorem toNs_ofNs (ns : ℕ) : (ofNs ns).toNs = ns := Int.ediv_mul_add_emod _ _

theorem toNs_borrow (t : Timespec) : (borrow t).toNs = t.toNs := by
  rw [borrow]
  split_ifs
  · rw [toNs, toNs]
    ring
  · rfl

/-- **The difference is the difference.** -/
theorem toNs_sub (a b : Timespec) : (sub a b).toNs = a.toNs - b.toNs := by
  rw [sub, toNs_borrow, toNs, toNs, toNs]
  ring

/-- **The difference of normal times is normal.** -/
theorem normal_sub (ha : a.Normal) (hb : b.Normal) : (sub a b).Normal := by
  obtain ⟨ha0, ha1⟩ := ha
  obtain ⟨hb0, hb1⟩ := hb
  rw [sub, borrow]
  split_ifs with hneg
  · constructor <;> simp only at hneg ⊢ <;> omega
  · constructor <;> simp only at hneg ⊢ <;> omega

end Timespec

/-- What a timer is set by: when it expires, and the interval at which it does so again, which is
zero if it does not. -/
structure Itimerspec where
  itInterval : Timespec
  itValue : Timespec
  deriving DecidableEq, Repr

/-- As memory that is all zeros reads. -/
def Itimerspec.zero : Itimerspec := ⟨.zero, .zero⟩

end SystemProgramming
