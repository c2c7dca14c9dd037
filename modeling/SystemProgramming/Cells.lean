import Mathlib.Logic.Function.Basic
import SystemProgramming.Bytes

/-!
# Files of records of one length

A file that is a header of `s` bytes followed by cells of `L` bytes each, over an arbitrary
type `α` of bytes. Nothing in this file mentions a program.

What the cells have been filled with is a function of their numbers
(`SystemProgramming.Cells.Holds`); a cell behind which others have been filled, but which has
not been filled itself, is a hole and reads as zeros. Where a cell is written whole, the file
follows the function (`SystemProgramming.Cells.Holds.write`).
-/

namespace SystemProgramming

open Bytes

namespace Cells

variable {α : Type*}

/-- The cell `k` of the file `f`. -/
def cell (s L : ℕ) (f : List α) (k : ℕ) : List α := (f.drop (s + k * L)).take L

theorem getElem?_cell (s L : ℕ) (f : List α) (k i : ℕ) :
    (cell s L f k)[i]? = if i < L then f[s + k * L + i]? else none := by
  rw [cell, List.getElem?_take, List.getElem?_drop]

variable [Zero α] {s L j k m : ℕ} {f d : List α} {c : ℕ → Option (List α)}

/-! ### One cell is written -/

/-- The cell that is written holds the data. -/
theorem cell_overwrite_self (hd : d.length = L) : cell s L (overwrite f (s + k * L) d) k = d := by
  refine List.ext_getElem? fun i => ?_
  rw [getElem?_cell]
  split_ifs with hi
  · rw [getElem?_overwrite_of_mem (by omega) (by omega), Nat.add_sub_cancel_left]
  · rw [List.getElem?_eq_none (by omega)]

/-- A cell that is there, and is not written, stays as it is. -/
theorem cell_overwrite_of_ne (hd : d.length = L) (hjk : j ≠ k) (hin : s + (j + 1) * L ≤ f.length) :
    cell s L (overwrite f (s + k * L) d) j = cell s L f j := by
  have hsucc : (j + 1) * L = j * L + L := Nat.succ_mul j L
  refine List.ext_getElem? fun i => ?_
  rw [getElem?_cell, getElem?_cell]
  split_ifs with hi
  · have hout : s + j * L + i < s + k * L ∨ s + k * L + d.length ≤ s + j * L + i := by
      rcases Nat.lt_or_gt_of_ne hjk with hlt | hgt
      · have hmul : (j + 1) * L ≤ k * L := Nat.mul_le_mul_right L hlt
        omega
      · have hmul : (k + 1) * L ≤ j * L := Nat.mul_le_mul_right L hgt
        have hsucc' : (k + 1) * L = k * L + L := Nat.succ_mul k L
        omega
    exact getElem?_overwrite_of_lt hout (by omega)
  · rfl

/-- A cell that is passed over, behind the end of the file, becomes a hole. -/
theorem cell_overwrite_of_gap (hne : d ≠ []) (hjk : j < k) (hout : f.length ≤ s + j * L) :
    cell s L (overwrite f (s + k * L) d) j = List.replicate L 0 := by
  have hmul : (j + 1) * L ≤ k * L := Nat.mul_le_mul_right L hjk
  have hsucc : (j + 1) * L = j * L + L := Nat.succ_mul j L
  refine List.ext_getElem? fun i => ?_
  rw [getElem?_cell, List.getElem?_replicate]
  split_ifs with hi
  · exact getElem?_overwrite_of_gap hne (by omega) (by omega)
  · rfl

/-! ### All cells -/

/-- **The file `f` has `m` cells**, filled as `c` says; before the first one is written, it is
empty. -/
structure Holds (s L : ℕ) (f : List α) (c : ℕ → Option (List α)) (m : ℕ) : Prop where
  length : f.length = if m = 0 then 0 else s + m * L
  cell : ∀ k < m, cell s L f k = (c k).getD (List.replicate L 0)
  beyond : ∀ k, m ≤ k → c k = none

theorem holds_nil : Holds s L ([] : List α) (fun _ => none) 0 :=
  ⟨rfl, fun _ h => (by cases h), fun _ _ => rfl⟩

/-- **A cell is written.** -/
theorem Holds.write (h : Holds s L f c m) (hL : 0 < L) (hd : d.length = L) :
    Holds s L (overwrite f (s + k * L) d) (Function.update c k (some d)) (max m (k + 1)) := by
  have hne : d ≠ [] := by
    rintro rfl
    exact absurd hd (by simp; omega)
  have hlen := h.length
  constructor
  case length =>
    have hmax : max m (k + 1) ≠ 0 := by omega
    have hsucc : (k + 1) * L = k * L + L := Nat.succ_mul k L
    rw [length_overwrite hne, if_neg hmax, hd, hlen]
    rcases Nat.lt_or_ge k m with hlt | hge
    · have hmul : (k + 1) * L ≤ m * L := Nat.mul_le_mul_right L hlt
      rw [if_neg (by omega), max_eq_left (show k + 1 ≤ m from hlt)]
      omega
    · have hmul : m * L ≤ k * L := Nat.mul_le_mul_right L hge
      rw [max_eq_right (show m ≤ k + 1 by omega)]
      split_ifs <;> omega
  case beyond =>
    intro j hj
    rw [Function.update_of_ne (by omega)]
    exact h.beyond j (by omega)
  case cell =>
    intro j hj
    rcases eq_or_ne j k with rfl | hjk
    · rw [Function.update_self, cell_overwrite_self hd]
      rfl
    · rw [Function.update_of_ne hjk]
      rcases Nat.lt_or_ge j m with hjm | hjm
      · have hmul : (j + 1) * L ≤ m * L := Nat.mul_le_mul_right L hjm
        rw [if_neg (by omega)] at hlen
        rw [cell_overwrite_of_ne hd hjk (by omega), h.cell j hjm]
      · have hmul : m * L ≤ j * L := Nat.mul_le_mul_right L hjm
        have hend : f.length ≤ s + j * L := by
          rw [hlen]
          split_ifs <;> omega
        rw [cell_overwrite_of_gap hne (by omega) hend, h.beyond j hjm]
        rfl

end Cells

end SystemProgramming
