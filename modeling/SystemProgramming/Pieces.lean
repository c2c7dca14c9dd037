import Mathlib.Order.Basic
import Mathlib.Data.Nat.Basic

/-!
# Cutting a length into equal pieces and a remainder

A length `L` cut for `N` workers: `N` pieces of `L / N` each, and one more of
`L % N` behind them. They are numbered `0, …, N`, the last one being the
remainder. Nothing in this file mentions a program; what it provides is that the
pieces tile `[0, L)` – every position lies in one of them
(`SystemProgramming.Pieces.exists_inPiece`), and in no other
(`SystemProgramming.Pieces.InPiece.unique`) – whatever `L` is, in particular when
it is smaller than `N` and all the pieces but the remainder are empty.
-/

namespace SystemProgramming

namespace Pieces

/-- Where piece `j` starts. -/
def pieceOff (N L j : ℕ) : ℕ := j * (L / N)

/-- How long piece `j` is. -/
def pieceLen (N L j : ℕ) : ℕ := if j < N then L / N else L % N

variable {N L j k p : ℕ}

theorem pieceLen_of_lt (h : j < N) : pieceLen N L j = L / N := if_pos h

@[simp] theorem pieceLen_self : pieceLen N L N = L % N := if_neg (lt_irrefl N)

/-- The position `p` lies in piece `j`. -/
def InPiece (N L j p : ℕ) : Prop := pieceOff N L j ≤ p ∧ p < pieceOff N L j + pieceLen N L j

/-- A piece ends where the next one starts. -/
theorem pieceOff_succ (h : j < N) : pieceOff N L (j + 1) = pieceOff N L j + pieceLen N L j := by
  rw [pieceOff, pieceOff, pieceLen_of_lt h, Nat.succ_mul]

/-- The pieces end where the length does. -/
theorem pieceOff_add_pieceLen_self : pieceOff N L N + pieceLen N L N = L := by
  rw [pieceLen_self, pieceOff, Nat.mul_comm]
  calc L / N * N + L % N = N * (L / N) + L % N := by rw [Nat.mul_comm]
    _ = L := Nat.div_add_mod L N

theorem pieceOff_le_pieceOff (h : j ≤ k) : pieceOff N L j ≤ pieceOff N L k :=
  Nat.mul_le_mul_right _ h

/-- A piece ends before any later one starts. -/
theorem piece_le_pieceOff (hjk : j < k) (hk : k ≤ N) :
    pieceOff N L j + pieceLen N L j ≤ pieceOff N L k := by
  rw [← pieceOff_succ (lt_of_lt_of_le hjk hk)]
  exact pieceOff_le_pieceOff hjk

/-- No piece reaches beyond the length. -/
theorem piece_le_length (h : j ≤ N) : pieceOff N L j + pieceLen N L j ≤ L := by
  rcases Nat.lt_or_eq_of_le h with hlt | rfl
  · calc pieceOff N L j + pieceLen N L j ≤ pieceOff N L N := piece_le_pieceOff hlt le_rfl
      _ ≤ pieceOff N L N + pieceLen N L N := Nat.le_add_right _ _
      _ = L := pieceOff_add_pieceLen_self
  · exact pieceOff_add_pieceLen_self.le

/-- **The pieces do not overlap.** -/
theorem InPiece.unique (hj : j ≤ N) (hk : k ≤ N) (h : InPiece N L j p) (h' : InPiece N L k p) :
    j = k := by
  rcases lt_trichotomy j k with hlt | heq | hlt
  · exact absurd (lt_of_lt_of_le h.2 ((piece_le_pieceOff hlt hk).trans h'.1)) (lt_irrefl p)
  · exact heq
  · exact absurd (lt_of_lt_of_le h'.2 ((piece_le_pieceOff hlt hj).trans h.1)) (lt_irrefl p)

/-- **The pieces leave no gap.** -/
theorem exists_inPiece (hp : p < L) : ∃ j ≤ N, InPiece N L j p := by
  have hall : ∀ n ≤ N, p < pieceOff N L n → ∃ j ≤ N, InPiece N L j p := by
    intro n
    induction n with
    | zero => exact fun _ hlt => absurd hlt (by simp [pieceOff])
    | succ n ih =>
      intro hn hlt
      rcases Nat.lt_or_ge p (pieceOff N L n) with hbefore | hafter
      · exact ih (Nat.le_of_succ_le hn) hbefore
      · rw [pieceOff_succ hn] at hlt
        exact ⟨n, Nat.le_of_succ_le hn, hafter, hlt⟩
  rcases Nat.lt_or_ge p (pieceOff N L N) with hlt | hge
  · exact hall N le_rfl hlt
  · refine ⟨N, le_rfl, hge, ?_⟩
    rw [pieceOff_add_pieceLen_self]
    exact hp

/-- A piece that is not empty contains its start. -/
theorem inPiece_pieceOff (h : 0 < pieceLen N L j) : InPiece N L j (pieceOff N L j) :=
  ⟨le_rfl, Nat.lt_add_of_pos_right h⟩

end Pieces

end SystemProgramming
