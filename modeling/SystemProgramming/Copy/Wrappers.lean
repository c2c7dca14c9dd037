import SystemProgramming.Calls

/-!
# `fd_read` and `fd_write`

The two wrappers around the transfer calls that `simpcp2` and `mt_copy` share,
line for line, except that the first calls `read` and `write` and the second
`pread` and `pwrite`. Both are loops that repeat the call until `n` bytes are
counted, and return the count – a `size_t` – through an `int`.

What is common to the two programs is what one round makes of the count that the
call returned; it is given here once, and each program applies it to its own
state. What the round does *not* do is also common: neither the buffer, nor the
request, nor the offset moves on before the call is repeated.
-/

namespace SystemProgramming

namespace Wrappers

/-- How a round of one of the two loops ends: in another round, with this many
bytes counted, or in a return with this value. -/
inductive Round where
  /-- The loop goes round again. -/
  | again (total : ℕ)
  /-- The wrapper returns. -/
  | value (v : ℤ)
  deriving DecidableEq, Repr

/-- The rest of a round of `fd_read`, after its call transferred `rd` bytes (or
failed): `tr` were counted before, and `n` are asked for. -/
def fdReadRound (n tr : ℕ) : Option ℕ → Round
  | none => .value (-1)
  | some rd =>
    if rd = 0 then .value (toInt tr)
    else if tr + rd < n then .again (tr + rd)
    else .value (toInt (tr + rd))

/-- The rest of a round of `fd_write`, after its call transferred `wr` bytes (or
failed): `tw` were counted before, and `n` are asked for. -/
def fdWriteRound (n tw : ℕ) : Option ℕ → Round
  | none => .value (-1)
  | some wr => if tw + wr < n then .again (tw + wr) else .value (toInt (tw + wr))

/-- **The three ways a round of `fd_read` goes** when its call does not fail: the
end of the file, another round, or the count is reached. -/
theorem fdReadRound_cases (n tr rd : ℕ) :
    (rd = 0 ∧ fdReadRound n tr (some rd) = .value (toInt tr)) ∨
      (0 < rd ∧ tr + rd < n ∧ fdReadRound n tr (some rd) = .again (tr + rd)) ∨
      (0 < rd ∧ n ≤ tr + rd ∧ fdReadRound n tr (some rd) = .value (toInt (tr + rd))) := by
  rcases Nat.eq_zero_or_pos rd with rfl | hpos
  · exact Or.inl ⟨rfl, rfl⟩
  · have hne : rd ≠ 0 := by omega
    rcases Nat.lt_or_ge (tr + rd) n with hlt | hge
    · exact Or.inr (Or.inl ⟨hpos, hlt, by rw [fdReadRound, if_neg hne, if_pos hlt]⟩)
    · exact Or.inr (Or.inr ⟨hpos, hge, by rw [fdReadRound, if_neg hne, if_neg (by omega)]⟩)

/-- **The two ways a round of `fd_write` goes** when its call does not fail. -/
theorem fdWriteRound_cases (n tw wr : ℕ) :
    (tw + wr < n ∧ fdWriteRound n tw (some wr) = .again (tw + wr)) ∨
      (n ≤ tw + wr ∧ fdWriteRound n tw (some wr) = .value (toInt (tw + wr))) := by
  rcases Nat.lt_or_ge (tw + wr) n with hlt | hge
  · exact Or.inl ⟨hlt, by rw [fdWriteRound, if_pos hlt]⟩
  · exact Or.inr ⟨hge, by rw [fdWriteRound, if_neg (by omega)]⟩

end Wrappers

end SystemProgramming
