import Mathlib.Data.List.TakeWhile
import Mathlib.Order.Basic

/-!
# Strings in memory, and the lines of a stream

What the C library makes of bytes. Nothing in this file mentions a program.

* **A string** is what stands in memory before the first NUL
  (`SystemProgramming.Strings.cstr`).
* **A line** of a stream ends with a newline, or with the stream
  (`SystemProgramming.Strings.lines`); every byte but the newlines is in one line.
* **`fgets`** with room for `n` bytes takes what comes up to the end of the line, but
  `n - 1` bytes at most, and puts a NUL behind them
  (`SystemProgramming.Strings.fgets`). Of a line that does not fit it takes the
  beginning, and of the NULs that stand in a line it knows nothing.
-/

namespace SystemProgramming

namespace Strings

variable {m t s : List UInt8} {n : ℕ}

/-- The newline. -/
def newline : UInt8 := 10

/-! ### Strings -/

/-- The string that stands in the memory `m`. -/
def cstr (m : List UInt8) : List UInt8 := m.takeWhile (· ≠ 0)

/-- The length of the string in `m`. -/
def strlen (m : List UInt8) : ℕ := (cstr m).length

/-- `strncmp` finds no difference between the string in `m` and `w`, which has no NUL. -/
def strncmpEq (m w : List UInt8) (n : ℕ) : Bool := (cstr m).take n == w.take n

theorem cstr_append_zero (t r : List UInt8) : cstr (t ++ 0 :: r) = cstr t := by
  induction t with
  | nil => rfl
  | cons b t ih =>
    by_cases hb : b = 0
    · simp [cstr, hb]
    · have ih' : List.takeWhile (· ≠ 0) (t ++ 0 :: r) = List.takeWhile (· ≠ 0) t := ih
      simp only [cstr, List.cons_append, List.takeWhile_cons, ih']

theorem cstr_eq_self (h : (0 : UInt8) ∉ t) : cstr t = t := by
  refine List.takeWhile_eq_self_iff.mpr fun b hb => ?_
  have hne : b ≠ 0 := fun h0 => h (h0 ▸ hb)
  simpa using hne

/-- No NUL stands in a string. -/
theorem zero_notMem_cstr (m : List UInt8) : (0 : UInt8) ∉ cstr m := by
  intro h
  simpa using List.mem_takeWhile_imp h

theorem strlen_le (m : List UInt8) : strlen m ≤ m.length :=
  (List.takeWhile_prefix _).length_le

/-- Behind a string stands its NUL. -/
theorem eq_zero_of_strlen {b : UInt8} (h : m[strlen m]? = some b) : b = 0 := by
  induction m with
  | nil => cases h
  | cons c m ih =>
    by_cases hc : c = 0
    · have hlen : strlen (c :: m) = 0 := by simp [strlen, cstr, hc]
      rw [hlen] at h
      exact (Option.some.inj h).symm.trans hc
    · have hlen : strlen (c :: m) = strlen m + 1 := by simp [strlen, cstr, hc]
      rw [hlen, List.getElem?_cons_succ] at h
      exact ih h

/-- The empty string begins with its NUL. -/
theorem cstr_eq_nil_iff (hm : m ≠ []) : cstr m = [] ↔ m[0]? = some 0 := by
  obtain ⟨b, m', rfl⟩ := List.exists_cons_of_ne_nil hm
  by_cases hb : b = 0
  · simp [cstr, hb]
  · simp [cstr, hb]

/-- **A string is cut** by a NUL put at one of its places. -/
theorem cstr_set_zero (h : n < strlen m) : cstr (m.set n 0) = (cstr m).take n := by
  induction m generalizing n with
  | nil => cases h
  | cons b m ih =>
    by_cases hb : b = 0
    · simp [strlen, cstr, hb] at h
    · cases n with
      | zero => simp [cstr]
      | succ n =>
        have hlt : n < strlen m := by
          simpa [strlen, cstr, hb] using h
        have ih' : List.takeWhile (· ≠ 0) (m.set n 0) = (List.takeWhile (· ≠ 0) m).take n :=
          ih hlt
        simp [cstr, hb]
        simpa using ih'

/-- **`strncmp` over all of a word** asks whether the string begins with it. -/
theorem strncmpEq_iff (m w : List UInt8) : strncmpEq m w w.length = true ↔ w <+: cstr m := by
  rw [strncmpEq, List.take_length, beq_iff_eq, List.prefix_iff_eq_take]
  exact eq_comm

/-! ### Lines -/

/-- A line of a stream, and whether a newline ends it. -/
structure Line where
  text : List UInt8
  terminated : Bool
  deriving DecidableEq, Repr

/-- The lines of a stream. -/
def lines : List UInt8 → List Line
  | [] => []
  | b :: s =>
    if b = newline then ⟨[], true⟩ :: lines s
    else match lines s with
      | [] => [⟨[b], false⟩]
      | l :: ls => ⟨b :: l.text, l.terminated⟩ :: ls

/-- **A line that a newline ends.** -/
theorem lines_terminated (h : newline ∉ t) : lines (t ++ newline :: s) = ⟨t, true⟩ :: lines s := by
  induction t with
  | nil => exact if_pos rfl
  | cons b t ih =>
    obtain ⟨hb, ht⟩ := not_or.mp (mt List.mem_cons.mpr h)
    rw [List.cons_append, lines, if_neg (Ne.symm hb), ih ht]

/-- **A line that the stream ends.** -/
theorem lines_unterminated (h : newline ∉ t) (hne : t ≠ []) : lines t = [⟨t, false⟩] := by
  induction t with
  | nil => exact absurd rfl hne
  | cons b t ih =>
    obtain ⟨hb, ht⟩ := not_or.mp (mt List.mem_cons.mpr h)
    rw [lines, if_neg (Ne.symm hb)]
    rcases eq_or_ne t [] with rfl | hne'
    · rfl
    · rw [ih ht hne']

/-- **Lines written one after another** are read one after another. -/
theorem lines_flatMap {ι : Type*} (f : ι → List UInt8) (is : List ι)
    (h : ∀ i ∈ is, newline ∉ f i) :
    lines (is.flatMap fun i => f i ++ [newline]) = is.map fun i => ⟨f i, true⟩ := by
  induction is with
  | nil => rfl
  | cons i is ih =>
    obtain ⟨hi, his⟩ := List.forall_mem_cons.mp h
    rw [List.flatMap_cons, List.append_assoc, List.singleton_append, lines_terminated hi, ih his]
    rfl

/-- **The first line of a stream.** -/
theorem lines_cases (s : List UInt8) :
    s = [] ∨ (newline ∉ s ∧ s ≠ [] ∧ lines s = [⟨s, false⟩]) ∨
      ∃ t r, newline ∉ t ∧ s = t ++ newline :: r ∧ lines s = ⟨t, true⟩ :: lines r := by
  by_cases hnl : newline ∈ s
  · obtain ⟨t, r, rfl, ht⟩ := List.eq_append_cons_of_mem hnl
    exact Or.inr (Or.inr ⟨t, r, ht, rfl, lines_terminated ht⟩)
  · rcases eq_or_ne s [] with rfl | hne
    · exact Or.inl rfl
    · exact Or.inr (Or.inl ⟨hnl, hne, lines_unterminated hnl hne⟩)

/-! ### `fgets` -/

/-- What `fgets` takes of a stream when it may take `n` bytes. -/
def taken : ℕ → List UInt8 → List UInt8
  | 0, _ => []
  | _, [] => []
  | n + 1, b :: s => if b = newline then [b] else b :: taken n s

/-- `fgets` with the size `n`: the memory `m` after it, and what is left of the stream;
`none` at the end of the stream. -/
def fgets (n : ℕ) (m s : List UInt8) : Option (List UInt8 × List UInt8) :=
  if s = [] then none
  else
    let r := taken (n - 1) s
    some (r ++ 0 :: m.drop (r.length + 1), s.drop r.length)

theorem fgets_of_ne_nil (hs : s ≠ []) : fgets n m s =
    some (taken (n - 1) s ++ 0 :: m.drop ((taken (n - 1) s).length + 1),
      s.drop (taken (n - 1) s).length) :=
  if_neg hs

/-- **`fgets` stays in its memory.** -/
theorem length_fgets (h : (taken (n - 1) s).length < m.length) :
    (taken (n - 1) s ++ 0 :: m.drop ((taken (n - 1) s).length + 1)).length = m.length := by
  rw [List.length_append, List.length_cons, List.length_drop]
  omega

theorem length_taken_le (n : ℕ) (s : List UInt8) : (taken n s).length ≤ n := by
  induction s generalizing n with
  | nil => cases n <;> exact Nat.zero_le _
  | cons b s ih =>
    cases n with
    | zero => exact le_rfl
    | succ n =>
      rw [taken]
      split_ifs
      · exact Nat.succ_le_succ (Nat.zero_le n)
      · exact Nat.succ_le_succ (ih n)

/-- Something is taken of a stream that is not at its end. -/
theorem taken_ne_nil (hn : 0 < n) (hs : s ≠ []) : taken n s ≠ [] := by
  obtain ⟨k, rfl⟩ := Nat.exists_eq_succ_of_ne_zero (Nat.ne_zero_of_lt hn)
  obtain ⟨b, s', rfl⟩ := List.exists_cons_of_ne_nil hs
  rw [taken]
  split_ifs <;> exact List.cons_ne_nil _ _

/-- **A line that fits** is taken whole, with its newline. -/
theorem taken_terminated (ht : newline ∉ t) (hlen : t.length < n) :
    taken n (t ++ newline :: s) = t ++ [newline] := by
  induction t generalizing n with
  | nil =>
    obtain ⟨k, rfl⟩ := Nat.exists_eq_succ_of_ne_zero (Nat.ne_zero_of_lt hlen)
    exact if_pos rfl
  | cons b t ih =>
    obtain ⟨k, rfl⟩ := Nat.exists_eq_succ_of_ne_zero (Nat.ne_zero_of_lt hlen)
    obtain ⟨hb, ht'⟩ := not_or.mp (mt List.mem_cons.mpr ht)
    rw [List.cons_append, taken, if_neg (Ne.symm hb), ih ht' (Nat.lt_of_succ_lt_succ hlen)]
    rfl

/-- **The end of a stream that fits** is taken whole. -/
theorem taken_unterminated (ht : newline ∉ t) (hlen : t.length ≤ n) : taken n t = t := by
  induction t generalizing n with
  | nil => cases n <;> rfl
  | cons b t ih =>
    obtain ⟨k, rfl⟩ := Nat.exists_eq_succ_of_ne_zero (Nat.ne_zero_of_lt hlen)
    obtain ⟨hb, ht'⟩ := not_or.mp (mt List.mem_cons.mpr ht)
    rw [taken, if_neg (Ne.symm hb), ih ht' (Nat.le_of_succ_le_succ hlen)]

/-- What `fgets` leaves of a stream is shorter. -/
theorem length_drop_taken_lt (hn : 0 < n) (hs : s ≠ []) :
    (s.drop (taken n s).length).length < s.length := by
  have hpos : 0 < (taken n s).length := List.length_pos_iff.mpr (taken_ne_nil hn hs)
  have hs' : 0 < s.length := List.length_pos_iff.mpr hs
  rw [List.length_drop]
  omega

end Strings

end SystemProgramming
