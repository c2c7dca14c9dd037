import SystemProgramming.Printf
import SystemProgramming.Sync.PrimeGen

/-!
# The primes up to a limit

`rlimit_primes` (`ch3/`) prints the primes up to a limit, to have something to do while its
processor time runs out. It begins with 2 and 3 without looking at them, and divides every
other number `i` by all `j` from 2 up to half of the *limit*, as `mt_primes` does.

The least limit that `main` accepts is 5, and half of 5 is 2: there is nothing to divide by,
and 4 is printed. With every other limit the numbers that are printed are the primes
(`SystemProgramming.RlimitPrimes.prints_primes_iff`).
-/

namespace SystemProgramming

open Printf PrimeGen

namespace RlimitPrimes

/-- The greatest limit that is accepted. -/
def MAX : Int32 := 10000000

/-- So many primes are printed on a line. -/
def WRAP : ℕ := 16

/-- What the inner loop finds out: whether no `j` below half of the limit, other than `i`
itself, divides `i`. -/
def isprime (limit i : ℕ) : Bool :=
  (List.range' 2 (limit / 2 - 2)).all fun j => !(decide (i ≠ j) && decide (i % j = 0))

/-- One turn of the outer loop: the number of primes so far, and the text. -/
def turn (limit : ℕ) (s : ℕ × List UInt8) (i : ℕ) : ℕ × List UInt8 :=
  if isprime limit i then
    (s.1 + 1, s.2 ++ entry i ++ if (s.1 + 1) % WRAP = 0 then ascii "\n" else [])
  else s

/-- `simple_primegen`: what it prints. Up to `MAX` no `int` wraps round. -/
def simplePrimegen (limit : Int32) : List UInt8 :=
  ((List.range' 4 (limit.toInt.toNat + 1 - 4)).foldl (turn limit.toInt.toNat)
    (2, ascii "  2,  3, ")).2 ++ ascii "\n"

/-- The limit of the arguments: `atoi` keeps the low 32 bits of the number. -/
def limitArg (argv : List (List UInt8)) : Int32 := (atol (argv.getD 1 [])).toInt32

/-- The limit that `main` has the primes printed up to, if it accepts its arguments. What it
does to its processor time before is left out. -/
def main (argv : List (List UInt8)) : Option Int32 :=
  if argv.length < 3 then none
  else if limitArg argv ≤ 4 ∨ limitArg argv > MAX then none
  else some (limitArg argv)

section Loops

variable {limit i : ℕ}

theorem isprime_iff : isprime limit i = true ↔ Undivided limit i 2 := by
  rw [isprime, List.all_eq_true]
  constructor
  · intro h m hm htwo hne hmod
    simpa [hne, hmod] using h m (List.mem_range'_1.mpr (by omega))
  · intro h m hmem
    have hrange := List.mem_range'_1.mp hmem
    have hm : i ≠ m → ¬i % m = 0 := h m (by omega) hrange.1
    simpa [or_iff_not_imp_left] using hm

/-- The numbers that the outer loop takes for primes. -/
theorem filter_isprime : ((List.range' 4 (limit + 1 - 4)).filter fun i => isprime limit i) =
    reported 4 limit := by
  rw [reported]
  refine List.filter_congr fun i _ => ?_
  rw [Bool.eq_iff_iff, isprime_iff, decide_eq_true_iff]

/-- A number is read back, and the comma behind it ends it. -/
theorem numbers_entry (i : ℕ) (v : List UInt8) : numbers (entry i ++ v) = i :: numbers v := by
  have hcomma : ascii ", " ++ v = 44 :: blank :: v := rfl
  rw [entry, decimal_of_nonneg, List.append_assoc, hcomma, numbers_append_cons (by decide),
    numbers_blanks_digits, numbers_cons (by decide), List.singleton_append]

/-- **What the outer loop prints**, behind what there is. -/
theorem foldl_turn (limit : ℕ) (l : List ℕ) (n : ℕ) (t : List UInt8) :
    ∃ n' u, l.foldl (turn limit) (n, t) = (n', t ++ u) ∧
      ∀ v, numbers (u ++ v) = l.filter (fun i => isprime limit i) ++ numbers v := by
  induction l generalizing n t with
  | nil => exact ⟨n, [], by rw [List.append_nil, List.foldl_nil], fun v => rfl⟩
  | cons i l ih =>
    rw [List.foldl_cons, turn]
    split_ifs with hprime hwrap
    · obtain ⟨n', u, hfold, hread⟩ := ih (n + 1) (t ++ entry i ++ ascii "\n")
      refine ⟨n', entry i ++ (ascii "\n" ++ u), ?_, fun v => ?_⟩
      · rw [hfold]
        simp only [List.append_assoc]
      · have hnewline : ascii "\n" ++ u ++ v = 10 :: (u ++ v) := rfl
        rw [List.append_assoc, numbers_entry, hnewline, numbers_cons (by decide), hread,
          List.filter_cons_of_pos hprime, List.cons_append]
    · obtain ⟨n', u, hfold, hread⟩ := ih (n + 1) (t ++ entry i ++ [])
      refine ⟨n', entry i ++ u, ?_, fun v => ?_⟩
      · rw [hfold]
        simp only [List.append_assoc, List.nil_append]
      · rw [List.append_assoc, numbers_entry, hread, List.filter_cons_of_pos hprime,
          List.cons_append]
    · obtain ⟨n', u, hfold, hread⟩ := ih n t
      refine ⟨n', u, hfold, fun v => ?_⟩
      rw [hread, List.filter_cons_of_neg hprime]

end Loops

/-- **The numbers that are printed**: 2 and 3, and what is taken for a prime from 4 on. -/
theorem numbers_simplePrimegen (limit : Int32) :
    numbers (simplePrimegen limit) = 2 :: 3 :: reported 4 limit.toInt.toNat := by
  obtain ⟨n', u, hfold, hread⟩ := foldl_turn limit.toInt.toNat
    (List.range' 4 (limit.toInt.toNat + 1 - 4)) 2 (ascii "  2,  3, ")
  have hfirst : ascii "  2,  3, " ++ u ++ ascii "\n" = blanks 3 (digits 10 2) ++
      44 :: blank :: (blanks 2 (digits 10 3) ++ 44 :: blank :: (u ++ ascii "\n")) := by
    have htwo : blanks 3 (digits 10 2) = [blank, blank, 50] := by decide
    have hthree : blanks 2 (digits 10 3) = [blank, 51] := by decide
    rw [htwo, hthree]
    rfl
  have hnone : numbers (ascii "\n") = [] := by decide
  rw [simplePrimegen, hfold, hfirst, numbers_append_cons (by decide), numbers_blanks_digits,
    numbers_cons (by decide), numbers_append_cons (by decide), numbers_blanks_digits,
    numbers_cons (by decide), hread, filter_isprime, hnone, List.append_nil]
  rfl

/-- The primes up to a limit that is 3 at least. -/
theorem primes_zero {limit : ℕ} (h : 3 ≤ limit) : primes 0 limit = 2 :: 3 :: primes 4 limit := by
  rw [primes, filter_range'_succ (by omega), filter_range'_succ (by omega),
    filter_range'_succ (by omega), filter_range'_succ h, primes]
  rfl

/-- The limits that are accepted. -/
theorem main_cases {argv : List (List UInt8)} {limit : Int32} (h : main argv = some limit) :
    4 < limit.toInt ∧ limit.toInt ≤ 10000000 := by
  rw [main] at h
  split_ifs at h with hargc hrange
  obtain rfl := Option.some.inj h
  rw [not_or, gt_iff_lt, Int32.le_iff_toInt_le, Int32.lt_iff_toInt_lt] at hrange
  have hfour : (4 : Int32).toInt = 4 := rfl
  have hmax : MAX.toInt = 10000000 := rfl
  omega

/-- **The numbers that are printed are the primes up to the limit**, each once and in increasing
order, exactly if the limit is not 5. -/
theorem prints_primes_iff {argv : List (List UInt8)} {limit : Int32}
    (h : main argv = some limit) :
    numbers (simplePrimegen limit) = primes 0 limit.toInt.toNat ↔ limit ≠ 5 := by
  have hrange := main_cases h
  have hfive : limit = 5 ↔ limit.toInt.toNat = 5 := by
    have hval : (5 : Int32).toInt = 5 := rfl
    rw [← Int32.toInt_inj, hval]
    omega
  rw [numbers_simplePrimegen, primes_zero (by omega), List.cons.injEq, List.cons.injEq,
    and_iff_right rfl, and_iff_right rfl, reported_eq_primes_iff (by omega), ne_eq, hfive]
  omega

/-- A limit of 6 is enough for 4 to be found out. -/
theorem prints_primes_iff_at : main [ascii "rlimit_primes", ascii "6", ascii "-2"] = some 6 ∧
    (numbers (simplePrimegen 6) = primes 0 (6 : Int32).toInt.toNat ↔ (6 : Int32) ≠ 5) := by
  have hmain : main [ascii "rlimit_primes", ascii "6", ascii "-2"] = some 6 := by decide
  exact ⟨hmain, prints_primes_iff hmain⟩

/-- **4 is printed** with the least limit that is accepted. -/
theorem prints_four : main [ascii "rlimit_primes", ascii "5", ascii "-2"] = some 5 ∧
    4 ∈ numbers (simplePrimegen 5) ∧
    numbers (simplePrimegen 5) ≠ primes 0 (5 : Int32).toInt.toNat := by
  have hnumbers : numbers (simplePrimegen 5) = [2, 3, 4, 5] := by
    rw [numbers_simplePrimegen]
    rfl
  rw [hnumbers]
  exact ⟨by decide, by decide, by decide⟩

end RlimitPrimes

end SystemProgramming
