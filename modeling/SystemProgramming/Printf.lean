import Mathlib.Data.Nat.Digits.Lemmas
import Mathlib.Data.UInt

/-!
# What `printf` makes of numbers, and `atol` of texts

The texts that the conversions of the C library produce, as lists of bytes, and the way
back. Nothing in this file mentions a program.

* `SystemProgramming.Printf.digits`: the digits of a number to a base, which is sixteen at
  most, the first first; `SystemProgramming.Printf.value` is the number that digits denote
  (`SystemProgramming.Printf.value_digits`), and `SystemProgramming.Printf.read` reads it
  where there is nothing but digits.
* `SystemProgramming.Printf.decimal`: an integer as `%d` prints it, with a minus sign if it
  is negative. No two integers have the same text
  (`SystemProgramming.Printf.decimal_inj`).
* **Widths.** A text is filled up with blanks (`SystemProgramming.Printf.blanks`) or with
  zeros (`SystemProgramming.Printf.zeros`) on its left, and a text that is longer than the
  width stays as it is.
* `SystemProgramming.Printf.atol`: the number that a text begins with;
  `SystemProgramming.Printf.strtoul` is for unsigned ones, to the base that the text asks for,
  and `SystemProgramming.Printf.strtoul10` to the base ten.
* `SystemProgramming.Printf.snprintf`: what is put in memory of a text that may be too long.
* `SystemProgramming.Printf.numbers`: the numbers that a text shows to its reader.
-/

namespace SystemProgramming

namespace Printf

variable {b n m w k : ℕ} {x y : ℤ} {t u : List UInt8} {c : UInt8}

/-- The bytes of a text. -/
def ascii (s : String) : List UInt8 := s.toList.map fun c => UInt8.ofNat c.toNat

/-- The blank. -/
def blank : UInt8 := 32

/-- The minus sign. -/
def minus : UInt8 := 45

/-- The character of the digit `d`; from ten on it is a small letter. -/
def digit (d : ℕ) : UInt8 := UInt8.ofNat (if d < 10 then 48 + d else 87 + d)

/-- The digit of a character. -/
def digitValue (c : UInt8) : ℕ := if c.toNat < 58 then c.toNat - 48 else c.toNat - 87

/-- The digits of `n` to the base `b`. -/
def digits (b n : ℕ) : List UInt8 := if n = 0 then [digit 0] else ((b.digits n).map digit).reverse

/-- The number that digits to the base `b` denote. -/
def value (b : ℕ) (t : List UInt8) : ℕ := Nat.ofDigits b (t.reverse.map digitValue)

/-- The character `c` is a digit to the base `b`. -/
def IsDigit (b : ℕ) (c : UInt8) : Prop := digitValue c < b ∧ digit (digitValue c) = c

instance (b : ℕ) (c : UInt8) : Decidable (IsDigit b c) :=
  inferInstanceAs (Decidable (digitValue c < b ∧ digit (digitValue c) = c))

/-- The number that a text of digits to the base `b` denotes; a text with anything else in it
denotes none. -/
def read (b : ℕ) (t : List UInt8) : Option ℕ :=
  if t ≠ [] ∧ (t.all fun c => decide (IsDigit b c)) = true then some (value b t) else none

/-- `isspace`. -/
def isSpace (c : UInt8) : Bool := c = 32 || 9 ≤ c && c ≤ 13

/-- The integer a text begins with, after white space and a sign, as `strtol` reads it
before it is limited to what a `long` holds. -/
def leading (t : List UInt8) : ℤ :=
  match t.dropWhile isSpace with
  | [] => 0
  | c :: u =>
    if c = minus then -value 10 (u.takeWhile fun d => decide (IsDigit 10 d))
    else if c = 43 then value 10 (u.takeWhile fun d => decide (IsDigit 10 d))
    else value 10 ((c :: u).takeWhile fun d => decide (IsDigit 10 d))

/-- `atol`: an integer that a `long` does not hold becomes the nearest one that it does. -/
def atol (t : List UInt8) : Int64 := Int64.ofInt (max (-2 ^ 63) (min (2 ^ 63 - 1) (leading t)))

/-- `tolower`. -/
def toLower (c : UInt8) : UInt8 := if 65 ≤ c && c ≤ 90 then c + 32 else c

/-- The base that `strtoul` takes where it is given none, and the digits from their first on: `0x`
is for sixteen, if a digit follows, and any other zero for eight. -/
def guessBase (t : List UInt8) : ℕ × List UInt8 :=
  match t with
  | 48 :: 120 :: c :: u => if IsDigit 16 c then (16, c :: u) else (8, t)
  | 48 :: _ => (8, t)
  | _ => (10, t)

/-- `strtoul` with the base 0, and whether it reports `ERANGE`. A minus sign negates the number as
an `unsigned long`. -/
def strtoul (t : List UInt8) : UInt64 × Bool :=
  let u := (t.dropWhile isSpace).map toLower
  let neg := u.head? == some minus
  let bu := guessBase (if neg || u.head? == some 43 then u.tail else u)
  let n := value bu.1 (bu.2.takeWhile fun d => decide (IsDigit bu.1 d))
  if 2 ^ 64 ≤ n then (UInt64.ofNat (2 ^ 64 - 1), true)
  else (if neg then -UInt64.ofNat n else UInt64.ofNat n, false)

/-- `strtoul` with the base 10, whether or not it reports `ERANGE`. -/
def strtoul10 (t : List UInt8) : UInt64 :=
  let u := t.dropWhile isSpace
  let neg := u.head? == some minus
  let v := if neg || u.head? == some 43 then u.tail else u
  let n := value 10 (v.takeWhile fun d => decide (IsDigit 10 d))
  if 2 ^ 64 ≤ n then UInt64.ofNat (2 ^ 64 - 1)
  else if neg then -UInt64.ofNat n else UInt64.ofNat n

/-- `%d`, `%ld` and `%lld` of the integer `x`. -/
def decimal (x : ℤ) : List UInt8 :=
  if x < 0 then minus :: digits 10 x.natAbs else digits 10 x.natAbs

/-- A text with blanks on its left, up to the width `w`. -/
def blanks (w : ℕ) (t : List UInt8) : List UInt8 := List.replicate (w - t.length) blank ++ t

/-- Digits with zeros on their left, up to the width `w`. -/
def zeros (w : ℕ) (t : List UInt8) : List UInt8 := List.replicate (w - t.length) (digit 0) ++ t

/-- `%0wd` of the integer `x`: the sign comes before the zeros. -/
def zeroDecimal (w : ℕ) (x : ℤ) : List UInt8 :=
  if x < 0 then minus :: zeros (w - 1) (digits 10 x.natAbs) else zeros w (digits 10 x.natAbs)

/-- What `snprintf` with the size `n` puts in memory of the text `t`, with the NUL. -/
def snprintf (n : ℕ) (t : List UInt8) : List UInt8 := if n = 0 then [] else t.take (n - 1) ++ [0]

/-- The numbers of a text, `run` being the digits in front of it. -/
def numbersFrom (run : List UInt8) : List UInt8 → List ℕ
  | [] => if run = [] then [] else [value 10 run]
  | c :: t =>
    if IsDigit 10 c then numbersFrom (run ++ [c]) t
    else (if run = [] then [] else [value 10 run]) ++ numbersFrom [] t

/-- The numbers that a text shows: what its runs of digits denote. -/
def numbers (t : List UInt8) : List ℕ := numbersFrom [] t

/-! ### Digits -/

theorem digitValue_digit : ∀ d < 16, digitValue (digit d) = d := by decide

/-- The characters of digits are in two ranges. -/
theorem digit_range : ∀ d < 16, 48 ≤ (digit d).toNat ∧ (digit d).toNat ≤ 57 ∨
    97 ≤ (digit d).toNat ∧ (digit d).toNat ≤ 102 := by decide

theorem digits_of_ne_zero (hn : n ≠ 0) : digits b n = ((b.digits n).map digit).reverse := if_neg hn

theorem mem_digits (hb : 1 < b) (hc : c ∈ digits b n) : ∃ d < b, c = digit d := by
  rw [digits] at hc
  split_ifs at hc with hn
  · exact ⟨0, by omega, List.mem_singleton.mp hc⟩
  · rw [List.mem_reverse, List.mem_map] at hc
    obtain ⟨d, hd, rfl⟩ := hc
    exact ⟨d, Nat.digits_lt_base hb hd, rfl⟩

/-- No blank, no sign and no NUL is among digits. -/
theorem digits_range (hb : 1 < b) (hb' : b ≤ 16) (hc : c ∈ digits b n) : 48 ≤ c.toNat := by
  obtain ⟨d, hd, rfl⟩ := mem_digits hb hc
  rcases digit_range d (lt_of_lt_of_le hd hb') with h | h
  · exact h.1
  · omega

theorem digits_ne_nil (b n : ℕ) : digits b n ≠ [] := by
  rw [digits]
  split_ifs with hn
  · exact List.cons_ne_nil _ _
  · intro h
    have hnil : b.digits n = [] := by simpa using h
    exact hn (Nat.digits_eq_nil_iff_eq_zero.mp hnil)

/-- **How many digits a number has.** -/
theorem length_digits_le_iff (hb : 1 < b) (hk : 0 < k) : (digits b n).length ≤ k ↔ n < b ^ k := by
  rcases eq_or_ne n 0 with rfl | hn
  · have hpow : 0 < b ^ k := Nat.pow_pos (by omega)
    have hone : (digits b 0).length = 1 := rfl
    rw [hone]
    exact ⟨fun _ => hpow, fun _ => hk⟩
  · rw [digits_of_ne_zero hn, List.length_reverse, List.length_map]
    exact Nat.digits_length_le_iff hb n

/-- The digits of a number denote it. -/
theorem value_digits (hb : 1 < b) (hb' : b ≤ 16) (n : ℕ) : value b (digits b n) = n := by
  rcases eq_or_ne n 0 with rfl | hn
  · have hzero : digitValue (digit 0) = 0 := by decide
    simp [value, digits, hzero]
  · have hback : ((b.digits n).map digit).map digitValue = b.digits n := by
      rw [List.map_map]
      exact (List.map_congr_left fun d hd =>
        digitValue_digit d (lt_of_lt_of_le (Nat.digits_lt_base hb hd) hb')).trans (List.map_id _)
    rw [value, digits_of_ne_zero hn, List.reverse_reverse, hback, Nat.ofDigits_digits]

/-- **No two numbers have the same digits.** -/
theorem digits_inj (hb : 1 < b) (hb' : b ≤ 16) : digits b n = digits b m ↔ n = m := by
  refine ⟨fun h => ?_, fun h => h ▸ rfl⟩
  have hvalue := congrArg (value b) h
  rwa [value_digits hb hb', value_digits hb hb'] at hvalue

/-- What `k` digits denote is less than the `k`-th power of the base. -/
theorem value_lt (hb : 1 < b) (ht : ∀ c ∈ t, digitValue c < b) : value b t < b ^ t.length := by
  have hlt := Nat.ofDigits_lt_base_pow_length (b := b) (l := t.reverse.map digitValue) hb (by
    intro d hd
    obtain ⟨c, hc, rfl⟩ := List.mem_map.mp hd
    exact ht c (List.mem_reverse.mp hc))
  rwa [List.length_map, List.length_reverse] at hlt

theorem isDigit_digit {d : ℕ} (hb' : b ≤ 16) (hd : d < b) : IsDigit b (digit d) := by
  rw [IsDigit, digitValue_digit d (by omega)]
  exact ⟨hd, rfl⟩

theorem isDigit_of_mem (hb : 1 < b) (hb' : b ≤ 16) (hc : c ∈ digits b n) : IsDigit b c := by
  obtain ⟨d, hd, rfl⟩ := mem_digits hb hc
  exact isDigit_digit hb' hd

/-- What is read of `k` digits is less than the `k`-th power of the base. -/
theorem lt_of_read (hb : 1 < b) (h : read b t = some n) : n < b ^ t.length := by
  rw [read] at h
  split_ifs at h with hall
  obtain rfl : value b t = n := Option.some.inj h
  exact value_lt hb fun c hc => (of_decide_eq_true (List.all_eq_true.mp hall.2 c hc)).1

/-! ### Integers -/

theorem decimal_of_nonneg (n : ℕ) : decimal n = digits 10 n := if_neg (by omega)

/-- **An integer has the digits of a number** only if it is the number. -/
theorem decimal_eq_digits_iff : decimal x = digits 10 n ↔ x = n := by
  constructor
  · intro h
    rw [decimal] at h
    split_ifs at h with hx
    · have hmem : minus ∈ digits 10 n := h ▸ List.mem_cons_self
      exact absurd (digits_range (by omega) (by omega) hmem) (by decide)
    · have habs : x.natAbs = n := (digits_inj (by omega) (by omega)).mp h
      omega
  · rintro rfl
    exact decimal_of_nonneg n

/-- **No two integers have the same text.** -/
theorem decimal_inj : decimal x = decimal y ↔ x = y := by
  refine ⟨fun h => ?_, fun h => h ▸ rfl⟩
  rcases lt_or_ge y 0 with hy | hy
  · rw [decimal, decimal, if_pos hy] at h
    split_ifs at h with hx
    · have habs : x.natAbs = y.natAbs :=
        (digits_inj (b := 10) (by omega) (by omega)).mp (List.cons.inj h).2
      omega
    · have hmem : minus ∈ digits 10 x.natAbs := h ▸ List.mem_cons_self
      exact absurd (digits_range (by omega) (by omega) hmem) (by decide)
  · obtain ⟨n, rfl⟩ := Int.eq_ofNat_of_zero_le hy
    exact decimal_eq_digits_iff.mp (h.trans (decimal_of_nonneg n))

/-- How long the text of an integer can be. -/
theorem length_decimal_le (hk : 0 < k) (hx : x.natAbs < 10 ^ k) : (decimal x).length ≤ k + 1 := by
  have hlen : (digits 10 x.natAbs).length ≤ k := (length_digits_le_iff (by omega) hk).mpr hx
  rw [decimal]
  split_ifs
  · rw [List.length_cons]
    omega
  · omega

theorem blank_notMem_digits (hb : 1 < b) (hb' : b ≤ 16) : blank ∉ digits b n := fun h =>
  absurd (digits_range hb hb' h) (by decide)

theorem blank_notMem_decimal : blank ∉ decimal x := by
  have hdigits : blank ∉ digits 10 x.natAbs := blank_notMem_digits (by omega) (by omega)
  rw [decimal]
  split_ifs
  · exact fun h => (List.mem_cons.mp h).elim (by decide) hdigits
  · exact hdigits

/-! ### Widths -/

/-- The blanks on the left can be taken away again. -/
theorem dropWhile_blanks (ht : blank ∉ t) : (blanks w t).dropWhile (· == blank) = t := by
  rw [blanks]
  induction w - t.length with
  | zero =>
    cases t with
    | nil => rfl
    | cons c t =>
      have hne : c ≠ blank := fun h => ht (h ▸ List.mem_cons_self)
      simp [hne]
  | succ k ih => simpa [List.replicate_succ] using ih

/-- **Texts without blanks** are the same if they are with blanks on their left. -/
theorem blanks_inj (ht : blank ∉ t) (hu : blank ∉ u) : blanks w t = blanks w u ↔ t = u := by
  refine ⟨fun h => ?_, fun h => h ▸ rfl⟩
  have hdrop := congrArg (List.dropWhile (· == blank)) h
  rwa [dropWhile_blanks ht, dropWhile_blanks hu] at hdrop

theorem mem_blanks (hc : c ∈ blanks w t) : c = blank ∨ c ∈ t := by
  rcases List.mem_append.mp hc with h | h
  · exact Or.inl (List.eq_of_mem_replicate h)
  · exact Or.inr h

theorem length_blanks : (blanks w t).length = max w t.length := by
  rw [blanks, List.length_append, List.length_replicate]
  omega

theorem length_zeros : (zeros w t).length = max w t.length := by
  rw [zeros, List.length_append, List.length_replicate]
  omega

theorem le_length_zeroDecimal (w : ℕ) (x : ℤ) : w ≤ (zeroDecimal w x).length := by
  rw [zeroDecimal]
  split_ifs
  · rw [List.length_cons, length_zeros]
    omega
  · rw [length_zeros]
    exact le_max_left _ _

/-- Zeros on the left do not change what digits denote. -/
theorem value_zeros : value b (zeros w t) = value b t := by
  have hzero : digitValue (digit 0) = 0 := by decide
  rw [value, value, zeros, List.reverse_append, List.map_append, List.reverse_replicate,
    List.map_replicate, hzero, Nat.ofDigits_append_replicate_zero]

theorem mem_zeros (hc : c ∈ zeros w t) : c = digit 0 ∨ c ∈ t := by
  rcases List.mem_append.mp hc with h | h
  · exact Or.inl (List.eq_of_mem_replicate h)
  · exact Or.inr h

theorem range_zeros (hb : 1 < b) (hb' : b ≤ 16) (hc : c ∈ zeros w (digits b n)) :
    32 ≤ c.toNat := by
  rcases mem_zeros hc with rfl | hmem
  · decide
  · exact (Nat.le_of_ble_eq_true rfl).trans (digits_range hb hb' hmem)

/-- Nothing below the blank is in the text of an integer. -/
theorem range_zeroDecimal (hc : c ∈ zeroDecimal w x) : 32 ≤ c.toNat := by
  rw [zeroDecimal] at hc
  split_ifs at hc
  · rcases List.mem_cons.mp hc with rfl | hmem
    · decide
    · exact range_zeros (by omega) (by omega) hmem
  · exact range_zeros (by omega) (by omega) hc

/-- Nothing below the blank is in a decimal text, either. -/
theorem range_decimal (hc : c ∈ decimal x) : 32 ≤ c.toNat := by
  have hdigits : ∀ c ∈ digits 10 x.natAbs, 32 ≤ c.toNat := fun c h =>
    (Nat.le_of_ble_eq_true rfl).trans (digits_range (by decide) (by decide) h)
  rw [decimal] at hc
  split_ifs at hc
  · rcases List.mem_cons.mp hc with rfl | hmem
    · decide
    · exact hdigits c hmem
  · exact hdigits c hc

/-- **Digits are read back**, with zeros on their left or without. -/
theorem read_zeros_digits (hb : 1 < b) (hb' : b ≤ 16) (w n : ℕ) :
    read b (zeros w (digits b n)) = some n := by
  have hne : zeros w (digits b n) ≠ [] := List.append_ne_nil_of_right_ne_nil _ (digits_ne_nil b n)
  have hall : (zeros w (digits b n)).all (fun c => decide (IsDigit b c)) = true := by
    refine List.all_eq_true.mpr fun c hc => decide_eq_true ?_
    rcases mem_zeros hc with rfl | hmem
    · exact isDigit_digit hb' (by omega)
    · exact isDigit_of_mem hb hb' hmem
  rw [read, if_pos ⟨hne, hall⟩, value_zeros, value_digits hb hb']

/-! ### The numbers of a text -/

/-- Digits are added to the run. -/
theorem numbersFrom_digits {run : List UInt8} (ht : ∀ c ∈ t, IsDigit 10 c) :
    numbersFrom run (t ++ u) = numbersFrom (run ++ t) u := by
  induction t generalizing run with
  | nil => rw [List.nil_append, List.append_nil]
  | cons c t ih =>
    obtain ⟨hc, ht⟩ := List.forall_mem_cons.mp ht
    rw [List.cons_append, numbersFrom, if_pos hc, ih ht, List.append_assoc, List.singleton_append]

/-- A character that is no digit ends a run. -/
theorem numbersFrom_append_cons {run : List UInt8} (hc : ¬IsDigit 10 c) :
    numbersFrom run (t ++ c :: u) = numbersFrom run t ++ numbers u := by
  induction t generalizing run with
  | nil => simp only [List.nil_append, numbersFrom, if_neg hc, numbers]
  | cons d t ih =>
    rw [List.cons_append, numbersFrom, numbersFrom]
    split_ifs
    · exact ih
    all_goals rw [ih, List.append_assoc]

/-- **Where a text is parted** by a character that is no digit, its numbers are. -/
theorem numbers_append_cons (hc : ¬IsDigit 10 c) :
    numbers (t ++ c :: u) = numbers t ++ numbers u := numbersFrom_append_cons hc

theorem numbers_cons (hc : ¬IsDigit 10 c) : numbers (c :: u) = numbers u := by
  have hnil : numbers [] = [] := rfl
  rw [← List.nil_append (c :: u), numbers_append_cons hc, hnil, List.nil_append]

theorem numbers_digits (n : ℕ) : numbers (digits 10 n) = [n] := by
  have hall : ∀ c ∈ digits 10 n, IsDigit 10 c := fun c hc =>
    isDigit_of_mem (by omega) (by omega) hc
  rw [numbers, ← List.append_nil (digits 10 n), numbersFrom_digits hall, List.nil_append,
    numbersFrom, if_neg (digits_ne_nil 10 n), value_digits (by omega) (by omega)]

/-- **A number with blanks on its left** is read back. -/
theorem numbers_blanks_digits (w n : ℕ) : numbers (blanks w (digits 10 n)) = [n] := by
  have hblank : ¬IsDigit 10 blank := by decide
  rw [blanks]
  induction w - (digits 10 n).length with
  | zero => exact numbers_digits n
  | succ k ih => rw [List.replicate_succ, List.cons_append, numbers_cons hblank, ih]

/-! ### In memory -/

/-- The beginning of a text is there in any case. -/
theorem take_snprintf (hk : k < n) (ht : k ≤ t.length) : (snprintf n t).take k = t.take k := by
  have hlen : k ≤ (t.take (n - 1)).length := by
    rw [List.length_take]
    omega
  rw [snprintf, if_neg (by omega), List.take_append_of_le_length hlen, List.take_take]
  congr 1
  omega

/-- **A text that fits** is put in memory whole. -/
theorem snprintf_of_lt (h : t.length < n) : snprintf n t = t ++ [0] := by
  rw [snprintf, if_neg (by omega), List.take_of_length_le (by omega)]

end Printf

end SystemProgramming
