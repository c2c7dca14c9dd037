import Mathlib.Data.Nat.Prime.Basic
import SystemProgramming.Calls
import SystemProgramming.Printf
import SystemProgramming.Runs
import SystemProgramming.Strings

/-!
# Primes by trial division

`simple_primegen` of `mt_primes1` and `mt_primes2` (`solutions_to_assgn/ch16/`) looks for the
primes of a range, and puts their texts in a buffer. A number `i` is divided by all `j` from 2
up to half of the *limit* of the range, not of `i`, `i` itself being passed over.

For most ranges this is enough: the smallest factor of a composite number is at most a third
of it, or it is 2. It is not enough for 4 where the limit is 4 or 5, and 0 and 1 are not
numbers that a factor would give away. Also, the counter cannot pass the greatest
`unsigned int`, and the numbers are printed as signed ones. So the primes of a range are
found and printed exactly if none of this comes into play
(`SystemProgramming.PrimeGen.computes_iff`); the range {1, 5000} of `main` has 1 in it.
-/

namespace SystemProgramming

open Printf Runs Strings

namespace PrimeGen

/-! ### The function -/

/-- The size of `tmpbuf`. -/
def LEN : ℕ := 128

/-- Where the function stands. -/
inductive Pc where
  /-- At its assertion. -/
  | assert
  /-- At the head of the outer loop. -/
  | outer
  /-- At the head of the inner loop. -/
  | inner
  /-- Behind the inner loop. -/
  | check
  /-- It has returned. -/
  | done
  /-- The assertion has failed. -/
  | aborted
  deriving DecidableEq, Repr

/-- The variables, and the string in the buffer. The number of primes is a `size_t`, which
holds the number of all `unsigned int`s. -/
structure State where
  pc : Pc
  i : UInt32
  j : UInt32
  isprime : Bool
  numPrimes : ℕ
  buf : List UInt8
  deriving DecidableEq, Repr

/-- The function is called, with an empty buffer. -/
def State.start : State := ⟨.assert, 0, 0, false, 0, []⟩

/-- The format `"%6d, "`, with a number. -/
def entry (x : ℤ) : List UInt8 := blanks 6 (decimal x) ++ ascii ", "

/-- `strncat`: what `t` holds is appended to the string `buf`, `n` bytes of it at most. -/
def strncat (buf t : List UInt8) (n : ℕ) : List UInt8 := buf ++ (cstr t).take n

/-- **The step function**, for the range from `start` to `limit`. `%6d` takes the counter,
which is unsigned, for a signed number. -/
def step (start limit : UInt32) (s : State) (_ : Unit) : Option State :=
  match s.pc with
  | .assert => some (if start ≤ limit then { s with i := start, pc := .outer }
      else { s with pc := .aborted })
  | .outer => some (if s.i ≤ limit then { s with isprime := true, j := 2, pc := .inner }
      else { s with pc := .done })
  | .inner => some (if s.j < limit / 2 then
        if s.i ≠ s.j ∧ s.i % s.j = 0 then { s with isprime := false, pc := .check }
        else { s with j := s.j + 1 }
      else { s with pc := .check })
  | .check => some (if s.isprime then
        { s with numPrimes := s.numPrimes + 1
                 buf := strncat s.buf (snprintf LEN (entry s.i.toInt32.toInt)) LEN
                 i := s.i + 1
                 pc := .outer }
      else { s with i := s.i + 1, pc := .outer })
  | .done => none
  | .aborted => none

/-! ### What it should do -/

/-- The primes of a range. -/
def primes (start limit : ℕ) : List ℕ :=
  (List.range' start (limit + 1 - start)).filter fun p => p.Prime

/-- **The primes of the range are found**: the function returns their number, and their texts
are in the buffer, each once and in increasing order. -/
def Computes (start limit : UInt32) : Prop :=
  ∃ s, Reaches (step start limit) State.start s ∧ s.pc = .done ∧
    s.buf = (primes start.toNat limit.toNat).flatMap (fun p : ℕ => entry p) ∧
    s.numPrimes = (primes start.toNat limit.toNat).length

/-! ### Trial division -/

/-- No number from `j` up to half of the limit divides `i`, `i` itself being passed over. -/
def Undivided (limit i j : ℕ) : Prop := ∀ m < limit / 2, j ≤ m → i ≠ m → ¬i % m = 0

instance (limit i j : ℕ) : Decidable (Undivided limit i j) :=
  inferInstanceAs (Decidable (∀ m < limit / 2, j ≤ m → i ≠ m → ¬i % m = 0))

/-- The numbers of a range that are taken for primes. -/
def reported (start limit : ℕ) : List ℕ :=
  (List.range' start (limit + 1 - start)).filter fun i => Undivided limit i 2

section Division

variable {limit start i : ℕ}

/-- A prime is taken for one. -/
theorem undivided_of_prime (h : i.Prime) : Undivided limit i 2 := by
  intro m _ hm hne hdvd
  rcases (Nat.dvd_prime h).mp (Nat.dvd_of_mod_eq_zero hdvd) with rfl | rfl
  · omega
  · exact hne rfl

/-- **A composite number is not**, except 4 if the limit is 4 or 5. -/
theorem prime_of_undivided (h : Undivided limit i 2) (htwo : 2 ≤ i) (hle : i ≤ limit)
    (hfour : ¬(i = 4 ∧ (limit = 4 ∨ limit = 5))) : i.Prime := by
  by_contra hnot
  have hfac : i.minFac.Prime := Nat.minFac_prime (by omega)
  have hsq : i.minFac * i.minFac ≤ i := by
    have h := Nat.minFac_sq_le_self (by omega) hnot
    rwa [pow_two] at h
  have hne : i ≠ i.minFac := fun heq => hnot (heq ▸ hfac)
  have hdvd : i % i.minFac = 0 := Nat.mod_eq_zero_of_dvd (Nat.minFac_dvd i)
  refine h i.minFac ?_ hfac.two_le hne hdvd
  rcases Nat.lt_or_ge i.minFac 3 with hlt | hge
  · -- the smallest factor is 2: the limit has to be 6 at least
    have htwo' : i.minFac = 2 := by
      have := hfac.two_le
      omega
    rw [htwo'] at hdvd hne ⊢
    omega
  · have hmul : 3 * i.minFac ≤ i.minFac * i.minFac := Nat.mul_le_mul_right _ hge
    omega

/-- One turn of the inner loop. -/
theorem undivided_of_lt {j : ℕ} (h : j < limit / 2) : Undivided limit i j ↔
    ¬(i ≠ j ∧ i % j = 0) ∧ Undivided limit i (j + 1) := by
  constructor
  · intro hund
    exact ⟨fun hdiv => hund j h le_rfl hdiv.1 hdiv.2, fun m hm hj => hund m hm (Nat.le_of_lt hj)⟩
  · rintro ⟨hdiv, hund⟩ m hm hj hne hmod
    rcases Nat.eq_or_lt_of_le hj with rfl | hlt
    · exact hdiv ⟨hne, hmod⟩
    · exact hund m hm hlt hne hmod

/-- The first number of a range comes first. -/
theorem filter_range'_succ {p : ℕ → Bool} (h : i ≤ limit) :
    (List.range' i (limit + 1 - i)).filter p =
      [i].filter p ++ (List.range' (i + 1) (limit + 1 - (i + 1))).filter p := by
  have hlen : limit + 1 - i = limit + 1 - (i + 1) + 1 := by omega
  rw [hlen, List.range'_succ, ← List.singleton_append, List.filter_append]

/-- The primes of a range are among the numbers that are taken for primes. -/
theorem primes_sublist (start limit : ℕ) : (primes start limit).Sublist (reported start limit) := by
  refine List.monotone_filter_right _ fun p hp => ?_
  simpa using undivided_of_prime (by simpa using hp)

theorem mem_reported : i ∈ reported start limit ↔
    (start ≤ i ∧ i ≤ limit) ∧ Undivided limit i 2 := by
  rw [reported, List.mem_filter, List.mem_range'_1, decide_eq_true_iff]
  refine and_congr_left fun _ => ?_
  omega

theorem mem_primes : i ∈ primes start limit ↔ (start ≤ i ∧ i ≤ limit) ∧ i.Prime := by
  rw [primes, List.mem_filter, List.mem_range'_1, decide_eq_true_iff]
  refine and_congr_left fun _ => ?_
  omega

/-- **The numbers that are taken for primes are the primes** exactly if the range has neither 0
nor 1 in it, nor 4 together with a limit below 6. -/
theorem reported_eq_primes_iff (hle : start ≤ limit) : reported start limit = primes start limit ↔
    2 ≤ start ∧ ¬(start ≤ 4 ∧ (limit = 4 ∨ limit = 5)) := by
  constructor
  · intro h
    have hprime : ∀ i, start ≤ i → i ≤ limit → Undivided limit i 2 → i.Prime := by
      intro i hi hi' hund
      have hmem : i ∈ reported start limit := mem_reported.mpr ⟨⟨hi, hi'⟩, hund⟩
      rw [h] at hmem
      exact (mem_primes.mp hmem).2
    constructor
    · by_contra hlt
      -- nothing divides 1; and 0 is only divided where 1 is in the range, too
      rcases Nat.lt_or_ge limit 1 with hlim | hlim
      · have hzero : Undivided limit 0 2 := fun m hm => absurd hm (by omega)
        exact absurd (hprime 0 (by omega) (by omega) hzero) Nat.not_prime_zero
      · have hone : Undivided limit 1 2 := by
          intro m _ hm _ hmod
          rw [Nat.mod_eq_of_lt (by omega)] at hmod
          exact absurd hmod one_ne_zero
        exact absurd (hprime 1 (by omega) hlim hone) Nat.not_prime_one
    · rintro ⟨hfour, hlim⟩
      have hund : Undivided limit 4 2 := fun m hm htwo => absurd hm (by omega)
      exact absurd (hprime 4 hfour (by omega) hund) (by decide)
  · rintro ⟨htwo, hfour⟩
    refine List.filter_congr fun i hi => ?_
    have hrange := List.mem_range'_1.mp hi
    rw [decide_eq_decide]
    exact ⟨fun h => prime_of_undivided h (by omega) (by omega) (by omega),
      undivided_of_prime⟩

end Division

/-! ### What it does -/

section Loops

variable {start limit : UInt32} {s : State}

/-- The text of a number fits in `tmpbuf`, and is appended whole. -/
theorem strncat_entry (buf : List UInt8) (x : UInt32) :
    strncat buf (snprintf LEN (entry x.toInt32.toInt)) LEN = buf ++ entry x.toInt32.toInt := by
  have hlt : x.toInt32.toInt.natAbs < 10 ^ 10 := by
    have hlow := x.toInt32.le_toInt
    have hhigh := x.toInt32.toInt_lt
    omega
  have hdecimal := length_decimal_le (by decide) hlt
  have hlen : (entry x.toInt32.toInt).length < LEN := by
    have hcomma : (ascii ", ").length = 2 := by decide
    rw [entry, List.length_append, length_blanks, hcomma, LEN]
    omega
  have hzero : (0 : UInt8) ∉ entry x.toInt32.toInt := by
    intro h
    rcases List.mem_append.mp h with hmem | hmem
    · rcases mem_blanks hmem with h0 | h0
      · exact absurd h0 (by decide)
      · exact absurd (range_decimal h0) (by decide)
    · exact absurd hmem (by decide)
  rw [strncat, snprintf_of_lt hlen, cstr_append_zero, cstr_eq_self hzero,
    List.take_of_length_le hlen.le]

/-- **The inner loop** finds out whether some number from `j` on divides `i`. -/
theorem reaches_check (start limit : UInt32) (hpc : s.pc = .inner) (hprime : s.isprime = true) :
    ∃ j, Reaches (step start limit) s
      { s with pc := .check
               j := j
               isprime := decide (Undivided limit.toNat s.i.toNat s.j.toNat) } := by
  induction hn : limit.toNat / 2 - s.j.toNat generalizing s with
  | zero =>
    have hend : ¬s.j < limit / 2 := by
      rw [UInt32.lt_iff_toNat_lt, UInt32.toNat_div]
      exact Nat.not_lt.mpr (Nat.le_of_sub_eq_zero hn)
    have hund : Undivided limit.toNat s.i.toNat s.j.toNat := fun m hm hj => absurd hm (by omega)
    refine ⟨s.j, .single (i := ()) ?_⟩
    rw [step, hpc]
    simp only [if_neg hend, hund, decide_true, ← hprime]
  | succ n ih =>
    have hlt : s.j < limit / 2 := by
      rw [UInt32.lt_iff_toNat_lt, UInt32.toNat_div]
      exact Nat.lt_of_sub_pos (hn ▸ Nat.succ_pos n)
    have hlt' : s.j.toNat < limit.toNat / 2 := Nat.lt_of_sub_pos (hn ▸ Nat.succ_pos n)
    have hturn := undivided_of_lt (i := s.i.toNat) hlt'
    have hdiv : s.i ≠ s.j ∧ s.i % s.j = 0 ↔ s.i.toNat ≠ s.j.toNat ∧ s.i.toNat % s.j.toNat = 0 := by
      refine and_congr (not_congr UInt32.toNat_inj.symm) ?_
      rw [← UInt32.toNat_inj, UInt32.toNat_mod]
      rfl
    by_cases hd : s.i ≠ s.j ∧ s.i % s.j = 0
    · have hund : ¬Undivided limit.toNat s.i.toNat s.j.toNat := fun h =>
        (hturn.mp h).1 (hdiv.mp hd)
      refine ⟨s.j, .single (i := ()) ?_⟩
      rw [step, hpc]
      simp only [if_pos hlt, if_pos hd, hund, decide_false]
    · have hsucc : (s.j + 1).toNat = s.j.toNat + 1 := by
        have hbound := limit.toNat_lt
        have hone : (1 : UInt32).toNat = 1 := rfl
        rw [UInt32.toNat_add, hone]
        omega
      have hund : Undivided limit.toNat s.i.toNat s.j.toNat ↔
          Undivided limit.toNat s.i.toNat (s.j.toNat + 1) :=
        hturn.trans (and_iff_right fun h => hd (hdiv.mpr h))
      obtain ⟨j, hj⟩ := ih (s := { s with j := s.j + 1 }) hpc hprime (by rw [hsucc]; omega)
      have hdec : decide (Undivided limit.toNat s.i.toNat s.j.toNat) =
          decide (Undivided limit.toNat s.i.toNat (s.j.toNat + 1)) := decide_eq_decide.mpr hund
      have hstep : step start limit s () = some { s with j := s.j + 1 } := by
        rw [step, hpc]
        simp only [if_pos hlt, if_neg hd]
      simp only [hsucc, ← hdec] at hj
      exact ⟨j, Reaches.head hstep hj⟩

/-- What is appended for the numbers of a list. -/
def entries (l : List ℕ) : List UInt8 := l.flatMap fun i => entry (UInt32.ofNat i).toInt32.toInt

/-- **One turn of the outer loop.** -/
theorem reaches_outer (start : UInt32) (hpc : s.pc = .outer) (hle : s.i ≤ limit) :
    ∃ j, Reaches (step start limit) s
      { pc := .outer
        i := s.i + 1
        j := j
        isprime := decide (Undivided limit.toNat s.i.toNat 2)
        numPrimes := s.numPrimes + ([s.i.toNat].filter fun i => Undivided limit.toNat i 2).length
        buf := s.buf ++ entries ([s.i.toNat].filter fun i => Undivided limit.toNat i 2) } := by
  have hstart : step start limit s () =
      some { s with isprime := true, j := 2, pc := .inner } := by
    rw [step, hpc]
    simp only [if_pos hle]
  obtain ⟨j, hj⟩ := reaches_check start limit
    (s := { s with isprime := true, j := 2, pc := .inner }) rfl rfl
  refine ⟨j, Reaches.head hstart (hj.trans (.single (i := ()) ?_))⟩
  have htwo : (2 : UInt32).toNat = 2 := rfl
  by_cases hund : Undivided limit.toNat s.i.toNat 2
  · have hfilter : [s.i.toNat].filter (fun i => Undivided limit.toNat i 2) = [s.i.toNat] :=
      List.filter_cons_of_pos (by simpa using hund)
    rw [step, hfilter]
    simp only [htwo, hund, decide_true, if_true, strncat_entry, entries, List.flatMap_singleton,
      List.length_singleton, UInt32.ofNat_toNat]
  · have hfilter : [s.i.toNat].filter (fun i => Undivided limit.toNat i 2) = [] :=
      List.filter_cons_of_neg (by simpa using hund)
    rw [step, hfilter]
    simp only [htwo, hund, decide_false, Bool.false_eq_true, if_false, entries, List.flatMap_nil,
      List.append_nil, List.length_nil, Nat.add_zero]

/-- **The outer loop** comes to its end below the greatest `unsigned int`. -/
theorem reaches_done (start : UInt32) (hmax : limit.toNat < 2 ^ 32 - 1) (hpc : s.pc = .outer) :
    ∃ t, Reaches (step start limit) s t ∧ t.pc = .done ∧
      t.numPrimes = s.numPrimes + (reported s.i.toNat limit.toNat).length ∧
      t.buf = s.buf ++ entries (reported s.i.toNat limit.toNat) := by
  induction hn : limit.toNat + 1 - s.i.toNat generalizing s with
  | zero =>
    have hend : ¬s.i ≤ limit := by
      rw [UInt32.le_iff_toNat_le]
      omega
    have hnone : reported s.i.toNat limit.toNat = [] := by
      rw [reported, hn]
      rfl
    refine ⟨{ s with pc := .done }, .single (i := ()) ?_, rfl, ?_, ?_⟩
    · rw [step, hpc]
      simp only [if_neg hend]
    · rw [hnone]
      rfl
    · rw [hnone, entries, List.flatMap_nil, List.append_nil]
  | succ n ih =>
    have hle : s.i ≤ limit := by
      rw [UInt32.le_iff_toNat_le]
      omega
    have hsucc : (s.i + 1).toNat = s.i.toNat + 1 := by
      have hle' := UInt32.le_iff_toNat_le.mp hle
      have hone : (1 : UInt32).toNat = 1 := rfl
      rw [UInt32.toNat_add, hone]
      omega
    have hreported : reported s.i.toNat limit.toNat =
        [s.i.toNat].filter (fun i => Undivided limit.toNat i 2) ++
          reported (s.i.toNat + 1) limit.toNat := filter_range'_succ (by omega)
    obtain ⟨j, hturn⟩ := reaches_outer start hpc hle
    obtain ⟨t, hreach, hdone, hnum, hbuf⟩ := ih (s := ⟨.outer, s.i + 1, j, _, _, _⟩) rfl (by
      change limit.toNat + 1 - (s.i + 1).toNat = n
      omega)
    refine ⟨t, hturn.trans hreach, hdone, ?_, ?_⟩
    · rw [hnum, hsucc, hreported, List.length_append, Nat.add_assoc]
    · rw [hbuf, hsucc, hreported, entries, entries, entries, List.flatMap_append, List.append_assoc]

/-- **At the greatest `unsigned int`** the outer loop has no end. -/
theorem not_done (hmax : 2 ^ 32 - 1 ≤ limit.toNat) (hle : start ≤ limit) {t : State}
    (h : Reaches (step start limit) .start t) : t.pc ≠ .done := by
  obtain ⟨is, his⟩ := h
  refine run_invariant (P := fun s => s.pc ≠ .done) ?_ (by simp [State.start]) his
  intro s i t _ hstep
  have hall : s.i ≤ limit := by
    have hlt := s.i.toNat_lt
    rw [UInt32.le_iff_toNat_le]
    omega
  rw [step] at hstep
  cases hpc : s.pc with
  | assert =>
    rw [hpc] at hstep
    obtain rfl := Option.some.inj hstep
    rw [if_pos hle]
    simp
  | outer =>
    rw [hpc] at hstep
    obtain rfl := Option.some.inj hstep
    rw [if_pos hall]
    simp
  | inner =>
    rw [hpc] at hstep
    obtain rfl := Option.some.inj hstep
    split_ifs <;> simp
  | check =>
    rw [hpc] at hstep
    obtain rfl := Option.some.inj hstep
    split_ifs <;> simp
  | done =>
    rw [hpc] at hstep
    cases hstep
  | aborted =>
    rw [hpc] at hstep
    cases hstep

/-- The function begins with the first number of the range. -/
theorem reaches_start (hle : start ≤ limit) : Reaches (step start limit) State.start
    { State.start with i := start, pc := .outer } := by
  refine .single (i := ()) ?_
  rw [step, State.start]
  simp only [if_pos hle]

/-- **What the function computes**: the numbers that are taken for primes. -/
theorem computes_iff_reported (hle : start ≤ limit) : Computes start limit ↔
    limit.toNat < 2 ^ 32 - 1 ∧
      (reported start.toNat limit.toNat).length = (primes start.toNat limit.toNat).length ∧
      entries (reported start.toNat limit.toNat) =
        (primes start.toNat limit.toNat).flatMap fun p : ℕ => entry p := by
  have hbegin := reaches_start hle
  constructor
  · rintro ⟨s, hs, hdone, hbuf, hnum⟩
    have hmax : limit.toNat < 2 ^ 32 - 1 := by
      by_contra hge
      exact not_done (Nat.le_of_not_lt hge) hle hs hdone
    obtain ⟨t, ht, hdone', hnum', hbuf'⟩ := reaches_done start hmax
      (s := { State.start with i := start, pc := .outer }) rfl
    obtain rfl : s = t := hs.unique (hbegin.trans ht) (fun i => by rw [step, hdone])
      fun i => by rw [step, hdone']
    rw [hnum] at hnum'
    rw [hbuf] at hbuf'
    exact ⟨hmax, (hnum'.trans (Nat.zero_add _)).symm, hbuf'.symm⟩
  · rintro ⟨hmax, hlen, htext⟩
    obtain ⟨t, ht, hdone, hnum, hbuf⟩ := reaches_done start hmax
      (s := { State.start with i := start, pc := .outer }) rfl
    exact ⟨t, hbegin.trans ht, hdone, hbuf.trans htext, hnum.trans ((Nat.zero_add _).trans hlen)⟩

end Loops

/-- The text of a number that is not negative has no minus sign. -/
theorem minus_notMem_entry (p : ℕ) : minus ∉ entry p := by
  intro h
  rcases List.mem_append.mp h with hmem | hmem
  · rcases mem_blanks hmem with h0 | h0
    · exact absurd h0 (by decide)
    · rw [decimal_of_nonneg] at h0
      exact absurd (digits_range (by decide) (by decide) h0) (by decide)
  · exact absurd hmem (by decide)

/-- **The texts of numbers** are the right ones exactly if all are below `2 ^ 31`: another one is
printed with a minus sign. -/
theorem entries_eq_iff {l : List ℕ} (hl : ∀ p ∈ l, p < 2 ^ 32) :
    (entries l = l.flatMap fun p : ℕ => entry p) ↔ ∀ p ∈ l, p < 2 ^ 31 := by
  have hval : ∀ p ∈ l, (UInt32.ofNat p).toNat = p := fun p hp => UInt32.toNat_ofNat_of_lt' (hl p hp)
  constructor
  · intro h p hp
    by_contra hge
    -- a minus sign is in the one text, and not in the other
    have hneg : (UInt32.ofNat p).toInt32.toInt < 0 := by
      have hvalp := hval p hp
      rcases toInt_toInt32_cases (UInt32.ofNat p) with ⟨hlt, -⟩ | ⟨-, hneg⟩
      · omega
      · have hbound := (UInt32.ofNat p).toNat_lt
        omega
    have hmem : minus ∈ entries l := by
      refine List.mem_flatMap.mpr ⟨p, hp, List.mem_append_left _ (List.mem_append_right _ ?_)⟩
      rw [decimal, if_pos hneg]
      exact List.mem_cons_self
    rw [h] at hmem
    obtain ⟨q, -, hq⟩ := List.mem_flatMap.mp hmem
    exact minus_notMem_entry q hq
  · intro h
    refine List.flatMap_congr fun p hp => ?_
    have hvalp := hval p hp
    have hlt := h p hp
    rcases toInt_toInt32_cases (UInt32.ofNat p) with ⟨-, hsame⟩ | ⟨hge, -⟩
    · rw [hsame, hvalp]
    · omega

/-- **The primes of a range are found, and printed** – in increasing order, each once, and
returning their number – exactly if the range has neither 0 nor 1 in it, nor 4 together with a
limit below 6, its limit is not the greatest `unsigned int`, and no prime in it is too large
for an `int`. -/
theorem computes_iff {start limit : UInt32} (hle : start ≤ limit) : Computes start limit ↔
    2 ≤ start.toNat ∧ ¬(start.toNat ≤ 4 ∧ (limit.toNat = 4 ∨ limit.toNat = 5)) ∧
      limit.toNat < 2 ^ 32 - 1 ∧
      ∀ p, p.Prime → start.toNat ≤ p → p ≤ limit.toNat → p < 2 ^ 31 := by
  have hle' : start.toNat ≤ limit.toNat := UInt32.le_iff_toNat_le.mp hle
  have hlimit := limit.toNat_lt
  have hprimes : ∀ p ∈ primes start.toNat limit.toNat, p < 2 ^ 32 := fun p hp =>
    (mem_primes.mp hp).1.2.trans_lt hlimit
  have hsmall : (∀ p ∈ primes start.toNat limit.toNat, p < 2 ^ 31) ↔
      ∀ p, p.Prime → start.toNat ≤ p → p ≤ limit.toNat → p < 2 ^ 31 :=
    ⟨fun h p hp hlow hhigh => h p (mem_primes.mpr ⟨⟨hlow, hhigh⟩, hp⟩),
      fun h p hp => h p (mem_primes.mp hp).2 (mem_primes.mp hp).1.1 (mem_primes.mp hp).1.2⟩
  rw [computes_iff_reported hle, ← and_assoc (b := ¬_), ← reported_eq_primes_iff hle', ← hsmall]
  constructor
  · rintro ⟨hmax, hlen, htext⟩
    have hsame : reported start.toNat limit.toNat = primes start.toNat limit.toNat :=
      ((primes_sublist _ _).eq_of_length hlen.symm).symm
    rw [hsame] at htext
    exact ⟨hsame, hmax, (entries_eq_iff hprimes).mp htext⟩
  · rintro ⟨hsame, hmax, hall⟩
    rw [hsame]
    exact ⟨hmax, rfl, (entries_eq_iff hprimes).mpr hall⟩

/-- The second range of `main`. -/
theorem computes_iff_at : (5001 : UInt32) ≤ 10000 ∧ Computes 5001 10000 := by
  refine ⟨by decide, (computes_iff (by decide)).mpr ⟨by decide, by decide, by decide, ?_⟩⟩
  intro p _ _ hp
  have hlimit : (10000 : UInt32).toNat = 10000 := rfl
  omega

/-- **Numbers that are taken for primes**: 1 in the first range of `main`, and 4 up to the limit
5; and a range that has no end. -/
theorem not_computes : ¬Computes 1 5000 ∧ 1 ∈ reported 1 5000 ∧ ¬Computes 2 5 ∧ 4 ∈ reported 2 5 ∧
    ¬Computes 2 4294967295 := by
  have hsame : ∀ start limit : UInt32, start ≤ limit → Computes start limit →
      reported start.toNat limit.toNat = primes start.toNat limit.toNat := fun start limit hle h =>
    ((primes_sublist _ _).eq_of_length ((computes_iff_reported hle).mp h).2.1.symm).symm
  have hone : 1 ∈ reported 1 5000 := by
    refine mem_reported.mpr ⟨by decide, fun m _ hm _ hmod => ?_⟩
    rw [Nat.mod_eq_of_lt (by omega)] at hmod
    exact absurd hmod one_ne_zero
  have hfour : 4 ∈ reported 2 5 := by decide
  refine ⟨fun h => ?_, hone, fun h => ?_, hfour, fun h => ?_⟩
  · have hmem : 1 ∈ primes 1 5000 := hsame 1 5000 (by decide) h ▸ hone
    exact Nat.not_prime_one (mem_primes.mp hmem).2
  · have hmem : 4 ∈ primes 2 5 := hsame 2 5 (by decide) h ▸ hfour
    exact absurd (mem_primes.mp hmem).2 (by decide)
  · exact absurd ((computes_iff_reported (by decide)).mp h).1 (by decide)

end PrimeGen

end SystemProgramming
