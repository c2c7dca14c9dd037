import Mathlib.Data.Nat.Prime.Factorial
import SystemProgramming.Sync.PrimeGen

/-!
# How many primes the buffer holds

The texts of the primes of `mt_primes1` and `mt_primes2` go into a buffer of `MEM_SIZE` bytes,
of which a comment says that it should hold about 25,000 primes. `%6d, ` makes eight bytes of
a number at least – more of one that has more than six digits, or a minus sign – and the
string is ended by a NUL.

So the buffer holds 12,499 numbers below a million, which is half of what the comment expects.
Which ranges it is large enough for is a matter of the sum of the widths of their primes
(`SystemProgramming.PrimeBuffer.fits_iff`,
`SystemProgramming.PrimeBuffer.fits_iff_of_lt`). The primes up to 200,000 are too many for it
(`SystemProgramming.PrimeBuffer.overflow`): they are counted by their having no factor in
common with a factorial.
-/

namespace SystemProgramming

open Printf PrimeGen Runs

namespace PrimeBuffer

/-- The size of the buffer. -/
def MEM_SIZE : ℕ := 100000

/-- **The buffer is large enough**: at no time is the string in it longer, with its NUL. -/
def Fits (start limit : UInt32) : Prop :=
  ∀ s, Reaches (step start limit) State.start s → s.buf.length + 1 ≤ MEM_SIZE

/-- The function reports at most `n` numbers. -/
def ReportsAtMost (n : ℕ) (start limit : UInt32) : Prop :=
  ∀ s, Reaches (step start limit) State.start s → s.numPrimes ≤ n

/-- The bytes that the text of a number takes. From `2 ^ 31` on a number is printed as a
negative one. -/
def width (p : ℕ) : ℕ :=
  2 + max 6 (if p < 2 ^ 31 then Nat.log 10 p + 1 else Nat.log 10 (2 ^ 32 - p) + 2)

/-! ### Widths -/

theorem length_digits (n : ℕ) : (digits 10 n).length = Nat.log 10 n + 1 := by
  rcases eq_or_ne n 0 with rfl | hn
  · rfl
  · rw [digits_of_ne_zero hn, List.length_reverse, List.length_map,
      Nat.length_digits 10 n (by omega) hn]

/-- **The length of a number's text.** -/
theorem length_entry {p : ℕ} (hp : p < 2 ^ 32) :
    (entry (UInt32.ofNat p).toInt32.toInt).length = width p := by
  have hval : (UInt32.ofNat p).toNat = p := UInt32.toNat_ofNat_of_lt' hp
  have hcomma : (ascii ", ").length = 2 := by decide
  rw [entry, List.length_append, length_blanks, hcomma, width, Nat.add_comm]
  congr 2
  rcases toInt_toInt32_cases (UInt32.ofNat p) with ⟨hlt, hsame⟩ | ⟨hge, hneg⟩
  · rw [hval] at hlt hsame
    rw [if_pos hlt, hsame, decimal_of_nonneg, length_digits]
  · rw [hval] at hge hneg
    have habs : ((p : ℤ) - 2 ^ 32).natAbs = 2 ^ 32 - p := by omega
    rw [if_neg (by omega), hneg, decimal, if_pos (by omega), List.length_cons, habs, length_digits]

/-- A number below a million takes eight bytes. -/
theorem width_eq {p : ℕ} (hp : p < 10 ^ 6) : width p = 8 := by
  have hlog : Nat.log 10 p < 6 := Nat.log_lt_of_lt_pow' (by omega) hp
  rw [width, if_pos (by omega)]
  omega

/-- Numbers below a million take eight bytes each. -/
theorem sum_width {l : List ℕ} (hl : ∀ p ∈ l, p < 10 ^ 6) : (l.map width).sum = 8 * l.length := by
  have hmap : l.map width = l.map fun _ => 8 := List.map_congr_left fun p hp => width_eq (hl p hp)
  rw [hmap, List.map_const', List.sum_replicate_nat, Nat.mul_comm]

theorem length_reported_le (start limit : ℕ) :
    (reported start limit).length ≤ limit + 1 - start := by
  have hle := List.length_filter_le (fun i => decide (Undivided limit i 2))
    (List.range' start (limit + 1 - start))
  rwa [List.length_range'] at hle

/-! ### What is in the buffer at the end -/

section Runs

variable {start limit : UInt32}

theorem length_entries {l : List ℕ} (hl : ∀ p ∈ l, p < 2 ^ 32) :
    (entries l).length = (l.map width).sum := by
  rw [entries, List.length_flatMap]
  exact congrArg List.sum (List.map_congr_left fun p hp => length_entry (hl p hp))

/-- A step makes neither the string nor the number of primes less. -/
theorem le_of_step {s t : State} {i : Unit} (h : step start limit s i = some t) :
    s.buf.length ≤ t.buf.length ∧ s.numPrimes ≤ t.numPrimes := by
  rw [step] at h
  split at h
  all_goals try cases h
  · split_ifs <;> exact ⟨le_rfl, le_rfl⟩
  · split_ifs <;> exact ⟨le_rfl, le_rfl⟩
  · split_ifs <;> exact ⟨le_rfl, le_rfl⟩
  · split_ifs
    · refine ⟨?_, Nat.le_succ _⟩
      rw [strncat_entry, List.length_append]
      exact Nat.le_add_right _ _
    · exact ⟨le_rfl, le_rfl⟩

/-- **Where the outer loop has an end**, the end is the greatest. -/
theorem fits_and_reports_iff (hle : start ≤ limit) (hmax : limit.toNat < 2 ^ 32 - 1) (n : ℕ) :
    (Fits start limit ↔ (entries (reported start.toNat limit.toNat)).length < MEM_SIZE) ∧
      (ReportsAtMost n start limit ↔ (reported start.toNat limit.toNat).length ≤ n) := by
  obtain ⟨t, ht, hdone, hnum, hbuf⟩ := reaches_done start hmax
    (s := { State.start with i := start, pc := .outer }) rfl
  have hreach : Reaches (step start limit) State.start t := (reaches_start hle).trans ht
  have hend : ∀ i, step start limit t i = none := fun i => by rw [step, hdone]
  have hnum' : t.numPrimes = (reported start.toNat limit.toNat).length :=
    hnum.trans (Nat.zero_add _)
  have hbuf' : t.buf = entries (reported start.toNat limit.toNat) := hbuf
  rw [← hbuf', ← hnum']
  constructor
  · refine ⟨fun h => h t hreach, fun h s hs => ?_⟩
    have hlen : s.buf.length ≤ t.buf.length :=
      (hs.to_end hreach hend).le (μ := fun s => s.buf.length) fun s i t h => (le_of_step h).1
    omega
  · refine ⟨fun h => h t hreach, fun h s hs => ?_⟩
    have hprimes : s.numPrimes ≤ t.numPrimes :=
      (hs.to_end hreach hend).le (μ := State.numPrimes) fun s i t h => (le_of_step h).2
    exact hprimes.trans h

/-- **At the greatest `unsigned int`** the loop comes round to every number again. -/
theorem reaches_again (start : UInt32) (hmax : limit.toNat = 2 ^ 32 - 1) (k : ℕ) {s : State}
    (hpc : s.pc = .outer) :
    ∃ t, Reaches (step start limit) s t ∧ t.pc = .outer ∧ t.i = s.i + UInt32.ofNat k ∧
      s.numPrimes ≤ t.numPrimes := by
  induction k with
  | zero => exact ⟨s, Reaches.refl s, hpc, (UInt32.add_zero _).symm, le_rfl⟩
  | succ k ih =>
    obtain ⟨t, ht, htpc, hti, htnum⟩ := ih
    have hall : t.i ≤ limit := by
      have hlt := t.i.toNat_lt
      rw [UInt32.le_iff_toNat_le]
      omega
    obtain ⟨j, hturn⟩ := reaches_outer start htpc hall
    refine ⟨_, ht.trans hturn, rfl, ?_, htnum.trans (Nat.le_add_right _ _)⟩
    change t.i + 1 = s.i + UInt32.ofNat (k + 1)
    rw [hti, UInt32.ofNat_add, ← UInt32.add_assoc]
    rfl

/-- 1 is taken for a prime. -/
theorem undivided_one (limit : ℕ) : Undivided limit 1 2 := by
  intro m _ hm _ hmod
  rw [Nat.mod_eq_of_lt (by omega)] at hmod
  exact absurd hmod one_ne_zero

/-- So it reports more than any number of numbers: 1 is among them. -/
theorem not_reportsAtMost (hle : start ≤ limit) (hmax : limit.toNat = 2 ^ 32 - 1) (n : ℕ) :
    ¬ReportsAtMost n start limit := by
  have hmany : ∀ n, ∃ t, Reaches (step start limit) State.start t ∧ t.pc = .outer ∧
      n ≤ t.numPrimes := by
    intro n
    induction n with
    | zero => exact ⟨_, reaches_start hle, rfl, Nat.zero_le _⟩
    | succ n ih =>
      obtain ⟨t, ht, htpc, hn⟩ := ih
      obtain ⟨u, hu, hupc, hui, hunum⟩ := reaches_again start hmax (1 - t.i).toNat htpc
      have hone : u.i = 1 := by
        rw [hui, UInt32.ofNat_toNat, UInt32.add_comm, UInt32.sub_add_cancel]
      have hall : u.i ≤ limit := by
        have hval : (1 : UInt32).toNat = 1 := rfl
        rw [hone, UInt32.le_iff_toNat_le, hval]
        omega
      obtain ⟨j, hturn⟩ := reaches_outer start hupc hall
      refine ⟨_, (ht.trans hu).trans hturn, rfl, ?_⟩
      have hval : u.i.toNat = 1 := by
        rw [hone]
        rfl
      have hfilter : ([1].filter fun i => Undivided limit.toNat i 2) = [1] :=
        List.filter_cons_of_pos (decide_eq_true (undivided_one _))
      change n + 1 ≤ u.numPrimes + ([u.i.toNat].filter fun i => Undivided limit.toNat i 2).length
      rw [hval, hfilter, List.length_singleton]
      omega
  intro h
  obtain ⟨t, ht, -, hlt⟩ := hmany (n + 1)
  have hle := h t ht
  omega

/-- **The numbers that are taken for primes**, as soon as the limit is 6: the primes, and 1. -/
theorem reported_eq {start limit : ℕ} (hlimit : 6 ≤ limit) (hle : start ≤ limit) :
    reported start limit = (if start ≤ 1 then [1] else []) ++ primes start limit := by
  have hone : reported 1 limit = 1 :: primes 1 limit := by
    have htwo : reported 2 limit = primes 2 limit :=
      (reported_eq_primes_iff (by omega)).mpr (by omega)
    have hfilter : ([1].filter fun i => Undivided limit i 2) = [1] :=
      List.filter_cons_of_pos (decide_eq_true (undivided_one limit))
    have hfirst : reported 1 limit = [1].filter (fun i => Undivided limit i 2) ++
        reported 2 limit := filter_range'_succ (by omega)
    have hprimes : primes 1 limit = primes 2 limit := filter_range'_succ (by omega)
    rw [hfirst, hfilter, hprimes, htwo, List.singleton_append]
  have hzero : reported 0 limit = reported 1 limit := by
    have hdivided : ¬Undivided limit 0 2 := fun h => h 2 (by omega) le_rfl (by omega) rfl
    have hfilter : ([0].filter fun i => Undivided limit i 2) = [] :=
      List.filter_cons_of_neg (by simpa using hdivided)
    rw [reported, filter_range'_succ (by omega), hfilter]
    rfl
  have hzero' : primes 0 limit = primes 1 limit := filter_range'_succ (by omega)
  split_ifs with hsmall
  · rcases (by omega : start = 0 ∨ start = 1) with rfl | rfl
    · rw [hzero, hone, hzero', List.singleton_append]
    · exact hone
  · rw [List.nil_append, reported_eq_primes_iff hle]
    omega

/-- **The buffer is large enough** exactly if the texts of the primes take less than its size, that
of 1 being among them if 1 is in the range. -/
theorem fits_iff (hle : start ≤ limit) (hfew : ReportsAtMost 25000 start limit) :
    Fits start limit ↔ ((primes start.toNat limit.toNat).map width).sum +
      (if start.toNat ≤ 1 then 8 else 0) < MEM_SIZE := by
  have hlimit := limit.toNat_lt
  have hle' : start.toNat ≤ limit.toNat := UInt32.le_iff_toNat_le.mp hle
  have hmax : limit.toNat < 2 ^ 32 - 1 := by
    by_contra hge
    exact not_reportsAtMost hle (by omega) _ hfew
  have hsmall : ∀ p ∈ reported start.toNat limit.toNat, p < 2 ^ 32 := fun p hp =>
    (mem_reported.mp hp).1.2.trans_lt hlimit
  rw [(fits_and_reports_iff hle hmax 25000).1, length_entries hsmall]
  rcases Nat.lt_or_ge limit.toNat 6 with hlt | hge
  · -- so short a range is far from the buffer's end
    have hlen := length_reported_le start.toNat limit.toNat
    have hlen' := (primes_sublist start.toNat limit.toNat).length_le
    have hreported : ∀ p ∈ reported start.toNat limit.toNat, p < 10 ^ 6 := fun p hp =>
      (mem_reported.mp hp).1.2.trans_lt (by omega)
    have hprimes : ∀ p ∈ primes start.toNat limit.toNat, p < 10 ^ 6 := fun p hp =>
      (mem_primes.mp hp).1.2.trans_lt (by omega)
    rw [sum_width hreported, sum_width hprimes, MEM_SIZE]
    split_ifs <;> omega
  · rw [reported_eq hge hle', List.map_append, List.sum_append, Nat.add_comm]
    split_ifs <;> rfl

/-- **Below a million**, it is large enough for 12,499 numbers, and no more. -/
theorem fits_iff_of_lt (hle : start ≤ limit) (hfew : ReportsAtMost 25000 start limit)
    (hmillion : limit.toNat < 10 ^ 6) : Fits start limit ↔
      (primes start.toNat limit.toNat).length + (if start.toNat ≤ 1 then 1 else 0) ≤ 12499 := by
  have hprimes : ∀ p ∈ primes start.toNat limit.toNat, p < 10 ^ 6 := fun p hp =>
    (mem_primes.mp hp).1.2.trans_lt hmillion
  rw [fits_iff hle hfew, sum_width hprimes, MEM_SIZE]
  split_ifs <;> omega

end Runs

/-- A range that has so few numbers reports no more. -/
theorem reportsAtMost_of_lt {start limit : UInt32} (hle : start ≤ limit)
    (hmax : limit.toNat < 2 ^ 32 - 1) {n : ℕ} (hn : limit.toNat < start.toNat + n) :
    ReportsAtMost n start limit := by
  have hlen := length_reported_le start.toNat limit.toNat
  exact (fits_and_reports_iff hle hmax n).2.mpr (by omega)

/-- The third range of `main`. -/
theorem fits_iff_at : (20000 : UInt32) ≤ 20101 ∧ ReportsAtMost 25000 20000 20101 ∧
    (Fits 20000 20101 ↔ ((primes (20000 : UInt32).toNat (20101 : UInt32).toNat).map width).sum +
      (if (20000 : UInt32).toNat ≤ 1 then 8 else 0) < MEM_SIZE) := by
  have hfew : ReportsAtMost 25000 20000 20101 :=
    reportsAtMost_of_lt (by decide) (by decide) (by decide)
  exact ⟨by decide, hfew, fits_iff (by decide) hfew⟩

/-! ### A range that is too large -/

/-- How many numbers have no factor in common with `f`, in `2 ^ k` rows of six from `s` on. Only
the first and the fifth of a row are looked at. It is to be evaluated by the kernel: hence the
operations by their names. -/
def sieve (f : ℕ) : ℕ → ℕ → ℕ
  | 0, s => Nat.add (bif Nat.beq (Nat.gcd s f) 1 then 1 else 0)
      (bif Nat.beq (Nat.gcd (Nat.add s 4) f) 1 then 1 else 0)
  | k + 1, s => Nat.add (sieve f k s) (sieve f k (Nat.add s (Nat.mul 6 (Nat.pow 2 k))))

section Sieve

variable {f : ℕ}

/-- A number that 2 or 3 divides has a factor in common with `f`, if they divide `f`. -/
theorem not_coprime_of_mod {d i : ℕ} (hd : 1 < d) (hf : d ∣ f) (hi : i % d = 0) :
    ¬Nat.Coprime i f := fun h =>
  absurd (Nat.eq_one_of_dvd_coprimes h (Nat.dvd_of_mod_eq_zero hi) hf) (by omega)

theorem length_filter_singleton (i : ℕ) : ([i].filter fun i => Nat.Coprime i f).length =
    bif Nat.beq (Nat.gcd i f) 1 then 1 else 0 := by
  rcases hbeq : Nat.beq (Nat.gcd i f) 1 with _ | _
  · have hnot : ¬Nat.Coprime i f := fun h => Nat.ne_of_beq_eq_false hbeq h
    rw [List.filter_cons_of_neg (by simpa using hnot)]
    rfl
  · have h : Nat.Coprime i f := Nat.eq_of_beq_eq_true hbeq
    rw [List.filter_cons_of_pos (p := fun i => decide (Nat.Coprime i f)) (decide_eq_true h)]
    rfl

/-- **The sieve counts.** -/
theorem length_filter_coprime (htwo : 2 ∣ f) (hthree : 3 ∣ f) (k : ℕ) {s : ℕ} (hs : s % 6 = 1) :
    ((List.range' s (6 * 2 ^ k)).filter fun i => Nat.Coprime i f).length = sieve f k s := by
  induction k generalizing s with
  | zero =>
    have hrow : List.range' s (6 * 2 ^ 0) =
        [s] ++ ([s + 1, s + 2, s + 3] ++ ([s + 4] ++ [s + 5])) := rfl
    have hmid : ([s + 1, s + 2, s + 3].filter fun i => Nat.Coprime i f) = [] := by
      have h1 := not_coprime_of_mod (i := s + 1) (by omega) htwo (by omega)
      have h2 := not_coprime_of_mod (i := s + 2) (by omega) hthree (by omega)
      have h3 := not_coprime_of_mod (i := s + 3) (by omega) htwo (by omega)
      simp [h1, h2, h3]
    have hlast : ([s + 5].filter fun i => Nat.Coprime i f) = [] := by
      have h5 := not_coprime_of_mod (i := s + 5) (by omega) htwo (by omega)
      simp [h5]
    rw [hrow, List.filter_append, List.filter_append, List.filter_append, hmid, hlast,
      List.nil_append, List.append_nil, List.length_append, length_filter_singleton,
      length_filter_singleton]
    rfl
  | succ k ih =>
    have hhalf : 6 * 2 ^ (k + 1) = 6 * 2 ^ k + 6 * 2 ^ k := by
      rw [pow_succ]
      omega
    rw [hhalf, ← List.range'_append_1, List.filter_append, List.length_append, ih hs,
      ih (by omega)]
    rfl

end Sieve

/-- The primes between a number and its square. -/
theorem prime_iff_coprime {i n : ℕ} (hn : n < i) (hi : i < (n + 1) * (n + 1)) (hone : 1 < i) :
    i.Prime ↔ Nat.Coprime i n.factorial := by
  rw [Nat.coprime_factorial_iff (by omega)]
  constructor
  · intro hprime
    rwa [hprime.minFac_eq]
  · intro hfac
    by_contra hnot
    have hsq := Nat.minFac_sq_le_self (by omega) hnot
    rw [pow_two] at hsq
    exact absurd ((Nat.mul_le_mul hfac hfac).trans hsq) (Nat.not_le.mpr hi)

/-- There are so many primes between 445 and 197,053. -/
theorem length_primes_445 : (primes 445 197052).length = 17652 := by
  have hcount : sieve (Nat.factorial 443) 15 445 = 17652 := by decide +kernel
  have hsix : ∀ d, 0 < d → d ≤ 443 → d ∣ Nat.factorial 443 := fun d hd hle =>
    Nat.dvd_factorial hd hle
  have hlen : 197052 + 1 - 445 = 6 * 2 ^ 15 := rfl
  rw [← hcount, ← length_filter_coprime (hsix 2 (by omega) (by omega))
    (hsix 3 (by omega) (by omega)) 15 (by omega), primes, hlen]
  refine congrArg List.length (List.filter_congr fun i hi => ?_)
  have hrange := List.mem_range'_1.mp hi
  rw [decide_eq_decide]
  exact prime_iff_coprime (by omega) (by omega) (by omega)

/-- **The primes up to 200,000** are not too many for the comment, but for the buffer. -/
theorem overflow : (1 : UInt32) ≤ 200000 ∧ ReportsAtMost 25000 1 200000 ∧ ¬Fits 1 200000 := by
  have hlow : (1 : UInt32).toNat = 1 := rfl
  have hhigh : (200000 : UInt32).toNat = 200000 := rfl
  have hsplit : (primes 1 200000).length = 17652 + ((List.range' 1 444).filter Nat.Prime).length +
      ((List.range' 197053 2948).filter Nat.Prime).length := by
    have hrange : List.range' 1 (200000 + 1 - 1) =
        List.range' 1 444 ++ (List.range' 445 (197052 + 1 - 445) ++ List.range' 197053 2948) := by
      rw [List.range'_append_1 (s := 445) (m := 197052 + 1 - 445), List.range'_append_1]
    have hmid := length_primes_445
    rw [primes] at hmid
    rw [primes, hrange, List.filter_append, List.filter_append, List.length_append,
      List.length_append, hmid]
    omega
  have hfirst := List.length_filter_le (fun p => decide (Nat.Prime p)) (List.range' 1 444)
  have hlast := List.length_filter_le (fun p => decide (Nat.Prime p)) (List.range' 197053 2948)
  rw [List.length_range'] at hfirst hlast
  have hfew : ReportsAtMost 25000 1 200000 := by
    refine (fits_and_reports_iff (by decide) (by decide) 25000).2.mpr ?_
    rw [hlow, hhigh, reported_eq (by omega) (by omega), if_pos le_rfl, List.length_append, hsplit,
      List.length_singleton]
    omega
  refine ⟨by decide, hfew, fun h => ?_⟩
  have hfits := (fits_iff_of_lt (by decide) hfew (by decide)).mp h
  rw [hlow, hhigh, hsplit] at hfits
  omega

end PrimeBuffer

end SystemProgramming
