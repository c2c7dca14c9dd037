import Mathlib.Data.Nat.Factorial.Basic
import SystemProgramming.Calls
import SystemProgramming.CriticalSection
import SystemProgramming.Printf
import SystemProgramming.Strings

/-!
# Factorials, one after another

`facto` (`ch15/`): threads compute a factorial each, all of them in one global variable,
and print it. With locking on, a thread has the variable for itself from the first store
to the print, and what is printed should be the factorial of its own number, modulo
`2 ^ 64` – the variable is an `unsigned long long`.

The lock does its part: when a thread prints, the variable holds the factorial of its
number. But it is printed as a signed number, so that the upper half of the values comes
out negative, and the counter of the loop, an `int`, cannot pass the greatest `int`. So the
factorials are printed as they should be exactly if no number is among those whose
factorial is in the upper half, all of them between 21 and 65, and none is the greatest
`int` (`SystemProgramming.Facto.factorials_iff`).
-/

namespace SystemProgramming

open CriticalSection Printf Runs Strings
open scoped Nat

namespace Facto

/-! ### The threads -/

/-- A line of the output. -/
inductive Line where
  /-- The verbose line of one turn of the loop. -/
  | progress (i : Int32) (fact : Int64)
  /-- The last line of a thread: its `datum`, its number, and the factorial. -/
  | result (datum : ℕ) (num : Int32) (fact : Int64)
  deriving DecidableEq, Repr

/-- The last line of a thread, with the text of the factorial. -/
def resultText (datum : ℕ) (num : Int32) (fact : List UInt8) : List UInt8 :=
  ascii "[Thread #" ++ decimal datum ++ ascii "] (factorial) " ++ decimal num.toInt ++
    ascii " ! = " ++ blanks 20 fact ++ [newline]

/-- A line as it is printed; `%20lld` is for signed numbers. -/
def Line.text : Line → List UInt8
  | .progress i fact => ascii "facto.c:factorize:50:  i=" ++ blanks 2 (decimal i.toInt) ++
      ascii "  fact=" ++ blanks 20 (decimal fact.toInt) ++ [newline]
  | .result datum num fact => resultText datum num (decimal fact.toInt)

/-- What the threads share: the global variable, and what has been printed. -/
structure Globals where
  gFactorial : UInt64
  out : List Line
  deriving DecidableEq, Repr

/-- A line is printed. -/
def Globals.print (l : Line) (x : Globals) : Globals := { x with out := x.out ++ [l] }

/-- Where a thread stands in its critical section. -/
inductive Point where
  /-- In `factorize`: about to set the variable to 1. -/
  | store
  /-- About to read the variable, for the multiplication. -/
  | load (i : Int32)
  /-- About to store the product, the variable having been `v`. -/
  | mul (i : Int32) (v : UInt64)
  /-- About to read the variable, for the verbose line. -/
  | loadVerbose (i : Int32)
  /-- About to print that line. -/
  | printVerbose (i : Int32) (v : UInt64)
  /-- In `worker`, behind `factorize`: about to read the variable. -/
  | result
  /-- About to print it. -/
  | print (v : UInt64)
  /-- About to unlock. -/
  | through
  deriving DecidableEq, Repr

/-- A control point, with the thread's number. -/
structure Pc where
  num : Int32
  point : Point
  deriving DecidableEq, Repr

/-- The head of the loop. -/
def loop (num i : Int32) : Point := if i ≤ num then .load i else .result

/-- **A critical section**, step by step: `factorize`, and the `printf` of `worker`. Every
read and every write of the variable is a step. -/
def next (gVerbose : Bool) (t : ℕ) (k : Pc) (x : Globals) : Option (Pc × Globals) :=
  match k.point with
  | .store => some ({ k with point := if k.num ≤ 0 then .result else loop k.num 1 },
      { x with gFactorial := 1 })
  | .load i => some ({ k with point := .mul i x.gFactorial }, x)
  | .mul i v => some ({ k with point := if gVerbose then .loadVerbose i else loop k.num (i + 1) },
      { x with gFactorial := v * i.toInt64.toUInt64 })
  | .loadVerbose i => some ({ k with point := .printVerbose i x.gFactorial }, x)
  | .printVerbose i v => some ({ k with point := loop k.num (i + 1) },
      x.print (.progress i v.toInt64))
  | .result => some ({ k with point := .print x.gFactorial }, x)
  | .print v => some ({ k with point := .through }, x.print (.result (t + 1) k.num v.toInt64))
  | .through => none

/-- The number of the thread `t`, by its `datum`. -/
def worker (t : ℕ) : Int32 := if t + 1 = 1 then 10 else if t + 1 = 2 then 12 else 0

/-- The thread `t` begins with its number. -/
def init (N : ℕ → Int32) (t : ℕ) : Pc := ⟨N t, .store⟩

/-- **The step function**, for threads with the numbers `N`. -/
def step (gLocking : Bool) (nthreads : ℕ) (N : ℕ → Int32) (gVerbose : Bool) :
    System Pc Globals → ℕ → Option (System Pc Globals) :=
  CriticalSection.step gLocking nthreads (init N) (next gVerbose)

/-- The global variables at the start. -/
def globals : Globals := ⟨1, []⟩

/-! ### What is printed -/

/-- The line is the last one of the thread `t`. -/
def Line.isResult (t : ℕ) : Line → Bool
  | .result datum _ _ => datum = t + 1
  | .progress _ _ => false

/-- The last lines of the thread `t`. -/
def results (t : ℕ) (out : List Line) : List Line := out.filter (Line.isResult t)

/-- **The factorials are printed as they should be**: whatever has happened, the threads come
to their ends, and then each has printed the factorial of its number modulo `2 ^ 64`, once,
and up to 20 this is the factorial. -/
structure Right (nthreads : ℕ) (N : ℕ → Int32) (gVerbose : Bool) : Prop where
  ends : ∀ ls s, run (step true nthreads N gVerbose) (.start globals) ls = some s →
    ∃ ls' s', run (step true nthreads N gVerbose) s ls' = some s' ∧ s'.Done nthreads
  prints : ∀ ls s, run (step true nthreads N gVerbose) (.start globals) ls = some s →
    s.Done nthreads → ∀ t < nthreads, (results t s.shared.out).map Line.text =
      [resultText (t + 1) (N t) (digits 10 ((N t).toInt.toNat ! % 2 ^ 64))]
  small : ∀ t < nthreads, (N t).toInt ≤ 20 →
    (N t).toInt.toNat ! % 2 ^ 64 = (N t).toInt.toNat !

/-- The numbers whose factorials, modulo `2 ^ 64`, are `2 ^ 63` or more. -/
def upperHalf : List ℕ :=
  [21, 22, 24, 26, 27, 28, 29, 30, 32, 40, 41, 43, 45, 47, 48, 50, 51, 52, 53, 54, 60, 64, 65]

/-- The factorial of `n`, as the variable holds it. -/
def fact (n : ℕ) : UInt64 := UInt64.ofNat n !

/-- The loop has got to a place where `n` factors have been multiplied; of the greatest `int`,
whose loop has no end, nothing is said. -/
def Partial (num i : Int32) (n : ℕ) (x : Globals) : Prop :=
  num = Int32.maxValue ∨ 1 ≤ i.toInt ∧ i ≤ num ∧ x.gFactorial = fact n

/-- What holds of the variable at a point of the critical section. -/
def PointOk (num : Int32) (x : Globals) : Point → Prop
  | .store => True
  | .load i => Partial num i (i.toInt.toNat - 1) x
  | .mul i v => Partial num i (i.toInt.toNat - 1) x ∧ v = x.gFactorial
  | .loadVerbose i => Partial num i i.toInt.toNat x
  | .printVerbose i _ => Partial num i i.toInt.toNat x
  | .result => num ≠ Int32.maxValue ∧ x.gFactorial = fact num.toInt.toNat
  | .print v => num ≠ Int32.maxValue ∧ v = fact num.toInt.toNat
  | .through => num ≠ Int32.maxValue

/-- The line that the thread `t` should print last. -/
def resultOf (N : ℕ → Int32) (t : ℕ) : Line :=
  .result (t + 1) (N t) (fact (N t).toInt.toNat).toInt64

/-- **While the lock is free**, the threads that have entered have printed their factorials. -/
structure Free (N : ℕ → Int32) (ts : List ℕ) (x : Globals) : Prop where
  ne_max : ∀ t ∈ ts, N t ≠ Int32.maxValue
  printed : ∀ t ∈ ts, results t x.out = [resultOf N t]
  notPrinted : ∀ t, t ∉ ts → results t x.out = []

/-- **While the thread `t` is inside**, it has printed nothing until it is through, and of the
others holds what has held before. -/
structure Inside (nthreads : ℕ) (N : ℕ → Int32) (ts : List ℕ) (t : ℕ) (k : Pc) (x : Globals) :
    Prop where
  lt : t < nthreads
  mem : t ∈ ts
  num : k.num = N t
  point : PointOk (N t) x k.point
  ne_max : ∀ u ∈ ts, u ≠ t → N u ≠ Int32.maxValue
  printed : ∀ u ∈ ts, u ≠ t → results u x.out = [resultOf N u]
  notPrinted : ∀ u, u ∉ ts → results u x.out = []
  own : results t x.out = if k.point = .through then [resultOf N t] else []

/-- How many steps are left to a point of the critical section. -/
def Point.left (num : Int32) : Point → ℕ
  | .store => 4 * num.toInt.toNat + 4
  | .load i => 4 * (num.toInt - i.toInt).toNat + 7
  | .mul i _ => 4 * (num.toInt - i.toInt).toNat + 6
  | .loadVerbose i => 4 * (num.toInt - i.toInt).toNat + 5
  | .printVerbose i _ => 4 * (num.toInt - i.toInt).toNat + 4
  | .result => 2
  | .print _ => 1
  | .through => 0

/-- How many steps are left to a control point. -/
def Pc.left (k : Pc) : ℕ := k.point.left k.num

section Invariant

variable {nthreads t u : ℕ} {N : ℕ → Int32} {gVerbose : Bool} {num i : Int32} {n : ℕ}
  {ts : List ℕ} {x x' : Globals} {k k' : Pc} {ls : List ℕ} {s : System Pc Globals}

/-- A factor is multiplied. -/
theorem fact_mul (hi : 1 ≤ i.toInt) :
    fact (i.toInt.toNat - 1) * i.toInt64.toUInt64 = fact i.toInt.toNat := by
  obtain ⟨m, hm⟩ : ∃ m, i.toInt.toNat = m + 1 := ⟨i.toInt.toNat - 1, by omega⟩
  have hnonneg : 0 ≤ i.toInt64 := by
    rw [Int64.le_iff_toInt_le, Int32.toInt_toInt64]
    exact (Int.zero_le_ofNat 1).trans hi
  have hfactor : i.toInt64.toUInt64 = UInt64.ofNat (m + 1) := by
    refine UInt64.toNat_inj.mp ?_
    have hclamp : i.toInt64.toNatClampNeg = i.toInt.toNat := congrArg Int.toNat i.toInt_toInt64
    have hlt := i.toInt_lt
    rw [Int64.toNat_toUInt64_of_le hnonneg, hclamp, hm, UInt64.toNat_ofNat']
    omega
  rw [hm, Nat.add_sub_cancel, hfactor, fact, fact, ← UInt64.ofNat_mul, Nat.factorial_succ, mul_comm]

theorem le_maxValue (i : Int32) : i ≤ Int32.maxValue := by
  have hlt := i.toInt_lt
  have hmax : Int32.maxValue.toInt = 2 ^ 31 - 1 := rfl
  rw [Int32.le_iff_toInt_le, hmax]
  omega

/-- Below the greatest `int`, the counter does not wrap round. -/
theorem toInt_succ (hi : i.toInt < 2 ^ 31 - 1) : (i + 1).toInt = i.toInt + 1 := by
  have hone : (1 : Int32).toInt = 1 := rfl
  have hle := i.le_toInt
  rw [Int32.toInt_add, hone, Int.bmod_eq_of_le (by omega) (by omega)]

/-- Any other `int` is less than the greatest. -/
theorem toInt_lt_of_ne (hne : num ≠ Int32.maxValue) : num.toInt < 2 ^ 31 - 1 := by
  have hmax : Int32.maxValue.toInt = 2 ^ 31 - 1 := rfl
  have hlt := num.toInt_lt
  have hne' : num.toInt ≠ 2 ^ 31 - 1 := fun heq => hne (Int32.toInt_inj.mp (heq.trans hmax.symm))
  omega

/-- **The loop goes on, or ends**, with the factors up to `i` multiplied. -/
theorem pointOk_loop (h : Partial num i i.toInt.toNat x) : PointOk num x (loop num (i + 1)) := by
  rw [loop]
  rcases h with rfl | ⟨hpos, hle, hfact⟩
  · rw [if_pos (le_maxValue _)]
    exact Or.inl rfl
  · rw [Int32.le_iff_toInt_le] at hle
    split_ifs with hnext
    · by_cases hnum : num = Int32.maxValue
      · exact Or.inl hnum
      · have hlt := toInt_lt_of_ne hnum
        have hsucc := toInt_succ (i := i) (by omega)
        have hcount : (i + 1).toInt.toNat - 1 = i.toInt.toNat := by omega
        refine Or.inr ⟨by omega, hnext, ?_⟩
        rw [hfact, hcount]
    · have hnum : num ≠ Int32.maxValue := fun heq => hnext (heq ▸ le_maxValue _)
      have hlt := toInt_lt_of_ne hnum
      have hsucc := toInt_succ (i := i) (by omega)
      rw [Int32.le_iff_toInt_le] at hnext
      have hlast : num.toInt = i.toInt := by omega
      refine ⟨hnum, ?_⟩
      rw [hfact, hlast]

theorem results_progress (u : ℕ) (i : Int32) (v : Int64) (x : Globals) :
    results u (x.print (.progress i v)).out = results u x.out := by
  rw [results, Globals.print, List.filter_append]
  exact List.append_nil _

theorem results_result (u t : ℕ) (num : Int32) (v : Int64) (x : Globals) :
    results u (x.print (.result (t + 1) num v)).out =
      results u x.out ++ if u = t then [.result (t + 1) num v] else [] := by
  rw [results, Globals.print, List.filter_append]
  refine congrArg _ ?_
  by_cases h : u = t
  · rw [if_pos h]
    exact List.filter_eq_self.mpr (by simp [Line.isResult, h])
  · rw [if_neg h]
    exact List.filter_eq_nil_iff.mpr (by simp [Line.isResult, Ne.symm h])

/-- A step that prints no last line. -/
theorem Inside.goOn (h : Inside nthreads N ts t k x) {p : Point} (hk : k.point ≠ .through)
    (hp : p ≠ .through) (hpoint : PointOk (N t) x' p)
    (hout : ∀ u, results u x'.out = results u x.out) :
    Inside nthreads N ts t { k with point := p } x' where
  lt := h.lt
  mem := h.mem
  num := h.num
  point := hpoint
  ne_max := h.ne_max
  printed u hu hne := (hout u).trans (h.printed u hu hne)
  notPrinted u hu := (hout u).trans (h.notPrinted u hu)
  own := by
    have hown := h.own
    rw [if_neg hk] at hown
    rw [hout, hown, if_neg hp]

/-- The thread prints its last line. -/
theorem Inside.print (h : Inside nthreads N ts t k x) {v : UInt64} (hk : k.point = .print v) :
    Inside nthreads N ts t { k with point := .through }
      (x.print (.result (t + 1) k.num v.toInt64)) := by
  have hpoint := h.point
  rw [hk] at hpoint
  have hother : ∀ u, u ≠ t →
      results u (x.print (.result (t + 1) k.num v.toInt64)).out = results u x.out := by
    intro u hne
    rw [results_result, if_neg hne, List.append_nil]
  constructor
  case lt => exact h.lt
  case mem => exact h.mem
  case num => exact h.num
  case point => exact hpoint.1
  case ne_max => exact h.ne_max
  case printed => exact fun u hu hne => (hother u hne).trans (h.printed u hu hne)
  case notPrinted =>
    intro u hu
    have hne : u ≠ t := fun heq => hu (heq ▸ h.mem)
    exact (hother u hne).trans (h.notPrinted u hu)
  case own =>
    have hown := h.own
    rw [hk, if_neg (by simp)] at hown
    rw [results_result, hown, if_pos rfl, if_pos rfl, h.num, hpoint.2]
    rfl

theorem loop_ne_through : loop num i ≠ .through := by
  rw [loop]
  split_ifs <;> simp

/-- The beginning of `factorize`. -/
theorem pointOk_store (x : Globals) : PointOk num { x with gFactorial := 1 }
    (if num ≤ 0 then .result else loop num 1) := by
  have hzero : (0 : Int32).toInt = 0 := rfl
  split_ifs with hnum
  · rw [Int32.le_iff_toInt_le, hzero] at hnum
    refine ⟨?_, ?_⟩
    · rintro rfl
      exact absurd hnum (by decide)
    · have hnone : num.toInt.toNat = 0 := by omega
      rw [hnone]
      rfl
  · rw [loop]
    split_ifs with hone
    · exact Or.inr ⟨le_rfl, hone, rfl⟩
    · -- no number is above 0 and below 1
      rw [Int32.le_iff_toInt_le] at hnum hone
      have hone' : (1 : Int32).toInt = 1 := rfl
      omega

/-- **One step inside.** -/
theorem Inside.next (h : Inside nthreads N ts t k x)
    (hnext : next gVerbose t k x = some (k', x')) : Inside nthreads N ts t k' x' := by
  have hpoint := h.point
  have hnum := h.num
  rw [Facto.next] at hnext
  cases hk : k.point with
  | store =>
    rw [hk] at hnext
    obtain ⟨rfl, rfl⟩ := Prod.mk.inj (Option.some.inj hnext)
    refine h.goOn (by simp [hk]) ?_ (hnum ▸ pointOk_store x) fun u => rfl
    split_ifs
    · simp
    · exact loop_ne_through
  | load i =>
    rw [hk] at hnext hpoint
    obtain ⟨rfl, rfl⟩ := Prod.mk.inj (Option.some.inj hnext)
    exact h.goOn (by simp [hk]) (by simp) ⟨hpoint, rfl⟩ fun u => rfl
  | mul i v =>
    rw [hk] at hnext hpoint
    obtain ⟨rfl, rfl⟩ := Prod.mk.inj (Option.some.inj hnext)
    obtain ⟨hpart, rfl⟩ := hpoint
    have hpart' : Partial (N t) i i.toInt.toNat
        { x with gFactorial := x.gFactorial * i.toInt64.toUInt64 } := by
      rcases hpart with hmax | ⟨hpos, hle, hfact⟩
      · exact Or.inl hmax
      · refine Or.inr ⟨hpos, hle, ?_⟩
        rw [hfact]
        exact fact_mul hpos
    cases gVerbose with
    | false =>
      exact h.goOn (by simp [hk]) loop_ne_through (hnum ▸ pointOk_loop (hnum ▸ hpart')) fun u => rfl
    | true => exact h.goOn (by simp [hk]) (by simp) hpart' fun u => rfl
  | loadVerbose i =>
    rw [hk] at hnext hpoint
    obtain ⟨rfl, rfl⟩ := Prod.mk.inj (Option.some.inj hnext)
    exact h.goOn (by simp [hk]) (by simp) hpoint fun u => rfl
  | printVerbose i v =>
    rw [hk] at hnext hpoint
    obtain ⟨rfl, rfl⟩ := Prod.mk.inj (Option.some.inj hnext)
    exact h.goOn (by simp [hk]) loop_ne_through (hnum ▸ pointOk_loop (hnum ▸ hpoint)) fun u =>
      results_progress u i _ x
  | result =>
    rw [hk] at hnext hpoint
    obtain ⟨rfl, rfl⟩ := Prod.mk.inj (Option.some.inj hnext)
    exact h.goOn (by simp [hk]) (by simp) hpoint fun u => rfl
  | print v =>
    rw [hk] at hnext
    obtain ⟨rfl, rfl⟩ := Prod.mk.inj (Option.some.inj hnext)
    exact h.print hk
  | through =>
    rw [hk] at hnext
    cases hnext

theorem point_of_next_eq_none (h : next gVerbose t k x = none) : k.point = .through := by
  cases hk : k.point with
  | through => rfl
  | _ => simp [next, hk] at h

/-- **The lock is used as it should be.** -/
theorem protocol : Protocol nthreads (init N) (next gVerbose) (Free N) (Inside nthreads N) where
  enter ts t x hfree ht hnot := by
    have hold : ∀ u ∈ ts ++ [t], u ≠ t → u ∈ ts := fun u hu hne =>
      (List.mem_append.mp hu).resolve_right fun h => hne (List.mem_singleton.mp h)
    constructor
    case lt => exact ht
    case mem => exact List.mem_append_right _ (List.mem_singleton_self t)
    case num => rfl
    case point => trivial
    case ne_max => exact fun u hu hne => hfree.ne_max u (hold u hu hne)
    case printed => exact fun u hu hne => hfree.printed u (hold u hu hne)
    case notPrinted => exact fun u hu => hfree.notPrinted u fun h => hu (List.mem_append_left _ h)
    case own => exact hfree.notPrinted t hnot
  goOn ts t k x k' x' h hnext := h.next hnext
  through ts t k x h hnext := by
    have hk := point_of_next_eq_none hnext
    have hpoint := h.point
    have hown := h.own
    rw [hk] at hpoint
    rw [if_pos hk] at hown
    constructor
    case ne_max =>
      intro u hu
      rcases eq_or_ne u t with rfl | hne
      · exact hpoint
      · exact h.ne_max u hu hne
    case printed =>
      intro u hu
      rcases eq_or_ne u t with rfl | hne
      · exact hown
      · exact h.printed u hu hne
    case notPrinted => exact h.notPrinted

/-! ### Who gets through -/

theorem left_loop (hne : num ≠ Int32.maxValue) (h : Partial num i n x) :
    (loop num (i + 1)).left num < 4 * (num.toInt - i.toInt).toNat + 4 := by
  obtain ⟨hpos, hle, -⟩ := h.resolve_left hne
  rw [Int32.le_iff_toInt_le] at hle
  rw [loop]
  split_ifs with hnext
  · have hlt : num.toInt < 2 ^ 31 - 1 := toInt_lt_of_ne hne
    have hsucc := toInt_succ (i := i) (by omega)
    rw [Int32.le_iff_toInt_le] at hnext
    rw [Point.left]
    omega
  · rw [Point.left]
    omega

/-- **Every step leaves less to do**, unless the number is the greatest `int`. -/
theorem left_next (hne : N t ≠ Int32.maxValue) (h : Inside nthreads N ts t k x)
    (hnext : next gVerbose t k x = some (k', x')) : k'.left < k.left := by
  have hpoint := h.point
  rw [← h.num] at hpoint hne
  rw [Facto.next] at hnext
  cases hk : k.point with
  | store =>
    rw [hk] at hnext
    obtain ⟨rfl, -⟩ := Prod.mk.inj (Option.some.inj hnext)
    rw [Pc.left, Pc.left, hk]
    split_ifs with hnum
    · simp only [Point.left]
      omega
    · have hzero : (0 : Int32).toInt = 0 := rfl
      have hone : (1 : Int32).toInt = 1 := rfl
      rw [Int32.le_iff_toInt_le, hzero] at hnum
      rw [loop]
      split_ifs <;> simp only [Point.left, hone] <;> omega
  | load i =>
    rw [hk] at hnext
    obtain ⟨rfl, -⟩ := Prod.mk.inj (Option.some.inj hnext)
    simp only [Pc.left, hk, Point.left]
    omega
  | mul i v =>
    rw [hk] at hnext hpoint
    obtain ⟨rfl, -⟩ := Prod.mk.inj (Option.some.inj hnext)
    cases gVerbose with
    | false =>
      have hlt := left_loop hne hpoint.1
      simp only [Pc.left, hk, Point.left]
      exact hlt.trans (by omega)
    | true =>
      simp only [Pc.left, hk, Point.left]
      exact Nat.lt_succ_self _
  | loadVerbose i =>
    rw [hk] at hnext
    obtain ⟨rfl, -⟩ := Prod.mk.inj (Option.some.inj hnext)
    simp only [Pc.left, hk, Point.left]
    omega
  | printVerbose i v =>
    rw [hk] at hnext hpoint
    obtain ⟨rfl, -⟩ := Prod.mk.inj (Option.some.inj hnext)
    simp only [Pc.left, hk, Point.left]
    exact left_loop hne hpoint
  | result =>
    rw [hk] at hnext
    obtain ⟨rfl, -⟩ := Prod.mk.inj (Option.some.inj hnext)
    simp only [Pc.left, hk, Point.left]
    omega
  | print v =>
    rw [hk] at hnext
    obtain ⟨rfl, -⟩ := Prod.mk.inj (Option.some.inj hnext)
    simp only [Pc.left, hk, Point.left]
    omega
  | through =>
    rw [hk] at hnext
    cases hnext

theorem free_globals : Free N [] globals :=
  ⟨fun _ h => (by cases h), fun _ h => (by cases h), fun _ _ => rfl⟩

/-- **When all have left**, none of them had the greatest `int`, and each has printed its
factorial. -/
theorem results_of_done (hrun : run (step true nthreads N gVerbose) (.start globals) ls = some s)
    (hdone : s.Done nthreads) (ht : t < nthreads) :
    N t ≠ Int32.maxValue ∧ results t s.shared.out = [resultOf N t] := by
  obtain ⟨hfree, hperm⟩ := (Guarded.run protocol free_globals hrun).resource hdone
  have hmem : t ∈ s.entered := hperm.mem_iff.mpr (List.mem_range.mpr ht)
  exact ⟨hfree.ne_max t hmem, hfree.printed t hmem⟩

/-- **All threads get through**, if none has the greatest `int`. -/
theorem exists_run_done (hne : ∀ t < nthreads, N t ≠ Int32.maxValue)
    (hrun : run (step true nthreads N gVerbose) (.start globals) ls = some s) :
    ∃ ls' s', run (step true nthreads N gVerbose) s ls' = some s' ∧ s'.Done nthreads :=
  (Guarded.run protocol free_globals hrun).exists_run_done protocol
    fun _ t _ _ _ _ h hnext => left_next (hne t h.lt) h hnext

/-- **The text is the right one** exactly if the factorial is in the lower half. -/
theorem text_resultOf_iff : (resultOf N t).text =
    resultText (t + 1) (N t) (digits 10 ((N t).toInt.toNat ! % 2 ^ 64)) ↔
      (N t).toInt.toNat ! % 2 ^ 64 < 2 ^ 63 := by
  rw [← toInt_ofNat_eq_iff, ← decimal_eq_digits_iff, resultOf, Line.text, resultText, resultText,
    List.append_left_inj, List.append_right_inj,
    blanks_inj blank_notMem_decimal (blank_notMem_digits (by decide) (by decide))]
  rfl

/-- **The factorials in the upper half.** From 66 on, all are divisible by `2 ^ 64`. -/
theorem factorial_mod_lt_iff (n : ℕ) : n ! % 2 ^ 64 < 2 ^ 63 ↔ n ∉ upperHalf := by
  rcases Nat.lt_or_ge n 66 with hlt | hge
  · have hsmall : ∀ n < 66, (n ! % 2 ^ 64 < 2 ^ 63 ↔ n ∉ upperHalf) := by decide +kernel
    exact hsmall n hlt
  · have hdvd : 2 ^ 64 ∣ n ! := (show 2 ^ 64 ∣ Nat.factorial 66 by decide +kernel).trans
      (Nat.factorial_dvd_factorial hge)
    have hmax : ∀ m ∈ upperHalf, m < 66 := by decide
    rw [Nat.mod_eq_zero_of_dvd hdvd]
    exact iff_of_true (by decide) fun hmem => absurd (hmax n hmem) (by omega)

end Invariant

/-- **The factorials are printed as they should be**, in every interleaving, exactly if no
number is one of those whose factorials are in the upper half, and none is the greatest
`int`. -/
theorem factorials_iff {nthreads : ℕ} {N : ℕ → Int32} (hN : ∀ t < nthreads, 0 ≤ (N t).toInt)
    (gVerbose : Bool) : Right nthreads N gVerbose ↔
      ∀ t < nthreads, (N t).toInt.toNat ∉ upperHalf ∧ N t ≠ Int32.maxValue := by
  constructor
  · intro h t ht
    obtain ⟨ls, s, hrun, hdone⟩ := h.ends [] _ rfl
    obtain ⟨hne, hresults⟩ := results_of_done hrun hdone ht
    have hprints := h.prints ls s hrun hdone t ht
    rw [hresults, List.map_singleton, List.singleton_inj, text_resultOf_iff, factorial_mod_lt_iff]
      at hprints
    exact ⟨hprints, hne⟩
  · intro h
    constructor
    case ends => exact fun ls s hrun => exists_run_done (fun t ht => (h t ht).2) hrun
    case prints =>
      intro ls s hrun hdone t ht
      rw [(results_of_done hrun hdone ht).2, List.map_singleton, List.singleton_inj,
        text_resultOf_iff, factorial_mod_lt_iff]
      exact (h t ht).1
    case small =>
      intro t ht hle
      have hsmall : ∀ n ≤ 20, n ! % 2 ^ 64 = n ! := by decide
      have hnat := hN t ht
      exact hsmall _ (by omega)

/-- The two threads of the program. -/
theorem factorials_iff_worker : (∀ t < 2, 0 ≤ (worker t).toInt) ∧ Right 2 worker true := by
  have hnonneg : ∀ t < 2, 0 ≤ (worker t).toInt := by decide
  exact ⟨hnonneg, (factorials_iff hnonneg true).mpr (by decide)⟩

/-- **A factorial that is negative, and one that does not come.** -/
theorem factorial_negative :
    (¬Right 1 (fun _ => 21) false ∧ (resultOf (fun _ => 21) 0).text =
      resultText 1 21 (decimal (-4249290049419214848))) ∧
    ¬Right 1 (fun _ => Int32.maxValue) false := by
  refine ⟨⟨fun h => ?_, by decide +kernel⟩, fun h => ?_⟩
  · obtain ⟨ls, s, hrun, hdone⟩ := h.ends [] _ rfl
    have hprints := h.prints ls s hrun hdone 0 (by decide)
    rw [(results_of_done hrun hdone (by decide)).2] at hprints
    exact absurd hprints (by decide +kernel)
  · obtain ⟨ls, s, hrun, hdone⟩ := h.ends [] _ rfl
    exact (results_of_done hrun hdone (show 0 < 1 by decide)).1 rfl

end Facto

end SystemProgramming
