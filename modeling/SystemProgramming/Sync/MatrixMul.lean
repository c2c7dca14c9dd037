import Mathlib.Algebra.BigOperators.Group.Finset.Basic
import Mathlib.Algebra.Order.BigOperators.Group.Finset
import Mathlib.Logic.Function.Basic
import Mathlib.Tactic.Ring
import SystemProgramming.Calls
import SystemProgramming.Runs

/-!
# A matrix product by several threads

`thrd_matrixmul` (`ch14/`) computes what `prcs_matrixmul` does, with a thread for each core:
thread `t` of `NCORES` gets the `N / NCORES` rows from `t * (N / NCORES)` on. The threads
accumulate in the elements of `c`, a load and a store for every product, and take no lock;
they need none, for no two of them have a row in common.

But the rows that the threads get are all rows only if `NCORES` divides `N`. The last
`N % NCORES` rows are nobody's, and stay zero
(`SystemProgramming.MatrixMul.product_iff`).

The elements are of any type with an addition and a multiplication; an `int`, whose
arithmetic is modulo `2 ^ 32`, is a `BitVec 32`. The products of an element are added up in
the same order by both programs, so no law of the arithmetic is needed.
-/

namespace SystemProgramming

open Runs

namespace MatrixMul

variable {α : Type*}

/-- The matrix `c` with the element of row `i` and column `j` set. -/
def set (c : ℕ → ℕ → α) (i j : ℕ) (x : α) : ℕ → ℕ → α :=
  fun i' j' => if i' = i ∧ j' = j then x else c i' j'

theorem set_self (c : ℕ → ℕ → α) (i j : ℕ) (x : α) : set c i j x i j = x := if_pos ⟨rfl, rfl⟩

/-! ### One process -/

section Sequential

variable [Add α] [Mul α]

/-- `main` of `prcs_matrixmul`: its three loops, on the matrix `c`. -/
def prcsMatrixmul (n : ℕ) (a b c : ℕ → ℕ → α) : ℕ → ℕ → α :=
  (List.range n).foldl (fun c i =>
    (List.range n).foldl (fun c j =>
      (List.range n).foldl (fun c k => set c i j (c i j + a i k * b k j)) c) c) c

/-- The first `k` products of an element, added to `x` one by one. -/
def acc (a b : ℕ → ℕ → α) (i j : ℕ) (x : α) : ℕ → α
  | 0 => x
  | k + 1 => acc a b i j x k + a i k * b k j

/-- The innermost loop. -/
theorem foldl_k (a b c : ℕ → ℕ → α) (i j m : ℕ) :
    (List.range m).foldl (fun c k => set c i j (c i j + a i k * b k j)) c =
      set c i j (acc a b i j (c i j) m) := by
  induction m with
  | zero =>
    funext i' j'
    simp only [List.range_zero, List.foldl_nil, acc, set]
    split_ifs with h
    · rw [h.1, h.2]
    · rfl
  | succ m ih =>
    rw [List.range_succ, List.foldl_append, ih]
    funext i' j'
    simp only [List.foldl_cons, List.foldl_nil, set_self, acc]
    simp only [set]
    split_ifs <;> rfl

/-- The loop over the columns. -/
theorem foldl_j (a b c : ℕ → ℕ → α) (n i m : ℕ) :
    (List.range m).foldl (fun c j =>
      (List.range n).foldl (fun c k => set c i j (c i j + a i k * b k j)) c) c =
      fun i' j' => if i' = i ∧ j' < m then acc a b i' j' (c i' j') n else c i' j' := by
  induction m with
  | zero =>
    funext i' j'
    simp
  | succ m ih =>
    rw [List.range_succ, List.foldl_append, ih]
    funext i' j'
    simp only [List.foldl_cons, List.foldl_nil, foldl_k, set]
    split_ifs <;> first | rfl | omega | simp_all

/-- **The three loops** add its products to every element. -/
theorem prcsMatrixmul_apply (n : ℕ) (a b c : ℕ → ℕ → α) (i j : ℕ) :
    prcsMatrixmul n a b c i j =
      if i < n ∧ j < n then acc a b i j (c i j) n else c i j := by
  have hloop : ∀ m, (List.range m).foldl (fun c i =>
      (List.range n).foldl (fun c j =>
        (List.range n).foldl (fun c k => set c i j (c i j + a i k * b k j)) c) c) c =
      fun i' j' => if i' < m ∧ j' < n then acc a b i' j' (c i' j') n else c i' j' := by
    intro m
    induction m with
    | zero =>
      funext i' j'
      simp
    | succ m ih =>
      rw [List.range_succ, List.foldl_append, ih]
      funext i' j'
      simp only [List.foldl_cons, List.foldl_nil, foldl_j]
      split_ifs <;> first | rfl | omega
  exact congrFun (congrFun (hloop n) i) j

end Sequential

/-! ### Several threads -/

/-- Where a thread stands. -/
inductive Pc (α : Type*) where
  /-- The thread has not been created. -/
  | absent
  /-- About to load the element of row `i` and column `j`, for the product `k`. -/
  | load (i j k : ℕ)
  /-- About to store it, `x` having been loaded. -/
  | store (i j k : ℕ) (x : α)
  /-- The thread has exited. -/
  | exited
  deriving DecidableEq, Repr

/-- The head of the innermost loop: the rows go up to `last`. -/
def Pc.loop (n last i j k : ℕ) : Pc α :=
  if k < n then .load i j k
  else if j + 1 < n then .load i (j + 1) 0
  else if i + 1 < last then .load (i + 1) 0 0
  else .exited

/-- Where the main thread stands. -/
inductive MainPc where
  /-- About to create the thread `i`. -/
  | create (i : ℕ)
  /-- About to join the thread `i`. -/
  | join (i : ℕ)
  /-- The thread has exited. -/
  | exited
  deriving DecidableEq, Repr

/-- The control point of `main` where `i` threads have been joined. -/
def joining (ncores i : ℕ) : MainPc := if i < ncores then .join i else .exited

/-- The control point of `main` where `i` threads have been dealt with in the creation
loop. -/
def creation (ncores i : ℕ) : MainPc := if i < ncores then .create i else joining ncores 0

/-- The state of the process. -/
structure System (α : Type*) where
  main : MainPc
  pc : ℕ → Pc α
  c : ℕ → ℕ → α
  /-- A thread has been joined that was not created. -/
  undefined : Bool

/-- What happens. -/
inductive Label where
  /-- The main thread goes on, its call being answered so. -/
  | main (a : Answer)
  /-- The thread `t` goes on. -/
  | worker (t : ℕ)
  deriving DecidableEq, Repr

section Threads

/-- The number of rows of a thread, `N / NCORES`. -/
def rows (n ncores : ℕ) : ℕ := n / ncores

/-- The first row of the thread `t`, which is left in `row[t]`. -/
def row (n ncores t : ℕ) : ℕ := t * rows n ncores

/-- The row behind the last one of the thread `t`. -/
def last (n ncores t : ℕ) : ℕ := row n ncores t + rows n ncores

/-- The thread `t` as it begins. -/
def begin (n ncores t : ℕ) : Pc α :=
  if row n ncores t < last n ncores t then .load (row n ncores t) 0 0 else .exited

/-- `main` of `thrd_matrixmul`, its matrices being filled in; whether a thread could be
created is not looked at. -/
def mainStep (n ncores : ℕ) (s : System α) (ans : Answer) : Option (System α) :=
  match s.main, ans with
  | .create i, ans => ans.status.map fun ok =>
    { s with main := creation ncores (i + 1),
             pc := if ok then Function.update s.pc i (begin n ncores i) else s.pc }
  | .join i, .ok =>
    match s.pc i with
    | .exited => some { s with main := joining ncores (i + 1) }
    | .absent => some { s with undefined := true }
    | _ => none
  | _, _ => none

variable [Add α] [Mul α]

/-- `threadfun`, run by the thread `t`. -/
def threadfun (n ncores : ℕ) (a b : ℕ → ℕ → α) (t : ℕ) (s : System α) : Option (System α) :=
  match s.pc t with
  | .load i j k => some { s with pc := Function.update s.pc t (.store i j k (s.c i j)) }
  | .store i j k x =>
    some { s with
      c := set s.c i j (x + a i k * b k j)
      pc := Function.update s.pc t (.loop n (last n ncores t) i j (k + 1)) }
  | _ => none

/-- **The step function.** -/
def step (n ncores : ℕ) (a b : ℕ → ℕ → α) (s : System α) (l : Label) : Option (System α) :=
  if s.undefined then none
  else match l with
    | .main ans => mainStep n ncores s ans
    | .worker t => threadfun n ncores a b t s

/-- The process as it begins, `c` being zero. -/
def System.start [Zero α] (ncores : ℕ) : System α :=
  ⟨creation ncores 0, fun _ => .absent, fun _ _ => 0, false⟩

end Threads

/-! ### The elements, step by step -/

/-- How many products the element of row `i'` and column `j'`, which is the thread's, has
got. -/
def done (n : ℕ) (p : Pc α) (i' j' : ℕ) : ℕ :=
  match p with
  | .absent => 0
  | .load i j k | .store i j k _ =>
    if i' < i ∨ (i' = i ∧ j' < j) then n else if i' = i ∧ j' = j then k else 0
  | .exited => n

/-- The row is one of the thread `t`. -/
def Owns (n ncores t i : ℕ) : Prop := row n ncores t ≤ i ∧ i < last n ncores t

/-- Which threads are there, by where the main thread stands. -/
def MainOk (ncores : ℕ) (pc : ℕ → Pc α) : MainPc → Prop
  | .create i => i < ncores ∧ ∀ t, i ≤ t → pc t = .absent
  | .join i => i < ncores ∧ (∀ t < i, pc t = .exited) ∧ ∀ t, ncores ≤ t → pc t = .absent
  | .exited => (∀ t < ncores, pc t = .exited) ∧ ∀ t, ncores ≤ t → pc t = .absent

section Invariant

variable [Add α] [Mul α] [Zero α]

/-- A thread is within its rows, and what it has loaded is what it has accumulated. -/
def PcOk (n ncores : ℕ) (a b : ℕ → ℕ → α) (t : ℕ) : Pc α → Prop
  | .load i j k => Owns n ncores t i ∧ j < n ∧ k < n
  | .store i j k x => (Owns n ncores t i ∧ j < n ∧ k < n) ∧ x = acc a b i j 0 k
  | _ => True

/-- **The invariant**: every element has the products that its thread has come to. -/
structure Ok (n ncores : ℕ) (a b : ℕ → ℕ → α) (s : System α) : Prop where
  pc : ∀ t, PcOk n ncores a b t (s.pc t)
  main : MainOk ncores s.pc s.main
  owned : ∀ t i j, t < ncores → Owns n ncores t i → j < n →
    s.c i j = acc a b i j 0 (done n (s.pc t) i j)
  rest : ∀ i j, (∀ t < ncores, ¬Owns n ncores t i) → s.c i j = 0

end Invariant

section Rows

variable {n ncores t t' i j k i' j' : ℕ} {pc : ℕ → Pc α} {m : MainPc} {x : α}

/-- **No two threads have a row in common.** -/
theorem Owns.unique (h : Owns n ncores t i) (h' : Owns n ncores t' i) : t = t' := by
  have key : ∀ {u : ℕ}, Owns n ncores u i → i / rows n ncores = u := by
    rintro u ⟨h1, h2⟩
    refine Nat.div_eq_of_lt_le h1 ?_
    rw [Nat.succ_mul]
    exact h2
  exact (key h).symm.trans (key h')

/-- The rows of the threads are those below `NCORES * (N / NCORES)`. -/
theorem exists_owns_iff : (∃ t < ncores, Owns n ncores t i) ↔ i < ncores * rows n ncores := by
  constructor
  · rintro ⟨t, ht, -, hlt⟩
    have hle : (t + 1) * rows n ncores ≤ ncores * rows n ncores := Nat.mul_le_mul_right _ ht
    rw [last, row, ← Nat.succ_mul] at hlt
    exact lt_of_lt_of_le hlt hle
  · intro hlt
    have hpos : 0 < rows n ncores := Nat.pos_of_mul_pos_left (Nat.zero_lt_of_lt hlt)
    refine ⟨i / rows n ncores, (Nat.div_lt_iff_lt_mul hpos).mpr hlt, Nat.div_mul_le_self _ _, ?_⟩
    exact Nat.lt_div_mul_add hpos

/-- A thread that begins has accumulated nothing. -/
theorem done_begin (hi : Owns n ncores t i) : done n (begin n ncores t : Pc α) i j = 0 := by
  obtain ⟨h1, h2⟩ := hi
  rw [begin, if_pos (by omega), done]
  split_ifs <;> omega

/-- **A store adds one product** to the element it is made to. -/
theorem done_loop (hi : i < last n ncores t) (hj : j < n) (hk : k < n)
    (hi' : i' < last n ncores t) (hj' : j' < n) :
    done n (Pc.loop n (last n ncores t) i j (k + 1) : Pc α) i' j' =
      if i' = i ∧ j' = j then k + 1 else done n (.store i j k x) i' j' := by
  rw [Pc.loop]
  by_cases hnext : k + 1 < n
  · rw [if_pos hnext, done, done]
    split_ifs <;> omega
  · rw [if_neg hnext]
    by_cases hcol : j + 1 < n
    · rw [if_pos hcol, done, done]
      split_ifs <;> omega
    · rw [if_neg hcol]
      by_cases hrow : i + 1 < last n ncores t
      · rw [if_pos hrow, done, done]
        split_ifs <;> omega
      · rw [if_neg hrow, done, done]
        split_ifs <;> omega

/-- A thread that is running has been created, and the main thread is not concerned. -/
theorem MainOk.worker (h : MainOk ncores pc m) (hthere : pc t ≠ .absent) (hruns : pc t ≠ .exited) :
    t < ncores ∧ ∀ p, MainOk ncores (Function.update pc t p) m := by
  have hother : ∀ {p : Pc α} {u : ℕ} {q : Pc α}, u ≠ t → pc u = q → Function.update pc t p u = q :=
    fun hne hu => (Function.update_of_ne hne _ _).trans hu
  cases m with
  | create i =>
    obtain ⟨hi, habsent⟩ := h
    have ht : t < i := by
      by_contra hge
      exact hthere (habsent t (Nat.le_of_not_lt hge))
    exact ⟨ht.trans hi, fun p => ⟨hi, fun u hu => hother (by omega) (habsent u hu)⟩⟩
  | join i =>
    obtain ⟨hi, hexited, habsent⟩ := h
    have hge : i ≤ t := by
      by_contra hlt
      exact hruns (hexited t (Nat.lt_of_not_le hlt))
    have ht : t < ncores := by
      by_contra hge'
      exact hthere (habsent t (Nat.le_of_not_lt hge'))
    refine ⟨ht, fun p => ⟨hi, fun u hu => ?_, fun u hu => ?_⟩⟩
    · exact hother (by omega) (hexited u hu)
    · exact hother (by omega) (habsent u hu)
  | exited =>
    obtain ⟨hexited, habsent⟩ := h
    rcases Nat.lt_or_ge t ncores with hlt | hge
    · exact absurd (hexited t hlt) hruns
    · exact absurd (habsent t hge) hthere

theorem mainOk_creation (hi : i < ncores) (h : ∀ u, i + 1 ≤ u → pc u = .absent) :
    MainOk ncores pc (creation ncores (i + 1)) := by
  rw [creation, joining]
  split_ifs with hlt hpos
  · exact ⟨hlt, h⟩
  · exact ⟨hpos, fun u hu => absurd hu (Nat.not_lt_zero u), fun u hu => h u (by omega)⟩
  · omega

theorem mainOk_joining (hexited : ∀ u < i + 1, pc u = .exited)
    (habsent : ∀ u, ncores ≤ u → pc u = .absent) (hi : i < ncores) :
    MainOk ncores pc (joining ncores (i + 1)) := by
  rw [joining]
  split_ifs with hlt
  · exact ⟨hlt, hexited, habsent⟩
  · exact ⟨fun u hu => hexited u (by omega), habsent⟩

end Rows

section Steps

variable [Add α] [Mul α] [Zero α] {n ncores : ℕ} {a b : ℕ → ℕ → α} {s s' : System α} {l : Label}
  {ls : List Label} {t t' i j k : ℕ}

theorem Ok.start : Ok n ncores a b (System.start ncores) where
  pc _ := trivial
  main := by
    change MainOk ncores _ (creation ncores 0)
    rw [creation, joining]
    split_ifs with h
    · exact ⟨h, fun _ _ => rfl⟩
    · exact ⟨fun t ht => absurd (Nat.zero_lt_of_lt ht) h, fun _ _ => rfl⟩
  owned _ _ _ _ _ _ := rfl
  rest _ _ _ := rfl

/-- **A thread loads an element**: what it has accumulated. -/
theorem Ok.load (h : Ok n ncores a b s) (hpc : s.pc t = .load i j k) :
    Ok n ncores a b { s with pc := Function.update s.pc t (.store i j k (s.c i j)) } := by
  obtain ⟨ht, hmain⟩ := h.main.worker (t := t) (by simp [hpc]) (by simp [hpc])
  have hok := h.pc t
  rw [hpc] at hok
  obtain ⟨hi, hj, hk⟩ := hok
  have hx : s.c i j = acc a b i j 0 k := by
    rw [h.owned t i j ht hi hj, hpc, done, if_neg (by omega), if_pos ⟨rfl, rfl⟩]
  constructor
  case pc => exact forall_update (P := PcOk n ncores a b) h.pc ⟨⟨hi, hj, hk⟩, hx⟩
  case main => exact hmain _
  case owned =>
    intro u i' j' hu hi' hj'
    change s.c i' j' = acc a b i' j' 0 (done n (Function.update s.pc t _ u) i' j')
    rw [h.owned u i' j' hu hi' hj']
    rcases eq_or_ne u t with rfl | hne
    · rw [Function.update_self, hpc]
      rfl
    · rw [Function.update_of_ne hne]
  case rest => exact h.rest

/-- **A thread stores an element**: with one more product, and none of another thread's. -/
theorem Ok.store (h : Ok n ncores a b s) {x : α} (hpc : s.pc t = .store i j k x) :
    Ok n ncores a b { s with
      c := set s.c i j (x + a i k * b k j)
      pc := Function.update s.pc t (.loop n (last n ncores t) i j (k + 1)) } := by
  obtain ⟨ht, hmain⟩ := h.main.worker (t := t) (by simp [hpc]) (by simp [hpc])
  have hok := h.pc t
  rw [hpc] at hok
  obtain ⟨⟨hi, hj, hk⟩, rfl⟩ := hok
  constructor
  case pc =>
    refine forall_update (P := PcOk n ncores a b) h.pc ?_
    rw [Pc.loop]
    split_ifs with hnext hcol hrow
    · exact ⟨hi, hj, hnext⟩
    · exact ⟨hi, hcol, by omega⟩
    · exact ⟨⟨Nat.le_succ_of_le hi.1, hrow⟩, by omega, by omega⟩
    · trivial
  case main => exact hmain _
  case owned =>
    intro u i' j' hu hi' hj'
    change set s.c i j _ i' j' = acc a b i' j' 0 (done n (Function.update s.pc t _ u) i' j')
    rw [set, h.owned u i' j' hu hi' hj']
    rcases eq_or_ne u t with rfl | hne
    · rw [Function.update_self, done_loop (x := acc a b i j 0 k) hi.2 hj hk hi'.2 hj', hpc]
      split_ifs with heq
      · obtain ⟨rfl, rfl⟩ := heq
        rfl
      · rfl
    · have hrow : ¬(i' = i ∧ j' = j) := by
        rintro ⟨rfl, -⟩
        exact hne (hi'.unique hi)
      rw [if_neg hrow, Function.update_of_ne hne]
  case rest =>
    intro i' j' hnone
    change set s.c i j _ i' j' = 0
    have hrow : ¬(i' = i ∧ j' = j) := by
      rintro ⟨rfl, -⟩
      exact hnone t ht hi
    rw [set, if_neg hrow]
    exact h.rest i' j' hnone

/-- **A thread is created**, with its rows. -/
theorem Ok.create (h : Ok n ncores a b s) (hmain : s.main = .create i) :
    Ok n ncores a b { s with
      main := creation ncores (i + 1), pc := Function.update s.pc i (begin n ncores i) } := by
  have hM := h.main
  rw [hmain] at hM
  obtain ⟨hi, habsent⟩ := hM
  constructor
  case pc =>
    refine forall_update (P := PcOk n ncores a b) h.pc ?_
    rw [begin]
    split_ifs with hlt
    · have hpos : 0 < n / ncores := by
        rw [last, rows] at hlt
        omega
      have hn : 0 < n := (Nat.pos_of_div_pos hpos)
      exact ⟨⟨le_rfl, hlt⟩, hn, hn⟩
    · trivial
  case main =>
    refine mainOk_creation hi fun u hu => ?_
    exact (Function.update_of_ne (by omega) _ _).trans (habsent u (by omega))
  case owned =>
    intro u i' j' hu hi' hj'
    change s.c i' j' = acc a b i' j' 0 (done n (Function.update s.pc i _ u) i' j')
    rw [h.owned u i' j' hu hi' hj']
    rcases eq_or_ne u i with rfl | hne
    · rw [Function.update_self, done_begin hi', habsent u le_rfl]
      rfl
    · rw [Function.update_of_ne hne]
  case rest => exact h.rest

/-- The main thread goes on, the other threads being as they were. -/
theorem Ok.setMain (h : Ok n ncores a b s) {m : MainPc} (hm : MainOk ncores s.pc m)
    {undefined : Bool} : Ok n ncores a b { s with main := m, undefined := undefined } :=
  ⟨h.pc, hm, h.owned, h.rest⟩

/-- **One step.** -/
theorem Ok.step (h : Ok n ncores a b s) (hstep : step n ncores a b s l = some s') :
    Ok n ncores a b s' := by
  unfold MatrixMul.step at hstep
  split_ifs at hstep
  cases l with
  | main ans =>
    simp only [mainStep] at hstep
    have hM := h.main
    cases hmain : s.main <;> rw [hmain] at hM <;> simp only [hmain] at hstep
    case create i =>
      obtain ⟨ok, -, rfl⟩ := Option.map_eq_some_iff.mp hstep
      obtain ⟨hi, habsent⟩ := hM
      cases ok
      · exact h.setMain (mainOk_creation hi fun u hu => habsent u (by omega))
      · exact h.create hmain
    case join i =>
      obtain ⟨hi, hexited, habsent⟩ := hM
      cases ans <;> simp only [reduceCtorEq] at hstep
      split at hstep <;> rename_i hpc
      · obtain rfl := Option.some.inj hstep
        refine h.setMain (mainOk_joining (fun u hu => ?_) habsent hi)
        rcases Nat.lt_or_ge u i with hlt | hge
        · exact hexited u hlt
        · obtain rfl : u = i := by omega
          exact hpc
      · obtain rfl := Option.some.inj hstep
        exact h.setMain (m := .join i) ⟨hi, hexited, habsent⟩
      · cases hstep
    case exited => cases hstep
  | worker t =>
    simp only [threadfun] at hstep
    split at hstep
    · rename_i hpc
      obtain rfl := Option.some.inj hstep
      exact h.load hpc
    · rename_i hpc
      obtain rfl := Option.some.inj hstep
      exact h.store hpc
    · cases hstep

theorem ok_run (hrun : run (MatrixMul.step n ncores a b) (System.start ncores) ls = some s) :
    Ok n ncores a b s :=
  run_invariant (P := Ok n ncores a b) (fun _ _ _ h hst => h.step hst) Ok.start hrun

/-- **After the joins** the rows of the threads have all their products, and the others
none. -/
theorem Ok.c_exited (h : Ok n ncores a b s) (hmain : s.main = .exited) (hj : j < n) :
    s.c i j = if i < ncores * rows n ncores then acc a b i j 0 n else 0 := by
  have hM := h.main
  rw [hmain] at hM
  split_ifs with hi
  · obtain ⟨t, ht, hown⟩ := exists_owns_iff.mpr hi
    rw [h.owned t i j ht hown hj, hM.1 t ht]
    rfl
  · exact h.rest i j fun t ht hown => hi (exists_owns_iff.mp ⟨t, ht, hown⟩)

end Steps

/-! ### A complete run -/

section Complete

variable {n ncores t i j k u : ℕ}

/-- How many products a thread has still to add from here on. -/
def left (n last i j k : ℕ) : ℕ := ((last - i - 1) * n + (n - j - 1)) * n + (n - k)

/-- How many steps a thread has still to make. -/
def steps (n ncores t : ℕ) : Pc α → ℕ
  | .absent => 2 * left n (last n ncores t) (row n ncores t) 0 0
  | .load i j k => 2 * left n (last n ncores t) i j k
  | .store i j k _ => 2 * left n (last n ncores t) i j k - 1
  | .exited => 0

/-- How many steps the main thread has still to make. -/
def mainSteps (ncores : ℕ) : MainPc → ℕ
  | .create i => (ncores - i) + ncores + 1
  | .join i => ncores - i
  | .exited => 0

theorem left_pos (hk : k < n) {last : ℕ} : 0 < left n last i j k :=
  Nat.add_pos_right _ (Nat.sub_pos_of_lt hk)

/-- A store leaves one product less. -/
theorem steps_loop (hi : i < last n ncores t) (hj : j < n) (hk : k < n) :
    steps n ncores t (Pc.loop n (last n ncores t) i j (k + 1) : Pc α) + 2 ≤
      2 * left n (last n ncores t) i j k := by
  rw [Pc.loop]
  split_ifs with hnext hcol hrow
  · simp only [steps, left]
    omega
  · obtain ⟨m, hm⟩ : ∃ m, n - j - 1 = m + 1 := ⟨n - (j + 1) - 1, by omega⟩
    have hm' : n - (j + 1) - 1 = m := by omega
    have hadd : ((last n ncores t - i - 1) * n + (m + 1)) * n =
        ((last n ncores t - i - 1) * n + m) * n + n := by ring
    simp only [steps, left, hm, hm', hadd]
    omega
  · obtain ⟨m, hm⟩ : ∃ m, last n ncores t - i - 1 = m + 1 :=
      ⟨last n ncores t - (i + 1) - 1, by omega⟩
    have hm' : last n ncores t - (i + 1) - 1 = m := by omega
    have hcol' : n - j - 1 = 0 := by omega
    have hadd : ((m + 1) * n + 0) * n = (m * n + (n - 0 - 1)) * n + n := by
      obtain ⟨d, rfl⟩ : ∃ d, n = d + 1 := ⟨n - 1, by omega⟩
      rw [Nat.sub_zero, Nat.add_sub_cancel]
      ring
    simp only [steps, left, hm, hm', hcol', hadd]
    omega
  · have hpos : 0 < left n (last n ncores t) i j k := left_pos hk
    simp only [steps]
    omega

/-- A thread that begins has no more steps to make than one that is to begin. -/
theorem steps_begin : steps n ncores t (begin n ncores t : Pc α) ≤
    steps n ncores t (.absent : Pc α) := by
  rw [begin]
  split_ifs
  · exact le_rfl
  · exact Nat.zero_le _

/-- What a step of the thread `t` does to the number of steps to be made. -/
theorem sum_steps_update {pc : ℕ → Pc α} {p : Pc α}
    (hle : steps n ncores t p ≤ steps n ncores t (pc t)) :
    ∑ u ∈ Finset.range ncores, steps n ncores u (Function.update pc t p u) ≤
      ∑ u ∈ Finset.range ncores, steps n ncores u (pc u) := by
  refine Finset.sum_le_sum fun u _ => ?_
  exact forall_update (P := fun u q => steps n ncores u q ≤ steps n ncores u (pc u))
    (fun _ => le_rfl) hle u

/-- The threads that the main thread takes for created have been created. -/
def Created (ncores : ℕ) (pc : ℕ → Pc α) : MainPc → Prop
  | .create i => ∀ t < i, pc t ≠ .absent
  | _ => ∀ t < ncores, pc t ≠ .absent

theorem Created.update {pc : ℕ → Pc α} {m : MainPc} {p : Pc α} (h : Created ncores pc m)
    (hp : p ≠ .absent) : Created ncores (Function.update pc t p) m := by
  have hkeep : ∀ u, pc u ≠ .absent → Function.update pc t p u ≠ .absent :=
    forall_update (P := fun u (q : Pc α) => pc u ≠ .absent → q ≠ .absent) (fun _ => id) fun _ => hp
  cases m <;> exact fun u hu => hkeep u (h u hu)

theorem loop_ne_absent (last : ℕ) : (Pc.loop n last i j k : Pc α) ≠ .absent := by
  rw [Pc.loop]
  split_ifs <;> simp

theorem begin_ne_absent : (begin n ncores t : Pc α) ≠ .absent := by
  rw [begin]
  split_ifs <;> simp

/-- How many steps are still to be made. -/
def stepsLeft (n ncores : ℕ) (s : System α) : ℕ :=
  mainSteps ncores s.main + ∑ t ∈ Finset.range ncores, steps n ncores t (s.pc t)

variable [Add α] [Mul α] [Zero α] {a b : ℕ → ℕ → α} {s : System α}

/-- The process can go on. -/
structure GoesOn (n ncores : ℕ) (a b : ℕ → ℕ → α) (s : System α) : Prop where
  ok : Ok n ncores a b s
  defined : s.undefined = false
  created : Created ncores s.pc s.main

/-- **The main thread creates a thread.** -/
theorem GoesOn.create (h : GoesOn n ncores a b s) (hmain : s.main = .create i) :
    ∃ t, step n ncores a b s (.main .ok) = some t ∧ GoesOn n ncores a b t ∧
      stepsLeft n ncores t < stepsLeft n ncores s := by
  have hM := h.ok.main
  have hcreated := h.created
  rw [hmain] at hM hcreated
  obtain ⟨hi, habsent⟩ := hM
  have hstep : step n ncores a b s (.main .ok) = some { s with
      main := creation ncores (i + 1), pc := Function.update s.pc i (begin n ncores i) } := by
    simp [step, mainStep, hmain, h.defined, Answer.status]
  refine ⟨_, hstep, ⟨h.ok.step hstep, h.defined, ?_⟩, ?_⟩
  · have hall : ∀ t < i + 1, Function.update s.pc i (begin n ncores i) t ≠ .absent := by
      intro t ht
      rcases eq_or_ne t i with rfl | hne
      · rw [Function.update_self]
        exact begin_ne_absent
      · rw [Function.update_of_ne hne]
        exact hcreated t (by omega)
    change Created ncores _ (creation ncores (i + 1))
    rw [creation, joining]
    split_ifs
    · exact hall
    · exact fun t ht => hall t (by omega)
    · exact fun t ht => hall t (by omega)
  · have hbegin : steps n ncores i (begin n ncores i : Pc α) ≤ steps n ncores i (s.pc i) := by
      rw [habsent i le_rfl]
      exact steps_begin
    have hsum := sum_steps_update hbegin
    have hless : mainSteps ncores (creation ncores (i + 1)) < mainSteps ncores (.create i) := by
      rw [creation, joining]
      split_ifs <;> simp only [mainSteps] <;> omega
    rw [stepsLeft, stepsLeft, hmain]
    exact Nat.add_lt_add_of_lt_of_le hless hsum

/-- **A thread goes on** that is running. -/
theorem GoesOn.worker (h : GoesOn n ncores a b s) (hthere : s.pc t ≠ .absent)
    (hruns : s.pc t ≠ .exited) :
    ∃ s', step n ncores a b s (.worker t) = some s' ∧ GoesOn n ncores a b s' ∧
      stepsLeft n ncores s' < stepsLeft n ncores s := by
  obtain ⟨ht, -⟩ := h.ok.main.worker hthere hruns
  have hok := h.ok.pc t
  cases hpc : s.pc t with
  | absent => exact absurd hpc hthere
  | exited => exact absurd hpc hruns
  | load i j k =>
    rw [hpc] at hok
    have hstep : step n ncores a b s (.worker t) =
        some { s with pc := Function.update s.pc t (.store i j k (s.c i j)) } := by
      simp [step, threadfun, hpc, h.defined]
    refine ⟨_, hstep, ⟨h.ok.step hstep, h.defined, h.created.update (by simp)⟩, ?_⟩
    refine Nat.add_lt_add_left (sum_update_lt (f := steps n ncores) ht ?_) _
    have hpos : 0 < left n (last n ncores t) i j k := left_pos hok.2.2
    rw [hpc, steps, steps]
    omega
  | store i j k x =>
    rw [hpc] at hok
    have hstep : step n ncores a b s (.worker t) = some { s with
        c := set s.c i j (x + a i k * b k j)
        pc := Function.update s.pc t (.loop n (last n ncores t) i j (k + 1)) } := by
      simp [step, threadfun, hpc, h.defined]
    refine ⟨_, hstep, ⟨h.ok.step hstep, h.defined, h.created.update (loop_ne_absent _)⟩, ?_⟩
    refine Nat.add_lt_add_left (sum_update_lt (f := steps n ncores) ht ?_) _
    have hless := steps_loop (α := α) hok.1.1.2 hok.1.2.1 hok.1.2.2
    rw [hpc, steps]
    omega

/-- **The main thread joins a thread**, which has exited. -/
theorem GoesOn.join (h : GoesOn n ncores a b s) (hmain : s.main = .join i)
    (hpc : s.pc i = .exited) :
    ∃ t, step n ncores a b s (.main .ok) = some t ∧ GoesOn n ncores a b t ∧
      stepsLeft n ncores t < stepsLeft n ncores s := by
  have hM := h.ok.main
  have hcreated := h.created
  rw [hmain] at hM hcreated
  have hstep : step n ncores a b s (.main .ok) =
      some { s with main := joining ncores (i + 1) } := by
    simp [step, mainStep, hmain, h.defined, hpc]
  refine ⟨_, hstep, ⟨h.ok.step hstep, h.defined, ?_⟩, ?_⟩
  · change Created ncores s.pc (joining ncores (i + 1))
    rw [joining]
    split_ifs <;> exact hcreated
  · have hless : mainSteps ncores (joining ncores (i + 1)) < mainSteps ncores (.join i) := by
      have hi := hM.1
      rw [joining]
      split_ifs <;> simp only [mainSteps] <;> omega
    rw [stepsLeft, stepsLeft, hmain]
    exact Nat.add_lt_add_right hless _

/-- **The program ends**: when all threads can be created, some run joins them all. -/
theorem exists_run_exited (n ncores : ℕ) (a b : ℕ → ℕ → α) :
    ∃ ls s, run (step n ncores a b) (System.start ncores) ls = some s ∧ s.main = .exited := by
  have hmove : ∀ s, GoesOn n ncores a b s → ¬s.main = .exited → ∃ l t, True ∧
      step n ncores a b s l = some t ∧ GoesOn n ncores a b t ∧
        stepsLeft n ncores t < stepsLeft n ncores s := by
    intro s hs hne
    cases hmain : s.main with
    | create i =>
      obtain ⟨t, ht⟩ := hs.create hmain
      exact ⟨_, t, trivial, ht⟩
    | join i =>
      have hM := hs.ok.main
      have hcreated := hs.created
      rw [hmain] at hM hcreated
      by_cases hpc : s.pc i = .exited
      · obtain ⟨t, ht⟩ := hs.join hmain hpc
        exact ⟨_, t, trivial, ht⟩
      · obtain ⟨t, ht⟩ := hs.worker (hcreated i hM.1) hpc
        exact ⟨_, t, trivial, ht⟩
    | exited => exact absurd hmain hne
  have hstart : GoesOn n ncores a b (System.start ncores) := by
    refine ⟨Ok.start, rfl, ?_⟩
    change Created ncores _ (creation ncores 0)
    rw [creation, joining]
    split_ifs with hpos
    · exact fun t ht => absurd ht (Nat.not_lt_zero t)
    · exact fun t ht => absurd (Nat.zero_lt_of_lt ht) hpos
  obtain ⟨ls, s, -, hrun, -, hexited⟩ :=
    exists_run_of_measure (G := fun _ _ => True) (stepsLeft n ncores) hmove _ hstart
  exact ⟨ls, s, hrun, hexited⟩

end Complete

/-! ### The products agree -/

/-- An `int`. -/
abbrev CInt := BitVec 32

/-- **The threads compute what one process does**, in a complete run: the elements of `c` are
the same. -/
def Agree (n ncores : ℕ) : Prop :=
  ∀ (a b : ℕ → ℕ → CInt) (ls : List Label) (s : System CInt),
    run (step n ncores a b) (System.start ncores) ls = some s → s.main = .exited →
      ∀ i < n, ∀ j < n, s.c i j = prcsMatrixmul n a b (fun _ _ => 0) i j

/-- The matrix with a one in its first column, and zeros. -/
def firstColumn : ℕ → ℕ → CInt := fun _ k => if k = 0 then 1 else 0

/-- The matrix with a one in its first row, and zeros. -/
def firstRow : ℕ → ℕ → CInt := fun k _ => if k = 0 then 1 else 0

theorem acc_first (i j m : ℕ) : acc firstColumn firstRow i j 0 (m + 1) = 1 := by
  induction m with
  | zero => rfl
  | succ m ih =>
    rw [acc, ih, firstColumn, if_neg (Nat.succ_ne_zero m)]
    simp

/-- **The products agree** for all matrices and all orders of the threads' steps exactly if the
number of cores divides the number of rows. -/
theorem product_iff {n ncores : ℕ} (hn : 0 < n) : Agree n ncores ↔ ncores ∣ n := by
  constructor
  · intro h
    by_contra hdvd
    have hlt : ncores * rows n ncores < n := by
      refine lt_of_le_of_ne (Nat.mul_div_le n ncores) fun heq => hdvd ?_
      exact ⟨rows n ncores, heq.symm⟩
    obtain ⟨ls, s, hrun, hmain⟩ := exists_run_exited n ncores firstColumn firstRow
    have heq := h firstColumn firstRow ls s hrun hmain _ hlt 0 hn
    obtain ⟨m, rfl⟩ := Nat.exists_eq_succ_of_ne_zero hn.ne'
    rw [(ok_run hrun).c_exited hmain hn, if_neg (lt_irrefl _), prcsMatrixmul_apply,
      if_pos ⟨hlt, hn⟩, acc_first] at heq
    exact absurd heq (by decide)
  · intro hdvd a b ls s hrun hmain i hi j hj
    have hall : ncores * rows n ncores = n := Nat.mul_div_cancel' hdvd
    rw [(ok_run hrun).c_exited hmain hj, hall, if_pos hi, prcsMatrixmul_apply, if_pos ⟨hi, hj⟩]

/-- Four rows for two threads. -/
theorem product_iff_at : 0 < 4 ∧ (Agree 4 2 ↔ 2 ∣ 4) := ⟨by decide, product_iff (by decide)⟩

/-- **A row that is nobody's**: of three rows two threads get one each, and the last row of `c`
is zero. -/
theorem row_left_out :
    (∃ s : System CInt, run (step 3 2 (fun _ _ => 2) fun _ _ => 3) (System.start 2)
        ([.main .ok, .main .ok] ++ List.replicate 18 (.worker 0) ++
          List.replicate 18 (.worker 1) ++ [.main .ok, .main .ok]) = some s ∧
      s.main = .exited ∧ s.c 0 0 = 18 ∧ s.c 2 0 = 0 ∧
      prcsMatrixmul 3 (fun _ _ => 2) (fun _ _ => 3) (fun _ _ => (0 : CInt)) 2 0 = 18) ∧
    ¬Agree 3 2 := by
  have hseq : prcsMatrixmul 3 (fun _ _ => 2) (fun _ _ => 3) (fun _ _ => (0 : CInt)) 2 0 = 18 := by
    rw [prcsMatrixmul_apply]
    decide
  obtain ⟨s, hs, hmain, h00, h20⟩ : ∃ s : System CInt,
      run (step 3 2 (fun _ _ => 2) fun _ _ => 3) (System.start 2)
        ([.main .ok, .main .ok] ++ List.replicate 18 (.worker 0) ++
          List.replicate 18 (.worker 1) ++ [.main .ok, .main .ok]) = some s ∧
      s.main = .exited ∧ s.c 0 0 = 18 ∧ s.c 2 0 = 0 := ⟨_, rfl, rfl, rfl, rfl⟩
  refine ⟨⟨s, hs, hmain, h00, h20, hseq⟩, fun h => ?_⟩
  have heq := h _ _ _ s hs hmain 2 (by decide) 0 (by decide)
  rw [h20, hseq] at heq
  exact absurd heq (by decide)

end MatrixMul

end SystemProgramming
