import Mathlib.Data.List.Basic
import SystemProgramming.Calls
import SystemProgramming.CriticalSection

/-!
# The bank account

`bankacc` (`solutions_to_assgn/ch15/`): threads that deposit to and withdraw from one account,
`gBalance`, which they read and write several times in each call; `gLocking` says whether each
thread takes the mutex around its calls. A deposit of nothing is ignored, and a withdrawal
that would leave less than `gCB_MinCredit` is refused.

The threads are critical sections, whose control points are the reads and the writes of
`gBalance` and the lines printed (`SystemProgramming.BankAcc.next`). With locking on, whatever
they deposit and withdraw and however their steps are interleaved, the account is in the end
what the threads make of it one after another, in the order they have taken the mutex
(`SystemProgramming.BankAcc.serialised`).

A deposit looks at the sign of its amount and not at the sum, and a withdrawal at the
difference and not at the sign. So a deposit lowers the balance when the sum wraps round, and a
withdrawal of a negative amount raises it; apart from that the account is safe
(`SystemProgramming.BankAcc.account_safe_iff`).
-/

namespace SystemProgramming

open CriticalSection Runs

namespace BankAcc

/-- The least that a withdrawal may leave. -/
def gCB_MinCredit : Int64 := 500

/-- The balance from which on a deposit prints a warning. -/
def gCB_HiBalance : Int64 := 1000000

/-- The balance the account is opened with. -/
def gBalance : Int64 := 12000

/-- A line that is printed, with the number of the thread. -/
inductive Line where
  /-- `[thrd#%2d +] Deposit : %12ld`. -/
  | deposit (thrdnum : ℕ) (amt : Int64)
  /-- `*** Circuit Breaker *** High Balance`. -/
  | highBalance
  /-- `[thrd#%2d] Current Balance: %12ld`. -/
  | balance (thrdnum : ℕ) (v : Int64)
  /-- `*** Circuit Breaker *** Min Credit hit! Failing withdawal...`. -/
  | minCredit
  /-- `[thrd#%2d -] Withdrawal : %12ld`. -/
  | withdrawal (thrdnum : ℕ) (amt : Int64)
  deriving DecidableEq, Repr

/-- What the threads share: the balance, what has been printed, and – which no thread reads –
what has become of the withdrawals, with the numbers of the threads, in the order of their
tests. -/
structure Account where
  balance : Int64
  out : List Line
  accepted : List (ℕ × Bool)
  deriving DecidableEq, Repr

namespace Account

/-- The account, before any call. -/
def opening (balance : Int64) : Account := ⟨balance, [], []⟩

/-- A line is printed. -/
def print (l : Line) (a : Account) : Account := { a with out := a.out ++ [l] }

/-- The balance is written. -/
def store (v : Int64) (a : Account) : Account := { a with balance := v }

/-- A withdrawal has been accepted, or not. -/
def record (thrdnum : ℕ) (ok : Bool) (a : Account) : Account :=
  { a with accepted := a.accepted ++ [(thrdnum, ok)] }

/-- The balance is printed. -/
def printBalance (thrdnum : ℕ) (a : Account) : Account := a.print (.balance thrdnum a.balance)

/-- The warning about a high balance. -/
def warnHigh (a : Account) : Account :=
  if gCB_HiBalance ≤ a.balance then a.print .highBalance else a

end Account

/-! ### The calls, by a thread alone -/

/-- `deposit`. -/
def deposit (thrdnum : ℕ) (amt : Int64) (a : Account) : Account :=
  if amt ≤ 0 then a
  else
    let a := a.print (.deposit thrdnum amt)
    let a := a.store (a.balance + amt)
    a.warnHigh.printBalance thrdnum

/-- `withdraw`. -/
def withdraw (thrdnum : ℕ) (amt : Int64) (a : Account) : Account :=
  if a.balance - amt < gCB_MinCredit then (a.record thrdnum false).print .minCredit
  else
    let a := (a.record thrdnum true).print (.withdrawal thrdnum amt)
    (a.store (a.balance - amt)).printBalance thrdnum

/-- A call that a thread makes. -/
inductive Call where
  | deposit (amt : Int64)
  | withdraw (amt : Int64)
  deriving DecidableEq, Repr

/-- What a call does, by a thread alone. -/
def Call.perform (thrdnum : ℕ) : Call → Account → Account
  | .deposit amt => BankAcc.deposit thrdnum amt
  | .withdraw amt => BankAcc.withdraw thrdnum amt

/-- Calls one after another. -/
def performAll (thrdnum : ℕ) (calls : List Call) (a : Account) : Account :=
  calls.foldl (fun a c => c.perform thrdnum a) a

@[simp] theorem performAll_cons (thrdnum : ℕ) (c : Call) (calls : List Call) (a : Account) :
    performAll thrdnum (c :: calls) a = performAll thrdnum calls (c.perform thrdnum a) := rfl

/-! ### The calls, step by step -/

/-- Where a thread stands in a call. -/
inductive Point where
  /-- Between two calls. -/
  | idle
  /-- In `deposit`, about to print the line. -/
  | depositPrint (amt : Int64)
  /-- About to read `gBalance`, to which the amount is added. -/
  | depositLoad (amt : Int64)
  /-- About to write the sum. -/
  | depositStore (amt v : Int64)
  /-- About to read `gBalance`, for the warning. -/
  | depositTest
  /-- About to print the warning. -/
  | depositHigh
  /-- In `withdraw`, about to read `gBalance`, for the test. -/
  | withdrawTest (amt : Int64)
  /-- About to print that the withdrawal is refused. -/
  | withdrawFail
  /-- About to print the line. -/
  | withdrawPrint (amt : Int64)
  /-- About to read `gBalance`, from which the amount is subtracted. -/
  | withdrawLoad (amt : Int64)
  /-- About to write the difference. -/
  | withdrawStore (amt v : Int64)
  /-- About to read `gBalance`, to print it. -/
  | showLoad
  /-- About to print the value read. -/
  | showPrint (v : Int64)
  deriving DecidableEq, Repr

/-- A control point: where the thread stands in a call, and the calls that come after it. -/
structure Pc where
  point : Point
  calls : List Call
  deriving DecidableEq, Repr

/-- **A step of a thread** that is in its critical section. -/
def next (t : ℕ) (k : Pc) (a : Account) : Option (Pc × Account) :=
  match k.point, k.calls with
  | .idle, [] => none
  | .idle, .deposit amt :: calls =>
    some (if amt ≤ 0 then (⟨.idle, calls⟩, a) else (⟨.depositPrint amt, calls⟩, a))
  | .idle, .withdraw amt :: calls => some (⟨.withdrawTest amt, calls⟩, a)
  | .depositPrint amt, calls => some (⟨.depositLoad amt, calls⟩, a.print (.deposit (t + 1) amt))
  | .depositLoad amt, calls => some (⟨.depositStore amt a.balance, calls⟩, a)
  | .depositStore amt v, calls => some (⟨.depositTest, calls⟩, a.store (v + amt))
  | .depositTest, calls =>
    some (if gCB_HiBalance ≤ a.balance then (⟨.depositHigh, calls⟩, a) else (⟨.showLoad, calls⟩, a))
  | .depositHigh, calls => some (⟨.showLoad, calls⟩, a.print .highBalance)
  | .withdrawTest amt, calls =>
    some (if a.balance - amt < gCB_MinCredit then (⟨.withdrawFail, calls⟩, a.record (t + 1) false)
      else (⟨.withdrawPrint amt, calls⟩, a.record (t + 1) true))
  | .withdrawFail, calls => some (⟨.idle, calls⟩, a.print .minCredit)
  | .withdrawPrint amt, calls =>
    some (⟨.withdrawLoad amt, calls⟩, a.print (.withdrawal (t + 1) amt))
  | .withdrawLoad amt, calls => some (⟨.withdrawStore amt a.balance, calls⟩, a)
  | .withdrawStore amt v, calls => some (⟨.showLoad, calls⟩, a.store (v - amt))
  | .showLoad, calls => some (⟨.showPrint a.balance, calls⟩, a)
  | .showPrint v, calls => some (⟨.idle, calls⟩, a.print (.balance (t + 1) v))

/-- Where a thread stands when it has taken the mutex. -/
def init (scripts : List (List Call)) (t : ℕ) : Pc := ⟨.idle, scripts.getD t []⟩

/-- **The step function**, with one thread for each list of calls. -/
def step (gLocking : Bool) (scripts : List (List Call)) :
    System Pc Account → ℕ → Option (System Pc Account) :=
  CriticalSection.step gLocking scripts.length (init scripts) next

/-- The calls of the two threads of the program, each list between a lock and an unlock. -/
def worker : List (List Call) :=
  [[.deposit 3000, .withdraw 250], [.withdraw 9000, .deposit 1000]]

/-! ### What comes of a call that has begun -/

/-- What a thread makes of the account from a point of a call to its end, alone. -/
def Point.finish (t : ℕ) : Point → Account → Account
  | .idle, a => a
  | .depositPrint amt, a =>
    let a := a.print (.deposit (t + 1) amt)
    (a.store (a.balance + amt)).warnHigh.printBalance (t + 1)
  | .depositLoad amt, a => (a.store (a.balance + amt)).warnHigh.printBalance (t + 1)
  | .depositStore amt v, a => (a.store (v + amt)).warnHigh.printBalance (t + 1)
  | .depositTest, a => a.warnHigh.printBalance (t + 1)
  | .depositHigh, a => (a.print .highBalance).printBalance (t + 1)
  | .withdrawTest amt, a => withdraw (t + 1) amt a
  | .withdrawFail, a => a.print .minCredit
  | .withdrawPrint amt, a =>
    let a := a.print (.withdrawal (t + 1) amt)
    (a.store (a.balance - amt)).printBalance (t + 1)
  | .withdrawLoad amt, a => (a.store (a.balance - amt)).printBalance (t + 1)
  | .withdrawStore amt v, a => (a.store (v - amt)).printBalance (t + 1)
  | .showLoad, a => a.printBalance (t + 1)
  | .showPrint v, a => a.print (.balance (t + 1) v)

/-- What a thread makes of the account from a control point to its end, alone. -/
def finish (t : ℕ) (k : Pc) (a : Account) : Account :=
  performAll (t + 1) k.calls (k.point.finish t a)

/-- **A step changes nothing in what comes of the account**, when nobody interferes. -/
theorem outcome_finish : Outcome next finish where
  goOn := by
    rintro t ⟨point, calls⟩ a ⟨point', calls'⟩ a' hnext
    cases point
    case idle =>
      rcases calls with - | ⟨amt | amt, calls⟩
      · cases hnext
      · by_cases hpos : amt ≤ 0
        · obtain ⟨⟨rfl, rfl⟩, rfl⟩ := by simpa [next, hpos] using hnext
          simp [finish, Point.finish, Call.perform, deposit, hpos]
        · obtain ⟨⟨rfl, rfl⟩, rfl⟩ := by simpa [next, hpos] using hnext
          simp [finish, Point.finish, Call.perform, deposit, hpos]
      · obtain ⟨⟨rfl, rfl⟩, rfl⟩ := by simpa [next] using hnext
        rfl
    case depositTest =>
      by_cases hhigh : gCB_HiBalance ≤ a.balance
      · obtain ⟨⟨rfl, rfl⟩, rfl⟩ := by simpa [next, hhigh] using hnext
        simp [finish, Point.finish, Account.warnHigh, hhigh]
      · obtain ⟨⟨rfl, rfl⟩, rfl⟩ := by simpa [next, hhigh] using hnext
        simp [finish, Point.finish, Account.warnHigh, hhigh]
    case withdrawTest amt =>
      by_cases hmin : a.balance - amt < gCB_MinCredit
      · obtain ⟨⟨rfl, rfl⟩, rfl⟩ := by simpa [next, hmin] using hnext
        simp [finish, Point.finish, withdraw, hmin]
      · obtain ⟨⟨rfl, rfl⟩, rfl⟩ := by simpa [next, hmin] using hnext
        simp [finish, Point.finish, withdraw, hmin]
    -- the other steps do what they say
    all_goals
      cases hnext
      rfl
  through := by
    rintro t ⟨point, calls⟩ a hnext
    cases point
    case idle =>
      rcases calls with - | ⟨_ | _, _⟩
      · rfl
      · cases hnext
      · cases hnext
    all_goals cases hnext

/-! ### The calls come to an end -/

/-- The steps to the end of a call, at most. -/
def Point.left : Point → ℕ
  | .idle => 0
  | .showPrint _ => 1
  | .showLoad => 2
  | .depositHigh => 3
  | .depositTest => 4
  | .depositStore .. => 5
  | .depositLoad _ => 6
  | .depositPrint _ => 7
  | .withdrawFail => 1
  | .withdrawStore .. => 3
  | .withdrawLoad _ => 4
  | .withdrawPrint _ => 5
  | .withdrawTest _ => 6

/-- The steps to the end of the critical section, at most. -/
def Pc.left (k : Pc) : ℕ := k.point.left + 8 * k.calls.length

theorem left_next (t : ℕ) (k : Pc) (a : Account) (k' : Pc) (a' : Account)
    (hnext : next t k a = some (k', a')) : k'.left < k.left := by
  obtain ⟨point, calls⟩ := k
  cases point
  case idle =>
    rcases calls with - | ⟨amt | amt, calls⟩
    · cases hnext
    · simp only [next, Option.some.injEq] at hnext
      split_ifs at hnext <;> cases hnext <;> simp only [Pc.left, Point.left, List.length_cons] <;>
        omega
    · cases hnext
      simp [Pc.left, Point.left]
      omega
  case depositTest =>
    simp only [next, Option.some.injEq] at hnext
    split_ifs at hnext <;> cases hnext <;> simp [Pc.left, Point.left]
  case withdrawTest =>
    simp only [next, Option.some.injEq] at hnext
    split_ifs at hnext <;> cases hnext <;> simp [Pc.left, Point.left]
  all_goals
    cases hnext
    simp [Pc.left, Point.left]

/-! ### The threads are serialised -/

/-- **With locking on, the threads are serialised**, whatever they deposit and withdraw: from
wherever their interleaved steps have led, the rest of them leads to where all have given the
mutex back; and there the balance, what has become of each withdrawal and what has been
printed are what the threads come to one after another, in the order they have taken it. -/
theorem serialised {scripts : List (List Call)} {balance : Int64} {ls : List ℕ}
    {s : System Pc Account}
    (hrun : run (step true scripts) (System.start (.opening balance)) ls = some s) :
    (∃ ls' s', run (step true scripts) s ls' = some s' ∧ s'.Done scripts.length) ∧
    (s.Done scripts.length →
      s.shared = s.entered.foldl (fun a t => performAll (t + 1) (scripts.getD t []) a)
        (.opening balance) ∧
      s.entered.Perm (List.range scripts.length)) := by
  constructor
  · exact outcome_finish.exists_run_done left_next hrun
  · intro hdone
    exact shared_eq_serial outcome_finish hrun hdone

/-- The two threads of the program, the second of which is the first to take the mutex. -/
theorem serialised_worker :
    ∃ ls s, run (step true worker) (System.start (.opening gBalance)) ls = some s ∧ s.Done 2 ∧
      s.shared = performAll 1 [.deposit 3000, .withdraw 250]
        (performAll 2 [.withdraw 9000, .deposit 1000] (.opening gBalance)) ∧
      s.shared.balance = 6750 ∧ s.shared.accepted = [(2, true), (1, true)] := by
  obtain ⟨s, hrun, hdone, hentered, hbalance, haccepted⟩ :
      ∃ s, run (step true worker) (System.start (.opening gBalance))
        (List.replicate 16 1 ++ List.replicate 16 0) = some s ∧ s.Done 2 ∧ s.entered = [1, 0] ∧
        s.shared.balance = 6750 ∧ s.shared.accepted = [(2, true), (1, true)] :=
    ⟨_, rfl, by decide, rfl, by decide, by decide⟩
  have hserial := ((serialised hrun).2 hdone).1
  rw [hentered] at hserial
  exact ⟨_, s, hrun, hdone, hserial, hbalance, haccepted⟩

/-- Without locking, two deposits may come to one of them: both threads read the balance before
either writes it. -/
example : (run (step false [[.deposit 1], [.deposit 2]]) (System.start (.opening gBalance))
    [0, 0, 0, 0, 1, 1, 1, 1, 0, 0, 0, 0, 0, 1, 1, 1, 1, 1]).map (fun s => s.shared.balance) =
      some 12002 := by
  decide

/-! ### The balance, call by call -/

/-- A call that a thread makes, as a step. -/
def callStep (thrdnum : ℕ) (a : Account) (c : Call) : Option Account := some (c.perform thrdnum a)

/-- **A call is safe**: it leaves the least balance at least, and it does not lower the balance
as a deposit or raise it as a withdrawal. -/
def Safe (thrdnum : ℕ) (a : Account) (c : Call) : Prop :=
  gCB_MinCredit ≤ (c.perform thrdnum a).balance ∧
    match c with
    | .deposit _ => a.balance ≤ (c.perform thrdnum a).balance
    | .withdraw _ => (c.perform thrdnum a).balance ≤ a.balance

/-- The amount of a deposit does not go beyond the largest `long`, and that of a withdrawal is not
negative, unless it is so far from zero that the withdrawal is refused. -/
def Fits (a : Account) : Call → Prop
  | .deposit amt => amt ≤ 0 ∨ a.balance.toInt + amt.toInt < 2 ^ 63
  | .withdraw amt => 0 ≤ amt ∨ 2 ^ 63 ≤ a.balance.toInt - amt.toInt

instance (thrdnum : ℕ) (a : Account) : DecidablePred (Safe thrdnum a)
  | .deposit amt => inferInstanceAs (Decidable
      (gCB_MinCredit ≤ (deposit thrdnum amt a).balance ∧
        a.balance ≤ (deposit thrdnum amt a).balance))
  | .withdraw amt => inferInstanceAs (Decidable
      (gCB_MinCredit ≤ (withdraw thrdnum amt a).balance ∧
        (withdraw thrdnum amt a).balance ≤ a.balance))

instance (a : Account) : DecidablePred (Fits a)
  | .deposit amt => inferInstanceAs (Decidable (amt ≤ 0 ∨ a.balance.toInt + amt.toInt < 2 ^ 63))
  | .withdraw amt => inferInstanceAs (Decidable (0 ≤ amt ∨ 2 ^ 63 ≤ a.balance.toInt - amt.toInt))

section Safety

variable {thrdnum : ℕ} {amt : Int64} {a : Account} {c : Call}

theorem balance_warnHigh (a : Account) : a.warnHigh.balance = a.balance := by
  rw [Account.warnHigh]
  split_ifs <;> rfl

/-- What a deposit makes of the balance. -/
theorem balance_deposit :
    (deposit thrdnum amt a).balance = if amt ≤ 0 then a.balance else a.balance + amt := by
  rw [deposit]
  split_ifs
  · rfl
  · exact balance_warnHigh _

/-- What a withdrawal makes of the balance. -/
theorem balance_withdraw :
    (withdraw thrdnum amt a).balance =
      if a.balance - amt < gCB_MinCredit then a.balance else a.balance - amt := by
  rw [withdraw]
  split_ifs <;> rfl

theorem gCB_MinCredit_le_iff {v : Int64} : gCB_MinCredit ≤ v ↔ 500 ≤ v.toInt :=
  Int64.le_iff_toInt_le

/-- **A call is safe exactly if it fits**, with the least balance on the account. -/
theorem safe_iff_fits (h : gCB_MinCredit ≤ a.balance) : Safe thrdnum a c ↔ Fits a c := by
  have hmin := gCB_MinCredit_le_iff.mp h
  cases c with
  | deposit amt =>
    rw [Safe, Fits, Call.perform, balance_deposit]
    have hzero : amt ≤ 0 ↔ amt.toInt ≤ 0 := Int64.le_iff_toInt_le
    by_cases hamt : amt ≤ 0
    · rw [if_pos hamt]
      exact iff_of_true ⟨h, Int64.le_refl _⟩ (Or.inl hamt)
    · rw [if_neg hamt, gCB_MinCredit_le_iff, Int64.le_iff_toInt_le]
      rw [hzero] at hamt ⊢
      rcases long_add_cases a.balance amt with ⟨-, hlt, hsum⟩ | ⟨hge, hsum⟩ | ⟨hlt, -⟩
      · exact iff_of_true (by omega) (Or.inr hlt)
      · -- the sum has wrapped round and is negative
        have hneg := amt.toInt_lt
        have hbal := a.balance.toInt_lt
        omega
      · omega
  | withdraw amt =>
    rw [Safe, Fits, Call.perform, balance_withdraw]
    have hzero : 0 ≤ amt ↔ 0 ≤ amt.toInt := Int64.le_iff_toInt_le
    by_cases hrefused : a.balance - amt < gCB_MinCredit
    · rw [if_pos hrefused]
      refine iff_of_true ⟨h, Int64.le_refl _⟩ ?_
      have hlow : (a.balance - amt).toInt < 500 := Int64.lt_iff_toInt_lt.mp hrefused
      rw [hzero]
      rcases long_sub_cases a.balance amt with ⟨-, -, hdiff⟩ | ⟨hge, -⟩ | ⟨hlt, -⟩
      · left
        omega
      · exact Or.inr hge
      · have hbal := amt.toInt_lt
        omega
    · rw [if_neg hrefused, gCB_MinCredit_le_iff, Int64.le_iff_toInt_le, hzero]
      have hlow : 500 ≤ (a.balance - amt).toInt := by
        rw [← gCB_MinCredit_le_iff]
        exact Int64.not_lt.mp hrefused
      have hamt := amt.le_toInt
      rcases long_sub_cases a.balance amt with ⟨-, hlt, hdiff⟩ | ⟨hge, hdiff⟩ | ⟨hlt, hdiff⟩
      · omega
      · have hbal := a.balance.toInt_lt
        omega
      · have hbal := amt.toInt_lt
        omega

end Safety

/-- **The account is safe** in every sequence of calls, from any starting balance that is not
below the least one, exactly if each of them fits when it is made. -/
theorem account_safe_iff {thrdnum : ℕ} {balance : Int64} {calls : List Call}
    (h : gCB_MinCredit ≤ balance) :
    Every (callStep thrdnum) (Safe thrdnum) (.opening balance) calls ↔
      Every (callStep thrdnum) Fits (.opening balance) calls := by
  suffices hall : ∀ a : Account, gCB_MinCredit ≤ a.balance →
      (Every (callStep thrdnum) (Safe thrdnum) a calls ↔ Every (callStep thrdnum) Fits a calls) from
    hall _ h
  clear h
  induction calls with
  | nil => exact fun _ _ => Iff.rfl
  | cons c calls ih =>
    intro a ha
    have hstep : callStep thrdnum a c = some (c.perform thrdnum a) := rfl
    rw [every_cons hstep, every_cons hstep, safe_iff_fits ha]
    refine and_congr_right fun hfits => ih _ ?_
    have hsafe : Safe thrdnum a c := (safe_iff_fits ha).mpr hfits
    exact hsafe.1

/-- The four calls of the program. -/
theorem account_safe_iff_at :
    gCB_MinCredit ≤ gBalance ∧ Every (callStep 1) (Safe 1) (.opening gBalance) worker.flatten := by
  have hmin : gCB_MinCredit ≤ gBalance := by decide
  exact ⟨hmin, (account_safe_iff hmin).mpr (by decide)⟩

/-- **A withdrawal that is a deposit, and a deposit that leaves less than nothing.** -/
theorem balance_unsafe :
    ¬Every (callStep 1) (Safe 1) (.opening gBalance) [.withdraw (-1000)] ∧
      (withdraw 1 (-1000) (.opening gBalance)).balance = 13000 ∧
      ¬Every (callStep 1) (Safe 1) (.opening gBalance) [.deposit Int64.maxValue] ∧
      (deposit 1 Int64.maxValue (.opening gBalance)).balance < 0 := by
  decide

end BankAcc

end SystemProgramming
