import SystemProgramming.HandleErr
import SystemProgramming.Printf
import SystemProgramming.Runs

/-!
# The fork bomb

`forkbomb` (`solutions_to_assgn/ch10/`) takes two numbers: the limit on processes that it installs,
and how many processes it is to create. Its loop runs in every process that the loop creates: the
parent sleeps for a month, and the child goes on counting where the parent was.

As long as nobody wakes and no call fails – that which limits the data segment may –, the processes
form a line, in which each but the last has forked once and sleeps
(`SystemProgramming.Forkbomb.Chain`), and when all have come to rest there is one process more than
there were rounds. But the rounds are counted up to the *first*
number: `main` reads `argv[1]` twice. And from `INT_MAX` on the counter has no next value. So the
second parameter is obeyed exactly if it is the same as the first, and smaller than `INT_MAX`
(`SystemProgramming.Forkbomb.obeys_iff`).
-/

namespace SystemProgramming

open HandleErr Printf Runs

namespace Forkbomb

def ONE_GB : UInt64 := 1024 * 1024 * 1024

/-- The largest `int`. -/
def INT_MAX : ℤ := 2147483647

/-- Where a process stands: about to make a call, or at the end. -/
inductive Pc where
  /-- `setup_rlimits` is about to limit the number of processes. -/
  | prlimitNproc
  /-- `setup_rlimits` is about to limit the data segment. -/
  | prlimitData
  | fork
  /-- `fork` failed; `FATAL` is about to allocate its message. -/
  | forkFatal
  /-- About to allocate the memory that it clears behind that. -/
  | malloc
  /-- In its `sleep`. -/
  | sleep
  /-- It has exited with this status. -/
  | exited (status : ℤ)
  /-- It was killed on clearing memory at NULL. -/
  | killed
  /-- It has counted beyond `INT_MAX`. -/
  | undefined
  deriving DecidableEq, Repr

/-- A process: where it stands, its variables, and its limits. -/
structure Proc where
  pc : Pc
  maxtasks : UInt64
  num : Int32
  i : ℤ
  cpid : ℤ
  nproc : Option UInt64
  data : Option UInt64
  /-- How often it has forked. -/
  forks : ℕ
  deriving DecidableEq, Repr

namespace Proc

/-- The process at the head of the loop. -/
def loop (q : Proc) : Proc := { q with pc := if q.i ≤ q.num.toInt then .fork else .exited 0 }

/-- The process at the end of the loop's body. -/
def inc (q : Proc) : Proc :=
  if q.i = INT_MAX then { q with pc := .undefined } else loop { q with i := q.i + 1 }

end Proc

/-- A call of a process, where there are `n` processes: what becomes of it, and its child if it
has one now. The number of the child stands for its PID. When a limit cannot be set,
`setup_rlimits` returns -1, which `main` does not look at. -/
def call (n : ℕ) (q : Proc) (a : Answer) : Option (Proc × Option Proc) :=
  match q.pc with
  | .prlimitNproc => a.status.map fun ok =>
    (if ok then { q with pc := .prlimitData, nproc := some q.num.toInt64.toUInt64 } else q.loop,
      none)
  | .prlimitData => a.status.map fun ok =>
    (if ok then Proc.loop { q with data := some ONE_GB } else q.loop, none)
  | .fork => a.status.map fun ok =>
    if ok then
      ({ q with pc := .malloc, cpid := n, forks := q.forks + 1 },
        some { q with pc := .malloc, cpid := 0, forks := 0 })
    else ({ q with pc := .forkFatal, cpid := -1 }, none)
  | .forkFatal => (afterFatal a (fun status => { q with pc := .exited status })
      { q with pc := .malloc }).map fun q' => (q', none)
  | .malloc => a.status.map fun ok =>
    if ok then (if q.cpid ≠ 0 then { q with pc := .sleep } else q.inc, none)
    else ({ q with pc := .killed }, none)
  | .sleep => a.status.map fun _ => (q.inc, none)
  | .exited _ => none
  | .killed => none
  | .undefined => none

/-- **The step function of the process tree**: the process `k` makes its next call. -/
def step (ps : List Proc) : ℕ × Answer → Option (List Proc)
  | (k, a) =>
    match ps[k]? with
    | none => none
    | some q => (call ps.length q a).map fun r => ps.set k r.1 ++ r.2.toList

/-- `atoi` of an argument. -/
def atoi (argv : List (List UInt8)) (k : ℕ) : Int32 := (atol (argv.getD k [])).toInt32

/-- `main` up to its first call. Both numbers are read from `argv[1]`. -/
def main (argv : List (List UInt8)) : List Proc :=
  let maxtasks := (atoi argv 1).toInt64.toUInt64
  let num := atoi argv 1
  let q : Proc := ⟨.prlimitNproc, maxtasks, num, 1, 0, none, none, 0⟩
  if argv.length ≠ 3 then [{ q with pc := .exited EXIT_FAILURE, maxtasks := 0, num := 0 }]
  else if maxtasks < 1 then [{ q with pc := .exited EXIT_FAILURE, num := 0 }]
  else if num < 1 then [{ q with pc := .exited EXIT_FAILURE }]
  else [q]

/-! ### What the two parameters ask for -/

/-- The arguments are accepted. -/
def Accepted (argv : List (List UInt8)) : Prop := ∀ q ∈ main argv, q.pc = .prlimitNproc

/-- Nobody wakes, and no call fails but, perhaps, the one that limits the data segment. -/
def Smooth (ps : List Proc) (l : ℕ × Answer) : Prop :=
  ∀ q ∈ ps[l.1]?, q.pc ≠ .sleep ∧ (q.pc = .prlimitData ∨ l.2 = .ok)

instance (ps : List Proc) (l : ℕ × Answer) : Decidable (Smooth ps l) :=
  inferInstanceAs (Decidable (∀ q ∈ ps[l.1]?, _ ∧ _))

/-- The process does not go on by itself: it sleeps, or it is at an end. -/
def Pc.Rests : Pc → Prop
  | .sleep | .exited _ | .killed | .undefined => True
  | _ => False

/-- All has come to rest: without a failure, and without somebody waking, no step is left. -/
def Rest (ps : List Proc) : Prop := ∀ l, Smooth ps l → step ps l = none

/-- The limit that is asked for. -/
def maxtasksArg (argv : List (List UInt8)) : ℤ := (atoi argv 1).toInt

/-- The number of processes that is asked for. -/
def numArg (argv : List (List UInt8)) : ℤ := (atoi argv 2).toInt

/-- **What is asked for**: `num` forks, each process but the last forking once, and `num + 1`
processes, none of them in an undefined state. -/
structure Obeys (num : ℤ) (ps : List Proc) : Prop where
  forks : ((ps.map Proc.forks).sum : ℤ) = num
  once : ∀ q ∈ ps.dropLast, q.forks = 1
  length : (ps.length : ℤ) = num + 1
  defined : ∀ q ∈ ps, q.pc ≠ .undefined

/-! ### The line of processes -/

/-- The limit that is installed, for the number `n`. -/
def installed (n : Int32) : UInt64 := n.toInt64.toUInt64

/-- A process that has forked: it is on its way to its `sleep`. -/
structure Parent (n : Int32) (q : Proc) : Prop where
  pc : q.pc = .malloc ∨ q.pc = .sleep
  cpid : q.cpid ≠ 0
  forks : q.forks = 1
  nproc : q.nproc = some (installed n)

/-- Where the last process stands, behind `m` others. -/
inductive LastAt (n : ℤ) : ℕ → Proc → Prop where
  | prlimitNproc {q : Proc} : q.pc = .prlimitNproc → q.i = 1 → LastAt n 0 q
  | prlimitData {q : Proc} : q.pc = .prlimitData → q.i = 1 → LastAt n 0 q
  | fork {m : ℕ} {q : Proc} : q.pc = .fork → q.i = m + 1 → m + 1 ≤ n → LastAt n m q
  | malloc {m : ℕ} {q : Proc} : q.pc = .malloc → q.i = m → q.cpid = 0 → m ≤ n → LastAt n m q
  | exited {m : ℕ} {q : Proc} : q.pc = .exited 0 → m = n → n < INT_MAX → LastAt n m q
  | undefined {m : ℕ} {q : Proc} : q.pc = .undefined → m = n → n = INT_MAX → LastAt n m q

/-- The last process: it has not forked yet. -/
structure Last (n : Int32) (m : ℕ) (q : Proc) : Prop where
  num : q.num = n
  forks : q.forks = 0
  stage : LastAt n.toInt m q
  nproc : q.pc ≠ .prlimitNproc → q.nproc = some (installed n)

/-- **The invariant**: a line of processes, all but the last of which have forked once. -/
def Chain (n : Int32) (ps : List Proc) : Prop :=
  ∃ front last, ps = front ++ [last] ∧ (∀ q ∈ front, Parent n q) ∧ Last n front.length last

/-- How many calls a process has ahead of it, those behind its next `fork` apart. -/
def Pc.rank : Pc → ℕ
  | .prlimitNproc => 4
  | .prlimitData | .malloc => 3
  | .fork => 2
  | .forkFatal => 1
  | .sleep | .exited _ | .killed | .undefined => 0

/-- What every step makes less. -/
def measure (n : Int32) (ps : List Proc) : ℕ :=
  7 * (n.toInt + 1 - ps.length).toNat + (ps.map fun q => q.pc.rank).sum

section Line

variable {n : Int32} {m : ℕ} {ps ps' front post : List Proc} {q q' : Proc} {r : Proc × Option Proc}
  {l : ℕ × Answer} {a : Answer}

/-- **A step**, taken apart: one process changes, and its child comes to the end. -/
theorem step_cases (h : step ps l = some ps') :
    ∃ pre q post r, ps = pre ++ q :: post ∧ ps[l.1]? = some q ∧ call ps.length q l.2 = some r ∧
      ps' = pre ++ r.1 :: post ++ r.2.toList := by
  rcases l with ⟨k, a⟩
  rw [step.eq_def] at h
  dsimp only at h
  split at h
  · exact absurd h (by simp)
  · rename_i q hq
    obtain ⟨r, hr, rfl⟩ := Option.map_eq_some_iff.mp h
    obtain ⟨hk, heq⟩ := List.getElem?_eq_some_iff.mp hq
    refine ⟨ps.take k, q, ps.drop (k + 1), r, ?_, hq, hr, ?_⟩
    · rw [← heq, List.cons_getElem_drop_succ, List.take_append_drop]
    · rw [List.set_eq_take_append_cons_drop, if_pos hk]

section Calls

theorem call_prlimitNproc (hpc : q.pc = .prlimitNproc) : call m q .ok =
    some ({ q with pc := .prlimitData, nproc := some q.num.toInt64.toUInt64 }, none) := by
  rw [call, hpc]
  rfl

theorem call_prlimitData (hpc : q.pc = .prlimitData) (h : call m q a = some r) :
    ∃ data, r = (Proc.loop { q with data := data }, none) := by
  rw [call, hpc] at h
  obtain ⟨ok, -, rfl⟩ := Option.map_eq_some_iff.mp h
  cases ok with
  | false => exact ⟨q.data, rfl⟩
  | true => exact ⟨some ONE_GB, rfl⟩

theorem call_fork (hpc : q.pc = .fork) : call m q .ok =
    some ({ q with pc := .malloc, cpid := m, forks := q.forks + 1 },
      some { q with pc := .malloc, cpid := 0, forks := 0 }) := by
  rw [call, hpc]
  rfl

theorem call_malloc (hpc : q.pc = .malloc) : call m q .ok =
    some (if q.cpid ≠ 0 then { q with pc := .sleep } else q.inc, none) := by
  rw [call, hpc]
  rfl

theorem call_of_rests (hrests : q.pc.Rests) (hsleep : q.pc ≠ .sleep) : call m q a = none := by
  rw [call.eq_def]
  split <;> simp_all [Pc.Rests]

end Calls

/-- A process that has forked goes to sleep. -/
theorem Parent.call_ok (hq : Parent n q) (hsleep : q.pc ≠ .sleep)
    (ha : q.pc = .prlimitData ∨ a = .ok) (h : call m q a = some r) :
    r = ({ q with pc := .sleep }, none) ∧ q.pc = .malloc := by
  have hpc := hq.pc.resolve_right hsleep
  obtain rfl : a = .ok := ha.resolve_left (by rw [hpc]; decide)
  rw [call_malloc hpc, if_pos hq.cpid] at h
  exact ⟨(Option.some.inj h).symm, hpc⟩

theorem Parent.slept (hq : Parent n q) : Parent n { q with pc := .sleep } :=
  ⟨Or.inr rfl, hq.cpid, hq.forks, hq.nproc⟩

/-- The head of the loop, in the round behind `m` others. -/
theorem Last.loop (hnum : q.num = n) (hforks : q.forks = 0) (hnproc : q.nproc = some (installed n))
    (hi : q.i = m + 1) (hm : (m : ℤ) ≤ n.toInt) (hmax : n.toInt = m → n.toInt < INT_MAX) :
    Last n m q.loop ∧ q.loop.pc.rank ≤ 2 := by
  rw [Proc.loop]
  rcases lt_or_ge (m : ℤ) n.toInt with hlt | hge
  · rw [if_pos (by rw [hnum]; omega)]
    exact ⟨⟨hnum, hforks, LastAt.fork rfl hi (by omega), fun _ => hnproc⟩, le_rfl⟩
  · have heq : (m : ℤ) = n.toInt := by omega
    rw [if_neg (by rw [hnum]; omega)]
    exact ⟨⟨hnum, hforks, LastAt.exited rfl heq (hmax heq.symm), fun _ => hnproc⟩, Nat.zero_le 2⟩

/-- **What the last process does next**: it goes on, or there is one behind it. -/
theorem Last.call_ok (hn : 1 ≤ n.toInt) (hq : Last n m q) (ha : q.pc = .prlimitData ∨ a = .ok)
    (h : call (m + 1) q a = some r) :
    (Last n m r.1 ∧ r.2 = none ∧ r.1.pc.rank < q.pc.rank) ∨
      ∃ q', r.2 = some q' ∧ Parent n r.1 ∧ Last n (m + 1) q' ∧ m + 1 ≤ n.toInt ∧
        r.1.pc.rank = 3 ∧ q'.pc.rank = 3 := by
  have hlt := n.toInt_lt
  have hmax : INT_MAX = 2147483647 := rfl
  cases hq.stage with
  | prlimitNproc hpc hi =>
    obtain rfl : a = .ok := ha.resolve_left (by rw [hpc]; decide)
    rw [call_prlimitNproc hpc] at h
    obtain rfl := Option.some.inj h
    refine Or.inl ⟨⟨hq.num, hq.forks, LastAt.prlimitData rfl hi, fun _ => ?_⟩, rfl, ?_⟩
    · rw [hq.num, installed]
    · rw [hpc]
      exact Nat.lt_succ_self 3
  | prlimitData hpc hi =>
    have hnproc := hq.nproc (by rw [hpc]; decide)
    obtain ⟨data, rfl⟩ := call_prlimitData hpc h
    obtain ⟨hlast, hrank⟩ := Last.loop (m := 0) (q := { q with data := data }) hq.num
      hq.forks hnproc hi (by omega) (by omega)
    refine Or.inl ⟨hlast, rfl, ?_⟩
    rw [hpc]
    exact Nat.lt_succ_of_le hrank
  | fork hpc hi hle =>
    have hnproc := hq.nproc (by rw [hpc]; decide)
    obtain rfl : a = .ok := ha.resolve_left (by rw [hpc]; decide)
    rw [call_fork hpc] at h
    obtain rfl := Option.some.inj h
    refine Or.inr ⟨_, rfl, ⟨Or.inl rfl, ?_, ?_, hnproc⟩, ⟨hq.num, rfl, ?_, fun _ => hnproc⟩, hle,
      rfl, rfl⟩
    · exact Int.natCast_ne_zero.mpr (Nat.succ_ne_zero m)
    · exact congrArg (· + 1) hq.forks
    · exact LastAt.malloc rfl hi rfl hle
  | malloc hpc hi hcpid hle =>
    have hnproc := hq.nproc (by rw [hpc]; decide)
    obtain rfl : a = .ok := ha.resolve_left (by rw [hpc]; decide)
    rw [call_malloc hpc, if_neg (not_not.mpr hcpid)] at h
    obtain rfl := Option.some.inj h
    have hinc : Last n m q.inc ∧ q.inc.pc.rank ≤ 2 := by
      rw [Proc.inc]
      rcases Decidable.em (q.i = INT_MAX) with hover | hover
      · rw [if_pos hover]
        exact ⟨⟨hq.num, hq.forks, LastAt.undefined rfl (by omega) (by omega), fun _ => hnproc⟩,
          Nat.zero_le 2⟩
      · rw [if_neg hover]
        exact Last.loop (q := { q with i := q.i + 1 }) hq.num hq.forks hnproc (congrArg (· + 1) hi)
          hle (by omega)
    refine Or.inl ⟨hinc.1, rfl, ?_⟩
    rw [hpc]
    exact Nat.lt_succ_of_le hinc.2
  | exited hpc heq hmax =>
    rw [call_of_rests (by rw [hpc]; trivial) (by rw [hpc]; decide)] at h
    exact absurd h (by simp)
  | undefined hpc heq hmax =>
    rw [call_of_rests (by rw [hpc]; trivial) (by rw [hpc]; decide)] at h
    exact absurd h (by simp)

/-- The first process is a line by itself. -/
theorem chain_singleton (hnum : q.num = n) (hforks : q.forks = 0) (hpc : q.pc = .prlimitNproc)
    (hi : q.i = 1) : Chain n [q] :=
  ⟨[], q, rfl, fun _ h => absurd h List.not_mem_nil,
    hnum, hforks, LastAt.prlimitNproc hpc hi, fun h => absurd hpc h⟩

/-- **A step keeps the line**, and brings its end nearer. -/
theorem Chain.step (hn : 1 ≤ n.toInt) (hs : Chain n ps) (hl : Smooth ps l)
    (h : step ps l = some ps') : Chain n ps' ∧ measure n ps' < measure n ps := by
  obtain ⟨pre, q, post, r, rfl, hq, hcall, rfl⟩ := step_cases h
  obtain ⟨front, last, hsplit, hfront, hlast⟩ := hs
  obtain ⟨hsleep, hanswer⟩ := hl q hq
  rcases List.eq_nil_or_concat post with rfl | ⟨post, x, rfl⟩
  · -- the last process moves
    obtain ⟨rfl, heq⟩ := List.append_inj' hsplit rfl
    obtain rfl := List.singleton_inj.mp heq
    rw [List.length_append, List.length_singleton] at hcall
    rcases hlast.call_ok hn hanswer hcall with
      ⟨hlast', hnone, hrank⟩ | ⟨q', hsome, hparent, hlast', hle, hr, hr'⟩
    · refine ⟨⟨pre, r.1, by simp [hnone], hfront, hlast'⟩, ?_⟩
      simp [measure, hnone, hrank]
    · refine ⟨⟨pre ++ [r.1], q', by simp [hsome], ?_, by simpa using hlast'⟩, ?_⟩
      · rintro u hu
        rcases List.mem_append.mp hu with hu' | hu'
        · exact hfront u hu'
        · exact List.mem_singleton.mp hu' ▸ hparent
      · simp only [measure, hsome, hr, hr', Option.toList, List.map_append, List.map_cons,
          List.map_nil, List.sum_append, List.sum_cons, List.sum_nil, List.length_append,
          List.length_cons, List.length_nil]
        omega
  · -- a process that has forked goes to sleep
    have hsplit' : (pre ++ q :: post) ++ [x] = front ++ [last] := by
      rw [← hsplit]
      simp
    obtain ⟨rfl, heq⟩ := List.append_inj' hsplit' rfl
    obtain rfl := List.singleton_inj.mp heq
    have hparent := hfront q (by simp)
    obtain ⟨rfl, hpc⟩ := hparent.call_ok hsleep hanswer hcall
    refine ⟨⟨pre ++ { q with pc := .sleep } :: post, x, by simp, ?_, by simpa using hlast⟩, ?_⟩
    · intro u hu
      rcases List.mem_append.mp hu with hu' | hu'
      · exact hfront u (List.mem_append_left _ hu')
      · rcases List.mem_cons.mp hu' with rfl | hu''
        · exact hparent.slept
        · exact hfront u (List.mem_append_right _ (List.mem_cons_of_mem _ hu''))
    · simp [measure, hpc, Pc.rank]

theorem exists_call (h : ¬q.pc.Rests) : ∃ r, call m q .ok = some r := by
  rw [call.eq_def]
  split <;> first | exact ⟨_, rfl⟩ | simp_all [Pc.Rests]

/-- Where all has come to rest, everybody has. -/
theorem Rest.rests (h : Rest ps) : ∀ q ∈ ps, q.pc.Rests := by
  intro q hmem
  by_contra hrests
  obtain ⟨k, hk⟩ := List.mem_iff_getElem?.mp hmem
  obtain ⟨r, hr⟩ := exists_call (m := ps.length) hrests
  have hsmooth : Smooth ps (k, .ok) := by
    rintro u hu
    obtain rfl := Option.some.inj (hk.symm.trans hu)
    exact ⟨fun hsleep => hrests (by rw [hsleep]; trivial), Or.inr rfl⟩
  have hnone := h (k, .ok) hsmooth
  rw [Forkbomb.step, hk] at hnone
  simp [hr] at hnone

/-- **Where the line comes to rest**: behind `n` processes, and at the end of the program unless
the counter is at its greatest value. -/
theorem Chain.rest (hs : Chain n ps) (h : Rest ps) : ∃ front last, ps = front ++ [last] ∧
    (∀ q ∈ front, Parent n q) ∧ (front.length : ℤ) = n.toInt ∧ last.forks = 0 ∧
    last.nproc = some (installed n) ∧ (last.pc = .undefined ↔ n.toInt = INT_MAX) := by
  obtain ⟨front, last, rfl, hfront, hlast⟩ := hs
  have hrests : last.pc.Rests := h.rests last (by simp)
  have hstage := hlast.stage
  generalize hm : front.length = m at hstage
  cases hstage with
  | prlimitNproc hpc | prlimitData hpc | fork hpc | malloc hpc =>
    rw [hpc] at hrests
    exact hrests.elim
  | exited hpc heq hmax =>
    refine ⟨front, last, rfl, hfront, hm ▸ heq, hlast.forks, hlast.nproc (by rw [hpc]; decide), ?_⟩
    rw [hpc]
    exact iff_of_false (by decide) hmax.ne
  | undefined hpc heq hmax =>
    exact ⟨front, last, rfl, hfront, hm ▸ heq, hlast.forks, hlast.nproc (by rw [hpc]; decide),
      iff_of_true hpc hmax⟩

/-- **What a line at rest says of the second parameter.** -/
theorem obeys_iff_of_rest {num : ℤ} (hs : Chain n ps) (h : Rest ps) :
    Obeys num ps ↔ n.toInt = num ∧ n.toInt < INT_MAX := by
  have hle : n.toInt ≤ INT_MAX := Int.lt_add_one_iff.mp n.toInt_lt
  obtain ⟨front, last, rfl, hfront, hlen, hforks, -, hpc⟩ := hs.rest h
  constructor
  · intro hobeys
    have hlength := hobeys.length
    have hdefined := hobeys.defined last (by simp)
    rw [List.length_append, List.length_singleton] at hlength
    exact ⟨by omega, lt_of_le_of_ne hle (mt hpc.mpr hdefined)⟩
  · rintro ⟨rfl, hmax⟩
    have hones : front.map Proc.forks = List.replicate front.length 1 :=
      List.map_eq_replicate_iff.mpr fun q hq => (hfront q hq).forks
    refine ⟨?_, ?_, ?_, ?_⟩
    · rw [List.map_append, hones, List.sum_append, List.map_singleton, hforks]
      simpa using hlen
    · rw [List.dropLast_concat]
      exact fun q hq => (hfront q hq).forks
    · rw [List.length_append, List.length_singleton]
      omega
    · intro q hq
      rcases List.mem_append.mp hq with hq' | hq'
      · rcases (hfront q hq').pc with hpc' | hpc' <;> rw [hpc'] <;> decide
      · obtain rfl := List.mem_singleton.mp hq'
        exact mt hpc.mp hmax.ne

/-- The limit of a process, if it has one, is the number that `main` has read. -/
def Limited (n : Int32) (q : Proc) : Prop :=
  q.num = n ∧ ∀ x, q.nproc = some x → x = installed n

theorem Limited.inc (hq : Limited n q) : Limited n q.inc := by
  rw [Proc.inc]
  split_ifs <;> exact hq

/-- **Whatever a process calls**, the limits stay what they are. -/
theorem Limited.call (hq : Limited n q) (h : call m q a = some r) :
    Limited n r.1 ∧ ∀ q' ∈ r.2.toList, Limited n q' := by
  have hnone : ∀ q' ∈ (none : Option Proc).toList, Limited n q' := fun _ h =>
    absurd h List.not_mem_nil
  rw [call.eq_def] at h
  split at h
  · obtain ⟨ok, -, rfl⟩ := Option.map_eq_some_iff.mp h
    refine ⟨?_, hnone⟩
    rcases ok with _ | _
    · exact hq
    · exact ⟨hq.1, fun x hx => by rw [← Option.some.inj hx, hq.1, installed]⟩
  · obtain ⟨ok, -, rfl⟩ := Option.map_eq_some_iff.mp h
    refine ⟨?_, hnone⟩
    rcases ok with _ | _ <;> exact hq
  · obtain ⟨ok, -, rfl⟩ := Option.map_eq_some_iff.mp h
    rcases ok with _ | _
    · exact ⟨hq, hnone⟩
    · exact ⟨hq, fun q' hq' => List.mem_singleton.mp hq' ▸ hq⟩
  · obtain ⟨q', hq', rfl⟩ := Option.map_eq_some_iff.mp h
    rcases afterFatal_cases hq' with rfl | rfl <;> exact ⟨hq, hnone⟩
  · obtain ⟨ok, -, rfl⟩ := Option.map_eq_some_iff.mp h
    rcases ok with _ | _
    · exact ⟨hq, hnone⟩
    · have hbody : Limited n (if q.cpid ≠ 0 then { q with pc := .sleep } else q.inc) := by
        split_ifs
        · exact hq
        · exact hq.inc
      exact ⟨hbody, hnone⟩
  · obtain ⟨ok, -, rfl⟩ := Option.map_eq_some_iff.mp h
    exact ⟨hq.inc, hnone⟩
  all_goals exact absurd h (by simp)

theorem limited_step (hs : ∀ q ∈ ps, Limited n q) (h : step ps l = some ps') :
    ∀ q ∈ ps', Limited n q := by
  obtain ⟨pre, q, post, r, rfl, -, hcall, rfl⟩ := step_cases h
  obtain ⟨hown, hchild⟩ := (hs q (by simp)).call hcall
  intro u hu
  rcases List.mem_append.mp hu with hu' | hu'
  · rcases List.mem_append.mp hu' with hpre | hpost
    · exact hs u (List.mem_append_left _ hpre)
    · rcases List.mem_cons.mp hpost with rfl | hpost'
      · exact hown
      · exact hs u (List.mem_append_right _ (List.mem_cons_of_mem _ hpost'))
  · exact hchild u hu'

end Line

/-! ### The runs of the program -/

section Arguments

variable {argv : List (List UInt8)}

/-- A number as a `rlim_t`. -/
theorem toNat_installed {n : Int32} (h : 0 ≤ n.toInt) : ((installed n).toNat : ℤ) = n.toInt := by
  have hlt := n.toInt_lt
  rw [installed, toNat_toUInt64, Int32.toInt_toInt64]
  omega

/-- **The arguments that are accepted**: two, the first of which is a positive number. -/
theorem accepted_iff : Accepted argv ↔ argv.length = 3 ∧ 1 ≤ maxtasksArg argv := by
  have hone : (1 : Int32).toInt = 1 := rfl
  have hval := toNat_toUInt64 (atoi argv 1).toInt64
  have hlow := (atoi argv 1).le_toInt
  have hlt := (atoi argv 1).toInt_lt
  rw [Int32.toInt_toInt64] at hval
  rw [Accepted, main, maxtasksArg]
  dsimp only
  split_ifs with hargc hmax hnum
  · simp [hargc]
  · rw [UInt64.lt_iff_toNat_lt] at hmax
    simp at hmax ⊢
    omega
  · rw [Int32.lt_iff_toInt_lt, hone] at hnum
    simp
    omega
  · rw [Int32.lt_iff_toInt_lt, hone] at hnum
    simp
    omega

theorem main_of_accepted (h : Accepted argv) : main argv =
    [⟨.prlimitNproc, (atoi argv 1).toInt64.toUInt64, atoi argv 1, 1, 0, none, none, 0⟩] := by
  rw [Accepted, main] at h
  rw [main]
  dsimp only at h ⊢
  split_ifs at h ⊢ with hargc hmax hnum
  · exact absurd (h _ (List.mem_singleton_self _)) (by simp)
  · exact absurd (h _ (List.mem_singleton_self _)) (by simp)
  · exact absurd (h _ (List.mem_singleton_self _)) (by simp)
  · rfl

/-- **Every smooth run**: it is a line of processes, and no longer than so many steps. -/
theorem chain_of_run (h : Accepted argv) {ls : List (ℕ × Answer)} {ps : List Proc}
    (hall : Every step Smooth (main argv) ls) (hrun : run step (main argv) ls = some ps) :
    Chain (atoi argv 1) ps ∧ ls.length ≤ measure (atoi argv 1) (main argv) := by
  have hn : 1 ≤ (atoi argv 1).toInt := (accepted_iff.mp h).2
  have hstart : Chain (atoi argv 1) (main argv) := by
    rw [main_of_accepted h]
    exact chain_singleton rfl rfl rfl rfl
  exact ⟨hall.invariant (fun _ _ _ hs hl hst => (hs.step hn hl hst).1) hstart hrun,
    Every.length_le (measure (atoi argv 1)) (fun _ _ _ hs hl hst => hs.step hn hl hst) hall hstart
      hrun⟩

/-- **All comes to rest**: there is a smooth run to where no step is left. -/
theorem exists_rest (h : Accepted argv) : ∃ ls ps, Every step Smooth (main argv) ls ∧
    run step (main argv) ls = some ps ∧ Chain (atoi argv 1) ps ∧ Rest ps := by
  have hn : 1 ≤ (atoi argv 1).toInt := (accepted_iff.mp h).2
  have hstart : Chain (atoi argv 1) (main argv) := by
    rw [main_of_accepted h]
    exact chain_singleton rfl rfl rfl rfl
  refine exists_run_of_measure (measure (atoi argv 1)) ?_ (main argv) hstart
  intro ps hs hrest
  rw [Rest] at hrest
  push Not at hrest
  obtain ⟨l, hl, hne⟩ := hrest
  obtain ⟨t, hst⟩ := Option.ne_none_iff_exists'.mp hne
  obtain ⟨ht, hlt⟩ := hs.step hn hl hst
  exact ⟨l, t, hl, hst, ht, hlt⟩

/-- **When `forkbomb` obeys its parameters.** For all arguments that are accepted: in every run
the limit on processes that is installed is the first argument, and the runs in which nobody wakes
and no call fails but, perhaps, the one that limits the data segment all end, with the limit in
place, after `num` forks and in `num + 1` processes – exactly if the second argument is the same
number as the first, and smaller than `INT_MAX`. -/
theorem obeys_iff (h : Accepted argv) :
    ((∀ ls ps, run step (main argv) ls = some ps →
        ∀ q ∈ ps, ∀ x, q.nproc = some x → (x.toNat : ℤ) = maxtasksArg argv) ∧
      (∃ b, ∀ ls ps, Every step Smooth (main argv) ls → run step (main argv) ls = some ps →
        ls.length ≤ b) ∧
      ∀ ls ps, Every step Smooth (main argv) ls → run step (main argv) ls = some ps → Rest ps →
        (∀ q ∈ ps, q.nproc.isSome) ∧ Obeys (numArg argv) ps) ↔
      maxtasksArg argv = numArg argv ∧ maxtasksArg argv < INT_MAX := by
  have hn : 1 ≤ (atoi argv 1).toInt := (accepted_iff.mp h).2
  constructor
  · rintro ⟨-, -, hall⟩
    obtain ⟨ls, ps, hsmooth, hrun, hs, hrest⟩ := exists_rest h
    exact (obeys_iff_of_rest hs hrest).mp (hall ls ps hsmooth hrun hrest).2
  · intro hcond
    refine ⟨?_, ⟨_, fun ls ps hsmooth hrun => (chain_of_run h hsmooth hrun).2⟩, ?_⟩
    · intro ls ps hrun q hq x hx
      have hstart : ∀ q ∈ main argv, Limited (atoi argv 1) q := by
        rw [main_of_accepted h]
        intro q hq
        obtain rfl := List.mem_singleton.mp hq
        exact ⟨rfl, fun x hx => absurd hx (by simp)⟩
      rw [(run_invariant (fun _ _ _ => limited_step) hstart hrun q hq).2 x hx]
      exact toNat_installed (by omega)
    · intro ls ps hsmooth hrun hrest
      have hs := (chain_of_run h hsmooth hrun).1
      refine ⟨?_, (obeys_iff_of_rest hs hrest).mpr hcond⟩
      obtain ⟨front, last, rfl, hfront, -, -, hlast, -⟩ := hs.rest hrest
      intro q hq
      rcases List.mem_append.mp hq with hq' | hq'
      · rw [(hfront q hq').nproc]
        rfl
      · rw [List.mem_singleton.mp hq', hlast]
        rfl

/-- `forkbomb 3 3` makes three forks. -/
theorem obeys_three :
    Accepted [ascii "forkbomb", ascii "3", ascii "3"] ∧
      ∀ ls ps, Every step Smooth (main [ascii "forkbomb", ascii "3", ascii "3"]) ls →
        run step (main [ascii "forkbomb", ascii "3", ascii "3"]) ls = some ps → Rest ps →
        (∀ q ∈ ps, q.nproc.isSome) ∧ Obeys 3 ps := by
  have hnum : numArg [ascii "forkbomb", ascii "3", ascii "3"] = 3 := by decide +kernel
  have haccepted : Accepted [ascii "forkbomb", ascii "3", ascii "3"] :=
    accepted_iff.mpr (by decide +kernel)
  have hall := ((obeys_iff haccepted).mpr (by decide +kernel)).2.2
  rw [hnum] at hall
  exact ⟨haccepted, hall⟩

/-- Where `forkbomb 2 1` comes to rest. -/
def bombed : List Proc :=
  [⟨.sleep, 2, 2, 1, 1, some 2, some ONE_GB, 1⟩, ⟨.sleep, 2, 2, 2, 2, some 2, some ONE_GB, 1⟩,
    ⟨.exited 0, 2, 2, 3, 0, some 2, some ONE_GB, 0⟩]

/-- **The first number is taken for the second**: `forkbomb 2 1` makes two forks. -/
theorem forks_twice :
    Accepted [ascii "forkbomb", ascii "2", ascii "1"] ∧
      maxtasksArg [ascii "forkbomb", ascii "2", ascii "1"] = 2 ∧
      numArg [ascii "forkbomb", ascii "2", ascii "1"] = 1 ∧
      Every step Smooth (main [ascii "forkbomb", ascii "2", ascii "1"])
        [(0, .ok), (0, .ok), (0, .ok), (0, .ok), (1, .ok), (1, .ok), (1, .ok), (2, .ok)] ∧
      run step (main [ascii "forkbomb", ascii "2", ascii "1"])
        [(0, .ok), (0, .ok), (0, .ok), (0, .ok), (1, .ok), (1, .ok), (1, .ok), (2, .ok)] =
          some bombed ∧
      Rest bombed ∧ (bombed.map Proc.forks).sum = 2 ∧ ¬Obeys 1 bombed := by
  refine ⟨accepted_iff.mpr (by decide +kernel), by decide +kernel, by decide +kernel,
    by decide +kernel, by decide +kernel, ?_, rfl, fun h => absurd h.length (by decide)⟩
  rintro ⟨k, a⟩ hsmooth
  rcases k with _ | _ | _ | k
  · exact absurd rfl (hsmooth _ rfl).1
  · exact absurd rfl (hsmooth _ rfl).1
  · rfl
  · rfl

end Arguments

end Forkbomb

end SystemProgramming
