import SystemProgramming.HandleErr
import SystemProgramming.Printf
import SystemProgramming.Runs

/-!
# Sizes computed from an argument

Three programs take a number of units as their argument, multiply it by the size of the unit, and
use the product as a size: `diskspc` (`ch18/`) reserves so many MB of a file, `stack_test`
(`ch14/`) gives its threads so many KB of stack, and `mlock_try` (`ch4/`) locks so many pages.
Each of them checks its number – *after* the multiplication, that is when the product has wrapped
round already.

So a product that wraps round to a size in the accepted range is used in the place of the one
that was asked for. The arguments for which this does not happen are found out for each program
(`SystemProgramming.sizes_exact_iff`), once for the runs in which `FATAL` exits, as it is meant
to, and once for all of them.
-/

namespace SystemProgramming

open HandleErr Printf Runs

/-! ### Reserving space in a file -/

namespace Diskspc

/-- Where `main` stands: about to make a call, or at the end. -/
inductive Pc where
  | unlink
  | umask
  | openFile
  | fallocate
  | close
  /-- `FATAL` is about to allocate its message; should it come back, the process is at `back`. -/
  | fatal (back : Pc)
  /-- The process has exited with this status. -/
  | exited (status : ℤ)
  deriving DecidableEq, Repr

structure State where
  pc : Pc
  sz : Int64
  /-- The sizes that `posix_fallocate` was called with. -/
  reserved : List Int64
  deriving DecidableEq, Repr

/-- What `main` computes of its argument. -/
def size (arg : List UInt8) : Int64 := atol arg * 1024 * 1024

/-- The number of MB that is asked for. -/
def requested (argv : List (List UInt8)) : ℤ := (atol (argv.getD 2 [])).toInt

/-- `main` up to its first call. -/
def main (argv : List (List UInt8)) : State :=
  if argv.length ≠ 3 then ⟨.exited EXIT_FAILURE, 0, []⟩
  else ⟨if size (argv.getD 2 []) ≤ 0 then .fatal .unlink else .unlink, size (argv.getD 2 []), []⟩

/-- **The step function**: one call. What `unlink` and `close` return is not looked at. -/
def step (s : State) (a : Answer) : Option State :=
  match s.pc with
  | .unlink => a.status.map fun _ => { s with pc := .umask }
  | .umask => a.status.map fun _ => { s with pc := .openFile }
  | .openFile => a.status.map fun ok =>
    { s with pc := if ok then .fallocate else .fatal .fallocate }
  | .fallocate => a.status.map fun ok =>
    { s with pc := if ok then .close else .fatal .close, reserved := s.sz :: s.reserved }
  | .close => a.status.map fun _ => { s with pc := .exited 0 }
  | .fatal back => afterFatal a (fun status => { s with pc := .exited status })
      { s with pc := back }
  | .exited _ => none

/-- `FATAL` can allocate its message, and so exits. -/
def FatalExits (s : State) (a : Answer) : Prop := ∀ back, s.pc = .fatal back → a = .ok

section Steps

variable {s t : State} {a : Answer} {arg : List UInt8}

/-- **What a step does to the sizes**: it adds the one that was computed, or nothing. -/
theorem step_reserved (h : step s a = some t) :
    t.sz = s.sz ∧ ∀ y ∈ t.reserved, y = s.sz ∨ y ∈ s.reserved := by
  rcases s with ⟨pc, sz, reserved⟩
  cases pc with
  | fallocate =>
    obtain ⟨ok, -, rfl⟩ := Option.map_eq_some_iff.mp h
    exact ⟨rfl, fun y hy => List.mem_cons.mp hy⟩
  | fatal back =>
    rcases afterFatal_cases h with rfl | rfl <;> exact ⟨rfl, fun y hy => Or.inr hy⟩
  | exited status => exact absurd h (by simp [step])
  | _ =>
    obtain ⟨ok, -, rfl⟩ := Option.map_eq_some_iff.mp h
    exact ⟨rfl, fun y hy => Or.inr hy⟩

/-- The invariant of the runs that `FATAL` is to end at once. -/
def Rejected (s : State) : Prop :=
  s.reserved = [] ∧ ((∃ back, s.pc = .fatal back) ∨ ∃ status, s.pc = .exited status)

theorem Rejected.step (hs : Rejected s) (ha : FatalExits s a) (h : step s a = some t) :
    Rejected t := by
  rcases s with ⟨pc, sz, reserved⟩
  rcases hs with ⟨hnil, ⟨back, rfl⟩ | ⟨status, rfl⟩⟩
  · obtain rfl := ha back rfl
    obtain rfl := Option.some.inj h
    exact ⟨hnil, Or.inr ⟨_, rfl⟩⟩
  · exact absurd h (by simp [Diskspc.step])

end Steps

section Arguments

variable {argv : List (List UInt8)} {arg : List UInt8} {ls : List Answer} {s : State}

/-- The product, as a number. -/
theorem toInt_size (arg : List UInt8) :
    (size arg).toInt = ((atol arg).toInt * 1048576).bmod (2 ^ 64) := by
  have hunit : (1024 : Int64).toInt = 1024 := rfl
  rw [size, Int64.toInt_mul, Int64.toInt_mul, hunit, Int.bmod_mul_bmod, Int.mul_assoc]
  rfl

theorem size_exact_iff : (size arg).toInt = (atol arg).toInt * 1048576 ↔
    -2 ^ 43 ≤ (atol arg).toInt ∧ (atol arg).toInt < 2 ^ 43 := by
  have hcast : ((2 ^ 64 : ℕ) : ℤ) = 18446744073709551616 := rfl
  rw [toInt_size, Int.bmod_def, hcast]
  split_ifs <;> omega

theorem size_nonpos_iff : size arg ≤ 0 ↔
    (atol arg).toInt % 2 ^ 44 = 0 ∨ 2 ^ 43 ≤ (atol arg).toInt % 2 ^ 44 := by
  have hcast : ((2 ^ 64 : ℕ) : ℤ) = 18446744073709551616 := rfl
  have hzero : (0 : Int64).toInt = 0 := rfl
  rw [Int64.le_iff_toInt_le, toInt_size, hzero, Int.bmod_def, hcast]
  split_ifs <;> omega

theorem main_of_length (h : argv.length = 3) : main argv =
    ⟨if size (argv.getD 2 []) ≤ 0 then .fatal .unlink else .unlink, size (argv.getD 2 []), []⟩ :=
  if_neg (by simp [h])

/-- No run reserves anything but the size that was computed. -/
theorem eq_size (h : argv.length = 3) (hrun : run step (main argv) ls = some s) :
    ∀ y ∈ s.reserved, y = size (argv.getD 2 []) := by
  rw [main_of_length h] at hrun
  exact eq_of_mem_used State.sz State.reserved (fun _ _ _ => step_reserved) rfl hrun

/-- A size that is not positive is rejected. -/
theorem reserved_eq_nil (h : argv.length = 3) (hsize : size (argv.getD 2 []) ≤ 0)
    (hall : Every step FatalExits (main argv) ls) (hrun : run step (main argv) ls = some s) :
    s.reserved = [] := by
  have hstart : Rejected (main argv) := by
    rw [main_of_length h, if_pos hsize]
    exact ⟨rfl, Or.inl ⟨_, rfl⟩⟩
  exact (hall.invariant (fun _ _ _ hs ha hst => hs.step ha hst) hstart hrun).1

/-- A size that is positive is reserved, if the calls succeed. -/
theorem reserves (h : argv.length = 3) (hsize : ¬size (argv.getD 2 []) ≤ 0) :
    ∃ ls s, (Every step FatalExits (main argv) ls ∧ run step (main argv) ls = some s) ∧
      size (argv.getD 2 []) ∈ s.reserved := by
  rw [main_of_length h, if_neg hsize]
  have hall : Every step FatalExits ⟨.unlink, size (argv.getD 2 []), []⟩ (List.replicate 4 .ok) :=
    (every_of_forall (D := fun a => a = .ok) (fun _ ha => List.eq_of_mem_replicate ha) _).imp
      fun _ _ ha _ _ => ha
  exact ⟨_, ⟨.close, _, [_]⟩, ⟨hall, rfl⟩, List.mem_singleton_self _⟩

/-- A size that is not positive is reserved too, if `FATAL` comes back. -/
theorem reserves_after_fatal (h : argv.length = 3) (hsize : size (argv.getD 2 []) ≤ 0) :
    ∃ ls s, run step (main argv) ls = some s ∧ size (argv.getD 2 []) ∈ s.reserved := by
  rw [main_of_length h, if_pos hsize]
  exact ⟨.err :: List.replicate 4 .ok, ⟨.close, _, [_]⟩, rfl, List.mem_singleton_self _⟩

/-- **When `diskspc` reserves what it was asked for**, in the runs in which `FATAL` exits. -/
theorem exact_iff (h : argv.length = 3) :
    (∀ ls s, Every step FatalExits (main argv) ls ∧ run step (main argv) ls = some s →
      ∀ y ∈ s.reserved, y.toInt = requested argv * 1048576) ↔
      (0 < requested argv ∧ requested argv < 2 ^ 43) ∨ requested argv % 2 ^ 44 = 0 ∨
        2 ^ 43 ≤ requested argv % 2 ^ 44 := by
  rcases Decidable.em (size (argv.getD 2 []) ≤ 0) with hsize | hsize
  · refine iff_of_true ?_ (Or.inr (size_nonpos_iff.mp hsize))
    rintro ls s ⟨hall, hrun⟩ y hy
    rw [reserved_eq_nil h hsize hall hrun] at hy
    exact absurd hy List.not_mem_nil
  · rw [forall_used_iff State.reserved (fun ls s hR => eq_size h hR.2)
      (reserves h hsize), requested, size_exact_iff]
    rw [size_nonpos_iff] at hsize
    omega

/-- **When `diskspc` reserves what it was asked for**, in all runs. -/
theorem always_exact_iff (h : argv.length = 3) :
    (∀ ls s, run step (main argv) ls = some s →
      ∀ y ∈ s.reserved, y.toInt = requested argv * 1048576) ↔
      -2 ^ 43 ≤ requested argv ∧ requested argv < 2 ^ 43 := by
  have huse : ∃ ls s, run step (main argv) ls = some s ∧ size (argv.getD 2 []) ∈ s.reserved := by
    rcases Decidable.em (size (argv.getD 2 []) ≤ 0) with hsize | hsize
    · exact reserves_after_fatal h hsize
    · obtain ⟨ls, s, ⟨-, hrun⟩, hx⟩ := reserves h hsize
      exact ⟨ls, s, hrun, hx⟩
  rw [forall_used_iff State.reserved (fun ls s hR => eq_size h hR) huse, requested,
    size_exact_iff]

end Arguments

end Diskspc

/-! ### The stack of a thread -/

namespace StackTest

/-- The number of threads. -/
def NTHREADS : ℕ := 3

/-- The size of a stack in the place of one that is not valid. -/
def TSTACK : Int32 := 1024 * 1024

def INT_MAX : Int32 := 2147483647

/-- What the threads library goes by: the smallest stack that it accepts, which is not above the
size that `stack_test` falls back to, and the size of a stack that is not set. -/
structure Stacks where
  /-- `PTHREAD_STACK_MIN`. -/
  min : ℕ
  dflt : UInt64
  min_le : min ≤ 1024 * 1024

/-- Where `main` stands: about to make a call, or at the end. -/
inductive Pc where
  | getstacksize
  | setstacksize
  | getguardsize
  /-- About to create the thread `i`. -/
  | create (i : ℕ)
  /-- About to join the thread `i`. -/
  | join (i : ℕ)
  /-- `FATAL` is about to allocate its message; should it come back, the process is at `back`. -/
  | fatal (back : Pc)
  /-- The process has exited with this status. -/
  | exited (status : ℤ)
  deriving DecidableEq, Repr

structure State where
  pc : Pc
  stackSet : Int32
  /-- The size of a stack, in the attributes that the threads are created with. -/
  attr : UInt64
  /-- Whether the argument was reported as invalid and replaced. -/
  replaced : Bool
  /-- The sizes of the stacks of the threads that were created, the latest first. -/
  used : List UInt64
  deriving DecidableEq, Repr

/-- What `main` computes of its argument. -/
def size (arg : List UInt8) : Int32 := (atol arg).toInt32 * 1024

/-- The check of the size. No `int` is greater than `INT_MAX`. -/
def Invalid (stackSet : Int32) : Prop := stackSet ≤ 0 ∨ stackSet > INT_MAX

instance (stackSet : Int32) : Decidable (Invalid stackSet) := inferInstanceAs (Decidable (_ ∨ _))

/-- The number of KB that is asked for. -/
def requested (argv : List (List UInt8)) : ℤ := (atol (argv.getD 1 [])).toInt32.toInt

/-- `main` up to its first call that may fail. -/
def main (lib : Stacks) (argv : List (List UInt8)) : State :=
  if argv.length ≠ 2 then ⟨.exited EXIT_FAILURE, 0, lib.dflt, false, []⟩
  else if Invalid (size (argv.getD 1 [])) then ⟨.getstacksize, TSTACK, lib.dflt, true, []⟩
  else ⟨.getstacksize, size (argv.getD 1 []), lib.dflt, false, []⟩

/-- The size as it is passed on, a `size_t`. -/
def State.stackSize (s : State) : UInt64 := s.stackSet.toInt64.toUInt64

/-- The control point after the thread `i` has been dealt with in the creation loop. -/
def afterCreate (i : ℕ) : Pc := if i + 1 < NTHREADS then .create (i + 1) else .join 0

/-- The control point after the thread `i` has been dealt with in the join loop. -/
def afterJoin (i : ℕ) : Pc := if i + 1 < NTHREADS then .join (i + 1) else .exited 0

/-- **The step function**: one call. The library refuses the size of a stack exactly if it is below
its minimum. A join that fails is only warned of. -/
def step (lib : Stacks) (s : State) (a : Answer) : Option State :=
  match s.pc with
  | .getstacksize => a.status.map fun ok =>
    { s with pc := if ok then .setstacksize else .fatal .setstacksize }
  | .setstacksize =>
    if lib.min ≤ s.stackSize.toNat then
      if a = .ok then some { s with pc := .getguardsize, attr := s.stackSize } else none
    else if a = .err then some { s with pc := .fatal .getguardsize } else none
  | .getguardsize => a.status.map fun ok =>
    { s with pc := if ok then .create 0 else .fatal (.create 0) }
  | .create i => a.status.map fun ok =>
    { s with pc := if ok then afterCreate i else .fatal (afterCreate i),
             used := if ok then s.attr :: s.used else s.used }
  | .join i => a.status.map fun _ => { s with pc := afterJoin i }
  | .fatal back => afterFatal a (fun status => { s with pc := .exited status })
      { s with pc := back }
  | .exited _ => none

/-- `FATAL` can allocate its message, and so exits. -/
def FatalExits (s : State) (a : Answer) : Prop := ∀ back, s.pc = .fatal back → a = .ok

/-- The size of the stacks is still to be set. -/
def Pc.early : Pc → Bool
  | .getstacksize | .setstacksize => true
  | .fatal back => back.early
  | _ => false

/-- The size of the stacks when `size` has been asked for: one that is refused leaves the
default. -/
def Stacks.result (lib : Stacks) (size : UInt64) : UInt64 :=
  if lib.min ≤ size.toNat then size else lib.dflt

section Steps

variable {lib : Stacks} {s t : State} {a : Answer} {x : UInt64} {b : Bool}

/-- **The invariant**, where `x` is what is asked for, and `b` says whether it is a replacement: the
threads have the stack that comes of it. -/
structure Inv (lib : Stacks) (x : UInt64) (b : Bool) (s : State) : Prop where
  size : s.stackSize = x
  replaced : s.replaced = b
  early : s.pc.early = true → s.attr = lib.dflt
  late : s.pc.early = false → (∀ status, s.pc ≠ .exited status) → s.attr = lib.result x
  used : ∀ y ∈ s.used, y = lib.result x

theorem early_afterCreate (i : ℕ) : (afterCreate i).early = false := by
  rw [afterCreate]
  split_ifs <;> rfl

theorem early_afterJoin (i : ℕ) : (afterJoin i).early = false := by
  rw [afterJoin]
  split_ifs <;> rfl

/-- **What a step preserves.** -/
theorem Inv.step (hs : Inv lib x b s) (h : step lib s a = some t) : Inv lib x b t := by
  obtain ⟨hsize, hreplaced, hearly, hlate, hused⟩ := hs
  rcases s with ⟨pc, stackSet, attr, replaced, used⟩
  cases pc with
  | getstacksize =>
    obtain ⟨ok, -, rfl⟩ := Option.map_eq_some_iff.mp h
    refine ⟨hsize, hreplaced, fun _ => hearly rfl, fun hpc => absurd hpc ?_, hused⟩
    cases ok <;> simp [Pc.early]
  | setstacksize =>
    simp only [StackTest.step] at h
    split_ifs at h with hmin ha ha
    · obtain rfl := Option.some.inj h
      refine ⟨hsize, hreplaced, fun hpc => absurd hpc (by simp [Pc.early]), fun _ _ => ?_, hused⟩
      rw [Stacks.result, ← hsize, if_pos hmin]
    · obtain rfl := Option.some.inj h
      refine ⟨hsize, hreplaced, fun hpc => absurd hpc (by simp [Pc.early]), fun _ _ => ?_, hused⟩
      rw [Stacks.result, ← hsize, if_neg hmin]
      exact hearly rfl
  | getguardsize =>
    obtain ⟨ok, -, rfl⟩ := Option.map_eq_some_iff.mp h
    refine ⟨hsize, hreplaced, fun hpc => absurd hpc ?_,
      fun _ _ => hlate rfl (by simp), hused⟩
    cases ok <;> simp [Pc.early]
  | create i =>
    obtain ⟨ok, -, rfl⟩ := Option.map_eq_some_iff.mp h
    have hattr : attr = lib.result x := hlate rfl (by simp)
    refine ⟨hsize, hreplaced, fun hpc => absurd hpc ?_, fun _ _ => hattr, fun y hy => ?_⟩
    · cases ok <;> simp [Pc.early, early_afterCreate]
    · cases ok with
      | false => exact hused y hy
      | true =>
        rcases List.mem_cons.mp hy with rfl | hy
        · exact hattr
        · exact hused y hy
  | join i =>
    obtain ⟨ok, -, rfl⟩ := Option.map_eq_some_iff.mp h
    exact ⟨hsize, hreplaced, fun hpc => absurd hpc (by simp [early_afterJoin]),
      fun _ _ => hlate rfl (by simp), hused⟩
  | fatal back =>
    rcases afterFatal_cases h with rfl | rfl
    · exact ⟨hsize, hreplaced, hearly, fun hpc _ => hlate hpc (by simp), hused⟩
    · exact ⟨hsize, hreplaced, fun hpc => absurd hpc (by simp [Pc.early]),
        fun _ hpc => absurd rfl (hpc EXIT_FAILURE), hused⟩
  | exited status => exact absurd h (by simp [StackTest.step])

/-- The invariant of the runs that `FATAL` is to end before a thread is created. -/
def Refused (lib : Stacks) (s : State) : Prop :=
  ¬lib.min ≤ s.stackSize.toNat ∧ s.used = [] ∧
    (s.pc.early = true ∨ (∃ back, s.pc = .fatal back) ∨ ∃ status, s.pc = .exited status)

theorem Refused.step (hs : Refused lib s) (ha : FatalExits s a)
    (h : StackTest.step lib s a = some t) : Refused lib t := by
  obtain ⟨hmin, hnil, hpc⟩ := hs
  rcases s with ⟨pc, stackSet, attr, replaced, used⟩
  cases pc with
  | getstacksize =>
    obtain ⟨ok, -, rfl⟩ := Option.map_eq_some_iff.mp h
    refine ⟨hmin, hnil, Or.inl ?_⟩
    cases ok <;> rfl
  | setstacksize =>
    simp only [StackTest.step] at h
    rw [if_neg hmin] at h
    split_ifs at h
    obtain rfl := Option.some.inj h
    exact ⟨hmin, hnil, Or.inr (Or.inl ⟨_, rfl⟩)⟩
  | fatal back =>
    obtain rfl := ha back rfl
    obtain rfl := Option.some.inj h
    exact ⟨hmin, hnil, Or.inr (Or.inr ⟨_, rfl⟩)⟩
  | getguardsize | create i | join i => simp [Pc.early] at hpc
  | exited status => exact absurd h (by simp [StackTest.step])

end Steps

section Arguments

variable {lib : Stacks} {argv : List (List UInt8)} {arg : List UInt8} {ls : List Answer} {s : State}

theorem invalid_iff (x : Int32) : Invalid x ↔ x.toInt ≤ 0 := by
  have hzero : (0 : Int32).toInt = 0 := rfl
  have hmax : INT_MAX.toInt = 2147483647 := rfl
  have hlt := x.toInt_lt
  rw [Invalid, gt_iff_lt, Int32.le_iff_toInt_le, Int32.lt_iff_toInt_lt, hzero, hmax]
  omega

/-- The product, as a number. -/
theorem toInt_size (arg : List UInt8) :
    (size arg).toInt = ((atol arg).toInt32.toInt * 1024).bmod (2 ^ 32) := Int32.toInt_mul _ _

theorem size_exact_iff (arg : List UInt8) : (size arg).toInt = (atol arg).toInt32.toInt * 1024 ↔
    -2 ^ 21 ≤ (atol arg).toInt32.toInt ∧ (atol arg).toInt32.toInt < 2 ^ 21 := by
  have hcast : ((2 ^ 32 : ℕ) : ℤ) = 4294967296 := rfl
  rw [toInt_size, Int.bmod_def, hcast]
  split_ifs <;> omega

theorem invalid_size_iff : Invalid (size arg) ↔
    (atol arg).toInt32.toInt % 2 ^ 22 = 0 ∨ 2 ^ 21 ≤ (atol arg).toInt32.toInt % 2 ^ 22 := by
  have hcast : ((2 ^ 32 : ℕ) : ℤ) = 4294967296 := rfl
  rw [invalid_iff, toInt_size, Int.bmod_def, hcast]
  split_ifs <;> omega

/-- A positive `int` is the same as a `size_t`. -/
theorem toNat_stackSet {x : Int32} (h : 0 ≤ x.toInt) :
    ((x.toInt64.toUInt64).toNat : ℤ) = x.toInt := by
  have hlt := x.toInt_lt
  rw [toNat_toUInt64, Int32.toInt_toInt64]
  omega

theorem main_of_invalid (h : argv.length = 2) (hsize : Invalid (size (argv.getD 1 []))) :
    main lib argv = ⟨.getstacksize, TSTACK, lib.dflt, true, []⟩ := by
  rw [main, if_neg (by simp [h]), if_pos hsize]

theorem main_of_valid (h : argv.length = 2) (hsize : ¬Invalid (size (argv.getD 1 []))) :
    main lib argv = ⟨.getstacksize, size (argv.getD 1 []), lib.dflt, false, []⟩ := by
  rw [main, if_neg (by simp [h]), if_neg hsize]

/-- The threads of every run have the stack that comes of the size there is from the start, and that
is not replaced later. -/
theorem inv_of_run {x : Int32} {b : Bool}
    (hmain : main lib argv = ⟨.getstacksize, x, lib.dflt, b, []⟩)
    (hrun : run (step lib) (main lib argv) ls = some s) :
    Inv lib x.toInt64.toUInt64 b s := by
  rw [hmain] at hrun
  refine run_invariant (P := Inv lib x.toInt64.toUInt64 b) (fun _ _ _ hs hst => hs.step hst)
    ⟨rfl, rfl, fun _ => rfl, fun hpc => absurd hpc (by simp [Pc.early]), ?_⟩ hrun
  exact fun y hy => absurd hy List.not_mem_nil

/-- A size that is not valid is replaced. -/
theorem replaced_of_invalid (h : argv.length = 2) (hsize : Invalid (size (argv.getD 1 [])))
    (hrun : run (step lib) (main lib argv) ls = some s) :
    ∀ y ∈ s.used, s.replaced = true ∧ (y.toNat : ℤ) = TSTACK.toInt := by
  have hinv := inv_of_run (main_of_invalid h hsize) hrun
  intro y hy
  have hmin : lib.min ≤ TSTACK.toInt64.toUInt64.toNat := lib.min_le
  rw [hinv.used y hy, Stacks.result, if_pos hmin]
  exact ⟨hinv.replaced, rfl⟩

theorem setstacksize_ok {x : Int32} {b : Bool} (hmin : lib.min ≤ x.toInt64.toUInt64.toNat) :
    step lib ⟨.setstacksize, x, lib.dflt, b, []⟩ .ok =
      some ⟨.getguardsize, x, x.toInt64.toUInt64, b, []⟩ := by
  simp [step, State.stackSize, hmin]

theorem setstacksize_err {x : Int32} {b : Bool} (hmin : ¬lib.min ≤ x.toInt64.toUInt64.toNat) :
    step lib ⟨.setstacksize, x, lib.dflt, b, []⟩ .err =
      some ⟨.fatal .getguardsize, x, lib.dflt, b, []⟩ := by
  simp [step, State.stackSize, hmin]

/-- A size that is accepted is used, if the calls succeed. -/
theorem uses (h : argv.length = 2) (hsize : ¬Invalid (size (argv.getD 1 [])))
    (hmin : lib.min ≤ (size (argv.getD 1 [])).toInt64.toUInt64.toNat) :
    ∃ ls s, (Every (step lib) FatalExits (main lib argv) ls ∧
        run (step lib) (main lib argv) ls = some s) ∧
      s.replaced = false ∧ (size (argv.getD 1 [])).toInt64.toUInt64 ∈ s.used := by
  have hall : Every (step lib) FatalExits (main lib argv) (List.replicate 4 .ok) :=
    (every_of_forall (D := fun a => a = .ok) (fun _ ha => List.eq_of_mem_replicate ha) _).imp
      fun _ _ ha _ _ => ha
  rw [main_of_valid h hsize] at hall ⊢
  refine ⟨_, ⟨.create 1, size (argv.getD 1 []), (size (argv.getD 1 [])).toInt64.toUInt64, false,
    [(size (argv.getD 1 [])).toInt64.toUInt64]⟩, ⟨hall, ?_⟩, rfl, List.mem_singleton_self _⟩
  exact run_cons_eq_some.mpr ⟨_, rfl, run_cons_eq_some.mpr ⟨_, setstacksize_ok hmin, rfl⟩⟩

/-- Where a size is refused, the default is used, if `FATAL` comes back. -/
theorem uses_after_fatal (h : argv.length = 2) (hsize : ¬Invalid (size (argv.getD 1 [])))
    (hmin : ¬lib.min ≤ (size (argv.getD 1 [])).toInt64.toUInt64.toNat) :
    ∃ ls s, run (step lib) (main lib argv) ls = some s ∧ s.replaced = false ∧
      lib.dflt ∈ s.used := by
  rw [main_of_valid h hsize]
  refine ⟨[.ok, .err, .err, .ok, .ok], ⟨.create 1, size (argv.getD 1 []), lib.dflt, false, [_]⟩,
    ?_, rfl, List.mem_singleton_self _⟩
  exact run_cons_eq_some.mpr ⟨_, rfl, run_cons_eq_some.mpr ⟨_, setstacksize_err hmin, rfl⟩⟩

/-- A size that is refused is not used, if `FATAL` exits. -/
theorem used_eq_nil (h : argv.length = 2) (hsize : ¬Invalid (size (argv.getD 1 [])))
    (hmin : ¬lib.min ≤ (size (argv.getD 1 [])).toInt64.toUInt64.toNat)
    (hall : Every (step lib) FatalExits (main lib argv) ls)
    (hrun : run (step lib) (main lib argv) ls = some s) : s.used = [] := by
  have hstart : Refused lib (main lib argv) := by
    rw [main_of_valid h hsize]
    exact ⟨hmin, rfl, Or.inl rfl⟩
  exact (hall.invariant (fun _ _ _ hs ha hst => hs.step ha hst) hstart hrun).2.1

/-- A size that passes the check of the program, as a number: the number of KB that is left of the
one that is asked for. -/
theorem toNat_size (hsize : ¬Invalid (size (argv.getD 1 []))) :
    ((size (argv.getD 1 [])).toInt64.toUInt64.toNat : ℤ) = requested argv % 2 ^ 22 * 1024 ∧
      0 < requested argv % 2 ^ 22 ∧ requested argv % 2 ^ 22 < 2 ^ 21 := by
  have hpos : 0 ≤ (size (argv.getD 1 [])).toInt := (not_le.mp (mt (invalid_iff _).mpr hsize)).le
  have hcast : ((2 ^ 32 : ℕ) : ℤ) = 4294967296 := rfl
  have hrange := mt invalid_size_iff.mpr hsize
  rw [toNat_stackSet hpos, toInt_size, Int.bmod_def, hcast, requested]
  refine ⟨?_, by omega, by omega⟩
  split_ifs <;> omega

/-- **When `stack_test` gives its threads the stack it was asked for**, or replaces it, in the runs
in which `FATAL` exits. -/
theorem exact_iff (h : argv.length = 2) :
    (∀ ls s, Every (step lib) FatalExits (main lib argv) ls ∧
      run (step lib) (main lib argv) ls = some s → ∀ y ∈ s.used,
        (y.toNat : ℤ) = requested argv * 1024 ∨
          s.replaced = true ∧ (y.toNat : ℤ) = TSTACK.toInt) ↔
      (0 < requested argv ∧ requested argv < 2 ^ 21) ∨ requested argv % 2 ^ 22 = 0 ∨
        2 ^ 21 ≤ requested argv % 2 ^ 22 ∨ requested argv % 2 ^ 22 * 1024 < lib.min := by
  rcases Decidable.em (Invalid (size (argv.getD 1 []))) with hsize | hsize
  · refine iff_of_true
      (fun ls s hrun y hy => Or.inr (replaced_of_invalid h hsize hrun.2 y hy)) ?_
    have hrange := invalid_size_iff.mp hsize
    rw [requested]
    omega
  · obtain ⟨hnat, hlow, hhigh⟩ := toNat_size hsize
    rcases Decidable.em (lib.min ≤ (size (argv.getD 1 [])).toInt64.toUInt64.toNat) with hmin | hmin
    · constructor
      · intro hall
        obtain ⟨ls, s, hrun, hrep, hmem⟩ := uses h hsize hmin
        rcases hall ls s hrun _ hmem with heq | ⟨hrep', -⟩
        · omega
        · exact absurd (hrep.symm.trans hrep') Bool.false_ne_true
      · rintro hcond ls s ⟨-, hrun⟩ y hy
        rw [(inv_of_run (main_of_valid h hsize) hrun).used y hy, Stacks.result, if_pos hmin]
        left
        omega
    · refine iff_of_true ?_ (by omega)
      rintro ls s ⟨hall, hrun⟩ y hy
      rw [used_eq_nil h hsize hmin hall hrun] at hy
      exact absurd hy List.not_mem_nil

/-- **When `stack_test` gives its threads the stack it was asked for**, or replaces it, in all
runs. -/
theorem always_exact_iff (h : argv.length = 2) :
    (∀ ls s, run (step lib) (main lib argv) ls = some s → ∀ y ∈ s.used,
      (y.toNat : ℤ) = requested argv * 1024 ∨
        s.replaced = true ∧ (y.toNat : ℤ) = TSTACK.toInt) ↔
      (0 < requested argv ∧ requested argv < 2 ^ 21 ∧ lib.min ≤ requested argv * 1024) ∨
        requested argv % 2 ^ 22 = 0 ∨ 2 ^ 21 ≤ requested argv % 2 ^ 22 ∨
        (requested argv % 2 ^ 22 * 1024 < lib.min ∧
          requested argv * 1024 = lib.dflt.toNat) := by
  rcases Decidable.em (Invalid (size (argv.getD 1 []))) with hsize | hsize
  · refine iff_of_true (fun ls s hrun y hy => Or.inr (replaced_of_invalid h hsize hrun y hy)) ?_
    have hrange := invalid_size_iff.mp hsize
    rw [requested]
    omega
  · obtain ⟨hnat, hlow, hhigh⟩ := toNat_size hsize
    rcases Decidable.em (lib.min ≤ (size (argv.getD 1 [])).toInt64.toUInt64.toNat) with hmin | hmin
    · constructor
      · intro hall
        obtain ⟨ls, s, ⟨-, hrun⟩, hrep, hmem⟩ := uses h hsize hmin
        rcases hall ls s hrun _ hmem with heq | ⟨hrep', -⟩
        · omega
        · exact absurd (hrep.symm.trans hrep') Bool.false_ne_true
      · intro hcond ls s hrun y hy
        rw [(inv_of_run (main_of_valid h hsize) hrun).used y hy, Stacks.result, if_pos hmin]
        left
        omega
    · constructor
      · intro hall
        obtain ⟨ls, s, hrun, hrep, hmem⟩ := uses_after_fatal h hsize hmin
        rcases hall ls s hrun _ hmem with heq | ⟨hrep', -⟩
        · omega
        · exact absurd (hrep.symm.trans hrep') Bool.false_ne_true
      · intro hcond ls s hrun y hy
        rw [(inv_of_run (main_of_valid h hsize) hrun).used y hy, Stacks.result, if_neg hmin]
        left
        omega

end Arguments

end StackTest

/-! ### Locking pages -/

namespace MlockTry

def LONG_MAX : Int64 := 9223372036854775807

/-- Where the process stands: about to make a call, or at the end. -/
inductive Pc where
  /-- `disp_locked_mem` is about to allocate its command, and goes on at `back`. -/
  | malloc (back : Pc)
  /-- `disp_locked_mem` is about to run its command. -/
  | system (back : Pc)
  | memalign
  | mlock
  | sleep
  | munlock
  /-- `FATAL` is about to allocate its message; should it come back, the process is at `back`. -/
  | fatal (back : Pc)
  /-- The process has exited with this status. -/
  | exited (status : ℤ)
  /-- The process is about to write through NULL, or to memory that is freed, or to free memory
  again. -/
  | undefined
  deriving DecidableEq, Repr

structure State where
  pc : Pc
  /-- Whether `ptr` is not NULL. -/
  ptr : Bool
  len : UInt64
  /-- The sizes that were used: the latest first. -/
  used : List UInt64
  deriving DecidableEq, Repr

/-- What `try_mlock` computes of its argument: a `size_t` by a `long`. -/
def size (pgsz : Int64) (cpgs : List UInt8) : UInt64 := (atol cpgs).toUInt64 * pgsz.toUInt64

/-- `len >= LONG_MAX`, a comparison of unsigned numbers. -/
def TooMany (len : UInt64) : Prop := LONG_MAX.toUInt64 ≤ len

instance (len : UInt64) : Decidable (TooMany len) := inferInstanceAs (Decidable (_ ≤ _))

/-- The number of pages that is asked for. -/
def requested (argv : List (List UInt8)) : ℤ := (atol (argv.getD 1 [])).toInt

/-- `main` up to the first call; `pgsz` is the size of a page. -/
def main (pgsz : Int64) (argv : List (List UInt8)) : State :=
  if argv.length < 2 then ⟨.exited EXIT_FAILURE, false, 0, []⟩
  else
    ⟨.malloc (if TooMany (size pgsz (argv.getD 1 [])) then .fatal .memalign else .memalign), false,
      size pgsz (argv.getD 1 []), []⟩

/-- **The step function**: one call. When `posix_memalign` fails, `ptr` is still NULL. When
`mlock` or `munlock` fails, the memory is freed before `FATAL`. The memory is written to behind
`mlock`, and the command is run a second time. -/
def step (s : State) (a : Answer) : Option State :=
  match s.pc with
  | .malloc back => a.status.map fun ok =>
    { s with pc := if ok then .system back else .fatal .undefined }
  | .system back => a.status.map fun _ => { s with pc := back }
  | .memalign => a.status.map fun ok =>
    { s with pc := if ok then .mlock else .fatal .mlock, ptr := ok, used := s.len :: s.used }
  | .mlock => a.status.map fun ok =>
    if ok then
      if s.ptr then { s with pc := .malloc .sleep, used := s.len :: s.len :: s.used }
      else { s with pc := .undefined, used := s.len :: s.used }
    else { s with pc := .fatal .undefined, used := s.len :: s.used }
  | .sleep => a.status.map fun _ => { s with pc := .munlock }
  | .munlock => a.status.map fun ok =>
    { s with pc := if ok then .exited 0 else .fatal .undefined, used := s.len :: s.used }
  | .fatal back => afterFatal a (fun status => { s with pc := .exited status })
      { s with pc := back }
  | .exited _ => none
  | .undefined => none

/-- `FATAL` can allocate its message, and so exits. -/
def FatalExits (s : State) (a : Answer) : Prop := ∀ back, s.pc = .fatal back → a = .ok

section Steps

variable {s t : State} {a : Answer}

/-- **What a step does to the sizes**: those that it adds are the one that was computed. -/
theorem step_used (h : step s a = some t) :
    t.len = s.len ∧ ∀ y ∈ t.used, y = s.len ∨ y ∈ s.used := by
  rcases s with ⟨pc, ptr, len, used⟩
  cases pc with
  | malloc back | system back | sleep =>
    obtain ⟨ok, -, rfl⟩ := Option.map_eq_some_iff.mp h
    exact ⟨rfl, fun y hy => Or.inr hy⟩
  | memalign | munlock =>
    obtain ⟨ok, -, rfl⟩ := Option.map_eq_some_iff.mp h
    exact ⟨rfl, fun y hy => List.mem_cons.mp hy⟩
  | mlock =>
    obtain ⟨ok, -, rfl⟩ := Option.map_eq_some_iff.mp h
    cases ok with
    | false => exact ⟨rfl, fun y hy => List.mem_cons.mp hy⟩
    | true =>
      cases ptr with
      | false => exact ⟨rfl, fun y hy => List.mem_cons.mp hy⟩
      | true =>
        refine ⟨rfl, fun y hy => ?_⟩
        rcases List.mem_cons.mp hy with rfl | hy'
        · exact Or.inl rfl
        · exact List.mem_cons.mp hy'
  | fatal back =>
    rcases afterFatal_cases h with rfl | rfl <;> exact ⟨rfl, fun y hy => Or.inr hy⟩
  | exited status => exact absurd h (by simp [step])
  | undefined => exact absurd h (by simp [step])

/-- The invariant of the runs that `FATAL` is to end before the memory is allocated. -/
def Rejected (s : State) : Prop :=
  s.used = [] ∧ (s.pc = .malloc (.fatal .memalign) ∨ s.pc = .system (.fatal .memalign) ∨
    (∃ back, s.pc = .fatal back) ∨ ∃ status, s.pc = .exited status)

theorem Rejected.step (hs : Rejected s) (ha : FatalExits s a) (h : step s a = some t) :
    Rejected t := by
  rcases s with ⟨pc, ptr, len, used⟩
  rcases hs with ⟨hnil, rfl | rfl | ⟨back, rfl⟩ | ⟨status, rfl⟩⟩
  · obtain ⟨ok, -, rfl⟩ := Option.map_eq_some_iff.mp h
    cases ok with
    | false => exact ⟨hnil, Or.inr (Or.inr (Or.inl ⟨_, rfl⟩))⟩
    | true => exact ⟨hnil, Or.inr (Or.inl rfl)⟩
  · obtain ⟨ok, -, rfl⟩ := Option.map_eq_some_iff.mp h
    exact ⟨hnil, Or.inr (Or.inr (Or.inl ⟨_, rfl⟩))⟩
  · obtain rfl := ha back rfl
    obtain rfl := Option.some.inj h
    exact ⟨hnil, Or.inr (Or.inr (Or.inr ⟨_, rfl⟩))⟩
  · exact absurd h (by simp [MlockTry.step])

end Steps

section Arguments

variable {argv : List (List UInt8)} {cpgs : List UInt8} {pgsz : Int64} {k : ℕ} {ls : List Answer}
  {s : State}

/-- **The product**: where the page is a power of two it wraps round modulo a number of pages. -/
theorem toNat_size (hpgsz : pgsz.toInt = 2 ^ k) (hk : k ≤ 62) (cpgs : List UInt8) :
    ((size pgsz cpgs).toNat : ℤ) = 2 ^ k * ((atol cpgs).toInt % 2 ^ (64 - k)) := by
  have hpow : (2 : ℤ) ^ 64 = 2 ^ k * 2 ^ (64 - k) := by
    rw [← pow_add]
    congr 1
    omega
  rw [size, UInt64.toNat_mul, Int.natCast_emod, Int.natCast_mul, toNat_toUInt64, toNat_toUInt64,
    hpgsz]
  calc (atol cpgs).toInt % 2 ^ 64 * (2 ^ k % 2 ^ 64) % 2 ^ 64
      = 2 ^ k * (atol cpgs).toInt % 2 ^ 64 := by rw [← Int.mul_emod, Int.mul_comm]
    _ = 2 ^ k * ((atol cpgs).toInt % 2 ^ (64 - k)) := by
      rw [hpow, Int.mul_emod_mul_of_pos _ _ (by positivity)]

theorem size_exact_iff (hpgsz : pgsz.toInt = 2 ^ k) (hk : k ≤ 62) :
    ((size pgsz cpgs).toNat : ℤ) = (atol cpgs).toInt * pgsz.toInt ↔
      0 ≤ (atol cpgs).toInt ∧ (atol cpgs).toInt < 2 ^ (64 - k) := by
  have hpos : (0 : ℤ) < 2 ^ k := by positivity
  have hpos' : (0 : ℤ) < 2 ^ (64 - k) := by positivity
  rw [toNat_size hpgsz hk, hpgsz, Int.mul_comm, Int.mul_eq_mul_right_iff hpos.ne']
  constructor
  · intro heq
    rw [← heq]
    exact ⟨Int.emod_nonneg _ hpos'.ne', Int.emod_lt_of_pos _ hpos'⟩
  · rintro ⟨hnonneg, hlt⟩
    exact Int.emod_eq_of_lt hnonneg hlt

/-- The check refuses half of the sizes: the multiples of the page below `LONG_MAX` are those
below `2 ^ 63`. -/
theorem tooMany_iff (hpgsz : pgsz.toInt = 2 ^ k) (hk : 1 ≤ k) (hk' : k ≤ 62) :
    TooMany (size pgsz cpgs) ↔ 2 ^ (63 - k) ≤ (atol cpgs).toInt % 2 ^ (64 - k) := by
  have hmax : LONG_MAX.toUInt64.toNat = 9223372036854775807 := by decide
  have hpow : (2 : ℤ) ^ 63 = 2 ^ k * 2 ^ (63 - k) := by
    rw [← pow_add]
    congr 1
    omega
  have hpos : (0 : ℤ) < 2 ^ k := by positivity
  have heven : (2 : ℤ) ^ k = 2 * 2 ^ (k - 1) := by
    rw [← pow_succ']
    congr 1
    omega
  have hsize := toNat_size hpgsz hk' cpgs
  rw [TooMany, UInt64.le_iff_toNat_le, hmax]
  -- the product is even, and so is not `LONG_MAX`
  have hmul : ((size pgsz cpgs).toNat : ℤ) =
      2 * (2 ^ (k - 1) * ((atol cpgs).toInt % 2 ^ (64 - k))) := by rw [hsize, heven, Int.mul_assoc]
  have hle : 9223372036854775807 ≤ (size pgsz cpgs).toNat ↔
      (2 : ℤ) ^ 63 ≤ (size pgsz cpgs).toNat := by omega
  rw [hle, hsize, hpow, Int.mul_le_mul_left hpos]

theorem main_of_length (h : 2 ≤ argv.length) : main pgsz argv =
    ⟨.malloc (if TooMany (size pgsz (argv.getD 1 [])) then .fatal .memalign else .memalign), false,
      size pgsz (argv.getD 1 []), []⟩ :=
  if_neg (by omega)

/-- No run uses anything but the size that was computed. -/
theorem eq_size (h : 2 ≤ argv.length) (hrun : run step (main pgsz argv) ls = some s) :
    ∀ y ∈ s.used, y = size pgsz (argv.getD 1 []) := by
  rw [main_of_length h] at hrun
  exact eq_of_mem_used State.len State.used (fun _ _ _ => step_used) rfl hrun

/-- A size that is too great is rejected. -/
theorem used_eq_nil (h : 2 ≤ argv.length) (hsize : TooMany (size pgsz (argv.getD 1 [])))
    (hall : Every step FatalExits (main pgsz argv) ls)
    (hrun : run step (main pgsz argv) ls = some s) : s.used = [] := by
  have hstart : Rejected (main pgsz argv) := by
    rw [main_of_length h, if_pos hsize]
    exact ⟨rfl, Or.inl rfl⟩
  exact (hall.invariant (fun _ _ _ hs ha hst => hs.step ha hst) hstart hrun).1

/-- A size that is accepted is used, if the calls succeed. -/
theorem uses (h : 2 ≤ argv.length) (hsize : ¬TooMany (size pgsz (argv.getD 1 []))) :
    ∃ ls s, (Every step FatalExits (main pgsz argv) ls ∧ run step (main pgsz argv) ls = some s) ∧
      size pgsz (argv.getD 1 []) ∈ s.used := by
  rw [main_of_length h, if_neg hsize]
  have hall : Every step FatalExits ⟨.malloc .memalign, false, size pgsz (argv.getD 1 []), []⟩
      (List.replicate 3 .ok) :=
    (every_of_forall (D := fun a => a = .ok) (fun _ ha => List.eq_of_mem_replicate ha) _).imp
      fun _ _ ha _ _ => ha
  exact ⟨_, ⟨.mlock, true, _, [_]⟩, ⟨hall, rfl⟩, List.mem_singleton_self _⟩

/-- A size that is too great is used too, if `FATAL` comes back. -/
theorem uses_after_fatal (h : 2 ≤ argv.length) (hsize : TooMany (size pgsz (argv.getD 1 []))) :
    ∃ ls s, run step (main pgsz argv) ls = some s ∧ size pgsz (argv.getD 1 []) ∈ s.used := by
  rw [main_of_length h, if_pos hsize]
  exact ⟨[.ok, .ok, .err, .ok], ⟨.mlock, true, _, [_]⟩, rfl, List.mem_singleton_self _⟩

/-- **When `mlock_try` locks what it was asked for**, in the runs in which `FATAL` exits. -/
theorem exact_iff (hpgsz : pgsz.toInt = 2 ^ k) (hk : 1 ≤ k) (hk' : k ≤ 62)
    (h : 2 ≤ argv.length) :
    (∀ ls s, Every step FatalExits (main pgsz argv) ls ∧ run step (main pgsz argv) ls = some s →
      ∀ y ∈ s.used, (y.toNat : ℤ) = requested argv * pgsz.toInt) ↔
      (0 ≤ requested argv ∧ requested argv < 2 ^ (63 - k)) ∨
        2 ^ (63 - k) ≤ requested argv % 2 ^ (64 - k) := by
  have hdouble : (2 : ℤ) ^ (64 - k) = 2 * 2 ^ (63 - k) := by
    rw [← pow_succ']
    congr 1
    omega
  rcases Decidable.em (TooMany (size pgsz (argv.getD 1 []))) with hsize | hsize
  · refine iff_of_true ?_ (Or.inr ((tooMany_iff hpgsz hk hk').mp hsize))
    rintro ls s ⟨hall, hrun⟩ y hy
    rw [used_eq_nil h hsize hall hrun] at hy
    exact absurd hy List.not_mem_nil
  · rw [forall_used_iff State.used (fun ls s hR => eq_size h hR.2) (uses h hsize), requested,
      size_exact_iff hpgsz hk']
    rw [tooMany_iff hpgsz hk hk', not_le] at hsize
    constructor
    · rintro ⟨hnonneg, hlt⟩
      rw [Int.emod_eq_of_lt hnonneg hlt] at hsize
      exact Or.inl ⟨hnonneg, hsize⟩
    · rintro (⟨hnonneg, hlt⟩ | hge)
      · exact ⟨hnonneg, by omega⟩
      · exact absurd hge (not_le.mpr hsize)

/-- **When `mlock_try` locks what it was asked for**, in all runs. -/
theorem always_exact_iff (hpgsz : pgsz.toInt = 2 ^ k) (hk : k ≤ 62) (h : 2 ≤ argv.length) :
    (∀ ls s, run step (main pgsz argv) ls = some s →
      ∀ y ∈ s.used, (y.toNat : ℤ) = requested argv * pgsz.toInt) ↔
      0 ≤ requested argv ∧ requested argv < 2 ^ (64 - k) := by
  have huse : ∃ ls s, run step (main pgsz argv) ls = some s ∧
      size pgsz (argv.getD 1 []) ∈ s.used := by
    rcases Decidable.em (TooMany (size pgsz (argv.getD 1 []))) with hsize | hsize
    · exact uses_after_fatal h hsize
    · obtain ⟨ls, s, ⟨-, hrun⟩, hx⟩ := uses h hsize
      exact ⟨ls, s, hrun, hx⟩
  rw [forall_used_iff State.used (fun ls s hR => eq_size h hR) huse, requested,
    size_exact_iff hpgsz hk]

end Arguments

end MlockTry

/-! ### The three programs -/

/-- **When the sizes are those that were asked for.** For every argument of `diskspc`, of
`stack_test` and of `mlock_try`, the last with pages of `2 ^ k` bytes: all sizes that the program
uses, in all runs in which `FATAL` exits, are the argument times the unit – or, in `stack_test`,
the replacement that is reported – exactly if the product fits its type, or has wrapped round to a
size that is not accepted, by the check or, in `stack_test`, by the library. Without the condition
on `FATAL` it has to fit, and `stack_test` goes on with the default where the library refuses. -/
theorem sizes_exact_iff {argv₁ argv₂ argv₃ : List (List UInt8)} {lib : StackTest.Stacks}
    {pgsz : Int64} {k : ℕ}
    (h₁ : argv₁.length = 3) (h₂ : argv₂.length = 2) (h₃ : 2 ≤ argv₃.length)
    (hpgsz : pgsz.toInt = 2 ^ k) (hk : 1 ≤ k) (hk' : k ≤ 62) :
    ((∀ ls s, Every Diskspc.step Diskspc.FatalExits (Diskspc.main argv₁) ls ∧
        run Diskspc.step (Diskspc.main argv₁) ls = some s →
        ∀ y ∈ s.reserved, y.toInt = Diskspc.requested argv₁ * 1048576) ↔
      (0 < Diskspc.requested argv₁ ∧ Diskspc.requested argv₁ < 2 ^ 43) ∨
        Diskspc.requested argv₁ % 2 ^ 44 = 0 ∨ 2 ^ 43 ≤ Diskspc.requested argv₁ % 2 ^ 44) ∧
    ((∀ ls s, run Diskspc.step (Diskspc.main argv₁) ls = some s →
        ∀ y ∈ s.reserved, y.toInt = Diskspc.requested argv₁ * 1048576) ↔
      -2 ^ 43 ≤ Diskspc.requested argv₁ ∧ Diskspc.requested argv₁ < 2 ^ 43) ∧
    ((∀ ls s, Every (StackTest.step lib) StackTest.FatalExits (StackTest.main lib argv₂) ls ∧
        run (StackTest.step lib) (StackTest.main lib argv₂) ls = some s → ∀ y ∈ s.used,
          (y.toNat : ℤ) = StackTest.requested argv₂ * 1024 ∨
            s.replaced = true ∧ (y.toNat : ℤ) = StackTest.TSTACK.toInt) ↔
      (0 < StackTest.requested argv₂ ∧ StackTest.requested argv₂ < 2 ^ 21) ∨
        StackTest.requested argv₂ % 2 ^ 22 = 0 ∨ 2 ^ 21 ≤ StackTest.requested argv₂ % 2 ^ 22 ∨
        StackTest.requested argv₂ % 2 ^ 22 * 1024 < lib.min) ∧
    ((∀ ls s, run (StackTest.step lib) (StackTest.main lib argv₂) ls = some s → ∀ y ∈ s.used,
        (y.toNat : ℤ) = StackTest.requested argv₂ * 1024 ∨
          s.replaced = true ∧ (y.toNat : ℤ) = StackTest.TSTACK.toInt) ↔
      (0 < StackTest.requested argv₂ ∧ StackTest.requested argv₂ < 2 ^ 21 ∧
          lib.min ≤ StackTest.requested argv₂ * 1024) ∨
        StackTest.requested argv₂ % 2 ^ 22 = 0 ∨ 2 ^ 21 ≤ StackTest.requested argv₂ % 2 ^ 22 ∨
        (StackTest.requested argv₂ % 2 ^ 22 * 1024 < lib.min ∧
          StackTest.requested argv₂ * 1024 = lib.dflt.toNat)) ∧
    ((∀ ls s, Every MlockTry.step MlockTry.FatalExits (MlockTry.main pgsz argv₃) ls ∧
        run MlockTry.step (MlockTry.main pgsz argv₃) ls = some s →
        ∀ y ∈ s.used, (y.toNat : ℤ) = MlockTry.requested argv₃ * pgsz.toInt) ↔
      (0 ≤ MlockTry.requested argv₃ ∧ MlockTry.requested argv₃ < 2 ^ (63 - k)) ∨
        2 ^ (63 - k) ≤ MlockTry.requested argv₃ % 2 ^ (64 - k)) ∧
    ((∀ ls s, run MlockTry.step (MlockTry.main pgsz argv₃) ls = some s →
        ∀ y ∈ s.used, (y.toNat : ℤ) = MlockTry.requested argv₃ * pgsz.toInt) ↔
      0 ≤ MlockTry.requested argv₃ ∧ MlockTry.requested argv₃ < 2 ^ (64 - k)) :=
  ⟨Diskspc.exact_iff h₁, Diskspc.always_exact_iff h₁, StackTest.exact_iff h₂,
    StackTest.always_exact_iff h₂, MlockTry.exact_iff hpgsz hk hk' h₃,
    MlockTry.always_exact_iff hpgsz hk' h₃⟩

/-- The usual values: no stack below 16 KB, and stacks of 8 MB. -/
def StackTest.usual : StackTest.Stacks := ⟨16384, 8388608, by decide⟩

/-- Ten MB, 64 KB, and eight pages of 4096 bytes. -/
theorem sizes_exact_ten :
    (4096 : Int64).toInt = 2 ^ 12 ∧
      (∀ ls s, run Diskspc.step (Diskspc.main [ascii "diskspc", ascii "f", ascii "10"]) ls =
        some s → ∀ y ∈ s.reserved, y.toInt =
          Diskspc.requested [ascii "diskspc", ascii "f", ascii "10"] * 1048576) ∧
      (∀ ls s, run (StackTest.step StackTest.usual)
          (StackTest.main StackTest.usual [ascii "stack_test", ascii "64"]) ls = some s →
        ∀ y ∈ s.used,
          (y.toNat : ℤ) = StackTest.requested [ascii "stack_test", ascii "64"] * 1024 ∨
            s.replaced = true ∧ (y.toNat : ℤ) = StackTest.TSTACK.toInt) ∧
      ∀ ls s, run MlockTry.step (MlockTry.main 4096 [ascii "mlock_try", ascii "8"]) ls = some s →
        ∀ y ∈ s.used, (y.toNat : ℤ) =
          MlockTry.requested [ascii "mlock_try", ascii "8"] * (4096 : Int64).toInt := by
  have hpage : (4096 : Int64).toInt = 2 ^ 12 := by decide
  obtain ⟨-, hdiskspc, -, hstack, -, hmlock⟩ := @sizes_exact_iff
    [ascii "diskspc", ascii "f", ascii "10"] [ascii "stack_test", ascii "64"]
    [ascii "mlock_try", ascii "8"] StackTest.usual 4096 12 rfl rfl le_rfl hpage (by decide)
    (by decide)
  exact ⟨hpage, hdiskspc.mpr (by decide +kernel), hstack.mpr (by decide +kernel),
    hmlock.mpr (by decide +kernel)⟩

/-- **Sizes wrap round**: `2 ^ 44 + 1` MB become one MB, `2 ^ 22 + 16` KB 16 KB, and `2 ^ 52 + 1`
pages one page, which are accepted and used. -/
theorem sizes_wrap_round :
    run Diskspc.step (Diskspc.main [ascii "diskspc", ascii "f", ascii "17592186044417"])
        (List.replicate 5 .ok) = some ⟨.exited 0, 1048576, [1048576]⟩ ∧
      Diskspc.requested [ascii "diskspc", ascii "f", ascii "17592186044417"] = 17592186044417 ∧
      run (StackTest.step StackTest.usual)
          (StackTest.main StackTest.usual [ascii "stack_test", ascii "4194320"])
          (List.replicate 9 .ok) =
        some ⟨.exited 0, 16384, 16384, false, List.replicate 3 16384⟩ ∧
      StackTest.requested [ascii "stack_test", ascii "4194320"] = 4194320 ∧
      run MlockTry.step (MlockTry.main 4096 [ascii "mlock_try", ascii "4503599627370497"])
        (List.replicate 8 .ok) = some ⟨.exited 0, true, 4096, List.replicate 4 4096⟩ ∧
      MlockTry.requested [ascii "mlock_try", ascii "4503599627370497"] = 4503599627370497 := by
  decide +kernel

end SystemProgramming
