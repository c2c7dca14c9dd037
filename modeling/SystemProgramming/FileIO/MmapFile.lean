import SystemProgramming.Calls
import SystemProgramming.FileIO.HexDump
import SystemProgramming.HandleErr
import SystemProgramming.Runs

/-!
# The part of a file that is dumped

`mmap_file_simple` (`ch18/`) maps a file and dumps a part of it, which its arguments give by
an offset and a length, both of type `off_t`. Before the file is mapped they are checked:
the length is positive, the offset is not negative, and their sum is not beyond the end of
the file.

The sum is one of 64 bits, and `hex_dump` takes the two as an `int` each. So what the checks
let through is dumped as it should be, and no byte outside the file is read, exactly if both
are below `2 ^ 31` (`SystemProgramming.MmapFile.bounded_iff`); then the sum cannot wrap
round, either.
-/

namespace SystemProgramming

open HandleErr Printf Runs

namespace MmapFile

/-! ### The program -/

/-- Where `main` stands. -/
inductive Pc where
  | openFile
  /-- That failed; `FATAL` is about to allocate its message. -/
  | openFatal
  | fstat
  | fstatFatal
  /-- The file is empty. -/
  | emptyFatal
  /-- The length is not positive. -/
  | lenFatal
  /-- The offset is negative, or there are too few bytes behind it. -/
  | offFatal
  | mmap
  | mmapFatal
  /-- About to call `hex_dump`. -/
  | dump
  | msync
  /-- That failed; `WARN` is about to allocate its message. -/
  | msyncWarn
  | munmap
  | munmapFatal
  | close
  /-- The process has exited. -/
  | exited (status : ℤ)
  /-- It has done something whose effect is left open. -/
  | undefined
  deriving DecidableEq, Repr

/-- A call of `hex_dump`: its parameters – the data by its place in the mapping – and the
places in the mapping of the bytes that it has read. -/
structure Asked where
  data : ℤ
  offset : Int32
  size : Int32
  reads : List ℤ
  deriving DecidableEq, Repr

/-- The process: the variables of `main`, what `hex_dump` has been asked for, and what it has
printed. -/
structure Process where
  pc : Pc
  fsz : Int64
  len : Int64
  off : Int64
  asked : Option Asked
  out : List UInt8
  deriving DecidableEq, Repr

/-- `main` is called with these arguments, the first of which is the name of the program. -/
def Process.start (argv : List (List UInt8)) : Process :=
  let pc := if argv.length < 2 ∨ 4 < argv.length ∨ argv.length = 3 then .exited 1 else .openFile
  ⟨pc, 0, 0, 0, none, []⟩

namespace Process

/-- The process goes on to `pc`. -/
def goto (s : Process) (pc : Pc) : Process := { s with pc := pc }

/-- A call that succeeds or fails. -/
def call (s : Process) (a : Answer) (ok err : Pc) : Option Process :=
  a.status.map fun b => s.goto (if b then ok else err)

/-- A call of `FATAL`, with the state it leaves when it comes back. -/
def fatal (s : Process) (a : Answer) (back : Process) : Option Process :=
  afterFatal a (fun status => s.goto (.exited status)) back

/-- The offset is taken from the arguments, and checked with the length. -/
def checkOff (argv : List (List UInt8)) (s : Process) : Process :=
  if 3 ≤ argv.length then
    let off := atol (argv.getD 2 [])
    { s with off := off
             pc := if off < 0 ∨ s.fsz < off + s.len then .offFatal else .mmap }
  else s.goto .mmap

/-- The length is taken from the arguments, and checked. -/
def checkLen (argv : List (List UInt8)) (s : Process) : Process :=
  if argv.length = 4 then
    let len := atol (argv.getD 3 [])
    if len ≤ 0 then { s with len := len, pc := .lenFatal }
    else { s with len := len }.checkOff argv
  else { s with len := s.fsz }.checkOff argv

/-- `hex_dump` is called; the two conversions to `int` are the call's. -/
def dump (memory : ℤ → UInt8) (address : ℕ) (s : Process) : Process :=
  let data := fun i : ℕ => memory (s.off.toInt + i)
  let place := (address + s.off.toInt).toNat
  { s with
    asked := some ⟨s.off.toInt, s.off.toInt32, s.len.toInt32,
      (HexDump.dumped data s.off.toInt32 s.len.toInt32).reads.map fun i : ℕ => s.off.toInt + i⟩
    out := s.out ++
      HexDump.hexDump data place s.off.toInt32 s.len.toInt32 (some (ascii "Data")) false
    pc := .msync }

end Process

/-- **The step function**: `main`, with the file's size, and the memory, by its place in the
mapping, which is at `address`. The calls are answered one by one. -/
def step (argv : List (List UInt8)) (fsz : Int64) (memory : ℤ → UInt8) (address : ℕ)
    (s : Process) (a : Answer) : Option Process :=
  match s.pc with
  | .openFile => s.call a .fstat .openFatal
  | .openFatal => s.fatal a (s.goto .fstat)
  | .fstat =>
    a.status.map fun ok =>
      if ok then
        if fsz = 0 then { s with fsz := fsz, pc := .emptyFatal }
        else { s with fsz := fsz }.checkLen argv
      else s.goto .fstatFatal
  -- the size of the file has not been filled in
  | .fstatFatal => s.fatal a (s.goto .undefined)
  | .emptyFatal => s.fatal a (s.checkLen argv)
  | .lenFatal => s.fatal a (s.checkOff argv)
  | .offFatal => s.fatal a (s.goto .mmap)
  | .mmap => s.call a .dump .mmapFatal
  -- there is no mapping to be dumped
  | .mmapFatal => s.fatal a (s.goto .undefined)
  | .dump => if a = .ok then some (s.dump memory address) else none
  | .msync => s.call a .munmap .msyncWarn
  | .msyncWarn => s.call a .munmap .munmap
  | .munmap => s.call a .close .munmapFatal
  | .munmapFatal => s.fatal a (s.goto .close)
  | .close => s.call a (.exited 0) (.exited 0)
  | .exited _ => none
  | .undefined => none

/-! ### What is dumped -/

/-- The offset that the arguments give. -/
def argOff (argv : List (List UInt8)) : Int64 := atol (argv.getD 2 [])

/-- The length that the arguments give. -/
def argLen (argv : List (List UInt8)) : Int64 := atol (argv.getD 3 [])

/-- **The checks let the arguments through**: there are an offset and a length. -/
structure Accepts (argv : List (List UInt8)) (fsz : Int64) : Prop where
  length_argv : argv.length = 4
  len : ¬argLen argv ≤ 0
  off : ¬(argOff argv < 0 ∨ fsz < argOff argv + argLen argv)

/-- **No byte outside the file** is read, and `hex_dump` is asked for the part of it that the
arguments give. -/
structure Asked.Right (argv : List (List UInt8)) (fsz : Int64) (q : Asked) : Prop where
  within : ∀ p ∈ q.reads, 0 ≤ p ∧ p < fsz.toInt
  exactly : q.reads =
    (List.range (argLen argv).toInt.toNat).map fun i : ℕ => (argOff argv).toInt + i
  data : q.data = (argOff argv).toInt
  offset : q.offset.toInt = (argOff argv).toInt
  size : q.size.toInt = (argLen argv).toInt

/-- Whatever is dumped, in any run, is dumped as it should be. -/
def Bounded (argv : List (List UInt8)) (fsz : Int64) (memory : ℤ → UInt8) (address : ℕ) : Prop :=
  ∀ ls s q, run (step argv fsz memory address) (.start argv) ls = some s → s.asked = some q →
    q.Right argv fsz

/-- What `hex_dump` is asked for with these arguments, the two having been converted. -/
def asked (argv : List (List UInt8)) : Asked where
  data := (argOff argv).toInt
  offset := (argOff argv).toInt32
  size := (argLen argv).toInt32
  reads := (List.range (argLen argv).toInt32.toInt.toNat).map fun i : ℕ => (argOff argv).toInt + i

/-- What holds of the variables at a control point, where the arguments are let through: they
have the values of the arguments when the file is mapped. -/
def PcOk (argv : List (List UInt8)) (s : Process) : Pc → Prop
  | .mmap | .dump => s.off = argOff argv ∧ s.len = argLen argv
  | .emptyFatal | .lenFatal | .offFatal => False
  | _ => True

/-- **The invariant.** -/
structure Ok (argv : List (List UInt8)) (s : Process) : Prop where
  pc : PcOk argv s s.pc
  asked : ∀ q, s.asked = some q → q = asked argv

section Steps

variable {argv : List (List UInt8)} {fsz : Int64} {memory : ℤ → UInt8} {address : ℕ}
  {s s' back : Process} {a : Answer} {pc ok err : Pc} {ls : List Answer}

/-- Arguments that are let through are put in the variables. -/
theorem Accepts.checkLen (h : Accepts argv fsz) (hfsz : s.fsz = fsz) :
    s.checkLen argv = { s with len := argLen argv, off := argOff argv, pc := .mmap } := by
  have hlen : ¬atol (argv.getD 3 []) ≤ 0 := h.len
  have hoff : ¬(atol (argv.getD 2 []) < 0 ∨ fsz < atol (argv.getD 2 []) + atol (argv.getD 3 [])) :=
    h.off
  rw [Process.checkLen, if_pos h.length_argv]
  simp only [if_neg hlen, Process.checkOff, h.length_argv, hfsz, if_neg hoff]
  rfl

theorem Ok.goto (h : Ok argv s) (hpc : PcOk argv s pc) : Ok argv (s.goto pc) := by
  refine ⟨?_, h.asked⟩
  cases pc <;> exact hpc

theorem Ok.call (h : Ok argv s) (hstep : s.call a ok err = some s') (hok : PcOk argv s ok)
    (herr : PcOk argv s err) : Ok argv s' := by
  obtain ⟨b, -, rfl⟩ := Option.map_eq_some_iff.mp hstep
  cases b
  · exact h.goto herr
  · exact h.goto hok

theorem Ok.fatal (h : Ok argv s) (hstep : s.fatal a back = some s') (hback : Ok argv back) :
    Ok argv s' := by
  rcases afterFatal_cases hstep with rfl | rfl
  · exact hback
  · exact h.goto trivial

theorem Ok.start : Ok argv (.start argv) where
  pc := by
    rw [Process.start]
    split_ifs <;> trivial
  asked _ hq := by cases hq

/-- **One step.** -/
theorem Ok.step (hacc : Accepts argv fsz) (hfsz : fsz ≠ 0) (h : Ok argv s)
    (hstep : step argv fsz memory address s a = some s') : Ok argv s' := by
  have hpc := h.pc
  cases hs : s.pc <;> rw [hs] at hpc <;> simp only [MmapFile.step, hs] at hstep
  case openFile => exact h.call hstep trivial trivial
  case openFatal => exact h.fatal hstep (h.goto trivial)
  case fstat =>
    obtain ⟨b, -, rfl⟩ := Option.map_eq_some_iff.mp hstep
    cases b
    · exact h.goto trivial
    · rw [if_pos rfl, if_neg hfsz, hacc.checkLen rfl]
      exact ⟨⟨rfl, rfl⟩, h.asked⟩
  case fstatFatal => exact h.fatal hstep (h.goto trivial)
  -- the checks have been passed
  case emptyFatal => exact hpc.elim
  case lenFatal => exact hpc.elim
  case offFatal => exact hpc.elim
  case mmap => exact h.call hstep hpc trivial
  case mmapFatal => exact h.fatal hstep (h.goto trivial)
  case dump =>
    split_ifs at hstep
    obtain rfl := Option.some.inj hstep
    refine ⟨trivial, fun q hq => ?_⟩
    obtain rfl := Option.some.inj hq
    rw [HexDump.reads_dumped, hpc.1, hpc.2]
    rfl
  case msync => exact h.call hstep trivial trivial
  case msyncWarn => exact h.call hstep trivial trivial
  case munmap => exact h.call hstep trivial trivial
  case munmapFatal => exact h.fatal hstep (h.goto trivial)
  case close => exact h.call hstep trivial trivial
  case exited => cases hstep
  case undefined => cases hstep

/-- **Whatever is dumped** is what the arguments give, converted. -/
theorem eq_asked_of_run (hacc : Accepts argv fsz) (hfsz : fsz ≠ 0)
    (hrun : run (MmapFile.step argv fsz memory address) (.start argv) ls = some s) {q : Asked}
    (hq : s.asked = some q) : q = asked argv :=
  (run_invariant (P := Ok argv) (fun _ _ _ h hst => h.step hacc hfsz hst) Ok.start hrun).asked q hq

/-- **Something is dumped** when the calls succeed. -/
theorem exists_run_asked (hacc : Accepts argv fsz) (hfsz : fsz ≠ 0) (memory : ℤ → UInt8)
    (address : ℕ) : ∃ s, run (MmapFile.step argv fsz memory address) (.start argv)
      [.ok, .ok, .ok, .ok] = some s ∧ s.asked = some (asked argv) := by
  have hstart : ¬(argv.length < 2 ∨ 4 < argv.length ∨ argv.length = 3) := by
    have hlen := hacc.length_argv
    omega
  have hcheck := hacc.checkLen (s := ⟨.fstat, fsz, 0, 0, none, []⟩) rfl
  obtain ⟨s, hrun, q, hq⟩ : ∃ s, run (MmapFile.step argv fsz memory address) (.start argv)
      [.ok, .ok, .ok, .ok] = some s ∧ ∃ q, s.asked = some q := by
    simp only [Process.start, if_neg hstart, run_cons, MmapFile.step, Process.call, Answer.status,
      Option.map_some, Process.goto, if_true, if_neg hfsz, Option.bind_some, hcheck, run_nil]
    exact ⟨_, rfl, _, rfl⟩
  exact ⟨s, hrun, hq.trans (congrArg some (eq_asked_of_run hacc hfsz hrun hq))⟩

/-- **The arguments as `int`s** are what they should be below `2 ^ 31`. -/
theorem asked_right_iff (hacc : Accepts argv fsz) : (asked argv).Right argv fsz ↔
    (argOff argv).toInt < 2 ^ 31 ∧ (argLen argv).toInt < 2 ^ 31 := by
  have hlen : 0 < (argLen argv).toInt := by
    have h := hacc.len
    rwa [Int64.le_iff_toInt_le, not_le] at h
  obtain ⟨hoff, hsum⟩ := not_or.mp hacc.off
  rw [Int64.lt_iff_toInt_lt, not_lt] at hoff hsum
  have hoff' : 0 ≤ (argOff argv).toInt := hoff
  constructor
  · intro h
    -- an `int` is below `2 ^ 31`, so what it equals is
    have hoffset := (argOff argv).toInt32.toInt_lt
    have hsize := (argLen argv).toInt32.toInt_lt
    have heqo : (argOff argv).toInt32.toInt = (argOff argv).toInt := h.offset
    have heql : (argLen argv).toInt32.toInt = (argLen argv).toInt := h.size
    omega
  · rintro ⟨hlt, hlt'⟩
    have heqo : (argOff argv).toInt32.toInt = (argOff argv).toInt :=
      (argOff argv).toInt_toInt32.trans (Int.bmod_eq_of_le (by omega) (by omega))
    have heql : (argLen argv).toInt32.toInt = (argLen argv).toInt :=
      (argLen argv).toInt_toInt32.trans (Int.bmod_eq_of_le (by omega) (by omega))
    have hexact : (asked argv).reads =
        (List.range (argLen argv).toInt.toNat).map fun i : ℕ => (argOff argv).toInt + i := by
      rw [asked, heql]
    refine ⟨fun p hp => ?_, hexact, rfl, heqo, heql⟩
    -- the sum of the two does not wrap round
    have hadd : (argOff argv + argLen argv).toInt = (argOff argv).toInt + (argLen argv).toInt := by
      rcases long_add_cases (argOff argv) (argLen argv) with ⟨-, -, h⟩ | ⟨h, -⟩ | ⟨h, -⟩
      · exact h
      · omega
      · omega
    rw [hexact] at hp
    obtain ⟨i, hi, rfl⟩ := List.mem_map.mp hp
    have hlt := List.mem_range.mp hi
    omega

end Steps

/-- **What the checks let through is dumped as it should be** – no byte outside the mapping is
read, and `hex_dump` is asked for the offset and the length that the arguments give – exactly
if an `int` holds both of them. -/
theorem bounded_iff {argv : List (List UInt8)} {fsz : Int64} (hfsz : 1 ≤ fsz.toInt)
    (hacc : Accepts argv fsz) (memory : ℤ → UInt8) (address : ℕ) :
    Bounded argv fsz memory address ↔
      (argOff argv).toInt < 2 ^ 31 ∧ (argLen argv).toInt < 2 ^ 31 := by
  have hne : fsz ≠ 0 := by
    rintro rfl
    exact absurd hfsz (by decide)
  rw [← asked_right_iff hacc]
  constructor
  · intro h
    obtain ⟨s, hrun, hq⟩ := exists_run_asked hacc hne memory address
    exact h _ s _ hrun hq
  · intro h ls s q hrun hq
    rw [eq_asked_of_run hacc hne hrun hq]
    exact h

/-- The arguments 5 and 3, for a file of eight bytes. -/
theorem bounded_iff_at : Accepts [[], [], ascii "5", ascii "3"] 8 ∧
    Bounded [[], [], ascii "5", ascii "3"] 8 (fun _ => 0) 4096 := by
  have hacc : Accepts [[], [], ascii "5", ascii "3"] 8 := ⟨rfl, by decide, by decide⟩
  exact ⟨hacc, (bounded_iff (by decide) hacc _ _).mpr (by decide)⟩

/-- **Arguments that wrap round, and one that is cut off**: with an offset of `2 ^ 63 - 1` a
byte far behind the end of a file of one byte is read; of a file of five gigabytes, nothing
is dumped when the length is `2 ^ 32`. -/
theorem not_bounded :
    (Accepts [[], [], ascii "9223372036854775807", ascii "1"] 1 ∧
      ¬Bounded [[], [], ascii "9223372036854775807", ascii "1"] 1 (fun _ => 0) 4096 ∧
      (asked [[], [], ascii "9223372036854775807", ascii "1"]).reads = [9223372036854775807]) ∧
    Accepts [[], [], ascii "0", ascii "4294967296"] 5000000000 ∧
      ¬Bounded [[], [], ascii "0", ascii "4294967296"] 5000000000 (fun _ => 0) 4096 ∧
      (asked [[], [], ascii "0", ascii "4294967296"]).reads = [] := by
  have hfar : Accepts [[], [], ascii "9223372036854775807", ascii "1"] 1 :=
    ⟨rfl, by decide, by decide⟩
  have hlong : Accepts [[], [], ascii "0", ascii "4294967296"] 5000000000 :=
    ⟨rfl, by decide, by decide⟩
  refine ⟨⟨hfar, fun h => ?_, by decide⟩, hlong, fun h => ?_, by decide⟩
  · obtain ⟨s, hrun, hq⟩ := exists_run_asked hfar (by decide) (fun _ => 0) 4096
    have hbeyond := (h _ s _ hrun hq).within 9223372036854775807 (by decide)
    exact absurd hbeyond.2 (by decide)
  · obtain ⟨s, hrun, hq⟩ := exists_run_asked hlong (by decide) (fun _ => 0) 4096
    exact absurd (h _ s _ hrun hq).size (by decide)

end MmapFile

end SystemProgramming
