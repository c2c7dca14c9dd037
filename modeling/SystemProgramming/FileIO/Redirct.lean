import SystemProgramming.Printf
import SystemProgramming.Stdio.Streams
import SystemProgramming.Strings

/-!
# The order of a log

`redirct` (`A_fileio/`) and `redirct2` (`solutions_to_assgn/A_fileio/`) lead `stdout` and `stderr`
to one log file, write a line to `stdout`, and then, when a file cannot be opened, its report to
`stderr`. The second one flushes both streams in between.

In the log of `redirct2` everything is in the order of the program, however much the streams have
room for, whether or not `stderr` is still unbuffered after it was reopened, and whatever they write
out early. In that of `redirct`, the line comes last if the buffer of `stdout` has room for it
(`SystemProgramming.Redirct.log_order`).
-/

namespace SystemProgramming

open Printf Runs Streams Strings

namespace Redirct

/-- The streams that are redirected. -/
inductive Std where
  | out
  | err
  deriving DecidableEq, Repr

instance : Nonempty Std := ⟨.out⟩

/-- The size of `dt`. -/
def DTMAX : ℕ := 256

/-- The file that is to be opened. -/
def junk : List UInt8 := ascii "abcxyz"

/-- What the programs meet. -/
structure Inputs where
  /-- `argv[0]`. -/
  name : List UInt8
  /-- What can be read of `date`. It does not begin with a NUL, in front of which the programs would
  write when they take away its last character. -/
  date : List UInt8
  /-- The position in the log, by `ftell`. -/
  pos : ℤ
  /-- The file can be opened. -/
  opens : Bool
  /-- What is said of the error otherwise. -/
  strerror : List UInt8
  /-- What `WARN` prints when the date could not be read. -/
  warning : List UInt8
  /-- What `WARN` prints when the streams could not be synchronized. -/
  syncWarnings : List (List UInt8)

namespace Inputs

variable (i : Inputs)

/-- `dt`: the line that `fgets` reads, or three dashes, less the last character. -/
def dt : List UInt8 :=
  (cstr (if i.date = [] then ascii "---" else taken (DTMAX - 1) i.date)).dropLast

/-- What both texts begin with. -/
def heading : List UInt8 := i.name ++ ascii ":" ++ i.dt ++ ascii ":"

/-- The line on `stdout`. -/
def line : List UInt8 := i.heading ++ ascii "current seek position: " ++ decimal i.pos ++ [newline]

/-- The report on `stderr`. -/
def failed : List UInt8 := i.heading ++ ascii "fopen on " ++ junk ++ ascii " failed" ++ [newline]

/-- What `perror` adds. -/
def perror : List UInt8 := ascii " fopen: " ++ i.strerror ++ [newline]

/-- Both programs, up to their first text. -/
def opening : List (Op Std UInt8) :=
  (if i.date = [] then [.put .err i.warning] else []) ++ [.put .out i.line]

/-- What is reported of the file, if it cannot be opened. -/
def reports (lead : List UInt8) : List (List UInt8) :=
  if i.opens then [] else [lead ++ i.failed, i.perror]

/-- `redirct` from the redirection on, up to its end: `fclose` flushes `stderr`. -/
def untilExit : List (Op Std UInt8) :=
  i.opening ++ (i.reports []).map (.put .err) ++ [.flush .err]

/-- **`redirct`**: its end flushes what is left. -/
def redirct : List (Op Std UInt8) := i.untilExit ++ [.flush .out]

/-- **`redirct2`**. -/
def redirct2 : List (Op Std UInt8) :=
  i.opening ++ [.flush .err, .flush .out] ++
    (i.syncWarnings ++ i.reports [newline]).map (.put .err) ++ [.flush .err, .flush .out]

/-- All that `redirct` says on `stderr`. -/
def errors : List UInt8 := (if i.date = [] then i.warning else []) ++ (i.reports []).flatten

end Inputs

section Order

variable {i : Inputs} {room : Std → ℕ} {old : List UInt8} {w : Output Std UInt8}
  {ops : List (Op Std UInt8 × ℕ)} {buffered : Std → Bool}

/-- The log before. -/
def reopened (old : List UInt8) : Output Std UInt8 := ⟨fun _ => [], old⟩

/-- **`redirct2` passes the check.** -/
theorem check_redirct2 (hwarn : i.date = [] → buffered .err = false) :
    check buffered [] i.redirct2 = some [] := by
  have hopening : check buffered [] i.opening = some (if buffered .out then [.out] else []) := by
    unfold Inputs.opening
    by_cases hdate : i.date = []
    · simp [check, hdate, hwarn hdate]
    · simp [check, hdate]
  have hflush : check buffered (if buffered .out then [.out] else [])
      [(.flush .err : Op Std UInt8), .flush .out] = some [] := by
    cases hb : buffered .out <;> simp [check]
  have hlast : check buffered [] [(.flush .out : Op Std UInt8)] = some [] := rfl
  rw [Inputs.redirct2, List.append_assoc, List.append_assoc, check_append hopening,
    check_append hflush, check_block (fun r hr => by cases hr), hlast]

/-- **In the log of `redirct2`**, everything is in its order. -/
theorem file_redirct2 (hops : ops.map Prod.fst = i.redirct2)
    (hrun : run (step room) (reopened old) ops = some w) (hwarn : i.date = [] → room .err = 0) :
    w.file = old ++ said i.redirct2 := by
  have hcheck : check (fun s => decide (room s ≠ 0)) [] i.redirct2 = some [] :=
    check_redirct2 fun hdate => by simp [hwarn hdate]
  rw [← hops] at hcheck ⊢
  exact file_of_check (fun s hs => by simpa using hs) (fun _ => rfl) hcheck hrun

/-- What is done with `stderr` in `redirct`, before `stdout` is flushed. -/
theorem filter_errors : i.untilExit.filter (fun o => o.stream ≠ .out) =
    ((if i.date = [] then [i.warning] else []) ++ i.reports []).map (.put .err) ++
      [.flush .err] := by
  have hreports : ((i.reports []).map (Op.put Std.err)).filter (fun o => o.stream ≠ .out) =
      (i.reports []).map (.put .err) :=
    List.filter_eq_self.mpr fun o ho => by
      obtain ⟨t, -, rfl⟩ := List.mem_map.mp ho
      simp [Op.stream]
  rw [Inputs.untilExit, List.filter_append, List.filter_append, hreports, List.map_append,
    Inputs.opening]
  by_cases hdate : i.date = [] <;> simp [hdate, Op.stream]

/-- The line is all that is put on `stdout`. -/
theorem filter_line :
    i.untilExit.filter (fun o => o.stream = .out) = [.put .out i.line] := by
  have hreports : ((i.reports []).map (Op.put Std.err)).filter (fun o => o.stream = .out) = [] :=
    List.filter_eq_nil_iff.mpr fun o ho => by
      obtain ⟨t, -, rfl⟩ := List.mem_map.mp ho
      simp [Op.stream]
  rw [Inputs.untilExit, List.filter_append, List.filter_append, hreports, Inputs.opening]
  by_cases hdate : i.date = [] <;> simp [hdate, Op.stream]

theorem said_puts (s : Std) (ts : List (List UInt8)) : said (ts.map (Op.put s)) = ts.flatten := by
  induction ts with
  | nil => rfl
  | cons t ts ih => exact congrArg (t ++ ·) ih

theorem said_append (os os' : List (Op Std UInt8)) : said (os ++ os') = said os ++ said os' :=
  List.flatMap_append

/-- **In the log of `redirct`**, the line is the last, if the buffer has room for it. -/
theorem file_redirct (hops : ops.map Prod.fst = i.redirct)
    (hrun : run (step room) (reopened old) ops = some w) (hfits : i.line.length ≤ room .out) :
    w.file = old ++ i.errors ++ i.line := by
  obtain ⟨init, last, rfl, hinit, hlast⟩ := List.map_eq_append_iff.mp hops
  rw [run_append] at hrun
  obtain ⟨u, hu, hrest⟩ := Option.bind_eq_some_iff.mp hrun
  have hline : saidOn .out init = i.line := by
    rw [saidOn, hinit, filter_line]
    exact List.append_nil _
  have hnone : ∀ o ∈ init, o.1 ≠ .flush .out := by
    intro o ho heq
    have hmem : Op.flush Std.out ∈ i.untilExit.filter (fun o => o.stream = .out) := by
      rw [← hinit]
      exact List.mem_filter.mpr ⟨List.mem_map.mpr ⟨o, ho, heq⟩, by simp [Op.stream]⟩
    rw [filter_line] at hmem
    cases List.mem_singleton.mp hmem
  obtain ⟨hheld, v, hv, ⟨hfile, -⟩, -⟩ := Same.run (s := Std.out) (v := reopened old)
    ⟨rfl, fun _ _ => rfl⟩ hu hnone (by rw [hline]; exact hfits)
  have hothers : (others Std.out init).map Prod.fst =
      ((if i.date = [] then [i.warning] else []) ++ i.reports []).map (.put .err) ++
        [.flush .err] := by
    rw [← filter_errors, ← hinit, List.filter_map]
    rfl
  have hcheck : check (fun s => decide (room s ≠ 0)) [] ((others Std.out init).map Prod.fst) =
      some [] := by
    rw [hothers, check_block (fun r hr => by cases hr)]
    rfl
  have herrors := file_of_check (fun s hs => by simpa using hs) (fun _ => rfl) hcheck hv
  rw [hothers, said_append, said_puts] at herrors
  have hsaid : said [(.flush .err : Op Std UInt8)] = [] := rfl
  have hflat : ((if i.date = [] then [i.warning] else []) ++ i.reports []).flatten = i.errors := by
    rw [List.flatten_append, Inputs.errors]
    split_ifs <;> simp
  rw [hsaid, List.append_nil, hflat] at herrors
  -- the last operation writes the line
  obtain ⟨⟨op, k⟩, rfl⟩ : ∃ o, last = [o] := by
    have hlen := congrArg List.length hlast
    rw [List.length_map] at hlen
    exact List.length_eq_one_iff.mp hlen
  obtain rfl : op = .flush .out := by simpa using hlast
  obtain rfl := Option.some.inj hrest
  change u.file ++ u.held .out = _
  rw [← hfile, herrors, hheld, hline]
  rfl

/-- Both texts begin alike, and then differ. -/
theorem line_append_ne (t u : List UInt8) : i.line ++ t ≠ i.failed ++ u := by
  intro h
  rw [Inputs.line, Inputs.failed] at h
  simp only [List.append_assoc] at h
  have hhead := congrArg List.head? (List.append_cancel_left h)
  have hc : (ascii "current seek position: ").head? = some 99 := by decide
  have hf : (ascii "fopen on ").head? = some 102 := by decide
  rw [List.head?_append, hc, List.head?_append (l := ascii "fopen on "), hf, Option.some_or,
    Option.some_or] at hhead
  exact absurd (Option.some.inj hhead) (by decide)

/-- **The order of the log**: that of `redirct2` is in the order of the program, whatever the
streams write out early, if `stderr` is not buffered or has not been used before the line. In that
of `redirct` the line comes last, if the buffer of `stdout` has room for it, and if the file could
not be opened this is not the order of the program. -/
theorem log_order (hrun : run (step room) (reopened old) ops = some w) :
    (ops.map Prod.fst = i.redirct2 → (i.date = [] → room .err = 0) →
      w.file = old ++ said i.redirct2) ∧
    (ops.map Prod.fst = i.redirct → i.line.length ≤ room .out →
      w.file = old ++ i.errors ++ i.line ∧ (i.opens = false → w.file ≠ old ++ said i.redirct)) := by
  refine ⟨fun hops hwarn => file_redirct2 hops hrun hwarn, fun hops hfits => ?_⟩
  have hfile := file_redirct hops hrun hfits
  refine ⟨hfile, fun hopens heq => ?_⟩
  have hreports : i.reports [] = [i.failed, i.perror] := by
    rw [Inputs.reports, hopens]
    rfl
  have hsaid : said i.redirct = (if i.date = [] then i.warning else []) ++
      (i.line ++ (i.failed ++ i.perror)) := by
    rw [Inputs.redirct, Inputs.untilExit, said_append, said_append, said_append, said_puts,
      hreports, Inputs.opening, said_append]
    split_ifs <;> simp [said, Op.said]
  rw [hfile, hsaid, Inputs.errors, hreports, List.append_assoc, List.append_assoc] at heq
  have hcancel := List.append_cancel_left (List.append_cancel_left heq)
  simp only [List.flatten_cons, List.flatten_nil, List.append_nil, List.append_assoc] at hcancel
  exact line_append_ne _ _ hcancel.symm

end Order

/-- The file cannot be opened. -/
def unopened : Inputs := ⟨[97], [98, 10], 0, false, [99], [], []⟩

/-- The stream `stdout` is buffered, `stderr` is not. -/
def usual : Std → ℕ := fun s => if s = .out then 4096 else 0

/-- Both programs where the file cannot be opened. -/
theorem log_order_unopened :
    (∃ ops w, run (step usual) (reopened []) ops = some w ∧ w.file = said unopened.redirct2) ∧
    ∃ ops w, run (step usual) (reopened []) ops = some w ∧
      w.file = unopened.errors ++ unopened.line := by
  have hsome : (run (step usual) (reopened []) [(.put .out unopened.line, 0), (.flush .err, 0),
      (.flush .out, 0), (.put .err ([newline] ++ unopened.failed),
        ([newline] ++ unopened.failed).length), (.put .err unopened.perror, unopened.perror.length),
      (.flush .err, 0), (.flush .out, 0)]).isSome = true := by decide +kernel
  have hsome' : (run (step usual) (reopened []) [(.put .out unopened.line, 0),
      (.put .err unopened.failed, unopened.failed.length),
      (.put .err unopened.perror, unopened.perror.length), (.flush .err, 0),
      (.flush .out, 0)]).isSome = true := by decide +kernel
  obtain ⟨w, hrun⟩ := Option.isSome_iff_exists.mp hsome
  obtain ⟨w', hrun'⟩ := Option.isSome_iff_exists.mp hsome'
  have hfits : unopened.line.length ≤ usual .out := by decide +kernel
  have hfile := (log_order (i := unopened) hrun).1 rfl fun _ => rfl
  have hfile' := ((log_order (i := unopened) hrun').2 rfl hfits).1
  exact ⟨⟨_, w, hrun, hfile⟩, ⟨_, w', hrun', hfile'⟩⟩

end Redirct

end SystemProgramming
