import SystemProgramming.HandleErr
import SystemProgramming.Printf
import SystemProgramming.Runs
import SystemProgramming.Strings

/-!
# Threads with names

`named_threads` (`solutions_to_assgn/ch14/`) creates as many threads as it is asked for, and names
each by a prefix, an underscore and its number. The prefix has at most seven bytes, and a name is
put in a buffer of eleven, so that two digits are sure to fit. How many threads there are is not
limited, and `snprintf` cuts what does not fit: with a prefix of seven bytes, the threads 10 and 100
have the same name.

The names are complete, and different, as long as the last number fits behind the prefix
(`SystemProgramming.NamedThreads.unique_iff`).
-/

namespace SystemProgramming

open HandleErr Printf Runs Strings

namespace NamedThreads

/-- `MAXLEN`, the room for a name with its NUL. -/
def MAXLEN : ℕ := 11

/-- Where `main` stands. -/
inductive Pc where
  /-- About to look at its arguments. -/
  | args
  /-- About to look whether there are more threads to create. -/
  | loop
  /-- About to create one. -/
  | create
  /-- That failed; about to call `FATAL`. -/
  | createFatal
  /-- About to put its name together. -/
  | format
  /-- About to name it. -/
  | setname
  /-- That failed; about to call `FATAL`. -/
  | setnameFatal
  /-- About to call `pthread_exit`, and waiting for the others from then on. -/
  | finished
  /-- The process has exited. -/
  | exited (status : ℤ)
  /-- A thread is named that there is not. -/
  | undefined
  deriving DecidableEq, Repr

/-- The state of `main`, and the names that the threads have been given. -/
structure State where
  pc : Pc
  numthrds : Int64
  i : ℕ
  /-- The thread that `tid` denotes, if it denotes one. -/
  tid : Option ℕ
  nm : List UInt8
  names : List (ℕ × List UInt8)
  deriving DecidableEq, Repr

/-- `main` is called. -/
def State.start : State := ⟨.args, 0, 0, none, [], []⟩

/-- The prefix of the names. -/
def namePrefix (argv : List (List UInt8)) : List UInt8 := cstr (argv.getD 1 [])

/-- The number of threads that `main` is asked for. -/
def numthrds (argv : List (List UInt8)) : Int64 := atol (argv.getD 2 [])

/-- The prefix, an underscore, and the number of the thread. -/
def fullName (argv : List (List UInt8)) (i : ℕ) : List UInt8 :=
  namePrefix argv ++ ascii "_" ++ decimal i

/-- **The step function**, each call being answered so. What `tid` holds after a creation that has
failed is left open. -/
def step (argv : List (List UInt8)) (s : State) (a : Answer) : Option State :=
  let goto (s : State) (pc : Pc) : State := { s with pc := pc }
  let exit (status : ℤ) : State := goto s (.exited status)
  match s.pc, a with
  | .args, .ok =>
    if argv.length ≠ 3 then some (exit EXIT_FAILURE)
    else
      let s := { s with numthrds := numthrds argv }
      some (goto s
        (if s.numthrds ≤ 0 then .exited EXIT_FAILURE
          else if strlen (argv.getD 1 []) ≥ MAXLEN - 3 then .exited EXIT_FAILURE else .loop))
  | .loop, .ok => some (goto s (if (s.i : ℤ) < s.numthrds.toInt then .create else .finished))
  | .create, a => a.status.map fun ok =>
    if ok then goto { s with tid := some s.i } .format else goto { s with tid := none } .createFatal
  | .createFatal, a => afterFatal a exit (goto s .format)
  | .format, .ok => some (goto { s with nm := snprintf MAXLEN (fullName argv s.i) } .setname)
  | .setname, a => a.status.map fun ok =>
    match s.tid with
    | none => goto s .undefined
    | some k =>
      if ok then goto { s with names := s.names ++ [(k, cstr s.nm)], i := s.i + 1 } .loop
      else goto s .setnameFatal
  | .setnameFatal, a => afterFatal a exit (goto { s with i := s.i + 1 } .loop)
  | _, _ => none

/-- `main` accepts its arguments: it comes to its loop. -/
def Accepted (argv : List (List UInt8)) : Prop := (step argv .start .ok).map State.pc = some .loop

instance : DecidablePred Accepted := fun argv =>
  inferInstanceAs (Decidable ((step argv .start .ok).map State.pc = some .loop))

/-- All creations succeed. -/
def Created (s : State) (a : Answer) : Prop := s.pc = .create → a = .ok

/-- **The names are unique**: each is complete, and two threads do not have the same. -/
def Unique (argv : List (List UInt8)) (s : State) : Prop :=
  (∀ x ∈ s.names, x.2 = fullName argv x.1) ∧
    ∀ x ∈ s.names, ∀ y ∈ s.names, x.1 ≠ y.1 → x.2 ≠ y.2

/-! ### One name -/

section Name

variable {argv : List (List UInt8)}

theorem zero_notMem_fullName (argv : List (List UInt8)) (i : ℕ) :
    (0 : UInt8) ∉ fullName argv i := by
  rw [fullName, List.mem_append, List.mem_append, not_or, not_or]
  refine ⟨⟨zero_notMem_cstr _, by decide⟩, fun h => ?_⟩
  exact absurd (range_decimal h) (by decide)

/-- **The name that a thread is given** is what fits of the full one. -/
theorem cstr_snprintf (argv : List (List UInt8)) (i : ℕ) :
    cstr (snprintf MAXLEN (fullName argv i)) = (fullName argv i).take (MAXLEN - 1) := by
  have hzero : (0 : UInt8) ∉ (fullName argv i).take (MAXLEN - 1) := fun h =>
    zero_notMem_fullName argv i (List.mem_of_mem_take h)
  rw [snprintf, if_neg (by decide), cstr_append_zero, cstr_eq_self hzero]

/-- **All fits** exactly if the number has no more digits than there is room behind the prefix. -/
theorem take_fullName_iff (h : strlen (argv.getD 1 []) < MAXLEN - 3) (i : ℕ) :
    (fullName argv i).take (MAXLEN - 1) = fullName argv i ↔
      i < 10 ^ (9 - strlen (argv.getD 1 [])) := by
  have hlen : (fullName argv i).length = strlen (argv.getD 1 []) + 1 + (digits 10 i).length := by
    rw [fullName, decimal_of_nonneg, List.length_append, List.length_append]
    rfl
  have hmax : MAXLEN = 11 := rfl
  rw [List.take_eq_self_iff, hlen, ← length_digits_le_iff (by decide) (by omega)]
  omega

/-- **Different threads have different full names.** -/
theorem fullName_inj {i j : ℕ} (h : fullName argv i = fullName argv j) : i = j := by
  have hdecimal : decimal i = decimal j := List.append_cancel_left h
  exact_mod_cast decimal_inj.mp hdecimal

end Name

/-! ### The names of a run -/

section Invariant

variable {argv : List (List UInt8)} {s t : State} {a : Answer}

/-- `main` is in its loop, or behind it. -/
def Pc.checked : Pc → Bool
  | .args | .exited _ => false
  | _ => true

/-- `main` is in the body of its loop. -/
def Pc.inside : Pc → Bool
  | .create | .createFatal | .format | .setname | .setnameFatal => true
  | _ => false

/-- `tid` is that of the thread to be named. -/
def Pc.naming : Pc → Bool
  | .createFatal | .format | .setname => true
  | _ => false

/-- What holds of every run. -/
structure Inv (argv : List (List UInt8)) (s : State) : Prop where
  checked : s.pc.checked = true → s.numthrds = numthrds argv
  inside : s.pc.inside = true → (s.i : ℤ) < (numthrds argv).toInt
  naming : s.pc.naming = true → ∀ k, s.tid = some k → k = s.i
  nm : s.pc = .setname → s.nm = snprintf MAXLEN (fullName argv s.i)
  names : ∀ x ∈ s.names, (x.1 : ℤ) < (numthrds argv).toInt ∧
    x.2 = (fullName argv x.1).take (MAXLEN - 1)

/-- Outside the body of the loop, only the names matter. -/
theorem inv_of_outside (hpc : s.pc.inside = false)
    (hchecked : s.pc.checked = true → s.numthrds = numthrds argv)
    (hnames : ∀ x ∈ s.names, (x.1 : ℤ) < (numthrds argv).toInt ∧
      x.2 = (fullName argv x.1).take (MAXLEN - 1)) : Inv argv s := by
  refine ⟨hchecked, fun hinside => ?_, fun hnaming => ?_, fun hset => ?_, hnames⟩
  · exact absurd (hinside.symm.trans hpc) (by simp)
  · cases hp : s.pc <;> simp [hp, Pc.inside, Pc.naming] at hpc hnaming
  · exact absurd hpc (by simp [hset, Pc.inside])

theorem inv_start (argv : List (List UInt8)) : Inv argv .start :=
  inv_of_outside rfl (fun hc => absurd hc (by simp [State.start, Pc.checked]))
    (by simp [State.start])

/-- **One step preserves it.** -/
theorem Inv.step (hs : Inv argv s) (h : step argv s a = some t) : Inv argv t := by
  obtain ⟨hchecked, hinside, hnaming, hnm, hnames⟩ := hs
  obtain ⟨pc, num, i, tid, nm, names⟩ := s
  cases pc with
  | args =>
    cases a <;> simp only [NamedThreads.step, reduceCtorEq] at h
    split_ifs at h with hargc hnum hlen
    · obtain rfl := Option.some.inj h
      exact inv_of_outside rfl (by simp [Pc.checked]) hnames
    · obtain rfl := Option.some.inj h
      exact inv_of_outside rfl (by simp [Pc.checked]) hnames
    · obtain rfl := Option.some.inj h
      exact inv_of_outside rfl (by simp [Pc.checked]) hnames
    · obtain rfl := Option.some.inj h
      exact inv_of_outside rfl (fun _ => rfl) hnames
  | loop =>
    cases a <;> simp only [NamedThreads.step, reduceCtorEq] at h
    split_ifs at h with hlt
    · obtain rfl := Option.some.inj h
      refine ⟨fun _ => hchecked rfl, fun _ => ?_, by simp [Pc.naming], by simp, hnames⟩
      rwa [← hchecked rfl]
    · obtain rfl := Option.some.inj h
      exact inv_of_outside rfl (fun _ => hchecked rfl) hnames
  | create =>
    obtain ⟨ok, -, rfl⟩ := Option.map_eq_some_iff.mp h
    cases ok with
    | true =>
      refine ⟨fun _ => hchecked rfl, fun _ => hinside rfl, fun _ k hk => ?_, by simp, hnames⟩
      exact (Option.some.inj hk).symm
    | false =>
      refine ⟨fun _ => hchecked rfl, fun _ => hinside rfl, fun _ k hk => ?_, by simp, hnames⟩
      exact absurd hk (by simp)
  | createFatal =>
    rcases afterFatal_cases h with rfl | rfl
    · exact ⟨fun _ => hchecked rfl, fun _ => hinside rfl, fun _ => hnaming rfl, by simp, hnames⟩
    · exact inv_of_outside rfl (by simp [Pc.checked]) hnames
  | format =>
    cases a <;> simp only [NamedThreads.step, reduceCtorEq] at h
    obtain rfl := Option.some.inj h
    exact ⟨fun _ => hchecked rfl, fun _ => hinside rfl, fun _ => hnaming rfl, fun _ => rfl, hnames⟩
  | setname =>
    obtain ⟨ok, -, rfl⟩ := Option.map_eq_some_iff.mp h
    cases tid with
    | none => exact inv_of_outside rfl (fun _ => hchecked rfl) hnames
    | some k =>
      obtain rfl : k = i := hnaming rfl k rfl
      cases ok with
      | true =>
        refine inv_of_outside rfl (fun _ => hchecked rfl) ?_
        rintro x hx
        rcases List.mem_append.mp hx with hx | hx
        · exact hnames x hx
        · obtain rfl := List.mem_singleton.mp hx
          exact ⟨hinside rfl, (congrArg cstr (hnm rfl)).trans (cstr_snprintf argv k)⟩
      | false =>
        exact ⟨fun _ => hchecked rfl, fun _ => hinside rfl, by simp [Pc.naming], by simp, hnames⟩
  | setnameFatal =>
    rcases afterFatal_cases h with rfl | rfl
    · exact inv_of_outside rfl (fun _ => hchecked rfl) hnames
    · exact inv_of_outside rfl (by simp [Pc.checked]) hnames
  | _ => simp only [NamedThreads.step, reduceCtorEq] at h

/-- **Every run preserves it.** -/
theorem inv_of_run {is : List Answer} (h : run (NamedThreads.step argv) .start is = some s) :
    Inv argv s :=
  run_invariant (fun _ _ _ hs hst => hs.step hst) (inv_start argv) h

/-- What it means that the arguments are accepted. -/
theorem Accepted.spec (h : Accepted argv) :
    NamedThreads.step argv .start .ok = some ⟨.loop, numthrds argv, 0, none, [], []⟩ ∧
      strlen (argv.getD 1 []) < MAXLEN - 3 := by
  obtain ⟨s, hs, hpc⟩ := Option.map_eq_some_iff.mp h
  rw [hs]
  simp only [NamedThreads.step, State.start] at hs
  split_ifs at hs with hargc hnum hlen
  · obtain rfl := Option.some.inj hs
    exact absurd hpc (by simp)
  · obtain rfl := Option.some.inj hs
    exact absurd hpc (by simp)
  · obtain rfl := Option.some.inj hs
    exact absurd hpc (by simp)
  · obtain rfl := Option.some.inj hs
    exact ⟨rfl, not_le.mp hlen⟩

/-- **One thread**, when all calls succeed. -/
theorem run_one {num : Int64} {i : ℕ} {tid : Option ℕ} {nm : List UInt8}
    {names : List (ℕ × List UInt8)} (h : (i : ℤ) < num.toInt) :
    run (NamedThreads.step argv) ⟨.loop, num, i, tid, nm, names⟩ (List.replicate 4 .ok) =
      some ⟨.loop, num, i + 1, some i, snprintf MAXLEN (fullName argv i),
        names ++ [(i, cstr (snprintf MAXLEN (fullName argv i)))]⟩ := by
  have hloop : NamedThreads.step argv ⟨.loop, num, i, tid, nm, names⟩ .ok =
      some ⟨.create, num, i, tid, nm, names⟩ := by
    simp only [NamedThreads.step, if_pos h]
  rw [List.replicate_succ, run_cons, hloop]
  rfl

/-- **When all calls succeed**, the threads are named one after the other. -/
theorem exists_named (h : Accepted argv) (k : ℕ) (hk : (k : ℤ) ≤ (numthrds argv).toInt) :
    ∃ tid nm, run (NamedThreads.step argv) .start (List.replicate (1 + 4 * k) .ok) =
      some ⟨.loop, numthrds argv, k, tid, nm,
        (List.range k).map fun j => (j, (fullName argv j).take (MAXLEN - 1))⟩ := by
  induction k with
  | zero => exact ⟨none, [], run_cons_eq_some.mpr ⟨_, h.spec.1, rfl⟩⟩
  | succ k ih =>
    obtain ⟨tid, nm, hrun⟩ := ih (by omega)
    refine ⟨some k, snprintf MAXLEN (fullName argv k), ?_⟩
    have hlabels : 1 + 4 * (k + 1) = (1 + 4 * k) + 4 := by omega
    rw [hlabels, List.replicate_add, run_append, hrun, Option.bind_some, run_one (by omega),
      cstr_snprintf, List.range_succ, List.map_append]
    rfl

/-- Where all calls succeed, all creations do. -/
theorem created_replicate (argv : List (List UInt8)) (n : ℕ) :
    Every (NamedThreads.step argv) Created .start (List.replicate n .ok) :=
  (every_of_forall (D := fun a => a = .ok) (fun _ ha => List.eq_of_mem_replicate ha) _).imp
    fun _ _ ha _ => ha

/-- **The names are unique exactly if the last number fits behind the prefix**, when all creations
succeed: nine bytes less those of the prefix are for the digits. -/
theorem unique_iff (h : Accepted argv) :
    (∀ is s, Every (NamedThreads.step argv) Created .start is →
        run (NamedThreads.step argv) .start is = some s → Unique argv s) ↔
      (numthrds argv).toInt ≤ 10 ^ (9 - strlen (argv.getD 1 [])) := by
  have hlen := h.spec.2
  constructor
  · intro hall
    by_contra hlarge
    set k := 10 ^ (9 - strlen (argv.getD 1 [])) with hk
    have hlt : ((k + 1 : ℕ) : ℤ) ≤ (numthrds argv).toInt := by
      push_cast [hk]
      omega
    obtain ⟨tid, nm, hrun⟩ := exists_named h (k + 1) hlt
    have hmem : (k, (fullName argv k).take (MAXLEN - 1)) ∈
        (List.range (k + 1)).map fun j => (j, (fullName argv j).take (MAXLEN - 1)) :=
      List.mem_map.mpr ⟨k, List.mem_range.mpr (Nat.lt_succ_self k), rfl⟩
    have hwhole := (hall _ _ (created_replicate argv _) hrun).1 _ hmem
    exact absurd ((take_fullName_iff hlen k).mp hwhole) (lt_irrefl k)
  · intro hle is s _ hrun
    have hinv := inv_of_run hrun
    have hwhole : ∀ x ∈ s.names, x.2 = fullName argv x.1 := by
      intro x hx
      obtain ⟨hlt, hname⟩ := hinv.names x hx
      rw [hname, take_fullName_iff hlen]
      exact_mod_cast hlt.trans_le hle
    refine ⟨hwhole, fun x hx y hy hne heq => hne ?_⟩
    rw [hwhole x hx, hwhole y hy] at heq
    exact fullName_inj heq

end Invariant

/-- Three workers. -/
theorem unique_iff_at : Accepted [ascii "named_threads", ascii "worker", ascii "3"] ∧
    ((∀ is s, Every (step [ascii "named_threads", ascii "worker", ascii "3"]) Created .start is →
        run (step [ascii "named_threads", ascii "worker", ascii "3"]) .start is = some s →
        Unique [ascii "named_threads", ascii "worker", ascii "3"] s) ↔
      (numthrds [ascii "named_threads", ascii "worker", ascii "3"]).toInt ≤
        10 ^ (9 - strlen ([ascii "named_threads", ascii "worker", ascii "3"].getD 1 []))) := by
  have haccepted : Accepted [ascii "named_threads", ascii "worker", ascii "3"] := by decide +kernel
  exact ⟨haccepted, unique_iff haccepted⟩

/-- **Two threads with one name**: behind a prefix of seven bytes, the number 100 is cut to 10. -/
theorem same_name : Accepted [ascii "named_threads", ascii "workers", ascii "101"] ∧
    ∃ is s, Every (step [ascii "named_threads", ascii "workers", ascii "101"]) Created .start is ∧
      run (step [ascii "named_threads", ascii "workers", ascii "101"]) .start is = some s ∧
      (10, ascii "workers_10") ∈ s.names ∧ (100, ascii "workers_10") ∈ s.names := by
  have haccepted : Accepted [ascii "named_threads", ascii "workers", ascii "101"] := by
    decide +kernel
  have hnum : (numthrds [ascii "named_threads", ascii "workers", ascii "101"]).toInt = 101 := by
    decide +kernel
  obtain ⟨tid, nm, hrun⟩ := exists_named haccepted 101 (by omega)
  refine ⟨haccepted, _, _, created_replicate _ _, hrun, ?_, ?_⟩
  · exact List.mem_map.mpr ⟨10, List.mem_range.mpr (by decide), by decide +kernel⟩
  · exact List.mem_map.mpr ⟨100, List.mem_range.mpr (by decide), by decide +kernel⟩

end NamedThreads

end SystemProgramming
