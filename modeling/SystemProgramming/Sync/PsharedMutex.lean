import SystemProgramming.Bytes
import SystemProgramming.CriticalSection
import SystemProgramming.Printf
import SystemProgramming.Strings

/-!
# Two processes, one buffer

`pshared_mutex_demo` (`ch15/`): a thread of the parent process and the child process take
turns, by a mutex in shared memory, at writing to a buffer in shared memory. Each puts a
signature of five bytes in it and, behind that, a message with its process number.

Who comes first is left to chance, and should not matter, the places of the two being
different. But the message of the child reaches as far as the signature of the thread if
its process number has six digits or more. The final content is the same in both orders,
with both signatures and both messages, exactly if it has five at most
(`SystemProgramming.PsharedMutex.commute_iff`).
-/

namespace SystemProgramming

open Bytes CriticalSection Printf Runs Strings

namespace PsharedMutex

/-- The size of the shared buffer. -/
def GBUFSIZE : ℕ := 128

/-- The text of a message. -/
def message (who : String) (pid : ℕ) : List UInt8 :=
  ascii who ++ decimal pid ++ ascii " here!" ++ [newline]

/-- What the worker thread of the parent writes: a signature, and a message. -/
def workerWrites (pid : ℕ) : List (ℕ × List UInt8) :=
  [(25, List.replicate 5 116), (31, snprintf 32 (message "thread " pid))]

/-- What the child writes. -/
def childWrites (pid : ℕ) : List (ℕ × List UInt8) :=
  [(0, List.replicate 5 99), (6, snprintf 32 (message "child " pid))]

/-- The writes of the two: the worker thread is number 0, the child number 1. -/
def init (ppid cpid t : ℕ) : List (ℕ × List UInt8) :=
  if t = 0 then workerWrites ppid else childWrites cpid

/-- A critical section is a list of writes that are left to do. -/
def next (_ : ℕ) (ws : List (ℕ × List UInt8)) (buf : List UInt8) :
    Option (List (ℕ × List UInt8) × List UInt8) :=
  match ws with
  | [] => none
  | w :: ws => some (ws, overwrite buf w.1 w.2)

/-- **The step function**, with the process numbers of the parent and the child. -/
def step (ppid cpid : ℕ) :
    System (List (ℕ × List UInt8)) (List UInt8) → ℕ →
      Option (System (List (ℕ × List UInt8)) (List UInt8)) :=
  CriticalSection.step true 2 (init ppid cpid) next

/-- Before the two, the buffer is cleared. -/
def cleared : List UInt8 := List.replicate GBUFSIZE 0

/-- **Both signatures and both messages are in the buffer.** -/
structure Intact (ppid cpid : ℕ) (buf : List UInt8) : Prop where
  workerSignature : (buf.drop 25).take 5 = List.replicate 5 116
  workerMessage : cstr (buf.drop 31) = message "thread " ppid
  childSignature : buf.take 5 = List.replicate 5 99
  childMessage : cstr (buf.drop 6) = message "child " cpid

/-- **The two commute**: whatever the order, the buffer is the same in the end, with all that
the two have written. -/
def Commute (ppid cpid : ℕ) : Prop :=
  ∃ buf, (∀ ls s, run (step ppid cpid) (.start cleared) ls = some s → s.Done 2 → s.shared = buf) ∧
    Intact ppid cpid buf

/-! ### In any order -/

section Orders

variable {ppid cpid pid : ℕ} {buf : List UInt8} {who : String}

/-- The outcome of a critical section: all its writes have been made. -/
theorem outcome_patch : Outcome next fun _ ws buf => patch ws.reverse buf where
  goOn t ws buf ws' buf' h := by
    cases ws with
    | nil => cases h
    | cons w ws =>
      obtain ⟨rfl, rfl⟩ : ws = ws' ∧ overwrite buf w.1 w.2 = buf' := by simpa [next] using h
      rw [List.reverse_cons, patch_append, patch_cons, patch_nil]
  through t ws buf h := by
    cases ws with
    | nil => rfl
    | cons w ws => cases h

/-- One after another, the two make their writes. -/
theorem serial_patch (ts : List ℕ) (buf : List UInt8) :
    serial (init ppid cpid) (fun _ ws buf => patch ws.reverse buf) ts buf =
      patch (ts.flatMap (init ppid cpid)).reverse buf := by
  induction ts generalizing buf with
  | nil => rfl
  | cons t ts ih =>
    rw [List.flatMap_cons, List.reverse_append, patch_append, ← ih]
    rfl

theorem length_message (who : String) (hpid : pid ≤ 4194304) :
    (message who pid).length = who.length + (digits 10 pid).length + 7 ∧
      (digits 10 pid).length ≤ 7 := by
  have hdigits : (digits 10 pid).length ≤ 7 :=
    (length_digits_le_iff (by decide) (by decide)).mpr (by omega)
  refine ⟨?_, hdigits⟩
  have hhere : (ascii " here!").length = 6 := by decide
  rw [message, decimal_of_nonneg, List.length_append, List.length_append, List.length_append, hhere,
    List.length_singleton, ascii, List.length_map]
  rfl

theorem zero_notMem_message (hwho : 0 ∉ ascii who) : (0 : UInt8) ∉ message who pid := by
  have hdigits : (0 : UInt8) ∉ digits 10 pid := fun h =>
    absurd (digits_range (by decide) (by decide) h) (by decide)
  have hhere : (0 : UInt8) ∉ ascii " here!" ++ [newline] := by decide
  rw [message, decimal_of_nonneg, List.append_assoc, List.append_assoc]
  simp only [List.mem_append, not_or] at hhere ⊢
  exact ⟨hwho, hdigits, hhere⟩

/-- What is written of a message. -/
theorem snprintf_message (hwho : who.length ≤ 7) (hpid : pid ≤ 4194304) :
    snprintf 32 (message who pid) = message who pid ++ [0] := by
  obtain ⟨hlen, hdigits⟩ := length_message who hpid
  exact snprintf_of_lt (by omega)

/-- **Five digits keep the two apart.** -/
theorem pairwise_apart (hp : ppid ≤ 4194304) (hc : cpid < 100000) :
    (workerWrites ppid ++ childWrites cpid).Pairwise Apart := by
  obtain ⟨hlen, -⟩ := length_message "child " (show cpid ≤ 4194304 by omega)
  have hdigits : (digits 10 cpid).length ≤ 5 :=
    (length_digits_le_iff (by decide) (by decide)).mpr hc
  have hwho : "child ".length = 6 := by decide
  rw [workerWrites, childWrites, snprintf_message (by decide) hp,
    snprintf_message (by decide) (show cpid ≤ 4194304 by omega)]
  simp only [List.cons_append, List.nil_append, List.pairwise_cons, List.mem_cons,
    List.not_mem_nil, or_false, forall_eq_or_imp, forall_eq, Apart, List.length_replicate,
    List.length_append, List.length_singleton, List.Pairwise.nil, and_true, IsEmpty.forall_iff,
    implies_true]
  omega

theorem in_cleared (hp : ppid ≤ 4194304) (hc : cpid ≤ 4194304) :
    ∀ w ∈ workerWrites ppid ++ childWrites cpid, w.1 + w.2.length ≤ cleared.length := by
  obtain ⟨hlen, hdigits⟩ := length_message "child " hc
  obtain ⟨hlen', hdigits'⟩ := length_message "thread " hp
  have hwho : "child ".length = 6 := by decide
  have hwho' : "thread ".length = 7 := by decide
  have hcleared : cleared.length = 128 := List.length_replicate
  rw [workerWrites, childWrites, snprintf_message (by decide) hp, snprintf_message (by decide) hc]
  simp only [List.cons_append, List.nil_append, List.mem_cons, List.not_mem_nil, or_false,
    forall_eq_or_imp, forall_eq, List.length_replicate, List.length_append, List.length_singleton]
  omega

/-- **In any order** the two leave the same in the buffer, if their writes are apart. -/
theorem shared_eq_patch {ls : List ℕ} {s : System (List (ℕ × List UInt8)) (List UInt8)}
    (hp : ppid ≤ 4194304) (hc : cpid < 100000)
    (hrun : run (step ppid cpid) (.start cleared) ls = some s) (hdone : s.Done 2) :
    s.shared = patch (workerWrites ppid ++ childWrites cpid) cleared := by
  obtain ⟨hshared, hperm⟩ := shared_eq_serial outcome_patch hrun hdone
  have hwrites : (s.entered.flatMap (init ppid cpid)).reverse.Perm
      (workerWrites ppid ++ childWrites cpid) :=
    (List.reverse_perm _).trans (hperm.flatMap_right _)
  rw [hshared, serial_patch]
  exact (patch_perm hwrites.symm (pairwise_apart hp hc)
    (in_cleared hp (by omega))).symm

/-- What agrees with the four writes is intact. -/
theorem intact_of_agrees (hp : ppid ≤ 4194304) (hc : cpid ≤ 4194304)
    (h : ∀ w ∈ workerWrites ppid ++ childWrites cpid, Agrees buf w) : Intact ppid cpid buf := by
  have hmessage : ∀ who pid off, (0 : UInt8) ∉ ascii who →
      Agrees buf (off, message who pid ++ [0]) → cstr (buf.drop off) = message who pid := by
    intro who pid off hwho hagree
    have htake := hagree.take_drop
    have hsplit := List.take_append_drop (message who pid ++ [0]).length (buf.drop off)
    rw [← hsplit, htake, List.append_assoc, List.singleton_append, cstr_append_zero]
    exact cstr_eq_self (zero_notMem_message hwho)
  rw [workerWrites, childWrites, snprintf_message (by decide) hp, snprintf_message (by decide) hc]
    at h
  simp only [List.cons_append, List.nil_append, List.mem_cons, List.not_mem_nil, or_false,
    forall_eq_or_imp, forall_eq] at h
  obtain ⟨hsig, hmsg, hsig', hmsg'⟩ := h
  exact ⟨hsig.take_drop, hmessage _ _ _ (by decide) hmsg, hsig'.take_drop,
    hmessage _ _ _ (by decide) hmsg'⟩

/-- **A number of six digits is too long**: then there is no buffer in which both are intact. -/
theorem not_intact (hlow : 100000 ≤ cpid) (hc : cpid ≤ 4194304) : ¬Intact ppid cpid buf := by
  intro h
  obtain ⟨hlen, hdigits⟩ := length_message "child " hc
  have hsix : 6 ≤ (digits 10 cpid).length := by
    by_contra hshort
    have hlt := (length_digits_le_iff (b := 10) (n := cpid) (k := 5) (by decide) (by decide)).mp
      (by omega)
    omega
  have hwho : "child ".length = 6 := by decide
  -- the first byte of the signature is behind the message, or its last one
  have hsig : (buf.drop 6)[19]? = some 116 := by
    have hfirst := congrArg (fun t : List UInt8 => t[0]?) h.workerSignature
    rw [List.getElem?_drop]
    simpa [List.getElem?_take, List.getElem?_drop] using hfirst
  rcases Nat.lt_or_ge 6 (digits 10 cpid).length with hseven | hsix'
  · have hlast : (message "child " cpid)[19]? = some newline := by
      have hconcat := List.getElem?_concat_length
        (l := ascii "child " ++ decimal cpid ++ ascii " here!") (a := newline)
      have hbefore : (ascii "child " ++ decimal cpid ++ ascii " here!").length = 19 := by
        rw [message, List.length_append, List.length_singleton] at hlen
        omega
      rwa [hbefore] at hconcat
    have hprefix : message "child " cpid <+: buf.drop 6 := by
      rw [← h.childMessage]
      exact List.takeWhile_prefix _
    obtain ⟨rest, hrest⟩ := hprefix
    rw [← hrest, List.getElem?_append_left (by omega), hlast] at hsig
    exact absurd (Option.some.inj hsig) (by decide)
  · have hstrlen : strlen (buf.drop 6) = 19 := by
      rw [strlen, h.childMessage]
      omega
    rw [← hstrlen] at hsig
    exact absurd (eq_zero_of_strlen hsig) (by decide)

end Orders

/-- **The two commute** exactly if the process number of the child has five digits at most. -/
theorem commute_iff {ppid cpid : ℕ} (hp : 1 ≤ ppid ∧ ppid ≤ 4194304)
    (hc : 1 ≤ cpid ∧ cpid ≤ 4194304) : Commute ppid cpid ↔ cpid < 100000 := by
  constructor
  · rintro ⟨buf, -, hintact⟩
    by_contra hge
    exact not_intact (Nat.le_of_not_lt hge) hc.2 hintact
  · intro hlt
    refine ⟨_, fun ls s hrun hdone => shared_eq_patch hp.2 hlt hrun hdone, ?_⟩
    exact intact_of_agrees hp.2 hc.2 (agrees_patch (pairwise_apart hp.2 hlt))

/-- The greatest process number of five digits. -/
theorem commute_iff_at : (1 ≤ 4194304 ∧ 4194304 ≤ 4194304) ∧ (1 ≤ 99999 ∧ 99999 ≤ 4194304) ∧
    Commute 4194304 99999 :=
  ⟨by decide, by decide, (commute_iff (by decide) (by decide)).mpr (by decide)⟩

/-- **The order matters**: with the process number 100000, the message of the child is not
ended if the child is first, and the signature of the thread is broken if the thread is. -/
theorem order_matters :
    ¬Commute 99999 100000 ∧
      (∃ s, run (step 99999 100000) (.start cleared) [1, 1, 1, 1, 0, 0, 0, 0] = some s ∧
        s.Done 2 ∧ s.shared[25]? = some 116) ∧
      ∃ s, run (step 99999 100000) (.start cleared) [0, 0, 0, 0, 1, 1, 1, 1] = some s ∧
        s.Done 2 ∧ s.shared[25]? = some 0 := by
  have hchild : ∃ s, run (step 99999 100000) (.start cleared) [1, 1, 1, 1, 0, 0, 0, 0] = some s ∧
      s.Done 2 ∧ s.shared[25]? = some 116 := ⟨_, rfl, by decide, by decide +kernel⟩
  have hthread : ∃ s, run (step 99999 100000) (.start cleared) [0, 0, 0, 0, 1, 1, 1, 1] = some s ∧
      s.Done 2 ∧ s.shared[25]? = some 0 := ⟨_, rfl, by decide, by decide +kernel⟩
  refine ⟨?_, hchild, hthread⟩
  rintro ⟨buf, hbuf, -⟩
  obtain ⟨s, hrun, hdone, hat⟩ := hchild
  obtain ⟨s', hrun', hdone', hat'⟩ := hthread
  rw [hbuf _ s hrun hdone] at hat
  rw [hbuf _ s' hrun' hdone'] at hat'
  exact absurd (hat.symm.trans hat') (by decide)

end PsharedMutex

end SystemProgramming
