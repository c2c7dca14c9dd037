import SystemProgramming.Calls
import SystemProgramming.Printf
import SystemProgramming.Stdio.Streams

/-!
# What a fork finds in a buffer

`fork_printf_1` and `fork_printf_2` (`A_fileio/`): a text is printed after a fork, or before it. In
both cases it appears twice, since the buffer of `stdout` is memory like any other: what has been
printed is still in it when the process forks, and both processes write it out when they exit. Only
if `stdout` is not buffered, what was printed before the fork appears once.

Both are instances of one program that prints a text, forks, and prints another one
(`SystemProgramming.ForkPrintf.copies_eq`).
-/

namespace SystemProgramming

open Printf Runs Streams

namespace ForkPrintf

/-- What is printed before the fork, and after it. -/
structure Program where
  before : List UInt8
  after : List UInt8

/-- The text of both programs, without a newline. -/
def hello : List UInt8 := ascii "Hello, world. "

/-- `main` of `fork_printf_1`. -/
def forkPrintf1 : Program := ⟨[], hello⟩

/-- `main` of `fork_printf_2`. -/
def forkPrintf2 : Program := ⟨hello, []⟩

/-- Where a process stands. -/
inductive Pc where
  /-- It has not been forked. -/
  | absent
  /-- About to print the first text, if there is one. -/
  | before
  | fork
  /-- About to print the second text. -/
  | after
  | exit
  | exited
  deriving DecidableEq, Repr

/-- The two processes. -/
inductive Who where
  | parent
  | child
  deriving DecidableEq, Repr

/-- The processes, with what their streams hold. -/
structure State where
  parent : Pc
  child : Pc
  out : Output Who UInt8

/-- What happens. -/
inductive Label where
  /-- A process prints, and so many bytes are written at once. -/
  | print (i : Who) (k : ℕ)
  | fork (a : Answer)
  | exit (i : Who)
  deriving DecidableEq, Repr

/-- `main` is called. -/
def start (old : List UInt8) : State := ⟨.before, .absent, fun _ => [], old⟩

namespace State

def pc (p : State) : Who → Pc
  | .parent => p.parent
  | .child => p.child

/-- A process has come to another place. -/
def goto (p : State) (pc : Pc) : Who → State
  | .parent => { p with parent := pc }
  | .child => { p with child := pc }

/-- The child begins behind the fork, with a copy of the buffer. -/
def forked (p : State) : State where
  parent := .after
  child := .after
  out := { p.out with held := Function.update p.out.held .child (p.out.held .parent) }

end State

/-- **The step function**, with the room that `stdout` has. -/
def step (room : ℕ) (prog : Program) (p : State) : Label → Option State
  | .print i k =>
    match p.pc i with
    | .before => (Streams.step (fun _ => room) p.out (.put i prog.before, k)).map fun out =>
      { p.goto .fork i with out := out }
    | .after => (Streams.step (fun _ => room) p.out (.put i prog.after, k)).map fun out =>
      { p.goto .exit i with out := out }
    | _ => none
  | .fork a =>
    if p.parent = .fork then a.status.map fun ok => if ok then p.forked else p.goto .after .parent
    else none
  | .exit i =>
    if p.pc i = .exit then
      (Streams.step (fun _ => room) p.out (.flush i, 0)).map fun out =>
        { p.goto .exited i with out := out }
    else none

/-! ### What has been printed -/

/-- What a process has printed and not written yet, if there is room for it. -/
def Pc.text (prog : Program) : Pc → List UInt8
  | .fork | .after => prog.before
  | .exit => prog.before ++ prog.after
  | _ => []

/-- How many of the two have exited, … -/
def Pc.ended : Pc → ℕ
  | .exited => 1
  | _ => 0

/-- … and how many have printed their second text. -/
def Pc.printed : Pc → ℕ
  | .exit | .exited => 1
  | _ => 0

/-- So many copies of a text. -/
def copies (n : ℕ) (t : List UInt8) : List UInt8 := (List.replicate n t).flatten

theorem copies_succ (n : ℕ) (t : List UInt8) : copies (n + 1) t = copies n t ++ t := by
  rw [copies, List.replicate_succ', List.flatten_append, List.flatten_singleton]
  rfl

/-- There is no child before the fork, and a child begins behind it. -/
def Present (p : State) : Prop :=
  match p.parent with
  | .before | .fork => p.child = .absent
  | .absent => False
  | _ => p.child ≠ .before ∧ p.child ≠ .fork

/-- **The invariant where there is room**: all that a process has printed is in its buffer, until it
exits. -/
structure Full (prog : Program) (old : List UInt8) (p : State) : Prop where
  present : Present p
  held : ∀ i, p.out.held i = (p.pc i).text prog
  file : p.out.file = old ++ copies (p.parent.ended + p.child.ended) (prog.before ++ prog.after)

/-- **The invariant where there is none.** -/
structure Unbuffered (prog : Program) (old : List UInt8) (p : State) : Prop where
  present : Present p
  held : ∀ i, p.out.held i = []
  file : p.out.file = old ++ (if p.parent = .before then [] else prog.before) ++
    copies (p.parent.printed + p.child.printed) prog.after

section Steps

variable {room : ℕ} {prog : Program} {old : List UInt8} {p q : State} {l : Label} {ls : List Label}
  {w : Output Who UInt8}

/-- A child is never where it would fork. -/
theorem Present.child_ne (hp : Present p) : p.child ≠ .before ∧ p.child ≠ .fork := by
  unfold Present at hp
  split at hp
  · exact ⟨by simp [hp], by simp [hp]⟩
  · exact ⟨by simp [hp], by simp [hp]⟩
  · exact hp.elim
  · exact hp

/-- A process that is about to print its second text, or to exit, is behind the fork. -/
theorem Present.goto (hp : Present p) {i : Who} {pc : Pc} (hi : p.pc i = .after ∨ p.pc i = .exit)
    (hpc : pc = .exit ∨ pc = .exited) (out : Output Who UInt8) :
    Present { p.goto pc i with out := out } := by
  have hchild := hp.child_ne
  cases i with
  | parent => rcases hpc with rfl | rfl <;> exact hchild
  | child =>
    have hne : p.child ≠ .absent := by
      change p.child = .after ∨ p.child = .exit at hi
      rcases hi with hi | hi <;> simp [hi]
    unfold Present at hp ⊢
    change match p.parent with
      | .before | .fork => pc = .absent
      | .absent => False
      | _ => pc ≠ .before ∧ pc ≠ .fork
    cases hparent : p.parent <;> rw [hparent] at hp
    case before | fork => exact absurd hp hne
    case absent => exact hp.elim
    all_goals rcases hpc with rfl | rfl <;> exact ⟨by simp, by simp⟩

/-- **What a step can do**: the parent prints its first text, a process prints its second one, the
parent forks, or a process exits. -/
theorem step_cases (h : step room prog p l = some q) (hp : Present p) :
    (∃ k out, p.parent = .before ∧ p.child = .absent ∧ q = ⟨.fork, .absent, out⟩ ∧
      Streams.step (fun _ => room) p.out (.put .parent prog.before, k) = some out) ∨
    (∃ i k out, p.pc i = .after ∧ q = { p.goto .exit i with out := out } ∧
      Streams.step (fun _ => room) p.out (.put i prog.after, k) = some out) ∨
    (p.parent = .fork ∧ p.child = .absent ∧ (q = p.forked ∨ q = p.goto .after .parent)) ∨
    (∃ i, p.pc i = .exit ∧ q = { p.goto .exited i with
      out := ⟨Function.update p.out.held i [], p.out.file ++ p.out.held i⟩ }) := by
  cases l with
  | print i k =>
    change (match p.pc i with
      | .before => _
      | .after => _
      | _ => none) = some q at h
    split at h <;> rename_i hpc
    · obtain ⟨out, hout, rfl⟩ := Option.map_eq_some_iff.mp h
      cases i with
      | parent =>
        change p.parent = .before at hpc
        have hchild : p.child = .absent := by
          unfold Present at hp
          rw [hpc] at hp
          exact hp
        refine Or.inl ⟨k, out, hpc, hchild, ?_, hout⟩
        rw [← hchild]
        rfl
      | child => exact absurd hpc hp.child_ne.1
    · obtain ⟨out, hout, rfl⟩ := Option.map_eq_some_iff.mp h
      exact Or.inr (Or.inl ⟨i, k, out, hpc, rfl, hout⟩)
    · cases h
  | fork a =>
    unfold ForkPrintf.step at h
    obtain ⟨hpc, h⟩ := Option.ite_none_right_eq_some.mp h
    obtain ⟨ok, -, rfl⟩ := Option.map_eq_some_iff.mp h
    have hchild : p.child = .absent := by
      unfold Present at hp
      rw [hpc] at hp
      exact hp
    refine Or.inr (Or.inr (Or.inl ⟨hpc, hchild, ?_⟩))
    cases ok
    · exact Or.inr rfl
    · exact Or.inl rfl
  | exit i =>
    unfold ForkPrintf.step at h
    obtain ⟨hpc, h⟩ := Option.ite_none_right_eq_some.mp h
    obtain ⟨out, hout, rfl⟩ := Option.map_eq_some_iff.mp h
    obtain rfl := Option.some.inj hout
    exact Or.inr (Or.inr (Or.inr ⟨i, hpc, rfl⟩))

theorem Present.step (hp : Present p) (h : step room prog p l = some q) : Present q := by
  rcases step_cases h hp with ⟨k, out, -, -, rfl, -⟩ | ⟨i, k, out, hpc, rfl, -⟩ |
    ⟨-, hchild, rfl | rfl⟩ | ⟨i, hpc, rfl⟩
  · exact rfl
  · exact hp.goto (Or.inl hpc) (Or.inl rfl) _
  · exact ⟨by simp [State.forked], by simp [State.forked]⟩
  · exact hp.child_ne
  · exact hp.goto (Or.inr hpc) (Or.inr rfl) _

/-- **A step where there is room.** -/
theorem Full.step (hp : Full prog old p) (hfits : (prog.before ++ prog.after).length ≤ room)
    (h : step room prog p l = some q) : Full prog old q := by
  have hpresent := hp.present.step h
  have hheld := hp.held
  have hfile := hp.file
  have hshort : prog.before.length ≤ room :=
    (List.length_append ▸ Nat.le_add_right _ _).trans hfits
  rcases step_cases h hp.present with ⟨k, out, hpc, hchild, rfl, hout⟩ |
    ⟨i, k, out, hpc, rfl, hout⟩ | ⟨hpc, hchild, rfl | rfl⟩ | ⟨i, hpc, rfl⟩
  · have hnil : p.out.held .parent = [] := by
      rw [hheld]
      change p.parent.text prog = []
      rw [hpc]
      rfl
    have hput := put_of_fits (by rw [hnil]; exact hshort) hout
    rw [hnil, List.nil_append] at hput
    refine ⟨hpresent, fun i => ?_, ?_⟩
    · change out.held i = _
      rw [hput]
      change Function.update p.out.held .parent prog.before i = _
      cases i with
      | parent => rw [Function.update_self]; rfl
      | child =>
        have hother := hheld .child
        change _ = p.child.text prog at hother
        rw [Function.update_of_ne (by decide), hother, hchild]
        rfl
    · change out.file = _
      rw [hput, hfile, hpc, hchild]
      rfl
  · have hbefore : p.out.held i = prog.before := by rw [hheld, hpc]; rfl
    have hput := put_of_fits (by rw [hbefore]; exact hfits) hout
    rw [hbefore] at hput
    refine ⟨hpresent, fun j => ?_, ?_⟩
    · change out.held j = _
      rw [hput]
      change Function.update p.out.held i (prog.before ++ prog.after) j = _
      rcases eq_or_ne j i with rfl | hne
      · rw [Function.update_self]
        cases j <;> rfl
      · rw [Function.update_of_ne hne, hheld]
        cases i <;> cases j <;> first | rfl | exact absurd rfl hne
    · change out.file = _
      rw [hput, hfile]
      cases i with
      | parent =>
        change p.parent = .after at hpc
        rw [hpc]
        rfl
      | child =>
        change p.child = .after at hpc
        rw [hpc]
        rfl
  · have hbefore : p.out.held .parent = prog.before := by
      rw [hheld]
      change p.parent.text prog = _
      rw [hpc]
      rfl
    refine ⟨hpresent, fun i => ?_, ?_⟩
    · change Function.update p.out.held .child (p.out.held .parent) i = _
      cases i with
      | parent => rw [Function.update_of_ne (by decide), hbefore]; rfl
      | child => rw [Function.update_self, hbefore]; rfl
    · change p.out.file = _
      rw [hfile, hpc, hchild]
      rfl
  · refine ⟨hpresent, fun i => ?_, ?_⟩
    · change p.out.held i = _
      rw [hheld]
      cases i with
      | parent => change p.parent.text prog = _; rw [hpc]; rfl
      | child => rfl
    · change p.out.file = _
      rw [hfile, hpc]
      rfl
  · have hall : p.out.held i = prog.before ++ prog.after := by rw [hheld, hpc]; rfl
    refine ⟨hpresent, fun j => ?_, ?_⟩
    · change Function.update p.out.held i [] j = _
      rcases eq_or_ne j i with rfl | hne
      · rw [Function.update_self]
        cases j <;> rfl
      · rw [Function.update_of_ne hne, hheld]
        cases i <;> cases j <;> first | rfl | exact absurd rfl hne
    · change p.out.file ++ p.out.held i = _
      rw [hall, hfile, List.append_assoc, ← copies_succ]
      cases i with
      | parent =>
        change p.parent = .exit at hpc
        rw [hpc]
        change _ = old ++ copies (1 + p.child.ended) _
        rw [show Pc.exit.ended = 0 from rfl, Nat.zero_add, Nat.add_comm]
      | child =>
        change p.child = .exit at hpc
        rw [hpc]
        rfl

/-- **A step where there is none.** -/
theorem Unbuffered.step (hp : Unbuffered prog old p) (h : step 0 prog p l = some q) :
    Unbuffered prog old q := by
  have hpresent := hp.present.step h
  have hheld := hp.held
  have hfile := hp.file
  have hwritten : ∀ {i t k out}, Streams.step (fun _ => 0) p.out (.put i t, k) = some out →
      (∀ j, out.held j = []) ∧ out.file = p.out.file ++ t := by
    intro i t k out hout
    have hput : out = ⟨Function.update p.out.held i [], p.out.file ++ (p.out.held i ++ t)⟩ := by
      refine put_of_unbuffered ?_ hout
      rfl
    rw [hheld, List.nil_append] at hput
    rw [hput]
    refine ⟨fun j => ?_, rfl⟩
    change Function.update p.out.held i [] j = []
    rcases eq_or_ne j i with rfl | hne
    · exact Function.update_self ..
    · rw [Function.update_of_ne hne, hheld]
  rcases step_cases h hp.present with ⟨k, out, hpc, hchild, rfl, hout⟩ |
    ⟨i, k, out, hpc, rfl, hout⟩ | ⟨hpc, hchild, rfl | rfl⟩ | ⟨i, hpc, rfl⟩
  · obtain ⟨hempty, hout⟩ := hwritten hout
    refine ⟨hpresent, hempty, ?_⟩
    change out.file = _
    rw [hout, hfile, hpc, hchild]
    simp [copies, Pc.printed]
  · obtain ⟨hempty, hout⟩ := hwritten hout
    refine ⟨hpresent, hempty, ?_⟩
    change out.file = _
    rw [hout, hfile, List.append_assoc, ← copies_succ]
    cases i with
    | parent =>
      change p.parent = .after at hpc
      rw [hpc]
      change _ = old ++ (if Pc.exit = .before then [] else prog.before) ++
        copies (1 + p.child.printed) prog.after
      rw [if_neg (by decide), if_neg (by decide), show Pc.after.printed = 0 from rfl, Nat.zero_add,
        Nat.add_comm]
    | child =>
      change p.child = .after at hpc
      rw [hpc]
      rfl
  · refine ⟨hpresent, fun i => ?_, ?_⟩
    · change Function.update p.out.held .child (p.out.held .parent) i = []
      cases i with
      | parent => rw [Function.update_of_ne (by decide), hheld]
      | child => rw [Function.update_self, hheld]
    · change p.out.file = _
      rw [hfile, hpc, hchild]
      rfl
  · refine ⟨hpresent, hheld, ?_⟩
    change p.out.file = _
    rw [hfile, hpc, hchild]
    change _ = old ++ (if Pc.after = .before then [] else prog.before) ++
      copies (0 + p.child.printed) prog.after
    rw [hchild]
    rfl
  · refine ⟨hpresent, fun j => ?_, ?_⟩
    · change Function.update p.out.held i [] j = []
      rcases eq_or_ne j i with rfl | hne
      · exact Function.update_self ..
      · rw [Function.update_of_ne hne, hheld]
    · change p.out.file ++ p.out.held i = _
      rw [hheld, List.append_nil, hfile]
      cases i with
      | parent =>
        change p.parent = .exit at hpc
        rw [hpc]
        rfl
      | child =>
        change p.child = .exit at hpc
        rw [hpc]
        rfl

/-- **How often the texts appear**, when all processes have exited: both of them once for each
process if there is room for them, and if `stdout` is not buffered, the first one only once. -/
theorem copies_eq (hrun : run (ForkPrintf.step room prog) (start old) ls = some p)
    (hparent : p.parent = .exited) (hchild : p.child = .absent ∨ p.child = .exited) :
    ((prog.before ++ prog.after).length ≤ room →
      p.out.file = old ++ copies (if p.child = .absent then 1 else 2) (prog.before ++ prog.after)) ∧
    (room = 0 → p.out.file =
      old ++ prog.before ++ copies (if p.child = .absent then 1 else 2) prog.after) := by
  constructor
  · intro hfits
    have hstart : Full prog old (start old) :=
      ⟨rfl, fun i => by cases i <;> rfl, (List.append_nil _).symm⟩
    have hp : Full prog old p :=
      run_invariant (fun _ _ _ hp h => hp.step hfits h) hstart hrun
    rw [hp.file, hparent]
    rcases hchild with hchild | hchild <;> rw [hchild] <;> rfl
  · rintro rfl
    have hstart : Unbuffered prog old (start old) :=
      ⟨rfl, fun _ => rfl, by simp [start, copies, Pc.printed]⟩
    have hp : Unbuffered prog old p := run_invariant (fun _ _ _ hp h => hp.step h) hstart hrun
    rw [hp.file, hparent, if_neg (by decide)]
    rcases hchild with hchild | hchild <;> rw [hchild] <;> rfl

end Steps

/-- The second program: the text that was printed once appears twice, the child being the first to
exit; not buffered, it appears once. -/
theorem copies_eq_twice :
    (∃ ls p, run (step 4096 forkPrintf2) (start []) ls = some p ∧ p.out.file = hello ++ hello) ∧
    ∃ ls p, run (step 0 forkPrintf2) (start []) ls = some p ∧ p.out.file = hello := by
  obtain ⟨ls, p, hrun, hparent, hchild⟩ : ∃ ls p, run (step 4096 forkPrintf2) (start []) ls =
      some p ∧ p.parent = .exited ∧ p.child = .exited :=
    ⟨[.print .parent 0, .fork .ok, .print .child 0, .exit .child, .print .parent 0, .exit .parent],
      _, rfl, rfl, rfl⟩
  obtain ⟨ls', p', hrun', hparent', hchild'⟩ : ∃ ls p, run (step 0 forkPrintf2) (start []) ls =
      some p ∧ p.parent = .exited ∧ p.child = .exited :=
    ⟨[.print .parent 14, .fork .ok, .print .child 0, .exit .child, .print .parent 0,
      .exit .parent], _, rfl, rfl, rfl⟩
  have hfile := (copies_eq hrun hparent (Or.inr hchild)).1 (by decide)
  have hfile' := (copies_eq hrun' hparent' (Or.inr hchild')).2 rfl
  rw [hchild] at hfile
  rw [hchild'] at hfile'
  exact ⟨⟨ls, p, hrun, hfile⟩, ls', p', hrun', hfile'⟩

end ForkPrintf

end SystemProgramming
