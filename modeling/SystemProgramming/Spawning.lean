import Mathlib.Algebra.Order.BigOperators.Group.List
import Mathlib.Algebra.Ring.Nat
import SystemProgramming.Runs

/-!
# A population of processes

Processes that create each other, and what they share: in a step one process changes, and there may
be one more behind the others (`SystemProgramming.Spawning.step`). Nothing in this file mentions a
program.

What is said of such a population is mostly a sum over its members – how many there are of a kind,
what they have ahead of them – and a step changes it by what becomes of the one that moves and by
its child (`SystemProgramming.Spawning.total_step`). A statement about every member needs to be
looked at for these two (`SystemProgramming.Spawning.forall_step`).
-/

namespace SystemProgramming

namespace Spawning

variable {π σ ι : Type*}

/-- The processes, in the order of their creation, and what they share. -/
structure System (π σ : Type*) where
  procs : List π
  shared : σ
  deriving DecidableEq, Repr

/-- What becomes of the process that moves, its child if it has one now, and what they share. -/
structure Move (π σ : Type*) where
  proc : π
  child : Option π
  shared : σ

/-- **The step function**: the process `l.1` moves. `call` is given how many processes there are,
its place among them, and itself. -/
def step (call : ℕ → ℕ → π → σ → ι → Option (Move π σ)) (s : System π σ) (l : ℕ × ι) :
    Option (System π σ) :=
  match s.procs[l.1]? with
  | none => none
  | some q => (call s.procs.length l.1 q s.shared l.2).map fun m =>
      ⟨s.procs.set l.1 m.proc ++ m.child.toList, m.shared⟩

/-- What all processes come to together. -/
def total (f : π → ℕ) (ps : List π) : ℕ := (ps.map f).sum

@[simp] theorem total_nil (f : π → ℕ) : total f [] = 0 := rfl

@[simp] theorem total_cons (f : π → ℕ) (q : π) (ps : List π) :
    total f (q :: ps) = f q + total f ps := rfl

@[simp] theorem total_append (f : π → ℕ) (ps qs : List π) :
    total f (ps ++ qs) = total f ps + total f qs := by
  simp [total]

theorem total_congr {f g : π → ℕ} {ps : List π} (h : ∀ q ∈ ps, f q = g q) :
    total f ps = total g ps := by
  rw [total, total, List.map_congr_left h]

theorem total_le {f g : π → ℕ} {ps : List π} (h : ∀ q ∈ ps, f q ≤ g q) :
    total f ps ≤ total g ps :=
  List.sum_le_sum h

theorem total_eq_zero {f : π → ℕ} {ps : List π} (h : ∀ q ∈ ps, f q = 0) : total f ps = 0 :=
  List.sum_eq_zero (by simpa using h)

/-- Counting is summing. -/
theorem total_ite (p : π → Prop) [DecidablePred p] (ps : List π) :
    total (fun q => if p q then 1 else 0) ps = ps.countP p := by
  induction ps with
  | nil => rfl
  | cons q ps ih =>
    rw [total_cons, ih, List.countP_cons]
    by_cases hq : p q <;> simp [hq, Nat.add_comm]

section Steps

variable {call : ℕ → ℕ → π → σ → ι → Option (Move π σ)} {s t : System π σ} {l : ℕ × ι}

/-- **A step**, taken apart. -/
theorem step_cases (h : step call s l = some t) :
    ∃ pre q post m, s.procs = pre ++ q :: post ∧ pre.length = l.1 ∧
      call s.procs.length l.1 q s.shared l.2 = some m ∧
      t = ⟨pre ++ m.proc :: post ++ m.child.toList, m.shared⟩ := by
  unfold step at h
  split at h
  · cases h
  · rename_i q hq
    obtain ⟨m, hm, rfl⟩ := Option.map_eq_some_iff.mp h
    obtain ⟨hl, heq⟩ := List.getElem?_eq_some_iff.mp hq
    refine ⟨s.procs.take l.1, q, s.procs.drop (l.1 + 1), m, ?_, ?_, hm, ?_⟩
    · rw [← heq, List.cons_getElem_drop_succ, List.take_append_drop]
    · exact List.length_take_of_le hl.le
    · rw [List.set_eq_take_append_cons_drop, if_pos hl]

/-- **How a sum changes**: by what becomes of the process that moves, and by its child. -/
theorem total_step (f : π → ℕ) {pre post : List π} {q : π} {m : Move π σ}
    (hs : s.procs = pre ++ q :: post)
    (ht : t = ⟨pre ++ m.proc :: post ++ m.child.toList, m.shared⟩) :
    total f t.procs + f q = total f s.procs + (f m.proc + total f m.child.toList) := by
  subst ht
  rw [hs]
  simp only [total_append, total_cons]
  omega

/-- **What holds of every process** still does when it holds of what becomes of the one that moves,
and of its child. -/
theorem forall_step {P : π → Prop} {pre post : List π} {q : π} {m : Move π σ}
    (h : ∀ u ∈ s.procs, P u) (hs : s.procs = pre ++ q :: post)
    (ht : t = ⟨pre ++ m.proc :: post ++ m.child.toList, m.shared⟩) (hproc : P m.proc)
    (hchild : ∀ u ∈ m.child, P u) : ∀ u ∈ t.procs, P u := by
  subst ht
  rw [hs] at h
  intro u hu
  rcases List.mem_append.mp hu with hu | hu
  · rcases List.mem_append.mp hu with hu | hu
    · exact h u (List.mem_append_left _ hu)
    · rcases List.mem_cons.mp hu with rfl | hu
      · exact hproc
      · exact h u (List.mem_append_right _ (List.mem_cons_of_mem _ hu))
  · exact hchild u (by simpa using hu)

/-- The same for what is said of a process and its place. -/
theorem forall_getElem_step {P : ℕ → π → Prop} {pre post : List π} {q : π} {m : Move π σ}
    (hs : s.procs = pre ++ q :: post) (ht : t = ⟨pre ++ m.proc :: post ++ m.child.toList, m.shared⟩)
    (h : ∀ k u, k ≠ pre.length → s.procs[k]? = some u → P k u) (hproc : P pre.length m.proc)
    (hchild : ∀ u ∈ m.child, P s.procs.length u) : ∀ k u, t.procs[k]? = some u → P k u := by
  subst ht
  intro k u hu
  have hlen : s.procs.length = (pre ++ m.proc :: post).length := by simp [hs]
  rcases Nat.lt_or_ge k s.procs.length with hlt | hge
  · rw [List.getElem?_append_left (hlen ▸ hlt)] at hu
    rcases eq_or_ne k pre.length with rfl | hne
    · rw [List.getElem?_append_right le_rfl, Nat.sub_self] at hu
      obtain rfl := Option.some.inj hu
      exact hproc
    · refine h k u hne ?_
      rw [hs]
      rcases Nat.lt_or_gt_of_ne hne with hlt | hgt
      · rwa [List.getElem?_append_left hlt] at hu ⊢
      · obtain ⟨j, hj⟩ : ∃ j, k - pre.length = j + 1 := ⟨k - pre.length - 1, by omega⟩
        rw [List.getElem?_append_right hgt.le, hj] at hu ⊢
        exact hu
  · rw [List.getElem?_append_right (hlen ▸ hge), ← hlen] at hu
    have hmem : u ∈ m.child.toList := List.mem_of_getElem? hu
    rw [Option.mem_toList] at hmem
    have hone : m.child.toList.length ≤ 1 := by cases m.child <;> simp
    have hk := (List.getElem?_eq_some_iff.mp hu).1
    obtain rfl : k = s.procs.length := by omega
    exact hchild u hmem

end Steps

end Spawning

end SystemProgramming
