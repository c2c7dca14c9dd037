import Mathlib.Data.List.Basic
import Mathlib.Data.List.Perm.Basic
import Mathlib.Data.List.Range
import Mathlib.Logic.Function.Basic

/-!
# The children of a process

What the kernel keeps of the children that a process has forked: which of them are running, and,
of those that have ended, which are still waited for – the zombies – and which are not, since a
wait has returned with them or since nobody is going to wait. Nothing here mentions a program.

Every child is at one of these places, and how it has ended stays with it
(`SystemProgramming.Offspring.Table.Sound`). So a parent that is told it has no children any more
has waited for each of them exactly once, unless the kernel has not kept them
(`SystemProgramming.Offspring.Table.Sound.waited_all`).
-/

namespace SystemProgramming

namespace Offspring

/-- The children of a process, numbered in the order of their creation. -/
structure Table (ω : Type*) where
  /-- How many there are, all told. -/
  next : ℕ
  running : List ℕ
  /-- Those that have ended, with how, and that nobody has waited for. -/
  zombies : List (ℕ × ω)
  /-- Those that a wait has returned with. -/
  waited : List (ℕ × ω)
  /-- Those that the kernel has not kept. -/
  dropped : List (ℕ × ω)
  /-- Children that end become zombies. -/
  keeps : Bool
  /-- How a child has ended. -/
  ends : ℕ → Option ω

namespace Table

variable {ω : Type*} [DecidableEq ω]

/-- No child has been forked. Children that end become zombies: `SIGCHLD` is taken not to be
inherited as ignored. -/
def empty : Table ω := ⟨0, [], [], [], [], true, fun _ => none⟩

omit [DecidableEq ω] in
/-- A child is forked. -/
def fork (t : Table ω) : Table ω := { t with next := t.next + 1, running := t.running ++ [t.next] }

omit [DecidableEq ω] in
/-- A child ends. -/
def die (t : Table ω) (i : ℕ) (how : ω) : Option (Table ω) :=
  if i ∈ t.running then
    some { t with
      running := t.running.erase i
      ends := Function.update t.ends i (some how)
      zombies := if t.keeps then t.zombies ++ [(i, how)] else t.zombies
      dropped := if t.keeps then t.dropped else t.dropped ++ [(i, how)] }
  else none

/-- A wait returns with a child that has ended. -/
def wait (t : Table ω) (z : ℕ × ω) : Option (Table ω) :=
  if z ∈ t.zombies then some { t with zombies := t.zombies.erase z, waited := t.waited ++ [z] }
  else none

omit [DecidableEq ω] in
/-- The parent is gone: its zombies are cleared away, and so will be those that are to come. -/
def orphan (t : Table ω) : Table ω :=
  { t with zombies := [], dropped := t.dropped ++ t.zombies, keeps := false }

omit [DecidableEq ω] in
/-- A wait has nothing to return with, now or later. -/
def Childless (t : Table ω) : Prop := t.running = [] ∧ t.zombies = []

instance (t : Table ω) : Decidable t.Childless :=
  inferInstanceAs (Decidable (t.running = [] ∧ t.zombies = []))

omit [DecidableEq ω] in
/-- Those that have ended. -/
def ended (t : Table ω) : List (ℕ × ω) := t.zombies ++ t.waited ++ t.dropped

omit [DecidableEq ω] in
/-- **Every child is at one place**, and is recorded with how it has ended. -/
structure Sound (t : Table ω) : Prop where
  perm : (t.running ++ t.ended.map Prod.fst).Perm (List.range t.next)
  ends : ∀ z ∈ t.ended, t.ends z.1 = some z.2
  alive : ∀ i ∈ t.running, t.ends i = none
  fresh : ∀ i, t.next ≤ i → t.ends i = none

variable {t t' : Table ω} {i : ℕ} {how : ω} {z : ℕ × ω}

omit [DecidableEq ω] in
theorem sound_empty : Sound (empty : Table ω) where
  perm := List.Perm.refl _
  ends z hz := by cases hz
  alive i hi := by cases hi
  fresh _ _ := rfl

omit [DecidableEq ω] in
theorem Sound.nodup (h : Sound t) : (t.running ++ t.ended.map Prod.fst).Nodup :=
  h.perm.nodup_iff.mpr List.nodup_range

omit [DecidableEq ω] in
theorem Sound.fork (h : Sound t) : Sound t.fork where
  perm := by
    have hsplit : (t.running ++ [t.next] ++ t.ended.map Prod.fst).Perm
        (t.running ++ t.ended.map Prod.fst ++ [t.next]) := by
      rw [List.append_assoc, List.append_assoc]
      exact List.perm_append_comm.append_left _
    change (t.running ++ [t.next] ++ t.ended.map Prod.fst).Perm (List.range (t.next + 1))
    rw [List.range_succ]
    exact hsplit.trans (h.perm.append_right _)
  ends := h.ends
  alive i hi := by
    rcases List.mem_append.mp hi with hi | hi
    · exact h.alive i hi
    · rw [List.mem_singleton.mp hi]
      exact h.fresh _ le_rfl
  fresh i hi := h.fresh i ((Nat.le_succ _).trans hi)

omit [DecidableEq ω] in
/-- Whoever has ended is not running. -/
theorem Sound.ne_of_ended (h : Sound t) (hi : i ∈ t.running) : ∀ z ∈ t.ended, z.1 ≠ i := by
  rintro z hz rfl
  have hnone := h.alive _ hi
  rw [h.ends z hz] at hnone
  cases hnone

omit [DecidableEq ω] in
theorem Sound.lt (h : Sound t) (hi : i ∈ t.running) : i < t.next :=
  List.mem_range.mp (h.perm.mem_iff.mp (List.mem_append_left _ hi))

omit [DecidableEq ω] in
/-- What a child that ends leaves behind. -/
theorem die_eq_some (h : t.die i how = some t') : i ∈ t.running ∧
    t'.running = t.running.erase i ∧ t'.ends = Function.update t.ends i (some how) ∧
    t'.next = t.next ∧ t'.keeps = t.keeps ∧ t'.waited = t.waited ∧
    t'.zombies = (if t.keeps then t.zombies ++ [(i, how)] else t.zombies) ∧
    t'.dropped = (if t.keeps then t.dropped else t.dropped ++ [(i, how)]) ∧
    t'.ended.Perm (t.ended ++ [(i, how)]) := by
  unfold die at h
  obtain ⟨hi, h⟩ := Option.ite_none_right_eq_some.mp h
  obtain rfl := Option.some.inj h
  refine ⟨hi, rfl, rfl, rfl, rfl, rfl, rfl, rfl, ?_⟩
  unfold ended
  cases t.keeps with
  | true =>
    simp only [if_true, List.append_assoc]
    refine List.Perm.append_left _ ?_
    rw [← List.append_assoc t.waited]
    exact List.perm_append_comm
  | false => simp only [Bool.false_eq_true, if_false, List.append_assoc, List.Perm.refl]

omit [DecidableEq ω] in
theorem Sound.die (h : Sound t) (hdie : t.die i how = some t') : Sound t' := by
  obtain ⟨hi, hrunning, hends, hnext, -, -, -, -, hended⟩ := die_eq_some hdie
  have hne := h.ne_of_ended hi
  constructor
  case perm =>
    rw [hrunning, hnext]
    have hmove : (t.running.erase i ++ (t.ended ++ [(i, how)]).map Prod.fst).Perm
        (t.running ++ t.ended.map Prod.fst) := by
      rw [List.map_append, ← List.append_assoc]
      refine List.perm_append_comm.trans ?_
      exact ((List.perm_cons_erase hi).symm.append_right _)
    exact ((hended.map _).append_left _).trans (hmove.trans h.perm)
  case ends =>
    intro z hz
    rw [hends]
    rcases List.mem_append.mp (hended.mem_iff.mp hz) with hz | hz
    · rw [Function.update_of_ne (hne z hz)]
      exact h.ends z hz
    · rw [List.mem_singleton.mp hz, Function.update_self]
  case alive =>
    intro j hj
    have hnodup : t.running.Nodup := (List.nodup_append.mp h.nodup).1
    rw [hrunning] at hj
    obtain ⟨hji, hj⟩ := (hnodup.mem_erase_iff).mp hj
    rw [hends, Function.update_of_ne hji]
    exact h.alive j hj
  case fresh =>
    intro j hj
    rw [hnext] at hj
    rw [hends, Function.update_of_ne ((h.lt hi).trans_le hj).ne']
    exact h.fresh j hj

/-- What a wait takes. -/
theorem wait_eq_some (h : t.wait z = some t') : z ∈ t.zombies ∧
    t' = { t with zombies := t.zombies.erase z, waited := t.waited ++ [z] } := by
  unfold wait at h
  split_ifs at h with hz
  exact ⟨hz, (Option.some.inj h).symm⟩

/-- A wait does not change who has ended, … -/
theorem ended_wait (h : t.wait z = some t') : t'.ended.Perm t.ended := by
  obtain ⟨hz, rfl⟩ := wait_eq_some h
  refine List.Perm.append_right _ ?_
  rw [← List.append_assoc]
  exact List.perm_append_comm.trans ((List.perm_cons_erase hz).symm.append_right _)

theorem mem_ended_wait {y : ℕ × ω} (h : t.wait z = some t') : y ∈ t'.ended ↔ y ∈ t.ended :=
  (ended_wait h).mem_iff

omit [DecidableEq ω] in
/-- … and neither does the end of the parent. -/
theorem ended_orphan (t : Table ω) : t.orphan.ended.Perm t.ended := by
  change ([] ++ t.waited ++ (t.dropped ++ t.zombies)).Perm (t.zombies ++ t.waited ++ t.dropped)
  rw [List.nil_append, ← List.append_assoc, List.append_assoc t.zombies]
  exact List.perm_append_comm

omit [DecidableEq ω] in
theorem mem_ended_orphan {y : ℕ × ω} : y ∈ t.orphan.ended ↔ y ∈ t.ended :=
  (ended_orphan t).mem_iff

theorem Sound.wait (h : Sound t) (hwait : t.wait z = some t') : Sound t' := by
  have hended := ended_wait hwait
  obtain ⟨hz, rfl⟩ := wait_eq_some hwait
  exact ⟨((hended.map _).append_left _).trans h.perm,
    fun y hy => h.ends y (hended.mem_iff.mp hy), h.alive, h.fresh⟩

omit [DecidableEq ω] in
theorem Sound.orphan (h : Sound t) : Sound t.orphan :=
  ⟨(((ended_orphan t).map _).append_left _).trans h.perm,
    fun y hy => h.ends y (mem_ended_orphan.mp hy), h.alive, h.fresh⟩

omit [DecidableEq ω] in
/-- **Without children any more, each has been waited for once**, with how it has ended. -/
theorem Sound.waited_all (h : Sound t) (hnone : t.Childless) (hdropped : t.dropped = []) :
    (t.waited.map Prod.fst).Perm (List.range t.next) ∧ ∀ z ∈ t.waited, t.ends z.1 = some z.2 := by
  obtain ⟨hrunning, hzombies⟩ := hnone
  have hperm := h.perm
  unfold ended at hperm
  rw [hrunning, hzombies, hdropped, List.nil_append, List.nil_append, List.append_nil] at hperm
  exact ⟨hperm, fun z hz => h.ends z (by simp [ended, hz])⟩

end Table

end Offspring

end SystemProgramming
