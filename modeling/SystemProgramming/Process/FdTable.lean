import Mathlib.Data.List.Basic

/-!
# File descriptor tables

The descriptors of a process: what each open one refers to. Nothing here mentions a
program.

* A new file gets the lowest descriptor that is free, below the limit of the process
  (`SystemProgramming.FdTable.openFile`).
* A descriptor can be made to refer to what another one refers to; what it referred to
  before is closed (`SystemProgramming.FdTable.dup2`). Onto itself this does nothing.
* Closing a descriptor frees it, and does nothing to one that is free.
-/

namespace SystemProgramming

/-- A descriptor table: what each descriptor refers to, `none` for one that is free. -/
def FdTable (φ : Type*) := ℕ → Option φ

namespace FdTable

variable {φ : Type*} {t u : FdTable φ} {x : φ} {limit fd old new : ℕ}

/-- The descriptor `fd` is given something to refer to, or nothing. -/
def set (t : FdTable φ) (fd : ℕ) (r : Option φ) : FdTable φ :=
  fun g => if g = fd then r else t g

/-- The descriptor is closed. -/
def close (t : FdTable φ) (fd : ℕ) : FdTable φ := t.set fd none

/-- The lowest free descriptor below the limit. -/
def lowest (limit : ℕ) (t : FdTable φ) : Option ℕ :=
  (List.range limit).find? fun fd => (t fd).isNone

/-- `x` is opened: its descriptor, and the table with it. -/
def openFile (limit : ℕ) (t : FdTable φ) (x : φ) : Option (ℕ × FdTable φ) :=
  (lowest limit t).map fun fd => (fd, t.set fd (some x))

/-- The descriptor `new` is made to refer to what `old` refers to. -/
def dup2 (limit : ℕ) (t : FdTable φ) (old new : ℕ) : Option (FdTable φ) :=
  match t old with
  | none => none
  | some x =>
    if new = old then some t
    else if new < limit then some (t.set new (some x))
    else none

theorem set_self (t : FdTable φ) (fd : ℕ) (r : Option φ) : t.set fd r fd = r := if_pos rfl

theorem set_of_ne (t : FdTable φ) {g : ℕ} (h : g ≠ fd) (r : Option φ) : t.set fd r g = t g :=
  if_neg h

/-- A descriptor that is given what it refers to stays as it was. -/
theorem set_eq_self (t : FdTable φ) (fd : ℕ) : t.set fd (t fd) = t := by
  funext g
  rcases eq_or_ne g fd with rfl | hne
  · exact set_self _ _ _
  · exact set_of_ne _ hne _

/-- **The lowest free descriptor** is free, and those below it are not. -/
theorem lowest_eq_some (h : lowest limit t = some fd) :
    t fd = none ∧ ∀ g < fd, t g ≠ none := by
  obtain ⟨hfree, -, hlow⟩ := List.find?_range_eq_some.mp h
  refine ⟨Option.isNone_iff_eq_none.mp hfree, fun g hg hnone => ?_⟩
  simpa [hnone] using hlow g hg

/-- **Opening a file** puts it at the lowest free descriptor. -/
theorem openFile_eq_some (h : openFile limit t x = some (fd, u)) :
    u = t.set fd (some x) ∧ t fd = none ∧ ∀ g < fd, t g ≠ none := by
  obtain ⟨g, hg, heq⟩ := Option.map_eq_some_iff.mp h
  obtain ⟨rfl, rfl⟩ := Prod.mk.inj heq
  obtain ⟨hfree, hlow⟩ := lowest_eq_some hg
  exact ⟨rfl, hfree, hlow⟩

/-- **After `dup2`** the descriptor `new` refers to what `old` does, and the others to what
they did. -/
theorem dup2_eq_some (h : dup2 limit t old new = some u) (hx : t old = some x) :
    u = t.set new (some x) := by
  rw [dup2, hx] at h
  simp only at h
  split_ifs at h with hsame hlt
  · obtain rfl := Option.some.inj h
    rw [hsame, ← hx]
    exact (set_eq_self _ _).symm
  · exact (Option.some.inj h).symm

end FdTable

end SystemProgramming
