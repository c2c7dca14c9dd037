import Mathlib.Data.List.Nodup

/-!
# Contents whose bytes are all different

A program that moves bytes without looking at them can be studied on a content
whose bytes name the place they come from: where such a byte turns up says where
it was moved from. This file holds that content, over a type of labels
(`SystemProgramming.Label`), and the map that puts any other bytes back in place
of the labels (`SystemProgramming.Label.unlabel`). Nothing in it mentions a
program.

There are four places a byte can come from: the file that is read, the old
content of the file that is written, the memory an allocation returned, and a gap
in a file, which reads as zero.
-/

namespace SystemProgramming

/-- Where a byte comes from. -/
inductive Label where
  /-- A gap in a file. -/
  | zero
  /-- Position `i` of the source. -/
  | src (i : ℕ)
  /-- Position `i` of the old destination. -/
  | old (i : ℕ)
  /-- Position `j` of the memory that allocation `k` of thread `i` returned. -/
  | heap (i k j : ℕ)
  deriving DecidableEq, Repr

namespace Label

instance : Zero Label := ⟨zero⟩

/-- The labelled source of `L` bytes. -/
def srcList (L : ℕ) : List Label := (List.range L).map src

/-- The labelled old destination of `M` bytes. -/
def oldList (M : ℕ) : List Label := (List.range M).map old

@[simp] theorem length_srcList (L : ℕ) : (srcList L).length = L := by simp [srcList]

@[simp] theorem length_oldList (M : ℕ) : (oldList M).length = M := by simp [oldList]

theorem getElem?_srcList {L p : ℕ} (hp : p < L) : (srcList L)[p]? = some (src p) := by
  simp [srcList, hp]

theorem nodup_srcList (L : ℕ) : (srcList L).Nodup :=
  List.Nodup.map (fun _ _ h => src.inj h) List.nodup_range

theorem notMem_srcList (L M : ℕ) : ∀ x ∈ oldList M, x ∉ srcList L := by
  intro x hx hx'
  obtain ⟨i, -, rfl⟩ := List.mem_map.mp hx
  obtain ⟨j, -, hij⟩ := List.mem_map.mp hx'
  cases hij

/-- No position of the old destination holds a byte of the source. -/
theorem getElem?_oldList_ne {L M p q : ℕ} (hq : q < L) :
    (oldList M)[p]? ≠ (srcList L)[q]? := by
  rw [getElem?_srcList hq]
  intro h
  exact notMem_srcList L M _ (List.mem_of_getElem? h) (List.mem_of_getElem? (getElem?_srcList hq))

/-- The bytes that tell position `p` of the source from everything else. -/
def mark (p : ℕ) (x : Label) : UInt8 := if x = src p then 1 else 0

@[simp] theorem mark_zero (p : ℕ) : mark p 0 = 0 := rfl

/-- **A label that is out of place is a wrong byte**, on some content. -/
theorem getElem?_map_mark_ne {f : List Label} {L p : ℕ} (hp : p < L)
    (hne : f[p]? ≠ (srcList L)[p]?) :
    (f.map (mark p))[p]? ≠ ((srcList L).map (mark p))[p]? := by
  rw [List.getElem?_map, List.getElem?_map, getElem?_srcList hp]
  rw [getElem?_srcList hp] at hne
  rcases hfp : f[p]? with _ | x
  · simp
  · have hx : x ≠ src p := fun hx => hne (by rw [hfp, hx])
    simp [mark, hx]

variable {α : Type*} [Zero α]

/-- The bytes the labels stand for, given the contents. -/
def unlabel (s e : List α) (m : ℕ → ℕ → ℕ → α) : Label → α
  | zero => 0
  | src i => s.getD i 0
  | old i => e.getD i 0
  | heap i k j => m i k j

variable {s e : List α} {m : ℕ → ℕ → ℕ → α}

theorem map_srcList : (srcList s.length).map (unlabel s e m) = s := by
  refine List.ext_getElem? fun i => ?_
  by_cases hi : i < s.length
  · simp [srcList, unlabel, hi]
  · simp [srcList, Nat.le_of_not_lt hi]

theorem map_oldList : (oldList e.length).map (unlabel s e m) = e := by
  refine List.ext_getElem? fun i => ?_
  by_cases hi : i < e.length
  · simp [oldList, unlabel, hi]
  · simp [oldList, Nat.le_of_not_lt hi]

end Label

end SystemProgramming
