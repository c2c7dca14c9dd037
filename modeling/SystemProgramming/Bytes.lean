import Mathlib.Data.List.Basic
import Mathlib.Data.List.GetD
import Mathlib.Order.MinMax

/-!
# Buffers and files as byte stores

The two stores data is moved between, over an arbitrary type `α` of bytes – the
programs copy bytes and never look at them. Nothing in this file mentions a
program.

* **A buffer** is the memory from an address on, `ℕ → α`:
  `SystemProgramming.Bytes.blit` puts data at its start, and
  `SystemProgramming.Bytes.slice` reads its first bytes. There is no end to it:
  reading more bytes than were allocated returns whatever lies there, which is
  what a machine does.
* **A file** is a list of bytes, written at an offset by
  `SystemProgramming.Bytes.overwrite`: the bytes at the offset are replaced, the
  others stay, the file grows when the data reaches past its end, and a gap
  between the old end and the offset reads as zeros.
-/

namespace SystemProgramming

namespace Bytes

variable {α β : Type*}

/-! ### Buffers -/

/-- The buffer `m` after `d` was copied to its start. -/
def blit (m : ℕ → α) (d : List α) : ℕ → α := fun i => d.getD i (m i)

/-- The first `k` bytes of the buffer `m`. -/
def slice (m : ℕ → α) (k : ℕ) : List α := (List.range k).map m

@[simp] theorem length_slice (m : ℕ → α) (k : ℕ) : (slice m k).length = k := by
  simp [slice]

theorem getElem?_slice (m : ℕ → α) (k i : ℕ) :
    (slice m k)[i]? = if i < k then some (m i) else none := by
  by_cases h : i < k
  · simp [slice, h]
  · simp [slice, h]

theorem slice_ne_nil (m : ℕ → α) {k : ℕ} (hk : 0 < k) : slice m k ≠ [] := by
  intro h
  have := congrArg List.length h
  simp at this
  omega

theorem take_slice (m : ℕ → α) {j k : ℕ} (h : j ≤ k) : (slice m k).take j = slice m j := by
  rw [slice, slice, ← List.map_take, List.take_range, Nat.min_eq_left h]

theorem blit_of_lt (m : ℕ → α) {d : List α} {i : ℕ} (h : i < d.length) :
    some (blit m d i) = d[i]? := by
  simp [blit, h]

theorem blit_of_le (m : ℕ → α) {d : List α} {i : ℕ} (h : d.length ≤ i) :
    blit m d i = m i := by
  simp [blit, h]

/-- Data copied to the start of a buffer is what its first bytes are. -/
theorem slice_blit (m : ℕ → α) {d : List α} {k : ℕ} (h : k ≤ d.length) :
    slice (blit m d) k = d.take k := by
  refine List.ext_getElem? fun i => ?_
  rw [getElem?_slice, List.getElem?_take]
  by_cases hi : i < k
  · rw [if_pos hi, if_pos hi, blit_of_lt m (lt_of_lt_of_le hi h)]
  · rw [if_neg hi, if_neg hi]

theorem blit_map (f : α → β) (m : ℕ → α) (d : List α) :
    blit (fun i => f (m i)) (d.map f) = fun i => f (blit m d i) := by
  funext i
  by_cases hi : i < d.length
  · simp [blit, hi]
  · simp [blit, Nat.le_of_not_lt hi]

theorem slice_map (f : α → β) (m : ℕ → α) (k : ℕ) :
    slice (fun i => f (m i)) k = (slice m k).map f := by
  simp [slice, Function.comp_def]

/-! ### Files -/

section Overwrite

variable [Zero α] [Zero β]

/-- The file `f` after the data `d` was written at the offset `off`. Writing no
data leaves the file as it is, wherever the offset is. -/
def overwrite (f : List α) (off : ℕ) (d : List α) : List α :=
  if d.length = 0 then f
  else f.take off ++ List.replicate (off - f.length) 0 ++ d ++ f.drop (off + d.length)

variable {f d : List α} {off : ℕ}

theorem length_overwrite (hd : d ≠ []) :
    (overwrite f off d).length = max f.length (off + d.length) := by
  have hpos : d.length ≠ 0 := fun h => hd (List.length_eq_zero_iff.mp h)
  simp only [overwrite, if_neg hpos, List.length_append, List.length_take,
    List.length_replicate, List.length_drop]
  omega

theorem length_le_length_overwrite : f.length ≤ (overwrite f off d).length := by
  by_cases hd : d = []
  · simp [overwrite, hd]
  · rw [length_overwrite hd]
    exact le_max_left _ _

/-- **What was written is there.** -/
theorem getElem?_overwrite_of_mem {i : ℕ} (h1 : off ≤ i) (h2 : i < off + d.length) :
    (overwrite f off d)[i]? = d[i - off]? := by
  have hpos : d.length ≠ 0 := by omega
  have hlen : (f.take off ++ List.replicate (off - f.length) (0 : α)).length = off := by
    simp only [List.length_append, List.length_take, List.length_replicate]
    omega
  rw [overwrite, if_neg hpos, List.append_assoc, List.getElem?_append_right (by omega), hlen,
    List.getElem?_append_left (by omega)]

/-- **Nothing else changed** below the old end of the file. -/
theorem getElem?_overwrite_of_lt {i : ℕ} (h : i < off ∨ off + d.length ≤ i)
    (hi : i < f.length) : (overwrite f off d)[i]? = f[i]? := by
  rw [overwrite]
  split_ifs with hpos
  · rfl
  · rcases h with h | h
    · rw [List.append_assoc, List.append_assoc,
        List.getElem?_append_left (by rw [List.length_take]; omega), List.getElem?_take,
        if_pos h]
    · have hlen : (f.take off ++ List.replicate (off - f.length) (0 : α) ++ d).length =
          off + d.length := by
        simp only [List.length_append, List.length_take, List.length_replicate]
        omega
      rw [List.getElem?_append_right (by omega), hlen, List.getElem?_drop]
      congr 1
      omega

/-- Nothing changed past the data, the end of the file included. -/
theorem getElem?_overwrite_of_ge {i : ℕ} (h : off + d.length ≤ i) :
    (overwrite f off d)[i]? = f[i]? := by
  rcases Nat.lt_or_ge i f.length with hi | hi
  · exact getElem?_overwrite_of_lt (Or.inr h) hi
  · by_cases hd : d = []
    · simp [overwrite, hd]
    · have hlen : (overwrite f off d).length ≤ i := by
        rw [length_overwrite hd]
        omega
      rw [List.getElem?_eq_none hlen, List.getElem?_eq_none hi]

/-- A gap between the old end of the file and the offset reads as zeros. -/
theorem getElem?_overwrite_of_gap {i : ℕ} (hd : d ≠ []) (h : i < off) (hi : f.length ≤ i) :
    (overwrite f off d)[i]? = some 0 := by
  have hpos : d.length ≠ 0 := fun hz => hd (List.length_eq_zero_iff.mp hz)
  have htake : (f.take off).length = f.length := by
    rw [List.length_take]
    omega
  rw [overwrite, if_neg hpos, List.append_assoc, List.append_assoc,
    List.getElem?_append_right (by omega), List.getElem?_append_left (by simp; omega),
    List.getElem?_replicate, if_pos (by omega)]

/-- **What a position reads as** after a write: beyond its end a file reads as zeros, like a gap. -/
theorem getD_overwrite (f : List α) (off : ℕ) (d : List α) (p : ℕ) :
    (overwrite f off d).getD p 0 =
      if off ≤ p ∧ p < off + d.length then d.getD (p - off) 0 else f.getD p 0 := by
  simp only [List.getD_eq_getElem?_getD]
  split_ifs with hp
  · rw [getElem?_overwrite_of_mem hp.1 hp.2]
  · rcases Nat.lt_or_ge p off with hlt | hge
    · rcases Nat.lt_or_ge p f.length with hi | hi
      · rw [getElem?_overwrite_of_lt (Or.inl hlt) hi]
      · by_cases hd : d = []
        · simp [overwrite, hd]
        · rw [getElem?_overwrite_of_gap hd hlt hi, List.getElem?_eq_none hi]
          rfl
    · rw [getElem?_overwrite_of_ge (by omega)]

/-- Writing at the end of a prefix that is already right extends it. -/
theorem overwrite_take_append_drop (s g e : List α) {k : ℕ} (hk : k ≤ s.length) (hg : g ≠ [])
    (he : (s.drop k).take g.length = g) :
    overwrite (s.take k ++ e.drop k) k g =
      s.take (k + g.length) ++ e.drop (k + g.length) := by
  have hpos : g.length ≠ 0 := fun hz => hg (List.length_eq_zero_iff.mp hz)
  have hkl : (s.take k).length = k := by
    rw [List.length_take]
    omega
  have h1 : (s.take k ++ e.drop k).take k = s.take k := by
    rw [List.take_append_of_le_length (by omega), List.take_take, Nat.min_self]
  have h2 : (s.take k ++ e.drop k).drop (k + g.length) = e.drop (k + g.length) := by
    rw [List.drop_append, hkl, List.drop_eq_nil_of_le (by omega), List.nil_append,
      List.drop_drop]
    congr 1
    omega
  have h3 : k - (s.take k ++ e.drop k).length = 0 := by
    rw [List.length_append, hkl]
    omega
  rw [overwrite, if_neg hpos, h1, h2, h3, List.replicate_zero, List.append_nil, List.take_add, he]

/-- **Data written over as much data** takes its place. -/
theorem overwrite_append (p old r : List α) {off : ℕ} (hoff : off = p.length)
    (hlen : d.length = old.length) : overwrite (p ++ old ++ r) off d = p ++ d ++ r := by
  subst hoff
  rw [overwrite]
  split_ifs with hd
  · rw [hd] at hlen
    rw [List.length_eq_zero_iff.mp hd, List.length_eq_zero_iff.mp hlen.symm]
  · have hgap : p.length - (p ++ old ++ r).length = 0 := by simp
    have hdrop : (p ++ old ++ r).drop (p.length + d.length) = r := by
      rw [hlen, ← List.length_append, List.drop_left]
    have htake : (p ++ old ++ r).take p.length = p := by
      rw [List.append_assoc, List.take_left]
    rw [hgap, hdrop, htake, List.replicate_zero, List.append_nil]

/-! ### Several writes -/

/-- The file `f` after the writes `ws`, each an offset with its data, the latest
first. -/
def patch (ws : List (ℕ × List α)) (f : List α) : List α :=
  ws.foldr (fun w g => overwrite g w.1 w.2) f

/-- The position `p` is one that the write `w` puts a byte at. -/
def Covers (w : ℕ × List α) (p : ℕ) : Prop := w.1 ≤ p ∧ p < w.1 + w.2.length

instance (w : ℕ × List α) (p : ℕ) : Decidable (Covers w p) :=
  inferInstanceAs (Decidable (w.1 ≤ p ∧ p < w.1 + w.2.length))

/-- The write `w` puts down the bytes that `s` has there. -/
def Agrees (s : List α) (w : ℕ × List α) : Prop := ∀ p, Covers w p → w.2[p - w.1]? = s[p]?

variable {s : List α} {ws : List (ℕ × List α)} {p : ℕ}

@[simp] theorem patch_nil (f : List α) : patch [] f = f := rfl

@[simp] theorem patch_cons (w : ℕ × List α) (ws : List (ℕ × List α)) (f : List α) :
    patch (w :: ws) f = overwrite (patch ws f) w.1 w.2 := rfl

theorem patch_append (vs ws : List (ℕ × List α)) (f : List α) :
    patch (vs ++ ws) f = patch vs (patch ws f) :=
  List.foldr_append

/-- **Writes that agree with one content do not depend on their order**: what any
of them covers holds that content. -/
theorem getElem?_patch_of_covers (hagree : ∀ w ∈ ws, Agrees s w) (hcov : ∃ w ∈ ws, Covers w p) :
    (patch ws f)[p]? = s[p]? := by
  induction ws with
  | nil =>
    obtain ⟨w, hw, -⟩ := hcov
    cases hw
  | cons w ws ih =>
    rw [patch_cons]
    by_cases hp : Covers w p
    · rw [getElem?_overwrite_of_mem hp.1 hp.2]
      exact hagree w List.mem_cons_self p hp
    · obtain ⟨v, hv, hvp⟩ := hcov
      have hv' : v ∈ ws := (List.mem_cons.mp hv).resolve_left fun h => hp (h ▸ hvp)
      have hrest : (patch ws f)[p]? = s[p]? :=
        ih (fun x hx => hagree x (List.mem_cons_of_mem _ hx)) ⟨v, hv', hvp⟩
      rcases Nat.lt_or_ge p (patch ws f).length with hlt | hge
      · rw [getElem?_overwrite_of_lt (by rw [Covers] at hp; omega) hlt]
        exact hrest
      · -- a byte that some write covers is inside the file
        exfalso
        have hnone : s[p]? = none := hrest ▸ List.getElem?_eq_none hge
        rw [← hagree v hv p hvp, List.getElem?_eq_none_iff] at hnone
        have := hvp.1
        have := hvp.2
        omega

/-- What no write covers stays as it was. -/
theorem getElem?_patch_of_not_covers (hunc : ∀ w ∈ ws, ¬Covers w p) (hp : p < f.length) :
    (patch ws f)[p]? = f[p]? ∧ p < (patch ws f).length := by
  induction ws with
  | nil => exact ⟨rfl, hp⟩
  | cons w ws ih =>
    obtain ⟨hsame, hlt⟩ := ih fun x hx => hunc x (List.mem_cons_of_mem _ hx)
    have hw : ¬Covers w p := hunc w List.mem_cons_self
    rw [patch_cons]
    refine ⟨?_, lt_of_lt_of_le hlt length_le_length_overwrite⟩
    rw [getElem?_overwrite_of_lt (by rw [Covers] at hw; omega) hlt]
    exact hsame

/-- What no write covers beyond the old end is a gap, or still beyond the end. -/
theorem getElem?_patch_of_gap (hunc : ∀ w ∈ ws, ¬Covers w p) (hp : f.length ≤ p) :
    (patch ws f)[p]? = none ∨ (patch ws f)[p]? = some 0 := by
  induction ws with
  | nil => exact Or.inl (List.getElem?_eq_none hp)
  | cons w ws ih =>
    have hrest := ih fun x hx => hunc x (List.mem_cons_of_mem _ hx)
    have hw : ¬Covers w p := hunc w List.mem_cons_self
    rw [patch_cons]
    rcases Nat.lt_or_ge p (patch ws f).length with hlt | hge
    · rw [getElem?_overwrite_of_lt (by rw [Covers] at hw; omega) hlt]
      exact hrest
    · rcases Nat.lt_or_ge p w.1 with hbefore | hafter
      · by_cases hd : w.2 = []
        · rw [hd]
          simpa [overwrite] using hrest
        · exact Or.inr (getElem?_overwrite_of_gap hd hbefore hge)
      · rw [getElem?_overwrite_of_ge (by rw [Covers] at hw; omega)]
        exact hrest

/-- Writes that stay below a bound do not push the end of the file beyond it. -/
theorem length_patch_le {b : ℕ} (hb : ∀ w ∈ ws, w.1 + w.2.length ≤ b) :
    (patch ws f).length ≤ max f.length b := by
  induction ws with
  | nil => exact le_max_left _ _
  | cons w ws ih =>
    have hrest := ih fun x hx => hb x (List.mem_cons_of_mem _ hx)
    rw [patch_cons]
    by_cases hd : w.2 = []
    · rw [hd]
      simpa [overwrite] using hrest
    · rw [length_overwrite hd]
      exact max_le hrest ((hb w List.mem_cons_self).trans (le_max_right _ _))

/-- Writes inside the file leave its length as it is. -/
theorem length_patch (hin : ∀ w ∈ ws, w.1 + w.2.length ≤ f.length) :
    (patch ws f).length = f.length := by
  refine le_antisymm ((length_patch_le hin).trans_eq (max_self _)) ?_
  clear hin
  induction ws with
  | nil => exact le_rfl
  | cons w ws ih => exact ih.trans length_le_length_overwrite

/-- **Writes that agree with `s` and cover all of it** put it in place of as many
bytes of the file. -/
theorem patch_eq (hagree : ∀ w ∈ ws, Agrees s w) (hin : ∀ w ∈ ws, w.1 + w.2.length ≤ s.length)
    (hcov : ∀ p < s.length, ∃ w ∈ ws, Covers w p) :
    patch ws f = s ++ f.drop s.length := by
  ext1 p
  rcases Nat.lt_or_ge p s.length with hlt | hge
  · rw [getElem?_patch_of_covers hagree (hcov p hlt), List.getElem?_append_left hlt]
  · have hunc : ∀ w ∈ ws, ¬Covers w p := fun w hw hp =>
      absurd (lt_of_lt_of_le hp.2 (hin w hw)) (by omega)
    rw [List.getElem?_append_right hge, List.getElem?_drop,
      show s.length + (p - s.length) = p from by omega]
    rcases Nat.lt_or_ge p f.length with hpf | hpf
    · exact (getElem?_patch_of_not_covers hunc hpf).1
    · have hlen := length_patch_le (f := f) hin
      rw [List.getElem?_eq_none (by omega), List.getElem?_eq_none hpf]

/-- Two writes put down no byte at the same position. -/
def Apart (v w : ℕ × List α) : Prop := v.1 + v.2.length ≤ w.1 ∨ w.1 + w.2.length ≤ v.1

instance (v w : ℕ × List α) : Decidable (Apart v w) :=
  inferInstanceAs (Decidable (v.1 + v.2.length ≤ w.1 ∨ w.1 + w.2.length ≤ v.1))

omit [Zero α] in
theorem Apart.symm {v w : ℕ × List α} (h : Apart v w) : Apart w v := Or.symm h

/-- **Of writes that are apart**, each finds its bytes at the end. -/
theorem agrees_patch (hapart : ws.Pairwise Apart) : ∀ w ∈ ws, Agrees (patch ws f) w := by
  induction ws with
  | nil => exact fun w hw => by cases hw
  | cons v ws ih =>
    obtain ⟨hv, hws⟩ := List.pairwise_cons.mp hapart
    intro w hw p hp
    rw [patch_cons]
    rcases List.mem_cons.mp hw with rfl | hmem
    · exact (getElem?_overwrite_of_mem hp.1 hp.2).symm
    · have hagree := ih hws w hmem p hp
      have hlt : p < (patch ws f).length := by
        by_contra hge
        rw [List.getElem?_eq_none (Nat.le_of_not_lt hge), List.getElem?_eq_none_iff] at hagree
        rw [Covers] at hp
        omega
      have hout : p < v.1 ∨ v.1 + v.2.length ≤ p := by
        have h := hv w hmem
        rw [Apart] at h
        rw [Covers] at hp
        omega
      rw [getElem?_overwrite_of_lt hout hlt]
      exact hagree

/-- **Writes that are apart can be made in any order.** -/
theorem patch_perm {vs : List (ℕ × List α)} (hperm : ws.Perm vs) (hapart : ws.Pairwise Apart)
    (hin : ∀ w ∈ ws, w.1 + w.2.length ≤ f.length) : patch ws f = patch vs f := by
  have hagree := agrees_patch (f := f) (hapart.perm hperm fun h => h.symm)
  refine List.ext_getElem? fun p => ?_
  by_cases hcov : ∃ w ∈ ws, Covers w p
  · exact getElem?_patch_of_covers (fun w hw => hagree w (hperm.mem_iff.mp hw)) hcov
  · have hunc : ∀ w ∈ ws, ¬Covers w p := fun w hw hp => hcov ⟨w, hw, hp⟩
    have hunc' : ∀ w ∈ vs, ¬Covers w p := fun w hw => hunc w (hperm.mem_iff.mpr hw)
    rcases Nat.lt_or_ge p f.length with hlt | hge
    · rw [(getElem?_patch_of_not_covers hunc hlt).1, (getElem?_patch_of_not_covers hunc' hlt).1]
    · have hlen := length_patch_le (f := f) hin
      have hlen' := length_patch_le (f := f) fun w hw => hin w (hperm.mem_iff.mpr hw)
      rw [List.getElem?_eq_none (by omega), List.getElem?_eq_none (by omega)]

omit [Zero α] in
/-- What agrees with a write has its bytes where they were written. -/
theorem Agrees.take_drop {w : ℕ × List α} (h : Agrees s w) :
    (s.drop w.1).take w.2.length = w.2 := by
  refine List.ext_getElem? fun i => ?_
  rw [List.getElem?_take, List.getElem?_drop]
  split_ifs with hi
  · have hat := h (w.1 + i) ⟨Nat.le_add_right _ _, by omega⟩
    rw [Nat.add_sub_cancel_left] at hat
    exact hat.symm
  · rw [List.getElem?_eq_none (by omega)]

theorem overwrite_map {φ : α → β} (hφ : φ 0 = 0) (f : List α) (off : ℕ) (d : List α) :
    overwrite (f.map φ) off (d.map φ) = (overwrite f off d).map φ := by
  rw [overwrite, overwrite, List.length_map]
  split_ifs
  · rfl
  · simp [hφ, List.map_take, List.map_drop]

end Overwrite

end Bytes

end SystemProgramming
