import Mathlib.Data.List.Basic
import Mathlib.Data.List.Perm.Basic
import Mathlib.Order.Lattice

/-!
# Queues in which the least key comes first

A list of what waits, in the order of its arrival; taken from it is, of those that have the
least key, the one that has waited longest. Which keys may be taken is a predicate on them.
Nothing here mentions a program.

* One is taken as `SystemProgramming.PriorityQueue.take` says; what a removal can be is
  `SystemProgramming.PriorityQueue.take_split`.
* Whatever arrives between the removals, nothing is lost, nothing comes twice, and those of one
  key come in the order of their arrival (`SystemProgramming.PriorityQueue.Ledger`).
* When nothing arrives, the queue comes out *sorted*, and stably so
  (`SystemProgramming.PriorityQueue.Drains.eq_sorted`).
-/

namespace SystemProgramming

namespace PriorityQueue

variable {α κ : Type*} [LinearOrder κ] (key : α → κ) (p : κ → Bool)

/-- Taken is the oldest of those with the least key, if there is one that may be. -/
def take : List α → Option (α × List α)
  | [] => none
  | x :: q =>
    match take q with
    | none => if p (key x) then some (x, q) else none
    | some (y, q') => if p (key x) = true ∧ key x ≤ key y then some (x, q) else some (y, x :: q')

/-- Those with the key `k`. -/
def ofKey (k : κ) (q : List α) : List α := q.filter fun x => key x = k

variable {key p} {q q' sent taken out : List α} {x : α} {k : κ}

@[simp] theorem ofKey_nil : ofKey key k [] = [] := rfl

@[simp] theorem ofKey_append (q q' : List α) :
    ofKey key k (q ++ q') = ofKey key k q ++ ofKey key k q' := List.filter_append _ _

theorem ofKey_cons (x : α) (q : List α) :
    ofKey key k (x :: q) = if key x = k then x :: ofKey key k q else ofKey key k q := by
  simp only [ofKey, List.filter_cons, decide_eq_true_eq]

theorem mem_ofKey : x ∈ ofKey key k q ↔ x ∈ q ∧ key x = k := by simp [ofKey]

theorem ofKey_eq_nil : ofKey key k q = [] ↔ ∀ x ∈ q, key x ≠ k := by simp [ofKey]

theorem take_eq_none : take key p q = none ↔ ∀ x ∈ q, p (key x) = false := by
  induction q with
  | nil => simp [take]
  | cons x q ih =>
    rw [take, List.forall_mem_cons]
    split <;> rename_i htake
    · rw [and_iff_left (ih.mp htake)]
      simp
    · have hne : ¬∀ x ∈ q, p (key x) = false := fun h => by simp [ih.mpr h] at htake
      split_ifs <;> simp [hne]

/-- **What is taken**: it stands before all others of its key, and none that may be taken has a
smaller one. -/
theorem take_split (h : take key p q = some (x, q')) :
    ∃ l r, q = l ++ x :: r ∧ q' = l ++ r ∧ p (key x) = true ∧
      (∀ y ∈ l, p (key y) = true → key x < key y) ∧ ∀ y ∈ r, p (key y) = true → key x ≤ key y := by
  induction q generalizing x q' with
  | nil => cases h
  | cons z q ih =>
    rw [take] at h
    split at h <;> rename_i htake
    · split_ifs at h with hz
      obtain ⟨rfl, rfl⟩ := Prod.mk.inj (Option.some.inj h)
      refine ⟨[], q, rfl, rfl, hz, by simp, fun y hy hpy => ?_⟩
      rw [take_eq_none.mp htake y hy] at hpy
      cases hpy
    · rename_i y q₁
      obtain ⟨l, r, rfl, rfl, hy, hl, hr⟩ := ih htake
      split_ifs at h with hz
      · obtain ⟨rfl, rfl⟩ := Prod.mk.inj (Option.some.inj h)
        refine ⟨[], l ++ y :: r, rfl, rfl, hz.1, by simp, fun w hw hpw => ?_⟩
        rcases List.mem_append.mp hw with hwl | hwr
        · exact hz.2.trans (hl w hwl hpw).le
        · rcases List.mem_cons.mp hwr with rfl | hwr
          · exact hz.2
          · exact hz.2.trans (hr w hwr hpw)
      · obtain ⟨rfl, rfl⟩ := Prod.mk.inj (Option.some.inj h)
        refine ⟨z :: l, r, rfl, rfl, hy, fun w hw hpw => ?_, hr⟩
        rcases List.mem_cons.mp hw with rfl | hwl
        · exact lt_of_not_ge fun hle => hz ⟨hpw, hle⟩
        · exact hl w hwl hpw

/-- **Of each key, the oldest is taken**, and nothing else changes. -/
theorem take_ofKey (h : take key p q = some (x, q')) (k : κ) :
    ofKey key k q = ofKey key k [x] ++ ofKey key k q' := by
  obtain ⟨l, r, rfl, rfl, hx, hl, -⟩ := take_split h
  by_cases hk : key x = k
  · have hnil : ofKey key k l = [] := by
      refine ofKey_eq_nil.mpr fun y hy hyk => (hl y hy ?_).ne (hk.trans hyk.symm)
      rw [hyk, ← hk]
      exact hx
    simp [ofKey_cons, hnil, hk]
  · simp [ofKey_cons, hk]

/-! ### Arrivals and removals -/

variable (key) in
/-- **The ledger**: of each key, what has been sent is what has been taken and then what waits. -/
def Ledger (sent taken q : List α) : Prop :=
  ∀ k, ofKey key k sent = ofKey key k taken ++ ofKey key k q

theorem Ledger.nil : Ledger key [] [] [] := fun _ => rfl

/-- Something arrives. -/
theorem Ledger.send (h : Ledger key sent taken q) (x : α) :
    Ledger key (sent ++ [x]) taken (q ++ [x]) := by
  intro k
  rw [ofKey_append, ofKey_append, h k, List.append_assoc]

/-- Something is taken. -/
theorem Ledger.take (h : Ledger key sent taken q) (htake : take key p q = some (x, q')) :
    Ledger key sent (taken ++ [x]) q' := by
  intro k
  rw [ofKey_append, h k, take_ofKey htake k, List.append_assoc]

/-- **Nothing is lost, and nothing comes twice.** -/
theorem Ledger.perm (h : Ledger key sent taken q) : sent.Perm (taken ++ q) := by
  classical
  refine List.perm_iff_count.mpr fun a => ?_
  have hcount : ∀ l : List α, l.count a = (ofKey key (key a) l).count a := fun l =>
    (List.count_filter (by simp)).symm
  rw [hcount, h (key a), ← ofKey_append, ← hcount]

/-! ### A queue to which nothing comes -/

variable (key) in
/-- The queue sorted by its keys, those of one key as they were. -/
def sorted (q : List α) : List α := q.mergeSort fun x y => key x ≤ key y

theorem pairwise_sorted (q : List α) : (sorted key q).Pairwise fun x y => key x ≤ key y := by
  have h : (sorted key q).Pairwise fun x y => decide (key x ≤ key y) = true :=
    List.pairwise_mergeSort (fun a b c => by simpa using le_trans)
      (fun a b => by simpa using le_total _ _) q
  exact h.imp fun hle => of_decide_eq_true hle

theorem ofKey_sorted (k : κ) (q : List α) : ofKey key k (sorted key q) = ofKey key k q := by
  have hsub : (ofKey key k q).Sublist (sorted key q) := by
    refine List.sublist_mergeSort (fun a b c => by simpa using le_trans)
      (fun a b => by simpa using le_total _ _) ?_ List.filter_sublist
    refine List.pairwise_of_forall_mem_list fun x hx y hy => ?_
    rw [(mem_ofKey.mp hx).2, (mem_ofKey.mp hy).2]
    simp
  have hlen : (ofKey key k (sorted key q)).length = (ofKey key k q).length :=
    ((List.mergeSort_perm q _).filter _).length_eq
  have hself : ofKey key k (ofKey key k q) = ofKey key k q := by simp [ofKey]
  have hfilter := hsub.filter fun x => key x = k
  exact (List.Sublist.eq_of_length (hself ▸ hfilter) hlen.symm).symm

/-- A list that is sorted is known from its members of each key. -/
theorem eq_of_ofKey (h : q.Pairwise fun x y => key x ≤ key y)
    (h' : q'.Pairwise fun x y => key x ≤ key y) (heq : ∀ k, ofKey key k q = ofKey key k q') :
    q = q' := by
  induction q generalizing q' with
  | nil =>
    symm
    refine List.eq_nil_iff_forall_not_mem.mpr fun y hy => ?_
    exact ofKey_eq_nil.mp (heq (key y)).symm y hy rfl
  | cons x q ih =>
    cases q' with
    | nil => exact absurd rfl (ofKey_eq_nil.mp (heq (key x)) x List.mem_cons_self)
    | cons y q' =>
      obtain ⟨hx, hq⟩ := List.pairwise_cons.mp h
      obtain ⟨hy, hq'⟩ := List.pairwise_cons.mp h'
      -- the least key is the same on both sides, so the first of it is
      have hmem : ∀ k z, z ∈ ofKey key k (x :: q) ↔ z ∈ ofKey key k (y :: q') := fun k z => by
        rw [heq k]
      have hxy : key x ≤ key y := by
        have hin := ((hmem (key y) y).mpr (mem_ofKey.mpr ⟨List.mem_cons_self, rfl⟩))
        rcases List.mem_cons.mp (mem_ofKey.mp hin).1 with rfl | hyq
        · exact le_rfl
        · exact hx y hyq
      have hyx : key y ≤ key x := by
        have hin := ((hmem (key x) x).mp (mem_ofKey.mpr ⟨List.mem_cons_self, rfl⟩))
        rcases List.mem_cons.mp (mem_ofKey.mp hin).1 with rfl | hxq
        · exact le_rfl
        · exact hy x hxq
      have hk : key y = key x := le_antisymm hyx hxy
      have hhead := heq (key x)
      rw [ofKey_cons, ofKey_cons, if_pos rfl, if_pos hk] at hhead
      obtain ⟨rfl, -⟩ := List.cons.inj hhead
      refine congrArg _ (ih hq hq' fun k => ?_)
      have hrest := heq k
      rw [ofKey_cons, ofKey_cons] at hrest
      split_ifs at hrest with hif
      · exact (List.cons.inj hrest).2
      · exact hrest

variable (key p) in
/-- The queue `q` is taken from as long as the list `out` says, and `q'` is left. -/
inductive Drains : List α → List α → List α → Prop where
  | nil (q : List α) : Drains q [] q
  | cons {q q₁ q' out : List α} {x : α} : take key p q = some (x, q₁) → Drains q₁ out q' →
      Drains q (x :: out) q'

/-- One more is taken at the end. -/
theorem Drains.concat {q₁ : List α} (h : Drains key p q out q₁)
    (htake : take key p q₁ = some (x, q')) : Drains key p q (out ++ [x]) q' := by
  induction h with
  | nil q => exact .cons htake (.nil _)
  | cons hfirst _ ih => exact .cons hfirst (ih htake)

theorem Drains.ofKey (h : Drains key p q out q') (k : κ) :
    ofKey key k q = ofKey key k out ++ ofKey key k q' := by
  induction h with
  | nil q => rfl
  | @cons q q₁ q' out x htake _ ih =>
    rw [take_ofKey htake k, ih, ← List.append_assoc, ← ofKey_append, List.singleton_append]

theorem Drains.mem (h : Drains key p q out q') :
    ∀ y ∈ out, y ∈ q ∧ p (key y) = true := by
  induction h with
  | nil q => simp
  | cons htake _ ih =>
    obtain ⟨l, r, rfl, rfl, hx, -, -⟩ := take_split htake
    refine List.forall_mem_cons.mpr ⟨⟨by simp, hx⟩, fun y hy => ⟨?_, (ih y hy).2⟩⟩
    rcases List.mem_append.mp (ih y hy).1 with hl | hr
    · exact List.mem_append_left _ hl
    · exact List.mem_append_right _ (List.mem_cons_of_mem _ hr)

/-- What is taken comes in the order of the keys. -/
theorem Drains.pairwise (h : Drains key p q out q') : out.Pairwise fun x y => key x ≤ key y := by
  induction h with
  | nil q => exact List.Pairwise.nil
  | cons htake hrest ih =>
    refine List.pairwise_cons.mpr ⟨fun y hy => ?_, ih⟩
    obtain ⟨hmem, hp⟩ := hrest.mem y hy
    obtain ⟨l, r, rfl, rfl, -, hl, hr⟩ := take_split htake
    rcases List.mem_append.mp hmem with hyl | hyr
    · exact (hl y hyl hp).le
    · exact hr y hyr hp

/-- **A queue to which nothing comes is taken in the order of the keys**, those of one key in the
order of their arrival; what may not be taken stays as it was. -/
theorem Drains.eq_sorted (h : Drains key p q out q') (hend : take key p q' = none) :
    out = sorted key (q.filter fun x => p (key x)) ∧ q' = q.filter fun x => !p (key x) := by
  have hleft := take_eq_none.mp hend
  constructor
  · refine eq_of_ofKey h.pairwise (pairwise_sorted _) fun k => ?_
    rw [ofKey_sorted]
    have hk := h.ofKey k
    cases hp : p k with
    | true =>
      have hnil : PriorityQueue.ofKey key k q' = [] := ofKey_eq_nil.mpr fun x hx hxk => by
        have hno := hleft x hx
        rw [hxk, hp] at hno
        cases hno
      rw [hnil, List.append_nil] at hk
      rw [← hk, PriorityQueue.ofKey, PriorityQueue.ofKey, List.filter_filter]
      refine List.filter_congr fun x _ => ?_
      by_cases hxk : key x = k <;> simp [hxk, hp]
    | false =>
      have hout : PriorityQueue.ofKey key k out = [] := ofKey_eq_nil.mpr fun x hx hxk => by
        have hyes := (h.mem x hx).2
        rw [hxk, hp] at hyes
        cases hyes
      rw [hout]
      symm
      refine ofKey_eq_nil.mpr fun x hx hxk => ?_
      have hyes := (List.mem_filter.mp hx).2
      rw [hxk, hp] at hyes
      cases hyes
  · induction h with
    | nil q =>
      symm
      exact List.filter_eq_self.mpr fun x hx => by simp [hleft x hx]
    | cons htake _ ih =>
      obtain ⟨l, r, rfl, rfl, hx, -, -⟩ := take_split htake
      rw [ih hend hleft]
      simp [hx]

end PriorityQueue

end SystemProgramming
