import Mathlib.Algebra.Order.BigOperators.Group.Finset
import Mathlib.Data.List.Basic
import Mathlib.Logic.Function.Basic

/-!
# Runs of a labelled step function

The semantics every program of the repository is given here: a state, and a
partial function `step` that answers a label – which thread moves, and what the
kernel replies to the call it makes – with the next state, or with `none` when
the label is not possible there. Nothing in this file mentions a program.

A *run* is the replay of a list of labels (`SystemProgramming.Runs.run`). A list
is a whole schedule: quantifying over it quantifies over every interleaving and
every pattern of replies at once, and a concrete one can be evaluated.

The rules the developments use are

* `SystemProgramming.Runs.run_invariant`: what one step preserves, a run preserves;
  `SystemProgramming.Runs.run_history` is the same for what is said of the labels, too;
* `SystemProgramming.Runs.Every.invariant`: the same for the runs all of whose
  steps meet a condition, which is how a program that is right only under a
  condition is stated to be right;
* `SystemProgramming.Runs.Every.or_broken`: a run meets a condition all along, or
  what the first step that does not meet it brings about lasts to the end;
* `SystemProgramming.Runs.good_iff_every`: the end of a run is good exactly if every step met a
  condition; `SystemProgramming.Runs.every_congr`: where that condition says the same as another;
* `SystemProgramming.Runs.every_iff_of_break`: a run meets a condition all along exactly when
  all the states it comes through are good; `SystemProgramming.Runs.every_iff_of_loss`: exactly when
  nothing has been lost at its end;
* `SystemProgramming.Runs.exists_run_of_measure`: a program that can always move
  and whose moves make a measure fall does end;
  `SystemProgramming.Runs.Every.length_le`: none of its runs is longer than the measure;
* `SystemProgramming.Runs.eq_of_mem_used`: where a program uses one value only, nothing else is
  ever used, and `SystemProgramming.Runs.forall_used_iff` asks for that value only;
* `SystemProgramming.Runs.Reaches`: some run leads from one state to another. Where there is
  nothing to choose, the end is the same in all runs
  (`SystemProgramming.Runs.Reaches.unique`).
-/

namespace SystemProgramming

namespace Runs

variable {σ ι : Type*} {step : σ → ι → Option σ}

/-- The replay of a list of labels, `none` as soon as one of them is not
possible. -/
def run (step : σ → ι → Option σ) : σ → List ι → Option σ
  | s, [] => some s
  | s, i :: is => (step s i).bind fun t => run step t is

@[simp] theorem run_nil (s : σ) : run step s [] = some s := rfl

theorem run_cons (s : σ) (i : ι) (is : List ι) :
    run step s (i :: is) = (step s i).bind fun t => run step t is := rfl

theorem run_cons_eq_some {s u : σ} {i : ι} {is : List ι} :
    run step s (i :: is) = some u ↔ ∃ t, step s i = some t ∧ run step t is = some u := by
  rw [run_cons, Option.bind_eq_some_iff]

theorem run_append (s : σ) (is js : List ι) :
    run step s (is ++ js) = (run step s is).bind fun t => run step t js := by
  induction is generalizing s with
  | nil => rfl
  | cons i is ih => simp only [List.cons_append, run_cons, Option.bind_assoc, ih]

/-- **A map that commutes with the steps commutes with the runs.** -/
theorem run_map {τ : Type*} {step' : τ → ι → Option τ} {f : σ → τ}
    (h : ∀ s i, step' (f s) i = (step s i).map f) (s : σ) (is : List ι) :
    run step' (f s) is = (run step s is).map f := by
  induction is generalizing s with
  | nil => rfl
  | cons i is ih =>
    rw [run_cons, run_cons, h]
    cases step s i with
    | none => rfl
    | some t => exact ih t

/-- **The invariant rule**: what every step preserves holds at the end of every
run. -/
theorem run_invariant {P : σ → Prop} (hstep : ∀ s i t, P s → step s i = some t → P t) :
    ∀ {is : List ι} {s t : σ}, P s → run step s is = some t → P t
  | [], s, t, hs, h => by
    obtain rfl : s = t := by simpa using h
    exact hs
  | i :: is, s, t, hs, h => by
    obtain ⟨u, hu, hrest⟩ := run_cons_eq_some.mp h
    exact run_invariant hstep (hstep s i u hs hu) hrest

/-- **The invariant rule with the history**: what every step preserves of the labels so far and the
state, a run preserves. -/
theorem run_history {P : List ι → σ → Prop}
    (hstep : ∀ is s i t, P is s → step s i = some t → P (is ++ [i]) t) {is : List ι} {s t : σ}
    (hs : P [] s) (h : run step s is = some t) : P is t := by
  have hfrom : ∀ (is js : List ι) (s : σ), P js s → run step s is = some t → P (js ++ is) t := by
    intro is
    induction is with
    | nil =>
      intro js s hs h
      obtain rfl : s = t := Option.some.inj h
      rwa [List.append_nil]
    | cons i is ih =>
      intro js s hs h
      obtain ⟨u, hu, hrest⟩ := run_cons_eq_some.mp h
      have hnext := ih (js ++ [i]) u (hstep js s i u hs hu) hrest
      rwa [List.append_assoc, List.singleton_append] at hnext
  exact hfrom is [] s hs h

/-- **The rule of the mark**: a property that the steps keep, and that only the labels of
one kind bring about, holds at the end of a run if it held at its start or there is such
a label in it. -/
theorem run_mark {P Q : σ → Prop} {A D : ι → Prop}
    (hstep : ∀ s i t, P s → A i → step s i = some t → P t ∧ (Q t ↔ Q s ∨ D i)) :
    ∀ {is : List ι} {s t : σ}, P s → (∀ i ∈ is, A i) → run step s is = some t →
      P t ∧ (Q t ↔ Q s ∨ ∃ i ∈ is, D i)
  | [], s, t, hs, _, h => by
    obtain rfl : s = t := by simpa using h
    exact ⟨hs, by simp⟩
  | i :: is, s, t, hs, hA, h => by
    obtain ⟨u, hu, hrest⟩ := run_cons_eq_some.mp h
    obtain ⟨hi, his⟩ := List.forall_mem_cons.mp hA
    obtain ⟨hPu, hQu⟩ := hstep s i u hs hi hu
    obtain ⟨hPt, hQt⟩ := run_mark hstep hPu his hrest
    refine ⟨hPt, ?_⟩
    rw [hQt, hQu, List.exists_mem_cons_iff, or_assoc]

/-! ### One value in use -/

/-- Where no step changes the value `val`, and the steps put nothing else in the list `used`,
nothing else gets there. -/
theorem eq_of_mem_used {κ : Type*} (val : σ → κ) (used : σ → List κ)
    (hstep : ∀ s i t, step s i = some t → val t = val s ∧ ∀ y ∈ used t, y = val s ∨ y ∈ used s)
    {is : List ι} {s t : σ} (hs : used s = []) (h : run step s is = some t) :
    ∀ y ∈ used t, y = val s := by
  have hstart : val s = val s ∧ ∀ y ∈ used s, y = val s :=
    ⟨rfl, fun y hy => absurd hy (by rw [hs]; exact List.not_mem_nil)⟩
  refine (run_invariant (P := fun u => val u = val s ∧ ∀ y ∈ used u, y = val s) ?_ hstart h).2
  rintro u i v ⟨hval, hused⟩ hst
  obtain ⟨hval', hused'⟩ := hstep u i v hst
  refine ⟨hval'.trans hval, fun y hy => ?_⟩
  rcases hused' y hy with heq | hmem
  · exact heq.trans hval
  · exact hused y hmem

/-- Where one value only is ever used, and is used in some run, all that is used has a property
exactly if that value has it. -/
theorem forall_used_iff {κ : Type*} (used : σ → List κ) {x : κ} {P : κ → Prop}
    {R : List ι → σ → Prop} (hone : ∀ is s, R is s → ∀ y ∈ used s, y = x)
    (huse : ∃ is s, R is s ∧ x ∈ used s) :
    (∀ is s, R is s → ∀ y ∈ used s, P y) ↔ P x := by
  constructor
  · intro h
    obtain ⟨is, s, hR, hx⟩ := huse
    exact h is s hR x hx
  · rintro hx is s hR y hy
    rw [hone is s hR y hy]
    exact hx

/-! ### What is reached -/

/-- Some run leads from `s` to `t`. -/
def Reaches (step : σ → ι → Option σ) (s t : σ) : Prop := ∃ is, run step s is = some t

theorem Reaches.refl (s : σ) : Reaches step s s := ⟨[], rfl⟩

theorem Reaches.single {s t : σ} {i : ι} (h : step s i = some t) : Reaches step s t :=
  ⟨[i], run_cons_eq_some.mpr ⟨t, h, rfl⟩⟩

theorem Reaches.trans {s t u : σ} (h : Reaches step s t) (h' : Reaches step t u) :
    Reaches step s u := by
  obtain ⟨is, his⟩ := h
  obtain ⟨js, hjs⟩ := h'
  exact ⟨is ++ js, by rw [run_append, his, Option.bind_some, hjs]⟩

theorem Reaches.head {s t u : σ} {i : ι} (h : step s i = some t) (h' : Reaches step t u) :
    Reaches step s u :=
  (Reaches.single h).trans h'

/-- **Without a choice, there is one way**: of two states that are reached, one is on the way to
the other. -/
theorem Reaches.total [Subsingleton ι] {s t u : σ} (ht : Reaches step s t)
    (hu : Reaches step s u) : Reaches step t u ∨ Reaches step u t := by
  obtain ⟨is, his⟩ := ht
  obtain ⟨js, hjs⟩ := hu
  induction is generalizing s js with
  | nil =>
    obtain rfl : s = t := Option.some.inj his
    exact Or.inl ⟨js, hjs⟩
  | cons i is ih =>
    cases js with
    | nil =>
      obtain rfl : s = u := Option.some.inj hjs
      exact Or.inr ⟨i :: is, his⟩
    | cons j js =>
      obtain ⟨v, hv, hrest⟩ := run_cons_eq_some.mp his
      obtain ⟨w, hw, hrest'⟩ := run_cons_eq_some.mp hjs
      obtain rfl : i = j := Subsingleton.elim i j
      obtain rfl : v = w := Option.some.inj (hv.symm.trans hw)
      exact ih hrest js hrest'

/-- What cannot move stays where it is. -/
theorem Reaches.eq_of_end {t u : σ} (h : Reaches step t u) (hend : ∀ i, step t i = none) :
    t = u := by
  obtain ⟨is, his⟩ := h
  cases is with
  | nil => exact Option.some.inj his
  | cons i is =>
    obtain ⟨v, hv, -⟩ := run_cons_eq_some.mp his
    exact absurd ((hend i).symm.trans hv) (by simp)

/-- **Without a choice, there is one end.** -/
theorem Reaches.unique [Subsingleton ι] {s t u : σ} (ht : Reaches step s t)
    (hu : Reaches step s u) (hend : ∀ i, step t i = none) (hend' : ∀ i, step u i = none) :
    t = u :=
  (ht.total hu).elim (fun h => h.eq_of_end hend) fun h => (h.eq_of_end hend').symm

/-- **Without a choice, the end is behind every state that is reached.** -/
theorem Reaches.to_end [Subsingleton ι] {s t u : σ} (ht : Reaches step s t)
    (hu : Reaches step s u) (hend : ∀ i, step u i = none) : Reaches step t u := by
  rcases ht.total hu with h | h
  · exact h
  · obtain rfl := h.eq_of_end hend
    exact Reaches.refl u

/-- What no step makes less is not less at the end. -/
theorem Reaches.le {μ : σ → ℕ} (hstep : ∀ s i t, step s i = some t → μ s ≤ μ t) {s t : σ}
    (h : Reaches step s t) : μ s ≤ μ t := by
  obtain ⟨is, his⟩ := h
  exact run_invariant (P := fun x => μ s ≤ μ x) (fun x i y hx hst => hx.trans (hstep x i y hst))
    le_rfl his

/-- What does not hold at the start and holds in the end begins to hold at some step on the way. -/
theorem Reaches.exists_change {Q : σ → Prop} {s t : σ} (h : Reaches step s t) (hs : ¬Q s)
    (ht : Q t) : ∃ u i v, Reaches step s u ∧ step u i = some v ∧ ¬Q u ∧ Q v := by
  obtain ⟨is, his⟩ := h
  induction is generalizing s with
  | nil =>
    obtain rfl : s = t := Option.some.inj his
    exact absurd ht hs
  | cons i is ih =>
    obtain ⟨v, hv, hrest⟩ := run_cons_eq_some.mp his
    by_cases hQ : Q v
    · exact ⟨s, i, v, Reaches.refl s, hv, hs, hQ⟩
    · obtain ⟨u, j, w, hreach, hrest'⟩ := ih hQ hrest
      exact ⟨u, j, w, Reaches.head hv hreach, hrest'⟩

/-! ### Runs whose steps meet a condition -/

/-- Every step of the run from `s` along the labels meets the condition `G`. -/
def Every (step : σ → ι → Option σ) (G : σ → ι → Prop) : σ → List ι → Prop
  | _, [] => True
  | s, i :: is => G s i ∧ ∀ t, step s i = some t → Every step G t is

variable {G : σ → ι → Prop}

@[simp] theorem every_nil (s : σ) : Every step G s [] := trivial

theorem every_cons {s t : σ} {i : ι} {is : List ι} (h : step s i = some t) :
    Every step G s (i :: is) ↔ G s i ∧ Every step G t is := by
  constructor
  · rintro ⟨hG, hrest⟩
    exact ⟨hG, hrest t h⟩
  · rintro ⟨hG, hrest⟩
    refine ⟨hG, fun u hu => ?_⟩
    obtain rfl : t = u := Option.some.inj (h.symm.trans hu)
    exact hrest

/-- Whether the steps of a run meet a condition is decided by replaying it. -/
instance decidableEvery [∀ s i, Decidable (G s i)] :
    ∀ (is : List ι) (s : σ), Decidable (Every step G s is)
  | [], _ => isTrue trivial
  | i :: is, s =>
    match hst : step s i with
    | none => decidable_of_iff (G s i)
        ⟨fun h => ⟨h, fun t ht => absurd (hst.symm.trans ht) (by simp)⟩, fun h => h.1⟩
    | some t =>
      haveI := decidableEvery is t
      decidable_of_iff (G s i ∧ Every step G t is) (every_cons hst).symm

/-- **The invariant rule under a condition**: what the steps meeting the
condition preserve holds at the end of every run made of such steps. -/
theorem Every.invariant {P : σ → Prop}
    (hstep : ∀ s i t, P s → G s i → step s i = some t → P t) :
    ∀ {is : List ι} {s t : σ}, Every step G s is → P s → run step s is = some t → P t
  | [], s, t, _, hs, h => by
    obtain rfl : s = t := by simpa using h
    exact hs
  | i :: is, s, t, hG, hs, h => by
    obtain ⟨u, hu, hrest⟩ := run_cons_eq_some.mp h
    obtain ⟨hGi, hGis⟩ := (every_cons hu).mp hG
    exact Every.invariant hstep hGis (hstep s i u hs hGi hu) hrest

/-- Two conditions met at every step are met together. -/
theorem Every.and {G' : σ → ι → Prop} {is : List ι} {s : σ} (h : Every step G s is)
    (h' : Every step G' s is) : Every step (fun s i => G s i ∧ G' s i) s is := by
  induction is generalizing s with
  | nil => trivial
  | cons i is ih => exact ⟨⟨h.1, h'.1⟩, fun t ht => ih (h.2 t ht) (h'.2 t ht)⟩

theorem Every.imp {G' : σ → ι → Prop} {is : List ι} {s : σ} (h : Every step G s is)
    (himp : ∀ s i, G s i → G' s i) : Every step G' s is := by
  induction is generalizing s with
  | nil => trivial
  | cons i is ih => exact ⟨himp s i h.1, fun t ht => ih (h.2 t ht)⟩

/-- **A map that commutes with the steps, and keeps the condition**, keeps it along the
whole run. -/
theorem every_map {τ : Type*} {step' : τ → ι → Option τ} {G' : τ → ι → Prop} {f : σ → τ}
    (h : ∀ s i, step' (f s) i = (step s i).map f) (hG : ∀ s i, G' (f s) i ↔ G s i) (s : σ)
    (is : List ι) : Every step' G' (f s) is ↔ Every step G s is := by
  induction is generalizing s with
  | nil => exact Iff.rfl
  | cons i is ih =>
    have hrest : (∀ t, step' (f s) i = some t → Every step' G' t is) ↔
        ∀ t, step s i = some t → Every step G t is := by
      rw [h]
      cases step s i with
      | none => simp
      | some u => simpa using ih u
    exact and_congr (hG s i) hrest

/-- A run meets a condition exactly if its first part does and so does the rest. -/
theorem every_append {is js : List ι} {s t : σ} (hrun : run step s is = some t) :
    Every step G s (is ++ js) ↔ Every step G s is ∧ Every step G t js := by
  induction is generalizing s with
  | nil =>
    obtain rfl := Option.some.inj hrun
    exact (iff_of_eq (true_and _)).symm
  | cons i is ih =>
    obtain ⟨u, hu, hrest⟩ := run_cons_eq_some.mp hrun
    rw [List.cons_append, every_cons hu, every_cons hu, ih hrest, and_assoc]

/-- A condition on the labels alone holds along the whole run. -/
theorem every_of_forall {D : ι → Prop} {is : List ι} (h : ∀ i ∈ is, D i) (s : σ) :
    Every step (fun _ i => D i) s is := by
  induction is generalizing s with
  | nil => trivial
  | cons i is ih =>
    exact ⟨h i List.mem_cons_self, fun t _ => ih (fun j hj => h j (List.mem_cons_of_mem _ hj)) t⟩

/-- A condition on the labels alone that the steps of a run meet holds of them. -/
theorem forall_of_every {D : ι → Prop} {is : List ι} {s t : σ}
    (h : Every step (fun _ i => D i) s is) (hrun : run step s is = some t) : ∀ i ∈ is, D i := by
  induction is generalizing s with
  | nil => exact fun i hi => by cases hi
  | cons j is ih =>
    obtain ⟨u, hu, hrest⟩ := run_cons_eq_some.mp hrun
    obtain ⟨hj, his⟩ := (every_cons hu).mp h
    exact List.forall_mem_cons.mpr ⟨hj, ih his hrest⟩

/-- **The rule of the first break**: where `P` is an invariant, a step that does not
meet the condition `G` brings about `Q`, and `Q` lasts, a run meets `G` at every
step or ends in `Q`. -/
theorem Every.or_broken {P Q : σ → Prop} {D : σ → ι → Prop}
    (hP : ∀ s i t, P s → D s i → step s i = some t → P t)
    (hbreak : ∀ s i t, P s → D s i → ¬G s i → step s i = some t → Q t)
    (hkeep : ∀ s i t, P s → Q s → D s i → step s i = some t → Q t) :
    ∀ {is : List ι} {s t : σ}, Every step D s is → P s → run step s is = some t →
      Every step G s is ∨ Q t
  | [], _, _, _, _, _ => Or.inl trivial
  | i :: is, s, t, hD, hs, h => by
    obtain ⟨u, hu, hrest⟩ := run_cons_eq_some.mp h
    obtain ⟨hDi, hDis⟩ := (every_cons hu).mp hD
    have hPu : P u := hP s i u hs hDi hu
    by_cases hG : G s i
    · rcases Every.or_broken hP hbreak hkeep hDis hPu hrest with hE | hQ
      · exact Or.inl ((every_cons hu).mpr ⟨hG, hE⟩)
      · exact Or.inr hQ
    · have hboth : ∀ x j y, P x ∧ Q x → D x j → step x j = some y → P y ∧ Q y :=
        fun x j y hx hDj hst => ⟨hP x j y hx.1 hDj hst, hkeep x j y hx.1 hx.2 hDj hst⟩
      exact Or.inr (hDis.invariant hboth ⟨hPu, hbreak s i u hs hDi hG hu⟩ hrest).2

/-- **The rule of the exact step**: where, on the way to an end of the kind `W`, a state is good
exactly if the one before it was and the step met `G`, such an end is good exactly if the start was
and every step of the run met `G`. -/
theorem good_iff_every {P W Q : σ → Prop} (hP : ∀ s i t, P s → step s i = some t → P t)
    (hW : ∀ s i t, P s → step s i = some t → W t → W s)
    (hQ : ∀ s i t, P s → step s i = some t → W t → (Q t ↔ Q s ∧ G s i)) :
    ∀ {is : List ι} {s t : σ}, P s → run step s is = some t → W t →
      W s ∧ (Q t ↔ Q s ∧ Every step G s is)
  | [], s, t, _, h, hWt => by
    obtain rfl : s = t := Option.some.inj h
    exact ⟨hWt, (and_iff_left trivial).symm⟩
  | i :: is, s, t, hs, h, hWt => by
    obtain ⟨u, hu, hrest⟩ := run_cons_eq_some.mp h
    obtain ⟨hWu, hiff⟩ := good_iff_every hP hW hQ (hP s i u hs hu) hrest hWt
    refine ⟨hW s i u hs hu hWu, ?_⟩
    rw [hiff, hQ s i u hs hu hWu, every_cons hu, and_assoc]

/-- Two conditions that say the same wherever an invariant of the steps meeting the first holds are
met by the same runs. -/
theorem every_congr {P : σ → Prop} {D G' : σ → ι → Prop}
    (hP : ∀ s i t, P s → D s i → G s i → step s i = some t → P t)
    (hG : ∀ s i t, P s → D s i → step s i = some t → (G s i ↔ G' s i)) :
    ∀ {is : List ι} {s t : σ}, Every step D s is → P s → run step s is = some t →
      (Every step G s is ↔ Every step G' s is)
  | [], _, _, _, _, _ => Iff.rfl
  | i :: is, s, t, hD, hs, h => by
    obtain ⟨u, hu, hrest⟩ := run_cons_eq_some.mp h
    obtain ⟨hDi, hDis⟩ := (every_cons hu).mp hD
    rw [every_cons hu, every_cons hu, ← hG s i u hs hDi hu]
    exact and_congr_right fun hGi => every_congr hP hG hDis (hP s i u hs hDi hGi hu) hrest

/-- **The rule of the exact condition**: where the steps that meet `G` keep an invariant that
implies `Q`, and a step that does not meet `G` leads out of `Q`, a run meets `G` at every step
exactly when `Q` holds in every state it comes through. -/
theorem every_iff_of_break {P Q : σ → Prop} (hP : ∀ s i t, P s → G s i → step s i = some t → P t)
    (hQ : ∀ s, P s → Q s) (hbreak : ∀ s i t, P s → ¬G s i → step s i = some t → ¬Q t) :
    ∀ {is : List ι} {s t : σ}, P s → run step s is = some t →
      (Every step G s is ↔ ∀ js u, js <+: is → run step s js = some u → Q u)
  | [], s, t, hs, _ => by
    refine iff_of_true trivial fun js u hjs hu => ?_
    obtain rfl := List.prefix_nil.mp hjs
    obtain rfl : s = u := Option.some.inj hu
    exact hQ s hs
  | i :: is, s, t, hs, h => by
    obtain ⟨v, hv, hrest⟩ := run_cons_eq_some.mp h
    by_cases hG : G s i
    · have hPv : P v := hP s i v hs hG hv
      rw [every_cons hv, and_iff_right hG, every_iff_of_break hP hQ hbreak hPv hrest]
      constructor
      · rintro hall js u hjs hu
        rcases List.prefix_cons_iff.mp hjs with rfl | ⟨js, rfl, -⟩
        · obtain rfl : s = u := Option.some.inj hu
          exact hQ s hs
        · obtain ⟨w, hw, hrest'⟩ := run_cons_eq_some.mp hu
          obtain rfl : v = w := Option.some.inj (hv.symm.trans hw)
          exact hall js u ((List.prefix_cons_inj i).mp hjs) hrest'
      · rintro hall js u hjs hu
        exact hall (i :: js) u ((List.prefix_cons_inj i).mpr hjs)
          (run_cons_eq_some.mpr ⟨v, hv, hu⟩)
    · refine iff_of_false (fun hE => hG hE.1) fun hall => hbreak s i v hs hG hv ?_
      exact hall [i] v ⟨is, rfl⟩ (run_cons_eq_some.mpr ⟨v, hv, rfl⟩)

/-- **The rule of the exact loss**: where the steps that meet `G` leave a quantity as it is and the
others make it less, a run meets `G` at every step exactly when the quantity is at its end what it
was at its start. -/
theorem every_iff_of_loss {P : σ → Prop} {μ : σ → ℤ}
    (hP : ∀ s i t, P s → step s i = some t → P t)
    (hG : ∀ s i t, P s → G s i → step s i = some t → μ t = μ s)
    (hbreak : ∀ s i t, P s → ¬G s i → step s i = some t → μ t < μ s) :
    ∀ {is : List ι} {s t : σ}, P s → run step s is = some t →
      μ t ≤ μ s ∧ (Every step G s is ↔ μ t = μ s)
  | [], s, t, _, h => by
    obtain rfl : s = t := Option.some.inj h
    exact ⟨le_rfl, iff_of_true trivial rfl⟩
  | i :: is, s, t, hs, h => by
    obtain ⟨u, hu, hrest⟩ := run_cons_eq_some.mp h
    obtain ⟨hle, hiff⟩ := every_iff_of_loss hP hG hbreak (hP s i u hs hu) hrest
    rw [every_cons hu, hiff]
    by_cases hGi : G s i
    · have heq := hG s i u hs hGi hu
      exact ⟨hle.trans heq.le, by rw [and_iff_right hGi, heq]⟩
    · have hlt := hbreak s i u hs hGi hu
      exact ⟨hle.trans hlt.le, iff_of_false (fun h => hGi h.1) (hle.trans_lt hlt).ne⟩

/-- **Termination**: where an invariant keeps the program able to move until it
is final, by steps meeting the condition that make a measure fall, some run of
such steps ends in a final state. -/
theorem exists_run_of_measure {P F : σ → Prop} (μ : σ → ℕ)
    (hmove : ∀ s, P s → ¬F s → ∃ i t, G s i ∧ step s i = some t ∧ P t ∧ μ t < μ s) :
    ∀ s, P s → ∃ is t, Every step G s is ∧ run step s is = some t ∧ P t ∧ F t := by
  intro s
  induction hn : μ s using Nat.strong_induction_on generalizing s with
  | _ n ih =>
    intro hP
    by_cases hF : F s
    · exact ⟨[], s, trivial, rfl, hP, hF⟩
    · obtain ⟨i, t, hGi, hst, hPt, hlt⟩ := hmove s hP hF
      obtain ⟨is, u, hG, hrun, hPu, hFu⟩ := ih (μ t) (hn ▸ hlt) t rfl hPt
      refine ⟨i :: is, u, (every_cons hst).mpr ⟨hGi, hG⟩, ?_, hPu, hFu⟩
      exact run_cons_eq_some.mpr ⟨t, hst, hrun⟩

/-- A run of steps that all make a measure fall is no longer than the measure. -/
theorem Every.length_le {P : σ → Prop} (μ : σ → ℕ)
    (hstep : ∀ s i t, P s → G s i → step s i = some t → P t ∧ μ t < μ s) :
    ∀ {is : List ι} {s t : σ}, Every step G s is → P s → run step s is = some t →
      is.length ≤ μ s
  | [], _, _, _, _, _ => Nat.zero_le _
  | i :: is, s, t, hG, hs, h => by
    obtain ⟨u, hu, hrest⟩ := run_cons_eq_some.mp h
    obtain ⟨hGi, hGis⟩ := (every_cons hu).mp hG
    obtain ⟨hPu, hlt⟩ := hstep s i u hs hGi hu
    exact (Nat.succ_le_succ (Every.length_le μ hstep hGis hPu hrest)).trans hlt

/-- What holds of every thread still holds when one of them moves, if it holds of where that
one comes to. -/
theorem forall_update {τ κ : Type*} [DecidableEq τ] {P : τ → κ → Prop} {pc : τ → κ} {t : τ} {p : κ}
    (h : ∀ u, P u (pc u)) (hp : P t p) (u : τ) : P u (Function.update pc t p u) :=
  (Function.forall_update_iff pc P).mpr ⟨hp, fun u _ => h u⟩ u

/-- What one thread has left gets less, so what all have left together does. -/
theorem sum_update_lt {κ : Type*} {f : ℕ → κ → ℕ} {n t : ℕ} {pc : ℕ → κ} {p : κ} (ht : t < n)
    (hlt : f t p < f t (pc t)) :
    ∑ u ∈ Finset.range n, f u (Function.update pc t p u) < ∑ u ∈ Finset.range n, f u (pc u) := by
  refine Finset.sum_lt_sum (fun u _ => ?_) ⟨t, Finset.mem_range.mpr ht, ?_⟩
  · rcases eq_or_ne u t with rfl | hne
    · rw [Function.update_self]
      exact hlt.le
    · rw [Function.update_of_ne hne]
  · rwa [Function.update_self]

/-- What all have done together changes by what one thread does. -/
theorem sum_update_add {κ : Type*} {f : ℕ → κ → ℕ} {n t : ℕ} {pc : ℕ → κ} {p : κ} (ht : t < n) :
    ∑ u ∈ Finset.range n, f u (Function.update pc t p u) + f t (pc t) =
      ∑ u ∈ Finset.range n, f u (pc u) + f t p := by
  have hmem := Finset.mem_range.mpr ht
  have hrest : ∑ u ∈ (Finset.range n).erase t, f u (Function.update pc t p u) =
      ∑ u ∈ (Finset.range n).erase t, f u (pc u) :=
    Finset.sum_congr rfl fun u hu => by rw [Function.update_of_ne (Finset.ne_of_mem_erase hu)]
  rw [← Finset.sum_erase_add _ _ hmem, ← Finset.sum_erase_add (Finset.range n) _ hmem, hrest,
    Function.update_self]
  omega

end Runs

end SystemProgramming
