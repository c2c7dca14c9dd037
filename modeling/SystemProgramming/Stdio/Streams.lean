import Mathlib.Data.List.Basic
import Mathlib.Logic.Function.Basic
import SystemProgramming.Runs

/-!
# Buffered streams to one file

What is put on a stream is held in its buffer and written to the file later: when the buffer is
flushed, or before, if there is more than it has room for – and how much is written then is up to
the library. Several streams can lead to one file, to whose end each of them writes, so the file
need not have their texts in the order in which these were put. Nothing here mentions a program.

Nothing is out of order as long as a stream is only written to when all others have been flushed,
and whether this is so can be read off what is done with them, without looking at any text
(`SystemProgramming.Streams.file_of_check`). Of a stream that is not flushed, and has room for all
of its text, nothing is in the file (`SystemProgramming.Streams.Same.run`).
-/

namespace SystemProgramming

namespace Streams

open Runs

variable {ι α : Type*} [DecidableEq ι]

/-- The streams, with what they hold, and their file. -/
@[ext] structure Output (ι α : Type*) where
  held : ι → List α
  file : List α

/-- What is done with a stream. -/
inductive Op (ι α : Type*) where
  | put (s : ι) (text : List α)
  | flush (s : ι)
  deriving DecidableEq, Repr

/-- The text that is put. -/
def Op.said : Op ι α → List α
  | .put _ text => text
  | .flush _ => []

/-- The stream that it is done with. -/
def Op.stream : Op ι α → ι
  | .put s _ | .flush s => s

/-- A stream with this room writes out as many bytes of a text at once: none if it has room for the
text, and enough of it otherwise. -/
def Writes (room length k : ℕ) : Prop :=
  k ≤ length ∧ (length ≤ room → k = 0) ∧ length - k ≤ room

instance (room length k : ℕ) : Decidable (Writes room length k) :=
  inferInstanceAs (Decidable (k ≤ length ∧ (length ≤ room → k = 0) ∧ length - k ≤ room))

/-- **The step function**: an operation, and how many bytes are written at once if it is a `put`. A
stream without room is not buffered at all. -/
def step (room : ι → ℕ) (w : Output ι α) : Op ι α × ℕ → Option (Output ι α)
  | (.put s text, k) =>
    if Writes (room s) (w.held s ++ text).length k then
      some ⟨Function.update w.held s ((w.held s ++ text).drop k),
        w.file ++ (w.held s ++ text).take k⟩
    else none
  | (.flush s, _) => some ⟨Function.update w.held s [], w.file ++ w.held s⟩

/-- All that is put, in its order. -/
def said (ops : List (Op ι α)) : List α := ops.flatMap Op.said

/-- A text that there is room for is held. -/
theorem put_of_fits {room : ι → ℕ} {w w' : Output ι α} {s : ι} {t : List α} {k : ℕ}
    (hfits : (w.held s ++ t).length ≤ room s) (h : step room w (.put s t, k) = some w') :
    w' = ⟨Function.update w.held s (w.held s ++ t), w.file⟩ := by
  unfold step at h
  obtain ⟨⟨-, hzero, -⟩, h⟩ := Option.ite_none_right_eq_some.mp h
  obtain rfl := hzero hfits
  rw [← Option.some.inj h, List.drop_zero, List.take_zero, List.append_nil]

/-- A stream without room writes all that it has. -/
theorem put_of_unbuffered {room : ι → ℕ} {w w' : Output ι α} {s : ι} {t : List α} {k : ℕ}
    (hroom : room s = 0) (h : step room w (.put s t, k) = some w') :
    w' = ⟨Function.update w.held s [], w.file ++ (w.held s ++ t)⟩ := by
  unfold step at h
  obtain ⟨⟨hk, -, hrest⟩, h⟩ := Option.ite_none_right_eq_some.mp h
  have hall : (w.held s ++ t).length ≤ k := by omega
  rw [← Option.some.inj h, List.drop_eq_nil_of_le hall, List.take_of_length_le hall]

/-! ### In order -/

section Order

variable {room : ι → ℕ} {w w' : Output ι α} {o : Op ι α × ℕ} {ops : List (Op ι α × ℕ)}
  {text : List α} {s : ι} {d : List ι}

/-- One stream holds what is missing in the file, and the others hold nothing. -/
def InOrder (w : Output ι α) (text : List α) : Prop :=
  ∃ s, (∀ r, r ≠ s → w.held r = []) ∧ w.file ++ w.held s = text

/-- A stream holds this, and the others hold nothing. -/
theorem update_nil {r : ι} (h : ∀ r, r ≠ s → w.held r = []) (hr : r ≠ s) (t : List α) :
    Function.update w.held s t r = [] := by
  rw [Function.update_of_ne hr]
  exact h r hr

/-- **A step in order**: a stream is written to when the others hold nothing. -/
theorem InOrder.step (h : InOrder w text)
    (htidy : ∀ s t, o.1 = .put s t → ∀ r, r ≠ s → w.held r = [])
    (hstep : step room w o = some w') : InOrder w' (text ++ o.1.said) := by
  obtain ⟨s, hothers, hfile⟩ := h
  obtain ⟨op, k⟩ := o
  cases op with
  | put r t =>
    replace htidy := htidy r t rfl
    unfold Streams.step at hstep
    obtain ⟨-, hstep⟩ := Option.ite_none_right_eq_some.mp hstep
    obtain rfl := Option.some.inj hstep
    -- the text is missing in the file only at the stream that it is put on
    have hmissing : w.file ++ w.held r = text := by
      rcases eq_or_ne s r with rfl | hne
      · exact hfile
      · rw [hothers r hne.symm]
        rwa [htidy s hne] at hfile
    refine ⟨r, fun q hq => update_nil htidy hq _, ?_⟩
    change w.file ++ _ ++ Function.update w.held r _ r = text ++ t
    rw [Function.update_self, List.append_assoc, List.take_append_drop, ← List.append_assoc,
      hmissing]
  | flush r =>
    obtain rfl := Option.some.inj hstep
    change InOrder _ (text ++ [])
    rw [List.append_nil]
    rcases eq_or_ne r s with rfl | hne
    · refine ⟨r, fun q hq => update_nil hothers hq _, ?_⟩
      change w.file ++ w.held r ++ Function.update w.held r [] r = text
      rw [Function.update_self, List.append_nil]
      exact hfile
    · refine ⟨s, fun q hq => ?_, ?_⟩
      · rcases eq_or_ne q r with rfl | hqr
        · exact Function.update_self ..
        · change Function.update w.held r [] q = []
          rw [Function.update_of_ne hqr]
          exact hothers q hq
      · change w.file ++ w.held r ++ Function.update w.held r [] s = text
        rw [Function.update_of_ne hne.symm, hothers r hne, List.append_nil]
        exact hfile

/-- **The check**: which streams may hold something after these operations, if a stream is only
written to when the others hold nothing. -/
def check (buffered : ι → Bool) : List ι → List (Op ι α) → Option (List ι)
  | d, [] => some d
  | d, .put s _ :: ops =>
    if ∀ r ∈ d, r = s then check buffered (if buffered s then [s] else []) ops else none
  | d, .flush s :: ops => check buffered (d.filter (· ≠ s)) ops

theorem check_append {buffered : ι → Bool} {d' : List ι} {os os' : List (Op ι α)}
    (h : check buffered d os = some d') :
    check buffered d (os ++ os') = check buffered d' os' := by
  induction os generalizing d with
  | nil =>
    obtain rfl := Option.some.inj h
    rfl
  | cons o os ih =>
    cases o with
    | put s t =>
      obtain ⟨honly, h⟩ := Option.ite_none_right_eq_some.mp h
      exact (if_pos honly).trans (ih h)
    | flush s => exact ih h

/-- Several texts can be put on one stream. -/
theorem check_puts {buffered : ι → Bool} (hd : ∀ r ∈ d, r = s) (ts : List (List α)) :
    ∃ d', check buffered d (ts.map (.put s)) = some d' ∧ ∀ r ∈ d', r = s := by
  induction ts generalizing d with
  | nil => exact ⟨d, rfl, hd⟩
  | cons t ts ih =>
    obtain ⟨d', hcheck, hd'⟩ := ih (d := if buffered s then [s] else []) (by
      intro r hr
      split_ifs at hr
      · exact List.mem_singleton.mp hr
      · cases hr)
    exact ⟨d', (if_pos hd).trans hcheck, hd'⟩

/-- **Texts on one stream, which is flushed.** -/
theorem check_block {buffered : ι → Bool} (hd : ∀ r ∈ d, r = s) (ts : List (List α))
    (os : List (Op ι α)) :
    check buffered d (ts.map (.put s) ++ .flush s :: os) = check buffered [] os := by
  obtain ⟨d', hcheck, hd'⟩ : ∃ d', check buffered d (ts.map (.put s)) = some d' ∧
      ∀ r ∈ d', r = s := check_puts hd ts
  have hnil : d'.filter (· ≠ s) = [] :=
    List.filter_eq_nil_iff.mpr fun r hr => by simp [hd' r hr]
  rw [check_append hcheck, check, hnil]

/-- A stream without room holds nothing after it has been written to. -/
theorem held_of_unbuffered {k : ℕ} {t : List α} (hroom : room s = 0)
    (hstep : step room w (.put s t, k) = some w') : w'.held s = [] := by
  rw [put_of_unbuffered hroom hstep]
  exact Function.update_self ..

/-- Other streams hold what they held. -/
theorem held_of_ne {r : ι} (hr : r ≠ o.1.stream) (hstep : step room w o = some w') :
    w'.held r = w.held r := by
  obtain ⟨op, k⟩ := o
  cases op with
  | put s t =>
    unfold Streams.step at hstep
    obtain ⟨-, hstep⟩ := Option.ite_none_right_eq_some.mp hstep
    obtain rfl := Option.some.inj hstep
    exact Function.update_of_ne hr ..
  | flush s =>
    obtain rfl := Option.some.inj hstep
    exact Function.update_of_ne hr ..

/-- **What passes the check is in order**, and what may hold something has been found. -/
theorem InOrder.run {buffered : ι → Bool} {d' : List ι} (h : InOrder w text)
    (hbuffered : ∀ s, buffered s = false → room s = 0) (hd : ∀ s, s ∉ d → w.held s = [])
    (hcheck : check buffered d (ops.map Prod.fst) = some d')
    (hrun : Runs.run (Streams.step room) w ops = some w') :
    InOrder w' (text ++ said (ops.map Prod.fst)) ∧ ∀ s, s ∉ d' → w'.held s = [] := by
  induction ops generalizing w text d with
  | nil =>
    obtain rfl := Option.some.inj hrun
    obtain rfl := Option.some.inj hcheck
    refine ⟨?_, hd⟩
    change InOrder w (text ++ [])
    rwa [List.append_nil]
  | cons o ops ih =>
    obtain ⟨v, hv, hrest⟩ := run_cons_eq_some.mp hrun
    have hsaid : text ++ said ((o :: ops).map Prod.fst) =
        text ++ o.1.said ++ said (ops.map Prod.fst) := (List.append_assoc ..).symm
    rw [hsaid]
    obtain ⟨op, k⟩ := o
    cases op with
    | put s t =>
      obtain ⟨honly, hcheck⟩ := Option.ite_none_right_eq_some.mp hcheck
      have hothers : ∀ r, r ≠ s → w.held r = [] := fun r hr => hd r fun hmem => hr (honly r hmem)
      refine ih (h.step (fun s' t' heq r hr => ?_) hv) (fun r hr => ?_) hcheck hrest
      · cases heq
        exact hothers r hr
      · rcases eq_or_ne r s with rfl | hne
        · cases hb : buffered r with
          | false => exact held_of_unbuffered (hbuffered r hb) hv
          | true => simp [hb] at hr
        · rw [held_of_ne hne hv]
          exact hothers r hne
    | flush s =>
      refine ih (h.step (fun s' t' heq => by cases heq) hv) (fun r hr => ?_) hcheck hrest
      rcases eq_or_ne r s with rfl | hne
      · obtain rfl := Option.some.inj hv
        exact Function.update_self ..
      · rw [held_of_ne hne hv]
        exact hd r fun hmem => hr (List.mem_filter.mpr ⟨hmem, by simpa using hne⟩)

/-- **What passes the check is in the file in its order**, if it leaves nothing behind. -/
theorem file_of_check [Nonempty ι] {buffered : ι → Bool}
    (hbuffered : ∀ s, buffered s = false → room s = 0) (hstart : ∀ s, w.held s = [])
    (hcheck : check buffered [] (ops.map Prod.fst) = some [])
    (hrun : Runs.run (Streams.step room) w ops = some w') :
    w'.file = w.file ++ said (ops.map Prod.fst) := by
  obtain ⟨s⟩ : Nonempty ι := inferInstance
  have hw : InOrder w w.file := ⟨s, fun r _ => hstart r, by rw [hstart, List.append_nil]⟩
  obtain ⟨⟨r, -, hfile⟩, hend⟩ := hw.run hbuffered (fun s _ => hstart s) hcheck hrun
  rwa [hend r List.not_mem_nil, List.append_nil] at hfile

end Order

/-! ### A stream that is not flushed -/

section Held

variable {room : ι → ℕ} {w w' v : Output ι α} {o : Op ι α × ℕ} {ops : List (Op ι α × ℕ)} {s : ι}

/-- What is put on a stream. -/
def saidOn (s : ι) (ops : List (Op ι α × ℕ)) : List α :=
  said ((ops.map Prod.fst).filter fun o => o.stream = s)

/-- What is done with the other streams. -/
def others (s : ι) (ops : List (Op ι α × ℕ)) : List (Op ι α × ℕ) :=
  ops.filter fun o => o.1.stream ≠ s

/-- Two writers are the same but for what a stream holds. -/
def Same (s : ι) (w v : Output ι α) : Prop := v.file = w.file ∧ ∀ r, r ≠ s → v.held r = w.held r

/-- A step of another stream does not depend on what this one holds. -/
theorem Same.step (h : Same s w v) (ho : o.1.stream ≠ s) (hstep : step room w o = some w') :
    ∃ v', Streams.step room v o = some v' ∧ Same s w' v' ∧ v'.held s = v.held s ∧
      w'.held s = w.held s := by
  obtain ⟨hfile, hheld⟩ := h
  obtain ⟨op, k⟩ := o
  have hsame : ∀ r, r ≠ s → ∀ t, Same s ⟨Function.update w.held r t, w.file⟩
      ⟨Function.update v.held r t, v.file⟩ := by
    refine fun r hr t => ⟨hfile, fun q hq => ?_⟩
    change Function.update v.held r t q = Function.update w.held r t q
    rcases eq_or_ne q r with rfl | hqr
    · rw [Function.update_self, Function.update_self]
    · rw [Function.update_of_ne hqr, Function.update_of_ne hqr]
      exact hheld q hq
  cases op with
  | put r t =>
    have hr : r ≠ s := ho
    unfold Streams.step at hstep
    obtain ⟨hwrites, hstep⟩ := Option.ite_none_right_eq_some.mp hstep
    obtain rfl := Option.some.inj hstep
    refine ⟨⟨Function.update v.held r ((w.held r ++ t).drop k),
      v.file ++ (w.held r ++ t).take k⟩, ?_, ⟨congrArg (· ++ _) hfile, (hsame r hr _).2⟩,
      Function.update_of_ne hr.symm _ _, Function.update_of_ne hr.symm _ _⟩
    change (if Writes (room r) (v.held r ++ t).length k then _ else _) = _
    rw [hheld r hr]
    exact if_pos hwrites
  | flush r =>
    have hr : r ≠ s := ho
    obtain rfl := Option.some.inj hstep
    refine ⟨_, rfl, ⟨?_, (hsame r hr _).2⟩, Function.update_of_ne hr.symm _ _,
      Function.update_of_ne hr.symm _ _⟩
    change v.file ++ v.held r = w.file ++ w.held r
    rw [hfile, hheld r hr]

/-- **A stream that is not flushed, and has room for all its text**, holds it, and the file is as if
nothing had been done with it. -/
theorem Same.run (h : Same s w v) (hrun : Runs.run (Streams.step room) w ops = some w')
    (hflush : ∀ o ∈ ops, o.1 ≠ .flush s) (hroom : (w.held s ++ saidOn s ops).length ≤ room s) :
    w'.held s = w.held s ++ saidOn s ops ∧
      ∃ v', Runs.run (Streams.step room) v (others s ops) = some v' ∧ Same s w' v' ∧
        v'.held s = v.held s := by
  induction ops generalizing w v with
  | nil =>
    obtain rfl := Option.some.inj hrun
    exact ⟨(List.append_nil _).symm, v, rfl, h, rfl⟩
  | cons o ops ih =>
    obtain ⟨u, hu, hrest⟩ := run_cons_eq_some.mp hrun
    have hflush' := fun x hx => hflush x (List.mem_cons_of_mem _ hx)
    by_cases ho : o.1.stream = s
    · obtain ⟨op, k⟩ := o
      cases op with
      | flush r =>
        obtain rfl : r = s := ho
        exact absurd rfl (hflush _ List.mem_cons_self)
      | put r t =>
        obtain rfl : r = s := ho
        have hsaid : saidOn r ((Op.put r t, k) :: ops) = t ++ saidOn r ops := by
          rw [saidOn, List.map_cons, List.filter_cons_of_pos (by simp [Op.stream])]
          rfl
        have hothers : others r ((Op.put r t, k) :: ops) = others r ops :=
          List.filter_cons_of_neg (by simp [Op.stream])
        rw [hsaid, ← List.append_assoc] at hroom
        rw [hsaid, hothers, ← List.append_assoc]
        have hput := put_of_fits (by rw [List.length_append] at hroom; omega) hu
        have hheld : u.held r = w.held r ++ t := by
          rw [hput]
          exact Function.update_self ..
        have hsame : Same r u v := by
          rw [hput]
          exact ⟨h.1, fun q hq => (h.2 q hq).trans (Function.update_of_ne hq ..).symm⟩
        rw [← hheld] at hroom ⊢
        exact ih hsame hrest hflush' hroom
    · obtain ⟨v', hv', hsame, hv, hw⟩ := h.step ho hu
      have hsaid : saidOn s (o :: ops) = saidOn s ops := by
        rw [saidOn, List.map_cons, List.filter_cons_of_neg (by simpa using ho)]
        rfl
      have hothers : others s (o :: ops) = o :: others s ops :=
        List.filter_cons_of_pos (by simpa using ho)
      rw [hsaid] at hroom ⊢
      rw [hothers]
      obtain ⟨hheld, v'', hv'', hsame', hback⟩ := ih hsame hrest hflush' (by rw [hw]; exact hroom)
      exact ⟨by rw [hheld, hw], v'', run_cons_eq_some.mpr ⟨v', hv', hv''⟩, hsame',
        hback.trans hv⟩

end Held

end Streams

end SystemProgramming
