import SystemProgramming.Signals.SigqRecv

/-!
# What gets through from the producers to the screen

The producers (`sigq_sender`) and the consumer (`sigq_recv`) of `ch12/sigq_ipc/`, together, and in
*all* runs: a handler may run while its record is displayed. What is shown is then not one message
any more – but it is not anything either. What is on the screen at one place, of one field, comes
from messages that producers have sent, in the order in which they were sent, and none comes twice
(`SystemProgramming.SigqRecv.displayed_in_order`).

The reason is that a display looks only at what has been delivered since the flag was cleared, and
that is what no display before has looked at (`SystemProgramming.SigqRecv.InOrder`): each display
has its own stretch of the deliveries, and mixes within it.
-/

namespace SystemProgramming

open HandleErr Runs

namespace SigqRecv

/-! ### What the producers have sent -/

/-- The signals that a label queues. -/
def Label.sent : Label → List SigInfo
  | .send pid uid value kill sigqueue => (sendPeer pid uid value kill sigqueue).2
  | _ => []

/-- The signals that have been sent: those for which `sigq_sender` prints that it has. -/
def sentBy (ls : List Label) : List SigInfo := ls.flatMap Label.sent

/-- What the handler has recorded of the signal. -/
def RcvData.info (r : RcvData) : SigInfo := ⟨r.senderPid, r.senderUid, r.data⟩

/-- **The account of the queue**: what has been sent has been delivered, or waits; a signal that has
killed the consumer is the only one that does neither. -/
def Account (ls : List Label) (s : System) : Prop :=
  (s.delivered.map RcvData.info ++ s.queue).Sublist (sentBy ls) ∧
    (s.ended ≠ some .killed → s.delivered.map RcvData.info ++ s.queue = sentBy ls)

/-! ### What a display looks at -/

/-- The value `v` of the field `g` is that of a message delivered after the first `n`, and not after
the first `m`. -/
def Has (delivered : List RcvData) (n m : ℕ) (g : RcvData → ℤ) (v : ℤ) : Prop :=
  ∃ i r, n ≤ i ∧ i < m ∧ delivered[i]? = some r ∧ g r = v

/-- All that the record `d` shows is of such messages, though not of the same one. -/
def Between (delivered : List RcvData) (n m : ℕ) (d : RcvData) : Prop :=
  Has delivered n m RcvData.timestamp d.timestamp ∧
    ∀ f : Field, Has delivered n m (fun r => r.get f) (d.get f)

/-- **The displays have their stretches**: each one shows messages that were delivered behind those
that are shown by the one before; the first `n` is where the last one's end. -/
inductive InOrder (delivered : List RcvData) : ℕ → List Display → Prop where
  | nil : InOrder delivered 0 []
  | concat {n m : ℕ} {ds : List Display} {d : Display} : InOrder delivered n ds → n ≤ m →
      Between delivered n m d.shown → InOrder delivered m (ds ++ [d])

section Displays

variable {delivered more : List RcvData} {n m : ℕ} {g : RcvData → ℤ} {v : ℤ} {ds : List Display}

theorem Has.append (h : Has delivered n m g v) : Has (delivered ++ more) n m g v := by
  obtain ⟨i, r, hn, hm, hget, hv⟩ := h
  refine ⟨i, r, hn, hm, ?_, hv⟩
  rw [List.getElem?_append_left (List.getElem?_eq_some_iff.mp hget).1, hget]

theorem Has.mono {m' : ℕ} (h : Has delivered n m g v) (hle : m ≤ m') : Has delivered n m' g v := by
  obtain ⟨i, r, hn, hm, hget, hv⟩ := h
  exact ⟨i, r, hn, hm.trans_le hle, hget, hv⟩

/-- What has been delivered last is behind the first `n`. -/
theorem has_last {r : RcvData} (hlast : delivered.getLast? = some r) (hlt : n < delivered.length) :
    Has delivered n delivered.length g (g r) := by
  rw [List.getLast?_eq_getElem?] at hlast
  exact ⟨delivered.length - 1, r, by omega, by omega, hlast, rfl⟩

theorem InOrder.append (h : InOrder delivered n ds) : InOrder (delivered ++ more) n ds := by
  induction h with
  | nil => exact .nil
  | concat _ hle hbetween ih =>
    exact ih.concat hle ⟨hbetween.1.append, fun f => (hbetween.2 f).append⟩

/-- **A field, read off all displays**, is read off some of the messages, in their order. -/
theorem InOrder.sublist (h : InOrder delivered n ds) (g : RcvData → ℤ)
    (hg : ∀ n m d, Between delivered n m d → Has delivered n m g (g d)) :
    (ds.map fun d => g d.shown).Sublist ((delivered.take n).map g) := by
  induction h with
  | nil => exact List.Sublist.refl _
  | @concat n m ds d _ hle hbetween ih =>
    obtain ⟨i, r, hn, hm, hget, hv⟩ := hg _ _ _ hbetween
    -- the stretch from `n` to `m` has the value of the last display
    have hsplit : delivered.take m = delivered.take n ++ (delivered.take m).drop n := by
      conv_lhs => rw [← List.take_append_drop n (delivered.take m), List.take_take,
        Nat.min_eq_left hle]
    have hmem : r ∈ (delivered.take m).drop n := by
      refine List.mem_iff_getElem?.mpr ⟨i - n, ?_⟩
      rw [List.getElem?_drop, Nat.add_sub_cancel' hn, List.getElem?_take_of_lt hm, hget]
    rw [List.map_append, hsplit, List.map_append]
    refine ih.append (List.singleton_sublist.mpr ?_)
    exact List.mem_map.mpr ⟨r, hmem, hv⟩

end Displays

/-! ### All runs -/

/-- What the display that is under way has looked at, where the consumer stands; the first `n`
deliveries are behind it. -/
def Reading (n : ℕ) (s : System) : Pc → Prop
  | .ctime => n < s.delivered.length
  | .args todo shown => n < s.delivered.length ∧
      Has s.delivered n s.delivered.length RcvData.timestamp shown.timestamp ∧
      ∀ f, f ∉ todo → Has s.delivered n s.delivered.length (fun r => r.get f) (shown.get f)
  | .clear => True
  | _ => s.dataRecvd = true → n < s.delivered.length

/-- **The invariant of all runs**: the displays have their stretches, and the flag says that there
is something behind them. -/
structure Ordered (s : System) : Prop where
  last : s.delivered ≠ [] → s.delivered.getLast? = some s.recvData
  stretch : ∃ n ≤ s.delivered.length, InOrder s.delivered n s.displayed ∧ Reading n s s.pc

section Steps

variable {s s' : System} {l : Label} {ls : List Label} {a : Answer}

theorem ordered_start : Ordered System.start :=
  ⟨fun h => absurd rfl h, 0, le_rfl, .nil, fun h => by cases h⟩

/-- The consumer goes on, and nothing has been delivered or displayed. -/
theorem Ordered.goto (h : Ordered s) {p : Pc} {flag : Bool}
    (hp : ∀ n ≤ s.delivered.length, Reading n s s.pc →
      Reading n { s with pc := p, dataRecvd := flag } p) :
    Ordered { s with pc := p, dataRecvd := flag } := by
  obtain ⟨n, hle, horder, hreading⟩ := h.stretch
  exact ⟨h.last, n, hle, horder, hp n hle hreading⟩

/-- The record is one of the messages behind the first `n`. -/
theorem Ordered.has (h : Ordered s) {n : ℕ} (hlt : n < s.delivered.length) (g : RcvData → ℤ) :
    Has s.delivered n s.delivered.length g (g s.recvData) :=
  has_last (h.last (List.ne_nil_of_length_pos (Nat.zero_lt_of_lt hlt))) hlt

/-- **A field is read**, of whatever message is there. -/
theorem Ordered.readStep (h : Ordered s) {f : Field} (hstep : readStep s f = some s') :
    Ordered s' := by
  unfold SigqRecv.readStep at hstep
  cases hpc : s.pc <;> simp only [hpc, reduceCtorEq] at hstep
  case args todo shown =>
    split_ifs at hstep
    obtain rfl := Option.some.inj hstep
    refine h.goto fun n _ hreading => ?_
    rw [hpc] at hreading
    obtain ⟨hlt, htime, hread⟩ := hreading
    refine ⟨hlt, ?_, fun g hg => ?_⟩
    · rw [RcvData.timestamp_set]
      exact htime
    · rcases eq_or_ne g f with rfl | hne
      · rw [RcvData.get_set_self]
        exact h.has hlt fun r => r.get g
      · rw [RcvData.get_set_of_ne _ _ hne]
        exact hread g fun hmem => hg ((List.mem_erase_of_ne hne).mpr hmem)

/-- **A step of the consumer.** -/
theorem Ordered.mainStep (h : Ordered s) (hstep : mainStep s a = some s') : Ordered s' := by
  unfold SigqRecv.mainStep at hstep
  cases hpc : s.pc <;> simp only [hpc] at hstep
  case sigaction =>
    obtain ⟨n, hle, horder, hreading⟩ := h.stretch
    rw [hpc] at hreading
    obtain ⟨ok, -, rfl⟩ := Option.map_eq_some_iff.mp hstep
    cases ok <;> exact ⟨h.last, n, hle, horder, hreading⟩
  case sigactionFatal =>
    obtain ⟨n, hle, horder, hreading⟩ := h.stretch
    rw [hpc] at hreading
    rcases afterFatal_cases hstep with rfl | rfl
    · exact ⟨h.last, n, hle, horder, hreading⟩
    · exact ⟨h.last, n, hle, horder, hreading⟩
  case hello =>
    cases a <;> simp only [reduceCtorEq] at hstep
    obtain rfl := Option.some.inj hstep
    exact h.goto fun n _ hreading => by rw [hpc] at hreading; exact hreading
  case sleep =>
    obtain ⟨ok, -, rfl⟩ := Option.map_eq_some_iff.mp hstep
    exact h.goto fun n _ hreading => by rw [hpc] at hreading; exact hreading
  case test =>
    cases a <;> simp only [reduceCtorEq] at hstep
    obtain rfl := Option.some.inj hstep
    refine h.goto fun n _ hreading => ?_
    rw [hpc] at hreading
    split_ifs with hflag
    · exact hreading hflag
    · exact fun hset => absurd hset hflag
  case ctime =>
    cases a <;> simp only [reduceCtorEq] at hstep
    obtain rfl := Option.some.inj hstep
    refine h.goto fun n _ hreading => ?_
    rw [hpc] at hreading
    refine ⟨hreading, h.has hreading RcvData.timestamp, fun f hf => ?_⟩
    cases f <;> simp at hf
  case args todo shown =>
    cases todo <;> cases a <;> simp only [reduceCtorEq] at hstep
    obtain rfl := Option.some.inj hstep
    obtain ⟨n, hle, horder, hreading⟩ := h.stretch
    rw [hpc] at hreading
    obtain ⟨-, htime, hread⟩ := hreading
    exact ⟨h.last, s.delivered.length, le_rfl,
      horder.concat hle ⟨htime, fun f => hread f List.not_mem_nil⟩, trivial⟩
  case clear =>
    cases a <;> simp only [reduceCtorEq] at hstep
    obtain rfl := Option.some.inj hstep
    exact h.goto fun n _ _ hflag => by cases hflag

/-- **The handler runs**, wherever the consumer is. -/
theorem Ordered.readMsg (h : Ordered s) (si : SigInfo) (tm : ℤ) : Ordered (readMsg si tm s) := by
  obtain ⟨n, hle, horder, hreading⟩ := h.stretch
  have hlen : (SigqRecv.readMsg si tm s).delivered.length = s.delivered.length + 1 :=
    List.length_append
  refine ⟨fun _ => List.getLast?_concat, n, ?_, horder.append, ?_⟩
  · exact hle.trans (hlen ▸ Nat.le_succ _)
  · change Reading n (SigqRecv.readMsg si tm s) s.pc
    have hlt : n < (SigqRecv.readMsg si tm s).delivered.length :=
      lt_of_le_of_lt hle (hlen ▸ Nat.lt_succ_self _)
    cases hpc : s.pc with
    | args todo shown =>
      rw [hpc] at hreading
      obtain ⟨-, htime, hread⟩ := hreading
      have hmore : s.delivered.length ≤ (SigqRecv.readMsg si tm s).delivered.length :=
        hlen ▸ Nat.le_succ _
      exact ⟨hlt, htime.append.mono hmore, fun f hf => (hread f hf).append.mono hmore⟩
    | clear => trivial
    | ctime => exact hlt
    | _ => exact fun _ => hlt

/-- The consumer, as it goes on, delivers nothing. -/
theorem mainStep_keeps (h : mainStep s a = some s') :
    s'.delivered = s.delivered ∧ s'.queue = s.queue := by
  rw [mainStep.eq_def] at h
  split at h
  case h_2 =>
    rcases afterFatal_cases h with rfl | rfl
    · exact ⟨rfl, rfl⟩
    · exact ⟨rfl, rfl⟩
  case h_1 =>
    obtain ⟨ok, -, rfl⟩ := Option.map_eq_some_iff.mp h
    cases ok <;> exact ⟨rfl, rfl⟩
  case h_4 =>
    obtain ⟨ok, -, rfl⟩ := Option.map_eq_some_iff.mp h
    exact ⟨rfl, rfl⟩
  case h_9 => cases h
  all_goals
    obtain rfl := Option.some.inj h
    exact ⟨rfl, rfl⟩

theorem readStep_keeps {f : Field} (h : readStep s f = some s') :
    s'.delivered = s.delivered ∧ s'.queue = s.queue := by
  unfold readStep at h
  split at h
  · split_ifs at h
    obtain rfl := Option.some.inj h
    exact ⟨rfl, rfl⟩
  · cases h

/-- **A step**: the displays keep their stretches, and the queue its account. -/
theorem Ordered.step (h : Ordered s) (haccount : Account ls s)
    (hstep : SigqRecv.step s l = some s') : Ordered s' ∧ Account (ls ++ [l]) s' := by
  have hsent : sentBy (ls ++ [l]) = sentBy ls ++ l.sent := by
    simp [sentBy, List.flatMap_append]
  unfold SigqRecv.step at hstep
  split at hstep <;> rename_i hended
  · cases hstep
  · have heq := haccount.2 (by simp [hended])
    -- the consumer takes nothing from the queue, and delivers nothing
    have hkeep : ∀ t : System, t.delivered = s.delivered → t.queue = s.queue → l.sent = [] →
        Account (ls ++ [l]) t := fun t hdelivered hqueue hnil => by
      have ht : t.delivered.map RcvData.info ++ t.queue = sentBy (ls ++ [l]) := by
        rw [hdelivered, hqueue, heq, hsent, hnil, List.append_nil]
      exact ⟨ht ▸ List.Sublist.refl _, fun _ => ht⟩
    cases l with
    | send pid uid value kill sigqueue =>
      obtain rfl := Option.some.inj hstep
      have ht : s.delivered.map RcvData.info ++
          (s.queue ++ (sendPeer pid uid value kill sigqueue).2) =
          sentBy (ls ++ [.send pid uid value kill sigqueue]) := by
        rw [hsent, ← heq, List.append_assoc]
        rfl
      exact ⟨⟨h.last, h.stretch⟩, ht ▸ List.Sublist.refl _, fun _ => ht⟩
    | handle tm =>
      change deliver tm s = some s' at hstep
      unfold deliver at hstep
      cases hqueue : s.queue with
      | nil => simp [hqueue] at hstep
      | cons si rest =>
        rw [hqueue] at heq
        simp only [hqueue] at hstep
        have hnil : (Label.handle tm).sent = [] := rfl
        rw [hnil, List.append_nil] at hsent
        split_ifs at hstep
        · obtain rfl := Option.some.inj hstep
          have hrest : Ordered { s with queue := rest } := ⟨h.last, h.stretch⟩
          have ht : (SigqRecv.readMsg si tm { s with queue := rest }).delivered.map RcvData.info ++
              rest = sentBy (ls ++ [.handle tm]) := by
            rw [hsent, ← heq]
            simp [SigqRecv.readMsg, RcvData.info]
          exact ⟨hrest.readMsg si tm, ht ▸ List.Sublist.refl _, fun _ => ht⟩
        · obtain rfl := Option.some.inj hstep
          refine ⟨⟨h.last, h.stretch⟩, ?_, fun hne => absurd rfl hne⟩
          rw [hsent, ← heq]
          exact (List.Sublist.refl _).append (List.sublist_cons_self _ _)
    | main a =>
      refine ⟨h.mainStep hstep, ?_⟩
      obtain ⟨hdelivered, hqueue⟩ := mainStep_keeps hstep
      exact hkeep s' hdelivered hqueue rfl
    | read f =>
      refine ⟨h.readStep hstep, ?_⟩
      obtain ⟨hdelivered, hqueue⟩ := readStep_keeps hstep
      exact hkeep s' hdelivered hqueue rfl

/-- **What gets through**: in every run, whenever the handler runs, each display shows, in each
field, what a message says that was delivered behind all those that are shown by the displays before
it. So the data items on the screen are, one by one and in this order, some of those that producers
have been told were sent; and what has been sent has been delivered or waits, unless a signal has
killed the consumer. -/
theorem displayed_in_order (hrun : run SigqRecv.step System.start ls = some s) :
    (∃ n ≤ s.delivered.length, InOrder s.delivered n s.displayed) ∧
    (s.displayed.map fun d => d.shown.data).Sublist ((sentBy ls).map SigInfo.value) ∧
    (s.displayed.map fun d => d.shown.senderPid).Sublist ((sentBy ls).map SigInfo.pid) ∧
    (s.ended ≠ some .killed → s.delivered.map RcvData.info ++ s.queue = sentBy ls) := by
  have hinv : Ordered s ∧ Account ls s := by
    refine run_history (P := fun ls s => Ordered s ∧ Account ls s) ?_ ?_ hrun
    · exact fun ls s l s' hs hstep => hs.1.step hs.2 hstep
    · exact ⟨ordered_start, List.Sublist.refl _, fun _ => rfl⟩
  obtain ⟨⟨-, n, hle, horder, -⟩, hsublist, heq⟩ := hinv
  have hdelivered : (s.delivered.map RcvData.info).Sublist (sentBy ls) :=
    (List.sublist_append_left _ _).trans hsublist
  have hthrough : ∀ (f : Field) (g : SigInfo → ℤ), (∀ r : RcvData, g r.info = r.get f) →
      (s.displayed.map fun d => d.shown.get f).Sublist ((sentBy ls).map g) := fun f g hg => by
    have hfield := horder.sublist (fun r => r.get f) fun _ _ d hd => hd.2 f
    have htake : ((s.delivered.take n).map fun r => r.get f).Sublist
        ((s.delivered.map RcvData.info).map g) := by
      rw [List.map_map]
      have hcomp : (g ∘ RcvData.info) = fun r => r.get f := funext hg
      rw [hcomp]
      exact (List.take_sublist _ _).map _
    exact hfield.trans (htake.trans (hdelivered.map g))
  exact ⟨⟨n, hle, horder⟩, hthrough .data _ fun _ => rfl, hthrough .senderPid _ fun _ => rfl, heq⟩

end Steps

/-- The second of three messages is delivered in the middle of a display, the third behind it. The
first display has the sender of the one and the data of the other. -/
theorem displayed_in_order_mixed : ∃ ls s, run step System.start ls = some s ∧
    (s.displayed.map fun d => (d.shown.senderPid, d.shown.data)) = [(10, 8), (30, 9)] ∧
    (s.displayed.map fun d => d.shown.data).Sublist ((sentBy ls).map SigInfo.value) := by
  obtain ⟨ls, s, hrun, hshown⟩ : ∃ ls s, run step System.start ls = some s ∧
      (s.displayed.map fun d => (d.shown.senderPid, d.shown.data)) = [(10, 8), (30, 9)] :=
    ⟨twoSent ++ [.handle 100, .main .ok, .main .ok, .main .ok, .read .signum, .read .senderPid,
      .handle 101, .read .senderUid, .read .data, .main .ok, .main .ok, .send 30 3000 9 true true,
      .handle 102, .main .ok, .main .ok] ++ display, _, rfl, rfl⟩
  exact ⟨ls, s, hrun, hshown, (displayed_in_order hrun).2.1⟩

end SigqRecv

end SystemProgramming
