import SystemProgramming.Signals.ThreadSignals

/-!
# A handler that has the kernel dump core

`handle_segv` (`ch12/`) does what the template of `SystemProgramming.AppTemplate` attempts: its
handler for SIGSEGV gives the signal its default action back, raises it, and *returns*. What it has
raised is blocked until then, and is delivered before the instruction that made the fault can be
tried again.

So after a fault the process never gets back to its own code and never exits: it ends by SIGSEGV,
with the core dump (`SystemProgramming.HandleSegv.dumps_core`).
-/

namespace SystemProgramming

open HandleErr Runs SignalSet ThreadSignals

namespace HandleSegv

/-- `myfault`. -/
def myfault : List (Call Unit) := [.other .ignored, .revert SIGSEGV .fatal, .raise SIGSEGV .fatal]

/-- `setup_altsigstack`, and what its caller makes of an error. -/
def setupAltsigstack : List (Call Unit) := [.other .ignored, .other (.exits 1), .other (.exits 1)]

/-- `handle_segv`: the arguments are looked at, the handler is installed, and memory is accessed
that is not there, which is a fault; if it is none, the process exits. -/
def handleSegv : Program Unit where
  main := ()
  code _ := [.other (.exits 1), .other .ignored] ++ setupAltsigstack ++
    [.sigaction SIGSEGV .fatal, .other .ignored, .other .ignored, .exit 0]
  loop _ := []
  handler _ := myfault
  saMask := ∅

/-- `signal` and `raise` do not fail. -/
def Works (t : ThreadState Unit) (a : Answer) : Prop :=
  ∀ n f rest, (t.current = .revert n f :: rest ∨ t.current = .raise n f :: rest) → a ≠ .err

/-- The calls of `main`. -/
def IsOwn : Call Unit → Bool
  | .other _ | .exit _ | .fatal => true
  | .sigaction n _ => n = SIGSEGV
  | _ => false

/-- Where the handler of a thread stands: it is running, or it has returned and what it has raised
is about to arrive. -/
inductive Stands (handled : Finset ℕ) (t : ThreadState Unit) : Prop
  | report (saved : Finset ℕ) (hframes : t.frames = [⟨SIGSEGV, saved, myfault⟩])
      (hsaved : SIGSEGV ∉ saved) (hblocked : SIGSEGV ∈ t.blocked)
  | revert (saved : Finset ℕ)
      (hframes : t.frames = [⟨SIGSEGV, saved, [.revert SIGSEGV .fatal, .raise SIGSEGV .fatal]⟩])
      (hsaved : SIGSEGV ∉ saved) (hblocked : SIGSEGV ∈ t.blocked)
  | raise (saved : Finset ℕ) (hframes : t.frames = [⟨SIGSEGV, saved, [.raise SIGSEGV .fatal]⟩])
      (hsaved : SIGSEGV ∉ saved) (hblocked : SIGSEGV ∈ t.blocked) (hhandled : SIGSEGV ∉ handled)
  | return (saved : Finset ℕ) (hframes : t.frames = [⟨SIGSEGV, saved, []⟩])
      (hsaved : SIGSEGV ∉ saved) (hblocked : SIGSEGV ∈ t.blocked) (hhandled : SIGSEGV ∉ handled)
      (hpending : SIGSEGV ∈ t.pending)
  | dump (hframes : t.frames = []) (hblocked : SIGSEGV ∉ t.blocked) (hhandled : SIGSEGV ∉ handled)
      (hpending : SIGSEGV ∈ t.pending)

variable {inherited : Finset ℕ} {p q : State Unit} {t : ThreadState Unit} {l : Event}
  {before after : List Event} {n : ℕ} {todo : List (Call Unit)}

/-- The process has ended by a signal, with this left to do. -/
def Dead (todo : List (Call Unit)) (p : State Unit) : Prop :=
  p.threads.map ThreadState.todo = [todo] ∧
    ∃ n, p.ended = some (0, .killed n) ∨ p.ended = some (0, .faulted n)

/-- The process while no handler has begun. -/
structure Own (p : State Unit) (t : ThreadState Unit) : Prop where
  threads : p.threads = [t]
  handled : ∀ n ∈ p.handled, n = SIGSEGV
  frames : t.frames = []
  pending : t.pending = []
  own : ∀ c ∈ t.todo, IsOwn c = true

/-- The process once it has begun; this is what `main` has left to do. -/
structure Caught (todo : List (Call Unit)) (p : State Unit) (t : ThreadState Unit) : Prop where
  threads : p.threads = [t]
  handled : ∀ n ∈ p.handled, n = SIGSEGV
  ended : p.ended = none
  todo : t.todo = todo
  stands : Stands p.handled t

/-- Only one thread can move, and it alone is left. -/
theorem eq_of_threads (h : p.threads = [t]) {i : ℕ} {u : ThreadState Unit}
    (hu : p.threads[i]? = some u) : i = 0 ∧ u = t := by
  rw [h] at hu
  obtain ⟨hlt, rfl⟩ := List.getElem?_eq_some_iff.mp hu
  exact ⟨by simpa using hlt, by simp only [List.getElem_singleton]⟩

theorem set_threads (h : p.threads = [t]) (u : ThreadState Unit) : p.threads.set 0 u = [u] := by
  rw [h]
  rfl

theorem mem_enter (t : ThreadState Unit) : SIGSEGV ∈ (t.enter handleSegv SIGSEGV).blocked :=
  Finset.mem_union_right _ (by decide)

theorem mem_own (r : Unit) : ∀ c ∈ handleSegv.code r, IsOwn c = true :=
  List.all_eq_true.mp (show handleSegv.code r |>.all IsOwn from rfl)

/-- A call of `main` changes what it has left to do, and installs nothing but the one handler. -/
theorem Own.go (h : Own p t) {t' : ThreadState Unit} {x : Effect Unit} {a : Answer}
    (hgo : t.go handleSegv a = some (t', x)) :
    ∃ rest, t' = { t with todo := rest } ∧ (∀ c ∈ rest, IsOwn c = true) ∧
      (x = .nothing ∨ x = .install SIGSEGV ∨ ∃ y, x = .ends y) := by
  have hframes := h.frames
  rcases ThreadState.go_cases hgo with ⟨c, rest, hcur, hcall⟩ | ⟨f, below, -, hcons, -⟩ |
    ⟨-, -, rfl, rfl⟩
  · have htodo : t.todo = c :: rest := by
      rwa [ThreadState.current, hframes] at hcur
    have hc : IsOwn c = true := h.own c (by rw [htodo]; exact List.mem_cons_self)
    have hrest : ∀ x ∈ rest, IsOwn x = true := fun x hx =>
      h.own x (by rw [htodo]; exact List.mem_cons_of_mem _ hx)
    have hfail : ∀ f : Failure, ∀ x ∈ f.calls ++ rest, IsOwn x = true := by
      intro f x hx
      rcases List.mem_append.mp hx with hcalls | hmem
      · cases f <;> simp only [Failure.calls, List.not_mem_nil, List.mem_singleton] at hcalls
        all_goals rw [hcalls]; rfl
      · exact hrest x hmem
    have hnext : ∀ rest, t.next rest = { t with todo := rest } := fun _ =>
      ThreadState.next_of_nil hframes
    have either : ∀ {f : Failure} {y : Effect Unit} {ok : Bool}, t.either rest f y ok = (t', x) →
        (y = .nothing ∨ y = .install SIGSEGV) →
        ∃ rest, t' = { t with todo := rest } ∧ (∀ c ∈ rest, IsOwn c = true) ∧
          (x = .nothing ∨ x = .install SIGSEGV ∨ ∃ y, x = .ends y) := by
      intro f y ok heq hy
      rcases ThreadState.either_cases heq with ⟨rfl, rfl, -⟩ | ⟨rfl, rfl⟩
      · exact ⟨rest, hnext rest, hrest, hy.imp id Or.inl⟩
      · exact ⟨_, hnext _, hfail f, Or.inl rfl⟩
    cases c with
    | other f =>
      obtain ⟨ok, -, heq⟩ := Option.map_eq_some_iff.mp hcall
      exact either heq (Or.inl rfl)
    | sigaction n f =>
      obtain ⟨ok, -, heq⟩ := Option.map_eq_some_iff.mp hcall
      obtain rfl : n = SIGSEGV := of_decide_eq_true hc
      exact either heq (Or.inr rfl)
    | exit status =>
      cases a <;> simp only [ThreadState.call, reduceCtorEq] at hcall
      obtain ⟨rfl, rfl⟩ := Prod.mk.inj (Option.some.inj hcall)
      exact ⟨_, rfl, h.own, Or.inr (Or.inr ⟨_, rfl⟩)⟩
    | fatal =>
      rcases afterFatal_cases hcall with heq | heq
      · obtain ⟨rfl, rfl⟩ := Prod.mk.inj heq
        exact ⟨rest, hnext rest, hrest, Or.inl rfl⟩
      · obtain ⟨rfl, rfl⟩ := Prod.mk.inj heq
        exact ⟨_, rfl, h.own, Or.inr (Or.inr ⟨_, rfl⟩)⟩
    | _ => cases hc
  · cases hframes.symm.trans hcons
  · exact ⟨[], rfl, (by rintro _ ⟨⟩), Or.inl rfl⟩

/-- **While no handler has begun**: `main` goes on, the handler begins, or a signal ends the
process. -/
theorem Own.step (h : Own p t) (hstep : ThreadSignals.step handleSegv p l = some q) :
    (∃ t', Own q t' ∧ ∀ n, l ≠ .fault 0 n) ∨ (∃ t', Caught t.todo q t') ∨ Dead t.todo q := by
  obtain ⟨hthreads, hhandled, hframes, hpending, hown⟩ := h
  obtain ⟨hend, ⟨k, rfl, rfl⟩ | ⟨i, u, hu, -, hcases⟩⟩ := step_cases hstep
  · exact Or.inl ⟨t, ⟨hthreads, hhandled, hframes, hpending, hown⟩, by rintro _ ⟨⟩⟩
  obtain ⟨rfl, rfl⟩ := eq_of_threads hthreads hu
  have hset := set_threads hthreads
  have enter : ∀ pending : List ℕ, SIGSEGV ∉ u.blocked →
      Caught u.todo (State.put { p with pending := pending } 0
        (u.enter handleSegv SIGSEGV, .nothing)) (u.enter handleSegv SIGSEGV) := by
    intro pending hblocked
    refine ⟨hset _, hhandled, hend, rfl, .report u.blocked ?_ hblocked (mem_enter u)⟩
    rw [ThreadState.enter, hframes]
    rfl
  rcases hcases with ⟨k, v, pending, rfl, hblocked, hfetch, hrest⟩ |
    ⟨k, v, w, pending, rfl, -, hfetch, hget, rfl⟩ | ⟨k, rfl, -, -, hrest⟩ |
    ⟨a, ⟨v, x⟩, rfl, -, hgo, rfl⟩
  · have hv : v = u := by
      rcases fetch_cases hfetch with ⟨hmem, -⟩ | ⟨-, rfl, -⟩
      · rw [hpending] at hmem
        cases hmem
      · rfl
    subst hv
    rcases hrest with ⟨hin, rfl⟩ | ⟨-, -, rfl⟩ | ⟨-, -, rfl⟩
    · obtain rfl := hhandled k hin
      exact Or.inr (Or.inl ⟨_, enter _ hblocked⟩)
    · exact Or.inl ⟨v, ⟨hset _, hhandled, hframes, hpending, hown⟩, by rintro _ ⟨⟩⟩
    · exact Or.inr (Or.inr ⟨congrArg _ (hset v), k, Or.inl rfl⟩)
  · have hv : v = u := by
      rcases fetch_cases hfetch with ⟨hmem, -⟩ | ⟨-, rfl, -⟩
      · rw [hpending] at hmem
        cases hmem
      · rfl
    subst hv
    obtain ⟨s, rest, hcur, -⟩ := ThreadState.get_cases hget
    rw [ThreadState.current, hframes] at hcur
    have hcall := hown (.sigwait s) (by rw [show v.todo = _ from hcur]; exact List.mem_cons_self)
    cases hcall
  · rcases hrest with ⟨-, rfl⟩ | ⟨hblocked, hin, rfl⟩
    · exact Or.inr (Or.inr ⟨congrArg _ (hset u), k, Or.inr rfl⟩)
    · obtain rfl := hhandled k hin
      exact Or.inr (Or.inl ⟨_, enter p.pending hblocked⟩)
  · obtain ⟨rest, rfl, hrest, hx⟩ := Own.go ⟨hthreads, hhandled, hframes, hpending, hown⟩ hgo
    refine Or.inl ⟨{ u with todo := rest }, ?_, by rintro _ ⟨⟩⟩
    rcases hx with rfl | rfl | ⟨y, rfl⟩
    · exact ⟨hset _, hhandled, hframes, hpending, hrest⟩
    · refine ⟨hset _, fun n hn => ?_, hframes, hpending, hrest⟩
      exact (Finset.mem_insert.mp hn).elim id (hhandled n)
    · exact ⟨hset _, hhandled, hframes, hpending, hrest⟩

/-- A call of the one run of the handler. -/
theorem call_of_frame {saved : Finset ℕ} {c : Call Unit} {rest : List (Call Unit)}
    {t' : ThreadState Unit} {x : Effect Unit} {a : Answer}
    (hframes : t.frames = [⟨SIGSEGV, saved, c :: rest⟩])
    (hgo : t.go handleSegv a = some (t', x)) :
    t.current = c :: rest ∧ t.call handleSegv rest c a = some (t', x) ∧
      ∀ rest, t.next rest = { t with frames := [⟨SIGSEGV, saved, rest⟩] } := by
  have hcur : t.current = c :: rest := by rw [ThreadState.current, hframes]
  refine ⟨hcur, ?_, fun rest => by rw [ThreadState.next, hframes]⟩
  rw [ThreadState.go, hcur] at hgo
  exact hgo

/-- The handler goes on, and returns in the end. -/
theorem Caught.go (h : Caught todo p t) {t' : ThreadState Unit} {x : Effect Unit} {a : Answer}
    (hquiet : t.Quiet) (ha : Works t a) (hgo : t.go handleSegv a = some (t', x)) :
    Caught todo (p.put 0 (t', x)) t' := by
  obtain ⟨hthreads, hhandled, hend, htodo, hstands⟩ := h
  have hset := set_threads hthreads
  cases hstands with
  | report saved hframes hsaved hblocked =>
    obtain ⟨-, hcall, hnext⟩ := call_of_frame hframes hgo
    obtain ⟨ok, -, hmove⟩ := Option.map_eq_some_iff.mp hcall
    have hx : t' = t.next [.revert SIGSEGV .fatal, .raise SIGSEGV .fatal] ∧ x = .nothing := by
      rcases ThreadState.either_cases hmove with ⟨rfl, rfl, -⟩ | ⟨rfl, rfl⟩ <;> exact ⟨rfl, rfl⟩
    obtain ⟨rfl, rfl⟩ := hx
    rw [hnext]
    exact ⟨hset _, hhandled, hend, htodo, .revert saved rfl hsaved hblocked⟩
  | revert saved hframes hsaved hblocked =>
    obtain ⟨hcur, hcall, hnext⟩ := call_of_frame hframes hgo
    obtain ⟨ok, hok, hmove⟩ := Option.map_eq_some_iff.mp hcall
    rcases Answer.status_cases hok with ⟨-, rfl⟩ | ⟨herr, -⟩
    · obtain ⟨rfl, rfl⟩ := Prod.mk.inj hmove
      rw [hnext]
      refine ⟨hset _, fun n hn => hhandled n (Finset.mem_of_mem_erase hn), hend, htodo, ?_⟩
      exact .raise saved rfl hsaved hblocked (Finset.notMem_erase _ _)
    · exact absurd herr (ha _ _ _ (Or.inl hcur))
  | raise saved hframes hsaved hblocked hin =>
    obtain ⟨hcur, hcall, hnext⟩ := call_of_frame hframes hgo
    obtain ⟨ok, hok, hmove⟩ := Option.map_eq_some_iff.mp hcall
    rcases Answer.status_cases hok with ⟨-, rfl⟩ | ⟨herr, -⟩
    · obtain ⟨rfl, rfl⟩ := Prod.mk.inj hmove
      rw [hnext]
      have hmem : SIGSEGV ∈ post t.pending SIGSEGV := mem_post.mpr (Or.inr rfl)
      exact ⟨hset _, hhandled, hend, htodo, .return saved rfl hsaved hblocked hin hmem⟩
    · exact absurd herr (ha _ _ _ (Or.inr hcur))
  | «return» saved hframes hsaved hblocked hin hpending =>
    rcases ThreadState.go_cases hgo with ⟨c, rest, hcur, -⟩ | ⟨f, below, -, hcons, rfl, rfl⟩ |
      ⟨-, hnil, -⟩
    · rw [ThreadState.current, hframes] at hcur
      cases hcur
    · obtain ⟨rfl, rfl⟩ := List.cons.inj (hframes.symm.trans hcons)
      exact ⟨hset _, hhandled, hend, htodo, .dump rfl hsaved hin hpending⟩
    · cases hframes.symm.trans hnil
  | dump hframes hblocked hin hpending => exact absurd (hquiet _ hpending) hblocked

/-- What has arrived or been thrown away leaves the handler where it is. -/
theorem Stands.drop {handled : Finset ℕ} (h : Stands handled t) (hn : n ≠ SIGSEGV) :
    Stands handled { t with pending := t.pending.erase n } := by
  have hkeep : SIGSEGV ∈ t.pending → SIGSEGV ∈ t.pending.erase n := fun hmem =>
    (List.mem_erase_of_ne (Ne.symm hn)).mpr hmem
  cases h with
  | report saved hframes hsaved hblocked => exact .report saved hframes hsaved hblocked
  | revert saved hframes hsaved hblocked => exact .revert saved hframes hsaved hblocked
  | raise saved hframes hsaved hblocked hin => exact .raise saved hframes hsaved hblocked hin
  | «return» saved hframes hsaved hblocked hin hpending =>
    exact .return saved hframes hsaved hblocked hin (hkeep hpending)
  | dump hframes hblocked hin hpending => exact .dump hframes hblocked hin (hkeep hpending)

/-- While SIGSEGV can be delivered, it has no handler. -/
theorem Stands.notMem {handled : Finset ℕ} (h : Stands handled t) (hn : SIGSEGV ∉ t.blocked) :
    SIGSEGV ∉ handled := by
  cases h with
  | dump hframes hblocked hin hpending => exact hin
  | _ => exact absurd ‹SIGSEGV ∈ t.blocked› hn

/-- It waits for no signal. -/
theorem Stands.get_eq_none {handled : Finset ℕ} {v w : ThreadState Unit} {pending : List ℕ}
    (h : Stands handled t) (hquiet : t.Quiet) (hfetch : fetch p.pending t n = some (v, pending))
    (hget : v.get n = some w) : False := by
  obtain ⟨s, rest, hcur, -⟩ := ThreadState.get_cases hget
  have hcur' : t.current = .sigwait s :: rest := by
    rcases fetch_cases hfetch with ⟨-, rfl, -⟩ | ⟨-, rfl, -⟩ <;> exact hcur
  rw [ThreadState.current] at hcur'
  cases h with
  | dump hframes hblocked hin hpending => exact hblocked (hquiet _ hpending)
  | _ =>
    rw [‹t.frames = _›] at hcur'
    cases hcur'

/-- **Once the handler has begun**, it goes on or a signal ends the process. -/
theorem Caught.step (h : Caught todo p t) (hA : Answers Works p l)
    (hstep : ThreadSignals.step handleSegv p l = some q) :
    (∃ t', Caught todo q t') ∨ Dead todo q := by
  have hcaught := h
  obtain ⟨hthreads, hhandled, hend, htodo, hstands⟩ := h
  obtain ⟨-, ⟨k, rfl, rfl⟩ | ⟨i, u, hu, -, hcases⟩⟩ := step_cases hstep
  · exact Or.inl ⟨t, hthreads, hhandled, hend, htodo, hstands⟩
  obtain ⟨rfl, rfl⟩ := eq_of_threads hthreads hu
  have hset := set_threads hthreads
  have hnot : ∀ k ∈ p.handled, k ∉ u.blocked → False := by
    intro k hin hblocked
    obtain rfl := hhandled k hin
    exact hstands.notMem hblocked hin
  rcases hcases with ⟨k, v, pending, rfl, hblocked, hfetch, hrest⟩ |
    ⟨k, v, w, pending, rfl, hquiet, hfetch, hget, rfl⟩ | ⟨k, rfl, -, -, hrest⟩ |
    ⟨a, ⟨v, x⟩, rfl, hquiet, hgo, rfl⟩
  · rcases hrest with ⟨hin, -⟩ | ⟨-, hdiscarded, rfl⟩ | ⟨-, -, rfl⟩
    · exact (hnot k hin hblocked).elim
    · have hk : k ≠ SIGSEGV := by
        rintro rfl
        exact absurd hdiscarded (by decide)
      rcases fetch_cases hfetch with ⟨-, rfl, -⟩ | ⟨-, rfl, -⟩
      · exact Or.inl ⟨_, hset _, hhandled, hend, htodo, hstands.drop hk⟩
      · exact Or.inl ⟨_, hset _, hhandled, hend, htodo, hstands⟩
    · exact Or.inr ⟨(congrArg _ (hset u)).trans (congrArg (fun x => [x]) htodo), k, Or.inl rfl⟩
  · exact (hstands.get_eq_none hquiet hfetch hget).elim
  · rcases hrest with ⟨-, rfl⟩ | ⟨hblocked, hin, -⟩
    · exact Or.inr ⟨(congrArg _ (hset u)).trans (congrArg (fun x => [x]) htodo), k, Or.inr rfl⟩
    · exact (hnot k hin hblocked).elim
  · exact Or.inl ⟨v, hcaught.go hquiet (hA 0 a u rfl hu) hgo⟩

/-- Where a process is: `main` runs, or its handler does, or a signal has ended it. -/
def Somewhere (p : State Unit) : Prop :=
  (∃ t, Own p t) ∨ ∃ todo, (∃ t, Caught todo p t) ∨ Dead todo p

/-- What has ended stays as it is. -/
theorem Dead.step (h : Dead todo p) (hstep : ThreadSignals.step handleSegv p l = some q) :
    False := by
  obtain ⟨-, n, hend | hend⟩ := h <;>
    cases (step_cases hstep).1.symm.trans hend

theorem Caught.run (h : (∃ t, Caught todo p t) ∨ Dead todo p)
    (hA : Every (ThreadSignals.step handleSegv) (Answers Works) p after)
    (hrun : Runs.run (ThreadSignals.step handleSegv) p after = some q) :
    (∃ t, Caught todo q t) ∨ Dead todo q := by
  refine Every.invariant (P := fun p => (∃ t, Caught todo p t) ∨ Dead todo p) ?_ hA h hrun
  rintro p l q (⟨t, hcaught⟩ | hdead) hlabel hstep
  · exact hcaught.step hlabel hstep
  · exact (hdead.step hstep).elim

theorem somewhere_run
    (hA : Every (step handleSegv) (Answers Works) (start handleSegv inherited) before)
    (hrun : run (step handleSegv) (start handleSegv inherited) before = some q) :
    Somewhere q := by
  refine Every.invariant (P := Somewhere) ?_ hA
    (Or.inl ⟨_, rfl, (by rintro _ ⟨⟩), rfl, rfl, mem_own ()⟩) hrun
  rintro p l q (⟨t, hown⟩ | ⟨todo, ⟨t, hcaught⟩ | hdead⟩) hlabel hstep
  · rcases hown.step hstep with ⟨t', ht', -⟩ | h
    · exact Or.inl ⟨t', ht'⟩
    · exact Or.inr ⟨t.todo, h⟩
  · exact Or.inr ⟨todo, hcaught.step hlabel hstep⟩
  · exact (hdead.step hstep).elim

/-- **A fault is the end**, in every run in which `signal` and `raise` do not fail: after it the
process never gets back to its own code, and it does not exit; if it ends, it ends by a signal. -/
theorem dumps_core
    (hrun : run (step handleSegv) (start handleSegv inherited) (before ++ .fault 0 n :: after) =
      some p)
    (hworks : Every (step handleSegv) (Answers Works) (start handleSegv inherited)
      (before ++ .fault 0 n :: after)) :
    (∀ i status, p.ended ≠ some (i, .exited status)) ∧
    ∀ q, run (step handleSegv) (start handleSegv inherited) before = some q →
      p.threads.map ThreadState.todo = q.threads.map ThreadState.todo := by
  have hsplit := hrun
  rw [run_append] at hsplit
  obtain ⟨q, hq, hrest⟩ := Option.bind_eq_some_iff.mp hsplit
  obtain ⟨r, hfault, hafter⟩ := run_cons_eq_some.mp hrest
  obtain ⟨hfirst, hsecond⟩ := (every_append hq).mp hworks
  obtain ⟨hlabel, hthird⟩ := (every_cons hfault).mp hsecond
  obtain ⟨todo, htodo, hr⟩ : ∃ todo, q.threads.map ThreadState.todo = [todo] ∧
      ((∃ t, Caught todo r t) ∨ Dead todo r) := by
    rcases somewhere_run hfirst hq with ⟨t, hown⟩ | ⟨todo, ⟨t, hcaught⟩ | hdead⟩
    · refine ⟨t.todo, congrArg _ hown.threads, ?_⟩
      rcases hown.step hfault with ⟨t', -, hne⟩ | h
      · exact absurd rfl (hne n)
      · exact h
    · exact ⟨todo, (congrArg _ hcaught.threads).trans (congrArg (fun x => [x]) hcaught.todo),
        hcaught.step hlabel hfault⟩
    · exact (hdead.step hfault).elim
  refine ⟨fun i status hend => ?_, fun q' hq' => ?_⟩
  · rcases Caught.run hr hthird hafter with ⟨t, hcaught⟩ | ⟨-, m, hdead | hdead⟩
    · cases hcaught.ended.symm.trans hend
    · cases hdead.symm.trans hend
    · cases hdead.symm.trans hend
  · obtain rfl : q = q' := Option.some.inj (hq.symm.trans hq')
    rw [htodo]
    rcases Caught.run hr hthird hafter with ⟨t, hcaught⟩ | ⟨hdead, -⟩
    · exact (congrArg _ hcaught.threads).trans (congrArg (fun x => [x]) hcaught.todo)
    · exact hdead

/-- One that is not, and the handler runs. -/
theorem dumps_core_once : ∃ p, run (step handleSegv) (start handleSegv ∅)
      (List.replicate 6 (.go 0 .ok) ++ .fault 0 SIGSEGV ::
        [.go 0 .ok, .go 0 .ok, .go 0 .ok, .go 0 .ok, .deliver 0 SIGSEGV]) = some p ∧
    p.ended = some (0, .killed SIGSEGV) ∧ ∀ i status, p.ended ≠ some (i, .exited status) := by
  have hsome : ((run (step handleSegv) (start handleSegv ∅)
      (List.replicate 6 (.go 0 .ok) ++ .fault 0 SIGSEGV ::
        [.go 0 .ok, .go 0 .ok, .go 0 .ok, .go 0 .ok, .deliver 0 SIGSEGV])).map State.ended) =
      some (some (0, .killed SIGSEGV)) := by
    decide +kernel
  obtain ⟨p, hrun, hend⟩ := Option.map_eq_some_iff.mp hsome
  refine ⟨p, hrun, hend, (dumps_core hrun ?_).1⟩
  refine (every_of_forall (D := fun l => l.answer ≠ some .err) (by decide) _).imp ?_
  rintro q l hl i a t rfl - m f rest - rfl
  exact hl rfl

end HandleSegv

end SystemProgramming
