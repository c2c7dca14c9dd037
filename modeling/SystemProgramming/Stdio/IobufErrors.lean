import SystemProgramming.Stdio.IobufMutex

/-!
# The buffer that a failing thread frees

The error path of `mt_iobuf_mtx` (`ch16/`). A thread whose `fwrite` writes nothing frees the
buffer of all threads and gives the lock back; only then does it ask for the reason, and
`FATAL` brings the process down. Until then the others go on: whoever takes the lock next
uses the freed buffer. And when `FATAL` comes back, or there is no error, the thread gives
back a lock that it does not hold.

A state is safe when no thread's next call is such a misuse
(`SystemProgramming.IobufMtx.Safe`). A run goes through safe states only, exactly when all of
its steps avoid four things while the buffer is freed
(`SystemProgramming.IobufMtx.error_path_iff`): a thread takes the lock; there is no error;
`FATAL` comes back; the main thread, having joined all threads, closes the streams – for
after that it frees the buffer again.
-/

namespace SystemProgramming

open HandleErr Runs

namespace IobufMtx

variable {α : Type*}

/-! ### What is to be excluded -/

/-- **The thread's next call is a misuse**: it uses or frees the buffer that has been freed, or
gives back a lock that it does not hold. -/
def Misuse (s : System α) : Thread → Prop
  | .main => s.main = .free ∧ s.gbuf = .freed
  | .worker t =>
    match s.pc t with
    | .fread _ | .fwrite _ _ | .free _ => s.gbuf = .freed
    | .unlockRead _ _ | .unlockFreed _ | .unlockWrite _ => s.mylock.owner ≠ some (.worker t)
    | _ => False

/-- Up to the moment the process exits, no thread's next call is a misuse. -/
def Safe (s : System α) : Prop := s.ended = none → ∀ th, ¬Misuse s th

/-- **The condition on a step**: once the buffer has been freed, no thread takes the lock, the
file is in error, `FATAL` does not come back, and the main thread does not close the
streams. -/
def Kept (s : System α) (l : Thread × Answer) : Prop :=
  s.gbuf = .freed →
    match l.1 with
    | .main => s.main ≠ .fclose
    | .worker t =>
      match s.pc t with
      | .lockRead _ | .lockWrite _ _ => False
      | .ferror _ | .fwriteFatal _ => l.2 = .ok
      | _ => True

instance (s : System α) : DecidablePred (Kept s) := fun l => by
  unfold Kept
  split
  · infer_instance
  · split <;> infer_instance

/-! ### The invariant -/

/-- The thread holds the lock there, unless it has gone wrong. -/
def Pc.Locked : Pc → Prop
  | .fread _ | .unlockRead _ _ | .fwrite _ _ | .free _ | .unlockFreed _ | .unlockWrite _ => True
  | _ => False

/-- What holds of the buffer and the streams where a thread stands. -/
def Pc.Fits (gbuf : Buf) (wfp rfp : Bool) : Pc → Prop
  | .fread _ => gbuf ≠ .freed
  | .unlockRead _ _ | .fwrite _ _ | .unlockWrite _ => gbuf ≠ .freed ∧ rfp = true
  | .freadFatal _ | .lockWrite _ _ => rfp = true
  | .free _ => gbuf = .live ∧ wfp = true ∧ rfp = true
  | .unlockFreed _ | .feof _ | .ferror _ | .fwriteFatal _ => gbuf = .freed
  | .absent | .lockRead _ | .exited => True

/-- **The invariant of the runs whose steps meet the condition.** -/
structure ErrorsOk (nthreads : ℕ) (s : System α) : Prop where
  uncreated : Uncreated nthreads s.pc s.main
  joined : Joined nthreads s.pc s.main
  holder : ∀ t, (s.pc t).Locked ↔ s.mylock.owner = some (.worker t)
  fits : ∀ t, (s.pc t).Fits s.gbuf s.wfp s.rfp
  freed : s.gbuf = .freed → s.main ≠ .free ∧ s.wfp = true ∧ s.rfp = true

section Errors

variable {stream : List α} {nthreads : ℕ} {numio : ℕ → ℕ} {s s' : System α} {a : Answer} {t : ℕ}

/-- The threads that do not hold the lock do not mind if the buffer is freed. -/
theorem Pc.Fits.freed {p : Pc} {gbuf : Buf} {wfp rfp : Bool} (h : p.Fits gbuf wfp rfp)
    (hlock : ¬p.Locked) : p.Fits .freed wfp rfp := by
  cases p with
  | fread | unlockRead | fwrite | free | unlockFreed | unlockWrite => exact absurd trivial hlock
  | feof | ferror | fwriteFatal => rfl
  | _ => exact h

theorem fits_iteration (n i : ℕ) (gbuf : Buf) (wfp rfp : Bool) :
    (Pc.iteration n i).Fits gbuf wfp rfp := by
  rw [Pc.iteration]
  split_ifs <;> trivial

theorem not_locked_iteration (n i : ℕ) : ¬(Pc.iteration n i).Locked := by
  rw [Pc.iteration]
  split_ifs <;> exact id

/-- A step of a thread that has not exited is not one of a thread that has been joined. -/
theorem Joined.update {pc : ℕ → Pc} {m : MainPc} (h : Joined nthreads pc m)
    (ht : pc t ≠ .exited) (p : Pc) : Joined nthreads (Function.update pc t p) m := by
  cases m with
  | join i | destroy | destroyFatal | fclose | free => exact fun u hu => update_keep (h u hu) ht p
  | _ => trivial

/-- **The invariant implies safety.** -/
theorem ErrorsOk.safe (h : ErrorsOk nthreads s) : Safe s := by
  rintro - th hmis
  cases th with
  | main => exact (h.freed hmis.2).1 hmis.1
  | worker t =>
    have hfits := h.fits t
    have hholder := h.holder t
    rw [Misuse] at hmis
    cases hp : s.pc t <;> simp only [hp] at hmis hfits hholder
    case fread => exact hfits hmis
    case fwrite => exact hfits.1 hmis
    case free => exact absurd (hfits.1.symm.trans hmis) (by simp)
    case unlockRead | unlockFreed | unlockWrite => exact hmis (hholder.mp trivial)

theorem errorsOk_start (junk : ℕ → α) : ErrorsOk nthreads (System.start junk) where
  uncreated _ := rfl
  joined := trivial
  holder t := iff_of_false id (by simp [System.start, Mutex.free])
  fits _ := trivial
  freed h := by cases h

/-- A call of `FATAL` that does not end the process comes back, since its message could not be
allocated. -/
theorem fatal_back {back : System α} (h : s.fatal a back = some s') (hend : s'.ended = none) :
    s' = back ∧ a = .err := by
  obtain ⟨ok, hstatus, rfl⟩ := Option.map_eq_some_iff.mp h
  rcases Answer.status_cases hstatus with ⟨rfl, rfl⟩ | ⟨rfl, rfl⟩
  · cases hend
  · exact ⟨rfl, rfl⟩

/-- **The step lemma of the main thread.** -/
theorem ErrorsOk.main_step (h : ErrorsOk nthreads s) (hkept : Kept s (.main, a))
    (hst : mainStep nthreads numio s a = some s') (hend : s'.ended = none) :
    ErrorsOk nthreads s' := by
  cases mainStep_move hst with
  | goto m hU hJ hfree =>
    refine ⟨hU h.uncreated, hJ h.joined, h.holder, h.fits, fun hfreed => ⟨fun hm => ?_, ?_⟩⟩
    · exact hkept hfreed (hfree hm)
    · exact (h.freed hfreed).2
  | early m b w r habsent hU hJ hm hb hw hr =>
    refine ⟨hU h.uncreated, hJ, h.holder, fun t => ?_, fun hfreed => ?_⟩
    · change (s.pc t).Fits b w r
      rw [habsent h.uncreated t]
      trivial
    · obtain ⟨-, hw', hr'⟩ := h.freed (hb hfreed)
      exact ⟨hm, hw hw', hr hr'⟩
  | create i n hm =>
    have habsent : s.pc i = .absent := by
      have hU := h.uncreated
      rw [hm] at hU
      exact hU.2 i le_rfl
    have hholder := h.holder i
    rw [habsent] at hholder
    refine ⟨(mainStep_cases h.uncreated hst).1, joined_creation (i + 1), ?_, ?_,
      fun hfreed => ⟨creation_ne_free nthreads (i + 1), (h.freed hfreed).2⟩⟩
    · exact forall_update (P := fun t (p : Pc) => p.Locked ↔ s.mylock.owner = some (.worker t))
        h.holder ((iff_of_false (not_locked_iteration n 0) id).trans hholder)
    · exact forall_update (P := fun _ (p : Pc) => p.Fits s.gbuf s.wfp s.rfp) h.fits
        (fits_iteration ..)
  | ends e => cases hend
  | exits b => cases hend

/-! ### The steps of the threads -/

/-- The thread `t` moves on to `p`, and all is well with it and with the others. -/
theorem ErrorsOk.move (h : ErrorsOk nthreads s) {p : Pc} {m : Mutex} {b : Buf}
    (habsent : s.pc t ≠ .absent) (hexited : s.pc t ≠ .exited)
    (hself : p.Locked ↔ m.owner = some (.worker t))
    (hother : ∀ u, u ≠ t → (m.owner = some (.worker u) ↔ s.mylock.owner = some (.worker u)))
    (hfits : p.Fits b s.wfp s.rfp) (hfits' : ∀ u, u ≠ t → (s.pc u).Fits b s.wfp s.rfp)
    (hfreed : b = .freed → s.main ≠ .free ∧ s.wfp = true ∧ s.rfp = true) :
    ErrorsOk nthreads { s.goto t p with mylock := m, gbuf := b } where
  uncreated := h.uncreated.update habsent p
  joined := h.joined.update hexited p
  holder := (Function.forall_update_iff s.pc fun u p => p.Locked ↔ m.owner = some (.worker u)).mpr
    ⟨hself, fun u hu => (h.holder u).trans (hother u hu).symm⟩
  fits := (Function.forall_update_iff s.pc fun _ p => p.Fits b s.wfp s.rfp).mpr ⟨hfits, hfits'⟩
  freed := hfreed

/-- A step that leaves the lock and the buffer alone. -/
theorem ErrorsOk.stay (h : ErrorsOk nthreads s) {p : Pc} (habsent : s.pc t ≠ .absent)
    (hexited : s.pc t ≠ .exited) (hlocked : p.Locked ↔ (s.pc t).Locked)
    (hfits : p.Fits s.gbuf s.wfp s.rfp) : ErrorsOk nthreads (s.goto t p) :=
  h.move habsent hexited (hlocked.trans (h.holder t)) (fun _ _ => Iff.rfl) hfits
    (fun u _ => h.fits u) h.freed

/-- The thread takes the lock. -/
theorem ErrorsOk.lock (h : ErrorsOk nthreads s) {p : Pc} (habsent : s.pc t ≠ .absent)
    (hexited : s.pc t ≠ .exited) (hlocked : p.Locked) (hfits : p.Fits s.gbuf s.wfp s.rfp)
    (hst : lock t p s = some s') : ErrorsOk nthreads s' := by
  obtain ⟨m, hm, rfl⟩ := Option.map_eq_some_iff.mp hst
  obtain ⟨hnone, rfl⟩ := Mutex.lock_eq_some.mp hm
  refine h.move habsent hexited (iff_of_true hlocked rfl) (fun u hu => ?_) hfits
    (fun u _ => h.fits u) h.freed
  rw [hnone]
  exact iff_of_false (by simpa using Ne.symm hu) (by simp)

/-- A thread that holds the lock gives it back. -/
theorem ErrorsOk.unlock (h : ErrorsOk nthreads s) {p : Pc} (habsent : s.pc t ≠ .absent)
    (hexited : s.pc t ≠ .exited) (hlocked : (s.pc t).Locked) (hlocked' : ¬p.Locked)
    (hfits : p.Fits s.gbuf s.wfp s.rfp) : ErrorsOk nthreads (unlock t p s) := by
  have howner := (h.holder t).mp hlocked
  have hunlock : s.mylock.unlock (.worker t) = some .free :=
    Mutex.unlock_eq_some.mpr ⟨howner, rfl⟩
  rw [IobufMtx.unlock, hunlock]
  refine h.move habsent hexited (iff_of_false hlocked' (by simp [Mutex.free])) (fun u hu => ?_)
    hfits (fun u _ => h.fits u) h.freed
  rw [howner]
  exact iff_of_false (by simp [Mutex.free]) (by simpa using Ne.symm hu)

/-- **The thread frees the buffer**: the others are outside their critical sections. -/
theorem ErrorsOk.free (h : ErrorsOk nthreads s) {i : ℕ} (hp : s.pc t = .free i) :
    ErrorsOk nthreads { s.goto t (.unlockFreed i) with gbuf := .freed } := by
  have hlocked : (s.pc t).Locked := by rw [hp]; trivial
  have howner := (h.holder t).mp hlocked
  have hfits := h.fits t
  rw [hp] at hfits
  refine h.move (by simp [hp]) (by simp [hp]) (iff_of_true trivial howner) (fun _ _ => Iff.rfl) rfl
    (fun u hu => ?_) fun _ => ⟨fun hfree => ?_, hfits.2⟩
  · refine (h.fits u).freed fun hlock => hu ?_
    have hboth := ((h.holder u).mp hlock).symm.trans howner
    simpa using hboth
  · -- the main thread waits for this one
    have hlt : t < nthreads := by
      by_contra hge
      have habsent := h.uncreated.absent (Nat.le_of_not_lt hge)
      rw [hp] at habsent
      cases habsent
    have hexited : s.pc t = .exited := by
      have hjoined := h.joined
      rw [hfree] at hjoined
      exact hjoined t hlt
    rw [hp] at hexited
    cases hexited

/-- **The step lemma of a thread.** -/
theorem ErrorsOk.worker_step (h : ErrorsOk nthreads s) (hkept : Kept s (.worker t, a)) {n : ℕ}
    (hst : testitMtMtx stream n t s a = some s') (hend : s'.ended = none) :
    ErrorsOk nthreads s' := by
  have hfits := h.fits t
  unfold testitMtMtx at hst
  rw [Kept] at hkept
  cases hp : s.pc t <;> simp only [hp] at hst hfits hkept
  case absent => simp at hst
  case lockRead i =>
    cases a <;> simp only [reduceCtorEq] at hst
    exact h.lock (p := .fread i) (by simp [hp]) (by simp [hp]) trivial hkept hst
  case fread i =>
    split_ifs at hst with hbad
    · obtain rfl := Option.some.inj hst
      cases hend
    · obtain ⟨r, -, rfl⟩ := Option.map_eq_some_iff.mp hst
      have hr : s.rfp = true := by simpa using (not_or.mp hbad).2
      have hmoved : ErrorsOk nthreads (s.goto t (.unlockRead i (r.getD 0))) :=
        h.stay (by simp [hp]) (by simp [hp]) (by rw [hp]; exact Iff.rfl) ⟨hfits, hr⟩
      exact ⟨hmoved.uncreated, hmoved.joined, hmoved.holder, hmoved.fits, hmoved.freed⟩
  case unlockRead i fnr =>
    cases a <;> simp only [reduceCtorEq] at hst
    obtain rfl := Option.some.inj hst
    refine h.unlock (by simp [hp]) (by simp [hp]) (by rw [hp]; trivial) ?_ ?_
    · split_ifs <;> exact id
    · split_ifs <;> exact hfits.2
  case freadFatal i =>
    obtain ⟨rfl, -⟩ := fatal_back hst hend
    exact h.stay (by simp [hp]) (by simp [hp]) (by rw [hp]; exact Iff.rfl) hfits
  case lockWrite i fnr =>
    cases a <;> simp only [reduceCtorEq] at hst
    exact h.lock (p := .fwrite i fnr) (by simp [hp]) (by simp [hp]) trivial ⟨hkept, hfits⟩ hst
  case fwrite i fnr =>
    split_ifs at hst with hbad
    · obtain rfl := Option.some.inj hst
      cases hend
    · obtain ⟨r, -, rfl⟩ := Option.map_eq_some_iff.mp hst
      obtain ⟨hlive, hw⟩ : s.gbuf = .live ∧ s.wfp = true := by simpa using hbad
      have hmoved : ErrorsOk nthreads
          (s.goto t (if r.getD 0 = 0 then .free i else .unlockWrite i)) := by
        refine h.stay (by simp [hp]) (by simp [hp]) ?_ ?_
        · rw [hp]
          split_ifs <;> exact Iff.rfl
        · split_ifs
          · exact ⟨hlive, hw, hfits.2⟩
          · exact hfits
      exact ⟨hmoved.uncreated, hmoved.joined, hmoved.holder, hmoved.fits, hmoved.freed⟩
  case free i =>
    cases a <;> simp only [reduceCtorEq] at hst
    rw [hfits.1] at hst
    obtain rfl := Option.some.inj hst
    exact h.free hp
  case unlockFreed i =>
    cases a <;> simp only [reduceCtorEq] at hst
    obtain rfl := Option.some.inj hst
    exact h.unlock (by simp [hp]) (by simp [hp]) (by rw [hp]; trivial) id hfits
  case feof i =>
    obtain ⟨ok, -, rfl⟩ := Option.map_eq_some_iff.mp hst
    refine h.stay (by simp [hp]) (by simp [hp]) ?_ ?_
    · cases ok <;> rw [hp] <;> exact Iff.rfl
    · cases ok
      · exact hfits
      · trivial
  case ferror i =>
    obtain rfl := hkept hfits
    obtain rfl := Option.some.inj hst
    exact h.stay (by simp [hp]) (by simp [hp]) (by rw [hp]; exact Iff.rfl) hfits
  case fwriteFatal i =>
    obtain ⟨-, ha⟩ := fatal_back hst hend
    exact absurd ((hkept hfits).symm.trans ha) (by simp)
  case unlockWrite i =>
    cases a <;> simp only [reduceCtorEq] at hst
    obtain rfl := Option.some.inj hst
    exact h.unlock (by simp [hp]) (by simp [hp]) (by rw [hp]; trivial)
      (not_locked_iteration n (i + 1)) (fits_iteration ..)
  case exited => simp at hst

theorem ErrorsOk.step {l : Thread × Answer} (h : ErrorsOk nthreads s) (hkept : Kept s l)
    (hst : step stream nthreads numio s l = some s') (hend : s'.ended = none) :
    ErrorsOk nthreads s' := by
  obtain ⟨th, a⟩ := l
  rw [IobufMtx.step] at hst
  split at hst
  · cases hst
  · cases th with
    | main => exact h.main_step hkept hst hend
    | worker t => exact h.worker_step hkept hst hend

/-! ### What comes of a step that does not meet the condition -/

/-- The main thread has closed the streams, and is about to free what has been freed. -/
theorem ErrorsOk.misuse_main (h : ErrorsOk nthreads s) (hfreed : s.gbuf = .freed)
    (hm : s.main = .fclose) (hst : mainStep nthreads numio s a = some s') :
    s'.ended = s.ended ∧ Misuse s' .main := by
  obtain ⟨-, hw, hr⟩ := h.freed hfreed
  unfold mainStep at hst
  simp only [hm] at hst
  cases a <;> simp only [reduceCtorEq] at hst
  rw [if_neg (by simp [hw, hr])] at hst
  obtain rfl := Option.some.inj hst
  exact ⟨rfl, rfl, hfreed⟩

theorem misuse_of_uses (hp : (∃ i, s.pc t = .fread i) ∨ ∃ i fnr, s.pc t = .fwrite i fnr)
    (hfreed : s.gbuf = .freed) : Misuse s (.worker t) := by
  rw [Misuse]
  rcases hp with ⟨i, hp⟩ | ⟨i, fnr, hp⟩ <;> rw [hp] <;> exact hfreed

theorem misuse_of_unlocks {i : ℕ} (hp : s.pc t = .unlockWrite i)
    (hnot : s.mylock.owner ≠ some (.worker t)) : Misuse s (.worker t) := by
  rw [Misuse, hp]
  exact hnot

/-- The thread has taken the lock, and is about to use what has been freed; or it is about to
give back a lock that it does not hold. -/
theorem ErrorsOk.misuse_worker (h : ErrorsOk nthreads s) (hfreed : s.gbuf = .freed)
    (hbreak : ¬Kept s (.worker t, a)) {n : ℕ} (hst : testitMtMtx stream n t s a = some s') :
    s'.ended = s.ended ∧ Misuse s' (.worker t) := by
  have hnot := (Classical.not_imp.mp hbreak).2
  have hholder := h.holder t
  unfold testitMtMtx at hst
  cases hp : s.pc t <;> simp only [hp, not_true_eq_false] at hst hnot hholder
  case lockRead i =>
    cases a <;> simp only [reduceCtorEq] at hst
    obtain ⟨m, -, rfl⟩ := Option.map_eq_some_iff.mp hst
    exact ⟨rfl, misuse_of_uses (Or.inl ⟨i, Function.update_self ..⟩) hfreed⟩
  case lockWrite i fnr =>
    cases a <;> simp only [reduceCtorEq] at hst
    obtain ⟨m, -, rfl⟩ := Option.map_eq_some_iff.mp hst
    exact ⟨rfl, misuse_of_uses (Or.inr ⟨i, fnr, Function.update_self ..⟩) hfreed⟩
  case ferror i =>
    obtain ⟨ok, hstatus, rfl⟩ := Option.map_eq_some_iff.mp hst
    obtain rfl : ok = false := by
      rcases Answer.status_cases hstatus with ⟨ha, -⟩ | ⟨-, rfl⟩
      · exact absurd ha hnot
      · rfl
    exact ⟨rfl, misuse_of_unlocks (Function.update_self ..) fun howner => hholder.mpr howner⟩
  case fwriteFatal i =>
    obtain ⟨ok, hstatus, rfl⟩ := Option.map_eq_some_iff.mp hst
    obtain rfl : ok = false := by
      rcases Answer.status_cases hstatus with ⟨ha, -⟩ | ⟨-, rfl⟩
      · exact absurd ha hnot
      · rfl
    exact ⟨rfl, misuse_of_unlocks (Function.update_self ..) fun howner => hholder.mpr howner⟩

theorem ErrorsOk.not_safe {l : Thread × Answer} (h : ErrorsOk nthreads s) (hbreak : ¬Kept s l)
    (hst : IobufMtx.step stream nthreads numio s l = some s') : ¬Safe s' := by
  obtain ⟨th, a⟩ := l
  have hfreed := (Classical.not_imp.mp hbreak).1
  intro hsafe
  rw [IobufMtx.step] at hst
  split at hst
  · cases hst
  · rename_i hnone
    cases th with
    | main =>
      have hm : s.main = .fclose := not_not.mp (Classical.not_imp.mp hbreak).2
      obtain ⟨hend, hmis⟩ := h.misuse_main hfreed hm hst
      exact hsafe (hend.trans hnone) .main hmis
    | worker t =>
      obtain ⟨hend, hmis⟩ := h.misuse_worker hfreed hbreak hst
      exact hsafe (hend.trans hnone) (.worker t) hmis

theorem ended_of_step {l : Thread × Answer} (h : step stream nthreads numio s l = some s') :
    s.ended = none := by
  rw [step] at h
  split at h
  · cases h
  · assumption

/-- **When the error path is safe**: whatever the number of threads and of iterations, the
stream, the answers and the order of the steps, no state of the run, up to the moment the
process exits, lets a thread use or free the buffer after it has been freed, or give back a
lock that it does not hold, exactly when all steps meet the condition. -/
theorem error_path_iff {junk : ℕ → α} {ls : List (Thread × Answer)}
    (hrun : run (step stream nthreads numio) (System.start junk) ls = some s) :
    Every (step stream nthreads numio) Kept (System.start junk) ls ↔
      ∀ ls' u, ls' <+: ls → run (step stream nthreads numio) (System.start junk) ls' = some u →
        Safe u := by
  refine every_iff_of_break (P := fun s => s.ended = none → ErrorsOk nthreads s) ?_ ?_ ?_
    (fun _ => errorsOk_start junk) hrun
  · rintro s l s' h hkept hst hend
    exact (h (ended_of_step hst)).step hkept hst hend
  · rintro s h hend
    exact (h hend).safe hend
  · rintro s l s' h hbreak hst
    exact (h (ended_of_step hst)).not_safe hbreak hst

end Errors

/-- The thread `t` fails to write, frees the buffer and gives the lock back. -/
def failedWrite (t : ℕ) : List (Thread × Answer) :=
  [(.worker t, .ok), (.worker t, .fail), (.worker t, .ok), (.worker t, .ok)]

/-- The file is not at its end but in error, and `FATAL` ends the process. -/
def reported (t : ℕ) : List (Thread × Answer) :=
  [(.worker t, .err), (.worker t, .ok), (.worker t, .ok)]

/-- Where the failing thread ends the process at once, nothing happens. -/
theorem error_path_iff_at :
    ∃ s : System UInt8,
      run (step [1, 2, 3] 2 fun _ => 1) (System.start fun _ => 0)
        (twoThreads ++ oneRead 0 (.short 2) ++ failedWrite 0 ++ reported 0) = some s ∧
      s.ended = some (.exited 1) ∧
      ∀ ls' u, ls' <+: twoThreads ++ oneRead 0 (.short 2) ++ failedWrite 0 ++ reported 0 →
        run (step [1, 2, 3] 2 fun _ => 1) (System.start fun _ => (0 : UInt8)) ls' = some u →
        Safe u :=
  ⟨_, rfl, rfl, (error_path_iff rfl).mp (by decide)⟩

/-- **The freed buffer is used**: the other thread takes the lock before the process has been
ended, and its next call reads to the buffer. -/
theorem freed_buffer_used :
    ∃ s u : System UInt8,
      run (step [1, 2, 3] 2 fun _ => 1) (System.start fun _ => 0)
        (twoThreads ++ oneRead 0 (.short 2) ++ failedWrite 0 ++ [(.worker 1, .ok)]) = some s ∧
      s.ended = none ∧ s.pc 1 = .fread 0 ∧ s.gbuf = .freed ∧ ¬Safe s ∧
      step [1, 2, 3] 2 (fun _ => 1) s (.worker 1, .full) = some u ∧ u.ended = some .undefined :=
  ⟨_, _, rfl, rfl, rfl, rfl, fun hsafe => hsafe rfl (.worker 1) rfl, rfl, rfl⟩

end IobufMtx

end SystemProgramming
