import SystemProgramming.Shell.Simpsh

/-!
# The commands that the shell executes

The shell is to execute the lines of its input, in order, up to a line `quit`
(`SystemProgramming.Simpsh.commands`). What it does execute is a function of the input
(`SystemProgramming.Simpsh.session`), whatever its children do: every read takes the
beginning of a line, if not all of it, the string that was read loses its last byte –
which is meant to be the newline – and a string that begins with `quit` ends the shell.

So it does as it should exactly on the inputs all of whose lines, up to the first `quit`,
end with a newline, fit into the buffer, have no NUL, and do not begin with `quit` without
being it (`SystemProgramming.Simpsh.commands_iff`). On the others a command is cut, split or
lost – or, where the string that was read is empty, the byte in front of the buffer is
written.
-/

namespace SystemProgramming

open HandleErr Runs Strings

namespace Simpsh

/-! ### The purpose -/

/-- The commands of an input: its lines before the first `quit` that are not empty. -/
def commands (ls : List Line) : List (List UInt8) :=
  ((ls.map Line.text).takeWhile (· ≠ quit)).filter (· ≠ [])

/-- A text that the shell reads as it stands. -/
def Fits (t : List UInt8) : Prop := t.length + 1 < CMD_MAXLEN - 1 ∧ 0 ∉ t ∧ ¬quit <+: t

/-- The lines up to the first `quit` end with a newline, and those before it fit. -/
def Clean : List Line → Prop
  | [] => True
  | l :: ls => l.terminated = true ∧ (l.text = quit ∨ (Fits l.text ∧ Clean ls))

instance : DecidablePred Fits := fun t =>
  inferInstanceAs (Decidable (t.length + 1 < CMD_MAXLEN - 1 ∧ 0 ∉ t ∧ ¬quit <+: t))

instance decidableClean : DecidablePred Clean
  | [] => isTrue trivial
  | l :: ls =>
    haveI := decidableClean ls
    inferInstanceAs (Decidable (l.terminated = true ∧ (l.text = quit ∨ (Fits l.text ∧ Clean ls))))

/-- **The shell does as it should**: it executes the commands of its input and exits. -/
def Right (input : List UInt8) (s : Shell) : Prop :=
  s.execd = commands (lines input) ∧ ∃ status, s.ended = some (.exited status)

/-! ### What the shell does -/

/-- Why the shell stops. -/
inductive Stop where
  /-- A string begins with `quit`. -/
  | quit
  /-- The input is at its end. -/
  | eof
  /-- An empty string has been read. -/
  | wild
  deriving DecidableEq, Repr

/-- What comes of a command, when `rest` comes of the rest of the input. -/
def andThen (c : List UInt8) (rest : List (List UInt8) × Stop) : List (List UInt8) × Stop :=
  if quit <+: c then ([], .quit)
  else if c = [] then rest
  else (c :: rest.1, rest.2)

/-- What `fgets` takes of the input. -/
def piece (input : List UInt8) : List UInt8 := taken (CMD_MAXLEN - 1 - 1) input

/-- **What the shell executes of an input**, and why it stops. -/
def session (input : List UInt8) : List (List UInt8) × Stop :=
  if _ : input = [] then ([], .eof)
  else if cstr (piece input) = [] then ([], .wild)
  else andThen (cstr (piece input)).dropLast (session (input.drop (piece input).length))
termination_by input.length
decreasing_by exact length_drop_taken_lt (by decide) (by assumption)

section Sessions

variable {input t r cmdstr : List UInt8} {ls : List Line}

theorem session_nil : session [] = ([], .eof) := by
  rw [session, dif_pos rfl]

theorem session_wild (hne : input ≠ []) (h : cstr (piece input) = []) :
    session input = ([], .wild) := by
  rw [session, dif_neg hne, if_pos h]

theorem session_step (hne : input ≠ []) (h : cstr (piece input) ≠ []) :
    session input =
      andThen (cstr (piece input)).dropLast (session (input.drop (piece input).length)) := by
  rw [session, dif_neg hne, if_neg h]

/-- **What the chopping does** to a string. -/
theorem chop_cases (m : List UInt8) :
    (cstr m = [] ∧ chop m r = .wild) ∨
    (cstr m ≠ [] ∧ ∃ m', m'.length = m.length ∧ cstr m' = (cstr m).dropLast ∧
      chop m r = .cmd m' r) := by
  unfold chop
  cases hk : strlen m with
  | zero => exact Or.inl ⟨List.length_eq_zero_iff.mp hk, rfl⟩
  | succ k =>
    have hlen : (cstr m).length = k + 1 := hk
    refine Or.inr ⟨List.ne_nil_of_length_eq_add_one hlen, m.set k 0, List.length_set, ?_, rfl⟩
    rw [cstr_set_zero (by omega), List.dropLast_eq_take, hlen, Nat.add_sub_cancel]

/-- **What `getcmd` does** with a buffer of its size, by what `fgets` takes. -/
theorem getcmd_cases (input : List UInt8) (hlen : cmdstr.length = CMD_MAXLEN) :
    (input = [] ∧ getcmd cmdstr input = .null) ∨
    (input ≠ [] ∧ cstr (piece input) = [] ∧ getcmd cmdstr input = .wild) ∨
    (input ≠ [] ∧ cstr (piece input) ≠ [] ∧ ∃ m, m.length = CMD_MAXLEN ∧
      cstr m = (cstr (piece input)).dropLast ∧
      getcmd cmdstr input = .cmd m (input.drop (piece input).length)) := by
  rcases eq_or_ne input [] with rfl | hne
  · exact Or.inl ⟨rfl, rfl⟩
  · have hfits : (piece input).length < cmdstr.length := by
      have hle : (piece input).length ≤ CMD_MAXLEN - 1 - 1 := length_taken_le _ _
      have hmax : CMD_MAXLEN - 1 - 1 < CMD_MAXLEN := by decide
      omega
    have hstr := cstr_append_zero (piece input) (cmdstr.drop ((piece input).length + 1))
    have hget : getcmd cmdstr input =
        chop (piece input ++ 0 :: cmdstr.drop ((piece input).length + 1))
          (input.drop (piece input).length) := by
      rw [getcmd, fgets_of_ne_nil hne]
      rfl
    refine Or.inr ?_
    rcases chop_cases (piece input ++ 0 :: cmdstr.drop ((piece input).length + 1)) with
      ⟨hnil, hchop⟩ | ⟨hcons, m, hm, hcut, hchop⟩
    · exact Or.inl ⟨hne, hstr ▸ hnil, hget.trans hchop⟩
    · refine Or.inr ⟨hne, hstr ▸ hcons, m, ?_, hstr ▸ hcut, hget.trans hchop⟩
      exact hm.trans ((length_fgets hfits).trans hlen)

/-! ### What it executes, and the lines -/

/-- What is executed fits. -/
theorem fits_of_mem_session {c : List UInt8} (hc : c ∈ (session input).1) : Fits c := by
  induction input using session.induct with
  | case1 =>
    rw [session_nil] at hc
    cases hc
  | case2 input hne hnil =>
    rw [session_wild hne hnil] at hc
    cases hc
  | case3 input hne hcons ih =>
    rw [session_step hne hcons, andThen] at hc
    split_ifs at hc with hquit hempty
    · cases hc
    · exact ih hc
    · rcases List.mem_cons.mp hc with rfl | hmem
      · refine ⟨?_, fun h0 => ?_, hquit⟩
        · have hpos : 0 < (cstr (piece input)).length := List.length_pos_iff.mpr hcons
          have hle : (cstr (piece input)).length ≤ (piece input).length := strlen_le _
          have hmax : (piece input).length ≤ CMD_MAXLEN - 1 - 1 := length_taken_le _ _
          rw [List.length_dropLast]
          omega
        · exact zero_notMem_cstr _ (List.mem_of_mem_dropLast h0)
      · exact ih hmem

/-- **A line that fits** is read as it stands. -/
theorem session_of_fits (ht : newline ∉ t) (hfits : Fits t) :
    session (t ++ newline :: r) = if t = [] then session r else
      (t :: (session r).1, (session r).2) := by
  obtain ⟨hlen, h0, hquit⟩ := hfits
  have hpiece : piece (t ++ newline :: r) = t ++ [newline] := taken_terminated ht (by omega)
  have hcstr : cstr (t ++ [newline]) = t ++ [newline] := by
    refine cstr_eq_self fun h => ?_
    rcases List.mem_append.mp h with h | h
    · exact h0 h
    · exact absurd (List.mem_singleton.mp h) (by decide)
  have hrest : (t ++ newline :: r).drop (t ++ [newline]).length = r := by
    have hassoc : t ++ newline :: r = (t ++ [newline]) ++ r := by simp
    rw [hassoc, List.drop_left]
  rw [session_step (by simp) (by rw [hpiece, hcstr]; simp), hpiece, hcstr, hrest,
    List.dropLast_concat, andThen, if_neg hquit]

/-- The line `quit` ends the shell. -/
theorem session_of_quit : session (quit ++ newline :: r) = ([], .quit) := by
  have hpiece : piece (quit ++ newline :: r) = quit ++ [newline] :=
    taken_terminated (by decide) (by decide)
  rw [session_step (by simp) (by rw [hpiece]; decide), hpiece, andThen]
  exact if_pos (by decide)

/-- **A last line without a newline** loses its last byte. -/
theorem session_unterminated (ht : newline ∉ t) (hne : t ≠ []) (h0 : 0 ∉ t)
    (hlen : t.length ≤ CMD_MAXLEN - 1 - 1) : session t = andThen t.dropLast ([], .eof) := by
  have hpiece : piece t = t := taken_unterminated ht hlen
  have hcstr : cstr t = t := cstr_eq_self h0
  rw [session_step hne (by rwa [hpiece, hcstr]), hpiece, hcstr, List.drop_length, session_nil]

/-- What is left of a text that has lost a byte is another text. -/
theorem andThen_dropLast_ne (hne : t ≠ []) : (andThen t.dropLast ([], .eof)).1 ≠ [t] := by
  rw [andThen]
  split_ifs with hquit hnil
  · simp
  · simp
  · intro h
    have hlen := congrArg List.length (List.cons.inj h).1
    have hpos : 0 < t.length := List.length_pos_iff.mpr hne
    rw [List.length_dropLast] at hlen
    omega

theorem commands_cons (l : Line) (ls : List Line) :
    commands (l :: ls) =
      if l.text = quit then [] else if l.text = [] then commands ls else l.text :: commands ls := by
  unfold commands
  rw [List.map_cons, List.takeWhile_cons]
  by_cases hquit : l.text = quit
  · rw [if_neg (by simpa using hquit), if_pos hquit]
    rfl
  · rw [if_pos (by simpa using hquit), if_neg hquit, List.filter_cons]
    by_cases hnil : l.text = []
    · rw [if_neg (by simpa using hnil), if_pos hnil]
    · rw [if_pos (by simpa using hnil), if_neg hnil]

/-- **On a clean input** the commands are executed, and no byte outside the buffer is
written. -/
theorem session_of_clean (h : Clean (lines input)) :
    (session input).1 = commands (lines input) ∧ (session input).2 ≠ .wild := by
  generalize hls : lines input = ls at h
  induction ls generalizing input with
  | nil =>
    rcases lines_cases input with rfl | ⟨-, -, hlast⟩ | ⟨t, r, -, -, hcons⟩
    · rw [session_nil]
      exact ⟨rfl, by simp⟩
    · exact absurd (hls.symm.trans hlast) (by simp)
    · exact absurd (hls.symm.trans hcons) (by simp)
  | cons l ls ih =>
    obtain ⟨hterm, htext⟩ := h
    rcases lines_cases input with rfl | ⟨-, -, hlast⟩ | ⟨t, r, ht, rfl, hcons⟩
    · cases hls
    · obtain ⟨rfl, -⟩ := List.cons.inj (hls.symm.trans hlast)
      cases hterm
    · obtain ⟨rfl, rfl⟩ := List.cons.inj (hls.symm.trans hcons)
      rw [commands_cons]
      rcases htext with hquit | ⟨hfits, hclean⟩
      · obtain rfl : t = quit := hquit
        rw [session_of_quit, if_pos rfl]
        exact ⟨rfl, by simp⟩
      · obtain ⟨hexec, hstop⟩ := ih rfl hclean
        have hquit : ¬t = quit := fun h => hfits.2.2 (h ▸ List.prefix_rfl)
        rw [session_of_fits ht hfits, if_neg hquit]
        by_cases hnil : t = []
        · rw [if_pos hnil, if_pos hnil]
          exact ⟨hexec, hstop⟩
        · rw [if_neg hnil, if_neg hnil, hexec]
          exact ⟨rfl, hstop⟩

/-- **If the commands are executed**, the input is clean: what is executed fits, and a last
line without a newline is not. -/
theorem clean_of_session (h : (session input).1 = commands (lines input)) :
    Clean (lines input) := by
  generalize hls : lines input = ls at h
  induction ls generalizing input with
  | nil => trivial
  | cons l ls ih =>
    -- a line that is not empty is among the commands, and so fits
    have hfits : l.text ≠ quit → Fits l.text := by
      intro hquit
      by_cases hnil : l.text = []
      · rw [hnil]
        decide
      · have hmem : l.text ∈ (session input).1 := by
          rw [h, commands_cons, if_neg hquit, if_neg hnil]
          exact List.mem_cons_self
        exact fits_of_mem_session hmem
    rcases lines_cases input with rfl | ⟨hnl, hne, hlast⟩ | ⟨t, r, ht, rfl, hcons⟩
    · cases hls
    · obtain ⟨rfl, rfl⟩ := List.cons.inj (hls.symm.trans hlast)
      rw [commands_cons] at h
      by_cases hquit : input = quit
      · subst hquit
        rw [session_unterminated hnl hne (by decide) (by decide)] at h
        exact absurd h (by decide)
      · obtain ⟨hlen, h0, -⟩ := hfits hquit
        change input.length + 1 < CMD_MAXLEN - 1 at hlen
        rw [session_unterminated hnl hne h0 (by omega), if_neg hquit, if_neg hne] at h
        exact absurd h (andThen_dropLast_ne hne)
    · obtain ⟨rfl, rfl⟩ := List.cons.inj (hls.symm.trans hcons)
      refine ⟨rfl, ?_⟩
      by_cases hquit : t = quit
      · exact Or.inl hquit
      · refine Or.inr ⟨hfits hquit, ih rfl ?_⟩
        rw [session_of_fits ht (hfits hquit), commands_cons, if_neg hquit] at h
        by_cases hnil : t = []
        · rwa [if_pos hnil, if_pos hnil] at h
        · rw [if_neg hnil, if_neg hnil] at h
          exact (List.cons.inj h).2

end Sessions

/-! ### The shell and its session -/

/-- No fork and no wait fails. -/
def Label.Works : Label → Prop
  | .fork a => a = .ok
  | .waitFails => False
  | _ => True

instance : DecidablePred Label.Works := fun l => by
  cases l <;> unfold Label.Works <;> infer_instance

/-- The commands `e` have been executed, and `rest` comes of the rest of the input. -/
def after (e : List (List UInt8)) (rest : List (List UInt8) × Stop) :
    List (List UInt8) × Stop :=
  (e ++ rest.1, rest.2)

/-- **Where the shell is in its session**, once it has its buffer: what has been executed, and
what is still to come. -/
def InSession (input : List UInt8) (s : Shell) : Pc → Prop
  | .getcmd | .wait =>
    s.cmd.length = CMD_MAXLEN ∧ session input = after s.execd (session s.input)
  | .eofFatal => session input = (s.execd, .eof)
  | .test => s.cmd.length = CMD_MAXLEN ∧
      session input = after s.execd (andThen (cstr s.cmd) (session s.input))
  | .fork => s.cmd.length = CMD_MAXLEN ∧
      session input = after (s.execd ++ [cstr s.cmd]) (session s.input)
  | .calloc | .callocFatal | .forkFatal | .waitFatal => False

/-- **The shell does its session.** -/
def DoesSession (input : List UInt8) (s : Shell) : Prop :=
  match s.ended with
  | none => InSession input s s.pc
  | some (.exited _) => session input = (s.execd, .quit) ∨ session input = (s.execd, .eof)
  | some .wild => (session input).2 = .wild
  | some .noBuffer => True

section Runs

variable {v : Version} {input : List UInt8} {s s' : Shell} {l : Label} {ls : List Label}

theorem doesSession_iff (hended : s.ended = none) :
    DoesSession input s ↔ InSession input s s.pc := by
  unfold DoesSession
  rw [hended]

theorem InSession.does (h : InSession input s s.pc) (hended : s.ended = none) :
    DoesSession input s := (doesSession_iff hended).mpr h

/-- The children are nothing to the session. -/
theorem doesSession_children (cs : List Child) :
    DoesSession input { s with children := cs } ↔ DoesSession input s := by
  obtain ⟨pc, rest, cmd, execd, children, reports, ended⟩ := s
  rcases ended with _ | (_ | _ | _)
  · cases pc <;> exact Iff.rfl
  all_goals exact Iff.rfl

/-- **The shell reads**: what is to come begins with the string it has read. -/
theorem InSession.getcmd (h : InSession input s .getcmd) (hpc : s.pc = .getcmd)
    (hended : s.ended = none) (hstep : shellStep v s .go = some s') :
    DoesSession input s' ∧ s'.ended ≠ some .noBuffer := by
  simp only [Simpsh.shellStep, hpc] at hstep
  obtain ⟨hlen, hsession⟩ := h
  rcases getcmd_cases s.input hlen with
    ⟨hnil, hget⟩ | ⟨hne, hempty, hget⟩ | ⟨hne, hcons, m, hm, hcut, hget⟩
  · rw [hget] at hstep
    obtain rfl := Option.some.inj hstep
    refine ⟨InSession.does ?_ hended, by simp [hended]⟩
    rw [hnil, session_nil] at hsession
    exact hsession.trans (by rw [after, List.append_nil])
  · rw [hget] at hstep
    obtain rfl := Option.some.inj hstep
    refine ⟨?_, by simp⟩
    change (session input).2 = .wild
    rw [hsession, session_wild hne hempty]
    rfl
  · rw [hget] at hstep
    obtain rfl := Option.some.inj hstep
    refine ⟨InSession.does ⟨hm, ?_⟩ hended, by simp [hended]⟩
    rw [hcut, ← session_step hne hcons]
    exact hsession

/-- **The shell looks at its command.** -/
theorem InSession.test (h : InSession input s .test) (hpc : s.pc = .test)
    (hended : s.ended = none) (hstep : shellStep v s .go = some s') :
    DoesSession input s' ∧ s'.ended ≠ some .noBuffer := by
  simp only [Simpsh.shellStep, hpc] at hstep
  obtain ⟨hlen, hsession⟩ := h
  have hmem : s.cmd ≠ [] := List.ne_nil_of_length_eq_add_one hlen
  have hquit : strncmpEq s.cmd quit 4 = true ↔ quit <+: cstr s.cmd := strncmpEq_iff s.cmd quit
  rw [andThen] at hsession
  split_ifs at hstep with hq hnil
  · obtain rfl := Option.some.inj hstep
    refine ⟨Or.inl ?_, by simp⟩
    rw [hsession, if_pos (hquit.mp hq), after, List.append_nil]
  · obtain rfl := Option.some.inj hstep
    refine ⟨InSession.does ⟨hlen, ?_⟩ hended, by simp [hended]⟩
    rw [hsession, if_neg (mt hquit.mpr hq), if_pos ((cstr_eq_nil_iff hmem).mpr hnil)]
  · obtain rfl := Option.some.inj hstep
    refine ⟨InSession.does ⟨hlen, ?_⟩ hended, by simp [hended]⟩
    rw [hsession, if_neg (mt hquit.mpr hq), if_neg (mt (cstr_eq_nil_iff hmem).mp hnil), after,
      after, List.append_assoc]
    rfl

/-- **A step of the shell**, no fork and no wait failing, goes on with the session; the shell
is left without a buffer when `FATAL` comes back. -/
theorem DoesSession.shellStep (h : DoesSession input s) (hl : l.Works) (hended : s.ended = none)
    (hstep : shellStep v s l = some s') :
    DoesSession input s' ∧ (s'.ended = some .noBuffer ↔ l = .alloc .err) := by
  rw [doesSession_iff hended] at h
  have hst := hstep
  unfold Simpsh.shellStep at hstep
  cases hpc : s.pc <;> rw [hpc] at h <;> cases l <;> simp only [hpc, reduceCtorEq] at hstep
  case getcmd.go =>
    obtain ⟨hsession, hbuf⟩ := h.getcmd hpc hended hst
    exact ⟨hsession, by simp [hbuf]⟩
  case eofFatal.alloc a =>
    rcases fatalNoBuffer_cases hstep with ⟨hne, rfl⟩ | ⟨rfl, rfl⟩
    · exact ⟨Or.inr h, by simp [hne]⟩
    · exact ⟨trivial, by simp⟩
  case test.go =>
    obtain ⟨hsession, hbuf⟩ := h.test hpc hended hst
    exact ⟨hsession, by simp [hbuf]⟩
  case fork.fork a =>
    -- it succeeds, and the command is executed
    obtain ⟨hlen, hsession⟩ := h
    obtain ⟨ok, hok, rfl⟩ := Option.map_eq_some_iff.mp hstep
    obtain rfl := hl
    obtain rfl : true = ok := Option.some.inj hok
    exact ⟨InSession.does ⟨hlen, hsession⟩ hended, by simp [hended]⟩
  case wait.wait k =>
    obtain ⟨hlen, hsession⟩ := h
    split at hstep
    · obtain rfl := Option.some.inj hstep
      exact ⟨InSession.does ⟨hlen, hsession⟩ hended, by simp [hended]⟩
    · cases hstep
  case wait.waitFails => exact hl.elim
  all_goals exact h.elim

/-- **One step**, no fork and no wait failing. -/
theorem DoesSession.step (h : DoesSession input s) (hl : l.Works)
    (hstep : step v s l = some s') :
    DoesSession input s' ∧
      (s'.ended = some .noBuffer ↔ s.ended = some .noBuffer ∨ l = .alloc .err) := by
  by_cases hchild : ∃ k ch, l = .child k ch
  · obtain ⟨k, ch, rfl⟩ := hchild
    obtain ⟨cs, rfl⟩ := step_child hstep
    exact ⟨(doesSession_children cs).mpr h, by simp⟩
  · have hl' : ∀ k ch, l ≠ .child k ch := fun k ch he => hchild ⟨k, ch, he⟩
    obtain ⟨hended, hst⟩ := step_shell hl' hstep
    obtain ⟨hsession, hbuf⟩ := h.shellStep hl hended hst
    exact ⟨hsession, by simp [hbuf, hended]⟩

/-- **The whole session**, from the allocation of the buffer on. -/
theorem doesSession_run (hworks : ∀ l ∈ ls, l.Works)
    (hrun : run (step v) (Shell.start input) (.alloc .ok :: ls) = some s) :
    DoesSession input s ∧ (s.ended = some .noBuffer ↔ Label.alloc .err ∈ ls) := by
  have hrun' := hrun
  rw [run_cons] at hrun'
  have hstart : DoesSession input
      ⟨.getcmd, input, List.replicate CMD_MAXLEN 0, [], [], [], none⟩ := ⟨rfl, rfl⟩
  obtain ⟨hsession, hbuf⟩ := run_mark (P := DoesSession input)
    (Q := fun s => s.ended = some .noBuffer) (D := fun l => l = .alloc .err)
    (fun s l t hs hl hst => hs.step hl hst) hstart hworks hrun'
  exact ⟨hsession, by simpa using hbuf⟩

/-- A shell that has ended without a child does nothing. -/
theorem run_ended (hended : s.ended ≠ none) (hchildren : s.children = [])
    (hrun : run (step v) s ls = some s') : ls = [] := by
  cases ls with
  | nil => rfl
  | cons l ls =>
    obtain ⟨t, hst, -⟩ := run_cons_eq_some.mp hrun
    by_cases hchild : ∃ k ch, l = .child k ch
    · obtain ⟨k, ch, rfl⟩ := hchild
      simp [step, hchildren] at hst
    · exact absurd (step_shell (fun k ch he => hchild ⟨k, ch, he⟩) hst).1 hended

/-- The first step allocates the buffer, or fails to. -/
theorem start_cases (h : step v (Shell.start input) l = some s) :
    l = .alloc .ok ∨ (l = .alloc .err ∧ s = { Shell.start input with pc := .callocFatal }) := by
  cases l <;> simp only [step, Shell.start, shellStep, reduceCtorEq] at h
  case alloc a =>
    obtain ⟨ok, hok, rfl⟩ := Option.map_eq_some_iff.mp h
    rcases Answer.status_cases hok with ⟨rfl, rfl⟩ | ⟨rfl, rfl⟩
    · exact Or.inl rfl
    · exact Or.inr ⟨rfl, rfl⟩
  case child k ch => simp at h

/-- Without a buffer the shell exits, or goes on all the same. -/
theorem callocFatal_cases
    (hrun : run (step v) { Shell.start input with pc := .callocFatal } ls = some s)
    (hend : s.ended ≠ none) :
    s.execd = [] ∧ ((ls = [.alloc .ok] ∧ s.ended = some (.exited EXIT_FAILURE)) ∨
      (ls ≠ [.alloc .ok] ∧ s.ended = some .noBuffer)) := by
  cases ls with
  | nil =>
    obtain rfl := Option.some.inj hrun
    exact absurd rfl hend
  | cons l ls =>
    obtain ⟨t, hst, hrest⟩ := run_cons_eq_some.mp hrun
    cases l <;> simp only [step, Shell.start, shellStep, reduceCtorEq] at hst
    case alloc a =>
      rcases fatalNoBuffer_cases hst with ⟨hne, rfl⟩ | ⟨rfl, rfl⟩
      · obtain rfl : ls = [] := run_ended (by simp) rfl hrest
        obtain rfl := Option.some.inj hrest
        have hok : a = .ok := by
          cases a <;> first | rfl | exact absurd rfl hne | cases hst
        exact ⟨rfl, Or.inl ⟨by rw [hok], rfl⟩⟩
      · obtain rfl : ls = [] := run_ended (by simp) rfl hrest
        obtain rfl := Option.some.inj hrest
        exact ⟨rfl, Or.inr ⟨by simp, rfl⟩⟩
    case child k ch => simp at hst

/-- **When the shell does as it should**: it executes the commands of its input and exits –
no fork and no wait failing – exactly if its memory is allocated and the input is clean, or
the buffer is not, the shell exits, and there was nothing to execute. -/
theorem commands_iff (hworks : ∀ l ∈ ls, l.Works)
    (hrun : run (step v) (Shell.start input) ls = some s) (hend : s.ended ≠ none) :
    Right input s ↔ (Clean (lines input) ∧ Label.alloc .err ∉ ls) ∨
      (commands (lines input) = [] ∧ ls = [.alloc .err, .alloc .ok]) := by
  cases ls with
  | nil =>
    obtain rfl := Option.some.inj hrun
    exact absurd rfl hend
  | cons l ls =>
    obtain ⟨hl, hls⟩ := List.forall_mem_cons.mp hworks
    obtain ⟨t, hst, hrest⟩ := run_cons_eq_some.mp hrun
    rcases start_cases hst with rfl | ⟨rfl, rfl⟩
    · obtain ⟨hsession, hbuf⟩ := doesSession_run hls hrun
      constructor
      · rintro ⟨hexec, status, hexit⟩
        unfold DoesSession at hsession
        simp only [hexit] at hsession
        have hfst : (session input).1 = s.execd := by
          rcases hsession with h | h <;> rw [h]
        refine Or.inl ⟨clean_of_session (hfst.trans hexec), fun hmem => ?_⟩
        have herr := hbuf.mpr (by simpa using hmem)
        rw [hexit] at herr
        cases herr
      · rintro (⟨hclean, hmem⟩ | ⟨-, heq⟩)
        · obtain ⟨hexec, hstop⟩ := session_of_clean hclean
          unfold DoesSession at hsession
          cases hended : s.ended with
          | none => exact absurd hended hend
          | some e =>
            rw [hended] at hsession
            cases e with
            | exited status =>
              refine ⟨?_, status, hended⟩
              rw [← hexec]
              rcases hsession with h | h <;> rw [h]
            | wild => exact absurd hsession hstop
            | noBuffer => exact absurd (List.mem_cons_of_mem _ (hbuf.mp hended)) hmem
        · cases heq
    · have herr : ¬(Clean (lines input) ∧ Label.alloc .err ∉ Label.alloc .err :: ls) :=
        fun h => h.2 List.mem_cons_self
      obtain ⟨hexec, ⟨rfl, hended⟩ | ⟨hne, hended⟩⟩ := callocFatal_cases hrest hend
      · refine Iff.trans ?_ (or_iff_right herr).symm
        rw [Right, hexec]
        exact ⟨fun h => ⟨h.1.symm, rfl⟩, fun h => ⟨h.1.symm, _, hended⟩⟩
      · refine iff_of_false ?_ (not_or.mpr ⟨herr, fun h => hne (List.cons.inj h.2).2⟩)
        rintro ⟨-, status, hexit⟩
        rw [hended] at hexit
        cases hexit

end Runs

/-- A command is read, executed by child `k`, and waited for. -/
def oneCommand (k : ℕ) : List Label :=
  [.go, .go, .fork .ok, .child k (.exited 0), .wait k]

/-- The lines `ls`, an empty one, `id` and `quit`. -/
def cleanInput : List UInt8 := [108, 115, 10, 10, 105, 100, 10, 113, 117, 105, 116, 10]

theorem commands_iff_at :
    ∃ s : Shell, run (step .v3) (Shell.start cleanInput)
        (.alloc .ok :: oneCommand 0 ++ [.go, .go] ++ oneCommand 1 ++ [.go, .go]) = some s ∧
      s.execd = [[108, 115], [105, 100]] ∧ Right cleanInput s := by
  obtain ⟨s, hs, hexec, hend⟩ : ∃ s : Shell, run (step .v3) (Shell.start cleanInput)
        (.alloc .ok :: oneCommand 0 ++ [.go, .go] ++ oneCommand 1 ++ [.go, .go]) = some s ∧
      s.execd = [[108, 115], [105, 100]] ∧ s.ended = some (.exited 0) := ⟨_, rfl, rfl, rfl⟩
  refine ⟨s, hs, hexec, (commands_iff (by decide) hs (by simp [hend])).mpr (Or.inl ?_)⟩
  decide

/-- **A command that is cut, and a byte outside the buffer.** Of the input `ls` without a
newline the shell executes `l`; a line that begins with a NUL makes it write to the byte in
front of its buffer. -/
theorem cut_and_wild :
    (∃ s : Shell, run (step .v3) (Shell.start [108, 115])
        (.alloc .ok :: oneCommand 0 ++ [.go, .alloc .ok]) = some s ∧
      s.ended = some (.exited 1) ∧ s.execd = [[108]] ∧ ¬Right [108, 115] s) ∧
    ∃ s : Shell, run (step .v3) (Shell.start [0, 10]) [.alloc .ok, .go] = some s ∧
      s.ended = some .wild ∧ ¬Right [0, 10] s := by
  constructor
  · refine ⟨_, rfl, rfl, rfl, fun h => ?_⟩
    exact absurd h.1 (by decide)
  · refine ⟨_, rfl, rfl, fun h => ?_⟩
    obtain ⟨status, hexit⟩ := h.2
    cases hexit

end Simpsh

end SystemProgramming
