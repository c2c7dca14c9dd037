import SystemProgramming.Calls
import SystemProgramming.HandleErr
import SystemProgramming.Runs

/-!
# A mailbox that a signal handler fills

`sigq_recv` (`ch12/sigq_ipc/`): producers queue signals that carry an integer; the handler
of the consumer leaves each one, with its sender and the time, in the global record
`recv_data`, and sets the flag `data_recvd`. The consumer wakes every three seconds, and
when the flag is set it displays the record and *then* clears the flag.

All signals are masked while the handler runs, but the consumer masks none. A handler that
runs while the record is being displayed changes it under the display's hands; one that
runs between the display and the clearing of the flag delivers a message that nobody looks
at any more.

The two processes are one step function (`SystemProgramming.SigqRecv.step`); a step of the
consumer is one access to the record, in whatever order the arguments of `printf` are
evaluated. The runs in which no handler comes between the first access of a display and
the clearing of the flag use the record as a mailbox that keeps the latest message
(`SystemProgramming.SigqRecv.latest_kept`).
-/

namespace SystemProgramming

open HandleErr Runs

namespace SigqRecv

/-- `SIGRTMIN`, as the C library numbers it. -/
def SIG_COMM : ℤ := 34

/-! ### The record -/

/-- What `siginfo_t` tells the handler of a queued signal. -/
structure SigInfo where
  pid : ℤ
  uid : ℤ
  value : ℤ
  deriving DecidableEq, Repr

/-- The record `rcv_data_t`. -/
structure RcvData where
  timestamp : ℤ
  signum : ℤ
  senderPid : ℤ
  senderUid : ℤ
  data : ℤ
  deriving DecidableEq, Repr

/-- A field that `printf` is handed. -/
inductive Field where
  | signum
  | senderPid
  | senderUid
  | data
  deriving DecidableEq, Repr

namespace RcvData

/-- The record as the program is loaded. -/
def zero : RcvData := ⟨0, 0, 0, 0, 0⟩

/-- What a field holds. -/
def get (r : RcvData) : Field → ℤ
  | .signum => r.signum
  | .senderPid => r.senderPid
  | .senderUid => r.senderUid
  | .data => r.data

/-- A field is given a value. -/
def set (r : RcvData) (v : ℤ) : Field → RcvData
  | .signum => { r with signum := v }
  | .senderPid => { r with senderPid := v }
  | .senderUid => { r with senderUid := v }
  | .data => { r with data := v }

end RcvData

/-! ### The processes -/

/-- Where the consumer stands. -/
inductive Pc where
  /-- About to install the handler. -/
  | sigaction
  /-- That failed; `FATAL` is about to allocate its message. -/
  | sigactionFatal
  /-- About to print its greeting. -/
  | hello
  /-- Asleep. -/
  | sleep
  /-- About to look at the flag. -/
  | test
  /-- About to read the time in the record. -/
  | ctime
  /-- The fields in `todo` are still to be read; `shown` has what has been read. -/
  | args (todo : List Field) (shown : RcvData)
  /-- About to clear the flag. -/
  | clear
  deriving DecidableEq, Repr

/-- How the consumer ends. -/
inductive End where
  /-- It has exited with this status. -/
  | exited (status : ℤ)
  /-- A signal without a handler has killed it. -/
  | killed
  deriving DecidableEq, Repr

/-- What has been displayed, with the number of messages delivered by then. -/
structure Display where
  shown : RcvData
  upTo : ℕ
  deriving DecidableEq, Repr

/-- The state of the consumer. -/
structure System where
  pc : Pc
  /-- The handler is installed. -/
  installed : Bool
  /-- The signals queued and not delivered, the oldest first. -/
  queue : List SigInfo
  recvData : RcvData
  dataRecvd : Bool
  /-- The messages delivered, as the handler has recorded them. -/
  delivered : List RcvData
  displayed : List Display
  ended : Option End
  deriving DecidableEq, Repr

/-- What happens. -/
inductive Label where
  /-- A producer, with this process id and user id, sends a value; `kill` and `sigqueue`
  are whether these calls succeed. -/
  | send (pid uid value : ℤ) (kill sigqueue : Bool)
  /-- The handler runs for the oldest queued signal; `tm` is what its variable of this
  name holds after the call of `time`. -/
  | handle (tm : ℤ)
  /-- The consumer makes its next step, its call being answered so. -/
  | main (a : Answer)
  /-- The consumer reads a field for `printf`. -/
  | read (f : Field)
  deriving DecidableEq, Repr

/-- The consumer is loaded. -/
def System.start : System := ⟨.sigaction, false, [], .zero, false, [], [], none⟩

/-- `send_peer`: what it returns, and the signals it queues. -/
def sendPeer (pid uid value : ℤ) (kill sigqueue : Bool) : ℤ × List SigInfo :=
  if kill = false then (-1, [])
  else if sigqueue = false then (-2, [])
  else (0, [⟨pid, uid, value⟩])

/-- `read_msg`, which nothing interrupts. A failure of `time` is only warned of. -/
def readMsg (si : SigInfo) (tm : ℤ) (s : System) : System :=
  let r : RcvData := ⟨tm, SIG_COMM, si.pid, si.uid, si.value⟩
  { s with recvData := r, dataRecvd := true, delivered := s.delivered ++ [r] }

/-- The delivery of the oldest queued signal. -/
def deliver (tm : ℤ) (s : System) : Option System :=
  match s.queue with
  | [] => none
  | si :: rest =>
    if s.installed then some (readMsg si tm { s with queue := rest })
    else some { s with queue := rest, ended := some .killed }

/-- `main`, with `display_recv_data`. The sleep is resumed when a handler has interrupted
it, and its value is not looked at. -/
def mainStep (s : System) (a : Answer) : Option System :=
  match s.pc, a with
  | .sigaction, a => a.status.map fun ok =>
    if ok then { s with pc := .hello, installed := true } else { s with pc := .sigactionFatal }
  | .sigactionFatal, a =>
    afterFatal a (fun status => { s with ended := some (.exited status) }) { s with pc := .hello }
  | .hello, .ok => some { s with pc := .sleep }
  | .sleep, a => a.status.map fun _ => { s with pc := .test }
  | .test, .ok => some { s with pc := if s.dataRecvd then .ctime else .sleep }
  | .ctime, .ok =>
    let shown := { RcvData.zero with timestamp := s.recvData.timestamp }
    some { s with pc := .args [.signum, .senderPid, .senderUid, .data] shown }
  | .args [] shown, .ok =>
    some { s with pc := .clear, displayed := s.displayed ++ [⟨shown, s.delivered.length⟩] }
  | .clear, .ok => some { s with pc := .sleep, dataRecvd := false }
  | _, _ => none

/-- The evaluation of an argument of `printf`. -/
def readStep (s : System) (f : Field) : Option System :=
  match s.pc with
  | .args todo shown =>
    if f ∈ todo then
      some { s with pc := .args (todo.erase f) (shown.set (s.recvData.get f) f) }
    else none
  | _ => none

/-- A step of a consumer that is there. -/
def move (s : System) : Label → Option System
  | .send pid uid value kill sigqueue =>
    some { s with queue := s.queue ++ (sendPeer pid uid value kill sigqueue).2 }
  | .handle tm => deliver tm s
  | .main a => mainStep s a
  | .read f => readStep s f

/-- **The step function.** -/
def step (s : System) (l : Label) : Option System :=
  match s.ended with
  | some _ => none
  | none => move s l

/-! ### The mailbox -/

/-- **The record is a mailbox of the latest message**: what is displayed is the message
delivered last, and whenever the consumer is asleep the last message has been displayed or
is flagged. -/
structure Mailbox (s : System) : Prop where
  whole : ∀ d ∈ s.displayed, ∃ k, d.upTo = k + 1 ∧ s.delivered[k]? = some d.shown
  latest : s.pc = .sleep → s.delivered ≠ [] →
    (s.dataRecvd = true ∧ s.delivered.getLast? = some s.recvData) ∨
      ∃ d ∈ s.displayed, d.upTo = s.delivered.length

/-- The consumer has begun to read the record, and has not cleared the flag. -/
def Pc.displaying : Pc → Bool
  | .args _ _ | .clear => true
  | _ => false

/-- **No handler runs while the record is displayed**, nor before the flag is cleared. -/
def Undisturbed (s : System) : Label → Prop
  | .handle _ => s.pc.displaying = false
  | _ => True

instance (s : System) : DecidablePred (Undisturbed s) := fun l => by
  cases l <;> unfold Undisturbed <;> infer_instance

/-- The last message delivered has been displayed. -/
def Shown (s : System) : Prop := ∃ d ∈ s.displayed, d.upTo = s.delivered.length

/-- What the display has done, by the control point of the consumer. -/
def AtPoint (s : System) : Pc → Prop
  | .ctime => s.dataRecvd = true
  | .args todo shown => s.dataRecvd = true ∧ shown.timestamp = s.recvData.timestamp ∧
      ∀ f, f ∉ todo → shown.get f = s.recvData.get f
  | .clear => Shown s
  | _ => True

/-- **The invariant of the undisturbed runs.** -/
structure Ok (s : System) : Prop where
  whole : ∀ d ∈ s.displayed, ∃ k, d.upTo = k + 1 ∧ s.delivered[k]? = some d.shown
  /-- The record is that of the last message. -/
  last : s.delivered ≠ [] → s.delivered.getLast? = some s.recvData
  flagged : s.dataRecvd = true → s.delivered ≠ []
  cleared : s.dataRecvd = false → s.delivered ≠ [] → Shown s
  point : AtPoint s s.pc

section Steps

variable {s s' : System} {l : Label} {ls : List Label}

theorem ok_start : Ok System.start where
  whole := by simp [System.start]
  last h := absurd rfl h
  flagged h := by cases h
  cleared _ h := absurd rfl h
  point := trivial

theorem Ok.mailbox (h : Ok s) : Mailbox s where
  whole := h.whole
  latest _ hne := by
    cases hflag : s.dataRecvd with
    | true => exact Or.inl ⟨rfl, h.last hne⟩
    | false => exact Or.inr (h.cleared hflag hne)

/-- A consumer that goes on, the record and what has been displayed being as they were. -/
theorem Ok.goto (h : Ok s) {p : Pc} (hp : AtPoint s p) : Ok { s with pc := p } where
  whole := h.whole
  last := h.last
  flagged := h.flagged
  cleared := h.cleared
  point := by cases p <;> exact hp

theorem RcvData.get_set_self (r : RcvData) (v : ℤ) (f : Field) : (r.set v f).get f = v := by
  cases f <;> rfl

theorem RcvData.get_set_of_ne (r : RcvData) (v : ℤ) {f g : Field} (h : g ≠ f) :
    (r.set v f).get g = r.get g := by
  cases f <;> cases g <;> first | rfl | exact absurd rfl h

@[simp] theorem RcvData.timestamp_set (r : RcvData) (v : ℤ) (f : Field) :
    (r.set v f).timestamp = r.timestamp := by
  cases f <;> rfl

/-- Two records with the same time and the same fields are the same. -/
theorem RcvData.ext_get {r r' : RcvData} (htime : r.timestamp = r'.timestamp)
    (h : ∀ f, r.get f = r'.get f) : r = r' := by
  obtain ⟨t, n, p, u, d⟩ := r
  obtain ⟨t', n', p', u', d'⟩ := r'
  obtain rfl : t = t' := htime
  obtain rfl : n = n' := h .signum
  obtain rfl : p = p' := h .senderPid
  obtain rfl : u = u' := h .senderUid
  obtain rfl : d = d' := h .data
  rfl

/-- **A field is read.** -/
theorem Ok.readStep (h : Ok s) {f : Field} (hstep : readStep s f = some s') : Ok s' := by
  unfold SigqRecv.readStep at hstep
  have hpoint := h.point
  cases hpc : s.pc <;> simp only [hpc, reduceCtorEq] at hstep hpoint
  case args todo shown =>
    obtain ⟨hflag, htime, hread⟩ := hpoint
    split_ifs at hstep
    obtain rfl := Option.some.inj hstep
    refine h.goto ⟨hflag, (RcvData.timestamp_set _ _ _).trans htime, fun g hg => ?_⟩
    rcases eq_or_ne g f with rfl | hne
    · exact RcvData.get_set_self _ _ _
    · rw [RcvData.get_set_of_ne _ _ hne]
      exact hread g fun hmem => hg ((List.mem_erase_of_ne hne).mpr hmem)

/-- **The record is displayed**: nothing has changed it since it was first read. -/
theorem Ok.print (h : Ok s) {shown : RcvData} (hpc : s.pc = .args [] shown) :
    Ok { s with pc := .clear, displayed := s.displayed ++ [⟨shown, s.delivered.length⟩] } := by
  have hpoint := h.point
  rw [hpc] at hpoint
  obtain ⟨hflag, htime, hread⟩ := hpoint
  have hne := h.flagged hflag
  obtain rfl : shown = s.recvData := RcvData.ext_get htime fun f => hread f List.not_mem_nil
  constructor
  case whole =>
    intro d hd
    rcases List.mem_append.mp hd with hold | hnew
    · exact h.whole d hold
    · obtain rfl := List.mem_singleton.mp hnew
      refine ⟨s.delivered.length - 1, ?_, ?_⟩
      · have hpos : 0 < s.delivered.length := List.length_pos_iff.mpr hne
        change s.delivered.length = _
        omega
      · rw [← List.getLast?_eq_getElem?]
        exact h.last hne
  case last => exact h.last
  case flagged => exact h.flagged
  case cleared => exact fun hclear => absurd (hflag.symm.trans hclear) (by simp)
  case point => exact ⟨_, List.mem_append_right _ (List.mem_singleton_self _), rfl⟩

/-- **A step of the consumer.** -/
theorem Ok.mainStep (h : Ok s) {a : Answer} (hstep : mainStep s a = some s') : Ok s' := by
  unfold SigqRecv.mainStep at hstep
  have hpoint := h.point
  cases hpc : s.pc <;> simp only [hpc] at hstep hpoint
  case sigaction =>
    obtain ⟨ok, -, rfl⟩ := Option.map_eq_some_iff.mp hstep
    cases ok
    · exact h.goto trivial
    · exact ⟨h.whole, h.last, h.flagged, h.cleared, trivial⟩
  case sigactionFatal =>
    rcases afterFatal_cases hstep with rfl | rfl
    · exact h.goto trivial
    · exact ⟨h.whole, h.last, h.flagged, h.cleared, trivial⟩
  case hello =>
    cases a <;> simp only [reduceCtorEq] at hstep
    obtain rfl := Option.some.inj hstep
    exact h.goto trivial
  case sleep =>
    obtain ⟨ok, -, rfl⟩ := Option.map_eq_some_iff.mp hstep
    exact h.goto trivial
  case test =>
    cases a <;> simp only [reduceCtorEq] at hstep
    obtain rfl := Option.some.inj hstep
    refine h.goto ?_
    split_ifs with hflag
    · exact hflag
    · trivial
  case ctime =>
    cases a <;> simp only [reduceCtorEq] at hstep
    obtain rfl := Option.some.inj hstep
    refine h.goto ⟨hpoint, rfl, fun f hf => ?_⟩
    cases f <;> simp at hf
  case args todo shown =>
    cases todo <;> cases a <;> simp only [reduceCtorEq] at hstep
    obtain rfl := Option.some.inj hstep
    exact h.print hpc
  case clear =>
    cases a <;> simp only [reduceCtorEq] at hstep
    obtain rfl := Option.some.inj hstep
    exact ⟨h.whole, h.last, fun hf => (by cases hf), fun _ _ => hpoint, trivial⟩

/-- **The handler runs**, while the record is not displayed. -/
theorem Ok.readMsg (h : Ok s) (hquiet : s.pc.displaying = false) (si : SigInfo) (tm : ℤ) :
    Ok (readMsg si tm s) := by
  constructor
  case whole =>
    intro d hd
    obtain ⟨k, hk, hget⟩ := h.whole d hd
    refine ⟨k, hk, ?_⟩
    have hlt : k < s.delivered.length := (List.getElem?_eq_some_iff.mp hget).1
    change (s.delivered ++ [_])[k]? = _
    rw [List.getElem?_append_left hlt, hget]
  case last => exact fun _ => List.getLast?_concat
  case flagged => exact fun _ => List.append_ne_nil_of_right_ne_nil _ (List.cons_ne_nil _ _)
  case cleared => exact fun hf => by cases hf
  case point =>
    change AtPoint _ s.pc
    revert hquiet
    cases s.pc
    case args todo shown => exact fun hquiet => by cases hquiet
    case clear => exact fun hquiet => by cases hquiet
    -- the display has not begun, so it is going to read the new message
    case ctime => exact fun _ => rfl
    all_goals exact fun _ => trivial

/-- **One step of an undisturbed run.** -/
theorem Ok.step (h : Ok s) (hl : Undisturbed s l) (hstep : step s l = some s') : Ok s' := by
  have hmove : move s l = some s' := by
    unfold SigqRecv.step at hstep
    split at hstep
    · cases hstep
    · exact hstep
  cases l with
  | send pid uid value kill sigqueue =>
    obtain rfl := Option.some.inj hmove
    exact ⟨h.whole, h.last, h.flagged, h.cleared, h.point⟩
  | handle tm =>
    change deliver tm s = some s' at hmove
    unfold deliver at hmove
    cases hqueue : s.queue with
    | nil => simp [hqueue] at hmove
    | cons si rest =>
      simp only [hqueue] at hmove
      have hq : Ok { s with queue := rest } := ⟨h.whole, h.last, h.flagged, h.cleared, h.point⟩
      split_ifs at hmove
      · obtain rfl := Option.some.inj hmove
        exact hq.readMsg hl si tm
      · obtain rfl := Option.some.inj hmove
        exact ⟨h.whole, h.last, h.flagged, h.cleared, h.point⟩
  | main a => exact h.mainStep hmove
  | read f => exact h.readStep hmove

/-- **The latest message is kept**: in a run in which no handler runs between the first
access of a display and the clearing of the flag, what is displayed is always one message,
and whenever the consumer sleeps the last one has been displayed or is flagged. -/
theorem latest_kept (hquiet : Every SigqRecv.step Undisturbed System.start ls)
    (hrun : run SigqRecv.step System.start ls = some s) : Mailbox s :=
  (hquiet.invariant (P := Ok) (fun _ _ _ hs hl hst => hs.step hl hst) ok_start hrun).mailbox

end Steps

/-- The consumer up to its first sleep, with two messages on their way. -/
def twoSent : List Label :=
  [.main .ok, .main .ok, .send 10 1000 7 true true, .send 20 2000 8 true true]

/-- The consumer displays the record. -/
def display : List Label :=
  [.main .ok, .read .signum, .read .senderPid, .read .senderUid, .read .data, .main .ok]

/-- Two messages, each delivered while the consumer sleeps. -/
theorem latest_kept_at :
    ∃ s : System, run step System.start
        (twoSent ++ [.handle 100, .main .ok, .main .ok] ++ display ++ [.main .ok, .handle 200]) =
          some s ∧
      s.displayed = [⟨⟨100, SIG_COMM, 10, 1000, 7⟩, 1⟩] ∧ s.dataRecvd = true ∧ Mailbox s := by
  obtain ⟨s, hs, hshown, hflag⟩ : ∃ s : System, run step System.start
        (twoSent ++ [.handle 100, .main .ok, .main .ok] ++ display ++ [.main .ok, .handle 200]) =
          some s ∧
      s.displayed = [⟨⟨100, SIG_COMM, 10, 1000, 7⟩, 1⟩] ∧ s.dataRecvd = true := ⟨_, rfl, rfl, rfl⟩
  exact ⟨s, hs, hshown, hflag, latest_kept (by decide) hs⟩

/-- **A mix, and a message lost.** The second message delivered within a display leaves
the sender of the first with the data of the second on the screen; delivered between the
display and the clearing of the flag, it is neither displayed nor flagged when the
consumer sleeps again. -/
theorem mixed_and_lost :
    (∃ s : System, run step System.start
        (twoSent ++ [.handle 100, .main .ok, .main .ok, .main .ok, .read .signum,
          .read .senderPid, .handle 200, .read .senderUid, .read .data, .main .ok]) = some s ∧
      s.delivered = [⟨100, SIG_COMM, 10, 1000, 7⟩, ⟨200, SIG_COMM, 20, 2000, 8⟩] ∧
      s.displayed = [⟨⟨100, SIG_COMM, 10, 2000, 8⟩, 2⟩] ∧ ¬Mailbox s) ∧
    ∃ s : System, run step System.start
        (twoSent ++ [.handle 100, .main .ok, .main .ok] ++ display ++ [.handle 200, .main .ok]) =
          some s ∧
      s.pc = .sleep ∧ s.delivered = [⟨100, SIG_COMM, 10, 1000, 7⟩, ⟨200, SIG_COMM, 20, 2000, 8⟩] ∧
      s.displayed = [⟨⟨100, SIG_COMM, 10, 1000, 7⟩, 1⟩] ∧ s.dataRecvd = false ∧ ¬Mailbox s := by
  constructor
  · refine ⟨_, rfl, rfl, rfl, fun h => ?_⟩
    obtain ⟨k, hk, hget⟩ := h.whole ⟨⟨100, SIG_COMM, 10, 2000, 8⟩, 2⟩ (List.mem_singleton_self _)
    obtain rfl : 1 = k := Nat.succ_injective hk
    exact absurd hget (by decide)
  · refine ⟨_, rfl, rfl, rfl, rfl, rfl, fun h => ?_⟩
    rcases h.latest rfl (List.cons_ne_nil _ _) with ⟨hflag, -⟩ | ⟨d, hd, hup⟩
    · cases hflag
    · obtain rfl := List.mem_singleton.mp hd
      exact absurd hup (by decide)

end SigqRecv

end SystemProgramming
