import Mathlib.Data.Finset.Basic

/-!
# Credentials: the user ids and the capability sets of a process

The kernel's rules for the calls that change them, as the manual pages credentials(7) and
capabilities(7) give them. Nothing here mentions a program.

* `setuid` of a process that has the capability `CAP_SETUID` in its effective set changes
  all three user ids; of another process it changes the effective one, and only to the
  real or the saved one (`SystemProgramming.Cred.setuid`).
* `seteuid` changes the effective user id, to any with `CAP_SETUID` and otherwise to one of
  the three (`SystemProgramming.Cred.seteuid`).
* A change of the user ids changes the capability sets: they are lost when the last id of
  root is given up, and the effective set follows the effective user id
  (`SystemProgramming.Cred.fixup`).
* A process may give up capabilities, and may make effective what it is permitted
  (`SystemProgramming.Cred.capSet`).

So a process without capabilities can become exactly the users its three ids name
(`SystemProgramming.Cred.exists_calls_euid_iff`) – the *saved* id among them. The
inheritable and ambient sets are left out, since none of these rules looks at them.
-/

namespace SystemProgramming

/-- The capability to change the user ids. -/
def CAP_SETUID : ℕ := 7

/-- The capability to administer the system. -/
def CAP_SYS_ADMIN : ℕ := 21

/-- The user ids and the capability sets of a process. User ids are numbers, that of root
being 0; the number that stands for no user is not one of them. -/
structure Cred where
  ruid : ℕ
  euid : ℕ
  /-- The saved user id. -/
  suid : ℕ
  permitted : Finset ℕ
  effective : Finset ℕ
  deriving DecidableEq

namespace Cred

/-- One of the user ids is that of root. -/
def HasRoot (c : Cred) : Prop := c.ruid = 0 ∨ c.euid = 0 ∨ c.suid = 0

instance : DecidablePred HasRoot := fun c =>
  inferInstanceAs (Decidable (c.ruid = 0 ∨ c.euid = 0 ∨ c.suid = 0))

/-- The process has no capability, and cannot make one effective. -/
def Bare (c : Cred) : Prop := c.permitted = ∅ ∧ c.effective = ∅

/-- What the capability sets become when the user ids `old` are changed to those of
`new`. -/
def fixup (old new : Cred) : Cred :=
  let c := if old.HasRoot ∧ ¬new.HasRoot then { new with permitted := ∅, effective := ∅ } else new
  let c := if old.euid = 0 ∧ new.euid ≠ 0 then { c with effective := ∅ } else c
  if old.euid ≠ 0 ∧ new.euid = 0 then { c with effective := c.permitted } else c

/-- The call `setuid`, which has no result when it is not permitted. -/
def setuid (c : Cred) (u : ℕ) : Option Cred :=
  if CAP_SETUID ∈ c.effective then some (fixup c { c with ruid := u, euid := u, suid := u })
  else if u = c.ruid ∨ u = c.suid then some (fixup c { c with euid := u })
  else none

/-- The call `seteuid`. -/
def seteuid (c : Cred) (u : ℕ) : Option Cred :=
  if CAP_SETUID ∈ c.effective ∨ u = c.ruid ∨ u = c.euid ∨ u = c.suid then
    some (fixup c { c with euid := u })
  else none

/-- The capability sets are changed to these, by `cap_set_proc`. -/
def capSet (c : Cred) (permitted effective : Finset ℕ) : Option Cred :=
  if permitted ⊆ c.permitted ∧ effective ⊆ permitted then
    some { c with permitted := permitted, effective := effective }
  else none

/-- A call that changes the user ids. -/
inductive Call where
  | seteuid (u : ℕ)
  | setuid (u : ℕ)
  deriving DecidableEq, Repr

/-- The credentials after a call. One that is not permitted leaves them as they are. -/
def call (c : Cred) : Call → Cred
  | .seteuid u => (c.seteuid u).getD c
  | .setuid u => (c.setuid u).getD c

/-- The credentials after some calls. -/
def calls (c : Cred) (cs : List Call) : Cred := cs.foldl call c

variable {c c' : Cred} {u : ℕ}

/-! ### The changes of the capability sets -/

theorem ruid_fixup (old new : Cred) : (fixup old new).ruid = new.ruid := by
  unfold fixup
  split_ifs <;> rfl

theorem euid_fixup (old new : Cred) : (fixup old new).euid = new.euid := by
  unfold fixup
  split_ifs <;> rfl

theorem suid_fixup (old new : Cred) : (fixup old new).suid = new.suid := by
  unfold fixup
  split_ifs <;> rfl

/-- A process without capabilities does not get any. -/
theorem Bare.fixup (h : Bare c') (old : Cred) : Bare (fixup old c') := by
  obtain ⟨hp, he⟩ := h
  unfold Cred.fixup
  split_ifs <;> exact ⟨by simp [hp], by simp [hp, he]⟩

/-! ### A process without capabilities -/

theorem Bare.not_mem (h : Bare c) : CAP_SETUID ∉ c.effective := by
  rw [h.2]
  exact Finset.notMem_empty _

/-- **One call of a process without capabilities**: it stays without, keeps its real and
saved user ids, and its effective one becomes one of the three. -/
theorem Bare.call (h : Bare c) (k : Call) :
    Bare (c.call k) ∧ (c.call k).ruid = c.ruid ∧ (c.call k).suid = c.suid ∧
      ((c.call k).euid = c.euid ∨ (c.call k).euid = c.ruid ∨ (c.call k).euid = c.suid) := by
  have hcap := h.not_mem
  -- a call that goes through changes the effective user id only
  have hmove : ∀ u, u = c.euid ∨ u = c.ruid ∨ u = c.suid →
      Bare (Cred.fixup c { c with euid := u }) ∧
        (Cred.fixup c { c with euid := u }).ruid = c.ruid ∧
        (Cred.fixup c { c with euid := u }).suid = c.suid ∧
        ((Cred.fixup c { c with euid := u }).euid = c.euid ∨
          (Cred.fixup c { c with euid := u }).euid = c.ruid ∨
          (Cred.fixup c { c with euid := u }).euid = c.suid) := by
    intro u hu
    have hbare : Bare { c with euid := u } := h
    rw [ruid_fixup, suid_fixup, euid_fixup]
    exact ⟨hbare.fixup c, rfl, rfl, hu⟩
  have hstay : Bare c ∧ c.ruid = c.ruid ∧ c.suid = c.suid ∧
      (c.euid = c.euid ∨ c.euid = c.ruid ∨ c.euid = c.suid) := ⟨h, rfl, rfl, Or.inl rfl⟩
  cases k with
  | seteuid u =>
    rw [Cred.call, Cred.seteuid]
    split_ifs with hu
    · refine hmove u ?_
      rcases hu with hu | hu | hu | hu
      · exact absurd hu hcap
      · exact Or.inr (Or.inl hu)
      · exact Or.inl hu
      · exact Or.inr (Or.inr hu)
    · exact hstay
  | setuid u =>
    rw [Cred.call, Cred.setuid, if_neg hcap]
    split_ifs with hu
    · exact hmove u (Or.inr hu)
    · exact hstay

/-- **Any calls of a process without capabilities.** -/
theorem Bare.calls (h : Bare c) (cs : List Call) :
    (c.calls cs).euid = c.euid ∨ (c.calls cs).euid = c.ruid ∨ (c.calls cs).euid = c.suid := by
  induction cs generalizing c with
  | nil => exact Or.inl rfl
  | cons k cs ih =>
    obtain ⟨hbare, hr, hs, he⟩ := h.call k
    have hrest := ih hbare
    rw [hr, hs] at hrest
    have hcons : c.calls (k :: cs) = (c.call k).calls cs := rfl
    rw [hcons]
    rcases hrest with hrest | hrest
    · rw [hrest]
      exact he
    · exact Or.inr hrest

/-- **A process without capabilities can become the users its three ids name, and no
others.** -/
theorem exists_calls_euid_iff (h : Bare c) :
    (∃ cs, (c.calls cs).euid = u) ↔ u = c.euid ∨ u = c.ruid ∨ u = c.suid := by
  constructor
  · rintro ⟨cs, rfl⟩
    exact h.calls cs
  · intro hu
    refine ⟨[.seteuid u], ?_⟩
    have hmay : CAP_SETUID ∈ c.effective ∨ u = c.ruid ∨ u = c.euid ∨ u = c.suid := by
      rcases hu with hu | hu | hu
      · exact Or.inr (Or.inr (Or.inl hu))
      · exact Or.inr (Or.inl hu)
      · exact Or.inr (Or.inr (Or.inr hu))
    change (c.call (.seteuid u)).euid = u
    rw [Cred.call, Cred.seteuid, if_pos hmay, Option.getD_some, euid_fixup]

end Cred

end SystemProgramming
