import Mathlib.Data.Int.Notation
import Mathlib.Data.Nat.Notation
import Mathlib.Data.Option.Basic
import Mathlib.Tactic.Basic
import Mathlib.Tactic.SplitIfs

/-!
# A process group and its number

A process that begins a session leads a group, which has the number of its pid. Its children are in
the group, and they may outlive it. A pid is in use until the process has been waited for, and the
number of a group until the group is empty. After that another process may come to have the number
and lead a group of its own, and a signal to the number reaches that group.

This is the world around one number. What the processes do is up to them.

## Main definitions

* `ProcGroup` — who has the number
* `ProcGroup.env` — what processes do
* `ProcGroup.killpg` — `SIGKILL` to the number

## Main results

* `ProcGroup.killpg_dead` — nobody of the own group is alive behind it
* `ProcGroup.env_dead` — who is not alive does not come back
-/

namespace DeltaBox

/-- The process that was started. -/
inductive Leader where
  /-- It has not been started. -/
  | absent
  | running
  | zombie (code : ℤ)
  /-- It has been waited for. -/
  | reaped (code : ℤ)
  deriving DecidableEq, Repr

/-- The processes that have the number: the leader, its children that are alive, and processes of a
group that has the number after it. -/
structure ProcGroup where
  leader : Leader
  kids : ℕ
  foreign : ℕ
  deriving DecidableEq, Repr

namespace ProcGroup

/-- Nobody has been started. -/
def empty : ProcGroup := ⟨.absent, 0, 0⟩

/-- The number has become free. -/
def Free (g : ProcGroup) : Prop := ∃ code, g.leader = .reaped code ∧ g.kids = 0 ∧ g.foreign = 0

instance (g : ProcGroup) : Decidable g.Free :=
  match h : g.leader with
  | .reaped code => decidable_of_iff (g.kids = 0 ∧ g.foreign = 0)
      ⟨fun hfree => ⟨code, h, hfree⟩, fun ⟨_, _, hfree⟩ => hfree⟩
  | .absent | .running | .zombie _ => isFalse fun ⟨_, hcode, _⟩ => by simp [h] at hcode

/-- A process of the own group is alive. -/
def Alive (g : ProcGroup) : Prop := g.leader = .running ∨ 0 < g.kids

instance (g : ProcGroup) : Decidable g.Alive := inferInstanceAs (Decidable (_ ∨ _))

/-! ### What processes do -/

inductive Env where
  /-- The leader exits, or is killed. -/
  | exits (code : ℤ)
  /-- A process of the group has a child. -/
  | forks
  | kidExits
  /-- Another process leads a group that gets the number. -/
  | takes
  | foreignForks
  | foreignExits
  deriving DecidableEq, Repr

def env (g : ProcGroup) : Env → Option ProcGroup
  | .exits code => if g.leader = .running then some { g with leader := .zombie code } else none
  | .forks => if g.Alive then some { g with kids := g.kids + 1 } else none
  | .kidExits => if 0 < g.kids then some { g with kids := g.kids - 1 } else none
  | .takes => if g.Free then some { g with foreign := 1 } else none
  | .foreignForks => if 0 < g.foreign then some { g with foreign := g.foreign + 1 } else none
  | .foreignExits => if 0 < g.foreign then some { g with foreign := g.foreign - 1 } else none

/-! ### What a program does -/

/-- The process is started. -/
def spawn (g : ProcGroup) : ProcGroup := { g with leader := .running }

/-- `waitpid` without waiting, and the exit code if it has one. -/
def poll (g : ProcGroup) : ProcGroup × Option ℤ :=
  match g.leader with
  | .zombie code => ({ g with leader := .reaped code }, some code)
  | .reaped code => (g, some code)
  | .absent | .running => (g, none)

/-- The group has processes, among them one that has not been waited for. -/
def Exists (g : ProcGroup) : Prop :=
  g.leader = .running ∨ (∃ code, g.leader = .zombie code) ∨ 0 < g.kids ∨ 0 < g.foreign

instance (g : ProcGroup) : Decidable g.Exists :=
  match h : g.leader with
  | .running => isTrue (.inl h)
  | .zombie code => isTrue (.inr (.inl ⟨code, h⟩))
  | .absent | .reaped _ => decidable_of_iff (0 < g.kids ∨ 0 < g.foreign)
      ⟨fun hsome => .inr (.inr hsome), fun hsome => by simpa [Exists, h] using hsome⟩

/-- `SIGKILL` for everybody. -/
def killed (g : ProcGroup) : ProcGroup :=
  { leader := if g.leader = .running then .zombie (-9) else g.leader, kids := 0, foreign := 0 }

/-- `os.killpg(number, SIGKILL)`. `none`: `ProcessLookupError`. -/
def killpg (g : ProcGroup) : Option ProcGroup := if g.Exists then some g.killed else none

variable {g h : ProcGroup}

theorem killpg_dead : ¬ (g.killpg.getD g).Alive := by
  rw [killpg]
  split_ifs with hexists
  · simp only [Option.getD_some, Alive, killed, Nat.lt_irrefl, or_false]
    split_ifs with hrunning
    · simp
    · exact hrunning
  · rintro (hrunning | hkids)
    · exact hexists (.inl hrunning)
    · exact hexists (.inr (.inr (.inl hkids)))

theorem env_dead {e : Env} (henv : g.env e = some h) (hdead : ¬ g.Alive) : ¬ h.Alive := by
  simp only [Alive, not_or] at hdead
  cases e <;> simp only [env] at henv <;> split_ifs at henv with hcond <;>
    obtain rfl := Option.some.inj henv <;> simp_all [Alive]

theorem poll_alive : g.poll.1.Alive ↔ g.Alive := by
  rw [poll]
  cases hleader : g.leader <;> simp [Alive, hleader]

theorem poll_foreign : g.poll.1.foreign = g.foreign := by
  rw [poll]
  cases g.leader <;> rfl

/-- Nobody else gets the number. -/
theorem env_foreign {e : Env} (henv : g.env e = some h) (htakes : e ≠ .takes) (hzero : g.foreign = 0) :
    h.foreign = 0 := by
  cases e <;> simp only [env] at henv <;> split_ifs at henv with hcond <;>
    obtain rfl := Option.some.inj henv <;> simp_all

/-- It has been waited for once and for all. -/
theorem env_reaped {e : Env} {code : ℤ} (henv : g.env e = some h) (hleader : g.leader = .reaped code) :
    h.leader = .reaped code := by
  cases e <;> simp only [env] at henv <;> split_ifs at henv with hcond <;>
    obtain rfl := Option.some.inj henv <;> simp_all

theorem poll_reaped {code : ℤ} (hcode : g.poll.2 = some code) : g.poll.1.leader = .reaped code := by
  rw [poll] at hcode ⊢
  cases hleader : g.leader <;> simp_all

theorem killpg_reaped {code : ℤ} (hleader : g.leader = .reaped code) :
    (g.killpg.getD g).leader = .reaped code := by
  rw [killpg]
  split_ifs
  · simp [killed, hleader]
  · exact hleader

theorem killpg_foreign (hzero : g.foreign = 0) : (g.killpg.getD g).foreign = 0 := by
  rw [killpg]
  split_ifs
  · rfl
  · exact hzero

end ProcGroup

end DeltaBox
