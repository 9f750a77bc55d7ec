import DeltaBox.Lib.Machine
import DeltaBox.Lib.ProcGroup

/-!
# What is known of a run

`execute` and the three functions of a job start a process in a session of its own, and both end by
killing its group, which they signal by its number. Here is what they have in common: the group, the
status of the record, and what has been recorded.

## Main definitions

* `Books` — the group, the record and the signals that went astray
* `Books.Kept` — what should hold of a call

## Main results

* `Books.kill_dead` — nobody is alive behind `SIGKILL`
* `Books.kill_reached` — and nobody else has got it, if nobody else had the number
-/

namespace DeltaBox

namespace Reap

/-- What is recorded in the course of a run. -/
inductive Event where
  /-- The leader has been waited for, and this is its exit code. -/
  | exit (code : ℤ)
  | timeout
  | cancelled
  | interrupted
  | error
  deriving DecidableEq, Repr

/-- The `status` of a record. -/
inductive Status where
  | running
  | ok
  | failed
  | cancelled
  deriving DecidableEq, Repr

/-- `written`: the status in the file. `reached`: how many processes of other groups have got a
signal that was sent to the number. -/
structure Books where
  group : ProcGroup
  status : Status
  written : Status
  events : List Event
  reached : ℕ
  deriving DecidableEq, Repr

namespace Books

/-- Nothing has been started, and a record has been written. -/
def init : Books := ⟨.empty, .running, .running, [], 0⟩

variable {b b' : Books}

/-- A process does something. -/
def env (b : Books) (e : ProcGroup.Env) : Option Books :=
  (b.group.env e).map fun group => { b with group }

def spawn (b : Books) : Books := { b with group := b.group.spawn }

/-- `Popen.poll`. -/
def poll (b : Books) : Books := { b with group := b.group.poll.1 }

/-- What it returns. -/
def code (b : Books) : Option ℤ := b.group.poll.2

def log (b : Books) (e : Event) : Books := { b with events := b.events ++ [e] }

/-- The status in the record. -/
def mark (b : Books) (status : Status) : Books := { b with status }

/-- The record is written. -/
def save (b : Books) : Books := { b with written := b.status }

/-- `os.killpg(number, SIGTERM)`. What it does to the processes is up to them. -/
def term (b : Books) : Books := { b with reached := b.reached + b.group.foreign }

/-- `os.killpg(number, SIGKILL)`, where a `ProcessLookupError` is passed over. -/
def kill (b : Books) : Books := { b.term with group := b.group.killpg.getD b.group }

/-! ### Who is alive, and who has the number -/

/-- Nobody else has the number, and nobody else has got a signal. -/
structure Own (b : Books) : Prop where
  foreign : b.group.foreign = 0
  reached : b.reached = 0

theorem Own.env (hown : b.Own) {e : ProcGroup.Env} (henv : b.env e = some b') (htakes : e ≠ .takes) :
    b'.Own := by
  obtain ⟨g, hg, rfl⟩ := Option.map_eq_some_iff.mp henv
  exact ⟨ProcGroup.env_foreign hg htakes hown.foreign, hown.reached⟩

theorem Own.spawn (hown : b.Own) : b.spawn.Own := ⟨hown.foreign, hown.reached⟩

theorem Own.poll (hown : b.Own) : b.poll.Own :=
  ⟨ProcGroup.poll_foreign.trans hown.foreign, hown.reached⟩

theorem Own.log (hown : b.Own) {e : Event} : (b.log e).Own := ⟨hown.foreign, hown.reached⟩

theorem Own.mark (hown : b.Own) {status : Status} : (b.mark status).Own :=
  ⟨hown.foreign, hown.reached⟩

theorem Own.save (hown : b.Own) : b.save.Own := ⟨hown.foreign, hown.reached⟩

theorem Own.term (hown : b.Own) : b.term.Own :=
  ⟨hown.foreign, show b.reached + b.group.foreign = 0 by rw [hown.foreign, hown.reached]⟩

/-- Nobody else gets `SIGKILL` while nobody else has the number. -/
theorem Own.kill (hown : b.Own) : b.kill.Own :=
  ⟨ProcGroup.killpg_foreign hown.foreign, hown.term.reached⟩

theorem kill_dead : ¬ b.kill.group.Alive := ProcGroup.killpg_dead

theorem env_dead {e : ProcGroup.Env} (henv : b.env e = some b') (hdead : ¬ b.group.Alive) :
    ¬ b'.group.Alive := by
  obtain ⟨g, hg, rfl⟩ := Option.map_eq_some_iff.mp henv
  exact ProcGroup.env_dead hg hdead

theorem env_reached {e : ProcGroup.Env} (henv : b.env e = some b') : b'.reached = b.reached := by
  obtain ⟨g, -, rfl⟩ := Option.map_eq_some_iff.mp henv
  rfl

/-- Processes do not write in the record. -/
theorem env_record {e : ProcGroup.Env} (henv : b.env e = some b') :
    b'.events = b.events ∧ b'.status = b.status ∧ b'.written = b.written := by
  obtain ⟨g, -, rfl⟩ := Option.map_eq_some_iff.mp henv
  exact ⟨rfl, rfl, rfl⟩

theorem poll_dead (hdead : ¬ b.group.Alive) : ¬ b.poll.group.Alive := by
  rw [poll, ProcGroup.poll_alive]
  exact hdead

/-! ### What has been recorded first -/

/-- The first thing recorded is that the leader has exited with this code, and so it has. -/
structure First (b : Books) (code : ℤ) : Prop where
  head : b.events.head? = some (.exit code)
  leader : b.group.leader = .reaped code

theorem First.env {code : ℤ} (hfirst : b.First code) {e : ProcGroup.Env}
    (henv : b.env e = some b') : b'.First code := by
  obtain ⟨g, hg, rfl⟩ := Option.map_eq_some_iff.mp henv
  exact ⟨hfirst.head, ProcGroup.env_reaped hg hfirst.leader⟩

theorem First.log {code : ℤ} (hfirst : b.First code) {e : Event} : (b.log e).First code := by
  refine ⟨?_, hfirst.leader⟩
  rw [Books.log, List.head?_append, hfirst.head]
  rfl

theorem First.poll {code : ℤ} (hfirst : b.First code) : b.poll.First code := by
  refine ⟨hfirst.head, ?_⟩
  show b.group.poll.1.leader = _
  rw [ProcGroup.poll, hfirst.leader]
  exact hfirst.leader

theorem First.kill {code : ℤ} (hfirst : b.First code) : b.kill.First code :=
  ⟨hfirst.head, ProcGroup.killpg_reaped hfirst.leader⟩

/-- The code is what has been waited for. -/
theorem First.of_code {code : ℤ} (hnone : b.events = []) (hcode : b.code = some code) :
    (b.poll.log (.exit code)).First code := by
  refine ⟨by simp [Books.log, Books.poll, hnone], ?_⟩
  exact ProcGroup.poll_reaped hcode

/-- A status of `ok` has been recorded with reason. -/
def Honest (b : Books) : Prop := b.status = .ok ∨ b.written = .ok → b.First 0

theorem Honest.env (hhonest : b.Honest) {e : ProcGroup.Env} (henv : b.env e = some b') :
    b'.Honest := by
  obtain ⟨-, hstatus, hwritten⟩ := env_record henv
  intro hok
  rw [hstatus, hwritten] at hok
  exact (hhonest hok).env henv

theorem Honest.log (hhonest : b.Honest) {e : Event} : (b.log e).Honest := fun hok => (hhonest hok).log

theorem Honest.poll (hhonest : b.Honest) : b.poll.Honest := fun hok => (hhonest hok).poll

theorem Honest.kill (hhonest : b.Honest) : b.kill.Honest := fun hok => (hhonest hok).kill

theorem Honest.term (hhonest : b.Honest) : b.term.Honest := fun hok =>
  ⟨(hhonest hok).head, (hhonest hok).leader⟩

/-- The status may become `ok` when the leader has exited with 0. -/
theorem Honest.mark (hhonest : b.Honest) {status : Status} (hfirst : status = .ok → b.First 0) :
    (b.mark status).Honest := by
  intro hok
  have hnow : b.First 0 := hok.elim hfirst fun hwritten => hhonest (.inr hwritten)
  exact ⟨hnow.head, hnow.leader⟩

theorem Honest.save (hhonest : b.Honest) : b.save.Honest := fun hok =>
  have hnow := hhonest (.inl (hok.elim id id))
  ⟨hnow.head, hnow.leader⟩

/-- While nothing has been recorded, the status is not `ok`. -/
theorem Honest.spawn (hhonest : b.Honest) (hnone : b.events = []) : b.spawn.Honest := fun hok =>
  absurd (hhonest hok).head (by simp [hnone])

/-- **What should hold of a call.** Only processes of the own group get the signals, nobody of it is
alive when the call is over, and the status is `ok` only if the leader exited with 0 before anything
else. -/
structure Kept (b : Books) (ended : Prop) : Prop where
  reached : b.reached = 0
  dead : ended → ¬ b.group.Alive
  honest : b.Honest

end Books

end Reap

end DeltaBox
