import DeltaBox.Lib.Machine

/-!
# The pool of dump commands

A replay runs its CRIU commands on an executor, and `OwnedDumpPool` stands between them: to cancel a
future does not kill its process. `abort` closes the admission, stops the commands that are running,
and waits for the threads of the executor. What is queued then is run, and refused.

## What is given

The threads take turns as they like, and the sections under the lock are one step each. A process may
exit at any time, and need not obey a signal. `poll` and `wait` may miss that a process has exited. The
function of an owned task does as it likes: it runs commands, waits for other jobs, and ends.

## Main definitions

* `Call`, `Phase` — where a call of `_check_call` is, and where a job is
* `Stop` — where `_stop_process` is
* `step` — the machine
-/

namespace DeltaBox

namespace Lifecycle

open Machine

/-- Where `_stop_process` is: which signal is next, or whether the last wait is on. -/
inductive Stop where
  | poll
  | terminated
  | killed
  deriving DecidableEq

/-- Where `_check_call` is. -/
inductive Call where
  /-- The lock is next. -/
  | entering
  /-- `proc.wait(timeout=timeout)`. -/
  | waiting (proc : ℕ)
  /-- The wait has raised. -/
  | stopping (proc : ℕ) (stop : Stop)
  /-- `finally`. -/
  | leaving (proc : ℕ) (ok : Bool)
  deriving DecidableEq

/-- Where a job is. -/
inductive Phase where
  | queued
  /-- The function of an owned task is at work. -/
  | task
  /-- It waits for another job's future. -/
  | awaiting (job : ℕ)
  | calling (call : Call)
  /-- The future has a result, or an exception. -/
  | done (ok : Bool)
  deriving DecidableEq

/-- A job of the executor. -/
structure Job where
  /-- It was submitted with `submit_owned_task`. -/
  owned : Bool
  phase : Phase
  deriving DecidableEq

/-- A thread of the executor. -/
inductive Worker where
  | idle
  | on (job : ℕ)
  | ended
  deriving DecidableEq

/-- Where `abort` is. -/
inductive Abort where
  | idle
  /-- The commands that are still to be stopped. -/
  | stopping (todo : List ℕ) (stop : Stop)
  /-- The threads that are still to be joined. -/
  | joining (todo : List ℕ)
  | returned
  | raised
  deriving DecidableEq

/-- The pool, its executor, and the processes that it has started. -/
structure State where
  closing : Bool
  /-- `self.processes`. -/
  processes : List ℕ
  /-- For each process that was ever started: is it there? -/
  procs : List Bool
  jobs : List Job
  queue : List ℕ
  workers : List Worker
  /-- `executor._shutdown`. -/
  shutdown : Bool
  abort : Abort
  deriving DecidableEq

def State.init : State := ⟨false, [], [], [], [], [], false, .idle⟩

/-- A job moves on. -/
def State.setPhase (s : State) (j : ℕ) (phase : Phase) : State :=
  { s with jobs := s.jobs.modify j fun job => { job with phase } }

/-- The future is settled, and the thread is free. -/
def State.finish (s : State) (j : ℕ) (ok : Bool) : State :=
  { s.setPhase j (.done ok) with
    workers := s.workers.map fun w => if w = .on j then .idle else w }

/-- `_check_call` returns or raises, to the function of an owned task or to the executor. -/
def State.callEnds (s : State) (j : ℕ) (job : Job) (ok : Bool) : State :=
  if job.owned then s.setPhase j .task else s.finish j ok

/-- `_check_call` up to the end of its first section. -/
def State.enter (s : State) (j : ℕ) (job : Job) (spawned : Bool) : State :=
  if s.closing || !spawned then s.callEnds j job false
  else
    { s.setPhase j (.calling (.waiting s.procs.length)) with
      procs := s.procs ++ [true], processes := s.processes ++ [s.procs.length] }

/-- What `_stop_process` does next: it goes on, it has seen the exit, or its last wait raises. -/
def Stop.next (seen : Bool) : Stop → Stop ⊕ Bool
  | .poll => if seen then .inr true else .inl .terminated
  | .terminated => if seen then .inr true else .inl .killed
  | .killed => .inr seen

/-- What happens next. -/
inductive Label where
  /-- `submit`, or `submit_owned_task`. The executor may need another thread. -/
  | submit (owned thread : Bool)
  /-- A thread takes the oldest job. -/
  | take (worker : ℕ)
  /-- A thread finds the executor shut down, and nothing to do. -/
  | quit (worker : ℕ)
  /-- The function of an owned task runs a command. -/
  | run (job : ℕ)
  | await (job other : ℕ)
  | resume (job : ℕ) (timedOut : Bool)
  /-- The function of an owned task ends. -/
  | finish (job : ℕ) (ok : Bool)
  | enter (job : ℕ) (spawned : Bool)
  /-- `proc.wait` returns zero or something else, or it raises. -/
  | wait (job : ℕ) (returncode : Option Bool)
  | stop (job : ℕ) (seen : Bool)
  | leave (job : ℕ)
  /-- A process exits. -/
  | exit (proc : ℕ)
  /-- `abort` is called. -/
  | abort (order : List ℕ)
  | abortStop (seen : Bool)
  | shutdown
  | join (inTime : Bool)
  deriving DecidableEq

/-- `seen` is not said of a process that is there. -/
def State.mayBe (s : State) (p : ℕ) (seen : Bool) : Bool := !seen || s.procs[p]? = some false

/-- The next thread, or the end of `abort`. -/
def Abort.joinNext : List ℕ → Abort
  | [] => .returned
  | w :: todo => .joining (w :: todo)

/-- A step of a job. -/
def State.jobStep (s : State) (j : ℕ) (job : Job) : Label → Option State
  | .run _ => if job.phase = .task then some (s.setPhase j (.calling .entering)) else none
  | .await _ k =>
    if job.phase = .task ∧ k < s.jobs.length then some (s.setPhase j (.awaiting k)) else none
  | .resume _ timedOut =>
    match job.phase with
    | .awaiting k =>
      match timedOut, s.jobs[k]? with
      | true, _ => some (s.setPhase j .task)
      | false, some ⟨_, .done _⟩ => some (s.setPhase j .task)
      | _, _ => none
    | _ => none
  | .finish _ ok => if job.phase = .task then some (s.finish j ok) else none
  | .enter _ spawned => if job.phase = .calling .entering then some (s.enter j job spawned) else none
  | .wait _ returncode =>
    match job.phase with
    | .calling (.waiting p) =>
      match returncode with
      | none => some (s.setPhase j (.calling (.stopping p .poll)))
      | some ok => if s.mayBe p true then some (s.setPhase j (.calling (.leaving p ok))) else none
    | _ => none
  | .stop _ seen =>
    match job.phase with
    | .calling (.stopping p stop) =>
      if s.mayBe p seen then
        match stop.next seen with
        | .inl stop => some (s.setPhase j (.calling (.stopping p stop)))
        | .inr _ => some (s.setPhase j (.calling (.leaving p false)))
      else none
    | _ => none
  | .leave _ =>
    match job.phase with
    | .calling (.leaving p ok) =>
      some ({ s with processes := s.processes.filter (· ≠ p) }.callEnds j job ok)
    | _ => none
  | _ => none

/-- The job that a label is about. -/
def Label.job? : Label → Option ℕ
  | .run j => some j
  | .await j _ => some j
  | .resume j _ => some j
  | .finish j _ => some j
  | .enter j _ => some j
  | .wait j _ => some j
  | .stop j _ => some j
  | .leave j => some j
  | _ => none

/-- `submit` and `submit_owned_task`, over at most `max` threads. -/
def State.submit (s : State) (max : ℕ) (owned thread : Bool) : Option State :=
  if s.shutdown = false ∧ (thread = true → s.workers.length < max) ∧
      (s.workers = [] → thread = true) then
    some { s with
      jobs := s.jobs ++ [⟨owned, .queued⟩]
      queue := s.queue ++ [s.jobs.length]
      workers := if thread then s.workers ++ [.idle] else s.workers }
  else none

/-- A thread takes the oldest job. -/
def State.take (s : State) (w : ℕ) : Option State :=
  match s.workers[w]?, s.queue with
  | some .idle, j :: queue =>
    (s.jobs[j]?).map fun job =>
      { s.setPhase j (if job.owned then .task else .calling .entering) with
        queue, workers := s.workers.set w (.on j) }
  | _, _ => none

/-- A thread ends. -/
def State.quit (s : State) (w : ℕ) : Option State :=
  match s.workers[w]?, s.queue with
  | some .idle, [] => if s.shutdown then some { s with workers := s.workers.set w .ended } else none
  | _, _ => none

/-- `abort` goes on. -/
def State.abortStep (s : State) : Label → Option State
  | .abort order =>
    match s.abort with
    | .stopping _ _ => none
    | .joining _ => none
    | _ =>
      if order.Perm s.processes then
        some { s with closing := true, abort := .stopping order .poll }
      else none
  | .abortStop seen =>
    match s.abort with
    | .stopping (p :: todo) stop =>
      if s.mayBe p seen then
        match stop.next seen with
        | .inl stop => some { s with abort := .stopping (p :: todo) stop }
        | .inr true => some { s with abort := .stopping todo .poll }
        | .inr false => some { s with abort := .raised }
      else none
    | _ => none
  | .shutdown =>
    match s.abort with
    | .stopping [] _ =>
      some { s with shutdown := true, abort := .joinNext (List.range s.workers.length) }
    | _ => none
  | .join inTime =>
    match s.abort with
    | .joining (w :: todo) =>
      if inTime then
        if s.workers[w]? = some .ended then some { s with abort := .joinNext todo } else none
      else some { s with abort := .raised }
    | _ => none
  | _ => none

/-- One step. -/
def step (max : ℕ) (s : State) (l : Label) : Option State :=
  match l with
  | .submit owned thread => s.submit max owned thread
  | .take w => s.take w
  | .quit w => s.quit w
  | .exit p => if s.procs[p]? = some true then some { s with procs := s.procs.set p false } else none
  | l =>
    match l.job? with
    | some j => (s.jobs[j]?).bind fun job => s.jobStep j job l
    | none => s.abortStep l

/-! ### What is wanted -/

/-- Each job has a result or an exception. -/
def State.Settled (s : State) : Prop := ∀ job ∈ s.jobs, ∃ ok, job.phase = .done ok

/-- No command is running. -/
def State.Quiet (s : State) : Prop := ∀ p ∈ s.procs, p = false

/-- A job does not leave `_check_call` while its command is still there. -/
def meets (s : State) : Label → Bool
  | .leave j =>
    (s.jobs[j]?).all fun job =>
      match job.phase with
      | .calling (.leaving p _) => s.procs[p]? = some false
      | _ => true
  | _ => true

end Lifecycle

end DeltaBox
