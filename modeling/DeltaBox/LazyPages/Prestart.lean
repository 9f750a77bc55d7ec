import DeltaBox.Lib.Dict
import DeltaBox.Lib.Machine

/-!
# Prestarted lazy-pages daemons

A lazy restore needs a daemon that serves the pages of its image over a socket in the image's
directory. Starting one takes time, so a background worker starts them ahead: once for an image that
has become durable, and again after each restore that has used one up.

Three kinds of threads touch the tables, all of them under one lock.

* A *dump worker* completes the future of an image. The completion releases the threads that wait
  for it first, and runs the done callbacks after that. `_on_durable_image` is such a callback.
* The *prestart worker* runs one task at a time. It makes room by evicting the oldest idle daemons,
  starts the new one, and puts it into the table. All of that but the two table accesses is done
  without the lock.
* The *controller* restores, collects and shuts down, one after the other. A restore waits for the
  dump, takes the idle daemon of its image, or waits for the one that is being started, or starts
  one itself. When CRIU has connected to it, the image is armed again.

## What is modelled

Every locked section is one step, and so is every action outside: a start, the wait for readiness, a
stop, a wait for a future. A daemon may die at any moment. Tasks are numbered in the order of their
submission.
-/

namespace DeltaBox

namespace LazyPages

/-- The life of a daemon. -/
inductive Phase where
  /-- It has been launched and has not said that it is ready. -/
  | starting
  /-- It listens on its socket. -/
  | ready
  /-- A restored process is connected to it. -/
  | connected
  /-- It is gone. -/
  | stopped
  deriving DecidableEq, Repr

/-- Does it hold the socket of its image, with nobody connected? -/
def Phase.waiting : Phase → Bool
  | .starting | .ready => true
  | _ => false

/-- A daemon. -/
structure Daemon where
  /-- `deltabox_mem_path`. -/
  memPath : String
  /-- What it is doing. -/
  phase : Phase
  deriving DecidableEq, Repr

/-- The dump of an image, with whether it succeeded. -/
inductive Dump where
  | running
  /-- The waiters are released; the callbacks have not run. -/
  | released (ok : Bool)
  /-- The callbacks have run. -/
  | called (ok : Bool)
  deriving DecidableEq, Repr

/-- Where the prestart worker is, with its task and the image of the task. -/
inductive Worker where
  | idle
  /-- Before the first locked section. -/
  | begin (task : ℕ) (memPath : String)
  /-- Stopping the evicted daemons. -/
  | evict (task : ℕ) (memPath : String) (evicted : List ℕ)
  /-- Waiting for its daemon to be ready. -/
  | start (task : ℕ) (memPath : String) (daemon : ℕ)
  /-- Before the second locked section. -/
  | publish (task : ℕ) (memPath : String) (daemon : ℕ)
  /-- Stopping a daemon that is not wanted any more. -/
  | drop (task : ℕ) (memPath : String) (daemon : ℕ)
  /-- Before the locked section of the `finally`. -/
  | finish (task : ℕ) (memPath : String)
  /-- The task returns. -/
  | returning (task : ℕ)
  deriving DecidableEq, Repr

/-- Where the controller is. -/
inductive Caller where
  | idle
  /-- `dump_future.result(timeout=30.0)`. -/
  | join (memPath : String)
  /-- Before the first locked section of `_take_lazy_pages_daemon`. -/
  | take (memPath : String)
  /-- `pending.result(timeout=10)`. -/
  | wait (memPath : String) (task : ℕ)
  /-- Before its second locked section. -/
  | retake (memPath : String)
  /-- `proc.poll()`. -/
  | inspect (memPath : String) (daemon : ℕ)
  /-- Before the synchronous start. -/
  | spawn (memPath : String)
  /-- Waiting for the daemon of the synchronous start to be ready. -/
  | starting (memPath : String) (daemon : ℕ)
  /-- CRIU runs. -/
  | restoring (memPath : String) (daemon : ℕ)
  /-- Stopping the daemon after CRIU has failed. -/
  | abort (memPath : String) (daemon : ℕ)
  /-- Before `_schedule_lazy_prestart` at the end of a restore. -/
  | rearm (memPath : String)
  /-- Stopping the daemon of a retired image. -/
  | retiring (memPath : String) (daemon : ℕ)
  /-- `pool.shutdown(wait=True)`. -/
  | closing
  /-- Stopping the idle daemons after it. -/
  | clearing (daemons : List ℕ)
  deriving DecidableEq, Repr

/-- The two settings. -/
structure Config where
  /-- `lazy_prestart`. -/
  lazyPrestart : Bool
  /-- `lazy_prestart_max`. -/
  lazyPrestartMax : ℕ
  /-- The constructor makes it at least one. -/
  max_pos : 0 < lazyPrestartMax

/-- The tables, the threads and the daemons. -/
structure State where
  /-- The watched dumps, by image. -/
  dumps : Dict String Dump
  /-- `_lazy_prestarted`. -/
  prestarted : Dict String ℕ
  /-- `_lazy_prestart_futures`. -/
  futures : Dict String ℕ
  /-- `_lazy_prestart_retired`. -/
  retired : List String
  /-- `_lazy_prestart_closing`. -/
  closing : Bool
  /-- The tasks the pool has not begun. -/
  queue : List (ℕ × String)
  /-- The prestart worker. -/
  worker : Worker
  /-- The tasks whose future is done. -/
  done : List ℕ
  /-- The number of the next task. -/
  nextTask : ℕ
  /-- The controller. -/
  caller : Caller
  /-- Every daemon ever launched. -/
  daemons : List Daemon
  /-- `_lazy_page_daemons`. -/
  lazyPageDaemons : List ℕ

/-- Nothing has happened yet. -/
def State.initial : State :=
  ⟨Dict.empty, Dict.empty, Dict.empty, [], false, [], .idle, [], 0, .idle, [], []⟩

/-! ### Daemons -/

/-- The phase of a daemon. -/
def State.phase (s : State) (d : ℕ) : Phase := (s.daemons[d]?.map Daemon.phase).getD .stopped

/-- Change the phase of a daemon. -/
def setPhase (ph : Phase) (s : State) (d : ℕ) : State :=
  { s with daemons := s.daemons.modify d fun x => { x with phase := ph } }

/-- `_stop_lazy_daemon_process`. -/
def stop (s : State) (d : ℕ) : State := setPhase .stopped s d

/-- The launch at the start of `_spawn_lazy_pages_daemon`. -/
def launch (s : State) (memPath : String) : State :=
  { s with daemons := s.daemons ++ [⟨memPath, .starting⟩] }

/-- The rest of it: the daemon says that it is ready, or is stopped. -/
def awaitReady (s : State) (d : ℕ) (ok : Bool) : State :=
  setPhase (if ok ∧ s.phase d = .starting then .ready else .stopped) s d

/-- `_reap_lazy_page_daemons`. -/
def reap (s : State) : State :=
  { s with lazyPageDaemons := s.lazyPageDaemons.filter fun d => s.phase d ≠ .stopped }

/-! ### Locked sections -/

/-- `_schedule_lazy_prestart`. -/
def schedule (cfg : Config) (s : State) (memPath : String) : State :=
  if !cfg.lazyPrestart ∨ memPath = "" ∨ s.closing ∨ memPath ∈ s.retired ∨
      memPath ∈ s.prestarted.keys ∨ memPath ∈ s.futures.keys then s
  else
    { s with
      queue := s.queue ++ [(s.nextTask, memPath)]
      futures := s.futures.set memPath s.nextTask
      nextTask := s.nextTask + 1 }

/-- How many daemons have to go before one more fits. -/
def excess (cfg : Config) (s : State) : ℕ := s.prestarted.entries.length + 1 - cfg.lazyPrestartMax

/-- The first section of `_prestart_lazy_pages_daemon`. The oldest daemons go first. -/
def beginTask (cfg : Config) (s : State) (task : ℕ) (memPath : String) : State :=
  if s.closing ∨ memPath ∈ s.retired then { s with worker := .finish task memPath }
  else
    let oldest := (s.prestarted.entries.take (excess cfg s)).map Prod.fst
    { s with
      prestarted := s.prestarted.keep fun k => k ∉ oldest
      worker := .evict task memPath ((s.prestarted.entries.take (excess cfg s)).map Prod.snd) }

/-- Its second section. -/
def publishTask (s : State) (task : ℕ) (memPath : String) (d : ℕ) : State :=
  if s.closing ∨ memPath ∈ s.retired then { s with worker := .drop task memPath d }
  else { s with prestarted := s.prestarted.set memPath d, worker := .finish task memPath }

/-- The section of its `finally`. -/
def finishTask (s : State) (task : ℕ) (memPath : String) : State :=
  { s with futures := s.futures.erase memPath, worker := .returning task }

/-- The first section of `_take_lazy_pages_daemon`. -/
def takeFirst (s : State) (memPath : String) : State :=
  match s.prestarted.find? memPath with
  | some d => { s with prestarted := s.prestarted.erase memPath, caller := .inspect memPath d }
  | none =>
    match s.futures.find? memPath with
    | some task => { s with caller := .wait memPath task }
    | none => { s with caller := .spawn memPath }

/-- Its second section. -/
def takeSecond (s : State) (memPath : String) : State :=
  match s.prestarted.find? memPath with
  | some d => { s with prestarted := s.prestarted.erase memPath, caller := .inspect memPath d }
  | none => { s with caller := .spawn memPath }

/-- The section of `_retire_lazy_prestart`. -/
def retire (s : State) (memPath : String) : State :=
  let s' := { s with
    retired := memPath :: s.retired, prestarted := s.prestarted.erase memPath }
  match s.prestarted.find? memPath with
  | some d => { s' with caller := .retiring memPath d }
  | none => s'

/-! ### Threads -/

/-- A step of the prestart worker. `ok` is the outcome of what it does outside the lock. -/
def workerStep (cfg : Config) (s : State) (ok : Bool) : Option State :=
  match s.worker with
  | .idle =>
    match s.queue with
    | [] => none
    | (task, memPath) :: queue => some { s with queue := queue, worker := .begin task memPath }
  | .begin task memPath => some (beginTask cfg s task memPath)
  | .evict task memPath (d :: evicted) =>
    some { stop s d with worker := .evict task memPath evicted }
  | .evict task memPath [] =>
    -- `os.path.isdir(mem_path)`.
    if ok then some { launch s memPath with worker := .start task memPath s.daemons.length }
    else some { s with worker := .finish task memPath }
  | .start task memPath d =>
    some { awaitReady s d ok with
      worker := if ok ∧ s.phase d = .starting then .publish task memPath d
        else .finish task memPath }
  | .publish task memPath d => some (publishTask s task memPath d)
  | .drop task memPath d => some { stop s d with worker := .finish task memPath }
  | .finish task memPath => some (finishTask s task memPath)
  | .returning task => some { s with done := task :: s.done, worker := .idle }

/-- A step of the controller inside a call. `ok` is the outcome of what it waits for. -/
def callerStep (cfg : Config) (s : State) (ok : Bool) : Option State :=
  match s.caller with
  | .idle => none
  | .join memPath =>
    match s.dumps.find? memPath with
    | some .running => if ok then none else some { s with caller := .idle }
    | some (.released success) | some (.called success) =>
      some { s with caller := if success then .take memPath else .idle }
    | none => some { s with caller := .take memPath }
  | .take memPath => some (takeFirst s memPath)
  | .wait memPath task =>
    if task ∈ s.done then some { s with caller := .retake memPath }
    else if ok then none else some { s with caller := .idle }
  | .retake memPath => some (takeSecond s memPath)
  | .inspect memPath d =>
    if s.phase d = .stopped then some { s with caller := .spawn memPath }
    else some { s with
      lazyPageDaemons := s.lazyPageDaemons ++ [d], caller := .restoring memPath d }
  | .spawn memPath =>
    some { launch (reap s) memPath with caller := .starting memPath s.daemons.length }
  | .starting memPath d =>
    if ok ∧ s.phase d = .starting then
      some { awaitReady s d ok with
        lazyPageDaemons := s.lazyPageDaemons ++ [d], caller := .restoring memPath d }
    else some { awaitReady s d ok with caller := .idle }
  | .restoring memPath d =>
    if ok ∧ s.phase d = .ready then
      some { setPhase .connected s d with caller := .rearm memPath }
    else some { s with caller := .abort memPath d }
  | .abort _ d => some { reap (stop s d) with caller := .idle }
  | .rearm memPath => some (schedule cfg { s with caller := .idle } memPath)
  | .retiring _ d => some { stop s d with caller := .idle }
  | .closing =>
    if s.queue = [] ∧ s.worker = .idle then
      some { s with prestarted := Dict.empty, caller := .clearing s.prestarted.values }
    else none
  | .clearing [] => some { s with caller := .idle }
  | .clearing (d :: ds) => some { stop s d with caller := .clearing ds }

/-- The steps of all threads. -/
inductive Label where
  /-- The controller makes a checkpoint: its image is being dumped, and the future is watched. -/
  | watch (memPath : String)
  /-- Its future completes, and releases its waiters. -/
  | release (memPath : String) (ok : Bool)
  /-- Its callback runs. -/
  | callback (memPath : String)
  /-- The prestart worker moves. -/
  | work (ok : Bool)
  /-- The controller starts a restore of an image. -/
  | restore (memPath : String)
  /-- It drops an image. -/
  | retire (memPath : String)
  /-- A collection looks at the daemons that restores have taken. -/
  | reap
  /-- It shuts the prestart down. -/
  | close
  /-- It moves on. -/
  | go (ok : Bool)
  /-- A daemon dies. -/
  | exit (d : ℕ)
  deriving DecidableEq, Repr

/-- One step. -/
def step (cfg : Config) (s : State) : Label → Option State
  | .watch memPath =>
    if memPath ∉ s.dumps.keys ∧ s.caller = .idle then
      some { s with dumps := s.dumps.set memPath .running }
    else none
  | .release memPath ok =>
    if s.dumps.find? memPath = some .running then
      some { s with dumps := s.dumps.set memPath (.released ok) }
    else none
  | .callback memPath =>
    match s.dumps.find? memPath with
    | some (.released ok) =>
      let s' := { s with dumps := s.dumps.set memPath (.called ok) }
      some (if ok then schedule cfg s' memPath else s')
    | _ => none
  | .work ok => workerStep cfg s ok
  | .restore memPath => if s.caller = .idle then some { s with caller := .join memPath } else none
  | .retire memPath => if s.caller = .idle then some (retire s memPath) else none
  | .reap => if s.caller = .idle then some (reap s) else none
  | .close =>
    if s.caller = .idle then some { s with closing := true, caller := .closing } else none
  | .go ok => callerStep cfg s ok
  | .exit d => some (stop s d)

end LazyPages

end DeltaBox
