import DeltaBox.Lib.Dict
import DeltaBox.Lib.Machine

/-!
# Attempts on a suite

An experiment of a review is a suite of jobs. An attempt plans the jobs whose inputs are there, takes
from the `suite.json` before it what need not be run again (`prepare_resume`), and executes the others
(`execute_plan`). It writes its own job list to `suite.json` as it goes. A later attempt resumes what
was left (`run_review.py`).

## What is modelled

* The files of one suite: `suite.json`, the directory of each job, `logs`, `failed-attempts` and
  `attempt-history`. Each write of `suite.json` and each move is one step.
* The serial loop, with and without the callbacks of the nested context, and the pool of workers.
  An exception may be raised at any point of either, and the attempt may be killed at any point.
* `execute_review_job` in the stages in which its status differs.

Producers write any evidence to the directory of their own job, and the cleanup after a job may change
it. A producer whose attempt is killed may go on, but it has ended when the next attempt begins.

What the verification of a reusable job finds is given by the label. Commands, purposes and the
effective configuration are compared as the source does. Attempts are numbered, because an attempt
makes its own directory in `attempt-history` and refuses to start when it exists.
-/

namespace DeltaBox

namespace Suite

/-! ### The files -/

/-- `run_purpose`. -/
inductive Purpose where
  | quickCheck
  | fullCohort
  | fullTrace
  deriving DecidableEq, Repr

/-- The status of a job. -/
inductive Status where
  | ok
  | failed
  | cleaning
  | cancelled
  | interrupted
  | notRun
  deriving DecidableEq, Repr

/-- A job of the planner. -/
structure Planned where
  key : String
  command : List String
  runPurpose : Purpose
  deriving DecidableEq, Repr

/-- A job of `suite.json`. -/
structure Job extends Planned where
  status : Option Status
  reusedVerified : Bool
  /-- The attempt under whose `logs` the `process.json` is. -/
  processManifest : Option ℕ
  deriving DecidableEq, Repr

/-- The status of a suite. -/
inductive SuiteStatus where
  | running
  | ok
  | failed
  deriving DecidableEq, Repr

/-- `suite.json`. -/
structure Record where
  status : SuiteStatus
  effectiveConfig : String
  jobs : List Job
  deriving DecidableEq, Repr

/-- The status in a `process.json`. -/
inductive Logged where
  | running
  | ok
  | failed
  deriving DecidableEq, Repr

/-- The files of a suite. -/
structure Disk (ε : Type) where
  /-- The suite has a directory. -/
  present : Bool
  suiteJson : Option Record
  /-- The directories of the jobs. -/
  dirs : Dict String ε
  /-- `logs/<attempt>/<key>/process.json`. -/
  logs : Dict (ℕ × String) Logged
  /-- `failed-attempts/<attempt>/<experiment>/<key>`. -/
  failedAttempts : Dict (ℕ × String) ε
  /-- `attempt-history/<attempt>/<experiment>/suite.json`. -/
  attemptHistory : Dict ℕ Record

variable {ε : Type}

/-- A suite that has never been run. -/
def Disk.empty : Disk ε := ⟨false, none, .empty, .empty, .empty, .empty⟩

/-! ### Planning an attempt -/

/-- How a plan is executed. -/
structure Settings where
  effectiveConfig : String
  workers : ℕ
  /-- `paper_before_job` and `paper_after_job` are given. -/
  hooks : Bool
  deriving DecidableEq, Repr

/-- `workers == 1`. -/
def Settings.serial (c : Settings) : Bool := c.workers = 1

/-- A plan. The planner gives each input a key of its own. -/
structure Plan where
  jobs : List Planned
  keys_nodup : (jobs.map Planned.key).Nodup
  settings : Settings

/-- The jobs whose inputs are there. Without the others it is no full cohort. -/
def availableJobs (jobs : List Planned) (unavailable : String → Bool) : List Planned :=
  let available := jobs.filter fun j => !unavailable j.key
  if jobs.any fun j => unavailable j.key then
    available.map fun j => if j.runPurpose = .fullCohort then { j with runPurpose := .fullTrace } else j
  else available

/-- A job that is to be executed. -/
def Planned.fresh (p : Planned) : Job :=
  { p with status := none, reusedVerified := false, processManifest := none }

/-- `normalized`. `none` is an `IndexError`. -/
def normalized (command : List String) : Option (List String) :=
  match command.idxOf? "--config" with
  | none => some command
  | some i => if i + 1 < command.length then some (command.set (i + 1) "<effective-config>") else none

/-- `previous.get(job['key'])`. Of two jobs with the key the dictionary has the last. -/
def previous (old : Record) (key : String) : Option Job := old.jobs.reverse.find? (·.key = key)

/-- What the loop of `prepare_resume` makes of a job, and whether it has evidence to move. `none` is
a `ValueError`. -/
def resumed (old : Record) (verified : String → Bool) (dirs : Dict String ε) (p : Planned) :
    Option (Job × Bool) :=
  match previous old p.key with
  | some prior =>
    if prior.status = some .ok then
      if normalized p.command ≠ none ∧ normalized prior.command = normalized p.command ∧
          prior.runPurpose = p.runPurpose ∧ verified p.key = true then
        some ({ p.fresh with
          status := some .ok, reusedVerified := true, processManifest := prior.processManifest }, false)
      else none
    else some (p.fresh, (dirs.find? p.key).isSome)
  | none => some (p.fresh, (dirs.find? p.key).isSome)

/-- The loop of `prepare_resume`. -/
def resumedAll (old : Record) (verified : String → Bool) (dirs : Dict String ε) :
    List Planned → Option (List (Job × Bool))
  | [] => some []
  | p :: ps =>
    match resumed old verified dirs p with
    | none => none
    | some r => (resumedAll old verified dirs ps).map (r :: ·)

/-- `failed_paths`. -/
def failedPaths (rs : List (Job × Bool)) : List String := (rs.filter (·.2)).map (·.1.key)

/-! ### Executing a plan -/

/-- Where a call of `execute_review_job` is. -/
inductive Stage where
  | entered
  | running
  /-- The producer has ended. -/
  | exited (success : Bool)
  /-- `job.update(status='ok')`. -/
  | noted
  | cleaning
  | returned
  | raised (interrupt : Bool)
  deriving DecidableEq, Repr

/-- A call of `execute_review_job`. -/
structure Work where
  key : String
  stage : Stage
  status : Option Status
  processManifest : Option ℕ
  deriving DecidableEq, Repr

/-- Where the loop over the jobs is. -/
inductive Flow where
  | going
  /-- The status of a job has changed since the last write. -/
  | unwritten (key : String)
  /-- In the `finally` block. -/
  | stopping
  /-- After it. -/
  | closed
  deriving DecidableEq, Repr

/-- An execution of a plan. -/
structure Exec where
  settings : Settings
  /-- `plan['jobs']`. -/
  jobs : List Job
  /-- The pending jobs that no worker has taken. -/
  todo : List String
  active : List Work
  /-- `stop_event`. -/
  stopped : Bool
  flow : Flow
  deriving DecidableEq, Repr

/-- Change the job with a key. -/
def setJob (jobs : List Job) (key : String) (f : Job → Job) : List Job :=
  jobs.map fun j => if j.key = key then f j else j

/-- `job.update(...)` with what a call has made of its job. -/
def Work.update (w : Work) (j : Job) : Job :=
  { j with status := w.status, processManifest := w.processManifest }

/-- `status='not-run'` for jobs that come later. -/
def skipLater (jobs : List Job) (later : List String) : List Job :=
  jobs.map fun j => if j.key ∈ later then { j with status := some .notRun } else j

/-- The work of a worker. -/
inductive Op (ε : Type) where
  | start
  /-- The producer, or the cleanup, has changed the evidence. -/
  | write (e : ε)
  | exit (success : Bool)
  | note
  | clean
  | cleaned (success : Bool)
  | raises (interrupt : Bool)

/-- A step of `execute_review_job`, in an attempt. -/
def Work.run (n : ℕ) (d : Disk ε) (w : Work) : Op ε → Option (Disk ε × Work)
  | .start =>
    if w.stage = .entered then
      match d.logs.find? (n, w.key) with
      | some _ => some (d, { w with stage := .raised false })
      | none => some ({ d with logs := d.logs.set (n, w.key) .running }, { w with stage := .running })
    else none
  | .write e =>
    if w.stage = .running ∨ w.stage = .cleaning then some ({ d with dirs := d.dirs.set w.key e }, w)
    else none
  | .exit success =>
    if w.stage = .running then
      some ({ d with logs := d.logs.set (n, w.key) (if success then .ok else .failed) },
        { w with stage := .exited success })
    else none
  | .note =>
    match w.stage with
    | .exited true => some (d, { w with stage := .noted, status := some .ok, processManifest := some n })
    | .exited false =>
      some (d, { w with stage := .returned, status := some .failed, processManifest := some n })
    | _ => none
  | .clean =>
    if w.stage = .noted then some (d, { w with stage := .cleaning, status := some .cleaning }) else none
  | .cleaned success =>
    if w.stage = .cleaning then
      some (d, { w with stage := .returned, status := some (if success then .ok else .failed) })
    else none
  | .raises interrupt =>
    match w.stage with
    | .raised _ => none
    | .running =>
      some ({ d with logs := d.logs.set (n, w.key) .failed }, { w with stage := .raised interrupt })
    | _ => some (d, { w with stage := .raised interrupt })

/-- The call has ended. -/
def Work.ended (w : Work) : Bool :=
  match w.stage with
  | .returned | .raised _ => true
  | _ => false

/-- The calls after one of them has made a step. -/
def replaceWork (active : List Work) (w : Work) : List Work :=
  active.map fun w' => if w'.key = w.key then w else w'

/-- What a call does to its job is seen at once in the serial loop, where it has the job itself. -/
def Exec.sync (x : Exec) (w : Work) : Exec :=
  if x.settings.serial then { x with jobs := setJob x.jobs w.key w.update } else x

/-- The next pending job is taken. -/
def Exec.enter (x : Exec) : Option Exec :=
  match x.todo with
  | [] => none
  | k :: rest =>
    if x.settings.serial then
      if x.flow = .going ∧ x.active = [] then
        some { x with todo := rest, active := [⟨k, .entered, none, none⟩] }
      else none
    else if (x.active.filter fun w => !w.ended).length < x.settings.workers then
      some { x with
        todo := rest
        active := x.active ++
          [if x.stopped then ⟨k, .returned, some .cancelled, none⟩ else ⟨k, .entered, none, none⟩] }
    else none

/-- The loop sees how a call has ended. -/
def Exec.collect (x : Exec) (key : String) : Option Exec :=
  match x.active.find? (·.key = key) with
  | none => none
  | some w =>
    if x.flow ≠ .going then none
    else if x.settings.serial then
      match w.stage with
      | .returned => some { x with active := [], flow := .unwritten key }
      | .raised interrupt =>
        if x.settings.hooks then
          if interrupt then
            some { x with
              jobs := skipLater (setJob x.jobs key fun j => { j with status := some .interrupted }) x.todo
              todo := []
              active := []
              flow := .stopping }
          else
            some { x with
              jobs := setJob x.jobs key fun j => { j with status := some .failed }
              active := []
              flow := .unwritten key }
        else some { x with todo := [], active := [], flow := .stopping }
      | _ => none
    else
      match w.stage with
      | .returned =>
        some { x with
          jobs := setJob x.jobs key w.update
          active := x.active.filter (·.key ≠ key)
          stopped := x.stopped || w.status ≠ some .ok
          flow := .unwritten key }
      | .raised _ =>
        -- the futures that wait are cancelled
        some { x with
          todo := [], active := x.active.filter (·.key ≠ key), stopped := true, flow := .stopping }
      | _ => none

/-- After a write in the loop. The serial loop ends at a job that is not ok. -/
def Exec.written (x : Exec) (key : String) : Exec :=
  if x.settings.serial ∧ ∃ j ∈ x.jobs, j.key = key ∧ j.status ≠ some .ok then
    { x with jobs := skipLater x.jobs x.todo, todo := [], flow := .stopping }
  else { x with flow := .going }

/-- Something is raised in the loop, outside of the calls. -/
def Exec.raise (x : Exec) : Option Exec :=
  if x.flow = .stopping ∨ x.flow = .closed then none
  else if x.settings.serial then
    if x.active = [] then some { x with todo := [], flow := .stopping } else none
  else some { x with todo := [], stopped := true, flow := .stopping }

/-- The status in the `finally` block. -/
def finalStatus (jobs : List Job) : SuiteStatus :=
  if jobs ≠ [] ∧ ∀ j ∈ jobs, j.status = some .ok then .ok else .failed

/-! ### Attempts -/

/-- A plan whose reusable jobs are marked. -/
structure Prepared where
  settings : Settings
  jobs : List Job
  resumeVerified : Bool
  deriving DecidableEq, Repr

/-- Where an attempt is. -/
inductive Phase where
  /-- There is none. These producers have been left by the one that was killed. -/
  | idle (orphans : List String)
  /-- `prepare_resume` moves evidence. -/
  | moving (p : Prepared) (paths : List String)
  | planned (p : Prepared)
  /-- `execute_plan` has made the directory. -/
  | opening (p : Prepared)
  | executing (x : Exec)
  deriving DecidableEq, Repr

/-- The files and the attempt. -/
structure State (ε : Type) where
  disk : Disk ε
  /-- The number of the last attempt. -/
  attempt : ℕ
  phase : Phase

/-- Nothing has been run. -/
def initial : State ε := ⟨.empty, 0, .idle []⟩

/-- What may happen. -/
inductive Label (ε : Type) where
  /-- An attempt begins, with `--resume` or without. -/
  | begin (resume : Bool) (plan : Plan) (unavailable verified : String → Bool)
  | move
  | mkdir
  | open
  | enter
  | work (key : String) (op : Op ε)
  | collect (key : String)
  | write
  | stop
  | raise
  | close
  | leave
  | kill
  /-- A producer that was left goes on. -/
  | orphan (key : String) (e : ε)

/-- `run_experiment` up to the moves of `prepare_resume`. -/
def begin (d : Disk ε) (n : ℕ) (resume : Bool) (plan : Plan) (unavailable verified : String → Bool) :
    Disk ε × Phase :=
  let jobs := availableJobs plan.jobs unavailable
  if jobs = [] then (d, .idle [])
  else if resume && d.present then
    match d.suiteJson with
    | none => (d, .idle [])
    | some old =>
      if old.effectiveConfig ≠ plan.settings.effectiveConfig then (d, .idle [])
      else
        let d := match d.attemptHistory.find? n with
          | some _ => d
          | none => { d with attemptHistory := d.attemptHistory.set n old }
        match resumedAll old verified d.dirs jobs with
        | none => (d, .idle [])
        | some rs => (d, .moving ⟨plan.settings, rs.map (·.1), true⟩ (failedPaths rs))
  else (d, .planned ⟨plan.settings, jobs.map Planned.fresh, false⟩)

/-- `write_json(manifest, plan)`. -/
def Disk.write (d : Disk ε) (c : Settings) (status : SuiteStatus) (jobs : List Job) : Disk ε :=
  { d with suiteJson := some ⟨status, c.effectiveConfig, jobs⟩ }

/-- The producers that are running. -/
def Phase.producers : Phase → List String
  | .executing x => (x.active.filter (·.stage = .running)).map Work.key
  | .idle orphans => orphans
  | _ => []

/-- The step function. -/
def step (s : State ε) : Label ε → Option (State ε)
  | .begin resume plan unavailable verified =>
    match s.phase with
    | .idle _ =>
      let r := begin s.disk (s.attempt + 1) resume plan unavailable verified
      some ⟨r.1, s.attempt + 1, r.2⟩
    | _ => none
  | .move =>
    match s.phase with
    | .moving p [] => some { s with phase := .planned p }
    | .moving p (k :: ks) =>
      match s.disk.dirs.find? k with
      | none => some { s with phase := .idle [] }
      | some e =>
        -- the attempt has its own directory, so this path is new
        some { s with
          disk := { s.disk with
            dirs := s.disk.dirs.erase k
            failedAttempts := s.disk.failedAttempts.set (s.attempt, k) e }
          phase := .moving p ks }
    | _ => none
  | .mkdir =>
    match s.phase with
    | .planned p =>
      if s.disk.present ∧ p.resumeVerified = false then some { s with phase := .idle [] }
      else some { s with disk := { s.disk with present := true }, phase := .opening p }
    | _ => none
  | .open =>
    match s.phase with
    | .opening p =>
      some { s with
        disk := s.disk.write p.settings .running p.jobs
        phase := .executing
          { settings := p.settings
            jobs := p.jobs
            todo := (p.jobs.filter fun j => !j.reusedVerified).map (·.key)
            active := []
            stopped := false
            flow := .going } }
    | _ => none
  | .enter =>
    match s.phase with
    | .executing x => x.enter.map fun x => { s with phase := .executing x }
    | _ => none
  | .work key op =>
    match s.phase with
    | .executing x =>
      match x.active.find? (·.key = key) with
      | none => none
      | some w => (w.run s.attempt s.disk op).map fun r =>
        { s with
          disk := r.1
          phase := .executing ({ x with active := replaceWork x.active r.2 }.sync r.2) }
    | _ => none
  | .collect key =>
    match s.phase with
    | .executing x => (x.collect key).map fun x => { s with phase := .executing x }
    | _ => none
  | .write =>
    match s.phase with
    | .executing x =>
      match x.flow with
      | .unwritten key =>
        some { s with
          disk := s.disk.write x.settings .running x.jobs
          phase := .executing (x.written key) }
      | _ => none
    | _ => none
  | .stop =>
    match s.phase with
    | .executing x =>
      if x.flow = .going ∧ x.todo = [] ∧ x.active = [] then
        some { s with phase := .executing { x with flow := .stopping } }
      else none
    | _ => none
  | .raise =>
    match s.phase with
    | .executing x => x.raise.map fun x => { s with phase := .executing x }
    | _ => none
  | .close =>
    match s.phase with
    | .executing x =>
      if x.flow = .stopping then
        some { s with
          disk := s.disk.write x.settings (finalStatus x.jobs) x.jobs
          phase := .executing { x with flow := .closed } }
      else none
    | _ => none
  | .leave =>
    match s.phase with
    | .executing x =>
      if x.flow = .closed ∧ x.active.all Work.ended then some { s with phase := .idle [] } else none
    | _ => none
  | .kill => some { s with phase := .idle s.phase.producers }
  | .orphan key e =>
    match s.phase with
    | .idle orphans =>
      if key ∈ orphans then some { s with disk := { s.disk with dirs := s.disk.dirs.set key e } }
      else none
    | _ => none

end Suite

end DeltaBox
