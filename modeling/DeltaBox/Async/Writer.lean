import DeltaBox.Lib.Dict
import DeltaBox.Lib.Machine
import Mathlib.Algebra.BigOperators.Group.Finset.Basic
import Mathlib.Data.Finset.Card
import Mathlib.Data.Finset.Filter

/-!
# Asynchronous incremental checkpoints

`AsyncIncrementalCheckpoint.checkpoint` publishes a checkpoint before its memory image exists. A
slot, a handle on the dump process and a future belong to the call until the dump is submitted, and
to the background task from then on.

## What is modelled

* The call, one stage at a time. Every stage may raise, and the handler of the exception is a few
  stages of its own, some of which may raise too.
* The task `_run`, one stage at a time, in any order with the call and with the other tasks. Tasks
  start when a worker is free. A task waits for the future of its physical parent, or for its
  timeout.
* The semaphore, the registry, and for each admitted checkpoint the fields of its entry that the
  call and the task write, and its two image directories.

A call that is not admitted changes nothing, and a lightweight call only registers a node. Calls come
one at a time. Ids do not repeat. A submission that raises does not run its task.

The counters and times of a `Job` are history. The code has neither.
-/

namespace DeltaBox

namespace Async

/-- `entry["state"]`. -/
inductive Status where
  | warmReady
  | dumping
  | durableReady
  | durableFailed
  deriving DecidableEq, Repr

/-- A `Future`. -/
inductive Future where
  | pending
  | result
  | exception
  deriving DecidableEq, Repr

/-- The content of an image directory. -/
inductive Image where
  | unfinished
  | complete
  deriving DecidableEq, Repr

/-- Where `_run` is. The last three carry its `error`. -/
inductive TaskPc where
  /-- Submitted. -/
  | queued
  /-- `parent["dump_future"].result(timeout)`. -/
  | waiting
  /-- `parent.get("state")`. -/
  | checking
  /-- The command line is being put together. -/
  | launch
  /-- CRIU runs. -/
  | criu
  /-- `collect_page_stats(staging)`. -/
  | stats
  /-- `os.replace(staging, final)`. -/
  | move
  /-- `_image_dir_size(final)`. -/
  | size
  /-- `_dispose`. -/
  | dispose (error : Option String)
  /-- `slots.release()`. -/
  | release (error : Option String)
  /-- `set_result` or `set_exception`. -/
  | settle (error : Option String)
  /-- It has returned. -/
  | done
  deriving DecidableEq

/-- An admitted checkpoint: the fields of its entry that change, its directories, its task. -/
structure Job where
  /-- `prev_ckpt_id`. -/
  prevCkptId : Option String
  /-- `state`. -/
  state : Status
  /-- `dump_error`. -/
  dumpError : Option String
  /-- `cleanup_error`. -/
  cleanupError : Option String
  /-- `dispose_done`. -/
  disposeDone : Bool
  /-- `dump_future`, once created. -/
  future : Option Future
  /-- The `.pending` directory. -/
  staging : Option Image
  /-- The directory `mem_path`. -/
  final : Option Image
  /-- The task, once submitted. -/
  task : Option TaskPc
  /-- How often its slot was released. -/
  released : ℕ
  /-- How often the pidfd of its dump process was opened. -/
  opened : ℕ
  /-- And closed. -/
  closed : ℕ
  /-- How often its future was settled. -/
  settled : ℕ
  /-- When its CRIU command started. -/
  criuAt : Option ℕ
  /-- When its future was settled by the task. -/
  doneAt : Option ℕ
  deriving DecidableEq

/-- A checkpoint that has just been admitted. -/
def Job.admitted (prev : Option String) : Job where
  prevCkptId := prev
  state := .warmReady
  dumpError := none
  cleanupError := none
  disposeDone := false
  future := none
  staging := none
  final := none
  task := none
  released := 0
  opened := 0
  closed := 0
  settled := 0
  criuAt := none
  doneAt := none

/-- A registry entry, as far as the search for a parent reads it. -/
structure Entry where
  /-- `parent_id`. -/
  parentId : Option String
  /-- `prev_ckpt_id`. -/
  prevCkptId : Option String
  /-- `effective_restore_id`, when there is one. -/
  effectiveRestoreId : Option String
  /-- Is `memory_protocol` the protocol of these checkpoints? -/
  exactParent : Bool
  deriving DecidableEq

/-- Where an admitted call is. -/
inductive Stage where
  /-- The imports, and the checks before the bootstrap. -/
  | inspect
  /-- `_bootstrap_active_before_dump`, and the checks after it. -/
  | bootstrap
  /-- `quiesce_for_checkpoint` and `validate_replay_resources`. -/
  | validate
  /-- `_sink`, the end of the quiescence, and `dump_child_contract`. -/
  | sink
  /-- `request_stash_template` for the warm template. -/
  | stashWarm
  /-- `_wait_pid_stopped(warm)`. -/
  | stopWarm
  /-- `request_stash_template` for the dump process. -/
  | stashDump
  /-- `_wait_pid_stopped(dump_pid)`, and the check of its namespace. -/
  | stopDump
  /-- `open_pidfd(dump_pid)`. -/
  | openPidfd
  /-- `staging.mkdir()`. -/
  | mkdir
  /-- The future, the entry, `registry[checkpoint_id] = entry`. -/
  | publish
  /-- `_watch_lazy_prestart(entry)`. -/
  | watch
  /-- The submission of `_run`. -/
  | submit
  /-- The handler of an exception: `failed`, the future, the registry, `discard`. -/
  | fail (error : String)
  /-- `_dispose(dump_pid, dump_pidfd)`. -/
  | dispose
  /-- `shutil.rmtree(staging)`. -/
  | rmtree
  /-- The `finally` clause. -/
  | close
  deriving DecidableEq

/-- An admitted call and its local variables. -/
structure Call where
  /-- `checkpoint_id`. -/
  id : String
  /-- `parent_id`. -/
  parentId : Option String
  /-- The id of `parent`. -/
  parent : Option String
  /-- Where it is. -/
  stage : Stage
  /-- Is `warm` set? -/
  warm : Bool
  /-- Is `dump_pid` set? -/
  dumpPid : Bool
  /-- Is `dump_pidfd` set? -/
  pidfd : Bool
  deriving DecidableEq

/-- The controller as far as these checkpoints use it. -/
structure State where
  /-- `registry`. -/
  registry : Dict String Entry
  /-- The admitted checkpoints. -/
  jobs : String → Job
  /-- Their ids. -/
  admitted : Finset String
  /-- The value of the semaphore `slots`. -/
  slots : ℕ
  /-- `failed`. -/
  failed : Option String
  /-- The call under way, once admitted. -/
  call : Option Call
  /-- The ids of the admitted calls that have raised. -/
  aborted : List String
  /-- The number of steps so far. -/
  clock : ℕ

/-- Change one job. -/
def State.setJob (s : State) (id : String) (job : Job) : State :=
  { s with jobs := Function.update s.jobs id job }

@[simp] theorem State.setJob_self (s : State) (id : String) (job : Job) :
    (s.setJob id job).jobs id = job := Function.update_self ..

theorem State.setJob_of_ne (s : State) {id x : String} (job : Job) (h : x ≠ id) :
    (s.setJob id job).jobs x = s.jobs x := Function.update_of_ne h ..

/-! ### The call -/

/-- Why a call is not admitted. -/
inductive Refusal where
  /-- async checkpoint transaction previously failed -/
  | failed (error : String)
  /-- async-incremental does not support predump checkpoints -/
  | predump
  /-- unknown checkpoint parent -/
  | unknownParent (parentId : String)
  /-- The effective parent is not registered. -/
  | keyError (effective : String)
  /-- cannot attach exact-parent dump to a different checkpoint protocol -/
  | protocol
  /-- lightweight checkpoint requires a physical parent -/
  | noPhysicalParent
  /-- async checkpoint admission timed out -/
  | admission
  deriving DecidableEq

/-- `_parent`: the id of the physical parent. An empty id counts as none. -/
def parentEntry (registry : Dict String Entry) : Option String → Except Refusal (Option String)
  | none => .ok none
  | some parentId =>
    if parentId = "" then .ok none
    else
      match registry.find? parentId with
      | none => .error (.unknownParent parentId)
      | some entry =>
        let effective := entry.effectiveRestoreId.getD parentId
        match registry.find? effective with
        | none => .error (.keyError effective)
        | some entry => if entry.exactParent then .ok (some effective) else .error .protocol

/-- The checks before admission. -/
def preflight (s : State) (parentId : Option String) (rawCommand : String) :
    Except Refusal (Option String) :=
  match s.failed with
  | some error => .error (.failed error)
  | none =>
    if rawCommand = "predump" then .error .predump
    else
      match parentEntry s.registry parentId with
      | .error e => .error e
      | .ok none => if rawCommand = "lightweight" then .error .noPhysicalParent else .ok none
      | .ok (some parent) => .ok (some parent)

/-- What a part of a call does: it returns something, or nothing, or raises. -/
inductive Outcome where
  | returned
  | nothing
  | raised (error : String)
  deriving DecidableEq

/-- An id that is not in use. -/
def Fresh (s : State) (id : String) : Prop := id ∉ s.admitted ∧ s.registry.find? id = none

instance (s : State) (id : String) : Decidable (Fresh s id) := inferInstanceAs (Decidable (_ ∧ _))

/-- The start of a call: it is refused, or registers a lightweight node, or is admitted. -/
def startCall (s : State) (parentId : Option String) (rawCommand id : String) (legacy : Outcome) :
    State :=
  match preflight s parentId rawCommand with
  | .error _ => s
  | .ok parent =>
    if rawCommand = "lightweight" then
      match legacy with
      | .returned =>
        let node : Entry :=
          { parentId := parentId
            prevCkptId := none
            effectiveRestoreId := parent
            exactParent := false }
        { s with registry := s.registry.set id node }
      | _ => s
    else if s.slots = 0 then s
    else
      { s with
        jobs := Function.update s.jobs id (Job.admitted parent)
        admitted := insert id s.admitted
        slots := s.slots - 1
        call := some ⟨id, parentId, parent, .inspect, false, false, false⟩ }

/-- The call goes on. -/
def State.goto (s : State) (c : Call) : State := { s with call := some c }

/-- One stage of an admitted call. -/
def callStep (s : State) (c : Call) (o : Outcome) : Option State :=
  let job := s.jobs c.id
  match c.stage, o with
  | .inspect, .returned => some (s.goto { c with stage := .bootstrap })
  | .inspect, .raised e => some (s.goto { c with stage := .fail e })
  | .bootstrap, .returned => some (s.goto { c with stage := .validate, warm := true })
  | .bootstrap, .nothing => some (s.goto { c with stage := .validate })
  | .bootstrap, .raised e => some (s.goto { c with stage := .fail e })
  | .validate, .returned => some (s.goto { c with stage := .sink })
  | .validate, .raised e => some (s.goto { c with stage := .fail e })
  | .sink, .returned => some (s.goto { c with stage := .stashWarm })
  | .sink, .raised e => some (s.goto { c with stage := .fail e })
  | .stashWarm, .returned => some (s.goto { c with stage := .stopWarm, warm := true })
  | .stashWarm, .nothing => some (s.goto { c with stage := .stopWarm })
  | .stashWarm, .raised e =>
    -- nothing is requested when the bootstrap has left a template behind
    if c.warm then none else some (s.goto { c with stage := .fail e })
  | .stopWarm, .returned =>
    if c.warm then some (s.goto { c with stage := .stashDump })
    else some (s.goto { c with stage := .fail "RuntimeError: warm template failed to stop" })
  | .stopWarm, .nothing =>
    some (s.goto { c with stage := .fail "RuntimeError: warm template failed to stop" })
  | .stopWarm, .raised e => some (s.goto { c with stage := .fail e })
  | .stashDump, .returned => some (s.goto { c with stage := .stopDump, dumpPid := true })
  | .stashDump, .nothing => some (s.goto { c with stage := .stopDump })
  | .stashDump, .raised e => some (s.goto { c with stage := .fail e })
  | .stopDump, .returned =>
    if c.dumpPid then some (s.goto { c with stage := .openPidfd })
    else some (s.goto { c with stage := .fail "RuntimeError: disposable dump task failed to stop" })
  | .stopDump, .nothing =>
    some (s.goto { c with stage := .fail "RuntimeError: disposable dump task failed to stop" })
  | .stopDump, .raised e => some (s.goto { c with stage := .fail e })
  | .openPidfd, .returned =>
    some ((s.setJob c.id { job with opened := job.opened + 1 }).goto
      { c with stage := .mkdir, pidfd := true })
  | .openPidfd, .raised e => some (s.goto { c with stage := .fail e })
  | .mkdir, .returned =>
    some ((s.setJob c.id { job with staging := some .unfinished }).goto { c with stage := .publish })
  | .mkdir, .raised e => some (s.goto { c with stage := .fail e })
  | .publish, .returned =>
    let entry : Entry :=
      { parentId := c.parentId
        prevCkptId := c.parent
        effectiveRestoreId := none
        exactParent := true }
    some ({ s.setJob c.id { job with future := some .pending } with
      registry := s.registry.set c.id entry }.goto { c with stage := .watch })
  | .watch, .returned => some (s.goto { c with stage := .submit })
  | .watch, .raised e => some (s.goto { c with stage := .fail e })
  | .submit, .returned =>
    some { s.setJob c.id { job with task := some .queued } with call := none }
  | .submit, .raised e => some (s.goto { c with stage := .fail e })
  | .fail e, o =>
    let job :=
      if job.future = some .pending then
        { job with future := some .exception, settled := job.settled + 1 }
      else job
    let s := { s.setJob c.id job with failed := some e, registry := s.registry.erase c.id }
    match o with
    -- only a `discard` can raise here, and the clean-up after it is skipped
    | .raised _ => if c.warm then some (s.goto { c with stage := .close }) else none
    | _ => some (s.goto { c with stage := .dispose })
  | .dispose, o =>
    if c.dumpPid then
      let s := if c.pidfd then s.setJob c.id { job with closed := job.closed + 1 } else s
      let s :=
        match o with
        | .raised e => { s with failed := s.failed.map (· ++ "; cleanup: " ++ e) }
        | _ => s
      some (s.goto { c with stage := .rmtree, pidfd := false })
    else some (s.goto { c with stage := .rmtree })
  | .rmtree, .raised _ =>
    if job.staging.isSome then some (s.goto { c with stage := .close }) else none
  | .rmtree, _ =>
    some ((s.setJob c.id { job with staging := none }).goto { c with stage := .close })
  | .close, _ =>
    some
      { s.setJob c.id
          { job with
            closed := if c.pidfd then job.closed + 1 else job.closed
            released := job.released + 1 } with
        slots := s.slots + 1
        call := none
        aborted := s.aborted ++ [c.id] }
  | _, _ => none

/-! ### The task -/

/-- An exception in the body of `_run`. -/
def Job.raise (job : Job) (error : String) : Job :=
  { job with
    state := .durableFailed
    dumpError := some error
    task := some (.dispose (some error)) }

/-- The task has started and has not returned. -/
def Job.running (job : Job) : Bool :=
  match job.task with
  | none => false
  | some .queued => false
  | some .done => false
  | some _ => true

/-- One stage of a task. -/
def taskStep (workers : ℕ) (s : State) (id : String) (fault : Option String) : Option State :=
  let job := s.jobs id
  match job.task, fault with
  | some .queued, none =>
    if (s.admitted.filter fun x => (s.jobs x).running).card < workers then
      some (s.setJob id { job with task := some .waiting })
    else none
  | some .waiting, fault =>
    match job.prevCkptId with
    | none =>
      if fault = none then
        some (s.setJob id { job with state := .dumping, task := some .launch })
      else none
    | some parent =>
      -- the parent's exception, or a timeout while its future is pending
      match (s.jobs parent).future, fault with
      | some .result, none => some (s.setJob id { job with task := some .checking })
      | some .result, some _ => none
      | _, some e => some (s.setJob id (job.raise e))
      | _, none => none
  | some .checking, none =>
    if job.prevCkptId.all fun parent => (s.jobs parent).state = .durableReady then
      some (s.setJob id { job with state := .dumping, task := some .launch })
    else some (s.setJob id (job.raise "RuntimeError: physical parent did not commit"))
  | some .launch, none =>
    some (s.setJob id { job with criuAt := some s.clock, task := some .criu })
  | some .launch, some e => some (s.setJob id (job.raise e))
  | some .criu, none =>
    some (s.setJob id { job with staging := some .complete, task := some .stats })
  | some .criu, some e => some (s.setJob id (job.raise e))
  | some .stats, none => some (s.setJob id { job with task := some .move })
  | some .stats, some e => some (s.setJob id (job.raise e))
  | some .move, none =>
    some (s.setJob id { job with final := job.staging, staging := none, task := some .size })
  | some .move, some e => some (s.setJob id (job.raise e))
  | some .size, none =>
    some (s.setJob id { job with state := .durableReady, task := some (.dispose none) })
  | some .size, some e => some (s.setJob id (job.raise e))
  | some (.dispose error), none =>
    some (s.setJob id
      { job with closed := job.closed + 1, disposeDone := true, task := some (.release error) })
  | some (.dispose error), some e =>
    some (s.setJob id
      { job with
        closed := job.closed + 1
        disposeDone := false
        cleanupError := some e
        state := .durableFailed
        dumpError := if error = none then some ("disposal: " ++ e) else job.dumpError
        task := some (.release (error.or (some e))) })
  | some (.release error), none =>
    some { s.setJob id { job with released := job.released + 1, task := some (.settle error) } with
      slots := s.slots + 1 }
  | some (.settle error), none =>
    some (s.setJob id
      { job with
        future := some (if error = none then .result else .exception)
        settled := job.settled + 1
        doneAt := some s.clock
        task := some .done })
  | _, _ => none

/-! ### Steps -/

/-- The steps: a call starts, the call under way goes on, a task goes on. -/
inductive Action where
  | checkpoint (parentId : Option String) (rawCommand id : String) (legacy : Outcome)
  | advance (o : Outcome)
  | run (id : String) (fault : Option String)

/-- One step, before the clock moves. -/
def move (workers : ℕ) (s : State) : Action → Option State
  | .checkpoint parentId rawCommand id legacy =>
    if s.call = none ∧ Fresh s id then some (startCall s parentId rawCommand id legacy) else none
  | .advance o => s.call.bind fun c => callStep s c o
  | .run id fault => if id ∈ s.admitted then taskStep workers s id fault else none

/-- One step. -/
def step (workers : ℕ) (s : State) (a : Action) : Option State :=
  (move workers s a).map fun t => { t with clock := s.clock + 1 }

/-- Nothing was checkpointed yet. -/
structure Initial (maxPending : ℕ) (s : State) : Prop where
  /-- The registry is empty. -/
  registry : s.registry = Dict.empty
  /-- Nothing was admitted. -/
  admitted : s.admitted = ∅
  /-- All slots are free. -/
  slots : s.slots = maxPending
  /-- No call has failed. -/
  failed : s.failed = none
  /-- No call is under way. -/
  call : s.call = none
  /-- None was aborted. -/
  aborted : s.aborted = []

/-! ### What a stage can do -/

/-- How many stages a task has left. -/
def TaskPc.rank : TaskPc → ℕ
  | .queued => 11
  | .waiting => 10
  | .checking => 9
  | .launch => 8
  | .criu => 7
  | .stats => 6
  | .move => 5
  | .size => 4
  | .dispose _ => 3
  | .release _ => 2
  | .settle _ => 1
  | .done => 0

/-- How many stages a call has left, those of its task included. -/
def Stage.rank : Stage → ℕ
  | .inspect => 24
  | .bootstrap => 23
  | .validate => 22
  | .sink => 21
  | .stashWarm => 20
  | .stopWarm => 19
  | .stashDump => 18
  | .stopDump => 17
  | .openPidfd => 16
  | .mkdir => 15
  | .publish => 14
  | .watch => 13
  | .submit => 12
  | .fail _ => 4
  | .dispose => 3
  | .rmtree => 2
  | .close => 1

/-- What a call leaves as it is in its checkpoint. -/
structure Job.Untouched (job job' : Job) : Prop where
  prevCkptId : job'.prevCkptId = job.prevCkptId
  state : job'.state = job.state
  final : job'.final = job.final
  criuAt : job'.criuAt = job.criuAt
  doneAt : job'.doneAt = job.doneAt

/-- **What a stage of a call can do.** It changes its own checkpoint and moves on, or it submits the
task. -/
structure CallEffect (s : State) (c : Call) (t : State) (job : Job) : Prop where
  jobs : t.jobs = Function.update s.jobs c.id job
  admitted : t.admitted = s.admitted
  clock : t.clock = s.clock
  untouched : (s.jobs c.id).Untouched job
  registry : t.registry = s.registry ∨ t.registry = s.registry.erase c.id ∨
    c.stage = .publish ∧
      t.registry = s.registry.set c.id ⟨c.parentId, c.parent, none, true⟩
  next : (job.task = (s.jobs c.id).task ∧ (∀ c', t.call = some c' →
      c'.id = c.id ∧ c'.parent = c.parent ∧ c'.stage.rank < c.stage.rank)) ∨
    (c.stage = .submit ∧ t.call = none ∧ t.registry = s.registry ∧ job.task = some .queued ∧
      job.future = (s.jobs c.id).future)

theorem callStep_effect {s t : State} {c : Call} {o : Outcome} (hstep : callStep s c o = some t) :
    ∃ job, CallEffect s c t job := by
  have hset : ∀ (c' : Call) (job : Job) (registry : Dict String Entry) (failed : Option String),
      c'.id = c.id ∧ c'.parent = c.parent ∧ c'.stage.rank < c.stage.rank →
      (s.jobs c.id).Untouched job → job.task = (s.jobs c.id).task →
      (registry = s.registry ∨ registry = s.registry.erase c.id ∨
        c.stage = .publish ∧ registry = s.registry.set c.id ⟨c.parentId, c.parent, none, true⟩) →
      CallEffect s c ({ s.setJob c.id job with registry := registry, failed := failed }.goto c')
        job := by
    intro c' job registry failed hc' hjob htask hreg
    refine ⟨rfl, rfl, rfl, hjob, hreg, Or.inl ⟨htask, fun x hx => ?_⟩⟩
    obtain rfl := Option.some.inj hx
    exact hc'
  have hself : s.setJob c.id (s.jobs c.id) = s := by rw [State.setJob, Function.update_eq_self]
  have hgoto : ∀ (c' : Call) (failed : Option String),
      c'.id = c.id ∧ c'.parent = c.parent ∧ c'.stage.rank < c.stage.rank →
        CallEffect s c ({ s with failed := failed }.goto c') (s.jobs c.id) := by
    intro c' failed hc'
    have := hset c' (s.jobs c.id) s.registry failed hc' ⟨rfl, rfl, rfl, rfl, rfl⟩ rfl (Or.inl rfl)
    rwa [hself] at this
  cases hst : c.stage with
  | openPidfd =>
    rcases o with _ | _ | e <;> simp only [callStep, hst] at hstep <;> cases hstep
    · exact ⟨_, hset _ _ s.registry s.failed ⟨rfl, rfl, by simp [hst, Stage.rank]⟩
        ⟨rfl, rfl, rfl, rfl, rfl⟩ rfl (Or.inl rfl)⟩
    · exact ⟨_, hgoto _ s.failed ⟨rfl, rfl, by simp [hst, Stage.rank]⟩⟩
  | mkdir =>
    rcases o with _ | _ | e <;> simp only [callStep, hst] at hstep <;> cases hstep
    · exact ⟨_, hset _ _ s.registry s.failed ⟨rfl, rfl, by simp [hst, Stage.rank]⟩
        ⟨rfl, rfl, rfl, rfl, rfl⟩ rfl (Or.inl rfl)⟩
    · exact ⟨_, hgoto _ s.failed ⟨rfl, rfl, by simp [hst, Stage.rank]⟩⟩
  | publish =>
    rcases o with _ | _ | e <;> simp only [callStep, hst] at hstep <;> cases hstep
    exact ⟨_, hset _ _ _ s.failed ⟨rfl, rfl, by simp [hst, Stage.rank]⟩
      ⟨rfl, rfl, rfl, rfl, rfl⟩ rfl (Or.inr (Or.inr ⟨hst, rfl⟩))⟩
  | submit =>
    rcases o with _ | _ | e <;> simp only [callStep, hst] at hstep <;> cases hstep
    · exact ⟨_, rfl, rfl, rfl, ⟨rfl, rfl, rfl, rfl, rfl⟩, Or.inl rfl,
        Or.inr ⟨hst, rfl, rfl, rfl, rfl⟩⟩
    · exact ⟨_, hgoto _ s.failed ⟨rfl, rfl, by simp [hst, Stage.rank]⟩⟩
  | fail e =>
    have hfail : ∀ st : Stage, st.rank < 4 → ∃ job, CallEffect s c
        ({ s.setJob c.id
            (if (s.jobs c.id).future = some Future.pending then
              { s.jobs c.id with
                future := some .exception, settled := (s.jobs c.id).settled + 1 }
            else s.jobs c.id) with
          failed := some e
          registry := s.registry.erase c.id }.goto { c with stage := st }) job := by
      intro st hrank
      refine ⟨_, hset _ _ _ (some e) ⟨rfl, rfl, by simpa [hst, Stage.rank] using hrank⟩ ?_ ?_
        (Or.inr (Or.inl rfl))⟩
      · split_ifs <;> exact ⟨rfl, rfl, rfl, rfl, rfl⟩
      · split_ifs <;> rfl
    rcases o with _ | _ | e' <;> simp only [callStep, hst] at hstep
    · obtain rfl := Option.some.inj hstep
      exact hfail .dispose (by simp [Stage.rank])
    · obtain rfl := Option.some.inj hstep
      exact hfail .dispose (by simp [Stage.rank])
    · simp only [Option.ite_none_right_eq_some, Option.some.injEq] at hstep
      obtain ⟨-, rfl⟩ := hstep
      exact hfail .close (by simp [Stage.rank])
  | dispose =>
    rcases o with _ | _ | e <;> simp only [callStep, hst] at hstep <;>
      split_ifs at hstep <;> cases hstep <;> first
      | exact ⟨_, hset _ _ s.registry _ ⟨rfl, rfl, by simp [hst, Stage.rank]⟩
          ⟨rfl, rfl, rfl, rfl, rfl⟩ rfl (Or.inl rfl)⟩
      | exact ⟨_, hgoto _ _ ⟨rfl, rfl, by simp [hst, Stage.rank]⟩⟩
  | rmtree =>
    rcases o with _ | _ | e <;> simp only [callStep, hst] at hstep <;>
      (try split_ifs at hstep) <;> cases hstep <;> first
      | exact ⟨_, hset _ _ s.registry s.failed ⟨rfl, rfl, by simp [hst, Stage.rank]⟩
          ⟨rfl, rfl, rfl, rfl, rfl⟩ rfl (Or.inl rfl)⟩
      | exact ⟨_, hgoto _ s.failed ⟨rfl, rfl, by simp [hst, Stage.rank]⟩⟩
  | close =>
    simp only [callStep, hst] at hstep
    cases hstep
    exact ⟨_, rfl, rfl, rfl, ⟨rfl, rfl, rfl, rfl, rfl⟩, Or.inl rfl, Or.inl ⟨rfl, fun _ hn => by cases hn⟩⟩
  | _ =>
    -- the other stages only move on
    rcases o with _ | _ | e <;> simp only [callStep, hst] at hstep <;>
      (try split_ifs at hstep) <;> cases hstep <;>
      exact ⟨_, hgoto _ s.failed ⟨rfl, rfl, by simp [hst, Stage.rank]⟩⟩

/-- The stages of a task before `_dispose`. -/
def TaskPc.InBody : TaskPc → Prop
  | .waiting | .checking | .launch | .criu | .stats | .move | .size => True
  | _ => False

/-- **What a stage of a task can do** to its checkpoint, and how many slots it releases. -/
inductive TaskMove (s : State) (job : Job) : Job → ℕ → Prop where
  | start : job.task = some .queued → TaskMove s job { job with task := some .waiting } 0
  | root : job.task = some .waiting → job.prevCkptId = none →
      TaskMove s job { job with state := .dumping, task := some .launch } 0
  | wait (parent : String) : job.task = some .waiting → job.prevCkptId = some parent →
      (s.jobs parent).future = some .result → TaskMove s job { job with task := some .checking } 0
  | check : job.task = some .checking →
      (∀ parent, job.prevCkptId = some parent → (s.jobs parent).state = .durableReady) →
      TaskMove s job { job with state := .dumping, task := some .launch } 0
  | raise (pc : TaskPc) (e : String) : job.task = some pc → pc.InBody → TaskMove s job (job.raise e) 0
  | launch : job.task = some .launch →
      TaskMove s job { job with criuAt := some s.clock, task := some .criu } 0
  | criu : job.task = some .criu →
      TaskMove s job { job with staging := some .complete, task := some .stats } 0
  | stats : job.task = some .stats → TaskMove s job { job with task := some .move } 0
  | move : job.task = some .move →
      TaskMove s job { job with final := job.staging, staging := none, task := some .size } 0
  | size : job.task = some .size →
      TaskMove s job { job with state := .durableReady, task := some (.dispose none) } 0
  | dispose (error : Option String) : job.task = some (.dispose error) →
      TaskMove s job
        { job with closed := job.closed + 1, disposeDone := true, task := some (.release error) } 0
  | disposeFail (error : Option String) (e : String) : job.task = some (.dispose error) →
      TaskMove s job
        { job with
          closed := job.closed + 1
          disposeDone := false
          cleanupError := some e
          state := .durableFailed
          dumpError := if error = none then some ("disposal: " ++ e) else job.dumpError
          task := some (.release (error.or (some e))) } 0
  | release (error : Option String) : job.task = some (.release error) →
      TaskMove s job { job with released := job.released + 1, task := some (.settle error) } 1
  | settle (error : Option String) : job.task = some (.settle error) →
      TaskMove s job
        { job with
          future := some (if error = none then .result else .exception)
          settled := job.settled + 1
          doneAt := some s.clock
          task := some .done } 0

theorem taskStep_move {workers : ℕ} {s t : State} {id : String} {fault : Option String}
    (hstep : taskStep workers s id fault = some t) :
    ∃ job k, TaskMove s (s.jobs id) job k ∧ t = { s.setJob id job with slots := s.slots + k } := by
  rcases htask : (s.jobs id).task with _ | pc
  · simp [taskStep, htask] at hstep
  have hraise : ∀ e, pc.InBody → ∃ job k, TaskMove s (s.jobs id) job k ∧
      s.setJob id ((s.jobs id).raise e) = { s.setJob id job with slots := s.slots + k } :=
    fun e hpc => ⟨_, 0, .raise pc e htask hpc, rfl⟩
  cases pc with
  | waiting =>
    simp only [taskStep, htask] at hstep
    split at hstep
    · rename_i hprev
      split_ifs at hstep
      cases hstep
      exact ⟨_, 0, .root htask hprev, rfl⟩
    · rename_i parent hprev
      split at hstep
      · rename_i hfut
        cases hstep
        exact ⟨_, 0, .wait parent htask hprev hfut, rfl⟩
      · cases hstep
      · cases hstep
        exact hraise _ trivial
      · cases hstep
  | queued =>
    rcases fault with _ | e <;> simp only [taskStep, htask] at hstep
    · split_ifs at hstep
      cases hstep
      exact ⟨_, 0, .start htask, rfl⟩
    · cases hstep
  | checking =>
    rcases fault with _ | e <;> simp only [taskStep, htask] at hstep
    · split_ifs at hstep with hready <;> cases hstep
      · refine ⟨_, 0, .check htask fun parent hp => ?_, rfl⟩
        rw [hp] at hready
        exact of_decide_eq_true hready
      · exact hraise _ trivial
    · cases hstep
  | launch =>
    rcases fault with _ | e <;> simp only [taskStep, htask] at hstep <;> cases hstep
    · exact ⟨_, 0, .launch htask, rfl⟩
    · exact hraise e trivial
  | criu =>
    rcases fault with _ | e <;> simp only [taskStep, htask] at hstep <;> cases hstep
    · exact ⟨_, 0, .criu htask, rfl⟩
    · exact hraise e trivial
  | stats =>
    rcases fault with _ | e <;> simp only [taskStep, htask] at hstep <;> cases hstep
    · exact ⟨_, 0, .stats htask, rfl⟩
    · exact hraise e trivial
  | move =>
    rcases fault with _ | e <;> simp only [taskStep, htask] at hstep <;> cases hstep
    · exact ⟨_, 0, .move htask, rfl⟩
    · exact hraise e trivial
  | size =>
    rcases fault with _ | e <;> simp only [taskStep, htask] at hstep <;> cases hstep
    · exact ⟨_, 0, .size htask, rfl⟩
    · exact hraise e trivial
  | dispose error =>
    rcases fault with _ | e <;> simp only [taskStep, htask] at hstep <;> cases hstep
    · exact ⟨_, 0, .dispose error htask, rfl⟩
    · exact ⟨_, 0, .disposeFail error e htask, rfl⟩
  | release error =>
    rcases fault with _ | e <;> simp only [taskStep, htask] at hstep <;> cases hstep
    exact ⟨_, 1, .release error htask, rfl⟩
  | settle error =>
    rcases fault with _ | e <;> simp only [taskStep, htask] at hstep <;> cases hstep
    exact ⟨_, 0, .settle error htask, rfl⟩
  | done =>
    rcases fault with _ | e <;> simp only [taskStep, htask] at hstep <;> cases hstep

end Async

end DeltaBox
