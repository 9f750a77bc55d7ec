import DeltaBox.Verdict.Digest

/-!
# The exit status of a replay

`_run_replay` goes through the schedule and records an event that raises as a row with `ok: False`.
Such a row ends the schedule, as `had_error` does that a collection of images may set. Behind the
events the dumps are settled, and when nothing has gone wrong and the environment asks for it, the
checkpoints that are marked are restored twice and compared. `had_error` is what the exit status is
made from.

## What is given

Every call answers as it likes: it returns, it raises an exception, or something raises that is not
an `Exception` and ends the replay. What is done before the first event is one call here.

## Main definitions

* `ckptEvent`, `restoreEvent`, `events`, `run` — the replay
* `AllSucceeded` — every event has been executed and has succeeded
* `Verified` — what a successful exit should mean
-/

namespace DeltaBox

namespace Verdict

variable {δ : Type*}

/-- What ends a call that does not return. -/
inductive Raised where
  /-- An `Exception`. -/
  | exception
  /-- Another `BaseException`. -/
  | other
  deriving DecidableEq, Repr

abbrev Call (α : Type*) := Except Raised α

/-- A check of the driver raises a `RuntimeError`. -/
def require (c : Bool) : Call Unit := if c then .ok () else .error .exception

/-- The answer to an agent probe. -/
structure Probe where
  ok : Bool
  mismatch : Bool
  deriving DecidableEq, Repr

/-- One entry of the `results` of a worker. -/
structure OpResult where
  ok : Bool
  /-- `run_tests` with `TimeoutExpired`. -/
  timedOutTest : Bool
  deriving DecidableEq, Repr

/-- The answer to `worker_exec`. -/
structure Exec where
  ok : Bool
  results : List OpResult
  deriving DecidableEq, Repr

/-- `worker_exec_is_test_timeout`. -/
def Exec.isTestTimeout (r : Exec) : Bool :=
  let failed := r.results.filter fun o => !o.ok
  !r.ok && !failed.isEmpty && failed.all OpResult.timedOutTest

/-- The answer to `active_worker_status`. -/
structure WorkerStatus where
  ok : Bool
  loaded : Bool
  deriving DecidableEq, Repr

/-- The answer to `worker_index_status`. -/
structure IndexStatus where
  ok : Bool
  loaded : Bool
  fingerprint : String
  nFiles : ℕ
  nClasses : ℕ
  nFunctions : ℕ
  totalBytes : ℕ
  sampleQuery : String
  deriving DecidableEq, Repr

/-- `require_nonempty_worker_index`. -/
def IndexStatus.nonempty (s : IndexStatus) : Bool :=
  s.ok && s.loaded && s.fingerprint != "" && 0 < s.nFiles && 0 < s.totalBytes &&
    0 < s.nClasses + s.nFunctions

/-- The index is what it was at the checkpoint. -/
def IndexStatus.same (s t : IndexStatus) : Bool :=
  s.fingerprint == t.fingerprint && s.nFiles == t.nFiles && s.nClasses == t.nClasses &&
    s.nFunctions == t.nFunctions && s.totalBytes == t.totalBytes && s.sampleQuery == t.sampleQuery

/-- A dump: what waiting for it comes to, with a timeout and without. -/
structure Dump where
  wait : Call Unit
  result : Call Unit

/-- What `checkpoint_action` returns. -/
structure Info where
  id : String
  dump : Option Dump
  validationNeeded : Bool

/-- A call that is made only under a condition. -/
def whenever (c : Bool) (x : Call Unit) : Call Unit := if c then x else .ok ()

/-- What the replay is to do. -/
structure Config where
  agentProbe : Bool
  workerExecRequired : Bool
  activeWorkerRequired : Bool
  syncDump : Bool
  /-- `DELTABOX_MEMCURVE` and `DELTABOX_MEMCURVE_GC`. -/
  memcurveGc : Bool
  /-- `DELTABOX_VALIDATE_INCREMENTAL_EQUIV`. -/
  validate : Bool
  validationMemMode : Mode

/-- A checkpoint event, and how its calls answer. -/
structure Ckpt where
  ckptId : Option String
  /-- `worker_ops` is a list. -/
  workerOps : Bool
  workerOpsEmpty : Bool
  workerOpsRequired : Bool
  /-- The fields of the event are numbers. -/
  fields : Call Unit
  probe : Call Probe
  workerExec : Call Exec
  writeDirty : Call Unit
  footprints : Call Unit
  activeWorker : Call WorkerStatus
  workerIndex : Call IndexStatus
  checkpoint : Call Info
  /-- The index that is recorded, after the snapshot of the sidecar if there is one. -/
  snapshot : Call IndexStatus

/-- A restore event, and how its calls answer. -/
structure Restore where
  target : Option String
  restore : Call Unit
  sidecar : Call Unit
  /-- The reply has `replay_cmds`. -/
  replayCmds : Bool
  /-- `replay_lightweight_worker_ops`: none when all is well, or the first bad answer. -/
  replay : Call (Option Exec)
  probe : Call Probe
  footprint : Call Unit
  activeWorker : Call WorkerStatus
  workerIndex : Call IndexStatus
  record : Call Unit

inductive EventKind where
  | ckpt (ev : Ckpt)
  | restore (ev : Restore)
  | unknown

/-- It is a checkpoint or a restore. -/
def EventKind.known : EventKind → Bool
  | .unknown => false
  | _ => true

/-- An event, with what comes of the collection of images and of writing the results behind it. -/
structure Event where
  kind : EventKind
  gc : Call Unit
  write : Call Unit

/-- A line of the results. -/
inductive Row (δ : Type*) where
  /-- The next event of the schedule. -/
  | event (ok : Bool)
  | gcFailed
  | dumpCompletion (ckptId : String) (ok : Bool)
  | validation (row : ValidationRow δ)
  | summary

/-- The variables of the replay. -/
structure State (δ : Type*) where
  results : List (Row δ)
  pendingDumps : List (String × Dump)
  scheduleToRuntime : List (String × String)
  runtimeIndexStatus : List (String × IndexStatus)
  validationCkpts : List String
  hadError : Bool

def State.init : State δ := ⟨[], [], [], [], [], false⟩

def State.row (s : State δ) (r : Row δ) : State δ := { s with results := s.results ++ [r] }

/-! ### The calls of an event -/

/-- The agent answers, and its memory is what it should be. -/
def probed (x : Call Probe) : Call Unit := x.bind fun p => require (p.ok && !p.mismatch)

def loadedWorker (x : Call WorkerStatus) : Call Unit := x.bind fun s => require (s.ok && s.loaded)

/-- The operations of a checkpoint event. -/
def Ckpt.executed (ev : Ckpt) : Call Unit :=
  (require (ev.workerOps && !(ev.workerOpsRequired && ev.workerOpsEmpty))).bind fun _ =>
    ev.workerExec.bind fun r => require (r.ok || r.isTestTimeout)

/-- What comes before the checkpoint is taken. -/
def Ckpt.before (cfg : Config) (ev : Ckpt) : Call Unit :=
  ev.fields.bind fun _ =>
  (whenever cfg.agentProbe (probed ev.probe)).bind fun _ =>
  (if cfg.workerExecRequired then ev.executed else ev.writeDirty).bind fun _ =>
  ev.footprints.bind fun _ =>
  (whenever cfg.activeWorkerRequired (loadedWorker ev.activeWorker)).bind fun _ =>
  whenever cfg.workerExecRequired (ev.workerIndex.bind fun s => require s.nonempty)

/-- `--sync-dump`. -/
def Info.wait (cfg : Config) (info : Info) : Call Unit :=
  match info.dump with
  | some dump => whenever cfg.syncDump dump.wait
  | none => .ok ()

/-- The dump of a checkpoint is pending. -/
def State.noteDump (s : State δ) (info : Info) : State δ :=
  match info.dump with
  | some dump => { s with pendingDumps := s.pendingDumps ++ [(info.id, dump)] }
  | none => s

/-- The checkpoint is to be validated, and the schedule's name for it is known. -/
def State.noteCkpt (s : State δ) (ckptId : Option String) (info : Info) : State δ :=
  { s with
    validationCkpts :=
      if info.validationNeeded then s.validationCkpts ++ [info.id] else s.validationCkpts
    scheduleToRuntime :=
      match ckptId with
      | some key => (key, info.id) :: s.scheduleToRuntime
      | none => s.scheduleToRuntime }

/-- A checkpoint event. What it has changed stays when it raises. -/
def ckptEvent (cfg : Config) (s : State δ) (ev : Ckpt) : State δ × Call Unit :=
  match (ev.before cfg).bind fun _ => ev.checkpoint with
  | .error r => (s, .error r)
  | .ok info =>
    let s := s.noteDump info
    match info.wait cfg with
    | .error r => (s, .error r)
    | .ok () =>
      let s := s.noteCkpt ev.ckptId info
      if cfg.workerExecRequired then
        match ev.snapshot with
        | .error r => (s, .error r)
        | .ok status =>
          ({ s with runtimeIndexStatus := (info.id, status) :: s.runtimeIndexStatus }, .ok ())
      else (s, .ok ())

/-- The checkpoint that is restored. A `KeyError` where the schedule's one has not been taken. -/
def Restore.runtimeTarget (s : State δ) (ev : Restore) : Call String :=
  match ev.target.bind fun key => s.scheduleToRuntime.lookup key with
  | some id => .ok id
  | none => .error .exception

/-- The operations of lightweight checkpoints are replayed. -/
def Restore.replayed (ev : Restore) : Call Unit :=
  ev.replay.bind fun firstBad => require (firstBad.all Exec.isTestTimeout)

/-- The index is what it was when the target was taken. -/
def Restore.indexed (s : State δ) (ev : Restore) (target : String) : Call Unit :=
  ev.workerIndex.bind fun status =>
  (require status.nonempty).bind fun _ =>
  require ((s.runtimeIndexStatus.lookup target).any fun expected => status.same expected)

/-- A restore event. -/
def restoreEvent (cfg : Config) (s : State δ) (ev : Restore) : Call Unit :=
  (ev.runtimeTarget s).bind fun target =>
  ev.restore.bind fun _ =>
  (whenever cfg.workerExecRequired ev.sidecar).bind fun _ =>
  (whenever (cfg.workerExecRequired && ev.replayCmds) ev.replayed).bind fun _ =>
  (whenever cfg.agentProbe (probed ev.probe)).bind fun _ =>
  ev.footprint.bind fun _ =>
  (whenever cfg.activeWorkerRequired (loadedWorker ev.activeWorker)).bind fun _ =>
  (whenever cfg.workerExecRequired (ev.indexed s target)).bind fun _ =>
  ev.record

/-- The `try` around an event. -/
def attempt (cfg : Config) (s : State δ) : EventKind → State δ × Call Unit
  | .ckpt ev => ckptEvent cfg s ev
  | .restore ev => (s, restoreEvent cfg s ev)
  | .unknown => (s, .ok ())

/-- What follows an event in the loop: an exception is a row, then images may be collected, and the
results are written. -/
def behind (cfg : Config) (s : State δ) (ev : Event) (r : Call Unit) : Call (State δ) :=
  let s : State δ :=
    match r with
    | .ok () => s.row (.event true)
    | .error _ => { s.row (.event false) with hadError := true }
  match whenever (cfg.memcurveGc && ev.kind.known) ev.gc with
  | .error .other => .error .other
  | .error .exception => ev.write.map fun _ => { s.row .gcFailed with hadError := true }
  | .ok () => ev.write.map fun _ => s

/-- The loop over the schedule. -/
def events (cfg : Config) : List Event → State δ → Call (State δ)
  | [], s => .ok s
  | ev :: evs, s =>
    match attempt cfg s ev.kind with
    | (_, .error .other) => .error .other
    | (s, r) =>
      (behind cfg s ev r).bind fun s => if s.hadError then .ok s else events cfg evs s

/-! ### The end -/

/-- `settle_dumps`. -/
def settleDumps : List (String × Dump) → Call (List (Row δ))
  | [] => .ok []
  | (id, dump) :: dumps =>
    match dump.result with
    | .error .other => .error .other
    | r => (settleDumps dumps).map fun rows => .dumpCompletion id r.toBool :: rows

/-- What `row.get("ok") is False` says of the row of a dump. -/
def Row.failed : Row δ → Bool
  | .dumpCompletion _ ok => !ok
  | _ => false

/-- The schedule, and how everything else answers. `validation`: something raises in the validation
that is not an `Exception`. -/
structure World (δ : Type*) where
  setup : Call Unit
  schedule : List Event
  abortDumps : Call Unit
  shutdown : Call Unit
  exported : Call Unit
  registry : String → Option (Option String)
  twins : String → Twins δ
  validation : Call Unit
  summary : Call Unit

inductive Exit where
  | returned
  /-- `SystemExit(1)`. -/
  | systemExit
  /-- Something else has been raised. -/
  | raised
  deriving DecidableEq, Repr

/-- The rows of the validation, when there is one. -/
def validationRows [DecidableEq δ] (cfg : Config) (sha256 : List UInt8 → δ) (w : World δ)
    (s : State δ) : Call (List (Row δ)) :=
  if !s.hadError && cfg.validate then
    w.validation.map fun _ =>
      (validateIncrementalEquivalence sha256 cfg.validationMemMode w.registry w.twins
        s.validationCkpts).map .validation
  else .ok []

/-- The rows of the dumps are added. -/
def State.settle (s : State δ) (dumpRows : List (Row δ)) : State δ :=
  { s with results := s.results ++ dumpRows, hadError := s.hadError || dumpRows.any Row.failed }

/-- What comes behind the loop. -/
def finish [DecidableEq δ] (cfg : Config) (sha256 : List UInt8 → δ) (w : World δ) (s : State δ) :
    Call (State δ) :=
  (if s.hadError then w.abortDumps else w.shutdown).bind fun _ =>
  w.exported.bind fun _ =>
  (settleDumps s.pendingDumps).bind fun dumpRows =>
  (validationRows cfg sha256 w (s.settle dumpRows)).bind fun rows =>
  w.summary.map fun _ =>
    { s.settle dumpRows with results := (s.settle dumpRows).results ++ rows ++ [.summary] }

/-- `_run_replay`, with the results that have been written last. -/
def run [DecidableEq δ] (cfg : Config) (sha256 : List UInt8 → δ) (w : World δ) : Exit × List (Row δ) :=
  match (w.setup.bind fun _ => events cfg w.schedule .init).bind (finish cfg sha256 w) with
  | .error _ => (.raised, [])
  | .ok s => (if s.hadError then .systemExit else .returned, s.results)

end Verdict

end DeltaBox
