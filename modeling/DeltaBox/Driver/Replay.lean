import DeltaBox.Lib.Dict
import DeltaBox.Lib.Machine

/-!
# The replay driver with lightweight checkpoints

`_run_replay` goes through a schedule of checkpoint and restore events
(`replay/guest/trace_replay_main.py`). In worker-exec mode a checkpoint event first lets the worker
in the sandbox execute its operations. A lightweight checkpoint dumps nothing: it is recorded with
an effective checkpoint, the nearest one below it that has an image, and with the operations to
replay from there (`SandboxController._checkpoint_legacy`).

## What is modelled

* Both event kinds with every early end they have: operations that fail, a controller call that
  raises, a dump that is waited for and fails, an index snapshot or a check that raises. An event
  that raises is recorded as an error and ends the schedule.
* A worker operation is a function on the state of the sandbox, files and memory together, with its
  result. `worker_exec` runs every operation of an event, also behind one that has failed.
* In the asynchronous mode a standard checkpoint on top of a lightweight one is built on the layers
  of the effective checkpoint (`AsyncIncrementalCheckpoint._sink`). What is stored and left mounted
  there is open.

## Histories

An entry has the state the sandbox was in when it was taken and the operations of its event. For
each restore that is not recorded as an error it is kept what the target was and what came out.
-/

namespace DeltaBox

namespace Driver

universe u v

variable {Op : Type u} {σ : Type v}

/-- The result of one worker operation. -/
inductive OpResult where
  | ok
  /-- `run_tests`, `TimeoutExpired`. -/
  | testTimeout
  | failed
  deriving DecidableEq, Repr

/-- The worker. -/
abbrev Worker (Op : Type u) (σ : Type v) := Op → σ → σ × OpResult

/-- `_worker_exec`: every operation, one behind the other. -/
def workerExec (w : Worker Op σ) : List Op → σ → σ × List OpResult
  | [], x => (x, [])
  | op :: ops, x =>
    let (y, r) := w op x
    let (z, rs) := workerExec w ops y
    (z, r :: rs)

/-- The `ok` of the reply. -/
def execOk (rs : List OpResult) : Bool := rs.all (· == .ok)

/-- `worker_exec_is_test_timeout`. -/
def isTestTimeout (rs : List OpResult) : Bool :=
  !execOk rs && (rs.filter (· != .ok)).all (· == .testTimeout)

/-- An entry of `replay_cmds`. -/
structure Item (Op : Type u) where
  action : String
  command : String
  workerOps : List Op
  deriving DecidableEq, Repr

/-- The strategy of an event. -/
inductive Strategy where
  | standard
  | lightweight
  deriving DecidableEq, Repr

/-- The tag of a strategy. -/
def Strategy.tag : Strategy → String
  | .standard => "standard"
  | .lightweight => "lightweight"

/-- What the registry has on a checkpoint. -/
structure Entry (Op : Type u) (σ : Type v) where
  /-- `parent_id`. -/
  parentId : Option String
  strategy : Strategy
  /-- `effective_restore_id`: absent, or present and possibly `None`. -/
  effectiveRestoreId : Option (Option String)
  replayCmds : List (Item Op)
  /-- The operations of its event. -/
  ops : List Op
  /-- The state it was taken in. -/
  recorded : σ
  /-- What a physical restore of it leads to. -/
  image : σ

/-- The driver, the controller's registry, and the sandbox. -/
structure State (Op : Type u) (σ : Type v) where
  current : σ
  registry : Dict String (Entry Op σ)
  lastCkptId : Option String
  scheduleToRuntime : Dict String String
  /-- The keys of `runtime_index_status`. -/
  indexStatus : List String
  /-- What the target of each restore was recorded in, and what the restore has led to. -/
  restored : List (σ × σ)
  /-- `had_error`. -/
  hadError : Bool

/-- `asyncIncremental`: checkpoints go through `AsyncIncrementalCheckpoint.checkpoint`. -/
structure Config where
  asyncIncremental : Bool

/-- A checkpoint event of the schedule. -/
structure CkptEvent (Op : Type u) where
  ckptId : Option String
  strategy : Strategy
  workerOps : List Op
  workerOpsRequired : Bool

/-- How a checkpoint event fares. -/
structure CkptEnv (σ : Type v) where
  /-- The identifier the controller makes up. -/
  id : String
  /-- The control call raises, with what the worker has done by then. -/
  execRaises : Option (σ → σ)
  /-- A check before the checkpoint, or the checkpoint, raises. -/
  raises : Bool
  /-- Waiting for the dump raises. -/
  dumpRaises : Bool
  /-- The index snapshot raises. -/
  snapshotRaises : Bool
  /-- In the asynchronous mode, on top of a lightweight checkpoint: what is stored and mounted. -/
  rebased : σ → σ

/-- How a restore event fares. -/
structure RestoreEnv (σ : Type v) where
  /-- `restore_with_ready` raises, with what it has done to the sandbox. -/
  controllerRaises : Option (σ → σ)
  /-- The replay is cut off by the channel behind so many items, with what the worker has done to
  the sandbox beyond them. -/
  channelRaises : Option (ℕ × (σ → σ))
  /-- A check behind the replay raises. -/
  checksRaise : Bool

/-- An event and how it fares. -/
inductive Event (Op : Type u) (σ : Type v) where
  | ckpt (ev : CkptEvent Op) (env : CkptEnv σ)
  | restore (target : String) (env : RestoreEnv σ)

/-- The start of the schedule. -/
def start (x : σ) : State Op σ where
  current := x
  registry := .empty
  lastCkptId := none
  scheduleToRuntime := .empty
  indexStatus := []
  restored := []
  hadError := false

/-- The event is recorded as an error, and it has moved the sandbox. -/
def State.fail (s : State Op σ) (x : σ) : State Op σ :=
  { s with current := x, hadError := true }

/-! ### A checkpoint event -/

/-- The entry of a parent, or the empty dictionary. -/
def parentOf (s : State Op σ) : Option (Entry Op σ) :=
  s.lastCkptId.bind s.registry.find?

/-- The parent is a lightweight checkpoint. -/
def onLightweight (s : State Op σ) : Bool :=
  (parentOf s).any fun e => e.strategy == .lightweight

/-- What a checkpoint stores and leaves mounted in the state `x`. -/
def stores (cfg : Config) (s : State Op σ) (ev : CkptEvent Op) (env : CkptEnv σ) (x : σ) : σ :=
  if cfg.asyncIncremental && ev.strategy == .standard && onLightweight s then env.rebased x else x

/-- The entry that is registered. -/
def newEntry (cfg : Config) (s : State Op σ) (ev : CkptEvent Op) (env : CkptEnv σ) (x : σ) :
    Entry Op σ :=
  let base : Entry Op σ :=
    { parentId := s.lastCkptId, strategy := ev.strategy, effectiveRestoreId := none,
      replayCmds := [], ops := ev.workerOps, recorded := x, image := stores cfg s ev env x }
  match ev.strategy with
  | .standard => base
  | .lightweight =>
    let effective := ((parentOf s).bind Entry.effectiveRestoreId).getD s.lastCkptId
    let cmds := ((parentOf s).map Entry.replayCmds).getD []
    { base with
      effectiveRestoreId := some effective
      replayCmds := cmds ++
        [{ action := ev.strategy.tag, command := ev.strategy.tag, workerOps := ev.workerOps }] }

/-- The checkpoint call raises. The asynchronous one refuses a lightweight checkpoint without a
parent. -/
def ckptRaises (cfg : Config) (s : State Op σ) (ev : CkptEvent Op) (env : CkptEnv σ) : Bool :=
  env.raises ||
    (cfg.asyncIncremental && ev.strategy == .lightweight && s.lastCkptId.isNone)

/-- A checkpoint event. -/
def ckptEvent (cfg : Config) (w : Worker Op σ) (s : State Op σ) (ev : CkptEvent Op)
    (env : CkptEnv σ) : Option (State Op σ) :=
  if (s.registry.find? env.id).isSome then none
  else if ev.workerOpsRequired && ev.workerOps.isEmpty then some (s.fail s.current)
  else
    match env.execRaises with
    | some f => some (s.fail (f s.current))
    | none =>
      let (x, rs) := workerExec w ev.workerOps s.current
      if !execOk rs && !isTestTimeout rs then some (s.fail x)
      else if ckptRaises cfg s ev env then some (s.fail x)
      else
        let left := stores cfg s ev env x
        let registry := s.registry.set env.id (newEntry cfg s ev env x)
        -- only a checkpoint with a dump has one to wait for
        if ev.strategy == .standard && env.dumpRaises then some { s.fail left with registry }
        else
          some { s with
            current := left
            registry
            lastCkptId := some env.id
            scheduleToRuntime :=
              match ev.ckptId with
              | some key => s.scheduleToRuntime.set key env.id
              | none => s.scheduleToRuntime
            indexStatus := if env.snapshotRaises then s.indexStatus else env.id :: s.indexStatus
            hadError := env.snapshotRaises }

/-! ### A restore event -/

/-- The entry that `restore_action` restores: the effective one. -/
def physicalTarget (s : State Op σ) (id : String) (e : Entry Op σ) : Option (Entry Op σ) :=
  ((e.effectiveRestoreId.getD (some id)).bind s.registry.find?).filter fun f =>
    f.strategy == .standard

/-- `replay_lightweight_worker_ops`: one item after the other, up to the first that is not `ok`.
With the results of that item. -/
def replayOps (w : Worker Op σ) : List (Item Op) → σ → σ × Option (List OpResult)
  | [], x => (x, none)
  | item :: items, x =>
    let (y, rs) := workerExec w item.workerOps x
    if execOk rs then replayOps w items y else (y, some rs)

/-- A restore event. -/
def restoreEvent (w : Worker Op σ) (s : State Op σ) (target : String) (env : RestoreEnv σ) :
    State Op σ :=
  match s.scheduleToRuntime.find? target with
  | none => s.fail s.current
  | some id =>
    match s.registry.find? id with
    | none => s.fail s.current
    | some e =>
      match physicalTarget s id e with
      | none => s.fail s.current
      | some f =>
        match env.controllerRaises with
        | some g => s.fail (g s.current)
        | none =>
          -- from here on the target is the last checkpoint, whatever happens
          let failed (x : σ) : State Op σ :=
            { s with current := x, lastCkptId := some id, hadError := true }
          match env.channelRaises with
          | some (n, g) => failed (g (replayOps w (e.replayCmds.take n) f.image).1)
          | none =>
            let (x, firstBad) := replayOps w e.replayCmds f.image
            if firstBad.any fun rs => !isTestTimeout rs then failed x
            else if env.checksRaise || !s.indexStatus.contains id then failed x
            else { failed x with restored := (e.recorded, x) :: s.restored, hadError := false }

/-- One event of the schedule, which ends behind one that is recorded as an error. -/
def step (cfg : Config) (w : Worker Op σ) (s : State Op σ) (ev : Event Op σ) :
    Option (State Op σ) :=
  if s.hadError then none
  else
    match ev with
    | .ckpt ev env => ckptEvent cfg w s ev env
    | .restore target env => some (restoreEvent w s target env)

/-! ### What lightweight checkpoints are for -/

/-- The operations of the lightweight nodes on the parent path from `k` to a checkpoint. -/
inductive Path (registry : Dict String (Entry Op σ)) (k : String) :
    String → List (List Op) → Prop where
  | here : Path registry k k []
  | next {id parent : String} {e : Entry Op σ} {ops : List (List Op)} :
      registry.find? id = some e → e.strategy = .lightweight → e.parentId = some parent →
      Path registry k parent ops → Path registry k id (ops ++ [e.ops])

/-- Each lightweight checkpoint has an effective one, which is registered and has an image, its
commands are the operations on the path from there, and each restore that was not recorded as an
error has led to the state its target was taken in. -/
structure Faithful (s : State Op σ) : Prop where
  effective : ∀ id e, s.registry.find? id = some e → e.strategy = .lightweight → ∃ k f,
    e.effectiveRestoreId = some (some k) ∧ s.registry.find? k = some f ∧ f.strategy = .standard ∧
      Path s.registry k id (e.replayCmds.map Item.workerOps)
  restored : ∀ p ∈ s.restored, p.1 = p.2

/-- All items, whatever their results. -/
def runItems (w : Worker Op σ) (items : List (Item Op)) (x : σ) : σ :=
  items.foldl (fun x item => (workerExec w item.workerOps x).1) x

/-- The items behind the first one that is not `ok` change nothing. -/
def Harmless (w : Worker Op σ) : List (Item Op) → σ → Prop
  | [], _ => True
  | item :: items, x =>
    let (y, rs) := workerExec w item.workerOps x
    if execOk rs then Harmless w items y else runItems w items y = y

instance [DecidableEq σ] (w : Worker Op σ) :
    ∀ (items : List (Item Op)) (x : σ), Decidable (Harmless w items x)
  | [], _ => isTrue trivial
  | item :: items, x => by
    rw [Harmless]
    have := instDecidableHarmlessOfDecidableEq w items
    infer_instance

/-- The event gets as far as to register its checkpoint. -/
def registers (cfg : Config) (w : Worker Op σ) (s : State Op σ) (ev : CkptEvent Op)
    (env : CkptEnv σ) : Bool :=
  let rs := (workerExec w ev.workerOps s.current).2
  !(ev.workerOpsRequired && ev.workerOps.isEmpty) && env.execRaises.isNone &&
    (execOk rs || isTestTimeout rs) && !ckptRaises cfg s ev env

/-- The event keeps lightweight checkpoints faithful. A lightweight checkpoint is taken on top of
another one. A standard checkpoint stores the state it is taken in. The operations a restore has to
replay behind one that times out change nothing. -/
def Sound (cfg : Config) (w : Worker Op σ) (s : State Op σ) : Event Op σ → Prop
  | .ckpt ev env => registers cfg w s ev env = true →
    (ev.strategy = .lightweight → s.lastCkptId ≠ none) ∧
      stores cfg s ev env (workerExec w ev.workerOps s.current).1 =
        (workerExec w ev.workerOps s.current).1
  | .restore target _ =>
    ∀ id ∈ s.scheduleToRuntime.find? target, ∀ e ∈ s.registry.find? id,
      ∀ f ∈ physicalTarget s id e, Harmless w e.replayCmds f.image

instance [DecidableEq σ] (cfg : Config) (w : Worker Op σ) (s : State Op σ) (a : Event Op σ) :
    Decidable (Sound cfg w s a) := by
  cases a <;> unfold Sound <;> infer_instance

end Driver

end DeltaBox
