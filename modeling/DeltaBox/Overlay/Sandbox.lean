import DeltaBox.Lib.Disk
import DeltaBox.Lib.Machine

/-!
# The task overlay and its checkpoint table

The file-system side of `SandboxController`: the mounted overlay, the paths the controller believes
are mounted, and the `layers` list each checkpoint keeps. Three lists have to stay in step, and
nothing in the code compares them:

* the `layers` of a registry entry, a list of paths;
* the `lowerdir` list handed to the layer-switch ioctl, another list of paths;
* the stack the kernel really mounts, a list of directories.

They differ by design. A checkpoint renames the live upper to `layer_<id>` and records it in
`layers`, but leaves it out of `lowerdir`, because the ioctl puts the old upper there by itself.

## What is modelled

`checkpointLegacy`, `sink` and `asyncCheckpoint` follow `_checkpoint_legacy`, `_sink` and
`AsyncIncrementalCheckpoint.checkpoint`; `restoreAction` follows `restore_action`. The memory side
of these functions (CRIU, templates, signals) never reads or writes the overlay, so here it can
only decide whether the call goes on, and that decision is an input: `Fault` says where a call
raises.

Paths are the strings the code builds. Fresh identifiers are part of the label of a step, and the
step is enabled only when nothing on disk or in the registry carries them, which is how "uuids do
not repeat" enters.

## Main definitions

* `applyOverlaySwitch` — the layer-switch ioctl
* `checkpointAction`, `restoreAction` — the two entry points
* `step` — one action of the agent or the controller, with the history `Traced` keeps
-/

namespace DeltaBox

namespace Overlay

/-- The checkpoint strategies, with the one the validation twin is registered under. -/
inductive Strategy where
  | lightweight
  | standard
  | predump
  | validationFullTwin
  deriving DecidableEq, Repr

/-- The constructor arguments and mode flags the file-system side reads. -/
structure Config where
  /-- `layers_root`. -/
  layersRoot : String
  /-- `base_layer`, the pristine bottom layer. -/
  baseLayer : String
  /-- `_async_incremental is not None`. -/
  asyncIncremental : Bool
  /-- `enable_adaptive`. -/
  enableAdaptive : Bool
  /-- `InstructionSemanticParser.parse_strategy`. -/
  parseStrategy : String → Strategy

/-- The fields of a registry entry that decide which files a restore brings back. -/
structure Entry where
  /-- `parent_id`. -/
  parentId : Option String
  /-- `layers`, topmost first. -/
  layers : List String
  /-- `strategy`. -/
  strategy : Strategy
  /-- `effective_restore_id`: absent from the dictionary, or present and possibly `None`. -/
  effectiveRestoreId : Option (Option String)
  /-- `upper_dirty`. -/
  upperDirty : Bool
  /-- `memory_protocol == PROTOCOL`. -/
  exactParent : Bool

/-- The controller's view of the overlay, beside what is really on disk and mounted. -/
structure State (P C : Type*) where
  /-- The backing directories. -/
  disk : Disk P C
  /-- The stack the kernel has mounted. -/
  mount : Mount
  /-- `current_upper`. -/
  currentUpper : String
  /-- `current_work`. -/
  currentWork : String
  /-- `registry`. -/
  registry : Dict String Entry
  /-- `AsyncIncrementalCheckpoint.failed`, as the truth value the guard tests. -/
  asyncFailed : Bool

/-! ### Paths -/

/-- The text after the last separator is determined, and so is the text before it. -/
theorem split_last {α : Type*} {c : α} {a b i j : List α} (hi : c ∉ i) (hj : c ∉ j)
    (h : a ++ c :: i = b ++ c :: j) : a = b ∧ i = j := by
  rcases List.append_eq_append_iff.mp h with ⟨m, hb, hm⟩ | ⟨m, ha, hm⟩
  · rcases m with _ | ⟨x, m⟩
    · exact ⟨by simpa using hb.symm, (List.cons.inj hm).2⟩
    · obtain ⟨-, hm⟩ := List.cons.inj hm
      exact absurd (hm ▸ List.mem_append_right m List.mem_cons_self) hi
  · rcases m with _ | ⟨x, m⟩
    · exact ⟨by simpa using ha, (List.cons.inj hm).2.symm⟩
    · obtain ⟨-, hm⟩ := List.cons.inj hm
      exact absurd (hm ▸ List.mem_append_right m List.mem_cons_self) hj

/-- `os.path.join(root, name)` for a relative `name`. -/
def join (root name : String) : String :=
  match root.toList.getLast? with
  | none => name
  | some '/' => root ++ name
  | some _ => root ++ "/" ++ name

theorem join_left_cancel {root a b : String} (h : join root a = join root b) : a = b := by
  rw [String.ext_iff] at h ⊢
  simp only [join] at h
  split at h <;> simpa using h

namespace Config

variable (cfg : Config)

/-- The path a live upper is renamed to. -/
def layerPath (id : String) : String := join cfg.layersRoot ("layer_" ++ id)

/-- The upper that replaces it. -/
def nextUpper (id : String) : String := join cfg.layersRoot ("upper_" ++ id ++ "_next")

/-- And its work directory. -/
def nextWork (id : String) : String := join cfg.layersRoot ("work_" ++ id ++ "_next")

/-- The upper a restore mounts. -/
def restoreUpper (rid : String) : String := join cfg.layersRoot ("restore_" ++ rid ++ "_upper")

/-- And its work directory. -/
def restoreWork (rid : String) : String := join cfg.layersRoot ("restore_" ++ rid ++ "_work")

theorem layerPath_ne_nextUpper (id : String) : cfg.layerPath id ≠ cfg.nextUpper id := by
  intro h
  have := congrArg String.toList (join_left_cancel h)
  simp at this

theorem layerPath_ne_nextWork (id : String) : cfg.layerPath id ≠ cfg.nextWork id := by
  intro h
  have := congrArg String.toList (join_left_cancel h)
  simp at this

theorem nextUpper_ne_nextWork (id : String) : cfg.nextUpper id ≠ cfg.nextWork id := by
  intro h
  have := congrArg String.toList (join_left_cancel h)
  simp at this

theorem restoreUpper_ne_restoreWork (rid : String) :
    cfg.restoreUpper rid ≠ cfg.restoreWork rid := by
  intro h
  have := congrArg String.toList (join_left_cancel h)
  simp at this

end Config

/-! ### The layer switch -/

/-- The two kinds of layer switch. -/
inductive Kind where
  | ckpt
  | restore
  deriving DecidableEq

variable {P C : Type*}

/-- `_apply_overlay_switch`. The kernel resolves the paths it is given. A `ckpt` switch puts the
old upper on top of the passed list, a `restore` switch installs exactly the passed list. `none`
is a raised error, which leaves the mount as it was. -/
def applyOverlaySwitch (s : State P C) (layers : List String) (upperPath workPath : String)
    (kind : Kind) (ok : Bool) : Option Mount :=
  if ok then
    (s.disk.resolve layers).bind fun lowers =>
      (s.disk.names upperPath).bind fun upper =>
        (s.disk.names workPath).map fun _ =>
          match kind with
          | .ckpt => ⟨upper, s.mount.upper :: lowers⟩
          | .restore => ⟨upper, lowers⟩
  else none

/-- Where a call raises, relative to its layer switch. -/
inductive Fault where
  | before
  | switch
  | after
  deriving DecidableEq

/-- What the environment decides during one checkpoint call. -/
structure CkptInput where
  /-- The uuid drawn by the call. -/
  id : String
  /-- Was a validation twin dumped? -/
  twin : Bool
  /-- Can the current upper be listed? -/
  scanOk : Bool
  /-- Did `classify_vmas` find a hot region (and was it asked)? -/
  hot : Bool
  /-- Does the call raise, and where? -/
  fault : Option Fault

/-! ### `_checkpoint_legacy` -/

/-- The strategy selection at the head of `_checkpoint_legacy`. -/
def chooseStrategy (cfg : Config) (raw : String) (hot : Bool) : Strategy :=
  if raw = "lightweight" then .lightweight
  else if raw = "standard" then .standard
  else if raw = "predump" then .predump
  else if cfg.enableAdaptive && raw ≠ "" then
    match cfg.parseStrategy raw with
    | .standard => if hot then .predump else .standard
    | strategy => strategy
  else .standard

/-- The layers a checkpoint builds on: its parent's, or the base layer when the parent is falsy or
not registered. -/
def parentLayers (cfg : Config) (s : State P C) (parent : Option String) : List String :=
  match (parent.filter (· ≠ "")).bind s.registry.find? with
  | some e => e.layers
  | none => [cfg.baseLayer]

theorem parentLayers_some {cfg : Config} {s : State P C} {p : String} {e : Entry} (hp : p ≠ "")
    (he : s.registry.find? p = some e) : parentLayers cfg s (some p) = e.layers := by
  simp [parentLayers, Option.filter, hp, he]

/-- The dirty check of `_checkpoint_legacy`. `os.walk` reports no error by default, so a directory
that is missing or cannot be listed yields nothing and counts as clean. -/
def isUpperDirty (s : State P C) (scanOk : Bool) : Bool :=
  scanOk && (s.disk.names s.currentUpper).elim false fun i => (s.disk.content i).isDirty

/-- Phase 2 of `_checkpoint_legacy`. The result is the state it leaves behind and, unless it
raised, the new `layers`. -/
def sinkLegacy (cfg : Config) (s : State P C) (layers : List String) (inp : CkptInput) :
    State P C × Option (List String) :=
  if isUpperDirty s inp.scanOk then
    match s.disk.rename s.currentUpper (cfg.layerPath inp.id) with
    | none => (s, none)
    | some d =>
      let s := { s with disk := (d.mkdirs (cfg.nextUpper inp.id)).mkdirs (cfg.nextWork inp.id) }
      match applyOverlaySwitch s layers (cfg.nextUpper inp.id) (cfg.nextWork inp.id) .ckpt
          (inp.fault ≠ some .switch) with
      | none => (s, none)
      | some m =>
        ({ s with
            mount := m
            currentUpper := cfg.nextUpper inp.id
            currentWork := cfg.nextWork inp.id }, some (cfg.layerPath inp.id :: layers))
  else (s, some layers)

/-- The `effective_restore_id` of a lightweight entry: its parent's, or the parent itself. -/
def effectiveOf (s : State P C) (parent : Option String) : Option String :=
  match parent.bind s.registry.find? with
  | some e => e.effectiveRestoreId.getD parent
  | none => parent

/-- Register an entry and, when one was dumped, its validation twin. -/
def register (s : State P C) (inp : CkptInput) (e : Entry) : State P C :=
  let registry := s.registry.set inp.id e
  { s with
    registry :=
      if inp.twin && e.strategy ≠ .lightweight then
        registry.set (inp.id ++ "_full")
          { e with parentId := none, strategy := .validationFullTwin, effectiveRestoreId := none }
      else registry }

/-- The `info` dictionary of `_checkpoint_legacy`, with the registry it is made against. -/
def legacyEntry (s : State P C) (parent : Option String) (strategy : Strategy)
    (layers : List String) (dirty : Bool) : Entry :=
  { parentId := parent
    layers := layers
    strategy := strategy
    effectiveRestoreId := if strategy = .lightweight then some (effectiveOf s parent) else none
    upperDirty := dirty
    exactParent := false }

/-- `_checkpoint_legacy` once its strategy is chosen. The entry is absent when the call raised. -/
def checkpointLegacy (cfg : Config) (s : State P C) (parent : Option String)
    (strategy : Strategy) (inp : CkptInput) : State P C × Option Entry :=
  if inp.fault = some .before then (s, none)
  else
    match sinkLegacy cfg s (parentLayers cfg s parent) inp with
    | (s', none) => (s', none)
    | (s', some layers) =>
      if inp.fault = some .after then (s', none)
      else
        let e := legacyEntry s' parent strategy layers (isUpperDirty s inp.scanOk)
        (register s' inp e, some e)

/-! ### `AsyncIncrementalCheckpoint` -/

/-- `_parent`: no parent, a physical parent, or a raised error (`none`). -/
def asyncParent (s : State P C) : Option String → Option (Option Entry)
  | none => some none
  | some p =>
    if p = "" then some none
    else do
      let e ← s.registry.find? p
      let effective ← e.effectiveRestoreId.getD (some p)
      let physical ← s.registry.find? effective
      if physical.exactParent then some (some physical) else none

/-- `_sink`. Unlike `sinkLegacy` it insists that the current upper exists and can be walked. -/
def sink (cfg : Config) (s : State P C) (layers : List String) (inp : CkptInput) :
    State P C × Option (List String × Bool) :=
  match s.disk.names s.currentUpper with
  | none => (s, none)
  | some i =>
    if !inp.scanOk then (s, none)
    else if (s.disk.content i).isDirty then
      let s := { s with
        disk := (s.disk.mkdirs (cfg.nextUpper inp.id)).mkdirs (cfg.nextWork inp.id) }
      match s.disk.rename s.currentUpper (cfg.layerPath inp.id) with
      | none => (s, none)
      | some d =>
        let s := { s with disk := d }
        match applyOverlaySwitch s layers (cfg.nextUpper inp.id) (cfg.nextWork inp.id) .ckpt
            (inp.fault ≠ some .switch) with
        | none => (s, none)
        | some m =>
          ({ s with
              mount := m
              currentUpper := cfg.nextUpper inp.id
              currentWork := cfg.nextWork inp.id }, some (cfg.layerPath inp.id :: layers, true))
    else (s, some (layers, false))

/-- The `info` dictionary of `AsyncIncrementalCheckpoint.checkpoint`. -/
def asyncEntry (parent : Option String) (layers : List String) (dirty : Bool) : Entry :=
  { parentId := parent
    layers := layers
    strategy := .standard
    effectiveRestoreId := none
    upperDirty := dirty
    exactParent := true }

/-- `AsyncIncrementalCheckpoint.checkpoint`. A call that raises after admission poisons every
later one. -/
def asyncCheckpoint (cfg : Config) (s : State P C) (parent : Option String) (raw : String)
    (inp : CkptInput) : State P C × Option Entry :=
  if s.asyncFailed || raw = "predump" then (s, none)
  else
    match asyncParent s parent with
    | none => (s, none)
    | some physical =>
      if raw = "lightweight" then
        if physical.isNone then (s, none) else checkpointLegacy cfg s parent .lightweight inp
      else if inp.fault = some .before then ({ s with asyncFailed := true }, none)
      else
        match sink cfg s (parentLayers cfg s parent) inp with
        | (s', none) => ({ s' with asyncFailed := true }, none)
        | (s', some (layers, dirty)) =>
          if inp.fault = some .after then ({ s' with asyncFailed := true }, none)
          else
            let e := asyncEntry parent layers dirty
            ({ s' with registry := s'.registry.set inp.id e }, some e)

/-- `checkpoint_action`. -/
def checkpointAction (cfg : Config) (s : State P C) (parent : Option String) (raw : String)
    (inp : CkptInput) : State P C × Option Entry :=
  if cfg.asyncIncremental then asyncCheckpoint cfg s parent raw inp
  else checkpointLegacy cfg s parent (chooseStrategy cfg raw inp.hot) inp

/-! ### `restore_action` -/

/-- The entry whose image and layers a restore of `target` uses. -/
def physicalTarget (s : State P C) (target : String) : Option Entry := do
  let e ← s.registry.find? target
  let effective ← e.effectiveRestoreId.getD (some target)
  s.registry.find? effective

/-- `restore_action`, which mounts the effective entry's layers under a new upper. The flag says
whether the call returned. -/
def restoreAction (cfg : Config) (s : State P C) (target rid : String) (fault : Option Fault) :
    State P C × Bool :=
  match physicalTarget s target with
  | none => (s, false)
  | some physical =>
    if fault = some .before then (s, false)
    else
      let s := { s with
        disk := (s.disk.mkdirs (cfg.restoreUpper rid)).mkdirs (cfg.restoreWork rid) }
      match applyOverlaySwitch s physical.layers (cfg.restoreUpper rid) (cfg.restoreWork rid)
          .restore (fault ≠ some .switch) with
      | none => (s, false)
      | some m =>
        ({ s with
            mount := m
            currentUpper := cfg.restoreUpper rid
            currentWork := cfg.restoreWork rid }, fault ≠ some .after)

/-! ### Actions and runs -/

/-- One action of the agent or of the controller's caller. -/
inductive Action (P C : Type*) where
  /-- The agent creates or overwrites a file. -/
  | write (ds : List P) (p : P) (c : C)
  /-- The agent deletes a file. -/
  | remove (ds : List P) (p : P)
  /-- `checkpoint_action(parent, tag, raw)`. -/
  | checkpoint (parent : Option String) (raw : String) (inp : CkptInput)
  /-- `restore_action(target)`, with the uuid it draws. -/
  | restore (target rid : String) (fault : Option Fault)

/-- A state with the history the properties speak about. -/
structure Traced (P C : Type*) where
  /-- The sandbox. -/
  sb : State P C
  /-- The entry last checkpointed or restored to. -/
  pos : Option String
  /-- What the agent saw when each entry was checkpointed. -/
  seen : String → Option (View P C)

/-- A drawn checkpoint identifier: not empty, and nothing on disk or in the registry carries it
yet. -/
def FreshId (cfg : Config) (s : State P C) (id : String) : Prop :=
  id ≠ "" ∧ s.registry.find? id = none ∧ s.registry.find? (id ++ "_full") = none ∧
    s.disk.names (cfg.layerPath id) = none ∧ s.disk.names (cfg.nextUpper id) = none ∧
      s.disk.names (cfg.nextWork id) = none

/-- A drawn restore identifier: nothing on disk carries it yet, and neither does the current upper,
which may be the path of a directory that was renamed away. -/
def FreshRestoreId (cfg : Config) (s : State P C) (rid : String) : Prop :=
  s.disk.names (cfg.restoreUpper rid) = none ∧ s.disk.names (cfg.restoreWork rid) = none ∧
    s.currentUpper ≠ cfg.restoreUpper rid ∧ s.currentUpper ≠ cfg.restoreWork rid

instance (cfg : Config) (s : State P C) (id : String) : Decidable (FreshId cfg s id) :=
  inferInstanceAs (Decidable (_ ∧ _))

instance (cfg : Config) (s : State P C) (rid : String) : Decidable (FreshRestoreId cfg s rid) :=
  inferInstanceAs (Decidable (_ ∧ _))

variable [DecidableEq P]

/-- What the agent sees. -/
def State.visible (s : State P C) : View P C := s.disk.visible s.mount

/-- The agent's write to the mounted upper. -/
def agentWrite (s : State P C) (ds : List P) (p : P) (c : C) : State P C :=
  { s with disk := s.disk.put s.mount.upper ((s.disk.content s.mount.upper).write ds p c) }

/-- The agent's deletion. Deleting what is not there changes nothing. -/
def agentRemove (s : State P C) (ds : List P) (p : P) : State P C :=
  match s.visible p with
  | none => s
  | some _ =>
    { s with
      disk := s.disk.put s.mount.upper
        ((s.disk.content s.mount.upper).remove (s.mount.lowers.map s.disk.content) ds p) }

/-- One step. A call that raises leaves the history alone. -/
def step (cfg : Config) (t : Traced P C) : Action P C → Option (Traced P C)
  | .write ds p c => some { t with sb := agentWrite t.sb ds p c }
  | .remove ds p => some { t with sb := agentRemove t.sb ds p }
  | .checkpoint parent raw inp =>
    if FreshId cfg t.sb inp.id then
      match checkpointAction cfg t.sb parent raw inp with
      | (s', none) => some { t with sb := s' }
      | (s', some _) =>
        some
          { sb := s'
            pos := some inp.id
            seen := Function.update
              (Function.update t.seen (inp.id ++ "_full") (some t.sb.visible))
              inp.id (some t.sb.visible) }
    else none
  | .restore target rid fault =>
    if FreshRestoreId cfg t.sb rid then
      match restoreAction cfg t.sb target rid fault with
      | (s', false) => some { t with sb := s' }
      | (s', true) => some { t with sb := s', pos := some target }
    else none

/-- The controller as its constructor leaves it: the initial upper is mounted over the base layer
and nothing is registered. -/
structure Initial (cfg : Config) (t : Traced P C) : Prop where
  /-- The upper the controller was given is the mounted one. -/
  upper : t.sb.disk.names t.sb.currentUpper = some t.sb.mount.upper
  /-- The base layer is the only layer below it. -/
  lowers : t.sb.disk.resolve [cfg.baseLayer] = some t.sb.mount.lowers
  /-- The base layer is a different directory. -/
  base_ne : t.sb.mount.upper ∉ t.sb.mount.lowers
  /-- No checkpoint exists. -/
  registry : t.sb.registry = Dict.empty
  /-- And none was restored. -/
  pos : t.pos = none

end Overlay

end DeltaBox
