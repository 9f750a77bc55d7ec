import DeltaBox.Lib.Dict
import DeltaBox.Lib.Machine
import DeltaBox.Semantic.Parser

/-!
# The adaptive controller

`AdaptiveCRIUController` (`gsd/adaptive_checkpoint.py`) decides for every checkpoint what to dump. A
dump that names an earlier image with `--prev-images-dir` writes only what has changed since, and for
this the image must have every process of the tree.

* A checkpoint is lightweight, or standard, or it is preceded by a pre-dump. The earlier image of a
  standard one is found along the parents, past the lightweight ones. A pre-dump goes on from the
  last pre-dump, whichever branch that was on, and the dump behind it from this pre-dump.
* The guard: if the number of children of the agent is not the one at the last dump, the earlier
  image is not named. Only the direct children are counted.
* Processes come and go between the steps, and while a pre-dump has the tree running.

The commands that are issued are noted, with the tree at that moment and with what the named
directory has in it.
-/

namespace DeltaBox

namespace Adaptive

open Semantic (Strategy parseStrategy)

/-! ### Processes and images -/

/-- A process. -/
abbrev Proc := ℕ

/-- A checkpoint id. -/
abbrev Id := ℕ

/-- The processes of the tree, each with its parent. -/
abbrev Tree := List (Proc × Proc)

/-- The processes of a tree. -/
abbrev procs (tree : Tree) : List Proc := tree.map Prod.fst

/-- The directories of the store. Their names have the id in them. -/
inductive Dir where
  | mem (id : Id)
  | predump (id : Id)
  deriving DecidableEq, Repr

/-- The `strategy` of a registered checkpoint. -/
inductive Kind where
  | lightweight
  | standard
  | predump
  | anchor
  deriving DecidableEq, Repr

/-- What the registry has on a checkpoint. -/
structure Entry where
  memPath : Dir
  parentId : Option Id
  strategy : Kind
  /-- `effective_restore_id`, if the key is there. -/
  effective : Option (Option Id)
  deriving DecidableEq, Repr

/-- A command, as it is issued. -/
structure Issued where
  /-- `--prev-images-dir`. -/
  prev : Option Dir
  /-- What is in this directory, if it exists. -/
  found : Option Tree
  /-- The tree that is dumped. -/
  tree : Tree
  deriving DecidableEq, Repr

structure State where
  registry : Dict Id Entry
  lastPredumpDir : Option Dir
  lastChildCount : ℕ
  checkpointCounter : ℕ
  tree : Tree
  /-- The directories that exist, and the processes that they have images of. -/
  disk : Dir → Option Tree
  /-- The ids that have been drawn. -/
  used : List Id
  issued : List Issued

/-- The controller is made for a running agent. -/
def State.init (tree : Tree) : State := ⟨.empty, none, 0, 0, tree, fun _ => none, [], []⟩

structure Config where
  agentPid : Proc
  enablePredump : Bool
  deriving DecidableEq, Repr

/-! ### The operations -/

variable (cfg : Config)

/-- `_count_children`. -/
def countChildren (tree : Tree) : ℕ := tree.countP fun p => p.2 = cfg.agentPid

/-- `os.makedirs(d, exist_ok=True)`. -/
def State.makedirs (s : State) (d : Dir) : State :=
  { s with disk := Function.update s.disk d (some ((s.disk d).getD [])) }

def State.issue (s : State) (prev : Option Dir) : State :=
  { s with issued := s.issued ++ [⟨prev, prev.bind s.disk, s.tree⟩] }

/-- A command that has succeeded. -/
def State.wrote (s : State) (d : Dir) : State :=
  { s with disk := Function.update s.disk d (some s.tree) }

/-- The strategy that is followed. `hot`: the agent has hot regions. -/
def finalStrategy (raw : String) (hot : Bool) : Strategy :=
  let strategy :=
    if parseStrategy raw = .predump ∧ cfg.enablePredump = false then .standard
    else parseStrategy raw
  if strategy = .standard ∧ cfg.enablePredump = true ∧ hot = true then .predump else strategy

/-- The walk along the parents, past the lightweight ones. -/
def physical (registry : Dict Id Entry) : ℕ → Option Id → Option Id
  | 0, _ => none
  | _ + 1, none => none
  | n + 1, some id =>
    match registry.find? id with
    | none => none
    | some e => if e.strategy ≠ .lightweight then some id else physical registry n e.parentId

/-- The checkpoint that a standard dump goes on from. -/
def State.parentForDump (s : State) (parent : Option Id) : Option Id :=
  physical s.registry (s.registry.entries.length + 1) parent

/-- The directory of a checkpoint. -/
def State.memPath (s : State) (id : Id) : Option Dir := (s.registry.find? id).map (·.memPath)

/-- Phase 2 of `checkpoint_adaptive`, with the earlier image. -/
def dump (s : State) (parent : Option Id) (new : Id) (kind : Kind) (from_ : Option Dir)
    (passes : Bool) : State :=
  let count := countChildren cfg s.tree
  let prev := if count ≠ s.lastChildCount then none else from_
  let s := { s with lastChildCount := count }.issue prev
  if passes then
    let s := s.wrote (.mem new)
    { s with registry := s.registry.set new ⟨.mem new, parent, kind, none⟩ }
  else s

/-- A call of `checkpoint_adaptive`. -/
structure Call where
  parent : Option Id
  raw : String
  hot : Bool
  /-- The id that is drawn. -/
  new : Id
  predumpPasses : Bool
  /-- The tree when the pre-dump is over. -/
  meanwhile : Tree
  dumpPasses : Bool
  deriving DecidableEq, Repr

/-- `checkpoint_adaptive`. A command that fails ends it. -/
def checkpoint (s : State) (c : Call) : State :=
  let s := s.makedirs (.mem c.new)
  match finalStrategy cfg c.raw c.hot with
  | .predump =>
    let s := (s.makedirs (.predump c.new)).issue s.lastPredumpDir
    if c.predumpPasses then
      let s := s.wrote (.predump c.new)
      dump cfg { s with lastPredumpDir := some (.predump c.new), tree := c.meanwhile } c.parent c.new
        .predump (some (.predump c.new)) c.dumpPasses
    else s
  | .standard =>
    dump cfg s c.parent c.new .standard ((s.parentForDump c.parent).bind s.memPath) c.dumpPasses
  | .lightweight =>
    let inherited := c.parent.bind fun p => (s.registry.find? p).bind (·.effective)
    let entry : Entry := ⟨.mem c.new, c.parent, .lightweight, some (inherited.getD c.parent)⟩
    { s with registry := s.registry.set c.new entry }

/-- `maybe_anchor_checkpoint`. -/
def anchor (s : State) (current : Id) (interval : ℕ) (new : Id) (passes : Bool) : State :=
  let s := { s with checkpointCounter := s.checkpointCounter + 1 }
  if s.checkpointCounter % interval ≠ 0 then s
  else if s.registry.find? current = none then s
  else
    let s := (s.makedirs (.mem new)).issue none
    if passes then
      let s := s.wrote (.mem new)
      { s with registry := s.registry.set new ⟨.mem new, some current, .anchor, none⟩ }
    else s

/-- The checkpoint that a restore to another one brings back. `none`: an error. -/
def State.effectiveId (s : State) (target : Id) : Option Id :=
  match s.registry.find? target with
  | none => none
  | some e =>
    match e.effective.getD (some target) with
    | none => none
    | some id => if (s.registry.find? id).isSome then some id else none

/-- `restore`. The tree is killed, and comes back if the image can be restored. -/
def restore (s : State) (target : Id) (passes : Bool) : State :=
  match s.effectiveId target with
  | none => s
  | some id =>
    match (s.memPath id).bind s.disk with
    | none => { s with tree := [] }
    | some image => { s with tree := if passes then image else [] }

/-- A checkpoint and those in front of it. -/
def lineage (registry : Dict Id Entry) : ℕ → Option Id → List Id
  | 0, _ => []
  | _ + 1, none => []
  | n + 1, some id =>
    match registry.find? id with
    | none => [id]
    | some e => id :: lineage registry n e.parentId

/-- `beam_prune`, with `garbage_collect`. `stuck`: their directories cannot be removed. -/
def beamPrune (s : State) (active : List Id) (stuck : List Id) : State :=
  let keep := active.flatMap fun id => lineage s.registry (s.registry.entries.length + 1) (some id)
  { s with
    registry := s.registry.keep fun id => id ∈ keep
    disk := fun d =>
      match d with
      | .mem id =>
        if (s.registry.find? id).isSome ∧ id ∉ keep then
          (if id ∈ stuck then some [] else none)
        else s.disk d
      | .predump _ => s.disk d }

/-! ### Runs -/

/-- What happens. -/
inductive Action where
  /-- Processes start and exit. -/
  | churn (tree : Tree)
  | checkpoint (c : Call)
  | anchor (current : Id) (interval : ℕ) (new : Id) (passes : Bool)
  | restore (target : Id) (passes : Bool)
  | prune (active stuck : List Id)
  deriving DecidableEq, Repr

/-- One step. An id that is drawn is new. -/
def step (s : State) : Action → Option State
  | .churn tree => some { s with tree := tree }
  | .checkpoint c =>
    if c.new ∈ s.used then none else some (checkpoint cfg { s with used := c.new :: s.used } c)
  | .anchor current interval new passes =>
    if new ∈ s.used then none
    else some (anchor { s with used := new :: s.used } current interval new passes)
  | .restore target passes => some (restore s target passes)
  | .prune active stuck => some (beamPrune s active stuck)

end Adaptive

end DeltaBox
