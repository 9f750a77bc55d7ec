import DeltaBox.Lib.Worklist
import DeltaBox.Overlay.Sandbox

/-!
# `gc_obsolete_snapshots`

The collector drops registry entries, and with each of them its image directory, its template and
its prestarted daemon. Then it removes the directories that restores have left behind and nothing
refers to any more.

What it must not drop is decided in one place. Four kinds of entries are pinned: those the caller
asks for, those whose dump is still being written, those whose image a live lazy-pages daemon reads,
and those whose template is the active process or the init of the namespace. An entry is useless
without the entries it rests on, and there are three ways to rest on another: the logical parent
(its files), the physical one (its pages) and the effective one (the image a lightweight entry is
restored from). `retainedIds` closes the pinned ones under all three.

## What is modelled

The registry with the fields the collector reads, the template table and the processes in it, the
reader list, the directories, and `retained_ids`, `_lazy_reader_ids`, `_retire_lazy_prestart`,
`discard` and `gc_obsolete_snapshots` themselves. None of the calls the collector makes raises here.

Around them `step` has the moves that lead from one collection to the next. A checkpoint may
register any entry: only its identifier, its image path and where its layers lie are as the code
makes them.
-/

namespace DeltaBox

namespace Gc

open Overlay (join)

/-! ### Paths -/

/-- The directories the constructor is given. -/
structure Roots where
  /-- `snapshot_store`. -/
  snapshotStore : String
  /-- `layers_root`. -/
  layersRoot : String
  /-- `base_layer`. -/
  baseLayer : String
  /-- `initial_upper`. -/
  initialUpper : String
  /-- `initial_work`. -/
  initialWork : String

/-- Where a layer, an upper or a work directory can lie. -/
inductive Place where
  | base
  | initialUpper
  | initialWork
  /-- A name in `layers_root`. -/
  | layers (name : String)
  deriving DecidableEq

/-- The path of a place. -/
def Roots.path (r : Roots) : Place → String
  | .base => r.baseLayer
  | .initialUpper => r.initialUpper
  | .initialWork => r.initialWork
  | .layers name => join r.layersRoot name

/-- The roots of a controller. Images and layers are kept apart. -/
structure Config extends Roots where
  /-- Nothing in the snapshot store is a layer. -/
  apart : ∀ name place, join snapshotStore name ≠ toRoots.path place

/-- A prefix of a `uuid4`: hexadecimal digits. -/
def IsUuid (id : String) : Prop := ∀ c ∈ id.toList, c ∈ "0123456789abcdef".toList

instance (id : String) : Decidable (IsUuid id) := List.decidableBAll _ id.toList

/-- `os.path.join(self.snapshot_store, f"{tag}_{new_id}_mem")`. -/
def Config.imagePath (cfg : Config) (tag id : String) : String :=
  join cfg.snapshotStore (tag ++ "_" ++ id ++ "_mem")

/-- `os.path.join(self.snapshot_store, f"{tag}_{ckpt_id}_full_twin_mem")`. -/
def Config.twinPath (cfg : Config) (tag id : String) : String :=
  join cfg.snapshotStore (tag ++ "_" ++ id ++ "_full_twin_mem")

/-! ### State -/

/-- The fields of a registry entry that the collector reads. -/
structure Entry where
  /-- `mem_path`. -/
  memPath : String
  /-- `parent_id`. -/
  parentId : Option String
  /-- `prev_ckpt_id`. -/
  prevCkptId : Option String
  /-- `effective_restore_id`. -/
  effectiveRestoreId : Option String
  /-- `layers`. -/
  layers : List String
  /-- `template_pid`. -/
  templatePid : Option ℕ
  /-- `dump_future` is there and not done. -/
  dumpPending : Bool
  deriving DecidableEq

/-- A lazy-pages daemon that serves a restored process. -/
structure Reader where
  /-- `deltabox_mem_path`. -/
  memPath : String
  /-- `poll() is None`. -/
  alive : Bool
  deriving DecidableEq

/-- The prestart tables. -/
structure Prestart where
  /-- `_lazy_prestart_retired`. -/
  retired : List String
  /-- The keys of `_lazy_prestarted`. -/
  prestarted : List String
  deriving DecidableEq

/-- What the collector reads and writes. -/
structure State where
  /-- `registry`. -/
  registry : Dict String Entry
  /-- `template_pool.templates`, or `None`. -/
  templates : Option (Dict String ℕ)
  /-- The processes that are alive. -/
  procs : List ℕ
  /-- `_lazy_page_daemons`. -/
  lazyPageDaemons : List Reader
  /-- The prestart tables, or `None` without the lock. -/
  prestart : Option Prestart
  /-- `agent_pid`. -/
  agentPid : ℕ
  /-- `ns_init_pid`. -/
  nsInitPid : ℕ
  /-- `current_upper`. -/
  currentUpper : String
  /-- `current_work`. -/
  currentWork : String
  /-- The directories that exist. -/
  dirs : List String

/-- The template of a checkpoint. -/
def State.template (s : State) (id : String) : Option ℕ := s.templates.bind fun pool => pool.find? id

/-! ### What is kept -/

/-- The two ways to ask. -/
inductive Request where
  /-- `keep_ids`. -/
  | ids (keepIds : List String)
  /-- `keep_n`. -/
  | last (keepN : ℕ)

/-- The ids a request names. A slice from `-0` is the whole list. -/
def requested (registry : Dict String Entry) : Request → List String
  | .ids keepIds => keepIds.filter (· ∈ registry.keys)
  | .last keepN =>
    let allIds := registry.keys
    if allIds.length ≤ keepN ∨ keepN = 0 then allIds else allIds.drop (allIds.length - keepN)

/-- The ids of the entries that pass a test. -/
def idsWhere (registry : Dict String Entry) (p : Entry → Bool) : List String :=
  (registry.entries.filter fun e => p e.2).map Prod.fst

/-- `_lazy_reader_ids`. -/
def lazyReaderIds (s : State) : List String :=
  let paths := (s.lazyPageDaemons.filter Reader.alive).map Reader.memPath
  idsWhere s.registry fun e => e.memPath ∈ paths

/-- The entries whose template must not be killed. -/
def templatePinned (s : State) : List String :=
  idsWhere s.registry fun e => e.templatePid.any fun pid => pid = s.agentPid ∨ pid = s.nsInitPid

/-- The three keys `retained_ids` follows. -/
def Entry.references (e : Entry) : List String :=
  [e.parentId, e.prevCkptId, e.effectiveRestoreId].filterMap fun r => r

/-- The registered ids an id rests on. -/
def parents (registry : Dict String Entry) (id : String) : List String :=
  match registry.find? id with
  | none => []
  | some e => e.references.filter (· ∈ registry.keys)

/-- `retained_ids`. -/
def retainedIds (registry : Dict String Entry) (requested : List String) : Finset String :=
  let keep := (requested ++ idsWhere registry Entry.dumpPending).dedup
  Worklist.run (parents registry) (keep.length + registry.keys.length) keep keep.toFinset

/-- `keep`, once it is closed. -/
def keepSet (s : State) (req : Request) : Finset String :=
  retainedIds s.registry (requested s.registry req ++ templatePinned s ++ lazyReaderIds s)

/-! ### The collector -/

/-- `_retire_lazy_prestart`. -/
def Prestart.retire (memPath : String) (p : Prestart) : Prestart :=
  if memPath = "" then p
  else ⟨memPath :: p.retired, p.prestarted.filter (· ≠ memPath)⟩

/-- One round of the loop: the entry, its template, its prestarted daemon, its directory. -/
def prune (s : State) (rid : String) : State :=
  match s.registry.find? rid with
  | none => s
  | some entry =>
    { s with
      registry := s.registry.erase rid
      templates := s.templates.map fun pool => pool.erase rid
      procs := s.procs.filter fun pid => s.template rid ≠ some pid
      prestart := s.prestart.map (Prestart.retire entry.memPath)
      dirs := s.dirs.filter fun d => d ≠ entry.memPath }

/-- The loop over the keys. -/
def pruneAll (keep : Finset String) : List String → State → State
  | [], s => s
  | rid :: rids, s => pruneAll keep rids (if rid ∈ keep then s else prune s rid)

/-- Is it a directory of `layers_root` whose name starts with `restore_`? -/
def Config.isRestoreDir (cfg : Config) (d : String) : Bool :=
  let front := (join cfg.layersRoot "restore_").toList
  front.isPrefixOf d.toList && '/' ∉ d.toList.drop front.length

/-- The directories the second loop leaves alone. -/
def keepDirs (s : State) : List String :=
  s.currentUpper :: s.currentWork :: s.registry.values.flatMap Entry.layers

/-- The second loop. -/
def pruneDirs (cfg : Config) (s : State) : State :=
  { s with dirs := s.dirs.filter fun d => !cfg.isRestoreDir d || d ∈ keepDirs s }

/-- `_reap_lazy_page_daemons`. -/
def reapLazyPageDaemons (s : State) : State :=
  { s with lazyPageDaemons := s.lazyPageDaemons.filter Reader.alive }

/-- `gc_obsolete_snapshots`. -/
def gcObsoleteSnapshots (cfg : Config) (s : State) (req : Request) : State :=
  let keep := keepSet s req
  pruneDirs cfg (pruneAll keep s.registry.keys (reapLazyPageDaemons s))

/-! ### From one collection to the next -/

/-- The moves of a controller, as far as the collector can tell. -/
inductive Label where
  /-- A checkpoint registers an entry. The active process and the upper may have changed. -/
  | checkpoint (id tag : String) (parentId prevCkptId effectiveRestoreId : Option String)
      (layers : List Place) (templatePid : Option ℕ) (dumpPending : Bool) (agentPid : ℕ)
      (upper work : Place)
  /-- And its validation twin. -/
  | twin (id tag : String) (layers : List Place)
  /-- A dump is over. -/
  | settle (id : String)
  /-- A restore. -/
  | restore (agentPid nsInitPid : ℕ) (upper work : Place)
  /-- A template has died and is dropped from the table. -/
  | lose (id : String)
  /-- A lazy restore has connected to its daemon. -/
  | attach (memPath : String)
  /-- The daemon in this position has exited. -/
  | detach (i : ℕ)
  /-- A collection. -/
  | collect (req : Request)

/-- Put an entry into the registry, and its template into the table. -/
def register (s : State) (id : String) (e : Entry) : State :=
  { s with
    registry := s.registry.set id e
    templates := s.templates.map fun pool =>
      match e.templatePid with
      | some pid => pool.set id pid
      | none => pool
    procs := e.templatePid.toList ++ s.procs
    dirs := e.memPath :: s.dirs }

/-- A process is the template of one checkpoint only. -/
def freshTemplate (s : State) (templatePid : Option ℕ) : Bool :=
  templatePid.all fun pid => s.templates.all fun pool => pid ∉ pool.values

/-- One move. A new identifier is not in the registry yet. -/
def step (cfg : Config) (s : State) : Label → Option State
  | .checkpoint id tag parentId prevCkptId effectiveRestoreId layers templatePid dumpPending agentPid
      upper work =>
    if IsUuid id ∧ id ∉ s.registry.keys ∧ freshTemplate s templatePid then
      let e : Entry := ⟨cfg.imagePath tag id, parentId, prevCkptId, effectiveRestoreId,
        layers.map cfg.path, templatePid, dumpPending⟩
      let s' := register s id e
      some { s' with
        agentPid := agentPid
        currentUpper := cfg.path upper
        currentWork := cfg.path work
        dirs := cfg.path upper :: cfg.path work :: s'.dirs }
    else none
  | .twin id tag layers =>
    if IsUuid id ∧ id ++ "_full" ∉ s.registry.keys then
      some (register s (id ++ "_full")
        ⟨cfg.twinPath tag id, none, none, none, layers.map cfg.path, none, false⟩)
    else none
  | .settle id =>
    match s.registry.find? id with
    | none => none
    | some e => some { s with registry := s.registry.set id { e with dumpPending := false } }
  | .restore agentPid nsInitPid upper work =>
    some { s with
      agentPid := agentPid
      nsInitPid := nsInitPid
      currentUpper := cfg.path upper
      currentWork := cfg.path work
      dirs := cfg.path upper :: cfg.path work :: s.dirs }
  | .lose id => some { s with templates := s.templates.map fun pool => pool.erase id }
  | .attach memPath => some { s with lazyPageDaemons := s.lazyPageDaemons ++ [⟨memPath, true⟩] }
  | .detach i =>
    some { s with lazyPageDaemons := s.lazyPageDaemons.modify i fun d => { d with alive := false } }
  | .collect req => some (gcObsoleteSnapshots cfg s req)

/-- A controller that has just been made. -/
structure Initial (cfg : Config) (s : State) : Prop where
  /-- No checkpoint. -/
  registry : s.registry = Dict.empty
  /-- No template. -/
  templates : ∀ pool, s.templates = some pool → pool = Dict.empty
  /-- The initial upper. -/
  currentUpper : s.currentUpper = cfg.initialUpper
  /-- And its work directory. -/
  currentWork : s.currentWork = cfg.initialWork

end Gc

end DeltaBox
