import DeltaBox.Lib.Program
import DeltaBox.Overlay.Sandbox

/-!
# The legacy checkpoint

`_checkpoint_legacy` submits the CRIU dump to a pool with one worker and goes on: it sinks the upper
directory, waits for the dump or not, stashes a warm template or not, and registers the entry. Three
copies of the agent come out of one call, and they are made at different moments: the memory image,
the warm template, and the layers.

## What is modelled

* The call, cut where the dump worker can come in between: the forks at its head, the submission,
  `add_done_callback`, the waits, the layer sink, the full fallback, the template, the registration.
  Every mode flag that decides which of these happen is there. A call may raise at each cut.
* The worker: it takes the next job, CRIU reads the memory of the dump tree, the command ends, the
  future is settled and releases its waiters, and only then the done callback runs.
* The agent, which moves between calls only, and restores, of which only the new process ids matter.

The content of a memory image is what the dump tree's root (for a dump of the whole namespace: the
active process in it) had in memory when CRIU read it. What CRIU itself does to split that content
over incremental images is not modelled. Process ids are not used twice.

The file side is that of `Overlay.Sandbox`.
-/

namespace DeltaBox

namespace Legacy

open Overlay (Strategy CkptInput)

/-- The mode flags of the memory side. -/
structure Modes where
  /-- `enable_warm_template`. -/
  warmTemplate : Bool
  /-- `checkpoint_stash_template`. -/
  stashTemplate : Bool
  /-- `DELTABOX_FRESH_PIDNS_ACTIVE == "1"`. -/
  freshPidns : Bool
  /-- `prefork_template_dump`. -/
  preforkDump : Bool
  /-- `DELTABOX_PREFORK_TEMPLATE_DUMP_ALLOW_FALLBACK == "1"`. -/
  preforkFallback : Bool
  /-- `async_template_full_dump`. -/
  asyncFullDump : Bool
  /-- The constructor argument `enable_incremental_dump`. -/
  incrementalDump : Bool
  /-- `DELTABOX_PROBE_CROSS_PID_INCREMENTAL == "1"`. -/
  probeCrossPid : Bool
  /-- `fixed_active_pid`. -/
  fixedActivePid : Option ℕ
  /-- `restore_fastfork_dump_pid`. -/
  restoreFastforkDumpPid : Bool
  /-- `DELTABOX_VALIDATE_INCREMENTAL_EQUIV == "1"`. -/
  validateIncremental : Bool
  /-- `_is_pidns_init`: what `/proc` says about a process. -/
  isPidnsInit : ℕ → Bool

namespace Modes

variable (m : Modes)

/-- `enable_incremental_dump` after the constructor. -/
def incremental : Bool := m.incrementalDump && !m.asyncFullDump

/-- `cross_pid_probe`. -/
def crossPidProbe : Bool := m.probeCrossPid || m.freshPidns

end Modes

/-- The root of a dump: the whole namespace, or one process. -/
inductive Root where
  | namespace (nsInit : ℕ)
  | process (pid : ℕ)
  deriving DecidableEq

/-- `dump_tree_pid`. -/
def Root.pid : Root → ℕ
  | .namespace pid | .process pid => pid

/-- An exception, as `f"{type(exc).__name__}: {exc}"` shows it. The text is never empty, so an entry
with an error passes for one with an error. -/
structure Failure where
  type : String
  text : String
  deriving DecidableEq

/-- The fields of a registry entry on the memory side. -/
structure Entry where
  /-- `parent_id`. -/
  parentId : Option String
  /-- `strategy`. -/
  strategy : Strategy
  /-- `prev_ckpt_id`. -/
  prevCkptId : Option String
  /-- `dump_tree_pid`. -/
  dumpTreePid : ℕ
  /-- `ns_init_pid`. -/
  nsInitPid : ℕ
  /-- `external_pidns`. -/
  externalPidns : Bool
  /-- `fixed_active_pid`. -/
  fixedActivePid : Option ℕ
  /-- `dump_error`. -/
  dumpError : Option Failure
  /-- `dump_future is not None`. -/
  ownsFuture : Bool
  /-- `template_pid`. -/
  templatePid : Option ℕ
  /-- `async_dump_template_pid`. -/
  asyncDumpTemplatePid : Option ℕ
  /-- `prev_pid_mode == "full-fallback"`. -/
  fullFallback : Bool
  /-- How many entries there were before. The code does not count them. -/
  rank : ℕ

/-- An image directory: what it holds, if a dump into it has ended well. -/
inductive Image (M : Type) where
  | broken
  | complete (content : M)
  deriving DecidableEq

/-- A submitted dump. -/
structure Job where
  id : String
  root : Root
  /-- `--prev-images-dir`. -/
  prev : Option String

/-- A `Future`. -/
inductive Future where
  | pending
  | result
  | exception (f : Failure)
  deriving DecidableEq

/-- The worker of `_dump_pool`. -/
inductive Worker (M : Type) where
  | idle
  /-- `subprocess.check_call` runs. CRIU may have read the memory. -/
  | running (job : Job) (content : Option M)
  /-- The future is settled. Its callbacks come next. -/
  | settled (job : Job) (failure : Option Failure)

/-- The local variables of a call. -/
structure Call where
  /-- `new_id`. -/
  id : String
  /-- `parent_ckpt_id`. -/
  parent : Option String
  /-- `raw_command`. -/
  raw : String
  /-- What the environment decides on the file side. -/
  inp : CkptInput
  strategy : Strategy
  /-- `dump_tree_pid`. -/
  root : Root
  /-- `bootstrap_attempted_before_dump`. -/
  bootstrapAttempted : Bool
  /-- `pre_dump_template_pid is not None`. -/
  preDumpTemplate : Bool
  /-- `async_template_dump_pid`. -/
  asyncDumpPid : Option ℕ
  /-- `fixed_dump_clone_pid`. -/
  fixedClone : Option ℕ
  /-- `template_pid`. -/
  templatePid : Option ℕ
  /-- `prev_ckpt_id`. -/
  prev : Option String
  /-- `dump_future is not None`. -/
  ownsFuture : Bool
  /-- `validation_full_twin is not None`. -/
  twin : Bool
  /-- `new_layers_list`. -/
  layers : List String
  /-- `is_upper_dirty`. -/
  dirty : Bool
  /-- `prev_pid_mode == "full-fallback"`. -/
  fullFallback : Bool

/-- Where the call is. -/
inductive Ctl where
  | idle
  /-- The forks are over. The dump is submitted next. -/
  | forked (c : Call)
  /-- `add_done_callback` comes next. -/
  | submitted (c : Call)
  /-- The validation twin comes next, and the wait after a failed bootstrap. -/
  | watched (c : Call)
  /-- The layer sink comes next. -/
  | waited (c : Call)
  /-- The wait before the warm template comes next. -/
  | sunk (c : Call)
  /-- That wait has raised. -/
  | raised (c : Call)
  /-- The template comes next. -/
  | joined (c : Call)
  /-- The registration comes next. -/
  | finished (c : Call)

/-- The call that is under way. -/
def Ctl.call : Ctl → Option Call
  | .idle => none
  | .forked c | .submitted c | .watched c | .waited c | .sunk c | .raised c | .joined c
  | .finished c => some c

/-- The controller, its dump worker, and the processes. -/
structure State (M P C : Type) where
  /-- The file side. -/
  files : Overlay.Traced P C
  /-- The memory of each process. -/
  mem : ℕ → M
  /-- The process ids given out so far. -/
  used : List ℕ
  /-- `agent_pid`. -/
  agentPid : ℕ
  /-- `ns_init_pid`. -/
  nsInitPid : ℕ
  /-- `template_pool.templates`. -/
  templates : Dict String ℕ
  /-- `registry`. -/
  registry : Dict String Entry
  /-- `dump_error` in the `dump_stats` of each call, which the call, its callback and its entry
  share. -/
  stats : Dict String Failure
  /-- The image directories. -/
  images : Dict String (Image M)
  /-- The jobs that wait for the worker. -/
  queue : List Job
  worker : Worker M
  /-- The futures of the submitted dumps. -/
  futures : Dict String Future
  /-- The futures whose callback is added. -/
  callbacks : List String
  /-- `_last_restore_target_id`. -/
  lastRestoreTargetId : Option String
  ctl : Ctl
  /-- The files when the last call began. The code does not keep this, and neither does it keep what
  follows. -/
  before : Overlay.Traced P C
  /-- The agent's memory and files when each call began. -/
  point : String → Option (M × View P C)
  /-- The checkpoints whose dump tree ran on before CRIU had read it. -/
  overrun : List String
  /-- Every text that was used as an id. -/
  names : List String

/-! ### Forks -/

/-- What the processes answer at the head of a call. -/
structure Answers where
  /-- The child of the bootstrap fork. -/
  bootstrap : Option ℕ
  /-- `criu pre-dump` succeeds. -/
  preDump : Bool
  /-- The child of the fork before a template dump. -/
  prefork : Option ℕ
  /-- `_agent_inner_pid`. -/
  innerPid : Option ℕ
  /-- `_wait_fixed_active_slot_free`. -/
  slotFree : Bool
  /-- The clone with the fixed process id. -/
  clone : Option ℕ
  /-- `_pid_gone_or_zombie(agent_pid)`. -/
  agentGone : Bool
  /-- The warm template of a full dump. -/
  warmStash : Option ℕ
  /-- Its disposable dump process. -/
  dumpStash : Option ℕ

/-- The process ids in it. -/
def Answers.pids (a : Answers) : List ℕ :=
  a.bootstrap.toList ++ a.prefork.toList ++ a.clone.toList ++ a.warmStash.toList ++
    a.dumpStash.toList

namespace State

variable {M P C : Type}

/-- `parent` has forked `child`. -/
def fork (s : State M P C) (parent child : ℕ) : State M P C :=
  { s with mem := Function.update s.mem child (s.mem parent), used := child :: s.used }

/-- `request_fork(agent_pid, id)`: the old process stays as the template of `id`, the child becomes
the active one. -/
def forkReplace (s : State M P C) (id : String) (child : ℕ) : State M P C :=
  { s.fork s.agentPid child with
    templates := s.templates.set id s.agentPid
    agentPid := child }

/-- `request_stash_template(agent_pid, id)`. -/
def stash (s : State M P C) (id : String) (child : ℕ) : State M P C :=
  { s.fork s.agentPid child with templates := s.templates.set id child }

/-- What a dump of the root would read now. -/
def content (s : State M P C) : Root → M
  | .namespace _ => s.mem s.agentPid
  | .process pid => s.mem pid

/-- Does the agent write to what a dump of the root would read? -/
def reaches (s : State M P C) : Root → Bool
  | .namespace _ => true
  | .process pid => pid = s.agentPid

end State

section

variable (m : Modes) {M P C : Type}

open Prog

/-- The head of a call changes the state and may raise. -/
abbrev Head (M P C : Type) := Prog (State M P C) Unit

/-- `_bootstrap_active_before_dump`. The flag is `bootstrap_attempted_before_dump`. -/
def bootstrapActiveBeforeDump (id : String) (child : Option ℕ) : Head M P C (Option ℕ × Bool) := do
  let agent ← read State.agentPid
  let nsInit ← read State.nsInitPid
  if m.fixedActivePid.isSome then pure (none, false)
  else if m.warmTemplate && agent = nsInit && (m.stashTemplate || m.freshPidns) then
    match child with
    | some child =>
      update fun s => s.forkReplace id child
      pure (some agent, true)
    | none => pure (none, true)
  else pure (none, false)

/-- A lightweight checkpoint leaves the active process where it is. -/
def bootstrap (strategy : Strategy) (id : String) (child : Option ℕ) :
    Head M P C (Option ℕ × Bool) :=
  if strategy = .lightweight then pure (none, false) else bootstrapActiveBeforeDump m id child

/-- `_current_dump_tree_pid`. -/
def currentDumpRoot (s : State M P C) : Root :=
  if m.warmTemplate && (m.stashTemplate || m.asyncFullDump || m.freshPidns) then
    .process s.agentPid
  else .namespace s.nsInitPid

/-- The fork before a dump from the template. The flag is `pre_dump_template_pid is not None`. -/
def preforkTemplate (strategy : Strategy) (attempted : Bool) (id : String) (child : Option ℕ)
    (root : Root) (template : Option ℕ) : Head M P C (Root × Option ℕ × Bool) := do
  if m.preforkDump && m.warmTemplate && strategy ≠ .lightweight && !attempted then
    match child with
    | some child =>
      let agent ← read State.agentPid
      update fun s => s.forkReplace id child
      pure (.process agent, some agent, true)
    | none =>
      require m.preforkFallback ()
      pure (root, template, false)
  else pure (root, template, false)

/-- The clone under the fixed process id. -/
def fixedDumpClone (strategy : Strategy) (attempted : Bool) (a : Answers) (root : Root) :
    Head M P C (Root × Option ℕ) := do
  let needed := m.restoreFastforkDumpPid && m.warmTemplate && strategy ≠ .lightweight &&
    a.innerPid.any fun pid => some pid ≠ m.fixedActivePid
  if needed && !m.preforkDump && !m.asyncFullDump && !attempted then
    require a.slotFree ()
    match a.clone with
    | some clone =>
      update fun s => s.fork s.agentPid clone
      pure (.process clone, some clone)
    | none => raise ()
  else pure (root, none)

/-- The two stashes of a full dump: a warm template and a disposable dump process. -/
def asyncTemplateStash (strategy : Strategy) (id : String) (a : Answers) (root : Root)
    (template : Option ℕ) : Head M P C (Root × Option ℕ × Option ℕ) := do
  if m.asyncFullDump && m.warmTemplate && strategy ≠ .lightweight then
    require (!a.agentGone) ()
    match a.warmStash with
    | some warm =>
      update fun s => s.stash id warm
      match a.dumpStash with
      | some dump =>
        update fun s => s.fork s.agentPid dump
        pure (.process dump, some warm, some dump)
      | none =>
        update fun s => { s with templates := s.templates.erase id }
        raise ()
    | none => raise ()
  else pure (root, template, none)

/-- `_checkpoint_legacy` up to the dump command. -/
def head (id : String) (parent : Option String) (raw : String) (inp : CkptInput)
    (strategy : Strategy) (a : Answers) : Head M P C Call := do
  let (template, attempted) ← bootstrap m strategy id a.bootstrap
  let root ← read (currentDumpRoot m)
  require (strategy ≠ .predump || a.preDump) ()
  let (root, template, preDumpTemplate) ←
    preforkTemplate m strategy attempted id a.prefork root template
  let (root, fixedClone) ← fixedDumpClone m strategy attempted a root
  let (root, template, asyncDumpPid) ← asyncTemplateStash m strategy id a root template
  pure
    { id := id
      parent := parent
      raw := raw
      inp := inp
      strategy := strategy
      root := root
      bootstrapAttempted := attempted
      preDumpTemplate := preDumpTemplate
      asyncDumpPid := asyncDumpPid
      fixedClone := fixedClone
      templatePid := template
      prev := none
      ownsFuture := false
      twin := false
      layers := []
      dirty := false
      fullFallback := false }

/-! ### The parent image -/

/-- `fixed_pid_lineage`. -/
def fixedPidLineage (s : State M P C) (e : Entry) : Bool :=
  m.fixedActivePid.isSome && e.fixedActivePid = m.fixedActivePid && e.nsInitPid = s.nsInitPid &&
    e.externalPidns

/-- May the dump of `root` rest on the image of the entry? -/
def usable (s : State M P C) (root : Root) (id : String) (e : Entry) : Bool :=
  e.strategy ≠ .lightweight &&
    (e.dumpTreePid = root.pid || fixedPidLineage m s e || m.crossPidProbe) &&
    e.dumpError.isNone && (s.stats.find? id).isNone

/-- The walk along `parent_id`. -/
def walk (s : State M P C) (root : Root) : ℕ → Option String → Option String
  | 0, _ => none
  | fuel + 1, id =>
    match id.filter (· ≠ "") with
    | none => none
    | some id =>
      match s.registry.find? id with
      | none => none
      | some e => if usable m s root id e then some id else walk s root fuel e.parentId

/-- `prev_ckpt_id`. No parent has more ancestors than there are entries. -/
def parentImage (s : State M P C) (parent : Option String) (root : Root) : Option String :=
  if m.incremental then walk m s root (s.registry.entries.length + 1) parent else none

/-! ### The worker and its callback -/

/-- `dump_stats["dump_error"] = ...`, if there is an error. -/
def recordError (stats : Dict String Failure) (id : String) :
    Option Failure → Dict String Failure
  | none => stats
  | some f => stats.set id f

/-- `_record_dump`, as far as it matters later. -/
def recordDump (s : State M P C) (id : String) (failure : Option Failure) : State M P C :=
  { s with stats := recordError s.stats id failure }

/-- `add_done_callback(_record_dump)`. A future that is done calls back at once. -/
def addDoneCallback (s : State M P C) (id : String) : State M P C :=
  match s.futures.find? id with
  | some .result => s
  | some (.exception f) => recordDump s id (some f)
  | _ => { s with callbacks := id :: s.callbacks }

/-- `dump_future.result(timeout=30.0)`: what it raises, if it does. A future that is still pending
has used up the time. -/
def joinFuture (s : State M P C) (id : String) : Option Failure :=
  match s.futures.find? id with
  | some .result => none
  | some (.exception f) => some f
  | _ => some ⟨"TimeoutError", ""⟩

/-! ### The rest of the call -/

/-- Submit the dump. A lightweight checkpoint has none. -/
def submit (s : State M P C) (c : Call) : State M P C :=
  if c.strategy = .lightweight then { s with ctl := .waited c }
  else
    let prev := parentImage m s c.parent c.root
    { s with
      queue := s.queue ++ [⟨c.id, c.root, prev⟩]
      futures := s.futures.set c.id .pending
      ctl := .submitted { c with prev := prev, ownsFuture := true } }

/-- Is a full twin dumped for validation? -/
def validationNeeded (s : State M P C) (c : Call) : Bool :=
  m.validateIncremental && c.prev.isSome && s.lastRestoreTargetId = c.prev

/-- `_dump_validation_full_twin`. -/
def dumpTwin (s : State M P C) (c : Call) (twin : Bool) : State M P C :=
  if twin then { s with images := s.images.set (c.id ++ "_full") (.complete (s.content c.root)) }
  else s

/-- The wait after a bootstrap that got no answer. -/
def bootstrapWait (s : State M P C) (c : Call) : State M P C :=
  if c.bootstrapAttempted && c.templatePid.isNone then recordDump s c.id (joinFuture s c.id) else s

/-- The two waits before the layer sink. The first is followed by the dump of the twin, which may
fail. Nothing they raise gets out. -/
def waits (s : State M P C) (c : Call) (twinOk : Bool) : State M P C :=
  let twin := validationNeeded m s c && (joinFuture s c.id).isNone && twinOk
  { bootstrapWait (dumpTwin s c twin) c with ctl := .waited { c with twin := twin } }

/-- The layer sink. -/
def sink (cfg : Overlay.Config) (s : State M P C) (c : Call) : State M P C :=
  let files := s.files.sb
  match Overlay.sinkLegacy cfg files (Overlay.parentLayers cfg files c.parent) c.inp with
  | (files', none) => { s with files := { s.files with sb := files' }, ctl := .idle }
  | (files', some layers) =>
    { s with
      files := { s.files with sb := files' }
      ctl := .sunk { c with layers := layers, dirty := Overlay.isUpperDirty files c.inp.scanOk } }

/-- Does the call make its template at the end? -/
def stashesLate (c : Call) : Bool :=
  m.warmTemplate && c.strategy ≠ .lightweight && !c.bootstrapAttempted && !c.preDumpTemplate &&
    c.asyncDumpPid.isNone

/-- The wait before the template. -/
def joinBeforeTemplate (s : State M P C) (c : Call) : State M P C :=
  if stashesLate m c then
    match joinFuture s c.id with
    | none => { s with ctl := .joined c }
    | some _ => { s with ctl := .raised c }
  else { s with ctl := .finished c }

/-- `_dump_full_fallback_image` and what follows it. -/
def fullFallback (s : State M P C) (c : Call) : Option Failure → State M P C
  | none =>
    { s with
      images := s.images.set c.id (.complete (s.content c.root))
      stats := s.stats.erase c.id
      ctl := .joined { c with ownsFuture := false, prev := none, fullFallback := true } }
  | some f =>
    { s with
      images := s.images.set c.id .broken
      stats := s.stats.set c.id f
      ctl := .finished { c with templatePid := none } }

/-- The template: a stash, or a fork that replaces the active process. `child` is the answer. -/
def lateTemplate (s : State M P C) (c : Call) (child : Option ℕ) : State M P C :=
  match child with
  | none => { s with ctl := .finished { c with fixedClone := none, templatePid := none } }
  | some pid =>
    if m.stashTemplate then
      { s.stash c.id pid with ctl := .finished { c with fixedClone := none, templatePid := some pid } }
    else
      { s.forkReplace c.id pid with
        ctl := .finished { c with fixedClone := none, templatePid := some s.agentPid } }

/-- The `info` dictionary. -/
def entryOf (s : State M P C) (c : Call) : Entry :=
  { parentId := c.parent
    strategy := c.strategy
    prevCkptId := c.prev
    dumpTreePid := c.root.pid
    nsInitPid := s.nsInitPid
    externalPidns := !m.isPidnsInit c.root.pid
    fixedActivePid := m.fixedActivePid
    dumpError := s.stats.find? c.id
    ownsFuture := c.ownsFuture
    templatePid := c.templatePid
    asyncDumpTemplatePid := c.asyncDumpPid
    fullFallback := c.fullFallback
    rank := s.registry.entries.length }

/-- The entry of the validation twin. -/
def twinEntry (s : State M P C) (c : Call) : Entry :=
  { entryOf m s c with
    parentId := none
    strategy := .validationFullTwin
    prevCkptId := none
    dumpError := none
    ownsFuture := false
    templatePid := none
    asyncDumpTemplatePid := none
    fullFallback := false
    rank := s.registry.entries.length + 1 }

/-- `self.registry[new_id] = info`, on the memory side. -/
def registerEntries (s : State M P C) (c : Call) : Dict String Entry :=
  let registry := s.registry.set c.id (entryOf m s c)
  if c.twin then registry.set (c.id ++ "_full") (twinEntry m s c) else registry

end

/-! ### Steps -/

/-- A file operation of the agent. -/
inductive FileOp (P C : Type) where
  | write (ds : List P) (p : P) (c : C)
  | remove (ds : List P) (p : P)

/-- What happens next. -/
inductive Label (M P C : Type) where
  /-- The agent leaves its memory as given, and may change a file. -/
  | agent (mem : M) (op : Option (FileOp P C))
  /-- `checkpoint_action(parent, tag, raw)` is called and gets as far as the dump command. -/
  | call (parent : Option String) (raw : String) (inp : CkptInput) (answers : Answers)
  | submit
  | addCallback
  | wait (twinOk : Bool)
  | sink
  | join
  | fallback (failure : Option Failure)
  | template (child : Option ℕ)
  | register
  /-- The call raises. -/
  | raise
  /-- The worker takes the next job. -/
  | start
  /-- CRIU reads the dump tree. -/
  | read
  /-- The command ends, and the future is settled. -/
  | finish (failure : Option Failure)
  /-- The callback runs. -/
  | callback
  /-- `restore_action`. Without a process id it has failed on the way. -/
  | restore (target rid : String) (agent : Option ℕ) (newNamespace : Bool) (mem : M)

/-- The jobs CRIU has not read yet. -/
def State.unread {M P C : Type} (s : State M P C) : List Job :=
  s.queue ++
    match s.worker with
    | .running job none => [job]
    | _ => []

/-- A new id. -/
def NewId {M P C : Type} (s : State M P C) (parent : Option String) (id : String) : Prop :=
  id ∉ s.names ∧ id ++ "_full" ∉ s.names ∧ parent ≠ some id ∧ parent ≠ some (id ++ "_full")

instance {M P C : Type} (s : State M P C) (parent : Option String) (id : String) :
    Decidable (NewId s parent id) :=
  inferInstanceAs (Decidable (_ ∧ _))

theorem id_ne_full (id : String) : id ≠ id ++ "_full" := by
  intro h
  have hlen := congrArg (fun s : String => s.toList.length) h
  simp at hlen

/-- The processes that answer are new ones. -/
def NewPids {M P C : Type} (s : State M P C) (pids : List ℕ) : Prop :=
  pids.Nodup ∧ ∀ pid ∈ pids, pid ∉ s.used

instance {M P C : Type} (s : State M P C) (pids : List ℕ) : Decidable (NewPids s pids) :=
  inferInstanceAs (Decidable (_ ∧ _))

section

variable (m : Modes) (cfg : Overlay.Config) {M P C : Type} [DecidableEq P]

/-- The agent's file operation. -/
def FileOp.run (t : Overlay.Traced P C) : Option (FileOp P C) → Overlay.Traced P C
  | none => t
  | some (.write ds p c) => { t with sb := Overlay.agentWrite t.sb ds p c }
  | some (.remove ds p) => { t with sb := Overlay.agentRemove t.sb ds p }

/-- Is the dump of the parent still running? Then a call in prefork mode waits for it first. -/
def parentPending (s : State M P C) (parent : Option String) : Bool :=
  m.preforkDump && (parent.bind s.registry.find?).any Entry.ownsFuture &&
    parent.bind s.futures.find? = some .pending

/-- The moment of a call is remembered under its id. -/
def State.mark (s : State M P C) (parent : Option String) (id : String) : State M P C :=
  let now := some (s.mem s.agentPid, s.files.sb.visible)
  { s with
    before := s.files
    point := Function.update (Function.update s.point (id ++ "_full") now) id now
    names := id :: (id ++ "_full") :: (parent.toList ++ s.names) }

/-- The head of a call. -/
def begin (s : State M P C) (parent : Option String) (raw : String) (inp : CkptInput)
    (answers : Answers) : State M P C :=
  let strategy := Overlay.chooseStrategy cfg raw inp.hot
  match head m inp.id parent raw inp strategy answers (s.mark parent inp.id) with
  | (.ok c, s) => { s with ctl := .forked c }
  | (.error _, s) => s

/-- `self.registry[new_id] = info`, on the file side. -/
def registerFiles (s : State M P C) (c : Call) : Overlay.Traced P C :=
  let sb := s.files.sb
  let seen := some s.before.sb.visible
  { sb := Overlay.register sb { c.inp with twin := c.twin }
      (Overlay.legacyEntry sb c.parent c.strategy c.layers c.dirty)
    pos := some c.inp.id
    seen := Function.update (Function.update s.files.seen (c.inp.id ++ "_full") seen) c.inp.id seen }

/-- The end of a call. -/
def register (s : State M P C) (c : Call) : State M P C :=
  { s with files := registerFiles s c, registry := registerEntries m s c, ctl := .idle }

/-- A step of the call. -/
def callStep (s : State M P C) : Label M P C → Option (State M P C)
  | .submit =>
    match s.ctl with
    | .forked c => some (submit m s c)
    | _ => none
  | .addCallback =>
    match s.ctl with
    | .submitted c => some { addDoneCallback s c.id with ctl := .watched c }
    | _ => none
  | .wait twinOk =>
    match s.ctl with
    | .watched c => some (waits m s c twinOk)
    | _ => none
  | .sink =>
    match s.ctl with
    | .waited c => some (sink cfg s c)
    | _ => none
  | .join =>
    match s.ctl with
    | .sunk c => some (joinBeforeTemplate m s c)
    | _ => none
  | .fallback failure =>
    match s.ctl with
    | .raised c => some (fullFallback s c failure)
    | _ => none
  | .template child =>
    match s.ctl with
    | .joined c => if NewPids s child.toList then some (lateTemplate m s c child) else none
    | _ => none
  | .register =>
    match s.ctl with
    | .finished c => some (register m s c)
    | _ => none
  | .raise =>
    match s.ctl with
    | .idle => none
    | _ => some { s with ctl := .idle }
  | _ => none

/-- A step of the worker. -/
def workerStep (s : State M P C) : Label M P C → Option (State M P C)
  | .start =>
    match s.worker, s.queue with
    | .idle, job :: queue => some { s with worker := .running job none, queue := queue }
    | _, _ => none
  | .read =>
    match s.worker with
    | .running job none => some { s with worker := .running job (some (s.content job.root)) }
    | _ => none
  | .finish none =>
    match s.worker with
    | .running job (some content) =>
      some { s with
        images := s.images.set job.id (.complete content)
        futures := s.futures.set job.id .result
        worker := .settled job none }
    | _ => none
  | .finish (some f) =>
    match s.worker with
    | .running job _ =>
      some { s with
        images := s.images.set job.id .broken
        futures := s.futures.set job.id (.exception f)
        worker := .settled job (some f) }
    | _ => none
  | .callback =>
    match s.worker with
    | .settled job failure =>
      some { recordDump s job.id (if job.id ∈ s.callbacks then failure else none) with
        worker := .idle }
    | _ => none
  | _ => none

/-- The controller after a restore. -/
def restored (s : State M P C) (files : Overlay.Traced P C) (target : String) (agent : Option ℕ)
    (newNamespace : Bool) (mem : M) : State M P C :=
  { s with
    files := files
    lastRestoreTargetId := some target
    agentPid := agent.getD s.agentPid
    nsInitPid := if newNamespace then agent.getD s.nsInitPid else s.nsInitPid
    mem := agent.elim s.mem fun pid => Function.update s.mem pid mem
    used := agent.toList ++ s.used
    templates := if newNamespace then Dict.empty else s.templates }

/-- One step. Between calls the agent may move, and calls and restores may begin. -/
def step (s : State M P C) : Label M P C → Option (State M P C)
  | .agent mem op =>
    match s.ctl with
    | .idle =>
      some { s with
        mem := Function.update s.mem s.agentPid mem
        files := FileOp.run s.files op
        overrun := s.overrun ++ (s.unread.filter fun job => s.reaches job.root).map Job.id }
    | _ => none
  | .call parent raw inp answers =>
    match s.ctl with
    | .idle =>
      if Overlay.FreshId cfg s.files.sb inp.id ∧ NewId s parent inp.id ∧
          NewPids s answers.pids ∧ parentPending m s parent = false then
        some (begin m cfg s parent raw inp answers)
      else none
    | _ => none
  | .restore target rid agent newNamespace mem =>
    match s.ctl with
    | .idle =>
      if NewPids s agent.toList then
        (Overlay.step cfg s.files (.restore target rid none)).map fun files =>
          restored s files target agent newNamespace mem
      else none
    | _ => none
  | .start => workerStep s .start
  | .read => workerStep s .read
  | .finish failure => workerStep s (.finish failure)
  | .callback => workerStep s .callback
  | label => callStep m cfg s label

/-! ### Everything a step can do -/

/-- What the worker can do. -/
inductive WorkerMoves (s : State M P C) : Label M P C → State M P C → Prop where
  | start {job : Job} {queue : List Job} (hw : s.worker = .idle) (hq : s.queue = job :: queue) :
      WorkerMoves s .start { s with worker := .running job none, queue := queue }
  | read {job : Job} (hw : s.worker = .running job none) :
      WorkerMoves s .read { s with worker := .running job (some (s.content job.root)) }
  | succeed {job : Job} {content : M} (hw : s.worker = .running job (some content)) :
      WorkerMoves s (.finish none)
        { s with
          images := s.images.set job.id (.complete content)
          futures := s.futures.set job.id .result
          worker := .settled job none }
  | fail {job : Job} {content : Option M} (f : Failure) (hw : s.worker = .running job content) :
      WorkerMoves s (.finish (some f))
        { s with
          images := s.images.set job.id .broken
          futures := s.futures.set job.id (.exception f)
          worker := .settled job (some f) }
  | callback {job : Job} {failure : Option Failure} (hw : s.worker = .settled job failure) :
      WorkerMoves s .callback
        { recordDump s job.id (if job.id ∈ s.callbacks then failure else none) with
          worker := .idle }

omit [DecidableEq P] in
theorem workerMoves_of_step {s t : State M P C} {label : Label M P C}
    (h : workerStep s label = some t) : WorkerMoves s label t := by
  unfold workerStep at h
  split at h
  · split at h
    · rename_i hw hq
      obtain rfl := Option.some.inj h
      exact .start hw hq
    · cases h
  · split at h
    · rename_i hw
      obtain rfl := Option.some.inj h
      exact .read hw
    · cases h
  · split at h
    · rename_i hw
      obtain rfl := Option.some.inj h
      exact .succeed hw
    · cases h
  · split at h
    · rename_i hw
      obtain rfl := Option.some.inj h
      exact .fail _ hw
    · cases h
  · split at h
    · rename_i hw
      obtain rfl := Option.some.inj h
      exact .callback hw
    · cases h
  · cases h

/-- What the call can do. -/
inductive CallMoves (s : State M P C) : Label M P C → State M P C → Prop where
  | submit {c : Call} (hc : s.ctl = .forked c) : CallMoves s .submit (submit m s c)
  | addCallback {c : Call} (hc : s.ctl = .submitted c) :
      CallMoves s .addCallback { addDoneCallback s c.id with ctl := .watched c }
  | wait {c : Call} (twinOk : Bool) (hc : s.ctl = .watched c) :
      CallMoves s (.wait twinOk) (waits m s c twinOk)
  | sink {c : Call} (hc : s.ctl = .waited c) : CallMoves s .sink (sink cfg s c)
  | join {c : Call} (hc : s.ctl = .sunk c) : CallMoves s .join (joinBeforeTemplate m s c)
  | fallback {c : Call} (failure : Option Failure) (hc : s.ctl = .raised c) :
      CallMoves s (.fallback failure) (fullFallback s c failure)
  | template {c : Call} {child : Option ℕ} (hc : s.ctl = .joined c)
      (hnew : NewPids s child.toList) : CallMoves s (.template child) (lateTemplate m s c child)
  | register {c : Call} (hc : s.ctl = .finished c) : CallMoves s .register (register m s c)
  | raise (hc : s.ctl ≠ .idle) : CallMoves s .raise { s with ctl := .idle }

theorem callMoves_of_step {s t : State M P C} {label : Label M P C}
    (h : callStep m cfg s label = some t) : CallMoves m cfg s label t := by
  unfold callStep at h
  split at h
  · split at h
    · rename_i hc
      obtain rfl := Option.some.inj h
      exact .submit hc
    · cases h
  · split at h
    · rename_i hc
      obtain rfl := Option.some.inj h
      exact .addCallback hc
    · cases h
  · split at h
    · rename_i hc
      obtain rfl := Option.some.inj h
      exact .wait _ hc
    · cases h
  · split at h
    · rename_i hc
      obtain rfl := Option.some.inj h
      exact .sink hc
    · cases h
  · split at h
    · rename_i hc
      obtain rfl := Option.some.inj h
      exact .join hc
    · cases h
  · split at h
    · rename_i hc
      obtain rfl := Option.some.inj h
      exact .fallback _ hc
    · cases h
  · split at h
    · rename_i hc
      split_ifs at h with hnew
      obtain rfl := Option.some.inj h
      exact .template hc hnew
    · cases h
  · split at h
    · rename_i hc
      obtain rfl := Option.some.inj h
      exact .register hc
    · cases h
  · split at h
    · cases h
    · rename_i hc
      obtain rfl := Option.some.inj h
      exact .raise hc
  · cases h

/-- What can happen. -/
inductive Moves (s : State M P C) : Label M P C → State M P C → Prop where
  | agent (mem : M) (op : Option (FileOp P C)) (hidle : s.ctl = .idle) :
      Moves s (.agent mem op)
        { s with
          mem := Function.update s.mem s.agentPid mem
          files := FileOp.run s.files op
          overrun := s.overrun ++ (s.unread.filter fun job => s.reaches job.root).map Job.id }
  | call {parent : Option String} {raw : String} {inp : CkptInput} {answers : Answers}
      (hidle : s.ctl = .idle) (hfresh : Overlay.FreshId cfg s.files.sb inp.id)
      (hnew : NewId s parent inp.id) (hpids : NewPids s answers.pids)
      (hpending : parentPending m s parent = false) :
      Moves s (.call parent raw inp answers) (begin m cfg s parent raw inp answers)
  | restore {target rid : String} {agent : Option ℕ} {newNamespace : Bool} {mem : M}
      {files : Overlay.Traced P C} (hidle : s.ctl = .idle) (hpids : NewPids s agent.toList)
      (hfiles : Overlay.step cfg s.files (.restore target rid none) = some files) :
      Moves s (.restore target rid agent newNamespace mem)
        (restored s files target agent newNamespace mem)
  | worker {label : Label M P C} {t : State M P C} (h : WorkerMoves s label t) : Moves s label t
  | ofCall {label : Label M P C} {t : State M P C} (h : CallMoves m cfg s label t) :
      Moves s label t

/-- **Every step is one of these moves.** -/
theorem moves_of_step {s t : State M P C} {label : Label M P C}
    (h : step m cfg s label = some t) : Moves m cfg s label t := by
  unfold step at h
  split at h
  · split at h
    · rename_i hidle
      obtain rfl := Option.some.inj h
      exact .agent _ _ hidle
    · cases h
  · split at h
    · rename_i hidle
      split_ifs at h with hguard
      obtain rfl := Option.some.inj h
      exact .call hidle hguard.1 hguard.2.1 hguard.2.2.1 hguard.2.2.2
    · cases h
  · split at h
    · rename_i hidle
      split_ifs at h with hguard
      obtain ⟨files, hfiles, rfl⟩ := Option.map_eq_some_iff.mp h
      exact .restore hidle hguard hfiles
    · cases h
  · exact .worker (workerMoves_of_step h)
  · exact .worker (workerMoves_of_step h)
  · exact .worker (workerMoves_of_step h)
  · exact .worker (workerMoves_of_step h)
  · exact .ofCall (callMoves_of_step m cfg h)

/-- The controller as its constructor leaves it. -/
structure Initial (s : State M P C) : Prop where
  files : Overlay.Initial cfg s.files
  /-- The active process exists. -/
  agent : s.agentPid ∈ s.used
  templates : s.templates = Dict.empty
  registry : s.registry = Dict.empty
  stats : s.stats = Dict.empty
  images : s.images = Dict.empty
  queue : s.queue = []
  worker : s.worker = .idle
  futures : s.futures = Dict.empty
  callbacks : s.callbacks = []
  ctl : s.ctl = .idle
  point : ∀ id, s.point id = none
  overrun : s.overrun = []

end

end Legacy

end DeltaBox
