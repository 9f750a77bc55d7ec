import DeltaBox.Restore.World

/-!
# `restore_action`

The whole method, in the order of the source: the questions about the target (`preflight`), the
rollback of the root overlays, the kill of the active subtree, the warm path through a template's
fork, and the cold path through CRIU, which a failed fork falls back to. Exceptions end it with the
state as it is.

A captured entry is an object that the dump workers go on writing to, so every read of it looks the
entry up again (`current`). The clock ticks at every step, and at a tick the other threads move. A
wait with a timeout is one tick as well, since a `Background` can stand for any number of their
steps; what the wait finds afterwards decides how it ends.

Timing, printing, tracing, and the arguments of the CRIU command are left out. So is the command
protocol behind a fork and a reap, of which only the answer matters here.
-/

namespace DeltaBox

namespace Restore

/-- The code of the controller. -/
abbrev Action := Prog World Err

open Prog

section Primitives

variable (env : Env)

/-- The other threads have a turn. -/
def tick : Action Unit :=
  update fun w => { w with box := (env.background w.clock).step w.box, clock := w.clock + 1 }

/-- A read of the sandbox. -/
def look {α : Type} (f : Sandbox → α) : Action α := do
  tick env
  read fun w => f w.box

/-- A change of the sandbox. -/
def act (c : Change) : Action Unit := do
  tick env
  update fun w => { w with box := c.apply w.box, log := w.log ++ [.change c] }

/-- A system call that leaves the sandbox alone. -/
def attempt : Action Bool := do
  tick env
  read fun w => env.ok w.clock

/-- An answer with a process id in it. -/
def answer : Action (Option ℕ) := do
  tick env
  read fun w => env.pid w.clock

/-- Add to the log. -/
def note (e : Event) : Action Unit := update fun w => { w with log := w.log ++ [e] }

/-- Change the controller's notes. -/
def record (f : Book → Book) : Action Unit := update fun w => { w with book := f w.book }

/-- The present content of an entry that the call holds on to. -/
def current (id : String) (captured : Entry) : Action Entry :=
  look env fun b => (b.registry.find? id).getD captured

end Primitives

/-! ### Questions about processes -/

/-- `_is_pidns_init`. -/
def isPidnsInit (b : Sandbox) (pid : ℕ) : Bool :=
  match b.procs.find? pid with
  | some p => p.nspids.getLast? = some 1
  | none => pid = b.nsInitPid

/-- `_is_external_pidns_dump`. -/
def isExternalPidnsDump (b : Sandbox) (e : Entry) : Bool :=
  match e.externalPidns with
  | some external => external
  | none =>
    match e.dumpTreePid, e.nsInitPid with
    | some pid, some _ => !isPidnsInit b pid
    | _, _ => false

/-- `_child_pids`. -/
def childPids (b : Sandbox) (pid : ℕ) : List ℕ :=
  (b.procs.entries.filter fun p => p.2.ppid = pid).map Prod.fst

/-- The loop of `_collect_subtree_pids`. -/
def collectSubtree (b : Sandbox) (exclude : List ℕ) : ℕ → List ℕ → List ℕ → List ℕ
  | 0, _, found => found
  | _, [], found => found
  | fuel + 1, pid :: toVisit, found =>
    if pid ∈ found ∨ pid ∈ exclude then collectSubtree b exclude fuel toVisit found
    else collectSubtree b exclude fuel ((childPids b pid).reverse ++ toVisit) (found ++ [pid])

/-- `_collect_subtree_pids`. A process is pushed once for its parent, and the root once more. -/
def collectSubtreePids (b : Sandbox) (root : ℕ) (exclude : List ℕ) : List ℕ :=
  collectSubtree b exclude (b.procs.entries.length + 2) [root] []

/-- `_pid_gone_or_zombie`. -/
def pidGoneOrZombie (b : Sandbox) (pid : ℕ) : Bool :=
  match b.procs.find? pid with
  | none => true
  | some p => p.state = .zombie

/-- `_pid_as_seen_by`. -/
def pidAsSeenBy (b : Sandbox) (pid owner : ℕ) : ℕ :=
  let target := ((b.procs.find? pid).map Proc.nspids).getD []
  let depth := (((b.procs.find? owner).map Proc.nspids).getD []).length
  if 0 < depth then (target[depth - 1]?).getD pid else pid

/-- `_translate_pid_in_ns(…) is not None`. -/
def slotTaken (b : Sandbox) (nspid : ℕ) : Bool :=
  match b.procs.find? b.nsInitPid with
  | none => false
  | some init =>
    b.procs.entries.any fun p => p.2.pidns = init.pidns ∧ p.2.nspids.getLast? = some nspid

/-- `protected_pids`: the templates and the dump processes that are still being written out. -/
def protectedPids (b : Sandbox) (templates : List ℕ) : List ℕ :=
  templates ++ b.registry.values.filterMap fun e =>
    match e.asyncDumpTemplatePid, e.dumpFuture with
    | some pid, some f => if pid ≠ 0 ∧ !f.done then some pid else none
    | _, _ => none

/-- The values of the template table. -/
def Book.templatePids (k : Book) : List ℕ := (k.templates.map Dict.values).getD []

section

variable (env : Env) (cfg : Config)

/-! ### The questions -/

/-- `template_pool.get`. A dead template is dropped from the table. -/
def templateGet (id : Option String) : Action (Option ℕ) := do
  let templates ← read fun w => w.book.templates
  match id, templates with
  | some id, some pool =>
    match pool.find? id with
    | none => pure none
    | some pid =>
      let alive ← look env fun b => (b.procs.find? pid).isSome
      onlyIf (!alive) (record fun k => { k with templates := some (pool.erase id) })
      pure (if alive then some pid else none)
  | _, _ => pure none

/-- `_join_durable_dump`. -/
def joinDurableDump (id : String) (captured : Entry) : Action Unit := do
  note (.check .dump)
  let before ← current env id captured
  match before.dumpFuture with
  | none => pure ()
  | some _ =>
    let e ← current env id captured
    match e.dumpFuture with
    | some .pending => raise (.dumpTimeout id e.parentId)
    | some (.exception text) => raise (.dumpFailed id e.parentId text)
    | some .interrupt => raise (.dumpInterrupt id)
    | _ => pure ()

/-- The check of `dump_error` that follows it. -/
def checkDumpError (id : String) (captured : Entry) : Action Unit := do
  note (.check .recorded)
  let e ← current env id captured
  match e.recordedError with
  | some text => raise (.dumpRecorded id e.parentId text)
  | none => pure ()

/-- `_check_external_restore_pool_clear_allowed`. -/
def checkExternalRestorePoolClearAllowed : Action Unit := do
  note (.check .poolClear)
  require (cfg.forceCriuRestore || cfg.allowColdRestorePoolClear) .poolClearDenied

/-- One round of the loop in `drain_before_namespace_teardown`. -/
def drainEntry (p : String × Entry) : Action Unit := do
  -- `future.done()`, or else what `wait((future,), timeout)` comes back with.
  let before ← current env p.1 p.2
  let after ← current env p.1 p.2
  require (before.dumpFuture.any Future.done || after.dumpFuture.any Future.done)
    (.drainTimeout p.1)
  let e ← current env p.1 p.2
  let reason := orText e.cleanupError (some "writer exit was not confirmed")
  require e.disposeDone (.drainIncomplete p.1 (reason.getD ""))

/-- `drain_before_namespace_teardown`. -/
def drainBeforeNamespaceTeardown : Action Unit := do
  note (.check .drain)
  let entries ← look env fun b =>
    b.registry.entries.filter fun p => p.2.exactParent && p.2.dumpFuture.isSome
  forEach (drainEntry env) entries

/-- `_join_active_dump_before_kill`. -/
def joinActiveDumpBeforeKill : Action Unit := do
  let owner ← read fun w => w.book.activeDumpOwnerId
  match owner with
  | none | some "" => pure ()
  | some id =>
    match ← look env fun b => b.registry.find? id with
    | none => pure ()
    | some entry =>
      let agent ← look env Sandbox.agentPid
      let detached := entry.asyncDumpTemplatePid.any fun pid => pid ≠ 0 ∧ pid ≠ agent
      let before ← current env id entry
      -- The wait prints every `Exception`.
      let after ← current env id entry
      require (detached || before.dumpFuture.all Future.done || after.dumpFuture ≠ some .interrupt)
        (.activeInterrupt id)

/-- What `preflight` has found out. -/
structure Target where
  /-- `effective_id`. -/
  id : String
  /-- `physical_target`. -/
  entry : Entry
  /-- `replay_cmds`. -/
  replayCmds : List String
  /-- `template_pid`. -/
  templatePid : Option ℕ
  /-- `external_pidns_restore`. -/
  external : Option Bool

/-- The questions only a cold restore asks. -/
def coldChecks (id : String) (entry : Entry) : Action Bool := do
  joinDurableDump env id entry
  checkDumpError env id entry
  let e ← current env id entry
  let external ← look env fun b => isExternalPidnsDump b e
  onlyIf external (checkExternalRestorePoolClearAllowed cfg)
  onlyIf (!external && cfg.asyncIncremental) (drainBeforeNamespaceTeardown env)
  pure external

/-- `restore_action` up to the first step that changes the sandbox. -/
def preflight (targetId : String) (allowColdFallback : Bool) : Action Target := do
  note (.check .known)
  match ← look env fun b => b.registry.find? targetId with
  | none => raise (.unknownId targetId)
  | some target =>
    record fun k => { k with lastRestoreTargetId := some targetId }
    let effectiveId := target.effectiveRestoreId.getD (some targetId)
    let found ← templateGet env effectiveId
    let templatePid := if cfg.forceCriuRestore then none else found
    note (.template templatePid)
    note (.check .template)
    require (templatePid.isSome || allowColdFallback) (.templateRequired effectiveId)
    note (.check .effective)
    let physical ← look env fun b => effectiveId.bind b.registry.find?
    match effectiveId, physical with
    | some id, some entry =>
      match templatePid with
      | some pid => pure ⟨id, entry, target.replayCmds, some pid, none⟩
      | none =>
        let external ← coldChecks env cfg id entry
        pure ⟨id, entry, target.replayCmds, none, some external⟩
    | _, _ => raise (.effectiveUnknown effectiveId)

/-! ### The changes -/

/-- `RootOverlay.restore`. -/
def rootOverlayRestore (id : String) (i : ℕ) : Action Unit := do
  match ← look env fun b => (b.rootOverlays.getD [])[i]? with
  | none => pure ()
  | some o =>
    match o.snapshots.find? id with
    | none => raise (.rootOverlay i)
    | some chain =>
      act env (.rootFresh i)
      let switched ← attempt env
      require switched (.rootOverlay i)
      act env (.rootSwitch i chain)

/-- `RootOverlaySet.has_checkpoint` and `RootOverlaySet.restore`. -/
def rootOverlaysRestore (id : String) : Action Unit := do
  let overlays ← look env fun b => b.rootOverlays.getD []
  let hasCheckpoint := !overlays.isEmpty && overlays.all fun o => (o.snapshots.find? id).isSome
  onlyIf hasCheckpoint (forEach (rootOverlayRestore env id) (List.range overlays.length))

/-- `_queue_template_cleanup`. -/
def queueTemplateCleanup (templatePid deadChild deadHost : ℕ) (k : Book) : Book :=
  if templatePid ≠ 0 ∧ deadChild ≠ 0 then
    let old := (k.pendingCleanupReaps.find? templatePid).getD []
    let new := old.insert (deadChild, deadHost)
    { k with pendingCleanupReaps := k.pendingCleanupReaps.set templatePid new }
  else k

/-- `_kill_active_subtree` from the first signal on. -/
def killAndReap (templates toKill : List ℕ) (agent : ℕ) (reaper : Option ℕ) (reaperChild : ℕ) :
    Action Unit := do
  forEach (fun pid => act env (.kill pid)) toKill.reverse
  let prepared ← attempt env
  tick env
  let reapable := reaper.any (fun r => r ∈ templates) && agent ∈ toKill
  let taken ← look env fun b => cfg.fixedActivePid.any (slotTaken b)
  let needFixedSlot := cfg.fixedActivePid.any (· ≠ 0) && !cfg.restoreFastforkDumpPid
  -- The parent of the dead process is asked to reap it; it may answer without having done so.
  let answered ← attempt env
  let gone ← attempt env
  let reapedInline := needFixedSlot && reapable && taken && answered
  onlyIf (reapedInline && gone) (act env (.reap agent))
  tick env
  onlyIf (!reapedInline && reapable) (record (queueTemplateCleanup (reaper.getD 0) reaperChild agent))
  require prepared .prepare

/-- `_kill_active_subtree(during_exit=prepare_restore)`. -/
def killActiveSubtree : Action Unit := do
  joinActiveDumpBeforeKill env
  let templates ← read fun w => w.book.templatePids
  let agent ← look env Sandbox.agentPid
  let toKill ← look env fun b => collectSubtreePids b agent (protectedPids b templates)
  record fun k => { k with lastKilledActivePids := toKill }
  let reaper ← look env fun b => (b.procs.find? agent).map Proc.ppid
  let reaperChild ← look env fun b => (reaper.map (pidAsSeenBy b agent)).getD agent
  note .killing
  killAndReap env cfg templates toKill agent reaper reaperChild

/-- `_apply_overlay_switch`, and the two assignments that follow it. -/
def switchOverlay (layers : List String) (upper work : String) : Action Unit := do
  let switched ← attempt env
  require switched .switch
  act env (.switch layers upper work)
  act env (.setCurrent upper work)

/-- `_wait_external_restore_reaped`. -/
def waitExternalRestoreReaped (pids : List ℕ) : Action Unit := do
  tick env
  let left ← look env fun b =>
    pids.filter fun pid => pid ≠ 0 ∧ pid ≠ b.nsInitPid ∧ (b.procs.find? pid).isSome
  require (left = []) (.unreaped left)

/-- `_clear_templates_for_external_restore`. -/
def clearTemplatesForExternalRestore : Action Unit := do
  checkExternalRestorePoolClearAllowed cfg
  let killed ← read fun w => w.book.lastKilledActivePids
  let pool ← read fun w => w.book.templatePids
  let nsInit ← look env Sandbox.nsInitPid
  let agent ← look env Sandbox.agentPid
  let templates := pool.filter fun pid => pid ≠ 0 ∧ pid ≠ nsInit
  let toKill ← look env fun b =>
    ((templates.filter fun pid => !pidGoneOrZombie b pid).flatMap
      fun pid => collectSubtreePids b pid []).filter (· ≠ nsInit) |>.eraseDups
  forEach (fun pid => act env (.kill pid)) toKill.reverse
  record fun k =>
    { k with templates := k.templates.map fun _ => Dict.empty, pendingCleanupReaps := Dict.empty }
  let fixed := cfg.fixedActivePid.any (· ≠ 0)
  let usable ← look env fun b => (b.procs.find? nsInit).isSome
  let hasPool ← read fun w => w.book.templates.isSome
  let answered ← attempt env
  onlyIf (hasPool && !fixed && usable && answered) (forEach (fun pid => act env (.reap pid)) toKill)
  waitExternalRestoreReaped env
    (killed ++ templates ++ (if agent ≠ nsInit then [agent] else []) ++ toKill)

/-- `restore_action` from `restore_proc = …` to the end of its `try`: CRIU, next to the layer
switch when the two run in parallel. -/
def criuRestore (t : Target) (switched : Bool) (upper work : String) : Action (Option ℕ) := do
  let opened ← attempt env
  require (!t.entry.exactParent || opened) .resources
  let ready ← attempt env
  require (!cfg.enableCriuLazyRestore || ready) .lazyDaemon
  let started ← attempt env
  require started .criu
  onlyIf (cfg.enableCriuLazyRestore && cfg.parallelLazyRestore && !switched)
    (switchOverlay env t.entry.layers upper work)
  let finished ← attempt env
  require finished .criu
  let pid ← answer env
  let proc ← read fun w => env.restored w.clock
  onlyIf pid.isSome (act env (.spawn (pid.getD 0) proc))
  pure pid

/-- `restore_action` after CRIU: the restored process becomes the active one. -/
def activate (t : Target) (external : Bool) (pid : Option ℕ) : Action Unit := do
  match pid with
  | none => require (!t.entry.exactParent) .activation
  | some pid =>
    let isInit ← look env fun b => isPidnsInit b pid
    require (!t.entry.exactParent || (1 < pid && isInit)) .notNamespaceInit
    act env (.setAgent pid)
    record fun k => { k with activeDumpOwnerId := some t.id }
    onlyIf (!external) (act env (.setNsInit pid))
    let resumed ← attempt env
    require (!t.entry.exactParent || resumed) .activation
    onlyIf ((cfg.enableCriuLazyRestore || t.entry.exactParent) && resumed) (act env (.resume pid))

/-- Which way a restore went. -/
inductive Path where
  | warmTemplate
  | criu
  | criuLazy
  deriving DecidableEq, Repr

/-- The slow path for an image whose namespace lives on. -/
def takeNamespace (t : Target) : Action Unit := do
  clearTemplatesForExternalRestore env cfg
  let opened ← attempt env
  require opened (.pidnsUnavailable t.id t.entry.parentId)

/-- The slow path for an image with a namespace of its own. -/
def replaceNamespace : Action Unit := do
  onlyIf cfg.asyncIncremental (drainBeforeNamespaceTeardown env)
  let nsInit ← look env Sandbox.nsInitPid
  act env (.killNamespace nsInit)

/-- `restore_action` from the slow path on. -/
def coldRestore (t : Target) (switched : Bool) (upper work : String) :
    Action (Path × List String) := do
  let e ← current env t.id t.entry
  let seen ← look env fun b => isExternalPidnsDump b e
  let external := t.external.getD seen
  onlyIf external (takeNamespace env cfg t)
  onlyIf (!external) (replaceNamespace env cfg)
  let pid ← criuRestore env cfg t switched upper work
  activate env cfg t external pid
  onlyIf (!external) (record fun k => { k with templates := k.templates.map fun _ => Dict.empty })
  act env .bumpEpoch
  pure (if cfg.enableCriuLazyRestore then .criuLazy else .criu, t.replayCmds)

/-- `template_pool.await_fork`. The init of the namespace cannot stop itself. -/
def awaitFork (pid : ℕ) : Action (Option ℕ) := do
  let ok ← attempt env
  let isInit ← look env fun b => (b.procs.find? pid).any fun p => p.nspids.getLast? = some 1
  onlyIf (ok && isInit) (act env (.stop pid))
  let child ← answer env
  pure (if ok then child else none)

/-- The warm path. `none` when the fork failed and the cold path takes over. -/
def warmRestore (t : Target) (pid : ℕ) (allowColdFallback : Bool) (upper work : String) :
    Action (Option (Path × List String)) := do
  let dispatched ← attempt env
  onlyIf dispatched (act env (.resume pid))
  switchOverlay env t.entry.layers upper work
  match ← (if dispatched then awaitFork env pid else pure none) with
  | some child =>
    act env (.setAgent child)
    record fun k => { k with activeDumpOwnerId := some t.id }
    act env .bumpEpoch
    pure (some (.warmTemplate, t.replayCmds))
  | none =>
    require allowColdFallback (.forkFailed t.id)
    joinDurableDump env t.id t.entry
    checkDumpError env t.id t.entry
    pure none

/-- `restore_action` once the active subtree is dead. -/
def rebuild (t : Target) (allowColdFallback : Bool) (restoreId : String) :
    Action (Path × List String) := do
  let upper := Overlay.join cfg.layersRoot ("restore_" ++ restoreId ++ "_upper")
  let work := Overlay.join cfg.layersRoot ("restore_" ++ restoreId ++ "_work")
  match t.templatePid with
  | some pid =>
    match ← warmRestore env t pid allowColdFallback upper work with
    | some r => pure r
    | none => coldRestore env cfg t true upper work
  | none =>
    let parallel := cfg.enableCriuLazyRestore && cfg.parallelLazyRestore
    onlyIf (!parallel) (switchOverlay env t.entry.layers upper work)
    coldRestore env cfg t (!parallel) upper work

/-- `restore_action` from the first change on. -/
def commit (t : Target) (allowColdFallback : Bool) (restoreId : String) :
    Action (Path × List String) := do
  joinActiveDumpBeforeKill env
  rootOverlaysRestore env t.id
  killActiveSubtree env cfg
  rebuild env cfg t allowColdFallback restoreId

/-- `restore_action`. -/
def restoreAction (targetId : String) (allowColdFallback : Bool) (restoreId : String) :
    Action (Path × List String) := do
  let t ← preflight env cfg targetId allowColdFallback
  commit env cfg t allowColdFallback restoreId

end

end Restore

end DeltaBox
