import DeltaBox.Lib.Program
import DeltaBox.Overlay.Sandbox

/-!
# The sandbox a restore acts on

`restore_action` reads a checkpoint's entry, asks several questions about it, and then takes the
running sandbox apart and builds the old one in its place. While it does so, other threads go on:
dump workers finish futures and fill in entries, processes fork and exit. This file has the state
all of them share and the two kinds of steps on it.

* A step of *another thread* is a `Background`. It may do anything to the process table, and may
  let the dumps of the registry make progress. Nothing else of the sandbox is in its reach.
* A step of *the call itself* that changes the sandbox is a `Change`. Each one is logged, and so is
  each question the call asks (`Check`), so the order of the two can be talked about.

Between any two steps of the call the other threads may move. Which step they take, and how every
system call of the restore ends, is the environment's choice (`Env`).
-/

namespace DeltaBox

namespace Restore

/-! ### Entries -/

/-- A `Future`. -/
inductive Future where
  | pending
  | result
  /-- An `Exception`. -/
  | exception (text : String)
  /-- An exception that `except Exception` lets through. -/
  | interrupt
  deriving DecidableEq, Repr

/-- `Future.done`. -/
def Future.done : Future → Bool
  | .pending => false
  | _ => true

/-- The fields of a registry entry that a restore reads. -/
structure Entry where
  /-- `parent_id`. -/
  parentId : Option String
  /-- `layers`. -/
  layers : List String
  /-- `effective_restore_id`: absent from the dictionary, or present and possibly `None`. -/
  effectiveRestoreId : Option (Option String)
  /-- `replay_cmds`. -/
  replayCmds : List String
  /-- `external_pidns`, when present. -/
  externalPidns : Option Bool
  /-- `dump_tree_pid`. -/
  dumpTreePid : Option ℕ
  /-- `ns_init_pid`. -/
  nsInitPid : Option ℕ
  /-- `memory_protocol == PROTOCOL`. -/
  exactParent : Bool
  /-- `async_dump_template_pid`. -/
  asyncDumpTemplatePid : Option ℕ
  /-- `dump_future`. -/
  dumpFuture : Option Future
  /-- `dump_error`. -/
  dumpError : Option String
  /-- `dump_stats["dump_error"]`. -/
  statsDumpError : Option String
  /-- `dispose_done is True`. -/
  disposeDone : Bool
  /-- `cleanup_error`. -/
  cleanupError : Option String
  deriving DecidableEq

/-- `x or y` on optional texts. The empty text counts as absent. -/
def orText (x y : Option String) : Option String :=
  match x with
  | none | some "" => y
  | some t => some t

/-- `physical_target.get("dump_error") or …get("dump_stats", {}).get("dump_error")`, when true. -/
def Entry.recordedError (e : Entry) : Option String := orText (orText e.dumpError e.statsDumpError) none

/-- If the entry has a dump under the incremental protocol, it is over and its writer is gone. -/
def Entry.Drained (e : Entry) : Prop :=
  e.exactParent → e.dumpFuture.isSome → e.dumpFuture.any Future.done ∧ e.disposeDone

/-- What a dump worker may do to an entry. -/
structure Entry.Progress (e e' : Entry) : Prop where
  /-- The protocol is fixed. -/
  exactParent : e'.exactParent = e.exactParent
  /-- The future is the same object. -/
  future : e'.dumpFuture.isSome = e.dumpFuture.isSome
  /-- It is settled once. -/
  done : e.dumpFuture.any Future.done → e'.dumpFuture.any Future.done
  /-- Nobody takes back `dispose_done` after that. -/
  disposeDone : e.dumpFuture.any Future.done → e.disposeDone → e'.disposeDone

/-! ### Processes and mounts -/

/-- Scheduler states. -/
inductive RunState where
  | running
  | stopped
  | zombie
  deriving DecidableEq, Repr

/-- What `/proc/<pid>` shows. -/
structure Proc where
  /-- `PPid`. -/
  ppid : ℕ
  /-- The state letter. -/
  state : RunState
  /-- The inode of `ns/pid`. -/
  pidns : ℕ
  /-- `NSpid`, outermost namespace first. -/
  nspids : List ℕ
  deriving DecidableEq

/-- What an overlay has mounted. -/
structure Mounted where
  /-- `lowerdir`. -/
  lowers : List String
  /-- `upperdir`. -/
  upper : String
  /-- `workdir`. -/
  work : String
  deriving DecidableEq

/-- A `RootOverlay`. -/
structure RootOverlay where
  /-- `root`. -/
  root : String
  /-- `_n`, the counter behind the fresh directories. -/
  n : ℕ
  /-- `lower_chain`. -/
  lowerChain : List String
  /-- `upper`. -/
  upper : String
  /-- `work`. -/
  work : String
  /-- `snapshots`. -/
  snapshots : Dict String (List String)
  /-- What the kernel has mounted. -/
  mounted : Mounted

/-- The sandbox: what a rejected restore must not touch. -/
structure Sandbox where
  /-- `agent_pid`. -/
  agentPid : ℕ
  /-- `ns_init_pid`. -/
  nsInitPid : ℕ
  /-- `current_upper`. -/
  currentUpper : String
  /-- `current_work`. -/
  currentWork : String
  /-- The stack of the task overlay. -/
  task : Mounted
  /-- `root_overlays.overlays`, or `None`. -/
  rootOverlays : Option (List RootOverlay)
  /-- `registry`. -/
  registry : Dict String Entry
  /-- `current_epoch`. -/
  currentEpoch : ℕ
  /-- The process table. -/
  procs : Dict ℕ Proc

/-! ### Steps of other threads -/

/-- A step of another thread. -/
structure Background where
  /-- What it does. -/
  step : Sandbox → Sandbox
  /-- Only processes and entries are in its reach. -/
  frame : ∀ b, step b = { b with registry := (step b).registry, procs := (step b).procs }
  /-- No entry comes or goes, and dumps make progress. -/
  registry : ∀ b, List.Forall₂ (fun p q => q.1 = p.1 ∧ p.2.Progress q.2)
    b.registry.entries (step b).registry.entries

/-- The other threads do nothing. -/
def Background.idle : Background where
  step b := b
  frame _ := rfl
  registry b := by
    refine List.forall₂_same.mpr fun p _ => ⟨rfl, rfl, rfl, fun h => h, fun _ h => h⟩

/-! ### Steps of the call -/

/-- The steps of a restore that change the sandbox. -/
inductive Change where
  /-- `RootOverlay._fresh` of the `i`-th overlay. -/
  | rootFresh (i : ℕ)
  /-- The rest of `RootOverlay.restore`, for a checkpoint's chain. -/
  | rootSwitch (i : ℕ) (chain : List String)
  /-- `SIGKILL`. -/
  | kill (pid : ℕ)
  /-- `SIGKILL` to the init of a namespace, and the wait for it. -/
  | killNamespace (pid : ℕ)
  /-- `SIGCONT`. -/
  | resume (pid : ℕ)
  /-- `SIGSTOP`. -/
  | stop (pid : ℕ)
  /-- A zombie is waited for by its parent. -/
  | reap (pid : ℕ)
  /-- The layer-switch ioctl on the task overlay. -/
  | switch (lowers : List String) (upper work : String)
  /-- `self.current_upper, self.current_work = …`. -/
  | setCurrent (upper work : String)
  /-- `self.agent_pid = …`. -/
  | setAgent (pid : ℕ)
  /-- `self.ns_init_pid = …`. -/
  | setNsInit (pid : ℕ)
  /-- CRIU has put a process into the table. -/
  | spawn (pid : ℕ) (proc : Proc)
  /-- `_bump_epoch`. -/
  | bumpEpoch
  deriving DecidableEq

/-- `os.path.join(self.root, f"u{self._n}")`, and the same for `w`. -/
def RootOverlay.fresh (o : RootOverlay) : String × String :=
  (Overlay.join o.root ("u" ++ toString o.n), Overlay.join o.root ("w" ++ toString o.n))

/-- `RootOverlay.restore` after `_fresh`. -/
def RootOverlay.switchTo (o : RootOverlay) (chain : List String) : RootOverlay :=
  { o with
    lowerChain := chain
    upper := o.fresh.1
    work := o.fresh.2
    mounted := ⟨chain, o.fresh.1, o.fresh.2⟩ }

/-- Change every process. -/
def mapProcs (f : ℕ → Proc → Proc) (d : Dict ℕ Proc) : Dict ℕ Proc :=
  ⟨d.entries.map fun p => (p.1, f p.1 p.2), by
    rw [List.map_map]
    exact d.nodup⟩

/-- Change the state of one process. -/
def setState (pid : ℕ) (st : RunState) (d : Dict ℕ Proc) : Dict ℕ Proc :=
  mapProcs (fun p x => if p = pid then { x with state := st } else x) d

/-- The processes that are not in the namespace of `pid`. -/
def outsideNamespace (pid : ℕ) (d : Dict ℕ Proc) : Dict ℕ Proc :=
  match d.find? pid with
  | none => d
  | some init => d.keep fun p => (d.find? p).any fun x => x.pidns ≠ init.pidns

/-- What a change does. -/
def Change.apply : Change → Sandbox → Sandbox
  | .rootFresh i, b =>
    { b with rootOverlays := b.rootOverlays.map (List.modify · i fun o => { o with n := o.n + 1 }) }
  | .rootSwitch i chain, b =>
    { b with rootOverlays := b.rootOverlays.map (List.modify · i fun o => o.switchTo chain) }
  | .kill pid, b => { b with procs := setState pid .zombie b.procs }
  | .killNamespace pid, b => { b with procs := outsideNamespace pid b.procs }
  | .resume pid, b => { b with procs := setState pid .running b.procs }
  | .stop pid, b => { b with procs := setState pid .stopped b.procs }
  | .reap pid, b => { b with procs := b.procs.erase pid }
  | .switch lowers upper work, b => { b with task := ⟨lowers, upper, work⟩ }
  | .setCurrent upper work, b => { b with currentUpper := upper, currentWork := work }
  | .setAgent pid, b => { b with agentPid := pid }
  | .setNsInit pid, b => { b with nsInitPid := pid }
  | .spawn pid proc, b => { b with procs := b.procs.set pid proc }
  | .bumpEpoch, b => { b with currentEpoch := b.currentEpoch + 1 }

/-- A restore never writes the registry. -/
@[simp] theorem Change.apply_registry (c : Change) (b : Sandbox) :
    (c.apply b).registry = b.registry := by
  cases c <;> rfl

/-- The questions a restore asks before it may reject. -/
inductive Check where
  /-- Is the target registered? -/
  | known
  /-- May there be no template? -/
  | template
  /-- Is the effective entry registered? -/
  | effective
  /-- Is its durable dump there? -/
  | dump
  /-- Was an error recorded for it? -/
  | recorded
  /-- May the template pool be cleared? -/
  | poolClear
  /-- Are all disposable writers gone? -/
  | drain
  deriving DecidableEq, Repr

/-- What the log of a call holds. -/
inductive Event where
  | check (c : Check)
  /-- The template the call will use. -/
  | template (pid : Option ℕ)
  /-- The kill of the active subtree starts. -/
  | killing
  | change (c : Change)
  deriving DecidableEq

/-- Is the event a change of the sandbox? -/
def Event.isChange : Event → Bool
  | .change _ => true
  | _ => false

/-- What the controller writes besides the sandbox. -/
structure Book where
  /-- `template_pool.templates`, or `None`. -/
  templates : Option (Dict String ℕ)
  /-- `_last_restore_target_id`. -/
  lastRestoreTargetId : Option String
  /-- `_active_dump_owner_id`. -/
  activeDumpOwnerId : Option String
  /-- `_last_killed_active_pids`. -/
  lastKilledActivePids : List ℕ
  /-- `_pending_cleanup_reaps`. -/
  pendingCleanupReaps : Dict ℕ (List (ℕ × ℕ))

/-- The state of a call. -/
structure World where
  /-- The sandbox. -/
  box : Sandbox
  /-- The controller's notes. -/
  book : Book
  /-- How often the other threads had a turn. -/
  clock : ℕ
  /-- What the call has done. -/
  log : List Event

/-- The exceptions of a restore. -/
inductive Err where
  /-- `ValueError("Unknown ID: …")`. -/
  | unknownId (id : String)
  /-- `"Restore … requires its live template; durable fallback is prohibited"`. -/
  | templateRequired (id : Option String)
  /-- `KeyError` from `self.registry[effective_id]`. -/
  | effectiveUnknown (id : Option String)
  /-- `DumpUnavailableError` over a `FutTimeout`. -/
  | dumpTimeout (id : String) (parent : Option String)
  /-- `DumpUnavailableError` over the dump's exception. -/
  | dumpFailed (id : String) (parent : Option String) (text : String)
  /-- An exception of the dump that is passed on as it is. -/
  | dumpInterrupt (id : String)
  /-- `"durable dump unavailable: …"`. -/
  | dumpRecorded (id : String) (parent : Option String) (text : String)
  /-- `"external-pidns cold restore would clear warm-template pool; …"`. -/
  | poolClearDenied
  /-- `"dump … has not finished disposal"`. -/
  | drainTimeout (id : String)
  /-- `"Cannot tear down namespace: dump … cleanup incomplete: …"`. -/
  | drainIncomplete (id reason : String)
  /-- The dump of the active process was interrupted. -/
  | activeInterrupt (id : String)
  /-- A root overlay could not be switched. -/
  | rootOverlay (i : ℕ)
  /-- The new backing directories could not be made. -/
  | prepare
  /-- The layer-switch ioctl failed. -/
  | switch
  /-- `"Restore … template fork failed; durable fallback is prohibited"`. -/
  | forkFailed (id : String)
  /-- `"external pid namespace is unavailable"`. -/
  | pidnsUnavailable (id : String) (parent : Option String)
  /-- `"external restore blocked by unreaped host PIDs …"`. -/
  | unreaped (pids : List ℕ)
  /-- The inherited resources could not be opened. -/
  | resources
  /-- The lazy-pages daemon did not start. -/
  | lazyDaemon
  /-- CRIU failed. -/
  | criu
  /-- `"exact-parent restore did not publish a live namespace init"`. -/
  | notNamespaceInit
  /-- `"exact-parent restore activation failed: …"`. -/
  | activation
  deriving DecidableEq

/-- The exceptions that say a restore was rejected. -/
def Err.isRejection : Err → Bool
  | .unknownId _ | .templateRequired _ | .effectiveUnknown _ | .dumpTimeout .. | .dumpFailed ..
  | .dumpInterrupt _ | .dumpRecorded .. | .poolClearDenied | .drainTimeout _
  | .drainIncomplete .. => true
  | _ => false

/-- The mode flags and environment variables a restore reads. -/
structure Config where
  /-- `layers_root`. -/
  layersRoot : String
  /-- `_async_incremental is not None`. -/
  asyncIncremental : Bool
  /-- `DELTABOX_FORCE_CRIU_RESTORE == "1"`. -/
  forceCriuRestore : Bool
  /-- `DELTABOX_ALLOW_COLD_RESTORE_POOL_CLEAR == "1"`. -/
  allowColdRestorePoolClear : Bool
  /-- `fixed_active_pid`. -/
  fixedActivePid : Option ℕ
  /-- `restore_fastfork_dump_pid`. -/
  restoreFastforkDumpPid : Bool
  /-- `enable_criu_lazy_restore`. -/
  enableCriuLazyRestore : Bool
  /-- `parallel_lazy_restore`. -/
  parallelLazyRestore : Bool

/-- Everything a call does not decide itself. -/
structure Env where
  /-- The steps of the other threads, one for each turn. -/
  background : ℕ → Background
  /-- Whether the system call made at a turn succeeds. -/
  ok : ℕ → Bool
  /-- The process id a template or CRIU reports at a turn. -/
  pid : ℕ → Option ℕ
  /-- What CRIU puts into the process table. -/
  restored : ℕ → Proc

/-- The first `n` turns of the other threads, alone. -/
def Env.others (env : Env) : ℕ → Sandbox → Sandbox
  | 0, b => b
  | n + 1, b => (env.background n).step (env.others n b)

end Restore

end DeltaBox
