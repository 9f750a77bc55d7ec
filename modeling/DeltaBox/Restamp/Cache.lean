import DeltaBox.Lib.Dict
import DeltaBox.Lib.Machine

/-!
# Parent images that are stamped anew

A dump whose parent image is older than the restored process needs a copy of that image with a newer
time stamp. The copy is made in the background after a restore, by one worker, and the next checkpoint
picks it up. `_restamp_cache` has an entry for each copy. What the worker reports stays in the future
of the entry until a checkpoint asks for it.

A call that schedules a copy holds `_restamp_lock`, and so the calls take turns. The worker does not
take the lock: it goes on between any two steps of a call.

## What is given

The registry's entry at each call, and whether the system calls succeed: they are in the labels. The
name of a temporary directory is new, as `uuid4` gives it, and the ids of checkpoints are plain file
names. A checkpoint that picks up a copy meets no step of the worker that matters to it, since the
future of the copy is done.

## Main definitions

* `Stage`, `Job` — a call of `_prepare_restamp_parent_copy`
* `State.drop` — what `_schedule_async_parent_restamp` does about another checkpoint's entry
* `State.consume` — `_consume_async_parent_restamp`
* `step` — the machine
-/

namespace DeltaBox

namespace Restamp

open Machine

/-- A directory below `_restamp_cache_root`. -/
inductive Dir where
  /-- `os.path.join(self._restamp_cache_root, ckpt_id)`. -/
  | cache (ckptId : String)
  /-- `f"{cache_dir}.tmp.{…}"`. -/
  | tmp (ckptId : String) (job : ℕ)
  deriving DecidableEq

/-- Where `_prepare_restamp_parent_copy` is. -/
inductive Stage where
  | queued
  | cancelled
  /-- It waits for the dump, and looks for the image. -/
  | started
  /-- The temporary directory has been made. -/
  | copying
  /-- No directory has the final name. -/
  | cleared
  /-- The copy has its final name. -/
  | moved
  | done (ok : Bool)
  deriving DecidableEq

/-- `Future.done()`. -/
def Stage.isDone : Stage → Bool
  | .cancelled => true
  | .done _ => true
  | _ => false

/-- `Future.running()`. -/
def Stage.running : Stage → Bool
  | .started => true
  | .copying => true
  | .cleared => true
  | .moved => true
  | _ => false

/-- A call that was submitted. -/
structure Job where
  ckptId : String
  parentMemPath : String
  stage : Stage
  deriving DecidableEq

/-- The files of a copy: the image they are from, and the call that has linked them. -/
structure Copy where
  parentMemPath : String
  job : ℕ
  deriving DecidableEq

/-- An entry of `_restamp_cache`. -/
structure Entry where
  future : Option ℕ
  parentMemPath : String
  ok : Option Bool
  cacheDir : Option Dir
  deriving DecidableEq

/-- A directory that `_consume_async_parent_restamp` has returned. -/
structure Handed where
  ckptId : String
  copy : Copy
  deriving DecidableEq

/-- A call of `_schedule_async_parent_restamp` that has the lock. -/
structure Call where
  ckptId : String
  parentMemPath : String
  /-- The items of the cache that are still to be looked at. -/
  todo : List String
  deriving DecidableEq

/-- The cache, the calls that were submitted, and the directories. -/
structure State where
  cache : Dict String Entry
  jobs : List Job
  /-- The call that the worker is in. -/
  worker : Option ℕ
  disk : Dict Dir Copy
  call : Option Call
  /-- The image directories that the calls have read in the registry. -/
  images : List (String × String)
  handed : List Handed

def State.init : State := ⟨.empty, [], none, .empty, none, [], []⟩

/-- A call moves on. -/
def State.setStage (s : State) (j : ℕ) (stage : Stage) : State :=
  { s with jobs := s.jobs.modify j fun job => { job with stage } }

/-! ### Scheduling -/

/-- What the controller is configured to do. -/
structure Config where
  /-- `DELTABOX_RESTAMP_PARENT_INVENTORY == "1"`. -/
  restampParentInventory : Bool
  fixedActivePid : Option ℕ
  enableIncrementalDump : Bool

/-- What the registry has of a checkpoint. -/
structure Registered where
  /-- `entry.get("strategy") == "lightweight"`. -/
  lightweight : Bool
  /-- There is a `dump_error`, in the entry or in its `dump_stats`. -/
  dumpError : Bool
  memPath : Option String

/-- The questions before the lock. It is the image directory, if the call goes on. -/
def Config.admits (cfg : Config) (entry : Option Registered) : Option String :=
  if cfg.restampParentInventory && cfg.fixedActivePid.isSome && cfg.enableIncrementalDump then
    entry.bind fun e => if e.lightweight || e.dumpError then none else e.memPath.filter (· ≠ "")
  else none

/-- The entry goes, and with it the directory that it names. -/
def State.pop (s : State) (oldId : String) (old : Entry) (removed : Bool) : State :=
  { s with
    disk := if removed then old.cacheDir.elim s.disk s.disk.erase else s.disk
    cache := s.cache.erase oldId }

/-- One round of the loop over the old items. -/
def State.drop (s : State) (ckptId oldId : String) (removed : Bool) : State :=
  if oldId = ckptId then s
  else
    match s.cache.find? oldId with
    | none => s
    | some old =>
      match old.future.bind (s.jobs[·]?), old.future with
      | some job, some j =>
        if job.stage = .queued then (s.setStage j .cancelled).pop oldId old removed
        else if job.stage.isDone then s.pop oldId old removed
        else s
      | _, _ => s.pop oldId old removed

/-- `_restamp_pool.submit`, and the new entry. -/
def State.add (s : State) (ckptId parentMemPath : String) : State :=
  { s with
    jobs := s.jobs ++ [⟨ckptId, parentMemPath, .queued⟩]
    cache := s.cache.set ckptId ⟨some s.jobs.length, parentMemPath, none, none⟩ }

/-- The checkpoint has a copy, or is about to have one. -/
def State.prepared (s : State) (ckptId : String) : Bool :=
  (s.cache.find? ckptId).any fun e => e.future.isSome || e.cacheDir.isSome

/-! ### The worker -/

/-- One step of `_prepare_restamp_parent_copy`. -/
def State.prepare (s : State) (j : ℕ) (job : Job) (ok : Bool) : State :=
  let failed := { s.setStage j (.done false) with worker := none }
  match job.stage with
  | .started =>
    if ok then
      { s.setStage j .copying with
        disk := s.disk.set (.tmp job.ckptId j) ⟨job.parentMemPath, j⟩ }
    else failed
  | .copying =>
    if ok then { s.setStage j .cleared with disk := s.disk.erase (.cache job.ckptId) } else failed
  | .cleared =>
    if ok then
      { s.setStage j .moved with
        disk := (s.disk.erase (.tmp job.ckptId j)).set (.cache job.ckptId) ⟨job.parentMemPath, j⟩ }
    else failed
  | .moved => { s.setStage j (.done true) with worker := none }
  | _ => s

/-! ### Consuming -/

/-- The entry, when the future's result has been put into it. -/
def Entry.update (e : Entry) (ckptId : String) (job : Job) (ok : Bool) : Entry where
  future := none
  parentMemPath := job.parentMemPath
  ok := some ok
  cacheDir := if ok then some (.cache ckptId) else e.cacheDir

/-- `_consume_async_parent_restamp`, when no future is left. The directory moves out of the cache, and
is returned if its inventory can be stamped. -/
def State.hand (s : State) (ckptId : String) (e : Entry) (replaced finalized : Bool) : State :=
  match e.cacheDir.filter fun _ => e.ok.getD true with
  | none => s
  | some dir =>
    match s.disk.find? dir with
    | none => s
    | some copy =>
      if replaced then
        { s with
          disk := s.disk.erase dir
          cache := s.cache.erase ckptId
          handed := if finalized then s.handed ++ [⟨ckptId, copy⟩] else s.handed }
      else s

/-- `_consume_async_parent_restamp`. -/
def State.consume (s : State) (ckptId : String) (replaced finalized : Bool) : State :=
  match s.cache.find? ckptId with
  | none => s
  | some cached =>
    match cached.future with
    | none => s.hand ckptId cached replaced finalized
    | some j =>
      match s.jobs[j]? with
      | some ⟨_, parentMemPath, .done ok⟩ =>
        let current := cached.update ckptId ⟨ckptId, parentMemPath, .done ok⟩ ok
        { s with cache := s.cache.set ckptId current }.hand ckptId current replaced finalized
      | _ => s

/-! ### The machine -/

/-- What happens next. -/
inductive Label where
  /-- `_schedule_async_parent_restamp` is called. -/
  | schedule (ckptId : String) (entry : Option Registered)
  /-- The loop looks at the next item. -/
  | look (removed : Bool)
  /-- The loop is over. -/
  | submit
  /-- The worker takes the next call. -/
  | start
  /-- The worker's call goes on, or fails. -/
  | prepare (ok : Bool)
  /-- `_consume_async_parent_restamp` is called. -/
  | consume (ckptId : String) (replaced finalized : Bool)

/-- The oldest call that waits for the worker. -/
def State.next? (s : State) : Option ℕ :=
  (List.range s.jobs.length).find? fun j => (s.jobs[j]?).any (·.stage = .queued)

/-- One step. -/
def step (cfg : Config) (s : State) : Label → Option State
  | .schedule ckptId entry =>
    match s.call, cfg.admits entry with
    | some _, _ => none
    | none, none => some s
    | none, some parentMemPath =>
      some { s with
        call := some ⟨ckptId, parentMemPath, s.cache.keys⟩
        images := s.images ++ [(ckptId, parentMemPath)] }
  | .look removed =>
    s.call.bind fun call =>
      call.todo.head?.map fun oldId =>
        { s.drop call.ckptId oldId removed with call := some { call with todo := call.todo.tail } }
  | .submit =>
    s.call.bind fun call =>
      if call.todo = [] then
        let s := { s with call := none }
        some (if s.prepared call.ckptId then s else s.add call.ckptId call.parentMemPath)
      else none
  | .start =>
    if s.worker = none then
      s.next?.map fun j => { s.setStage j .started with worker := some j }
    else none
  | .prepare ok =>
    s.worker.bind fun j => (s.jobs[j]?).map fun job => s.prepare j job ok
  | .consume ckptId replaced finalized =>
    if s.call = none then some (s.consume ckptId replaced finalized) else none

/-! ### What is wanted -/

/-- Each directory that was returned is a copy of the checkpoint's own image. -/
def State.Own (s : State) : Prop :=
  ∀ x ∈ s.handed, (x.ckptId, x.copy.parentMemPath) ∈ s.images ∧
    s.jobs[x.copy.job]? = some ⟨x.ckptId, x.copy.parentMemPath, .done true⟩

/-- No directory was returned twice. -/
def State.Once (s : State) : Prop := (s.handed.map fun x => x.copy.job).Nodup

/-- A preparation that is still running has made the directory. -/
def State.InWork (s : State) : Dir → Prop
  | .cache ckptId => ∃ job ∈ s.jobs, job.ckptId = ckptId ∧ job.stage.running
  | .tmp _ j => (s.jobs[j]?).any (·.stage.running) = true

/-- The directory is the checkpoint's. -/
def Dir.isOf (ckptId : String) : Dir → Prop
  | .cache id => id = ckptId
  | .tmp id _ => id = ckptId

/-- Each directory is the checkpoint's, or the work of a preparation that is still running. -/
def State.Clean (s : State) (ckptId : String) : Prop :=
  ∀ dir ∈ s.disk.keys, dir.isOf ckptId ∨ s.InWork dir

/-! ### The condition -/

/-- The entry has a copy that no checkpoint has asked for yet. -/
def State.unclaimed (s : State) (id : String) : Bool :=
  ((s.cache.find? id).bind fun e => e.future.bind (s.jobs[·]?)).any (·.stage = .done true)

/-- No call meets another checkpoint's finished copy before a checkpoint has asked for it, none is
turned away, what should be removed can be removed, and a preparation that has made a directory does
not fail. -/
def meets (cfg : Config) (s : State) : Label → Bool
  | .schedule _ entry => (cfg.admits entry).isSome
  | .look removed =>
    removed && s.call.all fun call =>
      call.todo.head?.all fun oldId => oldId = call.ckptId || !s.unclaimed oldId
  | .prepare ok =>
    s.worker.all fun j =>
      (s.jobs[j]?).all fun job =>
        (ok || job.stage = .started) &&
          (job.stage ≠ .moved || s.call.all fun call => job.ckptId = call.ckptId)
  | _ => true

end Restamp

end DeltaBox
