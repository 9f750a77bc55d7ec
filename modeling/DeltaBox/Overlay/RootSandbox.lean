import DeltaBox.Overlay.RootOverlay
import DeltaBox.Lib.Machine

/-!
# The whole-root sandbox

`RootOverlaySandbox` runs a worker whose root is one switchable overlay. A checkpoint dumps the
worker's memory with CRIU, which leaves it running, and then switches the overlay to a new upper. A
restore kills the worker, switches the overlay back and has CRIU start a worker from the image.

The directories, the counter, the chain and the table of snapshots are handled line for line as those
of a `RootOverlay`, so they are one here.

## What is modelled

The calls run step by step, and between two steps anybody inside may change files, or a worker may
die. CRIU is a program outside: it may fail at any time, it may or may not have touched its log file
by then, and a failing dump may have spoiled the image. The code finds out by reading the log. An id
is the name of a directory below `img_root`, which holds the image and the logs of that id.

What `launch` and `exec` write below `merged` are file changes like the ones of a worker.

## Main definitions

* `RootSandbox` — the fields of the object, and what is on disk and running
* `RootSandbox.step` — one step of a call, or something that happens between two
* `Return` — what there is when a call comes to an end
-/

namespace DeltaBox

namespace Overlay

/-- A memory image. The code never looks into it. -/
structure Image (P C : Type*) where
  /-- The call it was dumped in. -/
  call : ℕ
  /-- The files the worker saw at that moment. -/
  view : View P C

/-- A worker that runs in the overlay. -/
structure Worker (P C : Type*) where
  pid : ℕ
  /-- The image it was started from, and the call that did it. -/
  restored : Option (Image P C × ℕ)
  /-- The files it saw when it was started. -/
  start : View P C

/-- Where the controller is. Between calls it is `idle`. -/
inductive Stage where
  | idle
  /-- In a checkpoint, after the log of the dump was read. -/
  | dumped (id : String)
  /-- In a restore, after the kill. -/
  | killed (id : String)
  /-- In a restore, after the switch. -/
  | switched (id : String)
  deriving DecidableEq

/-- The end of a call, with what there is then. -/
inductive Return (P C : Type*) where
  /-- `checkpoint` returns: what `snapshots[id]` shows, and the image of the id. -/
  | checkpoint (id : String) (shows : Option (View P C)) (image : Option (Image P C))
  /-- `restore` returns: also the workers, `worker_pid` and the number of the call. -/
  | restore (id : String) (call : ℕ) (shows : Option (View P C)) (image : Option (Image P C))
      (workers : List (Worker P C)) (workerPid : Option ℕ)
  /-- One of them raises: what there is, and the snapshots there were when it was called. -/
  | raised (fd : Bool) (disk : Disk P C) (overlay : RootOverlay)
      (before : Dict String (List String))

/-- What `criu dump` does. -/
inductive Dump where
  | ok
  /-- It fails. Has it written to the log? Has it spoiled the image? -/
  | failed (logged spoiled : Bool)
  deriving DecidableEq

/-- What `criu restore` does. -/
inductive Revival where
  /-- A worker starts. Can the pidfile be read? -/
  | ok (pid : ℕ) (pidfile : Bool)
  /-- It fails. Has it written to the log? -/
  | failed (logged : Bool)
  deriving DecidableEq

/-- `RootOverlaySandbox`, with the disk, the images and the processes. -/
structure RootSandbox (P C : Type*) where
  /-- `base_image`. -/
  baseImage : String
  /-- `layers_root`, `_n`, `lower_chain`, `upper`, `work` and `snapshots`, and the mounted stack. -/
  overlay : RootOverlay
  /-- `fd` is not `None`. -/
  fd : Bool
  /-- `worker_pid`. -/
  workerPid : Option ℕ
  /-- The directories. -/
  disk : Disk P C
  /-- The image below `img_root` under each id, if CRIU can read it. -/
  images : String → Option (Image P C)
  /-- Does `dump.log` say that the dump has finished? -/
  dumpLog : String → Bool
  /-- Does `restore.log` say that the restore has? -/
  restoreLog : String → Bool
  /-- The workers that run. -/
  workers : List (Worker P C)
  /-- Where the controller is. -/
  stage : Stage
  /-- The calls so far. -/
  calls : ℕ
  /-- The snapshots there were when the last call began. -/
  before : Dict String (List String)
  /-- The calls that have ended. -/
  returns : List (Return P C)

namespace RootSandbox

variable {P C : Type*}

/-- The constructor. -/
def new (d : Disk P C) (baseImage layersRoot : String) : RootSandbox P C where
  baseImage := baseImage
  overlay :=
    { target := "/"
      root := layersRoot
      n := 0
      lowerChain := []
      upper := ""
      work := ""
      snapshots := Dict.empty
      mount := ⟨0, []⟩
      points := [] }
  fd := false
  workerPid := none
  disk := d
  images _ := none
  dumpLog _ := false
  restoreLog _ := false
  workers := []
  stage := .idle
  calls := 0
  before := Dict.empty
  returns := []

/-- `img_root`. -/
def imgRoot (s : RootSandbox P C) : String := join s.overlay.root "img"

/-- `mount`. -/
def mount (s : RootSandbox P C) (ok : Bool) : RootSandbox P C :=
  let (d, o) := s.overlay.fresh ((s.disk.mkdirs s.overlay.merged).mkdirs s.imgRoot)
  match if ok then d.resolve [s.baseImage] else none, d.names (o.upperPath o.n) with
  | some is, some u =>
    { s with
      disk := d
      overlay :=
        { o with
          lowerChain := [s.baseImage]
          upper := o.upperPath o.n
          work := o.workPath o.n
          mount := ⟨u, is⟩ }
      fd := true }
  | _, _ => { s with disk := d, overlay := o }

/-- The numbers of the processes. -/
def pids (s : RootSandbox P C) : List ℕ := s.workers.map Worker.pid

variable [DecidableEq P]

/-- What the overlay shows. -/
def view (s : RootSandbox P C) : View P C := s.disk.visible s.overlay.mount

/-- What `snapshots[id]` shows. -/
def shows (s : RootSandbox P C) (id : String) : Option (View P C) :=
  (s.overlay.snapshots.find? id).bind s.disk.through

/-- `launch`, once its files are written. The worker starts or it does not, and then the pid file is
read: a worker has written it, or nobody has and the call raises. -/
def launch (s : RootSandbox P C) (started pidfile : Option ℕ) : Option (RootSandbox P C) :=
  if started.any (· ∈ s.pids) then none
  else
    let s := { s with workers := (started.toList.map fun pid => ⟨pid, none, s.view⟩) ++ s.workers }
    match pidfile with
    | none => some s
    | some pid => if pid ∈ s.pids then some { s with workerPid := some pid } else none

omit [DecidableEq P] in
/-- A call begins. -/
def begun (s : RootSandbox P C) : RootSandbox P C :=
  { s with calls := s.calls + 1, before := s.overlay.snapshots }

omit [DecidableEq P] in
/-- A call raises. -/
def raise (s : RootSandbox P C) : RootSandbox P C :=
  { s with
    stage := .idle
    returns := s.returns ++ [.raised s.fd s.disk s.overlay s.before] }

/-- A checkpoint returns. -/
def checkpointed (s : RootSandbox P C) (id : String) : RootSandbox P C :=
  { s with
    stage := .idle
    returns := s.returns ++ [.checkpoint id (s.shows id) (s.images id)] }

/-- A restore returns. -/
def restored (s : RootSandbox P C) (id : String) : RootSandbox P C :=
  { s with
    stage := .idle
    returns :=
      s.returns ++ [.restore id s.calls (s.shows id) (s.images id) s.workers s.workerPid] }

/-- `criu dump`. It needs a process to dump. -/
def criuDump (s : RootSandbox P C) (pid : ℕ) (id : String) : Dump → Option (RootSandbox P C)
  | .ok =>
    if pid ∈ s.pids then
      some { s with
        images := Function.update s.images id (some ⟨s.calls, s.view⟩)
        dumpLog := Function.update s.dumpLog id true }
    else none
  | .failed logged spoiled =>
    some { s with
      images := if spoiled then Function.update s.images id none else s.images
      dumpLog := if logged then Function.update s.dumpLog id false else s.dumpLog }

/-- `checkpoint`, up to the log of the dump. -/
def checkpoint (s : RootSandbox P C) (id : String) (dump : Dump) : Option (RootSandbox P C) :=
  match s.workerPid with
  | none => some s.begun.raise
  | some pid =>
    (s.begun.criuDump pid id dump).map fun s =>
      if s.dumpLog id then { s with stage := .dumped id } else s.raise

/-- The rest of `checkpoint`. -/
def checkpointSwitch (s : RootSandbox P C) (id : String) (ok : Bool) : RootSandbox P C :=
  match s.overlay.checkpoint s.calls id s.disk ok with
  | (d, o, true) => { s with disk := d, overlay := o }.checkpointed id
  | (d, o, false) => { s with disk := d, overlay := o }.raise

omit [DecidableEq P] in
/-- `restore`, up to the kill. -/
def restore (s : RootSandbox P C) (id : String) : RootSandbox P C :=
  match s.overlay.snapshots.find? id with
  | none => s.begun.raise
  | some _ =>
    { s.begun with
      workers := s.workers.filter fun w => some w.pid ≠ s.workerPid
      workerPid := none
      stage := .killed id }

omit [DecidableEq P] in
/-- `restore`: the switch. -/
def restoreSwitch (s : RootSandbox P C) (id : String) (ok : Bool) : RootSandbox P C :=
  match s.overlay.restore s.calls id s.disk ok with
  | (d, o, true) => { s with disk := d, overlay := o, stage := .switched id }
  | (d, o, false) => { s with disk := d, overlay := o }.raise

/-- The rest of `restore`: `criu restore`, its log and its pidfile. -/
def criuRestore (s : RootSandbox P C) (id : String) : Revival → Option (RootSandbox P C)
  | .ok pid pidfile =>
    match s.images id with
    | none => none
    | some im =>
      if pid ∈ s.pids then none
      else
        some ({ s with
          workers := ⟨pid, some (im, s.calls), s.view⟩ :: s.workers
          restoreLog := Function.update s.restoreLog id true
          workerPid := if pidfile then some pid else s.workerPid }.restored id)
  | .failed logged =>
    let s :=
      { s with restoreLog := if logged then Function.update s.restoreLog id false else s.restoreLog }
    some (if s.restoreLog id then s.restored id else s.raise)

/-! ### Steps -/

omit [DecidableEq P] in
/-- The upper gets other contents. -/
def put (s : RootSandbox P C) (l : Layer P C) : RootSandbox P C :=
  { s with disk := s.disk.put s.overlay.mount.upper l }

/-- What can happen next. -/
inductive Label (P : Type*) (C : Type*) where
  /-- Somebody inside writes a file. -/
  | write (ds : List P) (p : P) (c : C)
  /-- Somebody inside removes one. -/
  | remove (ds : List P) (p : P)
  /-- A worker dies. -/
  | exit (pid : ℕ)
  | mount (ok : Bool)
  | launch (started pidfile : Option ℕ)
  | checkpoint (id : String) (dump : Dump)
  | restore (id : String)
  /-- The running call makes its switch. -/
  | switch (ok : Bool)
  /-- The running restore calls CRIU. -/
  | revive (r : Revival)

/-- One step. -/
def step (s : RootSandbox P C) : Label P C → Option (RootSandbox P C)
  | .write ds p c =>
    if s.fd then some (s.put ((s.disk.content s.overlay.mount.upper).write ds p c)) else none
  | .remove ds p =>
    if s.fd then
      some (s.put ((s.disk.content s.overlay.mount.upper).remove
        (s.overlay.mount.lowers.map s.disk.content) ds p))
    else none
  | .exit pid => some { s with workers := s.workers.filter fun w => w.pid ≠ pid }
  | .mount ok => if s.stage = .idle ∧ s.fd = false then some (s.mount ok) else none
  | .launch started pidfile =>
    if s.stage = .idle ∧ s.fd = true then s.launch started pidfile else none
  | .checkpoint id dump => if s.stage = .idle then s.checkpoint id dump else none
  | .restore id => if s.stage = .idle then some (s.restore id) else none
  | .switch ok =>
    match s.stage with
    | .dumped id => some (s.checkpointSwitch id ok)
    | .killed id => some (s.restoreSwitch id ok)
    | _ => none
  | .revive r =>
    match s.stage with
    | .switched id => s.criuRestore id r
    | _ => none

end RootSandbox

end Overlay

end DeltaBox
