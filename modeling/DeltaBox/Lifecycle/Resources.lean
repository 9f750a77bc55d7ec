import DeltaBox.Lib.Machine
import DeltaBox.Lib.Pidfd

/-!
# The resources of a replay

`ReplayResources` (`replay/guest/lifecycle.py`) owns what a replay starts: the processes, the
namespaces, and the controllers with what they have open. When the replay ends, in whatever way, it
kills the namespaces, closes the controllers, and then calls its callbacks, the last one first. Each
of these calls may fail, and what it raises is recorded; the next one is made all the same.

A namespace is known by its pid, and pinned by a descriptor. A launcher whose namespace is not known
yet has its children killed before it is stopped. A process may end at any time, and its pid may then
be given to another one.

## What is modelled

* Each statement that has to do with processes, descriptors or what is owned. What there is still to
  do stands in an agenda. Between any two of its items processes come, go, and change their parents.
* `Popen.poll`, `wait` and `send_signal`. Only the replay waits for the processes that it has started.
* `os.close` and the entry in `_namespaces` that goes with it are one step, since nothing can come
  between them that looks at either. `os.close` does not fail.
* A descriptor of a mount stands in the same table as the others, and refers to process `0`, which is
  none. Process `0` is also the parent of those that have none in the table.

The pool of the dump commands is a machine of its own. `KeyboardInterrupt` is left out.

## Main definitions

* `World` — the processes, what is owned, and what has been recorded
* `Item` — an item of the agenda
* `step` — the machine
-/

namespace DeltaBox

namespace Resources

open Pidfd (Proc Kernel)

/-- A `Popen` object, with the process it has been made for. -/
structure Popen where
  id : ℕ
  pid : ℕ
  args : String
  /-- It has a return code. -/
  done : Bool
  deriving DecidableEq, Repr

/-- The attributes of a controller that are looked at in the end. The daemons are `Popen` objects. -/
structure Controller where
  dumpPool : Bool
  restampPool : Bool
  lazyPageDaemons : List ℕ
  restampCacheRoot : Bool
  mountFd : Option ℕ
  rootOverlays : Bool
  deriving DecidableEq, Repr

inductive Callback where
  | stopProcess (n : ℕ)
  | stopLauncherChildren (n : ℕ)
  | other (name : String)
  deriving DecidableEq, Repr

/-- Why a signal has been sent. -/
inductive Why where
  | namespacePid (pid : ℕ)
  | launcherChild (n : ℕ)
  | stopProcess (n : ℕ)
  deriving DecidableEq, Repr

/-- How `__exit__` ends. -/
inductive Outcome where
  | returned
  /-- There has been another error, which goes on. -/
  | primary
  | raised (message : String)
  deriving DecidableEq, Repr

/-- The processes, and the attributes of the object. In `parents` the last parent of a process stands
first. Behind the attributes stand the signals with the process that got each of them, the processes
that have been owned as namespaces, and the callbacks that were registered and those that were called. -/
structure World where
  os : Kernel
  parents : List (ℕ × ℕ)
  popens : List Popen
  namespaces : Dict ℕ ℕ
  controllers : List Controller
  callbacks : List Callback
  cleanupErrors : List String
  signals : List (Proc × Why)
  owned : List (ℕ × ℕ)
  registered : List Callback
  called : List Callback
  outcome : Option Outcome

def World.init : World where
  os := { Kernel.init with next := 1 }
  parents := []
  popens := []
  namespaces := .empty
  controllers := []
  callbacks := []
  cleanupErrors := []
  signals := []
  owned := []
  registered := []
  called := []
  outcome := none

/-- How a call answers. -/
inductive Answer where
  | ok
  /-- The time is over. -/
  | no
  /-- `FileNotFoundError` or `ProcessLookupError`. -/
  | vanished
  | fd (n : ℕ)
  | pids (l : List ℕ)
  /-- Another error, with its type and text. -/
  | fails (error : String)
  deriving DecidableEq, Repr

namespace World

variable (w : World)

/-- A descriptor is readable: its process has ended. -/
def gone (fd : ℕ) : Bool := (w.os.pinned fd).all Proc.zombie

/-- The `PPid` of a process. -/
def ppid (id : ℕ) : Option ℕ := ((w.parents.lookup id).bind w.os.byId).map Proc.pid

/-- What `_cleanup` records. -/
def report (name error : String) : World :=
  { w with cleanupErrors := w.cleanupErrors ++ [name ++ ": " ++ error] }

/-- A call to something outside, in `_cleanup`. -/
def call (name : String) : Answer → Option World
  | .ok => some w
  | .fails error => some (w.report name error)
  | _ => none

/-- A signal to the process that a descriptor refers to, or none when it has been waited for. -/
def send (fd : ℕ) (why : Why) : Option World :=
  (w.os.pinned fd).map fun p => { w with signals := w.signals ++ [(p, why)] }

/-! ### `Popen` -/

/-- There is a return code. -/
def isDone (n : ℕ) : Bool := (w.popens[n]?).all Popen.done

/-- The process has been waited for. -/
def setDone (n id : ℕ) : World :=
  { w with os := w.os.reap id, popens := w.popens.modify n fun c => { c with done := true } }

/-- `proc.poll()`. -/
def poll (n : ℕ) : World :=
  match w.popens[n]? with
  | some c =>
    if c.done then w else if (w.os.byId c.id).any Proc.zombie then w.setDone n c.id else w
  | none => w

/-- `proc.terminate()` or `proc.kill()`, which send a signal to the pid. -/
def sendSignal (n : ℕ) : World :=
  let w := w.poll n
  if w.isDone n then w
  else
    match (w.popens[n]?).bind fun c => w.os.byPid c.pid with
    | some p => { w with signals := w.signals ++ [(p, .stopProcess n)] }
    | none => w

/-- The text of `TimeoutExpired`. -/
def timeoutExpired (n : ℕ) : String :=
  "TimeoutExpired: Command '" ++ ((w.popens[n]?).map Popen.args).getD "" ++
    "' timed out after 2.0 seconds"

end World

/-! ### The agenda -/

/-- Where `_stop_process` is. -/
inductive Stop where
  | poll
  | terminate
  | wait
  | kill
  | lastWait
  deriving DecidableEq, Repr

/-- An item of the agenda. -/
inductive Item where
  /-- `own_namespace`. -/
  | look (pid : ℕ)
  | opening (pid : ℕ) (previous : Option ℕ)
  | store (pid fd : ℕ) (previous : Option ℕ)
  /-- `_kill_namespaces` and `_kill_namespace`. -/
  | killNamespaces
  | kill (pid fd : ℕ)
  | gone (pid fd : ℕ)
  | close (pid fd : ℕ) (error : Option String)
  /-- `abort_dumps`, behind the namespaces. -/
  | abortDumps (c : ℕ)
  /-- `_close_controller`. -/
  | pool (c : ℕ)
  | restamp (c : ℕ)
  | join (c : ℕ) (restampStopped : Bool)
  | daemons (c : ℕ) (restampStopped : Bool)
  | cache (c : ℕ) (restampStopped : Bool)
  | mount (c : ℕ)
  | closeMount (fd : ℕ)
  | overlays (c : ℕ)
  /-- `_stop_process`. -/
  | stop (n : ℕ) (s : Stop)
  /-- `_stop_launcher_children`. -/
  | children (n : ℕ)
  | each (n : ℕ) (pids : List ℕ)
  | check (n pid fd : ℕ) (pids : List ℕ)
  | strike (n pid fd : ℕ) (pids : List ℕ)
  | await (n pid fd : ℕ) (pids : List ℕ)
  | drop (n fd : ℕ) (pids : List ℕ) (error : Option String)
  /-- `ExitStack.__exit__`, another callback, and the end. -/
  | callbacks
  | other (name : String)
  | finish (exc : Bool)
  deriving DecidableEq, Repr

/-- What a callback does. -/
def Callback.item : Callback → Item
  | .stopProcess n => .stop n .poll
  | .stopLauncherChildren n => .children n
  | .other name => .other name

/-- `_close_controller`. -/
def closeController (c : ℕ) : List Item := [.pool c, .restamp c, .mount c, .overlays c]

/-- `__exit__`. -/
def exitItems (controllers : ℕ) (exc : Bool) : List Item :=
  .killNamespaces :: (List.range controllers).flatMap closeController ++ [.callbacks, .finish exc]

namespace World

variable (w : World)

/-- `own_namespace`, with the pid of the replay itself. What it raises goes to the caller. -/
def ownNamespace (self : ℕ) : Item → Answer → Option (World × List Item)
  | .look pid, .ok =>
    if pid ≤ 1 ∨ pid = self then some (w, [])
    else
      match w.namespaces.find? pid with
      | some previous => some (w, if w.gone previous then [.opening pid (some previous)] else [])
      | none => some (w, [.opening pid none])
  | .opening pid previous, .fd fd =>
    if w.os.fds.find? fd = none then
      (w.os.byPid pid).map fun p =>
        ({ w with os := w.os.pin fd p.id, owned := w.owned ++ [(pid, p.id)] },
          [.store pid fd previous])
    else none
  | .opening pid _, .vanished => if w.os.byPid pid = none then some (w, []) else none
  | .opening _ _, .fails _ => some (w, [])
  | .store pid fd previous, .ok =>
    some ({ w with
      os := previous.elim w.os w.os.close
      namespaces := w.namespaces.set pid fd }, [])
  | _, _ => none

/-- `_kill_namespaces`. -/
def killNamespace : Item → Answer → Option (World × List Item)
  | .killNamespaces, .ok => some (w, w.namespaces.entries.map fun e => .kill e.1 e.2)
  | .kill pid fd, .ok => some ((w.send fd (.namespacePid pid)).getD w, [.gone pid fd])
  | .kill pid fd, .fails error => some (w, [.close pid fd (some error)])
  | .gone pid fd, .ok => if w.gone fd then some (w, [.close pid fd none]) else none
  | .gone pid fd, .no =>
    if w.gone fd then none
    else
      some (w, [.close pid fd (some ("TimeoutError: namespace " ++ toString pid ++ " did not exit"))])
  | .gone pid fd, .fails error => some (w, [.close pid fd (some error)])
  | .close pid fd error, .ok =>
    let w := { w with os := w.os.close fd, namespaces := w.namespaces.erase pid }
    some (error.elim w (w.report "_kill_namespace"), [])
  | _, _ => none

/-- `_close_controller`. -/
def close (c : Controller) : Item → Answer → Option (World × List Item)
  | .pool _, a => (if c.dumpPool then w.call "abort" a else some w).map (·, [])
  | .restamp i, a =>
    if c.restampPool then (w.call "shutdown" a).map (·, [.join i true])
    else some (w, [.daemons i true])
  -- a thread of the pool is still there
  | .join i _, .no =>
    some ({ w with cleanupErrors := w.cleanupErrors ++ ["restamp worker did not stop"] },
      [.join i false])
  | .join i stopped, .ok => some (w, [.daemons i stopped])
  | .daemons i stopped, .ok =>
    some (w, (c.lazyPageDaemons.map fun n => .stop n .poll) ++ [.cache i stopped])
  | .cache _ stopped, a =>
    (if c.restampCacheRoot && stopped then w.call "rmtree" a else some w).map (·, [])
  | .mount i, .ok =>
    match c.mountFd with
    | some fd =>
      some ({ w with controllers := w.controllers.set i { c with mountFd := none } },
        [.closeMount fd])
    | none => some (w, [])
  | .overlays _, a => (if c.rootOverlays then w.call "teardown" a else some w).map (·, [])
  | _, _ => none

/-- `_stop_process`. -/
def stopProcess (n : ℕ) : Stop → Answer → Option (World × List Item)
  | .poll, .ok =>
    let w := w.poll n
    some (w, if w.isDone n then [] else [.stop n .terminate])
  | .terminate, .ok => some (w.sendSignal n, [.stop n .wait])
  | .kill, .ok => some (w.sendSignal n, [.stop n .lastWait])
  | .terminate, .fails error | .kill, .fails error =>
    let w := w.poll n
    if w.isDone n then none else some (w.report "_stop_process" error, [])
  | .wait, .ok | .lastWait, .ok =>
    let w := w.poll n
    if w.isDone n then some (w, []) else none
  | .wait, .no => if (w.poll n).isDone n then none else some (w, [.stop n .kill])
  | .lastWait, .no =>
    if (w.poll n).isDone n then none
    else some (w.report "_stop_process" (w.timeoutExpired n), [])
  | _, _ => none

/-- `_stop_launcher_children`. -/
def stopLauncherChildren : Item → Answer → Option (World × List Item)
  | .children n, a =>
    let w := w.poll n
    if w.isDone n then some (w, [])
    else
      match a with
      | .pids l => some (w, [.each n l])
      | .vanished => some (w, [])
      | .fails error => some (w.report "_stop_launcher_children" error, [])
      | _ => none
  | .each _ [], .ok => some (w, [])
  | .each n (pid :: pids), .fd fd =>
    if w.os.fds.find? fd = none then
      (w.os.byPid pid).map fun p => ({ w with os := w.os.pin fd p.id }, [.check n pid fd pids])
    else none
  | .each n (pid :: pids), .vanished =>
    if w.os.byPid pid = none then some (w, [.each n pids]) else none
  | .each _ (_ :: _), .fails error => some (w.report "_stop_launcher_children" error, [])
  | .check n pid fd pids, .ok =>
    (w.os.byPid pid).map fun p =>
      (w, if w.ppid p.id = (w.popens[n]?).map Popen.pid then [.strike n pid fd pids]
        else [.drop n fd pids none])
  | .check n pid fd pids, .vanished =>
    if w.os.byPid pid = none then some (w, [.drop n fd pids none]) else none
  | .check n _ fd pids, .fails error => some (w, [.drop n fd pids (some error)])
  | .strike n pid fd pids, .ok =>
    match w.send fd (.launcherChild n) with
    | some w => some (w, [.await n pid fd pids])
    | none => some (w, [.drop n fd pids none])
  | .strike n _ fd pids, .fails error => some (w, [.drop n fd pids (some error)])
  | .await n _ fd pids, .ok => if w.gone fd then some (w, [.drop n fd pids none]) else none
  | .await n pid fd pids, .no =>
    if w.gone fd then none
    else
      some (w, [.drop n fd pids
        (some ("TimeoutError: launcher child " ++ toString pid ++ " did not exit"))])
  | .await n _ fd pids, .fails error => some (w, [.drop n fd pids (some error)])
  | .drop n fd pids error, .ok =>
    let w := { w with os := w.os.close fd }
    match error with
    | none => some (w, [.each n pids])
    | some error => some (w.report "_stop_launcher_children" error, [])
  | _, _ => none

/-- The message of `RuntimeError`. -/
def failure : String := "replay cleanup failed: " ++ "; ".intercalate w.cleanupErrors

/-- The end of `__exit__`. -/
def exits (exc : Bool) : Outcome :=
  if exc then .primary else if w.cleanupErrors = [] then .returned else .raised w.failure

/-- The next item, and what comes in its place. -/
def next (self : ℕ) (item : Item) (a : Answer) : Option (World × List Item) :=
  match item with
  | .look _ | .opening _ _ | .store _ _ _ => w.ownNamespace self item a
  | .killNamespaces | .kill _ _ | .gone _ _ | .close _ _ _ => w.killNamespace item a
  -- what it raises goes to the caller
  | .abortDumps _ =>
    match a with
    | .ok | .fails _ => some (w, [])
    | _ => none
  | .pool i | .restamp i | .join i _ | .daemons i _ | .cache i _ | .mount i | .overlays i =>
    (w.controllers[i]?).bind fun c => w.close c item a
  | .closeMount fd =>
    match a with
    | .ok => some ({ w with os := w.os.close fd }, [])
    | _ => none
  | .stop n s => w.stopProcess n s a
  | .children _ | .each _ _ | .check _ _ _ _ | .strike _ _ _ _ | .await _ _ _ _ | .drop _ _ _ _ =>
    w.stopLauncherChildren item a
  | .callbacks =>
    match a, w.callbacks with
    | .ok, cb :: cbs =>
      some ({ w with callbacks := cbs, called := w.called ++ [cb] }, [cb.item, .callbacks])
    | .ok, [] => some (w, [])
    | _, _ => none
  | .other name => (w.call name a).map (·, [])
  | .finish exc =>
    match a with
    | .ok => some ({ w with outcome := some (w.exits exc) }, [])
    | _ => none

end World

/-! ### The machine -/

structure State where
  world : World
  agenda : List Item

def State.init : State := ⟨.init, []⟩

/-- Who starts a process. -/
inductive Starter where
  /-- `popen`. -/
  | popen
  /-- `popen_namespace`. -/
  | popenNamespace
  /-- A controller, for lazy pages. -/
  | daemon (c : ℕ)
  deriving DecidableEq, Repr

inductive Act where
  /-- Another process forks. -/
  | fork (pid ticks parent : ℕ)
  /-- A process ends, and its children get another parent. -/
  | exits (id reaper : ℕ)
  /-- Another process has waited for it. -/
  | reap (id : ℕ)
  /-- What the replay does between two calls. -/
  | popen (starter : Starter) (pid ticks : ℕ) (args : String)
  | poll (n : ℕ)
  | own (pid : Option ℕ)
  | callback (name : String)
  /-- A controller is registered, which has no attributes yet. -/
  | create
  | attributes (c : ℕ) (dumpPool restampPool restampCacheRoot rootOverlays : Bool)
  | openMount (c fd : ℕ)
  | abortDumps (c : ℕ)
  | exit (exc : Bool)
  /-- The next item of the agenda. -/
  | go (a : Answer)
  deriving DecidableEq, Repr

namespace World

variable (w : World)

/-- A process with a free pid. -/
def fork (pid ticks parent : ℕ) : World :=
  { w with os := w.os.fork pid ticks, parents := (w.os.next, parent) :: w.parents }

/-- A process ends. -/
def terminate (id reaper : ℕ) : World :=
  { w with
    os := w.os.exits id
    parents := ((w.os.procs.filter fun p => w.parents.lookup p.id = some id).map
      fun p => (p.id, reaper)) ++ w.parents }

/-- A callback is registered. -/
def register (cb : Callback) : World :=
  { w with callbacks := cb :: w.callbacks, registered := w.registered ++ [cb] }

/-- A process of the replay. -/
def spawn (pid ticks : ℕ) (args : String) : World :=
  { w.fork pid ticks 0 with popens := w.popens ++ [⟨w.os.next, pid, args, false⟩] }

/-- A `Popen` object, which has an owner. -/
def popen (starter : Starter) (pid ticks : ℕ) (args : String) : World :=
  let n := w.popens.length
  let w := w.spawn pid ticks args
  match starter with
  | .popen => w.register (.stopProcess n)
  | .popenNamespace => (w.register (.stopProcess n)).register (.stopLauncherChildren n)
  | .daemon c =>
    { w with controllers := w.controllers.modify c fun c =>
        { c with lazyPageDaemons := c.lazyPageDaemons ++ [n] } }

/-- A process that only the replay may wait for. -/
def reserved (id : ℕ) : Bool := w.popens.any fun c => c.id = id && !c.done

/-- No process has this pid, and neither has the replay. -/
def free (self pid : ℕ) : Bool := (w.os.byPid pid).isNone && 1 < pid && pid ≠ self

end World

/-- The replay has called nothing, and has not ended. -/
def State.idle (s : State) : Bool := s.agenda.isEmpty && s.world.outcome.isNone

def step (self : ℕ) (s : State) : Act → Option State
  | .fork pid ticks parent =>
    if s.world.free self pid then some { s with world := s.world.fork pid ticks parent } else none
  | .exits id reaper =>
    if reaper ≠ id then some { s with world := s.world.terminate id reaper } else none
  | .reap id =>
    if s.world.reserved id then none else some { s with world.os := s.world.os.reap id }
  | .popen starter pid ticks args =>
    let owner := match starter with
      | .daemon c => decide (c < s.world.controllers.length)
      | _ => true
    if s.idle && s.world.free self pid && owner then
      some { s with world := s.world.popen starter pid ticks args }
    else none
  | .poll n => if s.idle then some { s with world := s.world.poll n } else none
  | .own pid => if s.idle then some { s with agenda := pid.toList.map .look } else none
  | .callback name =>
    if s.idle then some { s with world := s.world.register (.other name) } else none
  | .create =>
    if s.idle then
      some { s with
        world.controllers := s.world.controllers ++ [⟨false, false, [], false, none, false⟩] }
    else none
  | .attributes c dumpPool restampPool restampCacheRoot rootOverlays =>
    if s.idle then
      some { s with world.controllers := s.world.controllers.modify c fun c =>
        { c with dumpPool, restampPool, restampCacheRoot, rootOverlays } }
    else none
  | .openMount c fd =>
    if s.idle && s.world.controllers[c]?.any (fun c => c.mountFd.isNone) &&
        (s.world.os.fds.find? fd).isNone then
      some { s with
        world.os := s.world.os.pin fd 0
        world.controllers := s.world.controllers.modify c fun c => { c with mountFd := some fd } }
    else none
  | .abortDumps c => if s.idle then some { s with agenda := [.killNamespaces, .abortDumps c] } else none
  | .exit exc =>
    if s.idle then some { s with agenda := exitItems s.world.controllers.length exc } else none
  | .go a =>
    match s.agenda with
    | item :: rest => (s.world.next self item a).map fun (w, items) => ⟨w, items ++ rest⟩
    | [] => none

end Resources

end DeltaBox
