import DeltaBox.Lib.Machine
import DeltaBox.Lib.Pidfd

/-!
# Children that are owned

`OwnedChildren` (`ae/scripts/owned_job_lifecycle.py`) makes the process a subreaper, so that orphans
of a producer become children of it. Each child that it waits for or signals is registered with a
pidfd. While the producer is waited for, a handler of `SIGCHLD` reaps the children that have
terminated: CRIU may restore a process under its old pid, which a zombie would block.

The handler runs in the main thread between any two statements, also between statements of itself.
There is a stack of its calls.

## What is modelled

* Every statement of `register`, `start_live_reaping`, `reap_terminated`, `stop_live_reaping`, `send`,
  `cleanup` and `restore` that has to do with processes, descriptors or the flags, in the order in
  which a job calls them. `Popen.wait` reaps the producer, and may be cut short.
* The kernel: the children with their pids, which are used again, the descriptors, and what a
  descriptor refers to. Another call may fail whenever it likes.
* `FileNotFoundError` and `ProcessLookupError` are raised only for a process that is not there.

The evidence and the subreaper flag are left out. The job's handler of `SIGTERM` raises where the job
waits for the producer, and nowhere else.

## Main definitions

* `World` — the children, the descriptors, and the attributes of the object
* `Frame`, `Main` — where a call of the handler is, and where the job is
* `step` — the machine
-/

namespace DeltaBox

namespace Owned

open Pidfd (Proc Kernel)

/-- An entry, which has its pid for a key. -/
structure Record where
  ticks : ℕ
  fd : ℕ
  termSent : Bool
  killSent : Bool
  deriving DecidableEq, Repr

/-- A signal that has been sent, with the child that got it. -/
structure Signal where
  pid : ℕ
  ticks : ℕ
  child : Proc
  deriving DecidableEq, Repr

/-- The attributes that live reaping uses, and whether the handler is installed. Behind them stand
the process that `Popen` has made, the children that handlers have waited for, and those that had
terminated when the handler was last called in the course of live reaping. -/
structure Flags where
  producerPid : Option ℕ
  liveReapError : Bool
  reapBusy : Bool
  reapPending : Bool
  installed : Bool
  child : Option Proc
  reaped : List Proc
  due : List ℕ
  deriving DecidableEq, Repr

/-- The children are the processes of the kernel. `returned` has the children that were there when a
`cleanup` returned. -/
structure World where
  os : Kernel
  entries : Dict ℕ Record
  flags : Flags
  signals : List Signal
  returned : List (List Proc)

def World.init : World where
  os := .init
  entries := .empty
  flags := ⟨none, false, false, false, false, none, [], []⟩
  signals := []
  returned := []

/-- What is raised. -/
inductive Exn where
  /-- `FileNotFoundError` or `ProcessLookupError`. -/
  | vanished
  | other
  deriving DecidableEq, Repr

/-- How a call answers, or how a choice is made that is not up to the object. -/
inductive Answer where
  | ok
  | no
  | fd (n : ℕ)
  | pids (l : List ℕ)
  | fails (e : Exn)
  deriving DecidableEq, Repr

/-- `direct_children`, in some order. -/
def World.lists (w : World) (l : List ℕ) : Bool :=
  (w.os.procs.all fun p => p.pid ∈ l) && l.all fun pid => (w.os.byPid pid).isSome

/-! ### Registering a child -/

/-- Where `register` is. -/
inductive Reg where
  | identify (pid : ℕ)
  | opening (pid ticks : ℕ)
  /-- The identity is read again. -/
  | recheck (pid ticks fd : ℕ)
  | store (pid ticks fd : ℕ)
  deriving DecidableEq, Repr

inductive RegOut where
  | next (r : Reg)
  | done (pid : ℕ) (r : Record)
  | raised (e : Exn)

/-- What may be raised for a pid: that it is not there is not raised for a child. -/
def World.raises (w : World) (pid : ℕ) (e : Exn) : Bool := (w.os.byPid pid).isNone || e = .other

/-- One statement of `register`. -/
def World.reg (w : World) : Reg → Answer → Option (World × RegOut)
  | .identify pid, .ok => (w.os.byPid pid).map fun p => (w, .next (.opening pid p.ticks))
  | .identify pid, .fails e => if w.raises pid e then some (w, .raised e) else none
  | .opening pid ticks, .fd fd =>
    if w.os.fds.find? fd = none then
      (w.os.byPid pid).map fun p => ({ w with os := w.os.pin fd p.id }, .next (.recheck pid ticks fd))
    else none
  | .opening pid _, .fails e => if w.raises pid e then some (w, .raised e) else none
  | .recheck pid ticks fd, .ok =>
    (w.os.byPid pid).map fun p =>
      if p.ticks = ticks then (w, .next (.store pid ticks fd))
      else ({ w with os := w.os.close fd }, .raised .other)
  | .recheck pid _ fd, .fails e =>
    if w.raises pid e then some ({ w with os := w.os.close fd }, .raised e) else none
  | .store pid ticks fd, .ok =>
    let r : Record := ⟨ticks, fd, false, false⟩
    some ({ w with entries := w.entries.set pid r }, .done pid r)
  | _, _ => none

/-! ### Waiting and signalling -/

inductive WaitOut where
  | reaped (p : Proc)
  | running
  | raised

/-- `os.waitid` for a descriptor. It raises for a descriptor that is not open and for a process that
is no child any more. -/
def World.waitid (w : World) (fd : ℕ) : Answer → Option (World × WaitOut)
  | .ok =>
    match w.os.pinned fd with
    | some p =>
      some (if p.zombie then ({ w with os := w.os.reap p.id }, .reaped p) else (w, .running))
    | none => some (w, .raised)
  | .fails .other => some (w, .raised)
  | _ => none

/-- `signal.pidfd_send_signal`. It may be sent to a zombie. -/
def World.signal (w : World) (pid : ℕ) (r : Record) : Answer → Option (World × Option Exn)
  | .ok =>
    match w.os.pinned r.fd with
    | some p => some ({ w with signals := w.signals ++ [⟨pid, r.ticks, p⟩] }, none)
    | none => some (w, some .vanished)
  | .fails .other => some (w, some .other)
  | _ => none

/-- The comparison in `send`. -/
def World.compare (w : World) (pid : ℕ) (r : Record) : Answer → Option (Option Exn)
  | .ok => (w.os.byPid pid).map fun p => if p.ticks = r.ticks then none else some .other
  | .fails e => if w.raises pid e then some (some e) else none
  | _ => none

/-- `os.close(self.entries.pop(pid)['pidfd'])`. -/
def World.pop (w : World) (pid : ℕ) : World :=
  match w.entries.find? pid with
  | some r => { w with os := w.os.close r.fd, entries := w.entries.erase pid }
  | none => w

/-! ### The handler -/

/-- Where a call of `reap_terminated` is. -/
inductive Frame where
  | entry
  | check
  /-- It is busy below: the notification is left to be dealt with. -/
  | defer
  | enter
  | clear
  | list
  | each (pids : List ℕ)
  | register (r : Reg) (pids : List ℕ)
  | wait (pid : ℕ) (r : Record) (pids : List ℕ)
  | pop (pid : ℕ) (pids : List ℕ)
  | decide
  /-- The `except`. -/
  | fail
  | release
  /-- Behind the `finally`. -/
  | again
  deriving DecidableEq, Repr

/-- One statement of the handler, with the next frame, or none when the call returns. -/
def World.handle (w : World) : Frame → Answer → Option (World × Option Frame)
  | .entry, .ok => some (w, if w.flags.producerPid = none then none else some .check)
  | .check, .ok => some (w, some (if w.flags.reapBusy then .defer else .enter))
  | .defer, .ok => some ({ w with flags.reapPending := true }, none)
  | .enter, .ok => some ({ w with flags.reapBusy := true }, some .clear)
  | .clear, .ok => some ({ w with flags.reapPending := false }, some .list)
  | .list, .pids l =>
    if w.lists l then some (w, some (.each (l.filter fun pid => some pid ≠ w.flags.producerPid)))
    else none
  | .list, .fails _ => some (w, some .fail)
  | .each [], .ok => some (w, some .decide)
  | .each (pid :: pids), .ok =>
    match w.entries.find? pid with
    | some r => some (w, some (.wait pid r pids))
    | none => some (w, some (.register (.identify pid) pids))
  | .register r pids, a => (w.reg r a).map fun (w, out) =>
    match out with
    | .next r => (w, some (.register r pids))
    | .done pid r => (w, some (.wait pid r pids))
    | .raised .vanished => (w, some (.each pids))
    | .raised .other => (w, some .fail)
  | .wait pid r pids, a => (w.waitid r.fd a).map fun (w, out) =>
    match out with
    | .reaped p => ({ w with flags.reaped := w.flags.reaped ++ [p] }, some (.pop pid pids))
    | .running => (w, some (.each pids))
    | .raised => (w, some .fail)
  | .pop pid pids, .ok => some (w.pop pid, some (.each pids))
  | .decide, .ok => some (w, some (if w.flags.reapPending then .clear else .release))
  | .fail, .ok => some ({ w with flags.liveReapError := true }, some .release)
  | .release, .ok => some ({ w with flags.reapBusy := false }, some .again)
  | .again, .ok =>
    some (w, if w.flags.reapPending && w.flags.producerPid.isSome then some .entry else none)
  | _, _ => none

/-! ### The job -/

/-- What follows in `cleanup` when a signal has been sent. -/
inductive Sent where
  /-- The producer is waited for, after `SIGTERM` or after `SIGKILL`. -/
  | producer (kill : Bool)
  /-- In the loop. -/
  | loop (kill : Bool) (pids : List ℕ)
  deriving DecidableEq, Repr

/-- Where the job is. -/
inductive Main where
  | popen
  /-- The producer is registered, before live reaping or in `cleanup`. -/
  | registerProducer (r : Reg) (cleaning : Bool)
  | start
  | install
  /-- The call of `reap_terminated` in `start_live_reaping`. -/
  | first
  | waiting
  | stopping
  | uninstall
  /-- `cleanup(child)` begins. -/
  | poll
  | compare (pid : ℕ) (r : Record) (s : Sent)
  | signal (pid : ℕ) (r : Record) (s : Sent)
  /-- `child.wait` with a timeout. -/
  | waitProducer (pid : ℕ) (r : Record) (kill : Bool)
  | forget
  | list
  | each (pids : List ℕ)
  | register (r : Reg) (pids : List ℕ)
  | wait (pid : ℕ) (r : Record) (again : Bool) (pids : List ℕ)
  | term (pid : ℕ) (r : Record) (pids : List ℕ)
  | late (pid : ℕ) (r : Record) (pids : List ℕ)
  /-- The inner `except`. -/
  | vanished (pid : ℕ) (pids : List ℕ)
  | pop (pid : ℕ) (pids : List ℕ)
  | pause
  /-- Between the calls. -/
  | idle
  | restoring
  /-- The flag has been put back, and there are still no children. -/
  | closing
  | restored
  deriving DecidableEq, Repr

/-- The process of the `Popen` object, until it has been waited for. -/
def World.producer (w : World) : Option Proc := w.flags.child.bind fun c => w.os.byId c.id

/-- `child.poll()`. -/
def World.pollChild (w : World) : World :=
  match w.producer with
  | some p => if p.zombie then { w with os := w.os.reap p.id } else w
  | none => w

/-- A record is changed where it is. -/
def World.mark (w : World) (pid : ℕ) (r : Record) : World :=
  if (w.entries.find? pid).isSome then { w with entries := w.entries.set pid r } else w

/-- What comes behind a signal, or behind an error in sending one. -/
def World.sent (w : World) (pid : ℕ) (r : Record) : Sent → Option Exn → World × Main
  | .producer kill, none => (w, .waitProducer pid r kill)
  | .producer kill, some .vanished => (w, .waitProducer pid r kill)
  | .producer _, some .other => (w, .idle)
  | .loop false pids, none =>
    let r := { r with termSent := true }
    (w.mark pid r, .late pid r pids)
  | .loop true pids, none =>
    let r := { r with killSent := true }
    (w.mark pid r, .wait pid r true pids)
  | .loop _ pids, some .vanished => (w, .vanished pid pids)
  | .loop _ _, some .other => (w, .idle)

/-- All descriptors are closed, and there are no entries any more. -/
def World.closeAll (w : World) : World :=
  { w with os := (w.entries.values.map Record.fd).foldl Kernel.close w.os, entries := .empty }

/-- One statement of the job. -/
def World.main (w : World) : Main → Answer → Option (World × Main)
  | .popen, .fails _ => some (w, .idle)
  | .registerProducer r cleaning, a => (w.reg r a).map fun (w, out) =>
    match out with
    | .next r => (w, .registerProducer r cleaning)
    | .done pid r => (w, if cleaning then .compare pid r (.producer false) else .start)
    | .raised _ => (w, if cleaning then .idle else .poll)
  | .start, .ok =>
    some ({ w with flags.producerPid := w.flags.child.map Proc.pid }, .install)
  | .install, .ok => some ({ w with flags.installed := true }, .first)
  | .waiting, .ok =>
    (w.producer.filter Proc.zombie).map fun p => ({ w with os := w.os.reap p.id }, .stopping)
  -- `child.wait` is cut short
  | .waiting, .fails _ => some (w, .stopping)
  | .stopping, .ok => some ({ w with flags.producerPid := none }, .uninstall)
  | .uninstall, .ok => some ({ w with flags.installed := false }, .poll)
  | .poll, .ok =>
    let w := w.pollChild
    match w.producer with
    | none => some (w, .forget)
    | some p =>
      match w.entries.find? p.pid with
      | some r => some (w, .compare p.pid r (.producer false))
      | none => some (w, .registerProducer (.identify p.pid) true)
  | .compare pid r s, a => (w.compare pid r a).map fun e =>
    match e with
    | none => (w, .signal pid r s)
    | some e => w.sent pid r s (some e)
  | .signal pid r s, a => (w.signal pid r a).map fun (w, e) => w.sent pid r s e
  | .waitProducer _ _ _, .ok =>
    match w.producer with
    | none => some (w, .forget)
    | some p => if p.zombie then some ({ w with os := w.os.reap p.id }, .forget) else none
  | .waitProducer pid r kill, .no =>
    some (w, if kill then .idle else .compare pid r (.producer true))
  | .forget, .ok => some ((w.flags.child.map fun c => w.pop c.pid).getD w, .list)
  | .list, .pids l =>
    if w.lists l then
      if l = [] then some ({ w with returned := w.returned ++ [w.os.procs] }, .idle)
      else some (w, .each l)
    else none
  | .list, .fails _ => some (w, .idle)
  | .each [], .ok => some (w, .pause)
  | .each (pid :: pids), .ok =>
    match w.entries.find? pid with
    | some r => some (w, .wait pid r false pids)
    | none => some (w, .register (.identify pid) pids)
  | .register r pids, a => (w.reg r a).map fun (w, out) =>
    match out with
    | .next r => (w, .register r pids)
    | .done pid r => (w, .wait pid r false pids)
    | .raised .vanished => (w, .each pids)
    | .raised .other => (w, .idle)
  | .wait pid r again pids, a => (w.waitid r.fd a).map fun (w, out) =>
    match out with
    | .reaped _ => (w, .pop pid pids)
    | .running => (w, if again then .each pids else .term pid r pids)
    | .raised => (w, .idle)
  | .term pid r pids, .ok =>
    some (w, if r.termSent then .late pid r pids else .compare pid r (.loop false pids))
  | .late pid r pids, .ok =>
    some (w, if r.killSent then .wait pid r true pids else .compare pid r (.loop true pids))
  -- the deadline has not passed
  | .late pid r pids, .no => some (w, .wait pid r true pids)
  | .vanished pid pids, .ok =>
    match w.entries.find? pid with
    | some r => some (w, .wait pid r true pids)
    | none => some (w, .each pids)
  | .pop pid pids, .ok => some (w.pop pid, .each pids)
  | .pause, .ok => some (w, .list)
  -- the time is over, and there are still children
  | .pause, .no => if w.os.procs = [] then none else some (w, .idle)
  | .idle, .ok => some (w, .list)
  | .idle, .no => some (w, .restoring)
  | .restoring, .ok =>
    some ({ w with flags.producerPid := none },
      if w.flags.liveReapError || !w.os.procs.isEmpty then .idle else .closing)
  | .closing, .ok => some (w.closeAll, .restored)
  | .closing, .fails _ => some (w, .idle)
  | _, _ => none

/-! ### The machine -/

/-- The calls of the handler, the innermost first. -/
structure State where
  world : World
  main : Main
  handlers : List Frame

def State.init : State := ⟨.init, .popen, []⟩

inductive Act where
  /-- A process becomes a child. -/
  | adopt (pid ticks : ℕ)
  | exits (id : ℕ)
  /-- The job starts its producer. -/
  | popen (pid ticks : ℕ)
  /-- `SIGCHLD` is delivered. -/
  | deliver
  /-- The next statement, of the innermost call or of the job. -/
  | go (a : Answer)
  deriving DecidableEq, Repr

/-- The children that have terminated, but for one that has the pid of the producer. -/
def World.terminated (w : World) (producerPid : ℕ) : List ℕ :=
  (w.os.procs.filter fun p => p.zombie && p.pid ≠ producerPid).map Proc.id

/-- The handler is called. -/
def World.notice (w : World) : World :=
  match w.flags.producerPid with
  | some pid => { w with flags.due := w.terminated pid }
  | none => w

def step (s : State) : Act → Option State
  | .adopt pid ticks =>
    if s.world.os.byPid pid = none then some { s with world.os := s.world.os.fork pid ticks }
    else none
  | .exits id => some { s with world.os := s.world.os.exits id }
  | .popen pid ticks =>
    if s.main = .popen ∧ s.world.os.byPid pid = none then
      some { s with
        world.os := s.world.os.fork pid ticks
        world.flags.child := some ⟨s.world.os.next, pid, ticks, false⟩
        main := .registerProducer (.identify pid) false }
    else none
  | .deliver =>
    if s.world.flags.installed then
      some { s with world := s.world.notice, handlers := .entry :: s.handlers }
    else none
  | .go a =>
    match s.handlers with
    | f :: fs => (s.world.handle f a).map fun (w, g) => ⟨w, s.main, g.toList ++ fs⟩
    | [] =>
      if s.main = .first then some ⟨s.world.notice, .waiting, [.entry]⟩
      else (s.world.main s.main a).map fun (w, m) => ⟨w, m, []⟩

end Owned

end DeltaBox
