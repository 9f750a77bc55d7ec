import DeltaBox.Host.Clients
import DeltaBox.Lib.Machine
import Mathlib.Data.List.DropRight
import Mathlib.Logic.Function.Basic

/-!
# The replay agent's command loop across restores

`agent.py` reads requests from a FIFO that survives every process: lines of JSON behind a record
separator, each with the epoch its sender has read from a file. A restore is meant to separate the
branches by moving that file on. The controller does so at the end of `restore_action`, when the new
process already exists.

## What is modelled

* One `AgentProbe` that reads the epoch, writes its frame in chunks, and may give up anywhere.
* Any number of processes running the loop. Reading a block, cutting and decoding a line, reading
  the epoch, comparing, and acting on the request are separate steps, because a process may be
  dumped between any two of them. A process that is stopped is one that makes no step.
* Checkpoints: the loop forks when it is at its top, and CRIU dumps a process wherever it is.
* `restore_action`: kill, then either a template forks, or CRIU loads an image, or the first fails
  and the second follows, then the epoch is raised. It may fail at every point. Writing the epoch
  file may fail too, which is only logged.

The history `sent` has every request with the number of restores that had begun. For each process,
`since` is the restore that produced it and `base` the epoch file at its beginning.
-/

namespace DeltaBox

namespace Replay

open Lines
open Host (Bytes Object Codec nl rs block probeRequest probeFrame)

/-- Where a process is in its loop. -/
inductive Pc (V : Type*) where
  /-- At the top of the loop, or about to cut a line. -/
  | top
  /-- It has decoded a request. -/
  | parsed (o : Object V)
  /-- It has read the epoch to compare it with. -/
  | looked (o : Object V) (epoch : ℕ)
  /-- It acts on the request. -/
  | running (o : Object V)

/-- A process that runs the loop. -/
structure Proc (V : Type*) where
  /-- `f_in_buf`. -/
  buf : Bytes
  pc : Pc V
  /-- `seen_epoch`. -/
  seenEpoch : ℕ
  /-- `pending`: the epoch and the rest of each request id. -/
  pending : List (ℕ × String)
  /-- The restore that produced it, counting from 1. Processes of no restore have 0. -/
  since : ℕ
  /-- The epoch file when that restore began. -/
  base : ℕ

/-- A request and when it was sent. -/
structure Sent (V : Type*) where
  request : Object V
  /-- `_replay_epoch`. -/
  tag : ℕ
  /-- The restores that had begun when the sender read the epoch. -/
  begun : ℕ

/-- How far a restore has got. -/
inductive Ctl where
  | idle
  | begun
  /-- The active processes are killed. -/
  | killed
  /-- A template was told to fork, and it did. -/
  | forked
  /-- CRIU has restored a process. -/
  | loaded
  /-- The epoch is raised. After a cold restore the agent is told to forget its calls. -/
  | bumped (cold : Bool)
  deriving DecidableEq, Repr

/-- The FIFO, the sender, the controller and the processes. -/
structure State (V : Type*) where
  /-- `agent.in`. -/
  fifo : Bytes
  /-- `_ctrl_seq`. -/
  seq : ℕ
  /-- What the sender has not yet written of its frame. -/
  writing : Bytes
  /-- `current_epoch`. -/
  epoch : ℕ
  /-- The epoch file. -/
  file : ℕ
  procs : ℕ → Option (Proc V)
  /-- What CRIU has dumped: a process, and what was in the FIFO. -/
  images : List (Proc V × Bytes)
  ctl : Ctl
  /-- The restores that have begun. -/
  begun : ℕ
  /-- The epoch file when the last of them began. -/
  base : ℕ
  sent : List (Sent V)

/-- A process at the top of its loop. -/
def Proc.fresh {V : Type*} : Proc V := ⟨[], .top, 0, [], 0, 0⟩

/-- One process, nothing sent. -/
def start {V : Type*} (p : ℕ) : State V where
  fifo := []
  seq := 0
  writing := []
  epoch := 0
  file := 0
  procs := Function.update (fun _ => none) p (some Proc.fresh)
  images := []
  ctl := .idle
  begun := 0
  base := 0
  sent := []

/-- What can happen. -/
inductive Act (V : Type*) where
  /-- `control` reads the epoch and starts to write. -/
  | send (payload : Object V)
  /-- The next bytes of the frame reach the FIFO. -/
  | write (n : ℕ)
  /-- The sender runs into its deadline. -/
  | giveUp
  /-- Every end of the FIFO is closed, and what it held is gone. -/
  | lose
  /-- `sync_epoch` at the top of the loop. -/
  | sync (p : ℕ)
  /-- Read a block. -/
  | read (p : ℕ)
  /-- Cut a line and decode it. -/
  | take (p : ℕ)
  /-- Read the epoch file to compare the request with. -/
  | look (p : ℕ) (readable : Bool)
  /-- Compare. -/
  | compare (p : ℕ)
  /-- Finish the request. -/
  | finish (p : ℕ) (uuid : String)
  /-- A checkpoint's fork. -/
  | fork (p child : ℕ)
  /-- A checkpoint's dump. -/
  | dump (p : ℕ)
  /-- `restore_action` is called. -/
  | begin
  | kill (ps : List ℕ)
  /-- The template `p` forks for the restore. -/
  | wake (p child : ℕ)
  /-- CRIU restores image `i`, with or without what the FIFO held. -/
  | load (i child : ℕ) (refill : Bool)
  /-- `_bump_epoch`. -/
  | bump (persisted : Bool)
  /-- `_write_ctrl_abort_pending_all`. -/
  | abort
  /-- `restore_action` returns. -/
  | done
  /-- It raises. -/
  | fail

variable {V : Type*} [DecidableEq V] (J : Codec V) (cap : ℕ)

/-- `line_b.rsplit(b"\x1e", 1)[-1]`. -/
def lastRecord (line : Bytes) : Bytes := line.rtakeWhile (· ≠ rs)

omit [DecidableEq V] in
/-- `sync_epoch`: forget the calls of other epochs. -/
def Proc.sync (q : Proc V) (current : ℕ) : Proc V :=
  if current = q.seenEpoch then q
  else { q with seenEpoch := current, pending := q.pending.filter (·.1 = current) }

/-- The commands that are answered at once. -/
def answered : List String :=
  ["replay_ready", "active_worker_load", "active_worker_status", "worker_index_build",
    "worker_index_status", "worker_index_snapshot", "worker_index_restore_snapshot", "worker_exec"]

/-- Act on a request: `abort_pending_all` forgets the calls, the commands above are answered, and
messages start a call. -/
def Proc.act (q : Proc V) (o : Object V) (file : ℕ) (uuid : String) : Proc V :=
  if J.get o "ctrl" = J.str "abort_pending_all" then { q with pc := .top, pending := [] }
  else if J.get o "ctrl" ∈ answered.map J.str then { q with pc := .top }
  else if J.truthy (J.get o "messages") then
    { q with pc := .top, pending := (file, uuid) :: q.pending }
  else { q with pc := .top }

/-- The frame of `_write_ctrl_abort_pending_all`. -/
def abortFrame (epoch : ℕ) : Bytes :=
  probeFrame J ((Dict.empty.set "ctrl" (J.str "abort_pending_all")).set "_replay_epoch"
    (J.int epoch))

omit [DecidableEq V] in
/-- Replace a process. -/
def State.put (s : State V) (p : ℕ) (q : Proc V) : State V :=
  { s with procs := Function.update s.procs p (some q) }

/-- Cut a line and decode it. A line that is no JSON object is logged and forgotten. -/
def Proc.take (q : Proc V) : Option (Proc V) :=
  match split1 nl q.buf with
  | none => none
  | some (line, rest) =>
    match J.loadsText (lastRecord line) with
    | .object o => some { q with buf := rest, pc := .parsed o }
    | _ => some { q with buf := rest }

/-- Is the request of the current epoch? With strict epochs nothing else decides. -/
def Proc.compare (q : Proc V) (o : Object V) (epoch : ℕ) : Proc V :=
  if J.get o "_replay_epoch" = J.int epoch then { q with pc := .running o } else { q with pc := .top }

omit [DecidableEq V] in
/-- The process a restore makes of a memory: its steps belong to this restore. -/
def State.produce (s : State V) (q : Proc V) : Proc V := { q with since := s.begun, base := s.base }

/-- One step. -/
def step (s : State V) : Act V → Option (State V)
  | .send payload =>
    if s.writing = [] then
      let req := probeRequest J payload s.file (s.seq + 1)
      some { s with
        seq := s.seq + 1, writing := probeFrame J req, sent := ⟨req, s.file, s.begun⟩ :: s.sent }
    else none
  | .write n => some { s with fifo := s.fifo ++ s.writing.take n, writing := s.writing.drop n }
  | .giveUp => some { s with writing := [] }
  | .lose => some { s with fifo := [] }
  | .sync p =>
    match s.procs p with
    | some q => match q.pc with
      | .top => some (s.put p (q.sync s.file))
      | _ => none
    | none => none
  | .read p =>
    match s.procs p with
    | some q => match q.pc with
      | .top =>
        if nl ∈ q.buf ∨ cap ≤ q.pending.length then none
        else some { s.put p { q with buf := q.buf ++ s.fifo.take block } with
          fifo := s.fifo.drop block }
      | _ => none
    | none => none
  | .take p =>
    match s.procs p with
    | some q => match q.pc with
      | .top => if cap ≤ q.pending.length then none else (q.take J).map (s.put p)
      | _ => none
    | none => none
  | .look p readable =>
    match s.procs p with
    | some q => match q.pc with
      | .parsed o =>
        -- `_read_current_epoch` returns 0 when the file cannot be read
        let current := if readable then s.file else 0
        some (s.put p { q.sync current with pc := .looked o current })
      | _ => none
    | none => none
  | .compare p =>
    match s.procs p with
    | some q => match q.pc with
      | .looked o epoch => some (s.put p (q.compare J o epoch))
      | _ => none
    | none => none
  | .finish p uuid =>
    match s.procs p with
    | some q => match q.pc with
      | .running o => some (s.put p (q.act J o s.file uuid))
      | _ => none
    | none => none
  | .fork p child =>
    match s.procs p, s.procs child with
    | some q, none => match q.pc with
      | .top => some (s.put child q)
      | _ => none
    | _, _ => none
  | .dump p =>
    match s.procs p with
    | some q => some { s with images := s.images ++ [(q, s.fifo)] }
    | none => none
  | .begin =>
    if s.ctl = .idle then
      some { s with ctl := .begun, begun := s.begun + 1, base := s.file }
    else none
  | .kill ps =>
    if s.ctl = .begun then
      some { s with ctl := .killed, procs := fun p => if p ∈ ps then none else s.procs p }
    else none
  | .wake p child =>
    match s.procs p, s.procs child, s.ctl with
    | some q, none, .killed => match q.pc with
      | .top => some { s.put child (s.produce q) with ctl := .forked }
      | _ => none
    | _, _, _ => none
  | .load i child refill =>
    match s.images[i]?, s.procs child with
    | some (q, held), none =>
      -- a warm restore whose template did not answer goes on with CRIU
      if s.ctl = .killed ∨ s.ctl = .forked then
        some { s.put child (s.produce q) with
          ctl := .loaded, fifo := if refill then s.fifo ++ held else s.fifo }
      else none
    | _, _ => none
  | .bump persisted =>
    if s.ctl = .forked ∨ s.ctl = .loaded then
      some { s with
        ctl := .bumped (s.ctl = .loaded), epoch := s.epoch + 1
        file := if persisted then s.epoch + 1 else s.file }
    else none
  | .abort =>
    if s.ctl = .bumped true then
      some { s with ctl := .bumped false, fifo := s.fifo ++ abortFrame J s.epoch }
    else none
  | .done =>
    if s.ctl = .bumped true ∨ s.ctl = .bumped false then some { s with ctl := .idle } else none
  | .fail => if s.ctl = .idle then none else some { s with ctl := .idle }

end Replay

end DeltaBox
