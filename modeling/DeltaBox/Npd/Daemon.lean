import DeltaBox.Lib.Dict
import DeltaBox.Lib.Machine

/-!
# The network daemon, its callers and the epoch

LLM calls leave the sandbox through a daemon (`npd.py`). A caller draws a request id that carries
the epoch it has read, writes the request to a file and the id to a FIFO. A worker of the daemon
makes the call, compares the id with the epoch, renames the response into a directory and writes the
id to a second FIFO. Two kinds of callers share the directory: the agent loop, which waits for the
notification, and the callers of `npd_client`, which poll for the file. A restore raises the epoch,
and a cold one empties the directory.

## What is modelled

* Every step at which another party may come in between is one of its own: reading the epoch,
  posting the request, the daemon's check, its rename and its notification, looking for a file,
  reading it, removing it, and handing it out.
* Agent processes are forked, dumped, restored and killed, with their `pending` calls, the
  notifications they have read and whatever response they hold.
* A file that cannot be read shows epoch 0, and a bump may fail to write the file.

The histories `submitted`, `written`, `removed` and `handed` say who has submitted a request, which
responses have been renamed into place, who has removed one in which epoch, and which one was handed
out in which epoch. The code has none of them.
-/

namespace DeltaBox

namespace Npd

/-- A request id: `ep<N>.<uuid>`, or only `<uuid>` if it is exempt from epochs. -/
structure Rid where
  /-- What `_parse_rid_epoch` returns. -/
  epoch : Option ℕ
  uuid : ℕ
  deriving DecidableEq, Repr

/-- It is exempt, or of epoch `n`. -/
def Rid.Live (rid : Rid) (n : ℕ) : Prop := rid.epoch = none ∨ rid.epoch = some n

instance (rid : Rid) (n : ℕ) : Decidable (rid.Live n) := inferInstanceAs (Decidable (_ ∨ _))

/-- Who touches the response directory. -/
inductive Party where
  | agent
  /-- A caller of `npd_client`. -/
  | client
  | controller
  deriving DecidableEq, Repr

/-- How far a worker of the daemon is with a request. -/
inductive Stage (R : Type*) where
  /-- It waits for the model. -/
  | chatting
  | answered (r : R)
  /-- The epoch was compared. -/
  | passed (r : R)
  /-- The response is in its place. -/
  | renamed

/-- Where an agent process is. -/
inductive Pc (R : Type*) where
  | top
  /-- `_send_llm_request` has drawn an id. -/
  | sending (rid : Rid)
  /-- It has posted the request. -/
  | posted (rid : Rid)
  /-- `_read_response_file` has read the response. -/
  | holding (rid : Rid) (r : R)
  /-- It has removed the file. -/
  | taken (rid : Rid) (r : R)

/-- An agent process. -/
structure Proc (R : Type*) where
  pc : Pc R
  pending : List Rid
  /-- `seen_epoch`. -/
  seenEpoch : ℕ
  /-- The notifications it has read. -/
  notifyBuf : List Rid

/-- How far `npd_client.wait` is. -/
inductive Poll (R : Type*) where
  | polling
  /-- The file exists. -/
  | found
  /-- It has been read. -/
  | loaded (r : R)

/-- A call of `npd_client.wait`. -/
structure Wait (R : Type*) where
  rid : Rid
  poll : Poll R

/-- How far a restore is. -/
inductive Ctl where
  | idle
  | bumped
  /-- `_unlink_pending_resp_files` has listed the directory. -/
  | sweeping (names : List Rid)
  deriving DecidableEq

/-- All parties and what they share. -/
structure State (R : Type*) where
  /-- `current_epoch`. -/
  epoch : ℕ
  /-- The epoch file. -/
  file : ℕ
  /-- The response directory. -/
  resp : Dict Rid R
  /-- Posted requests the daemon has not read. -/
  requests : List Rid
  workers : Dict Rid (Stage R)
  /-- The notification FIFO. -/
  notify : List Rid
  procs : Dict ℕ (Proc R)
  images : List (Proc R)
  /-- Ids that callers of `npd_client` have drawn and not posted. -/
  drawn : List Rid
  waits : Dict ℕ (Wait R)
  ctl : Ctl
  submitted : List (Rid × Party)
  written : List Rid
  removed : List (Rid × Party × ℕ)
  handed : List (Rid × ℕ)
  /-- What calls of `wait` have returned. -/
  returned : List (ℕ × Rid × R)

/-- One agent process, and nothing submitted. -/
def start {R : Type*} (p : ℕ) : State R where
  epoch := 0
  file := 0
  resp := Dict.empty
  requests := []
  workers := Dict.empty
  notify := []
  procs := Dict.empty.set p ⟨.top, [], 0, []⟩
  images := []
  drawn := []
  waits := Dict.empty
  ctl := .idle
  submitted := []
  written := []
  removed := []
  handed := []
  returned := []

/-- What can happen. -/
inductive Act (R : Type*) where
  /-- An agent process draws an id, posts the request and puts it on its list. -/
  | agentDraw (p uuid : ℕ) (readable : Bool)
  | agentPost (p : ℕ)
  | agentTrack (p : ℕ)
  /-- `sync_epoch`. -/
  | agentSync (p : ℕ) (readable : Bool)
  /-- `abort_pending_all`. -/
  | agentAbort (p : ℕ)
  /-- Read notifications. -/
  | readNotify (p n : ℕ)
  /-- Take the next one and read the response. -/
  | handle (p : ℕ)
  | agentUnlink (p : ℕ)
  /-- Answer with the response. -/
  | deliver (p : ℕ)
  | fork (p child : ℕ)
  | dump (p : ℕ)
  | load (i child : ℕ)
  | kill (p : ℕ)
  /-- `npd_client.submit` draws an id and posts the request. -/
  | draw (uuid : ℕ) (exempt readable : Bool)
  | post (rid : Rid)
  /-- `npd_client.wait` is called. -/
  | wait (w : ℕ) (rid : Rid)
  | poll (w : ℕ) (readable : Bool)
  /-- Open and read the file that was there. -/
  | read (w : ℕ)
  /-- Remove it and return. -/
  | ret (w : ℕ)
  /-- Its deadline passes. -/
  | expire (w : ℕ)
  /-- A worker loads a request. -/
  | work (rid : Rid)
  | answer (rid : Rid) (r : R)
  | check (rid : Rid) (readable : Bool)
  /-- The response is renamed into place, or writing it fails. -/
  | rename (rid : Rid) (ok : Bool)
  | notify (rid : Rid) (ok : Bool)
  /-- `_bump_epoch`. -/
  | bump (persisted : Bool)
  /-- List the directory to empty it. -/
  | list (names : List Rid)
  /-- Remove the next file of the list. -/
  | unlink
  | done

variable {R : Type*}

/-- `_read_current_epoch`. -/
def State.readEpoch (s : State R) (readable : Bool) : ℕ := if readable then s.file else 0

/-- Remove a response, if it is there. -/
def State.remove (s : State R) (party : Party) (rid : Rid) : State R :=
  match s.resp.find? rid with
  | some _ => { s with resp := s.resp.erase rid, removed := (rid, party, s.epoch) :: s.removed }
  | none => s

/-- Remove several. -/
def State.removeAll (s : State R) (party : Party) (rids : List Rid) : State R :=
  rids.foldl (fun s rid => s.remove party rid) s

/-- Replace a process. -/
def State.put (s : State R) (p : ℕ) (q : Proc R) : State R := { s with procs := s.procs.set p q }

/-- Has the id been drawn before? -/
def State.Used (s : State R) (uuid : ℕ) : Prop := ∃ x ∈ s.submitted, x.1.uuid = uuid

instance (s : State R) (uuid : ℕ) : Decidable (s.Used uuid) :=
  inferInstanceAs (Decidable (∃ x ∈ s.submitted, _))

/-- The pending calls that `sync_epoch` forgets. -/
def Proc.stale (q : Proc R) (current : ℕ) : List Rid :=
  if current = q.seenEpoch then [] else q.pending.filter fun rid => rid.epoch ≠ some current

/-- `sync_epoch`. -/
def Proc.sync (q : Proc R) (current : ℕ) : Proc R :=
  if current = q.seenEpoch then q
  else { q with
    seenEpoch := current, pending := q.pending.filter fun rid => rid.epoch = some current }

/-- A notification. One that is not on the list is dropped. For one whose file is gone the agent
answers that there is no response. -/
def Proc.handle (q : Proc R) (resp : Dict Rid R) : Option (Proc R) :=
  match q.notifyBuf with
  | [] => none
  | rid :: rest =>
    if rid ∈ q.pending then
      match resp.find? rid with
      | some r => some { q with notifyBuf := rest, pc := .holding rid r }
      | none => some { q with notifyBuf := rest, pending := q.pending.filter (· ≠ rid) }
    else some { q with notifyBuf := rest }

/-- A step of an agent process. -/
def agentStep (s : State R) (p : ℕ) (q : Proc R) : Act R → Option (State R)
  | .agentDraw _ uuid readable =>
    match q.pc with
    | .top =>
      if s.Used uuid then none
      else
        let rid : Rid := ⟨some (s.readEpoch readable), uuid⟩
        some { s.put p { q with pc := .sending rid } with
          submitted := (rid, .agent) :: s.submitted }
    | _ => none
  | .agentPost _ =>
    match q.pc with
    | .sending rid =>
      some { s.put p { q with pc := .posted rid } with requests := s.requests ++ [rid] }
    | _ => none
  | .agentTrack _ =>
    match q.pc with
    | .posted rid => some (s.put p { q with pc := .top, pending := q.pending ++ [rid] })
    | _ => none
  | .agentSync _ readable =>
    match q.pc with
    | .top =>
      let current := s.readEpoch readable
      some ((s.removeAll .agent (q.stale current)).put p (q.sync current))
    | _ => none
  | .agentAbort _ =>
    match q.pc with
    | .top => some ((s.removeAll .agent q.pending).put p { q with pending := [] })
    | _ => none
  | .readNotify _ n =>
    match q.pc with
    | .top =>
      some { s.put p { q with notifyBuf := q.notifyBuf ++ s.notify.take n } with
        notify := s.notify.drop n }
    | _ => none
  | .handle _ =>
    match q.pc with
    | .top => (q.handle s.resp).map (s.put p)
    | _ => none
  | .agentUnlink _ =>
    match q.pc with
    | .holding rid r => some ((s.remove .agent rid).put p { q with pc := .taken rid r })
    | _ => none
  | .deliver _ =>
    match q.pc with
    | .taken rid _ =>
      some { s.put p { q with pc := .top, pending := q.pending.filter (· ≠ rid) } with
        handed := (rid, s.epoch) :: s.handed }
    | _ => none
  | .fork _ child =>
    match q.pc, s.procs.find? child with
    | .top, none => some (s.put child q)
    | _, _ => none
  | .dump _ => some { s with images := s.images ++ [q] }
  | .kill _ => some { s with procs := s.procs.erase p }
  | _ => none

/-- A step of a call of `wait`. -/
def waitStep (s : State R) (w : ℕ) (x : Wait R) : Act R → Option (State R)
  | .poll _ readable =>
    match x.poll with
    | .polling =>
      match s.resp.find? x.rid with
      | some _ => some { s with waits := s.waits.set w { x with poll := .found } }
      | none =>
        -- an exempt id is never cancelled
        if x.rid.epoch.any (· < s.readEpoch readable) then some { s with waits := s.waits.erase w }
        else some s
    | _ => none
  | .read _ =>
    match x.poll with
    | .found =>
      match s.resp.find? x.rid with
      | some r => some { s with waits := s.waits.set w { x with poll := .loaded r } }
      | none => some { s with waits := s.waits.set w { x with poll := .polling } }
    | _ => none
  | .ret _ =>
    match x.poll with
    | .loaded r =>
      some { s.remove .client x.rid with
        waits := s.waits.erase w, handed := (x.rid, s.epoch) :: s.handed
        returned := (w, x.rid, r) :: s.returned }
    | _ => none
  | .expire _ => some { s with waits := s.waits.erase w }
  | _ => none

/-- A step of a worker of the daemon. -/
def workerStep (s : State R) (rid : Rid) (stage : Stage R) : Act R → Option (State R)
  | .answer _ r =>
    match stage with
    | .chatting => some { s with workers := s.workers.set rid (.answered r) }
    | _ => none
  | .check _ readable =>
    match stage with
    | .answered r =>
      if rid.epoch.any (· < s.readEpoch readable) then
        some { s with workers := s.workers.erase rid }
      else some { s with workers := s.workers.set rid (.passed r) }
    | _ => none
  | .rename _ ok =>
    match stage with
    | .passed r =>
      if ok then
        some { s with
          resp := s.resp.set rid r, written := rid :: s.written
          workers := s.workers.set rid .renamed }
      else some { s with workers := s.workers.erase rid }
    | _ => none
  | .notify _ ok =>
    match stage with
    | .renamed =>
      some { s with
        notify := if ok then s.notify ++ [rid] else s.notify
        workers := s.workers.erase rid }
    | _ => none
  | _ => none

/-- One step. -/
def step (s : State R) (a : Act R) : Option (State R) :=
  match a with
  | .agentDraw p _ _ | .agentPost p | .agentTrack p | .agentSync p _ | .agentAbort p
  | .readNotify p _ | .handle p | .agentUnlink p | .deliver p | .fork p _ | .dump p | .kill p =>
    (s.procs.find? p).bind fun q => agentStep s p q a
  | .poll w _ | .read w | .ret w | .expire w => (s.waits.find? w).bind fun x => waitStep s w x a
  | .answer rid _ | .check rid _ | .rename rid _ | .notify rid _ =>
    (s.workers.find? rid).bind fun stage => workerStep s rid stage a
  | .load i child =>
    match s.images[i]?, s.procs.find? child with
    | some q, none => some (s.put child q)
    | _, _ => none
  | .draw uuid exempt readable =>
    if s.Used uuid then none
    else
      let rid : Rid := ⟨if exempt then none else some (s.readEpoch readable), uuid⟩
      some { s with drawn := rid :: s.drawn, submitted := (rid, .client) :: s.submitted }
  | .post rid =>
    if rid ∈ s.drawn then
      some { s with drawn := s.drawn.filter (· ≠ rid), requests := s.requests ++ [rid] }
    else none
  | .wait w rid =>
    match s.waits.find? w with
    | none =>
      if (rid, Party.client) ∈ s.submitted then
        some { s with waits := s.waits.set w ⟨rid, .polling⟩ }
      else none
    | some _ => none
  | .work rid =>
    if rid ∈ s.requests ∧ s.workers.find? rid = none then
      some { s with
        requests := s.requests.filter (· ≠ rid), workers := s.workers.set rid .chatting }
    else none
  | .bump persisted =>
    if s.ctl = .idle then
      some { s with
        ctl := .bumped, epoch := s.epoch + 1, file := if persisted then s.epoch + 1 else s.file }
    else none
  | .list names => if s.ctl = .bumped then some { s with ctl := .sweeping names } else none
  | .unlink =>
    match s.ctl with
    | .sweeping (rid :: names) => some { s.remove .controller rid with ctl := .sweeping names }
    | _ => none
  | .done => if s.ctl = .idle then none else some { s with ctl := .idle }

end Npd

end DeltaBox
