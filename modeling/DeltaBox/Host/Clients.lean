import DeltaBox.Lib.Dict
import DeltaBox.Lib.Lines

/-!
# The host's two request clients

`AgentProbe` (`control_channel.py`) and `WorkerClient` (`worker_client.py`) talk to the process in
the sandbox over a pair of FIFOs, one JSON object a line. Both write a request, then read reply
lines until one carries the request's `ctrl_id`, and both give up at a deadline. They differ in
what they do with the rest: the probe gives up at a line it cannot decode and throws its buffer
away whenever a call fails, the client skips such a line and keeps its buffer.

Everything else is the environment. What the process writes and when, the bytes that earlier calls
and abandoned branches have left, where a write is cut short and how often a call looks at the
clock before its deadline are all arguments.

## Main definitions

* `Codec` — JSON values, `json.dumps` and `json.loads`
* `control`, `controlFresh`, `request` — the calls of `AgentProbe`
* `call`, `reopen` — the calls of `WorkerClient`
* `step` — any of them, or bytes that come and go between two calls
-/

namespace DeltaBox

namespace Host

open Lines

/-- Bytes. -/
abbrev Bytes := List UInt8

/-- A JSON object. -/
abbrev Object (V : Type*) := Dict String V

/-- What `json.loads` makes of a line. -/
inductive Loaded (V : Type*) where
  /-- It raises a `ValueError`. -/
  | invalid
  /-- A value that is not an object. -/
  | other
  | object (o : Object V)

/-- The values of the language as far as the clients look at them, and the JSON library. `loads`
gets bytes, `loadsText` gets them through `decode(errors="replace")`. -/
structure Codec (V : Type*) where
  /-- `None`. -/
  null : V
  str : String → V
  int : ℕ → V
  /-- The value in a condition. -/
  truthy : V → Bool
  /-- `v is True`. -/
  isTrue : V → Bool
  dumps : Object V → Bytes
  loads : Bytes → Loaded V
  loadsText : Bytes → Loaded V

/-- The bytes of a text without special characters. -/
def ascii (t : String) : Bytes := t.toList.map fun c => c.toNat.toUInt8

/-- Why a call gives up. -/
inductive Err where
  | timeout
  /-- A system call failed. -/
  | os
  /-- The epoch file cannot be read. -/
  | epoch
  /-- `json.loads` raised. -/
  | json
  /-- The reply is not an object. -/
  | notObject
  /-- The client has no open FIFOs. -/
  | notConnected
  /-- The restored worker did not answer the handshake with `ok`. -/
  | notReady
  deriving DecidableEq, Repr

/-- The newline. -/
def nl : UInt8 := 10

/-- The record separator in front of a request of the probe. -/
def rs : UInt8 := 30

/-- The bytes one `os.read` asks for. -/
def block : ℕ := 65536

/-- The state of an `AgentProbe`. -/
structure AgentProbe where
  outBuf : Bytes
  ctrlSeq : ℕ

/-- The state of a `WorkerClient`. -/
structure WorkerClient where
  /-- Both FIFOs are open. -/
  connected : Bool
  buf : Bytes
  seq : ℕ

/-- The clients and the FIFOs. -/
structure State where
  /-- `agent.in`: what the process has not read. -/
  fin : Bytes
  /-- `agent.out`: what the host has not read. -/
  fout : Bytes
  probe : AgentProbe
  worker : WorkerClient
  /-- Every `ctrl_id` a client has made up so far. -/
  issued : List String

/-- Nothing sent and nothing received. -/
def start : State := ⟨[], [], ⟨[], 0⟩, ⟨false, [], 0⟩, []⟩

/-- A request and how it fares. -/
structure Request (V : Type*) where
  payload : Object V
  /-- If the frame is not written completely: the bytes that are, and the reason. -/
  cut : Option (ℕ × Err)
  /-- One entry for each look at the clock, while waiting for the reply, that finds time left: the
  bytes that have come in since the look before. -/
  looks : List Bytes

/-- What a failed `control` returns. -/
structure Failure (V : Type*) where
  err : Err
  ctrl : V
  ctrlId : V
  epoch : Option ℕ
  chunksRead : ℕ
  bytesRead : ℕ
  outBufLen : ℕ
  skippedCtrlIds : List V

variable {V : Type*} [DecidableEq V] (J : Codec V)

namespace Codec

/-- `o.get(key)`. -/
def get (o : Object V) (key : String) : V := (o.find? key).getD J.null

omit [DecidableEq V] in
/-- `reply.setdefault(key, v)`. -/
def setdefault (o : Object V) (key : String) (v : V) : Object V :=
  match o.find? key with
  | some _ => o
  | none => o.set key v

end Codec

/-! ### AgentProbe -/

/-- `f"ep{epoch}.ctrl-{self._ctrl_seq}"`. -/
def probeId (epoch seq : ℕ) : String := "ep" ++ toString epoch ++ ".ctrl-" ++ toString seq

/-- The request with its identity. -/
def probeRequest (payload : Object V) (epoch seq : ℕ) : Object V :=
  (payload.set "ctrl_id" (J.str (probeId epoch seq))).set "_replay_epoch" (J.int epoch)

/-- What `control` makes of a reply line. -/
def probeJudge (req : Object V) (line : Bytes) : Verdict (Object V) Err :=
  match J.loads line with
  | .invalid => .fail .json
  | .other => .fail .notObject
  | .object o =>
    if J.get o "ctrl_id" ≠ J.get req "ctrl_id" ∨ J.get o "ctrl" ≠ J.get req "ctrl" then .skip
    else .take o

/-- The `ctrl_id` of a skipped line. -/
def skippedId (line : Bytes) : V :=
  match J.loads line with
  | .object o => J.get o "ctrl_id"
  | _ => J.null

/-- `AgentProbe.reset`. -/
def reset (s : State) : State := { s with probe := { s.probe with outBuf := [] } }

/-- `AgentProbe._send`: the bytes of the frame that reach the FIFO. -/
def probeFrame (req : Object V) : Bytes := rs :: J.dumps req ++ [nl]

/-- The reply loop of `control`. -/
def probeReply (req : Object V) (looks : List Bytes) (s : State) :
    Result UInt8 (Object V) Err :=
  pump nl block true (probeJudge J req) looks s.probe.outBuf s.fout

/-- What a failed `control` reports, before the reset. -/
def failure (req : Object V) (epoch : Option ℕ) (err : Err) (res : Result UInt8 (Object V) Err) :
    Failure V :=
  { err, ctrl := J.get req "ctrl", ctrlId := J.get req "ctrl_id", epoch
    chunksRead := (res.chunks.filter (· ≠ [])).length
    bytesRead := res.chunks.flatten.length
    outBufLen := res.buf.length
    skippedCtrlIds := (res.skipped.map (skippedId J)).drop (res.skipped.length - 16) }

/-- `AgentProbe.control`. The epoch is what `_epoch` reads, or nothing if it raises, and `wall` is
the time the call took. -/
def control (c : Request V) (epoch : Option ℕ) (wall : V) (s : State) :
    State × (Object V ⊕ Failure V) :=
  match epoch with
  | none => (reset s, .inr (failure J c.payload none .epoch ⟨.late, s.probe.outBuf, [], [], []⟩))
  | some e =>
    let seq := s.probe.ctrlSeq + 1
    let req := probeRequest J c.payload e seq
    let s := { s with probe := { s.probe with ctrlSeq := seq }, issued := probeId e seq :: s.issued }
    match c.cut with
    | some (k, err) =>
      (reset { s with fin := s.fin ++ (probeFrame J req).take k },
        .inr (failure J req e err ⟨.late, s.probe.outBuf, [], [], []⟩))
    | none =>
      let res := probeReply J req c.looks s
      let s := { s with
        fin := s.fin ++ probeFrame J req, fout := res.fifo
        probe := { s.probe with outBuf := res.buf } }
      match res.ending with
      | .take r => (s, .inl (Codec.setdefault r "wall_ms" wall))
      | .fail err => (reset s, .inr (failure J req e err res))
      | .late => (reset s, .inr (failure J req e .timeout res))

/-- `AgentProbe.control_fresh`. -/
def controlFresh (c : Request V) (epoch : Option ℕ) (wall : V) (s : State) :
    State × (Object V ⊕ Failure V) :=
  let (s, out) := control J c epoch wall (reset s)
  (reset s, out)

/-- `AgentProbe.request`: it takes the first reply that comes, whosever it is. -/
def request (c : Request V) (epoch : Option ℕ) (s : State) : State × (Object V ⊕ Err) :=
  match epoch with
  | none => (reset s, .inr .epoch)
  | some e =>
    let frame := probeFrame J (c.payload.set "_replay_epoch" (J.int e))
    match c.cut with
    | some (k, err) => (reset { s with fin := s.fin ++ frame.take k }, .inr err)
    | none =>
      let judge (line : Bytes) : Verdict (Object V) Err :=
        match J.loads line with
        | .invalid => .fail .json
        | .other => .fail .notObject
        | .object o => .take o
      let res := pump nl block true judge c.looks s.probe.outBuf s.fout
      let s := { s with
        fin := s.fin ++ frame, fout := res.fifo, probe := { s.probe with outBuf := res.buf } }
      match res.ending with
      | .take r => (s, .inl r)
      | .fail err => (reset s, .inr err)
      | .late => (reset s, .inr .timeout)

/-! ### WorkerClient -/

/-- `f"h{self._seq}.{uuid.uuid4().hex[:8]}"`. -/
def workerId (seq : ℕ) (uuid : String) : String := "h" ++ toString seq ++ "." ++ uuid

/-- `payload.get("ctrl_id") or …`. -/
def ownId (payload : Object V) (seq : ℕ) (uuid : String) : V :=
  if J.truthy (J.get payload "ctrl_id") then J.get payload "ctrl_id" else J.str (workerId seq uuid)

/-- What `call` makes of a reply line. Whatever is not its own reply is skipped. -/
def workerJudge (ctrlId : V) (line : Bytes) : Verdict (Object V) Empty :=
  match J.loadsText line with
  | .object o => if J.get o "ctrl_id" ≠ ctrlId then .skip else .take o
  | _ => .skip

/-- `WorkerClient.close`. -/
def close (s : State) : State :=
  { s with worker := { s.worker with connected := false, buf := [] } }

/-- `WorkerClient.connect`, which finds both FIFOs in time or does not. -/
def connect (found : Bool) (s : State) : State × Bool :=
  if s.worker.connected ∨ found then
    ({ s with worker := { s.worker with connected := true, buf := [] } }, true)
  else (close s, false)

/-- `WorkerClient._drain`: read until there is nothing left, or the deadline passes. -/
def drain : List Bytes → Bytes → Bytes × Bool
  | [], fout => (fout, false)
  | bs :: looks, fout =>
    if fout ++ bs = [] then ([], true) else drain looks ((fout ++ bs).drop block)

/-- The reply loop of `call`. -/
def workerReply (ctrlId : V) (looks : List Bytes) (s : State) : Result UInt8 (Object V) Empty :=
  pump nl block false (workerJudge J ctrlId) looks s.worker.buf s.fout

/-- `WorkerClient.call`. -/
def call (c : Request V) (uuid : String) (s : State) : State × (Object V ⊕ Err) :=
  if s.worker.connected then
    let seq := s.worker.seq + 1
    let ctrlId := ownId J c.payload seq uuid
    let frame := J.dumps (c.payload.set "ctrl_id" ctrlId) ++ [nl]
    let s := { s with
      worker := { s.worker with seq }
      issued := if J.truthy (J.get c.payload "ctrl_id") then s.issued
        else workerId seq uuid :: s.issued }
    match c.cut with
    | some (k, err) => ({ s with fin := s.fin ++ frame.take k }, .inr err)
    | none =>
      let res := workerReply J ctrlId c.looks s
      let s := { s with
        fin := s.fin ++ frame, fout := res.fifo, worker := { s.worker with buf := res.buf } }
      match res.ending with
      | .take r => (s, .inl r)
      | .late => (s, .inr .timeout)
  else (s, .inr .notConnected)

/-- How `reopen` fares: does `connect` find the FIFOs, what comes in while it drains, and the
handshake. -/
structure Reopening (V : Type*) where
  found : Bool
  drainLooks : List Bytes
  cut : Option (ℕ × Err)
  looks : List Bytes
  uuid : String

/-- `WorkerClient.reopen`. -/
def reopen (c : Reopening V) (s : State) : State × Option Err :=
  let (s, found) := connect c.found (close s)
  if found then
    let (fout, drained) := drain c.drainLooks s.fout
    let s := { s with fout, worker := { s.worker with buf := [] } }
    if drained then
      let payload : Object V := Dict.empty.set "ctrl" (J.str "state")
      match call J ⟨payload, c.cut, c.looks⟩ c.uuid s with
      | (s, .inl ready) =>
        if J.isTrue (J.get ready "ok") then (s, none) else (close s, some .notReady)
      | (s, .inr err) => (close s, some err)
    else (close s, some .timeout)
  else (s, some .timeout)

/-! ### Runs -/

/-- What happens to the clients and the FIFOs. -/
inductive Act (V : Type*) where
  /-- Bytes come in between two calls: late replies, whole or in part. -/
  | arrive (bs : Bytes)
  /-- The process reads from `agent.in`. -/
  | consume (n : ℕ)
  /-- Every end of `agent.out` is closed, and what it held is gone. -/
  | vanish
  | control (c : Request V) (epoch : Option ℕ) (wall : V)
  | controlFresh (c : Request V) (epoch : Option ℕ) (wall : V)
  | request (c : Request V) (epoch : Option ℕ)
  | reset
  | call (c : Request V) (uuid : String)
  | connect (found : Bool)
  | reopen (c : Reopening V)
  | close

/-- One of them. -/
def step (s : State) : Act V → State
  | .arrive bs => { s with fout := s.fout ++ bs }
  | .consume n => { s with fin := s.fin.drop n }
  | .vanish => { s with fout := [] }
  | .control c epoch wall => (control J c epoch wall s).1
  | .controlFresh c epoch wall => (controlFresh J c epoch wall s).1
  | .request c epoch => (request J c epoch s).1
  | .reset => reset s
  | .call c uuid => (call J c uuid s).1
  | .connect found => (connect found s).1
  | .reopen c => (reopen J c s).1
  | .close => close s

/-- The state after a sequence of them. -/
def run (acts : List (Act V)) : State := acts.foldl (step J) start

end Host

end DeltaBox
