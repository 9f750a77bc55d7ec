import DeltaBox.Lib.Machine
import DeltaBox.Lib.Lines

/-!
# The channel of `exec_action`

`LocalDeltaBoxBackend.exec_action` writes a JSON line into the FIFO of the worker and reads one line
back (`backends/deltabox/local_backend.py`). The worker is `ShellServer.run`
(`upper/agent/shell_server.py`): it waits for its FIFO to be readable, reads a line, executes the
request, and writes one line. The protocol has no request ids.

## What is modelled

* The two FIFOs as bytes. Both sides write and read in blocks of any size.
* The worker's text reader in front of its non-blocking FIFO. `readline` returns the first line of
  what it has, and everything it has where the pipe runs empty in the middle of a line. What it
  holds back is not seen by `select`.
* The host's reader in front of a blocking FIFO, the time-out of `select`, and `_close_io`.
* A checkpoint keeps the worker with its buffer, whatever it is doing. A restore puts such a copy in
  its place. The FIFOs are not part of it: they keep their bytes as long as some process has them
  open, and the host and the templates may.

## Histories

Every byte of a request is marked with the number of its call, and every byte of a response with the
number of the line that it answers, so that "its own" is about where a byte comes from.
-/

namespace DeltaBox

namespace Shell

/-- Bytes, each with a mark. -/
abbrev Marked := List (ℕ × UInt8)

/-- The newline. -/
def nl : UInt8 := 10

/-- Bytes with the same mark. -/
def mark (k : ℕ) (bs : List UInt8) : Marked := bs.map fun b => (k, b)

/-- A line with its newline. -/
def frame (k : ℕ) (line : List UInt8) : Marked := mark k (line ++ [nl])

/-- The first line of a text, and what stands behind its newline. -/
def cutLine : Marked → Option (Marked × Marked)
  | [] => none
  | b :: bs => if b.2 = nl then some ([], bs) else (cutLine bs).map fun x => (b :: x.1, x.2)

/-- What `json.loads` makes of a line, as far as the two sides look at it. -/
inductive Loaded where
  /-- It raises. -/
  | invalid
  /-- A value that is not an object, so that `req.get` raises. -/
  | other
  /-- A request: whether its `timeout_s` is a number or absent, and whether it is a shutdown. -/
  | request (numeric shutdown : Bool)
  deriving DecidableEq, Repr

/-- What the host's thread is doing. -/
inductive Host where
  | idle
  /-- Writing its line, with what is left of it. -/
  | writing (call : ℕ) (rest : Marked)
  /-- In `select`. -/
  | waiting (call : ℕ)
  /-- In `readline`. -/
  | reading (call : ℕ)
  deriving DecidableEq, Repr

/-- What the worker is doing. -/
inductive Phase where
  /-- In `select`. -/
  | selecting
  /-- Executing the line with this number. -/
  | handling (line : ℕ)
  /-- Writing a response, with what is left of it. -/
  | responding (line : ℕ) (response : List UInt8) (rest : Marked)
  /-- It has ended. -/
  | dead
  deriving DecidableEq, Repr

/-- The worker. -/
structure Server where
  phase : Phase
  /-- The buffer of its text reader. -/
  buf : Marked
  deriving DecidableEq, Repr

/-- Both sides, the FIFOs, and the histories. -/
structure State where
  host : Host
  /-- `_f_in` and `_f_out` are open. -/
  ioOpen : Bool
  /-- The buffer of the host's text reader. -/
  hostBuf : Marked
  /-- `shell_cmd_in.fifo`. -/
  fin : Marked
  /-- `shell_cmd_out.fifo`. -/
  fout : Marked
  server : Server
  /-- The workers that were checkpointed. -/
  saved : List Server
  /-- The requests, by the number of the call. -/
  calls : List (List UInt8)
  /-- The lines the worker has taken for requests, by their number. -/
  handled : List Marked
  /-- The responses that were written, each with the number of its line. -/
  responses : List (ℕ × List UInt8)
  /-- What the calls have returned. -/
  returned : List (ℕ × Marked)
  /-- The lines whose worker was killed over them. -/
  killed : List ℕ
  deriving DecidableEq, Repr

/-- A worker that is ready, and nothing sent. -/
def start : State where
  host := .idle
  ioOpen := false
  hostBuf := []
  fin := []
  fout := []
  server := { phase := .selecting, buf := [] }
  saved := []
  calls := []
  handled := []
  responses := []
  returned := []
  killed := []

/-- What happens next. -/
inductive Label where
  /-- `exec_action` is called with the request that `json.dumps` writes so. -/
  | begin (request : List UInt8)
  /-- So many bytes of the request pass into the FIFO. -/
  | write (n : ℕ)
  /-- `select` finds the response FIFO readable. -/
  | ready
  /-- `select` finds nothing until the time is up. -/
  | timeout
  /-- The host's `readline` fetches so many bytes. -/
  | fetch (n : ℕ)
  /-- The host's `readline` has a line, and the call returns it. -/
  | take
  /-- The worker's `select` finds the request FIFO readable, and its `readline` fetches so many
  bytes. -/
  | serve (n : ℕ)
  /-- The worker has done what the line asks for. -/
  | finish (response : List UInt8)
  /-- So many bytes of the response pass into the FIFO. -/
  | respond (n : ℕ)
  | checkpoint
  /-- The worker of a checkpoint takes over. `kept`: the FIFOs were open all the time. -/
  | restore (ckpt : ℕ) (kept : Bool)

variable (loads : List UInt8 → Loaded)

/-- The bytes of a line without the marks. -/
def text (line : Marked) : List UInt8 := line.map Prod.snd

/-- A request as `json.dumps` writes it: a line, and the object again for `json.loads`. -/
def IsRequest (request : List UInt8) : Prop :=
  nl ∉ request ∧ request ≠ [] ∧ ∃ numeric shutdown, loads request = .request numeric shutdown

instance (request : List UInt8) : Decidable (IsRequest loads request) :=
  match h : loads request with
  | .request numeric shutdown =>
    decidable_of_iff (nl ∉ request ∧ request ≠ [])
      ⟨fun hr => ⟨hr.1, hr.2, numeric, shutdown, h⟩, fun hr => ⟨hr.1, hr.2.1⟩⟩
  | .invalid => isFalse fun ⟨_, _, _, _, hr⟩ => by simp [h] at hr
  | .other => isFalse fun ⟨_, _, _, _, hr⟩ => by simp [h] at hr

/-- `float(req.get("timeout_s", 60.0))` does not raise. -/
def numeric (request : List UInt8) : Bool :=
  match loads request with
  | .request numeric _ => numeric
  | _ => false

/-! ### The host -/

/-- `_ensure_io_open`, and the line is ready to be written. -/
def beginCall (s : State) (request : List UInt8) : Option State :=
  if s.host = .idle ∧ IsRequest loads request then
    some { s with
      host := .writing s.calls.length (frame s.calls.length request)
      ioOpen := true
      calls := s.calls ++ [request] }
  else none

/-- `_f_in.write` and `flush`. Behind them the time limit is computed, which raises where
`timeout_s` is no number. -/
def writeCall (s : State) (n : ℕ) : Option State :=
  match s.host with
  | .writing k rest =>
    let left := rest.drop n
    let ok := (s.calls[k]?).any (numeric loads)
    some { s with
      host := if left ≠ [] then .writing k left else if ok then .waiting k else .idle
      fin := s.fin ++ rest.take n }
  | _ => none

/-- `_close_io`. -/
def closeIo (s : State) : State := { s with ioOpen := false, hostBuf := [] }

/-- The host's `select`, by its outcome. -/
def selectCall (s : State) (found : Bool) : Option State :=
  match s.host with
  | .waiting k =>
    if found then if s.fout = [] then none else some { s with host := .reading k }
    else if s.fout = [] then some (closeIo { s with host := .idle }) else none
  | _ => none

/-- A block of the host's `readline`. -/
def fetchCall (s : State) (n : ℕ) : Option State :=
  match s.host with
  | .reading _ =>
    if cutLine s.hostBuf = none ∧ 0 < n ∧ n ≤ s.fout.length then
      some { s with hostBuf := s.hostBuf ++ s.fout.take n, fout := s.fout.drop n }
    else none
  | _ => none

/-- `exec_action` returns the line. -/
def takeCall (s : State) : Option State :=
  match s.host, cutLine s.hostBuf with
  | .reading k, some (line, rest) =>
    some { s with host := .idle, hostBuf := rest, returned := (k, line) :: s.returned }
  | _, _ => none

/-! ### The worker -/

/-- The worker has read a line. An empty one is passed over. -/
def handleLine (s : State) (line rest : Marked) : State :=
  let s := { s with server := { s.server with buf := rest } }
  if line = [] then s
  else { s with
    server := { s.server with phase := .handling s.handled.length }
    handled := s.handled ++ [line] }

/-- `select` and `f_in.readline()`. Where the pipe runs empty before the newline comes, `readline`
returns what it has. -/
def serve (s : State) (n : ℕ) : Option State :=
  if s.server.phase = .selecting ∧ s.fin ≠ [] ∧ n ≤ s.fin.length then
    let buf := s.server.buf ++ s.fin.take n
    let s' := { s with fin := s.fin.drop n }
    match cutLine buf with
    | some (line, rest) => some (handleLine s' line rest)
    | none => if n = s.fin.length then some (handleLine s' buf []) else none
  else none

/-- The line is done with. A value that is no object, or a `timeout_s` that is no number, raises
outside the `try` and ends the worker. -/
def finish (s : State) (response : List UInt8) : Option State :=
  match s.server.phase with
  | .handling i =>
    if nl ∈ response then none
    else
      let answer := { s with
        server := { s.server with phase := .responding i response (frame i response) } }
      match loads (text ((s.handled[i]?).getD [])) with
      | .invalid => some answer
      | .other | .request false _ => some { s with server := { s.server with phase := .dead } }
      | .request true _ => some answer
  | _ => none

/-- The line asks the worker to end. -/
def isShutdown (s : State) (i : ℕ) : Bool :=
  match loads (text ((s.handled[i]?).getD [])) with
  | .request true shutdown => shutdown
  | _ => false

/-- `_respond`. -/
def respond (s : State) (n : ℕ) : Option State :=
  match s.server.phase with
  | .responding i response rest =>
    let s := { s with fout := s.fout ++ rest.take n }
    if rest.drop n ≠ [] then
      some { s with server := { s.server with phase := .responding i response (rest.drop n) } }
    else
      let phase := if isShutdown loads s i then .dead else .selecting
      some { s with server := { s.server with phase }, responses := (i, response) :: s.responses }
  | _ => none

/-- The line a worker is busy with. -/
def Phase.line? : Phase → Option ℕ
  | .handling i => some i
  | .responding i _ _ => some i
  | _ => none

/-- The worker is killed, and a copy of the checkpointed one goes on. -/
def restore (s : State) (ckpt : ℕ) (kept : Bool) : Option State :=
  if s.host = .idle ∧ (s.ioOpen → kept) then
    (s.saved[ckpt]?).map fun server =>
      { s with
        server
        fin := if kept then s.fin else []
        fout := if kept then s.fout else []
        killed := s.server.phase.line?.toList ++ s.killed }
  else none

/-- One step of either side. -/
def step (s : State) : Label → Option State
  | .begin request => beginCall loads s request
  | .write n => writeCall loads s n
  | .ready => selectCall s true
  | .timeout => selectCall s false
  | .fetch n => fetchCall s n
  | .take => takeCall s
  | .serve n => serve s n
  | .finish response => finish loads s response
  | .respond n => respond loads s n
  | .checkpoint => if s.host = .idle then some { s with saved := s.saved ++ [s.server] } else none
  | .restore ckpt kept => restore s ckpt kept

/-! ### What the channel is for -/

/-- Each line the worker has taken is the whole request of one call and is taken once. It has at
most one response, and it has one unless the worker is at it, was killed over it, or has ended. A
call has returned the response to its own request. -/
structure Own (s : State) : Prop where
  whole : ∀ (i : ℕ) (line : Marked), s.handled[i]? = some line → ∃ k request,
    s.calls[k]? = some request ∧ line = mark k request
  once : ∀ (i j : ℕ) (line : Marked), s.handled[i]? = some line → s.handled[j]? = some line → i = j
  single : (s.responses.map Prod.fst).Nodup
  answered : ∀ i < s.handled.length, i ∈ s.responses.map Prod.fst ∨
    s.server.phase.line? = some i ∨ i ∈ s.killed
  own : ∀ k line, (k, line) ∈ s.returned → ∃ i request response, s.calls[k]? = some request ∧
    s.handled[i]? = some (mark k request) ∧ (i, response) ∈ s.responses ∧ line = mark i response

/-- The worker waits with nothing in its buffer, or it has ended. -/
def Server.Free (w : Server) : Prop := w.buf = [] ∧ w.phase.line? = none

instance (w : Server) : Decidable w.Free := inferInstanceAs (Decidable (_ ∧ _))

/-- The step meets no rest of an earlier one: a call begins where nothing is on its way, and its
limit is a number; the worker finds a whole line; a checkpoint is of a worker that has nothing to do;
a restore finds the FIFOs empty or leaves them so. -/
def Settled (s : State) : Label → Prop
  | .begin request =>
    numeric loads request = true ∧ s.fin = [] ∧ s.fout = [] ∧ s.hostBuf = [] ∧ s.server.Free
  | .serve n => cutLine (s.server.buf ++ s.fin.take n) ≠ none
  | .checkpoint => s.server.Free
  | .restore _ kept => kept = true → s.fin = [] ∧ s.fout = []
  | _ => True

instance (s : State) (a : Label) : Decidable (Settled loads s a) := by
  cases a <;> unfold Settled <;> infer_instance

end Shell

end DeltaBox
