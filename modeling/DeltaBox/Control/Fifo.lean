import DeltaBox.Lib.Dict
import DeltaBox.Lib.Frame
import DeltaBox.Lib.Machine
import Mathlib.Logic.Function.Basic

/-!
# The template control FIFOs

One pair of FIFOs connects the controller with the active agent and with every template. All of
them have the command FIFO open for reading, so a command goes to whichever of them reads it first,
and replies carry no more than the kind of command they answer. Who reads what is decided by who is
stopped, and that is decided by signals that do not wait for anybody.

## What is modelled

* A command is a line of bytes. The controller drains the FIFO in chunks, writes a command at once
  or in chunks, and a reader takes at most 4096 bytes at a time into a buffer of its own, which a
  fork copies and a dump preserves.
* A process is in its loop, in a handler, about to answer, or about to stop itself. The init process
  of a pid namespace may ignore a stop signal it sends to itself.
* The controller runs one request at a time: drain, write, wake, wait for a line, act on it. Between
  requests it stops and resumes the active process around a cleanup, kills processes, and restores a
  dumped one.

The history `ran` says which process executed which command, and `born` which command created a
process. The code has neither.

Translating the pid of a reply into a pid of the host either finds the process that the reply means
or fails. Pids do not repeat.
-/

namespace DeltaBox

namespace Control

open DeltaBox.Frame

/-- The control commands of this model. -/
inductive Op where
  | fork
  | stashTemplate
  | reapChildren
  | reapPid
  | checkpointPause
  deriving DecidableEq, Repr

/-- The payload flags that choose between the implementations of `fork` and `stash_template`. -/
inductive Variant where
  | plain
  | fixedPid
  | freshPidns
  deriving DecidableEq, Repr

/-- The `mode` field of a reply. -/
inductive Mode where
  | fork
  | settidFork
  | freshPidnsFork
  | freshPidnsCloneParent
  | stashTemplate
  | stashSettidTemplate
  | stashFreshPidns
  | reapChildren
  | reapPid
  | checkpointPause
  deriving DecidableEq, Repr

/-- A request of the controller, and the command it sends. -/
structure Request where
  /-- `op`. -/
  op : Op
  /-- Which implementation the payload selects. -/
  variant : Variant
  /-- `source_pid`, the process the command is meant for. -/
  source : ℕ
  /-- `snapshot_id`. -/
  snapshot : Option String
  /-- The length of the command line. -/
  len : ℕ
  deriving DecidableEq

/-- Where a process is. -/
inductive Pc where
  /-- In the loop, about to read the command FIFO. -/
  | loop
  /-- It has read command `k`. -/
  | handle (k : ℕ)
  /-- It has created `child` for command `k` and is about to answer. -/
  | reply (k child : ℕ)
  /-- About to send itself SIGSTOP. -/
  | stop
  deriving DecidableEq

/-- The command a process is working on. -/
def Pc.cmd? : Pc → Option ℕ
  | .handle k => some k
  | .reply k _ => some k
  | _ => none

/-- A process that has the command FIFO open. -/
structure Proc where
  /-- Has it not exited? -/
  alive : Bool
  /-- Is it stopped? -/
  stopped : Bool
  /-- Is it the init process of its pid namespace? -/
  nsInit : Bool
  /-- `_CTRL_IN_BUFS`. -/
  buf : List Byte
  /-- Where it is. -/
  pc : Pc
  /-- The command whose handler created it. -/
  born : Option ℕ
  deriving DecidableEq

/-- The record of a pid that is not in use. -/
def Proc.absent : Proc := ⟨false, false, false, [], .loop, none⟩

/-- A reply line. -/
structure Reply where
  /-- The command it answers. The line itself does not say, except in the token of a pause. -/
  origin : ℕ
  /-- `mode`, when the handler sets one. -/
  mode : Option Mode
  /-- `ok`. -/
  ok : Bool
  /-- `child`. -/
  child : Option ℕ
  /-- Is the pid of the answering process 1 in its namespace? -/
  parentInit : Bool
  deriving DecidableEq

/-- How far the controller has got with a request. -/
inductive Phase where
  | idle
  /-- Stale replies are gone, stale commands are being drained. -/
  | drain (r : Request)
  /-- Command `k` is written up to byte `n`. -/
  | write (r : Request) (k n : ℕ)
  /-- It is written, its source gets SIGCONT next. -/
  | wake (r : Request) (k : ℕ)
  /-- `_read_response_line`. -/
  | wait (r : Request) (k : ℕ)
  /-- A line was accepted, or the wait timed out. -/
  | finish (r : Request) (k : ℕ) (line : Option Reply)
  /-- Inside `quiesce_for_checkpoint`. -/
  | quiesce (source : ℕ)
  deriving DecidableEq

/-- The request under way. -/
def Phase.request? : Phase → Option Request
  | .drain r => some r
  | .write r _ _ => some r
  | .wake r _ => some r
  | .wait r _ => some r
  | .finish r _ _ => some r
  | _ => none

/-- Its command, once it has one, with the number of bytes written. -/
def Phase.sent? : Phase → Option (Request × ℕ × ℕ)
  | .write r k n => some (r, k, n)
  | .wake r k => some (r, k, r.len)
  | .wait r k => some (r, k, r.len)
  | .finish r k _ => some (r, k, r.len)
  | _ => none

theorem Phase.request?_of_sent? {ph : Phase} {r : Request} {k n : ℕ}
    (h : ph.sent? = some (r, k, n)) : ph.request? = some r := by
  cases ph <;> simp_all [Phase.sent?, Phase.request?]

/-- What a request returned: the command, the snapshot and the process. -/
structure Result where
  /-- The command. -/
  cmd : ℕ
  /-- `snapshot_id`. -/
  snapshot : Option String
  /-- The returned process: the template of a stash, the new active process of a fork. -/
  child : ℕ
  deriving DecidableEq

/-- The controller, the processes and the two FIFOs. -/
structure State where
  /-- `CTRL_IN_FIFO`. -/
  fifo : List Byte
  /-- `CTRL_OUT_FIFO` with `_out_buf`. -/
  out : List Reply
  /-- The processes by pid. -/
  procs : ℕ → Proc
  /-- The next pid. -/
  next : ℕ
  /-- The commands sent so far. -/
  cmds : List Request
  /-- Which command was read as a complete line, and by whom. -/
  ran : List (ℕ × ℕ)
  /-- The command buffers of the dumped processes. -/
  images : List (List Byte)
  /-- The current request. -/
  phase : Phase
  /-- `agent_pid`. -/
  active : ℕ
  /-- Did a cleanup stop the active process? -/
  held : Bool
  /-- `TemplatePool.templates`. -/
  templates : Dict String ℕ
  /-- What the requests returned. -/
  results : List Result

/-- Command `k` was read. -/
def State.Read (s : State) (k : ℕ) : Prop := k ∈ s.ran.map Prod.fst

instance (s : State) (k : ℕ) : Decidable (s.Read k) := inferInstanceAs (Decidable (_ ∈ _))

theorem State.read_iff {s : State} {k : ℕ} : s.Read k ↔ ∃ p, (k, p) ∈ s.ran := by
  simp [State.Read]

/-! ### The agent side -/

/-- `_read_ctrl_line`: a buffered line if there is one, else a line completed by one read of at
most 4096 bytes. The result is the remaining FIFO, the buffer and the line. -/
def readCtrlLine (fifo buf : List Byte) : List Byte × List Byte × Option (List Byte) :=
  match cut buf with
  | some (line, rest) => (fifo, rest, some line)
  | none =>
    match cut (buf ++ fifo.take 4096) with
    | some (line, rest) => (fifo.drop 4096, rest, some line)
    | none => (fifo.drop 4096, buf ++ fifo.take 4096, none)

/-- The process a handler of `fork` or `stash_template` creates. A stashed copy stops itself, or
waits for SIGCONT when it is the init process of a new namespace. -/
def spawned (r : Request) (k : ℕ) (parent : Proc) : Proc :=
  match r.op with
  | .stashTemplate =>
    { alive := true
      stopped := r.variant = .freshPidns
      nsInit := r.variant = .freshPidns
      buf := parent.buf
      pc := if r.variant = .freshPidns then .loop else .stop
      born := some k }
  | _ =>
    { alive := true
      stopped := false
      nsInit := r.variant = .freshPidns
      buf := parent.buf
      pc := .loop
      born := some k }

/-- A new process works on nothing and has a copy of its parent's buffer. -/
theorem spawned_spec {r : Request} (k : ℕ) (parent : Proc)
    (hop : r.op = .fork ∨ r.op = .stashTemplate) :
    (spawned r k parent).born = some k ∧ (spawned r k parent).pc.cmd? = none ∧
      (spawned r k parent).buf = parent.buf := by
  rw [spawned]
  rcases hop with hop | hop
  · simp [hop, Pc.cmd?]
  · by_cases hv : r.variant = .freshPidns <;> simp [hop, hv, Pc.cmd?]

/-- The `mode` of a successful reply. The fresh-namespace forks answer without one. -/
def successMode (r : Request) : Option Mode :=
  match r.op, r.variant with
  | .fork, .plain => some .fork
  | .fork, .fixedPid => some .settidFork
  | .fork, .freshPidns => none
  | .stashTemplate, .plain => some .stashTemplate
  | .stashTemplate, .fixedPid => some .stashSettidTemplate
  | .stashTemplate, .freshPidns => some .stashFreshPidns
  | .reapChildren, _ => some .reapChildren
  | .reapPid, _ => some .reapPid
  | .checkpointPause, _ => some .checkpointPause

/-! ### The controller side -/

/-- The `expected_modes` of each request. -/
def expectedModes : Op → List Mode
  | .fork => [.fork, .freshPidnsFork, .freshPidnsCloneParent, .settidFork]
  | .stashTemplate => [.stashTemplate, .stashFreshPidns, .stashSettidTemplate]
  | .reapChildren => [.reapChildren]
  | .reapPid => [.reapPid]
  | .checkpointPause => [.checkpointPause]

/-- Does `_read_response_line` return this line, or skip it? A line of another mode is still
returned when it reports a failure. -/
def accepts (op : Op) (m : Reply) : Bool := m.mode.any (· ∈ expectedModes op) || !m.ok

/-- Does the request send SIGCONT? -/
def Op.wakes : Op → Bool
  | .fork => true
  | .reapChildren => true
  | .reapPid => true
  | _ => false

/-- When the callers of the pool make a request. The active process is stopped around the reaps of
a cleanup and dead before a template is forked. -/
def Admissible (s : State) (source : ℕ) : Op → Prop
  | .fork => s.held = false ∧ (source = s.active ∨ (s.procs s.active).alive = false)
  | .stashTemplate => source = s.active ∧ s.held = false
  | .checkpointPause => source = s.active ∧ s.held = false
  | _ => source ≠ s.active ∧ (s.held = true ∨ (s.procs s.active).alive = false)

instance (s : State) (source : ℕ) : ∀ op, Decidable (Admissible s source op)
  | .fork => inferInstanceAs (Decidable (_ ∧ _))
  | .stashTemplate => inferInstanceAs (Decidable (_ ∧ _))
  | .checkpointPause => inferInstanceAs (Decidable (_ ∧ _))
  | .reapChildren => inferInstanceAs (Decidable (_ ∧ _))
  | .reapPid => inferInstanceAs (Decidable (_ ∧ _))

/-- Change one process. -/
def State.setProc (s : State) (p : ℕ) (q : Proc) : State :=
  { s with procs := Function.update s.procs p q }

@[simp] theorem State.setProc_self (s : State) (p : ℕ) (q : Proc) : (s.setProc p q).procs p = q :=
  Function.update_self ..

theorem State.setProc_of_ne (s : State) {p x : ℕ} (q : Proc) (h : x ≠ p) :
    (s.setProc p q).procs x = s.procs x := Function.update_of_ne h ..

/-- Send SIGSTOP. -/
def State.sigstop (s : State) (p : ℕ) : State := s.setProc p { s.procs p with stopped := true }

/-- Send SIGCONT. -/
def State.sigcont (s : State) (p : ℕ) : State := s.setProc p { s.procs p with stopped := false }

/-- `templates[snapshot] = pid`, when a snapshot is given. -/
def setTemplate (templates : Dict String ℕ) (snapshot : Option String) (pid : ℕ) :
    Dict String ℕ :=
  match snapshot with
  | some sid => templates.set sid pid
  | none => templates

/-- What a request does once it has its line or has timed out. `found` says whether the pid of the
reply could be translated. -/
def finish (s : State) (r : Request) (k : ℕ) (line : Option Reply) (found : Bool) : State :=
  let s := { s with phase := .idle }
  match r.op with
  | .fork =>
    match line with
    | none => s
    | some m =>
      if m.ok then
        -- the host stops a namespace init, whose own SIGSTOP may have no effect
        let s := if m.parentInit then s.sigstop r.source else s
        match m.child with
        | some c =>
          if found then
            { s with
              active := c
              templates := setTemplate s.templates r.snapshot r.source
              results := s.results ++ [⟨k, r.snapshot, c⟩] }
          else s
        | none => s
      else s
  | .stashTemplate =>
    match line with
    | none => s
    | some m =>
      match m.child with
      | some c =>
        if m.ok && found then
          { s with
            templates := setTemplate s.templates r.snapshot c
            results := s.results ++ [⟨k, r.snapshot, c⟩] }
        else s
      | none => s
  | .checkpointPause =>
    match line with
    | none => s
    | some m => if m.ok && m.origin = k then { s with phase := .quiesce r.source } else s
  | _ => if (s.procs r.source).nsInit then s.sigstop r.source else s

/-! ### Steps -/

/-- The steps of the controller, of the processes, and of the world around them. -/
inductive Action where
  /-- A request starts and drains the reply FIFO. -/
  | begin (r : Request)
  /-- One read of `_drain_pending_commands`. -/
  | drainChunk
  /-- The command FIFO is empty and is opened for writing. -/
  | openWrite
  /-- It cannot be opened, the request returns. -/
  | openFail
  /-- One write. -/
  | writeChunk (n : ℕ)
  /-- The write times out, the request raises. -/
  | writeFail
  /-- SIGCONT to the source, unless that is gone. -/
  | wake (gone : Bool)
  /-- The next reply line is taken, or skipped. -/
  | accept
  /-- The wait times out. -/
  | timeout
  /-- The request acts on its line. -/
  | finish (found : Bool)
  /-- The end of `quiesce_for_checkpoint`. -/
  | endQuiesce
  /-- A cleanup stops the active process. -/
  | hold
  /-- And resumes it. -/
  | release
  /-- A template is stopped again before a checkpoint. -/
  | stopTemplate (p : ℕ)
  /-- `discard(snapshot)`. -/
  | discard (sid : String)
  /-- A process exits or is killed. -/
  | die (p : ℕ)
  /-- A process is dumped. -/
  | dump (p : ℕ)
  /-- A dumped process is restored as the active one. -/
  | coldRestore (image : ℕ) (nsInit : Bool)
  /-- A process in its loop reads the command FIFO. -/
  | read (p : ℕ)
  /-- A handler forks. -/
  | spawn (p : ℕ)
  /-- A handler answers. The reply is lost when its FIFO is full. -/
  | respond (p : ℕ) (ok lost : Bool)
  /-- A handler reports a failure and returns to the loop. -/
  | refuse (p : ℕ) (mode : Option Mode) (lost : Bool)
  /-- A process sends itself SIGSTOP. -/
  | selfStop (p : ℕ) (honoured : Bool)

/-- Add a reply, unless it is lost. -/
def State.answer (s : State) (lost : Bool) (m : Reply) : State :=
  if lost then s else { s with out := s.out ++ [m] }

theorem answer_eq (s : State) (lost : Bool) (m : Reply) :
    ∃ out, s.answer lost m = { s with out := out } ∧ ∀ x ∈ out, x ∈ s.out ∨ x = m := by
  cases lost with
  | true => exact ⟨s.out, rfl, fun x hx => Or.inl hx⟩
  | false =>
    refine ⟨s.out ++ [m], rfl, fun x hx => ?_⟩
    exact (List.mem_append.mp hx).imp_right List.mem_singleton.mp

/-- The steps a process takes while it runs. -/
def procStep (s : State) (p : ℕ) : Action → Option State
  | .read _ =>
    if (s.procs p).pc = .loop then
      match readCtrlLine s.fifo (s.procs p).buf with
      | (fifo, buf, none) => some ({ s with fifo := fifo }.setProc p { s.procs p with buf := buf })
      | (fifo, buf, some line) =>
        match whole line with
        | none => some ({ s with fifo := fifo }.setProc p { s.procs p with buf := buf })
        | some k =>
          some ({ s with fifo := fifo, ran := s.ran ++ [(k, p)] }.setProc p
            { s.procs p with buf := buf, pc := .handle k })
    else none
  | .spawn _ =>
    match (s.procs p).pc with
    | .handle k =>
      match s.cmds[k]? with
      | some r =>
        if r.op = .fork ∨ r.op = .stashTemplate then
          some (({ s with next := s.next + 1 }.setProc p
            { s.procs p with pc := .reply k s.next }).setProc s.next (spawned r k (s.procs p)))
        else none
      | none => none
    | _ => none
  | .respond _ ok lost =>
    match (s.procs p).pc with
    | .handle k =>
      match s.cmds[k]? with
      | some r =>
        if r.op = .fork ∨ r.op = .stashTemplate then none
        else
          some ((s.setProc p { s.procs p with pc := .stop }).answer lost
            ⟨k, successMode r, ok, none, (s.procs p).nsInit⟩)
      | none => none
    | .reply k c =>
      match s.cmds[k]? with
      | some r =>
        some ((s.setProc p
          { s.procs p with pc := if r.op = .stashTemplate then .loop else .stop }).answer lost
            ⟨k, successMode r, true, some c, (s.procs p).nsInit⟩)
      | none => none
    | _ => none
  | .refuse _ mode lost =>
    match (s.procs p).pc with
    | .handle k =>
      some ((s.setProc p { s.procs p with pc := .loop }).answer lost
        ⟨k, mode, false, none, (s.procs p).nsInit⟩)
    | _ => none
  | .selfStop _ honoured =>
    if (s.procs p).pc = .stop then
      some (s.setProc p
        { s.procs p with
          pc := .loop
          stopped := honoured || !(s.procs p).nsInit })
    else none
  | _ => none

/-- Only a process that exists and is not stopped takes a step. -/
def runnable (s : State) (p : ℕ) (a : Action) : Option State :=
  if (s.procs p).alive = true ∧ (s.procs p).stopped = false then procStep s p a else none

/-- One step. -/
def step (s : State) : Action → Option State
  | .begin r =>
    if s.phase = .idle ∧ Admissible s r.source r.op ∧ 0 < r.len then
      some { s with out := [], phase := .drain r }
    else none
  | .drainChunk =>
    match s.phase with
    | .drain _ => some { s with fifo := s.fifo.drop 4096 }
    | _ => none
  | .openWrite =>
    match s.phase with
    | .drain r =>
      if s.fifo = [] then
        some { s with cmds := s.cmds ++ [r], phase := .write r s.cmds.length 0 }
      else none
    | _ => none
  | .openFail =>
    match s.phase with
    | .drain _ => if s.fifo = [] then some { s with phase := .idle } else none
    | _ => none
  | .writeChunk n =>
    match s.phase with
    | .write r k m =>
      -- the short commands are one write, the others may take several
      if 0 < n ∧ m + n ≤ r.len ∧ (r.op.wakes = true → n = r.len) then
        some
          { s with
            fifo := s.fifo ++ ((frame k r.len).drop m).take n
            phase :=
              if m + n = r.len then if r.op.wakes then .wake r k else .wait r k
              else .write r k (m + n) }
      else none
    | _ => none
  | .writeFail =>
    match s.phase with
    | .write _ _ _ => some { s with phase := .idle }
    | _ => none
  | .wake gone =>
    match s.phase with
    | .wake r k =>
      if gone then
        if (s.procs r.source).alive then none else some { s with phase := .idle }
      else some { s.sigcont r.source with phase := .wait r k }
    | _ => none
  | .accept =>
    match s.phase, s.out with
    | .wait r k, m :: out =>
      if accepts r.op m then some { s with out := out, phase := .finish r k (some m) }
      else some { s with out := out }
    | _, _ => none
  | .timeout =>
    match s.phase with
    | .wait r k => some { s with phase := .finish r k none }
    | _ => none
  | .finish found =>
    match s.phase with
    | .finish r k line => some (finish s r k line found)
    | _ => none
  | .endQuiesce =>
    match s.phase with
    | .quiesce source =>
      some { (if (s.procs source).stopped then s.sigcont source else s) with phase := .idle }
    | _ => none
  | .hold =>
    if s.phase = .idle ∧ s.held = false then some { s.sigstop s.active with held := true } else none
  | .release =>
    if s.phase = .idle ∧ s.held = true then some { s.sigcont s.active with held := false } else none
  | .stopTemplate p =>
    if s.phase = .idle ∧ p ≠ s.active then some (s.sigstop p) else none
  | .discard sid =>
    if s.phase = .idle then
      match s.templates.find? sid with
      | some p =>
        some { s.setProc p { s.procs p with alive := false } with templates := s.templates.erase sid }
      | none => some s
    else none
  | .die p => some (s.setProc p { s.procs p with alive := false })
  | .dump p => some { s with images := s.images ++ [(s.procs p).buf] }
  | .coldRestore image nsInit =>
    if s.phase = .idle ∧ s.held = false ∧ (s.procs s.active).alive = false then
      s.images[image]?.map fun buf =>
        { s.setProc s.next ⟨true, false, nsInit, buf, .loop, none⟩ with
          next := s.next + 1
          active := s.next }
    else none
  | .read p => runnable s p (.read p)
  | .spawn p => runnable s p (.spawn p)
  | .respond p ok lost => runnable s p (.respond p ok lost)
  | .refuse p mode lost => runnable s p (.refuse p mode lost)
  | .selfStop p honoured => runnable s p (.selfStop p honoured)

/-- The agent has just started: it is the only process, and nothing was sent. -/
structure Initial (s : State) : Prop where
  /-- The FIFOs are empty. -/
  fifo : s.fifo = []
  /-- No reply is waiting. -/
  out : s.out = []
  /-- One process exists, in its loop, with an empty buffer. -/
  procs : ∃ nsInit, s.procs =
    Function.update (fun _ => Proc.absent) s.active ⟨true, false, nsInit, [], .loop, none⟩
  /-- Its pid is in use. -/
  active_lt : s.active < s.next
  /-- No command was sent. -/
  cmds : s.cmds = []
  /-- Or read. -/
  ran : s.ran = []
  /-- Nothing was dumped. -/
  images : s.images = []
  /-- No request is under way. -/
  phase : s.phase = .idle
  /-- The active process is not held. -/
  held : s.held = false
  /-- There are no templates. -/
  templates : s.templates = Dict.empty
  /-- And nothing was returned. -/
  results : s.results = []

/-- The agent, as process 0. -/
def exampleAgent : State where
  fifo := []
  out := []
  procs := Function.update (fun _ => Proc.absent) 0 ⟨true, false, false, [], .loop, none⟩
  next := 1
  cmds := []
  ran := []
  images := []
  phase := .idle
  active := 0
  held := false
  templates := Dict.empty
  results := []

theorem exampleAgent_initial : Initial exampleAgent where
  fifo := rfl
  out := rfl
  procs := ⟨false, rfl⟩
  active_lt := by decide
  cmds := rfl
  ran := rfl
  images := rfl
  phase := rfl
  held := rfl
  templates := rfl
  results := rfl

/-- A request to the first process. -/
def exampleRequest (op : Op) (snapshot : Option String) : Request := ⟨op, .plain, 0, snapshot, 3⟩

end Control

end DeltaBox
