import DeltaBox.Lib.Dict
import DeltaBox.Lib.Machine
import Mathlib.Logic.Function.Basic

/-!
# The shared CPU work queue

A review runs its experiments on several NUMA nodes at once. One lane process for each node claims
an experiment from a queue file, measures it, and finishes it (`cpu_work_queue.py`). What a lane has
measured is in its `review.json`, which it rewrites from a list in memory (`run_review.py`). A run
that was killed is resumed by a new parent, which rebuilds the queue from the reviews alone.

## What is modelled

* `claim`, `finish`, `completed_rows`, `recover_groups` and `initialize`, on the data they read.
* A lane from its start to its end, with every write of the review as a step: it is started with the
  finished rows of its node, saves them, claims, appends a row, changes its status, saves, finishes.
* A lane may be killed anywhere, run into an exception in the measurement, or end in a terminal
  error. A parent resumes when no lane is left, because the lanes hold its lease.

Of a row only the experiment and the status are kept. That the recorded configuration and the
producers of a finished row are still what they were is a predicate the resume is given.

The history `log` has every claim, and every finish with its outcome.
-/

namespace DeltaBox

namespace Review

/-- The status of a row. -/
inductive RowStatus where
  | checking
  | ok
  | failed
  /-- 'partial'. -/
  | partialJobs
  | unavailable
  | interrupted
  | notRun
  deriving DecidableEq, Repr

/-- A row of the coverage. -/
structure Row where
  experiment : String
  status : RowStatus
  deriving DecidableEq, Repr

/-- The status of an experiment in the queue. -/
inductive Status where
  | pending
  | running
  | ok
  | failed
  deriving DecidableEq, Repr

/-- What the queue has on an experiment. -/
structure Group where
  status : Status
  node : Option ℕ
  row : Option Row
  deriving DecidableEq, Repr

/-- What a run is started with. -/
structure Config where
  experiments : List String
  /-- The nodes of the placement. -/
  nodes : List ℕ
  /-- `--available`: a partial or unavailable experiment does not stop the lane. -/
  available : Bool

/-- Where a lane is. -/
inductive Pc where
  /-- `Review.__init__` is done, nothing is saved. -/
  | starting
  /-- About to claim. -/
  | idle
  | claimed (name : String)
  /-- `run_experiment` has appended its row. -/
  | measuring (name : String)
  /-- It has returned, or its exception is handled. -/
  | concluded (name : String)
  | stopped
  deriving DecidableEq, Repr

/-- The experiment that a lane is working on. -/
def Pc.name? : Pc → Option String
  | .claimed name | .measuring name | .concluded name => some name
  | _ => none

/-- A lane process. -/
structure Lane where
  /-- `record['coverage']`. -/
  coverage : List Row
  pc : Pc
  deriving DecidableEq, Repr

/-- What the history records. -/
inductive Event where
  | claimed (attempt : ℕ) (name : String) (node : ℕ)
  | failed (attempt : ℕ) (name : String)
  | done (name : String)
  deriving DecidableEq, Repr

/-- The files, the lanes, and the history, latest first. -/
structure State where
  /-- The queue file. -/
  groups : Dict String Group
  /-- `review.json` of each lane. -/
  reviews : ℕ → Option (List Row)
  lanes : ℕ → Option Lane
  attempt : ℕ
  log : List Event

/-- `service_group`. -/
def serviceGroup (name : String) : Bool :=
  "-cube".toList.isSuffixOf name.toList || "-e2b".toList.isSuffixOf name.toList

/-- The groups of a new run. -/
def freshGroups (experiments : List String) : Dict String Group :=
  experiments.foldl (fun d name => d.set name ⟨.pending, none, none⟩) Dict.empty

/-! ### The queue -/

/-- What `claim` returns. -/
inductive Claim where
  | done
  | wait
  | claimed (name : String)
  /-- It raises: the node has an experiment already. -/
  | raises
  deriving DecidableEq, Repr

/-- May `node` take this experiment? -/
def eligible (groups : Dict String Group) (node : ℕ) (name : String) : Bool :=
  match groups.find? name with
  | some g => g.status = .pending ∧ (g.node = none ∨ g.node = some node)
  | none => false

/-- `WorkQueue.claim`. -/
def claim (cfg : Config) (groups : Dict String Group) (node : ℕ) : Claim :=
  if groups.values.any (·.status = .failed) then .done
  else if groups.values.any fun g => g.status = .running ∧ g.node = some node then .raises
  else
    let serviceBusy := groups.entries.any fun x => serviceGroup x.1 ∧ x.2.status = .running
    match cfg.experiments.find? fun name =>
        eligible groups node name && !(serviceGroup name && serviceBusy) with
    | some name => .claimed name
    | none => if cfg.experiments.any (eligible groups node) then .wait else .done

/-- `WorkQueue.completed_rows`. -/
def completedRows (cfg : Config) (groups : Dict String Group) (node : ℕ) : List Row :=
  cfg.experiments.filterMap fun name =>
    match groups.find? name with
    | some g => if g.status = .ok ∧ g.node = some node then g.row else none
    | none => none

/-- What a row of the review of `node` says about its experiment. -/
def bind (node : ℕ) (row : Row) : Group :=
  if row.status = .ok then ⟨.ok, some node, some row⟩ else ⟨.pending, some node, none⟩

/-- One row in `recover_groups`. It raises if the experiment is unknown, if another row has bound it
already, or if the evidence of a finished one is not what it was. -/
def recoverRow (evidence : String → Bool) (groups : Dict String Group) (x : ℕ × Row) :
    Option (Dict String Group) :=
  match groups.find? x.2.experiment with
  | none => none
  | some g =>
    if x.2.status = .notRun then some groups
    else if g.node ≠ none then none
    else if x.2.status = .ok ∧ !evidence x.2.experiment then none
    else some (groups.set x.2.experiment (bind x.1 x.2))

/-- The rows of all reviews, with their nodes. -/
def reviewed (cfg : Config) (reviews : ℕ → Option (List Row)) : List (ℕ × Row) :=
  cfg.nodes.flatMap fun node => ((reviews node).getD []).map fun row => (node, row)

/-- `recover_groups`. The lanes must be bound to the same CPUs as before. -/
def recoverGroups (cfg : Config) (sameBinding : Bool) (evidence : String → Bool)
    (reviews : ℕ → Option (List Row)) : Option (Dict String Group) :=
  if sameBinding then
    (reviewed cfg reviews).foldlM (recoverRow evidence) (freshGroups cfg.experiments)
  else none

/-! ### Lanes -/

/-- Change the status of the row of an experiment. -/
def setStatus (name : String) (status : RowStatus) (coverage : List Row) : List Row :=
  coverage.map fun row => if row.experiment = name then { row with status } else row

/-- The row of an experiment. -/
def rowOf (name : String) (coverage : List Row) : Option Row :=
  coverage.find? fun row => row.experiment = name

/-- The coverage after an exception in the measurement. -/
def failRow (name : String) (coverage : List Row) : List Row :=
  match rowOf name coverage with
  | some _ => setStatus name .failed coverage
  | none => coverage ++ [⟨name, .failed⟩]

/-- `terminal_error`. -/
def terminate (interrupted : Bool) (coverage : List Row) : List Row :=
  coverage.map fun row =>
    if row.status = .checking then
      { row with status := if interrupted then .interrupted else .failed }
    else row

/-- Does the lane stop after this row? -/
def stops (available : Bool) (row : Option Row) : Bool :=
  match row with
  | none => false
  | some row => row.status = .failed ||
      (!available && (row.status = .partialJobs || row.status = .unavailable))

/-- What can happen. -/
inductive Act where
  | launch (n : ℕ)
  /-- The first save of `run`. -/
  | firstSave (n : ℕ)
  | claim (n : ℕ)
  /-- `run_experiment` appends its row. -/
  | begin (n : ℕ)
  | save (n : ℕ)
  /-- The status of the row is set, and saved or not. -/
  | mark (n : ℕ) (status : RowStatus) (saved : Bool)
  | ret (n : ℕ)
  /-- `run_experiment` raises. -/
  | raise (n : ℕ)
  | finish (n : ℕ)
  | terminal (n : ℕ) (interrupted : Bool)
  | kill (n : ℕ)
  | resume (sameBinding : Bool) (evidence : String → Bool)

/-- Replace a lane. -/
def State.put (s : State) (n : ℕ) (lane : Lane) : State :=
  { s with lanes := Function.update s.lanes n (some lane) }

/-- Replace a lane and write its review. -/
def State.putSave (s : State) (n : ℕ) (lane : Lane) : State :=
  { s.put n lane with reviews := Function.update s.reviews n (some lane.coverage) }

/-- A step of a lane. -/
def laneStep (cfg : Config) (s : State) (n : ℕ) (l : Lane) : Act → Option State
  | .firstSave _ =>
    match l.pc with
    | .starting => some (s.putSave n { l with pc := .idle })
    | _ => none
  | .claim _ =>
    match l.pc with
    | .idle =>
      match claim cfg s.groups n with
      | .done => some (s.put n { l with pc := .stopped })
      | .wait => some s
      | .claimed name =>
        some { s.put n { l with pc := .claimed name } with
          groups := s.groups.set name ⟨.running, some n, none⟩
          log := .claimed s.attempt name n :: s.log }
      | .raises => some (s.putSave n ⟨terminate false l.coverage, .stopped⟩)
    | _ => none
  | .begin _ =>
    match l.pc with
    | .claimed name => some (s.put n ⟨l.coverage ++ [⟨name, .checking⟩], .measuring name⟩)
    | _ => none
  | .save _ =>
    match l.pc with
    | .starting => none
    | _ => some (s.putSave n l)
  | .mark _ status saved =>
    match l.pc with
    | .measuring name =>
      -- a successful row is never left unsaved
      if status = .ok ∧ !saved then none
      else
        let l' : Lane := { l with coverage := setStatus name status l.coverage }
        some (if saved then s.putSave n l' else s.put n l')
    | _ => none
  | .ret _ =>
    match l.pc with
    | .measuring name =>
      if (rowOf name l.coverage).any (·.status = .checking) then none
      else some (s.put n { l with pc := .concluded name })
    | _ => none
  | .raise _ =>
    match l.pc with
    | .claimed name | .measuring name =>
      some (s.putSave n ⟨failRow name l.coverage, .concluded name⟩)
    | _ => none
  | .finish _ =>
    match l.pc with
    | .concluded name =>
      match s.groups.find? name with
      | some g =>
        if g.status = .running ∧ g.node = some n then
          let row := rowOf name l.coverage
          let ok := row.any (·.status = .ok)
          let s := { s with
            groups := s.groups.set name ⟨if ok then .ok else .failed, g.node, row⟩
            log := (if ok then .done name else .failed s.attempt name) :: s.log }
          some (if stops cfg.available row then s.putSave n { l with pc := .stopped }
            else s.put n { l with pc := .idle })
        else some (s.putSave n ⟨terminate false l.coverage, .stopped⟩)
      | none => some (s.putSave n ⟨terminate false l.coverage, .stopped⟩)
    | _ => none
  | .terminal _ interrupted =>
    match l.pc with
    | .starting => none
    | _ => some (s.putSave n ⟨terminate interrupted l.coverage, .stopped⟩)
  | .kill _ => some { s with lanes := Function.update s.lanes n none }
  | _ => none

/-- One step. -/
def step (cfg : Config) (s : State) (a : Act) : Option State :=
  match a with
  | .launch n =>
    match s.lanes n with
    | none => if n ∈ cfg.nodes then some (s.put n ⟨completedRows cfg s.groups n, .starting⟩) else none
    | some _ => none
  | .firstSave n | .claim n | .begin n | .save n | .mark n _ _ | .ret n | .raise n | .finish n
  | .terminal n _ | .kill n => (s.lanes n).bind fun l => laneStep cfg s n l a
  | .resume sameBinding evidence =>
    if ∀ n ∈ cfg.nodes, s.lanes n = none then
      (recoverGroups cfg sameBinding evidence s.reviews).map fun groups =>
        { s with groups, attempt := s.attempt + 1 }
    else none

/-- A new run: the queue is initialized, nothing else has happened. -/
def start (cfg : Config) : State where
  groups := freshGroups cfg.experiments
  reviews := fun _ => none
  lanes := fun _ => none
  attempt := 1
  log := []

end Review

end DeltaBox
