import DeltaBox.Lib.Schedule
import Mathlib.Data.Rat.Init
import Mathlib.Algebra.Order.Ring.Rat

/-!
# From legacy transitions to a schedule

`legacy_schedule.py` turns a list of state transitions into a schedule. Some states are skipped. The
parent of a state may be one of them, and then the search for its checkpoint climbs on.

## What is given

An `Env` has the digests of texts, the time between two time stamps, the instance, and the repairs
that are on disk.

## Main definitions

* `Transition`, `Repair` — the data
* `recordedDiffOp`, `workerOps` — the operations of a transition
* `parentCheckpoint` — the search
* `convertLegacy` — the schedule
-/

namespace DeltaBox

namespace Convert

namespace Legacy

/-- What is raised. -/
inductive Raised where
  | valueError (message : String)
  /-- Another exception, from a time stamp. -/
  | other
  /-- The search for a parent is still running. -/
  | running
  deriving DecidableEq

variable {κ : Type}

/-- A transition. Its context is the paths of the files in view, and its actions have the diffs of
their outputs, if there are any. -/
structure Transition (κ : Type) where
  id : κ
  name : String
  previousStateId : Option κ
  filePaths : List (Option String)
  diffs : List (Option String)
  createdAt : Option String

/-- A repair of a recorded diff. -/
structure Repair (κ : Type) where
  traceSha256 : String
  instanceId : String
  transition : κ
  originalDiffSha256 : String
  repairedDiff : String
  repairedDiffSha256 : String
  path : String
  beforeSha256 : String
  afterSha256 : String
  deriving DecidableEq

/-- An operation of the worker. -/
inductive Op (κ : Type) where
  | noop (note : String)
  | viewFile (path : String)
  | applyRecordedDiff (diff : String)
  /-- With the original diff, and the repair as its evidence. -/
  | applyRepairedDiff (diff originalDiff : String) (repair : Repair κ)
  deriving DecidableEq

/-- Is it a write? -/
def Op.isDiff : Op κ → Bool
  | .applyRecordedDiff _ => true
  | .applyRepairedDiff _ _ _ => true
  | _ => false

/-- What is given beside the transitions. -/
structure Env (κ : Type) where
  sha1 : String → String
  sha256 : String → String
  /-- How an id is written into a text. -/
  format : κ → String
  /-- The milliseconds from one time stamp to another. It is none if one of them is not understood. -/
  elapsedMs : String → String → Option ℚ
  instanceId : String
  traceSha256 : String
  commit : Option String
  schemaVersion : ℤ
  repairs : List (Repair κ)

/-- A text of `n` digits of base 16. -/
def isHex (n : ℕ) (s : String) : Bool :=
  s.toList.length = n && s.toList.all fun c => c.isDigit || ('a' ≤ c && c ≤ 'f')

variable [DecidableEq κ] (env : Env κ)

/-- `identifier`. -/
def Env.identifier (text : String) : String :=
  String.ofList ((env.sha1 (env.instanceId ++ "::" ++ text)).toList.take 8)

/-- The id of the checkpoint of a transition. -/
def Env.cid (tid : κ) : String := env.identifier (env.format tid)

/-- The id of the first checkpoint. -/
def Env.rootId : String := env.identifier "bootstrap"

/-- `recorded_diff_op`. -/
def recordedDiffOp (diff : String) (transitionId : κ) : Except Raised (Op κ) :=
  let digest := env.sha256 diff
  match env.repairs.filter fun r =>
      r.traceSha256 = env.traceSha256 ∧ r.instanceId = env.instanceId ∧
        r.transition = transitionId ∧ r.originalDiffSha256 = digest with
  | [] => .ok (.applyRecordedDiff diff)
  | [repair] =>
    if env.sha256 repair.repairedDiff ≠ repair.repairedDiffSha256 then
      .error (.valueError "Changed recorded diff repair")
    else if !(isHex 64 repair.beforeSha256 && isHex 64 repair.afterSha256) then
      .error (.valueError "Recorded diff repair requires complete file hashes")
    else .ok (.applyRepairedDiff repair.repairedDiff diff repair)
  | _ => .error (.valueError "Ambiguous recorded diff repair")

/-- The operations for the diffs. -/
def diffOps (tid : κ) : List (Option String) → Except Raised (List (Op κ))
  | [] => .ok []
  | none :: diffs => diffOps tid diffs
  | some diff :: diffs =>
    if diff = "" then diffOps tid diffs
    else
      match recordedDiffOp env diff tid with
      | .error e => .error e
      | .ok op => (diffOps tid diffs).map (op :: ·)

/-- The operations of a transition. -/
def workerOps (tr : Transition κ) : Except Raised (List (Op κ)) :=
  let views := tr.filePaths.filterMap fun path => path.bind fun p =>
    if p = "" then none else some (Op.viewFile p)
  match diffOps env tr.id tr.diffs with
  | .error e => .error e
  | .ok diffs =>
    let ops := views ++ diffs
    let ops := if ops = [] then
      [.noop "legacy state has no recorded file IO; classifier boundary only"] else ops
    if tr.name ≠ "EditCode" ∧ ops.any Op.isDiff then
      .error (.valueError "Legacy read-only classification contains a recorded write")
    else .ok ops

/-- The time until the next transition. -/
def latency (tr : Transition κ) : Option (Transition κ) → Except Raised ℚ
  | none => .ok 0
  | some next =>
    match tr.createdAt.bind fun start => next.createdAt.bind fun stop => env.elapsedMs start stop with
    | none => .error .other
    | some ms => .ok (max 0 ms)

/-- The transitions that get no checkpoint. -/
def skipped (tr : Transition κ) : Bool := tr.name ∈ ["Pending", "Rejected", "Finished"]

/-- `by_id`. -/
def byId (transitions : List (Transition κ)) : Dict κ (Transition κ) :=
  transitions.foldl (fun d tr => d.set tr.id tr) .empty

/-- The loop of `parent_checkpoint`: what has been seen, and where the search is. It is none while
the search goes on. -/
def parentLoop (transitions : Dict κ (Transition κ)) (known : Dict κ String) :
    ℕ → List κ → Option κ → Option (Except Raised String)
  | _, _, none => some (.ok env.rootId)
  | 0, _, some _ => none
  | fuel + 1, seen, some tid =>
    match known.find? tid with
    | some c => some (.ok c)
    | none =>
      if tid ∈ seen then some (.error (.valueError "Cycle in legacy state parents"))
      else
        match transitions.find? tid with
        | none => some (.error (.valueError "Missing legacy state parent"))
        | some tr => parentLoop transitions known fuel (tid :: seen) tr.previousStateId

/-- `parent_checkpoint`. -/
def parentCheckpoint (transitions : Dict κ (Transition κ)) (known : Dict κ String)
    (tr : Transition κ) : Except Raised String :=
  (parentLoop env transitions known (transitions.keys.length + 1) []
    tr.previousStateId).getD (.error .running)

/-- An event of the schedule. -/
inductive Event (κ : Type) where
  | bootstrap (ckptId : String)
  | ckpt (iter : ℕ) (ckptId : String) (lightweight : Bool) (latencyMs recordedMs : ℚ)
    (workerOps : List (Op κ)) (transitionId : κ) (state : String)
  | restore (iter : ℕ) (restoreToCkptId : String)
  deriving DecidableEq

/-- The operations of the first checkpoint. -/
def bootstrapOps : List (Op κ) := [.noop "initial physical state for legacy read-only roots"]

/-- The event, read over abstract states. -/
def Event.reading : Event κ → Schedule.Event String (List (Op κ))
  | .bootstrap ckptId => .ckpt ckptId bootstrapOps
  | .ckpt _ ckptId _ _ _ workerOps _ _ => .ckpt ckptId workerOps
  | .restore _ restoreToCkptId => .restore restoreToCkptId

/-- The variables of the loop. -/
structure Progress (κ : Type) where
  events : List (Event κ)
  known : Dict κ String
  active : String

variable (adaptive paperZero : Bool) (transitions : Dict κ (Transition κ))

/-- A transition that is not skipped. -/
def convertOne (st : Progress κ) (tr : Transition κ) (next : Option (Transition κ)) :
    Except Raised (Progress κ) :=
  match parentCheckpoint env transitions st.known tr with
  | .error e => .error e
  | .ok parent =>
    let events := if st.active ≠ parent then
      st.events ++ [.restore st.events.length parent] else st.events
    match workerOps env tr with
    | .error e => .error e
    | .ok ops =>
      match latency env tr next with
      | .error e => .error e
      | .ok ms =>
        .ok
          { events := events ++ [.ckpt events.length (env.cid tr.id)
              (adaptive && tr.name ≠ "EditCode") (if paperZero then 0 else ms) ms ops tr.id tr.name]
            known := st.known.set tr.id (env.cid tr.id)
            active := env.cid tr.id }

/-- The transitions one after the other. -/
def convertLoop : Progress κ → List (Transition κ) → Except Raised (Progress κ)
  | st, [] => .ok st
  | st, tr :: rest =>
    if skipped tr then convertLoop st rest
    else
      match convertOne env adaptive paperZero transitions st tr rest.head? with
      | .error e => .error e
      | .ok st => convertLoop st rest

/-- `convert_legacy`, up to what it writes. -/
def convertLegacy (adaptive : Bool) (timingPolicy : String) (trs : List (Transition κ)) :
    Except Raised (List (Event κ)) :=
  if timingPolicy ∉ ["paper-zero", "recorded-wall"] then
    .error (.valueError "legacy timing policy must be paper-zero or recorded-wall")
  else if env.schemaVersion ≠ 1 then
    .error (.valueError "Unsupported legacy diff repair schema")
  else if !(env.commit.any (isHex 40)) then
    .error (.valueError "Legacy trace has no full base commit")
  else
    (convertLoop env adaptive (timingPolicy = "paper-zero") (byId trs)
      ⟨[.bootstrap env.rootId], .empty, env.rootId⟩ trs).map Progress.events

end Legacy

end Convert

end DeltaBox
