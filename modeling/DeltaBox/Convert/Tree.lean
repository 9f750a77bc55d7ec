import DeltaBox.Lib.Schedule
import Mathlib.Data.List.Sort
import Mathlib.Data.Rat.Init

/-!
# From a recorded tree to a schedule

`tree_to_schedule.py` turns the tree of a search into a schedule. The nodes come in the order of
their ids, which is the order in which they were expanded. A restore is emitted when the parent of a
node is not the node before it.

## What is given

`sha1` is the hex digest of a text, and `ops` are the operations of a node as `node_worker_ops`
translates its steps.

## Main definitions

* `Node`, `walkWithParents` — the tree
* `nodeStrategy` — the strategy of a node
* `expand` — one node
* `convert` — the schedule
* `Event.reading` — an event as a checkpoint or a restore of abstract states
-/

namespace DeltaBox

namespace Convert

/-- A step of a node: the class of its arguments and its name, if these are strings, and whatever
else is recorded. -/
structure Step (α : Type) where
  actionArgsClass : Option String
  name : Option String
  rest : α

/-- A node of the tree. -/
inductive Node (α : Type) where
  | mk (nodeId : Option ℤ) (isDuplicate : Bool) (actionSteps : List (Step α))
    (children : List (Node α))

variable {α ω : Type}

namespace Node

/-- `node_id`. -/
def nodeId : Node α → Option ℤ
  | mk i _ _ _ => i

/-- `is_duplicate`. -/
def isDuplicate : Node α → Bool
  | mk _ d _ _ => d

/-- `action_steps`. -/
def actionSteps : Node α → List (Step α)
  | mk _ _ s _ => s

@[simp] theorem nodeId_mk (i : Option ℤ) (d : Bool) (s : List (Step α)) (cs : List (Node α)) :
    (mk i d s cs).nodeId = i := rfl

@[simp] theorem isDuplicate_mk (i : Option ℤ) (d : Bool) (s : List (Step α))
    (cs : List (Node α)) : (mk i d s cs).isDuplicate = d := rfl

end Node

mutual

/-- `walk_with_parents`. -/
def walkWithParents : Node α → Option (Node α) → List (Node α × Option (Node α))
  | .mk i d s cs, parent => (.mk i d s cs, parent) :: walkChildren cs (.mk i d s cs)

/-- The walks of the children. -/
def walkChildren : List (Node α) → Node α → List (Node α × Option (Node α))
  | [], _ => []
  | c :: cs, parent => walkWithParents c (some parent) ++ walkChildren cs parent

end

/-- `FS_MUTATING_ACTIONS`. -/
def fsMutatingActions : List String :=
  ["StringReplaceArgs", "CreateFileArgs", "AppendStringArgs", "InsertLineArgs", "RewriteFileArgs",
    "RunTestsArgs", "EditCode"]

/-- `cls.rsplit(".", 1)[-1]`. -/
def shortName (cls : String) : String :=
  String.ofList (cls.toList.reverse.takeWhile (· ≠ '.')).reverse

/-- The strategies of a checkpoint. -/
inductive Strategy where
  | lightweight
  | standard
  deriving DecidableEq

/-- `node_strategy`. -/
def nodeStrategy (node : Node α) : Strategy :=
  if node.actionSteps.any fun step =>
      (step.actionArgsClass.any fun cls => shortName cls ∈ fsMutatingActions) ||
        step.name.any (· ∈ fsMutatingActions) then
    .standard
  else .lightweight

/-- An event of the schedule. -/
inductive Event (ω : Type) where
  | ckpt (iter : ℕ) (ckptId : String) (strategy : Strategy) (dumpSizeMb : ℚ) (nodeId : Option ℤ)
    (workerOps : List ω) (workerOpsRequired : Bool)
  | restore (iter : ℕ) (restoreToCkptId : String)
  deriving DecidableEq

/-- The event, read over abstract states. -/
def Event.reading : Event ω → Schedule.Event String (List ω)
  | .ckpt _ ckptId _ _ _ workerOps _ => .ckpt ckptId workerOps
  | .restore _ restoreToCkptId => .restore restoreToCkptId

/-- `_ckpt_id`. -/
def ckptId (sha1 : String → String) (nodeId : ℤ) (instanceId : String) : String :=
  String.ofList ((sha1 (instanceId ++ "::" ++ toString nodeId)).toList.take 8)

/-- A node with its id and its parent. -/
abbrev Row (α : Type) : Type := ℤ × Node α × Option (Node α)

/-- One entry of `by_id`. -/
def addById (d : Dict ℤ (Node α × Option (Node α))) (x : Node α × Option (Node α)) :
    Dict ℤ (Node α × Option (Node α)) :=
  match x.1.nodeId with
  | none => d
  | some i => d.set i x

/-- `by_id`. -/
def byId (root : Node α) : Dict ℤ (Node α × Option (Node α)) :=
  (walkWithParents root none).foldl addById .empty

/-- `expansion_order`, with what is looked up for each id. -/
def expansionOrder (root : Node α) : List (Row α) :=
  ((byId root).keys.insertionSort (· ≤ ·)).filterMap fun nid =>
    ((byId root).find? nid).map fun x => (nid, x)

/-- The variables of the loop. -/
structure Progress (ω : Type) where
  schedule : List (Event ω)
  nodeToCkpt : Dict ℤ String
  iter : ℕ
  previouslyExpandedNodeId : Option ℤ

variable (cid : ℤ → String) (ops : Node α → List ω)

/-- A restore, if the node before was somewhere else and the parent has a checkpoint. -/
def Progress.rollback (st : Progress ω) (parentId : Option ℤ) : Progress ω :=
  if st.previouslyExpandedNodeId ≠ parentId then
    match parentId.bind st.nodeToCkpt.find? with
    | some target =>
      { st with schedule := st.schedule ++ [.restore st.iter target], iter := st.iter + 1 }
    | none => st
  else st

/-- One node. -/
def expand (st : Progress ω) : Row α → Progress ω
  | (nid, _, none) =>
    { schedule := st.schedule ++ [.ckpt st.iter (cid nid) .standard (78 / 10) none [] false]
      nodeToCkpt := st.nodeToCkpt.set nid (cid nid)
      iter := st.iter + 1
      previouslyExpandedNodeId := some nid }
  | (nid, node, some parent) =>
    let st := st.rollback parent.nodeId
    if node.isDuplicate then { st with previouslyExpandedNodeId := some nid }
    else
      let strat := nodeStrategy node
      { schedule := st.schedule ++
          [.ckpt st.iter (cid nid) strat (if strat = .standard then 78 / 10 else 0) (some nid)
            (ops node) true]
        nodeToCkpt := st.nodeToCkpt.set nid (cid nid)
        iter := st.iter + 1
        previouslyExpandedNodeId := some nid }

/-- Why there is no schedule. -/
inductive Refusal where
  /-- The trajectory has no root. -/
  | noRoot
  /-- No node has an id. -/
  | noNodes

/-- `convert`, without the record of the model's times. -/
def convert (sha1 : String → String) (root : Option (Node α)) (instanceId : String) :
    Except Refusal (List (Event ω)) :=
  match root with
  | none => .error .noRoot
  | some root =>
    if (byId root).keys = [] then .error .noNodes
    else
      .ok ((expansionOrder root).foldl (expand (fun nid => ckptId sha1 nid instanceId) ops)
        ⟨[], .empty, 1, none⟩).schedule

end Convert

end DeltaBox
