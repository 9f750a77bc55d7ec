import DeltaBox.Lib.Machine
import DeltaBox.Search.Sandbox
import Mathlib.Data.List.MinMax

/-!
# `run_decoupled` and `run_root_mcts`

The two searches that drive a worker from outside (`agent/host/decoupled_mcts.py`,
`upper/host/root_mcts.py`). The loop is the same: pick a node by UCT, restore the sandbox to it
unless it is the current one, let the worker take a step, checkpoint, and evaluate the child. Where
the step fails `run_decoupled` raises, "to avoid a late action", and `run_root_mcts` goes on with
the next iteration.

## What is modelled

* The tree with what the loop reads of a node. The UCT value is a floating point number, so how the
  children of a node rank is a choice of the environment.
* `_select` with its descent. It is given as many steps as there are nodes, `select_add` shows that
  more of them change nothing.
* `_evaluate` as far as it runs something: a finished child is verified, or its `git diff` is read.

A run of the loop with `max_iter` is a run of at most that many turns.
-/

namespace DeltaBox

namespace Search

universe u

variable {σ : Type u}

/-- A node of the tree. Its number is its place in `nodes`. -/
structure Node where
  parent : Option ℕ
  ckptId : ℕ
  finished : Bool
  depth : ℕ
  children : List ℕ
  deriving DecidableEq, Repr

/-- `_select`: descend until a node can be expanded. -/
def select (nodes : List Node) (maxExpansions : ℕ) (uct : ℕ → ℕ) : ℕ → ℕ → Option ℕ
  | 0, _ => none
  | fuel + 1, i =>
    match nodes[i]? with
    | none => none
    | some node =>
      if !node.finished && decide (node.children.length < maxExpansions) then some i
      else match node.children.argmax uct with
        | none => none
        | some child => select nodes maxExpansions uct fuel child

/-- The reply of the worker to a step. -/
inductive Reply where
  /-- `client.step` raises, by a timeout or otherwise. -/
  | raises
  /-- The reply is not `ok`. -/
  | notOk
  | ok (finished : Bool)
  deriving DecidableEq, Repr

/-- What happens in one iteration. -/
structure StepTurn (σ : Type u) where
  uct : ℕ → ℕ
  /-- The restore, or reopening the channel, raises. -/
  restoreRaises : Bool
  /-- What the worker does to the sandbox until its step is over for the loop. -/
  worker : σ → σ
  reply : Reply
  checkpointRaises : Bool
  /-- What the commands of `_evaluate` do to the sandbox. -/
  verify : σ → σ
  evaluateRaises : Bool

/-- The search. -/
structure HostMcts (σ : Type u) where
  sandbox : Sandbox σ
  nodes : List Node
  current : ℕ
  running : Bool
  /-- The actions, most recent first. -/
  expansions : List (Expansion σ)
  /-- The failed steps since the last restore or checkpoint. -/
  failed : List (σ × σ)

namespace HostMcts

/-- The start of the loop: the checkpoint of the root. -/
def seed (x : σ) : HostMcts σ where
  sandbox := { state := x, saved := [x] }
  nodes := [{ parent := none, ckptId := 0, finished := false, depth := 0, children := [] }]
  current := 0
  running := true
  expansions := []
  failed := []

/-- The node of the iteration. -/
def target (s : HostMcts σ) (maxExpansions : ℕ) (t : StepTurn σ) : Option ℕ :=
  select s.nodes maxExpansions t.uct s.nodes.length 0

/-- The restore, unless the node is the current one. -/
def rewind (s : HostMcts σ) (target ckptId : ℕ) : HostMcts σ :=
  if target = s.current then s
  else { s with sandbox := s.sandbox.restore ckptId, current := target, failed := [] }

/-- `client.step`. -/
def step (s : HostMcts σ) (target ckptId : ℕ) (worker : σ → σ) : HostMcts σ :=
  { s with
    sandbox := s.sandbox.run worker
    expansions :=
      { parent := target, ckpt := some ckptId, start := s.sandbox.state,
        reached := worker s.sandbox.state, recorded := none } :: s.expansions }

/-- `run_root_mcts` goes on behind a step that failed. -/
def skip (s : HostMcts σ) (x : σ) : HostMcts σ :=
  { s with failed := (x, s.sandbox.state) :: s.failed }

/-- The checkpoint of the child, and its node. -/
def record (s : HostMcts σ) (target : ℕ) (finished : Bool) : HostMcts σ :=
  let (sandbox, ckpt) := s.sandbox.checkpoint
  let id := s.nodes.length
  { s with
    sandbox
    nodes :=
      s.nodes.modify target (fun n => { n with children := n.children ++ [id] }) ++
        [{ parent := some target, ckptId := ckpt, finished,
           depth := ((s.nodes[target]?).elim 0 Node.depth) + 1, children := [] }]
    current := id
    expansions := noteRecorded ckpt s.expansions
    failed := [] }

/-- `_evaluate`. A child that is not finished is judged by its action and its observation. -/
def evaluate (s : HostMcts σ) (finished : Bool) (verify : σ → σ) : HostMcts σ :=
  if finished then { s with sandbox := s.sandbox.run verify } else s

/-- One iteration of the loop. `abort` is what tells the two searches apart. Where something else
raises both end. -/
def turn (abort : Bool) (maxExpansions : ℕ) (s : HostMcts σ) (t : StepTurn σ) :
    Option (HostMcts σ) :=
  if s.running then
    match s.target maxExpansions t with
    | none => some { s with running := false }
    | some target =>
      (s.nodes[target]?).map fun node =>
        if target ≠ s.current ∧ t.restoreRaises then { s with running := false }
        else
          let s := s.rewind target node.ckptId
          let x := s.sandbox.state
          let s := s.step target node.ckptId t.worker
          match t.reply with
          | .ok finished =>
            if t.checkpointRaises then { s with running := false }
            else
              let s := (s.record target finished).evaluate finished t.verify
              { s with running := !(finished && t.evaluateRaises) }
          | _ => if abort then { s with running := false } else s.skip x
  else none

end HostMcts

/-- An iteration of `run_decoupled`. -/
def runDecoupled (maxExpansions : ℕ) (s : HostMcts σ) (t : StepTurn σ) : Option (HostMcts σ) :=
  s.turn true maxExpansions t

/-- An iteration of `run_root_mcts`. -/
def runRootMcts (maxExpansions : ℕ) (s : HostMcts σ) (t : StepTurn σ) : Option (HostMcts σ) :=
  s.turn false maxExpansions t

/-- The iteration does not start where a failed step has left the sandbox: where the selected node
is the current one, the steps that failed since it became that have changed nothing. -/
def HostMcts.Undisturbed (maxExpansions : ℕ) (s : HostMcts σ) (t : StepTurn σ) : Prop :=
  s.target maxExpansions t = some s.current → Still s.failed

instance [DecidableEq σ] (maxExpansions : ℕ) (s : HostMcts σ) (t : StepTurn σ) :
    Decidable (s.Undisturbed maxExpansions t) :=
  inferInstanceAs (Decidable (_ → Still s.failed))

/-! ### The descent of `_select` -/

variable {nodes : List Node} {maxExpansions : ℕ} {uct : ℕ → ℕ} {fuel i j : ℕ}

/-- `_select` returns a node that is not finished and has room for a child. -/
theorem select_open (h : select nodes maxExpansions uct fuel i = some j) :
    ∃ node, nodes[j]? = some node ∧ node.finished = false ∧
      node.children.length < maxExpansions := by
  induction fuel generalizing i with
  | zero => simp [select] at h
  | succ fuel ih =>
    rw [select] at h
    cases hnode : nodes[i]? with
    | none => simp [hnode] at h
    | some node =>
      simp only [hnode] at h
      by_cases hopen : (!node.finished && decide (node.children.length < maxExpansions)) = true
      · rw [if_pos hopen] at h
        obtain rfl := Option.some.inj h
        simp only [Bool.and_eq_true, Bool.not_eq_true', decide_eq_true_eq] at hopen
        exact ⟨node, hnode, hopen.1, hopen.2⟩
      · rw [if_neg hopen] at h
        cases hchild : node.children.argmax uct with
        | none => simp [hchild] at h
        | some child =>
          simp only [hchild] at h
          exact ih h

/-- The children of a node come behind it. -/
def Descending (nodes : List Node) : Prop :=
  ∀ (i : ℕ) (node : Node), nodes[i]? = some node → ∀ c ∈ node.children, i < c

/-- The descent is over before its steps run out. -/
theorem select_add (hdesc : Descending nodes) (hfuel : nodes.length ≤ fuel + i) (more : ℕ) :
    select nodes maxExpansions uct (fuel + more) i = select nodes maxExpansions uct fuel i := by
  induction fuel generalizing i with
  | zero =>
    have hnone : nodes[i]? = none := List.getElem?_eq_none (by omega)
    cases more with
    | zero => rfl
    | succ more => simp [select, hnone]
  | succ fuel ih =>
    rw [Nat.succ_add_eq_add_succ, Nat.add_succ, select, select]
    cases hnode : nodes[i]? with
    | none => rfl
    | some node =>
      cases hchild : node.children.argmax uct with
      | none => simp only [hchild]
      | some child =>
        have hlt := hdesc i node hnode child (List.argmax_mem hchild)
        simp only [hchild, ih (i := child) (by omega)]

end Search

end DeltaBox
