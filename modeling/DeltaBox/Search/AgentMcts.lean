import DeltaBox.Lib.Dict
import DeltaBox.Lib.Machine
import DeltaBox.Lib.Text
import DeltaBox.Search.Sandbox

/-!
# `AgentMCTS.run`

The search of `upper/agent/search.py`: it selects an expandable node, restores the sandbox to it
unless its checkpoint is the current one, lets the expander make a child and the agent act for it,
captures the patch, and checkpoints. A patch that was not seen before is verified by a command in
the sandbox, before the checkpoint, or behind it where the first capture found no patch.

## What is modelled

* An iteration of the loop with every early end it has: no expandable node, no selection, a restore
  or a checkpoint that raises, an expander that returns `None`.
* `_capture_patch` up to the patch it reads from the layers, `_maybe_live_verify` with its limit and
  its cache, and the exceptions that the loop catches.
* The nodes that are expandable, the heuristics that pick one of them and the budgets they use are
  choices of the environment, and so is what makes the loop stop behind an iteration. A run of the
  loop with a limit on the iterations is a run of at most that many turns.

The host-side verifier runs outside the sandbox. What is kept of it is that it may raise.
-/

namespace DeltaBox

namespace Search

universe u

variable {σ : Type u}

/-- What the search is started with. -/
structure Config where
  /-- `diff_capture_cwd` is there. -/
  diffCaptureCwd : Bool
  /-- `diff_base_cwd` is there. -/
  diffBaseCwd : Bool
  /-- `live_verify_cmd` and `diff_capture_env` are there. -/
  liveVerifyCmd : Bool
  liveVerifyMax : ℕ
  /-- `hashlib.sha1`. -/
  sha1 : String → String

/-- A run of the command that verifies a patch. -/
structure Verification (σ : Type u) where
  effect : σ → σ
  raises : Bool

/-- What a capture of the patch meets. -/
structure Capture (σ : Type u) where
  /-- `_node_attempted_edit`. -/
  attemptedEdit : Bool
  /-- The patch in the physical layers. `none`: reading them raises. -/
  patch : Option String
  live : Verification σ
  hostRaises : Bool

/-- What the selector returns. -/
inductive Selection where
  | node (id : ℕ)
  /-- A record that has the identifier of a node, or none. -/
  | record (id : Option ℕ)

/-- What happens in one iteration. -/
structure Turn (σ : Type u) where
  /-- `get_expandable_descendants`. -/
  expandable : List ℕ
  /-- `_select_failure_recovery_node`. -/
  recovery : Option ℕ
  selection : Selection
  restoreRaises : Bool
  /-- The child the expander makes. -/
  child : Option ℕ
  /-- What the agent's run does to the sandbox, whether it returns or raises. -/
  agent : σ → σ
  /-- The capture before the checkpoint. -/
  before : Capture σ
  checkpointRaises : Bool
  /-- The capture behind it. -/
  after : Capture σ
  /-- One of the conditions of step 6 is met. -/
  stops : Bool

/-- The search. -/
structure AgentMcts (σ : Type u) where
  sandbox : Sandbox σ
  ckptByNode : Dict ℕ ℕ
  currentCkpt : ℕ
  diffByNode : Dict ℕ String
  liveVerifyCount : ℕ
  /-- The keys of `_live_verify_seen` that the verifier in the sandbox has put there. -/
  liveVerifySeen : List String
  running : Bool
  /-- The actions, most recent first. -/
  expansions : List (Expansion σ)
  /-- The verifications since the last action, restore or checkpoint. -/
  verified : List (σ × σ)

/-- `bool(text.strip())`. -/
def nonblank (text : String) : Bool := text.toList.any fun c => !Text.isSpace c

/-- The node of the iteration. `none`: the loop ends. -/
def Turn.selected (t : Turn σ) : Option ℕ :=
  if t.expandable = [] then none
  else match t.recovery with
    | some n => some n
    | none =>
      match t.selection with
      | .node n => some n
      | .record none => none
      | .record (some n) => if n ∈ t.expandable then some n else none

namespace AgentMcts

/-- The start of `run`: the clean checkpoint of the root. -/
def seed (root : ℕ) (x : σ) : AgentMcts σ where
  sandbox := { state := x, saved := [x] }
  ckptByNode := Dict.empty.set root 0
  currentCkpt := 0
  diffByNode := .empty
  liveVerifyCount := 0
  liveVerifySeen := []
  running := true
  expansions := []
  verified := []

/-- Step 2 restores the sandbox. -/
def restores (s : AgentMcts σ) (selected : ℕ) : Bool :=
  match s.ckptByNode.find? selected with
  | none => false
  | some c => c != s.currentCkpt

/-- Step 2. -/
def rewind (s : AgentMcts σ) (selected : ℕ) : AgentMcts σ :=
  match s.ckptByNode.find? selected with
  -- no record: the current state is taken for the node's
  | none => s
  | some c =>
    if c = s.currentCkpt then s
    else { s with sandbox := s.sandbox.restore c, currentCkpt := c, verified := [] }

/-- Step 4. -/
def act (s : AgentMcts σ) (selected : ℕ) (agent : σ → σ) : AgentMcts σ :=
  { s with
    sandbox := s.sandbox.run agent
    expansions :=
      { parent := selected, ckpt := s.ckptByNode.find? selected, start := s.sandbox.state,
        reached := agent s.sandbox.state, recorded := none } :: s.expansions
    verified := [] }

/-- `_capture_patch`. -/
def capturePatch (cfg : Config) (c : Capture σ) : Option String :=
  if cfg.diffBaseCwd && c.attemptedEdit then c.patch else some ""

/-- Whether `_maybe_live_verify` runs its command for a patch. -/
def liveVerifies (cfg : Config) (s : AgentMcts σ) (diff : String) : Bool :=
  cfg.liveVerifyCmd && decide (s.liveVerifyCount < cfg.liveVerifyMax) &&
    !s.liveVerifySeen.contains (cfg.sha1 diff)

/-- `_maybe_live_verify`, with whether it raises. -/
def maybeLiveVerify (cfg : Config) (s : AgentMcts σ) (diff : String) (v : Verification σ) :
    AgentMcts σ × Bool :=
  if s.liveVerifies cfg diff then
    ({ s with
      sandbox := s.sandbox.run v.effect
      liveVerifyCount := s.liveVerifyCount + 1
      liveVerifySeen :=
        if v.raises then s.liveVerifySeen else cfg.sha1 diff :: s.liveVerifySeen
      verified := (s.sandbox.state, v.effect s.sandbox.state) :: s.verified }, v.raises)
  else (s, false)

/-- The body of the `try` around a capture, with whether it raises. -/
def capture (cfg : Config) (s : AgentMcts σ) (child : ℕ) (c : Capture σ) : AgentMcts σ × Bool :=
  match capturePatch cfg c with
  | none => (s, true)
  | some diff =>
    let s := { s with diffByNode := s.diffByNode.set child diff }
    if nonblank diff then
      let (s, raised) := s.maybeLiveVerify cfg diff c.live
      (s, raised || c.hostRaises)
    else (s, false)

/-- Step 4.5. A capture that raises leaves the node without a patch. -/
def captureBefore (cfg : Config) (s : AgentMcts σ) (child : ℕ) (c : Capture σ) : AgentMcts σ :=
  if cfg.diffCaptureCwd then
    let (s, raised) := s.capture cfg child c
    if raised then { s with diffByNode := s.diffByNode.set child "" } else s
  else s

/-- The second capture, behind the checkpoint. It is for a node that has no patch. -/
def captureAfter (cfg : Config) (s : AgentMcts σ) (child : ℕ) (c : Capture σ) : AgentMcts σ :=
  if cfg.diffCaptureCwd && !nonblank ((s.diffByNode.find? child).getD "") then
    (s.capture cfg child c).1
  else s

/-- Step 5. -/
def record (s : AgentMcts σ) (child : ℕ) : AgentMcts σ :=
  let (sandbox, ckpt) := s.sandbox.checkpoint
  { s with
    sandbox
    ckptByNode := s.ckptByNode.set child ckpt
    currentCkpt := ckpt
    expansions := noteRecorded ckpt s.expansions
    verified := [] }

/-- One iteration of the loop of `run`. An exception that the loop does not catch ends the run. -/
def turn (cfg : Config) (s : AgentMcts σ) (t : Turn σ) : Option (AgentMcts σ) :=
  if s.running then
    match t.selected with
    | none => some { s with running := false }
    | some n =>
      if s.restores n && t.restoreRaises then some { s with running := false }
      else
        match t.child with
        | none => some (s.rewind n)
        | some child =>
          let s := ((s.rewind n).act n t.agent).captureBefore cfg child t.before
          if t.checkpointRaises then some { s with running := false }
          else
            let s := (s.record child).captureAfter cfg child t.after
            some { s with running := !t.stops }
  else none

/-- The turn disturbs no expansion: the selected node has a record; where its checkpoint is the
current one, the verifications behind it have changed nothing; and the verification that runs
between the action and the checkpoint changes nothing. -/
def Undisturbed (cfg : Config) (s : AgentMcts σ) (t : Turn σ) : Prop :=
  ∀ n ∈ t.selected, ∀ _child ∈ t.child, ∃ c ∈ s.ckptByNode.find? n,
    (c = s.currentCkpt → Still s.verified) ∧
    ∀ x ∈ s.sandbox.saved[c]?, ∀ diff ∈ capturePatch cfg t.before,
      (cfg.diffCaptureCwd && nonblank diff && s.liveVerifies cfg diff) = true →
        t.before.live.effect (t.agent x) = t.agent x

instance [DecidableEq σ] (cfg : Config) (s : AgentMcts σ) (t : Turn σ) :
    Decidable (s.Undisturbed cfg t) :=
  inferInstanceAs (Decidable (∀ n ∈ t.selected, ∀ _child ∈ t.child, ∃ c ∈ s.ckptByNode.find? n,
    (c = s.currentCkpt → Still s.verified) ∧
    ∀ x ∈ s.sandbox.saved[c]?, ∀ diff ∈ capturePatch cfg t.before,
      (cfg.diffCaptureCwd && nonblank diff && s.liveVerifies cfg diff) = true →
        t.before.live.effect (t.agent x) = t.agent x))

end AgentMcts

end Search

end DeltaBox
