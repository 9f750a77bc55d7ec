import Mathlib.Data.List.Basic

/-!
# The sandbox below a search

A search tree is grown over one sandbox. The loops that grow it (`upper/agent/search.py`,
`agent/host/decoupled_mcts.py`, `upper/host/root_mcts.py`) know the sandbox through three
operations: a checkpoint saves its state, a restore sets it to a saved one, and a command or an
action moves it.

Each expansion of a node is kept in a history, with the checkpoint that was recorded for the node
when the action started and the one that was recorded for the child.
-/

namespace DeltaBox

namespace Search

universe u

variable {σ : Type u}

/-- A sandbox and its checkpoints. -/
structure Sandbox (σ : Type u) where
  state : σ
  /-- What each checkpoint holds, by its number. -/
  saved : List σ

namespace Sandbox

/-- `checkpoint`, with the number of the new checkpoint. -/
def checkpoint (b : Sandbox σ) : Sandbox σ × ℕ :=
  ({ b with saved := b.saved ++ [b.state] }, b.saved.length)

/-- `restore`. -/
def restore (b : Sandbox σ) (c : ℕ) : Sandbox σ :=
  { b with state := b.saved.getD c b.state }

/-- Something runs in the sandbox. -/
def run (b : Sandbox σ) (f : σ → σ) : Sandbox σ :=
  { b with state := f b.state }

variable {b : Sandbox σ} {c : ℕ} {f : σ → σ} {x : σ}

@[simp] theorem saved_restore : (b.restore c).saved = b.saved := rfl

@[simp] theorem saved_run : (b.run f).saved = b.saved := rfl

@[simp] theorem state_run : (b.run f).state = f b.state := rfl

@[simp] theorem state_checkpoint : b.checkpoint.1.state = b.state := rfl

@[simp] theorem saved_checkpoint : b.checkpoint.1.saved = b.saved ++ [b.state] := rfl

theorem state_restore (hx : b.saved[c]? = some x) : (b.restore c).state = x := by
  rw [restore, List.getD_eq_getElem?_getD, hx]
  rfl

/-- The new checkpoint holds the state it was taken in. -/
theorem saved_checkpoint_self : b.checkpoint.1.saved[b.checkpoint.2]? = some b.state := by
  simp [checkpoint]

/-- The checkpoints there were hold what they held. -/
theorem saved_checkpoint_of_some (hx : b.saved[c]? = some x) :
    b.checkpoint.1.saved[c]? = some x := by
  obtain ⟨hlt, -⟩ := List.getElem?_eq_some_iff.mp hx
  rw [saved_checkpoint, List.getElem?_append_left hlt, hx]

end Sandbox

/-- One action for a child of a node. -/
structure Expansion (σ : Type u) where
  parent : ℕ
  /-- The checkpoint recorded for the parent when the action started. -/
  ckpt : Option ℕ
  /-- The state the action started in. -/
  start : σ
  /-- The state it left. -/
  reached : σ
  /-- The checkpoint recorded for the child. -/
  recorded : Option ℕ

/-- The checkpoint of the child goes into the history of its action. -/
def noteRecorded (ckpt : ℕ) : List (Expansion σ) → List (Expansion σ)
  | [] => []
  | e :: es => { e with recorded := some ckpt } :: es

/-- The action started in the state the parent's checkpoint holds, and the checkpoint of the child
holds the state the action alone has reached from there. -/
def Expansion.Own (saved : List σ) (e : Expansion σ) : Prop :=
  (e.ckpt.bind fun c => saved[c]?) = some e.start ∧ ∀ c ∈ e.recorded, saved[c]? = some e.reached

instance [DecidableEq σ] (saved : List σ) (e : Expansion σ) : Decidable (e.Own saved) :=
  inferInstanceAs (Decidable (_ ∧ _))

/-- The commands that ran, each with the state before and behind it, changed nothing. -/
def Still (moves : List (σ × σ)) : Prop := ∀ m ∈ moves, m.1 = m.2

instance [DecidableEq σ] (moves : List (σ × σ)) : Decidable (Still moves) :=
  inferInstanceAs (Decidable (∀ m ∈ moves, m.1 = m.2))

variable {saved : List σ} {e : Expansion σ} {moves : List (σ × σ)} {x y : σ}

@[simp] theorem still_nil : Still ([] : List (σ × σ)) := by simp [Still]

@[simp] theorem still_cons : Still ((x, y) :: moves) ↔ x = y ∧ Still moves := by simp [Still]

/-- A later checkpoint leaves an expansion what it was. -/
theorem Expansion.Own.checkpoint {b : Sandbox σ} (h : e.Own b.saved) :
    e.Own b.checkpoint.1.saved := by
  obtain ⟨hstart, hreached⟩ := h
  obtain ⟨c, hc, hx⟩ := Option.bind_eq_some_iff.mp hstart
  refine ⟨?_, fun d hd => Sandbox.saved_checkpoint_of_some (hreached d hd)⟩
  rw [hc, Option.bind_some]
  exact Sandbox.saved_checkpoint_of_some hx

end Search

end DeltaBox
