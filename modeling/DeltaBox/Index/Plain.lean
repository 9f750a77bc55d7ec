import DeltaBox.Index.Sidecar

/-!
# The sidecar without its objects

What the sidecar is for: it has an index and keeps copies of it by name. Here a copy is a value, so
nothing can be shared. `Index.Refinement` shows that the sidecar behaves like this.

## Main definitions

* `Plain` — an index and its copies
* `plainCall` — a request
-/

namespace DeltaBox

namespace Index

/-- An index and its copies. -/
structure Plain where
  state : State
  snapshots : Dict String State

/-- A build, given the loop's end. -/
def State.built (w : Walked State) : State × Ended :=
  if w.raised then (w.state, .raised) else ({ w.state with totalBytes := w.total }, .done)

/-- The index with nothing in it, at the start of a build. -/
def State.fresh (root : String) : State := ⟨true, some root, .empty, .empty, .empty, 0, false⟩

/-- The loop of a build. -/
def State.walk (h : Host) (t : Tree) (root : String) : Walked State :=
  buildFrom h t root State.insert (fun x => { x with truncated := true }) (walked t root)
    (State.fresh root) 0

/-- The sum of the sizes. -/
def State.bytes (x : State) : ℕ := (x.files.values.map (·.size)).sum

/-- The total is computed again. -/
def State.recompute (x : State) : State := { x with loaded := true, totalBytes := x.bytes }

/-- A refresh once the path is resolved: the entry goes, and what the file has now is put in. -/
def State.replaceFile (x : State) (h : Host) (t : Tree) (full rel root : String) : State × Ended :=
  match if t.pathExists full then readEntry h t full root else .nothing with
  | .raises => (x.remove rel, .raised)
  | .nothing => (x.remove rel, .done)
  | .entry e => ((x.remove rel).insert e, .done)

/-- A refresh. -/
def State.refreshPath (x : State) (h : Host) (t : Tree) (path : String) (root : Option String) :
    State × Ended :=
  let root := orDefault root (orDefault x.root "/testbed")
  match resolve h t x.files path root with
  | none => (x, .raised)
  | some (full, rel) =>
    match x.replaceFile h t full rel root with
    | (y, .raised) => (y, .raised)
    | (y, ended) => (y.recompute, ended)

/-- A request. -/
def plainCall (h : Host) (t : Tree) (s : Plain) : Call → Plain × Ended
  | .build root =>
    let (state, ended) := State.built (State.walk h t (orDefault root "/testbed"))
    ({ s with state }, ended)
  | .snapshot id =>
    if id = "" ∨ !s.state.loaded then (s, .raised)
    else ({ s with snapshots := s.snapshots.set id s.state }, .done)
  | .restoreSnapshot id =>
    if id = "" then (s, .raised)
    else
      match s.snapshots.find? id with
      | none => (s, .missing)
      | some state => ({ s with state }, .done)
  | .refreshPath path root =>
    let (state, ended) := s.state.refreshPath h t path root
    ({ s with state }, ended)

end Index

end DeltaBox
