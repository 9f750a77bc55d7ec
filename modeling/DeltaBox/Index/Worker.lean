import DeltaBox.Index.Plain

/-!
# The index in the agent

The index of `agent.py`, which nobody shares.

## Main definitions

* `workerIndexBuild`, `workerIndexRefreshPath`
* `workerAnswer` — a query
-/

namespace DeltaBox

namespace Index

open Posix

/-- `_worker_resolve_rel`. -/
def workerResolveRel (h : Host) (t : Tree) (x : State) (path root : String) :
    Option (String × String) :=
  resolve h t x.files path root

/-- `_worker_index_build`. -/
def workerIndexBuild (h : Host) (t : Tree) (root : Option String) : State × Ended :=
  State.built (State.walk h t (orDefault root h.workerRoot))

/-- `_worker_index_refresh_path`. The path is taken as it is, and the total is not computed again. -/
def workerIndexRefreshPath (h : Host) (t : Tree) (x : State) (path root : String) : State × Ended :=
  match absPath h root path with
  | none => (x, .raised)
  | some full => x.replaceFile h t full (relpath h.cwd full (abspath h.cwd root)) root

/-- The answer of the agent. A search without a pattern for the files goes over all of them. -/
def workerAnswer (h : Host) (x : State) : Query → Answer
  | .resolveRel t path root => .resolved (workerResolveRel h t x path root)
  | .matchPaths p => .matches (x.matchPaths p)
  | .hasFile rel => .has (x.hasFile rel)
  | .grep pattern p => .grep (x.grepIn h pattern (x.matchPaths p))
  | .findSymbol name kind p => .symbols (x.findSymbol name kind p)
  | .status => .status (x.status h h.workerRoot)

end Index

end DeltaBox
