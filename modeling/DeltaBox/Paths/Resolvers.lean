import DeltaBox.Index.Table
import DeltaBox.Lib.Links
import DeltaBox.Lib.Strings

/-!
# Resolving path arguments

Before an operation opens a file, its path argument is resolved against the root of the repository.
There are several resolvers of the one rule. Those of the replay agent and of the index sidecar
(`_worker_abspath`, `_worker_resolve_rel`, `_abspath`, `_resolve_rel`) go by the text of the path, and
are modelled in the index. Those of the worker's actions (`_safe_path`) and of the shell server
(`_inside_repo`, for `do_read_file` and `do_write_file`) resolve links, and are here.

What is opened is what the system makes of the resolved path. Writing makes the missing directories of
the path before. A directory that a path leads to counts as opened: it is listed, or a name is looked
up in it.

## Main definitions

* `Opens` — what a path opens
* `safePath` — `_safe_path`
* `ShellServer.file` — the file of `do_read_file` and `do_write_file`
-/

namespace DeltaBox

namespace Paths

open Posix Links

/-- As many links as the system takes for one path. -/
def maxLinks : ℕ := 40

variable (fs : Fs)

/-- A process in a directory opens a path, for reading or for writing. -/
def Opens (dir : List String) (write : Bool) (p : String) (loc : List String) : Prop :=
  ∃ b n, Walks fs write ⟨start dir p, false⟩ (ownComps p) b n ∧ n ≤ maxLinks ∧ b.loc = loc ∧
    (write = false → fs.node loc ≠ none)

/-! ### The worker's actions -/

/-- The parts of a pure path. -/
def parts (p : String) : List String := (split p).filter fun c => ¬ IsDot c

/-- `removeprefix`. -/
def removePrefix (p pre : String) : String :=
  String.ofList (Text.removePrefix pre.toList p.toList)

/-- `Path.resolve`. Some versions of the library raise when a link leads back to itself, others give
what `realpath` leaves. -/
def resolvePath (raises : Bool) (dir : List String) (abs : Bool) (ps : List String) :
    Option String :=
  match real fs fs.nodes.entries.length [] (if abs then [] else dir) ps with
  | .ok loc => some (render loc)
  | .error q => if raises then none else some (abspath (render dir) q)

/-- `root in full.parents`. -/
def isParent (root full : String) : Prop :=
  initialSlashes root = initialSlashes full ∧ comps root <+: comps full ∧ comps root ≠ comps full

instance (root full : String) : Decidable (isParent root full) :=
  inferInstanceAs (Decidable (_ ∧ _ ∧ _))

/-- `_safe_path`. -/
def safePath (raises : Bool) (dir : List String) (root path : String) : Option String := do
  let path := lstrip (removePrefix (removePrefix path "/repo/") "repo/")
  let full ← resolvePath fs raises dir (isabs root) (parts root ++ parts path)
  let rootResolved ← resolvePath fs raises dir (isabs root) (parts root)
  if full ≠ rootResolved ∧ ¬ isParent rootResolved full then none else some full

/-! ### The shell server -/

/-- What the server knows of directories. -/
structure ShellServer where
  /-- `_cwd`. -/
  cwd : String
  /-- `_repo_root`. -/
  repoRoot : String
  /-- The directory of the process. -/
  dir : List String

/-- `_inside_repo`. -/
def ShellServer.insideRepo (s : ShellServer) (path : String) : Bool :=
  let path := realpath fs s.dir path
  path = s.repoRoot || startswith path (s.repoRoot ++ "/")

/-- The path that `do_read_file` and `do_write_file` open, none if it escapes. -/
def ShellServer.file (s : ShellServer) (path : String) : Option String :=
  let path := if isabs path then path else normpath (join s.cwd path)
  if s.insideRepo fs path then some path else none

end Paths

end DeltaBox
