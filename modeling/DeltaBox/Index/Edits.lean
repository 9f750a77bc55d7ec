import DeltaBox.Index.Worker
import DeltaBox.Lib.Files
import DeltaBox.Lib.Utf8

/-!
# Edits and the worker index

The editing operations of `_worker_exec_one`. Each one changes files and then refreshes the index
for the paths it takes to be changed. For a recorded diff these are read off its text.

The arguments come from a request, so what should be a string may be something else, and a string
may have a surrogate in it, which cannot be written to a file.

## What is given

Beside what a `Host` has, `git apply` and the digest of some bytes. `git apply` gives the files it
leaves, or nothing when it refuses the diff and leaves all as it is.

## Main definitions

* `Files.tree` — what the index finds in the files
* `edit` — what an operation does to the files, and which paths it takes to be changed
* `workerExecOne` — the operation
-/

namespace DeltaBox

namespace Index

open Posix

/-- An argument that should be a string. -/
inductive Arg where
  | str (s : String)
  /-- A string with a surrogate. -/
  | surrogates
  /-- Anything else. -/
  | other

/-- `recorded_file_validation`. -/
structure Validation where
  path : String
  beforeSha256 : String
  afterSha256 : String

/-- An editing operation. A `path` that is none is not a path at all, and a validation that is
`some none` has not the fields it should have. -/
inductive Op where
  | replace (path : Option String) (oldStr newStr : Arg)
  | writeFile (path : Option String) (content : Arg)
  | appendFile (path : Option String) (content : Arg)
  | applyRecordedDiff (diff : Arg) (validation : Option (Option Validation))

/-- What the operations need beside the host. -/
structure Tools where
  host : Host
  /-- `git -C root apply --recount -p1` or `-p0`, with a patch. -/
  gitApply : Files → String → Bool → String → Option Files
  digest : List UInt8 → String
  /-- Does the system take the name for a new file? -/
  takes : String → Bool

/-- What the index finds in the files. Nobody looks at the size of a directory. -/
def tree (cwd : String) (fs : Files) (dir : String → Option Dir) : Tree where
  dir := dir
  stat p :=
    match fs.file? (abspath cwd p) with
    | some i => some ⟨i.bytes.length, i.mtimeNs, true⟩
    | none => if abspath cwd p ∈ fs.dirs then some ⟨0, 0, false⟩ else none
  read p := (fs.file? (abspath cwd p)).map fun i => Utf8.ignoring i.bytes

/-- The files below the root, and the index. -/
structure Agent where
  files : Files
  index : State

/-- A path that an operation refreshes. -/
inductive Target where
  /-- The path it has written. -/
  | written (rel : String)
  /-- A line of its diff. -/
  | line (text : String)

/-- What an operation does to the files. -/
inductive Edit where
  /-- It fails before it changes a file. It may have made directories. -/
  | refused (files : Files)
  /-- It fails after that. -/
  | broken (files : Files)
  /-- It goes on to the index. -/
  | edited (files : Files) (targets : List Target)

variable (e : Tools) (root : String)

/-- `_worker_resolve_rel`, on the files as they are. -/
def Agent.resolveRel (s : Agent) (path : String) : Option (String × String) :=
  workerResolveRel e.host (tree e.host.cwd s.files fun _ => none) s.index path root

/-- `data.replace(old, new, 1)`, if `old` is in the text. -/
def replaceOnce (old new : List Char) : List Char → Option (List Char)
  | [] => if old = [] then some new else none
  | c :: cs =>
    if old.isPrefixOf (c :: cs) then some (new ++ (c :: cs).drop old.length)
    else (replaceOnce old new cs).map (c :: ·)

/-- A file is opened for writing, and the content is written to it. `before` is what stands in front
of the content, and `now` the time the file has then. -/
def writeTo (fs : Files) (full : String) (before : List UInt8) (content : Arg) (now : ℤ)
    (rel : String) : Edit :=
  if fs.names.find? full = none ∧ e.takes full = false then .refused fs
  else
    match content with
    | .str s =>
      match fs.put full ⟨before ++ Utf8.encode s, now⟩ with
      | none => .refused fs
      | some fs => .edited fs [.written rel]
    | _ =>
      match fs.put full ⟨before, now⟩ with
      | none => .refused fs
      | some fs => .broken fs

/-- `replace`. -/
def Agent.replace (s : Agent) (now : ℤ) (path : Option String) (oldStr newStr : Arg) : Edit :=
  match path.bind (s.resolveRel e root) with
  | none => .refused s.files
  | some (full, rel) =>
    match s.files.file? full, oldStr, newStr with
    | some _, _, .other => .refused s.files
    | some f, .str old, .str new =>
      match replaceOnce old.toList new.toList (Utf8.replacing f.bytes).toList with
      | none => .refused s.files
      | some data => writeTo e s.files full [] (.str (String.ofList data)) now rel
    | some f, .str old, .surrogates =>
      match replaceOnce old.toList [] (Utf8.replacing f.bytes).toList with
      | none => .refused s.files
      | some _ => writeTo e s.files full [] .surrogates now rel
    | _, _, _ => .refused s.files

/-- `write_file`. -/
def Agent.writeFile (s : Agent) (now : ℤ) (path : Option String) (content : Arg) : Edit :=
  match path.bind (s.resolveRel e root) with
  | none => .refused s.files
  | some (full, rel) =>
    match s.files.makeParents full with
    | none => .refused s.files
    | some fs => writeTo e fs full [] content now rel

/-- `append_file`. What is not appended leaves the file as it was. -/
def Agent.appendFile (s : Agent) (now : ℤ) (path : Option String) (content : Arg) : Edit :=
  match path.bind (s.resolveRel e root) with
  | none => .refused s.files
  | some (full, rel) =>
    match s.files.makeParents full with
    | none => .refused s.files
    | some fs =>
      match fs.file? full, content with
      | some f, .str _ => writeTo e fs full f.bytes content now rel
      | some _, _ => .refused fs
      | none, _ => writeTo e fs full [] content now rel

/-- Is the substring in the text? -/
def contains (text part : String) : Bool := decide (part.toList <:+: text.toList)

/-- The check of a validation before the diff is applied, and the path it is about. -/
def Agent.checkBefore (s : Agent) : Option (Option Validation) → Option (Option (String × String))
  | none => some none
  | some none => none
  | some (some v) =>
    (s.resolveRel e root v.path).bind fun (full, _) =>
      (s.files.file? full).bind fun f =>
        if e.digest f.bytes = v.beforeSha256 then some (some (full, v.afterSha256)) else none

/-- The check afterwards. -/
def checkAfter (fs : Files) : Option (String × String) → Bool
  | none => true
  | some (full, sha256) => (fs.file? full).any fun f => e.digest f.bytes = sha256

/-- The first component of the paths of a diff is left out. -/
def stripFirst (diff : String) : Bool :=
  startswith diff "diff --git a/" || startswith diff "--- a/"

/-- `apply_recorded_diff`, up to the index. -/
def Agent.applyDiff (s : Agent) (diff : String) (validation : Option (Option Validation)) : Edit :=
  if !contains diff "@@" then .refused s.files
  else
    match s.checkBefore e root validation with
    | none => .refused s.files
    | some validated =>
      match e.gitApply s.files root (stripFirst diff)
          (if endswith diff "\n" then diff else diff ++ "\n") with
      | none => .refused s.files
      | some fs =>
        if checkAfter e fs validated then
          .edited fs ((Text.splitlines diff.toList).map fun l => .line (String.ofList l))
        else .broken fs

/-- What an operation does to the files. -/
def Agent.edit (s : Agent) (now : ℤ) : Op → Edit
  | .replace path oldStr newStr => s.replace e root now path oldStr newStr
  | .writeFile path content => s.writeFile e root now path content
  | .appendFile path content => s.appendFile e root now path content
  | .applyRecordedDiff (.str diff) validation => s.applyDiff e root diff validation
  | .applyRecordedDiff _ _ => .refused s.files

/-! ### Refreshing -/

/-- What is behind the first slash. `rel.split("/", 1)[1]` raises when there is none. -/
def afterSlash (path : String) : Option String :=
  if '/' ∈ path.toList then some (String.ofList (path.toList.dropWhile (· ≠ '/')).tail) else none

/-- The path that a line of a diff names, if it names one. -/
inductive Header where
  | none
  | raises
  | path (p : String)

/-- A line that starts like the header of a file names it. -/
def header (strip : Bool) (line : String) : Header :=
  if !startswith line "+++ " then .none
  else
    let path := String.ofList ((line.toList.drop 4).takeWhile (· ≠ '\t'))
    if path = "/dev/null" then .none
    else if strip then
      match afterSlash path with
      | none => .raises
      | some p => .path p
    else .path path

/-- One path is refreshed. The second component is whether nothing was raised. -/
def refreshTarget (strip : Bool) (t : Tree) (x : State) : Target → State × Bool
  | .written rel =>
    match workerIndexRefreshPath e.host t x rel root with
    | (x, .raised) => (x, false)
    | (x, _) => (x, true)
  | .line text =>
    match header strip text with
    | .none => (x, true)
    | .raises => (x, false)
    | .path p =>
      match workerResolveRel e.host t x p root with
      | none => (x, false)
      | some (_, rel) =>
        match workerIndexRefreshPath e.host t x rel root with
        | (x, .raised) => (x, false)
        | (x, _) => (x, true)

/-- The paths one by one, up to one that raises. -/
def refreshAll (strip : Bool) (t : Tree) : State → List Target → State × Bool
  | x, [] => (x, true)
  | x, target :: targets =>
    match refreshTarget e root strip t x target with
    | (x, true) => refreshAll strip t x targets
    | (x, false) => (x, false)

/-- Is the first component left out in the lines of the operation? -/
def Op.strip : Op → Bool
  | .applyRecordedDiff (.str diff) _ => stripFirst diff
  | _ => false

/-- `_worker_exec_one` for an editing operation. The second component is `ok`. -/
def workerExecOne (s : Agent) (op : Op) (now : ℤ) : Agent × Bool :=
  match s.edit e root now op with
  | .refused fs => (⟨fs, s.index⟩, false)
  | .broken fs => (⟨fs, s.index⟩, false)
  | .edited fs targets =>
    let (x, ok) :=
      refreshAll e root op.strip (tree e.host.cwd fs fun _ => none) s.index targets
    (⟨fs, x⟩, ok)

end Index

end DeltaBox
