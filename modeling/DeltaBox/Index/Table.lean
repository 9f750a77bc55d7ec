import DeltaBox.Lib.Dict
import DeltaBox.Lib.Posix
import DeltaBox.Lib.Text
import Mathlib

/-!
# The worker index

The worker keeps an index of the files below its root: for each file its text and the classes and
functions of its syntax tree, and two tables from a name to the files that define it. There are two
implementations, one in the agent (`agent.py`) and one in a process beside it (`index_sidecar.py`).
What both do alike is here: reading a file, the walk of a build, resolving a path, and the queries.

A `State` is what the dictionaries hold. Which of them are shared is a matter of `Index.Sidecar`.

## What is given

A `Host` has what the machine and the language's library decide: the working directory, the limits,
the parser of the language, regular expressions, and a digest. A `Tree` is what a call finds in the
file system. It is given for each call, so the tree may be another one at the next call.
-/

namespace DeltaBox

namespace Index

open Posix

/-- What the parser makes of a text. -/
inductive Parsed where
  | syntaxError
  /-- Any other exception. -/
  | raises
  | names (classes functions : List String)

/-- What the machine and the library decide. -/
structure Host where
  cwd : String
  cwd_abs : isabs cwd = true
  /-- `AGENT_WORKER_ROOT`. -/
  workerRoot : String
  maxFileBytes : ℕ
  maxTotalBytes : ℕ
  /-- `ast.parse`, and the names of the classes and functions in the tree. -/
  parse : String → Parsed
  /-- `re.compile`, and whether the pattern is found in a line. -/
  regex : String → Option (String → Bool)
  sha256 : String → String

/-- What `os.stat` says. -/
structure Stat where
  size : ℕ
  mtimeNs : ℤ
  isFile : Bool

/-- A directory with the names in it, in the order of `os.walk`. -/
inductive Dir where
  | mk (filenames : List String) (dirnames : List (String × Dir))

/-- The file system at a call. -/
structure Tree where
  dir : String → Option Dir
  stat : String → Option Stat
  /-- The text of a file that can be read. -/
  read : String → Option String

/-- `os.path.exists`. -/
def Tree.pathExists (t : Tree) (path : String) : Bool := (t.stat path).isSome

/-- Directories that are not entered. -/
def pruned : List String := [".git", "__pycache__", ".tox", ".venv", "node_modules"]

/-- `_index_should_skip`. -/
def indexShouldSkip (path : String) : Bool :=
  (split path).any (· ∈ pruned) ||
    [".pyc", ".pyo", ".so", ".o", ".a", ".png", ".jpg", ".jpeg", ".gif", ".pdf", ".zip", ".tar",
      ".gz"].any (endswith path)

mutual

/-- The files that a walk yields, without the directories that are not entered. -/
def Dir.walk (path : String) : Dir → List String
  | .mk filenames dirnames => filenames.map (join path) ++ walkAll path dirnames

/-- The files below the subdirectories. -/
def walkAll (path : String) : List (String × Dir) → List String
  | [] => []
  | (name, dir) :: rest =>
    (if name ∈ pruned then [] else dir.walk (join path name)) ++ walkAll path rest

end

/-- What the index has on a file. -/
structure Entry where
  path : String
  size : ℕ
  mtimeNs : ℤ
  textSha256 : String
  text : String
  classes : List String
  functions : List String
  deriving DecidableEq, Repr

/-- The index. An absent table reads as an empty one. -/
structure State where
  /-- Is the state more than an empty dictionary? -/
  loaded : Bool
  root : Option String
  files : Dict String Entry
  classes : Dict String (List String)
  functions : Dict String (List String)
  totalBytes : ℕ
  truncated : Bool

/-- Nothing was built. -/
def State.unloaded : State := ⟨false, none, .empty, .empty, .empty, 0, false⟩

/-! ### Reading a file -/

/-- What `_index_one` has before it touches the tables. -/
inductive Reading where
  | nothing
  | raises
  | entry (e : Entry)

/-- `_extract_python_symbols`. -/
def extractPythonSymbols (h : Host) (text : String) : Option (List String × List String) :=
  match h.parse text with
  | .syntaxError => some ([], [])
  | .raises => none
  | .names classes functions => some (classes, functions)

/-- The first half of `_index_one`. -/
@[irreducible] def readEntry (h : Host) (t : Tree) (path root : String) : Reading :=
  match t.stat path with
  | none => .nothing
  | some st =>
    if !st.isFile ∨ h.maxFileBytes < st.size then .nothing
    else
      let rel := relpath h.cwd path root
      if indexShouldSkip rel then .nothing
      else
        match t.read path with
        | none => .nothing
        | some text =>
          match if endswith rel ".py" then extractPythonSymbols h text else some ([], []) with
          | none => .raises
          | some (classes, functions) =>
            .entry ⟨rel, st.size, st.mtimeNs, h.sha256 text, text, classes, functions⟩

/-! ### The tables -/

/-- Take a path out of the rows of a name. The name goes with its last row. -/
def dropRows (rel : String) (table : Dict String (List String)) (name : String) :
    Dict String (List String) :=
  let rows := ((table.find? name).getD []).filter (· ≠ rel)
  if rows = [] then table.erase name else table.set name rows

/-- `setdefault(name, []).append({"path": rel})`. -/
def pushRow (rel : String) (table : Dict String (List String)) (name : String) :
    Dict String (List String) :=
  table.set name ((table.find? name).getD [] ++ [rel])

/-- `_remove`. -/
def State.remove (x : State) (rel : String) : State :=
  match x.files.find? rel with
  | none => x
  | some e =>
    { x with
      files := x.files.erase rel
      classes := e.classes.foldl (dropRows rel) x.classes
      functions := e.functions.foldl (dropRows rel) x.functions }

/-- The second half of `_index_one`. -/
def State.insert (x : State) (e : Entry) : State :=
  let y := x.remove e.path
  { y with
    loaded := true
    files := y.files.set e.path e
    classes := e.classes.foldl (pushRow e.path) y.classes
    functions := e.functions.foldl (pushRow e.path) y.functions }

/-! ### The walk of a build -/

/-- Where a walk ends. -/
structure Walked (σ : Type) where
  state : σ
  total : ℕ
  raised : Bool

/-- The loop of a build over the files of the walk. `insert` puts an entry into the tables, and
`truncate` sets the mark. -/
def buildFrom {σ : Type} (h : Host) (t : Tree) (root : String) (insert : σ → Entry → σ)
    (truncate : σ → σ) : List String → σ → ℕ → Walked σ
  | [], s, total => ⟨s, total, false⟩
  | path :: paths, s, total =>
    if indexShouldSkip (relpath h.cwd path root) then
      buildFrom h t root insert truncate paths s total
    else
      match t.stat path with
      | none => buildFrom h t root insert truncate paths s total
      | some st =>
        if h.maxTotalBytes < total + st.size then ⟨truncate s, total, false⟩
        else
          match readEntry h t path root with
          | .nothing => buildFrom h t root insert truncate paths s total
          | .raises => ⟨s, total, true⟩
          | .entry e =>
            buildFrom h t root insert truncate paths (insert s e) (total + e.size)

/-- The files that the walk of a build goes through. -/
def walked (t : Tree) (root : String) : List String :=
  match t.dir root with
  | some dir => dir.walk root
  | none => []

/-! ### Paths -/

/-- The absolute path below the root, or none if it escapes. -/
@[irreducible] def absPath (h : Host) (root path : String) : Option String :=
  let rel := if isabs path then lstrip path else path
  let full := abspath h.cwd (join root rel)
  let rootAbs := abspath h.cwd root
  if full ≠ rootAbs ∧ !startswith full (rootAbs ++ "/") then none else some full

/-- Resolve a path against the tree and the indexed files. It raises if the path escapes, and if
several indexed files end in it. -/
@[irreducible] def resolve (h : Host) (t : Tree) (files : Dict String Entry) (path root : String) :
    Option (String × String) :=
  match absPath h root path with
  | none => none
  | some full =>
    let rel := relpath h.cwd full (abspath h.cwd root)
    if t.pathExists full ∨ rel ∈ files.keys then some (full, rel)
    else
      let suffix := lstrip rel
      match files.keys.filter fun x => x = suffix ∨ endswith x ("/" ++ suffix) with
      | [] => some (full, rel)
      | [x] => (absPath h root x).map fun full => (full, x)
      | _ => none

/-! ### Queries -/

/-- The files that match a pattern. -/
def State.matchPaths (x : State) (filePattern : Option String) : List String :=
  match filePattern with
  | none | some "" => x.files.keys
  | some p => x.files.keys.filter fun rel => fnmatch rel p || fnmatch ("/" ++ rel) p

/-- Is the file in the index? -/
def State.hasFile (x : State) (rel : String) : Bool := rel ∈ x.files.keys

/-- A line that a search found. -/
structure Hit where
  path : String
  line : ℕ
  text : String
  deriving DecidableEq, Repr

/-- The answer of a search. -/
structure Hits where
  /-- Is the pattern a regular expression? -/
  regex : Bool
  hits : List Hit
  deriving DecidableEq, Repr

/-- The lines of a file that match. -/
def hitsOf (found : String → Bool) (rel text : String) : List Hit :=
  ((Text.splitlines text.toList).zipIdx 1).filterMap fun x =>
    if found (String.ofList x.1) then
      some ⟨rel, x.2, String.ofList ((Text.rstrip x.1).take 300)⟩
    else none

/-- Does a line match? -/
def found (h : Host) (pattern : String) (line : String) : Bool :=
  match h.regex pattern with
  | some search => search line
  | none => pattern.toList <:+: line.toList

/-- The search over some files, up to the 64th hit. -/
def State.grepIn (x : State) (h : Host) (pattern : String) (paths : List String) : Hits where
  regex := (h.regex pattern).isSome
  hits := (paths.flatMap fun rel =>
    hitsOf (found h pattern) rel (((x.files.find? rel).map (·.text)).getD "")).take 64

/-- The answer to a query for a symbol. -/
structure Symbols where
  symbol : String
  symbolKind : Option String
  nHits : ℕ
  hits : List String
  deriving DecidableEq, Repr

/-- `_find_symbol`. -/
def State.findSymbol (x : State) (name : String) (symbolKind filePattern : Option String) :
    Symbols :=
  let table := if symbolKind = some "class" then x.classes else x.functions
  let rows := (table.find? name).getD []
  let rows := match filePattern with
    | none | some "" => rows
    | some p => rows.filter (· ∈ x.matchPaths (some p))
  ⟨name, symbolKind, rows.length, rows.take 64⟩

/-- What `status` says about the index. -/
structure Status where
  loaded : Bool
  root : Option String
  nFiles : ℕ
  nClasses : ℕ
  nFunctions : ℕ
  totalBytes : ℕ
  truncated : Bool
  fingerprint : Option String
  metadataFingerprint : Option String
  /-- The first name of a table, which one, and its first rows. -/
  sampleQuery : Option (Bool × String × List String)
  deriving DecidableEq, Repr

/-- The parts of an entry that are digested. -/
def digestParts (withTime : Bool) (rel : String) (e : Entry) : List String :=
  [rel, toString e.size, e.textSha256] ++ (if withTime then [toString e.mtimeNs] else []) ++
    (e.classes.insertionSort (· ≤ ·)).flatMap (fun name => ["C", name]) ++
    (e.functions.insertionSort (· ≤ ·)).flatMap fun name => ["F", name]

/-- A fingerprint. -/
def State.digest (x : State) (h : Host) (withTime : Bool) : String :=
  h.sha256 (String.join ((x.files.keys.insertionSort (· ≤ ·)).flatMap fun rel =>
    ((x.files.find? rel).map (digestParts withTime rel)).getD []))

/-- The sample query. -/
def State.sample (x : State) : Option (Bool × String × List String) :=
  match x.classes.keys.insertionSort (· ≤ ·), x.functions.keys.insertionSort (· ≤ ·) with
  | name :: _, _ => some (true, name, ((x.classes.find? name).getD []).take 8)
  | [], name :: _ => some (false, name, ((x.functions.find? name).getD []).take 8)
  | [], [] => none

/-- `_status`. The root of an index that is not loaded is the default one. -/
def State.status (x : State) (h : Host) (defaultRoot : String) : Status where
  loaded := x.loaded
  root := if x.loaded then x.root else some defaultRoot
  nFiles := x.files.entries.length
  nClasses := x.classes.entries.length
  nFunctions := x.functions.entries.length
  totalBytes := x.totalBytes
  truncated := x.truncated
  fingerprint := if x.loaded then some (x.digest h false) else none
  metadataFingerprint := if x.loaded then some (x.digest h true) else none
  sampleQuery := if x.loaded then x.sample else none

end Index

end DeltaBox
