import DeltaBox.Index.Table
import DeltaBox.Lib.Heap

/-!
# The index sidecar

The index of `index_sidecar.py`, with its objects. The state is a dictionary of references: to the
table of files, and to the two tables of names, which have references to lists of rows. A snapshot
is a copy of that dictionary, so it shares the tables. A refresh copies the tables before it changes
them, down to the lists.

## Main definitions

* `Memory`, `Top` — the objects, and a dictionary of references to them
* `Sidecar.index` — what the tables hold, which is all that a query reads
* `call` — one request
* `answer` — one query
-/

namespace DeltaBox

namespace Index

open Posix

/-- The objects. -/
structure Memory where
  files : Heap (Dict String Entry)
  /-- The tables of names, with the lists of rows. -/
  tables : Heap (Dict String ℕ)
  rows : Heap (List String)

/-- A state dictionary. -/
structure Top where
  root : Option String
  files : Option ℕ
  classes : Option ℕ
  functions : Option ℕ
  totalBytes : Option ℕ
  truncated : Option Bool

/-- Does the dictionary have anything? -/
def Top.loaded (top : Top) : Bool :=
  top.root.isSome || top.files.isSome || top.classes.isSome || top.functions.isSome ||
    top.totalBytes.isSome || top.truncated.isSome

/-- `{}`. -/
def Top.empty : Top := ⟨none, none, none, none, none, none⟩

/-- The process. -/
structure Sidecar where
  mem : Memory
  /-- `INDEX_STATE`. -/
  state : Top
  /-- `INDEX_SNAPSHOTS`. -/
  snapshots : Dict String Top

/-- The process at its start. -/
def Sidecar.start : Sidecar :=
  ⟨⟨⟨fun _ => .empty, 0⟩, ⟨fun _ => .empty, 0⟩, ⟨fun _ => [], 0⟩⟩, .empty, .empty⟩

/-! ### Reading the tables -/

/-- `state.get("files", {})`. -/
def Memory.filesOf (m : Memory) (files : Option ℕ) : Dict String Entry :=
  (files.map m.files.cell).getD .empty

/-- `state.get("classes", {})` or `state.get("functions", {})`, without its rows. -/
def Memory.tableOf (m : Memory) (table : Option ℕ) : Dict String ℕ :=
  (table.map m.tables.cell).getD .empty

/-- What the tables of a dictionary hold. -/
def Memory.index (m : Memory) (top : Top) : State where
  loaded := top.loaded
  root := top.root
  files := m.filesOf top.files
  classes := (m.tableOf top.classes).map m.rows.cell
  functions := (m.tableOf top.functions).map m.rows.cell
  totalBytes := top.totalBytes.getD 0
  truncated := top.truncated.getD false

/-- What the live tables hold. -/
def Sidecar.index (s : Sidecar) : State := s.mem.index s.state

/-! ### Changing the tables -/

/-- Take a path out of the rows of a name. The rows that are left are a new list. -/
def Memory.dropRows (rel : String) (table : Option ℕ) (m : Memory) (name : String) : Memory :=
  match table with
  | none => m
  | some t =>
    let names := m.tables.cell t
    let rows := (((names.find? name).map m.rows.cell).getD []).filter (· ≠ rel)
    if rows = [] then { m with tables := m.tables.write t (names.erase name) }
    else
      { m with
        tables := m.tables.write t (names.set name m.rows.next)
        rows := m.rows.alloc rows }

/-- `_remove`. -/
def Memory.remove (m : Memory) (top : Top) (rel : String) : Memory :=
  match top.files with
  | none => m
  | some f =>
    match (m.files.cell f).find? rel with
    | none => m
    | some e =>
      let m := { m with files := m.files.write f ((m.files.cell f).erase rel) }
      let m := e.classes.foldl (Memory.dropRows rel top.classes) m
      e.functions.foldl (Memory.dropRows rel top.functions) m

/-- `state.setdefault("classes", {})`, or for functions. -/
def Memory.setdefault (m : Memory) (table : Option ℕ) : Memory × ℕ :=
  match table with
  | some t => (m, t)
  | none => ({ m with tables := m.tables.alloc .empty }, m.tables.next)

/-- `table.setdefault(name, [])`. -/
def Memory.setdefaultRows (m : Memory) (t : ℕ) (name : String) : Memory × ℕ :=
  match (m.tables.cell t).find? name with
  | some r => (m, r)
  | none =>
    ({ m with
      tables := m.tables.write t ((m.tables.cell t).set name m.rows.next)
      rows := m.rows.alloc [] }, m.rows.next)

/-- Append a path to the rows of a name, in place. -/
def Memory.pushRow (rel : String) (x : Memory × Option ℕ) (name : String) : Memory × Option ℕ :=
  let (m, t) := x.1.setdefault x.2
  let (m, r) := m.setdefaultRows t name
  ({ m with rows := m.rows.write r (m.rows.cell r ++ [rel]) }, some t)

/-- `state.setdefault("files", {})`. -/
def Memory.setdefaultFiles (m : Memory) (files : Option ℕ) : Memory × ℕ :=
  match files with
  | some f => (m, f)
  | none => ({ m with files := m.files.alloc .empty }, m.files.next)

/-- The second half of `_index_one`. -/
def insertEntry (x : Memory × Top) (e : Entry) : Memory × Top :=
  let (m, top) := x
  let m := m.remove top e.path
  let (m, f) := m.setdefaultFiles top.files
  let m := { m with files := m.files.write f ((m.files.cell f).set e.path e) }
  let (m, classes) := e.classes.foldl (Memory.pushRow e.path) (m, top.classes)
  let (m, functions) := e.functions.foldl (Memory.pushRow e.path) (m, top.functions)
  (m, { top with files := some f, classes, functions })

/-- `list(rows)` for one name of a table that is being copied. -/
def copyRows (x : Heap (List String) × Dict String ℕ) (p : String × ℕ) :
    Heap (List String) × Dict String ℕ :=
  (x.1.alloc (x.1.cell p.2), x.2.set p.1 x.1.next)

/-- A copy of a table, with copies of its lists. -/
def Memory.copyTable (m : Memory) (table : Option ℕ) : Memory × ℕ :=
  let (rows, names) := (m.tableOf table).entries.foldl copyRows (m.rows, .empty)
  ({ m with rows, tables := m.tables.alloc names }, m.tables.next)

/-- `_cow_for_update`. -/
def cowForUpdate (m : Memory) (top : Top) : Memory × Top :=
  if !top.loaded then (m, top)
  else
    let files := m.files.next
    let m := { m with files := m.files.alloc (m.filesOf top.files) }
    let (m, classes) := m.copyTable top.classes
    let (m, functions) := m.copyTable top.functions
    (m, { top with files := some files, classes := some classes, functions := some functions })

/-- `_recompute_total_bytes`. -/
def recomputeTotalBytes (m : Memory) (top : Top) : Top :=
  { top with totalBytes := some ((m.filesOf top.files).values.map (·.size)).sum }

/-! ### Requests -/

/-- A request. -/
inductive Call where
  | build (root : Option String)
  | snapshot (id : String)
  | restoreSnapshot (id : String)
  | refreshPath (path : String) (root : Option String)

/-- How a request ends. -/
inductive Ended where
  | done
  /-- `ok` is false. -/
  | missing
  | raised
  deriving DecidableEq, Repr

/-- `x or default`. -/
def orDefault (x : Option String) (default : String) : String :=
  match x with
  | none | some "" => default
  | some s => s

/-- `_build`. -/
def build (h : Host) (t : Tree) (s : Sidecar) (root : String) : Sidecar × Ended :=
  let m := { s.mem with
    files := s.mem.files.alloc .empty
    tables := (s.mem.tables.alloc .empty).alloc .empty }
  let top : Top := ⟨some root, some s.mem.files.next, some s.mem.tables.next,
    some (s.mem.tables.next + 1), some 0, some false⟩
  let w := buildFrom h t root insertEntry
    (fun x => (x.1, { x.2 with truncated := some true })) (walked t root) (m, top) 0
  if w.raised then ({ s with mem := w.state.1, state := w.state.2 }, .raised)
  else
    ({ s with mem := w.state.1, state := { w.state.2 with totalBytes := some w.total } }, .done)

/-- `_snapshot`. -/
def snapshot (s : Sidecar) (id : String) : Sidecar × Ended :=
  if id = "" ∨ !s.state.loaded then (s, .raised)
  else ({ s with snapshots := s.snapshots.set id s.state }, .done)

/-- `_restore_snapshot`. -/
def restoreSnapshot (s : Sidecar) (id : String) : Sidecar × Ended :=
  if id = "" then (s, .raised)
  else
    match s.snapshots.find? id with
    | none => (s, .missing)
    | some top => ({ s with state := top }, .done)

/-- `_refresh_path`. -/
def refreshPath (h : Host) (t : Tree) (s : Sidecar) (path : String) (root : Option String) :
    Sidecar × Ended :=
  let root := orDefault root (orDefault s.state.root "/testbed")
  let (m, top) := cowForUpdate s.mem s.state
  match resolve h t (m.filesOf top.files) path root with
  | none => ({ s with mem := m, state := top }, .raised)
  | some (full, rel) =>
    let m := m.remove top rel
    match if t.pathExists full then readEntry h t full root else .nothing with
    | .raises => ({ s with mem := m, state := top }, .raised)
    | .nothing => ({ s with mem := m, state := recomputeTotalBytes m top }, .done)
    | .entry e =>
      let (m, top) := insertEntry (m, top) e
      ({ s with mem := m, state := recomputeTotalBytes m top }, .done)

/-- One request. -/
def call (h : Host) (t : Tree) (s : Sidecar) : Call → Sidecar × Ended
  | .build root => build h t s (orDefault root "/testbed")
  | .snapshot id => snapshot s id
  | .restoreSnapshot id => restoreSnapshot s id
  | .refreshPath path root => refreshPath h t s path root

/-- Requests one after the other, each with the tree it finds. -/
def run (h : Host) (s : Sidecar) (calls : List (Tree × Call)) : Sidecar :=
  calls.foldl (fun s c => (call h c.1 s c.2).1) s

/-! ### Queries -/

/-- A query. Resolving a path also looks at the tree. -/
inductive Query where
  | resolveRel (t : Tree) (path root : String)
  | matchPaths (filePattern : Option String)
  | hasFile (rel : String)
  | grep (pattern : String) (filePattern : Option String)
  | findSymbol (name : String) (symbolKind filePattern : Option String)
  | status

/-- The answer to a query. -/
inductive Answer where
  /-- None if it raises. -/
  | resolved (found : Option (String × String))
  | matches (paths : List String)
  | has (found : Bool)
  | grep (hits : Hits)
  | symbols (hits : Symbols)
  | status (status : Status)
  deriving DecidableEq

/-- The answer of the sidecar. A search without a pattern for the files goes over `**/*`. -/
def answer (h : Host) (s : Sidecar) : Query → Answer
  | .resolveRel t path root =>
    .resolved (resolve h t s.index.files path
      (orDefault (some root) (orDefault s.index.root "/testbed")))
  | .matchPaths p => .matches (s.index.matchPaths p)
  | .hasFile rel => .has (s.index.hasFile rel)
  | .grep pattern p =>
    .grep (s.index.grepIn h pattern (s.index.matchPaths (some (orDefault p "**/*"))))
  | .findSymbol name kind p => .symbols (s.index.findSymbol name kind p)
  | .status => .status (s.index.status h "/testbed")

end Index

end DeltaBox
