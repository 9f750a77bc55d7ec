import DeltaBox.Lib.Dict
import DeltaBox.Lib.Faults
import DeltaBox.Lib.Posix
import DeltaBox.Storage.Locks
import Mathlib.Algebra.Order.Ring.Nat

/-!
# Replacing the latest results

`prepare_latest` makes room for new results at a fixed path. It copies the old ones into an archive,
verifies the copy, renames the old directory to a sibling, makes an empty one in its place, and
deletes the sibling. A manifest in the archive says how far it has come.

## What is given

The hash of a file, what `cp` makes of a tree, and in a `Call` what the program finds around it: the
symbolic links, the references of other processes, the free space. Anything may fail.

## Main definitions

* `Tree` — the entries of a directory, the highest first, in the order of their paths
* `Files` — the results, their siblings, and the archives
* `prepareLatest`
-/

namespace DeltaBox

namespace Storage

open Faults

/-- The metadata of an entry. -/
structure Info where
  mode : ℕ
  uid : ℕ
  gid : ℕ
  mtimeNs : ℤ
  xattrs : List (String × List UInt8)
  deriving DecidableEq

/-- What an entry is. -/
inductive Kind where
  | symlink (target : String)
  | directory
  | file (bytes : List UInt8)
  /-- A device, a socket or a pipe. -/
  | special
  deriving DecidableEq

/-- An entry of a directory tree. Its name is its path below the tree, and its key tells the inode
that it is a link to. -/
structure Entry where
  name : String
  key : ℕ × ℕ
  info : Info
  kind : Kind
  blocks : ℕ
  deriving DecidableEq

/-- The entries of a tree, the tree itself first. -/
abbrev Tree := List Entry

/-- Is it a directory? -/
def Tree.isDir (tree : Tree) : Bool := tree.head?.any fun e => e.kind = .directory

/-- The metadata of the tree itself. -/
def Tree.info (tree : Tree) : Option Info := tree.head?.map Entry.info

/-- What is raised. -/
inductive Error where
  | valueError (message : String)
  /-- From the operating system, or a signal. -/
  | other (message : String)
  deriving DecidableEq

/-- `str` of an exception. -/
def Error.str : Error → String
  | .valueError message => message
  | .other message => message

/-- What an inventory says about an entry, by what it is. -/
inductive RecordKind where
  | symlink (target : String)
  | directory
  /-- `hardlink` is the first name of its inode. -/
  | file (size : ℕ) (hardlink : String) (sha256 : Option String)
  deriving DecidableEq

/-- What an inventory says about an entry. -/
structure Record where
  info : Info
  type : RecordKind
  deriving DecidableEq

/-- Without the hash. -/
def Record.bare (r : Record) : Record :=
  match r.type with
  | .file size hardlink _ => { r with type := .file size hardlink none }
  | _ => r

/-- What is given. -/
structure Tools where
  sha256 : List UInt8 → String
  cp : Tree → Tree

/-- The loop of `inventory`. -/
def inventoryFrom (t : Tools) (hashes : Bool) (inodes : Dict (ℕ × ℕ) String) :
    Tree → Except Error (List (String × Record) × ℕ)
  | [] => .ok ([], 0)
  | e :: rest =>
    let allocated := if inodes.find? e.key = none then e.blocks * 512 else 0
    let known := (inodes.find? e.key).getD e.name
    match (match e.kind with
      | .symlink target => some (RecordKind.symlink target)
      | .directory => some .directory
      | .file bytes =>
        some (.file bytes.length known (if hashes then some (t.sha256 bytes) else none))
      | .special => none) with
    | none => .error (.valueError ("Unsupported live/special result entry: " ++ e.name))
    | some type =>
      (inventoryFrom t hashes (inodes.set e.key known) rest).map fun r =>
        ((e.name, ⟨e.info, type⟩) :: r.1, allocated + r.2)

/-- How far a replacement has come. -/
inductive Status where
  | copying
  | verified
  | failed
  | complete
  deriving DecidableEq

/-- What stands in `backup.json`. -/
structure Manifest where
  status : Status
  originalResultsRoot : String
  archivedResultsRoot : String
  sourceAllocatedBytes : ℕ
  reserveBytes : ℕ
  files : List (String × Record)
  error : Option String
  deriving DecidableEq

/-- An archive: the manifest, the one that is being written, and the copy. -/
structure Archive where
  tmp : Option Manifest
  manifest : Option Manifest
  results : Option Tree

/-- The files. -/
structure Files where
  /-- What is at the path of the results. -/
  root : Option Tree
  /-- What is beside it. -/
  siblings : Dict String Tree
  /-- Can the parent directory be listed? -/
  listable : Bool
  /-- Does the directory of the archives exist? -/
  backupRoot : Bool
  archives : Dict String Archive
  /-- The results have been renamed in this call. -/
  renamed : Bool

/-- A change of an archive. -/
def Files.archive (f : Files) (name : String) (g : Archive → Archive) : Files :=
  { f with archives := f.archives.set name (g ((f.archives.find? name).getD ⟨none, none, none⟩)) }

/-- What `prepare_latest` is called with, and what it finds. -/
structure Call where
  root : Path
  backupRoot : Path
  symlinks : List Path
  /-- With the time in it. -/
  archiveName : String
  /-- The references of other processes, before the backup and behind it. -/
  references : List String
  referencesAfter : List String
  free : ℕ
  freeAfter : ℕ
  euid : ℕ
  /-- A new directory. -/
  fresh : Entry

/-- Code that works on the files. A failing system call may leave a part of a tree behind. -/
abbrev Code (α : Type) := Prog (World Files Tree Error) (Ended Error) α

/-- A system call that has done nothing when it fails. -/
def call (full : Files → Files) : Code Unit := sys full fun _ => id

/-- `RESERVE_BYTES`. -/
def reserveBytes : ℕ := 10 * 1024 ^ 3

/-- Bytes in GiB, to two digits. A half is rounded to the even digit. -/
def gib (bytes : ℕ) : String :=
  let q := bytes * 100 / 1024 ^ 3
  let r := bytes * 100 % 1024 ^ 3
  let n := if 1024 ^ 3 < 2 * r ∨ (2 * r = 1024 ^ 3 ∧ q % 2 = 1) then q + 1 else q
  toString (n / 100) ++ "." ++ (if n % 100 < 10 then "0" else "") ++ toString (n % 100)

local instance lawfulPath : LawfulBEq Path := inferInstance

/-- `no_symlink_parents`. -/
def noSymlinkParents (c : Call) (path : Path) : Code Unit := do
  probe
  check (".." ∉ path) (.valueError "Result paths must not contain parent traversal")
  match (lineage path).find? fun part => part ∈ c.symlinks with
  | none => pure ()
  | some part => throw (.valueError ("Result storage paths must not contain symlinks: " ++ part.str))

/-- The name of the results. -/
def Call.name (c : Call) : String := c.root.getLast?.getD ""

/-- The sibling that the results are renamed to. -/
def Call.retired (c : Call) : String := "." ++ c.name ++ "-retired-" ++ c.archiveName

/-- The pattern of the retired siblings. -/
def Call.pattern (c : Call) : String := "." ++ c.name ++ "-retired-*"

/-- `root.parent.glob`. A directory that cannot be listed has no matches. -/
def glob (c : Call) : Code (List String) := do
  probe
  look fun f =>
    if f.listable then
      (f.siblings.keys ++ if f.root.isSome then [c.name] else []).filter
        fun n => Posix.fnmatch n c.pattern
    else []

/-- `require_idle`. -/
def requireIdle (references : List String) : Code Unit := do
  probe
  check (references = []) (.valueError
    ("Results still have active references: " ++ ", ".intercalate (references.take 8)))

/-- `inventory`. -/
def inventory (t : Tools) (hashes : Bool) (tree : Files → Option Tree) :
    Code (List (String × Record) × ℕ) := do
  probe
  let found ← look tree
  match found with
  | none => throw (.other "No such file or directory")
  | some tree =>
    match inventoryFrom t hashes .empty tree with
    | .error e => throw e
    | .ok r => pure r

/-- `durable_json`. -/
def durableJson (name : String) (value : Manifest) : Code Unit := do
  call fun f => f.archive name fun a => { a with tmp := some value }
  call fun f => f.archive name fun a => { a with tmp := none, manifest := a.tmp }
  probe

/-- `copy_tree`. -/
def copyTree (t : Tools) (name : String) : Code Unit :=
  sys (fun f => f.archive name fun a => { a with results := f.root.map t.cp })
    fun left f => f.archive name fun a => { a with results := some left }

/-- `prepare_latest`: the copy, up to the manifest that calls it verified. -/
def copyAndVerify (t : Tools) (c : Call) (record : Manifest) : Code Unit := do
  copyTree t c.archiveName
  probe
  check (reserveBytes ≤ c.freeAfter)
    (.valueError "Backup target no longer has 10 GiB reserve; results kept")
  let copied ← inventory t true fun f => (f.archives.find? c.archiveName).bind Archive.results
  let unchanged ← inventory t true Files.root
  check (copied.1 = record.files && unchanged.1 = record.files)
    (.valueError "Backup content or metadata verification failed; results kept")
  probe  -- `sync_tree`
  requireIdle c.referencesAfter
  durableJson c.archiveName { record with status := .verified }

/-- The first manifest. -/
def Call.record (c : Call) (allocated : ℕ) (original : List (String × Record)) : Manifest where
  status := .copying
  originalResultsRoot := c.root.str
  archivedResultsRoot := (c.backupRoot ++ [c.archiveName, "results"]).str
  sourceAllocatedBytes := allocated
  reserveBytes := reserveBytes
  files := original
  error := none

/-- The refusal for want of space. -/
def Call.noSpace (c : Call) (required : ℕ) : Error :=
  .valueError ("Backup requires " ++ gib required ++ " GiB including 10 GiB reserve, but " ++
    c.backupRoot.str ++ " has " ++ gib c.free ++ " GiB; results kept")

/-- `prepare_latest`, from the first inventory to the verified copy. -/
def backUp (t : Tools) (c : Call) : Code Manifest := do
  let metadata ← inventory t false Files.root
  call fun f => { f with backupRoot := true }
  probe
  check (metadata.2 + reserveBytes ≤ c.free) (c.noSpace (metadata.2 + reserveBytes))
  let original ← inventory t true Files.root
  check (original.1.map (fun r => (r.1, r.2.bare)) = metadata.1)
    (.valueError "Results changed during backup preparation; results kept")
  let archives ← look Files.archives
  check (archives.find? c.archiveName).isNone (.other "File exists")
  call fun f => f.archive c.archiveName fun _ => ⟨none, none, none⟩
  durableJson c.archiveName (c.record metadata.2 original.1)
  handle (copyAndVerify t c (c.record metadata.2 original.1)) fun e =>
    durableJson c.archiveName
      { c.record metadata.2 original.1 with status := .failed, error := some e.str }
  pure { c.record metadata.2 original.1 with status := .verified }

/-- The metadata of the retired results. -/
def retiredInfo (c : Call) : Code Info := do
  probe
  let tree ← look fun f => f.siblings.find? c.retired
  match tree.bind Tree.info with
  | none => throw (.other "No such file or directory")
  | some info => pure info

/-- A change of the metadata of the new directory. -/
def setInfo (g : Info → Info) : Code Unit :=
  call fun f => { f with root := f.root.map fun tree => tree.modifyHead fun e =>
    { e with info := g e.info } }

/-- `prepare_latest`: an empty directory in the place of the results. -/
def recreate (c : Call) : Code Unit := do
  let info ← retiredInfo c
  call fun f => { f with root := some [{ c.fresh with info := { c.fresh.info with mode := info.mode } }] }
  Prog.onlyIf (c.euid = 0) do
    let info ← retiredInfo c
    setInfo fun i => { i with uid := info.uid, gid := info.gid }
  let info ← retiredInfo c
  setInfo fun i => { i with mode := info.mode, mtimeNs := info.mtimeNs, xattrs := info.xattrs }
  probe

/-- `prepare_latest`: the way back. -/
def restore (c : Call) : Code Unit := do
  let found ← look Files.root
  match found with
  | none => pure ()
  | some tree =>
    check (tree.length ≤ 1) (.other "Directory not empty")
    call fun f => { f with root := none }
  call fun f =>
    { f with root := f.siblings.find? c.retired, siblings := f.siblings.erase c.retired }

/-- `prepare_latest`, from the rename to the end. -/
def replace (c : Call) (record : Manifest) : Code Unit := do
  let found ← look fun f => f.siblings.find? c.retired
  check (found.all fun tree => tree.isDir && tree.length ≤ 1) (.other "Directory not empty")
  call fun f =>
    { f with
      root := none
      siblings := f.root.elim f.siblings fun tree => f.siblings.set c.retired tree
      renamed := true }
  handle (recreate c) fun _ => restore c
  -- `shutil.rmtree`
  sys (fun f => { f with siblings := f.siblings.erase c.retired }) fun left f =>
    { f with siblings := (f.siblings.find? c.retired).elim f.siblings fun tree =>
      f.siblings.set c.retired (tree.filter fun e => e ∈ left) }
  probe
  durableJson c.archiveName { record with status := .complete }

/-- What `prepare_latest` returns. -/
structure Summary where
  path : String
  manifest : String
  files : ℕ
  sourceAllocatedBytes : ℕ
  deriving DecidableEq

/-- Are the results and the archives apart? -/
def Call.separate (c : Call) : Bool :=
  !(c.root = c.backupRoot || c.backupRoot.isPrefixOf c.root || c.root.isPrefixOf c.backupRoot)

/-- `prepare_latest`, up to the check for an interrupted replacement. -/
def precheck (c : Call) : Code Unit := do
  noSymlinkParents c c.root
  noSymlinkParents c c.backupRoot
  check c.separate (.valueError "Backup and working results must be separate directories")
  let retired ← glob c
  check (retired = [])
    (.valueError "An interrupted results replacement needs inspection before a new run")

/-- `prepare_latest`. -/
def prepareLatest (t : Tools) (c : Call) : Code (Option Summary) := do
  precheck c
  probe
  let found ← look Files.root
  match found with
  | none =>
    call fun f => { f with root := some [c.fresh] }
    pure none
  | some tree =>
    check tree.isDir (.valueError "Results must be a directory")
    requireIdle c.references
    if tree.length ≤ 1 then pure none
    else
      let record ← backUp t c
      replace c record
      pure (some
        { path := (c.backupRoot ++ [c.archiveName]).str
          manifest := (c.backupRoot ++ [c.archiveName, "backup.json"]).str
          files := record.files.length
          sourceAllocatedBytes := record.sourceAllocatedBytes })

end Storage

end DeltaBox
