import DeltaBox.Overlay.Sandbox
import Mathlib.Data.List.Basic

/-!
# Root overlays

Beside the task directory the controller can cover system directories such as `/usr` and `/etc`,
each with a switchable overlay of its own. The original contents are bound to a stash, the overlay is
mounted with the stash below, and every checkpoint and restore of the set goes through the overlays
one by one.

Each overlay keeps its own chain of lower directories, its own counter for new directories and its
own table of snapshots. Its directories are in a directory that is named after its target: the tag.

## What is modelled

`RootOverlay` and `RootOverlaySet` with all their fields but the file descriptor, and the directories
and mounts behind them. The switch of any overlay may raise. Paths are names: two paths that are
different strings are different directories.
-/

namespace DeltaBox

namespace Overlay

/-! ### Paths -/

/-- One component of `os.path.normpath`, on the components so far (last one first). -/
def normComponent (rooted : Bool) (comps : List (List Char)) (comp : List Char) : List (List Char) :=
  if comp = [] ∨ comp = ['.'] then comps
  else if comp ≠ ['.', '.'] ∨ (rooted = false ∧ comps = []) ∨ comps.head? = some ['.', '.'] then
    comp :: comps
  else comps.tail

/-- The slashes `os.path.normpath` keeps at the front: two stay two. -/
def initialSlashes : List Char → List Char
  | ['/', '/'] => ['/', '/']
  | '/' :: '/' :: c :: _ => if c = '/' then ['/'] else ['/', '/']
  | '/' :: _ => ['/']
  | _ => []

/-- `os.path.normpath`. -/
def normpath (path : String) : String :=
  let slashes := initialSlashes path.toList
  let comps := (path.toList.splitOn '/').foldl (normComponent (slashes ≠ [])) []
  let chars := slashes ++ List.intercalate ['/'] comps.reverse
  if chars = [] then "." else String.ofList chars

/-- `target.strip("/").replace("/", "_") or "root"`. -/
def tag (target : String) : String :=
  let stripped := ((target.toList.dropWhile (· = '/')).reverse.dropWhile (· = '/')).reverse
  if stripped = [] then "root"
  else String.ofList (stripped.map fun c => if c = '/' then '_' else c)

/-- `DEFAULT_EXCLUDES`. -/
def defaultExcludes : List String :=
  ["/proc", "/sys", "/dev", "/run", "/tmp", "/var/log", "/var/run"]

/-- `DEFAULT_TARGETS`. -/
def defaultTargets : List String := ["/usr", "/etc", "/var", "/opt"]

/-- The targets `RootOverlaySet` covers. -/
def accepted {P C : Type*} (d : Disk P C) (targets : Option (List String)) : List String :=
  ((targets.getD defaultTargets).map normpath).filter fun t =>
    t ∉ defaultExcludes && (d.names t).isSome

/-! ### One overlay -/

/-- A switch an overlay has made, with the number of the call it was made in. -/
structure Point where
  call : ℕ
  kind : Kind
  id : String
  deriving DecidableEq

/-- `RootOverlay`, with what the kernel has mounted for it. -/
structure RootOverlay where
  /-- `target`. -/
  target : String
  /-- `root`. -/
  root : String
  /-- `_n`. -/
  n : ℕ
  /-- `lower_chain`. -/
  lowerChain : List String
  /-- `upper`. -/
  upper : String
  /-- `work`. -/
  work : String
  /-- `snapshots`. -/
  snapshots : Dict String (List String)
  /-- The stack the kernel has mounted. -/
  mount : Mount
  /-- The switches it has made. The code does not keep them. -/
  points : List Point

namespace RootOverlay

/-- `stash`. -/
def stash (o : RootOverlay) : String := join o.root "stash"

/-- `merged`. -/
def merged (o : RootOverlay) : String := join o.root "merged"

/-- The upper directory with a number. -/
def upperPath (o : RootOverlay) (k : ℕ) : String := join o.root ("u" ++ Nat.repr k)

/-- The work directory with a number. -/
def workPath (o : RootOverlay) (k : ℕ) : String := join o.root ("w" ++ Nat.repr k)

variable {P C : Type*}

/-- `_fresh`: the next number, and its two directories. -/
def fresh (d : Disk P C) (o : RootOverlay) : Disk P C × RootOverlay :=
  ((d.mkdirs (o.upperPath (o.n + 1))).mkdirs (o.workPath (o.n + 1)), { o with n := o.n + 1 })

/-- `_switch`. The kernel resolves the paths; a `ckpt` switch puts the old upper on top of the passed
list. `ok` is whether the call comes back without an error. -/
def switch (d : Disk P C) (o : RootOverlay) (lowers : List String) (upper work : String)
    (kind : Kind) (ok : Bool) : Option Mount :=
  if ok then
    (d.resolve lowers).bind fun is =>
      (d.names upper).bind fun u =>
        (d.names work).map fun _ =>
          match kind with
          | .ckpt => ⟨u, o.mount.upper :: is⟩
          | .restore => ⟨u, is⟩
  else none

/-- `checkpoint`. The last component is whether it returned. -/
def checkpoint (call : ℕ) (id : String) (d : Disk P C) (o : RootOverlay) (ok : Bool) :
    Disk P C × RootOverlay × Bool :=
  let (d, o) := o.fresh d
  match o.switch d o.lowerChain (o.upperPath o.n) (o.workPath o.n) .ckpt ok with
  | none => (d, o, false)
  | some m =>
    (d, { o with
      lowerChain := o.upper :: o.lowerChain
      upper := o.upperPath o.n
      work := o.workPath o.n
      snapshots := o.snapshots.set id (o.upper :: o.lowerChain)
      mount := m
      points := o.points ++ [⟨call, .ckpt, id⟩] }, true)

/-- `restore`. -/
def restore (call : ℕ) (id : String) (d : Disk P C) (o : RootOverlay) (ok : Bool) :
    Disk P C × RootOverlay × Bool :=
  match o.snapshots.find? id with
  | none => (d, o, false)
  | some chain =>
    let (d, o) := o.fresh d
    match o.switch d chain (o.upperPath o.n) (o.workPath o.n) .restore ok with
    | none => (d, o, false)
    | some m =>
      (d, { o with
        lowerChain := chain
        upper := o.upperPath o.n
        work := o.workPath o.n
        mount := m
        points := o.points ++ [⟨call, .restore, id⟩] }, true)

/-- The constructor. -/
def new (layersRoot target : String) : RootOverlay where
  target := target
  root := join layersRoot (tag target)
  n := 0
  lowerChain := []
  upper := ""
  work := ""
  snapshots := Dict.empty
  mount := ⟨0, []⟩
  points := []

/-- `mount`. The target is bound to the stash, and the overlay is mounted with the stash below. -/
def mountOn (d : Disk P C) (o : RootOverlay) : Option (Disk P C × RootOverlay) :=
  let (d, o) := o.fresh ((d.mkdirs o.stash).mkdirs o.merged)
  match d.names o.target with
  | none => none
  | some _ =>
    let d := d.bindMount o.target o.stash
    match d.resolve [o.stash], d.names (o.upperPath o.n) with
    | some is, some u =>
      some (d, { o with
        lowerChain := [o.stash]
        upper := o.upperPath o.n
        work := o.workPath o.n
        mount := ⟨u, is⟩ })
    | _, _ => none

end RootOverlay

/-! ### The set -/

/-- `RootOverlaySet`, with the directories behind it. -/
structure RootOverlaySet (P C : Type*) where
  /-- The directories. -/
  disk : Disk P C
  /-- `overlays`. -/
  overlays : List RootOverlay
  /-- The calls made so far. -/
  calls : ℕ

namespace RootOverlaySet

variable {P C : Type*}

/-- The loop of `mount_all`. A mount that fails makes the whole call fail. -/
def mountEach : Disk P C → List RootOverlay → Option (Disk P C × List RootOverlay)
  | d, [] => some (d, [])
  | d, o :: os =>
    (o.mountOn d).bind fun r => (mountEach r.1 os).map fun rs => (rs.1, r.2 :: rs.2)

/-- The constructor and `mount_all`. -/
def mountAll (d : Disk P C) (layersRoot : String) (targets : Option (List String)) :
    Option (RootOverlaySet P C) :=
  (mountEach d ((accepted d targets).map (RootOverlay.new layersRoot))).map fun r => ⟨r.1, r.2, 0⟩

/-- The loop of `checkpoint` and `restore`, over the overlays that are done and those that are left.
`fault` is the overlay whose switch raises. -/
def each (f : Disk P C → RootOverlay → Bool → Disk P C × RootOverlay × Bool) (fault : Option ℕ) :
    Disk P C → List RootOverlay → List RootOverlay → Disk P C × List RootOverlay × Bool
  | d, done, [] => (d, done, true)
  | d, done, o :: os =>
    match f d o (fault ≠ some done.length) with
    | (d, o, true) => each f fault d (done ++ [o]) os
    | (d, o, false) => (d, done ++ o :: os, false)

/-- `checkpoint`. The last component is whether it returned. -/
def checkpoint (s : RootOverlaySet P C) (id : String) (fault : Option ℕ) :
    RootOverlaySet P C × Bool :=
  let (d, os, ok) := each (RootOverlay.checkpoint s.calls id) fault s.disk [] s.overlays
  (⟨d, os, s.calls + 1⟩, ok)

/-- `restore`. -/
def restore (s : RootOverlaySet P C) (id : String) (fault : Option ℕ) :
    RootOverlaySet P C × Bool :=
  let (d, os, ok) := each (RootOverlay.restore s.calls id) fault s.disk [] s.overlays
  (⟨d, os, s.calls + 1⟩, ok)

/-- `has_checkpoint`. -/
def hasCheckpoint (s : RootOverlaySet P C) (id : String) : Bool :=
  !s.overlays.isEmpty && s.overlays.all fun o => id ∈ o.snapshots.keys

variable [DecidableEq P]

/-- What the covered directories show. -/
def views (s : RootOverlaySet P C) : List (View P C) :=
  s.overlays.map fun o => s.disk.visible o.mount

/-- A process writes a file below one target. -/
def write (s : RootOverlaySet P C) (i : ℕ) (ds : List P) (p : P) (c : C) : RootOverlaySet P C :=
  match s.overlays[i]? with
  | none => s
  | some o =>
    { s with disk := s.disk.put o.mount.upper ((s.disk.content o.mount.upper).write ds p c) }

/-- A process removes one. -/
def remove (s : RootOverlaySet P C) (i : ℕ) (ds : List P) (p : P) : RootOverlaySet P C :=
  match s.overlays[i]? with
  | none => s
  | some o =>
    { s with
      disk := s.disk.put o.mount.upper ((s.disk.content o.mount.upper).remove
        (o.mount.lowers.map s.disk.content) ds p) }

/-! ### Runs -/

/-- What happens to a set. -/
inductive Action (P C : Type*) where
  | write (i : ℕ) (ds : List P) (p : P) (c : C)
  | remove (i : ℕ) (ds : List P) (p : P)
  | checkpoint (id : String) (fault : Option ℕ)
  | restore (id : String) (fault : Option ℕ)

/-- A set, with what its directories showed at the checkpoints that succeeded. -/
structure Traced (P C : Type*) where
  set : RootOverlaySet P C
  /-- The last views under each id. -/
  saved : Dict String (List (View P C))

/-- One step. -/
def step (t : Traced P C) : Action P C → Option (Traced P C)
  | .write i ds p c => some { t with set := t.set.write i ds p c }
  | .remove i ds p => some { t with set := t.set.remove i ds p }
  | .checkpoint id fault =>
    match t.set.checkpoint id fault with
    | (s, true) => some ⟨s, t.saved.set id t.set.views⟩
    | (s, false) => some { t with set := s }
  | .restore id fault => some { t with set := (t.set.restore id fault).1 }

end RootOverlaySet

end Overlay

end DeltaBox
