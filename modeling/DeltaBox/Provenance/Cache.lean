import DeltaBox.Lib.Dict
import DeltaBox.Lib.Machine
import Mathlib.Algebra.Order.Ring.Int

/-!
# The cache of digests

`cached_digest` hashes a file, or returns the digest that an earlier call has put into a cache file
(`replay/provenance.py`). It tells a file that has changed by its `stat`. Two writes within one tick
of the clock leave the same `stat`, so a digest is used again only if its hashing began more than a
second behind the timestamps of the file.

## What is modelled

* Files behind names, with what `stat` says of them. A write may keep every field but the change
  time, and a name may be given to another file, with the same inode number.
* Any number of calls, each in the steps at which a write can come in between: waiting for the lock,
  loading the cache, looking at the file, comparing, taking the time, looking again, opening,
  reading some bytes, looking a last time, and replacing the cache file. A call can fail or die at
  any of them.

Paths are resolved. The digest of a list of bytes is a parameter.

The field `seen` of a call keeps the bytes of the file at its first look. The code has no such thing.
-/

namespace DeltaBox

namespace Provenance

/-- A file. -/
structure Inode where
  content : List UInt8
  device : ℕ
  ino : ℕ
  mtimeNs : ℤ
  ctimeNs : ℤ
  deriving DecidableEq, Repr

/-- What `signature` returns. -/
structure Signature where
  path : String
  device : ℕ
  inode : ℕ
  size : ℕ
  mtimeNs : ℤ
  ctimeNs : ℤ
  deriving DecidableEq, Repr

/-- What `file_digest` returns. -/
structure Record where
  identity : Signature
  sha256 : String
  deriving DecidableEq, Repr

/-- A value of the cache. -/
structure Entry where
  version : ℕ
  hashStartedNs : ℤ
  digest : Record
  deriving DecidableEq, Repr

/-- `_CACHE_VERSION`. -/
def cacheVersion : ℕ := 2

/-- `_RACY_STAT_NS`. -/
def racyStatNs : ℤ := 1000000000

abbrev Records := Dict String Entry

/-- How far a call is. -/
inductive Call where
  /-- Not made yet. -/
  | fresh
  /-- In `flock`. -/
  | waiting (path : String)
  | locked (path : String)
  /-- The cache has been read. -/
  | loaded (path : String) (records : Records)
  /-- The file has been looked at. -/
  | looked (path : String) (records : Records) (identity : Signature) (seen : List UInt8)
  /-- The entry is not used, and the time has been taken. -/
  | started (path : String) (records : Records) (hashStartedNs : ℤ)
  /-- In `file_digest`, behind its first look. -/
  | checked (path : String) (records : Records) (hashStartedNs : ℤ) (before : Signature)
  /-- A file is open, and some bytes have been read. -/
  | reading (path : String) (records : Records) (hashStartedNs : ℤ) (before : Signature)
      (file : ℕ) (bytes : List UInt8)
  /-- The file is at its end. -/
  | hashed (path : String) (records : Records) (hashStartedNs : ℤ) (before : Signature)
      (bytes : List UInt8)
  /-- The file has been looked at again. -/
  | recorded (path : String) (records : Records) (hashStartedNs : ℤ) (record : Record)
  /-- It has returned a digest that it has computed. -/
  | computed (record : Record)
  /-- It has returned the digest of the cache. -/
  | reused (path : String) (record : Record) (seen : List UInt8)
  /-- It has raised, or its process is gone. -/
  | ended

/-- The files, the cache file, its lock and the calls. -/
structure World where
  now : ℤ
  files : ℕ → Inode
  names : String → Option ℕ
  cache : Option Records
  lock : Option ℕ
  calls : ℕ → Call

/-- What happens next. -/
inductive Label where
  /-- Time passes. -/
  | tick (now : ℤ)
  /-- A file is written, or its metadata. -/
  | write (file : ℕ) (inode : Inode)
  /-- A name is given to a file, which gets a new change time. -/
  | replace (path : String) (file : ℕ) (ctimeNs : ℤ)
  | unlink (path : String)
  /-- `cached_digest` is called. -/
  | call (i : ℕ) (path : String)
  /-- `flock` returns. -/
  | acquire (i : ℕ)
  | load (i : ℕ)
  | look (i : ℕ)
  /-- The entry is compared, and used if it can be. -/
  | compare (i : ℕ)
  /-- The first look of `file_digest`. -/
  | check (i : ℕ)
  | openFile (i : ℕ)
  /-- So many bytes are read. -/
  | read (i n : ℕ)
  | eof (i : ℕ)
  /-- The second look of `file_digest`. -/
  | recheck (i : ℕ)
  /-- `os.replace`. -/
  | save (i : ℕ)
  /-- Something raises, or the process is killed. -/
  | die (i : ℕ)

/-- What `stat` says of a file under a name. -/
def statOf (path : String) (f : Inode) : Signature :=
  ⟨path, f.device, f.ino, f.content.length, f.mtimeNs, f.ctimeNs⟩

/-- `signature`. -/
def World.signature (s : World) (path : String) : Option Signature :=
  (s.names path).map fun file => statOf path (s.files file)

/-- The bytes of the file with a name. -/
def World.bytes (s : World) (path : String) : Option (List UInt8) :=
  (s.names path).map fun file => (s.files file).content

/-- The cache as it is read. -/
def World.records (s : World) : Records := s.cache.getD Dict.empty

/-- A change time that a change at this time sets: at most a second old, not in the future, and not
older than the one before. -/
def World.Stamp (s : World) (before after : ℤ) : Prop :=
  s.now ≤ after + racyStatNs ∧ after ≤ s.now ∧ before ≤ after

instance (s : World) (before after : ℤ) : Decidable (s.Stamp before after) :=
  inferInstanceAs (Decidable (_ ∧ _ ∧ _))

variable (sha256 : List UInt8 → String)

/-- The form of a digest: 64 hexadecimal digits. -/
def isDigest (digest : String) : Bool :=
  digest.toList.length = 64 && digest.toList.all fun c => c.isDigit || ('a' ≤ c && c ≤ 'f')

/-- Can an entry be used for a file that looks like this? -/
def usable (now : ℤ) (identity : Signature) (entry : Entry) : Bool :=
  entry.version = cacheVersion &&
    decide (max identity.mtimeNs identity.ctimeNs + racyStatNs < entry.hashStartedNs) &&
    decide (entry.hashStartedNs ≤ now) && entry.digest.identity = identity &&
    isDigest entry.digest.sha256

def World.setCall (s : World) (i : ℕ) (c : Call) : World :=
  { s with calls := Function.update s.calls i c }

/-- A call returns, and gives the lock back. -/
def World.leave (s : World) (i : ℕ) (c : Call) : World :=
  { s with
    calls := Function.update s.calls i c
    lock := if s.lock = some i then none else s.lock }

/-- What a step makes of the world. -/
def step (s : World) : Label → Option World
  | .tick now => if s.now ≤ now then some { s with now } else none
  | .write file inode =>
    if s.Stamp (s.files file).ctimeNs inode.ctimeNs then
      some { s with files := Function.update s.files file inode }
    else none
  | .replace path file ctimeNs =>
    if s.Stamp (s.files file).ctimeNs ctimeNs then
      some { s with
        files := Function.update s.files file { s.files file with ctimeNs }
        names := Function.update s.names path (some file) }
    else none
  | .unlink path => some { s with names := Function.update s.names path none }
  | .call i path =>
    match s.calls i with
    | .fresh => some (s.setCall i (.waiting path))
    | _ => none
  | .acquire i =>
    match s.calls i with
    | .waiting path =>
      if s.lock = none then some { s.setCall i (.locked path) with lock := some i } else none
    | _ => none
  | .load i =>
    match s.calls i with
    | .locked path => some (s.setCall i (.loaded path s.records))
    | _ => none
  | .look i =>
    match s.calls i with
    | .loaded path records =>
      match s.signature path, s.bytes path with
      | some identity, some seen => some (s.setCall i (.looked path records identity seen))
      | _, _ => some (s.leave i .ended)
    | _ => none
  | .compare i =>
    match s.calls i with
    | .looked path records identity seen =>
      match (records.find? identity.path).filter (usable s.now identity) with
      | some entry => some (s.leave i (.reused path entry.digest seen))
      | none => some (s.setCall i (.started path records s.now))
    | _ => none
  | .check i =>
    match s.calls i with
    | .started path records hashStartedNs =>
      match s.signature path with
      | some before => some (s.setCall i (.checked path records hashStartedNs before))
      | none => some (s.leave i .ended)
    | _ => none
  | .openFile i =>
    match s.calls i with
    | .checked path records hashStartedNs before =>
      match s.names path with
      | some file => some (s.setCall i (.reading path records hashStartedNs before file []))
      | none => some (s.leave i .ended)
    | _ => none
  | .read i n =>
    match s.calls i with
    | .reading path records hashStartedNs before file bytes =>
      some (s.setCall i (.reading path records hashStartedNs before file
        (bytes ++ ((s.files file).content.drop bytes.length).take n)))
    | _ => none
  | .eof i =>
    match s.calls i with
    | .reading path records hashStartedNs before file bytes =>
      if (s.files file).content.length ≤ bytes.length then
        some (s.setCall i (.hashed path records hashStartedNs before bytes))
      else none
    | _ => none
  | .recheck i =>
    match s.calls i with
    | .hashed path records hashStartedNs before bytes =>
      if s.signature path = some before then
        some (s.setCall i (.recorded path records hashStartedNs ⟨before, sha256 bytes⟩))
      else some (s.leave i .ended)
    | _ => none
  | .save i =>
    match s.calls i with
    | .recorded path records hashStartedNs record =>
      some { s.leave i (.computed record) with
        cache := some (records.set path ⟨cacheVersion, hashStartedNs, record⟩) }
    | _ => none
  | .die i =>
    match s.calls i with
    | .fresh => none
    | _ => some (s.leave i .ended)

/-- No cache file yet, and no call. -/
def start (now : ℤ) (files : ℕ → Inode) (names : String → Option ℕ) : World where
  now
  files
  names
  cache := none
  lock := none
  calls := fun _ => .fresh

end Provenance

end DeltaBox
