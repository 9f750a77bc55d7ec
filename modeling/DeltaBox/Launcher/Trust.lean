import DeltaBox.Lib.Acl

/-!
# The accounts that may edit executed code

The hosted launcher runs as root what it finds in a checkout (`ae/scripts/hosted_launcher.py`).
Before that it asks of each inode on the way who can write to it. Root can, and with a trust setting
also the accounts that it names: a maintainer, and possibly a developer.

* `group_writers_trusted` looks a group up in the user database. Its members are the accounts that
  have it as their primary group and those that its line names.
* `check_write_acl` goes through an access control list, one entry after the other.
* `require_trusted_owned` looks at the owner, at the mode, and at the lists that the mode does not
  rule out. A directory's default list is looked at in any case.

The user database is as `getpwnam`, `getpwall` and `getgrgid` read it: two sequences of lines, of
which a lookup gives the first that matches. It does not change while the launcher runs, so that
keeping what was found on a group makes no difference.
-/

namespace DeltaBox

namespace Launcher

open Acl

/-! ### The user database -/

/-- A line of the password database. -/
structure Passwd where
  name : String
  uid : ℕ
  gid : ℕ
  deriving DecidableEq, Repr

/-- A line of the group database. -/
structure Group where
  gid : ℕ
  mem : List String
  deriving DecidableEq, Repr

/-- The lines of both. -/
structure Database where
  passwd : List Passwd
  group : List Group

/-- What the checks raise. -/
inductive Error where
  /-- `ValueError`. -/
  | value (text : String)
  /-- `KeyError`, of a lookup that finds nothing. -/
  | key
  /-- `OSError`, of an attribute that cannot be read. -/
  | os
  deriving DecidableEq, Repr

def getpwnam (db : Database) (name : String) : Except Error Passwd :=
  match db.passwd.find? (·.name = name) with
  | some user => .ok user
  | none => .error .key

def getgrgid (db : Database) (gid : ℕ) : Except Error Group :=
  match db.group.find? (·.gid = gid) with
  | some group => .ok group
  | none => .error .key

/-! ### Trust -/

/-- Root policy explicitly identifies accounts allowed to edit executed code. -/
structure RuntimeTrust where
  maintainer : ℕ
  developer : Option ℕ
  deriving DecidableEq, Repr

def RuntimeTrust.uids (trust : RuntimeTrust) : List ℕ :=
  0 :: trust.maintainer :: trust.developer.toList

/-- The accounts that may own a trusted inode. -/
def owners : Option RuntimeTrust → List ℕ
  | none => [0]
  | some trust => trust.uids

/-- The members of a group that the lookups report. -/
def members (db : Database) (gid : ℕ) : Except Error (List ℕ) := do
  let group ← getgrgid db gid
  let named ← group.mem.mapM (getpwnam db)
  return (db.passwd.filter (·.gid = gid)).map Passwd.uid ++ named.map Passwd.uid

def groupWritersTrusted (db : Database) (trust : RuntimeTrust) (gid : ℕ) : Except Error Bool := do
  let members ← members db gid
  return members.all (trust.uids.contains ·)

/-- `trust is None or not trust.group_writers_trusted(gid)`. -/
def groupUntrusted (db : Database) (trust : Option RuntimeTrust) (gid : ℕ) : Except Error Bool :=
  match trust with
  | none => .ok true
  | some trust => do
    let trusted ← groupWritersTrusted db trust gid
    return !trusted

/-- What the policy says about accounts. -/
structure Policy where
  trustedMaintainer : Option String
  trustedDeveloper : Option String
  allowedUser : String

def runtimeTrust (db : Database) (policy : Policy) : Except Error (Option RuntimeTrust) :=
  match policy.trustedMaintainer with
  | none =>
    if policy.trustedDeveloper.isSome then
      throw (.value "Developer execution requires a configured trusted maintainer")
    else return none
  | some name => do
    let maintainer ← getpwnam db name
    let allowed ← getpwnam db policy.allowedUser
    let developer ← policy.trustedDeveloper.mapM (getpwnam db)
    if developer.any (·.uid ≠ allowed.uid) then
      throw (.value "The trusted developer must be the explicitly allowed caller")
    else if maintainer.uid = allowed.uid ∧ developer = none then
      throw (.value "The reviewer cannot be the trusted maintainer")
    else return some ⟨maintainer.uid, developer.map Passwd.uid⟩

/-! ### Inodes -/

/-- The type of an inode. -/
inductive Kind where
  | regular
  | directory
  | symlink
  | other
  deriving DecidableEq, Repr

/-- An extended attribute. Reading it may fail for another reason than that there is none. -/
structure Xattr where
  value : Option (List UInt8)
  fails : Bool

/-- What `lstat` and `getxattr` give. The file system keeps the mode and the access list alike. -/
structure Inode where
  kind : Kind
  mode : ℕ
  uid : ℕ
  gid : ℕ
  accessAcl : Xattr
  defaultAcl : Xattr
  shows : ∀ es, accessAcl.value.bind parse = some es → Shows mode es

/-- What decides about access to it. -/
def Inode.access (info : Inode) : Access :=
  ⟨info.uid, info.gid, info.mode, info.accessAcl.value.bind parse⟩

/-! ### The checks -/

def unrecognized (path : String) : Error := .value ("Unrecognized filesystem ACL: " ++ path)

def aclWritable (path : String) : Error :=
  .value ("Path ACL is writable by an untrusted user or group: " ++ path)

/-- The entry lets somebody write who is not trusted. -/
def entryUntrusted (db : Database) (gid : ℕ) (trust : Option RuntimeTrust) (es : List Entry)
    (e : Entry) : Except Error Bool :=
  if e.tag = 0x20 ∧ writes e.permissions = true then .ok true
  else if through es e then
    if e.tag = 0x02 ∧ e.identity ∉ owners trust then .ok true
    else if e.tag = 0x04 then groupUntrusted db trust gid
    else if e.tag = 0x08 then groupUntrusted db trust e.identity
    else .ok false
  else .ok false

/-- One turn of the loop of `check_write_acl`. -/
def checkEntry (db : Database) (path : String) (gid : ℕ) (trust : Option RuntimeTrust)
    (es : List Entry) (e : Entry) : Except Error Unit :=
  if e.tag ∉ [0x01, 0x02, 0x04, 0x08, 0x10, 0x20] ∨ 0o7 < e.permissions then throw (unrecognized path)
  else do
    let untrusted ← entryUntrusted db gid trust es e
    if untrusted then throw (aclWritable path)

/-- Check Linux access/default ACLs, including writers of newly created files. -/
def checkWriteAcl (db : Database) (path : String) (info : Inode) (trust : Option RuntimeTrust)
    (default : Bool) : Except Error Unit :=
  let acl := if default then info.defaultAcl else info.accessAcl
  if acl.fails then throw .os
  else
    match acl.value with
    | none => return
    | some acl =>
      match parse acl with
      | none => throw (unrecognized path)
      | some entries => entries.forM (checkEntry db path info.gid trust entries)

/-- `protected_sticky`. -/
def protectedSticky (info : Inode) (stickyDirectory : Bool) : Bool :=
  stickyDirectory && info.kind == .directory && info.mode.testBit 9

/-- The mode lets somebody write who is not trusted. -/
def modeUntrusted (db : Database) (info : Inode) (trust : Option RuntimeTrust) : Except Error Bool :=
  if info.mode.testBit 1 then .ok true
  else if info.mode.testBit 4 then groupUntrusted db trust info.gid
  else .ok false

/-- The list that the mode does not rule out, and a directory's default list. -/
def checkAcls (db : Database) (path : String) (info : Inode) (trust : Option RuntimeTrust) :
    Except Error Unit := do
  (if info.mode.testBit 4 ∧ trust ≠ none then checkWriteAcl db path info trust false else .ok ())
  (if info.kind = .directory then checkWriteAcl db path info trust true else .ok ())

def ownedBy (trust : Option RuntimeTrust) : String :=
  if trust = none then "root" else "root or the configured trusted maintainer"

def requireTrustedOwned (db : Database) (path : String) (info : Inode) (trust : Option RuntimeTrust)
    (stickyDirectory : Bool) : Except Error Unit :=
  if info.uid ∉ owners trust then
    throw (.value ("Path must be owned by " ++ ownedBy trust ++ ": " ++ path))
  -- link permissions do not grant write access to the link itself
  else if info.kind = .symlink then return
  else if info.kind ≠ .regular ∧ info.kind ≠ .directory then
    throw (.value ("Expected a regular file or directory: " ++ path))
  else if protectedSticky info stickyDirectory then return
  else do
    let untrusted ← modeUntrusted db info trust
    if untrusted then
      throw (.value ("Path must not be writable by group or other users: " ++ path))
    else checkAcls db path info trust

/-! ### What the checks are for -/

/-- The database puts the user into the group, as its primary group or by a line of the group. -/
def Database.inGroup (db : Database) (u g : ℕ) : Bool :=
  db.passwd.any fun p => p.uid = u ∧
    (p.gid = g ∨ db.group.any (fun r => r.gid = g ∧ p.name ∈ r.mem) = true)

/-- Nobody who is not trusted may write, with whatever groups the database gives it. -/
def Denies (db : Database) (trust : Option RuntimeTrust) (a : Access) : Prop :=
  ∀ u ∉ owners trust, ∀ groups : ℕ → Bool,
    (∀ g, groups g = true → db.inGroup u g = true) → a.write u groups = false

/-- The group of a new file: that of the directory, if it passes it on, and else that of the process. -/
def Inode.newGroup (info : Inode) (g : ℕ) : ℕ := if info.mode.testBit 10 then info.gid else g

/-- A new file in a directory. -/
def newFile (info : Inode) (c g umask mode : ℕ) : Access :=
  create (info.defaultAcl.value.bind parse) c (info.newGroup g) umask mode

/-- The inode, and each file that a trusted user creates in it with one of its groups and without
`w` for group and others in its umask. -/
structure Sealed (db : Database) (trust : Option RuntimeTrust) (info : Inode) : Prop where
  denies : Denies db trust info.access
  created : info.kind = .directory → ∀ c ∈ owners trust, ∀ g, db.inGroup c g = true →
    ∀ umask mode : ℕ, umask.testBit 4 = true → umask.testBit 1 = true →
      Denies db trust (newFile info c g umask mode)

/-- The lookups report this member. -/
def Reported (db : Database) (g u : ℕ) : Prop := ∃ us, members db g = .ok us ∧ u ∈ us

/-- A group that lets an untrusted user write is among those that are looked at, and that it has
this member is reported. A user that the list names is not decided by its groups. -/
def Complete (db : Database) (trust : Option RuntimeTrust) (a : Access) (looked : List ℕ) : Prop :=
  ∀ u ∉ owners trust, a.names u = false → ∀ g ∈ a.grants, db.inGroup u g = true →
    g ∈ looked ∧ Reported db g u

/-- In a directory with a default list: with the group that a new file has, the entries let no other
groups write than those that are looked at. -/
def NewComplete (db : Database) (trust : Option RuntimeTrust) (info : Inode) : Prop :=
  ∀ es, info.defaultAcl.value.bind parse = some es → ∀ c ∈ owners trust, ∀ g,
    db.inGroup c g = true →
      Complete db trust ⟨c, info.newGroup g, 0, some es⟩ (grantsOf info.gid es)

end Launcher

end DeltaBox
