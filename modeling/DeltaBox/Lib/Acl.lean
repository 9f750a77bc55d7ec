import Mathlib.Data.Nat.Bitwise
import Mathlib.Data.List.Basic

/-!
# Access control lists

Permission bits, the access control lists of POSIX.1e as Linux keeps them in an extended attribute,
and the question who may write. A list has an entry for the owner, for the owning group and for all
others, and may have entries for named users and groups. With these it has a mask, which bounds the
owning group and the named entries. The group bits of the mode then show the mask.

## Who may write

`Access.write` is the access check algorithm: the owner, the entry that names the user, the entries
of its groups, all others, and the first of these that applies decides. Groups are the only part of
it that is not settled by the list alone, and `exists_write_iff` says so: where neither the others
nor the entry that names the user let it write, it can write exactly if it belongs to one of the
groups that the list lets write, and is not named.

## New files

A directory may have a default list. It takes the place of the umask: a new file gets its entries,
bounded by the mode that it is created with.
-/

namespace DeltaBox

namespace Acl

/-- An entry: its tag, `rwx`, and the user or group that it names. -/
structure Entry where
  tag : ℕ
  permissions : ℕ
  identity : ℕ
  deriving DecidableEq, Repr

/-! ### The extended attribute -/

/-- Two bytes, the low one first. -/
def u16 (a b : UInt8) : ℕ := a.toNat + 256 * b.toNat

/-- Four bytes, the low one first. -/
def u32 (a b c d : UInt8) : ℕ := u16 a b + 65536 * u16 c d

/-- The entries, eight bytes each. -/
def unpack : List UInt8 → List Entry
  | a :: b :: c :: d :: e :: f :: g :: h :: rest => ⟨u16 a b, u16 c d, u32 e f g h⟩ :: unpack rest
  | _ => []

/-- The entries behind the version. -/
def parse : List UInt8 → Option (List Entry)
  | a :: b :: c :: d :: rest =>
    if rest.length % 8 ≠ 0 ∨ u32 a b c d ≠ 2 then none else some (unpack rest)
  | _ => none

/-! ### Entries that let write -/

/-- `w` of some permissions. -/
def writes (p : ℕ) : Bool := p.testBit 1

/-- The permissions of the mask, if there is one. -/
def mask (es : List Entry) : ℕ := ((es.find? (·.tag = 0x10)).map Entry.permissions).getD 0o7

/-- The entry lets write, and so does the mask. -/
def through (es : List Entry) (e : Entry) : Bool := writes e.permissions && writes (mask es)

/-- The entry of a named user. -/
def userEntry (es : List Entry) (u : ℕ) : Option Entry :=
  es.find? fun e => e.tag = 0x02 ∧ e.identity = u

/-- The entry of the owning group. -/
def groupEntry (es : List Entry) : Option Entry := es.find? (·.tag = 0x04)

/-- The entry of all others. -/
def otherEntry (es : List Entry) : Option Entry := es.find? (·.tag = 0x20)

/-- The list has more than the three entries that the mode shows. -/
def extended (es : List Entry) : Bool :=
  es.any fun e => e.tag = 0x02 ∨ e.tag = 0x08 ∨ e.tag = 0x10

/-! ### The algorithm -/

/-- What decides about access to an inode. -/
structure Access where
  uid : ℕ
  gid : ℕ
  mode : ℕ
  acl : Option (List Entry)

/-- The entries of the groups of a process. -/
def groupEntries (gid : ℕ) (es : List Entry) (groups : ℕ → Bool) : List Entry :=
  (groupEntry es).toList.filter (fun _ => groups gid) ++
    es.filter fun e => e.tag = 0x08 ∧ groups e.identity

/-- A user who is not the owner may write. -/
def aclWrite (gid : ℕ) (es : List Entry) (u : ℕ) (groups : ℕ → Bool) : Bool :=
  match userEntry es u with
  | some e => through es e
  | none =>
    if groupEntries gid es groups ≠ [] then (groupEntries gid es groups).any (through es)
    else (otherEntry es).any fun e => writes e.permissions

/-- A process of this user with these groups may write. -/
def Access.write (a : Access) (u : ℕ) (groups : ℕ → Bool) : Bool :=
  if u = a.uid then a.mode.testBit 7
  else
    match a.acl with
    | some es => aclWrite a.gid es u groups
    | none => if groups a.gid then a.mode.testBit 4 else a.mode.testBit 1

/-! ### What the algorithm comes to -/

/-- The groups that may write. -/
def Access.grants (a : Access) : List ℕ :=
  match a.acl with
  | some es =>
    ((groupEntry es).toList.filter (through es)).map (fun _ => a.gid) ++
      (es.filter fun e => e.tag = 0x08 ∧ through es e).map Entry.identity
  | none => if a.mode.testBit 4 then [a.gid] else []

/-- The list has an entry for the user. -/
def Access.names (a : Access) (u : ℕ) : Bool := a.acl.any fun es => (userEntry es u).isSome

/-- The owner, all others and the entry of the user itself do not let it write. -/
structure Access.Quiet (a : Access) (u : ℕ) : Prop where
  owner : u ≠ a.uid
  user : ∀ es, a.acl = some es → ∀ e, userEntry es u = some e → through es e = false
  other : ∀ es, a.acl = some es → ∀ e, otherEntry es = some e → writes e.permissions = false
  bits : a.acl = none → a.mode.testBit 1 = false

variable {a : Access} {u : ℕ} {es : List Entry} {groups : ℕ → Bool}

theorem mem_groupEntries {gid : ℕ} {e : Entry} :
    e ∈ groupEntries gid es groups ↔
      groupEntry es = some e ∧ groups gid = true ∨
        e ∈ es ∧ e.tag = 0x08 ∧ groups e.identity = true := by
  simp [groupEntries]

/-- A group that lets write is that of an entry. -/
theorem mem_grants_iff (hacl : a.acl = some es) {g : ℕ} :
    g ∈ a.grants ↔ (∃ e, groupEntry es = some e ∧ through es e = true ∧ a.gid = g) ∨
      ∃ e ∈ es, e.tag = 0x08 ∧ through es e = true ∧ e.identity = g := by
  rw [Access.grants, hacl]
  simp only [List.mem_append, List.mem_map, List.mem_filter, Option.mem_toList,
    decide_eq_true_eq, Bool.decide_and, Bool.and_eq_true, Bool.decide_eq_true, and_assoc]

/-- Only the groups are left to decide. -/
theorem Access.Quiet.write_iff (h : a.Quiet u) (groups : ℕ → Bool) :
    a.write u groups = true ↔ a.names u = false ∧ ∃ g ∈ a.grants, groups g = true := by
  rw [Access.write, if_neg h.owner]
  rcases hacl : a.acl with _ | es
  · have hother := h.bits hacl
    simp only [Access.names, Access.grants, hacl, Option.any_none, true_and]
    by_cases hmode : a.mode.testBit 4 = true
    · simp [hmode, hother]
    · simp [hmode, hother]
  · simp only [Access.names, hacl, Option.any_some]
    rcases huser : userEntry es u with _ | e
    · simp only [aclWrite, huser, Option.isSome_none, true_and, mem_grants_iff hacl]
      split_ifs with hgroups
      · rw [List.any_eq_true]
        constructor
        · rintro ⟨e, he, hthrough⟩
          rcases mem_groupEntries.mp he with ⟨hentry, hg⟩ | ⟨hmem, htag, hg⟩
          · exact ⟨a.gid, .inl ⟨e, hentry, hthrough, rfl⟩, hg⟩
          · exact ⟨e.identity, .inr ⟨e, hmem, htag, hthrough, rfl⟩, hg⟩
        · rintro ⟨g, ⟨e, hentry, hthrough, rfl⟩ | ⟨e, hmem, htag, hthrough, rfl⟩, hg⟩
          · exact ⟨e, mem_groupEntries.mpr (.inl ⟨hentry, hg⟩), hthrough⟩
          · exact ⟨e, mem_groupEntries.mpr (.inr ⟨hmem, htag, hg⟩), hthrough⟩
      · -- none of the groups has an entry, and the others may not write
        have hnone : groupEntries a.gid es groups = [] := not_not.mp hgroups
        have hother : (otherEntry es).any (fun e => writes e.permissions) = false := by
          rcases hentry : otherEntry es with _ | e
          · rfl
          · exact h.other es hacl e hentry
        rw [hother]
        simp only [Bool.false_eq_true, false_iff]
        rintro ⟨g, ⟨e, hentry, -, rfl⟩ | ⟨e, hmem, htag, -, rfl⟩, hg⟩
        · exact List.not_mem_nil (hnone ▸ mem_groupEntries.mpr (.inl ⟨hentry, hg⟩))
        · exact List.not_mem_nil (hnone ▸ mem_groupEntries.mpr (.inr ⟨hmem, htag, hg⟩))
    · simp only [aclWrite, huser, h.user es hacl e huser]
      simp

/-- Some set of groups among those of the user lets it write exactly if one of them does. -/
theorem Access.Quiet.exists_write_iff (h : a.Quiet u) (member : ℕ → Bool) :
    (∃ groups : ℕ → Bool, (∀ g, groups g = true → member g = true) ∧ a.write u groups = true) ↔
      a.names u = false ∧ ∃ g ∈ a.grants, member g = true := by
  constructor
  · rintro ⟨groups, hsub, hwrite⟩
    obtain ⟨hnames, g, hg, hin⟩ := (h.write_iff groups).mp hwrite
    exact ⟨hnames, g, hg, hsub g hin⟩
  · rintro ⟨hnames, hgrants⟩
    exact ⟨member, fun _ hg => hg, (h.write_iff member).mpr ⟨hnames, hgrants⟩⟩

/-! ### The mode shows the list -/

/-- The group bits of the mode are the mask, if the list has more than the mode shows, and else the
owning group's. The last bits are those of all others. -/
structure Shows (mode : ℕ) (es : List Entry) : Prop where
  bounded : extended es = true → ∃ e, es.find? (·.tag = 0x10) = some e ∧ e.permissions % 8 = mode / 8 % 8
  group : extended es = false → ∀ e, groupEntry es = some e → e.permissions % 8 = mode / 8 % 8
  other : ∀ e, otherEntry es = some e → e.permissions % 8 = mode % 8

theorem testBit_one_mod (n : ℕ) : (n % 8).testBit 1 = n.testBit 1 := by
  simpa using Nat.testBit_mod_two_pow n 3 1

theorem testBit_div_mod (n : ℕ) : (n / 8 % 8).testBit 1 = n.testBit 4 := by
  rw [testBit_one_mod]
  exact (Nat.testBit_div_two_pow n 1 : (n / 2 ^ 3).testBit 1 = _)

theorem Shows.writes_other {mode : ℕ} (h : Shows mode es) {e : Entry} (he : otherEntry es = some e) :
    writes e.permissions = mode.testBit 1 := by
  rw [writes, ← testBit_one_mod, h.other e he, testBit_one_mod]

/-- Where the group bits do not let write, no entry that is bounded by them does. -/
theorem Shows.not_through {mode : ℕ} (h : Shows mode es) (hmode : mode.testBit 4 = false) {e : Entry}
    (he : e ∈ es ∧ (e.tag = 0x02 ∨ e.tag = 0x08) ∨ groupEntry es = some e) : through es e = false := by
  rw [through, Bool.and_eq_false_iff]
  by_cases hext : extended es = true
  · obtain ⟨m, hm, hbits⟩ := h.bounded hext
    right
    rw [Acl.mask, hm, Option.map_some, Option.getD_some, writes, ← testBit_one_mod, hbits,
      testBit_div_mod, hmode]
  · rw [Bool.not_eq_true] at hext
    rcases he with ⟨hmem, htag⟩ | hgroup
    · have hany : extended es = true :=
        List.any_eq_true.mpr ⟨e, hmem, by rcases htag with h | h <;> simp [h]⟩
      rw [hany] at hext
      cases hext
    · left
      rw [writes, ← testBit_one_mod, h.group hext e hgroup, testBit_div_mod, hmode]

/-! ### New files -/

/-- What an entry of a default list becomes in a file that is created with this mode. -/
def inheritEntry (hasMask : Bool) (mode : ℕ) (e : Entry) : Entry :=
  if e.tag = 0x01 then { e with permissions := e.permissions &&& mode / 64 % 8 }
  else if e.tag = 0x20 then { e with permissions := e.permissions &&& mode % 8 }
  else if e.tag = 0x10 ∨ e.tag = 0x04 ∧ hasMask = false then
    { e with permissions := e.permissions &&& mode / 8 % 8 }
  else e

/-- The list of a file that is created with this mode. -/
def inherit (es : List Entry) (mode : ℕ) : List Entry :=
  es.map (inheritEntry (es.any (·.tag = 0x10)) mode)

/-- The bits of a mode that a list shows. -/
def shown (es : List Entry) (mode : ℕ) : ℕ :=
  let rwx (e : Option Entry) : ℕ := (e.map Entry.permissions).getD 0
  64 * rwx (es.find? (·.tag = 0x01)) +
    8 * rwx ((es.find? (·.tag = 0x10)).or (groupEntry es)) + rwx (otherEntry es) +
    mode / 512 * 512

/-- A file of a user and a group that is created with this mode, in a directory with this default
list. -/
def create (default : Option (List Entry)) (uid gid umask mode : ℕ) : Access :=
  match default with
  | none => ⟨uid, gid, Nat.ldiff mode umask, none⟩
  | some es => ⟨uid, gid, shown (inherit es mode) mode, some (inherit es mode)⟩

section Inherit

variable {b : Bool} {mode : ℕ} {e e' : Entry}

@[simp] theorem tag_inheritEntry : (inheritEntry b mode e).tag = e.tag := by
  unfold inheritEntry
  split_ifs <;> rfl

@[simp] theorem identity_inheritEntry : (inheritEntry b mode e).identity = e.identity := by
  unfold inheritEntry
  split_ifs <;> rfl

theorem writes_of_inheritEntry (h : writes (inheritEntry b mode e).permissions = true) :
    writes e.permissions = true := by
  unfold inheritEntry at h
  split_ifs at h
  · rw [writes, Nat.testBit_and, Bool.and_eq_true] at h
    exact h.1
  · rw [writes, Nat.testBit_and, Bool.and_eq_true] at h
    exact h.1
  · rw [writes, Nat.testBit_and, Bool.and_eq_true] at h
    exact h.1
  · exact h

/-- A mode with all bits takes nothing away. -/
theorem writes_inheritEntry_all :
    writes (inheritEntry b 0o777 e).permissions = writes e.permissions := by
  have hall : (7 : ℕ).testBit 1 = true := rfl
  unfold inheritEntry
  split_ifs <;> simp [writes, hall]

theorem find?_inherit (p : Entry → Bool) (hp : ∀ b mode e, p (inheritEntry b mode e) = p e) :
    (inherit es mode).find? p =
      (es.find? p).map (inheritEntry (es.any (·.tag = 0x10)) mode) := by
  rw [inherit, List.find?_map]
  congr 2
  funext e
  exact hp _ _ e

theorem userEntry_inherit : userEntry (inherit es mode) u =
    (userEntry es u).map (inheritEntry (es.any (·.tag = 0x10)) mode) :=
  find?_inherit _ fun b mode e => by simp

theorem groupEntry_inherit : groupEntry (inherit es mode) =
    (groupEntry es).map (inheritEntry (es.any (·.tag = 0x10)) mode) :=
  find?_inherit _ fun b mode e => by simp

theorem otherEntry_inherit : otherEntry (inherit es mode) =
    (otherEntry es).map (inheritEntry (es.any (·.tag = 0x10)) mode) :=
  find?_inherit _ fun b mode e => by simp

theorem writes_mask_inherit (h : writes (mask (inherit es mode)) = true) :
    writes (mask es) = true := by
  rw [mask, find?_inherit _ fun b mode e => by simp] at h
  rw [mask]
  cases hmask : es.find? (·.tag = 0x10) with
  | none => rfl
  | some e =>
    rw [hmask] at h
    exact writes_of_inheritEntry h

theorem writes_mask_inherit_all : writes (mask (inherit es 0o777)) = writes (mask es) := by
  rw [mask, mask, find?_inherit _ fun b mode e => by simp]
  cases es.find? (·.tag = 0x10) with
  | none => rfl
  | some e => exact writes_inheritEntry_all

theorem through_of_inherit (h : through (inherit es mode) (inheritEntry b mode e) = true) :
    through es e = true := by
  rw [through, Bool.and_eq_true] at h ⊢
  exact ⟨writes_of_inheritEntry h.1, writes_mask_inherit h.2⟩

theorem through_inherit_all : through (inherit es 0o777) (inheritEntry b 0o777 e) = through es e := by
  rw [through, through, writes_inheritEntry_all, writes_mask_inherit_all]

variable {uid gid umask : ℕ}

/-- The groups that the entries let write, with this owning group. -/
def grantsOf (gid : ℕ) (es : List Entry) : List ℕ := Access.grants ⟨0, gid, 0, some es⟩

theorem mem_grantsOf_iff {g : ℕ} :
    g ∈ grantsOf gid es ↔ (∃ e, groupEntry es = some e ∧ through es e = true ∧ gid = g) ∨
      ∃ e ∈ es, e.tag = 0x08 ∧ through es e = true ∧ e.identity = g :=
  mem_grants_iff rfl

theorem grants_eq_grantsOf (hacl : a.acl = some es) : a.grants = grantsOf a.gid es := by
  rw [grantsOf, Access.grants, Access.grants, hacl]

/-- The mode of a new file can only take groups away. -/
theorem mem_grantsOf_of_inherit {g : ℕ} (h : g ∈ grantsOf gid (inherit es mode)) :
    g ∈ grantsOf gid es := by
  rw [mem_grantsOf_iff] at h ⊢
  rcases h with ⟨e, hentry, hthrough, rfl⟩ | ⟨e, hmem, htag, hthrough, rfl⟩
  · rw [groupEntry_inherit] at hentry
    obtain ⟨e₀, hentry₀, rfl⟩ := Option.map_eq_some_iff.mp hentry
    exact .inl ⟨e₀, hentry₀, through_of_inherit hthrough, rfl⟩
  · obtain ⟨e₀, hmem₀, rfl⟩ := List.mem_map.mp hmem
    rw [tag_inheritEntry] at htag
    exact .inr ⟨e₀, hmem₀, htag, through_of_inherit hthrough, identity_inheritEntry.symm⟩

theorem mem_grantsOf_inherit_all {g : ℕ} (h : g ∈ grantsOf gid es) :
    g ∈ grantsOf gid (inherit es 0o777) := by
  rw [mem_grantsOf_iff] at h ⊢
  rcases h with ⟨e, hentry, hthrough, rfl⟩ | ⟨e, hmem, htag, hthrough, rfl⟩
  · left
    refine ⟨_, by rw [groupEntry_inherit, hentry, Option.map_some], ?_, rfl⟩
    rw [through_inherit_all]
    exact hthrough
  · right
    refine ⟨_, List.mem_map.mpr ⟨e, hmem, rfl⟩, ?_, ?_, identity_inheritEntry⟩
    · rw [tag_inheritEntry]
      exact htag
    · rw [through_inherit_all]
      exact hthrough

/-- Without a default list the umask decides. -/
theorem grants_create_none (hmask : umask.testBit 4 = true) :
    (create none uid gid umask mode).grants = [] := by
  rw [create, Access.grants]
  simp [Nat.testBit_ldiff, hmask]

end Inherit

end Acl

end DeltaBox
