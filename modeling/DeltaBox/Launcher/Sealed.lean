import DeltaBox.Launcher.Trust

/-!
# An accepted inode is sealed

An inode that `require_trusted_owned` accepts lets nobody write who is not trusted, and in a
directory the same holds for new files, as far as the groups that let write have only those members
that the check sees. It does not see all of them in two cases.

The default list of a directory is checked with the group of the directory in the place of the
owning group. A new file has that group only if the directory passes it on. Without the setgid bit
it is a group of the process, and those who belong to that one were not looked at.

A group is looked up by its number, and a member by its name. Where a second line of the database
has the same number or name, the lookups report what the first one says.

## Main results

* `accepted_sealed_iff` — an accepted inode is sealed exactly if no group lets an untrusted user
  write behind the back of the check, also not as the group of a new file
* `other_group_writes` — both cases
-/

namespace DeltaBox

namespace Launcher

open Acl

variable {db : Database} {path : String} {info : Inode} {trust : Option RuntimeTrust}
  {sticky : Bool} {a : Access} {es : List Entry} {e : Entry} {g u : ℕ}

/-! ### Checks that pass -/

theorem bind_eq_ok {α β : Type} {x : Except Error α} {f : α → Except Error β} {b : β} :
    (x >>= f) = .ok b ↔ ∃ y, x = .ok y ∧ f y = .ok b := by
  rcases x with err | y
  · simp [bind, Except.bind]
  · simp [bind, Except.bind]

theorem throw_ne_ok {α : Type} {err : Error} {b : α} :
    (throw err : Except Error α) ≠ .ok b := by
  simp [throw, throwThe, MonadExceptOf.throw]

/-- A check that passes, and what comes behind it. -/
theorem check_eq_ok {x : Except Error Bool} {err : Error} {f : Bool → Except Error Unit}
    (hraise : f true = throw err) : (x >>= f) = .ok () ↔ x = .ok false ∧ f false = .ok () := by
  rw [bind_eq_ok]
  constructor
  · rintro ⟨y, hx, hy⟩
    cases y with
    | true => exact absurd (hraise.symm.trans hy) throw_ne_ok
    | false => exact ⟨hx, hy⟩
  · rintro ⟨hx, hf⟩
    exact ⟨false, hx, hf⟩

/-- Whoever a group is reported to have is trusted. -/
theorem mem_owners_of_groupUntrusted (h : groupUntrusted db trust g = .ok false)
    (hu : Reported db g u) : u ∈ owners trust := by
  obtain ⟨us, hus, hmem⟩ := hu
  rcases trust with _ | t
  · cases h
  · simp only [groupUntrusted, groupWritersTrusted, bind_assoc] at h
    obtain ⟨us', hus', hall⟩ := bind_eq_ok.mp h
    obtain rfl := Except.ok.inj (hus.symm.trans hus')
    simp only [pure_bind] at hall
    have htrusted : (us.all fun x => t.uids.contains x) = true := by
      simpa [pure, Except.pure] using hall
    simpa [owners] using List.all_eq_true.mp htrusted u hmem

/-- What an entry that is not objected to says. -/
structure EntryOk (db : Database) (gid : ℕ) (trust : Option RuntimeTrust) (es : List Entry)
    (e : Entry) : Prop where
  other : e.tag = 0x20 → writes e.permissions = false
  user : e.tag = 0x02 → through es e = true → e.identity ∈ owners trust
  owningGroup : e.tag = 0x04 → through es e = true → ∀ u, Reported db gid u → u ∈ owners trust
  group : e.tag = 0x08 → through es e = true → ∀ u, Reported db e.identity u → u ∈ owners trust

theorem entryOk_of_untrusted {gid : ℕ} (h : entryUntrusted db gid trust es e = .ok false) :
    EntryOk db gid trust es e := by
  rw [entryUntrusted] at h
  by_cases hother : e.tag = 0x20 ∧ writes e.permissions = true
  · rw [if_pos hother] at h
    cases h
  rw [if_neg hother] at h
  have hquiet : e.tag = 0x20 → writes e.permissions = false :=
    fun ht => Bool.eq_false_iff.mpr fun hw => hother ⟨ht, hw⟩
  by_cases hthrough : through es e = true
  · rw [if_pos hthrough] at h
    by_cases huser : e.tag = 0x02 ∧ e.identity ∉ owners trust
    · rw [if_pos huser] at h
      cases h
    rw [if_neg huser] at h
    refine ⟨hquiet, fun ht _ => not_not.mp fun hid => huser ⟨ht, hid⟩, fun ht _ u hu => ?_,
      fun ht _ u hu => ?_⟩
    · rw [if_pos ht] at h
      exact mem_owners_of_groupUntrusted h hu
    · rw [if_neg (by rw [ht]; decide), if_pos ht] at h
      exact mem_owners_of_groupUntrusted h hu
  · exact ⟨hquiet, fun _ h => absurd h hthrough, fun _ h => absurd h hthrough,
      fun _ h => absurd h hthrough⟩

theorem checkEntry_ok {gid : ℕ} (h : checkEntry db path gid trust es e = .ok ()) :
    EntryOk db gid trust es e := by
  rw [checkEntry] at h
  split_ifs at h
  exact entryOk_of_untrusted ((check_eq_ok rfl).mp h).1

theorem forM_ok {f : Entry → Except Error Unit} : ∀ {es : List Entry}, es.forM f = .ok () →
    ∀ e ∈ es, f e = .ok ()
  | [], _, _, he => by cases he
  | d :: es, h, e, he => by
    obtain ⟨_, hd, hes⟩ := bind_eq_ok.mp (show (f d >>= fun _ => es.forM f) = .ok () from h)
    rcases List.mem_cons.mp he with rfl | he
    · exact hd
    · exact forM_ok hes e he

/-- An attribute that passes is not there, or all of its entries are in order. -/
theorem checkWriteAcl_ok {default : Bool} (h : checkWriteAcl db path info trust default = .ok ())
    {bytes : List UInt8} (hvalue : (if default then info.defaultAcl else info.accessAcl).value = some bytes) :
    ∃ es, parse bytes = some es ∧ ∀ e ∈ es, EntryOk db info.gid trust es e := by
  rw [checkWriteAcl] at h
  generalize (if default then info.defaultAcl else info.accessAcl) = acl at h hvalue
  simp only [hvalue] at h
  split_ifs at h
  rcases hparse : parse bytes with _ | es
  · rw [hparse] at h
    exact absurd h throw_ne_ok
  · rw [hparse] at h
    exact ⟨es, rfl, fun e he => checkEntry_ok (forM_ok h e he)⟩

/-- What is known of an inode that is accepted. -/
structure Accepted (db : Database) (info : Inode) (trust : Option RuntimeTrust) : Prop where
  owner : info.uid ∈ owners trust
  other : info.mode.testBit 1 = false
  group : info.mode.testBit 4 = true → ∀ u, Reported db info.gid u → u ∈ owners trust
  access : info.mode.testBit 4 = true → ∀ es, info.accessAcl.value.bind parse = some es →
    ∀ e ∈ es, EntryOk db info.gid trust es e
  default : info.kind = .directory → ∀ es, info.defaultAcl.value.bind parse = some es →
    ∀ e ∈ es, EntryOk db info.gid trust es e

theorem modeUntrusted_ok (h : modeUntrusted db info trust = .ok false) :
    info.mode.testBit 1 = false ∧
      (info.mode.testBit 4 = true → groupUntrusted db trust info.gid = .ok false) := by
  rw [modeUntrusted] at h
  split_ifs at h with hother hgroup
  · cases h
  · exact ⟨Bool.eq_false_iff.mpr hother, fun _ => h⟩
  · exact ⟨Bool.eq_false_iff.mpr hother, fun hg => absurd hg hgroup⟩

theorem accepted (h : requireTrustedOwned db path info trust sticky = .ok ())
    (hkind : info.kind ≠ .symlink) (hsticky : protectedSticky info sticky = false) :
    Accepted db info trust := by
  simp only [requireTrustedOwned, hsticky, Bool.false_eq_true, if_false, if_neg hkind] at h
  split_ifs at h with howner htype
  obtain ⟨hmode, hacls⟩ := (check_eq_ok rfl).mp h
  obtain ⟨hother, hgroup⟩ := modeUntrusted_ok hmode
  obtain ⟨_, haccess, hdefault⟩ := bind_eq_ok.mp hacls
  refine ⟨howner, hother, fun hbit u hu => mem_owners_of_groupUntrusted (hgroup hbit) hu,
    fun hbit es hes => ?_, fun hdir es hes => ?_⟩
  · obtain ⟨bytes, hvalue, hparse⟩ := Option.bind_eq_some_iff.mp hes
    have htrust : trust ≠ none := by
      rintro rfl
      cases hgroup hbit
    rw [if_pos ⟨hbit, htrust⟩] at haccess
    obtain ⟨es', hparse', hok⟩ := checkWriteAcl_ok haccess hvalue
    obtain rfl := Option.some.inj (hparse.symm.trans hparse')
    exact hok
  · obtain ⟨bytes, hvalue, hparse⟩ := Option.bind_eq_some_iff.mp hes
    rw [if_pos hdir] at hdefault
    obtain ⟨es', hparse', hok⟩ := checkWriteAcl_ok hdefault hvalue
    obtain rfl := Option.some.inj (hparse.symm.trans hparse')
    exact hok

/-! ### Only the groups are left -/

theorem mem_of_userEntry (h : userEntry es u = some e) : e ∈ es ∧ e.tag = 0x02 ∧ e.identity = u := by
  have htest := List.find?_some h
  simp only [decide_eq_true_eq] at htest
  exact ⟨List.mem_of_find?_eq_some h, htest⟩

theorem mem_of_groupEntry (h : groupEntry es = some e) : e ∈ es ∧ e.tag = 0x04 :=
  ⟨List.mem_of_find?_eq_some h, by simpa using List.find?_some h⟩

theorem mem_of_otherEntry (h : otherEntry es = some e) : e ∈ es ∧ e.tag = 0x20 :=
  ⟨List.mem_of_find?_eq_some h, by simpa using List.find?_some h⟩

theorem Accepted.quiet (h : Accepted db info trust) (hu : u ∉ owners trust) :
    info.access.Quiet u where
  owner := by
    rintro rfl
    exact hu h.owner
  user es hes e he := by
    obtain ⟨hmem, htag, rfl⟩ := mem_of_userEntry he
    by_cases hbit : info.mode.testBit 4 = true
    · exact Bool.eq_false_iff.mpr fun hthrough => hu ((h.access hbit es hes e hmem).user htag hthrough)
    · exact (info.shows es hes).not_through (Bool.eq_false_iff.mpr hbit) (.inl ⟨hmem, .inl htag⟩)
  other es hes e he := by
    rw [(info.shows es hes).writes_other he]
    exact h.other
  bits _ := h.other

/-- A group that lets write has been looked at. -/
theorem Accepted.trusted (h : Accepted db info trust) (hg : g ∈ info.access.grants)
    (hu : Reported db g u) : u ∈ owners trust := by
  rcases hacl : info.accessAcl.value.bind parse with _ | es
  · rw [Access.grants, Inode.access, hacl] at hg
    simp only [List.mem_ite_nil_right, List.mem_singleton] at hg
    obtain ⟨hbit, rfl⟩ := hg
    exact h.group hbit u hu
  · have hshows := info.shows es hacl
    rcases (mem_grants_iff (a := info.access) hacl).mp hg with
      ⟨e, hentry, hthrough, rfl⟩ | ⟨e, hmem, htag, hthrough, rfl⟩
    · by_cases hbit : info.mode.testBit 4 = true
      · obtain ⟨hmem, htag⟩ := mem_of_groupEntry hentry
        exact (h.access hbit es hacl e hmem).owningGroup htag hthrough u hu
      · rw [hshows.not_through (Bool.eq_false_iff.mpr hbit) (.inr hentry)] at hthrough
        cases hthrough
    · by_cases hbit : info.mode.testBit 4 = true
      · exact (h.access hbit es hacl e hmem).group htag hthrough u hu
      · rw [hshows.not_through (Bool.eq_false_iff.mpr hbit) (.inl ⟨hmem, .inr htag⟩)] at hthrough
        cases hthrough

/-- In terms of groups. -/
theorem denies_iff (h : ∀ u ∉ owners trust, a.Quiet u) :
    Denies db trust a ↔ ∀ u ∉ owners trust, a.names u = false → ∀ g ∈ a.grants,
      db.inGroup u g = false := by
  constructor
  · intro hdenies u hu hnames g hg
    by_contra hin
    obtain ⟨groups, hsub, hwrite⟩ := ((h u hu).exists_write_iff (db.inGroup u)).mpr
      ⟨hnames, g, hg, by simpa using hin⟩
    rw [hdenies u hu groups hsub] at hwrite
    cases hwrite
  · intro hgroups u hu groups hsub
    by_contra hwrite
    obtain ⟨hnames, g, hg, hin⟩ := ((h u hu).exists_write_iff (db.inGroup u)).mp
      ⟨groups, hsub, by simpa using hwrite⟩
    rw [hgroups u hu hnames g hg] at hin
    cases hin

/-- If those are trusted that the lookups report, then it is what they do not report. -/
theorem complete_iff {looked : List ℕ} (h : ∀ g ∈ looked, ∀ u, Reported db g u → u ∈ owners trust) :
    Complete db trust a looked ↔ ∀ u ∉ owners trust, a.names u = false → ∀ g ∈ a.grants,
      db.inGroup u g = false := by
  constructor
  · intro hcomplete u hu hnames g hg
    by_contra hin
    obtain ⟨hlooked, hreported⟩ := hcomplete u hu hnames g hg (by simpa using hin)
    exact hu (h g hlooked u hreported)
  · intro hnone u hu hnames g hg hin
    rw [hnone u hu hnames g hg] at hin
    cases hin

/-! ### New files -/

section NewFiles

variable {c umask mode gid : ℕ}

/-- The entries of a default list are in order. -/
abbrev AllOk (db : Database) (gid : ℕ) (trust : Option RuntimeTrust) (es : List Entry) : Prop :=
  ∀ e ∈ es, EntryOk db gid trust es e

theorem AllOk.trusted (h : AllOk db gid trust es) (hg : g ∈ grantsOf gid es)
    (hu : Reported db g u) : u ∈ owners trust := by
  rcases mem_grantsOf_iff.mp hg with ⟨e, hentry, hthrough, rfl⟩ | ⟨e, hmem, htag, hthrough, rfl⟩
  · obtain ⟨hmem, htag⟩ := mem_of_groupEntry hentry
    exact (h e hmem).owningGroup htag hthrough u hu
  · exact (h e hmem).group htag hthrough u hu

theorem AllOk.quiet (h : AllOk db gid trust es) (hc : c ∈ owners trust) (hu : u ∉ owners trust)
    {group : ℕ} : (create (some es) c group umask mode).Quiet u where
  owner := by
    rintro rfl
    exact hu hc
  user es' hes' e he := by
    obtain rfl := Option.some.inj hes'
    rw [userEntry_inherit] at he
    obtain ⟨e₀, he₀, rfl⟩ := Option.map_eq_some_iff.mp he
    obtain ⟨hmem, htag, rfl⟩ := mem_of_userEntry he₀
    exact Bool.eq_false_iff.mpr fun hthrough =>
      hu ((h e₀ hmem).user htag (through_of_inherit hthrough))
  other es' hes' e he := by
    obtain rfl := Option.some.inj hes'
    rw [otherEntry_inherit] at he
    obtain ⟨e₀, he₀, rfl⟩ := Option.map_eq_some_iff.mp he
    obtain ⟨hmem, htag⟩ := mem_of_otherEntry he₀
    exact Bool.eq_false_iff.mpr fun hwrites =>
      Bool.eq_false_iff.mp ((h e₀ hmem).other htag) (writes_of_inheritEntry hwrites)
  bits hnone := by cases hnone

theorem names_create : (create (some es) c g umask mode).names u = (userEntry es u).isSome := by
  rw [Access.names, create, Option.any_some, userEntry_inherit, Option.isSome_map]

/-- For all modes at once: a mode with all bits gives a new file all that its list lets write. -/
theorem denies_create_iff (h : AllOk db gid trust es) (hc : c ∈ owners trust) {group : ℕ} :
    (∀ umask mode : ℕ, umask.testBit 4 = true → umask.testBit 1 = true →
      Denies db trust (create (some es) c group umask mode)) ↔
    Complete db trust ⟨c, group, 0, some es⟩ (grantsOf gid es) := by
  rw [complete_iff fun g hg u hu => h.trusted hg hu]
  constructor
  · intro hdenies u hu hnames g hg
    have hall := hdenies 0o22 0o777 (by decide) (by decide)
    rw [denies_iff fun u hu => h.quiet hc hu] at hall
    refine hall u hu ?_ g ?_
    · rw [names_create]
      exact hnames
    · rw [grants_eq_grantsOf rfl] at hg ⊢
      exact mem_grantsOf_inherit_all hg
  · intro hnone umask mode _ _
    rw [denies_iff fun u hu => h.quiet hc hu]
    intro u hu hnames g hg
    rw [names_create] at hnames
    refine hnone u hu hnames g ?_
    rw [grants_eq_grantsOf rfl] at hg ⊢
    exact mem_grantsOf_of_inherit hg

/-- Without a default list the umask denies. -/
theorem denies_create_none (hc : c ∈ owners trust) (hgroup : umask.testBit 4 = true)
    (hother : umask.testBit 1 = true) : Denies db trust (create none c g umask mode) := by
  have hquiet : ∀ u ∉ owners trust, (create none c g umask mode).Quiet u := by
    intro u hu
    refine ⟨?_, fun es hes => ?_, fun es hes => ?_, fun _ => ?_⟩
    · rintro rfl
      exact hu hc
    · cases hes
    · cases hes
    · simp [create, Nat.testBit_ldiff, hother]
  rw [denies_iff hquiet, grants_create_none hgroup]
  intro u _ _ g hg
  cases hg

end NewFiles

/-- **An accepted inode is sealed** exactly if no group lets an untrusted user write behind the back
of the check. The group of a new file counts among them. -/
theorem accepted_sealed_iff (h : requireTrustedOwned db path info trust sticky = .ok ())
    (hkind : info.kind ≠ .symlink) (hsticky : protectedSticky info sticky = false) :
    Sealed db trust info ↔ Complete db trust info.access info.access.grants ∧
      (info.kind = .directory → NewComplete db trust info) := by
  have hacc := accepted h hkind hsticky
  have hdenies : Denies db trust info.access ↔ Complete db trust info.access info.access.grants := by
    rw [denies_iff fun u hu => hacc.quiet hu, complete_iff fun g hg u hu => hacc.trusted hg hu]
  constructor
  · rintro ⟨hself, hcreated⟩
    refine ⟨hdenies.mp hself, fun hdir es hes c hc g hg => ?_⟩
    refine (denies_create_iff (hacc.default hdir es hes) hc).mp fun umask mode hgroup hother => ?_
    have hnew := hcreated hdir c hc g hg umask mode hgroup hother
    rwa [newFile, hes] at hnew
  · rintro ⟨hself, hnew⟩
    refine ⟨hdenies.mpr hself, fun hdir c hc g hg umask mode hgroup hother => ?_⟩
    rcases hes : info.defaultAcl.value.bind parse with _ | es
    · rw [newFile, hes]
      exact denies_create_none hc hgroup hother
    · rw [newFile, hes]
      exact (denies_create_iff (hacc.default hdir es hes) hc).mpr (hnew hdir es hes c hc g hg) umask
        mode hgroup hother

/-! ### The caller -/

/-- The caller is trusted only as the developer that the policy names, or if it is root. -/
theorem caller_trusted {policy : Policy} {t : RuntimeTrust} {caller : Passwd}
    (h : runtimeTrust db policy = .ok (some t)) (hcaller : getpwnam db policy.allowedUser = .ok caller)
    (hmem : caller.uid ∈ owners (some t)) : caller.uid = 0 ∨ t.developer = some caller.uid := by
  rw [runtimeTrust] at h
  rcases hname : policy.trustedMaintainer with _ | name
  · rw [hname] at h
    dsimp only at h
    split_ifs at h
    cases h
  · rw [hname] at h
    obtain ⟨maintainer, -, h⟩ := bind_eq_ok.mp h
    obtain ⟨allowed, hallowed, h⟩ := bind_eq_ok.mp h
    obtain rfl := Except.ok.inj (hallowed.symm.trans hcaller)
    obtain ⟨developer, -, h⟩ := bind_eq_ok.mp h
    split_ifs at h with hdeveloper hsame
    obtain rfl := Option.some.inj (Except.ok.inj h)
    simp only [owners, RuntimeTrust.uids, List.mem_cons, Option.mem_toList] at hmem
    rcases hmem with hroot | hmaintainer | hdev
    · exact .inl hroot
    · -- the maintainer calls, which is allowed only with a developer, and that is the caller
      rcases developer with _ | user
      · exact absurd ⟨hmaintainer.symm, rfl⟩ hsame
      · simp only [Option.any_some, decide_eq_true_eq, ne_eq, not_not] at hdeveloper
        exact .inr (by rw [Option.map_some, hdeveloper])
    · exact .inr hdev

/-! ### Directories that pass their lists on -/

/-- A list of the owner with `rwx`, of the owning group with `rwx`, and of all others with `r-x`. -/
def groupList : List UInt8 :=
  [2, 0, 0, 0, 1, 0, 7, 0, 255, 255, 255, 255, 4, 0, 7, 0, 255, 255, 255, 255,
    32, 0, 5, 0, 255, 255, 255, 255]

/-- A directory of maintainer 10 and group 50 with this default list. -/
def shared (mode : ℕ) : Inode where
  kind := .directory
  mode := mode
  uid := 10
  gid := 50
  accessAcl := ⟨none, false⟩
  defaultAcl := ⟨some groupList, false⟩
  shows := by simp

/-- The maintainer's own group is 100, like that of the guest 20. It also belongs to group 50. -/
def guests : Database :=
  ⟨[⟨"maintainer", 10, 100⟩, ⟨"guest", 20, 100⟩], [⟨50, ["maintainer"]⟩, ⟨100, []⟩]⟩

/-- With the setgid bit new files have group 50. -/
theorem accepted_sealed_setgid : Sealed guests (some ⟨10, none⟩) (shared 0o2775) := by
  have hgroup : ∀ u ∉ owners (some ⟨10, none⟩), guests.inGroup u 50 = false := by
    intro u hu
    have hten : ¬ u = 10 := fun h => hu (by simp [h, owners, RuntimeTrust.uids])
    simp [Database.inGroup, guests, Ne.symm hten]
  have haccepts : requireTrustedOwned guests "/srv/runtime" (shared 0o2775) (some ⟨10, none⟩) false =
      .ok () := rfl
  refine (accepted_sealed_iff haccepts (by decide) rfl).mpr ⟨?_, ?_⟩
  · intro u hu _ g hg hin
    have hfifty : g = 50 := List.mem_singleton.mp hg
    rw [hfifty, hgroup u hu] at hin
    cases hin
  · intro _ es hes c _ g _ u hu _ f hf hin
    obtain rfl : [⟨1, 7, 4294967295⟩, ⟨4, 7, 4294967295⟩, ⟨32, 5, 4294967295⟩] = es :=
      Option.some.inj hes
    have hfifty : f = 50 := List.mem_singleton.mp hf
    rw [hfifty, hgroup u hu] at hin
    cases hin

/-- A file of root and group 50, with `w` for the group. -/
def groupFile : Inode where
  kind := .regular
  mode := 0o664
  uid := 0
  gid := 50
  accessAcl := ⟨none, false⟩
  defaultAcl := ⟨none, false⟩
  shows := by simp

/-- A second line of group 50, with the guest. -/
def twoLines : Database := ⟨guests.passwd, guests.group ++ [⟨50, ["guest"]⟩]⟩

/-- **The guest can write what was accepted.** The directory does not pass its group on, so that a
file the maintainer creates has group 100, and the list lets that group write. In the other case
group 50 has two lines. -/
theorem other_group_writes :
    (requireTrustedOwned guests "/srv/runtime" (shared 0o775) (some ⟨10, none⟩) false = .ok () ∧
      20 ∉ owners (some ⟨10, none⟩) ∧ guests.inGroup 10 100 = true ∧ guests.inGroup 20 100 = true ∧
      (newFile (shared 0o775) 10 100 0o22 0o666).write 20 (· == 100) = true ∧
      ¬ Sealed guests (some ⟨10, none⟩) (shared 0o775)) ∧
    (requireTrustedOwned twoLines "/srv/config" groupFile (some ⟨10, none⟩) false = .ok () ∧
      twoLines.inGroup 20 50 = true ∧ groupFile.access.write 20 (· == 50) = true) := by
  refine ⟨⟨rfl, by decide, rfl, rfl, rfl, fun hsealed => ?_⟩, rfl, rfl, rfl⟩
  have hdenies := hsealed.created rfl 10 (by decide) 100 rfl 0o22 0o666 (by decide) (by decide) 20
    (by decide) (· == 100) (by simp [Database.inGroup, guests])
  revert hdenies
  decide

end Launcher

end DeltaBox
