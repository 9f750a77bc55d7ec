import DeltaBox.Storage.Latest

/-!
# Replacing the latest results never loses them

Wherever a replacement stops, the old results are complete in one of three places: at their path, in
the retired sibling, or in an archive that is marked as verified or complete. Before they are renamed
they stay as they are.

What stops a run after an interrupted replacement is a pattern. The name of the results stands in it
as it is, so a name with brackets in it may not match itself, and a directory that cannot be listed
matches nothing.

## Main definitions

* `Same` — a complete copy
* `Safe` — the old results are in one of the three places
* `Kept` — all that a call should keep

## Main results

* `backUp_spec`, `replace_spec` — what holds wherever the two parts stop
* `fnmatch_retired` — a name without a bracket matches itself
* `latest_kept` — the results are kept if and only if the pattern sees the retired sibling
* `unseen_sibling` — a name that does not match itself
-/

namespace DeltaBox

namespace Storage

open Faults

/-- What an entry shows: its path, its metadata and its content. -/
def Entry.content (e : Entry) : String × Info × Kind := (e.name, e.info, e.kind)

/-- The first entry of the same inode, for each entry. -/
def Tree.links (tree : Tree) : List (Option String) :=
  tree.map fun e => (tree.find? fun e' => e'.key = e.key).map Entry.name

/-- A complete copy: the same paths, bytes, metadata and links. -/
def Same (tree tree' : Tree) : Prop :=
  tree.map Entry.content = tree'.map Entry.content ∧ tree.links = tree'.links

/-- The copy is in the archive, and the manifest says that it is verified. -/
def Archived (name : String) (prev : Tree) (f : Files) : Prop :=
  ∃ ar tree m, f.archives.find? name = some ar ∧ ar.results = some tree ∧ Same prev tree ∧
    ar.manifest = some m ∧ (m.status = .verified ∨ m.status = .complete)

/-- The name of a retired sibling. -/
def Call.IsRetired (c : Call) (n : String) : Prop := ∃ x, n = "." ++ c.name ++ "-retired-" ++ x

/-- The old results are complete somewhere. -/
def Safe (c : Call) (prev : Tree) (f : Files) : Prop :=
  f.root = some prev ∨ (∃ n, c.IsRetired n ∧ f.siblings.find? n = some prev) ∨
    ∃ name, Archived name prev f

/-- Wherever a call stops, the old results are safe, and before they are renamed they are where they
were. -/
def Held (c : Call) (prev : Tree) (f : Files) : Prop :=
  Safe c prev f ∧ (f.renamed = false → f.root = some prev)

/-- The results have not been touched. -/
def Untouched (prev : Tree) (f : Files) : Prop := f.root = some prev ∧ f.renamed = false

variable {t : Tools} {c : Call} {prev : Tree} {P Q E : Files → Prop} {name : String}

theorem Untouched.held {f : Files} (h : Untouched prev f) : Held c prev f :=
  ⟨.inl h.1, fun _ => h.1⟩

theorem isRetired_retired (c : Call) : c.IsRetired c.retired := ⟨_, rfl⟩

/-! ### The rules -/

/-- A system call that has done nothing when it fails. -/
theorem triple_call {full : Files → Files} (hfull : ∀ f, P f → Q (full f)) (hP : ∀ f, P f → E f)
    (hQ : ∀ f, Q f → E f) : Triple (On P) (call full) (fun _ => On Q) fun _ => On E :=
  triple_sys hfull hP (fun f hf => hQ _ (hfull f hf)) fun f _ hf => hP f hf

theorem triple_pure {α : Type} {a : α} {Q : α → Files → Prop} (h : ∀ f, P f → Q a f) :
    Triple (On P) (pure a : Code α) (fun a => On (Q a)) fun _ => On E :=
  fun w hw => h w.files hw

theorem triple_noSymlinkParents {path : Path} (hE : ∀ f, P f → E f) :
    Triple (On P) (noSymlinkParents c path) (fun _ => On P) fun _ => On E := by
  unfold noSymlinkParents
  refine (triple_probe hE).bind fun _ => ?_
  refine (triple_check' hE).bind fun _ => ?_
  cases (lineage path).find? fun part => part ∈ c.symlinks with
  | none => exact triple_pure fun f hf => hf
  | some part => exact triple_throw hE

theorem triple_requireIdle {references : List String} (hE : ∀ f, P f → E f) :
    Triple (On P) (requireIdle references) (fun _ => On P) fun _ => On E := by
  unfold requireIdle
  refine (triple_probe hE).bind fun _ => ?_
  exact triple_check' hE

theorem triple_inventory {hashes : Bool} {tree : Files → Option Tree} (hE : ∀ f, P f → E f) :
    Triple (On P) (inventory t hashes tree) (fun _ => On P) fun _ => On E := by
  unfold inventory
  refine (triple_probe hE).bind fun _ => ?_
  refine triple_look.bind fun found => ?_
  cases found with
  | none => exact triple_throw fun f hf => hE f hf.1
  | some tree =>
    dsimp only
    cases inventoryFrom t hashes .empty tree with
    | error e => exact triple_throw fun f hf => hE f hf.1
    | ok r => exact triple_pure fun f hf => hf.1

/-! ### Archives -/

theorem archive_find?_self (f : Files) (name : String) (g : Archive → Archive) :
    (f.archive name g).archives.find? name =
      some (g ((f.archives.find? name).getD ⟨none, none, none⟩)) :=
  Dict.find?_set_self ..

/-- The copy is there. -/
def Copied (name : String) (prev : Tree) (f : Files) : Prop :=
  ∃ ar tree, f.archives.find? name = some ar ∧ ar.results = some tree ∧ Same prev tree

theorem Copied.archive {f : Files} (h : Copied name prev f) {g : Archive → Archive}
    (hg : ∀ a, (g a).results = a.results) : Copied name prev (f.archive name g) := by
  obtain ⟨ar, tree, hfind, hresults, hsame⟩ := h
  refine ⟨g ar, tree, ?_, (hg ar).trans hresults, hsame⟩
  rw [archive_find?_self, hfind]
  rfl

/-- **A manifest is written.** What does not read the manifest is kept, and at the end the manifest is
there. -/
theorem triple_durableJson {value : Manifest}
    (hP : ∀ f (g : Archive → Archive), (∀ a, (g a).results = a.results) → P f →
      P (f.archive name g)) (hE : ∀ f, P f → E f) :
    Triple (On P) (durableJson name value)
      (fun _ => On fun f => P f ∧ ∃ ar, f.archives.find? name = some ar ∧ ar.manifest = some value)
      fun _ => On E := by
  unfold durableJson
  have htmp : Triple (On P) (call fun f => f.archive name fun a => { a with tmp := some value })
      (fun _ => On fun f => P f ∧ ∃ ar, f.archives.find? name = some ar ∧ ar.tmp = some value)
      fun _ => On E :=
    triple_call (fun f hf => ⟨hP f _ (fun _ => rfl) hf, _, archive_find?_self .., rfl⟩) hE
      fun f hf => hE f hf.1
  refine htmp.bind fun _ => ?_
  refine Triple.bind (Q := fun _ => On fun f => P f ∧ ∃ ar, f.archives.find? name = some ar ∧
    ar.manifest = some value) ?_ fun _ => ?_
  · refine triple_call (fun f hf => ?_) (fun f hf => hE f hf.1) fun f hf => hE f hf.1
    obtain ⟨hf, ar, hfind, htmp⟩ := hf
    refine ⟨hP f (fun a => { a with tmp := none, manifest := a.tmp }) (fun _ => rfl) hf, _,
      archive_find?_self .., ?_⟩
    rw [hfind]
    exact htmp
  · exact triple_probe fun f hf => hE f hf.1

theorem triple_durableJson' {value : Manifest}
    (hP : ∀ f (g : Archive → Archive), (∀ a, (g a).results = a.results) → P f →
      P (f.archive name g)) (hE : ∀ f, P f → E f) :
    Triple (On P) (durableJson name value) (fun _ => On P) fun _ => On E :=
  (triple_durableJson hP hE).mono (fun _ h => h) (fun _ _ h => h.1) fun _ _ h => h

/-! ### The backup -/

/-- The copy, up to the manifest that calls it verified. -/
theorem copyAndVerify_spec {record : Manifest} (hcp : ∀ tree, Same tree (t.cp tree)) :
    Triple (On (Untouched prev)) (copyAndVerify t c record)
      (fun _ => On fun f => Untouched prev f ∧ Archived c.archiveName prev f)
      fun _ => On (Untouched prev) := by
  have hboth : ∀ f, (Untouched prev f ∧ Copied c.archiveName prev f) → Untouched prev f :=
    fun f h => h.1
  unfold copyAndVerify
  refine Triple.bind (Q := fun _ => On fun f => Untouched prev f ∧ Copied c.archiveName prev f)
    ?_ fun _ => ?_
  · refine triple_sys (fun f hf => ⟨hf, ?_⟩) (fun _ h => h) (fun _ h => h) fun _ _ h => h
    refine ⟨_, t.cp prev, archive_find?_self .., ?_, hcp prev⟩
    rw [hf.1]
    rfl
  refine (triple_probe hboth).bind fun _ => ?_
  refine (triple_check' hboth).bind fun _ => ?_
  refine (triple_inventory hboth).bind fun copied => ?_
  refine (triple_inventory hboth).bind fun unchanged => ?_
  refine (triple_check' hboth).bind fun _ => ?_
  refine (triple_probe hboth).bind fun _ => ?_
  refine (triple_requireIdle hboth).bind fun _ => ?_
  refine (triple_durableJson (fun f g hg h => ⟨h.1, h.2.archive hg⟩) hboth).mono
    (fun _ h => h) (fun _ w h => ?_) fun _ _ h => h
  obtain ⟨⟨huntouched, ar, tree, hfind, hresults, hsame⟩, ar', hfind', hmanifest⟩ := h
  obtain rfl := Option.some.inj (hfind.symm.trans hfind')
  exact ⟨huntouched, ar, tree, _, hfind, hresults, hsame, hmanifest, .inl rfl⟩

/-- **The backup leaves the results alone.** When it returns, the archive has a complete copy and a
manifest that says so. -/
theorem backUp_spec (hcp : ∀ tree, Same tree (t.cp tree)) :
    Triple (On (Untouched prev)) (backUp t c)
      (fun _ => On fun f => Untouched prev f ∧ Archived c.archiveName prev f)
      fun _ => On (Untouched prev) := by
  have hid : ∀ f, Untouched prev f → Untouched prev f := fun _ h => h
  have harchive : ∀ f (g : Archive → Archive), (∀ a, (g a).results = a.results) →
      Untouched prev f → Untouched prev (f.archive c.archiveName g) := fun f g _ h => h
  unfold backUp
  refine (triple_inventory hid).bind fun metadata => ?_
  refine Triple.bind (Q := fun _ => On (Untouched prev)) ?_ fun _ => ?_
  · exact triple_call (fun _ h => h) hid hid
  refine (triple_probe hid).bind fun _ => ?_
  refine (triple_check' hid).bind fun _ => ?_
  refine (triple_inventory hid).bind fun original => ?_
  refine (triple_check' hid).bind fun _ => ?_
  refine triple_look.bind fun archives => Triple.pre (P := On (Untouched prev)) (fun w h => h.1) ?_
  refine (triple_check' hid).bind fun _ => ?_
  refine Triple.bind (Q := fun _ => On (Untouched prev)) ?_ fun _ => ?_
  · exact triple_call (fun _ h => h) hid hid
  refine (triple_durableJson' harchive hid).bind fun _ => ?_
  refine Triple.bind (triple_handle (copyAndVerify_spec hcp)
    (fun e => triple_durableJson' harchive hid) hid) fun _ => ?_
  exact triple_pure fun f hf => hf

/-! ### The replacement -/

/-- The results are in the retired sibling, and their copy in the archive. -/
def Retired (c : Call) (prev : Tree) (f : Files) : Prop :=
  f.siblings.find? c.retired = some prev ∧ f.renamed = true ∧ Archived c.archiveName prev f

theorem Retired.held {f : Files} (h : Retired c prev f) : Held c prev f :=
  ⟨.inr (.inl ⟨c.retired, isRetired_retired c, h.1⟩), fun hrenamed => by
    cases h.2.1.symm.trans hrenamed⟩

theorem triple_retiredInfo : Triple (On (Retired c prev)) (retiredInfo c)
    (fun _ => On (Retired c prev)) fun _ => On (Retired c prev) := by
  unfold retiredInfo
  refine (triple_probe fun _ h => h).bind fun _ => ?_
  refine triple_look.bind fun tree => ?_
  cases tree.bind Tree.info with
  | none => exact triple_throw fun f hf => hf.1
  | some info => exact triple_pure fun f hf => hf.1

/-- A change at the path of the results does not matter any more. -/
theorem triple_call_retired {full : Files → Files}
    (hfull : ∀ f, Retired c prev f → Retired c prev (full f)) :
    Triple (On (Retired c prev)) (call full) (fun _ => On (Retired c prev))
      fun _ => On (Retired c prev) :=
  triple_call hfull (fun _ h => h) fun _ h => h

/-- The new directory. -/
theorem recreate_spec : Triple (On (Retired c prev)) (recreate c)
    (fun _ => On (Retired c prev)) fun _ => On (Retired c prev) := by
  unfold recreate setInfo
  refine triple_retiredInfo.bind fun info => ?_
  refine Triple.bind (Q := fun _ => On (Retired c prev)) (triple_call_retired ?_) fun _ => ?_
  · exact fun _ h => h
  refine Triple.bind (Q := fun _ => On (Retired c prev)) (Triple.onlyIf (fun _ => ?_) fun w h _ => h)
    fun _ => ?_
  · refine triple_retiredInfo.bind fun info => ?_
    exact triple_call_retired fun _ h => h
  · refine triple_retiredInfo.bind fun info => ?_
    refine Triple.bind (Q := fun _ => On (Retired c prev)) (triple_call_retired ?_) fun _ => ?_
    · exact fun _ h => h
    exact triple_probe fun _ h => h

/-- The way back. The results are in the sibling until they are at their path again. -/
theorem restore_spec : Triple (On (Retired c prev)) (restore c) (fun _ => On (Held c prev))
    fun _ => On (Held c prev) := by
  have hlast : Triple (On (Retired c prev)) (call fun f =>
      { f with root := f.siblings.find? c.retired, siblings := f.siblings.erase c.retired })
      (fun _ => On (Held c prev)) fun _ => On (Held c prev) :=
    triple_call (fun f hf => ⟨.inl hf.1, fun _ => hf.1⟩) (fun f hf => hf.held) fun _ h => h
  unfold restore
  refine triple_look.bind fun found => ?_
  cases found with
  | none => exact hlast.pre fun w hw => hw.1
  | some tree =>
    dsimp only
    refine (triple_check' fun f hf => hf.1.held).bind fun _ => ?_
    refine Triple.bind (Q := fun _ => On (Retired c prev)) ?_ fun _ => hlast
    exact triple_call (fun f hf => hf.1) (fun f hf => hf.1.held) fun f hf => hf.held

theorem Archived.held {f : Files} (h : Archived name prev f) (hrenamed : f.renamed = true) :
    Held c prev f :=
  ⟨.inr (.inr ⟨name, h⟩), fun hnot => by cases hrenamed.symm.trans hnot⟩

/-- **The replacement keeps the results safe.** -/
theorem replace_spec {record : Manifest} :
    Triple (On fun f => Untouched prev f ∧ Archived c.archiveName prev f) (replace c record)
      (fun _ => On (Held c prev)) fun _ => On (Held c prev) := by
  unfold replace
  refine triple_look.bind fun found => ?_
  refine (triple_check' fun f hf => hf.1.1.held).bind fun _ => ?_
  refine Triple.bind (Q := fun _ => On (Retired c prev)) ?_ fun _ => ?_
  · refine triple_call (fun f hf => ?_) (fun f hf => hf.1.1.held) fun f hf => hf.held
    obtain ⟨⟨huntouched, harchived⟩, -⟩ := hf
    refine ⟨?_, rfl, harchived⟩
    dsimp only
    rw [huntouched.1]
    exact Dict.find?_set_self ..
  refine Triple.bind (Q := fun _ => On (Retired c prev))
    (triple_handle recreate_spec (fun e => restore_spec) fun f hf => hf.held) fun _ => ?_
  -- from here on the results are in the archive
  have hheld : ∀ f, (f.renamed = true ∧ Archived c.archiveName prev f) → Held c prev f :=
    fun f hf => hf.2.held hf.1
  refine Triple.bind (Q := fun _ => On fun f => f.renamed = true ∧ Archived c.archiveName prev f)
    ?_ fun _ => ?_
  · refine triple_sys (fun f hf => hf.2) (fun f hf => hf.held) (fun f hf => ?_)
      fun f left hf => ?_
    · exact Archived.held (f := { f with siblings := _ }) hf.2.2 hf.2.1
    · exact Archived.held (f := { f with siblings := _ }) hf.2.2 hf.2.1
  refine (triple_probe hheld).bind fun _ => ?_
  unfold durableJson
  have htmp : ∀ (f : Files) (value : Manifest), f.renamed = true ∧ Archived c.archiveName prev f →
      (f.archive c.archiveName fun a => { a with tmp := some value }).renamed = true ∧
        Archived c.archiveName prev
          (f.archive c.archiveName fun a => { a with tmp := some value }) := by
    rintro f value ⟨hrenamed, ar, tree, m, hfind, hresults, hsame, hmanifest, hstatus⟩
    refine ⟨hrenamed, _, tree, m, archive_find?_self .., ?_⟩
    rw [hfind]
    exact ⟨hresults, hsame, hmanifest, hstatus⟩
  refine Triple.bind (Q := fun _ => On fun f => (f.renamed = true ∧ Archived c.archiveName prev f) ∧
    ∃ ar, f.archives.find? c.archiveName = some ar ∧
      ar.tmp = some { record with status := .complete }) ?_ fun _ => ?_
  · exact triple_call (fun f hf => ⟨htmp f _ hf, _, archive_find?_self .., rfl⟩) hheld
      fun f hf => hheld f hf.1
  refine Triple.bind (Q := fun _ => On fun f => f.renamed = true ∧ Archived c.archiveName prev f)
    ?_ fun _ => (triple_probe hheld).mono (fun _ h => h) (fun _ w h => hheld _ h) fun _ _ h => h
  refine triple_call (fun f hf => ?_) (fun f hf => hheld f hf.1) hheld
  obtain ⟨⟨hrenamed, ar, tree, m, hfind, hresults, hsame, -, -⟩, ar', hfind', htmp⟩ := hf
  obtain rfl := Option.some.inj (hfind.symm.trans hfind')
  refine ⟨hrenamed, _, tree, { record with status := .complete }, archive_find?_self .., ?_⟩
  rw [hfind]
  exact ⟨hresults, hsame, htmp, .inr rfl⟩

/-! ### The check for an interrupted replacement -/

/-- The retired siblings that the pattern sees. -/
def Call.seen (c : Call) (f : Files) : List String :=
  if f.listable then
    (f.siblings.keys ++ if f.root.isSome then [c.name] else []).filter
      fun n => Posix.fnmatch n c.pattern
  else []

/-- **The check changes nothing.** It passes only if nothing is seen. -/
theorem precheck_spec : Triple (On P) (precheck c) (fun _ => On fun f => P f ∧ c.seen f = [])
    fun _ => On P := by
  have hid : ∀ f, P f → P f := fun _ h => h
  unfold precheck
  refine (triple_noSymlinkParents hid).bind fun _ => ?_
  refine (triple_noSymlinkParents hid).bind fun _ => ?_
  refine (triple_check' hid).bind fun _ => ?_
  refine Triple.bind (Q := fun retired => On fun f => P f ∧ retired = c.seen f) ?_ fun retired => ?_
  · unfold glob
    exact (triple_probe hid).bind fun _ => triple_look
  · refine (triple_check fun f hf => hf.1).mono (fun _ h => h) (fun _ w h => ?_) fun _ _ h => h
    exact ⟨h.1.1, h.1.2.symm.trans (of_decide_eq_true h.2)⟩

/-- The paths are accepted. -/
def Call.Accepted (c : Call) : Prop :=
  (∀ path ∈ [c.root, c.backupRoot], ".." ∉ path ∧ ∀ part ∈ lineage path, part ∉ c.symlinks) ∧
    c.separate = true

theorem noSymlinkParents_passes {path : Path} (hparts : ".." ∉ path)
    (hlinks : ∀ part ∈ lineage path, part ∉ c.symlinks) (f : Files) :
    noSymlinkParents c path ⟨f, []⟩ = (.ok (), ⟨f, []⟩) := by
  have hnone : (lineage path).find? (fun part => decide (part ∈ c.symlinks)) = none := by
    simpa using hlinks
  unfold noSymlinkParents
  rw [hnone, check, Prog.require, if_pos (by simpa using hparts)]
  rfl

/-- Without a fault, the check passes when nothing is seen. -/
theorem precheck_passes (h : c.Accepted) {f : Files} (hseen : c.seen f = []) :
    precheck c ⟨f, []⟩ = (.ok (), ⟨f, []⟩) := by
  obtain ⟨hpaths, hseparate⟩ := h
  obtain ⟨hroot, hbackup⟩ := List.forall_mem_cons.mp hpaths
  obtain ⟨hbackup, -⟩ := List.forall_mem_cons.mp hbackup
  have hglob : glob c ⟨f, []⟩ = (.ok [], ⟨f, []⟩) := by
    rw [← hseen]
    rfl
  have hcheck : (check c.separate
      (.valueError "Backup and working results must be separate directories") : Code Unit) ⟨f, []⟩ =
        (.ok (), ⟨f, []⟩) := by
    rw [hseparate]
    rfl
  unfold precheck
  rw [Prog.bind_of_ok (noSymlinkParents_passes hroot.1 hroot.2 f),
    Prog.bind_of_ok (noSymlinkParents_passes hbackup.1 hbackup.2 f), Prog.bind_of_ok hcheck,
    Prog.bind_of_ok hglob]
  rfl

/-! ### The result -/

/-- **Wherever a call stops, the results are safe.** -/
theorem prepareLatest_held (hcp : ∀ tree, Same tree (t.cp tree)) :
    Triple (On (Untouched prev)) (prepareLatest t c) (fun _ => On (Held c prev))
      fun _ => On (Held c prev) := by
  have hheld : ∀ f, Untouched prev f → Held c prev f := fun _ h => h.held
  unfold prepareLatest
  refine Triple.bind (precheck_spec.mono (fun _ h => h) (fun _ _ h => h.1) fun _ w h => hheld _ h)
    fun _ => ?_
  refine (triple_probe hheld).bind fun _ => ?_
  refine triple_look.bind fun found => ?_
  cases found with
  | none =>
    refine Triple.absurd fun w hw => ?_
    cases hw.1.1.symm.trans hw.2.symm
  | some tree =>
    refine Triple.pre (P := On (Untouched prev)) (fun w hw => hw.1) ?_
    dsimp only
    refine (triple_check' hheld).bind fun _ => ?_
    refine (triple_requireIdle hheld).bind fun _ => ?_
    by_cases hempty : tree.length ≤ 1
    · rw [if_pos hempty]
      exact triple_pure hheld
    · rw [if_neg hempty]
      refine Triple.bind ((backUp_spec hcp).mono (fun _ h => h) (fun _ _ h => h)
        fun _ w h => hheld _ h) fun record => ?_
      refine replace_spec.bind fun _ => ?_
      exact triple_pure fun f hf => hf

/-- When there are no results, there is a new directory at most. -/
theorem prepareLatest_absent : Triple (On fun f => f.root = none) (prepareLatest t c)
    (fun _ => On fun f => f.root = none ∨ f.root = some [c.fresh])
    fun _ => On fun f => f.root = none ∨ f.root = some [c.fresh] := by
  unfold prepareLatest
  refine Triple.bind (Q := fun _ => On fun f => f.root = none)
    (precheck_spec.mono (fun _ h => h) (fun _ _ h => h.1) fun _ w h => .inl h) fun _ => ?_
  refine Triple.bind (Q := fun _ => On fun f => f.root = none) ?_ fun _ => ?_
  · exact triple_probe fun _ h => .inl h
  refine triple_look.bind fun found => ?_
  cases found with
  | none =>
    refine Triple.bind (Q := fun _ => On fun f => f.root = some [c.fresh]) ?_ fun _ => ?_
    · exact triple_call (fun f _ => rfl) (fun f hf => .inl hf.1) fun f hf => .inr hf
    · exact triple_pure fun f hf => .inr hf
  | some tree =>
    refine Triple.absurd fun w hw => ?_
    cases hw.1.symm.trans hw.2.symm

/-- All that a call should keep, from some files and with some faults. The old results are safe, a
call that raises before the rename leaves them where they are, and a retired sibling stops it before
anything has changed. -/
def Kept (t : Tools) (c : Call) (f : Files) (events : List (Event Tree Error)) : Prop :=
  let r := prepareLatest t c ⟨{ f with renamed := false }, events⟩
  (∀ prev, f.root = some prev → Safe c prev r.2.files) ∧
    (∀ e, r.1 = .error e → r.2.files.renamed = false →
      r.2.files.root = f.root ∨ (f.root = none ∧ r.2.files.root = some [c.fresh])) ∧
    ((∃ n ∈ f.siblings.keys, c.IsRetired n) →
      ∃ e, r.1 = .error e ∧ r.2.files = { f with renamed := false })

/-- **The results are kept.** For all results and all faults, a call keeps what it should if and only
if the pattern sees some sibling in case there is a retired one. -/
theorem latest_kept (hcp : ∀ tree, Same tree (t.cp tree)) (hc : c.Accepted) (f : Files) :
    (∀ root events, Kept t c { f with root := root } events) ↔
      ((∃ n ∈ f.siblings.keys, c.IsRetired n) →
        f.listable = true ∧ ∃ n ∈ f.siblings.keys, Posix.fnmatch n c.pattern = true) := by
  constructor
  · intro hkept hretired
    by_contra hunseen
    have hseen : c.seen { f with root := none, renamed := false } = [] := by
      rw [Call.seen]
      by_cases hlist : f.listable = true
      · rw [if_pos hlist]
        simp only [Option.isSome_none, Bool.false_eq_true, if_false, List.append_nil,
          List.filter_eq_nil_iff]
        exact fun n hn hmatch => hunseen ⟨hlist, n, hn, hmatch⟩
      · rw [if_neg hlist]
    obtain ⟨e, he, -⟩ := (hkept none []).2.2 hretired
    rw [prepareLatest, Prog.bind_of_ok (precheck_passes hc hseen)] at he
    cases he
  · intro hcond root events
    refine ⟨fun prev hprev => ?_, fun e he hrenamed => ?_, fun hretired => ?_⟩
    · have hspec := (prepareLatest_held hcp : Triple (On (Untouched prev)) (prepareLatest t c) _ _)
        ⟨{ f with root := root, renamed := false }, events⟩ ⟨hprev, rfl⟩
      generalize prepareLatest t c ⟨{ f with root := root, renamed := false }, events⟩ = r at hspec ⊢
      obtain ⟨_ | _, w⟩ := r
      · exact hspec.1
      · exact hspec.1
    · cases root with
      | none =>
        have hspec := prepareLatest_absent (t := t) (c := c)
          ⟨{ f with root := none, renamed := false }, events⟩ rfl
        generalize prepareLatest t c ⟨{ f with root := none, renamed := false }, events⟩ = r
          at hspec he ⊢
        obtain ⟨_ | _, w⟩ := r
        · exact hspec.imp id fun h => ⟨rfl, h⟩
        · cases he
      | some prev =>
        have hspec := (prepareLatest_held hcp : Triple (On (Untouched prev)) (prepareLatest t c) _ _)
          ⟨{ f with root := some prev, renamed := false }, events⟩ ⟨rfl, rfl⟩
        generalize prepareLatest t c ⟨{ f with root := some prev, renamed := false }, events⟩ = r
          at hspec he hrenamed ⊢
        obtain ⟨_ | _, w⟩ := r
        · exact .inl (hspec.2 hrenamed)
        · cases he
    · obtain ⟨hlist, n, hn, hmatch⟩ := hcond hretired
      have hguard : Triple (On fun f' => f' = { f with root := root, renamed := false })
          (prepareLatest t c) (fun _ => On fun _ => False)
          fun _ => On fun f' => f' = { f with root := root, renamed := false } := by
        unfold prepareLatest
        refine Triple.bind precheck_spec fun _ => Triple.absurd fun w hw => ?_
        obtain ⟨hw, hseen⟩ := hw
        rw [hw, Call.seen, if_pos hlist, List.filter_eq_nil_iff] at hseen
        exact hseen n (List.mem_append_left _ hn) hmatch
      have hspec := hguard ⟨{ f with root := root, renamed := false }, events⟩ rfl
      generalize prepareLatest t c ⟨{ f with root := root, renamed := false }, events⟩ = r
        at hspec ⊢
      obtain ⟨e | _, w⟩ := r
      · exact ⟨e, rfl, hspec⟩
      · exact hspec.elim

/-- **A name without a bracket matches itself.** -/
theorem fnmatch_retired (h : '[' ∉ c.name.toList) {n : String} (hn : c.IsRetired n) :
    Posix.fnmatch n c.pattern = true := by
  obtain ⟨x, rfl⟩ := hn
  have hpattern : c.pattern = "." ++ c.name ++ "-retired-" ++ "*" := by
    have hstar : "-retired-*" = "-retired-" ++ "*" := rfl
    rw [Call.pattern, hstar, ← String.append_assoc]
  rw [hpattern]
  refine Posix.fnmatch_self_star ?_ x
  simp [h]

/-! ### Two names -/

/-- `cp` gives each entry an inode of its own, and hard links stay links. -/
def renumbering : Tools where
  sha256 := fun _ => ""
  cp := fun tree => tree.map fun e => { e with key := (e.key.1, e.key.2 + 1000) }

theorem same_renumbering (tree : Tree) : Same tree (renumbering.cp tree) := by
  refine ⟨by simp [renumbering, Entry.content, Function.comp_def], ?_⟩
  rw [Tree.links, Tree.links, renumbering, List.map_map]
  refine List.map_congr_left fun e _ => ?_
  have hfind : ((fun e' : Entry => decide (e'.key = (e.key.1, e.key.2 + 1000))) ∘
      fun e' : Entry => { e' with key := (e'.key.1, e'.key.2 + 1000) }) =
      fun e' => decide (e'.key = e.key) := by
    funext e'
    simp [Prod.ext_iff]
  rw [Function.comp_apply, List.find?_map, hfind, Option.map_map]
  rfl

/-- A directory. -/
def aDirectory : Entry := ⟨".", (1, 7), ⟨0o755, 0, 0, 0, []⟩, .directory, 8⟩

/-- Some results of this name are to be replaced. -/
def named (name : String) : Call where
  root := ["ae", name]
  backupRoot := ["backups"]
  symlinks := []
  archiveName := "results-20250102T000000.000000Z"
  references := []
  referencesAfter := []
  free := 10 ^ 12
  freeAfter := 10 ^ 12
  euid := 0
  fresh := aDirectory

/-- An interrupted replacement has left a retired sibling. -/
def interrupted (retired : String) : Files where
  root := none
  siblings := Dict.empty.set retired [aDirectory, { aDirectory with name := "log", key := (1, 8) }]
  listable := true
  backupRoot := true
  archives := .empty
  renamed := false

/-- The usual name is safe. -/
theorem latest_kept_results : Kept renumbering (named "results")
    (interrupted ".results-retired-results-20250101T000000.000000Z") [] :=
  (latest_kept same_renumbering ⟨by decide, by decide⟩
    (interrupted ".results-retired-results-20250101T000000.000000Z")).mpr
      (fun ⟨n, hn, hretired⟩ => ⟨rfl, n, hn, fnmatch_retired (by decide) hretired⟩) none []

/-- **A name that does not match itself.** A replacement of `res[1]` has been interrupted, and the next
call does not see it: it makes a new directory and returns. -/
theorem unseen_sibling : (named "res[1]").Accepted ∧
    (named "res[1]").IsRetired ".res[1]-retired-results-20250101T000000.000000Z" ∧
    (prepareLatest renumbering (named "res[1]")
      ⟨interrupted ".res[1]-retired-results-20250101T000000.000000Z", []⟩).1 = .ok none ∧
    ¬ Kept renumbering (named "res[1]")
      (interrupted ".res[1]-retired-results-20250101T000000.000000Z") [] := by
  have hok : (prepareLatest renumbering (named "res[1]")
      ⟨interrupted ".res[1]-retired-results-20250101T000000.000000Z", []⟩).1.toOption =
        some none := by decide +kernel
  have hret : (named "res[1]").IsRetired ".res[1]-retired-results-20250101T000000.000000Z" :=
    ⟨"results-20250101T000000.000000Z", by decide +kernel⟩
  generalize hr : prepareLatest renumbering (named "res[1]")
      ⟨interrupted ".res[1]-retired-results-20250101T000000.000000Z", []⟩ = r at hok
  obtain ⟨_ | summary, w⟩ := r
  · cases hok
  · obtain rfl : summary = none := Option.some.inj hok
    refine ⟨⟨by decide, by decide⟩, hret, rfl, fun hkept => ?_⟩
    obtain ⟨e, he, -⟩ := hkept.2.2 ⟨_, List.mem_cons_self, hret⟩
    have hboth : (prepareLatest renumbering (named "res[1]")
      ⟨interrupted ".res[1]-retired-results-20250101T000000.000000Z", []⟩).1 = .error e := he
    rw [hr] at hboth
    cases hboth

end Storage

end DeltaBox
