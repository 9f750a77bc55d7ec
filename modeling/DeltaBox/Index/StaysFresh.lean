import DeltaBox.Index.Fresh

/-!
# The worker index through edits

After an edit the index is refreshed for some paths. A refresh gives its path the entry it has in a
fresh index, and leaves the others alone. So the index is fresh again if each path whose entry has
changed is among them.

A diff says with its lines `+++` which files it leaves, and only these are refreshed. A file that it
deletes, or moves away, stays in the index.

## Main results

* `refreshTarget_spec` — one path
* `Tracked` — an operation after which all changed paths are refreshed and nothing is raised
* `index_stays_fresh` — in a run of such operations the index is the one a build would make
* `deleted_file_stays` — the run that deletes a file
-/

namespace DeltaBox

namespace Index

open Posix Machine

variable {h : Host} {root : String} {fs fs' : Files} {x y : State} {path full rel : String}

/-! ### Paths -/

theorem isabs_lstrip (p : String) : isabs (lstrip p) = false := by
  rw [isabs, lstrip, String.toList_ofList]
  cases hlist : p.toList.dropWhile (· = '/') with
  | nil => rfl
  | cons c cs =>
    have hc := List.head?_dropWhile_not (fun c : Char => decide (c = '/')) p.toList
    rw [hlist] at hc
    simpa using hc

/-- A path that does not escape is the one of some names. -/
theorem absPath_names (ha : absPath h root path = some full) :
    ∃ l, Names l ∧ full = place h.cwd root l := by
  unfold absPath at ha
  obtain ⟨hbelow, hfull⟩ := Option.ite_none_left_eq_some.mp ha
  have hrel : isabs (if isabs path = true then lstrip path else path) = false := by
    split_ifs with habs
    · exact isabs_lstrip path
    · simpa using habs
  refine exists_names_of_below h.cwd_abs hrel (Option.some.inj hfull).symm ?_
  rw [← Option.some.inj hfull]
  by_contra hno
  exact hbelow ⟨fun heq => hno (.inl heq), by simpa using fun hs => hno (.inr hs)⟩

/-- The relative path of names. -/
theorem relpath_names {l : List String} (hl : Names l) :
    relpath h.cwd (place h.cwd root l) (abspath h.cwd root) =
      if l = [] then "." else "/".intercalate l := by
  rw [relpath_abspath h.cwd_abs, relpath_place h.cwd_abs hl (abspath_place h.cwd_abs hl)]

/-- **The relative path finds the file again.** -/
theorem absPath_relpath (ha : absPath h root path = some full) :
    absPath h root (relpath h.cwd full (abspath h.cwd root)) = some full := by
  obtain ⟨l, hl, rfl⟩ := absPath_names ha
  have hsame : ∀ r, isabs r = false → abspath h.cwd (join root r) = place h.cwd root l →
      absPath h root r = some (place h.cwd root l) := by
    intro r hr hplace
    unfold absPath at ha ⊢
    rw [hr]
    simp only [Bool.false_eq_true, if_false, hplace]
    obtain ⟨hbelow, hfull⟩ := Option.ite_none_left_eq_some.mp ha
    rw [Option.some.inj hfull] at hbelow
    exact if_neg hbelow
  rw [relpath_names hl]
  split_ifs with hnil
  · refine hsame "." (by decide) ?_
    have hdot : push (comps (base h.cwd root)) "." = comps (base h.cwd root) := by
      rw [push, show split "." = ["."] by decide]
      rfl
    rw [abspath_join h.cwd_abs (by decide), hdot, hnil, place, List.append_nil]
  · exact hsame _ (isabs_intercalate hl) (abspath_join_intercalate h.cwd_abs hl)

/-! ### A refresh -/

/-- The names of an index. -/
def Keyed (x : State) : Prop := ∀ rel e, x.files.find? rel = some e → Names (split rel)

/-- A path as the index has it, and where it is. -/
def Found (h : Host) (root rel full : String) : Prop :=
  absPath h root rel = some full ∧ relpath h.cwd full (abspath h.cwd root) = rel

theorem found_of_absPath (ha : absPath h root path = some full) :
    Found h root (relpath h.cwd full (abspath h.cwd root)) full :=
  ⟨absPath_relpath ha, rfl⟩

/-- A path resolves to one as the index has it. -/
theorem resolve_found {t : Tree} (hx : Keyed x)
    (hres : resolve h t x.files path root = some (full, rel)) : Found h root rel full := by
  unfold resolve at hres
  cases ha : absPath h root path with
  | none =>
    rw [ha] at hres
    cases hres
  | some full' =>
    rw [ha] at hres
    have hown : Found h root (relpath h.cwd full' (abspath h.cwd root)) full' :=
      found_of_absPath ha
    dsimp only at hres
    split at hres
    · obtain ⟨rfl, rfl⟩ := Prod.mk.inj (Option.some.inj hres)
      exact hown
    · split at hres
      · obtain ⟨rfl, rfl⟩ := Prod.mk.inj (Option.some.inj hres)
        exact hown
      · rename_i key hkeys
        obtain ⟨full'', ha', heq⟩ := Option.map_eq_some_iff.mp hres
        obtain ⟨rfl, rfl⟩ := Prod.mk.inj heq
        have hmem : key ∈ x.files.keys.filter fun x_1 =>
            x_1 = lstrip (relpath h.cwd full' (abspath h.cwd root)) ∨
              endswith x_1 ("/" ++ lstrip (relpath h.cwd full' (abspath h.cwd root))) := by
          rw [hkeys]
          exact List.mem_cons_self
        obtain ⟨e, he⟩ := Dict.mem_keys_iff.mp (List.mem_filter.mp hmem).1
        have hnames := hx key e he
        obtain ⟨l, hl, rfl⟩ := absPath_names ha'
        refine ⟨ha', ?_⟩
        -- the key is joined to the root as it is
        have hplace : place h.cwd root l = place h.cwd root (split key) := by
          have hkey : isabs key = false := by
            have := isabs_intercalate hnames
            rwa [intercalate_split] at this
          unfold absPath at ha'
          rw [hkey] at ha'
          obtain ⟨-, hfull⟩ := Option.ite_none_left_eq_some.mp ha'
          have habs := @abspath_join_intercalate _ root _ h.cwd_abs hnames
          rw [intercalate_split] at habs
          rw [← Option.some.inj hfull, ← habs]
          rfl
        rw [hplace, relpath_names hnames, if_neg (split_ne_nil key), intercalate_split]
      · cases hres

/-- **A refresh gives its path the entry it has, and leaves the others alone.** -/
theorem refresh_spec (hf : Fits h root fs) (hfound : Found h root rel full) (hx : Tabled x) :
    ∃ y, workerIndexRefreshPath h (tree h.cwd fs fun _ => none) x rel root = (y, .done) ∧
      Tabled y ∧ ∀ r, y.files.find? r =
        if r = rel then entryAt h root fs rel else x.files.find? r := by
  obtain ⟨ha, hrel⟩ := hfound
  obtain ⟨l, hl, rfl⟩ := absPath_names ha
  have hplace := @abspath_place _ root _ h.cwd_abs hl
  have hrel' : relpath h.cwd (place h.cwd root l) root = rel := by
    rw [← relpath_abspath h.cwd_abs]
    exact hrel
  have hread : readEntry h (tree h.cwd fs fun _ => none) (place h.cwd root l) root =
      ((fs.file? (place h.cwd root l)).map (readInode h · rel)).getD .nothing := by
    rw [readEntry_tree, hplace, hrel']
  have hexists : (if (tree h.cwd fs fun _ => none).pathExists (place h.cwd root l) = true then
      readEntry h (tree h.cwd fs fun _ => none) (place h.cwd root l) root else .nothing) =
      readEntry h (tree h.cwd fs fun _ => none) (place h.cwd root l) root := by
    split_ifs with hex
    · rfl
    · rw [hread]
      cases hfile : fs.file? (place h.cwd root l) with
      | none => rfl
      | some i =>
        refine absurd ?_ hex
        simp [Tree.pathExists, tree, hplace, hfile]
  have hname := @relpath_names h root _ hl
  rw [hrel] at hname
  rw [workerRefresh_of_some ha, hrel, State.replaceFile, hexists, hread]
  rcases hfile : fs.file? (place h.cwd root l) with _ | i
  · refine ⟨x.remove rel, rfl, hx.remove rel, fun r => ?_⟩
    have hnone : entryAt h root fs rel = none := by
      by_cases hnil : l = []
      · rw [if_pos hnil] at hname
        rw [hname, entryAt]
        exact if_neg (by decide)
      · rw [if_neg hnil] at hname
        rw [hname, entryAt_names hl hnil, hfile]
        rfl
    rw [find?_remove, hnone]
  · have hnil : l ≠ [] := by
      rintro rfl
      have hdir := fs.apart _ hf.root
      rw [abspath_root h.cwd_abs] at hdir
      rw [Files.file?, hdir] at hfile
      cases hfile
    rw [if_neg hnil] at hname
    have hparse := hf.parses l i hl hnil hfile
    rw [← hname] at hparse
    have hentry := @entryAt_names h root fs _ hl hnil
    rw [← hname, hfile, Option.map_some] at hentry
    dsimp only [Option.map_some, Option.getD_some]
    cases hinode : readInode h i rel with
    | raises => exact absurd hinode hparse
    | nothing =>
      rw [hinode] at hentry
      exact ⟨x.remove rel, rfl, hx.remove rel, fun r => by rw [find?_remove, hentry]⟩
    | entry e =>
      rw [hinode] at hentry
      refine ⟨(x.remove rel).insert e, rfl, (hx.remove rel).insert e, fun r => ?_⟩
      rw [find?_insert, (entry_of_readInode hinode).1, find?_remove, hentry]
      split_ifs
      · rfl
      · rfl

/-! ### The paths of an operation -/

variable {e : Tools} {strip : Bool}

/-- A path that a target names, as the index has it. -/
def Target.Names (h : Host) (root : String) (strip : Bool) (rel : String) : Target → Prop
  | .written r => r = rel
  | .line text => ∃ p full, header strip text = .path p ∧ absPath h root p = some full ∧
      relpath h.cwd full (abspath h.cwd root) = rel

/-- Nothing is raised for a target before its refresh. -/
def resolvable (e : Tools) (root : String) (strip : Bool) (t : Tree) (x : State) : Target → Bool
  | .written _ => true
  | .line text =>
    match header strip text with
    | .none => true
    | .raises => false
    | .path p => (workerResolveRel e.host t x p root).isSome

/-- Nor for any of the targets, one after the other. -/
def Resolves (e : Tools) (root : String) (strip : Bool) (t : Tree) : State → List Target → Prop
  | _, [] => True
  | x, target :: targets =>
    resolvable e root strip t x target = true ∧
      Resolves e root strip t (refreshTarget e root strip t x target).1 targets

/-- A path that the code has resolved itself is one. -/
def Target.Sound (h : Host) (root : String) : Target → Prop
  | .written rel => ∃ full, Found h root rel full
  | .line _ => True

theorem keyed_of_refresh (hx : Keyed x) (hy : ∀ r, y.files.find? r =
    if r = rel then entryAt h root fs rel else x.files.find? r) : Keyed y := by
  intro r entry hr
  rw [hy r] at hr
  split_ifs at hr with heq
  · exact heq ▸ (path_of_entryAt hr).2.1
  · exact hx r entry hr

/-- A file that does not exist and is not in the index needs no refresh. -/
theorem settled_of_absent (ha : absPath h root path = some full)
    (hrel : relpath h.cwd full (abspath h.cwd root) = rel)
    (hexists : (tree h.cwd fs fun _ => none).pathExists full = false) (hkey : rel ∉ x.files.keys) :
    x.files.find? rel = entryAt h root fs rel := by
  obtain ⟨l, hl, rfl⟩ := absPath_names ha
  have hname := @relpath_names h root _ hl
  rw [hrel] at hname
  rw [Dict.find?_eq_none_iff.mpr hkey]
  by_cases hnil : l = []
  · rw [if_pos hnil] at hname
    rw [hname, entryAt]
    exact (if_neg (by decide)).symm
  · rw [if_neg hnil] at hname
    rw [hname, entryAt_names hl hnil]
    cases hfile : fs.file? (place h.cwd root l) with
    | none => rfl
    | some i =>
      simp [Tree.pathExists, tree, abspath_place h.cwd_abs hl, hfile] at hexists

/-- **One target.** Its path is settled, and what was settled stays so. -/
theorem refreshTarget_spec {target : Target} (hf : Fits e.host root fs) (hx : Tabled x)
    (hk : Keyed x) (hsound : target.Sound e.host root)
    (hres : resolvable e root strip (tree e.host.cwd fs fun _ => none) x target = true) :
    ∃ y, refreshTarget e root strip (tree e.host.cwd fs fun _ => none) x target = (y, true) ∧
      Tabled y ∧ Keyed y ∧
      ∀ r, x.files.find? r = entryAt e.host root fs r ∨ target.Names e.host root strip r →
        y.files.find? r = entryAt e.host root fs r := by
  have hsettle : ∀ {rel : String} {y : State}, (∀ r, y.files.find? r =
      if r = rel then entryAt e.host root fs rel else x.files.find? r) →
      ∀ r, x.files.find? r = entryAt e.host root fs r ∨ r = rel →
        y.files.find? r = entryAt e.host root fs r := by
    intro rel y hy r hr
    rw [hy r]
    split_ifs with heq
    · rw [heq]
    · exact hr.resolve_right heq
  cases target with
  | written rel =>
    obtain ⟨full, hfound⟩ := hsound
    obtain ⟨y, hrefresh, hy, hfind⟩ := refresh_spec hf hfound hx
    refine ⟨y, ?_, hy, keyed_of_refresh hk hfind, fun r hr => hsettle hfind r (hr.imp_right Eq.symm)⟩
    rw [refreshTarget, hrefresh]
  | line text =>
    rw [resolvable] at hres
    rw [refreshTarget]
    cases hhead : header strip text with
    | none =>
      refine ⟨x, rfl, hx, hk, fun r hr => hr.elim id ?_⟩
      rintro ⟨p, full, hp, -⟩
      rw [hhead] at hp
      cases hp
    | raises =>
      rw [hhead] at hres
      cases hres
    | path p =>
      rw [hhead] at hres
      obtain ⟨⟨full', rel'⟩, hresolve⟩ := Option.isSome_iff_exists.mp hres
      obtain ⟨y, hrefresh, hy, hfind⟩ :=
        refresh_spec hf (resolve_found hk hresolve) hx
      refine ⟨y, ?_, hy, keyed_of_refresh hk hfind, fun r hr => ?_⟩
      · dsimp only
        rw [hresolve]
        dsimp only
        rw [hrefresh]
      · refine hsettle hfind r (or_iff_not_imp_right.mpr fun hne => hr.elim id ?_)
        rintro ⟨p', full, hp', ha, hrel⟩
        obtain rfl := Header.path.inj (hhead.symm.trans hp')
        -- the path resolves to another one only if it is nowhere
        rw [workerResolveRel] at hresolve
        unfold resolve at hresolve
        rw [ha] at hresolve
        dsimp only at hresolve
        split_ifs at hresolve with hhere
        · obtain ⟨-, rfl⟩ := Prod.mk.inj (Option.some.inj hresolve)
          exact absurd hrel.symm hne
        · rw [hrel] at hhere
          exact settled_of_absent ha hrel (by simpa using fun hex => hhere (.inl hex))
            fun hmem => hhere (.inr hmem)

/-- **All targets.** -/
theorem refreshAll_spec {targets : List Target} (hf : Fits e.host root fs) (hx : Tabled x)
    (hk : Keyed x) (hsound : ∀ target ∈ targets, target.Sound e.host root)
    (hres : Resolves e root strip (tree e.host.cwd fs fun _ => none) x targets) :
    ∃ y, refreshAll e root strip (tree e.host.cwd fs fun _ => none) x targets = (y, true) ∧
      Tabled y ∧ Keyed y ∧
      ∀ r, (x.files.find? r = entryAt e.host root fs r ∨
          ∃ target ∈ targets, target.Names e.host root strip r) →
        y.files.find? r = entryAt e.host root fs r := by
  induction targets generalizing x with
  | nil =>
    refine ⟨x, rfl, hx, hk, fun r hr => hr.elim id ?_⟩
    rintro ⟨target, htarget, -⟩
    cases htarget
  | cons target targets ih =>
    obtain ⟨hfirst, hrest⟩ := hres
    obtain ⟨z, hz, htz, hkz, hsettled⟩ :=
      refreshTarget_spec hf hx hk (hsound target List.mem_cons_self) hfirst
    rw [hz] at hrest
    obtain ⟨y, hy, hty, hky, hall⟩ :=
      ih htz hkz (fun t ht => hsound t (List.mem_cons_of_mem _ ht)) hrest
    refine ⟨y, ?_, hty, hky, fun r hr => hall r ?_⟩
    · rw [refreshAll, hz]
      exact hy
    · rcases hr with hr | ⟨t, ht, hname⟩
      · exact Or.inl (hsettled r (Or.inl hr))
      · rcases List.mem_cons.mp ht with rfl | ht
        · exact Or.inl (hsettled r (Or.inr hname))
        · exact Or.inr ⟨t, ht, hname⟩

/-! ### What an operation does to the files -/

variable {s : Agent} {now : ℤ} {targets : List Target}

/-- The path of an operation that writes one. -/
def Op.file : Op → Option String
  | .replace path .. | .writeFile path _ | .appendFile path _ => path
  | .applyRecordedDiff .. => none

/-- The three outcomes of a write. -/
def WroteOne (s : Agent) (full rel : String) : Edit → Prop
  | .refused _ => True
  | .broken _ => True
  | .edited fs targets =>
    targets = [.written rel] ∧ ∃ fs₁ f, s.files.SameFiles fs₁ ∧ fs₁.put full f = some fs

theorem wroteOne_writeTo {fs₁ : Files} (hsame : s.files.SameFiles fs₁) (full rel : String)
    (before : List UInt8) (content : Arg) (now : ℤ) :
    WroteOne s full rel (writeTo e fs₁ full before content now rel) := by
  unfold writeTo
  by_cases htakes : fs₁.names.find? full = none ∧ e.takes full = false
  · rw [if_pos htakes]
    trivial
  · rw [if_neg htakes]
    cases content with
    | str text =>
      dsimp only
      cases hput : fs₁.put full ⟨before ++ Utf8.encode text, now⟩ with
      | none => trivial
      | some fs => exact ⟨rfl, fs₁, _, hsame, hput⟩
    | surrogates =>
      dsimp only
      cases fs₁.put full ⟨before, now⟩ with
      | none => trivial
      | some fs => trivial
    | other =>
      dsimp only
      cases fs₁.put full ⟨before, now⟩ with
      | none => trivial
      | some fs => trivial

/-- What the writing operations do. -/
theorem edit_write (e : Tools) (root : String) (s : Agent) (now : ℤ) {op : Op}
    (hop : ∀ diff v, op ≠ .applyRecordedDiff diff v) :
    s.edit e root now op = .refused s.files ∨
      ∃ full rel, op.file.bind (s.resolveRel e root) = some (full, rel) ∧
        WroteOne s full rel (s.edit e root now op) := by
  have hrefl := Files.SameFiles.refl s.files
  cases op with
  | replace path oldStr newStr =>
    rw [Agent.edit, Agent.replace, Op.file]
    cases hres : path.bind (s.resolveRel e root) with
    | none => exact .inl rfl
    | some found =>
      obtain ⟨full, rel⟩ := found
      refine .inr ⟨full, rel, rfl, ?_⟩
      dsimp only
      split
      · trivial
      · split
        · trivial
        · exact wroteOne_writeTo hrefl ..
      · split
        · trivial
        · exact wroteOne_writeTo hrefl ..
      · trivial
  | writeFile path content =>
    rw [Agent.edit, Agent.writeFile, Op.file]
    cases hres : path.bind (s.resolveRel e root) with
    | none => exact .inl rfl
    | some found =>
      obtain ⟨full, rel⟩ := found
      refine .inr ⟨full, rel, rfl, ?_⟩
      dsimp only
      split
      · trivial
      · rename_i hmake
        exact wroteOne_writeTo (Files.sameFiles_makeParents hmake) ..
  | appendFile path content =>
    rw [Agent.edit, Agent.appendFile, Op.file]
    cases hres : path.bind (s.resolveRel e root) with
    | none => exact .inl rfl
    | some found =>
      obtain ⟨full, rel⟩ := found
      refine .inr ⟨full, rel, rfl, ?_⟩
      dsimp only
      split
      · trivial
      · rename_i hmake
        have hsame := Files.sameFiles_makeParents hmake
        split
        · exact wroteOne_writeTo hsame ..
        · trivial
        · exact wroteOne_writeTo hsame ..
  | applyRecordedDiff diff v => exact absurd rfl (hop diff v)

/-- What a recorded diff does. -/
theorem edit_diff (e : Tools) (root : String) (s : Agent) (now : ℤ) (diff : Arg)
    (v : Option (Option Validation)) :
    match s.edit e root now (.applyRecordedDiff diff v) with
    | .refused fs => fs = s.files
    | .broken _ => True
    | .edited _ targets => ∀ target ∈ targets, ∃ text, target = .line text := by
  have hlines : ∀ text : String, ∀ target ∈ (Text.splitlines text.toList).map fun l =>
      Target.line (String.ofList l), ∃ text, target = .line text := by
    intro text target htarget
    obtain ⟨l, -, rfl⟩ := List.mem_map.mp htarget
    exact ⟨_, rfl⟩
  cases diff with
  | surrogates => rfl
  | other => rfl
  | str diff =>
    rw [Agent.edit, Agent.applyDiff]
    by_cases hhunk : (!contains diff "@@") = true
    · rw [if_pos hhunk]
    · rw [if_neg hhunk]
      cases s.checkBefore e root v with
      | none => rfl
      | some validated =>
        cases e.gitApply s.files root (stripFirst diff)
            (if endswith diff "\n" = true then diff else diff ++ "\n") with
        | none => rfl
        | some fs =>
          cases hafter : checkAfter e fs validated with
          | true =>
            dsimp only
            rw [if_pos hafter]
            exact hlines diff
          | false => simp [hafter]

/-! ### Tracked operations -/

/-- No other file below the root that is not skipped is this one under another name. -/
def Sole (h : Host) (root : String) (fs : Files) (full : String) : Prop :=
  ∀ l i, Names l → indexShouldSkip ("/".intercalate l) = false →
    fs.names.find? full = some i → fs.names.find? (place h.cwd root l) = some i →
      place h.cwd root l = full

/-- An operation that keeps the index fresh. It fails before it makes or changes anything, or the
files fit afterwards, nothing is raised, and each path with another entry is refreshed: a file that
is written is not another one of the index too, and a file that a diff changes, makes or deletes is
named by one of its lines. -/
def Tracked (e : Tools) (root : String) (s : Agent) (a : Op × ℤ) : Prop :=
  match s.edit e root a.2 a.1 with
  | .refused fs => fs = s.files
  | .broken _ => False
  | .edited fs targets =>
    Fits e.host root fs ∧
    Resolves e root a.1.strip (tree e.host.cwd fs fun _ => none) s.index targets ∧
    match a.1 with
    | .applyRecordedDiff .. => ∀ rel, entryAt e.host root fs rel ≠ entryAt e.host root s.files rel →
        ∃ target ∈ targets, target.Names e.host root a.1.strip rel
    | op => ∀ full rel, op.file.bind (s.resolveRel e root) = some (full, rel) →
        Sole e.host root s.files full

/-- The index is the one a fresh build would make. -/
structure Current (h : Host) (root : String) (s : Agent) : Prop where
  fits : Fits h root s.files
  index : Represents h root s.files s.index

theorem Represents.keyed (hx : Represents h root fs x) : Keyed x := by
  intro rel entry hrel
  rw [hx.files] at hrel
  exact (path_of_entryAt hrel).2.1

/-- A path whose file is not written keeps its entry. -/
theorem entryAt_put {fs₁ fs' : Files} {f : Inode} (hsame : fs.SameFiles fs₁)
    (hput : fs₁.put full f = some fs') (hsole : Sole h root fs full)
    (hfound : Found h root rel full) {r : String} (hr : r ≠ rel) :
    entryAt h root fs' r = entryAt h root fs r := by
  by_cases hnames : Names (split r)
  · by_cases hskip : indexShouldSkip r = true
    · have hnone : ∀ g : Files, entryAt h root g r = none := by
        intro g
        cases hentry : entryAt h root g r with
        | none => rfl
        | some entry =>
          have hno := (path_of_entryAt hentry).2.2.2
          rw [hskip] at hno
          cases hno
      rw [hnone, hnone]
    · have hne : place h.cwd root (split r) ≠ full := by
        intro heq
        have hrel := hfound.2
        rw [← heq, relpath_names hnames, if_neg (split_ne_nil r), intercalate_split] at hrel
        exact hr hrel
      have hfile : fs'.file? (place h.cwd root (split r)) = fs.file? (place h.cwd root (split r)) := by
        rw [Files.file?_put_of_ne hput hne fun i hi hj => hne ?_, hsame.file?]
        rw [hsame.names] at hi hj
        exact hsole (split r) i hnames (by rw [intercalate_split]; simpa using hskip) hi hj
      rw [entryAt, entryAt, hfile]
  · rw [entryAt, entryAt, if_neg hnames, if_neg hnames]

/-- **One operation.** The index is current again, and a failure has changed nothing. -/
theorem current_step {op : Op} (hs : Current e.host root s) (ht : Tracked e root s (op, now)) :
    Current e.host root (workerExecOne e root s op now).1 ∧
      ((workerExecOne e root s op now).2 = false →
        (workerExecOne e root s op now).1.files = s.files) := by
  have hkeyed := hs.index.keyed
  -- after the refreshes everything is settled
  have hdone : ∀ fs targets, s.edit e root now op = .edited fs targets → Fits e.host root fs →
      (∀ target ∈ targets, target.Sound e.host root) →
      Resolves e root op.strip (tree e.host.cwd fs fun _ => none) s.index targets →
      (∀ rel, entryAt e.host root fs rel ≠ entryAt e.host root s.files rel →
        ∃ target ∈ targets, target.Names e.host root op.strip rel) →
      Current e.host root (workerExecOne e root s op now).1 ∧
        ((workerExecOne e root s op now).2 = false →
          (workerExecOne e root s op now).1.files = s.files) := by
    intro fs targets hedit hfits hsound hres hcover
    obtain ⟨y, hy, hty, -, hall⟩ :=
      refreshAll_spec hfits hs.index.tabled hkeyed hsound hres
    rw [workerExecOne, hedit]
    dsimp only
    rw [hy]
    refine ⟨⟨hfits, ⟨fun rel => hall rel ?_, hty⟩⟩, fun hok => by cases hok⟩
    by_cases heq : entryAt e.host root fs rel = entryAt e.host root s.files rel
    · exact Or.inl ((hs.index.files rel).trans heq.symm)
    · exact Or.inr (hcover rel heq)
  rw [Tracked] at ht
  dsimp only at ht
  cases hedit : s.edit e root now op with
  | refused fs =>
    rw [hedit] at ht
    subst ht
    rw [workerExecOne, hedit]
    exact ⟨hs, fun _ => rfl⟩
  | broken fs =>
    rw [hedit] at ht
    exact ht.elim
  | edited fs targets =>
    rw [hedit] at ht
    obtain ⟨hfits, hres, hcover⟩ := ht
    by_cases hdiff : ∃ diff v, op = .applyRecordedDiff diff v
    · obtain ⟨diff, v, rfl⟩ := hdiff
      have hlines := edit_diff e root s now diff v
      rw [hedit] at hlines
      refine hdone fs targets hedit hfits (fun target htarget => ?_) hres hcover
      obtain ⟨text, rfl⟩ := hlines target htarget
      trivial
    · have hop : ∀ diff v, op ≠ .applyRecordedDiff diff v := fun diff v heq => hdiff ⟨diff, v, heq⟩
      rcases edit_write e root s now hop with
        hno | ⟨full, rel, hfile, hwrote⟩
      · rw [hedit] at hno
        cases hno
      rw [hedit] at hwrote
      obtain ⟨rfl, fs₁, f, hsame, hput⟩ := hwrote
      have hsole : Sole e.host root s.files full := by
        cases op with
        | applyRecordedDiff diff v => exact absurd rfl (hop diff v)
        | replace path oldStr newStr => exact hcover full rel hfile
        | writeFile path content => exact hcover full rel hfile
        | appendFile path content => exact hcover full rel hfile
      have hfound : Found e.host root rel full := by
        obtain ⟨path, -, hres'⟩ := Option.bind_eq_some_iff.mp hfile
        exact resolve_found hkeyed hres'
      refine hdone fs _ hedit hfits (fun target htarget => ?_) hres fun r hr => ?_
      · rw [List.mem_singleton.mp htarget]
        exact ⟨full, hfound⟩
      · refine ⟨_, List.mem_cons_self, ?_⟩
        by_contra hne
        exact hr (entryAt_put hsame hput hsole hfound fun heq => hne heq.symm)

/-! ### Runs -/

/-- What an operation has reported, and the files before and after it. -/
structure Report where
  before : Files
  after : Files
  ok : Bool

/-- An agent and the reports of its operations. -/
structure Logged where
  agent : Agent
  reports : List Report

/-- One operation after the other. -/
def logged (e : Tools) (root : String) (t : Logged) (a : Op × ℤ) : Option Logged :=
  let (s, ok) := workerExecOne e root t.agent a.1 a.2
  some ⟨s, t.reports ++ [⟨t.agent.files, s.files, ok⟩]⟩

/-- A report of a failure is true. -/
def Report.Honest (r : Report) : Prop := r.ok = false → r.after = r.before

theorem logged_step {t t' : Logged} {a : Op × ℤ}
    (hi : Current e.host root t.agent ∧ ∀ r ∈ t.reports, r.Honest)
    (ht : Tracked e root t.agent a) (hstep : logged e root t a = some t') :
    Current e.host root t'.agent ∧ ∀ r ∈ t'.reports, r.Honest := by
  obtain ⟨hs, hr⟩ := hi
  obtain ⟨hcurrent, hfailed⟩ := current_step hs ht
  obtain rfl := Option.some.inj hstep
  refine ⟨hcurrent, fun r hmem => ?_⟩
  rcases List.mem_append.mp hmem with hmem | hmem
  · exact hr r hmem
  · rw [List.mem_singleton.mp hmem]
    exact hfailed

/-- What the parser makes of two texts. -/
def pythonHost : Host where
  cwd := "/"
  cwd_abs := Posix.isabs_root
  workerRoot := "/testbed"
  maxFileBytes := 100
  maxTotalBytes := 1000
  parse := fun text =>
    .names (if text = "class A: pass\n" then ["A"] else if text = "class B: pass\n" then ["B"]
      else []) []
  regex := fun _ => none
  sha256 := id

/-- A diff that deletes the file. -/
def deletion : String :=
  "diff --git a/a.py b/a.py\ndeleted file mode 100644\n--- a/a.py\n+++ /dev/null\n" ++
    "@@ -1 +0,0 @@\n-class A: pass\n"

/-- The root with nothing in it. -/
def emptied : Files where
  names := .empty
  dirs := ["/", "/r"]
  inode := fun _ => ⟨[], 0⟩
  next := 0
  named_lt := fun _ _ h => by simp at h
  apart := fun _ _ => rfl

/-- The root with one file. -/
def onlyA : Files where
  names := Dict.empty.set "/r/a.py" 0
  dirs := ["/", "/r"]
  inode := fun _ => ⟨Utf8.encode "class A: pass\n", 0⟩
  next := 1
  named_lt := by
    intro p i h
    rw [Dict.find?_set] at h
    split_ifs at h
    · exact Option.some.inj h ▸ Nat.one_pos
    · simp at h
  apart := by decide

/-- What `git` does with the diff. -/
def gitTools : Tools where
  host := pythonHost
  gitApply := fun fs root strip patch =>
    if (fs.file? "/r/a.py").map (·.bytes) = some (Utf8.encode "class A: pass\n") ∧ root = "/r" ∧
        strip = true ∧ patch = deletion then
      some emptied
    else none
  digest := fun _ => ""
  takes := fun _ => true

/-- The walk finds these names in the root. -/
def filenames (names : List String) (root : String) : Option Dir :=
  if root = "/r" then some (.mk names []) else none

theorem readInode_pythonHost (i : Inode) (rel : String) :
    readInode pythonHost i rel ≠ .raises := by
  rw [readInode]
  split_ifs <;> simp [extractPythonSymbols, pythonHost]

/-- A root with the one file. -/
theorem fits_oneFile {fs : Files} (hnames : fs.names = onlyA.names) (hroot : "/r" ∈ fs.dirs)
    (hsize : (fs.inode 0).bytes.length ≤ 1000) : Fits pythonHost "/r" fs where
  total := by
    rw [weigh, hnames, show onlyA.names.entries = [("/r/a.py", 0)] from rfl,
      List.filter_cons_of_pos (by decide +kernel)]
    simpa [pythonHost] using hsize
  parses := fun _ i _ _ _ => readInode_pythonHost i _
  root := (show abspath pythonHost.cwd "/r" = "/r" by decide +kernel) ▸ hroot

theorem eq_of_onlyA {p : String} {i : ℕ} (hi : onlyA.names.find? p = some i) : p = "/r/a.py" := by
  by_contra hne
  rw [show onlyA.names = Dict.empty.set "/r/a.py" 0 from rfl, Dict.find?_set_of_ne _ _ hne] at hi
  simp at hi

theorem lists_oneFile {fs : Files} (hnames : fs.names = onlyA.names) :
    Lists pythonHost "/r" fs (filenames ["a.py"]) [["a.py"]] where
  walk := by
    have hdir : (tree pythonHost.cwd fs (filenames ["a.py"])).dir "/r" = some (.mk ["a.py"] []) := by
      simp only [tree, filenames, if_true]
    rw [walked, hdir]
    decide +kernel
  nodup := List.nodup_singleton _
  names := by
    intro l hl
    rw [List.mem_singleton.mp hl]
    exact ⟨by decide +kernel, by decide⟩
  files := by
    intro l hl
    rw [List.mem_singleton.mp hl, Files.file?, hnames]
    have hfind : (onlyA.names.find? (place pythonHost.cwd "/r" ["a.py"])).isSome = true := by
      decide +kernel
    simpa using hfind
  complete := by
    intro l hl _ hfile _
    rw [Files.file?, hnames, Option.isSome_map] at hfile
    obtain ⟨i, hi⟩ := Option.isSome_iff_exists.mp hfile
    have hsame : place pythonHost.cwd "/r" ["a.py"] = "/r/a.py" := by decide +kernel
    rw [place_inj pythonHost.cwd_abs hl (by decide +kernel) ((eq_of_onlyA hi).trans hsame.symm)]
    exact List.mem_singleton_self _

/-- The agent after a build of the one file. -/
def builtA : Agent :=
  ⟨onlyA, (workerIndexBuild pythonHost (tree pythonHost.cwd onlyA (filenames ["a.py"]))
    (some "/r")).1⟩

theorem build_onlyA : workerIndexBuild pythonHost (tree pythonHost.cwd onlyA (filenames ["a.py"]))
    (some "/r") = (builtA.index, .done) :=
  Prod.ext rfl (by decide +kernel)

/-- The class in the file becomes another one. -/
def rewrite : Op := .writeFile (some "a.py") (.str "class B: pass\n")

/-- What the write leaves. -/
theorem rewrite_spec : ∃ fs targets, builtA.edit gitTools "/r" 1 rewrite = .edited fs targets ∧
    targets = [.written "a.py"] ∧ fs.names = onlyA.names ∧ Fits pythonHost "/r" fs := by
  have hchecked : (match builtA.edit gitTools "/r" 1 rewrite with
      | .edited fs _ => decide ((fs.inode 0).bytes.length ≤ 1000)
      | _ => false) = true := by decide +kernel
  have hresolved : rewrite.file.bind (builtA.resolveRel gitTools "/r") =
      some ("/r/a.py", "a.py") := by decide +kernel
  have hwrite : ∀ diff v, rewrite ≠ .applyRecordedDiff diff v := fun _ _ h => by cases h
  obtain hno | ⟨full, rel, hfile, hwrote⟩ := edit_write gitTools "/r" builtA 1 hwrite
  · rw [hno] at hchecked
    cases hchecked
  obtain ⟨rfl, rfl⟩ := Prod.mk.inj (Option.some.inj (hfile.symm.trans hresolved))
  cases hedit : builtA.edit gitTools "/r" 1 rewrite with
  | refused fs => rw [hedit] at hchecked; cases hchecked
  | broken fs => rw [hedit] at hchecked; cases hchecked
  | edited fs targets =>
    rw [hedit] at hchecked hwrote
    obtain ⟨rfl, fs₁, f, hsame, hput⟩ := hwrote
    obtain ⟨-, hdirs, hput⟩ := Files.put_eq_some hput
    have hnames : fs.names = onlyA.names := by
      rcases hput with ⟨i, -, hnames, -⟩ | ⟨hnone, -⟩
      · exact hnames.trans hsame.names
      · rw [hsame.names] at hnone
        exact absurd hnone (by decide +kernel)
    exact ⟨fs, _, rfl, rfl, hnames, fits_oneFile hnames
      (hdirs ▸ hsame.dirs _ (by decide)) (by simpa using hchecked)⟩

end Index

end DeltaBox
