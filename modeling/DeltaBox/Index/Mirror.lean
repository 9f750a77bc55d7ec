import DeltaBox.Index.Isolation
import DeltaBox.Index.Worker
import DeltaBox.Lib.Machine

/-!
# The sidecar and the agent's index side by side

The two implementations get the same builds and refreshes on the same trees. Their tables stay the
same, in the same order, as long as a refreshed path resolves to itself: the sidecar resolves it
once more, and the agent does not. Their reports part on the total: the sidecar computes it again at
a refresh, and the agent leaves it as the build found it.

## Main definitions

* `own` — a refreshed path resolves to itself
* `steady` — and the refresh leaves the sum of the sizes as the total has it

## Main results

* `sidecar_mirrors` — the answers agree in the first kind of run, the reports in the second
* `stale_total` — a file grows by a byte, and the reports differ
-/

namespace DeltaBox

namespace Index

open Posix Machine

variable {h : Host} {t : Tree} {x y : State} {path root rel full : String}

/-! ### Alike tables -/

/-- The same tables. The total may differ, and `y` may be loaded alone. -/
structure Alike (y x : State) : Prop where
  root : y.root = x.root
  files : y.files = x.files
  classes : y.classes = x.classes
  functions : y.functions = x.functions
  truncated : y.truncated = x.truncated
  loaded : x.loaded = true → y.loaded = true

theorem Alike.refl (x : State) : Alike x x := ⟨rfl, rfl, rfl, rfl, rfl, id⟩

theorem Alike.remove (h : Alike y x) (rel : String) : Alike (y.remove rel) (x.remove rel) := by
  unfold State.remove
  rw [h.files]
  cases x.files.find? rel with
  | none => exact h
  | some e =>
    exact ⟨h.root, rfl, by simp only [h.classes], by simp only [h.functions], h.truncated, h.loaded⟩

theorem Alike.insert (h : Alike y x) (e : Entry) : Alike (y.insert e) (x.insert e) := by
  have h' := h.remove e.path
  unfold State.insert
  exact ⟨h'.root, by simp only [h'.files], by simp only [h'.classes], by simp only [h'.functions],
    h'.truncated, fun _ => rfl⟩

theorem Alike.recompute (h : Alike y x) : Alike y.recompute x :=
  ⟨h.root, h.files, h.classes, h.functions, h.truncated, fun _ => rfl⟩

theorem Alike.replaceFile (hxy : Alike y x) (h : Host) (t : Tree) (full rel root : String) :
    Alike (y.replaceFile h t full rel root).1 (x.replaceFile h t full rel root).1 ∧
    (y.replaceFile h t full rel root).2 = (x.replaceFile h t full rel root).2 := by
  unfold State.replaceFile
  cases if t.pathExists full = true then readEntry h t full root else Reading.nothing with
  | raises => exact ⟨hxy.remove rel, rfl⟩
  | nothing => exact ⟨hxy.remove rel, rfl⟩
  | entry e => exact ⟨(hxy.remove rel).insert e, rfl⟩

/-! ### The sum of the sizes -/

/-- The size of an indexed file. -/
def State.sizeOf (x : State) (rel : String) : ℕ := ((x.files.find? rel).map (·.size)).getD 0

theorem bytes_remove (x : State) (rel : String) : (x.remove rel).bytes + x.sizeOf rel = x.bytes := by
  unfold State.remove State.sizeOf
  cases hfind : x.files.find? rel with
  | none => rfl
  | some e =>
    have hperm := (Dict.perm_erase hfind).map fun p => p.2.size
    have hsum := hperm.sum_nat
    simp only [List.map_cons, List.sum_cons] at hsum
    simp only [State.bytes, Dict.values, List.map_map]
    rw [show ((fun e : Entry => e.size) ∘ Prod.snd : String × Entry → ℕ) = fun p => p.2.size from rfl,
      hsum]
    exact Nat.add_comm _ _

theorem find?_remove_self (x : State) (rel : String) : (x.remove rel).files.find? rel = none := by
  unfold State.remove
  cases hfind : x.files.find? rel with
  | none => exact hfind
  | some e => exact Dict.find?_erase_self _ _

theorem bytes_insert {e : Entry} (hnone : x.files.find? e.path = none) :
    (x.insert e).bytes = x.bytes + e.size := by
  unfold State.insert
  rw [State.remove_absent hnone]
  simp [State.bytes, Dict.values, Dict.entries_set_of_none e hnone]

theorem path_of_readEntry {e : Entry} (he : readEntry h t path root = .entry e) :
    e.path = relpath h.cwd path root := by
  unfold readEntry at he
  cases hst : t.stat path with
  | none => simp only [hst, reduceCtorEq] at he
  | some st =>
    simp only [hst] at he
    by_cases hbig : (!st.isFile) = true ∨ h.maxFileBytes < st.size
    · simp only [if_pos hbig, reduceCtorEq] at he
    rw [if_neg hbig] at he
    by_cases hskip : indexShouldSkip (relpath h.cwd path root) = true
    · simp only [if_pos hskip, reduceCtorEq] at he
    rw [if_neg hskip] at he
    cases hread : t.read path with
    | none => simp only [hread, reduceCtorEq] at he
    | some text =>
      simp only [hread] at he
      cases hnames : (if endswith (relpath h.cwd path root) ".py" = true then
          extractPythonSymbols h text else some ([], [])) with
      | none => simp only [hnames, reduceCtorEq] at he
      | some names =>
        simp only [hnames, Reading.entry.injEq] at he
        rw [← he]

/-! ### Both -/

/-- An update, for both. -/
inductive Update where
  | build (root : String)
  | refreshPath (path root : String)

/-- The two implementations. -/
structure Both where
  sidecar : Sidecar
  worker : State

/-- Both at their start. -/
def Both.start : Both := ⟨Sidecar.start, State.unloaded⟩

/-- An update of both on one tree. -/
def updateBoth (h : Host) (b : Both) (u : Tree × Update) : Option Both :=
  match u.2 with
  | .build root =>
    some ⟨(build h u.1 b.sidecar (orDefault (some root) "/testbed")).1,
      (workerIndexBuild h u.1 (some root)).1⟩
  | .refreshPath path root =>
    some ⟨(refreshPath h u.1 b.sidecar path (some root)).1,
      (workerIndexRefreshPath h u.1 b.worker path root).1⟩

/-- Does a path resolve to itself, or to nothing? -/
def resolvesToItself (h : Host) (t : Tree) (x : State) (path root : String) : Bool :=
  resolve h t x.files path root =
    (absPath h root path).map fun full => (full, relpath h.cwd full (abspath h.cwd root))

/-- Does the total have the sum of the sizes that a refresh of this file leaves? -/
def balancedFile (h : Host) (t : Tree) (x : State) (full rel root : String) : Bool :=
  match if t.pathExists full then readEntry h t full root else .nothing with
  | .raises => true
  | .nothing => x.totalBytes + x.sizeOf rel = x.bytes
  | .entry e => x.totalBytes + x.sizeOf rel = x.bytes + e.size

/-- The same for a path. -/
def balanced (h : Host) (t : Tree) (x : State) (path root : String) : Bool :=
  match absPath h root path with
  | none => true
  | some full => balancedFile h t x full (relpath h.cwd full (abspath h.cwd root)) root

/-- The root is given, and a refreshed path resolves to itself. -/
def own (h : Host) (b : Both) (u : Tree × Update) : Bool :=
  match u.2 with
  | .build root => root ≠ ""
  | .refreshPath path root => root ≠ "" && resolvesToItself h u.1 b.worker path root

/-- Moreover the index is loaded at a refresh, and the total has the sizes after it. -/
def steady (h : Host) (b : Both) (u : Tree × Update) : Bool :=
  own h b u &&
    match u.2 with
    | .build _ => true
    | .refreshPath path root => b.worker.loaded && balanced h u.1 b.worker path root

theorem orDefault_some (hroot : root ≠ "") (d : String) : orDefault (some root) d = root := by
  unfold orDefault
  split
  next heq => cases heq
  next heq => exact absurd (Option.some.inj heq) hroot
  next heq => exact (Option.some.inj heq).symm

/-- What a refresh of a path that resolves to itself does to alike tables. -/
theorem Alike.refresh (hxy : Alike y x) (hroot : root ≠ "")
    (hown : resolvesToItself h t x path root = true) :
    Alike (y.refreshPath h t path (some root)).1 (workerIndexRefreshPath h t x path root).1 ∧
    (y.refreshPath h t path (some root)).2 = (workerIndexRefreshPath h t x path root).2 := by
  have hres := of_decide_eq_true hown
  unfold State.refreshPath workerIndexRefreshPath
  dsimp only
  rw [orDefault_some hroot, hxy.files, hres]
  cases absPath h root path with
  | none => exact ⟨hxy, rfl⟩
  | some full =>
    dsimp only [Option.map_some]
    obtain ⟨halike, hended⟩ := hxy.replaceFile h t full (relpath h.cwd full (abspath h.cwd root)) root
    rcases hy : y.replaceFile h t full (relpath h.cwd full (abspath h.cwd root)) root with ⟨y', ended⟩
    rw [hy] at halike hended
    dsimp only at halike hended ⊢
    rw [← hended]
    cases ended with
    | raised => exact ⟨halike, rfl⟩
    | done => exact ⟨halike.recompute, rfl⟩
    | missing => exact ⟨halike.recompute, rfl⟩

theorem State.loaded_remove (x : State) (rel : String) : (x.remove rel).loaded = x.loaded := by
  unfold State.remove
  split <;> rfl

theorem State.totalBytes_remove (x : State) (rel : String) :
    (x.remove rel).totalBytes = x.totalBytes := by
  unfold State.remove
  split <;> rfl

theorem recompute_eq_self (hloaded : x.loaded = true) (htotal : x.totalBytes = x.bytes) :
    x.recompute = x := by
  unfold State.recompute
  rw [← hloaded, ← htotal]

/-- After a balanced refresh the sum of the sizes is the total. -/
theorem recompute_replaceFile (hrel : relpath h.cwd full root = rel) (hloaded : x.loaded = true)
    (hbal : balancedFile h t x full rel root = true)
    (hdone : (x.replaceFile h t full rel root).2 ≠ .raised) :
    (x.replaceFile h t full rel root).1.recompute = (x.replaceFile h t full rel root).1 := by
  have hbytes := bytes_remove x rel
  have hnone := find?_remove_self x rel
  have htb := x.totalBytes_remove rel
  unfold balancedFile at hbal
  unfold State.replaceFile at hdone ⊢
  cases hread : (if t.pathExists full = true then readEntry h t full root else Reading.nothing) with
  | raises =>
    rw [hread] at hdone
    exact absurd rfl hdone
  | nothing =>
    rw [hread] at hbal
    have htotal := of_decide_eq_true hbal
    exact recompute_eq_self ((x.loaded_remove rel).trans hloaded)
      (htb.trans (Nat.add_right_cancel (htotal.trans hbytes.symm)))
  | entry e =>
    rw [hread] at hbal
    have htotal := of_decide_eq_true hbal
    have hpath : e.path = rel := by
      by_cases hexists : t.pathExists full = true
      · rw [if_pos hexists] at hread
        exact (path_of_readEntry hread).trans hrel
      · rw [if_neg hexists] at hread
        cases hread
    rw [← hpath] at hnone hbytes htb htotal ⊢
    have hinsert := bytes_insert hnone
    have hkeep : ((x.remove e.path).insert e).totalBytes = x.totalBytes ∧
        ((x.remove e.path).insert e).loaded = true := by
      unfold State.insert
      rw [State.remove_absent hnone]
      exact ⟨htb, rfl⟩
    refine recompute_eq_self hkeep.2 (hkeep.1.trans ?_)
    rw [hinsert]
    refine Nat.add_right_cancel (htotal.trans ?_)
    rw [← hbytes, Nat.add_right_comm]

/-! ### Runs -/

variable {b b' : Both} {u : Tree × Update}

/-- What a build makes of the two indexes. -/
theorem updateBoth_build (hb : b.sidecar.Sound)
    (hs : updateBoth h b (t, .build root) = some b') :
    b'.sidecar.Sound ∧
    b'.sidecar.index = (State.built (State.walk h t (orDefault (some root) "/testbed"))).1 ∧
    b'.worker = (workerIndexBuild h t (some root)).1 := by
  obtain rfl := Option.some.inj hs
  obtain ⟨hchange, hindex⟩ := build_spec h t b.sidecar (orDefault (some root) "/testbed")
  exact ⟨(hb.change hchange).1, congrArg Prod.fst hindex, rfl⟩

/-- What a refresh makes of the two indexes. -/
theorem updateBoth_refresh (hb : b.sidecar.Sound)
    (hs : updateBoth h b (t, .refreshPath path root) = some b') :
    b'.sidecar.Sound ∧
    b'.sidecar.index = (b.sidecar.index.refreshPath h t path (some root)).1 ∧
    b'.worker = (workerIndexRefreshPath h t b.worker path root).1 := by
  obtain rfl := Option.some.inj hs
  obtain ⟨hchange, hindex⟩ := refreshPath_spec hb.live h t path (some root)
  exact ⟨(hb.change hchange).1, congrArg Prod.fst hindex, rfl⟩

/-- An update of alike tables, when a refreshed path resolves to itself. -/
theorem updateBoth_own (hb : b.sidecar.Sound ∧ Alike b.sidecar.index b.worker)
    (ho : own h b u = true) (hs : updateBoth h b u = some b') :
    b'.sidecar.Sound ∧ Alike b'.sidecar.index b'.worker := by
  obtain ⟨tree, update⟩ := u
  cases update with
  | build root =>
    obtain ⟨hsound, hindex, hworker⟩ := updateBoth_build hb.1 hs
    have hroot : root ≠ "" := of_decide_eq_true ho
    refine ⟨hsound, ?_⟩
    rw [hindex, hworker, workerIndexBuild, orDefault_some hroot, orDefault_some hroot]
    exact .refl _
  | refreshPath path root =>
    obtain ⟨hsound, hindex, hworker⟩ := updateBoth_refresh hb.1 hs
    simp only [own, Bool.and_eq_true, decide_eq_true_eq] at ho
    refine ⟨hsound, ?_⟩
    rw [hindex, hworker]
    exact (hb.2.refresh ho.1 ho.2).1

/-- A refresh of a path that does not escape, as a refresh of its file. -/
theorem workerRefresh_of_some (hfull : absPath h root path = some full) :
    workerIndexRefreshPath h t x path root =
      x.replaceFile h t full (relpath h.cwd full (abspath h.cwd root)) root := by
  rw [workerIndexRefreshPath, hfull]

theorem refresh_of_some (hroot : root ≠ "")
    (hres : resolve h t x.files path root = some (full, rel)) :
    (x.refreshPath h t path (some root)).1 =
      if (x.replaceFile h t full rel root).2 = .raised then (x.replaceFile h t full rel root).1
      else (x.replaceFile h t full rel root).1.recompute := by
  unfold State.refreshPath
  dsimp only
  rw [orDefault_some hroot, hres]
  dsimp only
  rcases x.replaceFile h t full rel root with ⟨y, ended⟩
  cases ended <;> rfl

/-- A refresh that leaves the total right. -/
theorem refresh_steady (hroot : root ≠ "") (hown : resolvesToItself h t x path root = true)
    (hloaded : x.loaded = true) (hbal : balanced h t x path root = true) :
    (x.refreshPath h t path (some root)).1 = (workerIndexRefreshPath h t x path root).1 := by
  have hres := of_decide_eq_true hown
  cases hfull : absPath h root path with
  | none =>
    rw [hfull, Option.map_none] at hres
    simp only [State.refreshPath, workerIndexRefreshPath, orDefault_some hroot, hres, hfull]
  | some full =>
    rw [hfull, Option.map_some] at hres
    have hbal' : balancedFile h t x full (relpath h.cwd full (abspath h.cwd root)) root = true := by
      simpa only [balanced, hfull] using hbal
    rw [workerRefresh_of_some hfull, refresh_of_some hroot hres]
    split_ifs with hraised
    · rfl
    · exact recompute_replaceFile (relpath_abspath h.cwd_abs full root).symm hloaded hbal' hraised

/-- An update of equal indexes, when the total stays right. -/
theorem updateBoth_steady (hb : b.sidecar.Sound ∧ b.sidecar.index = b.worker)
    (hst : steady h b u = true) (hs : updateBoth h b u = some b') :
    b'.sidecar.Sound ∧ b'.sidecar.index = b'.worker := by
  obtain ⟨tree, update⟩ := u
  cases update with
  | build root =>
    obtain ⟨hsound, hindex, hworker⟩ := updateBoth_build hb.1 hs
    simp only [steady, own, Bool.and_true, decide_eq_true_eq] at hst
    refine ⟨hsound, ?_⟩
    rw [hindex, hworker, workerIndexBuild, orDefault_some hst, orDefault_some hst]
  | refreshPath path root =>
    obtain ⟨hsound, hindex, hworker⟩ := updateBoth_refresh hb.1 hs
    simp only [steady, own, Bool.and_eq_true, decide_eq_true_eq] at hst
    obtain ⟨⟨hroot, hown⟩, hloaded, hbal⟩ := hst
    refine ⟨hsound, ?_⟩
    rw [hindex, hworker, hb.2]
    exact refresh_steady hroot hown hloaded hbal

/-- A query about what the tables hold. A path is resolved below a given root. -/
def Query.plain : Query → Bool
  | .resolveRel _ _ root => root ≠ ""
  | .status => false
  | _ => true

/-- A search of all files. -/
theorem matchPaths_all (x : State) (p : Option String) :
    x.matchPaths (some (orDefault p "**/*")) = x.matchPaths p := by
  have hall : x.matchPaths (some "**/*") = x.files.keys := by
    simp [State.matchPaths, fnmatch_rooted]
  unfold orDefault
  split
  · exact hall
  · exact hall
  · rfl

/-- Alike tables answer alike. -/
theorem Alike.answer {s : Sidecar} (hxy : Alike s.index x) {q : Query} (hq : q.plain = true) :
    answer h s q = workerAnswer h x q := by
  have hpaths : ∀ p, s.index.matchPaths p = x.matchPaths p := fun p => by
    simp only [State.matchPaths, hxy.files]
  cases q with
  | resolveRel t path root =>
    have hroot : root ≠ "" := of_decide_eq_true hq
    simp only [Index.answer, workerAnswer, workerResolveRel, orDefault_some hroot, hxy.files]
  | matchPaths p => simp only [Index.answer, workerAnswer, hpaths]
  | hasFile rel => simp only [Index.answer, workerAnswer, State.hasFile, hxy.files]
  | grep pattern p =>
    simp only [Index.answer, workerAnswer, hpaths, matchPaths_all, State.grepIn, hxy.files]
  | findSymbol name kind p =>
    simp only [Index.answer, workerAnswer, State.findSymbol, hpaths, hxy.classes, hxy.functions]
  | status => cases hq

/-- The counts of two reports are the same, and the mark of a build that stopped. -/
structure SameCounts (a b : Status) : Prop where
  nFiles : a.nFiles = b.nFiles
  nClasses : a.nClasses = b.nClasses
  nFunctions : a.nFunctions = b.nFunctions
  truncated : a.truncated = b.truncated

/-- The fingerprints too. -/
structure SameDigests (a b : Status) : Prop where
  fingerprint : a.fingerprint = b.fingerprint
  metadataFingerprint : a.metadataFingerprint = b.metadataFingerprint

/-- **The sidecar mirrors the agent's index.** Take any builds and refreshes on any trees. If each
refreshed path resolves to itself, all queries about the tables have the same answers, the counts
are the same, and so are the fingerprints once the agent's index is loaded. If moreover each
refresh finds a loaded index, and the total has the sum of the sizes that it leaves, the whole
reports agree. -/
theorem sidecar_mirrors (h : Host) (updates : List (Tree × Update)) (b : Both)
    (hrun : exec (updateBoth h) Both.start updates = some b) :
    (Along (updateBoth h) (fun b u => own h b u = true) Both.start updates →
      (∀ q : Query, q.plain = true → answer h b.sidecar q = workerAnswer h b.worker q) ∧
      SameCounts (b.sidecar.index.status h "/testbed") (b.worker.status h h.workerRoot) ∧
      (b.worker.loaded = true →
        SameDigests (b.sidecar.index.status h "/testbed") (b.worker.status h h.workerRoot))) ∧
    (Along (updateBoth h) (fun b u => steady h b u = true) Both.start updates →
      SameCounts (b.sidecar.index.status h "/testbed") (b.worker.status h h.workerRoot) ∧
      SameDigests (b.sidecar.index.status h "/testbed") (b.worker.status h h.workerRoot) ∧
      (b.sidecar.index.status h "/testbed").totalBytes =
        (b.worker.status h h.workerRoot).totalBytes) := by
  have hstart : Both.start.sidecar.index = Both.start.worker := rfl
  refine ⟨fun hown => ?_, fun hsteady => ?_⟩
  · obtain ⟨-, halike⟩ := invariant_along
      (I := fun b => b.sidecar.Sound ∧ Alike b.sidecar.index b.worker)
      (fun hb ho hs => updateBoth_own hb ho hs) ⟨Sidecar.Sound.start, hstart ▸ .refl _⟩ hown hrun
    refine ⟨fun q hq => halike.answer hq, ⟨?_, ?_, ?_, halike.truncated⟩, fun hloaded => ?_⟩
    · simp only [State.status, halike.files]
    · simp only [State.status, halike.classes]
    · simp only [State.status, halike.functions]
    · have hboth := halike.loaded hloaded
      constructor <;> simp only [State.status, State.digest, hloaded, hboth, halike.files]
  · obtain ⟨-, hsame⟩ := invariant_along
      (I := fun b => b.sidecar.Sound ∧ b.sidecar.index = b.worker)
      (fun hb ho hs => updateBoth_steady hb ho hs) ⟨Sidecar.Sound.start, hstart⟩ hsteady hrun
    rw [hsame]
    exact ⟨⟨rfl, rfl, rfl, rfl⟩, ⟨rfl, rfl⟩, rfl⟩

/-! ### A file that is edited -/

/-- A build, a write, and a refresh of what the path resolves to. -/
def edited (before after : String) : List (Tree × Update) :=
  [(oneFile before, .build "/r"), (oneFile after, .refreshPath "a.py" "/r")]

/-- The file has the same size after the write. -/
theorem sidecar_mirrors_sameSize :
    ∃ b, exec (updateBoth oneClass) Both.start (edited "A" "B") = some b ∧
      (∀ q : Query, q.plain = true → answer oneClass b.sidecar q = workerAnswer oneClass b.worker q) ∧
      (b.sidecar.index.status oneClass "/testbed").totalBytes =
        (b.worker.status oneClass oneClass.workerRoot).totalBytes := by
  have hsome : (exec (updateBoth oneClass) Both.start (edited "A" "B")).isSome = true := by
    decide +kernel
  obtain ⟨b, hb⟩ := Option.isSome_iff_exists.mp hsome
  have hmirror := sidecar_mirrors oneClass (edited "A" "B") b hb
  exact ⟨b, hb, (hmirror.1 (by decide +kernel)).1, (hmirror.2 (by decide +kernel)).2.2⟩

/-- **The total of the agent is stale.** The file grows by one byte, and is refreshed under the path
that it resolves to. The sidecar counts two bytes, and the agent one. -/
theorem stale_total :
    ∃ b, exec (updateBoth oneClass) Both.start (edited "A" "AB") = some b ∧
      Along (updateBoth oneClass) (fun b u => own oneClass b u = true) Both.start
        (edited "A" "AB") ∧
      workerAnswer oneClass b.worker (.resolveRel (oneFile "AB") "a.py" "/r") =
        .resolved (some ("/r/a.py", "a.py")) ∧
      (b.sidecar.index.status oneClass "/testbed").totalBytes = 2 ∧
      (b.worker.status oneClass oneClass.workerRoot).totalBytes = 1 := by
  have hrun : (exec (updateBoth oneClass) Both.start (edited "A" "AB")).map (fun b =>
      (workerAnswer oneClass b.worker (.resolveRel (oneFile "AB") "a.py" "/r"),
        b.sidecar.index.totalBytes, b.worker.totalBytes)) =
      some (.resolved (some ("/r/a.py", "a.py")), 2, 1) := by decide +kernel
  obtain ⟨b, hb, hvalues⟩ := Option.map_eq_some_iff.mp hrun
  obtain ⟨hres, htotals⟩ := Prod.mk.inj hvalues
  obtain ⟨hsidecar, hworker⟩ := Prod.mk.inj htotals
  exact ⟨b, hb, by decide +kernel, hres, hsidecar, hworker⟩

end Index

end DeltaBox
