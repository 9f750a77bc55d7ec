import DeltaBox.Index.Edits
import DeltaBox.Index.Mirror
import DeltaBox.Lib.Below

/-!
# What a fresh index has

A build goes through the files in the order of the walk, and adds each to the tables. What is in the
tables afterwards does not depend on the order: for each path the entry its file has now, and for
each name as many rows of a path as the entry of the path has the name.

## Main definitions

* `Counted` — the rows of a table are those of the files
* `entryAt` — the entry a path has in a fresh index
* `Represents` — an index that has all of these
* `Lists` — a listing of the files below the root, as a walk finds them

## Main results

* `build_represents` — a build leaves such an index
* `Represents.same` — two of them have the same entries and the same rows
-/

namespace DeltaBox

namespace Index

open Posix

/-! ### The rows of a table -/

section

variable {table : Dict String (List String)} {files : Dict String Entry} {rel name : String}
  {names : Entry → List String}

/-- The rows of a name. -/
def rowsIn (table : Dict String (List String)) (name : String) : List String :=
  (table.find? name).getD []

/-- Each name has as many rows of a path as the entry of the path has the name. -/
def Counted (table : Dict String (List String)) (files : Dict String Entry)
    (names : Entry → List String) : Prop :=
  ∀ name rel, (rowsIn table name).count rel = (((files.find? rel).map names).getD []).count name

theorem rowsIn_dropRows (n : String) :
    rowsIn (dropRows rel table n) name =
      if name = n then (rowsIn table name).filter (· ≠ rel) else rowsIn table name := by
  rw [rowsIn, dropRows]
  by_cases hn : name = n
  · subst hn
    rw [if_pos rfl]
    split_ifs with hrows
    · rw [Dict.find?_erase_self, Option.getD_none]
      exact hrows.symm
    · rw [Dict.find?_set_self, Option.getD_some]
      rfl
  · rw [if_neg hn]
    split_ifs
    · rw [Dict.find?_erase, if_neg hn, rowsIn]
    · rw [Dict.find?_set_of_ne _ _ hn, rowsIn]

theorem rowsIn_foldl_dropRows (l : List String) :
    rowsIn (l.foldl (dropRows rel) table) name =
      if name ∈ l then (rowsIn table name).filter (· ≠ rel) else rowsIn table name := by
  induction l generalizing table with
  | nil => simp
  | cons n l ih =>
    rw [List.foldl_cons, ih, rowsIn_dropRows]
    by_cases hn : name = n
    · by_cases hl : name ∈ l
      · simp [hn, hn ▸ hl]
      · simp [hn, hn ▸ hl]
    · simp [hn]

theorem rowsIn_pushRow (n : String) :
    rowsIn (pushRow rel table n) name =
      if name = n then rowsIn table name ++ [rel] else rowsIn table name := by
  rw [rowsIn, pushRow, Dict.find?_set]
  split_ifs with hn
  · rw [hn]
    rfl
  · rfl

theorem count_foldl_pushRow (l : List String) (r : String) :
    (rowsIn (l.foldl (pushRow rel) table) name).count r =
      (rowsIn table name).count r + if r = rel then l.count name else 0 := by
  induction l generalizing table with
  | nil => simp
  | cons n l ih =>
    rw [List.foldl_cons, ih, rowsIn_pushRow]
    by_cases hn : name = n
    · by_cases hr : r = rel
      · simp [hn, hr]
        omega
      · simp [hn, hr, Ne.symm hr]
    · simp [hn, Ne.symm hn]

theorem Counted.remove {e : Entry} (h : Counted table files names)
    (he : files.find? rel = some e) :
    Counted ((names e).foldl (dropRows rel) table) (files.erase rel) names := by
  intro name r
  rw [rowsIn_foldl_dropRows, Dict.find?_erase]
  have hold := h name r
  by_cases hr : r = rel
  · subst hr
    rw [if_pos rfl, Option.map_none, Option.getD_none, List.count_nil]
    split_ifs with hmem
    · rw [List.count_eq_zero]
      intro hin
      simpa using (List.mem_filter.mp hin).2
    · rw [hold, he]
      exact List.count_eq_zero.mpr hmem
  · rw [if_neg hr, ← hold]
    split_ifs
    · exact List.count_filter (by simpa using hr)
    · rfl

theorem Counted.insert {e : Entry} (h : Counted table files names)
    (hnone : files.find? e.path = none) :
    Counted ((names e).foldl (pushRow e.path) table) (files.set e.path e) names := by
  intro name r
  rw [count_foldl_pushRow, Dict.find?_set, h name r]
  split_ifs with hr
  · rw [hr, hnone]
    simp
  · simp

end

/-! ### An index and its tables -/

variable {x y : State} {rel : String} {e : Entry}

/-- The rows of both tables are those of the files. -/
structure Tabled (x : State) : Prop where
  classes : Counted x.classes x.files Entry.classes
  functions : Counted x.functions x.files Entry.functions

theorem find?_remove (x : State) (rel r : String) :
    (x.remove rel).files.find? r = if r = rel then none else x.files.find? r := by
  rw [State.remove]
  split
  · rename_i hnone
    split_ifs with hr
    · rw [hr, hnone]
    · rfl
  · exact Dict.find?_erase ..

theorem find?_insert (x : State) (e : Entry) (r : String) :
    (x.insert e).files.find? r = if r = e.path then some e else x.files.find? r := by
  rw [State.insert]
  dsimp only
  rw [Dict.find?_set, find?_remove]
  split_ifs
  · rfl
  · rfl

theorem Tabled.remove (h : Tabled x) (rel : String) : Tabled (x.remove rel) := by
  rw [State.remove]
  split
  · exact h
  · rename_i e he
    exact ⟨h.classes.remove he, h.functions.remove he⟩

theorem Tabled.insert (h : Tabled x) (e : Entry) : Tabled (x.insert e) := by
  have hrem := h.remove e.path
  have hnone := find?_remove_self x e.path
  exact ⟨hrem.classes.insert hnone, hrem.functions.insert hnone⟩

theorem Tabled.fresh (root : String) : Tabled (State.fresh root) :=
  ⟨fun _ _ => rfl, fun _ _ => rfl⟩

/-- Two indexes with the same entries and, up to their order, the same rows. -/
structure Same (x y : State) : Prop where
  files : ∀ rel, x.files.find? rel = y.files.find? rel
  classes : ∀ name, (rowsIn x.classes name).Perm (rowsIn y.classes name)
  functions : ∀ name, (rowsIn x.functions name).Perm (rowsIn y.functions name)

theorem Tabled.same (h : Tabled x) (h' : Tabled y)
    (hfiles : ∀ rel, x.files.find? rel = y.files.find? rel) : Same x y where
  files := hfiles
  classes name := List.perm_iff_count.mpr fun r => by
    rw [h.classes name r, h'.classes name r, hfiles]
  functions name := List.perm_iff_count.mpr fun r => by
    rw [h.functions name r, h'.functions name r, hfiles]

/-! ### Entries one after the other -/

theorem foldl_insert_of_notMem (es : List Entry) (h : ∀ e ∈ es, e.path ≠ rel) :
    (es.foldl State.insert x).files.find? rel = x.files.find? rel := by
  induction es generalizing x with
  | nil => rfl
  | cons e es ih =>
    rw [List.foldl_cons, ih fun e' he' => h e' (List.mem_cons_of_mem _ he'), find?_insert,
      if_neg (h e List.mem_cons_self).symm]

theorem foldl_insert_of_mem {es : List Entry} (hnd : (es.map Entry.path).Nodup) (he : e ∈ es) :
    (es.foldl State.insert x).files.find? e.path = some e := by
  induction es generalizing x with
  | nil => cases he
  | cons a es ih =>
    obtain ⟨hnot, hnd⟩ := List.nodup_cons.mp hnd
    rw [List.foldl_cons]
    rcases List.mem_cons.mp he with rfl | he
    · rw [foldl_insert_of_notMem, find?_insert, if_pos rfl]
      exact fun e' he' heq => hnot (heq ▸ List.mem_map_of_mem he')
    · exact ih hnd he

theorem Tabled.foldl_insert (h : Tabled x) (es : List Entry) : Tabled (es.foldl State.insert x) := by
  induction es generalizing x with
  | nil => exact h
  | cons e es ih => exact ih (h.insert e)

/-! ### Reading the files -/

/-- What a refresh or a build reads from a file. -/
def readInode (h : Host) (i : Inode) (rel : String) : Reading :=
  if h.maxFileBytes < i.bytes.length ∨ indexShouldSkip rel then .nothing
  else
    match if endswith rel ".py" then extractPythonSymbols h (Utf8.ignoring i.bytes)
      else some ([], []) with
    | none => .raises
    | some (classes, functions) =>
      .entry ⟨rel, i.bytes.length, i.mtimeNs, h.sha256 (Utf8.ignoring i.bytes),
        Utf8.ignoring i.bytes, classes, functions⟩

variable {h : Host} {root : String} {fs fs' : Files} {dir : String → Option Dir}

theorem readEntry_tree (h : Host) (fs : Files) (dir : String → Option Dir) (p root : String) :
    readEntry h (tree h.cwd fs dir) p root =
      ((fs.file? (abspath h.cwd p)).map (readInode h · (relpath h.cwd p root))).getD .nothing := by
  unfold readEntry
  simp only [tree]
  rcases hfile : fs.file? (abspath h.cwd p) with _ | i
  · by_cases hd : abspath h.cwd p ∈ fs.dirs
    · simp [hd]
    · simp [hd]
  · simp only [Bool.not_true, Bool.false_eq_true, false_or, Option.map_some, readInode]
    by_cases hbig : h.maxFileBytes < i.bytes.length
    · simp [hbig]
    · by_cases hskip : indexShouldSkip (relpath h.cwd p root) = true
      · simp [hbig, hskip]
      · cases (if endswith (relpath h.cwd p root) ".py" = true then
            extractPythonSymbols h (Utf8.ignoring i.bytes) else some ([], [])) with
        | none => simp [hbig, hskip]
        | some found => simp [hbig, hskip]

/-- The entry a path has in a fresh index. -/
def entryAt (h : Host) (root : String) (fs : Files) (rel : String) : Option Entry :=
  if Names (split rel) then
    match (fs.file? (place h.cwd root (split rel))).map (readInode h · rel) with
    | some (.entry e) => some e
    | _ => none
  else none

theorem entry_of_readInode {i : Inode} {rel : String} {e : Entry}
    (he : readInode h i rel = .entry e) :
    e.path = rel ∧ e.size = i.bytes.length ∧ indexShouldSkip rel = false := by
  rw [readInode] at he
  by_cases hskip : h.maxFileBytes < i.bytes.length ∨ indexShouldSkip rel = true
  · rw [if_pos hskip] at he
    cases he
  · rw [if_neg hskip] at he
    split at he
    · cases he
    · obtain rfl := Reading.entry.inj he
      exact ⟨rfl, rfl, by simpa using fun hs => hskip (.inr hs)⟩

theorem split_names {l : List String} (hl : Names l) (hne : l ≠ []) :
    split ("/".intercalate l) = l := by
  rw [split_intercalate hl, if_neg hne]

/-- What is read under the path that a walk gives. -/
theorem readEntry_joined (h : Host) (fs : Files) (dir : String → Option Dir) {l : List String}
    (hl : Names l) (hne : l ≠ []) :
    readEntry h (tree h.cwd fs dir) (l.foldl join root) root =
      ((fs.file? (place h.cwd root l)).map (readInode h · ("/".intercalate l))).getD .nothing := by
  have hplace := @abspath_foldl_join _ root _ h.cwd_abs hl
  rw [readEntry_tree, hplace, relpath_place h.cwd_abs hl hplace, if_neg hne]

theorem entryAt_names {l : List String} (hl : Names l) (hne : l ≠ []) :
    entryAt h root fs ("/".intercalate l) =
      match (fs.file? (place h.cwd root l)).map (readInode h · ("/".intercalate l)) with
      | some (.entry e) => some e
      | _ => none := by
  rw [entryAt, split_names hl hne, if_pos hl]

/-- Only files matter. -/
theorem entryAt_congr (hfiles : ∀ p, fs'.file? p = fs.file? p) (rel : String) :
    entryAt h root fs' rel = entryAt h root fs rel := by
  rw [entryAt, entryAt, hfiles]

/-! ### What fits -/

/-- Does the file count for the size of the index? -/
def counts (h : Host) (root p : String) : Bool :=
  Names (split (relpath h.cwd p root)) ∧ ¬ indexShouldSkip (relpath h.cwd p root)

/-- The sizes of the files below the root that are not skipped. -/
def weigh (h : Host) (root : String) (fs : Files) : ℕ :=
  ((fs.names.entries.filter fun x => counts h root x.1).map fun x =>
    (fs.inode x.2).bytes.length).sum

/-- The files are below the limit, the parser raises on none of them, and the root is a
directory. -/
structure Fits (h : Host) (root : String) (fs : Files) : Prop where
  total : weigh h root fs ≤ h.maxTotalBytes
  parses : ∀ l i, Names l → l ≠ [] → fs.file? (place h.cwd root l) = some i →
    readInode h i ("/".intercalate l) ≠ .raises
  root : abspath h.cwd root ∈ fs.dirs

/-- A listing of the files below the root, each one as its names. A walk finds every file once, and
leaves out none that is not skipped. -/
structure Lists (h : Host) (root : String) (fs : Files) (dir : String → Option Dir)
    (ls : List (List String)) : Prop where
  walk : walked (tree h.cwd fs dir) root = ls.map fun l => l.foldl join root
  nodup : ls.Nodup
  names : ∀ l ∈ ls, Names l ∧ l ≠ []
  files : ∀ l ∈ ls, (fs.file? (place h.cwd root l)).isSome
  complete : ∀ l, Names l → l ≠ [] → (fs.file? (place h.cwd root l)).isSome →
    indexShouldSkip ("/".intercalate l) = false → l ∈ ls

/-- What a file adds to the size of the index. -/
def weight (h : Host) (root : String) (fs : Files) (l : List String) : ℕ :=
  if indexShouldSkip ("/".intercalate l) then 0
  else ((fs.file? (place h.cwd root l)).map (·.bytes.length)).getD 0

theorem intercalate_inj {l l' : List String} (hl : Names l) (hne : l ≠ []) (hl' : Names l')
    (hne' : l' ≠ []) (heq : "/".intercalate l = "/".intercalate l') : l = l' := by
  rw [← split_names hl hne, heq, split_names hl' hne']

/-- The listed files weigh no more than all of them. -/
theorem Lists.weight_le {ls : List (List String)} (hls : Lists h root fs dir ls) :
    (ls.map (weight h root fs)).sum ≤ weigh h root fs := by
  let counted := ls.filter fun l => !indexShouldSkip ("/".intercalate l)
  let pair : List String → String × ℕ := fun l =>
    (place h.cwd root l, (fs.names.find? (place h.cwd root l)).getD 0)
  have hsum : (ls.map (weight h root fs)).sum =
      ((counted.map pair).map fun x => (fs.inode x.2).bytes.length).sum := by
    have hall : ∀ ks : List (List String), (∀ l ∈ ks, l ∈ ls) →
        (ks.map (weight h root fs)).sum =
          (((ks.filter fun l => !indexShouldSkip ("/".intercalate l)).map pair).map fun x =>
            (fs.inode x.2).bytes.length).sum := by
      intro ks
      induction ks with
      | nil => exact fun _ => rfl
      | cons l ks ih =>
        intro hks
        have hrest := ih fun l' hl' => hks l' (List.mem_cons_of_mem _ hl')
        rw [List.map_cons, List.sum_cons, hrest]
        by_cases hskip : indexShouldSkip ("/".intercalate l) = true
        · rw [List.filter_cons_of_neg (by simp [hskip]), weight, if_pos hskip, Nat.zero_add]
        · rw [List.filter_cons_of_pos (by simp [hskip]), weight, if_neg hskip]
          obtain ⟨i, hi⟩ := Option.isSome_iff_exists.mp (hls.files l (hks l List.mem_cons_self))
          obtain ⟨j, hj, rfl⟩ := Option.map_eq_some_iff.mp hi
          simp [pair, hi, hj]
    exact hall ls fun _ hl => hl
  have hnd : (counted.map pair).Nodup := by
    refine List.Nodup.map_on (fun l hl l' hl' heq => ?_) (hls.nodup.filter _)
    exact place_inj h.cwd_abs (hls.names l (List.mem_of_mem_filter hl)).1
      (hls.names l' (List.mem_of_mem_filter hl')).1 (congrArg Prod.fst heq)
  have hsub : counted.map pair ⊆ fs.names.entries.filter fun x => counts h root x.1 := by
    intro x hx
    obtain ⟨l, hl, rfl⟩ := List.mem_map.mp hx
    obtain ⟨hmem, hskip⟩ := List.mem_filter.mp hl
    obtain ⟨hnames, hne⟩ := hls.names l hmem
    obtain ⟨i, hi⟩ := Option.isSome_iff_exists.mp (hls.files l hmem)
    obtain ⟨j, hj, rfl⟩ := Option.map_eq_some_iff.mp hi
    have hrel : relpath h.cwd (place h.cwd root l) root = "/".intercalate l := by
      rw [relpath_place h.cwd_abs hnames (abspath_place h.cwd_abs hnames), if_neg hne]
    refine List.mem_filter.mpr ⟨Dict.find?_eq_some_iff.mp (by simp [hj]), ?_⟩
    have hskip' : indexShouldSkip ("/".intercalate l) = false := by simpa using hskip
    simp [pair, counts, hrel, split_names hnames hne, hnames, hskip']
  obtain ⟨ks, hperm, hsublist⟩ := hnd.subperm hsub
  rw [hsum, weigh, ← (hperm.map _).sum_nat]
  exact (hsublist.map _).sum_le_sum fun _ _ => Nat.zero_le _

/-! ### A build -/

/-- The entry of a listed file. -/
def listed (h : Host) (root : String) (fs : Files) (l : List String) : Option Entry :=
  entryAt h root fs ("/".intercalate l)

/-- **A build of files that fit adds them one after the other.** -/
theorem buildFrom_eq {ls : List (List String)} (hls : ∀ l ∈ ls, Names l ∧ l ≠ [])
    (hparses : ∀ l ∈ ls, ∀ i, fs.file? (place h.cwd root l) = some i →
      readInode h i ("/".intercalate l) ≠ .raises)
    (trunc : State → State) (x : State) (total : ℕ)
    (hsum : total + (ls.map (weight h root fs)).sum ≤ h.maxTotalBytes) :
    ∃ n, buildFrom h (tree h.cwd fs dir) root State.insert trunc
      (ls.map fun l => l.foldl join root) x total =
        ⟨(ls.filterMap (listed h root fs)).foldl State.insert x, n, false⟩ := by
  induction ls generalizing x total with
  | nil => exact ⟨total, rfl⟩
  | cons l ls ih =>
    obtain ⟨hnames, hne⟩ := hls l List.mem_cons_self
    have hih := fun y n => ih (fun l' hl' => hls l' (List.mem_cons_of_mem _ hl'))
      (fun l' hl' => hparses l' (List.mem_cons_of_mem _ hl')) y n
    have hplace := @abspath_foldl_join _ root _ h.cwd_abs hnames
    have hrel : relpath h.cwd (l.foldl join root) root = "/".intercalate l := by
      rw [relpath_place h.cwd_abs hnames hplace, if_neg hne]
    rw [List.map_cons, List.sum_cons] at hsum
    rw [List.map_cons, buildFrom, hrel]
    by_cases hskip : indexShouldSkip ("/".intercalate l) = true
    · have hnone : listed h root fs l = none := by
        rw [listed, entryAt_names hnames hne]
        cases fs.file? (place h.cwd root l) with
        | none => rfl
        | some i => simp [readInode, hskip]
      rw [if_pos hskip, List.filterMap_cons_none hnone]
      exact hih x total (by omega)
    · rw [if_neg hskip, readEntry_joined h fs dir hnames hne]
      rcases hfile : fs.file? (place h.cwd root l) with _ | i
      · have hnone : listed h root fs l = none := by
          rw [listed, entryAt_names hnames hne, hfile]
          rfl
        have hweight : weight h root fs l = 0 := by simp [weight, hfile]
        have hstat : (tree h.cwd fs dir).stat (l.foldl join root) =
            if place h.cwd root l ∈ fs.dirs then some ⟨0, 0, false⟩ else none := by
          simp [tree, hplace, hfile]
        rw [hstat, List.filterMap_cons_none hnone]
        by_cases hd : place h.cwd root l ∈ fs.dirs
        · simp only [hd, if_true]
          rw [if_neg (by omega)]
          exact hih x total (by omega)
        · simp only [hd, if_false]
          exact hih x total (by omega)
      · have hweight : weight h root fs l = i.bytes.length := by simp [weight, hfile, hskip]
        have hstat : (tree h.cwd fs dir).stat (l.foldl join root) =
            some ⟨i.bytes.length, i.mtimeNs, true⟩ := by simp [tree, hplace, hfile]
        rw [hstat]
        dsimp only [Option.map_some, Option.getD_some]
        rw [if_neg (by omega)]
        cases hread : readInode h i ("/".intercalate l) with
        | raises => exact absurd hread (hparses l List.mem_cons_self i hfile)
        | nothing =>
          have hnone : listed h root fs l = none := by
            rw [listed, entryAt_names hnames hne, hfile, Option.map_some, hread]
          rw [List.filterMap_cons_none hnone]
          exact hih x total (by omega)
        | entry e =>
          have hsome : listed h root fs l = some e := by
            rw [listed, entryAt_names hnames hne, hfile, Option.map_some, hread]
          rw [List.filterMap_cons_some hsome, List.foldl_cons]
          have hsize := (entry_of_readInode hread).2.1
          exact hih (x.insert e) (total + e.size) (by omega)

/-- An index that has what a fresh one has. -/
structure Represents (h : Host) (root : String) (fs : Files) (x : State) : Prop where
  files : ∀ rel, x.files.find? rel = entryAt h root fs rel
  tabled : Tabled x

/-- **Two of them are the same.** -/
theorem Represents.same (hx : Represents h root fs x) (hy : Represents h root fs y) : Same x y :=
  hx.tabled.same hy.tabled fun rel => by rw [hx.files, hy.files]

theorem path_of_entryAt {rel : String} {e : Entry} (he : entryAt h root fs rel = some e) :
    e.path = rel ∧ Names (split rel) ∧ (fs.file? (place h.cwd root (split rel))).isSome ∧
      indexShouldSkip rel = false := by
  rw [entryAt] at he
  by_cases hnames : Names (split rel)
  · rw [if_pos hnames] at he
    split at he
    · rename_i e' hread
      obtain rfl := Option.some.inj he
      obtain ⟨i, hi, hread⟩ := Option.map_eq_some_iff.mp hread
      obtain ⟨hpath, -, hskip⟩ := entry_of_readInode hread
      exact ⟨hpath, hnames, by rw [hi]; rfl, hskip⟩
    · cases he
  · rw [if_neg hnames] at he
    cases he

theorem split_ne_nil (rel : String) : split rel ≠ [] := by
  simp [split]

theorem intercalate_split (rel : String) : "/".intercalate (split rel) = rel := by
  refine String.ext ?_
  rw [String.toList_intercalate, split, List.map_map]
  simp [Function.comp_def]

/-- **A build leaves an index that has what a fresh one has.** -/
theorem build_represents {ls : List (List String)} (hls : Lists h root fs dir ls)
    (hfits : Fits h root fs) (hroot : orDefault (some root) h.workerRoot = root) :
    ∃ y, workerIndexBuild h (tree h.cwd fs dir) (some root) = (y, .done) ∧
      Represents h root fs y := by
  have hsum : 0 + (ls.map (weight h root fs)).sum ≤ h.maxTotalBytes := by
    have := hls.weight_le
    have := hfits.total
    omega
  obtain ⟨n, hbuild⟩ := @buildFrom_eq h root fs dir ls hls.names
    (fun l hl i => hfits.parses l i (hls.names l hl).1 (hls.names l hl).2)
    (fun x => { x with truncated := true }) (State.fresh root) 0 hsum
  refine ⟨{ (ls.filterMap (listed h root fs)).foldl State.insert (State.fresh root) with
    totalBytes := n }, ?_, ?_⟩
  · rw [workerIndexBuild, hroot, State.walk, hls.walk, hbuild, State.built]
    rfl
  · refine ⟨fun rel => ?_, ?_⟩
    · have hnd : ((ls.filterMap (listed h root fs)).map Entry.path).Nodup := by
        have hpaths : (ls.filterMap (listed h root fs)).map Entry.path =
            (ls.filter fun l => (listed h root fs l).isSome).map ("/".intercalate ·) := by
          clear hls hsum hbuild
          induction ls with
          | nil => rfl
          | cons l ls ih =>
            cases he : listed h root fs l with
            | none =>
              rw [List.filterMap_cons_none he, List.filter_cons_of_neg (by simp [he]), ih]
            | some e =>
              rw [List.filterMap_cons_some he, List.filter_cons_of_pos (by simp [he]),
                List.map_cons, List.map_cons, ih, (path_of_entryAt he).1]
        rw [hpaths]
        refine List.Nodup.map_on (fun l hl l' hl' heq => ?_) (hls.nodup.filter _)
        obtain ⟨hn, hne⟩ := hls.names l (List.mem_of_mem_filter hl)
        obtain ⟨hn', hne'⟩ := hls.names l' (List.mem_of_mem_filter hl')
        exact intercalate_inj hn hne hn' hne' heq
      cases he : entryAt h root fs rel with
      | some e =>
        obtain ⟨rfl, hnames, hfile, hskip⟩ := path_of_entryAt he
        have hmem : split e.path ∈ ls := hls.complete _ hnames (split_ne_nil _) hfile
          (by rw [intercalate_split]; exact hskip)
        refine foldl_insert_of_mem hnd (List.mem_filterMap.mpr ⟨_, hmem, ?_⟩)
        rw [listed, intercalate_split, he]
      | none =>
        refine foldl_insert_of_notMem _ fun e he' heq => ?_
        obtain ⟨l, -, hl⟩ := List.mem_filterMap.mp he'
        have hpath := (path_of_entryAt hl).1
        rw [listed, ← hpath, heq, he] at hl
        cases hl
    · exact ⟨((Tabled.fresh root).foldl_insert _).classes,
        ((Tabled.fresh root).foldl_insert _).functions⟩

end Index

end DeltaBox
