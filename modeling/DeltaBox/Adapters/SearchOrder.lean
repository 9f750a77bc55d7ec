import DeltaBox.Adapters.SpanOrder
import DeltaBox.Lib.Stable

/-!
# The order of matches

A recorded trace keeps the files in which a search for a code snippet had its hits. `build_table`
takes these files out of the trace, for each text and pattern, and leaves out those that differ;
`restore_search_order` puts the recorded files first (`replay/search_order.py`). If some recorded
file has no live match, the live order stays.

## What is given

`repr` is the text of a query that the rows are sorted by. The steps of a trace have the text of
their search, and their hits have paths. The JSON file of the table is read as it was written.

## Main definitions

* `walk`, `buildTable`, `loadTable` — the builder, and its table read back
* `reorder`, `restoreSearchOrder`

## Main results

* `adapters_reorder` — both adapters only reorder, and load what was built
* `recorded_file_without_match` — where the live order stays although one order was recorded
-/

namespace DeltaBox

namespace Adapters

/-- The text of a search, and its file pattern. -/
abbrev Query := String × Option String

abbrev Match := String × ℕ

/-! ### The builder -/

/-- The variables of `build_table`. -/
structure Searches where
  orders : Dict Query (List String)
  ambiguous : List Query

/-- The loop of `walk`, for one step. -/
def addSearch (b : Searches) (step : Step) : Option Searches :=
  match step.search, step.files with
  | some key, some files =>
    if files = [] then some b
    else if ¬ files.Nodup then none
    else
      let ambiguous :=
        if (b.orders.find? key).any fun old => old ≠ files then key :: b.ambiguous else b.ambiguous
      some { orders := b.orders.set key files, ambiguous }
  | _, _ => some b

mutual

/-- `walk`. -/
def walk (b : Searches) : Trace → Option Searches
  | .node _ steps children => (steps.foldlM addSearch b).bind fun b => walkAll b children

def walkAll (b : Searches) : List Trace → Option Searches
  | [] => some b
  | child :: children => (walk b child).bind fun b => walkAll b children

end

structure SearchRow where
  searchText : String
  filePattern : Option String
  files : List String
  deriving DecidableEq, Repr

structure SearchTable where
  schemaVersion : ℕ
  traceSha256 : String
  ambiguousQueriesPassthrough : ℕ
  orders : List SearchRow

variable (repr : Query → String)

/-- The order of the rows. -/
def queryLe (a b : Query × List String) : Bool := decide (repr a.1 ≤ repr b.1)

/-- `build_table`. -/
def buildTable (traceSha256 : String) (root : Trace) : Option SearchTable := do
  let b ← walk ⟨Dict.empty, []⟩ root
  some {
    schemaVersion := 1
    traceSha256
    ambiguousQueriesPassthrough := b.ambiguous.dedup.length
    orders := ((b.orders.entries.insertionSort fun x y => queryLe repr x y).filter
      fun e => e.1 ∉ b.ambiguous).map fun e => ⟨e.1.1, e.1.2, e.2⟩ }

/-! ### The runtime -/

/-- `table`. -/
def loadTable (table : SearchTable) : Option (Dict Query (List String)) :=
  if table.schemaVersion ≠ 1 then none
  else some (table.orders.foldl (fun d row => d.set (row.searchText, row.filePattern) row.files)
    Dict.empty)

/-- The place of each file. -/
def priority (files : List String) : Dict String ℕ :=
  files.zipIdx.foldl (fun d e => d.set e.1 e.2) Dict.empty

/-- Does every file have a match? -/
def subset (files : List String) (found : List Match) : Bool :=
  files.all fun file => found.any (·.1 = file)

/-- `reorder`, none if it raises. -/
def reorder (found : List Match) (files : List String) : Option (List Match) :=
  if ¬ subset files found then none
  else
    let place (m : Match) := ((priority files).find? m.1).getD (priority files).entries.length
    some (found.insertionSort fun a b => place a ≤ place b)

/-- `restore_search_order`. -/
def restoreSearchOrder (orders : Dict Query (List String)) (found : List Match) (query : Query) :
    Option (List Match) :=
  match orders.find? query with
  | none => some found
  | some files => if ¬ subset files found then some found else reorder found files

/-! ### The priorities -/

/-- Files that are all different have their places. -/
theorem find?_priority {files : List String} (hnodup : files.Nodup) (file : String) :
    (priority files).find? file = if file ∈ files then some (files.idxOf file) else none := by
  have hall : ∀ (rest : List String) (n : ℕ) (d : Dict String ℕ), rest.Nodup →
      ((rest.zipIdx n).foldl (fun d e => d.set e.1 e.2) d).find? file =
        if file ∈ rest then some (n + rest.idxOf file) else d.find? file := by
    intro rest
    induction rest with
    | nil => intro n d _; simp
    | cons first rest ih =>
      intro n d h
      rw [List.nodup_cons] at h
      rw [List.zipIdx_cons, List.foldl_cons, ih (n + 1) _ h.2]
      by_cases hfirst : file = first
      · subst hfirst
        simp [h.1]
      · have hmem : file ∈ first :: rest ↔ file ∈ rest := by simp [hfirst]
        simp only [hmem, Dict.find?_set_of_ne _ _ hfirst, List.idxOf_cons_ne _ (Ne.symm hfirst)]
        split_ifs with hrest
        · rw [Nat.succ_eq_add_one, Nat.add_right_comm, Nat.add_assoc]
        · rfl
  have := hall files 0 Dict.empty hnodup
  simpa [priority] using this

theorem length_priority {files : List String} (hnodup : files.Nodup) :
    (priority files).entries.length = files.length := by
  have hkeys : (priority files).keys.Perm files := by
    refine (List.perm_ext_iff_of_nodup (priority files).nodup hnodup).mpr fun file => ?_
    rw [← Dict.keys, Dict.mem_keys_iff, find?_priority hnodup]
    simp
  rw [← hkeys.length_eq, Dict.keys, List.length_map]

/-- **The matches of the recorded files come in groups.** -/
theorem reorder_eq {files : List String} {found : List Match} (hnodup : files.Nodup)
    (hsubset : subset files found) :
    reorder found files = some (Stable.byPriority Prod.fst files found) := by
  have hplace : ∀ m : Match, ((priority files).find? m.1).getD (priority files).entries.length =
      files.idxOf m.1 := by
    intro m
    rw [find?_priority hnodup, length_priority hnodup]
    split_ifs with hmem
    · rfl
    · exact (List.idxOf_of_notMem hmem).symm
  rw [reorder, if_neg (by simpa using hsubset)]
  simp only [hplace]
  rw [Stable.insertionSort_idxOf hnodup]

/-! ### What the builder knows -/

mutual

/-- The steps of a trace, in the order of the walk. -/
def recordedSteps : Trace → List Step
  | .node _ steps children => steps ++ recordedStepsAll children

def recordedStepsAll : List Trace → List Step
  | [] => []
  | child :: children => recordedSteps child ++ recordedStepsAll children

end

/-- The files of the hits of a step. Steps without files have none. -/
def Step.hits? (step : Step) : Option (Query × List String) :=
  match step.search, step.files with
  | some key, some files => if files = [] then none else some (key, files)
  | _, _ => none

/-- The orders of files that are recorded for a query. -/
def fileOrdersOf (query : Query) (steps : List Step) : List (List String) :=
  ((steps.filterMap Step.hits?).filter (·.1 = query)).map Prod.snd

mutual

/-- The walk goes over the steps in order. -/
theorem walk_eq (b : Searches) : ∀ root, walk b root = (recordedSteps root).foldlM addSearch b
  | .node _ steps children => by
    rw [walk, recordedSteps, List.foldlM_append]
    exact congrArg _ (funext fun b => walkAll_eq b children)

theorem walkAll_eq (b : Searches) :
    ∀ children, walkAll b children = (recordedStepsAll children).foldlM addSearch b
  | [] => rfl
  | child :: children => by
    rw [walkAll, recordedStepsAll, List.foldlM_append, walk_eq b child]
    exact congrArg _ (funext fun b => walkAll_eq b children)

end

/-- What the builder knows of the steps it has seen. -/
structure Saw (b : Searches) (steps : List Step) : Prop where
  orders : ∀ query, b.orders.find? query = (fileOrdersOf query steps).getLast?
  ambiguous : ∀ query, query ∈ b.ambiguous ↔
    fileOrdersOf query steps ≠ [] ∧ only (fileOrdersOf query steps) = none
  nodup : ∀ query, ∀ files ∈ fileOrdersOf query steps, files.Nodup

variable {repr} {b b' : Searches} {steps : List Step}

theorem fileOrdersOf_concat (query : Query) (step : Step) :
    fileOrdersOf query (steps ++ [step]) = fileOrdersOf query steps ++
      match step.hits? with
      | none => []
      | some e => if e.1 = query then [e.2] else [] := by
  unfold fileOrdersOf
  cases hhits : step.hits? with
  | none => simp [hhits]
  | some e =>
    by_cases hquery : e.1 = query
    · simp [hhits, hquery, List.filterMap_append]
    · simp [hhits, hquery, List.filterMap_append]

theorem Saw.skip (h : Saw b steps) {step : Step} (hhits : step.hits? = none) :
    Saw b (steps ++ [step]) := by
  have hsame : ∀ query, fileOrdersOf query (steps ++ [step]) = fileOrdersOf query steps :=
    fun query => by rw [fileOrdersOf_concat, hhits, List.append_nil]
  exact ⟨fun query => by rw [hsame]; exact h.orders query,
    fun query => by rw [hsame]; exact h.ambiguous query,
    fun query => by rw [hsame]; exact h.nodup query⟩

/-- **One step.** A query that has differed stays ambiguous, whatever comes later. -/
theorem Saw.addSearch (h : Saw b steps) {step : Step} (hadd : addSearch b step = some b') :
    Saw b' (steps ++ [step]) := by
  unfold Adapters.addSearch at hadd
  cases hsearch : step.search with
  | none =>
    simp only [hsearch, Option.some.injEq] at hadd
    exact hadd ▸ h.skip (by simp [Step.hits?, hsearch])
  | some key =>
    cases hfiles : step.files with
    | none =>
      simp only [hsearch, hfiles, Option.some.injEq] at hadd
      exact hadd ▸ h.skip (by simp [Step.hits?, hsearch, hfiles])
    | some files =>
      simp only [hsearch, hfiles] at hadd
      by_cases hempty : files = []
      · rw [if_pos hempty, Option.some.injEq] at hadd
        exact hadd ▸ h.skip (by simp [Step.hits?, hsearch, hfiles, hempty])
      rw [if_neg hempty] at hadd
      by_cases hnodup : files.Nodup
      swap
      · rw [if_pos hnodup] at hadd
        cases hadd
      rw [if_neg (not_not.mpr hnodup), Option.some.injEq] at hadd
      subst hadd
      have hhits : step.hits? = some (key, files) := by
        simp [Step.hits?, hsearch, hfiles, hempty]
      have hself : fileOrdersOf key (steps ++ [step]) = fileOrdersOf key steps ++ [files] := by
        rw [fileOrdersOf_concat, hhits]
        simp
      have hother : ∀ query ≠ key, fileOrdersOf query (steps ++ [step]) = fileOrdersOf query steps :=
        fun query hne => by
          rw [fileOrdersOf_concat, hhits]
          simp [Ne.symm hne]
      refine ⟨fun query => ?_, fun query => ?_, fun query => ?_⟩
      · by_cases hquery : query = key
        · rw [hquery, hself, Dict.find?_set_self, List.getLast?_concat]
        · rw [hother query hquery, Dict.find?_set_of_ne _ _ hquery]
          exact h.orders query
      · by_cases hquery : query = key
        · subst hquery
          rw [hself, h.orders query, only_concat]
          have hamb := h.ambiguous query
          rcases List.eq_nil_or_concat (fileOrdersOf query steps) with hnil | ⟨before, last, hlast⟩
          · -- its first files
            rw [hnil] at hamb ⊢
            simpa [only] using hamb
          · rw [hlast, List.concat_eq_append] at hamb ⊢
            rw [List.getLast?_concat, if_neg (c := before ++ [last] = []) (by simp)]
            by_cases hdiffer : last = files
            · -- the files of the last time
              subst hdiffer
              have hfilter : (only (before ++ [last])).filter (· = last) = only (before ++ [last]) := by
                cases honly : only (before ++ [last]) with
                | none => rfl
                | some x =>
                  obtain rfl := (only_eq_some_iff.mp honly).2 last (by simp)
                  simp [Option.filter]
              rw [hfilter]
              simpa using hamb
            · have hnone : (only (before ++ [last])).filter (· = files) = none := by
                cases honly : only (before ++ [last]) with
                | none => rfl
                | some x =>
                  obtain rfl := (only_eq_some_iff.mp honly).2 last (by simp)
                  simp [Option.filter, hdiffer]
              simp [hnone, hdiffer]
        · rw [hother query hquery, ← h.ambiguous query]
          split_ifs
          · simp [hquery]
          · rfl
      · by_cases hquery : query = key
        · subst hquery
          rw [hself]
          intro files' hfiles'
          rcases List.mem_append.mp hfiles' with hold | hnew
          · exact h.nodup query files' hold
          · exact List.mem_singleton.mp hnew ▸ hnodup
        · rw [hother query hquery]
          exact h.nodup query

theorem Saw.addSearches (h : Saw b steps) {more : List Step}
    (hadd : more.foldlM Adapters.addSearch b = some b') : Saw b' (steps ++ more) := by
  induction more generalizing b steps with
  | nil =>
    obtain rfl : b = b' := by simpa using hadd
    simpa using h
  | cons step more ih =>
    rw [List.foldlM_cons] at hadd
    obtain ⟨b₁, hfirst, hrest⟩ := Option.bind_eq_some_iff.mp hadd
    have := ih (h.addSearch hfirst) hrest
    rwa [List.append_assoc] at this

/-! ### Loading the table -/

/-- Rows of different queries, read into a dictionary. -/
theorem find?_foldl_set {rows : List SearchRow} {d : Dict Query (List String)}
    (hnodup : (rows.map fun row => (row.searchText, row.filePattern)).Nodup)
    (hnew : ∀ row ∈ rows, d.find? (row.searchText, row.filePattern) = none) (query : Query)
    (files : List String) :
    (rows.foldl (fun d row => d.set (row.searchText, row.filePattern) row.files) d).find? query =
        some files ↔
      (∃ row ∈ rows, (row.searchText, row.filePattern) = query ∧ row.files = files) ∨
        d.find? query = some files := by
  induction rows generalizing d with
  | nil => simp
  | cons row rows ih =>
    rw [List.map_cons, List.nodup_cons] at hnodup
    have hfresh := hnew row List.mem_cons_self
    rw [List.foldl_cons, ih hnodup.2 fun other hother => ?_]
    · by_cases hquery : query = (row.searchText, row.filePattern)
      · subst hquery
        have hnone : ¬ ∃ other ∈ rows, (other.searchText, other.filePattern) =
            (row.searchText, row.filePattern) ∧ other.files = files := by
          rintro ⟨other, hother, heq, -⟩
          exact hnodup.1 (heq ▸ List.mem_map_of_mem hother)
        rw [Dict.find?_set_self, hfresh, List.exists_mem_cons_iff]
        simp only [hnone, true_and, Option.some.injEq, or_false, false_or, reduceCtorEq]
      · rw [Dict.find?_set_of_ne _ _ hquery, List.exists_mem_cons_iff]
        simp only [Ne.symm hquery, false_and, false_or]
    · have hne : (other.searchText, other.filePattern) ≠ (row.searchText, row.filePattern) :=
        fun heq => hnodup.1 (heq ▸ List.mem_map_of_mem hother)
      rw [Dict.find?_set_of_ne _ _ hne]
      exact hnew other (List.mem_cons_of_mem _ hother)

/-- **The table of the builder is loaded, and has the queries with one order of files.** -/
theorem loadTable_eq {sha : String} {root : Trace} {table : SearchTable}
    (hbuild : buildTable repr sha root = some table) :
    ∃ orders, loadTable table = some orders ∧
      (∀ query, orders.find? query = only (fileOrdersOf query (recordedSteps root))) ∧
      ∀ query files, orders.find? query = some files → files.Nodup := by
  obtain ⟨b, hwalk, htable⟩ := Option.bind_eq_some_iff.mp hbuild
  have hstart : Saw ⟨Dict.empty, []⟩ [] :=
    ⟨fun _ => rfl, fun query => by simp [fileOrdersOf], fun query files h => by simp [fileOrdersOf] at h⟩
  rw [walk_eq] at hwalk
  have hsaw := hstart.addSearches hwalk
  rw [List.nil_append] at hsaw
  obtain rfl := Option.some.inj htable
  have hperm := List.perm_insertionSort (fun x y => queryLe repr x y) b.orders.entries
  have hnodup : (((b.orders.entries.insertionSort fun x y => queryLe repr x y).filter
      fun e => e.1 ∉ b.ambiguous).map Prod.fst).Nodup :=
    ((hperm.map Prod.fst).nodup_iff.mpr b.orders.nodup).sublist (List.filter_sublist.map _)
  have honly : ∀ query, (b.orders.find? query).filter (fun _ => query ∉ b.ambiguous) =
      only (fileOrdersOf query (recordedSteps root)) := by
    intro query
    rw [hsaw.orders query]
    by_cases hamb : query ∈ b.ambiguous
    · rw [((hsaw.ambiguous query).mp hamb).2, Option.filter_eq_none_iff]
      simp [hamb]
    · rcases List.eq_nil_or_concat (fileOrdersOf query (recordedSteps root)) with
        hnil | ⟨before, last, hlast⟩
      · rw [hnil]
        rfl
      · rw [List.concat_eq_append] at hlast
        cases honly : only (fileOrdersOf query (recordedSteps root)) with
        | none => exact absurd ((hsaw.ambiguous query).mpr ⟨by simp [hlast], honly⟩) hamb
        | some files =>
          have heq := (only_eq_some_iff.mp honly).2 last (by simp [hlast])
          rw [hlast, List.getLast?_concat, heq]
          simp [Option.filter, hamb]
  have hload : ∀ query, ((((b.orders.entries.insertionSort fun x y => queryLe repr x y).filter
      fun e => e.1 ∉ b.ambiguous).map fun e => (⟨e.1.1, e.1.2, e.2⟩ : SearchRow)).foldl
        (fun d row => d.set (row.searchText, row.filePattern) row.files) Dict.empty).find? query =
      only (fileOrdersOf query (recordedSteps root)) := by
    intro query
    refine Option.ext fun files => ?_
    rw [find?_foldl_set (by simpa [Function.comp_def] using hnodup) (fun _ _ => rfl), ← honly query,
      Dict.find?_empty, Option.filter_eq_some_iff, Dict.find?_eq_some_iff]
    constructor
    · rintro (⟨row, hrow, hquery, hfiles⟩ | hnone)
      · obtain ⟨e, he, rfl⟩ := List.mem_map.mp hrow
        obtain ⟨he, hamb⟩ := List.mem_filter.mp he
        have heq : e = (query, files) := Prod.ext hquery hfiles
        exact ⟨heq ▸ hperm.mem_iff.mp he, by rwa [heq] at hamb⟩
      · cases hnone
    · rintro ⟨hmem, hamb⟩
      exact .inl ⟨⟨query.1, query.2, files⟩, List.mem_map.mpr ⟨(query, files),
        List.mem_filter.mpr ⟨hperm.mem_iff.mpr hmem, hamb⟩, rfl⟩, rfl, rfl⟩
  refine ⟨_, by rw [loadTable, if_neg (by simp)], hload, fun query files hfind => ?_⟩
  rw [hload query] at hfind
  obtain ⟨hne, hall⟩ := only_eq_some_iff.mp hfind
  obtain ⟨files', hfiles'⟩ := List.exists_mem_of_ne_nil _ hne
  exact hall files' hfiles' ▸ hsaw.nodup query files' hfiles'

/-! ### The matches -/

section

variable {orders : Dict Query (List String)} {found : List Match} {query : Query}

/-- A table with the queries of one order, and no file twice in an order. -/
structure Orders (orders : Dict Query (List String)) (steps : List Step) : Prop where
  only : ∀ query, orders.find? query = only (fileOrdersOf query steps)
  nodup : ∀ query files, orders.find? query = some files → files.Nodup

theorem restoreSearchOrder_of_some (h : Orders orders steps) {files : List String}
    (hfind : orders.find? query = some files) :
    restoreSearchOrder orders found query =
      some (if subset files found then Stable.byPriority Prod.fst files found else found) := by
  rw [restoreSearchOrder, hfind]
  by_cases hsubset : subset files found
  · simp only [hsubset, not_true_eq_false, if_false, if_true]
    exact reorder_eq (h.nodup query files hfind) hsubset
  · simp only [hsubset, not_false_eq_true, if_true, Bool.false_eq_true, if_false]

theorem restoreSearchOrder_of_none (hfind : orders.find? query = none) :
    restoreSearchOrder orders found query = some found := by
  rw [restoreSearchOrder, hfind]

/-- No match is lost, created or changed. -/
theorem restoreSearchOrder_perm (h : Orders orders steps) :
    ∃ out, restoreSearchOrder orders found query = some out ∧ out.Perm found := by
  cases hfind : orders.find? query with
  | none => exact ⟨found, restoreSearchOrder_of_none hfind, List.Perm.refl _⟩
  | some files =>
    refine ⟨_, restoreSearchOrder_of_some h hfind, ?_⟩
    split_ifs
    · rw [← Stable.insertionSort_idxOf (h.nodup query files hfind)]
      exact List.perm_insertionSort _ found
    · exact List.Perm.refl _

theorem restoreSearchOrder_of_only (h : Orders orders steps) {files : List String}
    (hne : fileOrdersOf query steps ≠ [])
    (hall : ∀ order ∈ fileOrdersOf query steps, order = files) :
    restoreSearchOrder orders found query =
      some (if ∀ file ∈ files, ∃ m ∈ found, m.1 = file then Stable.byPriority Prod.fst files found
        else found) := by
  have hfind : orders.find? query = some files := (h.only query).trans (only_eq_some_iff.mpr ⟨hne, hall⟩)
  have hsubset : subset files found ↔ ∀ file ∈ files, ∃ m ∈ found, m.1 = file := by
    simp [subset]
  rw [restoreSearchOrder_of_some h hfind]
  exact congrArg _ (if_congr hsubset rfl rfl)

theorem restoreSearchOrder_of_ne (h : Orders orders steps) {order order' : List String}
    (hmem : order ∈ fileOrdersOf query steps) (hmem' : order' ∈ fileOrdersOf query steps)
    (hne : order ≠ order') : restoreSearchOrder orders found query = some found := by
  refine restoreSearchOrder_of_none ((h.only query).trans ?_)
  exact (only_eq_none_iff (List.ne_nil_of_mem hmem)).mpr ⟨order, hmem, order', hmem', hne⟩

end

/-! ### Both adapters -/

/-- What the span adapter does with the orders of `files`. -/
structure ReordersSpans (orders : Dict Key (List String)) (files : List FileArg) : Prop where
  perm : ∀ {strict : Bool} {filePath live out},
    restoreSpanOrder orders strict filePath live = some out → out.Perm live
  single : ∀ {strict : Bool} {filePath live spans}, ordersOf (signature filePath live) files ≠ [] →
    (∀ order ∈ ordersOf (signature filePath live) files, order = spans) →
    restoreSpanOrder orders strict filePath live = some spans
  conflict : ∀ {filePath live order order'}, order ∈ ordersOf (signature filePath live) files →
    order' ∈ ordersOf (signature filePath live) files → order ≠ order' →
    restoreSpanOrder orders false filePath live = some live

/-- What the search adapter does with the orders of `steps`. -/
structure ReordersMatches (orders : Dict Query (List String)) (steps : List Step) : Prop where
  perm : ∀ found query, ∃ out, restoreSearchOrder orders found query = some out ∧ out.Perm found
  single : ∀ {found query files}, fileOrdersOf query steps ≠ [] →
    (∀ order ∈ fileOrdersOf query steps, order = files) →
    restoreSearchOrder orders found query =
      some (if ∀ file ∈ files, ∃ m ∈ found, m.1 = file then Stable.byPriority Prod.fst files found
        else found)
  conflict : ∀ {found query order order'}, order ∈ fileOrdersOf query steps →
    order' ∈ fileOrdersOf query steps → order ≠ order' →
    restoreSearchOrder orders found query = some found

/-- **The adapters only reorder.** What the builders have written is loaded, the spans of one recorded
order come out in it, and the matches come out by the recorded files if each of these has a match.
After a conflict the live order stays. -/
theorem adapters_reorder (loads : List Char → Option (List FileArg)) (strict : Bool)
    (repr : Query → String) (sha : String) (root : Trace) :
    (∀ table, buildOrderTable loads strict sha root = some table →
      ∃ orders, runtimeTable table = some orders ∧ ReordersSpans orders (recordedFiles loads root)) ∧
    ∀ table, buildTable repr sha root = some table →
      ∃ orders, loadTable table = some orders ∧ ReordersMatches orders (recordedSteps root) := by
  constructor
  · intro table hbuild
    obtain ⟨orders, hload, hfind⟩ := runtimeTable_eq hbuild
    exact ⟨orders, hload, restoreSpanOrder_perm hfind, restoreSpanOrder_of_only hfind,
      restoreSpanOrder_of_ne hfind⟩
  · intro table hbuild
    obtain ⟨orders, hload, hfind, hnodup⟩ := loadTable_eq hbuild
    have horders : Orders orders (recordedSteps root) := ⟨hfind, hnodup⟩
    exact ⟨orders, hload, fun _ _ => restoreSearchOrder_perm horders,
      restoreSearchOrder_of_only horders, restoreSearchOrder_of_ne horders⟩

/-- A search whose hits were in two files. -/
def twoFiles : Trace := .node [] [⟨none, some ("parse", none), some ["a.py", "b.py"]⟩] []

/-- The matches of a text, one in a file that was recorded and one in a file that was not. Without a
match in the other recorded file they stay as they are. -/
theorem recorded_file_without_match :
    fileOrdersOf ("parse", none) (recordedSteps twoFiles) = [["a.py", "b.py"]] ∧
      ((buildTable Prod.fst "" twoFiles).bind loadTable).bind
          (restoreSearchOrder · [("c.py", 1), ("a.py", 2)] ("parse", none)) =
        some [("c.py", 1), ("a.py", 2)] ∧
      Stable.byPriority Prod.fst ["a.py", "b.py"] [("c.py", 1), ("a.py", 2)] =
        [("a.py", 2), ("c.py", 1)] := by
  refine ⟨by decide, rfl, by decide⟩

/-- A trace with a synthetic message and a search. -/
def bothOrders : Trace :=
  .node [[⟨"assistant", some syntheticPrefix⟩]] [⟨none, some ("parse", none), some ["a.py", "b.py"]⟩] []

theorem adapters_reorder_both :
    (∃ table orders, buildOrderTable (fun _ => some [⟨"a.py", some ["Parser", "Lexer"]⟩]) true ""
        bothOrders = some table ∧ runtimeTable table = some orders ∧
      restoreSpanOrder orders true "a.py" ["Lexer", "Parser"] = some ["Parser", "Lexer"]) ∧
    ∃ table orders, buildTable Prod.fst "" bothOrders = some table ∧ loadTable table = some orders ∧
      restoreSearchOrder orders [("c.py", 1), ("b.py", 5), ("a.py", 2), ("b.py", 3)] ("parse", none) =
        some [("a.py", 2), ("b.py", 5), ("b.py", 3), ("c.py", 1)] := by
  obtain ⟨hspans, hmatches⟩ := adapters_reorder
    (fun _ => some [⟨"a.py", some ["Parser", "Lexer"]⟩]) true Prod.fst "" bothOrders
  constructor
  · obtain ⟨orders, hload, hreorders⟩ := hspans _ rfl
    have hall : ∀ order ∈ ordersOf (signature "a.py" ["Lexer", "Parser"])
        (recordedFiles (fun _ => some [⟨"a.py", some ["Parser", "Lexer"]⟩]) bothOrders),
        order = ["Parser", "Lexer"] := by decide
    exact ⟨_, orders, rfl, hload, hreorders.single (by decide) hall⟩
  · obtain ⟨orders, hload, hreorders⟩ := hmatches _ rfl
    have hall : ∀ order ∈ fileOrdersOf ("parse", none) (recordedSteps bothOrders),
        order = ["a.py", "b.py"] := by decide
    refine ⟨_, orders, rfl, hload, ?_⟩
    rw [hreorders.single (by decide) hall]
    decide

end Adapters

end DeltaBox
