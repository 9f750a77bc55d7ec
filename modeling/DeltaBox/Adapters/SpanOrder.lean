import DeltaBox.Lib.Dict
import DeltaBox.Lib.Posix
import Mathlib.Data.List.Sort
import Mathlib.Data.String.Basic

/-!
# The order of spans

A recorded trace keeps the order in which a set of spans was written. `build_order_table` takes these
orders out of the trace, for each file and multiset of spans, and leaves out those that differ;
`restore_span_order` gives live spans the recorded order (`replay/history_order.py`).

## What is given

`loads` is the reading of what stands behind the prefix of a synthetic message: the JSON text with
all checks of its form, none if one of them raises. The JSON file of the table is read as it was
written.

## Main definitions

* `Trace` — a node of a recorded trace, with what the two adapters read of it
* `buildOrderTable`, `runtimeTable`, `restoreSpanOrder`
* `only` — the value of a list whose elements are all the same

## Main results

* `runtimeTable_eq` — the table of the builder is loaded, and has the keys with one order
-/

namespace DeltaBox

namespace Adapters

/-! ### The trace -/

/-- One file of a synthetic message. -/
structure FileArg where
  filePath : String
  spanIds : Option (List String)
  deriving DecidableEq, Repr

structure Message where
  role : String
  content : Option String
  deriving DecidableEq, Repr

/-- A step of a node: the input of its completion, and if it is a search for a code snippet, what it
looks for and the files of its hits. -/
structure Step where
  input : Option (List Message)
  search : Option (String × Option String)
  files : Option (List String)
  deriving DecidableEq, Repr

/-- A node, with the inputs of its own completions. -/
inductive Trace where
  | node (completions : List (List Message)) (steps : List Step) (children : List Trace)

mutual

/-- `_recorded_inputs`. -/
def recordedInputs : Trace → List (List Message)
  | .node completions steps children =>
    completions ++ steps.filterMap Step.input ++ recordedInputsAll children

def recordedInputsAll : List Trace → List (List Message)
  | [] => []
  | child :: children => recordedInputs child ++ recordedInputsAll children

end

/-! ### The builder -/

/-- A path, and its spans in their natural order. -/
abbrev Key := String × List String

/-- `_signature`. -/
def signature (filePath : String) (spanIds : List String) : Key :=
  (filePath, spanIds.insertionSort (· ≤ ·))

/-- `SYNTHETIC_PREFIX`. -/
def syntheticPrefix : String :=
  "Thought: <thoughts>Let's view the content in the updated files</thoughts>\nAction: ViewCode\n"

/-- The variables of the builder. -/
structure Building where
  orders : Dict Key (List String)
  ambiguous : List Key
  syntheticMessages : ℕ

/-- The loop over the files, for one of them. -/
def addFile (strict : Bool) (b : Building) (file : FileArg) : Option Building :=
  match file.spanIds with
  | none => some b
  | some spans =>
    if spans = [] then some b
    else
      let key := signature file.filePath spans
      if key ∈ b.ambiguous then some b
      else match b.orders.find? key with
        | none => some { b with orders := b.orders.set key spans }
        | some old =>
          if old ≠ spans then
            if strict then none
            else some { b with ambiguous := key :: b.ambiguous, orders := b.orders.erase key }
          else some { b with orders := b.orders.set key spans }

variable (loads : List Char → Option (List FileArg))

/-- The files of a message, none if it is not supported. A message that is not synthetic has none. -/
def filesOf (m : Message) : Option (List FileArg) :=
  match m.content with
  | none => some []
  | some content =>
    if m.role = "assistant" ∧ Posix.startswith content syntheticPrefix then
      loads (content.toList.drop syntheticPrefix.length)
    else some []

/-- Is a message synthetic? -/
def isSynthetic (m : Message) : Bool :=
  m.role = "assistant" && m.content.any fun content => Posix.startswith content syntheticPrefix

/-- The loop over the messages, for one of them. -/
def addMessage (strict : Bool) (b : Building) (m : Message) : Option Building := do
  let files ← filesOf loads m
  let b := if isSynthetic m then { b with syntheticMessages := b.syntheticMessages + 1 } else b
  files.foldlM (addFile strict) b

/-- A row of the table. -/
structure Row where
  filePath : String
  spanIds : List String
  deriving DecidableEq, Repr

/-- The table. -/
structure Table where
  schemaVersion : ℕ
  traceSha256 : String
  syntheticMessages : ℕ
  ambiguousKeysPassthrough : ℕ
  orders : List Row

/-- The order of the rows. -/
def keyLe (a b : Key × List String) : Bool := a.1.1 < b.1.1 || (a.1.1 = b.1.1 && decide (a.1.2 ≤ b.1.2))

/-- `build_order_table`. -/
def buildOrderTable (strict : Bool) (traceSha256 : String) (root : Trace) : Option Table := do
  let b ← (recordedInputs root).flatten.foldlM (addMessage loads strict) ⟨Dict.empty, [], 0⟩
  some {
    schemaVersion := 1
    traceSha256
    syntheticMessages := b.syntheticMessages
    ambiguousKeysPassthrough := b.ambiguous.length
    orders := (b.orders.entries.insertionSort fun x y => keyLe x y).map fun e => ⟨e.1.1, e.2⟩ }

/-! ### The runtime -/

/-- The loop of `_runtime_table`, for one row. -/
def addRow (orders : Dict Key (List String)) (row : Row) : Option (Dict Key (List String)) :=
  let key := signature row.filePath row.spanIds
  if (orders.find? key).any fun old => old ≠ row.spanIds then none
  else some (orders.set key row.spanIds)

/-- `_runtime_table`. -/
def runtimeTable (table : Table) : Option (Dict Key (List String)) :=
  if table.schemaVersion ≠ 1 then none else table.orders.foldlM addRow Dict.empty

/-- `restore_span_order`. -/
def restoreSpanOrder (orders : Dict Key (List String)) (strict : Bool) (filePath : String)
    (spanIds : List String) : Option (List String) :=
  match orders.find? (signature filePath spanIds) with
  | none => if strict then none else some spanIds
  | some ordered => some ordered

/-! ### One order -/

/-- The value of a list whose elements are all the same. -/
def only {α : Type*} [DecidableEq α] : List α → Option α
  | [] => none
  | x :: xs => if ∀ y ∈ xs, y = x then some x else none

section

variable {α : Type*} [DecidableEq α] {l : List α} {x y : α}

theorem only_eq_some_iff : only l = some x ↔ l ≠ [] ∧ ∀ y ∈ l, y = x := by
  cases l with
  | nil => simp [only]
  | cons z l =>
    rw [only, Option.ite_none_right_eq_some]
    constructor
    · rintro ⟨hall, heq⟩
      obtain rfl := Option.some.inj heq
      exact ⟨by simp, fun y hy => (List.mem_cons.mp hy).elim id (hall y)⟩
    · rintro ⟨-, hall⟩
      obtain rfl := hall z List.mem_cons_self
      exact ⟨fun y hy => hall y (List.mem_cons_of_mem _ hy), rfl⟩

/-- Two different values. -/
theorem only_eq_none_iff (hne : l ≠ []) : only l = none ↔ ∃ x ∈ l, ∃ y ∈ l, x ≠ y := by
  constructor
  · intro hnone
    obtain ⟨x, xs, rfl⟩ := List.exists_cons_of_ne_nil hne
    by_contra hall
    push Not at hall
    have hsome : only (x :: xs) = some x :=
      only_eq_some_iff.mpr ⟨hne, fun y hy => (hall x List.mem_cons_self y hy).symm⟩
    rw [hsome] at hnone
    cases hnone
  · rintro ⟨x, hx, y, hy, hxy⟩
    by_contra hsome
    obtain ⟨z, hz⟩ := Option.ne_none_iff_exists'.mp hsome
    obtain ⟨-, hall⟩ := only_eq_some_iff.mp hz
    exact hxy ((hall x hx).trans (hall y hy).symm)

/-- One more value. -/
theorem only_concat : only (l ++ [x]) =
    if l = [] then some x else (only l).filter (· = x) := by
  split_ifs with hl
  · simp [hl, only]
  · ext z
    rw [only_eq_some_iff, Option.filter_eq_some_iff, only_eq_some_iff, decide_eq_true_eq]
    constructor
    · rintro ⟨-, hall⟩
      have hx := hall x (by simp)
      exact ⟨⟨hl, fun y hy => hall y (by simp [hy])⟩, hx.symm⟩
    · rintro ⟨⟨-, hall⟩, rfl⟩
      refine ⟨by simp, fun y hy => ?_⟩
      rcases List.mem_append.mp hy with hy | hy
      · exact hall y hy
      · exact List.mem_singleton.mp hy

end

/-! ### What the builder knows -/

/-- The key of a file, and the order of its spans. Files without spans have none. -/
def FileArg.order? (file : FileArg) : Option (Key × List String) :=
  (file.spanIds.filter (· ≠ [])).map fun spans => (signature file.filePath spans, spans)

/-- The orders that are recorded for a key. -/
def ordersOf (key : Key) (files : List FileArg) : List (List String) :=
  ((files.filterMap FileArg.order?).filter (·.1 = key)).map Prod.snd

/-- The files of the synthetic messages of a trace. -/
def recordedFiles (root : Trace) : List FileArg :=
  (recordedInputs root).flatten.flatMap fun m => (filesOf loads m).getD []

/-- What the builder knows of the files it has seen. -/
structure Knows (b : Building) (files : List FileArg) : Prop where
  orders : ∀ key, b.orders.find? key = only (ordersOf key files)
  ambiguous : ∀ key, key ∈ b.ambiguous ↔ ordersOf key files ≠ [] ∧ only (ordersOf key files) = none

variable {loads} {strict : Bool} {b b' : Building} {files : List FileArg}

theorem ordersOf_concat (key : Key) (file : FileArg) :
    ordersOf key (files ++ [file]) = ordersOf key files ++
      match file.order? with
      | none => []
      | some e => if e.1 = key then [e.2] else [] := by
  unfold ordersOf
  cases horder : file.order? with
  | none => simp [horder]
  | some e =>
    by_cases hkey : e.1 = key
    · simp [horder, hkey, List.filterMap_append]
    · simp [horder, hkey, List.filterMap_append]

theorem signature_of_mem {key : Key} {spans : List String} (h : spans ∈ ordersOf key files) :
    ∃ filePath, signature filePath spans = key := by
  obtain ⟨e, he, rfl⟩ := List.mem_map.mp h
  obtain ⟨hmem, hkey⟩ := List.mem_filter.mp he
  obtain ⟨file, -, horder⟩ := List.mem_filterMap.mp hmem
  obtain ⟨spans, -, rfl⟩ := Option.map_eq_some_iff.mp horder
  exact ⟨file.filePath, of_decide_eq_true hkey⟩

/-- A file that has no order. -/
theorem Knows.skip (h : Knows b files) {file : FileArg} (horder : file.order? = none) :
    Knows b (files ++ [file]) := by
  have hsame : ∀ key, ordersOf key (files ++ [file]) = ordersOf key files := fun key => by
    rw [ordersOf_concat, horder, List.append_nil]
  exact ⟨fun key => by rw [hsame]; exact h.orders key, fun key => by rw [hsame]; exact h.ambiguous key⟩

/-- A file with an order: only what is known of its key changes. -/
theorem Knows.add (h : Knows b files) {file : FileArg} {key : Key} {spans : List String}
    (horder : file.order? = some (key, spans))
    (horders : ∀ k ≠ key, b'.orders.find? k = b.orders.find? k)
    (hambiguous : ∀ k ≠ key, (k ∈ b'.ambiguous ↔ k ∈ b.ambiguous))
    (hown : b'.orders.find? key = only (ordersOf key files ++ [spans]))
    (hown' : key ∈ b'.ambiguous ↔ only (ordersOf key files ++ [spans]) = none) :
    Knows b' (files ++ [file]) := by
  have hself : ordersOf key (files ++ [file]) = ordersOf key files ++ [spans] := by
    rw [ordersOf_concat, horder]
    simp
  have hother : ∀ k ≠ key, ordersOf k (files ++ [file]) = ordersOf k files := fun k hk => by
    rw [ordersOf_concat, horder]
    simp [Ne.symm hk]
  constructor
  · intro k
    by_cases hk : k = key
    · rw [hk, hself, hown]
    · rw [hother k hk, horders k hk, h.orders k]
  · intro k
    by_cases hk : k = key
    · rw [hk, hself, hown']
      simp
    · rw [hother k hk, hambiguous k hk, h.ambiguous k]

/-- **One file of a synthetic message.** -/
theorem Knows.addFile (h : Knows b files) {file : FileArg}
    (hadd : addFile strict b file = some b') : Knows b' (files ++ [file]) := by
  unfold Adapters.addFile at hadd
  cases hspans : file.spanIds with
  | none =>
    simp only [hspans, Option.some.injEq] at hadd
    exact hadd ▸ h.skip (by simp [FileArg.order?, hspans])
  | some spans =>
    simp only [hspans] at hadd
    by_cases hempty : spans = []
    · rw [if_pos hempty, Option.some.injEq] at hadd
      exact hadd ▸ h.skip (by simp [FileArg.order?, hspans, hempty])
    rw [if_neg hempty] at hadd
    have horder : file.order? = some (signature file.filePath spans, spans) := by
      simp [FileArg.order?, hspans, Option.filter, hempty]
    generalize signature file.filePath spans = key at hadd horder
    have hconcat := @only_concat _ _ (ordersOf key files) spans
    by_cases hamb : key ∈ b.ambiguous
    · -- it has differed before
      rw [if_pos hamb, Option.some.injEq] at hadd
      subst hadd
      obtain ⟨hne, hnone⟩ := (h.ambiguous key).mp hamb
      rw [if_neg hne, hnone] at hconcat
      exact h.add horder (fun _ _ => rfl) (fun _ _ => Iff.rfl)
        (by rw [h.orders key, hnone, hconcat]; rfl) (by simp [hamb, hconcat])
    rw [if_neg hamb] at hadd
    cases hfind : b.orders.find? key with
    | none =>
      -- it is new
      simp only [hfind, Option.some.injEq] at hadd
      subst hadd
      have hnil : ordersOf key files = [] := by
        by_contra hne
        exact hamb ((h.ambiguous key).mpr ⟨hne, (h.orders key).symm.trans hfind⟩)
      rw [if_pos hnil] at hconcat
      exact h.add horder (fun k hk => Dict.find?_set_of_ne _ _ hk) (fun _ _ => Iff.rfl)
        (by rw [Dict.find?_set_self, hconcat]) (by simp [hamb, hconcat])
    | some old =>
      simp only [hfind] at hadd
      have honly : only (ordersOf key files) = some old := (h.orders key).symm.trans hfind
      have hne : ordersOf key files ≠ [] := (only_eq_some_iff.mp honly).1
      rw [if_neg hne, honly] at hconcat
      by_cases hdiffer : old ≠ spans
      · -- it differs for the first time
        rw [if_pos hdiffer] at hadd
        split_ifs at hadd
        obtain rfl := Option.some.inj hadd
        have hnone : only (ordersOf key files ++ [spans]) = none := by
          rw [hconcat]
          simp [Option.filter, hdiffer]
        exact h.add horder (fun k hk => Dict.find?_erase_of_ne _ hk)
          (fun k hk => by simp [hk]) (by rw [Dict.find?_erase_self, hnone]) (by simp [hnone])
      · rw [if_neg hdiffer, Option.some.injEq] at hadd
        subst hadd
        obtain rfl : old = spans := not_not.mp hdiffer
        have hsome : only (ordersOf key files ++ [old]) = some old := by
          rw [hconcat]
          simp [Option.filter]
        exact h.add horder (fun k hk => Dict.find?_set_of_ne _ _ hk) (fun _ _ => Iff.rfl)
          (by rw [Dict.find?_set_self, hsome]) (by simp [hamb, hsome])

theorem Knows.addFiles (h : Knows b files) {more : List FileArg}
    (hadd : more.foldlM (Adapters.addFile strict) b = some b') : Knows b' (files ++ more) := by
  induction more generalizing b files with
  | nil =>
    obtain rfl : b = b' := by simpa using hadd
    simpa using h
  | cons file more ih =>
    rw [List.foldlM_cons] at hadd
    obtain ⟨b₁, hfirst, hrest⟩ := Option.bind_eq_some_iff.mp hadd
    have := ih (h.addFile hfirst) hrest
    rwa [List.append_assoc] at this

theorem Knows.addMessages (h : Knows b files) {messages : List Message}
    (hadd : messages.foldlM (addMessage loads strict) b = some b') :
    Knows b' (files ++ messages.flatMap fun m => (filesOf loads m).getD []) := by
  induction messages generalizing b files with
  | nil =>
    obtain rfl : b = b' := by simpa using hadd
    simpa using h
  | cons m messages ih =>
    rw [List.foldlM_cons] at hadd
    obtain ⟨b₁, hfirst, hrest⟩ := Option.bind_eq_some_iff.mp hadd
    obtain ⟨more, hmore, hfiles⟩ := Option.bind_eq_some_iff.mp hfirst
    have hcount : Knows (if isSynthetic m then
        { b with syntheticMessages := b.syntheticMessages + 1 } else b) files := by
      split_ifs
      · exact ⟨h.orders, h.ambiguous⟩
      · exact h
    have := ih (hcount.addFiles hfiles) hrest
    rw [List.flatMap_cons, hmore]
    rwa [List.append_assoc] at this

/-! ### Loading the table -/

/-- Rows of different keys are loaded. -/
theorem foldlM_addRow {rows : List Row} {d : Dict Key (List String)}
    (hnodup : (rows.map fun row => signature row.filePath row.spanIds).Nodup)
    (hnew : ∀ row ∈ rows, d.find? (signature row.filePath row.spanIds) = none) :
    ∃ d', rows.foldlM addRow d = some d' ∧ ∀ key spans, d'.find? key = some spans ↔
      (∃ row ∈ rows, signature row.filePath row.spanIds = key ∧ row.spanIds = spans) ∨
        d.find? key = some spans := by
  induction rows generalizing d with
  | nil => exact ⟨d, rfl, fun key spans => by simp⟩
  | cons row rows ih =>
    rw [List.map_cons, List.nodup_cons] at hnodup
    have hfresh := hnew row List.mem_cons_self
    have hrow : addRow d row = some (d.set (signature row.filePath row.spanIds) row.spanIds) := by
      simp [addRow, hfresh]
    obtain ⟨d', hfold, hfind⟩ := @ih (d.set (signature row.filePath row.spanIds) row.spanIds)
      hnodup.2 fun other hother => by
        have hne : signature other.filePath other.spanIds ≠ signature row.filePath row.spanIds :=
          fun heq => hnodup.1 (heq ▸ List.mem_map_of_mem hother)
        rw [Dict.find?_set_of_ne _ _ hne]
        exact hnew other (List.mem_cons_of_mem _ hother)
    refine ⟨d', ?_, fun key spans => ?_⟩
    · rw [List.foldlM_cons, hrow]
      exact hfold
    · rw [hfind key spans, Dict.find?_set]
      by_cases hkey : key = signature row.filePath row.spanIds
      · subst hkey
        simp only [if_pos, Option.some.injEq, List.mem_cons, exists_eq_or_imp, true_and, hfresh]
        have hnone : ¬ ∃ other ∈ rows, signature other.filePath other.spanIds =
            signature row.filePath row.spanIds ∧ other.spanIds = spans := by
          rintro ⟨other, hother, heq, -⟩
          exact hnodup.1 (heq ▸ List.mem_map_of_mem hother)
        simp [hnone]
      · simp [hkey, Ne.symm hkey]

/-- **The table of the builder is loaded, and has the keys with one order.** -/
theorem runtimeTable_eq {sha : String} {root : Trace} {table : Table}
    (hbuild : buildOrderTable loads strict sha root = some table) :
    ∃ orders, runtimeTable table = some orders ∧
      ∀ key, orders.find? key = only (ordersOf key (recordedFiles loads root)) := by
  obtain ⟨b, hfold, htable⟩ := Option.bind_eq_some_iff.mp hbuild
  have hstart : Knows ⟨Dict.empty, [], 0⟩ [] := ⟨fun key => rfl, fun key => by simp [ordersOf]⟩
  have hknows : Knows b (recordedFiles loads root) := by
    have hall := hstart.addMessages hfold
    rwa [List.nil_append] at hall
  obtain rfl := Option.some.inj htable
  -- the key of a row is the key of its entry
  have hsig : ∀ e ∈ b.orders.entries, signature e.1.1 e.2 = e.1 := by
    intro e he
    have hfind := (hknows.orders e.1).symm.trans (Dict.find?_eq_some_iff.mpr he)
    obtain ⟨hne, hall⟩ := only_eq_some_iff.mp hfind
    obtain ⟨spans, hspans⟩ := List.exists_mem_of_ne_nil _ hne
    obtain ⟨filePath, hkey⟩ := signature_of_mem (hall spans hspans ▸ hspans)
    rw [← hkey]
    rfl
  have hperm := List.perm_insertionSort (fun x y => keyLe x y) b.orders.entries
  have hkeys : ((b.orders.entries.insertionSort fun x y => keyLe x y).map fun e => (⟨e.1.1, e.2⟩ : Row)).map
      (fun row => signature row.filePath row.spanIds) =
      (b.orders.entries.insertionSort fun x y => keyLe x y).map Prod.fst := by
    rw [List.map_map]
    exact List.map_congr_left fun e he => hsig e (hperm.mem_iff.mp he)
  have hnodup : (((b.orders.entries.insertionSort fun x y => keyLe x y).map
      fun e => (⟨e.1.1, e.2⟩ : Row)).map fun row => signature row.filePath row.spanIds).Nodup := by
    rw [hkeys, (hperm.map Prod.fst).nodup_iff]
    exact b.orders.nodup
  obtain ⟨orders, hload, hfind⟩ := foldlM_addRow hnodup fun row _ => Dict.find?_empty _
  refine ⟨orders, ?_, fun key => ?_⟩
  · rw [runtimeTable, if_neg (by simp)]
    exact hload
  · rw [← hknows.orders key]
    refine Option.ext fun spans => ?_
    rw [hfind, Dict.find?_empty, Dict.find?_eq_some_iff]
    constructor
    · rintro (⟨row, hrow, hkey, hspans⟩ | hnone)
      · obtain ⟨e, he, rfl⟩ := List.mem_map.mp hrow
        have he' := hperm.mem_iff.mp he
        rw [hsig e he'] at hkey
        have heq : e = (key, spans) := Prod.ext hkey hspans
        exact heq ▸ he'
      · cases hnone
    · intro hmem
      exact .inl ⟨⟨key.1, spans⟩, List.mem_map.mpr ⟨(key, spans), hperm.mem_iff.mpr hmem, rfl⟩,
        hsig _ hmem, rfl⟩

/-- A recorded order is an order of the live spans. -/
theorem perm_of_signature {filePath filePath' : String} {spans live : List String}
    (h : signature filePath' spans = signature filePath live) : spans.Perm live := by
  have hsort : spans.insertionSort (· ≤ ·) = live.insertionSort (· ≤ ·) := congrArg Prod.snd h
  have hperm := (List.perm_insertionSort (· ≤ ·) spans).symm
  rw [hsort] at hperm
  exact hperm.trans (List.perm_insertionSort (· ≤ ·) live)

section

variable {orders : Dict Key (List String)} {filePath : String} {live out : List String}

/-- What is written out is a permutation of the live spans. -/
theorem restoreSpanOrder_perm
    (horders : ∀ key, orders.find? key = only (ordersOf key files))
    (hrestore : restoreSpanOrder orders strict filePath live = some out) : out.Perm live := by
  unfold restoreSpanOrder at hrestore
  cases hfind : orders.find? (signature filePath live) with
  | none =>
    simp only [hfind] at hrestore
    split_ifs at hrestore
    obtain rfl := Option.some.inj hrestore
    exact List.Perm.refl _
  | some ordered =>
    simp only [hfind, Option.some.injEq] at hrestore
    subst hrestore
    -- the order of a key is recorded for it
    obtain ⟨hne, hall⟩ := only_eq_some_iff.mp ((horders _).symm.trans hfind)
    obtain ⟨spans, hspans⟩ := List.exists_mem_of_ne_nil _ hne
    obtain ⟨filePath', hkey⟩ := signature_of_mem hspans
    rw [hall spans hspans] at hkey
    exact perm_of_signature hkey

theorem restoreSpanOrder_of_only
    (horders : ∀ key, orders.find? key = only (ordersOf key files)) {spans : List String}
    (hne : ordersOf (signature filePath live) files ≠ [])
    (hall : ∀ order ∈ ordersOf (signature filePath live) files, order = spans) :
    restoreSpanOrder orders strict filePath live = some spans := by
  rw [restoreSpanOrder, horders, only_eq_some_iff.mpr ⟨hne, hall⟩]

theorem restoreSpanOrder_of_ne
    (horders : ∀ key, orders.find? key = only (ordersOf key files)) {order order' : List String}
    (h : order ∈ ordersOf (signature filePath live) files)
    (h' : order' ∈ ordersOf (signature filePath live) files) (hne : order ≠ order') :
    restoreSpanOrder orders false filePath live = some live := by
  have hnone : only (ordersOf (signature filePath live) files) = none :=
    (only_eq_none_iff (List.ne_nil_of_mem h)).mpr ⟨order, h, order', h', hne⟩
  rw [restoreSpanOrder, horders, hnone]
  rfl

end

end Adapters

end DeltaBox
