import DeltaBox.Index.Plain

/-!
# The sidecar keeps its copies apart

Every request that changes a table changes only objects that it has made itself: a build starts with
new tables, and a refresh copies the tables and their lists first. So the dictionaries that were
there before, the snapshots among them, hold what they held. And since no two names share a list in
the new tables, what happens to them is what happens to a value.

## Main definitions

* `Memory.Extends` — the objects that were there are unchanged
* `Mine` — the references of a dictionary are to objects made since, and none is there twice
* `Valid` — the references of a dictionary are to objects

## Main results

* `insertEntry_spec`, `Mine.remove` — the changes of the tables, on values
* `cowForUpdate_spec` — a copy has the same contents, and is not shared
* `call_spec` — a request of the sidecar is a request of `Plain`
-/

namespace DeltaBox

namespace Index

/-- The two tables of names. -/
inductive Kind where
  | classes
  | functions
  deriving DecidableEq

/-- The reference to a table. -/
def Top.tabs (top : Top) : Kind → Option ℕ
  | .classes => top.classes
  | .functions => top.functions

/-- The reference to the rows of a name. -/
def Memory.rowRef (m : Memory) (tabs : Kind → Option ℕ) (k : Kind) (name : String) : Option ℕ :=
  (m.tableOf (tabs k)).find? name

/-- A table with its rows. -/
def Memory.rowsOf (m : Memory) (tabs : Kind → Option ℕ) (k : Kind) : Dict String (List String) :=
  (m.tableOf (tabs k)).map m.rows.cell

/-- The objects of `m₀` are in `m`, unchanged. -/
structure Memory.Extends (m₀ m : Memory) : Prop where
  files : m₀.files.Keeps m₀.files.next m.files
  tables : m₀.tables.Keeps m₀.tables.next m.tables
  rows : m₀.rows.Keeps m₀.rows.next m.rows

theorem Memory.Extends.refl (m : Memory) : m.Extends m := ⟨.refl _ _, .refl _ _, .refl _ _⟩

/-- The tables of names are new, with all their lists, and nothing is in them twice. -/
structure Private (m₀ m : Memory) (tabs : Kind → Option ℕ) : Prop where
  kept : m₀.Extends m
  table : ∀ k t, tabs k = some t → m₀.tables.next ≤ t ∧ t < m.tables.next
  apart : ∀ k k' t, tabs k = some t → tabs k' = some t → k = k'
  rows : ∀ k name r, m.rowRef tabs k name = some r → m₀.rows.next ≤ r ∧ r < m.rows.next
  once : ∀ k k' name name' r, m.rowRef tabs k name = some r → m.rowRef tabs k' name' = some r →
    k = k' ∧ name = name'

variable {m₀ m : Memory} {tabs : Kind → Option ℕ} {k k' : Kind} {t r : ℕ} {name rel : String}

/-! ### One table changes -/

theorem tableOf_write_self {d : Dict String ℕ} :
    ({ m with tables := m.tables.write t d } : Memory).tableOf (some t) = d := by
  simp [Memory.tableOf]

theorem tableOf_write_of_ne {d : Dict String ℕ} {table : Option ℕ} (h : table ≠ some t) :
    ({ m with tables := m.tables.write t d } : Memory).tableOf table = m.tableOf table := by
  cases table with
  | none => rfl
  | some u => exact Heap.cell_write_of_ne fun heq => h (congrArg some heq)

theorem Private.tabs_ne (h : Private m₀ m tabs) (hk : tabs k = some t) (hne : k' ≠ k) :
    tabs k' ≠ some t :=
  fun hk' => hne (h.apart k' k t hk' hk)

/-- A table gets other names, with old or new lists. The reference to a list that was not there must
be new. -/
theorem Private.write (h : Private m₀ m tabs) (hk : tabs k = some t) {d : Dict String ℕ}
    {rows : Heap (List String)} (hrows : m.rows.Keeps m.rows.next rows)
    (hold : ∀ name r, d.find? name = some r →
      m.rowRef tabs k name = some r ∨ m.rows.next ≤ r ∧ r < rows.next)
    (honce : ∀ name name' r, d.find? name = some r → d.find? name' = some r → name = name') :
    Private m₀ { m with tables := m.tables.write t d, rows } tabs := by
  have hself : ({ m with tables := m.tables.write t d, rows } : Memory).tableOf (tabs k) = d := by
    rw [hk]
    exact tableOf_write_self
  have hother : ∀ k', k' ≠ k →
      ({ m with tables := m.tables.write t d, rows } : Memory).tableOf (tabs k') =
        m.tableOf (tabs k') :=
    fun k' hne => tableOf_write_of_ne (h.tabs_ne hk hne)
  have hlt : m.rows.next ≤ rows.next := hrows.next_le
  have hbase : m₀.rows.next ≤ m.rows.next := h.kept.rows.next_le
  -- where a reference comes from
  have hfrom : ∀ k' name r,
      ({ m with tables := m.tables.write t d, rows } : Memory).rowRef tabs k' name = some r →
        m.rowRef tabs k' name = some r ∨ k' = k ∧ m.rows.next ≤ r ∧ r < rows.next := by
    intro k' name r hr
    by_cases hne : k' = k
    · subst hne
      rw [Memory.rowRef, hself] at hr
      rcases hold name r hr with hr | hr
      · exact .inl hr
      · exact .inr ⟨rfl, hr⟩
    · rw [Memory.rowRef, hother k' hne] at hr
      exact .inl hr
  refine ⟨⟨h.kept.files, h.kept.tables.trans (.write (h.table k t hk).1 d), ?_⟩, h.table, h.apart,
    ?_, ?_⟩
  · refine h.kept.rows.trans ⟨hlt, fun r hr => hrows.cell r (hr.trans_le hbase)⟩
  · intro k' name r hr
    rcases hfrom k' name r hr with hr | ⟨-, hge, hr⟩
    · exact ⟨(h.rows k' name r hr).1, (h.rows k' name r hr).2.trans_le hlt⟩
    · exact ⟨hbase.trans hge, hr⟩
  · intro k₁ k₂ a b r ha hb
    by_cases hk₁ : k₁ = k <;> by_cases hk₂ : k₂ = k
    · subst hk₁ hk₂
      rw [Memory.rowRef, hself] at ha hb
      exact ⟨rfl, honce a b r ha hb⟩
    · rcases hfrom k₁ a r ha with ha | ⟨-, hge, -⟩
      · rw [Memory.rowRef, hother k₂ hk₂] at hb
        exact h.once k₁ k₂ a b r ha hb
      · rw [Memory.rowRef, hother k₂ hk₂] at hb
        exact absurd (h.rows k₂ b r hb).2 (Nat.not_lt.mpr hge)
    · rcases hfrom k₂ b r hb with hb | ⟨-, hge, -⟩
      · rw [Memory.rowRef, hother k₁ hk₁] at ha
        exact h.once k₁ k₂ a b r ha hb
      · rw [Memory.rowRef, hother k₁ hk₁] at ha
        exact absurd (h.rows k₁ a r ha).2 (Nat.not_lt.mpr hge)
    · rw [Memory.rowRef, hother k₁ hk₁] at ha
      rw [Memory.rowRef, hother k₂ hk₂] at hb
      exact h.once k₁ k₂ a b r ha hb

/-- The rows of the other table are as they were. -/
theorem Private.rowsOf_write_of_ne (h : Private m₀ m tabs) (hk : tabs k = some t)
    {d : Dict String ℕ} {rows : Heap (List String)} (hrows : m.rows.Keeps m.rows.next rows)
    (hne : k' ≠ k) :
    ({ m with tables := m.tables.write t d, rows } : Memory).rowsOf tabs k' = m.rowsOf tabs k' := by
  have htable : ({ m with tables := m.tables.write t d, rows } : Memory).tableOf (tabs k') =
      m.tableOf (tabs k') := tableOf_write_of_ne (h.tabs_ne hk hne)
  rw [Memory.rowsOf, htable]
  exact Dict.map_congr fun a r hr => hrows.cell r (h.rows k' a r hr).2

theorem rowsOf_write_self (hk : tabs k = some t) {d : Dict String ℕ} {rows : Heap (List String)} :
    ({ m with tables := m.tables.write t d, rows } : Memory).rowsOf tabs k = d.map rows.cell := by
  have htable : ({ m with tables := m.tables.write t d, rows } : Memory).tableOf (tabs k) = d := by
    rw [hk]
    exact tableOf_write_self
  rw [Memory.rowsOf, htable]

theorem find?_rowsOf : (m.rowsOf tabs k).find? name = (m.rowRef tabs k name).map m.rows.cell :=
  Dict.find?_map _ _ _

theorem rowRef_of_tab (hk : tabs k = some t) :
    m.rowRef tabs k name = (m.tables.cell t).find? name := by
  rw [Memory.rowRef, hk]
  rfl

theorem dropRows_empty (rel name : String) : dropRows rel .empty name = .empty := by
  have hrows : (((Dict.empty : Dict String (List String)).find? name).getD []).filter (· ≠ rel) =
      [] := rfl
  rw [dropRows, if_pos hrows]
  rfl

/-- Taking a path out of the rows of a name, on values. -/
theorem Private.dropRows (h : Private m₀ m tabs) (k : Kind) (rel name : String) :
    Private m₀ (m.dropRows rel (tabs k) name) tabs ∧
    (m.dropRows rel (tabs k) name).files = m.files ∧
    (m.dropRows rel (tabs k) name).rowsOf tabs =
      Function.update (m.rowsOf tabs) k (Index.dropRows rel (m.rowsOf tabs k) name) := by
  cases hk : tabs k with
  | none =>
    have hempty : m.rowsOf tabs k = .empty := by
      rw [Memory.rowsOf, hk]
      rfl
    refine ⟨h, rfl, ?_⟩
    rw [hempty, dropRows_empty, ← hempty, Function.update_eq_self]
    rfl
  | some t =>
    have hrows : ((m.rowsOf tabs k).find? name).getD [] =
        (((m.tables.cell t).find? name).map m.rows.cell).getD [] := by
      rw [find?_rowsOf, rowRef_of_tab hk]
    have hself : m.rowsOf tabs k = (m.tables.cell t).map m.rows.cell := by
      rw [Memory.rowsOf, hk]
      rfl
    unfold Index.dropRows Memory.dropRows
    dsimp only
    rw [hrows]
    split_ifs with hnil
    · -- the last row goes, and the name with it
      refine ⟨h.write hk (.refl _ _) (fun a r hr => .inl ?_) fun a b r ha hb => ?_, rfl, ?_⟩
      · rw [Dict.find?_erase] at hr
        split_ifs at hr
        rw [rowRef_of_tab hk]
        exact hr
      · rw [Dict.find?_erase] at ha hb
        split_ifs at ha hb
        exact (h.once k k a b r ((rowRef_of_tab hk).trans ha) ((rowRef_of_tab hk).trans hb)).2
      · funext k'
        by_cases hne : k' = k
        · subst hne
          rw [Function.update_self, rowsOf_write_self hk, Dict.map_erase, hself]
        · rw [Function.update_of_ne hne]
          exact h.rowsOf_write_of_ne hk (.refl _ _) hne
    · -- the other rows are a new list
      have hkeep := Heap.Keeps.alloc (h := m.rows) (Nat.le_refl _)
        ((((m.tables.cell t).find? name).map m.rows.cell).getD [] |>.filter (· ≠ rel))
      refine ⟨h.write hk hkeep (fun a r hr => ?_) fun a b r ha hb => ?_, rfl, ?_⟩
      · rw [Dict.find?_set] at hr
        split_ifs at hr
        · obtain rfl := Option.some.inj hr
          exact .inr ⟨Nat.le_refl _, Nat.lt_succ_self _⟩
        · exact .inl ((rowRef_of_tab hk).trans hr)
      · have hold : ∀ c, (m.tables.cell t).find? c ≠ some m.rows.next := by
          intro c hc
          exact Nat.lt_irrefl _ (h.rows k c _ ((rowRef_of_tab hk).trans hc)).2
        rw [Dict.find?_set] at ha hb
        split_ifs at ha hb with hca hcb hcb
        · rw [hca, hcb]
        · exact absurd (hb.trans ha.symm) (hold b)
        · exact absurd (ha.trans hb.symm) (hold a)
        · exact (h.once k k a b r ((rowRef_of_tab hk).trans ha) ((rowRef_of_tab hk).trans hb)).2
      · funext k'
        by_cases hne : k' = k
        · subst hne
          rw [Function.update_self, rowsOf_write_self hk, Dict.map_set, Heap.cell_alloc_self, hself]
          refine congrArg (Dict.set · name _) (Dict.map_congr fun a r hr => ?_)
          exact Heap.cell_alloc_of_lt (h.rows k' a r ((rowRef_of_tab hk).trans hr)).2
        · rw [Function.update_of_ne hne]
          exact h.rowsOf_write_of_ne hk hkeep hne

/-- The same for several names. -/
theorem Private.foldl_dropRows (h : Private m₀ m tabs) (k : Kind) (rel : String)
    (names : List String) :
    Private m₀ (names.foldl (Memory.dropRows rel (tabs k)) m) tabs ∧
    (names.foldl (Memory.dropRows rel (tabs k)) m).files = m.files ∧
    (names.foldl (Memory.dropRows rel (tabs k)) m).rowsOf tabs =
      Function.update (m.rowsOf tabs) k
        (names.foldl (Index.dropRows rel) (m.rowsOf tabs k)) := by
  induction names generalizing m with
  | nil => exact ⟨h, rfl, (Function.update_eq_self k _).symm⟩
  | cons name names ih =>
    obtain ⟨h', hfiles, hrows⟩ := h.dropRows k rel name
    obtain ⟨h'', hfiles', hrows'⟩ := ih h'
    refine ⟨h'', hfiles'.trans hfiles, ?_⟩
    rw [List.foldl_cons, hrows', hrows, Function.update_idem, Function.update_self, List.foldl_cons]

/-! ### Rows are added -/

/-- A table is there, or is made. -/
theorem Private.setdefault (h : Private m₀ m tabs) (k : Kind) :
    Private m₀ (m.setdefault (tabs k)).1
      (Function.update tabs k (some (m.setdefault (tabs k)).2)) ∧
    (m.setdefault (tabs k)).1.files = m.files ∧
    (m.setdefault (tabs k)).1.rowsOf (Function.update tabs k (some (m.setdefault (tabs k)).2)) =
      m.rowsOf tabs := by
  cases hk : tabs k with
  | some t =>
    have hself : Function.update tabs k (some t) = tabs := by
      rw [← hk, Function.update_eq_self]
    exact ⟨hself.symm ▸ h, rfl, by rw [Memory.setdefault, hself]⟩
  | none =>
    have htable : ∀ k', ({ m with tables := m.tables.alloc .empty } : Memory).tableOf
        (Function.update tabs k (some m.tables.next) k') = m.tableOf (tabs k') := by
      intro k'
      by_cases hne : k' = k
      · subst hne
        rw [Function.update_self, hk]
        simp [Memory.tableOf]
      · rw [Function.update_of_ne hne]
        cases hk' : tabs k' with
        | none => rfl
        | some u => exact Heap.cell_alloc_of_lt (h.table k' u hk').2
    have hkept := h.kept.tables.trans (Heap.Keeps.alloc h.kept.tables.next_le .empty)
    refine ⟨⟨⟨h.kept.files, hkept, h.kept.rows⟩, ?_, ?_, ?_, ?_⟩, rfl, ?_⟩
    · intro k' u hu
      simp only [Memory.setdefault, Function.update_apply] at hu
      split_ifs at hu
      · obtain rfl := Option.some.inj hu
        exact ⟨h.kept.tables.next_le, Nat.lt_succ_self _⟩
      · exact ⟨(h.table k' u hu).1, Nat.lt_succ_of_lt (h.table k' u hu).2⟩
    · intro k₁ k₂ u h₁ h₂
      simp only [Memory.setdefault, Function.update_apply] at h₁ h₂
      split_ifs at h₁ h₂ with hk₁ hk₂ hk₂
      · rw [hk₁, hk₂]
      · obtain rfl := Option.some.inj h₁
        exact absurd (h.table k₂ _ h₂).2 (Nat.lt_irrefl _)
      · obtain rfl := Option.some.inj h₂
        exact absurd (h.table k₁ _ h₁).2 (Nat.lt_irrefl _)
      · exact h.apart k₁ k₂ u h₁ h₂
    · intro k' a r hr
      rw [Memory.rowRef, Memory.setdefault, htable] at hr
      exact h.rows k' a r hr
    · intro k₁ k₂ a b r ha hb
      rw [Memory.rowRef, Memory.setdefault, htable] at ha hb
      exact h.once k₁ k₂ a b r ha hb
    · funext k'
      rw [Memory.rowsOf, Memory.setdefault, htable]
      rfl

/-- A list is changed in place. Only one name has it. -/
theorem Private.setRows (h : Private m₀ m tabs) (hr : m.rowRef tabs k name = some r)
    (v : List String) :
    Private m₀ { m with rows := m.rows.write r v } tabs ∧
    ({ m with rows := m.rows.write r v } : Memory).rowsOf tabs =
      Function.update (m.rowsOf tabs) k ((m.rowsOf tabs k).set name v) := by
  have hge : m₀.rows.next ≤ r := (h.rows k name r hr).1
  refine ⟨⟨⟨h.kept.files, h.kept.tables, h.kept.rows.trans (.write hge v)⟩, h.table, h.apart, h.rows,
    h.once⟩, ?_⟩
  funext k'
  by_cases hne : k' = k
  · subst hne
    rw [Function.update_self]
    exact Dict.map_update m.rows.cell hr (fun a ha => (h.once k' k' a name r ha hr).2) v
  · rw [Function.update_of_ne hne]
    refine Dict.map_congr fun a u hu => Heap.cell_write_of_ne ?_
    rintro rfl
    exact hne (h.once k' k a name u hu hr).1

/-- The rows of a name are there, or are made. -/
theorem Private.setdefaultRows (h : Private m₀ m tabs) (hk : tabs k = some t) (name : String) :
    Private m₀ (m.setdefaultRows t name).1 tabs ∧
    (m.setdefaultRows t name).1.files = m.files ∧
    (m.setdefaultRows t name).1.rowRef tabs k name = some (m.setdefaultRows t name).2 ∧
    (m.setdefaultRows t name).1.rows.cell (m.setdefaultRows t name).2 =
      ((m.rowsOf tabs k).find? name).getD [] ∧
    ∀ v, Function.update ((m.setdefaultRows t name).1.rowsOf tabs) k
        (((m.setdefaultRows t name).1.rowsOf tabs k).set name v) =
      Function.update (m.rowsOf tabs) k ((m.rowsOf tabs k).set name v) := by
  have hself : m.rowsOf tabs k = (m.tables.cell t).map m.rows.cell := by
    rw [Memory.rowsOf, hk]
    rfl
  have hvalue : (m.rowsOf tabs k).find? name = ((m.tables.cell t).find? name).map m.rows.cell := by
    rw [hself, Dict.find?_map]
  rw [hvalue]
  unfold Memory.setdefaultRows
  split
  next r hr =>
    rw [hr]
    exact ⟨h, rfl, (rowRef_of_tab hk).trans hr, rfl, fun _ => rfl⟩
  next hnone =>
    have hkeep := Heap.Keeps.alloc (h := m.rows) (Nat.le_refl _) []
    have hfind : ∀ a r, ((m.tables.cell t).set name m.rows.next).find? a = some r →
        a = name ∧ r = m.rows.next ∨ m.rowRef tabs k a = some r := by
      intro a r hr
      rw [Dict.find?_set] at hr
      split_ifs at hr with ha
      · exact .inl ⟨ha, (Option.some.inj hr).symm⟩
      · exact .inr ((rowRef_of_tab hk).trans hr)
    refine ⟨h.write hk hkeep (fun a r hr => ?_) fun a b r ha hb => ?_, rfl, ?_, ?_, fun v => ?_⟩
    · rcases hfind a r hr with ⟨-, rfl⟩ | hr
      · exact .inr ⟨Nat.le_refl _, Nat.lt_succ_self _⟩
      · exact .inl hr
    · rcases hfind a r ha with ⟨rfl, rfl⟩ | ha' <;> rcases hfind b _ hb with ⟨rfl, heq⟩ | hb'
      · rfl
      · exact absurd (h.rows k b _ hb').2 (Nat.lt_irrefl _)
      · exact absurd (heq ▸ (h.rows k a r ha').2) (Nat.lt_irrefl _)
      · exact (h.once k k a b r ha' hb').2
    · rw [rowRef_of_tab hk]
      simp
    · rw [hnone]
      exact Heap.cell_alloc_self
    · funext k'
      by_cases hne : k' = k
      · subst hne
        rw [Function.update_self, Function.update_self, rowsOf_write_self hk, Dict.map_set,
          Dict.set_set, hself]
        refine congrArg (Dict.set · name v) (Dict.map_congr fun a r hr => ?_)
        exact Heap.cell_alloc_of_lt (h.rows k' a r ((rowRef_of_tab hk).trans hr)).2
      · rw [Function.update_of_ne hne, Function.update_of_ne hne]
        exact h.rowsOf_write_of_ne hk hkeep hne

/-- A row is added to a name, on values. -/
theorem Private.pushRow (h : Private m₀ m tabs) (k : Kind) (rel name : String) :
    Private m₀ (Memory.pushRow rel (m, tabs k) name).1
      (Function.update tabs k (Memory.pushRow rel (m, tabs k) name).2) ∧
    (Memory.pushRow rel (m, tabs k) name).1.files = m.files ∧
    (Memory.pushRow rel (m, tabs k) name).1.rowsOf
        (Function.update tabs k (Memory.pushRow rel (m, tabs k) name).2) =
      Function.update (m.rowsOf tabs) k (Index.pushRow rel (m.rowsOf tabs k) name) := by
  obtain ⟨h₁, hfiles₁, hrows₁⟩ := h.setdefault k
  have hk : Function.update tabs k (some (m.setdefault (tabs k)).2) k =
      some (m.setdefault (tabs k)).2 := Function.update_self ..
  obtain ⟨h₂, hfiles₂, href, hcell, hrows₂⟩ := h₁.setdefaultRows hk name
  obtain ⟨h₃, hrows₃⟩ := h₂.setRows href
    (((m.setdefault (tabs k)).1.setdefaultRows (m.setdefault (tabs k)).2 name).1.rows.cell
      ((m.setdefault (tabs k)).1.setdefaultRows (m.setdefault (tabs k)).2 name).2 ++ [rel])
  refine ⟨h₃, hfiles₂.trans hfiles₁, hrows₃.trans ?_⟩
  rw [hrows₂, hcell, hrows₁]
  rfl

/-- The same for several names. -/
theorem Private.foldl_pushRow (h : Private m₀ m tabs) (k : Kind) (rel : String)
    (names : List String) :
    Private m₀ (names.foldl (Memory.pushRow rel) (m, tabs k)).1
      (Function.update tabs k (names.foldl (Memory.pushRow rel) (m, tabs k)).2) ∧
    (names.foldl (Memory.pushRow rel) (m, tabs k)).1.files = m.files ∧
    (names.foldl (Memory.pushRow rel) (m, tabs k)).1.rowsOf
        (Function.update tabs k (names.foldl (Memory.pushRow rel) (m, tabs k)).2) =
      Function.update (m.rowsOf tabs) k (names.foldl (Index.pushRow rel) (m.rowsOf tabs k)) := by
  induction names generalizing m tabs with
  | nil =>
    rw [List.foldl_nil, List.foldl_nil, Function.update_eq_self, Function.update_eq_self]
    exact ⟨h, rfl, rfl⟩
  | cons name names ih =>
    obtain ⟨h', hfiles, hrows⟩ := h.pushRow k rel name
    have hnext := ih h'
    rw [Function.update_self, Function.update_idem] at hnext
    obtain ⟨h'', hfiles', hrows'⟩ := hnext
    refine ⟨h'', hfiles'.trans hfiles, ?_⟩
    rw [List.foldl_cons, List.foldl_cons, hrows', hrows, Function.update_idem,
      Function.update_self]

/-! ### A dictionary changes -/

/-- All tables of a dictionary are new. -/
structure Mine (m₀ m : Memory) (top : Top) : Prop where
  tables : Private m₀ m top.tabs
  files : ∀ f, top.files = some f → m₀.files.next ≤ f ∧ f < m.files.next

variable {top : Top}

/-- Two memories with the same files. -/
theorem filesOf_congr {m' : Memory} (h : m'.files = m.files) (files : Option ℕ) :
    m'.filesOf files = m.filesOf files := by
  rw [Memory.filesOf, h]
  rfl

theorem Memory.remove_absent (h : (m.filesOf top.files).find? rel = none) :
    m.remove top rel = m := by
  unfold Memory.remove
  cases hf : top.files with
  | none => rfl
  | some f =>
    rw [Memory.filesOf, hf] at h
    dsimp only
    rw [show (m.files.cell f).find? rel = none from h]

theorem Memory.remove_present {f : ℕ} {e : Entry} (hf : top.files = some f)
    (he : (m.files.cell f).find? rel = some e) :
    m.remove top rel = e.functions.foldl (Memory.dropRows rel (top.tabs .functions))
      (e.classes.foldl (Memory.dropRows rel (top.tabs .classes))
        { m with files := m.files.write f ((m.files.cell f).erase rel) }) := by
  simp only [Memory.remove, hf, he]
  rfl

theorem State.remove_absent {x : State} (h : x.files.find? rel = none) : x.remove rel = x := by
  rw [State.remove, h]

theorem State.remove_present {x : State} {e : Entry} (h : x.files.find? rel = some e) :
    x.remove rel =
      { x with
        files := x.files.erase rel
        classes := e.classes.foldl (Index.dropRows rel) x.classes
        functions := e.functions.foldl (Index.dropRows rel) x.functions } := by
  rw [State.remove, h]

/-- The files of a dictionary are changed in place. -/
theorem Mine.setFiles (h : Mine m₀ m top) {f : ℕ} (hf : top.files = some f)
    (d : Dict String Entry) : Mine m₀ { m with files := m.files.write f d } top :=
  ⟨⟨⟨h.tables.kept.files.trans (.write (h.files f hf).1 d), h.tables.kept.tables,
    h.tables.kept.rows⟩, h.tables.table, h.tables.apart, h.tables.rows, h.tables.once⟩, h.files⟩

/-- Only the tables of names change. -/
theorem Mine.of_private {m' : Memory} (h : Mine m₀ m top) (hp : Private m₀ m' top.tabs)
    (hfiles : m'.files = m.files) : Mine m₀ m' top :=
  ⟨hp, fun f hf => hfiles ▸ h.files f hf⟩

/-- `_remove`, on values. -/
theorem Mine.remove (h : Mine m₀ m top) (rel : String) :
    Mine m₀ (m.remove top rel) top ∧
    (m.remove top rel).index top = (m.index top).remove rel := by
  cases he : (m.filesOf top.files).find? rel with
  | none =>
    rw [Memory.remove_absent he, State.remove_absent he]
    exact ⟨h, rfl⟩
  | some e =>
    obtain ⟨f, hf⟩ : ∃ f, top.files = some f := by
      cases hf : top.files with
      | none => simp [Memory.filesOf, hf] at he
      | some f => exact ⟨f, rfl⟩
    have hcell : m.filesOf top.files = m.files.cell f := by
      rw [Memory.filesOf, hf]
      rfl
    rw [Memory.remove_present hf (hcell ▸ he), State.remove_present (x := m.index top) he]
    -- the entry goes, and then its names in both tables
    have h₁ := h.setFiles hf ((m.files.cell f).erase rel)
    obtain ⟨h₂, hfiles₂, hrows₂⟩ := h₁.tables.foldl_dropRows .classes rel e.classes
    obtain ⟨h₃, hfiles₃, hrows₃⟩ := h₂.foldl_dropRows .functions rel e.functions
    refine ⟨h₁.of_private h₃ (hfiles₃.trans hfiles₂), ?_⟩
    have hc := congrFun hrows₃ .classes
    have hg := congrFun hrows₃ .functions
    rw [hrows₂] at hc hg
    simp only [Function.update_self, Function.update_of_ne, ne_eq, reduceCtorEq,
      not_false_eq_true] at hc hg
    simp only [Memory.index, State.mk.injEq, true_and, and_true]
    refine ⟨?_, hc, hg⟩
    rw [filesOf_congr (hfiles₃.trans hfiles₂), hcell, Memory.filesOf, hf]
    simp

/-- The table of files is there, or is made. -/
theorem Mine.setdefaultFiles (h : Mine m₀ m top) :
    Mine m₀ (m.setdefaultFiles top.files).1
      { top with files := some (m.setdefaultFiles top.files).2 } ∧
    (m.setdefaultFiles top.files).1.files.cell (m.setdefaultFiles top.files).2 =
      m.filesOf top.files ∧
    (m.setdefaultFiles top.files).1.tables = m.tables ∧
    (m.setdefaultFiles top.files).1.rows = m.rows := by
  cases hf : top.files with
  | some f =>
    refine ⟨⟨h.tables, fun f' hf' => ?_⟩, rfl, rfl, rfl⟩
    exact h.files f' (hf.trans hf')
  | none =>
    have hkept := h.tables.kept.files.trans (.alloc h.tables.kept.files.next_le .empty)
    refine ⟨⟨⟨⟨hkept, h.tables.kept.tables, h.tables.kept.rows⟩, h.tables.table, h.tables.apart,
      h.tables.rows, h.tables.once⟩, fun f' hf' => ?_⟩, Heap.cell_alloc_self, rfl, rfl⟩
    obtain rfl := Option.some.inj hf'
    exact ⟨h.tables.kept.files.next_le, Nat.lt_succ_self _⟩

/-- `_index_one` with an entry, on values. -/
theorem Mine.insertEntry (h : Mine m₀ m top) (e : Entry) :
    Mine m₀ (insertEntry (m, top) e).1 (insertEntry (m, top) e).2 ∧
    (insertEntry (m, top) e).1.index (insertEntry (m, top) e).2 = (m.index top).insert e := by
  obtain ⟨h₁, hindex₁⟩ := h.remove e.path
  obtain ⟨h₂, hcell, htables, hrows⟩ := h₁.setdefaultFiles
  rcases hset : (m.remove top e.path).setdefaultFiles top.files with ⟨m₂, f⟩
  rw [hset] at h₂ hcell htables hrows
  have h₃ := h₂.setFiles (f := f) rfl ((m₂.files.cell f).set e.path e)
  obtain ⟨h₄, hfiles₄, hrows₄⟩ := h₃.tables.foldl_pushRow .classes e.path e.classes
  obtain ⟨h₅, hfiles₅, hrows₅⟩ := h₄.foldl_pushRow .functions e.path e.functions
  rcases hc : e.classes.foldl (Memory.pushRow e.path)
    ({ m₂ with files := m₂.files.write f ((m₂.files.cell f).set e.path e) }, top.classes)
    with ⟨m₄, classes⟩
  have hc' : e.classes.foldl (Memory.pushRow e.path)
      ({ m₂ with files := m₂.files.write f ((m₂.files.cell f).set e.path e) },
        ({ top with files := some f } : Top).tabs .classes) = (m₄, classes) := hc
  rw [hc'] at h₄ hfiles₄ hrows₄ h₅ hfiles₅ hrows₅
  rcases hg : e.functions.foldl (Memory.pushRow e.path) (m₄, top.functions) with ⟨m₅, functions⟩
  have hg' : e.functions.foldl (Memory.pushRow e.path) (m₄,
      Function.update ({ top with files := some f } : Top).tabs .classes classes .functions) =
        (m₅, functions) := hg
  rw [hg'] at h₅ hfiles₅ hrows₅
  have hresult : Index.insertEntry (m, top) e =
      (m₅, { top with files := some f, classes, functions }) := by
    simp only [Index.insertEntry, hset, hc, hg]
  have htabs : ({ top with files := some f, classes, functions } : Top).tabs =
      Function.update (Function.update ({ top with files := some f } : Top).tabs .classes classes)
        .functions functions := by
    funext k
    cases k <;> rfl
  have hfiles := hfiles₅.trans hfiles₄
  rw [hresult]
  refine ⟨⟨htabs ▸ h₅, fun f' hf' => ?_⟩, ?_⟩
  · obtain rfl := Option.some.inj hf'
    rw [hfiles]
    exact h₃.files f rfl
  · have hbase : m₂.rowsOf top.tabs = (m.remove top e.path).rowsOf top.tabs := by
      funext k
      rw [Memory.rowsOf, Memory.tableOf, htables, hrows]
      rfl
    have hcl := congrFun hrows₅ .classes
    have hfn := congrFun hrows₅ .functions
    rw [hrows₄] at hcl hfn
    simp only [Function.update_self, Function.update_of_ne, ne_eq, reduceCtorEq,
      not_false_eq_true] at hcl hfn
    have hinsert : (m.index top).insert e =
        { (m.remove top e.path).index top with
          loaded := true
          files := ((m.remove top e.path).index top).files.set e.path e
          classes := e.classes.foldl (Index.pushRow e.path)
            ((m.remove top e.path).index top).classes
          functions := e.functions.foldl (Index.pushRow e.path)
            ((m.remove top e.path).index top).functions } := by
      rw [State.insert, ← hindex₁]
    rw [hinsert]
    simp only [Memory.index, State.mk.injEq, true_and, and_true]
    refine ⟨?_, ?_, ?_, ?_⟩
    · simp [Top.loaded]
    · rw [filesOf_congr hfiles, ← hcell]
      simp [Memory.filesOf]
    · exact hcl.trans
        (congrArg (List.foldl (Index.pushRow e.path) · e.classes) (congrFun hbase .classes))
    · exact hfn.trans
        (congrArg (List.foldl (Index.pushRow e.path) · e.functions) (congrFun hbase .functions))

/-! ### Dictionaries that are only read -/

/-- The references of a dictionary are to objects. -/
structure Valid (m : Memory) (top : Top) : Prop where
  files : ∀ f, top.files = some f → f < m.files.next
  table : ∀ k t, top.tabs k = some t → t < m.tables.next
  rows : ∀ k name r, m.rowRef top.tabs k name = some r → r < m.rows.next

theorem Mine.valid (h : Mine m₀ m top) : Valid m top :=
  ⟨fun f hf => (h.files f hf).2, fun k t ht => (h.tables.table k t ht).2,
    fun k name r hr => (h.tables.rows k name r hr).2⟩

theorem Memory.Extends.trans {m' : Memory} (h : m₀.Extends m) (h' : m.Extends m') :
    m₀.Extends m' where
  files := ⟨h.files.next_le.trans h'.files.next_le, fun r hr =>
    (h'.files.cell r (hr.trans_le h.files.next_le)).trans (h.files.cell r hr)⟩
  tables := ⟨h.tables.next_le.trans h'.tables.next_le, fun r hr =>
    (h'.tables.cell r (hr.trans_le h.tables.next_le)).trans (h.tables.cell r hr)⟩
  rows := ⟨h.rows.next_le.trans h'.rows.next_le, fun r hr =>
    (h'.rows.cell r (hr.trans_le h.rows.next_le)).trans (h.rows.cell r hr)⟩

theorem Valid.tableOf_eq {m' : Memory} (h : Valid m top) (hx : m.Extends m') (k : Kind) :
    m'.tableOf (top.tabs k) = m.tableOf (top.tabs k) := by
  cases hk : top.tabs k with
  | none => rfl
  | some t => exact hx.tables.cell t (h.table k t hk)

theorem Valid.rowsOf_eq {m' : Memory} (h : Valid m top) (hx : m.Extends m') (k : Kind) :
    m'.rowsOf top.tabs k = m.rowsOf top.tabs k := by
  rw [Memory.rowsOf, h.tableOf_eq hx k]
  exact Dict.map_congr fun a r hr => hx.rows.cell r (h.rows k a r hr)

theorem Valid.filesOf_eq {m' : Memory} (h : Valid m top) (hx : m.Extends m') :
    m'.filesOf top.files = m.filesOf top.files := by
  cases hf : top.files with
  | none => rfl
  | some f => exact hx.files.cell f (h.files f hf)

/-- **A dictionary whose objects are unchanged holds what it held.** -/
theorem Valid.extend {m' : Memory} (h : Valid m top) (hx : m.Extends m') :
    Valid m' top ∧ m'.index top = m.index top := by
  refine ⟨⟨fun f hf => (h.files f hf).trans_le hx.files.next_le,
    fun k t ht => (h.table k t ht).trans_le hx.tables.next_le, fun k a r hr => ?_⟩, ?_⟩
  · rw [Memory.rowRef, h.tableOf_eq hx k] at hr
    exact (h.rows k a r hr).trans_le hx.rows.next_le
  · simp only [Memory.index, State.mk.injEq, true_and, and_true]
    exact ⟨h.filesOf_eq hx, h.rowsOf_eq hx .classes, h.rowsOf_eq hx .functions⟩

/-! ### Copies -/

/-- The copies of the lists of a table. -/
theorem foldl_copyRows {base : ℕ} (l : List (String × ℕ)) {w : Heap (List String)}
    {d : Dict String ℕ} (hbase : base ≤ w.next)
    (hkeys : (d.entries.map Prod.fst ++ l.map Prod.fst).Nodup)
    (hold : ∀ a r, d.find? a = some r → base ≤ r ∧ r < w.next)
    (honce : ∀ a b r, d.find? a = some r → d.find? b = some r → a = b)
    (hsource : ∀ p ∈ l, p.2 < base) :
    w.Keeps base (l.foldl copyRows (w, d)).1 ∧
    (∀ a r, (l.foldl copyRows (w, d)).2.find? a = some r →
      base ≤ r ∧ r < (l.foldl copyRows (w, d)).1.next) ∧
    (∀ a b r, (l.foldl copyRows (w, d)).2.find? a = some r →
      (l.foldl copyRows (w, d)).2.find? b = some r → a = b) ∧
    ((l.foldl copyRows (w, d)).2.map (l.foldl copyRows (w, d)).1.cell).entries =
      (d.map w.cell).entries ++ l.map fun p => (p.1, w.cell p.2) := by
  induction l generalizing w d with
  | nil => exact ⟨.refl _ _, hold, honce, by simp⟩
  | cons p l ih =>
    have hnone : d.find? p.1 = none := by
      refine Dict.find?_eq_none_iff.mpr fun hmem => ?_
      rw [List.map_cons, List.nodup_middle, List.nodup_cons] at hkeys
      exact hkeys.1 (List.mem_append_left _ hmem)
    have hfind : ∀ a r, (d.set p.1 w.next).find? a = some r →
        a = p.1 ∧ r = w.next ∨ d.find? a = some r := by
      intro a r hr
      rw [Dict.find?_set] at hr
      split_ifs at hr with ha
      · exact .inl ⟨ha, (Option.some.inj hr).symm⟩
      · exact .inr hr
    have hentries := Dict.entries_set_of_none w.next hnone
    have hnext := ih (w := w.alloc (w.cell p.2)) (d := d.set p.1 w.next)
      (Nat.le_succ_of_le hbase) ?_ ?_ ?_ fun q hq => hsource q (List.mem_cons_of_mem _ hq)
    · obtain ⟨hkeep, hrefs, honce', hmap⟩ := hnext
      refine ⟨(Heap.Keeps.alloc hbase _).trans hkeep, hrefs, honce', hmap.trans ?_⟩
      rw [Dict.map_set, Dict.entries_set_of_none, Heap.cell_alloc_self]
      · have hd : d.map (w.alloc (w.cell p.2)).cell = d.map w.cell :=
          Dict.map_congr fun a r hr => Heap.cell_alloc_of_lt (hold a r hr).2
        have hl : l.map (fun q => (q.1, (w.alloc (w.cell p.2)).cell q.2)) =
            l.map fun q => (q.1, w.cell q.2) := by
          refine List.map_congr_left fun q hq => ?_
          have hlt := (hsource q (List.mem_cons_of_mem _ hq)).trans_le hbase
          rw [Heap.cell_alloc_of_lt hlt]
        rw [hd, hl, List.append_assoc]
        rfl
      · rw [Dict.find?_map, hnone]
        rfl
    · rw [hentries, List.map_append, List.append_assoc]
      exact hkeys
    · intro a r hr
      rcases hfind a r hr with ⟨-, rfl⟩ | hr
      · exact ⟨hbase, Nat.lt_succ_self _⟩
      · exact ⟨(hold a r hr).1, Nat.lt_succ_of_lt (hold a r hr).2⟩
    · intro a b r ha hb
      rcases hfind a r ha with ⟨rfl, rfl⟩ | ha' <;> rcases hfind b _ hb with ⟨rfl, heq⟩ | hb'
      · rfl
      · exact absurd (hold b _ hb').2 (Nat.lt_irrefl _)
      · exact absurd (heq ▸ (hold a r ha').2) (Nat.lt_irrefl _)
      · exact honce a b r ha' hb'

/-- `m'` is `m` with a copy of a table, which is the last one made. Its lists are new, each is there
once, and it has the same rows. -/
structure Copied (m m' : Memory) (table : Option ℕ) : Prop where
  kept : m.Extends m'
  files : m'.files = m.files
  next : m'.tables.next = m.tables.next + 1
  refs : ∀ a r, (m'.tables.cell m.tables.next).find? a = some r →
    m.rows.next ≤ r ∧ r < m'.rows.next
  once : ∀ a b r, (m'.tables.cell m.tables.next).find? a = some r →
    (m'.tables.cell m.tables.next).find? b = some r → a = b
  rows : (m'.tables.cell m.tables.next).map m'.rows.cell = (m.tableOf table).map m.rows.cell

theorem copied_copyTable {table : Option ℕ}
    (hvalid : ∀ a r, (m.tableOf table).find? a = some r → r < m.rows.next) :
    Copied m (m.copyTable table).1 table := by
  have hkeys : ((Dict.empty : Dict String ℕ).entries.map Prod.fst ++
      (m.tableOf table).entries.map Prod.fst).Nodup := (m.tableOf table).nodup
  obtain ⟨hkeep, hrefs, honce, hmap⟩ := foldl_copyRows (m.tableOf table).entries
    (w := m.rows) (d := .empty) (Nat.le_refl _) hkeys (by simp) (by simp)
    fun p hp => hvalid p.1 p.2 (Dict.find?_eq_some_iff.mpr hp)
  have hcell : (m.copyTable table).1.tables.cell m.tables.next =
      ((m.tableOf table).entries.foldl copyRows (m.rows, .empty)).2 := Heap.cell_alloc_self
  exact ⟨⟨.refl _ _, .alloc (Nat.le_refl _) _, hkeep⟩, rfl, rfl, hcell ▸ hrefs, hcell ▸ honce,
    Dict.ext (hcell ▸ hmap)⟩

theorem Top.eq_empty_of_not_loaded (h : top.loaded = false) : top = .empty := by
  obtain ⟨root, files, classes, functions, total, truncated⟩ := top
  simp only [Top.loaded, Bool.or_eq_false_iff, Option.isSome_eq_false_iff,
    Option.isNone_iff_eq_none] at h
  obtain ⟨⟨⟨⟨⟨rfl, rfl⟩, rfl⟩, rfl⟩, rfl⟩, rfl⟩ := h
  rfl

/-- The dictionary without any table is its own copy. -/
theorem Mine.empty (m : Memory) : Mine m m .empty := by
  have htabs : ∀ k, Top.empty.tabs k = none := fun k => by cases k <;> rfl
  have href : ∀ k a, m.rowRef Top.empty.tabs k a = none := by
    intro k a
    rw [Memory.rowRef, htabs]
    rfl
  exact ⟨⟨.refl m, by simp [htabs], by simp [htabs], by simp [href], by simp [href]⟩,
    by simp [Top.empty]⟩

/-- The dictionary that refers to the copies. -/
def Top.copies (top : Top) (m : Memory) : Top :=
  { top with
    files := some m.files.next
    classes := some m.tables.next
    functions := some (m.tables.next + 1) }

/-- What the table of a kind is copied to. -/
theorem rowRef_copies {m₂ m₃ : Memory} (h₂ : Copied m m₂ top.classes)
    (h₃ : Copied m₂ m₃ top.functions) (hr : m₃.rowRef (top.copies m).tabs k name = some r) :
    k = .classes ∧ m.rows.next ≤ r ∧ r < m₂.rows.next ∧
      (m₂.tables.cell m.tables.next).find? name = some r ∨
    k = .functions ∧ m₂.rows.next ≤ r ∧ r < m₃.rows.next ∧
      (m₃.tables.cell m₂.tables.next).find? name = some r := by
  cases k with
  | classes =>
    -- the copied classes survive the copy of the functions
    have hcell : m₃.tables.cell m.tables.next = m₂.tables.cell m.tables.next :=
      h₃.kept.tables.cell _ (by rw [h₂.next]; exact Nat.lt_succ_self _)
    rw [rowRef_of_tab (t := m.tables.next) rfl, hcell] at hr
    exact .inl ⟨rfl, (h₂.refs name r hr).1, (h₂.refs name r hr).2, hr⟩
  | functions =>
    rw [rowRef_of_tab (t := m.tables.next + 1) rfl, ← h₂.next] at hr
    exact .inr ⟨rfl, (h₃.refs name r hr).1, (h₃.refs name r hr).2, hr⟩

/-- The copies of all tables are not shared. -/
theorem Mine.of_copied {m₂ m₃ : Memory} {files : Dict String Entry}
    (h₂ : Copied { m with files := m.files.alloc files } m₂ top.classes)
    (h₃ : Copied m₂ m₃ top.functions) : Mine m m₃ (top.copies m) := by
  have hx₁ : m.Extends { m with files := m.files.alloc files } :=
    ⟨.alloc (Nat.le_refl _) _, .refl _ _, .refl _ _⟩
  have hlt₂ : m.rows.next ≤ m₂.rows.next := h₂.kept.rows.next_le
  have hlt₃ : m₂.rows.next ≤ m₃.rows.next := h₃.kept.rows.next_le
  have hnext₂ : m₂.tables.next = m.tables.next + 1 := h₂.next
  have hnext₃ := h₃.next
  have htab : ∀ k, (top.copies m).tabs k =
      some (if k = .classes then m.tables.next else m.tables.next + 1) := by
    intro k
    cases k <;> rfl
  refine ⟨⟨(hx₁.trans h₂.kept).trans h₃.kept, ?_, ?_, ?_, ?_⟩, ?_⟩
  · intro k t ht
    rw [htab] at ht
    obtain rfl := Option.some.inj ht
    split_ifs <;> omega
  · intro k k' t ht ht'
    rw [htab] at ht ht'
    have heq := Option.some.inj (ht.trans ht'.symm)
    cases k <;> cases k' <;> simp at heq ⊢
  · intro k a r hr
    rcases rowRef_copies (m := { m with files := _ }) h₂ h₃ hr with ⟨-, hge, hlt, -⟩ | ⟨-, hge, hlt, -⟩
    · exact ⟨hge, hlt.trans_le hlt₃⟩
    · exact ⟨hlt₂.trans hge, hlt⟩
  · intro k k' a b r ha hb
    rcases rowRef_copies (m := { m with files := _ }) h₂ h₃ ha with
        ⟨rfl, -, hlt, ha'⟩ | ⟨rfl, hge, -, ha'⟩ <;>
      rcases rowRef_copies (m := { m with files := _ }) h₂ h₃ hb with
        ⟨rfl, -, hlt', hb'⟩ | ⟨rfl, hge', -, hb'⟩
    · exact ⟨rfl, h₂.once a b r ha' hb'⟩
    · exact absurd hlt (Nat.not_lt.mpr hge')
    · exact absurd hlt' (Nat.not_lt.mpr hge)
    · exact ⟨rfl, h₃.once a b r ha' hb'⟩
  · intro f hf
    obtain rfl := Option.some.inj hf
    rw [h₃.files.trans h₂.files]
    exact ⟨Nat.le_refl _, Nat.lt_succ_self _⟩

/-- **A copy has the same contents, and is not shared.** -/
theorem cowForUpdate_spec (h : Valid m top) :
    Mine m (cowForUpdate m top).1 (cowForUpdate m top).2 ∧
    (cowForUpdate m top).1.index (cowForUpdate m top).2 = m.index top ∧
    (cowForUpdate m top).2.root = top.root := by
  cases hloaded : top.loaded with
  | false =>
    obtain rfl := Top.eq_empty_of_not_loaded hloaded
    exact ⟨Mine.empty m, rfl, rfl⟩
  | true =>
    -- the files, the classes and the functions are copied in turn
    have hx₁ : m.Extends { m with files := m.files.alloc (m.filesOf top.files) } :=
      ⟨.alloc (Nat.le_refl _) _, .refl _ _, .refl _ _⟩
    have hv₁ := (h.extend hx₁).1
    have h₂ := copied_copyTable (hv₁.rows .classes)
    have hv₂ := (hv₁.extend h₂.kept).1
    have h₃ := copied_copyTable (hv₂.rows .functions)
    have hcow : cowForUpdate m top =
        ((({ m with files := m.files.alloc (m.filesOf top.files) } : Memory).copyTable
          top.classes).1.copyTable top.functions |>.1, top.copies m) := by
      simp only [cowForUpdate, hloaded, Bool.not_true, Bool.false_eq_true, if_false]
      rfl
    rw [hcow]
    refine ⟨Mine.of_copied h₂ h₃, ?_, rfl⟩
    have hcell := h₃.kept.tables.cell m.tables.next (by rw [h₂.next]; exact Nat.lt_succ_self _)
    simp only [Memory.index, State.mk.injEq]
    refine ⟨?_, rfl, ?_, ?_, ?_, rfl, rfl⟩
    · rw [hloaded]
      simp [Top.loaded, Top.copies]
    · refine (filesOf_congr (h₃.files.trans h₂.files) (some m.files.next)).trans ?_
      exact Heap.cell_alloc_self
    · refine Eq.trans ?_ (h₂.rows.trans (h.rowsOf_eq hx₁ .classes))
      refine Eq.trans (congrArg (Dict.map _) hcell) (Dict.map_congr fun a r hr => ?_)
      exact h₃.kept.rows.cell r (h₂.refs a r hr).2
    · exact h₃.rows.trans ((hv₁.rowsOf_eq h₂.kept .functions).trans (h.rowsOf_eq hx₁ .functions))

/-! ### Requests -/

/-- The loop of a build, when the tables are kept in two ways that answer to each other. -/
theorem buildFrom_sim {σ τ : Type} {R : σ → τ → Prop} {h : Host} {t : Tree} {root : String}
    {insert : σ → Entry → σ} {truncate : σ → σ} {insert' : τ → Entry → τ} {truncate' : τ → τ}
    (hinsert : ∀ x y e, R x y → R (insert x e) (insert' y e))
    (htruncate : ∀ x y, R x y → R (truncate x) (truncate' y)) (paths : List String) {x : σ} {y : τ}
    (hxy : R x y) (total : ℕ) :
    R (buildFrom h t root insert truncate paths x total).state
      (buildFrom h t root insert' truncate' paths y total).state ∧
    (buildFrom h t root insert truncate paths x total).total =
      (buildFrom h t root insert' truncate' paths y total).total ∧
    (buildFrom h t root insert truncate paths x total).raised =
      (buildFrom h t root insert' truncate' paths y total).raised := by
  induction paths generalizing x y total with
  | nil => exact ⟨hxy, rfl, rfl⟩
  | cons path paths ih =>
    simp only [buildFrom]
    by_cases hskip : indexShouldSkip (Posix.relpath h.cwd path root) = true
    · rw [if_pos hskip, if_pos hskip]
      exact ih hxy total
    rw [if_neg hskip, if_neg hskip]
    cases t.stat path with
    | none => exact ih hxy total
    | some st =>
      dsimp only
      by_cases hmax : h.maxTotalBytes < total + st.size
      · rw [if_pos hmax, if_pos hmax]
        exact ⟨htruncate x y hxy, rfl, rfl⟩
      rw [if_neg hmax, if_neg hmax]
      cases readEntry h t path root with
      | nothing => exact ih hxy total
      | raises => exact ⟨hxy, rfl, rfl⟩
      | entry e => exact ih (hinsert x y e hxy) (total + e.size)

/-- The new dictionary of a build refers to new tables, with nothing in them. -/
theorem Mine.fresh (m : Memory) (root : String) :
    Mine m { m with
      files := m.files.alloc .empty
      tables := (m.tables.alloc .empty).alloc .empty }
      ⟨some root, some m.files.next, some m.tables.next, some (m.tables.next + 1), some 0,
        some false⟩ ∧
    ({ m with
      files := m.files.alloc .empty
      tables := (m.tables.alloc .empty).alloc .empty } : Memory).index
      ⟨some root, some m.files.next, some m.tables.next, some (m.tables.next + 1), some 0,
        some false⟩ = State.fresh root := by
  have hfirst : ((m.tables.alloc .empty).alloc .empty).cell m.tables.next = .empty := by
    rw [Heap.cell_alloc_of_lt (Nat.lt_succ_self _), Heap.cell_alloc_self]
  have hsecond : ((m.tables.alloc .empty).alloc .empty).cell (m.tables.next + 1) = .empty :=
    Heap.cell_alloc_self
  have href : ∀ k a, ({ m with
      files := m.files.alloc .empty
      tables := (m.tables.alloc .empty).alloc .empty } : Memory).rowRef
      (⟨some root, some m.files.next, some m.tables.next, some (m.tables.next + 1), some 0,
        some false⟩ : Top).tabs k a = none := by
    intro k a
    cases k with
    | classes =>
      rw [rowRef_of_tab (t := m.tables.next) rfl, hfirst]
      rfl
    | functions =>
      rw [rowRef_of_tab (t := m.tables.next + 1) rfl, hsecond]
      rfl
  refine ⟨⟨⟨⟨.alloc (Nat.le_refl _) _, ?_, .refl _ _⟩, ?_, ?_, ?_, ?_⟩, ?_⟩, ?_⟩
  · exact (Heap.Keeps.alloc (Nat.le_refl _) _).trans (.alloc (Nat.le_succ _) _)
  · intro k t ht
    cases k <;> obtain rfl := Option.some.inj ht
    · exact ⟨Nat.le_refl _, Nat.lt_succ_of_lt (Nat.lt_succ_self _)⟩
    · exact ⟨Nat.le_succ _, Nat.lt_succ_self _⟩
  · intro k k' t ht ht'
    have heq := ht.trans ht'.symm
    cases k <;> cases k' <;> simp [Top.tabs] at heq ⊢
  · intro k a r hr
    rw [href] at hr
    cases hr
  · intro k k' a b r hr
    rw [href] at hr
    cases hr
  · intro f hf
    obtain rfl := Option.some.inj hf
    exact ⟨Nat.le_refl _, Nat.lt_succ_self _⟩
  · simp only [Memory.index, State.fresh, State.mk.injEq]
    refine ⟨by simp [Top.loaded], trivial, Heap.cell_alloc_self, ?_, ?_, rfl, rfl⟩
    · exact (congrArg (Dict.map m.rows.cell) hfirst).trans (Dict.map_empty _)
    · exact (congrArg (Dict.map m.rows.cell) hsecond).trans (Dict.map_empty _)

/-- The references of the process are to objects. -/
structure Sidecar.Sound (s : Sidecar) : Prop where
  live : Valid s.mem s.state
  snapshots : ∀ id top, s.snapshots.find? id = some top → Valid s.mem top

/-- The process without its objects. -/
def Sidecar.plain (s : Sidecar) : Plain := ⟨s.index, s.snapshots.map s.mem.index⟩

variable {h : Host} {tree : Tree} {s s' : Sidecar}

/-- What a request does that changes the live index only. -/
structure Sidecar.Changes (s s' : Sidecar) : Prop where
  kept : s.mem.Extends s'.mem
  live : Valid s'.mem s'.state
  snapshots : s'.snapshots = s.snapshots

/-- **The snapshots hold what they held.** -/
theorem Sidecar.Sound.change (hs : s.Sound) (hc : s.Changes s') :
    s'.Sound ∧ s'.plain = { s.plain with state := s'.index } := by
  refine ⟨⟨hc.live, fun id top htop => ?_⟩, ?_⟩
  · exact ((hs.snapshots id top (hc.snapshots ▸ htop)).extend hc.kept).1
  · simp only [Sidecar.plain, hc.snapshots, Plain.mk.injEq, true_and]
    exact Dict.map_congr fun id top htop => ((hs.snapshots id top htop).extend hc.kept).2

/-- The tables of a build that is under way, and what they hold. -/
structure Walking (m₀ : Memory) (root : String) (x : Memory × Top) (y : State) : Prop where
  mine : Mine m₀ x.1 x.2
  index : x.1.index x.2 = y
  root : x.2.root = some root

theorem Walking.insert {root : String} {x : Memory × Top} {y : State} (h : Walking m₀ root x y)
    (e : Entry) : Walking m₀ root (insertEntry x e) (y.insert e) :=
  ⟨(h.mine.insertEntry e).1, h.index ▸ (h.mine.insertEntry e).2, h.root⟩

theorem Walking.truncate {root : String} {x : Memory × Top} {y : State} (h : Walking m₀ root x y) :
    Walking m₀ root (x.1, { x.2 with truncated := some true }) { y with truncated := true } := by
  refine ⟨⟨h.mine.tables, h.mine.files⟩, ?_, h.root⟩
  rw [← h.index]
  simp [Memory.index, Top.loaded, h.root]

/-- A build, on values. -/
theorem build_spec (h : Host) (tree : Tree) (s : Sidecar) (root : String) :
    s.Changes (build h tree s root).1 ∧
    ((build h tree s root).1.index, (build h tree s root).2) =
      State.built (State.walk h tree root) := by
  obtain ⟨hmine, hindex⟩ := Mine.fresh s.mem root
  have hstart : Walking s.mem root (_, _) (State.fresh root) := ⟨hmine, hindex, rfl⟩
  obtain ⟨hw, htotal, hraised⟩ := buildFrom_sim (R := Walking s.mem root) (h := h) (t := tree)
    (fun x y e (hxy : Walking s.mem root x y) => hxy.insert e)
    (fun x y (hxy : Walking s.mem root x y) => hxy.truncate) (walked tree root) hstart 0
  unfold build State.built State.walk
  dsimp only
  rw [← htotal, ← hraised]
  split_ifs
  · exact ⟨⟨hw.mine.tables.kept, hw.mine.valid, rfl⟩, by rw [← hw.index]; rfl⟩
  · refine ⟨⟨hw.mine.tables.kept, ?_, rfl⟩, ?_⟩
    · exact ⟨hw.mine.valid.files, hw.mine.valid.table, hw.mine.valid.rows⟩
    · rw [← hw.index]
      simp [Sidecar.index, Memory.index, Top.loaded, hw.root]

/-- The total is computed again, on values. -/
theorem index_recompute (m : Memory) (top : Top) :
    m.index (recomputeTotalBytes m top) = (m.index top).recompute := by
  simp [recomputeTotalBytes, State.recompute, State.bytes, Memory.index, Top.loaded]

/-- A refresh, on values. -/
theorem refreshPath_spec (hs : Valid s.mem s.state) (h : Host) (tree : Tree) (path : String)
    (root : Option String) :
    s.Changes (refreshPath h tree s path root).1 ∧
    ((refreshPath h tree s path root).1.index, (refreshPath h tree s path root).2) =
      s.index.refreshPath h tree path root := by
  obtain ⟨hmine, hindex, hroot⟩ := cowForUpdate_spec hs
  unfold refreshPath State.refreshPath
  rcases hcow : cowForUpdate s.mem s.state with ⟨m, top⟩
  rw [hcow] at hmine hindex hroot
  dsimp only at hmine hindex hroot ⊢
  have hfiles : m.filesOf top.files = s.index.files := congrArg State.files hindex
  have hsroot : s.index.root = s.state.root := rfl
  rw [hfiles, hsroot]
  cases hres : resolve h tree s.index.files path
      (orDefault root (orDefault s.state.root "/testbed")) with
  | none =>
    exact ⟨⟨hmine.tables.kept, hmine.valid, rfl⟩, congrArg (fun x => (x, Ended.raised)) hindex⟩
  | some found =>
    obtain ⟨full, rel⟩ := found
    dsimp only
    obtain ⟨hmine', hindex'⟩ := hmine.remove rel
    have hremove : (m.remove top rel).index top = s.index.remove rel := hindex'.trans (congrArg (State.remove · rel) hindex)
    unfold State.replaceFile
    cases if tree.pathExists full = true then
        readEntry h tree full (orDefault root (orDefault s.state.root "/testbed"))
      else Reading.nothing with
    | raises =>
      exact ⟨⟨hmine'.tables.kept, hmine'.valid, rfl⟩,
        congrArg (fun x => (x, Ended.raised)) hremove⟩
    | nothing =>
      refine ⟨⟨hmine'.tables.kept, ⟨hmine'.valid.files, hmine'.valid.table, hmine'.valid.rows⟩,
        rfl⟩, ?_⟩
      exact congrArg (fun x => (x, Ended.done))
        ((index_recompute _ _).trans (congrArg State.recompute hremove))
    | entry e =>
      obtain ⟨hmine'', hindex''⟩ := hmine'.insertEntry e
      refine ⟨⟨hmine''.tables.kept, ⟨hmine''.valid.files, hmine''.valid.table,
        hmine''.valid.rows⟩, rfl⟩, ?_⟩
      exact congrArg (fun x => (x, Ended.done)) ((index_recompute _ _).trans
        (congrArg State.recompute (hindex''.trans (congrArg (State.insert · e) hremove))))

/-- **A request of the sidecar is a request of the process without objects.** -/
theorem call_spec (hs : s.Sound) (h : Host) (tree : Tree) (c : Call) :
    (call h tree s c).1.Sound ∧
    ((call h tree s c).1.plain, (call h tree s c).2) = plainCall h tree s.plain c := by
  cases c with
  | build root =>
    obtain ⟨hc, heq⟩ := build_spec h tree s (orDefault root "/testbed")
    obtain ⟨hsound, hplain⟩ := hs.change hc
    refine ⟨hsound, ?_⟩
    simp only [call, plainCall, hplain, ← heq]
  | refreshPath path root =>
    obtain ⟨hc, heq⟩ := refreshPath_spec hs.live h tree path root
    obtain ⟨hsound, hplain⟩ := hs.change hc
    refine ⟨hsound, ?_⟩
    simp only [call, plainCall, hplain]
    rw [show s.plain.state = s.index from rfl, ← heq]
  | snapshot id =>
    simp only [call, plainCall, snapshot]
    have hloaded : s.plain.state.loaded = s.state.loaded := rfl
    rw [hloaded]
    split_ifs
    · exact ⟨hs, rfl⟩
    · refine ⟨⟨hs.live, fun id' top htop => ?_⟩, ?_⟩
      · simp only [Dict.find?_set] at htop
        split_ifs at htop
        · exact Option.some.inj htop ▸ hs.live
        · exact hs.snapshots id' top htop
      · simp only [Sidecar.plain, Dict.map_set]
        rfl
  | restoreSnapshot id =>
    simp only [call, plainCall, restoreSnapshot]
    split_ifs
    · exact ⟨hs, rfl⟩
    · have hfind : s.plain.snapshots.find? id = (s.snapshots.find? id).map s.mem.index :=
        Dict.find?_map _ _ _
      rw [hfind]
      cases htop : s.snapshots.find? id with
      | none => exact ⟨hs, rfl⟩
      | some top => exact ⟨⟨hs.snapshots id top htop, hs.snapshots⟩, rfl⟩

theorem Sidecar.Sound.start : Sidecar.start.Sound :=
  ⟨(Mine.empty _).valid, by simp [Sidecar.start]⟩

/-- A run of requests keeps the references sound. -/
theorem Sidecar.Sound.run (hs : s.Sound) (h : Host) (calls : List (Tree × Call)) :
    (Index.run h s calls).Sound := by
  induction calls generalizing s with
  | nil => exact hs
  | cons c calls ih => exact ih (call_spec hs h c.1 c.2).1

end Index

end DeltaBox
