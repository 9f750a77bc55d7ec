import DeltaBox.Lib.Sweep
import Mathlib.Algebra.BigOperators.Group.Finset.Basic
import Mathlib.Algebra.Order.Ring.Rat
import Mathlib.Data.List.Sort
import Mathlib.Tactic.FieldSimp

/-!
# Phase attribution

An API call has a window, and the probes inside it leave spans, each with a name. `partition`
(`ae/repro/e2b_phases.py`) attributes the window to the categories of the spans: it clips the spans
to the window, cuts the window at their ends, and looks which categories each piece is covered by.
One alone gets the piece, several share it as `overlapping_phases`, and what is covered by none is
`unclassified_api`.

Times are whole nanoseconds, totals are milliseconds, here exact. The categories are any type; the
source has the four of `Phase`, and a name that is not known has none.

## Main results

* `partition_exact` — every total is the measure of the instants it stands for, they add up to the
  window, and the order of the spans does not matter
-/

namespace DeltaBox

namespace Phases

open Sweep MeasureTheory

/-! ### The program -/

/-- The ordinary categories of the source. -/
inductive Phase where
  | filesystem
  | process
  | guestReadiness
  | controlPlane
  deriving DecidableEq, Repr

instance : Fintype Phase where
  elems := {.filesystem, .process, .guestReadiness, .controlPlane}
  complete c := by cases c <;> decide

/-- What a piece of the window is attributed to. -/
inductive Category (κ : Type) where
  | ordinary (c : κ)
  | overlappingPhases
  | unclassifiedApi
  deriving DecidableEq, Repr

structure Span (ν : Type) where
  startUnixNs : ℤ
  endUnixNs : ℤ
  name : ν

/-- What is raised. -/
inductive Error where
  | value (text : String)
  deriving DecidableEq, Repr

variable {ν κ : Type} [DecidableEq κ]

/-- `_window`. -/
def window (value : ℤ × ℤ) : Except Error (ℤ × ℤ) :=
  if value.1 ≥ value.2 then .error (.value "Invalid E2B phase window") else .ok value

/-- A span in the window, with its category. -/
structure Interval (κ : Type) where
  left : ℤ
  right : ℤ
  category : κ

/-- What a span becomes. -/
def clip (w : ℤ × ℤ) (names : ν → Option κ) (span : Span ν) : Option (Interval κ) :=
  let a := max span.startUnixNs w.1
  let b := min span.endUnixNs w.2
  (names span.name).bind fun category => if a < b then some ⟨a, b, category⟩ else none

/-- The first loop. -/
def intervals (w : ℤ × ℤ) (names : ν → Option κ) : List (Span ν) →
    Except Error (List (Interval κ))
  | [] => .ok []
  | span :: spans => do
    let _ ← window (span.startUnixNs, span.endUnixNs)
    let rest ← intervals w names spans
    return (clip w names span).toList ++ rest

/-- `boundaries`. -/
def boundaries (w : ℤ × ℤ) (ivs : List (Interval κ)) : List ℤ :=
  ((w.1 :: w.2 :: ivs.flatMap fun iv => [iv.left, iv.right]).dedup).insertionSort (· ≤ ·)

/-- `active`, without repetition. -/
def active (ivs : List (Interval κ)) (cell : ℤ × ℤ) : List κ :=
  ((ivs.filter fun iv => iv.left ≤ cell.1 ∧ cell.2 ≤ iv.right).map Interval.category).dedup

/-- The category of a piece that these cover. -/
def attributed : List κ → Category κ
  | [] => .unclassifiedApi
  | [c] => .ordinary c
  | _ => .overlappingPhases

/-- One turn of the second loop. -/
def addCell (ivs : List (Interval κ)) (totals : Category κ → ℚ) (cell : ℤ × ℤ) : Category κ → ℚ :=
  let category := attributed (active ivs cell)
  Function.update totals category (totals category + ((cell.2 - cell.1 : ℤ) : ℚ) / 10 ^ 6)

def partition (w : ℤ × ℤ) (spans : List (Span ν)) (names : ν → Option κ) :
    Except Error (Category κ → ℚ) := do
  let w ← window w
  let ivs ← intervals w names spans
  return (cells (boundaries w ivs)).foldl (addCell ivs) fun _ => 0

/-! ### What it is for -/

/-- Spans of this category cover the instant. -/
def Covered (spans : List (Span ν)) (names : ν → Option κ) (x : ℝ) (c : κ) : Prop :=
  ∃ span ∈ spans, names span.name = some c ∧ (span.startUnixNs : ℝ) ≤ x ∧ x < span.endUnixNs

/-- The instants that a category stands for. -/
def Belongs (spans : List (Span ν)) (names : ν → Option κ) : Category κ → ℝ → Prop
  | .ordinary c, x => ∀ d, Covered spans names x d ↔ d = c
  | .overlappingPhases, x => ∃ c d, c ≠ d ∧ Covered spans names x c ∧ Covered spans names x d
  | .unclassifiedApi, x => ∀ c, ¬ Covered spans names x c

/-! ### The intervals -/

variable {w : ℤ × ℤ} {spans : List (Span ν)} {names : ν → Option κ} {ivs : List (Interval κ)}
  {cell : ℤ × ℤ} {x : ℝ} {c : κ}

theorem window_eq_ok {value v : ℤ × ℤ} (h : window value = .ok v) : v = value ∧ value.1 < value.2 := by
  rw [window] at h
  split_ifs at h with hle
  exact ⟨(Except.ok.inj h).symm, not_le.mp hle⟩

omit [DecidableEq κ] in
theorem intervals_of_valid (h : ∀ span ∈ spans, span.startUnixNs < span.endUnixNs) :
    intervals w names spans = .ok (spans.filterMap (clip w names)) := by
  induction spans with
  | nil => rfl
  | cons span spans ih =>
    have hspan : window (span.startUnixNs, span.endUnixNs) =
        .ok (span.startUnixNs, span.endUnixNs) :=
      if_neg (not_le.mpr (h span List.mem_cons_self))
    rw [intervals, hspan, ih fun s hs => h s (List.mem_cons_of_mem _ hs)]
    cases hclip : clip w names span with
    | none => rw [List.filterMap_cons_none hclip]; rfl
    | some iv => rw [List.filterMap_cons_some hclip]; rfl

omit [DecidableEq κ] in
theorem clip_eq_some {span : Span ν} {iv : Interval κ} : clip w names span = some iv ↔
    names span.name = some iv.category ∧ iv.left = max span.startUnixNs w.1 ∧
      iv.right = min span.endUnixNs w.2 ∧ iv.left < iv.right := by
  rw [clip]
  constructor
  · intro h
    obtain ⟨c, hc, hiv⟩ := Option.bind_eq_some_iff.mp h
    obtain ⟨hlt, heq⟩ := Option.ite_none_right_eq_some.mp hiv
    obtain rfl := Option.some.inj heq
    exact ⟨hc, rfl, rfl, hlt⟩
  · rintro ⟨hc, hleft, hright, hlt⟩
    rw [hc, Option.bind_some, ← hleft, ← hright, if_pos hlt]

omit [DecidableEq κ] in
/-- Inside the window the intervals cover what the spans cover. -/
theorem covered_iff (hleft : (w.1 : ℝ) ≤ x) (hright : x < w.2) :
    Covered spans names x c ↔ ∃ iv ∈ spans.filterMap (clip w names),
      iv.category = c ∧ (iv.left : ℝ) ≤ x ∧ x < iv.right := by
  constructor
  · rintro ⟨span, hspan, hname, hle, hlt⟩
    have hle' : ((max span.startUnixNs w.1 : ℤ) : ℝ) ≤ x := by
      push_cast
      exact max_le hle hleft
    have hlt' : x < ((min span.endUnixNs w.2 : ℤ) : ℝ) := by
      push_cast
      exact lt_min hlt hright
    have hpos : max span.startUnixNs w.1 < min span.endUnixNs w.2 := by
      exact_mod_cast hle'.trans_lt hlt'
    exact ⟨⟨_, _, c⟩, List.mem_filterMap.mpr ⟨span, hspan, clip_eq_some.mpr ⟨hname, rfl, rfl, hpos⟩⟩,
      rfl, hle', hlt'⟩
  · rintro ⟨iv, hiv, rfl, hle, hlt⟩
    obtain ⟨span, hspan, hclip⟩ := List.mem_filterMap.mp hiv
    obtain ⟨hname, hl, hr, -⟩ := clip_eq_some.mp hclip
    rw [hl] at hle
    rw [hr] at hlt
    push_cast at hle hlt
    exact ⟨span, hspan, hname, (le_max_left _ _).trans hle, hlt.trans_le (min_le_left _ _)⟩

/-! ### The boundaries -/

omit [DecidableEq κ] in
theorem mem_boundaries {y : ℤ} : y ∈ boundaries w ivs ↔
    y = w.1 ∨ y = w.2 ∨ ∃ iv ∈ ivs, y = iv.left ∨ y = iv.right := by
  simp [boundaries]

omit [DecidableEq κ] in
theorem boundaries_sorted : (boundaries w ivs).Pairwise (· < ·) := by
  have hle := List.pairwise_insertionSort (· ≤ ·)
    ((w.1 :: w.2 :: ivs.flatMap fun iv => [iv.left, iv.right]).dedup)
  have hnodup : (boundaries w ivs).Nodup :=
    (List.perm_insertionSort (· ≤ ·) _).nodup_iff.mpr (List.nodup_dedup _)
  exact (hle.and hnodup).imp fun h => lt_of_le_of_ne h.1 h.2

omit [DecidableEq κ] in
/-- All boundaries are in the window. -/
theorem le_of_mem_boundaries (hw : w.1 < w.2)
    (hivs : ∀ iv ∈ ivs, w.1 ≤ iv.left ∧ iv.left < iv.right ∧ iv.right ≤ w.2) {y : ℤ}
    (hy : y ∈ boundaries w ivs) : w.1 ≤ y ∧ y ≤ w.2 := by
  rcases mem_boundaries.mp hy with rfl | rfl | ⟨iv, hiv, rfl | rfl⟩
  · exact ⟨le_rfl, hw.le⟩
  · exact ⟨hw.le, le_rfl⟩
  · obtain ⟨hle, hlt, hend⟩ := hivs iv hiv
    exact ⟨hle, hlt.le.trans hend⟩
  · obtain ⟨hle, hlt, hend⟩ := hivs iv hiv
    exact ⟨hle.trans hlt.le, hend⟩

omit [DecidableEq κ] in
theorem ends_boundaries (hw : w.1 < w.2)
    (hivs : ∀ iv ∈ ivs, w.1 ≤ iv.left ∧ iv.left < iv.right ∧ iv.right ≤ w.2) :
    (boundaries w ivs).head? = some w.1 ∧ (boundaries w ivs).getLast? = some w.2 :=
  ⟨head?_of_least boundaries_sorted (mem_boundaries.mpr (.inl rfl)) fun _ hy =>
      (le_of_mem_boundaries hw hivs hy).1,
    getLast?_of_greatest boundaries_sorted (mem_boundaries.mpr (.inr (.inl rfl))) fun _ hy =>
      (le_of_mem_boundaries hw hivs hy).2⟩

omit [DecidableEq κ] in
theorem clipped (h : ∀ iv ∈ ivs, ∃ span ∈ spans, clip w names span = some iv) :
    ∀ iv ∈ ivs, w.1 ≤ iv.left ∧ iv.left < iv.right ∧ iv.right ≤ w.2 := by
  intro iv hiv
  obtain ⟨span, -, hclip⟩ := h iv hiv
  obtain ⟨-, hl, hr, hlt⟩ := clip_eq_some.mp hclip
  exact ⟨hl ▸ le_max_right _ _, hlt, hr ▸ min_le_right _ _⟩

/-! ### A piece -/

theorem mem_active : c ∈ active ivs cell ↔
    ∃ iv ∈ ivs, iv.category = c ∧ iv.left ≤ cell.1 ∧ cell.2 ≤ iv.right := by
  simp only [active, List.mem_dedup, List.mem_map, List.mem_filter, decide_eq_true_eq]
  constructor
  · rintro ⟨iv, ⟨hiv, hleft, hright⟩, hcat⟩
    exact ⟨iv, hiv, hcat, hleft, hright⟩
  · rintro ⟨iv, hiv, hcat, hleft, hright⟩
    exact ⟨iv, ⟨hiv, hleft, hright⟩, hcat⟩

theorem nodup_active : (active ivs cell).Nodup := List.nodup_dedup _

/-- What is active in a piece covers each of its instants, since no interval ends inside it. -/
theorem mem_active_iff (hcell : cell ∈ cells (boundaries w ivs)) (hleft : (cell.1 : ℝ) ≤ x)
    (hright : x < cell.2) : c ∈ active ivs cell ↔
      ∃ iv ∈ ivs, iv.category = c ∧ (iv.left : ℝ) ≤ x ∧ x < iv.right := by
  rw [mem_active]
  refine exists_congr fun iv => and_congr_right fun hiv => and_congr_right fun _ => ?_
  constructor
  · rintro ⟨hl, hr⟩
    have hl' : (iv.left : ℝ) ≤ cell.1 := by exact_mod_cast hl
    have hr' : (cell.2 : ℝ) ≤ iv.right := by exact_mod_cast hr
    exact ⟨hl'.trans hleft, hright.trans_le hr'⟩
  · rintro ⟨hl, hr⟩
    constructor
    · rcases le_or_le_of_cell boundaries_sorted hcell
        (mem_boundaries.mpr (.inr (.inr ⟨iv, hiv, .inl rfl⟩))) with h | h
      · exact h
      · have h' : (cell.2 : ℝ) ≤ iv.left := by exact_mod_cast h
        exact absurd (hright.trans_le h') (not_lt.mpr hl)
    · rcases le_or_le_of_cell boundaries_sorted hcell
        (mem_boundaries.mpr (.inr (.inr ⟨iv, hiv, .inr rfl⟩))) with h | h
      · have h' : (iv.right : ℝ) ≤ cell.1 := by exact_mod_cast h
        exact absurd (hr.trans_le h') (not_lt.mpr hleft)
      · exact h

omit [DecidableEq κ] in
/-- What a category says of those that are active. -/
theorem attributed_eq_iff {l : List κ} (hnodup : l.Nodup) (category : Category κ) :
    attributed l = category ↔
      match category with
      | .ordinary c => ∀ d, d ∈ l ↔ d = c
      | .overlappingPhases => ∃ c d, c ≠ d ∧ c ∈ l ∧ d ∈ l
      | .unclassifiedApi => ∀ c, c ∉ l := by
  rcases l with _ | ⟨a, _ | ⟨b, l⟩⟩
  · cases category with
    | ordinary c => simp [attributed]
    | overlappingPhases => simp [attributed]
    | unclassifiedApi => simp [attributed]
  · cases category with
    | ordinary c =>
      simp only [attributed, Category.ordinary.injEq, List.mem_singleton]
      constructor
      · rintro rfl d
        rfl
      · intro h
        exact (h a).mp rfl
    | overlappingPhases =>
      simp only [attributed, List.mem_singleton, reduceCtorEq, false_iff, not_exists, not_and]
      rintro c d hne rfl rfl
      exact hne rfl
    | unclassifiedApi => simp [attributed]
  · have hne : a ≠ b := fun h => (List.nodup_cons.mp hnodup).1 (h ▸ List.mem_cons_self)
    cases category with
    | ordinary c =>
      simp only [attributed, reduceCtorEq, false_iff, not_forall]
      by_contra hall
      have hone : ∀ d, d ∈ a :: b :: l ↔ d = c := by simpa using hall
      exact hne (((hone a).mp (by simp)).trans ((hone b).mp (by simp)).symm)
    | overlappingPhases =>
      simp only [attributed, true_iff]
      exact ⟨a, b, hne, by simp, by simp⟩
    | unclassifiedApi =>
      simp only [attributed, reduceCtorEq, false_iff, not_forall, not_not]
      exact ⟨a, by simp⟩

/-- A piece is attributed to what all its instants belong to. -/
theorem belongs_iff (hw : w.1 < w.2) (hivs : ivs = spans.filterMap (clip w names))
    (hcell : cell ∈ cells (boundaries w ivs)) (hleft : (cell.1 : ℝ) ≤ x) (hright : x < cell.2)
    (category : Category κ) :
    Belongs spans names category x ↔ attributed (active ivs cell) = category := by
  have hin : ∀ iv ∈ ivs, w.1 ≤ iv.left ∧ iv.left < iv.right ∧ iv.right ≤ w.2 :=
    clipped fun iv hiv => List.mem_filterMap.mp (hivs ▸ hiv)
  obtain ⟨hfirst, hsecond⟩ := mem_of_cell hcell
  have hlow : (w.1 : ℝ) ≤ x := by
    have h : (w.1 : ℝ) ≤ cell.1 := by exact_mod_cast (le_of_mem_boundaries hw hin hfirst).1
    exact h.trans hleft
  have hhigh : x < w.2 := by
    have h : (cell.2 : ℝ) ≤ w.2 := by exact_mod_cast (le_of_mem_boundaries hw hin hsecond).2
    exact hright.trans_le h
  have hactive : ∀ c, Covered spans names x c ↔ c ∈ active ivs cell := by
    intro c
    rw [covered_iff hlow hhigh, mem_active_iff hcell hleft hright, hivs]
  rw [attributed_eq_iff nodup_active]
  cases category with
  | ordinary c => simp only [Belongs, hactive]
  | overlappingPhases => simp only [Belongs, hactive]
  | unclassifiedApi => simp only [Belongs, hactive]

/-! ### The totals -/

/-- A total is what the pieces of its category add up to. -/
theorem foldl_addCell (ivs : List (Interval κ)) (category : Category κ) :
    ∀ (cs : List (ℤ × ℤ)) (totals : Category κ → ℚ),
      cs.foldl (addCell ivs) totals category = totals category +
        ((((cs.filter fun c => attributed (active ivs c) = category).map fun c => c.2 - c.1).sum :
          ℤ) : ℚ) / 10 ^ 6
  | [], totals => by simp
  | c :: cs, totals => by
    rw [List.foldl_cons, foldl_addCell ivs category cs, List.filter_cons]
    by_cases hc : attributed (active ivs c) = category
    · subst hc
      simp only [addCell, Function.update_self, decide_true, if_true, List.map_cons, List.sum_cons]
      push_cast
      ring
    · have hother : addCell ivs totals c category = totals category := by
        rw [addCell, Function.update_of_ne (Ne.symm hc)]
      rw [hother]
      simp [hc]

theorem partition_eq (hw : w.1 < w.2) (h : ∀ span ∈ spans, span.startUnixNs < span.endUnixNs) :
    partition w spans names = .ok (fun category =>
      ((((cells (boundaries w (spans.filterMap (clip w names)))).filter fun c =>
        attributed (active (spans.filterMap (clip w names)) c) = category).map fun c =>
          c.2 - c.1).sum : ℤ) / 10 ^ 6) := by
  have hwindow : window w = .ok w := if_neg (not_le.mpr hw)
  rw [partition, hwindow]
  simp only [bind, Except.bind, intervals_of_valid h, pure, Except.pure]
  congr 1
  funext category
  rw [foldl_addCell, zero_add]

/-- Adding up by category and then over the categories is adding up. -/
theorem sum_by_category [Fintype κ] (f : ℤ × ℤ → Category κ) : ∀ cs : List (ℤ × ℤ),
    let part := fun category => ((cs.filter fun c => f c = category).map fun c => c.2 - c.1).sum
    (∑ c, part (.ordinary c)) + part .overlappingPhases + part .unclassifiedApi =
      (cs.map fun c => c.2 - c.1).sum
  | [] => by simp
  | c :: cs => by
    have ih := sum_by_category f cs
    simp only at ih ⊢
    rw [List.map_cons, List.sum_cons, ← ih]
    have hpart : ∀ category, (((c :: cs).filter fun c => f c = category).map fun c => c.2 - c.1).sum =
        (if f c = category then c.2 - c.1 else 0) +
          ((cs.filter fun c => f c = category).map fun c => c.2 - c.1).sum := by
      intro category
      rw [List.filter_cons]
      by_cases hc : f c = category
      · simp [hc]
      · simp [hc]
    simp only [hpart, Finset.sum_add_distrib]
    cases hf : f c with
    | ordinary d => simp; ring
    | overlappingPhases => simp; ring
    | unclassifiedApi => simp; ring

/-- The total of a category. -/
def total (w : ℤ × ℤ) (ivs : List (Interval κ)) (category : Category κ) : ℤ :=
  (((cells (boundaries w ivs)).filter fun c => attributed (active ivs c) = category).map fun c =>
    c.2 - c.1).sum

theorem total_eq_volume (hw : w.1 < w.2) (category : Category κ) :
    (total w (spans.filterMap (clip w names)) category : ℝ) =
      volume.real (instants w.1 w.2 (Belongs spans names category)) := by
  have hin : ∀ iv ∈ spans.filterMap (clip w names),
      w.1 ≤ iv.left ∧ iv.left < iv.right ∧ iv.right ≤ w.2 :=
    clipped fun iv hiv => List.mem_filterMap.mp hiv
  obtain ⟨hhead, hlast⟩ := ends_boundaries hw hin
  refine (volume_sweep _ _ boundaries_sorted hhead hlast fun c hc x hleft hright => ?_).symm
  rw [decide_eq_true_eq]
  exact belongs_iff hw rfl hc hleft hright category

/-- The totals add up to the window. -/
theorem sum_total [Fintype κ] (hw : w.1 < w.2)
    (hivs : ∀ iv ∈ ivs, w.1 ≤ iv.left ∧ iv.left < iv.right ∧ iv.right ≤ w.2) :
    (∑ c, total w ivs (.ordinary c)) + total w ivs .overlappingPhases +
      total w ivs .unclassifiedApi = w.2 - w.1 := by
  obtain ⟨hhead, hlast⟩ := ends_boundaries hw hivs
  rw [← sum_cells hhead hlast]
  exact sum_by_category (fun c => attributed (active ivs c)) _

omit [DecidableEq κ] in
theorem belongs_perm {spans' : List (Span ν)} (h : spans.Perm spans') (category : Category κ) (x : ℝ) :
    Belongs spans names category x ↔ Belongs spans' names category x := by
  have hcovered : ∀ c, Covered spans names x c ↔ Covered spans' names x c := by
    intro c
    exact exists_congr fun span => and_congr_left fun _ => h.mem_iff
  cases category with
  | ordinary c => simp only [Belongs, hcovered]
  | overlappingPhases => simp only [Belongs, hcovered]
  | unclassifiedApi => simp only [Belongs, hcovered]

/-- **The partition is exact**: each total is the measure of the instants of the window that belong
to its category. The totals add up to the window, and the order of the spans does not matter. -/
theorem partition_exact [Fintype κ] (w : ℤ × ℤ) (hw : w.1 < w.2) (spans : List (Span ν))
    (h : ∀ span ∈ spans, span.startUnixNs < span.endUnixNs) (names : ν → Option κ) :
    ∃ totals, partition w spans names = .ok totals ∧
      (∀ category, (totals category : ℝ) =
        volume.real (instants w.1 w.2 (Belongs spans names category)) / 10 ^ 6) ∧
      (∑ c, totals (.ordinary c)) + totals .overlappingPhases + totals .unclassifiedApi =
        ((w.2 - w.1 : ℤ) : ℚ) / 10 ^ 6 ∧
      ∀ spans', spans.Perm spans' → partition w spans' names = .ok totals := by
  have hin : ∀ iv ∈ spans.filterMap (clip w names),
      w.1 ≤ iv.left ∧ iv.left < iv.right ∧ iv.right ≤ w.2 :=
    clipped fun iv hiv => List.mem_filterMap.mp hiv
  refine ⟨fun category => (total w (spans.filterMap (clip w names)) category : ℚ) / 10 ^ 6,
    partition_eq hw h, fun category => ?_, ?_, fun spans' hperm => ?_⟩
  · rw [← total_eq_volume hw]
    push_cast
    rfl
  · rw [← Finset.sum_div, ← add_div, ← add_div, ← sum_total hw hin]
    congr 1
    simp only [Int.cast_add, Int.cast_sum]
  · rw [partition_eq hw fun span hspan => h span (hperm.mem_iff.mpr hspan)]
    congr 1
    funext category
    have hsame : (total w (spans'.filterMap (clip w names)) category : ℝ) =
        total w (spans.filterMap (clip w names)) category := by
      rw [total_eq_volume hw, total_eq_volume hw]
      congr 2
      funext x
      exact propext (belongs_perm hperm category x).symm
    have hsame' : total w (spans'.filterMap (clip w names)) category =
        total w (spans.filterMap (clip w names)) category := by exact_mod_cast hsame
    exact congrArg (fun n : ℤ => (n : ℚ) / 10 ^ 6) hsame'

/-- A window with a filesystem span, a process span inside it, and one that begins later. -/
def threeSpans : List (Span Phase) :=
  [⟨-5, 40, .filesystem⟩, ⟨10, 20, .process⟩, ⟨60, 200, .process⟩]

theorem partition_exact_three : ∃ totals, partition (0, 100) threeSpans some = .ok totals ∧
    (totals (.ordinary .process) : ℝ) =
      volume.real (instants 0 100 (Belongs threeSpans some (.ordinary .process))) / 10 ^ 6 := by
  obtain ⟨totals, htotals, hexact, -⟩ :=
    partition_exact (0, 100) (by decide) threeSpans (by decide) some
  exact ⟨totals, htotals, hexact _⟩

end Phases

end DeltaBox
