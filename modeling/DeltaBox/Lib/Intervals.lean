import Mathlib.Algebra.Order.Ring.Nat
import Mathlib.Data.Finset.Card
import Mathlib.Order.Interval.Finset.Nat

/-!
# Lists of intervals

Half-open intervals of addresses, in lists. A list tiles a region if its intervals do not meet and
the region is what they cover. Programs get such lists by cutting every interval in parts, and the
parts of a tiling tile again.

## Main results

* `Tiles.card` — the lengths add up to the size of the region
* `Tiles.flatMap` — the parts of a tiling tile what is left of the region
-/

namespace DeltaBox

namespace Intervals

/-- From the first address up to the second, which does not belong to it. -/
abbrev Interval := ℕ × ℕ

/-- The addresses of an interval. -/
abbrev span (e : Interval) : Finset ℕ := Finset.Ico e.1 e.2

/-- The addresses of some intervals. -/
def union (es : List Interval) : Finset ℕ := (es.map span).foldr (· ∪ ·) ∅

@[simp] theorem union_nil : union [] = ∅ := rfl

theorem union_cons (e : Interval) (es : List Interval) : union (e :: es) = span e ∪ union es := rfl

theorem mem_union {es : List Interval} {b : ℕ} : b ∈ union es ↔ ∃ e ∈ es, e.1 ≤ b ∧ b < e.2 := by
  induction es with
  | nil => simp
  | cons e es ih => simp [union_cons, ih]

theorem mem_union_span {es : List Interval} {b : ℕ} : b ∈ union es ↔ ∃ e ∈ es, b ∈ span e := by
  simp only [mem_union, Finset.mem_Ico]

theorem union_append (es fs : List Interval) : union (es ++ fs) = union es ∪ union fs := by
  ext b
  simp only [mem_union, List.mem_append, Finset.mem_union, or_and_right, exists_or]

/-- No two of them meet. -/
def Apart (es : List Interval) : Prop := es.Pairwise fun e f => Disjoint (span e) (span f)

instance (es : List Interval) : Decidable (Apart es) := inferInstanceAs (Decidable (es.Pairwise _))

theorem card_union : ∀ {es : List Interval}, Apart es →
    (union es).card = (es.map fun e => e.2 - e.1).sum
  | [], _ => rfl
  | e :: es, h => by
    obtain ⟨hhead, htail⟩ := List.pairwise_cons.mp h
    have hapart : Disjoint (span e) (union es) := by
      rw [Finset.disjoint_left]
      intro b hb hin
      obtain ⟨f, hf, hbf⟩ := mem_union_span.mp hin
      exact Finset.disjoint_left.mp (hhead f hf) hb hbf
    rw [union_cons, Finset.card_union_of_disjoint hapart, card_union htail, Nat.card_Ico,
      List.map_cons, List.sum_cons]

/-! ### Tilings -/

/-- The region, in parts that do not meet. -/
structure Tiles (es : List Interval) (region : Finset ℕ) : Prop where
  apart : Apart es
  union_eq : union es = region

theorem Tiles.nil : Tiles [] ∅ := ⟨.nil, rfl⟩

theorem Tiles.singleton (e : Interval) : Tiles [e] (span e) where
  apart := List.pairwise_singleton _ _
  union_eq := by rw [union_cons, union_nil, Finset.union_empty]

theorem Tiles.of_apart {es : List Interval} (h : Apart es) : Tiles es (union es) := ⟨h, rfl⟩

theorem Tiles.congr {es : List Interval} {s t : Finset ℕ} (h : Tiles es s)
    (hst : ∀ b, b ∈ t ↔ b ∈ s) : Tiles es t := (Finset.ext hst : t = s) ▸ h

theorem Tiles.card {es : List Interval} {region : Finset ℕ} (h : Tiles es region) :
    region.card = (es.map fun e => e.2 - e.1).sum := by
  rw [← h.union_eq, card_union h.apart]

theorem Tiles.subset {es : List Interval} {region : Finset ℕ} (h : Tiles es region) {e : Interval}
    (he : e ∈ es) : span e ⊆ region := by
  intro b hb
  rw [← h.union_eq]
  exact mem_union_span.mpr ⟨e, he, hb⟩

theorem Tiles.append {es fs : List Interval} {s t : Finset ℕ} (hs : Tiles es s) (ht : Tiles fs t)
    (hdisj : Disjoint s t) : Tiles (es ++ fs) (s ∪ t) where
  apart := List.pairwise_append.mpr ⟨hs.apart, ht.apart, fun e he f hf =>
    Finset.disjoint_of_subset_left (hs.subset he) (Finset.disjoint_of_subset_right (ht.subset hf) hdisj)⟩
  union_eq := by rw [union_append, hs.union_eq, ht.union_eq]

/-- One interval in front, and its addresses apart from the others. -/
theorem Tiles.cons {e : Interval} {es : List Interval} {t : Finset ℕ} (h : Tiles es t)
    (hdisj : Disjoint (span e) t) : Tiles (e :: es) (span e ∪ t) :=
  (Tiles.singleton e).append h hdisj

/-- The order does not matter. -/
theorem Tiles.perm {es fs : List Interval} {region : Finset ℕ} (h : Tiles es region)
    (hperm : es.Perm fs) : Tiles fs region where
  apart := (hperm.pairwise_iff fun hab => hab.symm).mp h.apart
  union_eq := by
    rw [← h.union_eq]
    ext b
    simp only [mem_union, hperm.mem_iff]

/-- **Cutting every interval of a tiling.** If the parts of each one tile what a removed set leaves
of it, then all of them tile what it leaves of the region. -/
theorem Tiles.flatMap {parts : Interval → List Interval} {gone : Finset ℕ} {es : List Interval}
    {region : Finset ℕ} (h : Tiles es region) (hparts : ∀ e ∈ es, Tiles (parts e) (span e \ gone)) :
    Tiles (es.flatMap parts) (region \ gone) := by
  obtain ⟨hapart, rfl⟩ := h
  induction es with
  | nil =>
    rw [List.flatMap_nil, union_nil, Finset.empty_sdiff]
    exact .nil
  | cons e es ih =>
    obtain ⟨hhead, htail⟩ := List.pairwise_cons.mp hapart
    have hrest := ih (fun f hf => hparts f (List.mem_cons_of_mem e hf)) htail
    have hdisj : Disjoint (span e \ gone) (union es \ gone) := by
      rw [Finset.disjoint_left]
      intro b hb hin
      obtain ⟨f, hf, hbf⟩ := mem_union_span.mp (Finset.mem_sdiff.mp hin).1
      exact Finset.disjoint_left.mp (hhead f hf) (Finset.mem_sdiff.mp hb).1 hbf
    rw [List.flatMap_cons, union_cons, Finset.union_sdiff_distrib]
    exact (hparts e List.mem_cons_self).append hrest hdisj

end Intervals

end DeltaBox
