import Mathlib.MeasureTheory.Measure.Lebesgue.Basic
import Mathlib.MeasureTheory.Measure.Real

/-!
# Sweeps

A sweep goes through the line from one boundary to the next and looks at each cell once. What it
adds up over the cells is a measure if the property it looks for cannot change inside a cell, and it
does not if it depends only on which boundaries have been passed.

## Main results

* `le_or_le_of_cell` — no boundary is inside a cell
* `volume_sweep` — the measure of a property that does not change inside a cell
-/

namespace DeltaBox

namespace Sweep

open MeasureTheory

/-- The cells between boundaries. -/
def cells (bs : List ℤ) : List (ℤ × ℤ) := bs.zip bs.tail

@[simp] theorem cells_singleton (a : ℤ) : cells [a] = [] := rfl

@[simp] theorem cells_cons_cons (a b : ℤ) (bs : List ℤ) :
    cells (a :: b :: bs) = (a, b) :: cells (b :: bs) := rfl

/-- No boundary is inside a cell. -/
theorem le_or_le_of_cell {bs : List ℤ} (hsorted : bs.Pairwise (· < ·)) {c : ℤ × ℤ}
    (hc : c ∈ cells bs) {y : ℤ} (hy : y ∈ bs) : y ≤ c.1 ∨ c.2 ≤ y := by
  induction bs with
  | nil => cases hy
  | cons a bs ih =>
    cases bs with
    | nil => cases hc
    | cons b bs =>
      rw [List.pairwise_cons] at hsorted
      rw [cells_cons_cons] at hc
      rcases List.mem_cons.mp hc with rfl | hrest
      · rcases List.mem_cons.mp hy with rfl | hy
        · exact .inl le_rfl
        · rcases List.mem_cons.mp hy with rfl | hy
          · exact .inr le_rfl
          · exact .inr ((List.pairwise_cons.mp hsorted.2).1 y hy).le
      · have hzip : (c.1, c.2) ∈ (b :: bs).zip bs := hrest
        have hmem : c.1 ∈ b :: bs := (List.of_mem_zip hzip).1
        rcases List.mem_cons.mp hy with rfl | hy
        · exact .inl (hsorted.1 c.1 hmem).le
        · exact ih hsorted.2 hrest hy

theorem lt_of_cell {bs : List ℤ} (hsorted : bs.Pairwise (· < ·)) {c : ℤ × ℤ} (hc : c ∈ cells bs) :
    c.1 < c.2 := by
  induction bs with
  | nil => cases hc
  | cons a bs ih =>
    cases bs with
    | nil => cases hc
    | cons b bs =>
      rw [List.pairwise_cons] at hsorted
      rw [cells_cons_cons] at hc
      rcases List.mem_cons.mp hc with rfl | hc
      · exact hsorted.1 b List.mem_cons_self
      · exact ih hsorted.2 hc

theorem head?_of_least {bs : List ℤ} (hsorted : bs.Pairwise (· < ·)) {a : ℤ} (ha : a ∈ bs)
    (hleast : ∀ y ∈ bs, a ≤ y) : bs.head? = some a := by
  cases bs with
  | nil => cases ha
  | cons b bs =>
    rcases List.mem_cons.mp ha with rfl | hin
    · rfl
    · have hlt := (List.pairwise_cons.mp hsorted).1 a hin
      exact absurd (hleast b List.mem_cons_self) (not_le.mpr hlt)

theorem getLast?_of_greatest {bs : List ℤ} (hsorted : bs.Pairwise (· < ·)) {z : ℤ} (hz : z ∈ bs)
    (hgreatest : ∀ y ∈ bs, y ≤ z) : bs.getLast? = some z := by
  rcases List.eq_nil_or_concat bs with rfl | ⟨front, b, rfl⟩
  · cases hz
  · rw [List.concat_eq_append] at hsorted hz hgreatest ⊢
    rw [List.getLast?_concat]
    rcases List.mem_append.mp hz with hin | hin
    · have hlt := (List.pairwise_append.mp hsorted).2.2 z hin b (List.mem_singleton_self b)
      exact absurd (hgreatest b (by simp)) (not_le.mpr hlt)
    · rw [List.mem_singleton.mp hin]

/-- A cell lies between the boundaries. -/
theorem mem_of_cell {bs : List ℤ} {c : ℤ × ℤ} (hc : c ∈ cells bs) : c.1 ∈ bs ∧ c.2 ∈ bs := by
  have hzip : (c.1, c.2) ∈ bs.zip bs.tail := hc
  exact ⟨(List.of_mem_zip hzip).1, List.mem_of_mem_tail (List.of_mem_zip hzip).2⟩

/-- The lengths of the cells add up to the whole. -/
theorem sum_cells : ∀ {bs : List ℤ} {a z : ℤ}, bs.head? = some a → bs.getLast? = some z →
    ((cells bs).map fun c => c.2 - c.1).sum = z - a
  | [], _, _, hhead, _ => by cases hhead
  | [b], a, z, hhead, hlast => by
    obtain rfl := Option.some.inj hhead
    obtain rfl := Option.some.inj hlast
    simp
  | b :: d :: bs, a, z, hhead, hlast => by
    obtain rfl := Option.some.inj hhead
    rw [List.getLast?_cons_cons] at hlast
    rw [cells_cons_cons, List.map_cons, List.sum_cons, sum_cells rfl hlast]
    ring

/-- The instants from `a` up to `z` with the property. -/
def instants (a z : ℤ) (P : ℝ → Prop) : Set ℝ := {x | (a : ℝ) ≤ x ∧ x < z ∧ P x}

/-- The measure of a part of the line on which the property does not change. -/
theorem volume_instants_of_const {a b : ℤ} (hle : a ≤ b) {P : ℝ → Prop} {p : Prop} [Decidable p]
    (hconst : ∀ x : ℝ, (a : ℝ) ≤ x → x < b → (P x ↔ p)) :
    volume.real (instants a b P) = if p then ((b - a : ℤ) : ℝ) else 0 := by
  split_ifs with hp
  · have hall : instants a b P = Set.Ico (a : ℝ) b := by
      ext x
      exact ⟨fun h => ⟨h.1, h.2.1⟩, fun h => ⟨h.1, h.2, (hconst x h.1 h.2).mpr hp⟩⟩
    rw [hall, Real.volume_real_Ico_of_le (by exact_mod_cast hle)]
    push_cast
    rfl
  · have hnone : instants a b P = ∅ := by
      ext x
      exact iff_of_false (fun h => hp ((hconst x h.1 h.2.1).mp h.2.2)) (Set.notMem_empty x)
    rw [hnone, measureReal_empty]

/-- The measure up to a boundary and from there on. -/
theorem volume_instants_split {a b z : ℤ} (hab : a ≤ b) (hbz : b ≤ z) (P : ℝ → Prop) :
    volume.real (instants a z P) = volume.real (instants a b P) + volume.real (instants b z P) := by
  have hab' : (a : ℝ) ≤ b := by exact_mod_cast hab
  have hbz' : (b : ℝ) ≤ z := by exact_mod_cast hbz
  have hleft : instants a z P ∩ Set.Iio (b : ℝ) = instants a b P := by
    ext x
    exact ⟨fun h => ⟨h.1.1, h.2, h.1.2.2⟩, fun h => ⟨⟨h.1, h.2.1.trans_le hbz', h.2.2⟩, h.2.1⟩⟩
  have hright : instants a z P \ Set.Iio (b : ℝ) = instants b z P := by
    ext x
    exact ⟨fun h => ⟨not_lt.mp h.2, h.1.2.1, h.1.2.2⟩,
      fun h => ⟨⟨hab'.trans h.1, h.2.1, h.2.2⟩, not_lt.mpr h.1⟩⟩
  have hfinite : volume (instants a z P) ≠ ⊤ := by
    refine (lt_of_le_of_lt (measure_mono fun x hx => ?_) (measure_Ico_lt_top (a := (a : ℝ)) (b := z))).ne
    exact ⟨hx.1, hx.2.1⟩
  rw [← hleft, ← hright, measureReal_inter_add_sdiff measurableSet_Iio hfinite]

/-- **The measure of a sweep.** The cells with the property, if it does not change inside a cell. -/
theorem volume_sweep (P : ℝ → Prop) (p : ℤ × ℤ → Bool) : ∀ {bs : List ℤ} {a z : ℤ},
    bs.Pairwise (· < ·) → bs.head? = some a → bs.getLast? = some z →
    (∀ c ∈ cells bs, ∀ x : ℝ, (c.1 : ℝ) ≤ x → x < c.2 → (P x ↔ p c = true)) →
      volume.real (instants a z P) =
        ((((cells bs).filter p).map fun c => c.2 - c.1).sum : ℤ)
  | [], _, _, _, hhead, _, _ => by cases hhead
  | [b], a, z, _, hhead, hlast, _ => by
    obtain rfl := Option.some.inj hhead
    obtain rfl := Option.some.inj hlast
    have hnone : instants b b P = ∅ := by
      ext x
      exact iff_of_false (fun h => absurd h.2.1 (not_lt.mpr h.1)) (Set.notMem_empty x)
    simp [hnone]
  | b :: d :: bs, a, z, hsorted, hhead, hlast, hconst => by
    obtain rfl := Option.some.inj hhead
    have hrest := (List.pairwise_cons.mp hsorted).2
    have hbd : b < d := (List.pairwise_cons.mp hsorted).1 d List.mem_cons_self
    have hlast' : (d :: bs).getLast? = some z := by
      rwa [List.getLast?_cons_cons] at hlast
    have hdz : d ≤ z := by
      rcases List.mem_cons.mp (List.mem_of_getLast? hlast') with rfl | hz
      · exact le_rfl
      · exact ((List.pairwise_cons.mp hrest).1 z hz).le
    have hcell : volume.real (instants b d P) = if p (b, d) = true then ((d - b : ℤ) : ℝ) else 0 :=
      volume_instants_of_const hbd.le (hconst (b, d) (by simp))
    have hih := volume_sweep P p hrest rfl hlast' fun c hc =>
      hconst c (by rw [cells_cons_cons]; exact List.mem_cons_of_mem _ hc)
    rw [volume_instants_split hbd.le hdz, hcell, hih, cells_cons_cons, List.filter_cons]
    split_ifs
    · rw [List.map_cons, List.sum_cons, Int.cast_add]
    · rw [zero_add]

end Sweep

end DeltaBox
