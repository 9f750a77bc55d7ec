import Mathlib.Data.Finset.Card
import Mathlib.Data.Finset.SDiff
import Mathlib.Order.Bounds.Basic

/-!
# Closures by worklist

A set grows by the successors of its members until nothing is new. The members whose successors have
not been looked at yet wait in a list. Nothing is assumed about the graph: it may have cycles, and
the order in which the list is worked off does not matter.

The loop runs on fuel. Every round takes one element off the list and puts on only what joins the
set, so `length of the list + number of elements still missing` counts the rounds exactly, and with
that much fuel the result is the least closed set.

## Main definitions

* `Worklist.visit` — one round's inner loop
* `Worklist.run` — the loop

## Main results

* `Worklist.run_isLeast` — the result is the least set that contains the start and is closed
-/

namespace DeltaBox

namespace Worklist

variable {α : Type*} [DecidableEq α]

/-- Add the elements of a list to the set, and those that are new to the worklist. -/
def visit : List α → List α → Finset α → List α × Finset α
  | [], pending, keep => (pending, keep)
  | y :: ys, pending, keep =>
    if y ∈ keep then visit ys pending keep else visit ys (y :: pending) (insert y keep)

/-- Work the list off. -/
def run (succ : α → List α) : ℕ → List α → Finset α → Finset α
  | 0, _, keep => keep
  | _, [], keep => keep
  | fuel + 1, x :: pending, keep =>
    run succ fuel (visit (succ x) pending keep).1 (visit (succ x) pending keep).2

/-! ### One round -/

section

variable {ys pending : List α} {keep U : Finset α}

theorem mem_visit {z : α} : z ∈ (visit ys pending keep).2 ↔ z ∈ keep ∨ z ∈ ys := by
  induction ys generalizing pending keep with
  | nil => simp [visit]
  | cons y ys ih =>
    rw [visit]
    split_ifs with hy
    · rw [ih]
      constructor
      · rintro (h | h)
        · exact Or.inl h
        · exact Or.inr (List.mem_cons_of_mem y h)
      · rintro (h | h)
        · exact Or.inl h
        · rcases List.mem_cons.mp h with rfl | h
          · exact Or.inl hy
          · exact Or.inr h
    · rw [ih, Finset.mem_insert, List.mem_cons]
      tauto

/-- What waits after a round waited before it or is new. -/
theorem mem_visit_pending {z : α} :
    z ∈ (visit ys pending keep).1 ↔ z ∈ pending ∨ (z ∈ ys ∧ z ∉ keep) := by
  induction ys generalizing pending keep with
  | nil => simp [visit]
  | cons y ys ih =>
    rw [visit]
    split_ifs with hy
    · rw [ih]
      constructor
      · rintro (h | h)
        · exact Or.inl h
        · exact Or.inr ⟨List.mem_cons_of_mem y h.1, h.2⟩
      · rintro (h | ⟨h, hz⟩)
        · exact Or.inl h
        · rcases List.mem_cons.mp h with rfl | h
          · exact absurd hy hz
          · exact Or.inr ⟨h, hz⟩
    · rw [ih, Finset.mem_insert, List.mem_cons, List.mem_cons]
      constructor
      · rintro ((rfl | h) | ⟨h, hz⟩)
        · exact Or.inr ⟨Or.inl rfl, hy⟩
        · exact Or.inl h
        · exact Or.inr ⟨Or.inr h, fun hk => hz (Or.inr hk)⟩
      · rintro (h | ⟨rfl | h, hz⟩)
        · exact Or.inl (Or.inr h)
        · exact Or.inl (Or.inl rfl)
        · by_cases hzy : z = y
          · exact Or.inl (Or.inl hzy)
          · exact Or.inr ⟨h, fun hk => hk.elim hzy hz⟩

/-- The rounds that are left do not grow. -/
theorem visit_measure (pending : List α) (keep : Finset α) (hys : ∀ y ∈ ys, y ∈ U) :
    (visit ys pending keep).1.length + (U \ (visit ys pending keep).2).card =
      pending.length + (U \ keep).card := by
  induction ys generalizing pending keep with
  | nil => rfl
  | cons y ys ih =>
    have hrest : ∀ z ∈ ys, z ∈ U := fun z hz => hys z (List.mem_cons_of_mem y hz)
    rw [visit]
    split_ifs with hy
    · exact ih _ _ hrest
    · have hmem : y ∈ U \ keep := Finset.mem_sdiff.mpr ⟨hys y List.mem_cons_self, hy⟩
      have hcard : (U \ insert y keep).card + 1 = (U \ keep).card := by
        rw [Finset.sdiff_insert, Finset.card_erase_add_one hmem]
      rw [ih _ _ hrest, List.length_cons]
      omega

end

/-! ### The loop -/

variable {succ : α → List α} {U : Finset α}

/-- The set contains the start and the successors of its members. -/
def Closed (succ : α → List α) (start : Finset α) (S : Set α) : Prop :=
  (∀ x ∈ start, x ∈ S) ∧ ∀ x ∈ S, ∀ y ∈ succ x, y ∈ S

theorem run_subset {fuel : ℕ} {pending : List α} {keep start : Finset α} {S : Set α}
    (hS : Closed succ start S) (hkeep : ∀ x ∈ keep, x ∈ S) (hpending : ∀ x ∈ pending, x ∈ keep) :
    ∀ x ∈ run succ fuel pending keep, x ∈ S := by
  induction fuel generalizing pending keep with
  | zero => simpa [run] using hkeep
  | succ fuel ih =>
    rcases pending with _ | ⟨x, pending⟩
    · simpa [run] using hkeep
    refine ih (fun z hz => ?_) fun z hz => ?_
    · rcases mem_visit.mp hz with hz | hz
      · exact hkeep z hz
      · exact hS.2 x (hkeep x (hpending x List.mem_cons_self)) z hz
    · rcases mem_visit_pending.mp hz with hz | hz
      · exact mem_visit.mpr (Or.inl (hpending z (List.mem_cons_of_mem x hz)))
      · exact mem_visit.mpr (Or.inr hz.1)

theorem subset_run {fuel : ℕ} {pending : List α} {keep : Finset α} :
    ∀ x ∈ keep, x ∈ run succ fuel pending keep := by
  induction fuel generalizing pending keep with
  | zero => exact fun x hx => hx
  | succ fuel ih =>
    rcases pending with _ | ⟨y, pending⟩
    · exact fun x hx => hx
    · exact fun x hx => ih x (mem_visit.mpr (Or.inl hx))

theorem run_closed (hU : ∀ x, ∀ y ∈ succ x, y ∈ U) {fuel : ℕ} {pending : List α} {keep : Finset α}
    (hfuel : pending.length + (U \ keep).card ≤ fuel)
    (hdone : ∀ x ∈ keep, x ∉ pending → ∀ y ∈ succ x, y ∈ keep) :
    ∀ x ∈ run succ fuel pending keep, ∀ y ∈ succ x, y ∈ run succ fuel pending keep := by
  induction fuel generalizing pending keep with
  | zero =>
    obtain rfl : pending = [] := List.length_eq_zero_iff.mp (by omega)
    simpa [run] using hdone
  | succ fuel ih =>
    rcases pending with _ | ⟨x, pending⟩
    · simpa [run] using hdone
    have hmeasure := visit_measure pending keep (hU x)
    refine ih (by rw [List.length_cons] at hfuel; omega) fun z hz hzp y hy => ?_
    -- A member that no longer waits is `x`, or was done before.
    by_cases hk : z ∈ keep
    · by_cases hzx : z = x
      · exact mem_visit.mpr (Or.inr (hzx ▸ hy))
      · have hnot : z ∉ x :: pending := by
          intro h
          rcases List.mem_cons.mp h with h | h
          · exact hzx h
          · exact hzp (mem_visit_pending.mpr (Or.inl h))
        exact mem_visit.mpr (Or.inl (hdone z hk hnot y hy))
    · have hys := (mem_visit.mp hz).resolve_left hk
      exact absurd (mem_visit_pending.mpr (Or.inr ⟨hys, hk⟩)) hzp

/-- **The worklist computes the least closed set.** -/
theorem run_isLeast (hU : ∀ x, ∀ y ∈ succ x, y ∈ U) {start : Finset α} {pending : List α}
    (hpending : ∀ x, x ∈ pending ↔ x ∈ start) {fuel : ℕ}
    (hfuel : pending.length + U.card ≤ fuel) :
    IsLeast { S | Closed succ start S } (run succ fuel pending start : Set α) := by
  refine ⟨⟨fun x hx => subset_run x hx, fun x hx => ?_⟩, fun S hS x hx => ?_⟩
  · have hcard : (U \ start).card ≤ U.card := Finset.card_le_card Finset.sdiff_subset
    refine run_closed hU (by omega) (fun z hz hzp => ?_) x hx
    exact absurd ((hpending z).mpr hz) hzp
  · exact run_subset hS hS.1 (fun z hz => (hpending z).mp hz) x hx

end Worklist

end DeltaBox
