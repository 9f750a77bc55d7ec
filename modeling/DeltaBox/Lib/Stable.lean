import Mathlib.Data.List.Sort
import Mathlib.Data.List.Nodup

/-!
# Sorting by a list of priorities

A stable sort by the place of a key in a list of keys brings the elements in groups, one for each key
of the list, with the others at the end. Inside a group nothing moves.

## Main definitions

* `byPriority` — the groups

## Main results

* `insertionSort_idxOf` — the sort makes the groups
-/

namespace DeltaBox

namespace Stable

variable {α β : Type*} [DecidableEq β] {κ : α → β} {keys : List β} {l : List α}

/-- The elements of each key in turn, and at the end the elements of other keys. -/
def byPriority (κ : α → β) (keys : List β) (l : List α) : List α :=
  keys.flatMap (fun k => l.filter (κ · = k)) ++ l.filter (κ · ∉ keys)

/-- Elements that are all of the first key come first. -/
theorem filter_append_of_pairwise {p : α → Prop} [DecidablePred p]
    (h : l.Pairwise fun a b => p b → p a) : l.filter p ++ l.filter (¬ p ·) = l := by
  induction l with
  | nil => rfl
  | cons x l ih =>
    rw [List.pairwise_cons] at h
    by_cases hx : p x
    · rw [List.filter_cons_of_pos (by simpa using hx), List.filter_cons_of_neg (by simpa using hx),
        List.cons_append, ih h.2]
    · -- no later element is of the key either
      have hnone : l.filter p = [] := by
        rw [List.filter_eq_nil_iff]
        intro y hy
        simpa using fun hp => hx (h.1 y hy hp)
      have hrest := ih h.2
      rw [hnone, List.nil_append] at hrest
      rw [List.filter_cons_of_neg (by simpa using hx), List.filter_cons_of_pos (by simpa using hx),
        hnone, hrest, List.nil_append]

/-- A list that is sorted by priority is the list of its groups. -/
theorem byPriority_of_pairwise (hnodup : keys.Nodup)
    (hsort : l.Pairwise fun a b => keys.idxOf (κ a) ≤ keys.idxOf (κ b)) :
    byPriority κ keys l = l := by
  induction keys generalizing l with
  | nil => simp [byPriority]
  | cons k keys ih =>
    rw [List.nodup_cons] at hnodup
    have hfirst : l.filter (κ · = k) ++ l.filter (¬ κ · = k) = l := by
      refine filter_append_of_pairwise (hsort.imp fun {a b} hle hb => ?_)
      rw [hb, List.idxOf_cons_self, Nat.le_zero, List.idxOf_eq_zero_iff_eq_nil_or_head_eq] at hle
      simpa [eq_comm] using hle
    -- the others are sorted by the rest of the keys
    have hrest : (l.filter (¬ κ · = k)).Pairwise fun a b => keys.idxOf (κ a) ≤ keys.idxOf (κ b) := by
      refine List.pairwise_filter.mpr (hsort.imp fun {a b} hle ha hb => ?_)
      rw [decide_eq_true_eq] at ha hb
      rw [List.idxOf_cons_ne _ (Ne.symm ha), List.idxOf_cons_ne _ (Ne.symm hb)] at hle
      exact Nat.le_of_succ_le_succ hle
    have hgroups : byPriority κ (k :: keys) l =
        l.filter (κ · = k) ++ byPriority κ keys (l.filter (¬ κ · = k)) := by
      have hsame : ∀ k' ∈ keys, (l.filter (¬ κ · = k)).filter (κ · = k') = l.filter (κ · = k') := by
        intro k' hk'
        rw [List.filter_filter]
        refine List.filter_congr fun a _ => ?_
        have hne : k' ≠ k := fun heq => hnodup.1 (heq ▸ hk')
        by_cases ha : κ a = k'
        · simp [ha, hne]
        · simp [ha]
      have hothers : (l.filter (¬ κ · = k)).filter (κ · ∉ keys) = l.filter (κ · ∉ k :: keys) := by
        rw [List.filter_filter]
        refine List.filter_congr fun a _ => ?_
        by_cases ha : κ a = k <;> simp [ha]
      rw [byPriority, byPriority, List.flatMap_cons, List.append_assoc, hothers,
        List.flatMap_congr hsame]
    rw [hgroups, ih hnodup.2 hrest, hfirst]

/-- **The sort makes the groups.** -/
theorem insertionSort_idxOf (hnodup : keys.Nodup) (l : List α) :
    l.insertionSort (fun a b => keys.idxOf (κ a) ≤ keys.idxOf (κ b)) = byPriority κ keys l := by
  have htotal : Std.Total fun a b : α => keys.idxOf (κ a) ≤ keys.idxOf (κ b) :=
    ⟨fun a b => le_total _ _⟩
  have htrans : IsTrans α fun a b => keys.idxOf (κ a) ≤ keys.idxOf (κ b) :=
    ⟨fun a b c => le_trans⟩
  have hsorted := List.pairwise_insertionSort (fun a b => keys.idxOf (κ a) ≤ keys.idxOf (κ b)) l
  have hperm := List.perm_insertionSort (fun a b => keys.idxOf (κ a) ≤ keys.idxOf (κ b)) l
  -- the elements of one group keep their order
  have hstable : ∀ p : α → Bool, (∀ a b, p a → p b → keys.idxOf (κ a) ≤ keys.idxOf (κ b)) →
      (l.insertionSort fun a b => keys.idxOf (κ a) ≤ keys.idxOf (κ b)).filter p = l.filter p := by
    intro p hp
    have hsub : (l.filter p).Sublist (l.insertionSort fun a b => keys.idxOf (κ a) ≤ keys.idxOf (κ b)) :=
      List.sublist_insertionSort (List.pairwise_filter.mpr
        (List.pairwise_of_forall fun a b ha hb => hp a b ha hb)) List.filter_sublist
    have hsub' := hsub.filter p
    rw [List.filter_filter] at hsub'
    simp only [Bool.and_self] at hsub'
    exact (hsub'.eq_of_length (hperm.filter p).length_eq.symm).symm
  rw [← byPriority_of_pairwise hnodup hsorted, byPriority, byPriority]
  congr 1
  · refine List.flatMap_congr fun k _ => hstable _ fun a b ha hb => ?_
    rw [of_decide_eq_true ha, of_decide_eq_true hb]
  · refine hstable _ fun a b ha hb => ?_
    rw [List.idxOf_of_notMem (of_decide_eq_true ha), List.idxOf_of_notMem (of_decide_eq_true hb)]

end Stable

end DeltaBox
