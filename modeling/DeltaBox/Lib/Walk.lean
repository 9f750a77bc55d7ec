import Mathlib.Algebra.BigOperators.Group.Finset.Basic
import Mathlib.Logic.Relation

/-!
# Walks with a stack

A graph is walked from a root. What is found is put into a list, and its successors go on a stack.
Some nodes are skipped, and so is what can only be reached through them.

The loop runs on fuel. A round takes one node off the stack, and puts on the successors of a node that
it has found. So the length of the stack and the number of successors of the nodes still to be found
count the rounds.

Where each node has at most one predecessor, a node is found after all those above it.

## Main definitions

* `Walk.run` — the loop
* `Walk.Reached` — paths without a skipped node

## Main results

* `Walk.walked_run` — with enough fuel the stack is empty at the end
* `Walk.Walked.mem_iff` — exactly the nodes on a path without a skipped one are found
* `Walk.Walked.pairwise` — in a forest, no node is found before one above it
-/

namespace DeltaBox

namespace Walk

variable {α : Type*} [DecidableEq α]

/-- Take nodes off the stack until it is empty. -/
def run (succ : α → List α) (skip : α → Bool) : ℕ → List α → List α → List α
  | 0, _, found => found
  | _, [], found => found
  | fuel + 1, x :: stack, found =>
    if x ∈ found ∨ skip x = true then run succ skip fuel stack found
    else run succ skip fuel ((succ x).reverse ++ stack) (found ++ [x])

/-- There is a path from the root on which nothing is skipped. -/
inductive Reached (succ : α → List α) (skip : α → Bool) (root : α) : α → Prop where
  | root (h : skip root = false) : Reached succ skip root root
  | step {x y : α} (hx : Reached succ skip root x) (hy : y ∈ succ x) (h : skip y = false) :
      Reached succ skip root y

/-- One node is directly below the other. -/
def Edge (succ : α → List α) (x y : α) : Prop := y ∈ succ x

variable {succ : α → List α} {skip : α → Bool} {root x : α} {stack found : List α}

omit [DecidableEq α] in
theorem Reached.path (h : Reached succ skip root x) : Relation.ReflTransGen (Edge succ) root x := by
  induction h with
  | root _ => exact .refl
  | step _ hy _ ih => exact ih.tail hy

omit [DecidableEq α] in
theorem Reached.not_skipped (h : Reached succ skip root x) : skip x = false := by
  cases h with
  | root h => exact h
  | step _ _ h => exact h

/-! ### What a round keeps -/

/-- A place in the middle of a walk. -/
structure Walked (succ : α → List α) (skip : α → Bool) (root : α) (stack found : List α) : Prop where
  nodup : found.Nodup
  reached : ∀ x ∈ found, Reached succ skip root x
  /-- A node is found after one that it is directly below. -/
  after : ∀ l x r, found = l ++ x :: r → x = root ∨ ∃ p ∈ l, x ∈ succ p
  pending : ∀ x ∈ stack, x = root ∨ ∃ p ∈ found, x ∈ succ p
  started : root ∈ found ∨ root ∈ stack ∨ skip root = true
  closed : ∀ p ∈ found, ∀ y ∈ succ p, y ∈ found ∨ y ∈ stack ∨ skip y = true

omit [DecidableEq α] in
theorem walked_start (succ : α → List α) (skip : α → Bool) (root : α) :
    Walked succ skip root [root] [] where
  nodup := List.nodup_nil
  reached := nofun
  after := by
    intro l x r h
    simp at h
  pending := by
    intro x hx
    exact .inl (List.mem_singleton.mp hx)
  started := .inr (.inl List.mem_cons_self)
  closed := nofun

omit [DecidableEq α] in
/-- A node that is skipped or has been found. -/
theorem Walked.pass (h : Walked succ skip root (x :: stack) found) (hx : x ∈ found ∨ skip x = true) :
    Walked succ skip root stack found where
  nodup := h.nodup
  reached := h.reached
  after := h.after
  pending := fun y hy => h.pending y (List.mem_cons_of_mem x hy)
  started := by
    rcases h.started with hr | hr | hr
    · exact .inl hr
    · rcases List.mem_cons.mp hr with rfl | hr
      · exact hx.elim .inl fun hs => .inr (.inr hs)
      · exact .inr (.inl hr)
    · exact .inr (.inr hr)
  closed := by
    intro p hp y hy
    rcases h.closed p hp y hy with hr | hr | hr
    · exact .inl hr
    · rcases List.mem_cons.mp hr with rfl | hr
      · exact hx.elim .inl fun hs => .inr (.inr hs)
      · exact .inr (.inl hr)
    · exact .inr (.inr hr)

omit [DecidableEq α] in
/-- A node that is found. -/
theorem Walked.find (h : Walked succ skip root (x :: stack) found) (hx : x ∉ found)
    (hskip : skip x = false) :
    Walked succ skip root ((succ x).reverse ++ stack) (found ++ [x]) where
  nodup := h.nodup.append (List.nodup_singleton x) fun y hy hyx => hx (List.mem_singleton.mp hyx ▸ hy)
  reached := by
    intro y hy
    rcases List.mem_append.mp hy with hy | hy
    · exact h.reached y hy
    · obtain rfl := List.mem_singleton.mp hy
      rcases h.pending y List.mem_cons_self with rfl | ⟨p, hp, hyp⟩
      · exact .root hskip
      · exact (h.reached p hp).step hyp hskip
  after := by
    intro l y r heq
    rcases List.append_eq_append_iff.mp heq with ⟨s, rfl, hs⟩ | ⟨s, hs, heq⟩
    · cases s with
      | nil =>
        rw [List.nil_append] at hs
        obtain ⟨rfl, -⟩ := List.cons.inj hs
        rw [List.append_nil]
        exact h.pending x List.mem_cons_self
      | cons z s =>
        have := congrArg List.length hs
        simp at this
    · cases s with
      | nil =>
        rw [List.append_nil] at hs
        obtain ⟨rfl, -⟩ := List.cons.inj heq
        rw [← hs]
        exact h.pending y List.mem_cons_self
      | cons z s =>
        obtain ⟨rfl, -⟩ := List.cons.inj heq
        exact h.after l y s hs
  pending := by
    intro y hy
    rcases List.mem_append.mp hy with hy | hy
    · exact .inr ⟨x, List.mem_append_right _ List.mem_cons_self, List.mem_reverse.mp hy⟩
    · rcases h.pending y (List.mem_cons_of_mem x hy) with hr | ⟨p, hp, hyp⟩
      · exact .inl hr
      · exact .inr ⟨p, List.mem_append_left _ hp, hyp⟩
  started := by
    rcases h.started with hr | hr | hr
    · exact .inl (List.mem_append_left _ hr)
    · rcases List.mem_cons.mp hr with rfl | hr
      · exact .inl (List.mem_append_right _ List.mem_cons_self)
      · exact .inr (.inl (List.mem_append_right _ hr))
    · exact .inr (.inr hr)
  closed := by
    intro p hp y hy
    rcases List.mem_append.mp hp with hp | hp
    · rcases h.closed p hp y hy with hr | hr | hr
      · exact .inl (List.mem_append_left _ hr)
      · rcases List.mem_cons.mp hr with rfl | hr
        · exact .inl (List.mem_append_right _ List.mem_cons_self)
        · exact .inr (.inl (List.mem_append_right _ hr))
      · exact .inr (.inr hr)
    · obtain rfl := List.mem_singleton.mp hp
      exact .inr (.inl (List.mem_append_left _ (List.mem_reverse.mpr hy)))

/-! ### The loop -/

/-- How many successors the nodes have that are still to be found. -/
def remaining (succ : α → List α) (U : Finset α) (found : List α) : ℕ :=
  ∑ y ∈ U \ found.toFinset, (succ y).length

theorem remaining_find {U : Finset α} (hx : x ∉ found) (hU : x ∈ U) :
    remaining succ U found = (succ x).length + remaining succ U (found ++ [x]) := by
  have hmem : x ∈ U \ found.toFinset := Finset.mem_sdiff.mpr ⟨hU, by simpa using hx⟩
  have herase : U \ (found ++ [x]).toFinset = (U \ found.toFinset).erase x := by
    ext y
    simp only [List.toFinset_append, Finset.mem_sdiff, Finset.mem_union, List.mem_toFinset,
      List.mem_singleton, Finset.mem_erase]
    tauto
  rw [remaining, remaining, herase]
  exact (Finset.add_sum_erase _ (fun y => (succ y).length) hmem).symm

/-- **With enough fuel the stack is empty at the end.** -/
theorem walked_run {U : Finset α} (hroot : root ∈ U) (hsucc : ∀ x, ∀ y ∈ succ x, y ∈ U) {fuel : ℕ}
    (hfuel : stack.length + remaining succ U found ≤ fuel)
    (h : Walked succ skip root stack found) :
    Walked succ skip root [] (run succ skip fuel stack found) := by
  induction fuel generalizing stack found with
  | zero =>
    have hnil : stack = [] := List.length_eq_zero_iff.mp (by omega)
    subst hnil
    exact h
  | succ fuel ih =>
    cases stack with
    | nil => exact h
    | cons x stack =>
      rw [run]
      rw [List.length_cons] at hfuel
      by_cases hx : x ∈ found ∨ skip x = true
      · rw [if_pos hx]
        exact ih (by omega) (h.pass hx)
      · rw [if_neg hx]
        obtain ⟨hnew, hskip⟩ := not_or.mp hx
        have hU : x ∈ U := by
          rcases h.pending x List.mem_cons_self with rfl | ⟨p, -, hp⟩
          · exact hroot
          · exact hsucc p x hp
        rw [remaining_find hnew hU] at hfuel
        refine ih ?_ (h.find hnew (by simpa using hskip))
        rw [List.length_append, List.length_reverse]
        omega

omit [DecidableEq α] in
/-- **What is found.** -/
theorem Walked.mem_iff (h : Walked succ skip root [] found) :
    x ∈ found ↔ Reached succ skip root x := by
  constructor
  · exact h.reached x
  · intro hx
    induction hx with
    | root hskip =>
      rcases h.started with hr | hr | hr
      · exact hr
      · cases hr
      · rw [hskip] at hr
        cases hr
    | step _ hy hskip ih =>
      rcases h.closed _ ih _ hy with hr | hr | hr
      · exact hr
      · cases hr
      · rw [hskip] at hr
        cases hr

/-! ### Forests -/

/-- A node has at most one predecessor, and none is below itself. -/
structure Forest (succ : α → List α) : Prop where
  unique : ∀ p p' x, x ∈ succ p → x ∈ succ p' → p = p'
  acyclic : ∀ x, ¬ Relation.TransGen (Edge succ) x x

omit [DecidableEq α] in
/-- What is above a node has been found before it. -/
theorem Walked.above_before (hforest : Forest succ) (h : Walked succ skip root stack found) {y : α}
    (hy : y ∈ found) {l r : List α} (hsplit : found = l ++ x :: r)
    (hyx : Relation.TransGen (Edge succ) y x) : y ∈ l := by
  induction hn : l.length using Nat.strong_induction_on generalizing l x r with
  | _ n ih =>
    subst hn
    rcases h.after l x r hsplit with rfl | ⟨p, hp, hxp⟩
    · have hpath := (h.reached y hy).path
      exact absurd (Relation.TransGen.trans_right hpath hyx) (hforest.acyclic x)
    · obtain ⟨l₁, l₂, rfl⟩ := List.append_of_mem hp
      rcases Relation.TransGen.tail'_iff.mp hyx with ⟨p', hyp, hpx⟩
      obtain rfl := hforest.unique p' p x hpx hxp
      rcases Relation.reflTransGen_iff_eq_or_transGen.mp hyp with rfl | hyp
      · exact hp
      · have hsplit' : found = l₁ ++ p' :: (l₂ ++ x :: r) := by
          rw [hsplit, List.append_assoc, List.cons_append]
        have hlt : l₁.length < (l₁ ++ p' :: l₂).length := by
          rw [List.length_append, List.length_cons]
          omega
        exact List.mem_append_left _ (ih _ hlt hsplit' hyp rfl)

omit [DecidableEq α] in
/-- **In a forest no node is found before one above it.** -/
theorem Walked.pairwise (hforest : Forest succ) (h : Walked succ skip root stack found) :
    found.Pairwise fun x y => ¬ Relation.TransGen (Edge succ) y x := by
  rw [List.pairwise_iff_forall_sublist]
  intro x y hsub hyx
  obtain ⟨r₁, r₂, heq, hx, hy⟩ := List.cons_sublist_iff.mp hsub
  obtain ⟨s, t, rfl⟩ := List.append_of_mem hx
  have hy : y ∈ r₂ := List.singleton_sublist.mp hy
  have hsplit : found = s ++ x :: (t ++ r₂) := by
    rw [heq, List.append_assoc, List.cons_append]
  have hmem : y ∈ found := heq ▸ List.mem_append_right _ hy
  have hbefore := h.above_before hforest hmem hsplit hyx
  have hnd := h.nodup
  rw [heq] at hnd
  exact (List.nodup_append.mp hnd).2.2 y (List.mem_append_left _ hbefore) y hy rfl

end Walk

end DeltaBox
