import DeltaBox.Lib.Machine
import Mathlib.Algebra.Order.Field.Rat
import Mathlib.Data.List.MinMax
import Mathlib.Order.WithBot

/-!
# The tree of `run_decoupled`, with its visits and values

`_select` goes down from the root, each time to the child with the highest UCT value, until it meets
a node that can be expanded (`agent/host/decoupled_mcts.py`). It never goes back up. `_backprop` adds
the value of a child to every node above it.

`HostMcts` has the same descent with the ranking of the children as a choice of the environment.
Here the ranking comes from the visits and the values.

## What is modelled

* The nodes by their numbers, with parent and children as the loop links them.
* Values of any type with an addition, which need not be associative, and `_uct` as any function of
  the value, the visits and the visits of the parent. A child without a visit ranks above all others.

## Main definitions

* `select`, `expand`, `backprop`
* `Shape` — what every tree of the loop has: parents come before their children
* `DeadEnd` — the descent ends at a finished leaf
* `ancestors` — the nodes that `_backprop` visits

## Main results

* `finds_iff` — when `_select` finds a node that can be expanded
* `counted_of_exec` — visits and value sums count the evaluated nodes of the subtree
-/

namespace DeltaBox

namespace Uct

/-- A node. Its number is its place among the nodes. -/
structure Node (V : Type*) where
  parent : Option ℕ
  finished : Bool
  children : List ℕ
  visits : ℕ
  valueSum : V
  deriving DecidableEq, Repr

variable {V S : Type*} [LinearOrder S] {nodes : List (Node V)} {maxExpansions : ℕ}
  {score : V → ℕ → ℕ → S}

/-! ### Selection -/

/-- Can a node be expanded? -/
def Node.expandable (maxExpansions : ℕ) (node : Node V) : Bool :=
  !node.finished && decide (node.children.length < maxExpansions)

/-- `_uct`. -/
def uct (score : V → ℕ → ℕ → S) (child : Node V) (parentVisits : ℕ) : WithTop S :=
  if child.visits = 0 then ⊤ else score child.valueSum child.visits parentVisits

/-- The UCT value of the child with a number. -/
def rank (score : V → ℕ → ℕ → S) (nodes : List (Node V)) (parentVisits c : ℕ) :
    WithTop S :=
  (nodes[c]?).elim ⊤ fun child => uct score child parentVisits

/-- The first child with the highest UCT value. -/
def best (score : V → ℕ → ℕ → S) (nodes : List (Node V)) (node : Node V) : Option ℕ :=
  node.children.argmax (rank score nodes node.visits)

/-- The descent of `_select`, for so many levels. -/
def descend (score : V → ℕ → ℕ → S) (maxExpansions : ℕ) (nodes : List (Node V)) : ℕ → ℕ → Option ℕ
  | 0, _ => none
  | fuel + 1, i =>
    match nodes[i]? with
    | none => none
    | some node =>
      if node.expandable maxExpansions then some i
      else match best score nodes node with
        | none => none
        | some child => descend score maxExpansions nodes fuel child

/-- `_select`. No way down is longer than the number of nodes. -/
def select (score : V → ℕ → ℕ → S) (maxExpansions : ℕ) (nodes : List (Node V)) : Option ℕ :=
  descend score maxExpansions nodes nodes.length 0

/-! ### Expansion -/

/-- The parent of the node with a number. -/
def parentOf (nodes : List (Node V)) (i : ℕ) : Option ℕ := (nodes[i]?).bind Node.parent

section

variable [Add V] [Zero V]

/-- The root alone. -/
def seed : List (Node V) := [⟨none, false, [], 0, 0⟩]

/-- A new child of a node. -/
def expand (nodes : List (Node V)) (target : ℕ) (finished : Bool) : List (Node V) :=
  nodes.modify target (fun node => { node with children := node.children ++ [nodes.length] }) ++
    [⟨some target, finished, [], 0, 0⟩]

/-- One turn of the loop of `_backprop`. -/
def Node.bump (value : V) (node : Node V) : Node V :=
  { node with visits := node.visits + 1, valueSum := node.valueSum + value }

/-- The loop of `_backprop`, for so many levels. -/
def ascend (value : V) : ℕ → List (Node V) → ℕ → List (Node V)
  | 0, nodes, _ => nodes
  | fuel + 1, nodes, cur =>
    let nodes' := nodes.modify cur (Node.bump value)
    match parentOf nodes cur with
    | none => nodes'
    | some parent => ascend value fuel nodes' parent

/-- `_backprop`. -/
def backprop (nodes : List (Node V)) (node : ℕ) (value : V) : List (Node V) :=
  ascend value nodes.length nodes node

/-- An evaluated expansion of some node. -/
structure Turn (V : Type*) where
  target : ℕ
  finished : Bool
  value : V

/-- An iteration of the loop, for any node of the tree. -/
def turn (nodes : List (Node V)) (t : Turn V) : Option (List (Node V)) :=
  if t.target < nodes.length then
    some (backprop (expand nodes t.target t.finished) nodes.length t.value)
  else none

end

/-! ### The shape of a tree -/

/-- What the nodes of a tree are to each other. -/
structure Shape (nodes : List (Node V)) : Prop where
  ne : 0 < nodes.length
  parent_lt : ∀ {i p}, parentOf nodes i = some p → p < i
  root : ∀ {i}, i < nodes.length → i ≠ 0 → parentOf nodes i ≠ none
  children : ∀ {i node}, nodes[i]? = some node →
    node.children = (List.range nodes.length).filter fun c => parentOf nodes c = some i

/-- A tree. -/
structure Tree (V : Type*) where
  nodes : List (Node V)
  shape : Shape nodes

theorem lt_of_mem_children (h : Shape nodes) {i c : ℕ} {node : Node V} (hnode : nodes[i]? = some node)
    (hc : c ∈ node.children) : i < c ∧ c < nodes.length := by
  rw [h.children hnode, List.mem_filter, List.mem_range, decide_eq_true_eq] at hc
  exact ⟨h.parent_lt hc.2, hc.1⟩

/-! ### What the descent finds -/

/-- The way down by the best children meets no node that can be expanded. -/
inductive DeadEnd (score : V → ℕ → ℕ → S) (maxExpansions : ℕ) (nodes : List (Node V)) : ℕ → Prop
  /-- It ends at a finished leaf. -/
  | leaf {i : ℕ} {node : Node V} (hnode : nodes[i]? = some node) (hfinished : node.finished = true)
      (hleaf : node.children = []) : DeadEnd score maxExpansions nodes i
  /-- It passes a node that is finished or full. -/
  | down {i c : ℕ} {node : Node V} (hnode : nodes[i]? = some node)
      (hfull : node.expandable maxExpansions = false) (hbest : best score nodes node = some c)
      (hdead : DeadEnd score maxExpansions nodes c) : DeadEnd score maxExpansions nodes i

theorem descend_eq_some {fuel i j : ℕ} (h : descend score maxExpansions nodes fuel i = some j) :
    ∃ node, nodes[j]? = some node ∧ node.expandable maxExpansions = true := by
  induction fuel generalizing i with
  | zero => simp [descend] at h
  | succ fuel ih =>
    rw [descend] at h
    cases hnode : nodes[i]? with
    | none => simp [hnode] at h
    | some node =>
      simp only [hnode] at h
      by_cases hopen : node.expandable maxExpansions = true
      · rw [if_pos hopen] at h
        obtain rfl := Option.some.inj h
        exact ⟨node, hnode, hopen⟩
      · rw [if_neg hopen] at h
        cases hbest : best score nodes node with
        | none => simp [hbest] at h
        | some c =>
          simp only [hbest] at h
          exact ih h

theorem descend_eq_none_iff (hshape : Shape nodes) (hpos : 0 < maxExpansions) {fuel i : ℕ}
    (hi : i < nodes.length) (hfuel : nodes.length ≤ fuel + i) :
    descend score maxExpansions nodes fuel i = none ↔ DeadEnd score maxExpansions nodes i := by
  induction fuel generalizing i with
  | zero => omega
  | succ fuel ih =>
    have hnode : nodes[i]? = some nodes[i] := List.getElem?_eq_getElem hi
    generalize nodes[i] = node at hnode
    rw [descend, hnode]
    simp only
    by_cases hopen : node.expandable maxExpansions = true
    · rw [if_pos hopen]
      refine ⟨fun h => absurd h (by simp), fun hdead => ?_⟩
      cases hdead with
      | leaf hnode' hfinished hleaf =>
        obtain rfl := Option.some.inj (hnode.symm.trans hnode')
        simp [Node.expandable, hfinished] at hopen
      | down hnode' hfull hbest hdead =>
        obtain rfl := Option.some.inj (hnode.symm.trans hnode')
        rw [hfull] at hopen
        cases hopen
    · rw [if_neg hopen]
      have hfull : node.expandable maxExpansions = false := by simpa using hopen
      cases hbest : best score nodes node with
      | none =>
        have hleaf : node.children = [] := List.argmax_eq_none.mp hbest
        have hfinished : node.finished = true := by
          simpa [Node.expandable, hleaf, hpos] using hfull
        exact ⟨fun _ => .leaf hnode hfinished hleaf, fun _ => rfl⟩
      | some c =>
        have hc := lt_of_mem_children hshape hnode (List.argmax_mem hbest)
        simp only
        rw [ih hc.2 (by omega)]
        refine ⟨fun hdead => .down hnode hfull hbest hdead, fun hdead => ?_⟩
        cases hdead with
        | leaf hnode' hfinished hleaf =>
          obtain rfl := Option.some.inj (hnode.symm.trans hnode')
          rw [best, hleaf] at hbest
          cases hbest
        | down hnode' hfull' hbest' hdead =>
          obtain rfl := Option.some.inj (hnode.symm.trans hnode')
          obtain rfl := Option.some.inj (hbest.symm.trans hbest')
          exact hdead

/-- No node of the tree can be expanded. -/
def Exhausted (maxExpansions : ℕ) (nodes : List (Node V)) : Prop :=
  ∀ node ∈ nodes, node.expandable maxExpansions = false

/-- `_select` returns a node that can be expanded, or there is none. -/
def Finds (score : V → ℕ → ℕ → S) (maxExpansions : ℕ) (nodes : List (Node V)) : Prop :=
  (select score maxExpansions nodes = none → Exhausted maxExpansions nodes) ∧
  ∀ i, select score maxExpansions nodes = some i →
    ∃ node, nodes[i]? = some node ∧ node.expandable maxExpansions = true

/-- **`_select` finds a node unless it runs into a finished leaf while another branch is open.** -/
theorem finds_iff (hshape : Shape nodes) (hpos : 0 < maxExpansions) :
    Finds score maxExpansions nodes ↔
      Exhausted maxExpansions nodes ∨ ¬ DeadEnd score maxExpansions nodes 0 := by
  have hnone := @descend_eq_none_iff _ _ _ nodes maxExpansions score hshape hpos nodes.length 0
    hshape.ne (by omega)
  constructor
  · intro h
    by_cases hdead : DeadEnd score maxExpansions nodes 0
    · exact .inl (h.1 (hnone.mpr hdead))
    · exact .inr hdead
  · intro h
    refine ⟨fun hselect => ?_, fun i hselect => descend_eq_some hselect⟩
    exact h.resolve_right fun hdead => hdead (hnone.mp hselect)

/-! ### The shape is kept -/

/-- The nodes on the way from a node to the root, for so many levels. -/
def ancestors (par : ℕ → Option ℕ) : ℕ → ℕ → List ℕ
  | 0, _ => []
  | fuel + 1, j => j :: (par j).elim [] (ancestors par fuel)

/-- Only what is above matters, and the levels are enough. -/
theorem ancestors_congr {par par' : ℕ → Option ℕ} {fuel fuel' j : ℕ}
    (hlt : ∀ {i p}, par i = some p → p < i) (heq : ∀ i ≤ j, par i = par' i) (hfuel : j < fuel)
    (hfuel' : j < fuel') : ancestors par fuel j = ancestors par' fuel' j := by
  induction fuel generalizing j fuel' with
  | zero => omega
  | succ fuel ih =>
    obtain ⟨fuel', rfl⟩ : ∃ n, fuel' = n + 1 := ⟨fuel' - 1, by omega⟩
    rw [ancestors, ancestors, ← heq j le_rfl]
    cases hpar : par j with
    | none => rfl
    | some p =>
      have hp := hlt hpar
      exact congrArg _ (ih (fun i hi => heq i (by omega)) (by omega) (by omega))

theorem le_of_mem_ancestors {par : ℕ → Option ℕ} {fuel i j : ℕ}
    (hlt : ∀ {i p}, par i = some p → p < i) (h : i ∈ ancestors par fuel j) : i ≤ j := by
  induction fuel generalizing j with
  | zero => cases h
  | succ fuel ih =>
    rw [ancestors] at h
    rcases List.mem_cons.mp h with rfl | h
    · exact le_rfl
    · cases hpar : par j with
      | none => simp [hpar] at h
      | some p =>
        rw [hpar] at h
        have := hlt hpar
        have := ih h
        omega

section

variable [Zero V] {target : ℕ} {finished : Bool}

theorem length_expand : (expand nodes target finished).length = nodes.length + 1 := by
  simp [expand]

theorem getElem?_expand_of_lt {i : ℕ} (hi : i < nodes.length) :
    (expand nodes target finished)[i]? = (nodes[i]?).map fun node =>
      if target = i then { node with children := node.children ++ [nodes.length] } else node := by
  rw [expand, List.getElem?_append_left (by simpa using hi), List.getElem?_modify]
  rfl

theorem getElem?_expand_self :
    (expand nodes target finished)[nodes.length]? = some ⟨some target, finished, [], 0, 0⟩ := by
  rw [expand, List.getElem?_append_right (by simp)]
  simp

theorem parentOf_expand_of_lt {i : ℕ} (hi : i < nodes.length) :
    parentOf (expand nodes target finished) i = parentOf nodes i := by
  rw [parentOf, getElem?_expand_of_lt hi, parentOf]
  cases nodes[i]? with
  | none => rfl
  | some node =>
    simp only [Option.map_some, Option.bind_some]
    split <;> rfl

theorem parentOf_expand_self :
    parentOf (expand nodes target finished) nodes.length = some target := by
  rw [parentOf, getElem?_expand_self]
  rfl

theorem Shape.expand (h : Shape nodes) (htarget : target < nodes.length) :
    Shape (expand nodes target finished) where
  ne := by rw [length_expand]; omega
  parent_lt := by
    intro i p hp
    rcases Nat.lt_trichotomy i nodes.length with hi | rfl | hi
    · rw [parentOf_expand_of_lt hi] at hp
      exact h.parent_lt hp
    · rw [parentOf_expand_self] at hp
      exact Option.some.inj hp ▸ htarget
    · have hnone : (Uct.expand nodes target finished)[i]? = none :=
        List.getElem?_eq_none (by rw [length_expand]; omega)
      simp [parentOf, hnone] at hp
  root := by
    intro i hi hne
    rw [length_expand] at hi
    rcases Nat.lt_succ_iff_lt_or_eq.mp hi with hi | rfl
    · rw [parentOf_expand_of_lt hi]
      exact h.root hi hne
    · rw [parentOf_expand_self]
      simp
  children := by
    intro i node hnode
    rw [length_expand, List.range_succ, List.filter_append]
    -- the older children
    have hold : (List.range nodes.length).filter
        (fun c => parentOf (Uct.expand nodes target finished) c = some i) =
        (List.range nodes.length).filter fun c => parentOf nodes c = some i := by
      refine List.filter_congr fun c hc => ?_
      rw [parentOf_expand_of_lt (List.mem_range.mp hc)]
    rw [hold]
    rcases Nat.lt_trichotomy i nodes.length with hi | rfl | hi
    · rw [getElem?_expand_of_lt hi] at hnode
      obtain ⟨old, hget, rfl⟩ := Option.map_eq_some_iff.mp hnode
      by_cases htgt : target = i
      · simp [htgt, h.children hget, parentOf_expand_self]
      · simp [htgt, h.children hget, parentOf_expand_self]
    · rw [getElem?_expand_self] at hnode
      obtain rfl := Option.some.inj hnode
      have hne : target ≠ nodes.length := by omega
      have hempty : (List.range nodes.length).filter
          (fun c => parentOf nodes c = some nodes.length) = [] := by
        refine List.filter_eq_nil_iff.mpr fun c hc hpar => ?_
        have := h.parent_lt (of_decide_eq_true hpar)
        have := List.mem_range.mp hc
        omega
      simp [hempty, parentOf_expand_self, hne]
    · rw [List.getElem?_eq_none (by rw [length_expand]; omega)] at hnode
      cases hnode

end

/-! ### What the ascent does -/

section

variable [Add V] {value : V}

theorem getElem?_bump {cur i : ℕ} :
    (nodes.modify cur (Node.bump value))[i]? =
      (nodes[i]?).map fun node => if cur = i then node.bump value else node := by
  rw [List.getElem?_modify]
  rfl

theorem parentOf_bump (cur i : ℕ) :
    parentOf (nodes.modify cur (Node.bump value)) i = parentOf nodes i := by
  rw [parentOf, getElem?_bump, parentOf]
  cases nodes[i]? with
  | none => rfl
  | some node =>
    simp only [Option.map_some, Option.bind_some]
    split <;> rfl

/-- **`_backprop` adds the value once to every node on the way to the root.** -/
theorem getElem?_ascend {fuel cur i : ℕ} (hlt : ∀ {i p}, parentOf nodes i = some p → p < i) :
    (ascend value fuel nodes cur)[i]? = (nodes[i]?).map fun node =>
      if i ∈ ancestors (parentOf nodes) fuel cur then node.bump value else node := by
  induction fuel generalizing nodes cur with
  | zero => simp [ascend, ancestors]
  | succ fuel ih =>
    have hpar : parentOf (nodes.modify cur (Node.bump value)) = parentOf nodes :=
      funext (parentOf_bump cur)
    rw [ascend, ancestors]
    cases hcur : parentOf nodes cur with
    | none =>
      simp only [getElem?_bump, Option.elim_none, List.mem_singleton]
      simp only [eq_comm]
    | some p =>
      have hp := hlt hcur
      simp only [Option.elim_some]
      rw [ih (by rw [hpar]; exact hlt), getElem?_bump, Option.map_map, hpar]
      refine congrArg (fun f => Option.map f nodes[i]?) (funext fun node => ?_)
      -- the node itself is not above its parent
      have hnot : cur ∉ ancestors (parentOf nodes) fuel p := fun hmem => by
        have := le_of_mem_ancestors hlt hmem
        omega
      simp only [Function.comp_apply, List.mem_cons]
      by_cases hcuri : cur = i
      · subst hcuri
        simp [hnot]
      · simp [hcuri, Ne.symm hcuri]

theorem getElem?_backprop (h : Shape nodes) {cur i : ℕ} :
    (backprop nodes cur value)[i]? = (nodes[i]?).map fun node =>
      if i ∈ ancestors (parentOf nodes) nodes.length cur then node.bump value else node :=
  getElem?_ascend h.parent_lt

theorem parentOf_backprop (h : Shape nodes) (cur i : ℕ) :
    parentOf (backprop nodes cur value) i = parentOf nodes i := by
  rw [parentOf, getElem?_backprop h, parentOf]
  cases nodes[i]? with
  | none => rfl
  | some node =>
    simp only [Option.map_some, Option.bind_some]
    split <;> rfl

theorem length_backprop (h : Shape nodes) (cur : ℕ) :
    (backprop nodes cur value).length = nodes.length := by
  refine Nat.le_antisymm ?_ ?_
  · refine List.getElem?_eq_none_iff.mp ?_
    rw [getElem?_backprop h, List.getElem?_eq_none le_rfl]
    rfl
  · have hnone := @getElem?_backprop _ nodes _ value h cur (backprop nodes cur value).length
    rw [List.getElem?_eq_none le_rfl] at hnone
    exact List.getElem?_eq_none_iff.mp (Option.map_eq_none_iff.mp hnone.symm)

theorem Shape.backprop (h : Shape nodes) (cur : ℕ) : Shape (backprop nodes cur value) where
  ne := by rw [length_backprop h]; exact h.ne
  parent_lt := by
    intro i p hp
    exact h.parent_lt (parentOf_backprop h cur i ▸ hp)
  root := by
    intro i hi hne
    rw [parentOf_backprop h]
    exact h.root (length_backprop h cur ▸ hi) hne
  children := by
    intro i node hnode
    have hpar : parentOf (Uct.backprop nodes cur value) = parentOf nodes :=
      funext (parentOf_backprop h cur)
    rw [getElem?_backprop h] at hnode
    obtain ⟨old, hget, rfl⟩ := Option.map_eq_some_iff.mp hnode
    rw [length_backprop h, hpar, ← h.children hget]
    split <;> rfl

end

/-! ### What is counted -/

section

variable [Add V] [Zero V] {target : ℕ} {finished : Bool} {value : V} {values : List V}

/-- The values of the evaluated nodes in the subtree of a node, in the order of their evaluation. The
root is not evaluated. -/
def subtreeValues (nodes : List (Node V)) (values : List V) (i : ℕ) : List V :=
  ((values.zipIdx 1).filter fun e => i ∈ ancestors (parentOf nodes) nodes.length e.2).map Prod.fst

/-- Every node counts the evaluated nodes of its subtree, and adds up their values. -/
def Counted (nodes : List (Node V)) (values : List V) : Prop :=
  ∀ i node, nodes[i]? = some node →
    node.visits = (subtreeValues nodes values i).length ∧
    node.valueSum = (subtreeValues nodes values i).foldl (· + ·) 0

/-- The values that the nodes were evaluated to, and a new one. -/
theorem subtreeValues_turn (h : Shape nodes) (hlength : nodes.length = values.length + 1)
    (htarget : target < nodes.length) (i : ℕ) :
    subtreeValues (backprop (expand nodes target finished) nodes.length value)
        (values ++ [value]) i =
      subtreeValues nodes values i ++
        if i ∈ ancestors (parentOf (expand nodes target finished)) (nodes.length + 1) nodes.length
        then [value] else [] := by
  have hshape : Shape (expand nodes target finished) := h.expand htarget
  have hpar : parentOf (backprop (expand nodes target finished) nodes.length value) =
      parentOf (expand nodes target finished) := funext (parentOf_backprop hshape nodes.length)
  have hold : (values.zipIdx 1).filter (fun e => i ∈ ancestors
        (parentOf (expand nodes target finished)) (nodes.length + 1) e.2) =
      (values.zipIdx 1).filter fun e => i ∈ ancestors (parentOf nodes) nodes.length e.2 := by
    refine List.filter_congr fun e he => ?_
    have hlt : e.2 < nodes.length := by
      have := (List.mem_zipIdx he).2.1
      omega
    rw [ancestors_congr hshape.parent_lt
      (fun k hk => parentOf_expand_of_lt (by omega)) (by omega) hlt]
  rw [subtreeValues, subtreeValues, length_backprop hshape, hpar, length_expand,
    List.zipIdx_append, List.filter_append, List.map_append, hold]
  refine congrArg _ ?_
  have hid : 1 + values.length = nodes.length := by omega
  rw [List.zipIdx_singleton, hid]
  by_cases hmem : i ∈ ancestors (parentOf (expand nodes target finished)) (nodes.length + 1)
      nodes.length
  · simp [hmem]
  · simp [hmem]

/-- An expansion and its ascent keep the counts. -/
theorem Counted.turn (h : Shape nodes) (hlength : nodes.length = values.length + 1)
    (hcounted : Counted nodes values) (htarget : target < nodes.length) :
    Counted (backprop (expand nodes target finished) nodes.length value) (values ++ [value]) := by
  intro i node hnode
  have hshape : Shape (expand nodes target finished) := h.expand htarget
  rw [subtreeValues_turn h hlength htarget]
  rw [getElem?_backprop hshape, length_expand] at hnode
  obtain ⟨node', hnode', rfl⟩ := Option.map_eq_some_iff.mp hnode
  -- what it had counted before
  have hbefore : node'.visits = (subtreeValues nodes values i).length ∧
      node'.valueSum = (subtreeValues nodes values i).foldl (· + ·) 0 := by
    rcases Nat.lt_trichotomy i nodes.length with hi | rfl | hi
    · rw [getElem?_expand_of_lt hi] at hnode'
      obtain ⟨old, hget, rfl⟩ := Option.map_eq_some_iff.mp hnode'
      have hcount := hcounted i old hget
      split <;> exact hcount
    · rw [getElem?_expand_self] at hnode'
      obtain rfl := Option.some.inj hnode'
      have hempty : subtreeValues nodes values nodes.length = [] := by
        rw [subtreeValues, List.map_eq_nil_iff, List.filter_eq_nil_iff]
        intro e he hmem
        have hle := le_of_mem_ancestors h.parent_lt (of_decide_eq_true hmem)
        have := (List.mem_zipIdx he).2.1
        omega
      rw [hempty]
      exact ⟨rfl, rfl⟩
    · rw [List.getElem?_eq_none (by rw [length_expand]; omega)] at hnode'
      cases hnode'
  by_cases hmem : i ∈ ancestors (parentOf (expand nodes target finished)) (nodes.length + 1)
      nodes.length
  · simp [hmem, Node.bump, hbefore.1, hbefore.2]
  · simp [hmem, hbefore.1, hbefore.2]

omit [Add V] in
theorem shape_seed : Shape (seed : List (Node V)) where
  ne := by simp [seed]
  parent_lt := by
    intro i p hp
    cases i with
    | zero => simp [parentOf, seed] at hp
    | succ i => simp [parentOf, seed] at hp
  root := by
    intro i hi hne
    simp only [seed, List.length_singleton] at hi
    omega
  children := by
    intro i node hnode
    cases i with
    | zero =>
      obtain rfl := Option.some.inj hnode
      rfl
    | succ i => simp [seed] at hnode

/-- The trees of the loop: their shape, and what they count. -/
theorem counted_of_exec {turns : List (Turn V)} (hrun : Machine.exec turn seed turns = some nodes) :
    nodes.length = (turns.map Turn.value).length + 1 ∧ Shape nodes ∧
      Counted nodes (turns.map Turn.value) := by
  induction turns using List.reverseRecOn generalizing nodes with
  | nil =>
    rw [Machine.exec_nil] at hrun
    subst hrun
    refine ⟨rfl, shape_seed, fun i node hnode => ?_⟩
    cases i with
    | zero =>
      obtain rfl := Option.some.inj hnode
      exact ⟨rfl, rfl⟩
    | succ i => simp [seed] at hnode
  | append_singleton turns t ih =>
    obtain ⟨before, hbefore, hlast⟩ := Machine.exec_append.mp hrun
    obtain ⟨after, hturn, rfl⟩ : ∃ after, turn before t = some after ∧ after = nodes := by
      simpa using hlast
    obtain ⟨hlength, hshape, hcounted⟩ := ih hbefore
    obtain ⟨htarget, hafter⟩ := Option.ite_none_right_eq_some.mp hturn
    obtain rfl := Option.some.inj hafter
    have hexpand : Shape (expand before t.target t.finished) := hshape.expand htarget
    rw [List.map_append]
    refine ⟨?_, hexpand.backprop before.length, hcounted.turn hshape hlength htarget⟩
    rw [length_backprop hexpand, length_expand, hlength]
    simp

/-- Every evaluated node has a visit: its own. -/
theorem visits_pos (hlength : nodes.length = values.length + 1)
    (hcounted : Counted nodes values) {i : ℕ} {node : Node V} (hnode : nodes[i]? = some node)
    (hi : i ≠ 0) : 0 < node.visits := by
  have hlt : i < nodes.length := (List.getElem?_eq_some_iff.mp hnode).1
  have hpos : i - 1 < values.length := by omega
  rw [(hcounted i node hnode).1]
  have hown : (values[i - 1], i) ∈ (values.zipIdx 1).filter
      fun e => i ∈ ancestors (parentOf nodes) nodes.length e.2 := by
    refine List.mem_filter.mpr ⟨?_, decide_eq_true ?_⟩
    · exact List.mk_mem_zipIdx_iff_le_and_getElem?_sub.mpr
        ⟨by omega, List.getElem?_eq_getElem hpos⟩
    · rw [hlength, ancestors]
      exact List.mem_cons_self
  exact List.length_pos_of_mem (List.mem_map_of_mem hown)

end

/-- **Selection and bookkeeping of the search.** On every tree, whatever the visits, the values and
the finished nodes are, `_select` finds a node that can be expanded just when the way down by the
best children does not end at a finished leaf, or when there is none. In every tree of the loop the
visits and the value sums count the evaluated nodes of the subtree, and every child has a visit. -/
theorem select_finds_iff [Add V] [Zero V] (score : V → ℕ → ℕ → S) (hpos : 1 ≤ maxExpansions) :
    (∀ t : Tree V, Finds score maxExpansions t.nodes ↔
      Exhausted maxExpansions t.nodes ∨ ¬ DeadEnd score maxExpansions t.nodes 0) ∧
    ∀ (turns : List (Turn V)) (nodes : List (Node V)), Machine.exec turn seed turns = some nodes →
      Shape nodes ∧ Counted nodes (turns.map Turn.value) ∧
        ∀ (i : ℕ) (node : Node V), nodes[i]? = some node → ∀ c ∈ node.children, ∀ child : Node V,
          nodes[c]? = some child → 0 < child.visits := by
  refine ⟨fun t => finds_iff t.shape hpos, fun turns nodes hrun => ?_⟩
  obtain ⟨hlength, hshape, hcounted⟩ := counted_of_exec hrun
  refine ⟨hshape, hcounted, fun i node hnode c hc child hchild => ?_⟩
  have hlt := lt_of_mem_children hshape hnode hc
  exact visits_pos hlength hcounted hchild (by omega)

/-- Two children of the root. The first is finished, and its value is higher. -/
def twoTurns : List (Turn ℚ) := [⟨0, true, 1⟩, ⟨0, false, 3 / 20⟩]

/-- The tree behind the two turns. -/
def twoNodes : List (Node ℚ) :=
  [⟨none, false, [1, 2], 2, 23 / 20⟩, ⟨some 0, true, [], 1, 1⟩, ⟨some 0, false, [], 1, 3 / 20⟩]

theorem exec_twoTurns : Machine.exec turn seed twoTurns = some twoNodes := by decide +kernel

/-- `_uct` with the mean as it is and any term for the visits. -/
def meanScore (explore : ℕ → ℕ → ℚ) (valueSum : ℚ) (visits parentVisits : ℕ) : ℚ :=
  valueSum / visits + explore visits parentVisits

theorem best_twoNodes (explore : ℕ → ℕ → ℚ) :
    best (meanScore explore) twoNodes ⟨none, false, [1, 2], 2, 23 / 20⟩ = some 1 := by
  have hless : ¬ rank (meanScore explore) twoNodes 2 1 < rank (meanScore explore) twoNodes 2 2 := by
    simp only [rank, twoNodes, List.getElem?_cons_succ, List.getElem?_cons_zero, Option.elim_some,
      uct, meanScore]
    rw [if_neg (by decide), if_neg (by decide), WithTop.coe_lt_coe, add_lt_add_iff_right]
    decide +kernel
  rw [best, show ([1, 2] : List ℕ) = [1] ++ [2] from rfl, List.argmax_concat,
    List.argmax_singleton]
  exact if_neg hless

theorem shape_twoNodes : Shape twoNodes := (counted_of_exec exec_twoTurns).2.1

/-- **The search gives up although a leaf can be expanded.** The mean of the first child is higher,
and the term for the visits, whatever it is, is the same for both. -/
theorem search_gives_up : Machine.exec turn seed twoTurns = some twoNodes ∧
    ∀ explore : ℕ → ℕ → ℚ, select (meanScore explore) 2 twoNodes = none ∧
      ¬ Finds (meanScore explore) 2 twoNodes := by
  refine ⟨exec_twoTurns, fun explore => ?_⟩
  have hdead : DeadEnd (meanScore explore) 2 twoNodes 0 :=
    .down rfl rfl (best_twoNodes explore) (.leaf rfl rfl rfl)
  refine ⟨?_, fun hfinds => ?_⟩
  · exact (descend_eq_none_iff shape_twoNodes (by decide) (by decide) (by decide)).mpr hdead
  · rcases (finds_iff shape_twoNodes (by decide)).mp hfinds with hexhausted | hdead'
    · have hopen := hexhausted ⟨some 0, false, [], 1, 3 / 20⟩ (by simp [twoNodes])
      revert hopen
      decide
    · exact hdead' hdead

/-- With one expansion for each node the first child ends the search, and the tree is exhausted. -/
theorem select_finds_iff_chain :
    Finds (meanScore fun _ _ => 0) 1
        [⟨none, false, [1], 1, 1⟩, ⟨some 0, true, [], 1, (1 : ℚ)⟩] ∧
      Counted [⟨none, false, [1], 1, 1⟩, ⟨some 0, true, [], 1, (1 : ℚ)⟩] [1] := by
  have hrun : Machine.exec turn seed [⟨0, true, (1 : ℚ)⟩] =
      some [⟨none, false, [1], 1, 1⟩, ⟨some 0, true, [], 1, (1 : ℚ)⟩] := by decide +kernel
  obtain ⟨hselect, hturns⟩ := select_finds_iff (meanScore fun _ _ => 0) (le_refl 1)
  obtain ⟨hshape, hcounted, -⟩ := hturns _ _ hrun
  refine ⟨(hselect ⟨_, hshape⟩).mpr (.inl fun node hnode => ?_), hcounted⟩
  rcases List.mem_cons.mp hnode with rfl | hnode
  · rfl
  · obtain rfl := List.mem_singleton.mp hnode
    rfl

end Uct

end DeltaBox
