import DeltaBox.Convert.Tree

/-!
# In which states a recorded tree replays

A node should be replayed in the state of its nearest ancestor that is not a duplicate. The converter
looks at the parent alone: it emits a restore if the parent is not the node before and has a
checkpoint. A parent that is a duplicate has none, and then the node is replayed wherever the replay
happens to be.

Where that is can be told from the tree. A node that is not a duplicate leaves the replay at itself,
and a duplicate of a node that is none leaves it at its parent. A duplicate child of a duplicate
leaves it where it was.

## Main definitions

* `above` — the nodes with all their ancestors
* `landing` — where some nodes leave the replay
* `Followed` — each node with a duplicate as its parent finds the replay at the right place
* `Right` — the schedule is right for the tree

## Main results

* `convert_events` — what is emitted, for all trees
* `replays_in_right_state` — the schedule is right if and only if the tree is followed
* `wrong_state` — a tree with four nodes for which it is not
-/

namespace DeltaBox

namespace Convert

open Schedule

variable {α ω : Type}

/-! ### The tree -/

mutual

/-- The nodes with their ancestors, the nearest first. -/
def above : Node α → List (Node α) → List (Node α × List (Node α))
  | .mk i d s cs, anc => (.mk i d s cs, anc) :: aboveChildren cs (.mk i d s cs :: anc)

/-- Those of the children. -/
def aboveChildren : List (Node α) → List (Node α) → List (Node α × List (Node α))
  | [], _ => []
  | c :: cs, anc => above c anc ++ aboveChildren cs anc

end

mutual

theorem walk_eq : ∀ (n : Node α) (anc : List (Node α)),
    walkWithParents n anc.head? = (above n anc).map fun x => (x.1, x.2.head?)
  | .mk i d s cs, anc => by
    rw [walkWithParents, above, List.map_cons, walkChildren_eq cs]

theorem walkChildren_eq : ∀ (cs : List (Node α)) (p : Node α) (anc : List (Node α)),
    walkChildren cs p = (aboveChildren cs (p :: anc)).map fun x => (x.1, x.2.head?)
  | [], _, _ => rfl
  | c :: cs, p, anc => by
    rw [walkChildren, aboveChildren, List.map_append, ← walkChildren_eq cs p anc,
      ← walk_eq c (p :: anc), List.head?_cons]

end

mutual

/-- The ancestors of a node are above its parent. -/
theorem above_parent : ∀ (n : Node α) (anc : List (Node α)), ∀ x ∈ above n anc,
    x = (n, anc) ∨ ∃ p anc', x.2 = p :: anc' ∧ (p, anc') ∈ above n anc
  | .mk i d s cs, anc, x, hx => by
    rw [above] at hx ⊢
    rcases List.mem_cons.mp hx with rfl | hx
    · exact .inl rfl
    · rcases aboveChildren_parent cs (.mk i d s cs :: anc) x hx with hanc | ⟨p, anc', hx', hp⟩
      · exact .inr ⟨_, anc, hanc, List.mem_cons_self⟩
      · exact .inr ⟨p, anc', hx', List.mem_cons_of_mem _ hp⟩

theorem aboveChildren_parent : ∀ (cs : List (Node α)) (anc : List (Node α)),
    ∀ x ∈ aboveChildren cs anc,
      x.2 = anc ∨ ∃ p anc', x.2 = p :: anc' ∧ (p, anc') ∈ aboveChildren cs anc
  | [], _, x, hx => by
    rw [aboveChildren] at hx
    cases hx
  | c :: cs, anc, x, hx => by
    rw [aboveChildren] at hx ⊢
    rcases List.mem_append.mp hx with hx | hx
    · rcases above_parent c anc x hx with rfl | ⟨p, anc', hx', hp⟩
      · exact .inl rfl
      · exact .inr ⟨p, anc', hx', List.mem_append_left _ hp⟩
    · rcases aboveChildren_parent cs anc x hx with hanc | ⟨p, anc', hx', hp⟩
      · exact .inl hanc
      · exact .inr ⟨p, anc', hx', List.mem_append_right _ hp⟩

end

/-- Every node has an id, no two the same one, and a parent has a smaller one than its child. -/
structure Numbered (root : Node α) : Prop where
  isSome : ∀ x ∈ walkWithParents root none, x.1.nodeId.isSome
  nodup : ((walkWithParents root none).map (·.1.nodeId)).Nodup
  smaller : ∀ x ∈ walkWithParents root none, ∀ p i j, x.2 = some p → p.nodeId = some i →
    x.1.nodeId = some j → i < j

/-! ### The order of expansion -/

variable {root : Node α}

theorem find?_foldl (l : List (Node α × Option (Node α)))
    (d : Dict ℤ (Node α × Option (Node α))) (hnd : (l.map (·.1.nodeId)).Nodup)
    (i : ℤ) (x : Node α × Option (Node α)) :
    (l.foldl addById d).find? i = some x ↔
      (x ∈ l ∧ x.1.nodeId = some i) ∨
        (d.find? i = some x ∧ ∀ y ∈ l, y.1.nodeId ≠ some i) := by
  induction l generalizing d with
  | nil => simp
  | cons y l ih =>
    obtain ⟨hnot, hnd⟩ := List.nodup_cons.mp hnd
    have hother : ∀ z ∈ l, z.1.nodeId ≠ y.1.nodeId := fun z hz heq =>
      hnot (List.mem_map.mpr ⟨z, hz, heq⟩)
    rw [List.foldl_cons, ih _ hnd, addById]
    cases hy : y.1.nodeId with
    | none =>
      simp only [List.mem_cons, forall_eq_or_imp, hy]
      constructor
      · rintro (⟨hx, hi⟩ | ⟨hd, hall⟩)
        · exact .inl ⟨.inr hx, hi⟩
        · exact .inr ⟨hd, by simp, hall⟩
      · rintro (⟨rfl | hx, hi⟩ | ⟨hd, -, hall⟩)
        · rw [hy] at hi
          cases hi
        · exact .inl ⟨hx, hi⟩
        · exact .inr ⟨hd, hall⟩
    | some j =>
      dsimp only
      rw [Dict.find?_set]
      simp only [List.mem_cons, forall_eq_or_imp, hy]
      by_cases hij : i = j
      · subst hij
        simp only [if_true, Option.some.injEq]
        constructor
        · rintro (⟨hx, hi⟩ | ⟨rfl, -⟩)
          · exact .inl ⟨.inr hx, hi⟩
          · exact .inl ⟨.inl rfl, hy⟩
        · rintro (⟨rfl | hx, hi⟩ | ⟨-, hne, -⟩)
          · exact .inr ⟨rfl, fun z hz => hy ▸ hother z hz⟩
          · exact .inl ⟨hx, hi⟩
          · exact absurd rfl hne
      · rw [if_neg hij]
        constructor
        · rintro (⟨hx, hi⟩ | ⟨hd, hall⟩)
          · exact .inl ⟨.inr hx, hi⟩
          · exact .inr ⟨hd, by simpa using Ne.symm hij, hall⟩
        · rintro (⟨rfl | hx, hi⟩ | ⟨hd, -, hall⟩)
          · rw [hy] at hi
            exact absurd (Option.some.inj hi).symm hij
          · exact .inl ⟨hx, hi⟩
          · exact .inr ⟨hd, hall⟩

theorem find?_byId (h : Numbered root) {i : ℤ} {x : Node α × Option (Node α)} :
    (byId root).find? i = some x ↔ x ∈ walkWithParents root none ∧ x.1.nodeId = some i := by
  rw [byId, find?_foldl _ _ h.nodup]
  simp

theorem map_fst_expansionOrder (root : Node α) :
    (expansionOrder root).map (·.1) = (byId root).keys.insertionSort (· ≤ ·) := by
  have hall : ∀ l : List ℤ, (∀ i ∈ l, i ∈ (byId root).keys) →
      (l.filterMap fun nid => ((byId root).find? nid).map fun x => (nid, x)).map (·.1) = l := by
    intro l
    induction l with
    | nil => exact fun _ => rfl
    | cons i l ih =>
      intro hl
      obtain ⟨x, hx⟩ := Dict.mem_keys_iff.mp (hl i List.mem_cons_self)
      rw [List.filterMap_cons_some (by rw [hx]; rfl), List.map_cons,
        ih fun j hj => hl j (List.mem_cons_of_mem _ hj)]
  exact hall _ fun i hi => (List.mem_insertionSort (· ≤ ·)).mp hi

/-- **The rows.** They are the nodes of the tree. -/
theorem mem_expansionOrder (h : Numbered root) {row : Row α} :
    row ∈ expansionOrder root ↔
      row.2 ∈ walkWithParents root none ∧ row.2.1.nodeId = some row.1 := by
  rw [← find?_byId h, expansionOrder, List.mem_filterMap]
  constructor
  · rintro ⟨i, -, hi⟩
    obtain ⟨x, hx, rfl⟩ := Option.map_eq_some_iff.mp hi
    exact hx
  · intro hrow
    refine ⟨row.1, (List.mem_insertionSort (· ≤ ·)).mpr (Dict.mem_keys_iff.mpr ⟨_, hrow⟩), ?_⟩
    rw [hrow]
    rfl

/-- Their ids grow. -/
theorem expansionOrder_sorted (root : Node α) :
    ((expansionOrder root).map (·.1)).Pairwise (· < ·) := by
  rw [map_fst_expansionOrder]
  have hsorted := List.pairwise_insertionSort (· ≤ ·) (byId root).keys
  have hnd : ((byId root).keys.insertionSort (· ≤ ·)).Nodup :=
    (List.perm_insertionSort (· ≤ ·) _).nodup_iff.mpr (byId root).nodup
  exact (hsorted.and hnd).imp fun h => lt_of_le_of_ne h.1 h.2

/-! ### What is emitted -/

/-- Is a checkpoint emitted for the row? -/
def emitted (row : Row α) : Bool := row.2.2.isNone || !row.2.1.isDuplicate

/-- The schedule so far, read over abstract states. -/
def Progress.reading (st : Progress ω) : List (Schedule.Event String (List ω)) :=
  st.schedule.map Event.reading

variable {cid : ℤ → String} {ops : Node α → List ω} {st : Progress ω} {done : List (Row α)}
  {row : Row α} {parentId : Option ℤ}

/-- What the loop has emitted for the rows that are done. -/
structure Emits (cid : ℤ → String) (done : List (Row α)) (st : Progress ω) : Prop where
  previous : st.previouslyExpandedNodeId = done.getLast?.map (·.1)
  saved : ∀ q, st.nodeToCkpt.find? q =
    if q ∈ (done.filter emitted).map (·.1) then some (cid q) else none
  ids : ckptIds st.reading = (done.filter emitted).map fun row => cid row.1
  valid : Valid st.reading

/-- A rollback emits nothing, or a restore to the parent. -/
theorem rollback_eq (h : Emits cid done st) (parentId : Option ℤ) :
    (st.rollback parentId = st ∧ (st.previouslyExpandedNodeId = parentId ∨
      ∀ q, parentId = some q → q ∉ (done.filter emitted).map (·.1))) ∨
    ∃ q, parentId = some q ∧ q ∈ (done.filter emitted).map (·.1) ∧
      st.rollback parentId = { st with
        schedule := st.schedule ++ [.restore st.iter (cid q)], iter := st.iter + 1 } := by
  rw [Progress.rollback]
  by_cases hprev : st.previouslyExpandedNodeId ≠ parentId
  · rw [if_pos hprev]
    cases parentId with
    | none => exact .inl ⟨rfl, .inr fun q hq => by cases hq⟩
    | some q =>
      rw [Option.bind_some, h.saved]
      by_cases hq : q ∈ (done.filter emitted).map (·.1)
      · rw [if_pos hq]
        exact .inr ⟨q, rfl, hq, rfl⟩
      · rw [if_neg hq]
        exact .inl ⟨rfl, .inr fun q' hq' => Option.some.inj hq' ▸ hq⟩
  · rw [if_neg hprev]
    exact .inl ⟨rfl, .inl (not_not.mp hprev)⟩

theorem Emits.rollback (h : Emits cid done st) (parentId : Option ℤ) :
    Emits cid done (st.rollback parentId) := by
  rcases rollback_eq h parentId with ⟨heq, -⟩ | ⟨q, -, hq, heq⟩
  · rw [heq]
    exact h
  · rw [heq]
    have hreading : ({ st with
        schedule := st.schedule ++ [.restore st.iter (cid q)], iter := st.iter + 1 } :
        Progress ω).reading = st.reading ++ [.restore (cid q)] := by
      simp only [Progress.reading, List.map_append]
      rfl
    refine ⟨h.previous, h.saved, ?_, ?_⟩
    · rw [hreading, ckptIds_append, ckptIds_restore, List.append_nil]
      exact h.ids
    · rw [hreading]
      refine valid_concat.mpr ⟨h.valid, fun id hid => ?_⟩
      obtain rfl := Schedule.Event.restore.inj hid
      rw [h.ids]
      obtain ⟨r, hr, rfl⟩ := List.mem_map.mp hq
      exact List.mem_map_of_mem hr

/-- A checkpoint for the row. -/
theorem Emits.ckpt {st' : Progress ω} {n : ℕ} {strat : Strategy} {mb : ℚ} {node : Option ℤ}
    {wops : List ω} {required : Bool} (h : Emits cid done st) (hrow : emitted row = true)
    (hst : st' = { schedule := st.schedule ++ [.ckpt n (cid row.1) strat mb node wops required]
                   nodeToCkpt := st.nodeToCkpt.set row.1 (cid row.1)
                   iter := st.iter + 1
                   previouslyExpandedNodeId := some row.1 }) :
    Emits cid (done ++ [row]) st' := by
  have hreading : st'.reading = st.reading ++ [.ckpt (cid row.1) wops] := by
    rw [hst, Progress.reading, List.map_append]
    rfl
  have hfilter : (done ++ [row]).filter emitted = done.filter emitted ++ [row] := by
    rw [List.filter_append, List.filter_cons_of_pos hrow, List.filter_nil]
  refine ⟨?_, fun q => ?_, ?_, ?_⟩
  · rw [hst, List.getLast?_concat]
    rfl
  · rw [hst, hfilter, List.map_append]
    dsimp only
    rw [Dict.find?_set, h.saved]
    simp only [List.map_cons, List.map_nil, List.mem_append, List.mem_singleton]
    by_cases hq : q = row.1
    · simp [hq]
    · simp only [hq, or_false, if_false]
  · rw [hreading, ckptIds_append, ckptIds_ckpt, h.ids, hfilter, List.map_append]
    rfl
  · rw [hreading]
    exact valid_concat.mpr ⟨h.valid, fun id hid => by cases hid⟩

/-- **One row.** -/
theorem Emits.expand (h : Emits cid done st) (row : Row α) :
    Emits cid (done ++ [row]) (expand cid ops st row) := by
  obtain ⟨nid, node, parent⟩ := row
  cases parent with
  | none => exact h.ckpt rfl rfl
  | some parent =>
    have hback := h.rollback parent.nodeId
    rw [Convert.expand]
    by_cases hdup : node.isDuplicate = true
    · rw [if_pos hdup]
      have hfilter : (done ++ [(nid, node, some parent)]).filter emitted = done.filter emitted := by
        rw [List.filter_append, List.filter_cons_of_neg (by simp [emitted, hdup]), List.filter_nil,
          List.append_nil]
      refine ⟨?_, ?_, ?_, hback.valid⟩
      · rw [List.getLast?_concat]
        rfl
      · rw [hfilter]
        exact hback.saved
      · rw [hfilter]
        exact hback.ids
    · rw [if_neg hdup]
      exact hback.ckpt (by simp [emitted, hdup]) rfl

/-! ### Where it starts from -/

/-- Where the rows leave the replay, the latest row first. -/
def landing : List (Row α) → Option ℤ
  | [] => none
  | (nid, node, parent) :: rows =>
    if node.isDuplicate = true then
      match parent with
      | some p => if p.isDuplicate = true then landing rows else p.nodeId
      | none => some nid
    else some nid

/-- A row that is no duplicate leaves it at itself. -/
theorem landing_of_not (h : ¬ row.2.1.isDuplicate = true) (rows : List (Row α)) :
    landing (row :: rows) = some row.1 := by
  obtain ⟨nid, node, parent⟩ := row
  cases parent with
  | none => rw [landing, if_neg h]
  | some p => rw [landing, if_neg h]

/-- Where a row finds the replay, if the parent is `p`. -/
def found (done : List (Row α)) (p : Node α) : Option ℤ :=
  if p.isDuplicate = true then landing done.reverse else p.nodeId

/-- Where the checkpoints so far have started from, and where the replay is. -/
structure Lands (cid : ℤ → String) (done : List (Row α)) (st : Progress ω) : Prop where
  last : lastId st.reading = (landing done.reverse).map cid
  starts : ∀ pre i wops post, st.reading = pre ++ .ckpt i wops :: post →
    ∃ d₁ row d₂, done = d₁ ++ row :: d₂ ∧ emitted row = true ∧ i = cid row.1 ∧
      ∀ p, row.2.2 = some p → lastId pre = (found d₁ p).map cid

/-- What has been done is known of the row. -/
structure Known (done : List (Row α)) (row : Row α) : Prop where
  ids : (done.map (·.1)).Nodup
  parent : ∀ p, row.2.2 = some p → ∃ q pp, p.nodeId = some q ∧ (q, p, pp) ∈ done
  root : ∀ r ∈ done, r.2.2 = none → r.2.1.isDuplicate = false

/-- A parent has a checkpoint if and only if it is no duplicate. -/
theorem Known.emitted_iff (hk : Known done row) {p : Node α} (hp : row.2.2 = some p) {q : ℤ}
    (hq : p.nodeId = some q) :
    q ∈ (done.filter emitted).map (·.1) ↔ p.isDuplicate = false := by
  obtain ⟨q', pp, hq', hmem⟩ := hk.parent p hp
  obtain rfl : q = q' := Option.some.inj (hq.symm.trans hq')
  have hown : emitted (q, p, pp) = true ↔ p.isDuplicate = false := by
    cases pp with
    | none => simpa [emitted] using hk.root _ hmem rfl
    | some pp => simp [emitted]
  constructor
  · intro hin
    obtain ⟨r, hr, hrq⟩ := List.mem_map.mp hin
    obtain ⟨hr, hre⟩ := List.mem_filter.mp hr
    have hsame : r = (q, p, pp) := List.inj_on_of_nodup_map hk.ids hr hmem hrq
    exact hown.mp (hsame ▸ hre)
  · intro hdup
    exact List.mem_map.mpr ⟨_, List.mem_filter.mpr ⟨hmem, hown.mpr hdup⟩, rfl⟩

/-- After the rollback the replay is where the row is to find it. -/
theorem Lands.rollback (he : Emits cid done st) (h : Lands cid done st) (hk : Known done row)
    {p : Node α} (hp : row.2.2 = some p) :
    lastId (st.rollback p.nodeId).reading = (found done p).map cid ∧
      ∀ pre i wops post, (st.rollback p.nodeId).reading = pre ++ .ckpt i wops :: post →
        ∃ post', st.reading = pre ++ .ckpt i wops :: post' := by
  obtain ⟨q, pp, hq, hmem⟩ := hk.parent p hp
  have hiff := hk.emitted_iff hp hq
  rcases rollback_eq he p.nodeId with ⟨heq, hwhy⟩ | ⟨q', hq', hin, heq⟩
  · rw [heq, h.last]
    refine ⟨?_, fun pre i wops post hsplit => ⟨post, hsplit⟩⟩
    rw [found]
    split_ifs with hdup
    · rfl
    · rcases hwhy with hprev | hnot
      · -- the row before is the parent's own
        rw [he.previous, hq] at hprev
        obtain ⟨r, hr, hrq⟩ := Option.map_eq_some_iff.mp hprev
        have hsame : r = (q, p, pp) :=
          List.inj_on_of_nodup_map hk.ids (List.mem_of_getLast? hr) hmem hrq
        obtain ⟨d, hd⟩ := List.getLast?_eq_some_iff.mp hr
        rw [hd, hsame, List.reverse_append, List.reverse_singleton, List.singleton_append,
          landing_of_not hdup, hq]
      · exact absurd (hiff.mpr (by simpa using hdup)) (hnot q hq)
  · obtain rfl : q' = q := Option.some.inj (hq'.symm.trans hq)
    have hdup := hiff.mp hin
    have hreading : (st.rollback p.nodeId).reading = st.reading ++ [.restore (cid q')] := by
      rw [heq]
      simp only [Progress.reading, List.map_append]
      rfl
    rw [hreading, lastId_concat]
    refine ⟨?_, fun pre i wops post hsplit => ?_⟩
    · rw [found, if_neg (by simp [hdup]), hq]
      rfl
    · rcases split_concat hsplit with ⟨-, habs, -⟩ | ⟨post', -, hes⟩
      · cases habs
      · exact ⟨post', hes⟩

/-- A checkpoint for the row. -/
theorem Lands.ckpt {st' s : Progress ω} {wops : List ω} (h : Lands cid done st)
    (hrow : emitted row = true) (hland : landing (row :: done.reverse) = some row.1)
    (hback : ∀ pre i wops post, s.reading = pre ++ .ckpt i wops :: post →
      ∃ post', st.reading = pre ++ .ckpt i wops :: post')
    (hlast : ∀ p, row.2.2 = some p → lastId s.reading = (found done p).map cid)
    (hreading : st'.reading = s.reading ++ [.ckpt (cid row.1) wops]) :
    Lands cid (done ++ [row]) st' := by
  refine ⟨?_, fun pre i wops' post hsplit => ?_⟩
  · rw [hreading, lastId_concat, List.reverse_append, List.reverse_singleton,
      List.singleton_append, hland]
    rfl
  · rw [hreading] at hsplit
    rcases split_concat hsplit with ⟨rfl, heq, -⟩ | ⟨post', -, hes⟩
    · obtain ⟨rfl, -⟩ := Schedule.Event.ckpt.inj heq
      exact ⟨done, row, [], rfl, hrow, rfl, hlast⟩
    · obtain ⟨post'', hes'⟩ := hback _ _ _ _ hes
      obtain ⟨d₁, r, d₂, hdone, hr, hi, hstart⟩ := h.starts _ _ _ _ hes'
      exact ⟨d₁, r, d₂ ++ [row], by rw [hdone, List.append_assoc, List.cons_append], hr, hi, hstart⟩

/-- **One row.** -/
theorem Lands.expand (he : Emits cid done st) (h : Lands cid done st) (hk : Known done row)
    (hid : row.2.1.nodeId = some row.1) (hroot : row.2.2 = none → row.2.1.isDuplicate = false) :
    Lands cid (done ++ [row]) (expand cid ops st row) := by
  obtain ⟨nid, node, parent⟩ := row
  cases parent with
  | none =>
    have hdup : node.isDuplicate = false := hroot rfl
    exact h.ckpt (s := st) rfl (landing_of_not (by simp [hdup]) _)
      (fun pre i wops post hsplit => ⟨post, hsplit⟩) (fun p hp => by cases hp)
      (by rw [Convert.expand, Progress.reading, List.map_append]; rfl)
  | some parent =>
    obtain ⟨hlast, hback⟩ := h.rollback he hk rfl
    rw [Convert.expand]
    by_cases hdup : node.isDuplicate = true
    · rw [if_pos hdup]
      refine ⟨?_, fun pre i wops post hsplit => ?_⟩
      · rw [List.reverse_append, List.reverse_singleton, List.singleton_append, landing,
          if_pos hdup]
        exact hlast
      · obtain ⟨post', hes⟩ := hback pre i wops post hsplit
        obtain ⟨d₁, r, d₂, hdone, hr, hi, hstart⟩ := h.starts _ _ _ _ hes
        exact ⟨d₁, r, d₂ ++ [_], by rw [hdone, List.append_assoc, List.cons_append], hr, hi, hstart⟩
    · rw [if_neg hdup]
      refine h.ckpt (s := st.rollback parent.nodeId) (by simp [emitted, hdup])
        (landing_of_not hdup _) hback (fun p hp => ?_)
        (by rw [Progress.reading, List.map_append]; rfl)
      obtain rfl := Option.some.inj hp
      exact hlast

/-! ### The whole loop -/

theorem emits_foldl (cid : ℤ → String) (ops : Node α → List ω) (rows : List (Row α)) :
    Emits cid rows (rows.foldl (expand cid ops) ⟨[], .empty, 1, none⟩) := by
  induction rows using List.reverseRecOn with
  | nil => exact ⟨rfl, fun _ => rfl, rfl, valid_nil⟩
  | append_singleton rows row ih =>
    rw [List.foldl_append, List.foldl_cons, List.foldl_nil]
    exact ih.expand row

/-- The root is the only row without a parent. -/
theorem eq_root {x : Node α × Option (Node α)} (hx : x ∈ walkWithParents root none)
    (hnone : x.2 = none) : x.1 = root := by
  have hwalk : walkWithParents root none = (above root []).map fun x => (x.1, x.2.head?) :=
    walk_eq root []
  rw [hwalk] at hx
  obtain ⟨y, hy, rfl⟩ := List.mem_map.mp hx
  rcases above_parent root [] y hy with rfl | ⟨p, anc, hanc, -⟩
  · rfl
  · rw [hanc] at hnone
    cases hnone

/-- What is known of each row when it comes. -/
theorem known_row (h : Numbered root) (hroot : root.isDuplicate = false) {d₁ d₂ : List (Row α)}
    (hrows : expansionOrder root = d₁ ++ row :: d₂) :
    Known d₁ row ∧ row.2.1.nodeId = some row.1 ∧
      (row.2.2 = none → row.2.1.isDuplicate = false) := by
  have hsorted := expansionOrder_sorted root
  rw [hrows, List.map_append, List.map_cons] at hsorted
  obtain ⟨hd₁, -, hbefore⟩ := List.pairwise_append.mp hsorted
  have hmem : ∀ r ∈ d₁, r ∈ expansionOrder root := fun r hr =>
    hrows ▸ List.mem_append_left _ hr
  have hrow : row ∈ expansionOrder root := hrows ▸ List.mem_append_right _ List.mem_cons_self
  obtain ⟨hwalk, hid⟩ := (mem_expansionOrder h).mp hrow
  refine ⟨⟨hd₁.imp fun hlt => ne_of_lt hlt, fun p hp => ?_, fun r hr hnone => ?_⟩, hid,
    fun hnone => ?_⟩
  · -- the parent is in the tree, and has a smaller id
    have hin : ∃ pp, (p, pp) ∈ walkWithParents root none := by
      have hall : walkWithParents root none = (above root []).map fun x => (x.1, x.2.head?) :=
        walk_eq root []
      rw [hall] at hwalk ⊢
      obtain ⟨y, hy, hyrow⟩ := List.mem_map.mp hwalk
      have hhead : y.2.head? = some p := by rw [← hp, ← hyrow]
      rcases above_parent root [] y hy with rfl | ⟨p', anc, hanc, hp'⟩
      · cases hhead
      · rw [hanc] at hhead
        obtain rfl := Option.some.inj hhead
        exact ⟨_, List.mem_map.mpr ⟨_, hp', rfl⟩⟩
    obtain ⟨pp, hpp⟩ := hin
    obtain ⟨q, hq⟩ := Option.isSome_iff_exists.mp (h.isSome _ hpp)
    have hlt : q < row.1 := h.smaller _ hwalk p q row.1 hp hq hid
    have hqrow : (q, p, pp) ∈ d₁ ++ row :: d₂ := hrows ▸ (mem_expansionOrder h).mpr ⟨hpp, hq⟩
    refine ⟨q, pp, hq, ?_⟩
    rcases List.mem_append.mp hqrow with hin | hin
    · exact hin
    · rcases List.mem_cons.mp hin with heq | hin
      · rw [← heq] at hlt
        exact absurd hlt (lt_irrefl q)
      · have hpair := (List.pairwise_append.mp hsorted).2.1
        have := (List.pairwise_cons.mp hpair).1 q (List.mem_map_of_mem (f := fun r : Row α => r.1) hin)
        exact absurd this (not_lt.mpr hlt.le)
  · rw [eq_root ((mem_expansionOrder h).mp (hmem r hr)).1 hnone]
    exact hroot
  · rw [eq_root hwalk hnone]
    exact hroot

theorem lands_foldl (h : Numbered root) (hroot : root.isDuplicate = false) (cid : ℤ → String)
    (ops : Node α → List ω) {rows rest : List (Row α)}
    (hrows : expansionOrder root = rows ++ rest) :
    Lands cid rows (rows.foldl (expand cid ops) ⟨[], .empty, 1, none⟩) := by
  induction rows using List.reverseRecOn generalizing rest with
  | nil =>
    refine ⟨rfl, fun pre i wops post hsplit => ?_⟩
    exact absurd hsplit (by simp [Progress.reading])
  | append_singleton rows row ih =>
    have hrows' : expansionOrder root = rows ++ row :: rest := by
      rw [hrows, List.append_assoc, List.singleton_append]
    obtain ⟨hk, hid, hnone⟩ := known_row h hroot hrows'
    rw [List.foldl_append, List.foldl_cons, List.foldl_nil]
    exact (ih hrows').expand (emits_foldl cid ops rows) hk hid hnone

/-! ### The schedule is right -/

/-- The nearest ancestor that is no duplicate. -/
def nearest (anc : List (Node α)) : Option (Node α) := anc.find? fun a => !a.isDuplicate

/-- The rows before a node, the latest first. -/
def earlier (root : Node α) (n : ℤ) : List (Row α) :=
  ((expansionOrder root).filter (·.1 < n)).reverse

/-- The root is no duplicate, and a node whose parent is one finds the replay at its nearest ancestor
that is none. -/
def Followed (root : Node α) : Prop :=
  root.isDuplicate = false ∧
    ∀ x ∈ above root [], ∀ n p a, x.1.nodeId = some n → x.1.isDuplicate = false →
      x.2.head? = some p → p.isDuplicate = true → nearest x.2 = some a →
      landing (earlier root n) = a.nodeId

/-- The schedule has one checkpoint for each node that is no duplicate, in the order of the ids. It
restores what it has saved before. And each of these nodes is replayed in the state that is saved for
its nearest ancestor that is no duplicate, whatever the states are. -/
structure Right (root : Node α) (cid : ℤ → String)
    (es : List (Schedule.Event String (List ω))) : Prop where
  each : ∃ ns : List ℤ, ns.Pairwise (· < ·) ∧
    (∀ n, n ∈ ns ↔ ∃ x ∈ walkWithParents root none, x.1.nodeId = some n ∧
      x.1.isDuplicate = false) ∧
    ckptIds es = ns.map cid
  valid : Valid es
  state : ∀ x ∈ above root [], ∀ n a, x.1.nodeId = some n → x.1.isDuplicate = false →
    nearest x.2 = some a → ∀ pre wops post, es = pre ++ .ckpt (cid n) wops :: post →
      ∃ k, a.nodeId = some k ∧ ∀ (T : Type) (effect : String → List ω → T → T) (start : T), ∃ m,
        replay effect ⟨start, .empty⟩ pre = some m ∧ m.saved.find? (cid k) = some m.current

theorem mem_ckptIds {es : List (Schedule.Event String (List ω))} {i : String} (h : i ∈ ckptIds es) :
    ∃ pre wops post, es = pre ++ .ckpt i wops :: post := by
  obtain ⟨e, he, hi⟩ := List.mem_filterMap.mp h
  obtain ⟨pre, post, rfl⟩ := List.append_of_mem he
  cases e with
  | ckpt id wops => exact ⟨pre, wops, post, by rw [Option.some.inj hi]⟩
  | restore id => cases hi

theorem mem_walk_of_above {x : Node α × List (Node α)} (hx : x ∈ above root []) :
    (x.1, x.2.head?) ∈ walkWithParents root none := by
  have hwalk : walkWithParents root none = (above root []).map fun x => (x.1, x.2.head?) :=
    walk_eq root []
  rw [hwalk]
  exact List.mem_map.mpr ⟨x, hx, rfl⟩

/-- An ancestor is a node, with its own ancestors. -/
theorem mem_above_of_mem {l : List (Node α)} {n a : Node α} (hx : (n, l) ∈ above root [])
    (ha : a ∈ l) : ∃ l', (a, l') ∈ above root [] := by
  induction l generalizing n with
  | nil => cases ha
  | cons c l ih =>
    rcases above_parent root [] _ hx with habs | ⟨c', l', hcl, hc⟩
    · cases (Prod.mk.inj habs).2
    · obtain ⟨rfl, rfl⟩ := List.cons.inj hcl
      rcases List.mem_cons.mp ha with rfl | ha
      · exact ⟨_, hc⟩
      · exact ih hc ha

theorem nearest_mem (h : Numbered root) {x : Node α × List (Node α)} (hx : x ∈ above root [])
    {a : Node α} (ha : nearest x.2 = some a) :
    ∃ k, a.nodeId = some k ∧ ∃ pp, (a, pp) ∈ walkWithParents root none := by
  obtain ⟨l', hl'⟩ := mem_above_of_mem hx (List.mem_of_find?_eq_some ha)
  have hwalk := mem_walk_of_above hl'
  obtain ⟨k, hk⟩ := Option.isSome_iff_exists.mp (h.isSome _ hwalk)
  exact ⟨k, hk, _, hwalk⟩

/-- The landing of some rows is a node. -/
theorem landing_mem (h : Numbered root) (hroot : root.isDuplicate = false) {rows : List (Row α)}
    (hrows : ∀ r ∈ rows, r ∈ expansionOrder root) {k : ℤ} (hk : landing rows = some k) :
    ∃ x ∈ walkWithParents root none, x.1.nodeId = some k := by
  induction rows with
  | nil => cases hk
  | cons row rows ih =>
    have hrow := hrows row List.mem_cons_self
    obtain ⟨hwalk, hid⟩ := (mem_expansionOrder h).mp hrow
    by_cases hdup : row.2.1.isDuplicate = true
    · obtain ⟨nid, node, parent⟩ := row
      cases parent with
      | none =>
        have heq : node = root := eq_root hwalk rfl
        rw [heq, hroot] at hdup
        cases hdup
      | some p =>
        rw [landing, if_pos hdup] at hk
        split_ifs at hk with hp
        · exact ih (fun r hr => hrows r (List.mem_cons_of_mem _ hr)) hk
        · obtain ⟨d₁, d₂, hsplit⟩ := List.append_of_mem hrow
          obtain ⟨q, pp, hq, hmem⟩ := (known_row h hroot hsplit).1.parent p rfl
          have hin : (q, p, pp) ∈ expansionOrder root := hsplit ▸ List.mem_append_left _ hmem
          exact ⟨_, ((mem_expansionOrder h).mp hin).1, hk⟩
    · rw [landing_of_not hdup] at hk
      exact ⟨_, hwalk, Option.some.inj hk ▸ hid⟩

/-- The rows before a row are the earlier ones. -/
theorem earlier_eq {d₁ d₂ : List (Row α)} (hrows : expansionOrder root = d₁ ++ row :: d₂) :
    earlier root row.1 = d₁.reverse := by
  have hsorted := expansionOrder_sorted root
  rw [hrows, List.map_append, List.map_cons] at hsorted
  obtain ⟨-, htail, hbefore⟩ := List.pairwise_append.mp hsorted
  have hd₁ : d₁.filter (·.1 < row.1) = d₁ := List.filter_eq_self.mpr fun r hr => by
    simpa using hbefore r.1 (List.mem_map_of_mem (f := fun r : Row α => r.1) hr) row.1
      List.mem_cons_self
  have hd₂ : (row :: d₂).filter (·.1 < row.1) = [] := List.filter_eq_nil_iff.mpr fun r hr => by
    rcases List.mem_cons.mp hr with rfl | hr
    · simp
    · have := (List.pairwise_cons.mp htail).1 r.1
        (List.mem_map_of_mem (f := fun r : Row α => r.1) hr)
      simpa using this.le
  rw [earlier, hrows, List.filter_append, hd₁, hd₂, List.append_nil]

/-- Where a node is replayed, if the root is no duplicate. -/
theorem lastId_before (h : Numbered root) (hroot : root.isDuplicate = false)
    (hcid : ∀ x ∈ walkWithParents root none, ∀ y ∈ walkWithParents root none, ∀ i j,
      x.1.nodeId = some i → y.1.nodeId = some j → cid i = cid j → i = j)
    {x : Node α × List (Node α)} (hx : x ∈ above root []) {n : ℤ} (hn : x.1.nodeId = some n)
    {p : Node α} (hp : x.2.head? = some p) {pre post : List (Schedule.Event String (List ω))}
    {wops : List ω}
    (hsplit : ((expansionOrder root).foldl (expand cid ops) ⟨[], .empty, 1, none⟩).reading =
      pre ++ .ckpt (cid n) wops :: post) :
    lastId pre =
      (if p.isDuplicate = true then landing (earlier root n) else p.nodeId).map cid := by
  have hlands : Lands cid (expansionOrder root)
      ((expansionOrder root).foldl (expand cid ops) ⟨[], .empty, 1, none⟩) :=
    lands_foldl h hroot cid ops (List.append_nil _).symm
  obtain ⟨d₁, row, d₂, hrows, -, hcidn, hstart⟩ := hlands.starts _ _ _ _ hsplit
  have hrow : row ∈ expansionOrder root := hrows ▸ List.mem_append_right _ List.mem_cons_self
  have hmine : (n, x.1, x.2.head?) ∈ expansionOrder root :=
    (mem_expansionOrder h).mpr ⟨mem_walk_of_above hx, hn⟩
  obtain ⟨hwalk, hid⟩ := (mem_expansionOrder h).mp hrow
  have hnrow : n = row.1 := hcid _ (mem_walk_of_above hx) _ hwalk _ _ hn hid hcidn
  have hsame : (n, x.1, x.2.head?) = row := by
    have hnd : ((expansionOrder root).map (·.1)).Nodup :=
      (expansionOrder_sorted root).imp fun hlt => ne_of_lt hlt
    exact List.inj_on_of_nodup_map hnd hmine hrow hnrow
  have hparent : row.2.2 = some p := by rw [← hsame, ← hp]
  rw [hstart p hparent, found, hnrow, earlier_eq hrows]

/-- **The schedule is right if and only if the tree is followed.** -/
theorem right_iff (h : Numbered root)
    (hcid : ∀ x ∈ walkWithParents root none, ∀ y ∈ walkWithParents root none, ∀ i j,
      x.1.nodeId = some i → y.1.nodeId = some j → cid i = cid j → i = j) :
    Right root cid ((expansionOrder root).foldl (expand cid ops) ⟨[], .empty, 1, none⟩).reading ↔
      Followed root := by
  have hemits := emits_foldl cid ops (expansionOrder root)
  have hnd : ((expansionOrder root).map (·.1)).Nodup :=
    (expansionOrder_sorted root).imp fun hlt => ne_of_lt hlt
  -- what the checkpoints are for, when the root is no duplicate
  have hemitted : root.isDuplicate = false → ∀ row ∈ expansionOrder root,
      emitted row = true ↔ row.2.1.isDuplicate = false := by
    intro hroot row hrow
    obtain ⟨nid, node, parent⟩ := row
    cases parent with
    | none =>
      have heq : node = root := eq_root ((mem_expansionOrder h).mp hrow).1 rfl
      simp [emitted, heq, hroot]
    | some p => simp [emitted]
  have hroot_of : Right root cid
      ((expansionOrder root).foldl (expand cid ops) ⟨[], .empty, 1, none⟩).reading →
      root.isDuplicate = false := by
    rintro ⟨⟨ns, -, hns, hids⟩, -, -⟩
    obtain ⟨i, hi⟩ := Option.isSome_iff_exists.mp (h.isSome (root, none) (by
      cases root
      rw [walkWithParents]
      exact List.mem_cons_self))
    have hwalk : (root, (none : Option (Node α))) ∈ walkWithParents root none := by
      cases root
      rw [walkWithParents]
      exact List.mem_cons_self
    have hrow : ((i, root, none) : Row α) ∈ expansionOrder root :=
      (mem_expansionOrder h).mpr ⟨hwalk, hi⟩
    have hmem : cid i ∈ ns.map cid := by
      rw [← hids, hemits.ids]
      exact List.mem_map.mpr ⟨_, List.mem_filter.mpr ⟨hrow, rfl⟩, rfl⟩
    obtain ⟨n, hn, hcidn⟩ := List.mem_map.mp hmem
    obtain ⟨x, hx, hxn, hdup⟩ := (hns n).mp hn
    obtain rfl := hcid x hx _ hwalk n i hxn hi hcidn
    have hxrow : ((n, x.1, x.2) : Row α) ∈ expansionOrder root :=
      (mem_expansionOrder h).mpr ⟨hx, hxn⟩
    have hsame := List.inj_on_of_nodup_map hnd hxrow hrow rfl
    have heq : x.1 = root := congrArg (fun r : Row α => r.2.1) hsame
    exact heq ▸ hdup
  constructor
  · intro hright
    have hroot := hroot_of hright
    refine ⟨hroot, fun x hx n p a hn hdup hp hpdup ha => ?_⟩
    have hrow : ((n, x.1, x.2.head?) : Row α) ∈ expansionOrder root :=
      (mem_expansionOrder h).mpr ⟨mem_walk_of_above hx, hn⟩
    have hckpt : cid n ∈ ckptIds
        ((expansionOrder root).foldl (expand cid ops) ⟨[], .empty, 1, none⟩).reading := by
      rw [hemits.ids]
      exact List.mem_map.mpr
        ⟨_, List.mem_filter.mpr ⟨hrow, (hemitted hroot _ hrow).mpr hdup⟩, rfl⟩
    obtain ⟨pre, wops, post, hsplit⟩ := mem_ckptIds hckpt
    have hlast := lastId_before h hroot hcid hx hn hp hsplit
    obtain ⟨k, hk, hstate⟩ := hright.state x hx n a hn hdup ha pre wops post hsplit
    have hvalid : Valid pre := (hsplit ▸ hright.valid : Valid (pre ++ _)).front
    rw [(replays_iff hvalid).mp hstate, if_pos hpdup] at hlast
    obtain ⟨k', hk', hcidk⟩ := Option.map_eq_some_iff.mp hlast.symm
    obtain ⟨y, hy, hyk⟩ := landing_mem h hroot
      (fun r hr => (List.mem_filter.mp (List.mem_reverse.mp hr)).1) hk'
    obtain ⟨k'', hk'', pp, hpp⟩ := nearest_mem h hx ha
    obtain rfl : k = k'' := Option.some.inj (hk.symm.trans hk'')
    rw [hk', hk, hcid y hy _ hpp k' k hyk hk hcidk]
  · rintro ⟨hroot, hfollowed⟩
    refine ⟨⟨((expansionOrder root).filter emitted).map (·.1), ?_, fun n => ?_, ?_⟩, hemits.valid,
      fun x hx n a hn hdup ha pre wops post hsplit => ?_⟩
    · exact (expansionOrder_sorted root).sublist (List.filter_sublist.map _)
    · constructor
      · intro hmem
        obtain ⟨row, hrow, rfl⟩ := List.mem_map.mp hmem
        obtain ⟨hrow, he⟩ := List.mem_filter.mp hrow
        obtain ⟨hwalk, hid⟩ := (mem_expansionOrder h).mp hrow
        exact ⟨_, hwalk, hid, (hemitted hroot row hrow).mp he⟩
      · rintro ⟨x, hx, hxn, hdup⟩
        have hrow : ((n, x) : Row α) ∈ expansionOrder root := (mem_expansionOrder h).mpr ⟨hx, hxn⟩
        exact List.mem_map.mpr
          ⟨_, List.mem_filter.mpr ⟨hrow, (hemitted hroot _ hrow).mpr hdup⟩, rfl⟩
    · rw [hemits.ids, List.map_map]
      rfl
    · obtain ⟨p, anc, hanc⟩ : ∃ p anc, x.2 = p :: anc := by
        cases hx2 : x.2 with
        | nil =>
          rw [hx2] at ha
          cases ha
        | cons p anc => exact ⟨p, anc, rfl⟩
      have hhead : x.2.head? = some p := by rw [hanc, List.head?_cons]
      have hlast := lastId_before h hroot hcid hx hn hhead hsplit
      have hvalid : Valid pre := (hsplit ▸ hemits.valid : Valid (pre ++ _)).front
      obtain ⟨k, hk, -⟩ := nearest_mem h hx ha
      refine ⟨k, hk, (replays_iff hvalid).mpr ?_⟩
      by_cases hpdup : p.isDuplicate = true
      · rw [hlast, if_pos hpdup, hfollowed x hx n p a hn hdup hhead hpdup ha, hk]
        rfl
      · have hap : a = p := by
          rw [nearest, hanc, List.find?_cons_of_pos (by simpa using hpdup)] at ha
          exact (Option.some.inj ha).symm
        rw [hlast, if_neg hpdup, ← hap, hk]
        rfl

/-- What is emitted does not depend on the duplicates: one checkpoint for the root and for each node
that is no duplicate, in the order of the ids, and restores to what has been saved. -/
theorem convert_events (h : Numbered root) (sha1 : String → String) (ops : Node α → List ω)
    (instanceId : String) : ∃ es, convert ops sha1 (some root) instanceId = .ok es ∧
      ckptIds (es.map Event.reading) =
        ((expansionOrder root).filter emitted).map (fun row => ckptId sha1 row.1 instanceId) ∧
      Valid (es.map Event.reading) := by
  have hemits := emits_foldl (fun nid => ckptId sha1 nid instanceId) ops (expansionOrder root)
  refine ⟨_, ?_, hemits.ids, hemits.valid⟩
  have hne : (byId root).keys ≠ [] := by
    intro hnil
    have hwalk : (root, (none : Option (Node α))) ∈ walkWithParents root none := by
      cases root
      rw [walkWithParents]
      exact List.mem_cons_self
    obtain ⟨i, hi⟩ := Option.isSome_iff_exists.mp (h.isSome _ hwalk)
    have hmem : i ∈ (byId root).keys := Dict.mem_keys_iff.mpr ⟨_, (find?_byId h).mpr ⟨hwalk, hi⟩⟩
    rw [hnil] at hmem
    cases hmem
  rw [convert, if_neg hne]

/-- **In which states a recorded tree replays.** For every tree whose nodes are numbered and whose
checkpoints have names of their own, the schedule is right if and only if the tree is followed. -/
theorem replays_in_right_state (h : Numbered root) (sha1 : String → String)
    (ops : Node α → List ω) (instanceId : String)
    (hnames : ∀ x ∈ walkWithParents root none, ∀ y ∈ walkWithParents root none, ∀ i j,
      x.1.nodeId = some i → y.1.nodeId = some j →
        ckptId sha1 i instanceId = ckptId sha1 j instanceId → i = j) :
    ∃ es, convert ops sha1 (some root) instanceId = .ok es ∧
      (Right root (fun n => ckptId sha1 n instanceId) (es.map Event.reading) ↔ Followed root) := by
  obtain ⟨es, hes, -, -⟩ := convert_events h sha1 ops instanceId
  refine ⟨es, hes, ?_⟩
  have hiff : Right root (fun n => ckptId sha1 n instanceId)
      ((expansionOrder root).foldl (expand (fun n => ckptId sha1 n instanceId) ops)
        ⟨[], .empty, 1, none⟩).reading ↔ Followed root := right_iff h hnames
  rw [convert] at hes
  split_ifs at hes
  rw [← Except.ok.inj hes]
  exact hiff

/-! ### Four nodes -/

/-- The digests of the names of four nodes. -/
def fourSha1 (s : String) : String :=
  if s = "pallets__flask-4992::0" then "12a870c7cfce239e08724a2a77a32acfcff01ab7"
  else if s = "pallets__flask-4992::1" then "c0f59e34326369b825aa49957520d8e86e3e372e"
  else if s = "pallets__flask-4992::2" then "8dd7cddd769d5a5b285eb639b8f7113c67b54749"
  else if s = "pallets__flask-4992::3" then "4c7d24da3ff1e8c8e953750ee867b1184fae6d9f"
  else ""

theorem fourSha1_names : ∀ i ∈ [0, 1, 2, 3], ∀ j ∈ [0, 1, 2, 3],
    ckptId fourSha1 i "pallets__flask-4992" = ckptId fourSha1 j "pallets__flask-4992" → i = j := by
  decide +kernel

/-- Node 1 is a duplicate, and node 2 is its child. -/
def child : Node Unit :=
  .mk (some 0) false [] [.mk (some 1) true [] [.mk (some 2) false [] []]]

theorem numbered_child : Numbered child where
  isSome := by simp [child, walkWithParents, walkChildren]
  nodup := by simp [child, walkWithParents, walkChildren]
  smaller := by
    simp only [child, walkWithParents, walkChildren, List.forall_mem_cons, List.append_nil]
    refine ⟨?_, ?_, ?_, by simp⟩
    · rintro p i j ⟨⟩
    · rintro p i j ⟨⟩ ⟨⟩ ⟨⟩
      decide
    · rintro p i j ⟨⟩ ⟨⟩ ⟨⟩
      decide

/-- The child of the duplicate is replayed in the state of the root. -/
theorem replays_in_right_state_child : ∃ es,
    convert (fun _ => [()]) fourSha1 (some child) "pallets__flask-4992" = .ok es ∧
      Right child (fun n => ckptId fourSha1 n "pallets__flask-4992") (es.map Event.reading) := by
  have hids : ∀ x ∈ walkWithParents child none, ∀ i, x.1.nodeId = some i → i ∈ [0, 1, 2, 3] := by
    simp [child, walkWithParents, walkChildren]
  obtain ⟨es, hes, hiff⟩ := replays_in_right_state numbered_child fourSha1 (fun _ => [()])
    "pallets__flask-4992" fun x hx y hy i j hi hj =>
      fourSha1_names i (hids x hx i hi) j (hids y hy j hj)
  refine ⟨es, hes, hiff.mpr ⟨rfl, ?_⟩⟩
  have hland : landing (earlier child 2) = some 0 := by decide +kernel
  have hall : ∀ x ∈ above child [], x.1.nodeId = some 2 → nearest x.2 = some child := by
    simp [child, above, aboveChildren, nearest]
  have hother : ∀ x ∈ above child [], ∀ p, x.2.head? = some p → p.isDuplicate = true →
      x.1.nodeId = some 2 := by
    simp [child, above, aboveChildren]
  intro x hx n p a hn hdup hp hpdup ha
  have htwo := hother x hx p hp hpdup
  obtain rfl : n = 2 := Option.some.inj (hn.symm.trans htwo)
  rw [hland, ← Option.some.inj ((hall x hx htwo).symm.trans ha)]
  rfl

/-- Node 1 is a duplicate, and its child 3 comes after node 2. -/
def jump : Node Unit :=
  .mk (some 0) false []
    [.mk (some 1) true [] [.mk (some 3) false [] []], .mk (some 2) false [] []]

/-- **A node is replayed in a wrong state.** The nearest ancestor of node 3 that is no duplicate is
the root. No restore is emitted for it, so it is replayed in the state of node 2. -/
theorem wrong_state : Numbered jump ∧ ∃ es,
    convert (fun _ => [()]) fourSha1 (some jump) "pallets__flask-4992" = .ok es ∧
      es.map Event.reading = [.ckpt "12a870c7" [], .restore "12a870c7", .ckpt "8dd7cddd" [()],
        .ckpt "4c7d24da" [()]] ∧
      ¬ Right jump (fun n => ckptId fourSha1 n "pallets__flask-4992") (es.map Event.reading) := by
  have hnum : Numbered jump := by
    refine ⟨?_, ?_, ?_⟩
    · simp [jump, walkWithParents, walkChildren]
    · simp [jump, walkWithParents, walkChildren]
    · simp only [jump, walkWithParents, walkChildren, List.forall_mem_cons, List.append_nil,
        List.cons_append, List.nil_append]
      refine ⟨?_, ?_, ?_, ?_, by simp⟩
      · rintro p i j ⟨⟩
      · rintro p i j ⟨⟩ ⟨⟩ ⟨⟩
        decide
      · rintro p i j ⟨⟩ ⟨⟩ ⟨⟩
        decide
      · rintro p i j ⟨⟩ ⟨⟩ ⟨⟩
        decide
  have hes : (convert (fun _ => [()]) fourSha1 (some jump) "pallets__flask-4992").toOption =
      some [.ckpt 1 "12a870c7" .standard (78 / 10) none [] false, .restore 2 "12a870c7",
        .ckpt 3 "8dd7cddd" .lightweight 0 (some 2) [()] true,
        .ckpt 4 "4c7d24da" .lightweight 0 (some 3) [()] true] := by decide +kernel
  cases hconvert : convert (fun _ => [()]) fourSha1 (some jump) "pallets__flask-4992" with
  | error e =>
    rw [hconvert] at hes
    cases hes
  | ok es =>
    rw [hconvert] at hes
    obtain rfl := Option.some.inj hes
    refine ⟨hnum, _, rfl, rfl, fun hright => ?_⟩
    have hthree : ∃ x ∈ above jump [], x.1.nodeId = some 3 ∧ x.1.isDuplicate = false ∧
        nearest x.2 = some jump := by
      simp [jump, above, aboveChildren, nearest]
    obtain ⟨x, hx, hx3, hxdup, hxnear⟩ := hthree
    -- the states are the lists of the checkpoints that have led to them
    obtain ⟨k, hk, hstate⟩ := hright.state x hx 3 jump hx3 hxdup hxnear
      [.ckpt "12a870c7" [], .restore "12a870c7", .ckpt "8dd7cddd" [()]] [()] [] (by decide +kernel)
    obtain rfl : k = 0 := (Option.some.inj hk).symm
    obtain ⟨m, hm, hsaved⟩ := hstate (List String) history []
    have hvalues : (replay history ⟨[], .empty⟩ [.ckpt "12a870c7" [], .restore "12a870c7",
        .ckpt "8dd7cddd" [()]]).map (fun m : Memory String (List String) =>
          (m.current, m.saved.find? (ckptId fourSha1 0 "pallets__flask-4992"))) =
        some (["12a870c7", "8dd7cddd"], some ["12a870c7"]) := by decide +kernel
    rw [hm] at hvalues
    obtain ⟨hcurrent, hfind⟩ := Prod.mk.inj (Option.some.inj hvalues)
    rw [hfind, hcurrent] at hsaved
    cases hsaved

end Convert

end DeltaBox
