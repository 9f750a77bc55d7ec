import DeltaBox.Convert.Legacy
import Mathlib.Data.List.Perm.Subperm

/-!
# In which states legacy transitions replay

A transition should be replayed in the state of its nearest ancestor that has a checkpoint, or in the
first state if it has none. The search for its parent finds just this one when every transition comes
after its parent. For any other list it ends all the same, with a checkpoint or with an error.

The conversion as a whole can still refuse a list: it has other checks, of the recorded diffs, the
repairs and the time stamps. Those are `Accepted`.

## Main definitions

* `Lineage` — every transition comes after its parent
* `Climb` — the nearest transition with a checkpoint, at or above a place
* `Accepted` — the other checks
* `Right` — the schedule is right for the list

## Main results

* `parentLoop_ends` — the search ends
* `parentLoop_climb` — what it finds
* `legacy_replays_in_right_state` — the schedule is right
* `refused_write` — a list that is refused
-/

namespace DeltaBox

namespace Convert

namespace Legacy

open Schedule

variable {κ : Type} [DecidableEq κ] {env : Env κ} {trs pre post : List (Transition κ)}
  {tr : Transition κ}

/-! ### The search -/

/-- **The search ends.** It has a checkpoint then, or it raises one of its two errors. -/
theorem parentLoop_ends (env : Env κ) (transitions : Dict κ (Transition κ)) (known : Dict κ String)
    (fuel : ℕ) {seen : List κ} (start : Option κ) (hnd : seen.Nodup)
    (hseen : ∀ k ∈ seen, k ∈ transitions.keys)
    (hfuel : transitions.keys.length < fuel + seen.length) :
    ∃ r, parentLoop env transitions known fuel seen start = some r ∧
      (∀ c, r = .ok c → c = env.rootId ∨ c ∈ known.values) ∧
      ∀ e, r = .error e → e = .valueError "Cycle in legacy state parents" ∨
        e = .valueError "Missing legacy state parent" := by
  have hbound := (List.subperm_of_subset hnd hseen).length_le
  induction fuel generalizing seen start with
  | zero => omega
  | succ fuel ih =>
    cases start with
    | none =>
      rw [parentLoop]
      exact ⟨_, rfl, fun c hc => .inl (Except.ok.inj hc).symm, fun e he => by cases he⟩
    | some tid =>
      rw [parentLoop]
      cases hknown : known.find? tid with
      | some c =>
        refine ⟨_, rfl, fun c' hc => .inr ?_, fun e he => by cases he⟩
        exact Except.ok.inj hc ▸ Dict.mem_values_iff.mpr ⟨tid, hknown⟩
      | none =>
        dsimp only
        by_cases hin : tid ∈ seen
        · rw [if_pos hin]
          exact ⟨_, rfl, fun c hc => (by cases hc), fun e he => .inl (Except.error.inj he).symm⟩
        · rw [if_neg hin]
          cases htr : transitions.find? tid with
          | none =>
            exact ⟨_, rfl, fun c hc => (by cases hc), fun e he => .inr (Except.error.inj he).symm⟩
          | some tr =>
            have hnd' : (tid :: seen).Nodup := List.nodup_cons.mpr ⟨hin, hnd⟩
            have hseen' : ∀ k ∈ tid :: seen, k ∈ transitions.keys :=
              List.forall_mem_cons.mpr ⟨Dict.mem_keys_iff.mpr ⟨tr, htr⟩, hseen⟩
            exact ih _ hnd' hseen' (by simp only [List.length_cons]; omega)
              (List.subperm_of_subset hnd' hseen').length_le

/-- Every transition has its own id, and comes after its parent. -/
structure Lineage (trs : List (Transition κ)) : Prop where
  nodup : (trs.map Transition.id).Nodup
  parent : ∀ pre tr post, trs = pre ++ tr :: post → ∀ p, tr.previousStateId = some p →
    p ∈ pre.map Transition.id

/-- The nearest transition with a checkpoint, at or above a place. It is none for the first
checkpoint. -/
inductive Climb (trs : List (Transition κ)) : Option κ → Option κ → Prop where
  | bootstrap : Climb trs none none
  | here {tr : Transition κ} (hmem : tr ∈ trs) (hkept : skipped tr = false) :
    Climb trs (some tr.id) (some tr.id)
  | up {tr : Transition κ} {r : Option κ} (hmem : tr ∈ trs) (hskipped : skipped tr = true)
    (habove : Climb trs tr.previousStateId r) : Climb trs (some tr.id) r

omit [DecidableEq κ] in
/-- There is one at most. -/
theorem Climb.unique (hnd : (trs.map Transition.id).Nodup) {start r r' : Option κ}
    (h : Climb trs start r) (h' : Climb trs start r') : r' = r := by
  induction h generalizing r' with
  | bootstrap =>
    cases h'
    rfl
  | @here tr hmem hkept =>
    generalize hstart : some tr.id = start at h'
    cases h' with
    | bootstrap => cases hstart
    | here _ _ => rfl
    | @up tr' _ hmem' hskipped _ =>
      have hsame := List.inj_on_of_nodup_map hnd hmem hmem' (Option.some.inj hstart)
      rw [hsame, hskipped] at hkept
      cases hkept
  | @up tr r hmem hskipped _ ih =>
    generalize hstart : some tr.id = start at h'
    cases h' with
    | bootstrap => cases hstart
    | @here tr' hmem' hkept =>
      have hsame := List.inj_on_of_nodup_map hnd hmem hmem' (Option.some.inj hstart)
      rw [hsame, hkept] at hskipped
      cases hskipped
    | @up tr' _ hmem' _ habove =>
      have hsame := List.inj_on_of_nodup_map hnd hmem hmem' (Option.some.inj hstart)
      exact ih (hsame ▸ habove)

/-- `by_id` has the transitions in their order. -/
theorem entries_byId (hnd : (trs.map Transition.id).Nodup) :
    (byId trs).entries = trs.map fun tr => (tr.id, tr) := by
  have hall : ∀ (l : List (Transition κ)) (d : Dict κ (Transition κ)),
      (l.map Transition.id).Nodup → (∀ tr ∈ l, tr.id ∉ d.keys) →
      (l.foldl (fun d tr => d.set tr.id tr) d).entries =
        d.entries ++ l.map fun tr => (tr.id, tr) := by
    intro l
    induction l with
    | nil => exact fun d _ _ => (List.append_nil _).symm
    | cons tr l ih =>
      intro d hnd hnew
      obtain ⟨hnot, hnd⟩ := List.nodup_cons.mp hnd
      have hnone := Dict.find?_eq_none_iff.mpr (hnew tr List.mem_cons_self)
      have hset := Dict.entries_set_of_none tr hnone
      rw [List.foldl_cons, ih _ hnd, hset, List.append_assoc]
      · rfl
      · intro tr' htr' hin
        rw [Dict.keys, hset, List.map_append] at hin
        rcases List.mem_append.mp hin with hin | hin
        · exact hnew tr' (List.mem_cons_of_mem _ htr') hin
        · have heq : tr'.id = tr.id := List.mem_singleton.mp hin
          exact hnot (heq ▸ List.mem_map_of_mem htr')
  exact hall trs .empty hnd fun tr _ hin => by cases hin

theorem find?_byId (hnd : (trs.map Transition.id).Nodup) (htr : tr ∈ trs) :
    (byId trs).find? tr.id = some tr := by
  rw [Dict.find?_eq_some_iff, entries_byId hnd]
  exact List.mem_map.mpr ⟨tr, htr, rfl⟩

/-- The checkpoints that some transitions have. -/
def Knows (env : Env κ) (pre : List (Transition κ)) (known : Dict κ String) : Prop :=
  ∀ k c, known.find? k = some c ↔ ∃ tr ∈ pre, skipped tr = false ∧ tr.id = k ∧ c = env.cid k

/-- The id of the checkpoint of a transition, or of the first one. -/
def Env.ckptOf (env : Env κ) : Option κ → String
  | none => env.rootId
  | some k => env.cid k

/-- **What the search finds.** The search starts at a transition of `d`, which is a part of those
before the current one, and has seen none of these. -/
theorem parentLoop_climb (hlin : Lineage trs) {known : Dict κ String} (hknown : Knows env pre known)
    {d : List (Transition κ)} (hd : ∃ d', pre = d ++ d') (hpre : ∃ post, trs = pre ++ post)
    {fuel : ℕ} (hfuel : d.length < fuel) {seen : List κ} (hseen : ∀ tr ∈ d, tr.id ∉ seen)
    {start : Option κ} (hstart : ∀ k, start = some k → k ∈ d.map Transition.id) :
    ∃ r, Climb trs start r ∧
      parentLoop env (byId trs) known fuel seen start = some (.ok (env.ckptOf r)) := by
  induction fuel generalizing d seen start with
  | zero => omega
  | succ fuel ih =>
    cases start with
    | none => exact ⟨none, .bootstrap, by rw [parentLoop]; rfl⟩
    | some tid =>
      obtain ⟨tr, htr, rfl⟩ := List.mem_map.mp (hstart tid rfl)
      obtain ⟨d₁, d₂, rfl⟩ := List.append_of_mem htr
      obtain ⟨d', hd'⟩ := hd
      obtain ⟨post, hpost⟩ := hpre
      have hmem : tr ∈ trs := by
        rw [hpost, hd']
        exact List.mem_append_left _ (List.mem_append_left _ htr)
      rw [parentLoop]
      by_cases hskipped : skipped tr = true
      · -- the search climbs on
        have hnone : known.find? tr.id = none := by
          cases hfind : known.find? tr.id with
          | none => rfl
          | some c =>
            obtain ⟨tr', htr', hkept, hid, -⟩ := (hknown _ _).mp hfind
            have hmem' : tr' ∈ trs := hpost ▸ List.mem_append_left _ htr'
            have hsame := List.inj_on_of_nodup_map hlin.nodup hmem' hmem hid
            rw [hsame, hskipped] at hkept
            cases hkept
        have hnot : tr.id ∉ seen := hseen tr htr
        have hsplit : trs = d₁ ++ tr :: (d₂ ++ d' ++ post) := by
          rw [hpost, hd']
          simp
        have hnd := hlin.nodup
        rw [hsplit, List.map_append, List.map_cons] at hnd
        have hclimb : ∃ r, Climb trs tr.previousStateId r ∧
            parentLoop env (byId trs) known fuel (tr.id :: seen) tr.previousStateId =
              some (.ok (env.ckptOf r)) := ih (d := d₁) ⟨tr :: d₂ ++ d', by rw [hd']; simp⟩
          (by simp only [List.length_append, List.length_cons] at hfuel; omega)
          (fun t ht hin => by
            rcases List.mem_cons.mp hin with heq | hin
            · exact List.disjoint_of_nodup_append hnd (List.mem_map_of_mem ht)
                (heq ▸ List.mem_cons_self)
            · exact hseen t (List.mem_append_left _ ht) hin)
          (fun k hk => hlin.parent d₁ tr _ hsplit k hk)
        obtain ⟨r, hr, hloop⟩ := hclimb
        refine ⟨r, .up hmem hskipped hr, ?_⟩
        rw [hnone]
        dsimp only
        rw [if_neg hnot, find?_byId hlin.nodup hmem]
        exact hloop
      · have hkept : skipped tr = false := by simpa using hskipped
        have hin : tr ∈ pre := by
          rw [hd']
          exact List.mem_append_left _ htr
        refine ⟨some tr.id, .here hmem hkept, ?_⟩
        rw [(hknown _ _).mpr ⟨tr, hin, hkept, rfl, rfl⟩]
        rfl

/-- **The parent of a transition.** -/
theorem parentCheckpoint_climb (hlin : Lineage trs) (htrs : trs = pre ++ tr :: post)
    {known : Dict κ String} (hknown : Knows env pre known) :
    ∃ r, Climb trs tr.previousStateId r ∧
      parentCheckpoint env (byId trs) known tr = .ok (env.ckptOf r) := by
  have hlen : (byId trs).keys.length = trs.length := by
    rw [Dict.keys, entries_byId hlin.nodup, List.length_map, List.length_map]
  have hfuel : pre.length < (byId trs).keys.length + 1 := by
    rw [hlen, htrs, List.length_append]
    omega
  have hclimb : ∃ r, Climb trs tr.previousStateId r ∧
      parentLoop env (byId trs) known ((byId trs).keys.length + 1) [] tr.previousStateId =
        some (.ok (env.ckptOf r)) :=
    parentLoop_climb hlin hknown ⟨[], (List.append_nil _).symm⟩ ⟨tr :: post, htrs⟩ hfuel
      (fun _ _ => List.not_mem_nil) fun k hk => hlin.parent pre tr post htrs k hk
  obtain ⟨r, hr, hloop⟩ := hclimb
  refine ⟨r, hr, ?_⟩
  rw [parentCheckpoint, hloop]
  rfl

/-- A checkpoint that the search finds has been emitted. -/
theorem parentCheckpoint_ok {transitions : Dict κ (Transition κ)} {known : Dict κ String} {c : String}
    (h : parentCheckpoint env transitions known tr = .ok c) :
    c = env.rootId ∨ c ∈ known.values := by
  obtain ⟨r, hr, hok, -⟩ := parentLoop_ends env transitions known
    (transitions.keys.length + 1) tr.previousStateId List.nodup_nil
    (fun k hk => absurd hk List.not_mem_nil) (Nat.lt_succ_self _)
  rw [parentCheckpoint, hr] at h
  exact hok c h

/-! ### The schedule -/

/-- The names of the checkpoints for some transitions. -/
def ckptNames (env : Env κ) (pre : List (Transition κ)) : List String :=
  env.rootId :: (pre.filter fun tr => !skipped tr).map fun tr => env.cid tr.id

omit [DecidableEq κ] in
theorem ckptNames_skipped (h : skipped tr = true) :
    ckptNames env (pre ++ [tr]) = ckptNames env pre := by
  simp [ckptNames, h]

omit [DecidableEq κ] in
theorem ckptNames_kept (h : skipped tr = false) :
    ckptNames env (pre ++ [tr]) = ckptNames env pre ++ [env.cid tr.id] := by
  simp [ckptNames, h]

/-- The checkpoint of a transition in a schedule, with what comes before it. -/
structure Placed (env : Env κ) (trs pre : List (Transition κ)) (tr : Transition κ)
    (es : List (Schedule.Event String (List (Op κ)))) (r : Option κ)
    (before : List (Schedule.Event String (List (Op κ)))) : Prop where
  split : ∃ ops after, workerOps env tr = .ok ops ∧ es = before ++ .ckpt (env.cid tr.id) ops :: after
  ids : ckptIds before = ckptNames env pre
  climb : Climb trs tr.previousStateId r
  last : lastId before = some (env.ckptOf r)

/-- What holds when the transitions of `pre` are converted. -/
structure Done (env : Env κ) (trs pre : List (Transition κ)) (st : Progress κ) : Prop where
  knows : Knows env pre st.known
  first : st.events.head? = some (.bootstrap env.rootId)
  ids : ckptIds (st.events.map Event.reading) = ckptNames env pre
  valid : Valid (st.events.map Event.reading)
  last : lastId (st.events.map Event.reading) = some st.active
  placed : ∀ pre' tr post', pre = pre' ++ tr :: post' → skipped tr = false →
    ∃ r before, Placed env trs pre' tr (st.events.map Event.reading) r before

variable {st st' : Progress κ} {adaptive paperZero : Bool}

theorem done_nil : Done env trs [] ⟨[.bootstrap env.rootId], .empty, env.rootId⟩ where
  knows := by
    intro k c
    constructor
    · intro h
      cases h
    · rintro ⟨tr, htr, -⟩
      cases htr
  first := rfl
  ids := rfl
  valid := valid_concat.mpr ⟨valid_nil, fun id h => by cases h⟩
  last := rfl
  placed := by
    intro pre' tr post' h
    simp at h

/-- A skipped transition changes nothing. -/
theorem Done.skip (h : Done env trs pre st) (hskipped : skipped tr = true) :
    Done env trs (pre ++ [tr]) st := by
  refine ⟨fun k c => ?_, h.first, ?_, h.valid, h.last, fun pre' tr' post' hsplit hkept => ?_⟩
  · rw [h.knows k c]
    constructor
    · rintro ⟨tr', htr', hrest⟩
      exact ⟨tr', List.mem_append_left _ htr', hrest⟩
    · rintro ⟨tr', htr', hkept, hrest⟩
      rcases List.mem_append.mp htr' with htr' | htr'
      · exact ⟨tr', htr', hkept, hrest⟩
      · obtain rfl := List.mem_singleton.mp htr'
        rw [hskipped] at hkept
        cases hkept
  · rw [ckptNames_skipped hskipped]
    exact h.ids
  · rcases split_concat hsplit with ⟨rfl, rfl, -⟩ | ⟨post'', -, hpre⟩
    · rw [hskipped] at hkept
      cases hkept
    · exact h.placed pre' tr' post'' hpre hkept

/-- Where the schedule is before the checkpoint of a transition: a restore is emitted for it if it is
elsewhere. -/
theorem Done.restored (h : Done env trs pre st) {parent : String}
    (hparent : parent = env.rootId ∨ parent ∈ st.known.values) :
    let events := if st.active ≠ parent then
      st.events ++ [.restore st.events.length parent] else st.events
    events.head? = some (.bootstrap env.rootId) ∧
      ckptIds (events.map Event.reading) = ckptNames env pre ∧
      Valid (events.map Event.reading) ∧
      lastId (events.map Event.reading) = some parent ∧
      ∃ d, events.map Event.reading = st.events.map Event.reading ++ d := by
  by_cases heq : st.active = parent
  · simp only [ne_eq, heq, not_true_eq_false, if_false]
    exact ⟨h.first, h.ids, h.valid, heq ▸ h.last, [], (List.append_nil _).symm⟩
  · simp only [ne_eq, heq, not_false_eq_true, if_true, List.map_append, List.map_cons, List.map_nil,
      Event.reading]
    refine ⟨?_, ?_, ?_, lastId_concat .., _, rfl⟩
    · rw [List.head?_append, h.first]
      rfl
    · rw [ckptIds_append, ckptIds_restore, List.append_nil]
      exact h.ids
    · refine valid_concat.mpr ⟨h.valid, fun id hid => ?_⟩
      obtain rfl : parent = id := by cases hid; rfl
      rw [h.ids]
      rcases hparent with hroot | hmem
      · exact hroot ▸ List.mem_cons_self
      · obtain ⟨k, hk⟩ := Dict.mem_values_iff.mp hmem
        obtain ⟨tr, htr, hkept, rfl, rfl⟩ := (h.knows k _).mp hk
        refine List.mem_cons_of_mem _ (List.mem_map_of_mem ?_)
        exact List.mem_filter.mpr ⟨htr, by simp [hkept]⟩

/-- **One transition.** It is converted if its operations and its time are there, and then it is
replayed in the right state. -/
theorem Done.convertOne (adaptive paperZero : Bool) (hlin : Lineage trs) (htrs : trs = pre ++ tr :: post)
    (h : Done env trs pre st) (hkept : skipped tr = false) :
    (∀ st', convertOne env adaptive paperZero (byId trs) st tr post.head? = .ok st' →
      Done env trs (pre ++ [tr]) st') ∧
    ((∃ st', convertOne env adaptive paperZero (byId trs) st tr post.head? = .ok st') ↔
      (∃ ops, workerOps env tr = .ok ops) ∧ ∃ ms, latency env tr post.head? = .ok ms) := by
  obtain ⟨r, hr, hparent⟩ := parentCheckpoint_climb hlin htrs h.knows
  have hrestored := h.restored (parentCheckpoint_ok hparent)
  rw [Legacy.convertOne, hparent]
  dsimp only at hrestored ⊢
  generalize (if st.active ≠ env.ckptOf r then
    st.events ++ [.restore st.events.length (env.ckptOf r)] else st.events) = events at hrestored ⊢
  obtain ⟨hfirst, hids, hvalid, hlast, d, hd⟩ := hrestored
  cases hops : workerOps env tr with
  | error e =>
    refine ⟨fun st' hst' => (by cases hst'), ?_⟩
    constructor
    · rintro ⟨st', hst'⟩
      cases hst'
    · rintro ⟨⟨ops, hops'⟩, -⟩
      cases hops'
  | ok ops =>
    cases hms : latency env tr post.head? with
    | error e =>
      refine ⟨fun st' hst' => (by cases hst'), ?_⟩
      constructor
      · rintro ⟨st', hst'⟩
        cases hst'
      · rintro ⟨-, ms, hms'⟩
        cases hms'
    | ok ms =>
      refine ⟨fun st' hst' => ?_, ⟨fun _ => ⟨⟨ops, rfl⟩, ms, rfl⟩, fun _ => ⟨_, rfl⟩⟩⟩
      obtain rfl := Except.ok.inj hst'
      refine ⟨fun k c => ?_, ?_, ?_, ?_, ?_, fun pre' tr' post' hsplit hkept' => ?_⟩
      · dsimp only
        rw [Dict.find?_set]
        by_cases heq : k = tr.id
        · rw [if_pos heq]
          constructor
          · intro hc
            exact ⟨tr, List.mem_append_right _ List.mem_cons_self, hkept, heq.symm,
              heq ▸ (Option.some.inj hc).symm⟩
          · rintro ⟨-, -, -, -, rfl⟩
            rw [heq]
        · rw [if_neg heq, h.knows k c]
          constructor
          · rintro ⟨tr', htr', hrest⟩
            exact ⟨tr', List.mem_append_left _ htr', hrest⟩
          · rintro ⟨tr', htr', hkept', hid, hc⟩
            rcases List.mem_append.mp htr' with htr' | htr'
            · exact ⟨tr', htr', hkept', hid, hc⟩
            · obtain rfl := List.mem_singleton.mp htr'
              exact absurd hid.symm heq
      · rw [List.head?_append, hfirst]
        rfl
      · rw [List.map_append, ckptIds_append, hids, ckptNames_kept hkept]
        rfl
      · rw [List.map_append]
        exact valid_concat.mpr ⟨hvalid, fun id hid => by cases hid⟩
      · rw [List.map_append]
        exact lastId_concat ..
      · rcases split_concat hsplit with ⟨rfl, rfl, -⟩ | ⟨post'', -, hpre⟩
        · exact ⟨r, events.map Event.reading, ⟨ops, [], hops, List.map_append⟩, hids, hr, hlast⟩
        · obtain ⟨r', before, hplaced⟩ := h.placed pre' tr' post'' hpre hkept'
          obtain ⟨ops', after, hops', hes⟩ := hplaced.split
          refine ⟨r', before, ⟨ops', after ++ d ++ [.ckpt (env.cid tr.id) ops], hops', ?_⟩,
            hplaced.ids, hplaced.climb, hplaced.last⟩
          rw [List.map_append, hd, hes]
          simp only [List.append_assoc, List.cons_append]
          rfl

/-- The other checks: the operations and the time of each transition that is not skipped are
there. -/
def Accepted (env : Env κ) : List (Transition κ) → Prop
  | [] => True
  | tr :: rest => (skipped tr = false → (∃ ops, workerOps env tr = .ok ops) ∧
      ∃ ms, latency env tr rest.head? = .ok ms) ∧ Accepted env rest

/-- **The whole list.** -/
theorem Done.convertLoop (adaptive paperZero : Bool) (hlin : Lineage trs) (htrs : trs = pre ++ post)
    (h : Done env trs pre st) :
    (∀ st', convertLoop env adaptive paperZero (byId trs) st post = .ok st' →
      Done env trs trs st') ∧
    ((∃ st', convertLoop env adaptive paperZero (byId trs) st post = .ok st') ↔
      Accepted env post) := by
  induction post generalizing pre st with
  | nil =>
    rw [List.append_nil] at htrs
    refine ⟨fun st' hst' => ?_, fun _ => trivial, fun _ => ⟨st, rfl⟩⟩
    rw [← Except.ok.inj hst', htrs]
    exact htrs ▸ h
  | cons tr post ih =>
    have htrs' : trs = (pre ++ [tr]) ++ post := by rw [htrs, List.append_assoc]; rfl
    rw [Legacy.convertLoop, Accepted]
    by_cases hskipped : skipped tr = true
    · obtain ⟨hdone, hiff⟩ := ih htrs' (h.skip hskipped)
      rw [if_pos hskipped]
      refine ⟨hdone, hiff.trans ⟨fun hrest => ⟨fun hkept => ?_, hrest⟩, And.right⟩⟩
      rw [hskipped] at hkept
      cases hkept
    · have hkept : skipped tr = false := by simpa using hskipped
      obtain ⟨hstep, hok⟩ :=
        h.convertOne adaptive paperZero hlin htrs hkept
      rw [if_neg hskipped]
      cases hone : Legacy.convertOne env adaptive paperZero (byId trs) st tr post.head? with
      | error e =>
        rw [hone] at hok
        refine ⟨fun st' hst' => (by cases hst'), ⟨?_, fun hacc => ?_⟩⟩
        · rintro ⟨st', hst'⟩
          cases hst'
        · obtain ⟨st', hst'⟩ := hok.mpr (hacc.1 hkept)
          cases hst'
      | ok st₁ =>
        obtain ⟨hdone, hiff⟩ := ih htrs' (hstep st₁ hone)
        refine ⟨hdone, hiff.trans ⟨fun hrest => ⟨fun _ => hok.mp ⟨st₁, hone⟩, hrest⟩, And.right⟩⟩

/-! ### The result -/

/-- The schedule is right for the list. There is a checkpoint at first and then one for each
transition that is not skipped, in their order, each restore is to a checkpoint before it, and each
transition has its operations done in the state that is saved for its nearest ancestor with a
checkpoint. When the names of the checkpoints are distinct, this is the state that the checkpoint of
the ancestor itself has left. -/
structure Right (env : Env κ) (trs : List (Transition κ)) (events : List (Event κ)) : Prop where
  first : events.head? = some (.bootstrap env.rootId)
  ids : ckptIds (events.map Event.reading) = ckptNames env trs
  valid : Valid (events.map Event.reading)
  state : ∀ pre tr post, trs = pre ++ tr :: post → skipped tr = false →
    ∃ before ops after, workerOps env tr = .ok ops ∧
      events.map Event.reading = before ++ .ckpt (env.cid tr.id) ops :: after ∧
      ckptIds before = ckptNames env pre ∧
      ∃ r, (∀ r', Climb trs tr.previousStateId r' ↔ r' = r) ∧
        ∀ (T : Type) (effect : String → List (Op κ) → T → T) (start : T), ∃ m,
          replay effect ⟨start, .empty⟩ before = some m ∧
            m.saved.find? (env.ckptOf r) = some m.current ∧
            ((ckptNames env trs).Nodup → ∀ d ops' d',
              before = d ++ .ckpt (env.ckptOf r) ops' :: d' →
                ∃ m', replay effect ⟨start, .empty⟩ (d ++ [.ckpt (env.ckptOf r) ops']) = some m' ∧
                  m'.current = m.current)

/-- A converted list is right. -/
theorem Done.right (hlin : Lineage trs) (h : Done env trs trs st) : Right env trs st.events where
  first := h.first
  ids := h.ids
  valid := h.valid
  state := by
    intro pre tr post htrs hkept
    obtain ⟨r, before, hplaced⟩ := h.placed pre tr post htrs hkept
    obtain ⟨ops, after, hops, hes⟩ := hplaced.split
    have hvalid : Valid before := (hes ▸ h.valid : Valid (before ++ _)).front
    refine ⟨before, ops, after, hops, hes, hplaced.ids, r, fun r' => ?_, fun T effect start => ?_⟩
    · exact ⟨fun hr' => hplaced.climb.unique hlin.nodup hr', fun heq => heq ▸ hplaced.climb⟩
    · obtain ⟨m, hm, hsaved⟩ := (replays_iff hvalid).mpr hplaced.last T effect start
      refine ⟨m, hm, hsaved, fun hnd d ops' d' hbefore => ?_⟩
      have hpart : (ckptIds before).Nodup := by
        rw [← h.ids, hes, ckptIds_append] at hnd
        exact hnd.of_append_left
      rw [hbefore] at hpart hm
      obtain ⟨u, hu, hown⟩ := replay_own hpart hm
      exact ⟨u, hu, (Option.some.inj (hsaved.symm.trans hown)).symm⟩

/-- **In which states legacy transitions replay.** For any transitions whatever, the search for a
parent ends with a checkpoint or with one of its errors. When each transition comes after its parent,
the list is converted if and only if the other checks pass, and the schedule is right then. -/
theorem legacy_replays_in_right_state (env : Env κ) (adaptive : Bool) (timingPolicy : String)
    (trs : List (Transition κ)) :
    (∀ (known : Dict κ String) (tr : Transition κ), ∃ r,
      parentLoop env (byId trs) known ((byId trs).keys.length + 1) [] tr.previousStateId = some r ∧
        parentCheckpoint env (byId trs) known tr = r ∧
        (∀ c, r = .ok c → c = env.rootId ∨ c ∈ known.values) ∧
        ∀ e, r = .error e → e = .valueError "Cycle in legacy state parents" ∨
          e = .valueError "Missing legacy state parent") ∧
    (Lineage trs →
      ((∃ events, convertLegacy env adaptive timingPolicy trs = .ok events) ↔
        timingPolicy ∈ ["paper-zero", "recorded-wall"] ∧ env.schemaVersion = 1 ∧
          env.commit.any (isHex 40) = true ∧ Accepted env trs) ∧
      ∀ events, convertLegacy env adaptive timingPolicy trs = .ok events → Right env trs events) := by
  refine ⟨fun known tr => ?_, fun hlin => ?_⟩
  · obtain ⟨r, hr, hok, herror⟩ := parentLoop_ends env (byId trs) known
      ((byId trs).keys.length + 1) tr.previousStateId List.nodup_nil
      (fun k hk => absurd hk List.not_mem_nil) (Nat.lt_succ_self _)
    exact ⟨r, hr, by rw [parentCheckpoint, hr]; rfl, hok, herror⟩
  · obtain ⟨hdone, hiff⟩ := (done_nil : Done env trs [] _).convertLoop
      adaptive (decide (timingPolicy = "paper-zero")) hlin
      (List.nil_append trs).symm
    rw [convertLegacy]
    by_cases hpolicy : timingPolicy ∈ ["paper-zero", "recorded-wall"]
    · by_cases hschema : env.schemaVersion = 1
      · by_cases hcommit : env.commit.any (isHex 40) = true
        · rw [if_neg (not_not.mpr hpolicy), if_neg (not_not.mpr hschema), if_neg (by simp [hcommit])]
          cases hloop : Legacy.convertLoop env adaptive (decide (timingPolicy = "paper-zero"))
              (byId trs) ⟨[.bootstrap env.rootId], .empty, env.rootId⟩ trs with
          | error e =>
            rw [hloop] at hiff
            refine ⟨⟨?_, fun hall => ?_⟩, fun events hevents => by cases hevents⟩
            · rintro ⟨events, hevents⟩
              cases hevents
            · obtain ⟨st', hst'⟩ := hiff.mpr hall.2.2.2
              cases hst'
          | ok st =>
            refine ⟨⟨fun _ => ?_, fun _ => ⟨_, rfl⟩⟩, fun events hevents => ?_⟩
            · exact ⟨hpolicy, hschema, hcommit, hiff.mp ⟨st, hloop⟩⟩
            · exact Except.ok.inj hevents ▸ (hdone st hloop).right hlin
        · rw [if_neg (not_not.mpr hpolicy), if_neg (not_not.mpr hschema), if_pos (by simp [hcommit])]
          refine ⟨⟨?_, fun hall => absurd hall.2.2.1 hcommit⟩, fun events hevents => by cases hevents⟩
          rintro ⟨events, hevents⟩
          cases hevents
      · rw [if_neg (not_not.mpr hpolicy), if_pos hschema]
        refine ⟨⟨?_, fun hall => absurd hall.2.1 hschema⟩, fun events hevents => by cases hevents⟩
        rintro ⟨events, hevents⟩
        cases hevents
    · rw [if_pos hpolicy]
      refine ⟨⟨?_, fun hall => absurd hall.1 hpolicy⟩, fun events hevents => by cases hevents⟩
      rintro ⟨events, hevents⟩
      cases hevents

/-! ### Some transitions -/

/-- The digests of some names. No diff is repaired. -/
def flaskEnv : Env ℕ where
  sha1 := fun s =>
    if s = "pallets__flask-4992::bootstrap" then "14957c9e6bcc9b786148c1ace9eaa784de6a669d"
    else if s = "pallets__flask-4992::0" then "12a870c7cfce239e08724a2a77a32acfcff01ab7"
    else if s = "pallets__flask-4992::1" then "c0f59e34326369b825aa49957520d8e86e3e372e"
    else if s = "pallets__flask-4992::2" then "8dd7cddd769d5a5b285eb639b8f7113c67b54749"
    else ""
  sha256 := fun _ => ""
  format := fun n => toString n
  elapsedMs := fun start stop => if start = stop then some 0 else none
  instanceId := "pallets__flask-4992"
  traceSha256 := ""
  commit := some "4c288bc97ea371817199908d0d9b12de9dae327e"
  schemaVersion := 1
  repairs := []

/-- A search, a state that is skipped, and an edit below this state. -/
def edited : List (Transition ℕ) :=
  [⟨0, "SearchCode", none, [some "src/flask/config.py"], [], some "2024-08-05T09:00:00"⟩,
    ⟨1, "Pending", some 0, [], [], some "2024-08-05T09:00:00"⟩,
    ⟨2, "EditCode", some 1, [], [some "-x\n+y\n"], some "2024-08-05T09:00:00"⟩]

theorem lineage_edited : Lineage edited where
  nodup := by decide
  parent := by
    intro pre tr post h p hp
    rcases pre with _ | ⟨a, _ | ⟨b, _ | ⟨c, pre⟩⟩⟩
    · obtain ⟨rfl, -⟩ := List.cons.inj h
      cases hp
    · obtain ⟨ha, h₁⟩ := List.cons.inj h
      obtain ⟨rfl, -⟩ := List.cons.inj h₁
      cases hp
      rw [← ha]
      decide
    · obtain ⟨ha, h₁⟩ := List.cons.inj h
      obtain ⟨hb, h₂⟩ := List.cons.inj h₁
      obtain ⟨rfl, -⟩ := List.cons.inj h₂
      cases hp
      rw [← ha, ← hb]
      decide
    · simp [edited] at h

/-- The edit is replayed in the state of the search. -/
theorem legacy_replays_in_right_state_edited : ∃ events,
    convertLegacy flaskEnv true "recorded-wall" edited = .ok events ∧
      events.map Event.reading = [.ckpt "14957c9e" bootstrapOps,
        .ckpt "12a870c7" [.viewFile "src/flask/config.py"],
        .ckpt "8dd7cddd" [.applyRecordedDiff "-x\n+y\n"]] ∧
      Right flaskEnv edited events := by
  obtain ⟨-, hright⟩ := (legacy_replays_in_right_state flaskEnv true "recorded-wall" edited).2
    lineage_edited
  have hes : ((convertLegacy flaskEnv true "recorded-wall" edited).toOption.map
      fun events => events.map Event.reading) = some [.ckpt "14957c9e" bootstrapOps,
        .ckpt "12a870c7" [.viewFile "src/flask/config.py"],
        .ckpt "8dd7cddd" [.applyRecordedDiff "-x\n+y\n"]] := by decide +kernel
  cases hconvert : convertLegacy flaskEnv true "recorded-wall" edited with
  | error e =>
    rw [hconvert] at hes
    cases hes
  | ok events =>
    rw [hconvert] at hes
    exact ⟨events, rfl, Option.some.inj hes, hright events hconvert⟩

/-- A transition of another kind than an edit, with a diff. -/
def wrote : List (Transition ℕ) :=
  [⟨0, "SearchCode", none, [], [some "-x\n+y\n"], some "2024-08-05T09:00:00"⟩]

/-- **A list that is refused.** It has no parents at all, and no schedule comes of it. -/
theorem refused_write : Lineage wrote ∧ ∀ adaptive,
    convertLegacy flaskEnv adaptive "recorded-wall" wrote =
      .error (.valueError "Legacy read-only classification contains a recorded write") := by
  constructor
  · refine ⟨by decide, ?_⟩
    intro pre tr post h p hp
    rcases pre with _ | ⟨a, pre⟩
    · obtain ⟨rfl, -⟩ := List.cons.inj h
      cases hp
    · simp [wrote] at h
  · intro adaptive
    cases adaptive <;> rfl

end Legacy

end Convert

end DeltaBox
