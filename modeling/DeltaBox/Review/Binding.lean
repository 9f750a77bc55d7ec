import DeltaBox.Review.WorkQueue

/-!
# What the work queue guarantees

Within one attempt the queue file decides, and it is enough: an experiment is on one node, a node
has one experiment, one service group runs, and nothing is claimed after a failure. Across attempts
only the reviews are left. A finished experiment is in its lane's review before the queue says so,
and stays there, so it is never claimed again. An unfinished one need not be: the claim is not in
the review until the row is saved, and a lane that starts again writes a review without the rows it
had not finished.

## Main definitions

* `Recorded` — every experiment that was claimed is in the review of the node that claimed it
* `Inv` — what holds of the queue, the reviews and the lanes in every run

## Main results

* `queue_safe` — all of it in every run, and the node binding in the runs that resume only when
  every claim is recorded
* `binding_lost` — an experiment that was measured on one node is claimed on another
-/

namespace DeltaBox

namespace Review

open Machine

variable {cfg : Config} {s t : State} {n : ℕ} {l : Lane} {name : String}
  {groups groups' : Dict String Group}

/-! ### The queue -/

theorem find?_freshGroups (experiments : List String) (name : String) :
    (freshGroups experiments).find? name =
      if name ∈ experiments then some ⟨.pending, none, none⟩ else none := by
  suffices h : ∀ d : Dict String Group,
      (experiments.foldl (fun d name => d.set name ⟨.pending, none, none⟩) d).find? name =
        if name ∈ experiments then some ⟨.pending, none, none⟩ else d.find? name by
    simpa [freshGroups] using h Dict.empty
  induction experiments with
  | nil => simp
  | cons x xs ih =>
    intro d
    rw [List.foldl_cons, ih, Dict.find?_set]
    by_cases hx : name = x <;> by_cases hxs : name ∈ xs <;> simp [hx, hxs]

/-- What a claim finds in the queue. -/
structure ClaimOk (cfg : Config) (groups : Dict String Group) (n : ℕ) (name : String) : Prop where
  listed : name ∈ cfg.experiments
  noFailure : ∀ x g, groups.find? x = some g → g.status ≠ .failed
  free : ∀ x g, groups.find? x = some g → g.status = .running → g.node ≠ some n
  service : serviceGroup name → ∀ x g, groups.find? x = some g → serviceGroup x →
    g.status ≠ .running
  mine : ∃ g, groups.find? name = some g ∧ g.status = .pending ∧ (g.node = none ∨ g.node = some n)

theorem claimOk_of_claim (h : claim cfg groups n = .claimed name) : ClaimOk cfg groups n name := by
  unfold claim at h
  by_cases hfailed : groups.values.any (·.status = .failed)
  · rw [if_pos hfailed] at h
    cases h
  rw [if_neg hfailed] at h
  by_cases hrunning : groups.values.any fun g => g.status = .running ∧ g.node = some n
  · rw [if_pos hrunning] at h
    cases h
  rw [if_neg hrunning] at h
  dsimp only at h
  split at h
  next name' hfind =>
    obtain rfl := Claim.claimed.inj h
    have hok := List.find?_some hfind
    simp only [Bool.and_eq_true, Bool.not_eq_true', Bool.and_eq_false_iff] at hok
    obtain ⟨helig, hbusy⟩ := hok
    refine ⟨List.mem_of_find?_eq_some hfind, fun x g hg hbad => hfailed ?_,
      fun x g hg hrun hnode => hrunning ?_, fun hserv x g hg hx hrun => ?_, ?_⟩
    · exact List.any_eq_true.mpr ⟨g, Dict.mem_values_iff.mpr ⟨x, hg⟩, by simp [hbad]⟩
    · exact List.any_eq_true.mpr ⟨g, Dict.mem_values_iff.mpr ⟨x, hg⟩, by simp [hrun, hnode]⟩
    · rcases hbusy with hbusy | hbusy
      · simp [hserv] at hbusy
      · rw [List.any_eq_false] at hbusy
        exact hbusy (x, g) (Dict.find?_eq_some_iff.mp hg) (by simp [hx, hrun])
    · unfold eligible at helig
      split at helig
      next g hg => exact ⟨g, hg, by simpa using helig⟩
      next => cases helig
  next => split_ifs at h

theorem mem_completedRows {row : Row} :
    row ∈ completedRows cfg groups n ↔ ∃ x ∈ cfg.experiments, ∃ g, groups.find? x = some g ∧
      g.status = .ok ∧ g.node = some n ∧ g.row = some row := by
  simp only [completedRows, List.mem_filterMap]
  constructor
  · rintro ⟨x, hx, hrow⟩
    split at hrow
    next g hg =>
      split_ifs at hrow with hok
      exact ⟨x, hx, g, hg, hok.1, hok.2, hrow⟩
    next => cases hrow
  · rintro ⟨x, hx, g, hg, hok, hnode, hrow⟩
    exact ⟨x, hx, by simp [hg, hok, hnode, hrow]⟩

/-! ### Recovery -/

/-- One row binds its experiment, and no other. -/
theorem recoverRow_spec {evidence : String → Bool} {x : ℕ × Row}
    (h : recoverRow evidence groups x = some groups') :
    (x.2.status = .notRun ∧ groups' = groups) ∨
    x.2.status ≠ .notRun ∧ groups' = groups.set x.2.experiment (bind x.1 x.2) ∧
      ∃ g, groups.find? x.2.experiment = some g ∧ g.node = none := by
  unfold recoverRow at h
  split at h
  next => cases h
  next g hg =>
    split_ifs at h with hrun hnode hev
    · exact .inl ⟨hrun, (Option.some.inj h).symm⟩
    · exact .inr ⟨hrun, (Option.some.inj h).symm, g, hg, not_not.mp hnode⟩

/-- What the rows leave in the queue. An experiment is bound at most once. -/
theorem recoverRows_spec {evidence : String → Bool} {xs : List (ℕ × Row)}
    (h : xs.foldlM (recoverRow evidence) groups = some groups') :
    (∀ x g, groups.find? x = some g → g.node ≠ none → groups'.find? x = some g) ∧
    (∀ x ∈ xs, x.2.status ≠ .notRun → groups'.find? x.2.experiment = some (bind x.1 x.2)) ∧
    (∀ x g, groups'.find? x = some g → groups.find? x = some g ∨ (∃ g₀, groups.find? x = some g₀) ∧
      ∃ y ∈ xs, y.2.experiment = x ∧ y.2.status ≠ .notRun ∧ g = bind y.1 y.2) := by
  induction xs generalizing groups with
  | nil =>
    rw [List.foldlM_nil] at h
    obtain rfl := Option.some.inj h
    exact ⟨fun x g hg _ => hg, by simp, fun x g hg => .inl hg⟩
  | cons y ys ih =>
    rw [List.foldlM_cons] at h
    obtain ⟨mid, hmid, h⟩ := Option.bind_eq_some_iff.mp h
    obtain ⟨hkeep, hrows, honly⟩ := ih h
    have hbound : ∀ z : ℕ × Row, (bind z.1 z.2).node ≠ none := by
      intro z
      unfold bind
      split_ifs <;> simp
    rcases recoverRow_spec hmid with ⟨hrun, rfl⟩ | ⟨hrun, rfl, g₀, hg₀, hnone⟩
    · refine ⟨hkeep, fun x hx hne => ?_, fun x g hg => ?_⟩
      · rcases List.mem_cons.mp hx with rfl | hx
        · exact absurd hrun hne
        · exact hrows x hx hne
      · rcases honly x g hg with hold | ⟨hkey, z, hz, hrest⟩
        · exact .inl hold
        · exact .inr ⟨hkey, z, List.mem_cons_of_mem _ hz, hrest⟩
    · refine ⟨fun x g hg hne => ?_, fun x hx hne => ?_, fun x g hg => ?_⟩
      · refine hkeep x g ?_ hne
        have hx : x ≠ y.2.experiment := by
          rintro rfl
          rw [hg₀] at hg
          exact hne (Option.some.inj hg ▸ hnone)
        rw [Dict.find?_set_of_ne _ _ hx]
        exact hg
      · rcases List.mem_cons.mp hx with rfl | hx
        · exact hkeep _ _ (Dict.find?_set_self ..) (hbound x)
        · exact hrows x hx hne
      · by_cases hx : x = y.2.experiment
        · subst hx
          rcases honly _ g hg with hold | ⟨-, z, hz, hrest⟩
          · rw [Dict.find?_set_self] at hold
            exact .inr ⟨⟨g₀, hg₀⟩, y, List.mem_cons_self, rfl, hrun, (Option.some.inj hold).symm⟩
          · exact .inr ⟨⟨g₀, hg₀⟩, z, List.mem_cons_of_mem _ hz, hrest⟩
        · have hother := honly x g hg
          rw [Dict.find?_set_of_ne _ _ hx] at hother
          rcases hother with hold | ⟨hkey, z, hz, hrest⟩
          · exact .inl hold
          · exact .inr ⟨hkey, z, List.mem_cons_of_mem _ hz, hrest⟩

theorem mem_reviewed {reviews : ℕ → Option (List Row)} {x : ℕ × Row} :
    x ∈ reviewed cfg reviews ↔ x.1 ∈ cfg.nodes ∧ ∃ cov, reviews x.1 = some cov ∧ x.2 ∈ cov := by
  obtain ⟨k, row⟩ := x
  simp only [reviewed, List.mem_flatMap, List.mem_map, Prod.mk.injEq]
  constructor
  · rintro ⟨k', hk', row', hrow', rfl, rfl⟩
    cases hrev : reviews k' with
    | none => simp [hrev] at hrow'
    | some cov => exact ⟨hk', cov, rfl, by simpa [hrev] using hrow'⟩
  · rintro ⟨hk, cov, hrev, hrow⟩
    exact ⟨k, hk, row, by simpa [hrev] using hrow, rfl, rfl⟩

/-! ### The coverage of a lane -/

theorem mem_setStatus_of_ne {status : RowStatus} {cov : List Row} {row : Row}
    (hne : row.experiment ≠ name) :
    row ∈ setStatus name status cov ↔ row ∈ cov := by
  simp only [setStatus, List.mem_map]
  constructor
  · rintro ⟨row', hrow', heq⟩
    split_ifs at heq with hname
    · exact absurd (heq ▸ hname) hne
    · exact heq ▸ hrow'
  · exact fun hrow => ⟨row, hrow, by rw [if_neg hne]⟩

theorem status_of_mem_setStatus {status : RowStatus} {cov : List Row} {row : Row}
    (h : row ∈ setStatus name status cov) (hname : row.experiment = name) :
    row.status = status := by
  obtain ⟨row', hrow', heq⟩ := List.mem_map.mp h
  split_ifs at heq with hold
  · rw [← heq]
  · exact absurd (heq ▸ hname) hold

theorem mem_failRow_of_ne {cov : List Row} {row : Row} (hne : row.experiment ≠ name)
    (hrow : row ∈ cov) : row ∈ failRow name cov := by
  unfold failRow
  split
  · exact (mem_setStatus_of_ne hne).mpr hrow
  · exact List.mem_append_left _ hrow

theorem mem_terminate {interrupted : Bool} {cov : List Row} {row : Row} (hrow : row ∈ cov)
    (hok : row.status ≠ .checking) : row ∈ terminate interrupted cov :=
  List.mem_map.mpr ⟨row, hrow, by rw [if_neg hok]⟩

theorem rowOf_eq_some {cov : List Row} {row : Row} (h : rowOf name cov = some row) :
    row ∈ cov ∧ row.experiment = name :=
  ⟨List.mem_of_find?_eq_some h, by simpa using List.find?_some h⟩

/-! ### The invariant -/

/-- What an event may not find before it: a claim finds no failure of its attempt, and nothing that
is done. -/
def Respects : Event → Event → Prop
  | .claimed a _ _, .failed a' _ => a ≠ a'
  | .claimed _ name _, .done name' => name ≠ name'
  | _, _ => True

/-- Two claims of one experiment are of one node. -/
def SameNode : Event → Event → Prop
  | .claimed _ name n, .claimed _ name' n' => name = name' → n = n'
  | _, _ => True

/-- The invariant. -/
structure Inv (cfg : Config) (s : State) : Prop where
  listed : ∀ x g, s.groups.find? x = some g → x ∈ cfg.experiments
  placed : ∀ n l, s.lanes n = some l → n ∈ cfg.nodes
  held : ∀ n l name, s.lanes n = some l → l.pc.name? = some name →
    ∃ g, s.groups.find? name = some g ∧ g.status = .running ∧ g.node = some n
  single : ∀ x y gx gy n, s.groups.find? x = some gx → s.groups.find? y = some gy →
    gx.status = .running → gy.status = .running → gx.node = some n → gy.node = some n → x = y
  service : ∀ x y gx gy, s.groups.find? x = some gx → s.groups.find? y = some gy →
    serviceGroup x → serviceGroup y → gx.status = .running → gy.status = .running → x = y
  saved : ∀ n l row, s.lanes n = some l → row ∈ l.coverage → row.status = .ok →
    ∃ cov, s.reviews n = some cov ∧ row ∈ cov
  finished : ∀ x g, s.groups.find? x = some g → g.status = .ok →
    ∃ n cov, g.node = some n ∧ n ∈ cfg.nodes ∧ g.row = some ⟨x, .ok⟩ ∧ s.reviews n = some cov ∧
      ⟨x, .ok⟩ ∈ cov ∧ ∀ l, s.lanes n = some l → ⟨x, .ok⟩ ∈ l.coverage
  past : ∀ a name, .failed a name ∈ s.log → a ≤ s.attempt
  failure : ∀ name, .failed s.attempt name ∈ s.log →
    ∃ g, s.groups.find? name = some g ∧ g.status = .failed
  done : ∀ name, .done name ∈ s.log → ∃ g, s.groups.find? name = some g ∧ g.status = .ok
  claims : ∀ a name n, .claimed a name n ∈ s.log → n ∈ cfg.nodes
  log : s.log.Pairwise Respects

theorem inv_start : Inv cfg (start cfg) where
  listed := by
    intro x g hg
    simp only [start, find?_freshGroups] at hg
    split_ifs at hg with hx
    exact hx
  placed := by simp [start]
  held := by simp [start]
  single := by
    intro x y gx gy n hx hy hrun
    simp only [start, find?_freshGroups] at hx
    split_ifs at hx
    rw [← Option.some.inj hx] at hrun
    cases hrun
  service := by
    intro x y gx gy hx hy _ _ hrun
    simp only [start, find?_freshGroups] at hx
    split_ifs at hx
    rw [← Option.some.inj hx] at hrun
    cases hrun
  saved := by simp [start]
  finished := by
    intro x g hg hok
    simp only [start, find?_freshGroups] at hg
    split_ifs at hg
    rw [← Option.some.inj hg] at hok
    cases hok
  past := by simp [start]
  failure := by simp [start]
  done := by simp [start]
  claims := by simp [start]
  log := List.Pairwise.nil

/-- A finished experiment is nobody's. -/
theorem Inv.not_held {x : String} {g : Group} (h : Inv cfg s) (hl : s.lanes n = some l)
    (hg : s.groups.find? x = some g) (hok : g.status ≠ .running) : l.pc.name? ≠ some x := by
  intro hname
  obtain ⟨g', hg', hrun, -⟩ := h.held n l x hl hname
  rw [hg] at hg'
  exact hok (Option.some.inj hg' ▸ hrun)

/-- A lane goes on without a save. It gets no other experiment, keeps the finished rows of the
experiments it is not working on, and has no new successful row. -/
theorem Inv.put (h : Inv cfg s) (hl : s.lanes n = some l) (l' : Lane)
    (hname : ∀ x, l'.pc.name? = some x → l.pc.name? = some x)
    (hkeep : ∀ x, l.pc.name? ≠ some x → ⟨x, .ok⟩ ∈ l.coverage → ⟨x, .ok⟩ ∈ l'.coverage)
    (hok : ∀ row ∈ l'.coverage, row.status = .ok → row ∈ l.coverage) : Inv cfg (s.put n l') :=
  { h with
    placed := by
      intro k lk hk
      simp only [State.put, Function.update_apply] at hk
      split_ifs at hk with heq
      · exact heq ▸ h.placed n l hl
      · exact h.placed k lk hk
    held := by
      intro k lk name hk hpc
      simp only [State.put, Function.update_apply] at hk
      split_ifs at hk with heq
      · obtain rfl := Option.some.inj hk
        exact heq ▸ h.held n l name hl (hname name hpc)
      · exact h.held k lk name hk hpc
    saved := by
      intro k lk row hk hrow hrok
      simp only [State.put, Function.update_apply] at hk
      split_ifs at hk with heq
      · obtain rfl := Option.some.inj hk
        exact heq ▸ h.saved n l row hl (hok row hrow hrok) hrok
      · exact h.saved k lk row hk hrow hrok
    finished := by
      intro x g hg hgok
      obtain ⟨k, cov, hnode, hk, hrow, hrev, hmem, hlane⟩ := h.finished x g hg hgok
      refine ⟨k, cov, hnode, hk, hrow, hrev, hmem, fun lk hlk => ?_⟩
      simp only [State.put, Function.update_apply] at hlk
      split_ifs at hlk with heq
      · obtain rfl := Option.some.inj hlk
        subst heq
        exact hkeep x (h.not_held hl hg (by simp [hgok])) (hlane l hl)
      · exact hlane lk hlk }

/-- A lane goes on and saves. -/
theorem Inv.putSave (h : Inv cfg s) (hl : s.lanes n = some l) (l' : Lane)
    (hname : ∀ x, l'.pc.name? = some x → l.pc.name? = some x)
    (hkeep : ∀ x, l.pc.name? ≠ some x → ⟨x, .ok⟩ ∈ l.coverage → ⟨x, .ok⟩ ∈ l'.coverage) :
    Inv cfg (s.putSave n l') :=
  { h with
    placed := by
      intro k lk hk
      simp only [State.putSave, State.put, Function.update_apply] at hk
      split_ifs at hk with heq
      · exact heq ▸ h.placed n l hl
      · exact h.placed k lk hk
    held := by
      intro k lk name hk hpc
      simp only [State.putSave, State.put, Function.update_apply] at hk
      split_ifs at hk with heq
      · obtain rfl := Option.some.inj hk
        exact heq ▸ h.held n l name hl (hname name hpc)
      · exact h.held k lk name hk hpc
    saved := by
      intro k lk row hk hrow hrok
      simp only [State.putSave, State.put, Function.update_apply] at hk ⊢
      split_ifs at hk ⊢ with heq
      · obtain rfl := Option.some.inj hk
        exact ⟨_, rfl, hrow⟩
      · exact h.saved k lk row hk hrow hrok
    finished := by
      intro x g hg hgok
      obtain ⟨k, cov, hnode, hk, hrow, hrev, hmem, hlane⟩ := h.finished x g hg hgok
      by_cases heq : k = n
      · subst heq
        have hnew := hkeep x (h.not_held hl hg (by simp [hgok])) (hlane l hl)
        refine ⟨k, l'.coverage, hnode, hk, hrow, by simp [State.putSave, State.put], hnew, ?_⟩
        intro lk hlk
        simp only [State.putSave, State.put, Function.update_self] at hlk
        exact Option.some.inj hlk ▸ hnew
      · refine ⟨k, cov, hnode, hk, hrow, ?_, hmem, fun lk hlk => ?_⟩
        · simp [State.putSave, State.put, Function.update_of_ne heq, hrev]
        · simp only [State.putSave, State.put, Function.update_of_ne heq] at hlk
          exact hlane lk hlk }

/-- A claim. -/
theorem Inv.claim (h : Inv cfg s) (hl : s.lanes n = some l) (hc : ClaimOk cfg s.groups n name) :
    Inv cfg { s.put n { l with pc := .claimed name } with
      groups := s.groups.set name ⟨.running, some n, none⟩
      log := .claimed s.attempt name n :: s.log } := by
  obtain ⟨hlisted, hnofail, hfree, hserv, g₀, hg₀, hpend, -⟩ := hc
  -- the experiment was pending, so nobody has it and it is not finished
  have hother : ∀ x g, s.groups.find? x = some g → g.status ≠ .pending → x ≠ name := by
    rintro x g hg hne rfl
    rw [hg₀] at hg
    exact hne (Option.some.inj hg ▸ hpend)
  refine { listed := ?_, placed := ?_, held := ?_, single := ?_, service := ?_, saved := ?_
           finished := ?_, past := ?_, failure := ?_, done := ?_, claims := ?_, log := ?_ }
  · intro x g hg
    simp only [Dict.find?_set] at hg
    split_ifs at hg with heq
    · exact heq ▸ hlisted
    · exact h.listed x g hg
  · intro k lk hk
    simp only [State.put, Function.update_apply] at hk
    split_ifs at hk with heq
    · exact heq ▸ h.placed n l hl
    · exact h.placed k lk hk
  · intro k lk x hk hpc
    simp only [State.put, Function.update_apply] at hk
    split_ifs at hk with heq
    · obtain rfl := Option.some.inj hk
      obtain rfl := Option.some.inj hpc
      exact ⟨_, Dict.find?_set_self .., rfl, heq ▸ rfl⟩
    · obtain ⟨g, hg, hrun, hnode⟩ := h.held k lk x hk hpc
      refine ⟨g, ?_, hrun, hnode⟩
      rw [Dict.find?_set_of_ne _ _ (hother x g hg (by simp [hrun]))]
      exact hg
  · intro x y gx gy k hx hy hrx hry hnx hny
    simp only [Dict.find?_set] at hx hy
    split_ifs at hx hy with hxn hyn hyn
    · rw [hxn, hyn]
    · rw [← Option.some.inj hx] at hnx
      exact absurd (hny.trans hnx.symm) (hfree y gy hy hry)
    · rw [← Option.some.inj hy] at hny
      exact absurd (hnx.trans hny.symm) (hfree x gx hx hrx)
    · exact h.single x y gx gy k hx hy hrx hry hnx hny
  · intro x y gx gy hx hy hsx hsy hrx hry
    simp only [Dict.find?_set] at hx hy
    split_ifs at hx hy with hxn hyn hyn
    · rw [hxn, hyn]
    · exact absurd hry (hserv (hxn ▸ hsx) y gy hy hsy)
    · exact absurd hrx (hserv (hyn ▸ hsy) x gx hx hsx)
    · exact h.service x y gx gy hx hy hsx hsy hrx hry
  · intro k lk row hk hrow hok
    simp only [State.put, Function.update_apply] at hk
    split_ifs at hk with heq
    · obtain rfl := Option.some.inj hk
      exact heq ▸ h.saved n l row hl hrow hok
    · exact h.saved k lk row hk hrow hok
  · intro x g hg hok
    simp only [Dict.find?_set] at hg
    split_ifs at hg with heq
    · rw [← Option.some.inj hg] at hok
      cases hok
    · obtain ⟨k, cov, hnode, hk, hrow, hrev, hmem, hlane⟩ := h.finished x g hg hok
      refine ⟨k, cov, hnode, hk, hrow, hrev, hmem, fun lk hlk => ?_⟩
      simp only [State.put, Function.update_apply] at hlk
      split_ifs at hlk with heq
      · obtain rfl := Option.some.inj hlk
        exact hlane l (heq ▸ hl)
      · exact hlane lk hlk
  · intro a x hx
    rcases List.mem_cons.mp hx with hx | hx
    · cases hx
    · exact h.past a x hx
  · intro x hx
    rcases List.mem_cons.mp hx with hx | hx
    · cases hx
    · obtain ⟨g, hg, hf⟩ := h.failure x hx
      exact absurd hf (hnofail x g hg)
  · intro x hx
    rcases List.mem_cons.mp hx with hx | hx
    · cases hx
    · obtain ⟨g, hg, hok⟩ := h.done x hx
      refine ⟨g, ?_, hok⟩
      rw [Dict.find?_set_of_ne _ _ (hother x g hg (by simp [hok]))]
      exact hg
  · intro a x k hx
    rcases List.mem_cons.mp hx with hx | hx
    · obtain ⟨-, -, rfl⟩ := Event.claimed.inj hx
      exact h.placed k l hl
    · exact h.claims a x k hx
  · refine List.Pairwise.cons (fun e he => ?_) h.log
    cases e with
    | claimed a x k => trivial
    | failed a x =>
      rintro rfl
      obtain ⟨g, hg, hf⟩ := h.failure x he
      exact hnofail x g hg hf
    | done x =>
      obtain ⟨g, hg, hok⟩ := h.done x he
      exact (hother x g hg (by simp [hok])).symm

/-- What `finish` writes on an experiment. -/
def finishedGroup (n : ℕ) (name : String) (l : Lane) : Group :=
  ⟨if (rowOf name l.coverage).any (·.status = .ok) then .ok else .failed, some n,
    rowOf name l.coverage⟩

theorem finishedGroup_not_running : (finishedGroup n name l).status ≠ .running := by
  unfold finishedGroup
  split_ifs <;> simp

/-- The queue after `finish`. -/
def finishQueue (s : State) (n : ℕ) (name : String) (l : Lane) : State :=
  { s with
    groups := s.groups.set name (finishedGroup n name l)
    log := (if (rowOf name l.coverage).any (·.status = .ok) then .done name
      else .failed s.attempt name) :: s.log }

theorem find?_finishQueue {x : String} {g : Group}
    (h : (finishQueue s n name l).groups.find? x = some g) :
    x = name ∧ g = finishedGroup n name l ∨ x ≠ name ∧ s.groups.find? x = some g := by
  simp only [finishQueue, Dict.find?_set] at h
  by_cases hx : x = name
  · rw [if_pos hx] at h
    exact .inl ⟨hx, (Option.some.inj h).symm⟩
  · rw [if_neg hx] at h
    exact .inr ⟨hx, h⟩

/-- A finish. The lane still has the name, but leaves it in the same step. -/
theorem Inv.finish (h : Inv cfg s) (hl : s.lanes n = some l) {g₀ : Group}
    (hg₀ : s.groups.find? name = some g₀) (hrun₀ : g₀.status = .running)
    (hnode₀ : g₀.node = some n) (l' : Lane) (hcov : l'.coverage = l.coverage)
    (hpc : l'.pc.name? = none) : Inv cfg ((finishQueue s n name l).put n l') := by
  have hother : ∀ x g, s.groups.find? x = some g → g.status ≠ .running → x ≠ name := by
    rintro x g hg hne rfl
    rw [hg₀] at hg
    exact hne (Option.some.inj hg ▸ hrun₀)
  have hrunning : ∀ x g, (finishQueue s n name l).groups.find? x = some g → g.status = .running →
      s.groups.find? x = some g := by
    intro x g hg hrun
    rcases find?_finishQueue hg with ⟨-, rfl⟩ | ⟨-, hold⟩
    · exact absurd hrun finishedGroup_not_running
    · exact hold
  refine { listed := ?_, placed := ?_, held := ?_, single := ?_, service := ?_, saved := ?_
           finished := ?_, past := ?_, failure := ?_, done := ?_, claims := ?_, log := ?_ }
  · intro x g hg
    rcases find?_finishQueue hg with ⟨rfl, -⟩ | ⟨-, hold⟩
    · exact h.listed x g₀ hg₀
    · exact h.listed x g hold
  · intro k lk hk
    simp only [State.put, Function.update_apply] at hk
    split_ifs at hk with heq
    · exact heq ▸ h.placed n l hl
    · exact h.placed k lk hk
  · intro k lk x hk hname
    simp only [State.put, Function.update_apply] at hk
    split_ifs at hk with heq
    · obtain rfl := Option.some.inj hk
      simp [hpc] at hname
    · obtain ⟨g, hg, hrun, hnode⟩ := h.held k lk x hk hname
      refine ⟨g, ?_, hrun, hnode⟩
      have hx : x ≠ name := by
        rintro rfl
        rw [hg₀] at hg
        obtain rfl := Option.some.inj hg
        exact heq (Option.some.inj (hnode.symm.trans hnode₀))
      simp only [finishQueue, State.put, Dict.find?_set, if_neg hx]
      exact hg
  · intro x y gx gy k hx hy hrx hry
    exact h.single x y gx gy k (hrunning x gx hx hrx) (hrunning y gy hy hry) hrx hry
  · intro x y gx gy hx hy hsx hsy hrx hry
    exact h.service x y gx gy (hrunning x gx hx hrx) (hrunning y gy hy hry) hsx hsy hrx hry
  · intro k lk row hk hrow hok
    simp only [State.put, Function.update_apply] at hk
    split_ifs at hk with heq
    · obtain rfl := Option.some.inj hk
      exact heq ▸ h.saved n l row hl (hcov ▸ hrow) hok
    · exact h.saved k lk row hk hrow hok
  · intro x g hg hok
    rcases find?_finishQueue hg with ⟨rfl, rfl⟩ | ⟨-, hg⟩
    · unfold finishedGroup at hok
      dsimp only at hok
      split_ifs at hok with hany
      -- the successful row is in the coverage, hence in the review
      obtain ⟨row, hrow, hrok⟩ := (Option.any_eq_true _ _).mp hany
      obtain ⟨hmem, hexp⟩ := rowOf_eq_some hrow
      have hrow' : row = ⟨x, .ok⟩ := by
        obtain ⟨e, st⟩ := row
        simp only [decide_eq_true_eq] at hrok hexp
        rw [hexp, hrok]
      subst hrow'
      obtain ⟨cov, hrev, hcovmem⟩ := h.saved n l _ hl hmem rfl
      refine ⟨n, cov, rfl, h.placed n l hl, hrow, hrev, hcovmem, fun lk hlk => ?_⟩
      simp only [finishQueue, State.put, Function.update_self] at hlk
      rw [← Option.some.inj hlk, hcov]
      exact hmem
    · obtain ⟨k, cov, hnode, hk, hrow, hrev, hmem, hlane⟩ := h.finished x g hg hok
      refine ⟨k, cov, hnode, hk, hrow, hrev, hmem, fun lk hlk => ?_⟩
      simp only [State.put, Function.update_apply] at hlk
      split_ifs at hlk with heq
      · obtain rfl := Option.some.inj hlk
        rw [hcov]
        exact hlane l (heq ▸ hl)
      · exact hlane lk hlk
  · intro a x hx
    simp only [finishQueue, State.put] at hx
    rcases List.mem_cons.mp hx with hx | hx
    · split_ifs at hx
      rw [(Event.failed.inj hx).1]
      exact Nat.le_refl _
    · exact h.past a x hx
  · intro x hx
    simp only [finishQueue, State.put, Dict.find?_set] at hx ⊢
    rcases List.mem_cons.mp hx with hx | hx
    · split_ifs at hx with hany
      rw [if_pos (Event.failed.inj hx).2]
      exact ⟨_, rfl, by simp [finishedGroup, hany]⟩
    · obtain ⟨g, hg, hf⟩ := h.failure x hx
      rw [if_neg (hother x g hg (by simp [hf]))]
      exact ⟨g, hg, hf⟩
  · intro x hx
    simp only [finishQueue, State.put, Dict.find?_set] at hx ⊢
    rcases List.mem_cons.mp hx with hx | hx
    · split_ifs at hx with hany
      rw [if_pos (Event.done.inj hx)]
      exact ⟨_, rfl, by simp [finishedGroup, hany]⟩
    · obtain ⟨g, hg, hok⟩ := h.done x hx
      rw [if_neg (hother x g hg (by simp [hok]))]
      exact ⟨g, hg, hok⟩
  · intro a x k hx
    simp only [finishQueue, State.put] at hx
    rcases List.mem_cons.mp hx with hx | hx
    · split_ifs at hx
    · exact h.claims a x k hx
  · simp only [finishQueue, State.put]
    refine List.Pairwise.cons (fun e _ => ?_) h.log
    split_ifs <;> trivial

/-- A lane starts, with the finished rows of its node. -/
theorem Inv.launch (h : Inv cfg s) (hnone : s.lanes n = none) (hn : n ∈ cfg.nodes) :
    Inv cfg (s.put n ⟨completedRows cfg s.groups n, .starting⟩) :=
  { h with
    placed := by
      intro k lk hk
      simp only [State.put, Function.update_apply] at hk
      split_ifs at hk with heq
      · exact heq ▸ hn
      · exact h.placed k lk hk
    held := by
      intro k lk name hk hpc
      simp only [State.put, Function.update_apply] at hk
      split_ifs at hk with heq
      · rw [← Option.some.inj hk] at hpc
        cases hpc
      · exact h.held k lk name hk hpc
    saved := by
      intro k lk row hk hrow hok
      simp only [State.put, Function.update_apply] at hk
      split_ifs at hk with heq
      · subst heq
        rw [← Option.some.inj hk] at hrow
        obtain ⟨x, -, g, hg, hgok, hnode, hgrow⟩ := mem_completedRows.mp hrow
        obtain ⟨k', cov, hnode', -, hgrow', hrev, hmem, -⟩ := h.finished x g hg hgok
        obtain rfl := Option.some.inj (hnode.symm.trans hnode')
        obtain rfl := Option.some.inj (hgrow.symm.trans hgrow')
        exact ⟨cov, hrev, hmem⟩
      · exact h.saved k lk row hk hrow hok
    finished := by
      intro x g hg hgok
      obtain ⟨k, cov, hnode, hk, hrow, hrev, hmem, hlane⟩ := h.finished x g hg hgok
      refine ⟨k, cov, hnode, hk, hrow, hrev, hmem, fun lk hlk => ?_⟩
      simp only [State.put, Function.update_apply] at hlk
      split_ifs at hlk with heq
      · subst heq
        rw [← Option.some.inj hlk]
        exact mem_completedRows.mpr ⟨x, h.listed x g hg, g, hg, hgok, hnode, hrow⟩
      · exact hlane lk hlk }

/-- A lane is killed. -/
theorem Inv.kill (h : Inv cfg s) (n : ℕ) :
    Inv cfg { s with lanes := Function.update s.lanes n none } := by
  have hold : ∀ k lk, Function.update s.lanes n none k = some lk → s.lanes k = some lk := by
    intro k lk hk
    rw [Function.update_apply] at hk
    split_ifs at hk
    exact hk
  exact { h with
    placed := fun k lk hk => h.placed k lk (hold k lk hk)
    held := fun k lk name hk => h.held k lk name (hold k lk hk)
    saved := fun k lk row hk => h.saved k lk row (hold k lk hk)
    finished := by
      intro x g hg hgok
      obtain ⟨k, cov, hnode, hk, hrow, hrev, hmem, hlane⟩ := h.finished x g hg hgok
      exact ⟨k, cov, hnode, hk, hrow, hrev, hmem, fun lk hlk => hlane lk (hold k lk hlk)⟩ }

/-- What the resume has on an experiment. -/
theorem find?_recoverGroups {sameBinding : Bool} {evidence : String → Bool}
    {reviews : ℕ → Option (List Row)} {x : String} {g : Group}
    (h : recoverGroups cfg sameBinding evidence reviews = some groups')
    (hg : groups'.find? x = some g) : x ∈ cfg.experiments ∧
      (g = ⟨.pending, none, none⟩ ∨ ∃ k row, k ∈ cfg.nodes ∧ row.experiment = x ∧ g = bind k row ∧
        ∃ cov, reviews k = some cov ∧ row ∈ cov) := by
  unfold recoverGroups at h
  split_ifs at h
  have hfresh : ∀ g, (freshGroups cfg.experiments).find? x = some g →
      x ∈ cfg.experiments ∧ g = ⟨.pending, none, none⟩ := by
    intro g hg
    rw [find?_freshGroups] at hg
    split_ifs at hg with hx
    exact ⟨hx, (Option.some.inj hg).symm⟩
  rcases (recoverRows_spec h).2.2 x g hg with hold | ⟨⟨g₀, hg₀⟩, ⟨k, row⟩, hrow, hname, -, hbind⟩
  · exact ⟨(hfresh g hold).1, .inl (hfresh g hold).2⟩
  · obtain ⟨hk, hcov⟩ := mem_reviewed.mp hrow
    exact ⟨(hfresh g₀ hg₀).1, .inr ⟨k, row, hk, hname, hbind, hcov⟩⟩

/-- A row of a review binds its experiment in the resume. -/
theorem find?_recoverGroups_of_mem {sameBinding : Bool} {evidence : String → Bool}
    {reviews : ℕ → Option (List Row)} {k : ℕ} {cov : List Row} {row : Row}
    (h : recoverGroups cfg sameBinding evidence reviews = some groups') (hk : k ∈ cfg.nodes)
    (hrev : reviews k = some cov) (hrow : row ∈ cov) (hrun : row.status ≠ .notRun) :
    groups'.find? row.experiment = some (bind k row) := by
  unfold recoverGroups at h
  split_ifs at h
  exact (recoverRows_spec h).2.1 (k, row) (mem_reviewed.mpr ⟨hk, cov, hrev, hrow⟩) hrun

/-- A resume. -/
theorem Inv.resume {sameBinding : Bool} {evidence : String → Bool} (h : Inv cfg s)
    (hidle : ∀ n ∈ cfg.nodes, s.lanes n = none)
    (hrec : recoverGroups cfg sameBinding evidence s.reviews = some groups') :
    Inv cfg { s with groups := groups', attempt := s.attempt + 1 } := by
  have hlanes : ∀ k l, s.lanes k ≠ some l := by
    intro k l hk
    have hnone := hidle k (h.placed k l hk)
    rw [hk] at hnone
    cases hnone
  have hrest : ∀ x g, groups'.find? x = some g → g.status ≠ .running := by
    intro x g hg
    rcases (find?_recoverGroups hrec hg).2 with rfl | ⟨k, row, -, -, rfl, -⟩
    · simp
    · unfold bind
      split_ifs <;> simp
  refine { listed := ?_, placed := ?_, held := ?_, single := ?_, service := ?_, saved := ?_
           finished := ?_, past := ?_, failure := ?_, done := ?_, claims := h.claims, log := h.log }
  · exact fun x g hg => (find?_recoverGroups hrec hg).1
  · exact fun k l hk => absurd hk (hlanes k l)
  · exact fun k l _ hk => absurd hk (hlanes k l)
  · exact fun x y gx gy k hx hy hrun => absurd hrun (hrest x gx hx)
  · exact fun x y gx gy hx hy _ _ hrun => absurd hrun (hrest x gx hx)
  · exact fun k l _ hk => absurd hk (hlanes k l)
  · intro x g hg hok
    rcases (find?_recoverGroups hrec hg).2 with rfl | ⟨k, ⟨e, st⟩, hk, hname, rfl, cov, hrev, hrow⟩
    · cases hok
    · unfold bind at hok
      split_ifs at hok with hst
      dsimp only at hst hname
      subst hst hname
      exact ⟨k, cov, by simp [bind], hk, by simp [bind], hrev, hrow,
        fun l hl => absurd hl (hlanes k l)⟩
  · exact fun a x hx => Nat.le_succ_of_le (h.past a x hx)
  · exact fun x hx => absurd (h.past _ x hx) (by simp)
  · intro x hx
    obtain ⟨g, hg, hok⟩ := h.done x hx
    obtain ⟨k, cov, -, hk, -, hrev, hmem, -⟩ := h.finished x g hg hok
    exact ⟨_, find?_recoverGroups_of_mem hrec hk hrev hmem (by simp), by simp [bind]⟩

/-- A finish that ends the lane. -/
theorem Inv.finishSave (h : Inv cfg s) (hl : s.lanes n = some l) {g₀ : Group}
    (hg₀ : s.groups.find? name = some g₀) (hrun₀ : g₀.status = .running)
    (hnode₀ : g₀.node = some n) (l' : Lane) (hcov : l'.coverage = l.coverage)
    (hpc : l'.pc.name? = none) : Inv cfg ((finishQueue s n name l).putSave n l') := by
  have hmid := h.finish hl hg₀ hrun₀ hnode₀ l' hcov hpc
  have hlane : ((finishQueue s n name l).put n l').lanes n = some l' := by
    simp [State.put]
  have hsave := hmid.putSave hlane l' (fun _ hx => hx) (fun _ _ hx => hx)
  simpa only [State.putSave, State.put, Function.update_idem] using hsave

/-- What `finish` does for the lane that has the experiment. -/
theorem laneStep_finish {k : ℕ} {g : Group} (hpc : l.pc = .concluded name)
    (hg : s.groups.find? name = some g) (hown : g.status = .running ∧ g.node = some n)
    (hs : laneStep cfg s n l (.finish k) = some t) :
    t = (finishQueue s n name l).putSave n { l with pc := .stopped } ∨
      t = (finishQueue s n name l).put n { l with pc := .idle } := by
  simp only [laneStep, hpc, hg] at hs
  rw [if_pos hown, hown.2] at hs
  have ht := Option.some.inj hs
  by_cases hstop : stops cfg.available (rowOf name l.coverage) = true
  · rw [if_pos hstop] at ht
    exact .inl ht.symm
  · rw [if_neg hstop] at ht
    exact .inr ht.symm

/-- A `finish` of a lane that does not have the experiment is a terminal error. -/
theorem laneStep_finish_of_not {k : ℕ} (hpc : l.pc = .concluded name)
    (hown : ¬∃ g, s.groups.find? name = some g ∧ g.status = .running ∧ g.node = some n)
    (hs : laneStep cfg s n l (.finish k) = some t) :
    t = s.putSave n ⟨terminate false l.coverage, .stopped⟩ := by
  simp only [laneStep, hpc] at hs
  split at hs
  next g hg =>
    rw [if_neg fun hg' => hown ⟨g, hg, hg'⟩] at hs
    exact (Option.some.inj hs).symm
  next => exact (Option.some.inj hs).symm

/-- A lane ends in a terminal error. -/
theorem Inv.stop (h : Inv cfg s) (hl : s.lanes n = some l) (interrupted : Bool) :
    Inv cfg (s.putSave n ⟨terminate interrupted l.coverage, .stopped⟩) :=
  h.putSave hl _ (fun _ hx => by cases hx) fun _ _ hx => mem_terminate hx (by simp)

/-- **A step of a lane keeps the invariant.** -/
theorem inv_laneStep {a : Act} (h : Inv cfg s) (hl : s.lanes n = some l)
    (hs : laneStep cfg s n l a = some t) : Inv cfg t := by
  cases a with
  | launch k => cases hs
  | resume b ev => cases hs
  | firstSave k =>
    simp only [laneStep] at hs
    split at hs <;> try cases hs
    exact h.putSave hl _ (fun _ hx => by cases hx) fun _ _ hx => hx
  | claim k =>
    simp only [laneStep] at hs
    split at hs <;> try cases hs
    split at hs <;> obtain rfl := Option.some.inj hs
    · exact h.put hl _ (fun _ hx => by cases hx) (fun _ _ hx => hx) fun _ hx _ => hx
    · exact h
    next name hclaim => exact h.claim hl (claimOk_of_claim hclaim)
    · exact h.stop hl false
  | begin k =>
    simp only [laneStep] at hs
    split at hs <;> try cases hs
    next name hpc =>
      refine h.put hl _ (fun x hx => ?_) (fun x _ hx => List.mem_append_left _ hx) ?_
      · rw [hpc]
        exact hx
      · intro row hrow hok
        rcases List.mem_append.mp hrow with hrow | hrow
        · exact hrow
        · rw [List.mem_singleton.mp hrow] at hok
          cases hok
  | save k =>
    simp only [laneStep] at hs
    split at hs <;> try cases hs
    exact h.putSave hl l (fun _ hx => hx) fun _ _ hx => hx
  | mark k status saved =>
    simp only [laneStep] at hs
    split at hs
    next name hpc =>
      split_ifs at hs with hbad hsaved
      · obtain rfl := Option.some.inj hs
        refine h.putSave hl _ (fun _ hx => hx) fun x hx hmem => ?_
        rw [hpc] at hx
        exact (mem_setStatus_of_ne fun heq => hx (congrArg some heq.symm)).mpr hmem
      · obtain rfl := Option.some.inj hs
        refine h.put hl _ (fun _ hx => hx) (fun x hx hmem => ?_) fun row hrow hok => ?_
        · rw [hpc] at hx
          exact (mem_setStatus_of_ne fun heq => hx (congrArg some heq.symm)).mpr hmem
        · by_cases hname : row.experiment = name
          · have hst := status_of_mem_setStatus hrow hname
            exact absurd ⟨hst.symm.trans hok, by simpa using hsaved⟩ hbad
          · exact (mem_setStatus_of_ne hname).mp hrow
    next => cases hs
  | ret k =>
    simp only [laneStep] at hs
    split at hs
    next name hpc =>
      split_ifs at hs
      obtain rfl := Option.some.inj hs
      refine h.put hl _ (fun x hx => ?_) (fun _ _ hx => hx) fun _ hx _ => hx
      rw [hpc]
      exact hx
    next => cases hs
  | raise k =>
    simp only [laneStep] at hs
    split at hs <;> try cases hs
    all_goals
      next name hpc =>
        refine h.putSave hl _ (fun x hx => ?_) fun x hx hmem => mem_failRow_of_ne ?_ hmem
        · rw [hpc]
          exact hx
        · rw [hpc] at hx
          exact fun heq => hx (congrArg some heq.symm)
  | finish k =>
    cases hpc : l.pc with
    | concluded name =>
      by_cases hown : ∃ g, s.groups.find? name = some g ∧ g.status = .running ∧ g.node = some n
      · obtain ⟨g, hg, hrun, hnode⟩ := hown
        rcases laneStep_finish hpc hg ⟨hrun, hnode⟩ hs with rfl | rfl
        · exact h.finishSave hl hg hrun hnode _ rfl rfl
        · exact h.finish hl hg hrun hnode _ rfl rfl
      · obtain rfl := laneStep_finish_of_not hpc hown hs
        exact h.stop hl false
    | _ => simp [laneStep, hpc] at hs
  | terminal k interrupted =>
    simp only [laneStep] at hs
    split at hs <;> try cases hs
    exact h.stop hl interrupted
  | kill k =>
    obtain rfl := Option.some.inj hs
    exact h.kill n

/-- **A step keeps the invariant.** -/
theorem inv_step {a : Act} (h : Inv cfg s) (hs : step cfg s a = some t) : Inv cfg t := by
  cases a with
  | launch k =>
    simp only [step] at hs
    split at hs
    next hnone =>
      split_ifs at hs with hk
      exact Option.some.inj hs ▸ h.launch hnone hk
    next => cases hs
  | resume sameBinding evidence =>
    simp only [step] at hs
    split_ifs at hs with hidle
    obtain ⟨groups', hrec, rfl⟩ := Option.map_eq_some_iff.mp hs
    exact h.resume hidle hrec
  | _ =>
    obtain ⟨l, hl, hs⟩ := Option.bind_eq_some_iff.mp hs
    exact inv_laneStep h hl hs

/-! ### The binding -/

/-- Every experiment that was claimed belongs to the node that claimed it. -/
structure Bound (s : State) : Prop where
  bound : ∀ a name k, .claimed a name k ∈ s.log →
    ∃ g, s.groups.find? name = some g ∧ g.node = some k
  same : s.log.Pairwise SameNode

/-- Does the review of the node that claimed an experiment have a row that says so? -/
def claimKept (reviews : ℕ → Option (List Row)) : Event → Bool
  | .claimed _ name k => (reviews k).any fun cov =>
      cov.any fun row => row.experiment = name ∧ row.status ≠ .notRun
  | _ => true

/-- A run is resumed only when the reviews have every claim. -/
def Recorded (s : State) : Act → Prop
  | .resume _ _ => ∀ e ∈ s.log, claimKept s.reviews e = true
  | _ => True

instance (s : State) : ∀ a, Decidable (Recorded s a)
  | .resume _ _ => inferInstanceAs (Decidable (∀ e ∈ s.log, claimKept s.reviews e = true))
  | .launch _ | .firstSave _ | .claim _ | .begin _ | .save _ | .mark _ _ _ | .ret _ | .raise _
  | .finish _ | .terminal _ _ | .kill _ => .isTrue trivial

theorem Bound.claim (h : Bound s) (hc : ClaimOk cfg s.groups n name) {s' : State}
    (hgroups : s'.groups = s.groups.set name ⟨.running, some n, none⟩)
    (hlog : s'.log = .claimed s.attempt name n :: s.log) : Bound s' := by
  obtain ⟨g₀, hg₀, -, hnode₀⟩ := hc.mine
  -- an earlier claim of the experiment was by the same node
  have hmine : ∀ a k, .claimed a name k ∈ s.log → n = k := by
    intro a k hx
    obtain ⟨g, hg, hnode⟩ := h.bound a name k hx
    obtain rfl := Option.some.inj (hg₀.symm.trans hg)
    rcases hnode₀ with hnone | hsome
    · rw [hnone] at hnode
      cases hnode
    · exact Option.some.inj (hsome.symm.trans hnode)
  refine ⟨fun a x k hx => ?_, ?_⟩
  · rw [hlog] at hx
    rw [hgroups, Dict.find?_set]
    rcases List.mem_cons.mp hx with hx | hx
    · obtain ⟨-, rfl, rfl⟩ := Event.claimed.inj hx
      exact ⟨_, if_pos rfl, rfl⟩
    · by_cases heq : x = name
      · rw [heq] at hx
        exact ⟨_, if_pos heq, congrArg some (hmine a k hx)⟩
      · rw [if_neg heq]
        exact h.bound a x k hx
  · rw [hlog]
    refine List.Pairwise.cons (fun e he => ?_) h.same
    cases e with
    | claimed a x k =>
      rintro rfl
      exact hmine a k he
    | failed a x => trivial
    | done x => trivial

theorem Bound.finish (h : Bound s) {g : Group} {e : Event} {g' : Group}
    (hg : s.groups.find? name = some g) (hnode : g'.node = g.node)
    (he : ∀ a x k, e ≠ .claimed a x k) {s' : State}
    (hgroups : s'.groups = s.groups.set name g') (hlog : s'.log = e :: s.log) : Bound s' := by
  refine ⟨fun a x k hx => ?_, ?_⟩
  · rw [hlog] at hx
    rw [hgroups, Dict.find?_set]
    rcases List.mem_cons.mp hx with hx | hx
    · exact absurd hx.symm (he a x k)
    · obtain ⟨gx, hgx, hnodex⟩ := h.bound a x k hx
      by_cases heq : x = name
      · subst heq
        obtain rfl := Option.some.inj (hg.symm.trans hgx)
        exact ⟨_, if_pos rfl, hnode.trans hnodex⟩
      · rw [if_neg heq]
        exact ⟨gx, hgx, hnodex⟩
  · rw [hlog]
    refine List.Pairwise.cons (fun e' _ => ?_) h.same
    cases e with
    | claimed a x k => exact absurd rfl (he a x k)
    | failed a x => trivial
    | done x => trivial

/-- What a step of a lane does to the queue and the history. -/
theorem laneStep_queue {a : Act} (hs : laneStep cfg s n l a = some t) :
    (t.groups = s.groups ∧ t.log = s.log) ∨
    (∃ name, ClaimOk cfg s.groups n name ∧ t.groups = s.groups.set name ⟨.running, some n, none⟩ ∧
      t.log = .claimed s.attempt name n :: s.log) ∨
    ∃ name g g' e, s.groups.find? name = some g ∧ g'.node = g.node ∧
      (∀ a x k, e ≠ Event.claimed a x k) ∧ t.groups = s.groups.set name g' ∧ t.log = e :: s.log := by
  cases a with
  | launch k => cases hs
  | resume b ev => cases hs
  | claim k =>
    simp only [laneStep] at hs
    split at hs <;> try cases hs
    split at hs <;> obtain rfl := Option.some.inj hs
    · exact .inl ⟨rfl, rfl⟩
    · exact .inl ⟨rfl, rfl⟩
    next name hclaim => exact .inr (.inl ⟨name, claimOk_of_claim hclaim, rfl, rfl⟩)
    · exact .inl ⟨rfl, rfl⟩
  | mark k status saved =>
    simp only [laneStep] at hs
    split at hs <;> try cases hs
    split_ifs at hs <;> obtain rfl := Option.some.inj hs <;> exact .inl ⟨rfl, rfl⟩
  | ret k =>
    simp only [laneStep] at hs
    split at hs <;> try cases hs
    split_ifs at hs
    obtain rfl := Option.some.inj hs
    exact .inl ⟨rfl, rfl⟩
  | finish k =>
    cases hpc : l.pc with
    | concluded name =>
      by_cases hown : ∃ g, s.groups.find? name = some g ∧ g.status = .running ∧ g.node = some n
      · obtain ⟨g, hg, hrun, hnode⟩ := hown
        refine .inr (.inr ⟨name, g, finishedGroup n name l,
          if (rowOf name l.coverage).any (·.status = .ok) then .done name
          else .failed s.attempt name, hg, hnode.symm, ?_, ?_⟩)
        · intro a x k
          split_ifs <;> simp
        · rcases laneStep_finish hpc hg ⟨hrun, hnode⟩ hs with rfl | rfl <;> exact ⟨rfl, rfl⟩
      · obtain rfl := laneStep_finish_of_not hpc hown hs
        exact .inl ⟨rfl, rfl⟩
    | _ => simp [laneStep, hpc] at hs
  | _ =>
    simp only [laneStep] at hs
    first
    | (obtain rfl := Option.some.inj hs; exact .inl ⟨rfl, rfl⟩)
    | (split at hs <;> try cases hs
       all_goals exact .inl ⟨rfl, rfl⟩)

/-- The binding is lost by a resume only. -/
theorem bound_step {a : Act} (hi : Inv cfg s) (h : Bound s) (hr : Recorded s a)
    (hs : step cfg s a = some t) : Bound t := by
  cases a with
  | launch k =>
    simp only [step] at hs
    split at hs
    next hnone =>
      split_ifs at hs
      obtain rfl := Option.some.inj hs
      exact ⟨h.bound, h.same⟩
    next => cases hs
  | resume sameBinding evidence =>
    simp only [step] at hs
    split_ifs at hs with hidle
    obtain ⟨groups', hrec, rfl⟩ := Option.map_eq_some_iff.mp hs
    refine ⟨fun a name k hx => ?_, h.same⟩
    have hkept := hr _ hx
    simp only [claimKept, Option.any_eq_true, List.any_eq_true, decide_eq_true_eq] at hkept
    obtain ⟨cov, hrev, row, hrow, rfl, hrun⟩ := hkept
    refine ⟨_, find?_recoverGroups_of_mem hrec (hi.claims a _ k hx) hrev hrow hrun, ?_⟩
    unfold bind
    split_ifs <;> rfl
  | _ =>
    obtain ⟨l, hl, hs⟩ := Option.bind_eq_some_iff.mp hs
    rcases laneStep_queue hs with ⟨hgroups, hlog⟩ | ⟨name, hc, hgroups, hlog⟩ |
      ⟨name, g, g', e, hg, hnode, he, hgroups, hlog⟩
    · exact ⟨fun a x k hx => by rw [hgroups]; exact h.bound a x k (hlog ▸ hx), hlog ▸ h.same⟩
    · exact h.claim hc hgroups hlog
    · exact h.finish hg hnode he hgroups hlog

/-! ### Main results -/

/-- What every run keeps. -/
structure Safe (s : State) : Prop where
  /-- An experiment is worked on by one lane. -/
  lanes : ∀ n n' l l' name, s.lanes n = some l → s.lanes n' = some l' → l.pc.name? = some name →
    l'.pc.name? = some name → n = n'
  /-- A node has one running experiment. -/
  nodes : ∀ x y gx gy n, s.groups.find? x = some gx → s.groups.find? y = some gy →
    gx.status = .running → gy.status = .running → gx.node = some n → gy.node = some n → x = y
  /-- What a lane works on is running on its node. -/
  works : ∀ n l name, s.lanes n = some l → l.pc.name? = some name →
    ∃ g, s.groups.find? name = some g ∧ g.status = .running ∧ g.node = some n
  /-- One service group is running. -/
  service : ∀ x y gx gy, s.groups.find? x = some gx → s.groups.find? y = some gy →
    serviceGroup x → serviceGroup y → gx.status = .running → gy.status = .running → x = y
  /-- A claim finds no failure of its attempt before it, and nothing that is done. -/
  claims : s.log.Pairwise Respects

theorem Inv.safe (h : Inv cfg s) : Safe s where
  lanes := by
    intro n n' l l' name hl hl' hname hname'
    obtain ⟨g, hg, -, hnode⟩ := h.held n l name hl hname
    obtain ⟨g', hg', -, hnode'⟩ := h.held n' l' name hl' hname'
    obtain rfl := Option.some.inj (hg.symm.trans hg')
    exact Option.some.inj (hnode.symm.trans hnode')
  nodes := h.single
  works := h.held
  service := h.service
  claims := h.log

/-- **The work queue is safe, and keeps the binding while the reviews have the claims.** Every run
is safe. If it is resumed only when every claim is in the review of its node, all claims of an
experiment are of one node. -/
theorem queue_safe (cfg : Config) (as : List Act) (s : State)
    (h : exec (step cfg) (start cfg) as = some s) :
    Safe s ∧ (Along (step cfg) Recorded (start cfg) as → s.log.Pairwise SameNode) := by
  refine ⟨(invariant (I := Inv cfg) inv_step inv_start h).safe, fun hr => ?_⟩
  have hstart : Inv cfg (start cfg) ∧ Bound (start cfg) :=
    ⟨inv_start, by simp [start], List.Pairwise.nil⟩
  refine (invariant_along (I := fun s => Inv cfg s ∧ Bound s) ?_ hstart hr h).2.same
  rintro s a t ⟨hi, hb⟩ hc hs
  exact ⟨inv_step hi hs, bound_step hi hb hc hs⟩

/-- Two experiments on two nodes. -/
def twoNodes : Config := ⟨["restore", "branch-cube"], [1, 2], false⟩

/-- A lane is started, claims, and has measured when it is killed. -/
def measuredOnce : List Act :=
  [.launch 1, .firstSave 1, .claim 1, .begin 1, .save 1, .kill 1, .resume true fun _ => true]

/-- After `measuredOnce` the lane of the same node goes on with the experiment. -/
theorem queue_safe_measuredOnce :
    ∃ s, exec (step twoNodes) (start twoNodes) (measuredOnce ++ [.launch 1, .firstSave 1, .claim 1])
        = some s ∧
      s.log = [.claimed 2 "restore" 1, .claimed 1 "restore" 1] ∧ Safe s ∧
      s.log.Pairwise SameNode := by
  have hrun : (exec (step twoNodes) (start twoNodes)
      (measuredOnce ++ [.launch 1, .firstSave 1, .claim 1])).map (·.log) =
      some [.claimed 2 "restore" 1, .claimed 1 "restore" 1] := by decide +kernel
  obtain ⟨s, hs, hlog⟩ := Option.map_eq_some_iff.mp hrun
  have hsafe := queue_safe twoNodes _ s hs
  exact ⟨s, hs, hlog, hsafe.1, hsafe.2 (by decide +kernel)⟩

/-- **The binding is lost.** The lane of node 1 starts again, saves a review that has the finished
rows only, and is killed. The experiment it has measured is claimed on node 2. -/
theorem binding_lost :
    ∃ s, exec (step twoNodes) (start twoNodes) (measuredOnce ++
        [.launch 1, .firstSave 1, .kill 1, .resume true fun _ => true,
          .launch 2, .firstSave 2, .claim 2]) = some s ∧
      s.log = [.claimed 3 "restore" 2, .claimed 1 "restore" 1] ∧ ¬s.log.Pairwise SameNode := by
  have hrun : (exec (step twoNodes) (start twoNodes) (measuredOnce ++
      [.launch 1, .firstSave 1, .kill 1, .resume true fun _ => true,
        .launch 2, .firstSave 2, .claim 2])).map (·.log) =
      some [.claimed 3 "restore" 2, .claimed 1 "restore" 1] := by decide +kernel
  obtain ⟨s, hs, hlog⟩ := Option.map_eq_some_iff.mp hrun
  refine ⟨s, hs, hlog, ?_⟩
  rw [hlog]
  simp [SameNode]

end Review

end DeltaBox
