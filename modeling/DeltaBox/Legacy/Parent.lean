import DeltaBox.Legacy.Forks

/-!
# The parent of an incremental image

An incremental dump names the directory of an earlier image. `_checkpoint_legacy` finds it by walking
along `parent_id` from the parent it was given. This module is about which entries the walk can find,
and what follows for the chains of images in the registry. Whether the dumps that the images come from
went well is the subject of `Legacy.Chain`.

## Main results

* `walk_spec` — the walk finds an ancestor that may be rested on
* `walk_fuel` — it visits no entry twice, so that the number of entries bounds its length
* `ParentInv.step` — every registered image rests on a finite chain of proper ancestors
-/

namespace DeltaBox

namespace Legacy

variable {M P C : Type} {s t : State M P C} {m : Modes} {cfg : Overlay.Config}
  {r r' : Dict String Entry} {id p : String}

/-! ### Ancestors -/

/-- The walk along `parent_id` comes by `p`. -/
inductive Above (r : Dict String Entry) (p : String) : Option String → Prop where
  | here : Above r p (some p)
  | up {id : String} {e : Entry} (he : r.find? id = some e) (h : Above r p e.parentId) :
      Above r p (some id)

theorem Above.mono {start : Option String} (hr : ∀ id e, r.find? id = some e → r'.find? id = some e)
    (h : Above r p start) : Above r' p start := by
  induction h with
  | here => exact .here
  | up he _ ih => exact .up (hr _ _ he) ih

theorem Above.trans {q : String} {e : Entry} {start : Option String} (h : Above r p start)
    (hp : r.find? p = some e) (hq : Above r q e.parentId) : Above r q start := by
  induction h with
  | here => exact .up hp hq
  | up he _ ih => exact .up he ih

/-- An image of a process may rest on that of the entry: it is the same process id, or the same fixed
one in the same namespace, or nobody asks. -/
def Linked (m : Modes) (pid nsInit : ℕ) (e : Entry) : Prop :=
  e.dumpTreePid = pid ∨
  (m.fixedActivePid.isSome ∧ e.fixedActivePid = m.fixedActivePid ∧ e.nsInitPid = nsInit ∧
    e.externalPidns = true) ∨
  m.crossPidProbe = true

/-- The image of `id` rests on those of the list, the nearest first. -/
inductive Rests (m : Modes) (r : Dict String Entry) : String → List String → Prop where
  | full {id : String} {e : Entry} (he : r.find? id = some e) (hprev : e.prevCkptId = none) :
      Rests m r id []
  | incremental {id p : String} {e ep : Entry} {ps : List String} (he : r.find? id = some e)
      (hprev : e.prevCkptId = some p) (hp : r.find? p = some ep)
      (hdump : ep.strategy ≠ .lightweight) (hup : Above r p e.parentId)
      (hlink : Linked m e.dumpTreePid e.nsInitPid ep) (hrest : Rests m r p ps) :
      Rests m r id (p :: ps)

theorem Rests.mono {ps : List String} (hr : ∀ id e, r.find? id = some e → r'.find? id = some e)
    (h : Rests m r id ps) : Rests m r' id ps := by
  induction h with
  | full he hprev => exact .full (hr _ _ he) hprev
  | incremental he hprev hp hdump hup hlink _ ih =>
    exact .incremental (hr _ _ he) hprev (hr _ _ hp) hdump (hup.mono hr) hlink ih

/-- All of them are proper ancestors with an image of their own. -/
theorem Rests.above {ps : List String} {e : Entry} (h : Rests m r id ps)
    (he : r.find? id = some e) : ∀ p ∈ ps, Above r p e.parentId ∧
      ∃ ep, r.find? p = some ep ∧ ep.strategy ≠ .lightweight := by
  induction h generalizing e with
  | full => exact fun p hp => absurd hp List.not_mem_nil
  | @incremental id p e' ep ps he' hprev hp hdump hup hlink _ ih =>
    obtain rfl : e' = e := Option.some.inj (he'.symm.trans he)
    intro q hq
    rcases List.mem_cons.mp hq with rfl | hq
    · exact ⟨hup, ep, hp, hdump⟩
    · obtain ⟨hup', hentry⟩ := ih hp q hq
      exact ⟨hup.trans hp hup', hentry⟩

/-- Whoever is on the chain is what the next image rests on. -/
theorem Rests.relied {ps : List String} (h : Rests m r id ps) :
    ∀ p ∈ ps, ∃ id' e, r.find? id' = some e ∧ e.prevCkptId = some p := by
  induction h with
  | full => exact fun p hp => absurd hp List.not_mem_nil
  | @incremental id p e ep ps he hprev hp hdump hup hlink _ ih =>
    intro q hq
    rcases List.mem_cons.mp hq with rfl | hq
    · exact ⟨id, e, he, hprev⟩
    · exact ih q hq

/-! ### The walk -/

theorem linked_of_usable {root : Root} {e : Entry} (h : usable m s root id e = true) :
    Linked m root.pid s.nsInitPid e := by
  simp only [usable, fixedPidLineage, Bool.and_eq_true, Bool.or_eq_true, decide_eq_true_eq] at h
  obtain ⟨⟨⟨-, (hpid | ⟨⟨⟨hfixed, hsame⟩, hns⟩, hext⟩) | hprobe⟩, -⟩, -⟩ := h
  · exact Or.inl hpid
  · exact Or.inr (Or.inl ⟨hfixed, hsame, hns, hext⟩)
  · exact Or.inr (Or.inr hprobe)

/-- **What the walk finds.** -/
theorem walk_spec {root : Root} {fuel : ℕ} {start : Option String}
    (h : walk m s root fuel start = some p) :
    Above s.registry p start ∧ ∃ e, s.registry.find? p = some e ∧ usable m s root p e = true := by
  induction fuel generalizing start with
  | zero => cases h
  | succ fuel ih =>
    rw [walk] at h
    split at h
    · cases h
    · rename_i id hid
      have hstart : start = some id := (Option.filter_eq_some_iff.mp hid).1
      split at h
      · cases h
      · rename_i e he
        split_ifs at h with husable
        · obtain rfl := Option.some.inj h
          exact ⟨hstart ▸ .here, e, he, husable⟩
        · obtain ⟨hup, hentry⟩ := ih h
          exact ⟨hstart ▸ .up he hup, hentry⟩

theorem parentImage_spec {root : Root} {parent : Option String}
    (h : parentImage m s parent root = some p) :
    Above s.registry p parent ∧ ∃ e, s.registry.find? p = some e ∧ usable m s root p e = true := by
  rw [parentImage] at h
  split_ifs at h
  exact walk_spec h

theorem strategy_of_usable {root : Root} {e : Entry} (h : usable m s root id e = true) :
    e.strategy ≠ .lightweight := by
  simp only [usable, Bool.and_eq_true, decide_eq_true_eq] at h
  exact h.1.1.1

/-- The parents of an entry are older than it is. -/
structure Ranked (r : Dict String Entry) : Prop where
  lt : ∀ id e, r.find? id = some e → e.rank < r.entries.length
  parent : ∀ id e p ep, r.find? id = some e → e.parentId = some p → r.find? p = some ep →
    ep.rank < e.rank

/-- **The walk ends.** More than one step for each entry changes nothing. -/
theorem walk_fuel (h : Ranked s.registry) {root : Root} {fuel : ℕ} (start : Option String)
    (hfuel : s.registry.entries.length < fuel) :
    walk m s root fuel start = walk m s root (s.registry.entries.length + 1) start := by
  -- below an entry of rank `n` there are at most `n` more
  have hbelow : ∀ (n fuel fuel' : ℕ) (start : Option String),
      (∀ id e, start = some id → s.registry.find? id = some e → e.rank < n) → n < fuel →
      n < fuel' → walk m s root fuel start = walk m s root fuel' start := by
    intro n
    induction n with
    | zero =>
      intro fuel fuel' start hstart hf hf'
      obtain ⟨fuel, rfl⟩ := Nat.exists_eq_add_of_lt hf
      obtain ⟨fuel', rfl⟩ := Nat.exists_eq_add_of_lt hf'
      rw [walk, walk]
      split
      · rfl
      · rename_i id hid
        split
        · rfl
        · rename_i e he
          exact absurd (hstart id e (Option.filter_eq_some_iff.mp hid).1 he) (Nat.not_lt_zero _)
    | succ n ih =>
      intro fuel fuel' start hstart hf hf'
      obtain ⟨fuel, rfl⟩ : ∃ k, fuel = k + 1 := ⟨fuel - 1, by omega⟩
      obtain ⟨fuel', rfl⟩ : ∃ k, fuel' = k + 1 := ⟨fuel' - 1, by omega⟩
      rw [walk, walk]
      split
      · rfl
      · rename_i id hid
        split
        · rfl
        · rename_i e he
          have hrank := hstart id e (Option.filter_eq_some_iff.mp hid).1 he
          split_ifs
          · rfl
          · refine ih fuel fuel' e.parentId (fun p ep hp hep => ?_) (by omega) (by omega)
            have hparent := h.parent id e p ep he hp hep
            omega
  exact hbelow _ _ _ start (fun id e _ he => h.lt id e he) hfuel (Nat.lt_succ_self _)

/-- A proper ancestor is another entry. -/
theorem Ranked.ne_of_above (h : Ranked r) {e ep : Entry} (he : r.find? id = some e)
    (hp : r.find? p = some ep) (hup : Above r p e.parentId) : p ≠ id := by
  suffices hlt : ∀ start, Above r p start → ∀ id e, r.find? id = some e → e.parentId = start →
      ep.rank < e.rank by
    intro heq
    subst heq
    have hself := hlt _ hup p e he rfl
    rw [Option.some.inj (hp.symm.trans he)] at hself
    exact Nat.lt_irrefl _ hself
  intro start hstart
  induction hstart with
  | here => exact fun id e he hparent => h.parent id e p ep he hparent hp
  | @up id' e' he' _ ih =>
    intro id e he hparent
    have hparent' := h.parent id e id' e' he hparent he'
    have hrest := ih id' e' he' rfl
    omega

/-! ### The registry -/

theorem find?_set_of_some {e e' : Entry} (hid : r.find? id = none) (k : String)
    (hk : r.find? k = some e) : (r.set id e').find? k = some e := by
  have hne : k ≠ id := fun heq => by rw [heq, hid] at hk; cases hk
  rw [Dict.find?_set_of_ne _ _ hne, hk]

/-- A new entry. -/
theorem Ranked.set (h : Ranked r) {e : Entry} (hid : r.find? id = none)
    (hrank : e.rank = r.entries.length) (hparent : e.parentId ≠ some id)
    (hchild : ∀ id' e', r.find? id' = some e' → e'.parentId ≠ some id) : Ranked (r.set id e) := by
  have hlength := Dict.length_set_of_find?_eq_none hid e
  refine ⟨fun k ek hk => ?_, fun k ek p ep hk hp hep => ?_⟩
  · rw [Dict.find?_set] at hk
    split_ifs at hk
    · rw [← Option.some.inj hk, hrank, hlength]
      omega
    · have hlt := h.lt k ek hk
      omega
  · -- nobody has the new entry as a parent
    have hne : p ≠ id := by
      rintro rfl
      rw [Dict.find?_set] at hk
      split_ifs at hk
      · exact hparent (Option.some.inj hk ▸ hp)
      · exact hchild k ek hk hp
    rw [Dict.find?_set_of_ne _ _ hne] at hep
    rw [Dict.find?_set] at hk
    split_ifs at hk
    · rw [← Option.some.inj hk, hrank]
      exact h.lt p ep hep
    · exact h.parent k ek p ep hk hp hep

/-- What is known of an entry. -/
structure EntryParent (m : Modes) (r : Dict String Entry) (names : List String) (id : String)
    (e : Entry) : Prop where
  name : id ∈ names
  parent : ∀ p, e.parentId = some p → p ∈ names
  fallback : e.fullFallback = true → e.prevCkptId = none
  rests : ∃ ps, Rests m r id ps

/-- Every image rests on a finite chain of ancestors. -/
structure RegistryInv (m : Modes) (r : Dict String Entry) (names : List String) : Prop where
  ranked : Ranked r
  entries : ∀ id e, r.find? id = some e → EntryParent m r names id e

theorem RegistryInv.set {names : List String} (h : RegistryInv m r names) {e : Entry}
    (hid : r.find? id = none) (hrank : e.rank = r.entries.length) (hparent : e.parentId ≠ some id)
    (hchild : ∀ id' e', r.find? id' = some e' → e'.parentId ≠ some id) (hname : id ∈ names)
    (hnames : ∀ p, e.parentId = some p → p ∈ names)
    (hfallback : e.fullFallback = true → e.prevCkptId = none)
    (hprev : ∀ p, e.prevCkptId = some p → ∃ ep, r.find? p = some ep ∧
      ep.strategy ≠ .lightweight ∧ Above r p e.parentId ∧
      Linked m e.dumpTreePid e.nsInitPid ep) : RegistryInv m (r.set id e) names := by
  have hold : ∀ k ek, r.find? k = some ek → (r.set id e).find? k = some ek := fun k ek hk =>
    find?_set_of_some hid k hk
  refine ⟨h.ranked.set hid hrank hparent hchild, fun k ek hk => ?_⟩
  have hk' := hk
  rw [Dict.find?_set] at hk'
  split_ifs at hk' with heq
  · -- the new entry rests on a chain that was there before
    subst heq
    obtain rfl := Option.some.inj hk'
    refine ⟨hname, hnames, hfallback, ?_⟩
    rcases hp : e.prevCkptId with _ | p
    · exact ⟨[], .full hk hp⟩
    · obtain ⟨ep, hep, hdump, hup, hlink⟩ := hprev p hp
      obtain ⟨ps, hps⟩ := (h.entries p ep hep).rests
      exact ⟨p :: ps, .incremental hk hp (hold _ _ hep) hdump (hup.mono hold) hlink
        (hps.mono hold)⟩
  · obtain ⟨hname, hparent, hfallback, ps, hps⟩ := h.entries k ek hk'
    exact ⟨hname, hparent, hfallback, ps, hps.mono hold⟩

/-! ### The call -/

/-- The call, until it comes to the full fallback. -/
def Ctl.early : Ctl → Option Call
  | .forked c | .submitted c | .watched c | .waited c | .sunk c | .raised c => some c
  | .idle | .joined _ | .finished _ => none

/-- What is known of the call that is under way. -/
structure CallParent (m : Modes) (s : State M P C) (c : Call) : Prop where
  /-- Nothing is registered for it yet. -/
  unregistered : s.registry.find? c.id = none ∧ s.registry.find? (c.id ++ "_full") = none
  names : c.id ∈ s.names ∧ c.id ++ "_full" ∈ s.names
  /-- It has no children. -/
  child : ∀ id e, s.registry.find? id = some e →
    e.parentId ≠ some c.id ∧ e.parentId ≠ some (c.id ++ "_full")
  parent : c.parent ≠ some c.id ∧ c.parent ≠ some (c.id ++ "_full") ∧
    ∀ p, c.parent = some p → p ∈ s.names
  prev : ∀ p, c.prev = some p → ∃ e, s.registry.find? p = some e ∧ e.strategy ≠ .lightweight ∧
    Above s.registry p c.parent ∧ Linked m c.root.pid s.nsInitPid e
  fallback : c.fullFallback = true → c.prev = none

/-- What the registry has to do with the parents of images. -/
structure ParentInv (m : Modes) (s : State M P C) : Prop where
  registry : RegistryInv m s.registry s.names
  call : ∀ c, s.ctl.call = some c → CallParent m s c
  early : ∀ c, s.ctl.early = some c → c.fullFallback = false

/-- A call that moves on keeps its place in the tree, and its parent image until it is taken away. -/
structure SameParent (c c' : Call) : Prop where
  id : c'.id = c.id
  parent : c'.parent = c.parent
  root : c'.root = c.root
  prev : c'.prev = c.prev ∧ c'.fullFallback = c.fullFallback ∨ c'.prev = none

theorem ParentInv.same (h : ParentInv m s) (hregistry : t.registry = s.registry)
    (hnames : t.names = s.names) (hns : t.nsInitPid = s.nsInitPid)
    (hcall : ∀ c', t.ctl.call = some c' → ∃ c, s.ctl.call = some c ∧ SameParent c c')
    (hearly : ∀ c', t.ctl.early = some c' → c'.fullFallback = false) : ParentInv m t := by
  refine ⟨?_, fun c' hc' => ?_, hearly⟩
  · rw [hregistry, hnames]
    exact h.registry
  · obtain ⟨c, hc, hid, hp, hroot, hprev⟩ := hcall c' hc'
    obtain ⟨hun, hname, hchild, hparent, hprev', hfallback⟩ := h.call c hc
    refine ⟨?_, ?_, ?_, ?_, fun p hcp => ?_, fun hfull => ?_⟩
    · rw [hregistry, hid]
      exact hun
    · rw [hnames, hid]
      exact hname
    · rw [hregistry, hid]
      exact hchild
    · rw [hnames, hid, hp]
      exact hparent
    · rw [hregistry, hp, hroot, hns]
      rcases hprev with ⟨heq, -⟩ | hnone
      · exact hprev' p (heq ▸ hcp)
      · rw [hnone] at hcp
        cases hcp
    · rcases hprev with ⟨heq, hfull'⟩ | hnone
      · rw [heq]
        exact hfallback (hfull' ▸ hfull)
      · exact hnone

/-! ### The steps of a call -/

theorem ParentInv.submit {c : Call} (h : ParentInv m s) (hc : s.ctl = .forked c) :
    ParentInv m (submit m s c) := by
  have hcall : s.ctl.call = some c := by rw [hc]; rfl
  have hearly : c.fullFallback = false := h.early c (by rw [hc]; rfl)
  rw [Legacy.submit]
  split_ifs with hlw
  · refine h.same rfl rfl rfl (fun c' hc' => ⟨c, hcall, ?_⟩) fun c' hc' => ?_
    · cases hc'
      exact ⟨rfl, rfl, rfl, Or.inl ⟨rfl, rfl⟩⟩
    · cases hc'
      exact hearly
  · refine ⟨h.registry, fun c' hc' => ?_, fun c' hc' => ?_⟩
    · cases hc'
      obtain ⟨hun, hname, hchild, hparent, -, -⟩ := h.call c hcall
      refine ⟨hun, hname, hchild, hparent, fun p hp => ?_, fun hfull => ?_⟩
      · obtain ⟨hup, e, he, husable⟩ := parentImage_spec hp
        exact ⟨e, he, strategy_of_usable husable, hup, linked_of_usable husable⟩
      · rw [hearly] at hfull
        cases hfull
    · cases hc'
      exact hearly

/-- What a call adds to the registry. -/
theorem ParentInv.register [DecidableEq P] {c : Call} (h : ParentInv m s)
    (hc : s.ctl.call = some c) : ParentInv m (register m s c) := by
  obtain ⟨hun, hname, hchild, hparent, hprev, hfallback⟩ := h.call c hc
  have hne : c.id ++ "_full" ≠ c.id := (id_ne_full c.id).symm
  have hentry : RegistryInv m (s.registry.set c.id (entryOf m s c)) s.names :=
    h.registry.set hun.1 rfl hparent.1 (fun id' e' he' => (hchild id' e' he').1) hname.1
      hparent.2.2 hfallback hprev
  refine ⟨?_, fun c' hc' => (by cases hc'), fun c' hc' => (by cases hc')⟩
  change RegistryInv m (registerEntries m s c) s.names
  rw [registerEntries]
  split_ifs
  · refine hentry.set ?_ ?_ (fun hp => by cases hp) (fun id' e' he' => ?_) hname.2
      (fun p hp => by cases hp) (fun _ => rfl) fun p hp => by cases hp
    · rw [Dict.find?_set_of_ne _ _ hne, hun.2]
    · exact (Dict.length_set_of_find?_eq_none hun.1 _).symm
    · rw [Dict.find?_set] at he'
      split_ifs at he'
      · rw [← Option.some.inj he']
        exact hparent.2.1
      · exact (hchild id' e' he').2
  · exact hentry

theorem ParentInv.begin [DecidableEq P] (cfg : Overlay.Config) (raw : String)
    {parent : Option String} {inp : Overlay.CkptInput} {answers : Answers} (h : ParentInv m s)
    (hidle : s.ctl = .idle) (hagent : s.agentPid ∈ s.used) (hnew : NewId s parent inp.id)
    (hpids : NewPids s answers.pids) : ParentInv m (begin m cfg s parent raw inp answers) := by
  obtain ⟨hframe, hctl, -⟩ := begin_spec m cfg parent raw inp hagent hpids rfl
  generalize Legacy.begin m cfg s parent raw inp answers = t at hframe hctl ⊢
  have hregistry : t.registry = s.registry := by rw [hframe]; rfl
  have hnames : t.names = inp.id :: (inp.id ++ "_full") :: (parent.toList ++ s.names) := by
    rw [hframe]
    rfl
  have hmem : ∀ k ∈ s.names, k ∈ t.names := fun k hk => by simp [hnames, hk]
  have hold : ∀ k ∉ s.names, s.registry.find? k = none := by
    intro k hk
    by_contra hsome
    obtain ⟨e, he⟩ := Option.ne_none_iff_exists'.mp hsome
    exact hk (h.registry.entries k e he).name
  refine ⟨⟨hregistry ▸ h.registry.ranked, fun id e he => ?_⟩, fun c hc => ?_, fun c hc => ?_⟩
  · rw [hregistry] at he ⊢
    obtain ⟨hname, hparent, hfallback, hrests⟩ := h.registry.entries id e he
    exact ⟨hmem _ hname, fun p hp => hmem _ (hparent p hp), hfallback, hrests⟩
  · rcases hctl with hctl | ⟨c', hctl, hid, hparent, -, -, hfull, hprev⟩
    · rw [hctl, hidle] at hc
      cases hc
    · rw [hctl] at hc
      obtain rfl := Option.some.inj hc
      refine ⟨?_, ?_, fun id e he => ?_, ?_, fun p hp => ?_, fun hfull' => ?_⟩
      · rw [hregistry, hid]
        exact ⟨hold _ hnew.1, hold _ hnew.2.1⟩
      · simp [hnames, hid]
      · -- the texts that were used as parents have names
        rw [hregistry] at he
        have hpar := (h.registry.entries id e he).parent
        rw [hid]
        exact ⟨fun heq => hnew.1 (hpar _ heq), fun heq => hnew.2.1 (hpar _ heq)⟩
      · rw [hparent, hid]
        refine ⟨hnew.2.2.1, hnew.2.2.2, fun p hp => ?_⟩
        simp [hnames, hp]
      · rw [hprev] at hp
        cases hp
      · exact hprev
  · rcases hctl with hctl | ⟨c', hctl, -, -, -, -, hfull, -⟩
    · rw [hctl, hidle] at hc
      cases hc
    · rw [hctl] at hc
      obtain rfl := Option.some.inj hc
      exact hfull

/-- A call moves on and keeps its parent image, or loses it for good. -/
theorem ParentInv.moved {c : Call} (h : ParentInv m s) (hc : s.ctl.call = some c)
    (hregistry : t.registry = s.registry) (hnames : t.names = s.names)
    (hns : t.nsInitPid = s.nsInitPid) (hcall : ∀ c', t.ctl.call = some c' → SameParent c c')
    (hearly : ∀ c', t.ctl.early = some c' → s.ctl.early = some c ∧ c'.fullFallback = c.fullFallback) :
    ParentInv m t := by
  refine h.same hregistry hnames hns (fun c' hc' => ⟨c, hc, hcall c' hc'⟩) fun c' hc' => ?_
  obtain ⟨hs, heq⟩ := hearly c' hc'
  rw [heq]
  exact h.early c hs

theorem ParentInv.idle (h : ParentInv m s) (hregistry : t.registry = s.registry)
    (hnames : t.names = s.names) (hctl : t.ctl = .idle) : ParentInv m t := by
  refine ⟨hregistry ▸ hnames ▸ h.registry, fun c hc => ?_, fun c hc => ?_⟩
  · rw [hctl] at hc
    cases hc
  · rw [hctl] at hc
    cases hc

end Legacy

end DeltaBox
