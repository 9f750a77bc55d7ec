import DeltaBox.Overlay.Sandbox

/-!
# What the two entry points do to the registry

The registry side of a checkpoint can be told without looking at a single directory. A call that
raises leaves the registry as it was, and a call that returns adds its entry, possibly with a
validation twin. Nothing here assumes that a fault did not happen.

A lightweight entry has no image of its own: a restore of it is redirected to its effective entry
and mounts *that* entry's layers. `Redirects` says that the redirection loses nothing. It is kept by
every checkpoint except the lightweight ones that sink a layer or have no registered parent.

## Main results

* `checkpointAction_registered` — what a checkpoint that returns has registered
* `Guarded.redirects_step` — a guarded step keeps `Redirects`
-/

namespace DeltaBox

namespace Overlay

variable {P C : Type*}

/-- The strategy a call's entry is registered under. -/
def callStrategy (cfg : Config) (raw : String) (inp : CkptInput) : Strategy :=
  if cfg.asyncIncremental then if raw = "lightweight" then .lightweight else .standard
  else chooseStrategy cfg raw inp.hot

/-- `r` is `reg` with the entry `e`, and possibly its twin, added. -/
structure Registered (reg : Dict String Entry) (id : String) (e : Entry) (r : Dict String Entry) :
    Prop where
  /-- The entry is there. -/
  self : r.find? id = some e
  /-- Nothing was overwritten. -/
  keep : ∀ k e', reg.find? k = some e' → r.find? k = some e'
  /-- Nothing but the entry and its twin was added. -/
  only : ∀ k e', r.find? k = some e' → (k = id ∧ e' = e) ∨
    (k = id ++ "_full" ∧ e'.layers = e.layers ∧ e'.strategy = .validationFullTwin ∧
      e'.effectiveRestoreId = none ∧ e'.exactParent = e.exactParent) ∨ reg.find? k = some e'

private theorem append_full_ne (id : String) : id ++ "_full" ≠ id := fun h => by
  have := congrArg (List.length ∘ String.toList) h
  simp at this

/-- A fresh identifier overwrites nothing. -/
theorem registered_set {reg : Dict String Entry} {id : String} {e : Entry}
    (hid : reg.find? id = none) : Registered reg id e (reg.set id e) where
  self := Dict.find?_set_self ..
  keep := by
    intro k e' hk
    have hne : k ≠ id := fun h => by rw [h, hid] at hk; cases hk
    rw [Dict.find?_set_of_ne _ _ hne, hk]
  only := by
    intro k e' hk
    rw [Dict.find?_set] at hk
    split_ifs at hk with h
    · exact Or.inl ⟨h, (Option.some.inj hk).symm⟩
    · exact Or.inr (Or.inr hk)

theorem registered_register {s : State P C} {inp : CkptInput} {e : Entry}
    (hid : s.registry.find? inp.id = none) (hfull : s.registry.find? (inp.id ++ "_full") = none) :
    Registered s.registry inp.id e (register s inp e).registry := by
  have hset := registered_set (e := e) hid
  rw [register]
  split_ifs with htwin
  · have hne := append_full_ne inp.id
    refine ⟨?_, ?_, ?_⟩
    · rw [Dict.find?_set_of_ne _ _ hne.symm]
      exact hset.self
    · intro k e' hk
      have hk' : k ≠ inp.id ++ "_full" := fun h => by rw [h, hfull] at hk; cases hk
      rw [Dict.find?_set_of_ne _ _ hk']
      exact hset.keep k e' hk
    · intro k e' hk
      rw [Dict.find?_set] at hk
      split_ifs at hk with h
      · obtain rfl := Option.some.inj hk
        exact Or.inr (Or.inl ⟨h, rfl, rfl, rfl, rfl⟩)
      · exact hset.only k e' hk
  · exact hset

/-! ### Checkpoints -/

section

variable {cfg : Config} {s s' : State P C} {parent : Option String} {raw : String}
  {inp : CkptInput} {layers : List String} {e : Entry}

@[simp] theorem sinkLegacy_registry (cfg : Config) (s : State P C) (layers : List String)
    (inp : CkptInput) : (sinkLegacy cfg s layers inp).1.registry = s.registry := by
  rw [sinkLegacy]
  split
  · split
    · rfl
    · dsimp only
      split <;> rfl
  · rfl

@[simp] theorem sink_registry (cfg : Config) (s : State P C) (layers : List String)
    (inp : CkptInput) : (sink cfg s layers inp).1.registry = s.registry := by
  rw [sink]
  split
  · rfl
  · split
    · rfl
    · split
      · dsimp only
        split
        · rfl
        · split <;> rfl
      · rfl

/-- A clean upper is not sunk, so the parent's layers are recorded. -/
theorem sinkLegacy_of_clean (h : isUpperDirty s inp.scanOk = false) :
    sinkLegacy cfg s layers inp = (s, some layers) := by
  simp [sinkLegacy, h]

theorem effectiveOf_congr (h : s'.registry = s.registry) :
    effectiveOf s' parent = effectiveOf s parent := by
  rw [effectiveOf, effectiveOf, h]

/-- **Every way `_checkpoint_legacy` can end.** -/
theorem checkpointLegacy_cases (cfg : Config) (s : State P C) (parent : Option String)
    (strategy : Strategy) (inp : CkptInput) :
    (inp.fault = some .before ∧ checkpointLegacy cfg s parent strategy inp = (s, none)) ∨
    (∃ s₁ o, sinkLegacy cfg s (parentLayers cfg s parent) inp = (s₁, o) ∧
      (o = none ∨ inp.fault = some .after) ∧
        checkpointLegacy cfg s parent strategy inp = (s₁, none)) ∨
    (∃ s₁ layers, sinkLegacy cfg s (parentLayers cfg s parent) inp = (s₁, some layers) ∧
      checkpointLegacy cfg s parent strategy inp =
        (register s₁ inp (legacyEntry s₁ parent strategy layers (isUpperDirty s inp.scanOk)),
          some (legacyEntry s₁ parent strategy layers (isUpperDirty s inp.scanOk)))) := by
  by_cases hb : inp.fault = some .before
  · exact Or.inl ⟨hb, by simp [checkpointLegacy, hb]⟩
  rcases hsink : sinkLegacy cfg s (parentLayers cfg s parent) inp with ⟨s₁, _ | layers⟩
  · exact Or.inr (Or.inl ⟨s₁, none, rfl, Or.inl rfl, by simp [checkpointLegacy, hb, hsink]⟩)
  by_cases ha : inp.fault = some .after
  · exact Or.inr (Or.inl ⟨s₁, _, rfl, Or.inr ha, by simp [checkpointLegacy, hsink, ha]⟩)
  · exact Or.inr (Or.inr ⟨s₁, layers, rfl, by simp [checkpointLegacy, hb, hsink, ha]⟩)

/-- **Every way `AsyncIncrementalCheckpoint.checkpoint` can end.** -/
theorem asyncCheckpoint_cases (cfg : Config) (s : State P C) (parent : Option String)
    (raw : String) (inp : CkptInput) :
    asyncCheckpoint cfg s parent raw inp = (s, none) ∨
    (raw = "lightweight" ∧
      asyncCheckpoint cfg s parent raw inp = checkpointLegacy cfg s parent .lightweight inp) ∨
    (inp.fault = some .before ∧
      asyncCheckpoint cfg s parent raw inp = ({ s with asyncFailed := true }, none)) ∨
    (∃ s₁ o, sink cfg s (parentLayers cfg s parent) inp = (s₁, o) ∧
      (o = none ∨ inp.fault = some .after) ∧
        asyncCheckpoint cfg s parent raw inp = ({ s₁ with asyncFailed := true }, none)) ∨
    (raw ≠ "lightweight" ∧ ∃ s₁ layers dirty,
      sink cfg s (parentLayers cfg s parent) inp = (s₁, some (layers, dirty)) ∧
      asyncCheckpoint cfg s parent raw inp =
        ({ s₁ with registry := s₁.registry.set inp.id (asyncEntry parent layers dirty) },
          some (asyncEntry parent layers dirty))) := by
  by_cases hf : s.asyncFailed || raw = "predump"
  · exact Or.inl (by simp [asyncCheckpoint, hf])
  rcases hp : asyncParent s parent with _ | physical
  · exact Or.inl (by simp [asyncCheckpoint, hp])
  by_cases hlw : raw = "lightweight"
  · by_cases hn : physical.isNone
    · exact Or.inl (by simp_all [asyncCheckpoint])
    · exact Or.inr (Or.inl ⟨hlw, by simp_all [asyncCheckpoint]⟩)
  by_cases hb : inp.fault = some .before
  · exact Or.inr (Or.inr (Or.inl ⟨hb, by simp_all [asyncCheckpoint]⟩))
  rcases hsink : sink cfg s (parentLayers cfg s parent) inp with ⟨s₁, _ | ⟨layers, dirty⟩⟩
  · refine Or.inr (Or.inr (Or.inr (Or.inl ⟨s₁, none, rfl, Or.inl rfl, ?_⟩)))
    simp only [asyncCheckpoint, hf, hp, hlw, hb, hsink, if_false]
    rfl
  by_cases ha : inp.fault = some .after
  · refine Or.inr (Or.inr (Or.inr (Or.inl ⟨s₁, _, rfl, Or.inr ha, ?_⟩)))
    simp only [asyncCheckpoint, hf, hp, hlw, hb, hsink, if_false, if_pos ha]
    rfl
  · refine Or.inr (Or.inr (Or.inr (Or.inr ⟨hlw, s₁, layers, dirty, rfl, ?_⟩)))
    simp only [asyncCheckpoint, hf, hp, hlw, hb, hsink, if_false, ha]
    rfl

/-- What the entry of a returning call looks like, as far as restores are concerned. -/
structure EntryOf (cfg : Config) (s : State P C) (parent : Option String) (st : Strategy)
    (inp : CkptInput) (e : Entry) : Prop where
  /-- Its strategy. -/
  strategy : e.strategy = st
  /-- Entries with an image of their own are not redirected. -/
  direct : st ≠ .lightweight → e.effectiveRestoreId = none
  /-- Lightweight ones are. -/
  redirect : st = .lightweight → e.effectiveRestoreId = some (effectiveOf s parent)
  /-- And record their parent's layers when the upper was clean. -/
  clean : st = .lightweight → isUpperDirty s inp.scanOk = false →
    e.layers = parentLayers cfg s parent

theorem checkpointLegacy_registered {strategy : Strategy} (hfresh : FreshId cfg s inp.id)
    (h : checkpointLegacy cfg s parent strategy inp = (s', some e)) :
    Registered s.registry inp.id e s'.registry ∧ EntryOf cfg s parent strategy inp e := by
  obtain ⟨-, hc⟩ | ⟨s₁, o, -, -, hc⟩ | ⟨s₁, layers, hsink, hc⟩ :=
    checkpointLegacy_cases cfg s parent strategy inp
  · rw [hc] at h
    cases h
  · rw [hc] at h
    cases h
  have hreg : s₁.registry = s.registry := by
    have := sinkLegacy_registry cfg s (parentLayers cfg s parent) inp
    rwa [hsink] at this
  rw [hc] at h
  obtain ⟨rfl, he⟩ := Prod.mk.inj h
  obtain rfl := Option.some.inj he
  constructor
  · rw [← hreg]
    exact registered_register (by rw [hreg]; exact hfresh.2.1) (by rw [hreg]; exact hfresh.2.2.1)
  · refine ⟨rfl, fun hs => by simp [legacyEntry, hs], fun hs => ?_, fun _ hclean => ?_⟩
    · simp [legacyEntry, hs, effectiveOf_congr hreg]
    · rw [sinkLegacy_of_clean hclean] at hsink
      exact (Option.some.inj (Prod.mk.inj hsink).2).symm

theorem checkpointLegacy_registry_of_raised {strategy : Strategy}
    (h : checkpointLegacy cfg s parent strategy inp = (s', none)) : s'.registry = s.registry := by
  have hreg := sinkLegacy_registry cfg s (parentLayers cfg s parent) inp
  obtain ⟨-, hc⟩ | ⟨s₁, o, hsink, -, hc⟩ | ⟨s₁, layers, -, hc⟩ :=
    checkpointLegacy_cases cfg s parent strategy inp
  · rw [hc] at h
    exact (Prod.mk.inj h).1 ▸ rfl
  · rw [hc] at h
    rw [hsink] at hreg
    exact (Prod.mk.inj h).1 ▸ hreg
  · rw [hc] at h
    cases (Prod.mk.inj h).2

/-- **What a checkpoint that returns has registered.** -/
theorem checkpointAction_registered (hfresh : FreshId cfg s inp.id)
    (h : checkpointAction cfg s parent raw inp = (s', some e)) :
    Registered s.registry inp.id e s'.registry ∧
      EntryOf cfg s parent (callStrategy cfg raw inp) inp e := by
  rw [checkpointAction] at h
  rw [callStrategy]
  split_ifs at h ⊢ with hasync hlw
  · -- the asynchronous path hands a lightweight call to the legacy one
    obtain hc | ⟨-, hc⟩ | ⟨-, hc⟩ | ⟨s₁, o, -, -, hc⟩ | ⟨hraw, -⟩ :=
      asyncCheckpoint_cases cfg s parent raw inp
    · rw [hc] at h
      cases h
    · rw [hc] at h
      exact checkpointLegacy_registered hfresh h
    · rw [hc] at h
      cases h
    · rw [hc] at h
      cases h
    · exact absurd hlw hraw
  · obtain hc | ⟨hraw, -⟩ | ⟨-, hc⟩ | ⟨s₁, o, -, -, hc⟩ | ⟨-, s₁, layers, dirty, hsink, hc⟩ :=
      asyncCheckpoint_cases cfg s parent raw inp
    · rw [hc] at h
      cases h
    · exact absurd hraw hlw
    · rw [hc] at h
      cases h
    · rw [hc] at h
      cases h
    · have hreg := sink_registry cfg s (parentLayers cfg s parent) inp
      rw [hsink] at hreg
      rw [hc] at h
      obtain ⟨rfl, he⟩ := Prod.mk.inj h
      obtain rfl := Option.some.inj he
      refine ⟨?_, rfl, fun _ => rfl, fun hs => ?_, fun hs => ?_⟩
      · rw [← hreg]
        exact registered_set (by rw [hreg]; exact hfresh.2.1)
      · cases hs
      · cases hs
  · exact checkpointLegacy_registered hfresh h

/-- A checkpoint that raises leaves the registry as it was. -/
theorem checkpointAction_registry_of_raised
    (h : checkpointAction cfg s parent raw inp = (s', none)) : s'.registry = s.registry := by
  rw [checkpointAction] at h
  split_ifs at h with hasync
  · have hreg := sink_registry cfg s (parentLayers cfg s parent) inp
    obtain hc | ⟨-, hc⟩ | ⟨-, hc⟩ | ⟨s₁, o, hsink, -, hc⟩ | ⟨-, s₁, layers, dirty, -, hc⟩ :=
      asyncCheckpoint_cases cfg s parent raw inp
    all_goals rw [hc] at h
    · exact (Prod.mk.inj h).1 ▸ rfl
    · exact checkpointLegacy_registry_of_raised h
    · exact (Prod.mk.inj h).1 ▸ rfl
    · rw [hsink] at hreg
      exact (Prod.mk.inj h).1 ▸ hreg
    · cases (Prod.mk.inj h).2
  · exact checkpointLegacy_registry_of_raised h

end

/-- A restore never touches the registry. -/
@[simp] theorem restoreAction_registry (cfg : Config) (s : State P C) (target rid : String)
    (fault : Option Fault) : (restoreAction cfg s target rid fault).1.registry = s.registry := by
  rw [restoreAction]
  split
  · rfl
  · split
    · rfl
    · dsimp only
      split <;> rfl

/-! ### Redirection -/

/-- Every entry is redirected to one with the same layers. -/
def Redirects (s : State P C) : Prop :=
  ∀ id e, s.registry.find? id = some e → id ≠ "" ∧
    (e.strategy = .lightweight → e.effectiveRestoreId ≠ none) ∧
      ∃ f, physicalTarget s id = some f ∧ f.layers = e.layers

theorem physicalTarget_eq_some {s : State P C} {target : String} {f : Entry} :
    physicalTarget s target = some f ↔
      ∃ e k, s.registry.find? target = some e ∧ e.effectiveRestoreId.getD (some target) = some k ∧
        s.registry.find? k = some f := by
  simp [physicalTarget, Option.bind_eq_some_iff]

theorem physicalTarget_of_direct {s : State P C} {target : String} {e : Entry}
    (he : s.registry.find? target = some e) (hd : e.effectiveRestoreId = none) :
    physicalTarget s target = some e :=
  physicalTarget_eq_some.mpr ⟨e, target, he, by rw [hd]; rfl, he⟩

/-- Adding an entry redirects no old one elsewhere. -/
theorem Registered.physicalTarget {s s' : State P C} {id target : String} {e f : Entry}
    (h : Registered s.registry id e s'.registry) (hf : physicalTarget s target = some f) :
    physicalTarget s' target = some f := by
  obtain ⟨e', k, he', hk, hkf⟩ := physicalTarget_eq_some.mp hf
  exact physicalTarget_eq_some.mpr ⟨e', k, h.keep _ _ he', hk, h.keep _ _ hkf⟩

/-- A lightweight checkpoint is guarded when its parent is registered and the current upper is
clean, so that nothing is sunk. -/
def Guarded (cfg : Config) (t : Traced P C) : Action P C → Prop
  | .checkpoint parent raw inp => callStrategy cfg raw inp = .lightweight →
      (parent.bind t.sb.registry.find?).isSome ∧ isUpperDirty t.sb inp.scanOk = false
  | _ => True

instance (cfg : Config) (t : Traced P C) : ∀ a, Decidable (Guarded cfg t a)
  | .write .. => isTrue trivial
  | .remove .. => isTrue trivial
  | .checkpoint .. => inferInstanceAs (Decidable (_ → _ ∧ _))
  | .restore .. => isTrue trivial

/-- A guarded checkpoint that returns keeps every redirection exact. -/
theorem Redirects.registered {cfg : Config} {s s' : State P C} {parent : Option String}
    {strategy : Strategy} {inp : CkptInput} {e : Entry} (h : Redirects s)
    (hfresh : FreshId cfg s inp.id) (hreg : Registered s.registry inp.id e s'.registry)
    (hentry : EntryOf cfg s parent strategy inp e)
    (hguard : strategy = .lightweight →
      (parent.bind s.registry.find?).isSome ∧ isUpperDirty s inp.scanOk = false) :
    Redirects s' := by
  intro k e' hk
  rcases hreg.only k e' hk with ⟨rfl, rfl⟩ | ⟨rfl, -, hst, hdir, -⟩ | hold
  · refine ⟨hfresh.1, fun hlw => ?_, ?_⟩
    · rw [hentry.redirect (hentry.strategy ▸ hlw)]
      exact Option.some_ne_none _
    by_cases hs : strategy = .lightweight
    · obtain ⟨hparent, hclean⟩ := hguard hs
      obtain ⟨ep, hep⟩ := Option.isSome_iff_exists.mp hparent
      obtain ⟨p, rfl, hp⟩ := Option.bind_eq_some_iff.mp hep
      obtain ⟨hne, -, f, hf, hlay⟩ := h p ep hp
      obtain ⟨ep', x, hp', hx, hxf⟩ := physicalTarget_eq_some.mp hf
      obtain rfl : ep = ep' := Option.some.inj (hp.symm.trans hp')
      refine ⟨f, physicalTarget_eq_some.mpr ⟨_, x, hk, ?_, hreg.keep _ _ hxf⟩, ?_⟩
      · rw [hentry.redirect hs, Option.getD_some, effectiveOf, Option.bind_some, hp]
        exact hx
      · rw [hlay, hentry.clean hs hclean, parentLayers_some hne hp]
    · exact ⟨_, physicalTarget_of_direct hk (hentry.direct hs), rfl⟩
  · refine ⟨fun hk => by simpa using congrArg String.toList hk, fun hlw => ?_, ?_⟩
    · rw [hst] at hlw
      cases hlw
    · exact ⟨_, physicalTarget_of_direct hk hdir, rfl⟩
  · obtain ⟨hne, hlw, f, hf, hlay⟩ := h k e' hold
    exact ⟨hne, hlw, f, hreg.physicalTarget hf, hlay⟩

theorem Redirects.congr {s s' : State P C} (h : Redirects s) (hreg : s'.registry = s.registry) :
    Redirects s' := by
  intro id e he
  rw [hreg] at he
  obtain ⟨hne, hlw, f, hf, hlay⟩ := h id e he
  refine ⟨hne, hlw, f, ?_, hlay⟩
  rw [physicalTarget, hreg]
  exact hf

/-- **A guarded step keeps every redirection exact**, whatever faults it meets. -/
theorem Guarded.redirects_step [DecidableEq P] {cfg : Config} {t t' : Traced P C} {a : Action P C}
    (h : Redirects t.sb) (hg : Guarded cfg t a) (hstep : step cfg t a = some t') :
    Redirects t'.sb := by
  cases a with
  | write ds p c =>
    obtain rfl := Option.some.inj hstep
    exact h.congr rfl
  | remove ds p =>
    obtain rfl := Option.some.inj hstep
    refine h.congr ?_
    rw [agentRemove]
    split <;> rfl
  | checkpoint parent raw inp =>
    rw [step] at hstep
    split_ifs at hstep with hfresh
    rcases hc : checkpointAction cfg t.sb parent raw inp with ⟨s', _ | e⟩
    · simp only [hc] at hstep
      obtain rfl := Option.some.inj hstep
      exact h.congr (checkpointAction_registry_of_raised hc)
    · simp only [hc] at hstep
      obtain rfl := Option.some.inj hstep
      obtain ⟨hreg, hentry⟩ := checkpointAction_registered hfresh hc
      exact h.registered hfresh hreg hentry hg
  | restore target rid fault =>
    rw [step] at hstep
    split_ifs at hstep with hfresh
    have hreg := restoreAction_registry cfg t.sb target rid fault
    rcases hr : restoreAction cfg t.sb target rid fault with ⟨s', _ | _⟩
    all_goals
      simp only [hr] at hstep hreg
      obtain rfl := Option.some.inj hstep
      exact h.congr hreg

end Overlay

end DeltaBox
