import DeltaBox.Overlay.Registry
import DeltaBox.Overlay.Invariant

/-!
# Rollback is exact on every branch

A step is *steady* when its checkpoint names the current position as its parent and looks at an
upper directory that exists and can be listed, and when its restore is redirected to an entry with
the same layers. The layer switch of a steady step may still raise. `Outcome` lists everything such
a step can do to the sandbox, and each invariant is then a case analysis over four cases.

A *standard* run is steady by itself: as long as no switch raises, the current upper stays the
mounted one, and as long as nothing is lightweight, no restore is redirected.

## Main results

* `Steady.outcome` — every steady step has one of the four outcomes
* `Steady.inv_step`, `Steady.keeps_step` — it keeps the invariant and every registered directory
* `rollback_exact` — in every standard run, each entry's layers show what was visible when it was
  taken, no later step changes them, a checkpoint is invisible to the agent, and a restore brings
  back exactly what was visible
-/

namespace DeltaBox

namespace Overlay

open Machine

variable {P C : Type*}

/-! ### Classes of steps -/

/-- The steps that keep registry, mount and history in step. -/
def Steady (t : Traced P C) : Action P C → Prop
  | .checkpoint parent _ inp => parent = t.pos ∧ inp.scanOk = true ∧ inp.fault ≠ some .after ∧
      t.sb.disk.names t.sb.currentUpper ≠ none
  | .restore target _ fault => fault ≠ some .after ∧
      (physicalTarget t.sb target).map Entry.layers =
        (t.sb.registry.find? target).map Entry.layers
  | _ => True

instance (t : Traced P C) : ∀ a, Decidable (Steady t a)
  | .write .. => isTrue trivial
  | .remove .. => isTrue trivial
  | .checkpoint .. => inferInstanceAs (Decidable (_ ∧ _))
  | .restore .. => inferInstanceAs (Decidable (_ ∧ _))

/-- The steps of a caller that keeps to the current position: a checkpoint names it as its parent
and does not raise once it touches the overlay, and a restore does not raise once it has switched. -/
def InPlace (t : Traced P C) : Action P C → Prop
  | .checkpoint parent _ inp => parent = t.pos ∧ inp.scanOk = true ∧
      (inp.fault = none ∨ inp.fault = some .before)
  | .restore _ _ fault => fault ≠ some .after
  | _ => True

instance (t : Traced P C) : ∀ a, Decidable (InPlace t a)
  | .write .. => isTrue trivial
  | .remove .. => isTrue trivial
  | .checkpoint .. => inferInstanceAs (Decidable (_ ∧ _))
  | .restore _ _ fault => inferInstanceAs (Decidable (fault ≠ some .after))

/-- The steps of a standard run: the agent's, standard checkpoints of the current position that do
not raise once they touch the overlay, and successful restores of standard entries. -/
def Standard (cfg : Config) (t : Traced P C) : Action P C → Prop
  | .checkpoint parent raw inp => parent = t.pos ∧ callStrategy cfg raw inp = .standard ∧
      inp.scanOk = true ∧ (inp.fault = none ∨ inp.fault = some .before)
  | .restore target _ fault => fault = none ∧
      (t.sb.registry.find? target).map Entry.strategy = some .standard
  | _ => True

instance (cfg : Config) (t : Traced P C) : ∀ a, Decidable (Standard cfg t a)
  | .write .. => isTrue trivial
  | .remove .. => isTrue trivial
  | .checkpoint .. => inferInstanceAs (Decidable (_ ∧ _))
  | .restore .. => inferInstanceAs (Decidable (_ ∧ _))

theorem Standard.inPlace {cfg : Config} {t : Traced P C} {a : Action P C}
    (hs : Standard cfg t a) : InPlace t a := by
  cases a with
  | write => trivial
  | remove => trivial
  | checkpoint parent raw inp => exact ⟨hs.1, hs.2.2.1, hs.2.2.2⟩
  | restore target rid fault => exact fun hf => by rw [hs.1] at hf; cases hf

theorem Standard.guarded {cfg : Config} {t : Traced P C} {a : Action P C}
    (hs : Standard cfg t a) : Guarded cfg t a := by
  cases a with
  | checkpoint parent raw inp => exact fun hlw => by rw [hs.2.1] at hlw; cases hlw
  | _ => trivial

/-- A step of the agent. -/
def Action.ByAgent : Action P C → Prop
  | .write .. => True
  | .remove .. => True
  | _ => False

/-- The layer switch of this checkpoint raises. -/
def Action.SwitchRaises : Action P C → Prop
  | .checkpoint _ _ inp => inp.fault = some .switch
  | _ => False

/-! ### Every steady step has an outcome -/

variable [DecidableEq P]

/-- Everything a steady step can do. -/
inductive Outcome (cfg : Config) (t : Traced P C) : Action P C → Traced P C → Prop where
  /-- The agent changes the mounted upper. -/
  | agent {a : Action P C} (ha : a.ByAgent) (l : Layer P C) :
      Outcome cfg t a { t with sb := { t.sb with disk := t.sb.disk.put t.sb.mount.upper l } }
  /-- A call raises. It may have made directories, and a checkpoint whose switch raised has also
  taken the current upper's name away. -/
  | raised {a : Action P C} {s' : State P C} (hext : Extends t.sb s')
      (hmount : s'.mount = t.sb.mount) (hreg : s'.registry = t.sb.registry)
      (hup : s'.disk.names s'.currentUpper = t.sb.disk.names t.sb.currentUpper ∨
        s'.disk.names s'.currentUpper = none ∧ a.SwitchRaises) :
      Outcome cfg t a { t with sb := s' }
  /-- A checkpoint sinks the upper and registers its entry. -/
  | taken {raw : String} {inp : CkptInput} {dirty : Bool} {s' : State P C}
      {r : Dict String Entry} {e : Entry} (hfresh : FreshId cfg t.sb inp.id)
      (hsunk : Sunk cfg t.sb (parentLayers cfg t.sb t.pos) t.sb.mount.lowers inp.id dirty s'
        e.layers)
      (hreg : Registered t.sb.registry inp.id e r) (hdirty : e.upperDirty = dirty) :
      Outcome cfg t (.checkpoint t.pos raw inp)
        { sb := { s' with registry := r }
          pos := some inp.id
          seen := Function.update (Function.update t.seen (inp.id ++ "_full") (some t.sb.visible))
            inp.id (some t.sb.visible) }
  /-- A restore mounts the layers of its target under a new upper. -/
  | restored {target rid : String} {e : Entry} {is : List ℕ} {s' : State P C}
      (he : t.sb.registry.find? target = some e) (hes : t.sb.disk.resolve e.layers = some is)
      (hres : Restored t.sb is s') :
      Outcome cfg t (.restore target rid none) { t with sb := s', pos := some target }

section

variable {cfg : Config} {t t' : Traced P C} {a : Action P C}

/-- The result `r` of a checkpoint at the current position, over the mounted upper: it raised, or
it sank the upper and returned an entry for the layers. -/
def Attempt (cfg : Config) (t : Traced P C) (inp : CkptInput) (r : State P C × Option Entry) :
    Prop :=
  (∃ s', r = (s', none) ∧ ((∃ f, s' = { t.sb with asyncFailed := f }) ∨
    Stranded t.sb s' ∧ inp.fault = some .switch)) ∨
  (∃ s' e reg dirty, r = ({ s' with registry := reg }, some e) ∧
    Sunk cfg t.sb (parentLayers cfg t.sb t.pos) t.sb.mount.lowers inp.id dirty s' e.layers ∧
      e.upperDirty = dirty)

theorem checkpointLegacy_attempt {strategy : Strategy} {inp : CkptInput} (h : Inv cfg t)
    (hlive : Live t.sb) (hfresh : FreshId cfg t.sb inp.id) (hscan : inp.scanOk = true)
    (hfault : inp.fault ≠ some .after) :
    Attempt cfg t inp (checkpointLegacy cfg t.sb t.pos strategy inp) := by
  have hspec := sinkLegacy_spec hfresh hlive hscan h.lowers
    h.currentUpper_notMem_parentLayers
  obtain ⟨-, hc⟩ | ⟨s₁, o, hsink, ho, hc⟩ | ⟨s₁, layers, hsink, hc⟩ :=
    checkpointLegacy_cases cfg t.sb t.pos strategy inp
  · exact Or.inl ⟨t.sb, hc, Or.inl ⟨_, rfl⟩⟩
  · obtain ⟨s', layers', heq, -⟩ | ⟨hsw, -, s', heq, hstr⟩ := hspec
    · rw [hsink] at heq
      obtain ⟨-, rfl⟩ := Prod.mk.inj heq
      rcases ho with ho | ho
      · cases ho
      · exact absurd ho hfault
    · rw [hsink] at heq
      obtain ⟨rfl, -⟩ := Prod.mk.inj heq
      exact Or.inl ⟨_, hc, Or.inr ⟨hstr, hsw⟩⟩
  · obtain ⟨s', layers', heq, hsunk⟩ | ⟨-, -, s', heq, -⟩ := hspec
    · rw [hsink] at heq
      obtain ⟨rfl, hl⟩ := Prod.mk.inj heq
      obtain rfl := Option.some.inj hl
      exact Or.inr ⟨_, _, _, _, hc, hsunk, rfl⟩
    · rw [hsink] at heq
      cases (Prod.mk.inj heq).2

theorem asyncCheckpoint_attempt {raw : String} {inp : CkptInput} (h : Inv cfg t)
    (hlive : Live t.sb) (hfresh : FreshId cfg t.sb inp.id) (hscan : inp.scanOk = true)
    (hfault : inp.fault ≠ some .after) :
    Attempt cfg t inp (asyncCheckpoint cfg t.sb t.pos raw inp) := by
  have hspec := sink_spec hfresh hlive hscan h.lowers
    h.currentUpper_notMem_parentLayers
  obtain hc | ⟨-, hc⟩ | ⟨-, hc⟩ | ⟨s₁, o, hsink, ho, hc⟩ | ⟨-, s₁, layers, dirty, hsink, hc⟩ :=
    asyncCheckpoint_cases cfg t.sb t.pos raw inp
  · exact Or.inl ⟨_, hc, Or.inl ⟨_, rfl⟩⟩
  · rw [hc]
    exact checkpointLegacy_attempt h hlive hfresh hscan hfault
  · exact Or.inl ⟨_, hc, Or.inl ⟨_, rfl⟩⟩
  · obtain ⟨s', layers', dirty, hs', -⟩ | ⟨hsw, s', hs', ⟨hext, hm, hr, hnone⟩⟩ := hspec
    · rw [hsink] at hs'
      obtain ⟨-, rfl⟩ := Prod.mk.inj hs'
      rcases ho with ho | ho
      · cases ho
      · exact absurd ho hfault
    · rw [hsink] at hs'
      obtain ⟨rfl, -⟩ := Prod.mk.inj hs'
      exact Or.inl ⟨_, hc, Or.inr ⟨⟨⟨hext.names, hext.content, hext.next_le⟩, hm, hr, hnone⟩, hsw⟩⟩
  · obtain ⟨s', layers', dirty', hs', hsunk⟩ | ⟨-, s', hs', -⟩ := hspec
    · rw [hsink] at hs'
      obtain ⟨rfl, hl⟩ := Prod.mk.inj hs'
      obtain ⟨rfl, rfl⟩ := Prod.mk.inj (Option.some.inj hl)
      exact Or.inr ⟨_, _, _, _, hc, hsunk, rfl⟩
    · rw [hsink] at hs'
      cases (Prod.mk.inj hs').2

theorem checkpointAction_attempt (raw : String) {inp : CkptInput} (h : Inv cfg t)
    (hlive : Live t.sb) (hfresh : FreshId cfg t.sb inp.id) (hscan : inp.scanOk = true)
    (hfault : inp.fault ≠ some .after) :
    Attempt cfg t inp (checkpointAction cfg t.sb t.pos raw inp) := by
  rw [checkpointAction]
  split
  · exact asyncCheckpoint_attempt h hlive hfresh hscan hfault
  · exact checkpointLegacy_attempt h hlive hfresh hscan hfault

/-- The upper a steady checkpoint looks at is the mounted one. -/
theorem Inv.live_of_names (h : Inv cfg t) (hn : t.sb.disk.names t.sb.currentUpper ≠ none) :
    Live t.sb := by
  obtain ⟨i, hi⟩ := Option.ne_none_iff_exists'.mp hn
  rw [Live, hi, h.upper i hi]

theorem freshId_of_step {parent : Option String} {raw : String} {inp : CkptInput}
    (h : step cfg t (.checkpoint parent raw inp) = some t') : FreshId cfg t.sb inp.id := by
  rw [step] at h
  split_ifs at h with hfresh
  exact hfresh

/-- **Every steady step has an outcome.** -/
theorem Steady.outcome (h : Inv cfg t) (hs : Steady t a) (hstep : step cfg t a = some t') :
    Outcome cfg t a t' := by
  cases a with
  | write ds p c =>
    obtain rfl := Option.some.inj hstep
    exact .agent (a := .write ds p c) trivial _
  | remove ds p =>
    obtain rfl := Option.some.inj hstep
    rw [agentRemove]
    split
    · exact .raised (Extends.refl _) rfl rfl (Or.inl rfl)
    · exact .agent (a := .remove ds p) trivial _
  | checkpoint parent raw inp =>
    obtain ⟨rfl, hscan, hfault, hnames⟩ := hs
    rw [step] at hstep
    split_ifs at hstep with hfresh
    obtain ⟨s', hc, hraised⟩ | ⟨s', e, r, dirty, hc, hsunk, hdirty⟩ :=
      checkpointAction_attempt raw h (h.live_of_names hnames) hfresh hscan hfault
    · simp only [hc] at hstep
      obtain rfl := Option.some.inj hstep
      rcases hraised with ⟨f, rfl⟩ | ⟨⟨hext, hm, hr, hnone⟩, hsw⟩
      · exact .raised ⟨fun _ _ _ hn => hn, fun _ _ => rfl, Nat.le_refl _⟩ rfl rfl (Or.inl rfl)
      · exact .raised hext hm hr (Or.inr ⟨hnone, hsw⟩)
    · have hreg := (checkpointAction_registered hfresh hc).1
      simp only [hc] at hstep
      obtain rfl := Option.some.inj hstep
      exact .taken hfresh hsunk hreg hdirty
  | restore target rid fault =>
    obtain ⟨hfault, hsame⟩ := hs
    rw [step] at hstep
    split_ifs at hstep with hfresh
    rcases hphys : physicalTarget t.sb target with _ | f
    · have hr : restoreAction cfg t.sb target rid fault = (t.sb, false) := by
        rw [restoreAction, hphys]
      simp only [hr] at hstep
      obtain rfl := Option.some.inj hstep
      exact .raised (Extends.refl _) rfl rfl (Or.inl rfl)
    obtain ⟨e, k, he, -, -⟩ := physicalTarget_eq_some.mp hphys
    have hlay : f.layers = e.layers := by
      rw [hphys, he] at hsame
      exact Option.some.inj hsame
    have hraised : fault = some .before ∨ fault = some .switch →
        Outcome cfg t (.restore target rid fault) t' := by
      intro hf
      rcases restoreAction_of_raised cfg t.sb target rid hf with hr | hr
      · simp only [hr] at hstep
        obtain rfl := Option.some.inj hstep
        exact .raised (Extends.refl _) rfl rfl (Or.inl rfl)
      · simp only [hr] at hstep
        obtain rfl := Option.some.inj hstep
        exact .raised (prepared_extends hfresh).2 rfl rfl
          (Or.inl (prepared_names_currentUpper hfresh))
    rcases fault with _ | _ | _ | _
    · obtain ⟨is, his, -, -⟩ := h.entries target e he
      obtain ⟨s', hr, hres⟩ := restoreAction_spec hfresh hphys (hlay ▸ his)
      simp only [hr] at hstep
      obtain rfl := Option.some.inj hstep
      exact .restored he his hres
    · exact hraised (Or.inl rfl)
    · exact hraised (Or.inr rfl)
    · exact absurd rfl hfault

/-! ### What an outcome keeps -/

theorem Outcome.inv (h : Inv cfg t) (ho : Outcome cfg t a t') : Inv cfg t' := by
  cases ho with
  | agent _ l => exact h.put l
  | raised hext hmount hreg hup =>
    refine h.extend hext hmount hreg fun i hi => ?_
    rcases hup with hup | ⟨hup, -⟩
    · exact h.upper i (hup ▸ hi)
    · rw [hup] at hi
      cases hi
  | taken hfresh hsunk hreg hdirty =>
    refine h.checkpointed hfresh hsunk ⟨_, hreg.self, rfl⟩ fun k e' hk => ?_
    rcases hreg.only k e' hk with ⟨rfl, rfl⟩ | ⟨rfl, hlay, -⟩ | hold
    · exact Or.inl ⟨rfl, Or.inl rfl⟩
    · exact Or.inl ⟨hlay, Or.inr rfl⟩
    · exact Or.inr hold
  | restored he hes hres =>
    obtain ⟨is, his, hmem, -⟩ := h.entries _ _ he
    obtain rfl := Option.some.inj (hes.symm.trans his)
    exact h.restored he hes hmem hres

theorem Outcome.live (h : Live t.sb) (hsw : ¬a.SwitchRaises) (ho : Outcome cfg t a t') :
    Live t'.sb := by
  cases ho with
  | agent _ l => exact live_put h _ l
  | raised hext hmount hreg hup =>
    rcases hup with hup | ⟨-, hraises⟩
    · rw [Live, hup, hmount]
      exact h
    · exact absurd hraises hsw
  | taken hfresh hsunk hreg hdirty => exact hsunk.upper
  | restored he hes hres => exact hres.upper

/-- Every entry of `t` is still there in `t'`, and every directory its layers list has the same
name and the same contents. -/
def Keeps (t t' : Traced P C) : Prop :=
  ∀ id e, t.sb.registry.find? id = some e → t'.sb.registry.find? id = some e ∧
    ∀ n ∈ e.layers, ∃ i, t.sb.disk.names n = some i ∧ t'.sb.disk.names n = some i ∧
      t'.sb.disk.content i = t.sb.disk.content i

omit [DecidableEq P] in
theorem Keeps.trans {u : Traced P C} (h : Keeps t t') (h' : Keeps t' u) : Keeps t u := by
  intro id e he
  obtain ⟨he', hlay⟩ := h id e he
  obtain ⟨he'', hlay'⟩ := h' id e he'
  refine ⟨he'', fun n hn => ?_⟩
  obtain ⟨i, hi, hi', hc⟩ := hlay n hn
  obtain ⟨j, hj, hj', hc'⟩ := hlay' n hn
  obtain rfl := Option.some.inj (hi'.symm.trans hj)
  exact ⟨i, hi, hj', hc'.trans hc⟩

/-- A directory listed by an entry has a name other than the current upper's and is not the mounted
upper. -/
theorem Inv.listed (h : Inv cfg t) {id n : String} {e : Entry}
    (he : t.sb.registry.find? id = some e) (hn : n ∈ e.layers) :
    ∃ i, t.sb.disk.names n = some i ∧ n ≠ t.sb.currentUpper ∧ i ≠ t.sb.mount.upper := by
  obtain ⟨is, his, hmem, -⟩ := h.entries id e he
  obtain ⟨i, hi, hni⟩ := Disk.names_of_resolve his n hn
  refine ⟨i, hni, fun hcu => ?_, fun hup => hmem (hup ▸ hi)⟩
  exact h.currentUpper_notMem his hmem (hcu ▸ hn)

/-- What only adds directories and entries keeps what was there. -/
theorem Inv.keeps_of_extends (h : Inv cfg t) (hext : Extends t.sb t'.sb)
    (hreg : ∀ id e, t.sb.registry.find? id = some e → t'.sb.registry.find? id = some e) :
    Keeps t t' := by
  intro id e he
  refine ⟨hreg id e he, fun n hn => ?_⟩
  obtain ⟨i, hi, hcu, -⟩ := h.listed he hn
  exact ⟨i, hi, hext.names n i hcu hi, hext.content i (t.sb.disk.named_lt n i hi)⟩

theorem Outcome.keeps (h : Inv cfg t) (ho : Outcome cfg t a t') : Keeps t t' := by
  cases ho with
  | agent _ l =>
    intro id e he
    refine ⟨he, fun n hn => ?_⟩
    obtain ⟨i, hi, -, hup⟩ := h.listed he hn
    exact ⟨i, hi, hi, Function.update_of_ne hup ..⟩
  | raised hext hmount hreg hup => exact h.keeps_of_extends hext fun id e he => hreg ▸ he
  | taken hfresh hsunk hreg hdirty =>
    exact h.keeps_of_extends ⟨hsunk.names, hsunk.content, hsunk.next_le⟩ hreg.keep
  | restored he hes hres =>
    exact h.keeps_of_extends hres.toExtends fun id e he => hres.registry ▸ he

theorem Inv.mounted_lt (h : Inv cfg t) : ∀ i ∈ t.sb.mount.upper :: t.sb.mount.lowers,
    i < t.sb.disk.next := by
  intro i hi
  rcases List.mem_cons.mp hi with rfl | hi
  · exact h.upper_lt
  · exact Disk.resolve_lt h.lowers i hi

/-- The agent does not notice a checkpoint. -/
theorem Outcome.visible_checkpoint {parent : Option String} {raw : String} {inp : CkptInput}
    (h : Inv cfg t) (ho : Outcome cfg t (.checkpoint parent raw inp) t') :
    t'.sb.visible = t.sb.visible := by
  cases ho with
  | agent ha l => exact absurd ha id
  | raised hext hmount hreg hup =>
    rw [State.visible, State.visible, Disk.visible, Disk.visible, hmount]
    exact hext.view h.mounted_lt
  | taken hfresh hsunk hreg hdirty => exact hsunk.visible h.lowers rfl h.upper_lt

theorem Steady.inv_step (h : Inv cfg t) (hs : Steady t a) (hstep : step cfg t a = some t') :
    Inv cfg t' := (hs.outcome h hstep).inv h

/-! ### Runs that stay in place -/

/-- What such a run keeps, as long as its lightweight checkpoints are guarded. -/
structure Exact (cfg : Config) (t : Traced P C) : Prop where
  /-- Registry, mount and history agree. -/
  inv : Inv cfg t
  /-- The current upper is the mounted one. -/
  live : Live t.sb
  /-- No restore is redirected to other layers. -/
  redirects : Redirects t.sb

theorem Initial.exact (h : Initial cfg t) : Exact cfg t where
  inv := h.inv
  live := h.live
  redirects := fun id e he => by rw [h.registry, Dict.find?_empty] at he; cases he

theorem InPlace.steady (h : Exact cfg t) (hs : InPlace t a) : Steady t a := by
  cases a with
  | write => trivial
  | remove => trivial
  | checkpoint parent raw inp =>
    obtain ⟨hp, hscan, hfault⟩ := hs
    refine ⟨hp, hscan, ?_, ?_⟩
    · rcases hfault with hf | hf <;> rw [hf] <;> simp
    · rw [show t.sb.disk.names t.sb.currentUpper = _ from h.live]
      exact Option.some_ne_none _
  | restore target rid fault =>
    refine ⟨hs, ?_⟩
    rcases he : t.sb.registry.find? target with _ | e
    · rw [physicalTarget, he]
      rfl
    · obtain ⟨-, -, f, hf, hlay⟩ := h.redirects target e he
      rw [hf, Option.map_some, Option.map_some, hlay]

theorem InPlace.exact_step (h : Exact cfg t) (hs : InPlace t a) (hg : Guarded cfg t a)
    (hstep : step cfg t a = some t') : Exact cfg t' := by
  have ho := (hs.steady h).outcome h.inv hstep
  refine ⟨ho.inv h.inv, ho.live h.live ?_, hg.redirects_step h.redirects hstep⟩
  cases a with
  | checkpoint parent raw inp =>
    obtain ⟨-, -, hf | hf⟩ := hs <;> simp [Action.SwitchRaises, hf]
  | _ => exact id

/-! ### Standard runs -/

theorem Standard.exact_step (h : Exact cfg t) (hs : Standard cfg t a)
    (hstep : step cfg t a = some t') : Exact cfg t' :=
  hs.inPlace.exact_step h hs.guarded hstep

theorem Standard.keeps_run {as : List (Action P C)} (h : Exact cfg t)
    (hC : Along (step cfg) (Standard cfg) t as) (hrun : exec (step cfg) t as = some t') :
    Keeps t t' := by
  induction as generalizing t with
  | nil =>
    obtain rfl := exec_nil.mp hrun
    exact h.inv.keeps_of_extends (Extends.refl _) fun _ _ he => he
  | cons a as ih =>
    obtain ⟨u, hu, ht⟩ := exec_cons.mp hrun
    have ho := (hC.1.inPlace.steady h).outcome h.inv hu
    exact (ho.keeps h.inv).trans (ih (hC.1.exact_step h hu) (hC.2 u hu) ht)

/-- A successful restore of a standard entry brings back what was seen. -/
theorem Standard.visible_restore {target rid : String} (h : Exact cfg t)
    (hs : Standard cfg t (.restore target rid none))
    (hstep : step cfg t (.restore target rid none) = some t') :
    t'.pos = some target ∧ t.seen target = some t'.sb.visible := by
  obtain ⟨-, hst⟩ := hs
  obtain ⟨e, he, -⟩ := Option.map_eq_some_iff.mp hst
  obtain ⟨-, -, f, hf, hlay⟩ := h.redirects target e he
  obtain ⟨is, his, -, -⟩ := h.inv.entries target e he
  rw [step] at hstep
  split_ifs at hstep with hfresh
  obtain ⟨s', hr, hres⟩ := restoreAction_spec hfresh hf (hlay ▸ his)
  simp only [hr] at hstep
  obtain rfl := Option.some.inj hstep
  exact ⟨rfl, h.inv.visible_restored he his hres⟩

/-- **Rollback is exact on every branch.** After every standard run: the layers of every entry show
what the agent saw when the entry was taken; no later standard run changes a directory they list;
a checkpoint does not change what the agent sees; and a restore makes it see exactly what it saw
when the target was taken. -/
theorem rollback_exact {t₀ : Traced P C} {as : List (Action P C)} (h₀ : Initial cfg t₀)
    (hC : Along (step cfg) (Standard cfg) t₀ as) (hrun : exec (step cfg) t₀ as = some t) :
    (∀ id e, t.sb.registry.find? id = some e →
      ∃ v, t.seen id = some v ∧ t.sb.disk.through e.layers = some v) ∧
    (∀ bs u, Along (step cfg) (Standard cfg) t bs → exec (step cfg) t bs = some u → Keeps t u) ∧
    (∀ parent raw inp u, Standard cfg t (.checkpoint parent raw inp) →
      step cfg t (.checkpoint parent raw inp) = some u → u.sb.visible = t.sb.visible) ∧
    (∀ target rid u, Standard cfg t (.restore target rid none) →
      step cfg t (.restore target rid none) = some u → t.seen target = some u.sb.visible) := by
  have h : Exact cfg t := invariant_along (fun h hs hstep => hs.exact_step h hstep) h₀.exact hC hrun
  refine ⟨fun id e he => ?_, fun bs u hbs hu => Standard.keeps_run h hbs hu,
    fun parent raw inp u hs hu => ?_, fun target rid u hs hu => (hs.visible_restore h hu).2⟩
  · obtain ⟨is, his, -, hseen⟩ := h.inv.entries id e he
    exact ⟨_, hseen, by rw [Disk.through, his]; rfl⟩
  · exact ((hs.inPlace.steady h).outcome h.inv hu).visible_checkpoint h.inv

end

/-! ### A run with two branches -/

/-- A legacy controller over `/l`, without adaptive strategies. -/
def exampleConfig : Config where
  layersRoot := "/l"
  baseLayer := "/l/base"
  asyncIncremental := false
  enableAdaptive := false
  parseStrategy := fun _ => .standard

/-- Its first state: an empty upper over an empty base layer. -/
def exampleStart : Traced ℕ ℕ where
  sb :=
    { disk :=
        { names := fun n => if n = "/l/base" then some 0 else if n = "/l/up" then some 1 else none
          content := fun _ => Layer.empty
          next := 2
          named_lt := by
            intro n i
            split_ifs <;> simp <;> omega }
      mount := ⟨1, [0]⟩
      currentUpper := "/l/up"
      currentWork := "/l/work"
      registry := Dict.empty
      asyncFailed := false }
  pos := none
  seen := fun _ => none

theorem exampleStart_initial : Initial exampleConfig exampleStart where
  upper := rfl
  lowers := rfl
  base_ne := by decide
  registry := rfl
  pos := rfl

/-- A checkpoint that meets no fault. -/
def exampleInput (id : String) : CkptInput where
  id := id
  twin := false
  scanOk := true
  hot := false
  fault := none

/-- Two checkpoints, a restore to the first, and a third on the new branch. -/
def exampleRun : List (Action ℕ ℕ) :=
  [.write [] 1 10, .checkpoint none "standard" (exampleInput "a"), .write [] 1 20, .remove [] 1,
    .write [] 2 30, .checkpoint (some "a") "standard" (exampleInput "b"), .restore "a" "r" none,
    .write [] 3 40, .checkpoint (some "a") "standard" (exampleInput "c")]

theorem rollback_exact_branches :
    ∃ t, exec (step exampleConfig) exampleStart exampleRun = some t ∧
      Standard exampleConfig t (.restore "b" "s" none) ∧
        (∀ u, step exampleConfig t (.restore "b" "s" none) = some u →
          t.seen "b" = some u.sb.visible) := by
  obtain ⟨t, ht⟩ := Option.isSome_iff_exists.mp
    (show (exec (step exampleConfig) exampleStart exampleRun).isSome by decide +kernel)
  have hstd : ((exec (step exampleConfig) exampleStart exampleRun).all
      fun t => decide (Standard exampleConfig t (.restore "b" "s" none))) = true := by
    decide +kernel
  rw [ht, Option.all_some, decide_eq_true_eq] at hstd
  exact ⟨t, ht, hstd, fun u hu =>
    (rollback_exact exampleStart_initial (by decide +kernel) ht).2.2.2 "b" "s" u hstd hu⟩

end Overlay

end DeltaBox
