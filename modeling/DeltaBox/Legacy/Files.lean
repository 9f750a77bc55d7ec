import DeltaBox.Legacy.Memory
import DeltaBox.Overlay.Rollback

/-!
# The file side of a checkpoint

On the file side `_checkpoint_legacy` is one checkpoint of `Overlay.Sandbox`, but it does not happen at
once. The sink comes in the middle of the call and the registration at its end. `FilesInv` says that
the state before the sink is as good as the one the call began with, and that the state after it
becomes a good one as soon as the call registers.

## Main results

* `FilesInv.sink` — sink and registration together are the checkpoint of `Overlay.Sandbox`
* `FilesInv.register` — what is registered was seen when the call began
-/

namespace DeltaBox

namespace Legacy

variable {M P C : Type} {s t : State M P C} {id : String} {m : Modes} {cfg : Overlay.Config}
  [DecidableEq P] {c : Call}

/-- The agent's files when the call for `id` began. -/
def State.filesAt (s : State M P C) (id : String) : Option (View P C) := (s.point id).map Prod.snd

/-- A call that has not sunk the upper yet. -/
structure Begun (cfg : Overlay.Config) (s : State M P C) (c : Call) : Prop where
  files : s.files = s.before
  inv : Overlay.Inv cfg s.before
  live : Overlay.Live s.before.sb
  /-- Its parent is the current position. -/
  parent : c.parent = s.before.pos
  scan : c.inp.scanOk = true
  fault : c.inp.fault = none
  id : c.inp.id = c.id
  fresh : Overlay.FreshId cfg s.before.sb c.inp.id
  strategy : c.strategy = Overlay.chooseStrategy cfg c.raw c.inp.hot
  /-- Only a call with a dump of its own has a parent image and a twin. -/
  dump : c.prev.isSome ∨ c.twin = true → c.strategy ≠ .lightweight

/-- A call that has. What it registers at the end will be in order. -/
structure Sunken (cfg : Overlay.Config) (s : State M P C) (c : Call) : Prop where
  id : c.inp.id = c.id
  inv : Overlay.Inv cfg (registerFiles s c)
  live : Overlay.Live (registerFiles s c).sb
  fresh : s.files.sb.registry.find? c.id = none ∧ s.files.sb.registry.find? (c.id ++ "_full") = none
  twin : c.twin = true → c.strategy ≠ .lightweight

/-- The files are in order at every point of a call. -/
def FilesOk (cfg : Overlay.Config) (s : State M P C) : Prop :=
  match s.ctl with
  | .idle => Overlay.Inv cfg s.files ∧ Overlay.Live s.files.sb
  | .forked c | .submitted c | .watched c | .waited c => Begun cfg s c
  | .sunk c | .raised c | .joined c | .finished c => Sunken cfg s c

/-- The file side, with its history. -/
structure FilesInv (cfg : Overlay.Config) (s : State M P C) : Prop where
  ok : FilesOk cfg s
  /-- A call sees the files of its beginning. -/
  call : ∀ c, s.ctl.call = some c → s.filesAt c.id = some s.before.sb.visible ∧
    s.filesAt (c.id ++ "_full") = some s.before.sb.visible ∧
    c.id ∈ s.names ∧ c.id ++ "_full" ∈ s.names
  /-- Both registries have the same entries, and they were seen at their call. -/
  registered : ∀ id e, s.registry.find? id = some e → id ∈ s.names ∧
    (∃ fe, s.files.sb.registry.find? id = some fe) ∧ s.files.seen id = s.filesAt id

/-- The two states agree on everything that has to do with files, and a call keeps what it
registers. -/
structure SameFiles (s t : State M P C) : Prop where
  files : t.files = s.files
  before : t.before = s.before
  point : t.point = s.point
  registry : t.registry = s.registry
  names : t.names = s.names

/-- Two moments of one call, before the sink. -/
structure SameCall (c c' : Call) : Prop where
  id : c'.id = c.id
  parent : c'.parent = c.parent
  raw : c'.raw = c.raw
  inp : c'.inp = c.inp
  strategy : c'.strategy = c.strategy

/-- And after it. -/
structure SameSunk (c c' : Call) : Prop extends SameCall c c' where
  twin : c'.twin = c.twin
  layers : c'.layers = c.layers
  dirty : c'.dirty = c.dirty

theorem SameFiles.begun (h : SameFiles s t) {c' : Call} (hb : Begun cfg s c) (hc : SameCall c c')
    (hdump : c'.prev.isSome ∨ c'.twin = true → c'.strategy ≠ .lightweight) : Begun cfg t c' := by
  obtain ⟨files, inv, live, parent, scan, fault, id, fresh, strategy, -⟩ := hb
  refine ⟨?_, ?_, ?_, ?_, ?_, ?_, ?_, ?_, ?_, hdump⟩
  · rw [h.files, h.before, files]
  · rw [h.before]
    exact inv
  · rw [h.before]
    exact live
  · rw [h.before, hc.parent, parent]
  · rw [hc.inp, scan]
  · rw [hc.inp, fault]
  · rw [hc.inp, hc.id, id]
  · rw [h.before, hc.inp]
    exact fresh
  · rw [hc.strategy, hc.raw, hc.inp, strategy]

theorem SameFiles.sunken (h : SameFiles s t) {c' : Call} (hb : Sunken cfg s c)
    (hc : SameSunk c c') : Sunken cfg t c' := by
  have hfiles : registerFiles t c' = registerFiles s c := by
    rw [registerFiles, registerFiles, h.files, h.before, hc.inp, hc.twin, hc.parent, hc.strategy,
      hc.layers, hc.dirty]
  obtain ⟨id, inv, live, fresh, twin⟩ := hb
  refine ⟨?_, ?_, ?_, ?_, ?_⟩
  · rw [hc.inp, hc.id, id]
  · rw [hfiles]
    exact inv
  · rw [hfiles]
    exact live
  · rw [h.files, hc.id]
    exact fresh
  · rw [hc.twin, hc.strategy]
    exact twin

/-- The history stays, and it is for the caller to look at the files. -/
theorem FilesInv.same (h : FilesInv cfg s) (hs : SameFiles s t) (hok : FilesOk cfg t)
    (hcall : ∀ c, t.ctl.call = some c → ∃ c', s.ctl.call = some c' ∧ c.id = c'.id) :
    FilesInv cfg t := by
  have hat : ∀ id, t.filesAt id = s.filesAt id := fun id => by
    rw [State.filesAt, State.filesAt, hs.point]
  refine ⟨hok, fun c hc => ?_, fun id e he => ?_⟩
  · obtain ⟨c', hc', hid⟩ := hcall c hc
    rw [hid, hat, hat, hs.before, hs.names]
    exact h.call c' hc'
  · rw [hs.names, hs.files, hat]
    exact h.registered id e (hs.registry ▸ he)

/-- Nothing the file side depends on has changed. -/
theorem FilesInv.same_ctl (h : FilesInv cfg s) (hs : SameFiles s t) (hctl : t.ctl = s.ctl) :
    FilesInv cfg t := by
  refine h.same hs ?_ fun c hc => ⟨c, hctl ▸ hc, rfl⟩
  have hok := h.ok
  rw [FilesOk] at hok ⊢
  rw [hctl]
  cases hc : s.ctl with
  | idle =>
    rw [hc] at hok
    rw [hs.files]
    exact hok
  | forked c | submitted c | watched c | waited c =>
    rw [hc] at hok
    exact hs.begun hok ⟨rfl, rfl, rfl, rfl, rfl⟩ hok.dump
  | sunk c | raised c | joined c | finished c =>
    rw [hc] at hok
    exact hs.sunken hok ⟨⟨rfl, rfl, rfl, rfl, rfl⟩, rfl, rfl, rfl⟩

/-- A step before the sink. -/
theorem FilesInv.begunStep {c' : Call} (h : FilesInv cfg s) (hs : SameFiles s t)
    (hc : s.ctl.call = some c) (hb : Begun cfg s c) (hsame : SameCall c c')
    (hdump : c'.prev.isSome ∨ c'.twin = true → c'.strategy ≠ .lightweight)
    (hctl : t.ctl = .forked c' ∨ t.ctl = .submitted c' ∨ t.ctl = .watched c' ∨ t.ctl = .waited c') :
    FilesInv cfg t := by
  refine h.same hs ?_ fun c'' hc'' => ⟨c, hc, ?_⟩
  · rw [FilesOk]
    rcases hctl with hctl | hctl | hctl | hctl <;> rw [hctl] <;> exact hs.begun hb hsame hdump
  · rcases hctl with hctl | hctl | hctl | hctl <;> rw [hctl] at hc'' <;> cases hc'' <;>
      exact hsame.id

/-- A step after it. -/
theorem FilesInv.sunkenStep {c' : Call} (h : FilesInv cfg s) (hs : SameFiles s t)
    (hc : s.ctl.call = some c) (hb : Sunken cfg s c) (hsame : SameSunk c c')
    (hctl : t.ctl = .sunk c' ∨ t.ctl = .raised c' ∨ t.ctl = .joined c' ∨ t.ctl = .finished c') :
    FilesInv cfg t := by
  refine h.same hs ?_ fun c'' hc'' => ⟨c, hc, ?_⟩
  · rw [FilesOk]
    rcases hctl with hctl | hctl | hctl | hctl <;> rw [hctl] <;> exact hs.sunken hb hsame
  · rcases hctl with hctl | hctl | hctl | hctl <;> rw [hctl] at hc'' <;> cases hc'' <;>
      exact hsame.id

omit [DecidableEq P] in
theorem sinkLegacy_registry (cfg : Overlay.Config) (sb : Overlay.State P C) (layers : List String)
    (inp : Overlay.CkptInput) : (Overlay.sinkLegacy cfg sb layers inp).1.registry = sb.registry := by
  rw [Overlay.sinkLegacy]
  split_ifs
  · split
    · rfl
    · dsimp only
      split
      · rfl
      · rfl
  · rfl

/-- **The layer sink.** It and the registration together are the checkpoint of the file side. -/
theorem FilesInv.sink (h : FilesInv cfg s) (hcfg : cfg.asyncIncremental = false)
    (hc : s.ctl = .waited c) : FilesInv cfg (sink cfg s c) := by
  have hb : Begun cfg s c := by
    have hok := h.ok
    rw [FilesOk, hc] at hok
    exact hok
  have hcall : s.ctl.call = some c := by rw [hc]; rfl
  let inp : Overlay.CkptInput := { c.inp with twin := c.twin }
  have hsteady : Overlay.Steady s.before (.checkpoint c.parent c.raw inp) := by
    refine ⟨hb.parent, hb.scan, ?_, ?_⟩
    · change c.inp.fault ≠ some .after
      rw [hb.fault]
      simp
    · rw [show s.before.sb.disk.names _ = _ from hb.live]
      simp
  have hswitch : ¬ (Overlay.Action.checkpoint c.parent c.raw inp : Overlay.Action P C).SwitchRaises := by
    intro hraises
    have hfault : c.inp.fault = some .switch := hraises
    rw [hb.fault] at hfault
    cases hfault
  have hinv : ∀ {u}, Overlay.step cfg s.before (.checkpoint c.parent c.raw inp) = some u →
      Overlay.Inv cfg u ∧ Overlay.Live u.sb := fun hu =>
    have ho := hsteady.outcome hb.inv hu
    ⟨ho.inv hb.inv, ho.live hb.live hswitch⟩
  have hregistry := sinkLegacy_registry cfg s.before.sb
    (Overlay.parentLayers cfg s.before.sb c.parent) c.inp
  have hfresh : Overlay.FreshId cfg s.before.sb inp.id := hb.fresh
  have hnone : inp.fault = none := hb.fault
  rw [Legacy.sink, hb.files]
  dsimp only
  rcases hsink : Overlay.sinkLegacy cfg s.before.sb
    (Overlay.parentLayers cfg s.before.sb c.parent) c.inp with ⟨sb, _ | layers⟩
  · have hsink' : Overlay.sinkLegacy cfg s.before.sb
        (Overlay.parentLayers cfg s.before.sb c.parent) inp = (sb, none) := hsink
    have hu : Overlay.step cfg s.before (.checkpoint c.parent c.raw inp) =
        some { s.before with sb := sb } := by
      simp [Overlay.step, hfresh, Overlay.checkpointAction, hcfg, Overlay.checkpointLegacy, hnone,
        hsink']
    rw [hsink] at hregistry
    refine ⟨hinv hu, fun c' hc' => (by cases hc'), fun id e he => ?_⟩
    obtain ⟨hname, hfe, hseen⟩ := h.registered id e he
    rw [hb.files] at hfe hseen
    refine ⟨hname, ?_, hseen⟩
    change ∃ fe, sb.registry.find? id = some fe
    rw [show sb.registry = _ from hregistry]
    exact hfe
  · have hsink' : Overlay.sinkLegacy cfg s.before.sb
        (Overlay.parentLayers cfg s.before.sb c.parent) inp = (sb, some layers) := hsink
    rw [hsink] at hregistry
    have hreg : sb.registry = s.before.sb.registry := hregistry
    let c' : Call :=
      { c with layers := layers, dirty := Overlay.isUpperDirty s.before.sb c.inp.scanOk }
    let t : State M P C := { s with files := { s.before with sb := sb }, ctl := .sunk c' }
    have hlegacy : Overlay.checkpointLegacy cfg s.before.sb c.parent
        (Overlay.chooseStrategy cfg c.raw inp.hot) inp = ((registerFiles t c').sb,
          some (Overlay.legacyEntry sb c.parent c.strategy layers c'.dirty)) := by
      have hstrategy : Overlay.chooseStrategy cfg c.raw inp.hot = c.strategy := hb.strategy.symm
      rw [Overlay.checkpointLegacy, hnone, if_neg (by simp), hsink', hstrategy]
      rfl
    have hu : Overlay.step cfg s.before (.checkpoint c.parent c.raw inp) =
        some (registerFiles t c') := by
      rw [Overlay.step, if_pos hfresh, Overlay.checkpointAction, hcfg, if_neg (by simp), hlegacy]
      rfl
    have ht : FilesInv cfg t := by
      refine ⟨⟨hb.id, (hinv hu).1, (hinv hu).2, ?_, fun htwin => hb.dump (Or.inr htwin)⟩, fun c'' hc'' => ?_, fun id e he => ?_⟩
      · change sb.registry.find? c.id = none ∧ sb.registry.find? (c.id ++ "_full") = none
        rw [hreg, ← hb.id]
        exact ⟨hb.fresh.2.1, hb.fresh.2.2.1⟩
      · obtain rfl := Option.some.inj hc''
        exact h.call c hcall
      · obtain ⟨hname, hfe, hseen⟩ := h.registered id e he
        rw [hb.files] at hfe hseen
        refine ⟨hname, ?_, hseen⟩
        change ∃ fe, sb.registry.find? id = some fe
        rw [hreg]
        exact hfe
    exact ht

/-- The registration touches no other entry. -/
theorem registerFiles_find? (hid : c.inp.id = c.id) {k : String} (hk : k ≠ c.id)
    (hk' : k ≠ c.id ++ "_full") :
    (registerFiles s c).sb.registry.find? k = s.files.sb.registry.find? k := by
  rw [registerFiles]
  dsimp only [Overlay.register]
  rw [hid]
  split_ifs
  · rw [Dict.find?_set_of_ne _ _ hk', Dict.find?_set_of_ne _ _ hk]
  · rw [Dict.find?_set_of_ne _ _ hk]

theorem registerFiles_seen (hid : c.inp.id = c.id) (k : String) :
    (registerFiles s c).seen k = if k = c.id then some s.before.sb.visible
      else if k = c.id ++ "_full" then some s.before.sb.visible else s.files.seen k := by
  rw [registerFiles, hid]
  simp only [Function.update_apply]

theorem FilesInv.register (h : FilesInv cfg s) (hc : s.ctl = .finished c) :
    FilesInv cfg (register m s c) := by
  have hb : Sunken cfg s c := by
    have hok := h.ok
    rw [FilesOk, hc] at hok
    exact hok
  obtain ⟨hat, hfull, hname, hnameFull⟩ := h.call c (by rw [hc]; rfl)
  have hself : ∃ fe, (registerFiles s c).sb.registry.find? c.id = some fe := by
    rw [registerFiles]
    dsimp only [Overlay.register]
    rw [hb.id]
    split_ifs
    · rw [Dict.find?_set_of_ne _ _ (id_ne_full c.id), Dict.find?_set_self]
      exact ⟨_, rfl⟩
    · rw [Dict.find?_set_self]
      exact ⟨_, rfl⟩
  have htwin : c.twin = true →
      ∃ fe, (registerFiles s c).sb.registry.find? (c.id ++ "_full") = some fe := by
    intro htwin
    rw [registerFiles]
    dsimp only [Overlay.register]
    rw [hb.id, htwin, if_pos (by simp [Overlay.legacyEntry, hb.twin htwin]),
      Dict.find?_set_self]
    exact ⟨_, rfl⟩
  refine ⟨⟨hb.inv, hb.live⟩, fun c' hc' => (by cases hc'), fun id e he => ?_⟩
  change id ∈ s.names ∧ (∃ fe, (registerFiles s c).sb.registry.find? id = some fe) ∧
    (registerFiles s c).seen id = s.filesAt id
  rw [registerFiles_seen hb.id]
  by_cases hid : id = c.id
  · subst hid
    rw [if_pos rfl]
    exact ⟨hname, hself, hat.symm⟩
  · have he' : (registerEntries m s c).find? id = some e := he
    rw [if_neg hid]
    by_cases hid' : id = c.id ++ "_full"
    · subst hid'
      rw [if_pos rfl]
      refine ⟨hnameFull, ?_, hfull.symm⟩
      cases htw : c.twin with
      | true => exact htwin htw
      | false =>
        -- without a twin the name is a new one
        rw [registerEntries, htw, if_neg (by simp), Dict.find?_set_of_ne _ _ hid] at he'
        obtain ⟨-, ⟨fe, hfe⟩, -⟩ := h.registered _ e he'
        rw [hb.fresh.2] at hfe
        cases hfe
    · have hreg : s.registry.find? id = some e := by
        rw [registerEntries] at he'
        split_ifs at he'
        · rwa [Dict.find?_set_of_ne _ _ hid', Dict.find?_set_of_ne _ _ hid] at he'
        · rwa [Dict.find?_set_of_ne _ _ hid] at he'
      rw [if_neg hid', registerFiles_find? hb.id hid hid']
      exact h.registered id e hreg

theorem filesAt_mark_of_ne {parent : Option String} {k : String} (h : k ≠ id)
    (hfull : k ≠ id ++ "_full") : (s.mark parent id).filesAt k = s.filesAt k := by
  simp [State.mark, State.filesAt, Function.update_of_ne h, Function.update_of_ne hfull]

theorem filesAt_mark (s : State M P C) (parent : Option String) (id : String) :
    (s.mark parent id).filesAt id = some s.files.sb.visible ∧
      (s.mark parent id).filesAt (id ++ "_full") = some s.files.sb.visible := by
  simp [State.mark, State.filesAt]

theorem FilesInv.begin {parent : Option String} {raw : String} {inp : Overlay.CkptInput}
    {answers : Answers} (h : FilesInv cfg s) (hidle : s.ctl = .idle)
    (hagent : s.agentPid ∈ s.used) (hnew : NewId s parent inp.id)
    (hfresh : Overlay.FreshId cfg s.files.sb inp.id) (hpids : NewPids s answers.pids)
    (hparent : parent = s.files.pos) (hscan : inp.scanOk = true) (hfault : inp.fault = none) :
    FilesInv cfg (begin m cfg s parent raw inp answers) := by
  obtain ⟨hinv, hlive⟩ : Overlay.Inv cfg s.files ∧ Overlay.Live s.files.sb := by
    have hok := h.ok
    rw [FilesOk, hidle] at hok
    exact hok
  -- the history so far is not that of the new id
  have hregistered : ∀ id e, s.registry.find? id = some e → id ∈ (s.mark parent inp.id).names ∧
      (∃ fe, s.files.sb.registry.find? id = some fe) ∧
      s.files.seen id = (s.mark parent inp.id).filesAt id := by
    intro id e he
    obtain ⟨hname, hfe, hseen⟩ := h.registered id e he
    have hne : id ≠ inp.id := fun heq => hnew.1 (heq ▸ hname)
    have hne' : id ≠ inp.id ++ "_full" := fun heq => hnew.2.1 (heq ▸ hname)
    refine ⟨?_, hfe, hseen.trans (filesAt_mark_of_ne hne hne').symm⟩
    exact List.mem_cons_of_mem _ (List.mem_cons_of_mem _ (List.mem_append_right _ hname))
  have hspec := head_spec m inp.id parent raw inp (Overlay.chooseStrategy cfg raw inp.hot)
    (s := s.mark parent inp.id) hagent hpids
  rcases hr : head m inp.id parent raw inp (Overlay.chooseStrategy cfg raw inp.hot) answers
    (s.mark parent inp.id) with ⟨_ | c, t⟩
  · rw [hr] at hspec
    rw [Legacy.begin, hr]
    have hframe := hspec.frame
    have ht : FilesInv cfg t := by
      have hctl : t.ctl = .idle := by
        rw [hframe]
        exact hidle
      refine ⟨?_, fun c hc => (by rw [hctl] at hc; cases hc), fun id e he => ?_⟩
      · rw [FilesOk, hctl, hframe]
        exact ⟨hinv, hlive⟩
      · rw [hframe] at he ⊢
        exact hregistered id e he
    exact ht
  · rw [hr] at hspec
    rw [Legacy.begin, hr]
    obtain ⟨hforks, -, hid, hp, hraw, hinp, hstrategy, htwin, -, hprev⟩ := hspec
    have hframe := hforks.frame
    have ht : FilesInv cfg { t with ctl := .forked c } := by
      rw [hframe]
      refine ⟨⟨rfl, hinv, hlive, hp.trans hparent, ?_, ?_, ?_, ?_, ?_, ?_⟩, fun c' hc' => ?_,
        hregistered⟩
      · rw [hinp, hscan]
      · rw [hinp, hfault]
      · rw [hinp, hid]
      · rw [hinp]
        exact hfresh
      · rw [hstrategy, hraw, hinp]
      · rw [hprev, htwin]
        rintro (hsome | htrue)
        · cases hsome
        · cases htrue
      · obtain rfl := Option.some.inj hc'
        obtain ⟨hat, hfull⟩ := filesAt_mark s parent inp.id
        rw [hid]
        exact ⟨hat, hfull, List.mem_cons_self, List.mem_cons_of_mem _ List.mem_cons_self⟩
    exact ht

theorem FilesInv.agentStep (h : FilesInv cfg s) (hidle : s.ctl = .idle) (op : Option (FileOp P C))
    (ht : t = { s with mem := t.mem, files := FileOp.run s.files op, overrun := t.overrun }) :
    FilesInv cfg t := by
  obtain ⟨hinv, hlive⟩ : Overlay.Inv cfg s.files ∧ Overlay.Live s.files.sb := by
    have hok := h.ok
    rw [FilesOk, hidle] at hok
    exact hok
  have hstep : ∀ {a u}, a.ByAgent → Overlay.step cfg s.files a = some u →
      Overlay.Inv cfg u ∧ Overlay.Live u.sb := by
    intro a u ha hu
    have hsteady : Overlay.Steady s.files a := by
      cases a with
      | write => trivial
      | remove => trivial
      | checkpoint => exact absurd ha id
      | restore => exact absurd ha id
    have hswitch : ¬ a.SwitchRaises := by
      cases a with
      | write => exact id
      | remove => exact id
      | checkpoint => exact absurd ha id
      | restore => exact absurd ha id
    have ho := hsteady.outcome hinv hu
    exact ⟨ho.inv hinv, ho.live hlive hswitch⟩
  have hfiles : (Overlay.Inv cfg (FileOp.run s.files op) ∧ Overlay.Live (FileOp.run s.files op).sb) ∧
      (FileOp.run s.files op).sb.registry = s.files.sb.registry ∧
      (FileOp.run s.files op).seen = s.files.seen := by
    cases op with
    | none => exact ⟨⟨hinv, hlive⟩, rfl, rfl⟩
    | some op =>
      cases op with
      | write ds p c =>
        exact ⟨hstep (a := .write ds p c) trivial rfl, rfl, rfl⟩
      | remove ds p =>
        refine ⟨hstep (a := .remove ds p) trivial rfl, ?_, rfl⟩
        change (Overlay.agentRemove s.files.sb ds p).registry = _
        rw [Overlay.agentRemove]
        split
        · rfl
        · rfl
  have hctl : t.ctl = .idle := by
    rw [ht]
    exact hidle
  refine ⟨?_, fun c hc => (by rw [hctl] at hc; cases hc), fun id e he => ?_⟩
  · rw [FilesOk, hctl, ht]
    exact hfiles.1
  · rw [ht] at he ⊢
    change id ∈ s.names ∧ (∃ fe, (FileOp.run s.files op).sb.registry.find? id = some fe) ∧
      (FileOp.run s.files op).seen id = s.filesAt id
    rw [hfiles.2.1, hfiles.2.2]
    exact h.registered id e he

/-! ### The steps of a call -/

theorem FilesInv.begun (h : FilesInv cfg s) (hc : s.ctl = .forked c ∨ s.ctl = .submitted c ∨
    s.ctl = .watched c ∨ s.ctl = .waited c) : s.ctl.call = some c ∧ Begun cfg s c := by
  have hok := h.ok
  rw [FilesOk] at hok
  rcases hc with hc | hc | hc | hc <;> rw [hc] at hok ⊢ <;> exact ⟨rfl, hok⟩

theorem FilesInv.sunken (h : FilesInv cfg s) (hc : s.ctl = .sunk c ∨ s.ctl = .raised c ∨
    s.ctl = .joined c ∨ s.ctl = .finished c) : s.ctl.call = some c ∧ Sunken cfg s c := by
  have hok := h.ok
  rw [FilesOk] at hok
  rcases hc with hc | hc | hc | hc <;> rw [hc] at hok ⊢ <;> exact ⟨rfl, hok⟩

omit [DecidableEq P] in
theorem SameFiles.trans {u : State M P C} (h : SameFiles s t) (h' : SameFiles t u) :
    SameFiles s u :=
  ⟨h'.files.trans h.files, h'.before.trans h.before, h'.point.trans h.point,
    h'.registry.trans h.registry, h'.names.trans h.names⟩

omit [DecidableEq P] in
theorem SameFiles.dumpTwin (c : Call) (twin : Bool) : SameFiles s (dumpTwin s c twin) := by
  rw [Legacy.dumpTwin]
  split_ifs
  · exact ⟨rfl, rfl, rfl, rfl, rfl⟩
  · exact ⟨rfl, rfl, rfl, rfl, rfl⟩

omit [DecidableEq P] in
theorem SameFiles.bootstrapWait (c : Call) : SameFiles s (bootstrapWait s c) := by
  rw [Legacy.bootstrapWait]
  split_ifs
  · exact ⟨rfl, rfl, rfl, rfl, rfl⟩
  · exact ⟨rfl, rfl, rfl, rfl, rfl⟩

omit [DecidableEq P] in
theorem SameFiles.worker {label : Label M P C} (hw : WorkerMoves s label t) :
    SameFiles s t ∧ t.ctl = s.ctl := by
  cases hw <;> exact ⟨⟨rfl, rfl, rfl, rfl, rfl⟩, rfl⟩

theorem FilesInv.submit (h : FilesInv cfg s) (hc : s.ctl = .forked c) :
    FilesInv cfg (submit m s c) := by
  obtain ⟨hcall, hb⟩ := h.begun (Or.inl hc)
  rw [Legacy.submit]
  split_ifs with hlw
  · exact h.begunStep ⟨rfl, rfl, rfl, rfl, rfl⟩ hcall hb ⟨rfl, rfl, rfl, rfl, rfl⟩ hb.dump
      (Or.inr (Or.inr (Or.inr rfl)))
  · let prev := parentImage m s c.parent c.root
    have hsame : SameCall c { c with prev := prev, ownsFuture := true } :=
      ⟨rfl, rfl, rfl, rfl, rfl⟩
    exact h.begunStep ⟨rfl, rfl, rfl, rfl, rfl⟩ hcall hb hsame (fun _ => hlw) (Or.inr (Or.inl rfl))

theorem FilesInv.addCallback (h : FilesInv cfg s) (hc : s.ctl = .submitted c) :
    FilesInv cfg { addDoneCallback s c.id with ctl := .watched c } := by
  obtain ⟨hcall, hb⟩ := h.begun (Or.inr (Or.inl hc))
  have hsame : SameFiles s { addDoneCallback s c.id with ctl := .watched c } := by
    rw [addDoneCallback]
    split <;> exact ⟨rfl, rfl, rfl, rfl, rfl⟩
  exact h.begunStep hsame hcall hb ⟨rfl, rfl, rfl, rfl, rfl⟩ hb.dump (Or.inr (Or.inr (Or.inl rfl)))

theorem FilesInv.waits (h : FilesInv cfg s) (hc : s.ctl = .watched c) (twinOk : Bool) :
    FilesInv cfg (waits m s c twinOk) := by
  obtain ⟨hcall, hb⟩ := h.begun (Or.inr (Or.inr (Or.inl hc)))
  have hsame : SameFiles s (Legacy.waits m s c twinOk) := by
    rw [Legacy.waits]
    generalize (validationNeeded m s c && (joinFuture s c.id).isNone && twinOk) = twin
    have ht : SameFiles s (bootstrapWait (Legacy.dumpTwin s c twin) c) :=
      (SameFiles.dumpTwin c twin).trans (.bootstrapWait c)
    exact ⟨ht.files, ht.before, ht.point, ht.registry, ht.names⟩
  let twin := validationNeeded m s c && (joinFuture s c.id).isNone && twinOk
  have hsame' : SameCall c { c with twin := twin } := ⟨rfl, rfl, rfl, rfl, rfl⟩
  refine h.begunStep hsame hcall hb hsame' ?_ (Or.inr (Or.inr (Or.inr rfl)))
  rintro (hprev | htwin)
  · exact hb.dump (Or.inl hprev)
  · -- only an incremental dump is validated
    refine hb.dump (Or.inl ?_)
    change (validationNeeded m s c && (joinFuture s c.id).isNone && twinOk) = true at htwin
    rw [Bool.and_eq_true, Bool.and_eq_true, validationNeeded, Bool.and_eq_true, Bool.and_eq_true]
      at htwin
    exact htwin.1.1.1.2

theorem FilesInv.worker {label : Label M P C} (h : FilesInv cfg s) (hw : WorkerMoves s label t) :
    FilesInv cfg t := by
  obtain ⟨hsame, hctl⟩ := SameFiles.worker hw
  exact h.same_ctl hsame hctl

theorem FilesInv.join (h : FilesInv cfg s) (hc : s.ctl = .sunk c) :
    FilesInv cfg (joinBeforeTemplate m s c) := by
  obtain ⟨hcall, hb⟩ := h.sunken (Or.inl hc)
  have hsame : SameSunk c c := ⟨⟨rfl, rfl, rfl, rfl, rfl⟩, rfl, rfl, rfl⟩
  rw [joinBeforeTemplate]
  split
  · split
    · exact h.sunkenStep ⟨rfl, rfl, rfl, rfl, rfl⟩ hcall hb hsame (Or.inr (Or.inr (Or.inl rfl)))
    · exact h.sunkenStep ⟨rfl, rfl, rfl, rfl, rfl⟩ hcall hb hsame (Or.inr (Or.inl rfl))
  · exact h.sunkenStep ⟨rfl, rfl, rfl, rfl, rfl⟩ hcall hb hsame (Or.inr (Or.inr (Or.inr rfl)))

theorem FilesInv.fallback (h : FilesInv cfg s) (hc : s.ctl = .raised c)
    (failure : Option Failure) : FilesInv cfg (fullFallback s c failure) := by
  obtain ⟨hcall, hb⟩ := h.sunken (Or.inr (Or.inl hc))
  cases failure with
  | none =>
    have hsame : SameSunk c { c with ownsFuture := false, prev := none, fullFallback := true } :=
      ⟨⟨rfl, rfl, rfl, rfl, rfl⟩, rfl, rfl, rfl⟩
    exact h.sunkenStep ⟨rfl, rfl, rfl, rfl, rfl⟩ hcall hb hsame (Or.inr (Or.inr (Or.inl rfl)))
  | some f =>
    have hsame : SameSunk c { c with templatePid := none } :=
      ⟨⟨rfl, rfl, rfl, rfl, rfl⟩, rfl, rfl, rfl⟩
    exact h.sunkenStep ⟨rfl, rfl, rfl, rfl, rfl⟩ hcall hb hsame (Or.inr (Or.inr (Or.inr rfl)))

theorem FilesInv.template (h : FilesInv cfg s) (hc : s.ctl = .joined c) (child : Option ℕ) :
    FilesInv cfg (lateTemplate m s c child) := by
  obtain ⟨hcall, hb⟩ := h.sunken (Or.inr (Or.inr (Or.inl hc)))
  have hsame : ∀ template, SameSunk c { c with fixedClone := none, templatePid := template } :=
    fun _ => ⟨⟨rfl, rfl, rfl, rfl, rfl⟩, rfl, rfl, rfl⟩
  cases child with
  | none =>
    exact h.sunkenStep ⟨rfl, rfl, rfl, rfl, rfl⟩ hcall hb (hsame none)
      (Or.inr (Or.inr (Or.inr rfl)))
  | some pid =>
    rw [lateTemplate]
    split_ifs
    · exact h.sunkenStep ⟨rfl, rfl, rfl, rfl, rfl⟩ hcall hb (hsame (some pid))
        (Or.inr (Or.inr (Or.inr rfl)))
    · exact h.sunkenStep ⟨rfl, rfl, rfl, rfl, rfl⟩ hcall hb (hsame (some s.agentPid))
        (Or.inr (Or.inr (Or.inr rfl)))

/-- A call that raises before the sink leaves the files alone. -/
theorem FilesInv.raise (h : FilesInv cfg s) (hb : Begun cfg s c) :
    FilesInv cfg { s with ctl := .idle } := by
  refine h.same ⟨rfl, rfl, rfl, rfl, rfl⟩ ?_ fun c' hc' => (by cases hc')
  change Overlay.Inv cfg s.files ∧ Overlay.Live s.files.sb
  rw [hb.files]
  exact ⟨hb.inv, hb.live⟩

/-- The layers of an entry show the files of its call, also while another call is under way. -/
theorem FilesInv.through (h : FilesInv cfg s) {id : String} {e : Entry}
    (he : s.registry.find? id = some e) : ∃ fe, s.files.sb.registry.find? id = some fe ∧
      s.files.sb.disk.through fe.layers = s.filesAt id := by
  obtain ⟨-, ⟨fe, hfe⟩, hseen⟩ := h.registered id e he
  refine ⟨fe, hfe, ?_⟩
  have hok := h.ok
  rw [FilesOk] at hok
  rw [← hseen]
  have hshow : Overlay.Inv cfg s.files → s.files.sb.disk.through fe.layers = s.files.seen id := by
    intro hinv
    obtain ⟨is, his, -, hview⟩ := hinv.entries id fe hfe
    rw [hview, Disk.through, his]
    rfl
  cases hctl : s.ctl with
  | idle =>
    rw [hctl] at hok
    exact hshow hok.1
  | forked c | submitted c | watched c | waited c =>
    rw [hctl] at hok
    exact hshow (hok.files ▸ hok.inv)
  | sunk c | raised c | joined c | finished c =>
    rw [hctl] at hok
    -- the entry is not the one that the call will add
    have hne : id ≠ c.id := fun heq => by rw [heq, hok.fresh.1] at hfe; cases hfe
    have hne' : id ≠ c.id ++ "_full" := fun heq => by rw [heq, hok.fresh.2] at hfe; cases hfe
    obtain ⟨is, his, -, hview⟩ := hok.inv.entries id fe
      ((registerFiles_find? hok.id hne hne').trans hfe)
    rw [registerFiles_seen hok.id, if_neg hne, if_neg hne'] at hview
    have his' : s.files.sb.disk.resolve fe.layers = some is := his
    rw [hview, Disk.through, his']
    rfl

end Legacy

end DeltaBox
