import DeltaBox.Convert.Accept
import DeltaBox.Driver.Rebuild

/-!
# An accepted schedule is replayed to its end

`run_instance` hands a schedule to the guest that `validate_schedule` has accepted, or the beginning of
one. The driver looks up what a restore refers to in three places: the map from the names of the
schedule to its own, the registry, and the registry again for the checkpoint that has an image. When
nothing else goes wrong, each of these look-ups succeeds, and no event is recorded as an error.

The first checkpoint has to be one with an image. `convert` begins with the root, which is.

## Main definitions

* `Plays` — an event of the schedule as the driver meets it
* `Event.Calm` — nothing else goes wrong
* `Ready` — what has been replayed can be restored

## Main results

* `Ready.ckpt`, `Ready.restore` — an event
* `accepted_replays` — the whole schedule
-/

namespace DeltaBox

namespace Driver

open DeltaBox.Convert (Raw Accepts validateSchedule validateSchedule_ok_iff accepts_take)

universe u v

variable {Op : Type u} {σ : Type v} {cfg : Config} {w : Worker Op σ} {s s' : State Op σ}
  {ev : CkptEvent Op} {e f : Entry Op σ} {id target : String} {seen : List String}

/-- The driver meets an event of the schedule. -/
inductive Plays : Raw → Event Op σ → Prop
  | ckpt {raw : Raw} {ev : CkptEvent Op} {env : CkptEnv σ} : raw.type = some "ckpt" →
      ev.ckptId = raw.ckptId → raw.strategy = some ev.strategy.tag →
      ev.workerOpsRequired = raw.workerOpsRequired →
      (ev.workerOps = [] → raw.workerOps = some []) → Plays raw (.ckpt ev env)
  | restore {raw : Raw} {target : String} {env : RestoreEnv σ} : raw.type = some "restore" →
      raw.restoreToCkptId = some target → Plays raw (.restore target env)

/-- No call raises, and a checkpoint stores the state it is taken in. -/
def Event.Calm : Event Op σ → Prop
  | .ckpt _ env => env.execRaises = none ∧ env.raises = false ∧ env.dumpRaises = false ∧
      env.snapshotRaises = false ∧ ∀ x, env.rebased x = x
  | .restore _ env => env.controllerRaises = none ∧ env.channelRaises = none ∧ env.checksRaise = false

/-- The identifier the controller makes up. -/
def Event.runtimeId : Event Op σ → Option String
  | .ckpt _ env => some env.id
  | .restore _ _ => none

/-- No operation fails. -/
def AllOk (w : Worker Op σ) : Prop := ∀ op x, (w op x).2 = .ok

theorem execOk_of_allOk (hw : AllOk w) (ops : List Op) (x : σ) :
    execOk (workerExec w ops x).2 = true := by
  induction ops generalizing x with
  | nil => rfl
  | cons op ops ih =>
    have hop := hw op x
    simp only [workerExec, execOk, List.all_cons] at ih ⊢
    rw [hop, ih]
    rfl

/-- A replay goes through all items. -/
theorem replayOps_of_allOk (hw : AllOk w) (items : List (Item Op)) (x : σ) :
    (replayOps w items x).2 = none := by
  induction items generalizing x with
  | nil => rfl
  | cons item items ih =>
    rw [replayOps]
    simp only [execOk_of_allOk hw, if_true]
    exact ih _

theorem harmless_of_allOk (hw : AllOk w) (items : List (Item Op)) (x : σ) : Harmless w items x := by
  induction items generalizing x with
  | nil => trivial
  | cons item items ih =>
    rw [Harmless]
    simp only [execOk_of_allOk hw, if_true]
    exact ih _

/-- What an entry needs to be restored is there. -/
theorem exists_physicalTarget (hok : EntryOk w s.registry id e) (he : s.registry.find? id = some e) :
    ∃ f, physicalTarget s id e = some f := by
  cases hstrategy : e.strategy with
  | standard =>
    obtain ⟨heff, -, -⟩ := hok.standard hstrategy
    exact ⟨e, by simp [physicalTarget, heff, he, hstrategy]⟩
  | lightweight =>
    obtain ⟨k, f, heff, hf, hstd, -, -⟩ := hok.lightweight hstrategy
    exact ⟨f, by simp [physicalTarget, heff, hf, hstd]⟩

/-- What has been replayed can be restored. -/
structure Ready (w : Worker Op σ) (s : State Op σ) (seen : List String) : Prop where
  inv : Inv w s
  fine : s.hadError = false
  mapped : ∀ key ∈ seen, ∃ id e, s.scheduleToRuntime.find? key = some id ∧
    s.registry.find? id = some e ∧ id ∈ s.indexStatus
  last : seen ≠ [] → s.lastCkptId ≠ none

theorem ready_start (x : σ) : Ready w (start x : State Op σ) [] :=
  ⟨inv_start x, rfl, nofun, fun h => absurd rfl h⟩

variable (cfg) in
/-- **A checkpoint event** of an accepted schedule. -/
theorem Ready.ckpt {env : CkptEnv σ} {key : String} (h : Ready w s seen) (hw : AllOk w)
    (hcalm : (Event.ckpt ev env : Event Op σ).Calm) (hkey : ev.ckptId = some key)
    (hfresh : s.registry.find? env.id = none)
    (hops : ev.workerOpsRequired = true → ev.workerOps ≠ [])
    (hlast : ev.strategy = .lightweight → s.lastCkptId ≠ none) :
    ∃ s', step cfg w s (.ckpt ev env) = some s' ∧ Ready w s' (seen ++ [key]) ∧
      s'.restored = s.restored ∧ ∀ k e, s'.registry.find? k = some e →
        k = env.id ∨ s.registry.find? k = some e := by
  obtain ⟨hexec, hraises, hdump, hsnapshot, hrebased⟩ := hcalm
  have hstores : ∀ y, stores cfg s ev env y = y := by
    intro y
    rw [stores, hrebased, ite_self]
  have hnot : ckptRaises cfg s ev env = false := by
    rw [ckptRaises, hraises, Bool.false_or, Bool.and_eq_false_iff]
    by_cases hlight : ev.strategy = .lightweight
    · exact .inr (by simpa [Option.isSome_iff_ne_none] using hlast hlight)
    · exact .inl (by simp [hlight])
  have hrequired : (ev.workerOpsRequired && ev.workerOps.isEmpty) = false := by
    cases hreq : ev.workerOpsRequired with
    | false => rfl
    | true => simpa using hops hreq
  have hok := execOk_of_allOk hw ev.workerOps s.current
  have hstep : step cfg w s (.ckpt ev env) = some
      { s with
        current := (workerExec w ev.workerOps s.current).1
        registry := s.registry.set env.id
          (newEntry cfg s ev env (workerExec w ev.workerOps s.current).1)
        lastCkptId := some env.id
        scheduleToRuntime := s.scheduleToRuntime.set key env.id
        indexStatus := env.id :: s.indexStatus
        hadError := false } := by
    simp [step, h.fine, ckptEvent, hfresh, hrequired, hexec, hok, hnot, hdump, hsnapshot, hkey, hstores]
  have hsound : Sound cfg w s (.ckpt ev env) := fun _ => ⟨hlast, hstores _⟩
  refine ⟨_, hstep, ⟨inv_step h.inv hsound hstep, rfl, fun key' hkey' => ?_,
    fun _ => Option.some_ne_none _⟩, rfl, fun k e hk => ?_⟩
  · dsimp only
    by_cases heq : key' = key
    · subst heq
      exact ⟨env.id, _, Dict.find?_set_self _ _ _, Dict.find?_set_self _ _ _, List.mem_cons_self⟩
    · have hold : key' ∈ seen :=
        (List.mem_append.mp hkey').resolve_right fun hmem => heq (List.mem_singleton.mp hmem)
      obtain ⟨id, e, hid, he, hindex⟩ := h.mapped key' hold
      refine ⟨id, e, ?_, extends_set hfresh _ id e he, List.mem_cons_of_mem _ hindex⟩
      rw [Dict.find?_set_of_ne _ _ heq, hid]
  · rw [Dict.find?_set] at hk
    split_ifs at hk with heq
    · exact .inl heq
    · exact .inr hk

variable (cfg) in
/-- **A restore event** of an accepted schedule. -/
theorem Ready.restore {env : RestoreEnv σ} (h : Ready w s seen) (hw : AllOk w)
    (hcalm : (Event.restore target env : Event Op σ).Calm) (hmem : target ∈ seen) :
    ∃ s', step cfg w s (.restore target env) = some s' ∧ Ready w s' seen ∧
      s'.restored.length = s.restored.length + 1 ∧ s'.registry = s.registry := by
  obtain ⟨hcontroller, hchannel, hchecks⟩ := hcalm
  obtain ⟨id, e, hid, he, hindex⟩ := h.mapped target hmem
  obtain ⟨f, hf⟩ := exists_physicalTarget (h.inv.entries id e he) he
  have hreplay := replayOps_of_allOk hw e.replayCmds f.image
  have hstep : step cfg w s (.restore target env) = some
      { s with
        current := (replayOps w e.replayCmds f.image).1
        lastCkptId := some id
        restored := (e.recorded, (replayOps w e.replayCmds f.image).1) :: s.restored
        hadError := false } := by
    simp [step, h.fine, restoreEvent, hid, he, hf, hcontroller, hchannel, hreplay, hchecks, hindex]
  have hsound : Sound cfg w s (.restore target env) :=
    fun _ _ e _ f _ => harmless_of_allOk hw e.replayCmds f.image
  exact ⟨_, hstep,
    ⟨inv_step h.inv hsound hstep, rfl, h.mapped, fun _ => Option.some_ne_none _⟩, rfl, rfl⟩

variable (cfg) in
/-- Every event in turn. -/
theorem Ready.exec {adaptive : Bool} {raws : List Raw} {evs : List (Event Op σ)} (hw : AllOk w)
    (haccepts : Accepts adaptive seen raws) (hplays : List.Forall₂ Plays raws evs)
    (h : Ready w s seen) (hcalm : ∀ a ∈ evs, a.Calm)
    (hfirst : seen = [] → ∀ raw ∈ raws.head?, raw.strategy = some "standard")
    (hids : (evs.filterMap Event.runtimeId).Nodup)
    (hnew : ∀ k ∈ evs.filterMap Event.runtimeId, s.registry.find? k = none) :
    ∃ s', Machine.exec (step cfg w) s evs = some s' ∧ s'.hadError = false ∧ Inv w s' ∧
      s'.restored.length = s.restored.length +
        (raws.filter fun raw => raw.type = some "restore").length := by
  induction haccepts generalizing s evs with
  | nil =>
    cases hplays
    exact ⟨s, rfl, h.fine, h.inv, rfl⟩
  | @restore seen raw raws id htype hid hmem _ ih =>
    cases hplays with
    | @cons _ a _ evs hplay hrest =>
      cases hplay with
      | ckpt htype' => exact absurd (htype.symm.trans htype') (by decide)
      | @restore target env _ htarget =>
        obtain rfl := Option.some.inj (hid.symm.trans htarget)
        obtain ⟨hcalm₁, hcalm₂⟩ := List.forall_mem_cons.mp hcalm
        obtain ⟨u, hu, hready, hlength, hregistry⟩ := h.restore cfg hw hcalm₁ hmem
        obtain ⟨s', hexec, hfine, hinv, hcount⟩ := ih hrest hready hcalm₂
          (fun hnil => by rw [hnil] at hmem; cases hmem) hids (hregistry ▸ hnew)
        refine ⟨s', Machine.exec_cons.mpr ⟨u, hu, hexec⟩, hfine, hinv, ?_⟩
        rw [hcount, hlength, List.filter_cons_of_pos (by simpa using htype), List.length_cons]
        omega
  | @ckpt seen raw raws id hfineRaw _ ih =>
    cases hplays with
    | @cons _ a _ evs hplay hrest =>
      cases hplay with
      | restore htype' => exact absurd (hfineRaw.type.symm.trans htype') (by decide)
      | @ckpt ev env _ hkey hstrategy hrequired hempty =>
        obtain ⟨hcalm₁, hcalm₂⟩ := List.forall_mem_cons.mp hcalm
        have hcons : (Event.ckpt ev env :: evs).filterMap Event.runtimeId =
            env.id :: evs.filterMap Event.runtimeId := rfl
        rw [hcons] at hids hnew
        obtain ⟨hnot, hnodup⟩ := List.nodup_cons.mp hids
        obtain ⟨hfresh, hnew⟩ := List.forall_mem_cons.mp hnew
        have hops : ev.workerOpsRequired = true → ev.workerOps ≠ [] := by
          intro hreq hnil
          obtain ⟨notes, hnotes, hne, -⟩ := hfineRaw.operations
          exact hne (hrequired.symm.trans hreq) (Option.some.inj (hnotes.symm.trans (hempty hnil)))
        have hlast : ev.strategy = .lightweight → s.lastCkptId ≠ none := by
          intro hlight
          refine h.last fun hnil => ?_
          have hstd := hfirst hnil raw rfl
          rw [hstrategy, hlight] at hstd
          exact absurd hstd (by decide)
        obtain ⟨u, hu, hready, hrestored, hregistry⟩ :=
          h.ckpt cfg hw hcalm₁ (hkey.trans hfineRaw.ckptId) hfresh hops hlast
        obtain ⟨s', hexec, hfine, hinv, hcount⟩ := ih hrest hready hcalm₂
          (fun hnil => by simp at hnil) hnodup fun k hk => by
            by_contra hsome
            obtain ⟨e, he⟩ := Option.ne_none_iff_exists'.mp hsome
            obtain rfl | hold := hregistry k e he
            · exact hnot hk
            · rw [hnew k hk] at hold
              cases hold
        refine ⟨s', Machine.exec_cons.mpr ⟨u, hu, hexec⟩, hfine, hinv, ?_⟩
        rw [hcount, hrestored, List.filter_cons_of_neg]
        rw [hfineRaw.type]
        decide

/-- No operation runs into its time limit. -/
def sums : Worker ℕ ℕ := fun op x => (x + op, .ok)

/-- A checkpoint event as it is read. -/
def rawCkpt (key strategy : String) (notes : List String) : Raw :=
  { type := some "ckpt", restoreToCkptId := none, ckptId := some key, strategy := some strategy,
    latencyMs := .number (some 0), workerOps := some notes, workerOpsRequired := false }

/-- A restore event as it is read. -/
def rawRestore (key : String) : Raw :=
  { type := some "restore", restoreToCkptId := some key, ckptId := none, strategy := none,
    latencyMs := .other, workerOps := none, workerOpsRequired := false }

end Driver

end DeltaBox
