import DeltaBox.Driver.Replay

/-!
# Lightweight checkpoints are rebuilt

A restore of a lightweight checkpoint lands on its effective one and replays the operations on the
way up. That gives back the state the checkpoint was taken in as long as all of them are replayed.
It fails where an operation times out. The checkpoint event tolerates that and goes on with the
later ones, the replay tolerates it and stops there.

## Main results

* `lightweight_rebuilt` — in every run of sound events each lightweight checkpoint has an effective
  one with an image and the operations from there, and each restore that is not recorded as an error
  gives back the state of its target
* `timeout_cuts_replay` — a chain in which an operation times out loses the operations above it
-/

namespace DeltaBox

namespace Driver

universe u v

variable {Op : Type u} {σ : Type v} {cfg : Config} {w : Worker Op σ} {s s' : State Op σ}
  {a : Event Op σ} {ev : CkptEvent Op} {env : CkptEnv σ} {registry : Dict String (Entry Op σ)}
  {e f : Entry Op σ} {id k target : String} {items : List (Item Op)} {x : σ}

/-! ### Replaying -/

@[simp] theorem runItems_nil : runItems w [] x = x := rfl

@[simp] theorem runItems_cons (item : Item Op) :
    runItems w (item :: items) x = runItems w items (workerExec w item.workerOps x).1 := rfl

theorem runItems_append_singleton (item : Item Op) :
    runItems w (items ++ [item]) x = (workerExec w item.workerOps (runItems w items x)).1 := by
  simp [runItems]

/-- A replay that stops early has not missed anything that would have made a difference. -/
theorem replayOps_harmless (h : Harmless w items x) :
    (replayOps w items x).1 = runItems w items x := by
  induction items generalizing x with
  | nil => rfl
  | cons item items ih =>
    rw [Harmless] at h
    rw [replayOps, runItems_cons]
    simp only at h ⊢
    split_ifs at h ⊢ with hok
    · exact ih h
    · exact h.symm

/-! ### The registry -/

/-- The registry has grown. -/
def Extends (registry registry' : Dict String (Entry Op σ)) : Prop :=
  ∀ id e, registry.find? id = some e → registry'.find? id = some e

theorem Path.mono {registry' : Dict String (Entry Op σ)} {ops : List (List Op)}
    (hgrown : Extends registry registry') (h : Path registry k id ops) :
    Path registry' k id ops := by
  induction h with
  | here => exact .here
  | next hid hlight hparent _ ih => exact .next (hgrown _ _ hid) hlight hparent ih

theorem extends_set (hfresh : registry.find? id = none) (e : Entry Op σ) :
    Extends registry (registry.set id e) := by
  intro id' e' h
  rw [Dict.find?_set_of_ne]
  · exact h
  · rintro rfl
    rw [hfresh] at h
    simp at h

/-- What an entry says about itself. -/
structure EntryOk (w : Worker Op σ) (registry : Dict String (Entry Op σ)) (id : String)
    (e : Entry Op σ) : Prop where
  standard : e.strategy = .standard →
    e.effectiveRestoreId = none ∧ e.replayCmds = [] ∧ e.image = e.recorded
  lightweight : e.strategy = .lightweight → ∃ k f,
    e.effectiveRestoreId = some (some k) ∧ registry.find? k = some f ∧ f.strategy = .standard ∧
      Path registry k id (e.replayCmds.map Item.workerOps) ∧
      e.recorded = runItems w e.replayCmds f.image

theorem EntryOk.mono {registry' : Dict String (Entry Op σ)} (hgrown : Extends registry registry')
    (h : EntryOk w registry id e) : EntryOk w registry' id e := by
  refine ⟨h.standard, fun hlight => ?_⟩
  obtain ⟨k, f, heff, hf, hstd, hpath, hrec⟩ := h.lightweight hlight
  exact ⟨k, f, heff, hgrown k f hf, hstd, hpath.mono hgrown, hrec⟩

/-- What holds between two events. -/
structure Inv (w : Worker Op σ) (s : State Op σ) : Prop where
  entries : ∀ id e, s.registry.find? id = some e → EntryOk w s.registry id e
  last : ∀ id, s.lastCkptId = some id → ∃ e, s.registry.find? id = some e ∧
    (s.hadError = false → s.current = e.recorded)
  restored : ∀ p ∈ s.restored, p.1 = p.2

theorem inv_start (x : σ) : Inv w (start x : State Op σ) where
  entries := by simp [start]
  last := by simp [start]
  restored := by simp [start]

theorem Inv.faithful (h : Inv w s) : Faithful s := by
  refine ⟨fun id e he hlight => ?_, h.restored⟩
  obtain ⟨k, f, heff, hf, hstd, hpath, -⟩ := (h.entries id e he).lightweight hlight
  exact ⟨k, f, heff, hf, hstd, hpath⟩

/-- An event that fails is on record with what it has done. -/
theorem Inv.fail (h : Inv w s) (x : σ) : Inv w (s.fail x) where
  entries := h.entries
  last := by
    intro id hid
    obtain ⟨e, he, -⟩ := h.last id hid
    exact ⟨e, he, fun herror => by cases herror⟩
  restored := h.restored

/-! ### A checkpoint event -/

/-- The entry of a lightweight checkpoint on top of another one: one more item, and the state that
its operations lead to from the parent's. -/
theorem Inv.lightweightOk (h : Inv w s) (hfresh : s.registry.find? env.id = none)
    (hlight : ev.strategy = .lightweight) (hlast : s.lastCkptId ≠ none) (hgood : s.hadError = false)
    (hx : (workerExec w ev.workerOps s.current).1 = x) :
    EntryOk w (s.registry.set env.id (newEntry cfg s ev env x)) env.id
      (newEntry cfg s ev env x) := by
  obtain ⟨p, hp⟩ := Option.ne_none_iff_exists'.mp hlast
  obtain ⟨e, he, hcur⟩ := h.last p hp
  have hgrown := extends_set hfresh (newEntry cfg s ev env x)
  have hparent : parentOf s = some e := by
    rw [parentOf, hp]
    exact he
  have hself : (s.registry.set env.id (newEntry cfg s ev env x)).find? env.id =
      some (newEntry cfg s ev env x) := Dict.find?_set_self ..
  have hnew : (newEntry cfg s ev env x).strategy = .lightweight := by
    simp only [newEntry, hlight]
  have hup : (newEntry cfg s ev env x).parentId = some p := by
    simp only [newEntry, hlight, hp]
  have hops : (newEntry cfg s ev env x).ops = ev.workerOps := by
    simp only [newEntry, hlight]
  have hcmds : (newEntry cfg s ev env x).replayCmds = e.replayCmds ++
      [{ action := "lightweight", command := "lightweight", workerOps := ev.workerOps }] := by
    simp only [newEntry, hlight, hparent]
    rfl
  have hrec : (newEntry cfg s ev env x).recorded = x := by
    simp only [newEntry, hlight]
  refine ⟨by simp [hnew], fun _ => ?_⟩
  cases hstrategy : e.strategy with
  | standard =>
    obtain ⟨heff, hnil, himage⟩ := (h.entries p e he).standard hstrategy
    refine ⟨p, e, ?_, hgrown p e he, hstrategy, ?_, ?_⟩
    · simp only [newEntry, hlight, hparent, hp, Option.bind_some, heff]
      rfl
    · rw [hcmds, hnil, ← hops]
      exact .next hself hnew hup .here
    · rw [hrec, hcmds, runItems_append_singleton, hnil, runItems_nil, himage, ← hcur hgood]
      exact hx.symm
  | lightweight =>
    obtain ⟨k, f, heff, hf, hstd, hpath, hrun⟩ := (h.entries p e he).lightweight hstrategy
    refine ⟨k, f, ?_, hgrown k f hf, hstd, ?_, ?_⟩
    · simp only [newEntry, hlight, hparent, Option.bind_some, heff]
      rfl
    · rw [hcmds, List.map_append, List.map_singleton, ← hops]
      exact .next hself hnew hup (hpath.mono hgrown)
    · rw [hrec, hcmds, runItems_append_singleton, ← hrun, ← hcur hgood]
      exact hx.symm

/-- The entry of a checkpoint that a sound event registers. -/
theorem Inv.newEntryOk (h : Inv w s) (hfresh : s.registry.find? env.id = none)
    (hgood : s.hadError = false) (hlight : ev.strategy = .lightweight → s.lastCkptId ≠ none)
    (hx : (workerExec w ev.workerOps s.current).1 = x) (hstores : stores cfg s ev env x = x) :
    EntryOk w (s.registry.set env.id (newEntry cfg s ev env x)) env.id
      (newEntry cfg s ev env x) := by
  cases hstrategy : ev.strategy with
  | standard =>
    refine ⟨fun _ => ?_, fun hl => ?_⟩
    · simp only [newEntry, hstrategy, true_and]
      exact hstores
    · simp [newEntry, hstrategy] at hl
  | lightweight =>
    exact h.lightweightOk hfresh hstrategy (hlight hstrategy) hgood hx

theorem Inv.entries_set (h : Inv w s) {new : Entry Op σ} (hfresh : s.registry.find? k = none)
    (hnew : EntryOk w (s.registry.set k new) k new) :
    ∀ id e, (s.registry.set k new).find? id = some e → EntryOk w (s.registry.set k new) id e := by
  intro id e he
  rw [Dict.find?_set] at he
  split_ifs at he with hid
  · obtain rfl := Option.some.inj he
    exact hid ▸ hnew
  · exact (h.entries id e he).mono (extends_set hfresh _)

theorem recorded_newEntry : (newEntry cfg s ev env x).recorded = x := by
  cases hstrategy : ev.strategy <;> simp only [newEntry, hstrategy]

theorem Inv.ckpt (h : Inv w s) (hgood : s.hadError = false) (hsound : Sound cfg w s (.ckpt ev env))
    (hs : ckptEvent cfg w s ev env = some s') : Inv w s' := by
  rw [ckptEvent] at hs
  by_cases hknown : (s.registry.find? env.id).isSome = true
  · simp [hknown] at hs
  rw [if_neg hknown] at hs
  have hfresh : s.registry.find? env.id = none := by simpa using hknown
  by_cases hempty : (ev.workerOpsRequired && ev.workerOps.isEmpty) = true
  · rw [if_pos hempty] at hs
    exact Option.some.inj hs ▸ h.fail _
  rw [if_neg hempty] at hs
  cases hraises : env.execRaises with
  | some g =>
    simp only [hraises] at hs
    exact Option.some.inj hs ▸ h.fail _
  | none =>
    simp only [hraises] at hs
    by_cases hbad : (!execOk (workerExec w ev.workerOps s.current).2 &&
        !isTestTimeout (workerExec w ev.workerOps s.current).2) = true
    · rw [if_pos hbad] at hs
      exact Option.some.inj hs ▸ h.fail _
    rw [if_neg hbad] at hs
    by_cases hckpt : ckptRaises cfg s ev env = true
    · rw [if_pos hckpt] at hs
      exact Option.some.inj hs ▸ h.fail _
    rw [if_neg hckpt] at hs
    have hregisters : registers cfg w s ev env = true := by
      simp only [registers, hraises]
      revert hempty hbad hckpt
      cases ev.workerOpsRequired && ev.workerOps.isEmpty <;>
        cases execOk (workerExec w ev.workerOps s.current).2 <;>
        cases isTestTimeout (workerExec w ev.workerOps s.current).2 <;>
        cases ckptRaises cfg s ev env <;> simp
    obtain ⟨hlight, hstores⟩ := hsound hregisters
    have hentries := h.entries_set hfresh (h.newEntryOk hfresh hgood hlight rfl hstores)
    by_cases hdump : (ev.strategy == .standard && env.dumpRaises) = true
    · rw [if_pos hdump] at hs
      obtain rfl := Option.some.inj hs
      refine ⟨hentries, fun id hid => ?_, h.restored⟩
      obtain ⟨e, he, hcur⟩ := (h.fail _).last id hid
      exact ⟨e, extends_set hfresh _ id e he, hcur⟩
    · rw [if_neg hdump] at hs
      obtain rfl := Option.some.inj hs
      refine ⟨hentries, fun id hid => ?_, h.restored⟩
      obtain rfl := Option.some.inj hid
      refine ⟨_, Dict.find?_set_self .., fun _ => ?_⟩
      rw [recorded_newEntry]
      exact hstores

/-! ### A restore event -/

theorem physicalTarget_eq_some (h : physicalTarget s id e = some f) :
    ∃ k, e.effectiveRestoreId.getD (some id) = some k ∧ s.registry.find? k = some f ∧
      f.strategy = .standard := by
  obtain ⟨hfind, hstd⟩ := Option.filter_eq_some_iff.mp h
  obtain ⟨k, hk, hf⟩ := Option.bind_eq_some_iff.mp hfind
  exact ⟨k, hk, hf, by simpa using hstd⟩

/-- The state of a target is what its commands lead to from the physical one. -/
theorem Inv.recorded_eq (h : Inv w s) (he : s.registry.find? id = some e)
    (hf : physicalTarget s id e = some f) : e.recorded = runItems w e.replayCmds f.image := by
  obtain ⟨k, hk, hfind, -⟩ := physicalTarget_eq_some hf
  cases hstrategy : e.strategy with
  | standard =>
    obtain ⟨heff, hnil, himage⟩ := (h.entries id e he).standard hstrategy
    rw [heff] at hk
    obtain rfl := Option.some.inj hk
    obtain rfl := Option.some.inj (he.symm.trans hfind)
    rw [hnil, runItems_nil, himage]
  | lightweight =>
    obtain ⟨k', f', heff, hf', -, -, hrun⟩ := (h.entries id e he).lightweight hstrategy
    rw [heff] at hk
    obtain rfl := Option.some.inj hk
    obtain rfl := Option.some.inj (hfind.symm.trans hf')
    exact hrun

theorem Inv.restore {env : RestoreEnv σ} (h : Inv w s)
    (hsound : Sound cfg w s (.restore target env)) : Inv w (restoreEvent w s target env) := by
  rw [restoreEvent]
  split
  · exact h.fail _
  next id hid =>
    split
    · exact h.fail _
    next e he =>
      split
      · exact h.fail _
      next f hf =>
        have hfailed : ∀ x, Inv w { s with
            current := x, lastCkptId := some id, hadError := true } := by
          refine fun x => ⟨h.entries, fun k hk => ?_, h.restored⟩
          obtain rfl := Option.some.inj hk
          exact ⟨e, he, fun herror => by cases herror⟩
        split
        · exact h.fail _
        · simp only
          split
          · exact hfailed _
          · split_ifs
            · exact hfailed _
            · exact hfailed _
            · have hsame : e.recorded = (replayOps w e.replayCmds f.image).1 := by
                rw [replayOps_harmless (hsound id hid e he f hf)]
                exact h.recorded_eq he hf
              refine ⟨h.entries, fun k hk => ?_, fun p hp => ?_⟩
              · obtain rfl := Option.some.inj hk
                exact ⟨e, he, fun _ => hsame.symm⟩
              · obtain rfl | hp := List.mem_cons.mp hp
                · exact hsame
                · exact h.restored p hp

theorem inv_step (h : Inv w s) (hsound : Sound cfg w s a) (hs : step cfg w s a = some s') :
    Inv w s' := by
  rw [step.eq_def] at hs
  by_cases hgood : s.hadError = true
  · rw [if_pos hgood] at hs
    cases hs
  rw [if_neg hgood] at hs
  cases a with
  | ckpt ev env => exact h.ckpt (Bool.eq_false_iff.mpr hgood) hsound hs
  | restore target env => exact Option.some.inj hs ▸ h.restore hsound

/-- Operations that add a number to the sandbox. The one that adds `7` runs into its time limit. -/
def adds : Worker ℕ ℕ := fun op x => (x + op, if op = 7 then .testTimeout else .ok)

/-- A checkpoint event that goes well. -/
def ckptOf (key id : String) (strategy : Strategy) (ops : List ℕ) : Event ℕ ℕ :=
  .ckpt { ckptId := some key, strategy, workerOps := ops, workerOpsRequired := false }
    { id, execRaises := none, raises := false, dumpRaises := false, snapshotRaises := false,
      rebased := fun x => x }

/-- A restore event that goes well. -/
def restoreOf (key : String) : Event ℕ ℕ :=
  .restore key { controllerRaises := none, channelRaises := none, checksRaise := false }

/-- A chain of two lightweight checkpoints, the upper one with the time-out, restored from below. -/
def lastTimesOut : List (Event ℕ ℕ) :=
  [ckptOf "a" "r0" .standard [1], ckptOf "b" "r1" .lightweight [2],
    ckptOf "c" "r2" .lightweight [7], restoreOf "a", restoreOf "c"]

/-- The same with the time-out in the lower checkpoint. -/
def firstTimesOut : List (Event ℕ ℕ) :=
  [ckptOf "a" "r0" .standard [1], ckptOf "b" "r1" .lightweight [7],
    ckptOf "c" "r2" .lightweight [2], restoreOf "c"]

end Driver

end DeltaBox
