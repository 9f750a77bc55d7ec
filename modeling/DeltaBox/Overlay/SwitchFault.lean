import DeltaBox.Overlay.Rollback

/-!
# A layer switch that raises

`_checkpoint_legacy` renames the live upper before it asks the kernel to switch. When the switch
raises, the overlay still writes to the renamed directory but `current_upper` is a path that no
longer exists. `os.walk` reports nothing for such a path, so the next checkpoint finds the upper
clean and records its parent's layers, without what the agent wrote. The `except OSError` branch
that assumes the worst is never reached, since `os.walk` swallows the error. `_sink`, the
asynchronous variant, refuses to go on instead.

A successful restore ends the danger, because it mounts a new upper. So what has to be asked of a
run is exactly that no checkpoint is made in between, while `current_upper` names nothing.

## Main results

* `switch_fault_loses_write` — the run in which a write is lost
* `switch_fault_exact` — no write is lost in a steady run, however often the switch raises
-/

namespace DeltaBox

namespace Overlay

open Machine

variable {P C : Type*}

/-- The steps of a caller that keeps to the current position, when the layer switch of a checkpoint
may raise but nothing else does. -/
def SwitchOnly (t : Traced P C) : Action P C → Prop
  | .checkpoint parent _ inp => parent = t.pos ∧ inp.scanOk = true ∧
      (inp.fault = none ∨ inp.fault = some .switch)
  | .restore _ _ fault => fault = none
  | _ => True

instance (t : Traced P C) : ∀ a, Decidable (SwitchOnly t a)
  | .write .. => isTrue trivial
  | .remove .. => isTrue trivial
  | .checkpoint .. => inferInstanceAs (Decidable (_ ∧ _))
  | .restore _ _ fault => inferInstanceAs (Decidable (fault = none))

variable [DecidableEq P] {cfg : Config} {t t' : Traced P C}

/-- What a checkpoint that returned has recorded: its layers show what the agent saw, and it is
recorded as clean only over an upper that is the mounted one and empty. -/
theorem Outcome.recorded {parent : Option String} {raw : String} {inp : CkptInput} {e : Entry}
    (h : Inv cfg t) (ho : Outcome cfg t (.checkpoint parent raw inp) t')
    (hnew : t.sb.registry.find? inp.id = none) (he : t'.sb.registry.find? inp.id = some e) :
    t'.sb.disk.through e.layers = some t.sb.visible ∧
      (e.upperDirty = false → (t.sb.disk.content t.sb.mount.upper).isDirty = false) := by
  cases ho with
  | agent ha l => exact absurd ha id
  | raised hext hmount hreg hup =>
    rw [hreg, hnew] at he
    cases he
  | taken hfresh hsunk hreg hdirty =>
    obtain rfl := Option.some.inj (hreg.self.symm.trans he)
    constructor
    · have hlay := hsunk.resolve_layers h.lowers h.currentUpper_notMem_parentLayers rfl
      rw [← hsunk.view_lowers h.lowers rfl h.upper_lt, Disk.through]
      exact congrArg (Option.map _) hlay
    · intro hclean
      exact (hsunk.clean (hdirty.symm.trans hclean)).1

/-- **No write is lost in a steady run.** Every checkpoint of the run may have its layer switch
raise. As long as each one is made while `current_upper` names a directory that can be listed, every
checkpoint that returns records layers that show everything the agent saw, and it records the upper
as clean only when the mounted upper is the one it listed and is empty. -/
theorem switch_fault_exact {t₀ : Traced P C} {as : List (Action P C)} (h₀ : Initial cfg t₀)
    (hC : Along (step cfg) Steady t₀ as) (hrun : exec (step cfg) t₀ as = some t) :
    ∀ parent raw inp u e, Steady t (.checkpoint parent raw inp) →
      step cfg t (.checkpoint parent raw inp) = some u → u.sb.registry.find? inp.id = some e →
        u.sb.disk.through e.layers = some t.sb.visible ∧
          (e.upperDirty = false → t.sb.disk.names t.sb.currentUpper = some t.sb.mount.upper ∧
            inp.scanOk = true ∧ (t.sb.disk.content t.sb.mount.upper).isDirty = false) := by
  intro parent raw inp u e hs hu he
  have h : Inv cfg t := invariant_along (fun h hs hstep => hs.inv_step h hstep) h₀.inv hC hrun
  obtain ⟨hview, hclean⟩ := (hs.outcome h hu).recorded h (freshId_of_step hu).2.1 he
  exact ⟨hview, fun hd => ⟨h.live_of_names hs.2.2.2, hs.2.1, hclean hd⟩⟩

/-- The input of a checkpoint whose layer switch raises. -/
def switchFault (id : String) : CkptInput := { exampleInput id with fault := some .switch }

/-- A switch that raises, a restore, and a clean checkpoint. -/
def faultThenRestore : List (Action ℕ ℕ) :=
  [.write [] 1 10, .checkpoint none "standard" (exampleInput "a"), .write [] 2 20,
    .checkpoint (some "a") "standard" (switchFault "b"), .restore "a" "r" none, .write [] 3 30]

/-- The restore makes the next checkpoint safe again. -/
theorem switch_fault_exact_restore :
    ∃ t, exec (step exampleConfig) exampleStart faultThenRestore = some t ∧
      ∀ u e, step exampleConfig t (.checkpoint (some "a") "standard" (exampleInput "c")) = some u →
        u.sb.registry.find? "c" = some e → u.sb.disk.through e.layers = some t.sb.visible := by
  obtain ⟨t, ht⟩ := Option.isSome_iff_exists.mp
    (show (exec (step exampleConfig) exampleStart faultThenRestore).isSome by decide +kernel)
  have hs : (exec (step exampleConfig) exampleStart faultThenRestore).all (fun t =>
      decide (Steady t (.checkpoint (some "a") "standard" (exampleInput "c")))) = true := by
    decide +kernel
  rw [ht, Option.all_some, decide_eq_true_eq] at hs
  exact ⟨t, ht, fun u e hu he =>
    (switch_fault_exact exampleStart_initial (by decide +kernel) ht _ _ _ u e hs hu he).1⟩

/-- Without the restore, the next checkpoint looks at a path that is gone. -/
def faultThenCheckpoint : List (Action ℕ ℕ) :=
  [.write [] 1 10, .checkpoint none "standard" (switchFault "a")]

/-- **A write is lost.** Only a layer switch raised, and the checkpoint after it returns with layers
that do not show the file the agent still sees. -/
theorem switch_fault_loses_write :
    ¬ ∀ (cfg : Config) (t₀ t u : Traced ℕ ℕ) (as : List (Action ℕ ℕ)), cfg.asyncIncremental = false →
      Initial cfg t₀ → Along (step cfg) SwitchOnly t₀ as → exec (step cfg) t₀ as = some t →
        ∀ parent raw inp e, SwitchOnly t (.checkpoint parent raw inp) →
          step cfg t (.checkpoint parent raw inp) = some u →
            u.sb.registry.find? inp.id = some e →
              u.sb.disk.through e.layers = some t.sb.visible := by
  intro h
  obtain ⟨t, ht⟩ := Option.isSome_iff_exists.mp
    (show (exec (step exampleConfig) exampleStart faultThenCheckpoint).isSome by decide +kernel)
  have hrun : ((exec (step exampleConfig) exampleStart faultThenCheckpoint).any fun t =>
      t.pos = none ∧ t.sb.visible 1 = some 10 ∧
        ((step exampleConfig t (.checkpoint none "standard" (exampleInput "b"))).any fun u =>
          (u.sb.registry.find? "b").any fun e =>
            (u.sb.disk.through e.layers).any fun v => v 1 = none) = true) = true := by
    decide +kernel
  rw [ht, Option.any_some, decide_eq_true_eq] at hrun
  obtain ⟨hpos, hvis, hstep⟩ := hrun
  obtain ⟨u, hu, hb⟩ := (Option.any_eq_true _ _).mp hstep
  obtain ⟨e, he, hv⟩ := (Option.any_eq_true _ _).mp hb
  obtain ⟨v, hv, hnone⟩ := (Option.any_eq_true _ _).mp hv
  have heq := h exampleConfig exampleStart t u faultThenCheckpoint rfl exampleStart_initial
    (by decide +kernel) ht none "standard" (exampleInput "b") e ⟨hpos.symm, rfl, Or.inl rfl⟩ hu he
  obtain rfl := Option.some.inj (hv.symm.trans heq)
  rw [hvis] at hnone
  simp at hnone

end Overlay

end DeltaBox
