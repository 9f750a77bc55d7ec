import DeltaBox.Overlay.Rollback

/-!
# Lightweight checkpoints

A lightweight checkpoint is meant for a read-only command. It dumps no memory, and a restore of it
is redirected to its effective entry. `_checkpoint_legacy` sinks the upper regardless of strategy,
so a lightweight checkpoint taken over a dirty upper records one layer more than the entry a
restore will use, and the restore drops that layer with everything the agent wrote.

## Main results

* `lightweight_drops_layer` — a caller that does everything right still loses a layer
* `lightweight_exact` — runs whose lightweight checkpoints are guarded lose none
-/

namespace DeltaBox

namespace Overlay

open Machine

variable {P C : Type*} [DecidableEq P] {cfg : Config} {t t' : Traced P C}

omit [DecidableEq P] in
/-- A restore that returns has mounted the effective entry's layers. -/
theorem restoreAction_mounted {s s' : State P C} {target rid : String} {fault : Option Fault}
    {f : Entry} (hf : physicalTarget s target = some f)
    (h : restoreAction cfg s target rid fault = (s', true)) :
    s'.disk.resolve f.layers = some s'.mount.lowers := by
  rw [restoreAction, hf] at h
  dsimp only at h
  split_ifs at h with hb
  · cases (Prod.mk.inj h).2
  split at h
  · cases (Prod.mk.inj h).2
  · rename_i m hm
    obtain ⟨rfl, -⟩ := Prod.mk.inj h
    rw [applyOverlaySwitch] at hm
    split_ifs at hm with hok
    obtain ⟨is, his, hm⟩ := Option.bind_eq_some_iff.mp hm
    obtain ⟨u, -, hm⟩ := Option.bind_eq_some_iff.mp hm
    obtain ⟨w, -, rfl⟩ := Option.map_eq_some_iff.mp hm
    exact his

/-- A checkpoint at the current position records exactly the lower stack it leaves mounted. -/
theorem Outcome.resolve_entry {parent : Option String} {raw : String} {inp : CkptInput} {e : Entry}
    (h : Inv cfg t) (ho : Outcome cfg t (.checkpoint parent raw inp) t')
    (hnew : t.sb.registry.find? inp.id = none) (he : t'.sb.registry.find? inp.id = some e) :
    t'.sb.disk.resolve e.layers = some t'.sb.mount.lowers := by
  cases ho with
  | agent ha l => exact absurd ha id
  | raised hext hmount hreg hup =>
    rw [hreg, hnew] at he
    cases he
  | taken hfresh hsunk hreg hdirty =>
    obtain rfl := Option.some.inj (hreg.self.symm.trans he)
    exact hsunk.resolve_layers h.lowers h.currentUpper_notMem_parentLayers rfl

/-- **Guarded lightweight checkpoints lose nothing.** In every run whose lightweight checkpoints
have a registered parent and a clean upper, every lightweight entry has the layers of its effective
entry, and a restore of it mounts exactly its own layers. If the run also stays in place, each
further checkpoint, a lightweight entry as its parent or not, records exactly the lower stack that
is mounted. -/
theorem lightweight_exact {t₀ : Traced P C} {as : List (Action P C)} (h₀ : Initial cfg t₀)
    (hC : Along (step cfg) (Guarded cfg) t₀ as) (hrun : exec (step cfg) t₀ as = some t) :
    (∀ id e, t.sb.registry.find? id = some e → e.strategy = .lightweight →
      ∃ k f, e.effectiveRestoreId = some (some k) ∧ t.sb.registry.find? k = some f ∧
        f.layers = e.layers) ∧
    (∀ id e rid fault s', t.sb.registry.find? id = some e →
      restoreAction cfg t.sb id rid fault = (s', true) →
        s'.disk.resolve e.layers = some s'.mount.lowers) ∧
    (Along (step cfg) InPlace t₀ as → ∀ parent raw inp u e,
      InPlace t (.checkpoint parent raw inp) → step cfg t (.checkpoint parent raw inp) = some u →
        u.sb.registry.find? inp.id = some e → u.sb.disk.resolve e.layers = some u.sb.mount.lowers)
    := by
  have hred : Redirects t.sb :=
    invariant_along (I := fun t => Redirects t.sb) (fun h hg hstep => hg.redirects_step h hstep)
      h₀.exact.redirects hC hrun
  refine ⟨fun id e he hlw => ?_, fun id e rid fault s' he hr => ?_, ?_⟩
  · obtain ⟨-, hne, f, hf, hlay⟩ := hred id e he
    obtain ⟨e', k, he', hk, hkf⟩ := physicalTarget_eq_some.mp hf
    obtain rfl := Option.some.inj (he.symm.trans he')
    obtain ⟨o, ho⟩ := Option.ne_none_iff_exists'.mp (hne hlw)
    rw [ho, Option.getD_some] at hk
    exact ⟨k, f, by rw [ho, hk], hkf, hlay⟩
  · obtain ⟨-, -, f, hf, hlay⟩ := hred id e he
    exact hlay ▸ restoreAction_mounted hf hr
  · intro hplace parent raw inp u e hs hu he
    have hboth : Along (step cfg) (fun t a => Guarded cfg t a ∧ InPlace t a) t₀ as :=
      hC.and hplace
    have hex : Exact cfg t :=
      invariant_along (fun h hs hstep => hs.2.exact_step h hs.1 hstep) h₀.exact hboth hrun
    exact ((hs.steady hex).outcome hex.inv hu).resolve_entry hex.inv (freshId_of_step hu).2.1 he

/-- A chain of two lightweight entries, and a restore to the second. -/
def chainRun : List (Action ℕ ℕ) :=
  [.write [] 1 10, .checkpoint none "standard" (exampleInput "a"),
    .checkpoint (some "a") "lightweight" (exampleInput "k"),
    .checkpoint (some "k") "lightweight" (exampleInput "l"), .write [] 2 20,
    .restore "l" "r" none, .write [] 3 30]

/-- The standard checkpoint that follows it has the second entry as its parent. -/
theorem lightweight_exact_chain :
    ∃ t, exec (step exampleConfig) exampleStart chainRun = some t ∧
      ∀ u e, step exampleConfig t (.checkpoint (some "l") "standard" (exampleInput "b")) = some u →
        u.sb.registry.find? "b" = some e →
          u.sb.disk.resolve e.layers = some u.sb.mount.lowers := by
  obtain ⟨t, ht⟩ := Option.isSome_iff_exists.mp
    (show (exec (step exampleConfig) exampleStart chainRun).isSome by decide +kernel)
  have hpos : (exec (step exampleConfig) exampleStart chainRun).map Traced.pos = some (some "l") := by
    decide +kernel
  rw [ht, Option.map_some, Option.some.injEq] at hpos
  refine ⟨t, ht, fun u e => ?_⟩
  exact (lightweight_exact exampleStart_initial (by decide +kernel) ht).2.2 (by decide +kernel)
    (some "l") "standard" (exampleInput "b") u e ⟨hpos.symm, rfl, Or.inl rfl⟩

/-- The same caller, but something was written before the lightweight checkpoint. -/
def dirtyRun : List (Action ℕ ℕ) :=
  [.write [] 1 10, .checkpoint none "standard" (exampleInput "a"), .write [] 2 20,
    .checkpoint (some "a") "lightweight" (exampleInput "l")]

/-- **A lightweight checkpoint over a dirty upper drops a layer.** No call raises and every parent
is the current position, but the lightweight entry and its effective entry have different layers. -/
theorem lightweight_drops_layer :
    ¬ ∀ (cfg : Config) (t₀ t : Traced ℕ ℕ) (as : List (Action ℕ ℕ)), Initial cfg t₀ →
      Along (step cfg) InPlace t₀ as → exec (step cfg) t₀ as = some t →
        ∀ id e k f, t.sb.registry.find? id = some e → e.strategy = .lightweight →
          e.effectiveRestoreId = some (some k) → t.sb.registry.find? k = some f →
            f.layers = e.layers := by
  intro h
  obtain ⟨t, ht⟩ := Option.isSome_iff_exists.mp
    (show (exec (step exampleConfig) exampleStart dirtyRun).isSome by decide +kernel)
  have hl : ((exec (step exampleConfig) exampleStart dirtyRun).bind fun t =>
      t.sb.registry.find? "l").any (fun e => e.strategy = .lightweight ∧
        e.effectiveRestoreId = some (some "a") ∧
          e.layers = ["/l/layer_l", "/l/layer_a", "/l/base"]) := by
    decide +kernel
  have ha : ((exec (step exampleConfig) exampleStart dirtyRun).bind fun t =>
      t.sb.registry.find? "a").any (fun f => f.layers = ["/l/layer_a", "/l/base"]) := by
    decide +kernel
  rw [ht, Option.bind_some, Option.any_eq_true] at hl ha
  obtain ⟨e, he, hl⟩ := hl
  obtain ⟨f, hf, ha⟩ := ha
  rw [decide_eq_true_eq] at hl ha
  have heq := h exampleConfig exampleStart t dirtyRun exampleStart_initial (by decide +kernel) ht
    "l" e "a" f he hl.1 hl.2.1 hf
  rw [hl.2.2, ha] at heq
  exact absurd heq (by decide)

end Overlay

end DeltaBox
