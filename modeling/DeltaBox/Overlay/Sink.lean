import DeltaBox.Overlay.Sandbox

/-!
# What a layer sink does

Both checkpoint paths sink the live upper: `sinkLegacy` renames first and makes the new directories
afterwards, `sink` the other way round and with two more checks. Once the upper they look at is the
mounted one, they have the same outcome, and `Sunk` is that outcome. Everything about runs is
derived from it, so no later proof unfolds either function.

## Main results

* `sinkLegacy_spec`, `sink_spec` — a sink over the mounted upper succeeds with outcome `Sunk`, or
  its switch raises and the outcome is `Stranded`
* `Sunk.resolve_layers` — the new `layers` name exactly the lower stack that is mounted
* `Sunk.visible` — a sink never changes what the agent sees
-/

namespace DeltaBox

namespace Overlay

variable {P C : Type*}

/-- A state `s'` whose disk extends that of `s`: every name but the current upper's keeps its
meaning and no directory changed. -/
structure Extends (s s' : State P C) : Prop where
  /-- Names other than the current upper's are kept. -/
  names : ∀ n i, n ≠ s.currentUpper → s.disk.names n = some i → s'.disk.names n = some i
  /-- Contents are kept. -/
  content : ∀ i < s.disk.next, s'.disk.content i = s.disk.content i
  /-- Directories are never deallocated. -/
  next_le : s.disk.next ≤ s'.disk.next

theorem Extends.refl (s : State P C) : Extends s s :=
  ⟨fun _ _ _ h => h, fun _ _ => rfl, Nat.le_refl _⟩

/-- A list without the current upper resolves as before. -/
theorem Extends.resolve {s s' : State P C} (h : Extends s s') {ns : List String} {is : List ℕ}
    (hcu : s.currentUpper ∉ ns) (hns : s.disk.resolve ns = some is) :
    s'.disk.resolve ns = some is :=
  Disk.resolve_mono (fun n hn i hi => h.names n i (fun hne => hcu (hne ▸ hn)) hi) hns

/-- And shows the same files. -/
theorem Extends.view [DecidableEq P] {s s' : State P C} (h : Extends s s') {is : List ℕ}
    (his : ∀ i ∈ is, i < s.disk.next) : s'.disk.view is = s.disk.view is :=
  Disk.view_congr fun i hi => h.content i (his i hi)

/-- The outcome of a sink with identifier `id` over `layers`, which resolve to `lowers`. -/
structure Sunk (cfg : Config) (s : State P C) (layers : List String) (lowers : List ℕ)
    (id : String) (dirty : Bool) (s' : State P C) (layers' : List String) : Prop
    extends Extends s s' where
  /-- The new current upper is the mounted one. -/
  upper : s'.disk.names s'.currentUpper = some s'.mount.upper
  /-- The registry is not touched yet. -/
  registry : s'.registry = s.registry
  /-- Nor is the failure flag of the asynchronous pipeline. -/
  asyncFailed : s'.asyncFailed = s.asyncFailed
  /-- A clean upper is left where it is. -/
  clean : dirty = false →
    (s.disk.content s.mount.upper).isDirty = false ∧ s' = s ∧ layers' = layers
  /-- A dirty one becomes the topmost lower layer, below a new empty upper. -/
  sunk : dirty = true →
    layers' = cfg.layerPath id :: layers ∧
      s'.disk.names (cfg.layerPath id) = some s.mount.upper ∧
        s'.mount.lowers = s.mount.upper :: lowers ∧ s.disk.next ≤ s'.mount.upper ∧
          s'.disk.content s'.mount.upper = Layer.empty

section

variable {cfg : Config} {s : State P C} {layers : List String} {lowers : List ℕ}
  {inp : CkptInput}

/-- The disk once the directory operations of a dirty sink are done, in either order. -/
structure SunkDisk (cfg : Config) (s : State P C) (id : String) (d : Disk P C) : Prop where
  /-- Nothing else changed. -/
  ext : Extends s { s with disk := d }
  /-- The path of the mounted upper is gone. -/
  gone : d.names s.currentUpper = none
  /-- The mounted upper has its new name. -/
  layer : d.names (cfg.layerPath id) = some s.mount.upper
  /-- The next upper is a new, empty directory. -/
  upper : ∃ u, d.names (cfg.nextUpper id) = some u ∧ s.disk.next ≤ u ∧ d.content u = Layer.empty
  /-- The next work directory exists. -/
  work : ∃ w, d.names (cfg.nextWork id) = some w

/-- What freshness of an identifier says about the live upper: none of the three new paths is its
path. -/
private theorem fresh_ne {id : String} (hfresh : FreshId cfg s id)
    (hup : s.disk.names s.currentUpper = some s.mount.upper) :
    cfg.layerPath id ≠ s.currentUpper ∧ cfg.nextUpper id ≠ s.currentUpper ∧
      cfg.nextWork id ≠ s.currentUpper := by
  obtain ⟨-, -, -, hl, hu, hw⟩ := hfresh
  refine ⟨fun h => ?_, fun h => ?_, fun h => ?_⟩
  · rw [← h, hl] at hup
    cases hup
  · rw [← h, hu] at hup
    cases hup
  · rw [← h, hw] at hup
    cases hup

/-- Nor is any of them the path of an existing directory. -/
private theorem fresh_ne_of_names {id n : String} {i : ℕ} (hfresh : FreshId cfg s id)
    (hn : s.disk.names n = some i) :
    n ≠ cfg.layerPath id ∧ n ≠ cfg.nextUpper id ∧ n ≠ cfg.nextWork id := by
  obtain ⟨-, -, -, hl, hu, hw⟩ := hfresh
  refine ⟨fun h => ?_, fun h => ?_, fun h => ?_⟩
  · rw [h, hl] at hn
    cases hn
  · rw [h, hu] at hn
    cases hn
  · rw [h, hw] at hn
    cases hn

/-- `_checkpoint_legacy` renames first and makes the directories afterwards. -/
theorem sunkDisk_rename_first {id : String} (hfresh : FreshId cfg s id)
    (hup : s.disk.names s.currentUpper = some s.mount.upper) :
    ∃ d, s.disk.rename s.currentUpper (cfg.layerPath id) = some d ∧
      SunkDisk cfg s id ((d.mkdirs (cfg.nextUpper id)).mkdirs (cfg.nextWork id)) := by
  obtain ⟨hlcu, hucu, hwcu⟩ := fresh_ne hfresh hup
  have hold := fun {n i} => fresh_ne_of_names (n := n) (i := i) hfresh
  obtain ⟨-, -, -, hl, hu, hw⟩ := hfresh
  obtain ⟨d, hren⟩ := Disk.rename_of_unused hup hl
  obtain ⟨i, hi, hnames, hcontent, hnext⟩ := Disk.rename_eq_some hren
  obtain rfl : s.mount.upper = i := by rw [hup] at hi; exact Option.some.inj hi
  have hlu := cfg.layerPath_ne_nextUpper id
  have hlw := cfg.layerPath_ne_nextWork id
  have huw := cfg.nextUpper_ne_nextWork id
  have hdu : d.names (cfg.nextUpper id) = none := by
    rw [hnames, Function.update_of_ne hlu.symm, Function.update_of_ne hucu, hu]
  have hdw : (d.mkdirs (cfg.nextUpper id)).names (cfg.nextWork id) = none := by
    rw [Disk.names_mkdirs_of_ne huw.symm, hnames, Function.update_of_ne hlw.symm,
      Function.update_of_ne hwcu, hw]
  have hnext₁ : (d.mkdirs (cfg.nextUpper id)).next = s.disk.next + 1 := by
    rw [Disk.next_mkdirs_of_none hdu, hnext]
  refine ⟨d, hren, ⟨?_, ?_, ?_⟩, ?_, ?_, ⟨s.disk.next, ?_, Nat.le_refl _, ?_⟩, ?_⟩
  · intro n i hne hn
    obtain ⟨hnl, hnu, hnw⟩ := hold hn
    change ((d.mkdirs (cfg.nextUpper id)).mkdirs (cfg.nextWork id)).names n = some i
    rw [Disk.names_mkdirs_of_ne hnw, Disk.names_mkdirs_of_ne hnu, hnames,
      Function.update_of_ne hnl, Function.update_of_ne hne, hn]
  · intro i hi
    change ((d.mkdirs (cfg.nextUpper id)).mkdirs (cfg.nextWork id)).content i = _
    rw [Disk.content_mkdirs_of_lt (by omega), Disk.content_mkdirs_of_lt (by omega), hcontent]
  · change s.disk.next ≤ ((d.mkdirs _).mkdirs _).next
    exact Nat.le_trans (by omega) (Disk.next_le_mkdirs (d.mkdirs (cfg.nextUpper id)) _)
  · rw [Disk.names_mkdirs_of_ne hwcu.symm, Disk.names_mkdirs_of_ne hucu.symm, hnames,
      Function.update_of_ne hlcu.symm, Function.update_self]
  · rw [Disk.names_mkdirs_of_ne hlw, Disk.names_mkdirs_of_ne hlu, hnames, Function.update_self]
  · rw [Disk.names_mkdirs_of_ne huw, Disk.names_mkdirs_of_none hdu, Function.update_self, hnext]
  · rw [Disk.content_mkdirs_of_lt (by omega), Disk.content_mkdirs_of_none hdu, hnext,
      Function.update_self]
  · exact ⟨_, by rw [Disk.names_mkdirs_of_none hdw, Function.update_self]⟩

/-- `_sink` makes the directories first and renames afterwards. -/
theorem sunkDisk_rename_last {id : String} (hfresh : FreshId cfg s id)
    (hup : s.disk.names s.currentUpper = some s.mount.upper) :
    ∃ d, ((s.disk.mkdirs (cfg.nextUpper id)).mkdirs (cfg.nextWork id)).rename s.currentUpper
        (cfg.layerPath id) = some d ∧ SunkDisk cfg s id d := by
  obtain ⟨hlcu, hucu, hwcu⟩ := fresh_ne hfresh hup
  have hold := fun {n i} => fresh_ne_of_names (n := n) (i := i) hfresh
  obtain ⟨-, -, -, hl, hu, hw⟩ := hfresh
  have hlu := cfg.layerPath_ne_nextUpper id
  have hlw := cfg.layerPath_ne_nextWork id
  have huw := cfg.nextUpper_ne_nextWork id
  set d₁ := s.disk.mkdirs (cfg.nextUpper id) with hd₁
  set d₂ := d₁.mkdirs (cfg.nextWork id) with hd₂
  have hw₁ : d₁.names (cfg.nextWork id) = none := by
    rw [hd₁, Disk.names_mkdirs_of_ne huw.symm, hw]
  have hnext₁ : d₁.next = s.disk.next + 1 := Disk.next_mkdirs_of_none hu
  have hup₂ : d₂.names s.currentUpper = some s.mount.upper := by
    rw [hd₂, Disk.names_mkdirs_of_ne hwcu.symm, hd₁, Disk.names_mkdirs_of_ne hucu.symm, hup]
  have hl₂ : d₂.names (cfg.layerPath id) = none := by
    rw [hd₂, Disk.names_mkdirs_of_ne hlw, hd₁, Disk.names_mkdirs_of_ne hlu, hl]
  obtain ⟨d, hren⟩ := Disk.rename_of_unused hup₂ hl₂
  obtain ⟨i, hi, hnames, hcontent, hnext⟩ := Disk.rename_eq_some hren
  obtain rfl : s.mount.upper = i := by rw [hup₂] at hi; exact Option.some.inj hi
  refine ⟨d, hren, ⟨?_, ?_, ?_⟩, ?_, ?_, ⟨s.disk.next, ?_, Nat.le_refl _, ?_⟩, ?_⟩
  · intro n i hne hn
    obtain ⟨hnl, hnu, hnw⟩ := hold hn
    change d.names n = some i
    rw [hnames, Function.update_of_ne hnl, Function.update_of_ne hne, hd₂,
      Disk.names_mkdirs_of_ne hnw, hd₁, Disk.names_mkdirs_of_ne hnu, hn]
  · intro i hi
    change d.content i = _
    rw [hcontent, hd₂, Disk.content_mkdirs_of_lt (by omega), hd₁, Disk.content_mkdirs_of_lt hi]
  · change s.disk.next ≤ d.next
    have hle : d₁.next ≤ d₂.next := Disk.next_le_mkdirs d₁ (cfg.nextWork id)
    omega
  · rw [hnames, Function.update_of_ne hlcu.symm, Function.update_self]
  · rw [hnames, Function.update_self]
  · rw [hnames, Function.update_of_ne hlu.symm, Function.update_of_ne hucu, hd₂,
      Disk.names_mkdirs_of_ne huw, hd₁, Disk.names_mkdirs_of_none hu, Function.update_self]
  · rw [hcontent, hd₂, Disk.content_mkdirs_of_lt (by omega), hd₁, Disk.content_mkdirs_of_none hu,
      Function.update_self]
  · refine ⟨d₁.next, ?_⟩
    rw [hnames, Function.update_of_ne hlw.symm, Function.update_of_ne hwcu, hd₂,
      Disk.names_mkdirs_of_none hw₁, Function.update_self]

/-- The switch of a dirty sink: the old upper goes below the new one. -/
theorem SunkDisk.switch {id : String} {d : Disk P C} (h : SunkDisk cfg s id d)
    (hres : s.disk.resolve layers = some lowers) (hcu : s.currentUpper ∉ layers) :
    ∃ m, applyOverlaySwitch { s with disk := d } layers (cfg.nextUpper id) (cfg.nextWork id) .ckpt
        true = some m ∧
      Sunk cfg s layers lowers id true
        { s with
          disk := d
          mount := m
          currentUpper := cfg.nextUpper id
          currentWork := cfg.nextWork id } (cfg.layerPath id :: layers) := by
  obtain ⟨u, hu, hle, hempty⟩ := h.upper
  obtain ⟨w, hw⟩ := h.work
  have hres' : d.resolve layers = some lowers := h.ext.resolve hcu hres
  refine ⟨⟨u, s.mount.upper :: lowers⟩, by simp [applyOverlaySwitch, hres', hu, hw], ?_⟩
  exact
    { names := h.ext.names
      content := h.ext.content
      next_le := h.ext.next_le
      upper := hu
      registry := rfl
      asyncFailed := rfl
      clean := fun hd => absurd hd (by simp)
      sunk := fun _ => ⟨rfl, h.layer, rfl, hle, hempty⟩ }

/-- A clean sink changes nothing. -/
private theorem sunk_clean {id : String} (hup : s.disk.names s.currentUpper = some s.mount.upper)
    (hclean : (s.disk.content s.mount.upper).isDirty = false) :
    Sunk cfg s layers lowers id false s layers :=
  { Extends.refl s with
    upper := hup
    registry := rfl
    asyncFailed := rfl
    clean := fun _ => ⟨hclean, rfl, rfl⟩
    sunk := fun h => absurd h (by simp) }

theorem isUpperDirty_of_live (hup : s.disk.names s.currentUpper = some s.mount.upper)
    (hscan : inp.scanOk = true) :
    isUpperDirty s inp.scanOk = (s.disk.content s.mount.upper).isDirty := by
  simp [isUpperDirty, hscan, hup]

/-- What a switch that raises leaves behind: the mounted upper under its new name, and a current
upper that names nothing. -/
def Stranded (s s' : State P C) : Prop :=
  Extends s s' ∧ s'.mount = s.mount ∧ s'.registry = s.registry ∧
    s'.disk.names s'.currentUpper = none

/-- **The legacy sink.** When the current upper is the mounted one and can be listed, it succeeds
unless it has to switch and the switch raises. -/
theorem sinkLegacy_spec (hfresh : FreshId cfg s inp.id)
    (hup : s.disk.names s.currentUpper = some s.mount.upper) (hscan : inp.scanOk = true)
    (hres : s.disk.resolve layers = some lowers) (hcu : s.currentUpper ∉ layers) :
    (∃ s' layers', sinkLegacy cfg s layers inp = (s', some layers') ∧
      Sunk cfg s layers lowers inp.id (isUpperDirty s inp.scanOk) s' layers') ∨
    (inp.fault = some .switch ∧ isUpperDirty s inp.scanOk = true ∧
      ∃ s', sinkLegacy cfg s layers inp = (s', none) ∧ Stranded s s') := by
  have hdirty := isUpperDirty_of_live hup hscan
  by_cases hd : (s.disk.content s.mount.upper).isDirty
  · rw [hd] at hdirty
    obtain ⟨d, hren, hdisk⟩ := sunkDisk_rename_first hfresh hup
    by_cases hfault : inp.fault = some .switch
    · refine Or.inr ⟨hfault, hdirty, _, ?_, hdisk.ext, rfl, rfl, hdisk.gone⟩
      simp [sinkLegacy, hdirty, hren, applyOverlaySwitch, hfault]
    · obtain ⟨m, hm, hsunk⟩ := hdisk.switch hres hcu
      refine Or.inl ⟨_, _, ?_, hdirty ▸ hsunk⟩
      simp only [sinkLegacy, hdirty, if_true, hren, ne_eq, hfault, not_false_eq_true, decide_true,
        hm]
  · rw [Bool.not_eq_true] at hd
    rw [hd] at hdirty
    exact Or.inl ⟨s, layers, by simp [sinkLegacy, hdirty], hdirty ▸ sunk_clean hup hd⟩

/-- **The asynchronous sink.** The same outcome, with the directories made before the rename. -/
theorem sink_spec (hfresh : FreshId cfg s inp.id)
    (hup : s.disk.names s.currentUpper = some s.mount.upper) (hscan : inp.scanOk = true)
    (hres : s.disk.resolve layers = some lowers) (hcu : s.currentUpper ∉ layers) :
    (∃ s' layers' dirty, sink cfg s layers inp = (s', some (layers', dirty)) ∧
      Sunk cfg s layers lowers inp.id dirty s' layers') ∨
    (inp.fault = some .switch ∧ ∃ s', sink cfg s layers inp = (s', none) ∧ Stranded s s') := by
  by_cases hd : (s.disk.content s.mount.upper).isDirty
  · obtain ⟨d, hren, hdisk⟩ := sunkDisk_rename_last hfresh hup
    by_cases hfault : inp.fault = some .switch
    · refine Or.inr ⟨hfault, _, ?_, hdisk.ext, rfl, rfl, hdisk.gone⟩
      simp [sink, hup, hscan, hd, hren, applyOverlaySwitch, hfault]
    · obtain ⟨m, hm, hsunk⟩ := hdisk.switch hres hcu
      refine Or.inl ⟨_, _, true, ?_, hsunk⟩
      simp only [sink, hup, hscan, hd, hren, hm, ne_eq, hfault, not_false_eq_true, decide_true,
        Bool.not_true, Bool.false_eq_true, if_false, if_true]
  · rw [Bool.not_eq_true] at hd
    exact Or.inl ⟨s, layers, false, by simp [sink, hup, hscan, hd], sunk_clean hup hd⟩

/-! ### Consequences -/

variable {s' : State P C} {layers' : List String} {id : String} {dirty : Bool}

/-- **The recorded layers are the mounted lower stack.** -/
theorem Sunk.resolve_layers (h : Sunk cfg s layers lowers id dirty s' layers')
    (hres : s.disk.resolve layers = some lowers) (hcu : s.currentUpper ∉ layers)
    (hm : s.mount.lowers = lowers) : s'.disk.resolve layers' = some s'.mount.lowers := by
  cases dirty with
  | false =>
    obtain ⟨-, rfl, rfl⟩ := h.clean rfl
    rw [hm, hres]
  | true =>
    obtain ⟨rfl, hl, hlow, -, -⟩ := h.sunk rfl
    rw [hlow]
    exact Disk.resolve_cons.mpr ⟨_, _, hl, h.resolve hcu hres, rfl⟩

/-- The upper a sink leaves mounted is in no stack that was complete before it. -/
theorem Sunk.upper_notMem (h : Sunk cfg s layers lowers id dirty s' layers') {is : List ℕ}
    (hlt : ∀ i ∈ is, i < s.disk.next) (hmem : s.mount.upper ∉ is) : s'.mount.upper ∉ is := by
  cases dirty with
  | false =>
    obtain ⟨-, rfl, -⟩ := h.clean rfl
    exact hmem
  | true =>
    obtain ⟨-, -, -, hle, -⟩ := h.sunk rfl
    intro hi
    have := hlt _ hi
    omega

/-- The new lower stack does not contain the new upper either. -/
theorem Sunk.upper_notMem_lowers (h : Sunk cfg s layers lowers id dirty s' layers')
    (hres : s.disk.resolve layers = some lowers) (hm : s.mount.lowers = lowers)
    (hup : s.mount.upper < s.disk.next) (hmem : s.mount.upper ∉ lowers) :
    s'.mount.upper ∉ s'.mount.lowers := by
  cases dirty with
  | false =>
    obtain ⟨-, rfl, -⟩ := h.clean rfl
    rwa [hm]
  | true =>
    obtain ⟨-, -, hlow, hle, -⟩ := h.sunk rfl
    rw [hlow]
    intro hi
    rcases List.mem_cons.mp hi with hi | hi
    · omega
    · have := Disk.resolve_lt hres _ hi
      omega

variable [DecidableEq P]

/-- What the new layers show is what the agent saw. -/
theorem Sunk.view_lowers (h : Sunk cfg s layers lowers id dirty s' layers')
    (hres : s.disk.resolve layers = some lowers) (hm : s.mount.lowers = lowers)
    (hup : s.mount.upper < s.disk.next) : s'.disk.view s'.mount.lowers = s.visible := by
  cases dirty with
  | false =>
    obtain ⟨hclean, rfl, -⟩ := h.clean rfl
    rw [State.visible, Disk.visible, Disk.view_cons, lookup_cons_of_clean hclean, Disk.view]
  | true =>
    obtain ⟨-, -, hlow, -, -⟩ := h.sunk rfl
    rw [hlow, State.visible, Disk.visible, hm]
    refine h.view fun i hi => ?_
    rcases List.mem_cons.mp hi with rfl | hi
    · exact hup
    · exact Disk.resolve_lt hres i hi

/-- **A sink never changes what the agent sees.** -/
theorem Sunk.visible (h : Sunk cfg s layers lowers id dirty s' layers')
    (hres : s.disk.resolve layers = some lowers) (hm : s.mount.lowers = lowers)
    (hup : s.mount.upper < s.disk.next) : s'.visible = s.visible := by
  rw [← h.view_lowers hres hm hup, State.visible, Disk.visible, Disk.view_cons]
  cases dirty with
  | false =>
    obtain ⟨hclean, rfl, -⟩ := h.clean rfl
    rw [lookup_cons_of_clean hclean, Disk.view]
  | true =>
    obtain ⟨-, -, -, -, hempty⟩ := h.sunk rfl
    rw [hempty, lookup_empty_cons, Disk.view]

end

/-! ### What a restore does -/

/-- The directories a restore prepares, before it switches. -/
def prepared (cfg : Config) (s : State P C) (rid : String) : State P C :=
  { s with disk := (s.disk.mkdirs (cfg.restoreUpper rid)).mkdirs (cfg.restoreWork rid) }

/-- The outcome of a switch to the stack `is` under a new upper. -/
structure Restored (s : State P C) (is : List ℕ) (s' : State P C) : Prop extends Extends s s' where
  /-- The new current upper is the mounted one. -/
  upper : s'.disk.names s'.currentUpper = some s'.mount.upper
  /-- Exactly the passed stack is mounted below it. -/
  lowers : s'.mount.lowers = is
  /-- The upper is a new directory. -/
  new : s.disk.next ≤ s'.mount.upper
  /-- And it is empty. -/
  empty : s'.disk.content s'.mount.upper = Layer.empty
  /-- The registry is not touched. -/
  registry : s'.registry = s.registry
  /-- Nor is the failure flag of the asynchronous pipeline. -/
  asyncFailed : s'.asyncFailed = s.asyncFailed

variable {cfg : Config} {s : State P C} {target rid : String} {fault : Option Fault}

/-- Preparing the directories of a restore changes no name and no contents. -/
theorem prepared_extends (hfresh : FreshRestoreId cfg s rid) :
    (∀ n i, s.disk.names n = some i → (prepared cfg s rid).disk.names n = some i) ∧
      Extends s (prepared cfg s rid) := by
  obtain ⟨hu, hw, -, -⟩ := hfresh
  have hw₁ : (s.disk.mkdirs (cfg.restoreUpper rid)).names (cfg.restoreWork rid) = none := by
    rw [Disk.names_mkdirs_of_ne (cfg.restoreUpper_ne_restoreWork rid).symm, hw]
  have hnames : ∀ n i, s.disk.names n = some i →
      (prepared cfg s rid).disk.names n = some i := by
    intro n i hn
    have hnu : n ≠ cfg.restoreUpper rid := fun h => by rw [h, hu] at hn; cases hn
    have hnw : n ≠ cfg.restoreWork rid := fun h => by rw [h, hw] at hn; cases hn
    rw [prepared, Disk.names_mkdirs_of_ne hnw, Disk.names_mkdirs_of_ne hnu, hn]
  refine ⟨hnames, fun n i _ => hnames n i, fun i hi => ?_, ?_⟩
  · have hi' : i < (s.disk.mkdirs (cfg.restoreUpper rid)).next :=
      Nat.lt_of_lt_of_le hi (Disk.next_le_mkdirs _ _)
    rw [prepared, Disk.content_mkdirs_of_lt hi', Disk.content_mkdirs_of_lt hi]
  · exact Nat.le_trans (Disk.next_le_mkdirs _ _) (Disk.next_le_mkdirs _ _)

/-- The current upper keeps its meaning, also when it has none. -/
theorem prepared_names_currentUpper (hfresh : FreshRestoreId cfg s rid) :
    (prepared cfg s rid).disk.names s.currentUpper = s.disk.names s.currentUpper := by
  obtain ⟨-, -, hu, hw⟩ := hfresh
  rw [prepared, Disk.names_mkdirs_of_ne hw, Disk.names_mkdirs_of_ne hu]

/-- A restore that raises before or at the switch leaves the mount alone. -/
theorem restoreAction_of_raised (cfg : Config) (s : State P C) (target rid : String)
    (hfault : fault = some .before ∨ fault = some .switch) :
    restoreAction cfg s target rid fault = (s, false) ∨
      restoreAction cfg s target rid fault = (prepared cfg s rid, false) := by
  rw [restoreAction]
  cases physicalTarget s target with
  | none => exact Or.inl rfl
  | some e =>
    rcases hfault with rfl | rfl
    · exact Or.inl rfl
    · exact Or.inr (by simp [applyOverlaySwitch, prepared])

/-- **A restore installs exactly the effective entry's layers.** -/
theorem restoreAction_spec {e : Entry} {is : List ℕ} (hfresh : FreshRestoreId cfg s rid)
    (hphys : physicalTarget s target = some e) (hres : s.disk.resolve e.layers = some is) :
    ∃ s', restoreAction cfg s target rid none = (s', true) ∧ Restored s is s' := by
  have hext := prepared_extends hfresh
  obtain ⟨hu, hw, -, -⟩ := hfresh
  have huw := cfg.restoreUpper_ne_restoreWork rid
  have hw₁ : (s.disk.mkdirs (cfg.restoreUpper rid)).names (cfg.restoreWork rid) = none := by
    rw [Disk.names_mkdirs_of_ne huw.symm, hw]
  have hup : (prepared cfg s rid).disk.names (cfg.restoreUpper rid) = some s.disk.next := by
    rw [prepared, Disk.names_mkdirs_of_ne huw, Disk.names_mkdirs_of_none hu, Function.update_self]
  have hwk : (prepared cfg s rid).disk.names (cfg.restoreWork rid) =
      some (s.disk.mkdirs (cfg.restoreUpper rid)).next := by
    rw [prepared, Disk.names_mkdirs_of_none hw₁, Function.update_self]
  have hres' : (prepared cfg s rid).disk.resolve e.layers = some is :=
    Disk.resolve_mono (fun n _ => hext.1 n) hres
  have hempty : (prepared cfg s rid).disk.content s.disk.next = Layer.empty := by
    rw [prepared, Disk.content_mkdirs_of_lt (by rw [Disk.next_mkdirs_of_none hu]; omega),
      Disk.content_mkdirs_of_none hu, Function.update_self]
  have happ : applyOverlaySwitch (prepared cfg s rid) e.layers (cfg.restoreUpper rid)
      (cfg.restoreWork rid) .restore true = some ⟨s.disk.next, is⟩ := by
    simp [applyOverlaySwitch, hres', hup, hwk]
  refine ⟨{ prepared cfg s rid with
    mount := ⟨s.disk.next, is⟩
    currentUpper := cfg.restoreUpper rid
    currentWork := cfg.restoreWork rid }, ?_, ?_⟩
  · rw [prepared] at happ
    simp [restoreAction, hphys, happ, prepared]
  exact
    { names := hext.2.names
      content := hext.2.content
      next_le := hext.2.next_le
      upper := hup
      lowers := rfl
      new := Nat.le_refl _
      empty := hempty
      registry := rfl
      asyncFailed := rfl }

end Overlay

end DeltaBox
