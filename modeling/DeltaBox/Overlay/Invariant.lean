import DeltaBox.Overlay.Sink

/-!
# The invariant that links registry, mount and history

`Inv` says how the three lists of `Overlay.Sandbox` stay in step:

* the lower stack that is mounted is what the `layers` of the entry last checkpointed or restored
  to resolve to (the base layer alone, before the first one);
* every registered entry's `layers` resolve to a stack that does not contain the mounted upper, so
  nothing the agent does can reach it, and that stack shows what the agent saw when the entry was
  checkpointed.

It does *not* say that `current_upper` names the mounted upper. It only says that `current_upper`
names nothing else, because a checkpoint whose layer switch raises leaves the controller with a
path that no longer exists. `Live` is the missing half, and which actions keep it is exactly what
separates the runs that lose files from those that do not.

## Main results

* `Inv.agentWrite`, `Inv.agentRemove` — the agent keeps it
* `Inv.checkpointed` — so does a sink followed by the registration of its layers
* `Inv.restored` — so does a restore, which also makes the state live again
* `Inv.extend` — so does anything that only adds directories
-/

namespace DeltaBox

namespace Overlay

variable {P C : Type*}

/-- The controller's current upper is the mounted one. -/
def Live (s : State P C) : Prop := s.disk.names s.currentUpper = some s.mount.upper

variable [DecidableEq P]

/-- The mounted stack, the registry and the history agree. -/
structure Inv (cfg : Config) (t : Traced P C) : Prop where
  /-- The mounted upper exists. -/
  upper_lt : t.sb.mount.upper < t.sb.disk.next
  /-- `current_upper` names the mounted upper or nothing. -/
  upper : ∀ i, t.sb.disk.names t.sb.currentUpper = some i → i = t.sb.mount.upper
  /-- The base layer can still be mounted. -/
  base : ∃ is, t.sb.disk.resolve [cfg.baseLayer] = some is ∧ t.sb.mount.upper ∉ is
  /-- The mounted lower stack is that of the current position. -/
  lowers : t.sb.disk.resolve (parentLayers cfg t.sb t.pos) = some t.sb.mount.lowers
  /-- Registered stacks are out of reach and show what was seen. -/
  entries : ∀ id e, t.sb.registry.find? id = some e → ∃ is, t.sb.disk.resolve e.layers = some is ∧
    t.sb.mount.upper ∉ is ∧ t.seen id = some (t.sb.disk.view is)
  /-- The current position is registered. -/
  pos : ∀ p, t.pos = some p → ∃ e, t.sb.registry.find? p = some e
  /-- No entry has the empty identifier, which the code takes for "no parent". -/
  named : ∀ id e, t.sb.registry.find? id = some e → id ≠ ""

variable {cfg : Config} {t : Traced P C}

theorem Initial.inv (h : Initial cfg t) : Inv cfg t where
  upper_lt := t.sb.disk.named_lt _ _ h.upper
  upper := fun i hi => by rw [h.upper] at hi; exact (Option.some.inj hi).symm
  base := ⟨_, h.lowers, h.base_ne⟩
  lowers := by
    rw [parentLayers, h.pos]
    exact h.lowers
  entries := fun id e he => by rw [h.registry, Dict.find?_empty] at he; cases he
  pos := fun p hp => by rw [h.pos] at hp; cases hp
  named := fun id e he => by rw [h.registry, Dict.find?_empty] at he; cases he

omit [DecidableEq P] in
theorem Initial.live (h : Initial cfg t) : Live t.sb := h.upper

/-! ### The stack of the current position -/

/-- A resolved stack without the mounted upper does not mention `current_upper`. -/
theorem Inv.currentUpper_notMem (h : Inv cfg t) {ns : List String} {is : List ℕ}
    (hns : t.sb.disk.resolve ns = some is) (hmem : t.sb.mount.upper ∉ is) :
    t.sb.currentUpper ∉ ns := by
  intro hcu
  obtain ⟨i, hi, hni⟩ := Disk.names_of_resolve hns _ hcu
  exact hmem (h.upper i hni ▸ hi)

/-- The layers a checkpoint at the current position builds on, as directories: every one of them
is out of the agent's reach. -/
theorem Inv.upper_notMem_lowers (h : Inv cfg t) : t.sb.mount.upper ∉ t.sb.mount.lowers := by
  have hl := h.lowers
  rcases hp : t.pos with _ | p
  · rw [hp] at hl
    obtain ⟨is, his, hmem⟩ := h.base
    have heq : t.sb.mount.lowers = is := by
      rw [show t.sb.disk.resolve [cfg.baseLayer] = some t.sb.mount.lowers from hl] at his
      exact Option.some.inj his
    rwa [heq]
  · obtain ⟨e, he⟩ := h.pos p hp
    rw [hp, parentLayers_some (h.named p e he) he] at hl
    obtain ⟨is, his, hmem, -⟩ := h.entries p e he
    rw [his] at hl
    rwa [← Option.some.inj hl]

theorem Inv.currentUpper_notMem_parentLayers (h : Inv cfg t) :
    t.sb.currentUpper ∉ parentLayers cfg t.sb t.pos :=
  h.currentUpper_notMem h.lowers h.upper_notMem_lowers

/-! ### Steps that only add directories -/

/-- Any step to a state whose disk only grew, with the same mount, registry and history, keeps the
invariant. The current upper may lose its name on the way. -/
theorem Inv.extend (h : Inv cfg t) {s' : State P C} (hext : Extends t.sb s')
    (hmount : s'.mount = t.sb.mount) (hreg : s'.registry = t.sb.registry)
    (hupper : ∀ i, s'.disk.names s'.currentUpper = some i → i = t.sb.mount.upper) :
    Inv cfg { t with sb := s' } := by
  have hbase := h.base
  refine ⟨?_, ?_, ?_, ?_, ?_, ?_, ?_⟩
  · change s'.mount.upper < s'.disk.next
    have hup := h.upper_lt
    have hle := hext.next_le
    rw [hmount]
    omega
  · intro i hi
    change i = s'.mount.upper
    rw [hmount]
    exact hupper i hi
  · obtain ⟨is, his, hmem⟩ := hbase
    refine ⟨is, hext.resolve (h.currentUpper_notMem his hmem) his, ?_⟩
    change s'.mount.upper ∉ is
    rwa [hmount]
  · change s'.disk.resolve (parentLayers cfg s' t.pos) = some s'.mount.lowers
    rw [hmount, show parentLayers cfg s' t.pos = parentLayers cfg t.sb t.pos by
      simp [parentLayers, hreg]]
    exact hext.resolve h.currentUpper_notMem_parentLayers h.lowers
  · intro id e he
    change s'.registry.find? id = some e at he
    rw [hreg] at he
    obtain ⟨is, his, hmem, hseen⟩ := h.entries id e he
    refine ⟨is, hext.resolve (h.currentUpper_notMem his hmem) his, ?_, ?_⟩
    · change s'.mount.upper ∉ is
      rwa [hmount]
    · change t.seen id = some (s'.disk.view is)
      rw [hext.view (Disk.resolve_lt his), hseen]
  · intro p hp
    change ∃ e, s'.registry.find? p = some e
    rw [hreg]
    exact h.pos p hp
  · intro id e he
    change s'.registry.find? id = some e at he
    exact h.named id e (hreg ▸ he)

/-! ### The agent -/

/-- Whatever is written to the mounted upper, no registered stack notices. -/
theorem Inv.put (h : Inv cfg t) (l : Layer P C) :
    Inv cfg { t with sb := { t.sb with disk := t.sb.disk.put t.sb.mount.upper l } } where
  upper_lt := h.upper_lt
  upper := h.upper
  base := by
    obtain ⟨is, his, hmem⟩ := h.base
    exact ⟨is, (Disk.resolve_put _ _ _ _).trans his, hmem⟩
  lowers := (Disk.resolve_put _ _ _ _).trans h.lowers
  entries := by
    intro id e he
    obtain ⟨is, his, hmem, hseen⟩ := h.entries id e he
    refine ⟨is, (Disk.resolve_put _ _ _ _).trans his, hmem, ?_⟩
    rw [hseen]
    exact congrArg some (Disk.view_put_of_notMem hmem l).symm
  pos := h.pos
  named := h.named

theorem Inv.agentWrite (h : Inv cfg t) (ds : List P) (p : P) (c : C) :
    Inv cfg { t with sb := agentWrite t.sb ds p c } := h.put _

theorem Inv.agentRemove (h : Inv cfg t) (ds : List P) (p : P) :
    Inv cfg { t with sb := agentRemove t.sb ds p } := by
  rw [Overlay.agentRemove]
  split
  · exact h
  · exact h.put _

omit [DecidableEq P] in
theorem live_put {s : State P C} (h : Live s) (i : ℕ) (l : Layer P C) :
    Live { s with disk := s.disk.put i l } := h

/-! ### Checkpoints -/

/-- **A sink and the registration of its layers.** `r` is the registry after the call: it maps the
new identifier, and possibly its twin, to entries with the new layers, and everything else to what
it was. -/
theorem Inv.checkpointed (h : Inv cfg t) {id : String} {dirty : Bool} {s' : State P C}
    {layers' : List String} (hfresh : FreshId cfg t.sb id)
    (hsunk : Sunk cfg t.sb (parentLayers cfg t.sb t.pos) t.sb.mount.lowers id dirty s' layers')
    {r : Dict String Entry} (hnew : ∃ e, r.find? id = some e ∧ e.layers = layers')
    (hr : ∀ k e, r.find? k = some e →
      (e.layers = layers' ∧ (k = id ∨ k = id ++ "_full")) ∨ t.sb.registry.find? k = some e) :
    Inv cfg
      { sb := { s' with registry := r }
        pos := some id
        seen := Function.update (Function.update t.seen (id ++ "_full") (some t.sb.visible)) id
          (some t.sb.visible) } := by
  have hnotMem : ∀ {ns : List String} {is : List ℕ}, t.sb.disk.resolve ns = some is →
      t.sb.mount.upper ∉ is → s'.disk.resolve ns = some is ∧ s'.mount.upper ∉ is := by
    intro ns is his hmem
    exact ⟨hsunk.resolve (h.currentUpper_notMem his hmem) his,
      hsunk.upper_notMem (Disk.resolve_lt his) hmem⟩
  have hlayers := hsunk.resolve_layers h.lowers h.currentUpper_notMem_parentLayers rfl
  have hview := hsunk.view_lowers h.lowers rfl h.upper_lt
  refine ⟨s'.disk.named_lt _ _ hsunk.upper, ?_, ?_, ?_, ?_, ?_, ?_⟩
  · intro i hi
    have hup : s'.disk.names s'.currentUpper = some i := hi
    rw [hsunk.upper] at hup
    exact (Option.some.inj hup).symm
  · obtain ⟨is, his, hmem⟩ := h.base
    exact ⟨is, hnotMem his hmem⟩
  · obtain ⟨e, he, rfl⟩ := hnew
    change s'.disk.resolve (parentLayers cfg { s' with registry := r } (some id)) = _
    rw [parentLayers_some hfresh.1 he]
    exact hlayers
  · intro k e he
    rcases hr k e he with ⟨hlay, hk⟩ | hold
    · refine ⟨s'.mount.lowers, by rw [hlay]; exact hlayers, ?_, ?_⟩
      · exact hsunk.upper_notMem_lowers h.lowers rfl h.upper_lt h.upper_notMem_lowers
      · change Function.update (Function.update t.seen _ (some t.sb.visible)) id
          (some t.sb.visible) k = some (s'.disk.view s'.mount.lowers)
        rw [hview]
        rcases hk with rfl | rfl
        · rw [Function.update_self]
        · rw [Function.update_apply]
          split_ifs
          · rfl
          · rw [Function.update_self]
    · obtain ⟨is, his, hmem, hseen⟩ := h.entries k e hold
      have hk : k ≠ id := fun hk => by rw [hk, hfresh.2.1] at hold; cases hold
      have hk' : k ≠ id ++ "_full" := fun hk => by rw [hk, hfresh.2.2.1] at hold; cases hold
      refine ⟨is, (hnotMem his hmem).1, (hnotMem his hmem).2, ?_⟩
      change Function.update (Function.update t.seen _ (some t.sb.visible)) id
        (some t.sb.visible) k = some (s'.disk.view is)
      rw [Function.update_of_ne hk, Function.update_of_ne hk', hseen,
        hsunk.view (Disk.resolve_lt his)]
  · intro p hp
    obtain ⟨e, he, -⟩ := hnew
    obtain rfl : id = p := Option.some.inj hp
    exact ⟨e, he⟩
  · intro k e he
    rcases hr k e he with ⟨-, rfl | rfl⟩ | hold
    · exact hfresh.1
    · exact fun hk => by simpa using congrArg String.toList hk
    · exact h.named k e hold

/-! ### Restores -/

/-- **A restore to an entry mounts its own layers and moves the position there.** -/
theorem Inv.restored (h : Inv cfg t) {target : String} {e : Entry} {is : List ℕ} {s' : State P C}
    (he : t.sb.registry.find? target = some e) (hes : t.sb.disk.resolve e.layers = some is)
    (hmem : t.sb.mount.upper ∉ is) (hres : Restored t.sb is s') :
    Inv cfg { t with sb := s', pos := some target } := by
  have hnotMem : ∀ {ns : List String} {js : List ℕ}, t.sb.disk.resolve ns = some js →
      t.sb.mount.upper ∉ js → s'.disk.resolve ns = some js ∧ s'.mount.upper ∉ js := by
    intro ns js hjs hm
    refine ⟨hres.resolve (h.currentUpper_notMem hjs hm) hjs, fun hu => ?_⟩
    have hlt := Disk.resolve_lt hjs _ hu
    have hnew := hres.new
    omega
  refine ⟨s'.disk.named_lt _ _ hres.upper, ?_, ?_, ?_, ?_, ?_, ?_⟩
  · intro i hi
    have hup : s'.disk.names s'.currentUpper = some i := hi
    rw [hres.upper] at hup
    exact (Option.some.inj hup).symm
  · obtain ⟨js, hjs, hm⟩ := h.base
    exact ⟨js, hnotMem hjs hm⟩
  · change s'.disk.resolve (parentLayers cfg s' (some target)) = some s'.mount.lowers
    rw [hres.lowers, parentLayers_some (h.named target e he) (by rw [hres.registry]; exact he)]
    exact (hnotMem hes hmem).1
  · intro k e' he'
    change s'.registry.find? k = some e' at he'
    rw [hres.registry] at he'
    obtain ⟨js, hjs, hm, hseen⟩ := h.entries k e' he'
    refine ⟨js, (hnotMem hjs hm).1, (hnotMem hjs hm).2, ?_⟩
    change t.seen k = some (s'.disk.view js)
    rw [hseen, hres.view (Disk.resolve_lt hjs)]
  · intro p hp
    change ∃ e, s'.registry.find? p = some e
    obtain rfl : target = p := Option.some.inj hp
    exact ⟨e, by rw [hres.registry]; exact he⟩
  · intro k e' he'
    change s'.registry.find? k = some e' at he'
    exact h.named k e' (hres.registry ▸ he')

/-- What the agent sees after a restore to an entry. -/
theorem Inv.visible_restored (h : Inv cfg t) {target : String} {e : Entry} {is : List ℕ}
    {s' : State P C} (he : t.sb.registry.find? target = some e)
    (hes : t.sb.disk.resolve e.layers = some is) (hres : Restored t.sb is s') :
    t.seen target = some s'.visible := by
  obtain ⟨js, hjs, -, hseen⟩ := h.entries target e he
  obtain rfl : is = js := by rw [hes] at hjs; exact Option.some.inj hjs
  rw [hseen, State.visible, Disk.visible, Disk.view_cons, hres.empty, lookup_empty_cons,
    hres.lowers]
  exact congrArg some (hres.view (Disk.resolve_lt hes)).symm

end Overlay

end DeltaBox
