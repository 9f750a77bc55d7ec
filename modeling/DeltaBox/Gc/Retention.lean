import DeltaBox.Gc.Collect

/-!
# Garbage collection never breaks a surviving checkpoint

What a collection keeps is a least fixed point, and the worklist library says so about arbitrary
graphs: references may dangle or run in circles. What it *removes* is keyed differently in each
table, by id, by path or by process, so "nothing of a survivor is removed" rests on three facts
about the states a controller can reach:

* the image path determines the id (`IsImage.inj`), because an id has no underscore in it;
* images and layers never share a path (`Config.apart`);
* a process is the template of one checkpoint only.

## Main results

* `keepSet_isLeast` — what `keep` is
* `Inv.step` — the three facts hold in every reachable state
* `collection_retains` — the statement about collections in reachable states
-/

namespace DeltaBox

namespace Gc

open Overlay (join join_left_cancel)

variable {cfg : Config}

/-! ### Image paths -/

theorem IsUuid.no_underscore {id : String} (h : IsUuid id) : '_' ∉ id.toList := fun hmem => by
  have := h '_' hmem
  revert this
  decide

/-- The paths an entry's image can have. -/
inductive IsImage (cfg : Config) : String → String → Prop
  | checkpoint {id : String} (tag : String) (h : IsUuid id) : IsImage cfg id (cfg.imagePath tag id)
  | twin {id : String} (tag : String) (h : IsUuid id) :
      IsImage cfg (id ++ "_full") (cfg.twinPath tag id)

theorem imagePath_inj {tag tag' id id' : String} (h : IsUuid id) (h' : IsUuid id')
    (heq : cfg.imagePath tag id = cfg.imagePath tag' id') : id = id' := by
  have hlist := congrArg String.toList (join_left_cancel heq)
  simp only [String.toList_append] at hlist
  have hcancel := List.append_cancel_right hlist
  have hsplit : tag.toList ++ '_' :: id.toList = tag'.toList ++ '_' :: id'.toList := by
    simpa using hcancel
  exact String.ext (Overlay.split_last h.no_underscore h'.no_underscore hsplit).2

theorem twinPath_inj {tag tag' id id' : String} (h : IsUuid id) (h' : IsUuid id')
    (heq : cfg.twinPath tag id = cfg.twinPath tag' id') : id = id' := by
  have hlist := congrArg String.toList (join_left_cancel heq)
  simp only [String.toList_append] at hlist
  have hcancel := List.append_cancel_right hlist
  have hsplit : tag.toList ++ '_' :: id.toList = tag'.toList ++ '_' :: id'.toList := by
    simpa using hcancel
  exact String.ext (Overlay.split_last h.no_underscore h'.no_underscore hsplit).2

theorem imagePath_ne_twinPath {tag tag' id id' : String} (h : IsUuid id) :
    cfg.imagePath tag id ≠ cfg.twinPath tag' id' := by
  intro heq
  have hlist := congrArg String.toList (join_left_cancel heq)
  simp only [String.toList_append] at hlist
  have hsplit : "_full_twin_mem".toList = "_full_twin".toList ++ "_mem".toList := by decide
  rw [hsplit, ← List.append_assoc] at hlist
  have hcancel := List.append_cancel_right hlist
  have hlast : tag.toList ++ '_' :: id.toList =
      (tag'.toList ++ '_' :: id'.toList ++ "_full".toList) ++ '_' :: "twin".toList := by
    simpa using hcancel
  obtain ⟨-, hid⟩ := Overlay.split_last h.no_underscore (by decide) hlast
  have ht := h 't' (hid ▸ by decide)
  revert ht
  decide

/-- **An image path belongs to one id.** -/
theorem IsImage.inj {id id' p : String} (h : IsImage cfg id p) (h' : IsImage cfg id' p) :
    id = id' := by
  cases h with
  | checkpoint tag h =>
    generalize hp : cfg.imagePath tag id = p at h'
    cases h' with
    | checkpoint tag' h' => exact imagePath_inj h h' hp
    | twin tag' h' => exact absurd hp (imagePath_ne_twinPath h)
  | twin tag h =>
    rename_i base
    generalize hp : cfg.twinPath tag base = p at h'
    cases h' with
    | checkpoint tag' h' => exact absurd hp.symm (imagePath_ne_twinPath h')
    | twin tag' h' => rw [twinPath_inj h h' hp]

/-- An image is not a layer. -/
theorem IsImage.ne_path {id p : String} (h : IsImage cfg id p) (place : Place) :
    p ≠ cfg.path place := by
  cases h with
  | checkpoint tag h => exact cfg.apart _ place
  | twin tag h => exact cfg.apart _ place

/-! ### What is kept -/

section

variable {s : State} {req : Request} {id : String}

/-- The ids a request asks for. -/
def Request.Names (registry : Dict String Entry) (id : String) : Request → Prop
  | .ids keepIds => id ∈ keepIds ∧ id ∈ registry.keys
  | .last keepN => id ∈ registry.keys.drop (registry.keys.length - keepN)

/-- A request the callers make: `keep_n` is positive. -/
def Request.Valid : Request → Prop
  | .ids _ => True
  | .last keepN => 1 ≤ keepN

/-- The entries that are pinned by themselves. -/
def Pinned (s : State) (e : Entry) : Prop :=
  e.dumpPending = true ∨ (∃ d ∈ s.lazyPageDaemons, d.alive = true ∧ d.memPath = e.memPath) ∨
    e.templatePid = some s.agentPid ∨ e.templatePid = some s.nsInitPid

/-- The id is asked for or pinned. -/
def Root (s : State) (req : Request) (id : String) : Prop :=
  req.Names s.registry id ∨ ∃ e, s.registry.find? id = some e ∧ Pinned s e

/-- `a` is registered and refers to `b`, which is registered, too. -/
def Rests (registry : Dict String Entry) (a b : String) : Prop :=
  b ∈ registry.keys ∧ ∃ e, registry.find? a = some e ∧
    (e.parentId = some b ∨ e.prevCkptId = some b ∨ e.effectiveRestoreId = some b)

theorem mem_requested (hreq : req.Valid) :
    id ∈ requested s.registry req ↔ req.Names s.registry id := by
  cases req with
  | ids keepIds => simp [requested, Request.Names]
  | last keepN =>
    have hpos : keepN ≠ 0 := Nat.one_le_iff_ne_zero.mp hreq
    simp only [requested, Request.Names, hpos, or_false]
    split_ifs with hlen
    · rw [Nat.sub_eq_zero_of_le hlen, List.drop_zero]
    · rfl

theorem mem_idsWhere {registry : Dict String Entry} {p : Entry → Bool} :
    id ∈ idsWhere registry p ↔ ∃ e, registry.find? id = some e ∧ p e = true := by
  simp [idsWhere, Dict.find?_eq_some_iff]

theorem mem_parents {registry : Dict String Entry} {a b : String} :
    b ∈ parents registry a ↔ Rests registry a b := by
  rw [parents, Rests]
  cases h : registry.find? a with
  | none => simp
  | some e =>
    simp only [List.mem_filter, decide_eq_true_eq, Entry.references, List.mem_filterMap,
      List.mem_cons, List.not_mem_nil, or_false, exists_eq_right, Option.some.injEq,
      exists_eq_left']
    constructor
    · rintro ⟨hr, hk⟩
      exact ⟨hk, by simpa [eq_comm] using hr⟩
    · rintro ⟨hk, hr⟩
      exact ⟨by simpa [eq_comm] using hr, hk⟩

theorem mem_roots (hreq : req.Valid) :
    id ∈ requested s.registry req ++ templatePinned s ++ lazyReaderIds s ++
        idsWhere s.registry Entry.dumpPending ↔ Root s req id := by
  simp only [List.mem_append, mem_requested hreq, templatePinned, lazyReaderIds, mem_idsWhere, Root,
    Pinned, or_assoc]
  constructor
  · rintro (h | ⟨e, he, h⟩ | ⟨e, he, h⟩ | ⟨e, he, h⟩)
    · exact Or.inl h
    · refine Or.inr ⟨e, he, Or.inr (Or.inr ?_)⟩
      cases ht : e.templatePid <;> simp_all
    · obtain ⟨d, hd, hpath⟩ := List.mem_map.mp (of_decide_eq_true h)
      obtain ⟨hd, halive⟩ := List.mem_filter.mp hd
      exact Or.inr ⟨e, he, Or.inr (Or.inl ⟨d, hd, halive, hpath⟩)⟩
    · exact Or.inr ⟨e, he, Or.inl h⟩
  · rintro (h | ⟨e, he, h | h | h⟩)
    · exact Or.inl h
    · exact Or.inr (Or.inr (Or.inr ⟨e, he, h⟩))
    · obtain ⟨d, hd, halive, hpath⟩ := h
      refine Or.inr (Or.inr (Or.inl ⟨e, he, decide_eq_true (List.mem_map.mpr ⟨d, ?_, hpath⟩)⟩))
      exact List.mem_filter.mpr ⟨hd, halive⟩
    · refine Or.inr (Or.inl ⟨e, he, ?_⟩)
      rcases h with h | h <;> simp [h]

/-- **What is kept is the least set with the roots that is closed under the three references.** -/
theorem keepSet_isLeast (hreq : req.Valid) :
    IsLeast { S : Set String | (∀ id, Root s req id → id ∈ S) ∧
      ∀ a ∈ S, ∀ b, Rests s.registry a b → b ∈ S } (keepSet s req : Set String) := by
  set roots := (requested s.registry req ++ templatePinned s ++ lazyReaderIds s ++
    idsWhere s.registry Entry.dumpPending).dedup with hroots
  have hmem : ∀ id, id ∈ roots.toFinset ↔ Root s req id := fun id => by
    rw [List.mem_toFinset, hroots, List.mem_dedup, mem_roots hreq]
  have hregistered : ∀ x, ∀ y ∈ parents s.registry x, y ∈ s.registry.keys.toFinset :=
    fun x y hy => List.mem_toFinset.mpr (mem_parents.mp hy).1
  have hfuel : roots.length + s.registry.keys.toFinset.card ≤
      roots.length + s.registry.keys.length :=
    Nat.add_le_add_left (List.toFinset_card_le _) _
  have hleast := Worklist.run_isLeast hregistered (fun x => List.mem_toFinset.symm) hfuel
  have hset : { S | Worklist.Closed (parents s.registry) roots.toFinset S } =
      { S : Set String | (∀ id, Root s req id → id ∈ S) ∧
        ∀ a ∈ S, ∀ b, Rests s.registry a b → b ∈ S } := by
    refine Set.ext fun S => ?_
    simp only [Worklist.Closed, Set.mem_ofPred_eq, hmem, mem_parents]
  rw [hset] at hleast
  exact hleast

/-- Nothing is kept that is not registered. -/
theorem keepSet_registered (hreq : req.Valid) (h : id ∈ keepSet s req) : id ∈ s.registry.keys := by
  have hlower := (keepSet_isLeast (s := s) hreq).2
  refine hlower (show { id | id ∈ s.registry.keys } ∈ _ from ⟨?_, ?_⟩) h
  · rintro id (hn | ⟨e, he, -⟩)
    · cases req with
      | ids keepIds => exact hn.2
      | last keepN => exact List.mem_of_mem_drop hn
    · exact Dict.mem_keys_iff.mpr ⟨e, he⟩
  · exact fun a _ b hb => hb.1

end

/-! ### What is removed -/

section

variable {s : State} {keep : Finset String} {rid id : String} {rids : List String}

theorem prune_find? :
    (prune s rid).registry.find? id = if id = rid then none else s.registry.find? id := by
  rw [prune]
  cases h : s.registry.find? rid with
  | none =>
    split_ifs with hid
    · rw [hid, h]
    · rfl
  | some e => exact Dict.find?_erase ..

theorem prune_template (hne : id ≠ rid) : (prune s rid).template id = s.template id := by
  rw [prune]
  cases h : s.registry.find? rid with
  | none => rfl
  | some e =>
    simp only [State.template]
    cases s.templates with
    | none => rfl
    | some pool => exact Dict.find?_erase_of_ne pool hne

theorem template_of_prune {pid : ℕ} (h : (prune s rid).template id = some pid) :
    s.template id = some pid := by
  rw [prune] at h
  cases hr : s.registry.find? rid with
  | none => simpa only [hr] using h
  | some e =>
    simp only [hr, State.template] at h ⊢
    cases ht : s.templates with
    | none => simp [ht] at h
    | some pool =>
      simp only [ht, Option.map_some, Option.bind_some, Dict.find?_erase] at h ⊢
      split_ifs at h
      exact h

theorem mem_prune_procs {pid : ℕ} (h : pid ∈ s.procs) (hne : s.template rid ≠ some pid) :
    pid ∈ (prune s rid).procs := by
  rw [prune]
  cases hr : s.registry.find? rid with
  | none => exact h
  | some e => exact List.mem_filter.mpr ⟨h, by simpa using hne⟩

theorem mem_prune_dirs {d : String} (h : d ∈ s.dirs)
    (hne : ∀ e, s.registry.find? rid = some e → d ≠ e.memPath) : d ∈ (prune s rid).dirs := by
  rw [prune]
  cases hr : s.registry.find? rid with
  | none => exact h
  | some e => exact List.mem_filter.mpr ⟨h, by simpa using hne e hr⟩

@[simp] theorem prune_current : (prune s rid).currentUpper = s.currentUpper ∧
    (prune s rid).currentWork = s.currentWork := by
  rw [prune]
  cases s.registry.find? rid <;> exact ⟨rfl, rfl⟩

/-- **The loop drops exactly the ids outside `keep`.** -/
theorem pruneAll_find? :
    (pruneAll keep rids s).registry.find? id =
      if id ∈ rids ∧ id ∉ keep then none else s.registry.find? id := by
  induction rids generalizing s with
  | nil => simp [pruneAll]
  | cons rid rids ih =>
    rw [pruneAll, ih]
    have hother : id ≠ rid → (if rid ∈ keep then s else prune s rid).registry.find? id =
        s.registry.find? id := by
      intro hne
      split_ifs with hrid
      · rfl
      · rw [prune_find?, if_neg hne]
    by_cases hid : id = rid
    · subst hid
      by_cases hk : id ∈ keep
      · simp [hk]
      · simp [hk, prune_find?]
    · simp [hother hid, hid]

theorem pruneAll_template (hkeep : id ∈ keep) :
    (pruneAll keep rids s).template id = s.template id := by
  induction rids generalizing s with
  | nil => rfl
  | cons rid rids ih =>
    rw [pruneAll, ih]
    split_ifs with hk
    · rfl
    · exact prune_template fun h => hk (h ▸ hkeep)

theorem template_of_pruneAll {pid : ℕ} (h : (pruneAll keep rids s).template id = some pid) :
    s.template id = some pid := by
  induction rids generalizing s with
  | nil => exact h
  | cons rid rids ih =>
    have hs := ih h
    split_ifs at hs
    · exact hs
    · exact template_of_prune hs

theorem mem_pruneAll_procs {pid : ℕ} (h : pid ∈ s.procs)
    (hne : ∀ rid, rid ∉ keep → s.template rid ≠ some pid) :
    pid ∈ (pruneAll keep rids s).procs := by
  induction rids generalizing s with
  | nil => exact h
  | cons rid rids ih =>
    rw [pruneAll]
    split_ifs with hk
    · exact ih h hne
    · exact ih (mem_prune_procs h (hne rid hk)) fun r hr ht => hne r hr (template_of_prune ht)

theorem mem_pruneAll_dirs {d : String} (h : d ∈ s.dirs)
    (hne : ∀ rid e, rid ∉ keep → s.registry.find? rid = some e → d ≠ e.memPath) :
    d ∈ (pruneAll keep rids s).dirs := by
  induction rids generalizing s with
  | nil => exact h
  | cons rid rids ih =>
    rw [pruneAll]
    split_ifs with hk
    · exact ih h hne
    · refine ih (mem_prune_dirs h fun e he => hne rid e hk he) fun r e hr he => ?_
      rw [prune_find?] at he
      split_ifs at he
      exact hne r e hr he

theorem pruneAll_current : (pruneAll keep rids s).currentUpper = s.currentUpper ∧
    (pruneAll keep rids s).currentWork = s.currentWork := by
  induction rids generalizing s with
  | nil => exact ⟨rfl, rfl⟩
  | cons rid rids ih =>
    rw [pruneAll]
    split_ifs with hk
    · exact ih
    · exact ⟨ih.1.trans prune_current.1, ih.2.trans prune_current.2⟩

end

/-! ### A whole collection -/

section

variable {s : State} {req : Request} {id : String}

theorem gc_find? : (gcObsoleteSnapshots cfg s req).registry.find? id =
    if id ∈ keepSet s req then s.registry.find? id else none := by
  change (pruneAll _ _ (reapLazyPageDaemons s)).registry.find? id = _
  rw [pruneAll_find?]
  by_cases hk : id ∈ keepSet s req
  · simp [hk, reapLazyPageDaemons]
  · rw [if_neg hk]
    split_ifs with h
    · rfl
    · have hnot : id ∉ s.registry.keys := fun hmem => h ⟨hmem, hk⟩
      exact Dict.find?_eq_none_iff.mpr hnot

theorem gc_template_of {pid : ℕ} (h : (gcObsoleteSnapshots cfg s req).template id = some pid) :
    s.template id = some pid :=
  template_of_pruneAll (s := reapLazyPageDaemons s) h

/-- A directory survives if it is no dropped image, and no forgotten directory of a restore. -/
theorem mem_gc_dirs {d : String} (h : d ∈ s.dirs)
    (himage : ∀ rid e, rid ∉ keepSet s req → s.registry.find? rid = some e → d ≠ e.memPath)
    (hdir : cfg.isRestoreDir d = false ∨ d ∈ keepDirs (gcObsoleteSnapshots cfg s req)) :
    d ∈ (gcObsoleteSnapshots cfg s req).dirs := by
  refine List.mem_filter.mpr ⟨mem_pruneAll_dirs h himage, ?_⟩
  rcases hdir with hdir | hdir
  · simp [hdir]
  · have hkeep : keepDirs (gcObsoleteSnapshots cfg s req) = keepDirs
        (pruneAll (keepSet s req) s.registry.keys (reapLazyPageDaemons s)) := rfl
    simp [← hkeep, hdir]

theorem gc_current : (gcObsoleteSnapshots cfg s req).currentUpper = s.currentUpper ∧
    (gcObsoleteSnapshots cfg s req).currentWork = s.currentWork :=
  pruneAll_current (s := reapLazyPageDaemons s)

end

/-! ### Reachable states -/

/-- What holds whenever a collection starts. -/
structure Inv (cfg : Config) (s : State) : Prop where
  /-- Image paths are the code's. -/
  image : ∀ id e, s.registry.find? id = some e → IsImage cfg id e.memPath
  /-- Layers lie where layers lie. -/
  layers : ∀ id e, s.registry.find? id = some e → ∀ l ∈ e.layers, ∃ place, l = cfg.path place
  /-- So does the upper. -/
  upper : ∃ place, s.currentUpper = cfg.path place
  /-- And its work directory. -/
  work : ∃ place, s.currentWork = cfg.path place
  /-- A process is the template of one checkpoint only. -/
  templates : ∀ id id' pid, s.template id = some pid → s.template id' = some pid → id = id'

theorem Initial.inv {s : State} (h : Initial cfg s) : Inv cfg s := by
  refine ⟨?_, ?_, ⟨.initialUpper, h.currentUpper⟩, ⟨.initialWork, h.currentWork⟩, ?_⟩
  · simp [h.registry]
  · simp [h.registry]
  · intro id id' pid hid
    cases ht : s.templates with
    | none => simp [State.template, ht] at hid
    | some pool => simp [State.template, ht, h.templates pool ht] at hid

theorem register_template {s : State} {id id' : String} {e : Entry} :
    (register s id e).template id' =
      if id' = id ∧ e.templatePid.isSome ∧ s.templates.isSome then e.templatePid
      else s.template id' := by
  simp only [State.template, register]
  cases s.templates with
  | none => simp
  | some pool =>
    cases e.templatePid with
    | none => simp
    | some pid => simp [Dict.find?_set]

/-- A new entry keeps the invariant. -/
theorem Inv.register {s : State} {id : String} {e : Entry} (hi : Inv cfg s)
    (himage : IsImage cfg id e.memPath) (hlayers : ∀ l ∈ e.layers, ∃ place, l = cfg.path place)
    (hfresh : freshTemplate s e.templatePid = true) : Inv cfg (register s id e) := by
  have hreg : ∀ id' e', (Gc.register s id e).registry.find? id' = some e' →
      (id' = id ∧ e' = e) ∨ s.registry.find? id' = some e' := by
    intro id' e' h
    rw [show (Gc.register s id e).registry = s.registry.set id e from rfl, Dict.find?_set] at h
    split_ifs at h with hid
    · exact Or.inl ⟨hid, (Option.some.inj h).symm⟩
    · exact Or.inr h
  -- The new template is nobody else's.
  have hnew : ∀ id' pid, e.templatePid = some pid → s.template id' ≠ some pid := by
    intro id' pid hpid ht
    cases hpool : s.templates with
    | none => simp [State.template, hpool] at ht
    | some pool =>
      simp only [State.template, hpool, Option.bind_some] at ht
      simp only [freshTemplate, hpid, hpool, Option.all_some, decide_eq_true_eq] at hfresh
      exact hfresh (Dict.mem_values_iff.mpr ⟨id', ht⟩)
  refine ⟨fun id' e' h => ?_, fun id' e' h => ?_, hi.upper, hi.work, fun a b pid ha hb => ?_⟩
  · rcases hreg id' e' h with ⟨rfl, rfl⟩ | h
    · exact himage
    · exact hi.image id' e' h
  · rcases hreg id' e' h with ⟨rfl, rfl⟩ | h
    · exact hlayers
    · exact hi.layers id' e' h
  · rw [register_template] at ha hb
    split_ifs at ha hb with h₁ h₂ h₂
    · exact h₁.1.trans h₂.1.symm
    · exact absurd hb (hnew b pid ha)
    · exact absurd ha (hnew a pid hb)
    · exact hi.templates a b pid ha hb

theorem Inv.gc {s : State} (hi : Inv cfg s) (req : Request) :
    Inv cfg (gcObsoleteSnapshots cfg s req) := by
  have hreg : ∀ id e, (gcObsoleteSnapshots cfg s req).registry.find? id = some e →
      s.registry.find? id = some e := by
    intro id e h
    rw [gc_find?] at h
    split_ifs at h
    exact h
  refine ⟨fun id e h => hi.image id e (hreg id e h), fun id e h => hi.layers id e (hreg id e h),
    ?_, ?_, fun a b pid ha hb => hi.templates a b pid (gc_template_of ha) (gc_template_of hb)⟩
  · rw [gc_current.1]
    exact hi.upper
  · rw [gc_current.2]
    exact hi.work

/-- **Every move keeps the invariant.** -/
theorem Inv.step {s s' : State} {l : Label} (hi : Inv cfg s) (h : step cfg s l = some s') :
    Inv cfg s' := by
  have hplaces : ∀ (layers : List Place), ∀ l ∈ layers.map cfg.path, ∃ place, l = cfg.path place := by
    intro layers l hl
    obtain ⟨place, -, rfl⟩ := List.mem_map.mp hl
    exact ⟨place, rfl⟩
  cases l with
  | checkpoint id tag parentId prevCkptId effectiveRestoreId layers templatePid pending agentPid upper
      work =>
    simp only [Gc.step] at h
    split_ifs at h with hc
    obtain ⟨huuid, -, hfresh⟩ := hc
    obtain rfl := Option.some.inj h
    have hreg := hi.register (e := ⟨cfg.imagePath tag id, parentId, prevCkptId,
      effectiveRestoreId, layers.map cfg.path, templatePid, pending⟩) (.checkpoint tag huuid)
      (hplaces layers) hfresh
    exact ⟨hreg.image, hreg.layers, ⟨upper, rfl⟩, ⟨work, rfl⟩, hreg.templates⟩
  | twin id tag layers =>
    simp only [Gc.step] at h
    split_ifs at h with hc
    obtain rfl := Option.some.inj h
    exact hi.register (.twin tag hc.1) (hplaces layers) rfl
  | settle id =>
    simp only [Gc.step] at h
    cases he : s.registry.find? id with
    | none => simp [he] at h
    | some e =>
      simp only [he, Option.some.injEq] at h
      subst h
      have hset : ∀ id' e', (s.registry.set id { e with dumpPending := false }).find? id' = some e' →
          ∃ e₀, s.registry.find? id' = some e₀ ∧ e'.memPath = e₀.memPath ∧
            e'.layers = e₀.layers := by
        intro id' e' h
        rw [Dict.find?_set] at h
        split_ifs at h with hid
        · obtain rfl := Option.some.inj h
          exact ⟨e, hid ▸ he, rfl, rfl⟩
        · exact ⟨e', h, rfl, rfl⟩
      refine ⟨fun id' e' h => ?_, fun id' e' h => ?_, hi.upper, hi.work, hi.templates⟩
      · obtain ⟨e₀, h₀, hmem, -⟩ := hset id' e' h
        exact hmem ▸ hi.image id' e₀ h₀
      · obtain ⟨e₀, h₀, -, hlay⟩ := hset id' e' h
        exact hlay ▸ hi.layers id' e₀ h₀
  | restore agentPid nsInitPid upper work =>
    obtain rfl := Option.some.inj h
    exact ⟨hi.image, hi.layers, ⟨upper, rfl⟩, ⟨work, rfl⟩, hi.templates⟩
  | lose id =>
    obtain rfl := Option.some.inj h
    have hlose : ∀ id' pid, State.template { s with
        templates := s.templates.map fun pool => pool.erase id } id' = some pid →
        s.template id' = some pid := by
      intro id' pid h
      simp only [State.template] at h ⊢
      cases ht : s.templates with
      | none => simp [ht] at h
      | some pool =>
        simp only [ht, Option.map_some, Option.bind_some, Dict.find?_erase] at h ⊢
        split_ifs at h
        exact h
    exact ⟨hi.image, hi.layers, hi.upper, hi.work,
      fun a b pid ha hb => hi.templates a b pid (hlose a pid ha) (hlose b pid hb)⟩
  | attach memPath =>
    obtain rfl := Option.some.inj h
    exact ⟨hi.image, hi.layers, hi.upper, hi.work, hi.templates⟩
  | detach i =>
    obtain rfl := Option.some.inj h
    exact ⟨hi.image, hi.layers, hi.upper, hi.work, hi.templates⟩
  | collect req =>
    obtain rfl := Option.some.inj h
    exact hi.gc req

/-! ### What a survivor keeps -/

/-- The entry `e` of `id` has come through the collection, with all that belongs to it. -/
structure Intact (s s' : State) (id : String) (e : Entry) : Prop where
  /-- It was registered. -/
  before : s.registry.find? id = some e
  /-- It still is. -/
  registered : s'.registry.find? id = some e
  /-- Its image directory is there if it was. -/
  image : e.memPath ∈ s.dirs → e.memPath ∈ s'.dirs
  /-- Its template is in the table if it was. -/
  template : s'.template id = s.template id
  /-- And was not killed. -/
  alive : ∀ pid, s.template id = some pid → pid ∈ s.procs → pid ∈ s'.procs
  /-- Its layers are there if they were. -/
  layers : ∀ l ∈ e.layers, l ∈ s.dirs → l ∈ s'.dirs

theorem join_append (root a b : String) : join root (a ++ b) = join root a ++ b := by
  unfold Overlay.join
  split <;> simp [String.append_assoc]

/-- A directory of the second loop lies in `layers_root`. -/
theorem exists_of_isRestoreDir {d : String} (h : cfg.isRestoreDir d = true) :
    ∃ name, d = cfg.path (.layers name) := by
  simp only [Config.isRestoreDir, Bool.and_eq_true, List.isPrefixOf_iff_prefix] at h
  obtain ⟨rest, hrest⟩ := h.1
  refine ⟨"restore_" ++ String.ofList rest, ?_⟩
  rw [Roots.path, join_append]
  exact String.ext (by simpa using hrest.symm)

section

variable {s : State} {req : Request}

/-- A layer is no image. -/
theorem Inv.path_ne_memPath (hi : Inv cfg s) {rid : String} {e : Entry}
    (h : s.registry.find? rid = some e) (place : Place) : cfg.path place ≠ e.memPath :=
  ((hi.image rid e h).ne_path place).symm

/-- **What is kept comes through intact.** -/
theorem Inv.intact (hi : Inv cfg s) {id : String} {e : Entry} (hid : id ∈ keepSet s req)
    (he : s.registry.find? id = some e) : Intact s (gcObsoleteSnapshots cfg s req) id e := by
  have hreg : (gcObsoleteSnapshots cfg s req).registry.find? id = some e := by
    rw [gc_find?, if_pos hid, he]
  refine ⟨he, hreg, fun hd => ?_, ?_, fun pid ht hp => ?_, fun l hl hd => ?_⟩
  · refine mem_gc_dirs hd (fun rid e' hrid he' heq => ?_) (Or.inl ?_)
    · have := (hi.image id e he).inj (heq ▸ hi.image rid e' he')
      exact hrid (this ▸ hid)
    · by_contra hdir
      obtain ⟨name, hname⟩ := exists_of_isRestoreDir (Bool.eq_true_of_not_eq_false hdir)
      exact (hi.image id e he).ne_path _ hname
  · exact pruneAll_template (s := reapLazyPageDaemons s) hid
  · refine mem_pruneAll_procs (s := reapLazyPageDaemons s) hp fun rid hrid ht' => ?_
    exact hrid (hi.templates id rid pid ht ht' ▸ hid)
  · obtain ⟨place, rfl⟩ := hi.layers id e he l hl
    refine mem_gc_dirs hd (fun rid e' _ he' => hi.path_ne_memPath he' place) (Or.inr ?_)
    refine List.mem_cons_of_mem _ (List.mem_cons_of_mem _ (List.mem_flatMap.mpr ⟨e, ?_, hl⟩))
    exact Dict.mem_values_iff.mpr ⟨id, hreg⟩

theorem mem_gc_keys (hreq : req.Valid) {id : String} :
    id ∈ (gcObsoleteSnapshots cfg s req).registry.keys ↔ id ∈ keepSet s req := by
  rw [Dict.mem_keys_iff, gc_find?]
  constructor
  · rintro ⟨e, he⟩
    split_ifs at he with h
    exact h
  · intro h
    rw [if_pos h]
    exact Dict.mem_keys_iff.mp (keepSet_registered hreq h)

end

/-- **Garbage collection never breaks a surviving checkpoint.** In every reachable state, the ids
that survive a collection are the least set that has the requested and the pinned ones in it and is
closed under the three references. A survivor is intact, and so is everything registered that it
rests on. The mounted upper and its work directory stay. -/
theorem collection_retains {s₀ s : State} {labels : List Label} {req : Request}
    (h₀ : Initial cfg s₀) (hrun : Machine.exec (step cfg) s₀ labels = some s)
    (hreq : req.Valid) :
    IsLeast { S : Set String | (∀ id, Root s req id → id ∈ S) ∧
        ∀ a ∈ S, ∀ b, Rests s.registry a b → b ∈ S }
      { id | id ∈ (gcObsoleteSnapshots cfg s req).registry.keys } ∧
    (∀ id e, (gcObsoleteSnapshots cfg s req).registry.find? id = some e →
      Intact s (gcObsoleteSnapshots cfg s req) id e ∧
      ∀ a, Relation.ReflTransGen (Rests s.registry) id a →
        ∃ e', Intact s (gcObsoleteSnapshots cfg s req) a e') ∧
    (s.currentUpper ∈ s.dirs → s.currentUpper ∈ (gcObsoleteSnapshots cfg s req).dirs) ∧
    (s.currentWork ∈ s.dirs → s.currentWork ∈ (gcObsoleteSnapshots cfg s req).dirs) := by
  have hi : Inv cfg s := Machine.invariant (fun hi h => hi.step h) h₀.inv hrun
  have hleast := keepSet_isLeast (s := s) hreq
  refine ⟨?_, fun id e he => ?_, fun hd => ?_, fun hd => ?_⟩
  · have hset : { id | id ∈ (gcObsoleteSnapshots cfg s req).registry.keys } =
        (keepSet s req : Set String) := Set.ext fun id => mem_gc_keys hreq
    rwa [hset]
  · have hid : id ∈ keepSet s req := (mem_gc_keys hreq).mp (Dict.mem_keys_iff.mpr ⟨e, he⟩)
    refine ⟨?_, fun a ha => ?_⟩
    · rw [gc_find?, if_pos hid] at he
      exact hi.intact hid he
    · have hkeep : a ∈ keepSet s req := by
        induction ha with
        | refl => exact hid
        | tail _ hab ih => exact hleast.1.2 _ ih _ hab
      obtain ⟨e', he'⟩ := Dict.mem_keys_iff.mp (keepSet_registered hreq hkeep)
      exact ⟨e', hi.intact hkeep he'⟩
  · obtain ⟨place, hplace⟩ := hi.upper
    refine mem_gc_dirs hd (fun rid e _ he => hplace ▸ hi.path_ne_memPath he place) (Or.inr ?_)
    rw [keepDirs, gc_current.1]
    exact List.mem_cons_self
  · obtain ⟨place, hplace⟩ := hi.work
    refine mem_gc_dirs hd (fun rid e _ he => hplace ▸ hi.path_ne_memPath he place) (Or.inr ?_)
    rw [keepDirs, gc_current.2]
    exact List.mem_cons_of_mem _ List.mem_cons_self

/-- A store and a layer directory next to each other. -/
def exampleConfig : Config where
  snapshotStore := "/w/snapshots"
  layersRoot := "/w/layers"
  baseLayer := "/base"
  initialUpper := "/w/upper"
  initialWork := "/w/work"
  apart := by
    rintro name (_ | _ | _ | name') h
    all_goals
      have := congrArg String.toList h
      simp [Overlay.join, Roots.path] at this

/-- A controller that has just been made. -/
def exampleState : State where
  registry := Dict.empty
  templates := some Dict.empty
  procs := [10]
  lazyPageDaemons := []
  prestart := none
  agentPid := 10
  nsInitPid := 9
  currentUpper := "/w/upper"
  currentWork := "/w/work"
  dirs := ["/base", "/w/upper", "/w/work"]

/-- Three checkpoints. The second is still being written when the collection comes. -/
def exampleLabels : List Label :=
  [.checkpoint "a1" "t" none none none [.base] (some 10) false 11 (.layers "u1") (.layers "w1"),
    .checkpoint "b2" "t" (some "a1") (some "a1") none [.base] (some 11) true 12 (.layers "u2")
      (.layers "w2"),
    .checkpoint "c3" "t" (some "a1") none none [.base] (some 12) false 13 (.layers "u3")
      (.layers "w3")]

/-- They can be taken one after the other. -/
theorem exampleLabels_run :
    (Machine.exec (step exampleConfig) exampleState exampleLabels).isSome = true := by
  decide +kernel

theorem collection_retains_chain :
    ∃ s, Machine.exec (step exampleConfig) exampleState exampleLabels = some s ∧
      "a1" ∈ (gcObsoleteSnapshots exampleConfig s (.ids [])).registry.keys ∧
      "c3" ∉ (gcObsoleteSnapshots exampleConfig s (.ids [])).registry.keys := by
  have hinitial : Initial exampleConfig exampleState :=
    ⟨rfl, fun _ h => (Option.some.inj h).symm, rfl, rfl⟩
  have hvalid : (Request.ids []).Valid := trivial
  have hrun := (Option.some_get exampleLabels_run).symm
  have h := collection_retains hinitial hrun hvalid
  refine ⟨_, hrun, ?_, by decide +kernel⟩
  -- `b2` is still being written, and rests on `a1`.
  refine h.1.1.2 "b2" (h.1.1.1 "b2" (Or.inr ⟨_, rfl, Or.inl rfl⟩)) "a1" ⟨by decide +kernel, _, rfl, ?_⟩
  exact Or.inl rfl

end Gc

end DeltaBox
