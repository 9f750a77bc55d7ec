import DeltaBox.Adaptive.Controller

/-!
# Which earlier images a dump may name

CRIU writes a dump against an earlier image, and this image has to have every process of the tree.
The controller does not know who is in an image. It compares the number of direct children with the
one at the last dump, and this is not the same:

* a child that forks has a new process below it, and the agent has as many children as before;
* a child that exits and one that starts cancel out;
* the last dump may have been on another branch than the parent that is named;
* a pre-dump has no guard at all.

So the runs in which the named images are right are those in which processes do not come at the wrong
moment. Who has come is watched from outside: since the last dump or restore, and since the last
pre-dump.

## Main results

* `prev_images_hold` — the named images are right in every run whose steps are careful
* `grandchild_missing` — a grandchild that starts between two dumps
-/

namespace DeltaBox

namespace Adaptive

open Machine
open Semantic (Strategy parseStrategy)

/-! ### Watching -/

/-- What an observer knows of a run. -/
structure Watch where
  /-- The checkpoint of the last dump or restore. -/
  base : Option Id
  /-- The processes that have come since. -/
  arrived : List Proc
  /-- The processes that have come since the last pre-dump, a restore may have brought them. -/
  sincePredump : List Proc
  deriving DecidableEq, Repr

def Watch.init : Watch := ⟨none, [], []⟩

/-- The processes that are new in a tree. -/
def newcomers (old new : Tree) : List Proc := (procs new).filter (· ∉ procs old)

/-- The tree changes. -/
def Watch.saw (w : Watch) (old new : Tree) : Watch :=
  { w with arrived := w.arrived ++ newcomers old new,
           sincePredump := w.sincePredump ++ newcomers old new }

/-- The tree is the one of a checkpoint. -/
def Watch.stand (w : Watch) (id : Id) : Watch := { w with base := some id, arrived := [] }

/-- A pre-dump is over. -/
def Watch.predumped (w : Watch) (old new : Tree) : Watch :=
  { w.saw old new with sincePredump := newcomers old new }

variable (cfg : Config)

/-- What is seen of a step. -/
def Watch.next (w : Watch) (s : State) : Action → Watch
  | .churn tree => w.saw s.tree tree
  | .checkpoint c =>
    match finalStrategy cfg c.raw c.hot with
    | .lightweight => w
    | .standard => if c.dumpPasses then w.stand c.new else w
    | .predump =>
      if c.predumpPasses then
        if c.dumpPasses then (w.predumped s.tree c.meanwhile).stand c.new
        else w.predumped s.tree c.meanwhile
      else w
  | .anchor current interval new passes =>
    if (s.checkpointCounter + 1) % interval = 0 ∧ s.registry.find? current ≠ none ∧ passes = true then
      w.stand new
    else w
  | .restore target passes =>
    match s.effectiveId target with
    | none => w
    | some id =>
      if passes then (w.saw s.tree (restore s target passes).tree).stand id else w
  | .prune _ _ => w

/-- A step, and what is seen of it. -/
def watched (x : State × Watch) (a : Action) : Option (State × Watch) :=
  (step cfg x.1 a).map fun s => (s, x.2.next cfg x.1 a)

/-- None of the processes is in the tree. -/
def Gone (ps : List Proc) (tree : Tree) : Prop := ∀ p ∈ ps, p ∉ procs tree

instance (ps : List Proc) (tree : Tree) : Decidable (Gone ps tree) :=
  inferInstanceAs (Decidable (∀ p ∈ ps, p ∉ procs tree))

/-- A checkpoint at a good moment. If the number of children is the one at the last dump, then a
standard one has a parent that is the checkpoint of the last dump or restore, and no process of the
tree has come since. Before a pre-dump no process has come since the last one, and if the number of
children is the one at the last dump, none comes while it runs. -/
def Careful (x : State × Watch) : Action → Prop
  | .checkpoint c =>
    (finalStrategy cfg c.raw c.hot = .standard →
      countChildren cfg x.1.tree ≠ x.1.lastChildCount ∨ x.1.parentForDump c.parent = none ∨
        (x.1.parentForDump c.parent = x.2.base ∧ Gone x.2.arrived x.1.tree)) ∧
    (finalStrategy cfg c.raw c.hot = .predump →
      (x.1.lastPredumpDir = none ∨ Gone x.2.sincePredump x.1.tree) ∧
        (countChildren cfg c.meanwhile ≠ x.1.lastChildCount ∨ newcomers x.1.tree c.meanwhile = []))
  | _ => True

instance (x : State × Watch) : ∀ a, Decidable (Careful cfg x a)
  | .checkpoint _ => inferInstanceAs (Decidable (_ ∧ _))
  | .churn _ | .anchor .. | .restore .. | .prune .. => isTrue trivial

/-! ### The invariant -/

/-- The named image exists, and has every process of the tree. -/
def Issued.Sound (i : Issued) : Prop :=
  ∀ d, i.prev = some d → ∃ image, i.found = some image ∧ ∀ p ∈ procs i.tree, p ∈ procs image

/-- Every process of the tree is in the image, but for some that have come. -/
def Within (tree : Tree) (ps : List Proc) (image : Tree) : Prop :=
  ∀ p ∈ procs tree, p ∈ procs image ∨ p ∈ ps

/-- What holds between the steps. -/
structure Inv (s : State) (w : Watch) : Prop where
  entries : ∀ id e, s.registry.find? id = some e → id ∈ s.used ∧ e.memPath = .mem id ∧
    (e.strategy ≠ .lightweight → ∃ image, s.disk (.mem id) = some image)
  base_used : ∀ b, w.base = some b → b ∈ s.used
  base : ∀ b e image, w.base = some b → s.registry.find? b = some e → e.strategy ≠ .lightweight →
    s.disk (.mem b) = some image → Within s.tree w.arrived image
  predump : ∀ d, s.lastPredumpDir = some d → (∃ n ∈ s.used, d = .predump n) ∧
    ∃ image, s.disk d = some image ∧ Within s.tree w.sincePredump image
  issued : ∀ i ∈ s.issued, i.Sound

variable {cfg} {s : State} {w : Watch} {new : Id}

theorem inv_init (tree : Tree) : Inv (State.init tree) .init where
  entries id e h := by cases h
  base_used b h := by cases h
  base b e image h := by cases h
  predump d h := by cases h
  issued i h := by cases h

theorem within_saw {old tree : Tree} {ps : List Proc} {image : Tree} (h : Within old ps image) :
    Within tree (ps ++ newcomers old tree) image := by
  intro p hp
  by_cases hold : p ∈ procs old
  · exact (h p hold).imp_right (List.mem_append_left _)
  · exact .inr (List.mem_append_right _ (List.mem_filter.mpr ⟨hp, by simpa using hold⟩))

theorem within_gone {tree image : Tree} {ps : List Proc} (h : Within tree ps image)
    (hgone : Gone ps tree) : ∀ p ∈ procs tree, p ∈ procs image := fun p hp =>
  (h p hp).resolve_right fun hmem => hgone p hmem hp

/-- What does not touch the known directories. -/
theorem Inv.frame {s' : State} (h : Inv s w) (hreg : s'.registry = s.registry)
    (hpre : s'.lastPredumpDir = s.lastPredumpDir) (htree : s'.tree = s.tree)
    (hused : s.used ⊆ s'.used) (hmem : ∀ id e, s.registry.find? id = some e →
      s'.disk (.mem id) = s.disk (.mem id))
    (hdisk : ∀ d, s.lastPredumpDir = some d → s'.disk d = s.disk d)
    (hissued : ∀ i ∈ s'.issued, i.Sound) : Inv s' w where
  entries id e he := by
    rw [hreg] at he
    obtain ⟨hid, hpath, himage⟩ := h.entries id e he
    exact ⟨hused hid, hpath, fun hne => by rw [hmem id e he]; exact himage hne⟩
  base_used b hb := hused (h.base_used b hb)
  base b e image hb he hne himage := by
    rw [hreg] at he
    rw [hmem b e he] at himage
    rw [htree]
    exact h.base b e image hb he hne himage
  predump d hd := by
    rw [hpre] at hd
    obtain ⟨⟨n, hn, hdn⟩, himage⟩ := h.predump d hd
    rw [htree, hdisk d hd]
    exact ⟨⟨n, hused hn, hdn⟩, himage⟩
  issued := hissued

/-- The id has been drawn for this step. -/
structure New (s : State) (w : Watch) (new : Id) : Prop where
  used : new ∈ s.used
  unknown : s.registry.find? new = none
  not_base : w.base ≠ some new

theorem Inv.draw (h : Inv s w) (hnew : new ∉ s.used) :
    Inv { s with used := new :: s.used } w ∧ New { s with used := new :: s.used } w new ∧
      s.lastPredumpDir ≠ some (.predump new) := by
  refine ⟨h.frame rfl rfl rfl (List.subset_cons_self ..) (fun _ _ _ => rfl) (fun _ _ => rfl) h.issued,
    ⟨List.mem_cons_self, ?_, fun hbase => hnew (h.base_used new hbase)⟩, fun hpre => ?_⟩
  · cases hfind : s.registry.find? new with
    | none => rfl
    | some e => exact absurd (h.entries new e hfind).1 hnew
  · obtain ⟨⟨n, hn, heq⟩, -⟩ := h.predump _ hpre
    obtain rfl := Dir.predump.inj heq
    exact hnew hn

theorem New.ne_of_find {id : Id} {e : Entry} (hnew : New s w new) (h : s.registry.find? id = some e) :
    id ≠ new := by
  rintro rfl
  rw [hnew.unknown] at h
  cases h

/-- Directories of a new id. -/
theorem Inv.update {d : Dir} {image : Option Tree} (h : Inv s w) (hnew : New s w new)
    (hd : d = .mem new ∨ d = .predump new ∧ s.lastPredumpDir ≠ some (.predump new)) :
    Inv { s with disk := Function.update s.disk d image } w := by
  refine h.frame rfl rfl rfl (List.Subset.refl _) (fun id e he => ?_) (fun d' hd' => ?_) h.issued
  · refine Function.update_of_ne (fun heq => ?_) _ _
    rcases hd with rfl | ⟨rfl, -⟩
    · exact hnew.ne_of_find he (Dir.mem.inj heq)
    · cases heq
  · refine Function.update_of_ne (fun heq => ?_) _ _
    obtain ⟨⟨n, -, rfl⟩, -⟩ := h.predump d' hd'
    rcases hd with rfl | ⟨rfl, hlast⟩
    · cases heq
    · exact hlast (heq ▸ hd')

theorem Inv.issue {prev : Option Dir} (h : Inv s w)
    (hsound : Issued.Sound ⟨prev, prev.bind s.disk, s.tree⟩) : Inv (s.issue prev) w :=
  h.frame rfl rfl rfl (List.Subset.refl _) (fun _ _ _ => rfl) (fun _ _ => rfl) fun i hi => by
    rcases List.mem_append.mp hi with hi | hi
    · exact h.issued i hi
    · rw [List.mem_singleton.mp hi]
      exact hsound

/-- A dump that has succeeded, and its entry. -/
theorem Inv.register {parent : Option Id} {kind : Kind} (h : Inv s w) (hnew : New s w new) :
    Inv { s.wrote (.mem new) with
      registry := (s.wrote (.mem new)).registry.set new ⟨.mem new, parent, kind, none⟩ }
      (w.stand new) := by
  have hwrote : Inv (s.wrote (.mem new)) w := h.update hnew (.inl rfl)
  have hself : (s.wrote (.mem new)).disk (.mem new) = some s.tree := Function.update_self ..
  refine ⟨fun id e he => ?_, fun b hb => ?_, fun b e image hb he hne himage => ?_, hwrote.predump,
    h.issued⟩
  · rw [Dict.find?_set] at he
    split_ifs at he with hid
    · obtain rfl := Option.some.inj he
      subst hid
      exact ⟨hnew.used, rfl, fun _ => ⟨_, hself⟩⟩
    · exact hwrote.entries id e he
  · obtain rfl : new = b := Option.some.inj hb
    exact hnew.used
  · obtain rfl : new = b := Option.some.inj hb
    obtain rfl : s.tree = image := Option.some.inj (hself.symm.trans himage)
    exact fun p hp => .inl hp

/-- The second phase. The named image is right unless it is dropped. -/
theorem Inv.dump {parent : Option Id} {kind : Kind} {prev : Option Dir} {passes : Bool}
    (h : Inv s w) (hnew : New s w new)
    (hsound : countChildren cfg s.tree ≠ s.lastChildCount ∨
      Issued.Sound ⟨prev, prev.bind s.disk, s.tree⟩) :
    Inv (Adaptive.dump cfg s parent new kind prev passes) (if passes then w.stand new else w) := by
  have hcount : Inv { s with lastChildCount := countChildren cfg s.tree } w :=
    h.frame rfl rfl rfl (List.Subset.refl _) (fun _ _ _ => rfl) (fun _ _ => rfl) h.issued
  have hkept : Issued.Sound ⟨if countChildren cfg s.tree ≠ s.lastChildCount then none else prev,
      (if countChildren cfg s.tree ≠ s.lastChildCount then none else prev).bind s.disk, s.tree⟩ := by
    split_ifs with hchanged
    · exact fun d hd => by cases hd
    · exact hsound.resolve_left hchanged
  have hissue := hcount.issue hkept
  rw [Adaptive.dump]
  cases passes with
  | false => exact hissue
  | true => exact hissue.register ⟨hnew.used, hnew.unknown, hnew.not_base⟩

/-- The walk ends at a registered checkpoint that is not lightweight. -/
theorem physical_spec {registry : Dict Id Entry} {n : ℕ} {parent : Option Id} {id : Id}
    (h : physical registry n parent = some id) :
    ∃ e, registry.find? id = some e ∧ e.strategy ≠ .lightweight := by
  induction n generalizing parent with
  | zero => cases h
  | succ n ih =>
    cases parent with
    | none => cases h
    | some p =>
      rw [physical] at h
      cases hfind : registry.find? p with
      | none => rw [hfind] at h; cases h
      | some e =>
        rw [hfind] at h
        dsimp only at h
        split_ifs at h with hkind
        · obtain rfl := Option.some.inj h
          exact ⟨e, hfind, hkind⟩
        · exact ih h

/-! ### Steps -/

theorem Inv.churn (h : Inv s w) (tree : Tree) :
    Inv { s with tree := tree } (w.saw s.tree tree) where
  entries := h.entries
  base_used := h.base_used
  base b e image hb he hne himage := within_saw (h.base b e image hb he hne himage)
  predump d hd := by
    obtain ⟨hused, image, himage, hwithin⟩ := h.predump d hd
    exact ⟨hused, image, himage, within_saw hwithin⟩
  issued := h.issued

/-- Directories that are made. -/
theorem Inv.makedirs {d : Dir} (h : Inv s w) (hnew : New s w new)
    (hd : d = .mem new ∨ d = .predump new ∧ s.lastPredumpDir ≠ some (.predump new)) :
    Inv (s.makedirs d) w ∧ New (s.makedirs d) w new :=
  ⟨h.update hnew hd, hnew.used, hnew.unknown, hnew.not_base⟩

/-- The pre-dump is in its directory, and the tree goes on. -/
theorem Inv.predumped (h : Inv s w) (hnew : New s w new)
    (hlast : s.lastPredumpDir ≠ some (.predump new)) (tree : Tree) :
    Inv { s.wrote (.predump new) with lastPredumpDir := some (.predump new), tree := tree }
      (w.predumped s.tree tree) := by
  have hwrote : Inv (s.wrote (.predump new)) w := h.update hnew (.inr ⟨rfl, hlast⟩)
  refine ⟨hwrote.entries, h.base_used, fun b e image hb he hne himage => ?_, fun d hd => ?_, h.issued⟩
  · exact within_saw (hwrote.base b e image hb he hne himage)
  · obtain rfl : .predump new = d := Option.some.inj hd
    refine ⟨⟨new, hnew.used, rfl⟩, s.tree, Function.update_self .., fun p hp => ?_⟩
    by_cases hold : p ∈ procs s.tree
    · exact .inl hold
    · exact .inr (List.mem_filter.mpr ⟨hp, by simpa using hold⟩)

theorem inv_checkpoint {c : Call} (h : Inv s w) (hnew : New s w c.new)
    (hlast : s.lastPredumpDir ≠ some (.predump c.new))
    (hcareful : Careful cfg (s, w) (.checkpoint c)) :
    Inv (checkpoint cfg s c) (w.next cfg s (.checkpoint c)) := by
  obtain ⟨hmade, hnewmade⟩ := h.makedirs hnew (.inl rfl)
  rw [Careful] at hcareful
  rw [checkpoint, Watch.next]
  dsimp only
  cases hkind : finalStrategy cfg c.raw c.hot with
  | lightweight =>
    refine ⟨fun id e he => ?_, hmade.base_used, fun b e image hb he hne himage => ?_, hmade.predump,
      hmade.issued⟩
    · rw [Dict.find?_set] at he
      split_ifs at he with hid
      · obtain rfl := Option.some.inj he
        subst hid
        exact ⟨hnew.used, rfl, fun hne => absurd rfl hne⟩
      · exact hmade.entries id e he
    · rw [Dict.find?_set] at he
      split_ifs at he with hid
      · exact absurd (hid ▸ hb) hnew.not_base
      · exact hmade.base b e image hb he hne himage
  | standard =>
    refine hmade.dump hnewmade ((hcareful.1 hkind).imp_right fun hparent => ?_)
    -- the earlier image is the one of the last dump or restore, or there is none
    intro d hd
    rcases hparent with hnone | ⟨hbase, hgone⟩
    · have hwalk : (s.makedirs (.mem c.new)).parentForDump c.parent = none := hnone
      rw [hwalk] at hd
      cases hd
    · cases hwalk : s.parentForDump c.parent with
      | none =>
        have hwalk' : (s.makedirs (.mem c.new)).parentForDump c.parent = none := hwalk
        rw [hwalk'] at hd
        cases hd
      | some b =>
        have hwalk' : (s.makedirs (.mem c.new)).parentForDump c.parent = some b := hwalk
        obtain ⟨e, he, hne⟩ := physical_spec hwalk'
        obtain ⟨-, hpath, himage⟩ := hmade.entries b e he
        obtain ⟨image, himage⟩ := himage hne
        have hmem : (s.makedirs (.mem c.new)).memPath b = some (.mem b) := by
          rw [State.memPath, he, ← hpath]
          rfl
        have hprev : some d = some (.mem b) := by
          rw [← hd, hwalk']
          exact hmem
        obtain rfl := Option.some.inj hprev
        refine ⟨image, ?_, within_gone (hmade.base b e image (hbase ▸ hwalk) he hne himage) hgone⟩
        dsimp only at hd ⊢
        rw [hd]
        exact himage
  | predump =>
    obtain ⟨hpre, hmeanwhile⟩ := hcareful.2 hkind
    obtain ⟨hmade, hnewmade⟩ := hmade.makedirs hnewmade (.inr ⟨rfl, hlast⟩)
    have hsound : Issued.Sound ⟨s.lastPredumpDir,
        s.lastPredumpDir.bind ((s.makedirs (.mem c.new)).makedirs (.predump c.new)).disk, s.tree⟩ := by
      intro d hd
      rcases hpre with hnone | hgone
      · exact absurd (hnone.symm.trans hd) (by simp)
      · obtain ⟨-, image, himage, hwithin⟩ := hmade.predump d hd
        refine ⟨image, ?_, within_gone hwithin hgone⟩
        dsimp only at hd ⊢
        rw [hd]
        exact himage
    have hissue := hmade.issue hsound
    cases hpass : c.predumpPasses with
    | false => exact hissue
    | true =>
      have hdone := hissue.predumped ⟨hnewmade.used, hnewmade.unknown, hnewmade.not_base⟩ hlast
        c.meanwhile
      refine hdone.dump ⟨hnewmade.used, hnewmade.unknown, hnewmade.not_base⟩
        (hmeanwhile.imp_right fun hnone => ?_)
      -- the pre-dump has the tree from before, and nobody has come
      intro d hd
      obtain rfl : .predump c.new = d := Option.some.inj hd
      refine ⟨s.tree, Function.update_self .., fun p hp => ?_⟩
      by_contra hold
      have hcome : p ∈ newcomers s.tree c.meanwhile :=
        List.mem_filter.mpr ⟨hp, by simpa using hold⟩
      rw [hnone] at hcome
      cases hcome

theorem inv_anchor {current interval : ℕ} {passes : Bool} (h : Inv s w) (hnew : New s w new) :
    Inv (anchor s current interval new passes) (w.next cfg s (.anchor current interval new passes)) := by
  have hcount : Inv { s with checkpointCounter := s.checkpointCounter + 1 } w :=
    h.frame rfl rfl rfl (List.Subset.refl _) (fun _ _ _ => rfl) (fun _ _ => rfl) h.issued
  rw [anchor, Watch.next]
  dsimp only
  by_cases hturn : (s.checkpointCounter + 1) % interval = 0
  · rw [if_neg (by simpa using hturn)]
    by_cases hcurrent : s.registry.find? current = none
    · rw [if_pos hcurrent, if_neg fun hall => hall.2.1 hcurrent]
      exact hcount
    · obtain ⟨hmade, hnewmade⟩ := hcount.makedirs
        ⟨hnew.used, hnew.unknown, hnew.not_base⟩ (.inl rfl)
      have hissue := hmade.issue (show Issued.Sound ⟨none, _, _⟩ from fun d hd => by cases hd)
      have hseen : (if (s.checkpointCounter + 1) % interval = 0 ∧ s.registry.find? current ≠ none ∧
          passes = true then w.stand new else w) = if passes = true then w.stand new else w := by
        simp [hturn, hcurrent]
      rw [if_neg hcurrent, hseen]
      cases passes with
      | false => exact hissue
      | true => exact hissue.register ⟨hnewmade.used, hnewmade.unknown, hnewmade.not_base⟩
  · rw [if_pos hturn, if_neg fun hall => hturn hall.1]
    exact hcount

/-- The tree may lose all of its processes. -/
theorem Inv.killed (h : Inv s w) : Inv { s with tree := [] } w where
  entries := h.entries
  base_used := h.base_used
  base b e image hb he hne himage p hp := by cases hp
  predump d hd := by
    obtain ⟨hused, image, himage, -⟩ := h.predump d hd
    exact ⟨hused, image, himage, fun p hp => by cases hp⟩
  issued := h.issued

theorem effectiveId_spec {target id : Id} (h : s.effectiveId target = some id) :
    ∃ e, s.registry.find? id = some e := by
  rw [State.effectiveId] at h
  cases hfind : s.registry.find? target with
  | none => rw [hfind] at h; cases h
  | some e =>
    rw [hfind] at h
    dsimp only at h
    cases heff : e.effective.getD (some target) with
    | none => rw [heff] at h; cases h
    | some id' =>
      rw [heff] at h
      dsimp only at h
      split_ifs at h with hsome
      obtain rfl := Option.some.inj h
      exact Option.isSome_iff_exists.mp hsome

theorem inv_restore {target : Id} {passes : Bool} (h : Inv s w) :
    Inv (restore s target passes) (w.next cfg s (.restore target passes)) := by
  rw [Watch.next]
  cases heff : s.effectiveId target with
  | none =>
    rw [restore, heff]
    exact h
  | some id =>
    obtain ⟨e, he⟩ := effectiveId_spec heff
    obtain ⟨hused, hpath, -⟩ := h.entries id e he
    have hmem : (s.memPath id).bind s.disk = s.disk (.mem id) := by
      rw [State.memPath, he, Option.map_some, hpath, Option.bind_some]
    cases passes with
    | false =>
      have hdead : restore s target false = { s with tree := [] } := by
        rw [restore, heff]
        dsimp only
        cases (s.memPath id).bind s.disk <;> rfl
      rw [hdead]
      exact h.killed
    | true =>
      simp only [if_true]
      cases himage : s.disk (.mem id) with
      | none =>
        have hdead : restore s target true = { s with tree := [] } := by
          rw [restore, heff]
          dsimp only
          rw [hmem, himage]
        rw [hdead]
        refine ⟨h.entries, fun b hb => ?_, fun b e' image hb he' hne himage' p hp => ?_,
          (h.churn []).predump, h.issued⟩
        · obtain rfl : id = b := Option.some.inj hb
          exact hused
        · cases hp
      | some image =>
        have hback : restore s target true = { s with tree := image } := by
          rw [restore, heff]
          dsimp only
          rw [hmem, himage]
          rfl
        rw [hback]
        refine ⟨h.entries, fun b hb => ?_, fun b e' image' hb he' hne himage' => ?_,
          (h.churn image).predump, h.issued⟩
        · obtain rfl : id = b := Option.some.inj hb
          exact hused
        · obtain rfl : id = b := Option.some.inj hb
          obtain rfl : image = image' := Option.some.inj (himage.symm.trans himage')
          exact fun p hp => .inl hp

theorem inv_prune {active stuck : List Id} (h : Inv s w) : Inv (beamPrune s active stuck) w := by
  have hkeep : ∀ {id e}, (beamPrune s active stuck).registry.find? id = some e →
      s.registry.find? id = some e ∧
        (beamPrune s active stuck).disk (.mem id) = s.disk (.mem id) := by
    intro id e he
    rw [beamPrune] at he ⊢
    dsimp only at he ⊢
    rw [Dict.find?_keep] at he
    split_ifs at he with hin
    refine ⟨he, ?_⟩
    rw [if_neg fun hgone => hgone.2 (of_decide_eq_true hin)]
  refine ⟨fun id e he => ?_, h.base_used, fun b e image hb he hne himage => ?_, fun d hd => ?_,
    h.issued⟩
  · obtain ⟨hold, hdisk⟩ := hkeep he
    obtain ⟨hused, hpath, himage⟩ := h.entries id e hold
    exact ⟨hused, hpath, fun hne => by rw [hdisk]; exact himage hne⟩
  · obtain ⟨hold, hdisk⟩ := hkeep he
    rw [hdisk] at himage
    exact h.base b e image hb hold hne himage
  · obtain ⟨⟨n, hn, rfl⟩, himage⟩ := h.predump d hd
    exact ⟨⟨n, hn, rfl⟩, himage⟩

/-- **A careful step keeps the invariant.** -/
theorem inv_step {x y : State × Watch} {a : Action} (h : Inv x.1 x.2) (hcareful : Careful cfg x a)
    (hstep : watched cfg x a = some y) : Inv y.1 y.2 := by
  obtain ⟨s, w⟩ := x
  obtain ⟨t, ht, rfl⟩ := Option.map_eq_some_iff.mp hstep
  cases a with
  | churn tree =>
    obtain rfl := Option.some.inj ht
    exact h.churn tree
  | checkpoint c =>
    rw [step] at ht
    split_ifs at ht with hused
    obtain rfl := Option.some.inj ht
    obtain ⟨hdrawn, hnew, hlast⟩ := h.draw hused
    exact inv_checkpoint hdrawn hnew hlast hcareful
  | anchor current interval new passes =>
    rw [step] at ht
    split_ifs at ht with hused
    obtain rfl := Option.some.inj ht
    obtain ⟨hdrawn, hnew, -⟩ := h.draw hused
    exact @inv_anchor cfg _ w new current interval passes hdrawn hnew
  | restore target passes =>
    obtain rfl := Option.some.inj ht
    exact @inv_restore cfg s w target passes h
  | prune active stuck =>
    obtain rfl := Option.some.inj ht
    exact inv_prune h

/-! ### Runs -/

/-- **The named images are right in careful runs.** Whatever is checkpointed, restored and pruned, and
whichever commands fail: if every checkpoint is made at a good moment, then every command that names
an earlier image names a directory that exists, with an image of every process of the tree. -/
theorem prev_images_hold (cfg : Config) (tree : Tree) {as : List Action} {t : State} {w : Watch}
    (hcareful : Along (watched cfg) (Careful cfg) (State.init tree, .init) as)
    (hrun : exec (watched cfg) (State.init tree, .init) as = some (t, w)) :
    ∀ i ∈ t.issued, ∀ d, i.prev = some d →
      ∃ image, i.found = some image ∧ ∀ p ∈ procs i.tree, p ∈ procs image := by
  have hinv : Inv t w := invariant_along (I := fun x : State × Watch => Inv x.1 x.2)
    (fun h hc hstep => inv_step h hc hstep) (inv_init tree) hcareful hrun
  exact hinv.issued

/-- An agent without pre-dumps. -/
def plain : Config := ⟨1, false⟩

/-- A checkpoint whose command succeeds. -/
def checkpointAt (parent : Option Id) (new : Id) : Action :=
  .checkpoint ⟨parent, "make", false, new, true, [], true⟩

/-- A dump, a second one behind it, and one more after a restore and a prune. -/
def branches : List Action :=
  [.churn [(1, 0), (2, 1)], checkpointAt none 1, .churn [(1, 0)], .churn [(1, 0), (5, 1)],
    .churn [(1, 0)], checkpointAt (some 1) 2, .restore 1 true, checkpointAt (some 1) 3,
    checkpointAt (some 3) 4, .prune [4] []]

theorem prev_images_hold_branches : ∃ t w,
    exec (watched plain) (State.init [(1, 0)], .init) branches = some (t, w) ∧
      ∀ i ∈ t.issued, ∀ d, i.prev = some d →
        ∃ image, i.found = some image ∧ ∀ p ∈ procs i.tree, p ∈ procs image := by
  have hcareful : Along (watched plain) (Careful plain) (State.init [(1, 0)], .init) branches := by
    decide +kernel
  obtain ⟨⟨t, w⟩, hrun⟩ := Option.isSome_iff_exists.mp
    (show (exec (watched plain) (State.init [(1, 0)], .init) branches).isSome = true by decide +kernel)
  exact ⟨t, w, hrun, prev_images_hold plain [(1, 0)] hcareful hrun⟩

/-- A child starts a process of its own. The agent still has one child, and the image of the last
dump is named, which does not have the new process. -/
theorem grandchild_missing :
    (exec (watched plain) (State.init [(1, 0)], .init)
      [.churn [(1, 0), (2, 1)], checkpointAt none 1, .churn [(1, 0), (2, 1), (3, 2)],
        checkpointAt (some 1) 2]).map (fun x => x.1.issued) =
      some [⟨none, none, [(1, 0), (2, 1)]⟩,
        ⟨some (.mem 1), some [(1, 0), (2, 1)], [(1, 0), (2, 1), (3, 2)]⟩] ∧
    3 ∉ procs [(1, 0), (2, 1)] := by
  refine ⟨?_, ?_⟩ <;> decide +kernel

end Adaptive

end DeltaBox
