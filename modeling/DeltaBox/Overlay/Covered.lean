import DeltaBox.Overlay.LockStep

/-!
# Root overlays, whole runs

A set of root overlays through any run of checkpoints, restores and file changes. The loops of the
set have no way back: when the second switch raises, the first overlay has already moved. When the
first one raises, none has, and the set stays in step.

The directories of an overlay are named after its target with the slashes replaced, so two targets
can have one name. `Separate` says that they do not, and that the covered directories are not
inside one another.

## Main results

* `InStep` — the invariant of a set, and `InStep.step`
* `mountAll_spec` — mounting establishes it
* `root_overlays_lockstep` — all overlays are at one point, restores bring back what was there, and
  a file change below one target is not seen below another
-/

namespace DeltaBox

namespace Overlay

open RootOverlay RootOverlaySet

variable {P C : Type*} {d d' : Disk P C} {o o' : RootOverlay} {layersRoot : String}
  {os done : List RootOverlay}

/-! ### File changes -/

section

variable {i : ℕ} {l : Layer P C}

theorem RootOverlay.Good.put (h : Good d o) : Good (d.put i l) o where
  upper := h.upper
  lowers := (Disk.resolve_put ..).trans h.lowers
  snapshots id chain hs := (h.snapshots id chain hs).imp fun _ hr => (Disk.resolve_put ..).trans hr
  unused := h.unused
  numbered := h.numbered
  worked := h.worked

theorem RootOverlay.frozen_put {j : ℕ} : o.Frozen (d.put i l) j ↔ o.Frozen d j := by
  simp only [Frozen, Disk.resolve_put]

theorem Apart.put (h : Apart layersRoot d os) : Apart layersRoot (d.put i l) os where
  good o ho := (h.good o ho).put
  rooted := h.rooted
  roots := h.roots
  uppers := h.uppers
  frozen o ho o' ho' hf := h.frozen o ho o' ho' (frozen_put.mp hf)

end

/-! ### Pairs of lists -/

section

variable {α β γ : Type*} {R : α → β → Prop} {S : α → γ → Prop} {as : List α} {bs : List β}
  {cs : List γ}

theorem exists_of_forall₂ (h : List.Forall₂ R as bs) : ∀ b ∈ bs, ∃ a ∈ as, R a b := by
  induction h with
  | nil => simp
  | cons hab _ ih =>
    intro b hb
    rcases List.mem_cons.mp hb with rfl | hb
    · exact ⟨_, List.mem_cons_self, hab⟩
    · obtain ⟨a, ha, hr⟩ := ih b hb
      exact ⟨a, List.mem_cons_of_mem _ ha, hr⟩

theorem forall₂_carry {T : β → γ → Prop} (h : List.Forall₂ R as bs) (h' : List.Forall₂ S as cs)
    (hT : ∀ a b c, R a b → S a c → T b c) : List.Forall₂ T bs cs := by
  induction h generalizing cs with
  | nil =>
    cases h'
    exact .nil
  | cons hab _ ih =>
    cases h' with
    | cons hac htail => exact .cons (hT _ _ _ hab hac) (ih htail)

end

/-! ### The loops, with a switch that raises -/

section

variable {f : Disk P C → RootOverlay → Bool → Disk P C × RootOverlay × Bool} {i : ℕ}

/-- A fault beyond the last overlay is none. -/
theorem each_of_le (h : done.length + os.length ≤ i) :
    each f (some i) d done os = each f none d done os := by
  induction os generalizing d done with
  | nil => rfl
  | cons o os ih =>
    have hne : (some i : Option ℕ) ≠ some done.length := by
      simp only [List.length_cons] at h
      intro heq
      have := Option.some.inj heq
      omega
    rw [each, each]
    simp only [hne, ne_eq, not_false_eq_true, decide_true, reduceCtorEq]
    split
    · refine ih ?_
      simp only [List.length_append, List.length_cons, List.length_nil] at h ⊢
      omega
    · rfl

end

variable [DecidableEq P]

/-- The snapshot of an overlay under an id shows `v`. -/
def Shows (d : Disk P C) (id : String) (o : RootOverlay) (v : View P C) : Prop :=
  ∃ chain is, o.snapshots.find? id = some chain ∧ d.resolve chain = some is ∧ d.view is = v

theorem Shows.kept {id : String} {v : View P C} (h : Shows d id o v) (hk : Kept d d') :
    Shows d' id o v := by
  obtain ⟨chain, is, hs, hr, hv⟩ := h
  exact ⟨chain, is, hs, hk.resolve hr, (hk.view_eq hr).trans hv⟩

/-- A write to an upper changes no snapshot. -/
theorem Shows.put {id : String} {v : View P C} {i : ℕ} {l : Layer P C} (h : Shows d id o v)
    (hi : ¬ o.Frozen d i) : Shows (d.put i l) id o v := by
  obtain ⟨chain, is, hs, hr, hv⟩ := h
  have hmem : i ∉ is := fun hmem => hi (Or.inr ⟨id, chain, is, hs, hr, hmem⟩)
  exact ⟨chain, is, hs, (Disk.resolve_put ..).trans hr, (Disk.view_put_of_notMem hmem l).trans hv⟩

/-- A file change below one target is seen below that target only. -/
theorem Apart.visible_put {i j : ℕ} {l : Layer P C} (h : Apart layersRoot d os) (hne : i ≠ j)
    (hi : os[i]? = some o) (hj : os[j]? = some o') :
    (d.put o.mount.upper l).visible o'.mount = d.visible o'.mount := by
  refine Disk.view_put_of_notMem (fun hmem => ?_) l
  rcases List.mem_cons.mp hmem with heq | hmem
  · obtain ⟨hlt, -⟩ := List.getElem?_eq_some_iff.mp hi
    refine hne ((List.getElem?_inj (by simpa using hlt) h.uppers).mp ?_)
    simp [hi, hj, heq]
  · exact h.frozen o (List.mem_of_getElem? hi) o' (List.mem_of_getElem? hj) (Or.inl hmem)

/-! ### The invariant -/

/-- What holds of a set between calls. -/
structure InStep (layersRoot : String) (t : RootOverlaySet.Traced P C) : Prop where
  /-- The overlays keep out of each other's way. -/
  apart : Apart layersRoot t.set.disk t.set.overlays
  /-- They have made the same switches. -/
  points : ∀ o ∈ t.set.overlays, ∀ o' ∈ t.set.overlays, o.points = o'.points
  /-- They have the same snapshots. -/
  keys : ∀ o ∈ t.set.overlays, ∀ o' ∈ t.set.overlays, ∀ id,
    o.snapshots.find? id = none → o'.snapshots.find? id = none
  /-- And each snapshot shows what was there at the checkpoint. -/
  saved : ∀ id, (∃ o ∈ t.set.overlays, (o.snapshots.find? id).isSome) →
    ∃ vs, t.saved.find? id = some vs ∧ List.Forall₂ (Shows t.set.disk id) t.set.overlays vs

variable {t t' : RootOverlaySet.Traced P C}

/-- A change to the upper of one overlay. -/
theorem InStep.put (h : InStep layersRoot t) (ho : o ∈ t.set.overlays) (l : Layer P C) :
    InStep layersRoot
      { t with set := { t.set with disk := t.set.disk.put o.mount.upper l } } where
  apart := h.apart.put
  points := h.points
  keys := h.keys
  saved id hid := by
    obtain ⟨vs, hvs, hall⟩ := h.saved id hid
    refine ⟨vs, hvs, ?_⟩
    rw [List.forall₂_iff_get] at hall ⊢
    exact ⟨hall.1, fun i hi hi' => (hall.2 i hi hi').put
      (h.apart.frozen o ho _ (List.get_mem ..))⟩

theorem InStep.write (h : InStep layersRoot t) (i : ℕ) (ds : List P) (p : P) (c : C) :
    InStep layersRoot { t with set := t.set.write i ds p c } := by
  rw [RootOverlaySet.write]
  split
  · exact h
  · rename_i o ho
    exact h.put (List.mem_of_getElem? ho) _

theorem InStep.remove (h : InStep layersRoot t) (i : ℕ) (ds : List P) (p : P) :
    InStep layersRoot { t with set := t.set.remove i ds p } := by
  rw [RootOverlaySet.remove]
  split
  · exact h
  · rename_i o ho
    exact h.put (List.mem_of_getElem? ho) _

/-! ### Calls -/

/-- Only the first overlay changes, and of it only the counter. -/
theorem InStep.skipped (h : InStep layersRoot t) (hos : t.set.overlays = o :: os) (n : ℕ) :
    InStep layersRoot { t with set := ⟨(o.fresh t.set.disk).1, o.skipped :: os, n⟩ } := by
  have ho : o ∈ t.set.overlays := hos ▸ List.mem_cons_self
  have hback : ∀ x ∈ o.skipped :: os, ∃ y ∈ t.set.overlays,
      x.points = y.points ∧ x.snapshots = y.snapshots := by
    intro x hx
    rcases List.mem_cons.mp hx with rfl | hx
    · exact ⟨o, ho, rfl, rfl⟩
    · exact ⟨x, hos ▸ List.mem_cons_of_mem _ hx, rfl, rfl⟩
  have hgrown := (h.apart.good o ho).fresh
  have hskip := (h.apart.good o ho).skipped hgrown
  refine ⟨?_, fun x hx x' hx' => ?_, fun x hx x' hx' id hid => ?_, fun id hid => ?_⟩
  · have hapart : Apart layersRoot t.set.disk ([] ++ o :: os) := hos ▸ h.apart
    exact hapart.next hgrown hskip
  · obtain ⟨y, hy, hp, -⟩ := hback x hx
    obtain ⟨y', hy', hp', -⟩ := hback x' hx'
    rw [hp, hp', h.points y hy y' hy']
  · obtain ⟨y, hy, -, hs⟩ := hback x hx
    obtain ⟨y', hy', -, hs'⟩ := hback x' hx'
    rw [hs] at hid
    rw [hs', h.keys y hy y' hy' id hid]
  · obtain ⟨x, hx, hid⟩ := hid
    obtain ⟨y, hy, -, hs⟩ := hback x hx
    obtain ⟨vs, hvs, hall⟩ := h.saved id ⟨y, hy, hs ▸ hid⟩
    refine ⟨vs, hvs, ?_⟩
    rw [hos] at hall
    cases hall with
    | cons hv htail =>
      exact .cons (Shows.kept (o := o) hv (kept_fresh _ _))
        (htail.imp fun _ _ hshows => hshows.kept (kept_fresh _ _))

/-- What a checkpoint without an error does to the set. -/
theorem InStep.checkpoint_ok (h : InStep layersRoot t) (id : String) :
    ∃ s, t.set.checkpoint id none = (s, true) ∧
      InStep layersRoot ⟨s, t.saved.set id t.set.views⟩ := by
  have hnil : Apart layersRoot t.set.disk ([] ++ t.set.overlays) := h.apart
  obtain ⟨d', os', heach, hapart, hkept, hall⟩ := each_checkpoint
    (V := fun o => t.set.disk.visible o.mount) t.set.calls id hnil fun _ _ => rfl
  refine ⟨⟨d', os', t.set.calls + 1⟩, by simp [RootOverlaySet.checkpoint, heach], hapart,
    fun x hx x' hx' => ?_, fun x hx x' hx' id' hid => ?_, fun id' hid => ?_⟩
  · obtain ⟨y, hy, htaken⟩ := exists_of_forall₂ hall x hx
    obtain ⟨y', hy', htaken'⟩ := exists_of_forall₂ hall x' hx'
    rw [htaken.points, htaken'.points, h.points y hy y' hy']
  · obtain ⟨y, hy, htaken⟩ := exists_of_forall₂ hall x hx
    obtain ⟨y', hy', htaken'⟩ := exists_of_forall₂ hall x' hx'
    by_cases heq : id' = id
    · subst heq
      obtain ⟨chain, -, hs, -⟩ := htaken.snapshot
      rw [hs] at hid
      cases hid
    · rw [htaken.others id' heq] at hid
      rw [htaken'.others id' heq, h.keys y hy y' hy' id' hid]
  · by_cases heq : id' = id
    · subst heq
      refine ⟨t.set.views, Dict.find?_set_self .., ?_⟩
      rw [RootOverlaySet.views, List.forall₂_map_right_iff]
      exact (hall.imp fun _ _ htaken => htaken.snapshot).flip
    · obtain ⟨x, hx, hid⟩ := hid
      obtain ⟨y, hy, htaken⟩ := exists_of_forall₂ hall x hx
      rw [htaken.others id' heq] at hid
      obtain ⟨vs, hvs, hshows⟩ := h.saved id' ⟨y, hy, hid⟩
      refine ⟨vs, (Dict.find?_set_of_ne _ _ heq).trans hvs, ?_⟩
      refine forall₂_carry hall hshows fun a b v htaken hv => ?_
      obtain ⟨chain, is, hs, hr, hv⟩ := hv.kept hkept
      exact ⟨chain, is, (htaken.others id' heq).trans hs, hr, hv⟩

/-- What the snapshot of an overlay shows. -/
def shown (d : Disk P C) (id : String) (o : RootOverlay) : View P C :=
  d.view (((o.snapshots.find? id).bind d.resolve).getD [])

theorem Shows.shown_eq {id : String} {v : View P C} (h : Shows d id o v) : shown d id o = v := by
  obtain ⟨chain, is, hs, hr, hv⟩ := h
  rw [shown, hs, Option.bind_some, hr, Option.getD_some, hv]

theorem Shows.unique {id : String} {v w : View P C}
    (h : Shows d id o v) (h' : Shows d id o w) : v = w :=
  h.shown_eq.symm.trans h'.shown_eq

theorem Shows.of_snapshots {id : String} {v : View P C} (h : Shows d id o v)
    (heq : o'.snapshots.find? id = o.snapshots.find? id) : Shows d id o' v := by
  obtain ⟨chain, is, hs, hr, hv⟩ := h
  exact ⟨chain, is, heq.trans hs, hr, hv⟩

/-- A snapshot shows what it showed before there were more directories. -/
theorem Shows.back {id : String} {v : View P C} (h : Shows d' id o v) (hgood : Good d o)
    (hk : Kept d d') : Shows d id o v := by
  obtain ⟨chain, js, hs, hr', hv⟩ := h
  obtain ⟨is, hr⟩ := hgood.snapshots id chain hs
  obtain rfl := Option.some.inj ((hk.resolve hr).symm.trans hr')
  exact ⟨chain, is, hs, hr, (hk.view_eq hr).symm.trans hv⟩

/-- And before the upper was written. -/
theorem Shows.of_put {id : String} {v : View P C} {i : ℕ} {l : Layer P C}
    (h : Shows (d.put i l) id o v) (hi : ¬ o.Frozen d i) : Shows d id o v := by
  obtain ⟨chain, is, hs, hr, hv⟩ := h
  rw [Disk.resolve_put] at hr
  have hmem : i ∉ is := fun hmem => hi (Or.inr ⟨id, chain, is, hs, hr, hmem⟩)
  exact ⟨chain, is, hs, hr, (Disk.view_put_of_notMem hmem l).symm.trans hv⟩

/-- What a restore without an error does to the set. -/
theorem InStep.restore_ok (h : InStep layersRoot t) {id : String}
    (hid : ∃ o ∈ t.set.overlays, (o.snapshots.find? id).isSome) :
    ∃ s, t.set.restore id none = (s, true) ∧ t.saved.find? id = some s.views ∧
      InStep layersRoot { t with set := s } := by
  obtain ⟨vs, hvs, hshows⟩ := h.saved id hid
  have hV : ∀ o ∈ t.set.overlays, Shows t.set.disk id o (shown t.set.disk id o) := by
    intro o ho
    obtain ⟨v, -, hv⟩ := exists_of_forall₂ hshows.flip o ho
    rw [Shows.shown_eq hv]
    exact hv
  have hnil : Apart layersRoot t.set.disk ([] ++ t.set.overlays) := h.apart
  obtain ⟨d', os', heach, hapart, hkept, hall⟩ := each_restore t.set.calls id hnil hV
  refine ⟨⟨d', os', t.set.calls + 1⟩, by simp [RootOverlaySet.restore, heach], ?_, hapart,
    fun x hx x' hx' => ?_, fun x hx x' hx' id' hid' => ?_, fun id' hid' => ?_⟩
  · rw [hvs, RootOverlaySet.views, Option.some.injEq]
    have hviews : List.Forall₂ Eq vs (os'.map fun o => d'.visible o.mount) := by
      rw [List.forall₂_map_right_iff]
      refine (forall₂_carry hall hshows fun a b v hret hv => ?_).flip
      exact hv.shown_eq.symm.trans hret.visible.symm
    exact List.forall₂_eq_eq_eq ▸ hviews
  · obtain ⟨y, hy, hret⟩ := exists_of_forall₂ hall x hx
    obtain ⟨y', hy', hret'⟩ := exists_of_forall₂ hall x' hx'
    rw [hret.points, hret'.points, h.points y hy y' hy']
  · obtain ⟨y, hy, hret⟩ := exists_of_forall₂ hall x hx
    obtain ⟨y', hy', hret'⟩ := exists_of_forall₂ hall x' hx'
    rw [hret.snapshots] at hid'
    rw [hret'.snapshots, h.keys y hy y' hy' id' hid']
  · obtain ⟨x, hx, hid'⟩ := hid'
    obtain ⟨y, hy, hret⟩ := exists_of_forall₂ hall x hx
    obtain ⟨ws, hws, hshows'⟩ := h.saved id' ⟨y, hy, hret.snapshots ▸ hid'⟩
    refine ⟨ws, hws, forall₂_carry hall hshows' fun a b v hret hv => ?_⟩
    obtain ⟨chain, is, hs, hr, hv⟩ := hv.kept hkept
    exact ⟨chain, is, hret.snapshots ▸ hs, hr, hv⟩

omit [DecidableEq P] in
/-- A restore of an id nobody has only counts the call. -/
theorem restore_unknown {id : String} (fault : Option ℕ) (hos : t.set.overlays = o :: os)
    (hid : o.snapshots.find? id = none) :
    (t.set.restore id fault).1 = { t.set with calls := t.set.calls + 1 } := by
  have heach : each (RootOverlay.restore t.set.calls id) fault t.set.disk [] (o :: os) =
      (t.set.disk, o :: os, false) := by
    rw [each, RootOverlay.restore, hid]
    rfl
  simp [RootOverlaySet.restore, hos, heach]

/-! ### Steps -/

/-- The switch that raises, if there is one. -/
def RootOverlaySet.Action.fault : RootOverlaySet.Action P C → Option ℕ
  | .write .. | .remove .. => none
  | .checkpoint _ fault | .restore _ fault => fault

/-- A switch that raises is the first one of its call. -/
def FirstOnly (t : RootOverlaySet.Traced P C) (a : RootOverlaySet.Action P C) : Prop :=
  ∀ i, a.fault = some i → i = 0 ∨ t.set.overlays.length ≤ i

omit [DecidableEq P] in
/-- A fault is none, beyond the last overlay, or at the first one. -/
theorem FirstOnly.cases {a : RootOverlaySet.Action P C} (h : FirstOnly t a) :
    (∀ f : Disk P C → RootOverlay → Bool → Disk P C × RootOverlay × Bool,
      each f a.fault t.set.disk [] t.set.overlays = each f none t.set.disk [] t.set.overlays) ∨
    a.fault = some 0 ∧ ∃ o os, t.set.overlays = o :: os := by
  rcases hf : a.fault with _ | i
  · exact Or.inl fun _ => rfl
  · by_cases hlt : t.set.overlays.length ≤ i
    · exact Or.inl fun f => each_of_le (by simpa using hlt)
    · have hzero : i = 0 := (h i hf).resolve_right hlt
      subst hzero
      exact Or.inr ⟨rfl, List.exists_cons_of_length_pos (by omega)⟩

theorem InStep.checkpoint (h : InStep layersRoot t) {id : String} {fault : Option ℕ}
    (hf : FirstOnly t (.checkpoint id fault))
    (hs : RootOverlaySet.step t (.checkpoint id fault) = some t') : InStep layersRoot t' := by
  rcases hf.cases with heq | ⟨hfault, o, os, hos⟩
  · obtain ⟨s, hcall, hinv⟩ := h.checkpoint_ok id
    have hcall' : t.set.checkpoint id fault = (s, true) := by
      rw [← hcall, RootOverlaySet.checkpoint, RootOverlaySet.checkpoint, ← heq]
      rfl
    rw [RootOverlaySet.step, hcall'] at hs
    exact Option.some.inj hs ▸ hinv
  · obtain rfl : fault = some 0 := hfault
    have ho : o ∈ t.set.overlays := hos ▸ List.mem_cons_self
    have hcall : t.set.checkpoint id (some 0) =
        (⟨(o.fresh t.set.disk).1, o.skipped :: os, t.set.calls + 1⟩, false) := by
      rw [RootOverlaySet.checkpoint, hos, each,
        checkpoint_eq (h.apart.good o ho)]
      rfl
    rw [RootOverlaySet.step, hcall] at hs
    exact Option.some.inj hs ▸ h.skipped hos _

theorem InStep.restore (h : InStep layersRoot t) {id : String} {fault : Option ℕ}
    (hf : FirstOnly t (.restore id fault))
    (hs : RootOverlaySet.step t (.restore id fault) = some t') : InStep layersRoot t' := by
  obtain rfl := Option.some.inj hs
  rcases hos : t.set.overlays with _ | ⟨o, os⟩
  · have hcall : (t.set.restore id fault).1 = { t.set with calls := t.set.calls + 1 } := by
      simp [RootOverlaySet.restore, hos, each]
    rw [hcall]
    exact ⟨h.apart, h.points, h.keys, h.saved⟩
  · have ho : o ∈ t.set.overlays := hos ▸ List.mem_cons_self
    rcases hid : o.snapshots.find? id with _ | chain
    · rw [restore_unknown fault hos hid]
      exact ⟨h.apart, h.points, h.keys, h.saved⟩
    · rcases hf.cases with heq | ⟨hfault, -⟩
      · obtain ⟨s, hcall, -, hinv⟩ := h.restore_ok ⟨o, ho, by rw [hid]; rfl⟩
        have hcall' : t.set.restore id fault = (s, true) := by
          rw [← hcall, RootOverlaySet.restore, RootOverlaySet.restore, ← heq]
          rfl
        rw [hcall']
        exact hinv
      · obtain rfl : fault = some 0 := hfault
        obtain ⟨is, hr⟩ := (h.apart.good o ho).snapshots id chain hid
        have hcall : t.set.restore id (some 0) =
            (⟨(o.fresh t.set.disk).1, o.skipped :: os, t.set.calls + 1⟩, false) := by
          rw [RootOverlaySet.restore, hos, each,
            restore_eq (h.apart.good o ho) _ _ _ hid hr]
          rfl
        rw [hcall]
        exact h.skipped hos _

/-- **One step.** -/
theorem InStep.step {a : RootOverlaySet.Action P C} (h : InStep layersRoot t) (hf : FirstOnly t a)
    (hs : RootOverlaySet.step t a = some t') : InStep layersRoot t' := by
  cases a with
  | write i ds p c => exact Option.some.inj hs ▸ h.write i ds p c
  | remove i ds p => exact Option.some.inj hs ▸ h.remove i ds p
  | checkpoint id fault => exact h.checkpoint hf hs
  | restore id fault => exact h.restore hf hs

/-! ### Mounting -/

section

omit [DecidableEq P]

/-- A disk after one overlay has been mounted on it. -/
structure MountedOn (d d' : Disk P C) (o o' : RootOverlay) (i : ℕ) : Prop where
  root : o'.root = o.root
  snapshots : o'.snapshots = Dict.empty
  points : o'.points = []
  lowers : o'.mount.lowers = [i]
  upper_ge : d.next ≤ o'.mount.upper
  good : Good d' o'
  other : ∀ n, (∀ a, '/' ∉ a.toList → n ≠ join o.root a) → d'.names n = d.names n
  content : ∀ i < d.next, d'.content i = d.content i
  next_le : d.next ≤ d'.next

theorem join_ne_of_rooted (hroot : o.Rooted layersRoot) {a b : String} (ha : '/' ∉ a.toList)
    (hb : '/' ∉ b.toList) (hne : a ≠ b) : join o.root a ≠ join o.root b :=
  fun heq => hne (hroot.inj hroot ha hb heq).2

/-- A numbered name is not one that starts with another letter. -/
theorem numbered_ne_of_head {letter name : String} {k : ℕ}
    (h : letter.toList.head? ≠ name.toList.head? ∧ letter.toList ≠ []) :
    letter ++ Nat.repr k ≠ name := by
  intro heq
  have hlist := congrArg (fun s : String => s.toList.head?) heq
  rw [String.toList_append, List.head?_append_of_ne_nil _ h.2] at hlist
  exact h.1 hlist

/-- **Mounting one overlay.** -/
theorem mountOn_spec {i : ℕ} (hroot : o.Rooted layersRoot) (hn : o.n = 0)
    (hs : o.snapshots = Dict.empty) (hp : o.points = [])
    (hunused : ∀ a, '/' ∉ a.toList → d.names (join o.root a) = none)
    (htarget : d.names o.target = some i) :
    ∃ d' o', o.mountOn d = some (d', o') ∧ MountedOn d d' o o' i := by
  have hslash : ∀ {letter : String}, '/' ∉ letter.toList → ∀ k,
      '/' ∉ (letter ++ Nat.repr k).toList := slash_notMem_numbered
  have hstashUpper : ∀ k, o.upperPath k ≠ o.stash := fun k =>
    join_ne_of_rooted hroot (hslash (by decide) k) (by decide) (numbered_ne_of_head (by decide))
  have hstashWork : ∀ k, o.workPath k ≠ o.stash := fun k =>
    join_ne_of_rooted hroot (hslash (by decide) k) (by decide) (numbered_ne_of_head (by decide))
  have hmergedUpper : ∀ k, o.upperPath k ≠ o.merged := fun k =>
    join_ne_of_rooted hroot (hslash (by decide) k) (by decide) (numbered_ne_of_head (by decide))
  have hmergedWork : ∀ k, o.workPath k ≠ o.merged := fun k =>
    join_ne_of_rooted hroot (hslash (by decide) k) (by decide) (numbered_ne_of_head (by decide))
  -- the four new directories, in the order they are made
  let dMerged := (d.mkdirs o.stash).mkdirs o.merged
  let dWork := (dMerged.mkdirs (o.upperPath 1)).mkdirs (o.workPath 1)
  have hmerged : ∀ n, n ≠ o.stash → n ≠ o.merged → dMerged.names n = d.names n :=
    fun n hs hm => (Disk.names_mkdirs_of_ne hm).trans (Disk.names_mkdirs_of_ne hs)
  have hkept : Kept d dMerged := (kept_mkdirs d _).trans (kept_mkdirs _ _)
  have hgrown : Grown dMerged dWork (o.upperPath 1) (o.workPath 1) := by
    refine grown_mkdirs ?_ ?_ upperPath_ne_workPath
    · exact (hmerged _ (hstashUpper 1) (hmergedUpper 1)).trans (hunused _ (hslash (by decide) 1))
    · exact (hmerged _ (hstashWork 1) (hmergedWork 1)).trans (hunused _ (hslash (by decide) 1))
  have hkept' : Kept d dWork := hkept.trans ((kept_mkdirs _ _).trans (kept_mkdirs _ _))
  have hi : dWork.names o.target = some i := hkept'.names _ _ htarget
  let dBound := dWork.bindMount o.target o.stash
  have hbound : ∀ n, n ≠ o.stash → dBound.names n = dWork.names n := fun n hne =>
    Function.update_of_ne hne ..
  have hstash : dBound.names o.stash = some i := (Function.update_self ..).trans hi
  have hu : dBound.names (o.upperPath 1) = some dMerged.next :=
    (hbound _ (hstashUpper 1)).trans hgrown.upper
  have hresolve : dBound.resolve [o.stash] = some [i] :=
    Disk.resolve_cons.mpr ⟨i, [], hstash, rfl, rfl⟩
  have hfree : ∀ n, n ≠ o.stash → n ≠ o.merged → n ≠ o.upperPath 1 → n ≠ o.workPath 1 →
      dBound.names n = d.names n := fun n hs hm hu hw =>
    (hbound n hs).trans ((hgrown.other n hu hw).trans (hmerged n hs hm))
  refine ⟨dBound, { o with
    n := 1
    lowerChain := [o.stash]
    upper := o.upperPath 1
    work := o.workPath 1
    mount := ⟨dMerged.next, [i]⟩ }, ?_, rfl, hs, hp, rfl, hkept.next_le, ?_, fun n hne => ?_,
    hkept'.content, hkept'.next_le⟩
  · have hfresh : o.fresh ((d.mkdirs o.stash).mkdirs o.merged) = (dWork, { o with n := 1 }) := by
      rw [RootOverlay.fresh, hn]
    rw [mountOn, hfresh]
    dsimp only
    rw [hi]
    dsimp only
    have hu' : dBound.names (upperPath { o with n := 1 } 1) = some dMerged.next := hu
    have hresolve' : dBound.resolve [stash { o with n := 1 }] = some [i] := hresolve
    split
    · rename_i is u his hup
      obtain rfl : is = [i] := Option.some.inj (his.symm.trans hresolve')
      obtain rfl : u = dMerged.next := Option.some.inj (hup.symm.trans hu')
      rfl
    · rename_i hnone
      exact absurd hu' (hnone _ _ hresolve')
  · refine ⟨hu, hresolve, fun id chain hfind => ?_, fun k hk => ⟨?_, ?_⟩, ⟨1, rfl⟩, ⟨1, rfl⟩⟩
    · have hnone : (Dict.empty : Dict String (List String)).find? id = some chain := hs ▸ hfind
      cases hnone
    · have hne : o.upperPath k ≠ o.upperPath 1 := fun heq =>
        Nat.ne_of_gt hk (upperPath_inj heq)
      exact (hfree _ (hstashUpper k) (hmergedUpper k) hne upperPath_ne_workPath).trans
        (hunused _ (hslash (by decide) k))
    · have hne : o.workPath k ≠ o.workPath 1 := fun heq =>
        Nat.ne_of_gt hk (workPath_inj heq)
      exact (hfree _ (hstashWork k) (hmergedWork k) upperPath_ne_workPath.symm hne).trans
        (hunused _ (hslash (by decide) k))
  · exact hfree n (hne _ (by decide)) (hne _ (by decide)) (hne _ (hslash (by decide) 1))
      (hne _ (hslash (by decide) 1))

/-- The mounted overlays `done`, the overlays `os` that are still to be mounted, and the directories
`d₀` there were before. -/
structure Staged (layersRoot : String) (d₀ d : Disk P C) (done os : List RootOverlay) : Prop where
  next_le : d₀.next ≤ d.next
  rooted : ∀ o ∈ done ++ os, o.Rooted layersRoot
  roots : ((done ++ os).map RootOverlay.root).Nodup
  good : ∀ o ∈ done, Good d o
  uppers : (done.map fun o => o.mount.upper).Nodup
  upper_ge : ∀ o ∈ done, d₀.next ≤ o.mount.upper
  lowers_lt : ∀ o ∈ done, ∀ i ∈ o.mount.lowers, i < d₀.next
  fresh : ∀ o ∈ done ++ os, o.snapshots = Dict.empty ∧ o.points = []
  unused : ∀ o ∈ os, o.n = 0 ∧ ∀ a, '/' ∉ a.toList → d.names (join o.root a) = none
  target : ∀ o ∈ os, ∃ i < d₀.next, d.names o.target = some i

/-- **One overlay is mounted.** -/
theorem Staged.mount {d₀ : Disk P C} (h : Staged layersRoot d₀ d done (o :: os)) :
    ∃ d' o', o.mountOn d = some (d', o') ∧ Staged layersRoot d₀ d' (done ++ [o']) os := by
  have ho : o ∈ done ++ o :: os := List.mem_append_right _ List.mem_cons_self
  obtain ⟨hn, hfree⟩ := h.unused o List.mem_cons_self
  obtain ⟨hs, hp⟩ := h.fresh o ho
  obtain ⟨i, hi, htarget⟩ := h.target o List.mem_cons_self
  obtain ⟨d', o', hmount, hm⟩ := mountOn_spec (h.rooted o ho) hn hs hp hfree htarget
  have hroots := h.roots
  rw [List.map_append, List.map_cons, List.nodup_middle, List.nodup_cons, ← List.map_append]
    at hroots
  have hroot : ∀ x ∈ done ++ os, x.root ≠ o.root := fun x hx heq =>
    hroots.1 (heq ▸ List.mem_map_of_mem hx)
  have hrest : ∀ x ∈ done ++ os, x ∈ done ++ o :: os := fun x hx => by
    simp only [List.mem_append, List.mem_cons] at hx ⊢
    tauto
  have hmem : ∀ x, x ∈ (done ++ [o']) ++ os → x = o' ∨ x ∈ done ++ os := fun x hx => by
    simp only [List.mem_append, List.mem_singleton] at hx ⊢
    tauto
  have hdone : ∀ x, x ∈ done ++ [o'] → x = o' ∨ x ∈ done := fun x hx => by
    simp only [List.mem_append, List.mem_singleton] at hx
    tauto
  -- a name that is in use is not one of the new ones
  have hkept : ∀ n j, d.names n = some j → d'.names n = some j := by
    intro n j hj
    rw [hm.other n fun a ha heq => ?_, hj]
    rw [heq, hfree a ha] at hj
    cases hj
  -- neither is a path of another overlay
  have hother : ∀ x ∈ done ++ os, ∀ a, '/' ∉ a.toList →
      d'.names (join x.root a) = d.names (join x.root a) := fun x hx a ha =>
    hm.other _ fun a' ha' =>
      (h.rooted x (hrest x hx)).apart (h.rooted o ho) (hroot x hx) ha ha'
  refine ⟨d', o', hmount, Nat.le_trans h.next_le hm.next_le, fun x hx => ?_, ?_, fun x hx => ?_, ?_,
    fun x hx => ?_, fun x hx => ?_, fun x hx => ?_, fun x hx => ⟨?_, fun a ha => ?_⟩,
    fun x hx => ?_⟩
  · rcases hmem x hx with rfl | hx
    · obtain ⟨t, ht, hrest⟩ := h.rooted o ho
      exact ⟨t, hm.root.trans ht, hrest⟩
    · exact h.rooted x (hrest x hx)
  · rw [List.append_assoc, List.singleton_append, List.map_append, List.map_cons,
      List.nodup_middle, List.nodup_cons, ← List.map_append, hm.root]
    exact hroots
  · rcases hdone x hx with rfl | hx
    · exact hm.good
    · have hx' : x ∈ done ++ os := List.mem_append_left _ hx
      have hgood := h.good x hx
      refine ⟨hkept _ _ hgood.upper, Disk.resolve_mono (fun n _ => hkept n) hgood.lowers,
        fun id chain hfind => (hgood.snapshots id chain hfind).imp fun _ hr =>
          Disk.resolve_mono (fun n _ => hkept n) hr, fun k hk => ?_, hgood.numbered, hgood.worked⟩
      exact ⟨(hother x hx' _ (slash_notMem_numbered (by decide) k)).trans (hgood.unused k hk).1,
        (hother x hx' _ (slash_notMem_numbered (by decide) k)).trans (hgood.unused k hk).2⟩
  · rw [List.map_append, List.nodup_append]
    refine ⟨h.uppers, by simp, fun u hu v hv => ?_⟩
    obtain ⟨x, hx, rfl⟩ := List.mem_map.mp hu
    obtain rfl : v = o'.mount.upper := by simpa using hv
    exact Nat.ne_of_lt (Nat.lt_of_lt_of_le (h.good x hx).upper_lt hm.upper_ge)
  · rcases hdone x hx with rfl | hx
    · exact Nat.le_trans h.next_le hm.upper_ge
    · exact h.upper_ge x hx
  · rcases hdone x hx with rfl | hx
    · rw [hm.lowers]
      simpa using hi
    · exact h.lowers_lt x hx
  · rcases hmem x hx with rfl | hx
    · exact ⟨hm.snapshots, hm.points⟩
    · exact h.fresh x (hrest x hx)
  · exact (h.unused x (List.mem_cons_of_mem _ hx)).1
  · rw [hother x (List.mem_append_right _ hx) a ha]
    exact (h.unused x (List.mem_cons_of_mem _ hx)).2 a ha
  · obtain ⟨j, hj, hname⟩ := h.target x (List.mem_cons_of_mem _ hx)
    exact ⟨j, hj, hkept _ _ hname⟩

theorem Staged.mountEach {d₀ : Disk P C} (h : Staged layersRoot d₀ d done os) :
    ∃ d' os', RootOverlaySet.mountEach d os = some (d', os') ∧
      Staged layersRoot d₀ d' (done ++ os') [] := by
  induction os generalizing d done with
  | nil => exact ⟨d, [], rfl, by simpa using h⟩
  | cons o os ih =>
    obtain ⟨d', o', hmount, hstaged⟩ := h.mount
    obtain ⟨d'', os', hrest, hlast⟩ := ih hstaged
    refine ⟨d'', o' :: os', ?_, by simpa using hlast⟩
    rw [RootOverlaySet.mountEach, hmount, Option.bind_some, hrest]
    rfl

/-- When everything is mounted, nobody reads what another one writes. -/
theorem Staged.apart {d₀ : Disk P C} (h : Staged layersRoot d₀ d os []) :
    Apart layersRoot d os where
  good := h.good
  rooted o ho := h.rooted o (by simpa using ho)
  roots := by simpa using h.roots
  uppers := h.uppers
  frozen o ho o' ho' hf := by
    rcases hf with hf | ⟨id, chain, -, hs, -⟩
    · exact Nat.lt_irrefl _
        (Nat.lt_of_lt_of_le (h.lowers_lt o' ho' _ hf) (h.upper_ge o ho))
    · rw [(h.fresh o' (by simpa using ho')).1] at hs
      cases hs

end

/-- A path is another one, or below it. -/
def below (path dir : String) : Bool :=
  path = dir || (join dir "").toList.isPrefixOf path.toList

/-- The covered directories have nothing to do with each other, and neither do their tags. -/
structure Separate (d : Disk P C) (layersRoot : String) (targets : Option (List String)) :
    Prop where
  /-- Different targets have different tags. -/
  tags : ((accepted d targets).map tag).Nodup
  /-- They are different directories, and none is inside another one. -/
  beside : (accepted d targets).Pairwise fun t t' =>
    d.names t ≠ d.names t' ∧ ¬ below t t' ∧ ¬ below t' t
  /-- The directories of the overlays are outside. -/
  outside : ∀ t ∈ accepted d targets, ¬ below layersRoot t
  /-- And they are new. -/
  unused : ∀ t ∈ accepted d targets, ∀ a, '/' ∉ a.toList →
    d.names (join (join layersRoot (tag t)) a) = none

/-- **Mounting all.** -/
theorem mountAll_spec {targets : Option (List String)} (h : Separate d layersRoot targets) :
    ∃ s, mountAll d layersRoot targets = some s ∧ s.calls = 0 ∧
      InStep layersRoot ⟨s, Dict.empty⟩ := by
  have hstaged : Staged layersRoot d d []
      ((accepted d targets).map (RootOverlay.new layersRoot)) := by
    refine ⟨Nat.le_refl _, ?_, ?_, fun o ho => (List.not_mem_nil ho).elim, List.nodup_nil,
      fun o ho => (List.not_mem_nil ho).elim, fun o ho => (List.not_mem_nil ho).elim, ?_, ?_, ?_⟩
    · intro o ho
      obtain ⟨t, -, rfl⟩ := List.mem_map.mp ho
      exact ⟨tag t, rfl, tag_ne_empty t, slash_notMem_tag t⟩
    · have hroots : ((accepted d targets).map (RootOverlay.new layersRoot)).map RootOverlay.root =
          ((accepted d targets).map tag).map (join layersRoot) := by
        rw [List.map_map, List.map_map]
        rfl
      rw [List.nil_append, hroots]
      exact h.tags.map fun _ _ heq => join_left_cancel heq
    · intro o ho
      obtain ⟨t, -, rfl⟩ := List.mem_map.mp ho
      exact ⟨rfl, rfl⟩
    · intro o ho
      obtain ⟨t, ht, rfl⟩ := List.mem_map.mp ho
      exact ⟨rfl, h.unused t ht⟩
    · intro o ho
      obtain ⟨t, ht, rfl⟩ := List.mem_map.mp ho
      have hdir := (List.mem_filter.mp ht).2
      rw [Bool.and_eq_true, Option.isSome_iff_exists] at hdir
      obtain ⟨-, i, hi⟩ := hdir
      exact ⟨i, d.named_lt _ _ hi, hi⟩
  obtain ⟨d', os, hmount, hlast⟩ := hstaged.mountEach
  have hnone : ∀ o ∈ os, o.snapshots = Dict.empty ∧ o.points = [] := fun o ho =>
    hlast.fresh o (by simpa using ho)
  refine ⟨⟨d', os, 0⟩, by rw [mountAll, hmount]; rfl, rfl, hlast.apart, fun o ho o' ho' => ?_,
    fun o ho o' ho' id _ => ?_, fun id hid => ?_⟩
  · rw [(hnone o ho).2, (hnone o' ho').2]
  · rw [(hnone o' ho').1]
    rfl
  · obtain ⟨o, ho, hid⟩ := hid
    rw [(hnone o ho).1] at hid
    cases hid

/-! ### Lock-step -/

/-- The directories of an overlay. -/
def RootOverlay.dirs (o : RootOverlay) : List String := [o.upper, o.work, o.stash, o.merged]

/-- What a set of root overlays is for. -/
structure LockStep (t : RootOverlaySet.Traced P C) : Prop where
  /-- All overlays are at the same point. -/
  points : ∀ o ∈ t.set.overlays, ∀ o' ∈ t.set.overlays, o.points = o'.points
  /-- A restore brings back what was there. -/
  restores : ∀ id, t.set.hasCheckpoint id = true →
    ∃ s, t.set.restore id none = (s, true) ∧ t.saved.find? id = some s.views
  /-- No directory is used twice. -/
  dirs : ∀ (i j : ℕ) (o o' : RootOverlay), i ≠ j → t.set.overlays[i]? = some o →
    t.set.overlays[j]? = some o' → ∀ a ∈ o.dirs, ∀ b ∈ o'.dirs, a ≠ b
  /-- A write below one target shows up below no other one. -/
  writes : ∀ i j ds p c, i ≠ j → (t.set.write i ds p c).views[j]? = t.set.views[j]?
  /-- Neither does a removal. -/
  removals : ∀ i j ds p, i ≠ j → (t.set.remove i ds p).views[j]? = t.set.views[j]?

omit [DecidableEq P] in
theorem Apart.dirs_ne {i j : ℕ} (h : Apart layersRoot d os) (hne : i ≠ j) (hi : os[i]? = some o)
    (hj : os[j]? = some o') : ∀ a ∈ o.dirs, ∀ b ∈ o'.dirs, a ≠ b := by
  have ho := List.mem_of_getElem? hi
  have ho' := List.mem_of_getElem? hj
  have hname : ∀ {o : RootOverlay}, Good d o → ∀ a ∈ o.dirs,
      ∃ name, '/' ∉ name.toList ∧ a = join o.root name := by
    intro o hgood a ha
    obtain ⟨k, hk⟩ := hgood.numbered
    obtain ⟨k', hk'⟩ := hgood.worked
    simp only [RootOverlay.dirs, List.mem_cons, List.not_mem_nil, or_false] at ha
    rcases ha with rfl | rfl | rfl | rfl
    · exact ⟨_, slash_notMem_numbered (by decide) k, hk⟩
    · exact ⟨_, slash_notMem_numbered (by decide) k', hk'⟩
    · exact ⟨_, by decide, rfl⟩
    · exact ⟨_, by decide, rfl⟩
  have hroot : o.root ≠ o'.root := by
    intro heq
    obtain ⟨hlt, -⟩ := List.getElem?_eq_some_iff.mp hi
    refine hne ((List.getElem?_inj (by simpa using hlt) h.roots).mp ?_)
    simp [hi, hj, heq]
  intro a ha b hb
  obtain ⟨name, hslash, rfl⟩ := hname (h.good o ho) a ha
  obtain ⟨name', hslash', rfl⟩ := hname (h.good o' ho') b hb
  exact (h.rooted o ho).apart (h.rooted o' ho') hroot hslash hslash'

theorem InStep.views_put {i j : ℕ} (h : InStep layersRoot t) (hne : i ≠ j)
    (hi : t.set.overlays[i]? = some o) (l : Layer P C) :
    (RootOverlaySet.views { t.set with disk := t.set.disk.put o.mount.upper l })[j]? =
      t.set.views[j]? := by
  rw [RootOverlaySet.views, RootOverlaySet.views, List.getElem?_map, List.getElem?_map]
  rcases hj : t.set.overlays[j]? with _ | o'
  · rfl
  · exact congrArg some (h.apart.visible_put hne hi hj)

theorem InStep.lockStep (h : InStep layersRoot t) : LockStep t where
  points := h.points
  restores id hid := by
    rw [RootOverlaySet.hasCheckpoint, Bool.and_eq_true, List.all_eq_true] at hid
    obtain ⟨hne, hall⟩ := hid
    obtain ⟨o, ho⟩ := List.exists_mem_of_ne_nil t.set.overlays fun hnil => by
      rw [hnil] at hne
      cases hne
    have hkey := Dict.mem_keys_iff.mp (of_decide_eq_true (hall o ho))
    obtain ⟨s, hs, hviews, -⟩ := h.restore_ok ⟨o, ho, Option.isSome_iff_exists.mpr hkey⟩
    exact ⟨s, hs, hviews⟩
  dirs _ _ _ _ hne hi hj := h.apart.dirs_ne hne hi hj
  writes i j ds p c hne := by
    rw [RootOverlaySet.write]
    split
    · rfl
    · rename_i o ho
      exact h.views_put hne ho _
  removals i j ds p hne := by
    rw [RootOverlaySet.remove]
    split
    · rfl
    · rename_i o ho
      exact h.views_put hne ho _

/-- **Root overlays move in lock-step and stay isolated**, in every run in which a switch that raises
is the first one of its call. -/
theorem root_overlays_lockstep {targets : Option (List String)}
    (hsep : Separate d layersRoot targets) {s : RootOverlaySet P C}
    (hs : mountAll d layersRoot targets = some s) {as : List (RootOverlaySet.Action P C)}
    (halong : Machine.Along RootOverlaySet.step FirstOnly ⟨s, Dict.empty⟩ as)
    (hrun : Machine.exec RootOverlaySet.step ⟨s, Dict.empty⟩ as = some t) : LockStep t := by
  obtain ⟨s', hs', -, hinv⟩ := mountAll_spec hsep
  obtain rfl := Option.some.inj (hs.symm.trans hs')
  have hinv' : InStep layersRoot t :=
    Machine.invariant_along (fun hi hc hs => InStep.step hi hc hs) hinv halong hrun
  exact hinv'.lockStep

/-- A disk with two directories. -/
def twoDirs (a b : String) : Disk ℕ ℕ where
  names n := if n = a then some 0 else if n = b then some 1 else none
  content _ := Layer.empty
  next := 2
  named_lt n i h := by
    split_ifs at h
    · exact Option.some.inj h ▸ by decide
    · exact Option.some.inj h ▸ by decide

theorem accepted_twoDirs : accepted (twoDirs "/a" "/b") (some ["/a", "/b"]) = ["/a", "/b"] := by
  decide +kernel

theorem separate_twoDirs : Separate (twoDirs "/a" "/b") "/l" (some ["/a", "/b"]) where
  tags := by
    rw [accepted_twoDirs]
    decide
  beside := by
    rw [accepted_twoDirs]
    simp only [List.pairwise_cons, List.mem_singleton, forall_eq, List.not_mem_nil,
      IsEmpty.forall_iff, implies_true, List.Pairwise.nil, and_true]
    decide
  outside := by
    rw [accepted_twoDirs]
    intro t ht
    simp only [List.mem_cons, List.not_mem_nil, or_false] at ht
    rcases ht with rfl | rfl
    · decide
    · decide
  unused := by
    have hlong : ∀ name a : String, (twoDirs "/a" "/b").names ("/l/" ++ name ++ "/" ++ a) = none := by
      intro name a
      have hne : ∀ c : Char, c ≠ 'l' → "/l/" ++ name ++ "/" ++ a ≠ String.ofList ['/', c] := by
        intro c hc heq
        have hlist := congrArg (fun s : String => s.toList[1]?) heq
        simp [Ne.symm hc] at hlist
      rw [twoDirs]
      dsimp only
      rw [if_neg (hne 'a' (by decide)), if_neg (hne 'b' (by decide))]
    rw [accepted_twoDirs]
    intro t ht a ha
    simp only [List.mem_cons, List.not_mem_nil, or_false] at ht
    rcases ht with rfl | rfl
    · rw [join_of_last (c := 'a') (by decide) (by decide)]
      exact hlong "a" a
    · rw [join_of_last (c := 'b') (by decide) (by decide)]
      exact hlong "b" a

/-- Two files are written, between them a checkpoint is made, a first restore fails and a second one
succeeds. -/
def twoTargetRun : List (RootOverlaySet.Action ℕ ℕ) :=
  [.write 0 [] 7 1, .checkpoint "c" none, .write 1 [] 7 2, .restore "c" (some 0),
    .restore "c" none]

theorem twoTargetRun_runs (t : RootOverlaySet.Traced ℕ ℕ) :
    ∃ t', Machine.exec RootOverlaySet.step t twoTargetRun = some t' := by
  obtain ⟨u, hu⟩ : ∃ u, RootOverlaySet.step
      { t with set := t.set.write 0 [] 7 1 } (.checkpoint "c" none) = some u := by
    rw [RootOverlaySet.step]
    split
    · exact ⟨_, rfl⟩
    · exact ⟨_, rfl⟩
  exact ⟨_, Machine.exec_cons.mpr ⟨_, rfl, Machine.exec_cons.mpr ⟨u, hu, rfl⟩⟩⟩

theorem lockstep_twoTargetRun : ∃ s t,
    mountAll (twoDirs "/a" "/b") "/l" (some ["/a", "/b"]) = some s ∧
      Machine.exec RootOverlaySet.step ⟨s, Dict.empty⟩ twoTargetRun = some t ∧ LockStep t := by
  obtain ⟨s, hs, -, -⟩ := mountAll_spec separate_twoDirs
  obtain ⟨t, ht⟩ := twoTargetRun_runs ⟨s, Dict.empty⟩
  refine ⟨s, t, hs, ht, root_overlays_lockstep separate_twoDirs hs ?_ ht⟩
  simp [twoTargetRun, Machine.along_cons, FirstOnly, RootOverlaySet.Action.fault]

/-- The second switch of a checkpoint raises, and the first overlay stays where it has moved. Two
targets with one tag write to one directory. -/
theorem lockstep_lost :
    (∃ s t, mountAll (twoDirs "/a" "/b") "/l" (some ["/a", "/b"]) = some s ∧
      RootOverlaySet.step ⟨s, Dict.empty⟩ (.checkpoint "c" (some 1)) = some t ∧ ¬ LockStep t) ∧
    ∃ s, mountAll (twoDirs "/a/b" "/a_b") "/l" (some ["/a/b", "/a_b"]) = some s ∧
      ¬ LockStep ⟨s, Dict.empty⟩ := by
  constructor
  · have hsome : ((mountAll (twoDirs "/a" "/b") "/l" (some ["/a", "/b"])).map fun s =>
        (s.checkpoint "c" (some 1)).1.overlays.map RootOverlay.points) =
        some [[⟨0, .ckpt, "c"⟩], []] := by decide +kernel
    obtain ⟨s, hs, hpoints⟩ := Option.map_eq_some_iff.mp hsome
    obtain ⟨t, ht, hset⟩ : ∃ t, RootOverlaySet.step ⟨s, Dict.empty⟩
        (.checkpoint "c" (some 1)) = some t ∧ t.set = (s.checkpoint "c" (some 1)).1 := by
      rw [RootOverlaySet.step]
      split
      · rename_i heq
        exact ⟨_, rfl, by rw [heq]⟩
      · rename_i heq
        exact ⟨_, rfl, by rw [heq]⟩
    refine ⟨s, t, hs, ht, fun hlock => ?_⟩
    rw [← hset] at hpoints
    have hmem : ∀ ps ∈ [[⟨0, .ckpt, "c"⟩], ([] : List Point)],
        ∃ o ∈ t.set.overlays, o.points = ps := by
      intro ps hps
      rw [← hpoints] at hps
      exact List.mem_map.mp hps
    obtain ⟨o, ho, hp⟩ := hmem _ List.mem_cons_self
    obtain ⟨o', ho', hp'⟩ := hmem _ (List.mem_cons_of_mem _ List.mem_cons_self)
    have heq := hlock.points o ho o' ho'
    rw [hp, hp'] at heq
    cases heq
  · have hsome : ((mountAll (twoDirs "/a/b" "/a_b") "/l" (some ["/a/b", "/a_b"])).map fun s =>
        s.overlays.map RootOverlay.upper) = some ["/l/a_b/u1", "/l/a_b/u1"] := by decide +kernel
    obtain ⟨s, hs, huppers⟩ := Option.map_eq_some_iff.mp hsome
    refine ⟨s, hs, fun hlock => ?_⟩
    have hget : ∀ i < 2, ∃ o, s.overlays[i]? = some o ∧ o.upper = "/l/a_b/u1" := by
      intro i hi
      have hi' : (s.overlays.map RootOverlay.upper)[i]? = some "/l/a_b/u1" := by
        rw [huppers]
        interval_cases i
        · rfl
        · rfl
      rw [List.getElem?_map] at hi'
      exact Option.map_eq_some_iff.mp hi'
    obtain ⟨o, ho, hu⟩ := hget 0 (by decide)
    obtain ⟨o', ho', hu'⟩ := hget 1 (by decide)
    refine hlock.dirs 0 1 o o' (by decide) ho ho' o.upper ?_ o'.upper ?_ (hu.trans hu'.symm)
    · exact List.mem_cons_self
    · exact List.mem_cons_self

end Overlay

end DeltaBox
