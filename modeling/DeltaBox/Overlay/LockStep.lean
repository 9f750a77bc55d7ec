import DeltaBox.Overlay.RootOverlay
import DeltaBox.Lib.Machine
import Mathlib

/-!
# Root overlays, one call

What one checkpoint or restore of a set does to its overlays. An overlay gets two new directories and
moves to them; the others keep theirs, because their paths are below another tag, and nothing an
overlay reads is written any more.

## Main results

* `join_join_inj` — a path below a root determines the tag and the name
* `Apart.next` — an overlay that moves on stays apart from the others
* `each_checkpoint`, `each_restore` — the loops, when no switch raises
-/

namespace DeltaBox

namespace Overlay

/-! ### Paths -/

theorem tag_ne_empty (target : String) : tag target ≠ "" := by
  rw [tag]
  split_ifs with h
  · decide
  · intro heq
    have hlist := congrArg String.toList heq
    rw [String.toList_ofList] at hlist
    exact h (List.map_eq_nil_iff.mp hlist)

theorem slash_notMem_tag (target : String) : '/' ∉ (tag target).toList := by
  rw [tag]
  split_ifs with h
  · decide
  · rw [String.toList_ofList]
    intro hmem
    obtain ⟨c, -, hc⟩ := List.mem_map.mp hmem
    split_ifs at hc with hslash
    · exact absurd hc (by decide)
    · exact hslash hc

/-- A path below a directory whose name does not end in a slash. -/
theorem join_of_last {root name : String} {c : Char} (h : root.toList.getLast? = some c)
    (hc : c ≠ '/') : join root name = root ++ "/" ++ name := by
  rw [join, h]
  split
  · contradiction
  · rename_i heq
    exact absurd (Option.some.inj heq) hc
  · rfl

theorem getLast_join (root : String) {name : String} (hne : name ≠ "") (hslash : '/' ∉ name.toList) :
    ∃ c, (join root name).toList.getLast? = some c ∧ c ≠ '/' := by
  have hne' : name.toList ≠ [] := fun h => hne (String.ext h)
  refine ⟨name.toList.getLast hne', ?_, fun h => hslash (h ▸ List.getLast_mem hne')⟩
  rw [join]
  split
  · exact List.getLast?_eq_some_getLast hne'
  · rw [String.toList_append, List.getLast?_append_of_ne_nil _ hne']
    exact List.getLast?_eq_some_getLast hne'
  · rw [String.toList_append, List.getLast?_append_of_ne_nil _ hne']
    exact List.getLast?_eq_some_getLast hne'

/-- **A path below a root determines both.** -/
theorem join_join_inj {root t t' a a' : String} (ht : t ≠ "") (ht' : t' ≠ "")
    (hs : '/' ∉ t.toList) (hs' : '/' ∉ t'.toList) (ha : '/' ∉ a.toList) (ha' : '/' ∉ a'.toList)
    (h : join (join root t) a = join (join root t') a') : t = t' ∧ a = a' := by
  obtain ⟨c, hc, hne⟩ := getLast_join root ht hs
  obtain ⟨c', hc', hne'⟩ := getLast_join root ht' hs'
  rw [join_of_last hc hne, join_of_last hc' hne'] at h
  have hlist := congrArg String.toList h
  simp only [String.toList_append, List.append_assoc] at hlist
  obtain ⟨hroot, hname⟩ := split_last (c := '/') ha ha' hlist
  exact ⟨join_left_cancel (String.ext hroot), String.ext hname⟩

theorem slash_notMem_numbered {letter : String} (h : '/' ∉ letter.toList) (k : ℕ) :
    '/' ∉ (letter ++ Nat.repr k).toList := by
  rw [String.toList_append, List.mem_append]
  rintro (hmem | hmem)
  · exact h hmem
  · have hmem : '/' ∈ Nat.toDigits 10 k := by simpa using hmem
    have hdigit := Nat.isDigit_of_mem_toDigits (by decide) (by decide) hmem
    revert hdigit
    decide

namespace RootOverlay

/-- The directory of an overlay is a tag below the directory of the set. -/
def Rooted (layersRoot : String) (o : RootOverlay) : Prop :=
  ∃ t, o.root = join layersRoot t ∧ t ≠ "" ∧ '/' ∉ t.toList

variable {layersRoot : String} {o o' : RootOverlay} {j k : ℕ}

theorem Rooted.inj {a a' : String} (h : o.Rooted layersRoot) (h' : o'.Rooted layersRoot)
    (ha : '/' ∉ a.toList) (ha' : '/' ∉ a'.toList) (heq : join o.root a = join o'.root a') :
    o.root = o'.root ∧ a = a' := by
  obtain ⟨t, hroot, ht, hs⟩ := h
  obtain ⟨t', hroot', ht', hs'⟩ := h'
  rw [hroot, hroot'] at heq ⊢
  obtain ⟨rfl, rfl⟩ := join_join_inj ht ht' hs hs' ha ha' heq
  exact ⟨rfl, rfl⟩

theorem upperPath_inj (heq : o.upperPath j = o.upperPath k) : j = k := by
  have hlist := congrArg String.toList (join_left_cancel heq)
  simp only [String.toList_append, List.append_cancel_left_eq] at hlist
  exact Nat.repr_injective (String.ext hlist)

theorem workPath_inj (heq : o.workPath j = o.workPath k) : j = k := by
  have hlist := congrArg String.toList (join_left_cancel heq)
  simp only [String.toList_append, List.append_cancel_left_eq] at hlist
  exact Nat.repr_injective (String.ext hlist)

theorem upperPath_ne_workPath : o.upperPath j ≠ o.workPath k := by
  intro heq
  have hlist := congrArg String.toList (join_left_cancel heq)
  simp at hlist

end RootOverlay

/-! ### New directories -/

section

variable {P C : Type*} {d d' : Disk P C} {u w : String} {is : List ℕ} {ns : List String}

/-- Two new directories, the first of them under a number that was not in use. -/
structure Grown (d d' : Disk P C) (u w : String) : Prop where
  upper : d'.names u = some d.next
  work : ∃ j, d'.names w = some j
  other : ∀ n, n ≠ u → n ≠ w → d'.names n = d.names n
  kept : ∀ n i, d.names n = some i → d'.names n = some i
  content : ∀ i < d.next, d'.content i = d.content i
  empty : d'.content d.next = Layer.empty

theorem grown_mkdirs (hu : d.names u = none) (hw : d.names w = none) (hne : u ≠ w) :
    Grown d ((d.mkdirs u).mkdirs w) u w := by
  have hw' : (d.mkdirs u).names w = none := by rw [Disk.names_mkdirs_of_ne hne.symm, hw]
  have hlt : d.next < (d.mkdirs u).next := by
    rw [Disk.next_mkdirs_of_none hu]
    exact Nat.lt_succ_self _
  refine ⟨?_, ⟨(d.mkdirs u).next, ?_⟩, fun n hnu hnw => ?_, fun n i hn => ?_, fun i hi => ?_, ?_⟩
  · rw [Disk.names_mkdirs_of_ne hne, Disk.names_mkdirs_of_none hu, Function.update_self]
  · rw [Disk.names_mkdirs_of_none hw', Function.update_self]
  · rw [Disk.names_mkdirs_of_ne hnw, Disk.names_mkdirs_of_ne hnu]
  · have hnu : n ≠ u := fun h => by rw [h, hu] at hn; cases hn
    have hnw : n ≠ w := fun h => by rw [h, hw] at hn; cases hn
    rw [Disk.names_mkdirs_of_ne hnw, Disk.names_mkdirs_of_ne hnu, hn]
  · rw [Disk.content_mkdirs_of_lt (Nat.lt_trans hi hlt), Disk.content_mkdirs_of_lt hi]
  · rw [Disk.content_mkdirs_of_lt hlt, Disk.content_mkdirs_of_none hu, Function.update_self]

theorem Grown.resolve (h : Grown d d' u w) (hr : d.resolve ns = some is) :
    d'.resolve ns = some is :=
  Disk.resolve_mono (fun n _ i hn => h.kept n i hn) hr

variable [DecidableEq P]

theorem Grown.view (h : Grown d d' u w) (hlt : ∀ i ∈ is, i < d.next) : d'.view is = d.view is :=
  Disk.view_congr fun i hi => h.content i (hlt i hi)

/-- An empty directory on top shows what is below. -/
theorem Grown.view_cons (h : Grown d d' u w) (hlt : ∀ i ∈ is, i < d.next) :
    d'.view (d.next :: is) = d.view is := by
  rw [Disk.view_cons, h.empty, lookup_empty_cons]
  exact h.view hlt

end

/-! ### One overlay -/

namespace RootOverlay

section

variable {P C : Type*} {d d' : Disk P C} {o o' : RootOverlay} {layersRoot : String}

/-- The tables of an overlay agree with the directories. -/
structure Good (d : Disk P C) (o : RootOverlay) : Prop where
  /-- The upper is the mounted one. -/
  upper : d.names o.upper = some o.mount.upper
  /-- The chain is the mounted one. -/
  lowers : d.resolve o.lowerChain = some o.mount.lowers
  /-- Every snapshot resolves. -/
  snapshots : ∀ id chain, o.snapshots.find? id = some chain → ∃ is, d.resolve chain = some is
  /-- The numbers to come are not in use. -/
  unused : ∀ k, o.n < k → d.names (o.upperPath k) = none ∧ d.names (o.workPath k) = none
  /-- The upper has a number. -/
  numbered : ∃ k, o.upper = o.upperPath k
  /-- And so has the work directory. -/
  worked : ∃ k, o.work = o.workPath k

/-- The overlay reads the directory, or may have to. -/
def Frozen (d : Disk P C) (o : RootOverlay) (i : ℕ) : Prop :=
  i ∈ o.mount.lowers ∨
    ∃ id chain is, o.snapshots.find? id = some chain ∧ d.resolve chain = some is ∧ i ∈ is

theorem Good.frozen_lt (h : Good d o) {i : ℕ} (hi : o.Frozen d i) : i < d.next := by
  rcases hi with hi | ⟨id, chain, is, -, hr, hi⟩
  · exact Disk.resolve_lt h.lowers i hi
  · exact Disk.resolve_lt hr i hi

theorem Good.upper_lt (h : Good d o) : o.mount.upper < d.next := d.named_lt _ _ h.upper

/-- Where the next two directories go. -/
def nextUpper (o : RootOverlay) : String := o.upperPath (o.n + 1)

/-- The work directory of the two. -/
def nextWork (o : RootOverlay) : String := o.workPath (o.n + 1)

theorem Good.fresh (h : Good d o) :
    Grown d (o.fresh d).1 o.nextUpper o.nextWork := by
  obtain ⟨hu, hw⟩ := h.unused (o.n + 1) (Nat.lt_succ_self _)
  exact grown_mkdirs hu hw upperPath_ne_workPath

/-- An overlay that has only used up a number. -/
def skipped (o : RootOverlay) : RootOverlay := { o with n := o.n + 1 }

/-- An overlay after a checkpoint. -/
def checkpointed (call : ℕ) (id : String) (next : ℕ) (o : RootOverlay) : RootOverlay :=
  { o with
    n := o.n + 1
    lowerChain := o.upper :: o.lowerChain
    upper := o.nextUpper
    work := o.nextWork
    snapshots := o.snapshots.set id (o.upper :: o.lowerChain)
    mount := ⟨next, o.mount.upper :: o.mount.lowers⟩
    points := o.points ++ [⟨call, .ckpt, id⟩] }

/-- An overlay after a restore. -/
def restored (call : ℕ) (id : String) (next : ℕ) (chain : List String) (is : List ℕ)
    (o : RootOverlay) : RootOverlay :=
  { o with
    n := o.n + 1
    lowerChain := chain
    upper := o.nextUpper
    work := o.nextWork
    mount := ⟨next, is⟩
    points := o.points ++ [⟨call, .restore, id⟩] }

theorem checkpoint_eq (h : Good d o) (call : ℕ) (id : String) (ok : Bool) :
    checkpoint call id d o ok =
      ((o.fresh d).1, if ok then checkpointed call id d.next o else o.skipped, ok) := by
  have hgrown := h.fresh
  obtain ⟨j, hj⟩ := hgrown.work
  cases ok with
  | false => rfl
  | true =>
    have hswitch : switch (o.fresh d).1 (o.fresh d).2 (o.fresh d).2.lowerChain
        ((o.fresh d).2.upperPath (o.fresh d).2.n) ((o.fresh d).2.workPath (o.fresh d).2.n)
        .ckpt true = some ⟨d.next, o.mount.upper :: o.mount.lowers⟩ := by
      have hl : (o.fresh d).1.resolve (o.fresh d).2.lowerChain = some o.mount.lowers :=
        hgrown.resolve h.lowers
      have hu : (o.fresh d).1.names ((o.fresh d).2.upperPath (o.fresh d).2.n) = some d.next :=
        hgrown.upper
      have hw : (o.fresh d).1.names ((o.fresh d).2.workPath (o.fresh d).2.n) = some j := hj
      rw [switch, if_pos rfl, hl, hu, hw]
      rfl
    rw [checkpoint]
    dsimp only
    rw [hswitch]
    rfl

theorem restore_eq (h : Good d o) (call : ℕ) (id : String) (ok : Bool) {chain : List String} (hs : o.snapshots.find? id = some chain) {is : List ℕ}
    (hr : d.resolve chain = some is) : restore call id d o ok =
      ((o.fresh d).1, if ok then restored call id d.next chain is o else o.skipped, ok) := by
  have hgrown := h.fresh
  obtain ⟨j, hj⟩ := hgrown.work
  rw [restore, hs]
  dsimp only
  cases ok with
  | false => rfl
  | true =>
    have hswitch : switch (o.fresh d).1 (o.fresh d).2 chain
        ((o.fresh d).2.upperPath (o.fresh d).2.n) ((o.fresh d).2.workPath (o.fresh d).2.n)
        .restore true = some ⟨d.next, is⟩ := by
      have hl : (o.fresh d).1.resolve chain = some is := hgrown.resolve hr
      have hu : (o.fresh d).1.names ((o.fresh d).2.upperPath (o.fresh d).2.n) = some d.next :=
        hgrown.upper
      have hw : (o.fresh d).1.names ((o.fresh d).2.workPath (o.fresh d).2.n) = some j := hj
      rw [switch, if_pos rfl, hl, hu, hw]
      rfl
    rw [hswitch]
    rfl

/-! ### What an overlay is after a call -/

/-- What all three outcomes have in common. -/
structure Next (d d' : Disk P C) (o o' : RootOverlay) : Prop where
  root : o'.root = o.root
  good : Good d' o'
  upper : o'.mount.upper = o.mount.upper ∨ o'.mount.upper = d.next
  frozen : ∀ i, o'.Frozen d' i →
    o.Frozen d i ∨ i = o.mount.upper ∧ o'.mount.upper = d.next

theorem Good.frozen_of_grown {u w : String} (h : Good d o) (hg : Grown d d' u w) {i : ℕ}
    (hi : o.Frozen d' i) : o.Frozen d i := by
  rcases hi with hi | ⟨id, chain, is, hs, hr, hi⟩
  · exact Or.inl hi
  · obtain ⟨js, hjs⟩ := h.snapshots id chain hs
    obtain rfl := Option.some.inj ((hg.resolve hjs).symm.trans hr)
    exact Or.inr ⟨id, chain, js, hs, hjs, hi⟩

/-- The numbers to come stay unused. -/
theorem Good.unused_of_grown (h : Good d o)
    (hg : Grown d d' o.nextUpper o.nextWork) (k : ℕ) (hk : o.n + 1 < k) :
    d'.names (o.upperPath k) = none ∧ d'.names (o.workPath k) = none := by
  obtain ⟨hu, hw⟩ := h.unused k (by omega)
  have hne : ∀ {j}, o.upperPath j ≠ o.workPath k := upperPath_ne_workPath
  have hne' : ∀ {j}, o.workPath j ≠ o.upperPath k := upperPath_ne_workPath.symm
  have hku : o.upperPath k ≠ o.nextUpper := fun heq => by
    have := upperPath_inj heq
    omega
  have hkw : o.workPath k ≠ o.nextWork := fun heq => by
    have := workPath_inj heq
    omega
  exact ⟨(hg.other _ hku hne'.symm).trans hu, (hg.other _ hne.symm hkw).trans hw⟩

theorem Good.skipped (h : Good d o)
    (hg : Grown d d' o.nextUpper o.nextWork) : Next d d' o o.skipped where
  root := rfl
  good :=
    { upper := hg.kept _ _ h.upper
      lowers := hg.resolve h.lowers
      snapshots := fun id chain hs => (h.snapshots id chain hs).imp fun _ hr => hg.resolve hr
      unused := h.unused_of_grown hg
      numbered := h.numbered
      worked := h.worked }
  upper := Or.inl rfl
  frozen _ hi := Or.inl (h.frozen_of_grown hg hi)

theorem Good.checkpointed (h : Good d o)
    (hg : Grown d d' o.nextUpper o.nextWork) (call : ℕ) (id : String) :
    Next d d' o (checkpointed call id d.next o) := by
  have hchain : d'.resolve (o.upper :: o.lowerChain) = some (o.mount.upper :: o.mount.lowers) :=
    Disk.resolve_cons.mpr ⟨_, _, hg.kept _ _ h.upper, hg.resolve h.lowers, rfl⟩
  refine ⟨rfl, ⟨hg.upper, hchain, fun id' chain hs => ?_, h.unused_of_grown hg, ⟨_, rfl⟩,
    ⟨_, rfl⟩⟩, Or.inr rfl, fun i hi => ?_⟩
  · change (o.snapshots.set id (o.upper :: o.lowerChain)).find? id' = some chain at hs
    rw [Dict.find?_set] at hs
    split_ifs at hs
    · exact ⟨_, Option.some.inj hs ▸ hchain⟩
    · exact (h.snapshots id' chain hs).imp fun _ hr => hg.resolve hr
  · have hstack : i ∈ o.mount.upper :: o.mount.lowers →
        o.Frozen d i ∨ i = o.mount.upper ∧ d.next = d.next := by
      intro hmem
      rcases List.mem_cons.mp hmem with hmem | hmem
      · exact Or.inr ⟨hmem, rfl⟩
      · exact Or.inl (Or.inl hmem)
    rcases hi with hi | ⟨id', chain, is, hs, hr, hi⟩
    · exact hstack hi
    · change (o.snapshots.set id (o.upper :: o.lowerChain)).find? id' = some chain at hs
      rw [Dict.find?_set] at hs
      split_ifs at hs
      · obtain rfl := Option.some.inj hs
        obtain rfl := Option.some.inj (hchain.symm.trans hr)
        exact hstack hi
      · exact Or.inl (h.frozen_of_grown hg (Or.inr ⟨id', chain, is, hs, hr, hi⟩))

theorem Good.restored (h : Good d o)
    (hg : Grown d d' o.nextUpper o.nextWork) (call : ℕ) {id : String} {chain : List String}
    (hs : o.snapshots.find? id = some chain) {is : List ℕ} (hr : d.resolve chain = some is) :
    Next d d' o (restored call id d.next chain is o) := by
  refine ⟨rfl, ⟨hg.upper, hg.resolve hr, fun id' chain' hs' => ?_, h.unused_of_grown hg,
    ⟨_, rfl⟩, ⟨_, rfl⟩⟩, Or.inr rfl, fun i hi => ?_⟩
  · exact (h.snapshots id' chain' hs').imp fun _ hr => hg.resolve hr
  · rcases hi with hi | ⟨id', chain', is', hs', hr', hi⟩
    · exact Or.inl (Or.inr ⟨id, chain, is, hs, hr, hi⟩)
    · exact Or.inl (h.frozen_of_grown hg (Or.inr ⟨id', chain', is', hs', hr', hi⟩))

end

end RootOverlay

/-! ### All overlays -/

section

open RootOverlay

variable {P C : Type*} {d d' : Disk P C} {o o' : RootOverlay} {layersRoot : String}
  {os done : List RootOverlay}

/-- The overlays of a set keep out of each other's way. -/
structure Apart (layersRoot : String) (d : Disk P C) (os : List RootOverlay) : Prop where
  /-- Each agrees with its directories. -/
  good : ∀ o ∈ os, Good d o
  /-- Each has a directory of its own. -/
  rooted : ∀ o ∈ os, o.Rooted layersRoot
  /-- A different one. -/
  roots : (os.map RootOverlay.root).Nodup
  /-- They write to different directories. -/
  uppers : (os.map fun o => o.mount.upper).Nodup
  /-- Nobody reads what another one writes. -/
  frozen : ∀ o ∈ os, ∀ o' ∈ os, ¬ o'.Frozen d o.mount.upper

/-- Another overlay gets new directories. -/
theorem RootOverlay.Good.of_other {u w : String} (h : Good d o) (hg : Grown d d' u w)
    (hu : ∀ k, o.upperPath k ≠ u ∧ o.upperPath k ≠ w)
    (hw : ∀ k, o.workPath k ≠ u ∧ o.workPath k ≠ w) : Good d' o where
  upper := hg.kept _ _ h.upper
  lowers := hg.resolve h.lowers
  snapshots id chain hs := (h.snapshots id chain hs).imp fun _ hr => hg.resolve hr
  unused k hk := by
    obtain ⟨hnu, hnw⟩ := h.unused k hk
    exact ⟨(hg.other _ (hu k).1 (hu k).2).trans hnu, (hg.other _ (hw k).1 (hw k).2).trans hnw⟩
  numbered := h.numbered
  worked := h.worked

/-- Paths of overlays with different roots are different. -/
theorem RootOverlay.Rooted.apart {a a' : String} (h : o.Rooted layersRoot)
    (h' : o'.Rooted layersRoot) (hne : o.root ≠ o'.root) (ha : '/' ∉ a.toList)
    (ha' : '/' ∉ a'.toList) : join o.root a ≠ join o'.root a' :=
  fun heq => hne (h.inj h' ha ha' heq).1

/-- **One overlay moves on, and the others stay apart from it.** -/
theorem Apart.next (h : Apart layersRoot d (done ++ o :: os))
    (hg : Grown d d' o.nextUpper o.nextWork) (hn : Next d d' o o') :
    Apart layersRoot d' (done ++ o' :: os) := by
  have ho : o ∈ done ++ o :: os := List.mem_append_right _ List.mem_cons_self
  have hrest : ∀ x ∈ done ++ os, x ∈ done ++ o :: os := by
    intro x hx
    rcases List.mem_append.mp hx with hx | hx
    · exact List.mem_append_left _ hx
    · exact List.mem_append_right _ (List.mem_cons_of_mem _ hx)
  have hmem : ∀ x, x ∈ done ++ o' :: os ↔ x = o' ∨ x ∈ done ++ os := by
    intro x
    simp only [List.mem_append, List.mem_cons]
    tauto
  have hroots := h.roots
  rw [List.map_append, List.map_cons, List.nodup_middle, List.nodup_cons, ← List.map_append]
    at hroots
  have huppers := h.uppers
  rw [List.map_append, List.map_cons, List.nodup_middle, List.nodup_cons, ← List.map_append]
    at huppers
  have hroot : ∀ x ∈ done ++ os, x.root ≠ o.root := fun x hx heq =>
    hroots.1 (heq ▸ List.mem_map_of_mem hx)
  have hupper : ∀ x ∈ done ++ os, x.mount.upper ≠ o.mount.upper := fun x hx heq =>
    huppers.1 (heq ▸ List.mem_map_of_mem (f := fun o => o.mount.upper) hx)
  have hgood : ∀ x ∈ done ++ os, Good d' x := by
    intro x hx
    have hr := h.rooted x (hrest x hx)
    have hslash : ∀ k, '/' ∉ ("u" ++ Nat.repr k).toList := slash_notMem_numbered (by decide)
    have hslash' : ∀ k, '/' ∉ ("w" ++ Nat.repr k).toList := slash_notMem_numbered (by decide)
    refine (h.good x (hrest x hx)).of_other hg (fun k => ⟨?_, ?_⟩) fun k => ⟨?_, ?_⟩
    · exact hr.apart (h.rooted o ho) (hroot x hx) (hslash k) (hslash _)
    · exact hr.apart (h.rooted o ho) (hroot x hx) (hslash k) (hslash' _)
    · exact hr.apart (h.rooted o ho) (hroot x hx) (hslash' k) (hslash _)
    · exact hr.apart (h.rooted o ho) (hroot x hx) (hslash' k) (hslash' _)
  refine ⟨fun x hx => ?_, fun x hx => ?_, ?_, ?_, fun x hx y hy hf => ?_⟩
  · rcases (hmem x).mp hx with rfl | hx
    · exact hn.good
    · exact hgood x hx
  · rcases (hmem x).mp hx with rfl | hx
    · obtain ⟨t, ht, hrest⟩ := h.rooted o ho
      exact ⟨t, hn.root.trans ht, hrest⟩
    · exact h.rooted x (hrest x hx)
  · rw [List.map_append, List.map_cons, List.nodup_middle, List.nodup_cons, ← List.map_append,
      hn.root]
    exact hroots
  · rw [List.map_append, List.map_cons, List.nodup_middle, List.nodup_cons, ← List.map_append]
    refine ⟨fun hx => ?_, huppers.2⟩
    obtain ⟨x, hx, heq⟩ := List.mem_map.mp hx
    rcases hn.upper with hu | hu
    · exact hupper x hx (heq.trans hu)
    · have hlt := (h.good x (hrest x hx)).upper_lt
      rw [show x.mount.upper = d.next from heq.trans hu] at hlt
      exact Nat.lt_irrefl _ hlt
  · -- what `y` reads was there before, or is the old upper of `o`
    have hread : ∀ i, y.Frozen d' i → (∃ z ∈ done ++ o :: os, z.Frozen d i) ∨
        i = o.mount.upper ∧ o'.mount.upper = d.next := by
      intro i hi
      rcases (hmem y).mp hy with rfl | hy
      · exact (hn.frozen i hi).imp_left fun hold => ⟨o, ho, hold⟩
      · exact Or.inl ⟨y, hrest y hy, (h.good y (hrest y hy)).frozen_of_grown hg hi⟩
    rcases hread _ hf with ⟨z, hz, hold⟩ | ⟨heq, hnext⟩
    · rcases (hmem x).mp hx with rfl | hx
      · rcases hn.upper with hu | hu
        · exact h.frozen o ho z hz (hu ▸ hold)
        · have hlt := (h.good z hz).frozen_lt hold
          rw [hu] at hlt
          exact Nat.lt_irrefl _ hlt
      · exact h.frozen x (hrest x hx) z hz hold
    · rcases (hmem x).mp hx with rfl | hx
      · have hlt := (h.good o ho).upper_lt
        rw [← heq, hnext] at hlt
        exact Nat.lt_irrefl _ hlt
      · exact hupper x hx heq

/-! ### The loops -/

/-- Nothing that was there is renamed or changed. -/
structure Kept (d d' : Disk P C) : Prop where
  names : ∀ n i, d.names n = some i → d'.names n = some i
  content : ∀ i < d.next, d'.content i = d.content i
  next_le : d.next ≤ d'.next

theorem Kept.refl (d : Disk P C) : Kept d d := ⟨fun _ _ h => h, fun _ _ => rfl, Nat.le_refl _⟩

theorem Kept.trans {d'' : Disk P C} (h : Kept d d') (h' : Kept d' d'') : Kept d d'' where
  names n i hn := h'.names n i (h.names n i hn)
  content i hi := (h'.content i (Nat.lt_of_lt_of_le hi h.next_le)).trans (h.content i hi)
  next_le := Nat.le_trans h.next_le h'.next_le

theorem kept_mkdirs (d : Disk P C) (n : String) : Kept d (d.mkdirs n) where
  names m i hm := by
    by_cases hmn : m = n
    · subst hmn
      rw [Disk.mkdirs_of_some hm, hm]
    · rw [Disk.names_mkdirs_of_ne hmn, hm]
  content i hi := Disk.content_mkdirs_of_lt hi
  next_le := Disk.next_le_mkdirs d n

theorem kept_fresh (d : Disk P C) (o : RootOverlay) : Kept d (o.fresh d).1 :=
  (kept_mkdirs d _).trans (kept_mkdirs _ _)

theorem Kept.resolve {ns : List String} {is : List ℕ} (h : Kept d d')
    (hr : d.resolve ns = some is) : d'.resolve ns = some is :=
  Disk.resolve_mono (fun n _ i hn => h.names n i hn) hr

variable [DecidableEq P] {V : RootOverlay → View P C} {call : ℕ} {id : String}

theorem Kept.view_eq {ns : List String} {is : List ℕ} (h : Kept d d')
    (hr : d.resolve ns = some is) : d'.view is = d.view is :=
  Disk.view_congr fun i hi => h.content i (Disk.resolve_lt hr i hi)

/-- An overlay that is left alone shows the same files. -/
theorem Kept.visible (h : Kept d d') (hgood : Good d o) :
    d'.visible o.mount = d.visible o.mount := by
  refine Disk.view_congr fun i hi => h.content i ?_
  rcases List.mem_cons.mp hi with rfl | hi
  · exact hgood.upper_lt
  · exact Disk.resolve_lt hgood.lowers i hi

/-- An overlay and what it was before a checkpoint, which found `V`. -/
structure Taken (call : ℕ) (id : String) (V : RootOverlay → View P C) (d : Disk P C)
    (o o' : RootOverlay) : Prop where
  points : o'.points = o.points ++ [⟨call, .ckpt, id⟩]
  others : ∀ id', id' ≠ id → o'.snapshots.find? id' = o.snapshots.find? id'
  snapshot : ∃ chain is, o'.snapshots.find? id = some chain ∧ d.resolve chain = some is ∧
    d.view is = V o
  visible : d.visible o'.mount = V o

theorem Taken.kept (h : Taken call id V d o o') (hk : Kept d d') (hgood : Good d o') :
    Taken call id V d' o o' where
  points := h.points
  others := h.others
  snapshot := by
    obtain ⟨chain, is, hs, hr, hv⟩ := h.snapshot
    exact ⟨chain, is, hs, hk.resolve hr, (hk.view_eq hr).trans hv⟩
  visible := (hk.visible hgood).trans h.visible

/-- What a checkpoint of one overlay does, once the new directories are there. -/
theorem taken_checkpointed (h : Good d o) (hV : d.visible o.mount = V o) :
    Taken call id V (o.fresh d).1 o (checkpointed call id d.next o) := by
  have hgrown := h.fresh
  have hlowers := (h.checkpointed hgrown call id).good.lowers
  have hlt : ∀ i ∈ o.mount.upper :: o.mount.lowers, i < d.next := fun i hi => by
    rcases List.mem_cons.mp hi with rfl | hi
    · exact h.upper_lt
    · exact Disk.resolve_lt h.lowers i hi
  refine ⟨rfl, fun id' hne => Dict.find?_set_of_ne _ _ hne, ⟨_, _, Dict.find?_set_self ..,
    hlowers, ?_⟩, ?_⟩
  · exact (hgrown.view hlt).trans hV
  · exact (hgrown.view_cons hlt).trans hV

/-- **A checkpoint that meets no error moves every overlay.** -/
theorem each_checkpoint (call : ℕ) (id : String) (h : Apart layersRoot d (done ++ os))
    (hV : ∀ o ∈ os, d.visible o.mount = V o) : ∃ d' os',
      RootOverlaySet.each (RootOverlay.checkpoint call id) none d done os =
        (d', done ++ os', true) ∧
      Apart layersRoot d' (done ++ os') ∧ Kept d d' ∧ List.Forall₂ (Taken call id V d') os os' := by
  induction os generalizing d done with
  | nil => exact ⟨d, [], by simp [RootOverlaySet.each], h, .refl d, .nil⟩
  | cons o os ih =>
    have ho : o ∈ done ++ o :: os := List.mem_append_right _ List.mem_cons_self
    have hgood := h.good o ho
    have hgrown := hgood.fresh
    have hkept := kept_fresh d o
    have happ : done ++ checkpointed call id d.next o :: os =
        (done ++ [checkpointed call id d.next o]) ++ os := by simp
    have hnext := h.next hgrown (hgood.checkpointed hgrown call id)
    rw [happ] at hnext
    have hV' : ∀ x ∈ os, (o.fresh d).1.visible x.mount = V x := fun x hx => by
      rw [hkept.visible (h.good x (by simp [hx])), hV x (List.mem_cons_of_mem _ hx)]
    obtain ⟨d', os', heach, hapart, hk, hall⟩ := ih hnext hV'
    refine ⟨d', checkpointed call id d.next o :: os', ?_, by simpa using hapart, hkept.trans hk,
      .cons ?_ hall⟩
    · have hok : RootOverlay.checkpoint call id d o ((none : Option ℕ) ≠ some done.length) =
          ((o.fresh d).1, checkpointed call id d.next o, true) := by
        rw [checkpoint_eq hgood]
        simp
      rw [RootOverlaySet.each, hok]
      simpa using heach
    · exact (taken_checkpointed hgood (hV o List.mem_cons_self)).kept hk (hnext.good _ (by simp))

/-- An overlay and what it was before a restore, which brings back `V`. -/
structure Returned (call : ℕ) (id : String) (V : RootOverlay → View P C) (d : Disk P C)
    (o o' : RootOverlay) : Prop where
  points : o'.points = o.points ++ [⟨call, .restore, id⟩]
  snapshots : o'.snapshots = o.snapshots
  visible : d.visible o'.mount = V o

/-- **A restore that meets no error moves every overlay.** -/
theorem each_restore (call : ℕ) (id : String) (h : Apart layersRoot d (done ++ os))
    (hV : ∀ o ∈ os, ∃ chain is, o.snapshots.find? id = some chain ∧ d.resolve chain = some is ∧
      d.view is = V o) : ∃ d' os',
      RootOverlaySet.each (RootOverlay.restore call id) none d done os = (d', done ++ os', true) ∧
      Apart layersRoot d' (done ++ os') ∧ Kept d d' ∧
      List.Forall₂ (Returned call id V d') os os' := by
  induction os generalizing d done with
  | nil => exact ⟨d, [], by simp [RootOverlaySet.each], h, .refl d, .nil⟩
  | cons o os ih =>
    have ho : o ∈ done ++ o :: os := List.mem_append_right _ List.mem_cons_self
    have hgood := h.good o ho
    have hgrown := hgood.fresh
    have hkept := kept_fresh d o
    obtain ⟨chain, is, hs, hr, hv⟩ := hV o List.mem_cons_self
    have happ : done ++ restored call id d.next chain is o :: os =
        (done ++ [restored call id d.next chain is o]) ++ os := by simp
    have hnext := h.next hgrown (hgood.restored hgrown call hs hr)
    rw [happ] at hnext
    have hV' : ∀ x ∈ os, ∃ chain is, x.snapshots.find? id = some chain ∧
        (o.fresh d).1.resolve chain = some is ∧ (o.fresh d).1.view is = V x := fun x hx => by
      obtain ⟨chain, is, hs, hr, hv⟩ := hV x (List.mem_cons_of_mem _ hx)
      exact ⟨chain, is, hs, hkept.resolve hr, (hkept.view_eq hr).trans hv⟩
    obtain ⟨d', os', heach, hapart, hk, hall⟩ := ih hnext hV'
    refine ⟨d', restored call id d.next chain is o :: os', ?_, by simpa using hapart,
      hkept.trans hk, .cons ?_ hall⟩
    · have hok : RootOverlay.restore call id d o ((none : Option ℕ) ≠ some done.length) =
          ((o.fresh d).1, restored call id d.next chain is o, true) := by
        rw [restore_eq hgood call id _ hs hr]
        simp
      rw [RootOverlaySet.each, hok]
      simpa using heach
    · have hgood' : Good (o.fresh d).1 (restored call id d.next chain is o) :=
        hnext.good _ (by simp)
      refine ⟨rfl, rfl, ?_⟩
      rw [hk.visible hgood']
      exact (hgrown.view_cons (Disk.resolve_lt hr)).trans hv

end

end Overlay

end DeltaBox
