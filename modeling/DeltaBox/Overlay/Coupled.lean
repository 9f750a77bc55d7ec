import DeltaBox.Overlay.RootSandbox
import DeltaBox.Overlay.Covered

/-!
# The whole-root sandbox, whole runs

What the object says about the overlay is true in every run: a call that raises has moved nothing, or
has moved and said so. Files and memory are another matter. A dump leaves the worker running, so a
write before the switch is in the snapshot and not in the image. Success is read from a log that may
be from an earlier use of the id. And a pidfile that cannot be read is passed over.

`Steady` excludes these, and then every call that returns has its files and its memory from one
moment.

## Main results

* `Sound` — what every step keeps, and `Sound.step`
* `Matched` — what a steady step keeps, and `Matched.step`
* `files_and_memory_coupled` — every call that ends, in every run
-/

namespace DeltaBox

namespace Overlay

open RootOverlay

variable {P C : Type*}

/-! ### What a call promises -/

/-- The fields of an overlay are the stack that is mounted. -/
structure Mirrors (d : Disk P C) (o : RootOverlay) : Prop where
  /-- `upper` is the directory that is written. -/
  upper : d.names o.upper = some o.mount.upper
  /-- `lower_chain` are the ones below. -/
  lowers : d.resolve o.lowerChain = some o.mount.lowers
  /-- Every snapshot can be mounted. -/
  snapshots : ∀ id chain, o.snapshots.find? id = some chain → ∃ is, d.resolve chain = some is

theorem RootOverlay.Good.mirrors {d : Disk P C} {o : RootOverlay} (h : Good d o) : Mirrors d o :=
  ⟨h.upper, h.lowers, h.snapshots⟩

/-- A call that raises leaves the fields as the mount is, and the snapshots as they were. -/
def Return.Mirrored : Return P C → Prop
  | .raised fd d o before =>
    (if fd then Mirrors d o else o.lowerChain = [] ∧ o.upper = "") ∧ o.snapshots = before
  | _ => True

/-- A call that returns has the files and the memory of one moment. -/
def Return.Coupled : Return P C → Prop
  | .checkpoint _ shows image => ∃ im, image = some im ∧ shows = some im.view
  | .restore _ call shows image workers workerPid =>
    ∃ im, image = some im ∧ shows = some im.view ∧
      ∃ w ∈ workers, w.restored = some (im, call) ∧ w.start = im.view ∧ workerPid = some w.pid
  | .raised .. => True

namespace RootSandbox

variable {s t : RootSandbox P C}

/-! ### What the fields say -/

/-- Before the overlay is mounted. -/
structure Unmounted (s : RootSandbox P C) : Prop where
  chain : s.overlay.lowerChain = []
  upper : s.overlay.upper = ""
  snapshots : s.overlay.snapshots = Dict.empty
  workerPid : s.workerPid = none
  /-- The layers to come are not there yet. -/
  unused : ∀ k, s.overlay.n < k → s.disk.names (s.overlay.upperPath k) = none ∧
    s.disk.names (s.overlay.workPath k) = none
  /-- The base image is none of them. -/
  base : ∀ k, s.baseImage ≠ s.overlay.upperPath k ∧ s.baseImage ≠ s.overlay.workPath k

/-- What holds in every run. -/
structure Sound (s : RootSandbox P C) : Prop where
  /-- The overlay agrees with its directories. -/
  good : s.fd = true → Good s.disk s.overlay
  /-- Nothing that is read later is written. -/
  apart : s.fd = true → ¬ s.overlay.Frozen s.disk s.overlay.mount.upper
  unmounted : s.fd = false → s.Unmounted
  /-- A call has not changed the snapshots while it runs. -/
  stage : s.stage ≠ .idle → s.fd = true ∧ s.before = s.overlay.snapshots
  returns : ∀ r ∈ s.returns, r.Mirrored

theorem Sound.of_mounted (hfd : s.fd = true) (hgood : Good s.disk s.overlay)
    (hapart : ¬ s.overlay.Frozen s.disk s.overlay.mount.upper)
    (hstage : s.stage ≠ .idle → s.before = s.overlay.snapshots)
    (hreturns : ∀ r ∈ s.returns, r.Mirrored) : s.Sound where
  good _ := hgood
  apart _ := hapart
  unmounted hno := absurd (hfd.symm.trans hno) (by decide)
  stage hne := ⟨hfd, hstage hne⟩
  returns := hreturns

/-- A new layer keeps away from what is read later. -/
theorem not_frozen_of_next {d d' : Disk P C} {o o' : RootOverlay} (h : Good d o)
    (hapart : ¬ o.Frozen d o.mount.upper) (hn : Next d d' o o') :
    ¬ o'.Frozen d' o'.mount.upper := by
  intro hf
  rcases hn.frozen _ hf with hold | ⟨heq, hnext⟩
  · rcases hn.upper with hu | hu
    · exact hapart (hu ▸ hold)
    · have hlt := h.frozen_lt hold
      omega
  · have hlt := h.upper_lt
    omega

theorem mem_returns {p : Return P C → Prop} {r r' : Return P C} (h : ∀ r ∈ s.returns, p r)
    (hr : p r) (hmem : r' ∈ s.returns ++ [r]) : p r' := by
  rcases List.mem_append.mp hmem with hmem | hmem
  · exact h r' hmem
  · rw [List.mem_singleton.mp hmem]
    exact hr

theorem Sound.raise (h : s.Sound) (hb : s.before = s.overlay.snapshots) : s.raise.Sound := by
  refine ⟨h.good, h.apart, fun hfd => ?_, fun hne => absurd rfl hne, fun r => ?_⟩
  · obtain ⟨hc, hu, hs, hw, hun, hba⟩ := h.unmounted hfd
    exact ⟨hc, hu, hs, hw, hun, hba⟩
  · refine mem_returns h.returns ⟨?_, hb.symm⟩
    cases hfd : s.fd with
    | true => exact (h.good hfd).mirrors
    | false => exact ⟨(h.unmounted hfd).chain, (h.unmounted hfd).upper⟩

theorem Sound.begun (h : s.Sound) : s.begun.Sound := by
  refine ⟨h.good, h.apart, fun hfd => ?_, fun hne => ⟨(h.stage hne).1, rfl⟩, h.returns⟩
  obtain ⟨hc, hu, hs, hw, hun, hba⟩ := h.unmounted hfd
  exact ⟨hc, hu, hs, hw, hun, hba⟩

/-- The overlay makes a step of its own. -/
theorem Sound.moved {d : Disk P C} {o : RootOverlay} (h : s.Sound) (hfd : s.fd = true)
    (hn : Next s.disk d s.overlay o) (hb : s.stage ≠ .idle → s.before = o.snapshots) :
    Sound { s with disk := d, overlay := o } :=
  .of_mounted hfd hn.good (not_frozen_of_next (h.good hfd) (h.apart hfd) hn) hb h.returns

theorem Sound.put (h : s.Sound) (hfd : s.fd = true) (l : Layer P C) : (s.put l).Sound :=
  .of_mounted hfd (h.good hfd).put (fun hf => h.apart hfd (frozen_put.mp hf))
    (fun hne => (h.stage hne).2) h.returns

/-! ### Mounting -/

/-- The layers to come are not one of the other directories. -/
theorem layer_ne {o : RootOverlay} {name : String} (hu : 'u' ≠ name.toList.headD 'u')
    (hw : 'w' ≠ name.toList.headD 'w') (k : ℕ) :
    o.upperPath k ≠ join o.root name ∧ o.workPath k ≠ join o.root name := by
  have hne : ∀ letter : String, letter.toList.head? ≠ name.toList.head? ∧ letter.toList ≠ [] →
      join o.root (letter ++ Nat.repr k) ≠ join o.root name := fun letter hletter heq =>
    numbered_ne_of_head hletter (join_left_cancel heq)
  constructor
  · refine hne "u" ⟨fun heq => hu ?_, by decide⟩
    rw [List.headD_eq_head?_getD, ← heq]
    rfl
  · refine hne "w" ⟨fun heq => hw ?_, by decide⟩
    rw [List.headD_eq_head?_getD, ← heq]
    rfl

theorem Sound.mount (h : s.Sound) (hidle : s.stage = .idle) (hfd : s.fd = false) (ok : Bool) :
    (s.mount ok).Sound := by
  obtain ⟨hchain, hupper, hsnap, hpid, hunused, hbase⟩ := h.unmounted hfd
  let o := s.overlay
  let dMerged := (s.disk.mkdirs o.merged).mkdirs s.imgRoot
  let dWork := (dMerged.mkdirs (o.upperPath (o.n + 1))).mkdirs (o.workPath (o.n + 1))
  have hmerged : ∀ k, o.upperPath k ≠ o.merged ∧ o.workPath k ≠ o.merged :=
    layer_ne (by decide) (by decide)
  have himg : ∀ k, o.upperPath k ≠ s.imgRoot ∧ o.workPath k ≠ s.imgRoot :=
    layer_ne (by decide) (by decide)
  have hfree : ∀ k, o.n < k → dMerged.names (o.upperPath k) = none ∧
      dMerged.names (o.workPath k) = none := by
    intro k hk
    constructor
    · rw [Disk.names_mkdirs_of_ne (himg k).1, Disk.names_mkdirs_of_ne (hmerged k).1]
      exact (hunused k hk).1
    · rw [Disk.names_mkdirs_of_ne (himg k).2, Disk.names_mkdirs_of_ne (hmerged k).2]
      exact (hunused k hk).2
  have hgrown : Grown dMerged dWork (o.upperPath (o.n + 1)) (o.workPath (o.n + 1)) :=
    grown_mkdirs (hfree _ (Nat.lt_succ_self _)).1 (hfree _ (Nat.lt_succ_self _)).2
      upperPath_ne_workPath
  have hlater : ∀ k, o.n + 1 < k → dWork.names (o.upperPath k) = none ∧
      dWork.names (o.workPath k) = none := by
    intro k hk
    have hu : o.upperPath k ≠ o.upperPath (o.n + 1) := fun heq => by
      have := upperPath_inj heq
      omega
    have hw : o.workPath k ≠ o.workPath (o.n + 1) := fun heq => by
      have := workPath_inj heq
      omega
    obtain ⟨hfu, hfw⟩ := hfree k (by omega)
    exact ⟨(hgrown.other _ hu upperPath_ne_workPath).trans hfu,
      (hgrown.other _ upperPath_ne_workPath.symm hw).trans hfw⟩
  have hfresh : s.overlay.fresh ((s.disk.mkdirs s.overlay.merged).mkdirs s.imgRoot) =
      (dWork, { o with n := o.n + 1 }) := rfl
  rw [RootSandbox.mount, hfresh]
  dsimp only
  split
  · rename_i is u his hu
    cases ok with
    | false => cases his
    | true =>
      obtain rfl : u = dMerged.next := Option.some.inj (hu.symm.trans hgrown.upper)
      obtain ⟨i, js, hi, hjs, rfl⟩ := Disk.resolve_cons.mp his
      obtain rfl : js = [] := (Option.some.inj hjs).symm
      have hi' : dMerged.names s.baseImage = some i :=
        (hgrown.other _ (hbase _).1 (hbase _).2).symm.trans hi
      refine .of_mounted rfl ⟨hu, his, fun id chain hfind => ?_, hlater, ⟨_, rfl⟩, ⟨_, rfl⟩⟩
        (fun hf => ?_) (fun hne => absurd hidle hne) h.returns
      · change s.overlay.snapshots.find? id = some chain at hfind
        rw [hsnap] at hfind
        cases hfind
      · rcases hf with hf | ⟨id, chain, is, hfind, -⟩
        · have hlt := dMerged.named_lt _ _ hi'
          have heq : dMerged.next = i := List.mem_singleton.mp hf
          omega
        · change s.overlay.snapshots.find? id = some chain at hfind
          rw [hsnap] at hfind
          cases hfind
  · have hno : ∀ {p : Prop}, s.fd = true → p := fun hyes => absurd (hfd.symm.trans hyes) (by decide)
    exact ⟨hno, hno, fun _ => ⟨hchain, hupper, hsnap, hpid, hlater, hbase⟩,
      fun hne => absurd hidle hne, h.returns⟩

variable [DecidableEq P]

/-! ### Calls -/

theorem Sound.launch (h : s.Sound) (hidle : s.stage = .idle) (hfd : s.fd = true)
    {started pidfile : Option ℕ} (hs : s.launch started pidfile = some t) : t.Sound := by
  have hmake : ∀ ws pid, Sound { s with workers := ws, workerPid := pid } := fun _ _ =>
    .of_mounted hfd (h.good hfd) (h.apart hfd) (fun hne => absurd hidle hne) h.returns
  rw [RootSandbox.launch] at hs
  split_ifs at hs with hused
  dsimp only at hs
  split at hs
  · obtain rfl := Option.some.inj hs
    exact hmake _ _
  · split_ifs at hs with hpid
    obtain rfl := Option.some.inj hs
    exact hmake _ _

/-- A dump changes the image and the log of its id. -/
theorem criuDump_eq {pid : ℕ} {id : String} {dump : Dump} (hs : s.criuDump pid id dump = some t) :
    t = { s with images := t.images, dumpLog := t.dumpLog } := by
  cases dump with
  | ok =>
    rw [criuDump] at hs
    split_ifs at hs with hpid
    exact Option.some.inj hs ▸ rfl
  | failed logged spoiled => exact Option.some.inj hs ▸ rfl

theorem Sound.checkpoint (h : s.Sound) {id : String} {dump : Dump}
    (hs : s.checkpoint id dump = some t) : t.Sound := by
  rw [RootSandbox.checkpoint] at hs
  split at hs
  · obtain rfl := Option.some.inj hs
    exact h.begun.raise rfl
  · rename_i pid hpid
    obtain ⟨u, hu, rfl⟩ := Option.map_eq_some_iff.mp hs
    have hfd : s.fd = true := by
      by_contra hno
      have hnone := (h.unmounted (by simpa using hno)).workerPid
      rw [hpid] at hnone
      cases hnone
    have hsound : ∀ images log stage,
        Sound { s.begun with images := images, dumpLog := log, stage := stage } := fun _ _ _ =>
      .of_mounted hfd (h.good hfd) (h.apart hfd) (fun _ => rfl) h.returns
    rw [criuDump_eq hu]
    split_ifs
    · exact hsound _ _ _
    · exact (hsound u.images u.dumpLog s.stage).raise rfl

theorem Sound.checkpointSwitch (h : s.Sound) {id : String} (hst : s.stage = .dumped id)
    (ok : Bool) : (s.checkpointSwitch id ok).Sound := by
  obtain ⟨hfd, hbefore⟩ := h.stage (by rw [hst]; simp)
  have hgood := h.good hfd
  have hgrown := hgood.fresh
  rw [RootSandbox.checkpointSwitch, checkpoint_eq hgood]
  cases ok with
  | true =>
    have hn := hgood.checkpointed hgrown s.calls id
    exact .of_mounted hfd hn.good (not_frozen_of_next hgood (h.apart hfd) hn)
      (fun hne => absurd rfl hne) fun _ => mem_returns h.returns trivial
  | false => exact (h.moved hfd (hgood.skipped hgrown) fun _ => hbefore).raise hbefore

omit [DecidableEq P] in
theorem Sound.restore (h : s.Sound) (id : String) : (s.restore id).Sound := by
  rw [RootSandbox.restore]
  split
  · exact h.begun.raise rfl
  · rename_i chain hfind
    have hfd : s.fd = true := by
      by_contra hno
      rw [(h.unmounted (by simpa using hno)).snapshots] at hfind
      cases hfind
    exact .of_mounted hfd (h.good hfd) (h.apart hfd) (fun _ => rfl) h.returns

omit [DecidableEq P] in
theorem Sound.restoreSwitch (h : s.Sound) {id : String} (hst : s.stage = .killed id)
    (ok : Bool) : (s.restoreSwitch id ok).Sound := by
  obtain ⟨hfd, hbefore⟩ := h.stage (by rw [hst]; simp)
  have hgood := h.good hfd
  have hgrown := hgood.fresh
  rw [RootSandbox.restoreSwitch]
  rcases hfind : s.overlay.snapshots.find? id with _ | chain
  · rw [RootOverlay.restore, hfind]
    exact h.raise hbefore
  · obtain ⟨is, hr⟩ := hgood.snapshots id chain hfind
    rw [restore_eq hgood s.calls id ok hfind hr]
    cases ok with
    | true =>
      have hn := hgood.restored hgrown s.calls hfind hr
      exact .of_mounted hfd hn.good (not_frozen_of_next hgood (h.apart hfd) hn)
        (fun _ => hbefore) h.returns
    | false => exact (h.moved hfd (hgood.skipped hgrown) fun _ => hbefore).raise hbefore

theorem Sound.criuRestore (h : s.Sound) {id : String} (hst : s.stage = .switched id)
    {r : Revival} (hs : s.criuRestore id r = some t) : t.Sound := by
  obtain ⟨hfd, hbefore⟩ := h.stage (by rw [hst]; simp)
  have hmake : ∀ log ws pid,
      Sound { s with restoreLog := log, workers := ws, workerPid := pid } := fun _ _ _ =>
    .of_mounted hfd (h.good hfd) (h.apart hfd) (fun _ => hbefore) h.returns
  have hret : ∀ u : RootSandbox P C, u.Sound → u.fd = true → (u.restored id).Sound :=
    fun u hu hmounted => .of_mounted hmounted (hu.good hmounted) (hu.apart hmounted)
      (fun hne => absurd rfl hne) fun _ => mem_returns hu.returns trivial
  cases r with
  | ok pid pidfile =>
    rw [RootSandbox.criuRestore] at hs
    split at hs
    · cases hs
    · obtain ⟨-, hs⟩ := Option.ite_none_left_eq_some.mp hs
      exact Option.some.inj hs ▸ hret _ (hmake _ _ _) hfd
  | failed logged =>
    obtain rfl := Option.some.inj hs
    have hpick : ∀ (b : Bool) (u v : RootSandbox P C), u.Sound → v.Sound →
        (if b then u else v).Sound := by
      intro b u v hu hv
      cases b with
      | true => exact hu
      | false => exact hv
    exact hpick _ _ _ (hret _ (hmake _ s.workers s.workerPid) hfd)
      ((hmake _ s.workers s.workerPid).raise hbefore)

/-- **One step.** -/
theorem Sound.step {a : Label P C} (h : s.Sound) (hs : step s a = some t) : t.Sound := by
  cases a with
  | write ds p c =>
    rw [RootSandbox.step] at hs
    split_ifs at hs with hfd
    exact Option.some.inj hs ▸ h.put hfd _
  | remove ds p =>
    rw [RootSandbox.step] at hs
    split_ifs at hs with hfd
    exact Option.some.inj hs ▸ h.put hfd _
  | exit pid =>
    obtain rfl := Option.some.inj hs
    refine ⟨h.good, h.apart, fun hno => ?_, h.stage, h.returns⟩
    obtain ⟨hc, hu, hsn, hw, hun, hba⟩ := h.unmounted hno
    exact ⟨hc, hu, hsn, hw, hun, hba⟩
  | mount ok =>
    rw [RootSandbox.step] at hs
    split_ifs at hs with hc
    exact Option.some.inj hs ▸ h.mount hc.1 hc.2 ok
  | launch started pidfile =>
    rw [RootSandbox.step] at hs
    split_ifs at hs with hc
    exact h.launch hc.1 hc.2 hs
  | checkpoint id dump =>
    rw [RootSandbox.step] at hs
    split_ifs at hs with hc
    exact h.checkpoint hs
  | restore id =>
    rw [RootSandbox.step] at hs
    split_ifs at hs with hc
    exact Option.some.inj hs ▸ h.restore id
  | switch ok =>
    rw [RootSandbox.step] at hs
    split at hs
    · rename_i id hst
      exact Option.some.inj hs ▸ h.checkpointSwitch hst ok
    · rename_i id hst
      exact Option.some.inj hs ▸ h.restoreSwitch hst ok
    · cases hs
  | revive r =>
    rw [RootSandbox.step] at hs
    split at hs
    · rename_i id hst
      exact h.criuRestore hst hs
    · cases hs

/-! ### Steady runs -/

/-- Between a dump and its switch, and between a switch and the worker that is started on it, a file
change parts the files from the image. -/
def exposed (s : RootSandbox P C) : Bool :=
  match s.stage with
  | .dumped _ | .switched _ => true
  | _ => false

/-- A step that cannot part them. While it would matter nobody changes what a file is; a CRIU that
fails does not leave a log that speaks of success; the switch of a checkpoint raises only for an id
that is new, or whose snapshot shows the same; and the pidfile can be read. -/
def Steady (s : RootSandbox P C) : Label P C → Prop
  | .write _ p c => s.exposed = true → s.view p = some c
  | .remove _ p => s.exposed = true → s.view p = none
  | .checkpoint id (.failed logged _) => logged = true ∨ s.dumpLog id = false
  | .switch false => ∀ id, s.stage = .dumped id → ∀ v, s.shows id = some v → v = s.view
  | .revive (.ok _ pidfile) => pidfile = true
  | .revive (.failed logged) =>
    ∀ id, s.stage = .switched id → logged = true ∨ s.restoreLog id = false
  | _ => True

/-- What holds in a steady run. -/
structure Matched (s : RootSandbox P C) : Prop where
  sound : s.Sound
  /-- A snapshot and an image under one id are of one moment. -/
  images : ∀ id im v, s.stage ≠ .dumped id → s.images id = some im →
    Shows s.disk id s.overlay v → v = im.view
  /-- After a dump nothing has changed yet. -/
  dumped : ∀ id, s.stage = .dumped id → ∃ im, s.images id = some im ∧ im.view = s.view
  /-- After a switch, neither. -/
  switched : ∀ id, s.stage = .switched id → Shows s.disk id s.overlay s.view
  returns : ∀ r ∈ s.returns, r.Coupled

theorem shows_iff {id : String} {v : View P C} :
    s.shows id = some v ↔ Shows s.disk id s.overlay v := by
  simp only [RootSandbox.shows, Option.bind_eq_some_iff, Disk.through, Option.map_eq_some_iff,
    Shows]
  constructor
  · rintro ⟨chain, hfind, is, hr, hv⟩
    exact ⟨chain, is, hfind, hr, hv⟩
  · rintro ⟨chain, is, hfind, hr, hv⟩
    exact ⟨chain, hfind, is, hr, hv⟩

theorem Matched.put (h : s.Matched) (hfd : s.fd = true) {l : Layer P C}
    (hview : s.exposed = true → (s.put l).view = s.view) : (s.put l).Matched where
  sound := h.sound.put hfd l
  images id im v hne him hv := h.images id im v hne him (Shows.of_put hv (h.sound.apart hfd))
  dumped id hst := by
    have hst' : s.stage = .dumped id := hst
    obtain ⟨im, him, hv⟩ := h.dumped id hst'
    exact ⟨im, him, hv.trans (hview (by simp [exposed, hst'])).symm⟩
  switched id hst := by
    have hst' : s.stage = .switched id := hst
    rw [hview (by simp [exposed, hst'])]
    exact Shows.put (h.switched id hst') (h.sound.apart hfd)
  returns := h.returns

/-- Between calls, and when a call raises, only the snapshots and images matter. -/
theorem Matched.of_idle (hsound : s.Sound) (hidle : s.stage = .idle)
    (himages : ∀ id im v, s.images id = some im → Shows s.disk id s.overlay v → v = im.view)
    (hreturns : ∀ r ∈ s.returns, r.Coupled) : s.Matched where
  sound := hsound
  images id im v _ := himages id im v
  dumped id hst := by
    rw [hidle] at hst
    cases hst
  switched id hst := by
    rw [hidle] at hst
    cases hst
  returns := hreturns

theorem Matched.raise (h : ∀ r ∈ s.returns, r.Coupled) (hsound : s.raise.Sound)
    (himages : ∀ id im v, s.images id = some im → Shows s.disk id s.overlay v → v = im.view) :
    s.raise.Matched :=
  .of_idle hsound rfl himages fun _ => mem_returns h trivial

/-- Outside a call every snapshot has an image of its moment, or none. -/
theorem Matched.idle_images (h : s.Matched) (hidle : s.stage = .idle) (id : String)
    (im : Image P C) (v : View P C) (him : s.images id = some im)
    (hv : Shows s.disk id s.overlay v) : v = im.view :=
  h.images id im v (by rw [hidle]; simp) him hv

theorem Matched.checkpoint (h : s.Matched) (hidle : s.stage = .idle) {id : String} {dump : Dump}
    (hc : s.Steady (.checkpoint id dump)) (hs : s.checkpoint id dump = some t) : t.Matched := by
  have hsound := h.sound.checkpoint hs
  rw [RootSandbox.checkpoint] at hs
  split at hs
  · obtain rfl := Option.some.inj hs
    exact .raise h.returns hsound (h.idle_images hidle)
  · rename_i pid hpid
    obtain ⟨u, hu, rfl⟩ := Option.map_eq_some_iff.mp hs
    cases dump with
    | ok =>
      rw [criuDump] at hu
      obtain ⟨-, hu⟩ := Option.ite_none_right_eq_some.mp hu
      obtain rfl := Option.some.inj hu
      rw [if_pos (Function.update_self ..)] at hsound ⊢
      refine ⟨hsound, fun id' im v hne him hv => ?_, fun id' hst => ?_,
        fun id' hst => (by cases hst), h.returns⟩
      · have hid : id' ≠ id := fun heq => hne (by rw [heq])
        refine h.idle_images hidle id' im v ?_ hv
        exact (Function.update_of_ne hid ..).symm.trans him
      · obtain rfl : id = id' := by simpa using hst
        exact ⟨_, Function.update_self .., rfl⟩
    | failed logged spoiled =>
      obtain rfl := Option.some.inj hu
      have hlog : (if logged then Function.update s.begun.dumpLog id false
          else s.begun.dumpLog) id = false := by
        cases logged with
        | true => exact Function.update_self ..
        | false => exact hc.resolve_left (by simp)
      rw [if_neg (by simpa using hlog)] at hsound ⊢
      refine .raise h.returns hsound fun id' im v him hv => ?_
      refine h.idle_images hidle id' im v ?_ hv
      cases spoiled with
      | true =>
        have him' : Function.update s.images id none id' = some im := him
        rw [Function.update_apply] at him'
        split_ifs at him'
        exact him'
      | false => exact him

theorem Matched.checkpointSwitch (h : s.Matched) {id : String} (hst : s.stage = .dumped id)
    {ok : Bool} (hc : s.Steady (.switch ok)) : (s.checkpointSwitch id ok).Matched := by
  have hsound := h.sound.checkpointSwitch hst ok
  obtain ⟨hfd, -⟩ := h.sound.stage (by rw [hst]; simp)
  have hgood := h.sound.good hfd
  have hkept := kept_fresh s.disk s.overlay
  obtain ⟨im, him, hview⟩ := h.dumped id hst
  -- an image of another id
  have hother : ∀ id' ≠ id, ∀ im v, s.images id' = some im → Shows s.disk id' s.overlay v →
      v = im.view := fun id' hne im v => h.images id' im v (by rw [hst]; simpa using hne.symm)
  rw [RootSandbox.checkpointSwitch, checkpoint_eq hgood] at hsound ⊢
  cases ok with
  | true =>
    have htaken : Taken s.calls id (fun o => s.disk.visible o.mount) (s.overlay.fresh s.disk).1
        s.overlay (RootOverlay.checkpointed s.calls id s.disk.next s.overlay) :=
      taken_checkpointed hgood rfl
    have hshows : Shows (s.overlay.fresh s.disk).1 id
        (RootOverlay.checkpointed s.calls id s.disk.next s.overlay) s.view := htaken.snapshot
    refine .of_idle hsound rfl (fun id' im' v him' hv => ?_) fun r => ?_
    · by_cases hid : id' = id
      · subst hid
        obtain rfl := Option.some.inj (him.symm.trans him')
        exact (Shows.unique hv hshows).trans hview.symm
      · exact hother id' hid im' v him'
          (Shows.back (hv.of_snapshots (htaken.others id' hid).symm) hgood hkept)
    · refine mem_returns h.returns ⟨im, him, ?_⟩
      rw [shows_iff, hview]
      exact hshows
  | false =>
    refine .raise h.returns hsound fun id' im' v him' hv => ?_
    have hold : Shows s.disk id' s.overlay v :=
      Shows.back (o := s.overlay) (hv.of_snapshots rfl) hgood hkept
    by_cases hid : id' = id
    · subst hid
      obtain rfl := Option.some.inj (him.symm.trans him')
      exact (hc id' hst v (shows_iff.mpr hold)).trans hview.symm
    · exact hother id' hid im' v him' hold

theorem Matched.restore (h : s.Matched) (hidle : s.stage = .idle) (id : String) :
    (s.restore id).Matched := by
  have hsound := h.sound.restore id
  rw [RootSandbox.restore] at hsound ⊢
  split at hsound
  · exact .raise h.returns hsound (h.idle_images hidle)
  · refine ⟨hsound, fun id' im v _ => h.idle_images hidle id' im v, fun id' hst => ?_,
      fun id' hst => ?_, h.returns⟩
    · cases hst
    · cases hst

theorem Matched.restoreSwitch (h : s.Matched) {id : String} (hst : s.stage = .killed id)
    (ok : Bool) : (s.restoreSwitch id ok).Matched := by
  have hsound := h.sound.restoreSwitch hst ok
  obtain ⟨hfd, -⟩ := h.sound.stage (by rw [hst]; simp)
  have hgood := h.sound.good hfd
  have hgrown := hgood.fresh
  have hkept := kept_fresh s.disk s.overlay
  have himages : ∀ id' im v, s.images id' = some im → Shows s.disk id' s.overlay v →
      v = im.view := fun id' im v => h.images id' im v (by rw [hst]; simp)
  rw [RootSandbox.restoreSwitch] at hsound ⊢
  rcases hfind : s.overlay.snapshots.find? id with _ | chain
  · rw [RootOverlay.restore, hfind] at hsound ⊢
    exact .raise h.returns hsound himages
  · obtain ⟨is, hr⟩ := hgood.snapshots id chain hfind
    rw [restore_eq hgood s.calls id ok hfind hr] at hsound ⊢
    cases ok with
    | true =>
      refine ⟨hsound, fun id' im v _ him hv => ?_, fun id' hst => (by cases hst),
        fun id' hst => ?_, h.returns⟩
      · exact himages id' im v him
          (Shows.back (o := s.overlay) (hv.of_snapshots rfl) hgood hkept)
      · obtain rfl : id = id' := by simpa using hst
        refine ⟨chain, is, hfind, hgrown.resolve hr, ?_⟩
        exact (hgrown.view (Disk.resolve_lt hr)).trans
          (hgrown.view_cons (Disk.resolve_lt hr)).symm
    | false =>
      refine .raise h.returns hsound fun id' im v him hv => ?_
      exact himages id' im v him
        (Shows.back (o := s.overlay) (hv.of_snapshots rfl) hgood hkept)

theorem Matched.criuRestore (h : s.Matched) {id : String} (hst : s.stage = .switched id)
    {r : Revival} (hc : s.Steady (.revive r)) (hs : s.criuRestore id r = some t) : t.Matched := by
  have hsound := h.sound.criuRestore hst hs
  have himages : ∀ id' im v, s.images id' = some im → Shows s.disk id' s.overlay v →
      v = im.view := fun id' im v => h.images id' im v (by rw [hst]; simp)
  have hshows := h.switched id hst
  cases r with
  | ok pid pidfile =>
    obtain rfl : pidfile = true := hc
    rw [RootSandbox.criuRestore] at hs
    split at hs
    · cases hs
    · rename_i im him
      obtain ⟨-, hs⟩ := Option.ite_none_left_eq_some.mp hs
      obtain rfl := Option.some.inj hs
      have hview : s.view = im.view := himages id im _ him hshows
      refine .of_idle hsound rfl himages fun r => mem_returns h.returns ⟨im, him, ?_, ?_⟩
      · rw [shows_iff, ← hview]
        exact hshows
      · exact ⟨_, List.mem_cons_self, rfl, hview, rfl⟩
  | failed logged =>
    obtain rfl := Option.some.inj hs
    have hlog : (if logged then Function.update s.restoreLog id false else s.restoreLog) id =
        false := by
      cases logged with
      | true => exact Function.update_self ..
      | false => exact (hc id hst).resolve_left (by simp)
    dsimp only at hsound ⊢
    rw [if_neg (by simpa using hlog)] at hsound ⊢
    exact .raise h.returns hsound himages

omit [DecidableEq P] in
theorem mount_fields (ok : Bool) : (s.mount ok).overlay.snapshots = s.overlay.snapshots ∧
    (s.mount ok).stage = s.stage ∧ (s.mount ok).returns = s.returns := by
  rw [RootSandbox.mount]
  dsimp only
  split
  · exact ⟨rfl, rfl, rfl⟩
  · exact ⟨rfl, rfl, rfl⟩

theorem Matched.mount (h : s.Matched) (hidle : s.stage = .idle) (hfd : s.fd = false) (ok : Bool) :
    (s.mount ok).Matched := by
  obtain ⟨hsnap, hstage, hreturns⟩ := s.mount_fields ok
  refine .of_idle (h.sound.mount hidle hfd ok) (hstage.trans hidle) (fun id im v _ hv => ?_) ?_
  · obtain ⟨chain, is, hfind, -⟩ := hv
    rw [hsnap, (h.sound.unmounted hfd).snapshots] at hfind
    cases hfind
  · rw [hreturns]
    exact h.returns

theorem Matched.launch (h : s.Matched) (hidle : s.stage = .idle) (hfd : s.fd = true)
    {started pidfile : Option ℕ} (hs : s.launch started pidfile = some t) : t.Matched := by
  have hsound := h.sound.launch hidle hfd hs
  have hkept : ∀ ws pid, t = { s with workers := ws, workerPid := pid } → t.Matched := by
    rintro ws pid rfl
    exact .of_idle hsound hidle (h.idle_images hidle) h.returns
  rw [RootSandbox.launch] at hs
  obtain ⟨-, hs⟩ := Option.ite_none_left_eq_some.mp hs
  dsimp only at hs
  split at hs
  · exact hkept _ _ (Option.some.inj hs).symm
  · obtain ⟨-, hs⟩ := Option.ite_none_right_eq_some.mp hs
    exact hkept _ _ (Option.some.inj hs).symm

/-- A write of what is already there. -/
theorem view_put_write (h : s.Sound) (hfd : s.fd = true) {ds : List P} {p : P} {c : C}
    (hp : s.view p = some c) :
    (s.put ((s.disk.content s.overlay.mount.upper).write ds p c)).view = s.view := by
  funext q
  refine (Disk.visible_write (fun hmem => h.apart hfd (Or.inl hmem)) ds p c q).trans ?_
  split_ifs with hq
  · rw [hq, hp]
  · rfl

/-- A removal of what is not there. -/
theorem view_put_remove (h : s.Sound) (hfd : s.fd = true) {ds : List P} {p : P}
    (hp : s.view p = none) :
    (s.put ((s.disk.content s.overlay.mount.upper).remove
      (s.overlay.mount.lowers.map s.disk.content) ds p)).view = s.view := by
  funext q
  refine (Disk.visible_remove (fun hmem => h.apart hfd (Or.inl hmem)) ds p q).trans ?_
  split_ifs with hq
  · rw [hq, hp]
  · rfl

/-- **One steady step.** -/
theorem Matched.step {a : Label P C} (h : s.Matched) (hc : s.Steady a)
    (hs : step s a = some t) : t.Matched := by
  cases a with
  | write ds p c =>
    rw [RootSandbox.step] at hs
    split_ifs at hs with hfd
    exact Option.some.inj hs ▸ h.put hfd fun he => view_put_write h.sound hfd (hc he)
  | remove ds p =>
    rw [RootSandbox.step] at hs
    split_ifs at hs with hfd
    exact Option.some.inj hs ▸ h.put hfd fun he => view_put_remove h.sound hfd (hc he)
  | exit pid =>
    have hsound := h.sound.step hs
    obtain rfl := Option.some.inj hs
    exact ⟨hsound, h.images, h.dumped, h.switched, h.returns⟩
  | mount ok =>
    rw [RootSandbox.step] at hs
    split_ifs at hs with hidle
    exact Option.some.inj hs ▸ h.mount hidle.1 hidle.2 ok
  | launch started pidfile =>
    rw [RootSandbox.step] at hs
    split_ifs at hs with hidle
    exact h.launch hidle.1 hidle.2 hs
  | checkpoint id dump =>
    rw [RootSandbox.step] at hs
    split_ifs at hs with hidle
    exact h.checkpoint hidle hc hs
  | restore id =>
    rw [RootSandbox.step] at hs
    split_ifs at hs with hidle
    exact Option.some.inj hs ▸ h.restore hidle id
  | switch ok =>
    rw [RootSandbox.step] at hs
    split at hs
    · rename_i id hst
      exact Option.some.inj hs ▸ h.checkpointSwitch hst hc
    · rename_i id hst
      exact Option.some.inj hs ▸ h.restoreSwitch hst ok
    · cases hs
  | revive r =>
    rw [RootSandbox.step] at hs
    split at hs
    · rename_i id hst
      exact h.criuRestore hst hc hs
    · cases hs

/-! ### Whole runs -/

/-- The directory of the layers is new, and the base image is not one of the layers to come. -/
structure Fresh (d : Disk P C) (baseImage layersRoot : String) : Prop where
  unused : ∀ k, d.names (join layersRoot ("u" ++ Nat.repr k)) = none ∧
    d.names (join layersRoot ("w" ++ Nat.repr k)) = none
  base : ∀ k, baseImage ≠ join layersRoot ("u" ++ Nat.repr k) ∧
    baseImage ≠ join layersRoot ("w" ++ Nat.repr k)

variable {d : Disk P C} {baseImage layersRoot : String}

omit [DecidableEq P] in
theorem Fresh.sound (h : Fresh d baseImage layersRoot) : (new d baseImage layersRoot).Sound where
  good hfd := absurd hfd (by simp [new])
  apart hfd := absurd hfd (by simp [new])
  unmounted _ := ⟨rfl, rfl, rfl, rfl, fun k _ => h.unused k, h.base⟩
  stage hne := absurd rfl hne
  returns _ hr := (List.not_mem_nil hr).elim

theorem Fresh.matched (h : Fresh d baseImage layersRoot) :
    (new d baseImage layersRoot).Matched :=
  .of_idle h.sound rfl (fun id im v him => by cases him) fun _ hr => (List.not_mem_nil hr).elim

/-- **Every call that ends, in every run.** One that raises leaves the fields of the object as the
stack that is mounted. In a steady run one that returns has its files and its memory from one moment:
a checkpoint in its snapshot and its image, and a restore in what the worker sees that it has started
and that `worker_pid` names. -/
theorem files_and_memory_coupled (h : Fresh d baseImage layersRoot) {as : List (Label P C)}
    (hrun : Machine.exec step (new d baseImage layersRoot) as = some s) :
    (∀ r ∈ s.returns, r.Mirrored) ∧
      (Machine.Along step Steady (new d baseImage layersRoot) as → ∀ r ∈ s.returns, r.Coupled) := by
  constructor
  · exact (Machine.invariant (I := Sound) (fun hi hs => hi.step hs) h.sound hrun).returns
  · intro halong
    have hmatched : s.Matched :=
      Machine.invariant_along (fun hi hc hs => hi.step hc hs) h.matched halong hrun
    exact hmatched.returns

/-! ### Runs -/

/-- A disk with the base image. -/
def baseDisk : Disk ℕ ℕ where
  names n := if n = "/base" then some 0 else none
  content _ := Layer.empty
  next := 1
  named_lt n i h := by
    split_ifs at h
    exact Option.some.inj h ▸ by decide

theorem fresh_baseDisk : Fresh baseDisk "/base" "/l" := by
  have hne : ∀ name, join "/l" name ≠ "/base" := by
    intro name heq
    rw [join_of_last (c := 'l') (by decide) (by decide)] at heq
    have hlist := congrArg (fun s : String => s.toList[1]?) heq
    simp at hlist
  have hnone : ∀ name, baseDisk.names (join "/l" name) = none := fun name => by
    simp [baseDisk, hne name]
  exact ⟨fun k => ⟨hnone _, hnone _⟩, fun k => ⟨(hne _).symm, (hne _).symm⟩⟩

/-- Nothing goes wrong in a step, and no file changes while it matters. -/
def quiet (s : RootSandbox ℕ ℕ) : Label ℕ ℕ → Bool
  | .write .. | .remove .. => !s.exposed
  | .checkpoint _ dump => dump = .ok
  | .switch ok => ok
  | .revive (.ok _ pidfile) => pidfile
  | .revive (.failed logged) => logged
  | _ => true

theorem steady_of_quiet (s : RootSandbox ℕ ℕ) (a : Label ℕ ℕ) (h : s.quiet a = true) :
    s.Steady a := by
  cases a with
  | write ds p c => exact fun he => absurd he (by simpa [quiet] using h)
  | remove ds p => exact fun he => absurd he (by simpa [quiet] using h)
  | checkpoint id dump =>
    obtain rfl : dump = .ok := by simpa [quiet] using h
    trivial
  | switch ok =>
    obtain rfl : ok = true := h
    trivial
  | revive r =>
    cases r with
    | ok pid pidfile => exact h
    | failed logged => exact fun id _ => Or.inl h
  | exit pid => trivial
  | mount ok => trivial
  | launch started pidfile => trivial
  | restore id => trivial

/-- A file is written, a checkpoint is made, the file is written again, and the checkpoint is
restored. -/
def restoreRun : List (Label ℕ ℕ) :=
  [.mount true, .launch (some 7) (some 7), .write [] 0 1, .checkpoint "a" .ok, .switch true,
    .write [] 0 2, .restore "a", .switch true, .revive (.ok 7 true)]

theorem coupled_restoreRun : ∃ s,
    Machine.exec step (new baseDisk "/base" "/l") restoreRun = some s ∧ s.returns.length = 2 ∧
      ∀ r ∈ s.returns, r.Coupled := by
  have hsome : ((Machine.exec step (new baseDisk "/base" "/l") restoreRun).map fun s =>
      s.returns.length) = some 2 := by decide +kernel
  obtain ⟨s, hs, hlen⟩ := Option.map_eq_some_iff.mp hsome
  have hquiet : Machine.Along step (fun s a => quiet s a = true) (new baseDisk "/base" "/l")
      restoreRun := by decide +kernel
  exact ⟨s, hs, hlen, (files_and_memory_coupled fresh_baseDisk hs).2 (hquiet.mono steady_of_quiet)⟩

/-- Where files and memory differ, or there is no number of a worker. -/
def clash : Return ℕ ℕ → Bool
  | .checkpoint _ shows image => shows.bind (· 0) ≠ image.bind (·.view 0)
  | .restore _ _ _ _ _ workerPid => workerPid.isNone
  | .raised .. => false

theorem not_coupled_of_clash {r : Return ℕ ℕ} (h : clash r = true) : ¬ r.Coupled := by
  cases r with
  | checkpoint id shows image =>
    rintro ⟨im, rfl, rfl⟩
    simp [clash] at h
  | restore id call shows image workers workerPid =>
    rintro ⟨im, -, -, w, -, -, -, rfl⟩
    simp [clash] at h
  | raised fd disk overlay before => cases h

/-- A file is written between a dump and its switch; a dump fails and the log is the one of the dump
before it; the pidfile of a restore cannot be read. -/
theorem files_and_memory_apart : Fresh baseDisk "/base" "/l" ∧
    ∀ as ∈ ([[.mount true, .launch (some 7) (some 7), .checkpoint "a" .ok, .write [] 0 1,
          .switch true],
        [.mount true, .launch (some 7) (some 7), .checkpoint "a" .ok, .switch true, .write [] 0 1,
          .checkpoint "a" (.failed false false), .switch true],
        [.mount true, .launch (some 7) (some 7), .checkpoint "a" .ok, .switch true, .restore "a",
          .switch true, .revive (.ok 7 false)]] : List (List (Label ℕ ℕ))),
      ∃ s, Machine.exec step (new baseDisk "/base" "/l") as = some s ∧
        ∃ r ∈ s.returns, ¬ r.Coupled := by
  refine ⟨fresh_baseDisk, fun as has => ?_⟩
  have hclash : ((Machine.exec step (new baseDisk "/base" "/l") as).map fun s =>
      s.returns.any clash) = some true := by
    simp only [List.mem_cons, List.not_mem_nil, or_false] at has
    rcases has with rfl | rfl | rfl
    · decide +kernel
    · decide +kernel
    · decide +kernel
  obtain ⟨s, hs, hany⟩ := Option.map_eq_some_iff.mp hclash
  obtain ⟨r, hr, hc⟩ := List.any_eq_true.mp hany
  exact ⟨s, hs, r, hr, not_coupled_of_clash hc⟩

end RootSandbox

end Overlay

end DeltaBox
