import DeltaBox.Restore.Preflight

/-!
# What a restore leaves behind

`restore_action` has no undo. It rolls back the root overlays one by one, mounts the target's layers
on fresh directories, and puts a process where the old one was. Each of these steps can raise, and a
call that raises leaves the sandbox where it stands. So there are two questions: what a call that
returns has done, and where a call that raised can have stopped.

Neither involves the registry or the process table, which belong to other threads. The rest of the
sandbox is its `Core`, and a call moves it through few states: some root overlays are rolled back
(`Left.fresh`), then all are (`Left.rolled`), then the target is mounted (`Left.mounted`), then there
is a new active process (`Left.active`). The epoch goes up in the last step of a call that returns,
and at no other time.

## Main definitions

* `Core` — what only the controller writes
* `Left` — where a call can stop
* `Returned` — what a call that returns has done

## Main results

* `commit_stages` — a call stops where `Left` says, or returns
* `restore_stages` — the statement about whole calls
-/

namespace DeltaBox

namespace Restore

open Prog

variable {env : Env} {cfg : Config}

/-! ### What only the controller writes -/

/-- The sandbox without the registry and the process table. -/
structure Core where
  agentPid : ℕ
  nsInitPid : ℕ
  currentUpper : String
  currentWork : String
  task : Mounted
  rootOverlays : Option (List RootOverlay)
  currentEpoch : ℕ

/-- That part of a sandbox. -/
def Sandbox.core (b : Sandbox) : Core where
  agentPid := b.agentPid
  nsInitPid := b.nsInitPid
  currentUpper := b.currentUpper
  currentWork := b.currentWork
  task := b.task
  rootOverlays := b.rootOverlays
  currentEpoch := b.currentEpoch

/-- A step of another thread does not touch it. -/
theorem Background.core_step (g : Background) (b : Sandbox) : (g.step b).core = b.core := by
  rw [g.frame]
  rfl

/-- Nor do their turns. -/
theorem Env.others_core (env : Env) (n : ℕ) (b : Sandbox) : (env.others n b).core = b.core := by
  rw [env.others_frame]
  rfl

/-- What a change does to it. -/
def Change.after : Change → Core → Core
  | .rootFresh i, x =>
    { x with rootOverlays := x.rootOverlays.map (List.modify · i fun o => { o with n := o.n + 1 }) }
  | .rootSwitch i chain, x =>
    { x with rootOverlays := x.rootOverlays.map (List.modify · i fun o => o.switchTo chain) }
  | .switch lowers upper work, x => { x with task := ⟨lowers, upper, work⟩ }
  | .setCurrent upper work, x => { x with currentUpper := upper, currentWork := work }
  | .setAgent pid, x => { x with agentPid := pid }
  | .setNsInit pid, x => { x with nsInitPid := pid }
  | .bumpEpoch, x => { x with currentEpoch := x.currentEpoch + 1 }
  | .kill _, x | .killNamespace _, x | .resume _, x | .stop _, x | .reap _, x | .spawn .., x => x

theorem Change.core_apply (c : Change) (b : Sandbox) : (c.apply b).core = c.after b.core := by
  cases c <;> rfl

/-- The core is `x`. -/
def At (x : Core) (w : World) : Prop := w.box.core = x

theorem At.ticks (env : Env) (x : Core) : Ticks env (At x) where
  tick w h := ((env.background w.clock).core_step w.box).trans h
  record _ _ h := h

theorem At.notes (x : Core) (e : Event) : Notes (At x) e := fun _ h => h

theorem act_at {x : Core} {c : Change} {E : Err → World → Prop} :
    Triple (At x) (act env c) (fun _ => At (c.after x)) E := by
  refine Triple.bind (Q := fun _ => At x) (Triple.update (At.ticks env x).tick) fun _ => ?_
  exact Triple.update fun w h => (c.core_apply w.box).trans (congrArg c.after h)

/-- The changes of the process table. -/
theorem Keeps.act_at {x : Core} {c : Change} {ok : Err → Prop} (hc : c.after x = x) :
    Keeps (At x) ok (Restore.act env c) := by
  have h := @Restore.act_at env x c fun e w => At x w ∧ ok e
  rwa [hc] at h

/-- Code that leaves the core alone stops where it started. -/
theorem Keeps.stops {α : Type} {m : Action α} {x : Core} {S : Core → Prop}
    (h : Keeps (At x) (fun _ => True) m) (hx : S x) :
    Triple (At x) m (fun _ => At x) fun _ w => S w.box.core := by
  refine Triple.mono (fun _ h => h) (fun _ _ h => h) (fun _ w hw => ?_) h
  have hcore : w.box.core = x := hw.1
  rwa [hcore]

/-- A system call, and the check of its answer. -/
theorem attempt_at {α : Type} {x : Core} {S : Core → Prop} {c : Bool → Bool} {e : Err}
    {m : Bool → Action α} {Q : α → World → Prop} (hx : S x)
    (h : ∀ ok, Triple (At x) (m ok) Q fun _ w => S w.box.core) :
    Triple (At x) (attempt env >>= fun ok => require (c ok) e >>= fun _ => m ok) Q
      fun _ w => S w.box.core := by
  refine Triple.bind (Keeps.stops (Keeps.attempt (At.ticks env x)) hx) fun ok => ?_
  exact Triple.bind (Keeps.stops (Keeps.require trivial) hx) fun _ => h ok

/-! ### The stages of a call -/

/-- A root overlay after its rollback. -/
def RootOverlay.rolledBack (id : String) (o : RootOverlay) : RootOverlay :=
  match o.snapshots.find? id with
  | none => o
  | some chain => RootOverlay.switchTo { o with n := o.n + 1 } chain

/-- The first `k` root overlays are rolled back. -/
def rollFirst (id : String) (k : ℕ) (os : List RootOverlay) : List RootOverlay :=
  (os.take k).map (RootOverlay.rolledBack id) ++ os.drop k

/-- `RootOverlaySet.has_checkpoint`. -/
def Core.hasCheckpoint (id : String) (x : Core) : Bool :=
  let overlays := x.rootOverlays.getD []
  !overlays.isEmpty && overlays.all fun o => (o.snapshots.find? id).isSome

/-- Some root overlays are rolled back. -/
def Core.rollFirst (id : String) (k : ℕ) (x : Core) : Core :=
  { x with rootOverlays := x.rootOverlays.map (Restore.rollFirst id k) }

/-- All are, if all can be. -/
def Core.rolledBack (id : String) (x : Core) : Core :=
  if x.hasCheckpoint id then
    { x with rootOverlays := x.rootOverlays.map (List.map (RootOverlay.rolledBack id)) }
  else x

/-- The task overlay has new layers, and the books say so. -/
def Core.mount (m : Mounted) (x : Core) : Core :=
  { x with task := m, currentUpper := m.upper, currentWork := m.work }

/-- A process is the active one. When its namespace is its own, it is the init of it, too. -/
def Core.activate (external : Bool) (pid : Option ℕ) (x : Core) : Core :=
  match pid with
  | none => x
  | some pid => { x with agentPid := pid, nsInitPid := if external then x.nsInitPid else pid }

/-- The epoch is over. -/
def Core.bump (x : Core) : Core := { x with currentEpoch := x.currentEpoch + 1 }

/-- Where a call for the entry `id` can stop, with `m` as its new task overlay. -/
inductive Left (id : String) (m : Mounted) (x : Core) : Core → Prop where
  /-- Nothing has changed. -/
  | same : Left id m x x
  /-- In the rollback of the root overlays: one has new directories that are not mounted. -/
  | fresh (k : ℕ) (hk : k < (x.rootOverlays.getD []).length) (h : x.hasCheckpoint id) :
    Left id m x ((Change.rootFresh k).after (x.rollFirst id k))
  /-- After it. -/
  | rolled : Left id m x (x.rolledBack id)
  /-- With the target's layers mounted. -/
  | mounted : Left id m x ((x.rolledBack id).mount m)
  /-- With a new process. -/
  | active (external : Bool) (pid : ℕ) :
    Left id m x (((x.rolledBack id).mount m).activate external (some pid))

/-! ### The root overlays -/

theorem modify_append_length {α : Type} (f : α → α) (xs : List α) (y : α) (ys : List α) :
    (xs ++ y :: ys).modify xs.length f = xs ++ f y :: ys := by
  induction xs with
  | nil => rfl
  | cons x xs ih => rw [List.cons_append, List.length_cons, List.modify_succ_cons, ih]; rfl

theorem length_rolled {id : String} {k : ℕ} {os : List RootOverlay} (hk : k < os.length) :
    ((os.take k).map (RootOverlay.rolledBack id)).length = k := by
  rw [List.length_map, List.length_take]
  omega

/-- The overlay that is next in a rollback. -/
theorem rollFirst_split {id : String} {k : ℕ} {os : List RootOverlay} (hk : k < os.length) :
    rollFirst id k os = (os.take k).map (RootOverlay.rolledBack id) ++ os[k] :: os.drop (k + 1) := by
  rw [rollFirst, List.drop_eq_getElem_cons hk]

theorem getElem?_rollFirst {id : String} {k : ℕ} {os : List RootOverlay} (hk : k < os.length) :
    (rollFirst id k os)[k]? = some os[k] := by
  rw [rollFirst_split hk, List.getElem?_append_right (Nat.le_of_eq (length_rolled hk)),
    length_rolled hk, Nat.sub_self]
  rfl

/-- The two changes of its rollback. -/
theorem rollFirst_succ {id : String} {k : ℕ} {os : List RootOverlay} {chain : List String}
    (hk : k < os.length) (hchain : os[k].snapshots.find? id = some chain) :
    ((rollFirst id k os).modify k fun o => { o with n := o.n + 1 }).modify k
      (fun o => o.switchTo chain) = rollFirst id (k + 1) os := by
  have hmodify := fun f y => modify_append_length f ((os.take k).map (RootOverlay.rolledBack id)) y
    (os.drop (k + 1))
  simp only [length_rolled hk] at hmodify
  rw [rollFirst_split hk, hmodify, hmodify, rollFirst, List.take_succ_eq_append_getElem hk,
    List.map_append, List.append_assoc]
  simp [RootOverlay.rolledBack, hchain]

theorem rollFirst_zero (id : String) : rollFirst id 0 = fun os => os := by
  funext os
  simp [rollFirst]

theorem rollFirst_length (id : String) (os : List RootOverlay) :
    rollFirst id os.length os = os.map (RootOverlay.rolledBack id) := by
  simp [rollFirst]

/-- A read of the sandbox sees the core. -/
theorem look_at {α : Type} {f : Sandbox → α} {x : Core} {E : Err → World → Prop} :
    Triple (At x) (look env f) (fun a w => (∃ b : Sandbox, b.core = x ∧ a = f b) ∧ At x w) E := by
  refine Triple.bind (Q := fun _ => At x) (Triple.update (At.ticks env x).tick) fun _ => ?_
  exact Triple.read fun w h => ⟨⟨w.box, h, rfl⟩, h⟩

/-- **The rollback of one root overlay.** -/
theorem rootOverlayRestore_at {id : String} {x : Core} {os : List RootOverlay} {k : ℕ}
    {S : Core → Prop} (hos : x.rootOverlays = some os) (hk : k < os.length)
    (hall : ∀ o ∈ os, (o.snapshots.find? id).isSome)
    (hfresh : S ((Change.rootFresh k).after (x.rollFirst id k))) :
    Triple (At (x.rollFirst id k)) (rootOverlayRestore env id k)
      (fun _ => At (x.rollFirst id (k + 1))) fun _ w => S w.box.core := by
  have hroots : (x.rollFirst id k).rootOverlays = some (rollFirst id k os) := by
    rw [Core.rollFirst, hos]
    rfl
  refine Triple.bind look_at fun o => Triple.of_pure fun ⟨b, hb, ho⟩ => ?_
  obtain rfl : o = some os[k] := by
    have hbroots : b.rootOverlays = some (rollFirst id k os) := by
      rw [← hroots, ← hb]
      rfl
    rw [ho, hbroots]
    exact getElem?_rollFirst hk
  obtain ⟨chain, hchain⟩ := Option.isSome_iff_exists.mp (hall _ (List.getElem_mem hk))
  simp only [hchain]
  refine Triple.bind (act_at (E := fun _ w => S w.box.core)) fun _ => ?_
  refine attempt_at hfresh fun _ => ?_
  have hafter : (Change.rootSwitch k chain).after ((Change.rootFresh k).after (x.rollFirst id k)) =
      x.rollFirst id (k + 1) := by
    simp only [Change.after, hroots, Option.map_some, rollFirst_succ hk hchain]
    rw [Core.rollFirst, Core.rollFirst, hos]
    rfl
  rw [← hafter]
  exact act_at

/-- **The rollback of all of them.** -/
theorem rootOverlaysRestore_at {id : String} {x : Core} {S : Core → Prop}
    (hfresh : x.hasCheckpoint id → ∀ k < (x.rootOverlays.getD []).length,
      S ((Change.rootFresh k).after (x.rollFirst id k))) :
    Triple (At x) (rootOverlaysRestore env id) (fun _ => At (x.rolledBack id))
      fun _ w => S w.box.core := by
  refine Triple.bind look_at fun overlays => Triple.of_pure fun ⟨b, hb, hoverlays⟩ => ?_
  obtain rfl : overlays = x.rootOverlays.getD [] := by
    rw [hoverlays, ← hb]
    rfl
  refine Triple.onlyIf (fun hc => ?_) fun w hw hc => ?_
  · have hcheck : x.hasCheckpoint id = true := hc
    cases hos : x.rootOverlays with
    | none => simp [Core.hasCheckpoint, hos] at hcheck
    | some os =>
      have hall : ∀ o ∈ os, (o.snapshots.find? id).isSome = true := by
        have := (Bool.and_eq_true_iff.mp hcheck).2
        simpa [hos] using this
      have hloop : Triple (At (x.rollFirst id 0))
          (forEach (rootOverlayRestore env id) (List.range os.length))
          (fun _ => At (x.rollFirst id os.length)) fun _ w => S w.box.core :=
        Triple.forEach_range (I := fun k => At (x.rollFirst id k)) fun k hk =>
          rootOverlayRestore_at hos hk hall (hfresh hcheck k (by rw [hos]; exact hk))
      have hstart : x.rollFirst id 0 = x := by
        rw [Core.rollFirst, rollFirst_zero, Option.map_id_fun']
        rfl
      have hend : x.rollFirst id os.length = x.rolledBack id := by
        rw [Core.rolledBack, if_pos hcheck, Core.rollFirst, hos, Option.map_some, Option.map_some,
          rollFirst_length]
      rw [hstart, hend] at hloop
      exact hloop
  · have hcheck : x.hasCheckpoint id = false := hc
    have hsame : x.rolledBack id = x := by
      rw [Core.rolledBack, hcheck]
      rfl
    rw [hsame]
    exact hw

/-! ### The kill -/

section

variable {x : Core} {ok : Err → Prop}

theorem Keeps.killAndReap_at (hok : ∀ e, ok e) {templates toKill : List ℕ} {agent : ℕ}
    {reaper : Option ℕ} {child : ℕ} :
    Keeps (At x) ok (Restore.killAndReap env cfg templates toKill agent reaper child) := by
  have hI := At.ticks env x
  refine (forEach fun _ _ => Keeps.act_at rfl).bind fun _ => (attempt hI).bind fun _ => ?_
  refine (tick hI).bind fun _ => (look hI).bind fun _ => (attempt hI).bind fun _ => ?_
  refine (attempt hI).bind fun _ => (onlyIf fun _ => Keeps.act_at rfl).bind fun _ => ?_
  refine (tick hI).bind fun _ => (onlyIf fun _ => record hI).bind fun _ => ?_
  exact require (hok _)

theorem Keeps.killActiveSubtree_at (hok : ∀ e, ok e) :
    Keeps (At x) ok (Restore.killActiveSubtree env cfg) := by
  have hI := At.ticks env x
  refine (joinActiveDumpBeforeKill hI fun _ => hok _).bind fun _ => read.bind fun _ => ?_
  refine (look hI).bind fun _ => (look hI).bind fun _ => (record hI).bind fun _ => ?_
  refine (look hI).bind fun _ => (look hI).bind fun _ => (note (At.notes x _)).bind fun _ => ?_
  exact Keeps.killAndReap_at hok

theorem Keeps.clearTemplates_at (hok : ∀ e, ok e) :
    Keeps (At x) ok (Restore.clearTemplatesForExternalRestore env cfg) := by
  have hI := At.ticks env x
  refine (Keeps.checkExternalRestorePoolClearAllowed (At.notes x _) fun _ => hok _).bind fun _ => ?_
  refine read.bind fun _ => read.bind fun _ => (look hI).bind fun _ => (look hI).bind fun _ => ?_
  refine (look hI).bind fun _ => (forEach fun _ _ => Keeps.act_at rfl).bind fun _ => ?_
  refine (record hI).bind fun _ => (look hI).bind fun _ => read.bind fun _ => ?_
  refine (attempt hI).bind fun _ => ?_
  refine (onlyIf fun _ => forEach fun _ _ => Keeps.act_at rfl).bind fun _ => ?_
  exact (tick hI).bind fun _ => (look hI).bind fun _ => require (hok _)

theorem Keeps.takeNamespace_at (hok : ∀ e, ok e) {t : Target} :
    Keeps (At x) ok (Restore.takeNamespace env cfg t) :=
  (Keeps.clearTemplates_at hok).bind fun _ => (attempt (At.ticks env x)).bind fun _ =>
    require (hok _)

theorem Keeps.replaceNamespace_at (hok : ∀ e, ok e) :
    Keeps (At x) ok (Restore.replaceNamespace env cfg) := by
  have hI := At.ticks env x
  refine (onlyIf fun _ => ?_).bind fun _ => (look hI).bind fun _ => Keeps.act_at rfl
  exact drainBeforeNamespaceTeardown hI (fun e _ => hok e) (At.notes x _)

end

/-! ### The new process -/

/-- The process id that a template or CRIU reports. -/
def Reported (env : Env) (pid : Option ℕ) : Prop := ∃ n, env.pid n = pid

theorem answer_at {x : Core} {E : Err → World → Prop} :
    Triple (At x) (answer env) (fun pid w => Reported env pid ∧ At x w) E := by
  refine Triple.bind (Q := fun _ => At x) (Triple.update (At.ticks env x).tick) fun _ => ?_
  exact Triple.read fun w h => ⟨⟨w.clock, rfl⟩, h⟩

theorem switchOverlay_at {x : Core} {S : Core → Prop} {layers : List String} {upper work : String}
    (hx : S x) :
    Triple (At x) (switchOverlay env layers upper work)
      (fun _ => At (x.mount ⟨layers, upper, work⟩)) fun _ w => S w.box.core := by
  refine attempt_at hx fun _ => ?_
  exact Triple.bind act_at fun _ => act_at

/-- **CRIU** leaves the target mounted, whoever of the two has switched the overlay. -/
theorem criuRestore_at {x : Core} {S : Core → Prop} {t : Target} {switched : Bool}
    {upper work : String} (hpar : (cfg.enableCriuLazyRestore && cfg.parallelLazyRestore) || switched)
    (hx : S x) (hm : S (x.mount ⟨t.entry.layers, upper, work⟩)) :
    Triple (At (if switched then x.mount ⟨t.entry.layers, upper, work⟩ else x))
      (criuRestore env cfg t switched upper work)
      (fun pid w => Reported env pid ∧ At (x.mount ⟨t.entry.layers, upper, work⟩) w)
      fun _ w => S w.box.core := by
  generalize hy : (if switched then x.mount ⟨t.entry.layers, upper, work⟩ else x) = y
  have hSy : S y := by
    rw [← hy]
    split
    · exact hm
    · exact hx
  refine attempt_at hSy fun _ => ?_
  refine attempt_at hSy fun _ => ?_
  refine attempt_at hSy fun _ => ?_
  refine Triple.bind (Q := fun _ => At (x.mount ⟨t.entry.layers, upper, work⟩))
    (Triple.onlyIf (fun hc => ?_) fun w hw hc => ?_) fun _ => ?_
  · obtain rfl : switched = false := by simpa using (Bool.and_eq_true_iff.mp hc).2
    obtain rfl : x = y := hy
    exact switchOverlay_at hx
  · obtain rfl : switched = true := by
      cases switched with
      | true => rfl
      | false =>
        rw [Bool.or_false] at hpar
        simp [hpar] at hc
    exact hw.trans hy.symm
  refine attempt_at hm fun _ => ?_
  refine Triple.bind answer_at fun pid => Triple.of_pure fun hpid => ?_
  refine Triple.bind (Keeps.stops Keeps.read hm) fun proc => ?_
  refine Triple.bind (Keeps.stops (Keeps.onlyIf fun _ => Keeps.act_at rfl) hm) fun _ => ?_
  exact Triple.pure fun w hw => ⟨hpid, hw⟩

/-- **The restored process becomes the active one.** -/
theorem activate_at {x : Core} {S : Core → Prop} {t : Target} {external : Bool} {pid : Option ℕ}
    (hx : S x) (hpid : ∀ p, pid = some p → S (x.activate external (some p))) :
    Triple (At x) (activate env cfg t external pid)
      (fun _ w => (t.entry.exactParent = true → ∃ p, pid = some p ∧ 1 < p) ∧
        At (x.activate external pid) w) fun _ w => S w.box.core := by
  rcases pid with _ | p
  · refine Triple.require (fun w hw hc => ⟨fun hexact => ?_, hw⟩) fun w hw _ => ?_
    · simp [hexact] at hc
    · have hcore : w.box.core = x := hw
      rwa [hcore]
  have hS := hpid p rfl
  refine Triple.bind (Keeps.stops (Keeps.look (At.ticks env x)) hx) fun isInit => ?_
  refine Triple.bind (Q := fun _ w => (t.entry.exactParent = true → 1 < p) ∧ At x w)
    (Triple.require (fun w hw hc => ⟨fun hexact => ?_, hw⟩) fun w hw _ => ?_) fun _ =>
      Triple.of_pure fun hone => ?_
  · simp only [hexact, Bool.not_true, Bool.false_or, Bool.and_eq_true, decide_eq_true_eq] at hc
    exact hc.1
  · have hcore : w.box.core = x := hw
    rwa [hcore]
  refine Triple.bind (Q := fun _ => At { x with agentPid := p }) act_at fun _ => ?_
  refine Triple.bind (Q := fun _ => At { x with agentPid := p }) (Triple.update fun _ h => h)
    fun _ => ?_
  refine Triple.bind (Q := fun _ => At (x.activate external (some p)))
    (Triple.onlyIf (fun hc => ?_) fun w hw hc => ?_) fun _ => ?_
  · obtain rfl : external = false := by simpa using hc
    exact act_at
  · obtain rfl : external = true := by simpa using hc
    exact hw
  refine attempt_at hS fun _ => ?_
  refine Triple.mono (fun _ h => h) (fun _ w hw => ⟨fun hexact => ⟨p, rfl, hone hexact⟩, hw⟩)
    (fun _ _ h => h) (Keeps.stops (Keeps.onlyIf fun _ => Keeps.act_at rfl) hS)

/-! ### Calls -/

/-- The new task overlay of a call. -/
def newTask (cfg : Config) (restoreId : String) (layers : List String) : Mounted where
  lowers := layers
  upper := Overlay.join cfg.layersRoot ("restore_" ++ restoreId ++ "_upper")
  work := Overlay.join cfg.layersRoot ("restore_" ++ restoreId ++ "_work")

/-- A call that returns has gone through all stages. Unless it may fall back, it has done so with a
template's fork. -/
inductive Returned (env : Env) (cfg : Config) (allowColdFallback : Bool) (id : String) (e : Entry)
    (m : Mounted) (x : Core) : Path → Core → Prop where
  /-- A template has forked a child. The namespace stays. -/
  | warm {child : ℕ} (hforce : cfg.forceCriuRestore = false) (hchild : Reported env (some child)) :
    Returned env cfg allowColdFallback id e m x .warmTemplate
      (((x.rolledBack id).mount m).activate true (some child)).bump
  /-- CRIU has restored a process. Only for an image without a pinned parent the pid may be missing. -/
  | cold {external : Bool} {pid : Option ℕ} (hallow : allowColdFallback = true)
      (hpid : Reported env pid) (hexact : e.exactParent = true → ∃ p, pid = some p ∧ 1 < p) :
    Returned env cfg allowColdFallback id e m x
      (if cfg.enableCriuLazyRestore then .criuLazy else .criu)
      (((x.rolledBack id).mount m).activate external pid).bump

section

variable {t : Target} {allow : Bool} {rid : String} {m : Mounted} {x : Core}

theorem coldRestore_at {switched : Bool} {upper work : String}
    (hm : m = ⟨t.entry.layers, upper, work⟩) (hallow : allow = true)
    (hpar : (cfg.enableCriuLazyRestore && cfg.parallelLazyRestore) || switched) :
    Triple (At (if switched then (x.rolledBack t.id).mount m else x.rolledBack t.id))
      (coldRestore env cfg t switched upper work)
      (fun r w => r.2 = t.replayCmds ∧ Returned env cfg allow t.id t.entry m x r.1 w.box.core)
      fun _ w => Left t.id m x w.box.core := by
  obtain ⟨y, hy⟩ : ∃ y, (if switched then (x.rolledBack t.id).mount m else x.rolledBack t.id) = y :=
    ⟨_, rfl⟩
  have hSy : Left t.id m x y := by
    rw [← hy]
    split
    · exact .mounted
    · exact .rolled
  have hI := At.ticks env y
  rw [hy]
  refine Triple.bind (Keeps.stops (Keeps.current hI) hSy) fun e => ?_
  refine Triple.bind (Keeps.stops (Keeps.look hI) hSy) fun seen => ?_
  refine Triple.bind (Keeps.stops (Keeps.onlyIf fun _ => Keeps.takeNamespace_at fun _ => trivial)
    hSy) fun _ => ?_
  refine Triple.bind (Keeps.stops (Keeps.onlyIf fun _ => Keeps.replaceNamespace_at fun _ => trivial)
    hSy) fun _ => ?_
  rw [← hy, hm]
  refine Triple.bind (criuRestore_at hpar .rolled .mounted) fun pid => Triple.of_pure fun hpid => ?_
  refine Triple.bind (activate_at .mounted fun p _ => .active _ p) fun _ =>
    Triple.of_pure fun hexact => ?_
  refine Triple.bind (Q := fun _ => At _) (Triple.onlyIf (fun _ => ?_) fun _ hw _ => hw) fun _ => ?_
  · exact Triple.update fun _ hw => hw
  refine Triple.bind act_at fun _ => Triple.pure fun w hw => ⟨rfl, ?_⟩
  have hcore : w.box.core = _ := hw
  rw [hcore]
  exact .cold hallow hpid hexact

theorem awaitFork_at {y : Core} {pid : ℕ} {S : Core → Prop} (hy : S y) :
    Triple (At y) (awaitFork env pid)
      (fun child w => (∀ c, child = some c → Reported env (some c)) ∧ At y w)
      fun _ w => S w.box.core := by
  have hI := At.ticks env y
  refine Triple.bind (Keeps.stops (Keeps.attempt hI) hy) fun ok => ?_
  refine Triple.bind (Keeps.stops (Keeps.look hI) hy) fun isInit => ?_
  refine Triple.bind (Keeps.stops (Keeps.onlyIf fun _ => Keeps.act_at rfl) hy) fun _ => ?_
  refine Triple.bind answer_at fun child => Triple.of_pure fun hchild => ?_
  refine Triple.pure fun w hw => ⟨fun c hc => ?_, hw⟩
  cases ok with
  | true => exact hc ▸ hchild
  | false => cases hc

theorem warmRestore_at {pid : ℕ} {upper work : String} (hm : m = ⟨t.entry.layers, upper, work⟩)
    (hforce : cfg.forceCriuRestore = false) :
    Triple (At (x.rolledBack t.id)) (warmRestore env t pid allow upper work)
      (fun r w => match r with
        | some r => r.2 = t.replayCmds ∧ Returned env cfg allow t.id t.entry m x r.1 w.box.core
        | none => allow = true ∧ At ((x.rolledBack t.id).mount m) w)
      fun _ w => Left t.id m x w.box.core := by
  have hI := At.ticks env (x.rolledBack t.id)
  have hI' := At.ticks env ((x.rolledBack t.id).mount m)
  refine Triple.bind (Keeps.stops (Keeps.attempt hI) .rolled) fun dispatched => ?_
  refine Triple.bind (Keeps.stops (Keeps.onlyIf fun _ => Keeps.act_at rfl) .rolled) fun _ => ?_
  refine Triple.bind (switchOverlay_at .rolled) fun _ => ?_
  rw [← hm]
  refine Triple.bind (Q := fun child w => (∀ c, child = some c → Reported env (some c)) ∧
    At ((x.rolledBack t.id).mount m) w) ?_ fun child => Triple.of_pure fun hchild => ?_
  · cases dispatched with
    | true => exact awaitFork_at .mounted
    | false => exact Triple.pure fun w hw => ⟨fun c hc => (by cases hc), hw⟩
  cases child with
  | some c =>
    refine Triple.bind act_at fun _ => ?_
    refine Triple.bind (Q := fun _ => At ((Change.setAgent c).after ((x.rolledBack t.id).mount m)))
      (Triple.update fun _ hw => hw) fun _ => ?_
    refine Triple.bind act_at fun _ => Triple.pure fun w hw => ⟨rfl, ?_⟩
    have hcore : w.box.core = _ := hw
    rw [hcore]
    exact .warm hforce (hchild c rfl)
  | none =>
    refine Triple.bind (Q := fun _ w => allow = true ∧ At ((x.rolledBack t.id).mount m) w)
      (Triple.require (fun w hw hc => ⟨hc, hw⟩) fun w hw _ => ?_) fun _ =>
        Triple.of_pure fun hallow => ?_
    · have hcore : w.box.core = _ := hw
      rw [hcore]
      exact .mounted
    refine Triple.bind (Keeps.stops (Keeps.joinDurableDump hI' (fun _ _ => trivial)
      (At.notes _ _)) .mounted) fun _ => ?_
    refine Triple.bind (Keeps.stops (Keeps.checkDumpError hI' (fun _ _ => trivial)
      (At.notes _ _)) .mounted) fun _ => ?_
    exact Triple.pure fun w hw => ⟨hallow, hw⟩

theorem rebuild_at (hm : m = newTask cfg rid t.entry.layers)
    (hforce : t.templatePid.isSome → cfg.forceCriuRestore = false)
    (hallow : t.templatePid.isSome || allow) :
    Triple (At (x.rolledBack t.id)) (rebuild env cfg t allow rid)
      (fun r w => r.2 = t.replayCmds ∧ Returned env cfg allow t.id t.entry m x r.1 w.box.core)
      fun _ w => Left t.id m x w.box.core := by
  rw [rebuild]
  cases htemplate : t.templatePid with
  | some pid =>
    refine Triple.bind (warmRestore_at hm (hforce (by rw [htemplate]; rfl))) fun r => ?_
    cases r with
    | some r => exact Triple.pure fun w hw => hw
    | none =>
      refine Triple.of_pure fun hallow => ?_
      exact @coldRestore_at env cfg t allow m x true _ _ hm hallow (Bool.or_true _)
  | none =>
    rw [htemplate] at hallow
    obtain ⟨parallel, hparallel⟩ :
        ∃ p, (cfg.enableCriuLazyRestore && cfg.parallelLazyRestore) = p := ⟨_, rfl⟩
    simp only [hparallel]
    refine Triple.bind (Q := fun _ => At (if !parallel then (x.rolledBack t.id).mount m
      else x.rolledBack t.id)) (Triple.onlyIf (fun hc => ?_) fun w hw hc => ?_) fun _ => ?_
    · rw [hc, hm]
      exact switchOverlay_at .rolled
    · rw [hc]
      exact hw
    · refine coldRestore_at hm hallow ?_
      rw [hparallel]
      exact Bool.or_not_self parallel

/-- **A call past its questions stops where `Left` says, or returns.** -/
theorem commit_stages (hm : m = newTask cfg rid t.entry.layers)
    (hforce : t.templatePid.isSome → cfg.forceCriuRestore = false)
    (hallow : t.templatePid.isSome || allow) :
    Triple (At x) (commit env cfg t allow rid)
      (fun r w => r.2 = t.replayCmds ∧ Returned env cfg allow t.id t.entry m x r.1 w.box.core)
      fun _ w => Left t.id m x w.box.core := by
  have hI := At.ticks env x
  refine Triple.bind (Keeps.stops (Keeps.joinActiveDumpBeforeKill hI fun _ => trivial) .same)
    fun _ => ?_
  refine Triple.bind (rootOverlaysRestore_at fun h k hk => .fresh k hk h) fun _ => ?_
  refine Triple.bind (Keeps.stops (Keeps.killActiveSubtree_at fun _ => trivial) .rolled) fun _ => ?_
  exact rebuild_at hm hforce hallow

end

/-- The entry that a call finds under an id. -/
def Seen (env : Env) (b : Sandbox) (id : String) (e : Entry) : Prop :=
  ∃ n, (env.others n b).registry.find? id = some e

/-- What a call knows about its target. -/
structure Found (env : Env) (cfg : Config) (b : Sandbox) (targetId : String) (allow : Bool)
    (t : Target) : Prop where
  /-- The entry, and the one whose process it goes back to. -/
  seen : ∃ target, Seen env b targetId target ∧
    target.effectiveRestoreId.getD (some targetId) = some t.id ∧ Seen env b t.id t.entry ∧
    t.replayCmds = target.replayCmds
  /-- A template is used unless CRIU is forced. -/
  force : t.templatePid.isSome → cfg.forceCriuRestore = false
  /-- A call that must not be cold has a template. -/
  allow : t.templatePid.isSome || allow

theorem look_seen {α : Type} {f : Sandbox → α} {b : Sandbox} {E : Err → World → Prop} :
    Triple (Quiet env b) (look env f) (fun a w => (∃ n, a = f (env.others n b)) ∧ Quiet env b w)
      E := by
  refine Triple.bind (Q := fun _ => Quiet env b) (Triple.update (Quiet.ticks env b).tick) fun _ => ?_
  exact Triple.read fun w h => ⟨⟨w.clock, by rw [h.box]⟩, h⟩

theorem preflight_found {targetId : String} {allow : Bool} {b : Sandbox} :
    Triple (Quiet env b) (preflight env cfg targetId allow)
      (fun t w => Found env cfg b targetId allow t ∧ At b.core w) fun _ => At b.core := by
  have hcore : ∀ w, Quiet env b w → At b.core w := by
    intro w h
    rw [At, h.box]
    exact env.others_core _ b
  have hI := Quiet.ticks env b
  have hn : ∀ c, Notes (Quiet env b) (.check c) := fun _ => Quiet.notes rfl
  have hkeep : ∀ {α : Type} {m : Action α}, Keeps (Quiet env b) (fun _ => True) m →
      Triple (Quiet env b) m (fun _ => Quiet env b) fun _ => At b.core := fun h =>
    Triple.mono (fun _ h => h) (fun _ _ h => h) (fun _ w hw => hcore w hw.1) h
  refine Triple.bind (hkeep (Keeps.note (hn _))) fun _ => ?_
  refine Triple.bind look_seen fun target => Triple.of_pure fun ⟨n, htarget⟩ => ?_
  rcases target with _ | target
  · exact Triple.raise hcore
  refine Triple.bind (hkeep (Keeps.record hI)) fun _ => ?_
  refine Triple.bind (hkeep (Keeps.templateGet hI)) fun found => ?_
  obtain ⟨templatePid, htemplate⟩ :
      ∃ p, (if cfg.forceCriuRestore then none else found) = p := ⟨_, rfl⟩
  simp only [htemplate]
  have hforce : templatePid.isSome → cfg.forceCriuRestore = false := by
    intro hsome
    cases hf : cfg.forceCriuRestore with
    | false => rfl
    | true => simp [← htemplate, hf] at hsome
  refine Triple.bind (hkeep (Keeps.note (Quiet.notes rfl))) fun _ => ?_
  refine Triple.bind (hkeep (Keeps.note (hn _))) fun _ => ?_
  refine Triple.bind (Q := fun _ w => (templatePid.isSome || allow) = true ∧ Quiet env b w)
    (Triple.require (fun w hw hc => ⟨hc, hw⟩) fun w hw _ => hcore w hw) fun _ =>
      Triple.of_pure fun hallow => ?_
  refine Triple.bind (hkeep (Keeps.note (hn _))) fun _ => ?_
  refine Triple.bind look_seen fun physical => Triple.of_pure fun ⟨n', hphysical⟩ => ?_
  cases heffective : target.effectiveRestoreId.getD (some targetId) with
  | none => exact Triple.raise hcore
  | some id =>
    rw [heffective] at hphysical
    cases physical with
    | none => exact Triple.raise hcore
    | some entry =>
      have hseen : ∃ found, Seen env b targetId found ∧
          found.effectiveRestoreId.getD (some targetId) = some id ∧ Seen env b id entry ∧
          target.replayCmds = found.replayCmds :=
        ⟨target, ⟨n, htarget.symm⟩, heffective, ⟨n', hphysical.symm⟩, rfl⟩
      cases templatePid with
      | some pid => exact Triple.pure fun w hw => ⟨⟨hseen, hforce, hallow⟩, hcore w hw⟩
      | none =>
        refine Triple.bind (hkeep (Keeps.coldChecks hI (fun _ _ => trivial) hn)) fun external => ?_
        exact Triple.pure fun w hw => ⟨⟨hseen, hforce, hallow⟩, hcore w hw⟩

/-- **What a restore leaves behind.** Take any call of `restore_action`, with any interference of
other threads and any outcome of its system calls. If it returns, it has gone through all its stages
for one entry. If it raises, it has changed nothing, or stopped at one of them. -/
theorem restore_stages {targetId : String} {allowColdFallback : Bool} {restoreId : String}
    {b : Sandbox} {k : Book} {r : Except Err (Path × List String)} {w : World}
    (h : call env cfg targetId allowColdFallback restoreId b k = (r, w)) :
    (∀ path cmds, r = .ok (path, cmds) → ∃ target id e, Seen env b targetId target ∧
      target.effectiveRestoreId.getD (some targetId) = some id ∧ Seen env b id e ∧
      cmds = target.replayCmds ∧
      Returned env cfg allowColdFallback id e (newTask cfg restoreId e.layers) b.core path
        w.box.core) ∧
    (∀ err, r = .error err → w.box.core = b.core ∨ ∃ target id e, Seen env b targetId target ∧
      target.effectiveRestoreId.getD (some targetId) = some id ∧ Seen env b id e ∧
      Left id (newTask cfg restoreId e.layers) b.core w.box.core) := by
  have hstart : Quiet env b ⟨b, k, 0, []⟩ := ⟨rfl, by simp⟩
  rcases hp : preflight env cfg targetId allowColdFallback ⟨b, k, 0, []⟩ with ⟨e | t, w₁⟩
  · obtain ⟨rfl, rfl⟩ := Prod.mk.inj ((Prog.bind_of_error hp).symm.trans h)
    exact ⟨fun _ _ hr => (by cases hr), fun _ _ => .inl (preflight_found.of_error hstart hp)⟩
  have hc : commit env cfg t allowColdFallback restoreId w₁ = (r, w) :=
    (Prog.bind_of_ok hp).symm.trans h
  obtain ⟨⟨⟨target, hseen, hid, hentry, hcmds⟩, hforce, hallow⟩, hat⟩ :=
    preflight_found.of_ok hstart hp
  have hstages : Triple (At b.core) (commit env cfg t allowColdFallback restoreId) _ _ :=
    commit_stages rfl hforce hallow
  refine ⟨fun path cmds hr => ?_, fun err hr => ?_⟩
  · subst hr
    obtain ⟨hcmds', hreturned⟩ := hstages.of_ok hat hc
    exact ⟨target, t.id, t.entry, hseen, hid, hentry, hcmds'.trans hcmds, hreturned⟩
  · subst hr
    exact .inr ⟨target, t.id, t.entry, hseen, hid, hentry, hstages.of_error hat hc⟩

/-- The sandbox, with a template of the checkpoint "a". -/
def templateBox : Sandbox :=
  { exampleBox with procs := exampleBox.procs.set 6 ⟨5, .stopped, 1, [6, 3]⟩ }

/-- The controller's notes about it. -/
def templateBook : Book := { exampleBook with templates := some (Dict.empty.set "a" 6) }

/-- Forks report the process 9. -/
def forkingEnv : Env := { exampleEnv with pid := fun _ => some 9 }

theorem restore_stages_forked :
    (call forkingEnv exampleConfig "l" false "r" templateBox templateBook).1 =
        .ok (.warmTemplate, []) ∧
      ∃ id e, Seen forkingEnv templateBox id e ∧
        Returned forkingEnv exampleConfig false id e (newTask exampleConfig "r" e.layers)
          templateBox.core .warmTemplate
          (call forkingEnv exampleConfig "l" false "r" templateBox templateBook).2.box.core := by
  have hok : (call forkingEnv exampleConfig "l" false "r" templateBox templateBook).1 =
      .ok (.warmTemplate, []) := by decide +kernel
  obtain ⟨-, id, e, -, -, hseen, -, hreturned⟩ := (restore_stages (Prod.ext hok rfl)).1 _ _ rfl
  exact ⟨hok, id, e, hseen, hreturned⟩

end Restore

end DeltaBox
