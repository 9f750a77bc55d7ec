import DeltaBox.Restore.Action

/-!
# A rejected restore leaves the sandbox untouched

Two code paths ask the same questions at different moments. A call that knows it will be cold asks
them first. A warm call whose fork fails asks them when the active subtree is already dead, so "a
rejection changes nothing" can only be said of the first path, and of a warm call up to its kill.

On the cold path two questions are asked twice: the permission to clear the template pool, and the
drain of the disposable writers. The second time comes after the sandbox has been taken apart, so it
must not be able to reject. The permission does not change during a call. The drain is a race with
the dump workers, but one that they can only help: a dump that is over stays over, and the call adds
no entry (`Drained`).

## Main results

* `preflight_quiet` — the questions change nothing
* `preflight_ready` — what a cold call knows when it starts to change things
* `commit_cold` — a cold call that has started to change things is never rejected
* `rejected_restore_untouched` — the statement about whole calls
-/

namespace DeltaBox

namespace Restore

open Prog

/-! ### The other threads -/

theorem Env.others_frame (env : Env) (n : ℕ) (b : Sandbox) :
    env.others n b =
      { b with registry := (env.others n b).registry, procs := (env.others n b).procs } := by
  induction n with
  | zero => rfl
  | succ n ih =>
    rw [Env.others, (env.background n).frame, ih]

/-- An entry after a step of another thread was there before it. -/
theorem Background.progress_of_find? {g : Background} {b : Sandbox} {id : String} {e' : Entry}
    (h : (g.step b).registry.find? id = some e') :
    ∃ e, b.registry.find? id = some e ∧ e.Progress e' := by
  rw [Dict.find?_eq_some_iff] at h
  obtain ⟨n, hn, hget⟩ := List.mem_iff_getElem.mp h
  have hlen := (g.registry b).length_eq
  have hp := List.Forall₂.get (g.registry b) (hlen ▸ hn) hn
  simp only [List.get_eq_getElem, hget] at hp
  refine ⟨_, Dict.find?_eq_some_iff.mpr ?_, hp.2⟩
  have hmem := List.getElem_mem (hlen ▸ hn : n < b.registry.entries.length)
  rwa [show b.registry.entries[n] = (id, (b.registry.entries[n]).2) from
    Prod.ext hp.1.symm rfl] at hmem

theorem Entry.Progress.drained {e e' : Entry} (h : e.Progress e') (hd : e.Drained) :
    e'.Drained := by
  intro hp hf
  have hdone := hd (h.exactParent ▸ hp) (h.future ▸ hf)
  exact ⟨h.done hdone.1, h.disposeDone hdone.1 hdone.2⟩

/-! ### Predicates that code keeps -/

/-- `m` keeps `I`, and what it raises meets `ok`. -/
def Keeps {α : Type} (I : World → Prop) (ok : Err → Prop) (m : Action α) : Prop :=
  Triple I m (fun _ => I) fun e w => I w ∧ ok e

/-- `I` survives the turns of the other threads, and does not speak of the controller's notes. -/
structure Ticks (env : Env) (I : World → Prop) : Prop where
  /-- A turn of the other threads. -/
  tick : ∀ w, I w →
    I { w with box := (env.background w.clock).step w.box, clock := w.clock + 1 }
  /-- A note. -/
  record : ∀ (w : World) (f : Book → Book), I w → I { w with book := f w.book }

/-- `I` survives the changes of the call, too. -/
structure Acts (env : Env) (I : World → Prop) : Prop extends Ticks env I where
  /-- A change. -/
  act : ∀ (w : World) (c : Change), I w → I { w with box := c.apply w.box, log := w.log ++ [.change c] }

/-- `I` survives an addition to the log. -/
def Notes (I : World → Prop) (e : Event) : Prop := ∀ w, I w → I { w with log := w.log ++ [e] }

namespace Keeps

variable {α β : Type} {env : Env} {cfg : Config} {I : World → Prop} {ok : Err → Prop}
  {m : Action α} {f : α → Action β} {a : α}

theorem pure : Keeps I ok (Pure.pure a) := Triple.pure fun _ h => h

theorem read {g : World → α} : Keeps I ok (Prog.read g) := Triple.read fun _ h => h

theorem raise {e : Err} (h : ok e) : Keeps I ok (Prog.raise e : Action α) :=
  Triple.raise fun _ hI => ⟨hI, h⟩

theorem bind (hm : Keeps I ok m) (hf : ∀ a, Keeps I ok (f a)) : Keeps I ok (m >>= f) :=
  Triple.bind hm hf

theorem require {c : Bool} {e : Err} (h : ok e) : Keeps I ok (Prog.require c e) :=
  Triple.require (fun _ hI _ => hI) fun _ hI _ => ⟨hI, h⟩

theorem onlyIf {c : Bool} {m : Action Unit} (h : c = true → Keeps I ok m) :
    Keeps I ok (Prog.onlyIf c m) :=
  Triple.onlyIf h fun _ hI _ => hI

theorem forEach {γ : Type} {g : γ → Action Unit} {xs : List γ} (h : ∀ x ∈ xs, Keeps I ok (g x)) :
    Keeps I ok (Prog.forEach g xs) :=
  Triple.forEach h

/-- However the run ends. -/
theorem holds_after {w w' : World} {r : Except Err α} (h : Keeps I ok m) (hw : I w)
    (hm : m w = (r, w')) : I w' := by
  rcases r with e | a
  · exact (Triple.of_error h hw hm).1
  · exact Triple.of_ok h hw hm

theorem note {e : Event} (h : Notes I e) : Keeps I ok (note e) := Triple.update h

section

variable (hI : Ticks env I)
include hI

theorem tick : Keeps I ok (tick env) := Triple.update hI.tick

theorem record {g : Book → Book} : Keeps I ok (record g) := Triple.update fun w => hI.record w g

theorem look {g : Sandbox → α} : Keeps I ok (look env g) := (tick hI).bind fun _ => read

theorem attempt : Keeps I ok (attempt env) := (tick hI).bind fun _ => read

theorem answer : Keeps I ok (answer env) := (tick hI).bind fun _ => read

theorem current {id : String} {e : Entry} : Keeps I ok (current env id e) := look hI

end

theorem act (hI : Acts env I) {c : Change} : Keeps I ok (act env c) :=
  (tick hI.toTicks).bind fun _ => Triple.update fun w => hI.act w c

/-! ### The questions -/

section

variable (hI : Ticks env I)
include hI

theorem templateGet {id : Option String} : Keeps I ok (templateGet env id) := by
  refine read.bind fun templates => ?_
  rcases id with _ | id
  · exact pure
  rcases templates with _ | pool
  · exact pure
  cases hp : pool.find? id with
  | none => simpa only [hp] using pure
  | some pid =>
    simp only [hp]
    refine (look hI).bind fun alive => ?_
    exact (onlyIf fun _ => record hI).bind fun _ => pure

theorem joinActiveDumpBeforeKill (hok : ∀ id, ok (.activeInterrupt id)) :
    Keeps I ok (joinActiveDumpBeforeKill env) := by
  refine read.bind fun owner => ?_
  split
  · exact pure
  · exact pure
  refine (look hI).bind fun entry => ?_
  rcases entry with _ | entry
  · exact pure
  refine (look hI).bind fun agent => ?_
  exact (current hI).bind fun _ => (current hI).bind fun _ => require (hok _)

variable (hok : ∀ e, e.isRejection = true → ok e)
include hok

theorem joinDurableDump {id : String} {e : Entry} (hn : Notes I (.check .dump)) :
    Keeps I ok (joinDurableDump env id e) := by
  refine (note hn).bind fun _ => (current hI).bind fun before => ?_
  rcases before.dumpFuture with _ | f
  · exact pure
  refine (current hI).bind fun after => ?_
  split
  · exact raise (hok _ rfl)
  · exact raise (hok _ rfl)
  · exact raise (hok _ rfl)
  · exact pure

theorem checkDumpError {id : String} {e : Entry} (hn : Notes I (.check .recorded)) :
    Keeps I ok (checkDumpError env id e) := by
  refine (note hn).bind fun _ => (current hI).bind fun e => ?_
  split
  · exact raise (hok _ rfl)
  · exact pure

theorem drainEntry {p : String × Entry} : Keeps I ok (drainEntry env p) := by
  refine (current hI).bind fun _ => (current hI).bind fun _ => ?_
  refine (require (hok _ rfl)).bind fun _ => (current hI).bind fun _ => ?_
  exact require (hok _ rfl)

theorem drainBeforeNamespaceTeardown (hn : Notes I (.check .drain)) :
    Keeps I ok (drainBeforeNamespaceTeardown env) := by
  refine (note hn).bind fun _ => (look hI).bind fun _ => ?_
  exact forEach fun _ _ => drainEntry hI hok

theorem coldChecks {id : String} {e : Entry} (hn : ∀ c, Notes I (.check c)) :
    Keeps I ok (coldChecks env cfg id e) := by
  refine (joinDurableDump hI hok (hn _)).bind fun _ => ?_
  refine (checkDumpError hI hok (hn _)).bind fun _ => ?_
  refine (current hI).bind fun _ => (look hI).bind fun external => ?_
  refine (onlyIf fun _ => (note (hn _)).bind fun _ => require (hok _ rfl)).bind fun _ => ?_
  refine (onlyIf fun _ => drainBeforeNamespaceTeardown hI hok (hn _)).bind fun _ => ?_
  exact pure

theorem preflight {targetId : String} {allow : Bool} (hn : ∀ c, Notes I (.check c))
    (ht : ∀ pid, Notes I (.template pid)) : Keeps I ok (preflight env cfg targetId allow) := by
  refine (note (hn _)).bind fun _ => (look hI).bind fun target => ?_
  rcases target with _ | target
  · exact raise (hok _ rfl)
  refine (record hI).bind fun _ => (templateGet hI).bind fun found => ?_
  refine (note (ht _)).bind fun _ => (note (hn _)).bind fun _ => ?_
  refine (require (hok _ rfl)).bind fun _ => (note (hn _)).bind fun _ => (look hI).bind fun e => ?_
  split
  · split
    · exact pure
    · exact (coldChecks hI hok hn).bind fun _ => pure
  · exact raise (hok _ rfl)

end

/-! ### The changes -/

section

variable (hI : Acts env I) (hok : ∀ e, e.isRejection = false → ok e)
include hI hok

theorem rootOverlayRestore {id : String} {i : ℕ} : Keeps I ok (rootOverlayRestore env id i) := by
  refine (look hI.toTicks).bind fun o => ?_
  rcases o with _ | o
  · exact pure
  cases hc : o.snapshots.find? id with
  | none => simpa only [hc] using raise (hok _ rfl)
  | some chain =>
    simp only [hc]
    refine (act hI).bind fun _ => (attempt hI.toTicks).bind fun _ => ?_
    exact (require (hok _ rfl)).bind fun _ => act hI

theorem rootOverlaysRestore {id : String} : Keeps I ok (rootOverlaysRestore env id) :=
  (look hI.toTicks).bind fun _ => onlyIf fun _ => forEach fun _ _ => rootOverlayRestore hI hok

theorem killAndReap {templates toKill : List ℕ} {agent : ℕ} {reaper : Option ℕ} {child : ℕ} :
    Keeps I ok (killAndReap env cfg templates toKill agent reaper child) := by
  refine (forEach fun _ _ => act hI).bind fun _ => (attempt hI.toTicks).bind fun _ => ?_
  refine (tick hI.toTicks).bind fun _ => (look hI.toTicks).bind fun _ => ?_
  refine (attempt hI.toTicks).bind fun _ => (attempt hI.toTicks).bind fun _ => ?_
  refine (onlyIf fun _ => act hI).bind fun _ => (tick hI.toTicks).bind fun _ => ?_
  exact (onlyIf fun _ => record hI.toTicks).bind fun _ => require (hok _ rfl)

theorem killActiveSubtree (hn : Notes I .killing) : Keeps I ok (killActiveSubtree env cfg) := by
  refine (joinActiveDumpBeforeKill hI.toTicks fun _ => hok _ rfl).bind fun _ => read.bind fun _ => ?_
  refine (look hI.toTicks).bind fun _ => (look hI.toTicks).bind fun _ => ?_
  refine (record hI.toTicks).bind fun _ => (look hI.toTicks).bind fun _ => ?_
  exact (look hI.toTicks).bind fun _ => (note hn).bind fun _ => killAndReap hI hok

theorem switchOverlay {layers : List String} {upper work : String} :
    Keeps I ok (switchOverlay env layers upper work) := by
  refine (attempt hI.toTicks).bind fun _ => (require (hok _ rfl)).bind fun _ => ?_
  exact (act hI).bind fun _ => act hI

theorem clearTemplatesForExternalRestore
    (hc : Keeps I ok (checkExternalRestorePoolClearAllowed cfg)) :
    Keeps I ok (clearTemplatesForExternalRestore env cfg) := by
  refine hc.bind fun _ => read.bind fun _ => read.bind fun _ => ?_
  refine (look hI.toTicks).bind fun _ => (look hI.toTicks).bind fun _ => ?_
  refine (look hI.toTicks).bind fun _ => (forEach fun _ _ => act hI).bind fun _ => ?_
  refine (record hI.toTicks).bind fun _ => (look hI.toTicks).bind fun _ => read.bind fun _ => ?_
  refine (attempt hI.toTicks).bind fun _ => ?_
  refine (onlyIf fun _ => forEach fun _ _ => act hI).bind fun _ => (tick hI.toTicks).bind fun _ => ?_
  exact (look hI.toTicks).bind fun _ => require (hok _ rfl)

theorem criuRestore {t : Target} {switched : Bool} {upper work : String} :
    Keeps I ok (criuRestore env cfg t switched upper work) := by
  refine (attempt hI.toTicks).bind fun _ => (require (hok _ rfl)).bind fun _ => ?_
  refine (attempt hI.toTicks).bind fun _ => (require (hok _ rfl)).bind fun _ => ?_
  refine (attempt hI.toTicks).bind fun _ => (require (hok _ rfl)).bind fun _ => ?_
  refine (onlyIf fun _ => switchOverlay hI hok).bind fun _ => (attempt hI.toTicks).bind fun _ => ?_
  refine (require (hok _ rfl)).bind fun _ => (answer hI.toTicks).bind fun _ => read.bind fun _ => ?_
  exact (onlyIf fun _ => act hI).bind fun _ => pure

theorem activate {t : Target} {external : Bool} {pid : Option ℕ} :
    Keeps I ok (activate env cfg t external pid) := by
  rcases pid with _ | pid
  · exact require (hok _ rfl)
  refine (look hI.toTicks).bind fun _ => (require (hok _ rfl)).bind fun _ => ?_
  refine (act hI).bind fun _ => (record hI.toTicks).bind fun _ => ?_
  refine (onlyIf fun _ => act hI).bind fun _ => (attempt hI.toTicks).bind fun _ => ?_
  exact (require (hok _ rfl)).bind fun _ => onlyIf fun _ => act hI

theorem coldRestore {t : Target} {switched : Bool} {upper work : String}
    (hpool : t.external ≠ some false → Keeps I ok (checkExternalRestorePoolClearAllowed cfg))
    (hdrain : t.external ≠ some true → cfg.asyncIncremental = true →
      Keeps I ok (Restore.drainBeforeNamespaceTeardown env)) :
    Keeps I ok (coldRestore env cfg t switched upper work) := by
  refine (current hI.toTicks).bind fun _ => (look hI.toTicks).bind fun seen => ?_
  refine (onlyIf fun hex => ?_).bind fun _ => (onlyIf fun hex => ?_).bind fun _ => ?_
  · have hne : t.external ≠ some false := fun h => by simp [h] at hex
    refine (clearTemplatesForExternalRestore hI hok (hpool hne)).bind fun _ => ?_
    exact (attempt hI.toTicks).bind fun _ => require (hok _ rfl)
  · have hne : t.external ≠ some true := fun h => by simp [h] at hex
    refine (onlyIf fun has => hdrain hne has).bind fun _ => ?_
    exact (look hI.toTicks).bind fun _ => act hI
  refine (criuRestore hI hok).bind fun _ => (activate hI hok).bind fun _ => ?_
  refine (onlyIf fun _ => record hI.toTicks).bind fun _ => (act hI).bind fun _ => ?_
  exact pure

end

theorem awaitFork (hI : Acts env I) {pid : ℕ} : Keeps I ok (awaitFork env pid) := by
  refine (attempt hI.toTicks).bind fun _ => (look hI.toTicks).bind fun _ => ?_
  exact (onlyIf fun _ => act hI).bind fun _ => (answer hI.toTicks).bind fun _ => pure

theorem warmRestore (hI : Acts env I) (hok : ∀ e, ok e) (hn : ∀ c, Notes I (.check c))
    {t : Target} {pid : ℕ} {allow : Bool} {upper work : String} :
    Keeps I ok (warmRestore env t pid allow upper work) := by
  refine (attempt hI.toTicks).bind fun _ => (onlyIf fun _ => act hI).bind fun _ => ?_
  refine (switchOverlay hI fun e _ => hok e).bind fun _ => ?_
  refine bind ?_ fun child => ?_
  · split
    · exact awaitFork hI
    · exact pure
  rcases child with _ | child
  · refine (require (hok _)).bind fun _ => ?_
    refine (joinDurableDump hI.toTicks (fun e _ => hok e) (hn _)).bind fun _ => ?_
    exact (checkDumpError hI.toTicks (fun e _ => hok e) (hn _)).bind fun _ => pure
  · refine (act hI).bind fun _ => (record hI.toTicks).bind fun _ => ?_
    exact (act hI).bind fun _ => pure

theorem checkExternalRestorePoolClearAllowed (hn : Notes I (.check .poolClear))
    (hok : (cfg.forceCriuRestore || cfg.allowColdRestorePoolClear) = false → ok .poolClearDenied) :
    Keeps I ok (checkExternalRestorePoolClearAllowed cfg) :=
  (note hn).bind fun _ => Triple.require (fun _ h _ => h) fun _ h hc => ⟨h, hok hc⟩

theorem rebuild (hI : Acts env I) (hok : ∀ e, ok e) (hn : ∀ c, Notes I (.check c))
    {t : Target} {allow : Bool} {rid : String} : Keeps I ok (rebuild env cfg t allow rid) := by
  have hcold : ∀ {switched upper work}, Keeps I ok (Restore.coldRestore env cfg t switched upper work) :=
    coldRestore hI (fun e _ => hok e)
      (fun _ => checkExternalRestorePoolClearAllowed (hn _) fun _ => hok _)
      fun _ _ => drainBeforeNamespaceTeardown hI.toTicks (fun e _ => hok e) (hn _)
  rw [Restore.rebuild]
  split
  · refine (warmRestore hI hok hn).bind fun r => ?_
    rcases r with _ | r
    · exact hcold
    · exact pure
  · exact (onlyIf fun _ => switchOverlay hI fun e _ => hok e).bind fun _ => hcold

theorem commit (hI : Acts env I) (hok : ∀ e, ok e) (hn : ∀ c, Notes I (.check c))
    (hk : Notes I .killing) {t : Target} {allow : Bool} {rid : String} :
    Keeps I ok (commit env cfg t allow rid) := by
  refine (joinActiveDumpBeforeKill hI.toTicks fun _ => hok _).bind fun _ => ?_
  refine (rootOverlaysRestore hI fun e _ => hok e).bind fun _ => ?_
  exact (killActiveSubtree hI (fun e _ => hok e) hk).bind fun _ => rebuild hI hok hn

end Keeps

/-! ### The log -/

/-- The event is in the log. -/
def Logged (ev : Event) (w : World) : Prop := ev ∈ w.log

theorem Logged.notes (ev ev' : Event) : Notes (Logged ev) ev' :=
  fun _ h => List.mem_append_left _ h

theorem note_logged {ev : Event} {P : World → Prop} {E : Err → World → Prop} :
    Triple P (note ev) (fun _ => Logged ev) E :=
  Triple.update fun _ _ => List.mem_append_right _ (List.mem_singleton_self _)

theorem Logged.acts (env : Env) (ev : Event) : Acts env (Logged ev) where
  tick _ h := h
  record _ _ h := h
  act _ _ h := List.mem_append_left _ h

/-- The call has changed nothing: the sandbox is what the other threads alone have made of it. -/
structure Quiet (env : Env) (b : Sandbox) (w : World) : Prop where
  /-- The sandbox. -/
  box : w.box = env.others w.clock b
  /-- The log. -/
  log : ∀ ev ∈ w.log, ev.isChange = false

theorem Quiet.notes {env : Env} {b : Sandbox} {ev : Event} (hev : ev.isChange = false) :
    Notes (Quiet env b) ev := by
  rintro w ⟨hbox, hlog⟩
  refine ⟨hbox, fun e he => ?_⟩
  rcases List.mem_append.mp he with he | he
  · exact hlog e he
  · rwa [List.mem_singleton.mp he]

theorem Quiet.ticks (env : Env) (b : Sandbox) : Ticks env (Quiet env b) where
  tick w h := ⟨by simp only [h.box, Env.others], h.log⟩
  record _ _ h := ⟨h.box, h.log⟩

/-- **The questions change nothing.** -/
theorem preflight_quiet (env : Env) (cfg : Config) (b : Sandbox) (targetId : String)
    (allow : Bool) :
    Keeps (Quiet env b) (fun _ => True) (preflight env cfg targetId allow) :=
  Keeps.preflight (Quiet.ticks env b) (fun _ _ => trivial) (fun _ => Quiet.notes rfl)
    fun _ => Quiet.notes rfl

/-! ### The drain -/

/-- Every entry but those of `ids` is drained. -/
def DrainedBut (ids : List String) (w : World) : Prop :=
  ∀ id e, w.box.registry.find? id = some e → id ∉ ids → e.Drained

theorem DrainedBut.ticks (env : Env) (ids : List String) : Ticks env (DrainedBut ids) where
  tick w h id e' hf hid := by
    obtain ⟨e, he, hp⟩ := Background.progress_of_find? hf
    exact hp.drained (h id e he hid)
  record _ _ h := h

/-- The dump of `id` is over, if `c`. -/
def DoneAt (id : String) (c : Bool) (w : World) : Prop :=
  c → ∀ e, w.box.registry.find? id = some e → e.dumpFuture.any Future.done

theorem DoneAt.ticks (env : Env) (id : String) (c : Bool) : Ticks env (DoneAt id c) where
  tick w h hc e' hf := by
    obtain ⟨e, he, hp⟩ := Background.progress_of_find? hf
    exact hp.done (h hc e he)
  record _ _ h := h

theorem Ticks.and {env : Env} {I J : World → Prop} (hI : Ticks env I) (hJ : Ticks env J) :
    Ticks env fun w => I w ∧ J w where
  tick w h := ⟨hI.tick w h.1, hJ.tick w h.2⟩
  record w f h := ⟨hI.record w f h.1, hJ.record w f h.2⟩

/-- What `current` reads is what the registry holds. -/
theorem current_spec {env : Env} {I : World → Prop} (hI : Ticks env I) {id : String}
    {captured : Entry} {E : Err → World → Prop} :
    Triple I (current env id captured)
      (fun e w => I w ∧ ∀ e', w.box.registry.find? id = some e' → e' = e) E := by
  refine Triple.bind (Triple.update (Q := fun _ => I) hI.tick) fun _ => Triple.read fun w hw => ?_
  refine ⟨hw, fun e' he' => ?_⟩
  simp [he']

/-- A round of the drain that returns has drained its entry. -/
theorem drainEntry_drains {env : Env} {p : String × Entry} {ids : List String} :
    Triple (DrainedBut (p.1 :: ids)) (drainEntry env p) (fun _ => DrainedBut ids)
      fun _ _ => True := by
  have hd := DrainedBut.ticks env (p.1 :: ids)
  refine Triple.bind (current_spec hd) fun before => ?_
  have hd' := hd.and (DoneAt.ticks env p.1 (before.dumpFuture.any Future.done))
  refine Triple.bind (Triple.pre ?_ (current_spec hd')) fun after => ?_
  · exact fun w h => ⟨h.1, fun hc e he => h.2 e he ▸ hc⟩
  refine Triple.bind (Q := fun _ w => DrainedBut (p.1 :: ids) w ∧ DoneAt p.1 true w)
    (Triple.require (fun w h hc => ⟨h.1.1, fun _ e he => ?_⟩) fun _ _ _ => trivial) fun _ => ?_
  · rcases Bool.or_eq_true_iff.mp hc with hc | hc
    · exact h.1.2 hc e he
    · exact h.2 e he ▸ hc
  refine Triple.bind (current_spec (hd.and (DoneAt.ticks env p.1 true))) fun e => ?_
  refine Triple.require (fun w h hc => ?_) fun _ _ _ => trivial
  intro id e' he' hid
  by_cases heq : id = p.1
  · subst heq
    exact fun _ _ => ⟨h.1.2 rfl e' he', h.2 e' he' ▸ hc⟩
  · exact h.1.1 id e' he' (by simp [heq, hid])

theorem drainLoop_drains {env : Env} (ps : List (String × Entry)) :
    Triple (DrainedBut (ps.map Prod.fst)) (forEach (drainEntry env) ps) (fun _ => DrainedBut [])
      fun _ _ => True := by
  induction ps with
  | nil => exact Triple.pure fun _ h => h
  | cons p ps ih => exact Triple.bind drainEntry_drains fun _ => ih

/-- **A drain that returns has drained the whole registry.** -/
theorem drain_drains {env : Env} :
    Triple (fun _ => True) (drainBeforeNamespaceTeardown env) (fun _ => DrainedBut [])
      fun _ _ => True := by
  refine Triple.bind (Q := fun _ _ => True) (Triple.update fun _ _ => trivial) fun _ => ?_
  refine Triple.bind (Q := fun ps => DrainedBut (ps.map Prod.fst)) ?_ drainLoop_drains
  refine Triple.bind (Q := fun _ _ => True) (Triple.update fun _ _ => trivial) fun _ => ?_
  refine Triple.read fun w _ id e he hid hx hf => (hid ?_).elim
  refine List.mem_map.mpr ⟨(id, e), List.mem_filter.mpr ⟨Dict.find?_eq_some_iff.mp he, ?_⟩, rfl⟩
  simp [hx, hf]

/-! ### A cold call -/

/-- What a cold call knows once its questions are answered. -/
structure Ready (cfg : Config) (external : Bool) (w : World) : Prop where
  /-- The pool may be cleared, if it has to be. -/
  pool : external = true →
    (cfg.forceCriuRestore || cfg.allowColdRestorePoolClear) = true ∧ Logged (.check .poolClear) w
  /-- The writers are gone, if they have to be. -/
  drain : external = false → cfg.asyncIncremental = true →
    DrainedBut [] w ∧ Logged (.check .drain) w

theorem drain_ready {env : Env} :
    Triple (fun _ => True) (drainBeforeNamespaceTeardown env)
      (fun _ w => DrainedBut [] w ∧ Logged (.check .drain) w) fun _ _ => True := by
  have hI := (Logged.acts env (.check .drain)).toTicks
  have hlog : Triple (fun _ => True) (drainBeforeNamespaceTeardown env)
      (fun _ => Logged (.check .drain)) fun e w => Logged (.check .drain) w ∧ True := by
    refine Triple.bind note_logged fun _ => Keeps.bind (Keeps.look hI) fun _ => ?_
    exact Keeps.forEach fun _ _ => Keeps.drainEntry hI fun _ _ => trivial
  exact (drain_drains.and hlog).mono (fun _ h => h) (fun _ _ h => h) fun _ _ _ => trivial

theorem coldChecks_ready {env : Env} {cfg : Config} {id : String} {entry : Entry} :
    Triple (fun _ => True) (coldChecks env cfg id entry) (Ready cfg) fun _ _ => True := by
  refine Triple.top.bind fun _ => Triple.top.bind fun _ => Triple.top.bind fun _ => ?_
  refine Triple.top.bind fun external => ?_
  rcases external with _ | _
  · refine Triple.top.bind fun _ => ?_
    refine Triple.bind (Q := fun _ w => cfg.asyncIncremental = true →
      DrainedBut [] w ∧ Logged (.check .drain) w) (Triple.onlyIf (fun _ => ?_) ?_) fun _ => ?_
    · exact drain_ready.mono (fun _ h => h) (fun _ _ h _ => h) fun _ _ h => h
    · exact fun _ _ hc ha => by simp [ha] at hc
    · exact Triple.pure fun w h => ⟨fun hf => by simp at hf, fun _ => h⟩
  · refine Triple.bind (Q := fun _ w =>
      (cfg.forceCriuRestore || cfg.allowColdRestorePoolClear) = true ∧
        Logged (.check .poolClear) w) (Triple.onlyIf (fun _ => ?_) ?_) fun _ => ?_
    · exact Triple.bind note_logged fun _ =>
        Triple.require (fun _ h hc => ⟨hc, h⟩) fun _ _ _ => trivial
    · exact fun _ _ hc => by simp at hc
    · refine Triple.bind (Q := fun _ w =>
        (cfg.forceCriuRestore || cfg.allowColdRestorePoolClear) = true ∧
          Logged (.check .poolClear) w) (Triple.onlyIf (fun hc => by simp at hc) fun _ h _ => h) ?_
      exact fun _ => Triple.pure fun w h => ⟨fun _ => h, fun hf => by simp at hf⟩

/-- What a call knows about its target when it starts to change things. -/
def Prepared (cfg : Config) (t : Target) (w : World) : Prop :=
  (∃ pid, t.templatePid = some pid ∧ Logged (.template (some pid)) w) ∨
    (t.templatePid = none ∧ ∃ external, t.external = some external ∧ Ready cfg external w)

/-- **What a call knows when it starts to change things.** -/
theorem preflight_prepared {env : Env} {cfg : Config} {targetId : String} {allow : Bool} :
    Triple (fun _ => True) (preflight env cfg targetId allow) (Prepared cfg) fun _ _ => True := by
  refine Triple.top.bind fun _ => Triple.top.bind fun target => ?_
  rcases target with _ | target
  · exact Triple.raise fun _ _ => trivial
  refine Triple.top.bind fun _ => Triple.top.bind fun found => ?_
  generalize (if cfg.forceCriuRestore = true then none else found) = templatePid
  have hI := Logged.acts env (.template templatePid)
  -- The template is in the log from here on.
  refine Triple.bind note_logged fun _ => ?_
  have hkeep : ∀ {α : Type} {m : Action α}, Keeps (Logged (.template templatePid)) (fun _ => True) m →
      Triple (Logged (.template templatePid)) m (fun _ => Logged (.template templatePid))
        fun _ _ => True :=
    fun h => h.mono (fun _ h => h) (fun _ _ h => h) fun _ _ _ => trivial
  refine Triple.bind (hkeep (Keeps.note (Logged.notes _ _))) fun _ => ?_
  refine Triple.bind (hkeep (Keeps.require trivial)) fun _ => ?_
  refine Triple.bind (hkeep (Keeps.note (Logged.notes _ _))) fun _ => ?_
  refine Triple.bind (hkeep (Keeps.look hI.toTicks)) fun physical => ?_
  split
  · rcases templatePid with _ | pid
    · refine Triple.bind (coldChecks_ready.pre fun _ _ => trivial) fun external => ?_
      exact Triple.pure fun w h => Or.inr ⟨rfl, external, rfl, h⟩
    · exact Triple.pure fun w h => Or.inl ⟨pid, rfl, h⟩
  · exact Triple.raise fun _ _ => trivial

/-- Since the log was `L`, only questions of `L` were asked again, and what had to be drained still
is. -/
structure Repeats (L : List Event) (drained : Prop) (w : World) : Prop where
  /-- The log. -/
  log : ∃ l, w.log = L ++ l ∧ ∀ c, Event.check c ∈ l → Event.check c ∈ L
  /-- The writers. -/
  drain : drained → DrainedBut [] w

theorem Repeats.notes {L : List Event} {drained : Prop} {ev : Event}
    (hev : ∀ c, ev = .check c → Event.check c ∈ L) : Notes (Repeats L drained) ev := by
  rintro w ⟨⟨l, hl, hc⟩, hd⟩
  refine ⟨⟨l ++ [ev], by simp [hl], fun c hmem => ?_⟩, hd⟩
  rcases List.mem_append.mp hmem with hmem | hmem
  · exact hc c hmem
  · exact hev c (List.mem_singleton.mp hmem).symm

theorem Repeats.acts (env : Env) (L : List Event) (drained : Prop) :
    Acts env (Repeats L drained) where
  tick w h := ⟨h.log, fun hd => (DrainedBut.ticks env []).tick w (h.drain hd)⟩
  record _ _ h := ⟨h.log, h.drain⟩
  act w c h := by
    have hnotes : Notes (Repeats L drained) (.change c) := Repeats.notes fun _ hc => by cases hc
    have hlog := (hnotes w h).log
    refine ⟨hlog, fun hd id e he => h.drain hd id e ?_⟩
    simpa using he

/-- The dump is over and its writer is gone. -/
def Entry.Done (e : Entry) : Prop := e.dumpFuture.any Future.done ∧ e.disposeDone

/-- The dumps of `ids` are over and their writers gone. -/
def DoneOf (ids : List String) (w : World) : Prop :=
  ∀ id ∈ ids, ∀ e, w.box.registry.find? id = some e → e.Done

theorem DoneOf.ticks (env : Env) (ids : List String) : Ticks env (DoneOf ids) where
  tick w h id hid e' he' := by
    obtain ⟨e, he, hp⟩ := Background.progress_of_find? he'
    have hdone := h id hid e he
    exact ⟨hp.done hdone.1, hp.disposeDone hdone.1 hdone.2⟩
  record _ _ h := h

/-- A round of the drain over a dump that is over does not raise. -/
theorem drainEntry_again {env : Env} {I : World → Prop} {ok : Err → Prop} {p : String × Entry}
    {ids : List String} (hI : Ticks env I) (hid : p.1 ∈ ids) (hp : p.2.Done) :
    Keeps (fun w => I w ∧ DoneOf ids w) ok (drainEntry env p) := by
  have hcur : ∀ {E : Err → World → Prop}, Triple (fun w => I w ∧ DoneOf ids w)
      (current env p.1 p.2) (fun e w => e.Done ∧ I w ∧ DoneOf ids w) E := by
    refine Triple.bind (Triple.update (Q := fun _ w => I w ∧ DoneOf ids w)
      (hI.and (DoneOf.ticks env ids)).tick) fun _ => Triple.read fun w hw => ⟨?_, hw⟩
    cases hf : w.box.registry.find? p.1 with
    | none => simpa [hf] using hp
    | some e => simpa [hf] using hw.2 p.1 hid e hf
  refine Triple.bind hcur fun before => Triple.of_pure fun hb => ?_
  refine Triple.bind hcur fun after => Triple.of_pure fun _ => ?_
  refine Triple.bind (Q := fun _ w => I w ∧ DoneOf ids w)
    (Triple.require (fun _ h _ => h) fun _ _ hc => ?_) fun _ => ?_
  · simp [hb.1] at hc
  refine Triple.bind hcur fun e => Triple.of_pure fun he => ?_
  refine Triple.require (fun _ h _ => h) fun _ _ hc => ?_
  simp [he.2] at hc

/-- **A second drain finds every writer gone.** -/
theorem drain_again {env : Env} {L : List Event} {ok : Err → Prop}
    (hL : Event.check .drain ∈ L) :
    Keeps (Repeats L True) ok (drainBeforeNamespaceTeardown env) := by
  have hI := (Repeats.acts env L True).toTicks
  refine (Keeps.note (Repeats.notes fun c hc => by cases hc; exact hL)).bind fun _ => ?_
  refine Triple.bind (Q := fun ps w => (∀ p ∈ ps, p.2.Done) ∧
    Repeats L True w ∧ DoneOf (ps.map Prod.fst) w) ?_ fun ps => Triple.of_pure fun hps => ?_
  · refine Triple.bind (Keeps.tick hI) fun _ => Triple.read fun w hw => ?_
    have hdone : ∀ p ∈ w.box.registry.entries.filter (fun p =>
        p.2.exactParent && p.2.dumpFuture.isSome), p.2.Done := by
      intro p hp
      obtain ⟨hmem, hx⟩ := List.mem_filter.mp hp
      obtain ⟨hx, hf⟩ := Bool.and_eq_true_iff.mp hx
      exact hw.drain trivial p.1 p.2 (Dict.find?_eq_some_iff.mpr hmem) (by simp) hx hf
    refine ⟨hdone, hw, fun id hid e he => ?_⟩
    obtain ⟨p, hp, rfl⟩ := List.mem_map.mp hid
    have hpe := Dict.find?_eq_some_iff.mpr (List.mem_filter.mp hp).1
    exact Option.some.inj (he.symm.trans hpe) ▸ hdone p hp
  · refine Triple.mono (fun _ h => h) (fun _ _ h => h.1) (fun _ _ h => ⟨h.1.1, h.2⟩)
      (Keeps.forEach (I := fun w => Repeats L True w ∧ DoneOf (ps.map Prod.fst) w) ?_)
    exact fun p hp => drainEntry_again hI (List.mem_map_of_mem hp) (hps p hp)

/-- **A cold call that has started to change things is not rejected any more**, and asks only
questions it has asked before. -/
theorem commit_cold (env : Env) {cfg : Config} {t : Target} {external : Bool} (allow : Bool)
    (rid : String) {w₀ : World} (ht : t.templatePid = none) (hext : t.external = some external)
    (hr : Ready cfg external w₀) :
    Keeps (Repeats w₀.log (external = false ∧ cfg.asyncIncremental = true))
      (fun e => e.isRejection = false) (commit env cfg t allow rid) := by
  set drained := external = false ∧ cfg.asyncIncremental = true with hdr
  have hI := Repeats.acts env w₀.log drained
  have hok : ∀ e : Err, e.isRejection = false → e.isRejection = false := fun _ h => h
  have hkill : Notes (Repeats w₀.log drained) .killing := Repeats.notes fun _ hc => by cases hc
  have hcold : ∀ {switched upper work},
      Keeps (Repeats w₀.log drained) (fun e => e.isRejection = false)
        (coldRestore env cfg t switched upper work) := by
    refine Keeps.coldRestore hI hok (fun hne => ?_) fun hne has => ?_
    · have hex : external = true := by simpa [hext] using hne
      obtain ⟨hallow, hlog⟩ := hr.pool hex
      refine Keeps.checkExternalRestorePoolClearAllowed (Repeats.notes fun c hc => ?_) fun hc => ?_
      · cases hc
        exact hlog
      · rw [hallow] at hc
        cases hc
    · have hex : external = false := by simpa [hext] using hne
      have hdrained : drained = True := by simp [hdr, hex, has]
      rw [hdrained]
      exact drain_again (hr.drain hex has).2
  refine (Keeps.joinActiveDumpBeforeKill hI.toTicks fun _ => rfl).bind fun _ => ?_
  refine (Keeps.rootOverlaysRestore hI hok).bind fun _ => ?_
  refine (Keeps.killActiveSubtree hI hok hkill).bind fun _ => ?_
  simp only [rebuild, ht]
  exact (Keeps.onlyIf fun _ => Keeps.switchOverlay hI hok).bind fun _ => hcold

/-- **Before its kill starts, a call past its questions is not rejected any more.** -/
theorem commit_rejection {env : Env} {cfg : Config} {t : Target} {allow : Bool} {rid : String} :
    Triple (fun _ => True) (commit env cfg t allow rid) (fun _ _ => True)
      fun e w => e.isRejection = true → Logged .killing w := by
  have hI : Acts env fun _ => True := ⟨⟨fun _ _ => trivial, fun _ _ _ => trivial⟩, fun _ _ _ => trivial⟩
  have hbefore : ∀ {α : Type} {m : Action α}, Keeps (fun _ => True) (fun e => e.isRejection = false) m →
      Triple (fun _ => True) m (fun _ _ => True) fun e w => e.isRejection = true → Logged .killing w := by
    intro α m h
    refine h.mono (fun _ h => h) (fun _ _ h => h) fun e w he hr => ?_
    rw [he.2] at hr
    cases hr
  have hok : ∀ e : Err, e.isRejection = false → e.isRejection = false := fun _ h => h
  have hK := Logged.acts env .killing
  have hafter : ∀ {α : Type} {m : Action α}, Keeps (Logged .killing) (fun _ => True) m →
      Triple (Logged .killing) m (fun _ => Logged .killing)
        fun e w => e.isRejection = true → Logged .killing w :=
    fun h => h.mono (fun _ h => h) (fun _ _ h => h) fun _ _ he _ => he.1
  refine Triple.bind (hbefore (Keeps.joinActiveDumpBeforeKill hI.toTicks fun _ => rfl)) fun _ => ?_
  refine Triple.bind (hbefore (Keeps.rootOverlaysRestore hI hok)) fun _ => ?_
  refine Triple.bind (Q := fun _ => Logged .killing) ?_ fun _ => ?_
  · refine Triple.bind (hbefore (Keeps.joinActiveDumpBeforeKill hI.toTicks fun _ => rfl)) fun _ => ?_
    refine Triple.bind (hbefore Keeps.read) fun _ => ?_
    refine Triple.bind (hbefore (Keeps.look hI.toTicks)) fun _ => ?_
    refine Triple.bind (hbefore (Keeps.look hI.toTicks)) fun _ => ?_
    refine Triple.bind (hbefore (Keeps.record hI.toTicks)) fun _ => ?_
    refine Triple.bind (hbefore (Keeps.look hI.toTicks)) fun _ => ?_
    refine Triple.bind (hbefore (Keeps.look hI.toTicks)) fun _ => ?_
    refine Triple.bind note_logged fun _ => ?_
    exact hafter (Keeps.killAndReap hK fun _ _ => trivial)
  · exact (hafter (Keeps.rebuild hK (fun _ => trivial) fun _ => Logged.notes _ _)).mono
      (fun _ h => h) (fun _ _ _ => trivial) fun _ _ h => h

/-! ### Whole calls -/

/-- A call of `restore_action`: how it ends, and the state it leaves. -/
def call (env : Env) (cfg : Config) (targetId : String) (allowColdFallback : Bool)
    (restoreId : String) (b : Sandbox) (k : Book) : Except Err (Path × List String) × World :=
  restoreAction env cfg targetId allowColdFallback restoreId ⟨b, k, 0, []⟩

/-- Everything the controller owns is exactly as before the call. The registry and the processes
are what the other threads alone have made of them, and no step of the call was a change. -/
structure Untouched (env : Env) (b : Sandbox) (w : World) : Prop where
  /-- The sandbox. -/
  box : w.box = { b with
    registry := (env.others w.clock b).registry, procs := (env.others w.clock b).procs }
  /-- The log. -/
  log : ∀ ev ∈ w.log, ev.isChange = false

theorem Quiet.untouched {env : Env} {b : Sandbox} {w : World} (h : Quiet env b w) :
    Untouched env b w :=
  ⟨h.box.trans (env.others_frame _ b), h.log⟩

/-- When no other thread moves, nothing at all has changed. -/
theorem Untouched.box_eq {env : Env} {b : Sandbox} {w : World} (h : Untouched env b w)
    (hidle : ∀ n, env.background n = .idle) : w.box = b := by
  have hothers : ∀ n, env.others n b = b := by
    intro n
    induction n with
    | zero => rfl
    | succ n ih => rw [Env.others, hidle, ih]; rfl
  rw [h.box, hothers]

/-- The log of a cold call has its questions in front of its changes. -/
theorem Repeats.checks_first {L : List Event} {drained : Prop} {w : World} (h : Repeats L drained w)
    (hL : ∀ ev ∈ L, ev.isChange = false) {front back : List Event} {c : Change}
    (hlog : w.log = front ++ .change c :: back) {k : Check} (hk : Event.check k ∈ back) :
    Event.check k ∈ front := by
  obtain ⟨l, hl, hrep⟩ := h.log
  rw [hl] at hlog
  -- `L` has no change in it, so it ends within `front`.
  rcases List.append_eq_append_iff.mp hlog with ⟨m, rfl, hm⟩ | ⟨m, hm, hback⟩
  · refine List.mem_append_left m (hrep k ?_)
    rw [hm]
    exact List.mem_append_right m (List.mem_cons_of_mem _ hk)
  · rcases m with _ | ⟨x, m⟩
    · simp only [List.append_nil] at hm
      refine hm ▸ hrep k ?_
      simp only [List.nil_append] at hback
      exact hback ▸ List.mem_cons_of_mem _ hk
    · obtain ⟨rfl, -⟩ := List.cons.inj hback
      have := hL (.change c) (hm ▸ List.mem_append_right front List.mem_cons_self)
      cases this

theorem Quiet.no_change {env : Env} {b : Sandbox} {w : World} (h : Quiet env b w)
    {front back : List Event} {c : Change} : w.log ≠ front ++ .change c :: back := by
  intro hlog
  have := h.log (.change c) (hlog ▸ List.mem_append_right front List.mem_cons_self)
  cases this

theorem Ready.repeats {cfg : Config} {w : World} {external : Bool} (h : Ready cfg external w) :
    Repeats w.log (external = false ∧ cfg.asyncIncremental = true) w :=
  ⟨⟨[], by simp, by simp⟩, fun hd => (h.drain hd.1 hd.2).1⟩

/-- **A rejected restore leaves the sandbox untouched.** Take any call of `restore_action`, with
any interference of other threads and any outcome of its system calls. If it is rejected before the
kill of the active subtree has started, nothing was changed. If it found no template, this holds of
every rejection, and after the first change no question is asked that was not asked before. -/
theorem rejected_restore_untouched {env : Env} {cfg : Config} {targetId : String}
    {allowColdFallback : Bool} {restoreId : String} {b : Sandbox} {k : Book}
    {r : Except Err (Path × List String)} {w : World}
    (h : call env cfg targetId allowColdFallback restoreId b k = (r, w)) :
    (∀ e, r = .error e → e.isRejection = true → Event.killing ∉ w.log → Untouched env b w) ∧
    ((∀ pid, Event.template (some pid) ∉ w.log) →
      (∀ e, r = .error e → e.isRejection = true → Untouched env b w) ∧
      ∀ front c back, w.log = front ++ .change c :: back →
        ∀ q, Event.check q ∈ back → Event.check q ∈ front) := by
  have hstart : Quiet env b ⟨b, k, 0, []⟩ := ⟨rfl, by simp⟩
  rcases hp : preflight env cfg targetId allowColdFallback ⟨b, k, 0, []⟩ with ⟨e | t, w₁⟩
  · -- Rejected by a question.
    obtain ⟨rfl, rfl⟩ := Prod.mk.inj ((Prog.bind_of_error hp).symm.trans h)
    have hquiet := ((preflight_quiet env cfg b targetId allowColdFallback).of_error hstart hp).1
    refine ⟨fun _ _ _ _ => hquiet.untouched, fun _ => ⟨fun _ _ _ => hquiet.untouched, ?_⟩⟩
    exact fun front c back hlog => (hquiet.no_change hlog).elim
  -- Past the questions.
  have hc : commit env cfg t allowColdFallback restoreId w₁ = (r, w) :=
    (Prog.bind_of_ok hp).symm.trans h
  have hquiet := (preflight_quiet env cfg b targetId allowColdFallback).of_ok hstart hp
  refine ⟨fun e he hr hkill => ?_, fun htemplate => ?_⟩
  · subst he
    exact (hkill (commit_rejection.of_error trivial hc hr)).elim
  rcases preflight_prepared.of_ok trivial hp with ⟨pid, -, hlog⟩ | ⟨hnone, external, hext, hready⟩
  · have hkeep : Keeps (Logged (.template (some pid))) (fun _ => True)
        (commit env cfg t allowColdFallback restoreId) :=
      Keeps.commit (Logged.acts env _) (fun _ => trivial) (fun _ => Logged.notes _ _)
        (Logged.notes _ _)
    exact (htemplate pid (hkeep.holds_after hlog hc)).elim
  · have hkeep := commit_cold env allowColdFallback restoreId hnone hext hready
    have hrep := hkeep.holds_after hready.repeats hc
    refine ⟨fun e he hr => ?_, fun front c back hlog q => hrep.checks_first hquiet.log hlog⟩
    subst he
    have := (hkeep.of_error hready.repeats hc).2
    rw [this] at hr
    cases hr

/-- A sandbox whose agent is 7, with a checkpoint whose dump has failed and a lightweight one on
top of it. -/
def exampleBox : Sandbox where
  agentPid := 7
  nsInitPid := 5
  currentUpper := "/l/upper"
  currentWork := "/l/work"
  task := ⟨["/base"], "/l/upper", "/l/work"⟩
  rootOverlays := none
  registry :=
    let entry : Entry := ⟨none, ["/base"], none, [], some false, none, none, true, none,
      some (.exception "exit 1"), none, none, true, none⟩
    (Dict.empty.set "a" entry).set "l" { entry with effectiveRestoreId := some (some "a") }
  currentEpoch := 3
  procs := Dict.empty.set 7 ⟨5, .running, 1, [7, 2]⟩

/-- An environment in which no other thread moves. -/
def exampleEnv : Env := ⟨fun _ => .idle, fun _ => true, fun _ => none, fun _ => ⟨0, .running, 0, []⟩⟩

/-- The controller's notes at the start. -/
def exampleBook : Book := ⟨some Dict.empty, none, none, [], Dict.empty⟩

/-- The asynchronous mode, nothing forced. -/
def exampleConfig : Config := ⟨"/l", true, false, false, none, false, false, false⟩

theorem rejected_restore_untouched_lightweight :
    (call exampleEnv exampleConfig "l" true "r" exampleBox exampleBook).1 =
        .error (.dumpFailed "a" none "exit 1") ∧
      (call exampleEnv exampleConfig "l" true "r" exampleBox exampleBook).2.box = exampleBox := by
  have herr : (call exampleEnv exampleConfig "l" true "r" exampleBox exampleBook).1 =
      .error (.dumpFailed "a" none "exit 1") := by decide +kernel
  have huntouched := (rejected_restore_untouched (Prod.ext herr rfl)).1 _ rfl rfl (by decide +kernel)
  exact ⟨herr, huntouched.box_eq fun _ => rfl⟩

end Restore

end DeltaBox
