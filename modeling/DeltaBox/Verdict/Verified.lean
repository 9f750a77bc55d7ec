import DeltaBox.Verdict.Run

/-!
# What a successful exit means

Every event has been executed and every dump has settled. That much `had_error` says. It is not set
from the rows of the validation, so that the exit status says nothing of what they say.

## Main definitions

* `AllSucceeded` — every event has been executed and has succeeded
* `Verified` — what a successful exit should mean
* `Clean` — nothing raises

## Main results

* `run_returned_iff` — the replay returns exactly when nothing raises
* `verified_iff` — and then everything is verified exactly when the twins agree
-/

namespace DeltaBox

namespace Verdict

variable {δ : Type*} {cfg : Config} {s t : State δ}

/-! ### Calls -/

theorem bind_ok {α β : Type*} {x : Call α} {f : α → Call β} {b : β} :
    x.bind f = .ok b ↔ ∃ a, x = .ok a ∧ f a = .ok b := by
  cases x <;> simp [Except.bind]

theorem seq_ok {β : Type*} {x : Call Unit} {f : Unit → Call β} {b : β} :
    x.bind f = .ok b ↔ x = .ok () ∧ f () = .ok b := by
  rw [bind_ok]
  exact ⟨fun ⟨_, hx, hf⟩ => ⟨hx, hf⟩, fun ⟨hx, hf⟩ => ⟨(), hx, hf⟩⟩

theorem map_ok {α β : Type*} {x : Call α} {f : α → β} {b : β} :
    x.map f = .ok b ↔ ∃ a, x = .ok a ∧ f a = b := by
  cases x <;> simp [Except.map]

@[simp] theorem require_ok {c : Bool} : require c = .ok () ↔ c = true := by
  cases c <;> simp [require]

@[simp] theorem whenever_ok {c : Bool} {x : Call Unit} :
    whenever c x = .ok () ↔ (c = true → x = .ok ()) := by
  cases c <;> simp [whenever]

theorem probed_ok {x : Call Probe} :
    probed x = .ok () ↔ ∃ p, x = .ok p ∧ p.ok = true ∧ p.mismatch = false := by
  simp [probed, bind_ok]

theorem loadedWorker_ok {x : Call WorkerStatus} :
    loadedWorker x = .ok () ↔ ∃ s, x = .ok s ∧ s.ok = true ∧ s.loaded = true := by
  simp [loadedWorker, bind_ok]

/-! ### Events that succeed -/

/-- The checkpoint event has been executed and has succeeded. -/
structure Ckpt.Succeeded (cfg : Config) (ev : Ckpt) : Prop where
  fields : ev.fields = .ok ()
  probe : cfg.agentProbe = true → ∃ p, ev.probe = .ok p ∧ p.ok = true ∧ p.mismatch = false
  ops : cfg.workerExecRequired = true → ev.workerOps = true ∧
    (ev.workerOpsRequired = true → ev.workerOpsEmpty = false) ∧
    ∃ r, ev.workerExec = .ok r ∧ (r.ok = true ∨ r.isTestTimeout = true)
  dirty : cfg.workerExecRequired = false → ev.writeDirty = .ok ()
  footprints : ev.footprints = .ok ()
  worker : cfg.activeWorkerRequired = true →
    ∃ s, ev.activeWorker = .ok s ∧ s.ok = true ∧ s.loaded = true
  index : cfg.workerExecRequired = true → ∃ s, ev.workerIndex = .ok s ∧ s.nonempty = true
  checkpoint : ∃ info, ev.checkpoint = .ok info ∧ info.wait cfg = .ok ()
  snapshot : cfg.workerExecRequired = true → ∃ s, ev.snapshot = .ok s

/-- The restore event has been executed and has succeeded. -/
structure Restore.Succeeded (cfg : Config) (s : State δ) (ev : Restore) : Prop where
  target : ∃ id, ev.runtimeTarget s = .ok id ∧ (cfg.workerExecRequired = true →
    ∃ status, ev.workerIndex = .ok status ∧ status.nonempty = true ∧
      ∃ expected, s.runtimeIndexStatus.lookup id = some expected ∧ status.same expected = true)
  restore : ev.restore = .ok ()
  sidecar : cfg.workerExecRequired = true → ev.sidecar = .ok ()
  replay : cfg.workerExecRequired = true → ev.replayCmds = true →
    ∃ firstBad, ev.replay = .ok firstBad ∧ ∀ r ∈ firstBad, r.isTestTimeout = true
  probe : cfg.agentProbe = true → ∃ p, ev.probe = .ok p ∧ p.ok = true ∧ p.mismatch = false
  footprint : ev.footprint = .ok ()
  worker : cfg.activeWorkerRequired = true →
    ∃ s, ev.activeWorker = .ok s ∧ s.ok = true ∧ s.loaded = true
  record : ev.record = .ok ()

/-- There is nothing to do in an event that is neither. -/
def EventKind.Succeeded (cfg : Config) (s : State δ) : EventKind → Prop
  | .ckpt ev => ev.Succeeded cfg
  | .restore ev => ev.Succeeded cfg s
  | .unknown => True

theorem executed_ok {ev : Ckpt} :
    ev.executed = .ok () ↔ ev.workerOps = true ∧
      (ev.workerOpsRequired = true → ev.workerOpsEmpty = false) ∧
      ∃ r, ev.workerExec = .ok r ∧ (r.ok = true ∨ r.isTestTimeout = true) := by
  rw [Ckpt.executed, seq_ok, bind_ok]
  simp only [require_ok, Bool.and_eq_true, Bool.not_eq_true', Bool.or_eq_true,
    Bool.and_eq_false_imp, and_assoc]

theorem before_ok {ev : Ckpt} :
    ev.before cfg = .ok () ↔ ev.fields = .ok () ∧
      (cfg.agentProbe = true → probed ev.probe = .ok ()) ∧
      (cfg.workerExecRequired = true → ev.executed = .ok ()) ∧
      (cfg.workerExecRequired = false → ev.writeDirty = .ok ()) ∧
      ev.footprints = .ok () ∧
      (cfg.activeWorkerRequired = true → loadedWorker ev.activeWorker = .ok ()) ∧
      (cfg.workerExecRequired = true → ∃ s, ev.workerIndex = .ok s ∧ s.nonempty = true) := by
  simp only [Ckpt.before, seq_ok, whenever_ok]
  cases cfg.workerExecRequired <;> simp [bind_ok]

theorem ckptEvent_ok {ev : Ckpt} : (ckptEvent cfg s ev).2 = .ok () ↔ ev.Succeeded cfg := by
  have hbefore : ev.before cfg = .ok () ↔ _ := before_ok
  rw [ckptEvent]
  constructor
  · intro hok
    split at hok
    · cases hok
    · rename_i info hinfo
      obtain ⟨hb, hcheckpoint⟩ := seq_ok.mp hinfo
      obtain ⟨hfields, hprobe, hops, hdirty, hfoot, hworker, hindex⟩ := hbefore.mp hb
      split at hok
      · cases hok
      · rename_i hwait
        refine ⟨hfields, fun hc => probed_ok.mp (hprobe hc), fun hc => executed_ok.mp (hops hc), hdirty,
          hfoot, fun hc => loadedWorker_ok.mp (hworker hc), hindex, ⟨info, hcheckpoint, hwait⟩,
          fun hc => ?_⟩
        simp only [hc, if_true] at hok
        split at hok
        · cases hok
        · exact ⟨_, by assumption⟩
  · intro hev
    obtain ⟨info, hcheckpoint, hwait⟩ := hev.checkpoint
    have hb : ev.before cfg = .ok () := hbefore.mpr ⟨hev.fields,
      fun hc => probed_ok.mpr (hev.probe hc), fun hc => executed_ok.mpr (hev.ops hc), hev.dirty,
      hev.footprints, fun hc => loadedWorker_ok.mpr (hev.worker hc), hev.index⟩
    rw [seq_ok.mpr ⟨hb, hcheckpoint⟩]
    simp only [hwait]
    cases hc : cfg.workerExecRequired with
    | false => rfl
    | true =>
      obtain ⟨status, hstatus⟩ := hev.snapshot hc
      simp [hstatus]

theorem indexed_ok {ev : Restore} {target : String} :
    ev.indexed s target = .ok () ↔ ∃ status, ev.workerIndex = .ok status ∧ status.nonempty = true ∧
      ∃ expected, s.runtimeIndexStatus.lookup target = some expected ∧
        status.same expected = true := by
  simp only [Restore.indexed, @bind_ok IndexStatus, seq_ok, require_ok, Option.any_eq_true]

theorem replayed_ok {ev : Restore} :
    ev.replayed = .ok () ↔
      ∃ firstBad, ev.replay = .ok firstBad ∧ ∀ r ∈ firstBad, r.isTestTimeout = true := by
  simp [Restore.replayed, bind_ok, Option.all_eq_true]

theorem restoreEvent_ok {ev : Restore} :
    restoreEvent cfg s ev = .ok () ↔ ev.Succeeded cfg s := by
  rw [restoreEvent, bind_ok]
  simp only [seq_ok, whenever_ok, Bool.and_eq_true, and_imp]
  constructor
  · rintro ⟨target, htarget, hrestore, hsidecar, hreplay, hprobe, hfoot, hworker, hindex, hrecord⟩
    exact ⟨⟨target, htarget, fun hc => indexed_ok.mp (hindex hc)⟩, hrestore, hsidecar,
      fun hc hcmds => replayed_ok.mp (hreplay hc hcmds), fun hc => probed_ok.mp (hprobe hc), hfoot,
      fun hc => loadedWorker_ok.mp (hworker hc), hrecord⟩
  · intro hev
    obtain ⟨target, htarget, hindex⟩ := hev.target
    exact ⟨target, htarget, hev.restore, hev.sidecar,
      fun hc hcmds => replayed_ok.mpr (hev.replay hc hcmds), fun hc => probed_ok.mpr (hev.probe hc),
      hev.footprint, fun hc => loadedWorker_ok.mpr (hev.worker hc),
      fun hc => indexed_ok.mpr (hindex hc), hev.record⟩

/-- An event raises nothing exactly when it succeeds. -/
theorem attempt_ok {kind : EventKind} :
    (attempt cfg s kind).2 = .ok () ↔ kind.Succeeded cfg s := by
  cases kind with
  | ckpt ev => exact ckptEvent_ok
  | restore ev => exact restoreEvent_ok
  | unknown => exact iff_of_true rfl trivial

/-! ### What an event leaves behind -/

/-- What the checkpoint call of an event has returned. -/
def EventKind.info : EventKind → Option Info
  | .ckpt ev => ev.checkpoint.toOption
  | _ => none

/-- The dumps of a schedule. -/
def dumps (evs : List Event) : List (String × Dump) :=
  (evs.filterMap fun ev => ev.kind.info).filterMap fun info =>
    info.dump.map fun dump => (info.id, dump)

/-- The checkpoints of a schedule that are marked `validation_needed`. -/
def marked (evs : List Event) : List String :=
  ((evs.filterMap fun ev => ev.kind.info).filter Info.validationNeeded).map Info.id

/-- The state behind an event that has succeeded. -/
def after (cfg : Config) (s : State δ) (ev : Event) : State δ :=
  (attempt cfg s ev.kind).1.row (.event true)

/-- **Every event has been executed and has succeeded.** -/
def AllSucceeded (cfg : Config) : State δ → List Event → Prop
  | _, [] => True
  | s, ev :: evs => ev.kind.Succeeded cfg s ∧ AllSucceeded cfg (after cfg s ev) evs

/-- Nothing raises behind an event. -/
def Event.Quiet (cfg : Config) (ev : Event) : Prop :=
  (cfg.memcurveGc = true → ev.kind.known = true → ev.gc = .ok ()) ∧ ev.write = .ok ()

/-- The state behind a checkpoint event that has succeeded. -/
theorem ckptEvent_state {ev : Ckpt} (hev : ev.Succeeded cfg) {info : Info}
    (hinfo : ev.checkpoint = .ok info) :
    ∃ index, (ckptEvent cfg s ev).1 =
      { (s.noteDump info).noteCkpt ev.ckptId info with runtimeIndexStatus := index } := by
  have hok := (@ckptEvent_ok δ cfg s ev).mpr hev
  rw [ckptEvent] at hok ⊢
  split at hok
  · cases hok
  · rename_i info' hbind
    obtain ⟨-, hcheckpoint⟩ := seq_ok.mp hbind
    obtain rfl := Except.ok.inj (hinfo.symm.trans hcheckpoint)
    split at hok
    · cases hok
    · rename_i hwait
      split_ifs
      · split
        · exact ⟨_, rfl⟩
        · exact ⟨_, rfl⟩
      · exact ⟨_, rfl⟩

theorem noteDump_eq {info : Info} : s.noteDump info =
    { s with pendingDumps := s.pendingDumps ++ (info.dump.map fun dump => (info.id, dump)).toList } := by
  rw [State.noteDump]
  cases info.dump <;> simp

/-- The dump and the mark of a checkpoint event that has succeeded are in the lists, and there is no
error. -/
theorem after_eq {ev : Event} (hev : ev.kind.Succeeded cfg s) :
    (after cfg s ev).pendingDumps = s.pendingDumps ++ dumps [ev] ∧
      (after cfg s ev).validationCkpts = s.validationCkpts ++ marked [ev] ∧
      (after cfg s ev).hadError = s.hadError := by
  simp only [after, State.row]
  cases hkind : ev.kind with
  | restore rs => simp [attempt, dumps, marked, hkind, EventKind.info]
  | unknown => simp [attempt, dumps, marked, hkind, EventKind.info]
  | ckpt ck =>
    rw [hkind] at hev
    obtain ⟨info, hcheckpoint, -⟩ := Ckpt.Succeeded.checkpoint hev
    have hinfo : ev.kind.info = some info := by
      simp [hkind, EventKind.info, hcheckpoint, Except.toOption]
    obtain ⟨index, hstate⟩ := @ckptEvent_state δ cfg s ck hev info hcheckpoint
    simp only [attempt, hstate, noteDump_eq, State.noteCkpt]
    cases hdump : info.dump <;> cases hneeded : info.validationNeeded <;>
      simp [dumps, marked, hinfo, hdump, hneeded]

theorem dumps_cons {ev : Event} {evs : List Event} : dumps (ev :: evs) = dumps [ev] ++ dumps evs := by
  simp only [dumps]
  rw [← List.singleton_append, List.filterMap_append, List.filterMap_append]

theorem marked_cons {ev : Event} {evs : List Event} :
    marked (ev :: evs) = marked [ev] ++ marked evs := by
  simp only [marked]
  rw [← List.singleton_append, List.filterMap_append, List.filter_append, List.map_append]

/-- The state behind a schedule that has succeeded. -/
theorem foldl_after (evs : List Event) (hevs : AllSucceeded cfg s evs) :
    (evs.foldl (after cfg) s).pendingDumps = s.pendingDumps ++ dumps evs ∧
      (evs.foldl (after cfg) s).validationCkpts = s.validationCkpts ++ marked evs ∧
      (evs.foldl (after cfg) s).hadError = s.hadError := by
  induction evs generalizing s with
  | nil => simp [dumps, marked]
  | cons ev evs ih =>
    obtain ⟨hev, hrest⟩ := hevs
    obtain ⟨hdumps, hmarked, herror⟩ := after_eq hev
    obtain ⟨hdumps', hmarked', herror'⟩ := ih hrest
    refine ⟨?_, ?_, ?_⟩
    · rw [List.foldl_cons, hdumps', hdumps, @dumps_cons ev evs, List.append_assoc]
    · rw [List.foldl_cons, hmarked', hmarked, @marked_cons ev evs, List.append_assoc]
    · rw [List.foldl_cons, herror', herror]

/-! ### The loop -/

/-- The loop goes on behind an event exactly when nothing has raised. -/
theorem behind_ok {ev : Event} {r : Call Unit} (hnone : s.hadError = false) :
    behind cfg s ev r = .ok t ∧ t.hadError = false ↔
      r = .ok () ∧ ev.Quiet cfg ∧ t = s.row (.event true) := by
  simp only [behind, Event.Quiet]
  have hgc : whenever (cfg.memcurveGc && ev.kind.known) ev.gc = .ok () ↔
      (cfg.memcurveGc = true → ev.kind.known = true → ev.gc = .ok ()) := by
    rw [whenever_ok, Bool.and_eq_true, and_imp]
  constructor
  · rintro ⟨hbehind, herror⟩
    split at hbehind
    · cases hbehind
    · obtain ⟨-, -, rfl⟩ := map_ok.mp hbehind
      cases herror
    · rename_i hquiet
      obtain ⟨⟨⟩, hwrite, rfl⟩ := map_ok.mp hbehind
      cases r with
      | error => cases herror
      | ok => exact ⟨rfl, ⟨hgc.mp hquiet, hwrite⟩, rfl⟩
  · rintro ⟨rfl, ⟨hquiet, hwrite⟩, rfl⟩
    rw [hgc.mpr hquiet]
    exact ⟨map_ok.mpr ⟨(), hwrite, rfl⟩, hnone⟩

/-- An exception in an event is an error. -/
theorem behind_error {ev : Event} {r : Raised} (hbehind : behind cfg s ev (.error r) = .ok t) :
    t.hadError = true := by
  simp only [behind] at hbehind
  split at hbehind
  · cases hbehind
  · obtain ⟨-, -, rfl⟩ := map_ok.mp hbehind
    rfl
  · obtain ⟨-, -, rfl⟩ := map_ok.mp hbehind
    rfl

/-- The loop comes to its end without an error exactly when every event succeeds. -/
theorem events_ok (evs : List Event) (hnone : s.hadError = false) :
    events cfg evs s = .ok t ∧ t.hadError = false ↔
      AllSucceeded cfg s evs ∧ (∀ ev ∈ evs, ev.Quiet cfg) ∧ t = evs.foldl (after cfg) s := by
  induction evs generalizing s with
  | nil =>
    constructor
    · rintro ⟨hevents, -⟩
      exact ⟨trivial, by simp, (Except.ok.inj hevents).symm⟩
    · rintro ⟨-, -, rfl⟩
      exact ⟨rfl, hnone⟩
  | cons ev evs ih =>
    obtain ⟨s', r, hattempt⟩ : ∃ s' r, attempt cfg s ev.kind = (s', r) := ⟨_, _, rfl⟩
    have hresult : (attempt cfg s ev.kind).2 = r := by rw [hattempt]
    constructor
    · rintro ⟨hevents, herror⟩
      cases r with
      | error r =>
        cases r with
        | other => simp [events, hattempt] at hevents
        | exception =>
          simp only [events, hattempt, bind_ok] at hevents
          obtain ⟨u, hbehind, hrest⟩ := hevents
          rw [if_pos (behind_error hbehind)] at hrest
          obtain rfl := Except.ok.inj hrest
          simp [behind_error hbehind] at herror
      | ok =>
        have hev : ev.kind.Succeeded cfg s := attempt_ok.mp hresult
        have hafter := (after_eq hev).2.2
        simp only [after, hattempt] at hafter
        have hnone' : s'.hadError = false := hafter.trans hnone
        simp only [events, hattempt, bind_ok] at hevents
        obtain ⟨u, hbehind, hrest⟩ := hevents
        cases hu : u.hadError with
        | true =>
          rw [if_pos hu] at hrest
          obtain rfl := Except.ok.inj hrest
          simp [hu] at herror
        | false =>
          obtain ⟨-, hquiet, rfl⟩ := (behind_ok hnone').mp ⟨hbehind, hu⟩
          rw [hu] at hrest
          obtain ⟨hsucceeded, hquiets, rfl⟩ := (ih hu).mp ⟨hrest, herror⟩
          have hstate : after cfg s ev = s'.row (.event true) := by rw [after, hattempt]
          refine ⟨⟨hev, hstate ▸ hsucceeded⟩, ?_, by rw [List.foldl_cons, hstate]⟩
          intro e he
          rcases List.mem_cons.mp he with rfl | he
          · exact hquiet
          · exact hquiets e he
    · rintro ⟨⟨hev, hrest⟩, hquiet, rfl⟩
      obtain rfl := hresult.symm.trans (attempt_ok.mpr hev)
      have hafter := (after_eq hev).2.2
      have hstate : after cfg s ev = s'.row (.event true) := by rw [after, hattempt]
      rw [hstate] at hafter hrest
      have hnone' : s'.hadError = false := hafter.trans hnone
      have hbehind := ((@behind_ok δ cfg s' _ ev (.ok ()) hnone').mpr
        ⟨rfl, hquiet ev List.mem_cons_self, rfl⟩).1
      have hloop := (ih (s := s'.row (.event true)) hnone').mpr
        ⟨hrest, fun e he => hquiet e (List.mem_cons_of_mem ev he), by rw [List.foldl_cons, hstate]⟩
      refine ⟨?_, hloop.2⟩
      simp only [events, hattempt]
      refine bind_ok.mpr ⟨_, hbehind, ?_⟩
      rw [if_neg (by simp [State.row, hnone'])]
      exact hloop.1

/-! ### The end -/

theorem settleDumps_ok (ds : List (String × Dump)) :
    (∃ rows : List (Row δ), settleDumps ds = .ok rows ∧ rows.any Row.failed = false) ↔
      ∀ d ∈ ds, d.2.result = .ok () := by
  induction ds with
  | nil => simp [settleDumps]
  | cons d ds ih =>
    obtain ⟨id, dump⟩ := d
    rw [List.forall_mem_cons, ← ih]
    constructor
    · rintro ⟨rows, hrows, hfailed⟩
      rw [settleDumps] at hrows
      split at hrows
      · cases hrows
      · obtain ⟨rest, hrest, rfl⟩ := map_ok.mp hrows
        simp only [List.any_cons, Bool.or_eq_false_iff, Row.failed, Bool.not_eq_false'] at hfailed
        refine ⟨?_, rest, hrest, hfailed.2⟩
        cases hresult : dump.result with
        | ok => rfl
        | error => simp [hresult, Except.toBool] at hfailed
    · rintro ⟨hresult, rest, hrest, hfailed⟩
      refine ⟨.dumpCompletion id true :: rest, ?_, by simp [Row.failed, hfailed]⟩
      simp only at hresult
      simp [settleDumps, hresult, hrest, Except.map, Except.toBool]

/-- The twin of a checkpoint is known, and the processes restored from the two agree. -/
def Checked (mode : Mode) (w : World δ) (id : String) : Prop :=
  ((w.registry id).bind fun full => full.bind w.registry).isSome ∧ Agree mode (w.twins id)

instance (mode : Mode) (w : World δ) (id : String) : Decidable (Checked mode w id) :=
  inferInstanceAs (Decidable (_ ∧ _))

/-- **What a successful exit should mean.** -/
structure Verified (cfg : Config) (w : World δ) : Prop where
  succeeded : AllSucceeded cfg (.init : State δ) w.schedule
  settled : ∀ d ∈ dumps w.schedule, d.2.result = .ok ()
  checked : cfg.validate = true → ∀ id ∈ marked w.schedule, Checked cfg.validationMemMode w id

/-- Nothing raises. -/
structure Clean (cfg : Config) (w : World δ) : Prop where
  setup : w.setup = .ok ()
  succeeded : AllSucceeded cfg (.init : State δ) w.schedule
  quiet : ∀ ev ∈ w.schedule, ev.Quiet cfg
  shutdown : w.shutdown = .ok ()
  exported : w.exported = .ok ()
  settled : ∀ d ∈ dumps w.schedule, d.2.result = .ok ()
  validation : cfg.validate = true → w.validation = .ok ()
  summary : w.summary = .ok ()

variable [DecidableEq δ] {sha256 : List UInt8 → δ} {w : World δ}

/-- The rows of the validation are made without a word about what they say. -/
theorem validationRows_ok (hnone : s.hadError = false) :
    (∃ rows, validationRows cfg sha256 w s = .ok rows) ↔
      (cfg.validate = true → w.validation = .ok ()) := by
  rw [validationRows, hnone]
  cases cfg.validate with
  | false => simp
  | true =>
    simp only [Bool.not_false, Bool.and_self, if_true, map_ok, forall_const]
    exact ⟨fun ⟨_, _, hx, _⟩ => hx, fun hx => ⟨_, (), hx, rfl⟩⟩

/-- What comes behind the loop raises nothing and sets no error. -/
theorem finish_ok : (∃ t, finish cfg sha256 w s = .ok t ∧ t.hadError = false) ↔
    s.hadError = false ∧ w.shutdown = .ok () ∧ w.exported = .ok () ∧
      (∀ d ∈ s.pendingDumps, d.2.result = .ok ()) ∧ (cfg.validate = true → w.validation = .ok ()) ∧
      w.summary = .ok () := by
  constructor
  · rintro ⟨t, hfinish, herror⟩
    obtain ⟨hpool, hfinish⟩ := seq_ok.mp hfinish
    obtain ⟨hexported, hfinish⟩ := seq_ok.mp hfinish
    obtain ⟨dumpRows, hdumps, hfinish⟩ := bind_ok.mp hfinish
    obtain ⟨rows, hrows, hfinish⟩ := bind_ok.mp hfinish
    obtain ⟨⟨⟩, hsummary, rfl⟩ := map_ok.mp hfinish
    obtain ⟨hnone, hfailed⟩ : s.hadError = false ∧ dumpRows.any Row.failed = false :=
      Bool.or_eq_false_iff.mp herror
    rw [hnone] at hpool
    have hvalidation := (validationRows_ok herror).mp ⟨rows, hrows⟩
    exact ⟨hnone, hpool, hexported, (settleDumps_ok _).mp ⟨dumpRows, hdumps, hfailed⟩, hvalidation,
      hsummary⟩
  · rintro ⟨hnone, hshutdown, hexported, hsettled, hvalidation, hsummary⟩
    obtain ⟨dumpRows, hdumps, hfailed⟩ := (@settleDumps_ok δ s.pendingDumps).mpr hsettled
    have herror : (s.settle dumpRows).hadError = false :=
      Bool.or_eq_false_iff.mpr ⟨hnone, hfailed⟩
    obtain ⟨rows, hrows⟩ := (@validationRows_ok δ cfg _ _ sha256 w herror).mpr hvalidation
    refine ⟨_, seq_ok.mpr ⟨?_, seq_ok.mpr ⟨hexported, bind_ok.mpr ⟨dumpRows, hdumps,
      bind_ok.mpr ⟨rows, hrows, map_ok.mpr ⟨(), hsummary, rfl⟩⟩⟩⟩⟩, herror⟩
    rw [hnone]
    exact hshutdown

/-- The replay ends without an error exactly when no call raises where it counts. -/
theorem run_returned_iff : (run cfg sha256 w).1 = .returned ↔ Clean cfg w := by
  have hrun : (run cfg sha256 w).1 = .returned ↔ ∃ s t, w.setup = .ok () ∧
      events cfg w.schedule .init = .ok s ∧ finish cfg sha256 w s = .ok t ∧ t.hadError = false := by
    rw [run]
    constructor
    · intro hreturned
      split at hreturned
      · cases hreturned
      · rename_i t hall
        obtain ⟨s, hsetup, hfinish⟩ := bind_ok.mp hall
        obtain ⟨hsetup, hevents⟩ := seq_ok.mp hsetup
        refine ⟨s, t, hsetup, hevents, hfinish, ?_⟩
        cases herror : t.hadError with
        | false => rfl
        | true => simp [herror] at hreturned
    · rintro ⟨s, t, hsetup, hevents, hfinish, herror⟩
      rw [bind_ok.mpr ⟨s, seq_ok.mpr ⟨hsetup, hevents⟩, hfinish⟩]
      simp [herror]
  rw [hrun]
  constructor
  · rintro ⟨s, t, hsetup, hevents, hfinish, herror⟩
    obtain ⟨hnone, hshutdown, hexported, hsettled, hvalidation, hsummary⟩ :=
      finish_ok.mp ⟨t, hfinish, herror⟩
    obtain ⟨hsucceeded, hquiet, rfl⟩ := (events_ok w.schedule rfl).mp ⟨hevents, hnone⟩
    rw [(foldl_after w.schedule hsucceeded).1] at hsettled
    exact ⟨hsetup, hsucceeded, hquiet, hshutdown, hexported, hsettled, hvalidation, hsummary⟩
  · intro hclean
    obtain ⟨hevents, hnone⟩ := (events_ok w.schedule rfl).mpr ⟨hclean.succeeded, hclean.quiet, rfl⟩
    have hsettled := hclean.settled
    rw [← List.nil_append (dumps w.schedule)] at hsettled
    obtain ⟨t, hfinish, herror⟩ := (@finish_ok δ cfg _ _ sha256 w).mpr ⟨hnone, hclean.shutdown,
      hclean.exported, by rw [(foldl_after w.schedule hclean.succeeded).1]; exact hsettled,
      hclean.validation, hclean.summary⟩
    exact ⟨_, t, hclean.setup, hevents, hfinish, herror⟩

/-- **A successful exit means that everything was verified** exactly when something raises, or there
is no validation, or the twins of every marked checkpoint agree. -/
theorem verified_iff : ((run cfg sha256 w).1 = .returned → Verified cfg w) ↔
    (Clean cfg w → cfg.validate = true →
      ∀ id ∈ marked w.schedule, Checked cfg.validationMemMode w id) := by
  rw [run_returned_iff]
  constructor
  · intro hverified hclean
    exact (hverified hclean).checked
  · intro hchecked hclean
    exact ⟨hclean.succeeded, hclean.settled, hchecked hclean⟩

/-! ### Twins that do not agree -/

/-- A mapping of one byte. -/
def byteAt (start : ℕ) (answer : Read) : Mapping :=
  ⟨start, start + 1, true, true, true, "[heap]", true, [answer]⟩

/-- A checkpoint event with which all is well, and which is marked. -/
def marking : Event where
  kind := .ckpt {
    ckptId := some "a", workerOps := true, workerOpsEmpty := true, workerOpsRequired := false,
    fields := .ok (), probe := .error .exception, workerExec := .error .exception,
    writeDirty := .ok (), footprints := .ok (), activeWorker := .error .exception,
    workerIndex := .error .exception, checkpoint := .ok ⟨"r", none, true⟩,
    snapshot := .error .exception }
  gc := .ok ()
  write := .ok ()

/-- A replay of this one event. The processes have these mappings. -/
def replayOf (incremental fullTwin : List Mapping) : World (List UInt8) where
  setup := .ok ()
  schedule := [marking]
  abortDumps := .ok ()
  shutdown := .ok ()
  exported := .ok ()
  registry id := if id = "r" then some (some "f") else if id = "f" then some none else none
  twins _ := ⟨.process ⟨some incremental, true⟩ ⟨[], 0⟩, .process ⟨some fullTwin, true⟩ ⟨[], 0⟩⟩
  validation := .ok ()
  summary := .ok ()

def validating : Config := ⟨false, false, false, false, false, true, .allRwPrivate⟩

/-- The two processes differ in a byte, and the row says so. -/
def drifted : World (List UInt8) := replayOf [byteAt 0 (.bytes [1])] [byteAt 0 (.bytes [2])]

/-- One process has a mapping more, which cannot be read, and the row says that all is well. -/
def gap : World (List UInt8) := replayOf [byteAt 0 (.bytes [1])] [byteAt 0 (.bytes [1]), byteAt 4096 .failed]

/-- What the rows of the validation say. -/
def verdicts (rows : List (Row δ)) : List Bool :=
  rows.filterMap fun
    | .validation row => some row.ok
    | _ => none

/-- Neither is found out. -/
theorem returned_not_verified :
    (¬ ∀ w : World (List UInt8), (run validating id w).1 = .returned → Verified validating w) ∧
    (verdicts (run validating id drifted).2 = [false] ∧
      (run validating id drifted).1 = .returned ∧ ¬ Checked .allRwPrivate drifted "r") ∧
    verdicts (run validating id gap).2 = [true] ∧
      (run validating id gap).1 = .returned ∧ ¬ Checked .allRwPrivate gap "r" := by
  have hdrifted : ¬ Checked .allRwPrivate drifted "r" := by decide
  refine ⟨fun hall => ?_, ⟨by decide, by decide, hdrifted⟩, by decide, by decide, by decide⟩
  exact hdrifted ((hall drifted (by decide)).checked rfl "r" (by decide))

end Verdict

end DeltaBox
