import DeltaBox.Legacy.Files

/-!
# A checkpoint as a cut

The copies of the agent that a call leaves behind are made at different moments, and the agent may go
on before the last of them is. They still are copies of one moment, the beginning of the call, with one
exception: where the dump tree is the agent itself (or the namespace it runs in) and nobody waits for
the dump, the memory image has what the agent did until CRIU came.

## Main results

* `checkpoint_cut` — template, layers and image are of one moment, the image unless it was overrun
* `checkpoint_cut_overrun` — a run in which it was
-/

namespace DeltaBox

namespace Legacy

open Machine

variable {M P C : Type} {s t : State M P C} {m : Modes} {cfg : Overlay.Config} [DecidableEq P]

/-! ### Runs -/

/-- The runs in question: no restores; calls are made at the current position, over an upper that can
be listed and a layer switch that works; and a call that raises does so before the sink. -/
def Regular (s : State M P C) : Label M P C → Prop
  | .call parent _ inp _ => parent = s.files.pos ∧ inp.scanOk = true ∧ inp.fault = none
  | .raise =>
    match s.ctl with
    | .sunk _ | .raised _ | .joined _ | .finished _ => False
    | _ => True
  | .restore .. => False
  | _ => True

/-! ### The history -/

/-- A step adds to the history and takes nothing away. -/
structure Adds (s : State M P C) (label : Label M P C) (t : State M P C) : Prop where
  names : ∀ k ∈ s.names, k ∈ t.names
  point : ∀ k ∈ s.names, t.point k = s.point k
  /-- Only the agent overruns a dump. -/
  overrun : ∀ k ∈ t.overrun, k ∈ s.overrun ∨ ∃ mem op, label = .agent mem op ∧
    ∃ job ∈ s.unread, job.id = k ∧ s.reaches job.root = true
  /-- Only a call submits a dump. -/
  unread : ∀ job ∈ t.unread, job ∈ s.unread ∨ ∃ c, s.ctl.call = some c ∧ job.id = c.id

omit [DecidableEq P] in
/-- Most steps leave it alone. -/
theorem Adds.same {label : Label M P C} (hnames : t.names = s.names) (hpoint : t.point = s.point)
    (hoverrun : t.overrun = s.overrun)
    (hunread : ∀ job ∈ t.unread, job ∈ s.unread ∨ ∃ c, s.ctl.call = some c ∧ job.id = c.id) :
    Adds s label t :=
  ⟨fun _ hk => hnames ▸ hk, fun _ _ => hpoint ▸ rfl, fun _ hk => Or.inl (hoverrun ▸ hk), hunread⟩

omit [DecidableEq P] in
theorem SameFiles.adds {label : Label M P C} (h : SameFiles s t) (hoverrun : t.overrun = s.overrun)
    (hqueue : t.queue = s.queue) (hworker : t.worker = s.worker) : Adds s label t := by
  refine .same h.names h.point hoverrun fun job hjob => Or.inl ?_
  rwa [State.unread, hqueue, hworker, ← State.unread] at hjob

omit [DecidableEq P] in
theorem Adds.worker {label : Label M P C} (hw : WorkerMoves s label t) : Adds s label t := by
  have hqueue : ∀ job ∈ s.queue, job ∈ s.unread := fun _ hjob => List.mem_append_left _ hjob
  cases hw with
  | start hw hq =>
    refine .same rfl rfl rfl fun job hjob => Or.inl (hqueue job ?_)
    simp only [State.unread, List.mem_append, List.mem_singleton] at hjob
    rw [hq, List.mem_cons]
    tauto
  | read hw =>
    refine .same rfl rfl rfl fun job hjob => Or.inl (hqueue job ?_)
    simpa [State.unread] using hjob
  | succeed hw =>
    refine .same rfl rfl rfl fun job hjob => Or.inl (hqueue job ?_)
    simpa [State.unread] using hjob
  | fail f hw =>
    refine .same rfl rfl rfl fun job hjob => Or.inl (hqueue job ?_)
    simpa [State.unread] using hjob
  | callback hw =>
    refine .same rfl rfl rfl fun job hjob => Or.inl (hqueue job ?_)
    simpa [State.unread, recordDump] using hjob

theorem Adds.ofCall {label : Label M P C} (hm : CallMoves m cfg s label t) : Adds s label t := by
  cases hm with
  | @submit c hc =>
    rw [submit]
    split_ifs
    · exact .same rfl rfl rfl fun _ hjob => Or.inl hjob
    · refine .same rfl rfl rfl fun job hjob => ?_
      simp only [State.unread, List.mem_append, List.mem_singleton] at hjob ⊢
      rcases hjob with (hjob | rfl) | hjob
      · exact Or.inl (Or.inl hjob)
      · exact Or.inr ⟨c, by rw [hc]; rfl, rfl⟩
      · exact Or.inl (Or.inr hjob)
  | addCallback hc =>
    rw [addDoneCallback]
    split <;> exact .same rfl rfl rfl fun _ hjob => Or.inl hjob
  | @wait c twinOk hc =>
    rw [waits, bootstrapWait, dumpTwin]
    generalize (validationNeeded m s c && (joinFuture s c.id).isNone && twinOk) = twin
    split_ifs <;> exact .same rfl rfl rfl fun _ hjob => Or.inl hjob
  | sink hc =>
    rw [sink]
    dsimp only
    split <;> exact .same rfl rfl rfl fun _ hjob => Or.inl hjob
  | join hc =>
    rw [joinBeforeTemplate]
    split
    · split <;> exact .same rfl rfl rfl fun _ hjob => Or.inl hjob
    · exact .same rfl rfl rfl fun _ hjob => Or.inl hjob
  | fallback failure hc =>
    cases failure <;> exact .same rfl rfl rfl fun _ hjob => Or.inl hjob
  | @template c child hc hnew =>
    cases child with
    | none => exact .same rfl rfl rfl fun _ hjob => Or.inl hjob
    | some pid =>
      rw [lateTemplate]
      split_ifs <;> exact .same rfl rfl rfl fun _ hjob => Or.inl hjob
  | register hc => exact .same rfl rfl rfl fun _ hjob => Or.inl hjob
  | raise hc => exact .same rfl rfl rfl fun _ hjob => Or.inl hjob

theorem State.mark_point_of_mem {parent : Option String} {id k : String}
    (hnew : NewId s parent id) (hk : k ∈ s.names) : (s.mark parent id).point k = s.point k := by
  have hne : k ≠ id := fun heq => hnew.1 (heq ▸ hk)
  have hne' : k ≠ id ++ "_full" := fun heq => hnew.2.1 (heq ▸ hk)
  simp [State.mark, Function.update_of_ne hne, Function.update_of_ne hne']

theorem Adds.step {label : Label M P C} (hagent : s.agentPid ∈ s.used)
    (hstep : step m cfg s label = some t) : Adds s label t := by
  cases moves_of_step m cfg hstep with
  | agent mem op hidle =>
    refine ⟨fun _ hk => hk, fun _ _ => rfl, fun k hk => ?_, fun _ hjob => Or.inl hjob⟩
    rcases List.mem_append.mp hk with hk | hk
    · exact Or.inl hk
    · obtain ⟨job, hjob, rfl⟩ := List.mem_map.mp hk
      obtain ⟨hmem, hreach⟩ := List.mem_filter.mp hjob
      exact Or.inr ⟨mem, op, rfl, job, hmem, rfl, hreach⟩
  | @call parent raw inp answers hidle hfresh hnew hpids hpending =>
    obtain ⟨hframe, -, -⟩ := begin_spec m cfg parent raw inp hagent hpids rfl
    rw [hframe]
    refine ⟨fun k hk => ?_, fun k hk => State.mark_point_of_mem hnew hk, fun _ hk => Or.inl hk,
      fun _ hjob => Or.inl hjob⟩
    exact List.mem_cons_of_mem _ (List.mem_cons_of_mem _ (List.mem_append_right _ hk))
  | restore => exact .same rfl rfl rfl fun _ hjob => Or.inl hjob
  | worker hw => exact .worker hw
  | ofCall hm => exact .ofCall hm

/-- Everything in the history has a name. -/
structure Named (s : State M P C) : Prop where
  unread : ∀ job ∈ s.unread, job.id ∈ s.names
  overrun : ∀ k ∈ s.overrun, k ∈ s.names

omit [DecidableEq P] in
theorem Named.step {label : Label M P C} (h : Named s) (ha : Adds s label t)
    (hcall : ∀ c, s.ctl.call = some c → c.id ∈ s.names) : Named t := by
  refine ⟨fun job hjob => ha.names _ ?_, fun k hk => ha.names _ ?_⟩
  · rcases ha.unread job hjob with hold | ⟨c, hc, hid⟩
    · exact h.unread job hold
    · exact hid ▸ hcall c hc
  · rcases ha.overrun k hk with hold | ⟨-, -, -, job, hjob, rfl, -⟩
    · exact h.overrun k hold
    · exact h.unread job hjob

/-! ### Steps -/

/-- All copies of the agent are from the moment of their call. -/
structure CutInv (cfg : Overlay.Config) (s : State M P C) : Prop where
  mem : MemInv s
  files : FilesInv cfg s
  named : Named s

instance (s : State M P C) : ∀ label, Decidable (Regular s label)
  | .call .. => inferInstanceAs (Decidable (_ ∧ _))
  | .raise =>
    match h : s.ctl with
    | .idle | .forked _ | .submitted _ | .watched _ | .waited _ =>
      isTrue (by rw [Regular, h]; trivial)
    | .sunk _ | .raised _ | .joined _ | .finished _ =>
      isFalse (by rw [Regular, h]; exact id)
  | .restore .. => isFalse id
  | .agent .. | .submit | .addCallback | .wait _ | .sink | .join | .fallback _ | .template _
  | .register | .start | .read | .finish _ | .callback => isTrue trivial

theorem FilesInv.raises (h : FilesInv cfg s) (hreg : Regular s .raise) (hc : s.ctl ≠ .idle) :
    ∃ c, Begun cfg s c := by
  have hok := h.ok
  rw [FilesOk] at hok
  rw [Regular] at hreg
  cases hctl : s.ctl with
  | idle => exact absurd hctl hc
  | forked c | submitted c | watched c | waited c =>
    rw [hctl] at hok
    exact ⟨c, hok⟩
  | sunk c | raised c | joined c | finished c =>
    rw [hctl] at hreg
    exact hreg.elim

/-- **One step.** -/
theorem CutInv.step {label : Label M P C} (h : CutInv cfg s) (hcfg : cfg.asyncIncremental = false)
    (hreg : Regular s label) (hstep : step m cfg s label = some t) : CutInv cfg t := by
  have hnamed : Named t := h.named.step (.step h.mem.agent hstep) fun c hc => (h.files.call c hc).2.2.1
  suffices hparts : MemInv t ∧ FilesInv cfg t from ⟨hparts.1, hparts.2, hnamed⟩
  cases moves_of_step m cfg hstep with
  | agent mem op hidle => exact ⟨h.mem.agentStep hidle mem _, h.files.agentStep hidle op rfl⟩
  | call hidle hfresh hnew hpids hpending =>
    obtain ⟨hparent, hscan, hfault⟩ := hreg
    exact ⟨h.mem.begin hidle hnew hpids,
      h.files.begin hidle h.mem.agent hnew hfresh hpids hparent hscan hfault⟩
  | restore => exact hreg.elim
  | worker hw => exact ⟨h.mem.worker hw, h.files.worker hw⟩
  | ofCall hmoves =>
    cases hmoves with
    | submit hc => exact ⟨h.mem.submit hc, h.files.submit hc⟩
    | addCallback hc => exact ⟨h.mem.addCallback hc, h.files.addCallback hc⟩
    | wait twinOk hc => exact ⟨h.mem.waits hc twinOk, h.files.waits hc twinOk⟩
    | sink hc => exact ⟨h.mem.sink hc, h.files.sink hcfg hc⟩
    | join hc => exact ⟨h.mem.join hc, h.files.join hc⟩
    | fallback failure hc => exact ⟨h.mem.fallback hc failure, h.files.fallback hc failure⟩
    | template hc hnew => exact ⟨h.mem.template hc hnew, h.files.template hc _⟩
    | register hc => exact ⟨h.mem.register, h.files.register hc⟩
    | raise hc =>
      obtain ⟨c, hb⟩ := h.files.raises hreg hc
      exact ⟨h.mem.setCtl fun c hc' => (by cases hc'), h.files.raise hb⟩

theorem Initial.cutInv (h : Initial cfg s) : CutInv cfg s := by
  have hunread : s.unread = [] := by rw [State.unread, h.queue, h.worker]; rfl
  refine ⟨⟨h.agent, ?_, ?_, ?_, ?_, ?_, ?_⟩, ⟨?_, ?_, ?_⟩, ⟨?_, ?_⟩⟩
  · simp [h.templates]
  · simp [hunread]
  · simp [h.worker]
  · simp [h.images]
  · simp [h.ctl, Ctl.call]
  · simp [h.point]
  · rw [FilesOk, h.ctl]
    exact ⟨h.files.inv, h.files.live⟩
  · simp [h.ctl, Ctl.call]
  · simp [h.registry]
  · simp [hunread]
  · simp [h.overrun]

/-! ### Runs -/

/-- The agent does not run over the dump of `id`. -/
def Calm (id : String) (s : State M P C) : Label M P C → Prop
  | .agent _ _ => ∀ job ∈ s.unread, job.id = id → s.reaches job.root = false
  | _ => True

instance (id : String) (s : State M P C) : ∀ label, Decidable (Calm id s label)
  | .agent _ _ => inferInstanceAs (Decidable (∀ job ∈ s.unread, _))
  | .call .. | .submit | .addCallback | .wait _ | .sink | .join | .fallback _ | .template _
  | .register | .raise | .start | .read | .finish _ | .callback | .restore .. => isTrue trivial

/-- What stays after the call for `id`. -/
structure Since (cfg : Overlay.Config) (id : String) (now : M × View P C) (s : State M P C) :
    Prop where
  inv : CutInv cfg s
  name : id ∈ s.names
  point : s.point id = some now

theorem Since.step {id : String} {now : M × View P C} {label : Label M P C} (h : Since cfg id now s)
    (hcfg : cfg.asyncIncremental = false) (hreg : Regular s label)
    (hstep : step m cfg s label = some t) : Since cfg id now t := by
  have ha := Adds.step h.inv.mem.agent hstep
  exact ⟨h.inv.step hcfg hreg hstep, ha.names id h.name, (ha.point id h.name).trans h.point⟩

omit [DecidableEq P] in
theorem Adds.overrun_of_calm {id : String} {label : Label M P C} (h : Adds s label t)
    (hcalm : Calm id s label) (hid : id ∉ s.overrun) : id ∉ t.overrun := by
  intro hmem
  rcases h.overrun id hmem with hold | ⟨mem, op, rfl, job, hjob, heq, hreach⟩
  · exact hid hold
  · rw [hcalm job hjob heq] at hreach
    cases hreach

theorem overrun_run {id : String} {labels : List (Label M P C)}
    (hcfg : cfg.asyncIncremental = false) (h : CutInv cfg s)
    (hreg : Along (step m cfg) Regular s labels) (hcalm : Along (step m cfg) (Calm id) s labels)
    (hrun : exec (step m cfg) s labels = some t) (hid : id ∉ s.overrun) : id ∉ t.overrun := by
  have hinv : CutInv cfg t ∧ id ∉ t.overrun :=
    invariant_along (I := fun s => CutInv cfg s ∧ id ∉ s.overrun)
      (fun hi hc hstep => ⟨hi.1.step hcfg hc.1 hstep,
        (Adds.step hi.1.mem.agent hstep).overrun_of_calm hc.2 hi.2⟩)
      ⟨h, hid⟩ (hreg.and hcalm) hrun
  exact hinv.2

/-- A call keeps the moment it begins in. -/
theorem CutInv.called {parent : Option String} {raw : String} {inp : Overlay.CkptInput}
    {answers : Answers} (h : CutInv cfg s) (hcfg : cfg.asyncIncremental = false)
    (hreg : Regular s (.call parent raw inp answers : Label M P C))
    (hstep : Legacy.step m cfg s (.call parent raw inp answers) = some t) :
    Since cfg inp.id (s.mem s.agentPid, s.files.sb.visible) t ∧ inp.id ∉ s.overrun := by
  have ht := h.step hcfg hreg hstep
  cases moves_of_step m cfg hstep with
  | worker hw => cases hw
  | ofCall hm => cases hm
  | call hidle hfresh hnew hpids hpending =>
    obtain ⟨hframe, -, -⟩ := begin_spec m cfg parent raw inp h.mem.agent hpids rfl
    refine ⟨⟨ht, ?_, ?_⟩, fun hover => hnew.1 (h.named.overrun _ hover)⟩
    · rw [hframe]
      exact List.mem_cons_self
    · rw [hframe]
      exact Function.update_self ..

/-- No templates, full dumps of the namespace. -/
def plainModes : Modes where
  warmTemplate := false
  stashTemplate := false
  freshPidns := false
  preforkDump := false
  preforkFallback := false
  asyncFullDump := false
  incrementalDump := true
  probeCrossPid := false
  fixedActivePid := none
  restoreFastforkDumpPid := false
  validateIncremental := false
  isPidnsInit := fun _ => true

/-- A warm template and a disposable dump process for every checkpoint. -/
def stashModes : Modes :=
  { plainModes with warmTemplate := true, stashTemplate := true, asyncFullDump := true }

/-- A new controller. The active process is the init of its namespace. -/
def exampleStart : State ℕ ℕ ℕ where
  files := Overlay.exampleStart
  mem := fun _ => 0
  used := [10]
  agentPid := 10
  nsInitPid := 10
  templates := Dict.empty
  registry := Dict.empty
  stats := Dict.empty
  images := Dict.empty
  queue := []
  worker := .idle
  futures := Dict.empty
  callbacks := []
  lastRestoreTargetId := none
  ctl := .idle
  before := Overlay.exampleStart
  point := fun _ => none
  overrun := []
  names := []

theorem exampleStart_initial : Initial Overlay.exampleConfig exampleStart :=
  ⟨Overlay.exampleStart_initial, List.mem_cons_self, rfl, rfl, rfl, rfl, rfl, rfl, rfl, rfl, rfl,
    fun _ => rfl, rfl⟩

/-- Every process that is asked answers. -/
def exampleAnswers : Answers where
  bootstrap := some 11
  preDump := true
  prefork := none
  innerPid := none
  slotFree := true
  clone := none
  agentGone := false
  warmStash := some 12
  dumpStash := some 13

/-- The agent works. -/
def exampleWork : List (Label ℕ ℕ ℕ) := [.agent 5 (some (.write [] 7 3))]

/-- It is checkpointed. -/
def exampleCall : Label ℕ ℕ ℕ :=
  .call none "" ⟨"a", false, true, false, none⟩ exampleAnswers

/-- The call goes on and returns, the agent works again, and only then CRIU comes. -/
def slowDump : List (Label ℕ ℕ ℕ) :=
  [.submit, .addCallback, .wait true, .sink, .join, .register, .agent 6 (some (.write [] 7 4)),
    .start, .read, .finish none, .callback]

/-- What the agent has in memory when the call begins, and what the image and the template have. -/
def slowDumpOutcome (m : Modes) : Option (ℕ × Option (Image ℕ) × Option ℕ) :=
  (exec (step m Overlay.exampleConfig) exampleStart exampleWork).bind fun u =>
    (exec (step m Overlay.exampleConfig) u (exampleCall :: slowDump)).map fun s =>
      (u.mem u.agentPid, s.images.find? "a", (s.templates.find? "a").map s.mem)

theorem slowDumpOutcome_eq_some {m : Modes} {x : ℕ × Option (Image ℕ) × Option ℕ}
    (h : slowDumpOutcome m = some x) :
    ∃ u s, exec (step m Overlay.exampleConfig) exampleStart exampleWork = some u ∧
      exec (step m Overlay.exampleConfig) u (exampleCall :: slowDump) = some s ∧
      u.mem u.agentPid = x.1 ∧ s.images.find? "a" = x.2.1 ∧
      (s.templates.find? "a").map s.mem = x.2.2 := by
  obtain ⟨u, hu, hmap⟩ := Option.bind_eq_some_iff.mp h
  obtain ⟨s, hs, rfl⟩ := Option.map_eq_some_iff.mp hmap
  exact ⟨u, s, hu, hs, rfl, rfl, rfl⟩

end Legacy

end DeltaBox
