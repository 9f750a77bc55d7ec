import DeltaBox.Legacy.Forks

/-!
# The memory side of a checkpoint

Three kinds of copies of the agent's memory are about: warm templates, dump trees that CRIU has not
read yet, and memory images. `MemInv` says that each of them is what the agent had in memory when the
call it belongs to began. The exception are dump trees that the agent itself writes to, because they
are the agent: once it has moved they are *overrun*.

## Main results

* `MemInv.agentStep` — the agent keeps it
* `MemInv.begin`, `MemInv.template` — so do the forks
* `MemInv.worker` — so does the worker
-/

namespace DeltaBox

namespace Legacy

variable {M P C : Type} {s t : State M P C} {id : String}

/-! ### Memory -/

/-- The agent's memory when the call for `id` began. -/
def State.memAt (s : State M P C) (id : String) : Option M := (s.point id).map Prod.fst

/-- A dump of the root would read what the agent had in memory when the call for `id` began. -/
structure Reads (s : State M P C) (id : String) (root : Root) : Prop where
  used : ∀ pid, root = .process pid → pid ∈ s.used
  content : id ∉ s.overrun → s.memAt id = some (s.content root)

/-- All copies of the agent's memory are from the moment of their call. -/
structure MemInv (s : State M P C) : Prop where
  /-- The active process exists. -/
  agent : s.agentPid ∈ s.used
  /-- The warm templates. -/
  templates : ∀ id pid, s.templates.find? id = some pid →
    pid ∈ s.used ∧ pid ≠ s.agentPid ∧ s.memAt id = some (s.mem pid)
  /-- The dump trees CRIU has not read yet. -/
  unread : ∀ job ∈ s.unread, Reads s job.id job.root
  /-- What CRIU has read. -/
  read : ∀ job content, s.worker = .running job (some content) → job.id ∉ s.overrun →
    s.memAt job.id = some content
  /-- What it has written. -/
  images : ∀ id content, s.images.find? id = some (.complete content) → id ∉ s.overrun →
    s.memAt id = some content
  /-- The call that is under way, and its validation twin. -/
  call : ∀ c, s.ctl.call = some c → s.content c.root = s.mem s.agentPid ∧
    (∀ pid, c.root = .process pid → pid ∈ s.used) ∧
    s.memAt c.id = some (s.mem s.agentPid) ∧ s.memAt (c.id ++ "_full") = some (s.mem s.agentPid)
  /-- Only ids have a past. -/
  named : ∀ id, (s.point id).isSome → id ∈ s.names

/-- A call moves on, or another one begins. -/
theorem MemInv.setCtl {ctl : Ctl} (h : MemInv s)
    (hcall : ∀ c, ctl.call = some c → s.content c.root = s.mem s.agentPid ∧
      (∀ pid, c.root = .process pid → pid ∈ s.used) ∧
      s.memAt c.id = some (s.mem s.agentPid) ∧
      s.memAt (c.id ++ "_full") = some (s.mem s.agentPid)) :
    MemInv { s with ctl := ctl } where
  agent := h.agent
  templates := h.templates
  unread job hjob := ⟨(h.unread job hjob).used, (h.unread job hjob).content⟩
  read := h.read
  images := h.images
  call := hcall
  named := h.named

/-! ### Steps that copy no memory -/

/-- The two states agree on everything that has to do with memory. -/
structure SameMemory (s t : State M P C) : Prop where
  mem : t.mem = s.mem
  used : t.used = s.used
  agent : t.agentPid = s.agentPid
  templates : t.templates = s.templates
  overrun : t.overrun = s.overrun
  point : t.point = s.point
  names : t.names = s.names
  /-- A call keeps its id and its dump root. -/
  call : ∀ c, t.ctl.call = some c → ∃ c', s.ctl.call = some c' ∧ c.id = c'.id ∧ c.root = c'.root

theorem SameMemory.content (h : SameMemory s t) (root : Root) : t.content root = s.content root := by
  cases root with
  | «namespace» nsInit => rw [State.content, State.content, h.mem, h.agent]
  | process pid => rw [State.content, State.content, h.mem]

theorem SameMemory.memAt (h : SameMemory s t) (id : String) : t.memAt id = s.memAt id := by
  rw [State.memAt, State.memAt, h.point]

theorem SameMemory.reads (h : SameMemory s t) {root : Root} (hr : Reads s id root) :
    Reads t id root where
  used pid heq := h.used ▸ hr.used pid heq
  content hover := by
    rw [h.memAt, h.content]
    exact hr.content (h.overrun ▸ hover)

/-- The jobs and images are to be looked at by the caller. -/
theorem MemInv.same (h : MemInv s) (hs : SameMemory s t)
    (hunread : ∀ job ∈ t.unread, Reads s job.id job.root)
    (hread : ∀ job content, t.worker = .running job (some content) → job.id ∉ s.overrun →
      s.memAt job.id = some content)
    (himages : ∀ id content, t.images.find? id = some (.complete content) → id ∉ s.overrun →
      s.memAt id = some content) : MemInv t where
  agent := by
    rw [hs.agent, hs.used]
    exact h.agent
  templates id pid hp := by
    rw [hs.used, hs.agent, hs.memAt, hs.mem]
    exact h.templates id pid (hs.templates ▸ hp)
  unread job hjob := hs.reads (hunread job hjob)
  read job content hw hover := by
    rw [hs.memAt]
    exact hread job content hw (hs.overrun ▸ hover)
  images id content hi hover := by
    rw [hs.memAt]
    exact himages id content hi (hs.overrun ▸ hover)
  call c hc := by
    obtain ⟨c', hc', hid, hroot⟩ := hs.call c hc
    rw [hid, hroot, hs.content, hs.mem, hs.agent, hs.used, hs.memAt, hs.memAt]
    exact h.call c' hc'
  named id hid := by
    rw [hs.names]
    exact h.named id (hs.point ▸ hid)

/-- In particular when they are left alone. -/
theorem MemInv.same_work (h : MemInv s) (hs : SameMemory s t) (hqueue : t.queue = s.queue)
    (hworker : t.worker = s.worker) (himages : t.images = s.images) : MemInv t := by
  have hunread : t.unread = s.unread := by rw [State.unread, State.unread, hqueue, hworker]
  refine h.same hs (fun job hjob => h.unread job (hunread ▸ hjob)) (fun job content hw => ?_)
    fun id content hi => ?_
  · exact h.read job content (hworker ▸ hw)
  · exact h.images id content (himages ▸ hi)

/-- An image is written. -/
theorem MemInv.images_set (h : MemInv s) {image : Image M}
    (hid : ∀ content, image = .complete content → id ∉ s.overrun → s.memAt id = some content)
    (k : String) (content : M) (hk : (s.images.set id image).find? k = some (.complete content))
    (hover : k ∉ s.overrun) : s.memAt k = some content := by
  rw [Dict.find?_set] at hk
  split_ifs at hk with heq
  · subst heq
    exact hid content (Option.some.inj hk) hover
  · exact h.images k content hk hover

/-! ### Forks -/

theorem MemInv.forks (h : MemInv s) (hat : s.memAt id = some (s.mem s.agentPid))
    (hf : Forks id s t) : MemInv t := by
  have hfield : t.queue = s.queue ∧ t.worker = s.worker ∧ t.images = s.images ∧
      t.overrun = s.overrun ∧ t.point = s.point ∧ t.names = s.names ∧ t.ctl = s.ctl := by
    rw [hf.frame]
    exact ⟨rfl, rfl, rfl, rfl, rfl, rfl, rfl⟩
  obtain ⟨hqueue, hworker, himages, hoverrun, hpoint, hnames, hctl⟩ := hfield
  have hmemAt : ∀ k, t.memAt k = s.memAt k := fun k => by rw [State.memAt, State.memAt, hpoint]
  have hcontent : ∀ root : Root, (∀ pid, root = .process pid → pid ∈ s.used) →
      t.content root = s.content root := by
    intro root hused
    cases root with
    | «namespace» nsInit => exact hf.agent_mem
    | process pid => exact hf.mem pid (hused pid rfl)
  have hunread : t.unread = s.unread := by rw [State.unread, State.unread, hqueue, hworker]
  refine ⟨hf.agent_used, fun k pid hp => ?_, fun job hjob => ?_, fun job content hw hover => ?_,
    fun k content hi hover => ?_, fun c hc => ?_, fun k hk => ?_⟩
  · -- a template of another checkpoint is neither written nor made the active process
    have hold : s.templates.find? k = some pid →
        pid ∈ t.used ∧ pid ≠ t.agentPid ∧ t.memAt k = some (t.mem pid) := by
      intro hp
      obtain ⟨hused, hne, hmem⟩ := h.templates k pid hp
      refine ⟨hf.used pid hused, fun heq => ?_, ?_⟩
      · rcases hf.agent with hsame | hnew
        · exact hne (heq.trans hsame)
        · exact hnew (heq ▸ hused)
      · rw [hmemAt, hf.mem pid hused, hmem]
    by_cases hk : k = id
    · subst hk
      rcases hf.template pid hp with hp | ⟨hused, hne, hmem⟩
      · exact hold hp
      · exact ⟨hused, hne, by rw [hmemAt, hat, hmem]⟩
    · exact hold (hf.templates k hk ▸ hp)
  · have hr := h.unread job (hunread ▸ hjob)
    refine ⟨fun pid heq => hf.used pid (hr.used pid heq), fun hover => ?_⟩
    rw [hmemAt, hcontent _ hr.used]
    exact hr.content (hoverrun ▸ hover)
  · rw [hmemAt]
    exact h.read job content (hworker ▸ hw) (hoverrun ▸ hover)
  · rw [hmemAt]
    exact h.images k content (himages ▸ hi) (hoverrun ▸ hover)
  · obtain ⟨hroot, hused, hat', hfull⟩ := h.call c (hctl ▸ hc)
    rw [hcontent _ hused, hf.agent_mem, hmemAt, hmemAt]
    exact ⟨hroot, fun pid heq => hf.used pid (hused pid heq), hat', hfull⟩
  · rw [hnames]
    exact h.named k (hpoint ▸ hk)

/-! ### The steps of a call -/

section

variable {m : Modes} {cfg : Overlay.Config} [DecidableEq P] {c : Call}

omit [DecidableEq P] in
theorem memAt_isSome {x : M} (h : s.memAt id = some x) : (s.point id).isSome := by
  obtain ⟨p, hp, -⟩ := Option.map_eq_some_iff.mp h
  rw [hp]
  rfl

theorem memAt_mark_self (s : State M P C) (parent : Option String) (id : String) :
    (s.mark parent id).memAt id = some (s.mem s.agentPid) := by
  simp [State.mark, State.memAt]

theorem memAt_mark_full (s : State M P C) (parent : Option String) (id : String) :
    (s.mark parent id).memAt (id ++ "_full") = some (s.mem s.agentPid) := by
  by_cases h : id ++ "_full" = id
  · rw [h, memAt_mark_self]
  · simp [State.mark, State.memAt]

theorem memAt_mark_of_ne {parent : Option String} {k : String} (h : k ≠ id)
    (hfull : k ≠ id ++ "_full") : (s.mark parent id).memAt k = s.memAt k := by
  simp [State.mark, State.memAt, Function.update_of_ne h, Function.update_of_ne hfull]

/-- A new id gets its past. -/
theorem MemInv.mark (h : MemInv s) (hidle : s.ctl = .idle) {parent : Option String}
    (hnew : NewId s parent id) : MemInv (s.mark parent id) := by
  obtain ⟨hid, hfull, -, -⟩ := hnew
  have hold : ∀ k x, s.memAt k = some x → (s.mark parent id).memAt k = some x := by
    intro k x hk
    have hnamed := h.named k (memAt_isSome hk)
    have hne : k ≠ id := fun heq => hid (heq ▸ hnamed)
    have hne' : k ≠ id ++ "_full" := fun heq => hfull (heq ▸ hnamed)
    rw [memAt_mark_of_ne hne hne', hk]
  refine ⟨h.agent, fun k pid hp => ?_, fun job hjob => ?_, fun job content hw hover => ?_,
    fun k content hi hover => ?_, fun c hc => ?_, fun k hk => ?_⟩
  · obtain ⟨hused, hne, hmem⟩ := h.templates k pid hp
    exact ⟨hused, hne, hold k _ hmem⟩
  · have hr := h.unread job hjob
    exact ⟨hr.used, fun hover => hold _ _ (hr.content hover)⟩
  · exact hold _ _ (h.read job content hw hover)
  · exact hold _ _ (h.images k content hi hover)
  · change s.ctl.call = some c at hc
    rw [hidle] at hc
    cases hc
  · change k ∈ id :: (id ++ "_full") :: (parent.toList ++ s.names)
    by_cases heq : k = id
    · exact heq ▸ List.mem_cons_self
    · by_cases heq' : k = id ++ "_full"
      · exact heq' ▸ List.mem_cons_of_mem _ List.mem_cons_self
      · have hk' : (s.point k).isSome := by
          simpa [State.mark, Function.update_of_ne heq, Function.update_of_ne heq'] using hk
        simp [h.named k hk']

theorem MemInv.begin {parent : Option String} {raw : String} {inp : Overlay.CkptInput}
    {answers : Answers} (h : MemInv s) (hidle : s.ctl = .idle) (hnew : NewId s parent inp.id)
    (hpids : NewPids s answers.pids) : MemInv (begin m cfg s parent raw inp answers) := by
  have hmark := h.mark hidle hnew
  have hat := memAt_mark_self s parent inp.id
  have hspec := head_spec m inp.id parent raw inp (Overlay.chooseStrategy cfg raw inp.hot)
    hmark.agent hpids
  rcases hr : head m inp.id parent raw inp (Overlay.chooseStrategy cfg raw inp.hot) answers
    (s.mark parent inp.id) with ⟨_ | c, t⟩
  · rw [hr] at hspec
    rw [Legacy.begin, hr]
    exact hmark.forks hat hspec
  · rw [hr] at hspec
    rw [Legacy.begin, hr]
    obtain ⟨hforks, hcopies, hid, -⟩ := hspec
    have ht := hmark.forks hat hforks
    have hmemAt : ∀ k, t.memAt k = (s.mark parent inp.id).memAt k := fun k => by
      rw [State.memAt, hforks.frame]
      rfl
    refine ht.setCtl fun c' hc => ?_
    obtain rfl := Option.some.inj hc
    refine ⟨hcopies.content.trans hforks.agent_mem.symm, hcopies.used, ?_, ?_⟩
    · rw [hid]
      exact (hmemAt _).trans (hat.trans (congrArg some hforks.agent_mem.symm))
    · rw [hid]
      exact (hmemAt _).trans ((memAt_mark_full s parent _).trans
        (congrArg some hforks.agent_mem.symm))

omit [DecidableEq P] in
/-- What the call reads of its dump root. -/
theorem MemInv.callReads (h : MemInv s) (hc : s.ctl.call = some c) : Reads s c.id c.root := by
  obtain ⟨hroot, hused, hat, -⟩ := h.call c hc
  exact ⟨hused, fun _ => hroot ▸ hat⟩

omit [DecidableEq P] in
theorem MemInv.submit (h : MemInv s) (hc : s.ctl = .forked c) : MemInv (submit m s c) := by
  have hcall : s.ctl.call = some c := by rw [hc]; rfl
  rw [Legacy.submit]
  split_ifs
  · exact h.same_work ⟨rfl, rfl, rfl, rfl, rfl, rfl, rfl, fun c' hc' =>
      ⟨c, hcall, by cases hc'; exact ⟨rfl, rfl⟩⟩⟩ rfl rfl rfl
  · refine h.same ⟨rfl, rfl, rfl, rfl, rfl, rfl, rfl, fun c' hc' =>
      ⟨c, hcall, by cases hc'; exact ⟨rfl, rfl⟩⟩⟩ (fun job hjob => ?_) h.read h.images
    rw [State.unread, List.mem_append, List.mem_append, List.mem_singleton] at hjob
    rcases hjob with (hjob | rfl) | hjob
    · exact h.unread job (List.mem_append_left _ hjob)
    · exact h.callReads hcall
    · exact h.unread job (List.mem_append_right _ hjob)

omit [DecidableEq P] in
theorem MemInv.addCallback (h : MemInv s) (hc : s.ctl = .submitted c) :
    MemInv { addDoneCallback s c.id with ctl := .watched c } := by
  have hcall : ∀ c', (Ctl.watched c).call = some c' →
      ∃ c'', s.ctl.call = some c'' ∧ c'.id = c''.id ∧ c'.root = c''.root := fun c' hc' =>
    ⟨c, by rw [hc]; rfl, by cases hc'; exact ⟨rfl, rfl⟩⟩
  rw [addDoneCallback]
  split
  · exact h.same_work ⟨rfl, rfl, rfl, rfl, rfl, rfl, rfl, hcall⟩ rfl rfl rfl
  · exact h.same_work ⟨rfl, rfl, rfl, rfl, rfl, rfl, rfl, hcall⟩ rfl rfl rfl
  · exact h.same_work ⟨rfl, rfl, rfl, rfl, rfl, rfl, rfl, hcall⟩ rfl rfl rfl

omit [DecidableEq P] in
theorem MemInv.dumpTwin (h : MemInv s) (hc : s.ctl.call = some c) (twin : Bool) :
    MemInv (dumpTwin s c twin) := by
  obtain ⟨hroot, -, -, hfull⟩ := h.call c hc
  rw [Legacy.dumpTwin]
  split_ifs
  · refine h.same ⟨rfl, rfl, rfl, rfl, rfl, rfl, rfl, fun c' hc' => ⟨c', hc', rfl, rfl⟩⟩ h.unread
      h.read (h.images_set fun content hcontent _ => ?_)
    cases hcontent
    rw [hroot, hfull]
  · exact h

omit [DecidableEq P] in
theorem dumpTwin_ctl (s : State M P C) (c : Call) (twin : Bool) :
    (dumpTwin s c twin).ctl = s.ctl := by
  rw [dumpTwin]
  split_ifs
  · rfl
  · rfl

omit [DecidableEq P] in
theorem MemInv.waits (h : MemInv s) (hc : s.ctl = .watched c) (twinOk : Bool) :
    MemInv (waits m s c twinOk) := by
  have hcall : s.ctl.call = some c := by rw [hc]; rfl
  rw [Legacy.waits]
  generalize (validationNeeded m s c && (joinFuture s c.id).isNone && twinOk) = twin
  have ht := h.dumpTwin hcall twin
  have hctl : ∀ c', (Ctl.waited { c with twin := twin }).call = some c' →
      ∃ c'', (Legacy.dumpTwin s c twin).ctl.call = some c'' ∧ c'.id = c''.id ∧ c'.root = c''.root := by
    intro c' hc'
    cases hc'
    exact ⟨c, by rw [dumpTwin_ctl, hcall], rfl, rfl⟩
  generalize Legacy.dumpTwin s c twin = t at ht hctl ⊢
  rw [bootstrapWait]
  split_ifs
  · exact ht.same_work ⟨rfl, rfl, rfl, rfl, rfl, rfl, rfl, hctl⟩ rfl rfl rfl
  · exact ht.same_work ⟨rfl, rfl, rfl, rfl, rfl, rfl, rfl, hctl⟩ rfl rfl rfl

omit [DecidableEq P] in
theorem MemInv.sink (h : MemInv s) (hc : s.ctl = .waited c) : MemInv (sink cfg s c) := by
  have hcall : s.ctl.call = some c := by rw [hc]; rfl
  rw [Legacy.sink]
  dsimp only
  split
  · exact h.same_work ⟨rfl, rfl, rfl, rfl, rfl, rfl, rfl, fun c' hc' => by cases hc'⟩ rfl rfl rfl
  · exact h.same_work ⟨rfl, rfl, rfl, rfl, rfl, rfl, rfl, fun c' hc' =>
      ⟨c, hcall, by cases hc'; exact ⟨rfl, rfl⟩⟩⟩ rfl rfl rfl

omit [DecidableEq P] in
/-- Any step that only moves the call. -/
theorem MemInv.moved {ctl : Ctl} (h : MemInv s) (hc : s.ctl.call = some c)
    (hctl : ∀ c', ctl.call = some c' → c'.id = c.id ∧ c'.root = c.root) :
    MemInv { s with ctl := ctl } :=
  h.same_work ⟨rfl, rfl, rfl, rfl, rfl, rfl, rfl, fun c' hc' => ⟨c, hc, hctl c' hc'⟩⟩ rfl rfl rfl

omit [DecidableEq P] in
theorem MemInv.join (h : MemInv s) (hc : s.ctl = .sunk c) : MemInv (joinBeforeTemplate m s c) := by
  have hcall : s.ctl.call = some c := by rw [hc]; rfl
  rw [joinBeforeTemplate]
  split
  · split
    · exact h.moved hcall fun c' hc' => by cases hc'; exact ⟨rfl, rfl⟩
    · exact h.moved hcall fun c' hc' => by cases hc'; exact ⟨rfl, rfl⟩
  · exact h.moved hcall fun c' hc' => by cases hc'; exact ⟨rfl, rfl⟩

omit [DecidableEq P] in
theorem MemInv.fallback (h : MemInv s) (hc : s.ctl = .raised c) (failure : Option Failure) :
    MemInv (fullFallback s c failure) := by
  have hcall : s.ctl.call = some c := by rw [hc]; rfl
  obtain ⟨hroot, -, hat, -⟩ := h.call c hcall
  have hsame : ∀ {ctl : Ctl} {stats : Dict String Failure} {images : Dict String (Image M)},
      (∀ c', ctl.call = some c' → c'.id = c.id ∧ c'.root = c.root) →
      SameMemory s { s with images := images, stats := stats, ctl := ctl } := fun hctl =>
    ⟨rfl, rfl, rfl, rfl, rfl, rfl, rfl, fun c' hc' => ⟨c, hcall, hctl c' hc'⟩⟩
  cases failure with
  | none =>
    refine h.same (hsame fun c' hc' => by cases hc'; exact ⟨rfl, rfl⟩) h.unread h.read
      (h.images_set fun content hcontent _ => ?_)
    cases hcontent
    rw [hroot, hat]
  | some f =>
    exact h.same (hsame fun c' hc' => by cases hc'; exact ⟨rfl, rfl⟩) h.unread h.read
      (h.images_set fun content hcontent => by cases hcontent)

omit [DecidableEq P] in
theorem MemInv.template (h : MemInv s) (hc : s.ctl = .joined c) {child : Option ℕ}
    (hnew : NewPids s child.toList) : MemInv (lateTemplate m s c child) := by
  have hcall : s.ctl.call = some c := by rw [hc]; rfl
  obtain ⟨-, -, hat, -⟩ := h.call c hcall
  cases child with
  | none => exact h.moved hcall fun c' hc' => by cases hc'; exact ⟨rfl, rfl⟩
  | some pid =>
    have hpid : pid ∉ s.used := hnew.2 pid (by simp)
    rw [lateTemplate]
    split_ifs
    · have hf := h.forks hat (forks_stash h.agent hpid)
      exact hf.moved hcall fun c' hc' => by cases hc'; exact ⟨rfl, rfl⟩
    · have hf := h.forks hat (forks_forkReplace h.agent hpid)
      exact hf.moved hcall fun c' hc' => by cases hc'; exact ⟨rfl, rfl⟩

theorem MemInv.register (h : MemInv s) : MemInv (register m s c) :=
  h.same_work ⟨rfl, rfl, rfl, rfl, rfl, rfl, rfl, fun c' hc' => by cases hc'⟩ rfl rfl rfl

/-! ### The worker -/

omit [DecidableEq P] in
theorem SameMemory.of_ctl (hmem : t.mem = s.mem) (hused : t.used = s.used)
    (hagent : t.agentPid = s.agentPid) (htemplates : t.templates = s.templates)
    (hoverrun : t.overrun = s.overrun) (hpoint : t.point = s.point) (hnames : t.names = s.names)
    (hctl : t.ctl = s.ctl) : SameMemory s t :=
  ⟨hmem, hused, hagent, htemplates, hoverrun, hpoint, hnames, fun c hc => ⟨c, hctl ▸ hc, rfl, rfl⟩⟩

omit [DecidableEq P] in
theorem MemInv.worker {label : Label M P C} (h : MemInv s) (hw : WorkerMoves s label t) :
    MemInv t := by
  have hqueue : ∀ job ∈ s.queue, Reads s job.id job.root := fun job hjob =>
    h.unread job (List.mem_append_left _ hjob)
  cases hw with
  | @start job queue hw hq =>
    refine h.same (.of_ctl rfl rfl rfl rfl rfl rfl rfl rfl) (fun job' hjob => ?_)
      (fun job' content hw' => by cases hw') h.images
    refine hqueue job' ?_
    simp only [State.unread, List.mem_append, List.mem_singleton] at hjob
    rw [hq, List.mem_cons]
    tauto
  | @read job hw =>
    have hmem : job ∈ s.unread := by
      rw [State.unread, hw]
      simp
    refine h.same (.of_ctl rfl rfl rfl rfl rfl rfl rfl rfl) (fun job' hjob => ?_)
      (fun job' content hw' hover => ?_) h.images
    · exact hqueue job' (by simpa [State.unread] using hjob)
    · cases hw'
      exact (h.unread job hmem).content hover
  | @succeed job content hw =>
    refine h.same (.of_ctl rfl rfl rfl rfl rfl rfl rfl rfl) (fun job' hjob => ?_)
      (fun job' content hw' => by cases hw') (h.images_set fun content' hcontent hover => ?_)
    · exact hqueue job' (by simpa [State.unread] using hjob)
    · cases hcontent
      exact h.read job content hw hover
  | @fail job content f hw =>
    refine h.same (.of_ctl rfl rfl rfl rfl rfl rfl rfl rfl) (fun job' hjob => ?_)
      (fun job' content hw' => by cases hw') (h.images_set fun content' hcontent => by cases hcontent)
    exact hqueue job' (by simpa [State.unread] using hjob)
  | callback hw =>
    refine h.same (.of_ctl rfl rfl rfl rfl rfl rfl rfl rfl) (fun job' hjob => ?_)
      (fun job' content hw' => by cases hw') h.images
    exact hqueue job' (by simpa [State.unread, recordDump] using hjob)

/-! ### The agent -/

omit [DecidableEq P] in
/-- **The agent moves.** The dump trees it writes to are overrun, and nothing else can tell. -/
theorem MemInv.agentStep (h : MemInv s) (hidle : s.ctl = .idle) (mem : M)
    (files : Overlay.Traced P C) :
    MemInv { s with
      mem := Function.update s.mem s.agentPid mem
      files := files
      overrun := s.overrun ++ (s.unread.filter fun job => s.reaches job.root).map Job.id } := by
  have hover : ∀ {k : String},
      k ∉ s.overrun ++ (s.unread.filter fun job => s.reaches job.root).map Job.id →
        k ∉ s.overrun := fun hk hmem => hk (List.mem_append_left _ hmem)
  refine ⟨h.agent, fun k pid hp => ?_, fun job hjob => ⟨(h.unread job hjob).used, fun hk => ?_⟩,
    fun job content hw hk => h.read job content hw (hover hk),
    fun k content hi hk => h.images k content hi (hover hk), fun c hc => ?_, h.named⟩
  · obtain ⟨hused, hne, hmem⟩ := h.templates k pid hp
    refine ⟨hused, hne, ?_⟩
    change s.memAt k = some (Function.update s.mem s.agentPid mem pid)
    rw [Function.update_of_ne hne, hmem]
  · -- a job the agent reaches is overrun now
    have hreach : s.reaches job.root = false := by
      by_contra hr
      refine hk (List.mem_append_right _ (List.mem_map_of_mem (List.mem_filter.mpr ⟨hjob, ?_⟩)))
      simpa using hr
    have hcontent := (h.unread job hjob).content (hover hk)
    cases hroot : job.root with
    | «namespace» nsInit =>
      rw [hroot] at hreach
      cases hreach
    | process pid =>
      rw [hroot] at hreach hcontent
      have hne : pid ≠ s.agentPid := by simpa [State.reaches] using hreach
      change s.memAt job.id = some (Function.update s.mem s.agentPid mem pid)
      rw [Function.update_of_ne hne]
      exact hcontent
  · change s.ctl.call = some c at hc
    rw [hidle] at hc
    cases hc

end

end Legacy

end DeltaBox
