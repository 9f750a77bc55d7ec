import DeltaBox.Legacy.Checkpoint

/-!
# The forks of a checkpoint

What the head of `_checkpoint_legacy` does to the processes, in all modes at once: it makes copies of
the agent's memory under new process ids, and one of the copies may become the active process. No
memory that was there before changes.

## Main results

* `head_spec` — the dump root and the template hold what the agent had in memory
-/

namespace DeltaBox

namespace Legacy

variable {M P C : Type} {s t u : State M P C} {id : String}

/-- The memory of the agent was copied a few times on behalf of the checkpoint `id`. -/
structure Forks (id : String) (s t : State M P C) : Prop where
  /-- Nothing else changes. -/
  frame : t = { s with
    mem := t.mem, used := t.used, agentPid := t.agentPid, templates := t.templates }
  /-- No memory changes. -/
  mem : ∀ pid ∈ s.used, t.mem pid = s.mem pid
  used : ∀ pid ∈ s.used, pid ∈ t.used
  /-- The active process is the old one or a copy. -/
  agent : t.agentPid = s.agentPid ∨ t.agentPid ∉ s.used
  agent_used : t.agentPid ∈ t.used
  agent_mem : t.mem t.agentPid = s.mem s.agentPid
  /-- The template of `id` is a copy, too. -/
  template : ∀ pid, t.templates.find? id = some pid → s.templates.find? id = some pid ∨
    pid ∈ t.used ∧ pid ≠ t.agentPid ∧ t.mem pid = s.mem s.agentPid
  templates : ∀ k, k ≠ id → t.templates.find? k = s.templates.find? k

theorem Forks.refl (h : s.agentPid ∈ s.used) : Forks id s s :=
  ⟨rfl, fun _ _ => rfl, fun _ hp => hp, Or.inl rfl, h, rfl, fun _ hp => Or.inl hp, fun _ _ => rfl⟩

theorem Forks.trans (h : Forks id s t) (h' : Forks id t u) : Forks id s u where
  frame := by
    rw [h'.frame, h.frame]
  mem pid hp := (h'.mem pid (h.used pid hp)).trans (h.mem pid hp)
  used pid hp := h'.used pid (h.used pid hp)
  agent := by
    rcases h'.agent with heq | hnew
    · rw [heq]
      exact h.agent
    · exact Or.inr fun hp => hnew (h.used _ hp)
  agent_used := h'.agent_used
  agent_mem := h'.agent_mem.trans h.agent_mem
  template pid hp := by
    rcases h'.template pid hp with hold | ⟨hused, hne, hmem⟩
    · rcases h.template pid hold with hold | ⟨hused, hne, hmem⟩
      · exact Or.inl hold
      · refine Or.inr ⟨h'.used pid hused, fun heq => ?_, (h'.mem pid hused).trans hmem⟩
        rcases h'.agent with hsame | hnew
        · exact hne (heq.trans hsame)
        · exact hnew (heq ▸ hused)
    · exact Or.inr ⟨hused, hne, hmem.trans h.agent_mem⟩
  templates k hk := (h'.templates k hk).trans (h.templates k hk)

/-! ### One fork -/

variable {child : ℕ}

theorem State.fork_mem_of_used (hnew : child ∉ s.used) {pid parent : ℕ} (hp : pid ∈ s.used) :
    (s.fork parent child).mem pid = s.mem pid := by
  have hne : pid ≠ child := fun heq => hnew (heq ▸ hp)
  exact Function.update_of_ne hne ..

/-- A copy that nobody has in a table. -/
theorem forks_fork (ha : s.agentPid ∈ s.used) (hnew : child ∉ s.used) :
    Forks id s (s.fork s.agentPid child) where
  frame := rfl
  mem _ hp := State.fork_mem_of_used hnew hp
  used _ hp := List.mem_cons_of_mem _ hp
  agent := Or.inl rfl
  agent_used := List.mem_cons_of_mem _ ha
  agent_mem := State.fork_mem_of_used hnew ha
  template _ hp := Or.inl hp
  templates _ _ := rfl

/-- A template. -/
theorem forks_stash (ha : s.agentPid ∈ s.used) (hnew : child ∉ s.used) :
    Forks id s (s.stash id child) where
  frame := rfl
  mem _ hp := State.fork_mem_of_used hnew hp
  used _ hp := List.mem_cons_of_mem _ hp
  agent := Or.inl rfl
  agent_used := List.mem_cons_of_mem _ ha
  agent_mem := State.fork_mem_of_used hnew ha
  template pid hp := by
    rw [State.stash, Dict.find?_set_self, Option.some.injEq] at hp
    subst hp
    refine Or.inr ⟨List.mem_cons_self, fun heq => hnew (heq ▸ ha), ?_⟩
    exact Function.update_self ..
  templates _ hk := Dict.find?_set_of_ne _ _ hk

/-- A template and a new active process. -/
theorem forks_forkReplace (ha : s.agentPid ∈ s.used) (hnew : child ∉ s.used) :
    Forks id s (s.forkReplace id child) where
  frame := rfl
  mem _ hp := State.fork_mem_of_used hnew hp
  used _ hp := List.mem_cons_of_mem _ hp
  agent := Or.inr hnew
  agent_used := List.mem_cons_self
  agent_mem := Function.update_self ..
  template pid hp := by
    rw [State.forkReplace, Dict.find?_set_self, Option.some.injEq] at hp
    subst hp
    have hne : s.agentPid ≠ child := fun heq => hnew (heq ▸ ha)
    exact Or.inr ⟨List.mem_cons_of_mem _ ha, hne, State.fork_mem_of_used hnew ha⟩
  templates _ hk := Dict.find?_set_of_ne _ _ hk

/-- The template is given up again. -/
theorem forks_erase (ha : s.agentPid ∈ s.used) :
    Forks id s { s with templates := s.templates.erase id } where
  frame := rfl
  mem _ _ := rfl
  used _ hp := hp
  agent := Or.inl rfl
  agent_used := ha
  agent_mem := rfl
  template pid hp := by
    rw [Dict.find?_erase, if_pos rfl] at hp
    cases hp
  templates k hk := by
    change (s.templates.erase id).find? k = _
    rw [Dict.find?_erase, if_neg hk]

/-! ### The dump root -/

/-- A dump of the root reads what the agent had in memory. -/
structure Copies (s t : State M P C) (root : Root) : Prop where
  content : t.content root = s.mem s.agentPid
  used : ∀ pid, root = .process pid → pid ∈ t.used

theorem Copies.forks {root : Root} (h : Copies s t root) (ht : Forks id s t) (hu : Forks id t u) :
    Copies s u root where
  content := by
    cases root with
    | «namespace» nsInit => exact hu.agent_mem.trans ht.agent_mem
    | process pid => exact (hu.mem pid (h.used pid rfl)).trans h.content
  used pid heq := hu.used pid (h.used pid heq)

/-! ### The head of a call -/

section

open Prog

variable {m : Modes} {strategy : Overlay.Strategy} {answers : Answers} {pids : List ℕ}

/-- The forks so far, with the process ids that are still to come. -/
def Forked (id : String) (s : State M P C) (pids : List ℕ) (t : State M P C) : Prop :=
  Forks id s t ∧ NewPids t pids

theorem Forked.step {child : ℕ} (h : Forked id s (child :: pids) t)
    (hf : t.agentPid ∈ t.used → child ∉ t.used → Forks id t u)
    (hused : u.used = child :: t.used) : Forked id s pids u := by
  obtain ⟨hforks, hnodup, hnew⟩ := h
  have hchild := hnew child List.mem_cons_self
  refine ⟨hforks.trans (hf hforks.agent_used hchild), (List.nodup_cons.mp hnodup).2,
    fun pid hp => ?_⟩
  rw [hused, List.mem_cons, not_or]
  exact ⟨fun heq => (List.nodup_cons.mp hnodup).1 (heq ▸ hp), hnew pid (List.mem_cons_of_mem _ hp)⟩

theorem Forked.tail {o : Option ℕ} (h : Forked id s (o.toList ++ pids) t) : Forked id s pids t := by
  refine ⟨h.1, (List.nodup_append.mp h.2.1).2.1, fun pid hp => h.2.2 pid ?_⟩
  exact List.mem_append_right _ hp

theorem bootstrap_spec (child : Option ℕ) :
    Triple (Forked id s (child.toList ++ pids)) (bootstrapActiveBeforeDump m id child)
      (fun _ => Forked id s pids) fun _ => Forks id s := by
  unfold bootstrapActiveBeforeDump
  refine Triple.bind (Q := fun _ => Forked id s (child.toList ++ pids))
    (Triple.read fun _ ht => ht) fun agent => ?_
  refine Triple.bind (Q := fun _ => Forked id s (child.toList ++ pids))
    (Triple.read fun _ ht => ht) fun nsInit => ?_
  split_ifs
  · exact Triple.pure fun _ ht => ht.tail
  · cases child with
    | none => exact Triple.pure fun _ ht => ht
    | some child =>
      exact Triple.bind (Q := fun _ => Forked id s pids)
        (Triple.update fun _ ht => ht.step forks_forkReplace rfl) fun _ => Triple.pure fun _ ht => ht
  · exact Triple.pure fun _ ht => ht.tail

theorem prefork_spec {attempted : Bool} (child : Option ℕ) {root : Root} {template : Option ℕ} :
    Triple (fun t => Forked id s (child.toList ++ pids) t ∧ Copies s t root)
      (preforkTemplate m strategy attempted id child root template)
      (fun r t => Forked id s pids t ∧ Copies s t r.1) fun _ => Forks id s := by
  unfold preforkTemplate
  split_ifs
  · cases child with
    | none =>
      exact Triple.bind (Q := fun _ t => Forked id s pids t ∧ Copies s t root)
        (Triple.require (fun _ ht _ => ht) fun _ ht _ => ht.1.1) fun _ => Triple.pure fun _ ht => ht
    | some child =>
      refine Triple.bind (Q := fun agent t => Forked id s (child :: pids) t ∧ agent = t.agentPid)
        (Triple.read fun _ ht => ⟨ht.1, rfl⟩) fun agent => ?_
      refine Triple.bind (Q := fun _ t => Forked id s pids t ∧ Copies s t (.process agent))
        (Triple.update fun t ht => ?_) fun _ => Triple.pure fun _ ht => ht
      obtain ⟨hforked, rfl⟩ := ht
      have hagent : Copies s t (.process t.agentPid) :=
        ⟨hforked.1.agent_mem, fun pid heq => by cases heq; exact hforked.1.agent_used⟩
      exact ⟨hforked.step forks_forkReplace rfl, hagent.forks hforked.1
        (forks_forkReplace hforked.1.agent_used (hforked.2.2 child List.mem_cons_self))⟩
  · exact Triple.pure fun _ ht => ⟨ht.1.tail, ht.2⟩

theorem Forked.copies_fork {child : ℕ} (h : Forked id s (child :: pids) t) :
    Copies s (t.fork t.agentPid child) (.process child) where
  content := (Function.update_self ..).trans h.1.agent_mem
  used pid heq := by
    cases heq
    exact List.mem_cons_self

theorem fixedClone_spec {attempted : Bool} {root : Root} :
    Triple (fun t => Forked id s (answers.clone.toList ++ pids) t ∧ Copies s t root)
      (fixedDumpClone m strategy attempted answers root)
      (fun r t => Forked id s pids t ∧ Copies s t r.1) fun _ => Forks id s := by
  unfold fixedDumpClone
  dsimp only
  split_ifs
  · refine Triple.bind (Q := fun _ => Forked id s (answers.clone.toList ++ pids))
      (Triple.require (fun _ ht _ => ht.1) fun _ ht _ => ht.1.1) fun _ => ?_
    cases answers.clone with
    | none => exact Triple.raise fun _ ht => ht.1
    | some clone =>
      exact Triple.bind (Q := fun _ t => Forked id s pids t ∧ Copies s t (.process clone))
        (Triple.update fun _ ht => ⟨ht.step forks_fork rfl, ht.copies_fork⟩)
        fun _ => Triple.pure fun _ ht => ht
  · exact Triple.pure fun _ ht => ⟨ht.1.tail, ht.2⟩

theorem asyncStash_spec {root : Root} {template : Option ℕ} :
    Triple (fun t => Forked id s (answers.warmStash.toList ++ (answers.dumpStash.toList ++ pids)) t ∧
        Copies s t root)
      (asyncTemplateStash m strategy id answers root template)
      (fun r t => Forked id s pids t ∧ Copies s t r.1) fun _ => Forks id s := by
  unfold asyncTemplateStash
  split_ifs
  · refine Triple.bind
      (Q := fun _ => Forked id s (answers.warmStash.toList ++ (answers.dumpStash.toList ++ pids)))
      (Triple.require (fun _ ht _ => ht.1) fun _ ht _ => ht.1.1) fun _ => ?_
    cases answers.warmStash with
    | none => exact Triple.raise fun _ ht => ht.1
    | some warm =>
      refine Triple.bind (Q := fun _ => Forked id s (answers.dumpStash.toList ++ pids))
        (Triple.update fun _ ht => ht.step forks_stash rfl) fun _ => ?_
      cases answers.dumpStash with
      | none =>
        exact Triple.bind (Q := fun _ => Forks id s)
          (Triple.update fun _ ht => ht.1.trans (forks_erase ht.1.agent_used))
          fun _ => Triple.raise fun _ ht => ht
      | some dump =>
        exact Triple.bind (Q := fun _ t => Forked id s pids t ∧ Copies s t (.process dump))
          (Triple.update fun _ ht => ⟨ht.step forks_fork rfl, ht.copies_fork⟩)
          fun _ => Triple.pure fun _ ht => ht
  · exact Triple.pure fun _ ht => ⟨ht.1.tail.tail, ht.2⟩

theorem currentDumpRoot_copies (h : Forks id s t) : Copies s t (currentDumpRoot m t) := by
  rw [currentDumpRoot]
  split_ifs
  · exact ⟨h.agent_mem, fun pid heq => by cases heq; exact h.agent_used⟩
  · exact ⟨h.agent_mem, fun pid heq => by cases heq⟩

/-- **The head of a call.** Its dump root holds what the agent had in memory, whatever the mode. -/
theorem head_spec (m : Modes) (id : String) (parent : Option String) (raw : String)
    (inp : Overlay.CkptInput) (strategy : Overlay.Strategy) (ha : s.agentPid ∈ s.used)
    (hnew : NewPids s answers.pids) :
    Ends (fun c t => Forks id s t ∧ Copies s t c.root ∧ c.id = id ∧ c.parent = parent ∧
        c.raw = raw ∧ c.inp = inp ∧ c.strategy = strategy ∧ c.twin = false ∧
        c.fullFallback = false ∧ c.prev = none)
      (fun _ t => Forks id s t) (head m id parent raw inp strategy answers s) := by
  have hstart : Forked id s (answers.bootstrap.toList ++ (answers.prefork.toList ++
      (answers.clone.toList ++ (answers.warmStash.toList ++ (answers.dumpStash.toList ++ []))))) s :=
    ⟨.refl ha, by simpa [Answers.pids] using hnew⟩
  refine (?_ : Triple (Forked id s _) _ _ _) s hstart
  unfold head
  refine Triple.bind (Q := fun _ => Forked id s (answers.prefork.toList ++
      (answers.clone.toList ++ (answers.warmStash.toList ++ (answers.dumpStash.toList ++ [])))))
    ?_ fun r => ?_
  · rw [bootstrap]
    split_ifs
    · exact Triple.pure fun _ ht => ht.tail
    · exact bootstrap_spec _
  obtain ⟨template, attempted⟩ := r
  refine Triple.bind (Q := fun root t => Forked id s (answers.prefork.toList ++
      (answers.clone.toList ++ (answers.warmStash.toList ++ (answers.dumpStash.toList ++ [])))) t ∧
      Copies s t root) (Triple.read fun _ ht => ⟨ht, currentDumpRoot_copies ht.1⟩) fun root => ?_
  refine Triple.bind (Q := fun _ t => Forked id s (answers.prefork.toList ++
      (answers.clone.toList ++ (answers.warmStash.toList ++ (answers.dumpStash.toList ++ [])))) t ∧
      Copies s t root) (Triple.require (fun _ ht _ => ht) fun _ ht _ => ht.1.1) fun _ => ?_
  refine Triple.bind (prefork_spec _) fun r => ?_
  obtain ⟨root, template, preDumpTemplate⟩ := r
  refine Triple.bind fixedClone_spec fun r => ?_
  obtain ⟨root, fixedClone⟩ := r
  refine Triple.bind asyncStash_spec fun r => ?_
  obtain ⟨root, template, asyncDumpPid⟩ := r
  exact Triple.pure fun _ ht => ⟨ht.1.1, ht.2, rfl, rfl, rfl, rfl, rfl, rfl, rfl, rfl⟩

/-- **The head of a call** touches the processes only, and it ends before the dump or raises. -/
theorem begin_spec [DecidableEq P] (m : Modes) (cfg : Overlay.Config) (parent : Option String)
    (raw : String) (inp : Overlay.CkptInput) (ha : s.agentPid ∈ s.used)
    (hnew : NewPids s answers.pids) (ht : begin m cfg s parent raw inp answers = t) :
    t = { s.mark parent inp.id with
      mem := t.mem, used := t.used, agentPid := t.agentPid, templates := t.templates,
      ctl := t.ctl } ∧
    (t.ctl = s.ctl ∨ ∃ c, t.ctl = .forked c ∧ c.id = inp.id ∧ c.parent = parent ∧
      c.strategy = Overlay.chooseStrategy cfg raw inp.hot ∧ c.twin = false ∧
      c.fullFallback = false ∧ c.prev = none) ∧
    t.agentPid ∈ t.used := by
  have hspec := head_spec m inp.id parent raw inp (Overlay.chooseStrategy cfg raw inp.hot)
    (s := s.mark parent inp.id) ha hnew
  rw [begin] at ht
  rcases hr : head m inp.id parent raw inp (Overlay.chooseStrategy cfg raw inp.hot) answers
    (s.mark parent inp.id) with ⟨_ | c, u⟩
  · rw [hr] at hspec ht
    dsimp only at ht
    subst ht
    have hframe : u = _ := hspec.frame
    have hctl : u.ctl = s.ctl := by rw [hframe]; rfl
    refine ⟨?_, Or.inl hctl, hspec.agent_used⟩
    rw [hctl]
    exact hframe
  · rw [hr] at hspec ht
    dsimp only at ht
    subst ht
    obtain ⟨hforks, -, hid, hparent, -, -, hstrategy, htwin, hfull, hprev⟩ := hspec
    refine ⟨?_, Or.inr ⟨c, rfl, hid, hparent, hstrategy, htwin, hfull, hprev⟩, hforks.agent_used⟩
    rw [hforks.frame]

end

end Legacy

end DeltaBox
