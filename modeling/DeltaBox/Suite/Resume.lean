import DeltaBox.Suite.Attempts

/-!
# What resuming keeps

An attempt decides from the last `suite.json` alone. A job it finds to be ok there is not executed
again, and any evidence of the other jobs that it executes is moved away first. But an attempt writes
its own job list, so a job whose inputs are missing drops out of `suite.json`. When it returns in a
later attempt, its evidence is moved to `failed-attempts`, and it is executed again.

The earlier versions of `suite.json` are in `attempt-history`. So whether a job returns can be told
from the files.

## Main definitions

* `Disk.Recorded` — some `suite.json` has recorded the job as ok
* `KeepsOk`, `MovesLeft`, `OnceOk` — what resuming should keep
* `NothingReturns` — no job is planned whose record has been lost

## Main results

* `step_spec` — what a step keeps
* `resume_keeps` — runs in which no job returns keep everything
* `returned_job` — a job that returns is executed again
-/

namespace DeltaBox

namespace Suite

variable {ε : Type} {d d' : Disk ε} {n : ℕ} {s t : State ε} {k : String} {m : Option ℕ}

/-! ### What has been recorded -/

/-- A job is ok in a list, after the execution that the manifest names. -/
def OkIn (jobs : List Job) (k : String) (m : Option ℕ) : Prop :=
  ∃ j ∈ jobs, j.key = k ∧ j.status = some .ok ∧ j.processManifest = m

/-- It is ok in a `suite.json` that a resume has saved. -/
def Disk.Saved (d : Disk ε) (k : String) (m : Option ℕ) : Prop :=
  ∃ a r, d.attemptHistory.find? a = some r ∧ OkIn r.jobs k m

/-- It is ok in the present `suite.json` or in a saved one. -/
def Disk.Recorded (d : Disk ε) (k : String) (m : Option ℕ) : Prop :=
  (∃ r, d.suiteJson = some r ∧ OkIn r.jobs k m) ∨ d.Saved k m

/-- The jobs for which `execute_review_job` is called, or whose producers are left. -/
def Phase.writers : Phase → List String
  | .executing x => x.active.map Work.key
  | .idle orphans => orphans
  | _ => []

/-- What has been recorded as ok is not executed again, and its evidence stays where it is. -/
def KeepsOk (s t : State ε) : Prop :=
  ∀ k m, s.disk.Recorded k m →
    (∀ a, t.disk.logs.find? (a, k) = s.disk.logs.find? (a, k)) ∧
      t.disk.dirs.find? k = s.disk.dirs.find? k

/-- When a job has been executed again, the evidence that it had left is in `failed-attempts`. -/
def MovesLeft (s t : State ε) : Prop :=
  ∀ k e, s.disk.dirs.find? k = some e → k ∉ s.phase.writers →
    (∃ a, s.disk.logs.find? (a, k) = none ∧ t.disk.logs.find? (a, k) ≠ none) →
      ∃ a, t.disk.failedAttempts.find? (a, k) = some e

/-- A suite that is ok: each job is ok by an execution that has ended well, and no other execution of
the job has been recorded as ok before. -/
def OnceOk (s t : State ε) : Prop :=
  ∀ r, t.disk.suiteJson = some r → r.status = .ok → ∀ j ∈ r.jobs,
    j.status = some .ok ∧ ∃ a, j.processManifest = some a ∧
      t.disk.logs.find? (a, j.key) = some .ok ∧ ∀ m, s.disk.Recorded j.key m → m = some a

/-- `job['status'] == 'ok'` for the job with the key. -/
def Record.hasOk (r : Record) (k : String) : Bool :=
  r.jobs.any fun j => j.key = k ∧ j.status = some .ok

/-- **No job returns.** A job that is planned and ok in a saved `suite.json` is ok in the present
one. -/
def NothingReturns (s : State ε) : Label ε → Prop
  | .begin _ plan unavailable _ =>
    ∀ j ∈ availableJobs plan.jobs unavailable,
      s.disk.attemptHistory.values.any (Record.hasOk · j.key) = true →
        s.disk.suiteJson.any (Record.hasOk · j.key) = true
  | _ => True

instance (s : State ε) (l : Label ε) : Decidable (NothingReturns s l) := by
  cases l <;> unfold NothingReturns <;> infer_instance

theorem hasOk_iff {r : Record} : r.hasOk k = true ↔ ∃ m, OkIn r.jobs k m := by
  simp only [Record.hasOk, List.any_eq_true, decide_eq_true_eq, OkIn]
  constructor
  · rintro ⟨j, hj, hk, hok⟩
    exact ⟨_, j, hj, hk, hok, rfl⟩
  · rintro ⟨m, j, hj, hk, hok, -⟩
    exact ⟨j, hj, hk, hok⟩

theorem saved_iff :
    d.attemptHistory.values.any (Record.hasOk · k) = true ↔ ∃ m, d.Saved k m := by
  simp only [List.any_eq_true, Dict.mem_values_iff, hasOk_iff, Disk.Saved]
  constructor
  · rintro ⟨r, ⟨a, ha⟩, m, hm⟩
    exact ⟨m, a, r, ha, hm⟩
  · rintro ⟨m, a, r, ha, hm⟩
    exact ⟨r, ⟨a, ha⟩, m, hm⟩

theorem OkIn.unique {jobs : List Job} {m' : Option ℕ} (hnd : (jobs.map (·.key)).Nodup)
    (h : OkIn jobs k m) (h' : OkIn jobs k m') : m = m' := by
  obtain ⟨j, hj, hk, -, hm⟩ := h
  obtain ⟨j', hj', hk', -, hm'⟩ := h'
  obtain rfl := List.inj_on_of_nodup_map hnd hj hj' (hk.trans hk'.symm)
  exact hm.symm.trans hm'

/-! ### The invariant -/

/-- The files between two steps of the attempt `n`. -/
structure Sound (d : Disk ε) (n : ℕ) : Prop where
  absent : d.present = false →
    d.suiteJson = none ∧ (∀ k, d.dirs.find? k = none) ∧ ∀ k m, ¬ d.Saved k m
  once : ∀ k m m', d.Recorded k m → d.Recorded k m' → m = m'
  completed : ∀ k m, d.Recorded k m → ∃ a, m = some a ∧ d.logs.find? (a, k) = some .ok
  logs_le : ∀ a k, n < a → d.logs.find? (a, k) = none
  failed_le : ∀ a k, n < a → d.failedAttempts.find? (a, k) = none
  history_le : ∀ a, n < a → d.attemptHistory.find? a = none
  suite : ∀ r, d.suiteJson = some r →
    (r.jobs.map (·.key)).Nodup ∧ (r.status = .ok → ∀ j ∈ r.jobs, j.status = some .ok)

/-- A job to execute. -/
def Pending (jobs : List Job) (k : String) : Prop := ∃ j ∈ jobs, j.key = k ∧ j.reusedVerified = false

/-- The jobs of an attempt before `suite.json` is written. -/
structure Ready (d : Disk ε) (n : ℕ) (jobs : List Job) : Prop where
  nodup : (jobs.map (·.key)).Nodup
  reused : ∀ j ∈ jobs, j.reusedVerified = true →
    j.status = some .ok ∧ d.Saved j.key j.processManifest
  pending : ∀ j ∈ jobs, j.reusedVerified = false →
    j.status = none ∧ ∀ m, ¬ d.Recorded j.key m
  saved : ∀ r, d.suiteJson = some r → ∀ k m, OkIn r.jobs k m → d.Saved k m
  logs : ∀ k, d.logs.find? (n, k) = none

/-- A call of `execute_review_job` and the files. -/
structure Work.Fits (d : Disk ε) (n : ℕ) (w : Work) : Prop where
  entered : w.stage = .entered → d.dirs.find? w.key = none ∧ d.logs.find? (n, w.key) = none
  exited : w.stage = .exited true → d.logs.find? (n, w.key) = some .ok
  cleaning : w.stage = .noted ∨ w.stage = .cleaning →
    w.processManifest = some n ∧ d.logs.find? (n, w.key) = some .ok
  ok : w.status = some .ok → w.processManifest = some n ∧ d.logs.find? (n, w.key) = some .ok ∧
    (w.stage = .noted ∨ w.stage = .returned ∨ ∃ i, w.stage = .raised i)

/-- A job that this attempt has executed well. -/
structure Done (d : Disk ε) (n : ℕ) (x : Exec) (j : Job) : Prop where
  manifest : j.processManifest = some n
  logs : d.logs.find? (n, j.key) = some .ok
  todo : j.key ∉ x.todo
  /-- In the serial loop the job is seen before the call ends. -/
  active : ∀ w ∈ x.active, w.key = j.key → x.settings.serial = true

/-- An execution and the files. -/
structure Going (d : Disk ε) (n : ℕ) (x : Exec) : Prop where
  present : d.present = true
  nodup : (x.jobs.map (·.key)).Nodup
  reused : ∀ j ∈ x.jobs, j.reusedVerified = true →
    j.status = some .ok ∧ d.Saved j.key j.processManifest
  pending : ∀ j ∈ x.jobs, j.reusedVerified = false → ∀ m, ¬ d.Saved j.key m
  done : ∀ j ∈ x.jobs, j.reusedVerified = false → j.status = some .ok → Done d n x j
  kept : ∃ r, d.suiteJson = some r ∧ ∀ k m, OkIn r.jobs k m → OkIn x.jobs k m
  quiet : x.settings.serial = true → x.flow ≠ .going → x.active = []
  todo_nodup : x.todo.Nodup
  todo : ∀ k ∈ x.todo, Pending x.jobs k ∧ d.dirs.find? k = none ∧ d.logs.find? (n, k) = none ∧
    (∀ m, ¬ d.Recorded k m) ∧ ∀ w ∈ x.active, w.key ≠ k
  active_nodup : (x.active.map Work.key).Nodup
  active : ∀ w ∈ x.active, Pending x.jobs w.key ∧ (∀ m, ¬ d.Recorded w.key m) ∧ w.Fits d n

/-- What holds in each phase. -/
def PhaseInv (d : Disk ε) (n : ℕ) : Phase → Prop
  | .idle orphans => ∀ k ∈ orphans, d.present = true ∧ ∀ m, ¬ d.Recorded k m
  | .moving p paths =>
    d.present = true ∧ Ready d n p.jobs ∧ p.resumeVerified = true ∧ paths.Nodup ∧
      (∀ k ∈ paths, Pending p.jobs k ∧ d.failedAttempts.find? (n, k) = none) ∧
      ∀ k, Pending p.jobs k → d.dirs.find? k ≠ none → k ∈ paths
  | .planned p =>
    p.resumeVerified = true ∨ d.present = false →
      Ready d n p.jobs ∧ ∀ k, Pending p.jobs k → d.dirs.find? k = none
  | .opening p =>
    d.present = true ∧ Ready d n p.jobs ∧ ∀ k, Pending p.jobs k → d.dirs.find? k = none
  | .executing x => Going d n x

/-- The invariant of a run in which no job returns. -/
structure Inv (s : State ε) : Prop where
  sound : Sound s.disk s.attempt
  phase : PhaseInv s.disk s.attempt s.phase

/-- What every step keeps. -/
structure Keeps (s t : State ε) : Prop where
  recorded : ∀ k m, s.disk.Recorded k m → t.disk.Recorded k m
  ok : KeepsOk s t
  /-- Evidence that nobody writes stays, or it is moved. -/
  left : ∀ k e, s.disk.dirs.find? k = some e → k ∉ s.phase.writers →
    (t.disk.dirs.find? k = some e ∧ k ∉ t.phase.writers ∧
      ∀ a, t.disk.logs.find? (a, k) = s.disk.logs.find? (a, k)) ∨
    ∃ a, t.disk.failedAttempts.find? (a, k) = some e
  failed : ∀ a k e, s.disk.failedAttempts.find? (a, k) = some e →
    t.disk.failedAttempts.find? (a, k) = some e

/-- A step that leaves the jobs and their logs alone, and what has been recorded. -/
theorem Keeps.of_same (hdirs : t.disk.dirs = s.disk.dirs) (hlogs : t.disk.logs = s.disk.logs)
    (hfailed : t.disk.failedAttempts = s.disk.failedAttempts)
    (hrec : ∀ k m, s.disk.Recorded k m → t.disk.Recorded k m)
    (hw : ∀ k ∈ t.phase.writers, k ∈ s.phase.writers ∨ s.disk.dirs.find? k = none) : Keeps s t where
  recorded := hrec
  ok := by
    intro k m _
    rw [hdirs, hlogs]
    exact ⟨fun _ => rfl, rfl⟩
  left := by
    intro k e he hk
    rw [hdirs, hlogs]
    refine .inl ⟨he, fun hk' => ?_, fun _ => rfl⟩
    rcases hw k hk' with hk' | hnone
    · exact hk hk'
    · rw [he] at hnone
      cases hnone
  failed := by
    rw [hfailed]
    exact fun _ _ _ h => h

/-- A step that does not change the files. -/
theorem Keeps.of_disk (hd : t.disk = s.disk)
    (hw : ∀ k ∈ t.phase.writers, k ∈ s.phase.writers ∨ s.disk.dirs.find? k = none) : Keeps s t :=
  .of_same (hd ▸ rfl) (hd ▸ rfl) (hd ▸ rfl) (by rw [hd]; exact fun _ _ h => h) hw

/-! ### Changes of the job list -/

theorem Pending.reused {jobs : List Job} {j : Job} (h : Pending jobs k)
    (hnd : (jobs.map (·.key)).Nodup) (hj : j ∈ jobs) (hk : j.key = k) :
    j.reusedVerified = false := by
  obtain ⟨j', hj', hk', hr⟩ := h
  rwa [List.inj_on_of_nodup_map hnd hj hj' (hk.trans hk'.symm)]

/-- The job list after an update of some jobs. -/
structure Marks (jobs jobs' : List Job) (g : Job → Job) : Prop where
  eq : jobs' = jobs.map g
  key : ∀ j, (g j).key = j.key
  reused : ∀ j, (g j).reusedVerified = j.reusedVerified

variable {jobs jobs' : List Job} {g : Job → Job}

theorem Marks.refl (jobs : List Job) : Marks jobs jobs id :=
  ⟨(List.map_id jobs).symm, fun _ => rfl, fun _ => rfl⟩

theorem Marks.map_key (h : Marks jobs jobs' g) : jobs'.map (·.key) = jobs.map (·.key) := by
  rw [h.eq, List.map_map]
  exact List.map_congr_left fun j _ => h.key j

theorem Marks.pending (h : Marks jobs jobs' g) (hk : Pending jobs k) : Pending jobs' k := by
  obtain ⟨j, hj, hkey, hr⟩ := hk
  rw [h.eq]
  exact ⟨g j, List.mem_map_of_mem hj, (h.key j).trans hkey, (h.reused j).trans hr⟩

theorem marks_setJob (jobs : List Job) (k : String) {f : Job → Job} (hkey : ∀ j, (f j).key = j.key)
    (hreused : ∀ j, (f j).reusedVerified = j.reusedVerified) :
    Marks jobs (setJob jobs k f) fun j => if j.key = k then f j else j where
  eq := rfl
  key := by
    intro j
    split_ifs
    · exact hkey j
    · rfl
  reused := by
    intro j
    split_ifs
    · exact hreused j
    · rfl

theorem marks_skipLater (jobs : List Job) (later : List String) :
    Marks jobs (skipLater jobs later)
      fun j => if j.key ∈ later then { j with status := some .notRun } else j where
  eq := rfl
  key := by
    intro j
    split_ifs <;> rfl
  reused := by
    intro j
    split_ifs <;> rfl

theorem Marks.trans {jobs'' : List Job} {g' : Job → Job} (h : Marks jobs jobs' g)
    (h' : Marks jobs' jobs'' g') : Marks jobs jobs'' (g' ∘ g) where
  eq := by rw [h'.eq, h.eq, List.map_map]
  key := fun j => (h'.key (g j)).trans (h.key j)
  reused := fun j => (h'.reused (g j)).trans (h.reused j)

variable {x x' : Exec}

/-- **A step of the execution that leaves the files alone.** A job is changed only if nothing has
recorded it, and a call is new only if its job was waiting. -/
theorem Going.next (h : Going d n x) (hg : Marks x.jobs x'.jobs g)
    (hmarked : ∀ j ∈ x.jobs, g j ≠ j →
      j.reusedVerified = false ∧ (∀ m, ¬ d.Recorded j.key m) ∧
        ((g j).status = some .ok → Done d n x' (g j)))
    (hsettings : x'.settings = x.settings) (htodo : x'.todo.Sublist x.todo)
    (hactive : ∀ w ∈ x'.active,
      w ∈ x.active ∨ w.key ∈ x.todo ∧ w.key ∉ x'.todo ∧ w.Fits d n)
    (hnodup : (x'.active.map Work.key).Nodup)
    (hquiet : x'.settings.serial = true → x'.flow ≠ .going → x'.active = []) : Going d n x' := by
  have hmem : ∀ j' ∈ x'.jobs, ∃ j ∈ x.jobs, g j = j' := by
    intro j' hj'
    rw [hg.eq] at hj'
    exact List.mem_map.mp hj'
  have hold : ∀ j ∈ x.jobs, j.reusedVerified = false → j.status = some .ok →
      Done d n x' j := by
    intro j hj hr hok
    have hdone := h.done j hj hr hok
    refine ⟨hdone.manifest, hdone.logs, fun hmem => hdone.todo (htodo.subset hmem),
      fun w hw hkey => ?_⟩
    rcases hactive w hw with hw | ⟨hw, -⟩
    · rw [hsettings]
      exact hdone.active w hw hkey
    · rw [hkey] at hw
      exact absurd hw hdone.todo
  refine ⟨h.present, hg.map_key ▸ h.nodup, ?_, ?_, ?_, ?_, hquiet, htodo.nodup h.todo_nodup, ?_,
    hnodup, ?_⟩
  · intro j' hj' hr
    obtain ⟨j, hj, rfl⟩ := hmem j' hj'
    rw [hg.reused] at hr
    by_cases hgj : g j = j
    · rw [hgj]
      exact h.reused j hj hr
    · rw [(hmarked j hj hgj).1] at hr
      cases hr
  · intro j' hj' hr
    obtain ⟨j, hj, rfl⟩ := hmem j' hj'
    rw [hg.reused] at hr
    rw [hg.key]
    exact h.pending j hj hr
  · intro j' hj' hr hok
    obtain ⟨j, hj, rfl⟩ := hmem j' hj'
    by_cases hgj : g j = j
    · rw [hgj] at hr hok ⊢
      exact hold j hj hr hok
    · exact (hmarked j hj hgj).2.2 hok
  · obtain ⟨r, hr, hkept⟩ := h.kept
    refine ⟨r, hr, fun k m hok => ?_⟩
    obtain ⟨j, hj, hk, hst, hm⟩ := hkept k m hok
    by_cases hgj : g j = j
    · rw [hg.eq]
      exact ⟨j, List.mem_map.mpr ⟨j, hj, hgj⟩, hk, hst, hm⟩
    · subst hk
      exact absurd (.inl ⟨r, hr, hok⟩) ((hmarked j hj hgj).2.1 m)
  · intro k hk
    obtain ⟨hpending, hdirs, hlogs, hrec, hdisj⟩ := h.todo k (htodo.subset hk)
    refine ⟨hg.pending hpending, hdirs, hlogs, hrec, fun w hw => ?_⟩
    rcases hactive w hw with hw | ⟨-, hw, -⟩
    · exact hdisj w hw
    · rintro rfl
      exact hw hk
  · intro w hw
    rcases hactive w hw with hw | ⟨hw, -, hfits⟩
    · obtain ⟨hpending, hrec, hfits⟩ := h.active w hw
      exact ⟨hg.pending hpending, hrec, hfits⟩
    · obtain ⟨hpending, -, -, hrec, -⟩ := h.todo w.key hw
      exact ⟨hg.pending hpending, hrec, hfits⟩

/-! ### The files of one job -/

/-- Only the directory of a job and its log of this attempt have changed. -/
structure Touched (d d' : Disk ε) (n : ℕ) (k : String) : Prop where
  present : d'.present = d.present
  suiteJson : d'.suiteJson = d.suiteJson
  failedAttempts : d'.failedAttempts = d.failedAttempts
  attemptHistory : d'.attemptHistory = d.attemptHistory
  dirs : ∀ k', k' ≠ k → d'.dirs.find? k' = d.dirs.find? k'
  logs : ∀ a k', (a, k') ≠ (n, k) → d'.logs.find? (a, k') = d.logs.find? (a, k')

theorem Touched.refl (d : Disk ε) (n : ℕ) (k : String) : Touched d d n k :=
  ⟨rfl, rfl, rfl, rfl, fun _ _ => rfl, fun _ _ _ => rfl⟩

theorem touched_logs (d : Disk ε) (n : ℕ) (k : String) (v : Logged) :
    Touched d { d with logs := d.logs.set (n, k) v } n k :=
  ⟨rfl, rfl, rfl, rfl, fun _ _ => rfl, fun _ _ h => Dict.find?_set_of_ne _ _ h⟩

theorem touched_dirs (d : Disk ε) (n : ℕ) (k : String) (e : ε) :
    Touched d { d with dirs := d.dirs.set k e } n k :=
  ⟨rfl, rfl, rfl, rfl, fun _ h => Dict.find?_set_of_ne _ _ h, fun _ _ _ => rfl⟩

theorem Touched.saved (h : Touched d d' n k) : d'.Saved = d.Saved := by
  funext k' m
  rw [Disk.Saved, Disk.Saved, h.attemptHistory]

theorem Touched.recorded (h : Touched d d' n k) : d'.Recorded = d.Recorded := by
  funext k' m
  rw [Disk.Recorded, Disk.Recorded, h.saved, h.suiteJson]

/-- A job that nothing has recorded may be touched. -/
theorem Sound.touched (h : Sound d n) (ht : Touched d d' n k) (hk : ∀ m, ¬ d.Recorded k m)
    (hpresent : d.present = true) : Sound d' n where
  absent := by
    intro habsent
    rw [ht.present, hpresent] at habsent
    cases habsent
  once := by
    rw [ht.recorded]
    exact h.once
  completed := by
    rw [ht.recorded]
    intro k' m hrec
    obtain ⟨a, ha, hlogs⟩ := h.completed k' m hrec
    refine ⟨a, ha, ?_⟩
    rwa [ht.logs]
    rintro heq
    exact hk m ((Prod.mk.inj heq).2 ▸ hrec)
  logs_le := by
    intro a k' ha
    rw [ht.logs]
    · exact h.logs_le a k' ha
    · rintro heq
      exact absurd (Prod.mk.inj heq).1 (by omega)
  failed_le := by
    rw [ht.failedAttempts]
    exact h.failed_le
  history_le := by
    rw [ht.attemptHistory]
    exact h.history_le
  suite := by
    rw [ht.suiteJson]
    exact h.suite

/-- A step at a job that nothing has recorded and that is being written. -/
theorem Keeps.touched (ht : Touched s.disk t.disk n k) (hk : ∀ m, ¬ s.disk.Recorded k m)
    (hwriter : k ∈ s.phase.writers) (hw : ∀ k' ∈ t.phase.writers, k' ∈ s.phase.writers) :
    Keeps s t where
  recorded := by
    rw [ht.recorded]
    exact fun _ _ h => h
  ok := by
    intro k' m hrec
    have hne : k' ≠ k := by
      rintro rfl
      exact hk m hrec
    exact ⟨fun a => ht.logs a k' fun heq => hne (Prod.mk.inj heq).2, ht.dirs k' hne⟩
  left := by
    intro k' e he hk'
    have hne : k' ≠ k := by
      rintro rfl
      exact hk' hwriter
    refine .inl ⟨by rwa [ht.dirs k' hne], fun hmem => hk' (hw k' hmem), fun a => ?_⟩
    exact ht.logs a k' fun heq => hne (Prod.mk.inj heq).2
  failed := by
    rw [ht.failedAttempts]
    exact fun _ _ _ h => h

theorem Work.Fits.touched {w : Work} (h : w.Fits d n) (ht : Touched d d' n k) (hne : w.key ≠ k) :
    w.Fits d' n := by
  have hlogs := ht.logs n w.key fun heq => hne (Prod.mk.inj heq).2
  refine ⟨?_, ?_, ?_, ?_⟩
  · rw [ht.dirs _ hne, hlogs]
    exact h.entered
  · rw [hlogs]
    exact h.exited
  · rw [hlogs]
    exact h.cleaning
  · rw [hlogs]
    exact h.ok

/-- Before its producer has ended, or while its evidence is cleaned, a job is not ok. -/
theorem Work.Fits.not_ok {w : Work} (h : w.Fits d n) (hnoted : w.stage ≠ .noted)
    (hreturned : w.stage ≠ .returned) (hraised : ∀ i, w.stage ≠ .raised i) :
    w.status ≠ some .ok := by
  intro hok
  obtain ⟨-, -, hst | hst | ⟨i, hst⟩⟩ := h.ok hok
  · exact hnoted hst
  · exact hreturned hst
  · exact hraised i hst

/-- **A step of a call.** -/
theorem Work.run_spec {w w' : Work} {op : Op ε} (hw : w.Fits d n)
    (h : w.run n d op = some (d', w')) :
    w'.key = w.key ∧ Touched d d' n w.key ∧ w'.Fits d' n := by
  cases op with
  | start =>
    rw [Work.run] at h
    split_ifs at h with hstage
    rw [(hw.entered hstage).2] at h
    obtain ⟨rfl, rfl⟩ := Prod.mk.inj (Option.some.inj h)
    refine ⟨rfl, touched_logs d n w.key _, ⟨nofun, nofun, nofun, fun hok => ?_⟩⟩
    refine absurd hok (hw.not_ok ?_ ?_ ?_) <;> simp [hstage]
  | write e =>
    rw [Work.run] at h
    split_ifs at h with hstage
    obtain ⟨rfl, rfl⟩ := Prod.mk.inj (Option.some.inj h)
    refine ⟨rfl, touched_dirs d n w.key e, ⟨fun hst => ?_, hw.exited, hw.cleaning, hw.ok⟩⟩
    rcases hstage with hstage | hstage <;> rw [hstage] at hst <;> cases hst
  | exit success =>
    rw [Work.run] at h
    by_cases hstage : w.stage = .running
    · rw [if_pos hstage] at h
      obtain ⟨rfl, rfl⟩ := Prod.mk.inj (Option.some.inj h)
      refine ⟨rfl, touched_logs d n w.key _, ⟨nofun, fun hst => ?_, nofun, fun hok => ?_⟩⟩
      · obtain rfl := Stage.exited.inj hst
        exact Dict.find?_set_self _ _ _
      · refine absurd hok (hw.not_ok ?_ ?_ ?_) <;> simp [hstage]
    · rw [if_neg hstage] at h
      cases h
  | note =>
    rw [Work.run] at h
    split at h
    · rename_i hstage
      obtain ⟨rfl, rfl⟩ := Prod.mk.inj (Option.some.inj h)
      have hlogs := hw.exited hstage
      exact ⟨rfl, .refl d n w.key, ⟨nofun, nofun, fun _ => ⟨rfl, hlogs⟩,
        fun _ => ⟨rfl, hlogs, .inl rfl⟩⟩⟩
    · obtain ⟨rfl, rfl⟩ := Prod.mk.inj (Option.some.inj h)
      exact ⟨rfl, .refl d n w.key, ⟨nofun, nofun, nofun, nofun⟩⟩
    · cases h
  | clean =>
    rw [Work.run] at h
    split_ifs at h with hstage
    obtain ⟨rfl, rfl⟩ := Prod.mk.inj (Option.some.inj h)
    exact ⟨rfl, .refl d n w.key, ⟨nofun, nofun, fun _ => hw.cleaning (.inl hstage), nofun⟩⟩
  | cleaned success =>
    rw [Work.run] at h
    by_cases hstage : w.stage = .cleaning
    · rw [if_pos hstage] at h
      obtain ⟨rfl, rfl⟩ := Prod.mk.inj (Option.some.inj h)
      obtain ⟨hmanifest, hlogs⟩ := hw.cleaning (.inr hstage)
      exact ⟨rfl, .refl d n w.key, ⟨nofun, nofun, nofun,
        fun _ => ⟨hmanifest, hlogs, .inr (.inl rfl)⟩⟩⟩
    · rw [if_neg hstage] at h
      cases h
  | raises interrupt =>
    rw [Work.run] at h
    split at h
    · cases h
    · rename_i hstage
      obtain ⟨rfl, rfl⟩ := Prod.mk.inj (Option.some.inj h)
      refine ⟨rfl, touched_logs d n w.key _, ⟨nofun, nofun, nofun, fun hok => ?_⟩⟩
      refine absurd hok (hw.not_ok ?_ ?_ ?_) <;> simp [hstage]
    · obtain ⟨rfl, rfl⟩ := Prod.mk.inj (Option.some.inj h)
      refine ⟨rfl, .refl d n w.key, ⟨nofun, nofun, nofun, fun hok => ?_⟩⟩
      obtain ⟨hmanifest, hlogs, -⟩ := hw.ok hok
      exact ⟨hmanifest, hlogs, .inr (.inr ⟨_, rfl⟩)⟩

theorem mem_replaceWork {active : List Work} {w w' : Work} (h : w' ∈ replaceWork active w) :
    w' = w ∨ w' ∈ active ∧ w'.key ≠ w.key := by
  obtain ⟨w₀, hw₀, heq⟩ := List.mem_map.mp h
  split_ifs at heq with hkey
  · exact .inl heq.symm
  · subst heq
    exact .inr ⟨hw₀, hkey⟩

theorem map_key_replaceWork (active : List Work) (w : Work) :
    (replaceWork active w).map Work.key = active.map Work.key := by
  rw [replaceWork, List.map_map]
  refine List.map_congr_left fun w' _ => ?_
  by_cases hkey : w'.key = w.key
  · simp [hkey]
  · simp [hkey]

/-- How a call that makes a step changes the job list. -/
theorem marks_sync (x : Exec) (w : Work) (active : List Work) :
    ∃ g, Marks x.jobs ({ x with active }.sync w).jobs g ∧
      (∀ j, j.key ≠ w.key → g j = j) ∧
      (∀ j, j.key = w.key → g j = if x.settings.serial = true then w.update j else j) := by
  rw [Exec.sync]
  by_cases hserial : x.settings.serial = true
  · rw [if_pos hserial]
    refine ⟨_, marks_setJob x.jobs w.key (fun _ => rfl) fun _ => rfl, fun j hj => ?_, fun j hj => ?_⟩
    · exact if_neg hj
    · rw [if_pos hserial]
      exact if_pos hj
  · rw [if_neg hserial]
    exact ⟨id, .refl x.jobs, fun _ _ => rfl, fun j _ => (if_neg hserial).symm⟩

/-- It changes nothing else. -/
theorem sync_eq (x : Exec) (w : Work) (active : List Work) :
    ({ x with active }.sync w).settings = x.settings ∧ ({ x with active }.sync w).todo = x.todo ∧
      ({ x with active }.sync w).active = active ∧ ({ x with active }.sync w).flow = x.flow := by
  rw [Exec.sync]
  split_ifs <;> exact ⟨rfl, rfl, rfl, rfl⟩

/-- **A step of a call, in the execution.** -/
theorem Going.work {x : Exec} {w w' : Work} (h : Going d n x) (hw : w ∈ x.active)
    (ht : Touched d d' n w.key) (hkey : w'.key = w.key) (hfits : w'.Fits d' n) :
    Going d' n ({ x with active := replaceWork x.active w' }.sync w') := by
  obtain ⟨hpending, hrec, -⟩ := h.active w hw
  obtain ⟨g, hg, hother, hself⟩ := marks_sync x w' (replaceWork x.active w')
  obtain ⟨hsettings, htodo, hactive, hflow⟩ := sync_eq x w' (replaceWork x.active w')
  generalize { x with active := replaceWork x.active w' }.sync w' = x' at *
  rw [hkey] at hother hself
  have hnotTodo : w.key ∉ x.todo := fun hmem => (h.todo w.key hmem).2.2.2.2 w hw rfl
  have hkeys : x'.active.map Work.key = x.active.map Work.key := by
    rw [hactive, map_key_replaceWork]
  have hactiveOf : ∀ w₁ ∈ x'.active, w₁ = w' ∨ w₁ ∈ x.active ∧ w₁.key ≠ w.key := by
    intro w₁ hw₁
    rw [hactive] at hw₁
    have hmem := mem_replaceWork hw₁
    rwa [hkey] at hmem
  have hmem : ∀ j' ∈ x'.jobs, ∃ j ∈ x.jobs, g j = j' := by
    intro j' hj'
    rw [hg.eq] at hj'
    exact List.mem_map.mp hj'
  have hlogs : ∀ k', k' ≠ w.key → d'.logs.find? (n, k') = d.logs.find? (n, k') :=
    fun k' hne => ht.logs n k' fun heq => hne (Prod.mk.inj heq).2
  refine ⟨ht.present ▸ h.present, hg.map_key ▸ h.nodup, ?_, ?_, ?_, ?_, ?_, htodo ▸ h.todo_nodup, ?_,
    hkeys ▸ h.active_nodup, ?_⟩
  · intro j' hj' hr
    obtain ⟨j, hj, rfl⟩ := hmem j' hj'
    rw [hg.reused] at hr
    have hne : j.key ≠ w.key := by
      intro heq
      rw [hpending.reused h.nodup hj heq] at hr
      cases hr
    rw [hother j hne, ht.saved]
    exact h.reused j hj hr
  · intro j' hj' hr
    obtain ⟨j, hj, rfl⟩ := hmem j' hj'
    rw [hg.reused] at hr
    rw [hg.key, ht.saved]
    exact h.pending j hj hr
  · intro j' hj' hr hok
    obtain ⟨j, hj, rfl⟩ := hmem j' hj'
    rw [hg.reused] at hr
    by_cases hjk : j.key = w.key
    · have hgj := hself j hjk
      by_cases hserial : x.settings.serial = true
      · rw [if_pos hserial] at hgj
        rw [hgj] at hok ⊢
        obtain ⟨hmanifest, hlog, -⟩ := hfits.ok hok
        rw [hkey] at hlog
        refine ⟨hmanifest, ?_, ?_, fun _ _ _ => by rw [hsettings, hserial]⟩
        · exact hjk.symm ▸ hlog
        · rw [htodo]
          exact fun hmem => hnotTodo (hjk ▸ hmem)
      · rw [if_neg hserial] at hgj
        rw [hgj] at hok
        exact absurd ((h.done j hj hr hok).active w hw hjk.symm) hserial
    · rw [hother j hjk] at hok ⊢
      have hdone := h.done j hj hr hok
      refine ⟨hdone.manifest, (hlogs _ hjk).trans hdone.logs, htodo ▸ hdone.todo,
        fun w₁ hw₁ heq => ?_⟩
      rcases hactiveOf w₁ hw₁ with rfl | ⟨hw₁, -⟩
      · exact absurd (heq.symm.trans hkey) hjk
      · exact hsettings ▸ hdone.active w₁ hw₁ heq
  · obtain ⟨r, hr, hkept⟩ := h.kept
    refine ⟨r, ht.suiteJson ▸ hr, fun k m hok => ?_⟩
    obtain ⟨j, hj, hk, hst, hm⟩ := hkept k m hok
    have hne : j.key ≠ w.key := by
      intro heq
      exact hrec m (.inl ⟨r, hr, (hk.symm.trans heq) ▸ hok⟩)
    rw [hg.eq]
    exact ⟨j, List.mem_map.mpr ⟨j, hj, hother j hne⟩, hk, hst, hm⟩
  · intro hserial hne
    rw [hsettings] at hserial
    rw [hflow] at hne
    rw [h.quiet hserial hne] at hw
    cases hw
  · intro k hk
    rw [htodo] at hk
    obtain ⟨hpend, hdirs, hlog, hnrec, hdisj⟩ := h.todo k hk
    have hne : k ≠ w.key := fun heq => hnotTodo (heq ▸ hk)
    refine ⟨hg.pending hpend, (ht.dirs k hne).trans hdirs, (hlogs k hne).trans hlog,
      ht.recorded ▸ hnrec, fun w₁ hw₁ => ?_⟩
    rcases hactiveOf w₁ hw₁ with rfl | ⟨hw₁, -⟩
    · rw [hkey]
      exact hne.symm
    · exact hdisj w₁ hw₁
  · intro w₁ hw₁
    rw [ht.recorded]
    rcases hactiveOf w₁ hw₁ with rfl | ⟨hw₁, hne⟩
    · rw [hkey]
      exact ⟨hg.pending hpending, hrec, hfits⟩
    · obtain ⟨hpend, hnrec, hfits₁⟩ := h.active w₁ hw₁
      exact ⟨hg.pending hpend, hnrec, hfits₁.touched ht hne⟩

/-! ### Writing `suite.json` -/

theorem recorded_write {c : Settings} {st : SuiteStatus} {jobs : List Job} :
    (d.write c st jobs).Recorded k m ↔ OkIn jobs k m ∨ d.Saved k m := by
  rw [Disk.Recorded]
  constructor
  · rintro (⟨r, hr, hok⟩ | h)
    · obtain rfl := Option.some.inj hr
      exact .inl hok
    · exact .inr h
  · rintro (hok | h)
    · exact .inl ⟨_, rfl, hok⟩
    · exact .inr h

/-- What an execution has in memory: a job that is ok has been saved, or this attempt has done it. -/
theorem Going.okIn (h : Going d n x) (hok : OkIn x.jobs k m) :
    d.Saved k m ∨ ∃ j ∈ x.jobs, j.key = k ∧ j.reusedVerified = false ∧ Done d n x j ∧ m = some n := by
  obtain ⟨j, hj, rfl, hst, rfl⟩ := hok
  by_cases hr : j.reusedVerified = true
  · exact .inl (h.reused j hj hr).2
  · have hr := Bool.eq_false_iff.mpr hr
    have hdone := h.done j hj hr hst
    exact .inr ⟨j, hj, rfl, hr, hdone, hdone.manifest⟩

/-- **A write.** -/
theorem Going.write {c : Settings} {st : SuiteStatus} (h : Going d n x) (hs : Sound d n)
    (hidle : ∀ j ∈ x.jobs, Done d n x j → ∀ w ∈ x.active, w.key ≠ j.key)
    (hst : st = .ok → ∀ j ∈ x.jobs, j.status = some .ok) :
    (∀ k m, d.Recorded k m → (d.write c st x.jobs).Recorded k m) ∧
      Sound (d.write c st x.jobs) n ∧ Going (d.write c st x.jobs) n x := by
  have hmono : ∀ k m, d.Recorded k m → (d.write c st x.jobs).Recorded k m := by
    rintro k m (⟨r, hr, hok⟩ | hsaved)
    · obtain ⟨r', hr', hkept⟩ := h.kept
      rw [hr] at hr'
      obtain rfl := Option.some.inj hr'
      exact recorded_write.mpr (.inl (hkept k m hok))
    · exact recorded_write.mpr (.inr hsaved)
  refine ⟨hmono, ?_, ?_⟩
  · refine ⟨fun habsent => ?_, fun k m m' hk hk' => ?_, fun k m hk => ?_, hs.logs_le, hs.failed_le,
      hs.history_le, fun r hr => ?_⟩
    · rw [show (d.write c st x.jobs).present = d.present from rfl, h.present] at habsent
      cases habsent
    · rcases recorded_write.mp hk with hk | hk <;> rcases recorded_write.mp hk' with hk' | hk'
      · exact hk.unique h.nodup hk'
      · rcases h.okIn hk with hsaved | ⟨j, hj, rfl, hr, -⟩
        · exact hs.once k m m' (.inr hsaved) (.inr hk')
        · exact absurd hk' (h.pending j hj hr m')
      · rcases h.okIn hk' with hsaved | ⟨j, hj, rfl, hr, -⟩
        · exact hs.once k m m' (.inr hk) (.inr hsaved)
        · exact absurd hk (h.pending j hj hr m)
      · exact hs.once k m m' (.inr hk) (.inr hk')
    · rcases recorded_write.mp hk with hk | hk
      · rcases h.okIn hk with hsaved | ⟨j, -, rfl, -, hdone, rfl⟩
        · exact hs.completed k m (.inr hsaved)
        · exact ⟨n, rfl, hdone.logs⟩
      · exact hs.completed k m (.inr hk)
    · obtain rfl := Option.some.inj hr
      exact ⟨h.nodup, hst⟩
  · have hnot : ∀ k, Pending x.jobs k → (∀ m, ¬ d.Recorded k m) →
        (∀ j ∈ x.jobs, j.key = k → ¬ Done d n x j) →
          ∀ m, ¬ (d.write c st x.jobs).Recorded k m := by
      intro k _ hrec hdone m hk
      rcases recorded_write.mp hk with hk | hk
      · rcases h.okIn hk with hsaved | ⟨j, hj, hkey, -, hd, -⟩
        · exact hrec m (.inr hsaved)
        · exact hdone j hj hkey hd
      · exact hrec m (.inr hk)
    refine ⟨h.present, h.nodup, h.reused, h.pending, fun j hj hr hok => ?_,
      ⟨_, rfl, fun k m hok => hok⟩, h.quiet, h.todo_nodup, fun k hk => ?_, h.active_nodup,
      fun w hw => ?_⟩
    · have hdone := h.done j hj hr hok
      exact ⟨hdone.manifest, hdone.logs, hdone.todo, hdone.active⟩
    · obtain ⟨hpending, hdirs, hlogs, hrec, hdisj⟩ := h.todo k hk
      exact ⟨hpending, hdirs, hlogs,
        hnot k hpending hrec fun j _ hkey hd => hd.todo (hkey.symm ▸ hk), hdisj⟩
    · obtain ⟨hpending, hrec, hfits⟩ := h.active w hw
      exact ⟨hpending,
        hnot w.key hpending hrec fun j hj hkey hd => hidle j hj hd w hw hkey.symm,
        ⟨hfits.entered, hfits.exited, hfits.cleaning, hfits.ok⟩⟩

/-- In the loop nobody works on a job that is ok when it is time to write. -/
theorem Going.idle (h : Going d n x) (hflow : x.flow ≠ .going) :
    ∀ j ∈ x.jobs, Done d n x j → ∀ w ∈ x.active, w.key ≠ j.key := by
  intro j _ hdone w hw hkey
  rw [h.quiet (hdone.active w hw hkey) hflow] at hw
  cases hw

/-! ### Preparing an attempt -/

theorem map_key_availableJobs (jobs : List Planned) (unavailable : String → Bool) :
    (availableJobs jobs unavailable).map Planned.key =
      (jobs.filter fun j => !unavailable j.key).map Planned.key := by
  rw [availableJobs]
  split_ifs
  · rw [List.map_map]
    refine List.map_congr_left fun j _ => ?_
    simp only [Function.comp_apply]
    split_ifs <;> rfl
  · rfl

theorem nodup_availableJobs (plan : Plan) (unavailable : String → Bool) :
    ((availableJobs plan.jobs unavailable).map Planned.key).Nodup := by
  rw [map_key_availableJobs]
  exact plan.keys_nodup.sublist (List.filter_sublist.map _)

theorem previous_eq_some {old : Record} {j : Job} (h : previous old k = some j) :
    j ∈ old.jobs ∧ j.key = k :=
  ⟨List.mem_reverse.mp (List.mem_of_find?_eq_some h), by simpa using List.find?_some h⟩

/-- What the loop of `prepare_resume` makes of a job. -/
structure Resumed (old : Record) (dirs : Dict String ε) (r : Job × Bool) : Prop where
  reused : r.1.reusedVerified = true →
    r.1.status = some .ok ∧ OkIn old.jobs r.1.key r.1.processManifest
  pending : r.1.reusedVerified = false →
    r.1.status = none ∧ r.2 = (dirs.find? r.1.key).isSome ∧ old.hasOk r.1.key = false
  kept : r.1.reusedVerified = true → r.2 = false

theorem resumed_spec {old : Record} {verified : String → Bool} {dirs : Dict String ε} {p : Planned}
    {r : Job × Bool} (hnd : (old.jobs.map (·.key)).Nodup)
    (h : resumed old verified dirs p = some r) : r.1.key = p.key ∧ Resumed old dirs r := by
  have hfresh : (∀ j, previous old p.key = some j → j.status ≠ some .ok) →
      Resumed old dirs (p.fresh, (dirs.find? p.key).isSome) := by
    intro hprev
    refine ⟨nofun, fun _ => ⟨rfl, rfl, ?_⟩, nofun⟩
    by_contra hok
    obtain ⟨m, j, hj, hkey, hst, -⟩ := hasOk_iff.mp (by simpa using hok)
    cases hp : previous old p.key with
    | none =>
      have hnone := List.find?_eq_none.mp hp j (List.mem_reverse.mpr hj)
      exact hnone (decide_eq_true hkey)
    | some j' =>
      obtain ⟨hj', hkey'⟩ := previous_eq_some hp
      obtain rfl := List.inj_on_of_nodup_map hnd hj hj' (hkey.trans hkey'.symm)
      exact hprev j hp hst
  rw [resumed] at h
  cases hp : previous old p.key with
  | none =>
    rw [hp] at h
    obtain rfl := Option.some.inj h
    exact ⟨rfl, hfresh fun j hj => by rw [hp] at hj; cases hj⟩
  | some prior =>
    simp only [hp] at h
    by_cases hok : prior.status = some .ok
    · rw [if_pos hok] at h
      split_ifs at h
      obtain rfl := Option.some.inj h
      obtain ⟨hmem, hkey⟩ := previous_eq_some hp
      exact ⟨rfl, fun _ => ⟨rfl, prior, hmem, hkey, hok, rfl⟩, nofun, fun _ => rfl⟩
    · rw [if_neg hok] at h
      obtain rfl := Option.some.inj h
      exact ⟨rfl, hfresh fun j hj => Option.some.inj (hp.symm.trans hj) ▸ hok⟩

theorem resumedAll_spec {old : Record} {verified : String → Bool} {dirs : Dict String ε}
    (hnd : (old.jobs.map (·.key)).Nodup) {ps : List Planned} {rs : List (Job × Bool)}
    (h : resumedAll old verified dirs ps = some rs) :
    rs.map (·.1.key) = ps.map Planned.key ∧ ∀ r ∈ rs, Resumed old dirs r := by
  induction ps generalizing rs with
  | nil =>
    obtain rfl := Option.some.inj h
    exact ⟨rfl, nofun⟩
  | cons p ps ih =>
    rw [resumedAll] at h
    cases hp : resumed old verified dirs p with
    | none =>
      rw [hp] at h
      cases h
    | some r =>
      rw [hp] at h
      obtain ⟨rs', hrs', rfl⟩ := Option.map_eq_some_iff.mp h
      obtain ⟨hkey, hr⟩ := resumed_spec hnd hp
      obtain ⟨hkeys, hall⟩ := ih hrs'
      refine ⟨by rw [List.map_cons, List.map_cons, hkey, hkeys], fun r' hr' => ?_⟩
      rcases List.mem_cons.mp hr' with rfl | hr'
      · exact hr
      · exact hall r' hr'

theorem Sound.mono (h : Sound d n) : Sound d (n + 1) where
  absent := h.absent
  once := h.once
  completed := h.completed
  logs_le := fun a k ha => h.logs_le a k (by omega)
  failed_le := fun a k ha => h.failed_le a k (by omega)
  history_le := fun a ha => h.history_le a (by omega)
  suite := h.suite

/-- The present `suite.json` is saved. -/
theorem saved_history {old : Record} (hfresh : d.attemptHistory.find? n = none) :
    { d with attemptHistory := d.attemptHistory.set n old }.Saved k m ↔
      OkIn old.jobs k m ∨ d.Saved k m := by
  constructor
  · rintro ⟨a, r, hr, hok⟩
    simp only [Dict.find?_set] at hr
    split_ifs at hr with ha
    · obtain rfl := Option.some.inj hr
      exact .inl hok
    · exact .inr ⟨a, r, hr, hok⟩
  · rintro (hok | ⟨a, r, hr, hok⟩)
    · exact ⟨n, old, Dict.find?_set_self _ _ _, hok⟩
    · refine ⟨a, r, ?_, hok⟩
      rw [← hr]
      refine Dict.find?_set_of_ne _ _ ?_
      rintro rfl
      rw [hfresh] at hr
      cases hr

theorem recorded_history {old : Record} (hfresh : d.attemptHistory.find? n = none)
    (hold : d.suiteJson = some old) :
    { d with attemptHistory := d.attemptHistory.set n old }.Recorded = d.Recorded := by
  funext k m
  rw [Disk.Recorded, Disk.Recorded, saved_history hfresh, hold]
  refine propext ⟨?_, ?_⟩
  · rintro (h | h | h)
    · exact .inl h
    · exact .inl ⟨old, rfl, h⟩
    · exact .inr h
  · rintro (h | h)
    · exact .inl h
    · exact .inr (.inr h)

theorem Sound.saved_history {old : Record} (hs : Sound d n) (hold : d.suiteJson = some old) :
    Sound { d with attemptHistory := d.attemptHistory.set (n + 1) old } (n + 1) := by
  have hrec := recorded_history (hs.history_le (n + 1) (by omega)) hold
  refine ⟨fun habsent => ?_, ?_, ?_, hs.mono.logs_le, hs.mono.failed_le, fun a ha => ?_, hs.suite⟩
  · have hnone := (hs.absent habsent).1
    rw [hold] at hnone
    cases hnone
  · rw [hrec]
    exact hs.once
  · rw [hrec]
    exact hs.completed
  · exact (Dict.find?_set_of_ne _ _ (by omega)).trans (hs.history_le a (by omega))

/-- A job that is to be executed has not been recorded. -/
theorem Resumed.not_recorded {old : Record} {r : Job × Bool} (hr : Resumed old d.dirs r)
    (hold : d.suiteJson = some old) (hreturns : d.attemptHistory.values.any (Record.hasOk · r.1.key) = true →
      d.suiteJson.any (Record.hasOk · r.1.key) = true) (hpending : r.1.reusedVerified = false) :
    ¬ d.Recorded r.1.key m := by
  obtain ⟨-, -, hhas⟩ := hr.pending hpending
  rintro (⟨r', hr', hok⟩ | hsaved)
  · rw [hold] at hr'
    obtain rfl := Option.some.inj hr'
    rw [hasOk_iff.mpr ⟨m, hok⟩] at hhas
    cases hhas
  · have hback := hreturns (saved_iff.mpr ⟨m, hsaved⟩)
    rw [hold, Option.any_some, hhas] at hback
    cases hback

/-- **What `prepare_resume` leaves to move.** -/
theorem moving_spec {plan : Plan} {unavailable verified : String → Bool} {old : Record}
    {rs : List (Job × Bool)} (hs : Sound d n) (hpresent : d.present = true)
    (hold : d.suiteJson = some old) (hreturns : ∀ j ∈ availableJobs plan.jobs unavailable,
      d.attemptHistory.values.any (Record.hasOk · j.key) = true →
        d.suiteJson.any (Record.hasOk · j.key) = true)
    (hrs : resumedAll old verified d.dirs (availableJobs plan.jobs unavailable) = some rs) :
    PhaseInv { d with attemptHistory := d.attemptHistory.set (n + 1) old } (n + 1)
      (.moving ⟨plan.settings, rs.map (·.1), true⟩ (failedPaths rs)) := by
  have hfresh : d.attemptHistory.find? (n + 1) = none := hs.history_le _ (by omega)
  obtain ⟨hkeys, hall⟩ := resumedAll_spec (hs.suite old hold).1 hrs
  have hnodup : (rs.map (·.1.key)).Nodup := by
    rw [hkeys]
    exact nodup_availableJobs plan unavailable
  have hback : ∀ r ∈ rs, d.attemptHistory.values.any (Record.hasOk · r.1.key) = true →
      d.suiteJson.any (Record.hasOk · r.1.key) = true := by
    intro r hr
    have hmem : r.1.key ∈ (availableJobs plan.jobs unavailable).map Planned.key := by
      rw [← hkeys]
      exact List.mem_map_of_mem hr
    obtain ⟨p, hp, hpk⟩ := List.mem_map.mp hmem
    rw [← hpk]
    exact hreturns p hp
  have hsaved : ∀ k m, OkIn old.jobs k m →
      { d with attemptHistory := d.attemptHistory.set (n + 1) old }.Saved k m :=
    fun k m hok => (saved_history hfresh).mpr (.inl hok)
  refine ⟨hpresent, ⟨by rwa [List.map_map], fun j hj hr => ?_, fun j hj hr => ?_,
    fun r hr k m hok => ?_, fun k => hs.logs_le _ _ (by omega)⟩, rfl, ?_, fun k hk => ?_,
    fun k hk hdir => ?_⟩
  · obtain ⟨r, hmem, rfl⟩ := List.mem_map.mp hj
    obtain ⟨hst, hok⟩ := (hall r hmem).reused hr
    exact ⟨hst, hsaved _ _ hok⟩
  · obtain ⟨r, hmem, rfl⟩ := List.mem_map.mp hj
    refine ⟨((hall r hmem).pending hr).1, fun m => ?_⟩
    rw [recorded_history hfresh hold]
    exact (hall r hmem).not_recorded hold (hback r hmem) hr
  · obtain rfl := Option.some.inj (hold.symm.trans hr)
    exact hsaved k m hok
  · have hsub := (List.filter_sublist (p := fun r : Job × Bool => r.2) (l := rs)).map (·.1.key)
    exact hnodup.sublist hsub
  · obtain ⟨r, hmem, rfl⟩ := List.mem_map.mp hk
    obtain ⟨hmem, hmoved⟩ := List.mem_filter.mp hmem
    refine ⟨⟨r.1, List.mem_map_of_mem hmem, rfl, ?_⟩, hs.failed_le _ _ (by omega)⟩
    by_contra hreused
    rw [(hall r hmem).kept (by simpa using hreused)] at hmoved
    cases hmoved
  · obtain ⟨j, hj, rfl, hr⟩ := hk
    obtain ⟨r, hmem, rfl⟩ := List.mem_map.mp hj
    obtain ⟨-, hmoved, -⟩ := (hall r hmem).pending hr
    refine List.mem_map.mpr ⟨r, List.mem_filter.mpr ⟨hmem, ?_⟩, rfl⟩
    rw [hmoved]
    exact Option.isSome_iff_ne_none.mpr hdir

/-- What an attempt that begins keeps. -/
structure Begun (d : Disk ε) (n : ℕ) (r : Disk ε × Phase) : Prop where
  recorded : r.1.Recorded = d.Recorded
  dirs : r.1.dirs = d.dirs
  logs : r.1.logs = d.logs
  failed : r.1.failedAttempts = d.failedAttempts
  writers : r.2.writers = []
  sound : Sound r.1 (n + 1)
  phase : PhaseInv r.1 (n + 1) r.2

/-- **The next attempt begins.** -/
theorem begin_spec {resume : Bool} {plan : Plan} {unavailable verified : String → Bool}
    (hs : Sound d n) (hreturns : ∀ j ∈ availableJobs plan.jobs unavailable,
      d.attemptHistory.values.any (Record.hasOk · j.key) = true →
        d.suiteJson.any (Record.hasOk · j.key) = true) :
    Begun d n (begin d (n + 1) resume plan unavailable verified) := by
  have hidle : Begun d n (d, .idle []) := ⟨rfl, rfl, rfl, rfl, rfl, hs.mono, nofun⟩
  rw [begin]
  by_cases hnone : availableJobs plan.jobs unavailable = []
  · rw [if_pos hnone]
    exact hidle
  rw [if_neg hnone]
  by_cases hresume : (resume && d.present) = true
  · rw [if_pos hresume]
    have hpresent := (Bool.and_eq_true_iff.mp hresume).2
    split
    · exact hidle
    · rename_i old hold
      by_cases hconfig : old.effectiveConfig ≠ plan.settings.effectiveConfig
      · rw [if_pos hconfig]
        exact hidle
      rw [if_neg hconfig]
      have hfresh : d.attemptHistory.find? (n + 1) = none := hs.history_le _ (by omega)
      have hrec := recorded_history hfresh hold
      simp only [hfresh]
      cases hrs : resumedAll old verified d.dirs (availableJobs plan.jobs unavailable) with
      | none => exact ⟨hrec, rfl, rfl, rfl, rfl, hs.saved_history hold, nofun⟩
      | some rs =>
        exact ⟨hrec, rfl, rfl, rfl, rfl, hs.saved_history hold,
          moving_spec hs hpresent hold hreturns hrs⟩
  · rw [if_neg hresume]
    refine ⟨rfl, rfl, rfl, rfl, rfl, hs.mono, fun hfirst => ?_⟩
    have habsent : d.present = false := hfirst.resolve_left (by simp)
    obtain ⟨hsuite, hdirs, hsaved⟩ := hs.absent habsent
    refine ⟨⟨?_, fun j hj hr => ?_, fun j hj _ => ?_, fun r hr => ?_,
      fun k => hs.logs_le _ _ (by omega)⟩, fun k _ => hdirs k⟩
    · rw [List.map_map]
      exact nodup_availableJobs plan unavailable
    · obtain ⟨p, -, rfl⟩ := List.mem_map.mp hj
      cases hr
    · obtain ⟨p, -, rfl⟩ := List.mem_map.mp hj
      refine ⟨rfl, fun m hk => ?_⟩
      rcases hk with ⟨r, hr, -⟩ | hk
      · rw [hsuite] at hr
        cases hr
      · exact hsaved _ _ hk
    · rw [hsuite] at hr
      cases hr

/-! ### The steps -/

/-- The evidence of a job is moved. -/
theorem move_spec {p : Prepared} {k : String} {ks : List String} {e : ε} (hs : Sound d n)
    (hp : PhaseInv d n (.moving p (k :: ks))) :
    Sound { d with
        dirs := d.dirs.erase k
        failedAttempts := d.failedAttempts.set (n, k) e } n ∧
      PhaseInv { d with
        dirs := d.dirs.erase k
        failedAttempts := d.failedAttempts.set (n, k) e } n (.moving p ks) := by
  obtain ⟨hpresent, hready, hres, hnodup, hpaths, hall⟩ := hp
  obtain ⟨hk, hnodup⟩ := List.nodup_cons.mp hnodup
  have hne : ∀ k' ∈ ks, k' ≠ k := fun k' hk' heq => hk (heq ▸ hk')
  constructor
  · refine ⟨fun habsent => ?_, hs.once, hs.completed, hs.logs_le, fun a k' ha => ?_, hs.history_le,
      hs.suite⟩
    · rw [hpresent] at habsent
      cases habsent
    · refine (Dict.find?_set_of_ne _ _ fun heq => ?_).trans (hs.failed_le a k' ha)
      exact absurd (Prod.mk.inj heq).1 (by omega)
  · refine ⟨hpresent, ⟨hready.nodup, hready.reused, hready.pending, hready.saved, hready.logs⟩, hres,
      hnodup, fun k' hk' => ?_, fun k' hk' hdir => ?_⟩
    · obtain ⟨hpend, hfailed⟩ := hpaths k' (List.mem_cons_of_mem _ hk')
      refine ⟨hpend, (Dict.find?_set_of_ne _ _ fun heq => ?_).trans hfailed⟩
      exact hne k' hk' (Prod.mk.inj heq).2
    · by_cases heq : k' = k
      · subst heq
        exact absurd (Dict.find?_erase_self _ _) hdir
      · rw [Dict.find?_erase_of_ne _ heq] at hdir
        exact (List.mem_cons.mp (hall k' hk' hdir)).resolve_left heq

/-- `execute_plan` writes its jobs for the first time. -/
theorem open_spec {p : Prepared} (hs : Sound d n) (hp : PhaseInv d n (.opening p)) :
    (∀ k m, d.Recorded k m → (d.write p.settings .running p.jobs).Recorded k m) ∧
      Sound (d.write p.settings .running p.jobs) n ∧
      Going (d.write p.settings .running p.jobs) n
        { settings := p.settings
          jobs := p.jobs
          todo := (p.jobs.filter fun j => !j.reusedVerified).map (·.key)
          active := []
          stopped := false
          flow := .going } := by
  obtain ⟨hpresent, hready, hdirs⟩ := hp
  have hok : ∀ k m, OkIn p.jobs k m → d.Saved k m := by
    rintro k m ⟨j, hj, rfl, hst, rfl⟩
    by_cases hr : j.reusedVerified = true
    · exact (hready.reused j hj hr).2
    · rw [(hready.pending j hj (Bool.eq_false_iff.mpr hr)).1] at hst
      cases hst
  have hsaved : ∀ k m, (d.write p.settings .running p.jobs).Recorded k m → d.Saved k m := by
    intro k m hk
    rcases recorded_write.mp hk with hk | hk
    · exact hok k m hk
    · exact hk
  have htodo : ∀ k ∈ (p.jobs.filter fun j => !j.reusedVerified).map (·.key),
      Pending p.jobs k := by
    intro k hk
    obtain ⟨j, hj, rfl⟩ := List.mem_map.mp hk
    obtain ⟨hj, hr⟩ := List.mem_filter.mp hj
    exact ⟨j, hj, rfl, by simpa using hr⟩
  refine ⟨fun k m hk => ?_, ⟨fun habsent => ?_, fun k m m' hk hk' => ?_, fun k m hk => ?_,
    hs.logs_le, hs.failed_le, hs.history_le, fun r hr => ?_⟩, ⟨hpresent, hready.nodup, hready.reused,
    fun j hj hr m hk => ?_, fun j hj hr hst => ?_, ⟨_, rfl, fun k m hk => hk⟩, fun _ h => absurd rfl h,
    ?_, fun k hk => ?_, List.nodup_nil, nofun⟩⟩
  · rcases hk with ⟨r, hr, hk⟩ | hk
    · exact recorded_write.mpr (.inr (hready.saved r hr k m hk))
    · exact recorded_write.mpr (.inr hk)
  · rw [show (d.write p.settings .running p.jobs).present = d.present from rfl, hpresent] at habsent
    cases habsent
  · exact hs.once k m m' (.inr (hsaved k m hk)) (.inr (hsaved k m' hk'))
  · exact hs.completed k m (.inr (hsaved k m hk))
  · obtain rfl := Option.some.inj hr
    exact ⟨hready.nodup, nofun⟩
  · exact (hready.pending j hj hr).2 m (.inr hk)
  · rw [(hready.pending j hj hr).1] at hst
    cases hst
  · exact hready.nodup.sublist (List.filter_sublist.map _)
  · have hpend := htodo k hk
    refine ⟨hpend, hdirs k hpend, hready.logs k, fun m hrec => ?_, nofun⟩
    obtain ⟨j, hj, rfl, hr⟩ := hpend
    exact (hready.pending j hj hr).2 m (.inr (hsaved _ m hrec))

theorem Going.enter (h : Going d n x) (hx : x.enter = some x') :
    Going d n x' ∧ ∀ w ∈ x'.active, w ∈ x.active ∨ d.dirs.find? w.key = none := by
  rw [Exec.enter] at hx
  cases htodo : x.todo with
  | nil =>
    rw [htodo] at hx
    cases hx
  | cons k rest =>
    simp only [htodo] at hx
    have hmem : k ∈ x.todo := htodo ▸ List.mem_cons_self
    obtain ⟨-, hdirs, hlogs, -, hdisj⟩ := h.todo k hmem
    have hnodup := h.todo_nodup
    rw [htodo] at hnodup
    have hrest : k ∉ rest := (List.nodup_cons.mp hnodup).1
    have hentered : Work.Fits d n ⟨k, .entered, none, none⟩ :=
      ⟨fun _ => ⟨hdirs, hlogs⟩, nofun, nofun, nofun⟩
    by_cases hserial : x.settings.serial = true
    · rw [if_pos hserial] at hx
      split_ifs at hx with hgoing
      obtain rfl := Option.some.inj hx
      refine ⟨h.next (.refl x.jobs) (fun j _ hne => absurd rfl hne) rfl ?_ (fun w hw => ?_)
        (List.nodup_singleton _) (fun _ hne => absurd hgoing.1 hne), fun w hw => ?_⟩
      · rw [htodo]
        exact List.sublist_cons_self k rest
      · obtain rfl := List.mem_singleton.mp hw
        exact .inr ⟨hmem, hrest, hentered⟩
      · obtain rfl := List.mem_singleton.mp hw
        exact .inr hdirs
    · rw [if_neg hserial] at hx
      by_cases hfree : (x.active.filter fun w => !w.ended).length < x.settings.workers
      swap
      · rw [if_neg hfree] at hx
        cases hx
      rw [if_pos hfree] at hx
      obtain rfl := Option.some.inj hx
      obtain ⟨w₀, hw₀⟩ : ∃ w₀ : Work, (if x.stopped = true then
        ⟨k, .returned, some .cancelled, none⟩ else ⟨k, .entered, none, none⟩) = w₀ := ⟨_, rfl⟩
      have hkey : w₀.key = k := by
        rw [← hw₀]
        split_ifs <;> rfl
      have hfits : w₀.Fits d n := by
        rw [← hw₀]
        split_ifs
        · exact ⟨nofun, nofun, nofun, nofun⟩
        · exact hentered
      rw [hw₀]
      have hcases : ∀ w ∈ x.active ++ [w₀], w ∈ x.active ∨ w = w₀ := by
        intro w hw
        rcases List.mem_append.mp hw with hw | hw
        · exact .inl hw
        · exact .inr (List.mem_singleton.mp hw)
      refine ⟨h.next (.refl x.jobs) (fun j _ hne => absurd rfl hne) rfl ?_ (fun w hw => ?_) ?_
        (fun hs => absurd hs hserial), fun w hw => ?_⟩
      · rw [htodo]
        exact List.sublist_cons_self k rest
      · rcases hcases w hw with hw | rfl
        · exact .inl hw
        · exact .inr ⟨hkey ▸ hmem, hkey ▸ hrest, hfits⟩
      · rw [List.map_append, List.map_singleton, hkey]
        refine h.active_nodup.append (List.nodup_singleton k) fun k' hk' hmem' => ?_
        obtain ⟨w, hw, rfl⟩ := List.mem_map.mp hk'
        exact hdisj w hw (List.mem_singleton.mp hmem')
      · rcases hcases w hw with hw | rfl
        · exact .inl hw
        · exact .inr (hkey ▸ hdirs)

/-- No job is worked on any more, or fewer of them. -/
theorem Going.fewer (h : Going d n x) (hg : Marks x.jobs x'.jobs g)
    (hmarked : ∀ j ∈ x.jobs, g j ≠ j →
      ((g j).status = some .ok → Done d n x' (g j)) ∧
        (j.key ∈ x.todo ∨ ∃ w ∈ x.active, w.key = j.key))
    (hsettings : x'.settings = x.settings) (htodo : x'.todo.Sublist x.todo)
    (hactive : x'.active.Sublist x.active)
    (hquiet : x'.settings.serial = true → x'.flow ≠ .going → x'.active = []) : Going d n x' := by
  refine h.next hg (fun j hj hne => ?_) hsettings htodo (fun _ hw => .inl (hactive.subset hw))
    (h.active_nodup.sublist (hactive.map _)) hquiet
  obtain ⟨hdone, hmem | ⟨w, hw, hkey⟩⟩ := hmarked j hj hne
  · obtain ⟨hpend, -, -, hrec, -⟩ := h.todo j.key hmem
    exact ⟨hpend.reused h.nodup hj rfl, hrec, hdone⟩
  · obtain ⟨hpend, hrec, -⟩ := h.active w hw
    exact ⟨hpend.reused h.nodup hj hkey.symm, hkey ▸ hrec, hdone⟩

/-- The loop goes on, or it ends. -/
theorem Going.flow {todo : List String} {active : List Work} {stopped : Bool} {flow : Flow}
    (h : Going d n x) (htodo : todo.Sublist x.todo) (hactive : active.Sublist x.active)
    (hquiet : x.settings.serial = true → flow ≠ .going → active = []) :
    Going d n { x with todo, active, stopped, flow } :=
  h.fewer (.refl x.jobs) (fun _ _ hne => absurd rfl hne) rfl htodo hactive hquiet

theorem find?_active {key : String} {w : Work} (h : x.active.find? (·.key = key) = some w) :
    w ∈ x.active ∧ w.key = key :=
  ⟨List.mem_of_find?_eq_some h, by simpa using List.find?_some h⟩

/-- Every job of which the loop changes the status has been worked on. -/
theorem setJob_ne {key : String} {f : Job → Job} {w : Work} {j : Job} (hw : w ∈ x.active)
    (hkey : w.key = key) (hne : (if j.key = key then f j else j) ≠ j) :
    j.key = key ∧ (if j.key = key then f j else j) = f j ∧ ∃ w ∈ x.active, w.key = j.key := by
  by_cases hk : j.key = key
  · exact ⟨hk, if_pos hk, w, hw, hkey.trans hk.symm⟩
  · rw [if_neg hk] at hne
    exact absurd rfl hne

theorem Going.collect {key : String} (h : Going d n x) (hx : x.collect key = some x') :
    Going d n x' ∧ x'.active.Sublist x.active := by
  rw [Exec.collect] at hx
  cases hfind : x.active.find? (·.key = key) with
  | none =>
    rw [hfind] at hx
    cases hx
  | some w =>
    obtain ⟨hw, hkey⟩ := find?_active hfind
    obtain ⟨-, -, hfits⟩ := h.active w hw
    simp only [hfind] at hx
    by_cases hgoing : x.flow ≠ .going
    · rw [if_pos hgoing] at hx
      cases hx
    rw [if_neg hgoing] at hx
    by_cases hserial : x.settings.serial = true
    · rw [if_pos hserial] at hx
      split at hx
      · obtain rfl := Option.some.inj hx
        exact ⟨h.flow (.refl _) (List.nil_sublist _) fun _ _ => rfl, List.nil_sublist _⟩
      · rename_i interrupt _
        by_cases hhooks : x.settings.hooks = true
        · rw [if_pos hhooks] at hx
          by_cases hinterrupt : interrupt = true
          · rw [if_pos hinterrupt] at hx
            obtain rfl := Option.some.inj hx
            have hmarks := (marks_setJob x.jobs key
              (f := fun j => { j with status := some .interrupted }) (fun _ => rfl) fun _ => rfl).trans
                (marks_skipLater _ x.todo)
            refine ⟨h.fewer hmarks (fun j hj hne => ?_) rfl (List.nil_sublist _) (List.nil_sublist _)
              fun _ _ => rfl, List.nil_sublist _⟩
            simp only [Function.comp_apply] at hne ⊢
            by_cases hk : j.key = key
            · refine ⟨fun hok => ?_, .inr ⟨w, hw, hkey.trans hk.symm⟩⟩
              rw [if_pos hk] at hok
              split_ifs at hok <;> cases hok
            · rw [if_neg hk] at hne ⊢
              by_cases hmem : j.key ∈ x.todo
              · rw [if_pos hmem]
                exact ⟨nofun, .inl hmem⟩
              · rw [if_neg hmem] at hne
                exact absurd rfl hne
          · rw [if_neg hinterrupt] at hx
            obtain rfl := Option.some.inj hx
            refine ⟨h.fewer (marks_setJob x.jobs key (fun _ => rfl) fun _ => rfl) (fun j hj hne => ?_)
              rfl (.refl _) (List.nil_sublist _) fun _ _ => rfl, List.nil_sublist _⟩
            obtain ⟨-, heq, hex⟩ :=
              setJob_ne (f := fun j => { j with status := some .failed }) hw hkey hne
            rw [heq]
            exact ⟨nofun, .inr hex⟩
        · rw [if_neg hhooks] at hx
          obtain rfl := Option.some.inj hx
          exact ⟨h.flow (List.nil_sublist _) (List.nil_sublist _) fun _ _ => rfl,
            List.nil_sublist _⟩
      · cases hx
    · rw [if_neg hserial] at hx
      split at hx
      · obtain rfl := Option.some.inj hx
        refine ⟨h.fewer (marks_setJob x.jobs key (fun _ => rfl) fun _ => rfl) (fun j hj hne => ?_) rfl
          (.refl _) List.filter_sublist fun hs => absurd hs hserial, List.filter_sublist⟩
        obtain ⟨hk, heq, hex⟩ := setJob_ne hw hkey hne
        rw [heq]
        refine ⟨fun hok => ?_, .inr hex⟩
        obtain ⟨hmanifest, hlogs, -⟩ := hfits.ok hok
        refine ⟨hmanifest, ?_, fun hmem => ?_, fun w' hw' hk' => ?_⟩
        · exact (hkey.trans hk.symm) ▸ hlogs
        · exact (h.todo j.key hmem).2.2.2.2 w hw (hkey.trans hk.symm)
        · have hne' := (List.mem_filter.mp hw').2
          exact absurd (hk'.trans hk) (by simpa using hne')
      · obtain rfl := Option.some.inj hx
        exact ⟨h.flow (List.nil_sublist _) List.filter_sublist fun hs => absurd hs hserial,
          List.filter_sublist⟩
      · cases hx

theorem Going.written {key : String} (h : Going d n x) (hflow : x.flow ≠ .going) :
    Going d n (x.written key) ∧ (x.written key).active = x.active := by
  rw [Exec.written]
  by_cases hstop : x.settings.serial = true ∧ ∃ j ∈ x.jobs, j.key = key ∧ j.status ≠ some .ok
  · rw [if_pos hstop]
    refine ⟨h.fewer (marks_skipLater x.jobs x.todo) (fun j hj hne => ?_) rfl (List.nil_sublist _)
      (.refl _) fun hs _ => h.quiet hs hflow, rfl⟩
    by_cases hmem : j.key ∈ x.todo
    · rw [if_pos hmem]
      exact ⟨nofun, .inl hmem⟩
    · rw [if_neg hmem] at hne
      exact absurd rfl hne
  · rw [if_neg hstop]
    exact ⟨h.flow (.refl _) (.refl _) fun _ hne => absurd rfl hne, rfl⟩

theorem Going.raise (h : Going d n x) (hx : x.raise = some x') :
    Going d n x' ∧ x'.active = x.active := by
  rw [Exec.raise] at hx
  by_cases hended : x.flow = .stopping ∨ x.flow = .closed
  · rw [if_pos hended] at hx
    cases hx
  rw [if_neg hended] at hx
  by_cases hserial : x.settings.serial = true
  · rw [if_pos hserial] at hx
    split_ifs at hx with hactive
    obtain rfl := Option.some.inj hx
    exact ⟨h.flow (List.nil_sublist _) (.refl _) fun _ _ => hactive, rfl⟩
  · rw [if_neg hserial] at hx
    obtain rfl := Option.some.inj hx
    exact ⟨h.flow (List.nil_sublist _) (.refl _) fun hs => absurd hs hserial, rfl⟩

theorem finalStatus_ok {jobs : List Job} (h : finalStatus jobs = .ok) :
    ∀ j ∈ jobs, j.status = some .ok := by
  rw [finalStatus] at h
  split_ifs at h with hall
  exact hall.2

/-- **One step.** -/
theorem step_spec {l : Label ε} (h : Inv s) (hC : NothingReturns s l) (hs : step s l = some t) :
    Inv t ∧ Keeps s t := by
  obtain ⟨d, n, ph⟩ := s
  obtain ⟨hsound, hphase⟩ := h
  simp only at hsound hphase
  cases l with
  | begin resume plan unavailable verified =>
    cases ph with
    | idle orphans =>
      obtain rfl := Option.some.inj hs
      have hb := @begin_spec _ _ _ resume _ _ verified hsound hC
      exact ⟨⟨hb.sound, hb.phase⟩, .of_same hb.dirs hb.logs hb.failed
        (by rw [hb.recorded]; exact fun _ _ h => h) (by rw [hb.writers]; exact nofun)⟩
    | _ => cases hs
  | move =>
    cases ph with
    | moving p paths =>
      obtain ⟨hpresent, hready, hres, hnodup, hpaths, hall⟩ := hphase
      cases paths with
      | nil =>
        obtain rfl := Option.some.inj hs
        refine ⟨⟨hsound, fun _ => ⟨hready, fun k hk => ?_⟩⟩, .of_disk rfl nofun⟩
        by_contra hdir
        cases hall k hk hdir
      | cons k ks =>
        simp only [step] at hs
        cases he : d.dirs.find? k with
        | none =>
          rw [he] at hs
          obtain rfl := Option.some.inj hs
          exact ⟨⟨hsound, nofun⟩, .of_disk rfl nofun⟩
        | some e =>
          rw [he] at hs
          obtain rfl := Option.some.inj hs
          obtain ⟨hsound', hphase'⟩ :=
            move_spec (e := e) hsound ⟨hpresent, hready, hres, hnodup, hpaths, hall⟩
          obtain ⟨⟨j, hj, rfl, hr⟩, hfresh⟩ := hpaths k List.mem_cons_self
          refine ⟨⟨hsound', hphase'⟩, ⟨fun _ _ h => h, fun k' m hrec => ⟨fun _ => rfl, ?_⟩,
            fun k' e' he' _ => ?_, fun a k' e' he' => ?_⟩⟩
          · refine Dict.find?_erase_of_ne _ ?_
            rintro rfl
            exact (hready.pending j hj hr).2 m hrec
          · by_cases heq : k' = j.key
            · subst heq
              rw [he] at he'
              exact .inr ⟨n, Option.some.inj he' ▸ Dict.find?_set_self _ _ _⟩
            · exact .inl ⟨(Dict.find?_erase_of_ne _ heq).trans he', nofun, fun _ => rfl⟩
          · refine (Dict.find?_set_of_ne _ _ fun heq => ?_).trans he'
            rw [heq, hfresh] at he'
            cases he'
    | _ => cases hs
  | mkdir =>
    cases ph with
    | planned p =>
      simp only [step] at hs
      split_ifs at hs with hrefused
      · obtain rfl := Option.some.inj hs
        exact ⟨⟨hsound, nofun⟩, .of_disk rfl nofun⟩
      · obtain rfl := Option.some.inj hs
        obtain ⟨hready, hdirs⟩ := hphase (by
          by_contra hne
          rw [not_or] at hne
          exact hrefused (by simpa using hne.symm))
        have hsound' : Sound { d with present := true } n :=
          ⟨nofun, hsound.once, hsound.completed, hsound.logs_le, hsound.failed_le, hsound.history_le,
            hsound.suite⟩
        exact ⟨⟨hsound', rfl,
          ⟨hready.nodup, hready.reused, hready.pending, hready.saved, hready.logs⟩, hdirs⟩,
          .of_same rfl rfl rfl (fun _ _ h => h) nofun⟩
    | _ => cases hs
  | «open» =>
    cases ph with
    | opening p =>
      obtain rfl := Option.some.inj hs
      obtain ⟨hrec, hsound', hgoing⟩ := open_spec hsound hphase
      exact ⟨⟨hsound', hgoing⟩, .of_same rfl rfl rfl hrec nofun⟩
    | _ => cases hs
  | enter =>
    cases ph with
    | executing x =>
      obtain ⟨x', hx', rfl⟩ := Option.map_eq_some_iff.mp hs
      obtain ⟨hgoing, hactive⟩ := Going.enter hphase hx'
      refine ⟨⟨hsound, hgoing⟩, .of_disk rfl fun k hk => ?_⟩
      obtain ⟨w, hw, rfl⟩ := List.mem_map.mp hk
      exact (hactive w hw).imp_left fun hw => List.mem_map_of_mem hw
    | _ => cases hs
  | work key op =>
    cases ph with
    | executing x =>
      simp only [step] at hs
      split at hs
      · cases hs
      · rename_i w hfind
        obtain ⟨hw, rfl⟩ := find?_active hfind
        obtain ⟨⟨d', w'⟩, hrun, rfl⟩ := Option.map_eq_some_iff.mp hs
        obtain ⟨-, hrec, hfits⟩ := hphase.active w hw
        obtain ⟨hkey, ht, hfits'⟩ := Work.run_spec hfits hrun
        refine ⟨⟨hsound.touched ht hrec hphase.present, hphase.work hw ht hkey hfits'⟩,
          Keeps.touched ht hrec (List.mem_map_of_mem hw) fun k hk => ?_⟩
        simp only [Phase.writers, (sync_eq x w' _).2.2.1, map_key_replaceWork] at hk
        exact hk
    | _ => cases hs
  | collect key =>
    cases ph with
    | executing x =>
      obtain ⟨x', hx', rfl⟩ := Option.map_eq_some_iff.mp hs
      obtain ⟨hgoing, hactive⟩ := Going.collect hphase hx'
      exact ⟨⟨hsound, hgoing⟩, .of_disk rfl fun k hk => .inl ((hactive.map _).subset hk)⟩
    | _ => cases hs
  | write =>
    cases ph with
    | executing x =>
      simp only [step] at hs
      split at hs
      · rename_i key hflow
        obtain rfl := Option.some.inj hs
        have hne : x.flow ≠ .going := by
          rw [hflow]
          exact nofun
        obtain ⟨hrec, hsound', hgoing⟩ := @Going.write _ _ _ _ x.settings .running hphase
          hsound (hphase.idle hne) nofun
        obtain ⟨hwritten, hactive⟩ := @Going.written _ _ _ _ key hgoing hne
        refine ⟨⟨hsound', hwritten⟩, .of_same rfl rfl rfl hrec fun k hk => .inl ?_⟩
        simp only [Phase.writers, hactive] at hk
        exact hk
      · cases hs
    | _ => cases hs
  | stop =>
    cases ph with
    | executing x =>
      simp only [step] at hs
      split_ifs at hs with hdone
      obtain rfl := Option.some.inj hs
      exact ⟨⟨hsound, hphase.flow (.refl _) (.refl _) fun _ _ => hdone.2.2⟩,
        .of_disk rfl fun k hk => .inl hk⟩
    | _ => cases hs
  | raise =>
    cases ph with
    | executing x =>
      obtain ⟨x', hx', rfl⟩ := Option.map_eq_some_iff.mp hs
      obtain ⟨hgoing, hactive⟩ := Going.raise hphase hx'
      refine ⟨⟨hsound, hgoing⟩, .of_disk rfl fun k hk => .inl ?_⟩
      simp only [Phase.writers, hactive] at hk
      exact hk
    | _ => cases hs
  | close =>
    cases ph with
    | executing x =>
      simp only [step] at hs
      split_ifs at hs with hflow
      obtain rfl := Option.some.inj hs
      have hne : x.flow ≠ .going := by
        rw [hflow]
        exact nofun
      obtain ⟨hrec, hsound', hgoing⟩ := @Going.write _ _ _ _ x.settings (finalStatus x.jobs)
        hphase hsound (hphase.idle hne) finalStatus_ok
      exact ⟨⟨hsound', hgoing.flow (.refl _) (.refl _) fun hs _ => hgoing.quiet hs hne⟩,
        .of_same rfl rfl rfl hrec fun k hk => .inl hk⟩
    | _ => cases hs
  | leave =>
    cases ph with
    | executing x =>
      simp only [step] at hs
      split_ifs at hs with hclosed
      obtain rfl := Option.some.inj hs
      exact ⟨⟨hsound, nofun⟩, .of_disk rfl nofun⟩
    | _ => cases hs
  | kill =>
    obtain rfl := Option.some.inj hs
    have hsub : ∀ k ∈ ph.producers,
        k ∈ ph.writers ∧ d.present = true ∧ ∀ m, ¬ d.Recorded k m := by
      intro k hk
      cases ph with
      | idle orphans => exact ⟨hk, hphase k hk⟩
      | executing x =>
        obtain ⟨w, hw, rfl⟩ := List.mem_map.mp hk
        have hmem := (List.mem_filter.mp hw).1
        exact ⟨List.mem_map_of_mem hmem, hphase.present, (hphase.active w hmem).2.1⟩
      | _ => cases hk
    exact ⟨⟨hsound, fun k hk => (hsub k hk).2⟩, .of_disk rfl fun k hk => .inl (hsub k hk).1⟩
  | orphan key e =>
    cases ph with
    | idle orphans =>
      simp only [step] at hs
      split_ifs at hs with hmem
      obtain rfl := Option.some.inj hs
      obtain ⟨hpresent, hrec⟩ := hphase key hmem
      have ht := touched_dirs d n key e
      exact ⟨⟨hsound.touched ht hrec hpresent, hphase⟩,
        Keeps.touched ht hrec hmem fun _ hk => hk⟩
    | _ => cases hs

/-! ### Runs -/

theorem inv_initial : Inv (initial : State ε) where
  sound := by
    refine ⟨fun _ => ⟨rfl, fun _ => rfl, ?_⟩, ?_, ?_, fun _ _ _ => rfl, fun _ _ _ => rfl,
      fun _ _ => rfl, nofun⟩
    · rintro k m ⟨a, r, hr, -⟩
      cases hr
    · rintro k m m' (⟨r, hr, -⟩ | ⟨a, r, hr, -⟩) <;> cases hr
    · rintro k m (⟨r, hr, -⟩ | ⟨a, r, hr, -⟩) <;> cases hr
  phase := nofun

theorem inv_exec {as : List (Label ε)} (h : Inv s) (hC : Machine.Along step NothingReturns s as)
    (ht : Machine.exec step s as = some t) : Inv t :=
  Machine.invariant_along (fun hi hc hs => (step_spec hi hc hs).1) h hC ht

/-- **What a run keeps.** -/
theorem keeps_exec {as : List (Label ε)} (h : Inv s)
    (hC : Machine.Along step NothingReturns s as) (ht : Machine.exec step s as = some t) :
    Keeps s t := by
  induction as generalizing s with
  | nil =>
    obtain rfl := Machine.exec_nil.mp ht
    exact .of_disk rfl fun _ hk => .inl hk
  | cons l as ih =>
    obtain ⟨u, hu, ht⟩ := Machine.exec_cons.mp ht
    obtain ⟨hinv, hsu⟩ := step_spec h hC.1 hu
    have hut := ih hinv (hC.2 u hu) ht
    refine ⟨fun k m hk => hut.recorded k m (hsu.recorded k m hk), fun k m hk => ?_,
      fun k e he hk => ?_, fun a k e he => hut.failed a k e (hsu.failed a k e he)⟩
    · obtain ⟨hlogs, hdirs⟩ := hsu.ok k m hk
      obtain ⟨hlogs', hdirs'⟩ := hut.ok k m (hsu.recorded k m hk)
      exact ⟨fun a => (hlogs' a).trans (hlogs a), hdirs'.trans hdirs⟩
    · rcases hsu.left k e he hk with ⟨he', hk', hlogs⟩ | ⟨a, ha⟩
      · rcases hut.left k e he' hk' with ⟨he'', hk'', hlogs'⟩ | hmoved
        · exact .inl ⟨he'', hk'', fun a => (hlogs' a).trans (hlogs a)⟩
        · exact .inr hmoved
      · exact .inr ⟨a, hut.failed a k e ha⟩

/-- Where a run ends. -/
def runFrom (s : State ℕ) (as : List (Label ℕ)) : State ℕ := (Machine.exec step s as).getD s

theorem exec_runFrom {s : State ℕ} {as : List (Label ℕ)} (h : (Machine.exec step s as).isSome = true) :
    Machine.exec step s as = some (runFrom s as) := by
  obtain ⟨t, ht⟩ := Option.isSome_iff_exists.mp h
  rw [runFrom, ht, Option.getD_some]

/-- Two jobs. -/
def twoJobs : Plan where
  jobs := [⟨"a", [], .fullTrace⟩, ⟨"b", [], .fullTrace⟩]
  keys_nodup := by decide
  settings := ⟨"", 1, false⟩

/-- A job is executed, writes its evidence, and `suite.json` is written. -/
def runJob (key : String) (e : ℕ) (success : Bool) : List (Label ℕ) :=
  [.enter, .work key .start, .work key (.write e), .work key (.exit success), .work key .note] ++
    (if success then [.work key .clean, .work key (.cleaned true)] else []) ++
      [.collect key, .write]

/-- The first attempt: `a` is ok, and `b` fails. -/
def firstAttempt : List (Label ℕ) :=
  [.begin false twoJobs (fun _ => false) fun _ => true, .mkdir, .open] ++ runJob "a" 1 true ++
    runJob "b" 2 false ++ [.close, .leave]

/-- An attempt that has both inputs: `b` is executed again. -/
def secondAttempt : List (Label ℕ) :=
  [.begin true twoJobs (fun _ => false) fun _ => true, .move, .move, .mkdir, .open] ++
    runJob "b" 3 true ++ [.stop, .close, .leave]

/-- An attempt that does not have the input of `a`, and the next one, which has it again. -/
def attemptsWithoutA : List (Label ℕ) :=
  [.begin true twoJobs (· = "a") fun _ => true, .move, .move, .mkdir, .open] ++
    runJob "b" 3 false ++ [.close, .leave] ++
    [.begin true twoJobs (fun _ => false) fun _ => true, .move, .move, .move, .mkdir, .open, .enter,
      .work "a" .start]

end Suite

end DeltaBox
