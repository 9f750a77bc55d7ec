import DeltaBox.Lifecycle.DumpPool
import Mathlib.Data.List.Nodup

/-!
# What is left after an abort

When `abort` returns, it has joined each thread of the executor, and a thread ends only when nothing is
queued. So each job has been settled (`Sound`), whatever the functions of the owned tasks do. A command
is running only while its job is in `_check_call` (`Held`), and so none is left.

That holds as long as a job does not leave `_check_call` while its command is still there. Its own
cleanup can do so: the last wait of `_stop_process` raises when a killed process does not exit in time,
and the process is taken out of the set that `abort` looks into.

## Main results

* `sound_step`, `held_step` — what a step keeps
* `abort_settles` — the statement about runs
* `survivor` — a command that outlives its job's cleanup
-/

namespace DeltaBox

namespace Lifecycle

open Machine

variable {s t : State} {max j p : ℕ} {job : Job} {phase : Phase} {ok : Bool}

/-! ### Phases -/

/-- A thread is on the job. -/
def Phase.active : Phase → Bool
  | .queued => false
  | .done _ => false
  | _ => true

/-- The job is in a call for the process. -/
def Phase.holds (p : ℕ) : Phase → Prop
  | .calling (.waiting q) => q = p
  | .calling (.stopping q _) => q = p
  | .calling (.leaving q _) => q = p
  | _ => False

theorem jobs_setPhase (hj : s.jobs[j]? = some job) (k : ℕ) :
    (s.setPhase j phase).jobs[k]? = if k = j then some { job with phase } else s.jobs[k]? := by
  simp only [State.setPhase, List.getElem?_modify]
  by_cases hk : k = j
  · subst hk
    rw [if_pos rfl, hj]
    simp
  · simp [hk, Ne.symm hk]

/-- What a step of a job does. -/
theorem jobStep_cases {l : Label} (hl : l.job? = some j) (hstep : s.jobStep j job l = some t) :
    job.phase.active = true ∧
      ((∃ phase, t = s.setPhase j phase ∧ phase.active = true ∧
          (∀ p, job.phase.holds p → phase.holds p)) ∨
        (∃ ok, job.phase = .task ∧ t = s.finish j ok) ∨
        (∃ spawned, job.phase = .calling .entering ∧ t = s.enter j job spawned) ∨
        ∃ p ok, l = .leave j ∧ job.phase = .calling (.leaving p ok) ∧
          t = { s with processes := s.processes.filter (· ≠ p) }.callEnds j job ok) := by
  cases l with
  | run _ =>
    simp only [State.jobStep] at hstep
    split_ifs at hstep with hphase
    rw [hphase]
    exact ⟨rfl, .inl ⟨_, (Option.some.inj hstep).symm, rfl, fun _ h => h.elim⟩⟩
  | await _ k =>
    simp only [State.jobStep] at hstep
    split_ifs at hstep with hphase
    rw [hphase.1]
    exact ⟨rfl, .inl ⟨_, (Option.some.inj hstep).symm, rfl, fun _ h => h.elim⟩⟩
  | resume _ timedOut =>
    simp only [State.jobStep] at hstep
    split at hstep
    · rename_i k hphase
      rw [hphase]
      refine ⟨rfl, .inl ⟨.task, ?_, rfl, fun _ h => h.elim⟩⟩
      split at hstep
      · exact (Option.some.inj hstep).symm
      · exact (Option.some.inj hstep).symm
      · cases hstep
    · cases hstep
  | finish _ ok =>
    simp only [State.jobStep] at hstep
    split_ifs at hstep with hphase
    rw [hphase]
    exact ⟨rfl, .inr (.inl ⟨ok, rfl, (Option.some.inj hstep).symm⟩)⟩
  | enter _ spawned =>
    simp only [State.jobStep] at hstep
    split_ifs at hstep with hphase
    rw [hphase]
    exact ⟨rfl, .inr (.inr (.inl ⟨spawned, rfl, (Option.some.inj hstep).symm⟩))⟩
  | wait _ returncode =>
    simp only [State.jobStep] at hstep
    split at hstep
    · rename_i p hphase
      rw [hphase]
      split at hstep
      · exact ⟨rfl, .inl ⟨_, (Option.some.inj hstep).symm, rfl, fun _ h => h⟩⟩
      · split_ifs at hstep
        exact ⟨rfl, .inl ⟨_, (Option.some.inj hstep).symm, rfl, fun _ h => h⟩⟩
    · cases hstep
  | stop _ seen =>
    simp only [State.jobStep] at hstep
    split at hstep
    · rename_i p stop hphase
      rw [hphase]
      split_ifs at hstep
      split at hstep
      · exact ⟨rfl, .inl ⟨_, (Option.some.inj hstep).symm, rfl, fun _ h => h⟩⟩
      · exact ⟨rfl, .inl ⟨_, (Option.some.inj hstep).symm, rfl, fun _ h => h⟩⟩
    · cases hstep
  | leave _ =>
    obtain rfl := Option.some.inj hl
    simp only [State.jobStep] at hstep
    split at hstep
    · rename_i p ok hphase
      rw [hphase]
      exact ⟨rfl, .inr (.inr (.inr ⟨p, ok, rfl, rfl, (Option.some.inj hstep).symm⟩))⟩
    · cases hstep
  | _ => cases hl

/-! ### Jobs and threads -/

/-- Jobs and threads fit together. -/
structure Sound (s : State) : Prop where
  queued : ∀ (j : ℕ) (job : Job), s.jobs[j]? = some job → job.phase = .queued → j ∈ s.queue
  waits : ∀ j ∈ s.queue, ∃ job, s.jobs[j]? = some job ∧ job.phase = .queued
  nodup : s.queue.Nodup
  working : ∀ (j : ℕ) (job : Job), s.jobs[j]? = some job → job.phase.active = true →
    .on j ∈ s.workers
  ended : .ended ∈ s.workers → s.queue = [] ∧ s.shutdown = true
  threads : s.workers = [] → s.jobs = []
  /-- The threads that `abort` has joined have ended. -/
  joined : ∀ todo, s.abort = .joining todo → s.shutdown = true ∧
    ∀ (w : ℕ) (worker : Worker), s.workers[w]? = some worker → w ∈ todo ∨ worker = .ended
  returned : s.abort = .returned → s.shutdown = true ∧ ∀ worker ∈ s.workers, worker = .ended
  closing : s.abort ≠ .idle → s.closing = true

theorem sound_init : Sound .init where
  queued _ _ h := nomatch h
  waits _ h := nomatch h
  nodup := List.nodup_nil
  working _ _ h := nomatch h
  ended h := nomatch h
  threads _ := rfl
  joined _ h := nomatch h
  returned h := nomatch h
  closing h := (h rfl).elim

/-- When `abort` has returned, nothing is pending. -/
theorem Sound.settled (h : Sound s) (hreturned : s.abort = .returned) : s.Settled := by
  intro job hjob
  obtain ⟨j, hj⟩ := List.mem_iff_getElem?.mp hjob
  obtain ⟨-, hended⟩ := h.returned hreturned
  have hqueue : s.queue = [] := by
    cases hworkers : s.workers with
    | nil =>
      rw [h.threads hworkers] at hj
      cases hj
    | cons worker workers =>
      have hmem : worker ∈ s.workers := by rw [hworkers]; exact List.mem_cons_self
      exact (h.ended (hended worker hmem ▸ hmem)).1
  cases hphase : job.phase with
  | queued =>
    have hmem := h.queued j job hj hphase
    rw [hqueue] at hmem
    cases hmem
  | done ok => exact ⟨ok, rfl⟩
  | _ => cases hended _ (h.working j job hj (by rw [hphase]; rfl))

/-- The processes are not spoken of. -/
theorem Sound.congr (h : Sound s) (hjobs : t.jobs = s.jobs) (hqueue : t.queue = s.queue)
    (hworkers : t.workers = s.workers) (hshutdown : t.shutdown = s.shutdown)
    (habort : t.abort = s.abort) (hclosing : t.closing = s.closing) : Sound t where
  queued := by
    rw [hjobs, hqueue]
    exact h.queued
  waits := by
    rw [hjobs, hqueue]
    exact h.waits
  nodup := by
    rw [hqueue]
    exact h.nodup
  working := by
    rw [hjobs, hworkers]
    exact h.working
  ended := by
    rw [hworkers, hqueue, hshutdown]
    exact h.ended
  threads := by
    rw [hworkers, hjobs]
    exact h.threads
  joined := by
    rw [habort, hshutdown, hworkers]
    exact h.joined
  returned := by
    rw [habort, hshutdown, hworkers]
    exact h.returned
  closing := by
    rw [habort, hclosing]
    exact h.closing

/-- A job that a thread is on moves on. -/
theorem Sound.setPhase (h : Sound s) (hj : s.jobs[j]? = some job) (hold : job.phase.active = true)
    (hnew : phase.active = true) : Sound (s.setPhase j phase) where
  queued k job' hk hqueued := by
    rw [jobs_setPhase hj] at hk
    split_ifs at hk with hkj
    · obtain rfl := Option.some.inj hk
      rw [show phase = .queued from hqueued] at hnew
      cases hnew
    · exact h.queued k job' hk hqueued
  waits k hk := by
    obtain ⟨job', hjob', hqueued⟩ := h.waits k hk
    refine ⟨job', ?_, hqueued⟩
    rw [jobs_setPhase hj, if_neg, hjob']
    rintro rfl
    obtain rfl := Option.some.inj (hj.symm.trans hjob')
    rw [hqueued] at hold
    cases hold
  nodup := h.nodup
  working k job' hk hactive := by
    rw [jobs_setPhase hj] at hk
    split_ifs at hk with hkj
    · subst hkj
      exact h.working k job hj hold
    · exact h.working k job' hk hactive
  ended := h.ended
  threads hworkers := by rw [State.setPhase, h.threads hworkers, List.modify_nil]
  joined := h.joined
  returned := h.returned
  closing := h.closing

/-- A job ends, and its thread is free. -/
theorem Sound.finish (h : Sound s) (hj : s.jobs[j]? = some job) (hold : job.phase.active = true)
    (ok : Bool) : Sound (s.finish j ok) := by
  have hended : ∀ {worker : Worker}, worker ∈ s.workers → worker = .ended →
      (if worker = .on j then Worker.idle else worker) = .ended := by
    rintro worker - rfl
    rfl
  exact {
    queued := by
      intro k job' hk hqueued
      rw [State.finish, jobs_setPhase hj] at hk
      split_ifs at hk with hkj
      · obtain rfl := Option.some.inj hk
        cases hqueued
      · exact h.queued k job' hk hqueued
    waits := by
      intro k hk
      obtain ⟨job', hjob', hqueued⟩ := h.waits k hk
      refine ⟨job', ?_, hqueued⟩
      rw [State.finish, jobs_setPhase hj, if_neg, hjob']
      rintro rfl
      obtain rfl := Option.some.inj (hj.symm.trans hjob')
      rw [hqueued] at hold
      cases hold
    nodup := h.nodup
    working := by
      intro k job' hk hactive
      rw [State.finish, jobs_setPhase hj] at hk
      split_ifs at hk with hkj
      · obtain rfl := Option.some.inj hk
        cases hactive
      · have hmem := h.working k job' hk hactive
        exact List.mem_map.mpr ⟨_, hmem, if_neg (by simpa using hkj)⟩
    ended := by
      intro hmem
      obtain ⟨worker, hworker, heq⟩ := List.mem_map.mp hmem
      split_ifs at heq
      exact h.ended (heq ▸ hworker)
    threads := by
      intro hworkers
      rw [State.finish, State.setPhase, h.threads (List.map_eq_nil_iff.mp hworkers), List.modify_nil]
    joined := by
      intro todo habort
      obtain ⟨hshutdown, hjoined⟩ := h.joined todo habort
      refine ⟨hshutdown, fun w worker hw => ?_⟩
      rw [State.finish, List.getElem?_map, Option.map_eq_some_iff] at hw
      obtain ⟨worker', hw', rfl⟩ := hw
      exact (hjoined w worker' hw').imp_right (hended (List.mem_of_getElem? hw'))
    returned := by
      intro habort
      obtain ⟨hshutdown, hall⟩ := h.returned habort
      refine ⟨hshutdown, fun worker hworker => ?_⟩
      obtain ⟨worker', hw', rfl⟩ := List.mem_map.mp hworker
      exact hended hw' (hall worker' hw')
    closing := h.closing }

theorem Sound.callEnds (h : Sound s) (hj : s.jobs[j]? = some job) (hold : job.phase.active = true)
    (ok : Bool) : Sound (s.callEnds j job ok) := by
  unfold State.callEnds
  split_ifs
  · exact h.setPhase hj hold rfl
  · exact h.finish hj hold ok

theorem Sound.jobStep (h : Sound s) {l : Label} (hj : s.jobs[j]? = some job) (hl : l.job? = some j)
    (hstep : s.jobStep j job l = some t) : Sound t := by
  obtain ⟨hold, ⟨phase, rfl, hnew, -⟩ | ⟨ok, -, rfl⟩ | ⟨spawned, -, rfl⟩ | ⟨p, ok, -, -, rfl⟩⟩ :=
    jobStep_cases hl hstep
  · exact h.setPhase hj hold hnew
  · exact h.finish hj hold ok
  · unfold State.enter
    split_ifs
    · exact h.callEnds hj hold false
    · have hset : Sound (s.setPhase j (.calling (.waiting s.procs.length))) :=
        h.setPhase hj hold rfl
      exact hset.congr rfl rfl rfl rfl rfl rfl
  · have hleft : Sound { s with processes := s.processes.filter (· ≠ p) } :=
      h.congr rfl rfl rfl rfl rfl rfl
    exact hleft.callEnds hj hold ok

/-! ### Threads -/

theorem Sound.submit (h : Sound s) {owned thread : Bool}
    (hstep : s.submit max owned thread = some t) : Sound t := by
  rw [State.submit, Option.ite_none_right_eq_some] at hstep
  obtain ⟨⟨hshutdown, -, hfirst⟩, hstep⟩ := hstep
  obtain rfl := Option.some.inj hstep
  have hnew : ∀ {k : ℕ} {job : Job}, (s.jobs ++ [⟨owned, .queued⟩])[k]? = some job →
      s.jobs[k]? = some job ∨ k = s.jobs.length ∧ job = ⟨owned, .queued⟩ := by
    intro k job hk
    rw [List.getElem?_append] at hk
    split_ifs at hk with hlt
    · exact .inl hk
    · obtain ⟨hlen, hjob⟩ := List.getElem?_eq_some_iff.mp hk
      simp only [List.length_singleton, Nat.lt_one_iff] at hlen
      simp only [hlen, List.getElem_cons_zero] at hjob
      exact .inr ⟨by omega, hjob.symm⟩
  have hworkers : s.workers ⊆ if thread then s.workers ++ [.idle] else s.workers := by
    intro worker hworker
    split_ifs
    · exact List.mem_append_left _ hworker
    · exact hworker
  exact {
    queued := by
      intro k job hk hqueued
      rcases hnew hk with hk | ⟨rfl, -⟩
      · exact List.mem_append_left _ (h.queued k job hk hqueued)
      · exact List.mem_append_right _ (List.mem_singleton_self _)
    waits := by
      intro k hk
      rcases List.mem_append.mp hk with hk | hk
      · obtain ⟨job, hjob, hqueued⟩ := h.waits k hk
        refine ⟨job, ?_, hqueued⟩
        rw [List.getElem?_append_left (List.getElem?_eq_some_iff.mp hjob).1, hjob]
      · obtain rfl := List.mem_singleton.mp hk
        exact ⟨_, List.getElem?_concat_length, rfl⟩
    nodup := by
      refine h.nodup.append (List.nodup_singleton _) (List.disjoint_singleton.mpr fun hmem => ?_)
      obtain ⟨job, hjob, -⟩ := h.waits _ hmem
      simp at hjob
    working := by
      intro k job hk hactive
      rcases hnew hk with hk | ⟨-, rfl⟩
      · exact hworkers (h.working k job hk hactive)
      · cases hactive
    ended := by
      intro hmem
      have hold : .ended ∈ s.workers := by
        split_ifs at hmem
        · simpa using hmem
        · exact hmem
      rw [(h.ended hold).2] at hshutdown
      cases hshutdown
    threads := by
      intro hnone
      split_ifs at hnone with hthread
      · simp at hnone
      · exact (hthread (hfirst hnone)).elim
    joined := by
      intro todo habort
      rw [(h.joined todo habort).1] at hshutdown
      cases hshutdown
    returned := by
      intro habort
      rw [(h.returned habort).1] at hshutdown
      cases hshutdown
    closing := h.closing }

/-- A thread that has not ended does something else. -/
theorem Sound.joined_set (h : Sound s) {w : ℕ} (worker : Worker) (hw : s.workers[w]? = some .idle) :
    (∀ todo, s.abort = .joining todo → s.shutdown = true ∧
      ∀ (w' : ℕ) (worker' : Worker), (s.workers.set w worker)[w']? = some worker' →
        w' ∈ todo ∨ worker' = .ended) ∧
      s.abort ≠ .returned := by
  refine ⟨fun todo habort => ?_, fun habort => ?_⟩
  · obtain ⟨hshutdown, hall⟩ := h.joined todo habort
    refine ⟨hshutdown, fun w' worker' hw' => ?_⟩
    rw [List.getElem?_set] at hw'
    split_ifs at hw' with heq hlt
    · subst heq
      exact .inl ((hall w .idle hw).resolve_right (by simp))
    · exact hall w' worker' hw'
  · have hidle := (h.returned habort).2 .idle (List.mem_of_getElem? hw)
    cases hidle

theorem Sound.take (h : Sound s) {w : ℕ} (hstep : s.take w = some t) : Sound t := by
  unfold State.take at hstep
  split at hstep
  · rename_i k queue hw hqueue
    obtain ⟨job, hj, rfl⟩ := Option.map_eq_some_iff.mp hstep
    have hnodup := h.nodup
    rw [hqueue, List.nodup_cons] at hnodup
    obtain ⟨hjoined, hreturned⟩ := h.joined_set (.on k) hw
    obtain ⟨hlt, -⟩ := List.getElem?_eq_some_iff.mp hw
    have hqueued : job.phase = .queued := by
      obtain ⟨job', hj', hqueued⟩ := h.waits k (by rw [hqueue]; exact List.mem_cons_self)
      obtain rfl := Option.some.inj (hj.symm.trans hj')
      exact hqueued
    obtain ⟨phase, hphase⟩ : ∃ phase : Phase,
        (if job.owned then .task else .calling .entering) = phase := ⟨_, rfl⟩
    have hactive : phase.active = true := by
      rw [← hphase]
      split_ifs <;> rfl
    rw [hphase]
    exact {
      queued := by
        intro i job' hi hwaits
        simp only [jobs_setPhase hj] at hi
        split_ifs at hi with hik
        · obtain rfl := Option.some.inj hi
          rw [show phase = .queued from hwaits] at hactive
          cases hactive
        · have hmem := h.queued i job' hi hwaits
          rw [hqueue, List.mem_cons] at hmem
          exact hmem.resolve_left hik
      waits := by
        intro i hi
        obtain ⟨job', hj', hwaits⟩ := h.waits i (by rw [hqueue]; exact List.mem_cons_of_mem _ hi)
        refine ⟨job', ?_, hwaits⟩
        simp only [jobs_setPhase hj]
        rw [if_neg, hj']
        rintro rfl
        exact hnodup.1 hi
      nodup := hnodup.2
      working := by
        intro i job' hi hwork
        simp only [jobs_setPhase hj] at hi
        split_ifs at hi with hik
        · subst hik
          exact List.mem_of_getElem? (List.getElem?_set_self hlt)
        · have hmem := h.working i job' hi hwork
          obtain ⟨w', hw'⟩ := List.mem_iff_getElem?.mp hmem
          refine List.mem_of_getElem? (i := w') ?_
          rw [List.getElem?_set_ne, hw']
          rintro rfl
          rw [hw] at hw'
          cases hw'
      ended := by
        intro hmem
        have hold : .ended ∈ s.workers := (List.mem_or_eq_of_mem_set hmem).resolve_right (by simp)
        have hnil := (h.ended hold).1
        rw [hqueue] at hnil
        cases hnil
      threads := by
        intro hnone
        simp only [List.set_eq_nil_iff] at hnone
        rw [hnone] at hlt
        cases hlt
      joined := hjoined
      returned := fun habort => (hreturned habort).elim
      closing := h.closing }
  · cases hstep

theorem Sound.quit (h : Sound s) {w : ℕ} (hstep : s.quit w = some t) : Sound t := by
  unfold State.quit at hstep
  split at hstep
  · rename_i hw hqueue
    split_ifs at hstep with hshutdown
    obtain rfl := Option.some.inj hstep
    obtain ⟨hjoined, hreturned⟩ := h.joined_set .ended hw
    obtain ⟨hlt, -⟩ := List.getElem?_eq_some_iff.mp hw
    exact {
      queued := h.queued
      waits := h.waits
      nodup := h.nodup
      working := by
        intro i job hi hwork
        obtain ⟨w', hw'⟩ := List.mem_iff_getElem?.mp (h.working i job hi hwork)
        refine List.mem_of_getElem? (i := w') ?_
        rw [List.getElem?_set_ne, hw']
        rintro rfl
        rw [hw] at hw'
        cases hw'
      ended := fun _ => ⟨hqueue, hshutdown⟩
      threads := by
        intro hnone
        simp only [List.set_eq_nil_iff] at hnone
        rw [hnone] at hlt
        cases hlt
      joined := hjoined
      returned := fun habort => (hreturned habort).elim
      closing := h.closing }
  · cases hstep

/-! ### The abort -/

/-- Only `abort` has moved. -/
theorem Sound.moveAbort (h : Sound s) {shutdown closing : Bool} {abort : Abort}
    (hshutdown : s.shutdown = true → shutdown = true)
    (hjoined : ∀ todo, abort = .joining todo → shutdown = true ∧
      ∀ (w : ℕ) (worker : Worker), s.workers[w]? = some worker → w ∈ todo ∨ worker = .ended)
    (hreturned : abort = .returned → shutdown = true ∧ ∀ worker ∈ s.workers, worker = .ended)
    (hclosing : closing = true) : Sound { s with shutdown, closing, abort } where
  queued := h.queued
  waits := h.waits
  nodup := h.nodup
  working := h.working
  ended hmem := ⟨(h.ended hmem).1, hshutdown (h.ended hmem).2⟩
  threads := h.threads
  joined := hjoined
  returned := hreturned
  closing _ := hclosing

/-- The threads that are left are joined next. -/
theorem Sound.joinNext (h : Sound s) {todo : List ℕ} (hclosing : s.closing = true)
    (hall : ∀ (w : ℕ) (worker : Worker), s.workers[w]? = some worker → w ∈ todo ∨ worker = .ended) :
    Sound { s with shutdown := true, abort := .joinNext todo } := by
  refine h.moveAbort (fun _ => rfl) ?_ ?_ hclosing
  · intro todo' habort
    cases todo with
    | nil => cases habort
    | cons w todo =>
      obtain rfl := Abort.joining.inj habort
      exact ⟨rfl, hall⟩
  · intro habort
    cases todo with
    | nil =>
      refine ⟨rfl, fun worker hworker => ?_⟩
      obtain ⟨w, hw⟩ := List.mem_iff_getElem?.mp hworker
      exact (hall w worker hw).resolve_left List.not_mem_nil
    | cons w todo => cases habort

theorem Sound.abortStep (h : Sound s) {l : Label} (hstep : s.abortStep l = some t) : Sound t := by
  have hstay : ∀ {abort : Abort}, s.closing = true → (∀ todo, abort ≠ .joining todo) →
      abort ≠ .returned → Sound { s with abort } := fun hclosing hjoining hreturned =>
    h.moveAbort (fun h => h) (fun todo habort => (hjoining todo habort).elim)
      (fun habort => (hreturned habort).elim) hclosing
  cases l with
  | abort order =>
    simp only [State.abortStep] at hstep
    split at hstep
    · cases hstep
    · cases hstep
    · split_ifs at hstep
      obtain rfl := Option.some.inj hstep
      exact h.moveAbort (fun h => h) (fun _ habort => by cases habort) (fun habort => by cases habort)
        rfl
  | abortStop seen =>
    simp only [State.abortStep] at hstep
    split at hstep
    · rename_i p todo stop habort
      have hclosing := h.closing (by simp [habort])
      split_ifs at hstep
      split at hstep
      · obtain rfl := Option.some.inj hstep
        exact hstay hclosing nofun nofun
      · obtain rfl := Option.some.inj hstep
        exact hstay hclosing nofun nofun
      · obtain rfl := Option.some.inj hstep
        exact hstay hclosing nofun nofun
    · cases hstep
  | shutdown =>
    simp only [State.abortStep] at hstep
    split at hstep
    · rename_i stop habort
      obtain rfl := Option.some.inj hstep
      refine h.joinNext (h.closing (by simp [habort])) fun w worker hw => .inl ?_
      exact List.mem_range.mpr (List.getElem?_eq_some_iff.mp hw).1
    · cases hstep
  | join inTime =>
    simp only [State.abortStep] at hstep
    split at hstep
    · rename_i w todo habort
      have hclosing := h.closing (by simp [habort])
      obtain ⟨hshutdown, hall⟩ := h.joined _ habort
      split_ifs at hstep with hinTime hended
      · obtain rfl := Option.some.inj hstep
        have hnext : Sound { s with shutdown := true, abort := .joinNext todo } :=
            h.joinNext hclosing fun w' worker hw' => by
          rcases hall w' worker hw' with hmem | hworker
          · rcases List.mem_cons.mp hmem with rfl | hmem
            · exact .inr (Option.some.inj (hw'.symm.trans hended))
            · exact .inl hmem
          · exact .inr hworker
        rwa [← hshutdown] at hnext
      · obtain rfl := Option.some.inj hstep
        exact hstay hclosing nofun nofun
    · cases hstep
  | _ => cases hstep

/-- **A step keeps jobs and threads together.** -/
theorem sound_step {l : Label} (h : Sound s) (hstep : step max s l = some t) : Sound t := by
  have hjob : ∀ {j : ℕ}, l.job? = some j →
      ((s.jobs[j]?).bind fun job => s.jobStep j job l) = some t → Sound t := by
    intro j hl hstep
    obtain ⟨job, hj, hstep⟩ := Option.bind_eq_some_iff.mp hstep
    exact h.jobStep hj hl hstep
  cases l with
  | submit owned thread => exact h.submit hstep
  | take w => exact h.take hstep
  | quit w => exact h.quit hstep
  | exit p =>
    simp only [step] at hstep
    split_ifs at hstep
    obtain rfl := Option.some.inj hstep
    exact h.congr rfl rfl rfl rfl rfl rfl
  | abort order => exact h.abortStep (l := .abort order) hstep
  | abortStop seen => exact h.abortStep (l := .abortStop seen) hstep
  | shutdown => exact h.abortStep (l := .shutdown) hstep
  | join inTime => exact h.abortStep (l := .join inTime) hstep
  | _ => exact hjob rfl hstep

/-! ### Processes -/

/-- Each process that is there has a job that is in a call for it. -/
def Held (jobs : List Job) (procs : List Bool) : Prop :=
  ∀ p, procs[p]? = some true → ∃ (j : ℕ) (job : Job), jobs[j]? = some job ∧ job.phase.holds p

/-- A job goes on with the process that it has. -/
theorem Held.setPhase (h : Held s.jobs s.procs) (hj : s.jobs[j]? = some job)
    (hmove : ∀ p, s.procs[p]? = some true → job.phase.holds p → phase.holds p) :
    Held (s.setPhase j phase).jobs s.procs := by
  intro p hp
  obtain ⟨k, job', hk, hholds⟩ := h p hp
  by_cases hkj : k = j
  · subst hkj
    obtain rfl := Option.some.inj (hj.symm.trans hk)
    exact ⟨k, _, by rw [jobs_setPhase hj, if_pos rfl], hmove p hp hholds⟩
  · exact ⟨k, job', by rw [jobs_setPhase hj, if_neg hkj, hk], hholds⟩

theorem Held.callEnds (h : Held s.jobs s.procs) (hj : s.jobs[j]? = some job)
    (hfree : ∀ p, s.procs[p]? = some true → ¬ job.phase.holds p) (ok : Bool) :
    Held (s.callEnds j job ok).jobs (s.callEnds j job ok).procs := by
  unfold State.callEnds
  split_ifs
  · exact h.setPhase hj fun p hp hholds => (hfree p hp hholds).elim
  · exact (h.setPhase hj fun p hp hholds => (hfree p hp hholds).elim :
      Held (s.setPhase j (.done ok)).jobs s.procs)

theorem Held.enter (h : Held s.jobs s.procs) (hj : s.jobs[j]? = some job)
    (hphase : job.phase = .calling .entering) (spawned : Bool) :
    Held (s.enter j job spawned).jobs (s.enter j job spawned).procs := by
  have hfree : ∀ p, ¬ job.phase.holds p := by
    rw [hphase]
    exact fun p h => h
  unfold State.enter
  split_ifs
  · exact h.callEnds hj (fun p _ => hfree p) false
  · intro p hp
    rcases Nat.lt_or_ge p s.procs.length with hlt | hge
    · rw [List.getElem?_append_left hlt] at hp
      exact h.setPhase hj (fun q _ hholds => (hfree q hholds).elim) p hp
    · have hlen := (List.getElem?_eq_some_iff.mp hp).1
      rw [List.length_append, List.length_singleton] at hlen
      refine ⟨j, _, by rw [jobs_setPhase hj, if_pos rfl], ?_⟩
      exact Nat.le_antisymm hge (Nat.le_of_lt_succ hlen)

theorem Held.jobStep {l : Label} (h : Held s.jobs s.procs) (hj : s.jobs[j]? = some job)
    (hl : l.job? = some j) (hmeets : meets s l = true) (hstep : s.jobStep j job l = some t) :
    Held t.jobs t.procs := by
  obtain ⟨-, ⟨phase, rfl, -, hkeep⟩ | ⟨ok, hphase, rfl⟩ | ⟨spawned, hphase, rfl⟩ |
    ⟨p, ok, rfl, hphase, rfl⟩⟩ := jobStep_cases hl hstep
  · exact h.setPhase hj fun p _ => hkeep p
  · refine (h.setPhase hj fun p _ hholds => ?_ : Held (s.setPhase j (.done ok)).jobs s.procs)
    rw [hphase] at hholds
    exact hholds.elim
  · exact h.enter hj hphase spawned
  · have hdead : s.procs[p]? = some false := by
      simpa [meets, hj, hphase] using hmeets
    refine Held.callEnds (s := { s with processes := s.processes.filter (· ≠ p) }) h hj ?_ ok
    intro q hq hholds
    rw [hphase] at hholds
    obtain rfl : p = q := hholds
    rw [show s.procs[p]? = some true from hq] at hdead
    cases hdead

theorem abortStep_frame {l : Label} (hstep : s.abortStep l = some t) :
    t.jobs = s.jobs ∧ t.procs = s.procs ∧ (s.closing = true → t.closing = true) := by
  unfold State.abortStep at hstep
  split at hstep
  · split at hstep
    · cases hstep
    · cases hstep
    · split_ifs at hstep
      obtain rfl := Option.some.inj hstep
      exact ⟨rfl, rfl, fun _ => rfl⟩
  · split at hstep
    · split_ifs at hstep
      split at hstep
      all_goals
        obtain rfl := Option.some.inj hstep
        exact ⟨rfl, rfl, id⟩
    · cases hstep
  · split at hstep
    · obtain rfl := Option.some.inj hstep
      exact ⟨rfl, rfl, id⟩
    · cases hstep
  · split at hstep
    · split_ifs at hstep
      all_goals
        obtain rfl := Option.some.inj hstep
        exact ⟨rfl, rfl, id⟩
    · cases hstep
  · cases hstep

theorem Held.take (hs : Sound s) (h : Held s.jobs s.procs) {w : ℕ} (hstep : s.take w = some t) :
    Held t.jobs t.procs := by
  unfold State.take at hstep
  split at hstep
  · rename_i k queue hw hqueue
    obtain ⟨job, hj, rfl⟩ := Option.map_eq_some_iff.mp hstep
    obtain ⟨job', hj', hqueued⟩ := hs.waits k (by rw [hqueue]; exact List.mem_cons_self)
    obtain rfl := Option.some.inj (hj.symm.trans hj')
    refine (h.setPhase hj ?_ : Held
      (s.setPhase k (if job.owned then .task else .calling .entering)).jobs s.procs)
    intro p _ hholds
    rw [hqueued] at hholds
    exact hholds.elim
  · cases hstep

/-- **A step that meets the condition leaves no command without its job.** -/
theorem held_step {l : Label} (hs : Sound s) (h : Held s.jobs s.procs) (hmeets : meets s l = true)
    (hstep : step max s l = some t) : Held t.jobs t.procs := by
  have hjob : ∀ {j : ℕ}, l.job? = some j →
      ((s.jobs[j]?).bind fun job => s.jobStep j job l) = some t → Held t.jobs t.procs := by
    intro j hl hstep
    obtain ⟨job, hj, hstep⟩ := Option.bind_eq_some_iff.mp hstep
    exact h.jobStep hj hl hmeets hstep
  have habort : s.abortStep l = some t → Held t.jobs t.procs := by
    intro hstep
    obtain ⟨hjobs, hprocs, -⟩ := abortStep_frame hstep
    rwa [hjobs, hprocs]
  cases l with
  | submit owned thread =>
    simp only [step, State.submit, Option.ite_none_right_eq_some] at hstep
    obtain ⟨-, hstep⟩ := hstep
    obtain rfl := Option.some.inj hstep
    intro p hp
    obtain ⟨j, job, hj, hholds⟩ := h p hp
    refine ⟨j, job, ?_, hholds⟩
    rw [List.getElem?_append_left (List.getElem?_eq_some_iff.mp hj).1, hj]
  | take w => exact Held.take hs h hstep
  | quit w =>
    simp only [step, State.quit] at hstep
    split at hstep
    · split_ifs at hstep
      obtain rfl := Option.some.inj hstep
      exact h
    · cases hstep
  | exit p =>
    simp only [step] at hstep
    split_ifs at hstep
    obtain rfl := Option.some.inj hstep
    intro q hq
    rw [List.getElem?_set] at hq
    split_ifs at hq
    · cases hq
    · exact h q hq
  | abort order => exact habort hstep
  | abortStop seen => exact habort hstep
  | shutdown => exact habort hstep
  | join inTime => exact habort hstep
  | _ => exact hjob rfl hstep

/-! ### No more commands -/

theorem callEnds_frame (s : State) (j : ℕ) (job : Job) (ok : Bool) :
    (s.callEnds j job ok).procs = s.procs ∧ (s.callEnds j job ok).closing = s.closing := by
  unfold State.callEnds
  split_ifs <;> exact ⟨rfl, rfl⟩

/-- **Once the admission is closed, no command is started.** -/
theorem closed_step {l : Label} (hclosing : s.closing = true) (hstep : step max s l = some t) :
    t.closing = true ∧ t.procs.length = s.procs.length := by
  have hjob : ∀ {j : ℕ}, l.job? = some j →
      ((s.jobs[j]?).bind fun job => s.jobStep j job l) = some t →
      t.closing = true ∧ t.procs.length = s.procs.length := by
    intro j hl hstep
    obtain ⟨job, hj, hstep⟩ := Option.bind_eq_some_iff.mp hstep
    obtain ⟨-, ⟨phase, rfl, -, -⟩ | ⟨ok, -, rfl⟩ | ⟨spawned, -, rfl⟩ | ⟨p, ok, -, -, rfl⟩⟩ :=
      jobStep_cases hl hstep
    · exact ⟨hclosing, rfl⟩
    · exact ⟨hclosing, rfl⟩
    · rw [State.enter, if_pos (by simp [hclosing]), (callEnds_frame _ _ _ _).1,
        (callEnds_frame _ _ _ _).2]
      exact ⟨hclosing, rfl⟩
    · rw [(callEnds_frame _ _ _ _).1, (callEnds_frame _ _ _ _).2]
      exact ⟨hclosing, rfl⟩
  have habort : s.abortStep l = some t → t.closing = true ∧ t.procs.length = s.procs.length := by
    intro hstep
    obtain ⟨-, hprocs, hclosed⟩ := abortStep_frame hstep
    exact ⟨hclosed hclosing, by rw [hprocs]⟩
  cases l with
  | submit owned thread =>
    simp only [step, State.submit, Option.ite_none_right_eq_some] at hstep
    obtain ⟨-, hstep⟩ := hstep
    obtain rfl := Option.some.inj hstep
    exact ⟨hclosing, rfl⟩
  | take w =>
    simp only [step, State.take] at hstep
    split at hstep
    · obtain ⟨job, -, rfl⟩ := Option.map_eq_some_iff.mp hstep
      exact ⟨hclosing, rfl⟩
    · cases hstep
  | quit w =>
    simp only [step, State.quit] at hstep
    split at hstep
    · split_ifs at hstep
      obtain rfl := Option.some.inj hstep
      exact ⟨hclosing, rfl⟩
    · cases hstep
  | exit p =>
    simp only [step] at hstep
    split_ifs at hstep
    obtain rfl := Option.some.inj hstep
    exact ⟨hclosing, List.length_set⟩
  | abort order => exact habort hstep
  | abortStop seen => exact habort hstep
  | shutdown => exact habort hstep
  | join inTime => exact habort hstep
  | _ => exact hjob rfl hstep

/-! ### Runs -/

/-- Nothing holds a process of a pool that is settled. -/
theorem Held.quiet (h : Held s.jobs s.procs) (hsettled : s.Settled) : s.Quiet := by
  intro alive hmem
  obtain ⟨p, hp⟩ := List.mem_iff_getElem?.mp hmem
  cases alive with
  | false => rfl
  | true =>
    obtain ⟨j, job, hj, hholds⟩ := h p hp
    obtain ⟨ok, hphase⟩ := hsettled job (List.mem_of_getElem? hj)
    rw [hphase] at hholds
    exact hholds.elim

/-- **When `abort` has returned, each job is settled and no command is ever started again. In a run
that meets the condition, no command is running.** -/
theorem abort_settles (max : ℕ) {ls : List Label} {s : State}
    (h : exec (step max) .init ls = some s) (hreturned : s.abort = .returned) :
    s.Settled ∧
      (∀ ls' t, exec (step max) s ls' = some t → t.procs.length = s.procs.length) ∧
      (Along (step max) (fun s l => meets s l = true) .init ls → s.Quiet) := by
  have hsound : Sound s := invariant (fun hs hstep => sound_step hs hstep) sound_init h
  have hsettled := hsound.settled hreturned
  refine ⟨hsettled, fun ls' t ht => ?_, fun halong => ?_⟩
  · have hclosed : t.closing = true ∧ t.procs.length = s.procs.length :=
      invariant (I := fun u => u.closing = true ∧ u.procs.length = s.procs.length)
        (fun hu hstep => ⟨(closed_step hu.1 hstep).1, (closed_step hu.1 hstep).2.trans hu.2⟩)
        ⟨hsound.closing (by simp [hreturned]), rfl⟩ ht
    exact hclosed.2
  · have hheld : Sound s ∧ Held s.jobs s.procs :=
      invariant_along (I := fun u => Sound u ∧ Held u.jobs u.procs)
        (fun hu hmeets hstep => ⟨sound_step hu.1 hstep, held_step hu.1 hu.2 hmeets hstep⟩)
        ⟨sound_init, fun _ hp => nomatch hp⟩ halong h
    exact hheld.2.quiet hsettled

/-- A command is running, and a job waits, when `abort` is called. -/
def abortRun : List Label :=
  [.submit false true, .submit false false, .take 0, .enter 0 true, .abort [0], .abortStop false,
    .exit 0, .wait 0 (some false), .abortStop true, .leave 0, .shutdown, .take 0, .enter 1 true,
    .quit 0, .join true]

/-- Both jobs have ended. -/
def aborted : State where
  closing := true
  processes := []
  procs := [false]
  jobs := [⟨false, .done false⟩, ⟨false, .done false⟩]
  queue := []
  workers := [.ended]
  shutdown := true
  abort := .returned

theorem abort_settles_running : aborted.Settled ∧
    (∀ ls' t, exec (step 1) aborted ls' = some t → t.procs.length = aborted.procs.length) ∧
      aborted.Quiet := by
  have hrun : exec (step 1) .init abortRun = some aborted := by decide
  obtain ⟨hsettled, hclosed, hquiet⟩ := abort_settles 1 hrun rfl
  exact ⟨hsettled, hclosed, hquiet (by decide)⟩

/-- The command has run into its timeout, and does not exit in the time that its job's cleanup has for
it. Nobody has told `abort`. -/
theorem survivor : ∃ s, exec (step 1) .init
      [.submit false true, .take 0, .enter 0 true, .wait 0 none, .stop 0 false, .stop 0 false,
        .stop 0 false, .leave 0, .abort [], .shutdown, .quit 0, .join true] = some s ∧
    s.abort = .returned ∧ ¬ s.Quiet := by
  refine ⟨⟨true, [], [true], [⟨false, .done false⟩], [], [.ended], true, .returned⟩, by decide, rfl, ?_⟩
  intro hquiet
  cases hquiet true (List.mem_singleton_self _)

end Lifecycle

end DeltaBox
