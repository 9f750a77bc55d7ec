import DeltaBox.Reap.Execute

/-!
# The life of a job

`execute_instance` (`replay/host_execution.py`) launches a job, waits for its process, and finishes
it; whatever is raised on the way, the job is cancelled. `finish_job` and `cancel_jobs` both kill the
group by its number, the former when the leader has been waited for.

This is the life of one job through `launch_on_lane`, `finish_job` and `cancel_jobs`. Again an
exception may come up in front of every statement. `cleanup_actions` passes over an `Exception` of
an action but not over a `KeyboardInterrupt`.

`terminate` sends `SIGTERM` to the leader, not to the number, and what the leader does then is up
to it.
-/

namespace DeltaBox

namespace Reap

namespace Job

/-- Where the job is. -/
inductive Pc where
  /-- `launch_on_lane` writes the record, opens the log and calls `Popen`. -/
  | popen
  /-- `Popen` has made the process, and the job is not there yet. -/
  | forked
  /-- The `except` of `launch_on_lane`. -/
  | notLaunched
  /-- `launch_on_lane` has returned the job, and the `try` of the caller has not begun. -/
  | launched
  | waiting
  /-- `finish_job` has polled. -/
  | exited (code : ℤ)
  /-- In the `try` of `finish_job`: `SIGKILL` for the group. -/
  | killing (code : ℤ)
  | killed (code : ℤ)
  /-- The results are read. -/
  | report (code : ℤ)
  /-- The status is `ok`, and the record is not written. -/
  | marked
  | saved
  /-- `finish_job` has returned. -/
  | finished
  /-- The `except` of `finish_job`. -/
  | failing
  /-- `cancel_jobs`: `SIGTERM` for the leader. -/
  | terminate
  | grace
  /-- The `finally` of `cancel_jobs`: `SIGKILL` for the group. -/
  | kill
  | reap
  /-- The log is closed, and the record says that the job has been cancelled. -/
  | cancelled
  | done
  deriving DecidableEq, Repr

structure State where
  books : Books
  pc : Pc
  deriving DecidableEq, Repr

def State.init : State := ⟨.init, .popen⟩

/-- What happens next. -/
inductive Act where
  | env (e : ProcGroup.Env)
  /-- The statement does what it is for. -/
  | next
  /-- It raises an exception of its own. -/
  | fails
  /-- The deadline has passed. -/
  | timeout
  /-- A signal. -/
  | interrupt
  deriving DecidableEq, Repr

/-- The status, unless the record says already how the job has ended. -/
def cancel (b : Books) : Books := if b.status = .ok ∨ b.status = .failed then b else b.mark .cancelled

/-- A statement does what it is for. -/
def next (b : Books) : Pc → Option State
  | .popen => some ⟨b.spawn, .forked⟩
  | .forked => some ⟨b, .launched⟩
  | .notLaunched => some ⟨(b.mark .failed).save, .done⟩
  | .launched => some ⟨b, .waiting⟩
  | .waiting => b.code.map fun code => ⟨b.poll.log (.exit code), .exited code⟩
  | .exited code => some ⟨b, .killing code⟩
  | .killing code => some ⟨b.kill, .killed code⟩
  | .killed code => some ⟨b, .report code⟩
  | .report code => some (if code = 0 then ⟨b.mark .ok, .marked⟩ else ⟨b.log .error, .failing⟩)
  | .marked => some ⟨b.save, .saved⟩
  | .saved => some ⟨b, .finished⟩
  | .finished => some ⟨b, .done⟩
  | .failing => some ⟨(b.mark .failed).save, .terminate⟩
  | .terminate => some ⟨b.poll, .grace⟩
  | .grace => b.code.map fun _ => ⟨b.poll, .kill⟩
  | .kill => some ⟨b.kill, .reap⟩
  | .reap => b.code.map fun _ => ⟨b.poll, .cancelled⟩
  | .cancelled => some ⟨(cancel b).save, .done⟩
  | .done => none

/-- A statement raises an exception that is not a signal. -/
def fails (b : Books) : Pc → Option State
  | .popen => some ⟨b.log .error, .notLaunched⟩
  | .notLaunched => some ⟨b.mark .failed, .done⟩
  -- the log cannot be closed, which counts when there is no other error
  | .killed code => some ⟨b.log .error, if code = 0 then .failing else .report code⟩
  | .report _ | .marked => some ⟨b.log .error, .failing⟩
  | .failing => some ⟨b.mark .failed, .terminate⟩
  | .grace => some ⟨b.log .error, .kill⟩
  | .cancelled => some ⟨cancel b, .done⟩
  | _ => none

/-- A signal in front of a statement. -/
def interrupt (b : Books) : Pc → Option State
  | .popen | .forked => some ⟨b.log .interrupted, .notLaunched⟩
  | .waiting | .exited _ | .finished | .failing => some ⟨b.log .interrupted, .terminate⟩
  | .killing _ | .killed _ | .report _ | .marked | .saved => some ⟨b.log .interrupted, .failing⟩
  | .grace => some ⟨b.log .interrupted, .kill⟩
  | .notLaunched | .launched | .terminate | .kill | .reap | .cancelled =>
    some ⟨b.log .interrupted, .done⟩
  | .done => none

/-- The machine. -/
def step (s : State) : Act → Option State
  | .env e => (s.books.env e).map fun books => { s with books }
  | .next => next s.books s.pc
  | .fails => fails s.books s.pc
  | .timeout =>
    match s.pc with
    | .grace => some ⟨s.books.log .timeout, .kill⟩
    | _ => none
  | .interrupt => interrupt s.books s.pc

/-! ### Runs that are not disturbed in some places -/

/-- No signal is sent to the number from here on. -/
def Pc.Past : Pc → Prop
  | .reap | .cancelled | .done => True
  | _ => False

instance : DecidablePred Pc.Past := fun pc => by cases pc <;> unfold Pc.Past <;> infer_instance

/-- In front of this statement an exception loses the group. -/
def Pc.Exposed : Pc → Prop
  | .forked | .launched | .terminate | .kill => True
  | _ => False

instance : DecidablePred Pc.Exposed := fun pc => by cases pc <;> unfold Pc.Exposed <;> infer_instance

/-- The group has been killed, or there is none. -/
def Pc.Over : Pc → Prop
  | .popen | .notLaunched => True
  | .killed _ | .report _ | .marked | .saved | .finished => True
  | .reap | .cancelled | .done => True
  | _ => False

/-- Nobody else gets the number while it may still be signalled, and no exception comes up where it
loses the group when somebody is alive. -/
def Careful (s : State) : Act → Prop
  | .env .takes => s.pc.Past
  | .interrupt => s.pc.Exposed → ¬ s.books.group.Alive
  | _ => True

instance (s : State) : DecidablePred (Careful s)
  | .env .takes => inferInstanceAs (Decidable s.pc.Past)
  | .interrupt => inferInstanceAs (Decidable (s.pc.Exposed → ¬ s.books.group.Alive))
  | .env (.exits _) | .env .forks | .env .kidExits | .env .foreignForks | .env .foreignExits
  | .next | .fails | .timeout => .isTrue trivial

/-- What holds in such runs. -/
structure Inv (s : State) : Prop where
  reached : s.books.reached = 0
  foreign : ¬ s.pc.Past → s.books.group.foreign = 0
  dead : s.pc.Over → ¬ s.books.group.Alive

variable {s t : State}

theorem Inv.own (hinv : Inv s) (hpast : ¬ s.pc.Past) : s.books.Own :=
  ⟨hinv.foreign hpast, hinv.reached⟩

/-- A statement that leaves the number with the own group. -/
theorem Inv.of_own (hown : t.books.Own) (hdead : t.pc.Over → ¬ t.books.group.Alive) : Inv t :=
  ⟨hown.reached, fun _ => hown.foreign, hdead⟩

/-- A statement behind the last signal. -/
theorem Inv.of_past (hreached : t.books.reached = 0) (hpast : t.pc.Past)
    (hdead : ¬ t.books.group.Alive) : Inv t :=
  ⟨hreached, fun hp => absurd hpast hp, fun _ => hdead⟩

theorem cancel_group {b : Books} : (cancel b).group = b.group := by
  rw [cancel]
  split_ifs <;> rfl

theorem cancel_reached {b : Books} : (cancel b).reached = b.reached := by
  rw [cancel]
  split_ifs <;> rfl

theorem inv_env (hinv : Inv s) {e : ProcGroup.Env} (hcareful : Careful s (.env e))
    (hstep : step s (.env e) = some t) : Inv t := by
  obtain ⟨b, hb, rfl⟩ := Option.map_eq_some_iff.mp hstep
  refine ⟨(Books.env_reached hb).trans hinv.reached, fun hpast => ?_,
    fun hover => Books.env_dead hb (hinv.dead hover)⟩
  have htakes : e ≠ .takes := by
    rintro rfl
    exact hpast hcareful
  exact ((hinv.own hpast).env hb htakes).foreign

theorem inv_next (hinv : Inv s) (hstep : next s.books s.pc = some t) : Inv t := by
  have hown : ¬ s.pc.Past → s.books.Own := hinv.own
  have hdead := hinv.dead
  cases hpc : s.pc <;> rw [hpc] at hstep hown hdead <;>
    simp only [next, Option.map_eq_some_iff] at hstep
  case popen =>
    obtain rfl := Option.some.inj hstep
    exact .of_own (hown id).spawn nofun
  case forked | launched | exited =>
    obtain rfl := Option.some.inj hstep
    exact .of_own (hown id) nofun
  case waiting =>
    obtain ⟨code, -, rfl⟩ := hstep
    exact .of_own (hown id).poll.log nofun
  case killing =>
    obtain rfl := Option.some.inj hstep
    exact .of_own (hown id).kill fun _ => Books.kill_dead
  case killed | saved | finished =>
    obtain rfl := Option.some.inj hstep
    exact .of_own (hown id) fun _ => hdead trivial
  case report code =>
    obtain rfl := Option.some.inj hstep
    split_ifs
    · exact .of_own (hown id).mark fun _ => hdead trivial
    · exact .of_own (hown id).log nofun
  case marked =>
    obtain rfl := Option.some.inj hstep
    exact .of_own (hown id).save fun _ => hdead trivial
  case notLaunched =>
    obtain rfl := Option.some.inj hstep
    exact .of_own (hown id).mark.save fun _ => hdead trivial
  case failing =>
    obtain rfl := Option.some.inj hstep
    exact .of_own (hown id).mark.save nofun
  case terminate =>
    obtain rfl := Option.some.inj hstep
    exact .of_own (hown id).poll nofun
  case grace =>
    obtain ⟨code, -, rfl⟩ := hstep
    exact .of_own (hown id).poll nofun
  case kill =>
    obtain rfl := Option.some.inj hstep
    exact .of_own (hown id).kill fun _ => Books.kill_dead
  case reap =>
    obtain ⟨code, -, rfl⟩ := hstep
    exact .of_past hinv.reached trivial (Books.poll_dead (hdead trivial))
  case cancelled =>
    obtain rfl := Option.some.inj hstep
    refine .of_past (cancel_reached.trans hinv.reached) trivial ?_
    show ¬ (cancel s.books).group.Alive
    rw [cancel_group]
    exact hdead trivial
  case done => simp at hstep

theorem inv_fails (hinv : Inv s) (hstep : fails s.books s.pc = some t) : Inv t := by
  have hown : ¬ s.pc.Past → s.books.Own := hinv.own
  have hdead := hinv.dead
  cases hpc : s.pc <;> rw [hpc] at hstep hown hdead <;> simp only [fails] at hstep <;> cases hstep
  case popen => exact .of_own (hown id).log fun _ => hdead trivial
  case notLaunched => exact .of_own (hown id).mark fun _ => hdead trivial
  case killed => exact .of_own (hown id).log fun _ => hdead trivial
  case report | marked => exact .of_own (hown id).log nofun
  case failing => exact .of_own (hown id).mark nofun
  case grace => exact .of_own (hown id).log nofun
  case cancelled =>
    refine .of_past (cancel_reached.trans hinv.reached) trivial ?_
    show ¬ (cancel s.books).group.Alive
    rw [cancel_group]
    exact hdead trivial

theorem inv_interrupt (hinv : Inv s) (hexposed : s.pc.Exposed → ¬ s.books.group.Alive)
    (hstep : interrupt s.books s.pc = some t) : Inv t := by
  have hown : ¬ s.pc.Past → s.books.Own := hinv.own
  have hdead := hinv.dead
  cases hpc : s.pc <;> rw [hpc] at hstep hown hdead hexposed <;> simp only [interrupt] at hstep <;>
    cases hstep
  case popen | notLaunched => exact .of_own (hown id).log fun _ => hdead trivial
  case forked | launched | terminate | kill => exact .of_own (hown id).log fun _ => hexposed trivial
  case waiting | exited | finished | failing | killing | killed | report | marked | saved | grace =>
    exact .of_own (hown id).log nofun
  case reap | cancelled => exact .of_past hinv.reached trivial (hdead trivial)

theorem inv_step {a : Act} (hinv : Inv s) (hcareful : Careful s a) (hstep : step s a = some t) :
    Inv t := by
  cases a with
  | env e => exact inv_env hinv hcareful hstep
  | next => exact inv_next hinv hstep
  | fails => exact inv_fails hinv hstep
  | interrupt => exact inv_interrupt hinv hcareful hstep
  | timeout =>
    simp only [step] at hstep
    split at hstep <;> cases hstep
    rename_i hpc
    exact .of_own (hinv.own (by rw [hpc]; exact id)).log nofun

theorem inv_init : Inv .init := .of_own ⟨rfl, rfl⟩ fun _ => by decide

/-! ### The status -/

/-- The code that the leader has exited with, where the statements to come depend on it. -/
def Pc.code : Pc → Option ℤ
  | .exited code | .killing code | .killed code | .report code => some code
  | _ => none

/-- Nothing has been recorded yet. -/
def Pc.Early : Pc → Prop
  | .popen | .forked | .launched | .waiting => True
  | _ => False

/-- What holds of the record in every run. -/
structure Recorded (s : State) : Prop where
  early : s.pc.Early → s.books.events = []
  first : ∀ code, s.pc.code = some code → s.books.First code
  honest : s.books.Honest

theorem Recorded.of_honest (hhonest : t.books.Honest) (hearly : ¬ t.pc.Early)
    (hcode : t.pc.code = none) : Recorded t :=
  ⟨fun he => absurd he hearly, fun code hc => by simp [hcode] at hc, hhonest⟩

/-- The statements between the exit of the leader and the report. -/
theorem Recorded.of_first {code : ℤ} (hfirst : t.books.First code) (hhonest : t.books.Honest)
    (hearly : ¬ t.pc.Early) (hcode : t.pc.code = some code) : Recorded t :=
  ⟨fun he => absurd he hearly, fun _ hc => Option.some.inj (hcode.symm.trans hc) ▸ hfirst, hhonest⟩

theorem cancel_honest {b : Books} (hhonest : b.Honest) : (cancel b).Honest := by
  rw [cancel]
  split_ifs
  · exact hhonest
  · exact hhonest.mark nofun

theorem recorded_next (hrec : Recorded s) (hstep : next s.books s.pc = some t) : Recorded t := by
  have hearly := hrec.early
  have hfirst := hrec.first
  have hhonest := hrec.honest
  cases hpc : s.pc <;> rw [hpc] at hstep hearly hfirst <;>
    simp only [next, Option.map_eq_some_iff] at hstep
  case popen =>
    obtain rfl := Option.some.inj hstep
    exact ⟨fun _ => hearly trivial, nofun, hhonest.spawn (hearly trivial)⟩
  case forked | launched =>
    obtain rfl := Option.some.inj hstep
    exact ⟨fun _ => hearly trivial, nofun, hhonest⟩
  case waiting =>
    obtain ⟨code, hcode, rfl⟩ := hstep
    exact .of_first (.of_code (hearly trivial) hcode) hhonest.poll.log id rfl
  case exited code | killed code =>
    obtain rfl := Option.some.inj hstep
    exact .of_first (hfirst code rfl) hhonest id rfl
  case killing code =>
    obtain rfl := Option.some.inj hstep
    exact .of_first (hfirst code rfl).kill hhonest.kill id rfl
  case report code =>
    obtain rfl := Option.some.inj hstep
    split_ifs with hcode
    · exact .of_honest (hhonest.mark fun _ => hcode ▸ hfirst code rfl) id rfl
    · exact .of_honest hhonest.log id rfl
  case marked =>
    obtain rfl := Option.some.inj hstep
    exact .of_honest hhonest.save id rfl
  case saved | finished =>
    obtain rfl := Option.some.inj hstep
    exact .of_honest hhonest id rfl
  case notLaunched | failing =>
    obtain rfl := Option.some.inj hstep
    have hmarked : (s.books.mark .failed).Honest := hhonest.mark nofun
    exact .of_honest hmarked.save id rfl
  case terminate =>
    obtain rfl := Option.some.inj hstep
    exact .of_honest hhonest.poll id rfl
  case grace | reap =>
    obtain ⟨code, -, rfl⟩ := hstep
    exact .of_honest hhonest.poll id rfl
  case kill =>
    obtain rfl := Option.some.inj hstep
    exact .of_honest hhonest.kill id rfl
  case cancelled =>
    obtain rfl := Option.some.inj hstep
    exact .of_honest (cancel_honest hhonest).save id rfl
  case done => simp at hstep

theorem recorded_fails (hrec : Recorded s) (hstep : fails s.books s.pc = some t) : Recorded t := by
  have hfirst := hrec.first
  have hhonest := hrec.honest
  cases hpc : s.pc <;> rw [hpc] at hstep hfirst <;> simp only [fails] at hstep <;> cases hstep
  case popen | report | marked | grace => exact .of_honest hhonest.log id rfl
  case notLaunched | failing => exact .of_honest (hhonest.mark nofun) id rfl
  case killed code =>
    split_ifs
    · exact .of_honest hhonest.log id rfl
    · exact .of_first (hfirst code rfl).log hhonest.log id rfl
  case cancelled => exact .of_honest (cancel_honest hhonest) id rfl

theorem recorded_step {a : Act} (hrec : Recorded s) (hstep : step s a = some t) : Recorded t := by
  cases a with
  | env e =>
    obtain ⟨b, hb, rfl⟩ := Option.map_eq_some_iff.mp hstep
    exact ⟨fun hearly => (Books.env_record hb).1.trans (hrec.early hearly),
      fun code hcode => (hrec.first code hcode).env hb, hrec.honest.env hb⟩
  | next => exact recorded_next hrec hstep
  | fails => exact recorded_fails hrec hstep
  | interrupt =>
    simp only [step] at hstep
    cases hpc : s.pc <;> rw [hpc] at hstep <;> simp only [interrupt] at hstep <;> cases hstep <;>
      exact .of_honest hrec.honest.log id rfl
  | timeout =>
    simp only [step] at hstep
    split at hstep <;> cases hstep
    exact .of_honest hrec.honest.log id rfl

theorem recorded_init : Recorded .init :=
  ⟨fun _ => rfl, nofun, fun hok => absurd hok (by decide)⟩

/-- **The life of a job** in a run that is not disturbed in those places. -/
theorem kept (as : List Act) (hcareful : Machine.Along step Careful .init as)
    (hexec : Machine.exec step .init as = some t) : t.books.Kept (t.pc = .done) := by
  have hinv : Inv t := Machine.invariant_along inv_step inv_init hcareful hexec
  have hrec : Recorded t := Machine.invariant (fun hr hs => recorded_step hr hs) recorded_init hexec
  exact ⟨hinv.reached, fun hdone => hinv.dead (by rw [hdone]; trivial), hrec.honest⟩

end Job

/-! ### Both -/

/-- What should hold of every run of either. -/
def Reaped : Prop :=
  (∀ as t, Machine.exec Execute.step .init as = some t → t.books.Kept (t.pc = .done)) ∧
  ∀ as t, Machine.exec Job.step .init as = some t → t.books.Kept (t.pc = .done)

/-- A command without children exits with 0 and is waited for. Before the `finally` another process
gets the number, and with it the signal. -/
def late : List Execute.Act :=
  [.next, .next, .env (.exits 0), .next, .next, .next, .env .takes, .next]

/-- A signal arrives when `Popen` has made the process and has not returned it. -/
def early : List Execute.Act := [.next, .interrupt, .next, .next, .next, .next]

/-- The same in the life of a job: the process is left alone, and it is alive. -/
def unlaunched : List Job.Act := [.next, .interrupt, .next]

/-- The signal goes to a process of another group, and a process of the own group is left. -/
theorem not_reaped : ¬ Reaped ∧
    (∃ t, Machine.exec Execute.step .init late = some t ∧ t.books.reached = 1) ∧
    (∃ t, Machine.exec Execute.step .init early = some t ∧ t.pc = .done ∧ t.books.group.Alive) ∧
    ∃ t, Machine.exec Job.step .init unlaunched = some t ∧ t.pc = .done ∧ t.books.group.Alive := by
  refine ⟨fun hreaped => ?_, ⟨_, rfl, rfl⟩, ⟨_, rfl, rfl, by decide⟩, ⟨_, rfl, rfl, by decide⟩⟩
  exact absurd (hreaped.1 late _ rfl).reached (by decide)

/-- **Groups are reaped, and only they are**, in every run of either in which nobody else gets the
number while it may still be signalled, and no exception comes up where it loses the group. -/
theorem reaped_of_careful {t : Execute.State} {u : Job.State} (as : List Execute.Act)
    (bs : List Job.Act) (has : Machine.Along Execute.step Execute.Careful .init as)
    (hbs : Machine.Along Job.step Job.Careful .init bs)
    (ht : Machine.exec Execute.step .init as = some t)
    (hu : Machine.exec Job.step .init bs = some u) :
    t.books.Kept (t.pc = .done) ∧ u.books.Kept (u.pc = .done) :=
  ⟨Execute.kept as has ht, Job.kept bs hbs hu⟩

/-- A command leaves a child behind and exits with 0. -/
def leaving : List Execute.Act :=
  [.next, .next, .env .forks, .env (.exits 0), .next, .next, .next, .next, .next]

/-- A signal arrives while the job is waited for, and `SIGTERM` does not help. -/
def stubborn : List Job.Act :=
  [.next, .next, .next, .env .forks, .interrupt, .next, .timeout, .next, .next, .next]

theorem reaped_of_careful_runs :
    ∃ t u, Machine.exec Execute.step .init leaving = some t ∧ t.pc = .done ∧
      t.books.written = .ok ∧ Machine.exec Job.step .init stubborn = some u ∧ u.pc = .done ∧
      u.books.written = .cancelled ∧ t.books.Kept (t.pc = .done) ∧ u.books.Kept (u.pc = .done) :=
  ⟨_, _, rfl, rfl, rfl, rfl, rfl, rfl,
    reaped_of_careful leaving stubborn (by decide) (by decide) rfl rfl⟩

end Reap

end DeltaBox
