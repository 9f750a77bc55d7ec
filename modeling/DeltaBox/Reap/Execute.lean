import DeltaBox.Reap.Books

/-!
# Executing an experiment

`execute` (`ae/repro/process.py`) starts a process in a session of its own, waits for it, and kills
what is left of its group, on every way out. The group is signalled by its number.

The machine goes through the function statement by statement. An exception may come up in front of
every statement: a signal that is turned into `KeyboardInterrupt` may arrive at any time, and more
than once. What the processes do stands between any two statements.

`subprocess.Popen` first makes the process and then returns the object. If it raises before it has
made one, or if the program cannot be executed, no process is left.

## Main definitions

* `Pc` — the statements
* `step` — the machine
-/

namespace DeltaBox

namespace Reap

namespace Execute

/-- Where `execute` is. -/
inductive Pc where
  /-- The log is opened, and `Popen` is called. -/
  | popen
  /-- `Popen` has made the process and has not returned. -/
  | forked
  /-- `process.wait`, or the loop that also looks at the stop event. -/
  | waiting
  | got (code : ℤ)
  /-- The log is closed. -/
  | closing
  /-- The exception has been caught. -/
  | caught
  /-- The process has not exited: `SIGTERM` for the group. -/
  | terminate
  | grace
  /-- `SIGKILL` for the group. -/
  | kill
  | reap
  /-- The record says that it has failed. -/
  | failed
  /-- The `finally`: `SIGKILL` for the group, again. -/
  | last
  /-- The record is written, and the handler of the signal is put back. -/
  | write
  | done
  deriving DecidableEq, Repr

/-- The world and the variables. `process`: the variable has the process. `reraise`: the call does
not return. -/
structure State where
  books : Books
  pc : Pc
  process : Bool
  reraise : Bool
  deriving DecidableEq, Repr

/-- The record has been written for the first time. -/
def State.init : State := ⟨.init, .popen, false, false⟩

/-- What happens next. -/
inductive Act where
  | env (e : ProcGroup.Env)
  /-- The statement does what it is for. -/
  | next
  /-- It raises an exception of its own. -/
  | fails
  /-- `TimeoutExpired`. -/
  | timeout
  /-- The stop event is set. -/
  | cancel
  /-- A signal. -/
  | interrupt
  deriving DecidableEq, Repr

/-- An exception in the `try`. -/
def State.raised (s : State) (e : Event) (reraise : Bool) : State :=
  { s with books := s.books.log e, pc := .caught, reraise }

/-- An exception in the `except`. -/
def State.raisedAgain (s : State) (e : Event) : State :=
  { s with books := s.books.log e, pc := .last, reraise := true }

/-- An exception in the `finally`. -/
def State.escaped (s : State) (e : Event) : State :=
  { s with books := s.books.log e, pc := .done, reraise := true }

/-- A statement does what it is for. -/
def next (s : State) : Pc → Option State
  | .popen => some { s with books := s.books.spawn, pc := .forked }
  | .forked => some { s with process := true, pc := .waiting }
  | .waiting => s.books.code.map fun code =>
      { s with books := s.books.poll.log (.exit code), pc := .got code }
  | .got code => some { s with books := s.books.mark (if code = 0 then .ok else .failed), pc := .closing }
  | .closing => some { s with pc := .last }
  | .caught =>
    if s.process then
      if s.books.code = none then some { s with pc := .terminate }
      else some { s with books := s.books.poll, pc := .failed }
    else some { s with pc := .failed }
  | .terminate => some { s with books := s.books.term, pc := .grace }
  | .grace => s.books.code.map fun _ => { s with books := s.books.poll, pc := .failed }
  | .kill =>
    if s.books.group.Exists then some { s with books := s.books.kill, pc := .reap }
    else some (s.raisedAgain .error)
  | .reap => s.books.code.map fun _ => { s with books := s.books.poll, pc := .failed }
  | .failed => some { s with books := s.books.mark .failed, pc := .last }
  | .last =>
    if s.process then some { s with books := s.books.kill, pc := .write }
    else some { s with pc := .write }
  | .write => some { s with books := s.books.save, pc := .done }
  | .done => none

/-- A signal in front of a statement. -/
def interrupt (s : State) : Pc → Option State
  | .popen | .forked | .waiting | .got _ | .closing => some (s.raised .interrupted true)
  | .caught | .terminate | .grace | .kill | .reap | .failed => some (s.raisedAgain .interrupted)
  | .last | .write => some (s.escaped .interrupted)
  | .done => none

/-- The machine. -/
def step (s : State) : Act → Option State
  | .env e => (s.books.env e).map fun books => { s with books }
  | .next => next s s.pc
  | .fails =>
    match s.pc with
    | .popen | .closing => some (s.raised .error false)
    | .write => some (s.escaped .error)
    | _ => none
  | .timeout =>
    match s.pc with
    | .waiting => some (s.raised .timeout false)
    | .grace => some { s with pc := .kill }
    | _ => none
  | .cancel =>
    match s.pc with
    | .waiting => some (s.raised .cancelled false)
    | _ => none
  | .interrupt => interrupt s s.pc

/-! ### Runs that are not disturbed in three places -/

/-- No signal is sent to the number from here on. -/
def Pc.Past : Pc → Prop
  | .write | .done => True
  | _ => False

instance : DecidablePred Pc.Past := fun pc => by cases pc <;> unfold Pc.Past <;> infer_instance

/-- In front of this statement an exception loses the group. -/
def Pc.Exposed : Pc → Prop
  | .forked | .last => True
  | _ => False

instance : DecidablePred Pc.Exposed := fun pc => by cases pc <;> unfold Pc.Exposed <;> infer_instance

/-- Nobody else gets the number while it may still be signalled, and no exception comes up while
`Popen` is about to return, nor at the beginning of the `finally`, when somebody is alive. -/
def Careful (s : State) : Act → Prop
  | .env .takes => s.pc.Past
  | .interrupt => s.pc.Exposed → ¬ s.books.group.Alive
  | _ => True

instance (s : State) : DecidablePred (Careful s)
  | .env .takes => inferInstanceAs (Decidable s.pc.Past)
  | .interrupt => inferInstanceAs (Decidable (s.pc.Exposed → ¬ s.books.group.Alive))
  | .env (.exits _) | .env .forks | .env .kidExits | .env .foreignForks | .env .foreignExits
  | .next | .fails | .timeout | .cancel => .isTrue trivial

/-- What holds in such runs. -/
structure Inv (s : State) : Prop where
  reached : s.books.reached = 0
  foreign : ¬ s.pc.Past → s.books.group.foreign = 0
  dead : s.pc.Past → ¬ s.books.group.Alive
  unowned : s.process = false → s.pc ≠ .forked → ¬ s.books.group.Alive

variable {s t : State}

theorem Inv.own (hinv : Inv s) (hpast : ¬ s.pc.Past) : s.books.Own :=
  ⟨hinv.foreign hpast, hinv.reached⟩

/-- A statement that goes on before the last signal. -/
theorem Inv.of_own (hown : t.books.Own) (hpast : ¬ t.pc.Past)
    (hunowned : t.process = false → t.pc ≠ .forked → ¬ t.books.group.Alive) : Inv t :=
  ⟨hown.reached, fun _ => hown.foreign, fun hp => absurd hp hpast, hunowned⟩

/-- A statement behind the last signal. -/
theorem Inv.of_past (hreached : t.books.reached = 0) (hpast : t.pc.Past)
    (hdead : ¬ t.books.group.Alive) : Inv t :=
  ⟨hreached, fun hp => absurd hpast hp, fun _ => hdead, fun _ _ => hdead⟩

theorem inv_env (hinv : Inv s) {e : ProcGroup.Env} (hcareful : Careful s (.env e))
    (hstep : step s (.env e) = some t) : Inv t := by
  obtain ⟨b, hb, rfl⟩ := Option.map_eq_some_iff.mp hstep
  refine ⟨(Books.env_reached hb).trans hinv.reached, fun hpast => ?_,
    fun hpast => Books.env_dead hb (hinv.dead hpast),
    fun hprocess hpc => Books.env_dead hb (hinv.unowned hprocess hpc)⟩
  -- who takes the number does so behind the last signal
  have htakes : e ≠ .takes := by
    rintro rfl
    exact hpast hcareful
  exact ((hinv.own hpast).env hb htakes).foreign

theorem inv_next (hinv : Inv s) (hstep : next s s.pc = some t) : Inv t := by
  have hown : ¬ s.pc.Past → s.books.Own := hinv.own
  have hunowned := hinv.unowned
  cases hpc : s.pc <;> rw [hpc] at hstep hown hunowned <;> simp only [next, Option.map_eq_some_iff] at hstep
  case popen =>
    obtain rfl := Option.some.inj hstep
    exact .of_own (hown id).spawn id fun _ hforked => absurd rfl hforked
  case forked =>
    obtain rfl := Option.some.inj hstep
    exact .of_own (hown id) id nofun
  case waiting =>
    obtain ⟨code, -, rfl⟩ := hstep
    exact .of_own (hown id).poll.log id fun hprocess _ =>
      Books.poll_dead (hunowned hprocess nofun)
  case got code =>
    obtain rfl := Option.some.inj hstep
    exact .of_own (hown id).mark id fun hprocess _ => hunowned hprocess nofun
  case closing =>
    obtain rfl := Option.some.inj hstep
    exact .of_own (hown id) id fun hprocess _ => hunowned hprocess nofun
  case caught =>
    split_ifs at hstep <;> obtain rfl := Option.some.inj hstep
    · exact .of_own (hown id) id fun hprocess _ => hunowned hprocess nofun
    · exact .of_own (hown id).poll id fun hprocess _ =>
        Books.poll_dead (hunowned hprocess nofun)
    · exact .of_own (hown id) id fun hprocess _ => hunowned hprocess nofun
  case terminate =>
    obtain rfl := Option.some.inj hstep
    exact .of_own (hown id).term id fun hprocess _ => hunowned hprocess nofun
  case grace =>
    obtain ⟨code, -, rfl⟩ := hstep
    exact .of_own (hown id).poll id fun hprocess _ => Books.poll_dead (hunowned hprocess nofun)
  case kill =>
    split_ifs at hstep <;> obtain rfl := Option.some.inj hstep
    · exact .of_own (hown id).kill id fun _ _ => Books.kill_dead
    · exact .of_own (hown id).log id fun hprocess _ => hunowned hprocess nofun
  case reap =>
    obtain ⟨code, -, rfl⟩ := hstep
    exact .of_own (hown id).poll id fun hprocess _ => Books.poll_dead (hunowned hprocess nofun)
  case failed =>
    obtain rfl := Option.some.inj hstep
    exact .of_own (hown id).mark id fun hprocess _ => hunowned hprocess nofun
  case last =>
    split_ifs at hstep with hprocess <;> obtain rfl := Option.some.inj hstep
    · exact .of_past (hown id).kill.reached trivial Books.kill_dead
    · exact .of_past hinv.reached trivial (hunowned (by simpa using hprocess) nofun)
  case write =>
    obtain rfl := Option.some.inj hstep
    exact .of_past hinv.reached trivial (hinv.dead (by rw [hpc]; trivial))
  case done => simp at hstep

theorem inv_raised (hinv : Inv s) (hpast : ¬ s.pc.Past)
    (hforked : s.pc = .forked → ¬ s.books.group.Alive) {e : Event} {reraise : Bool} :
    Inv (s.raised e reraise) := by
  refine .of_own (hinv.own hpast).log id fun hprocess _ => ?_
  by_cases hpc : s.pc = .forked
  · exact hforked hpc
  · exact hinv.unowned hprocess hpc

theorem inv_raisedAgain (hinv : Inv s) (hpast : ¬ s.pc.Past) (hforked : s.pc ≠ .forked) {e : Event} :
    Inv (s.raisedAgain e) :=
  .of_own (hinv.own hpast).log id fun hprocess _ => hinv.unowned hprocess hforked

theorem inv_interrupt (hinv : Inv s) (hexposed : s.pc.Exposed → ¬ s.books.group.Alive)
    (hstep : interrupt s s.pc = some t) : Inv t := by
  have hraised : ¬ s.pc.Past → ∀ e reraise, Inv (s.raised e reraise) := fun hpast e reraise =>
    inv_raised hinv hpast fun hforked => hexposed (by rw [hforked]; trivial)
  have hagain : ¬ s.pc.Past → s.pc ≠ .forked → ∀ e, Inv (s.raisedAgain e) :=
    fun hpast hforked e => inv_raisedAgain hinv hpast hforked
  cases hpc : s.pc <;> rw [hpc] at hstep hraised hagain hexposed <;> simp only [interrupt] at hstep <;>
    cases hstep
  case popen | forked | waiting | got | closing => exact hraised id _ _
  case caught | terminate | grace | kill | reap | failed => exact hagain id nofun _
  case last => exact .of_past hinv.reached trivial (hexposed trivial)
  case write => exact .of_past hinv.reached trivial (hinv.dead (by rw [hpc]; trivial))

theorem inv_step {a : Act} (hinv : Inv s) (hcareful : Careful s a) (hstep : step s a = some t) :
    Inv t := by
  cases a with
  | env e => exact inv_env hinv hcareful hstep
  | next => exact inv_next hinv hstep
  | interrupt => exact inv_interrupt hinv hcareful hstep
  | fails =>
    simp only [step] at hstep
    split at hstep <;> cases hstep <;> rename_i hpc
    · exact inv_raised hinv (by rw [hpc]; exact id) (by rw [hpc]; nofun)
    · exact inv_raised hinv (by rw [hpc]; exact id) (by rw [hpc]; nofun)
    · exact .of_past hinv.reached trivial (hinv.dead (by rw [hpc]; trivial))
  | timeout =>
    simp only [step] at hstep
    split at hstep <;> cases hstep <;> rename_i hpc
    · exact inv_raised hinv (by rw [hpc]; exact id) (by rw [hpc]; nofun)
    · exact .of_own (hinv.own (by rw [hpc]; exact id)) id fun hprocess _ =>
        hinv.unowned hprocess (by rw [hpc]; nofun)
  | cancel =>
    simp only [step] at hstep
    split at hstep <;> cases hstep
    rename_i hpc
    exact inv_raised hinv (by rw [hpc]; exact id) (by rw [hpc]; nofun)

theorem inv_init : Inv .init :=
  .of_own ⟨rfl, rfl⟩ id fun _ _ => by decide

/-! ### The status -/

/-- The code that the leader has exited with, where it is known. -/
def Pc.code : Pc → Option ℤ
  | .got code => some code
  | _ => none

/-- Nothing has been recorded yet. -/
def Pc.Early : Pc → Prop
  | .popen | .forked | .waiting => True
  | _ => False

/-- What holds of the record in every run. -/
structure Recorded (s : State) : Prop where
  early : s.pc.Early → s.books.events = []
  first : ∀ code, s.pc.code = some code → s.books.First code
  honest : s.books.Honest

/-- A statement after which nothing is waited for. -/
theorem Recorded.of_honest (hhonest : t.books.Honest) (hearly : ¬ t.pc.Early)
    (hcode : t.pc.code = none) : Recorded t :=
  ⟨fun he => absurd he hearly, fun code hc => by simp [hcode] at hc, hhonest⟩

theorem recorded_next (hrec : Recorded s) (hstep : next s s.pc = some t) : Recorded t := by
  have hearly := hrec.early
  have hfirst := hrec.first
  have hhonest := hrec.honest
  cases hpc : s.pc <;> rw [hpc] at hstep hearly hfirst <;>
    simp only [next, Option.map_eq_some_iff] at hstep
  case popen =>
    obtain rfl := Option.some.inj hstep
    exact ⟨fun _ => hearly trivial, nofun, hhonest.spawn (hearly trivial)⟩
  case forked =>
    obtain rfl := Option.some.inj hstep
    exact ⟨fun _ => hearly trivial, nofun, hhonest⟩
  case waiting =>
    obtain ⟨code, hcode, rfl⟩ := hstep
    have hnow : (s.books.poll.log (.exit code)).First code := .of_code (hearly trivial) hcode
    exact ⟨nofun, fun c hc => Option.some.inj hc ▸ hnow, hhonest.poll.log⟩
  case got code =>
    obtain rfl := Option.some.inj hstep
    refine .of_honest (hhonest.mark fun hok => ?_) id rfl
    have hcode : code = 0 := by
      by_contra hne
      simp [hne] at hok
    exact hcode ▸ hfirst code rfl
  case closing =>
    obtain rfl := Option.some.inj hstep
    exact .of_honest hhonest id rfl
  case caught =>
    split_ifs at hstep <;> obtain rfl := Option.some.inj hstep
    · exact .of_honest hhonest id rfl
    · exact .of_honest hhonest.poll id rfl
    · exact .of_honest hhonest id rfl
  case terminate =>
    obtain rfl := Option.some.inj hstep
    exact .of_honest hhonest.term id rfl
  case grace =>
    obtain ⟨code, -, rfl⟩ := hstep
    exact .of_honest hhonest.poll id rfl
  case kill =>
    split_ifs at hstep <;> obtain rfl := Option.some.inj hstep
    · exact .of_honest hhonest.kill id rfl
    · exact .of_honest hhonest.log id rfl
  case reap =>
    obtain ⟨code, -, rfl⟩ := hstep
    exact .of_honest hhonest.poll id rfl
  case failed =>
    obtain rfl := Option.some.inj hstep
    exact .of_honest (hhonest.mark nofun) id rfl
  case last =>
    split_ifs at hstep <;> obtain rfl := Option.some.inj hstep
    · exact .of_honest hhonest.kill id rfl
    · exact .of_honest hhonest id rfl
  case write =>
    obtain rfl := Option.some.inj hstep
    exact .of_honest hhonest.save id rfl
  case done => simp at hstep

theorem recorded_step {a : Act} (hrec : Recorded s) (hstep : step s a = some t) : Recorded t := by
  cases a with
  | env e =>
    obtain ⟨b, hb, rfl⟩ := Option.map_eq_some_iff.mp hstep
    exact ⟨fun hearly => (Books.env_record hb).1.trans (hrec.early hearly),
      fun code hcode => (hrec.first code hcode).env hb, hrec.honest.env hb⟩
  | next => exact recorded_next hrec hstep
  | interrupt =>
    simp only [step] at hstep
    cases hpc : s.pc <;> rw [hpc] at hstep <;> simp only [interrupt] at hstep <;> cases hstep <;>
      exact .of_honest hrec.honest.log id rfl
  | fails =>
    simp only [step] at hstep
    split at hstep <;> cases hstep <;> exact .of_honest hrec.honest.log id rfl
  | timeout =>
    simp only [step] at hstep
    split at hstep <;> cases hstep
    · exact .of_honest hrec.honest.log id rfl
    · exact .of_honest hrec.honest id rfl
  | cancel =>
    simp only [step] at hstep
    split at hstep <;> cases hstep
    exact .of_honest hrec.honest.log id rfl

theorem recorded_init : Recorded .init :=
  ⟨fun _ => rfl, nofun, fun hok => absurd hok (by decide)⟩

/-- **A call of `execute`** in a run that is not disturbed in those places. -/
theorem kept (as : List Act) (hcareful : Machine.Along step Careful .init as)
    (hexec : Machine.exec step .init as = some t) : t.books.Kept (t.pc = .done) := by
  have hinv : Inv t := Machine.invariant_along inv_step inv_init hcareful hexec
  have hrec : Recorded t := Machine.invariant (fun hr hs => recorded_step hr hs) recorded_init hexec
  exact ⟨hinv.reached, fun hdone => hinv.dead (by rw [hdone]; trivial), hrec.honest⟩

end Execute

end Reap

end DeltaBox
