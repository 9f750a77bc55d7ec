import DeltaBox.Async.Writer

/-!
# Resources of the writers are conserved

A checkpoint that is admitted takes a slot, opens a handle on its dump process and creates a future.
Until the task is submitted the call has to give them back when it fails. From then on the task has
to. `Ledger` says who owes what at every moment.

## Main results

* `Ledger.step` — every step keeps the books
* `work_lt` — every step but the start of a call brings the end nearer
* `resources_conserved` — slots are bounded, and slots, handles and futures are given back exactly
  once; a call that fails leaves no entry, and no entry is registered after it
-/

namespace DeltaBox

namespace Async

open Machine

/-- The admitted checkpoints whose slot is not yet released. -/
def unreleased (s : State) : Finset String := s.admitted.filter fun id => (s.jobs id).released = 0

/-- The checkpoint is over: its task has returned, or its call has raised. -/
def Over (s : State) (id : String) : Prop := (s.jobs id).task = some .done ∨ id ∈ s.aborted

/-! ### The books -/

/-- What a call owns. -/
inductive Holding where
  /-- A slot. -/
  | slot
  /-- And a pidfd. -/
  | pidfd
  /-- And a future. -/
  | future
  /-- It has raised. -/
  | failing
  /-- It has raised, and its future is settled. -/
  | cleaning
  deriving DecidableEq

/-- What a call owns at each stage. -/
def Stage.holding : Stage → Holding
  | .mkdir | .publish => .pidfd
  | .watch | .submit => .future
  | .fail _ => .failing
  | .dispose | .rmtree | .close => .cleaning
  | _ => .slot

/-- The books of what a call owns. -/
def Holding.Balanced (s : State) (c : Call) (job : Job) : Holding → Prop
  | .slot => c.pidfd = false ∧ job.future = none ∧ job.settled = 0
  | .pidfd => c.pidfd = true ∧ job.future = none ∧ job.settled = 0
  | .future => c.pidfd = true ∧ job.future = some .pending ∧ job.settled = 0 ∧
      s.registry.find? c.id = some ⟨c.parentId, c.parent, none, true⟩
  | .failing => (job.future = none ∨ job.future = some .pending) ∧ job.settled = 0
  | .cleaning => s.failed.isSome ∧ s.registry.find? c.id = none ∧
      (job.future = none ∧ job.settled = 0 ∨ job.future = some .exception ∧ job.settled = 1)

/-- The books of a call. -/
structure CallOk (s : State) (c : Call) (job : Job) : Prop where
  /-- Nothing is submitted. -/
  task : job.task = none
  /-- The slot is taken. -/
  released : job.released = 0
  /-- The handle is closed, or the call has it. -/
  closed : job.opened = job.closed + c.pidfd.toNat
  /-- It was opened at most once. -/
  opened : job.opened ≤ 1
  /-- The stages before it is opened. -/
  unopened : c.stage.holding = .slot → job.opened = 0
  /-- The future. -/
  balanced : c.stage.holding.Balanced s c job

/-- How often the task has closed the handle. -/
def TaskPc.closedCount : TaskPc → ℕ
  | .release _ | .settle _ | .done => 1
  | _ => 0

/-- How often it has released the slot. -/
def TaskPc.releasedCount : TaskPc → ℕ
  | .settle _ | .done => 1
  | _ => 0

/-- How often it has settled the future. -/
def TaskPc.settledCount : TaskPc → ℕ
  | .done => 1
  | _ => 0

/-- The books of a task. -/
structure TaskOk (pc : TaskPc) (job : Job) : Prop where
  /-- The handle was opened. -/
  opened : job.opened = 1
  /-- And closed by the task. -/
  closed : job.closed = pc.closedCount
  /-- Which releases the slot. -/
  released : job.released = pc.releasedCount
  /-- And settles the future. -/
  settled : job.settled = pc.settledCount
  /-- Which there is. -/
  future : job.future ≠ none

/-- The books of a call that has raised. -/
structure AbortOk (job : Job) : Prop where
  /-- Every handle is closed. -/
  closed : job.closed = job.opened
  /-- There was at most one. -/
  opened : job.opened ≤ 1
  /-- The slot is released. -/
  released : job.released = 1
  /-- The future is settled if there is one. -/
  settled : job.future = none ∧ job.settled = 0 ∨ job.future = some .exception ∧ job.settled = 1

/-- **The books.** -/
structure Ledger (maxPending : ℕ) (s : State) : Prop where
  /-- A slot is free, or held by an admitted checkpoint. -/
  slots : s.slots + (unreleased s).card = maxPending
  /-- The call under way. -/
  call : ∀ c, s.call = some c → c.id ∈ s.admitted ∧ CallOk s c (s.jobs c.id)
  /-- The tasks. -/
  task : ∀ id ∈ s.admitted, ∀ pc, (s.jobs id).task = some pc → TaskOk pc (s.jobs id)
  /-- What has neither is over. -/
  ended : ∀ id ∈ s.admitted, (s.jobs id).task = none → (∀ c, s.call = some c → c.id ≠ id) →
    id ∈ s.aborted ∧ AbortOk (s.jobs id)
  /-- What a call that has raised leaves. -/
  aborted : ∀ id ∈ s.aborted, id ∈ s.admitted ∧ (s.jobs id).task = none ∧
    s.registry.find? id = none
  /-- After it no call is admitted. -/
  stopped : s.aborted ≠ [] → s.failed.isSome ∧ s.call = none

section

variable {maxPending workers : ℕ} {s t : State} {c : Call} {id : String} {job : Job}

theorem Initial.ledger (h : Initial maxPending s) : Ledger maxPending s where
  slots := by simp [unreleased, h.admitted, h.slots]
  call := fun c hc => by rw [h.call] at hc; cases hc
  task := fun id hid => by rw [h.admitted] at hid; simp at hid
  ended := fun id hid => by rw [h.admitted] at hid; simp at hid
  aborted := fun id hid => by rw [h.aborted] at hid; cases hid
  stopped := fun hne => absurd h.aborted hne

/-! ### Counting slots -/

theorem unreleased_setJob (h : job.released = (s.jobs id).released) :
    unreleased (s.setJob id job) = unreleased s := by
  refine Finset.filter_congr fun x _ => ?_
  rcases eq_or_ne x id with rfl | hx
  · rw [State.setJob_self, h]
  · rw [State.setJob_of_ne _ _ hx]

/-- A release takes the checkpoint out. -/
theorem card_unreleased_release (hid : id ∈ s.admitted) (hold : (s.jobs id).released = 0)
    (hnew : job.released ≠ 0) :
    (unreleased (s.setJob id job)).card + 1 = (unreleased s).card := by
  have hmem : id ∈ unreleased s := Finset.mem_filter.mpr ⟨hid, hold⟩
  have heq : unreleased (s.setJob id job) = (unreleased s).erase id := by
    ext x
    rw [unreleased, unreleased, Finset.mem_erase, Finset.mem_filter, Finset.mem_filter]
    rcases eq_or_ne x id with rfl | hx
    · rw [State.setJob_self]
      simp [hnew]
    · rw [State.setJob_of_ne _ _ hx]
      simp [hx, State.setJob]
  rw [heq, Finset.card_erase_add_one hmem]

/-! ### The call -/

/-- What the call does to its own checkpoint, to the registry and to `failed`. -/
theorem Ledger.advance (h : Ledger maxPending s) (hc : s.call = some c) (c' : Call)
    {registry : Dict String Entry} {failed : Option String} (hid : c'.id = c.id)
    (hok : CallOk { s.setJob c.id job with registry := registry, failed := failed } c' job) :
    Ledger maxPending ({ s.setJob c.id job with registry := registry, failed := failed }.goto c') := by
  obtain ⟨hmem, hold⟩ := h.call c hc
  have hnone : s.aborted = [] := by
    by_contra hne
    cases (h.stopped hne).2.symm.trans hc
  have hne : ∀ x, x ≠ c.id → (s.setJob c.id job).jobs x = s.jobs x := fun x hx =>
    State.setJob_of_ne _ _ hx
  exact
    { slots := by
        have hsame : unreleased (s.setJob c.id job) = unreleased s :=
          unreleased_setJob (hok.released.trans hold.released.symm)
        rw [← h.slots, ← hsame]
        rfl
      call := fun x hx => by
        obtain rfl := Option.some.inj hx
        rw [hid]
        refine ⟨hmem, ?_⟩
        change CallOk _ _ ((s.setJob c.id job).jobs c.id)
        rw [State.setJob_self]
        exact ⟨hok.task, hok.released, hok.closed, hok.opened, hok.unopened, hok.balanced⟩
      task := fun x hx pc hpc => by
        change ((s.setJob c.id job).jobs x).task = some pc at hpc
        change TaskOk pc ((s.setJob c.id job).jobs x)
        rcases eq_or_ne x c.id with rfl | hxc
        · rw [State.setJob_self, hok.task] at hpc
          cases hpc
        · rw [hne x hxc] at hpc ⊢
          exact h.task x hx pc hpc
      ended := fun x hx hpc hcall => by
        have hxc : x ≠ c.id := fun heq => hcall c' rfl (hid.trans heq.symm)
        change ((s.setJob c.id job).jobs x).task = none at hpc
        change x ∈ s.aborted ∧ AbortOk ((s.setJob c.id job).jobs x)
        rw [hne x hxc] at hpc ⊢
        refine h.ended x hx hpc fun y hy => ?_
        obtain rfl := Option.some.inj (hc.symm.trans hy)
        exact hxc.symm
      aborted := fun x hx => by
        change x ∈ s.aborted at hx
        rw [hnone] at hx
        cases hx
      stopped := fun hx => absurd hnone hx }

/-- A stage that only moves the call on. -/
theorem Ledger.goto (h : Ledger maxPending s) (hc : s.call = some c) {c' : Call} (hid : c'.id = c.id)
    (hok : CallOk s c (s.jobs c.id) → CallOk s c' (s.jobs c.id)) : Ledger maxPending (s.goto c') := by
  have hself : s.setJob c.id (s.jobs c.id) = s := by
    rw [State.setJob, Function.update_eq_self]
  have hok' : CallOk (s.setJob c.id (s.jobs c.id)) c' (s.jobs c.id) := by
    rw [hself]
    exact hok (h.call c hc).2
  have key := h.advance hc c' hid hok'
  rwa [hself] at key

/-- A stage that owns nothing new. -/
theorem CallOk.stage {st : Stage} {warm dumpPid : Bool} (h : CallOk s c job)
    (hst : st.holding = c.stage.holding) :
    CallOk s { c with stage := st, warm := warm, dumpPid := dumpPid } job :=
  ⟨h.task, h.released, h.closed, h.opened, fun hs => h.unopened (hst ▸ hs), by
    change st.holding.Balanced s _ job
    have := h.balanced
    rw [← hst] at this
    cases hh : st.holding <;> rw [hh] at this <;> exact this⟩

/-- A stage that raises. -/
theorem CallOk.fail {e : String} (h : CallOk s c job)
    (hst : c.stage.holding ≠ .cleaning) : CallOk s { c with stage := .fail e } job := by
  refine ⟨h.task, h.released, h.closed, h.opened, (fun hu => by cases hu), ?_⟩
  have := h.balanced
  cases hh : c.stage.holding with
  | slot => rw [hh] at this; exact ⟨Or.inl this.2.1, this.2.2⟩
  | pidfd => rw [hh] at this; exact ⟨Or.inl this.2.1, this.2.2⟩
  | future => rw [hh] at this; exact ⟨Or.inr this.2.1, this.2.2.1⟩
  | failing => rw [hh] at this; exact this
  | cleaning => exact absurd hh hst

/-- The handler of an exception: the future is settled, the entry goes. -/
theorem Ledger.fail (h : Ledger maxPending s) (hc : s.call = some c) {e : String}
    (hst : c.stage = .fail e) {st : Stage} (hnew : st.holding = .cleaning) :
    let job :=
      if (s.jobs c.id).future = some .pending then
        { s.jobs c.id with future := some .exception, settled := (s.jobs c.id).settled + 1 }
      else s.jobs c.id
    Ledger maxPending ({ s.setJob c.id job with
      failed := some e
      registry := s.registry.erase c.id }.goto { c with stage := st }) := by
  intro job
  obtain ⟨-, hok⟩ := h.call c hc
  have hbal := hok.balanced
  rw [hst] at hbal
  obtain ⟨hfut, hset⟩ := hbal
  have hgone : (s.registry.erase c.id).find? c.id = none := Dict.find?_erase_self ..
  refine h.advance hc _ rfl ?_
  rcases hfut with hfut | hfut
  · have hjob : job = s.jobs c.id := if_neg (by simp [hfut])
    rw [hjob]
    refine ⟨hok.task, hok.released, hok.closed, hok.opened, fun hs => ?_, ?_⟩
    · cases hnew.symm.trans hs
    · rw [show ({ c with stage := st } : Call).stage.holding = _ from hnew]
      exact ⟨rfl, hgone, Or.inl ⟨hfut, hset⟩⟩
  · have hjob : job = { s.jobs c.id with
        future := some .exception, settled := (s.jobs c.id).settled + 1 } := if_pos hfut
    rw [hjob]
    refine ⟨hok.task, hok.released, hok.closed, hok.opened, fun hs => ?_, ?_⟩
    · cases hnew.symm.trans hs
    · rw [show ({ c with stage := st } : Call).stage.holding = _ from hnew]
      exact ⟨rfl, hgone, Or.inr ⟨rfl, by rw [hset]⟩⟩

/-- `_dispose` closes the handle, whether it raises or not. -/
theorem Ledger.dispose (h : Ledger maxPending s) (hc : s.call = some c) (hst : c.stage = .dispose)
    {failed : Option String} (hfailed : s.failed.isSome → failed.isSome)
    (hjob : job = { s.jobs c.id with closed := (s.jobs c.id).closed + c.pidfd.toNat }) :
    Ledger maxPending
      ({ s.setJob c.id job with failed := failed }.goto
        { c with stage := .rmtree, pidfd := false }) := by
  obtain ⟨-, hok⟩ := h.call c hc
  have hbal := hok.balanced
  rw [hst] at hbal
  rw [hjob]
  exact h.advance hc _ rfl ⟨hok.task, hok.released, hok.closed, hok.opened, (fun hu => by cases hu),
    ⟨hfailed hbal.1, hbal.2⟩⟩

/-- The `finally` clause gives back what is left. -/
theorem Ledger.close (h : Ledger maxPending s) (hc : s.call = some c) (hst : c.stage = .close) :
    Ledger maxPending
      { s.setJob c.id
          { s.jobs c.id with
            closed := if c.pidfd then (s.jobs c.id).closed + 1 else (s.jobs c.id).closed
            released := (s.jobs c.id).released + 1 } with
        slots := s.slots + 1
        call := none
        aborted := s.aborted ++ [c.id] } := by
  obtain ⟨hmem, hok⟩ := h.call c hc
  have hbal := hok.balanced
  rw [hst] at hbal
  have hnone : s.aborted = [] := by
    by_contra hne
    cases (h.stopped hne).2.symm.trans hc
  set job : Job := { s.jobs c.id with
    closed := if c.pidfd then (s.jobs c.id).closed + 1 else (s.jobs c.id).closed
    released := (s.jobs c.id).released + 1 } with hjob
  have hne : ∀ x, x ≠ c.id → (s.setJob c.id job).jobs x = s.jobs x := fun x hx =>
    State.setJob_of_ne _ _ hx
  have habort : AbortOk job := by
    refine ⟨?_, hok.opened, by simp [hjob, hok.released], hbal.2.2⟩
    have hclosed := hok.closed
    simp only [hjob]
    cases hfd : c.pidfd <;> simp [hfd] at hclosed ⊢ <;> omega
  exact
    { slots := by
        have hnew : job.released ≠ 0 := by simp [hjob]
        have hcard := card_unreleased_release hmem hok.released hnew
        have hslots := h.slots
        change s.slots + 1 + (unreleased (s.setJob c.id job)).card = maxPending
        omega
      call := fun _ hx => by cases hx
      task := fun x hx pc hpc => by
        change ((s.setJob c.id job).jobs x).task = some pc at hpc
        change TaskOk pc ((s.setJob c.id job).jobs x)
        rcases eq_or_ne x c.id with rfl | hxc
        · rw [State.setJob_self] at hpc
          cases hok.task.symm.trans hpc
        · rw [hne x hxc] at hpc ⊢
          exact h.task x hx pc hpc
      ended := fun x hx hpc _ => by
        change ((s.setJob c.id job).jobs x).task = none at hpc
        change x ∈ s.aborted ++ [c.id] ∧ AbortOk ((s.setJob c.id job).jobs x)
        rcases eq_or_ne x c.id with rfl | hxc
        · rw [State.setJob_self]
          exact ⟨List.mem_append_right _ (List.mem_singleton.mpr rfl), habort⟩
        · rw [hne x hxc] at hpc ⊢
          obtain ⟨hab, hok'⟩ := h.ended x hx hpc fun y hy => by
            obtain rfl := Option.some.inj (hc.symm.trans hy)
            exact hxc.symm
          exact ⟨List.mem_append_left _ hab, hok'⟩
      aborted := fun x hx => by
        change x ∈ s.aborted ++ [c.id] at hx
        rw [hnone, List.nil_append] at hx
        obtain rfl := List.mem_singleton.mp hx
        refine ⟨hmem, ?_, hbal.2.1⟩
        change ((s.setJob c.id job).jobs c.id).task = none
        rw [State.setJob_self]
        exact hok.task
      stopped := fun _ => ⟨hbal.1, rfl⟩ }

/-- The submission hands everything over to the task. -/
theorem Ledger.submit (h : Ledger maxPending s) (hc : s.call = some c) (hst : c.stage = .submit) :
    Ledger maxPending
      { s.setJob c.id { s.jobs c.id with task := some .queued } with call := none } := by
  obtain ⟨hmem, hok⟩ := h.call c hc
  have hbal := hok.balanced
  rw [hst] at hbal
  obtain ⟨hfd, hfut, hset, -⟩ := hbal
  have hclosed := hok.closed
  have hopened := hok.opened
  rw [hfd] at hclosed
  set job : Job := { s.jobs c.id with task := some .queued } with hjob
  have hne : ∀ x, x ≠ c.id → (s.setJob c.id job).jobs x = s.jobs x := fun x hx =>
    State.setJob_of_ne _ _ hx
  have htask : TaskOk .queued job :=
    ⟨by simp only [hjob, Bool.toNat_true] at *; omega,
      by simp only [hjob, TaskPc.closedCount, Bool.toNat_true] at *; omega, hok.released, hset,
      by rw [hjob]; simp [hfut]⟩
  exact
    { slots := by
        have hsame : unreleased (s.setJob c.id job) = unreleased s := unreleased_setJob rfl
        rw [← h.slots, ← hsame]
        rfl
      call := fun _ hx => by cases hx
      task := fun x hx pc hpc => by
        change ((s.setJob c.id job).jobs x).task = some pc at hpc
        change TaskOk pc ((s.setJob c.id job).jobs x)
        rcases eq_or_ne x c.id with rfl | hxc
        · rw [State.setJob_self] at hpc ⊢
          obtain rfl : TaskPc.queued = pc := Option.some.inj hpc
          exact htask
        · rw [hne x hxc] at hpc ⊢
          exact h.task x hx pc hpc
      ended := fun x hx hpc _ => by
        change ((s.setJob c.id job).jobs x).task = none at hpc
        change x ∈ s.aborted ∧ AbortOk ((s.setJob c.id job).jobs x)
        have hxc : x ≠ c.id := by
          rintro rfl
          rw [State.setJob_self] at hpc
          cases hpc
        rw [hne x hxc] at hpc ⊢
        refine h.ended x hx hpc fun y hy => ?_
        obtain rfl := Option.some.inj (hc.symm.trans hy)
        exact hxc.symm
      aborted := fun x hx => by
        obtain ⟨hxm, hxt, hxr⟩ := h.aborted x hx
        refine ⟨hxm, ?_, hxr⟩
        change ((s.setJob c.id job).jobs x).task = none
        rwa [hne x fun heq => ?_]
        have hnil : s.aborted ≠ [] := List.ne_nil_of_mem hx
        cases (h.stopped hnil).2.symm.trans hc
      stopped := fun hx => ⟨(h.stopped hx).1, rfl⟩ }

theorem Ledger.callStep (h : Ledger maxPending s) (hc : s.call = some c) {o : Outcome}
    (hstep : callStep s c o = some t) : Ledger maxPending t := by
  obtain ⟨-, hok⟩ := h.call c hc
  have hbal := hok.balanced
  -- what most stages do: move on, or raise
  have hnext : ∀ st warm dumpPid, st.holding = c.stage.holding →
      Ledger maxPending (s.goto { c with stage := st, warm := warm, dumpPid := dumpPid }) :=
    fun st warm dumpPid hst => h.goto hc rfl fun hok => hok.stage hst
  have hraise : ∀ e, c.stage.holding ≠ .cleaning →
      Ledger maxPending (s.goto { c with stage := .fail e }) :=
    fun e hst => h.goto hc rfl fun hok => hok.fail hst
  have hself : s.setJob c.id (s.jobs c.id) = s := by rw [State.setJob, Function.update_eq_self]
  cases hst : c.stage with
  | inspect =>
    rcases o with _ | _ | e <;> simp only [Async.callStep, hst] at hstep <;>
      cases hstep
    · exact hnext _ _ _ (by rw [hst]; rfl)
    · exact hraise e (by rw [hst]; decide)
  | bootstrap =>
    rcases o with _ | _ | e <;> simp only [Async.callStep, hst] at hstep <;>
      cases hstep
    · exact hnext _ _ _ (by rw [hst]; rfl)
    · exact hnext _ _ _ (by rw [hst]; rfl)
    · exact hraise e (by rw [hst]; decide)
  | validate =>
    rcases o with _ | _ | e <;> simp only [Async.callStep, hst] at hstep <;>
      cases hstep
    · exact hnext _ _ _ (by rw [hst]; rfl)
    · exact hraise e (by rw [hst]; decide)
  | sink =>
    rcases o with _ | _ | e <;> simp only [Async.callStep, hst] at hstep <;>
      cases hstep
    · exact hnext _ _ _ (by rw [hst]; rfl)
    · exact hraise e (by rw [hst]; decide)
  | stashWarm =>
    rcases o with _ | _ | e <;> simp only [Async.callStep, hst] at hstep
    · obtain rfl := Option.some.inj hstep
      exact hnext _ _ _ (by rw [hst]; rfl)
    · obtain rfl := Option.some.inj hstep
      exact hnext _ _ _ (by rw [hst]; rfl)
    · split_ifs at hstep
      obtain rfl := Option.some.inj hstep
      exact hraise e (by rw [hst]; decide)
  | stopWarm =>
    rcases o with _ | _ | e <;> simp only [Async.callStep, hst] at hstep
    · split_ifs at hstep <;> obtain rfl := Option.some.inj hstep
      · exact hnext _ _ _ (by rw [hst]; rfl)
      · exact hraise _ (by rw [hst]; decide)
    · obtain rfl := Option.some.inj hstep
      exact hraise _ (by rw [hst]; decide)
    · obtain rfl := Option.some.inj hstep
      exact hraise e (by rw [hst]; decide)
  | stashDump =>
    rcases o with _ | _ | e <;> simp only [Async.callStep, hst] at hstep <;>
      cases hstep
    · exact hnext _ _ _ (by rw [hst]; rfl)
    · exact hnext _ _ _ (by rw [hst]; rfl)
    · exact hraise e (by rw [hst]; decide)
  | stopDump =>
    rcases o with _ | _ | e <;> simp only [Async.callStep, hst] at hstep
    · split_ifs at hstep <;> obtain rfl := Option.some.inj hstep
      · exact hnext _ _ _ (by rw [hst]; rfl)
      · exact hraise _ (by rw [hst]; decide)
    · obtain rfl := Option.some.inj hstep
      exact hraise _ (by rw [hst]; decide)
    · obtain rfl := Option.some.inj hstep
      exact hraise e (by rw [hst]; decide)
  | openPidfd =>
    rcases o with _ | _ | e <;> simp only [Async.callStep, hst] at hstep <;>
      cases hstep
    · have hzero := hok.unopened (by rw [hst]; rfl)
      rw [hst] at hbal
      obtain ⟨hfd, hfut, hset⟩ := hbal
      have hclosed := hok.closed
      rw [hfd] at hclosed
      simp only [Bool.toNat_false] at hclosed
      refine h.advance hc { c with stage := .mkdir, pidfd := true } rfl
        ⟨hok.task, hok.released, ?_, ?_, (fun hu => by cases hu), ⟨rfl, hfut, hset⟩⟩
      · change (s.jobs c.id).opened + 1 = (s.jobs c.id).closed + 1
        omega
      · change (s.jobs c.id).opened + 1 ≤ 1
        omega
    · exact hraise e (by rw [hst]; decide)
  | mkdir =>
    rcases o with _ | _ | e <;> simp only [Async.callStep, hst] at hstep <;>
      cases hstep
    · rw [hst] at hbal
      exact h.advance hc { c with stage := .publish } rfl
        ⟨hok.task, hok.released, hok.closed, hok.opened, (fun hu => by cases hu), hbal⟩
    · exact hraise e (by rw [hst]; decide)
  | publish =>
    rcases o with _ | _ | e <;> simp only [Async.callStep, hst] at hstep <;>
      cases hstep
    rw [hst] at hbal
    exact h.advance hc { c with stage := .watch } rfl
      ⟨hok.task, hok.released, hok.closed, hok.opened, (fun hu => by cases hu),
        ⟨hbal.1, rfl, hbal.2.2, Dict.find?_set_self ..⟩⟩
  | watch =>
    rcases o with _ | _ | e <;> simp only [Async.callStep, hst] at hstep <;>
      cases hstep
    · exact hnext _ _ _ (by rw [hst]; rfl)
    · exact hraise e (by rw [hst]; decide)
  | submit =>
    rcases o with _ | _ | e <;> simp only [Async.callStep, hst] at hstep <;>
      cases hstep
    · exact h.submit hc hst
    · exact hraise e (by rw [hst]; decide)
  | fail e =>
    rcases o with _ | _ | e' <;> simp only [Async.callStep, hst] at hstep
    · obtain rfl := Option.some.inj hstep
      exact h.fail hc hst rfl
    · obtain rfl := Option.some.inj hstep
      exact h.fail hc hst rfl
    · simp only [Option.ite_none_right_eq_some, Option.some.injEq] at hstep
      obtain ⟨-, rfl⟩ := hstep
      exact h.fail hc hst rfl
  | dispose =>
    have hopen : ∀ failed : Option String, (s.failed.isSome → failed.isSome) → c.pidfd = true →
        Ledger maxPending ({ s.setJob c.id { s.jobs c.id with closed := (s.jobs c.id).closed + 1 } with
          failed := failed }.goto { c with stage := .rmtree, pidfd := false }) :=
      fun failed hf hfd => h.dispose hc hst hf (by rw [hfd]; rfl)
    have hshut : ∀ failed : Option String, (s.failed.isSome → failed.isSome) → ¬c.pidfd = true →
        Ledger maxPending ({ s with failed := failed }.goto
          { c with stage := .rmtree, pidfd := false }) := by
      intro failed hf hfd
      have hjob : s.jobs c.id =
          { s.jobs c.id with closed := (s.jobs c.id).closed + c.pidfd.toNat } := by simp [hfd]
      have key := h.dispose hc hst hf hjob
      rwa [hself] at key
    rcases o with _ | _ | e <;> simp only [Async.callStep, hst] at hstep <;>
      split_ifs at hstep with hdump hfd <;> cases hstep
    · exact hopen s.failed id hfd
    · exact hshut s.failed id hfd
    · exact hnext _ _ _ (by rw [hst]; rfl)
    · exact hopen s.failed id hfd
    · exact hshut s.failed id hfd
    · exact hnext _ _ _ (by rw [hst]; rfl)
    · exact hopen _ (fun hf => by rwa [Option.isSome_map]) hfd
    · exact hshut _ (fun hf => by rwa [Option.isSome_map]) hfd
    · exact hnext _ _ _ (by rw [hst]; rfl)
  | rmtree =>
    have hmove : ∀ staging, Ledger maxPending ((s.setJob c.id
        { s.jobs c.id with staging := staging }).goto { c with stage := .close }) := by
      intro staging
      rw [hst] at hbal
      exact h.advance hc { c with stage := .close } rfl
        ⟨hok.task, hok.released, hok.closed, hok.opened, (fun hu => by cases hu), hbal⟩
    rcases o with _ | _ | e <;> simp only [Async.callStep, hst] at hstep
    · obtain rfl := Option.some.inj hstep
      exact hmove none
    · obtain rfl := Option.some.inj hstep
      exact hmove none
    · split_ifs at hstep
      obtain rfl := Option.some.inj hstep
      exact hnext _ _ _ (by rw [hst]; rfl)
  | close =>
    simp only [Async.callStep, hst] at hstep
    obtain rfl := Option.some.inj hstep
    exact h.close hc hst

/-! ### The tasks -/

/-- What a task does to its own checkpoint. -/
theorem Ledger.setTask (h : Ledger maxPending s) (hid : id ∈ s.admitted) {pc pc' : TaskPc}
    (hpc : (s.jobs id).task = some pc) (hpc' : job.task = some pc') (hok : TaskOk pc' job)
    (slots : ℕ) (hslots : slots + (unreleased (s.setJob id job)).card = maxPending) :
    Ledger maxPending { s.setJob id job with slots := slots } := by
  have hne : ∀ x, x ≠ id → (s.setJob id job).jobs x = s.jobs x := fun x hx =>
    State.setJob_of_ne _ _ hx
  -- neither the call nor a checkpoint that is over is the one of this task
  have hcall : ∀ c, s.call = some c → c.id ≠ id := by
    rintro c hc rfl
    cases ((h.call c hc).2.task.symm.trans hpc)
  exact
    { slots := hslots
      call := fun c hc => by
        obtain ⟨hmem, hold⟩ := h.call c hc
        refine ⟨hmem, ?_⟩
        change CallOk _ c ((s.setJob id job).jobs c.id)
        rw [hne c.id (hcall c hc)]
        exact ⟨hold.task, hold.released, hold.closed, hold.opened, hold.unopened, hold.balanced⟩
      task := fun x hx y hy => by
        change ((s.setJob id job).jobs x).task = some y at hy
        change TaskOk y ((s.setJob id job).jobs x)
        rcases eq_or_ne x id with rfl | hxi
        · rw [State.setJob_self] at hy ⊢
          obtain rfl := Option.some.inj (hpc'.symm.trans hy)
          exact hok
        · rw [hne x hxi] at hy ⊢
          exact h.task x hx y hy
      ended := fun x hx hy hc => by
        change ((s.setJob id job).jobs x).task = none at hy
        change x ∈ s.aborted ∧ AbortOk ((s.setJob id job).jobs x)
        have hxi : x ≠ id := by
          rintro rfl
          rw [State.setJob_self, hpc'] at hy
          cases hy
        rw [hne x hxi] at hy ⊢
        exact h.ended x hx hy hc
      aborted := fun x hx => by
        obtain ⟨hxm, hxt, hxr⟩ := h.aborted x hx
        refine ⟨hxm, ?_, hxr⟩
        change ((s.setJob id job).jobs x).task = none
        rw [hne x fun heq => ?_]
        · exact hxt
        · rw [heq, hpc] at hxt
          cases hxt
      stopped := h.stopped }

/-- A stage that gives nothing back. -/
theorem Ledger.passTask (h : Ledger maxPending s) (hid : id ∈ s.admitted) {pc pc' : TaskPc}
    (hpc : (s.jobs id).task = some pc) (hpc' : job.task = some pc')
    (hclosed : pc'.closedCount = pc.closedCount) (hreleased : pc'.releasedCount = pc.releasedCount)
    (hsettled : pc'.settledCount = pc.settledCount)
    (hsame : job.opened = (s.jobs id).opened ∧ job.closed = (s.jobs id).closed ∧
      job.released = (s.jobs id).released ∧ job.settled = (s.jobs id).settled ∧
      job.future = (s.jobs id).future) : Ledger maxPending (s.setJob id job) := by
  have hok := h.task id hid pc hpc
  obtain ⟨h₁, h₂, h₃, h₄, h₅⟩ := hsame
  refine h.setTask hid hpc hpc' ⟨?_, ?_, ?_, ?_, ?_⟩ s.slots ?_
  · rw [h₁, hok.opened]
  · rw [h₂, hok.closed, hclosed]
  · rw [h₃, hok.released, hreleased]
  · rw [h₄, hok.settled, hsettled]
  · rw [h₅]
    exact hok.future
  · rw [unreleased_setJob h₃]
    exact h.slots

/-- A task closes the handle. -/
theorem Ledger.closeTask (h : Ledger maxPending s) (hid : id ∈ s.admitted) {e e' : Option String}
    (hpc : (s.jobs id).task = some (.dispose e)) (hpc' : job.task = some (.release e'))
    (hsame : job.opened = (s.jobs id).opened ∧ job.closed = (s.jobs id).closed + 1 ∧
      job.released = (s.jobs id).released ∧ job.settled = (s.jobs id).settled ∧
      job.future = (s.jobs id).future) : Ledger maxPending (s.setJob id job) := by
  have hok := h.task id hid _ hpc
  obtain ⟨h₁, h₂, h₃, h₄, h₅⟩ := hsame
  refine h.setTask hid hpc hpc' ⟨?_, ?_, ?_, ?_, ?_⟩ s.slots ?_
  · rw [h₁, hok.opened]
  · rw [h₂, hok.closed]
    rfl
  · rw [h₃, hok.released]
    rfl
  · rw [h₄, hok.settled]
    rfl
  · rw [h₅]
    exact hok.future
  · rw [unreleased_setJob h₃]
    exact h.slots

theorem Ledger.taskStep (h : Ledger maxPending s) (hid : id ∈ s.admitted) {fault : Option String}
    (hstep : taskStep workers s id fault = some t) : Ledger maxPending t := by
  obtain ⟨job, k, hmove, rfl⟩ := taskStep_move hstep
  cases hmove with
  | start htask => exact h.passTask hid htask rfl rfl rfl rfl ⟨rfl, rfl, rfl, rfl, rfl⟩
  | root htask => exact h.passTask hid htask rfl rfl rfl rfl ⟨rfl, rfl, rfl, rfl, rfl⟩
  | wait parent htask => exact h.passTask hid htask rfl rfl rfl rfl ⟨rfl, rfl, rfl, rfl, rfl⟩
  | check htask => exact h.passTask hid htask rfl rfl rfl rfl ⟨rfl, rfl, rfl, rfl, rfl⟩
  | raise pc e htask hbody =>
    have hzero : pc.closedCount = 0 ∧ pc.releasedCount = 0 ∧ pc.settledCount = 0 := by
      cases pc <;> first | exact ⟨rfl, rfl, rfl⟩ | cases hbody
    exact h.passTask hid htask rfl hzero.1.symm hzero.2.1.symm hzero.2.2.symm
      ⟨rfl, rfl, rfl, rfl, rfl⟩
  | launch htask => exact h.passTask hid htask rfl rfl rfl rfl ⟨rfl, rfl, rfl, rfl, rfl⟩
  | criu htask => exact h.passTask hid htask rfl rfl rfl rfl ⟨rfl, rfl, rfl, rfl, rfl⟩
  | stats htask => exact h.passTask hid htask rfl rfl rfl rfl ⟨rfl, rfl, rfl, rfl, rfl⟩
  | move htask => exact h.passTask hid htask rfl rfl rfl rfl ⟨rfl, rfl, rfl, rfl, rfl⟩
  | size htask => exact h.passTask hid htask rfl rfl rfl rfl ⟨rfl, rfl, rfl, rfl, rfl⟩
  | dispose error htask => exact h.closeTask hid htask rfl ⟨rfl, rfl, rfl, rfl, rfl⟩
  | disposeFail error e htask => exact h.closeTask hid htask rfl ⟨rfl, rfl, rfl, rfl, rfl⟩
  | release error htask =>
    have hok := h.task id hid _ htask
    set job : Job := { s.jobs id with
      released := (s.jobs id).released + 1, task := some (.settle error) } with hjob
    refine h.setTask hid htask (rfl : job.task = _)
      ⟨hok.opened, hok.closed, ?_, hok.settled, hok.future⟩ _ ?_
    · change (s.jobs id).released + 1 = 1
      rw [hok.released]
      rfl
    · have hnew : job.released ≠ 0 := Nat.succ_ne_zero _
      have hcard := card_unreleased_release hid hok.released hnew
      have := h.slots
      omega
  | settle error htask =>
    have hok := h.task id hid _ htask
    set job : Job := { s.jobs id with
      future := some (if error = none then .result else .exception)
      settled := (s.jobs id).settled + 1
      doneAt := some s.clock
      task := some .done } with hjob
    refine h.setTask hid htask (rfl : job.task = _)
      ⟨hok.opened, hok.closed, hok.released, ?_, fun hn => by cases hn⟩ s.slots ?_
    · change (s.jobs id).settled + 1 = 1
      rw [hok.settled]
      rfl
    · have hsame : unreleased (s.setJob id job) = unreleased s := unreleased_setJob rfl
      rw [hsame]
      exact h.slots

/-! ### All steps -/

/-- A call is admitted. -/
theorem Ledger.admit (h : Ledger maxPending s) (hid : id ∉ s.admitted) (hcall : s.call = none)
    (hfailed : s.failed = none) (hslots : s.slots ≠ 0) (parentId parent : Option String) :
    Ledger maxPending
      { s with
        jobs := Function.update s.jobs id (Job.admitted parent)
        admitted := insert id s.admitted
        slots := s.slots - 1
        call := some ⟨id, parentId, parent, .inspect, false, false, false⟩ } := by
  have hself : Function.update s.jobs id (Job.admitted parent) id = Job.admitted parent :=
    Function.update_self ..
  have hne : ∀ x, x ∈ s.admitted → Function.update s.jobs id (Job.admitted parent) x = s.jobs x :=
    fun x hx => Function.update_of_ne (fun heq : x = id => hid (heq ▸ hx)) ..
  have hnone : s.aborted = [] := by
    by_contra hab
    have := (h.stopped hab).1
    rw [hfailed] at this
    cases this
  exact
    { slots := by
        have hfilter : (insert id s.admitted).filter (fun x =>
            (Function.update s.jobs id (Job.admitted parent) x).released = 0) =
              insert id (unreleased s) := by
          have hzero : (Job.admitted parent).released = 0 := rfl
          rw [unreleased, Finset.filter_insert, hself, if_pos hzero]
          congr 1
          exact Finset.filter_congr fun x hx => by rw [hne x hx]
        have hnot : id ∉ unreleased s := fun hx => hid (Finset.mem_filter.mp hx).1
        have := h.slots
        change s.slots - 1 + Finset.card (Finset.filter _ _) = _
        rw [hfilter, Finset.card_insert_of_notMem hnot]
        omega
      call := fun c hc => by
        obtain rfl := Option.some.inj hc
        refine ⟨Finset.mem_insert_self .., ?_⟩
        change CallOk _ _ (Function.update s.jobs id (Job.admitted parent) id)
        rw [hself]
        exact ⟨rfl, rfl, rfl, Nat.zero_le _, fun _ => rfl, ⟨rfl, rfl, rfl⟩⟩
      task := fun x hx pc hpc => by
        change (Function.update s.jobs id (Job.admitted parent) x).task = some pc at hpc
        change TaskOk pc (Function.update s.jobs id (Job.admitted parent) x)
        rcases Finset.mem_insert.mp hx with rfl | hx
        · rw [hself] at hpc
          cases hpc
        · rw [hne x hx] at hpc ⊢
          exact h.task x hx pc hpc
      ended := fun x hx hpc hc => by
        change (Function.update s.jobs id (Job.admitted parent) x).task = none at hpc
        change x ∈ s.aborted ∧ AbortOk (Function.update s.jobs id (Job.admitted parent) x)
        have hxi : id ≠ x := hc _ rfl
        have hx : x ∈ s.admitted := (Finset.mem_insert.mp hx).resolve_left hxi.symm
        rw [hne x hx] at hpc ⊢
        refine h.ended x hx hpc fun c hc => ?_
        cases hcall.symm.trans hc
      aborted := fun x hx => by
        change x ∈ s.aborted at hx
        rw [hnone] at hx
        cases hx
      stopped := fun hx => absurd hnone hx }

theorem preflight_failed (hf : s.failed.isSome) (parentId : Option String) (rawCommand : String) :
    ∃ e, preflight s parentId rawCommand = .error e := by
  obtain ⟨e, he⟩ := Option.isSome_iff_exists.mp hf
  exact ⟨.failed e, by rw [preflight, he]⟩

theorem Ledger.startCall (h : Ledger maxPending s) (hcall : s.call = none) (hfresh : Fresh s id)
    (parentId : Option String) (rawCommand : String) (legacy : Outcome) :
    Ledger maxPending (startCall s parentId rawCommand id legacy) := by
  rw [Async.startCall]
  split
  · exact h
  · rename_i parent hpre
    have hfailed : s.failed = none := by
      by_contra hf
      obtain ⟨e, he⟩ := preflight_failed (Option.isSome_iff_ne_none.mpr hf) parentId rawCommand
      cases he.symm.trans hpre
    split_ifs with hlw hslots
    · -- a lightweight node gets an entry and nothing else
      split
      · exact
          { h with
            call := fun c hc => by cases hcall.symm.trans hc
            aborted := fun x hx => by
              obtain ⟨hxm, hxt, hxr⟩ := h.aborted x hx
              refine ⟨hxm, hxt, ?_⟩
              have hxi : x ≠ id := fun heq => hfresh.1 (heq ▸ hxm)
              change (s.registry.set id _).find? x = none
              rw [Dict.find?_set_of_ne _ _ hxi]
              exact hxr }
      · exact h
    · exact h
    · exact h.admit hfresh.1 hcall hfailed hslots parentId parent

theorem Ledger.move {a : Action} (h : Ledger maxPending s) (hstep : move workers s a = some t) :
    Ledger maxPending t := by
  cases a with
  | checkpoint parentId rawCommand x legacy =>
    rw [Async.move] at hstep
    split_ifs at hstep with hguard
    obtain rfl := Option.some.inj hstep
    exact h.startCall hguard.1 hguard.2 parentId rawCommand legacy
  | advance o =>
    obtain ⟨c, hc, hstep⟩ := Option.bind_eq_some_iff.mp hstep
    exact h.callStep hc hstep
  | run x fault =>
    rw [Async.move] at hstep
    split_ifs at hstep with hx
    exact h.taskStep hx hstep

/-- **Every step keeps the books.** -/
theorem Ledger.step {a : Action} (h : Ledger maxPending s) (hstep : step workers s a = some t) :
    Ledger maxPending t := by
  obtain ⟨u, hu, rfl⟩ := Option.map_eq_some_iff.mp hstep
  have hl := h.move hu
  exact
    { hl with
      call := fun c hc => by
        obtain ⟨hmem, hok⟩ := hl.call c hc
        exact ⟨hmem, hok.task, hok.released, hok.closed, hok.opened, hok.unopened, hok.balanced⟩ }

/-! ### Progress -/

/-- How many stages the task of a checkpoint has left. -/
def Job.rank (job : Job) : ℕ := (job.task.map TaskPc.rank).getD 0

/-- What is left to do. -/
def work (s : State) : ℕ :=
  (s.call.map fun c => c.stage.rank).getD 0 + ∑ id ∈ s.admitted, (s.jobs id).rank

/-- Not the start of a call. -/
def Action.Ongoing : Action → Prop
  | .checkpoint .. => False
  | _ => True

theorem sum_rank_setJob (hid : id ∈ s.admitted) (job : Job) :
    ∑ x ∈ s.admitted, ((s.setJob id job).jobs x).rank + (s.jobs id).rank =
      ∑ x ∈ s.admitted, (s.jobs x).rank + job.rank := by
  have hnew := Finset.add_sum_erase s.admitted (fun x => ((s.setJob id job).jobs x).rank) hid
  have hold := Finset.add_sum_erase s.admitted (fun x => (s.jobs x).rank) hid
  have hrest : ∑ x ∈ s.admitted.erase id, ((s.setJob id job).jobs x).rank =
      ∑ x ∈ s.admitted.erase id, (s.jobs x).rank :=
    Finset.sum_congr rfl fun x hx => by
      rw [State.setJob_of_ne _ _ (Finset.ne_of_mem_erase hx)]
  simp only [State.setJob_self] at hnew
  omega

/-- A stage of the call leaves less to do. -/
theorem work_callStep (h : Ledger maxPending s) (hc : s.call = some c) {o : Outcome}
    (hstep : callStep s c o = some t) : work t < work s := by
  obtain ⟨hmem, hok⟩ := h.call c hc
  obtain ⟨job, heff⟩ := callStep_effect hstep
  have hrank : (s.jobs c.id).rank = 0 := by rw [Job.rank, hok.task]; rfl
  have hsum : ∑ x ∈ t.admitted, (t.jobs x).rank + (s.jobs c.id).rank =
      ∑ x ∈ s.admitted, (s.jobs x).rank + job.rank := by
    rw [heff.admitted, heff.jobs]
    exact sum_rank_setJob hmem job
  rw [work, work, hc]
  simp only [Option.map_some, Option.getD_some]
  rcases heff.next with ⟨htask, hnext⟩ | ⟨hst, hnone, -, htask, -⟩
  · have hjob : job.rank = 0 := by rw [Job.rank, htask, ← Job.rank, hrank]
    rcases hcall : t.call with _ | c'
    · have : 0 < c.stage.rank := by cases c.stage <;> simp [Stage.rank]
      simp only [Option.map_none, Option.getD_none]
      omega
    · have := (hnext c' hcall).2.2
      simp only [Option.map_some, Option.getD_some]
      omega
  · have hjob : job.rank = 11 := by rw [Job.rank, htask]; rfl
    rw [hnone, hst]
    simp only [Option.map_none, Option.getD_none, Stage.rank]
    omega

/-- A stage of a task leaves less to do. -/
theorem TaskMove.rank_lt {job' : Job} {k : ℕ} (h : TaskMove s job job' k) :
    job'.rank < job.rank := by
  cases h with
  | raise pc e htask hbody =>
    have hrank : 3 < pc.rank := by
      cases pc <;> simp [TaskPc.rank, TaskPc.InBody] at hbody ⊢
    rw [Job.rank, Job.rank, htask]
    exact hrank
  | _ =>
    simp_all only [Job.rank, Option.map_some, Option.getD_some, TaskPc.rank]
    omega

theorem work_taskStep (hid : id ∈ s.admitted) {fault : Option String}
    (hstep : taskStep workers s id fault = some t) : work t < work s := by
  obtain ⟨job, k, hmove, rfl⟩ := taskStep_move hstep
  have hlt := hmove.rank_lt
  have hsum := sum_rank_setJob hid job
  change (s.call.map fun c => c.stage.rank).getD 0 +
    ∑ x ∈ s.admitted, ((s.setJob id job).jobs x).rank < work s
  rw [work]
  omega

/-- **Every step but the start of a call leaves less to do.** -/
theorem work_lt {a : Action} (h : Ledger maxPending s) (ha : a.Ongoing)
    (hstep : step workers s a = some t) : work t < work s := by
  obtain ⟨u, hu, rfl⟩ := Option.map_eq_some_iff.mp hstep
  change work u < work s
  cases a with
  | checkpoint => cases ha
  | advance o =>
    obtain ⟨c, hc, hstep⟩ := Option.bind_eq_some_iff.mp hu
    exact work_callStep h hc hstep
  | run x fault =>
    rw [Async.move] at hu
    split_ifs at hu with hx
    exact work_taskStep hx hu

/-- So without new calls everything ends after finitely many steps. -/
theorem length_le_work {as : List Action} (h : Ledger maxPending s) (ha : ∀ a ∈ as, a.Ongoing)
    (hrun : exec (step workers) s as = some t) : as.length ≤ work s := by
  induction as generalizing s with
  | nil => exact Nat.zero_le _
  | cons a as ih =>
    obtain ⟨u, hu, ht⟩ := exec_cons.mp hrun
    have hlt := work_lt h (ha a (List.mem_cons_self ..)) hu
    have := ih (h.step hu) (fun b hb => ha b (List.mem_cons_of_mem _ hb)) ht
    rw [List.length_cons]
    omega

/-- A call can always go on. -/
theorem callStep_enabled (s : State) (c : Call) : ∃ t, callStep s c .returned = some t := by
  cases hst : c.stage <;> simp only [callStep, hst] <;> (try split_ifs) <;> exact ⟨_, rfl⟩

/-- So can a task that has started. -/
theorem taskStep_enabled (workers : ℕ) (hrun : (s.jobs id).running = true) :
    ∃ fault t, taskStep workers s id fault = some t := by
  rcases htask : (s.jobs id).task with _ | pc
  · rw [Job.running, htask] at hrun
    cases hrun
  · cases pc with
    | queued => rw [Job.running, htask] at hrun; cases hrun
    | done => rw [Job.running, htask] at hrun; cases hrun
    | waiting =>
      -- the future of the parent decides, and if it is pending there is the timeout
      rcases hprev : (s.jobs id).prevCkptId with _ | parent
      · refine ⟨none, ?_⟩
        simp only [taskStep, htask, hprev, if_true, Option.some.injEq, exists_eq']
      · by_cases hfut : (s.jobs parent).future = some .result
        · refine ⟨none, ?_⟩
          simp only [taskStep, htask, hprev, hfut]
          exact ⟨_, rfl⟩
        · refine ⟨some "TimeoutError", s.setJob id ((s.jobs id).raise "TimeoutError"), ?_⟩
          simp only [taskStep, htask, hprev]
    | checking =>
      refine ⟨none, ?_⟩
      simp only [taskStep, htask]
      split_ifs <;> exact ⟨_, rfl⟩
    | _ =>
      refine ⟨none, ?_⟩
      simp only [taskStep, htask]
      exact ⟨_, rfl⟩

/-- **Nothing gets stuck.** As long as a checkpoint is not over, some step other than the start of a
call is enabled. -/
theorem enabled_of_not_over (h : Ledger maxPending s) (hw : 0 < workers) (hid : id ∈ s.admitted)
    (hover : ¬Over s id) : ∃ a t, a.Ongoing ∧ step workers s a = some t := by
  have hadvance : ∀ c, s.call = some c → ∃ a t, a.Ongoing ∧ step workers s a = some t := by
    intro c hc
    obtain ⟨t, ht⟩ := callStep_enabled s c
    exact ⟨.advance .returned, _, trivial, by rw [step, move, hc, Option.bind_some, ht]; rfl⟩
  have hstart : ∀ x ∈ s.admitted, ∀ fault t, taskStep workers s x fault = some t →
      ∃ a t, a.Ongoing ∧ step workers s a = some t := fun x hx fault t ht =>
    ⟨.run x fault, _, trivial, by rw [step, move, if_pos hx, ht]; rfl⟩
  rcases htask : (s.jobs id).task with _ | pc
  · -- no task: the call is still under way, or has raised
    rcases hc : s.call with _ | c
    · refine absurd (Or.inr (h.ended id hid htask fun c hc' => ?_).1) hover
      cases hc.symm.trans hc'
    · exact hadvance c hc
  · by_cases hrun : (s.jobs id).running = true
    · obtain ⟨fault, t, ht⟩ := taskStep_enabled workers hrun
      exact hstart id hid fault t ht
    · -- it is queued: a worker is free, or is busy with a task that can go on
      have hqueued : pc = .queued := by
        rw [Job.running, htask] at hrun
        cases pc <;> first | rfl | exact absurd rfl hrun | exact absurd (Or.inl htask) hover
      rw [hqueued] at htask
      by_cases hfree : (s.admitted.filter fun x => (s.jobs x).running).card < workers
      · obtain ⟨t, ht⟩ : ∃ t, taskStep workers s id none = some t := by
          simp only [taskStep, htask, if_pos hfree]
          exact ⟨_, rfl⟩
        exact hstart id hid none t ht
      · obtain ⟨x, hx⟩ := Finset.card_pos.mp (show
          0 < (s.admitted.filter fun x => (s.jobs x).running).card by omega)
        obtain ⟨hxm, hxr⟩ := Finset.mem_filter.mp hx
        obtain ⟨fault, t, ht⟩ := taskStep_enabled workers hxr
        exact hstart x hxm fault t ht

/-! ### What the books say -/

theorem TaskOk.settled_future {pc : TaskPc} (h : TaskOk pc job) :
    job.settled ≤ job.future.isSome.toNat := by
  have hsome : job.future.isSome = true := Option.isSome_iff_ne_none.mpr h.future
  rw [h.settled, hsome]
  cases pc <;> simp [TaskPc.settledCount]

theorem AbortOk.settled_future (h : AbortOk job) : job.settled = job.future.isSome.toNat := by
  rcases h.settled with ⟨hf, hs⟩ | ⟨hf, hs⟩ <;> rw [hf, hs] <;> rfl

theorem CallOk.settled_future (h : CallOk s c job) : job.settled ≤ job.future.isSome.toNat := by
  have hbal := h.balanced
  cases hh : c.stage.holding with
  | slot => rw [hh] at hbal; rw [hbal.2.2]; exact Nat.zero_le _
  | pidfd => rw [hh] at hbal; rw [hbal.2.2]; exact Nat.zero_le _
  | future => rw [hh] at hbal; rw [hbal.2.2.1]; exact Nat.zero_le _
  | failing => rw [hh] at hbal; rw [hbal.2]; exact Nat.zero_le _
  | cleaning =>
    rw [hh] at hbal
    rcases hbal.2.2 with ⟨hf, hs⟩ | ⟨hf, hs⟩ <;> rw [hf, hs] <;> simp

theorem Ledger.bounds (h : Ledger maxPending s) (hid : id ∈ s.admitted) :
    (s.jobs id).released ≤ 1 ∧ (s.jobs id).closed ≤ (s.jobs id).opened ∧
      (s.jobs id).opened ≤ 1 ∧ (s.jobs id).settled ≤ (s.jobs id).future.isSome.toNat := by
  rcases htask : (s.jobs id).task with _ | pc
  · by_cases hcall : ∃ c, s.call = some c ∧ c.id = id
    · obtain ⟨c, hc, rfl⟩ := hcall
      obtain ⟨-, hok⟩ := h.call c hc
      have := hok.closed
      exact ⟨by rw [hok.released]; exact Nat.zero_le _, by omega, hok.opened, hok.settled_future⟩
    · obtain ⟨-, hok⟩ := h.ended id hid htask fun c hc heq => hcall ⟨c, hc, heq⟩
      exact ⟨hok.released.le, hok.closed.le, hok.opened, hok.settled_future.le⟩
  · have hok := h.task id hid pc htask
    refine ⟨?_, ?_, hok.opened.le, hok.settled_future⟩
    · rw [hok.released]
      cases pc <;> simp [TaskPc.releasedCount]
    · rw [hok.closed, hok.opened]
      cases pc <;> simp [TaskPc.closedCount]

theorem Ledger.balance (h : Ledger maxPending s) (hid : id ∈ s.admitted) (hover : Over s id) :
    (s.jobs id).released = 1 ∧ (s.jobs id).closed = (s.jobs id).opened ∧
      (s.jobs id).settled = (s.jobs id).future.isSome.toNat := by
  rcases hover with hdone | habort
  · have hok := h.task id hid _ hdone
    have hsome : (s.jobs id).future.isSome = true := Option.isSome_iff_ne_none.mpr hok.future
    exact ⟨hok.released, by rw [hok.closed, hok.opened]; rfl, by rw [hok.settled, hsome]; rfl⟩
  · have hnone : s.call = none := (h.stopped (List.ne_nil_of_mem habort)).2
    obtain ⟨-, hok⟩ := h.ended id hid (h.aborted id habort).2.1 fun c hc => by
      cases hnone.symm.trans hc
    exact ⟨hok.released, hok.closed, hok.settled_future⟩

/-! ### After a failure -/

/-- Once a call has raised, the registry stays as it is. -/
theorem registry_eq_of_stopped {as : List Action} (hf : s.failed.isSome) (hc : s.call = none)
    (hrun : exec (step workers) s as = some t) : t.registry = s.registry := by
  refine (invariant (I := fun u => u.failed.isSome ∧ u.call = none ∧ u.registry = s.registry) ?_
    ⟨hf, hc, rfl⟩ hrun).2.2
  rintro u a v ⟨huf, huc, hur⟩ hstep
  obtain ⟨w, hw, rfl⟩ := Option.map_eq_some_iff.mp hstep
  cases a with
  | checkpoint parentId rawCommand x legacy =>
    rw [move] at hw
    split_ifs at hw
    obtain rfl := Option.some.inj hw
    obtain ⟨e, he⟩ := preflight_failed huf parentId rawCommand
    rw [startCall, he]
    exact ⟨huf, huc, hur⟩
  | advance o =>
    rw [move, huc] at hw
    cases hw
  | run x fault =>
    rw [move] at hw
    split_ifs at hw
    obtain ⟨job, k, -, rfl⟩ := taskStep_move hw
    exact ⟨huf, huc, hur⟩

end

section

variable {maxPending workers : ℕ} {s₀ s : State} {as : List Action}

/-- **The resources of the writers are conserved.** In every state that is reached:

* at most `maxPending` admitted checkpoints have not released their slot;
* no slot is released twice, no handle opened twice or closed twice, no future settled twice, and
  once a checkpoint is over its slot is released, its handle closed and its future settled;
* a call that has raised has left no entry, and no entry is registered after it;
* while a checkpoint is not over some step is enabled, and without new calls there are only finitely
  many. -/
theorem resources_conserved (hw : 0 < workers) (h₀ : Initial maxPending s₀)
    (hrun : exec (step workers) s₀ as = some s) :
    (unreleased s).card ≤ maxPending ∧
    (∀ id ∈ s.admitted, (s.jobs id).released ≤ 1 ∧ (s.jobs id).closed ≤ (s.jobs id).opened ∧
      (s.jobs id).opened ≤ 1 ∧ (s.jobs id).settled ≤ (s.jobs id).future.isSome.toNat) ∧
    (∀ id ∈ s.admitted, Over s id → (s.jobs id).released = 1 ∧
      (s.jobs id).closed = (s.jobs id).opened ∧
      (s.jobs id).settled = (s.jobs id).future.isSome.toNat) ∧
    (∀ id ∈ s.aborted, s.registry.find? id = none) ∧
    (s.aborted ≠ [] → ∀ bs t, exec (step workers) s bs = some t → t.registry = s.registry) ∧
    (∀ id ∈ s.admitted, ¬Over s id → ∃ a t, a.Ongoing ∧ step workers s a = some t) ∧
    (∀ bs t, (∀ a ∈ bs, a.Ongoing) → exec (step workers) s bs = some t → bs.length ≤ work s) := by
  have h : Ledger maxPending s := invariant (fun h hstep => h.step hstep) h₀.ledger hrun
  refine ⟨?_, fun id hid => ?_, fun id hid hover => ?_, fun id hid => (h.aborted id hid).2.2,
    fun hne bs t => registry_eq_of_stopped (h.stopped hne).1 (h.stopped hne).2,
    fun id hid => enabled_of_not_over h hw hid, fun bs t => length_le_work h⟩
  · have := h.slots
    omega
  · exact h.bounds hid
  · exact h.balance hid hover

end

/-! ### A run -/

/-- A controller with two slots. -/
def exampleStart : State where
  registry := Dict.empty
  jobs := fun _ => Job.admitted none
  admitted := ∅
  slots := 2
  failed := none
  call := none
  aborted := []
  clock := 0

theorem exampleStart_initial : Initial 2 exampleStart := ⟨rfl, rfl, rfl, rfl, rfl, rfl⟩

/-- A call that returns, a child of it whose submission is rejected, and a call after that. -/
def exampleRun : List Action :=
  .checkpoint none "standard" "a" .returned :: List.replicate 13 (.advance .returned) ++
    .checkpoint (some "a") "standard" "b" .returned :: List.replicate 12 (.advance .returned) ++
    .advance (.raised "RuntimeError: cannot schedule new futures after shutdown") ::
    List.replicate 4 (.advance .returned) ++ List.replicate 10 (.run "a" none) ++
    [.checkpoint (some "a") "standard" "c" .returned]

theorem resources_conserved_rejected :
    ∃ s, exec (step 1) exampleStart exampleRun = some s ∧
      s.aborted = ["b"] ∧ (s.jobs "a").released = 1 ∧ (s.jobs "b").released = 1 ∧
        s.registry.find? "b" = none ∧
          ∀ bs t, exec (step 1) s bs = some t → t.registry = s.registry := by
  obtain ⟨s, hs⟩ := Option.isSome_iff_exists.mp
    (show (exec (step 1) exampleStart exampleRun).isSome by decide +kernel)
  have hrun : (exec (step 1) exampleStart exampleRun).all (fun s =>
      s.aborted = ["b"] ∧ (s.jobs "a").task = some .done ∧ "a" ∈ s.admitted ∧ "b" ∈ s.admitted) =
        true := by
    decide +kernel
  rw [hs, Option.all_some, decide_eq_true_eq] at hrun
  obtain ⟨hab, hdone, ha, hb⟩ := hrun
  have hmem : "b" ∈ s.aborted := by rw [hab]; exact List.mem_singleton.mpr rfl
  obtain ⟨-, -, hover, hgone, hstop, -⟩ :=
    resources_conserved Nat.one_pos exampleStart_initial hs
  exact ⟨s, hs, hab, (hover "a" ha (Or.inl hdone)).1, (hover "b" hb (Or.inr hmem)).1,
    hgone "b" hmem, hstop (List.ne_nil_of_mem hmem)⟩

end Async

end DeltaBox
