import DeltaBox.LazyPages.Prestart

/-!
# One waiting daemon per image

Two daemons for one image would bind the same socket. The tables are there to prevent that: a
restore waits for a start in flight, and a start is not scheduled while a daemon is idle. But a
daemon can be in the hands of a thread without any table showing it, and a start can be about to be
scheduled. Both gaps are real:

* a restore that was waiting for the dump is released before the done callback has run. It finds
  both tables empty and starts a daemon, and then the callback schedules another start
  (`late_callback_starts_second`);
* an evicted daemon leaves the table before it is stopped. A restore of its image in between finds
  nothing and starts a second one.

`Clear` excludes exactly these two moments. In every run that stays clear of them there is one
waiting daemon per image (`one_waiting_daemon`).

## The invariant

A waiting daemon is idle in the table or in the hands of one of the two threads (`held`). So it is
enough to know where a daemon of the image in question *cannot* be when the next one is launched:
`Working` says that the worker is or will be busy with an image, `Caller.busy?` that the controller
is, and the two exclude each other and an idle daemon.
-/

namespace DeltaBox

namespace LazyPages

/-- The daemon waits for a connection on the socket of the image. -/
def State.waits (s : State) (d : ℕ) (memPath : String) : Bool :=
  s.daemons[d]?.any fun x => x.memPath = memPath && x.phase.waiting

/-! ### Who holds what -/

namespace Worker

/-- The task whose future is in the table. -/
def task? : Worker → Option (ℕ × String)
  | .begin t p | .evict t p _ | .start t p _ | .publish t p _ | .drop t p _ | .finish t p =>
    some (t, p)
  | .idle | .returning _ => none

/-- The image a daemon is being started for. -/
def working? : Worker → Option String
  | .begin _ p | .evict _ p _ | .start _ p _ | .publish _ p _ | .drop _ p _ => some p
  | .idle | .finish .. | .returning _ => none

/-- The daemons it has evicted and not stopped. -/
def evicted : Worker → List ℕ
  | .evict _ _ ds => ds
  | _ => []

/-- The daemon is in its hands. -/
def Holds (w : Worker) (d : ℕ) (memPath : String) : Prop :=
  match w with
  | .evict _ _ ds => d ∈ ds
  | .start _ p e | .publish _ p e | .drop _ p e => e = d ∧ p = memPath
  | _ => False

theorem task?_of_working? {w : Worker} {p : String} (h : w.working? = some p) :
    ∃ t, w.task? = some (t, p) := by
  cases w with
  | begin t q => exact ⟨t, by rw [← Option.some.inj h]; rfl⟩
  | evict t q ds => exact ⟨t, by rw [← Option.some.inj h]; rfl⟩
  | start t q d => exact ⟨t, by rw [← Option.some.inj h]; rfl⟩
  | publish t q d => exact ⟨t, by rw [← Option.some.inj h]; rfl⟩
  | drop t q d => exact ⟨t, by rw [← Option.some.inj h]; rfl⟩
  | _ => cases h

/-- The task that is about to be done. -/
def returning? : Worker → Option ℕ
  | .returning t => some t
  | _ => none

end Worker

namespace Caller

/-- The daemon is in its hands. -/
def Holds (c : Caller) (d : ℕ) (memPath : String) : Prop :=
  match c with
  | .inspect p e | .starting p e | .restoring p e | .abort p e | .retiring p e =>
    e = d ∧ p = memPath
  | .clearing ds => d ∈ ds
  | _ => False

/-- It has looked the image up for a restore, and relies on what it has found. -/
def Engaged (c : Caller) (memPath : String) : Prop :=
  match c with
  | .wait p _ | .retake p | .inspect p _ | .spawn p | .starting p _ | .restoring p _
  | .abort p _ => p = memPath
  | _ => False

end Caller

/-- The tasks whose future is in the table. -/
def State.tasks (s : State) : List (ℕ × String) := s.worker.task?.toList ++ s.queue

/-- The worker is starting a daemon for the image, or will. -/
def State.Working (s : State) (p : String) : Prop :=
  s.worker.working? = some p ∨ ∃ t, (t, p) ∈ s.queue

/-- The callbacks of the dump have run. -/
def Dump.isCalled : Dump → Bool
  | .called _ => true
  | _ => false

/-! ### The condition -/

/-- A restore looks into the tables when the callback of its image has run, and starts a daemon when
no evicted one of its image is left. -/
def Clear (s : State) : Label → Prop
  | .go _ =>
    match s.caller with
    | .take p => (s.dumps.find? p).all Dump.isCalled = true
    | .spawn p => ∀ d ∈ s.worker.evicted, s.waits d p = false
    | _ => True
  | _ => True

instance : ∀ (s : State) (l : Label), Decidable (Clear s l)
  | s, .go _ =>
    match h : s.caller with
    | .take p => decidable_of_iff ((s.dumps.find? p).all Dump.isCalled = true) (by simp [Clear, h])
    | .spawn p =>
      decidable_of_iff (∀ d ∈ s.worker.evicted, s.waits d p = false) (by simp [Clear, h])
    | .idle | .join _ | .wait .. | .retake _ | .inspect .. | .starting .. | .restoring ..
    | .abort .. | .rearm _ | .retiring .. | .closing | .clearing _ =>
      isTrue (by simp [Clear, h])
  | _, .watch _ | _, .release .. | _, .callback _ | _, .work _ | _, .restore _ | _, .retire _
  | _, .reap | _, .close | _, .exit _ => isTrue trivial

/-! ### The invariant -/

/-- The callback of the image has run, if it has one. -/
def State.Called (s : State) (p : String) : Prop := (s.dumps.find? p).all Dump.isCalled = true

/-- There is no idle daemon for the image, and the worker is not at it. -/
def State.Free (s : State) (p : String) : Prop := ¬ s.Working p ∧ s.prestarted.find? p = none

/-- What the controller knows at each point. -/
def CallerOk (s : State) : Caller → Prop
  | .idle | .join _ | .rearm _ => True
  | .closing => s.closing = true
  | .take p => s.dumps.find? p ≠ some .running
  | .wait p t => s.Called p ∧ ∀ t', s.futures.find? p = some t' → t' = t
  | .retake p => s.Called p ∧ s.futures.find? p = none
  | .inspect p _ | .spawn p | .starting p _ | .restoring p _ | .abort p _ => s.Called p ∧ s.Free p
  | .retiring p _ => p ∈ s.retired ∧ s.Free p
  | .clearing _ => s.worker = .idle ∧ s.queue = [] ∧ s.closing = true

/-- Where every waiting daemon is, and which threads keep out of each other's way. -/
structure Inv (s : State) : Prop where
  /-- A waiting daemon is idle or in somebody's hands. -/
  held : ∀ d p, s.waits d p = true →
    s.prestarted.find? p = some d ∨ s.worker.Holds d p ∨ s.caller.Holds d p
  /-- There is one per image. -/
  unique : ∀ d d' p, s.waits d p = true → s.waits d' p = true → d = d'
  /-- While the worker is at an image, no daemon of it is idle. -/
  idle : ∀ p, s.Working p → s.prestarted.find? p = none
  /-- The table of futures has the tasks. -/
  task : ∀ t p, (t, p) ∈ s.tasks ↔ s.futures.find? p = some t
  /-- Tasks are distinct. -/
  nodup : (s.tasks.map Prod.fst).Nodup
  /-- And numbered. -/
  older : ∀ t ∈ s.tasks.map Prod.fst, t < s.nextTask
  /-- A task that is over is over. -/
  ended : ∀ t ∈ s.worker.returning?.toList ++ s.done, t < s.nextTask ∧ t ∉ s.tasks.map Prod.fst
  /-- The controller knows what it has to. -/
  caller : CallerOk s s.caller

theorem Inv.initial : Inv State.initial where
  held d p h := by simp [State.initial, State.waits] at h
  unique d d' p h := by simp [State.initial, State.waits] at h
  idle p _ := rfl
  task t p := by simp [State.initial, State.tasks, Worker.task?]
  nodup := List.nodup_nil
  older t h := by simp [State.initial, State.tasks, Worker.task?] at h
  ended t h := by simp [State.initial, Worker.returning?] at h
  caller := trivial

/-! ### Daemons -/

section

variable {s : State} {d e : ℕ} {p q : String} {ph : Phase}

theorem waits_setPhase : (setPhase ph s d).waits e p =
    if e = d then s.daemons[d]?.any fun x => x.memPath = p && ph.waiting else s.waits e p := by
  simp only [State.waits, setPhase, List.getElem?_modify]
  split_ifs with h h' h'
  · subst h'
    cases s.daemons[e]? <;> rfl
  · exact absurd h.symm h'
  · exact absurd h'.symm h
  · simp

/-- A phase that is not a waiting one ends the wait, and nothing else changes. -/
theorem waits_of_setPhase (hph : ph.waiting = false) (h : (setPhase ph s d).waits e p = true) :
    s.waits e p = true ∧ e ≠ d := by
  rw [waits_setPhase] at h
  split_ifs at h with hed
  · cases hx : s.daemons[d]? <;> simp [hx, hph] at h
  · exact ⟨h, hed⟩

/-- Waiting for readiness starts no wait, and ends it unless the daemon is ready. -/
theorem waits_of_awaitReady {ok : Bool} (h : (awaitReady s d ok).waits e p = true) :
    s.waits e p = true ∧ ((ok = true ∧ s.phase d = .starting) ∨ e ≠ d) := by
  by_cases hok : ok = true ∧ s.phase d = .starting
  · refine ⟨?_, Or.inl hok⟩
    rw [awaitReady, if_pos hok, waits_setPhase] at h
    split_ifs at h with hed
    · subst hed
      have hphase := hok.2
      simp only [State.phase, State.waits] at hphase h ⊢
      cases hx : s.daemons[e]? with
      | none => simp [hx] at h
      | some x =>
        simp only [hx, Option.map_some, Option.getD_some, Option.any_some, Bool.and_eq_true] at *
        exact ⟨h.1, by rw [hphase]; rfl⟩
    · exact h
  · rw [awaitReady, if_neg hok] at h
    obtain ⟨hw, hne⟩ := waits_of_setPhase rfl h
    exact ⟨hw, Or.inr hne⟩

theorem waits_launch (h : (launch s q).waits e p = true) :
    s.waits e p = true ∨ (e = s.daemons.length ∧ q = p) := by
  simp only [launch, State.waits] at h ⊢
  rcases Nat.lt_trichotomy e s.daemons.length with hlt | heq | hgt
  · rw [List.getElem?_append_left hlt] at h
    exact Or.inl h
  · refine Or.inr ⟨heq, ?_⟩
    subst heq
    simpa [Phase.waiting] using h
  · rw [List.getElem?_eq_none (by simp; omega)] at h
    simp at h

end

/-! ### The worker -/

section

variable {cfg : Config} {s s' : State} {t : ℕ} {p : String} {d : ℕ}

/-- What the controller knows is not disturbed by a thread that takes up no image and makes no
daemon idle but that of its own image. -/
theorem CallerOk.mono {c : Caller} (h : CallerOk s c) (hc : ∀ ds, c ≠ .clearing ds)
    (hworking : ∀ p, s'.Working p → s.Working p)
    (hpre : ∀ p, ¬ s.Working p → s.prestarted.find? p = none → s'.prestarted.find? p = none)
    (hfut : ∀ p t, s'.futures.find? p = some t → s.futures.find? p = some t)
    (hdumps : s'.dumps = s.dumps) (hretired : s'.retired = s.retired)
    (hclosing : s'.closing = s.closing) : CallerOk s' c := by
  have hcalled : ∀ p, s.Called p → s'.Called p := by
    intro p h
    rwa [State.Called, hdumps]
  have hfree : ∀ p, s.Free p → s'.Free p := fun p h =>
    ⟨fun hw => h.1 (hworking p hw), hpre p h.1 h.2⟩
  cases c with
  | idle => trivial
  | join p => trivial
  | take p => rwa [CallerOk, hdumps]
  | wait p t => exact ⟨hcalled p h.1, fun t' ht' => h.2 t' (hfut p t' ht')⟩
  | retake p =>
    refine ⟨hcalled p h.1, Option.eq_none_iff_forall_ne_some.mpr fun t ht => ?_⟩
    have := hfut p t ht
    rw [h.2] at this
    cases this
  | inspect p d => exact ⟨hcalled p h.1, hfree p h.2⟩
  | spawn p => exact ⟨hcalled p h.1, hfree p h.2⟩
  | starting p d => exact ⟨hcalled p h.1, hfree p h.2⟩
  | restoring p d => exact ⟨hcalled p h.1, hfree p h.2⟩
  | abort p d => exact ⟨hcalled p h.1, hfree p h.2⟩
  | rearm p => trivial
  | retiring p d => exact ⟨hretired ▸ h.1, hfree p h.2⟩
  | closing => exact hclosing.trans h
  | clearing ds => exact absurd rfl (hc ds)

/-- The worker has nothing to do once the controller clears the table. -/
theorem Inv.not_clearing (hi : Inv s) (hw : s.worker ≠ .idle) (ds : List ℕ) :
    s.caller ≠ .clearing ds := by
  intro hc
  have h := hi.caller
  rw [hc] at h
  exact hw h.1

/-- Daemons may be stopped at any time. -/
theorem Inv.shrink (hi : Inv s) {daemons : List Daemon}
    (h : ∀ d p, State.waits { s with daemons := daemons } d p = true → s.waits d p = true) :
    Inv { s with daemons := daemons } :=
  { hi with
    held := fun d p hd => hi.held d p (h d p hd)
    unique := fun d d' p hd hd' => hi.unique d d' p (h d p hd) (h d' p hd') }

/-- The worker moves on with its task. -/
theorem Inv.setWorker (hi : Inv s) {w : Worker} (hw : s.worker ≠ .idle)
    (htask : w.task? = s.worker.task?) (hret : w.returning? = none)
    (hworking : ∀ p, w.working? = some p → s.worker.working? = some p)
    (hholds : ∀ d p, s.waits d p = true → s.worker.Holds d p → w.Holds d p) :
    Inv { s with worker := w } := by
  have hwork : ∀ p, State.Working { s with worker := w } p → s.Working p := by
    rintro p (h | h)
    · exact Or.inl (hworking p h)
    · exact Or.inr h
  have htasks : State.tasks { s with worker := w } = s.tasks := by
    simp only [State.tasks, htask]
  refine ⟨fun d p hd => ?_, hi.unique, fun p hp => hi.idle p (hwork p hp), ?_, ?_, ?_, ?_, ?_⟩
  · rcases hi.held d p hd with h | h | h
    · exact Or.inl h
    · exact Or.inr (Or.inl (hholds d p hd h))
    · exact Or.inr (Or.inr h)
  · rw [htasks]
    exact hi.task
  · rw [htasks]
    exact hi.nodup
  · rw [htasks]
    exact hi.older
  · rw [htasks]
    intro t ht
    simp only [hret, Option.toList_none, List.nil_append] at ht
    exact hi.ended t (List.mem_append_right _ ht)
  · exact hi.caller.mono (hi.not_clearing hw) hwork (fun _ _ h => h) (fun _ _ h => h) rfl rfl rfl

/-- The task at hand is the only one for its image. -/
theorem Inv.not_queued (hi : Inv s) (hw : s.worker.task? = some (t, p)) (t' : ℕ) :
    (t', p) ∉ s.queue := by
  intro h
  have hcur : (t, p) ∈ s.tasks := by simp [State.tasks, hw]
  have hqueue : (t', p) ∈ s.tasks := List.mem_append_right _ h
  have heq : t' = t := by
    have h₁ := (hi.task t p).mp hcur
    have h₂ := (hi.task t' p).mp hqueue
    exact Option.some.inj (h₂.symm.trans h₁)
  have hnd := hi.nodup
  simp only [State.tasks, hw, Option.toList_some, List.cons_append, List.nil_append, List.map_cons,
    List.nodup_cons] at hnd
  exact hnd.1 (List.mem_map.mpr ⟨(t', p), h, heq⟩)

theorem Inv.beginTask (hi : Inv s) (hw : s.worker = .begin t p) : Inv (beginTask cfg s t p) := by
  have hidle : s.worker ≠ .idle := by simp [hw]
  rw [LazyPages.beginTask]
  split_ifs with hc
  · refine hi.setWorker hidle (by rw [hw]; rfl) rfl (fun q h => by cases h) fun d q _ h => ?_
    rw [hw] at h
    exact absurd h id
  set oldest := s.prestarted.entries.take (excess cfg s) with holdest
  have hpre : ∀ q d, (s.prestarted.keep fun k => k ∉ oldest.map Prod.fst).find? q = some d →
      s.prestarted.find? q = some d := by
    intro q d h
    rw [Dict.find?_keep] at h
    split_ifs at h
    exact h
  have hnone : ∀ q, s.prestarted.find? q = none →
      (s.prestarted.keep fun k => k ∉ oldest.map Prod.fst).find? q = none := by
    intro q h
    rw [Dict.find?_keep]
    split_ifs
    · exact h
    · rfl
  -- Whoever leaves the table is evicted.
  have hgone : ∀ q d, s.prestarted.find? q = some d →
      (s.prestarted.keep fun k => k ∉ oldest.map Prod.fst).find? q = some d ∨
        d ∈ oldest.map Prod.snd := by
    intro q d h
    by_cases hq : q ∈ oldest.map Prod.fst
    · obtain ⟨⟨q', d'⟩, hmem, rfl⟩ := List.mem_map.mp hq
      have hfind := Dict.find?_eq_some_iff.mpr (List.mem_of_mem_take hmem)
      obtain rfl := Option.some.inj (h.symm.trans hfind)
      exact Or.inr (List.mem_map.mpr ⟨_, hmem, rfl⟩)
    · refine Or.inl ?_
      rw [Dict.find?_keep, if_pos (by simpa using hq), h]
  have hwork : ∀ q, State.Working { s with
      prestarted := s.prestarted.keep fun k => k ∉ oldest.map Prod.fst
      worker := .evict t p (oldest.map Prod.snd) } q → s.Working q := by
    rintro q (h | h)
    · exact Or.inl (by rw [hw]; exact h)
    · exact Or.inr h
  have htasks : State.tasks { s with
      prestarted := s.prestarted.keep fun k => k ∉ oldest.map Prod.fst
      worker := .evict t p (oldest.map Prod.snd) } = s.tasks := by
    simp only [State.tasks, hw, Worker.task?]
  refine ⟨fun d q hd => ?_, hi.unique, fun q hq => hnone q (hi.idle q (hwork q hq)),
    htasks ▸ hi.task, htasks ▸ hi.nodup, htasks ▸ hi.older, ?_, ?_⟩
  · rcases hi.held d q hd with h | h | h
    · rcases hgone q d h with h | h
      · exact Or.inl h
      · exact Or.inr (Or.inl h)
    · rw [hw] at h
      exact absurd h id
    · exact Or.inr (Or.inr h)
  · rw [htasks]
    exact fun t' ht' => hi.ended t' (List.mem_append_right _ ht')
  · exact hi.caller.mono (hi.not_clearing hidle) hwork (fun q _ h => hnone q h) (fun _ _ h => h)
      rfl rfl rfl

/-- Nobody has a waiting daemon of the image the worker turns to. -/
theorem Inv.none_waiting (hi : Inv s) (hw : s.worker = .evict t p []) : s.waits d p = false := by
  have hworking : s.Working p := Or.inl (by rw [hw]; rfl)
  by_contra hd
  rcases hi.held d p (by simpa using hd) with h | h | h
  · rw [hi.idle p hworking] at h
    cases h
  · simp [hw, Worker.Holds] at h
  · have hc := hi.caller
    have hnot := hi.not_clearing (by simp [hw])
    generalize s.caller = c at h hc hnot
    cases c with
    | inspect q e => exact hc.2.1 (h.2 ▸ hworking)
    | starting q e => exact hc.2.1 (h.2 ▸ hworking)
    | restoring q e => exact hc.2.1 (h.2 ▸ hworking)
    | abort q e => exact hc.2.1 (h.2 ▸ hworking)
    | retiring q e => exact hc.2.1 (h.2 ▸ hworking)
    | clearing ds => exact hnot ds rfl
    | _ => exact h

/-- A launch at an image without a waiting daemon. -/
theorem unique_launch (hi : Inv s) (hnone : ∀ d, s.waits d p = false) {d d' : ℕ} {q : String}
    (h : (launch s p).waits d q = true) (h' : (launch s p).waits d' q = true) : d = d' := by
  rcases waits_launch h with h | ⟨rfl, rfl⟩
  · rcases waits_launch h' with h' | ⟨rfl, rfl⟩
    · exact hi.unique d d' q h h'
    · rw [hnone d] at h
      cases h
  · rcases waits_launch h' with h' | ⟨rfl, -⟩
    · rw [hnone d'] at h'
      cases h'
    · rfl

theorem Inv.launchWorker (hi : Inv s) (hw : s.worker = .evict t p []) :
    Inv { launch s p with worker := .start t p s.daemons.length } := by
  have hnone : ∀ d, s.waits d p = false := fun d => hi.none_waiting hw
  have hmoved : Inv { s with worker := .start t p s.daemons.length } := by
    refine hi.setWorker (by simp [hw]) (by rw [hw]; rfl) rfl (fun q h => by rw [hw]; exact h) ?_
    intro d q _ h
    simp [hw, Worker.Holds] at h
  refine { hmoved with held := fun d q hd => ?_, unique := fun d d' q => unique_launch hi hnone }
  rcases waits_launch hd with h | ⟨rfl, rfl⟩
  · exact hmoved.held d q h
  · exact Or.inr (Or.inl ⟨rfl, rfl⟩)

theorem Inv.publishTask (hi : Inv s) (hw : s.worker = .publish t p d) :
    Inv (publishTask s t p d) := by
  have hidle : s.worker ≠ .idle := by simp [hw]
  rw [LazyPages.publishTask]
  split_ifs with hc
  · refine hi.setWorker hidle (by rw [hw]; rfl) rfl (fun q h => by rw [hw]; exact h) ?_
    intro e q _ h
    rw [hw] at h
    exact h
  have hworking : s.Working p := Or.inl (by rw [hw]; rfl)
  have hwork : ∀ q, State.Working { s with
      prestarted := s.prestarted.set p d, worker := .finish t p } q → s.Working q ∧ q ≠ p := by
    rintro q (h | ⟨t', h⟩)
    · cases h
    · refine ⟨Or.inr ⟨t', h⟩, ?_⟩
      rintro rfl
      exact hi.not_queued (by rw [hw]; rfl) t' h
  have htasks : State.tasks { s with
      prestarted := s.prestarted.set p d, worker := .finish t p } = s.tasks := by
    simp only [State.tasks, hw, Worker.task?]
  have hpre : ∀ q, q ≠ p → (s.prestarted.set p d).find? q = s.prestarted.find? q :=
    fun q hq => Dict.find?_set_of_ne _ _ hq
  refine ⟨fun e q he => ?_, hi.unique, fun q hq => ?_, htasks ▸ hi.task, htasks ▸ hi.nodup,
    htasks ▸ hi.older, ?_, ?_⟩
  · rcases hi.held e q he with h | h | h
    · by_cases hq : q = p
      · rw [hq, hi.idle p hworking] at h
        cases h
      · exact Or.inl ((hpre q hq).trans h)
    · rw [hw] at h
      obtain ⟨rfl, rfl⟩ := h
      exact Or.inl (Dict.find?_set_self ..)
    · exact Or.inr (Or.inr h)
  · obtain ⟨hq, hne⟩ := hwork q hq
    exact (hpre q hne).trans (hi.idle q hq)
  · rw [htasks]
    exact fun t' ht' => hi.ended t' (List.mem_append_right _ ht')
  · refine hi.caller.mono (hi.not_clearing hidle) (fun q h => (hwork q h).1) (fun q hq h => ?_)
      (fun _ _ h => h) rfl rfl rfl
    exact (hpre q fun heq => hq (heq ▸ hworking)).trans h

theorem Inv.finishTask (hi : Inv s) (hw : s.worker = .finish t p) : Inv (finishTask s t p) := by
  have hidle : s.worker ≠ .idle := by simp [hw]
  have hnot := hi.not_queued (t := t) (p := p) (by rw [hw]; rfl)
  have htasks : s.tasks = (t, p) :: s.queue := by simp [State.tasks, hw, Worker.task?]
  have hnodup := hi.nodup
  rw [htasks, List.map_cons, List.nodup_cons] at hnodup
  have hwork : ∀ q, (LazyPages.finishTask s t p).Working q → s.Working q := by
    rintro q (h | h)
    · cases h
    · exact Or.inr h
  have hfut : ∀ q t', (s.futures.erase p).find? q = some t' → s.futures.find? q = some t' := by
    intro q t' h
    rw [Dict.find?_erase] at h
    split_ifs at h
    exact h
  refine ⟨fun d q hd => ?_, hi.unique, fun q hq => hi.idle q (hwork q hq), fun t' q => ?_, ?_, ?_,
    fun t' ht' => ?_, ?_⟩
  · rcases hi.held d q hd with h | h | h
    · exact Or.inl h
    · rw [hw] at h
      exact absurd h id
    · exact Or.inr (Or.inr h)
  · change (t', q) ∈ s.queue ↔ (s.futures.erase p).find? q = some t'
    rw [Dict.find?_erase]
    split_ifs with hq
    · subst hq
      simpa using hnot t'
    · rw [← hi.task t' q, htasks, List.mem_cons, Prod.mk.injEq]
      simp [hq]
  · exact hnodup.2
  · exact fun t' ht' => hi.older t' (by rw [htasks]; exact List.mem_cons_of_mem _ ht')
  · change t' ∈ t :: s.done at ht'
    change t' < s.nextTask ∧ t' ∉ s.queue.map Prod.fst
    rcases List.mem_cons.mp ht' with rfl | ht'
    · exact ⟨hi.older t' (by rw [htasks]; exact List.mem_cons_self), hnodup.1⟩
    · obtain ⟨hlt, hno⟩ := hi.ended t' (List.mem_append_right _ ht')
      rw [htasks] at hno
      exact ⟨hlt, fun h => hno (List.mem_cons_of_mem _ h)⟩
  · exact hi.caller.mono (hi.not_clearing hidle) hwork (fun _ _ h => h) hfut rfl rfl rfl

/-- **The worker keeps the invariant.** -/
theorem Inv.workerStep (hi : Inv s) {ok : Bool} (h : workerStep cfg s ok = some s') : Inv s' := by
  rw [LazyPages.workerStep] at h
  cases hw : s.worker with
  | idle =>
    cases hq : s.queue with
    | nil => simp [hw, hq] at h
    | cons x queue =>
      obtain ⟨t, p⟩ := x
      simp only [hw, hq, Option.some.injEq] at h
      subst h
      have htasks : State.tasks { s with queue := queue, worker := .begin t p } = s.tasks := by
        simp [State.tasks, hw, hq, Worker.task?]
      have hwork : ∀ q, State.Working { s with queue := queue, worker := .begin t p } q →
          s.Working q := by
        rintro q (h | ⟨t', h⟩)
        · exact Or.inr ⟨t, by rw [hq, ← Option.some.inj h]; exact List.mem_cons_self⟩
        · exact Or.inr ⟨t', by rw [hq]; exact List.mem_cons_of_mem _ h⟩
      have hnc : ∀ ds, s.caller ≠ .clearing ds := by
        intro ds hc
        have := hi.caller
        rw [hc] at this
        simp [this.2.1] at hq
      refine ⟨fun d q hd => ?_, hi.unique, fun q h => hi.idle q (hwork q h), htasks ▸ hi.task,
        htasks ▸ hi.nodup, htasks ▸ hi.older, ?_, hi.caller.mono hnc hwork (fun _ _ h => h)
        (fun _ _ h => h) rfl rfl rfl⟩
      · rcases hi.held d q hd with h | h | h
        · exact Or.inl h
        · rw [hw] at h
          exact absurd h id
        · exact Or.inr (Or.inr h)
      · rw [htasks]
        exact fun t' ht' => hi.ended t' (List.mem_append_right _ ht')
  | begin t p =>
    simp only [hw, Option.some.injEq] at h
    exact h ▸ hi.beginTask hw
  | evict t p evicted =>
    rcases evicted with _ | ⟨d, evicted⟩
    · simp only [hw] at h
      split_ifs at h with hok
      · exact Option.some.inj h ▸ hi.launchWorker hw
      · obtain rfl := Option.some.inj h
        refine hi.setWorker (by simp [hw]) (by rw [hw]; rfl) rfl (fun q h => by cases h) ?_
        intro e q _ he
        simp [hw, Worker.Holds] at he
    · simp only [hw, Option.some.injEq] at h
      subst h
      have hs : Inv (stop s d) := hi.shrink fun e q he => (waits_of_setPhase rfl he).1
      refine hs.setWorker (by simp [stop, setPhase, hw]) (by simp [stop, setPhase, hw, Worker.task?])
        rfl (fun q h => by simpa [stop, setPhase, hw, Worker.working?] using h) ?_
      intro e q he hh
      have hne := (waits_of_setPhase rfl he).2
      simpa [stop, setPhase, hw, Worker.Holds, hne] using hh
  | start t p d =>
    simp only [hw, Option.some.injEq] at h
    subst h
    have hs : Inv (awaitReady s d ok) := hi.shrink fun e q he => (waits_of_awaitReady he).1
    refine hs.setWorker (by simp [awaitReady, setPhase, hw]) ?_ ?_ ?_ ?_
    · split_ifs <;> simp [awaitReady, setPhase, hw, Worker.task?]
    · split_ifs <;> rfl
    · intro q hq
      split_ifs at hq
      · simpa [awaitReady, setPhase, hw, Worker.working?] using hq
      · cases hq
    · intro e q he hh
      have hheld : d = e ∧ p = q := by simpa [awaitReady, setPhase, hw, Worker.Holds] using hh
      rcases (waits_of_awaitReady he).2 with hready | hne
      · rw [if_pos hready]
        exact hheld
      · exact absurd hheld.1.symm hne
  | publish t p d =>
    simp only [hw, Option.some.injEq] at h
    exact h ▸ hi.publishTask hw
  | drop t p d =>
    simp only [hw, Option.some.injEq] at h
    subst h
    have hs : Inv (stop s d) := hi.shrink fun e q he => (waits_of_setPhase rfl he).1
    refine hs.setWorker (by simp [stop, setPhase, hw]) (by simp [stop, setPhase, hw, Worker.task?])
      rfl (fun q h => by cases h) ?_
    intro e q he hh
    have hne := (waits_of_setPhase rfl he).2
    simp only [stop, setPhase, hw, Worker.Holds] at hh
    exact absurd hh.1.symm hne
  | finish t p =>
    simp only [hw, Option.some.injEq] at h
    exact h ▸ hi.finishTask hw
  | returning t =>
    simp only [hw, Option.some.injEq] at h
    subst h
    have htasks : State.tasks { s with done := t :: s.done, worker := .idle } = s.tasks := by
      simp [State.tasks, hw, Worker.task?]
    have hwork : ∀ q, State.Working { s with done := t :: s.done, worker := .idle } q →
        s.Working q := by
      rintro q (h | h)
      · cases h
      · exact Or.inr h
    refine ⟨fun d q hd => ?_, hi.unique, fun q h => hi.idle q (hwork q h), htasks ▸ hi.task,
      htasks ▸ hi.nodup, htasks ▸ hi.older, ?_, hi.caller.mono (hi.not_clearing (by simp [hw])) hwork
      (fun _ _ h => h) (fun _ _ h => h) rfl rfl rfl⟩
    · rcases hi.held d q hd with h | h | h
      · exact Or.inl h
      · rw [hw] at h
        exact absurd h id
      · exact Or.inr (Or.inr h)
    · rw [htasks]
      intro t' ht'
      refine hi.ended t' ?_
      simpa [hw, Worker.returning?] using ht'

/-! ### The controller -/

/-- The controller moves on, outside the tables. -/
theorem Inv.setCaller (hi : Inv s) {c : Caller} (hc : CallerOk s c)
    (hholds : ∀ d p, s.waits d p = true → s.caller.Holds d p → c.Holds d p) :
    Inv { s with caller := c } := by
  refine { hi with held := fun d q hd => ?_, caller := ?_ }
  · rcases hi.held d q hd with h | h | h
    · exact Or.inl h
    · exact Or.inr (Or.inl h)
    · exact Or.inr (Or.inr (hholds d q hd h))
  · cases c <;> exact hc

/-- The controller takes the idle daemon of an image out of the table. -/
theorem Inv.pop (hi : Inv s) {c : Caller} (hpop : s.prestarted.find? p = some d)
    (hholds : ∀ e q, ¬ s.caller.Holds e q) (hnew : c.Holds d p)
    (hc : CallerOk { s with prestarted := s.prestarted.erase p } c) :
    Inv { s with prestarted := s.prestarted.erase p, caller := c } := by
  have hnone : ∀ q, s.prestarted.find? q = none → (s.prestarted.erase p).find? q = none := by
    intro q h
    rw [Dict.find?_erase, h, ite_self]
  refine { hi with held := fun e q he => ?_, idle := fun q hq => ?_, caller := ?_ }
  · rcases hi.held e q he with h | h | h
    · by_cases hq : q = p
      · subst hq
        obtain rfl := Option.some.inj (h.symm.trans hpop)
        exact Or.inr (Or.inr hnew)
      · exact Or.inl ((Dict.find?_erase_of_ne _ hq).trans h)
    · exact Or.inr (Or.inl h)
    · exact absurd h (hholds e q)
  · exact hnone q (hi.idle q hq)
  · cases c <;> exact hc

/-- The image of an idle daemon is free once the daemon is out of the table. -/
theorem Inv.free_of_pop (hi : Inv s) (hpop : s.prestarted.find? p = some d) :
    State.Free { s with prestarted := s.prestarted.erase p } p := by
  refine ⟨fun hw => ?_, Dict.find?_erase_self ..⟩
  have := hi.idle p hw
  rw [hpop] at this
  cases this

/-- An image without a future is not the worker's. -/
theorem Inv.not_working (hi : Inv s) (h : s.futures.find? p = none) : ¬ s.Working p := by
  have htask : ∀ t, (t, p) ∉ s.tasks := by
    intro t ht
    rw [hi.task t p, h] at ht
    cases ht
  rintro (hw | ⟨t, ht⟩)
  · obtain ⟨t, ht⟩ := Worker.task?_of_working? hw
    refine htask t (List.mem_append_left _ ?_)
    rw [ht]
    exact List.mem_singleton_self _
  · exact htask t (List.mem_append_right _ ht)

theorem Inv.takeFirst (hi : Inv s) (hcaller : s.caller = .take p) (hcalled : s.Called p) :
    Inv (takeFirst s p) := by
  have hholds : ∀ e q, ¬ s.caller.Holds e q := by simp [hcaller, Caller.Holds]
  rw [LazyPages.takeFirst]
  split
  · rename_i d hpop
    exact hi.pop hpop hholds ⟨rfl, rfl⟩ ⟨hcalled, hi.free_of_pop hpop⟩
  · rename_i hnone
    split
    · rename_i task hfut
      refine hi.setCaller ⟨hcalled, fun t' ht' => ?_⟩ fun d q _ h => absurd h (hholds d q)
      exact Option.some.inj (ht'.symm.trans hfut)
    · rename_i hfut
      refine hi.setCaller ⟨hcalled, hi.not_working hfut, hnone⟩ fun d q _ h => absurd h (hholds d q)

theorem Inv.takeSecond (hi : Inv s) (hcaller : s.caller = .retake p) : Inv (takeSecond s p) := by
  have hholds : ∀ e q, ¬ s.caller.Holds e q := by simp [hcaller, Caller.Holds]
  have hok := hi.caller
  rw [hcaller] at hok
  rw [LazyPages.takeSecond]
  split
  · rename_i d hpop
    exact hi.pop hpop hholds ⟨rfl, rfl⟩ ⟨hok.1, hi.free_of_pop hpop⟩
  · rename_i hnone
    exact hi.setCaller ⟨hok.1, hi.not_working hok.2, hnone⟩ fun d q _ h => absurd h (hholds d q)

/-- The list of readers is no part of the invariant. -/
theorem Inv.reap (hi : Inv s) : Inv (reap s) := { hi with }

theorem Inv.launchCaller (hi : Inv s) (hcaller : s.caller = .spawn p)
    (hevicted : ∀ d ∈ s.worker.evicted, s.waits d p = false) :
    Inv { launch s p with caller := .starting p s.daemons.length } := by
  have hok := hi.caller
  rw [hcaller] at hok
  obtain ⟨hcalled, hworking, hpre⟩ := hok
  -- Not idle, not at the worker, and the controller has none.
  have hnone : ∀ d, s.waits d p = false := by
    intro d
    by_contra hd
    have hd : s.waits d p = true := by simpa using hd
    rcases hi.held d p hd with h | h | h
    · rw [hpre] at h
      cases h
    · cases hw : s.worker with
      | evict t q evicted =>
        rw [hw] at h
        have := hevicted d (by rw [hw]; exact h)
        rw [hd] at this
        cases this
      | start t q e =>
        rw [hw] at h
        exact hworking (Or.inl (by rw [hw]; exact congrArg some h.2))
      | publish t q e =>
        rw [hw] at h
        exact hworking (Or.inl (by rw [hw]; exact congrArg some h.2))
      | drop t q e =>
        rw [hw] at h
        exact hworking (Or.inl (by rw [hw]; exact congrArg some h.2))
      | _ =>
        rw [hw] at h
        exact h
    · rw [hcaller] at h
      exact h
  have hmoved : Inv { s with caller := .starting p s.daemons.length } := by
    refine hi.setCaller ⟨hcalled, hworking, hpre⟩ fun d q _ h => ?_
    rw [hcaller] at h
    exact absurd h id
  refine { hmoved with held := fun d q hd => ?_, unique := fun d d' q => unique_launch hi hnone }
  rcases waits_launch hd with h | ⟨rfl, rfl⟩
  · exact hmoved.held d q h
  · exact Or.inr (Or.inr ⟨rfl, rfl⟩)

theorem CallerOk.called {c : Caller} (h : CallerOk s c) (hc : c.Engaged p) : s.Called p := by
  cases c with
  | wait q t => exact hc ▸ h.1
  | retake q => exact hc ▸ h.1
  | inspect q d => exact hc ▸ h.1
  | spawn q => exact hc ▸ h.1
  | starting q d => exact hc ▸ h.1
  | restoring q d => exact hc ▸ h.1
  | abort q d => exact hc ▸ h.1
  | _ => exact absurd hc id

/-- A start is scheduled for an image that no restore relies on. -/
theorem Inv.schedule (hi : Inv s) (hng : ¬ s.caller.Engaged p) : Inv (schedule cfg s p) := by
  rw [LazyPages.schedule]
  split_ifs with hc
  · exact hi
  simp only [not_or] at hc
  obtain ⟨-, -, hclosing, hretired, hpre, hfut⟩ := hc
  have hpre : s.prestarted.find? p = none := Dict.find?_eq_none_iff.mpr hpre
  have hfut : s.futures.find? p = none := Dict.find?_eq_none_iff.mpr hfut
  set s' := { s with
    queue := s.queue ++ [(s.nextTask, p)]
    futures := s.futures.set p s.nextTask
    nextTask := s.nextTask + 1 } with hs'
  have hwork : ∀ q, s'.Working q → s.Working q ∨ q = p := by
    rintro q (h | ⟨t, h⟩)
    · exact Or.inl (Or.inl h)
    · rcases List.mem_append.mp h with h | h
      · exact Or.inl (Or.inr ⟨t, h⟩)
      · exact Or.inr (congrArg Prod.snd (List.mem_singleton.mp h))
  have hother : ∀ q, q ≠ p → s'.futures.find? q = s.futures.find? q :=
    fun q hq => Dict.find?_set_of_ne _ _ hq
  have htasks : s'.tasks = s.tasks ++ [(s.nextTask, p)] := by
    simp only [State.tasks, hs', List.append_assoc]
  have hfree : ∀ q, q ≠ p → s.Free q → s'.Free q := fun q hq h =>
    ⟨fun hw => (hwork q hw).elim h.1 hq, h.2⟩
  refine ⟨hi.held, hi.unique, fun q hq => ?_, fun t q => ?_, ?_, fun t ht => ?_, fun t ht => ?_, ?_⟩
  · rcases hwork q hq with hq | rfl
    · exact hi.idle q hq
    · exact hpre
  · rw [htasks, List.mem_append, List.mem_singleton, Prod.mk.injEq, hi.task]
    change _ ↔ (s.futures.set p s.nextTask).find? q = some t
    rw [Dict.find?_set]
    split_ifs with hq
    · subst hq
      simp [hfut, eq_comm]
    · simp [hq]
  · rw [htasks, List.map_append]
    refine hi.nodup.append (List.nodup_singleton _) fun t ht ht' => ?_
    have := hi.older t ht
    simp only [List.map_cons, List.map_nil, List.mem_singleton] at ht'
    omega
  · change t < s.nextTask + 1
    rw [htasks, List.map_append] at ht
    rcases List.mem_append.mp ht with ht | ht
    · have := hi.older t ht
      omega
    · simp only [List.map_cons, List.map_nil, List.mem_singleton] at ht
      omega
  · obtain ⟨hlt, hno⟩ := hi.ended t ht
    refine ⟨Nat.lt_succ_of_lt hlt, fun h => ?_⟩
    rw [htasks, List.map_append] at h
    rcases List.mem_append.mp h with h | h
    · exact hno h
    · simp only [List.map_cons, List.map_nil, List.mem_singleton] at h
      omega
  · have hok := hi.caller
    change CallerOk s' s.caller
    generalize s.caller = c at hok hng
    cases c with
    | wait q t =>
      refine ⟨hok.1, fun t' ht' => hok.2 t' ?_⟩
      rwa [← hother q hng]
    | retake q => exact ⟨hok.1, (hother q hng).trans hok.2⟩
    | inspect q d => exact ⟨hok.1, hfree q hng hok.2⟩
    | spawn q => exact ⟨hok.1, hfree q hng hok.2⟩
    | starting q d => exact ⟨hok.1, hfree q hng hok.2⟩
    | restoring q d => exact ⟨hok.1, hfree q hng hok.2⟩
    | abort q d => exact ⟨hok.1, hfree q hng hok.2⟩
    | retiring q d => exact ⟨hok.1, hfree q (fun h => hretired (h ▸ hok.1)) hok.2⟩
    | clearing ds => exact absurd hok.2.2 hclosing
    | _ => exact hok

theorem Inv.retire (hi : Inv s) (hcaller : s.caller = .idle) : Inv (retire s p) := by
  have hholds : ∀ e q, ¬ s.caller.Holds e q := by simp [hcaller, Caller.Holds]
  have hretired : Inv { s with retired := p :: s.retired } := by
    refine { hi with caller := ?_ }
    rw [hcaller]
    trivial
  rw [LazyPages.retire]
  cases hpop : s.prestarted.find? p with
  | some d =>
    exact hretired.pop (c := .retiring p d) hpop hholds ⟨rfl, rfl⟩
      ⟨List.mem_cons_self, hretired.free_of_pop hpop⟩
  | none =>
    have hsame : ∀ q, (s.prestarted.erase p).find? q = s.prestarted.find? q := by
      intro q
      rw [Dict.find?_erase]
      split_ifs with hq
      · rw [hq, hpop]
      · rfl
    refine { hretired with held := fun d q hd => ?_, idle := fun q hq => ?_, caller := ?_ }
    · rcases hi.held d q hd with h | h
      · exact Or.inl ((hsame q).trans h)
      · exact Or.inr h
    · exact (hsame q).trans (hi.idle q hq)
    · rw [hcaller]
      trivial

/-- **The controller keeps the invariant**, if it stays clear of the two gaps. -/
theorem Inv.callerStep (hi : Inv s) {ok : Bool} (hclear : Clear s (.go ok))
    (h : callerStep cfg s ok = some s') : Inv s' := by
  have hok := hi.caller
  rw [LazyPages.callerStep] at h
  cases hc : s.caller with
  | idle => simp [hc] at h
  | join p =>
    have hholds : ∀ {c : Caller} d q, s.waits d q = true → s.caller.Holds d q → c.Holds d q := by
      intro c d q _ h
      rw [hc] at h
      exact absurd h id
    simp only [hc] at h
    split at h
    · split_ifs at h
      exact Option.some.inj h ▸ hi.setCaller trivial hholds
    · rename_i success hd
      obtain rfl := Option.some.inj h
      cases success
      · exact hi.setCaller trivial hholds
      · exact hi.setCaller (by simp [CallerOk, hd]) hholds
    · rename_i success hd
      obtain rfl := Option.some.inj h
      cases success
      · exact hi.setCaller trivial hholds
      · exact hi.setCaller (by simp [CallerOk, hd]) hholds
    · rename_i hd
      exact Option.some.inj h ▸ hi.setCaller (by simp [CallerOk, hd]) hholds
  | take p =>
    simp only [Clear, hc] at hclear
    simp only [hc, Option.some.injEq] at h
    exact h ▸ hi.takeFirst hc hclear
  | wait p t =>
    rw [hc] at hok
    have hholds : ∀ {c : Caller} d q, s.waits d q = true → s.caller.Holds d q → c.Holds d q := by
      intro c d q _ h
      rw [hc] at h
      exact absurd h id
    simp only [hc] at h
    split_ifs at h with hdone
    · refine Option.some.inj h ▸ hi.setCaller ⟨hok.1, ?_⟩ hholds
      -- The only task it could be is over.
      refine Option.eq_none_iff_forall_ne_some.mpr fun t' ht' => ?_
      obtain rfl := hok.2 t' ht'
      have hmem := List.mem_map_of_mem (f := Prod.fst) ((hi.task t' p).mpr ht')
      exact (hi.ended t' (List.mem_append_right _ hdone)).2 hmem
    · exact Option.some.inj h ▸ hi.setCaller trivial hholds
  | retake p =>
    simp only [hc, Option.some.injEq] at h
    exact h ▸ hi.takeSecond hc
  | inspect p d =>
    rw [hc] at hok
    simp only [hc] at h
    split_ifs at h with hph
    · refine Option.some.inj h ▸ hi.setCaller hok fun e q he hh => ?_
      rw [hc] at hh
      obtain ⟨rfl, rfl⟩ := hh
      simp only [State.phase, State.waits] at hph he
      cases hx : s.daemons[d]? with
      | none => simp [hx] at he
      | some x => simp_all [Phase.waiting]
    · have hmoved : Inv { s with caller := .restoring p d } := hi.setCaller hok fun e q _ hh => by
        rw [hc] at hh
        exact hh
      exact Option.some.inj h ▸ { hmoved with }
  | spawn p =>
    simp only [Clear, hc] at hclear
    simp only [hc, Option.some.injEq] at h
    exact h ▸ hi.reap.launchCaller hc hclear
  | starting p d =>
    rw [hc] at hok
    simp only [hc] at h
    have hs : Inv (awaitReady s d ok) := hi.shrink fun e q he => (waits_of_awaitReady he).1
    split_ifs at h with hready
    · have hmoved : Inv { awaitReady s d ok with caller := .restoring p d } :=
        hs.setCaller hok fun e q _ hh => by
          simp only [awaitReady, setPhase, hc] at hh
          exact hh
      exact Option.some.inj h ▸ { hmoved with }
    · refine Option.some.inj h ▸ hs.setCaller trivial fun e q he hh => ?_
      have hne := (waits_of_awaitReady he).2.resolve_left hready
      simp only [awaitReady, setPhase, hc] at hh
      exact absurd hh.1.symm hne
  | restoring p d =>
    rw [hc] at hok
    simp only [hc] at h
    split_ifs at h with hready
    · have hs : Inv (setPhase .connected s d) := hi.shrink fun e q he => (waits_of_setPhase rfl he).1
      refine Option.some.inj h ▸ hs.setCaller trivial fun e q he hh => ?_
      have hne := (waits_of_setPhase rfl he).2
      simp only [setPhase, hc] at hh
      exact absurd hh.1.symm hne
    · refine Option.some.inj h ▸ hi.setCaller hok fun e q _ hh => ?_
      rw [hc] at hh
      exact hh
  | abort p d =>
    simp only [hc, Option.some.injEq] at h
    have hs : Inv (stop s d) := hi.shrink fun e q he => (waits_of_setPhase rfl he).1
    refine h ▸ hs.reap.setCaller trivial fun e q he hh => ?_
    have hne := (waits_of_setPhase rfl he).2
    simp only [LazyPages.reap, stop, setPhase, hc] at hh
    exact absurd hh.1.symm hne
  | rearm p =>
    simp only [hc, Option.some.injEq] at h
    have hidle : Inv { s with caller := .idle } := hi.setCaller trivial fun d q _ hh => by
      rw [hc] at hh
      exact absurd hh id
    exact h ▸ hidle.schedule id
  | retiring p d =>
    simp only [hc, Option.some.injEq] at h
    have hs : Inv (stop s d) := hi.shrink fun e q he => (waits_of_setPhase rfl he).1
    refine h ▸ hs.setCaller trivial fun e q he hh => ?_
    have hne := (waits_of_setPhase rfl he).2
    simp only [stop, setPhase, hc] at hh
    exact absurd hh.1.symm hne
  | closing =>
    rw [hc] at hok
    simp only [hc] at h
    split_ifs at h with hrest
    obtain rfl := Option.some.inj h
    refine { hi with held := fun d q hd => ?_, idle := fun q _ => rfl, caller := ?_ }
    · rcases hi.held d q hd with h | h | h
      · exact Or.inr (Or.inr (Dict.mem_values_iff.mpr ⟨q, h⟩))
      · rw [hrest.2] at h
        exact absurd h id
      · rw [hc] at h
        exact absurd h id
    · exact ⟨hrest.2, hrest.1, hok⟩
  | clearing ds =>
    rw [hc] at hok
    rcases ds with _ | ⟨d, ds⟩
    · simp only [hc, Option.some.injEq] at h
      refine h ▸ hi.setCaller trivial fun e q _ hh => ?_
      simp [hc, Caller.Holds] at hh
    · simp only [hc, Option.some.injEq] at h
      have hs : Inv (stop s d) := hi.shrink fun e q he => (waits_of_setPhase rfl he).1
      refine h ▸ hs.setCaller hok fun e q he hh => ?_
      have hne := (waits_of_setPhase rfl he).2
      simpa [stop, setPhase, hc, Caller.Holds, hne] using hh

/-- A dump moves on. A restore that relies on the callback is past that. -/
theorem Inv.setDump (hi : Inv s) {x : Dump} (hx : x ≠ .running)
    (hcalled : s.Called p → x.isCalled = true) : Inv { s with dumps := s.dumps.set p x } := by
  have hcalled : ∀ q, s.Called q → State.Called { s with dumps := s.dumps.set p x } q := by
    intro q hq
    rw [State.Called, Dict.find?_set]
    split_ifs with hqp
    · exact hcalled (hqp ▸ hq)
    · exact hq
  refine { hi with caller := ?_ }
  have hok := hi.caller
  change CallerOk _ s.caller
  generalize s.caller = c at hok
  cases c with
  | take q =>
    change (s.dumps.set p x).find? q ≠ some .running
    rw [Dict.find?_set]
    split_ifs
    · exact fun h => hx (Option.some.inj h)
    · exact hok
  | wait q t => exact ⟨hcalled q hok.1, hok.2⟩
  | retake q => exact ⟨hcalled q hok.1, hok.2⟩
  | inspect q d => exact ⟨hcalled q hok.1, hok.2⟩
  | spawn q => exact ⟨hcalled q hok.1, hok.2⟩
  | starting q d => exact ⟨hcalled q hok.1, hok.2⟩
  | restoring q d => exact ⟨hcalled q hok.1, hok.2⟩
  | abort q d => exact ⟨hcalled q hok.1, hok.2⟩
  | _ => exact hok

/-- **Every step that stays clear of the two gaps keeps the invariant.** -/
theorem Inv.step (hi : Inv s) {l : Label} (hclear : Clear s l) (h : step cfg s l = some s') :
    Inv s' := by
  cases l with
  | watch p =>
    simp only [LazyPages.step] at h
    split_ifs at h with hc
    obtain rfl := Option.some.inj h
    refine { hi with caller := ?_ }
    rw [hc.2]
    trivial
  | release p ok =>
    simp only [LazyPages.step] at h
    split_ifs at h with hc
    refine Option.some.inj h ▸ hi.setDump (by simp) fun hq => ?_
    rw [State.Called, hc] at hq
    cases hq
  | callback p =>
    simp only [LazyPages.step] at h
    split at h
    · rename_i ok hd
      have hset : Inv { s with dumps := s.dumps.set p (.called ok) } :=
        hi.setDump (by simp) fun _ => rfl
      -- Whoever relies on the image has seen its callback.
      have hng : ¬ s.caller.Engaged p := by
        intro hc
        have hcalled := hi.caller.called hc
        rw [State.Called, hd] at hcalled
        cases hcalled
      obtain rfl := Option.some.inj h
      split_ifs
      · exact hset.schedule hng
      · exact hset
    · cases h
  | work ok => exact hi.workerStep h
  | restore p =>
    simp only [LazyPages.step] at h
    split_ifs at h with hc
    refine Option.some.inj h ▸ hi.setCaller trivial fun d q _ hh => ?_
    rw [hc] at hh
    exact absurd hh id
  | retire p =>
    simp only [LazyPages.step] at h
    split_ifs at h with hc
    exact Option.some.inj h ▸ hi.retire hc
  | reap =>
    simp only [LazyPages.step] at h
    split_ifs at h with hc
    exact Option.some.inj h ▸ hi.reap
  | close =>
    simp only [LazyPages.step] at h
    split_ifs at h with hc
    obtain rfl := Option.some.inj h
    refine { hi with held := fun d q hd => ?_, caller := rfl }
    rcases hi.held d q hd with h | h | h
    · exact Or.inl h
    · exact Or.inr (Or.inl h)
    · rw [hc] at h
      exact absurd h id
  | go ok => exact hi.callerStep hclear h
  | exit d =>
    exact Option.some.inj h ▸ hi.shrink fun e q he => (waits_of_setPhase rfl he).1

/-! ### Whole runs -/

/-- **One waiting daemon per image.** In every run in which each restore looks into the tables after
the callback of its image has run, and starts a daemon when no evicted one of its image is left,
there are never two daemons of one image that are starting, or ready and not connected. In
particular a synchronous start does not overlap a background start of the same image. -/
theorem one_waiting_daemon {labels : List Label}
    (hrun : Machine.exec (step cfg) State.initial labels = some s)
    (hclear : Machine.Along (step cfg) Clear State.initial labels) :
    (∀ d d' p, s.waits d p = true → s.waits d' p = true → d = d') ∧
      ∀ p d t d', s.caller = .starting p d → s.worker ≠ .start t p d' := by
  have hi : Inv s := Machine.invariant_along (fun hi hc h => hi.step hc h)
    Inv.initial hclear hrun
  refine ⟨hi.unique, fun p d t d' hc hw => ?_⟩
  have hok := hi.caller
  rw [hc] at hok
  exact hok.2.1 (Or.inl (by rw [hw]; rfl))

/-- The default of the constructor. -/
def exampleConfig : Config := ⟨true, 64, by decide⟩

/-- An image becomes durable, a daemon is started for it, and a restore takes it while the next one
is already armed. -/
def exampleRun : List Label :=
  [.watch "/i", .release "/i" true, .callback "/i", .work true, .work true, .work true,
    .restore "/i", .go true, .go true, .work true, .work true, .work true, .work true, .go true,
    .go true, .go true, .go true, .go true, .work true, .work true, .work true]

theorem one_waiting_daemon_prestarted :
    ∃ s, Machine.exec (step exampleConfig) State.initial exampleRun = some s ∧
      s.daemons = [⟨"/i", .connected⟩, ⟨"/i", .starting⟩] ∧
      ∀ d d' p, s.waits d p = true → s.waits d' p = true → d = d' := by
  have hclear : Machine.Along (step exampleConfig) Clear State.initial exampleRun := by
    decide +kernel
  exact ⟨_, rfl, rfl, (one_waiting_daemon rfl hclear).1⟩

/-- The restore is released by the dump, starts a daemon, and then the callback runs. -/
def lateCallback : List Label :=
  [.watch "/i", .release "/i" true, .restore "/i", .go true, .go true, .go true, .callback "/i",
    .work true, .work true, .work true]

/-- Two daemons of one image are starting, one for the restore and one in the background. -/
theorem late_callback_starts_second :
    ∃ s, Machine.exec (step exampleConfig) State.initial lateCallback = some s ∧
      s.caller = .starting "/i" 0 ∧ s.worker = .start 0 "/i" 1 ∧
      s.waits 0 "/i" = true ∧ s.waits 1 "/i" = true :=
  ⟨_, rfl, rfl, rfl, rfl, rfl⟩

/-- The second gap: `/a` is evicted for `/b`, and restored before it is stopped. -/
example : ∃ s, Machine.exec (step ⟨true, 1, by decide⟩) State.initial
    [.watch "/a", .release "/a" true, .callback "/a", .work true, .work true, .work true,
      .work true, .work true, .work true, .work true, .watch "/b", .release "/b" true,
      .callback "/b", .work true, .work true, .restore "/a", .go true, .go true, .go true] = some s ∧
    s.waits 0 "/a" = true ∧ s.waits 1 "/a" = true :=
  ⟨_, rfl, rfl, rfl⟩

end

end LazyPages

end DeltaBox
