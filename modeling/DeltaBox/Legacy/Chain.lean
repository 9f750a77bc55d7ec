import DeltaBox.Legacy.Cut
import DeltaBox.Legacy.Parent

/-!
# Chains of incremental images

The parent of an incremental image is chosen when the dump is submitted. By then the parent's own dump
may be queued, and when it fails, the error is written down by a callback that runs after the waiters
of the future have gone on. Both leave a moment in which an error is not seen. As long as nothing
happens in it, the images of the registry are in order.

## Main results

* `ChainInv.step` — every step that is `Sound` keeps registry, dumps and errors in step
* `images_sound` — in every run of such steps, incremental images rest on sound ones
* `images_unsound` — what happens otherwise
-/

namespace DeltaBox

namespace Legacy

open Machine

variable {M P C : Type} {s t : State M P C} {m : Modes} {cfg : Overlay.Config} {id k p : String}

/-! ### The dumps -/

/-- The dumps that have not ended. -/
def State.unfinished (s : State M P C) : List String :=
  (match s.worker with
    | .running job _ => [job.id]
    | _ => []) ++ s.queue.map Job.id

/-- Futures and jobs belong together. -/
structure JobsInv (s : State M P C) : Prop where
  nodup : s.unfinished.Nodup
  pending : ∀ id, s.futures.find? id = some .pending ↔ id ∈ s.unfinished
  names : ∀ id, s.futures.find? id ≠ none → id ∈ s.names
  forked : ∀ c, s.ctl = .forked c → s.futures.find? c.id = none
  /-- The dump of a validation twin has no future. -/
  twin : ∀ c, s.ctl.call = some c → s.futures.find? (c.id ++ "_full") = none

theorem JobsInv.same (h : JobsInv s) (hunfinished : t.unfinished = s.unfinished)
    (hfutures : t.futures = s.futures) (hnames : ∀ k ∈ s.names, k ∈ t.names)
    (hforked : ∀ c, t.ctl = .forked c → s.futures.find? c.id = none)
    (hcall : ∀ c, t.ctl.call = some c → s.futures.find? (c.id ++ "_full") = none) : JobsInv t where
  nodup := hunfinished ▸ h.nodup
  pending id := by
    rw [hfutures, hunfinished]
    exact h.pending id
  names id hid := hnames id (h.names id (hfutures ▸ hid))
  forked c hc := hfutures ▸ hforked c hc
  twin c hc := hfutures ▸ hcall c hc

theorem JobsInv.submit {c : Call} (h : JobsInv s) (hc : s.ctl = .forked c)
    (hname : c.id ∈ s.names) : JobsInv (submit m s c) := by
  have hcall : s.ctl.call = some c := by rw [hc]; rfl
  have hnone := h.forked c hc
  rw [Legacy.submit]
  split_ifs
  · refine h.same rfl rfl (fun _ hk => hk) (fun c' hc' => by cases hc') fun c' hc' => ?_
    cases hc'
    exact h.twin c hcall
  · have hnew : c.id ∉ s.unfinished := fun hmem => by
      rw [(h.pending c.id).mpr hmem] at hnone
      cases hnone
    let prev := parentImage m s c.parent c.root
    let t : State M P C := { s with
      queue := s.queue ++ [⟨c.id, c.root, prev⟩]
      futures := s.futures.set c.id .pending
      ctl := .submitted { c with prev := prev, ownsFuture := true } }
    have hunfinished : t.unfinished = s.unfinished ++ [c.id] := by
      simp [t, State.unfinished]
    have ht : JobsInv t := by
      refine ⟨?_, fun id => ?_, fun id hid => ?_, fun c' hc' => (by cases hc'), fun c' hc' => ?_⟩
      · rw [hunfinished]
        exact h.nodup.append (List.nodup_singleton _) (by simpa using hnew)
      · rw [hunfinished, Dict.find?_set, List.mem_append, List.mem_singleton]
        split_ifs with heq
        · simp [heq]
        · simp [heq, h.pending]
      · rw [Dict.find?_set] at hid
        split_ifs at hid with heq
        · exact heq ▸ hname
        · exact h.names id hid
      · cases hc'
        rw [Dict.find?_set_of_ne _ _ (id_ne_full c.id).symm]
        exact h.twin c hcall
    exact ht

theorem JobsInv.settle {job : Job} {content : Option M} {future : Future} (h : JobsInv s)
    (hw : s.worker = .running job content) (hfuture : future ≠ .pending)
    (ht : t = { s with images := t.images, futures := s.futures.set job.id future, worker := t.worker })
    (hworker : ∃ failure, t.worker = .settled job failure) : JobsInv t := by
  have hunfinished : s.unfinished = job.id :: t.unfinished := by
    obtain ⟨failure, hf⟩ := hworker
    rw [State.unfinished, State.unfinished, hw, hf, ht]
    rfl
  have hnodup := h.nodup
  rw [hunfinished, List.nodup_cons] at hnodup
  have hpending := (h.pending job.id).mpr (by simp [hunfinished])
  have hfutures : t.futures = s.futures.set job.id future := by rw [ht]
  have hctl : t.ctl = s.ctl := by rw [ht]
  have hnames : t.names = s.names := by rw [ht]
  refine ⟨hnodup.2, fun id => ?_, fun id hid => ?_, fun c hc => ?_, fun c hc => ?_⟩
  · rw [hfutures, Dict.find?_set]
    split_ifs with heq
    · subst heq
      simp [hfuture, hnodup.1]
    · rw [h.pending, hunfinished]
      simp [heq]
  · rw [hfutures, Dict.find?_set] at hid
    rw [hnames]
    split_ifs at hid with heq
    · exact h.names id (by rw [heq, hpending]; simp)
    · exact h.names id hid
  · have hnone := h.forked c (hctl ▸ hc)
    rw [hfutures, Dict.find?_set_of_ne]
    · exact hnone
    · rintro heq
      rw [heq, hpending] at hnone
      cases hnone
  · have hnone := h.twin c (hctl ▸ hc)
    rw [hfutures, Dict.find?_set_of_ne]
    · exact hnone
    · rintro heq
      rw [heq, hpending] at hnone
      cases hnone

theorem JobsInv.worker {label : Label M P C} (h : JobsInv s) (hw : WorkerMoves s label t) :
    JobsInv t := by
  cases hw with
  | start hw hq =>
    refine h.same ?_ rfl (fun _ hk => hk) h.forked h.twin
    simp [State.unfinished, hw, hq]
  | read hw =>
    refine h.same ?_ rfl (fun _ hk => hk) h.forked h.twin
    simp [State.unfinished, hw]
  | succeed hw => exact h.settle hw (by simp) rfl ⟨_, rfl⟩
  | fail f hw => exact h.settle hw (by simp) rfl ⟨_, rfl⟩
  | callback hw =>
    refine h.same ?_ rfl (fun _ hk => hk) h.forked h.twin
    simp [State.unfinished, recordDump, hw]

/-! ### Their outcome -/

/-- There is a complete image. -/
def Complete (s : State M P C) (id : String) : Prop :=
  ∃ content, s.images.find? id = some (.complete content)

/-- The dump of `id` has a future. -/
def Submitted (s : State M P C) (id : String) : Prop :=
  s.futures.find? id = some .pending ∨ (∃ f, s.futures.find? id = some (.exception f)) ∨
  s.futures.find? id = some .result ∧ Complete s id

/-- The dump of `id` went well, or it has not ended, or it will be found out that it failed. -/
def Tracked (s : State M P C) (id : String) : Prop :=
  s.futures.find? id = some .pending ∧ id ∈ s.callbacks ∨
  (∃ job f, s.worker = .settled job (some f) ∧ job.id = id ∧ id ∈ s.callbacks) ∨
  Complete s id ∧ s.futures.find? id ≠ some .pending

/-- Some image rests on that of `p`, or will. -/
def Relied (s : State M P C) (p : String) : Prop :=
  (∃ id e, s.registry.find? id = some e ∧ e.prevCkptId = some p) ∨
  ∃ c, s.ctl.call = some c ∧ c.prev = some p

/-- The image of `id` was made by the full fallback. -/
def FellBack (s : State M P C) (id : String) : Prop :=
  (∃ e, s.registry.find? id = some e ∧ e.fullFallback = true) ∨
  ∃ c, s.ctl.call = some c ∧ c.id = id ∧ c.fullFallback = true

/-- No dump error is recorded for `id`, neither in its entry nor in its statistics. -/
def Clear (s : State M P C) (id : String) : Prop :=
  s.stats.find? id = none ∧ ∀ e, s.registry.find? id = some e → e.dumpError = none

/-- And none is about to be. -/
def Stable (s : State M P C) (id : String) : Prop :=
  Clear s id ∧ ∀ job f, s.worker = .settled job (some f) → job.id ≠ id

/-- The call, once its callback is added. -/
def Ctl.watching : Ctl → Option Call
  | .watched c | .waited c | .sunk c | .raised c | .joined c | .finished c => some c
  | .idle | .forked _ | .submitted _ => none

/-- What is known of the outcome of the dumps. -/
structure OutcomeInv (s : State M P C) : Prop where
  relied : ∀ p, Relied s p → Stable s p
  fellBack : ∀ id, FellBack s id → Stable s id ∧ Complete s id
  entries : ∀ id e, s.registry.find? id = some e → e.strategy ≠ .lightweight → Clear s id →
    Tracked s id ∨ e.fullFallback = true
  submitted : ∀ c, s.ctl = .submitted c → Submitted s c.id
  watching : ∀ c, s.ctl.watching = some c → c.strategy ≠ .lightweight →
    s.stats.find? c.id = none → Tracked s c.id ∨ c.fullFallback = true
  twin : ∀ c, s.ctl.call = some c → c.twin = true → Complete s (c.id ++ "_full")

/-- The two states agree on the dumps of the registered checkpoints. -/
structure AgreeOn (s t : State M P C) : Prop where
  registry : t.registry = s.registry
  worker : t.worker = s.worker
  futures : ∀ id e, s.registry.find? id = some e → t.futures.find? id = s.futures.find? id
  stats : ∀ id e, s.registry.find? id = some e → t.stats.find? id = s.stats.find? id
  images : ∀ id e, s.registry.find? id = some e → t.images.find? id = s.images.find? id
  callbacks : ∀ id e, s.registry.find? id = some e → (id ∈ t.callbacks ↔ id ∈ s.callbacks)

theorem AgreeOn.complete (h : AgreeOn s t) {e : Entry} (he : s.registry.find? id = some e) :
    Complete t id ↔ Complete s id := by
  rw [Complete, Complete, h.images id e he]

theorem AgreeOn.tracked (h : AgreeOn s t) {e : Entry} (he : s.registry.find? id = some e) :
    Tracked t id ↔ Tracked s id := by
  rw [Tracked, Tracked, h.complete he, h.futures id e he, h.callbacks id e he, h.worker]

theorem AgreeOn.stable (h : AgreeOn s t) {e : Entry} (he : s.registry.find? id = some e) :
    Stable t id ↔ Stable s id := by
  rw [Stable, Stable, Clear, Clear, h.stats id e he, h.registry, h.worker]

/-- Whoever is relied on is registered. -/
theorem ParentInv.registered_of_relied (h : ParentInv m s) (hp : Relied s p) :
    ∃ e, s.registry.find? p = some e ∧ e.strategy ≠ .lightweight := by
  rcases hp with ⟨id, e, he, hprev⟩ | ⟨c, hc, hprev⟩
  · obtain ⟨ps, hps⟩ := (h.registry.entries id e he).rests
    cases hps with
    | full he' hnone =>
      rw [Option.some.inj (he'.symm.trans he), hprev] at hnone
      cases hnone
    | incremental he' hprev' hp hdump =>
      rw [Option.some.inj (he'.symm.trans he), hprev] at hprev'
      obtain rfl := Option.some.inj hprev'
      exact ⟨_, hp, hdump⟩
  · obtain ⟨e, he, hdump, -⟩ := (h.call c hc).prev p hprev
    exact ⟨e, he, hdump⟩

/-- **The dumps of the registered checkpoints are left alone.** What happens to the call is for the
caller to look at. -/
theorem OutcomeInv.agree (h : OutcomeInv s) (hp : ParentInv m s) (ha : AgreeOn s t)
    (hprev : ∀ c p, t.ctl.call = some c → c.prev = some p →
      Stable s p ∧ ∃ e, s.registry.find? p = some e)
    (hfell : ∀ c, t.ctl.call = some c → c.fullFallback = true → Stable t c.id ∧ Complete t c.id)
    (hsubmitted : ∀ c, t.ctl = .submitted c → Submitted t c.id)
    (hwatching : ∀ c, t.ctl.watching = some c → c.strategy ≠ .lightweight →
      t.stats.find? c.id = none → Tracked t c.id ∨ c.fullFallback = true)
    (htwin : ∀ c, t.ctl.call = some c → c.twin = true → Complete t (c.id ++ "_full")) :
    OutcomeInv t := by
  refine ⟨fun p hrel => ?_, fun id hf => ?_, fun id e he hdump hclear => ?_, hsubmitted, hwatching,
    htwin⟩
  · rcases hrel with ⟨id, e, he, hpe⟩ | ⟨c, hc, hpc⟩
    · have hrel : Relied s p := Or.inl ⟨id, e, ha.registry ▸ he, hpe⟩
      obtain ⟨ep, hep, -⟩ := hp.registered_of_relied hrel
      exact (ha.stable hep).mpr (h.relied p hrel)
    · obtain ⟨hstable, ep, hep⟩ := hprev c p hc hpc
      exact (ha.stable hep).mpr hstable
  · rcases hf with ⟨e, he, hfull⟩ | ⟨c, hc, rfl, hfull⟩
    · rw [ha.registry] at he
      rw [ha.stable he, ha.complete he]
      exact h.fellBack id (Or.inl ⟨e, he, hfull⟩)
    · exact hfell c hc hfull
  · rw [ha.registry] at he
    rw [ha.tracked he]
    refine h.entries id e he hdump ?_
    rwa [Clear, ha.stats id e he, ha.registry] at hclear

/-! ### The worker -/

/-- The dump that runs. -/
def Worker.running? : Worker M → Option Job
  | .running job _ => some job
  | .idle | .settled _ _ => none

/-- The dump that has failed, until its callback runs. -/
def Worker.failed? : Worker M → Option Job
  | .settled job (some _) => some job
  | .idle | .running _ _ | .settled _ none => none

/-- The call whose dump is submitted next. -/
def Ctl.forked? : Ctl → Option Call
  | .forked c => some c
  | .idle | .submitted _ | .watched _ | .waited _ | .sunk _ | .raised _ | .joined _
  | .finished _ => none

/-- The call that tries the full fallback next. -/
def Ctl.raised? : Ctl → Option Call
  | .raised c => some c
  | .idle | .forked _ | .submitted _ | .watched _ | .waited _ | .sunk _ | .joined _
  | .finished _ => none

/-- The steps that do not come in at a bad moment: a dump that fails is not rested on yet and was not
replaced by a full image yet; a dump is not chosen as a parent, and its error is not cleared, between
its failure and the callback that records it. -/
def Sound (m : Modes) (s : State M P C) : Label M P C → Prop
  | .finish (some _) => ∀ job ∈ s.worker.running?, ¬ Relied s job.id ∧ ¬ FellBack s job.id
  | .submit => ∀ c ∈ s.ctl.forked?, ∀ job ∈ s.worker.failed?,
      parentImage m s c.parent c.root ≠ some job.id
  | .fallback none => ∀ c ∈ s.ctl.raised?, ∀ job ∈ s.worker.failed?, job.id ≠ c.id
  | _ => True

instance (s : State M P C) (p : String) : Decidable (Relied s p) :=
  decidable_of_iff ((∃ x ∈ s.registry.entries, x.2.prevCkptId = some p) ∨
      ∃ c ∈ s.ctl.call, c.prev = some p) <| by
    simp [Relied, Dict.find?_eq_some_iff]

instance (s : State M P C) (id : String) : Decidable (FellBack s id) :=
  decidable_of_iff ((∃ x ∈ s.registry.entries, x.1 = id ∧ x.2.fullFallback = true) ∨
      ∃ c ∈ s.ctl.call, c.id = id ∧ c.fullFallback = true) <| by
    simp [FellBack, Dict.find?_eq_some_iff]

instance (m : Modes) (s : State M P C) : ∀ label, Decidable (Sound m s label)
  | .finish (some _) => inferInstanceAs (Decidable (∀ job ∈ s.worker.running?, _))
  | .submit => inferInstanceAs (Decidable (∀ c ∈ s.ctl.forked?, ∀ job ∈ s.worker.failed?, _))
  | .fallback none => inferInstanceAs (Decidable (∀ c ∈ s.ctl.raised?, ∀ job ∈ s.worker.failed?, _))
  | .finish none | .fallback (some _) | .agent .. | .call .. | .addCallback | .wait _ | .sink
  | .join | .template _ | .register | .raise | .start | .read | .callback | .restore .. =>
    isTrue trivial

theorem Tracked.worker {label : Label M P C} (hj : JobsInv s) (hw : WorkerMoves s label t)
    (h : Tracked s id) (hclear : t.stats.find? id = none) : Tracked t id := by
  cases hw with
  | start hw hq =>
    rcases h with hpending | ⟨job, f, hs, -⟩ | hcomplete
    · exact Or.inl hpending
    · rw [hw] at hs
      cases hs
    · exact Or.inr (Or.inr hcomplete)
  | read hw =>
    rcases h with hpending | ⟨job, f, hs, -⟩ | hcomplete
    · exact Or.inl hpending
    · rw [hw] at hs
      cases hs
    · exact Or.inr (Or.inr hcomplete)
  | @succeed job content hw =>
    by_cases heq : id = job.id
    · subst heq
      refine Or.inr (Or.inr ⟨⟨content, Dict.find?_set_self ..⟩, ?_⟩)
      rw [Dict.find?_set_self]
      simp
    · rcases h with ⟨hpending, hmem⟩ | ⟨job', f, hs, -⟩ | ⟨⟨content', hi⟩, hne⟩
      · exact Or.inl ⟨by rw [Dict.find?_set_of_ne _ _ heq, hpending], hmem⟩
      · rw [hw] at hs
        cases hs
      · refine Or.inr (Or.inr ⟨⟨content', by rw [Dict.find?_set_of_ne _ _ heq, hi]⟩, ?_⟩)
        rwa [Dict.find?_set_of_ne _ _ heq]
  | @fail job content f hw =>
    by_cases heq : id = job.id
    · -- the dump was pending, and so its callback will come
      subst heq
      have hpending := (hj.pending job.id).mpr (by simp [State.unfinished, hw])
      rcases h with ⟨-, hmem⟩ | ⟨job', f', hs, -⟩ | ⟨-, hne⟩
      · exact Or.inr (Or.inl ⟨job, f, rfl, rfl, hmem⟩)
      · rw [hw] at hs
        cases hs
      · exact absurd hpending hne
    · rcases h with ⟨hpending, hmem⟩ | ⟨job', f', hs, -⟩ | ⟨⟨content', hi⟩, hne⟩
      · exact Or.inl ⟨by rw [Dict.find?_set_of_ne _ _ heq, hpending], hmem⟩
      · rw [hw] at hs
        cases hs
      · refine Or.inr (Or.inr ⟨⟨content', by rw [Dict.find?_set_of_ne _ _ heq, hi]⟩, ?_⟩)
        rwa [Dict.find?_set_of_ne _ _ heq]
  | @callback job failure hw =>
    rcases h with hpending | ⟨job', f, hs, rfl, hmem⟩ | hcomplete
    · exact Or.inl hpending
    · -- the error is recorded now
      rw [hw] at hs
      cases hs
      change (recordError s.stats job.id (if job.id ∈ s.callbacks then some f else none)).find? _ =
        none at hclear
      rw [if_pos hmem, recordError, Dict.find?_set_self] at hclear
      cases hclear
    · exact Or.inr (Or.inr hcomplete)

theorem WorkerMoves.frame {label : Label M P C} (hw : WorkerMoves s label t) :
    t.registry = s.registry ∧ t.ctl = s.ctl := by
  cases hw <;> exact ⟨rfl, rfl⟩

theorem find?_recordError {stats : Dict String Failure} {failure : Option Failure}
    (h : ∀ f, failure = some f → id ≠ k) : (recordError stats k failure).find? id = stats.find? id := by
  cases failure with
  | none => rfl
  | some f => exact Dict.find?_set_of_ne _ _ (h f rfl)

theorem recordError_eq_none {stats : Dict String Failure} {failure : Option Failure}
    (h : (recordError stats k failure).find? id = none) : stats.find? id = none := by
  cases failure with
  | none => exact h
  | some f =>
    rw [recordError, Dict.find?_set] at h
    split_ifs at h
    exact h

theorem WorkerMoves.clear {label : Label M P C} (hw : WorkerMoves s label t)
    (h : t.stats.find? id = none) : s.stats.find? id = none := by
  cases hw with
  | @callback job failure hw =>
    change (recordError s.stats job.id _).find? id = none at h
    exact recordError_eq_none h
  | _ => exact h

/-- The dump of `id` does not fail in this step. -/
def Spared (s : State M P C) (label : Label M P C) (id : String) : Prop :=
  ∀ f job content, label = .finish (some f) → s.worker = .running job content → job.id ≠ id

theorem Stable.worker {label : Label M P C} (hw : WorkerMoves s label t) (h : Stable s id)
    (hspared : Spared s label id) : Stable t id := by
  obtain ⟨hregistry, -⟩ := hw.frame
  obtain ⟨⟨hstats, hentry⟩, hsettled⟩ := h
  have hentry' : ∀ e, t.registry.find? id = some e → e.dumpError = none := by
    rw [hregistry]
    exact hentry
  cases hw with
  | start hw hq => exact ⟨⟨hstats, hentry'⟩, fun job f hs => by cases hs⟩
  | read hw => exact ⟨⟨hstats, hentry'⟩, fun job f hs => by cases hs⟩
  | succeed hw => exact ⟨⟨hstats, hentry'⟩, fun job f hs => by cases hs⟩
  | @fail job content f hw =>
    refine ⟨⟨hstats, hentry'⟩, fun job' f' hs => ?_⟩
    cases hs
    exact hspared f job content rfl hw
  | @callback job failure hw =>
    refine ⟨⟨?_, hentry'⟩, fun job' f' hs => by cases hs⟩
    refine (find?_recordError fun f hf => ?_).trans hstats
    split_ifs at hf
    exact (hsettled job f (hf ▸ hw)).symm

theorem Complete.worker {label : Label M P C} (hw : WorkerMoves s label t) (h : Complete s id)
    (hspared : Spared s label id) : Complete t id := by
  obtain ⟨content, hi⟩ := h
  cases hw with
  | @succeed job content' hw =>
    by_cases heq : id = job.id
    · exact ⟨content', by rw [heq]; exact Dict.find?_set_self ..⟩
    · exact ⟨content, by rw [← hi]; exact Dict.find?_set_of_ne _ _ heq⟩
  | @fail job content' f hw =>
    have hne : id ≠ job.id := (hspared f job content' rfl hw).symm
    exact ⟨content, by rw [← hi]; exact Dict.find?_set_of_ne _ _ hne⟩
  | start hw hq => exact ⟨content, hi⟩
  | read hw => exact ⟨content, hi⟩
  | callback hw => exact ⟨content, hi⟩

/-- A dump with a future that is done does not fail again, and neither does one without a future. -/
theorem JobsInv.spared (hj : JobsInv s) (label : Label M P C)
    (h : s.futures.find? id ≠ some .pending) : Spared s label id := by
  rintro f job content - hw rfl
  exact h ((hj.pending job.id).mpr (by simp [State.unfinished, hw]))

theorem Submitted.worker {label : Label M P C} (hw : WorkerMoves s label t)
    (h : Submitted s id) : Submitted t id := by
  cases hw with
  | @succeed job content hw =>
    by_cases heq : id = job.id
    · subst heq
      exact Or.inr (Or.inr ⟨Dict.find?_set_self .., content, Dict.find?_set_self ..⟩)
    · rw [Submitted, Complete, Dict.find?_set_of_ne _ _ heq, Dict.find?_set_of_ne _ _ heq]
      exact h
  | @fail job content f hw =>
    by_cases heq : id = job.id
    · subst heq
      exact Or.inr (Or.inl ⟨f, Dict.find?_set_self ..⟩)
    · rw [Submitted, Complete, Dict.find?_set_of_ne _ _ heq, Dict.find?_set_of_ne _ _ heq]
      exact h
  | start hw hq => exact h
  | read hw => exact h
  | callback hw => exact h

/-- **What the worker does to the outcome.** -/
theorem OutcomeInv.worker {label : Label M P C} (h : OutcomeInv s) (hj : JobsInv s)
    (hsound : Sound m s label) (hw : WorkerMoves s label t) : OutcomeInv t := by
  obtain ⟨hregistry, hctl⟩ := hw.frame
  have hrelied : ∀ p, Relied t p → Relied s p := fun p hp => by
    rwa [Relied, hregistry, hctl] at hp
  have hfell : ∀ id, FellBack t id → FellBack s id := fun id hid => by
    rwa [FellBack, hregistry, hctl] at hid
  have hspared : ∀ id, Relied s id ∨ FellBack s id → Spared s label id := by
    rintro id hid f job content rfl hrun rfl
    obtain ⟨hrel, hfb⟩ := hsound job (by rw [hrun]; rfl)
    exact hid.elim hrel hfb
  refine ⟨fun p hp => ?_, fun id hid => ?_, fun id e he hdump hclear => ?_, fun c hc => ?_,
    fun c hc hdump hclear => ?_, fun c hc htwin => ?_⟩
  · exact (h.relied p (hrelied p hp)).worker hw (hspared p (Or.inl (hrelied p hp)))
  · obtain ⟨hstable, hcomplete⟩ := h.fellBack id (hfell id hid)
    have hsp := hspared id (Or.inr (hfell id hid))
    exact ⟨hstable.worker hw hsp, hcomplete.worker hw hsp⟩
  · rw [hregistry] at he
    obtain ⟨hstats, hentry⟩ := hclear
    refine (h.entries id e he hdump ⟨hw.clear hstats, hregistry ▸ hentry⟩).imp_left fun htr => ?_
    exact htr.worker hj hw hstats
  · rw [hctl] at hc
    exact (h.submitted c hc).worker hw
  · rw [hctl] at hc
    refine (h.watching c hc hdump (hw.clear hclear)).imp_left fun htr => ?_
    exact htr.worker hj hw hclear
  · rw [hctl] at hc
    refine (h.twin c hc htwin).worker hw (hj.spared label ?_)
    rw [hj.twin c hc]
    simp

/-! ### The call -/

/-- A call adds errors and images under its own name only. -/
theorem AgreeOn.of_call {c : Call} (hc : CallParent m s c) (hregistry : t.registry = s.registry)
    (hworker : t.worker = s.worker)
    (hfutures : ∀ id, id ≠ c.id → t.futures.find? id = s.futures.find? id)
    (hstats : ∀ id, id ≠ c.id → t.stats.find? id = s.stats.find? id)
    (himages : ∀ id, id ≠ c.id → id ≠ c.id ++ "_full" → t.images.find? id = s.images.find? id)
    (hcallbacks : ∀ id, id ≠ c.id → (id ∈ t.callbacks ↔ id ∈ s.callbacks)) : AgreeOn s t := by
  have hne : ∀ id e, s.registry.find? id = some e → id ≠ c.id ∧ id ≠ c.id ++ "_full" := by
    intro id e he
    refine ⟨fun heq => ?_, fun heq => ?_⟩
    · rw [heq, hc.unregistered.1] at he
      cases he
    · rw [heq, hc.unregistered.2] at he
      cases he
  exact ⟨hregistry, hworker, fun id e he => hfutures id (hne id e he).1,
    fun id e he => hstats id (hne id e he).1,
    fun id e he => himages id (hne id e he).1 (hne id e he).2,
    fun id e he => hcallbacks id (hne id e he).1⟩

theorem OutcomeInv.relied_of_call (h : OutcomeInv s) (hp : ParentInv m s) {c : Call}
    (hc : s.ctl.call = some c) (hprev : c.prev = some p) :
    Stable s p ∧ ∃ e, s.registry.find? p = some e := by
  have hrel : Relied s p := Or.inr ⟨c, hc, hprev⟩
  obtain ⟨e, he, -⟩ := hp.registered_of_relied hrel
  exact ⟨h.relied p hrel, e, he⟩

/-- A call that moves on, and does nothing else. -/
theorem OutcomeInv.moved (h : OutcomeInv s) (hp : ParentInv m s) {c : Call}
    (hc : s.ctl.call = some c) (hregistry : t.registry = s.registry) (hworker : t.worker = s.worker)
    (hfutures : t.futures = s.futures) (hstats : t.stats = s.stats) (himages : t.images = s.images)
    (hcallbacks : t.callbacks = s.callbacks)
    (hcall : ∀ c', t.ctl.call = some c' → c'.id = c.id ∧ c'.prev = c.prev ∧
      c'.fullFallback = c.fullFallback ∧ c'.twin = c.twin ∧ c'.strategy = c.strategy)
    (hsubmitted : ∀ c', t.ctl ≠ .submitted c')
    (hwatching : ∀ c', t.ctl.watching = some c' → c'.strategy = .lightweight ∨
      s.ctl.watching = some c) : OutcomeInv t := by
  have hcomplete : ∀ id, Complete t id ↔ Complete s id := fun id => by
    rw [Complete, Complete, himages]
  have htracked : ∀ id, Tracked t id ↔ Tracked s id := fun id => by
    rw [Tracked, Tracked, hcomplete, hfutures, hcallbacks, hworker]
  have hstable : ∀ id, Stable t id ↔ Stable s id := fun id => by
    rw [Stable, Stable, Clear, Clear, hstats, hregistry, hworker]
  have hagree : AgreeOn s t := .of_call (hp.call c hc) hregistry hworker (fun _ _ => by rw [hfutures])
    (fun _ _ => by rw [hstats]) (fun _ _ _ => by rw [himages]) fun _ _ => by rw [hcallbacks]
  refine h.agree hp hagree (fun c' p hc' hprev => ?_) (fun c' hc' hfull => ?_)
    (fun c' hc' => absurd hc' (hsubmitted c')) (fun c' hc' hdump hclear => ?_)
    fun c' hc' htwin => ?_
  · obtain ⟨-, hprev', -⟩ := hcall c' hc'
    exact h.relied_of_call hp hc (hprev' ▸ hprev)
  · obtain ⟨hid, -, hfull', -⟩ := hcall c' hc'
    rw [hid, hstable, hcomplete]
    exact h.fellBack c.id (Or.inr ⟨c, hc, rfl, hfull' ▸ hfull⟩)
  · rcases hwatching c' hc' with hlw | hw
    · exact absurd hlw hdump
    · have hc'' : t.ctl.call = some c' := by
        revert hc'
        cases t.ctl <;> simp [Ctl.watching, Ctl.call]
      obtain ⟨hid, -, hfull, -, hstrategy⟩ := hcall c' hc''
      rw [hid, htracked, hfull]
      exact h.watching c hw (hstrategy ▸ hdump) (by rw [← hstats, ← hid]; exact hclear)
  · obtain ⟨hid, -, -, htwin', -⟩ := hcall c' hc'
    rw [hid, hcomplete]
    exact h.twin c hc (htwin' ▸ htwin)

theorem clear_of_usable {root : Root} {e : Entry} (he : s.registry.find? id = some e)
    (h : usable m s root id e = true) : Clear s id := by
  simp only [usable, Bool.and_eq_true, Option.isNone_iff_eq_none] at h
  refine ⟨h.2, fun e' he' => ?_⟩
  rw [Option.some.inj (he'.symm.trans he)]
  exact h.1.2

theorem OutcomeInv.submit {c : Call} (h : OutcomeInv s) (hp : ParentInv m s)
    (hsound : Sound m s .submit) (hc : s.ctl = .forked c) : OutcomeInv (submit m s c) := by
  have hcall : s.ctl.call = some c := by rw [hc]; rfl
  have hearly : c.fullFallback = false := hp.early c (by rw [hc]; rfl)
  rw [Legacy.submit]
  split_ifs with hlw
  · refine h.moved hp hcall rfl rfl rfl rfl rfl rfl (fun c' hc' => ?_) (fun c' hc' => by cases hc')
      fun c' hc' => ?_
    · cases hc'
      exact ⟨rfl, rfl, rfl, rfl, rfl⟩
    · cases hc'
      exact Or.inl hlw
  · refine h.agree hp ?_ (fun c' p hc' hprev => ?_) (fun c' hc' hfull => ?_) (fun c' hc' => ?_)
      (fun c' hc' => by cases hc') fun c' hc' htwin => ?_
    · refine .of_call (hp.call c hcall) rfl rfl (fun id hid => ?_) (fun _ _ => rfl)
        (fun _ _ _ => rfl) fun _ _ => Iff.rfl
      exact Dict.find?_set_of_ne _ _ hid
    · -- the image that the walk has found is in order, and no callback is about to tell otherwise
      cases hc'
      obtain ⟨-, e, he, husable⟩ := parentImage_spec hprev
      refine ⟨⟨clear_of_usable he husable, fun job f hw heq => ?_⟩, e, he⟩
      refine hsound c (by rw [hc]; rfl) job (by rw [hw]; rfl) ?_
      rw [heq]
      exact hprev
    · cases hc'
      rw [hearly] at hfull
      cases hfull
    · cases hc'
      exact Or.inl (Dict.find?_set_self ..)
    · cases hc'
      exact h.twin c hcall htwin

theorem OutcomeInv.addCallback {c : Call} (h : OutcomeInv s) (hp : ParentInv m s)
    (hc : s.ctl = .submitted c) :
    OutcomeInv { addDoneCallback s c.id with ctl := .watched c } := by
  have hcall : s.ctl.call = some c := by rw [hc]; rfl
  have hearly : c.fullFallback = false := hp.early c (by rw [hc]; rfl)
  have hrelied : ∀ c' p, (Ctl.watched c).call = some c' → c'.prev = some p →
      Stable s p ∧ ∃ e, s.registry.find? p = some e := by
    intro c' p hc' hprev
    cases hc'
    exact h.relied_of_call hp hcall hprev
  have hfell : ∀ c', (Ctl.watched c).call = some c' → c'.fullFallback ≠ true := by
    intro c' hc' hfull
    cases hc'
    rw [hearly] at hfull
    cases hfull
  have htwin : ∀ c', (Ctl.watched c).call = some c' → c'.twin = true →
      Complete s (c'.id ++ "_full") := by
    intro c' hc' htwin
    cases hc'
    exact h.twin c hcall htwin
  have hsub := h.submitted c hc
  rw [addDoneCallback]
  split
  · rename_i hresult
    refine h.agree hp (.of_call (hp.call c hcall) rfl rfl (fun _ _ => rfl) (fun _ _ => rfl)
      (fun _ _ _ => rfl) fun _ _ => Iff.rfl) hrelied (fun c' hc' hfull => absurd hfull (hfell c' hc'))
      (fun c' hc' => by cases hc') (fun c' hc' hdump hclear => ?_) htwin
    cases hc'
    rcases hsub with hpending | ⟨f, hf⟩ | ⟨-, hcomplete⟩
    · rw [hresult] at hpending
      cases hpending
    · rw [hresult] at hf
      cases hf
    · refine Or.inl (Or.inr (Or.inr ⟨hcomplete, fun hpending => ?_⟩))
      rw [show s.futures.find? c.id = _ from hresult] at hpending
      cases hpending
  · -- the callback runs at once
    rename_i f hf
    refine h.agree hp (.of_call (hp.call c hcall) rfl rfl (fun _ _ => rfl) (fun id hid => ?_)
      (fun _ _ _ => rfl) fun _ _ => Iff.rfl) hrelied (fun c' hc' hfull => absurd hfull (hfell c' hc'))
      (fun c' hc' => by cases hc') (fun c' hc' hdump hclear => ?_) htwin
    · exact find?_recordError fun _ _ => hid
    · cases hc'
      have hset : (s.stats.set c.id f).find? c.id = none := hclear
      rw [Dict.find?_set_self] at hset
      cases hset
  · rename_i hnotResult hnotException
    refine h.agree hp (.of_call (hp.call c hcall) rfl rfl (fun _ _ => rfl) (fun _ _ => rfl)
      (fun _ _ _ => rfl) fun id hid => ?_) hrelied (fun c' hc' hfull => absurd hfull (hfell c' hc'))
      (fun c' hc' => by cases hc') (fun c' hc' hdump hclear => ?_) htwin
    · simp [hid]
    · cases hc'
      rcases hsub with hpending | ⟨f, hf⟩ | ⟨hresult, -⟩
      · exact Or.inl (Or.inl ⟨hpending, List.mem_cons_self⟩)
      · exact absurd hf (hnotException f)
      · exact absurd hresult hnotResult

/-- The waits write down an error and a twin. -/
theorem waits_eq (m : Modes) (s : State M P C) (c : Call) (twinOk : Bool) :
    ∃ twin failure content, waits m s c twinOk =
      { s with
        images := if twin then s.images.set (c.id ++ "_full") (.complete content) else s.images
        stats := recordError s.stats c.id failure
        ctl := .waited { c with twin := twin } } := by
  refine ⟨validationNeeded m s c && (joinFuture s c.id).isNone && twinOk, ?_⟩
  rw [waits]
  generalize (validationNeeded m s c && (joinFuture s c.id).isNone && twinOk) = twin
  rw [bootstrapWait, dumpTwin]
  split_ifs with hwait htwin htwin
  · exact ⟨joinFuture s c.id, s.content c.root, rfl⟩
  · exact ⟨joinFuture s c.id, s.content c.root, rfl⟩
  · exact ⟨none, s.content c.root, rfl⟩
  · exact ⟨none, s.content c.root, rfl⟩

theorem OutcomeInv.waits {c : Call} (h : OutcomeInv s) (hp : ParentInv m s)
    (hc : s.ctl = .watched c) (twinOk : Bool) : OutcomeInv (waits m s c twinOk) := by
  have hcall : s.ctl.call = some c := by rw [hc]; rfl
  have hearly : c.fullFallback = false := hp.early c (by rw [hc]; rfl)
  obtain ⟨twin, failure, content, heq⟩ := waits_eq m s c twinOk
  rw [heq]
  have himages : ∀ id, id ≠ c.id ++ "_full" →
      (if twin then s.images.set (c.id ++ "_full") (.complete content) else s.images).find? id =
        s.images.find? id := by
    intro id hid
    split_ifs
    · exact Dict.find?_set_of_ne _ _ hid
    · rfl
  refine h.agree hp (.of_call (hp.call c hcall) rfl rfl (fun _ _ => rfl)
    (fun id hid => find?_recordError fun _ _ => hid) (fun id _ hid => himages id hid)
    fun _ _ => Iff.rfl) (fun c' p hc' hprev => ?_) (fun c' hc' hfull => ?_)
    (fun c' hc' => by cases hc') (fun c' hc' hdump hclear => ?_) fun c' hc' htwin => ?_
  · cases hc'
    exact h.relied_of_call hp hcall hprev
  · cases hc'
    rw [hearly] at hfull
    cases hfull
  · cases hc'
    have htr := h.watching c (by rw [hc]; rfl) hdump (recordError_eq_none hclear)
    refine htr.imp_left fun htr => ?_
    rw [Tracked, Complete, himages c.id (id_ne_full c.id)]
    exact htr
  · cases hc'
    refine ⟨content, ?_⟩
    change (if twin then s.images.set (c.id ++ "_full") (.complete content) else s.images).find? _ = _
    rw [if_pos htwin]
    exact Dict.find?_set_self ..

theorem OutcomeInv.fallback {c : Call} {failure : Option Failure} (h : OutcomeInv s)
    (hp : ParentInv m s) (hsound : Sound m s (.fallback failure)) (hc : s.ctl = .raised c) :
    OutcomeInv (fullFallback s c failure) := by
  have hcall : s.ctl.call = some c := by rw [hc]; rfl
  have hearly : c.fullFallback = false := hp.early c (by rw [hc]; rfl)
  have htwin : c.twin = true → ∀ image,
      ∃ content, (s.images.set c.id image).find? (c.id ++ "_full") = some (.complete content) := by
    intro htwin image
    obtain ⟨content, hi⟩ := h.twin c hcall htwin
    exact ⟨content, by rw [Dict.find?_set_of_ne _ _ (id_ne_full c.id).symm, hi]⟩
  cases failure with
  | none =>
    refine h.agree hp (.of_call (hp.call c hcall) rfl rfl (fun _ _ => rfl) (fun id hid => ?_)
      (fun id hid _ => Dict.find?_set_of_ne _ _ hid) fun _ _ => Iff.rfl)
      (fun c' p hc' hprev => by cases hc'; cases hprev) (fun c' hc' hfull => ?_)
      (fun c' hc' => by cases hc') (fun c' hc' hdump hclear => ?_) fun c' hc' htw => ?_
    · simp [fullFallback, Dict.find?_erase, hid]
    · -- the error is gone for good, because the callback has run
      cases hc'
      refine ⟨⟨⟨?_, fun e he => ?_⟩, fun job f hw => ?_⟩, ?_⟩
      · simp [fullFallback]
      · have hnone := (hp.call c hcall).unregistered.1
        rw [show s.registry.find? c.id = _ from he] at hnone
        cases hnone
      · exact hsound c (by rw [hc]; rfl) job (by rw [show s.worker = _ from hw]; rfl)
      · exact ⟨s.content c.root, Dict.find?_set_self ..⟩
    · cases hc'
      exact Or.inr rfl
    · cases hc'
      exact htwin htw _
  | some f =>
    refine h.agree hp (.of_call (hp.call c hcall) rfl rfl (fun _ _ => rfl)
      (fun id hid => Dict.find?_set_of_ne _ _ hid)
      (fun id hid _ => Dict.find?_set_of_ne _ _ hid) fun _ _ => Iff.rfl)
      (fun c' p hc' hprev => ?_) (fun c' hc' hfull => ?_)
      (fun c' hc' => by cases hc') (fun c' hc' hdump hclear => ?_) fun c' hc' htw => ?_
    · cases hc'
      exact h.relied_of_call hp hcall hprev
    · cases hc'
      rw [hearly] at hfull
      cases hfull
    · cases hc'
      have hset : (s.stats.set c.id f).find? c.id = none := hclear
      rw [Dict.find?_set_self] at hset
      cases hset
    · cases hc'
      exact htwin htw _

theorem OutcomeInv.register [DecidableEq P] {c : Call} (h : OutcomeInv s) (hp : ParentInv m s)
    (hj : JobsInv s) (hc : s.ctl = .finished c) : OutcomeInv (register m s c) := by
  have hcall : s.ctl.call = some c := by rw [hc]; rfl
  obtain ⟨hun, -, -, -, hprev, -⟩ := hp.call c hcall
  have hne : c.id ≠ c.id ++ "_full" := id_ne_full c.id
  -- every entry is an old one, that of the call, or its twin
  have hcases : ∀ id e, (registerEntries m s c).find? id = some e →
      s.registry.find? id = some e ∨ id = c.id ∧ e = entryOf m s c ∨
        id = c.id ++ "_full" ∧ e = twinEntry m s c ∧ c.twin = true := by
    intro id e he
    rw [registerEntries] at he
    split_ifs at he with htwin
    · rw [Dict.find?_set, Dict.find?_set] at he
      split_ifs at he with hid hid'
      · exact Or.inr (Or.inr ⟨hid, (Option.some.inj he).symm, htwin⟩)
      · exact Or.inr (Or.inl ⟨hid', (Option.some.inj he).symm⟩)
      · exact Or.inl he
    · rw [Dict.find?_set] at he
      split_ifs at he with hid
      · exact Or.inr (Or.inl ⟨hid, (Option.some.inj he).symm⟩)
      · exact Or.inl he
  have hstable : ∀ id, Stable s id → Stable (Legacy.register m s c) id := by
    rintro id ⟨⟨hstats, hentry⟩, hsettled⟩
    refine ⟨⟨hstats, fun e he => ?_⟩, hsettled⟩
    rcases hcases id e he with hold | ⟨rfl, rfl⟩ | ⟨rfl, rfl, -⟩
    · exact hentry e hold
    · exact hstats
    · rfl
  refine ⟨fun p hrel => hstable p (h.relied p ?_), fun id hf => ?_, fun id e he hdump hclear => ?_,
    fun c' hc' => (by cases hc'), fun c' hc' => (by cases hc'), fun c' hc' => (by cases hc')⟩
  · rcases hrel with ⟨id, e, he, hpe⟩ | ⟨c', hc', -⟩
    · rcases hcases id e he with hold | ⟨rfl, rfl⟩ | ⟨rfl, rfl, -⟩
      · exact Or.inl ⟨id, e, hold, hpe⟩
      · exact Or.inr ⟨c, hcall, hpe⟩
      · cases hpe
    · cases hc'
  · have hfb : FellBack s id := by
      rcases hf with ⟨e, he, hfull⟩ | ⟨c', hc', -⟩
      · rcases hcases id e he with hold | ⟨rfl, rfl⟩ | ⟨rfl, rfl, -⟩
        · exact Or.inl ⟨e, hold, hfull⟩
        · exact Or.inr ⟨c, hcall, rfl, hfull⟩
        · cases hfull
      · cases hc'
    obtain ⟨hst, hcomplete⟩ := h.fellBack id hfb
    exact ⟨hstable id hst, hcomplete⟩
  · rcases hcases id e he with hold | ⟨rfl, rfl⟩ | ⟨rfl, rfl, htwin⟩
    · refine h.entries id e hold hdump ⟨hclear.1, fun e' he' => ?_⟩
      rw [Option.some.inj (he'.symm.trans hold)]
      exact hclear.2 e he
    · exact h.watching c (by rw [hc]; rfl) hdump hclear.1
    · refine Or.inl (Or.inr (Or.inr ⟨h.twin c hcall htwin, fun hpending => ?_⟩))
      have hnone := hj.twin c hcall
      rw [show s.futures.find? _ = _ from hpending] at hnone
      cases hnone

/-! ### Runs -/

/-- Everything together. -/
structure ChainInv (m : Modes) (s : State M P C) : Prop where
  agent : s.agentPid ∈ s.used
  parent : ParentInv m s
  jobs : JobsInv s
  outcome : OutcomeInv s

/-- The two states agree on everything that has to do with dumps. -/
structure SameDumps (s t : State M P C) : Prop where
  registry : t.registry = s.registry
  queue : t.queue = s.queue
  worker : t.worker = s.worker
  futures : t.futures = s.futures
  stats : t.stats = s.stats
  images : t.images = s.images
  callbacks : t.callbacks = s.callbacks
  names : t.names = s.names

theorem SameDumps.unfinished (h : SameDumps s t) : t.unfinished = s.unfinished := by
  rw [State.unfinished, State.unfinished, h.queue, h.worker]

/-- No call is under way afterwards. -/
theorem ChainInv.idle (h : ChainInv m s) (hs : SameDumps s t) (hagent : t.agentPid ∈ t.used)
    (hctl : t.ctl = .idle) : ChainInv m t := by
  have hnone : ∀ c, t.ctl.call ≠ some c := fun c hc => by rw [hctl] at hc; cases hc
  refine ⟨hagent, h.parent.idle hs.registry hs.names hctl, ?_, ?_⟩
  · refine h.jobs.same hs.unfinished hs.futures (fun k hk => hs.names ▸ hk) (fun c hc => ?_)
      fun c hc => absurd hc (hnone c)
    rw [hctl] at hc
    cases hc
  · refine h.outcome.agree h.parent ⟨hs.registry, hs.worker, fun _ _ _ => by rw [hs.futures],
      fun _ _ _ => by rw [hs.stats], fun _ _ _ => by rw [hs.images],
      fun _ _ _ => by rw [hs.callbacks]⟩ (fun c p hc => absurd hc (hnone c))
      (fun c hc => absurd hc (hnone c)) (fun c hc => ?_) (fun c hc => ?_)
      fun c hc => absurd hc (hnone c)
    · rw [hctl] at hc
      cases hc
    · rw [hctl] at hc
      cases hc

/-- A call that keeps everything the dumps depend on. -/
structure SameDump (c c' : Call) : Prop where
  id : c'.id = c.id
  parent : c'.parent = c.parent
  root : c'.root = c.root
  prev : c'.prev = c.prev
  fullFallback : c'.fullFallback = c.fullFallback
  twin : c'.twin = c.twin
  strategy : c'.strategy = c.strategy

/-- A call moves on. -/
theorem ChainInv.moved {c c' : Call} (h : ChainInv m s) (hs : SameDumps s t)
    (hagent : t.agentPid ∈ t.used) (hns : t.nsInitPid = s.nsInitPid)
    (hw : s.ctl.watching = some c) (hcall : s.ctl.call = some c) (hsame : SameDump c c')
    (ht : t.ctl = .finished c' ∨ t.ctl = .joined c' ∨
      (t.ctl = .sunk c' ∨ t.ctl = .raised c') ∧ s.ctl.early = some c) : ChainInv m t := by
  have hcall' : ∀ c'', t.ctl.call = some c'' → c'' = c' := by
    intro c'' hc''
    rcases ht with ht | ht | ⟨ht | ht, -⟩
    all_goals
      rw [ht] at hc''
      exact (Option.some.inj hc'').symm
  have hearly : ∀ c'', t.ctl.early = some c'' → s.ctl.early = some c ∧ c'' = c' := by
    intro c'' hc''
    rcases ht with ht | ht | ⟨ht | ht, hs⟩
    · rw [ht] at hc''
      cases hc''
    · rw [ht] at hc''
      cases hc''
    · rw [ht] at hc''
      exact ⟨hs, (Option.some.inj hc'').symm⟩
    · rw [ht] at hc''
      exact ⟨hs, (Option.some.inj hc'').symm⟩
  have hstage : (∀ c'', t.ctl ≠ .forked c'') ∧ ∀ c'', t.ctl ≠ .submitted c'' := by
    rcases ht with ht | ht | ⟨ht | ht, -⟩
    all_goals
      rw [ht]
      exact ⟨fun _ heq => (by cases heq), fun _ heq => (by cases heq)⟩
  refine ⟨hagent, ?_, ?_, ?_⟩
  · refine h.parent.moved hcall hs.registry hs.names hns (fun c'' hc'' => ?_) fun c'' hc'' => ?_
    · rw [hcall' c'' hc'']
      exact ⟨hsame.id, hsame.parent, hsame.root, Or.inl ⟨hsame.prev, hsame.fullFallback⟩⟩
    · obtain ⟨hs, rfl⟩ := hearly c'' hc''
      exact ⟨hs, hsame.fullFallback⟩
  · refine h.jobs.same hs.unfinished hs.futures (fun k hk => hs.names ▸ hk)
      (fun c'' hc'' => absurd hc'' (hstage.1 c'')) fun c'' hc'' => ?_
    rw [hcall' c'' hc'', hsame.id]
    exact h.jobs.twin c hcall
  · refine h.outcome.moved h.parent hcall hs.registry hs.worker hs.futures hs.stats hs.images
      hs.callbacks (fun c'' hc'' => ?_) hstage.2 fun _ _ => Or.inr hw
    rw [hcall' c'' hc'']
    exact ⟨hsame.id, hsame.prev, hsame.fullFallback, hsame.twin, hsame.strategy⟩

theorem ChainInv.begin [DecidableEq P] {parent : Option String} {raw : String}
    {inp : Overlay.CkptInput} {answers : Answers} (h : ChainInv m s) (hidle : s.ctl = .idle)
    (hnew : NewId s parent inp.id) (hpids : NewPids s answers.pids) :
    ChainInv m (begin m cfg s parent raw inp answers) := by
  have hparent := h.parent.begin cfg raw hidle h.agent hnew hpids
  obtain ⟨hframe, hctl, hagent⟩ := begin_spec m cfg parent raw inp h.agent hpids rfl
  generalize Legacy.begin m cfg s parent raw inp answers = t at hparent hframe hctl hagent ⊢
  have hfresh : ∀ k ∉ s.names, s.futures.find? k = none := by
    intro k hk
    by_contra hsome
    exact hk (h.jobs.names k hsome)
  have hcall : ∀ c, t.ctl.call = some c → t.ctl = .forked c ∧ c.id = inp.id ∧ c.twin = false ∧
      c.fullFallback = false ∧ c.prev = none := by
    intro c hc
    rcases hctl with hctl | ⟨c', hctl, hid, -, -, htwin, hfull, hprev⟩
    · rw [hctl, hidle] at hc
      cases hc
    · rw [hctl] at hc
      obtain rfl := Option.some.inj hc
      exact ⟨hctl, hid, htwin, hfull, hprev⟩
  have hstage : ∀ c, t.ctl.watching ≠ some c ∧ t.ctl ≠ .submitted c := by
    intro c
    rcases hctl with hctl | ⟨c', hctl, -⟩
    · rw [hctl, hidle]
      exact ⟨fun heq => (by cases heq), fun heq => (by cases heq)⟩
    · rw [hctl]
      exact ⟨fun heq => (by cases heq), fun heq => (by cases heq)⟩
  refine ⟨hagent, hparent, ?_, ?_⟩
  · refine h.jobs.same ?_ ?_ (fun k hk => ?_) (fun c hc => ?_) fun c hc => ?_
    · rw [hframe]
      rfl
    · rw [hframe]
      rfl
    · rw [hframe]
      exact List.mem_cons_of_mem _ (List.mem_cons_of_mem _ (List.mem_append_right _ hk))
    · obtain ⟨-, hid, -⟩ := hcall c (by rw [hc]; rfl)
      rw [hid]
      exact hfresh _ hnew.1
    · obtain ⟨-, hid, -⟩ := hcall c hc
      rw [hid]
      exact hfresh _ hnew.2.1
  · refine h.outcome.agree h.parent ?_ (fun c p hc hprev => ?_) (fun c hc hfull => ?_)
      (fun c hc => absurd hc (hstage c).2) (fun c hc => absurd hc (hstage c).1) fun c hc htwin => ?_
    · rw [hframe]
      exact ⟨rfl, rfl, fun _ _ _ => rfl, fun _ _ _ => rfl, fun _ _ _ => rfl, fun _ _ _ => Iff.rfl⟩
    · rw [(hcall c hc).2.2.2.2] at hprev
      cases hprev
    · rw [(hcall c hc).2.2.2.1] at hfull
      cases hfull
    · rw [(hcall c hc).2.2.1] at htwin
      cases htwin

theorem ChainInv.worker {label : Label M P C} (h : ChainInv m s) (hsound : Sound m s label)
    (hw : WorkerMoves s label t) : ChainInv m t := by
  refine ⟨?_, ?_, h.jobs.worker hw, h.outcome.worker h.jobs hsound hw⟩
  · cases hw <;> exact h.agent
  · obtain ⟨hregistry, hctl⟩ := hw.frame
    have hfields : t.names = s.names ∧ t.nsInitPid = s.nsInitPid := by
      cases hw <;> exact ⟨rfl, rfl⟩
    refine h.parent.same hregistry hfields.1 hfields.2 (fun c hc => ⟨c, hctl ▸ hc, ?_⟩) fun c hc => ?_
    · exact ⟨rfl, rfl, rfl, Or.inl ⟨rfl, rfl⟩⟩
    · exact h.parent.early c (hctl ▸ hc)

theorem ChainInv.addCallback {c : Call} (h : ChainInv m s) (hc : s.ctl = .submitted c) :
    ChainInv m { addDoneCallback s c.id with ctl := .watched c } := by
  have hcall : s.ctl.call = some c := by rw [hc]; rfl
  have hearly : s.ctl.early = some c := by rw [hc]; rfl
  have hfields : ∀ u, u = addDoneCallback s c.id → u.registry = s.registry ∧ u.names = s.names ∧
      u.nsInitPid = s.nsInitPid ∧ u.futures = s.futures ∧ u.queue = s.queue ∧
      u.worker = s.worker ∧ u.agentPid ∈ u.used := by
    rintro u rfl
    rw [addDoneCallback]
    split <;> exact ⟨rfl, rfl, rfl, rfl, rfl, rfl, h.agent⟩
  obtain ⟨hregistry, hnames, hns, hfutures, hqueue, hworker, hagent⟩ := hfields _ rfl
  refine ⟨hagent, ?_, ?_, h.outcome.addCallback h.parent hc⟩
  · refine h.parent.moved hcall hregistry hnames hns (fun c' hc' => ?_) fun c' hc' => ?_
    · cases hc'
      exact ⟨rfl, rfl, rfl, Or.inl ⟨rfl, rfl⟩⟩
    · cases hc'
      exact ⟨hearly, rfl⟩
  · refine h.jobs.same ?_ hfutures (fun k hk => hnames.symm ▸ hk) (fun c' hc' => by cases hc')
      fun c' hc' => ?_
    · rw [State.unfinished, State.unfinished, hqueue, hworker]
    · cases hc'
      exact h.jobs.twin c hcall

theorem ChainInv.waits {c : Call} (h : ChainInv m s) (hc : s.ctl = .watched c) (twinOk : Bool) :
    ChainInv m (waits m s c twinOk) := by
  have hcall : s.ctl.call = some c := by rw [hc]; rfl
  have hearly : s.ctl.early = some c := by rw [hc]; rfl
  have hout := h.outcome.waits h.parent hc twinOk
  obtain ⟨twin, failure, content, heq⟩ := waits_eq m s c twinOk
  rw [heq] at hout ⊢
  refine ⟨h.agent, ?_, ?_, hout⟩
  · refine h.parent.moved hcall rfl rfl rfl (fun c' hc' => ?_) fun c' hc' => ?_
    · cases hc'
      exact ⟨rfl, rfl, rfl, Or.inl ⟨rfl, rfl⟩⟩
    · cases hc'
      exact ⟨hearly, rfl⟩
  · refine h.jobs.same rfl rfl (fun _ hk => hk) (fun c' hc' => by cases hc') fun c' hc' => ?_
    cases hc'
    exact h.jobs.twin c hcall

theorem ChainInv.sink {c : Call} (h : ChainInv m s) (hc : s.ctl = .waited c) :
    ChainInv m (sink cfg s c) := by
  rw [Legacy.sink]
  dsimp only
  split
  · exact h.idle ⟨rfl, rfl, rfl, rfl, rfl, rfl, rfl, rfl⟩ h.agent rfl
  · rename_i files layers hsink
    let c' : Call :=
      { c with layers := layers, dirty := Overlay.isUpperDirty s.files.sb c.inp.scanOk }
    have hsame : SameDump c c' := ⟨rfl, rfl, rfl, rfl, rfl, rfl, rfl⟩
    exact h.moved ⟨rfl, rfl, rfl, rfl, rfl, rfl, rfl, rfl⟩ h.agent rfl (by rw [hc]; rfl)
      (by rw [hc]; rfl) hsame (Or.inr (Or.inr ⟨Or.inl rfl, by rw [hc]; rfl⟩))

theorem ChainInv.join {c : Call} (h : ChainInv m s) (hc : s.ctl = .sunk c) :
    ChainInv m (joinBeforeTemplate m s c) := by
  have hsame : SameDump c c := ⟨rfl, rfl, rfl, rfl, rfl, rfl, rfl⟩
  have hw : s.ctl.watching = some c := by rw [hc]; rfl
  have hcall : s.ctl.call = some c := by rw [hc]; rfl
  have hearly : s.ctl.early = some c := by rw [hc]; rfl
  rw [joinBeforeTemplate]
  split
  · split
    · exact h.moved ⟨rfl, rfl, rfl, rfl, rfl, rfl, rfl, rfl⟩ h.agent rfl hw hcall hsame
        (Or.inr (Or.inl rfl))
    · exact h.moved ⟨rfl, rfl, rfl, rfl, rfl, rfl, rfl, rfl⟩ h.agent rfl hw hcall hsame
        (Or.inr (Or.inr ⟨Or.inr rfl, hearly⟩))
  · exact h.moved ⟨rfl, rfl, rfl, rfl, rfl, rfl, rfl, rfl⟩ h.agent rfl hw hcall hsame (Or.inl rfl)

theorem ChainInv.fallback {c : Call} {failure : Option Failure} (h : ChainInv m s)
    (hsound : Sound m s (.fallback failure)) (hc : s.ctl = .raised c) :
    ChainInv m (fullFallback s c failure) := by
  have hcall : s.ctl.call = some c := by rw [hc]; rfl
  have hout := h.outcome.fallback h.parent hsound hc
  cases failure with
  | none =>
    refine ⟨h.agent, ?_, ?_, hout⟩
    · refine h.parent.moved hcall rfl rfl rfl (fun c' hc' => ?_) fun c' hc' => by cases hc'
      cases hc'
      exact ⟨rfl, rfl, rfl, Or.inr rfl⟩
    · refine h.jobs.same rfl rfl (fun _ hk => hk) (fun c' hc' => by cases hc') fun c' hc' => ?_
      cases hc'
      exact h.jobs.twin c hcall
  | some f =>
    refine ⟨h.agent, ?_, ?_, hout⟩
    · refine h.parent.moved hcall rfl rfl rfl (fun c' hc' => ?_) fun c' hc' => by cases hc'
      cases hc'
      exact ⟨rfl, rfl, rfl, Or.inl ⟨rfl, rfl⟩⟩
    · refine h.jobs.same rfl rfl (fun _ hk => hk) (fun c' hc' => by cases hc') fun c' hc' => ?_
      cases hc'
      exact h.jobs.twin c hcall

theorem ChainInv.template {c : Call} {child : Option ℕ} (h : ChainInv m s)
    (hc : s.ctl = .joined c) : ChainInv m (lateTemplate m s c child) := by
  have hw : s.ctl.watching = some c := by rw [hc]; rfl
  have hcall : s.ctl.call = some c := by rw [hc]; rfl
  have hsame : ∀ template, SameDump c { c with fixedClone := none, templatePid := template } :=
    fun _ => ⟨rfl, rfl, rfl, rfl, rfl, rfl, rfl⟩
  cases child with
  | none =>
    exact h.moved ⟨rfl, rfl, rfl, rfl, rfl, rfl, rfl, rfl⟩ h.agent rfl hw hcall (hsame none)
      (Or.inl rfl)
  | some pid =>
    rw [lateTemplate]
    split_ifs
    · exact h.moved ⟨rfl, rfl, rfl, rfl, rfl, rfl, rfl, rfl⟩ (List.mem_cons_of_mem _ h.agent) rfl
        hw hcall (hsame (some pid)) (Or.inl rfl)
    · exact h.moved ⟨rfl, rfl, rfl, rfl, rfl, rfl, rfl, rfl⟩ List.mem_cons_self rfl hw hcall
        (hsame (some s.agentPid)) (Or.inl rfl)

/-- **One step.** -/
theorem ChainInv.step [DecidableEq P] {label : Label M P C} (h : ChainInv m s)
    (hsound : Sound m s label) (hstep : step m cfg s label = some t) : ChainInv m t := by
  cases moves_of_step m cfg hstep with
  | agent mem op hidle => exact h.idle ⟨rfl, rfl, rfl, rfl, rfl, rfl, rfl, rfl⟩ h.agent hidle
  | call hidle hfresh hnew hpids hpending => exact h.begin hidle hnew hpids
  | @restore target rid agent newNamespace mem files hidle hpids hfiles =>
    refine h.idle ⟨rfl, rfl, rfl, rfl, rfl, rfl, rfl, rfl⟩ ?_ hidle
    cases agent with
    | none => exact h.agent
    | some pid => exact List.mem_cons_self
  | worker hw => exact h.worker hsound hw
  | ofCall hm =>
    cases hm with
    | @submit c hc =>
      have hcall : s.ctl.call = some c := by rw [hc]; rfl
      refine ⟨?_, h.parent.submit hc, h.jobs.submit hc (h.parent.call c hcall).names.1,
        h.outcome.submit h.parent hsound hc⟩
      rw [submit]
      split_ifs
      · exact h.agent
      · exact h.agent
    | addCallback hc => exact h.addCallback hc
    | wait twinOk hc => exact h.waits hc twinOk
    | sink hc => exact h.sink hc
    | join hc => exact h.join hc
    | fallback failure hc => exact h.fallback hsound hc
    | template hc hnew => exact h.template hc
    | @register c hc =>
      refine ⟨h.agent, h.parent.register (by rw [hc]; rfl), ?_, h.outcome.register h.parent h.jobs hc⟩
      exact h.jobs.same rfl rfl (fun _ hk => hk) (fun c' hc' => by cases hc')
        fun c' hc' => by cases hc'
    | raise hc => exact h.idle ⟨rfl, rfl, rfl, rfl, rfl, rfl, rfl, rfl⟩ h.agent rfl

theorem Initial.chainInv [DecidableEq P] (h : Initial cfg s) : ChainInv m s := by
  have hunfinished : s.unfinished = [] := by rw [State.unfinished, h.queue, h.worker]; rfl
  have hcall : ∀ c, s.ctl.call ≠ some c := fun c hc => by rw [h.ctl] at hc; cases hc
  have hnone : ∀ id e, s.registry.find? id ≠ some e := fun id e he => by
    rw [h.registry, Dict.find?_empty] at he
    cases he
  refine ⟨h.agent, ⟨⟨⟨?_, ?_⟩, ?_⟩, ?_, ?_⟩, ⟨?_, ?_, ?_, ?_, ?_⟩, ⟨?_, ?_, ?_, ?_, ?_, ?_⟩⟩
  · exact fun id e he => absurd he (hnone id e)
  · exact fun id e _ _ he => absurd he (hnone id e)
  · exact fun id e he => absurd he (hnone id e)
  · exact fun c hc => absurd hc (hcall c)
  · simp [h.ctl, Ctl.early]
  · simp [hunfinished]
  · simp [h.futures, hunfinished]
  · simp [h.futures]
  · simp [h.ctl]
  · exact fun c hc => absurd hc (hcall c)
  · rintro p (⟨id, e, he, -⟩ | ⟨c, hc, -⟩)
    · exact absurd he (hnone id e)
    · exact absurd hc (hcall c)
  · rintro id (⟨e, he, -⟩ | ⟨c, hc, -⟩)
    · exact absurd he (hnone id e)
    · exact absurd hc (hcall c)
  · exact fun id e he => absurd he (hnone id e)
  · simp [h.ctl]
  · simp [h.ctl, Ctl.watching]
  · exact fun c hc => absurd hc (hcall c)

/-- No dump is in flight. -/
def Quiet (s : State M P C) : Prop := s.queue = [] ∧ s.worker = .idle

instance (s : State M P C) : Decidable (Quiet s) :=
  match hq : s.queue, hw : s.worker with
  | [], .idle => isTrue ⟨hq, hw⟩
  | _ :: _, _ => isFalse fun h => absurd (hq.symm.trans h.1) (by simp)
  | [], .running _ _ => isFalse fun h => absurd (hw.symm.trans h.2) (by simp)
  | [], .settled _ _ => isFalse fun h => absurd (hw.symm.trans h.2) (by simp)

/-- The images of the registry are in order. -/
structure ImagesSound (m : Modes) (s : State M P C) : Prop where
  /-- An entry without an error has a complete image that rests on complete images without errors, all
  of them of proper ancestors. -/
  entries : ∀ id e, s.registry.find? id = some e → e.strategy ≠ .lightweight → Clear s id →
    Complete s id ∧ ∃ ps, Rests m s.registry id ps ∧
      ∀ p ∈ ps, p ≠ id ∧ Above s.registry p e.parentId ∧ Clear s p ∧ Complete s p
  /-- An image of the full fallback stands alone. -/
  fallback : ∀ id e, s.registry.find? id = some e → e.fullFallback = true →
    e.prevCkptId = none ∧ Clear s id ∧ Complete s id

theorem ChainInv.complete (h : ChainInv m s) (hq : Quiet s) {e : Entry}
    (he : s.registry.find? id = some e) (hdump : e.strategy ≠ .lightweight) (hclear : Clear s id) :
    Complete s id := by
  obtain ⟨hqueue, hworker⟩ := hq
  have hunfinished : s.unfinished = [] := by rw [State.unfinished, hqueue, hworker]; rfl
  rcases h.outcome.entries id e he hdump hclear with (⟨hpending, -⟩ | ⟨job, f, hs, -⟩ | hc) | hfull
  · have hmem := (h.jobs.pending id).mp hpending
    rw [hunfinished] at hmem
    exact absurd hmem List.not_mem_nil
  · rw [hworker] at hs
    cases hs
  · exact hc.1
  · exact (h.outcome.fellBack id (Or.inl ⟨e, he, hfull⟩)).2

/-- **Incremental images rest on sound ones.** In every run in which no dump fails after it was chosen
as a parent or replaced by a full image, and in which no failure is overlooked between the end of a
dump and its callback, the images are in order whenever no dump is in flight. -/
theorem images_sound [DecidableEq P] {s₀ : State M P C} {labels : List (Label M P C)}
    (h₀ : Initial cfg s₀) (hsound : Along (step m cfg) (Sound m) s₀ labels)
    (hrun : exec (step m cfg) s₀ labels = some s) (hq : Quiet s) : ImagesSound m s := by
  have h : ChainInv m s :=
    invariant_along (fun hi hc hstep => hi.step hc hstep) h₀.chainInv hsound hrun
  refine ⟨fun id e he hdump hclear => ⟨h.complete hq he hdump hclear, ?_⟩, fun id e he hfull => ?_⟩
  · obtain ⟨ps, hps⟩ := (h.parent.registry.entries id e he).rests
    refine ⟨ps, hps, fun p hp => ?_⟩
    obtain ⟨hup, ep, hep, hdump'⟩ := hps.above he p hp
    have hrel : Relied s p := Or.inl (hps.relied p hp)
    have hclear' : Clear s p := (h.outcome.relied p hrel).1
    exact ⟨h.parent.registry.ranked.ne_of_above he hep hup, hup, hclear',
      h.complete hq hep hdump' hclear'⟩
  · have hentry := h.parent.registry.entries id e he
    obtain ⟨hstable, hcomplete⟩ := h.outcome.fellBack id (Or.inl ⟨e, he, hfull⟩)
    exact ⟨hentry.fallback hfull, hstable.1, hcomplete⟩

/-- In particular the nearest of them is. -/
theorem ImagesSound.prev (h : ImagesSound m s) {e : Entry} (he : s.registry.find? id = some e)
    (hdump : e.strategy ≠ .lightweight) (hclear : Clear s id) (hprev : e.prevCkptId = some p) :
    (∃ ep, s.registry.find? p = some ep ∧ Linked m e.dumpTreePid e.nsInitPid ep) ∧ Clear s p := by
  obtain ⟨-, ps, hrest, hps⟩ := h.entries id e he hdump hclear
  cases hrest with
  | full he' hnone =>
    rw [Option.some.inj (he'.symm.trans he), hprev] at hnone
    cases hnone
  | incremental he' hprev' hp _ _ hlink _ =>
    obtain rfl := Option.some.inj (he'.symm.trans he)
    obtain rfl := Option.some.inj (hprev'.symm.trans hprev)
    exact ⟨⟨_, hp, hlink⟩, (hps _ List.mem_cons_self).2.2.1⟩

/-! ### Runs with a failure -/

/-- A call from beginning to end. -/
def wholeCall (id : String) (parent : Option String) : List (Label ℕ ℕ ℕ) :=
  [.call parent "" ⟨id, false, true, false, none⟩ { exampleAnswers with bootstrap := none },
    .submit, .addCallback, .wait true, .sink, .join, .register]

/-- A dump that succeeds. -/
def goodDump : List (Label ℕ ℕ ℕ) := [.start, .read, .finish none, .callback]

/-- A dump that fails. -/
def badDump : List (Label ℕ ℕ ℕ) :=
  [.start, .finish (some ⟨"CalledProcessError", "criu"⟩), .callback]

/-- The second of three dumps fails. -/
def skippedRun : List (Label ℕ ℕ ℕ) :=
  wholeCall "a" none ++ goodDump ++ wholeCall "b" (some "a") ++ badDump ++
    wholeCall "c" (some "b") ++ goodDump

/-- What a run of the example leads to. -/
def outcome (m : Modes) (labels : List (Label ℕ ℕ ℕ)) : Option (State ℕ ℕ ℕ) :=
  exec (step m Overlay.exampleConfig) exampleStart labels

theorem images_sound_skippedRun :
    ∃ s, outcome plainModes skippedRun = some s ∧
      (s.registry.find? "c").bind Entry.prevCkptId = some "a" ∧ ImagesSound plainModes s := by
  have hout : ((outcome plainModes skippedRun).map fun s =>
      ((s.registry.find? "c").bind Entry.prevCkptId, decide (Quiet s))) = some (some "a", true) := by
    decide +kernel
  obtain ⟨s, hs, heq⟩ := Option.map_eq_some_iff.mp hout
  simp only [Prod.mk.injEq, decide_eq_true_eq] at heq
  obtain ⟨hprev, hq⟩ := heq
  exact ⟨s, hs, hprev, images_sound exampleStart_initial (by decide +kernel) hs hq⟩

/-- The parent of a dump fails after it was chosen. -/
def lateFailure : List (Label ℕ ℕ ℕ) :=
  wholeCall "a" none ++ wholeCall "b" (some "a") ++ badDump ++ goodDump

/-- Nobody asks whose image the parent's is. -/
def probeModes : Modes := { plainModes with probeCrossPid := true }

/-- Between two checkpoints the agent is restored under another process id. -/
def probeRun : List (Label ℕ ℕ ℕ) :=
  wholeCall "a" none ++ goodDump ++ .restore "a" "r" (some 20) true 0 :: wholeCall "b" (some "a") ++
    goodDump

/-- A warm template for every checkpoint. -/
def templateModes : Modes := { plainModes with warmTemplate := true, stashTemplate := true }

/-- The callback of a failed dump comes after the full fallback. -/
def lateCallback : List (Label ℕ ℕ ℕ) :=
  [.call none "" ⟨"a", false, true, false, none⟩ { exampleAnswers with bootstrap := some 11 },
    .submit, .addCallback, .wait true, .sink, .join, .register] ++ goodDump ++
  [.call (some "a") "" ⟨"b", false, true, false, none⟩
      { exampleAnswers with bootstrap := none, warmStash := none, dumpStash := none },
    .submit, .addCallback, .wait true, .sink, .start,
    .finish (some ⟨"CalledProcessError", "criu"⟩), .join, .fallback none, .callback,
    .template (some 12), .register]

theorem exists_entry {s : State ℕ ℕ ℕ} {id : String} {test : Entry → Bool}
    (h : (s.registry.find? id).any test = true) :
    ∃ e, s.registry.find? id = some e ∧ test e = true := by
  cases he : s.registry.find? id with
  | none =>
    rw [he] at h
    cases h
  | some e =>
    rw [he] at h
    exact ⟨e, rfl, h⟩

/-- The entry rests on "a" and seems to be in order. -/
def restsOnA (s : State ℕ ℕ ℕ) (e : Entry) : Bool :=
  e.prevCkptId = some "a" && e.strategy ≠ .lightweight && e.dumpError.isNone &&
    (s.stats.find? "b").isNone

theorem restsOnA_spec {s : State ℕ ℕ ℕ} {e : Entry} (he : s.registry.find? "b" = some e)
    (h : restsOnA s e = true) :
    e.prevCkptId = some "a" ∧ e.strategy ≠ .lightweight ∧ Clear s "b" := by
  simp only [restsOnA, Bool.and_eq_true, decide_eq_true_eq, Option.isNone_iff_eq_none] at h
  obtain ⟨⟨⟨hprev, hdump⟩, herror⟩, hstats⟩ := h
  refine ⟨hprev, hdump, hstats, fun e' he' => ?_⟩
  rw [Option.some.inj (he'.symm.trans he)]
  exact herror

/-- **The images are not always in order.** With the cross-pid probe an image may rest on that of another
process. And without it, an image may rest on one that failed later, and the error of a dump may come
back after the full fallback has replaced it. -/
theorem images_unsound :
    (∃ s, outcome probeModes probeRun = some s ∧ Quiet s ∧ ¬ ImagesSound plainModes s) ∧
    (∃ s, outcome plainModes lateFailure = some s ∧ Quiet s ∧ ¬ ImagesSound plainModes s) ∧
    ∃ s, outcome templateModes lateCallback = some s ∧ Quiet s ∧ ¬ ImagesSound templateModes s := by
  refine ⟨?_, ?_, ?_⟩
  · have hout : ((outcome probeModes probeRun).map fun s => (decide (Quiet s),
        (s.registry.find? "b").any fun e => restsOnA s e && e.dumpTreePid = 20,
        (s.registry.find? "a").any fun e => e.dumpTreePid = 10)) = some (true, true, true) := by
      decide +kernel
    obtain ⟨s, hs, heq⟩ := Option.map_eq_some_iff.mp hout
    simp only [Prod.mk.injEq, decide_eq_true_eq] at heq
    obtain ⟨hq, hb, ha⟩ := heq
    refine ⟨s, hs, hq, fun hsound => ?_⟩
    obtain ⟨e, he, hrest⟩ := exists_entry hb
    obtain ⟨ea, hea, hpid⟩ := exists_entry ha
    rw [Bool.and_eq_true, decide_eq_true_eq] at hrest
    rw [decide_eq_true_eq] at hpid
    obtain ⟨hprev, hdump, hclear⟩ := restsOnA_spec he hrest.1
    obtain ⟨⟨ep, hep, hlink⟩, -⟩ := hsound.prev he hdump hclear hprev
    obtain rfl := Option.some.inj (hep.symm.trans hea)
    rcases hlink with hsame | ⟨hfixed, -⟩ | hprobe
    · rw [hpid, hrest.2] at hsame
      cases hsame
    · cases hfixed
    · cases hprobe
  · have hout : ((outcome plainModes lateFailure).map fun s => (decide (Quiet s),
        (s.registry.find? "b").any (restsOnA s), (s.stats.find? "a").isSome)) =
          some (true, true, true) := by
      decide +kernel
    obtain ⟨s, hs, heq⟩ := Option.map_eq_some_iff.mp hout
    simp only [Prod.mk.injEq, decide_eq_true_eq] at heq
    obtain ⟨hq, hb, ha⟩ := heq
    refine ⟨s, hs, hq, fun hsound => ?_⟩
    obtain ⟨e, he, hrest⟩ := exists_entry hb
    obtain ⟨hprev, hdump, hclear⟩ := restsOnA_spec he hrest
    obtain ⟨-, hstats, -⟩ := hsound.prev he hdump hclear hprev
    rw [hstats] at ha
    cases ha
  · have hout : ((outcome templateModes lateCallback).map fun s => (decide (Quiet s),
        (s.registry.find? "b").any Entry.fullFallback, (s.stats.find? "b").isSome)) =
          some (true, true, true) := by
      decide +kernel
    obtain ⟨s, hs, heq⟩ := Option.map_eq_some_iff.mp hout
    simp only [Prod.mk.injEq, decide_eq_true_eq] at heq
    obtain ⟨hq, hb, hstats⟩ := heq
    refine ⟨s, hs, hq, fun hsound => ?_⟩
    obtain ⟨e, he, hfull⟩ := exists_entry hb
    obtain ⟨-, ⟨hnone, -⟩, -⟩ := hsound.fallback "b" e he hfull
    rw [hnone] at hstats
    cases hstats

end Legacy

end DeltaBox
