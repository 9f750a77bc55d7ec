import DeltaBox.Restamp.Cache

/-!
# The copies of parent images

A copy belongs to one call of `_prepare_restamp_parent_copy`, from the moment its directory has its
final name. A checkpoint cannot pick up a copy of another image (`Sound`), and after it has picked one
up nothing is left of it to be picked up again.

The cache loses track of a copy when an entry goes whose future is done: the name of the directory is
in the result of the future, and an entry that goes is asked for its own `cache_dir`. While that does
not happen, each directory has its entry or its preparation (`Kept`).

## Main results

* `sound_step`, `kept_step` — what a step keeps
* `copies_kept` — the statement about runs
* `forgotten_copy` — a run that loses a directory
-/

namespace DeltaBox

namespace Restamp

open Machine

variable {s t : State} {cfg : Config} {id : String} {j : ℕ} {job : Job} {st : Stage} {e : Entry}

/-! ### Stages -/

theorem jobs_setStage (hj : s.jobs[j]? = some job) (k : ℕ) :
    (s.setStage j st).jobs[k]? = if k = j then some { job with stage := st } else s.jobs[k]? := by
  simp only [State.setStage, List.getElem?_modify]
  by_cases hk : k = j
  · subst hk
    rw [if_pos rfl, hj]
    simp
  · simp [hk, Ne.symm hk]

theorem jobs_setStage_self (hj : s.jobs[j]? = some job) :
    (s.setStage j st).jobs[j]? = some { job with stage := st } := by
  rw [jobs_setStage hj, if_pos rfl]

/-- The stage of another job. -/
theorem jobs_setStage_of_ne (hj : s.jobs[j]? = some job) {k : ℕ} {job' : Job}
    (hk : s.jobs[k]? = some job') (hne : job'.stage ≠ job.stage) :
    (s.setStage j st).jobs[k]? = some job' := by
  rw [jobs_setStage hj, if_neg, hk]
  rintro rfl
  rw [hj] at hk
  exact hne (congrArg Job.stage (Option.some.inj hk)).symm

/-! ### What every step keeps -/

/-- Copies, entries and jobs fit together. -/
structure Sound (s : State) : Prop where
  future : ∀ id e j, s.cache.find? id = some e → e.future = some j →
    ∃ job, s.jobs[j]? = some job ∧ job.ckptId = id
  /-- A job that is not done is in the entry of its checkpoint. -/
  live : ∀ (j : ℕ) (job : Job), s.jobs[j]? = some job → job.stage.isDone = false →
    ∃ e, s.cache.find? job.ckptId = some e ∧ e.future = some j
  named : ∀ id e d, s.cache.find? id = some e → e.cacheDir = some d → d = .cache id
  image : ∀ (j : ℕ) (job : Job), s.jobs[j]? = some job → (job.ckptId, job.parentMemPath) ∈ s.images
  call : ∀ call, s.call = some call → (call.ckptId, call.parentMemPath) ∈ s.images
  cached : ∀ id copy, s.disk.find? (.cache id) = some copy → ∃ st,
    s.jobs[copy.job]? = some ⟨id, copy.parentMemPath, st⟩ ∧ (st = .moved ∨ st = .done true)
  handed : ∀ x ∈ s.handed, s.jobs[x.copy.job]? =
      some ⟨x.ckptId, x.copy.parentMemPath, .done true⟩ ∧
    ∀ id copy, s.disk.find? (.cache id) = some copy → copy.job ≠ x.copy.job
  once : (s.handed.map fun x => x.copy.job).Nodup

theorem sound_init : Sound .init where
  future _ _ _ h := nomatch h
  live _ _ h := nomatch h
  named _ _ _ h := nomatch h
  image _ _ h := nomatch h
  call _ h := nomatch h
  cached _ _ h := nomatch h
  handed _ h := nomatch h
  once := List.nodup_nil

/-- Nothing is said of the worker, and more images do no harm. -/
theorem Sound.congr (h : Sound s) (hcache : t.cache = s.cache) (hjobs : t.jobs = s.jobs)
    (hdisk : t.disk = s.disk) (himages : s.images ⊆ t.images) (hhanded : t.handed = s.handed)
    (hcall : ∀ call, t.call = some call → (call.ckptId, call.parentMemPath) ∈ t.images) :
    Sound t where
  future := by
    rw [hcache, hjobs]
    exact h.future
  live := by
    rw [hcache, hjobs]
    exact h.live
  named := by
    rw [hcache]
    exact h.named
  image := by
    rw [hjobs]
    exact fun j job hj => himages (h.image j job hj)
  call := hcall
  cached := by
    rw [hdisk, hjobs]
    exact h.cached
  handed := by
    rw [hhanded, hdisk, hjobs]
    exact h.handed
  once := by
    rw [hhanded]
    exact h.once

/-- A job that is not done moves on. -/
theorem Sound.setStage (h : Sound s) (hj : s.jobs[j]? = some job) (hlive : job.stage.isDone = false)
    (hmoved : job.stage = .moved → st = .done true) : Sound (s.setStage j st) where
  future id e k he hk := by
    obtain ⟨job', hjob', hid⟩ := h.future id e k he hk
    rw [jobs_setStage hj]
    split_ifs with hkj
    · subst hkj
      rw [hj] at hjob'
      obtain rfl := Option.some.inj hjob'
      exact ⟨_, rfl, hid⟩
    · exact ⟨job', hjob', hid⟩
  live k job' hk hdone := by
    rw [jobs_setStage hj] at hk
    split_ifs at hk with hkj
    · subst hkj
      obtain rfl := Option.some.inj hk
      exact h.live k job hj hlive
    · exact h.live k job' hk hdone
  named := h.named
  image k job' hk := by
    rw [jobs_setStage hj] at hk
    split_ifs at hk
    · obtain rfl := Option.some.inj hk
      exact h.image j job hj
    · exact h.image k job' hk
  call := h.call
  cached id copy hcopy := by
    obtain ⟨st', hk, hst'⟩ := h.cached id copy hcopy
    rw [jobs_setStage hj]
    split_ifs with hkj
    · rw [hkj, hj] at hk
      obtain rfl := Option.some.inj hk
      rcases hst' with rfl | rfl
      · exact ⟨st, rfl, .inr (hmoved rfl)⟩
      · cases hlive
    · exact ⟨st', hk, hst'⟩
  handed x hx := by
    obtain ⟨hk, hdisk⟩ := h.handed x hx
    refine ⟨?_, hdisk⟩
    rw [jobs_setStage hj, if_neg, hk]
    intro hkj
    rw [hkj, hj] at hk
    obtain rfl := Option.some.inj hk
    cases hlive
  once := h.once

/-- Directories that go, or are temporary, do no harm. -/
theorem Sound.disk (h : Sound s) {disk : Dict Dir Copy}
    (hdisk : ∀ id copy, disk.find? (.cache id) = some copy → s.disk.find? (.cache id) = some copy) :
    Sound { s with disk } where
  future := h.future
  live := h.live
  named := h.named
  image := h.image
  call := h.call
  cached id copy hcopy := h.cached id copy (hdisk id copy hcopy)
  handed x hx := ⟨(h.handed x hx).1, fun id copy hcopy => (h.handed x hx).2 id copy (hdisk id copy hcopy)⟩
  once := h.once

/-- An entry goes, and no job needs it. -/
theorem Sound.erase (h : Sound s)
    (hfree : ∀ (j : ℕ) (job : Job), s.jobs[j]? = some job → job.stage.isDone = false → job.ckptId ≠ id) :
    Sound { s with cache := s.cache.erase id } where
  future id' e j he hj := by
    rw [Dict.find?_erase] at he
    split_ifs at he
    exact h.future id' e j he hj
  live j job hj hdone := by
    rw [Dict.find?_erase, if_neg (hfree j job hj hdone)]
    exact h.live j job hj hdone
  named id' e d he hd := by
    rw [Dict.find?_erase] at he
    split_ifs at he
    exact h.named id' e d he hd
  image := h.image
  call := h.call
  cached := h.cached
  handed := h.handed
  once := h.once

/-- The job of the entry is the only one that may need it. -/
theorem Sound.free (h : Sound s) (he : s.cache.find? id = some e)
    (hdone : ∀ j (job : Job), e.future = some j → s.jobs[j]? = some job → job.stage.isDone = true) :
    ∀ (j : ℕ) (job : Job), s.jobs[j]? = some job → job.stage.isDone = false → job.ckptId ≠ id := by
  rintro j job hj hlive rfl
  obtain ⟨e', he', hfuture⟩ := h.live j job hj hlive
  rw [he] at he'
  obtain rfl := Option.some.inj he'
  rw [hdone j job hfuture hj] at hlive
  cases hlive

theorem find?_of_erase {disk : Dict Dir Copy} {d d' : Dir} {copy : Copy}
    (h : (disk.erase d).find? d' = some copy) : disk.find? d' = some copy := by
  rw [Dict.find?_erase] at h
  split_ifs at h
  exact h

theorem Sound.pop (h : Sound s) {removed : Bool} (he : s.cache.find? id = some e)
    (hdone : ∀ j (job : Job), e.future = some j → s.jobs[j]? = some job → job.stage.isDone = true) :
    Sound (s.pop id e removed) := by
  refine (h.erase (h.free he hdone)).disk fun id' copy hcopy => ?_
  cases removed with
  | false => exact hcopy
  | true =>
    obtain ⟨future, path, ok, _ | d⟩ := e
    · exact hcopy
    · exact find?_of_erase hcopy

/-! ### The calls -/

/-- What the loop does about another checkpoint's entry. -/
theorem drop_cases (s : State) (ckptId oldId : String) (removed : Bool) :
    s.drop ckptId oldId removed = s ∧ (oldId = ckptId ∨ s.cache.find? oldId = none ∨
        ∃ e j job, s.cache.find? oldId = some e ∧ e.future = some j ∧ s.jobs[j]? = some job ∧
          job.stage.running = true) ∨
      ∃ e, s.cache.find? oldId = some e ∧ oldId ≠ ckptId ∧
        (s.drop ckptId oldId removed = s.pop oldId e removed ∧
            (∀ j job, e.future = some j → s.jobs[j]? = some job → job.stage.isDone = true) ∨
          ∃ j job, e.future = some j ∧ s.jobs[j]? = some job ∧ job.stage = .queued ∧
            s.drop ckptId oldId removed = (s.setStage j .cancelled).pop oldId e removed) := by
  unfold State.drop
  by_cases hid : oldId = ckptId
  · exact .inl ⟨if_pos hid, .inl hid⟩
  rw [if_neg hid]
  cases he : s.cache.find? oldId with
  | none => exact .inl ⟨rfl, .inr (.inl rfl)⟩
  | some e =>
    cases hfuture : e.future with
    | none =>
      refine .inr ⟨e, rfl, hid, .inl ⟨by simp [hfuture], ?_⟩⟩
      simp [hfuture]
    | some j =>
      cases hj : s.jobs[j]? with
      | none =>
        refine .inr ⟨e, rfl, hid, .inl ⟨by simp [hfuture, hj], ?_⟩⟩
        rintro k job hk hjob
        obtain rfl := Option.some.inj (hfuture.symm.trans hk)
        simp [hj] at hjob
      | some job =>
        have hall : job.stage.isDone = true → ∀ k job', e.future = some k →
            s.jobs[k]? = some job' → job'.stage.isDone = true := by
          rintro hdone k job' hk hjob
          obtain rfl := Option.some.inj (hfuture.symm.trans hk)
          obtain rfl := Option.some.inj (hj.symm.trans hjob)
          exact hdone
        cases hstage : job.stage with
        | queued => exact .inr ⟨e, rfl, hid, .inr ⟨j, job, hfuture, hj, hstage, by simp [hfuture, hj, hstage]⟩⟩
        | cancelled =>
          exact .inr ⟨e, rfl, hid, .inl ⟨by simp [hfuture, hj, hstage, Stage.isDone],
            hall (by rw [hstage]; rfl)⟩⟩
        | done ok =>
          exact .inr ⟨e, rfl, hid, .inl ⟨by simp [hfuture, hj, hstage, Stage.isDone],
            hall (by rw [hstage]; rfl)⟩⟩
        | _ =>
          refine .inl ⟨by simp [hfuture, hj, hstage, Stage.isDone], .inr (.inr ?_)⟩
          exact ⟨e, j, job, rfl, hfuture, hj, by rw [hstage]; rfl⟩

theorem Sound.drop (h : Sound s) (ckptId oldId : String) (removed : Bool) :
    Sound (s.drop ckptId oldId removed) := by
  rcases drop_cases s ckptId oldId removed with
    ⟨heq, -⟩ | ⟨e, he, -, ⟨heq, hdone⟩ | ⟨j, job, hfuture, hj, hstage, heq⟩⟩
  · rwa [heq]
  · rw [heq]
    exact h.pop he hdone
  · rw [heq]
    have hset : Sound (s.setStage j .cancelled) :=
      h.setStage hj (by rw [hstage]; rfl) (by simp [hstage])
    refine hset.pop he fun k job' hk hjob => ?_
    obtain rfl := Option.some.inj (hfuture.symm.trans hk)
    rw [jobs_setStage hj, if_pos rfl] at hjob
    obtain rfl := Option.some.inj hjob
    rfl

theorem Sound.add (h : Sound s) {path : String} (himage : (id, path) ∈ s.images)
    (hprepared : s.prepared id = false) : Sound (s.add id path) := by
  have hjobs : ∀ {k : ℕ} {job : Job}, s.jobs[k]? = some job → (s.add id path).jobs[k]? = some job := by
    intro k job hk
    rw [State.add, List.getElem?_append_left (List.getElem?_eq_some_iff.mp hk).1, hk]
  have hnew : ∀ {k : ℕ} {job : Job}, (s.add id path).jobs[k]? = some job →
      s.jobs[k]? = some job ∨ k = s.jobs.length ∧ job = ⟨id, path, .queued⟩ := by
    intro k job hk
    rw [State.add, List.getElem?_append] at hk
    split_ifs at hk with hlt
    · exact .inl hk
    · obtain ⟨hlen, hjob⟩ := List.getElem?_eq_some_iff.mp hk
      simp only [List.length_singleton, Nat.lt_one_iff] at hlen
      simp only [hlen, List.getElem_cons_zero] at hjob
      exact .inr ⟨by omega, hjob.symm⟩
  have hfree : ∀ (k : ℕ) (job : Job), s.jobs[k]? = some job → job.stage.isDone = false →
      job.ckptId ≠ id := by
    rintro k job hk hdone rfl
    obtain ⟨e, he, hfuture⟩ := h.live k job hk hdone
    simp [State.prepared, he, hfuture] at hprepared
  exact {
    future := by
      intro id' e k he hk
      rw [State.add, Dict.find?_set] at he
      split_ifs at he with hid
      · obtain rfl := Option.some.inj he
        obtain rfl := Option.some.inj hk
        exact ⟨_, by rw [State.add, List.getElem?_concat_length], hid.symm⟩
      · obtain ⟨job, hjob, hjobId⟩ := h.future id' e k he hk
        exact ⟨job, hjobs hjob, hjobId⟩
    live := by
      intro k job hk hdone
      rw [State.add, Dict.find?_set]
      rcases hnew hk with hk | ⟨rfl, rfl⟩
      · rw [if_neg (hfree k job hk hdone)]
        exact h.live k job hk hdone
      · exact ⟨_, if_pos rfl, rfl⟩
    named := by
      intro id' e d he hd
      rw [State.add, Dict.find?_set] at he
      split_ifs at he
      · obtain rfl := Option.some.inj he
        cases hd
      · exact h.named id' e d he hd
    image := by
      intro k job hk
      rcases hnew hk with hk | ⟨-, rfl⟩
      · exact h.image k job hk
      · exact himage
    call := h.call
    cached := by
      intro id' copy hcopy
      obtain ⟨st, hk, hst⟩ := h.cached id' copy hcopy
      exact ⟨st, hjobs hk, hst⟩
    handed := fun x hx => ⟨hjobs (h.handed x hx).1, (h.handed x hx).2⟩
    once := h.once }

theorem Sound.prepare (h : Sound s) (hj : s.jobs[j]? = some job) (ok : Bool) :
    Sound (s.prepare j job ok) := by
  have hset : ∀ st, job.stage.isDone = false → (job.stage = .moved → st = .done true) →
      Sound (s.setStage j st) := fun st => h.setStage hj
  have hworker : ∀ {t : State}, Sound t → Sound { t with worker := none } := fun ht =>
    ht.congr rfl rfl rfl (List.Subset.refl _) rfl ht.call
  cases hstage : job.stage with
  | started =>
    have hset := fun st => hset st (by rw [hstage]; rfl) (by simp [hstage])
    cases ok with
    | false =>
      simp only [State.prepare, hstage]
      exact hworker (hset _)
    | true =>
      simp only [State.prepare, hstage, if_true]
      refine (hset .copying).disk fun id copy hcopy => ?_
      rwa [Dict.find?_set_of_ne _ _ (by simp)] at hcopy
  | copying =>
    have hset := fun st => hset st (by rw [hstage]; rfl) (by simp [hstage])
    cases ok with
    | false =>
      simp only [State.prepare, hstage]
      exact hworker (hset _)
    | true =>
      simp only [State.prepare, hstage, if_true]
      exact (hset .cleared).disk fun id copy hcopy => find?_of_erase hcopy
  | cleared =>
    have hset := fun st => hset st (by rw [hstage]; rfl) (by simp [hstage])
    cases ok with
    | false =>
      simp only [State.prepare, hstage]
      exact hworker (hset _)
    | true =>
      simp only [State.prepare, hstage, if_true]
      have hmoved := hset .moved
      have hcases : ∀ {id copy}, ((s.disk.erase (.tmp job.ckptId j)).set (.cache job.ckptId)
          ⟨job.parentMemPath, j⟩).find? (.cache id) = some copy →
          id = job.ckptId ∧ copy = ⟨job.parentMemPath, j⟩ ∨
            s.disk.find? (.cache id) = some copy := by
        intro id copy hcopy
        rw [Dict.find?_set] at hcopy
        split_ifs at hcopy with hid
        · exact .inl ⟨by simpa using hid, (Option.some.inj hcopy).symm⟩
        · exact .inr (find?_of_erase hcopy)
      exact {
        future := hmoved.future
        live := hmoved.live
        named := hmoved.named
        image := hmoved.image
        call := hmoved.call
        cached := by
          intro id copy hcopy
          rcases hcases hcopy with ⟨rfl, rfl⟩ | hcopy
          · exact ⟨.moved, jobs_setStage_self hj, .inl rfl⟩
          · exact hmoved.cached id copy hcopy
        handed := by
          intro x hx
          refine ⟨(hmoved.handed x hx).1, fun id copy hcopy => ?_⟩
          rcases hcases hcopy with ⟨rfl, rfl⟩ | hcopy
          · rintro rfl
            have hjob := (h.handed x hx).1
            rw [hj] at hjob
            rw [Option.some.inj hjob] at hstage
            cases hstage
          · exact (h.handed x hx).2 id copy hcopy
        once := hmoved.once }
  | moved =>
    simp only [State.prepare, hstage]
    exact hworker (hset _ (by rw [hstage]; rfl) fun _ => rfl)
  | _ =>
    simp only [State.prepare, hstage]
    exact h

/-- What a call does that finds a usable copy, or none. -/
theorem hand_cases (s : State) (id : String) (e : Entry) (replaced finalized : Bool) :
    s.hand id e replaced finalized = s ∨ ∃ d copy, e.cacheDir = some d ∧ s.disk.find? d = some copy ∧
      s.hand id e replaced finalized = { s with
        disk := s.disk.erase d
        cache := s.cache.erase id
        handed := if finalized then s.handed ++ [⟨id, copy⟩] else s.handed } := by
  unfold State.hand
  split
  · exact .inl rfl
  · rename_i d hd
    split
    · exact .inl rfl
    · rename_i copy hcopy
      cases replaced with
      | true => exact .inr ⟨d, copy, (Option.filter_eq_some_iff.mp hd).1, hcopy, rfl⟩
      | false => exact .inl rfl

theorem Sound.hand (h : Sound s) (he : s.cache.find? id = some e) (hfuture : e.future = none)
    (replaced finalized : Bool) : Sound (s.hand id e replaced finalized) := by
  rcases hand_cases s id e replaced finalized with heq | ⟨d, copy, hd, hcopy, heq⟩
  · rwa [heq]
  rw [heq]
  obtain rfl := h.named id e d he hd
  have hfree := h.free he (by simp [hfuture])
  have herased := @Sound.disk _ (h.erase hfree) (s.disk.erase (.cache id))
    fun id' copy' hcopy' => find?_of_erase hcopy'
  obtain ⟨st, hjob, hst⟩ := h.cached id copy hcopy
  have hdone : st = .done true := by
    rcases hst with rfl | rfl
    · exact absurd rfl (hfree _ _ hjob rfl)
    · rfl
  subst hdone
  have hother : ∀ id' copy', (s.disk.erase (.cache id)).find? (.cache id') = some copy' →
      copy'.job ≠ copy.job := by
    intro id' copy' hcopy' hsame
    obtain ⟨st', hjob', -⟩ := h.cached id' copy' (find?_of_erase hcopy')
    rw [hsame, hjob] at hjob'
    simp only [Option.some.injEq, Job.mk.injEq] at hjob'
    rw [← hjob'.1, Dict.find?_erase_self] at hcopy'
    cases hcopy'
  cases finalized with
  | false => exact herased
  | true =>
    exact {
      future := herased.future
      live := herased.live
      named := herased.named
      image := herased.image
      call := herased.call
      cached := herased.cached
      handed := by
        intro x hx
        rcases List.mem_append.mp hx with hx | hx
        · exact herased.handed x hx
        · obtain rfl := List.mem_singleton.mp hx
          exact ⟨hjob, hother⟩
      once := by
        simp only [if_true, List.map_append, List.map_cons, List.map_nil]
        refine h.once.append (List.nodup_singleton _) (List.disjoint_singleton.mpr ?_)
        intro hmem
        obtain ⟨x, hx, hsame⟩ := List.mem_map.mp hmem
        exact (h.handed x hx).2 id copy hcopy hsame.symm }

/-- What `_consume_async_parent_restamp` works with. -/
theorem consume_cases (s : State) (id : String) (replaced finalized : Bool) :
    s.consume id replaced finalized = s ∨
      ∃ e, s.cache.find? id = some e ∧
        (e.future = none ∧ s.consume id replaced finalized = s.hand id e replaced finalized ∨
          ∃ j job ok, e.future = some j ∧ s.jobs[j]? = some job ∧ job.stage = .done ok ∧
            s.consume id replaced finalized =
              State.hand { s with cache := s.cache.set id (e.update id job ok) } id
                (e.update id job ok) replaced finalized) := by
  unfold State.consume
  cases he : s.cache.find? id with
  | none => exact .inl rfl
  | some e =>
    cases hfuture : e.future with
    | none => exact .inr ⟨e, rfl, .inl ⟨hfuture, by simp [hfuture]⟩⟩
    | some j =>
      cases hj : s.jobs[j]? with
      | none => exact .inl (by simp [hfuture, hj])
      | some job =>
        obtain ⟨ckptId, path, stage⟩ := job
        cases stage with
        | done ok =>
          refine .inr ⟨e, rfl, .inr ⟨j, ⟨ckptId, path, .done ok⟩, ok, hfuture, hj, rfl, ?_⟩⟩
          simp [hfuture, hj, Entry.update]
        | _ => exact .inl (by simp [hfuture, hj])

theorem Sound.update (h : Sound s) {ok : Bool} (he : s.cache.find? id = some e)
    (hfuture : e.future = some j) (hj : s.jobs[j]? = some job) (hstage : job.stage = .done ok) :
    Sound { s with cache := s.cache.set id (e.update id job ok) } := by
  have hfree := h.free he (by
    intro k job' hk hjob
    obtain rfl := Option.some.inj (hfuture.symm.trans hk)
    obtain rfl := Option.some.inj (hj.symm.trans hjob)
    rw [hstage]
    rfl)
  exact {
    future := by
      intro id' e' k he' hk
      rw [Dict.find?_set] at he'
      split_ifs at he'
      · obtain rfl := Option.some.inj he'
        cases hk
      · exact h.future id' e' k he' hk
    live := by
      intro k job' hk hdone
      rw [Dict.find?_set, if_neg (hfree k job' hk hdone)]
      exact h.live k job' hk hdone
    named := by
      intro id' e' d he' hd
      rw [Dict.find?_set] at he'
      split_ifs at he' with hid
      · obtain rfl := Option.some.inj he'
        subst hid
        cases ok with
        | true => exact (Option.some.inj hd).symm
        | false => exact h.named id' e d he hd
      · exact h.named id' e' d he' hd
    image := h.image
    call := h.call
    cached := h.cached
    handed := h.handed
    once := h.once }

theorem Sound.consume (h : Sound s) (id : String) (replaced finalized : Bool) :
    Sound (s.consume id replaced finalized) := by
  rcases consume_cases s id replaced finalized with
    heq | ⟨e, he, ⟨hfuture, heq⟩ | ⟨j, job, ok, hfuture, hj, hstage, heq⟩⟩
  · rwa [heq]
  · rw [heq]
    exact h.hand he hfuture replaced finalized
  · rw [heq]
    refine (h.update he hfuture hj hstage).hand (Dict.find?_set_self _ _ _) rfl replaced finalized

/-! ### Steps -/

/-- What a step does. -/
theorem step_cases {l : Label} (hstep : step cfg s l = some t) :
    match l with
    | .schedule id entry => s.call = none ∧ (cfg.admits entry = none ∧ t = s ∨
        ∃ path, cfg.admits entry = some path ∧ t = { s with
          call := some ⟨id, path, s.cache.keys⟩, images := s.images ++ [(id, path)] })
    | .look removed => ∃ call oldId todo, s.call = some call ∧ call.todo = oldId :: todo ∧
        t = { s.drop call.ckptId oldId removed with call := some { call with todo } }
    | .submit => ∃ call, s.call = some call ∧ call.todo = [] ∧
        (s.prepared call.ckptId = true ∧ t = { s with call := none } ∨
          s.prepared call.ckptId = false ∧
            t = { s.add call.ckptId call.parentMemPath with call := none })
    | .start => ∃ (j : ℕ) (job : Job), s.jobs[j]? = some job ∧ job.stage = .queued ∧
        t = { s.setStage j .started with worker := some j }
    | .prepare ok => ∃ j job, s.worker = some j ∧ s.jobs[j]? = some job ∧ t = s.prepare j job ok
    | .consume id replaced finalized => s.call = none ∧ t = s.consume id replaced finalized := by
  cases l with
  | schedule id entry =>
    cases hcall : s.call with
    | some call => simp [step, hcall] at hstep
    | none =>
      refine ⟨rfl, ?_⟩
      cases hadmits : cfg.admits entry with
      | none =>
        simp only [step, hcall, hadmits] at hstep
        exact .inl ⟨rfl, (Option.some.inj hstep).symm⟩
      | some path =>
        simp only [step, hcall, hadmits] at hstep
        exact .inr ⟨path, rfl, (Option.some.inj hstep).symm⟩
  | look removed =>
    simp only [step, Option.bind_eq_some_iff, Option.map_eq_some_iff] at hstep
    obtain ⟨call, hcall, oldId, hhead, rfl⟩ := hstep
    obtain ⟨todo, htodo⟩ := List.head?_eq_some_iff.mp hhead
    exact ⟨call, oldId, todo, hcall, htodo, by rw [htodo, List.tail_cons]⟩
  | submit =>
    simp only [step, Option.bind_eq_some_iff] at hstep
    obtain ⟨call, hcall, hstep⟩ := hstep
    split_ifs at hstep with htodo hprepared
    · exact ⟨call, hcall, htodo, .inl ⟨hprepared, (Option.some.inj hstep).symm⟩⟩
    · exact ⟨call, hcall, htodo, .inr ⟨eq_false_of_ne_true hprepared, (Option.some.inj hstep).symm⟩⟩
  | start =>
    simp only [step] at hstep
    split_ifs at hstep
    obtain ⟨j, hj, rfl⟩ := Option.map_eq_some_iff.mp hstep
    have hqueued := List.find?_some hj
    obtain ⟨job, hjob, hstage⟩ := (Option.any_eq_true _ _).mp hqueued
    exact ⟨j, job, hjob, by simpa using hstage, rfl⟩
  | prepare ok =>
    simp only [step, Option.bind_eq_some_iff, Option.map_eq_some_iff] at hstep
    obtain ⟨j, hworker, job, hj, rfl⟩ := hstep
    exact ⟨j, job, hworker, hj, rfl⟩
  | consume id replaced finalized =>
    simp only [step] at hstep
    split_ifs at hstep with hcall
    exact ⟨hcall, (Option.some.inj hstep).symm⟩

theorem drop_images (s : State) (ckptId oldId : String) (removed : Bool) :
    (s.drop ckptId oldId removed).images = s.images := by
  rcases drop_cases s ckptId oldId removed with
    ⟨heq, -⟩ | ⟨e, he, -, ⟨heq, -⟩ | ⟨j, job, -, -, -, heq⟩⟩ <;> rw [heq] <;> rfl

/-- **A step keeps copies, entries and jobs together.** -/
theorem sound_step {l : Label} (h : Sound s) (hstep : step cfg s l = some t) : Sound t := by
  have hcases := step_cases hstep
  cases l with
  | schedule id entry =>
    obtain ⟨-, ⟨-, rfl⟩ | ⟨path, -, rfl⟩⟩ := hcases
    · exact h
    · refine h.congr rfl rfl rfl (List.subset_append_left _ _) rfl fun call hcall => ?_
      obtain rfl := Option.some.inj hcall
      simp
  | look removed =>
    obtain ⟨call, oldId, todo, hcall, -, rfl⟩ := hcases
    refine (h.drop call.ckptId oldId removed).congr rfl rfl rfl (List.Subset.refl _) rfl ?_
    intro call' hcall'
    obtain rfl := Option.some.inj hcall'
    simp only [drop_images]
    exact h.call call hcall
  | submit =>
    obtain ⟨call, hcall, -, ⟨-, rfl⟩ | ⟨hprepared, rfl⟩⟩ := hcases
    · exact h.congr rfl rfl rfl (List.Subset.refl _) rfl fun _ hcall => by cases hcall
    · exact (h.add (h.call call hcall) hprepared).congr rfl rfl rfl (List.Subset.refl _) rfl
        fun _ hcall => by cases hcall
  | start =>
    obtain ⟨j, job, hj, hstage, rfl⟩ := hcases
    have hset : Sound (s.setStage j .started) :=
      h.setStage hj (by rw [hstage]; rfl) (by simp [hstage])
    exact hset.congr rfl rfl rfl (List.Subset.refl _) rfl hset.call
  | prepare ok =>
    obtain ⟨j, job, -, hj, rfl⟩ := hcases
    exact h.prepare hj ok
  | consume id replaced finalized =>
    obtain ⟨-, rfl⟩ := hcases
    exact h.consume id replaced finalized

/-! ### What restricted runs keep -/

/-- Each directory has its preparation, or its entry. -/
structure Kept (s : State) : Prop extends Sound s where
  tmp : ∀ id j copy, s.disk.find? (.tmp id j) = some copy →
    ∃ job : Job, s.jobs[j]? = some job ∧ job.ckptId = id ∧
      (job.stage = .copying ∨ job.stage = .cleared)
  entry : ∀ id copy, s.disk.find? (.cache id) = some copy → ∃ e, s.cache.find? id = some e ∧
    ((∃ (j : ℕ) (job : Job), e.future = some j ∧ s.jobs[j]? = some job ∧
        (job.stage = .moved ∨ job.stage = .done true)) ∨
      e.future = none ∧ e.cacheDir = some (.cache id))
  /-- The loop has left only entries whose preparation was running, and still is. -/
  passed : ∀ call, s.call = some call → ∀ id copy, id ≠ call.ckptId → id ∉ call.todo →
    s.disk.find? (.cache id) = some copy → ∃ (j : ℕ) (job : Job), s.jobs[j]? = some job ∧ job.ckptId = id ∧
      job.stage = .moved

theorem kept_init : Kept .init where
  toSound := sound_init
  tmp _ _ _ h := nomatch h
  entry _ _ h := nomatch h
  passed _ h := nomatch h

/-- After the loop, what is left is the checkpoint's or is being made. -/
theorem Kept.clean (h : Kept s) {call : Call} (hcall : s.call = some call) (htodo : call.todo = []) :
    s.Clean call.ckptId := by
  intro d hd
  obtain ⟨copy, hcopy⟩ := Dict.mem_keys_iff.mp hd
  cases d with
  | tmp id j =>
    obtain ⟨job, hj, -, hstage⟩ := h.tmp id j copy hcopy
    refine .inr ?_
    rcases hstage with hstage | hstage <;> simp [State.InWork, hj, hstage, Stage.running]
  | cache id =>
    by_cases hid : id = call.ckptId
    · exact .inl hid
    · obtain ⟨j, job, hj, hjobId, hstage⟩ :=
        h.passed call hcall id copy hid (by simp [htodo]) hcopy
      exact .inr ⟨job, List.mem_of_getElem? hj, hjobId, by rw [hstage]; rfl⟩

/-- A job that has no copy moves on. -/
theorem Kept.setStage (h : Kept s) (hj : s.jobs[j]? = some job) (hlive : job.stage.isDone = false)
    (hstage : job.stage ≠ .moved) (hnext : st = .copying ∨ st = .cleared ∨
      ∀ id copy, s.disk.find? (.tmp id j) ≠ some copy) : Kept (s.setStage j st) where
  toSound := h.toSound.setStage hj hlive fun hmoved => (hstage hmoved).elim
  tmp id k copy hcopy := by
    obtain ⟨job', hk, hjob'⟩ := h.tmp id k copy hcopy
    rw [jobs_setStage hj]
    split_ifs with hkj
    · subst hkj
      obtain rfl := Option.some.inj (hj.symm.trans hk)
      rcases hnext with rfl | rfl | hnext
      · exact ⟨_, rfl, hjob'.1, .inl rfl⟩
      · exact ⟨_, rfl, hjob'.1, .inr rfl⟩
      · exact absurd hcopy (hnext id copy)
    · exact ⟨job', hk, hjob'⟩
  entry id copy hcopy := by
    obtain ⟨e, he, ⟨k, job', hfuture, hk, hjob'⟩ | hentry⟩ := h.entry id copy hcopy
    · refine ⟨e, he, .inl ⟨k, job', hfuture, jobs_setStage_of_ne hj hk ?_, hjob'⟩⟩
      rcases hjob' with hjob' | hjob'
      · rw [hjob']
        exact hstage.symm
      · rw [hjob']
        intro heq
        rw [← heq] at hlive
        cases hlive
    · exact ⟨e, he, .inr hentry⟩
  passed call hcall id copy hid htodo hcopy := by
    obtain ⟨k, job', hk, hjobId, hjob'⟩ := h.passed call hcall id copy hid htodo hcopy
    exact ⟨k, job', jobs_setStage_of_ne hj hk (by rw [hjob']; exact hstage.symm), hjobId, hjob'⟩

/-- A live job's checkpoint has a copy only when the job has made it. -/
theorem Kept.moved_of_live (h : Kept s) {copy : Copy} (hj : s.jobs[j]? = some job)
    (hlive : job.stage.isDone = false) (hcopy : s.disk.find? (.cache job.ckptId) = some copy) :
    job.stage = .moved := by
  obtain ⟨e, he, hfuture⟩ := h.live j job hj hlive
  obtain ⟨e', he', ⟨k, job', hk, hjob', hstage⟩ | ⟨hnone, -⟩⟩ := h.entry _ copy hcopy
  · obtain rfl := Option.some.inj (he.symm.trans he')
    obtain rfl := Option.some.inj (hfuture.symm.trans hk)
    obtain rfl := Option.some.inj (hj.symm.trans hjob')
    rcases hstage with hstage | hstage
    · exact hstage
    · rw [hstage] at hlive
      cases hlive
  · obtain rfl := Option.some.inj (he.symm.trans he')
    rw [hfuture] at hnone
    cases hnone

/-- The worker and the images are not spoken of. -/
theorem Kept.congr (h : Kept s) (hcache : t.cache = s.cache) (hjobs : t.jobs = s.jobs)
    (hdisk : t.disk = s.disk) (hsound : Sound t)
    (hpassed : ∀ call, t.call = some call → ∀ id copy, id ≠ call.ckptId → id ∉ call.todo →
      s.disk.find? (.cache id) = some copy → ∃ (j : ℕ) (job : Job), s.jobs[j]? = some job ∧ job.ckptId = id ∧
        job.stage = .moved) : Kept t where
  toSound := hsound
  tmp := by
    rw [hdisk, hjobs]
    exact h.tmp
  entry := by
    rw [hdisk, hjobs, hcache]
    exact h.entry
  passed := by
    rw [hdisk, hjobs]
    exact hpassed

/-- The entry goes with its directory. -/
theorem Kept.pop (h : Kept s) (he : s.cache.find? id = some e)
    (hdone : ∀ (j : ℕ) (job : Job), e.future = some j → s.jobs[j]? = some job →
      job.stage.isDone = true ∧ job.stage ≠ .done true) : Kept (s.pop id e true) := by
  have hsound : Sound (s.pop id e true) :=
    h.toSound.pop he fun j job hj hjob => (hdone j job hj hjob).1
  have hdisk : ∀ {d copy}, (s.pop id e true).disk.find? d = some copy →
      s.disk.find? d = some copy ∧ d ≠ .cache id := by
    intro d copy hcopy
    have hold : s.disk.find? d = some copy := by
      obtain ⟨future, path, ok, _ | d'⟩ := e
      · exact hcopy
      · exact find?_of_erase hcopy
    refine ⟨hold, ?_⟩
    rintro rfl
    obtain ⟨e', he', ⟨j, job, hfuture, hj, hstage⟩ | ⟨hfuture, hdir⟩⟩ := h.entry id copy hold
    · obtain rfl := Option.some.inj (he.symm.trans he')
      obtain ⟨hjobDone, hne⟩ := hdone j job hfuture hj
      rcases hstage with hstage | hstage
      · rw [hstage] at hjobDone
        cases hjobDone
      · exact hne hstage
    · obtain rfl := Option.some.inj (he.symm.trans he')
      simp [State.pop, hdir] at hcopy
  exact {
    toSound := hsound
    tmp := fun id' j copy hcopy => h.tmp id' j copy (hdisk hcopy).1
    entry := by
      intro id' copy hcopy
      obtain ⟨hold, hne⟩ := hdisk hcopy
      obtain ⟨e', he', hentry⟩ := h.entry id' copy hold
      refine ⟨e', ?_, hentry⟩
      rw [State.pop, Dict.find?_erase, if_neg, he']
      rintro rfl
      exact hne rfl
    passed := fun call hcall id' copy hid htodo hcopy =>
      h.passed call hcall id' copy hid htodo (hdisk hcopy).1 }

/-- A job without a temporary directory. -/
theorem Kept.no_tmp (h : Kept s) (hj : s.jobs[j]? = some job) (hcopying : job.stage ≠ .copying)
    (hcleared : job.stage ≠ .cleared) (id : String) (copy : Copy) :
    s.disk.find? (.tmp id j) ≠ some copy := by
  intro hcopy
  obtain ⟨job', hj', -, hstage⟩ := h.tmp id j copy hcopy
  obtain rfl := Option.some.inj (hj.symm.trans hj')
  exact hstage.elim hcopying hcleared

/-- A directory goes. -/
theorem Kept.erase (h : Kept s) (d : Dir) : Kept { s with disk := s.disk.erase d } where
  toSound := h.toSound.disk fun _ _ hcopy => find?_of_erase hcopy
  tmp id j copy hcopy := h.tmp id j copy (find?_of_erase hcopy)
  entry id copy hcopy := h.entry id copy (find?_of_erase hcopy)
  passed call hcall id copy hid htodo hcopy :=
    h.passed call hcall id copy hid htodo (find?_of_erase hcopy)

/-- The popped entry is not looked for again. -/
theorem Kept.popped {call : Call} {oldId : String} {todo : List String}
    (h : Kept (s.pop oldId e true)) (hcall : s.call = some call) (htodo : call.todo = oldId :: todo)
    (hsound : Sound { s.pop oldId e true with call := some { call with todo } }) :
    Kept { s.pop oldId e true with call := some { call with todo } } := by
  refine h.congr rfl rfl rfl hsound ?_
  intro call' hcall' id copy hid hmem hcopy
  obtain rfl := Option.some.inj hcall'
  refine h.passed call hcall id copy hid ?_ hcopy
  rw [htodo, List.mem_cons, not_or]
  refine ⟨?_, hmem⟩
  rintro rfl
  obtain ⟨e', he', -⟩ := h.entry id copy hcopy
  simp [State.pop] at he'

/-- One round of the loop. -/
theorem Kept.drop (h : Kept s) {call : Call} {oldId : String} {todo : List String}
    (hcall : s.call = some call) (htodo : call.todo = oldId :: todo)
    (hclaimed : oldId = call.ckptId ∨ s.unclaimed oldId = false) (hsound : Sound
      { s.drop call.ckptId oldId true with call := some { call with todo } }) :
    Kept { s.drop call.ckptId oldId true with call := some { call with todo } } := by
  rcases drop_cases s call.ckptId oldId true with
    ⟨heq, hkept⟩ | ⟨e, he, hne, ⟨heq, hdone⟩ | ⟨j, job, hfuture, hj, hstage, heq⟩⟩
  · rw [heq] at hsound ⊢
    refine h.congr rfl rfl rfl hsound ?_
    intro call' hcall' id copy hid hmem hcopy
    obtain rfl := Option.some.inj hcall'
    by_cases hold : id = oldId
    · subst hold
      obtain ⟨e, he, hentry⟩ := h.entry id copy hcopy
      rcases hkept with hsame | hnone | ⟨e', j, job, he', hfuture, hj, hrunning⟩
      · exact (hid hsame).elim
      · rw [hnone] at he
        cases he
      · obtain rfl := Option.some.inj (he.symm.trans he')
        obtain ⟨job', hjob', hjobId⟩ := h.future id e j he hfuture
        obtain rfl := Option.some.inj (hj.symm.trans hjob')
        have hlive : job.stage.isDone = false := by
          cases hstage : job.stage <;> simp_all [Stage.running, Stage.isDone]
        exact ⟨j, job, hj, hjobId, h.moved_of_live hj hlive (hjobId ▸ hcopy)⟩
    · refine h.passed call hcall id copy hid ?_ hcopy
      rw [htodo, List.mem_cons, not_or]
      exact ⟨hold, hmem⟩
  · rw [heq] at hsound ⊢
    have hpop : Kept (s.pop oldId e true) := by
      refine h.pop he fun j job hfuture hj => ⟨hdone j job hfuture hj, fun hstage => ?_⟩
      rcases hclaimed with hsame | hclaimed
      · exact hne hsame
      · simp [State.unclaimed, he, hfuture, hj, hstage] at hclaimed
    exact hpop.popped hcall htodo hsound
  · rw [heq] at hsound ⊢
    have hset : Kept (s.setStage j .cancelled) :=
      h.setStage hj (by rw [hstage]; rfl) (by simp [hstage])
        (.inr (.inr (h.no_tmp hj (by simp [hstage]) (by simp [hstage]))))
    have hpop : Kept ((s.setStage j .cancelled).pop oldId e true) := by
      refine hset.pop he fun k job' hk hjob => ?_
      obtain rfl := Option.some.inj (hfuture.symm.trans hk)
      rw [jobs_setStage hj, if_pos rfl] at hjob
      obtain rfl := Option.some.inj hjob
      exact ⟨rfl, nofun⟩
    exact hpop.popped hcall htodo hsound

/-- A job is added for a checkpoint without a copy. -/
theorem Kept.add (h : Kept s) {path : String} (hprepared : s.prepared id = false)
    (hsound : Sound { s.add id path with call := none }) :
    Kept { s.add id path with call := none } where
  toSound := hsound
  tmp id' j copy hcopy := by
    obtain ⟨job, hj, hjob⟩ := h.tmp id' j copy hcopy
    refine ⟨job, ?_, hjob⟩
    simp only [State.add]
    rw [List.getElem?_append_left (List.getElem?_eq_some_iff.mp hj).1, hj]
  entry id' copy hcopy := by
    obtain ⟨e, he, hentry⟩ := h.entry id' copy hcopy
    have hne : id' ≠ id := by
      rintro rfl
      rcases hentry with ⟨j, -, hfuture, -⟩ | ⟨-, hdir⟩
      · simp [State.prepared, he, hfuture] at hprepared
      · simp [State.prepared, he, hdir] at hprepared
    refine ⟨e, by simp only [State.add]; rw [Dict.find?_set_of_ne _ _ hne, he], ?_⟩
    rcases hentry with ⟨j, job, hfuture, hj, hstage⟩ | hentry
    · refine .inl ⟨j, job, hfuture, ?_, hstage⟩
      simp only [State.add]
      rw [List.getElem?_append_left (List.getElem?_eq_some_iff.mp hj).1, hj]
    · exact .inr hentry
  passed call hcall := by cases hcall

/-- A copy gets its final name. -/
theorem Kept.move (h : Kept s) (hj : s.jobs[j]? = some job) (hstage : job.stage = .cleared) :
    Kept (s.prepare j job true) := by
  have hlive : job.stage.isDone = false := by rw [hstage]; rfl
  have hset : Kept (State.setStage { s with disk := s.disk.erase (.tmp job.ckptId j) } j .moved) := by
    refine (h.erase (.tmp job.ckptId j)).setStage hj hlive (by simp [hstage]) (.inr (.inr ?_))
    intro id copy hcopy
    obtain ⟨job', hj', hjobId, -⟩ := h.tmp id j copy (find?_of_erase hcopy)
    obtain rfl := Option.some.inj (hj.symm.trans hj')
    rw [hjobId, Dict.find?_erase_self] at hcopy
    cases hcopy
  have hsound := h.toSound.prepare hj true
  simp only [State.prepare, hstage, if_true] at hsound ⊢
  obtain ⟨e, he, hfuture⟩ := h.live j job hj hlive
  have hcases : ∀ {d copy}, ((s.disk.erase (.tmp job.ckptId j)).set (.cache job.ckptId)
      ⟨job.parentMemPath, j⟩).find? d = some copy →
      d = .cache job.ckptId ∨ (s.disk.erase (.tmp job.ckptId j)).find? d = some copy := by
    intro d copy hcopy
    rw [Dict.find?_set] at hcopy
    split_ifs at hcopy with hd
    · exact .inl hd
    · exact .inr hcopy
  exact {
    toSound := hsound
    tmp := by
      intro id k copy hcopy
      rcases hcases hcopy with hd | hcopy
      · cases hd
      · exact hset.tmp id k copy hcopy
    entry := by
      intro id copy hcopy
      rcases hcases hcopy with hd | hcopy
      · obtain rfl : id = job.ckptId := by simpa using hd
        exact ⟨e, he, .inl ⟨j, _, hfuture, jobs_setStage_self hj, .inl rfl⟩⟩
      · exact hset.entry id copy hcopy
    passed := by
      intro call hcall id copy hid htodo hcopy
      rcases hcases hcopy with hd | hcopy
      · obtain rfl : id = job.ckptId := by simpa using hd
        exact ⟨j, _, jobs_setStage_self hj, rfl, rfl⟩
      · exact hset.passed call hcall id copy hid htodo hcopy }

/-- A preparation returns. -/
theorem Kept.return (h : Kept s) (hj : s.jobs[j]? = some job) (hstage : job.stage = .moved)
    (hcall : ∀ call, s.call = some call → job.ckptId = call.ckptId)
    (hsound : Sound { s.setStage j (.done true) with worker := none }) :
    Kept { s.setStage j (.done true) with worker := none } where
  toSound := hsound
  tmp id k copy hcopy := by
    obtain ⟨job', hk, hid, hjob'⟩ := h.tmp id k copy hcopy
    refine ⟨job', jobs_setStage_of_ne hj hk ?_, hid, hjob'⟩
    rw [hstage]
    rcases hjob' with hjob' | hjob' <;> simp [hjob']
  entry id copy hcopy := by
    obtain ⟨e, he, ⟨k, job', hfuture, hk, hjob'⟩ | hentry⟩ := h.entry id copy hcopy
    · refine ⟨e, he, .inl ?_⟩
      by_cases hkj : k = j
      · subst hkj
        exact ⟨k, _, hfuture, jobs_setStage_self hj, .inr rfl⟩
      · exact ⟨k, job', hfuture, by simp only [jobs_setStage hj, if_neg hkj, hk], hjob'⟩
    · exact ⟨e, he, .inr hentry⟩
  passed call hc id copy hid htodo hcopy := by
    obtain ⟨k, job', hk, hjobId, hjob'⟩ := h.passed call hc id copy hid htodo hcopy
    refine ⟨k, job', ?_, hjobId, hjob'⟩
    simp only [jobs_setStage hj]
    rw [if_neg, hk]
    rintro rfl
    obtain rfl := Option.some.inj (hj.symm.trans hk)
    exact hid (hjobId.symm.trans (hcall call hc))

/-- The worker goes on. -/
theorem Kept.prepare (h : Kept s) {ok : Bool} (hj : s.jobs[j]? = some job)
    (hok : ok = true ∨ job.stage = .started)
    (hmoved : job.stage = .moved → ∀ call, s.call = some call → job.ckptId = call.ckptId) :
    Kept (s.prepare j job ok) := by
  have hsound := h.toSound.prepare hj ok
  cases hstage : job.stage with
  | started =>
    have hset : ∀ st, Kept (s.setStage j st) := fun st =>
      h.setStage hj (by rw [hstage]; rfl) (by simp [hstage])
        (.inr (.inr (h.no_tmp hj (by simp [hstage]) (by simp [hstage]))))
    simp only [State.prepare, hstage] at hsound ⊢
    cases ok with
    | false => exact (hset (.done false)).congr rfl rfl rfl hsound (hset (.done false)).passed
    | true =>
      simp only [if_true] at hsound ⊢
      have hcache : ∀ {id copy}, (s.disk.set (.tmp job.ckptId j) ⟨job.parentMemPath, j⟩).find?
          (.cache id) = some copy → s.disk.find? (.cache id) = some copy := by
        intro id copy hcopy
        rwa [Dict.find?_set_of_ne _ _ (by simp)] at hcopy
      exact {
        toSound := hsound
        tmp := by
          intro id k copy hcopy
          rw [Dict.find?_set] at hcopy
          split_ifs at hcopy with hd
          · simp only [Dir.tmp.injEq] at hd
            obtain ⟨rfl, rfl⟩ := hd
            exact ⟨_, jobs_setStage_self hj, rfl, .inl rfl⟩
          · exact (hset .copying).tmp id k copy hcopy
        entry := fun id copy hcopy => (hset .copying).entry id copy (hcache hcopy)
        passed := fun call hcall id copy hid htodo hcopy =>
          (hset .copying).passed call hcall id copy hid htodo (hcache hcopy) }
  | copying =>
    obtain rfl : ok = true := hok.resolve_right (by simp [hstage])
    have hset : Kept (s.setStage j .cleared) :=
      h.setStage hj (by rw [hstage]; rfl) (by simp [hstage]) (.inr (.inl rfl))
    simp only [State.prepare, hstage, if_true]
    exact hset.erase (.cache job.ckptId)
  | cleared =>
    obtain rfl : ok = true := hok.resolve_right (by simp [hstage])
    exact h.move hj hstage
  | moved =>
    simp only [State.prepare, hstage] at hsound ⊢
    exact h.return hj hstage (hmoved hstage) hsound
  | _ =>
    simp only [State.prepare, hstage]
    exact h

/-- A checkpoint looks for its copy. -/
theorem Kept.consume (h : Kept s) (hcall : s.call = none) (id : String) (replaced finalized : Bool) :
    Kept (s.consume id replaced finalized) := by
  have hhand : ∀ {s : State} {e : Entry}, Kept s → s.call = none → s.cache.find? id = some e →
      e.future = none → Kept (s.hand id e replaced finalized) := by
    intro s e h hcall he hfuture
    have hsound := h.toSound.hand he hfuture replaced finalized
    rcases hand_cases s id e replaced finalized with heq | ⟨d, copy, hd, hcopy, heq⟩
    · rwa [heq]
    obtain rfl := h.named id e d he hd
    rw [heq] at hsound ⊢
    exact {
      toSound := hsound
      tmp := fun id' j copy' hcopy' => h.tmp id' j copy' (find?_of_erase hcopy')
      entry := by
        intro id' copy' hcopy'
        obtain ⟨e', he', hentry⟩ := h.entry id' copy' (find?_of_erase hcopy')
        refine ⟨e', ?_, hentry⟩
        rw [Dict.find?_erase, if_neg, he']
        rintro rfl
        simp at hcopy'
      passed := fun call hc => by simp [hcall] at hc }
  rcases consume_cases s id replaced finalized with
    heq | ⟨e, he, ⟨hfuture, heq⟩ | ⟨j, job, ok, hfuture, hj, hstage, heq⟩⟩
  · rwa [heq]
  · rw [heq]
    exact hhand h hcall he hfuture
  · rw [heq]
    refine hhand ?_ hcall (Dict.find?_set_self _ _ _) rfl
    exact {
      toSound := h.toSound.update he hfuture hj hstage
      tmp := h.tmp
      entry := by
        intro id' copy hcopy
        obtain ⟨e', he', hentry⟩ := h.entry id' copy hcopy
        by_cases hid : id' = id
        · subst hid
          refine ⟨_, Dict.find?_set_self _ _ _, .inr ⟨rfl, ?_⟩⟩
          obtain rfl := Option.some.inj (he.symm.trans he')
          rcases hentry with ⟨k, job', hk, hjob', hstage'⟩ | ⟨hnone, -⟩
          · obtain rfl := Option.some.inj (hfuture.symm.trans hk)
            obtain rfl := Option.some.inj (hj.symm.trans hjob')
            rw [hstage] at hstage'
            obtain rfl : ok = true := by simpa using hstage'
            rfl
          · rw [hfuture] at hnone
            cases hnone
        · exact ⟨e', by rw [Dict.find?_set_of_ne _ _ hid, he'], hentry⟩
      passed := fun call hc => by simp [hcall] at hc }

/-- **A step that meets the condition loses no directory.** -/
theorem kept_step {l : Label} (h : Kept s) (hmeets : meets cfg s l = true)
    (hstep : step cfg s l = some t) : Kept t := by
  have hsound := sound_step h.toSound hstep
  have hcases := step_cases hstep
  cases l with
  | schedule id entry =>
    obtain ⟨-, ⟨-, rfl⟩ | ⟨path, -, rfl⟩⟩ := hcases
    · exact h
    · refine h.congr rfl rfl rfl hsound fun call hcall id' copy _ htodo hcopy => ?_
      obtain rfl := Option.some.inj hcall
      obtain ⟨e, he, -⟩ := h.entry id' copy hcopy
      exact (htodo (Dict.mem_keys_iff.mpr ⟨e, he⟩)).elim
  | look removed =>
    obtain ⟨call, oldId, todo, hcall, htodo, rfl⟩ := hcases
    simp only [meets, Bool.and_eq_true, hcall, Option.all_some, htodo, List.head?_cons,
      Bool.or_eq_true, decide_eq_true_eq, Bool.not_eq_true'] at hmeets
    obtain ⟨rfl, hclaimed⟩ := hmeets
    exact h.drop hcall htodo hclaimed hsound
  | submit =>
    obtain ⟨call, hcall, -, ⟨-, rfl⟩ | ⟨hprepared, rfl⟩⟩ := hcases
    · exact h.congr rfl rfl rfl hsound fun _ hcall => by cases hcall
    · exact h.add hprepared hsound
  | start =>
    obtain ⟨j, job, hj, hstage, rfl⟩ := hcases
    have hset : Kept (s.setStage j .started) :=
      h.setStage hj (by rw [hstage]; rfl) (by simp [hstage])
        (.inr (.inr (h.no_tmp hj (by simp [hstage]) (by simp [hstage]))))
    exact hset.congr rfl rfl rfl hsound hset.passed
  | prepare ok =>
    obtain ⟨j, job, hworker, hj, rfl⟩ := hcases
    simp only [meets, hworker, Option.all_some, hj, Bool.and_eq_true, Bool.or_eq_true,
      decide_eq_true_eq] at hmeets
    obtain ⟨hok, hmoved⟩ := hmeets
    refine h.prepare hj hok fun hstage call hcall => ?_
    rcases hmoved with hne | hmoved
    · exact (hne hstage).elim
    · simpa [hcall] using hmoved
  | consume id replaced finalized =>
    obtain ⟨hcall, rfl⟩ := hcases
    exact h.consume hcall id replaced finalized

/-! ### Runs -/

theorem Sound.own (h : Sound s) : s.Own := fun x hx =>
  have hjob := (h.handed x hx).1
  ⟨h.image _ _ hjob, hjob⟩

/-- The call returns, and leaves the directories alone. -/
theorem Kept.submitted (h : Kept s) {call : Call} (hcall : s.call = some call)
    (hstep : step cfg s .submit = some t) : t.Clean call.ckptId := by
  obtain ⟨call', hcall', htodo, ht⟩ := step_cases hstep
  obtain rfl := Option.some.inj (hcall.symm.trans hcall')
  have hclean := h.clean hcall htodo
  have hdisk : t.disk = s.disk := by
    rcases ht with ⟨-, rfl⟩ | ⟨-, rfl⟩ <;> rfl
  have hjobs : ∃ new, t.jobs = s.jobs ++ new := by
    rcases ht with ⟨-, rfl⟩ | ⟨-, rfl⟩
    · exact ⟨[], (List.append_nil _).symm⟩
    · exact ⟨_, rfl⟩
  obtain ⟨new, hjobs⟩ := hjobs
  intro d hd
  rw [hdisk] at hd
  refine (hclean d hd).imp_right fun hwork => ?_
  cases d with
  | cache id =>
    obtain ⟨job, hjob, hrunning⟩ := hwork
    exact ⟨job, hjobs ▸ List.mem_append_left new hjob, hrunning⟩
  | tmp id j =>
    obtain ⟨job, hj, hrunning⟩ := (Option.any_eq_true _ _).mp hwork
    refine (Option.any_eq_true _ _).mpr ⟨job, ?_, hrunning⟩
    rw [hjobs, List.getElem?_append_left (List.getElem?_eq_some_iff.mp hj).1, hj]

/-- **The cache hands out each copy once, and to its own checkpoint. In a run that meets the condition,
a call that schedules a copy leaves no other directory behind.** -/
theorem copies_kept (cfg : Config) {ls : List Label} {s : State}
    (h : exec (step cfg) .init ls = some s) :
    s.Own ∧ s.Once ∧ (Along (step cfg) (fun s l => meets cfg s l = true) .init ls →
      ∀ call t, s.call = some call → step cfg s .submit = some t → t.Clean call.ckptId) := by
  have hsound : Sound s := invariant (fun hs hstep => sound_step hs hstep) sound_init h
  refine ⟨hsound.own, hsound.once, fun halong call t hcall hstep => ?_⟩
  have hkept : Kept s :=
    invariant_along (fun hs hmeets hstep => kept_step hs hmeets hstep) kept_init halong h
  exact hkept.submitted hcall hstep

/-- The feature is on. -/
def Config.on : Config := ⟨true, some 100, true⟩

/-- A copy for the checkpoint `id` is scheduled and made. -/
def prepareRun (id : String) : List Label :=
  [.schedule id (some ⟨false, false, some ("/images/" ++ id)⟩), .submit, .start, .prepare true,
    .prepare true, .prepare true, .prepare true]

/-- `b` is to get a copy, and the one for `a` has been picked up. -/
def pickedUp : State where
  cache := .empty
  jobs := [⟨"a", "/images/a", .done true⟩]
  worker := none
  disk := .empty
  call := some ⟨"b", "/images/b", []⟩
  images := [("a", "/images/a"), ("b", "/images/b")]
  handed := [⟨"a", ⟨"/images/a", 0⟩⟩]

/-- The copy for `a` has been picked up when one for `b` is scheduled. -/
theorem copies_kept_picked :
    pickedUp.Own ∧ pickedUp.Once ∧
      { pickedUp.add "b" "/images/b" with call := none }.Clean "b" := by
  have hrun : exec (step .on) .init (prepareRun "a" ++ [.consume "a" true true,
      .schedule "b" (some ⟨false, false, some "/images/b"⟩)]) = some pickedUp := rfl
  obtain ⟨hown, honce, hclean⟩ := copies_kept .on hrun
  have hsubmit : step .on pickedUp .submit =
      some { pickedUp.add "b" "/images/b" with call := none } := rfl
  exact ⟨hown, honce, hclean (by decide) _ _ rfl hsubmit⟩

/-- `b` is to get a copy, and the one for `a` has been dropped. -/
def forgotten : State where
  cache := .empty
  jobs := [⟨"a", "/images/a", .done true⟩]
  worker := none
  disk := ⟨[(.cache "a", ⟨"/images/a", 0⟩)], List.nodup_singleton _⟩
  call := some ⟨"b", "/images/b", []⟩
  images := [("a", "/images/a"), ("b", "/images/b")]
  handed := []

/-- Nobody has picked up the copy for `a` when one for `b` is scheduled: the entry goes, and the
directory stays. -/
theorem forgotten_copy :
    exec (step .on) .init (prepareRun "a" ++
        [.schedule "b" (some ⟨false, false, some "/images/b"⟩), .look true]) = some forgotten ∧
      step .on forgotten .submit = some { forgotten.add "b" "/images/b" with call := none } ∧
      ¬ { forgotten.add "b" "/images/b" with call := none }.Clean "b" := by
  refine ⟨rfl, rfl, fun hclean => ?_⟩
  rcases hclean (.cache "a") (by decide) with hof | ⟨job, hjob, hid, hrunning⟩
  · exact absurd (show "a" = "b" from hof) (by decide)
  · revert job
    decide

end Restamp

end DeltaBox
