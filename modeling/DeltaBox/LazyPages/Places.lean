import DeltaBox.LazyPages.Waiting
import Mathlib.Algebra.Order.Group.Multiset
import Mathlib.Tactic.Abel

/-!
# Where every daemon is

A daemon that has been launched and has not been stopped is somewhere: somebody will serve a restore
with it, or stop it. This module counts the places. A daemon is idle in the table, or a restore owns
it, or it is in the hands of one of the two threads; `State.places` is the multiset of all these, and
a daemon occurs in it once while it runs. So no daemon is lost, and none is handed out twice.

The threads have daemons in their hands for two reasons. One that is being started is not in a table
yet. One that is taken out of the table is stopped, or handed to a restore, after the lock has been
released: until then it is *leaving*.

## Main results

* `Custody.step` — every step moves daemons between the places, launches one, or stops some
* `daemons_accounted` — in every run each daemon is in exactly one place, the idle ones are bounded,
  and no image that is retired and no controller that is closed has an idle one
-/

namespace DeltaBox

namespace LazyPages

/-! ### Places -/

/-- The daemon the worker is starting. -/
def Worker.started : Worker → List ℕ
  | .start _ _ d | .publish _ _ d => [d]
  | _ => []

/-- The daemons it has taken out of the table, or does not want there. -/
def Worker.leaving : Worker → List ℕ
  | .evict _ _ ds => ds
  | .drop _ _ d => [d]
  | _ => []

/-- The daemon the controller is starting. -/
def Caller.started : Caller → List ℕ
  | .starting _ d => [d]
  | _ => []

/-- The daemons it has taken out of the table. -/
def Caller.leaving : Caller → List ℕ
  | .inspect _ d | .retiring _ d => [d]
  | .clearing ds => ds
  | _ => []

/-- The places of a daemon. -/
inductive Place where
  /-- It is being started. -/
  | starting
  /-- It is idle in `_lazy_prestarted`. -/
  | idle
  /-- A restore owns it: it is in `_lazy_page_daemons`. -/
  | owned
  /-- A thread has taken it out of the table, and is about to stop it or to hand it to a restore. -/
  | leaving
  /-- It is gone. -/
  | stopped
  deriving DecidableEq, Repr

/-- The daemon is there. -/
def State.At (s : State) (d : ℕ) : Place → Prop
  | .starting => s.phase d ≠ .stopped ∧ (d ∈ s.worker.started ∨ d ∈ s.caller.started)
  | .idle => s.phase d ≠ .stopped ∧ d ∈ s.prestarted.values
  | .owned => s.phase d ≠ .stopped ∧ d ∈ s.lazyPageDaemons
  | .leaving => s.phase d ≠ .stopped ∧ (d ∈ s.worker.leaving ∨ d ∈ s.caller.leaving)
  | .stopped => s.phase d = .stopped

instance (s : State) (d : ℕ) : ∀ place, Decidable (s.At d place)
  | .starting | .leaving => inferInstanceAs (Decidable (_ ∧ (_ ∨ _)))
  | .idle | .owned => inferInstanceAs (Decidable (_ ∧ _))
  | .stopped => inferInstanceAs (Decidable (_ = _))

/-- The daemons in the hands of the worker. -/
def Worker.hands (w : Worker) : Multiset ℕ := w.started + w.leaving

/-- The daemons in the hands of the controller. -/
def Caller.hands (c : Caller) : Multiset ℕ := c.started + c.leaving

/-- All places but the last. -/
def State.places (s : State) : Multiset ℕ :=
  s.worker.hands + s.caller.hands + s.prestarted.values + s.lazyPageDaemons

/-- Every running daemon is in one place. -/
structure Custody (s : State) : Prop where
  /-- In no two of them. -/
  nodup : s.places.Nodup
  /-- And only daemons are there. -/
  launched : ∀ d ∈ s.places, d < s.daemons.length
  /-- A running one is somewhere. -/
  held : ∀ d, s.phase d ≠ .stopped → d ∈ s.places

theorem Custody.initial : Custody State.initial where
  nodup := by simp [State.places, State.initial, Worker.hands, Worker.started, Worker.leaving,
    Caller.hands, Caller.started, Caller.leaving, Dict.values, Dict.empty]
  launched d h := by simp [State.places, State.initial, Worker.hands, Worker.started,
    Worker.leaving, Caller.hands, Caller.started, Caller.leaving, Dict.values, Dict.empty] at h
  held d h := absurd rfl h

section

variable {cfg : Config} {s t : State} {d e : ℕ} {p : String}

theorem count_places : s.places.count d =
    s.worker.started.count d + s.worker.leaving.count d +
      (s.caller.started.count d + s.caller.leaving.count d) + s.prestarted.values.count d +
      s.lazyPageDaemons.count d := by
  simp only [State.places, Worker.hands, Caller.hands, Multiset.count_add, Multiset.coe_count]

/-- **Custody gives every daemon exactly one place.** -/
theorem Custody.place (h : Custody s) (d : ℕ) : ∃! place, s.At d place := by
  by_cases hd : s.phase d = .stopped
  · refine ⟨.stopped, hd, fun place hplace => ?_⟩
    cases place with
    | stopped => rfl
    | _ => exact absurd hd hplace.1
  have hpos : 0 < s.places.count d := Multiset.count_pos.mpr (h.held d hd)
  have hone : s.places.count d ≤ 1 := Multiset.nodup_iff_count_le_one.mp h.nodup d
  rw [count_places] at hpos hone
  have hat : ∀ place, s.At d place ↔ match place with
      | .starting => 0 < s.worker.started.count d ∨ 0 < s.caller.started.count d
      | .idle => 0 < s.prestarted.values.count d
      | .owned => 0 < s.lazyPageDaemons.count d
      | .leaving => 0 < s.worker.leaving.count d ∨ 0 < s.caller.leaving.count d
      | .stopped => False := by
    intro place
    cases place <;> simp [State.At, hd, List.count_pos_iff]
  have hex : ∃ place, s.At d place := by
    by_contra hno
    have hno : ∀ place, ¬ s.At d place := fun place hp => hno ⟨place, hp⟩
    have h₁ := mt (hat .starting).mpr (hno _)
    have h₂ := mt (hat .idle).mpr (hno _)
    have h₃ := mt (hat .owned).mpr (hno _)
    have h₄ := mt (hat .leaving).mpr (hno _)
    simp only at h₁ h₂ h₃ h₄
    omega
  obtain ⟨place, hplace⟩ := hex
  refine ⟨place, hplace, fun place' hplace' => ?_⟩
  rw [hat] at hplace hplace'
  cases place <;> cases place' <;> simp only [reduceCtorEq] at hplace hplace' ⊢ <;> omega

/-! ### Tables -/

/-- The tables agree with the tasks, and no daemon is idle while another is on its way. -/
structure Tables (s : State) : Prop where
  /-- A task has its future in the table. -/
  listed : ∀ n p, (n, p) ∈ s.tasks → p ∈ s.futures.keys
  /-- There is one task for an image. -/
  distinct : (s.tasks.map Prod.snd).Nodup
  /-- A daemon on its way finds its place in the table free. -/
  idle : ∀ p, s.Working p → s.prestarted.find? p = none

theorem Tables.initial : Tables State.initial where
  listed n p h := by simp [State.initial, State.tasks, Worker.task?] at h
  distinct := by simp [State.initial, State.tasks, Worker.task?]
  idle p _ := rfl

/-- Tasks may go, and so may idle daemons. -/
theorem Tables.mono (h : Tables s) (htasks : t.tasks = s.tasks) (hfutures : t.futures = s.futures)
    (hworking : ∀ p, t.Working p → s.Working p)
    (hidle : ∀ p, s.prestarted.find? p = none → t.prestarted.find? p = none) : Tables t where
  listed n p hmem := by
    rw [hfutures]
    exact h.listed n p (htasks ▸ hmem)
  distinct := htasks ▸ h.distinct
  idle p hp := hidle p (h.idle p (hworking p hp))

theorem Tables.schedule (h : Tables s) : Tables (schedule cfg s p) := by
  rw [LazyPages.schedule]
  split_ifs with hc
  · exact h
  simp only [not_or] at hc
  obtain ⟨-, -, -, -, hpre, hfut⟩ := hc
  have htasks : State.tasks { s with
      queue := s.queue ++ [(s.nextTask, p)]
      futures := s.futures.set p s.nextTask
      nextTask := s.nextTask + 1 } = s.tasks ++ [(s.nextTask, p)] := by
    simp [State.tasks]
  refine ⟨fun n q hmem => ?_, ?_, fun q hq => ?_⟩
  · rw [htasks, List.mem_append, List.mem_singleton] at hmem
    change q ∈ (s.futures.set p s.nextTask).keys
    rw [Dict.mem_keys_iff]
    rcases hmem with hmem | hmem
    · obtain ⟨v, hv⟩ := Dict.mem_keys_iff.mp (h.listed n q hmem)
      have hne : q ≠ p := fun heq => hfut (heq ▸ h.listed n q hmem)
      exact ⟨v, by rw [Dict.find?_set_of_ne _ _ hne, hv]⟩
    · obtain ⟨-, rfl⟩ := Prod.mk.inj hmem
      exact ⟨_, Dict.find?_set_self ..⟩
  · rw [htasks, List.map_append, List.nodup_append]
    refine ⟨h.distinct, List.nodup_singleton _, fun q hq r hr heq => ?_⟩
    obtain ⟨⟨n, q'⟩, hmem, rfl⟩ := List.mem_map.mp hq
    obtain rfl := List.mem_singleton.mp hr
    exact hfut (heq ▸ h.listed n q' hmem)
  · rcases hq with hq | ⟨n, hq⟩
    · exact h.idle q (Or.inl hq)
    · rcases List.mem_append.mp hq with hq | hq
      · exact h.idle q (Or.inr ⟨n, hq⟩)
      · obtain ⟨-, rfl⟩ := Prod.mk.inj (List.mem_singleton.mp hq)
        exact Dict.find?_eq_none_iff.mpr hpre

theorem Tables.workerStep {ok : Bool} (h : Tables s) (hstep : workerStep cfg s ok = some t) :
    Tables t := by
  have hmove : ∀ {w : Worker} {daemons : List Daemon}, w.task? = s.worker.task? →
      (∀ p, w.working? = some p → s.worker.working? = some p) →
      Tables { s with worker := w, daemons := daemons } := fun {w _} htask hworking =>
    h.mono (by simp [State.tasks, htask]) rfl
      (fun p hp => hp.imp_left (hworking p)) fun _ hp => hp
  rw [LazyPages.workerStep] at hstep
  cases hw : s.worker with
  | idle =>
    simp only [hw] at hstep
    rcases hq : s.queue with _ | ⟨⟨n, p⟩, queue⟩
    · simp [hq] at hstep
    simp only [hq, Option.some.injEq] at hstep
    refine hstep ▸ h.mono ?_ rfl (fun q hworking => Or.inr ?_) fun _ hp => hp
    · simp [State.tasks, Worker.task?, hw, hq]
    · rw [hq]
      rcases hworking with hworking | ⟨m, hmem⟩
      · obtain rfl := Option.some.inj hworking
        exact ⟨n, List.mem_cons_self⟩
      · exact ⟨m, List.mem_cons_of_mem _ hmem⟩
  | begin n p =>
    simp only [hw, Option.some.injEq, beginTask] at hstep
    split_ifs at hstep
    · exact hstep ▸ hmove (by rw [hw]; rfl) fun q hq => by cases hq
    · refine hstep ▸ h.mono (by simp [State.tasks, Worker.task?, hw]) rfl
        (fun q hq => hq.imp_left fun hq => by rw [hw]; exact hq) fun q hq => ?_
      dsimp only
      rw [Dict.find?_keep, hq, ite_self]
  | evict n p ds =>
    rcases ds with _ | ⟨d, ds⟩
    · simp only [hw] at hstep
      split_ifs at hstep
      · exact Option.some.inj hstep ▸ hmove (by rw [hw]; rfl) fun q hq => by rw [hw]; exact hq
      · exact Option.some.inj hstep ▸ hmove (by rw [hw]; rfl) fun q hq => by cases hq
    · simp only [hw, Option.some.injEq] at hstep
      exact hstep ▸ hmove (by rw [hw]; rfl) fun q hq => by rw [hw]; exact hq
  | start n p d =>
    simp only [hw, Option.some.injEq] at hstep
    refine hstep ▸ hmove ?_ fun q hq => ?_
    · rw [hw]
      split_ifs <;> rfl
    · rw [hw]
      split_ifs at hq
      · exact hq
      · cases hq
  | publish n p d =>
    simp only [hw, Option.some.injEq, publishTask] at hstep
    split_ifs at hstep
    · exact hstep ▸ hmove (by rw [hw]; rfl) fun q hq => by rw [hw]; exact hq
    · have htasks : s.tasks = (n, p) :: s.queue := by simp [State.tasks, Worker.task?, hw]
      have hdistinct := h.distinct
      rw [htasks, List.map_cons, List.nodup_cons] at hdistinct
      subst hstep
      refine ⟨fun m q hmem => ?_, ?_, fun q hq => ?_⟩
      · refine h.listed m q ?_
        rw [htasks]
        exact hmem
      · exact List.nodup_cons.mpr hdistinct
      · rcases hq with hq | ⟨m, hq⟩
        · cases hq
        -- the daemon of another task is not the one that is put into the table
        have hne : q ≠ p := by
          rintro rfl
          exact hdistinct.1 (List.mem_map.mpr ⟨(m, q), hq, rfl⟩)
        dsimp only
        rw [Dict.find?_set_of_ne _ _ hne]
        exact h.idle q (Or.inr ⟨m, hq⟩)
  | drop n p d =>
    simp only [hw, Option.some.injEq] at hstep
    exact hstep ▸ hmove (by rw [hw]; rfl) fun q hq => by cases hq
  | finish n p =>
    simp only [hw, Option.some.injEq, finishTask] at hstep
    have htasks : s.tasks = (n, p) :: s.queue := by simp [State.tasks, Worker.task?, hw]
    have hdistinct := h.distinct
    rw [htasks, List.map_cons, List.nodup_cons] at hdistinct
    subst hstep
    refine ⟨fun m q hmem => ?_, hdistinct.2, fun q hq => ?_⟩
    · have hmem : (m, q) ∈ s.queue := hmem
      have hne : q ≠ p := by
        rintro rfl
        exact hdistinct.1 (List.mem_map.mpr ⟨(m, q), hmem, rfl⟩)
      obtain ⟨v, hv⟩ := Dict.mem_keys_iff.mp (h.listed m q (htasks ▸ List.mem_cons_of_mem _ hmem))
      exact Dict.mem_keys_iff.mpr ⟨v, by rw [← hv]; exact Dict.find?_erase_of_ne _ hne⟩
    · rcases hq with hq | hq
      · cases hq
      · exact h.idle q (Or.inr hq)
  | returning n =>
    simp only [hw, Option.some.injEq] at hstep
    refine hstep ▸ h.mono (by simp [State.tasks, Worker.task?, hw]) rfl (fun q hq => ?_)
      fun _ hp => hp
    rcases hq with hq | hq
    · cases hq
    · exact Or.inr hq

/-- The controller only takes daemons out of the table. -/
theorem Tables.callerStep {ok : Bool} (h : Tables s) (hstep : callerStep cfg s ok = some t) :
    Tables t := by
  have hsame : ∀ {c : Caller} {daemons : List Daemon} {readers : List ℕ},
      Tables { s with caller := c, daemons := daemons, lazyPageDaemons := readers } :=
    h.mono rfl rfl (fun _ hp => hp) fun _ hp => hp
  have hpop : ∀ {c : Caller} {q : String},
      Tables { s with prestarted := s.prestarted.erase q, caller := c } := fun {_ q} =>
    h.mono rfl rfl (fun _ hp => hp) fun p hp => by
      dsimp only
      rw [Dict.find?_erase, hp, ite_self]
  rw [LazyPages.callerStep] at hstep
  cases hc : s.caller with
  | idle => simp [hc] at hstep
  | join q =>
    simp only [hc] at hstep
    split at hstep
    · split_ifs at hstep
      exact Option.some.inj hstep ▸ hsame
    all_goals exact Option.some.inj hstep ▸ hsame
  | take q =>
    simp only [hc, Option.some.injEq, takeFirst] at hstep
    subst hstep
    split
    · exact hpop
    · split
      · exact hsame
      · exact hsame
  | wait q n =>
    simp only [hc] at hstep
    split_ifs at hstep <;> exact Option.some.inj hstep ▸ hsame
  | retake q =>
    simp only [hc, Option.some.injEq, takeSecond] at hstep
    subst hstep
    split
    · exact hpop
    · exact hsame
  | inspect q d =>
    simp only [hc] at hstep
    split_ifs at hstep <;> exact Option.some.inj hstep ▸ hsame
  | spawn q =>
    simp only [hc, Option.some.injEq] at hstep
    exact hstep ▸ hsame
  | starting q d =>
    simp only [hc] at hstep
    split_ifs at hstep <;> exact Option.some.inj hstep ▸ hsame
  | restoring q d =>
    simp only [hc] at hstep
    split_ifs at hstep <;> exact Option.some.inj hstep ▸ hsame
  | abort q d =>
    simp only [hc, Option.some.injEq] at hstep
    exact hstep ▸ hsame
  | rearm q =>
    simp only [hc, Option.some.injEq] at hstep
    have hidle : Tables { s with caller := .idle } := hsame
    exact hstep ▸ hidle.schedule
  | retiring q d =>
    simp only [hc, Option.some.injEq] at hstep
    exact hstep ▸ hsame
  | closing =>
    simp only [hc] at hstep
    split_ifs at hstep
    exact Option.some.inj hstep ▸ h.mono rfl rfl (fun _ hp => hp) fun _ _ => rfl
  | clearing ds =>
    rcases ds with _ | ⟨d, ds⟩ <;> simp only [hc, Option.some.injEq] at hstep <;>
      exact hstep ▸ hsame

theorem Tables.step {l : Label} (h : Tables s) (hstep : step cfg s l = some t) : Tables t := by
  have hsame : ∀ {dumps : Dict String Dump} {b : Bool} {c : Caller} {daemons : List Daemon}
      {readers : List ℕ}, Tables { s with
        dumps := dumps, closing := b, caller := c, daemons := daemons, lazyPageDaemons := readers } :=
    h.mono rfl rfl (fun _ hp => hp) fun _ hp => hp
  cases l with
  | watch q =>
    simp only [LazyPages.step] at hstep
    split_ifs at hstep
    exact Option.some.inj hstep ▸ hsame
  | release q ok =>
    simp only [LazyPages.step] at hstep
    split_ifs at hstep
    exact Option.some.inj hstep ▸ hsame
  | callback q =>
    simp only [LazyPages.step] at hstep
    split at hstep
    · rename_i ok _
      have hset : Tables { s with dumps := s.dumps.set q (.called ok) } := hsame
      obtain rfl := Option.some.inj hstep
      split_ifs
      · exact hset.schedule
      · exact hset
    · cases hstep
  | work ok => exact h.workerStep hstep
  | restore q =>
    simp only [LazyPages.step] at hstep
    split_ifs at hstep
    exact Option.some.inj hstep ▸ hsame
  | retire q =>
    simp only [LazyPages.step] at hstep
    split_ifs at hstep
    obtain rfl := Option.some.inj hstep
    have hpop : ∀ {c : Caller}, Tables { s with
        retired := q :: s.retired, prestarted := s.prestarted.erase q, caller := c } :=
      h.mono rfl rfl (fun _ hp => hp) fun p hp => by
        dsimp only
        rw [Dict.find?_erase, hp, ite_self]
    rw [LazyPages.retire]
    dsimp only
    split
    · exact hpop
    · exact hpop
  | reap =>
    simp only [LazyPages.step] at hstep
    split_ifs at hstep
    exact Option.some.inj hstep ▸ hsame
  | close =>
    simp only [LazyPages.step] at hstep
    split_ifs at hstep
    exact Option.some.inj hstep ▸ hsame
  | go ok => exact h.callerStep hstep
  | exit d => exact Option.some.inj hstep ▸ hsame

/-! ### Moves -/

theorem phase_setPhase (ph : Phase) : (setPhase ph s d).phase e =
    if e = d then (if d < s.daemons.length then ph else .stopped) else s.phase e := by
  simp only [State.phase, setPhase, List.getElem?_modify]
  by_cases he : e = d
  · subst he
    rw [if_pos rfl]
    by_cases hlt : e < s.daemons.length
    · simp [hlt]
    · simp [hlt]
  · simp [he, Ne.symm he]

theorem length_setPhase (ph : Phase) (s : State) (d : ℕ) :
    (setPhase ph s d).daemons.length = s.daemons.length := List.length_modify ..

theorem phase_stop_self (s : State) (d : ℕ) : (stop s d).phase d = .stopped := by
  rw [stop, phase_setPhase, if_pos rfl, ite_self]

theorem phase_of_stop (h : (stop s d).phase e ≠ .stopped) : s.phase e ≠ .stopped := by
  rw [stop, phase_setPhase, ite_self] at h
  split_ifs at h
  · exact absurd rfl h
  · exact h

/-- A daemon that is gone stays gone, whatever happens to others. -/
theorem phase_of_setPhase {ph : Phase} (hd : s.phase d ≠ .stopped)
    (h : (setPhase ph s d).phase e ≠ .stopped) : s.phase e ≠ .stopped := by
  rw [phase_setPhase] at h
  split_ifs at h with he
  · exact he ▸ hd
  · exact absurd rfl h
  · exact h

theorem phase_of_awaitReady {ok : Bool} (h : (awaitReady s d ok).phase e ≠ .stopped) :
    s.phase e ≠ .stopped := by
  rw [awaitReady] at h
  split_ifs at h with hok
  · exact phase_of_setPhase (by rw [hok.2]; decide) h
  · exact phase_of_stop h

theorem phase_launch (p : String) : (launch s p).phase e =
    if e = s.daemons.length then .starting else s.phase e := by
  simp only [State.phase, launch]
  rcases Nat.lt_trichotomy e s.daemons.length with hlt | heq | hgt
  · rw [List.getElem?_append_left hlt, if_neg (Nat.ne_of_lt hlt)]
  · subst heq
    simp
  · rw [if_neg (Nat.ne_of_gt hgt), List.getElem?_eq_none (by simp; omega),
      List.getElem?_eq_none (by omega)]

/-- What a step does to the places: `gone` leave them and are stopped, and `new` is launched. -/
def Moves (s t : State) : Prop :=
  ∃ gone new rest : Multiset ℕ, s.places = gone + rest ∧ t.places = new + rest ∧
    (∀ d ∈ gone, t.phase d = .stopped) ∧
    (new = 0 ∧ t.daemons.length = s.daemons.length ∨
      new = {s.daemons.length} ∧ t.daemons.length = s.daemons.length + 1) ∧
    ∀ d, t.phase d ≠ .stopped → s.phase d ≠ .stopped ∨ d ∈ new

/-- Nothing is launched. -/
theorem Moves.of_gone (gone : Multiset ℕ) (hplaces : s.places = gone + t.places)
    (hgone : ∀ d ∈ gone, t.phase d = .stopped) (hlen : t.daemons.length = s.daemons.length)
    (hphase : ∀ d, t.phase d ≠ .stopped → s.phase d ≠ .stopped) : Moves s t :=
  ⟨gone, 0, t.places, hplaces, (Multiset.zero_add _).symm, hgone, Or.inl ⟨rfl, hlen⟩,
    fun d hd => Or.inl (hphase d hd)⟩

/-- Nothing changes but the places, and they are the same together. -/
theorem Moves.of_places (hplaces : t.places = s.places) (hdaemons : t.daemons = s.daemons) :
    Moves s t := by
  have hphase : ∀ d, t.phase d = s.phase d := fun d => by rw [State.phase, hdaemons, State.phase]
  refine .of_gone 0 (by rw [hplaces, Multiset.zero_add]) (fun d hd => absurd hd (Multiset.notMem_zero d))
    (by rw [hdaemons]) fun d hd => ?_
  rwa [← hphase]

/-- **Custody survives every move.** -/
theorem Custody.moves (h : Custody s) (hm : Moves s t) : Custody t := by
  obtain ⟨gone, new, rest, hs, ht, hgone, hnew, hphase⟩ := hm
  have hnodup : rest.Nodup := Multiset.nodup_of_le (hs ▸ Multiset.le_add_left _ _) h.nodup
  have hrest : ∀ d ∈ rest, d < s.daemons.length := fun d hd =>
    h.launched d (by rw [hs]; exact Multiset.mem_add.mpr (Or.inr hd))
  have hfresh : s.daemons.length ∉ rest := fun hd => Nat.lt_irrefl _ (hrest _ hd)
  refine ⟨?_, fun d hd => ?_, fun d hd => ?_⟩
  · rw [ht]
    rcases hnew with ⟨rfl, -⟩ | ⟨rfl, -⟩
    · rw [Multiset.zero_add]
      exact hnodup
    · rw [Multiset.singleton_add, Multiset.nodup_cons]
      exact ⟨hfresh, hnodup⟩
  · rw [ht, Multiset.mem_add] at hd
    rcases hnew with ⟨rfl, hlen⟩ | ⟨rfl, hlen⟩
    · rw [hlen]
      exact hrest d (hd.resolve_left (Multiset.notMem_zero d))
    · rw [hlen]
      rcases hd with hd | hd
      · rw [Multiset.mem_singleton.mp hd]
        exact Nat.lt_succ_self _
      · exact Nat.lt_succ_of_lt (hrest d hd)
  · rw [ht, Multiset.mem_add]
    rcases hphase d hd with hrun | hmem
    · have hmem := h.held d hrun
      rw [hs, Multiset.mem_add] at hmem
      exact Or.inr (hmem.resolve_left fun hg => hd (hgone d hg))
    · exact Or.inl hmem

/-! ### One step -/

/-- The worker has made room for its daemon. -/
def Worker.hasRoom : Worker → Bool
  | .evict .. | .start .. | .publish .. => true
  | _ => false

/-- The image of a daemon. -/
def State.path (s : State) (d : ℕ) : Option String := s.daemons[d]?.map Daemon.memPath

/-- The daemon on its way into the table, with its image. -/
def Worker.bound? : Worker → Option (String × ℕ)
  | .start _ p d | .publish _ p d => some (p, d)
  | _ => none

/-- What a step does to the table. -/
structure Turn (cfg : Config) (s t : State) : Prop where
  /-- Daemons change places. -/
  moves : Moves s t
  /-- They keep their images. -/
  path : ∀ d p, s.path d = some p → t.path d = some p
  /-- A daemon is started for its image. -/
  bound : ∀ p d, t.worker.bound? = some (p, d) → s.worker.bound? = some (p, d) ∨ t.path d = some p
  /-- The table shrinks, or takes up the daemon that was on its way, which is still wanted. -/
  table : t.prestarted.entries.Sublist s.prestarted.entries ∨
    ∃ n p d, s.worker = .publish n p d ∧ t.worker = .finish n p ∧ s.closing = false ∧
      p ∉ t.retired ∧ t.prestarted.entries = s.prestarted.entries ++ [(p, d)]
  /-- Room is made before it is used. -/
  room : t.worker.hasRoom = true →
    s.worker.hasRoom = true ∨ t.prestarted.entries.length < cfg.lazyPrestartMax
  /-- Nothing is wanted again. -/
  retired : ∀ p ∈ s.retired, p ∈ t.retired
  /-- An image that is retired loses its daemon. -/
  dropped : ∀ p ∈ t.retired, p ∈ s.retired ∨ p ∉ t.prestarted.keys
  /-- Closing is for good. -/
  closing : s.closing = true → t.closing = true
  /-- A controller that closes clears the table. -/
  cleared : t.closing = true → t.caller ≠ .closing →
    s.closing = true ∧ s.caller ≠ .closing ∨ t.prestarted.entries = []

/-- A step that leaves the table alone, and the worker before or after its room. -/
theorem Turn.quiet (hmoves : Moves s t) (hpath : ∀ d p, s.path d = some p → t.path d = some p)
    (hbound : ∀ p d, t.worker.bound? = some (p, d) → s.worker.bound? = some (p, d) ∨
      t.path d = some p)
    (htable : t.prestarted.entries.Sublist s.prestarted.entries)
    (hroom : t.worker.hasRoom = true → s.worker.hasRoom = true) (hretired : t.retired = s.retired)
    (hclosing : t.closing = s.closing)
    (hcaller : s.caller = .closing → t.caller = .closing ∨ t.prestarted.entries = []) :
    Turn cfg s t where
  moves := hmoves
  path := hpath
  bound := hbound
  table := Or.inl htable
  room h := Or.inl (hroom h)
  retired p hp := hretired ▸ hp
  dropped p hp := Or.inl (hretired ▸ hp)
  closing h := hclosing.trans h
  cleared hc hne := by
    by_cases hs : s.caller = .closing
    · exact Or.inr ((hcaller hs).resolve_left hne)
    · exact Or.inl ⟨hclosing ▸ hc, hs⟩

theorem path_setPhase (ph : Phase) (s : State) (d e : ℕ) :
    (setPhase ph s d).path e = s.path e := by
  simp only [State.path, setPhase, List.getElem?_modify]
  cases s.daemons[e]? with
  | none => rfl
  | some x =>
    simp only [Option.map_eq_map, Option.map_some, Option.some.injEq]
    split_ifs <;> rfl

theorem path_launch (h : s.path e = some p) (q : String) : (launch s q).path e = some p := by
  have hlt : e < s.daemons.length := by
    by_contra hge
    rw [State.path, List.getElem?_eq_none (Nat.le_of_not_lt hge)] at h
    cases h
  rw [State.path, launch, List.getElem?_append_left hlt]
  exact h

theorem path_launch_self (s : State) (p : String) :
    (launch s p).path s.daemons.length = some p := by
  simp [State.path, launch]

/-- The worker's hands are all that differs. -/
theorem places_setWorker (w : Worker) {daemons : List Daemon} {gone : Multiset ℕ}
    (h : s.worker.hands = gone + w.hands) :
    s.places = gone + State.places { s with worker := w, daemons := daemons } := by
  simp only [State.places, h]
  abel

theorem workerStep_turn {ok : Bool} (htables : Tables s) (hstep : workerStep cfg s ok = some t) :
    Turn cfg s t := by
  have hmove : ∀ {w : Worker}, s.worker.hands = w.hands →
      (∀ p d, w.bound? = some (p, d) → s.worker.bound? = some (p, d)) →
      (w.hasRoom = true → s.worker.hasRoom = true) → Turn cfg s { s with worker := w } := by
    intro w hhands hbound hroom
    refine .quiet (.of_places ?_ rfl) (fun _ _ h => h) (fun p d h => Or.inl (hbound p d h))
      (List.Sublist.refl _) hroom rfl rfl Or.inl
    simp only [State.places, hhands]
  rw [LazyPages.workerStep] at hstep
  cases hw : s.worker with
  | idle =>
    simp only [hw] at hstep
    rcases hq : s.queue with _ | ⟨⟨n, p⟩, queue⟩
    · simp [hq] at hstep
    simp only [hq, Option.some.injEq] at hstep
    subst hstep
    refine .quiet (.of_places ?_ rfl) (fun _ _ h => h) (fun p d h => by cases h)
      (List.Sublist.refl _) (fun h => by cases h) rfl rfl Or.inl
    simp only [State.places, hw]
    rfl
  | begin n p =>
    simp only [hw, Option.some.injEq, beginTask] at hstep
    split_ifs at hstep
    · exact hstep ▸ hmove (by rw [hw]; rfl) (fun p d h => by cases h) fun h => by cases h
    subst hstep
    have hentries := Dict.entries_keep_drop s.prestarted (excess cfg s)
    have hlength : (s.prestarted.entries.drop (excess cfg s)).length < cfg.lazyPrestartMax := by
      have hpos := cfg.max_pos
      rw [List.length_drop, excess]
      omega
    refine ⟨.of_places ?_ rfl, fun _ _ h => h, (fun p d h => by cases h), Or.inl ?_,
      fun _ => Or.inr ?_, fun p h => h, fun p h => Or.inl h, id, fun hc hne => Or.inl ⟨hc, hne⟩⟩
    · have hvalues : (s.prestarted.values : Multiset ℕ) =
          ((s.prestarted.entries.take (excess cfg s)).map Prod.snd : Multiset ℕ) +
            ((s.prestarted.entries.drop (excess cfg s)).map Prod.snd : Multiset ℕ) := by
        rw [Multiset.coe_add, ← List.map_append, List.take_append_drop]
        rfl
      simp only [State.places, hw, Worker.hands, Worker.started, Worker.leaving, Dict.values]
      rw [hentries]
      simp only [Dict.values] at hvalues
      rw [hvalues]
      abel
    · dsimp only
      rw [hentries]
      exact List.drop_sublist ..
    · dsimp only
      rw [hentries]
      exact hlength
  | evict n p ds =>
    rcases ds with _ | ⟨d, ds⟩
    · simp only [hw] at hstep
      split_ifs at hstep
      · obtain rfl := Option.some.inj hstep
        refine .quiet ⟨0, {s.daemons.length}, s.places, (Multiset.zero_add _).symm, ?_, ?_,
          Or.inr ⟨rfl, by simp [launch]⟩, fun d hd => ?_⟩ (fun d q h => path_launch h p)
          (fun q d h => Or.inr ?_) (List.Sublist.refl _) (fun _ => by rw [hw]; rfl) rfl rfl Or.inl
        · simp only [State.places, hw, Worker.hands, Worker.started, Worker.leaving, launch]
          rw [Multiset.coe_nil, Multiset.coe_singleton]
          abel
        · exact fun d hd => absurd hd (Multiset.notMem_zero d)
        · change (launch s p).phase d ≠ .stopped at hd
          rw [phase_launch] at hd
          split_ifs at hd with heq
          · exact Or.inr (Multiset.mem_singleton.mpr heq)
          · exact Or.inl hd
        · obtain ⟨rfl, rfl⟩ := Prod.mk.inj (Option.some.inj h)
          exact path_launch_self s p
      · exact Option.some.inj hstep ▸ hmove (by rw [hw]; rfl) (fun p d h => by cases h)
          fun h => by cases h
    · simp only [hw, Option.some.injEq] at hstep
      subst hstep
      refine .quiet (.of_gone {d} ?_ (fun e he => ?_) (length_setPhase ..)
        fun e he => phase_of_stop he) (fun e q h => (path_setPhase ..).trans h)
        (fun q e h => by cases h) (List.Sublist.refl _) (fun _ => by rw [hw]; rfl) rfl rfl Or.inl
      · refine places_setWorker _ ?_
        rw [hw]
        simp only [Worker.hands, Worker.started, Worker.leaving, Multiset.coe_nil,
          Multiset.zero_add, ← Multiset.cons_coe, Multiset.singleton_add]
      · rw [Multiset.mem_singleton.mp he]
        exact phase_stop_self s d
  | start n p d =>
    simp only [hw, Option.some.injEq] at hstep
    subst hstep
    by_cases hok : ok = true ∧ s.phase d = .starting
    · simp only [hok, and_self, if_true]
      refine .quiet (.of_gone 0 ?_ (fun e he => absurd he (Multiset.notMem_zero e))
        (length_setPhase ..) fun e he => phase_of_awaitReady he)
        (fun e q h => (path_setPhase ..).trans h) (fun q e h => Or.inl ?_) (List.Sublist.refl _)
        (fun _ => by rw [hw]; rfl) rfl rfl Or.inl
      · refine places_setWorker _ ?_
        rw [hw, Multiset.zero_add]
        rfl
      · rw [hw]
        exact h
    · simp only [if_neg hok]
      refine .quiet (.of_gone {d} ?_ (fun e he => ?_) (length_setPhase ..)
        fun e he => phase_of_awaitReady he) (fun e q h => (path_setPhase ..).trans h)
        (fun q e h => by cases h) (List.Sublist.refl _) (fun h => by cases h) rfl rfl Or.inl
      · refine places_setWorker _ ?_
        rw [hw]
        rfl
      · rw [Multiset.mem_singleton.mp he]
        change (awaitReady s d ok).phase d = .stopped
        rw [awaitReady, if_neg hok]
        exact phase_stop_self s d
  | publish n p d =>
    simp only [hw, Option.some.injEq, publishTask] at hstep
    split_ifs at hstep with hunwanted
    · exact hstep ▸ hmove (by rw [hw]; rfl) (fun p d h => by cases h) fun h => by cases h
    subst hstep
    simp only [not_or, Bool.not_eq_true] at hunwanted
    have hfree : s.prestarted.find? p = none := htables.idle p (Or.inl (by rw [hw]; rfl))
    have hentries := Dict.entries_set_of_none d hfree
    refine ⟨.of_places ?_ rfl, fun _ _ h => h, (fun p d h => by cases h),
      Or.inr ⟨n, p, d, hw, rfl, hunwanted.1, hunwanted.2, hentries⟩, (fun h => by cases h),
      fun p h => h, fun p h => Or.inl h, id, fun hc hne => Or.inl ⟨hc, hne⟩⟩
    simp only [State.places, hw, Worker.hands, Worker.started, Worker.leaving, Dict.values]
    rw [hentries, List.map_append, ← Multiset.coe_add]
    simp only [List.map_cons, List.map_nil, Multiset.coe_nil, Multiset.coe_singleton]
    abel
  | drop n p d =>
    simp only [hw, Option.some.injEq] at hstep
    subst hstep
    refine .quiet (.of_gone {d} ?_ (fun e he => ?_) (length_setPhase ..)
      fun e he => phase_of_stop he) (fun e q h => (path_setPhase ..).trans h)
      (fun q e h => by cases h) (List.Sublist.refl _) (fun h => by cases h) rfl rfl Or.inl
    · refine places_setWorker _ ?_
      rw [hw]
      rfl
    · rw [Multiset.mem_singleton.mp he]
      exact phase_stop_self s d
  | finish n p =>
    simp only [hw, Option.some.injEq, finishTask] at hstep
    subst hstep
    refine .quiet (.of_places ?_ rfl) (fun _ _ h => h) (fun p d h => by cases h)
      (List.Sublist.refl _) (fun h => by cases h) rfl rfl Or.inl
    simp only [State.places, hw]
    rfl
  | returning n =>
    simp only [hw, Option.some.injEq] at hstep
    subst hstep
    refine .quiet (.of_places ?_ rfl) (fun _ _ h => h) (fun p d h => by cases h)
      (List.Sublist.refl _) (fun h => by cases h) rfl rfl Or.inl
    simp only [State.places, hw]
    rfl

/-- The controller's hands are all that differs. -/
theorem places_setCaller (c : Caller) {daemons : List Daemon} {gone : Multiset ℕ}
    (h : s.caller.hands = gone + c.hands) :
    s.places = gone + State.places { s with caller := c, daemons := daemons } := by
  simp only [State.places, h]
  abel

theorem values_erase {table : Dict String ℕ} (h : table.find? p = some d) :
    (table.values : Multiset ℕ) = {d} + ((table.erase p).values : Multiset ℕ) := by
  rw [Multiset.singleton_add, Multiset.cons_coe, Multiset.coe_eq_coe]
  exact (Dict.perm_erase h).map Prod.snd

/-- The daemons a reap removes are gone. -/
theorem reap_moves (s : State) :
    ∃ gone : Multiset ℕ, s.places = gone + (reap s).places ∧ ∀ d ∈ gone, s.phase d = .stopped := by
  refine ⟨(s.lazyPageDaemons : Multiset ℕ).filter fun d => ¬ s.phase d ≠ .stopped, ?_, fun d hd => ?_⟩
  · have hsplit := Multiset.filter_add_not (fun d => s.phase d ≠ .stopped)
      (s.lazyPageDaemons : Multiset ℕ)
    simp only [State.places, reap]
    conv_lhs => rw [← hsplit, Multiset.filter_coe]
    abel
  · exact not_not.mp (Multiset.mem_filter.mp hd).2

theorem Moves.reap (s : State) : Moves s (reap s) := by
  obtain ⟨gone, hplaces, hgone⟩ := reap_moves s
  exact .of_gone gone hplaces hgone rfl fun _ h => h

/-- Scheduling a start touches no daemon. -/
theorem schedule_eq (cfg : Config) (s : State) (p : String) : ∃ queue futures n,
    schedule cfg s p = { s with queue := queue, futures := futures, nextTask := n } := by
  rw [schedule]
  split_ifs
  · exact ⟨_, _, _, rfl⟩
  · exact ⟨_, _, _, rfl⟩

theorem callerStep_turn {ok : Bool} (hcustody : Custody s)
    (hstep : callerStep cfg s ok = some t) : Turn cfg s t := by
  have hmove : ∀ {c : Caller}, s.caller ≠ .closing → s.caller.hands = c.hands →
      Turn cfg s { s with caller := c } := by
    intro c hopen hhands
    refine .quiet (.of_places ?_ rfl) (fun _ _ h => h) (fun _ _ h => Or.inl h)
      (List.Sublist.refl _) id rfl rfl fun h => absurd h hopen
    simp only [State.places, hhands]
  have hpop : ∀ {p d}, s.caller ≠ .closing → s.caller.hands = 0 → s.prestarted.find? p = some d →
      Turn cfg s { s with prestarted := s.prestarted.erase p, caller := .inspect p d } := by
    intro p d hopen hhands hfind
    refine .quiet (.of_places ?_ rfl) (fun _ _ h => h) (fun _ _ h => Or.inl h)
      (Dict.entries_erase_sublist ..) id rfl rfl fun h => absurd h hopen
    have hd : (Caller.inspect p d).hands = {d} := rfl
    simp only [State.places, hhands, hd, values_erase hfind]
    abel
  have hstop : ∀ {c : Caller} {d : ℕ}, s.caller ≠ .closing → s.caller.hands = {d} + c.hands →
      Turn cfg s { stop s d with caller := c } := by
    intro c d hopen hhands
    refine .quiet (.of_gone {d} (places_setCaller c hhands) (fun e he => ?_) (length_setPhase ..)
      fun e he => phase_of_stop he) (fun e q h => (path_setPhase ..).trans h)
      (fun _ _ h => Or.inl h) (List.Sublist.refl _) id rfl rfl fun h => absurd h hopen
    rw [Multiset.mem_singleton.mp he]
    exact phase_stop_self s d
  rw [LazyPages.callerStep] at hstep
  cases hc : s.caller with
  | idle => simp [hc] at hstep
  | join q =>
    have hopen : s.caller ≠ .closing := by simp [hc]
    simp only [hc] at hstep
    split at hstep
    · split_ifs at hstep
      exact Option.some.inj hstep ▸ hmove hopen (by rw [hc]; rfl)
    all_goals
      refine Option.some.inj hstep ▸ hmove hopen ?_
      rw [hc]
      first | rfl | (split_ifs <;> rfl)
  | take q =>
    have hopen : s.caller ≠ .closing := by simp [hc]
    simp only [hc, Option.some.injEq, takeFirst] at hstep
    subst hstep
    split
    · rename_i d hfind
      exact hpop hopen (by rw [hc]; rfl) hfind
    · split
      · exact hmove hopen (by rw [hc]; rfl)
      · exact hmove hopen (by rw [hc]; rfl)
  | wait q n =>
    have hopen : s.caller ≠ .closing := by simp [hc]
    simp only [hc] at hstep
    split_ifs at hstep <;> exact Option.some.inj hstep ▸ hmove hopen (by rw [hc]; rfl)
  | retake q =>
    have hopen : s.caller ≠ .closing := by simp [hc]
    simp only [hc, Option.some.injEq, takeSecond] at hstep
    subst hstep
    split
    · rename_i d hfind
      exact hpop hopen (by rw [hc]; rfl) hfind
    · exact hmove hopen (by rw [hc]; rfl)
  | inspect q d =>
    have hopen : s.caller ≠ .closing := by simp [hc]
    simp only [hc] at hstep
    split_ifs at hstep with hdead
    · obtain rfl := Option.some.inj hstep
      refine .quiet (.of_gone {d} (places_setCaller _ ?_) (fun e he => ?_) rfl fun e he => he)
        (fun _ _ h => h) (fun _ _ h => Or.inl h) (List.Sublist.refl _) id rfl rfl
        fun h => absurd h hopen
      · rw [hc]
        rfl
      · rw [Multiset.mem_singleton.mp he]
        exact hdead
    · obtain rfl := Option.some.inj hstep
      refine .quiet (.of_places ?_ rfl) (fun _ _ h => h) (fun _ _ h => Or.inl h)
        (List.Sublist.refl _) id rfl rfl fun h => absurd h hopen
      simp only [State.places, hc, Caller.hands, Caller.started, Caller.leaving, Multiset.coe_nil,
        Multiset.coe_singleton, ← Multiset.coe_add]
      abel
  | spawn q =>
    have hopen : s.caller ≠ .closing := by simp [hc]
    simp only [hc, Option.some.injEq] at hstep
    subst hstep
    obtain ⟨gone, hplaces, hgone⟩ := reap_moves s
    refine .quiet ⟨gone, {s.daemons.length}, (reap s).places, hplaces, ?_, fun e he => ?_,
      Or.inr ⟨rfl, by simp [launch, reap]⟩, fun e he => ?_⟩ (fun e q h => path_launch h _)
      (fun _ _ h => Or.inl h) (List.Sublist.refl _) id rfl rfl fun h => absurd h hopen
    · simp only [State.places, launch, reap, hc, Caller.hands, Caller.started, Caller.leaving,
        Multiset.coe_nil, Multiset.coe_singleton]
      abel
    · have hlt : e < s.daemons.length := by
        refine hcustody.launched e ?_
        rw [hplaces]
        exact Multiset.mem_add.mpr (Or.inl he)
      change (launch (reap s) q).phase e = .stopped
      rw [phase_launch]
      exact (if_neg (Nat.ne_of_lt hlt)).trans (hgone e he)
    · change (launch (reap s) q).phase e ≠ .stopped at he
      rw [phase_launch] at he
      split_ifs at he with heq
      · exact Or.inr (Multiset.mem_singleton.mpr heq)
      · exact Or.inl he
  | starting q d =>
    have hopen : s.caller ≠ .closing := by simp [hc]
    simp only [hc] at hstep
    split_ifs at hstep with hready
    · obtain rfl := Option.some.inj hstep
      refine .quiet (.of_gone 0 ?_ (fun e he => absurd he (Multiset.notMem_zero e))
        (length_setPhase ..) fun e he => phase_of_awaitReady he)
        (fun e q h => (path_setPhase ..).trans h) (fun _ _ h => Or.inl h) (List.Sublist.refl _) id
        rfl rfl fun h => absurd h hopen
      simp only [State.places, awaitReady, setPhase, hc, Caller.hands, Caller.started,
        Caller.leaving, Multiset.coe_nil, Multiset.coe_singleton, ← Multiset.coe_add]
      abel
    · obtain rfl := Option.some.inj hstep
      refine .quiet (.of_gone {d} (places_setCaller _ ?_) (fun e he => ?_) (length_setPhase ..)
        fun e he => phase_of_awaitReady he) (fun e q h => (path_setPhase ..).trans h)
        (fun _ _ h => Or.inl h) (List.Sublist.refl _) id rfl rfl fun h => absurd h hopen
      · rw [hc]
        rfl
      · rw [Multiset.mem_singleton.mp he]
        change (awaitReady s d ok).phase d = .stopped
        rw [awaitReady, if_neg hready]
        exact phase_stop_self s d
  | restoring q d =>
    have hopen : s.caller ≠ .closing := by simp [hc]
    simp only [hc] at hstep
    split_ifs at hstep with hready
    · obtain rfl := Option.some.inj hstep
      have hrun : s.phase d ≠ .stopped := by
        rw [hready.2]
        decide
      refine .quiet (.of_gone 0 (places_setCaller _ ?_)
        (fun e he => absurd he (Multiset.notMem_zero e)) (length_setPhase ..)
        fun e he => phase_of_setPhase hrun he) (fun e q h => (path_setPhase ..).trans h)
        (fun _ _ h => Or.inl h) (List.Sublist.refl _) id rfl rfl fun h => absurd h hopen
      rw [hc]
      rfl
    · exact Option.some.inj hstep ▸ hmove hopen (by rw [hc]; rfl)
  | abort q d =>
    have hopen : s.caller ≠ .closing := by simp [hc]
    simp only [hc, Option.some.injEq] at hstep
    subst hstep
    obtain ⟨gone, hplaces, hgone⟩ := reap_moves (stop s d)
    refine .quiet (.of_gone gone ?_ hgone (length_setPhase ..) fun e he => phase_of_stop he)
      (fun e q h => (path_setPhase ..).trans h) (fun _ _ h => Or.inl h) (List.Sublist.refl _) id
      rfl rfl fun h => absurd h hopen
    have hsame : s.places = (stop s d).places := rfl
    rw [hsame, hplaces]
    simp only [State.places, reap, stop, setPhase, hc]
    rfl
  | rearm q =>
    have hopen : s.caller ≠ .closing := by simp [hc]
    simp only [hc, Option.some.injEq] at hstep
    obtain ⟨queue, futures, n, heq⟩ := schedule_eq cfg { s with caller := .idle } q
    rw [← hstep, heq]
    refine .quiet (.of_places ?_ rfl) (fun _ _ h => h) (fun _ _ h => Or.inl h)
      (List.Sublist.refl _) id rfl rfl fun h => absurd h hopen
    simp only [State.places, hc]
    rfl
  | retiring q d =>
    simp only [hc, Option.some.injEq] at hstep
    exact hstep ▸ hstop (by simp [hc]) (by rw [hc]; rfl)
  | closing =>
    simp only [hc] at hstep
    split_ifs at hstep
    obtain rfl := Option.some.inj hstep
    refine .quiet (.of_places ?_ rfl) (fun _ _ h => h) (fun _ _ h => Or.inl h)
      (List.nil_sublist _) id rfl rfl fun _ => Or.inr rfl
    simp only [State.places, hc, Caller.hands, Caller.started, Caller.leaving, Dict.values,
      Dict.empty, List.map_nil, Multiset.coe_nil]
    abel
  | clearing ds =>
    rcases ds with _ | ⟨d, ds⟩ <;> simp only [hc, Option.some.injEq] at hstep
    · exact hstep ▸ hmove (by simp [hc]) (by rw [hc]; rfl)
    · exact hstep ▸ hstop (by simp [hc]) (by rw [hc]; rfl)

theorem step_turn {l : Label} (htables : Tables s) (hcustody : Custody s)
    (hstep : step cfg s l = some t) : Turn cfg s t := by
  have hcaller : ∀ {c : Caller}, s.caller = .idle → c.hands = 0 →
      State.places { s with caller := c } = s.places := by
    intro c hc hhands
    simp only [State.places, hc, hhands]
    rfl
  cases l with
  | watch q =>
    simp only [step] at hstep
    split_ifs at hstep
    exact Option.some.inj hstep ▸ .quiet (.of_places rfl rfl) (fun _ _ h => h)
      (fun _ _ h => Or.inl h) (List.Sublist.refl _) id rfl rfl Or.inl
  | release q ok =>
    simp only [step] at hstep
    split_ifs at hstep
    exact Option.some.inj hstep ▸ .quiet (.of_places rfl rfl) (fun _ _ h => h)
      (fun _ _ h => Or.inl h) (List.Sublist.refl _) id rfl rfl Or.inl
  | callback q =>
    simp only [step] at hstep
    split at hstep
    · rename_i ok _
      obtain ⟨queue, futures, n, heq⟩ :=
        schedule_eq cfg { s with dumps := s.dumps.set q (.called ok) } q
      rw [heq] at hstep
      obtain rfl := Option.some.inj hstep
      split_ifs
      all_goals
        exact .quiet (.of_places rfl rfl) (fun _ _ h => h) (fun _ _ h => Or.inl h)
          (List.Sublist.refl _) id rfl rfl Or.inl
    · cases hstep
  | work ok => exact workerStep_turn htables hstep
  | restore q =>
    simp only [step] at hstep
    split_ifs at hstep with hc
    refine Option.some.inj hstep ▸ .quiet (.of_places (hcaller hc rfl) rfl) (fun _ _ h => h)
      (fun _ _ h => Or.inl h) (List.Sublist.refl _) id rfl rfl fun h => ?_
    cases hc.symm.trans h
  | retire q =>
    simp only [step] at hstep
    split_ifs at hstep with hc
    have hopen : s.caller ≠ .closing := fun h => by cases hc.symm.trans h
    obtain rfl := Option.some.inj hstep
    have hgone : q ∉ (s.prestarted.erase q).keys :=
      Dict.find?_eq_none_iff.mp (Dict.find?_erase_self ..)
    -- either way the image is retired and its daemon is out of the table
    have hturn : ∀ {c : Caller}, State.places { s with
          retired := q :: s.retired, prestarted := s.prestarted.erase q, caller := c } = s.places →
        Turn cfg s { s with
          retired := q :: s.retired, prestarted := s.prestarted.erase q, caller := c } := fun hp =>
      { moves := .of_places hp rfl
        path := fun _ _ h => h
        bound := fun _ _ h => Or.inl h
        table := Or.inl (Dict.entries_erase_sublist ..)
        room := Or.inl
        retired := fun p hp => List.mem_cons_of_mem _ hp
        dropped := fun p hp => by
          rcases List.mem_cons.mp hp with rfl | hp
          · exact Or.inr hgone
          · exact Or.inl hp
        closing := id
        cleared := fun h _ => Or.inl ⟨h, hopen⟩ }
    rw [retire]
    dsimp only
    split
    · rename_i d hfind
      refine hturn ?_
      have hd : (Caller.retiring q d).hands = {d} := rfl
      have hidle : Caller.idle.hands = 0 := rfl
      simp only [State.places, hc, hd, hidle, values_erase hfind]
      abel
    · rename_i hfind
      refine hturn ?_
      have hsame : s.prestarted.erase q = s.prestarted := by
        refine Dict.ext (List.filter_eq_self.mpr fun p hp => ?_)
        refine decide_eq_true fun heq => ?_
        exact Dict.find?_eq_none_iff.mp hfind (heq ▸ List.mem_map_of_mem hp)
      simp only [State.places, hsame]
  | reap =>
    simp only [step] at hstep
    split_ifs at hstep with hc
    exact Option.some.inj hstep ▸ .quiet (.reap s) (fun _ _ h => h) (fun _ _ h => Or.inl h)
      (List.Sublist.refl _) id rfl rfl Or.inl
  | close =>
    simp only [step] at hstep
    split_ifs at hstep with hc
    obtain rfl := Option.some.inj hstep
    exact
      { moves := .of_places (hcaller hc rfl) rfl
        path := fun _ _ h => h
        bound := fun _ _ h => Or.inl h
        table := Or.inl (List.Sublist.refl _)
        room := Or.inl
        retired := fun _ h => h
        dropped := fun _ h => Or.inl h
        closing := fun _ => rfl
        cleared := fun _ h => absurd rfl h }
  | go ok => exact callerStep_turn hcustody hstep
  | exit d =>
    obtain rfl := Option.some.inj hstep
    exact .quiet (.of_gone 0 (Multiset.zero_add _).symm
      (fun e he => absurd he (Multiset.notMem_zero e)) (length_setPhase ..)
      fun e he => phase_of_stop he) (fun e q h => (path_setPhase ..).trans h)
      (fun _ _ h => Or.inl h) (List.Sublist.refl _) id rfl rfl Or.inl

/-! ### Whole runs -/

/-- Everything a run keeps. -/
structure Accounts (cfg : Config) (s : State) : Prop extends Tables s, Custody s where
  /-- The worker's room is there. -/
  room : s.worker.hasRoom = true → s.prestarted.entries.length < cfg.lazyPrestartMax
  /-- The idle daemons are bounded. -/
  bounded : s.prestarted.entries.length ≤ cfg.lazyPrestartMax
  /-- A daemon on its way is one of its image. -/
  bound : ∀ p d, s.worker.bound? = some (p, d) → s.path d = some p
  /-- And so is an idle one. -/
  named : ∀ p d, (p, d) ∈ s.prestarted.entries → s.path d = some p
  /-- No image that is retired has an idle one. -/
  retired : ∀ p ∈ s.retired, p ∉ s.prestarted.keys
  /-- A closed controller has none. -/
  cleared : s.closing = true → s.caller ≠ .closing → s.prestarted.entries = []

theorem Accounts.initial (cfg : Config) : Accounts cfg State.initial :=
  { Tables.initial, Custody.initial with
    room := fun h => by cases h
    bounded := Nat.zero_le _
    bound := fun p d h => by cases h
    named := fun p d h => by cases h
    retired := fun p h => by cases h
    cleared := fun _ _ => rfl }

theorem Accounts.step {l : Label} (h : Accounts cfg s) (hstep : step cfg s l = some t) :
    Accounts cfg t := by
  have hturn := step_turn h.toTables h.toCustody hstep
  have hsub : t.prestarted.entries.Sublist s.prestarted.entries → ∀ p, p ∉ s.prestarted.keys →
      p ∉ t.prestarted.keys := fun hs p hp hmem => hp ((hs.map Prod.fst).subset hmem)
  refine { h.toTables.step hstep, h.toCustody.moves hturn.moves with
    room := fun hr => ?_
    bounded := ?_
    bound := fun p d hb => ?_
    named := fun p d hmem => ?_
    retired := fun p hp => ?_
    cleared := fun hc hne => ?_ }
  · rcases hturn.table with hs | ⟨n, p, d, -, hw, -⟩
    · rcases hturn.room hr with hr | hr
      · exact Nat.lt_of_le_of_lt hs.length_le (h.room hr)
      · exact hr
    · rw [hw] at hr
      cases hr
  · rcases hturn.table with hs | ⟨n, p, d, hw, -, -, -, he⟩
    · exact Nat.le_trans hs.length_le h.bounded
    · have hroom := h.room (by rw [hw]; rfl)
      rw [he, List.length_append, List.length_singleton]
      omega
  · rcases hturn.bound p d hb with hb | hb
    · exact hturn.path d p (h.bound p d hb)
    · exact hb
  · rcases hturn.table with hs | ⟨n, q, e, hw, -, -, -, he⟩
    · exact hturn.path d p (h.named p d (hs.subset hmem))
    · rw [he] at hmem
      rcases List.mem_append.mp hmem with hmem | hmem
      · exact hturn.path d p (h.named p d hmem)
      · obtain ⟨rfl, rfl⟩ := Prod.mk.inj (List.mem_singleton.mp hmem)
        exact hturn.path d p (h.bound p d (by rw [hw]; rfl))
  · rcases hturn.dropped p hp with hold | hnew
    · rcases hturn.table with hs | ⟨n, q, e, -, -, -, hq, he⟩
      · exact hsub hs p (h.retired p hold)
      · intro hmem
        rw [Dict.keys, he, List.map_append] at hmem
        rcases List.mem_append.mp hmem with hmem | hmem
        · exact h.retired p hold hmem
        · have heq : p = q := List.mem_singleton.mp hmem
          exact hq (heq ▸ hp)
    · exact hnew
  · rcases hturn.cleared hc hne with ⟨hs, hopen⟩ | hnil
    · have hnil := h.cleared hs hopen
      rcases hturn.table with hsub | ⟨n, q, e, -, -, hcl, -⟩
      · rw [hnil] at hsub
        exact List.eq_nil_of_sublist_nil hsub
      · cases hcl.symm.trans hs
    · exact hnil

/-- What is retired stays so. -/
theorem Accounts.retired_run {labels : List Label} (h : Accounts cfg s) (hp : p ∈ s.retired)
    (hrun : Machine.exec (LazyPages.step cfg) s labels = some t) : p ∉ t.prestarted.keys := by
  have hkept := Machine.invariant (I := fun u => Accounts cfg u ∧ p ∈ u.retired)
    (fun {u a v} hu hstep => ⟨hu.1.step hstep,
      (step_turn hu.1.toTables hu.1.toCustody hstep).retired p hu.2⟩) ⟨h, hp⟩ hrun
  exact hkept.1.retired p hkept.2

/-- A table that was cleared stays empty. -/
theorem Accounts.cleared_run {labels : List Label} (h : Accounts cfg s) (hc : s.closing = true)
    (hnil : s.prestarted.entries = []) (hrun : Machine.exec (LazyPages.step cfg) s labels = some t) :
    t.prestarted.entries = [] := by
  have hkept := Machine.invariant
    (I := fun u => Accounts cfg u ∧ u.closing = true ∧ u.prestarted.entries = [])
    (fun {u a v} hu hstep => by
      obtain ⟨hacc, hclosing, hempty⟩ := hu
      have hturn := step_turn hacc.toTables hacc.toCustody hstep
      refine ⟨hacc.step hstep, hturn.closing hclosing, ?_⟩
      rcases hturn.table with hsub | ⟨n, q, e, -, -, hopen, -⟩
      · rw [hempty] at hsub
        exact List.eq_nil_of_sublist_nil hsub
      · cases hopen.symm.trans hclosing) ⟨h, hc, hnil⟩ hrun
  exact hkept.2.2

/-- **No daemon is leaked, shared or resurrected.** In every run of the threads, every daemon ever
launched is in exactly one place, and in the hands of one thread at most; the idle ones are bounded;
a daemon of a retired image is never idle again; and after the controller has closed, none is. -/
theorem daemons_accounted {labels : List Label}
    (hrun : Machine.exec (step cfg) State.initial labels = some s) :
    (∀ d < s.daemons.length, ∃! place, s.At d place) ∧ s.places.Nodup ∧
    s.prestarted.values.length ≤ cfg.lazyPrestartMax ∧
    ∀ more t, Machine.exec (step cfg) s more = some t →
      (∀ p ∈ s.retired, ∀ d ∈ t.prestarted.values, t.path d ≠ some p) ∧
      (s.closing = true → s.caller ≠ .closing → t.prestarted.values = []) := by
  have h : Accounts cfg s := Machine.invariant (fun hi hstep => hi.step hstep)
    (Accounts.initial cfg) hrun
  refine ⟨fun d _ => h.toCustody.place d, h.nodup, ?_, fun more t hmore => ⟨fun p hp d hd => ?_, ?_⟩⟩
  · rw [Dict.values, List.length_map]
    exact h.bounded
  · have ht : Accounts cfg t := Machine.invariant (fun hi hstep => hi.step hstep) h hmore
    obtain ⟨⟨q, d⟩, hmem, rfl⟩ := List.mem_map.mp hd
    rw [ht.named q d hmem]
    intro heq
    obtain rfl := Option.some.inj heq
    exact h.retired_run hp hmore (List.mem_map_of_mem hmem)
  · intro hc hne
    rw [Dict.values, h.cleared_run hc (h.cleared hc hne) hmore]
    rfl

/-- A restore has used up one daemon, and the one armed after it is being retired. -/
def retireRun : List Label := exampleRun ++ [.work true, .work true, .work true, .retire "/i"]

theorem retireRun_runs :
    (Machine.exec (step exampleConfig) State.initial retireRun).isSome = true := by
  decide +kernel

theorem daemons_accounted_retire :
    ∃ s, Machine.exec (step exampleConfig) State.initial retireRun = some s ∧
      (∃! place, s.At 0 place) ∧ s.At 0 .owned ∧ s.At 1 .leaving := by
  have hrun := (Option.some_get retireRun_runs).symm
  refine ⟨_, hrun, ?_, by decide +kernel, by decide +kernel⟩
  exact (daemons_accounted hrun).1 0 (by decide +kernel)

/-- While a daemon is being retired it is in no table, and it runs. -/
theorem retired_daemon_in_no_table :
    ∃ s, Machine.exec (step exampleConfig) State.initial
        [.watch "/i", .release "/i" true, .callback "/i", .work true, .work true, .work true,
          .work true, .work true, .retire "/i"] = some s ∧
      s.daemons.length = 1 ∧ ¬ s.At 0 .starting ∧ ¬ s.At 0 .idle ∧ ¬ s.At 0 .owned ∧
      ¬ s.At 0 .stopped :=
  ⟨_, rfl, rfl, by decide +kernel, by decide +kernel, by decide +kernel, by decide +kernel⟩

end

end LazyPages

end DeltaBox
