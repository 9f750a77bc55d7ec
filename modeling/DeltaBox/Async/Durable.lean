import DeltaBox.Async.Resources
import Mathlib.Logic.Relation

/-!
# Durable images are closed under ancestry

An incremental image is worth nothing without the images it is a difference to. A checkpoint is
published before its image exists, so at the moment of publication nothing is known about its
ancestors, and an image that is finished can still turn into a failure when its process cannot be
disposed of. `Lineage` says for each stage of a task what is already known.

## Main results

* `Lineage.step` — every step keeps it
* `durable_closed` — a finished image is in place and complete, and so were all its ancestors before
  its dump started; and nothing below a failed one is ever dumped
-/

namespace DeltaBox

namespace Async

open Machine

/-- Every physical parent has finished. -/
def ParentsDone (s : State) (job : Job) : Prop :=
  ∀ p, job.prevCkptId = some p → (s.jobs p).future = some .result

/-- The checkpoint has succeeded. -/
def Succeeded (s : State) (job : Job) : Prop :=
  job.future = some .result ∧ job.state = .durableReady ∧ job.final = some .complete ∧
    ∃ c d, job.criuAt = some c ∧ job.doneAt = some d ∧ c < d ∧ d < s.clock

/-- What is known at each stage of a task. -/
def TaskPc.Known (s : State) (job : Job) : TaskPc → Prop
  | .queued | .waiting => job.criuAt = none
  | .checking | .launch => job.criuAt = none ∧ ParentsDone s job
  | .criu => job.criuAt ≠ none
  | .stats | .move => job.criuAt ≠ none ∧ job.staging = some .complete
  | .size => job.criuAt ≠ none ∧ job.final = some .complete
  | .dispose none | .release none | .settle none =>
    job.criuAt ≠ none ∧ job.final = some .complete ∧ job.state = .durableReady
  | .dispose (some _) | .release (some _) | .settle (some _) => job.state = .durableFailed
  | .done => Succeeded s job ∨ (job.future = some .exception ∧ job.state = .durableFailed)

/-- What is known about a submitted checkpoint. -/
structure Submitted (s : State) (id : String) (pc : TaskPc) : Prop where
  /-- It is registered. -/
  entry : ∃ e, s.registry.find? id = some e ∧ e.exactParent = true
  /-- Its stage. -/
  known : pc.Known s (s.jobs id)
  /-- Its future is pending until it has returned. -/
  pending : pc ≠ .done → (s.jobs id).future = some .pending
  /-- **Its dump has started after its parent was done.** -/
  started : ∀ c, (s.jobs id).criuAt = some c → c < s.clock ∧
    ∀ p, (s.jobs id).prevCkptId = some p → (s.jobs p).future = some .result ∧
      ∃ d, (s.jobs p).doneAt = some d ∧ d < c

/-- **What is known about all checkpoints.** -/
structure Lineage (s : State) : Prop where
  /-- The submitted ones. -/
  submitted : ∀ id ∈ s.admitted, ∀ pc, (s.jobs id).task = some pc → Submitted s id pc
  /-- The others have started nothing. -/
  unstarted : ∀ id ∈ s.admitted, (s.jobs id).task = none → (s.jobs id).criuAt = none
  /-- A physical parent was submitted. -/
  parent : ∀ id ∈ s.admitted, ∀ p, (s.jobs id).prevCkptId = some p →
    p ∈ s.admitted ∧ (s.jobs p).task ≠ none
  /-- The call under way has found its parent. -/
  prepared : ∀ c, s.call = some c → (s.jobs c.id).prevCkptId = c.parent
  /-- A physical entry is one of the two. -/
  registered : ∀ id e, s.registry.find? id = some e → e.exactParent = true →
    id ∈ s.admitted ∧ e.prevCkptId = (s.jobs id).prevCkptId ∧
      ((s.jobs id).task = none → ∃ c, s.call = some c ∧ c.id = id)
  /-- The other entries have no physical parent. -/
  logical : ∀ id e, s.registry.find? id = some e → e.exactParent = false → e.prevCkptId = none

section

variable {maxPending workers : ℕ} {s t : State} {c : Call} {id : String} {job : Job}

theorem Initial.lineage (h : Initial maxPending s) : Lineage s where
  submitted := fun id hid => by rw [h.admitted] at hid; simp at hid
  unstarted := fun id hid => by rw [h.admitted] at hid; simp at hid
  parent := fun id hid => by rw [h.admitted] at hid; simp at hid
  prepared := fun c hc => by rw [h.call] at hc; cases hc
  registered := fun id e he => by rw [h.registry] at he; cases he
  logical := fun id e he => by rw [h.registry] at he; cases he

/-! ### Frames -/

/-- What is known stays known while the clock moves and parents that are done stay as they are. -/
theorem Submitted.mono {pc : TaskPc} (h : Submitted s id pc)
    (hentry : t.registry.find? id = s.registry.find? id) (hjob : t.jobs id = s.jobs id)
    (hclock : s.clock ≤ t.clock)
    (hparents : ∀ p, (s.jobs id).prevCkptId = some p → (s.jobs p).future = some .result →
      t.jobs p = s.jobs p) : Submitted t id pc := by
  refine ⟨by rw [hentry]; exact h.entry, ?_, by rw [hjob]; exact h.pending, fun c hc => ?_⟩
  · have hpd : ParentsDone s (s.jobs id) → ParentsDone t (t.jobs id) := by
      intro hpd p hp
      rw [hjob] at hp
      rw [hparents p hp (hpd p hp)]
      exact hpd p hp
    have hsucc : Succeeded s (s.jobs id) → Succeeded t (t.jobs id) := by
      rw [hjob]
      rintro ⟨hf, hs, hi, c, d, hc, hd, hcd, hlt⟩
      exact ⟨hf, hs, hi, c, d, hc, hd, hcd, by omega⟩
    have hk := h.known
    cases pc with
    | checking => exact ⟨by rw [hjob]; exact hk.1, hpd hk.2⟩
    | launch => exact ⟨by rw [hjob]; exact hk.1, hpd hk.2⟩
    | done => exact hk.imp hsucc fun he => by rw [hjob]; exact he
    | dispose e => rcases e with _ | e <;> (rw [hjob]; exact hk)
    | release e => rcases e with _ | e <;> (rw [hjob]; exact hk)
    | settle e => rcases e with _ | e <;> (rw [hjob]; exact hk)
    | _ => rw [hjob]; exact hk
  · rw [hjob] at hc
    obtain ⟨hlt, hp⟩ := h.started c hc
    refine ⟨by omega, fun p hprev => ?_⟩
    rw [hjob] at hprev
    rw [hparents p hprev (hp p hprev).1]
    exact hp p hprev

/-- The clock moves. -/
theorem Lineage.tick (h : Lineage s) : Lineage { s with clock := s.clock + 1 } :=
  { h with
    submitted := fun id hid pc hpc => (h.submitted id hid pc hpc).mono rfl rfl (Nat.le_succ _)
      fun _ _ _ => rfl }

/-! ### The call -/

theorem Lineage.callStep (h : Lineage s) (hl : Ledger maxPending s) (hc : s.call = some c)
    {o : Outcome} (hstep : callStep s c o = some t) : Lineage t := by
  obtain ⟨job, heff⟩ := callStep_effect hstep
  obtain ⟨hmem, hok⟩ := hl.call c hc
  have hself : t.jobs c.id = job := by rw [heff.jobs, Function.update_self]
  have hne : ∀ x, x ≠ c.id → t.jobs x = s.jobs x := fun x hx => by
    rw [heff.jobs, Function.update_of_ne hx]
  -- what was submitted is not the checkpoint of the call
  have hother : ∀ x, (s.jobs x).task ≠ none → x ≠ c.id := by
    rintro x hx rfl
    exact hx hok.task
  have hreg : ∀ x, x ≠ c.id → t.registry.find? x = s.registry.find? x := by
    intro x hx
    rcases heff.registry with hr | hr | ⟨-, hr⟩
    · rw [hr]
    · rw [hr, Dict.find?_erase_of_ne _ hx]
    · rw [hr, Dict.find?_set_of_ne _ _ hx]
  have hcriu : job.criuAt = none := heff.untouched.criuAt.trans (h.unstarted c.id hmem hok.task)
  have hprev : ∀ x, (t.jobs x).prevCkptId = (s.jobs x).prevCkptId := by
    intro x
    by_cases hxc : x = c.id
    · rw [hxc, hself]
      exact heff.untouched.prevCkptId
    · rw [hne x hxc]
  refine ⟨fun x hx pc hpc => ?_, fun x hx hnone => ?_, fun x hx p hp => ?_, fun c' hc' => ?_,
    fun x e he hex => ?_, fun x e he hex => ?_⟩
  · rw [heff.admitted] at hx
    by_cases hxc : x = c.id
    · -- the submission
      subst hxc
      rw [hself] at hpc
      rcases heff.next with ⟨hsame, -⟩ | ⟨hst, -, hentry, hqueued, hfut⟩
      · cases hok.task.symm.trans (hsame.symm.trans hpc)
      · obtain rfl := Option.some.inj (hqueued.symm.trans hpc)
        have hbal := hok.balanced
        rw [hst] at hbal
        refine ⟨⟨_, by rw [hentry]; exact hbal.2.2.2, rfl⟩, ?_, ?_, ?_⟩
        · rw [hself]
          exact hcriu
        · rw [hself, hfut]
          exact fun _ => hbal.2.1
        · rw [hself, hcriu]
          exact fun _ hn => by cases hn
    · rw [hne x hxc] at hpc
      exact (h.submitted x hx pc hpc).mono (hreg x hxc) (hne x hxc) heff.clock.ge
        fun p hp _ => hne p (hother p (h.parent x hx p hp).2)
  · rw [heff.admitted] at hx
    by_cases hxc : x = c.id
    · rw [hxc, hself]
      exact hcriu
    · rw [hne x hxc] at hnone ⊢
      exact h.unstarted x hx hnone
  · rw [heff.admitted] at hx
    rw [hprev] at hp
    obtain ⟨hpm, hpt⟩ := h.parent x hx p hp
    rw [heff.admitted, hne p (hother p hpt)]
    exact ⟨hpm, hpt⟩
  · rcases heff.next with ⟨-, hnext⟩ | ⟨-, hnone, -⟩
    · obtain ⟨hid, hpar, -⟩ := hnext c' hc'
      rw [hprev, hid, hpar]
      exact h.prepared c hc
    · cases hnone.symm.trans hc'
  · rw [heff.admitted]
    by_cases hxc : x = c.id
    · subst hxc
      refine ⟨hmem, ?_, fun hnone => ?_⟩
      · rw [hprev]
        rcases heff.registry with hr | hr | ⟨-, hr⟩
        · exact (h.registered c.id e (hr ▸ he) hex).2.1
        · rw [hr, Dict.find?_erase_self] at he
          cases he
        · rw [hr, Dict.find?_set_self] at he
          obtain rfl := Option.some.inj he
          exact (h.prepared c hc).symm
      by_contra hcall
      -- without a call the checkpoint would be over, and its entry gone
      have habort := ((hl.callStep hc hstep).ended c.id (heff.admitted ▸ hmem) hnone
        fun c' hc' heq => hcall ⟨c', hc', heq⟩).1
      cases ((hl.callStep hc hstep).aborted c.id habort).2.2.symm.trans he
    · rw [hreg x hxc] at he
      obtain ⟨hxm, hxp, hx⟩ := h.registered x e he hex
      refine ⟨hxm, by rw [hprev]; exact hxp, fun hnone => ?_⟩
      rw [hne x hxc] at hnone
      obtain ⟨c', hc', rfl⟩ := hx hnone
      obtain rfl := Option.some.inj (hc.symm.trans hc')
      exact absurd rfl hxc
  · by_cases hxc : x = c.id
    · subst hxc
      rcases heff.registry with hr | hr | ⟨-, hr⟩
      · exact h.logical c.id e (hr ▸ he) hex
      · rw [hr, Dict.find?_erase_self] at he
        cases he
      · rw [hr, Dict.find?_set_self] at he
        obtain rfl := Option.some.inj he
        cases hex
    · exact h.logical x e (hreg x hxc ▸ he) hex

/-! ### The tasks -/

/-- A parent that is done has succeeded. -/
theorem Lineage.succeeded (h : Lineage s) (hid : id ∈ s.admitted) (htask : (s.jobs id).task ≠ none)
    (hfut : (s.jobs id).future = some .result) : Succeeded s (s.jobs id) := by
  obtain ⟨pc, hpc⟩ := Option.ne_none_iff_exists'.mp htask
  have hsub := h.submitted id hid pc hpc
  by_cases hdone : pc = .done
  · subst hdone
    rcases hsub.known with hk | ⟨hk, -⟩
    · exact hk
    · cases hfut.symm.trans hk
  · cases hfut.symm.trans (hsub.pending hdone)

/-- A task that moves has a pending future. -/
theorem TaskMove.not_done {k : ℕ} {pc : TaskPc} (h : TaskMove s (s.jobs id) job k)
    (hpc : (s.jobs id).task = some pc) : pc ≠ .done := by
  rintro rfl
  have hlt := h.rank_lt
  rw [Job.rank, Job.rank, hpc] at hlt
  exact absurd hlt (Nat.not_lt_zero _)

/-- What a stage of a task leaves as it is. -/
theorem TaskMove.frame {k : ℕ} (h : TaskMove s (s.jobs id) job k) :
    job.prevCkptId = (s.jobs id).prevCkptId ∧ job.task ≠ none ∧
      (job.criuAt = (s.jobs id).criuAt ∨
        (s.jobs id).task = some .launch ∧ job.criuAt = some s.clock) ∧
      (job.task ≠ some .done → job.future = (s.jobs id).future) := by
  cases h with
  | launch htask => exact ⟨rfl, (fun hn => by cases hn), Or.inr ⟨htask, rfl⟩, fun _ => rfl⟩
  | settle error htask => exact ⟨rfl, (fun hn => by cases hn), Or.inl rfl, fun hne => absurd rfl hne⟩
  | _ => exact ⟨rfl, (fun hn => by cases hn), Or.inl rfl, fun _ => rfl⟩

/-- What is known after a stage of a task. -/
theorem TaskMove.known {k : ℕ} {pc pc' : TaskPc} (hmove : TaskMove s (s.jobs id) job k)
    (h : Submitted s id pc) (hpc : (s.jobs id).task = some pc) (hpc' : job.task = some pc')
    (hclock : t.clock = s.clock + 1)
    (hkeep : ∀ p, (s.jobs p).future = some .result → t.jobs p = s.jobs p) : pc'.Known t job := by
  have hk := h.known
  have hold : ∀ {x : TaskPc}, (s.jobs id).task = some x → pc = x := fun hx =>
    Option.some.inj (hpc.symm.trans hx)
  have hpd : ParentsDone s (s.jobs id) → ParentsDone t (s.jobs id) := by
    intro hpd p hp
    rw [hkeep p (hpd p hp)]
    exact hpd p hp
  cases hmove with
  | start htask =>
    obtain rfl := hold htask
    obtain rfl := Option.some.inj hpc'
    exact hk
  | root htask hprev =>
    obtain rfl := hold htask
    obtain rfl := Option.some.inj hpc'
    refine ⟨hk, fun p hp => ?_⟩
    cases hprev.symm.trans hp
  | wait parent htask hprev hfut =>
    obtain rfl := hold htask
    obtain rfl := Option.some.inj hpc'
    refine ⟨hk, hpd fun p hp => ?_⟩
    obtain rfl := Option.some.inj (hprev.symm.trans hp)
    exact hfut
  | check htask =>
    obtain rfl := hold htask
    obtain rfl := Option.some.inj hpc'
    exact ⟨hk.1, hpd hk.2⟩
  | raise x e htask =>
    obtain rfl := Option.some.inj hpc'
    rfl
  | launch htask =>
    obtain rfl := Option.some.inj hpc'
    exact Option.some_ne_none _
  | criu htask =>
    obtain rfl := hold htask
    obtain rfl := Option.some.inj hpc'
    exact ⟨hk, rfl⟩
  | stats htask =>
    obtain rfl := hold htask
    obtain rfl := Option.some.inj hpc'
    exact hk
  | move htask =>
    obtain rfl := hold htask
    obtain rfl := Option.some.inj hpc'
    exact hk
  | size htask =>
    obtain rfl := hold htask
    obtain rfl := Option.some.inj hpc'
    exact ⟨hk.1, hk.2, rfl⟩
  | dispose error htask =>
    obtain rfl := hold htask
    obtain rfl := Option.some.inj hpc'
    rcases error with _ | e <;> exact hk
  | disposeFail error e htask =>
    obtain rfl := Option.some.inj hpc'
    rcases error with _ | e' <;> rfl
  | release error htask =>
    obtain rfl := hold htask
    obtain rfl := Option.some.inj hpc'
    rcases error with _ | e <;> exact hk
  | settle error htask =>
    obtain rfl := hold htask
    obtain rfl := Option.some.inj hpc'
    rcases error with _ | e
    · obtain ⟨hcriu, hfinal, hstate⟩ := hk
      obtain ⟨c, hc⟩ := Option.ne_none_iff_exists'.mp hcriu
      exact Or.inl ⟨rfl, hstate, hfinal, c, s.clock, hc, rfl, (h.started c hc).1, by omega⟩
    · exact Or.inr ⟨rfl, hk⟩

theorem Lineage.run (h : Lineage s) (hid : id ∈ s.admitted) {k : ℕ}
    (hmove : TaskMove s (s.jobs id) job k) :
    Lineage { s.setJob id job with slots := s.slots + k, clock := s.clock + 1 } := by
  set t : State := { s.setJob id job with slots := s.slots + k, clock := s.clock + 1 } with ht
  have hself : t.jobs id = job := State.setJob_self ..
  have hne : ∀ x, x ≠ id → t.jobs x = s.jobs x := fun x hx => State.setJob_of_ne _ _ hx
  obtain ⟨hprev, hsome, hcriu, hfuture⟩ := hmove.frame
  have hmoving : (s.jobs id).task ≠ none := by
    intro hnone
    have hlt := hmove.rank_lt
    rw [Job.rank, Job.rank, hnone] at hlt
    exact absurd hlt (Nat.not_lt_zero _)
  obtain ⟨pc, hpc⟩ := Option.ne_none_iff_exists'.mp hmoving
  have hsub := h.submitted id hid pc hpc
  have hkeep : ∀ p, (s.jobs p).future = some .result → t.jobs p = s.jobs p := by
    intro p hp
    refine hne p ?_
    rintro rfl
    cases hp.symm.trans (hsub.pending (hmove.not_done hpc))
  have htask : ∀ x, (s.jobs x).task ≠ none → (t.jobs x).task ≠ none := by
    intro x hx
    rcases eq_or_ne x id with rfl | hxi
    · rw [hself]
      exact hsome
    · rw [hne x hxi]
      exact hx
  have hprev' : ∀ x, (t.jobs x).prevCkptId = (s.jobs x).prevCkptId := by
    intro x
    rcases eq_or_ne x id with rfl | hxi
    · rw [hself, hprev]
    · rw [hne x hxi]
  refine ⟨fun x hx y hy => ?_, fun x hx hnone => ?_, fun x hx p hp => ?_, fun c hc => ?_,
    fun x e he hex => ?_, h.logical⟩
  · rcases eq_or_ne x id with rfl | hxi
    · rw [hself] at hy
      refine ⟨?_, ?_, fun hyd => ?_, fun c hc => ?_⟩
      · exact hsub.entry
      · rw [hself]
        exact hmove.known hsub hpc hy rfl hkeep
      · rw [hself, hfuture fun hd => hyd (Option.some.inj (hy.symm.trans hd))]
        exact hsub.pending (hmove.not_done hpc)
      · rw [hself] at hc
        rw [hself, hprev]
        change c < s.clock + 1 ∧ _
        rcases hcriu with hcriu | ⟨hlaunch, hcriu⟩
        · obtain ⟨hlt, hpar⟩ := hsub.started c (hcriu.symm.trans hc)
          refine ⟨by omega, fun p hp => ?_⟩
          rw [hkeep p (hpar p hp).1]
          exact hpar p hp
        · -- the dump starts now, and the parent was done before
          obtain rfl := Option.some.inj (hcriu.symm.trans hc)
          obtain rfl := Option.some.inj (hpc.symm.trans hlaunch)
          refine ⟨Nat.lt_succ_self _, fun p hp => ?_⟩
          have hfut := hsub.known.2 p hp
          obtain ⟨hpm, hpt⟩ := h.parent x hid p hp
          obtain ⟨-, -, -, _, d, -, hd, -, hlt⟩ := h.succeeded hpm hpt hfut
          rw [hkeep p hfut]
          exact ⟨hfut, d, hd, hlt⟩
    · rw [hne x hxi] at hy
      exact (h.submitted x hx y hy).mono rfl (hne x hxi) (Nat.le_succ _) fun p _ hp => hkeep p hp
  · have hxi : x ≠ id := by
      rintro rfl
      rw [hself] at hnone
      exact hsome hnone
    rw [hne x hxi] at hnone ⊢
    exact h.unstarted x hx hnone
  · rw [hprev'] at hp
    obtain ⟨hpm, hpt⟩ := h.parent x hx p hp
    exact ⟨hpm, htask p hpt⟩
  · rw [hprev']
    exact h.prepared c hc
  · obtain ⟨hxm, hxp, hx⟩ := h.registered x e he hex
    refine ⟨hxm, by rw [hprev']; exact hxp, fun hnone => hx ?_⟩
    by_contra hsome'
    exact htask x hsome' hnone

/-! ### All steps -/

theorem parentEntry_ok {registry : Dict String Entry} {parentId : Option String} {p : String}
    (h : parentEntry registry parentId = .ok (some p)) :
    ∃ e, registry.find? p = some e ∧ e.exactParent = true := by
  rcases parentId with _ | parentId
  · cases h
  · by_cases hempty : parentId = ""
    · rw [parentEntry, if_pos hempty] at h
      cases h
    · rw [parentEntry, if_neg hempty] at h
      split at h
      · cases h
      · dsimp only at h
        split at h
        · cases h
        · rename_i e he
          split_ifs at h with hex
          cases h
          exact ⟨e, he, hex⟩

theorem preflight_ok {parentId : Option String} {rawCommand p : String}
    (h : preflight s parentId rawCommand = .ok (some p)) :
    ∃ e, s.registry.find? p = some e ∧ e.exactParent = true := by
  rw [preflight] at h
  split at h
  · cases h
  · by_cases hpredump : rawCommand = "predump"
    · rw [if_pos hpredump] at h
      cases h
    · rw [if_neg hpredump] at h
      split at h
      · cases h
      · split_ifs at h
        cases h
      · rename_i q hq
        cases h
        exact parentEntry_ok hq

theorem Lineage.startCall (h : Lineage s) (hcall : s.call = none) (hfresh : Fresh s id)
    (parentId : Option String) (rawCommand : String) (legacy : Outcome) :
    Lineage (startCall s parentId rawCommand id legacy) := by
  rw [Async.startCall]
  split
  · exact h
  · rename_i parent hpre
    split_ifs
    · split
      · -- a lightweight node
        set node : Entry := ⟨parentId, none, parent, false⟩ with hnode
        have hset : ∀ x e, (s.registry.set id node).find? x = some e →
            e = node ∨ s.registry.find? x = some e := by
          intro x e he
          rw [Dict.find?_set] at he
          split_ifs at he
          · exact Or.inl (Option.some.inj he).symm
          · exact Or.inr he
        refine ⟨fun x hx pc hpc => ?_, h.unstarted, h.parent, h.prepared, fun x e he hex => ?_,
          fun x e he hex => ?_⟩
        · have hxi : x ≠ id := fun heq => hfresh.1 (heq ▸ hx)
          exact (h.submitted x hx pc hpc).mono (Dict.find?_set_of_ne _ _ hxi) rfl (Nat.le_refl _)
            fun _ _ _ => rfl
        · rcases hset x e he with rfl | he
          · cases hex
          · exact h.registered x e he hex
        · rcases hset x e he with rfl | he
          · rfl
          · exact h.logical x e he hex
      · exact h
    · exact h
    · -- admitted
      have hne : ∀ x, x ∈ s.admitted →
          Function.update s.jobs id (Job.admitted parent) x = s.jobs x :=
        fun x hx => Function.update_of_ne (fun heq : x = id => hfresh.1 (heq ▸ hx)) ..
      have hself : Function.update s.jobs id (Job.admitted parent) id = Job.admitted parent :=
        Function.update_self ..
      have hparent : ∀ x ∈ insert id s.admitted, ∀ p,
          (Function.update s.jobs id (Job.admitted parent) x).prevCkptId = some p →
            p ∈ s.admitted ∧ (s.jobs p).task ≠ none := by
        intro x hx p hp
        rcases Finset.mem_insert.mp hx with rfl | hx
        · rw [hself] at hp
          obtain rfl : parent = some p := hp
          obtain ⟨e, he, hex⟩ := preflight_ok hpre
          obtain ⟨hpm, -, hcallp⟩ := h.registered p e he hex
          refine ⟨hpm, fun hnone => ?_⟩
          obtain ⟨c, hc, -⟩ := hcallp hnone
          cases hcall.symm.trans hc
        · rw [hne x hx] at hp
          exact h.parent x hx p hp
      refine ⟨fun x hx pc hpc => ?_, fun x hx hnone => ?_, fun x hx p hp => ?_, fun c hc => ?_,
        fun x e he hex => ?_, h.logical⟩
      · change (Function.update s.jobs id (Job.admitted parent) x).task = some pc at hpc
        rcases Finset.mem_insert.mp hx with rfl | hx
        · rw [hself] at hpc
          cases hpc
        · rw [hne x hx] at hpc
          exact (h.submitted x hx pc hpc).mono rfl (hne x hx) (Nat.le_refl _)
            fun p hp _ => hne p (h.parent x hx p hp).1
      · change (Function.update s.jobs id (Job.admitted parent) x).task = none at hnone
        change (Function.update s.jobs id (Job.admitted parent) x).criuAt = none
        rcases Finset.mem_insert.mp hx with rfl | hx
        · rw [hself]
          rfl
        · rw [hne x hx] at hnone ⊢
          exact h.unstarted x hx hnone
      · obtain ⟨hpm, hpt⟩ := hparent x hx p hp
        refine ⟨Finset.mem_insert_of_mem hpm, ?_⟩
        change (Function.update s.jobs id (Job.admitted parent) p).task ≠ none
        rwa [hne p hpm]
      · obtain rfl := Option.some.inj hc
        change (Function.update s.jobs id (Job.admitted parent) id).prevCkptId = parent
        rw [hself]
        rfl
      · obtain ⟨hxm, hxp, hx⟩ := h.registered x e he hex
        refine ⟨Finset.mem_insert_of_mem hxm, ?_, fun hnone => ?_⟩
        · change _ = (Function.update s.jobs id (Job.admitted parent) x).prevCkptId
          rw [hne x hxm]
          exact hxp
        change (Function.update s.jobs id (Job.admitted parent) x).task = none at hnone
        rw [hne x hxm] at hnone
        obtain ⟨c, hc, -⟩ := hx hnone
        cases hcall.symm.trans hc

/-- **Every step keeps what is known.** -/
theorem Lineage.step {a : Action} (h : Lineage s) (hl : Ledger maxPending s)
    (hstep : step workers s a = some t) : Lineage t := by
  obtain ⟨u, hu, rfl⟩ := Option.map_eq_some_iff.mp hstep
  cases a with
  | checkpoint parentId rawCommand x legacy =>
    rw [move] at hu
    split_ifs at hu with hguard
    obtain rfl := Option.some.inj hu
    have hclock : (Async.startCall s parentId rawCommand x legacy).clock = s.clock := by
      rw [Async.startCall]
      split
      · rfl
      · split_ifs
        · split <;> rfl
        · rfl
        · rfl
    rw [← hclock]
    exact (h.startCall hguard.1 hguard.2 parentId rawCommand legacy).tick
  | advance o =>
    obtain ⟨c, hc, hstep⟩ := Option.bind_eq_some_iff.mp hu
    obtain ⟨job, heff⟩ := callStep_effect hstep
    rw [← heff.clock]
    exact (h.callStep hl hc hstep).tick
  | run x fault =>
    rw [move] at hu
    split_ifs at hu with hx
    obtain ⟨job, k, hmove, rfl⟩ := taskStep_move hu
    exact h.run hx hmove

/-! ### Ancestors -/

/-- The physical parent of an admitted checkpoint. -/
def PrevOf (s : State) (id p : String) : Prop := id ∈ s.admitted ∧ (s.jobs id).prevCkptId = some p

/-- The physical ancestors. -/
def Ancestor (s : State) (a id : String) : Prop := Relation.TransGen (PrevOf s) id a

/-- **A dump that has started is above finished images only.** -/
theorem Lineage.ancestors_done (h : Lineage s) {c : ℕ} (hc : (s.jobs id).criuAt = some c)
    {a : String} (ha : Ancestor s a id) :
    a ∈ s.admitted ∧ (s.jobs a).task ≠ none ∧ (s.jobs a).future = some .result ∧
      ∃ d, (s.jobs a).doneAt = some d ∧ d < c := by
  -- the parent of a dump that has started
  have hstart : ∀ {x p : String} {c : ℕ}, PrevOf s x p → (s.jobs x).criuAt = some c →
      p ∈ s.admitted ∧ (s.jobs p).task ≠ none ∧ (s.jobs p).future = some .result ∧
        ∃ d, (s.jobs p).doneAt = some d ∧ d < c := by
    intro x p c ⟨hx, hp⟩ hc
    obtain ⟨hpm, hpt⟩ := h.parent x hx p hp
    have htask : (s.jobs x).task ≠ none := fun hnone => by
      cases hc.symm.trans (h.unstarted x hx hnone)
    obtain ⟨pc, hpc⟩ := Option.ne_none_iff_exists'.mp htask
    exact ⟨hpm, hpt, ((h.submitted x hx pc hpc).started c hc).2 p hp⟩
  induction ha with
  | single hp => exact hstart hp hc
  | tail _ hp ih =>
    obtain ⟨hbm, hbt, hbf, d, hd, hlt⟩ := ih
    obtain ⟨-, -, -, c', d', hc', hd', hlt', -⟩ := h.succeeded hbm hbt hbf
    obtain ⟨ham, hat, haf, d'', hd'', hlt''⟩ := hstart hp hc'
    obtain rfl := Option.some.inj (hd.symm.trans hd')
    exact ⟨ham, hat, haf, d'', hd'', by omega⟩

theorem Ancestor.head_admitted {a : String} (ha : Ancestor s a id) : id ∈ s.admitted := by
  obtain ⟨x, hp, -⟩ := Relation.TransGen.head'_iff.mp ha
  exact hp.1

theorem Lineage.submitted_of_ancestor (h : Lineage s) {a : String} (ha : Ancestor s a id) :
    a ∈ s.admitted ∧ (s.jobs a).task ≠ none := by
  obtain ⟨x, -, hp⟩ := Relation.TransGen.tail'_iff.mp ha
  exact h.parent x hp.1 a hp.2

/-- A future with a result belongs to a task. -/
theorem Ledger.task_of_result (hl : Ledger maxPending s) (hid : id ∈ s.admitted)
    (hfut : (s.jobs id).future = some .result) : (s.jobs id).task ≠ none := by
  intro hnone
  by_cases hcall : ∃ c, s.call = some c ∧ c.id = id
  · obtain ⟨c, hc, rfl⟩ := hcall
    have hbal := (hl.call c hc).2.balanced
    cases hh : c.stage.holding with
    | slot => rw [hh] at hbal; cases hbal.2.1.symm.trans hfut
    | pidfd => rw [hh] at hbal; cases hbal.2.1.symm.trans hfut
    | future => rw [hh] at hbal; cases hbal.2.1.symm.trans hfut
    | failing => rw [hh] at hbal; rcases hbal.1 with hf | hf <;> cases hf.symm.trans hfut
    | cleaning =>
      rw [hh] at hbal
      rcases hbal.2.2 with ⟨hf, -⟩ | ⟨hf, -⟩ <;> cases hf.symm.trans hfut
  · obtain ⟨-, hok⟩ := hl.ended id hid hnone fun c hc heq => hcall ⟨c, hc, heq⟩
    rcases hok.settled with ⟨hf, -⟩ | ⟨hf, -⟩ <;> cases hf.symm.trans hfut

/-- Nothing below a failed image is dumped. -/
theorem Lineage.failed_below (h : Lineage s) (hl : Ledger maxPending s) {a : String}
    (ha : Ancestor s a id) (hid : id ∈ s.admitted) (hfail : (s.jobs a).future = some .exception) :
    (s.jobs id).criuAt = none ∧ (s.jobs id).future ≠ some .result ∧
      ((s.jobs id).task = some .done →
        (s.jobs id).future = some .exception ∧ (s.jobs id).state = .durableFailed) := by
  have hcriu : (s.jobs id).criuAt = none := by
    by_contra hne
    obtain ⟨c, hc⟩ := Option.ne_none_iff_exists'.mp hne
    cases (h.ancestors_done hc ha).2.2.1.symm.trans hfail
  have hresult : (s.jobs id).future ≠ some .result := by
    intro hfut
    obtain ⟨-, -, -, c, d, hc, -⟩ := h.succeeded hid (hl.task_of_result hid hfut) hfut
    cases hcriu.symm.trans hc
  refine ⟨hcriu, hresult, fun hdone => ?_⟩
  rcases (h.submitted id hid _ hdone).known with ⟨hf, -⟩ | hk
  · exact absurd hf hresult
  · exact hk

/-! ### What stays -/

/-- Admitted checkpoints keep their physical parents, and those that are done do not change. -/
structure Kept (s t : State) : Prop where
  admitted : s.admitted ⊆ t.admitted
  prev : ∀ id ∈ s.admitted, (t.jobs id).prevCkptId = (s.jobs id).prevCkptId
  done : ∀ id ∈ s.admitted, (s.jobs id).task = some .done → t.jobs id = s.jobs id

theorem Kept.refl (s : State) : Kept s s := ⟨fun _ hx => hx, fun _ _ => rfl, fun _ _ _ => rfl⟩

theorem Kept.trans {u : State} (h₁ : Kept s t) (h₂ : Kept t u) : Kept s u where
  admitted := fun _ hx => h₂.admitted (h₁.admitted hx)
  prev := fun id hid => (h₂.prev id (h₁.admitted hid)).trans (h₁.prev id hid)
  done := fun id hid hdone => by
    have heq := h₁.done id hid hdone
    rw [h₂.done id (h₁.admitted hid) (by rw [heq]; exact hdone), heq]

/-- One checkpoint changes. -/
theorem Kept.of_update (hjobs : t.jobs = Function.update s.jobs id job)
    (hadm : s.admitted ⊆ t.admitted)
    (hprev : id ∈ s.admitted → job.prevCkptId = (s.jobs id).prevCkptId)
    (hdone : id ∈ s.admitted → (s.jobs id).task ≠ some .done) : Kept s t := by
  refine ⟨hadm, fun x hx => ?_, fun x hx hd => ?_⟩
  · rw [hjobs]
    rcases eq_or_ne x id with rfl | hxi
    · rw [Function.update_self]
      exact hprev hx
    · rw [Function.update_of_ne hxi]
  · rw [hjobs]
    rcases eq_or_ne x id with rfl | hxi
    · exact absurd hd (hdone hx)
    · rw [Function.update_of_ne hxi]

theorem Kept.of_step {a : Action} (hl : Ledger maxPending s) (hstep : step workers s a = some t) :
    Kept s t := by
  obtain ⟨u, hu, rfl⟩ := Option.map_eq_some_iff.mp hstep
  suffices h : Kept s u from ⟨h.admitted, h.prev, h.done⟩
  cases a with
  | checkpoint parentId rawCommand x legacy =>
    rw [move] at hu
    split_ifs at hu with hguard
    obtain rfl := Option.some.inj hu
    rw [startCall]
    split
    · exact Kept.refl s
    · split_ifs
      · split
        · exact ⟨fun _ hx => hx, fun _ _ => rfl, fun _ _ _ => rfl⟩
        · exact Kept.refl s
      · exact Kept.refl s
      · exact Kept.of_update rfl (Finset.subset_insert _ _) (fun hx => absurd hx hguard.2.1)
          fun hx => absurd hx hguard.2.1
  | advance o =>
    obtain ⟨c, hc, hstep⟩ := Option.bind_eq_some_iff.mp hu
    obtain ⟨job, heff⟩ := callStep_effect hstep
    refine Kept.of_update heff.jobs (heff.admitted ▸ fun _ hx => hx)
      (fun _ => heff.untouched.prevCkptId) fun _ hd => ?_
    cases (hl.call c hc).2.task.symm.trans hd
  | run x fault =>
    rw [move] at hu
    split_ifs at hu with hx
    obtain ⟨job, k, hmove, rfl⟩ := taskStep_move hu
    exact Kept.of_update rfl (fun _ hx => hx) (fun _ => hmove.frame.1) fun _ hd =>
      hmove.not_done hd rfl

theorem Kept.ancestor (h : Kept s t) {a : String} (ha : Ancestor s a id) : Ancestor t a id := by
  have hle : PrevOf s ≤ PrevOf t := fun x _ hp =>
    ⟨h.admitted hp.1, (h.prev x hp.1).trans hp.2⟩
  exact Relation.TransGen.mono hle id a ha

end

section

variable {maxPending workers : ℕ} {s₀ s : State} {as : List Action}

/-- Both invariants, after every run. -/
theorem reachable {t : State} (hl : Ledger maxPending s) (h : Lineage s)
    (hrun : exec (step workers) s as = some t) : Ledger maxPending t ∧ Lineage t ∧ Kept s t :=
  invariant (I := fun u => Ledger maxPending u ∧ Lineage u ∧ Kept s u)
    (fun hi hstep => ⟨hi.1.step hstep, hi.2.1.step hi.1 hstep,
      hi.2.2.trans (Kept.of_step hi.1 hstep)⟩) ⟨hl, h, Kept.refl s⟩ hrun

/-- **Durable images are closed under physical ancestry.** In every state that is reached:

* the physical parent that a registered entry names is the one its task uses;
* an entry whose future has a result is ready, its directory is in place and complete, and all its
  ancestors had a result before its CRIU command started;
* below an entry that has failed nothing is dumped and nothing succeeds, now or later, and what has
  returned has failed. -/
theorem durable_closed (h₀ : Initial maxPending s₀) (hrun : exec (step workers) s₀ as = some s) :
    (∀ id e, s.registry.find? id = some e →
      e.prevCkptId = none ∨ id ∈ s.admitted ∧ e.prevCkptId = (s.jobs id).prevCkptId) ∧
    (∀ id ∈ s.admitted, (s.jobs id).future = some .result →
      (s.jobs id).state = .durableReady ∧ (s.jobs id).final = some .complete ∧
        ∃ c, (s.jobs id).criuAt = some c ∧ ∀ a, Ancestor s a id →
          (∃ e, s.registry.find? a = some e) ∧ (s.jobs a).future = some .result ∧
            (s.jobs a).state = .durableReady ∧ ∃ d, (s.jobs a).doneAt = some d ∧ d < c) ∧
    (∀ a id, Ancestor s a id → (s.jobs a).future = some .exception →
      ∀ bs t, exec (step workers) s bs = some t →
        (t.jobs id).criuAt = none ∧ (t.jobs id).future ≠ some .result ∧
          ((t.jobs id).task = some .done → (t.jobs id).future = some .exception)) := by
  obtain ⟨hl, h, -⟩ := reachable h₀.ledger h₀.lineage hrun
  refine ⟨fun id e he => ?_, fun id hid hfut => ?_, fun a id ha hfail bs t ht => ?_⟩
  · cases hex : e.exactParent with
    | false => exact Or.inl (h.logical id e he hex)
    | true =>
      obtain ⟨hid, hprev, -⟩ := h.registered id e he hex
      exact Or.inr ⟨hid, hprev⟩
  · obtain ⟨-, hstate, hfinal, c, _, hc, -⟩ := h.succeeded hid (hl.task_of_result hid hfut) hfut
    refine ⟨hstate, hfinal, c, hc, fun a ha => ?_⟩
    obtain ⟨ham, hat, haf, hd⟩ := h.ancestors_done hc ha
    obtain ⟨pc, hpc⟩ := Option.ne_none_iff_exists'.mp hat
    obtain ⟨e, he, -⟩ := (h.submitted a ham pc hpc).entry
    exact ⟨⟨e, he⟩, haf, (h.succeeded ham hat haf).2.1, hd⟩
  · -- the failed ancestor was submitted, so it has returned and stays as it is
    obtain ⟨ham, hat⟩ := h.submitted_of_ancestor ha
    have hid : id ∈ s.admitted := ha.head_admitted
    obtain ⟨pc, hpc⟩ := Option.ne_none_iff_exists'.mp hat
    have hdone : pc = .done := by
      by_contra hne
      cases ((h.submitted a ham pc hpc).pending hne).symm.trans hfail
    obtain ⟨hlt, ht', hkept⟩ := reachable hl h ht
    have hfail' : (t.jobs a).future = some .exception := by
      rw [hkept.done a ham (hdone ▸ hpc)]
      exact hfail
    obtain ⟨hcriu, hres, hfin⟩ := ht'.failed_below hlt (hkept.ancestor ha) (hkept.admitted hid) hfail'
    exact ⟨hcriu, hres, fun hd => (hfin hd).1⟩

end

/-! ### A run -/

/-- Two checkpoints in a row: the second is published before the first is dumped, and dumped after
it. -/
def exampleChain : List Action :=
  .checkpoint none "standard" "a" .returned :: List.replicate 13 (.advance .returned) ++
    .checkpoint (some "a") "standard" "b" .returned :: List.replicate 13 (.advance .returned) ++
    List.replicate 10 (.run "a" none) ++ List.replicate 11 (.run "b" none)

theorem durable_closed_chain :
    ∃ s, exec (step 2) exampleStart exampleChain = some s ∧ Ancestor s "a" "b" ∧
      (s.jobs "b").state = .durableReady ∧ ∃ c, (s.jobs "b").criuAt = some c ∧
        ∃ d, (s.jobs "a").doneAt = some d ∧ d < c := by
  obtain ⟨s, hs⟩ := Option.isSome_iff_exists.mp
    (show (exec (step 2) exampleStart exampleChain).isSome by decide +kernel)
  have hrun : (exec (step 2) exampleStart exampleChain).all (fun s =>
      "b" ∈ s.admitted ∧ (s.jobs "b").future = some .result ∧
        (s.jobs "b").prevCkptId = some "a") = true := by
    decide +kernel
  rw [hs, Option.all_some, decide_eq_true_eq] at hrun
  obtain ⟨hb, hfut, hprev⟩ := hrun
  have ha : Ancestor s "a" "b" := Relation.TransGen.single ⟨hb, hprev⟩
  obtain ⟨hstate, -, c, hc, hanc⟩ := (durable_closed exampleStart_initial hs).2.1 "b" hb hfut
  exact ⟨s, hs, ha, hstate, c, hc, (hanc "a" ha).2.2.2⟩

end Async

end DeltaBox
