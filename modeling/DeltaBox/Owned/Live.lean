import DeltaBox.Owned.Safe

/-!
# No child that has terminated is overlooked

`SIGCHLD` may be delivered while the handler is at work, behind the look at the child it is about, and
also between its last look at `reap_pending` and the end of its work. The call that is nested there
leaves a note, or does the work itself.

A call *promises* to deal with the children that had terminated: it is before the point where it
lists the children, or it has still to look at all of them, or there is a note that it has still to
look at. When a call breaks its promise, the note has been taken by a call above it, which promises
in its turn; when the last call returns, there is nothing left to be promised.

## Main definitions

* `Frame.Promises` — what a call is going to do
* `Covered` — somebody promises
* `Watch` — the invariant

## Main results

* `kept_atWork`, `kept_light` — a statement of the handler
* `watch_step` — a step
* `none_overlooked` — when no call is going on, all have been reaped or an error is reported
-/

namespace DeltaBox

namespace Owned

open Pidfd (Proc Kernel)

variable {w w' : World} {m m' : Main} {a : Answer}

/-- The children that ought to have been reaped have these pids. -/
def World.DueIn (w : World) (pids : List ℕ) : Prop :=
  ∀ p ∈ w.os.procs, p.id ∈ w.flags.due → p.pid ∈ pids

/-- What a call is going to do. -/
def Frame.Promises (w : World) : Frame → Prop
  | .entry | .check | .defer | .enter | .clear | .list | .fail => True
  | .each pids | .pop _ pids => w.flags.reapPending = true ∨ w.DueIn pids
  | .register r pids => w.flags.reapPending = true ∨ w.DueIn (r.pid :: pids)
  | .wait pid _ pids => w.flags.reapPending = true ∨ w.DueIn (pid :: pids)
  | .decide | .release | .again => w.flags.reapPending = true

/-- There is an error, or nothing to do, or somebody is going to do it. -/
def Covered (w : World) (fs : List Frame) : Prop :=
  w.flags.liveReapError = true ∨ (∀ p ∈ w.os.procs, p.id ∉ w.flags.due) ∨
    w.flags.producerPid ≠ none ∧ ∃ f ∈ fs, f.Promises w

/-- The invariant. -/
structure Watch (s : State) : Prop where
  inv : Inv s
  past : ∀ id ∈ s.world.flags.due, id < s.world.os.next
  due : ∀ p ∈ s.world.os.procs, p.id ∈ s.world.flags.due →
    p.zombie = true ∧ some p.pid ≠ s.world.flags.child.map Proc.pid
  covered : Covered s.world s.handlers

/-! ### Promises -/

theorem Frame.promises_of_pending {f : Frame} (h : w.flags.reapPending = true) : f.Promises w := by
  cases f with
  | entry | check | defer | enter | clear | list | fail => trivial
  | each | pop | register | wait => exact .inl h
  | decide | release | again => exact h

theorem dueIn_mono {pids : List ℕ} (h : w.DueIn pids) (hprocs : ∀ p ∈ w'.os.procs, p ∈ w.os.procs)
    (hdue : w'.flags.due = w.flags.due) : w'.DueIn pids :=
  fun p hp hmem => h p (hprocs p hp) (hdue ▸ hmem)

/-- A promise stands, unless the note is taken away. -/
theorem Frame.Promises.mono {f : Frame} (h : f.Promises w)
    (hprocs : ∀ p ∈ w'.os.procs, p ∈ w.os.procs) (hdue : w'.flags.due = w.flags.due)
    (hpending : w.flags.reapPending = true → w'.flags.reapPending = true) : f.Promises w' := by
  cases f with
  | entry | check | defer | enter | clear | list | fail => trivial
  | each | pop | register | wait => exact h.imp hpending fun h => dueIn_mono h hprocs hdue
  | decide | release | again => exact hpending h

/-- Nobody is left when there is no pid left. -/
theorem dueIn_nil (h : w.DueIn []) : ∀ p ∈ w.os.procs, p.id ∉ w.flags.due :=
  fun p hp hmem => absurd (h p hp hmem) List.not_mem_nil

theorem Shape.exists_atWork {fs : List Frame} (h : Shape true fs) : ∃ f ∈ fs, f.AtWork := by
  generalize hb : true = busy at h
  induction h with
  | nil => cases hb
  | calm => cases hb
  | atWork hf => exact ⟨_, List.mem_cons_self, hf⟩
  | above _ _ ih =>
    obtain ⟨f, hf, hat⟩ := ih hb
    exact ⟨f, List.mem_cons_of_mem _ hf, hat⟩

/-! ### A statement of a call at work -/

/-- The due children have terminated, and none of them has the pid of the producer. -/
def World.Terminated (w : World) : Prop :=
  ∀ p ∈ w.os.procs, p.id ∈ w.flags.due → p.zombie = true ∧ some p.pid ≠ w.flags.producerPid

/-- What has become of the promise of a call at work. -/
def Kept (w' : World) (f' : Frame) : Prop :=
  w'.flags.liveReapError = true ∨ (∀ p ∈ w'.os.procs, p.id ∉ w'.flags.due) ∨ f'.Promises w'

theorem kept_list {l : List ℕ} (hterm : w.Terminated) (hlists : w.lists l = true) :
    Kept w (.each (l.filter fun pid => some pid ≠ w.flags.producerPid)) := by
  refine .inr (.inr (.inr fun p hp hmem => ?_))
  have hin : p.pid ∈ l :=
    of_decide_eq_true (List.all_eq_true.mp (Bool.and_eq_true_iff.mp hlists).1 p hp)
  exact List.mem_filter.mpr ⟨hin, decide_eq_true (hterm p hp hmem).2⟩

theorem kept_register {r : Reg} {pids : List ℕ} {f' : Frame} (hs : Safe w) (hd : w.Does (.reg r))
    (hp : (Frame.register r pids).Promises w)
    (h : w.handle (.register r pids) a = some (w', some f')) : Kept w' f' := by
  obtain ⟨⟨w₁, out⟩, hreg, heq⟩ := Option.map_eq_some_iff.mp h
  obtain ⟨-, -, habout, hk⟩ := reg_spec hs hd hreg
  have hdue : w₁.flags.due = w.flags.due := by rw [hk.flags]
  have hpending : w.flags.reapPending = true → w₁.flags.reapPending = true := by
    rw [hk.flags]
    exact id
  have hp' := Frame.Promises.mono hp hk.procs hdue hpending
  cases out with
  | next r' =>
    cases heq
    have hpid : r'.pid = r.pid := habout
    exact .inr (.inr (hp'.imp_right fun h => hpid ▸ h))
  | done pid' r' =>
    cases heq
    have hpid : pid' = r.pid := habout
    exact .inr (.inr (hp'.imp_right fun h => hpid ▸ h))
  | raised e =>
    cases e with
    | vanished =>
      cases heq
      -- no child has the pid
      refine .inr (.inr (hp'.imp_right fun h p hp hmem => ?_))
      exact (List.mem_cons.mp (h p hp hmem)).resolve_left
        (Kernel.byPid_eq_none habout p (hk.procs p hp))
    | other =>
      cases heq
      exact .inr (.inr trivial)

theorem kept_wait {pid : ℕ} {r : Record} {pids : List ℕ} {f' : Frame} (hs : Safe w)
    (hterm : w.Terminated) (hd : w.Does (.entry pid r)) (hp : (Frame.wait pid r pids).Promises w)
    (h : w.handle (.wait pid r pids) a = some (w', some f')) : Kept w' f' := by
  obtain ⟨⟨w₁, out⟩, hwait, heq⟩ := Option.map_eq_some_iff.mp h
  obtain ⟨-, -, habout, hk⟩ := waitid_spec hs hd hwait
  cases out with
  | reaped p =>
    cases heq
    obtain ⟨hmem, hpid, hprocs⟩ := habout
    refine .inr (.inr (hp.imp (fun h => ?_) fun h q hq hdue => ?_))
    · change w₁.flags.reapPending = true
      rw [hk.flags]
      exact h
    · -- the child with the pid is gone
      obtain ⟨hq', hne⟩ := Kernel.mem_reap.mp (hprocs ▸ hq)
      refine (List.mem_cons.mp (h q hq' (hk.flags ▸ hdue))).resolve_left fun heq => hne ?_
      rw [hs.os.pids q hq' p hmem (heq.trans hpid.symm)]
  | running =>
    cases heq
    obtain ⟨rfl, p, hmem, hpid, hz⟩ := habout
    refine .inr (.inr (hp.imp_right fun h q hq hdue => ?_))
    refine (List.mem_cons.mp (h q hq hdue)).resolve_left fun heq => ?_
    have hzq := (hterm q hq hdue).1
    rw [hs.os.pids q hq p hmem (heq.trans hpid.symm), hz] at hzq
    cases hzq
  | raised =>
    cases heq
    exact .inr (.inr trivial)

/-- **A call at work keeps its promise.** -/
theorem kept_atWork {f f' : Frame} (hs : Safe w) (hterm : w.Terminated) (hd : w.Does f.work)
    (hat : f.AtWork) (hp : f.Promises w) (h : w.handle f a = some (w', some f')) : Kept w' f' := by
  cases f with
  | register r pids => exact kept_register hs hd hp h
  | wait pid r pids => exact kept_wait hs hterm hd hp h
  | clear =>
    cases a with
    | ok =>
      cases h
      exact .inr (.inr trivial)
    | _ => cases h
  | list =>
    cases a with
    | pids l =>
      obtain ⟨hlists, heq⟩ := Option.ite_none_right_eq_some.mp h
      cases heq
      exact kept_list hterm hlists
    | fails e =>
      cases h
      exact .inr (.inr trivial)
    | _ => cases h
  | each pids =>
    cases a with
    | ok =>
      cases pids with
      | nil =>
        cases h
        exact hp.elim (fun h => .inr (.inr h)) fun h => .inr (.inl (dueIn_nil h))
      | cons pid pids =>
        rw [World.handle] at h
        split at h
        · cases h
          exact .inr (.inr hp)
        · cases h
          exact .inr (.inr hp)
    | _ => cases pids <;> cases h
  | pop pid pids =>
    cases a with
    | ok =>
      cases h
      have hk := pop_keeps w pid
      exact .inr (.inr (Frame.Promises.mono (f := .each pids) hp hk.procs (by rw [hk.flags])
        (by rw [hk.flags]; exact id)))
    | _ => cases h
  | decide =>
    cases a with
    | ok =>
      have hpending : w.flags.reapPending = true := hp
      rw [World.handle, if_pos hpending] at h
      cases h
      exact .inr (.inr trivial)
    | _ => cases h
  | fail =>
    cases a with
    | ok =>
      cases h
      exact .inl rfl
    | _ => cases h
  | release =>
    cases a with
    | ok =>
      cases h
      exact .inr (.inr hp)
    | _ => cases h
  | entry | check | defer | enter | again => cases hat

theorem watch_past {w w' : World} {fs fs' : List Frame} (hw : Watch ⟨w, m, fs⟩)
    (hinv : Inv ⟨w', m', fs'⟩) (hprocs : ∀ p ∈ w'.os.procs, p ∈ w.os.procs)
    (hnext : w'.os.next = w.os.next) (hdue : w'.flags.due = w.flags.due)
    (hchild : w'.flags.child = w.flags.child) (hcovered : Covered w' fs') : Watch ⟨w', m', fs'⟩ where
  inv := hinv
  past id hid := by
    change id < w'.os.next
    rw [hnext]
    exact hw.past id (hdue ▸ hid)
  due p hp hmem := by
    change p.zombie = true ∧ some p.pid ≠ w'.flags.child.map Proc.pid
    rw [hchild]
    exact hw.due p (hprocs p hp) (hdue ▸ hmem)
  covered := hcovered

theorem watch_atWork {f : Frame} {fs : List Frame} {g : Option Frame} (hw : Watch ⟨w, m, f :: fs⟩)
    (hat : f.AtWork) (h : w.handle f a = some (w', g)) : Watch ⟨w', m, g.toList ++ fs⟩ := by
  have hinv := hw.inv
  have hlive : m.stage.Installed := hinv.live nofun
  have hd := hinv.does
  rw [state_work hlive, (hinv.shape.of_atWork hat).1.work_atWork] at hd
  have harmed : w.flags.producerPid = w.flags.child.map Proc.pid :=
    hinv.armed f List.mem_cons_self (by rintro rfl; exact hat)
  have hterm : w.Terminated := fun p hp hmem => harmed ▸ hw.due p hp hmem
  have hnext := inv_atWork hinv hat h
  obtain ⟨f', rfl, hturn⟩ := atWork_spec hinv.safe hd hat (hinv.skips f List.mem_cons_self) h
  obtain ⟨hpid, -, hchild, hdue⟩ := hturn.flags
  refine watch_past hw hnext hturn.procs hturn.next hdue hchild ?_
  obtain herr | hnone | ⟨hsome, f₀, hf₀, hpromise⟩ := hw.covered
  · exact .inl (hturn.error herr)
  · exact .inr (.inl fun p hp => hdue ▸ hnone p (hturn.procs p hp))
  · have hsome' : w'.flags.producerPid ≠ none := hpid ▸ hsome
    rcases List.mem_cons.mp hf₀ with rfl | hmem
    · obtain herr | hnone | hpromise := kept_atWork hinv.safe hterm hd hat hpromise h
      · exact .inl herr
      · exact .inr (.inl hnone)
      · exact .inr (.inr ⟨hsome', f', List.mem_cons_self, hpromise⟩)
    · obtain rfl | hpending := hturn.pending
      · -- it takes the note
        exact .inr (.inr ⟨hsome', _, List.mem_cons_self, trivial⟩)
      · exact .inr (.inr ⟨hsome', f₀, List.mem_cons_of_mem _ hmem,
          hpromise.mono hturn.procs hdue fun htrue => hpending.trans htrue⟩)

/-- What a call that is not at work leaves in its place when it has promised. -/
theorem kept_light {f : Frame} {fs : List Frame} {g : Option Frame}
    (hshape : Shape w.flags.reapBusy (f :: fs)) (hat : ¬ f.AtWork)
    (hsome : w.flags.producerPid ≠ none) (hp : f.Promises w) (h : w.handle f a = some (w', g)) :
    ∃ f' ∈ g.toList ++ fs, f'.Promises w' := by
  cases f with
  | entry =>
    cases a with
    | ok =>
      rw [World.handle, if_neg hsome] at h
      cases h
      exact ⟨.check, List.mem_cons_self, trivial⟩
    | _ => cases h
  | check =>
    cases a with
    | ok =>
      cases h
      refine ⟨_, List.mem_cons_self, ?_⟩
      split_ifs <;> trivial
    | _ => cases h
  | defer =>
    cases a with
    | ok =>
      -- the call that is at work below gets the note
      obtain ⟨hfs, hkind⟩ := hshape.of_light hat
      have hbusy : w.flags.reapBusy = true := by
        by_contra hfalse
        rw [if_neg hfalse] at hkind
        exact hkind
      obtain ⟨f', hmem, -⟩ := (hbusy ▸ hfs).exists_atWork
      cases h
      exact ⟨f', hmem, Frame.promises_of_pending rfl⟩
    | _ => cases h
  | enter =>
    cases a with
    | ok =>
      cases h
      exact ⟨.clear, List.mem_cons_self, trivial⟩
    | _ => cases h
  | again =>
    cases a with
    | ok =>
      have hpending : w.flags.reapPending = true := hp
      have hboth : (w.flags.reapPending && w.flags.producerPid.isSome) = true := by
        rw [hpending, Bool.true_and]
        exact Option.isSome_iff_ne_none.mpr hsome
      rw [World.handle, if_pos hboth] at h
      cases h
      exact ⟨.entry, List.mem_cons_self, trivial⟩
    | _ => cases h
  | clear | list | each | register | wait | pop | decide | fail | release => exact absurd trivial hat

theorem watch_light {f : Frame} {fs : List Frame} {g : Option Frame} (hw : Watch ⟨w, m, f :: fs⟩)
    (hat : ¬ f.AtWork) (h : w.handle f a = some (w', g)) : Watch ⟨w', m, g.toList ++ fs⟩ := by
  have hlight := light_spec hw.inv.shape hat h
  obtain ⟨hpid, -, hchild, hdue⟩ := hlight.flags
  have hos : w'.os = w.os := by rw [hlight.world]
  have hprocs : ∀ p ∈ w'.os.procs, p ∈ w.os.procs := fun p hp => hos ▸ hp
  refine watch_past hw (inv_light hw.inv hat h) hprocs (by rw [hos]) hdue hchild ?_
  obtain herr | hnone | ⟨hsome, f₀, hf₀, hpromise⟩ := hw.covered
  · exact .inl (hlight.error.trans herr)
  · exact .inr (.inl fun p hp => hdue ▸ hnone p (hprocs p hp))
  · refine .inr (.inr ⟨hpid ▸ hsome, ?_⟩)
    rcases List.mem_cons.mp hf₀ with rfl | hmem
    · exact kept_light hw.inv.shape hat hsome hpromise h
    · exact ⟨f₀, List.mem_append_right _ hmem, hpromise.mono hprocs hdue hlight.pending⟩

/-! ### A step -/

theorem mem_terminated {id producerPid : ℕ} (h : id ∈ w.terminated producerPid) :
    ∃ p ∈ w.os.procs, p.id = id ∧ p.zombie = true ∧ p.pid ≠ producerPid := by
  obtain ⟨p, hp, rfl⟩ := List.mem_map.mp h
  obtain ⟨hmem, hz⟩ := List.mem_filter.mp hp
  rw [Bool.and_eq_true, decide_eq_true_eq] at hz
  exact ⟨p, hmem, rfl, hz⟩

/-- The handler is called. -/
theorem watch_notice {fs : List Frame} (hw : Watch ⟨w, m, fs⟩)
    (hinv : Inv ⟨w.notice, m', .entry :: fs⟩) : Watch ⟨w.notice, m', .entry :: fs⟩ := by
  have hos := hw.inv.safe.os
  have hpid := hw.inv.phase.producerPid
  cases hproducer : w.flags.producerPid with
  | none =>
    have hnotice : w.notice = w := by rw [World.notice, hproducer]
    rw [hnotice] at hinv ⊢
    refine ⟨hinv, hw.past, hw.due, hw.covered.imp_right (Or.imp_right ?_)⟩
    rintro ⟨hsome, f, hf, hp⟩
    exact ⟨hsome, f, List.mem_cons_of_mem _ hf, hp⟩
  | some pid =>
    have hnotice : w.notice = { w with flags.due := w.terminated pid } := by
      rw [World.notice, hproducer]
    have hchild : some pid = w.flags.child.map Proc.pid := by
      rw [← hproducer]
      exact hpid.resolve_left (by rw [hproducer]; exact Option.some_ne_none pid)
    rw [hnotice] at hinv ⊢
    refine ⟨hinv, fun id hid => ?_, fun p hp hmem => ?_, .inr (.inr ⟨?_, .entry, ?_, trivial⟩)⟩
    · obtain ⟨p, hp, rfl, -⟩ := mem_terminated hid
      exact hos.fresh p hp
    · obtain ⟨q, hq, hid, hz, hne⟩ := mem_terminated hmem
      rw [← hos.ids q hq p hp hid]
      exact ⟨hz, fun heq => hne (Option.some.inj (heq.trans hchild.symm))⟩
    · change w.flags.producerPid ≠ none
      rw [hproducer]
      exact Option.some_ne_none pid
    · exact List.mem_cons_self

theorem covered_nil (h : Covered w []) :
    w.flags.liveReapError = true ∨ ∀ p ∈ w.os.procs, p.id ∉ w.flags.due := by
  obtain h | h | ⟨-, f, hf, -⟩ := h
  · exact .inl h
  · exact .inr h
  · cases hf

theorem watch_main (hw : Watch ⟨w, m, []⟩) (h : w.main m a = some (w', m')) : Watch ⟨w', m', []⟩ := by
  have hmove := main_spec hw.inv.safe hw.inv.does hw.inv.phase hw.inv.closed h
  have hflags := hmove.flags
  have hdue : w'.flags.due = w.flags.due := by rw [hflags]
  refine watch_past hw (inv_main hw.inv rfl h) hmove.procs hmove.next hdue (by rw [hflags]) ?_
  obtain herr | hnone := covered_nil hw.covered
  · exact .inl (by rw [hflags]; exact herr)
  · exact .inr (.inl fun p hp => hdue ▸ hnone p (hmove.procs p hp))

variable {s t : State}

theorem watch_adopt {pid ticks : ℕ} (hw : Watch s) (hstep : step s (.adopt pid ticks) = some t) :
    Watch t := by
  have hinv := inv_step hw.inv hstep
  obtain ⟨-, heq⟩ := Option.ite_none_right_eq_some.mp hstep
  cases heq
  have hold : ∀ p ∈ (s.world.os.fork pid ticks).procs, p.id ∈ s.world.flags.due →
      p ∈ s.world.os.procs := by
    intro p hp hmem
    rcases Kernel.mem_fork.mp hp with hp | rfl
    · exact hp
    · exact absurd (hw.past _ hmem) (Nat.lt_irrefl _)
  refine ⟨hinv, fun id hid => Nat.lt_succ_of_lt (hw.past id hid),
    fun p hp hmem => hw.due p (hold p hp hmem) hmem, hw.covered.imp_right (Or.imp ?_ ?_)⟩
  · exact fun hnone p hp hmem => hnone p (hold p hp hmem) hmem
  · rintro ⟨hsome, f, hf, hp⟩
    refine ⟨hsome, f, hf, ?_⟩
    have hin : ∀ pids, s.world.DueIn pids →
        World.DueIn { s.world with os := s.world.os.fork pid ticks } pids :=
      fun pids h p hp hmem => h p (hold p hp hmem) hmem
    cases f with
    | entry | check | defer | enter | clear | list | fail => trivial
    | each | pop | register | wait => exact hp.imp_right (hin _)
    | decide | release | again => exact hp

theorem watch_exits {id : ℕ} (hw : Watch s) (hstep : step s (.exits id) = some t) : Watch t := by
  have hinv := inv_step hw.inv hstep
  cases hstep
  refine ⟨hinv, hw.past, fun p hp hmem => ?_, hw.covered.imp_right (Or.imp ?_ ?_)⟩
  · obtain ⟨q, hq, hid, hpid, -, hz, -⟩ := Kernel.mem_exits hp
    obtain ⟨hzq, hne⟩ := hw.due q hq (hid ▸ hmem)
    exact ⟨hz hzq, hpid ▸ hne⟩
  · intro hnone p hp hmem
    obtain ⟨q, hq, hid, -⟩ := Kernel.mem_exits hp
    exact hnone q hq (hid ▸ hmem)
  · rintro ⟨hsome, f, hf, hp⟩
    refine ⟨hsome, f, hf, ?_⟩
    have hin : ∀ pids, s.world.DueIn pids →
        World.DueIn { s.world with os := s.world.os.exits id } pids := by
      intro pids h p hp hmem
      obtain ⟨q, hq, hid, hpid, -⟩ := Kernel.mem_exits hp
      rw [hpid]
      exact h q hq (hid ▸ hmem)
    cases f with
    | entry | check | defer | enter | clear | list | fail => trivial
    | each | pop | register | wait => exact hp.imp_right (hin _)
    | decide | release | again => exact hp

theorem watch_popen {pid ticks : ℕ} (hw : Watch s) (hstep : step s (.popen pid ticks) = some t) :
    Watch t := by
  have hinv := inv_step hw.inv hstep
  obtain ⟨⟨hmain, -⟩, heq⟩ := Option.ite_none_right_eq_some.mp hstep
  cases heq
  have hph := hw.inv.phase
  rw [hmain] at hph
  have hdue : ∀ id, id ∉ s.world.flags.due := by
    rw [hph.2.2.2]
    exact fun _ => List.not_mem_nil
  exact ⟨hinv, fun id hid => absurd hid (hdue id), fun p _ hmem => absurd hmem (hdue _),
    .inr (.inl fun p _ => hdue _)⟩

theorem watch_step {act : Act} (hw : Watch s) (hstep : step s act = some t) : Watch t := by
  have hinv := inv_step hw.inv hstep
  cases act with
  | adopt pid ticks => exact watch_adopt hw hstep
  | exits id => exact watch_exits hw hstep
  | popen pid ticks => exact watch_popen hw hstep
  | deliver =>
    obtain ⟨-, heq⟩ := Option.ite_none_right_eq_some.mp hstep
    cases heq
    exact watch_notice hw hinv
  | go a =>
    obtain ⟨w, m, fs⟩ := s
    cases fs with
    | cons f fs =>
      obtain ⟨⟨w', g⟩, h, heq⟩ := Option.map_eq_some_iff.mp hstep
      cases heq
      by_cases hat : f.AtWork
      · exact watch_atWork hw hat h
      · exact watch_light hw hat h
    | nil =>
      change (if m = .first then some ⟨w.notice, .waiting, [.entry]⟩ else _) = some t at hstep
      split_ifs at hstep with hmain
      · cases hstep
        exact watch_notice hw hinv
      · obtain ⟨⟨w', m'⟩, h, heq⟩ := Option.map_eq_some_iff.mp hstep
        cases heq
        exact watch_main hw h

theorem Watch.init : Watch .init :=
  ⟨.init, nofun, nofun, .inr (.inl fun _ _ => List.not_mem_nil)⟩

end Owned

end DeltaBox
