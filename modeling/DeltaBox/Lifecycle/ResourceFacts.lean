import DeltaBox.Lifecycle.Resources
import Mathlib.Algebra.Order.Ring.Nat
import Mathlib.Data.List.Nodup

/-!
# What is true of the resources of a replay at any time

The pid of a process does not change, nobody but the replay waits for the processes that it has
started, and a number is never given to a second process. So what has once been seen of a process
stays true of it, while there may be another one with its pid.

## Main definitions

* `Later` — what may have become of a world
* `Facts` — what is true of the processes, of what is owned, and of the signals
* `World.own` — the owners of the descriptors

## Main results

* `Facts.fork`, `Facts.terminate`, `Facts.reap`, `Facts.poll` — the facts stay true
* `Facts.signal` — a signal to a process that it is meant for
-/

namespace DeltaBox

namespace Resources

open Pidfd (Proc Kernel Ledger)
open Pidfd.Kernel (mem_fork mem_exits mem_reap byPid_eq_some byId_eq_some pinned_eq_some)

variable {w w' w'' : World} {p : Proc} {pid ticks id fd n : ℕ}

/-- The process of a `Popen` object. -/
def World.popenId (w : World) (n : ℕ) : Option ℕ := (w.popens[n]?).map Popen.id

/-- What may have become of a world. -/
structure Later (w w' : World) : Prop where
  next : w.os.next ≤ w'.os.next
  procs : ∀ p' ∈ w'.os.procs, p'.id < w.os.next →
    ∃ p ∈ w.os.procs, p.id = p'.id ∧ p.pid = p'.pid ∧ (p.zombie = true → p'.zombie = true)
  parents : w.parents ⊆ w'.parents
  owned : w.owned ⊆ w'.owned
  popenIds : ∀ n id, w.popenId n = some id → w'.popenId n = some id

/-- The processes and the `Popen` objects are the same. -/
theorem Later.of_eq (hprocs : w'.os.procs = w.os.procs) (hnext : w'.os.next = w.os.next)
    (hparents : w'.parents = w.parents) (howned : w.owned ⊆ w'.owned)
    (hpopens : w'.popens = w.popens) : Later w w' where
  next := hnext.ge
  procs p' hp' _ := ⟨p', hprocs ▸ hp', rfl, rfl, fun h => h⟩
  parents := hparents ▸ List.Subset.refl _
  owned := howned
  popenIds n id h := by rw [World.popenId, hpopens]; exact h

theorem Later.refl (w : World) : Later w w := .of_eq rfl rfl rfl (List.Subset.refl _) rfl

theorem Later.trans (h : Later w w') (h' : Later w' w'') : Later w w'' where
  next := h.next.trans h'.next
  procs p'' hp'' hlt := by
    obtain ⟨p', hp', hid', hpid', hzombie'⟩ := h'.procs p'' hp'' (hlt.trans_le h.next)
    obtain ⟨p, hp, hid, hpid, hzombie⟩ := h.procs p' hp' (hid' ▸ hlt)
    exact ⟨p, hp, hid.trans hid', hpid.trans hpid', fun hz => hzombie' (hzombie hz)⟩
  parents e he := h'.parents (h.parents he)
  owned e he := h'.owned (h.owned he)
  popenIds n id hid := h'.popenIds n id (h.popenIds n id hid)

/-- The signal has been sent to the process that it was meant for: to one that had the pid when it
was owned, to one that was a child of the launcher, or to that of the `Popen` object. -/
def World.Right (w : World) (p : Proc) : Why → Prop
  | .namespacePid pid => p.pid = pid ∧ (pid, p.id) ∈ w.owned
  | .launcherChild n => ∃ id, w.popenId n = some id ∧ (p.id, id) ∈ w.parents
  | .stopProcess n => w.popenId n = some p.id

theorem World.Right.later {why : Why} (h : w.Right p why) (hlater : Later w w') : w'.Right p why := by
  cases why with
  | namespacePid pid => exact ⟨h.1, hlater.owned h.2⟩
  | launcherChild n =>
    obtain ⟨id, hid, hmem⟩ := h
    exact ⟨id, hlater.popenIds n id hid, hlater.parents hmem⟩
  | stopProcess n => exact hlater.popenIds n p.id h

/-- The process had this pid, if it is still there. -/
def World.Had (w : World) (id pid : ℕ) : Prop :=
  id < w.os.next ∧ ∀ p ∈ w.os.procs, p.id = id → p.pid = pid

theorem World.Had.later (h : w.Had id pid) (hlater : Later w w') : w'.Had id pid := by
  refine ⟨h.1.trans_le hlater.next, fun p' hp' hid' => ?_⟩
  obtain ⟨p, hp, hid, hpid, -⟩ := hlater.procs p' hp' (hid'.symm ▸ h.1)
  exact hpid.symm.trans (h.2 p hp (hid.trans hid'))

/-- The process has ended. -/
def World.Over (w : World) (id : ℕ) : Prop :=
  id < w.os.next ∧ ∀ p ∈ w.os.procs, p.id = id → p.zombie = true

theorem World.Over.later (h : w.Over id) (hlater : Later w w') : w'.Over id := by
  refine ⟨h.1.trans_le hlater.next, fun p' hp' hid' => ?_⟩
  obtain ⟨p, hp, hid, -, hzombie⟩ := hlater.procs p' hp' (hid'.symm ▸ h.1)
  exact hzombie (h.2 p hp (hid.trans hid'))

/-- What is true of the processes, of what is owned, and of the signals. -/
structure Facts (w : World) : Prop where
  os : w.os.Ok
  positive : 0 < w.os.next
  ids : (w.popens.map Popen.id).Nodup
  past : ∀ c ∈ w.popens, c.id < w.os.next
  alive : ∀ c ∈ w.popens, c.done = false → ∃ p ∈ w.os.procs, p.id = c.id ∧ p.pid = c.pid
  owned : ∀ e ∈ w.owned, w.Had e.2 e.1
  namespaces : ∀ pid fd, w.namespaces.find? pid = some fd →
    ∃ id, w.os.fds.find? fd = some id ∧ (pid, id) ∈ w.owned
  signals : ∀ e ∈ w.signals, w.Right e.1 e.2

theorem Facts.init : Facts World.init where
  os := ⟨by simp [World.init, Kernel.init], by simp [World.init, Kernel.init],
    by simp [World.init, Kernel.init], by simp [World.init, Kernel.init]⟩
  positive := Nat.one_pos
  ids := List.nodup_nil
  past := by simp [World.init]
  alive := by simp [World.init]
  owned := by simp [World.init]
  namespaces := by simp [World.init]
  signals := by simp [World.init]

/-- The facts are about the processes, the `Popen` objects, the descriptors, what is owned, and the
signals. -/
theorem Facts.of_eq (h : Facts w) (hos : w'.os = w.os) (hparents : w'.parents = w.parents)
    (hpopens : w'.popens = w.popens) (hnamespaces : w'.namespaces = w.namespaces)
    (hsignals : w'.signals = w.signals) (howned : w'.owned = w.owned) : Facts w' := by
  have hlater : Later w w' := .of_eq (by rw [hos]) (by rw [hos]) hparents (howned ▸ fun _ h => h) hpopens
  exact {
    os := hos ▸ h.os
    positive := hos ▸ h.positive
    ids := hpopens ▸ h.ids
    past := by rw [hpopens, hos]; exact h.past
    alive := by rw [hpopens, hos]; exact h.alive
    owned := by rw [howned]; exact fun e he => (h.owned e he).later hlater
    namespaces := by rw [hnamespaces, hos, howned]; exact h.namespaces
    signals := by rw [hsignals]; exact fun e he => (h.signals e he).later hlater }

/-! ### Processes come and go -/

theorem World.later_fork {parent : ℕ} : Later w (w.fork pid ticks parent) where
  next := Nat.le_succ _
  procs p' hp' hlt := by
    rcases mem_fork.mp hp' with hp | rfl
    · exact ⟨p', hp, rfl, rfl, fun h => h⟩
    · exact absurd hlt (lt_irrefl _)
  parents := List.subset_cons_self _ _
  owned := List.Subset.refl _
  popenIds _ _ h := h

/-- The facts but for those about the `Popen` objects. -/
theorem Facts.later (h : Facts w) (hlater : Later w w') (hos : w'.os.Ok)
    (hpopens : w'.popens = w.popens) (hfds : w'.os.fds = w.os.fds)
    (hnamespaces : w'.namespaces = w.namespaces) (hsignals : w'.signals = w.signals)
    (howned : w'.owned = w.owned)
    (halive : ∀ c ∈ w.popens, c.done = false → ∃ p ∈ w'.os.procs, p.id = c.id ∧ p.pid = c.pid) :
    Facts w' where
  os := hos
  positive := h.positive.trans_le hlater.next
  ids := hpopens ▸ h.ids
  past c hc := (h.past c (hpopens ▸ hc)).trans_le hlater.next
  alive := hpopens ▸ halive
  owned := by rw [howned]; exact fun e he => (h.owned e he).later hlater
  namespaces := by rw [hnamespaces, hfds, howned]; exact h.namespaces
  signals := by rw [hsignals]; exact fun e he => (h.signals e he).later hlater

theorem Facts.fork (h : Facts w) (hfree : w.os.byPid pid = none) (parent : ℕ) :
    Facts (w.fork pid ticks parent) :=
  h.later World.later_fork (h.os.fork hfree) rfl rfl rfl rfl rfl fun c hc hdone => by
    obtain ⟨p, hp, heq⟩ := h.alive c hc hdone
    exact ⟨p, mem_fork.mpr (.inl hp), heq⟩

theorem World.later_terminate {reaper : ℕ} : Later w (w.terminate id reaper) where
  next := le_rfl
  procs p' hp' _ := by
    obtain ⟨p, hp, hid, hpid, -, hzombie, -⟩ := mem_exits hp'
    exact ⟨p, hp, hid.symm, hpid.symm, hzombie⟩
  parents := List.subset_append_right _ _
  owned := List.Subset.refl _
  popenIds _ _ h := h

theorem Facts.terminate (h : Facts w) (id reaper : ℕ) : Facts (w.terminate id reaper) :=
  h.later World.later_terminate h.os.exits rfl rfl rfl rfl rfl fun c hc hdone => by
    obtain ⟨p, hp, hid, hpid⟩ := h.alive c hc hdone
    refine ⟨_, List.mem_map_of_mem hp, ?_⟩
    split_ifs
    · exact ⟨hid, hpid⟩
    · exact ⟨hid, hpid⟩

theorem World.later_reap : Later w { w with os := w.os.reap id } where
  next := le_rfl
  procs p' hp' _ := ⟨p', (mem_reap.mp hp').1, rfl, rfl, fun h => h⟩
  parents := List.Subset.refl _
  owned := List.Subset.refl _
  popenIds _ _ h := h

/-- Nobody else waits for a process of the replay. -/
theorem Facts.reap (h : Facts w) (hid : w.reserved id = false) :
    Facts { w with os := w.os.reap id } :=
  h.later World.later_reap h.os.reap rfl rfl rfl rfl rfl fun c hc hdone => by
    obtain ⟨p, hp, hpid, hrest⟩ := h.alive c hc hdone
    refine ⟨p, mem_reap.mpr ⟨hp, fun heq => ?_⟩, hpid, hrest⟩
    have hnot := List.any_eq_false.mp hid c hc
    simp [hdone, ← hpid, heq] at hnot

/-! ### The `Popen` objects -/

theorem map_id_modify {l : List Popen} :
    (l.modify n fun c => { c with done := true }).map Popen.id = l.map Popen.id := by
  induction l generalizing n with
  | nil => cases n <;> rfl
  | cons c l ih =>
    cases n with
    | zero => rfl
    | succ n => simp [ih]

theorem World.popenId_eq : w.popenId n = (w.popens.map Popen.id)[n]? := by
  rw [World.popenId, List.getElem?_map]

theorem World.later_setDone : Later w (w.setDone n id) where
  next := le_rfl
  procs p' hp' _ := ⟨p', (mem_reap.mp hp').1, rfl, rfl, fun h => h⟩
  parents := List.Subset.refl _
  owned := List.Subset.refl _
  popenIds m id' h := by
    rw [World.popenId_eq] at h ⊢
    rw [← h, World.setDone, map_id_modify]

theorem Facts.setDone (h : Facts w) {c : Popen} (hc : w.popens[n]? = some c) :
    Facts (w.setDone n c.id) := by
  have hlater : Later w (w.setDone n c.id) := World.later_setDone
  have hmem : ∀ d ∈ (w.setDone n c.id).popens, ∃ m, ∃ e, w.popens[m]? = some e ∧
      d = if n = m then { e with done := true } else e := by
    intro d hd
    obtain ⟨m, hm⟩ := List.mem_iff_getElem?.mp hd
    rw [World.setDone, List.getElem?_modify] at hm
    obtain ⟨e, he, hde⟩ := Option.map_eq_some_iff.mp hm
    exact ⟨m, e, he, hde.symm⟩
  exact {
    os := h.os.reap
    positive := h.positive
    ids := by rw [World.setDone, map_id_modify]; exact h.ids
    past := by
      intro d hd
      obtain ⟨m, e, he, rfl⟩ := hmem d hd
      have hlt := h.past e (List.mem_of_getElem? he)
      split_ifs <;> exact hlt
    alive := by
      intro d hd hdone
      obtain ⟨m, e, he, rfl⟩ := hmem d hd
      split_ifs at hdone ⊢ with hm
      obtain ⟨p, hp, hid, hpid⟩ := h.alive e (List.mem_of_getElem? he) hdone
      refine ⟨p, mem_reap.mpr ⟨hp, fun heq => hm ?_⟩, hid, hpid⟩
      -- another object stands for another process
      have hn : (w.popens.map Popen.id)[n]? = some c.id := by rw [List.getElem?_map, hc]; rfl
      have hm' : (w.popens.map Popen.id)[m]? = some c.id := by
        rw [List.getElem?_map, he, ← heq, hid]; rfl
      have hlt := (List.getElem?_eq_some_iff.mp hn).1
      exact (List.getElem?_inj hlt h.ids).mp (hn.trans hm'.symm)
    owned := fun e he => (h.owned e he).later hlater
    namespaces := h.namespaces
    signals := fun e he => (h.signals e he).later hlater }

/-- `poll` does nothing, or the process has been waited for. -/
theorem World.poll_cases (w : World) (n : ℕ) : w.poll n = w ∨
    ∃ c, w.popens[n]? = some c ∧ w.poll n = w.setDone n c.id := by
  rw [World.poll]
  split
  · rename_i c hc
    split_ifs
    · exact .inl rfl
    · exact .inr ⟨c, hc, rfl⟩
    · exact .inl rfl
  · exact .inl rfl

theorem World.later_poll : Later w (w.poll n) := by
  obtain heq | ⟨c, -, heq⟩ := w.poll_cases n
  · rw [heq]
    exact Later.refl w
  · rw [heq]
    exact World.later_setDone

theorem Facts.poll (h : Facts w) (n : ℕ) : Facts (w.poll n) := by
  obtain heq | ⟨c, hc, heq⟩ := w.poll_cases n
  · rwa [heq]
  · rw [heq]
    exact h.setDone hc

/-- What `poll` leaves alone. -/
theorem World.poll_same (w : World) (n : ℕ) : (w.poll n).os.fds = w.os.fds ∧
    (w.poll n).os.wrong = w.os.wrong ∧ (w.poll n).namespaces = w.namespaces ∧
    (w.poll n).controllers = w.controllers := by
  obtain heq | ⟨c, -, heq⟩ := w.poll_cases n
  · rw [heq]
    exact ⟨rfl, rfl, rfl, rfl⟩
  · rw [heq]
    exact ⟨rfl, rfl, rfl, rfl⟩

theorem World.later_spawn {args : String} : Later w (w.spawn pid ticks args) where
  next := Nat.le_succ _
  procs := (@World.later_fork w pid ticks 0).procs
  parents := (@World.later_fork w pid ticks 0).parents
  owned := List.Subset.refl _
  popenIds m id' h := by
    rw [World.popenId_eq] at h ⊢
    have hlt := (List.getElem?_eq_some_iff.mp h).1
    rw [World.spawn, List.map_append, List.getElem?_append_left hlt, h]

theorem Facts.spawn (h : Facts w) (hfree : w.os.byPid pid = none) (args : String) :
    Facts (w.spawn pid ticks args) where
  os := h.os.fork hfree
  positive := h.positive.trans (Nat.lt_succ_self _)
  ids := by
    rw [World.spawn, List.map_append, List.nodup_append]
    refine ⟨h.ids, List.nodup_singleton _, fun a ha b hb heq => ?_⟩
    obtain ⟨c, hc, rfl⟩ := List.mem_map.mp ha
    obtain rfl := List.mem_singleton.mp hb
    exact absurd heq (Nat.ne_of_lt (h.past c hc))
  past c hc := by
    rcases List.mem_append.mp hc with hc | hc
    · exact (h.past c hc).trans (Nat.lt_succ_self _)
    · obtain rfl := List.mem_singleton.mp hc
      exact Nat.lt_succ_self _
  alive c hc hdone := by
    rcases List.mem_append.mp hc with hc | hc
    · obtain ⟨p, hp, heq⟩ := h.alive c hc hdone
      exact ⟨p, mem_fork.mpr (.inl hp), heq⟩
    · obtain rfl := List.mem_singleton.mp hc
      exact ⟨_, mem_fork.mpr (.inr rfl), rfl, rfl⟩
  owned e he := (h.owned e he).later World.later_spawn
  namespaces := h.namespaces
  signals e he := (h.signals e he).later World.later_spawn

/-- A `Popen` object that has no return code. -/
def World.Runs (w : World) (n : ℕ) : Prop := ∃ c, w.popens[n]? = some c ∧ c.done = false

theorem World.runs_of_isDone (h : w.isDone n = false) : w.Runs n := by
  rw [World.isDone] at h
  cases hc : w.popens[n]? with
  | none => simp [hc] at h
  | some c => exact ⟨c, hc, by simpa [hc] using h⟩

/-! ### Signals -/

theorem Facts.signal {why : Why} (h : Facts w) (hright : w.Right p why) :
    Facts { w with signals := w.signals ++ [(p, why)] } := by
  have hlater : Later w { w with signals := w.signals ++ [(p, why)] } :=
    .of_eq rfl rfl rfl (List.Subset.refl _) rfl
  exact {
    os := h.os
    positive := h.positive
    ids := h.ids
    past := h.past
    alive := h.alive
    owned := h.owned
    namespaces := h.namespaces
    signals := fun e he => by
      rcases List.mem_append.mp he with he | he
      · exact (h.signals e he).later hlater
      · obtain rfl := List.mem_singleton.mp he
        exact hright.later hlater }

/-- A process of the replay that has not been waited for still has its pid. -/
theorem Facts.byPid (h : Facts w) {c : Popen} (hc : c ∈ w.popens) (hdone : c.done = false) :
    ∃ p, w.os.byPid c.pid = some p ∧ p.id = c.id := by
  obtain ⟨p, hp, hid, hpid⟩ := h.alive c hc hdone
  exact ⟨p, hpid ▸ h.os.byPid hp, hid⟩

theorem World.later_sendSignal : Later w (w.sendSignal n) := by
  have hpoll := World.later_poll (w := w) (n := n)
  rw [World.sendSignal]
  split_ifs
  · exact hpoll
  · split
    · exact hpoll.trans (.of_eq rfl rfl rfl (List.Subset.refl _) rfl)
    · exact hpoll

/-- **A signal to the pid of a `Popen` object** gets to its process. -/
theorem Facts.sendSignal (h : Facts w) (n : ℕ) : Facts (w.sendSignal n) := by
  have hpoll := h.poll n
  rw [World.sendSignal]
  split_ifs with hdone
  · exact hpoll
  · obtain ⟨c, hc, hrunning⟩ := World.runs_of_isDone (by simpa using hdone)
    obtain ⟨p, hp, hid⟩ := hpoll.byPid (List.mem_of_getElem? hc) hrunning
    simp only [hc, Option.bind_some, hp]
    exact hpoll.signal (by rw [World.Right, World.popenId, hc, hid]; rfl)

theorem World.sendSignal_same (w : World) (n : ℕ) : (w.sendSignal n).os.fds = w.os.fds ∧
    (w.sendSignal n).os.wrong = w.os.wrong ∧ (w.sendSignal n).namespaces = w.namespaces ∧
    (w.sendSignal n).controllers = w.controllers := by
  rw [World.sendSignal]
  split_ifs
  · exact w.poll_same n
  · split
    · exact w.poll_same n
    · exact w.poll_same n

/-! ### Descriptors -/

inductive Key where
  | namespacePid (pid : ℕ)
  | mount (c : ℕ)
  deriving DecidableEq, Repr

/-- The owners of the descriptors. -/
def World.own (w : World) : Key → Option ℕ
  | .namespacePid pid => w.namespaces.find? pid
  | .mount c => (w.controllers[c]?).bind Controller.mountFd

theorem World.own_congr (hnamespaces : w'.namespaces = w.namespaces)
    (hcontrollers : ∀ i : ℕ, (w'.controllers[i]?).bind Controller.mountFd =
      (w.controllers[i]?).bind Controller.mountFd) : w'.own = w.own := by
  funext key
  cases key with
  | namespacePid pid => rw [World.own, World.own, hnamespaces]
  | mount c => exact hcontrollers c

theorem World.own_set : ({ w with namespaces := w.namespaces.set pid fd } : World).own =
    Function.update w.own (.namespacePid pid) (some fd) := by
  funext key
  rw [Function.update_apply]
  cases key with
  | namespacePid pid' => simp [World.own, Dict.find?_set]
  | mount c => simp [World.own]

theorem World.own_erase : ({ w with namespaces := w.namespaces.erase pid } : World).own =
    Function.update w.own (.namespacePid pid) none := by
  funext key
  rw [Function.update_apply]
  cases key with
  | namespacePid pid' => simp [World.own, Dict.find?_erase]
  | mount c => simp [World.own]

/-- The attribute `mount_fd` is set. -/
theorem World.own_mount {cs : List Controller} {i : ℕ} {o : Option ℕ}
    (h : ∀ j : ℕ, (cs[j]?).bind Controller.mountFd =
      if j = i then o else (w.controllers[j]?).bind Controller.mountFd) :
    ({ w with controllers := cs } : World).own = Function.update w.own (.mount i) o := by
  funext key
  rw [Function.update_apply]
  cases key with
  | namespacePid pid' => simp [World.own]
  | mount c => simp [World.own, h c]

end Resources

end DeltaBox
