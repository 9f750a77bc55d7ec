import DeltaBox.Lib.Dict
import Mathlib.Tactic.SplitIfs

/-!
# Processes, and the descriptors that pin them

A process has its pid until it has been waited for. After that the pid may be given to another
process. A descriptor goes on to refer to the process it has been opened for, so what is done to it
is never done to another process that has the pid by then.

A program that opens descriptors has to close each of them once. A `Ledger` says who owns which
descriptor: the descriptors that are open are those that somebody owns, and no two owners share one.
At most one of them is in the hands of the code that has just opened it.

## Main definitions

* `Kernel` — the processes and the open descriptors
* `Kernel.Ok` — no two processes share a pid
* `Kernel.Names` — what is known of a process that may be gone
* `Ledger` — the owners

## Main results

* `Names.fork`, `Names.of_sublist` — the knowledge stays right, whoever has the pid by then
* `Ledger.open`, `Ledger.store`, `Ledger.drop`, `Ledger.pop`, `Ledger.swap` — the ledger is kept
* `Ledger.wrong_close` — what is owned may be closed
* `Ledger.closeAll` — in the end nothing is open
-/

namespace DeltaBox

namespace Pidfd

/-- A process. The number `id` tells it from others that have had its pid; `ticks` is when it
started, as far as the system tells. -/
structure Proc where
  id : ℕ
  pid : ℕ
  ticks : ℕ
  zombie : Bool
  deriving DecidableEq, Repr

/-- The processes, the process each open descriptor refers to, the number of the next process, and
whether a descriptor has been closed that was not open. -/
structure Kernel where
  procs : List Proc
  fds : Dict ℕ ℕ
  next : ℕ
  wrong : Bool

namespace Kernel

def init : Kernel := ⟨[], .empty, 0, false⟩

/-- The process that has the pid. -/
def byPid (k : Kernel) (pid : ℕ) : Option Proc := k.procs.find? fun p => p.pid = pid

/-- The process with this number. -/
def byId (k : Kernel) (id : ℕ) : Option Proc := k.procs.find? fun p => p.id = id

/-- The process that a descriptor refers to, while it is there. -/
def pinned (k : Kernel) (fd : ℕ) : Option Proc := (k.fds.find? fd).bind k.byId

/-- A new process. -/
def fork (k : Kernel) (pid ticks : ℕ) : Kernel :=
  { k with procs := k.procs ++ [⟨k.next, pid, ticks, false⟩], next := k.next + 1 }

/-- A process terminates. -/
def exits (k : Kernel) (id : ℕ) : Kernel :=
  { k with procs := k.procs.map fun p => if p.id = id then { p with zombie := true } else p }

/-- A process has been waited for. -/
def reap (k : Kernel) (id : ℕ) : Kernel := { k with procs := k.procs.filter fun p => p.id ≠ id }

/-- A descriptor for a process. -/
def pin (k : Kernel) (fd id : ℕ) : Kernel := { k with fds := k.fds.set fd id }

/-- `os.close`. -/
def close (k : Kernel) (fd : ℕ) : Kernel :=
  { k with fds := k.fds.erase fd, wrong := k.wrong || (k.fds.find? fd).isNone }

/-- No two processes share a number or a pid, and no number is given twice. -/
structure Ok (k : Kernel) : Prop where
  ids : ∀ p ∈ k.procs, ∀ q ∈ k.procs, p.id = q.id → p = q
  pids : ∀ p ∈ k.procs, ∀ q ∈ k.procs, p.pid = q.pid → p = q
  fresh : ∀ p ∈ k.procs, p.id < k.next
  past : ∀ fd id, k.fds.find? fd = some id → id < k.next

/-- If the process with this number is there, it has this pid and this start. -/
def Names (k : Kernel) (id pid ticks : ℕ) : Prop :=
  ∀ p ∈ k.procs, p.id = id → p.pid = pid ∧ p.ticks = ticks

variable {k : Kernel} {p : Proc} {id pid ticks fd : ℕ}

theorem byPid_eq_some (h : k.byPid pid = some p) : p ∈ k.procs ∧ p.pid = pid :=
  ⟨List.mem_of_find?_eq_some h, of_decide_eq_true (List.find?_some h :)⟩

theorem byId_eq_some (h : k.byId id = some p) : p ∈ k.procs ∧ p.id = id :=
  ⟨List.mem_of_find?_eq_some h, of_decide_eq_true (List.find?_some h :)⟩

theorem byPid_eq_none (h : k.byPid pid = none) : ∀ p ∈ k.procs, p.pid ≠ pid := by
  simpa [byPid] using h

theorem Ok.byId (hok : k.Ok) (hp : p ∈ k.procs) : k.byId p.id = some p := by
  cases h : k.byId p.id with
  | none => exact absurd (decide_eq_true rfl) (List.find?_eq_none.mp h p hp)
  | some q =>
    obtain ⟨hq, hid⟩ := byId_eq_some h
    rw [hok.ids q hq p hp hid]

theorem Ok.byPid (hok : k.Ok) (hp : p ∈ k.procs) : k.byPid p.pid = some p := by
  cases h : k.byPid p.pid with
  | none => exact absurd rfl (byPid_eq_none h p hp)
  | some q =>
    obtain ⟨hq, hpid⟩ := byPid_eq_some h
    rw [hok.pids q hq p hp hpid]

theorem pinned_eq_some (h : k.pinned fd = some p) : k.fds.find? fd = some p.id ∧ p ∈ k.procs := by
  obtain ⟨id, hfd, hid⟩ := Option.bind_eq_some_iff.mp h
  obtain ⟨hp, rfl⟩ := byId_eq_some hid
  exact ⟨hfd, hp⟩

/-! ### What happens to processes -/

theorem Ok.init : Kernel.init.Ok :=
  ⟨by simp [Kernel.init], by simp [Kernel.init], by simp [Kernel.init], by simp [Kernel.init]⟩

theorem mem_fork : p ∈ (k.fork pid ticks).procs ↔ p ∈ k.procs ∨ p = ⟨k.next, pid, ticks, false⟩ := by
  simp [fork]

theorem Ok.fork (hok : k.Ok) (hfree : k.byPid pid = none) : (k.fork pid ticks).Ok where
  ids p hp q hq heq := by
    rcases mem_fork.mp hp with hp | rfl <;> rcases mem_fork.mp hq with hq | rfl
    · exact hok.ids p hp q hq heq
    · exact absurd heq (Nat.ne_of_lt (hok.fresh p hp))
    · exact absurd heq (Nat.ne_of_gt (hok.fresh q hq))
    · rfl
  pids p hp q hq heq := by
    rcases mem_fork.mp hp with hp | rfl <;> rcases mem_fork.mp hq with hq | rfl
    · exact hok.pids p hp q hq heq
    · exact absurd heq (byPid_eq_none hfree p hp)
    · exact absurd heq.symm (byPid_eq_none hfree q hq)
    · rfl
  fresh p hp := by
    rcases mem_fork.mp hp with hp | rfl
    · exact Nat.lt_succ_of_lt (hok.fresh p hp)
    · exact Nat.lt_succ_self _
  past fd id hfd := Nat.lt_succ_of_lt (hok.past fd id hfd)

/-- A process that terminates stays itself. -/
theorem mem_exits {q : Proc} (hq : q ∈ (k.exits id).procs) :
    ∃ p ∈ k.procs, q.id = p.id ∧ q.pid = p.pid ∧ q.ticks = p.ticks ∧
      (p.zombie = true → q.zombie = true) ∧ q = if p.id = id then { p with zombie := true } else p := by
  obtain ⟨p, hp, rfl⟩ := List.mem_map.mp hq
  refine ⟨p, hp, ?_⟩
  split_ifs <;> simp

theorem Ok.exits (hok : k.Ok) : (k.exits id).Ok where
  ids p hp q hq heq := by
    obtain ⟨p', hp', hid, -, -, -, rfl⟩ := mem_exits hp
    obtain ⟨q', hq', hid', -, -, -, rfl⟩ := mem_exits hq
    rw [hok.ids p' hp' q' hq' (by rw [← hid, ← hid', heq])]
  pids p hp q hq heq := by
    obtain ⟨p', hp', -, hpid, -, -, rfl⟩ := mem_exits hp
    obtain ⟨q', hq', -, hpid', -, -, rfl⟩ := mem_exits hq
    rw [hok.pids p' hp' q' hq' (by rw [← hpid, ← hpid', heq])]
  fresh p hp := by
    obtain ⟨p', hp', hid, -⟩ := mem_exits hp
    exact hid ▸ hok.fresh p' hp'
  past := hok.past

theorem mem_reap : p ∈ (k.reap id).procs ↔ p ∈ k.procs ∧ p.id ≠ id := by
  simp [reap]

theorem Ok.reap (hok : k.Ok) : (k.reap id).Ok where
  ids p hp q hq := hok.ids p (mem_reap.mp hp).1 q (mem_reap.mp hq).1
  pids p hp q hq := hok.pids p (mem_reap.mp hp).1 q (mem_reap.mp hq).1
  fresh p hp := hok.fresh p (mem_reap.mp hp).1
  past := hok.past

/-- A descriptor for what has a number below that of the next process. -/
theorem Ok.pinPast (hok : k.Ok) (hid : id < k.next) : (k.pin fd id).Ok where
  ids := hok.ids
  pids := hok.pids
  fresh := hok.fresh
  past fd' id' h := by
    rw [Kernel.pin, Dict.find?_set] at h
    split_ifs at h
    · exact Option.some.inj h ▸ hid
    · exact hok.past fd' id' h

theorem Ok.pin (hok : k.Ok) (hp : p ∈ k.procs) : (k.pin fd p.id).Ok :=
  hok.pinPast (hok.fresh p hp)

theorem Ok.close (hok : k.Ok) : (k.close fd).Ok where
  ids := hok.ids
  pids := hok.pids
  fresh := hok.fresh
  past fd' id h := by
    rw [Kernel.close, Dict.find?_erase] at h
    split_ifs at h
    exact hok.past fd' id h

/-! ### What is known of a process -/

/-- A process that was there before another one came. -/
theorem Names.fork {pid' ticks' : ℕ} (h : k.Names id pid ticks) (hid : id < k.next) :
    (k.fork pid' ticks').Names id pid ticks := by
  intro p hp heq
  rcases mem_fork.mp hp with hp | rfl
  · exact h p hp heq
  · exact absurd heq (Nat.ne_of_gt hid)

theorem Names.exits {id' : ℕ} (h : k.Names id pid ticks) : (k.exits id').Names id pid ticks := by
  intro p hp heq
  obtain ⟨p', hp', hid, hpid, hticks, -⟩ := mem_exits hp
  rw [hpid, hticks]
  exact h p' hp' (hid.symm.trans heq)

theorem Names.reap {id' : ℕ} (h : k.Names id pid ticks) : (k.reap id').Names id pid ticks :=
  fun p hp => h p (mem_reap.mp hp).1

end Kernel

/-! ### The owners -/

/-- The descriptors of the owners, and `held`, the one that nobody owns yet, are the open ones. No
two of them are the same. -/
structure Ledger {κ : Type*} (k : Kernel) (own : κ → Option ℕ) (held : Option ℕ) : Prop where
  isOpen : ∀ key fd, own key = some fd → (k.fds.find? fd).isSome
  apart : ∀ key key' fd, own key = some fd → own key' = some fd → key = key'
  held_open : ∀ fd, held = some fd → (k.fds.find? fd).isSome
  held_apart : ∀ key fd, held = some fd → own key ≠ some fd
  only : ∀ fd, (k.fds.find? fd).isSome → held = some fd ∨ ∃ key, own key = some fd

namespace Ledger

variable {κ : Type*} {k k' : Kernel} {own : κ → Option ℕ} {held : Option ℕ} {fd id : ℕ}

theorem init : Ledger Kernel.init (fun _ : κ => none) none where
  isOpen := nofun
  apart := nofun
  held_open := nofun
  held_apart := nofun
  only fd h := by simp [Kernel.init] at h

/-- Only the descriptors matter. -/
theorem of_fds (h : Ledger k own held) (heq : k'.fds = k.fds) : Ledger k' own held where
  isOpen := heq ▸ h.isOpen
  apart := h.apart
  held_open := heq ▸ h.held_open
  held_apart := h.held_apart
  only := heq ▸ h.only

/-- A descriptor is opened under a number that is free. -/
theorem pin (h : Ledger k own none) (hfree : k.fds.find? fd = none) :
    Ledger (k.pin fd id) own (some fd) where
  isOpen key fd' hown := by
    rw [Kernel.pin, Dict.find?_set]
    split_ifs
    · rfl
    · exact h.isOpen key fd' hown
  apart := h.apart
  held_open fd' heq := by
    rw [Kernel.pin, ← Option.some.inj heq, Dict.find?_set_self]
    rfl
  held_apart key fd' heq hown := by
    have hopen := h.isOpen key fd' hown
    rw [← Option.some.inj heq, hfree] at hopen
    cases hopen
  only fd' hopen := by
    rw [Kernel.pin, Dict.find?_set] at hopen
    split_ifs at hopen with heq
    · exact .inl (congrArg some heq.symm)
    · exact .inr ((h.only fd' hopen).resolve_left nofun)

variable [DecidableEq κ] {key : κ}

/-- What is held gets an owner that had none. -/
theorem store (h : Ledger k own (some fd)) (hnone : own key = none) :
    Ledger k (Function.update own key (some fd)) none where
  isOpen key' fd' hown := by
    rw [Function.update_apply] at hown
    split_ifs at hown
    · exact h.held_open fd' hown
    · exact h.isOpen key' fd' hown
  apart key₁ key₂ fd' h₁ h₂ := by
    rw [Function.update_apply] at h₁ h₂
    split_ifs at h₁ h₂ with heq₁ heq₂ heq₂
    · rw [heq₁, heq₂]
    · exact absurd h₂ (h.held_apart key₂ fd' h₁)
    · exact absurd h₁ (h.held_apart key₁ fd' h₂)
    · exact h.apart key₁ key₂ fd' h₁ h₂
  held_open := nofun
  held_apart := nofun
  only fd' hopen := by
    refine .inr ?_
    obtain heq | ⟨key', hown⟩ := h.only fd' hopen
    · exact ⟨key, by rw [Function.update_self, heq]⟩
    · refine ⟨key', ?_⟩
      rw [Function.update_of_ne, hown]
      rintro rfl
      rw [hnone] at hown
      cases hown

omit [DecidableEq κ] in
/-- What is held is closed. -/
theorem drop (h : Ledger k own (some fd)) : Ledger (k.close fd) own none where
  isOpen key fd' hown := by
    rw [Kernel.close, Dict.find?_erase, if_neg]
    · exact h.isOpen key fd' hown
    · rintro rfl
      exact h.held_apart key fd' rfl hown
  apart := h.apart
  held_open := nofun
  held_apart := nofun
  only fd' hopen := by
    rw [Kernel.close, Dict.find?_erase] at hopen
    split_ifs at hopen with hne
    · cases hopen
    · exact .inr ((h.only fd' hopen).resolve_left fun heq => hne (Option.some.inj heq).symm)

/-- A descriptor is taken from its owner. -/
theorem take (h : Ledger k own none) (hown : own key = some fd) :
    Ledger k (Function.update own key none) (some fd) where
  isOpen key' fd' hown' := by
    rw [Function.update_apply] at hown'
    split_ifs at hown'
    exact h.isOpen key' fd' hown'
  apart key₁ key₂ fd' h₁ h₂ := by
    rw [Function.update_apply] at h₁ h₂
    split_ifs at h₁ h₂
    exact h.apart key₁ key₂ fd' h₁ h₂
  held_open fd' heq := Option.some.inj heq ▸ h.isOpen key fd hown
  held_apart key' fd' heq hown' := by
    rw [Function.update_apply] at hown'
    split_ifs at hown' with hne
    exact hne (h.apart key' key fd' hown' (Option.some.inj heq ▸ hown))
  only fd' hopen := by
    obtain ⟨key', hown'⟩ := (h.only fd' hopen).resolve_left nofun
    by_cases heq : key' = key
    · subst heq
      exact .inl (hown.symm.trans hown')
    · exact .inr ⟨key', by rw [Function.update_of_ne heq, hown']⟩

/-- An owner is gone, and its descriptor closed. -/
theorem pop (h : Ledger k own none) (hown : own key = some fd) :
    Ledger (k.close fd) (Function.update own key none) none :=
  (h.take hown).drop

/-- An owner gets what is held, and its old descriptor is closed. -/
theorem swap {old : ℕ} (h : Ledger k own (some fd)) (hown : own key = some old) :
    Ledger (k.close old) (Function.update own key (some fd)) none where
  isOpen key' fd' hown' := by
    rw [Function.update_apply] at hown'
    rw [Kernel.close, Dict.find?_erase, if_neg]
    · split_ifs at hown'
      · exact h.held_open fd' hown'
      · exact h.isOpen key' fd' hown'
    · rintro rfl
      split_ifs at hown' with heq
      · exact h.held_apart key fd' hown' hown
      · exact heq (h.apart key' key fd' hown' hown)
  apart key₁ key₂ fd' h₁ h₂ := by
    rw [Function.update_apply] at h₁ h₂
    split_ifs at h₁ h₂ with heq₁ heq₂ heq₂
    · rw [heq₁, heq₂]
    · exact absurd h₂ (h.held_apart key₂ fd' h₁)
    · exact absurd h₁ (h.held_apart key₁ fd' h₂)
    · exact h.apart key₁ key₂ fd' h₁ h₂
  held_open := nofun
  held_apart := nofun
  only fd' hopen := by
    rw [Kernel.close, Dict.find?_erase] at hopen
    split_ifs at hopen with hne
    · cases hopen
    refine .inr ?_
    obtain heq | ⟨key', hown'⟩ := h.only fd' hopen
    · exact ⟨key, by rw [Function.update_self, heq]⟩
    · refine ⟨key', ?_⟩
      rw [Function.update_of_ne, hown']
      rintro rfl
      exact hne (Option.some.inj (hown'.symm.trans hown))

omit [DecidableEq κ] in
/-- What has an owner is open, so closing it is right. -/
theorem wrong_close (h : Ledger k own held) {key : κ} (hown : own key = some fd) :
    (k.close fd).wrong = k.wrong := by
  obtain ⟨id, hid⟩ := Option.isSome_iff_exists.mp (h.isOpen key fd hown)
  simp [Kernel.close, hid]

omit [DecidableEq κ] in
theorem wrong_drop (h : Ledger k own (some fd)) : (k.close fd).wrong = k.wrong := by
  obtain ⟨id, hid⟩ := Option.isSome_iff_exists.mp (h.held_open fd rfl)
  simp [Kernel.close, hid]

omit [DecidableEq κ] in
/-- With no owner left there is no open descriptor. -/
theorem fds_eq_none (h : Ledger k own none) (hnone : ∀ key, own key = none) (fd : ℕ) :
    k.fds.find? fd = none := by
  by_contra hopen
  obtain ⟨key, hown⟩ :=
    (h.only fd (Option.isSome_iff_ne_none.mpr hopen)).resolve_left nofun
  rw [hnone key] at hown
  cases hown

/-- Every owner in turn gives its descriptor back, each once. -/
theorem closeAll {l : List (κ × ℕ)} (h : Ledger k own none) (hl : (l.map Prod.fst).Nodup)
    (hown : ∀ key fd, own key = some fd ↔ (key, fd) ∈ l) :
    Ledger ((l.map Prod.snd).foldl Kernel.close k) (fun _ : κ => none) none ∧
      ((l.map Prod.snd).foldl Kernel.close k).wrong = k.wrong := by
  induction l generalizing k own with
  | nil =>
    have hnone : own = fun _ => none := by
      funext key
      by_contra hsome
      obtain ⟨fd, hfd⟩ := Option.ne_none_iff_exists'.mp hsome
      exact absurd ((hown key fd).mp hfd) List.not_mem_nil
    exact ⟨hnone ▸ h, rfl⟩
  | cons e l ih =>
    obtain ⟨key, fd⟩ := e
    obtain ⟨hnot, hnodup⟩ := List.nodup_cons.mp hl
    have hkey : own key = some fd := (hown key fd).mpr List.mem_cons_self
    have hrest : ∀ key' fd', Function.update own key none key' = some fd' ↔ (key', fd') ∈ l := by
      intro key' fd'
      by_cases heq : key' = key
      · subst heq
        rw [Function.update_self]
        exact ⟨nofun, fun hmem => absurd (List.mem_map_of_mem (f := Prod.fst) hmem) hnot⟩
      · rw [Function.update_of_ne heq, hown, List.mem_cons]
        exact or_iff_right fun h => heq (Prod.mk.inj h).1
    obtain ⟨hledger, hwrong⟩ := ih (h.pop hkey) hnodup hrest
    exact ⟨hledger, hwrong.trans (h.wrong_close hkey)⟩

end Ledger

end Pidfd

end DeltaBox
