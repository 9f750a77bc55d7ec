import DeltaBox.Lib.Dict
import DeltaBox.Lib.Machine
import Mathlib.Data.Finset.Basic
import Mathlib.Data.Finset.Filter

/-!
# Waiting for processes to exit

`wait_for_process_exit` opens a descriptor for each process it waits for, and polls them. A process
without a descriptor is probed instead, again and again, and now and then all of them are.

There are three collections: the processes that remain, the ones among them that have no descriptor,
and the process of each descriptor. They are changed in six places. Where a set is asked to remove
what it does not have, or a dictionary to delete a key it does not have, Python raises a `KeyError`.

## What is given

The clock, the kernel and `is_done` answer as they like: they are the labels of the machine. A
descriptor that the kernel opens is not one that is open already.

## Main definitions

* `State`, `Call` — the collections, and what has been asked and answered so far
* `openOne`, `event`, `round` — one process is opened, one event is looked at, one loop
* `step` — the machine
-/

namespace DeltaBox

namespace Wait

open Machine

/-- What was asked of the kernel and of `is_done`, and the answer. -/
inductive Call where
  /-- `is_done` was called for the processes `asked`, and it was true for `done`. -/
  | probed (asked done : Finset ℕ)
  /-- There is no such process. -/
  | noProcess (pid : ℕ)
  /-- The descriptor of the process was readable, or hung up. -/
  | readable (pid fd : ℕ)
  | opened (fd : ℕ)
  | closed (fd : ℕ)

/-- The collections, and the calls so far, the latest first. -/
structure State where
  remaining : Finset ℕ
  fallback : Finset ℕ
  pidfds : Dict ℕ ℕ
  calls : List Call

/-- `set.remove`. It is none when a `KeyError` is raised. -/
def remove (s : Finset ℕ) (pid : ℕ) : Option (Finset ℕ) :=
  if pid ∈ s then some (s.erase pid) else none

/-- `release`. -/
def State.release (s : State) (fd : ℕ) : Option State :=
  if fd ∈ s.pidfds.keys then
    some { s with pidfds := s.pidfds.erase fd, calls := .closed fd :: s.calls }
  else none

/-- `release` for several descriptors. -/
def State.releaseAll (s : State) : List ℕ → Option State
  | [] => some s
  | fd :: fds => (s.release fd).bind fun s => s.releaseAll fds

/-- What comes of opening a descriptor. -/
inductive Opening where
  /-- The deadline has passed. -/
  | late
  | noProcess
  /-- Any other error. -/
  | refused
  | opened (fd : ℕ) (registered : Bool)

/-- A descriptor is opened and registered. -/
def State.openOne (s : State) (pid : ℕ) : Opening → Option State
  | .late => some s
  | .noProcess =>
    (remove s.remaining pid).bind fun remaining =>
      (remove s.fallback pid).map fun fallback =>
        { s with remaining, fallback, calls := .noProcess pid :: s.calls }
  | .refused => some s
  | .opened fd registered =>
    let s := { s with pidfds := s.pidfds.set fd pid, calls := .opened fd :: s.calls }
    if registered then (remove s.fallback pid).map fun fallback => { s with fallback }
    else s.release fd

/-- `select.POLLIN | select.POLLHUP`. -/
def pollInHup : ℕ := 0x001 ||| 0x010

/-- `select.POLLERR | select.POLLNVAL`. -/
def pollErrNval : ℕ := 0x008 ||| 0x020

/-- One event. -/
def State.event (s : State) (fd bits : ℕ) : Option State :=
  match s.pidfds.find? fd with
  | none => some s
  | some pid =>
    if bits &&& pollInHup ≠ 0 then
      (remove s.remaining pid).bind fun remaining =>
        { s with remaining, calls := .readable pid fd :: s.calls }.release fd
    else if bits &&& pollErrNval ≠ 0 then
      { s with fallback := insert pid s.fallback }.release fd
    else some s

/-- The events one after the other. -/
def State.events (s : State) : List (ℕ × ℕ) → Option State
  | [] => some s
  | (fd, bits) :: es => (s.event fd bits).bind fun s => s.events es

/-- What comes of a poll. -/
inductive Poll where
  | interrupted
  | failed
  | events (es : List (ℕ × ℕ))

/-- The poll, or the sleep when there is nothing to poll. -/
def State.poll (s : State) (p : Poll) : Option (State × List (ℕ × ℕ)) :=
  if s.pidfds.entries = [] then some (s, [])
  else
    match p with
    | .interrupted => some (s, [])
    | .failed =>
      ({ s with fallback := s.fallback ∪ s.pidfds.values.toFinset }.releaseAll s.pidfds.keys).map
        (·, [])
    | .events es => some (s, es)

/-- `is_done` for some of the processes. -/
def State.probe (s : State) (asked : Finset ℕ) (answer : ℕ → Bool) : Option State :=
  let done := asked.filter (answer · = true)
  { s with
    remaining := s.remaining \ done
    fallback := s.fallback \ done
    calls := .probed asked done :: s.calls }.releaseAll
      ((s.pidfds.entries.filter fun e : ℕ × ℕ => decide (e.2 ∈ done)).map Prod.fst)

/-- What happens in one loop. -/
structure Round where
  /-- No time is left. -/
  late : Bool
  poll : Poll
  /-- It is time to probe all. -/
  due : Bool
  answer : ℕ → Bool

/-- One loop, when there is time left. -/
def State.round (s : State) (r : Round) : Option State :=
  (s.poll r.poll).bind fun (s, es) =>
    (s.events es).bind fun s =>
      s.probe (if es.isEmpty || r.due then s.remaining else s.fallback) r.answer

/-- Where the call is. -/
inductive Phase where
  | called (pids : Finset ℕ)
  /-- These processes are still to be opened. -/
  | opening (todo : List ℕ) (s : State)
  /-- At the head of the loop. -/
  | waiting (s : State)
  | returned (remaining : Finset ℕ) (calls : List Call)
  | keyError

/-- What the environment does next. The processes are opened in the order `order`, or not at all. -/
inductive Label where
  | start (answer : ℕ → Bool) (order : Option (List ℕ))
  | opening (o : Opening)
  | round (r : Round)

/-- The descriptors that are left are closed. -/
def State.return (s : State) : Phase :=
  .returned s.remaining (s.pidfds.keys.foldl (fun calls fd => .closed fd :: calls) s.calls)

/-- `while remaining`. -/
def State.head (s : State) : Phase := if s.remaining = ∅ then s.return else .waiting s

/-- The next process is opened, if there is one. -/
def State.proceed (s : State) : List ℕ → Phase
  | [] => s.head
  | pid :: todo => .opening (pid :: todo) s

/-- Is it a new descriptor, if it is one? -/
def Opening.new (s : State) : Opening → Bool
  | .opened fd _ => fd ∉ s.pidfds.keys
  | _ => true

/-- `wait_for_process_exit`. -/
def step : Phase → Label → Option Phase
  | .called pids, .start answer order =>
    let done := pids.filter (answer · = true)
    let s : State := ⟨pids \ done, pids \ done, .empty, [.probed pids done]⟩
    match order with
    | none => some s.head
    | some todo =>
      if todo.Nodup ∧ todo.toFinset = s.remaining then some (s.proceed todo) else none
  | .opening (_ :: _) s, .opening .late => some s.head
  | .opening (pid :: todo) s, .opening o =>
    if o.new s then
      match s.openOne pid o with
      | none => some .keyError
      | some s => some (s.proceed todo)
    else none
  | .waiting s, .round r =>
    if r.late then
      let done := s.remaining.filter (r.answer · = true)
      some { s with
        remaining := s.remaining \ done, calls := .probed s.remaining done :: s.calls }.return
    else
      match s.round r with
      | none => some .keyError
      | some s => some s.head
  | _, _ => none

/-! ### What has been asked and answered -/

/-- The call shows that the process is gone. -/
def Call.Shows (pid : ℕ) : Call → Prop
  | .probed _ done => pid ∈ done
  | .noProcess p => p = pid
  | .readable p _ => p = pid
  | _ => False

/-- The answer of the last probe of a process. -/
def lastProbe (pid : ℕ) : List Call → Option Bool
  | [] => none
  | .probed asked done :: calls =>
    if pid ∈ asked then some (decide (pid ∈ done)) else lastProbe pid calls
  | _ :: calls => lastProbe pid calls

/-- The descriptors that are open. It is none when one is opened that is open, or one is closed that
is not. -/
def descriptors : List Call → Option (Finset ℕ)
  | [] => some ∅
  | .opened fd :: calls =>
    (descriptors calls).bind fun fds => if fd ∈ fds then none else some (insert fd fds)
  | .closed fd :: calls => (descriptors calls).bind fun fds => remove fds fd
  | _ :: calls => descriptors calls

/-- A process is probed, or it has one descriptor. -/
def State.Covers (s : State) (pid : ℕ) : Prop :=
  (pid ∈ s.fallback ∧ ∀ fd, s.pidfds.find? fd ≠ some pid) ∨
    (pid ∉ s.fallback ∧ ∃! fd, s.pidfds.find? fd = some pid)

/-! ### The invariant -/

/-- The calls so far account for what remains and for what is open. -/
structure State.Accounts (pids : Finset ℕ) (s : State) : Prop where
  subset : s.remaining ⊆ pids
  gone : ∀ pid ∈ pids, pid ∉ s.remaining → ∃ c ∈ s.calls, c.Shows pid
  probed : ∀ pid ∈ s.remaining, lastProbe pid s.calls = some false
  open_fds : descriptors s.calls = some s.pidfds.keys.toFinset

/-- Each process that remains has its place, and there is nothing else in the collections. -/
structure State.Placed (s : State) : Prop where
  fallback : s.fallback ⊆ s.remaining
  covers : ∀ pid ∈ s.remaining, s.Covers pid
  value : ∀ fd pid, s.pidfds.find? fd = some pid → pid ∈ s.remaining

variable {s s' : State} {pids : Finset ℕ} {pid fd : ℕ}

theorem mem_keys : fd ∈ s.pidfds.keys ↔ ∃ pid, s.pidfds.find? fd = some pid := Dict.mem_keys_iff

/-- A process that has a descriptor is not probed, and has no other one. -/
theorem State.Placed.alone (h : s.Placed) (hfd : s.pidfds.find? fd = some pid) :
    pid ∉ s.fallback ∧ ∀ fd', s.pidfds.find? fd' = some pid → fd' = fd := by
  rcases h.covers pid (h.value fd pid hfd) with ⟨-, hno⟩ | ⟨hnot, fd₀, -, huniq⟩
  · exact absurd hfd (hno fd)
  · exact ⟨hnot, fun fd' h' => (huniq fd' h').trans (huniq fd hfd).symm⟩

/-- A process that is probed has no descriptor. -/
theorem State.Placed.bare (h : s.Placed) (hpid : pid ∈ s.fallback) :
    s.pidfds.find? fd ≠ some pid := fun hfd => (h.alone hfd).1 hpid

theorem State.Covers.congr (h : s.Covers pid) (hfall : pid ∈ s'.fallback ↔ pid ∈ s.fallback)
    (hfds : ∀ fd, s'.pidfds.find? fd = some pid ↔ s.pidfds.find? fd = some pid) :
    s'.Covers pid := by
  rcases h with ⟨hpid, hno⟩ | ⟨hpid, fd, hfd, huniq⟩
  · exact .inl ⟨hfall.mpr hpid, fun fd hfd => hno fd ((hfds fd).mp hfd)⟩
  · exact .inr ⟨fun hin => hpid (hfall.mp hin), fd, (hfds fd).mpr hfd,
      fun fd' h' => huniq fd' ((hfds fd').mp h')⟩

/-! ### Releasing -/

/-- What a release of some descriptors does. -/
structure Released (s : State) (fds : List ℕ) (s' : State) : Prop where
  remaining : s'.remaining = s.remaining
  fallback : s'.fallback = s.fallback
  find : ∀ fd, s'.pidfds.find? fd = if fd ∈ fds then none else s.pidfds.find? fd
  open_fds : descriptors s.calls = some s.pidfds.keys.toFinset →
    descriptors s'.calls = some s'.pidfds.keys.toFinset
  probed : ∀ pid, lastProbe pid s'.calls = lastProbe pid s.calls
  calls : ∀ c ∈ s.calls, c ∈ s'.calls

theorem keys_erase (d : Dict ℕ ℕ) (fd : ℕ) :
    (d.erase fd).keys.toFinset = d.keys.toFinset.erase fd := by
  ext fd'
  simp only [List.mem_toFinset, Finset.mem_erase, Dict.mem_keys_iff, Dict.find?_erase]
  by_cases h : fd' = fd
  · simp [h]
  · simp [h]

theorem release_spec (hfd : fd ∈ s.pidfds.keys) :
    ∃ s', s.release fd = some s' ∧ Released s [fd] s' := by
  refine ⟨_, if_pos hfd, rfl, rfl, fun fd' => ?_, fun hopen => ?_, fun _ => rfl,
    fun c hc => List.mem_cons_of_mem _ hc⟩
  · simp [Dict.find?_erase]
  · have hmem : fd ∈ s.pidfds.keys.toFinset := List.mem_toFinset.mpr hfd
    rw [descriptors, hopen, Option.bind_some, remove, if_pos hmem, keys_erase]

theorem releaseAll_spec (fds : List ℕ) (hnd : fds.Nodup) (hfds : ∀ fd ∈ fds, fd ∈ s.pidfds.keys) :
    ∃ s', s.releaseAll fds = some s' ∧ Released s fds s' := by
  induction fds generalizing s with
  | nil => exact ⟨s, rfl, rfl, rfl, fun _ => by simp, id, fun _ => rfl, fun _ => id⟩
  | cons fd fds ih =>
    obtain ⟨hnot, hnd⟩ := List.nodup_cons.mp hnd
    obtain ⟨u, hu, hru⟩ := release_spec (hfds fd List.mem_cons_self)
    have hrest : ∀ fd' ∈ fds, fd' ∈ u.pidfds.keys := by
      intro fd' h'
      have hne : fd' ≠ fd := fun heq => hnot (heq ▸ h')
      rw [mem_keys, hru.find, if_neg (by simpa using hne)]
      exact mem_keys.mp (hfds fd' (List.mem_cons_of_mem _ h'))
    obtain ⟨t, ht, hrt⟩ := ih hnd hrest
    refine ⟨t, ?_, hrt.remaining.trans hru.remaining, hrt.fallback.trans hru.fallback,
      fun fd' => ?_, fun hopen => hrt.open_fds (hru.open_fds hopen),
      fun pid => (hrt.probed pid).trans (hru.probed pid), fun c hc => hrt.calls c (hru.calls c hc)⟩
    · rw [State.releaseAll, hu, Option.bind_some, ht]
    · rw [hrt.find, hru.find]
      by_cases h₁ : fd' = fd
      · simp [h₁]
      · simp [h₁]

theorem State.Accounts.release {fds : List ℕ} (h : s.Accounts pids) (hr : Released s fds s') :
    s'.Accounts pids where
  subset := hr.remaining ▸ h.subset
  gone pid hpid hnot := by
    obtain ⟨c, hc, hshows⟩ := h.gone pid hpid (hr.remaining ▸ hnot)
    exact ⟨c, hr.calls c hc, hshows⟩
  probed pid hpid := (hr.probed pid).trans (h.probed pid (hr.remaining ▸ hpid))
  open_fds := hr.open_fds h.open_fds

/-! ### Opening -/

theorem keys_set_of_new (d : Dict ℕ ℕ) (fd pid : ℕ) :
    (d.set fd pid).keys.toFinset = insert fd d.keys.toFinset := by
  ext fd'
  simp only [List.mem_toFinset, Finset.mem_insert, Dict.mem_keys_iff, Dict.find?_set]
  by_cases h : fd' = fd
  · simp [h]
  · simp [h]

/-- **One process is opened.** It is done, or it is probed as before, or it has a descriptor now. -/
theorem openOne_spec {o : Opening} (ha : s.Accounts pids) (hp : s.Placed) (hpid : pid ∈ s.fallback)
    (hnew : o.new s = true) :
    ∃ s', s.openOne pid o = some s' ∧ s'.Accounts pids ∧ s'.Placed ∧
      ∀ q ∈ s.fallback, q ≠ pid → q ∈ s'.fallback := by
  have hrem : pid ∈ s.remaining := hp.fallback hpid
  cases o with
  | late => exact ⟨s, rfl, ha, hp, fun _ hq _ => hq⟩
  | refused => exact ⟨s, rfl, ha, hp, fun _ hq _ => hq⟩
  | noProcess =>
    refine ⟨{ s with
        remaining := s.remaining.erase pid
        fallback := s.fallback.erase pid
        calls := .noProcess pid :: s.calls }, ?_, ?_, ?_, ?_⟩
    · rw [State.openOne, remove, if_pos hrem, Option.bind_some, remove, if_pos hpid]
      rfl
    · refine ⟨fun q hq => ha.subset (Finset.mem_of_mem_erase hq), fun q hq hnot => ?_,
        fun q hq => ha.probed q (Finset.mem_of_mem_erase hq), ha.open_fds⟩
      by_cases hqp : q = pid
      · exact ⟨_, List.mem_cons_self, hqp.symm⟩
      · obtain ⟨c, hc, hshows⟩ := ha.gone q hq fun hin => hnot (Finset.mem_erase.mpr ⟨hqp, hin⟩)
        exact ⟨c, List.mem_cons_of_mem _ hc, hshows⟩
    · refine ⟨Finset.erase_subset_erase pid hp.fallback, fun q hq => ?_, fun fd q hfd => ?_⟩
      · obtain ⟨hne, hq⟩ := Finset.mem_erase.mp hq
        exact (hp.covers q hq).congr (by simp [hne]) fun fd => Iff.rfl
      · refine Finset.mem_erase.mpr ⟨?_, hp.value fd q hfd⟩
        rintro rfl
        exact hp.bare hpid hfd
    · exact fun q hq hne => Finset.mem_erase.mpr ⟨hne, hq⟩
  | opened fd registered =>
    have hnone : s.pidfds.find? fd = none := Dict.find?_eq_none_iff.mpr (by simpa [Opening.new] using hnew)
    have hset : ∀ fd', (s.pidfds.set fd pid).find? fd' =
        if fd' = fd then some pid else s.pidfds.find? fd' := Dict.find?_set _ _ _
    have hopen : descriptors (.opened fd :: s.calls) = some (s.pidfds.set fd pid).keys.toFinset := by
      rw [descriptors, ha.open_fds, Option.bind_some, keys_set_of_new,
        if_neg (by simpa [Dict.find?_eq_none_iff] using hnone)]
    set u : State := { s with pidfds := s.pidfds.set fd pid, calls := .opened fd :: s.calls } with hu
    have hau : u.Accounts pids := by
      refine ⟨ha.subset, fun q hq hnot => ?_, ha.probed, hopen⟩
      obtain ⟨c, hc, hshows⟩ := ha.gone q hq hnot
      exact ⟨c, List.mem_cons_of_mem _ hc, hshows⟩
    cases registered with
    | true =>
      refine ⟨{ u with fallback := u.fallback.erase pid }, ?_, ?_, ?_, ?_⟩
      · rw [State.openOne, if_pos rfl, remove, if_pos hpid]
        rfl
      · exact ⟨hau.subset, hau.gone, hau.probed, hau.open_fds⟩
      · refine ⟨fun q hq => hp.fallback (Finset.mem_of_mem_erase hq), fun q hq => ?_,
          fun fd' q hfd => ?_⟩
        · by_cases hqp : q = pid
          · subst hqp
            refine .inr ⟨Finset.notMem_erase q _, fd, (hset fd).trans (if_pos rfl), fun fd' h' => ?_⟩
            by_contra hne
            exact hp.bare hpid (((hset fd').trans (if_neg hne)).symm.trans h')
          · refine (hp.covers q hq).congr (by simp [hu, hqp]) fun fd' => ?_
            rw [hset]
            split_ifs with heq
            · rw [heq, hnone]
              simpa using fun h => hqp h.symm
            · rfl
        · rw [hset] at hfd
          split_ifs at hfd with heq
          · exact Option.some.inj hfd ▸ hrem
          · exact hp.value fd' q hfd
      · exact fun q hq hne => Finset.mem_erase.mpr ⟨hne, hq⟩
    | false =>
      obtain ⟨t, ht, hrt⟩ := release_spec (s := u) (mem_keys.mpr ⟨pid, by rw [hset, if_pos rfl]⟩)
      have hfind : ∀ fd', t.pidfds.find? fd' = s.pidfds.find? fd' := by
        intro fd'
        rw [hrt.find, hset]
        by_cases heq : fd' = fd
        · simp [heq, hnone]
        · simp [heq]
      refine ⟨t, ht, hau.release hrt, ⟨?_, fun q hq => ?_, fun fd' q hfd => ?_⟩, fun q hq _ => ?_⟩
      · rw [hrt.remaining, hrt.fallback]
        exact hp.fallback
      · rw [hrt.remaining] at hq
        exact (hp.covers q hq).congr (by rw [hrt.fallback]) fun fd' => by rw [hfind]
      · rw [hfind] at hfd
        rw [hrt.remaining]
        exact hp.value fd' q hfd
      · rw [hrt.fallback]
        exact hq

/-! ### One loop -/

/-- **One event.** -/
theorem event_spec (ha : s.Accounts pids) (hp : s.Placed) (fd bits : ℕ) :
    ∃ s', s.event fd bits = some s' ∧ s'.Accounts pids ∧ s'.Placed := by
  rw [State.event]
  cases hfd : s.pidfds.find? fd with
  | none => exact ⟨s, rfl, ha, hp⟩
  | some pid =>
    have hrem := hp.value fd pid hfd
    obtain ⟨hbare, halone⟩ := hp.alone hfd
    have hkey := mem_keys.mpr ⟨pid, hfd⟩
    -- what is left of the descriptors are those of the other processes
    have hothers : ∀ {t : State}, (∀ fd', t.pidfds.find? fd' =
        if fd' ∈ [fd] then none else s.pidfds.find? fd') →
        ∀ q, q ≠ pid → ∀ fd', t.pidfds.find? fd' = some q ↔ s.pidfds.find? fd' = some q := by
      intro t ht q hq fd'
      rw [ht]
      split_ifs with hin
      · rw [List.mem_singleton.mp hin, hfd]
        simpa using fun h => hq h.symm
      · rfl
    have hvalue : ∀ {t : State}, (∀ fd', t.pidfds.find? fd' =
        if fd' ∈ [fd] then none else s.pidfds.find? fd') →
        ∀ fd' q, t.pidfds.find? fd' = some q → q ∈ s.remaining ∧ q ≠ pid := by
      intro t ht fd' q h'
      rw [ht] at h'
      split_ifs at h' with hin
      refine ⟨hp.value fd' q h', ?_⟩
      rintro rfl
      exact hin (List.mem_singleton.mpr (halone fd' h'))
    dsimp only
    by_cases hin : bits &&& pollInHup ≠ 0
    · set u : State := { s with
        remaining := s.remaining.erase pid, calls := .readable pid fd :: s.calls } with hu
      obtain ⟨t, ht, hrt⟩ := release_spec (s := u) hkey
      have hau : u.Accounts pids := by
        refine ⟨fun q hq => ha.subset (Finset.mem_of_mem_erase hq), fun q hq hnot => ?_,
          fun q hq => ha.probed q (Finset.mem_of_mem_erase hq), ha.open_fds⟩
        by_cases hqp : q = pid
        · exact ⟨_, List.mem_cons_self, hqp.symm⟩
        · obtain ⟨c, hc, hshows⟩ := ha.gone q hq fun hin => hnot (Finset.mem_erase.mpr ⟨hqp, hin⟩)
          exact ⟨c, List.mem_cons_of_mem _ hc, hshows⟩
      rw [if_pos hin, remove, if_pos hrem, Option.bind_some]
      refine ⟨t, ht, hau.release hrt, ⟨?_, fun q hq => ?_, fun fd' q h' => ?_⟩⟩
      · rw [hrt.remaining, hrt.fallback]
        exact Finset.subset_erase.mpr ⟨hp.fallback, hbare⟩
      · rw [hrt.remaining] at hq
        obtain ⟨hne, hq⟩ := Finset.mem_erase.mp hq
        exact (hp.covers q hq).congr (by rw [hrt.fallback]) (hothers hrt.find q hne)
      · obtain ⟨hq, hne⟩ := hvalue hrt.find fd' q h'
        rw [hrt.remaining]
        exact Finset.mem_erase.mpr ⟨hne, hq⟩
    · rw [if_neg hin]
      by_cases herr : bits &&& pollErrNval ≠ 0
      · set u : State := { s with fallback := insert pid s.fallback } with hu
        have hau : u.Accounts pids := ⟨ha.subset, ha.gone, ha.probed, ha.open_fds⟩
        obtain ⟨t, ht, hrt⟩ := release_spec (s := u) hkey
        rw [if_pos herr]
        refine ⟨t, ht, hau.release hrt, ⟨?_, fun q hq => ?_, fun fd' q h' => ?_⟩⟩
        · rw [hrt.remaining, hrt.fallback]
          exact Finset.insert_subset hrem hp.fallback
        · rw [hrt.remaining] at hq
          by_cases hqp : q = pid
          · subst hqp
            refine .inl ⟨by rw [hrt.fallback]; exact Finset.mem_insert_self .., fun fd' h' => ?_⟩
            exact (hvalue hrt.find fd' q h').2 rfl
          · exact (hp.covers q hq).congr (by rw [hrt.fallback]; simp [hu, hqp])
              (hothers hrt.find q hqp)
        · rw [hrt.remaining]
          exact (hvalue hrt.find fd' q h').1
      · rw [if_neg herr]
        exact ⟨s, rfl, ha, hp⟩

/-- **All events.** -/
theorem events_spec (ha : s.Accounts pids) (hp : s.Placed) (es : List (ℕ × ℕ)) :
    ∃ s', s.events es = some s' ∧ s'.Accounts pids ∧ s'.Placed := by
  induction es generalizing s with
  | nil => exact ⟨s, rfl, ha, hp⟩
  | cons e es ih =>
    obtain ⟨u, hu, hau, hpu⟩ := event_spec ha hp e.1 e.2
    obtain ⟨t, ht, hat, hpt⟩ := ih hau hpu
    refine ⟨t, ?_, hat, hpt⟩
    rw [State.events, hu, Option.bind_some, ht]

/-- **A poll.** -/
theorem poll_spec (ha : s.Accounts pids) (hp : s.Placed) (p : Poll) :
    ∃ s' es, s.poll p = some (s', es) ∧ s'.Accounts pids ∧ s'.Placed := by
  unfold State.poll
  split_ifs with hnil
  · exact ⟨s, [], rfl, ha, hp⟩
  · cases p with
    | interrupted => exact ⟨s, [], rfl, ha, hp⟩
    | events es => exact ⟨s, es, rfl, ha, hp⟩
    | failed =>
      set u : State := { s with fallback := s.fallback ∪ s.pidfds.values.toFinset } with hu
      obtain ⟨t, ht, hrt⟩ := releaseAll_spec (s := u) _ s.pidfds.nodup fun _ hfd => hfd
      have hau : u.Accounts pids := ⟨ha.subset, ha.gone, ha.probed, ha.open_fds⟩
      have hempty : ∀ fd, t.pidfds.find? fd = none := by
        intro fd
        rw [hrt.find]
        split_ifs with hin
        · rfl
        · exact Dict.find?_eq_none_iff.mpr hin
      refine ⟨t, [], ?_, hau.release hrt, ⟨?_, fun q hq => .inl ⟨?_, fun fd hfd => ?_⟩,
        fun fd q hfd => ?_⟩⟩
      · dsimp only
        rw [show u.releaseAll s.pidfds.keys = some t from ht]
        rfl
      · rw [hrt.remaining, hrt.fallback]
        refine Finset.union_subset hp.fallback fun q hq => ?_
        obtain ⟨fd, hfd⟩ := Dict.mem_values_iff.mp (List.mem_toFinset.mp hq)
        exact hp.value fd q hfd
      · rw [hrt.remaining] at hq
        rw [hrt.fallback]
        rcases hp.covers q hq with ⟨hq, -⟩ | ⟨-, fd, hfd, -⟩
        · exact Finset.mem_union_left _ hq
        · exact Finset.mem_union_right _ (List.mem_toFinset.mpr (Dict.mem_values_iff.mpr ⟨fd, hfd⟩))
      · rw [hempty] at hfd
        cases hfd
      · rw [hempty] at hfd
        cases hfd

/-- **A probe.** -/
theorem probe_spec (ha : s.Accounts pids) (hp : s.Placed) (asked : Finset ℕ) (answer : ℕ → Bool) :
    ∃ s', s.probe asked answer = some s' ∧ s'.Accounts pids ∧ s'.Placed := by
  set done := asked.filter (answer · = true) with hdone
  set fds := (s.pidfds.entries.filter fun e : ℕ × ℕ => decide (e.2 ∈ done)).map Prod.fst with hfds
  set u : State := { s with
    remaining := s.remaining \ done
    fallback := s.fallback \ done
    calls := .probed asked done :: s.calls } with hu
  have hin : ∀ fd, fd ∈ fds ↔ ∃ pid ∈ done, s.pidfds.find? fd = some pid := by
    intro fd
    simp only [hfds, List.mem_map, List.mem_filter, decide_eq_true_eq]
    constructor
    · rintro ⟨⟨fd', pid⟩, ⟨hmem, hpid⟩, rfl⟩
      exact ⟨pid, hpid, Dict.find?_eq_some_iff.mpr hmem⟩
    · rintro ⟨pid, hpid, hfd⟩
      exact ⟨(fd, pid), ⟨Dict.find?_eq_some_iff.mp hfd, hpid⟩, rfl⟩
  obtain ⟨t, ht, hrt⟩ := releaseAll_spec (s := u) fds
    (s.pidfds.nodup.sublist (List.filter_sublist.map _)) fun fd hfd => by
      obtain ⟨pid, -, hpid⟩ := (hin fd).mp hfd
      exact mem_keys.mpr ⟨pid, hpid⟩
  have hau : u.Accounts pids := by
    refine ⟨fun q hq => ha.subset (Finset.mem_sdiff.mp hq).1, fun q hq hnot => ?_, fun q hq => ?_,
      ha.open_fds⟩
    · by_cases hqd : q ∈ done
      · exact ⟨_, List.mem_cons_self, hqd⟩
      · obtain ⟨c, hc, hshows⟩ := ha.gone q hq fun hin => hnot (Finset.mem_sdiff.mpr ⟨hin, hqd⟩)
        exact ⟨c, List.mem_cons_of_mem _ hc, hshows⟩
    · obtain ⟨hq, hqd⟩ := Finset.mem_sdiff.mp hq
      rw [lastProbe]
      split_ifs with hasked
      · simp [hqd]
      · exact ha.probed q hq
  have hfind : ∀ q, q ∉ done → ∀ fd, t.pidfds.find? fd = some q ↔ s.pidfds.find? fd = some q := by
    intro q hq fd
    rw [hrt.find]
    split_ifs with hmem
    · obtain ⟨pid, hpid, hfd⟩ := (hin fd).mp hmem
      rw [hfd]
      simpa using fun h : pid = q => hq (h ▸ hpid)
    · rfl
  refine ⟨t, ht, hau.release hrt, ⟨?_, fun q hq => ?_, fun fd q hfd => ?_⟩⟩
  · rw [hrt.remaining, hrt.fallback]
    exact Finset.sdiff_subset_sdiff hp.fallback (Finset.Subset.refl _)
  · rw [hrt.remaining] at hq
    obtain ⟨hq, hqd⟩ := Finset.mem_sdiff.mp hq
    exact (hp.covers q hq).congr (by rw [hrt.fallback]; simp [hu, hqd]) (hfind q hqd)
  · have hqd : q ∉ done := by
      intro hqd
      rw [hrt.find] at hfd
      split_ifs at hfd with hmem
      exact hmem ((hin fd).mpr ⟨q, hqd, hfd⟩)
    rw [hrt.remaining]
    exact Finset.mem_sdiff.mpr ⟨hp.value fd q ((hfind q hqd fd).mp hfd), hqd⟩

/-- **One loop.** -/
theorem round_spec (ha : s.Accounts pids) (hp : s.Placed) (r : Round) :
    ∃ s', s.round r = some s' ∧ s'.Accounts pids ∧ s'.Placed := by
  obtain ⟨u, es, hu, hau, hpu⟩ := poll_spec ha hp r.poll
  obtain ⟨v, hv, hav, hpv⟩ := events_spec hau hpu es
  obtain ⟨t, ht, hat, hpt⟩ := probe_spec hav hpv
    (if es.isEmpty || r.due then v.remaining else v.fallback) r.answer
  refine ⟨t, ?_, hat, hpt⟩
  rw [State.round, hu, Option.bind_some]
  dsimp only
  rw [hv, Option.bind_some, ht]

/-! ### Runs -/

/-- What holds wherever the call is. -/
def Phase.Sound (pids : Finset ℕ) : Phase → Prop
  | .called p => p = pids
  | .opening todo s =>
    s.Accounts pids ∧ s.Placed ∧ todo.Nodup ∧ ∀ pid ∈ todo, pid ∈ s.fallback
  | .waiting s => s.Accounts pids ∧ s.Placed
  | .returned remaining calls =>
    remaining ⊆ pids ∧ (∀ pid ∈ pids, pid ∉ remaining → ∃ c ∈ calls, c.Shows pid) ∧
      (∀ pid ∈ remaining, lastProbe pid calls = some false) ∧ descriptors calls = some ∅
  | .keyError => False

theorem foldl_closed (fds : List ℕ) (calls : List Call) (hnd : fds.Nodup) {left : Finset ℕ}
    (hsub : ∀ fd ∈ fds, fd ∈ left) (hopen : descriptors calls = some left) :
    descriptors (fds.foldl (fun calls fd => .closed fd :: calls) calls) =
        some (left \ fds.toFinset) ∧
      (∀ pid, lastProbe pid (fds.foldl (fun calls fd => .closed fd :: calls) calls) =
        lastProbe pid calls) ∧
      ∀ c ∈ calls, c ∈ fds.foldl (fun calls fd => .closed fd :: calls) calls := by
  induction fds generalizing calls left with
  | nil => exact ⟨by simpa using hopen, fun _ => rfl, fun _ => id⟩
  | cons fd fds ih =>
    obtain ⟨hnot, hnd⟩ := List.nodup_cons.mp hnd
    have hclosed : descriptors (.closed fd :: calls) = some (left.erase fd) := by
      rw [descriptors, hopen, Option.bind_some, remove, if_pos (hsub fd List.mem_cons_self)]
    obtain ⟨hleft, hprobe, hmem⟩ := ih (.closed fd :: calls) hnd (fun fd' h' =>
      Finset.mem_erase.mpr ⟨fun heq : fd' = fd => hnot (heq ▸ h'),
        hsub fd' (List.mem_cons_of_mem _ h')⟩) hclosed
    refine ⟨?_, hprobe, fun c hc => hmem c (List.mem_cons_of_mem _ hc)⟩
    rw [List.foldl_cons, hleft]
    congr 1
    ext fd'
    simp
    tauto

/-- What is returned. -/
theorem return_sound (h : s.Accounts pids) : s.return.Sound pids := by
  obtain ⟨hleft, hprobe, hmem⟩ := foldl_closed s.pidfds.keys s.calls s.pidfds.nodup
    (fun fd hfd => List.mem_toFinset.mpr hfd) h.open_fds
  refine ⟨h.subset, fun pid hpid hnot => ?_, fun pid hpid => (hprobe pid).trans (h.probed pid hpid),
    hleft.trans (by simp)⟩
  obtain ⟨c, hc, hshows⟩ := h.gone pid hpid hnot
  exact ⟨c, hmem c hc, hshows⟩

theorem head_sound (ha : s.Accounts pids) (hp : s.Placed) : s.head.Sound pids := by
  rw [State.head]
  split_ifs
  · exact return_sound ha
  · exact ⟨ha, hp⟩

theorem proceed_sound {todo : List ℕ} (ha : s.Accounts pids) (hp : s.Placed) (hnd : todo.Nodup)
    (htodo : ∀ pid ∈ todo, pid ∈ s.fallback) : (s.proceed todo).Sound pids := by
  cases todo with
  | nil => exact head_sound ha hp
  | cons pid todo => exact ⟨ha, hp, hnd, htodo⟩

/-- **One step.** -/
theorem step_sound {p p' : Phase} {l : Label} (h : p.Sound pids) (hs : step p l = some p') :
    p'.Sound pids := by
  cases p with
  | called p =>
    obtain rfl : p = pids := h
    cases l with
    | start answer order =>
      set done := p.filter (answer · = true) with hdone
      have ha : (⟨p \ done, p \ done, .empty, [.probed p done]⟩ : State).Accounts p := by
        refine ⟨Finset.sdiff_subset, fun q hq hnot => ⟨_, List.mem_cons_self, ?_⟩, fun q hq => ?_, rfl⟩
        · by_contra hqd
          exact hnot (Finset.mem_sdiff.mpr ⟨hq, hqd⟩)
        · obtain ⟨hq, hqd⟩ := Finset.mem_sdiff.mp hq
          rw [lastProbe, if_pos hq]
          simp [hqd]
      have hp : (⟨p \ done, p \ done, .empty, [.probed p done]⟩ : State).Placed :=
        ⟨Finset.Subset.refl _, fun q hq => .inl ⟨hq, fun fd hfd => by simp at hfd⟩,
          fun fd q hfd => by simp at hfd⟩
      cases order with
      | none => exact Option.some.inj hs ▸ head_sound ha hp
      | some todo =>
        obtain ⟨⟨hnd, htodo⟩, hs⟩ := Option.ite_none_right_eq_some.mp hs
        refine Option.some.inj hs ▸ proceed_sound ha hp hnd fun pid hpid => ?_
        have hmem : pid ∈ todo.toFinset := List.mem_toFinset.mpr hpid
        rwa [htodo] at hmem
    | opening o => cases hs
    | round r => cases hs
  | opening todo s =>
    obtain ⟨ha, hp, hnd, htodo⟩ := h
    cases todo with
    | nil => cases l <;> cases hs
    | cons pid todo =>
      cases l with
      | start answer order => cases hs
      | round r => cases hs
      | opening o =>
        by_cases hlate : o = .late
        · subst hlate
          exact Option.some.inj hs ▸ head_sound ha hp
        · have hstep : step (.opening (pid :: todo) s) (.opening o) =
              if o.new s then
                match s.openOne pid o with
                | none => some .keyError
                | some s => some (s.proceed todo)
              else none := by
            cases o with
            | late => exact absurd rfl hlate
            | noProcess => rfl
            | refused => rfl
            | opened fd registered => rfl
          rw [hstep] at hs
          obtain ⟨hnew, hs⟩ := Option.ite_none_right_eq_some.mp hs
          obtain ⟨hnot, hnd⟩ := List.nodup_cons.mp hnd
          obtain ⟨t, ht, hat, hpt, hkeep⟩ :=
            openOne_spec ha hp (htodo pid List.mem_cons_self) hnew
          rw [ht] at hs
          refine Option.some.inj hs ▸ proceed_sound hat hpt hnd fun q hq => ?_
          exact hkeep q (htodo q (List.mem_cons_of_mem _ hq)) fun heq => hnot (heq ▸ hq)
  | waiting s =>
    obtain ⟨ha, hp⟩ := h
    cases l with
    | start answer order => cases hs
    | opening o => cases hs
    | round r =>
      rw [step] at hs
      by_cases hlate : r.late = true
      · rw [if_pos hlate] at hs
        refine Option.some.inj hs ▸ return_sound ⟨fun q hq => ha.subset (Finset.mem_sdiff.mp hq).1,
          fun q hq hnot => ?_, fun q hq => ?_, ha.open_fds⟩
        · by_cases hrem : q ∈ s.remaining
          · refine ⟨_, List.mem_cons_self, ?_⟩
            by_contra hqd
            exact hnot (Finset.mem_sdiff.mpr ⟨hrem, hqd⟩)
          · obtain ⟨c, hc, hshows⟩ := ha.gone q hq hrem
            exact ⟨c, List.mem_cons_of_mem _ hc, hshows⟩
        · obtain ⟨hq, hqd⟩ := Finset.mem_sdiff.mp hq
          rw [lastProbe, if_pos hq]
          simp [hqd]
      · rw [if_neg hlate] at hs
        obtain ⟨t, ht, hat, hpt⟩ := round_spec ha hp r
        rw [ht] at hs
        exact Option.some.inj hs ▸ head_sound hat hpt
  | returned remaining calls => cases l <;> cases hs
  | keyError => exact h.elim

/-- **No exit is invented and none is lost.** Whatever the clock, the kernel and `is_done` answer: no
`KeyError` is raised. At the head of each loop every process that remains is probed or has exactly
one of the open descriptors. What is returned is among the processes of the call, was not done when
it was probed last, and everything else was shown to be gone; and every descriptor that was opened
has been closed, once. -/
theorem exits_exact {ls : List Label} {p : Phase} (h : exec step (.called pids) ls = some p) :
    p ≠ .keyError ∧
    (∀ s, p = .waiting s → descriptors s.calls = some s.pidfds.keys.toFinset ∧
      ∀ pid ∈ s.remaining, s.Covers pid) ∧
    ∀ remaining calls, p = .returned remaining calls →
      remaining ⊆ pids ∧ (∀ pid ∈ pids, pid ∉ remaining → ∃ c ∈ calls, c.Shows pid) ∧
        (∀ pid ∈ remaining, lastProbe pid calls = some false) ∧ descriptors calls = some ∅ := by
  have hstart : (Phase.called pids).Sound pids := rfl
  have hsound : p.Sound pids := invariant step_sound hstart h
  refine ⟨?_, ?_, ?_⟩
  · rintro rfl
    exact hsound
  · rintro s rfl
    exact ⟨hsound.1.open_fds, hsound.2.covers⟩
  · rintro remaining calls rfl
    exact hsound

/-- Three processes. The descriptor of the first one becomes readable, the one of the second fails,
and the third has none. In the end the second is done, and the third is not. -/
def threeExits : List Label :=
  [.start (fun _ => false) (some [1, 2, 3]), .opening (.opened 7 true), .opening (.opened 8 true),
    .opening .refused, .round ⟨false, .events [(7, 1), (8, 8)], false, fun _ => false⟩,
    .round ⟨true, .interrupted, true, (· = 2)⟩]

theorem exits_exact_three : ∃ remaining calls,
    exec step (.called {1, 2, 3}) threeExits = some (.returned remaining calls) ∧
      remaining = {3} ∧ lastProbe 3 calls = some false ∧ descriptors calls = some ∅ := by
  have hrun : (exec step (.called {1, 2, 3}) threeExits).map (fun p =>
      match p with
      | .returned remaining _ => some remaining
      | _ => none) = some (some {3}) := by decide +kernel
  obtain ⟨p, hp, hvalue⟩ := Option.map_eq_some_iff.mp hrun
  cases p with
  | returned remaining calls =>
    obtain rfl := Option.some.inj hvalue
    obtain ⟨-, -, hlast, hopen⟩ := (exits_exact hp).2.2 _ _ rfl
    exact ⟨_, _, hp, rfl, hlast 3 (by decide), hopen⟩
  | called p => cases hvalue
  | opening todo s => cases hvalue
  | waiting s => cases hvalue
  | keyError => cases hvalue

end Wait

end DeltaBox
