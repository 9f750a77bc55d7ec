import DeltaBox.Npd.Daemon

/-!
# Stale answers and live ones

The epoch is meant to make the answers of an abandoned branch invisible, and a restore is meant to
leave the answers of callers outside the sandbox alone. Both depend on what is under way when the
epoch is raised. A response that has passed the daemon's check is renamed into place whatever
happens to the epoch, `wait` looks for the file before it looks at the epoch, and the sweep of a
cold restore does not look at ids at all.

## Main definitions

* `Quiet` — no response with an epoch is between the daemon's check and its caller
* `Settled` — the condition on the state before a step: the epoch is raised when it is quiet, and
  the sweep removes nothing that is exempt or of the current epoch
* `Inv` — the invariant of such runs

## Main results

* `answers_sound` — in settled runs no stale response is handed out, a live one is removed only by
  the party that submitted the request, and a `wait` that polls for it returns it
* `stale_answer_returned` — without the condition both halves fail
-/

namespace DeltaBox

namespace Npd

open Machine

variable {R : Type*} {s t : State R} {p : ℕ} {q : Proc R} {rid : Rid} {party : Party}

/-- The process holds no response. -/
def Pc.Free : Pc R → Bool
  | .holding _ _ => false
  | .taken _ _ => false
  | _ => true

/-- The response has passed the check and is not in its place. -/
def Stage.Passed : Stage R → Bool
  | .passed _ => true
  | _ => false

/-- The call holds the response. -/
def Poll.Loaded : Poll R → Bool
  | .loaded _ => true
  | _ => false

/-- **Nothing is under way.** No response with an epoch is in the directory, between the daemon's
check and its rename, or with a caller that has not handed it out. -/
structure Quiet (s : State R) : Prop where
  resp : ∀ x ∈ s.resp.entries, x.1.epoch = none
  workers : ∀ x ∈ s.workers.entries, x.2.Passed → x.1.epoch = none
  procs : ∀ x ∈ s.procs.entries, x.2.pc.Free
  waits : ∀ x ∈ s.waits.entries, x.2.poll.Loaded → x.2.rid.epoch = none

instance (s : State R) : Decidable (Quiet s) :=
  decidable_of_iff ((∀ x ∈ s.resp.entries, x.1.epoch = none) ∧
    (∀ x ∈ s.workers.entries, x.2.Passed → x.1.epoch = none) ∧
    (∀ x ∈ s.procs.entries, x.2.pc.Free) ∧
    (∀ x ∈ s.waits.entries, x.2.poll.Loaded → x.2.rid.epoch = none))
    ⟨fun ⟨h1, h2, h3, h4⟩ => ⟨h1, h2, h3, h4⟩, fun ⟨h1, h2, h3, h4⟩ => ⟨h1, h2, h3, h4⟩⟩

/-- The file the sweep removes next. -/
def Ctl.next? : Ctl → Option Rid
  | .sweeping (rid :: _) => some rid
  | _ => none

/-- **The condition on a step.** The epoch is raised, on disk too, when nothing is under way. The
sweep meets no live response. The daemon can read the epoch file. No process is dumped while it
holds a response. -/
def Settled (s : State R) : Act R → Prop
  | .bump persisted => persisted = true ∧ Quiet s
  | .unlink => ∀ rid ∈ s.ctl.next?, rid ∈ s.resp.keys → ¬ rid.Live s.epoch
  | .check rid readable => readable = true ∨ rid.epoch = none
  | .dump p => ∀ q ∈ s.procs.find? p, q.pc.Free
  | _ => True

instance decidableSettled (s : State R) (a : Act R) : Decidable (Settled s a) := by
  cases a <;> unfold Settled <;> infer_instance

/-- In epoch `n` the response may still be handed out. -/
def Fresh (n : ℕ) (rid : Rid) : Prop := ∀ e, rid.epoch = some e → n ≤ e

/-- Somebody has submitted it. -/
def Known (sub : List (Rid × Party)) (rid : Rid) : Prop := ∃ party, (rid, party) ∈ sub

/-- What a process has to do with is the agent's, and what it holds is fresh. -/
structure ProcOk (n : ℕ) (sub : List (Rid × Party)) (q : Proc R) : Prop where
  pending : ∀ rid ∈ q.pending, (rid, .agent) ∈ sub
  pc : match q.pc with
    | .top => True
    | .sending rid | .posted rid => (rid, .agent) ∈ sub
    | .holding rid _ | .taken rid _ => (rid, .agent) ∈ sub ∧ Fresh n rid

/-- A removal: by the submitter, unless the response was neither exempt nor of that epoch. -/
structure RemovalOk (n : ℕ) (sub : List (Rid × Party)) (x : Rid × Party × ℕ) : Prop where
  past : x.2.2 ≤ n
  after : ∀ e, x.1.epoch = some e → e ≤ x.2.2
  own : x.1.Live x.2.2 → (x.1, x.2.1) ∈ sub

/-- The invariant. -/
structure Inv (s : State R) : Prop where
  file : s.file = s.epoch
  ids : ∀ x ∈ s.submitted, ∀ e, x.1.epoch = some e → e ≤ s.epoch
  requests : ∀ rid ∈ s.requests, Known s.submitted rid
  drawn : ∀ rid ∈ s.drawn, Known s.submitted rid
  workers : ∀ rid st, s.workers.find? rid = some st →
    Known s.submitted rid ∧ (st.Passed → Fresh s.epoch rid)
  resp : ∀ rid r, s.resp.find? rid = some r → Known s.submitted rid ∧ Fresh s.epoch rid
  procs : ∀ p q, s.procs.find? p = some q → ProcOk s.epoch s.submitted q
  images : ∀ q ∈ s.images, ProcOk s.epoch s.submitted q
  free : ∀ q ∈ s.images, q.pc.Free
  waits : ∀ w x, s.waits.find? w = some x →
    (x.rid, .client) ∈ s.submitted ∧ (x.poll.Loaded → Fresh s.epoch x.rid)
  removed : ∀ x ∈ s.removed, RemovalOk s.epoch s.submitted x
  written : ∀ rid ∈ s.written, (∃ r, s.resp.find? rid = some r) ∨
    ∃ party n, (rid, party, n) ∈ s.removed
  handed : ∀ x ∈ s.handed, ∀ e, x.1.epoch = some e → x.2 ≤ e

theorem inv_start : Inv (start p : State R) where
  file := rfl
  ids := by simp [start]
  requests := by simp [start]
  drawn := by simp [start]
  workers := by simp [start]
  resp := by simp [start]
  procs := by
    intro p' q hq
    simp only [start, Dict.find?_set, Dict.find?_empty] at hq
    split_ifs at hq
    obtain rfl := Option.some.inj hq
    exact ⟨by simp, trivial⟩
  images := by simp [start]
  free := by simp [start]
  waits := by simp [start]
  removed := by simp [start]
  written := by simp [start]
  handed := by simp [start]

/-! ### One component at a time -/

theorem Inv.put (h : Inv s) (hq : ProcOk s.epoch s.submitted q) : Inv (s.put p q) :=
  { h with
    procs := by
      intro p' q' hq'
      simp only [State.put, Dict.find?_set] at hq'
      split_ifs at hq'
      · obtain rfl := Option.some.inj hq'
        exact hq
      · exact h.procs p' q' hq' }

theorem Inv.setWorker (h : Inv s) (st : Stage R) (hknown : Known s.submitted rid)
    (hst : st.Passed → Fresh s.epoch rid) :
    Inv { s with workers := s.workers.set rid st } :=
  { h with
    workers := by
      intro rid' st' hst'
      simp only [Dict.find?_set] at hst'
      split_ifs at hst' with heq
      · obtain rfl := Option.some.inj hst'
        rw [heq]
        exact ⟨hknown, hst⟩
      · exact h.workers rid' st' hst' }

theorem Inv.eraseWorker (h : Inv s) (rid : Rid) : Inv { s with workers := s.workers.erase rid } :=
  { h with
    workers := by
      intro rid' st' hst'
      simp only [Dict.find?_erase] at hst'
      split_ifs at hst'
      exact h.workers rid' st' hst' }

theorem Inv.setWait (h : Inv s) {w : ℕ} {x : Wait R} (hown : (x.rid, .client) ∈ s.submitted)
    (hx : x.poll.Loaded → Fresh s.epoch x.rid) : Inv { s with waits := s.waits.set w x } :=
  { h with
    waits := by
      intro w' x' hx'
      simp only [Dict.find?_set] at hx'
      split_ifs at hx'
      · obtain rfl := Option.some.inj hx'
        exact ⟨hown, hx⟩
      · exact h.waits w' x' hx' }

theorem Inv.eraseWait (h : Inv s) {w : ℕ} : Inv { s with waits := s.waits.erase w } :=
  { h with
    waits := by
      intro w' x' hx'
      simp only [Dict.find?_erase] at hx'
      split_ifs at hx'
      exact h.waits w' x' hx' }

/-- A response is removed by the party that submitted the request, or it was stale. -/
theorem Inv.remove (h : Inv s) (party : Party) (rid : Rid)
    (hown : s.resp.find? rid ≠ none → rid.Live s.epoch → (rid, party) ∈ s.submitted) :
    Inv (s.remove party rid) := by
  unfold State.remove
  split
  next r hr =>
    obtain ⟨⟨party', hknown⟩, -⟩ := h.resp rid r hr
    refine { h with resp := ?_, removed := ?_, written := ?_ }
    · intro rid' r' hr'
      simp only [Dict.find?_erase] at hr'
      split_ifs at hr'
      exact h.resp rid' r' hr'
    · intro x hx
      rcases List.mem_cons.mp hx with rfl | hx
      · exact ⟨Nat.le_refl _, h.ids _ hknown, hown (by simp [hr])⟩
      · exact h.removed x hx
    · intro rid' hrid'
      by_cases heq : rid' = rid
      · subst heq
        exact .inr ⟨party, s.epoch, List.mem_cons_self⟩
      · rcases h.written rid' hrid' with ⟨r', hr'⟩ | ⟨party', n, hmem⟩
        · refine .inl ⟨r', ?_⟩
          rw [Dict.find?_erase_of_ne _ heq]
          exact hr'
        · exact .inr ⟨party', n, List.mem_cons_of_mem _ hmem⟩
  next => exact h

/-- What a removal leaves alone. -/
theorem remove_frame (s : State R) (party : Party) (rid : Rid) :
    (s.remove party rid).epoch = s.epoch ∧ (s.remove party rid).submitted = s.submitted ∧
      (s.remove party rid).waits = s.waits ∧ (s.remove party rid).handed = s.handed := by
  unfold State.remove
  split <;> exact ⟨rfl, rfl, rfl, rfl⟩

theorem removeAll_frame (s : State R) (party : Party) (rids : List Rid) :
    (s.removeAll party rids).epoch = s.epoch ∧
      (s.removeAll party rids).submitted = s.submitted := by
  induction rids generalizing s with
  | nil => exact ⟨rfl, rfl⟩
  | cons rid rids ih =>
    obtain ⟨hepoch, hsub, -⟩ := remove_frame s party rid
    obtain ⟨hepoch', hsub'⟩ := ih (s.remove party rid)
    exact ⟨hepoch'.trans hepoch, hsub'.trans hsub⟩

theorem Inv.removeAll (h : Inv s) (party : Party) (rids : List Rid)
    (hown : ∀ rid ∈ rids, (rid, party) ∈ s.submitted) : Inv (s.removeAll party rids) := by
  induction rids generalizing s with
  | nil => exact h
  | cons rid rids ih =>
    refine ih (h.remove party rid fun _ _ => hown rid List.mem_cons_self) fun rid' hrid' => ?_
    rw [(remove_frame s party rid).2.1]
    exact hown rid' (List.mem_cons_of_mem _ hrid')

theorem Known.cons {sub : List (Rid × Party)} (x : Rid × Party) (h : Known sub rid) :
    Known (x :: sub) rid := by
  obtain ⟨party, hmem⟩ := h
  exact ⟨party, List.mem_cons_of_mem _ hmem⟩

theorem ProcOk.cons {n : ℕ} {sub : List (Rid × Party)} (x : Rid × Party) (h : ProcOk n sub q) :
    ProcOk n (x :: sub) q := by
  obtain ⟨hpending, hpc⟩ := h
  refine ⟨fun rid hrid => List.mem_cons_of_mem _ (hpending rid hrid), ?_⟩
  split at hpc
  · trivial
  · exact List.mem_cons_of_mem _ hpc
  · exact List.mem_cons_of_mem _ hpc
  · exact ⟨List.mem_cons_of_mem _ hpc.1, hpc.2⟩
  · exact ⟨List.mem_cons_of_mem _ hpc.1, hpc.2⟩

/-- An id is drawn with the epoch that was read, or 0, or none at all. -/
theorem Inv.submit (h : Inv s) (rid : Rid) (party : Party)
    (hrid : ∀ e, rid.epoch = some e → e ≤ s.epoch) :
    Inv { s with submitted := (rid, party) :: s.submitted } where
  file := h.file
  ids := by
    intro x hx
    rcases List.mem_cons.mp hx with rfl | hx
    · exact hrid
    · exact h.ids x hx
  requests := fun rid' hrid' => (h.requests rid' hrid').cons _
  drawn := fun rid' hrid' => (h.drawn rid' hrid').cons _
  workers := fun rid' st hst => ⟨(h.workers rid' st hst).1.cons _, (h.workers rid' st hst).2⟩
  resp := fun rid' r hr => ⟨(h.resp rid' r hr).1.cons _, (h.resp rid' r hr).2⟩
  procs := fun p q hq => (h.procs p q hq).cons _
  images := fun q hq => (h.images q hq).cons _
  free := h.free
  waits := fun w x hx => ⟨List.mem_cons_of_mem _ (h.waits w x hx).1, (h.waits w x hx).2⟩
  removed := by
    intro x hx
    obtain ⟨hpast, hafter, hown⟩ := h.removed x hx
    exact ⟨hpast, hafter, fun hlive => List.mem_cons_of_mem _ (hown hlive)⟩
  written := h.written
  handed := h.handed

/-- The epoch is raised when nothing is under way. -/
theorem Inv.bump (h : Inv s) (hquiet : Quiet s) (ctl : Ctl) :
    Inv { s with ctl := ctl, epoch := s.epoch + 1, file := s.epoch + 1 } := by
  have hexempt : ∀ {rid : Rid}, rid.epoch = none → Fresh (s.epoch + 1) rid := by
    intro rid hrid e he
    simp [hrid] at he
  have hfree : ∀ q : Proc R, ProcOk s.epoch s.submitted q → q.pc.Free →
      ProcOk (s.epoch + 1) s.submitted q := by
    rintro q ⟨hpending, hpc⟩ hq
    refine ⟨hpending, ?_⟩
    cases heq : q.pc with
    | top => trivial
    | sending rid => simpa [heq] using hpc
    | posted rid => simpa [heq] using hpc
    | holding rid r => simp [heq, Pc.Free] at hq
    | taken rid r => simp [heq, Pc.Free] at hq
  refine { h with
    file := rfl, ids := ?_, workers := ?_, resp := ?_, procs := ?_, images := ?_, waits := ?_
    removed := ?_ }
  · intro x hx e he
    exact Nat.le_succ_of_le (h.ids x hx e he)
  · intro rid st hst
    refine ⟨(h.workers rid st hst).1, fun hpass => hexempt ?_⟩
    exact hquiet.workers _ (Dict.find?_eq_some_iff.mp hst) hpass
  · intro rid r hr
    exact ⟨(h.resp rid r hr).1, hexempt (hquiet.resp _ (Dict.find?_eq_some_iff.mp hr))⟩
  · intro p q hq
    exact hfree q (h.procs p q hq) (hquiet.procs _ (Dict.find?_eq_some_iff.mp hq))
  · intro q hq
    exact hfree q (h.images q hq) (h.free q hq)
  · intro w x hx
    refine ⟨(h.waits w x hx).1, fun hload => hexempt ?_⟩
    exact hquiet.waits _ (Dict.find?_eq_some_iff.mp hx) hload
  · intro x hx
    obtain ⟨hpast, hafter, hown⟩ := h.removed x hx
    exact ⟨Nat.le_succ_of_le hpast, hafter, hown⟩

/-! ### Steps -/

/-- A process at the top of its loop has nothing to do with any id but its pending ones. -/
theorem ProcOk.atTop {n : ℕ} {sub : List (Rid × Party)} (h : ProcOk n sub q) (q' : Proc R)
    (hpc : q'.pc = .top) (hsub : ∀ rid ∈ q'.pending, rid ∈ q.pending) : ProcOk n sub q' := by
  refine ⟨fun rid hrid => h.pending rid (hsub rid hrid), ?_⟩
  rw [hpc]
  trivial

theorem ProcOk.sync {n : ℕ} {sub : List (Rid × Party)} (h : ProcOk n sub q) (hpc : q.pc = .top)
    (c : ℕ) : ProcOk n sub (q.sync c) := by
  unfold Proc.sync
  split_ifs
  · exact h
  · exact h.atTop _ hpc fun rid hrid => (List.mem_filter.mp hrid).1

theorem mem_pending_of_stale {c : ℕ} (h : rid ∈ q.stale c) : rid ∈ q.pending := by
  unfold Proc.stale at h
  split_ifs at h
  · cases h
  · exact (List.mem_filter.mp h).1

theorem ProcOk.handle {q' : Proc R} (h : Inv s) (hq : ProcOk s.epoch s.submitted q)
    (hpc : q.pc = .top) (hs : q.handle s.resp = some q') : ProcOk s.epoch s.submitted q' := by
  unfold Proc.handle at hs
  split at hs
  next => cases hs
  next rid rest hbuf =>
    split_ifs at hs with hmem
    · split at hs
      next r hr =>
        obtain rfl := Option.some.inj hs
        exact ⟨hq.pending, hq.pending rid hmem, (h.resp rid r hr).2⟩
      next =>
        obtain rfl := Option.some.inj hs
        exact hq.atTop _ hpc fun rid hrid => (List.mem_filter.mp hrid).1
    · obtain rfl := Option.some.inj hs
      exact hq.atTop _ hpc fun rid hrid => hrid

theorem readEpoch_le (h : Inv s) (readable : Bool) : s.readEpoch readable ≤ s.epoch := by
  unfold State.readEpoch
  have := h.file
  split_ifs <;> omega

theorem inv_agentStep {a : Act R} (h : Inv s) (hq : s.procs.find? p = some q)
    (hset : ∀ p', a = .dump p' → q.pc.Free) (hs : agentStep s p q a = some t) : Inv t := by
  have hok := h.procs p q hq
  unfold agentStep at hs
  split at hs
  next p' uuid readable =>
    split at hs <;> try cases hs
    next hpc =>
      split_ifs at hs
      obtain rfl := Option.some.inj hs
      have hsub := h.submit ⟨some (s.readEpoch readable), uuid⟩ .agent (by
        intro e he
        rw [← Option.some.inj he]
        exact readEpoch_le h readable)
      refine hsub.put (p := p) (q := { q with pc := .sending _ }) ⟨?_, List.mem_cons_self⟩
      exact fun rid hrid => List.mem_cons_of_mem _ (hok.pending rid hrid)
  next p' =>
    split at hs <;> try cases hs
    next rid hpc =>
      have hmine : (rid, .agent) ∈ s.submitted := by simpa [hpc] using hok.pc
      refine { h.put (p := p) (q := { q with pc := .posted rid }) ⟨hok.pending, hmine⟩ with
        requests := ?_ }
      intro rid' hrid'
      rcases List.mem_append.mp hrid' with hrid' | hrid'
      · exact h.requests rid' hrid'
      · rw [List.mem_singleton.mp hrid']
        exact ⟨_, hmine⟩
  next p' =>
    split at hs <;> try cases hs
    next rid hpc =>
      have hmine : (rid, .agent) ∈ s.submitted := by simpa [hpc] using hok.pc
      refine h.put ⟨fun rid' hrid' => ?_, trivial⟩
      rcases List.mem_append.mp hrid' with hrid' | hrid'
      · exact hok.pending rid' hrid'
      · rw [List.mem_singleton.mp hrid']
        exact hmine
  next p' readable =>
    split at hs <;> try cases hs
    next hpc =>
      have hrem := h.removeAll .agent (q.stale (s.readEpoch readable))
        fun rid hrid => hok.pending rid (mem_pending_of_stale hrid)
      obtain ⟨hepoch, hsub⟩ := removeAll_frame s .agent (q.stale (s.readEpoch readable))
      refine hrem.put ?_
      rw [hepoch, hsub]
      exact hok.sync hpc _
  next p' =>
    split at hs <;> try cases hs
    next hpc =>
      obtain ⟨hepoch, hsub⟩ := removeAll_frame s .agent q.pending
      refine (h.removeAll .agent _ hok.pending).put ?_
      rw [hepoch, hsub]
      exact hok.atTop _ hpc (by simp)
  next p' n =>
    split at hs <;> try cases hs
    next hpc =>
      exact { h.put (p := p) (hok.atTop { q with notifyBuf := q.notifyBuf ++ s.notify.take n } hpc
        fun rid hrid => hrid) with }
  next p' =>
    split at hs <;> try cases hs
    next hpc =>
      obtain ⟨q', hq', rfl⟩ := Option.map_eq_some_iff.mp hs
      exact h.put (hok.handle h hpc hq')
  next p' =>
    split at hs <;> try cases hs
    next rid r hpc =>
      have hold : (rid, .agent) ∈ s.submitted ∧ Fresh s.epoch rid := by simpa [hpc] using hok.pc
      obtain ⟨hepoch, hsub, -⟩ := remove_frame s .agent rid
      refine (h.remove .agent rid fun _ _ => hold.1).put ?_
      rw [hepoch, hsub]
      exact ⟨hok.pending, hold⟩
  next p' =>
    split at hs <;> try cases hs
    next rid r hpc =>
      have hold : (rid, .agent) ∈ s.submitted ∧ Fresh s.epoch rid := by simpa [hpc] using hok.pc
      refine { h.put (p := p) (hok.atTop { q with
        pc := .top, pending := q.pending.filter (· ≠ rid) } rfl fun rid hrid =>
          (List.mem_filter.mp hrid).1) with handed := ?_ }
      intro x hx
      rcases List.mem_cons.mp hx with rfl | hx
      · exact hold.2
      · exact h.handed x hx
  next p' child =>
    split at hs <;> try cases hs
    exact h.put hok
  next p' =>
    obtain rfl := Option.some.inj hs
    refine { h with images := ?_, free := ?_ }
    · intro q' hq'
      rcases List.mem_append.mp hq' with hq' | hq'
      · exact h.images q' hq'
      · rw [List.mem_singleton.mp hq']
        exact hok
    · intro q' hq'
      rcases List.mem_append.mp hq' with hq' | hq'
      · exact h.free q' hq'
      · rw [List.mem_singleton.mp hq']
        exact hset p' rfl
  next p' =>
    obtain rfl := Option.some.inj hs
    refine { h with procs := ?_ }
    intro p₂ q₂ hq₂
    simp only [Dict.find?_erase] at hq₂
    split_ifs at hq₂
    exact h.procs p₂ q₂ hq₂
  next => cases hs

theorem inv_waitStep {a : Act R} {w : ℕ} {x : Wait R} (h : Inv s) (hx : s.waits.find? w = some x)
    (hs : waitStep s w x a = some t) : Inv t := by
  obtain ⟨hown, hload⟩ := h.waits w x hx
  unfold waitStep at hs
  split at hs
  next w' readable =>
    split at hs <;> try cases hs
    split at hs
    · obtain rfl := Option.some.inj hs
      exact h.setWait hown (by simp [Poll.Loaded])
    · split_ifs at hs
      · obtain rfl := Option.some.inj hs
        exact h.eraseWait
      · obtain rfl := Option.some.inj hs
        exact h
  next w' =>
    split at hs <;> try cases hs
    split at hs
    next r hr =>
      obtain rfl := Option.some.inj hs
      exact h.setWait hown fun _ => (h.resp x.rid r hr).2
    next =>
      obtain rfl := Option.some.inj hs
      exact h.setWait hown (by simp [Poll.Loaded])
  next w' =>
    split at hs <;> try cases hs
    next r hpoll =>
      obtain ⟨hepoch, hsub, hwaits, hhanded⟩ := remove_frame s .client x.rid
      have hrem := h.remove .client x.rid fun _ _ => hown
      refine { (hrem.eraseWait (w := w)) with waits := ?_, handed := ?_ }
      · rw [← hwaits]
        exact (hrem.eraseWait (w := w)).waits
      · intro y hy
        rcases List.mem_cons.mp hy with rfl | hy
        · exact hload (by simp [hpoll, Poll.Loaded])
        · exact h.handed y hy
  next w' =>
    obtain rfl := Option.some.inj hs
    exact h.eraseWait
  next => cases hs

theorem inv_workerStep {a : Act R} {stage : Stage R} (h : Inv s)
    (hst : s.workers.find? rid = some stage)
    (hset : ∀ rid' readable, a = .check rid' readable → readable = true ∨ rid.epoch = none)
    (hs : workerStep s rid stage a = some t) : Inv t := by
  obtain ⟨hknown, hpass⟩ := h.workers rid stage hst
  unfold workerStep at hs
  split at hs
  next rid' r =>
    split at hs <;> try cases hs
    exact h.setWorker _ hknown (by simp [Stage.Passed])
  next rid' readable =>
    split at hs <;> try cases hs
    split_ifs at hs with hold
    · obtain rfl := Option.some.inj hs
      exact h.eraseWorker rid
    · obtain rfl := Option.some.inj hs
      refine h.setWorker _ hknown fun _ e he => ?_
      rcases hset rid' readable rfl with rfl | hexempt
      · have hfile := h.file
        simp only [he, Option.any_some, State.readEpoch, if_true, decide_eq_true_eq] at hold
        omega
      · simp [hexempt] at he
  next rid' ok =>
    split at hs <;> try cases hs
    next r =>
      split_ifs at hs
      · obtain rfl := Option.some.inj hs
        have hfresh := hpass rfl
        refine { (h.setWorker .renamed hknown (by simp [Stage.Passed])) with
          resp := ?_, written := ?_ }
        · intro rid₂ r₂ hr₂
          simp only [Dict.find?_set] at hr₂
          split_ifs at hr₂ with heq
          · rw [heq]
            exact ⟨hknown, hfresh⟩
          · exact h.resp rid₂ r₂ hr₂
        · intro rid₂ hrid₂
          by_cases heq : rid₂ = rid
          · exact .inl ⟨r, by rw [heq, Dict.find?_set_self]⟩
          · rcases List.mem_cons.mp hrid₂ with hrid₂ | hrid₂
            · exact absurd hrid₂ heq
            · rw [Dict.find?_set_of_ne _ _ heq]
              exact h.written rid₂ hrid₂
      · obtain rfl := Option.some.inj hs
        exact h.eraseWorker rid
  next rid' ok =>
    split at hs <;> try cases hs
    exact { h.eraseWorker rid with }
  next => cases hs

/-- A settled step keeps the invariant. -/
theorem inv_step {a : Act R} (h : Inv s) (hset : Settled s a) (hs : step s a = some t) :
    Inv t := by
  cases a
  case agentDraw | agentPost | agentTrack | agentSync | agentAbort | readNotify | handle
      | agentUnlink | deliver | fork | kill =>
    obtain ⟨q, hq, hs⟩ := Option.bind_eq_some_iff.mp hs
    exact inv_agentStep h hq (fun _ heq => by cases heq) hs
  case dump p =>
    obtain ⟨q, hq, hs⟩ := Option.bind_eq_some_iff.mp hs
    exact inv_agentStep h hq (fun _ _ => hset q hq) hs
  case poll | read | ret | expire =>
    obtain ⟨x, hx, hs⟩ := Option.bind_eq_some_iff.mp hs
    exact inv_waitStep h hx hs
  case answer | rename | notify =>
    obtain ⟨stage, hst, hs⟩ := Option.bind_eq_some_iff.mp hs
    exact inv_workerStep h hst (fun _ _ heq => by cases heq) hs
  case check rid readable =>
    obtain ⟨stage, hst, hs⟩ := Option.bind_eq_some_iff.mp hs
    refine inv_workerStep h hst (fun rid' readable' heq => ?_) hs
    obtain ⟨rfl, rfl⟩ := Act.check.inj heq
    exact hset
  case load i child =>
    simp only [step] at hs
    split at hs <;> try cases hs
    next q hi hchild => exact h.put (h.images q (List.mem_of_getElem? hi))
  case draw uuid exempt readable =>
    simp only [step] at hs
    split_ifs at hs
    all_goals
      obtain rfl := Option.some.inj hs
    · refine { h.submit ⟨none, uuid⟩ .client (by simp) with drawn := ?_ }
      intro rid hrid
      rcases List.mem_cons.mp hrid with rfl | hrid
      · exact ⟨_, List.mem_cons_self⟩
      · exact (h.drawn rid hrid).cons _
    · refine { h.submit ⟨some (s.readEpoch readable), uuid⟩ .client ?_ with drawn := ?_ }
      · intro e he
        rw [← Option.some.inj he]
        exact readEpoch_le h readable
      · intro rid hrid
        rcases List.mem_cons.mp hrid with rfl | hrid
        · exact ⟨_, List.mem_cons_self⟩
        · exact (h.drawn rid hrid).cons _
  case post rid =>
    simp only [step] at hs
    split_ifs at hs with hmem
    obtain rfl := Option.some.inj hs
    refine { h with requests := ?_, drawn := ?_ }
    · intro rid' hrid'
      rcases List.mem_append.mp hrid' with hrid' | hrid'
      · exact h.requests rid' hrid'
      · rw [List.mem_singleton.mp hrid']
        exact h.drawn rid hmem
    · exact fun rid' hrid' => h.drawn rid' (List.mem_filter.mp hrid').1
  case wait w rid =>
    simp only [step] at hs
    split at hs <;> try cases hs
    split_ifs at hs with hown
    obtain rfl := Option.some.inj hs
    exact h.setWait hown (by simp [Poll.Loaded])
  case work rid =>
    simp only [step] at hs
    split_ifs at hs with hmem
    obtain rfl := Option.some.inj hs
    refine { h.setWorker .chatting (h.requests rid hmem.1) (by simp [Stage.Passed]) with
      requests := ?_ }
    exact fun rid' hrid' => h.requests rid' (List.mem_filter.mp hrid').1
  case bump persisted =>
    obtain ⟨rfl, hquiet⟩ := hset
    simp only [step, if_true] at hs
    split_ifs at hs
    obtain rfl := Option.some.inj hs
    exact h.bump hquiet _
  case list names =>
    simp only [step] at hs
    split_ifs at hs
    obtain rfl := Option.some.inj hs
    exact { h with }
  case unlink =>
    simp only [step] at hs
    split at hs <;> try cases hs
    next rid names hctl =>
      have hrem := h.remove .controller rid fun hthere hlive => by
        refine absurd hlive (hset rid (by simp [hctl, Ctl.next?]) ?_)
        obtain ⟨r, hr⟩ := Option.ne_none_iff_exists'.mp hthere
        exact Dict.mem_keys_iff.mpr ⟨r, hr⟩
      exact { hrem with }
  case done =>
    simp only [step] at hs
    split_ifs at hs
    obtain rfl := Option.some.inj hs
    exact { h with }

/-! ### The result -/

/-- A `wait` that polls while its response is there returns it. -/
theorem wait_returns {w : ℕ} {r : R} (hw : s.waits.find? w = some ⟨rid, .polling⟩)
    (hr : s.resp.find? rid = some r) :
    ∃ t, exec step s [.poll w true, .read w, .ret w] = some t ∧ (w, rid, r) ∈ t.returned := by
  simp [exec, step, waitStep, hw, hr]

/-- **Stale answers are invisible and live ones are not lost**, in every settled run:

* nothing is handed out in epoch `n` that was submitted in an earlier one,
* a response that is exempt or of the current epoch is removed only by the party that submitted it,
* a live response that was written is there until then,
* and a `wait` that polls for it returns it. -/
theorem answers_sound {p₀ : ℕ} {as : List (Act R)} (hset : Along step Settled (start p₀) as)
    (h : exec step (start p₀) as = some s) :
    (∀ x ∈ s.handed, ∀ e, x.1.epoch = some e → x.2 ≤ e) ∧
    (∀ x ∈ s.removed, x.1.Live x.2.2 → (x.1, x.2.1) ∈ s.submitted) ∧
    (∀ rid ∈ s.written, rid.Live s.epoch → (∃ r, s.resp.find? rid = some r) ∨
      ∃ party n, (rid, party, n) ∈ s.removed ∧ (rid, party) ∈ s.submitted) ∧
    (∀ w rid r, s.waits.find? w = some ⟨rid, .polling⟩ → s.resp.find? rid = some r →
      ∃ t, exec step s [.poll w true, .read w, .ret w] = some t ∧ (w, rid, r) ∈ t.returned) := by
  have hinv : Inv s := invariant_along (fun hi hc hs => inv_step hi hc hs) inv_start hset h
  refine ⟨hinv.handed, fun x hx => (hinv.removed x hx).own, fun rid hrid hlive => ?_,
    fun w rid r hw hr => wait_returns hw hr⟩
  rcases hinv.written rid hrid with hthere | ⟨party, n, hmem⟩
  · exact .inl hthere
  · refine .inr ⟨party, n, hmem, ?_⟩
    obtain ⟨hpast, hafter, hown⟩ := hinv.removed _ hmem
    refine hown ?_
    -- it was not removed in an earlier epoch, because it did not exist then
    rcases hlive with hexempt | hcurrent
    · exact .inl hexempt
    · have hn := hafter _ hcurrent
      dsimp only at hn hpast
      have heq : s.epoch = n := by omega
      exact .inr (heq ▸ hcurrent)

/-! ### Three runs -/

/-- A caller submits request 7, exempt or not, and waits. The daemon answers 42 and renames the
response into place. -/
def askedAndAnswered (exempt : Bool) : List (Act ℕ) :=
  [.draw 7 exempt true, .post ⟨if exempt then none else some 0, 7⟩,
    .wait 1 ⟨if exempt then none else some 0, 7⟩, .work ⟨if exempt then none else some 0, 7⟩,
    .answer ⟨if exempt then none else some 0, 7⟩ 42,
    .check ⟨if exempt then none else some 0, 7⟩ true,
    .rename ⟨if exempt then none else some 0, 7⟩ true]

/-- The caller polls before the restore. -/
def inTime : List (Act ℕ) :=
  askedAndAnswered false ++ [.poll 1 true, .read 1, .ret 1, .bump true, .list [⟨some 0, 7⟩],
    .unlink, .done]

/-- A warm restore comes first. -/
def overtaken : List (Act ℕ) :=
  askedAndAnswered false ++ [.bump true, .done, .poll 1 true, .read 1, .ret 1]

/-- A cold restore sweeps the directory. -/
def swept : List (Act ℕ) :=
  askedAndAnswered true ++ [.bump true, .list [⟨none, 7⟩], .unlink, .done]

/-- An answer is handed out before the restore, and nothing is left to sweep. -/
theorem answers_sound_inTime :
    ∃ s : State ℕ, exec step (start 1) inTime = some s ∧ s.returned = [(1, ⟨some 0, 7⟩, 42)] ∧
      s.epoch = 1 ∧ (∀ x ∈ s.handed, ∀ e, x.1.epoch = some e → x.2 ≤ e) := by
  have hout : (exec step (start 1) inTime).map (fun s : State ℕ => (s.returned, s.epoch)) =
      some ([(1, ⟨some 0, 7⟩, 42)], 1) := by decide +kernel
  obtain ⟨s, hs, heq⟩ := Option.map_eq_some_iff.mp hout
  obtain ⟨hret, hepoch⟩ := Prod.mk.inj heq
  exact ⟨s, hs, hret, hepoch, (answers_sound (by decide +kernel) hs).1⟩

/-- **Both halves fail.** `wait` finds the file of a stale response before it looks at the epoch,
and the sweep removes the response of an exempt caller. -/
theorem stale_answer_returned :
    (∃ s : State ℕ, exec step (start 1) overtaken = some s ∧
      ∃ x ∈ s.handed, ∃ e, x.1.epoch = some e ∧ e < x.2) ∧
    ∃ s : State ℕ, exec step (start 1) swept = some s ∧
      ∃ x ∈ s.removed, x.1.epoch = none ∧ (x.1, x.2.1) ∉ s.submitted := by
  have hfirst : (exec step (start 1) overtaken).map (fun s : State ℕ => s.handed) =
      some [(⟨some 0, 7⟩, 1)] := by decide +kernel
  have hsecond : (exec step (start 1) swept).map (fun s : State ℕ => (s.removed, s.submitted)) =
      some ([(⟨none, 7⟩, .controller, 1)], [(⟨none, 7⟩, .client)]) := by decide +kernel
  obtain ⟨s, hs, hhanded⟩ := Option.map_eq_some_iff.mp hfirst
  obtain ⟨s', hs', heq⟩ := Option.map_eq_some_iff.mp hsecond
  obtain ⟨hremoved, hsubmitted⟩ := Prod.mk.inj heq
  refine ⟨⟨s, hs, (⟨some 0, 7⟩, 1), by simp [hhanded], 0, rfl, by decide⟩, s', hs',
    (⟨none, 7⟩, .controller, 1), by simp [hremoved], rfl, ?_⟩
  rw [hsubmitted]
  decide

end Npd

end DeltaBox
