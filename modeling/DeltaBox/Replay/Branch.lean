import DeltaBox.Replay.Agent

/-!
# Requests of an abandoned branch

A restored process compares the epoch of a request with the epoch file. Whatever is in the FIFO, in
its buffer or in the image it came from, it refuses what was sent before the restore, provided that
it reads the file after the controller has written it, and that it was not dumped between reading
the file and finishing a request.

Neither is enforced. The process runs as soon as it exists, and the epoch is raised afterwards.

## Main definitions

* `InOrder` — the two conditions, on the state before a step
* `Inv` — no request that was sent before a restore has an epoch above the base of that restore

## Main results

* `abandoned_requests_refused` — in every run that keeps the order, no process acts on a request
  that was sent before the restore that produced it
* `abandoned_request_runs` — a forked process is faster than the controller and acts on a request
  that its sender had given up
-/

namespace DeltaBox

namespace Replay

open Machine
open Host (Bytes Object Codec nl rs block probeRequest probeFrame)

variable {V : Type*} {J : Codec V} {cap : ℕ} {s t : State V} {q : Proc V} {p : ℕ}

/-- It has not yet read the epoch for its request. -/
def Pc.Early : Pc V → Bool
  | .top => true
  | .parsed _ => true
  | _ => false

/-- **The order that keeps branches apart.** A process that a restore produced reads the epoch file
after that restore, or a later one, has written it. No process is dumped between reading the file
and finishing the request. -/
def InOrder (s : State V) : Act V → Prop
  | .look p readable => ∀ q, s.procs p = some q → q.since = 0 ∨ readable ∧ q.base < s.file
  | .dump p => ∀ q, s.procs p = some q → q.pc.Early
  | _ => True

instance decidableInOrder (s : State V) : (a : Act V) → Decidable (InOrder s a)
  | .look p readable =>
    match h : s.procs p with
    | some q => decidable_of_iff (q.since = 0 ∨ readable ∧ q.base < s.file)
        ⟨fun hq q' hq' => Option.some.inj (h.symm.trans hq') ▸ hq, fun hq => hq q h⟩
    | none => isTrue fun q' hq' => by simp [h] at hq'
  | .dump p =>
    match h : s.procs p with
    | some q => decidable_of_iff (q.pc.Early = true)
        ⟨fun hq q' hq' => Option.some.inj (h.symm.trans hq') ▸ hq, fun hq => hq q h⟩
    | none => isTrue fun q' hq' => by simp [h] at hq'
  | .send _ | .write _ | .giveUp | .lose | .sync _ | .read _ | .take _ | .compare _ | .finish _ _
  | .fork _ _ | .begin | .kill _ | .wake _ _ | .load _ _ _ | .bump _ | .abort | .done | .fail =>
    isTrue trivial

variable (J) in
/-- A request that a restored process has accepted, or will accept, has an epoch above the base. -/
def PcOk (q : Proc V) : Prop :=
  match q.pc with
  | .top => True
  | .parsed _ => True
  | .looked _ epoch => q.since = 0 ∨ q.base < epoch
  | .running o => q.since = 0 ∨ ∃ epoch, J.get o "_replay_epoch" = J.int epoch ∧ q.base < epoch

variable (J) in
/-- What is sent before the restore that produced a process has an epoch of at most its base. -/
structure ProcOk (s : State V) (q : Proc V) : Prop where
  since : q.since ≤ s.begun
  sent : ∀ r ∈ s.sent, r.begun < q.since → r.tag ≤ q.base
  pc : PcOk J q

variable (J) in
/-- The invariant. -/
structure Inv (s : State V) : Prop where
  file : s.file ≤ s.epoch
  tag : ∀ r ∈ s.sent, r.tag ≤ s.file ∧ r.begun ≤ s.begun ∧
    J.get r.request "_replay_epoch" = J.int r.tag
  base : ∀ r ∈ s.sent, r.begun < s.begun → r.tag ≤ s.base
  procs : ∀ p q, s.procs p = some q → ProcOk J s q
  images : ∀ i ∈ s.images, ProcOk J s i.1 ∧ i.1.pc.Early

theorem pcOk_of_early (h : q.pc.Early) : PcOk J q := by
  unfold PcOk
  cases hpc : q.pc with
  | top => trivial
  | parsed o => trivial
  | looked o e =>
    rw [hpc] at h
    cases h
  | running o =>
    rw [hpc] at h
    cases h

theorem inv_start : Inv J (start p) where
  file := Nat.le_refl 0
  tag := by simp [start]
  base := by simp [start]
  procs := by
    intro p' q hq
    simp only [start, Function.update_apply] at hq
    split_ifs at hq
    obtain rfl := Option.some.inj hq
    exact ⟨Nat.le_refl 0, by simp [start], trivial⟩
  images := by simp [start]

/-- One process changes, or a new one comes. -/
theorem Inv.put (h : Inv J s) (hq : ProcOk J s q) : Inv J (s.put p q) where
  file := h.file
  tag := h.tag
  base := h.base
  procs := by
    intro p' q' hq'
    simp only [State.put, Function.update_apply] at hq'
    split_ifs at hq' with hp
    · obtain rfl := Option.some.inj hq'
      exact ⟨hq.since, hq.sent, hq.pc⟩
    · obtain ⟨h1, h2, h3⟩ := h.procs p' q' hq'
      exact ⟨h1, h2, h3⟩
  images := fun i hi => ⟨⟨(h.images i hi).1.since, (h.images i hi).1.sent, (h.images i hi).1.pc⟩,
    (h.images i hi).2⟩

/-- A process moves on within its loop. -/
theorem ProcOk.move {q' : Proc V} (h : ProcOk J s q) (hsince : q'.since = q.since)
    (hbase : q'.base = q.base) (hpc : PcOk J q') : ProcOk J s q' := by
  refine ⟨hsince ▸ h.since, ?_, hpc⟩
  rw [hsince, hbase]
  exact h.sent

/-- What a restore produces. -/
theorem Inv.produce (h : Inv J s) (hq : q.pc.Early) : ProcOk J s (s.produce q) :=
  ⟨Nat.le_refl _, h.base, pcOk_of_early hq⟩

/-! ### The steps of the loop -/

@[simp] theorem sync_since (c : ℕ) : (q.sync c).since = q.since := by
  unfold Proc.sync
  split_ifs <;> rfl

@[simp] theorem sync_base (c : ℕ) : (q.sync c).base = q.base := by
  unfold Proc.sync
  split_ifs <;> rfl

@[simp] theorem sync_pc (c : ℕ) : (q.sync c).pc = q.pc := by
  unfold Proc.sync
  split_ifs <;> rfl

theorem ProcOk.take {q' : Proc V} (h : ProcOk J s q) (hpc : q.pc = .top) (ht : q.take J = some q') :
    ProcOk J s q' := by
  unfold Proc.take at ht
  split at ht
  next => cases ht
  next line rest hs =>
    split at ht
    · obtain rfl := Option.some.inj ht
      exact h.move rfl rfl trivial
    · obtain rfl := Option.some.inj ht
      refine h.move rfl rfl (pcOk_of_early ?_)
      simp [hpc, Pc.Early]

/-- A process that reads the epoch in order reads one above its base. -/
theorem ProcOk.look {o : Object V} {readable : Bool} (h : ProcOk J s q)
    (horder : q.since = 0 ∨ readable ∧ q.base < s.file) :
    ProcOk J s { q.sync (if readable then s.file else 0) with
      pc := .looked o (if readable then s.file else 0) } := by
  refine h.move (sync_since _) (sync_base _) ?_
  unfold PcOk
  rw [sync_since, sync_base]
  rcases horder with h0 | ⟨hread, hlt⟩
  · exact .inl h0
  · rw [if_pos hread]
    exact .inr hlt

/-! ### The invariant -/

/-- A request is sent with the epoch of the file. Every restore that produced a process has begun,
so nothing is said about it. -/
theorem Inv.send (h : Inv J s) (payload : Object V) (writing : Bytes) :
    Inv J { s with
      seq := s.seq + 1, writing := writing
      sent := ⟨probeRequest J payload s.file (s.seq + 1), s.file, s.begun⟩ :: s.sent } := by
  have hok : ∀ q, ProcOk J s q → ProcOk J { s with
      seq := s.seq + 1, writing := writing
      sent := ⟨probeRequest J payload s.file (s.seq + 1), s.file, s.begun⟩ :: s.sent } q := by
    intro q hq
    refine ⟨hq.since, fun r hr hlt => ?_, hq.pc⟩
    rcases List.mem_cons.mp hr with rfl | hr
    · have := hq.since
      dsimp only at hlt
      omega
    · exact hq.sent r hr hlt
  refine ⟨h.file, fun r hr => ?_, fun r hr hlt => ?_, fun p q hq => hok q (h.procs p q hq),
    fun i hi => ⟨hok _ (h.images i hi).1, (h.images i hi).2⟩⟩
  · rcases List.mem_cons.mp hr with rfl | hr
    · refine ⟨Nat.le_refl _, Nat.le_refl _, ?_⟩
      simp [Codec.get, probeRequest]
    · exact h.tag r hr
  · rcases List.mem_cons.mp hr with rfl | hr
    · dsimp only at hlt
      omega
    · exact h.base r hr hlt

/-- When a restore begins, everything that was sent has an epoch of at most the file's. -/
theorem Inv.begin (h : Inv J s) :
    Inv J { s with ctl := .begun, begun := s.begun + 1, base := s.file } := by
  have hok : ∀ q, ProcOk J s q →
      ProcOk J { s with ctl := .begun, begun := s.begun + 1, base := s.file } q :=
    fun q hq => ⟨Nat.le_succ_of_le hq.since, hq.sent, hq.pc⟩
  refine ⟨h.file, fun r hr => ?_, fun r hr _ => (h.tag r hr).1,
    fun p q hq => hok q (h.procs p q hq), fun i hi => ⟨hok _ (h.images i hi).1, (h.images i hi).2⟩⟩
  obtain ⟨h1, h2, h3⟩ := h.tag r hr
  exact ⟨h1, Nat.le_succ_of_le h2, h3⟩

/-- The epoch only grows. -/
theorem Inv.bump (h : Inv J s) (ctl : Ctl) (persisted : Bool) :
    Inv J { s with
      ctl := ctl, epoch := s.epoch + 1, file := if persisted then s.epoch + 1 else s.file } := by
  have hfile := h.file
  have hgrow : s.file ≤ if persisted then s.epoch + 1 else s.file := by split_ifs <;> omega
  refine ⟨?_, fun r hr => ?_, h.base, fun p q hq => ?_, fun i hi => ?_⟩
  · dsimp only
    split_ifs <;> omega
  · obtain ⟨h1, h2, h3⟩ := h.tag r hr
    exact ⟨h1.trans hgrow, h2, h3⟩
  · obtain ⟨h1, h2, h3⟩ := h.procs p q hq
    exact ⟨h1, h2, h3⟩
  · obtain ⟨⟨h1, h2, h3⟩, h4⟩ := h.images i hi
    exact ⟨⟨h1, h2, h3⟩, h4⟩

/-- Nothing the invariant speaks of changes. -/
theorem Inv.same (h : Inv J s) (hfile : t.file = s.file) (hepoch : t.epoch = s.epoch)
    (hbegun : t.begun = s.begun) (hbase : t.base = s.base) (hsent : t.sent = s.sent)
    (hprocs : ∀ p q, t.procs p = some q → s.procs p = some q) (himages : t.images = s.images) :
    Inv J t := by
  have hok : ∀ q, ProcOk J s q → ProcOk J t q := by
    intro q hq
    refine ⟨hbegun ▸ hq.since, ?_, hq.pc⟩
    rw [hsent]
    exact hq.sent
  refine ⟨?_, ?_, ?_, fun p q hq => hok q (h.procs p q (hprocs p q hq)), ?_⟩
  · rw [hfile, hepoch]
    exact h.file
  · rw [hsent, hfile, hbegun]
    exact h.tag
  · rw [hsent, hbase, hbegun]
    exact h.base
  · rw [himages]
    exact fun i hi => ⟨hok _ (h.images i hi).1, (h.images i hi).2⟩

variable [DecidableEq V]

theorem ProcOk.compare {o : Object V} {epoch : ℕ} (h : ProcOk J s q)
    (hpc : q.pc = .looked o epoch) : ProcOk J s (q.compare J o epoch) := by
  have hold := h.pc
  rw [PcOk, hpc] at hold
  unfold Proc.compare
  split_ifs with heq
  · refine h.move rfl rfl ?_
    rcases hold with h0 | hlt
    · exact .inl h0
    · exact .inr ⟨epoch, heq, hlt⟩
  · exact h.move rfl rfl trivial

theorem ProcOk.act {o : Object V} {file : ℕ} {uuid : String} (h : ProcOk J s q) :
    ProcOk J s (q.act J o file uuid) := by
  unfold Proc.act
  split_ifs <;> exact h.move rfl rfl trivial

theorem inv_step {a : Act V} (h : Inv J s) (ho : InOrder s a) (hs : step J cap s a = some t) :
    Inv J t := by
  have hkeep : ∀ p q, s.procs p = some q → s.procs p = some q := fun _ _ hq => hq
  cases a with
  | send payload =>
    simp only [step] at hs
    split_ifs at hs
    obtain rfl := Option.some.inj hs
    exact h.send payload _
  | write n =>
    obtain rfl := Option.some.inj hs
    exact h.same rfl rfl rfl rfl rfl hkeep rfl
  | giveUp =>
    obtain rfl := Option.some.inj hs
    exact h.same rfl rfl rfl rfl rfl hkeep rfl
  | lose =>
    obtain rfl := Option.some.inj hs
    exact h.same rfl rfl rfl rfl rfl hkeep rfl
  | sync p =>
    simp only [step] at hs
    split at hs <;> try cases hs
    next q hq =>
      split at hs <;> try cases hs
      next hpc =>
        refine h.put ((h.procs p q hq).move (sync_since _) (sync_base _) (pcOk_of_early ?_))
        simp [hpc, Pc.Early]
  | read p =>
    simp only [step] at hs
    split at hs <;> try cases hs
    next q hq =>
      split at hs <;> try cases hs
      next hpc =>
        split_ifs at hs
        obtain rfl := Option.some.inj hs
        have hmoved : ProcOk J s { q with buf := q.buf ++ s.fifo.take block } :=
          (h.procs p q hq).move rfl rfl (h.procs p q hq).pc
        exact (h.put hmoved).same rfl rfl rfl rfl rfl (fun _ _ hq => hq) rfl
  | take p =>
    simp only [step] at hs
    split at hs <;> try cases hs
    next q hq =>
      split at hs <;> try cases hs
      next hpc =>
        split_ifs at hs
        obtain ⟨q', hq', rfl⟩ := Option.map_eq_some_iff.mp hs
        exact h.put ((h.procs p q hq).take hpc hq')
  | look p readable =>
    simp only [step] at hs
    split at hs <;> try cases hs
    next q hq =>
      split at hs <;> try cases hs
      next o hpc => exact h.put ((h.procs p q hq).look (ho q hq))
  | compare p =>
    simp only [step] at hs
    split at hs <;> try cases hs
    next q hq =>
      split at hs <;> try cases hs
      next o epoch hpc => exact h.put ((h.procs p q hq).compare hpc)
  | finish p uuid =>
    simp only [step] at hs
    split at hs <;> try cases hs
    next q hq =>
      split at hs <;> try cases hs
      next o hpc => exact h.put (h.procs p q hq).act
  | fork p child =>
    simp only [step] at hs
    split at hs <;> try cases hs
    next q hq hchild =>
      split at hs <;> try cases hs
      next hpc => exact h.put (h.procs p q hq)
  | dump p =>
    simp only [step] at hs
    split at hs <;> try cases hs
    next q hq =>
      refine ⟨h.file, h.tag, h.base, fun p' q' hq' => ?_, fun i hi => ?_⟩
      · exact ⟨(h.procs p' q' hq').since, (h.procs p' q' hq').sent, (h.procs p' q' hq').pc⟩
      · rcases List.mem_append.mp hi with hi | hi
        · obtain ⟨⟨h1, h2, h3⟩, h4⟩ := h.images i hi
          exact ⟨⟨h1, h2, h3⟩, h4⟩
        · obtain rfl := List.mem_singleton.mp hi
          exact ⟨⟨(h.procs p q hq).since, (h.procs p q hq).sent, (h.procs p q hq).pc⟩, ho q hq⟩
  | begin =>
    simp only [step] at hs
    split_ifs at hs
    obtain rfl := Option.some.inj hs
    exact h.begin
  | kill ps =>
    simp only [step] at hs
    split_ifs at hs
    obtain rfl := Option.some.inj hs
    refine h.same rfl rfl rfl rfl rfl (fun p q hq => ?_) rfl
    dsimp only at hq
    split_ifs at hq
    exact hq
  | wake p child =>
    simp only [step] at hs
    split at hs <;> try cases hs
    next q hq hchild hctl =>
      split at hs <;> try cases hs
      next hpc =>
        have hput := h.put (p := child) (h.produce (q := q) (by simp [hpc, Pc.Early]))
        exact hput.same rfl rfl rfl rfl rfl (fun _ _ hq => hq) rfl
  | load i child refill =>
    simp only [step] at hs
    split at hs <;> try cases hs
    next q held hi hchild =>
      by_cases hctl : s.ctl = .killed ∨ s.ctl = .forked
      swap
      · rw [if_neg hctl] at hs
        cases hs
      rw [if_pos hctl] at hs
      obtain rfl := Option.some.inj hs
      have himage := h.images _ (List.mem_of_getElem? hi)
      exact (h.put (p := child) (h.produce himage.2)).same rfl rfl rfl rfl rfl
        (fun _ _ hq => hq) rfl
  | bump persisted =>
    simp only [step] at hs
    split_ifs at hs
    all_goals
      obtain rfl := Option.some.inj hs
    · exact h.bump _ true
    · exact h.bump _ false
  | abort =>
    simp only [step] at hs
    split_ifs at hs
    obtain rfl := Option.some.inj hs
    exact h.same rfl rfl rfl rfl rfl hkeep rfl
  | done =>
    simp only [step] at hs
    split_ifs at hs
    obtain rfl := Option.some.inj hs
    exact h.same rfl rfl rfl rfl rfl hkeep rfl
  | fail =>
    simp only [step] at hs
    split_ifs at hs
    obtain rfl := Option.some.inj hs
    exact h.same rfl rfl rfl rfl rfl hkeep rfl

/-- **No command of an abandoned branch runs after a restore**, in every run that keeps the order:
if a process acts on a request, the restore that produced the process had begun when the request
was sent. -/
theorem abandoned_requests_refused (hint : Function.Injective J.int) {p₀ : ℕ} {as : List (Act V)}
    (horder : Along (step J cap) InOrder (start p₀) as)
    (h : exec (step J cap) (start p₀) as = some s) {o : Object V} (hq : s.procs p = some q)
    (hpc : q.pc = .running o) {r : Sent V} (hr : r ∈ s.sent) (hreq : r.request = o) :
    q.since ≤ r.begun := by
  have hinv : Inv J s := invariant_along (fun hi hc hs => inv_step hi hc hs) inv_start horder h
  have hok := hinv.procs p q hq
  by_contra hlt
  have htag := hok.sent r hr (by omega)
  have hrun := hok.pc
  rw [PcOk, hpc] at hrun
  rcases hrun with h0 | ⟨epoch, heq, hbase⟩
  · omega
  · rw [← hreq, (hinv.tag r hr).2.2] at heq
    have := hint heq
    omega

/-! ### Two runs -/

/-- The values of the example. -/
inductive Value where
  | null
  | int (n : ℕ)
  | str (t : String)
  deriving DecidableEq

/-- A command to run something. -/
def execPayload : Object Value := Dict.empty.set "ctrl" (.str "worker_exec")

/-- The command as it is sent. -/
def execRequest (epoch seq : ℕ) : Object Value :=
  (execPayload.set "ctrl_id" (.str (Host.probeId epoch seq))).set "_replay_epoch"
    (.int epoch)

/-- Its text. -/
def execText (epoch seq : ℕ) : Bytes :=
  Host.ascii ("\x7b\"ctrl\": \"worker_exec\", \"ctrl_id\": \"" ++ Host.probeId epoch seq ++
    "\", \"_replay_epoch\": " ++ toString epoch ++ "\x7d")

/-- The JSON library on the first command of epoch 0 and the second of epoch 1. -/
def execCodec : Codec Value where
  null := .null
  str := .str
  int := .int
  truthy v := v ≠ .null
  isTrue _ := false
  dumps o := if o.find? "_replay_epoch" = some (.int 0) then execText 0 1 else execText 1 2
  loads _ := .invalid
  loadsText l :=
    if l = execText 0 1 then .object (execRequest 0 1)
    else if l = execText 1 2 then .object (execRequest 1 2)
    else .invalid

theorem execCodec_int_injective : Function.Injective execCodec.int := by
  intro m n h
  simpa [execCodec] using h

/-- A checkpoint, a command that its sender gives up before anybody reads it, and a restore from the
template up to the fork. -/
def upToFork : List (Act Value) :=
  [.fork 1 2, .send execPayload, .write 200, .giveUp, .begin, .kill [2], .wake 1 3]

/-- A process goes through its loop up to the comparison. -/
def turnOf (p : ℕ) : List (Act Value) := [.read p, .take p, .look p true, .compare p]

/-- The process is at once at work. -/
def hasty : List (Act Value) := upToFork ++ turnOf 3

/-- The process waits for the new epoch, and then the sender sends another command. -/
def patient : List (Act Value) :=
  upToFork ++ [.bump true, .done] ++ turnOf 3 ++ [.send execPayload, .write 200] ++ turnOf 3

/-- What process 3 is acting on, the restore that produced it, and the last command that was sent. -/
structure Outcome where
  running : List (String × Value)
  since : ℕ
  request : List (String × Value)
  begun : ℕ
  deriving DecidableEq

/-- The outcome of a run that ends with process 3 acting on a request. -/
def outcome (as : List (Act Value)) : Option Outcome :=
  (exec (step execCodec 2) (start 1) as).bind fun s =>
    (s.procs 3).bind fun q => s.sent.head?.bind fun r =>
      match q.pc with
      | .running o => some ⟨o.entries, q.since, r.request.entries, r.begun⟩
      | _ => none

theorem outcome_eq_some {as : List (Act Value)} {o : Object Value} {n m : ℕ}
    (h : outcome as = some ⟨o.entries, n, o.entries, m⟩) :
    ∃ s q r, exec (step execCodec 2) (start 1) as = some s ∧ s.procs 3 = some q ∧
      q.pc = .running o ∧ q.since = n ∧ r ∈ s.sent ∧ r.request = o ∧ r.begun = m := by
  obtain ⟨s, hs, h⟩ := Option.bind_eq_some_iff.mp h
  obtain ⟨q, hq, h⟩ := Option.bind_eq_some_iff.mp h
  obtain ⟨r, hr, h⟩ := Option.bind_eq_some_iff.mp h
  split at h
  next o' hpc =>
    obtain ⟨hrun, hsince, hreq, hbegun⟩ := Outcome.mk.inj (Option.some.inj h)
    obtain rfl := Dict.ext hrun
    exact ⟨s, q, r, hs, hq, hpc, hsince, List.mem_of_mem_head? hr, Dict.ext hreq, hbegun⟩
  next => cases h

/-- After the new epoch is written, the old command is refused and a new one is run. -/
theorem abandoned_requests_refused_patient :
    ∃ s q r, exec (step execCodec 2) (start 1) patient = some s ∧ s.procs 3 = some q ∧
      q.pc = .running (execRequest 1 2) ∧ q.since = 1 ∧ r ∈ s.sent ∧
      r.request = execRequest 1 2 ∧ q.since ≤ r.begun := by
  have hout : outcome patient =
      some ⟨(execRequest 1 2).entries, 1, (execRequest 1 2).entries, 1⟩ := by
    decide +kernel
  obtain ⟨s, q, r, hs, hq, hpc, hsince, hr, hreq, -⟩ := outcome_eq_some hout
  exact ⟨s, q, r, hs, hq, hpc, hsince, hr, hreq,
    abandoned_requests_refused execCodec_int_injective (by decide +kernel) hs hq hpc hr hreq⟩

/-- **A command of an abandoned branch runs.** The forked process reads the epoch before the
controller raises it, and acts on a command that was sent, and given up, before the restore. -/
theorem abandoned_request_runs :
    ∃ s q o r, exec (step execCodec 2) (start 1) hasty = some s ∧ s.procs 3 = some q ∧
      q.pc = .running o ∧ r ∈ s.sent ∧ r.request = o ∧ r.begun < q.since := by
  have hout : outcome hasty =
      some ⟨(execRequest 0 1).entries, 1, (execRequest 0 1).entries, 0⟩ := by
    decide +kernel
  obtain ⟨s, q, r, hs, hq, hpc, hsince, hr, hreq, hbegun⟩ := outcome_eq_some hout
  refine ⟨s, q, _, r, hs, hq, hpc, hr, hreq, ?_⟩
  rw [hbegun, hsince]
  decide

end Replay

end DeltaBox
