import DeltaBox.Control.Fifo

/-!
# Who reads the command FIFO

A command carries no addressee. It reaches the right process only because nobody else is able to
read: every process but one is *parked*, which means dead, stopped, or on its way to stop itself
before it reads again. `Inv` says who may be unparked in each phase of a request. This module
defines it and shows how the controller keeps it.

## Main results

* `Initial.inv` — it holds when the agent has started
* `Inv.tame` — processes that start nothing and unpark nobody keep it
* `Inv.begin`, `Inv.openWrite`, `Inv.writeChunk`, `Inv.rephase`, `Inv.sigcont` — so do the parts of a
  request
* `Inv.finish` — and its end, when the command was read and a fork has its own reply
-/

namespace DeltaBox

namespace Control

open DeltaBox.Frame Machine

/-! ### Parked processes -/

/-- The process stops itself before it reads the FIFO again. -/
def Pc.Stops (cmds : List Request) : Pc → Prop
  | .loop => False
  | .handle k => ∃ r, cmds[k]? = some r ∧ r.op ≠ .stashTemplate
  | .reply k _ => ∃ r, cmds[k]? = some r ∧ r.op ≠ .stashTemplate
  | .stop => True

/-- Dead or stopped. -/
def Proc.Quiet (q : Proc) : Prop := q.alive = false ∨ q.stopped = true

/-- The process cannot read the FIFO until it gets SIGCONT. -/
def Proc.Parked (cmds : List Request) (q : Proc) : Prop :=
  q.Quiet ∨ (q.nsInit = false ∧ q.pc.Stops cmds)

theorem Proc.Parked.append {cmds : List Request} {q : Proc} (h : q.Parked cmds)
    (rs : List Request) : q.Parked (cmds ++ rs) := by
  have hget : ∀ {k : ℕ} {r : Request}, cmds[k]? = some r → (cmds ++ rs)[k]? = some r := by
    intro k r hk
    rw [List.getElem?_append_left (List.getElem?_eq_some_iff.mp hk).1, hk]
  rcases h with h | ⟨hi, hs⟩
  · exact Or.inl h
  · refine Or.inr ⟨hi, ?_⟩
    cases hpc : q.pc with
    | loop => rw [hpc] at hs; exact hs
    | handle k =>
      rw [hpc] at hs
      obtain ⟨r, hr, hop⟩ := hs
      exact ⟨r, hget hr, hop⟩
    | reply k c =>
      rw [hpc] at hs
      obtain ⟨r, hr, hop⟩ := hs
      exact ⟨r, hget hr, hop⟩
    | stop => trivial

/-- A process that can read the FIFO is not parked. -/
theorem Proc.not_parked_of_loop {cmds : List Request} {q : Proc} (ha : q.alive = true)
    (hs : q.stopped = false) (hpc : q.pc = .loop) : ¬q.Parked cmds := by
  rintro ((h | h) | ⟨-, h⟩)
  · rw [ha] at h; cases h
  · rw [hs] at h; cases h
  · rw [hpc] at h; exact h

/-- Who may be unparked. -/
def Allowed (s : State) (p : ℕ) : Prop :=
  match s.phase with
  | .idle => p = s.active
  | .quiesce _ => p = s.active
  | .drain r => p = r.source ∧ p = s.active
  | .write r _ _ => p = r.source ∧ p = s.active
  | .wake r k => (p = r.source ∧ p = s.active) ∨ (r.op = .fork ∧ (s.procs p).born = some k)
  | .wait r k => p = r.source ∨ (r.op = .fork ∧ (s.procs p).born = some k)
  | .finish r k _ => p = r.source ∨ (r.op = .fork ∧ (s.procs p).born = some k)

theorem allowed_iff_of_idle {s : State} {p : ℕ} (hph : s.phase = .idle) :
    Allowed s p ↔ p = s.active := by
  rw [Allowed, hph]

/-- What a reply to a fork says about it: the source is done with the command, and the reply names
the child if and only if there is one. -/
def ReplyOk (s : State) (m : Reply) : Prop :=
  s.Read m.origin ∧ ∀ r, s.cmds[m.origin]? = some r → r.op = .fork →
    (∀ p, (s.procs p).pc.cmd? ≠ some m.origin) ∧
    (m.ok = true → m.parentInit = (s.procs r.source).nsInit ∧
      ∃ c, m.child = some c ∧ (s.procs c).born = some m.origin) ∧
    (m.ok = false → ∀ c, (s.procs c).born ≠ some m.origin)

/-- What a settled run keeps. -/
structure Inv (s : State) : Prop where
  /-- Only allocated pids are alive. -/
  alive_lt : ∀ p, (s.procs p).alive = true → p < s.next
  /-- The active pid is allocated. -/
  active_lt : s.active < s.next
  /-- **Every command was read by its addressee.** -/
  ran : ∀ k p, (k, p) ∈ s.ran → ∃ r, s.cmds[k]? = some r ∧ r.source = p
  /-- By an allocated pid. -/
  ran_lt : ∀ k p, (k, p) ∈ s.ran → p < s.next
  /-- A process works on a command it has read. -/
  busy : ∀ p k, (s.procs p).pc.cmd? = some k → (k, p) ∈ s.ran
  /-- A process about to answer has created the child it will name. -/
  reply_born : ∀ p k c, (s.procs p).pc = .reply k c → (s.procs c).born = some k
  /-- Children have allocated pids. -/
  born_lt : ∀ p k, (s.procs p).born = some k → p < s.next
  /-- Children come from commands that were read. -/
  born_read : ∀ p k, (s.procs p).born = some k → s.Read k
  /-- Once the child exists, the handler has moved on. -/
  born_busy : ∀ p q k, (s.procs p).born = some k → (s.procs q).pc ≠ .handle k
  /-- A command has at most one child. -/
  born_inj : ∀ p q k, (s.procs p).born = some k → (s.procs q).born = some k → p = q
  /-- No buffer holds a complete line. -/
  buf : ∀ p, NoLine (s.procs p).buf
  /-- Nor does a dumped one. -/
  images : ∀ b ∈ s.images, NoLine b
  /-- Without a command under way the FIFO holds no complete line. -/
  fifo_idle : s.phase.sent? = none → NoLine s.fifo
  /-- Else it holds the unread tail of that command. -/
  fifo_sent : ∀ r k n, s.phase.sent? = some (r, k, n) → s.fifo <:+ (frame k r.len).take n
  /-- Which is empty once the command was read. -/
  fifo_read : ∀ r k n, s.phase.sent? = some (r, k, n) → s.Read k → s.fifo = []
  /-- The command under way is the one that was logged. -/
  sent : ∀ r k n, s.phase.sent? = some (r, k, n) → s.cmds[k]? = some r
  /-- A command that is not completely written is not read. -/
  writing : ∀ r k n, s.phase = .write r k n → ¬s.Read k
  /-- And is not completely written. -/
  writing_lt : ∀ r k n, s.phase = .write r k n → n < r.len
  /-- **At most the allowed processes are unparked.** -/
  readers : ∀ p, ¬(s.procs p).Parked s.cmds → Allowed s p
  /-- A command line is not empty. -/
  len_pos : ∀ r, s.phase.request? = some r → 0 < r.len
  /-- While another process is addressed, the active one is quiet. -/
  away : ∀ r, s.phase.request? = some r → r.source ≠ s.active →
    (s.procs s.active).Quiet ∧ r.op ≠ .stashTemplate ∧ r.op ≠ .checkpointPause
  /-- While the active process is addressed, or anything is forked, it is not held. -/
  unheld : ∀ r, s.phase.request? = some r → r.source = s.active ∨ r.op = .fork → s.held = false
  /-- A held process is quiet. -/
  held : s.held = true → (s.procs s.active).Quiet
  /-- Only the active process is quiesced. -/
  quiesce : ∀ p, s.phase = .quiesce p → p = s.active ∧ s.held = false
  /-- A template that has read the command is parked, and so is a source that has forked. -/
  done : ∀ r k n, s.phase.sent? = some (r, k, n) → s.Read k →
    (r.source ≠ s.active ∨ r.op = .fork ∧ ∃ c, (s.procs c).born = some k) →
      (s.procs r.source).nsInit = false → (s.procs r.source).Parked s.cmds
  /-- Having read the command, the source works on nothing else. -/
  busy_sent : ∀ r k n, s.phase.sent? = some (r, k, n) → s.Read k →
    ∀ j, (s.procs r.source).pc.cmd? = some j → j = k
  /-- A fork is handled while its request is under way. -/
  fork_busy : ∀ p k r, (s.procs p).pc.cmd? = some k → s.cmds[k]? = some r → r.op = .fork →
    ∃ r' n, s.phase.sent? = some (r', k, n)
  /-- Replies tell the truth. -/
  replies : ∀ m, m ∈ s.out ∨ (∃ r k, s.phase = .finish r k (some m)) → ReplyOk s m
  /-- Only the active process refuses to fork. -/
  refused : ∀ m, m ∈ s.out ∨ (∃ r k, s.phase = .finish r k (some m)) → m.ok = false →
    ∀ r n, s.phase.sent? = some (r, m.origin, n) → r.op = .fork → r.source = s.active

theorem Initial.inv {s : State} (h : Initial s) : Inv s := by
  obtain ⟨nsInit, hprocs⟩ := h.procs
  have hproc : ∀ p, (s.procs p).pc = .loop ∧ (s.procs p).born = none ∧ (s.procs p).buf = [] := by
    intro p
    rw [hprocs, Function.update_apply]
    split_ifs <;> exact ⟨rfl, rfl, rfl⟩
  have hbusy : ∀ {p k}, (s.procs p).pc.cmd? ≠ some k := by
    intro p k
    rw [(hproc p).1]
    exact fun hk => by cases hk
  have hborn : ∀ {p k}, (s.procs p).born ≠ some k := by
    intro p k
    rw [(hproc p).2.1]
    exact fun hk => by cases hk
  have hother : ∀ p, p ≠ s.active → (s.procs p).alive = false := by
    intro p hp
    rw [hprocs, Function.update_of_ne hp]
    rfl
  have hsent : s.phase.sent? = none := by rw [h.phase]; rfl
  have hreq : s.phase.request? = none := by rw [h.phase]; rfl
  exact
    { alive_lt := by
        intro p ha
        by_contra hp
        rw [hother p fun heq => hp (heq ▸ h.active_lt)] at ha
        cases ha
      active_lt := h.active_lt
      ran := fun k p hk => by rw [h.ran] at hk; cases hk
      ran_lt := fun k p hk => by rw [h.ran] at hk; cases hk
      busy := fun p k hk => absurd hk hbusy
      reply_born := fun p k c hk => by rw [(hproc p).1] at hk; cases hk
      born_lt := fun p k hk => absurd hk hborn
      born_read := fun p k hk => absurd hk hborn
      born_busy := fun p q k hk => absurd hk hborn
      born_inj := fun p q k hk => absurd hk hborn
      buf := fun p => by rw [(hproc p).2.2]; exact noLine_nil
      images := fun b hb => by rw [h.images] at hb; cases hb
      fifo_idle := fun _ => by rw [h.fifo]; exact noLine_nil
      fifo_sent := fun r k n hs => by rw [hsent] at hs; cases hs
      fifo_read := fun r k n hs => by rw [hsent] at hs; cases hs
      sent := fun r k n hs => by rw [hsent] at hs; cases hs
      writing := fun r k n hs => by rw [h.phase] at hs; cases hs
      writing_lt := fun r k n hs => by rw [h.phase] at hs; cases hs
      readers := by
        intro p hp
        rw [Allowed, h.phase]
        by_contra hne
        exact hp (Or.inl (Or.inl (hother p hne)))
      len_pos := fun r hr => by rw [hreq] at hr; cases hr
      away := fun r hr => by rw [hreq] at hr; cases hr
      unheld := fun r hr => by rw [hreq] at hr; cases hr
      held := fun hh => by rw [h.held] at hh; cases hh
      quiesce := fun p hp => by rw [h.phase] at hp; cases hp
      done := fun r k n hs => by rw [hsent] at hs; cases hs
      busy_sent := fun r k n hs => by rw [hsent] at hs; cases hs
      fork_busy := fun p k r hk => absurd hk hbusy
      replies := by
        rintro m (hm | ⟨r, k, hm⟩)
        · rw [h.out] at hm
          cases hm
        · rw [h.phase] at hm
          cases hm
      refused := fun m _ _ r n hs => by rw [hsent] at hs; cases hs }

/-! ### Steps that park -/

section

variable {s s' : State}

/-- A process may become quieter and may finish what it works on, but it starts nothing. -/
structure Tame (q q' : Proc) : Prop where
  alive : q'.alive = true → q.alive = true
  nsInit : q'.nsInit = q.nsInit
  born : q'.born = q.born
  buf : NoLine q.buf → NoLine q'.buf
  busy : q'.pc = q.pc ∨ q'.pc.cmd? = none
  quiet : q.Quiet → q'.Quiet

theorem Tame.refl (q : Proc) : Tame q q := ⟨id, rfl, rfl, id, Or.inl rfl, id⟩

theorem Tame.cmd? {q q' : Proc} (h : Tame q q') {k : ℕ}
    (hk : q'.pc.cmd? = some k) : q'.pc = q.pc := by
  rcases h.busy with hpc | hpc
  · exact hpc
  · rw [hpc] at hk
    cases hk

theorem ReplyOk.tame {m : Reply} (h : ReplyOk s m)
    (hprocs : ∀ x, Tame (s.procs x) (s'.procs x)) (hcmds : s'.cmds = s.cmds)
    (hran : s'.ran = s.ran) : ReplyOk s' m := by
  refine ⟨by rw [State.Read, hran]; exact h.1, fun r hr hop => ?_⟩
  rw [hcmds] at hr
  obtain ⟨hbusy, hok, hfail⟩ := h.2 r hr hop
  refine ⟨fun p hp => ?_, fun hm => ?_, fun hm c => ?_⟩
  · rw [(hprocs p).cmd? hp] at hp
    exact hbusy p hp
  · obtain ⟨hinit, c, hc, hborn⟩ := hok hm
    exact ⟨by rw [hinit, (hprocs r.source).nsInit], c, hc, by rw [(hprocs c).born]; exact hborn⟩
  · rw [(hprocs c).born]
    exact hfail hm c

/-- Processes that start nothing and unpark nobody keep the invariant, and so do replies that tell
the truth. -/
theorem Inv.tame (h : Inv s) (hprocs : ∀ x, Tame (s.procs x) (s'.procs x))
    (hreaders : ∀ x, ¬(s'.procs x).Parked s.cmds → Allowed s x)
    (hdone : ∀ r k n, s.phase.sent? = some (r, k, n) → s.Read k →
      (r.source ≠ s.active ∨ r.op = .fork ∧ ∃ c, (s.procs c).born = some k) →
        (s.procs r.source).Parked s.cmds → (s'.procs r.source).Parked s.cmds)
    (hcmds : s'.cmds = s.cmds) (hran : s'.ran = s.ran) (hnext : s'.next = s.next)
    (hactive : s'.active = s.active) (himages : s'.images = s.images) (hfifo : s'.fifo = s.fifo)
    (hphase : s'.phase = s.phase) (hheld : s'.held = s.held)
    (hout : ∀ m ∈ s'.out, m ∈ s.out ∨ ReplyOk s' m ∧ (m.ok = false →
      ∀ r n, s.phase.sent? = some (r, m.origin, n) → r.op = .fork → r.source = s.active)) :
    Inv s' := by
  have hread : ∀ {k}, s'.Read k ↔ s.Read k := by
    intro k
    rw [State.Read, State.Read, hran]
  exact
    { alive_lt := fun p hp => by rw [hnext]; exact h.alive_lt p ((hprocs p).alive hp)
      active_lt := by rw [hactive, hnext]; exact h.active_lt
      ran := fun k p hk => by rw [hcmds]; exact h.ran k p (hran ▸ hk)
      ran_lt := fun k p hk => by rw [hnext]; exact h.ran_lt k p (hran ▸ hk)
      busy := fun p k hk => by
        rw [hran]
        exact h.busy p k (by rwa [(hprocs p).cmd? hk] at hk)
      reply_born := fun p k c hk => by
        rw [(hprocs c).born]
        exact h.reply_born p k c (((hprocs p).cmd? (k := k) (by rw [hk]; rfl)).symm.trans hk)
      born_lt := fun p k hk => by rw [hnext]; exact h.born_lt p k ((hprocs p).born ▸ hk)
      born_read := fun p k hk => hread.mpr (h.born_read p k ((hprocs p).born ▸ hk))
      born_busy := fun p q k hk hq => h.born_busy p q k ((hprocs p).born ▸ hk)
        (((hprocs q).cmd? (k := k) (by rw [hq]; rfl)).symm.trans hq)
      born_inj := fun p q k hp hq =>
        h.born_inj p q k ((hprocs p).born ▸ hp) ((hprocs q).born ▸ hq)
      buf := fun p => (hprocs p).buf (h.buf p)
      images := by rw [himages]; exact h.images
      fifo_idle := by rw [hphase, hfifo]; exact h.fifo_idle
      fifo_sent := by rw [hphase, hfifo]; exact h.fifo_sent
      fifo_read := fun r k n hs hk => by
        rw [hfifo]
        exact h.fifo_read r k n (hphase ▸ hs) (hread.mp hk)
      sent := by rw [hphase, hcmds]; exact h.sent
      writing := fun r k n hs hk => h.writing r k n (hphase ▸ hs) (hread.mp hk)
      writing_lt := by rw [hphase]; exact h.writing_lt
      readers := fun p hp => by
        have hold := hreaders p (hcmds ▸ hp)
        rw [Allowed, hphase, hactive, (hprocs p).born]
        exact hold
      len_pos := by rw [hphase]; exact h.len_pos
      away := fun r hr hne => by
        rw [hactive] at hne ⊢
        obtain ⟨hq, hop⟩ := h.away r (hphase ▸ hr) hne
        exact ⟨(hprocs _).quiet hq, hop⟩
      unheld := fun r hr hor => by
        rw [hheld]
        exact h.unheld r (hphase ▸ hr) (hactive ▸ hor)
      held := fun hh => by
        rw [hactive]
        exact (hprocs _).quiet (h.held (hheld ▸ hh))
      quiesce := fun p hp => by
        rw [hactive, hheld]
        exact h.quiesce p (hphase ▸ hp)
      done := fun r k n hs hk hor hinit => by
        have hor' : r.source ≠ s.active ∨ r.op = .fork ∧ ∃ c, (s.procs c).born = some k := by
          rcases hor with hne | ⟨hop, c, hc⟩
          · exact Or.inl (hactive ▸ hne)
          · exact Or.inr ⟨hop, c, (hprocs c).born ▸ hc⟩
        rw [hcmds]
        exact hdone r k n (hphase ▸ hs) (hread.mp hk) hor'
          (h.done r k n (hphase ▸ hs) (hread.mp hk) hor' ((hprocs _).nsInit ▸ hinit))
      busy_sent := fun r k n hs hk j hj =>
        h.busy_sent r k n (hphase ▸ hs) (hread.mp hk) j (by rwa [(hprocs _).cmd? hj] at hj)
      fork_busy := fun p k r hk hr hop => by
        rw [hphase]
        exact h.fork_busy p k r (by rwa [(hprocs p).cmd? hk] at hk) (hcmds ▸ hr) hop
      replies := by
        rintro m (hm | ⟨r, k, hm⟩)
        · rcases hout m hm with hm | hm
          · exact (h.replies m (Or.inl hm)).tame hprocs hcmds hran
          · exact hm.1
        · exact (h.replies m (Or.inr ⟨r, k, hphase ▸ hm⟩)).tame hprocs hcmds hran
      refused := by
        rw [hphase, hactive]
        rintro m (hm | ⟨r, k, hm⟩) hok
        · rcases hout m hm with hm | hm
          · exact h.refused m (Or.inl hm) hok
          · exact hm.2 hok
        · exact h.refused m (Or.inr ⟨r, k, hm⟩) hok }

/-- The same for one process. -/
theorem tame_setProc {p : ℕ} {q : Proc} (hq : Tame (s.procs p) q) (x : ℕ) :
    Tame (s.procs x) ((s.setProc p q).procs x) := by
  rcases eq_or_ne x p with rfl | hne
  · rw [State.setProc_self]
    exact hq
  · rw [State.setProc_of_ne _ _ hne]
    exact Tame.refl _

/-- A process that was parked stays parked. -/
theorem Inv.setProc_out (h : Inv s) {p : ℕ} {q : Proc} (out : List Reply)
    (hq : Tame (s.procs p) q) (hpark : (s.procs p).Parked s.cmds → q.Parked s.cmds)
    (hout : ∀ m ∈ out, m ∈ s.out ∨ ReplyOk { s.setProc p q with out := out } m ∧ (m.ok = false →
      ∀ r n, s.phase.sent? = some (r, m.origin, n) → r.op = .fork → r.source = s.active)) :
    Inv { s.setProc p q with out := out } := by
  have hparked : ∀ x, (s.procs x).Parked s.cmds → ((s.setProc p q).procs x).Parked s.cmds := by
    intro x hx
    rcases eq_or_ne x p with rfl | hne
    · rw [State.setProc_self]
      exact hpark hx
    · rwa [State.setProc_of_ne _ _ hne]
  exact h.tame (tame_setProc hq) (fun x hx => h.readers x fun hold => hx (hparked x hold))
    (fun r k n _ _ _ => hparked r.source) rfl rfl rfl rfl rfl rfl rfl rfl hout

theorem Inv.setProc (h : Inv s) {p : ℕ} {q : Proc} (hq : Tame (s.procs p) q)
    (hpark : (s.procs p).Parked s.cmds → q.Parked s.cmds) : Inv (s.setProc p q) :=
  h.setProc_out s.out hq hpark fun _ hm => Or.inl hm

theorem Inv.sigstop (h : Inv s) (p : ℕ) : Inv (s.sigstop p) :=
  h.setProc ⟨id, rfl, rfl, id, Or.inl rfl, fun _ => Or.inr rfl⟩ fun _ => Or.inl (Or.inr rfl)

theorem Inv.die (h : Inv s) (p : ℕ) : Inv (s.setProc p { s.procs p with alive := false }) :=
  h.setProc ⟨(by cases ·), rfl, rfl, id, Or.inl rfl, fun _ => Or.inl rfl⟩
    fun _ => Or.inl (Or.inl rfl)

/-! ### Steps of the controller -/

theorem Inv.read_lt (h : Inv s) {k : ℕ} (hk : s.Read k) : k < s.cmds.length := by
  obtain ⟨p, hp⟩ := State.read_iff.mp hk
  obtain ⟨r, hr, -⟩ := h.ran k p hp
  exact (List.getElem?_eq_some_iff.mp hr).1

theorem Inv.noLine_of_read (h : Inv s) {r : Request} {k n : ℕ}
    (hsent : s.phase.sent? = some (r, k, n)) (hk : s.Read k) : NoLine s.fifo := by
  rw [h.fifo_read r k n hsent hk]
  exact noLine_nil

/-- The end of a request, possibly with a new active process. -/
theorem Inv.toIdle (h : Inv s) {ph : Phase} {c : ℕ} {templates : Dict String ℕ}
    {results : List Result} (hph : ph = .idle ∨ ph = .quiesce c ∧ s.held = false)
    (hfifo : NoLine s.fifo) (hc : c < s.next) (hheld : s.held = true → (s.procs c).Quiet)
    (hreaders : ∀ p, ¬(s.procs p).Parked s.cmds → p = c)
    (hfork : ∀ p k r, (s.procs p).pc.cmd? = some k → s.cmds[k]? = some r → r.op ≠ .fork) :
    Inv { s with phase := ph, active := c, templates := templates, results := results } := by
  have hsent : ph.sent? = none := by rcases hph with rfl | ⟨rfl, -⟩ <;> rfl
  have hreq : ph.request? = none := by rcases hph with rfl | ⟨rfl, -⟩ <;> rfl
  exact
    { h with
      active_lt := hc
      fifo_idle := fun _ => hfifo
      fifo_sent := fun r k n hs => by cases hsent.symm.trans hs
      fifo_read := fun r k n hs => by cases hsent.symm.trans hs
      sent := fun r k n hs => by cases hsent.symm.trans hs
      writing := fun r k n hs => by rcases hph with rfl | ⟨rfl, -⟩ <;> cases hs
      writing_lt := fun r k n hs => by rcases hph with rfl | ⟨rfl, -⟩ <;> cases hs
      readers := fun p hp => by
        rcases hph with rfl | ⟨rfl, -⟩
        · exact hreaders p hp
        · exact hreaders p hp
      len_pos := fun r hr => by cases hreq.symm.trans hr
      away := fun r hr => by cases hreq.symm.trans hr
      unheld := fun r hr => by cases hreq.symm.trans hr
      held := hheld
      quiesce := fun p hp => by
        rcases hph with rfl | ⟨rfl, hh⟩
        · cases hp
        · exact ⟨(Phase.quiesce.inj hp).symm, hh⟩
      done := fun r k n hs => by cases hsent.symm.trans hs
      busy_sent := fun r k n hs => by cases hsent.symm.trans hs
      fork_busy := fun p k r hk hr hop => absurd hop (hfork p k r hk hr)
      replies := by
        rintro m (hm | ⟨r, k, hm⟩)
        · exact h.replies m (Or.inl hm)
        · rcases hph with rfl | ⟨rfl, -⟩ <;> cases hm
      refused := fun m _ _ r n hs => by cases hsent.symm.trans hs }

theorem Admissible.quiet {source : ℕ} {op : Op} (h : Inv s) (ha : Admissible s source op)
    (hne : source ≠ s.active) :
    (s.procs s.active).Quiet ∧ op ≠ .stashTemplate ∧ op ≠ .checkpointPause := by
  cases op with
  | fork =>
    obtain ⟨-, hsrc | hdead⟩ := ha
    · exact absurd hsrc hne
    · exact ⟨Or.inl hdead, by decide, by decide⟩
  | stashTemplate => exact absurd ha.1 hne
  | checkpointPause => exact absurd ha.1 hne
  | reapChildren =>
    refine ⟨?_, by decide, by decide⟩
    rcases ha.2 with hheld | hdead
    · exact h.held hheld
    · exact Or.inl hdead
  | reapPid =>
    refine ⟨?_, by decide, by decide⟩
    rcases ha.2 with hheld | hdead
    · exact h.held hheld
    · exact Or.inl hdead

theorem Admissible.unheld {source : ℕ} {op : Op} (ha : Admissible s source op)
    (hor : source = s.active ∨ op = .fork) : s.held = false := by
  cases op with
  | fork => exact ha.1
  | stashTemplate => exact ha.2
  | checkpointPause => exact ha.2
  | reapChildren =>
    rcases hor with hsrc | hop
    · exact absurd hsrc ha.1
    · cases hop
  | reapPid =>
    rcases hor with hsrc | hop
    · exact absurd hsrc ha.1
    · cases hop

theorem Inv.begin (h : Inv s) {r : Request} (hph : s.phase = .idle)
    (ha : Admissible s r.source r.op) (hlen : 0 < r.len) : Inv { s with out := [], phase := .drain r } := by
  have hsent : s.phase.sent? = none := by rw [hph]; rfl
  have hreaders : ∀ p, ¬(s.procs p).Parked s.cmds → p = s.active := fun p hp =>
    (allowed_iff_of_idle hph).mp (h.readers p hp)
  exact
    { h with
      fifo_idle := fun _ => h.fifo_idle hsent
      fifo_sent := fun _ _ _ hs => by cases hs
      fifo_read := fun _ _ _ hs => by cases hs
      sent := fun _ _ _ hs => by cases hs
      writing := fun _ _ _ hs => by cases hs
      writing_lt := fun _ _ _ hs => by cases hs
      readers := fun p hp => by
        have hp' : p = s.active := hreaders p hp
        refine ⟨?_, hp'⟩
        by_contra hne
        exact hp (Or.inl (hp' ▸ (ha.quiet h fun heq => hne (hp'.trans heq.symm)).1))
      len_pos := fun r' hr => by
        obtain rfl := Option.some.inj hr
        exact hlen
      away := fun r' hr hne => by
        obtain rfl := Option.some.inj hr
        exact Admissible.quiet (s := s) h ha hne
      unheld := fun r' hr hor => by
        obtain rfl := Option.some.inj hr
        exact ha.unheld hor
      quiesce := fun p hp => by cases hp
      done := fun _ _ _ hs => by cases hs
      busy_sent := fun _ _ _ hs => by cases hs
      fork_busy := fun p k r' hk hr hop => by
        obtain ⟨r'', n, hs⟩ := h.fork_busy p k r' hk hr hop
        cases hsent.symm.trans hs
      replies := by
        rintro m (hm | ⟨r', k, hm⟩)
        · cases hm
        · cases hm
      refused := fun m _ _ r' n hs => by cases hs }

theorem Inv.openWrite (h : Inv s) {r : Request} (hph : s.phase = .drain r) (hfifo : s.fifo = []) :
    Inv { s with cmds := s.cmds ++ [r], phase := .write r s.cmds.length 0 } := by
  have hget : ∀ {j : ℕ} {x : Request}, s.cmds[j]? = some x →
      (s.cmds ++ [r])[j]? = some x := by
    intro j x hj
    rw [List.getElem?_append_left (List.getElem?_eq_some_iff.mp hj).1, hj]
  have hget' : ∀ {j : ℕ} {x : Request}, s.Read j → (s.cmds ++ [r])[j]? = some x →
      s.cmds[j]? = some x := by
    intro j x hj hx
    rwa [List.getElem?_append_left (h.read_lt hj)] at hx
  have hunread : ¬s.Read s.cmds.length := fun hk => Nat.lt_irrefl _ (h.read_lt hk)
  have hsent : s.phase.sent? = none := by rw [hph]; rfl
  have hreq : s.phase.request? = some r := by rw [hph]; rfl
  exact
    { h with
      ran := fun k p hk => by
        obtain ⟨x, hx, hsrc⟩ := h.ran k p hk
        exact ⟨x, hget hx, hsrc⟩
      fifo_idle := fun hs => by cases hs
      fifo_sent := fun r' k n _ => by rw [hfifo]; exact List.nil_suffix
      fifo_read := fun r' k n _ _ => hfifo
      sent := fun r' k n hs => by
        obtain ⟨rfl, rfl, rfl⟩ : r = r' ∧ s.cmds.length = k ∧ 0 = n := by
          simpa [Phase.sent?] using hs
        exact List.getElem?_concat_length
      writing := fun r' k n hs hk => by
        obtain ⟨-, rfl, -⟩ := Phase.write.inj hs
        exact hunread hk
      writing_lt := fun r' k n hs => by
        obtain ⟨rfl, -, rfl⟩ := Phase.write.inj hs
        exact h.len_pos r hreq
      readers := fun p hp => by
        have hold := h.readers p fun hpark => hp (hpark.append [r])
        rw [Allowed, hph] at hold
        exact hold
      len_pos := fun r' hr => h.len_pos r' (hreq.trans hr)
      away := fun r' hr => h.away r' (hreq.trans hr)
      unheld := fun r' hr => h.unheld r' (hreq.trans hr)
      quiesce := fun p hp => by cases hp
      done := fun r' k n hs hk => by
        obtain ⟨-, rfl, -⟩ : r = r' ∧ s.cmds.length = k ∧ 0 = n := by simpa [Phase.sent?] using hs
        exact absurd hk hunread
      busy_sent := fun r' k n hs hk => by
        obtain ⟨-, rfl, -⟩ : r = r' ∧ s.cmds.length = k ∧ 0 = n := by simpa [Phase.sent?] using hs
        exact absurd hk hunread
      fork_busy := fun p k x hk hx hop => by
        have hread : s.Read k := State.read_iff.mpr ⟨p, h.busy p k hk⟩
        obtain ⟨r'', n, hs⟩ := h.fork_busy p k x hk (hget' hread hx) hop
        cases hsent.symm.trans hs
      replies := by
        rintro m (hm | ⟨r', k, hm⟩)
        · have hok := h.replies m (Or.inl hm)
          exact ⟨hok.1, fun x hx => hok.2 x (hget' hok.1 hx)⟩
        · cases hm
      refused := by
        rintro m (hm | ⟨r', k, hm⟩) - r' n hs
        · have hlt := h.read_lt (h.replies m (Or.inl hm)).1
          obtain ⟨-, heq, -⟩ : r = r' ∧ s.cmds.length = m.origin ∧ 0 = n := by
            simpa [Phase.sent?] using hs
          omega
        · cases hm }

/-- The phases in which a request waits for its line differ only in the line. -/
theorem Inv.rephase (h : Inv s) {r : Request} {k : ℕ} (ph : Phase) (out : List Reply)
    (hold : s.phase = .wait r k) (hnew : ph = .wait r k ∨ ∃ o, ph = .finish r k o ∧
      ∀ m, o = some m → m ∈ s.out) (hout : ∀ m ∈ out, m ∈ s.out) :
    Inv { s with out := out, phase := ph } := by
  have hsent : ph.sent? = s.phase.sent? := by rw [hold]; rcases hnew with rfl | ⟨o, rfl, -⟩ <;> rfl
  have hreq : ph.request? = s.phase.request? := by
    rw [hold]
    rcases hnew with rfl | ⟨o, rfl, -⟩ <;> rfl
  exact
    { h with
      fifo_idle := fun hs => h.fifo_idle (hsent ▸ hs)
      fifo_sent := fun r' k' n hs => h.fifo_sent r' k' n (hsent ▸ hs)
      fifo_read := fun r' k' n hs => h.fifo_read r' k' n (hsent ▸ hs)
      sent := fun r' k' n hs => h.sent r' k' n (hsent ▸ hs)
      writing := fun r' k' n hs => by rcases hnew with rfl | ⟨o, rfl, -⟩ <;> cases hs
      writing_lt := fun r' k' n hs => by rcases hnew with rfl | ⟨o, rfl, -⟩ <;> cases hs
      readers := fun p hp => by
        have hall := h.readers p hp
        rw [Allowed, hold] at hall
        rcases hnew with rfl | ⟨o, rfl, -⟩ <;> exact hall
      len_pos := fun r' hr => h.len_pos r' (hreq ▸ hr)
      away := fun r' hr => h.away r' (hreq ▸ hr)
      unheld := fun r' hr => h.unheld r' (hreq ▸ hr)
      quiesce := fun p hp => by rcases hnew with rfl | ⟨o, rfl, -⟩ <;> cases hp
      done := fun r' k' n hs => h.done r' k' n (hsent ▸ hs)
      busy_sent := fun r' k' n hs => h.busy_sent r' k' n (hsent ▸ hs)
      fork_busy := fun p k' r' hk hr hop => by
        obtain ⟨r'', n, hs⟩ := h.fork_busy p k' r' hk hr hop
        exact ⟨r'', n, hsent.trans hs⟩
      replies := by
        rintro m (hm | ⟨r', k', hm⟩)
        · exact h.replies m (Or.inl (hout m hm))
        · rcases hnew with rfl | ⟨o, rfl, ho⟩
          · cases hm
          · obtain ⟨-, -, hm⟩ := Phase.finish.inj hm
            exact h.replies m (Or.inl (ho m hm))
      refused := by
        rw [hsent]
        rintro m (hm | ⟨r', k', hm⟩) hok
        · exact h.refused m (Or.inl (hout m hm)) hok
        · rcases hnew with rfl | ⟨o, rfl, ho⟩
          · cases hm
          · obtain ⟨-, -, hm⟩ := Phase.finish.inj hm
            exact h.refused m (Or.inl (ho m hm)) hok }

theorem Inv.writeChunk (h : Inv s) {r : Request} {k m n : ℕ} (hph : s.phase = .write r k m)
    (hle : m + n ≤ r.len) :
    Inv { s with
      fifo := s.fifo ++ ((frame k r.len).drop m).take n
      phase :=
        if m + n = r.len then if r.op.wakes then .wake r k else .wait r k
        else .write r k (m + n) } := by
  set ph : Phase := if m + n = r.len then if r.op.wakes then .wake r k else .wait r k
    else .write r k (m + n) with hdef
  have hcases : (ph = .wake r k ∧ m + n = r.len) ∨ (ph = .wait r k ∧ m + n = r.len) ∨
      (ph = .write r k (m + n) ∧ m + n < r.len) := by
    rw [hdef]
    split_ifs with hlen hw
    · exact Or.inl ⟨rfl, hlen⟩
    · exact Or.inr (Or.inl ⟨rfl, hlen⟩)
    · exact Or.inr (Or.inr ⟨rfl, by omega⟩)
  have hsent : ph.sent? = some (r, k, m + n) := by
    rcases hcases with ⟨hph', hlen⟩ | ⟨hph', hlen⟩ | ⟨hph', -⟩
    · rw [hph', hlen]; rfl
    · rw [hph', hlen]; rfl
    · rw [hph']; rfl
  have hreq : ph.request? = s.phase.request? := by
    rw [Phase.request?_of_sent? hsent, hph]
    rfl
  have hold : s.phase.sent? = some (r, k, m) := by rw [hph]; rfl
  have hunread : ¬s.Read k := h.writing r k m hph
  have heq : ∀ {r' k' n'}, ph.sent? = some (r', k', n') → r = r' ∧ k = k' ∧ m + n = n' := by
    intro r' k' n' hs
    simpa using hsent.symm.trans hs
  exact
    { h with
      fifo_idle := fun hs => by cases hsent.symm.trans hs
      fifo_sent := fun r' k' n' hs => by
        obtain ⟨rfl, rfl, rfl⟩ := heq hs
        obtain ⟨pre, hpre⟩ := h.fifo_sent r k m hold
        exact ⟨pre, by rw [← List.append_assoc, hpre, List.take_add]⟩
      fifo_read := fun r' k' n' hs hk => by
        obtain ⟨-, rfl, -⟩ := heq hs
        exact absurd hk hunread
      sent := fun r' k' n' hs => by
        obtain ⟨rfl, rfl, -⟩ := heq hs
        exact h.sent r k m hold
      writing := fun r' k' n' hs hk => by
        have hs' : ph.sent? = some (r', k', n') := by
          rw [show ph = .write r' k' n' from hs]
          rfl
        obtain ⟨-, rfl, -⟩ := heq hs'
        exact hunread hk
      writing_lt := fun r' k' n' hs => by
        rcases hcases with ⟨hph', -⟩ | ⟨hph', -⟩ | ⟨hph', hlt⟩
        · cases hph'.symm.trans hs
        · cases hph'.symm.trans hs
        · obtain ⟨rfl, -, rfl⟩ := Phase.write.inj (hph'.symm.trans hs)
          exact hlt
      readers := fun p hp => by
        have hall := h.readers p hp
        rw [Allowed, hph] at hall
        rcases hcases with ⟨hph', -⟩ | ⟨hph', -⟩ | ⟨hph', -⟩
        · rw [Allowed, show ({ s with fifo := _, phase := ph } : State).phase = _ from hph']
          exact Or.inl hall
        · rw [Allowed, show ({ s with fifo := _, phase := ph } : State).phase = _ from hph']
          exact Or.inl hall.1
        · rw [Allowed, show ({ s with fifo := _, phase := ph } : State).phase = _ from hph']
          exact hall
      len_pos := fun r' hr => h.len_pos r' (hreq ▸ hr)
      away := fun r' hr => h.away r' (hreq ▸ hr)
      unheld := fun r' hr => h.unheld r' (hreq ▸ hr)
      quiesce := fun p hp => by
        rcases hcases with ⟨hph', -⟩ | ⟨hph', -⟩ | ⟨hph', -⟩ <;> cases hph'.symm.trans hp
      done := fun r' k' n' hs hk => by
        obtain ⟨-, rfl, -⟩ := heq hs
        exact absurd hk hunread
      busy_sent := fun r' k' n' hs hk => by
        obtain ⟨-, rfl, -⟩ := heq hs
        exact absurd hk hunread
      fork_busy := fun p j x hj hx hop => by
        have hread : s.Read j := State.read_iff.mpr ⟨p, h.busy p j hj⟩
        obtain ⟨r'', n'', hs⟩ := h.fork_busy p j x hj hx hop
        obtain ⟨rfl, rfl, rfl⟩ : r = r'' ∧ k = j ∧ m = n'' := by simpa using hold.symm.trans hs
        exact absurd hread hunread
      replies := by
        rintro x (hx | ⟨r', k', hx⟩)
        · exact h.replies x (Or.inl hx)
        · rcases hcases with ⟨hph', -⟩ | ⟨hph', -⟩ | ⟨hph', -⟩ <;> cases hph'.symm.trans hx
      refused := by
        rintro x (hx | ⟨r', k', hx⟩) - r' n' hs
        · obtain ⟨-, hk, -⟩ := heq hs
          exact absurd (hk ▸ (h.replies x (Or.inl hx)).1) hunread
        · rcases hcases with ⟨hph', -⟩ | ⟨hph', -⟩ | ⟨hph', -⟩ <;> cases hph'.symm.trans hx }

/-- SIGCONT to a process that may run in the next phase. -/
theorem Inv.sigcont (h : Inv s) {p : ℕ} (ph : Phase) (held : Bool)
    (hsent : ph.sent? = s.phase.sent?) (hreq : ph.request? = s.phase.request?)
    (hph : (ph = .idle ∧ p = s.active) ∨ ∃ r k, s.phase = .wake r k ∧ ph = .wait r k ∧ p = r.source)
    (hidle : ph = .idle → ∀ x, Allowed s x → x = s.active)
    (hheld : held = true → s.held = true ∧ p ≠ s.active)
    (hdone : ∀ r k n, s.phase.sent? = some (r, k, n) → s.Read k → (s.procs p).stopped = false) :
    Inv { s.sigcont p with phase := ph, held := held } := by
  have hself : (s.sigcont p).procs p = { s.procs p with stopped := false } := State.setProc_self ..
  have hne : ∀ x, x ≠ p → (s.sigcont p).procs x = s.procs x := fun x hx =>
    State.setProc_of_ne s _ hx
  have hproj : ∀ x, ((s.sigcont p).procs x).alive = (s.procs x).alive ∧
      ((s.sigcont p).procs x).nsInit = (s.procs x).nsInit ∧
      ((s.sigcont p).procs x).buf = (s.procs x).buf ∧
      ((s.sigcont p).procs x).pc = (s.procs x).pc ∧
      ((s.sigcont p).procs x).born = (s.procs x).born := by
    intro x
    rcases eq_or_ne x p with rfl | hx
    · rw [hself]
      exact ⟨rfl, rfl, rfl, rfl, rfl⟩
    · rw [hne x hx]
      exact ⟨rfl, rfl, rfl, rfl, rfl⟩
  have hpc : ∀ x, ((s.sigcont p).procs x).pc = (s.procs x).pc := fun x => (hproj x).2.2.2.1
  have hborn : ∀ x, ((s.sigcont p).procs x).born = (s.procs x).born := fun x => (hproj x).2.2.2.2
  have hinit : ∀ x, ((s.sigcont p).procs x).nsInit = (s.procs x).nsInit := fun x => (hproj x).2.1
  have hreply : ∀ m, ReplyOk s m → ReplyOk { s.sigcont p with phase := ph, held := held } m := by
    refine fun m hm => ⟨hm.1, fun r hr hop => ?_⟩
    obtain ⟨hbusy, hok, hfail⟩ := hm.2 r hr hop
    refine ⟨fun x => by rw [hpc]; exact hbusy x, fun hmok => ?_, fun hmok c => ?_⟩
    · obtain ⟨hi, c, hc, hb⟩ := hok hmok
      exact ⟨by rw [hinit]; exact hi, c, hc, by rw [hborn]; exact hb⟩
    · rw [hborn]
      exact hfail hmok c
  exact
    { alive_lt := fun x hx => h.alive_lt x ((hproj x).1 ▸ hx)
      active_lt := h.active_lt
      ran := h.ran
      ran_lt := h.ran_lt
      busy := fun x k hk => h.busy x k (hpc x ▸ hk)
      reply_born := fun x k c hk => by rw [hborn]; exact h.reply_born x k c (hpc x ▸ hk)
      born_lt := fun x k hk => h.born_lt x k (hborn x ▸ hk)
      born_read := fun x k hk => h.born_read x k (hborn x ▸ hk)
      born_busy := fun x y k hx hy => h.born_busy x y k (hborn x ▸ hx) (hpc y ▸ hy)
      born_inj := fun x y k hx hy => h.born_inj x y k (hborn x ▸ hx) (hborn y ▸ hy)
      buf := fun x => by rw [(hproj x).2.2.1]; exact h.buf x
      images := h.images
      fifo_idle := fun hs => h.fifo_idle (hsent ▸ hs)
      fifo_sent := fun r k n hs => h.fifo_sent r k n (hsent ▸ hs)
      fifo_read := fun r k n hs => h.fifo_read r k n (hsent ▸ hs)
      sent := fun r k n hs => h.sent r k n (hsent ▸ hs)
      writing := fun r k n hs => by rcases hph with ⟨rfl, -⟩ | ⟨r', k', -, rfl, -⟩ <;> cases hs
      writing_lt := fun r k n hs => by rcases hph with ⟨rfl, -⟩ | ⟨r', k', -, rfl, -⟩ <;> cases hs
      readers := fun x hx => by
        have hcase : x = p ∨ Allowed s x := by
          by_cases hxp : x = p
          · exact Or.inl hxp
          · exact Or.inr (h.readers x (by rwa [← hne x hxp]))
        rcases hph with ⟨rfl, hp⟩ | ⟨r, k, hold, rfl, hp⟩
        · rcases hcase with hxp | hall
          · exact hxp.trans hp
          · exact hidle rfl x hall
        · rcases hcase with hxp | hall
          · exact Or.inl (hxp.trans hp)
          · rw [Allowed, hold] at hall
            rcases hall with hall | hall
            · exact Or.inl hall.1
            · exact Or.inr ⟨hall.1, (hborn x).trans hall.2⟩
      len_pos := fun r hr => h.len_pos r (hreq ▸ hr)
      away := fun r hr hr' => by
        obtain ⟨hq, hop⟩ := h.away r (hreq ▸ hr) hr'
        refine ⟨?_, hop⟩
        have hp : s.active ≠ p := by
          rcases hph with ⟨rfl, hp⟩ | ⟨r', k, hold, rfl, hp⟩
          · cases hr
          · obtain rfl : r' = r := Option.some.inj hr
            exact fun heq => hr' (hp.symm.trans heq.symm)
        rw [show (({ s.sigcont p with phase := ph, held := held } : State).procs
          ({ s.sigcont p with phase := ph, held := held } : State).active) = s.procs s.active from
            hne _ hp]
        exact hq
      unheld := fun r hr hor => by
        have hold := h.unheld r (hreq ▸ hr) hor
        by_contra hh
        have := (hheld (by simpa using hh)).1
        rw [hold] at this
        cases this
      held := fun hh => by
        obtain ⟨hold, hp⟩ := hheld hh
        rw [show (({ s.sigcont p with phase := ph, held := held } : State).procs
          ({ s.sigcont p with phase := ph, held := held } : State).active) = s.procs s.active from
            hne _ hp.symm]
        exact h.held hold
      quiesce := fun x hx => by rcases hph with ⟨rfl, -⟩ | ⟨r', k', -, rfl, -⟩ <;> cases hx
      done := fun r k n hs hk hor hi => by
        have hs' := hsent ▸ hs
        have hor' : r.source ≠ s.active ∨ r.op = .fork ∧ ∃ c, (s.procs c).born = some k := by
          rcases hor with hor | ⟨hop, c, hc⟩
          · exact Or.inl hor
          · exact Or.inr ⟨hop, c, hborn c ▸ hc⟩
        have hold := h.done r k n hs' hk hor' (hinit r.source ▸ hi)
        rcases eq_or_ne r.source p with heq | hne'
        · -- the source is not stopped, so SIGCONT does not change it
          have hstop := hdone r k n hs' hk
          have hsame : (s.sigcont p).procs r.source = s.procs r.source := by
            rw [heq, hself, ← hstop]
          change ((s.sigcont p).procs r.source).Parked s.cmds
          rwa [hsame]
        · change ((s.sigcont p).procs r.source).Parked s.cmds
          rwa [hne _ hne']
      busy_sent := fun r k n hs hk j hj =>
        h.busy_sent r k n (hsent ▸ hs) hk j (hpc r.source ▸ hj)
      fork_busy := fun x k r hk hr hop => by
        obtain ⟨r', n, hs⟩ := h.fork_busy x k r (hpc x ▸ hk) hr hop
        exact ⟨r', n, hsent.trans hs⟩
      replies := by
        rintro m (hm | ⟨r, k, hm⟩)
        · exact hreply m (h.replies m (Or.inl hm))
        · rcases hph with ⟨rfl, -⟩ | ⟨r', k', -, rfl, -⟩ <;> cases hm
      refused := by
        rw [hsent]
        rintro m (hm | ⟨r, k, hm⟩) hok
        · exact h.refused m (Or.inl hm) hok
        · rcases hph with ⟨rfl, -⟩ | ⟨r', k', -, rfl, -⟩ <;> cases hm }

/-! ### The end of a request -/

section

variable {r : Request} {k : ℕ} {line : Option Reply}

/-- Nobody is in the handler of a fork when a request for something else ends. -/
theorem Inv.no_fork_busy (h : Inv s) (hph : s.phase = .finish r k line) (hop : r.op ≠ .fork) :
    ∀ p j r', (s.procs p).pc.cmd? = some j → s.cmds[j]? = some r' → r'.op ≠ .fork := by
  intro p j r' hj hr' hfork
  obtain ⟨r'', n, hs⟩ := h.fork_busy p j r' hj hr' hfork
  obtain ⟨rfl, rfl, -⟩ : r = r'' ∧ k = j ∧ r.len = n := by
    simpa [Phase.sent?] using (congrArg Phase.sent? hph).symm.trans hs
  have hcmd := h.sent r k r.len (by rw [hph]; rfl)
  rw [hr'] at hcmd
  exact hop (Option.some.inj hcmd ▸ hfork)

/-- Nor when a fork ends with its own reply. -/
theorem Inv.no_fork_busy_of_reply (h : Inv s) {m : Reply} (hph : s.phase = .finish r k (some m))
    (hm : m.origin = k) :
    ∀ p j r', (s.procs p).pc.cmd? = some j → s.cmds[j]? = some r' → r'.op ≠ .fork := by
  intro p j r' hj hr' hfork
  obtain ⟨r'', n, hs⟩ := h.fork_busy p j r' hj hr' hfork
  obtain ⟨rfl, rfl, -⟩ : r = r'' ∧ k = j ∧ r.len = n := by
    simpa [Phase.sent?] using (congrArg Phase.sent? hph).symm.trans hs
  have hreply := h.replies m (Or.inr ⟨r, k, hph⟩)
  rw [← hm] at hr' hj
  exact (hreply.2 r' hr' hfork).1 p hj

/-- The end of a request that is not a fork leaves nobody unparked but the active process. -/
theorem Inv.finish_other (h : Inv s) (hph : s.phase = .finish r k line) (hread : s.Read k)
    (hop : r.op ≠ .fork)
    (hsrc : r.source ≠ s.active → (s.procs r.source).nsInit = true →
      (s.procs r.source).Parked s.cmds) {ph : Phase} {templates : Dict String ℕ}
    {results : List Result} (hph' : ph = .idle ∨ ph = .quiesce s.active ∧ s.held = false) :
    Inv { s with phase := ph, templates := templates, results := results } := by
  have hsent : s.phase.sent? = some (r, k, r.len) := by rw [hph]; rfl
  refine h.toIdle (c := s.active) hph' (h.noLine_of_read hsent hread) h.active_lt h.held
    (fun p hp => ?_) (h.no_fork_busy hph hop)
  have hall := h.readers p hp
  rw [Allowed, hph] at hall
  rcases hall with rfl | ⟨hfork, -⟩
  · by_contra hne
    cases hinit : (s.procs r.source).nsInit with
    | false => exact hp (h.done r k r.len hsent hread (Or.inl hne) hinit)
    | true => exact hp (hsrc hne hinit)
  · exact absurd hfork hop

/-- The end of a fork with its own reply. -/
theorem Inv.finish_fork (h : Inv s) {m : Reply} (hph : s.phase = .finish r k (some m))
    (hread : s.Read k) (hop : r.op = .fork) (hm : m.origin = k) {found : Bool}
    (hfound : m.ok = true → found = true) : Inv (finish s r k (some m) found) := by
  have hsent : s.phase.sent? = some (r, k, r.len) := by rw [hph]; rfl
  have hcmd : s.cmds[k]? = some r := h.sent r k r.len hsent
  have hreply := (h.replies m (Or.inr ⟨r, k, hph⟩)).2 r (hm ▸ hcmd) hop
  have hheld : s.held = false := h.unheld r (by rw [hph]; rfl) (Or.inr hop)
  rw [hm] at hreply
  cases hok : m.ok with
  | false =>
    -- refused: there is no child, and only the active process is left running
    simp only [finish, hop, hok, Bool.false_eq_true, if_false]
    refine h.toIdle (c := s.active) (Or.inl rfl) (h.noLine_of_read hsent hread) h.active_lt
      h.held (fun p hp => ?_) (h.no_fork_busy_of_reply hph hm)
    have hall := h.readers p hp
    rw [Allowed, hph] at hall
    rcases hall with hsrc | ⟨-, hborn⟩
    · rw [hsrc]
      exact h.refused m (Or.inr ⟨r, k, hph⟩) hok r r.len (hm ▸ hsent) hop
    · exact absurd hborn (hreply.2.2 hok p)
  | true =>
    obtain ⟨hinit, c, hc, hborn⟩ := hreply.2.1 hok
    have hpark : ∀ p, p ≠ c → ¬(s.procs p).Parked s.cmds →
        p = r.source ∧ (s.procs r.source).nsInit = true := by
      intro p hpc hp
      have hall := h.readers p hp
      rw [Allowed, hph] at hall
      rcases hall with rfl | ⟨-, hb⟩
      · cases hi : (s.procs r.source).nsInit with
        | false => exact absurd (h.done r k r.len hsent hread (Or.inr ⟨hop, c, hborn⟩) hi) hp
        | true => exact ⟨rfl, rfl⟩
      · exact absurd (h.born_inj p c k hb hborn) hpc
    cases hi : m.parentInit with
    | false =>
      simp only [finish, hop, hok, hc, hfound hok, hi, if_true, Bool.false_eq_true, if_false]
      refine h.toIdle (c := c) (Or.inl rfl) (h.noLine_of_read hsent hread)
        (h.born_lt c k hborn) (fun hh => by rw [hheld] at hh; cases hh) (fun p hp => ?_)
        (h.no_fork_busy_of_reply hph hm)
      by_contra hpc
      have := (hpark p hpc hp).2
      rw [← hinit, hi] at this
      cases this
    | true =>
      have h₁ := h.sigstop r.source
      simp only [finish, hop, hok, hc, hfound hok, hi, if_true]
      refine h₁.toIdle (c := c) (Or.inl rfl) (h.noLine_of_read hsent hread)
        (h.born_lt c k hborn)
        (fun hh => by rw [show (s.sigstop r.source).held = false from hheld] at hh; cases hh)
        (fun p hp => ?_) (h₁.no_fork_busy_of_reply hph hm)
      by_contra hpc
      rcases eq_or_ne p r.source with rfl | hne
      · exact hp (Or.inl (Or.inr (by rw [State.sigstop, State.setProc_self])))
      · rw [State.sigstop, State.setProc_of_ne _ _ hne] at hp
        exact hne (hpark p hpc hp).1

theorem Inv.finish (h : Inv s) (hph : s.phase = .finish r k line) (hread : s.Read k) {found : Bool}
    (hfork : r.op = .fork → ∃ m, line = some m ∧ m.origin = k ∧ (m.ok = true → found = true)) :
    Inv (finish s r k line found) := by
  have haway := h.away r (by rw [hph]; rfl)
  have hreap : r.op ≠ .fork → (s.procs r.source).nsInit = true →
      Inv ({ s with phase := .idle }.sigstop r.source) := by
    intro hop hi
    refine (h.sigstop r.source).finish_other hph hread hop (fun _ _ => ?_) (Or.inl rfl)
    exact Or.inl (Or.inr (by rw [State.sigstop, State.setProc_self]))
  have hplain : r.op ≠ .fork → (r.source ≠ s.active → (s.procs r.source).nsInit = false) →
      Inv { s with phase := .idle } := fun hop hi =>
    h.finish_other hph hread hop (fun hne hi' => by rw [hi hne] at hi'; cases hi') (Or.inl rfl)
  cases hop : r.op with
  | fork =>
    obtain ⟨m, rfl, hm, hfound⟩ := hfork hop
    exact h.finish_fork hph hread hop hm hfound
  | stashTemplate =>
    have hact : r.source = s.active := by
      by_contra hne
      exact (haway hne).2.1 hop
    have hidle := hplain (by rw [hop]; decide) fun hne => absurd hact hne
    simp only [Control.finish, hop]
    rcases line with _ | m
    · exact hidle
    · rcases hchild : m.child with _ | c
      · simp only [hchild]
        exact hidle
      · simp only [hchild]
        split_ifs
        · exact h.finish_other hph hread (by rw [hop]; decide) (fun hne => absurd hact hne)
            (Or.inl rfl)
        · exact hidle
  | checkpointPause =>
    have hact : r.source = s.active := by
      by_contra hne
      exact (haway hne).2.2 hop
    have hidle := hplain (by rw [hop]; decide) fun hne => absurd hact hne
    simp only [Control.finish, hop]
    rcases line with _ | m
    · exact hidle
    · dsimp only
      split_ifs
      · rw [hact]
        exact h.finish_other hph hread (by rw [hop]; decide) (fun hne => absurd hact hne)
          (Or.inr ⟨rfl, h.unheld r (by rw [hph]; rfl) (Or.inl hact)⟩)
      · exact hidle
  | reapChildren =>
    simp only [Control.finish, hop]
    split_ifs with hi
    · exact hreap (by rw [hop]; decide) hi
    · exact hplain (by rw [hop]; decide) fun _ => by simpa using hi
  | reapPid =>
    simp only [Control.finish, hop]
    split_ifs with hi
    · exact hreap (by rw [hop]; decide) hi
    · exact hplain (by rw [hop]; decide) fun _ => by simpa using hi

end

end

end Control

end DeltaBox
