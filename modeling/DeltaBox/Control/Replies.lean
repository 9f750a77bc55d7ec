import DeltaBox.Control.Fifo
import Mathlib.Data.Nat.Basic

/-!
# Replies answer the command that was sent

A reply names the kind of command it answers and no more. Stale replies are discarded when a request
starts, but a command that was given up can still be read, handled and answered while the next
request of its kind waits for a reply. What decides is whether anything of an earlier command of the
same kind is left at the moment the new one is written.

## Main definitions

* `Pending s j` — command `j` may still be answered
* `Unambiguous` — no earlier command of the same kind is pending when a command is written
* `Matched` — what is known about commands, replies and the processes they name

## Main results

* `Unambiguous.matched_step` — an unambiguous step keeps it
* `replies_match_commands` — in an unambiguous run a request returns the process that the handler of
  its own command created
* `late_reply_is_accepted` — a template is registered for a snapshot it was not taken for
-/

namespace DeltaBox

namespace Control

open DeltaBox.Frame Machine

/-- What command `j` asks for. -/
def State.op? (s : State) (j : ℕ) : Option Op := s.cmds[j]?.map Request.op

/-- Command `j` may still be answered: its reply is there, a live process works on it, or its newline
is where a live process can find it. -/
def Pending (s : State) (j : ℕ) : Prop :=
  (∃ m ∈ s.out, m.origin = j) ∨ (∃ b ∈ s.fifo, b.eol = true ∧ b.msg = j) ∨
    ∃ p < s.next, (s.procs p).alive = true ∧
      ((s.procs p).pc.cmd? = some j ∨ ∃ b ∈ (s.procs p).buf, b.eol = true ∧ b.msg = j)

instance (s : State) (j : ℕ) : Decidable (Pending s j) := inferInstanceAs (Decidable (_ ∨ _ ∨ _))

/-- No earlier command of the same kind is pending. -/
def Clear (s : State) : Phase → Prop
  | .drain r => ∀ j < s.cmds.length, s.op? j = some r.op → ¬Pending s j
  | _ => True

/-- A command is written when no earlier one of its kind is pending. -/
def Unambiguous (s : State) : Action → Prop
  | .openWrite => Clear s s.phase
  | _ => True

instance (s : State) : ∀ ph, Decidable (Clear s ph)
  | .drain _ => inferInstanceAs (Decidable (∀ j < s.cmds.length, _ → ¬_))
  | .idle | .write .. | .wake .. | .wait .. | .finish .. | .quiesce .. => isTrue trivial

instance (s : State) : ∀ a, Decidable (Unambiguous s a)
  | .openWrite => inferInstanceAs (Decidable (Clear s s.phase))
  | .begin .. | .drainChunk | .openFail | .writeChunk .. | .writeFail | .wake .. | .accept
  | .timeout | .finish .. | .endQuiesce | .hold | .release | .stopTemplate .. | .discard .. | .die ..
  | .dump .. | .coldRestore .. | .read .. | .spawn .. | .respond .. | .refuse .. | .selfStop .. =>
    isTrue trivial

/-! ### The invariant -/

/-- What a reply says is true: its mode is the one of its command, and its child was created for
that command. -/
def Honest (s : State) (m : Reply) : Prop :=
  (∃ r, s.cmds[m.origin]? = some r ∧ (m.ok = true → m.mode = successMode r)) ∧
    ∀ c, m.child = some c → (s.procs c).born = some m.origin

/-- What a process says about itself is true. -/
structure Consistent (s : State) (p : ℕ) : Prop where
  /-- Only allocated pids are alive. -/
  alive_lt : (s.procs p).alive = true → p < s.next
  /-- Children have allocated pids. -/
  born_lt : ∀ k, (s.procs p).born = some k → p < s.next
  /-- A process about to answer has created the child it will name. -/
  named : ∀ k c, (s.procs p).pc = .reply k c → (s.procs c).born = some k
  /-- It works on a command that was sent. -/
  busy_lt : ∀ j, (s.procs p).pc.cmd? = some j → j < s.cmds.length
  /-- So were the bytes it has read. -/
  buf_lt : ∀ b ∈ (s.procs p).buf, b.msg < s.cmds.length

/-- What the registered template of a snapshot is: the copy that a stash for it has made, or the
process that was left behind by a fork for it. -/
def Registered (s : State) (sid : String) (p : ℕ) : Prop :=
  ∃ k r, s.cmds[k]? = some r ∧ r.snapshot = some sid ∧
    ((r.op = .stashTemplate ∧ (s.procs p).born = some k) ∨ (r.op = .fork ∧ r.source = p))

/-- What an unambiguous run keeps. -/
structure Matched (s : State) : Prop where
  /-- The processes. -/
  procs : ∀ p, Consistent s p
  /-- Dumped bytes belong to commands that were sent. -/
  images_lt : ∀ buf ∈ s.images, ∀ b ∈ buf, b.msg < s.cmds.length
  /-- So do the bytes in the FIFO. -/
  fifo_lt : ∀ b ∈ s.fifo, b.msg < s.cmds.length
  /-- Replies tell the truth. -/
  replies : ∀ m, m ∈ s.out ∨ (∃ r k, s.phase = .finish r k (some m)) → Honest s m
  /-- The command under way is the one that was logged. -/
  sent : ∀ r k n, s.phase.sent? = some (r, k, n) → s.cmds[k]? = some r
  /-- **It is the only one of its kind that may be answered.** -/
  current : ∀ r k n, s.phase.sent? = some (r, k, n) →
    ∀ j, Pending s j → s.op? j = some r.op → j = k
  /-- And the only one of its kind whose reply is accepted. -/
  line : ∀ r k m, s.phase = .finish r k (some m) →
    accepts r.op m = true ∧ (s.op? m.origin = some r.op → m.origin = k)
  /-- A request returns the process its command has created. -/
  results : ∀ res ∈ s.results, (s.procs res.child).born = some res.cmd ∧
    s.cmds[res.cmd]?.map Request.snapshot = some res.snapshot
  /-- The registered templates. -/
  templates : ∀ sid p, s.templates.find? sid = some p → Registered s sid p

section

variable {s s' : State}

theorem Initial.matched (h : Initial s) : Matched s := by
  obtain ⟨nsInit, hprocs⟩ := h.procs
  have hproc : ∀ p, (s.procs p).pc = .loop ∧ (s.procs p).born = none ∧ (s.procs p).buf = [] := by
    intro p
    rw [hprocs, Function.update_apply]
    split_ifs <;> exact ⟨rfl, rfl, rfl⟩
  exact
    { procs := fun p =>
        { alive_lt := fun ha => by
            by_contra hp
            have hne : p ≠ s.active := fun heq => hp (heq ▸ h.active_lt)
            rw [hprocs, Function.update_of_ne hne] at ha
            cases ha
          born_lt := fun k hk => by rw [(hproc p).2.1] at hk; cases hk
          named := fun k c hk => by rw [(hproc p).1] at hk; cases hk
          busy_lt := fun j hj => by rw [(hproc p).1] at hj; cases hj
          buf_lt := fun b hb => by rw [(hproc p).2.2] at hb; cases hb }
      images_lt := fun buf hb => by rw [h.images] at hb; cases hb
      fifo_lt := fun b hb => by rw [h.fifo] at hb; cases hb
      replies := by
        rintro m (hm | ⟨r, k, hm⟩)
        · rw [h.out] at hm
          cases hm
        · rw [h.phase] at hm
          cases hm
      sent := fun r k n hs => by rw [h.phase] at hs; cases hs
      current := fun r k n hs => by rw [h.phase] at hs; cases hs
      line := fun r k m hs => by rw [h.phase] at hs; cases hs
      results := fun res hr => by rw [h.results] at hr; cases hr
      templates := fun sid p ht => by rw [h.templates] at ht; cases ht }

/-! ### What processes do -/

theorem Honest.mono {m : Reply} (h : Honest s m) (hcmds : s'.cmds = s.cmds)
    (hborn : ∀ c k, (s.procs c).born = some k → (s'.procs c).born = some k) : Honest s' m := by
  refine ⟨by rw [hcmds]; exact h.1, fun c hc => hborn c _ (h.2 c hc)⟩

theorem Registered.mono {sid : String} {p : ℕ} (h : Registered s sid p) (hcmds : s'.cmds = s.cmds)
    (hborn : ∀ c k, (s.procs c).born = some k → (s'.procs c).born = some k) :
    Registered s' sid p := by
  obtain ⟨k, r, hr, hsnap, hor⟩ := h
  exact ⟨k, r, by rw [hcmds]; exact hr, hsnap, hor.imp_left fun hb => ⟨hb.1, hborn p k hb.2⟩⟩

/-- Processes and streams change, and nothing becomes pending that was not. -/
theorem Matched.world (h : Matched s) (hcmds : s'.cmds = s.cmds) (hphase : s'.phase = s.phase)
    (himages : s'.images = s.images) (hresults : s'.results = s.results)
    (htemplates : s'.templates = s.templates)
    (hborn : ∀ c k, (s.procs c).born = some k → (s'.procs c).born = some k)
    (hprocs : ∀ p, Consistent s' p) (hfifo : ∀ b ∈ s'.fifo, b ∈ s.fifo)
    (hout : ∀ m ∈ s'.out, m ∈ s.out ∨ Honest s' m) (hpend : ∀ j, Pending s' j → Pending s j) :
    Matched s' where
  procs := hprocs
  images_lt := by rw [himages, hcmds]; exact h.images_lt
  fifo_lt := fun b hb => by rw [hcmds]; exact h.fifo_lt b (hfifo b hb)
  replies := by
    rintro m (hm | ⟨r, k, hm⟩)
    · rcases hout m hm with hm | hm
      · exact (h.replies m (Or.inl hm)).mono hcmds hborn
      · exact hm
    · exact (h.replies m (Or.inr ⟨r, k, hphase ▸ hm⟩)).mono hcmds hborn
  sent := by rw [hphase, hcmds]; exact h.sent
  current := fun r k n hs j hj hop => by
    rw [State.op?, hcmds] at hop
    exact h.current r k n (hphase ▸ hs) j (hpend j hj) hop
  line := fun r k m hm => by
    rw [State.op?, hcmds]
    exact h.line r k m (hphase ▸ hm)
  results := fun res hr => by
    obtain ⟨hb, hsnap⟩ := h.results res (hresults ▸ hr)
    exact ⟨hborn _ _ hb, by rw [hcmds]; exact hsnap⟩
  templates := fun sid p ht => (h.templates sid p (htemplates ▸ ht)).mono hcmds hborn

section

variable {p : ℕ} {q : Proc} {fifo : List Byte} {ran : List (ℕ × ℕ)} {out : List Reply}

theorem Pending.of_setProc {j : ℕ} (hfifo : ∀ b ∈ fifo, b ∈ s.fifo)
    (hout : ∀ m ∈ out, m ∈ s.out ∨ Pending s m.origin)
    (hpc : q.alive = true → ∀ i, q.pc.cmd? = some i → Pending s i)
    (hbuf : q.alive = true → ∀ b ∈ q.buf, b.eol = true → Pending s b.msg)
    (h : Pending ({ s with fifo := fifo, ran := ran, out := out }.setProc p q) j) :
    Pending s j := by
  rcases h with ⟨m, hm, rfl⟩ | ⟨b, hb, hbj⟩ | ⟨x, hx, halive, hor⟩
  · rcases hout m hm with hm | hm
    · exact Or.inl ⟨m, hm, rfl⟩
    · exact hm
  · exact Or.inr (Or.inl ⟨b, hfifo b hb, hbj⟩)
  · rcases eq_or_ne x p with rfl | hne
    · rw [State.setProc_self] at halive hor
      rcases hor with hj | ⟨b, hb, hbe, rfl⟩
      · exact hpc halive j hj
      · exact hbuf halive b hb hbe
    · rw [State.setProc_of_ne _ _ hne] at halive hor
      exact Or.inr (Or.inr ⟨x, hx, halive, hor⟩)

/-- A process changes, together with the streams. -/
theorem Matched.setProc (h : Matched s) (fifo : List Byte) (ran : List (ℕ × ℕ)) (out : List Reply)
    (halive : q.alive = true → (s.procs p).alive = true)
    (hborn : q.born = (s.procs p).born) (hnamed : ∀ k c, q.pc = .reply k c → (s.procs p).pc = q.pc)
    (hbusy : ∀ j, q.pc.cmd? = some j → j < s.cmds.length)
    (hbuf : ∀ b ∈ q.buf, b.msg < s.cmds.length) (hfifo : ∀ b ∈ fifo, b ∈ s.fifo)
    (hout : ∀ m ∈ out, m ∈ s.out ∨ Pending s m.origin ∧ Honest s m)
    (hpc' : q.alive = true → ∀ i, q.pc.cmd? = some i → Pending s i)
    (hbuf' : q.alive = true → ∀ b ∈ q.buf, b.eol = true → Pending s b.msg) :
    Matched ({ s with fifo := fifo, ran := ran, out := out }.setProc p q) := by
  set t := { s with fifo := fifo, ran := ran, out := out }.setProc p q with ht
  have hself : t.procs p = q := State.setProc_self ..
  have hne : ∀ x, x ≠ p → t.procs x = s.procs x := fun x hx => State.setProc_of_ne _ _ hx
  have hborn' : ∀ x, (t.procs x).born = (s.procs x).born := by
    intro x
    rcases eq_or_ne x p with rfl | hx
    · rw [hself]
      exact hborn
    · rw [hne x hx]
  have hkeep : ∀ c k, (s.procs c).born = some k → (t.procs c).born = some k := fun c k hk => by
    rw [hborn']
    exact hk
  refine h.world rfl rfl rfl rfl rfl hkeep (fun x => ?_) hfifo (fun m hm => ?_)
    fun j => Pending.of_setProc hfifo (fun m hm => (hout m hm).imp_right And.left) hpc' hbuf'
  · have hx := h.procs x
    refine ⟨fun ha => ?_, fun k hk => hx.born_lt k (hborn' x ▸ hk), fun k c hk => ?_,
      fun j hj => ?_, fun b hb => ?_⟩
    · rcases eq_or_ne x p with rfl | hxp
      · exact hx.alive_lt (halive (hself ▸ ha))
      · exact hx.alive_lt (hne x hxp ▸ ha)
    · rw [hborn']
      rcases eq_or_ne x p with rfl | hxp
      · rw [hself] at hk
        exact hx.named k c ((hnamed k c hk).trans hk)
      · exact hx.named k c (hne x hxp ▸ hk)
    · rcases eq_or_ne x p with rfl | hxp
      · exact hbusy j (hself ▸ hj)
      · exact hx.busy_lt j (hne x hxp ▸ hj)
    · rcases eq_or_ne x p with rfl | hxp
      · exact hbuf b (hself ▸ hb)
      · exact hx.buf_lt b (hne x hxp ▸ hb)
  · exact (hout m hm).imp_right fun hm => hm.2.mono rfl hkeep

end

section

variable {p : ℕ}

theorem Matched.pending_busy (h : Matched s) (halive : (s.procs p).alive = true) {j : ℕ}
    (hj : (s.procs p).pc.cmd? = some j) : Pending s j :=
  Or.inr (Or.inr ⟨p, (h.procs p).alive_lt halive, halive, Or.inl hj⟩)

theorem Matched.pending_buf (h : Matched s) (halive : (s.procs p).alive = true) {b : Byte}
    (hb : b ∈ (s.procs p).buf) (he : b.eol = true) : Pending s b.msg :=
  Or.inr (Or.inr ⟨p, (h.procs p).alive_lt halive, halive, Or.inr ⟨b, hb, he, rfl⟩⟩)

/-- A process changes in what this module does not look at, or dies. -/
theorem Matched.signal (h : Matched s) {q : Proc}
    (halive : q.alive = true → (s.procs p).alive = true) (hborn : q.born = (s.procs p).born)
    (hpc : q.pc = (s.procs p).pc) (hbuf : q.buf = (s.procs p).buf) : Matched (s.setProc p q) := by
  have hp := h.procs p
  refine h.setProc s.fifo s.ran s.out halive hborn
    (fun _ _ _ => hpc.symm) (hpc ▸ hp.busy_lt) (hbuf ▸ hp.buf_lt) (fun _ hb => hb)
    (fun _ hm => Or.inl hm) (fun ha i hi => ?_) fun ha b hb he => ?_
  · exact h.pending_busy (halive ha) (hpc ▸ hi)
  · exact h.pending_buf (halive ha) (hbuf ▸ hb) he

/-- A process is done with its command, possibly with an answer. -/
theorem Matched.answer (h : Matched s) (halive : (s.procs p).alive = true) {k : ℕ} {q : Proc}
    {lost : Bool} {m : Reply} (hk : (s.procs p).pc.cmd? = some k) (hborn : q.born = (s.procs p).born)
    (hpc : q.pc.cmd? = none) (hbuf : q.buf = (s.procs p).buf) (horigin : m.origin = k)
    (hm : Honest s m) : Matched ((s.setProc p q).answer lost m) := by
  have hp := h.procs p
  have hidle : ∀ {j}, q.pc.cmd? ≠ some j := by
    intro j hj
    cases hpc.symm.trans hj
  obtain ⟨out, heq, hout⟩ := answer_eq (s.setProc p q) lost m
  rw [heq]
  refine h.setProc s.fifo s.ran out (fun _ => halive) hborn
    (fun k c hk => ?_) (fun j hj => absurd hj hidle) (hbuf ▸ hp.buf_lt) (fun _ hb => hb)
    (fun x hx => ?_) (fun _ i hi => absurd hi hidle) fun _ b hb he => ?_
  · exact absurd (by rw [hk]; rfl) (hidle (j := k))
  · rcases hout x hx with hx | rfl
    · exact Or.inl hx
    · exact Or.inr ⟨horigin ▸ h.pending_busy halive hk, hm⟩
  · exact h.pending_buf halive (hbuf ▸ hb) he

theorem readCtrlLine_subset {fifo buf fifo' buf' : List Byte} {line : Option (List Byte)}
    (h : readCtrlLine fifo buf = (fifo', buf', line)) :
    (∀ b ∈ fifo', b ∈ fifo) ∧ (∀ b ∈ buf', b ∈ buf ∨ b ∈ fifo) ∧
      ∀ l, line = some l → ∃ b ∈ l, b.eol = true ∧ (b ∈ buf ∨ b ∈ fifo) := by
  have htake : ∀ b ∈ buf ++ fifo.take 4096, b ∈ buf ∨ b ∈ fifo := fun b hb =>
    (List.mem_append.mp hb).imp_right List.mem_of_mem_take
  rw [readCtrlLine] at h
  split at h
  · rename_i l rest hcut
    obtain ⟨happ, init, b, rfl, he, -⟩ := cut_eq_some hcut
    obtain ⟨rfl, rfl, rfl⟩ : fifo = fifo' ∧ rest = buf' ∧ some (init ++ [b]) = line := by
      simpa using h
    refine ⟨fun _ hb => hb, fun x hx => Or.inl ?_, fun l hl => ?_⟩
    · rw [happ]
      exact List.mem_append_right _ hx
    · obtain rfl := Option.some.inj hl
      exact ⟨b, by simp, he, Or.inl (by rw [happ]; simp)⟩
  · split at h
    · rename_i l rest hcut
      obtain ⟨happ, init, b, rfl, he, -⟩ := cut_eq_some hcut
      obtain ⟨rfl, rfl, rfl⟩ : fifo.drop 4096 = fifo' ∧ rest = buf' ∧ some (init ++ [b]) = line := by
        simpa using h
      refine ⟨fun _ => List.mem_of_mem_drop, fun x hx => htake x ?_, fun l hl => ?_⟩
      · rw [happ]
        exact List.mem_append_right _ hx
      · obtain rfl := Option.some.inj hl
        exact ⟨b, by simp, he, htake b (by rw [happ]; simp)⟩
    · obtain ⟨rfl, rfl, rfl⟩ : fifo.drop 4096 = fifo' ∧ buf ++ fifo.take 4096 = buf' ∧
          none = line := by
        simpa using h
      exact ⟨fun _ => List.mem_of_mem_drop, htake, fun _ hl => by cases hl⟩

theorem Matched.read (h : Matched s) (halive : (s.procs p).alive = true)
    (hstep : procStep s p (.read p) = some s') : Matched s' := by
  rw [procStep] at hstep
  split_ifs at hstep with hpc
  rcases hread : readCtrlLine s.fifo (s.procs p).buf with ⟨fifo, buf, line⟩
  obtain ⟨hfifo, hbuf, hline⟩ := readCtrlLine_subset hread
  have hp := h.procs p
  have hpend : ∀ b, b ∈ (s.procs p).buf ∨ b ∈ s.fifo → b.eol = true → Pending s b.msg := by
    rintro b (hb | hb) he
    · exact h.pending_buf halive hb he
    · exact Or.inr (Or.inl ⟨b, hb, he, rfl⟩)
  have hlt : ∀ b, b ∈ (s.procs p).buf ∨ b ∈ s.fifo → b.msg < s.cmds.length := by
    rintro b (hb | hb)
    · exact hp.buf_lt b hb
    · exact h.fifo_lt b hb
  -- bytes moved, but no command was recognised
  have hmove : Matched ({ s with fifo := fifo }.setProc p { s.procs p with buf := buf }) :=
    h.setProc fifo s.ran s.out id rfl (fun _ _ _ => rfl) hp.busy_lt
      (fun b hb => hlt b (hbuf b hb)) hfifo (fun _ hm => Or.inl hm)
      (fun _ i hi => h.pending_busy halive hi) fun _ b hb he => hpend b (hbuf b hb) he
  rw [hread] at hstep
  rcases line with _ | l
  · obtain rfl := Option.some.inj hstep
    exact hmove
  · obtain ⟨b, hb, he, hfrom⟩ := hline l rfl
    rcases hw : whole l with _ | k
    · simp only [hw] at hstep
      obtain rfl := Option.some.inj hstep
      exact hmove
    · simp only [hw] at hstep
      obtain rfl := Option.some.inj hstep
      have hk : b.msg = k := msg_of_whole hw b hb
      refine h.setProc fifo _ s.out id rfl (fun _ _ hc => by cases hc) (fun j hj => ?_)
        (fun b hb => hlt b (hbuf b hb)) hfifo (fun _ hm => Or.inl hm) (fun _ i hi => ?_)
        fun _ b hb he => hpend b (hbuf b hb) he
      · obtain rfl : k = j := Option.some.inj hj
        exact hk ▸ hlt b hfrom
      · obtain rfl : k = i := Option.some.inj hi
        exact hk ▸ hpend b hfrom he

theorem Matched.spawn (h : Matched s) (halive : (s.procs p).alive = true) {k : ℕ} {r : Request}
    (hpc : (s.procs p).pc = .handle k) (hop : r.op = .fork ∨ r.op = .stashTemplate) :
    Matched (({ s with next := s.next + 1 }.setProc p
      { s.procs p with pc := .reply k s.next }).setProc s.next (spawned r k (s.procs p))) := by
  set t := ({ s with next := s.next + 1 }.setProc p
    { s.procs p with pc := .reply k s.next }).setProc s.next (spawned r k (s.procs p)) with ht
  have hp := h.procs p
  have hpn : p ≠ s.next := Nat.ne_of_lt (hp.alive_lt halive)
  have hchild : t.procs s.next = spawned r k (s.procs p) := State.setProc_self ..
  have hself : t.procs p = { s.procs p with pc := .reply k s.next } := by
    rw [ht, State.setProc_of_ne _ _ hpn, State.setProc_self]
  have hne : ∀ x, x ≠ p → x ≠ s.next → t.procs x = s.procs x := by
    intro x hx hxn
    rw [ht, State.setProc_of_ne _ _ hxn, State.setProc_of_ne _ _ hx]
  obtain ⟨hsborn, hspc, hsbuf⟩ := spawned_spec k (s.procs p) hop
  have hidle : ∀ {j}, (spawned r k (s.procs p)).pc.cmd? ≠ some j := by
    intro j hj
    cases hspc.symm.trans hj
  have hkeep : ∀ c j, (s.procs c).born = some j → (t.procs c).born = some j := by
    intro c j hj
    have hcn : c ≠ s.next := Nat.ne_of_lt ((h.procs c).born_lt j hj)
    rcases eq_or_ne c p with rfl | hcp
    · rwa [hself]
    · rwa [hne c hcp hcn]
  have hbusy : (s.procs p).pc.cmd? = some k := by rw [hpc]; rfl
  refine h.world rfl rfl rfl rfl rfl hkeep (fun x => ?_) (fun _ hb => hb) (fun _ hm => Or.inl hm)
    fun j hj => ?_
  · rcases eq_or_ne x s.next with rfl | hxn
    · refine ⟨fun _ => Nat.lt_succ_self _, fun _ _ => Nat.lt_succ_self _, fun j c hj => ?_,
        fun j hj => absurd (hchild ▸ hj) hidle, fun b hb => hp.buf_lt b ?_⟩
      · exact absurd (by rw [← hchild, hj]; rfl) (hidle (j := j))
      · rwa [hchild, hsbuf] at hb
    · rcases eq_or_ne x p with rfl | hxp
      · refine ⟨fun _ => Nat.lt_succ_of_lt (hp.alive_lt halive),
          fun j hj => Nat.lt_succ_of_lt (hp.born_lt j (by rwa [hself] at hj)), fun j c hj => ?_,
          fun j hj => hp.busy_lt j ?_, fun b hb => hp.buf_lt b (by rwa [hself] at hb)⟩
        · rw [hself] at hj
          obtain ⟨rfl, rfl⟩ := Pc.reply.inj hj
          rw [hchild]
          exact hsborn
        · rw [hself] at hj
          exact hbusy.trans hj
      · have hx := h.procs x
        have heq := hne x hxp hxn
        exact ⟨fun ha => Nat.lt_succ_of_lt (hx.alive_lt (heq ▸ ha)),
          fun j hj => Nat.lt_succ_of_lt (hx.born_lt j (heq ▸ hj)),
          fun j c hj => hkeep c j (hx.named j c (heq ▸ hj)), fun j hj => hx.busy_lt j (heq ▸ hj),
          fun b hb => hx.buf_lt b (heq ▸ hb)⟩
  · rcases hj with hj | hj | ⟨x, hx, ha, hor⟩
    · exact Or.inl hj
    · exact Or.inr (Or.inl hj)
    · change x < s.next + 1 at hx
      rcases eq_or_ne x s.next with rfl | hxn
      · rw [hchild] at hor
        rcases hor with hj | ⟨b, hb, he, rfl⟩
        · exact absurd hj hidle
        · exact h.pending_buf halive (hsbuf ▸ hb) he
      · rcases eq_or_ne x p with rfl | hxp
        · rw [hself] at hor
          rcases hor with hj | ⟨b, hb, he, rfl⟩
          · exact h.pending_busy halive (hbusy.trans hj)
          · exact h.pending_buf halive hb he
        · rw [hne x hxp hxn] at ha hor
          exact Or.inr (Or.inr ⟨x, by omega, ha, hor⟩)

end

/-! ### What the controller does -/

/-- A request moves on without a new command. -/
theorem Matched.rephase (h : Matched s) (ph : Phase) (out : List Reply)
    (hout : ∀ m ∈ out, m ∈ s.out) (hsent : ph.sent? = s.phase.sent? ∨ ph.sent? = none)
    (hline : ∀ r k m, ph = .finish r k (some m) → s.phase = .wait r k ∧ m ∈ s.out ∧
      accepts r.op m = true) : Matched { s with phase := ph, out := out } := by
  have hsent' : ∀ {r k n}, ph.sent? = some (r, k, n) → s.phase.sent? = some (r, k, n) := by
    intro r k n hs
    rcases hsent with heq | hnone
    · exact heq ▸ hs
    · cases hnone.symm.trans hs
  have hpend : ∀ j, Pending { s with phase := ph, out := out } j → Pending s j := by
    intro j hj
    exact hj.imp_left fun ⟨m, hm, heq⟩ => ⟨m, hout m hm, heq⟩
  exact
    { procs := fun p =>
        have hp := h.procs p
        ⟨hp.alive_lt, hp.born_lt, hp.named, hp.busy_lt, hp.buf_lt⟩
      images_lt := h.images_lt
      fifo_lt := h.fifo_lt
      replies := by
        rintro m (hm | ⟨r, k, hm⟩)
        · exact h.replies m (Or.inl (hout m hm))
        · exact h.replies m (Or.inl (hline r k m hm).2.1)
      sent := fun r k n hs => h.sent r k n (hsent' hs)
      current := fun r k n hs j hj => h.current r k n (hsent' hs) j (hpend j hj)
      line := fun r k m hm => by
        obtain ⟨hwait, hmem, hacc⟩ := hline r k m hm
        exact ⟨hacc, h.current r k r.len (by rw [hwait]; rfl) m.origin (Or.inl ⟨m, hmem, rfl⟩)⟩
      results := h.results
      templates := h.templates }

/-- A request ends. -/
theorem Matched.leave (h : Matched s) {ph : Phase} (hph : ph.sent? = none) :
    Matched { s with phase := ph } :=
  h.rephase ph s.out (fun _ hm => hm) (Or.inr hph) fun r k m hm => by
    rw [hm] at hph
    cases hph

/-- **A command is written when no other of its kind is pending.** -/
theorem Matched.openWrite (h : Matched s) {r : Request} (hclear : Clear s (.drain r)) :
    Matched { s with cmds := s.cmds ++ [r], phase := .write r s.cmds.length 0 } := by
  set t : State := { s with cmds := s.cmds ++ [r], phase := .write r s.cmds.length 0 } with ht
  have hlen : t.cmds.length = s.cmds.length + 1 := by simp [ht]
  have hget : ∀ {j}, j < s.cmds.length → t.cmds[j]? = s.cmds[j]? := fun hj =>
    List.getElem?_append_left hj
  have hsome : ∀ {j : ℕ} {x : Request}, s.cmds[j]? = some x → j < s.cmds.length := fun hx =>
    (List.getElem?_eq_some_iff.mp hx).1
  have hreply : ∀ m, m ∈ s.out → Honest t m := by
    intro m hm
    obtain ⟨⟨x, hx, hmode⟩, hchild⟩ := h.replies m (Or.inl hm)
    exact ⟨⟨x, by rw [hget (hsome hx)]; exact hx, hmode⟩, hchild⟩
  have hpend : ∀ j, Pending s j → j < s.cmds.length := by
    rintro j (⟨m, hm, rfl⟩ | ⟨b, hb, -, rfl⟩ | ⟨p, -, -, hj | ⟨b, hb, -, rfl⟩⟩)
    · obtain ⟨⟨x, hx, -⟩, -⟩ := h.replies m (Or.inl hm)
      exact hsome hx
    · exact h.fifo_lt b hb
    · exact (h.procs p).busy_lt j hj
    · exact (h.procs p).buf_lt b hb
  have heq : ∀ {r' k n}, t.phase.sent? = some (r', k, n) → r = r' ∧ s.cmds.length = k := by
    intro r' k n hs
    obtain ⟨h₁, h₂, -⟩ : r = r' ∧ s.cmds.length = k ∧ 0 = n := by simpa [ht, Phase.sent?] using hs
    exact ⟨h₁, h₂⟩
  exact
    { procs := fun p =>
        have hp := h.procs p
        ⟨hp.alive_lt, hp.born_lt, hp.named,
          fun j hj => by rw [hlen]; exact Nat.lt_succ_of_lt (hp.busy_lt j hj),
          fun b hb => by rw [hlen]; exact Nat.lt_succ_of_lt (hp.buf_lt b hb)⟩
      images_lt := fun buf hbuf b hb => by
        rw [hlen]
        exact Nat.lt_succ_of_lt (h.images_lt buf hbuf b hb)
      fifo_lt := fun b hb => by
        rw [hlen]
        exact Nat.lt_succ_of_lt (h.fifo_lt b hb)
      replies := by
        rintro m (hm | ⟨r', k, hm⟩)
        · exact hreply m hm
        · cases hm
      sent := fun r' k n hs => by
        obtain ⟨rfl, rfl⟩ := heq hs
        exact List.getElem?_concat_length
      current := fun r' k n hs j hj hop => by
        obtain ⟨rfl, rfl⟩ := heq hs
        have hlt := hpend j hj
        rw [State.op?, hget hlt] at hop
        exact absurd hj (hclear j hlt hop)
      line := fun r' k m hm => by cases hm
      results := fun res hr => by
        obtain ⟨hb, hsnap⟩ := h.results res hr
        obtain ⟨x, hx, -⟩ := Option.map_eq_some_iff.mp hsnap
        exact ⟨hb, by rw [hget (hsome hx)]; exact hsnap⟩
      templates := fun sid p hp => by
        obtain ⟨k, x, hx, hor⟩ := h.templates sid p hp
        exact ⟨k, x, by rw [hget (hsome hx)]; exact hx, hor⟩ }

theorem Matched.writeChunk (h : Matched s) {r : Request} {k m n : ℕ} (hph : s.phase = .write r k m)
    {ph : Phase} (hsent : ph.sent? = some (r, k, m + n)) (hline : ∀ r k o, ph ≠ .finish r k o) :
    Matched { s with fifo := s.fifo ++ ((frame k r.len).drop m).take n, phase := ph } := by
  have hold : s.phase.sent? = some (r, k, m) := by rw [hph]; rfl
  have hcmd := h.sent r k m hold
  have hnew : ∀ b ∈ ((frame k r.len).drop m).take n, b.msg = k := fun b hb =>
    msg_of_mem_frame (List.mem_of_mem_drop (List.mem_of_mem_take hb))
  have heq : ∀ {r' k' n'}, ph.sent? = some (r', k', n') → r = r' ∧ k = k' := by
    intro r' k' n' hs
    obtain ⟨h₁, h₂, -⟩ : r = r' ∧ k = k' ∧ m + n = n' := by simpa using hsent.symm.trans hs
    exact ⟨h₁, h₂⟩
  exact
    { procs := fun p =>
        have hp := h.procs p
        ⟨hp.alive_lt, hp.born_lt, hp.named, hp.busy_lt, hp.buf_lt⟩
      images_lt := h.images_lt
      fifo_lt := fun b hb => by
        rcases List.mem_append.mp hb with hb | hb
        · exact h.fifo_lt b hb
        · rw [hnew b hb]
          exact (List.getElem?_eq_some_iff.mp hcmd).1
      replies := by
        rintro x (hx | ⟨r', k', hx⟩)
        · exact h.replies x (Or.inl hx)
        · exact absurd hx (hline r' k' _)
      sent := fun r' k' n' hs => by
        obtain ⟨rfl, rfl⟩ := heq hs
        exact hcmd
      current := fun r' k' n' hs j hj hop => by
        obtain ⟨rfl, rfl⟩ := heq hs
        rcases hj with hj | ⟨b, hb, he, rfl⟩ | hj
        · exact h.current r k m hold j (Or.inl hj) hop
        · rcases List.mem_append.mp hb with hb | hb
          · exact h.current r k m hold b.msg (Or.inr (Or.inl ⟨b, hb, he, rfl⟩)) hop
          · exact hnew b hb
        · exact h.current r k m hold j (Or.inr (Or.inr hj)) hop
      line := fun r' k' x hx => absurd hx (hline r' k' _)
      results := h.results
      templates := h.templates }

/-- A request returns a process, and may register a template. -/
theorem Matched.register (h : Matched s) (active : ℕ) {p : ℕ} {r : Request} {k : ℕ} (res : Result)
    (hcmd : s.cmds[k]? = some r) (hres : res.cmd = k) (hsnap : res.snapshot = r.snapshot)
    (hborn : (s.procs res.child).born = some k)
    (hreg : (r.op = .stashTemplate ∧ (s.procs p).born = some k) ∨ (r.op = .fork ∧ r.source = p)) :
    Matched { s with
      active := active
      templates := setTemplate s.templates r.snapshot p
      results := s.results ++ [res] } :=
  { h with
    procs := fun x =>
      have hx := h.procs x
      ⟨hx.alive_lt, hx.born_lt, hx.named, hx.busy_lt, hx.buf_lt⟩
    results := fun x hx => by
      rcases List.mem_append.mp hx with hx | hx
      · exact h.results x hx
      · obtain rfl := List.mem_singleton.mp hx
        exact ⟨hres ▸ hborn, by rw [hres, hcmd, hsnap]; rfl⟩
    templates := fun sid x hx => by
      cases hsid : r.snapshot with
      | none =>
        rw [hsid] at hx
        exact h.templates sid x hx
      | some sid' =>
        rw [hsid] at hx
        change (s.templates.set sid' p).find? sid = some x at hx
        rw [Dict.find?_set] at hx
        split_ifs at hx with heq
        · obtain rfl := Option.some.inj hx
          exact ⟨k, r, hcmd, by rw [hsid, heq], hreg⟩
        · exact h.templates sid x hx }

/-- The mode of a successful reply tells its kind. -/
theorem op_of_successMode {r : Request} {op : Op} {mode : Mode} (h : successMode r = some mode)
    (hmem : mode ∈ expectedModes op) : r.op = op := by
  obtain ⟨o, v, src, sid, len⟩ := r
  cases o <;> cases v <;> cases h <;> cases op <;> first
    | rfl
    | simp [expectedModes] at hmem

section

variable {r : Request} {k : ℕ} {m : Reply}

/-- The reply a request succeeds with is the one to its command. -/
theorem Matched.own_reply (h : Matched s) (hph : s.phase = .finish r k (some m))
    (hok : m.ok = true) : m.origin = k := by
  obtain ⟨hacc, hown⟩ := h.line r k m hph
  obtain ⟨⟨r', hr', hmode⟩, -⟩ := h.replies m (Or.inr ⟨r, k, hph⟩)
  refine hown ?_
  have hany : m.mode.any (· ∈ expectedModes r.op) = true := by
    rw [accepts, hok] at hacc
    simpa using hacc
  obtain ⟨mode, hm, hmem⟩ := (Option.any_eq_true _ _).mp hany
  rw [State.op?, hr']
  exact congrArg some (op_of_successMode ((hmode hok).symm.trans hm) (of_decide_eq_true hmem))

/-- The end of a request that has its reply. -/
theorem Matched.finish_reply (h : Matched s) (hph : s.phase = .finish r k (some m))
    (found : Bool) : Matched (finish s r k (some m) found) := by
  have hidle : Matched { s with phase := .idle } := h.leave rfl
  have hcmd := h.sent r k r.len (by rw [hph]; rfl)
  have hchild : m.ok = true → ∀ c, m.child = some c → (s.procs c).born = some k := by
    intro hok c hc
    rw [← h.own_reply hph hok]
    exact (h.replies m (Or.inr ⟨r, k, hph⟩)).2 c hc
  have hstop : ∀ {t : State}, Matched t → Matched (t.sigstop r.source) := fun ht =>
    ht.signal id rfl rfl rfl
  cases hop : r.op with
  | fork =>
    cases hok : m.ok with
    | false =>
      simp only [finish, hop, hok, Bool.false_eq_true, if_false]
      exact hidle
    | true =>
      -- the host may stop the source first
      set t := if m.parentInit then { s with phase := .idle }.sigstop r.source
        else { s with phase := .idle } with ht
      have htm : Matched t := by
        rw [ht]
        split_ifs
        · exact hstop hidle
        · exact hidle
      have hcmds : t.cmds = s.cmds := by
        rw [ht]
        split_ifs <;> rfl
      have hborn : ∀ c, (t.procs c).born = (s.procs c).born := by
        intro c
        rw [ht]
        split_ifs
        · rcases eq_or_ne c r.source with rfl | hne
          · rw [State.sigstop, State.setProc_self]
          · rw [State.sigstop, State.setProc_of_ne _ _ hne]
        · rfl
      rcases hc : m.child with _ | c
      · simpa only [finish, hop, hok, hc, if_true] using htm
      · have hbornc : (t.procs c).born = some k := (hborn c).trans (hchild hok c hc)
        cases found with
        | false => simpa only [finish, hop, hok, hc, if_true, Bool.false_eq_true, if_false] using htm
        | true =>
          simp only [finish, hop, hok, hc, if_true]
          exact htm.register _ ⟨k, r.snapshot, c⟩ (hcmds ▸ hcmd) rfl rfl hbornc
            (Or.inr ⟨hop, rfl⟩)
  | stashTemplate =>
    rcases hc : m.child with _ | c
    · simpa only [finish, hop, hc] using hidle
    · simp only [finish, hop, hc]
      split_ifs with hf
      · have hok : m.ok = true := (Bool.and_eq_true_iff.mp hf).1
        have hb := hchild hok c hc
        exact hidle.register s.active _ hcmd rfl rfl hb (Or.inl ⟨hop, hb⟩)
      · exact hidle
  | checkpointPause =>
    simp only [finish, hop]
    split_ifs
    · exact h.leave rfl
    · exact hidle
  | reapChildren =>
    simp only [finish, hop]
    split_ifs
    · exact hstop hidle
    · exact hidle
  | reapPid =>
    simp only [finish, hop]
    split_ifs
    · exact hstop hidle
    · exact hidle

/-- The end of a request that has waited in vain. -/
theorem Matched.finish_none (h : Matched s) (found : Bool) : Matched (finish s r k none found) := by
  have hidle : Matched { s with phase := .idle } := h.leave rfl
  cases hop : r.op with
  | reapChildren =>
    simp only [finish, hop]
    split_ifs
    · exact hidle.signal id rfl rfl rfl
    · exact hidle
  | reapPid =>
    simp only [finish, hop]
    split_ifs
    · exact hidle.signal id rfl rfl rfl
    · exact hidle
  | _ =>
    simp only [finish, hop]
    exact hidle

end

/-- A dumped process is restored as the active one. -/
theorem Matched.coldRestore (h : Matched s) (hph : s.phase = .idle) {buf : List Byte}
    (hbuf : buf ∈ s.images) (nsInit : Bool) :
    Matched { s.setProc s.next ⟨true, false, nsInit, buf, .loop, none⟩ with
      next := s.next + 1
      active := s.next } := by
  set t := s.setProc s.next ⟨true, false, nsInit, buf, .loop, none⟩ with ht
  have hself : t.procs s.next = ⟨true, false, nsInit, buf, .loop, none⟩ := State.setProc_self ..
  have hne : ∀ x, x ≠ s.next → t.procs x = s.procs x := fun x hx => State.setProc_of_ne _ _ hx
  have hkeep : ∀ c j, (s.procs c).born = some j → (t.procs c).born = some j := by
    intro c j hj
    rwa [hne c (Nat.ne_of_lt ((h.procs c).born_lt j hj))]
  exact
    { procs := fun x => by
        rcases eq_or_ne x s.next with rfl | hx
        · refine ⟨fun _ => Nat.lt_succ_self _, fun _ _ => Nat.lt_succ_self _, fun j c hj => ?_,
            fun j hj => ?_, fun b hb => h.images_lt buf hbuf b ?_⟩
          · change (t.procs s.next).pc = _ at hj
            rw [hself] at hj
            cases hj
          · change (t.procs s.next).pc.cmd? = _ at hj
            rw [hself] at hj
            cases hj
          · change b ∈ (t.procs s.next).buf at hb
            rwa [hself] at hb
        · have hp := h.procs x
          have heq := hne x hx
          exact ⟨fun ha => Nat.lt_succ_of_lt (hp.alive_lt (heq ▸ ha)),
            fun j hj => Nat.lt_succ_of_lt (hp.born_lt j (heq ▸ hj)),
            fun j c hj => hkeep c j (hp.named j c (heq ▸ hj)), fun j hj => hp.busy_lt j (heq ▸ hj),
            fun b hb => hp.buf_lt b (heq ▸ hb)⟩
      images_lt := h.images_lt
      fifo_lt := h.fifo_lt
      replies := fun m hm => (h.replies m hm).mono rfl hkeep
      sent := h.sent
      current := fun r k n hs => by cases (congrArg Phase.sent? hph).symm.trans hs
      line := h.line
      results := fun res hr => (h.results res hr).imp_left (hkeep _ _)
      templates := fun sid p hp => (h.templates sid p hp).mono rfl hkeep }

/-- What this module does not look at. -/
theorem Matched.inert (h : Matched s) {held : Bool} : Matched { s with held := held } :=
  { h with
    procs := fun x =>
      have hx := h.procs x
      ⟨hx.alive_lt, hx.born_lt, hx.named, hx.busy_lt, hx.buf_lt⟩ }

theorem Matched.erase (h : Matched s) (sid : String) :
    Matched { s with templates := s.templates.erase sid } :=
  { h with
    procs := fun x =>
      have hx := h.procs x
      ⟨hx.alive_lt, hx.born_lt, hx.named, hx.busy_lt, hx.buf_lt⟩
    templates := fun sid' p hp => by
      change (s.templates.erase sid).find? sid' = some p at hp
      rw [Dict.find?_erase] at hp
      split_ifs at hp
      exact h.templates sid' p hp }

theorem Matched.dump (h : Matched s) (p : ℕ) :
    Matched { s with images := s.images ++ [(s.procs p).buf] } :=
  { h with
    procs := fun x =>
      have hx := h.procs x
      ⟨hx.alive_lt, hx.born_lt, hx.named, hx.busy_lt, hx.buf_lt⟩
    images_lt := fun buf hbuf => by
      rcases List.mem_append.mp hbuf with hbuf | hbuf
      · exact h.images_lt buf hbuf
      · rw [List.mem_singleton.mp hbuf]
        exact (h.procs p).buf_lt }

/-! ### All steps -/

theorem Matched.procStep {p : ℕ} {a : Action} (h : Matched s) (halive : (s.procs p).alive = true)
    (hstep : procStep s p a = some s') : Matched s' := by
  have hp := h.procs p
  cases a with
  | read q => exact h.read halive hstep
  | spawn q =>
    simp only [Control.procStep] at hstep
    split at hstep
    · rename_i k hpc
      split at hstep
      · split_ifs at hstep with hop
        obtain rfl := Option.some.inj hstep
        exact h.spawn halive hpc hop
      · cases hstep
    · cases hstep
  | respond q ok lost =>
    simp only [Control.procStep] at hstep
    split at hstep
    · rename_i k hpc
      split at hstep
      · rename_i r hcmd
        split_ifs at hstep
        obtain rfl := Option.some.inj hstep
        exact h.answer halive (by rw [hpc]; rfl) rfl rfl rfl rfl 
          ⟨⟨r, hcmd, fun _ => rfl⟩, fun _ hf => by cases hf⟩
      · cases hstep
    · rename_i k c hpc
      split at hstep
      · rename_i r hcmd
        obtain rfl := Option.some.inj hstep
        refine h.answer halive (by rw [hpc]; rfl) rfl ?_ rfl rfl
          ⟨⟨r, hcmd, fun _ => rfl⟩, fun x hx => ?_⟩
        · by_cases hop : r.op = .stashTemplate <;> simp [hop, Pc.cmd?]
        · obtain rfl := Option.some.inj hx
          exact hp.named k c hpc
      · cases hstep
    · cases hstep
  | refuse q mode lost =>
    simp only [Control.procStep] at hstep
    split at hstep
    · rename_i k hpc
      obtain rfl := Option.some.inj hstep
      have hbusy : (s.procs p).pc.cmd? = some k := by rw [hpc]; rfl
      exact h.answer halive hbusy rfl rfl rfl rfl
        ⟨⟨_, List.getElem?_eq_getElem (hp.busy_lt k hbusy), fun hf => by cases hf⟩,
          fun _ hf => by cases hf⟩
    · cases hstep
  | selfStop q honoured =>
    simp only [Control.procStep] at hstep
    split_ifs at hstep
    obtain rfl := Option.some.inj hstep
    exact h.setProc s.fifo s.ran s.out id rfl (fun _ _ hc => by cases hc)
      (fun _ hj => by cases hj) hp.buf_lt (fun _ hb => hb) (fun _ hm => Or.inl hm)
      (fun _ _ hj => by cases hj) fun ha b hb he => h.pending_buf ha hb he
  | _ => cases hstep

theorem Matched.runnable {p : ℕ} {a : Action} (h : Matched s) (hstep : runnable s p a = some s') :
    Matched s' := by
  rw [Control.runnable] at hstep
  split_ifs at hstep with hrun
  exact h.procStep hrun.1 hstep

theorem Unambiguous.matched_step {a : Action} (h : Matched s) (hu : Unambiguous s a)
    (hstep : step s a = some s') : Matched s' := by
  cases a with
  | begin r =>
    rw [step] at hstep
    split_ifs at hstep
    obtain rfl := Option.some.inj hstep
    exact h.rephase _ [] (fun _ hm => by cases hm) (Or.inr rfl) fun _ _ _ hm => by cases hm
  | drainChunk =>
    simp only [step] at hstep
    split at hstep
    · obtain rfl := Option.some.inj hstep
      refine h.world rfl rfl rfl rfl rfl (fun _ _ hk => hk) (fun p => ?_)
        (fun _ => List.mem_of_mem_drop) (fun _ hm => Or.inl hm) fun j hj => ?_
      · have hp := h.procs p
        exact ⟨hp.alive_lt, hp.born_lt, hp.named, hp.busy_lt, hp.buf_lt⟩
      · exact hj.imp_right fun hj => hj.imp_left fun ⟨b, hb, he⟩ => ⟨b, List.mem_of_mem_drop hb, he⟩
    · cases hstep
  | openWrite =>
    simp only [step] at hstep
    split at hstep
    · rename_i r hph
      split_ifs at hstep
      obtain rfl := Option.some.inj hstep
      rw [Unambiguous, hph] at hu
      exact h.openWrite hu
    · cases hstep
  | openFail =>
    simp only [step] at hstep
    split at hstep
    · split_ifs at hstep
      obtain rfl := Option.some.inj hstep
      exact h.leave rfl
    · cases hstep
  | writeChunk n =>
    simp only [step] at hstep
    split at hstep
    · rename_i r k m hph
      simp only [Option.ite_none_right_eq_some, Option.some.injEq] at hstep
      obtain ⟨hn, rfl⟩ := hstep
      refine h.writeChunk (n := n) hph ?_ fun _ _ _ => ?_
      · split_ifs with hlen hw
        · rw [hlen]
          rfl
        · rw [hlen]
          rfl
        · rfl
      · split_ifs <;> intro hx <;> cases hx
    · cases hstep
  | writeFail =>
    simp only [step] at hstep
    split at hstep
    · obtain rfl := Option.some.inj hstep
      exact h.leave rfl
    · cases hstep
  | wake gone =>
    simp only [step] at hstep
    split at hstep
    · rename_i r k hph
      split_ifs at hstep
      · obtain rfl := Option.some.inj hstep
        exact h.leave rfl
      · obtain rfl := Option.some.inj hstep
        have hcont : Matched (s.sigcont r.source) := h.signal id rfl rfl rfl
        refine hcont.rephase _ s.out (fun _ hm => hm) (Or.inl ?_) fun _ _ _ hm => by cases hm
        rw [show (s.sigcont r.source).phase = _ from hph]
        rfl
    · cases hstep
  | accept =>
    simp only [step] at hstep
    split at hstep
    · rename_i r k m out hph hout
      have hsub : ∀ x ∈ out, x ∈ s.out := fun x hx => by
        rw [hout]
        exact List.mem_cons_of_mem _ hx
      split_ifs at hstep with hacc
      · obtain rfl := Option.some.inj hstep
        refine h.rephase _ out hsub (Or.inl (by rw [hph]; rfl)) fun r' k' x hx => ?_
        obtain ⟨rfl, rfl, hm⟩ := Phase.finish.inj hx
        obtain rfl := Option.some.inj hm
        exact ⟨hph, by rw [hout]; exact List.mem_cons_self .., hacc⟩
      · obtain rfl := Option.some.inj hstep
        exact h.rephase s.phase out hsub (Or.inl rfl) fun _ _ _ hx => by cases hph.symm.trans hx
    · cases hstep
  | timeout =>
    simp only [step] at hstep
    split at hstep
    · rename_i r k hph
      obtain rfl := Option.some.inj hstep
      exact h.rephase _ s.out (fun _ hm => hm) (Or.inl (by rw [hph]; rfl))
        fun _ _ _ hx => by cases hx
    · cases hstep
  | finish found =>
    simp only [step] at hstep
    split at hstep
    · rename_i r k line hph
      obtain rfl := Option.some.inj hstep
      rcases line with _ | m
      · exact h.finish_none found
      · exact h.finish_reply hph found
    · cases hstep
  | endQuiesce =>
    simp only [step] at hstep
    split at hstep
    · obtain rfl := Option.some.inj hstep
      refine Matched.leave ?_ rfl
      split_ifs
      · exact h.signal id rfl rfl rfl
      · exact h
    · cases hstep
  | hold =>
    rw [step] at hstep
    split_ifs at hstep
    obtain rfl := Option.some.inj hstep
    exact (h.signal (q := { s.procs s.active with stopped := true }) id rfl rfl rfl).inert
  | release =>
    rw [step] at hstep
    split_ifs at hstep
    obtain rfl := Option.some.inj hstep
    exact (h.signal (q := { s.procs s.active with stopped := false }) id rfl rfl rfl).inert
  | stopTemplate p =>
    rw [step] at hstep
    split_ifs at hstep
    obtain rfl := Option.some.inj hstep
    exact h.signal id rfl rfl rfl
  | discard sid =>
    simp only [step] at hstep
    split_ifs at hstep
    split at hstep
    · rename_i p _
      obtain rfl := Option.some.inj hstep
      exact (h.signal (q := { s.procs p with alive := false }) (fun ha => by cases ha) rfl rfl rfl).erase sid
    · obtain rfl := Option.some.inj hstep
      exact h
  | die p =>
    obtain rfl := Option.some.inj hstep
    exact h.signal (fun ha => by cases ha) rfl rfl rfl
  | dump p =>
    obtain rfl := Option.some.inj hstep
    exact h.dump p
  | coldRestore image nsInit =>
    rw [step] at hstep
    split_ifs at hstep with hidle
    obtain ⟨buf, hbuf, rfl⟩ := Option.map_eq_some_iff.mp hstep
    exact h.coldRestore hidle.1 (List.mem_of_getElem? hbuf) nsInit
  | read p => exact h.runnable hstep
  | spawn p => exact h.runnable hstep
  | respond p ok lost => exact h.runnable hstep
  | refuse p mode lost => exact h.runnable hstep
  | selfStop p honoured => exact h.runnable hstep

end

/-- **Replies answer the command that was sent**, in every unambiguous run: no reply to an earlier
command is accepted as the reply to a later one of its kind, a request returns the process that the
handler of its own command created, and the template of a snapshot was made for that snapshot. -/
theorem replies_match_commands {s₀ s : State} {as : List Action} (h₀ : Initial s₀)
    (hC : Along step Unambiguous s₀ as) (hrun : exec step s₀ as = some s) :
    (∀ r k m, s.phase = .finish r k (some m) → s.op? m.origin = some r.op → m.origin = k) ∧
    (∀ res ∈ s.results, (s.procs res.child).born = some res.cmd ∧
      s.cmds[res.cmd]?.map Request.snapshot = some res.snapshot) ∧
    (∀ sid p, s.templates.find? sid = some p → Registered s sid p) := by
  have h : Matched s :=
    invariant_along (fun h hu hstep => hu.matched_step h hstep) h₀.matched hC hrun
  exact ⟨fun r k m hph => (h.line r k m hph).2, h.results, h.templates⟩

/-! ### Two runs -/

/-- A stash that is given up, and answered when nobody waits any more. -/
def exampleLateAnswer : List Action :=
  [.begin (exampleRequest .stashTemplate (some "a")), .openWrite, .writeChunk 3, .timeout,
    .finish false, .read 0, .spawn 0, .respond 0 true false, .selfStop 1 true]

/-- A stash that gets its reply. -/
def exampleStash : List Action :=
  [.begin (exampleRequest .stashTemplate (some "b")), .openWrite, .writeChunk 3, .read 0, .spawn 0,
    .respond 0 true false, .accept, .finish true]

theorem replies_match_commands_stash :
    ∃ s, exec step exampleAgent (exampleLateAnswer ++ exampleStash) = some s ∧
      s.templates.find? "b" = some 2 ∧ Registered s "b" 2 := by
  obtain ⟨s, hs⟩ := Option.isSome_iff_exists.mp
    (show (exec step exampleAgent (exampleLateAnswer ++ exampleStash)).isSome by decide +kernel)
  have hb : (exec step exampleAgent (exampleLateAnswer ++ exampleStash)).all (fun s =>
      s.templates.find? "b" = some 2) = true := by
    decide +kernel
  rw [hs, Option.all_some, decide_eq_true_eq] at hb
  exact ⟨s, hs, hb,
    (replies_match_commands exampleAgent_initial (by decide +kernel) hs).2.2 "b" 2 hb⟩

/-- A stash that is given up, and answered while the next one waits. -/
def exampleStaleAnswer : List Action :=
  [.begin (exampleRequest .stashTemplate (some "a")), .openWrite, .writeChunk 3, .read 0, .timeout,
    .finish false, .begin (exampleRequest .stashTemplate (some "b")), .openWrite, .writeChunk 3,
    .spawn 0, .respond 0 true false, .accept, .finish true]

/-- **A late reply is accepted**: the request for "b" returns the copy that was made for "a", and
registers it as the template of "b". -/
theorem late_reply_is_accepted :
    ¬ ∀ (s₀ s : State) (as : List Action), Initial s₀ → exec step s₀ as = some s →
      ∀ res ∈ s.results, (s.procs res.child).born = some res.cmd := by
  intro h
  obtain ⟨s, hs⟩ := Option.isSome_iff_exists.mp
    (show (exec step exampleAgent exampleStaleAnswer).isSome by decide +kernel)
  have hrun : (exec step exampleAgent exampleStaleAnswer).all (fun s =>
      s.templates.find? "b" = some 1 ∧ ⟨1, some "b", 1⟩ ∈ s.results ∧
        (s.procs 1).born = some 0) = true := by
    decide +kernel
  rw [hs, Option.all_some, decide_eq_true_eq] at hrun
  have hborn := h exampleAgent s _ exampleAgent_initial hs ⟨1, some "b", 1⟩ hrun.2.1
  cases hrun.2.2.symm.trans hborn

end Control

end DeltaBox
