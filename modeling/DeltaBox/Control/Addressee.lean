import DeltaBox.Control.Readers

/-!
# Commands reach only their addressee

The discipline of the readers breaks when a request ends too early. A reap that times out before its
template has read the command leaves the command in the FIFO and the template awake, and the cleanup
then resumes the active process. A fork that times out leaves a child that nobody knows. A template
that refuses a command stays awake. And a SIGCONT that comes after the source has already stopped
itself wakes it again. `Settled` excludes exactly these.

## Main results

* `Settled.inv_step` — a settled step keeps the invariant
* `commands_reach_addressee` — in a settled run every command is executed by its addressee or by
  nobody
* `reap_reaches_active` — a reap for a template is executed by the active process
-/

namespace DeltaBox

namespace Control

open DeltaBox.Frame Machine

/-- The SIGCONT of a request finds its process, and does not wake it after it has read the command
and stopped. -/
def WakesInTime (s : State) (gone : Bool) : Phase → Prop
  | .wake r k => gone = false ∧ (s.Read k → (s.procs r.source).stopped = false)
  | _ => True

/-- A request ends after its command was read, and a fork ends with its own reply and, unless that
reports a failure, with the child. -/
def EndsInTime (s : State) (found : Bool) : Phase → Prop
  | .finish r k line => s.Read k ∧ (r.op = .fork →
      (line.any fun m => m.origin = k && (!m.ok || found)) = true)
  | _ => True

/-- The steps of a run in which no request leaves anything behind. -/
def Settled (s : State) : Action → Prop
  | .wake gone => WakesInTime s gone s.phase
  | .finish found => EndsInTime s found s.phase
  | .refuse p _ _ => p = s.active
  | _ => True

instance (s : State) (gone : Bool) : ∀ ph, Decidable (WakesInTime s gone ph)
  | .wake .. => inferInstanceAs (Decidable (_ ∧ _))
  | .idle | .drain .. | .write .. | .wait .. | .finish .. | .quiesce .. => isTrue trivial

instance (s : State) (found : Bool) : ∀ ph, Decidable (EndsInTime s found ph)
  | .finish .. => inferInstanceAs (Decidable (_ ∧ _))
  | .idle | .drain .. | .write .. | .wake .. | .wait .. | .quiesce .. => isTrue trivial

instance (s : State) : ∀ a, Decidable (Settled s a)
  | .wake gone => inferInstanceAs (Decidable (WakesInTime s gone s.phase))
  | .finish found => inferInstanceAs (Decidable (EndsInTime s found s.phase))
  | .refuse p _ _ => inferInstanceAs (Decidable (p = s.active))
  | .begin .. | .drainChunk | .openWrite | .openFail | .writeChunk .. | .writeFail | .accept
  | .timeout | .endQuiesce | .hold | .release | .stopTemplate .. | .discard .. | .die .. | .dump ..
  | .coldRestore .. | .read .. | .spawn .. | .respond .. | .selfStop .. => isTrue trivial

/-! ### Steps of the processes -/

section

variable {s s' : State}

section

variable {p : ℕ}

/-- A line is completed only by the addressee of the command under way. -/
theorem Inv.read_line (h : Inv s) (halive : (s.procs p).alive = true)
    (hstop : (s.procs p).stopped = false) (hpc : (s.procs p).pc = .loop) {line rest : List Byte}
    (hcut : cut ((s.procs p).buf ++ s.fifo.take 4096) = some (line, rest)) :
    rest = [] ∧ s.fifo.drop 4096 = [] ∧ ∃ r k n, s.phase.sent? = some (r, k, n) ∧ ¬s.Read k ∧
      p = r.source ∧ (∀ r' k' n', s.phase ≠ .write r' k' n') ∧ ∀ j, whole line = some j → j = k := by
  rcases hsent : s.phase.sent? with _ | ⟨r, k, n⟩
  · have htake := (h.fifo_idle hsent).mono (List.take_subset 4096 s.fifo)
    rw [cut_eq_none.mpr (noLine_append.mpr ⟨h.buf p, htake⟩)] at hcut
    cases hcut
  obtain ⟨hrest, hdrop, hne, hlen, hwhole⟩ :=
    cut_append_of_suffix (h.buf p) (h.fifo_sent r k n hsent) hcut
  have hunread : ¬s.Read k := fun hk => hne (h.fifo_read r k n hsent hk)
  refine ⟨hrest, hdrop, r, k, n, rfl, hunread, ?_, fun r' k' n' hw => ?_, hwhole⟩
  · have hall := h.readers p (Proc.not_parked_of_loop halive hstop hpc)
    have hborn : (s.procs p).born ≠ some k := fun hb => hunread (h.born_read p k hb)
    cases hph : s.phase with
    | idle => rw [hph] at hsent; cases hsent
    | quiesce q => rw [hph] at hsent; cases hsent
    | drain r' => rw [hph] at hsent; cases hsent
    | write r' k' n' =>
      rw [Allowed, hph] at hall
      rw [hph] at hsent
      obtain ⟨rfl, -, -⟩ : r' = r ∧ k' = k ∧ n' = n := by simpa [Phase.sent?] using hsent
      exact hall.1
    | wake r' k' =>
      rw [Allowed, hph] at hall
      rw [hph] at hsent
      obtain ⟨rfl, rfl, -⟩ : r' = r ∧ k' = k ∧ r'.len = n := by simpa [Phase.sent?] using hsent
      exact (hall.resolve_right fun hb => hborn hb.2).1
    | wait r' k' =>
      rw [Allowed, hph] at hall
      rw [hph] at hsent
      obtain ⟨rfl, rfl, -⟩ : r' = r ∧ k' = k ∧ r'.len = n := by simpa [Phase.sent?] using hsent
      exact hall.resolve_right fun hb => hborn hb.2
    | finish r' k' o =>
      rw [Allowed, hph] at hall
      rw [hph] at hsent
      obtain ⟨rfl, rfl, -⟩ : r' = r ∧ k' = k ∧ r'.len = n := by simpa [Phase.sent?] using hsent
      exact hall.resolve_right fun hb => hborn hb.2
  · -- a command that is still being written has no newline in the FIFO
    have hs : s.phase.sent? = some (r', k', n') := by rw [hw]; rfl
    obtain ⟨rfl, rfl, rfl⟩ : r = r' ∧ k = k' ∧ n = n' := by simpa using hsent.symm.trans hs
    have := h.writing_lt r k n hw
    omega

/-- Reading without completing a line, or completing one that is no command. -/
theorem Inv.read_none (h : Inv s) {fifo buf : List Byte} (hbuf : NoLine buf)
    (hfifo : fifo <:+ s.fifo) :
    Inv ({ s with fifo := fifo }.setProc p { s.procs p with buf := buf }) := by
  have h₁ : Inv { s with fifo := fifo } :=
    { h with
      fifo_idle := fun hs => (h.fifo_idle hs).mono hfifo.subset
      fifo_sent := fun r k n hs => hfifo.trans (h.fifo_sent r k n hs)
      fifo_read := fun r k n hs hk => List.suffix_nil.mp (h.fifo_read r k n hs hk ▸ hfifo) }
  exact h₁.setProc ⟨id, rfl, rfl, fun _ => hbuf, Or.inl rfl, id⟩ id

/-- Reading the command under way. -/
theorem Inv.read_some (h : Inv s) (halive : (s.procs p).alive = true)
    (hpc : (s.procs p).pc = .loop) {r : Request} {k n : ℕ}
    (hsent : s.phase.sent? = some (r, k, n)) (hunread : ¬s.Read k) (hp : p = r.source)
    (hwrite : ∀ r' k' n', s.phase ≠ .write r' k' n') :
    Inv ({ s with fifo := [], ran := s.ran ++ [(k, p)] }.setProc p
      { s.procs p with buf := [], pc := .handle k }) := by
  set s' := { s with fifo := [], ran := s.ran ++ [(k, p)] }.setProc p
    { s.procs p with buf := [], pc := .handle k } with hs'
  have hself : s'.procs p = { s.procs p with buf := [], pc := .handle k } := State.setProc_self ..
  have hne : ∀ x, x ≠ p → s'.procs x = s.procs x := fun x hx => State.setProc_of_ne _ _ hx
  have hborn : ∀ x, (s'.procs x).born = (s.procs x).born := by
    intro x
    rcases eq_or_ne x p with rfl | hx
    · rw [hself]
    · rw [hne x hx]
  have hinit : ∀ x, (s'.procs x).nsInit = (s.procs x).nsInit := by
    intro x
    rcases eq_or_ne x p with rfl | hx
    · rw [hself]
    · rw [hne x hx]
  have hbusy : ∀ x j, (s'.procs x).pc.cmd? = some j →
      (x = p ∧ j = k) ∨ (x ≠ p ∧ (s.procs x).pc.cmd? = some j) := by
    intro x j hj
    rcases eq_or_ne x p with rfl | hx
    · rw [hself] at hj
      exact Or.inl ⟨rfl, (Option.some.inj hj).symm⟩
    · rw [hne x hx] at hj
      exact Or.inr ⟨hx, hj⟩
  have hread' : ∀ j, s.Read j → s'.Read j := by
    intro j hj
    obtain ⟨q, hq⟩ := State.read_iff.mp hj
    exact State.read_iff.mpr ⟨q, List.mem_append_left _ hq⟩
  have hcmd := h.sent r k n hsent
  have hreq := Phase.request?_of_sent? hsent
  have hreply : ∀ m, ReplyOk s m → ReplyOk s' m := by
    refine fun m hm => ⟨hread' _ hm.1, fun r' hr' hop => ?_⟩
    obtain ⟨hb, hok, hfail⟩ := hm.2 r' hr' hop
    refine ⟨fun x hx => ?_, fun hmok => ?_, fun hmok c => ?_⟩
    · rcases hbusy x _ hx with ⟨-, hj⟩ | ⟨-, hj⟩
      · exact hunread (hj ▸ hm.1)
      · exact hb x hj
    · obtain ⟨hi, c, hc, hcb⟩ := hok hmok
      exact ⟨by rw [hinit]; exact hi, c, hc, by rw [hborn]; exact hcb⟩
    · rw [hborn]
      exact hfail hmok c
  have heq : ∀ {r' k' n'}, s'.phase.sent? = some (r', k', n') → r = r' ∧ k = k' ∧ n = n' := by
    intro r' k' n' hs
    simpa using hsent.symm.trans hs
  exact
    { alive_lt := fun x hx => by
        rcases eq_or_ne x p with rfl | hxp
        · exact h.alive_lt x halive
        · exact h.alive_lt x (by rwa [hne x hxp] at hx)
      active_lt := h.active_lt
      ran := fun j q hq => by
        rcases List.mem_append.mp hq with hq | hq
        · exact h.ran j q hq
        · obtain ⟨rfl, rfl⟩ := Prod.mk.inj (List.mem_singleton.mp hq)
          exact ⟨r, hcmd, hp.symm⟩
      ran_lt := fun j q hq => by
        rcases List.mem_append.mp hq with hq | hq
        · exact h.ran_lt j q hq
        · obtain ⟨-, rfl⟩ := Prod.mk.inj (List.mem_singleton.mp hq)
          exact h.alive_lt q halive
      busy := fun x j hj => by
        rcases hbusy x j hj with ⟨rfl, rfl⟩ | ⟨-, hj⟩
        · exact List.mem_append_right _ (List.mem_singleton.mpr rfl)
        · exact List.mem_append_left _ (h.busy x j hj)
      reply_born := fun x j c hj => by
        rcases eq_or_ne x p with rfl | hx
        · rw [hself] at hj
          cases hj
        · rw [hne x hx] at hj
          rw [hborn]
          exact h.reply_born x j c hj
      born_lt := fun x j hj => h.born_lt x j (hborn x ▸ hj)
      born_read := fun x j hj => hread' j (h.born_read x j (hborn x ▸ hj))
      born_busy := fun x y j hx hy => by
        rw [hborn] at hx
        rcases hbusy y j (by rw [hy]; rfl) with ⟨-, rfl⟩ | ⟨hyp, -⟩
        · exact hunread (h.born_read x _ hx)
        · rw [hne y hyp] at hy
          exact h.born_busy x y j hx hy
      born_inj := fun x y j hx hy => h.born_inj x y j (hborn x ▸ hx) (hborn y ▸ hy)
      buf := fun x => by
        rcases eq_or_ne x p with rfl | hx
        · rw [hself]
          exact noLine_nil
        · rw [hne x hx]
          exact h.buf x
      images := h.images
      fifo_idle := fun _ => noLine_nil
      fifo_sent := fun r' k' n' _ => List.nil_suffix
      fifo_read := fun r' k' n' _ _ => rfl
      sent := h.sent
      writing := fun r' k' n' hs => absurd hs (hwrite r' k' n')
      writing_lt := fun r' k' n' hs => absurd hs (hwrite r' k' n')
      readers := fun x hx => by
        change Allowed { s with procs := s'.procs } x
        have hall : Allowed s x := by
          rcases eq_or_ne x p with rfl | hxp
          · exact h.readers x (Proc.not_parked_of_loop halive (by
              by_contra hst
              exact hx (Or.inl (Or.inr (by rw [hself]; simpa using hst)))) hpc)
          · exact h.readers x (by rwa [← hne x hxp])
        rw [Allowed, hborn]
        exact hall
      len_pos := h.len_pos
      away := fun r' hr' hne' => by
        obtain ⟨hq, hop⟩ := h.away r' hr' hne'
        obtain rfl := Option.some.inj (hreq.symm.trans hr')
        have hx : s.active ≠ p := fun heq => hne' (hp.symm.trans heq.symm)
        rw [show s'.procs s'.active = s.procs s.active from hne _ hx]
        exact ⟨hq, hop⟩
      unheld := h.unheld
      held := fun hh => by
        rcases eq_or_ne s.active p with heq | hx
        · have hfree := h.unheld r hreq (Or.inl (hp.symm.trans heq.symm))
          cases hfree.symm.trans hh
        · rw [show s'.procs s'.active = s.procs s.active from hne _ hx]
          exact h.held hh
      quiesce := h.quiesce
      done := fun r' k' n' hs hk hor hi => by
        obtain ⟨rfl, rfl, rfl⟩ := heq hs
        have hsrc : r.source ≠ s.active := by
          rcases hor with hor | ⟨-, c, hc⟩
          · exact hor
          · exact absurd (h.born_read c k (hborn c ▸ hc)) hunread
        refine Or.inr ⟨hi, ?_⟩
        rw [← hp, hself]
        exact ⟨r, hcmd, (h.away r hreq hsrc).2.1⟩
      busy_sent := fun r' k' n' hs hk j hj => by
        obtain ⟨rfl, rfl, rfl⟩ := heq hs
        rw [← hp, hself] at hj
        exact (Option.some.inj hj).symm
      fork_busy := fun x j r' hj hr' hop => by
        rcases hbusy x j hj with ⟨-, rfl⟩ | ⟨-, hj⟩
        · exact ⟨r, n, hsent⟩
        · exact h.fork_busy x j r' hj hr' hop
      replies := fun m hm => hreply m (h.replies m hm)
      refused := h.refused }

theorem Inv.read (h : Inv s) (halive : (s.procs p).alive = true)
    (hstop : (s.procs p).stopped = false) (hstep : procStep s p (.read p) = some s') : Inv s' := by
  rw [procStep] at hstep
  split_ifs at hstep with hpc
  have hbuf := cut_eq_none.mpr (h.buf p)
  rcases hcut : cut ((s.procs p).buf ++ s.fifo.take 4096) with _ | ⟨line, rest⟩
  · simp only [readCtrlLine, hbuf, hcut] at hstep
    obtain rfl := Option.some.inj hstep
    exact h.read_none (cut_eq_none.mp hcut) (List.drop_suffix _ _)
  · obtain ⟨rfl, hdrop, r, k, n, hsent, hunread, hp, hwrite, hwhole⟩ :=
      h.read_line halive hstop hpc hcut
    simp only [readCtrlLine, hbuf, hcut, hdrop] at hstep
    rcases hw : whole line with _ | j
    · simp only [hw] at hstep
      obtain rfl := Option.some.inj hstep
      exact h.read_none noLine_nil List.nil_suffix
    · simp only [hw] at hstep
      obtain rfl := Option.some.inj hstep
      obtain rfl := hwhole j hw
      exact h.read_some halive hpc hsent hunread hp hwrite

/-- At most one process works on a command. -/
theorem Inv.busy_unique (h : Inv s) {x y k : ℕ} (hx : (s.procs x).pc.cmd? = some k)
    (hy : (s.procs y).pc.cmd? = some k) : x = y := by
  obtain ⟨r, hr, rfl⟩ := h.ran k x (h.busy x k hx)
  obtain ⟨r', hr', rfl⟩ := h.ran k y (h.busy y k hy)
  rw [Option.some.inj (hr.symm.trans hr')]

/-- A handler creates a process. -/
theorem Inv.spawn (h : Inv s) (halive : (s.procs p).alive = true) {k : ℕ} {r : Request}
    (hpc : (s.procs p).pc = .handle k) (hcmd : s.cmds[k]? = some r)
    (hop : r.op = .fork ∨ r.op = .stashTemplate) :
    Inv (({ s with next := s.next + 1 }.setProc p
      { s.procs p with pc := .reply k s.next }).setProc s.next (spawned r k (s.procs p))) := by
  set s' := ({ s with next := s.next + 1 }.setProc p
    { s.procs p with pc := .reply k s.next }).setProc s.next (spawned r k (s.procs p)) with hs'
  have hplt := h.alive_lt p halive
  have hpn : p ≠ s.next := Nat.ne_of_lt hplt
  have hchild : s'.procs s.next = spawned r k (s.procs p) := State.setProc_self ..
  have hself : s'.procs p = { s.procs p with pc := .reply k s.next } := by
    rw [hs', State.setProc_of_ne _ _ hpn, State.setProc_self]
  have hne : ∀ x, x ≠ p → x ≠ s.next → s'.procs x = s.procs x := by
    intro x hx hxn
    rw [hs', State.setProc_of_ne _ _ hxn, State.setProc_of_ne _ _ hx]
  have hspawn := spawned_spec k (s.procs p) hop
  have hran : (k, p) ∈ s.ran := h.busy p k (by rw [hpc]; rfl)
  have hread : s.Read k := State.read_iff.mpr ⟨p, hran⟩
  have hsrc : r.source = p := by
    obtain ⟨r', hr', hp⟩ := h.ran k p hran
    rw [Option.some.inj (hcmd.symm.trans hr')]
    exact hp
  -- nothing was created for this command yet
  have hnone : ∀ x, (s.procs x).born ≠ some k := fun x hx => h.born_busy x p k hx hpc
  have hborn : ∀ x j, (s'.procs x).born = some j →
      (x = s.next ∧ j = k) ∨ (x ≠ s.next ∧ (s.procs x).born = some j) := by
    intro x j hj
    rcases eq_or_ne x s.next with rfl | hx
    · rw [hchild, hspawn.1] at hj
      exact Or.inl ⟨rfl, (Option.some.inj hj).symm⟩
    · refine Or.inr ⟨hx, ?_⟩
      rcases eq_or_ne x p with rfl | hxp
      · rwa [hself] at hj
      · rwa [hne x hxp hx] at hj
  have hborn' : ∀ x j, (s.procs x).born = some j → (s'.procs x).born = some j := by
    intro x j hj
    have hx : x ≠ s.next := Nat.ne_of_lt (h.born_lt x j hj)
    rcases eq_or_ne x p with rfl | hxp
    · rwa [hself]
    · rwa [hne x hxp hx]
  have hbusy : ∀ x j, (s'.procs x).pc.cmd? = some j → (s.procs x).pc.cmd? = some j := by
    intro x j hj
    rcases eq_or_ne x s.next with rfl | hx
    · rw [hchild, hspawn.2.1] at hj
      cases hj
    · rcases eq_or_ne x p with rfl | hxp
      · rw [hself] at hj
        rw [hpc]
        exact hj
      · rwa [hne x hxp hx] at hj
  have hinit : ∀ x, x ≠ s.next → (s'.procs x).nsInit = (s.procs x).nsInit := by
    intro x hx
    rcases eq_or_ne x p with rfl | hxp
    · rw [hself]
    · rw [hne x hxp hx]
  have hpark : ∀ x, x ≠ s.next → (s.procs x).Parked s.cmds → (s'.procs x).Parked s.cmds := by
    intro x hx hpx
    rcases eq_or_ne x p with rfl | hxp
    · rw [hself]
      rcases hpx with hq | ⟨hi, hstops⟩
      · exact Or.inl hq
      · rw [hpc] at hstops
        exact Or.inr ⟨hi, hstops⟩
    · rwa [hne x hxp hx]
  have hquiet : (s.procs s.active).Quiet → (s'.procs s.active).Quiet := by
    intro hq
    rcases eq_or_ne s.active p with heq | hxp
    · rw [heq, hself]
      exact heq ▸ hq
    · rwa [hne _ hxp (Nat.ne_of_lt h.active_lt)]
  have hfork : r.op = .fork → ∃ n, s.phase.sent? = some (r, k, n) := by
    intro hfk
    obtain ⟨r', n, hs⟩ := h.fork_busy p k r (by rw [hpc]; rfl) hcmd hfk
    rw [← Option.some.inj ((h.sent r' k n hs).symm.trans hcmd)]
    exact ⟨n, hs⟩
  have hreply : ∀ m, ReplyOk s m → ReplyOk s' m := by
    refine fun m hm => ⟨hm.1, fun r' hr' hop' => ?_⟩
    obtain ⟨hb, hok, hfail⟩ := hm.2 r' hr' hop'
    have hmk : m.origin ≠ k := by
      rintro rfl
      exact hb p (by rw [hpc]; rfl)
    have hsrc' : r'.source ≠ s.next := by
      obtain ⟨q, hq⟩ := State.read_iff.mp hm.1
      obtain ⟨r'', hr'', rfl⟩ := h.ran _ q hq
      rw [Option.some.inj (hr'.symm.trans hr'')]
      exact Nat.ne_of_lt (h.ran_lt _ _ hq)
    refine ⟨fun x hx => hb x (hbusy x _ hx), fun hmok => ?_, fun hmok c hc => ?_⟩
    · obtain ⟨hi, c, hc, hcb⟩ := hok hmok
      exact ⟨by rw [hinit _ hsrc']; exact hi, c, hc, hborn' c _ hcb⟩
    · rcases hborn c _ hc with ⟨-, hj⟩ | ⟨-, hj⟩
      · exact hmk hj
      · exact hfail hmok c hj
  exact
    { alive_lt := fun x hx => by
        change x < s.next + 1
        rcases eq_or_ne x s.next with rfl | hxn
        · exact Nat.lt_succ_self _
        · rcases eq_or_ne x p with rfl | hxp
          · omega
          · have := h.alive_lt x (by rwa [hne x hxp hxn] at hx)
            omega
      active_lt := Nat.lt_succ_of_lt h.active_lt
      ran := h.ran
      ran_lt := fun j q hq => Nat.lt_succ_of_lt (h.ran_lt j q hq)
      busy := fun x j hj => h.busy x j (hbusy x j hj)
      reply_born := fun x j c hj => by
        rcases eq_or_ne x s.next with rfl | hxn
        · have := hspawn.2.1
          rw [← hchild, hj] at this
          cases this
        · rcases eq_or_ne x p with rfl | hxp
          · rw [hself] at hj
            obtain ⟨rfl, rfl⟩ := Pc.reply.inj hj
            rw [hchild]
            exact hspawn.1
          · rw [hne x hxp hxn] at hj
            exact hborn' c j (h.reply_born x j c hj)
      born_lt := fun x j hj => by
        change x < s.next + 1
        rcases hborn x j hj with ⟨rfl, -⟩ | ⟨-, hj⟩
        · exact Nat.lt_succ_self _
        · exact Nat.lt_succ_of_lt (h.born_lt x j hj)
      born_read := fun x j hj => by
        rcases hborn x j hj with ⟨-, rfl⟩ | ⟨-, hj⟩
        · exact hread
        · exact h.born_read x j hj
      born_busy := fun x y j hx hy => by
        have hy' := hbusy y j (by rw [hy]; rfl)
        rcases hborn x j hx with ⟨-, rfl⟩ | ⟨-, hx⟩
        · obtain rfl := h.busy_unique hy' (show (s.procs p).pc.cmd? = some _ by rw [hpc]; rfl)
          rw [hself] at hy
          cases hy
        · rcases eq_or_ne y s.next with rfl | hyn
          · have := hspawn.2.1
            rw [← hchild, hy] at this
            cases this
          · rcases eq_or_ne y p with rfl | hyp
            · rw [hself] at hy
              cases hy
            · rw [hne y hyp hyn] at hy
              exact h.born_busy x y j hx hy
      born_inj := fun x y j hx hy => by
        rcases hborn x j hx with ⟨rfl, rfl⟩ | ⟨-, hx'⟩
        · rcases hborn y _ hy with ⟨rfl, -⟩ | ⟨-, hy'⟩
          · rfl
          · exact absurd hy' (hnone y)
        · rcases hborn y j hy with ⟨-, rfl⟩ | ⟨-, hy'⟩
          · exact absurd hx' (hnone x)
          · exact h.born_inj x y j hx' hy'
      buf := fun x => by
        rcases eq_or_ne x s.next with rfl | hxn
        · rw [hchild, hspawn.2.2]
          exact h.buf p
        · rcases eq_or_ne x p with rfl | hxp
          · rw [hself]
            exact h.buf x
          · rw [hne x hxp hxn]
            exact h.buf x
      images := h.images
      fifo_idle := h.fifo_idle
      fifo_sent := h.fifo_sent
      fifo_read := h.fifo_read
      sent := h.sent
      writing := h.writing
      writing_lt := h.writing_lt
      readers := fun x hx => by
        rcases eq_or_ne x s.next with rfl | hxn
        · -- a stashed copy is parked, a forked child belongs to the request under way
          rw [hchild] at hx
          rcases hop with hop | hop
          · obtain ⟨n, hs⟩ := hfork hop
            cases hph : s.phase with
            | idle => rw [hph] at hs; cases hs
            | quiesce q => rw [hph] at hs; cases hs
            | drain r' => rw [hph] at hs; cases hs
            | write r' k' n' =>
              rw [hph] at hs
              obtain ⟨rfl, rfl, rfl⟩ : r' = r ∧ k' = k ∧ n' = n := by simpa [Phase.sent?] using hs
              exact absurd hread (h.writing r' k' n' hph)
            | wake r' k' =>
              rw [hph] at hs
              obtain ⟨rfl, rfl, -⟩ : r' = r ∧ k' = k ∧ r'.len = n := by
                simpa [Phase.sent?] using hs
              rw [Allowed, show s'.phase = _ from hph, hchild]
              exact Or.inr ⟨hop, hspawn.1⟩
            | wait r' k' =>
              rw [hph] at hs
              obtain ⟨rfl, rfl, -⟩ : r' = r ∧ k' = k ∧ r'.len = n := by
                simpa [Phase.sent?] using hs
              rw [Allowed, show s'.phase = _ from hph, hchild]
              exact Or.inr ⟨hop, hspawn.1⟩
            | finish r' k' o =>
              rw [hph] at hs
              obtain ⟨rfl, rfl, -⟩ : r' = r ∧ k' = k ∧ r'.len = n := by
                simpa [Phase.sent?] using hs
              rw [Allowed, show s'.phase = _ from hph, hchild]
              exact Or.inr ⟨hop, hspawn.1⟩
          · refine absurd ?_ hx
            by_cases hv : r.variant = .freshPidns
            · exact Or.inl (Or.inr (by simp [spawned, hop, hv]))
            · exact Or.inr ⟨by simp [spawned, hop, hv], by simp [spawned, hop, hv, Pc.Stops]⟩
        · have hall := h.readers x fun hpx => hx (hpark x hxn hpx)
          have hb : ∀ j, (s.procs x).born = some j → (s'.procs x).born = some j := hborn' x
          change Allowed s' x
          cases hph : s.phase with
          | idle => rw [Allowed, hph] at hall; rw [Allowed, show s'.phase = _ from hph]; exact hall
          | quiesce q =>
            rw [Allowed, hph] at hall
            rw [Allowed, show s'.phase = _ from hph]
            exact hall
          | drain r' => rw [Allowed, hph] at hall; rw [Allowed, show s'.phase = _ from hph]; exact hall
          | write r' k' n' =>
            rw [Allowed, hph] at hall
            rw [Allowed, show s'.phase = _ from hph]
            exact hall
          | wake r' k' =>
            rw [Allowed, hph] at hall
            rw [Allowed, show s'.phase = _ from hph]
            exact hall.imp_right fun hf => ⟨hf.1, hb _ hf.2⟩
          | wait r' k' =>
            rw [Allowed, hph] at hall
            rw [Allowed, show s'.phase = _ from hph]
            exact hall.imp_right fun hf => ⟨hf.1, hb _ hf.2⟩
          | finish r' k' o =>
            rw [Allowed, hph] at hall
            rw [Allowed, show s'.phase = _ from hph]
            exact hall.imp_right fun hf => ⟨hf.1, hb _ hf.2⟩
      len_pos := h.len_pos
      away := fun r' hr' hne' => ⟨hquiet (h.away r' hr' hne').1, (h.away r' hr' hne').2⟩
      unheld := h.unheld
      held := fun hh => hquiet (h.held hh)
      quiesce := h.quiesce
      done := fun r' k' n hs hk hor hi => by
        have hcmd' := h.sent r' k' n hs
        have hlt : r'.source ≠ s.next := by
          obtain ⟨q, hq⟩ := State.read_iff.mp hk
          obtain ⟨r'', hr'', rfl⟩ := h.ran _ q hq
          rw [Option.some.inj (hcmd'.symm.trans hr'')]
          exact Nat.ne_of_lt (h.ran_lt _ _ hq)
        by_cases hkk : k' = k
        · subst hkk
          obtain rfl := Option.some.inj (hcmd'.symm.trans hcmd)
          rcases hop with hop | hop
          · rw [hsrc, hself]
            exact Or.inr ⟨by rwa [hsrc, hself] at hi, r', hcmd, by rw [hop]; decide⟩
          · refine hpark _ hlt (h.done r' k' n hs hk (Or.inl ?_) (by rwa [hinit _ hlt] at hi))
            rintro heq
            rcases hor with hor | ⟨hfk, -⟩
            · exact hor heq
            · cases hop.symm.trans hfk
        · refine hpark _ hlt (h.done r' k' n hs hk ?_ (by rwa [hinit _ hlt] at hi))
          rcases hor with hor | ⟨hfk, c, hc⟩
          · exact Or.inl hor
          · rcases hborn c k' hc with ⟨-, hj⟩ | ⟨-, hj⟩
            · exact absurd hj hkk
            · exact Or.inr ⟨hfk, c, hj⟩
      busy_sent := fun r' k' n hs hk j hj => h.busy_sent r' k' n hs hk j (hbusy _ j hj)
      fork_busy := fun x j r' hj hr' hop' => h.fork_busy x j r' (hbusy x j hj) hr' hop'
      replies := fun m hm => hreply m (h.replies m hm)
      refused := h.refused }

/-- Nobody works on a command whose reader has moved on. -/
theorem Inv.not_busy_of_setProc (h : Inv s) {k : ℕ} {q : Proc}
    (hbusy : (s.procs p).pc.cmd? = some k) (hq : q.pc.cmd? = none) (x : ℕ) :
    ((s.setProc p q).procs x).pc.cmd? ≠ some k := by
  intro hx
  rcases eq_or_ne x p with rfl | hne
  · rw [State.setProc_self, hq] at hx
    cases hx
  · rw [State.setProc_of_ne _ _ hne] at hx
    exact hne (h.busy_unique hx hbusy)

/-- The handler of a command that creates nothing answers. -/
theorem Inv.respond_handle (h : Inv s) {k : ℕ} {r : Request} {ok lost : Bool}
    (hpc : (s.procs p).pc = .handle k) (hcmd : s.cmds[k]? = some r) (hop : r.op ≠ .fork) :
    Inv ((s.setProc p { s.procs p with pc := .stop }).answer lost
      ⟨k, successMode r, ok, none, (s.procs p).nsInit⟩) := by
  have hq : Tame (s.procs p) { s.procs p with pc := .stop } :=
    ⟨id, rfl, rfl, id, Or.inr rfl, id⟩
  have hpark : (s.procs p).Parked s.cmds →
      ({ s.procs p with pc := .stop } : Proc).Parked s.cmds := by
    rintro (hquiet | ⟨hi, -⟩)
    · exact Or.inl hquiet
    · exact Or.inr ⟨hi, trivial⟩
  have hread : s.Read k := State.read_iff.mpr ⟨p, h.busy p k (by rw [hpc]; rfl)⟩
  obtain ⟨out, heq, hout⟩ := answer_eq (s.setProc p { s.procs p with pc := .stop }) lost
    ⟨k, successMode r, ok, none, (s.procs p).nsInit⟩
  rw [heq]
  refine h.setProc_out _ hq hpark fun m hm => ?_
  rcases hout m hm with hm | rfl
  · exact Or.inl hm
  · refine Or.inr ⟨⟨hread, fun r' hr' hop' => ?_⟩, fun _ r' n hs hop' => ?_⟩
    · exact absurd (Option.some.inj (hcmd.symm.trans hr') ▸ hop') hop
    · exact absurd (Option.some.inj (hcmd.symm.trans (h.sent r' k n hs)) ▸ hop') hop

/-- A handler that has created a process answers with its pid. -/
theorem Inv.respond_reply (h : Inv s) {k c : ℕ} {r : Request} {lost : Bool}
    (hpc : (s.procs p).pc = .reply k c) (hcmd : s.cmds[k]? = some r) :
    Inv ((s.setProc p
      { s.procs p with pc := if r.op = .stashTemplate then .loop else .stop }).answer lost
        ⟨k, successMode r, true, some c, (s.procs p).nsInit⟩) := by
  have hbusy : (s.procs p).pc.cmd? = some k := by rw [hpc]; rfl
  have hran := h.busy p k hbusy
  have hsrc : r.source = p := by
    obtain ⟨r', hr', hp⟩ := h.ran k p hran
    rw [Option.some.inj (hcmd.symm.trans hr')]
    exact hp
  set q : Proc := { s.procs p with pc := if r.op = .stashTemplate then .loop else .stop } with hdef
  have hcmd? : q.pc.cmd? = none := by
    rw [hdef]
    by_cases hop : r.op = .stashTemplate <;> simp [hop, Pc.cmd?]
  have hq : Tame (s.procs p) q := ⟨id, rfl, rfl, id, Or.inr hcmd?, id⟩
  have hpark : (s.procs p).Parked s.cmds → q.Parked s.cmds := by
    rintro (hquiet | ⟨hi, hstops⟩)
    · exact Or.inl hquiet
    · rw [hpc] at hstops
      obtain ⟨r', hr', hop⟩ := hstops
      rw [← Option.some.inj (hcmd.symm.trans hr')] at hop
      exact Or.inr ⟨hi, by simp [hdef, hop, Pc.Stops]⟩
  obtain ⟨out, heq, hout⟩ := answer_eq (s.setProc p q) lost
    ⟨k, successMode r, true, some c, (s.procs p).nsInit⟩
  rw [heq]
  refine h.setProc_out _ hq hpark fun m hm => ?_
  rcases hout m hm with hm | rfl
  · exact Or.inl hm
  · refine Or.inr ⟨⟨State.read_iff.mpr ⟨p, hran⟩, fun r' hr' _ => ?_⟩, fun hok => by cases hok⟩
    obtain rfl := Option.some.inj (hcmd.symm.trans hr')
    refine ⟨h.not_busy_of_setProc hbusy hcmd?, fun _ => ⟨?_, c, rfl, ?_⟩, fun hok => by cases hok⟩
    · change _ = ((s.setProc p q).procs r.source).nsInit
      rw [hsrc, State.setProc_self]
    · change ((s.setProc p q).procs c).born = some k
      rw [(tame_setProc hq c).born]
      exact h.reply_born p k c hpc

/-- The active process reports a failure and returns to its loop. -/
theorem Inv.refuse (h : Inv s) (halive : (s.procs p).alive = true)
    (hstop : (s.procs p).stopped = false) (hp : p = s.active) {k : ℕ} {mode : Option Mode}
    {lost : Bool} (hpc : (s.procs p).pc = .handle k) :
    Inv ((s.setProc p { s.procs p with pc := .loop }).answer lost
      ⟨k, mode, false, none, (s.procs p).nsInit⟩) := by
  have hbusy : (s.procs p).pc.cmd? = some k := by rw [hpc]; rfl
  have hran := h.busy p k hbusy
  have hq : Tame (s.procs p) { s.procs p with pc := .loop } := ⟨id, rfl, rfl, id, Or.inr rfl, id⟩
  -- a request for another process would find the active one quiet
  have hsource : ∀ r, s.phase.request? = some r → p = r.source := by
    intro r hr
    by_contra hne
    rcases (h.away r hr fun heq => hne (hp.trans heq.symm)).1 with hq | hq
    · rw [← hp, halive] at hq
      cases hq
    · rw [← hp, hstop] at hq
      cases hq
  obtain ⟨out, heq, hout⟩ := answer_eq (s.setProc p { s.procs p with pc := .loop }) lost
    ⟨k, mode, false, none, (s.procs p).nsInit⟩
  rw [heq]
  refine h.tame (tame_setProc hq) (fun x hx => ?_) (fun r j n hs hj hor hpark => ?_)
    rfl rfl rfl rfl rfl rfl rfl rfl fun m hm => ?_
  · change ¬((s.setProc p _).procs x).Parked s.cmds at hx
    rcases eq_or_ne x p with rfl | hne
    · rw [Allowed]
      cases hph : s.phase with
      | idle => exact hp
      | quiesce y => exact hp
      | drain r => exact ⟨hsource r (by rw [hph]; rfl), hp⟩
      | write r j n => exact ⟨hsource r (by rw [hph]; rfl), hp⟩
      | wake r j => exact Or.inl ⟨hsource r (by rw [hph]; rfl), hp⟩
      | wait r j => exact Or.inl (hsource r (by rw [hph]; rfl))
      | finish r j o => exact Or.inl (hsource r (by rw [hph]; rfl))
    · rw [State.setProc_of_ne _ _ hne] at hx
      exact h.readers x hx
  · have hsrc := hsource r (Phase.request?_of_sent? hs)
    rcases hor with hor | ⟨-, c, hc⟩
    · exact absurd (hsrc.symm.trans hp) hor
    · obtain rfl := h.busy_sent r j n hs hj k (hsrc ▸ hbusy)
      exact absurd hpc (h.born_busy c p k hc)
  · rcases hout m hm with hm | rfl
    · exact Or.inl hm
    · refine Or.inr ⟨⟨State.read_iff.mpr ⟨p, hran⟩, fun r' _ _ => ?_⟩, fun _ r n hs _ => ?_⟩
      · refine ⟨h.not_busy_of_setProc hbusy rfl, (fun hf => by cases hf), fun _ c hc => ?_⟩
        rw [(tame_setProc hq c).born] at hc
        exact h.born_busy c p k hc hpc
      · exact (hsource r (Phase.request?_of_sent? hs)).symm.trans hp

theorem Inv.selfStop (h : Inv s) (hstop : (s.procs p).stopped = false) (honoured : Bool) :
    Inv (s.setProc p
      { s.procs p with pc := .loop, stopped := honoured || !(s.procs p).nsInit }) := by
  refine h.setProc ⟨id, rfl, rfl, id, Or.inr rfl, ?_⟩ ?_
  · rintro (hq | hq)
    · exact Or.inl hq
    · rw [hstop] at hq
      cases hq
  · rintro ((hq | hq) | ⟨hi, -⟩)
    · exact Or.inl (Or.inl hq)
    · rw [hstop] at hq
      cases hq
    · exact Or.inl (Or.inr (by simp [hi]))

end

/-! ### Between requests -/

/-- A dumped process is restored as the active one, after the last one has died. -/
theorem Inv.coldRestore (h : Inv s) (hph : s.phase = .idle) (hheld : s.held = false)
    (hdead : (s.procs s.active).alive = false) {buf : List Byte} (hbuf : buf ∈ s.images)
    (nsInit : Bool) :
    Inv { s.setProc s.next ⟨true, false, nsInit, buf, .loop, none⟩ with
      next := s.next + 1
      active := s.next } := by
  have hsent : s.phase.sent? = none := by rw [hph]; rfl
  have hreq : s.phase.request? = none := by rw [hph]; rfl
  set q : Proc := ⟨true, false, nsInit, buf, .loop, none⟩ with hq
  have hself : (s.setProc s.next q).procs s.next = q := State.setProc_self ..
  have hne : ∀ x, x ≠ s.next → (s.setProc s.next q).procs x = s.procs x :=
    fun x hx => State.setProc_of_ne _ _ hx
  have hborn : ∀ x k, ((s.setProc s.next q).procs x).born = some k ↔ (s.procs x).born = some k := by
    intro x k
    rcases eq_or_ne x s.next with rfl | hx
    · rw [hself]
      exact ⟨(fun hk => by cases hk), fun hk => absurd (h.born_lt _ k hk) (Nat.lt_irrefl _)⟩
    · rw [hne x hx]
  have hpc : ∀ x, x ≠ s.next ∨ ((s.setProc s.next q).procs x).pc = .loop := by
    intro x
    rcases eq_or_ne x s.next with rfl | hx
    · exact Or.inr (by rw [hself])
    · exact Or.inl hx
  have hbusy : ∀ x k, ((s.setProc s.next q).procs x).pc.cmd? = some k →
      (s.procs x).pc.cmd? = some k := by
    intro x k hk
    rcases hpc x with hx | hx
    · rwa [hne x hx] at hk
    · rw [hx] at hk
      cases hk
  have hreply : ∀ m, ReplyOk s m →
      ReplyOk { s.setProc s.next q with next := s.next + 1, active := s.next } m := by
    refine fun m hm => ⟨hm.1, fun r hr hop => ?_⟩
    obtain ⟨hb, hok, hfail⟩ := hm.2 r hr hop
    have hsrc : r.source ≠ s.next := by
      obtain ⟨y, hy⟩ := State.read_iff.mp hm.1
      obtain ⟨r', hr', rfl⟩ := h.ran _ y hy
      rw [Option.some.inj (hr.symm.trans hr')]
      exact Nat.ne_of_lt (h.ran_lt _ _ hy)
    refine ⟨fun x hx => hb x (hbusy x _ hx), fun hmok => ?_, fun hmok c hc => ?_⟩
    · obtain ⟨hi, c, hc, hcb⟩ := hok hmok
      exact ⟨by rw [hi, ← hne _ hsrc], c, hc, (hborn c _).mpr hcb⟩
    · exact hfail hmok c ((hborn c _).mp hc)
  exact
    { alive_lt := fun x hx => by
        change x < s.next + 1
        rcases eq_or_ne x s.next with rfl | hxn
        · exact Nat.lt_succ_self _
        · exact Nat.lt_succ_of_lt (h.alive_lt x (hne x hxn ▸ hx))
      active_lt := Nat.lt_succ_self _
      ran := h.ran
      ran_lt := fun k p hk => Nat.lt_succ_of_lt (h.ran_lt k p hk)
      busy := fun x k hk => h.busy x k (hbusy x k hk)
      reply_born := fun x k c hk => by
        rcases hpc x with hx | hx
        · exact (hborn c k).mpr (h.reply_born x k c (hne x hx ▸ hk))
        · cases hx.symm.trans hk
      born_lt := fun x k hk => Nat.lt_succ_of_lt (h.born_lt x k ((hborn x k).mp hk))
      born_read := fun x k hk => h.born_read x k ((hborn x k).mp hk)
      born_busy := fun x y k hx hy => by
        rcases hpc y with hyn | hyn
        · exact h.born_busy x y k ((hborn x k).mp hx) (hne y hyn ▸ hy)
        · cases hyn.symm.trans hy
      born_inj := fun x y k hx hy => h.born_inj x y k ((hborn x k).mp hx) ((hborn y k).mp hy)
      buf := fun x => by
        rcases eq_or_ne x s.next with rfl | hx
        · rw [hself]
          exact h.images buf hbuf
        · rw [hne x hx]
          exact h.buf x
      images := h.images
      fifo_idle := h.fifo_idle
      fifo_sent := fun r k n hs => by cases hsent.symm.trans hs
      fifo_read := fun r k n hs => by cases hsent.symm.trans hs
      sent := fun r k n hs => by cases hsent.symm.trans hs
      writing := fun r k n hs => by cases hph.symm.trans hs
      writing_lt := fun r k n hs => by cases hph.symm.trans hs
      readers := fun x hx => by
        have hactive : x = s.next := by
          by_contra hxn
          rw [show (State.procs _ x) = s.procs x from hne x hxn] at hx
          have hold := (allowed_iff_of_idle hph).mp (h.readers x hx)
          exact hx (Or.inl (Or.inl (hold ▸ hdead)))
        refine (allowed_iff_of_idle ?_).mpr hactive
        exact hph
      len_pos := fun r hr => by cases hreq.symm.trans hr
      away := fun r hr => by cases hreq.symm.trans hr
      unheld := fun r hr => by cases hreq.symm.trans hr
      held := fun hh => by cases hheld.symm.trans hh
      quiesce := fun p hp => by cases hph.symm.trans hp
      done := fun r k n hs => by cases hsent.symm.trans hs
      busy_sent := fun r k n hs => by cases hsent.symm.trans hs
      fork_busy := fun x k r hk hr hop => h.fork_busy x k r (hbusy x k hk) hr hop
      replies := fun m hm => hreply m (h.replies m hm)
      refused := fun m _ _ r n hs => by cases hsent.symm.trans hs }

theorem Inv.hold (h : Inv s) (hph : s.phase = .idle) :
    Inv { s.sigstop s.active with held := true } :=
  { h.sigstop s.active with
    unheld := fun r hr => by cases (congrArg Phase.request? hph).symm.trans hr
    held := fun _ => Or.inr (by
      change ((s.sigstop s.active).procs s.active).stopped = true
      rw [State.sigstop, State.setProc_self])
    quiesce := fun p hp => by cases hph.symm.trans hp }

theorem Inv.release (h : Inv s) (hph : s.phase = .idle) :
    Inv { s.sigcont s.active with held := false } :=
  h.sigcont s.phase false rfl rfl (Or.inl ⟨hph, rfl⟩)
    (fun _ _ => (allowed_iff_of_idle hph).mp) (fun hh => by cases hh)
    fun r k n hs => by cases (congrArg Phase.sent? hph).symm.trans hs

/-- The end of a phase without a command. -/
theorem Inv.leave (h : Inv s) (hsent : s.phase.sent? = none)
    (hall : ∀ x, Allowed s x → x = s.active) : Inv { s with phase := .idle } :=
  h.toIdle (c := s.active) (Or.inl rfl) (h.fifo_idle hsent) h.active_lt h.held
    (fun p hp => hall p (h.readers p hp)) fun p k r hk hr hop => by
      obtain ⟨r', n, hs⟩ := h.fork_busy p k r hk hr hop
      cases hsent.symm.trans hs

theorem Inv.endQuiesce (h : Inv s) {source : ℕ} (hph : s.phase = .quiesce source) :
    Inv { (if (s.procs source).stopped then s.sigcont source else s) with phase := .idle } := by
  obtain ⟨rfl, hheld⟩ := h.quiesce source hph
  have hall : ∀ x, Allowed s x → x = s.active := fun x hx => by rwa [Allowed, hph] at hx
  split_ifs
  · refine h.sigcont .idle s.held (by rw [hph]; rfl) (by rw [hph]; rfl)
      (Or.inl ⟨rfl, rfl⟩) (fun _ => hall) (fun hh => by cases hheld.symm.trans hh) ?_
    intro r k n hs
    cases (congrArg Phase.sent? hph).symm.trans hs
  · exact h.leave (by rw [hph]; rfl) hall

/-- A write that fails leaves a part of its command, and never the newline. -/
theorem Inv.writeFail (h : Inv s) {r : Request} {k n : ℕ} (hph : s.phase = .write r k n) :
    Inv { s with phase := .idle } := by
  refine h.toIdle (c := s.active) (Or.inl rfl) ?_ h.active_lt h.held (fun p hp => ?_) ?_
  · exact noLine_of_suffix (h.fifo_sent r k n (by rw [hph]; rfl)) (h.writing_lt r k n hph)
  · have hall := h.readers p hp
    rw [Allowed, hph] at hall
    exact hall.2
  · intro p j r' hj hr' hop
    obtain ⟨r'', n', hs⟩ := h.fork_busy p j r' hj hr' hop
    obtain ⟨-, rfl, -⟩ : r = r'' ∧ k = j ∧ n = n' := by
      simpa [Phase.sent?] using (congrArg Phase.sent? hph).symm.trans hs
    exact h.writing r k n hph (State.read_iff.mpr ⟨p, h.busy p k hj⟩)

theorem Inv.wake (h : Inv s) {r : Request} {k : ℕ} (hph : s.phase = .wake r k)
    (hrun : s.Read k → (s.procs r.source).stopped = false) :
    Inv { s.sigcont r.source with phase := .wait r k } := by
  refine h.sigcont (.wait r k) s.held (by rw [hph]; rfl) (by rw [hph]; rfl)
    (Or.inr ⟨r, k, hph, rfl, rfl⟩) (fun hi => by cases hi) (fun hh => ⟨hh, fun heq => ?_⟩) fun r' k' n hs hk => ?_
  · cases (h.unheld r (by rw [hph]; rfl) (Or.inl heq)).symm.trans hh
  · obtain ⟨-, rfl, -⟩ : r = r' ∧ k = k' ∧ r.len = n := by
      simpa [Phase.sent?] using (congrArg Phase.sent? hph).symm.trans hs
    exact hrun hk

/-! ### All steps -/

/-- A process takes a step. -/
theorem Inv.procStep {p : ℕ} {a : Action} (h : Inv s) (halive : (s.procs p).alive = true)
    (hstop : (s.procs p).stopped = false)
    (hrefuse : ∀ q mode lost, a = .refuse q mode lost → p = s.active)
    (hstep : procStep s p a = some s') : Inv s' := by
  cases a with
  | read q => exact h.read halive hstop hstep
  | spawn q =>
    simp only [Control.procStep] at hstep
    split at hstep
    · rename_i k hpc
      split at hstep
      · rename_i r hcmd
        split_ifs at hstep with hop
        obtain rfl := Option.some.inj hstep
        exact h.spawn halive hpc hcmd hop
      · cases hstep
    · cases hstep
  | respond q ok lost =>
    simp only [Control.procStep] at hstep
    split at hstep
    · rename_i k hpc
      split at hstep
      · rename_i r hcmd
        split_ifs at hstep with hop
        obtain rfl := Option.some.inj hstep
        exact h.respond_handle hpc hcmd fun hf => hop (Or.inl hf)
      · cases hstep
    · rename_i k c hpc
      split at hstep
      · rename_i r hcmd
        obtain rfl := Option.some.inj hstep
        exact h.respond_reply hpc hcmd
      · cases hstep
    · cases hstep
  | refuse q mode lost =>
    simp only [Control.procStep] at hstep
    split at hstep
    · rename_i k hpc
      obtain rfl := Option.some.inj hstep
      exact h.refuse halive hstop (hrefuse q mode lost rfl) hpc
    · cases hstep
  | selfStop q honoured =>
    simp only [Control.procStep] at hstep
    split_ifs at hstep
    obtain rfl := Option.some.inj hstep
    exact h.selfStop hstop honoured
  | _ => cases hstep

theorem Inv.runnable {p : ℕ} {a : Action} (h : Inv s)
    (hrefuse : ∀ q mode lost, a = .refuse q mode lost → p = s.active)
    (hstep : runnable s p a = some s') : Inv s' := by
  rw [Control.runnable] at hstep
  split_ifs at hstep with hrun
  exact h.procStep hrun.1 hrun.2 hrefuse hstep

theorem Settled.inv_step {a : Action} (h : Inv s) (hs : Settled s a) (hstep : step s a = some s') :
    Inv s' := by
  cases a with
  | begin r =>
    rw [step] at hstep
    split_ifs at hstep with hr
    obtain rfl := Option.some.inj hstep
    exact h.begin hr.1 hr.2.1 hr.2.2
  | drainChunk =>
    simp only [step] at hstep
    split at hstep
    · rename_i r hph
      obtain rfl := Option.some.inj hstep
      have hsent : s.phase.sent? = none := by rw [hph]; rfl
      exact
        { h with
          fifo_idle := fun _ => (h.fifo_idle hsent).mono (List.drop_subset _ _)
          fifo_sent := fun r k n hs => by cases hsent.symm.trans hs
          fifo_read := fun r k n hs => by cases hsent.symm.trans hs }
    · cases hstep
  | openWrite =>
    simp only [step] at hstep
    split at hstep
    · rename_i r hph
      split_ifs at hstep with hfifo
      obtain rfl := Option.some.inj hstep
      exact h.openWrite hph hfifo
    · cases hstep
  | openFail =>
    simp only [step] at hstep
    split at hstep
    · rename_i r hph
      split_ifs at hstep
      obtain rfl := Option.some.inj hstep
      exact h.leave (by rw [hph]; rfl) fun x hx => by
        rw [Allowed, hph] at hx
        exact hx.2
    · cases hstep
  | writeChunk n =>
    simp only [step] at hstep
    split at hstep
    · rename_i r k m hph
      simp only [Option.ite_none_right_eq_some, Option.some.injEq] at hstep
      obtain ⟨hn, rfl⟩ := hstep
      exact h.writeChunk hph hn.2.1
    · cases hstep
  | writeFail =>
    simp only [step] at hstep
    split at hstep
    · rename_i r k n hph
      obtain rfl := Option.some.inj hstep
      exact h.writeFail hph
    · cases hstep
  | wake gone =>
    simp only [step] at hstep
    split at hstep
    · rename_i r k hph
      simp only [Settled, hph] at hs
      obtain ⟨rfl, hrun⟩ := hs
      obtain rfl := Option.some.inj hstep
      exact h.wake hph hrun
    · cases hstep
  | accept =>
    simp only [step] at hstep
    split at hstep
    · rename_i r k m out hph hout
      have hsub : ∀ x ∈ out, x ∈ s.out := fun x hx => by
        rw [hout]
        exact List.mem_cons_of_mem _ hx
      split_ifs at hstep
      · obtain rfl := Option.some.inj hstep
        refine h.rephase _ out hph (Or.inr ⟨some m, rfl, fun x hx => ?_⟩) hsub
        rw [hout, ← Option.some.inj hx]
        exact List.mem_cons_self ..
      · obtain rfl := Option.some.inj hstep
        exact h.rephase s.phase out hph (Or.inl hph) hsub
    · cases hstep
  | timeout =>
    simp only [step] at hstep
    split at hstep
    · rename_i r k hph
      obtain rfl := Option.some.inj hstep
      exact h.rephase _ s.out hph (Or.inr ⟨none, rfl, fun _ hx => by cases hx⟩) fun _ hx => hx
    · cases hstep
  | finish found =>
    simp only [step] at hstep
    split at hstep
    · rename_i r k line hph
      obtain rfl := Option.some.inj hstep
      simp only [Settled, hph] at hs
      refine h.finish hph hs.1 fun hop => ?_
      obtain ⟨m, hm, hok⟩ := (Option.any_eq_true _ _).mp (hs.2 hop)
      simp only [Bool.and_eq_true, Bool.or_eq_true, decide_eq_true_eq, Bool.not_eq_true'] at hok
      refine ⟨m, hm, hok.1, fun htrue => hok.2.resolve_left fun hfalse => ?_⟩
      cases htrue.symm.trans hfalse
    · cases hstep
  | endQuiesce =>
    simp only [step] at hstep
    split at hstep
    · rename_i source hph
      obtain rfl := Option.some.inj hstep
      exact h.endQuiesce hph
    · cases hstep
  | hold =>
    rw [step] at hstep
    split_ifs at hstep with hph
    obtain rfl := Option.some.inj hstep
    exact h.hold hph.1
  | release =>
    rw [step] at hstep
    split_ifs at hstep with hph
    obtain rfl := Option.some.inj hstep
    exact h.release hph.1
  | stopTemplate p =>
    rw [step] at hstep
    split_ifs at hstep
    obtain rfl := Option.some.inj hstep
    exact h.sigstop p
  | discard sid =>
    simp only [step] at hstep
    split_ifs at hstep
    split at hstep
    · rename_i p _
      obtain rfl := Option.some.inj hstep
      exact { h.die p with }
    · obtain rfl := Option.some.inj hstep
      exact h
  | die p =>
    obtain rfl := Option.some.inj hstep
    exact h.die p
  | dump p =>
    obtain rfl := Option.some.inj hstep
    refine { h with images := fun b hb => ?_ }
    rcases List.mem_append.mp hb with hb | hb
    · exact h.images b hb
    · rw [List.mem_singleton.mp hb]
      exact h.buf p
  | coldRestore image nsInit =>
    rw [step] at hstep
    split_ifs at hstep with hidle
    obtain ⟨buf, hbuf, rfl⟩ := Option.map_eq_some_iff.mp hstep
    exact h.coldRestore hidle.1 hidle.2.1 hidle.2.2 (List.mem_of_getElem? hbuf) nsInit
  | read p => exact h.runnable (fun _ _ _ ha => by cases ha) hstep
  | spawn p => exact h.runnable (fun _ _ _ ha => by cases ha) hstep
  | respond p ok lost => exact h.runnable (fun _ _ _ ha => by cases ha) hstep
  | refuse p mode lost => exact h.runnable (fun _ _ _ _ => hs) hstep
  | selfStop p honoured => exact h.runnable (fun _ _ _ ha => by cases ha) hstep

end

/-- **Commands reach only their addressee**, in every settled run: whoever executed a command is the
process it was sent for. -/
theorem commands_reach_addressee {s₀ s : State} {as : List Action} (h₀ : Initial s₀)
    (hC : Along step Settled s₀ as) (hrun : exec step s₀ as = some s) :
    ∀ k p, (k, p) ∈ s.ran → ∃ r, s.cmds[k]? = some r ∧ r.source = p :=
  (invariant_along (fun h hs hstep => hs.inv_step h hstep) h₀.inv hC hrun).ran

/-! ### Two runs -/

/-- The agent forks: its child 1 becomes the active process, and it stays behind as a template. -/
def exampleFork : List Action :=
  [.begin (exampleRequest .fork (some "a")), .openWrite, .writeChunk 3, .wake false, .read 0,
    .spawn 0, .respond 0 true false, .selfStop 0 true, .accept, .finish true]

/-- A cleanup holds the active process, and the template reaps its children. -/
def exampleReap : List Action :=
  [.hold, .begin (exampleRequest .reapChildren none), .openWrite, .writeChunk 3, .wake false,
    .read 0, .respond 0 true false, .selfStop 0 true, .accept, .finish false, .release]

theorem commands_reach_addressee_reap :
    ∃ s, exec step exampleAgent (exampleFork ++ exampleReap) = some s ∧
      ∀ k p, (k, p) ∈ s.ran → ∃ r, s.cmds[k]? = some r ∧ r.source = p := by
  obtain ⟨s, hs⟩ := Option.isSome_iff_exists.mp
    (show (exec step exampleAgent (exampleFork ++ exampleReap)).isSome by decide +kernel)
  exact ⟨s, hs, commands_reach_addressee exampleAgent_initial (by decide +kernel) hs⟩

/-- The same cleanup, but the controller stops waiting before the template gets to read. -/
def exampleLateReap : List Action :=
  [.hold, .begin (exampleRequest .reapPid none), .openWrite, .writeChunk 3, .wake false, .timeout,
    .finish false, .release, .read 1, .respond 1 true false, .selfStop 1 true]

/-- **A reap for a template reaches the active process**, which stops itself. -/
theorem reap_reaches_active :
    ¬ ∀ (s₀ s : State) (as : List Action), Initial s₀ → exec step s₀ as = some s →
      ∀ k p, (k, p) ∈ s.ran → ∃ r, s.cmds[k]? = some r ∧ r.source = p := by
  intro h
  obtain ⟨s, hs⟩ := Option.isSome_iff_exists.mp
    (show (exec step exampleAgent (exampleFork ++ exampleLateReap)).isSome by decide +kernel)
  have hrun : (exec step exampleAgent (exampleFork ++ exampleLateReap)).all (fun s =>
      (1, 1) ∈ s.ran ∧ s.active = 1 ∧ (s.procs 1).stopped = true ∧
        s.cmds[1]? = some (exampleRequest .reapPid none)) = true := by
    decide +kernel
  rw [hs, Option.all_some, decide_eq_true_eq] at hrun
  obtain ⟨r, hr, hsrc⟩ := h exampleAgent s _ exampleAgent_initial hs 1 1 hrun.1
  obtain rfl := Option.some.inj (hrun.2.2.2.symm.trans hr)
  cases hsrc

end Control

end DeltaBox
