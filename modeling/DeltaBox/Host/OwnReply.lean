import DeltaBox.Host.Clients

/-!
# Host requests and their replies

Whatever has happened before, a call of either client returns nothing but a reply that carries its
own `ctrl_id`, and that identity has never been used before. That is one half. The other is that a
reply which is there in time is returned, and here what earlier calls have left in front of it
decides: the probe gives up at the first line that is not a JSON object, and neither client gets at
a reply that stands on the same line as the remains of an older one.

## Main definitions

* `Arrival`, `Arrival.InTime` — where the reply stands in the stream, and that the call has the
  time to get there
* `ProbeClear`, `WorkerClear` — what stands in front of it does not keep the client from it

## Main results

* `requests_get_own_reply` — in every state that a sequence of calls leads to, a returned reply is
  the call's own, and a reply in time is returned exactly when what stands in front of it is clear
* `reply_lost_behind_remains` — the rest of a reply that was cut by a timeout makes the next call
  fail although its own reply is there
-/

namespace DeltaBox

namespace Host

open Lines

variable {V : Type*} [DecidableEq V] {J : Codec V}

/-! ### Identities -/

/-- Two numerals that are followed by the same non-digit are the same. -/
theorem numeral_inj {m n : ℕ} {c : Char} {xs ys : List Char} (hc : c.isDigit = false)
    (h : Nat.toDigits 10 m ++ c :: xs = Nat.toDigits 10 n ++ c :: ys) : m = n ∧ xs = ys := by
  have hdigits : ∀ k : ℕ, c ∉ Nat.toDigits 10 k := by
    intro k hmem
    have := Nat.isDigit_of_mem_toDigits (by decide) (by decide) hmem
    simp [hc] at this
  obtain ⟨hmn, hrest⟩ := first_line_unique (hdigits m) (hdigits n) h
  have hval := congrArg (fun ds => Nat.ofDigitChars 10 ds 0) hmn
  simp only [Nat.ofDigitChars_ten_toDigits] at hval
  exact ⟨hval, hrest⟩

theorem probeId_inj {e e' n n' : ℕ} (h : probeId e n = probeId e' n') : n = n' := by
  have hlist := congrArg String.toList h
  simp only [probeId, String.toList_append, Nat.toString_eq_repr, Nat.toList_repr,
    List.append_assoc] at hlist
  obtain ⟨-, hrest⟩ := numeral_inj (c := '.') (by decide) (List.append_cancel_left hlist)
  have hend : Nat.toDigits 10 n = Nat.toDigits 10 n' :=
    List.append_cancel_left (show "ctrl-".toList ++ _ = "ctrl-".toList ++ _ from hrest)
  have hval := congrArg (fun ds => Nat.ofDigitChars 10 ds 0) hend
  simpa only [Nat.ofDigitChars_ten_toDigits] using hval

theorem workerId_inj {n n' : ℕ} {u u' : String} (h : workerId n u = workerId n' u') : n = n' := by
  have hlist := congrArg String.toList h
  simp only [workerId, String.toList_append, Nat.toString_eq_repr, Nat.toList_repr,
    List.append_assoc] at hlist
  exact (numeral_inj (c := '.') (by decide) (List.append_cancel_left hlist)).1

theorem probeId_ne_workerId (e n n' : ℕ) (u : String) : probeId e n ≠ workerId n' u := by
  intro h
  have hlist := congrArg (fun t => t.toList.head?) h
  simp [probeId, workerId, String.toList_append] at hlist

/-- Every identity a client has made up is numbered, and the numbers run. -/
def Numbered (s : State) : Prop :=
  ∀ id ∈ s.issued, (∃ e n, id = probeId e n ∧ n ≤ s.probe.ctrlSeq) ∨
    ∃ n u, id = workerId n u ∧ n ≤ s.worker.seq

/-- Nothing is made up, and the counters stay. -/
structure SameIds (s t : State) : Prop where
  issued : t.issued = s.issued
  probe : t.probe.ctrlSeq = s.probe.ctrlSeq
  worker : t.worker.seq = s.worker.seq

theorem Numbered.same {s t : State} (h : Numbered s) (hst : SameIds s t) : Numbered t := by
  unfold Numbered
  rw [hst.issued, hst.probe, hst.worker]
  exact h

theorem Numbered.probeId_fresh {s : State} (h : Numbered s) (e : ℕ) :
    probeId e (s.probe.ctrlSeq + 1) ∉ s.issued := by
  intro hmem
  rcases h _ hmem with ⟨e', n, hid, hn⟩ | ⟨n, u, hid, -⟩
  · have := probeId_inj hid
    omega
  · exact probeId_ne_workerId _ _ _ _ hid

theorem Numbered.workerId_fresh {s : State} (h : Numbered s) (u : String) :
    workerId (s.worker.seq + 1) u ∉ s.issued := by
  intro hmem
  rcases h _ hmem with ⟨e, n, hid, -⟩ | ⟨n, u', hid, hn⟩
  · exact probeId_ne_workerId _ _ _ _ hid.symm
  · have := workerId_inj hid
    omega

theorem sameIds_reset (s : State) : SameIds s (reset s) := ⟨rfl, rfl, rfl⟩

theorem sameIds_close (s : State) : SameIds s (close s) := ⟨rfl, rfl, rfl⟩

theorem sameIds_connect (found : Bool) (s : State) : SameIds s (connect found s).1 := by
  unfold connect
  split <;> exact ⟨rfl, rfl, rfl⟩

/-- The probe numbers a new identity. -/
theorem Numbered.probe {s t : State} (h : Numbered s) {e : ℕ}
    (hissued : t.issued = probeId e (s.probe.ctrlSeq + 1) :: s.issued)
    (hprobe : t.probe.ctrlSeq = s.probe.ctrlSeq + 1) (hworker : t.worker.seq = s.worker.seq) :
    Numbered t := by
  intro id hid
  rw [hissued, List.mem_cons] at hid
  rw [hprobe, hworker]
  rcases hid with rfl | hid
  · exact .inl ⟨e, _, rfl, Nat.le_refl _⟩
  · rcases h id hid with ⟨e', n, rfl, hn⟩ | hw
    · exact .inl ⟨e', n, rfl, by omega⟩
    · exact .inr hw

/-- The client numbers a new identity, or uses the caller's. -/
theorem Numbered.worker {s t : State} (h : Numbered s) {u : String}
    (hissued : t.issued = s.issued ∨ t.issued = workerId (s.worker.seq + 1) u :: s.issued)
    (hprobe : t.probe.ctrlSeq = s.probe.ctrlSeq) (hworker : t.worker.seq = s.worker.seq + 1) :
    Numbered t := by
  have hold : ∀ id ∈ s.issued, (∃ e n, id = probeId e n ∧ n ≤ t.probe.ctrlSeq) ∨
      ∃ n u, id = workerId n u ∧ n ≤ t.worker.seq := by
    intro id hid
    rw [hprobe, hworker]
    rcases h id hid with hp | ⟨n, u', rfl, hn⟩
    · exact .inl hp
    · exact .inr ⟨n, u', rfl, by omega⟩
  intro id hid
  rcases hissued with hissued | hissued
  · exact hold id (hissued ▸ hid)
  · rw [hissued, List.mem_cons] at hid
    rcases hid with rfl | hid
    · exact .inr ⟨_, u, rfl, by omega⟩
    · exact hold id hid

theorem numbered_control {s : State} (h : Numbered s) (c : Request V) (epoch : Option ℕ)
    (wall : V) : Numbered (control J c epoch wall s).1 := by
  cases epoch with
  | none => exact h.same (sameIds_reset s)
  | some e =>
    cases hcut : c.cut with
    | some x =>
      simp only [control, hcut]
      exact h.probe rfl rfl rfl
    | none =>
      simp only [control, hcut]
      split <;> exact h.probe rfl rfl rfl

omit [DecidableEq V] in
theorem numbered_request {s : State} (h : Numbered s) (c : Request V) (epoch : Option ℕ) :
    Numbered (request J c epoch s).1 := by
  cases epoch with
  | none => exact h.same (sameIds_reset s)
  | some e =>
    cases hcut : c.cut with
    | some x =>
      simp only [request, hcut]
      exact h.same ⟨rfl, rfl, rfl⟩
    | none =>
      simp only [request, hcut]
      split <;> exact h.same ⟨rfl, rfl, rfl⟩

theorem numbered_call {s : State} (h : Numbered s) (c : Request V) (uuid : String) :
    Numbered (call J c uuid s).1 := by
  have hissued : ∀ b : Bool, (if b then s.issued else workerId (s.worker.seq + 1) uuid :: s.issued)
      = s.issued ∨ (if b then s.issued else workerId (s.worker.seq + 1) uuid :: s.issued) =
        workerId (s.worker.seq + 1) uuid :: s.issued := by
    intro b
    cases b <;> simp
  unfold call
  split
  · cases hcut : c.cut with
    | some x => exact h.worker (hissued _) rfl rfl
    | none =>
      dsimp only
      split <;> exact h.worker (hissued _) rfl rfl
  · exact h

theorem numbered_reopen {s : State} (h : Numbered s) (c : Reopening V) :
    Numbered (reopen J c s).1 := by
  have hopen : Numbered (connect c.found (close s)).1 :=
    (h.same (sameIds_close s)).same (sameIds_connect _ _)
  unfold reopen
  dsimp only
  split
  · split
    · have hcall := numbered_call (J := J)
        (hopen.same (t := { (connect c.found (close s)).1 with
          fout := (drain c.drainLooks (connect c.found (close s)).1.fout).1
          worker := { (connect c.found (close s)).1.worker with buf := [] } }) ⟨rfl, rfl, rfl⟩)
        ⟨Dict.empty.set "ctrl" (J.str "state"), c.cut, c.looks⟩ c.uuid
      split
      next s' ready heq =>
        rw [heq] at hcall
        split
        · exact hcall
        · exact hcall.same (sameIds_close _)
      next s' err heq =>
        rw [heq] at hcall
        exact hcall.same (sameIds_close _)
    · exact hopen.same ⟨rfl, rfl, rfl⟩
  · exact hopen

theorem numbered_step {s : State} (h : Numbered s) (a : Act V) : Numbered (step J s a) := by
  cases a with
  | arrive bs => exact h.same ⟨rfl, rfl, rfl⟩
  | consume n => exact h.same ⟨rfl, rfl, rfl⟩
  | vanish => exact h.same ⟨rfl, rfl, rfl⟩
  | control c epoch wall => exact numbered_control h c epoch wall
  | controlFresh c epoch wall =>
    exact (numbered_control (h.same (sameIds_reset s)) c epoch wall).same (sameIds_reset _)
  | request c epoch => exact numbered_request h c epoch
  | reset => exact h.same (sameIds_reset s)
  | call c uuid => exact numbered_call h c uuid
  | connect found => exact h.same (sameIds_connect found s)
  | reopen c => exact numbered_reopen h c
  | close => exact h.same (sameIds_close s)

theorem numbered_run (acts : List (Act V)) : Numbered (run J acts) := by
  suffices h : ∀ s, Numbered s → Numbered (acts.foldl (step J) s) from
    h start fun id hid => absurd hid List.not_mem_nil
  induction acts with
  | nil => exact fun s hs => hs
  | cons a acts ih => exact fun s hs => ih _ (numbered_step hs a)

/-! ### What a call returns -/

omit [DecidableEq V] in
theorem get_setdefault_of_ne {o : Object V} {key key' : String} {v : V} (hne : key' ≠ key) :
    J.get (Codec.setdefault o key v) key' = J.get o key' := by
  unfold Codec.setdefault
  split
  · rfl
  · simp [Codec.get, Dict.find?_set, hne]

omit [DecidableEq V] in
theorem get_probeRequest_ctrlId (payload : Object V) (e n : ℕ) :
    J.get (probeRequest J payload e n) "ctrl_id" = J.str (probeId e n) := by
  simp [Codec.get, probeRequest, Dict.find?_set]

omit [DecidableEq V] in
theorem get_probeRequest_ctrl (payload : Object V) (e n : ℕ) :
    J.get (probeRequest J payload e n) "ctrl" = J.get payload "ctrl" := by
  simp [Codec.get, probeRequest, Dict.find?_set]

theorem of_probeJudge_take {req r : Object V} {line : Bytes} (h : probeJudge J req line = .take r) :
    J.loads line = .object r ∧ J.get r "ctrl_id" = J.get req "ctrl_id" ∧
      J.get r "ctrl" = J.get req "ctrl" := by
  unfold probeJudge at h
  split at h
  next => cases h
  next => cases h
  next o ho =>
    split_ifs at h with hne
    obtain rfl := Verdict.take.inj h
    rw [not_or, not_not, not_not] at hne
    exact ⟨ho, hne⟩

theorem probeJudge_eq_skip_iff {req : Object V} {line : Bytes} :
    probeJudge J req line = .skip ↔
      (∃ o, J.loads line = .object o) ∧ ∀ r, probeJudge J req line ≠ .take r := by
  unfold probeJudge
  split
  next h => simp [h]
  next h => simp [h]
  next o ho => split_ifs <;> simp [ho]

theorem of_workerJudge_take {ctrlId : V} {r : Object V} {line : Bytes}
    (h : workerJudge J ctrlId line = .take r) :
    J.loadsText line = .object r ∧ J.get r "ctrl_id" = ctrlId := by
  unfold workerJudge at h
  split at h
  next o ho =>
    split_ifs at h with hne
    obtain rfl := Verdict.take.inj h
    exact ⟨ho, not_not.mp hne⟩
  next => cases h

theorem workerJudge_eq_skip_iff {ctrlId : V} {line : Bytes} :
    workerJudge J ctrlId line = .skip ↔ ∀ r, workerJudge J ctrlId line ≠ .take r := by
  unfold workerJudge
  split
  next o ho => split_ifs <;> simp
  next => simp

/-- A `control` that returns a reply has taken it in the reply loop. -/
theorem of_control_inl {c : Request V} {epoch : Option ℕ} {wall : V} {s : State} {r : Object V}
    (h : (control J c epoch wall s).2 = .inl r) :
    ∃ e r₀, epoch = some e ∧ c.cut = none ∧ r = Codec.setdefault r₀ "wall_ms" wall ∧
      (probeReply J (probeRequest J c.payload e (s.probe.ctrlSeq + 1)) c.looks s).ending =
        .take r₀ := by
  cases epoch with
  | none => cases h
  | some e =>
    cases hcut : c.cut with
    | some x =>
      simp only [control, hcut] at h
      cases h
    | none =>
      simp only [control, hcut] at h
      split at h
      next r₀ hr₀ => exact ⟨e, r₀, rfl, rfl, (Sum.inl.inj h).symm, hr₀⟩
      next => cases h
      next => cases h

theorem control_inl {c : Request V} {e : ℕ} {wall : V} {s : State} {r : Object V}
    (hcut : c.cut = none)
    (h : (probeReply J (probeRequest J c.payload e (s.probe.ctrlSeq + 1)) c.looks s).ending =
      .take r) :
    (control J c (some e) wall s).2 = .inl (Codec.setdefault r "wall_ms" wall) := by
  simp only [control, hcut]
  split
  next r₀ hr₀ =>
    obtain rfl := Ending.take.inj (h.symm.trans hr₀)
    rfl
  next err herr => cases h.symm.trans herr
  next hlate => cases h.symm.trans hlate

/-- A `call` that returns a reply has taken it in the reply loop. -/
theorem of_call_inl {c : Request V} {uuid : String} {s : State} {r : Object V}
    (h : (call J c uuid s).2 = .inl r) :
    s.worker.connected ∧ c.cut = none ∧
      (workerReply J (ownId J c.payload (s.worker.seq + 1) uuid) c.looks s).ending = .take r := by
  unfold call at h
  split at h
  next hopen =>
    cases hcut : c.cut with
    | some x =>
      simp only [hcut] at h
      cases h
    | none =>
      simp only [hcut] at h
      split at h
      next r₀ hr₀ =>
        obtain rfl := Sum.inl.inj h
        exact ⟨hopen, rfl, hr₀⟩
      next => cases h
  next => cases h

theorem call_inl {c : Request V} {uuid : String} {s : State} {r : Object V}
    (hopen : s.worker.connected) (hcut : c.cut = none)
    (h : (workerReply J (ownId J c.payload (s.worker.seq + 1) uuid) c.looks s).ending = .take r) :
    (call J c uuid s).2 = .inl r := by
  simp only [call, hopen, if_true, hcut]
  split
  next r₀ hr₀ =>
    obtain rfl := Ending.take.inj (h.symm.trans hr₀)
    rfl
  next hlate => cases h.symm.trans hlate

/-! ### Replies in time -/

/-- Where a reply stands in the stream a call reads: `before` are the looks at the clock up to the
one that finds it complete, `after` those that are left. In front of it are the complete lines
`ahead` and the unfinished line `part`, and `behind` is what has come after it. -/
structure Arrival where
  before : List Bytes
  after : List Bytes
  ahead : List Bytes
  part : Bytes
  line : Bytes
  behind : Bytes

/-- The stream is as `a` says, starting with what was in the buffer and in the FIFO. The call has
time to go through what stands in front of the reply: two looks at the clock a byte. -/
structure Arrival.InTime (a : Arrival) (looks : List Bytes) (left : Bytes) : Prop where
  looks : looks = a.before ++ a.after
  stream : left ++ a.before.flatten = join nl a.ahead ++ ((a.part ++ a.line) ++ nl :: a.behind)
  ahead : ∀ l ∈ a.ahead, nl ∉ l
  part : nl ∉ a.part
  line : nl ∉ a.line
  time : 2 * ((join nl a.ahead).length + (a.part ++ a.line).length + 1) ≤ a.after.length

/-- What comes behind the reply holds no second reply to the same call. -/
def Arrival.Once {ε : Type*} (a : Arrival) (judge : Bytes → Verdict (Object V) ε) : Prop :=
  ∀ l ∈ lines nl (a.behind ++ a.after.flatten), ∀ r, judge l ≠ .take r

/-- The line is the reply `r`, and the first one to this call. -/
structure Arrival.Is {ε : Type*} (a : Arrival) (judge : Bytes → Verdict (Object V) ε)
    (r : Object V) : Prop where
  reply : judge a.line = .take r
  first : ∀ l ∈ a.ahead, ∀ r', judge l ≠ .take r'

variable (J) in
/-- What stands in front of the reply does not keep the probe from it: every complete line is an
object, and what follows the last of them, up to the newline of the reply, is the reply. -/
def ProbeClear (a : Arrival) (r : Object V) (wall : V) : Prop :=
  (∀ l ∈ a.ahead, ∃ o, J.loads l = .object o) ∧
    ∃ r', J.loads (a.part ++ a.line) = .object r' ∧
      Codec.setdefault r' "wall_ms" wall = Codec.setdefault r "wall_ms" wall

variable (J) in
/-- What stands in front of the reply does not keep the client from it. Complete lines never do. -/
def WorkerClear (a : Arrival) (r : Object V) : Prop := J.loadsText (a.part ++ a.line) = .object r

theorem Arrival.InTime.noNewline {a : Arrival} {looks : List Bytes} {left : Bytes}
    (h : a.InTime looks left) : nl ∉ a.part ++ a.line := by
  rw [List.mem_append, not_or]
  exact ⟨h.part, h.line⟩

theorem block_pos : 0 < block := by decide

variable (J) in
/-- The calls that can be made in state `s` get their own replies. -/
structure Answered (s : State) : Prop where
  /-- What `control` returns is decoded from a complete line and carries the identity and the
  command of the request. The identity is new. -/
  probe_own : ∀ (c : Request V) epoch wall r, (control J c epoch wall s).2 = .inl r →
    ∃ e, epoch = some e ∧ probeId e (s.probe.ctrlSeq + 1) ∉ s.issued ∧
      J.get r "ctrl_id" = J.str (probeId e (s.probe.ctrlSeq + 1)) ∧
      J.get r "ctrl" = J.get c.payload "ctrl" ∧
      ∃ line ∈ lines nl (s.probe.outBuf ++ s.fout ++ c.looks.flatten), ∃ r₀,
        J.loads line = .object r₀ ∧ r = Codec.setdefault r₀ "wall_ms" wall
  /-- `control` returns a reply in time exactly when what stands in front of it is clear. -/
  probe_answer : ∀ (c : Request V) e wall (a : Arrival) r, c.cut = none →
    a.InTime c.looks (s.probe.outBuf ++ s.fout) →
    a.Is (probeJudge J (probeRequest J c.payload e (s.probe.ctrlSeq + 1))) r →
    (ProbeClear J a r wall →
      (control J c (some e) wall s).2 = .inl (Codec.setdefault r "wall_ms" wall)) ∧
    (a.Once (probeJudge J (probeRequest J c.payload e (s.probe.ctrlSeq + 1))) →
      (control J c (some e) wall s).2 = .inl (Codec.setdefault r "wall_ms" wall) →
      ProbeClear J a r wall)
  /-- What `call` returns is decoded from a complete line and carries the identity of the request,
  which is new unless the caller has chosen it. -/
  worker_own : ∀ (c : Request V) uuid r, (call J c uuid s).2 = .inl r →
    J.get r "ctrl_id" = ownId J c.payload (s.worker.seq + 1) uuid ∧
      workerId (s.worker.seq + 1) uuid ∉ s.issued ∧
      ∃ line ∈ lines nl (s.worker.buf ++ s.fout ++ c.looks.flatten), J.loadsText line = .object r
  /-- `call` returns a reply in time exactly when what stands in front of it is clear. -/
  worker_answer : ∀ (c : Request V) uuid (a : Arrival) r, s.worker.connected → c.cut = none →
    a.InTime c.looks (s.worker.buf ++ s.fout) →
    a.Is (workerJudge J (ownId J c.payload (s.worker.seq + 1) uuid)) r →
    (WorkerClear J a r → (call J c uuid s).2 = .inl r) ∧
    (a.Once (workerJudge J (ownId J c.payload (s.worker.seq + 1) uuid)) →
      (call J c uuid s).2 = .inl r → WorkerClear J a r)

theorem probe_own {s : State} (hs : Numbered s) {c : Request V} {epoch : Option ℕ} {wall : V}
    {r : Object V} (h : (control J c epoch wall s).2 = .inl r) :
    ∃ e, epoch = some e ∧ probeId e (s.probe.ctrlSeq + 1) ∉ s.issued ∧
      J.get r "ctrl_id" = J.str (probeId e (s.probe.ctrlSeq + 1)) ∧
      J.get r "ctrl" = J.get c.payload "ctrl" ∧
      ∃ line ∈ lines nl (s.probe.outBuf ++ s.fout ++ c.looks.flatten), ∃ r₀,
        J.loads line = .object r₀ ∧ r = Codec.setdefault r₀ "wall_ms" wall := by
  obtain ⟨e, r₀, rfl, -, rfl, htake⟩ := of_control_inl h
  obtain ⟨ls, line, rest, hstream, hls, hline, hj⟩ := of_pump_take htake
  obtain ⟨hload, hid, hctrl⟩ := of_probeJudge_take hj
  refine ⟨e, rfl, hs.probeId_fresh e, ?_, ?_, line, ?_, r₀, hload, rfl⟩
  · rw [get_setdefault_of_ne (by decide), hid, get_probeRequest_ctrlId]
  · rw [get_setdefault_of_ne (by decide), hctrl, get_probeRequest_ctrl]
  · rw [hstream, lines_join fun l hl => (hls l hl).1, lines_append hline]
    simp

theorem worker_own {s : State} (hs : Numbered s) {c : Request V} {uuid : String} {r : Object V}
    (h : (call J c uuid s).2 = .inl r) :
    J.get r "ctrl_id" = ownId J c.payload (s.worker.seq + 1) uuid ∧
      workerId (s.worker.seq + 1) uuid ∉ s.issued ∧
      ∃ line ∈ lines nl (s.worker.buf ++ s.fout ++ c.looks.flatten),
        J.loadsText line = .object r := by
  obtain ⟨-, -, htake⟩ := of_call_inl h
  obtain ⟨ls, line, rest, hstream, hls, hline, hj⟩ := of_pump_take htake
  obtain ⟨hload, hid⟩ := of_workerJudge_take hj
  refine ⟨hid, hs.workerId_fresh uuid, line, ?_, hload⟩
  rw [hstream, lines_join fun l hl => (hls l hl).1, lines_append hline]
  simp

/-- A clear reply is returned by `control`. -/
theorem control_of_clear {s : State} {c : Request V} {e : ℕ} {wall : V} {a : Arrival}
    {r : Object V} (hcut : c.cut = none) (hin : a.InTime c.looks (s.probe.outBuf ++ s.fout))
    (his : a.Is (probeJudge J (probeRequest J c.payload e (s.probe.ctrlSeq + 1))) r)
    (hclear : ProbeClear J a r wall) :
    (control J c (some e) wall s).2 = .inl (Codec.setdefault r "wall_ms" wall) := by
  obtain ⟨hahead, r', hload, hsame⟩ := hclear
  obtain ⟨-, hid, hctrl⟩ := of_probeJudge_take his.reply
  have hget : ∀ key ≠ "wall_ms", J.get r' key = J.get r key := by
    intro key hne
    have := congrArg (J.get · key) hsame
    simpa only [get_setdefault_of_ne hne] using this
  have htake : probeJudge J (probeRequest J c.payload e (s.probe.ctrlSeq + 1))
      (a.part ++ a.line) = .take r' := by
    simp [probeJudge, hload, hget, hid, hctrl]
  rw [← hsame]
  refine control_inl hcut ?_
  rw [probeReply, hin.looks]
  refine pump_take_of_skip block_pos hin.stream (fun l hl => ⟨hin.ahead l hl, ?_⟩) hin.noNewline
    htake hin.time
  exact probeJudge_eq_skip_iff.mpr ⟨hahead l hl, his.first l hl⟩

/-- A reply that `control` returns was clear. -/
theorem clear_of_control {s : State} {c : Request V} {e : ℕ} {wall : V} {a : Arrival}
    {r : Object V} (hin : a.InTime c.looks (s.probe.outBuf ++ s.fout))
    (his : a.Is (probeJudge J (probeRequest J c.payload e (s.probe.ctrlSeq + 1))) r)
    (honce : a.Once (probeJudge J (probeRequest J c.payload e (s.probe.ctrlSeq + 1))))
    (h : (control J c (some e) wall s).2 = .inl (Codec.setdefault r "wall_ms" wall)) :
    ProbeClear J a r wall := by
  obtain ⟨e', r', he, -, hsame, htake⟩ := of_control_inl h
  obtain rfl := Option.some.inj he
  rw [probeReply, hin.looks] at htake
  obtain ⟨hskip, hj⟩ := skip_of_pump_take hin.stream hin.ahead hin.noNewline
    (fun l hl => his.first l hl r') (fun l hl => honce l hl r') htake
  exact ⟨fun l hl => (probeJudge_eq_skip_iff.mp (hskip l hl)).1, r', (of_probeJudge_take hj).1,
    hsame.symm⟩

/-- A clear reply is returned by `call`. -/
theorem call_of_clear {s : State} {c : Request V} {uuid : String} {a : Arrival} {r : Object V}
    (hopen : s.worker.connected) (hcut : c.cut = none)
    (hin : a.InTime c.looks (s.worker.buf ++ s.fout))
    (his : a.Is (workerJudge J (ownId J c.payload (s.worker.seq + 1) uuid)) r)
    (hclear : WorkerClear J a r) : (call J c uuid s).2 = .inl r := by
  have htake : workerJudge J (ownId J c.payload (s.worker.seq + 1) uuid) (a.part ++ a.line) =
      .take r := by
    unfold WorkerClear at hclear
    simp [workerJudge, hclear, (of_workerJudge_take his.reply).2]
  refine call_inl hopen hcut ?_
  rw [workerReply, hin.looks]
  exact pump_take_of_skip block_pos hin.stream
    (fun l hl => ⟨hin.ahead l hl, workerJudge_eq_skip_iff.mpr (his.first l hl)⟩) hin.noNewline
    htake hin.time

/-- A reply that `call` returns was clear. -/
theorem clear_of_call {s : State} {c : Request V} {uuid : String} {a : Arrival} {r : Object V}
    (hin : a.InTime c.looks (s.worker.buf ++ s.fout))
    (his : a.Is (workerJudge J (ownId J c.payload (s.worker.seq + 1) uuid)) r)
    (honce : a.Once (workerJudge J (ownId J c.payload (s.worker.seq + 1) uuid)))
    (h : (call J c uuid s).2 = .inl r) : WorkerClear J a r := by
  obtain ⟨-, -, htake⟩ := of_call_inl h
  rw [workerReply, hin.looks] at htake
  obtain ⟨-, hj⟩ := skip_of_pump_take hin.stream hin.ahead hin.noNewline
    (fun l hl => his.first l hl r) (fun l hl => honce l hl r) htake
  exact (of_workerJudge_take hj).1

/-- **Host requests get their own reply.** After any sequence of calls of both clients, wherever
they were cut short and whatever has come in, a returned reply is the call's own, and a reply in
time is returned exactly when what stands in front of it is clear. -/
theorem requests_get_own_reply (acts : List (Act V)) : Answered J (run J acts) where
  probe_own _ _ _ _ h := probe_own (numbered_run acts) h
  probe_answer _ _ _ _ _ hcut hin his :=
    ⟨control_of_clear hcut hin his, clear_of_control hin his⟩
  worker_own _ _ _ h := worker_own (numbered_run acts) h
  worker_answer _ _ _ _ hopen hcut hin his :=
    ⟨call_of_clear hopen hcut hin his, clear_of_call hin his⟩

/-! ### The rest of a reply that was cut -/

/-- The reply to a `ping`. -/
def pong (id : String) : Object (Option String) :=
  (Dict.empty.set "ctrl_id" (some id)).set "ctrl" (some "ping")

/-- Its text. -/
def pongLine (id : String) : Bytes :=
  ascii ("\x7b\"ctrl_id\": \"" ++ id ++ "\", \"ctrl\": \"ping\"\x7d")

/-- The JSON library on the replies to the first two requests, and on what is left of them. -/
def pingCodec : Codec (Option String) where
  null := none
  str := some
  int n := some (toString n)
  truthy v := v.any (· ≠ "")
  isTrue _ := false
  dumps _ := []
  loads l :=
    if l = pongLine "ep0.ctrl-1" then .object (pong "ep0.ctrl-1")
    else if l = pongLine "ep0.ctrl-2" then .object (pong "ep0.ctrl-2")
    else .invalid
  loadsText _ := .invalid

/-- A `ping` that looks at the clock as often as `looks` says. -/
def ping (looks : List Bytes) : Request (Option String) :=
  ⟨Dict.empty.set "ctrl" (some "ping"), none, looks⟩

/-- The first `ping` runs into its deadline in the middle of the reply, and the rest comes later. -/
def cutReply : List (Act (Option String)) :=
  [.control (ping [(pongLine "ep0.ctrl-1").take 16]) (some 0) none,
    .arrive ((pongLine "ep0.ctrl-1").drop 16 ++ [nl])]

/-- The reply to the second `ping`, which comes at once. -/
def secondReply : Arrival where
  before := [pongLine "ep0.ctrl-2" ++ [nl]]
  after := List.replicate 150 []
  ahead := [(pongLine "ep0.ctrl-1").drop 16]
  part := []
  line := pongLine "ep0.ctrl-2"
  behind := []

/-- **A reply in time is lost.** The rest of the first reply stands in front of the second one. It
is no JSON, so the second `ping` fails although its reply is there. -/
theorem reply_lost_behind_remains :
    secondReply.InTime (ping (secondReply.before ++ secondReply.after)).looks
      ((run pingCodec cutReply).probe.outBuf ++ (run pingCodec cutReply).fout) ∧
    secondReply.Is (probeJudge pingCodec (probeRequest pingCodec (ping []).payload 0
      ((run pingCodec cutReply).probe.ctrlSeq + 1))) (pong "ep0.ctrl-2") ∧
    ∃ f, (control pingCodec (ping (secondReply.before ++ secondReply.after)) (some 0) none
      (run pingCodec cutReply)).2 = .inr f ∧ f.err = .json := by
  have hne : pongLine "ep0.ctrl-2" ≠ pongLine "ep0.ctrl-1" := by decide +kernel
  have hseq : (run pingCodec cutReply).probe.ctrlSeq + 1 = 2 := by decide +kernel
  have hid : probeId 0 2 = "ep0.ctrl-2" := by decide +kernel
  refine ⟨⟨rfl, ?_, ?_, ?_, ?_, ?_⟩, ⟨?_, ?_⟩, ?_⟩
  · decide +kernel
  · decide +kernel
  · decide +kernel
  · decide +kernel
  · decide +kernel
  · have hload : pingCodec.loads (pongLine "ep0.ctrl-2") = .object (pong "ep0.ctrl-2") := by
      simp [pingCodec, hne]
    have hown : pingCodec.get (pong "ep0.ctrl-2") "ctrl_id" = pingCodec.str (probeId 0 2) := by
      rw [hid]
      rfl
    rw [hseq, secondReply, probeJudge, hload]
    simp only [get_probeRequest_ctrlId, get_probeRequest_ctrl, hown]
    rfl
  · intro l hl r' h
    obtain rfl := List.mem_singleton.mp hl
    have hbad : pingCodec.loads ((pongLine "ep0.ctrl-1").drop 16) = .invalid := by
      have h1 : (pongLine "ep0.ctrl-1").drop 16 ≠ pongLine "ep0.ctrl-1" := by decide +kernel
      have h2 : (pongLine "ep0.ctrl-1").drop 16 ≠ pongLine "ep0.ctrl-2" := by decide +kernel
      simp [pingCodec, h1, h2]
    cases hbad.symm.trans (of_probeJudge_take h).1
  · have herr : Sum.elim (fun _ => none) (fun f => some f.err) (control pingCodec
        (ping (secondReply.before ++ secondReply.after)) (some 0) none
        (run pingCodec cutReply)).2 = some Err.json := by decide +kernel
    cases hout : (control pingCodec (ping (secondReply.before ++ secondReply.after)) (some 0) none
        (run pingCodec cutReply)).2 with
    | inl r =>
      rw [hout] at herr
      cases herr
    | inr f =>
      rw [hout] at herr
      exact ⟨f, rfl, Option.some.inj herr⟩

end Host

end DeltaBox
