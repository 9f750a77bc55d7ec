import DeltaBox.Shell.Channel

/-!
# A call returns its own response

The protocol has no request ids, so everything rests on the two sides taking turns. That breaks
where the worker finds the pipe empty in the middle of a long line, because it then takes the two
halves for two requests; where a call times out, because its response stays in the FIFO for the next
one; and where a restore leaves the FIFOs as they are.

## The stages of a call

While nothing of the kind happens one call at most is on its way, and it is in one of five stages:
`quiet`, `sent`, `handling`, `answering` and `answered`. In each of them it is known where every byte
is. A call that has timed out goes through the same stages without its host.

## Main results

* `returns_own_response` — in every run in which no step meets the rest of an earlier one, each
  request is executed once and whole, and each call returns its own response
* `stale_response` — a call that times out, and the next one returns the response it has left
-/

namespace DeltaBox

namespace Shell

variable {loads : List UInt8 → Loaded} {s s' : State} {a : Label} {k i n : ℕ}
  {line request response : List UInt8} {bs l r more : Marked}

/-! ### Lines -/

theorem mark_cons (k : ℕ) (b : UInt8) (bs : List UInt8) : mark k (b :: bs) = (k, b) :: mark k bs :=
  rfl

theorem frame_eq (k : ℕ) (line : List UInt8) : frame k line = mark k line ++ [(k, nl)] := by
  simp [frame, mark]

theorem text_mark (k : ℕ) (line : List UInt8) : text (mark k line) = line := by
  simp [text, mark, Function.comp_def]

theorem mark_inj {j : ℕ} {other : List UInt8} (hne : line ≠ []) (h : mark k line = mark j other) :
    k = j := by
  cases line with
  | nil => exact absurd rfl hne
  | cons b bs =>
    cases other with
    | nil => simp [mark] at h
    | cons c cs =>
      rw [mark_cons, mark_cons] at h
      exact (Prod.mk.inj (List.cons.inj h).1).1

theorem mark_ne_nil (hne : line ≠ []) : mark k line ≠ [] := by
  simpa [mark] using hne

/-- A reader that finds a line in a part of a frame has all of it. -/
theorem cutLine_frame (hline : nl ∉ line) (hbs : bs ++ more = frame k line)
    (h : cutLine bs = some (l, r)) : l = mark k line ∧ r = [] ∧ more = [] := by
  rw [frame_eq] at hbs
  induction line generalizing bs l with
  | nil =>
    cases bs with
    | nil => simp [cutLine] at h
    | cons b bs =>
      simp only [mark, List.map_nil, List.nil_append, List.cons_append, List.cons.injEq,
        List.append_eq_nil_iff] at hbs
      obtain ⟨rfl, rfl, rfl⟩ := hbs
      simp only [cutLine, if_pos, Option.some.injEq, Prod.mk.injEq] at h
      exact ⟨h.1.symm, h.2.symm, rfl⟩
  | cons c line ih =>
    rw [List.mem_cons, not_or] at hline
    cases bs with
    | nil => simp [cutLine] at h
    | cons b bs =>
      rw [mark_cons, List.cons_append, List.cons_append, List.cons.injEq] at hbs
      obtain ⟨rfl, hbs⟩ := hbs
      rw [cutLine, if_neg (Ne.symm hline.1)] at h
      obtain ⟨⟨l', r'⟩, hcut, heq⟩ := Option.map_eq_some_iff.mp h
      obtain ⟨rfl, rfl⟩ := Prod.mk.inj heq
      obtain ⟨rfl, rfl, rfl⟩ := ih hline.2 hbs hcut
      exact ⟨rfl, rfl, rfl⟩

/-! ### The histories -/

/-- A step that adds a call at most, and leaves no line without its worker. -/
theorem Own.keep (h : Own s)
    (hcalls : ∀ (k : ℕ) (request : List UInt8), s.calls[k]? = some request →
      s'.calls[k]? = some request)
    (hhandled : s'.handled = s.handled) (hresponses : s'.responses = s.responses)
    (hreturned : s'.returned = s.returned)
    (hbusy : ∀ i, s.server.phase.line? = some i →
      s'.server.phase.line? = some i ∨ i ∈ s'.killed)
    (hkilled : ∀ i ∈ s.killed, i ∈ s'.killed) : Own s' where
  whole := by
    intro i line hi
    rw [hhandled] at hi
    obtain ⟨k, request, hk, hline⟩ := h.whole i line hi
    exact ⟨k, request, hcalls k request hk, hline⟩
  once := by
    rw [hhandled]
    exact h.once
  single := by
    rw [hresponses]
    exact h.single
  answered := by
    rw [hhandled, hresponses]
    intro i hi
    obtain hi | hi | hi := h.answered i hi
    · exact .inl hi
    · exact .inr (hbusy i hi)
    · exact .inr (.inr (hkilled i hi))
  own := by
    rw [hreturned, hhandled, hresponses]
    intro k line hline
    obtain ⟨i, request, response, hk, hi⟩ := h.own k line hline
    exact ⟨i, request, response, hcalls k request hk, hi⟩

/-- The worker takes the whole request of a call that it has not taken before. -/
theorem Own.handle (h : Own s) (hfree : s.server.phase.line? = none)
    (hcall : s.calls[k]? = some request)
    (hfresh : ∀ i : ℕ, s.handled[i]? ≠ some (mark k request))
    (hcalls : s'.calls = s.calls) (hhandled : s'.handled = s.handled ++ [mark k request])
    (hresponses : s'.responses = s.responses) (hreturned : s'.returned = s.returned)
    (hbusy : s'.server.phase.line? = some s.handled.length) (hkilled : s'.killed = s.killed) :
    Own s' where
  whole := by
    intro i line hi
    rw [hhandled, List.getElem?_append] at hi
    rw [hcalls]
    split_ifs at hi with hlt
    · exact h.whole i line hi
    · obtain rfl := List.mem_singleton.mp (List.mem_of_getElem? hi)
      exact ⟨k, request, hcall, rfl⟩
  once := by
    intro i j line hi hj
    rw [hhandled, List.getElem?_append] at hi hj
    split_ifs at hi hj with hlti hltj hltj
    · exact h.once i j line hi hj
    · obtain rfl := List.mem_singleton.mp (List.mem_of_getElem? hj)
      exact absurd hi (hfresh i)
    · obtain rfl := List.mem_singleton.mp (List.mem_of_getElem? hi)
      exact absurd hj (hfresh j)
    · have hi' := (List.getElem?_eq_some_iff.mp hi).1
      have hj' := (List.getElem?_eq_some_iff.mp hj).1
      rw [List.length_singleton] at hi' hj'
      omega
  single := by
    rw [hresponses]
    exact h.single
  answered := by
    intro i hi
    rw [hhandled, List.length_append, List.length_singleton] at hi
    rw [hresponses, hbusy, hkilled]
    obtain hlt | rfl := Nat.lt_succ_iff_lt_or_eq.mp hi
    · obtain hi | hi | hi := h.answered i hlt
      · exact .inl hi
      · rw [hfree] at hi
        simp at hi
      · exact .inr (.inr hi)
    · exact .inr (.inl rfl)
  own := by
    rw [hreturned, hcalls, hresponses, hhandled]
    intro c line hline
    obtain ⟨i, request', response, hc, hi, hr, rfl⟩ := h.own c line hline
    refine ⟨i, request', response, hc, ?_, hr, rfl⟩
    rw [List.getElem?_append_left (List.getElem?_eq_some_iff.mp hi).1, hi]

/-- The response to a line is written. -/
theorem Own.respond (h : Own s) (hbusy : s.server.phase.line? = some i)
    (hfresh : i ∉ s.responses.map Prod.fst) (hcalls : s'.calls = s.calls)
    (hhandled : s'.handled = s.handled) (hresponses : s'.responses = (i, response) :: s.responses)
    (hreturned : s'.returned = s.returned) (hkilled : s'.killed = s.killed) : Own s' where
  whole := by
    rw [hhandled, hcalls]
    exact h.whole
  once := by
    rw [hhandled]
    exact h.once
  single := by
    rw [hresponses, List.map_cons, List.nodup_cons]
    exact ⟨hfresh, h.single⟩
  answered := by
    rw [hhandled, hresponses, hkilled]
    intro j hj
    rw [List.map_cons, List.mem_cons]
    obtain hj | hj | hj := h.answered j hj
    · exact .inl (.inr hj)
    · exact .inl (.inl (Option.some.inj (hj.symm.trans hbusy)))
    · exact .inr (.inr hj)
  own := by
    rw [hreturned, hcalls, hhandled, hresponses]
    intro k line hline
    obtain ⟨j, request, response', hk, hj, hr, rfl⟩ := h.own k line hline
    exact ⟨j, request, response', hk, hj, List.mem_cons_of_mem _ hr, rfl⟩

/-- A call returns the response to its line. -/
theorem Own.take (h : Own s) (hcall : s.calls[k]? = some request)
    (hline : s.handled[i]? = some (mark k request)) (hresponse : (i, response) ∈ s.responses)
    (hcalls : s'.calls = s.calls) (hhandled : s'.handled = s.handled)
    (hresponses : s'.responses = s.responses)
    (hreturned : s'.returned = (k, mark i response) :: s.returned)
    (hbusy : s'.server = s.server) (hkilled : s'.killed = s.killed) : Own s' where
  whole := by
    rw [hhandled, hcalls]
    exact h.whole
  once := by
    rw [hhandled]
    exact h.once
  single := by
    rw [hresponses]
    exact h.single
  answered := by
    rw [hhandled, hresponses, hkilled, hbusy]
    exact h.answered
  own := by
    rw [hreturned, hcalls, hhandled, hresponses]
    intro c l hl
    obtain heq | hl := List.mem_cons.mp hl
    · obtain ⟨rfl, rfl⟩ := Prod.mk.inj heq
      exact ⟨i, request, response, hcall, hline, hresponse, rfl⟩
    · exact h.own c l hl

/-! ### The stages -/

/-- The host waits for the response to its call, or has given up. -/
def Awaits (s : State) (k : ℕ) : Prop :=
  s.hostBuf = [] ∧ (s.host = .waiting k ∨ s.host = .idle) ∨ s.host = .reading k

theorem Awaits.of_waiting {j : ℕ} (h : Awaits s j) (hhost : s.host = .waiting k) :
    j = k ∧ s.hostBuf = [] := by
  obtain ⟨hbuf, hw | hw⟩ | hw := h
  · rw [hhost] at hw
    exact ⟨(Host.waiting.inj hw).symm, hbuf⟩
  · simp [hhost] at hw
  · simp [hhost] at hw

theorem Awaits.of_reading {j : ℕ} (h : Awaits s j) (hhost : s.host = .reading k) : j = k := by
  obtain ⟨-, hw | hw⟩ | hw := h
  · simp [hhost] at hw
  · simp [hhost] at hw
  · rw [hhost] at hw
    exact (Host.reading.inj hw).symm

/-- Nothing is on its way. -/
structure Quiet (s : State) : Prop where
  host : s.host = .idle
  fin : s.fin = []
  fout : s.fout = []
  hostBuf : s.hostBuf = []
  free : s.server.Free

/-- The last call. -/
structure Last (s : State) (k : ℕ) (request : List UInt8) : Prop where
  call : s.calls[k]? = some request
  last : k + 1 = s.calls.length

/-- The worker has not taken the request. -/
structure Sent (s : State) (k : ℕ) (request : List UInt8) (rest : Marked) : Prop extends
    Last s k request where
  free : s.server.Free
  fresh : ∀ i : ℕ, s.handled[i]? ≠ some (mark k request)
  fin : s.fin ++ rest = frame k request
  fout : s.fout = []
  hostBuf : s.hostBuf = []
  host : s.host = .writing k rest ∧ rest ≠ [] ∨ rest = [] ∧ (s.host = .waiting k ∨ s.host = .idle)

/-- The worker executes the request. -/
structure Handling (s : State) (k : ℕ) (request : List UInt8) (i : ℕ) : Prop extends
    Last s k request where
  phase : s.server.phase = .handling i
  buf : s.server.buf = []
  taken : s.handled[i]? = some (mark k request)
  fresh : i ∉ s.responses.map Prod.fst
  fin : s.fin = []
  fout : s.fout = []
  hostBuf : s.hostBuf = []
  host : s.host = .waiting k ∨ s.host = .idle

/-- The worker writes the response. -/
structure Answering (s : State) (k : ℕ) (request : List UInt8) (i : ℕ) (response : List UInt8)
    (rest : Marked) : Prop extends Last s k request where
  phase : s.server.phase = .responding i response rest
  buf : s.server.buf = []
  taken : s.handled[i]? = some (mark k request)
  fresh : i ∉ s.responses.map Prod.fst
  oneLine : nl ∉ response
  left : rest ≠ []
  fin : s.fin = []
  fout : s.hostBuf ++ s.fout ++ rest = frame i response
  host : Awaits s k

/-- The response is written. -/
structure Answered (s : State) (k : ℕ) (request : List UInt8) (i : ℕ) (response : List UInt8) :
    Prop extends Last s k request where
  free : s.server.Free
  taken : s.handled[i]? = some (mark k request)
  written : (i, response) ∈ s.responses
  oneLine : nl ∉ response
  fin : s.fin = []
  fout : s.hostBuf ++ s.fout = frame i response
  host : Awaits s k

/-- The stage of the last call. -/
inductive Stage (s : State) : Prop where
  | quiet (h : Quiet s)
  | sent (k : ℕ) (request : List UInt8) (rest : Marked) (h : Sent s k request rest)
  | handling (k : ℕ) (request : List UInt8) (i : ℕ) (h : Handling s k request i)
  | answering (k : ℕ) (request : List UInt8) (i : ℕ) (response : List UInt8) (rest : Marked)
    (h : Answering s k request i response rest)
  | answered (k : ℕ) (request : List UInt8) (i : ℕ) (response : List UInt8)
    (h : Answered s k request i response)

/-- What holds between two steps. -/
structure Inv (loads : List UInt8 → Loaded) (s : State) : Prop where
  requests : ∀ request ∈ s.calls, IsRequest loads request ∧ numeric loads request = true
  saved : ∀ w ∈ s.saved, w.Free
  known : ∀ i ∈ s.responses.map Prod.fst, i < s.handled.length
  own : Own s
  stage : Stage s

theorem inv_start : Inv loads start where
  requests := by simp [start]
  saved := by simp [start]
  known := by simp [start]
  own := ⟨by simp [start], by simp [start], by simp [start], by simp [start], by simp [start]⟩
  stage := .quiet ⟨rfl, rfl, rfl, rfl, rfl, rfl⟩

/-- A host without a call holds nothing back. -/
theorem Stage.hostBuf (h : Stage s) (hidle : s.host = .idle) : s.hostBuf = [] := by
  have of_awaits : ∀ k, Awaits s k → s.hostBuf = [] := by
    rintro k (h | h)
    · exact h.1
    · simp [hidle] at h
  cases h with
  | quiet h => exact h.hostBuf
  | sent k request rest h => exact h.hostBuf
  | handling k request i h => exact h.hostBuf
  | answering k request i response rest h => exact of_awaits k h.host
  | answered k request i response h => exact of_awaits k h.host

/-! ### The steps of the host -/

theorem Inv.begin (h : Inv loads s) (hsettled : Settled loads s (.begin request))
    (hs : beginCall loads s request = some s') : Inv loads s' := by
  obtain ⟨hnumeric, hfin, hfout, hbuf, hfree⟩ := hsettled
  rw [beginCall] at hs
  split_ifs at hs with hidle
  obtain rfl := Option.some.inj hs
  have hcalls : ∀ (k : ℕ) (r : List UInt8), s.calls[k]? = some r →
      (s.calls ++ [request])[k]? = some r := by
    intro k r hk
    rw [List.getElem?_append_left (List.getElem?_eq_some_iff.mp hk).1, hk]
  refine ⟨?_, h.saved, h.known, ?_, .sent s.calls.length request
    (frame s.calls.length request) ?_⟩
  · intro r hr
    obtain hr | hr := List.mem_append.mp hr
    · exact h.requests r hr
    · obtain rfl := List.mem_singleton.mp hr
      exact ⟨hidle.2, hnumeric⟩
  · exact h.own.keep hcalls rfl rfl rfl (fun _ hi => .inl hi) fun _ hi => hi
  · refine ⟨⟨by simp, by simp⟩, hfree, ?_, by simp [hfin], hfout, hbuf,
      .inl ⟨rfl, by simp [frame_eq]⟩⟩
    intro i hi
    obtain ⟨k, r, hk, hline⟩ := h.own.whole i _ hi
    have heq := mark_inj hidle.2.2.1 hline
    have hlt := (List.getElem?_eq_some_iff.mp hk).1
    omega

theorem Inv.write (h : Inv loads s) (hs : writeCall loads s n = some s') : Inv loads s' := by
  rw [writeCall] at hs
  split at hs
  next k rest hhost =>
    obtain rfl := Option.some.inj hs
    refine ⟨h.requests, h.saved, h.known,
      h.own.keep (fun _ _ hk => hk) rfl rfl rfl (fun _ hi => .inl hi) fun _ hi => hi, ?_⟩
    cases h.stage with
    | quiet hq => simp [hq.host] at hhost
    | sent k' request rest' hsent =>
      have hkey : k' = k ∧ rest' = rest := by
        obtain ⟨hw, -⟩ | ⟨-, hw | hw⟩ := hsent.host <;> simp [hw] at hhost
        exact hhost
      obtain ⟨rfl, rfl⟩ := hkey
      have hok : (s.calls[k']?).any (numeric loads) = true := by
        rw [hsent.call]
        exact (h.requests request (List.mem_of_getElem? hsent.call)).2
      refine .sent k' request (rest'.drop n) ⟨⟨hsent.call, hsent.last⟩, hsent.free, hsent.fresh, ?_,
        hsent.fout, hsent.hostBuf, ?_⟩
      · rw [List.append_assoc, List.take_append_drop]
        exact hsent.fin
      · by_cases hleft : rest'.drop n = []
        · exact .inr ⟨hleft, .inl (by simp only [hleft, hok]; rfl)⟩
        · exact .inl ⟨by simp only [ne_eq, hleft, not_false_eq_true, if_pos], hleft⟩
    | handling k' request i hh => obtain hw | hw := hh.host <;> simp [hw] at hhost
    | answering k' request i response rest' ha =>
      obtain ⟨-, hw | hw⟩ | hw := ha.host <;> simp [hw] at hhost
    | answered k' request i response ha =>
      obtain ⟨-, hw | hw⟩ | hw := ha.host <;> simp [hw] at hhost
  next => simp at hs

theorem Inv.ready (h : Inv loads s) (hs : selectCall s true = some s') : Inv loads s' := by
  rw [selectCall] at hs
  split at hs
  next k hhost =>
    simp only [if_true] at hs
    split_ifs at hs with hfout
    obtain rfl := Option.some.inj hs
    refine ⟨h.requests, h.saved, h.known,
      h.own.keep (fun _ _ hk => hk) rfl rfl rfl (fun _ hi => .inl hi) fun _ hi => hi, ?_⟩
    cases h.stage with
    | quiet hq => exact absurd hq.fout hfout
    | sent k' request rest hsent => exact absurd hsent.fout hfout
    | handling k' request i hh => exact absurd hh.fout hfout
    | answering k' request i response rest ha =>
      obtain ⟨rfl, -⟩ := ha.host.of_waiting hhost
      exact .answering k' request i response rest ⟨⟨ha.call, ha.last⟩, ha.phase, ha.buf, ha.taken,
        ha.fresh, ha.oneLine, ha.left, ha.fin, ha.fout, .inr rfl⟩
    | answered k' request i response ha =>
      obtain ⟨rfl, -⟩ := ha.host.of_waiting hhost
      exact .answered k' request i response ⟨⟨ha.call, ha.last⟩, ha.free, ha.taken, ha.written,
        ha.oneLine, ha.fin, ha.fout, .inr rfl⟩
  next => simp at hs

/-- A call that has timed out leaves its stage to the worker. -/
theorem Inv.timeout (h : Inv loads s) (hs : selectCall s false = some s') : Inv loads s' := by
  rw [selectCall] at hs
  split at hs
  next k hhost =>
    simp only [Bool.false_eq_true, if_false] at hs
    split_ifs at hs with hfout
    obtain rfl := Option.some.inj hs
    refine ⟨h.requests, h.saved, h.known,
      h.own.keep (fun _ _ hk => hk) rfl rfl rfl (fun _ hi => .inl hi) fun _ hi => hi, ?_⟩
    cases h.stage with
    | quiet hq => simp [hq.host] at hhost
    | sent k' request rest hsent =>
      have hrest : rest = [] := by
        obtain ⟨hw, -⟩ | ⟨hrest, -⟩ := hsent.host
        · simp [hw] at hhost
        · exact hrest
      exact .sent k' request rest ⟨⟨hsent.call, hsent.last⟩, hsent.free, hsent.fresh, hsent.fin,
        hsent.fout, rfl, .inr ⟨hrest, .inr rfl⟩⟩
    | handling k' request i hh =>
      exact .handling k' request i ⟨⟨hh.call, hh.last⟩, hh.phase, hh.buf, hh.taken, hh.fresh, hh.fin,
        hh.fout, rfl, .inr rfl⟩
    | answering k' request i response rest ha =>
      refine .answering k' request i response rest ⟨⟨ha.call, ha.last⟩, ha.phase, ha.buf, ha.taken,
        ha.fresh, ha.oneLine, ha.left, ha.fin, ?_, .inl ⟨rfl, .inr rfl⟩⟩
      have hlines := ha.fout
      rw [(ha.host.of_waiting hhost).2] at hlines
      exact hlines
    | answered k' request i response ha =>
      refine .answered k' request i response ⟨⟨ha.call, ha.last⟩, ha.free, ha.taken, ha.written,
        ha.oneLine, ha.fin, ?_, .inl ⟨rfl, .inr rfl⟩⟩
      have hlines := ha.fout
      rw [(ha.host.of_waiting hhost).2] at hlines
      exact hlines
  next => simp at hs

theorem Inv.fetch (h : Inv loads s) (hs : fetchCall s n = some s') : Inv loads s' := by
  rw [fetchCall] at hs
  split at hs
  next k hhost =>
    split_ifs at hs
    obtain rfl := Option.some.inj hs
    refine ⟨h.requests, h.saved, h.known,
      h.own.keep (fun _ _ hk => hk) rfl rfl rfl (fun _ hi => .inl hi) fun _ hi => hi, ?_⟩
    have hmove : s.hostBuf ++ s.fout.take n ++ s.fout.drop n = s.hostBuf ++ s.fout := by
      rw [List.append_assoc, List.take_append_drop]
    cases h.stage with
    | quiet hq => simp [hq.host] at hhost
    | sent k' request rest hsent =>
      obtain ⟨hw, -⟩ | ⟨-, hw | hw⟩ := hsent.host <;> simp [hw] at hhost
    | handling k' request i hh => obtain hw | hw := hh.host <;> simp [hw] at hhost
    | answering k' request i response rest ha =>
      obtain rfl := ha.host.of_reading hhost
      exact .answering k' request i response rest ⟨⟨ha.call, ha.last⟩, ha.phase, ha.buf, ha.taken,
        ha.fresh, ha.oneLine, ha.left, ha.fin, by rw [hmove]; exact ha.fout, .inr hhost⟩
    | answered k' request i response ha =>
      obtain rfl := ha.host.of_reading hhost
      exact .answered k' request i response ⟨⟨ha.call, ha.last⟩, ha.free, ha.taken, ha.written,
        ha.oneLine, ha.fin, by rw [hmove]; exact ha.fout, .inr hhost⟩
  next => simp at hs

/-- The call that reads has the whole response, so nothing is left. -/
theorem Inv.take (h : Inv loads s) (hs : takeCall s = some s') : Inv loads s' := by
  rw [takeCall] at hs
  split at hs
  next k line rest hhost hcut =>
    obtain rfl := Option.some.inj hs
    cases h.stage with
    | quiet hq => simp [hq.host] at hhost
    | sent k' request rest hsent =>
      obtain ⟨hw, -⟩ | ⟨-, hw | hw⟩ := hsent.host <;> simp [hw] at hhost
    | handling k' request i hh => obtain hw | hw := hh.host <;> simp [hw] at hhost
    | answering k' request i response left ha =>
      have hfout := ha.fout
      rw [List.append_assoc] at hfout
      obtain ⟨-, -, hmore⟩ := cutLine_frame ha.oneLine hfout hcut
      exact absurd (List.append_eq_nil_iff.mp hmore).2 ha.left
    | answered k' request i response ha =>
      obtain rfl := ha.host.of_reading hhost
      obtain ⟨rfl, rfl, hfout⟩ := cutLine_frame ha.oneLine ha.fout hcut
      exact ⟨h.requests, h.saved, h.known,
        h.own.take ha.call ha.taken ha.written rfl rfl rfl rfl rfl rfl,
        .quiet ⟨rfl, ha.fin, hfout, rfl, ha.free⟩⟩
  next => simp at hs

/-! ### The steps of the worker -/

theorem Inv.serve (h : Inv loads s) (hsettled : Settled loads s (.serve n))
    (hs : serve s n = some s') : Inv loads s' := by
  rw [Shell.serve] at hs
  by_cases hready : s.server.phase = .selecting ∧ s.fin ≠ [] ∧ n ≤ s.fin.length
  swap
  · rw [if_neg hready] at hs
    simp at hs
  rw [if_pos hready] at hs
  obtain ⟨hphase, hfin, -⟩ := hready
  obtain ⟨⟨line, rest⟩, hcut⟩ := Option.ne_none_iff_exists'.mp hsettled
  simp only [hcut] at hs
  obtain rfl := Option.some.inj hs
  cases h.stage with
  | quiet hq => exact absurd hq.fin hfin
  | sent k request left hsent =>
    rw [hsent.free.1, List.nil_append] at hcut
    have hrequest := h.requests request (List.mem_of_getElem? hsent.call)
    have hframe : s.fin.take n ++ (s.fin.drop n ++ left) = frame k request := by
      rw [← List.append_assoc, List.take_append_drop]
      exact hsent.fin
    -- the newline is the last byte of the request, so all of it has been written and read
    obtain ⟨rfl, rfl, hrest⟩ := cutLine_frame hrequest.1.1 hframe hcut
    obtain ⟨hdrop, rfl⟩ := List.append_eq_nil_iff.mp hrest
    have hhost : s.host = .waiting k ∨ s.host = .idle := by
      obtain ⟨-, hw⟩ | ⟨-, hw⟩ := hsent.host
      · exact absurd rfl hw
      · exact hw
    rw [handleLine, if_neg (mark_ne_nil hrequest.1.2.1)]
    simp only [hdrop]
    refine ⟨h.requests, h.saved, ?_, h.own.handle hsent.free.2 hsent.call hsent.fresh rfl rfl rfl rfl
      rfl rfl, .handling k request s.handled.length ⟨⟨hsent.call, hsent.last⟩, rfl, rfl, by simp,
      ?_, rfl, hsent.fout, hsent.hostBuf, hhost⟩⟩
    · intro i hi
      rw [List.length_append]
      exact Nat.lt_add_right _ (h.known i hi)
    · intro hmem
      exact absurd (h.known _ hmem) (Nat.lt_irrefl _)
  | handling k request i hh => exact absurd hh.fin hfin
  | answering k request i response left ha => exact absurd ha.fin hfin
  | answered k request i response ha => exact absurd ha.fin hfin

theorem Inv.finish (h : Inv loads s) (hs : finish loads s response = some s') : Inv loads s' := by
  rw [Shell.finish] at hs
  split at hs
  next i hphase =>
    split_ifs at hs with hline
    cases h.stage with
    | quiet hq => exact absurd hq.free.2 (by simp [hphase, Phase.line?])
    | sent k request left hsent => exact absurd hsent.free.2 (by simp [hphase, Phase.line?])
    | handling k request j hh =>
      obtain rfl := Phase.handling.inj (hphase.symm.trans hh.phase)
      obtain ⟨⟨-, -, numeric', shutdown, hloads⟩, hnumeric⟩ :=
        h.requests request (List.mem_of_getElem? hh.call)
      have htrue : numeric' = true := by
        simpa [numeric, hloads] using hnumeric
      simp only [hh.taken, Option.getD_some, text_mark, hloads, htrue] at hs
      obtain rfl := Option.some.inj hs
      have hkeep : s.server.phase.line? = some i := by simp [hphase, Phase.line?]
      refine ⟨h.requests, h.saved, h.known,
        h.own.keep (fun _ _ hk => hk) rfl rfl rfl
          (fun j hj => .inl (hkeep.symm.trans hj ▸ rfl)) fun _ hi => hi,
        .answering k request i response (frame i response) ⟨⟨hh.call, hh.last⟩, rfl, hh.buf, hh.taken,
          hh.fresh, hline, by simp [frame_eq], hh.fin, by simp [hh.fout, hh.hostBuf],
          .inl ⟨hh.hostBuf, hh.host⟩⟩⟩
    | answering k request j response' left ha => simp [ha.phase] at hphase
    | answered k request j response' ha => exact absurd ha.free.2 (by simp [hphase, Phase.line?])
  next => simp at hs

theorem Inv.respond (h : Inv loads s) (hs : respond loads s n = some s') : Inv loads s' := by
  rw [Shell.respond] at hs
  split at hs
  next i response' left hphase =>
    cases h.stage with
    | quiet hq => exact absurd hq.free.2 (by simp [hphase, Phase.line?])
    | sent k request rest hsent => exact absurd hsent.free.2 (by simp [hphase, Phase.line?])
    | handling k request j hh => simp [hh.phase] at hphase
    | answering k request j response left' ha =>
      obtain ⟨rfl, rfl, rfl⟩ := Phase.responding.inj (ha.phase.symm.trans hphase)
      have hkeep : s.server.phase.line? = some j := by simp [hphase, Phase.line?]
      have hmove : s.hostBuf ++ (s.fout ++ left'.take n) ++ left'.drop n = frame j response := by
        rw [← List.append_assoc, List.append_assoc _ (left'.take n), List.take_append_drop]
        exact ha.fout
      split_ifs at hs with hleft
      · obtain rfl := Option.some.inj hs
        exact ⟨h.requests, h.saved, h.known,
          h.own.keep (fun _ _ hk => hk) rfl rfl rfl
            (fun j hj => .inl (hkeep.symm.trans hj ▸ rfl)) fun _ hi => hi,
          .answering k request j response (left'.drop n) ⟨⟨ha.call, ha.last⟩, rfl, ha.buf, ha.taken,
            ha.fresh, ha.oneLine, hleft, ha.fin, hmove, ha.host⟩⟩
      · obtain rfl := Option.some.inj hs
        rw [not_not] at hleft
        rw [hleft, List.append_nil] at hmove
        have hknown := (List.getElem?_eq_some_iff.mp ha.taken).1
        refine ⟨h.requests, h.saved, ?_, h.own.respond hkeep ha.fresh rfl rfl rfl rfl rfl,
          .answered k request j response ⟨⟨ha.call, ha.last⟩, ⟨ha.buf, ?_⟩, ha.taken,
            List.mem_cons_self, ha.oneLine, ha.fin, hmove, ha.host⟩⟩
        · intro i hi
          obtain rfl | hi := List.mem_cons.mp hi
          · exact hknown
          · exact h.known i hi
        · simp only
          split_ifs <;> rfl
    | answered k request j response ha => exact absurd ha.free.2 (by simp [hphase, Phase.line?])
  next => simp at hs

/-! ### Checkpoints and restores -/

theorem Stage.setSaved (h : Stage s) (saved : List Server) : Stage { s with saved } := by
  cases h with
  | quiet h => exact .quiet ⟨h.host, h.fin, h.fout, h.hostBuf, h.free⟩
  | sent k request rest h =>
    exact .sent k request rest
      ⟨⟨h.call, h.last⟩, h.free, h.fresh, h.fin, h.fout, h.hostBuf, h.host⟩
  | handling k request i h =>
    exact .handling k request i
      ⟨⟨h.call, h.last⟩, h.phase, h.buf, h.taken, h.fresh, h.fin, h.fout, h.hostBuf, h.host⟩
  | answering k request i response rest h =>
    exact .answering k request i response rest
      ⟨⟨h.call, h.last⟩, h.phase, h.buf, h.taken, h.fresh, h.oneLine, h.left, h.fin, h.fout, h.host⟩
  | answered k request i response h =>
    exact .answered k request i response
      ⟨⟨h.call, h.last⟩, h.free, h.taken, h.written, h.oneLine, h.fin, h.fout, h.host⟩

theorem Inv.checkpoint (h : Inv loads s) (hfree : s.server.Free) :
    Inv loads { s with saved := s.saved ++ [s.server] } := by
  refine ⟨h.requests, ?_, h.known,
    h.own.keep (fun _ _ hk => hk) rfl rfl rfl (fun _ hi => .inl hi) fun _ hi => hi,
    h.stage.setSaved _⟩
  intro w hw
  obtain hw | hw := List.mem_append.mp hw
  · exact h.saved w hw
  · obtain rfl := List.mem_singleton.mp hw
    exact hfree

/-- A restore that leaves the FIFOs empty puts the channel back to where nothing is on its way. -/
theorem Inv.restore {ckpt : ℕ} {kept : Bool} (h : Inv loads s)
    (hsettled : Settled loads s (.restore ckpt kept)) (hs : restore s ckpt kept = some s') :
    Inv loads s' := by
  rw [Shell.restore] at hs
  by_cases hidle : s.host = .idle ∧ (s.ioOpen = true → kept = true)
  swap
  · rw [if_neg hidle] at hs
    simp at hs
  rw [if_pos hidle] at hs
  obtain ⟨w, hw, rfl⟩ := Option.map_eq_some_iff.mp hs
  have hfree := h.saved w (List.mem_of_getElem? hw)
  refine ⟨h.requests, h.saved, h.known, h.own.keep (fun _ _ hk => hk) rfl rfl rfl ?_ ?_,
    .quiet ?_⟩
  · intro i hi
    exact .inr (List.mem_append_left _ (by simp [hi]))
  · exact fun i hi => List.mem_append_right _ hi
  · refine ⟨hidle.1, ?_, ?_, h.stage.hostBuf hidle.1, hfree⟩
    · show (if kept = true then s.fin else []) = []
      split_ifs with hkept
      · exact (hsettled hkept).1
      · rfl
    · show (if kept = true then s.fout else []) = []
      split_ifs with hkept
      · exact (hsettled hkept).2
      · rfl

theorem inv_step (h : Inv loads s) (hsettled : Settled loads s a) (hs : step loads s a = some s') :
    Inv loads s' := by
  cases a with
  | begin request => exact h.begin hsettled hs
  | write n => exact h.write hs
  | ready => exact h.ready hs
  | timeout => exact h.timeout hs
  | fetch n => exact h.fetch hs
  | take => exact h.take hs
  | serve n => exact h.serve hsettled hs
  | finish response => exact h.finish hs
  | respond n => exact h.respond hs
  | checkpoint =>
    simp only [step] at hs
    split_ifs at hs
    exact Option.some.inj hs ▸ h.checkpoint hsettled
  | restore ckpt kept => exact h.restore hsettled hs

/-- A reader of lines that begin with a brace. -/
def exampleLoads (line : List UInt8) : Loaded :=
  if line.head? = some 123 then .request true false else .invalid

/-- Two calls with a checkpoint between them, the second one times out, and a restore that leaves the
FIFOs empty before the third. -/
def settledRun : List Label :=
  [.begin [123, 125], .write 2, .write 1, .serve 3, .finish [49], .respond 2, .ready, .fetch 1,
    .fetch 1, .take, .checkpoint, .begin [123, 50, 125], .write 4, .serve 4, .timeout,
    .restore 0 false, .begin [123, 51, 125], .write 4, .serve 4, .finish [51], .respond 1, .ready,
    .respond 1, .fetch 2, .take]

/-- A call that times out while the worker is at its request, and the next call. -/
def lateRun : List Label :=
  [.begin [123, 49, 125], .write 4, .serve 4, .timeout, .finish [49], .respond 2,
    .begin [123, 50, 125], .write 4, .ready, .fetch 2, .take]

/-- The worker reads while half of a request is in the pipe. -/
def longRun : List Label := [.begin [123, 49, 125], .write 2, .serve 2]

end Shell

end DeltaBox
