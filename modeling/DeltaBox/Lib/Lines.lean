import Mathlib.Data.List.Basic

/-!
# Reading lines from a stream against a deadline

A reader keeps a buffer in front of a stream, cuts the first complete line off the buffer, judges
it, and either returns, gives up, or goes on to the next line. When the buffer holds no complete
line it reads a block. Between two looks at the clock it does one of these things, so a call is
determined by the bytes that have come in at each look, and it ends at the latest when the looks
are used up.

## Main definitions

* `Lines.split1` — `buf.split(sep, 1)`
* `Lines.join`, `Lines.lines` — lines one behind the other, and the complete lines of a stream
* `Lines.turn`, `Lines.pump` — what a reader does at one look at the clock, and up to the deadline

## Main results

* `Lines.of_pump_take` — what a reader returns is the judgement of a complete line of the stream,
  and it has skipped every line before that one
* `Lines.pump_take_of_skip` — a line that is in the stream early enough is returned if every line
  before it is skipped
* `Lines.skip_of_pump_take` — and only then, unless it comes a second time
-/

namespace DeltaBox

namespace Lines

variable {α ρ ε : Type*} {sep : α}

/-! ### Lines -/

/-- Lines one behind the other, each with its separator. -/
def join (sep : α) (ls : List (List α)) : List α := ls.flatMap (· ++ [sep])

@[simp] theorem join_nil : join sep [] = [] := rfl

@[simp] theorem join_cons (l : List α) (ls : List (List α)) :
    join sep (l :: ls) = l ++ sep :: join sep ls := by
  simp [join]

variable [DecidableEq α]

/-- `buf.split(sep, 1)`: what stands before the first separator, and what stands behind it. -/
def split1 (sep : α) : List α → Option (List α × List α)
  | [] => none
  | b :: bs => if b = sep then some ([], bs) else (split1 sep bs).map fun x => (b :: x.1, x.2)

/-- The complete lines of a stream. -/
def lines (sep : α) : List α → List (List α)
  | [] => []
  | b :: bs =>
    if b = sep then [] :: lines sep bs
    else match lines sep bs with
      | [] => []
      | l :: ls => (b :: l) :: ls

theorem split1_eq_none_iff {bs : List α} : split1 sep bs = none ↔ sep ∉ bs := by
  induction bs with
  | nil => simp [split1]
  | cons b bs ih =>
    rw [split1]
    split_ifs with hb
    · simp [hb]
    · simp [ih, Ne.symm hb]

theorem split1_append {l : List α} (hl : sep ∉ l) (rest : List α) :
    split1 sep (l ++ sep :: rest) = some (l, rest) := by
  induction l with
  | nil => simp [split1]
  | cons b l ih =>
    rw [List.mem_cons, not_or] at hl
    simp [split1, Ne.symm hl.1, ih hl.2]

theorem eq_of_split1 {bs l rest : List α} (h : split1 sep bs = some (l, rest)) :
    bs = l ++ sep :: rest ∧ sep ∉ l := by
  induction bs generalizing l rest with
  | nil => cases h
  | cons b bs ih =>
    rw [split1] at h
    split_ifs at h with hb
    · obtain ⟨rfl, rfl⟩ := Prod.mk.inj (Option.some.inj h)
      simp [hb]
    · obtain ⟨⟨l', rest'⟩, hs, heq⟩ := Option.map_eq_some_iff.mp h
      obtain ⟨rfl, rfl⟩ := Prod.mk.inj heq
      obtain ⟨rfl, hl⟩ := ih hs
      refine ⟨rfl, ?_⟩
      rw [List.mem_cons, not_or]
      exact ⟨Ne.symm hb, hl⟩

theorem lines_append {l : List α} (hl : sep ∉ l) (rest : List α) :
    lines sep (l ++ sep :: rest) = l :: lines sep rest := by
  induction l with
  | nil => simp [lines]
  | cons b l ih =>
    rw [List.mem_cons, not_or] at hl
    simp [lines, Ne.symm hl.1, ih hl.2]

theorem lines_join {ls : List (List α)} (hls : ∀ l ∈ ls, sep ∉ l) (rest : List α) :
    lines sep (join sep ls ++ rest) = ls ++ lines sep rest := by
  induction ls with
  | nil => rfl
  | cons l ls ih =>
    have hl := hls l (List.mem_cons_self ..)
    have htail := ih fun l' hl' => hls l' (List.mem_cons_of_mem _ hl')
    rw [join_cons, List.append_assoc, List.cons_append, lines_append hl, htail]
    rfl

/-- Two ways to cut a stream agree on the first line. -/
theorem first_line_unique {l l' rest rest' : List α} (hl : sep ∉ l) (hl' : sep ∉ l')
    (h : l ++ sep :: rest = l' ++ sep :: rest') : l = l' ∧ rest = rest' := by
  have hs := split1_append hl rest
  rw [h, split1_append hl' rest'] at hs
  obtain ⟨rfl, rfl⟩ := Prod.mk.inj (Option.some.inj hs)
  exact ⟨rfl, rfl⟩

/-! ### The reader -/

/-- What a reader makes of a line. -/
inductive Verdict (ρ ε : Type*) where
  /-- It is the answer. -/
  | take (r : ρ)
  /-- It is somebody else's. -/
  | skip
  /-- It cannot be read. -/
  | fail (e : ε)
  deriving DecidableEq

/-- How a reader ends. -/
inductive Ending (ρ ε : Type*) where
  | take (r : ρ)
  | fail (e : ε)
  /-- The deadline has passed. -/
  | late
  deriving DecidableEq

/-- What one look at the clock leads to: a line, if one was cut off, the buffer, the rest of the
stream, and the block that was read. -/
structure Turn (α : Type*) where
  line : Option (List α)
  buf : List α
  fifo : List α
  chunk : List α

/-- How a call ends and what it leaves. -/
structure Result (α ρ ε : Type*) where
  ending : Ending ρ ε
  buf : List α
  fifo : List α
  /-- The blocks that were read. -/
  chunks : List (List α)
  /-- The lines that were skipped. -/
  skipped : List (List α)

/-- Cut a line off the buffer or, if there is none, read a block. An `eager` reader cuts the line a
block completes without another look at the clock. -/
def turn (sep : α) (block : ℕ) (eager : Bool) (buf fifo : List α) : Turn α :=
  match split1 sep buf with
  | some (l, rest) => ⟨some l, rest, fifo, []⟩
  | none =>
    match split1 sep (buf ++ fifo.take block), eager with
    | some (l, rest), true => ⟨some l, rest, fifo.drop block, fifo.take block⟩
    | _, _ => ⟨none, buf ++ fifo.take block, fifo.drop block, fifo.take block⟩

/-- Read until a line is taken or refused, or the deadline passes. The list has one entry for each
look at the clock that finds time left: the bytes that have come in since the look before. -/
def pump (sep : α) (block : ℕ) (eager : Bool) (judge : List α → Verdict ρ ε) :
    List (List α) → List α → List α → Result α ρ ε
  | [], buf, fifo => ⟨.late, buf, fifo, [], []⟩
  | bs :: looks, buf, fifo =>
    let t := turn sep block eager buf (fifo ++ bs)
    match t.line with
    | none =>
      let res := pump sep block eager judge looks t.buf t.fifo
      { res with chunks := t.chunk :: res.chunks }
    | some l =>
      match judge l with
      | .take r => ⟨.take r, t.buf, t.fifo, [t.chunk], []⟩
      | .fail e => ⟨.fail e, t.buf, t.fifo, [t.chunk], []⟩
      | .skip =>
        let res := pump sep block eager judge looks t.buf t.fifo
        { res with chunks := t.chunk :: res.chunks, skipped := l :: res.skipped }

variable {block : ℕ} {eager : Bool} {judge : List α → Verdict ρ ε} {buf fifo bs : List α}
  {looks : List (List α)} {r : ρ}

/-- A turn that cuts a line cuts the first one of the stream. -/
theorem turn_some {l : List α} (h : (turn sep block eager buf fifo).line = some l) :
    buf ++ fifo = l ++ sep :: ((turn sep block eager buf fifo).buf ++
      (turn sep block eager buf fifo).fifo) ∧ sep ∉ l ∧
    buf.length ≤ (turn sep block eager buf fifo).buf.length + (l.length + 1) := by
  unfold turn at h ⊢
  split at h
  next l' rest hs =>
    obtain ⟨hbuf, hl⟩ := eq_of_split1 hs
    obtain rfl := Option.some.inj h
    refine ⟨by simp [hbuf], hl, ?_⟩
    simp [hbuf]
    omega
  next hs =>
    split at h
    next l' rest hs' =>
      obtain ⟨hbuf, hl⟩ := eq_of_split1 hs'
      obtain rfl := Option.some.inj h
      refine ⟨?_, hl, ?_⟩
      · conv_lhs => rw [← List.take_append_drop block fifo, ← List.append_assoc, hbuf]
        simp
      · have hlen := congrArg List.length hbuf
        simp only [List.length_append, List.length_cons] at hlen
        dsimp only
        omega
    next => cases h

/-- A turn that cuts no line found none, and has read what there was. -/
theorem turn_none (h : (turn sep block eager buf fifo).line = none) :
    buf ++ fifo = (turn sep block eager buf fifo).buf ++ (turn sep block eager buf fifo).fifo ∧
    sep ∉ buf ∧ (turn sep block eager buf fifo).buf = buf ++ fifo.take block := by
  unfold turn at h ⊢
  split at h
  next => cases h
  next hs =>
    have hbuf : sep ∉ buf := split1_eq_none_iff.mp hs
    split at h
    next => cases h
    next => simp [hbuf]

theorem pump_of_none (h : (turn sep block eager buf (fifo ++ bs)).line = none) :
    (pump sep block eager judge (bs :: looks) buf fifo).ending =
      (pump sep block eager judge looks (turn sep block eager buf (fifo ++ bs)).buf
        (turn sep block eager buf (fifo ++ bs)).fifo).ending := by
  simp only [pump, h]

theorem pump_of_skip {l : List α} (h : (turn sep block eager buf (fifo ++ bs)).line = some l)
    (hl : judge l = .skip) :
    (pump sep block eager judge (bs :: looks) buf fifo).ending =
      (pump sep block eager judge looks (turn sep block eager buf (fifo ++ bs)).buf
        (turn sep block eager buf (fifo ++ bs)).fifo).ending := by
  simp only [pump, h, hl]

theorem pump_of_take {l : List α} (h : (turn sep block eager buf (fifo ++ bs)).line = some l)
    (hl : judge l = .take r) :
    (pump sep block eager judge (bs :: looks) buf fifo).ending = .take r := by
  simp only [pump, h, hl]

/-- **What a reader returns.** It is the judgement of a complete line of the stream, and every line
before it has been skipped. -/
theorem of_pump_take (h : (pump sep block eager judge looks buf fifo).ending = .take r) :
    ∃ ls l rest, buf ++ fifo ++ looks.flatten = join sep ls ++ (l ++ sep :: rest) ∧
      (∀ l' ∈ ls, sep ∉ l' ∧ judge l' = .skip) ∧ sep ∉ l ∧ judge l = .take r := by
  induction looks generalizing buf fifo with
  | nil => cases h
  | cons bs looks ih =>
    have hstream : buf ++ fifo ++ (bs :: looks).flatten = buf ++ (fifo ++ bs) ++ looks.flatten := by
      simp
    rw [hstream]
    cases ht : (turn sep block eager buf (fifo ++ bs)).line with
    | none =>
      rw [pump_of_none ht] at h
      rw [(turn_none ht).1]
      exact ih h
    | some l =>
      obtain ⟨hcut, hl, -⟩ := turn_some ht
      rw [hcut]
      cases hj : judge l with
      | take r' =>
        rw [pump_of_take ht hj] at h
        obtain rfl := Ending.take.inj h
        exact ⟨[], l, _, List.append_assoc .., by simp, hl, hj⟩
      | fail e =>
        simp only [pump, ht, hj] at h
        cases h
      | skip =>
        rw [pump_of_skip ht hj] at h
        obtain ⟨ls, l', rest, heq, hls, hl', hj'⟩ := ih h
        refine ⟨l :: ls, l', rest, ?_, ?_, hl', hj'⟩
        · rw [List.append_assoc, List.cons_append, heq]
          simp
        · intro x hx
          rcases List.mem_cons.mp hx with rfl | hx
          · exact ⟨hl, hj⟩
          · exact hls x hx

omit [DecidableEq α] in
/-- A look at the clock: either `before` goes on, or the line is complete and a look is used up. -/
theorem next_look {before after : List (List α)} {front behind : List α}
    (hlooks : before ++ after = bs :: looks)
    (hstream : buf ++ fifo ++ before.flatten = front ++ behind) :
    ∃ before' after' behind', looks = before' ++ after' ∧
      buf ++ (fifo ++ bs) ++ before'.flatten = front ++ behind' ∧
      (after' = after ∨ before' = [] ∧ after.length = after'.length + 1) := by
  cases before with
  | nil =>
    rw [List.nil_append] at hlooks
    refine ⟨[], looks, behind ++ bs, rfl, ?_, .inr ⟨rfl, by simp [hlooks]⟩⟩
    simp only [List.flatten_nil, List.append_nil] at hstream ⊢
    rw [← List.append_assoc, hstream, List.append_assoc]
  | cons b before =>
    obtain ⟨rfl, rfl⟩ := List.cons.inj hlooks
    refine ⟨before, after, behind, rfl, ?_, .inl rfl⟩
    rw [← hstream]
    simp

/-- The induction behind `pump_take_of_skip`: two looks for each byte up to the end of the line,
less one for each of them that is in the buffer. -/
theorem pump_take_of_credit (hblock : 0 < block) {before after ahead : List (List α)}
    {l behind : List α}
    (hstream : buf ++ fifo ++ before.flatten = (join sep ahead ++ l ++ [sep]) ++ behind)
    (hahead : ∀ l' ∈ ahead, sep ∉ l' ∧ judge l' = .skip) (hl : sep ∉ l)
    (hj : judge l = .take r)
    (hlong : 2 * (join sep ahead ++ l ++ [sep]).length ≤
      after.length + min buf.length (join sep ahead ++ l ++ [sep]).length) :
    (pump sep block eager judge (before ++ after) buf fifo).ending = .take r := by
  induction hlooks : before ++ after generalizing buf fifo before after ahead behind with
  | nil =>
    obtain ⟨-, rfl⟩ := List.append_eq_nil_iff.mp hlooks
    simp only [List.length_append, List.length_cons, List.length_nil] at hlong
    omega
  | cons bs looks ih =>
    obtain ⟨before', after', behind', rfl, hnext, hafter⟩ := next_look hlooks hstream
    cases ht : (turn sep block eager buf (fifo ++ bs)).line with
    | none =>
      obtain ⟨hkeep, hbuf, hread⟩ := turn_none ht
      rw [pump_of_none ht]
      refine ih (by rw [← hkeep]; exact hnext) hahead ?_ rfl
      -- the buffer is shorter than the line's end, so what is read counts
      have hshort : buf.length < (join sep ahead ++ l ++ [sep]).length := by
        by_contra hge
        have hpre : join sep ahead ++ l ++ [sep] <+: buf := by
          refine List.prefix_of_prefix_length_le (List.prefix_append _ behind') ?_ (by omega)
          rw [← hnext, List.append_assoc]
          exact List.prefix_append ..
        exact hbuf (hpre.subset (by simp))
      have hsize := congrArg List.length hnext
      have hgrow := congrArg List.length hread
      simp only [List.length_append, List.length_take] at hsize hgrow hshort hlong ⊢
      rcases hafter with rfl | ⟨rfl, hafter⟩
      · omega
      · simp only [List.flatten_nil, List.length_nil] at hsize
        omega
    | some x =>
      obtain ⟨hcut, hx, hlen⟩ := turn_some ht
      rw [hcut] at hnext
      cases ahead with
      | nil =>
        rw [join_nil, List.nil_append, List.append_assoc, List.append_assoc] at hnext
        obtain ⟨rfl, -⟩ := first_line_unique hx hl hnext
        exact pump_of_take ht hj
      | cons l₀ ahead =>
        obtain ⟨hl₀, hskip⟩ := hahead l₀ (List.mem_cons_self ..)
        simp only [join_cons, List.append_assoc, List.cons_append] at hnext
        obtain ⟨rfl, hrest⟩ := first_line_unique hx hl₀ hnext
        rw [pump_of_skip ht hskip]
        refine ih (by simpa using hrest) (fun l' hl' => hahead l' (List.mem_cons_of_mem _ hl')) ?_ rfl
        simp only [join_cons, List.length_append, List.length_cons, List.length_nil] at hlong ⊢
        rcases hafter with rfl | ⟨-, hafter⟩ <;> omega

/-- **A line that is early enough is returned.** The line `l` is complete in the stream at the look
where `after` begins, everything before it is skipped, and there is time left: two looks at the
clock for each byte up to its end. -/
theorem pump_take_of_skip (hblock : 0 < block) {before after ahead : List (List α)}
    {l behind : List α}
    (hstream : buf ++ fifo ++ before.flatten = join sep ahead ++ (l ++ sep :: behind))
    (hahead : ∀ l' ∈ ahead, sep ∉ l' ∧ judge l' = .skip) (hl : sep ∉ l)
    (hj : judge l = .take r)
    (hlong : 2 * ((join sep ahead).length + l.length + 1) ≤ after.length) :
    (pump sep block eager judge (before ++ after) buf fifo).ending = .take r := by
  have hfront : buf ++ fifo ++ before.flatten = (join sep ahead ++ l ++ [sep]) ++ behind := by
    rw [hstream]
    simp
  refine pump_take_of_credit hblock hfront hahead hl hj ?_
  simp only [List.length_append, List.length_cons, List.length_nil]
  omega

/-- **And only then.** If no line before `l` is an answer, and the answer does not come again behind
it, then a reader that returns it has skipped every line before `l` and taken `l` for it. -/
theorem skip_of_pump_take {before after ahead : List (List α)} {l behind : List α}
    (hstream : buf ++ fifo ++ before.flatten = join sep ahead ++ (l ++ sep :: behind))
    (hahead : ∀ l' ∈ ahead, sep ∉ l') (hl : sep ∉ l)
    (hfirst : ∀ l' ∈ ahead, judge l' ≠ .take r)
    (hlast : ∀ l' ∈ lines sep (behind ++ after.flatten), judge l' ≠ .take r)
    (h : (pump sep block eager judge (before ++ after) buf fifo).ending = .take r) :
    (∀ l' ∈ ahead, judge l' = .skip) ∧ judge l = .take r := by
  obtain ⟨ls, x, rest, heq, hls, hx, hjx⟩ := of_pump_take h
  rw [List.flatten_append, ← List.append_assoc, hstream] at heq
  have hlines : ahead ++ l :: lines sep (behind ++ after.flatten) = ls ++ x :: lines sep rest := by
    rw [← lines_append hl, ← lines_append hx, ← lines_join hahead,
      ← lines_join fun l' hl' => (hls l' hl').1, ← heq]
    simp
  rcases List.append_eq_append_iff.mp hlines with ⟨mid, rfl, hmid⟩ | ⟨mid, rfl, hmid⟩
  · cases mid with
    | nil =>
      obtain ⟨rfl, -⟩ := List.cons.inj hmid
      exact ⟨fun l' hl' => (hls l' (by simpa using hl')).2, hjx⟩
    | cons y mid =>
      -- the reader went on behind `l`, so it took the second copy
      obtain ⟨rfl, htail⟩ := List.cons.inj hmid
      have hmem : x ∈ lines sep (behind ++ after.flatten) := by
        rw [htail]
        simp
      exact absurd hjx (hlast x hmem)
  · cases mid with
    | nil =>
      obtain ⟨rfl, -⟩ := List.cons.inj hmid
      exact ⟨fun l' hl' => (hls l' (by simpa using hl')).2, hjx⟩
    | cons y mid =>
      obtain ⟨rfl, -⟩ := List.cons.inj hmid
      exact absurd hjx (hfirst x (by simp))

end Lines

end DeltaBox
