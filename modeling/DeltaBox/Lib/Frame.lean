import Mathlib.Data.List.Basic
import Mathlib.Data.List.Infix

/-!
# Newline-framed messages in a byte stream

A stream of bytes that is cut into lines by its readers. What the bytes spell does not matter here.
What matters is which message each byte belongs to, because a reader that gets the tail of one
message behind the head of another has a line that belongs to neither. So a byte is its message
number, its position in that message, and whether it is the newline.

## Main definitions

* `Frame.frame k n` — message `k`, `n` bytes long, its newline included
* `Frame.cut` — split off the first complete line
* `Frame.whole` — the message a line is, if it is exactly one

## Main results

* `Frame.cut_append_of_suffix` — a reader of a stream that holds the tail of one message gets
  everything that is left, or no line at all
-/

namespace DeltaBox

namespace Frame

/-- A byte of a message. -/
structure Byte where
  /-- The message. -/
  msg : ℕ
  /-- The position in it. -/
  idx : ℕ
  /-- Is it the newline? -/
  eol : Bool
  deriving DecidableEq, Repr

/-- Message `k` with `n` bytes. Only the last one is a newline. -/
def frame (k n : ℕ) : List Byte := (List.range n).map fun i => ⟨k, i, i + 1 = n⟩

/-- No complete line. -/
def NoLine (bs : List Byte) : Prop := ∀ b ∈ bs, b.eol = false

instance (bs : List Byte) : Decidable (NoLine bs) := inferInstanceAs (Decidable (∀ b ∈ bs, _))

/-- The first complete line, newline included, and what follows it. -/
def cut : List Byte → Option (List Byte × List Byte)
  | [] => none
  | b :: bs => if b.eol then some ([b], bs) else (cut bs).map fun x => (b :: x.1, x.2)

/-- The message a line is: all of its bytes, in order, and nothing else. -/
def whole : List Byte → Option ℕ
  | [] => none
  | b :: bs => if b :: bs = frame b.msg (b :: bs).length then some b.msg else none

theorem msg_of_mem_frame {k n : ℕ} {b : Byte} (h : b ∈ frame k n) : b.msg = k := by
  obtain ⟨i, -, rfl⟩ := List.mem_map.mp h
  rfl

@[simp] theorem length_frame (k n : ℕ) : (frame k n).length = n := by simp [frame]

theorem whole_eq_some {line : List Byte} {k : ℕ} (h : whole line = some k) :
    line = frame k line.length := by
  cases line with
  | nil => cases h
  | cons b bs =>
    rw [whole] at h
    split_ifs at h with hf
    obtain rfl := Option.some.inj h
    exact hf

theorem msg_of_whole {line : List Byte} {k : ℕ} (h : whole line = some k) :
    ∀ b ∈ line, b.msg = k := by
  intro b hb
  rw [whole_eq_some h] at hb
  exact msg_of_mem_frame hb

/-! ### Cutting -/

theorem cut_eq_none {bs : List Byte} : cut bs = none ↔ NoLine bs := by
  induction bs with
  | nil => simp [cut, NoLine]
  | cons b bs ih =>
    rw [cut]
    by_cases hb : b.eol
    · simp [hb, NoLine]
    · simp only [hb, Bool.false_eq_true, if_false, Option.map_eq_none_iff, ih]
      simp [NoLine, hb]

theorem cut_eq_some {bs line rest : List Byte} (h : cut bs = some (line, rest)) :
    bs = line ++ rest ∧ ∃ init b, line = init ++ [b] ∧ b.eol = true ∧ NoLine init := by
  induction bs generalizing line rest with
  | nil => cases h
  | cons b bs ih =>
    rw [cut] at h
    split_ifs at h with hb
    · obtain ⟨rfl, rfl⟩ := Prod.mk.inj (Option.some.inj h)
      exact ⟨rfl, [], b, rfl, hb, by simp [NoLine]⟩
    · obtain ⟨⟨l, r⟩, hcut, heq⟩ := Option.map_eq_some_iff.mp h
      obtain ⟨rfl, rfl⟩ := Prod.mk.inj heq
      obtain ⟨rfl, init, c, rfl, hc, hinit⟩ := ih hcut
      refine ⟨rfl, b :: init, c, rfl, hc, ?_⟩
      intro x hx
      rcases List.mem_cons.mp hx with rfl | hx
      · simpa using hb
      · exact hinit x hx

theorem cut_of_noLine {init rest : List Byte} {b : Byte} (hinit : NoLine init)
    (hb : b.eol = true) : cut (init ++ b :: rest) = some (init ++ [b], rest) := by
  induction init with
  | nil => simp [cut, hb]
  | cons x init ih =>
    have hx : x.eol = false := hinit x (List.mem_cons_self ..)
    have htail := ih fun y hy => hinit y (List.mem_cons_of_mem _ hy)
    simp [cut, hx, htail]

theorem noLine_append {as bs : List Byte} : NoLine (as ++ bs) ↔ NoLine as ∧ NoLine bs := by
  simp [NoLine, or_imp, forall_and]

@[simp] theorem noLine_nil : NoLine [] := by simp [NoLine]

theorem NoLine.mono {as bs : List Byte} (h : NoLine bs) (hsub : as ⊆ bs) : NoLine as :=
  fun b hb => h b (hsub hb)

/-! ### The tail of one message -/

/-- In the tail of a message that is written up to byte `m`, a newline is the last byte, and the
message is completely written. -/
theorem eol_last {k n m : ℕ} {fifo as bs : List Byte} {b : Byte}
    (hsuf : fifo <:+ (frame k n).take m) (hf : fifo = as ++ b :: bs) (hb : b.eol = true) :
    bs = [] ∧ n ≤ m := by
  obtain ⟨pre, hpre⟩ := hsuf
  rw [hf, ← List.append_assoc] at hpre
  have hlen := congrArg List.length hpre
  simp only [List.length_append, List.length_cons, List.length_take, length_frame] at hlen
  have hi : (pre ++ as).length < ((frame k n).take m).length := by
    rw [← hpre]
    simp
  have hget : ((frame k n).take m)[(pre ++ as).length]? = some b := by
    rw [← hpre]
    simp
  rw [List.getElem?_take] at hget
  split_ifs at hget with hlt
  have hn : (pre ++ as).length + 1 = n := by
    simp only [frame, List.getElem?_map, Option.map_eq_some_iff] at hget
    obtain ⟨i, hi, rfl⟩ := hget
    obtain ⟨hlt', rfl⟩ := List.getElem?_eq_some_iff.mp hi
    simpa using hb
  rw [List.length_append] at hn hlt
  constructor
  · refine List.eq_nil_of_length_eq_zero ?_
    omega
  · omega

/-- A message that is not completely written has no newline. -/
theorem noLine_of_suffix {k n m : ℕ} {fifo : List Byte} (hsuf : fifo <:+ (frame k n).take m)
    (hlt : m < n) : NoLine fifo := by
  intro b hb
  by_contra he
  obtain ⟨as, bs, hf⟩ := List.append_of_mem hb
  have := (eol_last hsuf hf (by simpa using he)).2
  omega

/-- **Reading the tail of one message.** A reader that holds no line and takes up to `c` bytes of
the tail of message `k` completes a line only by taking everything that is left. That line ends with
the newline of `k`, so it can only be message `k`. -/
theorem cut_append_of_suffix {k n m c : ℕ} {buf fifo line rest : List Byte} (hbuf : NoLine buf)
    (hsuf : fifo <:+ (frame k n).take m) (h : cut (buf ++ fifo.take c) = some (line, rest)) :
    rest = [] ∧ fifo.drop c = [] ∧ fifo ≠ [] ∧ n ≤ m ∧ ∀ j, whole line = some j → j = k := by
  obtain ⟨happ, init, b, rfl, hb, -⟩ := cut_eq_some h
  have hmem : b ∈ fifo.take c := by
    have hb' : b ∈ buf ++ fifo.take c := by
      rw [happ]
      simp
    rcases List.mem_append.mp hb' with hb' | hb'
    · rw [hbuf b hb'] at hb
      cases hb
    · exact hb'
  obtain ⟨as, bs, hsplit⟩ := List.append_of_mem hmem
  have hfifo : fifo = as ++ b :: (bs ++ fifo.drop c) := by
    conv_lhs => rw [← List.take_append_drop c fifo, hsplit]
    simp
  obtain ⟨hnil, hle⟩ := eol_last hsuf hfifo hb
  obtain ⟨rfl, hdrop⟩ := List.append_eq_nil_iff.mp hnil
  have has : NoLine as := by
    intro x hx
    by_contra hxe
    obtain ⟨u, v, rfl⟩ := List.append_of_mem hx
    have hu : fifo = u ++ x :: (v ++ b :: ([] ++ fifo.drop c)) := hfifo.trans (by simp)
    have htail := (eol_last hsuf hu (by simpa using hxe)).1
    simp at htail
  have hrest : rest = [] := by
    rw [hsplit, ← List.append_assoc, cut_of_noLine (noLine_append.mpr ⟨hbuf, has⟩) hb] at h
    exact (Prod.mk.inj (Option.some.inj h)).2.symm
  refine ⟨hrest, hdrop, ?_, hle, fun j hj => ?_⟩
  · rw [hfifo]
    simp
  · have hbj := msg_of_whole hj b (by simp)
    have hbk : b ∈ frame k n := List.mem_of_mem_take (hsuf.subset (List.mem_of_mem_take hmem))
    exact hbj.symm.trans (msg_of_mem_frame hbk)

end Frame

end DeltaBox
