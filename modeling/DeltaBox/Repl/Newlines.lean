import Mathlib.Data.List.Basic
import Mathlib.Data.List.TakeWhile

/-!
# Newlines in string literals

A model writes `"\n"` in its Python code, and after some decoding the code has a newline in the middle
of a literal. `_escape_newlines_inside_string_literals` puts the two characters back. It follows quotes,
triple quotes and escapes. It does not know of comments, and so an apostrophe in a comment opens a
literal for it.

What Python reads is told by `Reader`, character by character: a literal with single quotes may go on in
the next line, which Python itself would not allow. A prefix of a literal changes nothing: in a raw
literal, too, a quote after a backslash does not end it. Newlines are `\n`.

## Main definitions

* `repair` — `_escape_newlines_inside_string_literals`
* `Reader`, `step` — where a reader of Python code is
* `escaped` — the code with the bare newlines of its single-quoted literals escaped
* `CommentsClosed` — the condition

## Main results

* `repair_eq` — the scanner is the reader that knows of no comments
* `repair_escapes` — where it does what it should
* `comment_apostrophe` — where it does not
-/

namespace DeltaBox

namespace Repl

/-! ### The scanner -/

/-- The two quotes. -/
inductive Quote where
  | single
  | double
  deriving DecidableEq

/-- The character. -/
def Quote.char : Quote → Char
  | .single => '\''
  | .double => '"'

/-- `ch in "'\""`. -/
def quote? (ch : Char) : Option Quote :=
  if ch = '\'' then some .single else if ch = '"' then some .double else none

/-- The variables `quote`, `triple` and `escaped`, while `quote` is not `None`. -/
structure Literal where
  quote : Quote
  triple : Bool
  escaped : Bool
  deriving DecidableEq

/-- `code.startswith(quote * 3, i)`, when a quote is at `i`. -/
def two (q : Quote) (code : List Char) : Bool := code.take 2 = [q.char, q.char]

/-- The loop of `_escape_newlines_inside_string_literals`. After three quotes the index goes on by three:
two characters are skipped. -/
def repairFrom : ℕ → Option Literal → List Char → List Char
  | _, _, [] => []
  | skip + 1, l, _ :: code => repairFrom skip l code
  | 0, none, ch :: code =>
    match quote? ch with
    | some q =>
      if two q code then ch :: ch :: ch :: repairFrom 2 (some ⟨q, true, false⟩) code
      else ch :: repairFrom 0 (some ⟨q, false, false⟩) code
    | none => ch :: repairFrom 0 none code
  | 0, some ⟨q, triple, escaped⟩, ch :: code =>
    if escaped then ch :: repairFrom 0 (some ⟨q, triple, false⟩) code
    else if ch = '\\' then ch :: repairFrom 0 (some ⟨q, triple, true⟩) code
    else if triple && (ch = q.char && two q code) then
      q.char :: q.char :: q.char :: repairFrom 2 none code
    else if !triple && ch = q.char then ch :: repairFrom 0 none code
    else if !triple && ch = '\n' then '\\' :: 'n' :: repairFrom 0 (some ⟨q, triple, false⟩) code
    else ch :: repairFrom 0 (some ⟨q, triple, false⟩) code

/-- `_escape_newlines_inside_string_literals`. -/
def repair (code : List Char) : List Char := repairFrom 0 none code

/-! ### The reader -/

/-- Where a reader of Python code is. -/
inductive Reader where
  | outside
  | comment
  /-- The second or third quote of three that open a literal is next. -/
  | opening (quote : Quote) (last : Bool)
  /-- The second or third quote of three that close a literal is next. -/
  | closing (last : Bool)
  | inside (literal : Literal)
  deriving DecidableEq

/-- The reader reads `ch`, and `code` follows. A reader may know of no comments. -/
def step (comments : Bool) : Reader → Char → List Char → Reader
  | .outside, ch, code =>
    if comments && ch = '#' then .comment
    else
      match quote? ch with
      | some q => if two q code then .opening q false else .inside ⟨q, false, false⟩
      | none => .outside
  | .comment, ch, _ => if ch = '\n' then .outside else .comment
  | .opening q false, _, _ => .opening q true
  | .opening q true, _, _ => .inside ⟨q, true, false⟩
  | .closing false, _, _ => .closing true
  | .closing true, _, _ => .outside
  | .inside ⟨q, triple, true⟩, _, _ => .inside ⟨q, triple, false⟩
  | .inside ⟨q, triple, false⟩, ch, code =>
    if ch = '\\' then .inside ⟨q, triple, true⟩
    else if ch = q.char then
      if triple then
        if two q code then .closing false else .inside ⟨q, true, false⟩
      else .outside
    else .inside ⟨q, triple, false⟩

/-- The next character is a newline that Python does not allow in a literal. -/
def Reader.bare : Reader → Char → Bool
  | .inside ⟨_, false, false⟩, ch => ch = '\n'
  | _, _ => false

/-- The code with these newlines escaped. -/
def escapeFrom (comments : Bool) : Reader → List Char → List Char
  | _, [] => []
  | r, ch :: code =>
    (if r.bare ch then ['\\', 'n'] else [ch]) ++ escapeFrom comments (step comments r ch code) code

/-- The code with the bare newlines of its single-quoted literals escaped. -/
def escaped (code : List Char) : List Char := escapeFrom true .outside code

/-- There are no bare newlines in the literals. -/
def validFrom : Reader → List Char → Bool
  | r, [] => r = .outside || r = .comment
  | r, ch :: code => !r.bare ch && validFrom (step true r ch code) code

/-- The code is lexically valid: no single-quoted literal goes on in the next line, and no literal is
open at the end. -/
def Valid (code : List Char) : Prop := validFrom .outside code = true

instance (code : List Char) : Decidable (Valid code) := inferInstanceAs (Decidable (_ = true))

/-- Where the reader is after the text. -/
def after (comments : Bool) : Reader → List Char → Reader
  | r, [] => r
  | r, ch :: code => after comments (step comments r ch code) code

/-- The line that is left. -/
def line (code : List Char) : List Char := code.takeWhile (· ≠ '\n')

/-- A comment that ends in this line opens no literal for a reader who takes it for code. -/
def commentsClosedFrom : Reader → List Char → Bool
  | _, [] => true
  | r, ch :: code =>
    (!(r = .outside && ch = '#' && '\n' ∈ code) || after false .outside (line code) = .outside) &&
      commentsClosedFrom (step true r ch code) code

/-- No comment, read as code, leaves a literal open at the end of its line. -/
def CommentsClosed (code : List Char) : Prop := commentsClosedFrom .outside code = true

instance (code : List Char) : Decidable (CommentsClosed code) :=
  inferInstanceAs (Decidable (_ = true))

variable {comments : Bool} {r : Reader} {ch : Char} {q : Quote} {code : List Char}

/-! ### Quotes -/

theorem quote?_eq_some (h : quote? ch = some q) : ch = q.char := by
  unfold quote? at h
  split_ifs at h with hsingle hdouble
  · obtain rfl := Option.some.inj h
    exact hsingle
  · obtain rfl := Option.some.inj h
    exact hdouble

theorem Quote.char_ne_newline (q : Quote) : q.char ≠ '\n' := by
  cases q <;> decide

theorem Quote.char_ne_backslash (q : Quote) : q.char ≠ '\\' := by
  cases q <;> decide

theorem Quote.char_ne_hash (q : Quote) : q.char ≠ '#' := by
  cases q <;> decide

theorem Quote.char_ne_n (q : Quote) : q.char ≠ 'n' := by
  cases q <;> decide

theorem two_iff : two q code = true ↔ ∃ rest, code = q.char :: q.char :: rest := by
  rw [two, decide_eq_true_eq]
  constructor
  · intro h
    exact ⟨code.drop 2, by rw [← List.take_append_drop 2 code, h]; simp⟩
  · rintro ⟨rest, rfl⟩
    rfl

/-! ### The scanner is a reader -/

/-- Where a scanner is, as a reader. -/
def reader : Option Literal → Reader
  | none => .outside
  | some l => .inside l

/-- **The scanner is the reader that knows of no comments.** -/
theorem repairFrom_eq (l : Option Literal) (code : List Char) :
    repairFrom 0 l code = escapeFrom false (reader l) code := by
  induction hn : code.length using Nat.strong_induction_on generalizing l code with
  | _ n ih =>
    cases code with
    | nil => rfl
    | cons ch code =>
      have hnext : ∀ l, repairFrom 0 l code = escapeFrom false (reader l) code :=
        fun l => ih code.length (by rw [← hn, List.length_cons]; omega) l code rfl
      -- After three quotes the rest of the code is two characters shorter.
      have hthree : ∀ q l, two q code = true → ∃ rest, code = q.char :: q.char :: rest ∧
          repairFrom 0 l rest = escapeFrom false (reader l) rest := by
        intro q l htwo
        obtain ⟨rest, rfl⟩ := two_iff.mp htwo
        refine ⟨rest, rfl, ih rest.length ?_ l rest rfl⟩
        rw [← hn]
        simp only [List.length_cons]
        omega
      rcases l with _ | ⟨q, triple, esc⟩
      · cases hquote : quote? ch with
        | none => simp [repairFrom, hquote, hnext, reader, escapeFrom, step, Reader.bare]
        | some q =>
          obtain rfl := quote?_eq_some hquote
          by_cases htwo : two q code = true
          · obtain ⟨rest, rfl, hrepair⟩ := hthree q (some ⟨q, true, false⟩) htwo
            simp [repairFrom, hquote, htwo, hrepair, reader, escapeFrom, step, Reader.bare]
          · simp [repairFrom, hquote, htwo, hnext, reader, escapeFrom, step, Reader.bare]
      · cases esc with
        | true => simp [repairFrom, hnext, reader, escapeFrom, step, Reader.bare]
        | false =>
          by_cases hslash : ch = '\\'
          · cases triple <;> simp [repairFrom, hslash, hnext, reader, escapeFrom, step, Reader.bare]
          by_cases hq : ch = q.char
          · subst hq
            have hline := q.char_ne_newline
            cases triple with
            | true =>
              by_cases htwo : two q code = true
              · obtain ⟨rest, rfl, hrepair⟩ := hthree q none htwo
                simp [repairFrom, hslash, htwo, hrepair, reader, escapeFrom, step, Reader.bare]
              · simp [repairFrom, hslash, htwo, hnext, reader, escapeFrom, step, Reader.bare]
            | false => simp [repairFrom, hslash, hline, hnext, reader, escapeFrom, step, Reader.bare]
          · cases triple with
            | true => simp [repairFrom, hslash, hq, hnext, reader, escapeFrom, step, Reader.bare]
            | false =>
              by_cases hline : ch = '\n'
              · subst hline
                simp [repairFrom, hq, hnext, reader, escapeFrom, step, Reader.bare]
              · simp [repairFrom, hslash, hq, hline, hnext, reader, escapeFrom, step, Reader.bare]

/-! ### Comments -/

/-- What follows the line does not matter for what follows a quote in it. -/
theorem two_line (q : Quote) (code : List Char) : two q (line code) = two q code := by
  rw [Bool.eq_iff_iff, two_iff, two_iff]
  constructor
  · rintro ⟨rest, hrest⟩
    refine ⟨rest ++ code.dropWhile (· ≠ '\n'), ?_⟩
    rw [← List.cons_append, ← List.cons_append, ← hrest, line, List.takeWhile_append_dropWhile]
  · rintro ⟨rest, rfl⟩
    refine ⟨line rest, ?_⟩
    simp [line, q.char_ne_newline]

theorem step_line (r : Reader) (ch : Char) (code : List Char) :
    step comments r ch (line code) = step comments r ch code := by
  cases r with
  | outside => simp only [step, two_line]
  | inside l =>
    obtain ⟨q, triple, _ | _⟩ := l
    · simp only [step, two_line]
    · rfl
  | opening q last => cases last <;> rfl
  | closing last => cases last <;> rfl
  | comment => rfl

/-- The two readers are at the same place, or the one is in a comment that leaves no literal open. -/
def Together (r r' : Reader) (code : List Char) : Prop :=
  r' ≠ .comment ∧ r = r' ∨
    r' = .comment ∧ r ≠ .comment ∧ ('\n' ∈ code → after false r (line code) = .outside)

theorem step_ne_comment (r : Reader) (ch : Char) (code : List Char) (h : r ≠ .comment) :
    step false r ch code ≠ .comment := by
  cases r with
  | outside =>
    simp only [step, Bool.false_and, Bool.false_eq_true, if_false]
    split
    · split_ifs <;> simp
    · simp
  | comment => exact (h rfl).elim
  | opening q last => cases last <;> simp [step]
  | closing last => cases last <;> simp [step]
  | inside l =>
    obtain ⟨q, triple, _ | _⟩ := l
    · simp only [step]
      split_ifs <;> simp
    · simp [step]

/-- Comments apart, the readers take the same steps. -/
theorem step_comments (h : r ≠ .comment) (hcomment : ¬ (r = .outside ∧ ch = '#')) :
    step true r ch code = step false r ch code := by
  cases r with
  | outside =>
    have hne : ch ≠ '#' := fun hch => hcomment ⟨rfl, hch⟩
    simp [step, hne]
  | comment => exact (h rfl).elim
  | opening q last => cases last <;> rfl
  | closing last => cases last <;> rfl
  | inside l =>
    obtain ⟨q, triple, _ | _⟩ := l <;> rfl

/-- **Where no comment leaves a literal open, it does not matter whether the reader knows of comments.** -/
theorem escapeFrom_comments {r r' : Reader} (hclosed : commentsClosedFrom r' code = true)
    (h : Together r r' code) : escapeFrom false r code = escapeFrom true r' code := by
  induction code generalizing r r' with
  | nil => rfl
  | cons ch code ih =>
    rw [commentsClosedFrom, Bool.and_eq_true] at hclosed
    obtain ⟨hcomment, hclosed⟩ := hclosed
    rcases h with ⟨hne, rfl⟩ | ⟨rfl, hne, hafter⟩
    · by_cases hstart : r = .outside ∧ ch = '#'
      · obtain ⟨rfl, rfl⟩ := hstart
        have htogether : Together .outside .comment code := by
          refine .inr ⟨rfl, nofun, fun hmem => ?_⟩
          simpa [hmem] using hcomment
        simp only [escapeFrom]
        exact congrArg _ (ih hclosed htogether)
      · have hstep : step true r ch code = step false r ch code := step_comments hne hstart
        rw [escapeFrom, escapeFrom, hstep]
        rw [hstep] at hclosed
        exact congrArg _ (ih hclosed (.inl ⟨step_ne_comment r ch code hne, rfl⟩))
    · by_cases hline : ch = '\n'
      · subst hline
        obtain rfl : r = .outside := hafter List.mem_cons_self
        simp only [escapeFrom]
        exact congrArg _ (ih hclosed (.inl ⟨nofun, rfl⟩))
      · have hbare : ∀ r : Reader, r.bare ch = false := by
          intro r
          rcases r with _ | _ | _ | _ | ⟨q, _ | _, _ | _⟩ <;> simp [Reader.bare, hline]
        have htogether : Together (step false r ch code) .comment code := by
          refine .inr ⟨rfl, step_ne_comment r ch code hne, fun hmem => ?_⟩
          have hlast := hafter (List.mem_cons_of_mem _ hmem)
          rw [show line (ch :: code) = ch :: line code by simp [line, hline], after, step_line]
            at hlast
          exact hlast
        have hstay : step true .comment ch code = .comment := if_neg hline
        rw [hstay] at hclosed
        rw [escapeFrom, escapeFrom, hbare, hbare, hstay]
        exact congrArg _ (ih hclosed htogether)

/-- The scanner does what it should when no comment leaves a literal open. -/
theorem repair_eq (h : CommentsClosed code) : repair code = escaped code :=
  (repairFrom_eq none code).trans (escapeFrom_comments h (.inl ⟨nofun, rfl⟩))

/-! ### Valid and repaired code -/

/-- In valid code there is nothing to escape. -/
theorem escapeFrom_valid (h : validFrom r code = true) : escapeFrom true r code = code := by
  induction code generalizing r with
  | nil => rfl
  | cons ch code ih =>
    rw [validFrom, Bool.and_eq_true, Bool.not_eq_true'] at h
    rw [escapeFrom, h.1, ih h.2]
    rfl

/-- Escaping changes nothing in what follows a quote. -/
theorem two_escapeFrom (q : Quote) (r : Reader) (code : List Char) :
    two q (escapeFrom true r code) = two q code := by
  have hslash := q.char_ne_backslash
  have hline := q.char_ne_newline
  have hbare : ∀ {r : Reader} {ch}, r.bare ch = true → ch = '\n' := by
    rintro (_ | _ | _ | _ | ⟨q, _ | _, _ | _⟩) ch h <;> simp_all [Reader.bare]
  rcases code with _ | ⟨ch, _ | ⟨ch', code⟩⟩
  · rfl
  · rw [escapeFrom, escapeFrom]
    by_cases h : r.bare ch = true
    · simp [h, two, hslash.symm]
    · simp [h]
  · rw [escapeFrom]
    by_cases h : r.bare ch = true
    · rw [if_pos h]
      simp [two, hslash.symm, hbare h, hline.symm]
    · rw [if_neg h, escapeFrom]
      by_cases h' : (step true r ch (ch' :: code)).bare ch' = true
      · rw [if_pos h']
        simp [two, hslash.symm, hbare h', hline.symm]
      · simp [h', two]

theorem step_escapeFrom (r r' : Reader) (ch : Char) (code : List Char) :
    step true r ch (escapeFrom true r' code) = step true r ch code := by
  cases r with
  | outside => simp only [step, two_escapeFrom]
  | inside l =>
    obtain ⟨q, triple, _ | _⟩ := l
    · simp only [step, two_escapeFrom]
    · rfl
  | opening q last => cases last <;> rfl
  | closing last => cases last <;> rfl
  | comment => rfl

/-- A bare newline is read where its two characters leave the reader. -/
theorem step_bare (h : r.bare ch = true) (rest rest' : List Char) :
    step true (step true r '\\' rest) 'n' rest' = step true r ch code ∧ r.bare '\\' = false ∧
      (step true r '\\' rest).bare 'n' = false := by
  rcases r with _ | _ | _ | _ | ⟨q, _ | _, _ | _⟩
  case inside.false.false =>
    obtain rfl : ch = '\n' := by simpa [Reader.bare] using h
    have hline := q.char_ne_newline
    simp [step, Reader.bare, hline.symm]
  all_goals simp [Reader.bare] at h

theorem escapeFrom_twice (r : Reader) (code : List Char) :
    escapeFrom true r (escapeFrom true r code) = escapeFrom true r code := by
  induction code generalizing r with
  | nil => rfl
  | cons ch code ih =>
    by_cases h : r.bare ch = true
    · obtain ⟨hstep, hbare, hbare'⟩ := @step_bare r ch code h
        ('n' :: escapeFrom true (step true r ch code) code)
        (escapeFrom true (step true r ch code) code)
      simp only [escapeFrom, h, if_true, List.cons_append, List.nil_append, hbare, hbare',
        Bool.false_eq_true, if_false, hstep, ih]
    · simp only [escapeFrom, h, Bool.false_eq_true, if_false, List.cons_append, List.nil_append,
        step_escapeFrom, ih]

/-- In a comment nothing is escaped. -/
theorem line_escapeFrom_comment (code : List Char) :
    line (escapeFrom true .comment code) = line code := by
  induction code with
  | nil => rfl
  | cons ch code ih =>
    rw [escapeFrom]
    by_cases hline : ch = '\n'
    · subst hline
      rfl
    · have hstay : step true .comment ch code = .comment := if_neg hline
      rw [hstay]
      simp [Reader.bare, line, hline] at ih ⊢
      exact ih

theorem newline_of_escapeFrom (h : '\n' ∈ escapeFrom true r code) : '\n' ∈ code := by
  induction code generalizing r with
  | nil => exact h
  | cons ch code ih =>
    rw [escapeFrom, List.mem_append] at h
    rcases h with h | h
    · split_ifs at h with hbare
      · simp at h
      · rw [List.mem_singleton.mp h]
        exact List.mem_cons_self
    · exact List.mem_cons_of_mem _ (ih h)

/-- The repaired code has the same comments. -/
theorem commentsClosed_escapeFrom (h : commentsClosedFrom r code = true) :
    commentsClosedFrom r (escapeFrom true r code) = true := by
  induction code generalizing r with
  | nil => rfl
  | cons ch code ih =>
    rw [commentsClosedFrom, Bool.and_eq_true] at h
    have hrest := ih h.2
    by_cases hbare : r.bare ch = true
    · obtain ⟨hstep, -, -⟩ := @step_bare r ch code hbare
        ('n' :: escapeFrom true (step true r ch code) code)
        (escapeFrom true (step true r ch code) code)
      simp only [escapeFrom, hbare, if_true, List.cons_append, List.nil_append, commentsClosedFrom,
        hstep, hrest]
      simp
    · simp only [escapeFrom, hbare, Bool.false_eq_true, if_false, List.cons_append,
        List.nil_append, commentsClosedFrom, step_escapeFrom, hrest, Bool.and_true]
      by_cases hstart : r = .outside ∧ ch = '#'
      · obtain ⟨rfl, rfl⟩ := hstart
        have hcomment : step true .outside '#' code = .comment := rfl
        rw [hcomment, line_escapeFrom_comment]
        by_cases hmem : '\n' ∈ escapeFrom true .comment code
        · simpa [hmem, newline_of_escapeFrom hmem] using h.1
        · simp [hmem]
      · rcases not_and_or.mp hstart with hr | hch
        · simp [hr]
        · simp [hch]

/-- **Where no comment leaves a literal open, the repair escapes the bare newlines of single-quoted
literals and nothing else.** -/
theorem repair_escapes (h : CommentsClosed code) :
    repair code = escaped code ∧ (Valid code → repair code = code) ∧
      repair (repair code) = repair code := by
  have hrepair := repair_eq h
  refine ⟨hrepair, fun hvalid => hrepair.trans (escapeFrom_valid hvalid), ?_⟩
  have hclosed : CommentsClosed (escaped code) := commentsClosed_escapeFrom h
  rw [hrepair, repair_eq hclosed]
  exact escapeFrom_twice .outside code

/-- The code of a model, with a newline in a literal. -/
theorem repair_escapes_printed :
    repair "print(\"\nsection\")  # 'done'\n".toList =
        escaped "print(\"\nsection\")  # 'done'\n".toList ∧
      repair "print(\"\nsection\")  # 'done'\n".toList =
        "print(\"\\nsection\")  # 'done'\n".toList := by
  obtain ⟨hrepair, -, -⟩ :=
    @repair_escapes "print(\"\nsection\")  # 'done'\n".toList (by decide)
  exact ⟨hrepair, hrepair.trans (by decide)⟩

/-- An apostrophe in a comment joins the next lines to it. -/
theorem comment_apostrophe : Valid "# don't\nx = 1\n".toList ∧
    repair "# don't\nx = 1\n".toList = "# don't\\nx = 1\\n".toList ∧
    repair "# don't\nx = 1\n".toList ≠ escaped "# don't\nx = 1\n".toList := by
  decide

end Repl

end DeltaBox
