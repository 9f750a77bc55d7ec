import DeltaBox.Lib.Text
import Mathlib.Data.List.Infix
import Mathlib.Data.List.TakeWhile

/-!
# The action block of a response

A response in ReAct form ends with a line `Action: <name>` and the arguments of the action as a JSON
object. Two functions repair the object. Both look for the block with the same pattern, walk over it
with a flag that says whether they are in a string, and put the text in front of it back unchanged.

## Main definitions

* `Completion.actionJson` — what `_ACTION_JSON_RE` finds: the text in front, and the block
* `Completion.escapeControls` — `_escape_bare_control_chars_in_action_json`
* `Completion.repairLiterals` — `_repair_python_literals_in_action_json`

## Main results

* `Completion.actionJson_replace` — what stands behind the first brace of the block does not matter
  for where it is
-/

namespace DeltaBox

namespace Completion

open Text OverList

/-! ### `_ACTION_JSON_RE` -/

/-- `Action:` without regard to case, as the pattern language reads it. -/
def actionLabel : List (List Char) :=
  [['a', 'A'], ['c', 'C'], ['t', 'T'], ['i', 'I', 'İ', 'ı'], ['o', 'O'], ['n', 'N'], [':']]

/-- The text behind a label. -/
def skipLabel : List (List Char) → List Char → Option (List Char)
  | [], cs => some cs
  | _ :: _, [] => none
  | alts :: label, c :: cs => if c ∈ alts then skipLabel label cs else none

/-- `[A-Za-z_]` without regard to case. -/
def nameStart (c : Char) : Bool := c.isAlpha || c.toNat ∈ [95, 304, 305, 383, 8490]

/-- `[A-Za-z0-9_]` without regard to case. -/
def nameChar (c : Char) : Bool := nameStart c || c.isDigit

/-- What stands behind the last line feed. -/
def lastLine (blank : List Char) : List Char := (blank.reverse.takeWhile (· ≠ '\n')).reverse

/-- The second group of the pattern, if it matches here: a label, a name, blanks with a line feed
among them, and a brace. -/
def matchBlock (cs : List Char) : Option (List Char) :=
  match skipLabel actionLabel (cs.dropWhile isSpace) with
  | none => none
  | some rest =>
    match rest.dropWhile isSpace with
    | [] => none
    | c :: name =>
      let tail := name.dropWhile nameChar
      if nameStart c ∧ '\n' ∈ tail.takeWhile isSpace ∧ (tail.dropWhile isSpace).head? = some '{' then
        some (lastLine (tail.takeWhile isSpace) ++ tail.dropWhile isSpace)
      else none

/-- The search: the pattern is tried at the beginning of each line. -/
def findBlock : Bool → List Char → Option (List Char)
  | _, [] => none
  | start, c :: cs =>
    match if start then matchBlock (c :: cs) else none with
    | some block => some block
    | none => findBlock (c = '\n') cs

/-- `text[: m.start()] + m.group(1)` and `m.group(2)`. -/
def actionJson (text : List Char) : Option (List Char × List Char) :=
  (findBlock true text).map fun block => (text.take (text.length - block.length), block)

example : actionJson "I look.\nAction: Bash\n{}".toList =
    some ("I look.\nAction: Bash\n".toList, "{}".toList) := by decide +kernel

/-! ### `_escape_bare_control_chars_in_action_json` -/

structure EscapeState where
  out : List Char
  inStr : Bool
  escape : Bool
  changed : Bool

/-- One turn of the loop over the block. -/
def escapeStep (s : EscapeState) (ch : Char) : EscapeState :=
  if s.inStr then
    if s.escape then { s with out := s.out ++ [ch], escape := false }
    else if ch = '\\' then { s with out := s.out ++ [ch], escape := true }
    else if ch = '"' then { s with out := s.out ++ [ch], inStr := false }
    else if ch = '\n' then { s with out := s.out ++ ['\\', 'n'], changed := true }
    else if ch = '\r' then { s with out := s.out ++ ['\\', 'r'], changed := true }
    else if ch = '\t' then { s with out := s.out ++ ['\\', 't'], changed := true }
    else { s with out := s.out ++ [ch] }
  else if ch = '"' then { s with out := s.out ++ [ch], inStr := true }
  else { s with out := s.out ++ [ch] }

/-- `_escape_bare_control_chars_in_action_json`. -/
def escapeControls (text : List Char) : List Char :=
  match actionJson text with
  | none => text
  | some (front, block) =>
    let s := block.foldl escapeStep ⟨[], false, false, false⟩
    if s.changed then front ++ s.out else text

/-! ### `_repair_python_literals_in_action_json` -/

/-- `str.isalnum` of a character, of which only the ASCII part is known here. -/
structure CharClass where
  isalnum : Char → Bool
  ascii : ∀ c : Char, c.toNat < 128 → isalnum c = c.isAlphanum

/-- A character of a word, in `has_word_at`. -/
def CharClass.wordChar (cls : CharClass) (c : Char) : Bool := cls.isalnum c || c = '_'

/-- `has_word_at`, with the character in front of the place and the text from there. -/
def hasWordAt (cls : CharClass) (prev : Option Char) (rest word : List Char) : Bool :=
  word <+: rest && !prev.any cls.wordChar && !(rest.drop word.length).head?.any cls.wordChar

/-- The loop over the block: what it puts out from here, and whether it changes anything. The
characters of a word that has been replaced are skipped. -/
def repairLoop (cls : CharClass) :
    ℕ → Option Char → Bool → Bool → List Char → List Char × Bool
  | _, _, _, _, [] => ([], false)
  | skip + 1, _, inStr, escape, ch :: cs => repairLoop cls skip (some ch) inStr escape cs
  | 0, _, true, escape, ch :: cs =>
    let r :=
      if escape then repairLoop cls 0 (some ch) true false cs
      else if ch = '\\' then repairLoop cls 0 (some ch) true true cs
      else if ch = '"' then repairLoop cls 0 (some ch) false false cs
      else repairLoop cls 0 (some ch) true false cs
    (ch :: r.1, r.2)
  | 0, prev, false, escape, ch :: cs =>
    if ch = '"' then
      let r := repairLoop cls 0 (some ch) true escape cs
      (ch :: r.1, r.2)
    else if hasWordAt cls prev (ch :: cs) "True".toList then
      ("true".toList ++ (repairLoop cls 3 (some ch) false escape cs).1, true)
    else if hasWordAt cls prev (ch :: cs) "False".toList then
      ("false".toList ++ (repairLoop cls 4 (some ch) false escape cs).1, true)
    else if hasWordAt cls prev (ch :: cs) "None".toList then
      ("null".toList ++ (repairLoop cls 3 (some ch) false escape cs).1, true)
    else
      let r := repairLoop cls 0 (some ch) false escape cs
      (ch :: r.1, r.2)

/-- `_repair_python_literals_in_action_json`. -/
def repairLiterals (cls : CharClass) (text : List Char) : List Char :=
  match actionJson text with
  | none => text
  | some (front, block) =>
    let r := repairLoop cls 0 none false false block
    if r.2 then front ++ r.1 else text

/-! ### Where the block is -/

theorem nameStart_brace : nameStart '{' = false := by decide

theorem isSpace_brace : isSpace '{' = false := by decide

theorem nameChar_brace : nameChar '{' = false := by decide

/-- A loop that stops at a brace stops there whatever follows. -/
theorem dropWhile_brace {p : Char → Bool} (hp : p '{' = false) (x r : List Char) :
    (x ++ '{' :: r).dropWhile p = x.dropWhile p ++ '{' :: r := by
  rw [List.dropWhile_append]
  split_ifs with h
  · rw [List.isEmpty_iff.mp h, List.dropWhile_cons_of_neg (by simp [hp])]
    rfl
  · rfl

theorem takeWhile_brace {p : Char → Bool} (hp : p '{' = false) (x r : List Char) :
    (x ++ '{' :: r).takeWhile p = x.takeWhile p := by
  rw [List.takeWhile_append]
  split_ifs with h
  · rw [List.takeWhile_cons_of_neg (by simp [hp]), List.append_nil]
    exact ((List.takeWhile_prefix p).eq_of_length h).symm
  · rfl

theorem skipLabel_brace {label : List (List Char)} (h : ∀ alts ∈ label, '{' ∉ alts)
    (x r : List Char) :
    skipLabel label (x ++ '{' :: r) = (skipLabel label x).map (· ++ '{' :: r) := by
  induction label generalizing x with
  | nil => rfl
  | cons alts label ih =>
    cases x with
    | nil =>
      exact if_neg (h alts List.mem_cons_self)
    | cons c x =>
      rw [List.cons_append, skipLabel, skipLabel]
      split_ifs
      · exact ih (fun alts' h' => h alts' (List.mem_cons_of_mem _ h')) x
      · rfl

/-- Whether the pattern matches in front of a brace does not depend on what follows the brace. -/
theorem matchBlock_brace (x : List Char) :
    (∃ y, ∀ r, matchBlock (x ++ '{' :: r) = some (y ++ '{' :: r)) ∨
      ∀ r, matchBlock (x ++ '{' :: r) = none := by
  have hlabel : ∀ alts ∈ actionLabel, '{' ∉ alts := by decide
  cases hskip : skipLabel actionLabel (x.dropWhile isSpace) with
  | none =>
    refine .inr fun r => ?_
    rw [matchBlock, dropWhile_brace isSpace_brace, skipLabel_brace hlabel, hskip]
    rfl
  | some rest =>
    have hfront : ∀ r, skipLabel actionLabel ((x ++ '{' :: r).dropWhile isSpace) =
        some (rest ++ '{' :: r) := by
      intro r
      rw [dropWhile_brace isSpace_brace, skipLabel_brace hlabel, hskip]
      rfl
    cases hname : rest.dropWhile isSpace with
    | nil =>
      refine .inr fun r => ?_
      rw [matchBlock, hfront]
      simp only [dropWhile_brace isSpace_brace, hname, List.nil_append, nameStart_brace]
      simp
    | cons c name =>
      have hform : ∀ r, matchBlock (x ++ '{' :: r) =
          if nameStart c ∧ '\n' ∈ (name.dropWhile nameChar).takeWhile isSpace ∧
            ((name.dropWhile nameChar).dropWhile isSpace ++ '{' :: r).head? = some '{' then
          some (lastLine ((name.dropWhile nameChar).takeWhile isSpace) ++
            ((name.dropWhile nameChar).dropWhile isSpace ++ '{' :: r))
          else none := by
        intro r
        rw [matchBlock, hfront]
        simp only [dropWhile_brace isSpace_brace, hname, List.cons_append,
          dropWhile_brace nameChar_brace, takeWhile_brace isSpace_brace]
      have hhead : ∀ r, ((name.dropWhile nameChar).dropWhile isSpace ++ '{' :: r).head? =
          ((name.dropWhile nameChar).dropWhile isSpace ++ ['{']).head? := by
        intro r
        cases (name.dropWhile nameChar).dropWhile isSpace <;> rfl
      by_cases hcond : nameStart c ∧ '\n' ∈ (name.dropWhile nameChar).takeWhile isSpace ∧
          ((name.dropWhile nameChar).dropWhile isSpace ++ ['{']).head? = some '{'
      · refine .inl ⟨lastLine ((name.dropWhile nameChar).takeWhile isSpace) ++
          (name.dropWhile nameChar).dropWhile isSpace, fun r => ?_⟩
        rw [hform, hhead, if_pos hcond, List.append_assoc]
      · refine .inr fun r => ?_
        rw [hform, hhead, if_neg hcond]

theorem skipLabel_suffix {label : List (List Char)} {cs rest : List Char}
    (h : skipLabel label cs = some rest) : rest <:+ cs := by
  induction label generalizing cs with
  | nil =>
    rw [skipLabel] at h
    exact Option.some.inj h ▸ List.suffix_rfl
  | cons alts label ih =>
    cases cs with
    | nil => cases h
    | cons c cs =>
      rw [skipLabel, Option.ite_none_right_eq_some] at h
      exact (ih h.2).trans (List.suffix_cons ..)

theorem lastLine_suffix (blank : List Char) : lastLine blank <:+ blank := by
  rw [lastLine, ← List.reverse_prefix, List.reverse_reverse]
  exact List.takeWhile_prefix _

theorem of_mem_lastLine {blank : List Char} {c : Char} (h : c ∈ lastLine blank) : c ≠ '\n' := by
  have htake := List.mem_takeWhile_imp (List.mem_reverse.mp h)
  simpa using htake

/-- What the pattern finds is the end of the text, and it begins with blanks of one line and a
brace. -/
theorem of_matchBlock {cs block : List Char} (h : matchBlock cs = some block) :
    block <:+ cs ∧ block.length < cs.length ∧
      ∃ w r, block = w ++ '{' :: r ∧ ∀ c ∈ w, isSpace c ∧ c ≠ '\n' := by
  unfold matchBlock at h
  split at h
  · cases h
  next rest hskip =>
    split at h
    · cases h
    next c name hname =>
      dsimp only at h
      rw [Option.ite_none_right_eq_some] at h
      obtain ⟨⟨-, -, hbrace⟩, hblock⟩ := h
      obtain rfl := Option.some.inj hblock
      have hcs : c :: name <:+ cs := by
        rw [← hname]
        exact (List.dropWhile_suffix _).trans
          ((skipLabel_suffix hskip).trans (List.dropWhile_suffix _))
      have htail : lastLine ((name.dropWhile nameChar).takeWhile isSpace) ++
          (name.dropWhile nameChar).dropWhile isSpace <:+ name := by
        have hsplit := List.takeWhile_append_dropWhile (p := isSpace) (l := name.dropWhile nameChar)
        refine List.IsSuffix.trans ?_ (List.dropWhile_suffix (p := nameChar) (l := name))
        obtain ⟨front, hfront⟩ := lastLine_suffix ((name.dropWhile nameChar).takeWhile isSpace)
        refine ⟨front, ?_⟩
        rw [← List.append_assoc, hfront, hsplit]
      obtain ⟨r, hr⟩ := List.head?_eq_some_iff.mp hbrace
      refine ⟨htail.trans ((List.suffix_cons ..).trans hcs), ?_, _, r, by rw [hr], ?_⟩
      · have hshort := htail.length_le
        have hlong := hcs.length_le
        rw [List.length_cons] at hlong
        omega
      · intro d hd
        exact ⟨List.mem_takeWhile_imp ((lastLine_suffix _).subset hd), of_mem_lastLine hd⟩

theorem of_findBlock {start : Bool} {cs block : List Char} (h : findBlock start cs = some block) :
    block <:+ cs ∧ block.length < cs.length ∧
      ∃ w r, block = w ++ '{' :: r ∧ ∀ c ∈ w, isSpace c ∧ c ≠ '\n' := by
  induction cs generalizing start with
  | nil => cases h
  | cons c cs ih =>
    rw [findBlock] at h
    split at h
    next block' hmatch =>
      obtain rfl := Option.some.inj h
      cases start with
      | true => exact of_matchBlock hmatch
      | false => cases hmatch
    next =>
      obtain ⟨hsuffix, hlen, hform⟩ := ih h
      exact ⟨hsuffix.trans (List.suffix_cons ..), Nat.lt_succ_of_lt hlen, hform⟩

/-- The search does not look behind the brace it stops at. -/
theorem findBlock_replace {start : Bool} {x w r : List Char}
    (h : findBlock start (x ++ '{' :: r) = some (w ++ '{' :: r)) (r' : List Char) :
    findBlock start (x ++ '{' :: r') = some (w ++ '{' :: r') := by
  induction x generalizing start with
  | nil =>
    have hlen := (of_findBlock h).2.1
    simp only [List.nil_append, List.length_append, List.length_cons] at hlen
    omega
  | cons c x ih =>
    rw [List.cons_append, findBlock] at h ⊢
    have hboth : (if start then matchBlock (c :: (x ++ '{' :: r)) else none) = none ∧
        (if start then matchBlock (c :: (x ++ '{' :: r')) else none) = none ∨
        ∃ y, (if start then matchBlock (c :: (x ++ '{' :: r)) else none) = some (y ++ '{' :: r) ∧
          (if start then matchBlock (c :: (x ++ '{' :: r')) else none) = some (y ++ '{' :: r') := by
      cases start with
      | false => exact .inl ⟨rfl, rfl⟩
      | true =>
        rcases matchBlock_brace (c :: x) with ⟨y, hy⟩ | hnone
        · exact .inr ⟨y, hy r, hy r'⟩
        · exact .inl ⟨hnone r, hnone r'⟩
    rcases hboth with ⟨hnone, hnone'⟩ | ⟨y, hsome, hsome'⟩
    · rw [hnone] at h
      rw [hnone']
      exact ih h
    · rw [hsome] at h
      rw [hsome', ← List.append_cancel_right (Option.some.inj h)]

/-- The front and the block make up the text. -/
theorem of_actionJson {text front block : List Char} (h : actionJson text = some (front, block)) :
    text = front ++ block ∧ findBlock true text = some block ∧
      ∃ w r, block = w ++ '{' :: r ∧ ∀ c ∈ w, isSpace c ∧ c ≠ '\n' := by
  obtain ⟨block', hfind, heq⟩ := Option.map_eq_some_iff.mp h
  obtain ⟨hfront, rfl⟩ := Prod.mk.inj heq
  obtain ⟨⟨front', rfl⟩, -, hform⟩ := of_findBlock hfind
  refine ⟨?_, hfind, hform⟩
  rw [← hfront, List.length_append, Nat.add_sub_cancel, List.take_left]

/-- **Where the block is does not depend on what stands behind its first brace.** -/
theorem actionJson_replace {front w r : List Char}
    (h : actionJson (front ++ (w ++ '{' :: r)) = some (front, w ++ '{' :: r)) (r' : List Char) :
    actionJson (front ++ (w ++ '{' :: r')) = some (front, w ++ '{' :: r') := by
  have hfind := (of_actionJson h).2.1
  rw [← List.append_assoc] at hfind
  rw [actionJson, ← List.append_assoc, findBlock_replace hfind r', Option.map_some,
    List.append_assoc, List.length_append, Nat.add_sub_cancel, List.take_left]

/-! ### The first action line -/

/-- A line that names an action. -/
def actionLine (name : List Char) : List Char :=
  ['A', 'c', 't', 'i', 'o', 'n', ':', ' '] ++ (name ++ ['\n'])

/-- A name, as the pattern knows it. -/
def IsName (name : List Char) : Prop := ∃ c cs, name = c :: cs ∧ nameStart c ∧ ∀ d ∈ cs, nameChar d

/-- The code points of the blanks. -/
def spacePoints : List ℕ :=
  [9, 10, 11, 12, 13, 28, 29, 30, 31, 32, 133, 160, 5760, 8192, 8193, 8194, 8195, 8196, 8197, 8198,
    8199, 8200, 8201, 8202, 8232, 8233, 8239, 8287, 12288]

theorem mem_spacePoints {c : Char} (h : isSpace c) : c.toNat ∈ spacePoints := by
  simp only [isSpace, isBreak, Bool.or_eq_true, Bool.and_eq_true, decide_eq_true_eq, List.mem_cons,
    List.not_mem_nil, or_false] at h
  simp only [spacePoints, List.mem_cons, List.not_mem_nil, or_false]
  omega

theorem not_isSpace_of_nameStart {c : Char} (h : nameStart c) : isSpace c = false := by
  have hpoints : ∀ n ∈ spacePoints, nameStart (Char.ofNat n) = false := by decide
  by_contra hspace
  have hnot := hpoints c.toNat (mem_spacePoints (by simpa using hspace))
  rw [Char.ofNat_toNat, h] at hnot
  cases hnot

/-- The pattern matches an action line with a brace behind it. -/
theorem matchBlock_actionLine {name : List Char} (h : IsName name) (r : List Char) :
    matchBlock (actionLine name ++ '{' :: r) = some ('{' :: r) := by
  obtain ⟨c, cs, rfl, hc, hcs⟩ := h
  have hskip : skipLabel actionLabel
      ((actionLine (c :: cs) ++ '{' :: r).dropWhile isSpace) =
        some (' ' :: c :: (cs ++ '\n' :: '{' :: r)) := by
    have htext : actionLine (c :: cs) ++ '{' :: r =
        'A' :: 'c' :: 't' :: 'i' :: 'o' :: 'n' :: ':' :: ' ' :: c :: (cs ++ '\n' :: '{' :: r) := by
      simp [actionLine]
    rw [htext, List.dropWhile_cons_of_neg (by decide)]
    simp [skipLabel, actionLabel]
  have hname : (' ' :: c :: (cs ++ '\n' :: '{' :: r)).dropWhile isSpace =
      c :: (cs ++ '\n' :: '{' :: r) := by
    rw [List.dropWhile_cons_of_pos (by decide),
      List.dropWhile_cons_of_neg (by simp [not_isSpace_of_nameStart hc])]
  have htail : (cs ++ '\n' :: '{' :: r).dropWhile nameChar = '\n' :: '{' :: r := by
    rw [List.dropWhile_append_of_pos hcs, List.dropWhile_cons_of_neg (by decide)]
  have hblank : ('\n' :: '{' :: r).takeWhile isSpace = ['\n'] := by
    rw [List.takeWhile_cons_of_pos (by decide), List.takeWhile_cons_of_neg (by decide)]
  have hbrace : ('\n' :: '{' :: r).dropWhile isSpace = '{' :: r := by
    rw [List.dropWhile_cons_of_pos (by decide), List.dropWhile_cons_of_neg (by decide)]
  rw [matchBlock, hskip]
  simp only [hname, htail, hblank, hbrace]
  simp [hc, lastLine]

/-- In front of a brace that is the first of the text and stands at the beginning of a line, the
pattern can only find the block that begins with it. -/
theorem block_eq_of_findBlock {start : Bool} {x r block : List Char} (hx : '{' ∉ x)
    (hline : x.getLast? = some '\n') (h : findBlock start (x ++ '{' :: r) = some block)
    (hlong : r.length < block.length) : block = '{' :: r := by
  obtain ⟨hsuffix, -, w, r', rfl, hw⟩ := of_findBlock h
  -- the blanks of the block are part of the text in front of the brace
  obtain ⟨front, hfront⟩ := hsuffix
  have hsplit : (front ++ w) ++ '{' :: r' = x ++ '{' :: r := by rw [List.append_assoc, hfront]
  have hsame : front ++ w = x ∧ r' = r := by
    rcases List.append_eq_append_iff.mp hsplit with ⟨mid, hmid, hrest⟩ | ⟨mid, hmid, hrest⟩
    · cases mid with
      | nil => exact ⟨by simpa using hmid.symm, (List.cons.inj hrest).2⟩
      | cons d mid =>
        obtain ⟨rfl, -⟩ := List.cons.inj hrest
        exact absurd (hmid ▸ by simp) hx
    · cases mid with
      | nil => exact ⟨by simpa using hmid, (List.cons.inj hrest).2.symm⟩
      | cons d mid =>
        -- the brace would be in front of the block, which is then too short
        obtain ⟨rfl, hr⟩ := List.cons.inj hrest
        have hbrace : '{' ∉ w := fun hmem => by
          have hspace := (hw '{' hmem).1
          revert hspace
          decide
        have hlen : x.length < front.length := by
          by_contra hshort
          have hget : '{' ∈ (front ++ w).drop front.length := by
            rw [hmid, List.drop_append_of_le_length (by omega)]
            simp
          rw [List.drop_left] at hget
          exact hbrace hget
        have htotal := congrArg List.length hsplit
        simp only [List.length_append, List.length_cons] at htotal hlong
        omega
  obtain ⟨rfl, rfl⟩ := hsame
  cases hlast : w.getLast? with
  | none => rw [List.getLast?_eq_none_iff.mp hlast, List.nil_append]
  | some c =>
    rw [List.getLast?_append, hlast] at hline
    have hc : c = '\n' := Option.some.inj hline
    exact absurd hc (hw c (List.mem_of_getLast? hlast)).2

/-- The search finds the block behind an action line, or one that begins before it. -/
theorem exists_findBlock {name : List Char} (hname : IsName name) (r : List Char) {pre : List Char}
    {start : Bool} (hline : pre = [] ∧ start = true ∨ pre.getLast? = some '\n') :
    ∃ block, findBlock start (pre ++ (actionLine name ++ '{' :: r)) = some block ∧
      r.length < block.length := by
  induction pre generalizing start with
  | nil =>
    obtain ⟨-, rfl⟩ := hline.resolve_right (by simp)
    refine ⟨'{' :: r, ?_, by simp⟩
    have hmatch := matchBlock_actionLine hname r
    have hcons : ∃ cs, actionLine name ++ '{' :: r = 'A' :: cs := ⟨_, rfl⟩
    obtain ⟨cs, hcs⟩ := hcons
    rw [hcs] at hmatch
    rw [List.nil_append, hcs, findBlock, if_pos rfl, hmatch]
  | cons c pre ih =>
    have hlast : (c :: pre).getLast? = some '\n' := hline.resolve_left (by simp)
    have hnext : pre = [] ∧ decide (c = '\n') = true ∨ pre.getLast? = some '\n' := by
      cases pre with
      | nil => exact .inl ⟨rfl, by simpa using hlast⟩
      | cons d pre => exact .inr (by rwa [List.getLast?_cons_cons] at hlast)
    rw [List.cons_append, findBlock]
    cases hmatch : if start then matchBlock (c :: (pre ++ (actionLine name ++ '{' :: r)))
        else none with
    | none => exact ih hnext
    | some block =>
      refine ⟨block, rfl, ?_⟩
      have hfront : matchBlock ((c :: pre ++ actionLine name) ++ '{' :: r) = some block := by
        cases start with
        | true => simpa using hmatch
        | false => cases hmatch
      rcases matchBlock_brace (c :: pre ++ actionLine name) with ⟨y, hy⟩ | hnone
      · obtain rfl := Option.some.inj ((hy r).symm.trans hfront)
        simp only [List.length_append, List.length_cons]
        omega
      · rw [hnone] at hfront
        cases hfront

/-- **The block behind the first action line**, when no brace stands in front of it. -/
theorem actionJson_of_actionLine {pre name : List Char} (hpre : '{' ∉ pre)
    (hline : pre = [] ∨ pre.getLast? = some '\n') (hname : IsName name) (r : List Char) :
    actionJson (pre ++ (actionLine name ++ '{' :: r)) =
      some (pre ++ actionLine name, '{' :: r) := by
  obtain ⟨block, hfind, hlong⟩ := exists_findBlock hname r
    (hline.imp_left fun h => ⟨h, rfl⟩)
  have hbrace : '{' ∉ pre ++ actionLine name := by
    obtain ⟨c, cs, rfl, hc, hcs⟩ := hname
    have hother : ∀ d ∈ c :: cs, d ≠ '{' := by
      rintro d hd rfl
      rcases List.mem_cons.mp hd with rfl | hd
      · rw [nameStart_brace] at hc
        cases hc
      · have hchar := hcs _ hd
        rw [nameChar_brace] at hchar
        cases hchar
    intro hmem
    simp only [actionLine, List.mem_append] at hmem
    rcases hmem with hmem | hmem | hmem | hmem
    · exact hpre hmem
    · revert hmem
      decide
    · exact hother _ hmem rfl
    · revert hmem
      decide
  have hend : (pre ++ actionLine name).getLast? = some '\n' := by
    rw [actionLine, ← List.append_assoc, ← List.append_assoc, List.getLast?_append]
    rfl
  obtain rfl := block_eq_of_findBlock hbrace hend (by rwa [List.append_assoc]) hlong
  rw [actionJson, hfind, Option.map_some, ← List.append_assoc, List.length_append,
    Nat.add_sub_cancel, List.take_left]

end Completion

end DeltaBox
