import DeltaBox.Lib.Dict
import DeltaBox.Lib.Posix
import DeltaBox.Lib.Shell

/-!
# `cd` and `export`

What bash makes of one `cd` or one `export`, for words in which nothing is expanded. The current
directory is kept as a path: two dots take a name away from it, and do not follow links.

`shlex.split` reads the same words, as long as there is nothing to expand and no carriage return
between them.

## Main definitions

* `Bash.Fs` — what there is to know about the file system
* `Simple.plain` — a command of words, with nothing to expand
* `Bash.cd`, `Bash.exports` — the two commands

## Main results

* `Bash.shlexSplit_chars` — `shlex.split` reads the words of a plain command
-/

namespace DeltaBox

namespace Shell

/-- A part of a word in which nothing is expanded, and no line is continued. -/
def Part.plain : Part → Bool
  | .bare c => c ∉ ['\r', '$', '*', '?', '[', '{', '~', '#']
  | .escaped _ => true
  | .single _ => true
  | .double cs => cs.all fun e => if e.1 then e.2 ∉ ['$', '`', '\n'] else e.2 ≠ '$'

def Word.plain (w : Word) : Bool := w.parts.all Part.plain

def Item.plain : Item → Bool
  | .word w => w.plain
  | .redirect _ => false

/-- A command of words alone, with nothing to expand. -/
def Simple.plain (c : Simple) : Bool := c.items.all Item.plain

end Shell

namespace Bash

open Shell

/-! ### The words -/

/-- Does a part put an end to the question whether there is a word? -/
def quotes : Part → Bool
  | .single _ => true
  | .double _ => true
  | _ => false

variable {token rest : List Char} {quoted : Bool}

theorem loop_single {cs : List Char} (h : '\'' ∉ cs) :
    shlexLoop (.quote '\'') token quoted (cs ++ '\'' :: rest) =
      shlexLoop .word (cs.reverse ++ token) quoted rest := by
  induction cs generalizing token with
  | nil => simp [shlexLoop]
  | cons c cs ih =>
    have hc : c ≠ '\'' := fun hc => h (hc ▸ List.mem_cons_self)
    rw [List.cons_append, shlexLoop, if_neg hc, if_neg (by simp),
      ih fun hmem => h (List.mem_cons_of_mem _ hmem)]
    simp

/-- In double quotes. A backslash is kept where nothing needs it, as bash keeps it. -/
theorem loop_double {cs : List (Bool × Char)} (hok : (Part.double cs).ok = true)
    (hplain : (Part.double cs).plain = true) :
    shlexLoop (.quote '"') token quoted
        (cs.flatMap (fun e => if e.1 then ['\\', e.2] else [e.2]) ++ '"' :: rest) =
      shlexLoop .word ((Part.double cs).value.reverse ++ token) quoted rest := by
  induction cs generalizing token with
  | nil => simp [shlexLoop, Part.value]
  | cons e cs ih =>
    obtain ⟨esc, c⟩ := e
    have hoks : (Part.double cs).ok = true := by
      simp only [Part.ok, List.all_cons, Bool.and_eq_true] at hok ⊢
      exact hok.2
    have hplains : (Part.double cs).plain = true := by
      simp only [Part.plain, List.all_cons, Bool.and_eq_true] at hplain ⊢
      exact hplain.2
    cases esc with
    | false =>
      have hc : c ≠ '"' ∧ c ≠ '\\' := by
        simp only [Part.ok, List.all_cons, Bool.and_eq_true] at hok
        simp at hok
        exact hok.1.1
      have hvalue : (Part.double ((false, c) :: cs)).value = c :: (Part.double cs).value := by
        simp [Part.value]
      rw [hvalue, List.flatMap_cons, if_neg (by simp), List.singleton_append, List.cons_append,
        shlexLoop, if_neg hc.1, if_neg (by simp [hc.2]), ih hoks hplains]
      simp
    | true =>
      have hc : c ≠ '$' ∧ c ≠ '`' ∧ c ≠ '\n' := by
        simp only [Part.plain, List.all_cons, Bool.and_eq_true] at hplain
        simpa using hplain.1
      rw [List.flatMap_cons, if_pos rfl]
      simp only [List.cons_append, List.nil_append]
      rw [shlexLoop, if_neg (by decide), if_pos (by simp), shlexLoop]
      by_cases hkeep : c ≠ '\\' ∧ c ≠ '"'
      · have hvalue : (Part.double ((true, c) :: cs)).value =
            '\\' :: c :: (Part.double cs).value := by
          simp [Part.value, hkeep.1, hkeep.2, hc.1, hc.2.1]
        rw [if_pos hkeep, ih hoks hplains, hvalue]
        simp
      · have hdrop : c = '"' ∨ c = '\\' := by
          by_contra hno
          exact hkeep ⟨fun h => hno (.inr h), fun h => hno (.inl h)⟩
        have hvalue : (Part.double ((true, c) :: cs)).value = c :: (Part.double cs).value := by
          rcases hdrop with rfl | rfl <;> simp [Part.value]
        rw [if_neg hkeep, ih hoks hplains, hvalue]
        simp

/-- A part in the middle of a word. -/
theorem loop_part {p : Part} (hok : p.ok = true) (hplain : p.plain = true) :
    shlexLoop .word token quoted (p.text ++ rest) =
      shlexLoop .word (p.value.reverse ++ token) (quoted || quotes p) rest := by
  cases p with
  | bare c =>
    have hc : c ∉ special := by simpa [Part.ok] using hok
    have hr : c ≠ '\r' := by
      simp only [Part.plain, decide_eq_true_eq] at hplain
      exact fun h => hplain (h ▸ List.mem_cons_self)
    have hblank : c ∉ [' ', '\t', '\r', '\n'] := by
      intro hmem
      simp only [special, List.mem_cons, List.not_mem_nil, or_false] at hmem hc
      tauto
    have hquote : ¬ (c = '\'' ∨ c = '"') := by
      rintro (rfl | rfl) <;> exact hc (by decide)
    have hslash : c ≠ '\\' := by
      rintro rfl
      exact hc (by decide)
    simp [Part.text, Part.value, quotes, shlexLoop, hblank, hquote, hslash]
  | escaped c =>
    simp [Part.text, Part.value, quotes, shlexLoop]
  | single cs =>
    have hcs : '\'' ∉ cs := by simpa [Part.ok] using hok
    rw [Part.text, List.cons_append, List.cons_append, shlexLoop, if_neg (by decide),
      if_pos (by simp), List.append_assoc]
    simp [loop_single hcs, Part.value, quotes]
  | double cs =>
    rw [Part.text, List.cons_append, List.cons_append, shlexLoop, if_neg (by decide),
      if_pos (by simp), List.append_assoc]
    simp [loop_double hok hplain, quotes]

/-- What is no blank begins a word. -/
theorem loop_blank {c : Char} {cs : List Char} (h : c ∉ [' ', '\t', '\r', '\n']) :
    shlexLoop .blank token quoted (c :: cs) = shlexLoop .word [] false (c :: cs) := by
  rw [shlexLoop, shlexLoop, if_neg h, if_neg h]
  by_cases hslash : c = '\\'
  · simp [hslash]
  · rw [if_neg hslash, if_neg hslash]

theorem text_eq_cons {p : Part} (hok : p.ok = true) (hplain : p.plain = true) :
    ∃ c cs, p.text = c :: cs ∧ c ∉ [' ', '\t', '\r', '\n'] := by
  cases p with
  | bare c =>
    refine ⟨c, [], rfl, fun hmem => ?_⟩
    simp only [Part.ok, Part.plain, special, decide_eq_true_eq, List.mem_cons, List.not_mem_nil,
      or_false] at hok hplain hmem
    tauto
  | escaped c => exact ⟨'\\', [c], rfl, by decide⟩
  | single cs => exact ⟨'\'', cs ++ ['\''], rfl, by decide⟩
  | double cs => exact ⟨'"', _, rfl, by decide⟩

theorem loop_parts {ps : List Part} (hok : ps.all Part.ok = true)
    (hplain : ps.all Part.plain = true) :
    shlexLoop .word token quoted (ps.flatMap Part.text ++ rest) =
      shlexLoop .word ((ps.flatMap Part.value).reverse ++ token) (quoted || ps.any quotes) rest := by
  induction ps generalizing token quoted with
  | nil => simp
  | cons p ps ih =>
    rw [List.all_cons, Bool.and_eq_true] at hok hplain
    rw [List.flatMap_cons, List.append_assoc, loop_part hok.1 hplain.1, ih hok.2 hplain.2]
    simp [Bool.or_assoc]

/-- The characters that a word stands for. -/
def valueChars (w : Word) : List Char := w.parts.flatMap Part.value

theorem value_eq (w : Word) : w.value = String.ofList (valueChars w) := rfl

/-- A word behind blanks. -/
theorem loop_word {w : Word} (hplain : w.plain = true) :
    shlexLoop .blank token quoted (w.text ++ rest) =
      shlexLoop .word (valueChars w).reverse (w.parts.any quotes) rest := by
  have hloop := @loop_parts [] rest false w.parts w.ok hplain
  obtain ⟨p, ps, hparts⟩ := List.exists_cons_of_ne_nil w.ne
  have hok : p.ok = true := List.all_eq_true.mp w.ok p (hparts ▸ List.mem_cons_self)
  have hp : p.plain = true := List.all_eq_true.mp hplain p (hparts ▸ List.mem_cons_self)
  obtain ⟨c, cs, htext, hc⟩ := text_eq_cons hok hp
  have hfront : w.text ++ rest = c :: (cs ++ ps.flatMap Part.text ++ rest) := by
    simp [Word.text, hparts, htext]
  rw [hfront, loop_blank hc, ← hfront, Word.text, hloop]
  simp [valueChars]

/-- A word is there even if it stands for nothing. -/
theorem valueChars_ne_or (w : Word) : (valueChars w).reverse ≠ [] ∨ w.parts.any quotes = true := by
  obtain ⟨p, ps, hparts⟩ := List.exists_cons_of_ne_nil w.ne
  cases p with
  | bare c => exact .inl (by simp [valueChars, hparts, Part.value])
  | escaped c => exact .inl (by simp [valueChars, hparts, Part.value])
  | single cs => exact .inr (by simp [hparts, quotes])
  | double cs => exact .inr (by simp [hparts, quotes])

theorem loop_gap (g : Gap) :
    shlexLoop .blank token quoted (g.chars ++ rest) = shlexLoop .blank token quoted rest := by
  obtain ⟨cs, hcs⟩ := g
  induction cs with
  | nil => rfl
  | cons c cs ih =>
    rw [List.all_cons, Bool.and_eq_true] at hcs
    have hc : c ∈ [' ', '\t', '\r', '\n'] := by
      have : c = ' ' ∨ c = '\t' := by simpa using hcs.1
      rcases this with rfl | rfl <;> decide
    simp only [List.cons_append]
    rw [shlexLoop, if_pos hc]
    exact ih hcs.2

/-- A blank behind a word. -/
theorem loop_end {g : Gap} (hg : g.chars ≠ []) (h : token ≠ [] ∨ quoted = true) :
    shlexLoop .word token quoted (g.chars ++ rest) =
      (shlexLoop .blank [] false rest).map (String.ofList token.reverse :: ·) := by
  obtain ⟨cs, hcs⟩ := g
  obtain ⟨c, cs, rfl⟩ := List.exists_cons_of_ne_nil hg
  rw [List.all_cons, Bool.and_eq_true] at hcs
  have hc : c ∈ [' ', '\t', '\r', '\n'] := by
    have : c = ' ' ∨ c = '\t' := by simpa using hcs.1
    rcases this with rfl | rfl <;> decide
  simp only [List.cons_append]
  rw [shlexLoop, if_pos hc, if_pos h]
  exact congrArg _ (@loop_gap [] rest false ⟨cs, hcs.2⟩)

/-- The words of items. -/
def words (items : List Item) : List String :=
  items.filterMap fun
    | .word w => some w.value
    | .redirect _ => none

theorem loop_items {items : List (Gap × Item)} (hgap : items.all (fun e => e.1.chars ≠ []) = true)
    (hplain : items.all (fun e => e.2.plain) = true) (h : token ≠ [] ∨ quoted = true) :
    shlexLoop .word token quoted (items.flatMap fun e => e.1.chars ++ e.2.text) =
      some (String.ofList token.reverse :: words (items.map Prod.snd)) := by
  induction items generalizing token quoted with
  | nil => rfl
  | cons e items ih =>
    obtain ⟨g, item⟩ := e
    rw [List.all_cons, Bool.and_eq_true] at hgap hplain
    cases item with
    | redirect r => simp [Item.plain] at hplain
    | word w =>
      have hg : g.chars ≠ [] := by simpa using hgap.1
      rw [List.flatMap_cons, List.append_assoc, loop_end hg h]
      have hw := @loop_word [] (items.flatMap fun e => e.1.chars ++ e.2.text) false w hplain.1
      rw [show (Item.word w).text = w.text from rfl, hw, ih hgap.2 hplain.2 (valueChars_ne_or w)]
      simp [words, value_eq]

/-- **`shlex.split` reads the words of a plain command.** -/
theorem shlexSplit_chars {c : Simple} (h : c.plain = true) :
    shlexSplit c.chars = some c.words := by
  rw [Simple.plain, Simple.items, List.all_cons, Bool.and_eq_true, List.all_map] at h
  have hwords : c.words = words c.items := rfl
  rw [shlexSplit, Simple.chars, hwords, Simple.items]
  cases hfirst : c.first with
  | redirect r => simp [hfirst, Item.plain] at h
  | word w =>
    have hw : w.plain = true := by simpa [hfirst, Item.plain] using h.1
    rw [show (Item.word w).text = w.text from rfl, loop_word hw,
      loop_items c.ok h.2 (valueChars_ne_or w)]
    simp [words, value_eq]

/-! ### Going to a directory -/

/-- A text that can be handed to the operating system. -/
def noNul (text : String) : Bool := '\x00' ∉ text.toList

/-- What the operating system says about absolute paths. -/
structure Fs where
  isdir : String → Bool
  realpath : String → String
  noNul_of_isdir : ∀ path, isdir path = true → noNul path = true

/-- Everything that two dots step out of is a directory. -/
def dotsExist (fs : Fs) (slashes : String) : List String → List String → Bool
  | _, [] => true
  | front, c :: cs =>
    (c ≠ ".." || front = [] || fs.isdir (slashes ++ "/".intercalate front)) &&
      dotsExist fs slashes (Posix.pushComp true front c) cs

/-- Where `cd` takes a shell that is in `pwd`, if it can. The path without its dots is tried first,
then the path as it stands. -/
def change (fs : Fs) (pwd dir : String) : Option String :=
  let path := Posix.join pwd dir
  if dotsExist fs (Posix.initialSlashes path) [] (Posix.split path) ∧
      fs.isdir (Posix.normpath path) then
    some (Posix.normpath path)
  else if fs.isdir path then some (fs.realpath path) else none

/-- The paths that `cd` tries for its word. -/
def candidates (vars : Dict String String) (dir : String) : List String :=
  if Posix.isabs dir ∨ (Posix.split dir).head? = some "." ∨ (Posix.split dir).head? = some ".." then
    [dir]
  else
    (match vars.find? "CDPATH" with
      | none => []
      | some path => (path.toList.splitOn ':').map fun front => Posix.join (String.ofList front) dir) ++
      [dir]

/-- `cd`, in a shell with these variables. -/
def cd (fs : Fs) (vars : Dict String String) (pwd dir : String) : Option String :=
  (candidates vars dir).findSome? (change fs pwd)

theorem cd_of_no_cdpath {fs : Fs} {vars : Dict String String} (h : vars.find? "CDPATH" = none)
    (pwd dir : String) : cd fs vars pwd dir = change fs pwd dir := by
  have hone : candidates vars dir = [dir] := by
    rw [candidates, h]
    simp
  rw [cd, hone, List.findSome?_singleton]

/-- The directory that a `cd` is about, in the forms without an option. -/
def cdWord (vars : Dict String String) : List String → Option String
  | ["cd"] => (vars.find? "HOME").filter (· ≠ "")
  | ["cd", dir] => if dir = "" ∨ Posix.startswith dir "-" then none else some dir
  | _ => none

/-! ### Setting variables -/

/-- What stands before and behind the first equals sign. -/
def cutEq (w : String) : String × String :=
  (String.ofList (w.toList.takeWhile (· ≠ '=')), String.ofList (w.toList.dropWhile (· ≠ '=')).tail)

/-- A name of a variable. -/
def isName (name : String) : Bool :=
  match name.toList with
  | [] => false
  | c :: cs => (c.isAlpha || c = '_') && cs.all fun c => c.isAlphanum || c = '_'

/-- Variables that cannot be set, or that do not keep what they are set to. -/
def ownNames : List String :=
  ["BASHOPTS", "BASHPID", "BASH_ALIASES", "BASH_ARGV0", "BASH_CMDS", "BASH_COMMAND",
    "BASH_SUBSHELL", "BASH_VERSINFO", "COMP_WORDBREAKS", "DIRSTACK", "EPOCHREALTIME",
    "EPOCHSECONDS", "EUID", "FUNCNAME", "GROUPS", "HISTCMD", "LINENO", "PPID", "RANDOM", "SECONDS",
    "SHELLOPTS", "SRANDOM", "UID", "_"]

/-- A word of `export` that bash takes. -/
def exportable (w : String) : Bool := isName (cutEq w).1 && (cutEq w).1 ∉ ownNames

/-- One word of `export`. -/
def exportOne (vars : Dict String String) (w : String) : Dict String String :=
  if '=' ∈ w.toList ∧ exportable w then vars.set (cutEq w).1 (cutEq w).2 else vars

/-- `export`: the variables behind it, and whether it takes all its words. -/
def exports (vars : Dict String String) (ws : List String) : Dict String String × Bool :=
  (ws.foldl exportOne vars, ws.all exportable)

end Bash

end DeltaBox
