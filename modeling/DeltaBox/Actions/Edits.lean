import DeltaBox.Lib.Cells
import DeltaBox.Lib.Text
import Mathlib.Data.Int.Order.Basic
import Mathlib.Data.String.Basic

/-!
# The editing actions of the worker

The actions of a worker that change one file: `StringReplace`, `RegexReplace`, `ReplaceLines` and
`AppendString`, and the lines that `ViewCode` numbers (`agent/worker/worker_actions.py`). Each of them
reads the file as text, edits the text and writes all of it. The file is empty once it is opened for
writing, and a text with a surrogate cannot be written.

The path has been resolved. The arguments that are texts are strings; those that are numbers may be
anything, and `int()` may raise.

## What is given

A `Regex` is the module `re`: what compiling a pattern gives, and the places that `subn` replaces.

## Main definitions

* `Code`, `encode?` — the characters of a string, and writing it
* `Hit`, `substitute` — a replaced place, and the text behind the replacements
* `stringReplace`, `regexReplace`, `replaceLines`, `appendFile` — the actions
* `lineWindow` — what `ViewCode` shows
-/

namespace DeltaBox

namespace Actions

open Utf8 Text

/-! ### Strings -/

/-- A character of a string: a string may have halves of a surrogate pair in it. -/
inductive Code where
  | char (c : Char)
  | surrogate (n : Fin 2048)
  deriving DecidableEq

abbrev Str := List Code

/-- A string without surrogates. -/
def ofChars (cs : List Char) : Str := cs.map Code.char

def str (s : String) : Str := ofChars s.toList

/-- `str.encode()`, none if it raises. -/
def encode? : Str → Option (List UInt8)
  | [] => some []
  | .char c :: cs => (encode? cs).map (String.utf8EncodeChar c ++ ·)
  | .surrogate _ :: _ => none

/-- The text before and behind the first occurrence. -/
def find (sub : Str) : Str → Option (Str × Str)
  | [] => if sub = [] then some ([], []) else none
  | c :: cs =>
    if sub <+: c :: cs then some ([], (c :: cs).drop sub.length)
    else (find sub cs).map fun e => (c :: e.1, e.2)

/-- The occurrences one after the other. The fuel is the length of the text. -/
def countFrom (sub : Str) : ℕ → Str → ℕ
  | 0, _ => 0
  | fuel + 1, cs =>
    match find sub cs with
    | none => 0
    | some (_, rest) => countFrom sub fuel rest + 1

/-- `str.count`. -/
def count (sub cs : Str) : ℕ := if sub = [] then cs.length + 1 else countFrom sub cs.length cs

/-- `str.replace(old, new, 1)`. -/
def replaceFirst (old new cs : Str) : Str :=
  match find old cs with
  | none => cs
  | some (before, behind) => before ++ new ++ behind

/-- `str.splitlines(keepends=True)`. -/
def splitlinesKeep : List Char → List (List Char)
  | [] => []
  | '\r' :: '\n' :: cs => ['\r', '\n'] :: splitlinesKeep cs
  | c :: cs =>
    if isBreak c then [c] :: splitlinesKeep cs
    else match splitlinesKeep cs with
      | [] => [[c]]
      | l :: ls => (c :: l) :: ls

/-- An argument that should be a number: is it true, and what does `int()` give? -/
structure Value where
  truthy : Bool
  int? : Option ℤ
  deriving DecidableEq

/-- `int(value or default)`, none if it raises. -/
def intOr (value : Option Value) (default : ℤ) : Option ℤ :=
  match value with
  | none => some default
  | some v => if v.truthy then v.int? else some default

/-! ### Replaced places -/

/-- A place that is replaced: the characters since the last one, its length, and its new text. -/
structure Hit where
  skip : ℕ
  length : ℕ
  new : Str
  deriving DecidableEq

/-- A text with its replacements. -/
def substitute : List Hit → Str → Str
  | [], cs => cs
  | hit :: hits, cs =>
    cs.take hit.skip ++ hit.new ++ substitute hits (cs.drop (hit.skip + hit.length))

/-- The module `re`. -/
structure Regex where
  /-- `re.compile` with both flags: the text of its error, or what `subn` replaces in a text, at most
  so often, none if the replacement is refused. -/
  compile : Str → Except String (Str → List Char → ℕ → Option (List Hit))

/-! ### The actions -/

/-- What an action reports. -/
inductive Report where
  | edited
  | refused (message : String)
  | raised
  deriving DecidableEq

/-- What an action reports, and the file it leaves. -/
structure Result where
  report : Report
  file : Option (List UInt8)
  deriving DecidableEq

/-- `Path.read_text`. -/
def readText (bs : List UInt8) : List Char := (replacing bs).toList

/-- `Path.write_text`, for a file that is opened before its text is encoded. -/
def writeText (cs : Str) : Result :=
  match encode? cs with
  | some bs => ⟨.edited, some bs⟩
  | none => ⟨.raised, some []⟩

variable (re : Regex) (path : String)

def notFound : Result := ⟨.refused ("File not found: " ++ path), none⟩

/-- `string_replace`. -/
def stringReplace (file : Option (List UInt8)) (old new : Str) : Result :=
  match file with
  | none => notFound path
  | some bs =>
    let text := ofChars (readText bs)
    if old = new then ⟨.refused "StringReplace no-op: old_str == new_str.", some bs⟩
    else if count old text = 0 then
      ⟨.refused ("old_str not found in " ++ path ++ ". ViewCode the region and " ++
        "copy the exact text before retrying."), some bs⟩
    else if 1 < count old text then
      ⟨.refused ("old_str occurs " ++ toString (count old text) ++ " times in " ++ path ++
        "; add more surrounding context so it is unique."), some bs⟩
    else writeText (replaceFirst old new text)

/-- `regex_replace`. -/
def regexReplace (file : Option (List UInt8)) (pattern replacement : Str) (count : Option Value) :
    Result :=
  match file with
  | none => notFound path
  | some bs =>
    match re.compile pattern with
    | .error e => ⟨.refused ("Invalid regex " ++ e), some bs⟩
    | .ok subn =>
      match intOr count 1 with
      | none => ⟨.raised, some bs⟩
      | some n =>
        match subn replacement (readText bs) (max 1 (min n 20)).toNat with
        | none => ⟨.raised, some bs⟩
        | some hits =>
          let newText := substitute hits (ofChars (readText bs))
          if hits.length = 0 then
            ⟨.refused ("RegexReplace pattern did not match " ++ path ++ "."), some bs⟩
          else if newText = ofChars (readText bs) then
            ⟨.refused "RegexReplace matched but produced identical content.", some bs⟩
          else writeText newText

/-- The new text of some lines. -/
def lineText (new : Str) : Str :=
  if new ≠ [] ∧ ¬ str "\n" <:+ new then new ++ str "\n" else new

/-- `replace_lines`. -/
def replaceLines (file : Option (List UInt8)) (startLine endLine : Option Value) (new : Str) :
    Result :=
  match file with
  | none => notFound path
  | some bs =>
    let lines := splitlinesKeep (readText bs)
    match startLine.bind Value.int? with
    | none => ⟨.raised, some bs⟩
    | some start =>
      match intOr endLine start with
      | none => ⟨.raised, some bs⟩
      | some stop =>
        if start < 1 ∨ stop < start ∨ (lines.length : ℤ) < stop then
          ⟨.refused ("Invalid line range " ++ toString start ++ "-" ++ toString stop ++
            "; file has " ++ toString lines.length ++ " lines."), some bs⟩
        else
          let before := lines.take (start.toNat - 1)
          let block := (lines.take stop.toNat).drop (start.toNat - 1)
          if ofChars block.flatten = lineText new then
            ⟨.refused "ReplaceLines produced identical content.", some bs⟩
          else
            writeText (ofChars before.flatten ++ lineText new ++
              ofChars (lines.drop stop.toNat).flatten)

/-- What stands between a file and what is appended to it. -/
def separator (cs : List Char) : Str := if ['\n'] <:+ cs ∨ cs = [] then [] else str "\n"

/-- `append_file`. -/
def appendFile (file : Option (List UInt8)) (new : Str) : Result :=
  match file with
  | none => notFound path
  | some bs => writeText (ofChars (readText bs) ++ separator (readText bs) ++ new)

/-! ### What is shown -/

/-- The numbered lines that are shown, and the last of how many if there are more. -/
structure Window where
  shown : List (ℤ × List Char)
  truncated : Option (ℤ × ℕ)
  deriving DecidableEq

/-- The first line that is shown and the last, of so many. -/
def windowBounds (n : ℕ) (start stop : Option Value) : Option (ℤ × ℤ) :=
  if start.isNone ∧ stop.isNone then some (1, min (n : ℤ) 80)
  else
    (intOr start 1).bind fun first =>
      let lo := max 1 first
      (intOr stop lo).map fun last =>
        let hi := min (n : ℤ) last
        (lo, hi)

/-- So many lines with their numbers, none if there are not so many. -/
def numbered (lines : List (List Char)) (lo : ℤ) : ℕ → Option (List (ℤ × List Char))
  | 0 => some []
  | n + 1 => (lines[lo.toNat - 1]?).bind fun l => (numbered lines (lo + 1) n).map ((lo, l) :: ·)

/-- `_line_window`, none if it raises. -/
def lineWindow (cs : List Char) (start stop : Option Value) : Option Window :=
  let lines := splitlines cs
  (windowBounds lines.length start stop).bind fun e =>
    let lo := e.1
    let hi := if e.2 - lo + 1 > 140 then lo + 140 - 1 else e.2
    (if lines = [] then some [] else numbered lines lo (max lo hi - lo + 1).toNat).map fun shown =>
      { shown, truncated := if (lines.length : ℤ) > hi then some (hi, lines.length) else none }

end Actions

end DeltaBox
