import Mathlib.Data.List.Basic

/-!
# Shell commands

Simple commands with words and redirections, joined by connectors, and the text that they are written
as. Words may be quoted. Nothing is expanded: a dollar sign stands for itself.

`shlexSplit` is the splitting of the library `shlex`, which knows the same quotes but no operators.

## Main definitions

* `Word`, `Redirect`, `Simple`, `Script` — the commands
* `Script.text`, `Simple.text` — how they are written
* `Redirect.toPath` — redirections of output to a path
* `sedInPlace`, `findWrites` — options that make a command write
-/

namespace DeltaBox

namespace Shell

/-- A part of a word. In double quotes a character may have a backslash in front. -/
inductive Part where
  | bare (c : Char)
  | escaped (c : Char)
  | single (cs : List Char)
  | double (cs : List (Bool × Char))
  deriving DecidableEq

/-- The characters that are no part of a bare word. -/
def special : List Char :=
  [' ', '\t', '\n', '\'', '"', '\\', '|', '&', ';', '<', '>', '(', ')', '`']

/-- A part that can be written like this. -/
def Part.ok : Part → Bool
  | .bare c => c ∉ special
  | .escaped c => c ≠ '\n'
  | .single cs => '\'' ∉ cs
  | .double cs => cs.all fun e => e.1 || (e.2 ≠ '"' && e.2 ≠ '\\' && e.2 ≠ '`')

/-- How it is written. -/
def Part.text : Part → List Char
  | .bare c => [c]
  | .escaped c => ['\\', c]
  | .single cs => '\'' :: cs ++ ['\'']
  | .double cs => '"' :: cs.flatMap (fun e => if e.1 then ['\\', e.2] else [e.2]) ++ ['"']

/-- What it stands for. In double quotes a backslash stays unless it is needed. -/
def Part.value : Part → List Char
  | .bare c => [c]
  | .escaped c => [c]
  | .single cs => cs
  | .double cs => cs.flatMap fun e =>
    if e.1 && e.2 ∉ ['"', '\\', '`', '$'] then ['\\', e.2] else [e.2]

/-- A word. -/
structure Word where
  parts : List Part
  ne : parts ≠ []
  ok : parts.all Part.ok = true

/-- How a word is written. -/
def Word.text (w : Word) : List Char := w.parts.flatMap Part.text

/-- What a word stands for. -/
def Word.value (w : Word) : String := String.ofList (w.parts.flatMap Part.value)

/-- A word without quotes. -/
def Word.bare (s : String) (ne : s.toList.map Part.bare ≠ [])
    (ok : (s.toList.map Part.bare).all Part.ok = true) : Word :=
  ⟨s.toList.map Part.bare, ne, ok⟩

/-- The operators of redirections. -/
inductive Op where
  | input
  | out
  | append
  | clobber
  /-- To another descriptor, or to a path if its word is no number. -/
  | dup
  | both
  | bothAppend
  deriving DecidableEq

def Op.text : Op → List Char
  | .input => ['<']
  | .out => ['>']
  | .append => ['>', '>']
  | .clobber => ['>', '|']
  | .dup => ['>', '&']
  | .both => ['&', '>']
  | .bothAppend => ['&', '>', '>']

/-- A blank between words. -/
structure Gap where
  chars : List Char
  ok : chars.all (fun c => c = ' ' || c = '\t') = true

/-- A redirection, with the digits in front of it. -/
structure Redirect where
  fd : List Char
  op : Op
  gap : Gap
  target : Word
  ok : fd.all Char.isDigit = true

def Redirect.text (r : Redirect) : List Char := r.fd ++ r.op.text ++ r.gap.chars ++ r.target.text

/-- Is the word of a `>&` a descriptor? -/
def isDescriptor (s : String) : Bool :=
  s = "-" || (s ≠ "" && s.toList.all Char.isDigit)

/-- Does it send output to a path other than `/dev/null`? -/
def Redirect.toPath (r : Redirect) : Bool :=
  match r.op with
  | .input => false
  | .dup => !isDescriptor r.target.value && r.target.value ≠ "/dev/null"
  | _ => r.target.value ≠ "/dev/null"

/-- A word or a redirection. -/
inductive Item where
  | word (w : Word)
  | redirect (r : Redirect)

def Item.text : Item → List Char
  | .word w => w.text
  | .redirect r => r.text

/-- A simple command: its items, each with the blank in front of it. -/
structure Simple where
  first : Item
  rest : List (Gap × Item)
  /-- There is a blank between two items. -/
  ok : rest.all (fun e => e.1.chars ≠ []) = true

/-- The items of a command. -/
def Simple.items (c : Simple) : List Item := c.first :: c.rest.map Prod.snd

/-- How a command is written. -/
def Simple.chars (c : Simple) : List Char :=
  c.first.text ++ c.rest.flatMap fun e => e.1.chars ++ e.2.text

def Simple.text (c : Simple) : String := String.ofList c.chars

/-- What its words stand for. -/
def Simple.words (c : Simple) : List String :=
  c.items.filterMap fun
    | .word w => some w.value
    | .redirect _ => none

def Simple.redirects (c : Simple) : List Redirect :=
  c.items.filterMap fun
    | .word _ => none
    | .redirect r => some r

/-- Its words behind the assignments. -/
def Simple.argv (c : Simple) : List String :=
  c.words.dropWhile fun w => '=' ∈ w.toList

/-- What joins two commands. -/
inductive Connector where
  | pipe
  | or
  | and
  | semi
  | amp
  | newline
  deriving DecidableEq

def Connector.text : Connector → List Char
  | .pipe => ['|']
  | .or => ['|', '|']
  | .and => ['&', '&']
  | .semi => [';']
  | .amp => ['&']
  | .newline => ['\n']

/-- Commands that are joined, with the blanks around the connectors. There may be a connector at the
end. -/
structure Script where
  lead : Gap
  first : Simple
  rest : List ((Gap × Connector × Gap) × Simple)
  last : Option (Gap × Connector)
  /-- The one at the end ends a command. -/
  ok : last.all (fun e => e.2 = .semi || e.2 = .amp || e.2 = .newline) = true

/-- The simple commands. -/
def Script.commands (s : Script) : List Simple := s.first :: s.rest.map Prod.snd

def Script.chars (s : Script) : List Char :=
  s.lead.chars ++ s.first.chars ++
    (s.rest.flatMap fun e => e.1.1.chars ++ e.1.2.1.text ++ e.1.2.2.chars ++ e.2.chars) ++
    s.last.elim [] fun e => e.1.chars ++ e.2.text

/-- How the commands are written. -/
def Script.text (s : Script) : String := String.ofList s.chars

/-! ### Options that make a command write -/

/-- The last component of the name of a command. -/
def commandName (word : String) : String :=
  String.ofList (word.toList.reverse.takeWhile (· ≠ '/')).reverse

/-- Is a text the front part of an option of at least `n` characters? -/
def abbreviates (n : ℕ) (key : List Char) (option : String) : Bool :=
  n ≤ key.length && key.isPrefixOf option.toList

/-- The short options in one word of `sed`: whether `i` is among them, and whether the last one takes
the next word. -/
def sedShort : List Char → Bool × Bool
  | [] => (false, false)
  | 'i' :: _ => (true, false)
  | c :: cs => if c ∈ ['e', 'f', 'l'] then (false, cs = []) else sedShort cs

/-- Is one of the words of `sed` the option to edit in place, in any spelling? Options may stand
behind other words, and long ones may be cut off. -/
def sedInPlace : (skip : Bool) → List String → Bool
  | _, [] => false
  | true, _ :: args => sedInPlace false args
  | false, arg :: args =>
    match arg.toList with
    | ['-', '-'] => false
    | '-' :: '-' :: name =>
      let key := name.takeWhile (· ≠ '=')
      if abbreviates 1 key "in-place" then true
      else sedInPlace ('=' ∉ name && (abbreviates 1 key "expression" || abbreviates 2 key "file" ||
        abbreviates 1 key "line-length")) args
    | '-' :: cs => if (sedShort cs).1 then true else sedInPlace (sedShort cs).2 args
    | _ => sedInPlace false args

/-- Does `find` delete, run or write something? -/
def findWrites (args : List String) : Bool :=
  args.any fun arg => arg ∈ ["-delete", "-exec", "-execdir", "-ok", "-okdir", "-fprint", "-fprint0",
    "-fprintf", "-fls"]

/-- Is a command an edit in place? -/
def Simple.editsInPlace (c : Simple) : Bool :=
  match c.argv with
  | [] => false
  | name :: args => commandName name = "sed" && sedInPlace false args

/-- Is a command a `find` that writes? -/
def Simple.findsAndWrites (c : Simple) : Bool :=
  match c.argv with
  | [] => false
  | name :: args => commandName name = "find" && findWrites args

example : sedInPlace false ["-ni.bak", "p", "f"] = true := by decide +kernel

example : sedInPlace false ["-e", "-i", "f"] = false := by decide +kernel

/-! ### `shlex` -/

/-- What a splitter is in. -/
inductive Mode where
  | blank
  | word
  | quote (q : Char)
  /-- Behind a backslash, with where it was before. -/
  | escape (back : Option Char)
  deriving DecidableEq

/-- The loop of `shlex.split`: the mode, the characters of the current word in reverse, and whether
there is a word even if it is empty. It is none when a quotation is not closed, or nothing follows a
backslash. -/
def shlexLoop : Mode → List Char → Bool → List Char → Option (List String)
  | .blank, _, _, [] => some []
  | .word, token, _, [] => some [String.ofList token.reverse]
  | .quote _, _, _, [] => none
  | .escape _, _, _, [] => none
  | .blank, token, quoted, c :: cs =>
    if c ∈ [' ', '\t', '\r', '\n'] then shlexLoop .blank token quoted cs
    else if c = '\\' then shlexLoop (.escape none) [] false cs
    else if c = '\'' ∨ c = '"' then shlexLoop (.quote c) [] true cs
    else shlexLoop .word [c] false cs
  | .word, token, quoted, c :: cs =>
    if c ∈ [' ', '\t', '\r', '\n'] then
      if token ≠ [] ∨ quoted then
        (shlexLoop .blank [] false cs).map (String.ofList token.reverse :: ·)
      else shlexLoop .blank [] false cs
    else if c = '\'' ∨ c = '"' then shlexLoop (.quote c) token true cs
    else if c = '\\' then shlexLoop (.escape none) token quoted cs
    else shlexLoop .word (c :: token) quoted cs
  | .quote q, token, quoted, c :: cs =>
    if c = q then shlexLoop .word token quoted cs
    else if c = '\\' ∧ q = '"' then shlexLoop (.escape (some q)) token quoted cs
    else shlexLoop (.quote q) (c :: token) quoted cs
  | .escape none, token, quoted, c :: cs => shlexLoop .word (c :: token) quoted cs
  | .escape (some q), token, quoted, c :: cs =>
    if c ≠ '\\' ∧ c ≠ q then shlexLoop (.quote q) (c :: '\\' :: token) quoted cs
    else shlexLoop (.quote q) (c :: token) quoted cs

/-- `shlex.split`. It is none when it raises. -/
def shlexSplit (s : List Char) : Option (List String) := shlexLoop .blank [] false s

example : shlexSplit "grep -n \"a b\" x'y'".toList = some ["grep", "-n", "a b", "xy"] := by
  decide +kernel

end Shell

end DeltaBox
