import DeltaBox.Lib.Shell
import DeltaBox.Lib.Text

/-!
# The classification of shell commands

`InstructionSemanticParser.parse_strategy` says from the text of a command which checkpoint will do
behind it. A command that only reads may go without one.

The regular expressions are written out as functions on characters. `\s` and `\d` know all blanks and
digits of Unicode, as they do in the source.

## Main definitions

* `stripSafe`, `writesFile` — redirections
* `pieces` — the parts between `&&` and `;`
* `glance` — one part
* `parseStrategy`
-/

namespace DeltaBox

namespace Semantic

/-- The checkpoints. -/
inductive Strategy where
  | lightweight
  | standard
  | predump
  deriving DecidableEq

/-- `READONLY_COMMANDS`. -/
def readonlyCommands : List String :=
  ["cat", "ls", "pwd", "whoami", "echo", "head", "tail", "grep", "find", "stat", "wc", "file", "date",
    "hostname", "id", "env", "printenv", "uname", "df", "du", "free", "uptime", "which", "type",
    "true", "false", "test", "sleep"]

/-- `BACKGROUND_COMMANDS`. -/
def backgroundCommands : List String := ["nohup", "screen", "tmux", "systemctl", "service"]

/-- The builtins of the shell that are taken as harmless. -/
def builtinCommands : List String := ["cd", "export", "set", "unset", "alias", "source", "."]

/-! ### Texts -/

/-- `str.strip()`. -/
def strip (s : List Char) : List Char := Text.rstrip (s.dropWhile Text.isSpace)

/-- `not s.strip()`. -/
def blank (s : List Char) : Bool := s.all Text.isSpace

/-- `sub in s`. -/
def contains (sub s : List Char) : Bool := s.tails.any fun t => sub.isPrefixOf t

/-- `s.split()[0]`, if there is one. -/
def firstWord (s : List Char) : Option String :=
  match s.dropWhile Text.isSpace with
  | [] => none
  | c :: cs => some (String.ofList ((c :: cs).takeWhile fun c => !Text.isSpace c))

/-- The decimal digits of Unicode. -/
def decimals : List (ℕ × ℕ) :=
  [(48, 57), (1632, 1641), (1776, 1785), (1984, 1993), (2406, 2415), (2534, 2543), (2662, 2671),
    (2790, 2799), (2918, 2927), (3046, 3055), (3174, 3183), (3302, 3311), (3430, 3439), (3558, 3567),
    (3664, 3673), (3792, 3801), (3872, 3881), (4160, 4169), (4240, 4249), (6112, 6121), (6160, 6169),
    (6470, 6479), (6608, 6617), (6784, 6793), (6800, 6809), (6992, 7001), (7088, 7097), (7232, 7241),
    (7248, 7257), (42528, 42537), (43216, 43225), (43264, 43273), (43472, 43481), (43504, 43513),
    (43600, 43609), (44016, 44025), (65296, 65305), (66720, 66729), (68912, 68921), (69734, 69743),
    (69872, 69881), (69942, 69951), (70096, 70105), (70384, 70393), (70736, 70745), (70864, 70873),
    (71248, 71257), (71360, 71369), (71472, 71481), (71904, 71913), (72016, 72025), (72784, 72793),
    (73040, 73049), (73120, 73129), (92768, 92777), (92864, 92873), (93008, 93017), (120782, 120831),
    (123200, 123209), (123632, 123641), (125264, 125273), (130032, 130041)]

/-- `\d`. -/
def isDecimal (c : Char) : Bool := decimals.any fun r => r.1 ≤ c.toNat && c.toNat ≤ r.2

/-! ### Redirections -/

/-- `\s*(?:/dev/null|&\d)`: what follows it. -/
def matchTarget (s : List Char) : Option (List Char) :=
  let rest := s.dropWhile Text.isSpace
  if "/dev/null".toList.isPrefixOf rest then some (rest.drop 9)
  else
    match rest with
    | '&' :: d :: rest => if isDecimal d then some rest else none
    | _ => none

/-- `>>?\s*(?:/dev/null|&\d)`: what follows it. -/
def matchArrow : List Char → Option (List Char)
  | '>' :: '>' :: rest => matchTarget rest
  | '>' :: rest => matchTarget rest
  | _ => none

/-- `[0-9&]?>>?\s*(?:/dev/null|&\d)`: how many characters it takes. -/
def matchSafe (s : List Char) : Option ℕ :=
  let arrow := match s with
    | c :: rest => if c.isDigit || c = '&' then rest else s
    | [] => []
  (matchArrow arrow).map fun rest => s.length - rest.length

/-- `re.sub` with this expression and nothing. `skip` characters have been taken already. -/
def stripSafeFrom : (skip : ℕ) → List Char → List Char
  | _, [] => []
  | skip + 1, _ :: cs => stripSafeFrom skip cs
  | 0, c :: cs =>
    match matchSafe (c :: cs) with
    | some n => stripSafeFrom (n - 1) cs
    | none => c :: stripSafeFrom 0 cs

/-- The command without the redirections that are taken as safe. -/
def stripSafe (s : List Char) : List Char := stripSafeFrom 0 s

/-- `re.search(r'>\s*\S', s)`. -/
def writesFile : List Char → Bool
  | [] => false
  | c :: cs => (c = '>' && cs.any fun c => !Text.isSpace c) || writesFile cs

/-! ### Parts -/

/-- `re.split(r'&&|;', s)`. -/
def splitCompound : List Char → List (List Char)
  | [] => [[]]
  | '&' :: '&' :: cs => [] :: splitCompound cs
  | c :: cs =>
    if c = ';' then [] :: splitCompound cs
    else (splitCompound cs).modifyHead (c :: ·)

/-- Is it a chain? -/
def compound (s : List Char) : Bool := contains ['&', '&'] s || ';' ∈ s

/-- `sub_cmds`. -/
def pieces (s : List Char) : List (List Char) :=
  ((splitCompound s).map strip).filter fun p => p ≠ []

/-- `tokens`: the words in front of the first bar and the first arrow. If they cannot be split, it is
the first word of all. -/
def tokens (s : List Char) : List String :=
  let firstCmdPart := strip (s.takeWhile (· ≠ '|'))
  let cmdNoRedir := strip (firstCmdPart.takeWhile (· ≠ '>'))
  (Shell.shlexSplit cmdNoRedir).getD (firstWord s).toList

/-- `base_cmd`: in small letters, and without its path. All names that it is compared with are ASCII,
and no other capital letter than the ASCII ones becomes a letter in them. -/
def baseCmd (token : String) : String :=
  Shell.commandName (String.ofList (token.toList.map Char.toLower))

/-- `parse_strategy` behind the case of a chain. -/
def glance (s : List Char) : Strategy :=
  match tokens s with
  | [] => .standard
  | token :: rest =>
    let base := baseCmd token
    if base ∈ backgroundCommands || (strip s).getLast? = some '&' then .predump
    else if base ∈ ["python", "python3", "pytest", "tox"] &&
        (contains "--parallel".toList s || contains "-n".toList s) then .predump
    else if base ∈ readonlyCommands then .lightweight
    else if base = "sed" then if "-i" ∈ token :: rest then .standard else .lightweight
    else if base ∈ builtinCommands then .lightweight
    else .standard

/-- What the parts of a chain come to. -/
def merge (subStrategies : List Strategy) : Strategy :=
  if .predump ∈ subStrategies then .predump
  else if .standard ∈ subStrategies then .standard
  else if subStrategies ≠ [] && subStrategies.all (· = .lightweight) then .lightweight
  else .standard

/-- The body of `parse_strategy`. -/
def parseStep (parse : List Char → Strategy) (s : List Char) : Strategy :=
  if blank s then .standard
  else if writesFile (stripSafe s) then .standard
  else if compound s then merge ((pieces s).map parse)
  else glance s

/-- `parse_strategy`, with a bound on the depth of its calls. -/
def parseFuel : ℕ → List Char → Strategy
  | 0, _ => .standard
  | n + 1, s => parseStep (parseFuel n) s

/-- `parse_strategy`. -/
def parseStrategy (command : String) : Strategy :=
  parseFuel (command.toList.length + 1) command.toList

example : parseStrategy "cd src && grep -rn foo . 2>/dev/null" = .lightweight := by decide +kernel

example : parseStrategy "sed -i s/a/b/ f; ls" = .standard := by decide +kernel

end Semantic

end DeltaBox
