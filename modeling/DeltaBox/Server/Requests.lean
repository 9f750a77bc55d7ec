import DeltaBox.Lib.Bash
import DeltaBox.Lib.Machine
import DeltaBox.Lib.Strings

/-!
# The requests of the shell server

`ShellServer` keeps a directory and an environment between the actions of an agent
(`upper/agent/shell_server.py`). `do_bash` recognises a leading `cd` and `export` by their text,
carries them out itself, and runs every other command under bash.

## What is modelled

* `do_bash`, `do_set_cwd` and `do_set_env` with their replies. What a process writes, and what an
  exception says, is part of the request: the server does not decide it.
* The process's own directory, against which the operating system takes relative paths.
* The file system, which every command may change, and Python code, which may move the process.

Permissions are left out, and variables with a name or a value that no process can have are the only
thing besides a missing directory that keeps bash from starting.
-/

namespace DeltaBox

namespace Server

open Bash

/-- The server, and the file system it is in. -/
structure State where
  /-- `_cwd`. -/
  cwd : String
  /-- `_repo_root`. -/
  repoRoot : String
  /-- `_env`. -/
  env : Dict String String
  /-- The directory of the process. -/
  dir : String
  fs : Fs

/-- What the host gets back. -/
structure Reply where
  stdout : String
  stderr : String
  rc : ℤ
  error : Option String
  deriving DecidableEq

/-- A start of bash: the text behind `-lc`, the directory and the environment. -/
structure Spawn where
  cmd : String
  cwd : String
  env : Dict String String

/-- What comes of `subprocess.run`, or of a splitter that raises. -/
inductive Outcome where
  | completed (stdout stderr : String) (returncode : ℤ)
  /-- With the time as it is printed. -/
  | timeout (stdout stderr seconds : String)
  | raised (name message trace : String)

/-- What is behind a request: the server, the reply, and the bash that was started. -/
structure Done where
  state : State
  reply : Reply
  ran : Option Spawn

/-- `os.path.isdir`. -/
def State.isdir (s : State) (path : String) : Bool := s.fs.isdir (Posix.join s.dir path)

/-- `os.path.realpath`. -/
def State.realpath (s : State) (path : String) : String := s.fs.realpath (Posix.join s.dir path)

/-- `os.chdir` to the kept directory. It is tried only. -/
def State.anchor (s : State) : State :=
  if s.isdir s.cwd then { s with dir := Posix.join s.dir s.cwd } else s

/-- `_inside_repo`. -/
def State.insideRepo (s : State) (path : String) : Bool :=
  s.realpath path = s.repoRoot || Posix.startswith (s.realpath path) (s.repoRoot ++ "/")

/-- `__init__`, behind `os.makedirs`. -/
def init (made : Fs) (dir initialCwd : String) (environ : Dict String String) : State :=
  let s : State := ⟨initialCwd, made.realpath (Posix.join dir initialCwd), environ, dir, made⟩
  let env := ((environ.set "PYTHONDONTWRITEBYTECODE" "1").set "PWD" initialCwd)
  let env := (env.set "GIT_CONFIG_COUNT" "1").set "GIT_CONFIG_KEY_0" "safe.directory"
  { s with env := env.set "GIT_CONFIG_VALUE_0" s.repoRoot }.anchor

/-- Is one text in another? -/
def contains (cmd sub : String) : Bool := sub.toList <:+: cmd.toList

def unsafeText : List String :=
  ["/tmp/heavy_swebench_", "/home/", "/home/user", "cd /tmp", "cd /home", "cd /root"]

def ok : Reply := ⟨"", "", 0, none⟩

def rejectedCommand : Reply :=
  ⟨"", "Rejected command: use repository-relative paths only. The current working directory is " ++
    "already the repository root inside the rollbackable sandbox; do not cd to /tmp, /home, " ++
    "/root, /tmp/heavy_swebench_*, or /home/*.", 2, some "unsafe_absolute_path"⟩

def rejectedCd : Reply :=
  ⟨"", "Rejected cd: stay inside the repository root. Use repo-relative paths; do not cd to " ++
    "/tmp or other external directories.", 2, some "cwd_escape"⟩

/-- The directory a leading `cd` is about: the second of its words, or home. -/
def cdTarget (s : State) (stripped : List Char) : String :=
  match (Shell.shlexSplit stripped).getD ((Text.words stripped).map String.ofList) with
  | _ :: target :: _ => target
  | _ => (s.env.find? "HOME").getD "/"

/-- A leading `cd`. -/
def doCd (s : State) (stripped : List Char) : State × Reply :=
  let target := cdTarget s stripped
  let target := if Posix.isabs target then target else Posix.normpath (Posix.join s.cwd target)
  if !s.isdir target then
    (s, ⟨"", "cd: no such directory: " ++ target, 1, none⟩)
  else if !s.insideRepo target then (s, rejectedCd)
  else ({ s with cwd := target, env := s.env.set "PWD" target }, ok)

/-- One word behind a leading `export`, cut by `split("=", 1)`. -/
def exportPiece (env : Dict String String) (piece : String) : Dict String String :=
  if '=' ∈ piece.toList then env.set (cutEq piece).1 (cutEq piece).2 else env

/-- A leading `export`. The splitter may raise, and `run` answers with what it says. -/
def doExport (s : State) (tail : List Char) (raised : Reply) : State × Reply :=
  match Shell.shlexSplit tail with
  | none => (s, raised)
  | some pieces => ({ s with env := pieces.foldl exportPiece s.env }, ok)

/-- Can bash be started? -/
def State.spawnable (s : State) (cmd : String) : Bool :=
  s.isdir s.cwd && noNul cmd &&
    s.env.entries.all fun e => noNul e.1 && noNul e.2 && '=' ∉ e.1.toList

/-- The reply to what came of `subprocess.run`. -/
def Outcome.reply : Outcome → Reply
  | .completed stdout stderr returncode => ⟨stdout, stderr, returncode, none⟩
  | .timeout stdout stderr seconds =>
    ⟨stdout, stderr ++ "\n[TIMEOUT after " ++ seconds ++ "s]", 124, some "timeout"⟩
  | .raised name message trace => ⟨"", trace, 1, some (name ++ ": " ++ message)⟩

def startsCd (stripped : List Char) : Bool := ['c', 'd', ' '] <+: stripped || stripped = ['c', 'd']

def startsExport (stripped : List Char) : Bool :=
  ['e', 'x', 'p', 'o', 'r', 't', ' '] <+: stripped && '=' ∈ stripped

/-- `do_bash`. What bash does to the file system is `after`. -/
def doBash (s : State) (cmd : String) (outcome : Outcome) (after : Fs) : Done :=
  let s := s.anchor
  let stripped := Text.strip cmd.toList
  if unsafeText.any (contains cmd) then ⟨s, rejectedCommand, none⟩
  else if startsCd stripped then ⟨(doCd s stripped).1, (doCd s stripped).2, none⟩
  else if startsExport stripped then
    ⟨(doExport s (stripped.drop 7) outcome.reply).1,
      (doExport s (stripped.drop 7) outcome.reply).2, none⟩
  else if s.spawnable cmd then
    ⟨{ s with fs := after }, outcome.reply, some ⟨cmd, s.cwd, s.env.set "PWD" s.cwd⟩⟩
  else ⟨s, outcome.reply, none⟩

/-- `do_set_cwd`. -/
def doSetCwd (s : State) (path : String) : State × Reply :=
  if !s.isdir path then (s, ⟨"", "no such dir: " ++ path, 1, none⟩)
  else if !s.insideRepo path then (s, ⟨"", "cwd escapes repository root", 2, some "cwd_escape"⟩)
  else ({ s with cwd := path, env := s.env.set "PWD" path }, ⟨path, "", 0, none⟩)

/-- `do_set_env`. -/
def doSetEnv (s : State) (key value : String) : State × Reply :=
  ({ s with env := s.env.set key value }, ok)

/-- What the server is asked for. -/
inductive Request where
  | bash (cmd : String) (outcome : Outcome) (after : Fs)
  /-- Python code, which moves the process and changes files. -/
  | python (dir : String) (after : Fs)
  /-- `read_file` and `write_file`, and whatever else changes files. -/
  | files (after : Fs)
  | setCwd (path : String)
  | setEnv (key value : String)

/-- `run`, for one request. -/
def step (s : State) : Request → Option State
  | .bash cmd outcome after => some (doBash s cmd outcome after).state
  | .python dir after => some { s.anchor with dir := dir, fs := after }.anchor
  | .files after => some { s with fs := after }
  | .setCwd path => some (doSetCwd s path).1
  | .setEnv key value => some (doSetEnv s key value).1

end Server

end DeltaBox
