import DeltaBox.Lib.Numerals

/-!
# Tearing down a session

The agent is the leader of a session. Before it is restored everything in the session is killed:
`kill_session_tree` and `wait_session_empty` (`gsd/namespace_launcher.py`) signal the process group of
the leader and then what `find_session_pids` finds, and `AdaptiveCRIUController.restore`
(`gsd/adaptive_checkpoint.py`) has the same scan written out.

The scan reads `/proc/<pid>/stat`, cuts the line at blanks and takes the word with the index 5. The
line has the name of the command in parentheses, and the name may be anything.

The table of processes is another one whenever it is read.
-/

namespace DeltaBox

namespace Session

open Text

/-! ### Processes -/

/-- A process, as far as its line tells. -/
structure Process where
  pid : ℕ
  /-- The name of the command. -/
  comm : List Char
  state : Char
  ppid : ℕ
  pgrp : ℕ
  session : ℕ
  /-- The other fields. -/
  more : List (List Char)
  letter : state.isAlpha = true

/-- The processes at one moment. -/
structure Table where
  procs : List Process
  nodup : (procs.map (·.pid)).Nodup

/-- The line of `/proc/<pid>/stat`. -/
def Process.stat (p : Process) : List Char :=
  Nat.toDigits 10 p.pid ++ ' ' :: ('(' :: (p.comm ++ [')']) ++ ' ' :: (p.state :: ' ' ::
    (Nat.toDigits 10 p.ppid ++ ' ' :: (Nat.toDigits 10 p.pgrp ++ ' ' ::
      (Nat.toDigits 10 p.session ++ ' ' :: ([' '].intercalate p.more ++ ['\n']))))))

/-! ### The source -/

variable (digits : Digits)

/-- Whether `find_session_pids` takes the process. A word that is no integer is passed over. -/
def matchesSid (sid : ℕ) (p : Process) : Bool :=
  let stat := words p.stat
  if 5 < stat.length then (stat[5]?.bind (int digits)) = some (sid : ℤ) else false

/-- `find_session_pids`. -/
def findSessionPids (sid : ℕ) (t : Table) : List ℕ :=
  (t.procs.filter (matchesSid digits sid)).map (·.pid)

/-- `os.killpg(os.getpgid(root), SIGKILL)`: the processes that are signalled. If there is no root,
nothing is. -/
def killGroup (root : ℕ) (t : Table) : List ℕ :=
  match t.procs.find? (·.pid = root) with
  | none => []
  | some r => (t.procs.filter (·.pgrp = r.pgrp)).map (·.pid)

/-- `kill_session_tree`: what is signalled in the first table, and what the scan signals in the
second. -/
def killSessionTree (root : ℕ) (before t : Table) : List ℕ × List ℕ :=
  (killGroup root before, findSessionPids digits root t)

/-- `wait_session_empty`: what the rounds signal, and whether it returns before its time is over. There
is a table for every round that there is time for. -/
def waitSessionEmpty (sid : ℕ) : List Table → List (List ℕ) × Bool
  | [] => ([], false)
  | t :: ts =>
    if findSessionPids digits sid t = [] then ([], true)
    else (findSessionPids digits sid t :: (waitSessionEmpty sid ts).1, (waitSessionEmpty sid ts).2)

/-- The scan in `restore`. An index that is too large is an error that is passed over. -/
def restoreScan (sid : ℕ) (t : Table) : List ℕ :=
  t.procs.filterMap fun p =>
    match (words p.stat)[5]? with
    | none => none
    | some word => if int digits word = some (sid : ℤ) then some p.pid else none

/-- The loop in `restore`, which sets `found` for every process that it takes. -/
def restoreWait (sid : ℕ) : List Table → List (List ℕ) × Bool
  | [] => ([], false)
  | t :: ts =>
    let found := !(restoreScan digits sid t).isEmpty
    if found = false then ([], true)
    else (restoreScan digits sid t :: (restoreWait sid ts).1, (restoreWait sid ts).2)

/-- The session kill of `restore`: the group, the scan, and the rounds. -/
def restoreKill (root : ℕ) (before t : Table) (ts : List Table) :
    (List ℕ × List ℕ) × (List (List ℕ) × Bool) :=
  ((killGroup root before, restoreScan digits root t), restoreWait digits root ts)

end Session

end DeltaBox
