import DeltaBox.Lib.Posix
import DeltaBox.Patch.Paths

/-!
# Cleaning a patch

Three functions go over the text of a patch before it is scored: `clean` of `clean_patch.py`, and
`_filter_patch_paths` and `_normalize_no_index_diff` of `AgentMCTS`. The first two gather the lines
into sections, look at the line that opens a section, and drop the section or put it out; the third
goes from line to line. The first and the third also rewrite the paths of the header lines, which
they know by their beginning alone.

## Main definitions

* `Patch.clean`, `Patch.filterPatchPaths`, `Patch.normalizeNoIndexDiff` — the three functions
* `Patch.cleanPass`, `Patch.filterPass`, `Patch.noIndexPass` — what each is to keep
-/

namespace DeltaBox

namespace Patch

open Text OverList

def oldHead : Line := ['-', '-', '-', ' ']

def newHead : Line := ['+', '+', '+', ' ']

def binaryHead : Line := "Binary files ".toList

/-- `f"diff --git a/{a} b/{b}"`. -/
def firstLine (a b : Line) : Line := diffGit ++ (oldMark ++ a ++ ' ' :: (newMark ++ b))

/-- The two paths of a line that opens a section: its third and fourth word. -/
def parts (first : Line) : Option (Line × Line) :=
  match words first with
  | _ :: _ :: x :: y :: _ => some (x, y)
  | _ => none

/-! ### Which files are exported -/

def skipParts : List Line :=
  ["/.git/", ".git/", "__pycache__/", ".pyc", ".pyo", ".pytest_cache/", ".mypy_cache/",
    ".hypothesis/", ".tox/", ".nox/", ".coverage", "htmlcov/"].map String.toList

def keepExt : List Line :=
  [".py", ".pyx", ".pxd", ".pyi", ".txt", ".rst", ".md", ".cfg", ".ini", ".toml", ".yaml", ".yml",
    ".json"].map String.toList

def tempNames : List Line :=
  ["test_fix.py", "test_specific_issue.py", "test_repro.py", "debug.py", "debug_issue.py",
    "repro.py", "scratch.py"].map String.toList

/-- The tests that both filters make of a path and its last component. Letters outside ASCII do not
matter: none of them has a small letter of the names that are looked for. -/
def isScratch (names : List Line) (base path : Line) : Bool :=
  let lower := base.map Char.toLower
  base ∈ names ||
    ["test_", "debug", "repro", "scratch"].any (fun pre => pre.toList <+: lower) ||
    ["_debug.py", "_repro.py", "_scratch.py"].any (fun suf => suf.toList <:+ lower) ||
    "/tests/".toList <:+: path || "tests/".toList <+: path

/-- `Path(path).name`. -/
def pathName (path : Line) : Line :=
  ((path.splitOn '/').filter fun c => c ≠ [] ∧ c ≠ ['.']).getLast?.getD []

/-- `os.path.basename`. -/
def basename (path : Line) : Line := (path.splitOn '/').getLast?.getD []

/-! ### `clean_patch.clean` -/

/-- The checks on the path of a section. -/
def keepsPath (path : Line) : Bool :=
  !(skipParts.any fun s => s <:+: path) && !isScratch tempNames (pathName path) path &&
    keepExt.any fun ext => ext <:+ path

/-- A path behind its mark, unless it is `/dev/null`. -/
def marked (mark p : Line) : Line := if p = devNull then p else mark ++ p

/-- A line of a section that is put out, other than the first. -/
def retouchLine (line : Line) : Option Line :=
  if oldHead <+: line then some (oldHead ++ marked oldMark (normPath (line.drop 4)))
  else if newHead <+: line then some (newHead ++ marked newMark (normPath (line.drop 4)))
  else if binaryHead <+: line then none
  else some line

/-- The loop over the lines of a section that is put out. -/
def cleanLine (a b line : Line) : Option Line :=
  if diffGit <+: line then some (firstLine a b) else retouchLine line

/-- The path a section is judged by. -/
def sectionPath (a b : Line) : Line := if b ≠ devNull then b else a

/-- The loop over the sections. -/
def cleanSection (h : List Line) : List Line :=
  match h with
  | [] => []
  | first :: _ =>
    match parts first with
    | none => []
    | some (x, y) =>
      if keepsPath (sectionPath (normPath x) (normPath y)) then
        h.filterMap (cleanLine (normPath x) (normPath y))
      else []

/-- `clean_patch.clean`. -/
def clean (diff : List Char) : List Char :=
  joined ((sections (splitlines diff)).flatMap cleanSection)

/-! ### `AgentMCTS._filter_patch_paths` -/

def taskSpec : Line := ".task_spec.json".toList

/-- `path_from_header`. -/
def pathFromHeader (header : Line) : Line :=
  match parts header with
  | none => header
  | some (x, y) =>
    let path := if y = devNull then x else y
    if oldMark <+: path ∨ newMark <+: path then path.drop 2 else path

/-- The checks on the path of a section. -/
def filterKeeps (first : Line) : Bool :=
  let path := pathFromHeader first
  !(skipParts.any fun s => s <:+: path) && !(['.'] <+: path || path = taskSpec) &&
    !isScratch (tempNames ++ [taskSpec]) (basename path) path && keepExt.any fun ext => ext <:+ path

/-- The loop over the sections. -/
def filterSection (h : List Line) : List Line :=
  match h with
  | [] => []
  | first :: _ => if filterKeeps first then h else []

/-- `AgentMCTS._filter_patch_paths`. -/
def filterPatchPaths (diff : List Char) : List Char :=
  joined ((sections (splitlines diff)).flatMap filterSection)

/-! ### `AgentMCTS._normalize_no_index_diff` -/

/-- `os.path.abspath(p).rstrip("/")`. -/
def compared (cwd p : String) : Line :=
  ((Posix.abspath cwd p).toList.reverse.dropWhile (· = '/')).reverse

/-- The paths written into the line that opens a section. A side that is `/dev/null` takes the path
of the other one. -/
def noIndexParts (base merged x y : Line) : Line × Line :=
  let a := noIndexPath base x
  let b := noIndexPath merged y
  let a := if a = devNull then b else a
  let b := if b = devNull then a else b
  (a, b)

/-- The path written into one of the two header lines. -/
def noIndexMarked (mark dir p : Line) : Line :=
  if p = devNull then p else mark ++ noIndexPath dir p

/-- A line that opens no section. -/
def noIndexHeader (base merged line : Line) : Line :=
  if oldHead <+: line then oldHead ++ noIndexMarked oldMark base (line.drop 4)
  else if newHead <+: line then newHead ++ noIndexMarked newMark merged (line.drop 4)
  else line

/-- The loop over the lines. -/
def noIndexLine (base merged line : Line) : Line :=
  if diffGit <+: line then
    match parts line with
    | some (x, y) =>
      firstLine (noIndexParts base merged x y).1 (noIndexParts base merged x y).2
    | none => noIndexHeader base merged line
  else noIndexHeader base merged line

/-- `AgentMCTS._normalize_no_index_diff`. -/
def normalizeNoIndexDiff (cwd base merged : String) (diff : List Char) : List Char :=
  joined ((splitlines diff).map (noIndexLine (compared cwd base) (compared cwd merged)))

/-! ### What is written has no line break -/

theorem normPath_subset (p : Line) : normPath p ⊆ p := fun _ hc =>
  (List.dropWhile_suffix _).subset ((rstrip_isPrefix _).subset ((normPath_suffix p).subset hc))

theorem noIndexPath_subset (dir p : Line) : noIndexPath dir p ⊆ p := fun _ hc =>
  (rstrip_isPrefix _).subset ((noIndexPath_suffix dir p).subset hc)

theorem of_parts {first x y : Line} (h : parts first = some (x, y)) :
    (x ∈ words first ∧ y ∈ words first) := by
  unfold parts at h
  split at h
  next hwords =>
    obtain ⟨rfl, rfl⟩ := Prod.mk.inj (Option.some.inj h)
    simp [hwords]
  next => cases h

theorem noBreak_firstLine {a b : Line} (ha : NoBreak a) (hb : NoBreak b) :
    NoBreak (firstLine a b) := by
  have hgit : NoBreak diffGit := by decide
  have hold : NoBreak oldMark := by decide
  have hnew : NoBreak (' ' :: newMark) := by decide
  exact hgit.append ((hold.append ha).append (hnew.append hb))

theorem notSpace_marks {p : Line} (h : ∀ c ∈ p, isSpace c = false) :
    (∀ c ∈ oldMark ++ p, isSpace c = false) ∧ ∀ c ∈ newMark ++ p, isSpace c = false := by
  have hmarks : ∀ c ∈ oldMark ++ newMark, isSpace c = false := by decide
  constructor
  · intro c hc
    rcases List.mem_append.mp hc with hc | hc
    · exact hmarks c (List.mem_append_left _ hc)
    · exact h c hc
  · intro c hc
    rcases List.mem_append.mp hc with hc | hc
    · exact hmarks c (List.mem_append_right _ hc)
    · exact h c hc

/-- A line that opens a section, as it is written, is read back with its two paths. -/
theorem parts_firstLine {a b : Line} (ha : ∀ c ∈ a, isSpace c = false)
    (hb : ∀ c ∈ b, isSpace c = false) :
    parts (firstLine a b) = some (oldMark ++ a, newMark ++ b) := by
  have hwords : words (firstLine a b) =
      ["diff".toList, "--git".toList, oldMark ++ a, newMark ++ b] := by
    have hgit : diffGit = "diff".toList ++ ' ' :: ("--git".toList ++ [' ']) := rfl
    rw [firstLine, hgit, List.append_assoc, List.cons_append, words_cons (by decide) (by decide),
      List.append_assoc, List.singleton_append, words_cons (by decide) (by decide),
      words_cons (by simp [oldMark]) (notSpace_marks ha).1,
      words_singleton (by simp [newMark]) (notSpace_marks hb).2]
  rw [parts, hwords]

end Patch

end DeltaBox
