import DeltaBox.Lib.Dict
import DeltaBox.Lib.Posix

/-!
# Files and their names

What a process finds on a disk: directories, and names of files. Two names may be one file, because
of a link, and then a write under the one name is a write under the other.

All paths are absolute and normalized.

## Main definitions

* `Files`, `Files.file?` — the names, and the file that a name has
* `Files.makeParents`, `Files.put` — `os.makedirs` of the directory of a file, and writing it

## Main results

* `Files.file?_put_self`, `Files.file?_put_of_ne` — a write is seen under the names of the file that
  is written, and under no others
-/

namespace DeltaBox

/-- A file. -/
structure Inode where
  bytes : List UInt8
  mtimeNs : ℤ
  deriving DecidableEq

/-- Directories and files. -/
structure Files where
  /-- The file that a path names. -/
  names : Dict String ℕ
  /-- The directories. -/
  dirs : List String
  inode : ℕ → Inode
  next : ℕ
  named_lt : ∀ p i, names.find? p = some i → i < next
  /-- A directory is not a file. -/
  apart : ∀ p ∈ dirs, names.find? p = none

namespace Files

variable {fs fs' : Files} {p q : String} {i : ℕ}

/-- The file that a path names. -/
def file? (fs : Files) (p : String) : Option Inode := (fs.names.find? p).map fs.inode

/-- The directories above a path. -/
def parents (p : String) : List String :=
  (Posix.comps p).inits.dropLast.map fun l => Posix.initialSlashes p ++ "/".intercalate l

/-- `os.makedirs(os.path.dirname(p), exist_ok=True)`. It fails when one of the directories above is
a file. -/
def makeParents (fs : Files) (p : String) : Option Files :=
  if h : ∃ q ∈ parents p, fs.names.find? q ≠ none then none
  else
    some { fs with
      dirs := fs.dirs ++ (parents p).filter (· ∉ fs.dirs)
      apart := by
        intro q hq
        rcases List.mem_append.mp hq with hq | hq
        · exact fs.apart q hq
        · by_contra hne
          exact h ⟨q, (List.mem_filter.mp hq).1, hne⟩ }

theorem named_lt_of_set (fs : Files) (p : String) :
    ∀ q i, (fs.names.set p fs.next).find? q = some i → i < fs.next + 1 := by
  intro q i hq
  rw [Dict.find?_set] at hq
  split_ifs at hq with heq
  · have := Option.some.inj hq
    omega
  · have := fs.named_lt q i hq
    omega

theorem apart_of_set {fs : Files} {p : String} (hd : p ∉ fs.dirs) (n : ℕ) :
    ∀ q ∈ fs.dirs, (fs.names.set p n).find? q = none := by
  intro q hq
  have hne : q ≠ p := fun heq => hd (heq ▸ hq)
  rw [Dict.find?_set_of_ne _ _ hne, fs.apart q hq]

/-- Write a file, as a whole. It fails for a directory. -/
def put (fs : Files) (p : String) (f : Inode) : Option Files :=
  if hd : p ∈ fs.dirs then none
  else
    match fs.names.find? p with
    | some i => some { fs with inode := Function.update fs.inode i f }
    | none =>
      some
        { names := fs.names.set p fs.next
          dirs := fs.dirs
          inode := Function.update fs.inode fs.next f
          next := fs.next + 1
          named_lt := named_lt_of_set fs p
          apart := apart_of_set hd fs.next }

/-! ### What the operations do -/

/-- The same files, and perhaps more directories. -/
structure SameFiles (fs fs' : Files) : Prop where
  names : fs'.names = fs.names
  inode : fs'.inode = fs.inode
  dirs : ∀ d ∈ fs.dirs, d ∈ fs'.dirs

theorem SameFiles.refl (fs : Files) : SameFiles fs fs := ⟨rfl, rfl, fun _ h => h⟩

theorem SameFiles.file? (h : SameFiles fs fs') (p : String) : fs'.file? p = fs.file? p := by
  rw [Files.file?, Files.file?, h.names, h.inode]

theorem sameFiles_makeParents (h : fs.makeParents p = some fs') : SameFiles fs fs' := by
  rw [makeParents] at h
  split_ifs at h
  exact Option.some.inj h ▸ ⟨rfl, rfl, fun d hd => List.mem_append_left _ hd⟩

theorem put_eq_some {f : Inode} (h : fs.put p f = some fs') :
    p ∉ fs.dirs ∧ fs'.dirs = fs.dirs ∧
      ((∃ i, fs.names.find? p = some i ∧ fs'.names = fs.names ∧
          fs'.inode = Function.update fs.inode i f) ∨
        fs.names.find? p = none ∧ fs'.names = fs.names.set p fs.next ∧
          fs'.inode = Function.update fs.inode fs.next f) := by
  rw [put] at h
  split_ifs at h with hd
  refine ⟨hd, ?_⟩
  split at h
  · rename_i i hi
    obtain rfl := Option.some.inj h
    exact ⟨rfl, .inl ⟨i, hi, rfl, rfl⟩⟩
  · rename_i hnone
    obtain rfl := Option.some.inj h
    exact ⟨rfl, .inr ⟨hnone, rfl, rfl⟩⟩

/-- **A write is seen under the name.** -/
theorem file?_put_self {f : Inode} (h : fs.put p f = some fs') : fs'.file? p = some f := by
  rw [file?]
  rcases (put_eq_some h).2.2 with ⟨i, hi, hnames, hinode⟩ | ⟨-, hnames, hinode⟩
  · rw [hnames, hinode, hi, Option.map_some, Function.update_self]
  · rw [hnames, hinode, Dict.find?_set_self, Option.map_some, Function.update_self]

/-- **It is not seen under the name of another file.** -/
theorem file?_put_of_ne {f : Inode} (h : fs.put p f = some fs') (hne : q ≠ p)
    (hother : ∀ i, fs.names.find? p = some i → fs.names.find? q ≠ some i) :
    fs'.file? q = fs.file? q := by
  rw [file?, file?]
  rcases (put_eq_some h).2.2 with ⟨i, hi, hnames, hinode⟩ | ⟨-, hnames, hinode⟩
  · rw [hnames, hinode]
    cases hj : fs.names.find? q with
    | none => rfl
    | some j =>
      have hij : j ≠ i := fun heq => hother i hi (heq ▸ hj)
      rw [Option.map_some, Option.map_some, Function.update_of_ne hij]
  · rw [hnames, hinode, Dict.find?_set_of_ne _ _ hne]
    cases hj : fs.names.find? q with
    | none => rfl
    | some j =>
      have hij : j ≠ fs.next := Nat.ne_of_lt (fs.named_lt q j hj)
      rw [Option.map_some, Option.map_some, Function.update_of_ne hij]

end Files

end DeltaBox
