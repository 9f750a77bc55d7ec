import DeltaBox.Lib.Dict

/-!
# Union file systems: layers and lookups

A *layer* is one directory of a union mount. For each file it records either contents or a
whiteout, and it may hold directories of its own, which matter for one thing only: a layer with a
directory in it is not empty. A stack of layers is read from the top, and the first layer that has
a record for a path decides.

Only the top layer of a mount is ever written. The two writes are `Layer.write`, which covers both
creation and overwriting since either puts the whole file into the top layer, and `Layer.remove`,
which leaves a whiteout exactly when something below would otherwise show through.

## Main results

* `lookup_write_cons`, `lookup_remove_cons` — the view after a write to the top layer
* `lookup_cons_of_clean` — a layer with nothing in it is invisible
-/

namespace DeltaBox

/-- What a layer records for one file. -/
inductive Mark (C : Type*) where
  /-- The file, with its contents. -/
  | file (contents : C)
  /-- The file was deleted here. -/
  | whiteout
  deriving DecidableEq

/-- The file a mark stands for. -/
def Mark.toFile {C : Type*} : Mark C → Option C
  | .file c => some c
  | .whiteout => none

/-- One directory of a union mount, over file paths `P` and file contents `C`. -/
structure Layer (P C : Type*) where
  /-- The file records. -/
  marks : Dict P (Mark C)
  /-- The directories the layer holds besides its root. -/
  dirs : List P

/-- What a process sees: for each path its contents, or nothing. -/
abbrev View (P C : Type*) := P → Option C

namespace Layer

variable {P C : Type*}

/-- A new directory. -/
def empty : Layer P C := ⟨Dict.empty, []⟩

/-- Does walking the directory meet any file or directory? -/
def isDirty (l : Layer P C) : Bool := !(l.marks.entries.isEmpty && l.dirs.isEmpty)

@[simp] theorem isDirty_empty : (empty : Layer P C).isDirty = false := rfl

theorem eq_empty_of_clean {l : Layer P C} (h : l.isDirty = false) : l = empty := by
  obtain ⟨⟨entries, hnd⟩, dirs⟩ := l
  simp only [isDirty, Bool.not_eq_false', Bool.and_eq_true, List.isEmpty_iff] at h
  obtain ⟨rfl, rfl⟩ := h
  rfl

end Layer

section Lookup

variable {P C : Type*} [DecidableEq P]

/-- Read a path through a stack of layers, topmost first. -/
def lookup : List (Layer P C) → View P C
  | [], _ => none
  | l :: ls, p => match l.marks.find? p with
    | some m => m.toFile
    | none => lookup ls p

@[simp] theorem lookup_nil (p : P) : lookup ([] : List (Layer P C)) p = none := rfl

theorem lookup_cons (l : Layer P C) (ls : List (Layer P C)) (p : P) :
    lookup (l :: ls) p = ((l.marks.find? p).map Mark.toFile).getD (lookup ls p) := by
  rw [lookup]
  cases l.marks.find? p <;> rfl

@[simp] theorem lookup_empty_cons (ls : List (Layer P C)) :
    lookup (Layer.empty :: ls) = lookup ls := by
  funext p
  simp [lookup_cons, Layer.empty]

/-- A clean layer is invisible. -/
theorem lookup_cons_of_clean {l : Layer P C} (h : l.isDirty = false) (ls : List (Layer P C)) :
    lookup (l :: ls) = lookup ls := by
  rw [Layer.eq_empty_of_clean h, lookup_empty_cons]

/-! ### Writing to the top layer -/

/-- Create or overwrite `p`. `ds` are the directories that had to be made or copied up for it. -/
def Layer.write (ds : List P) (p : P) (c : C) (l : Layer P C) : Layer P C :=
  ⟨l.marks.set p (.file c), ds ++ l.dirs⟩

/-- Delete `p` over the lower layers `ls`. The whiteout is needed only when a lower layer still
has the file. -/
def Layer.remove (ls : List (Layer P C)) (ds : List P) (p : P) (l : Layer P C) : Layer P C :=
  if (lookup ls p).isSome then ⟨l.marks.set p .whiteout, ds ++ l.dirs⟩
  else ⟨l.marks.erase p, l.dirs⟩

theorem lookup_write_cons (ds : List P) (p : P) (c : C) (l : Layer P C) (ls : List (Layer P C))
    (q : P) : lookup (l.write ds p c :: ls) q = if q = p then some c else lookup (l :: ls) q := by
  rw [lookup_cons, lookup_cons, Layer.write, Dict.find?_set]
  split_ifs <;> rfl

theorem lookup_remove_cons (ds : List P) (p : P) (l : Layer P C) (ls : List (Layer P C)) (q : P) :
    lookup (l.remove ls ds p :: ls) q = if q = p then none else lookup (l :: ls) q := by
  rw [lookup_cons, lookup_cons, Layer.remove]
  by_cases hq : q = p
  · subst hq
    by_cases hls : (lookup ls q).isSome
    · simp [hls, Mark.toFile]
    · have hnone : lookup ls q = none := by simpa using hls
      simp [hnone]
  · by_cases hls : (lookup ls p).isSome
    · simp [hls, hq, Dict.find?_set]
    · simp [hls, hq, Dict.find?_erase]

end Lookup

end DeltaBox
