import DeltaBox.Lib.Layer
import Mathlib.Logic.Function.Basic
import Mathlib.Order.Basic

/-!
# Named directories, and a union mount over them

A mount holds on to directories, not to their names. Renaming the directory a mount writes to
therefore leaves the mount working on the same directory under its new name, while the old name
stops resolving. Both facts matter to a caller that keeps names in a table and passes them back
later, so names and directories are separate here: `Disk.names` maps a path to a directory number
and `Disk.content` gives the directory its contents.

## Main definitions

* `Disk`, `Disk.mkdirs`, `Disk.rename` — the directory operations
* `Disk.resolve` — the directories a list of paths names
* `Mount` — an upper directory over an ordered list of lower ones
* `Disk.through` — what a list of paths shows when it is read as a stack of layers

## Main results

* `Disk.resolve_congr` — resolving depends only on the names in the list
* `Disk.resolve_lt` — a resolved directory is an allocated one
-/

namespace DeltaBox

/-- A set of directories with their names. -/
structure Disk (P C : Type*) where
  /-- The directory a path names. -/
  names : String → Option ℕ
  /-- The contents of each directory. -/
  content : ℕ → Layer P C
  /-- The number the next directory gets. -/
  next : ℕ
  /-- Only allocated directories have names. -/
  named_lt : ∀ n i, names n = some i → i < next

/-- An upper directory over an ordered list of lower directories. -/
structure Mount where
  /-- The directory that is written. -/
  upper : ℕ
  /-- The directories read below it, topmost first. -/
  lowers : List ℕ

namespace Disk

variable {P C : Type*}

/-- `os.makedirs(n, exist_ok=True)`. -/
def mkdirs (d : Disk P C) (n : String) : Disk P C :=
  match h : d.names n with
  | some _ => d
  | none =>
    { names := Function.update d.names n (some d.next)
      content := Function.update d.content d.next Layer.empty
      next := d.next + 1
      named_lt := by
        intro m i hm
        rcases eq_or_ne m n with rfl | hne
        · simp only [Function.update_self, Option.some.injEq] at hm
          omega
        · rw [Function.update_of_ne hne] at hm
          have := d.named_lt m i hm
          omega }

/-- `os.rename(a, b)` on directories. It fails when `a` does not exist or `b` is a directory with
something in it. -/
def rename (d : Disk P C) (a b : String) : Option (Disk P C) :=
  match h : d.names a with
  | none => none
  | some i =>
    if (d.names b).elim false fun j => (d.content j).isDirty then none
    else some
      { d with
        names := Function.update (Function.update d.names a none) b (some i)
        named_lt := by
          intro m j hm
          rcases eq_or_ne m b with rfl | hb
          · simp only [Function.update_self, Option.some.injEq] at hm
            exact hm ▸ d.named_lt a i h
          · rw [Function.update_of_ne hb] at hm
            rcases eq_or_ne m a with rfl | ha
            · simp at hm
            · rw [Function.update_of_ne ha] at hm
              exact d.named_lt m j hm }

/-- `mount --bind a b`: from now on `b` names the directory `a` does. -/
def bindMount (d : Disk P C) (a b : String) : Disk P C :=
  { d with
    names := Function.update d.names b (d.names a)
    named_lt := by
      intro m i hm
      rcases eq_or_ne m b with rfl | hb
      · rw [Function.update_self] at hm
        exact d.named_lt a i hm
      · rw [Function.update_of_ne hb] at hm
        exact d.named_lt m i hm }

/-- Replace the contents of one directory. -/
def put (d : Disk P C) (i : ℕ) (l : Layer P C) : Disk P C :=
  { d with content := Function.update d.content i l }

/-- The directories a list of paths names, if every path resolves. -/
def resolve (d : Disk P C) : List String → Option (List ℕ)
  | [] => some []
  | n :: ns => (d.names n).bind fun i => (resolve d ns).map (i :: ·)

/-! ### What the operations do to names and contents -/

theorem mkdirs_of_some {d : Disk P C} {n : String} {i : ℕ} (h : d.names n = some i) :
    d.mkdirs n = d := by
  rw [mkdirs]
  split
  · rfl
  · simp_all

theorem names_mkdirs_of_none {d : Disk P C} {n : String} (h : d.names n = none) :
    (d.mkdirs n).names = Function.update d.names n (some d.next) := by
  rw [mkdirs]
  split
  · simp_all
  · rfl

theorem content_mkdirs_of_none {d : Disk P C} {n : String} (h : d.names n = none) :
    (d.mkdirs n).content = Function.update d.content d.next Layer.empty := by
  rw [mkdirs]
  split
  · simp_all
  · rfl

theorem next_mkdirs_of_none {d : Disk P C} {n : String} (h : d.names n = none) :
    (d.mkdirs n).next = d.next + 1 := by
  rw [mkdirs]
  split
  · simp_all
  · rfl

theorem next_le_mkdirs (d : Disk P C) (n : String) : d.next ≤ (d.mkdirs n).next := by
  rcases h : d.names n with _ | i
  · rw [next_mkdirs_of_none h]
    omega
  · simp [mkdirs_of_some h]

/-- Making a directory changes no existing name. -/
theorem names_mkdirs_of_ne {d : Disk P C} {n m : String} (h : m ≠ n) :
    (d.mkdirs n).names m = d.names m := by
  rcases hn : d.names n with _ | i
  · rw [names_mkdirs_of_none hn, Function.update_of_ne h]
  · rw [mkdirs_of_some hn]

/-- Making a directory changes no existing directory. -/
theorem content_mkdirs_of_lt {d : Disk P C} {n : String} {i : ℕ} (h : i < d.next) :
    (d.mkdirs n).content i = d.content i := by
  rcases hn : d.names n with _ | j
  · rw [content_mkdirs_of_none hn, Function.update_of_ne (by omega)]
  · rw [mkdirs_of_some hn]

theorem rename_eq_some {d d' : Disk P C} {a b : String} (h : d.rename a b = some d') :
    ∃ i, d.names a = some i ∧
      d'.names = Function.update (Function.update d.names a none) b (some i) ∧
      d'.content = d.content ∧ d'.next = d.next := by
  rw [rename] at h
  split at h
  · cases h
  · rename_i i hi
    split at h
    · cases h
    · simp only [Option.some.injEq] at h
      subst h
      exact ⟨i, hi, rfl, rfl, rfl⟩

/-- Renaming an existing directory to an unused path succeeds. -/
theorem rename_of_unused {d : Disk P C} {a b : String} {i : ℕ} (ha : d.names a = some i)
    (hb : d.names b = none) : ∃ d', d.rename a b = some d' := by
  rw [rename]
  split
  · simp_all
  · simp [hb]

@[simp] theorem put_names (d : Disk P C) (i : ℕ) (l : Layer P C) : (d.put i l).names = d.names :=
  rfl

@[simp] theorem put_content (d : Disk P C) (i : ℕ) (l : Layer P C) :
    (d.put i l).content = Function.update d.content i l := rfl

@[simp] theorem put_next (d : Disk P C) (i : ℕ) (l : Layer P C) : (d.put i l).next = d.next := rfl

/-! ### Resolving a list of paths -/

@[simp] theorem resolve_nil (d : Disk P C) : d.resolve [] = some [] := rfl

theorem resolve_cons {d : Disk P C} {n : String} {ns : List String} {is : List ℕ} :
    d.resolve (n :: ns) = some is ↔
      ∃ i js, d.names n = some i ∧ d.resolve ns = some js ∧ is = i :: js := by
  simp only [resolve, Option.bind_eq_some_iff, Option.map_eq_some_iff]
  constructor
  · rintro ⟨i, hi, js, hjs, rfl⟩
    exact ⟨i, js, hi, hjs, rfl⟩
  · rintro ⟨i, js, hi, hjs, rfl⟩
    exact ⟨i, hi, js, hjs, rfl⟩

/-- Resolving depends only on the names in the list. -/
theorem resolve_congr {d e : Disk P C} : ∀ {ns : List String},
    (∀ n ∈ ns, e.names n = d.names n) → e.resolve ns = d.resolve ns := by
  intro ns
  induction ns with
  | nil => intro _; rfl
  | cons n ns ih =>
    intro h
    rw [resolve, resolve, h n (List.mem_cons_self ..),
      ih fun m hm => h m (List.mem_cons_of_mem _ hm)]

@[simp] theorem resolve_put (d : Disk P C) (i : ℕ) (l : Layer P C) (ns : List String) :
    (d.put i l).resolve ns = d.resolve ns := resolve_congr fun _ _ => rfl

/-- A list that resolves still does when its names keep their meaning. -/
theorem resolve_mono {d e : Disk P C} : ∀ {ns : List String} {is : List ℕ},
    (∀ n ∈ ns, ∀ i, d.names n = some i → e.names n = some i) → d.resolve ns = some is →
      e.resolve ns = some is := by
  intro ns
  induction ns with
  | nil => intro is _ h; exact h
  | cons n ns ih =>
    intro is hkeep h
    obtain ⟨i, js, hi, hjs, rfl⟩ := resolve_cons.mp h
    refine resolve_cons.mpr ⟨i, js, hkeep n (List.mem_cons_self ..) i hi, ?_, rfl⟩
    exact ih (fun m hm => hkeep m (List.mem_cons_of_mem _ hm)) hjs

theorem names_of_resolve {d : Disk P C} : ∀ {ns : List String} {is : List ℕ},
    d.resolve ns = some is → ∀ n ∈ ns, ∃ i ∈ is, d.names n = some i := by
  intro ns
  induction ns with
  | nil => intro is _ n hn; simp at hn
  | cons m ns ih =>
    intro is h n hn
    obtain ⟨i, js, hi, hjs, rfl⟩ := resolve_cons.mp h
    rcases List.mem_cons.mp hn with rfl | hn
    · exact ⟨i, List.mem_cons_self .., hi⟩
    · obtain ⟨j, hj, hnj⟩ := ih hjs n hn
      exact ⟨j, List.mem_cons_of_mem _ hj, hnj⟩

theorem mem_of_resolve {d : Disk P C} : ∀ {ns : List String} {is : List ℕ},
    d.resolve ns = some is → ∀ i ∈ is, ∃ n ∈ ns, d.names n = some i := by
  intro ns
  induction ns with
  | nil => intro is h i hi; simp_all
  | cons m ns ih =>
    intro is h i hi
    obtain ⟨j, js, hj, hjs, rfl⟩ := resolve_cons.mp h
    rcases List.mem_cons.mp hi with rfl | hi
    · exact ⟨m, List.mem_cons_self .., hj⟩
    · obtain ⟨n, hn, hni⟩ := ih hjs i hi
      exact ⟨n, List.mem_cons_of_mem _ hn, hni⟩

/-- A resolved directory is an allocated one. -/
theorem resolve_lt {d : Disk P C} {ns : List String} {is : List ℕ} (h : d.resolve ns = some is) :
    ∀ i ∈ is, i < d.next := by
  intro i hi
  obtain ⟨n, -, hn⟩ := mem_of_resolve h i hi
  exact d.named_lt n i hn

/-! ### Reading through a list of paths -/

variable [DecidableEq P]

/-- What the stack of the given directories shows. -/
def view (d : Disk P C) (is : List ℕ) : View P C := lookup (is.map d.content)

/-- What a process inside the mount sees. -/
def visible (d : Disk P C) (m : Mount) : View P C := d.view (m.upper :: m.lowers)

/-- What a list of paths shows when it is read as a stack of layers, if every path resolves. -/
def through (d : Disk P C) (ns : List String) : Option (View P C) := (d.resolve ns).map d.view

theorem view_congr {d e : Disk P C} {is : List ℕ} (h : ∀ i ∈ is, e.content i = d.content i) :
    e.view is = d.view is := by
  rw [view, view, List.map_congr_left h]

theorem view_cons (d : Disk P C) (i : ℕ) (is : List ℕ) :
    d.view (i :: is) = lookup (d.content i :: is.map d.content) := rfl

/-- Nothing of a stack depends on a directory outside it. -/
theorem view_put_of_notMem {d : Disk P C} {i : ℕ} {is : List ℕ} (h : i ∉ is) (l : Layer P C) :
    (d.put i l).view is = d.view is := by
  refine view_congr fun j hj => ?_
  have hne : j ≠ i := fun hji => h (hji ▸ hj)
  rw [put_content, Function.update_of_ne hne]

/-- What a process inside the mount sees once the upper has other contents. -/
theorem visible_put {d : Disk P C} {m : Mount} (h : m.upper ∉ m.lowers) (l : Layer P C) :
    (d.put m.upper l).visible m = lookup (l :: m.lowers.map d.content) := by
  have hbelow : ∀ i ∈ m.lowers, (d.put m.upper l).content i = d.content i := by
    intro i hi
    have hne : i ≠ m.upper := fun heq => h (heq ▸ hi)
    rw [put_content, Function.update_of_ne hne]
  rw [visible, view_cons, List.map_congr_left hbelow, put_content, Function.update_self]

/-- A write to the upper, as a process inside the mount sees it. -/
theorem visible_write {d : Disk P C} {m : Mount} (h : m.upper ∉ m.lowers) (ds : List P) (p : P)
    (c : C) (q : P) : (d.put m.upper ((d.content m.upper).write ds p c)).visible m q =
      if q = p then some c else d.visible m q := by
  rw [visible_put h, lookup_write_cons, visible, view_cons]

/-- A removal. -/
theorem visible_remove {d : Disk P C} {m : Mount} (h : m.upper ∉ m.lowers) (ds : List P) (p : P)
    (q : P) :
    (d.put m.upper ((d.content m.upper).remove (m.lowers.map d.content) ds p)).visible m q =
      if q = p then none else d.visible m q := by
  rw [visible_put h, lookup_remove_cons, visible, view_cons]

end Disk

end DeltaBox
