import Mathlib.Logic.Function.Basic
import Mathlib.Order.Nat

/-!
# Objects and references to them

A heap holds objects of one type. A value of the program holds references, and two values that hold
the same reference share the object. An operation that writes only to objects that it has made
itself leaves every value that was there before it as it was. That is what `Heap.Keeps` says, and it
composes.

## Main definitions

* `Heap`, `Heap.alloc`, `Heap.write`
* `Heap.Keeps` — the objects of one heap are in another, with the same contents

## Main results

* `Heap.Keeps.alloc`, `Heap.Keeps.write` — what a step must not touch
-/

namespace DeltaBox

/-- Objects by number. The numbers from `next` on are not given out. -/
structure Heap (α : Type*) where
  cell : ℕ → α
  next : ℕ

namespace Heap

variable {α : Type*} {h h' h'' : Heap α} {n r r' : ℕ} {v : α}

/-- The heap with a new object, whose number is the old `next`. -/
def alloc (h : Heap α) (v : α) : Heap α := ⟨Function.update h.cell h.next v, h.next + 1⟩

/-- Change an object in place. -/
def write (h : Heap α) (r : ℕ) (v : α) : Heap α := ⟨Function.update h.cell r v, h.next⟩

@[simp] theorem next_alloc : (h.alloc v).next = h.next + 1 := rfl

@[simp] theorem next_write : (h.write r v).next = h.next := rfl

@[simp] theorem cell_alloc_self : (h.alloc v).cell h.next = v := by simp [alloc]

theorem cell_alloc_of_lt (hr : r < h.next) : (h.alloc v).cell r = h.cell r := by
  simp [alloc, Function.update_of_ne (Nat.ne_of_lt hr)]

@[simp] theorem cell_write_self : (h.write r v).cell r = v := by simp [write]

theorem cell_write_of_ne (hr : r' ≠ r) : (h.write r v).cell r' = h.cell r' := by
  simp [write, Function.update_of_ne hr]

/-- The objects below `n` are as they were. -/
structure Keeps (n : ℕ) (h h' : Heap α) : Prop where
  next_le : h.next ≤ h'.next
  cell : ∀ r < n, h'.cell r = h.cell r

theorem Keeps.refl (n : ℕ) (h : Heap α) : Keeps n h h := ⟨Nat.le_refl _, fun _ _ => rfl⟩

theorem Keeps.trans (h₁ : Keeps n h h') (h₂ : Keeps n h' h'') : Keeps n h h'' :=
  ⟨h₁.next_le.trans h₂.next_le, fun r hr => (h₂.cell r hr).trans (h₁.cell r hr)⟩

/-- Making an object touches no other. -/
theorem Keeps.alloc (hn : n ≤ h.next) (v : α) : Keeps n h (h.alloc v) :=
  ⟨Nat.le_succ _, fun _ hr => cell_alloc_of_lt (hr.trans_le hn)⟩

/-- Writing to a newer object touches no older one. -/
theorem Keeps.write (hr : n ≤ r) (v : α) : Keeps n h (h.write r v) :=
  ⟨Nat.le_refl _, fun _ hlt => cell_write_of_ne (Nat.ne_of_lt (hlt.trans_le hr))⟩

end Heap

end DeltaBox
