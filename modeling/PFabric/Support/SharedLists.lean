import Mathlib.Data.List.Basic

/-!
# Lists that are shared by reference

The lists of a program are objects on a heap, and what a variable or another list
holds is a reference.  Whoever holds a reference sees what is appended to the list
later.
-/

namespace PFabric

/-- A reference is the position of the object in the order of creation. -/
abbrev Ref := ℕ

structure Heap (α : Type*) where
  objects : List (List α)

namespace Heap

variable {α : Type*}

def empty : Heap α := ⟨[]⟩

/-- A new empty list. -/
def new (h : Heap α) : Ref × Heap α := (h.objects.length, ⟨h.objects ++ [[]]⟩)

/-- The method `append` of a list. -/
def append (h : Heap α) (ref : Ref) (x : α) : Heap α := ⟨h.objects.modify ref (· ++ [x])⟩

/-- What a reference stands for at the moment. -/
def contents (h : Heap α) (ref : Ref) : List α := h.objects.getD ref []

/-- Several appends to one list. -/
def extend (h : Heap α) (ref : Ref) (xs : List α) : Heap α := ⟨h.objects.modify ref (· ++ xs)⟩

theorem extend_nil (h : Heap α) (ref : Ref) : h.extend ref [] = h := by
  have hid : (fun l : List α => l ++ []) = id := funext List.append_nil
  rw [extend, hid, List.modify_id]

theorem append_extend (h : Heap α) (ref : Ref) (x : α) (xs : List α) :
    (h.append ref x).extend ref xs = h.extend ref (x :: xs) := by
  simp only [append, extend, List.modify_modify_eq, Heap.mk.injEq]
  congr 1
  funext l
  simp

/-- A list that is filled after its creation. -/
theorem objects_extend_new (h : Heap α) (xs : List α) :
    (h.new.2.extend h.new.1 xs).objects = h.objects ++ [xs] := by
  have hmodify : ∀ objects : List (List α),
      (objects ++ [[]]).modify objects.length (· ++ xs) = objects ++ [xs] := by
    intro objects
    induction objects with
    | nil => rfl
    | cons l objects ih => simp [ih]
  exact hmodify h.objects

end Heap
end PFabric
