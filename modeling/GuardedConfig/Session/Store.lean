/-!
# Stores of cells

A store holds the objects of one kind that live in a session, each in a cell of its own. A
reference names a cell. A cell that was never made reads as the default object, and writing to it
does nothing.

Results:
* `read_of_lt`: a cell that was made is read as it is.
* `read_write_self`, `read_write_of_ne`, `write_of_le`: a write changes one cell, if it was made.
* `read_add_self`, `read_add_of_lt`: a new cell holds what it was made with, and the others what
  they held before.
-/

namespace GuardedConfig

/-- The name of a cell in a store of objects of type `α`. -/
structure Ref (α : Type) where
  index : Nat
  deriving DecidableEq, Inhabited

/-- The objects of one kind. -/
structure Store (α : Type) where
  cells : List α

namespace Store

variable {α : Type}

/-- The store without cells. -/
def empty : Store α := ⟨[]⟩

/-- What a cell holds. -/
def read [Inhabited α] (s : Store α) (r : Ref α) : α :=
  s.cells[r.index]?.getD default

/-- The store with a cell overwritten. -/
def write (s : Store α) (r : Ref α) (a : α) : Store α :=
  ⟨s.cells.set r.index a⟩

/-- The name of the next cell to be made. -/
def next (s : Store α) : Ref α :=
  ⟨s.cells.length⟩

/-- The store with one more cell. -/
def add (s : Store α) (a : α) : Store α :=
  ⟨s.cells ++ [a]⟩

theorem read_of_lt [Inhabited α] {s : Store α} {r : Ref α} (h : r.index < s.cells.length) :
    s.read r = s.cells[r.index] := by
  simp [read, h]

theorem read_write_self [Inhabited α] {s : Store α} {r : Ref α} (h : r.index < s.cells.length)
    (a : α) : (s.write r a).read r = a := by
  simp [read, write, h]

theorem read_write_of_ne [Inhabited α] {r q : Ref α} (h : q ≠ r) (s : Store α) (a : α) :
    (s.write r a).read q = s.read q := by
  have hi : r.index ≠ q.index := fun e => h (by cases q; cases r; simp_all)
  simp [read, write, List.getElem?_set_ne hi]

/-- A write to a cell that was never made does nothing. -/
theorem write_of_le {s : Store α} {r : Ref α} (h : s.cells.length ≤ r.index) (a : α) :
    s.write r a = s :=
  congrArg mk (List.set_eq_of_length_le h)

theorem read_add_self [Inhabited α] (s : Store α) (a : α) : (s.add a).read s.next = a := by
  simp [read, add, next]

theorem read_add_of_lt [Inhabited α] {s : Store α} {r : Ref α} (h : r.index < s.cells.length)
    (a : α) : (s.add a).read r = s.read r := by
  simp [read, add, List.getElem?_append_left h]

end Store

end GuardedConfig
