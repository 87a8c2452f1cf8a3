/-!
# Reading from both ends

A `Cursor` runs over a sequence from its front and from its back at once. What one
end has given the other does not give again, and `length` counts what is left.
-/

namespace TypedTree

/-- The part of a sequence that neither end has given yet. -/
structure Cursor (α : Type) where
  /-- The elements left, in order. -/
  rest : List α

namespace Cursor

variable {α : Type}

def length (c : Cursor α) : Nat := c.rest.length

def next (c : Cursor α) : Option α × Cursor α := (c.rest.head?, ⟨c.rest.tail⟩)

def nextBack (c : Cursor α) : Option α × Cursor α := (c.rest.getLast?, ⟨c.rest.dropLast⟩)

@[simp] theorem length_next (c : Cursor α) : c.next.2.length = c.length - 1 := by
  simp [next, length]

@[simp] theorem length_nextBack (c : Cursor α) : c.nextBack.2.length = c.length - 1 := by
  simp [nextBack, length]

end Cursor

end TypedTree
