/-!
# Words

Kinds, effects and the like are small finite types whose members go by words. A
`Worded` type lists its members and their words, and `Worded.ofWord?` reads a word
back. No two members share a word (`word_injective`).
-/

namespace TypedTree

/-- A finite type whose members are told apart by their words. -/
class Worded (α : Type) where
  /-- Every member, in the order of declaration. -/
  all : List α
  word : α → String
  /-- Looking a word up among all members finds the one that it names. -/
  find?_word (a : α) : all.find? (fun b => word b == word a) = some a

namespace Worded

variable {α : Type} [Worded α]

def ofWord? (w : String) : Option α := all.find? fun a => word a == w

@[simp] theorem ofWord?_word (a : α) : ofWord? (word a) = some a := find?_word a

theorem mem_all (a : α) : a ∈ (all : List α) := List.mem_of_find?_eq_some (find?_word a)

theorem word_injective {a b : α} (h : word a = word b) : a = b := by
  have ha : ofWord? (word a) = some a := ofWord?_word a
  rw [h, ofWord?_word] at ha
  exact (Option.some.inj ha).symm

theorem word_of_ofWord? {w : String} {a : α} (h : ofWord? w = some a) : word a = w := by
  simpa using List.find?_some h

end Worded

end TypedTree
