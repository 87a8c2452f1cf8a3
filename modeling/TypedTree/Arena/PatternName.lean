import TypedTree.Arena.Basic
import TypedTree.Preorder

/-!
# Names in patterns

`Arena.names` lists the name patterns inside a pattern from left to right, each
with the tuple positions on the way to it. Binding patterns lie on the way
without adding a position. The stored nodes decide what a pattern is; the claimed
kind decides only where the search starts and whether an end counts as a name.
-/

namespace TypedTree

/-- A name pattern with its place inside another pattern. -/
structure PatternName where
  /-- The tuple positions that lead to the name, outermost first. -/
  path : List Nat
  /-- The pattern that introduces the name. -/
  pattern : IdentOf .namePattern
  deriving DecidableEq, Repr

/-- A pattern met on the way through another one. -/
structure PatternPart where
  /-- The tuple positions that lead to the part, innermost first. -/
  position : List Nat
  pattern : PatternId
  deriving DecidableEq, Repr

namespace Arena

/-- The parts of a pattern one level down, from left to right. -/
def partsOf (a : Arena) (p : PatternPart) : Except Fault (List PatternPart) := do
  match ← a.node p.pattern with
  | ⟨.bindingPattern, (n : BindingPattern)⟩ => return [⟨p.position, n.subpattern⟩]
  | ⟨.tuplePattern, (n : TuplePattern)⟩ =>
    return n.elements.zipIdx.map fun (e, i) => ⟨i :: p.position, e.value⟩
  | _ => return []

def nameOf? (a : Arena) (p : PatternPart) : Option PatternName :=
  if a.kindAt? p.pattern = some .namePattern then
    (p.pattern.narrow? (.only .namePattern)).map (PatternName.mk p.position.reverse)
  else none

/-- The names inside a pattern, from left to right. What claims to be no pattern
has no names. -/
def names {c : Class} (a : Arena) (id : Ident c) : Except Fault (List PatternName) :=
  match id.narrow? (.category .pattern) with
  | some p => do
    let parts ← preorder a.partsOf (fun part => .endlessWalk part.pattern.toAny) (a.size + 1)
      ⟨[], p⟩
    return parts.filterMap a.nameOf?
  | none => .ok []

end Arena

end TypedTree
