import TypedTree.Ty.Printer

/-!
# Constraints

A `Constraint` relates types that the solver has to reconcile, and a
`GenericEnvironment` holds the constraints that a generic declaration states of its
parameters. `conformancesOf` and `equivalencesOf` read such an environment for one
type.
-/

namespace TypedTree

/-- What the solver requires of types. -/
inductive Constraint where
  | equality (lhs rhs : TypeId)
  | subtyping (subtype supertype : TypeId)
  | conformance (subject : TypeId) (traits : TraitSet)

def Constraint.display (p : TypePool) (a : Arena) (names : NameTable) :
    Constraint → Except Fault String
  | .equality lhs rhs => do
    let left ← p.display a names lhs
    return left ++ " == " ++ (← p.display a names rhs)
  | .subtyping sub super => do
    let left ← p.display a names sub
    return left ++ " <: " ++ (← p.display a names super)
  | .conformance subject traits => do
    let left ← p.display a names subject
    return left ++ ": " ++ (← p.displayTraits a names traits)

structure LocatedConstraint where
  constraint : Constraint
  /-- The node whose checking required the constraint. -/
  site : Option NodeId
  span : Span

/-- What a generic declaration states of its parameters. -/
inductive GenericConstraint where
  | conformance (subject : TypeId) (traits : TraitSet)
  | equality (lhs rhs : TypeId)

/-- The parameters and constraints of a generic declaration, with those of the
generic scopes around it. -/
structure GenericEnvironment where
  decl : DeclId
  parameters : List (IdentOf .genericParameterDecl)
  constraints : List GenericConstraint

namespace GenericConstraint

def conformanceOf (t : TypeId) : GenericConstraint → TraitSet
  | .conformance subject traits => if subject = t then traits else ∅
  | .equality _ _ => ∅

/-- The type that a constraint equates with `t`. Where both sides are `t`, so is
the answer. -/
def equivalentOf? (t : TypeId) : GenericConstraint → Option TypeId
  | .equality lhs rhs => if lhs = t then some rhs else if rhs = t then some lhs else none
  | .conformance _ _ => none

end GenericConstraint

namespace GenericEnvironment

def conformancesOf (e : GenericEnvironment) (t : TypeId) : TraitSet :=
  e.constraints.foldl (fun traits c => traits.union (c.conformanceOf t)) ∅

/-- The types that `t` is stated to be equal to, one for each constraint that says
so. -/
def equivalencesOf (e : GenericEnvironment) (t : TypeId) : List TypeId :=
  e.constraints.filterMap (GenericConstraint.equivalentOf? t)

def isEmpty (e : GenericEnvironment) : Bool := e.parameters.isEmpty && e.constraints.isEmpty

end GenericEnvironment

end TypedTree
