import TypedTree.Diagnostic
import TypedTree.Ty.Constraint

/-!
# Type errors

A `TypeError` is what went wrong together with the constraint that exposed it.
Errors in the program being compiled and defects of the compiler are kept apart by
their category and their code. `TypeError.diagnostic` explains an error.
-/

namespace TypedTree

/-- Who is at fault. -/
inductive ErrorCategory where
  /-- The program being compiled. -/
  | source
  /-- The compiler. -/
  | internal
  deriving DecidableEq, Repr

instance : Worded ErrorCategory where
  all := [.source, .internal]
  word
    | .source => "Source"
    | .internal => "Internal"
  find?_word c := by cases c <;> decide

/-- What went wrong. -/
inductive TypeErrorKind where
  /-- The type does not conform to the traits in the scope. -/
  | doesNotConform (ty : TypeId) (traits : TraitSet) (scope : NodeId)
  /-- The constraint went stale before it could be solved. -/
  | staleConstraint

namespace TypeErrorKind

def category : TypeErrorKind → ErrorCategory
  | .doesNotConform .. => .source
  | .staleConstraint => .internal

def code : TypeErrorKind → ErrorCode
  | .doesNotConform .. => .e2009
  | .staleConstraint => .e9002

end TypeErrorKind

structure TypeError where
  kind : TypeErrorKind
  /-- The constraint that exposed the error. -/
  cause : LocatedConstraint

namespace TypeError

def category (e : TypeError) : ErrorCategory := e.kind.category

/-- The span of a scope that is worth showing beside `cause`: the scope is a node of
the arena, has source text, and lies elsewhere. -/
def relatedSpan? (a : Arena) (cause : Span) (scope : NodeId) : Except Fault (Option Span) := do
  if a.contains scope then
    let span ← a.span scope
    return if !span.isEmpty && span != cause then some span else none
  else return none

def diagnostic (p : TypePool) (a : Arena) (names : NameTable) (e : TypeError) :
    Except Fault Diagnostic := do
  let span := e.cause.span
  let blank : Diagnostic := { code := e.kind.code }
  match e.kind with
  | .doesNotConform ty traits scope =>
    let ty ← p.display a names ty
    let traits ← p.displayTraits a names traits
    let d := blank
      |>.withMessage ("type `" ++ ty ++ "` does not conform to `" ++ traits ++ "`")
      |>.withLabel span "conformance required here"
      |>.withSuggestion ("declare a conformance of `" ++ ty ++ "` to `" ++ traits ++
        "` visible from this scope")
    return match ← relatedSpan? a span scope with
      | some related => d.withSecondaryLabel related "no conformance visible in this scope"
      | none => d
  | .staleConstraint =>
    let constraint ← e.cause.constraint.display p a names
    return blank
      |>.withMessage ("constraint `" ++ constraint ++ "` went stale")
      |>.withLabel span "constraint originated here"
      |>.withNote "this is a bug in the compiler, not in the program being compiled"

end TypeError

end TypedTree
