import TypedTree.Arena.Node
import TypedTree.Program.Folded
import TypedTree.Ty.Constraint

/-!
# Property tables

`PropertyTables` holds all that type checking attaches to the syntax, by identity.
The tables carry no promise of their own; `PropertyTables.check` says when they
describe a program that was checked.
-/

namespace TypedTree

/-- How a closure holds a captured value. -/
inductive CaptureMode where
  | byValue
  | byReference
  deriving DecidableEq, Repr

instance : Worded CaptureMode where
  all := [.byValue, .byReference]
  word
    | .byValue => "ByValue"
    | .byReference => "ByReference"
  find?_word a := by cases a <;> decide

/-- A declaration used in a body but declared outside of it. -/
structure ImplicitCapture where
  name : Name
  ty : TypeId
  decl : DeclId
  mode : CaptureMode
  deriving DecidableEq, Repr

inductive DeclReference where
  | direct (decl : DeclId)
  /-- A member bound to the implicit receiver. -/
  | member (decl : DeclId)
  deriving DecidableEq, Repr

namespace DeclReference

def decl : DeclReference → DeclId
  | .direct d | .member d => d

/-- Whether the declaration is bound to the implicit receiver. -/
def isMember : DeclReference → Bool
  | .direct _ => false
  | .member _ => true

end DeclReference

/-- A declaration that the type checker made, with its properties. -/
structure SynthesizedEntry where
  id : IdentOf .synthesizedDecl
  kind : SynthesizedKind
  ty : TypeId
  scope : ScopeId
  deriving DecidableEq, Repr

/-- All that type checking attaches to the syntax. -/
structure PropertyTables where
  /-- The modules that each translation unit imports. -/
  imports : Table (IdentOf .translationUnit) (IndexSet (IdentOf .moduleDecl)) := ∅
  /-- The overarching type of each declaration. -/
  declTypes : Table DeclId TypeId := ∅
  exprTypes : Table ExprId TypeId := ∅
  /-- The implicit captures of functions and subscripts, in the order in which they
  were found. -/
  implicitCaptures : Table DeclId (List ImplicitCapture) := ∅
  environments : Table DeclId GenericEnvironment := ∅
  /-- The declarations made in each module, in the order of their making. -/
  synthesized : Table (IdentOf .moduleDecl) (List SynthesizedEntry) := ∅
  references : Table (IdentOf .nameExpr) DeclReference := ∅
  folded : Table (IdentOf .sequenceExpr) Folded := ∅

instance : EmptyCollection PropertyTables := ⟨{}⟩

instance : Inhabited PropertyTables := ⟨∅⟩

end TypedTree
