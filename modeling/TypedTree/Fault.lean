import TypedTree.Ty.Basic

/-!
# Faults

A fault is the use of an identity, a name or a type with a structure that does
not know it, or with a program that was promised to know it. Functions that
callers may use only with what the structure made return `Except Fault`; a
failure that callers are meant to meet has an error type of its own.
-/

namespace TypedTree

/-- A broken promise of a caller. -/
inductive Fault where
  /-- No node of the claimed kind has that position. -/
  | notANode (id : NodeId)
  /-- The position lies beyond the `size` nodes of the arena. -/
  | beyondArena (size index : Nat)
  /-- The node is its own descendant, so a walk below it has no end. -/
  | endlessWalk (id : NodeId)
  /-- No text has that handle. -/
  | unknownName (name : Name)
  /-- No type has that position. -/
  | unknownType (ty : TypeId)
  /-- A program holds no scope for the declaration. -/
  | noScope (id : NodeId)
  | noType (id : NodeId)
  | noBinding (id : NodeId)
  | notResolved (id : NodeId)
  /-- The implementation is not owned by a subscript. -/
  | notInSubscript (id : NodeId)
  deriving DecidableEq, Repr

/-- The wording of a breach of what the construction of a program promises. -/
def Fault.contract (what : String) : String := s!"typed program contract violated: {what}"

def Fault.message : Fault → String
  | .notANode id => s!"{id.text} does not denote a node of this arena"
  | .beyondArena size index =>
    s!"index out of bounds: the len is {size} but the index is {index}"
  | .endlessWalk id => s!"{id.text} is a descendant of itself"
  | .unknownName name => s!"{name.text} was not produced by this interner"
  | .unknownType ty => s!"{ty.text} does not belong to this type pool"
  | .noScope id => contract s!"{id.text} has no scope"
  | .noType id => contract s!"{id.text} has no type"
  | .noBinding id => contract s!"{id.text} has no binding"
  | .notResolved id => contract s!"{id.text} was not resolved"
  | .notInSubscript id => contract s!"{id.text} is not scoped in a subscript"

/-- The text of a handle that the table is promised to know. -/
def NameTable.lookup (t : NameTable) (n : Name) : Except Fault String :=
  match t.text? n with
  | some s => .ok s
  | none => .error (.unknownName n)

end TypedTree
