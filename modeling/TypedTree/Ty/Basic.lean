import TypedTree.Ident.Basic
import TypedTree.Index.Set
import TypedTree.Name

/-!
# Types

A type is stored once, in a pool, and referred to by its `TypeId`; the parts of
a type are such references too, so a type is flat and equality of types is
decidable. The seven builtin types have fixed positions, named here.
-/

namespace TypedTree

/-- The kind of access that a parameter or an implementation asks for, from the
weakest to the strongest. -/
inductive AccessEffect where
  | «let»
  | inout
  | set
  | sink
  deriving DecidableEq, Repr

namespace AccessEffect

def keyword : AccessEffect → String
  | .let => "let"
  | .inout => "inout"
  | .set => "set"
  | .sink => "sink"

def rank : AccessEffect → Nat
  | .let => 0
  | .inout => 1
  | .set => 2
  | .sink => 3

instance : Worded AccessEffect where
  all := [.let, .inout, .set, .sink]
  word
    | .let => "Let"
    | .inout => "Inout"
    | .set => "Set"
    | .sink => "Sink"
  find?_word a := by cases a <;> decide

end AccessEffect

structure TypeId where
  /-- The position of the type in its pool. -/
  raw : Nat
  deriving DecidableEq, Repr, Inhabited

namespace TypeId

instance : Indexed TypeId := ⟨TypeId.raw⟩

def void : TypeId := ⟨0⟩

def never : TypeId := ⟨1⟩

/-- The placeholder for the type of an ill-typed entity. -/
def error : TypeId := ⟨6⟩

/-- How many types every pool holds from the start. -/
def builtinCount : Nat := 7

def isBuiltin (t : TypeId) : Bool := t.raw < builtinCount

def isError (t : TypeId) : Bool := t == error

def text (t : TypeId) : String := s!"TypeId({t.raw})"

end TypeId

inductive Builtin where
  | void
  | never
  | bool
  | int
  | float
  | string
  deriving DecidableEq, Repr

def Builtin.name : Builtin → String
  | .void => "Void"
  | .never => "Never"
  | .bool => "Bool"
  | .int => "Int"
  | .float => "Float"
  | .string => "String"

instance : Worded Builtin where
  all := [.void, .never, .bool, .int, .float, .string]
  word := Builtin.name
  find?_word b := by cases b <;> decide

structure TupleComponent where
  label : Option Name
  ty : TypeId
  deriving DecidableEq, Repr

structure CallableParameter where
  label : Option Name
  convention : AccessEffect
  ty : TypeId
  deriving DecidableEq, Repr

/-- What function types and subscript types have in common. -/
structure Signature where
  /-- The tuple of the captured values, `TypeId.void` if nothing is captured. -/
  environment : TypeId
  inputs : List CallableParameter
  output : TypeId
  deriving DecidableEq, Repr

/-- A type, as a pool stores it. -/
inductive Ty where
  | builtin (b : Builtin)
  | module (decl : IdentOf .moduleDecl)
  | product (decl : IdentOf .productTypeDecl)
  | trait (decl : IdentOf .traitDecl)
  | genericParameter (decl : IdentOf .genericParameterDecl)
  | tuple (components : List TupleComponent)
  | lambda (signature : Signature)
  /-- A bundle of implementations, one per capability. -/
  | subscript (capabilities : List AccessEffect) (signature : Signature)
  | error
  deriving DecidableEq, Repr

def Ty.isModule : Ty → Bool
  | .module _ => true
  | _ => false

/-- A set of traits, in the order of their declarations. -/
abbrev TraitSet := IndexSet (IdentOf .traitDecl)

end TypedTree
