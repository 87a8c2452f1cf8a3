import TypedTree.Arena.PatternName
import TypedTree.Program.Captures

/-!
# Properties of nodes

What a typed program knows of one of its nodes. A property that the construction of
a program promises for every node is a `Fault` where it is missing; one that a node
may lack is an `Option`. Both read the position of an identity, and the syntax of a
node besides reads the claimed kind.
-/

namespace TypedTree

namespace TypedProgram

def scope (p : TypedProgram) (d : DeclId) : Except Fault ScopeId :=
  match p.source.declScope? d with
  | some s => .ok s
  | none => .error (.noScope d.toAny)

def declaredType (p : TypedProgram) (d : DeclId) : Except Fault TypeId :=
  match p.properties.declTypes.get? d with
  | some t => .ok t
  | none => .error (.noType d.toAny)

def exprType (p : TypedProgram) (e : ExprId) : Except Fault TypeId :=
  match p.properties.exprTypes.get? e with
  | some t => .ok t
  | none => .error (.noType e.toAny)

def implicitCaptures? (p : TypedProgram) (d : DeclId) : Option (List ImplicitCapture) :=
  p.properties.implicitCaptures.get? d

def environment? (p : TypedProgram) (d : DeclId) : Option GenericEnvironment :=
  p.properties.environments.get? d

/-- The declarations that the type checker made in a module, in the order of their
making. -/
def synthesizedDecls (p : TypedProgram) (m : IdentOf .moduleDecl) : List SynthesizedEntry :=
  (p.properties.synthesized.get? m).getD []

/-- The modules that a translation unit imports, in the order of the modules. -/
def imports (p : TypedProgram) (u : IdentOf .translationUnit) : List (IdentOf .moduleDecl) :=
  ((p.properties.imports.get? u).getD ∅).toList

def binding (p : TypedProgram) (v : IdentOf .varDecl) : Except Fault (IdentOf .bindingDecl) :=
  match p.source.varBinding? v with
  | some b => .ok b
  | none => .error (.noBinding v.toAny)

def pattern (p : TypedProgram) (b : IdentOf .bindingDecl) :
    Except Fault (IdentOf .bindingPattern) := do
  let decl : BindingDecl ← p.arena.fields b
  return decl.pattern

def initializer? (p : TypedProgram) (b : IdentOf .bindingDecl) :
    Except Fault (Option ExprId) := do
  let decl : BindingDecl ← p.arena.fields b
  return decl.initializer

def functionBody? (p : TypedProgram) (f : IdentOf .functionDecl) :
    Except Fault (Option Body) := do
  let decl : FunctionDecl ← p.arena.fields f
  return decl.body

/-- The receiver of a function, which makes it a member. -/
def receiver? (p : TypedProgram) (f : IdentOf .functionDecl) :
    Except Fault (Option (IdentOf .parameterDecl)) := do
  let decl : FunctionDecl ← p.arena.fields f
  return decl.receiver

def parameters (p : TypedProgram) (f : IdentOf .functionDecl) :
    Except Fault (List (IdentOf .parameterDecl)) := do
  let decl : FunctionDecl ← p.arena.fields f
  return decl.parameters

def impls (p : TypedProgram) (s : IdentOf .subscriptDecl) :
    Except Fault (List (IdentOf .subscriptImpl)) := do
  let decl : SubscriptDecl ← p.arena.fields s
  return decl.impls

def implBody? (p : TypedProgram) (i : IdentOf .subscriptImpl) : Except Fault (Option Body) := do
  let decl : SubscriptImpl ← p.arena.fields i
  return decl.body

def nameDomain (p : TypedProgram) (n : IdentOf .nameExpr) : Except Fault NameDomain := do
  let name : NameExpr ← p.arena.fields n
  return name.domain

def referredDecl (p : TypedProgram) (n : IdentOf .nameExpr) : Except Fault DeclReference :=
  match p.properties.references.get? n with
  | some r => .ok r
  | none => .error (.notResolved n.toAny)

def lookupScope? (p : TypedProgram) (n : IdentOf .nameExpr) : Option ScopeId :=
  p.source.nameScope? n

def folded? (p : TypedProgram) (s : IdentOf .sequenceExpr) : Option Folded :=
  p.properties.folded.get? s

def mapEntries (p : TypedProgram) (m : IdentOf .mapLiteralExpr) :
    Except Fault (List MapElement) := do
  let map : MapLiteralExpr ← p.arena.fields m
  return map.elements

def lambdaDecl (p : TypedProgram) (l : IdentOf .lambdaExpr) :
    Except Fault (IdentOf .functionDecl) := do
  let lambda : LambdaExpr ← p.arena.fields l
  return lambda.decl

end TypedProgram

end TypedTree
