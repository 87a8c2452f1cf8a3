import TypedTree.Ident.Basic
import TypedTree.Ty.Basic

/-!
# Syntax nodes

A `Node` is a kind with the fields of that kind, `Kind.Fields`. Nodes hold no
other nodes, only identities; `Node.children` lists them in source order, which
is the order of every walk.
-/

namespace TypedTree

inductive Introducer where
  | «let»
  | var
  | sinkLet
  | inout
  deriving DecidableEq, Repr

instance : Worded Introducer where
  all := [.let, .var, .sinkLet, .inout]
  word
    | .let => "Let"
    | .var => "Var"
    | .sinkLet => "SinkLet"
    | .inout => "Inout"
  find?_word a := by cases a <;> decide

/-- The operation that a synthesized declaration implements. -/
inductive SynthesizedKind where
  | deinit
  | moveInitialization
  | moveAssignment
  | copy
  deriving DecidableEq, Repr

instance : Worded SynthesizedKind where
  all := [.deinit, .moveInitialization, .moveAssignment, .copy]
  word
    | .deinit => "Deinitialize"
    | .moveInitialization => "MoveInitialization"
    | .moveAssignment => "MoveAssignment"
    | .copy => "Copy"
  find?_word a := by cases a <;> decide

inductive Body where
  | expr (id : ExprId)
  | block (id : IdentOf .braceStmt)
  deriving DecidableEq, Repr

def Body.node : Body → NodeId
  | .expr id => id.toAny
  | .block id => id.toAny

/-- A value with a label, as in arguments and tuples. -/
structure Labeled (α : Type) where
  label : Option Name
  value : α
  deriving DecidableEq, Repr

/-- The root scope of a set of translation units. -/
structure ModuleDecl where
  name : Name
  sources : List (IdentOf .translationUnit)
  deriving DecidableEq, Repr

/-- A source file of a module. -/
structure TranslationUnit where
  decls : List DeclId
  deriving DecidableEq, Repr

/-- A declaration that only carries a name: an import, a variable or a generic
parameter. -/
structure NamedDecl where
  name : Name
  deriving DecidableEq, Repr

/-- A pattern that introduces variables, with the value they start with. -/
structure BindingDecl where
  pattern : IdentOf .bindingPattern
  initializer : Option ExprId
  deriving DecidableEq, Repr

/-- A parameter, or the receiver of a member. -/
structure ParameterDecl where
  label : Option Name
  name : Name
  convention : AccessEffect
  deriving DecidableEq, Repr

/-- A function, a method, or the declaration under a lambda, which has no name. -/
structure FunctionDecl where
  name : Option Name
  genericParameters : List (IdentOf .genericParameterDecl)
  /-- The capture list, from left to right. -/
  explicitCaptures : List (IdentOf .bindingDecl)
  /-- The implicit parameter of a member. -/
  receiver : Option (IdentOf .parameterDecl)
  parameters : List (IdentOf .parameterDecl)
  body : Option Body
  deriving DecidableEq, Repr

/-- A bundle of subscript implementations that share parameters and captures. -/
structure SubscriptDecl where
  name : Option Name
  genericParameters : List (IdentOf .genericParameterDecl)
  /-- The capture list, from left to right. -/
  explicitCaptures : List (IdentOf .bindingDecl)
  /-- The implicit parameter of a member. -/
  receiver : Option (IdentOf .parameterDecl)
  parameters : List (IdentOf .parameterDecl)
  impls : List (IdentOf .subscriptImpl)
  deriving DecidableEq, Repr

structure SubscriptImpl where
  introducer : AccessEffect
  body : Option Body
  deriving DecidableEq, Repr

structure ProductTypeDecl where
  name : Name
  genericParameters : List (IdentOf .genericParameterDecl)
  members : List DeclId
  deriving DecidableEq, Repr

structure TraitDecl where
  name : Name
  members : List DeclId
  deriving DecidableEq, Repr

structure SynthesizedDecl where
  kind : SynthesizedKind
  deriving DecidableEq, Repr

/-- What a name expression is qualified by. -/
inductive NameDomain where
  | none
  /-- A member of an implicit type. -/
  | implicit
  /-- A value or a type. -/
  | expr (id : ExprId)
  deriving DecidableEq, Repr

structure NameExpr where
  domain : NameDomain
  name : Name
  deriving DecidableEq, Repr

/-- A literal kept as its interned source text. -/
structure TextLiteral where
  value : Name
  deriving DecidableEq, Repr

structure BooleanLiteralExpr where
  value : Bool
  deriving DecidableEq, Repr

/-- An operator with its right operand, in an unfolded sequence. -/
structure SequenceElement where
  operator : IdentOf .nameExpr
  operand : ExprId
  deriving DecidableEq, Repr

/-- A chain of infix operators whose precedence is not resolved yet. -/
structure SequenceExpr where
  head : ExprId
  tail : List SequenceElement
  deriving DecidableEq, Repr

structure FunctionCallExpr where
  callee : ExprId
  arguments : List (Labeled ExprId)
  deriving DecidableEq, Repr

structure LambdaExpr where
  decl : IdentOf .functionDecl
  deriving DecidableEq, Repr

structure TupleExpr where
  elements : List (Labeled ExprId)
  deriving DecidableEq, Repr

structure MapElement where
  key : ExprId
  value : ExprId
  deriving DecidableEq, Repr

structure MapLiteralExpr where
  elements : List MapElement
  deriving DecidableEq, Repr

/-- The root pattern of a binding. -/
structure BindingPattern where
  introducer : Introducer
  subpattern : PatternId
  deriving DecidableEq, Repr

/-- A pattern that introduces one variable. -/
structure NamePattern where
  decl : IdentOf .varDecl
  deriving DecidableEq, Repr

structure TuplePattern where
  elements : List (Labeled PatternId)
  deriving DecidableEq, Repr

/-- The pattern that matches all and introduces nothing. -/
structure WildcardPattern where
  deriving DecidableEq, Repr

/-- A list of statements, which opens a scope. -/
structure BraceStmt where
  stmts : List StmtId
  deriving DecidableEq, Repr

structure ExprStmt where
  expr : ExprId
  deriving DecidableEq, Repr

structure DeclStmt where
  decl : DeclId
  deriving DecidableEq, Repr

structure ReturnStmt where
  value : Option ExprId
  deriving DecidableEq, Repr

def Kind.Fields : Kind → Type
  | .moduleDecl => ModuleDecl
  | .importDecl => NamedDecl
  | .bindingDecl => BindingDecl
  | .varDecl => NamedDecl
  | .parameterDecl => ParameterDecl
  | .functionDecl => FunctionDecl
  | .subscriptDecl => SubscriptDecl
  | .subscriptImpl => SubscriptImpl
  | .productTypeDecl => ProductTypeDecl
  | .traitDecl => TraitDecl
  | .genericParameterDecl => NamedDecl
  | .synthesizedDecl => SynthesizedDecl
  | .nameExpr => NameExpr
  | .integerLiteralExpr => TextLiteral
  | .booleanLiteralExpr => BooleanLiteralExpr
  | .stringLiteralExpr => TextLiteral
  | .sequenceExpr => SequenceExpr
  | .functionCallExpr => FunctionCallExpr
  | .lambdaExpr => LambdaExpr
  | .tupleExpr => TupleExpr
  | .mapLiteralExpr => MapLiteralExpr
  | .bindingPattern => BindingPattern
  | .namePattern => NamePattern
  | .tuplePattern => TuplePattern
  | .wildcardPattern => WildcardPattern
  | .braceStmt => BraceStmt
  | .exprStmt => ExprStmt
  | .declStmt => DeclStmt
  | .returnStmt => ReturnStmt
  | .translationUnit => TranslationUnit

/-- A syntax node: its kind and the fields of that kind. -/
structure Node where
  kind : Kind
  fields : kind.Fields

namespace Node

def fieldsAs? (n : Node) (k : Kind) : Option k.Fields :=
  if h : n.kind = k then some (h ▸ n.fields) else none

@[simp] theorem fieldsAs?_self (k : Kind) (f : k.Fields) :
    (Node.mk k f).fieldsAs? k = some f := by
  simp [fieldsAs?]

theorem isSome_fieldsAs? (n : Node) (k : Kind) :
    (n.fieldsAs? k).isSome = (n.kind == k) := by
  unfold fieldsAs?
  split <;> simp_all

/-- The identities that a node holds as children, in source order. A node that
is only named by its parent, such as an operator, is a child like any other. -/
def children : Node → List NodeId
  | ⟨.moduleDecl, (n : ModuleDecl)⟩ => n.sources.map Ident.toAny
  | ⟨.translationUnit, (n : TranslationUnit)⟩ => n.decls.map Ident.toAny
  | ⟨.bindingDecl, (n : BindingDecl)⟩ =>
    n.pattern.toAny :: n.initializer.toList.map Ident.toAny
  | ⟨.functionDecl, (n : FunctionDecl)⟩ =>
    n.genericParameters.map Ident.toAny ++ n.explicitCaptures.map Ident.toAny ++
      n.receiver.toList.map Ident.toAny ++ n.parameters.map Ident.toAny ++
      n.body.toList.map Body.node
  | ⟨.subscriptDecl, (n : SubscriptDecl)⟩ =>
    n.genericParameters.map Ident.toAny ++ n.explicitCaptures.map Ident.toAny ++
      n.receiver.toList.map Ident.toAny ++ n.parameters.map Ident.toAny ++
      n.impls.map Ident.toAny
  | ⟨.subscriptImpl, (n : SubscriptImpl)⟩ => n.body.toList.map Body.node
  | ⟨.productTypeDecl, (n : ProductTypeDecl)⟩ =>
    n.genericParameters.map Ident.toAny ++ n.members.map Ident.toAny
  | ⟨.traitDecl, (n : TraitDecl)⟩ => n.members.map Ident.toAny
  | ⟨.nameExpr, (n : NameExpr)⟩ =>
    match n.domain with
    | .expr id => [id.toAny]
    | .none | .implicit => []
  | ⟨.sequenceExpr, (n : SequenceExpr)⟩ =>
    n.head.toAny :: n.tail.flatMap fun e => [e.operator.toAny, e.operand.toAny]
  | ⟨.functionCallExpr, (n : FunctionCallExpr)⟩ =>
    n.callee.toAny :: n.arguments.map fun a => a.value.toAny
  | ⟨.lambdaExpr, (n : LambdaExpr)⟩ => [n.decl.toAny]
  | ⟨.tupleExpr, (n : TupleExpr)⟩ => n.elements.map fun e => e.value.toAny
  | ⟨.mapLiteralExpr, (n : MapLiteralExpr)⟩ =>
    n.elements.flatMap fun e => [e.key.toAny, e.value.toAny]
  | ⟨.bindingPattern, (n : BindingPattern)⟩ => [n.subpattern.toAny]
  | ⟨.namePattern, (n : NamePattern)⟩ => [n.decl.toAny]
  | ⟨.tuplePattern, (n : TuplePattern)⟩ => n.elements.map fun e => e.value.toAny
  | ⟨.braceStmt, (n : BraceStmt)⟩ => n.stmts.map Ident.toAny
  | ⟨.exprStmt, (n : ExprStmt)⟩ => [n.expr.toAny]
  | ⟨.declStmt, (n : DeclStmt)⟩ => [n.decl.toAny]
  | ⟨.returnStmt, (n : ReturnStmt)⟩ => n.value.toList.map Ident.toAny
  | ⟨.importDecl, _⟩ | ⟨.varDecl, _⟩ | ⟨.parameterDecl, _⟩ | ⟨.genericParameterDecl, _⟩
  | ⟨.synthesizedDecl, _⟩ | ⟨.integerLiteralExpr, _⟩ | ⟨.booleanLiteralExpr, _⟩
  | ⟨.stringLiteralExpr, _⟩ | ⟨.wildcardPattern, _⟩ => []

end Node

end TypedTree
