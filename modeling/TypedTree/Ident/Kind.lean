import TypedTree.Word

/-!
# Kinds of syntax nodes

A node is of one of thirty kinds, and a kind belongs to a fixed set of
categories. `Kind.categories` is the whole table; `Kind.is` reads it, and
`Kind.bits` packs it into one number. A `Class` is what an identity may promise
about the kind of the node it denotes, and `Class.admits` is that promise. An instance
of `Class.Within` stands for every step from a kind to one of its categories that an
identity is taken along.
-/

namespace TypedTree

/-- Groups of kinds whose nodes play one part in a program. -/
inductive Category where
  | decl
  | expr
  | pattern
  | stmt
  /-- Lexical regions, which own declarations. -/
  | scope
  /-- Scopes that may introduce generic parameters. -/
  | genericScope
  deriving DecidableEq, Repr

/-- The weight of a category in the packed form of a set of categories. -/
def Category.bit : Category → Nat
  | .decl => 1
  | .expr => 2
  | .pattern => 4
  | .stmt => 8
  | .scope => 16
  | .genericScope => 32

inductive Kind where
  | moduleDecl
  | importDecl
  | bindingDecl
  | varDecl
  | parameterDecl
  | functionDecl
  | subscriptDecl
  | subscriptImpl
  | productTypeDecl
  | traitDecl
  | genericParameterDecl
  | synthesizedDecl
  | nameExpr
  | integerLiteralExpr
  | booleanLiteralExpr
  | stringLiteralExpr
  | sequenceExpr
  | functionCallExpr
  | lambdaExpr
  | tupleExpr
  | mapLiteralExpr
  | bindingPattern
  | namePattern
  | tuplePattern
  | wildcardPattern
  | braceStmt
  | exprStmt
  | declStmt
  | returnStmt
  | translationUnit
  deriving DecidableEq, Repr, Inhabited

namespace Kind

def all : List Kind :=
  [.moduleDecl, .importDecl, .bindingDecl, .varDecl, .parameterDecl, .functionDecl,
    .subscriptDecl, .subscriptImpl, .productTypeDecl, .traitDecl, .genericParameterDecl,
    .synthesizedDecl, .nameExpr, .integerLiteralExpr, .booleanLiteralExpr,
    .stringLiteralExpr, .sequenceExpr, .functionCallExpr, .lambdaExpr, .tupleExpr,
    .mapLiteralExpr, .bindingPattern, .namePattern, .tuplePattern, .wildcardPattern,
    .braceStmt, .exprStmt, .declStmt, .returnStmt, .translationUnit]

def name : Kind → String
  | .moduleDecl => "ModuleDecl"
  | .importDecl => "ImportDecl"
  | .bindingDecl => "BindingDecl"
  | .varDecl => "VarDecl"
  | .parameterDecl => "ParameterDecl"
  | .functionDecl => "FunctionDecl"
  | .subscriptDecl => "SubscriptDecl"
  | .subscriptImpl => "SubscriptImpl"
  | .productTypeDecl => "ProductTypeDecl"
  | .traitDecl => "TraitDecl"
  | .genericParameterDecl => "GenericParameterDecl"
  | .synthesizedDecl => "SynthesizedDecl"
  | .nameExpr => "NameExpr"
  | .integerLiteralExpr => "IntegerLiteralExpr"
  | .booleanLiteralExpr => "BooleanLiteralExpr"
  | .stringLiteralExpr => "StringLiteralExpr"
  | .sequenceExpr => "SequenceExpr"
  | .functionCallExpr => "FunctionCallExpr"
  | .lambdaExpr => "LambdaExpr"
  | .tupleExpr => "TupleExpr"
  | .mapLiteralExpr => "MapLiteralExpr"
  | .bindingPattern => "BindingPattern"
  | .namePattern => "NamePattern"
  | .tuplePattern => "TuplePattern"
  | .wildcardPattern => "WildcardPattern"
  | .braceStmt => "BraceStmt"
  | .exprStmt => "ExprStmt"
  | .declStmt => "DeclStmt"
  | .returnStmt => "ReturnStmt"
  | .translationUnit => "TranslationUnit"

instance : Worded Kind where
  all := all
  word := name
  find?_word k := by cases k <;> decide

/-- The categories of a kind. Every declaration that holds others is a scope,
and so are blocks and translation units. -/
def categories : Kind → List Category
  | .moduleDecl | .subscriptImpl => [.decl, .scope]
  | .functionDecl | .subscriptDecl | .productTypeDecl | .traitDecl =>
    [.decl, .scope, .genericScope]
  | .importDecl | .bindingDecl | .varDecl | .parameterDecl | .genericParameterDecl
  | .synthesizedDecl => [.decl]
  | .nameExpr | .integerLiteralExpr | .booleanLiteralExpr | .stringLiteralExpr
  | .sequenceExpr | .functionCallExpr | .lambdaExpr | .tupleExpr | .mapLiteralExpr =>
    [.expr]
  | .bindingPattern | .namePattern | .tuplePattern | .wildcardPattern => [.pattern]
  | .braceStmt => [.stmt, .scope]
  | .exprStmt | .declStmt | .returnStmt => [.stmt]
  | .translationUnit => [.scope]

def is (k : Kind) (c : Category) : Bool := k.categories.contains c

def bits (k : Kind) : Nat := k.categories.foldl (fun n c => n + c.bit) 0

end Kind

/-- What an identity may promise about the kind of the node it denotes. -/
inductive Class where
  /-- Nothing: the node may be of any kind. -/
  | any
  /-- The kind belongs to the category. -/
  | category (c : Category)
  /-- The kind is this one. -/
  | only (k : Kind)
  deriving DecidableEq, Repr

namespace Class

/-- Whether a node of kind `k` keeps the promise. -/
def admits : Class → Kind → Bool
  | .any, _ => true
  | .category c, k => k.is c
  | .only k', k => k == k'

/-- Every kind that `c` admits is admitted by `d` too. -/
class Within (c d : Class) : Prop where
  admits {k : Kind} (h : c.admits k = true) : d.admits k = true

theorem within_of_is {k : Kind} {c : Category} (h : k.is c = true) :
    (only k).Within (category c) where
  admits hk := (beq_iff_eq.1 hk).symm ▸ h

instance : Within (only .moduleDecl) (category .decl) := within_of_is rfl

instance : Within (only .bindingDecl) (category .decl) := within_of_is rfl

instance : Within (only .varDecl) (category .decl) := within_of_is rfl

instance : Within (only .parameterDecl) (category .decl) := within_of_is rfl

instance : Within (only .functionDecl) (category .decl) := within_of_is rfl

instance : Within (only .subscriptDecl) (category .decl) := within_of_is rfl

instance : Within (only .subscriptImpl) (category .decl) := within_of_is rfl

instance : Within (only .synthesizedDecl) (category .decl) := within_of_is rfl

instance : Within (only .nameExpr) (category .expr) := within_of_is rfl

instance : Within (only .sequenceExpr) (category .expr) := within_of_is rfl

instance : Within (only .lambdaExpr) (category .expr) := within_of_is rfl

instance : Within (only .namePattern) (category .pattern) := within_of_is rfl

instance : Within (only .moduleDecl) (category .scope) := within_of_is rfl

instance : Within (only .functionDecl) (category .scope) := within_of_is rfl

instance : Within (only .translationUnit) (category .scope) := within_of_is rfl

end Class

end TypedTree
