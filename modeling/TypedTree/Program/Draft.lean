import TypedTree.Diagnostic
import TypedTree.Program.Basic
import TypedTree.TypeError

/-!
# Drafts

A `Draft` is a typed program in the making: a scoped program with what the checker
has recorded so far. Later records replace earlier ones of the same position, except
that imports and synthesized declarations add up. `finish?` yields the program, unless
an error was reported or the tables fail their check.
-/

namespace TypedTree

/-- A typed program in the making. -/
structure Draft where
  source : ScopedProgram
  pool : TypePool
  properties : PropertyTables := ∅
  errors : List TypeError := []
  /-- The modules that errors were reported of. -/
  failed : IndexSet (IdentOf .moduleDecl) := ∅
  validation : Validation := .full

inductive CheckFailure where
  /-- Some module failed to type check. -/
  | typeErrors (errors : List TypeError) (failed : IndexSet (IdentOf .moduleDecl))
      (guarantee : ErrorGuarantee)
  /-- Checking succeeded but left the tables incomplete. -/
  | construction (error : ConstructionError)

def CheckFailure.message : CheckFailure → String
  | .typeErrors errors failed _ =>
    s!"{failed.toList.length} module(s) failed to type check with {errors.length} error(s)"
  | .construction error => error.message

namespace Draft

def intern (d : Draft) (ty : Ty) : TypeId × Draft :=
  let (t, pool) := d.pool.intern ty
  (t, { d with pool := pool })

def setDeclType (d : Draft) (decl : DeclId) (ty : TypeId) : Draft :=
  { d with properties.declTypes := d.properties.declTypes.insert decl ty }

def setExprType (d : Draft) (expr : ExprId) (ty : TypeId) : Draft :=
  { d with properties.exprTypes := d.properties.exprTypes.insert expr ty }

/-- Records one more module that a translation unit imports. -/
def addImport (d : Draft) (unit : IdentOf .translationUnit) (module : IdentOf .moduleDecl) :
    Draft :=
  { d with properties.imports :=
      d.properties.imports.update unit fun modules => (modules.getD ∅).insert module }

/-- Records the implicit captures of a function or subscript, in the order in which
they were found. -/
def setImplicitCaptures (d : Draft) (decl : DeclId) (captures : List ImplicitCapture) : Draft :=
  { d with properties.implicitCaptures := d.properties.implicitCaptures.insert decl captures }

def setEnvironment (d : Draft) (decl : DeclId) (environment : GenericEnvironment) : Draft :=
  { d with properties.environments := d.properties.environments.insert decl environment }

def setReference (d : Draft) (name : IdentOf .nameExpr) (reference : DeclReference) : Draft :=
  { d with properties.references := d.properties.references.insert name reference }

def setFolded (d : Draft) (sequence : IdentOf .sequenceExpr) (folded : Folded) : Draft :=
  { d with properties.folded := d.properties.folded.insert sequence folded }

/-- Makes a declaration of a module, scoped in `scope`, with type `ty`. -/
def synthesize (d : Draft) (module : IdentOf .moduleDecl) (kind : SynthesizedKind)
    (ty : TypeId) (scope : ScopeId) : IdentOf .synthesizedDecl × Draft :=
  let (id, source) := d.source.insertSynthesized kind scope
  (id, { d with
    source := source
    properties.declTypes := d.properties.declTypes.insert id.widen ty
    properties.synthesized := d.properties.synthesized.update module fun made =>
      made.getD [] ++ [⟨id, kind, ty, scope⟩] })

/-- Reports an error, with which the module has failed. -/
def report (d : Draft) (module : IdentOf .moduleDecl) (error : TypeError) : Draft :=
  { d with failed := d.failed.insert module, errors := d.errors ++ [error] }

def hasFailed (d : Draft) (module : IdentOf .moduleDecl) : Bool := d.failed.contains module

/-- The program that was drafted. An error reported stands in its way, whatever the
tables say. -/
def finish? (d : Draft) (relations : Relations) : Except CheckFailure TypedProgram :=
  match ErrorGuarantee.ofCount? d.errors.length with
  | some guarantee => .error (.typeErrors d.errors d.failed guarantee)
  | none =>
    (TypedProgram.ofParts? d.source d.pool d.properties relations d.validation).mapError
      .construction

end Draft

end TypedTree
