import TypedTree.Arena.Basic
import TypedTree.Program.Properties
import TypedTree.Ty.Pool

/-!
# Checked property tables

`PropertyTables.check` accepts tables that describe a program whose checking
succeeded, and reports the first failure of others as a `ConstructionError`. Every
module must have the type of a module. In full validation the identities that key
the tables, and those listed beside them, must denote nodes of their claimed kinds,
and no declaration, expression or name may be left out.
-/

namespace TypedTree

/-- Which checks property tables have to pass. -/
inductive Validation where
  /-- All of them. -/
  | full
  /-- Only that each module has a type. -/
  | modulesOnly
  deriving DecidableEq, Repr, Inhabited

instance : Worded Validation where
  all := [.full, .modulesOnly]
  word
    | .full => "Full"
    | .modulesOnly => "ModulesOnly"
  find?_word a := by cases a <;> decide

inductive ConstructionError where
  /-- The module has no type, or its type is not that of a module. -/
  | uncheckedModule (module : IdentOf .moduleDecl)
  | missingDeclType (decl : DeclId)
  | missingExprType (expr : ExprId)
  | unresolvedName (expr : IdentOf .nameExpr)
  /-- The identity denotes no node of its claimed kind. -/
  | foreignKey (id : NodeId)
  deriving DecidableEq, Repr

def ConstructionError.name : ConstructionError → String
  | .uncheckedModule _ => "UncheckedModule"
  | .missingDeclType _ => "MissingDeclType"
  | .missingExprType _ => "MissingExprType"
  | .unresolvedName _ => "UnresolvedName"
  | .foreignKey _ => "ForeignKey"

def ConstructionError.message : ConstructionError → String
  | .uncheckedModule m => s!"module {m.text} was not successfully type checked"
  | .missingDeclType d => s!"declaration {d.text} has no type"
  | .missingExprType e => s!"expression {e.text} has no type"
  | .unresolvedName e => s!"name expression {e.text} does not refer to any declaration"
  | .foreignKey id =>
    s!"a property table refers to {id.text}, which is not a node of this program"

/-- Accepts an identity that denotes a node of the kind it claims. -/
def Arena.checkKey {c : Class} (a : Arena) (id : Ident c) : Except ConstructionError Unit :=
  if a.contains id then .ok () else .error (.foreignKey id.toAny)

theorem Arena.checkKey_eq_ok_iff {c : Class} {a : Arena} {id : Ident c} :
    a.checkKey id = .ok () ↔ a.contains id = true := by
  unfold checkKey
  split <;> simp_all

namespace PropertyTables

def isChecked (t : PropertyTables) (p : TypePool) (m : IdentOf .moduleDecl) : Bool :=
  ((t.declTypes.get? m.widen).bind p.get?).any Ty.isModule

/-- Accepts tables in which every module has the type of a module. -/
def checkModules (t : PropertyTables) (a : Arena) (p : TypePool) :
    Except ConstructionError Unit :=
  a.modules.forM fun m => do
    unless t.isChecked p m do throw (.uncheckedModule m)

/-- Accepts tables whose identities denote nodes of the kinds they claim: the keys,
imported modules, captured declarations, generic parameters, synthesized
declarations with their scopes, declarations referred to, and operands. -/
def checkKeys (t : PropertyTables) (a : Arena) : Except ConstructionError Unit := do
  t.imports.entries.forM fun (unit, modules) => do
    a.checkKey unit
    modules.toList.forM a.checkKey
  t.declTypes.keys.forM a.checkKey
  t.exprTypes.keys.forM a.checkKey
  t.implicitCaptures.entries.forM fun (decl, captures) => do
    a.checkKey decl
    captures.forM fun capture => a.checkKey capture.decl
  t.environments.entries.forM fun (decl, environment) => do
    a.checkKey decl
    environment.parameters.forM a.checkKey
  t.synthesized.entries.forM fun (module, made) => do
    a.checkKey module
    made.forM fun entry => do
      a.checkKey entry.id
      a.checkKey entry.scope
  t.references.entries.forM fun (name, reference) => do
    a.checkKey name
    a.checkKey reference.decl
  t.folded.entries.forM fun (sequence, folded) => do
    a.checkKey sequence
    folded.operands.forM a.checkKey

/-- Accepts tables that leave no declaration, expression or name of the arena out. -/
def checkTotality (t : PropertyTables) (a : Arena) : Except ConstructionError Unit := do
  (a.idsOf (.category .decl)).forM fun decl => do
    unless t.declTypes.contains decl do throw (.missingDeclType decl)
  (a.idsOf (.category .expr)).forM fun expr => do
    unless t.exprTypes.contains expr do throw (.missingExprType expr)
  (a.idsOf (.only .nameExpr)).forM fun name => do
    unless t.references.contains name do throw (.unresolvedName name)

/-- Accepts tables that describe a checked program, as far as the validation asks. -/
def check (t : PropertyTables) (a : Arena) (p : TypePool) :
    Validation → Except ConstructionError Unit
  | .modulesOnly => t.checkModules a p
  | .full => do
    t.checkModules a p
    t.checkKeys a
    t.checkTotality a

end PropertyTables

end TypedTree
