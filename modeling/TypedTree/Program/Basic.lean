import TypedTree.Program.Check
import TypedTree.Scope.Program
import TypedTree.Ty.Relation

/-!
# Typed programs

A `TypedProgram` is a scoped program with the types of a pool, property tables that
passed `PropertyTables.check`, and the relations between its types. It is made once,
by `TypedProgram.ofParts?`, and only read afterwards.
-/

namespace TypedTree

structure TypedProgram where
  source : ScopedProgram
  pool : TypePool
  properties : PropertyTables
  relations : Relations

namespace TypedProgram

/-- Accepts a scoped program with property tables that describe it. -/
def ofParts? (source : ScopedProgram) (pool : TypePool) (properties : PropertyTables)
    (relations : Relations) (validation : Validation) :
    Except ConstructionError TypedProgram := do
  properties.check source.arena pool validation
  return ⟨source, pool, properties, relations⟩

def arena (p : TypedProgram) : Arena := p.source.arena

def modules (p : TypedProgram) : List (IdentOf .moduleDecl) := p.arena.modules

def coreLibrary? (p : TypedProgram) : Option (IdentOf .moduleDecl) := p.arena.coreLibrary

def isSubtype (p : TypedProgram) (lhs rhs : TypeId) : Bool := p.relations.isSubtype lhs rhs

def canonical (p : TypedProgram) (ty : TypeId) : TypeId := p.relations.canonical ty

/-- Whether a conformance of the type to the trait is visible from `scope`: it is
declared there or in a scope around it. -/
def conforms (p : TypedProgram) (ty : TypeId) (trait : IdentOf .traitDecl) (scope : ScopeId) :
    Bool :=
  (p.source.scopeAncestors scope).any fun s => p.relations.conforms (p.canonical ty) trait s

/-- A program in brief: the number of nodes, the modules, the number of types. -/
def text (p : TypedProgram) : String :=
  let modules := ", ".intercalate (p.modules.map Ident.text)
  "TypedProgram \x7b nodes: " ++ toString p.arena.size ++ ", modules: [" ++ modules ++
    "], types: " ++ toString p.pool.size ++ ", .. \x7d"

def nodeText {c : Class} (id : Ident c) : String := s!"TypedNode({id.text})"

theorem ofParts?_eq_ok_iff {source : ScopedProgram} {pool : TypePool}
    {properties : PropertyTables} {relations : Relations} {validation : Validation}
    {p : TypedProgram} :
    ofParts? source pool properties relations validation = .ok p ↔
      properties.check source.arena pool validation = .ok () ∧
        p = ⟨source, pool, properties, relations⟩ := by
  unfold ofParts?
  cases h : properties.check source.arena pool validation with
  | error e => simp [bind, Except.bind]
  | ok u => simp [bind, Except.bind, pure, Except.pure, eq_comm]

end TypedProgram

end TypedTree
