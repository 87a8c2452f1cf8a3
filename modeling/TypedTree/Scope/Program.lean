import TypedTree.Scope.Check
import TypedTree.Scope.Resolution

/-!
# Scoped programs

A `ScopedProgram` is an arena with scope tables. It is made from tables that pass
the check (`ofTables?`), those of the syntax's own nesting among them
(`ofArena?`). Afterwards it grows by synthesized declarations only.
-/

namespace TypedTree

structure ScopedProgram where
  arena : Arena
  tables : ScopeTables

/-- Why the nesting of an arena gives no scoped program. -/
inductive ResolutionError where
  /-- A node holds an identity below which the arena cannot be walked. -/
  | walk (fault : Fault)
  /-- The tables derived do not fit the arena. -/
  | tables (error : ScopeError)
  deriving DecidableEq, Repr

namespace ScopedProgram

variable {c : Class}

/-- Accepts an arena with tables that fit it. -/
def ofTables? (a : Arena) (t : ScopeTables) : Except ScopeError ScopedProgram := do
  t.check a
  return ⟨a, t⟩

/-- Derives the tables of an arena from the nesting of its syntax. -/
def ofArena? (a : Arena) : Except ResolutionError ScopedProgram := do
  let t ← a.resolve.mapError .walk
  (ofTables? a t).mapError .tables

def scopeParent? (p : ScopedProgram) (s : ScopeId) : Option ScopeId := p.tables.parents.get? s

def scopeAncestors (p : ScopedProgram) (s : ScopeId) : List ScopeId := p.tables.ancestors s

/-- The declarations that a scope owns, in source order. -/
def scopeDecls (p : ScopedProgram) (s : ScopeId) : List DeclId :=
  (p.tables.decls.get? s).getD []

def declScope? (p : ScopedProgram) (d : DeclId) : Option ScopeId := p.tables.declScopes.get? d

def nameScope? (p : ScopedProgram) (n : IdentOf .nameExpr) : Option ScopeId :=
  p.tables.nameScopes.get? n

def varBinding? (p : ScopedProgram) (v : IdentOf .varDecl) : Option (IdentOf .bindingDecl) :=
  p.tables.bindings.get? v

/-- Adds a declaration that the type checker made, scoped in `scope`. It takes the
next position of the arena, has no source text, and is not listed among the
declarations of the scope, which are those of the source. -/
def insertSynthesized (p : ScopedProgram) (kind : SynthesizedKind) (scope : ScopeId) :
    IdentOf .synthesizedDecl × ScopedProgram :=
  let (id, arena) := p.arena.insertAs .synthesizedDecl ⟨kind⟩ .dummy
  (id, ⟨arena, { p.tables with
    declScopes := p.tables.declScopes.insert id.widen scope }⟩)

theorem ofTables?_eq_ok_iff {a : Arena} {t : ScopeTables} {p : ScopedProgram} :
    ofTables? a t = .ok p ↔ t.check a = .ok () ∧ p = ⟨a, t⟩ := by
  unfold ofTables?
  cases h : t.check a with
  | error e => simp [bind, Except.bind]
  | ok u => simp [bind, Except.bind, pure, Except.pure, eq_comm]

end ScopedProgram

end TypedTree
