import TypedTree.Arena.Visit
import TypedTree.Scope.Tables

/-!
# Lexical scopes

`Arena.resolve` derives scope tables from the nesting of the syntax. A walk hands
down the innermost scope and the innermost binding (`Surroundings`), and every
visit is recorded with what surrounds it (`ScopeTables.record`). So a variable is
owned where its binding is, the function under a lambda where the lambda stands,
and a subscript implementation by its bundle.
-/

namespace TypedTree

/-- What surrounds a node: the innermost scope and the innermost binding. -/
structure Surroundings where
  scope : ScopeId
  binding : Option (IdentOf .bindingDecl)
  deriving DecidableEq, Repr

/-- What surrounds the children of `id`. A scope becomes the innermost scope and a
binding the innermost binding; a scope inside a binding does not hide it. -/
def Surroundings.enter (s : Surroundings) (id : NodeId) : Option Surroundings :=
  some ⟨(id.narrow? (.category .scope)).getD s.scope,
    (id.narrow? (.only .bindingDecl)).or s.binding⟩

namespace ScopeTables

/-- Records one visit. A declaration is owned by the innermost scope and listed
there, a variable is introduced by the innermost binding, a name is looked up in
the innermost scope, and a scope has the innermost scope as its parent. -/
def record (t : ScopeTables) (visit : Surroundings × NodeId) : ScopeTables :=
  let (around, id) := visit
  { parents :=
      match id.narrow? (.category .scope) with
      | some scope => t.parents.insert scope around.scope
      | none => t.parents
    decls :=
      match id.narrow? (.category .decl) with
      | some decl => t.decls.update around.scope fun owned => owned.getD [] ++ [decl]
      | none => t.decls
    declScopes :=
      match id.narrow? (.category .decl) with
      | some decl => t.declScopes.insert decl around.scope
      | none => t.declScopes
    nameScopes :=
      match id.narrow? (.only .nameExpr) with
      | some name => t.nameScopes.insert name around.scope
      | none => t.nameScopes
    bindings :=
      match id.narrow? (.only .varDecl), around.binding with
      | some var, some binding => t.bindings.insert var binding
      | _, _ => t.bindings }

/-- Records a module, which is its own scope, and all that lies below it. -/
def recordModule (a : Arena) (t : ScopeTables) (m : IdentOf .moduleDecl) :
    Except Fault ScopeTables := do
  let scope : ScopeId := m.widen
  let visits ← a.visitsBelow Surroundings.enter ⟨scope, none⟩ m.toAny
  let t := { t with declScopes := t.declScopes.insert m.widen scope }
  return visits.foldl record t

end ScopeTables

/-- The scope tables that the nesting of the syntax gives. -/
def Arena.resolve (a : Arena) : Except Fault ScopeTables :=
  a.modules.foldlM (ScopeTables.recordModule a) ∅

end TypedTree
