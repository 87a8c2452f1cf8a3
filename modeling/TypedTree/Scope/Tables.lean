import TypedTree.Ident.Basic
import TypedTree.Index.Table

/-!
# Scope tables

`ScopeTables` records what name lookup needs: the parent of every scope, the
declarations that a scope owns, the scope of every declaration and of every name
expression, and the binding that introduces every variable. Nothing here says
that the tables agree with each other or with an arena; that is `ScopeTables.check`.
-/

namespace TypedTree

/-- Who owns whom, by identity. -/
structure ScopeTables where
  /-- The parent of a scope, where it has one. -/
  parents : Table ScopeId ScopeId := ∅
  /-- The declarations that a scope owns, in source order. -/
  decls : Table ScopeId (List DeclId) := ∅
  declScopes : Table DeclId ScopeId := ∅
  nameScopes : Table (IdentOf .nameExpr) ScopeId := ∅
  bindings : Table (IdentOf .varDecl) (IdentOf .bindingDecl) := ∅

namespace ScopeTables

instance : EmptyCollection ScopeTables := ⟨{}⟩

instance : Inhabited ScopeTables := ⟨∅⟩

/-- `s`, its parent, the parent of that, and so on, at most `steps` parents up. -/
def ancestorsWithin (t : ScopeTables) : Nat → ScopeId → List ScopeId
  | 0, s => [s]
  | steps + 1, s =>
    match t.parents.get? s with
    | some p => s :: t.ancestorsWithin steps p
    | none => [s]

/-- The scopes in `below`, the latest first, followed by `s` and its ancestors, at most
`steps` parents up. -/
def climb (t : ScopeTables) (below : List ScopeId) : Nat → ScopeId → List ScopeId
  | 0, s => (s :: below).reverse
  | steps + 1, s =>
    match t.parents.get? s with
    | some p => t.climb (s :: below) steps p
    | none => (s :: below).reverse

/-- `s` followed by each of its ancestors. A chain that meets no scope twice takes
at most as many steps as there are scopes with a parent. -/
def ancestors (t : ScopeTables) (s : ScopeId) : List ScopeId := t.climb [] t.parents.size s

theorem ancestorsWithin_zero (t : ScopeTables) (s : ScopeId) :
    t.ancestorsWithin 0 s = [s] := rfl

theorem ancestorsWithin_of_root {t : ScopeTables} {s : ScopeId}
    (h : t.parents.get? s = none) (steps : Nat) : t.ancestorsWithin steps s = [s] := by
  cases steps <;> simp [ancestorsWithin, h]

theorem ancestorsWithin_of_parent {t : ScopeTables} {s p : ScopeId}
    (h : t.parents.get? s = some p) (steps : Nat) :
    t.ancestorsWithin (steps + 1) s = s :: t.ancestorsWithin steps p := by
  simp [ancestorsWithin, h]

theorem climb_eq (t : ScopeTables) (below : List ScopeId) (steps : Nat) (s : ScopeId) :
    t.climb below steps s = below.reverse ++ t.ancestorsWithin steps s := by
  induction steps generalizing below s with
  | zero => simp [climb, ancestorsWithin]
  | succ steps ih =>
      unfold climb ancestorsWithin
      split <;> simp [*]

theorem ancestors_eq (t : ScopeTables) (s : ScopeId) :
    t.ancestors s = t.ancestorsWithin t.parents.size s := by
  simp [ancestors, climb_eq]

end ScopeTables

end TypedTree
