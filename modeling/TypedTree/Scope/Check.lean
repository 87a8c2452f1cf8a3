import Std.Data.TreeSet.Lemmas
import TypedTree.Arena.Basic
import TypedTree.Index.Count
import TypedTree.Scope.Tables

/-!
# Checked scope tables

`ScopeTables.check` accepts tables that fit an arena: every identity in them
denotes a node of its claimed kind, the listed declarations have the scope that
lists them, every chain of parents ends at a module, and every declaration has a
scope and every variable a binding. The first failure is reported as a
`ScopeError`, where each table is gone through in the order of its listing. Chains are
checked once: `rootedFrom` stops at a scope that an earlier chain has passed.
-/

namespace TypedTree

inductive ScopeError where
  /-- Going up from the scope leads back to it. -/
  | cycle (scope : ScopeId)
  /-- The scope has no parent, and it is no module. -/
  | orphan (scope : ScopeId)
  /-- One scope lists the declaration, and another one or none has it. -/
  | scopeMismatch (decl : DeclId) (listedIn : ScopeId) (scopedIn : Option ScopeId)
  | unscoped (decl : DeclId)
  | unbound (var : IdentOf .varDecl)
  /-- The arena stores another kind than the one claimed. -/
  | kindMismatch (id : NodeId) (found : Kind)
  /-- The position lies beyond the arena. -/
  | foreign (id : NodeId)
  deriving DecidableEq, Repr

def ScopeError.name : ScopeError → String
  | .cycle _ => "ScopeCycle"
  | .orphan _ => "OrphanScope"
  | .scopeMismatch _ _ _ => "DeclScopeMismatch"
  | .unscoped _ => "UnscopedDecl"
  | .unbound _ => "UnboundVariable"
  | .kindMismatch _ _ => "KindMismatch"
  | .foreign _ => "ForeignNode"

def ScopeError.message : ScopeError → String
  | .cycle scope => s!"scope {scope.text} is its own ancestor"
  | .orphan scope => s!"scope {scope.text} has no parent and is not a module"
  | .scopeMismatch decl listedIn (some scopedIn) =>
    s!"{decl.text} is listed in {listedIn.text} but scoped in Some({scopedIn.text})"
  | .scopeMismatch decl listedIn none =>
    s!"{decl.text} is listed in {listedIn.text} but scoped in None"
  | .unscoped decl => s!"declaration {decl.text} has no scope"
  | .unbound var => s!"variable {var.text} is not introduced by any binding declaration"
  | .kindMismatch id found =>
    s!"{id.text} claims kind {id.kind.name} but the arena holds a {found.name} at that index"
  | .foreign id => s!"{id.text} does not belong to the syntax arena"

/-- Accepts an identity that denotes a node of the kind it claims. -/
def Arena.checkNode {c : Class} (a : Arena) (id : Ident c) : Except ScopeError Unit :=
  match a.kindAt? id with
  | none => .error (.foreign id.toAny)
  | some found => if found = id.kind then .ok () else .error (.kindMismatch id.toAny found)

theorem Arena.checkNode_eq_ok_iff {c : Class} {a : Arena} {id : Ident c} :
    a.checkNode id = .ok () ↔ a.contains id = true := by
  unfold checkNode contains
  cases a.kindAt? id with
  | none => simp
  | some found =>
      by_cases h : found = id.kind
      · simp [h]
      · simp [h]

/-- Accepts entries whose keys and values denote nodes of the kinds they claim. -/
def Arena.checkPairs {c d : Class} (a : Arena) (entries : List (Ident c × Ident d)) :
    Except ScopeError Unit :=
  entries.forM fun (k, v) => do
    a.checkNode k
    a.checkNode v

namespace ScopeTables

/-- Accepts the listed declarations that have the scope listing them. -/
def checkDecls (t : ScopeTables) (a : Arena) : Except ScopeError Unit :=
  t.decls.entries.forM fun (scope, decls) => do
    a.checkNode scope
    decls.forM fun decl => do
      a.checkNode decl
      match t.declScopes.get? decl with
      | some scopedIn =>
        unless scopedIn.same scope do throw (.scopeMismatch decl scope (some scopedIn))
      | none => throw (.scopeMismatch decl scope none)

/-- The number of entries whose keys are at positions not in `seen`. -/
def unseen (t : ScopeTables) (seen : Std.TreeSet Nat) : Nat :=
  t.parents.entries.countP fun e => !seen.contains e.1.index

theorem unseen_insert_lt {t : ScopeTables} {seen : Std.TreeSet Nat} {s p : ScopeId}
    (hparent : t.parents.get? s = some p) (hseen : s.index ∉ seen) :
    t.unseen (seen.insert s.index) < t.unseen seen := by
  obtain ⟨k, hk, hmem⟩ := (t.parents.get?_eq_some_iff s p).1 hparent
  simp only [Ident.index_eq] at hk
  refine countP_lt_countP (fun e => ?_) hmem ?_ ?_
  · simp
  · simpa [hk, ← Std.TreeSet.contains_iff_mem] using hseen
  · simp [hk]

/-- The positions of the scopes from `s` upward, as far as a module or a scope in
`rooted`, added to those in `seen`. Meeting a scope in `seen` again or ending
elsewhere is an error. -/
def rootedFrom (t : ScopeTables) (rooted seen : Std.TreeSet Nat) (s : ScopeId) :
    Except ScopeError (Std.TreeSet Nat) :=
  if s.index ∈ rooted then .ok seen
  else if _hseen : s.index ∈ seen then .error (.cycle s)
  else
    match _hparent : t.parents.get? s with
    | some p => t.rootedFrom rooted (seen.insert s.index) p
    | none => if s.kind = .moduleDecl then .ok (seen.insert s.index) else .error (.orphan s)
termination_by t.unseen seen
decreasing_by exact unseen_insert_lt _hparent _hseen

/-- Accepts scopes from each of which the parents lead to a module. The positions
in `rooted` are known to lead there. -/
def checkRooted (t : ScopeTables) :
    Std.TreeSet Nat → List ScopeId → Except ScopeError Unit
  | _, [] => .ok ()
  | rooted, s :: ss => do
    let chain ← t.rootedFrom rooted ∅ s
    t.checkRooted (chain ∪ rooted) ss

/-- Accepts tables that fit the arena, and reports the first failure of others. -/
def check (t : ScopeTables) (a : Arena) : Except ScopeError Unit := do
  a.checkPairs t.parents.entries
  t.checkDecls a
  a.checkPairs t.declScopes.entries
  a.checkPairs t.nameScopes.entries
  a.checkPairs t.bindings.entries
  t.checkRooted ∅ (a.idsOf (.category .scope))
  (a.idsOf (.category .decl)).forM fun decl => do
    unless t.declScopes.contains decl do throw (.unscoped decl)
  (a.idsOf (.only .varDecl)).forM fun var => do
    unless t.bindings.contains var do throw (.unbound var)

end ScopeTables

end TypedTree
