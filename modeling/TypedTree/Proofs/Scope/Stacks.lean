import TypedTree.Proofs.Acceptance
import TypedTree.Scope.Resolution

/-!
# Resolution with stacks

A `Resolver` keeps the scopes and the bindings around the node that it visits on two stacks.
It pushes on them before it goes down and pops when it has come up again, so every visit
leaves them as they were, and while it lasts their tops are the `Surroundings` that a walk
hands down (`visit_eq`). So to resolve an arena with stacks is to resolve it with what is
handed down: the tables are the same, or the failure is (`resolveWithStacks_eq`).
-/

namespace TypedTree

/-- The tables so far, and what surrounds the current node, the innermost first. -/
structure Resolver where
  tables : ScopeTables
  scopes : List ScopeId
  bindings : List (IdentOf .bindingDecl)

namespace Resolver

/-- A declaration is listed in the scope on top of the stack and owned by it. -/
def declare (r : Resolver) (decl : DeclId) : Resolver :=
  match r.scopes with
  | [] => r
  | scope :: _ =>
    { r with tables :=
      { r.tables with
        decls := r.tables.decls.update scope fun owned => owned.getD [] ++ [decl]
        declScopes := r.tables.declScopes.insert decl scope } }

/-- A variable is introduced by the binding on top of the stack. -/
def introduce (r : Resolver) (var : IdentOf .varDecl) : Resolver :=
  match r.bindings with
  | [] => r
  | binding :: _ =>
    { r with tables := { r.tables with bindings := r.tables.bindings.insert var binding } }

/-- A name is looked up in the scope on top of the stack. -/
def mention (r : Resolver) (name : IdentOf .nameExpr) : Resolver :=
  match r.scopes with
  | [] => r
  | scope :: _ =>
    { r with tables := { r.tables with nameScopes := r.tables.nameScopes.insert name scope } }

/-- A scope has the one on top of the stack as its parent. -/
def nest (r : Resolver) (scope : ScopeId) : Resolver :=
  match r.scopes with
  | [] => r
  | parent :: _ =>
    { r with tables := { r.tables with parents := r.tables.parents.insert scope parent } }

def pushBinding (r : Resolver) (b : IdentOf .bindingDecl) : Resolver :=
  { r with bindings := b :: r.bindings }

def pushScope (r : Resolver) (s : ScopeId) : Resolver := { r with scopes := s :: r.scopes }

/-- Records a node, then puts it on the stacks that it belongs on. -/
def enter (r : Resolver) (id : NodeId) : Resolver :=
  let r := (id.narrow? (.category .decl)).elim r r.declare
  let r := (id.narrow? (.only .varDecl)).elim r r.introduce
  let r := (id.narrow? (.only .nameExpr)).elim r r.mention
  let r := (id.narrow? (.only .bindingDecl)).elim r r.pushBinding
  (id.narrow? (.category .scope)).elim r fun s => (r.nest s).pushScope s

/-- Takes a node off the stacks again. -/
def leave (r : Resolver) (id : NodeId) : Resolver :=
  { r with
    scopes := if (id.narrow? (.category .scope)).isSome then r.scopes.tail else r.scopes
    bindings := if (id.narrow? (.only .bindingDecl)).isSome then r.bindings.tail else r.bindings }

/-- Visits a node and those below it. The visit fails below the given number of levels. -/
def visit (a : Arena) : Nat → Resolver → NodeId → Except Fault Resolver
  | 0, _, id => .error (.endlessWalk id)
  | depth + 1, r, id => do
    let r ← (← a.children id).foldlM (visit a depth) (r.enter id)
    return r.leave id

/-- Visits the nodes below a module, which is its own scope. -/
def visitModule (a : Arena) (r : Resolver) (m : IdentOf .moduleDecl) : Except Fault Resolver := do
  let tables := { r.tables with declScopes := r.tables.declScopes.insert m.widen m.widen }
  let r ← (← a.children m.toAny).foldlM (visit a (a.size + 1))
    ({ r with tables }.pushScope m.widen)
  return { r with scopes := r.scopes.tail }

/-- The stacks say what surrounds the current node. -/
structure Stands (r : Resolver) (around : Surroundings) : Prop where
  scope : r.scopes.head? = some around.scope
  binding : r.bindings.head? = around.binding

/-- Records visits, which leaves the stacks as they are. -/
def record (r : Resolver) (visits : List (Surroundings × NodeId)) : Resolver :=
  { r with tables := visits.foldl ScopeTables.record r.tables }

variable {a : Arena} {r : Resolver} {around inner : Surroundings} {id : NodeId}

theorem enter_eq (h : r.Stands around) (id : NodeId) :
    r.enter id =
      { tables := r.tables.record (around, id)
        scopes := (id.narrow? (.category .scope)).toList ++ r.scopes
        bindings := (id.narrow? (.only .bindingDecl)).toList ++ r.bindings } := by
  obtain ⟨tables, scopes, bindings⟩ := r
  obtain ⟨scope, binding⟩ := around
  obtain ⟨scopes, rfl⟩ : ∃ rest, scopes = scope :: rest := List.head?_eq_some_iff.1 h.scope
  obtain rfl : bindings.head? = binding := h.binding
  simp only [enter, ScopeTables.record]
  -- each class that the node may be of writes a table of its own
  cases id.narrow? (.category .decl) <;> cases id.narrow? (.only .varDecl) <;>
    cases id.narrow? (.only .nameExpr) <;> cases id.narrow? (.only .bindingDecl) <;>
      cases id.narrow? (.category .scope) <;> cases bindings <;> rfl

theorem Stands.enter (h : r.Stands around) (hinner : around.enter id = some inner) :
    (r.enter id).Stands inner := by
  cases hinner
  rw [enter_eq h]
  constructor
  · cases id.narrow? (.category .scope) with
    | none => exact h.scope
    | some s => rfl
  · cases id.narrow? (.only .bindingDecl) with
    | none => exact h.binding
    | some b => rfl

theorem Stands.record (h : r.Stands around) (visits : List (Surroundings × NodeId)) :
    (r.record visits).Stands around :=
  ⟨h.scope, h.binding⟩

/-- After all below a node is recorded the stacks are what they were before the node. -/
theorem leave_record_enter (h : r.Stands around) (visits : List (Surroundings × NodeId)) :
    ((r.enter id).record visits).leave id = r.record ((around, id) :: visits) := by
  rw [enter_eq h]
  unfold leave Resolver.record
  cases id.narrow? (.category .scope) <;> cases id.narrow? (.only .bindingDecl) <;> rfl

theorem foldlM_eq (h : r.Stands around) {visit : Resolver → NodeId → Except Fault Resolver}
    {visits : NodeId → Except Fault (List (Surroundings × NodeId))}
    (hvisit : ∀ {r}, Stands r around → ∀ id, visit r id = (visits id).map r.record)
    (ids : List NodeId) :
    ids.foldlM visit r = (ids.mapM visits).map fun below => r.record below.flatten :=
  foldlM_eq_map_mapM (Stands · around) Resolver.record hvisit Stands.record (fun _ => rfl)
    (fun r l l' => by simp only [Resolver.record, List.foldl_append]) h ids

/-- A visit records what a walk visits that hands down the tops of the stacks. -/
theorem visit_eq (h : r.Stands around) (depth : Nat) (id : NodeId) :
    visit a depth r id =
      (a.visitsWithin Surroundings.enter depth around id).map r.record := by
  induction depth generalizing r around id with
  | zero => rfl
  | succ depth ih =>
      obtain ⟨inner, hinner⟩ : ∃ inner, around.enter id = some inner := ⟨_, rfl⟩
      have hbelow (ids : List NodeId) := foldlM_eq (h.enter hinner) (fun h id => ih h id) ids
      rw [Arena.visitsWithin_of_enter_eq_some hinner, visit]
      cases a.children id with
      | error e => rfl
      | ok children =>
          simp only [bind, Except.bind, hbelow]
          cases children.mapM (a.visitsWithin Surroundings.enter depth inner) with
          | error e => rfl
          | ok below => exact congrArg Except.ok (leave_record_enter h below.flatten)

theorem visitModule_eq (h : r.bindings = []) (m : IdentOf .moduleDecl) :
    visitModule a r m =
      (ScopeTables.recordModule a r.tables m).map fun tables => { r with tables } := by
  have hstands : ({ r with
      tables := { r.tables with declScopes := r.tables.declScopes.insert m.widen m.widen }
      }.pushScope m.widen).Stands ⟨m.widen, none⟩ := ⟨rfl, congrArg List.head? h⟩
  have hbelow (ids : List NodeId) :=
    foldlM_eq hstands (fun h id => visit_eq (a := a) h (a.size + 1) id) ids
  unfold visitModule ScopeTables.recordModule Arena.visitsBelow
  rw [Arena.visits_eq_visitsWithin]
  cases a.children m.toAny with
  | error e => rfl
  | ok children =>
      simp only [bind, Except.bind, hbelow]
      cases children.mapM
          (a.visitsWithin Surroundings.enter (a.size + 1) ⟨m.widen, none⟩) with
      | error e => rfl
      | ok below => rfl

end Resolver

namespace Arena

open Resolver

/-- Resolves with stacks, which are empty before every module. -/
def resolveWithStacks (a : Arena) : Except Fault Resolver :=
  a.modules.foldlM (visitModule a) ⟨∅, [], []⟩

/-- The stacks are empty in the end, and the tables are those of a resolution without them. -/
theorem resolveWithStacks_eq (a : Arena) :
    a.resolveWithStacks = a.resolve.map fun tables => ⟨tables, [], []⟩ := by
  have hmodules (ms : List (IdentOf .moduleDecl)) (t : ScopeTables) :
      ms.foldlM (visitModule a) ⟨t, [], []⟩ =
        (ms.foldlM (ScopeTables.recordModule a) t).map fun tables => ⟨tables, [], []⟩ := by
    induction ms generalizing t with
    | nil => rfl
    | cons m ms ih =>
        rw [List.foldlM_cons, List.foldlM_cons, visitModule_eq rfl]
        cases ScopeTables.recordModule a t m with
        | error e => rfl
        | ok t' => exact ih t'
  exact hmodules a.modules ∅

end Arena

end TypedTree
