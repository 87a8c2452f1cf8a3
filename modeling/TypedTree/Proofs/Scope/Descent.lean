import TypedTree.Proofs.Arena.Pattern
import TypedTree.Proofs.Scope.Rejection
import TypedTree.Proofs.Scope.Resolvable

/-!
# How deep an arena is gone through

A well-built arena has no measure of depth besides the positions of its nodes, which fall on
the way down. So what goes through it makes no more calls inside each other than the position
where it starts, and one (`WellBuilt.visitsWithin_eq`). To say so, each traversal is given a
bound on its levels, and `TraversedByPosition` tells that it gives the same within that bound.
The positions rise on the way up as well, so a scope lies before its parent
(`index_lt_of_parent`), however often it is visited, and no chain of parents leads back to where
it started. Of the errors of the check this leaves those of `ScopeError.OfNesting`.
-/

namespace TypedTree

open Relation

namespace Arena

variable {γ : Type} {a : Arena} {enter : γ → NodeId → Option γ} {c : γ} {id : NodeId} {k : Class}

/-- `walk`, in the given number of levels. -/
def walkWithin (a : Arena) (stop : NodeId → Bool) (depth : Nat) (id : NodeId) :
    Except Fault (List NodeId) :=
  (a.visitsWithin (stopAt stop) depth () id).map (·.map Prod.snd)

/-- `walkAll`, with the number of levels that is given for each module. -/
def walkAllWithin (a : Arena) (stop : NodeId → Bool) (depth : NodeId → Nat) :
    Except Fault (List NodeId) := do
  let walks ← a.modules.mapM fun m => a.walkWithin stop (depth m.toAny) m.toAny
  return walks.flatten

def visitsBelowWithin (a : Arena) (enter : γ → NodeId → Option γ) (depth : Nat) (c : γ)
    (id : NodeId) : Except Fault (List (γ × NodeId)) := do
  let below ← (← a.children id).mapM (a.visitsWithin enter depth c)
  return below.flatten

def namesWithin (a : Arena) (depth : Nat) (id : Ident k) : Except Fault (List PatternName) :=
  match id.narrow? (.category .pattern) with
  | some p => (a.partsWithin depth ⟨[], p⟩).map (List.filterMap a.nameOf?)
  | none => .ok []

/-- `ScopeTables.recordModule`, in the given number of levels below the module. -/
def recordModuleWithin (a : Arena) (depth : NodeId → Nat) (t : ScopeTables)
    (m : IdentOf .moduleDecl) : Except Fault ScopeTables := do
  let scope : ScopeId := m.widen
  let visits ← a.visitsBelowWithin Surroundings.enter (depth m.toAny) ⟨scope, none⟩ m.toAny
  let t := { t with declScopes := t.declScopes.insert m.widen scope }
  return visits.foldl ScopeTables.record t

/-- `resolve`, with the number of levels that is given for what lies below each module. -/
def resolveWithin (a : Arena) (depth : NodeId → Nat) : Except Fault ScopeTables :=
  a.modules.foldlM (a.recordModuleWithin depth) ∅

/-- Whatever goes through the arena comes to its end, and makes no more calls inside each other
than the position of the node where it starts, and one. -/
structure TraversedByPosition (a : Arena) : Prop where
  walk : ∀ (stop : NodeId → Bool) (id : NodeId), id.index < a.size → ∃ l,
    a.walkWithin stop (id.index + 1) id = .ok l ∧ a.walk stop id = .ok l
  walkAll : ∀ stop : NodeId → Bool, ∃ order,
    a.walkAllWithin stop (·.index + 1) = .ok order ∧ a.walkAll stop = .ok order
  names : ∀ (k : Class) (id : Ident k), id.index < a.size → ∃ names,
    a.namesWithin (id.index + 1) id = .ok names ∧ a.names id = .ok names
  resolve : ∃ t, a.resolveWithin Ident.index = .ok t ∧ a.resolve = .ok t

namespace WellBuilt

variable (h : a.WellBuilt)

include h

theorem walkWithin_eq (hid : id.index < a.size) (stop : NodeId → Bool) :
    a.walkWithin stop (id.index + 1) id = a.walk stop id := by
  rw [walkWithin, h.visitsWithin_eq hid (Nat.lt_succ_self _), walk]

theorem walkAllWithin_eq (stop : NodeId → Bool) :
    a.walkAllWithin stop (·.index + 1) = a.walkAll stop := by
  have hwalks : (a.modules.mapM fun m => a.walkWithin stop (m.toAny.index + 1) m.toAny) =
      a.modules.mapM fun m => a.walk stop m.toAny :=
    mapM_congr_left fun m hm => h.walkWithin_eq (index_lt_of_contains (h.contains_module hm)) stop
  rw [walkAllWithin, walkAll, hwalks]

theorem visitsBelowWithin_eq (hid : id.index < a.size) (enter : γ → NodeId → Option γ) (c : γ) :
    a.visitsBelowWithin enter id.index c id = a.visitsBelow enter c id := by
  obtain ⟨children, hchildren, hmem⟩ := h.exists_children hid
  have hvisits : children.mapM (a.visitsWithin enter id.index c) =
      children.mapM (a.visits enter c) :=
    mapM_congr_left fun child hchild =>
      h.visitsWithin_eq (hmem child hchild).1 (hmem child hchild).2 enter c
  rw [visitsBelowWithin, visitsBelow, hchildren]
  exact congrArg (· >>= fun below => pure below.flatten) hvisits

theorem resolveWithin_eq : a.resolveWithin Ident.index = a.resolve := by
  refine foldlM_congr_left (fun m hm t => ?_) ∅
  have hm := index_lt_of_contains (h.contains_module hm)
  rw [recordModuleWithin, ScopeTables.recordModule, h.visitsBelowWithin_eq hm]

theorem namesWithin_eq {id : Ident k} (hid : id.index < a.size) :
    a.namesWithin (id.index + 1) id = a.names id := by
  unfold namesWithin
  cases hp : id.narrow? (.category .pattern) with
  | none => exact (names_of_narrow?_eq_none hp).symm
  | some p =>
      have hindex : p.index = id.index := (Ident.narrow?_eq_some_iff.1 hp).2
      have hparts : a.partsWithin (id.index + 1) ⟨[], p⟩ = a.partsWithin (a.size + 1) ⟨[], p⟩ :=
        h.descends_partsOf.preorderWithin_eq (hindex ▸ hid) (hindex ▸ Nat.lt_succ_self _)
          (hindex ▸ Nat.lt_succ_of_lt hid)
      rw [names_of_narrow? hp, names_eq_namesFrom, namesFrom, ← hparts]

theorem exists_names_of_lt {id : Ident k} (hid : id.index < a.size) :
    ∃ names, a.names id = .ok names := by
  cases hp : id.narrow? (.category .pattern) with
  | none => exact ⟨[], names_of_narrow?_eq_none hp⟩
  | some p =>
      have hindex : p.index = id.index := (Ident.narrow?_eq_some_iff.1 hp).2
      rw [names_of_narrow? hp]
      exact h.exists_names (hindex ▸ hid)

theorem traversedByPosition : a.TraversedByPosition where
  walk stop id hid := by
    obtain ⟨visits, hvisits⟩ := h.exists_visits_of_lt hid (stopAt stop) ()
    rw [h.walkWithin_eq hid, walk, hvisits]
    exact ⟨_, rfl, rfl⟩
  walkAll stop := by
    rw [h.walkAllWithin_eq]
    obtain ⟨order, horder⟩ := h.exists_walkAll stop
    exact ⟨order, horder, horder⟩
  names k id hid := by
    rw [h.namesWithin_eq hid]
    obtain ⟨names, hnames⟩ := h.exists_names_of_lt hid
    exact ⟨names, hnames, hnames⟩
  resolve := by
    rw [h.resolveWithin_eq]
    obtain ⟨log, hlog⟩ := h.exists_scopeLog
    have hresolve : a.resolve = .ok (.ofLog log) := resolve_eq_ok_iff.2 ⟨log, hlog, rfl⟩
    exact ⟨_, hresolve, hresolve⟩

end WellBuilt

end Arena

/-- The errors that tell of a node which the nesting puts nowhere, or in two places. -/
inductive ScopeError.OfNesting : ScopeError → Prop
  | orphan (scope : ScopeId) : OfNesting (.orphan scope)
  | scopeMismatch (decl : DeclId) (listedIn : ScopeId) (scopedIn : Option ScopeId) :
      OfNesting (.scopeMismatch decl listedIn scopedIn)
  | unscoped (decl : DeclId) : OfNesting (.unscoped decl)
  | unbound (var : IdentOf .varDecl) : OfNesting (.unbound var)

namespace ScopeTables

variable {a : Arena} {log : List Event} {s q : ScopeId} {e : ScopeError}

section

variable (h : a.WellBuilt) (hlog : a.scopeLog = .ok log)

include h hlog

theorem index_lt_of_parent (hq : (ofLog log).parents.get? s = some q) : s.index < q.index := by
  obtain ⟨j, hj, hindex⟩ := Table.mem_of_get?_writeAll hq
  obtain ⟨e, he, hentry⟩ := List.mem_filterMap.1 hj
  obtain ⟨around, rfl, rfl⟩ := Event.parent?_eq_some_iff.1 hentry
  have hlt := h.index_lt_of_above (encloses_of_mem_scopeLog h hlog he).scope
  rw [← Ident.index_eq, ← hindex]
  exact hlt

theorem index_lt_of_above_parent (hq : TransGen (ofLog log).HasParent s q) :
    s.index < q.index := by
  induction hq with
  | single hq => exact index_lt_of_parent h hlog hq
  | tail _ hq ih => exact Nat.lt_trans ih (index_lt_of_parent h hlog hq)

/-- Of all errors three are not true of the tables that the nesting gives. -/
theorem ofNesting_of_check (herror : (ofLog log).check a = .error e) : e.OfNesting := by
  have htrue := trueOf_of_check herror
  have hknown := contains_of_mem_idents h hlog
  cases e with
  | cycle s => exact absurd (index_lt_of_above_parent h hlog htrue) (Nat.lt_irrefl _)
  | orphan s => exact .orphan s
  | scopeMismatch d listedIn scopedIn => exact .scopeMismatch d listedIn scopedIn
  | unscoped d => exact .unscoped d
  | unbound v => exact .unbound v
  | kindMismatch id found =>
      obtain ⟨hid, hfound, hne⟩ := htrue
      have hkind := Arena.contains_iff_kindAt?.1 (hknown id hid)
      exact absurd (Option.some.inj (hfound.symm.trans hkind)) hne
  | foreign id =>
      obtain ⟨hid, hle⟩ := htrue
      exact absurd (Arena.index_lt_of_contains (hknown id hid)) (Nat.not_lt.2 hle)

end

end ScopeTables

namespace ScopedProgram

variable {a : Arena}

/-- A well-built arena is gone through to the end, in no more levels than positions allow. A
resolution gives every scope a parent after it, and if the tables are rejected, it is for a node
which the nesting puts nowhere, or in two places. -/
theorem resolution_of_wellBuilt (h : a.WellBuilt) :
    a.TraversedByPosition ∧
      (∃ t, a.resolve = .ok t ∧ ∀ s q, t.parents.get? s = some q → s.index < q.index) ∧
      ∀ e, ofArena? a = .error e → ∃ error, e = .tables error ∧ error.OfNesting := by
  obtain ⟨log, hlog⟩ := h.exists_scopeLog
  have hresolve : a.resolve = .ok (.ofLog log) := Arena.resolve_eq_ok_iff.2 ⟨log, hlog, rfl⟩
  refine ⟨h.traversedByPosition, ⟨_, hresolve, fun s q => ScopeTables.index_lt_of_parent h hlog⟩,
    fun e he => ?_⟩
  rw [ofArena?_of_resolve hresolve] at he
  cases hmade : ofTables? a (.ofLog log) with
  | ok p =>
      rw [hmade] at he
      cases he
  | error error =>
      rw [hmade] at he
      cases he
      exact ⟨error, rfl, ScopeTables.ofNesting_of_check h hlog (ofTables?_eq_error_iff.1 hmade)⟩

/-- Two translation units that declare one function; the first of them declares a module too. -/
def sharedUnits : Arena :=
  [⟨.functionDecl, ({
      name := none
      genericParameters := []
      explicitCaptures := []
      receiver := none
      parameters := []
      body := none } : FunctionDecl)⟩,
    ⟨.moduleDecl, ({ name := .empty, sources := [] } : ModuleDecl)⟩,
    ⟨.translationUnit, ({
      decls := [(IdentOf.ofIndex .functionDecl 0).widen,
        (IdentOf.ofIndex .moduleDecl 1).widen] } : TranslationUnit)⟩,
    ⟨.translationUnit, ({
      decls := [(IdentOf.ofIndex .functionDecl 0).widen] } : TranslationUnit)⟩,
    ⟨.moduleDecl, ({
      name := .empty
      sources := [.ofIndex .translationUnit 2, .ofIndex .translationUnit 3] } : ModuleDecl)⟩].foldl
    (fun a n => (a.insert n .dummy).2) ∅

/-- What a resolution of `sharedUnits` meets. The second visit of the function overwrites its
scope, and the list of the first unit keeps it. -/
def sharedUnitsLog : List ScopeTables.Event :=
  let module : ScopeId := (IdentOf.ofIndex .moduleDecl 4).widen
  let first : ScopeId := (IdentOf.ofIndex .translationUnit 2).widen
  let second : ScopeId := (IdentOf.ofIndex .translationUnit 3).widen
  [.module (.ofIndex .moduleDecl 1),
    .module (.ofIndex .moduleDecl 4),
    .visit ⟨module, none⟩ (.of .translationUnit 2),
    .visit ⟨first, none⟩ (.of .functionDecl 0),
    .visit ⟨first, none⟩ (.of .moduleDecl 1),
    .visit ⟨module, none⟩ (.of .translationUnit 3),
    .visit ⟨second, none⟩ (.of .functionDecl 0)]

theorem wellBuilt_sharedUnits : sharedUnits.WellBuilt := by
  unfold sharedUnits
  repeat refine .insert ?_ (by decide)
  exact .empty

theorem scopeLog_sharedUnits : sharedUnits.scopeLog = .ok sharedUnitsLog := by
  unfold Arena.scopeLog Arena.moduleLog Arena.visitsBelow
  simp only [Arena.visits_eq_visitsWithin]
  rfl

theorem exists_error_sharedUnits : ∃ e, ofArena? sharedUnits = .error e := by
  cases hp : ofArena? sharedUnits with
  | error e => exact ⟨e, rfl⟩
  | ok p =>
      obtain ⟨log, hlog, hfits, -⟩ := ofArena?_eq_ok_iff_scopeLog.1 hp
      obtain rfl := Except.ok.inj (scopeLog_sharedUnits.symm.trans hlog)
      have hmisfit : ¬ (ScopeTables.ofLog sharedUnitsLog).Fits sharedUnits := by decide +kernel
      exact absurd hfits hmisfit

theorem resolution_of_wellBuilt_sharedUnits :
    sharedUnits.WellBuilt ∧ sharedUnits.TraversedByPosition ∧
      (∃ t, sharedUnits.resolve = .ok t ∧ ∀ s q, t.parents.get? s = some q → s.index < q.index) ∧
      ∃ error, ofArena? sharedUnits = .error (.tables error) ∧ error.OfNesting := by
  obtain ⟨htraversed, hparents, herror⟩ := resolution_of_wellBuilt wellBuilt_sharedUnits
  obtain ⟨e, he⟩ := exists_error_sharedUnits
  obtain ⟨error, rfl, hnesting⟩ := herror e he
  exact ⟨wellBuilt_sharedUnits, htraversed, hparents, error, he, hnesting⟩

end ScopedProgram

end TypedTree
