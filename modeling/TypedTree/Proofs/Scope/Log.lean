import TypedTree.Proofs.Arena.Walk
import TypedTree.Proofs.Index.Writes
import TypedTree.Scope.Resolution

/-!
# The log of a resolution

A resolution meets the modules and the visits below them, one `Event` after another. Each
of the five tables is written from the events alone: `ofLog` gives the tables for a log,
`Arena.scopeLog` the log of an arena, and `resolve_eq_ok_iff` says that a resolution gives
the tables for its log. The nodes of the events are those of a walk of the whole arena,
in the same order (`walkAll_of_scopeLog`).
-/

namespace TypedTree

open Relation

open scoped List

namespace Surroundings

variable {around inner : Surroundings} {id : NodeId} {b : IdentOf .bindingDecl}

theorem isSome_enter (around : Surroundings) (id : NodeId) : (around.enter id).isSome := rfl

theorem scope_of_enter (h : around.enter id = some inner) :
    inner.scope.toAny = id ∨
      id.narrow? (.category .scope) = none ∧ inner.scope = around.scope := by
  cases h
  cases hs : id.narrow? (.category .scope) with
  | none => exact .inr ⟨rfl, rfl⟩
  | some s => exact .inl (Ident.narrow?_eq_some_iff_toAny.1 hs)

theorem binding_of_enter (h : around.enter id = some inner) (hb : b ∈ inner.binding) :
    b.toAny = id ∨ id.narrow? (.only .bindingDecl) = none ∧ b ∈ around.binding := by
  cases h
  cases hid : id.narrow? (.only .bindingDecl) with
  | none => exact .inr ⟨rfl, by simpa [hid] using hb⟩
  | some b' =>
      obtain rfl : b' = b := by simpa [hid] using hb
      exact .inl (Ident.narrow?_eq_some_iff_toAny.1 hid)

end Surroundings

namespace ScopeTables

/-- What a resolution meets: a module, or a node below one with its surroundings. -/
inductive Event where
  | module (m : IdentOf .moduleDecl)
  | visit (around : Surroundings) (id : NodeId)

namespace Event

def node : Event → NodeId
  | .module m => m.toAny
  | .visit _ id => id

def parent? : Event → Option (ScopeId × ScopeId)
  | .module _ => none
  | .visit around id => (id.narrow? (.category .scope)).map fun s => (s, around.scope)

def listed? : Event → Option (ScopeId × DeclId)
  | .module _ => none
  | .visit around id => (id.narrow? (.category .decl)).map fun d => (around.scope, d)

def declScope? : Event → Option (DeclId × ScopeId)
  | .module m => some (m.widen, m.widen)
  | .visit around id => (id.narrow? (.category .decl)).map fun d => (d, around.scope)

def nameScope? : Event → Option (IdentOf .nameExpr × ScopeId)
  | .module _ => none
  | .visit around id => (id.narrow? (.only .nameExpr)).map fun n => (n, around.scope)

def binding? : Event → Option (IdentOf .varDecl × IdentOf .bindingDecl)
  | .module _ => none
  | .visit around id =>
    (id.narrow? (.only .varDecl)).bind fun v => around.binding.map fun b => (v, b)

variable {e : Event}

theorem parent?_eq_some_iff {s q : ScopeId} :
    e.parent? = some (s, q) ↔ ∃ around, e = .visit around s.toAny ∧ around.scope = q := by
  cases e with
  | module m => simp [parent?]
  | visit around id =>
      simp only [parent?, Option.map_eq_some_iff, Ident.narrow?_eq_some_iff_toAny]
      grind

theorem listed?_eq_some_iff {s : ScopeId} {d : DeclId} :
    e.listed? = some (s, d) ↔ ∃ around, e = .visit around d.toAny ∧ around.scope = s := by
  cases e with
  | module m => simp [listed?]
  | visit around id =>
      simp only [listed?, Option.map_eq_some_iff, Ident.narrow?_eq_some_iff_toAny]
      grind

theorem declScope?_eq_some_iff {d : DeclId} {s : ScopeId} :
    e.declScope? = some (d, s) ↔
      (∃ m : IdentOf .moduleDecl, e = .module m ∧ m.widen = d ∧ m.widen = s) ∨
        ∃ around, e = .visit around d.toAny ∧ around.scope = s := by
  cases e with
  | module m => simp [declScope?]
  | visit around id =>
      simp only [declScope?, Option.map_eq_some_iff, Ident.narrow?_eq_some_iff_toAny]
      grind

theorem nameScope?_eq_some_iff {n : IdentOf .nameExpr} {s : ScopeId} :
    e.nameScope? = some (n, s) ↔ ∃ around, e = .visit around n.toAny ∧ around.scope = s := by
  cases e with
  | module m => simp [nameScope?]
  | visit around id =>
      simp only [nameScope?, Option.map_eq_some_iff, Ident.narrow?_eq_some_iff_toAny]
      grind

theorem binding?_eq_some_iff {v : IdentOf .varDecl} {b : IdentOf .bindingDecl} :
    e.binding? = some (v, b) ↔
      ∃ around, e = .visit around v.toAny ∧ around.binding = some b := by
  cases e with
  | module m => simp [binding?]
  | visit around id =>
      simp only [binding?, Option.bind_eq_some_iff, Option.map_eq_some_iff,
        Ident.narrow?_eq_some_iff_toAny]
      grind

theorem node_of_parent? {s q : ScopeId} (h : e.parent? = some (s, q)) : e.node = s.toAny := by
  obtain ⟨around, rfl, -⟩ := parent?_eq_some_iff.1 h
  rfl

theorem node_of_declScope? {d : DeclId} {s : ScopeId} (h : e.declScope? = some (d, s)) :
    e.node = d.toAny := by
  rcases declScope?_eq_some_iff.1 h with ⟨m, rfl, rfl, -⟩ | ⟨around, rfl, -⟩
  · rfl
  · rfl

theorem node_of_nameScope? {n : IdentOf .nameExpr} {s : ScopeId}
    (h : e.nameScope? = some (n, s)) : e.node = n.toAny := by
  obtain ⟨around, rfl, -⟩ := nameScope?_eq_some_iff.1 h
  rfl

theorem node_of_binding? {v : IdentOf .varDecl} {b : IdentOf .bindingDecl}
    (h : e.binding? = some (v, b)) : e.node = v.toAny := by
  obtain ⟨around, rfl, -⟩ := binding?_eq_some_iff.1 h
  rfl

end Event

def recordEvent (t : ScopeTables) : Event → ScopeTables
  | .module m => { t with declScopes := t.declScopes.insert m.widen m.widen }
  | .visit around id => t.record (around, id)

/-- The tables for a log of events. -/
def ofLog (log : List Event) : ScopeTables where
  parents := (∅ : Table _ _).writeAll (log.filterMap Event.parent?)
  decls := (∅ : Table _ _).pushAll (log.filterMap Event.listed?)
  declScopes := (∅ : Table _ _).writeAll (log.filterMap Event.declScope?)
  nameScopes := (∅ : Table _ _).writeAll (log.filterMap Event.nameScope?)
  bindings := (∅ : Table _ _).writeAll (log.filterMap Event.binding?)

theorem recordEvent_eq (t : ScopeTables) (e : Event) :
    t.recordEvent e =
      { parents := t.parents.writeAll e.parent?.toList
        decls := t.decls.pushAll e.listed?.toList
        declScopes := t.declScopes.writeAll e.declScope?.toList
        nameScopes := t.nameScopes.writeAll e.nameScope?.toList
        bindings := t.bindings.writeAll e.binding?.toList } := by
  cases e with
  | module m => rfl
  | visit around id =>
      simp only [recordEvent, record, Event.parent?, Event.listed?, Event.declScope?,
        Event.nameScope?, Event.binding?, mk.injEq]
      refine ⟨?_, ?_, ?_, ?_, ?_⟩
      · cases id.narrow? (.category .scope) <;> rfl
      · cases id.narrow? (.category .decl) <;> rfl
      · cases id.narrow? (.category .decl) <;> rfl
      · cases id.narrow? (.only .nameExpr) <;> rfl
      · cases id.narrow? (.only .varDecl) <;> cases around.binding <;> rfl

theorem foldl_recordEvent (t : ScopeTables) (log : List Event) :
    log.foldl recordEvent t =
      { parents := t.parents.writeAll (log.filterMap Event.parent?)
        decls := t.decls.pushAll (log.filterMap Event.listed?)
        declScopes := t.declScopes.writeAll (log.filterMap Event.declScope?)
        nameScopes := t.nameScopes.writeAll (log.filterMap Event.nameScope?)
        bindings := t.bindings.writeAll (log.filterMap Event.binding?) } := by
  induction log generalizing t with
  | nil => rfl
  | cons e log ih =>
      rw [List.foldl_cons, ih, recordEvent_eq]
      simp only [Table.writeAll_filterMap_cons, Table.pushAll_filterMap_cons]

end ScopeTables

namespace Arena

open ScopeTables

variable {a : Arena} {t : ScopeTables} {log : List Event} {m : IdentOf .moduleDecl}
  {around : Surroundings} {id : NodeId}

def moduleLog (a : Arena) (m : IdentOf .moduleDecl) : Except Fault (List Event) :=
  (a.visitsBelow Surroundings.enter ⟨m.widen, none⟩ m.toAny).map fun visits =>
    .module m :: visits.map fun v => .visit v.1 v.2

def scopeLog (a : Arena) : Except Fault (List Event) := do
  let logs ← a.modules.mapM a.moduleLog
  return logs.flatten

theorem moduleLog_eq_ok_iff :
    a.moduleLog m = .ok log ↔
      ∃ visits, a.visitsBelow Surroundings.enter ⟨m.widen, none⟩ m.toAny = .ok visits ∧
        log = .module m :: visits.map fun v => .visit v.1 v.2 := by
  unfold moduleLog
  cases a.visitsBelow Surroundings.enter ⟨m.widen, none⟩ m.toAny with
  | error e => simp [Except.map]
  | ok visits => simp [Except.map, eq_comm]

theorem scopeLog_eq_ok_iff :
    a.scopeLog = .ok log ↔
      ∃ logs : List (List Event), a.modules.map a.moduleLog = logs.map .ok ∧
        log = logs.flatten := by
  simp only [scopeLog, bind_eq_ok_iff, mapM_eq_ok_iff]
  refine exists_congr fun logs => and_congr_right fun _ => ?_
  exact ⟨fun h => (Except.ok.inj h).symm, fun h => h ▸ rfl⟩

theorem recordModule_eq (a : Arena) (t : ScopeTables) (m : IdentOf .moduleDecl) :
    recordModule a t m = (a.moduleLog m).map fun log => log.foldl recordEvent t := by
  simp only [recordModule, moduleLog]
  cases a.visitsBelow Surroundings.enter ⟨m.widen, none⟩ m.toAny with
  | error e => rfl
  | ok visits =>
      simp only [Except.map, bind, Except.bind, pure, Except.pure, List.foldl_cons,
        List.foldl_map]
      rfl

theorem foldlM_recordModule_eq_ok_iff {ms : List (IdentOf .moduleDecl)} {t' : ScopeTables} :
    ms.foldlM (recordModule a) t = .ok t' ↔
      ∃ logs : List (List Event), ms.map a.moduleLog = logs.map .ok ∧
        t' = logs.flatten.foldl recordEvent t := by
  induction ms generalizing t with
  | nil =>
      constructor
      · intro h
        cases h
        exact ⟨[], rfl, rfl⟩
      · rintro ⟨logs, hlogs, rfl⟩
        obtain rfl := List.map_eq_nil_iff.1 hlogs.symm
        rfl
  | cons m ms ih =>
      rw [List.foldlM_cons, recordModule_eq, bind_eq_ok_iff, List.map_cons]
      constructor
      · rintro ⟨t₁, hm, hms⟩
        cases hlog : a.moduleLog m with
        | error e =>
            rw [hlog] at hm
            cases hm
        | ok log =>
            rw [hlog] at hm
            cases hm
            obtain ⟨logs, hlogs, rfl⟩ := ih.1 hms
            exact ⟨log :: logs, by rw [List.map_cons, hlogs],
              by rw [List.flatten_cons, List.foldl_append]⟩
      · rintro ⟨logs, hlogs, rfl⟩
        obtain ⟨log, logs, rfl, hlog, hrest⟩ := List.map_eq_cons_iff.1 hlogs.symm
        refine ⟨log.foldl recordEvent t, by rw [← hlog]; rfl, ih.2 ⟨logs, hrest.symm, ?_⟩⟩
        rw [List.flatten_cons, List.foldl_append]

theorem resolve_eq_ok_iff :
    a.resolve = .ok t ↔ ∃ log, a.scopeLog = .ok log ∧ t = ofLog log := by
  have hofLog (log : List Event) : ofLog log = log.foldl recordEvent ∅ :=
    (foldl_recordEvent ∅ log).symm
  simp only [resolve, foldlM_recordModule_eq_ok_iff, scopeLog_eq_ok_iff, hofLog]
  constructor
  · rintro ⟨logs, hlogs, rfl⟩
    exact ⟨_, ⟨logs, hlogs, rfl⟩, rfl⟩
  · rintro ⟨_, ⟨logs, hlogs, rfl⟩, rfl⟩
    exact ⟨logs, hlogs, rfl⟩

/-- A resolution goes the way of a walk of all modules. -/
theorem WellBuilt.walkAll_of_scopeLog (h : a.WellBuilt) (hlog : a.scopeLog = .ok log) :
    a.walkAll (fun _ => false) = .ok (log.map Event.node) := by
  obtain ⟨logs, hlogs, rfl⟩ := scopeLog_eq_ok_iff.1 hlog
  simp only [walkAll, bind_eq_ok_iff, mapM_eq_ok_iff]
  refine ⟨logs.map (List.map Event.node), ?_, by rw [List.map_flatten]; rfl⟩
  have hwalk : ∀ m ∈ a.modules, a.walk (fun _ => false) m.toAny =
      (a.moduleLog m).map (List.map Event.node) := by
    intro m hm
    obtain ⟨log, -, hlog⟩ := (exists_of_map_eq_map_ok hlogs).1 m hm
    obtain ⟨visits, hvisits, rfl⟩ := moduleLog_eq_ok_iff.1 hlog
    rw [hlog, h.walk_of_visitsBelow (h.contains_module hm) Surroundings.isSome_enter hvisits]
    simp [Except.map, Event.node, Function.comp_def]
  rw [List.map_congr_left hwalk]
  exact map_of_map_eq_map_ok hlogs _

theorem module_mem_scopeLog_iff (hlog : a.scopeLog = .ok log) :
    .module m ∈ log ↔ m ∈ a.modules := by
  obtain ⟨logs, hlogs, rfl⟩ := scopeLog_eq_ok_iff.1 hlog
  obtain ⟨hleft, hright⟩ := exists_of_map_eq_map_ok hlogs
  rw [List.mem_flatten]
  constructor
  · rintro ⟨l, hl, hm⟩
    obtain ⟨m', hm', hlog⟩ := hright l hl
    obtain ⟨visits, -, rfl⟩ := moduleLog_eq_ok_iff.1 hlog
    obtain rfl : m = m' := by simpa using hm
    exact hm'
  · intro hm
    obtain ⟨l, hl, hlog⟩ := hleft m hm
    obtain ⟨visits, -, rfl⟩ := moduleLog_eq_ok_iff.1 hlog
    exact ⟨_, hl, List.mem_cons_self⟩

/-- A well-built arena has a log: a walk below one of its modules comes to an end. -/
theorem WellBuilt.exists_scopeLog (h : a.WellBuilt) : ∃ log, a.scopeLog = .ok log := by
  have hmodules : ∀ m ∈ a.modules, ∃ log, a.moduleLog m = .ok log := by
    intro m hm
    obtain ⟨visits, hvisits⟩ :=
      h.exists_visitsBelow (h.contains_module hm) Surroundings.enter ⟨m.widen, none⟩
    exact ⟨_, moduleLog_eq_ok_iff.2 ⟨visits, hvisits, rfl⟩⟩
  obtain ⟨logs, hlogs⟩ := exists_map_eq_map_ok hmodules
  exact ⟨_, scopeLog_eq_ok_iff.2 ⟨logs, hlogs, rfl⟩⟩

theorem WellBuilt.visit_mem_scopeLog_iff (h : a.WellBuilt) (hlog : a.scopeLog = .ok log) :
    .visit around id ∈ log ↔ ∃ m ∈ a.modules, ∃ child, a.HasChild m.toAny child ∧
      ReflTransGen (a.VisitStep Surroundings.enter) (⟨m.widen, none⟩, child) (around, id) := by
  obtain ⟨logs, hlogs, rfl⟩ := scopeLog_eq_ok_iff.1 hlog
  obtain ⟨hleft, hright⟩ := exists_of_map_eq_map_ok hlogs
  have hmem {m : IdentOf .moduleDecl} {l : List Event} (hm : m ∈ a.modules)
      (hl : a.moduleLog m = .ok l) :
      .visit around id ∈ l ↔ ∃ child, a.HasChild m.toAny child ∧
        ReflTransGen (a.VisitStep Surroundings.enter) (⟨m.widen, none⟩, child) (around, id) := by
    obtain ⟨visits, hvisits, rfl⟩ := moduleLog_eq_ok_iff.1 hl
    rw [← h.mem_visitsBelow_iff (h.contains_module hm) hvisits]
    simp
  rw [List.mem_flatten]
  constructor
  · rintro ⟨l, hl, hvisit⟩
    obtain ⟨m, hm, hlog⟩ := hright l hl
    exact ⟨m, hm, (hmem hm hlog).1 hvisit⟩
  · rintro ⟨m, hm, hvisit⟩
    obtain ⟨l, hl, hlog⟩ := hleft m hm
    exact ⟨l, hl, (hmem hm hlog).2 hvisit⟩

/-- What is visited at and below a node is one piece of the log. -/
theorem WellBuilt.exists_visits_of_mem_scopeLog (h : a.WellBuilt) (hlog : a.scopeLog = .ok log)
    (hvisit : .visit around id ∈ log) :
    ∃ visits, a.visits Surroundings.enter around id = .ok visits ∧
      (visits.map fun v => Event.visit v.1 v.2) <:+: log := by
  obtain ⟨logs, hlogs, rfl⟩ := scopeLog_eq_ok_iff.1 hlog
  obtain ⟨l, hl, hmem⟩ := List.mem_flatten.1 hvisit
  obtain ⟨m, hm, hmodule⟩ := (exists_of_map_eq_map_ok hlogs).2 l hl
  obtain ⟨visits, hvisits, rfl⟩ := moduleLog_eq_ok_iff.1 hmodule
  obtain ⟨children, hchildren, hchild⟩ := h.unfoldsOn_children.exists_parts (h.contains_module hm)
  obtain ⟨below, hbelow, rfl⟩ := (visitsBelow_eq_ok_iff hchildren).1 hvisits
  have hmem : (around, id) ∈ below.flatten := by simpa using hmem
  obtain ⟨k, hk, hmem⟩ := List.mem_flatten.1 hmem
  obtain ⟨child, hmemc, hkvisits⟩ := (exists_of_map_eq_map_ok hbelow).2 k hk
  have hcontains := h.contains_child ((hchild child).1 hmemc)
  -- the piece lies in the visits of one child, these in those of one module
  have hsteps := (h.mem_visits_iff hcontains hkvisits).1 hmem
  obtain ⟨visits, hvisits, hpiece⟩ := h.exists_visits_infix hcontains hkvisits hsteps
  have hmodule := (hpiece.trans (List.infix_of_mem_flatten hk)).map fun v => Event.visit v.1 v.2
  exact ⟨visits, hvisits, (List.infix_cons hmodule).trans (List.infix_of_mem_flatten hl)⟩

theorem WellBuilt.exists_visit_iff (h : a.WellBuilt) (hlog : a.scopeLog = .ok log) :
    (∃ around, .visit around id ∈ log) ↔ ∃ m ∈ a.modules, TransGen a.HasChild m.toAny id := by
  simp only [h.visit_mem_scopeLog_iff hlog]
  constructor
  · rintro ⟨around, m, hm, child, hchild, hsteps⟩
    exact ⟨m, hm, .head' hchild (reflTransGen_hasChild hsteps)⟩
  · rintro ⟨m, hm, hbelow⟩
    obtain ⟨child, hchild, hbelow⟩ := TransGen.head'_iff.1 hbelow
    obtain ⟨around, hsteps⟩ :=
      exists_visitStep (v := (⟨m.widen, none⟩, child)) Surroundings.isSome_enter hbelow
    exact ⟨around, m, hm, child, hchild, hsteps⟩

/-- A child is visited with what its parent hands down. -/
theorem WellBuilt.visit_child (h : a.WellBuilt) (hlog : a.scopeLog = .ok log) {p : NodeId}
    (hvisit : .visit around p ∈ log) (hchild : a.HasChild p id) {inner : Surroundings}
    (henter : around.enter p = some inner) : .visit inner id ∈ log := by
  rcases (h.visit_mem_scopeLog_iff hlog).1 hvisit with ⟨m, hm, child, htop, hsteps⟩
  exact (h.visit_mem_scopeLog_iff hlog).2 ⟨m, hm, child, htop, hsteps.tail ⟨henter, hchild⟩⟩

/-- The scope of a visit is the parent, or else it is handed down by the parent. -/
theorem WellBuilt.exists_parent_of_visit (h : a.WellBuilt) (hlog : a.scopeLog = .ok log)
    (hvisit : .visit around id ∈ log) :
    ∃ p, a.HasChild p id ∧ (p = around.scope.toAny ∨
      ¬ (Class.category .scope).admits p.kind = true ∧
        ∃ outer, .visit outer p ∈ log ∧ outer.scope = around.scope) := by
  rcases (h.visit_mem_scopeLog_iff hlog).1 hvisit with ⟨m, hm, child, htop, hsteps⟩
  rcases hsteps.cases_tail with heq | ⟨⟨outer, p⟩, hbefore, henter, hchild⟩
  · cases heq
    exact ⟨m.toAny, htop, .inl rfl⟩
  · have hp : .visit outer p ∈ log :=
      (h.visit_mem_scopeLog_iff hlog).2 ⟨m, hm, child, htop, hbefore⟩
    refine ⟨p, hchild, ?_⟩
    rcases Surroundings.scope_of_enter henter with heq | ⟨hnone, heq⟩
    · exact .inl heq.symm
    · refine .inr ⟨?_, outer, hp, heq.symm⟩
      rw [Ident.narrow?_eq_none_iff.1 hnone]
      exact Bool.false_ne_true

end Arena

end TypedTree
