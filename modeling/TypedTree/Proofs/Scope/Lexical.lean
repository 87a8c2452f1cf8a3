import TypedTree.Proofs.Scope.Fit
import TypedTree.Proofs.Scope.Nearest

/-!
# Resolved tables are lexical

`ScopedProgram.Lexical` says of each table that it holds what lexical scoping gives and
nothing else. The tables that the nesting of a tree-shaped arena gives are lexical if they
pass the check (`lexical_of_ofArena?`): what an entry holds is told by the log of the
resolution, and that there is one for each node by the check.
-/

namespace TypedTree

open Relation

namespace ScopeTables

section

variable {a : Arena} {log : List Event} (h : a.TreeShaped) (hlog : a.scopeLog = .ok log)

include h hlog

theorem nearestAbove_of_parent {s q : ScopeId} (hs : a.contains s = true)
    (hq : (ofLog log).parents.get? s = some q) : a.NearestAbove q s := by
  obtain ⟨e, he, hentry⟩ :=
    exists_event_of_get? Event.node_of_parent? h.wellBuilt hlog hs hq
  obtain ⟨around, rfl, rfl⟩ := Event.parent?_eq_some_iff.1 hentry
  exact (surrounds_of_mem_scopeLog h hlog he).scope

theorem parent_eq_none {m : ScopeId} (hm : a.contains m = true) (hkind : m.kind = .moduleDecl) :
    (ofLog log).parents.get? m = none := by
  cases hq : (ofLog log).parents.get? m with
  | none => rfl
  | some q =>
      have hnearest := nearestAbove_of_parent h hlog hm hq
      exact absurd hnearest.above (h.not_above_module hkind)

/-- A module is scoped in itself, and other declarations in the nearest scope. -/
theorem nearestAbove_of_declScope {d : DeclId} {s : ScopeId} (hd : a.contains d = true)
    (hs : (ofLog log).declScopes.get? d = some s) :
    a.Reached d.toAny ∧
      (d.kind = .moduleDecl ∧ s.toAny = d.toAny ∨
        d.kind ≠ .moduleDecl ∧ a.NearestAbove s d) := by
  obtain ⟨e, he, hentry⟩ :=
    exists_event_of_get? Event.node_of_declScope? h.wellBuilt hlog hd hs
  have hreached := reached_of_mem_scopeLog h.wellBuilt hlog he
  rw [Event.node_of_declScope? hentry] at hreached
  refine ⟨hreached, ?_⟩
  rcases Event.declScope?_eq_some_iff.1 hentry with ⟨m, rfl, rfl, rfl⟩ | ⟨around, rfl, rfl⟩
  · exact .inl ⟨IdentOf.kind_eq m, rfl⟩
  · have hnearest := (surrounds_of_mem_scopeLog h hlog he).scope
    exact .inr ⟨fun hkind => h.not_above_module hkind hnearest.above, hnearest⟩

theorem nearestAbove_of_nameScope {n : IdentOf .nameExpr} {s : ScopeId}
    (hn : a.contains n = true) (hs : (ofLog log).nameScopes.get? n = some s) :
    a.Reached n.toAny ∧ a.NearestAbove s n := by
  obtain ⟨e, he, hentry⟩ :=
    exists_event_of_get? Event.node_of_nameScope? h.wellBuilt hlog hn hs
  obtain ⟨around, rfl, rfl⟩ := Event.nameScope?_eq_some_iff.1 hentry
  exact ⟨reached_of_mem_scopeLog h.wellBuilt hlog he, (surrounds_of_mem_scopeLog h hlog he).scope⟩

theorem exists_nameScope {n : IdentOf .nameExpr} (hn : a.Reached n.toAny) :
    ∃ s, (ofLog log).nameScopes.get? n = some s := by
  have hkind : n.toAny.kind ≠ .moduleDecl := by
    rw [Ident.kind_toAny, IdentOf.kind_eq]
    decide
  obtain ⟨around, hvisit⟩ := exists_visit_of_reached h.wellBuilt hlog hn hkind
  exact Option.isSome_iff_exists.1
    (isSome_get?_of_mem hvisit (Event.nameScope?_eq_some_iff.2 ⟨around, rfl, rfl⟩))

theorem nearestAbove_of_binding {v : IdentOf .varDecl} {b : IdentOf .bindingDecl}
    (hv : a.contains v = true) (hb : (ofLog log).bindings.get? v = some b) :
    a.NearestAbove b v := by
  obtain ⟨e, he, hentry⟩ :=
    exists_event_of_get? Event.node_of_binding? h.wellBuilt hlog hv hb
  obtain ⟨around, rfl, hb⟩ := Event.binding?_eq_some_iff.1 hentry
  exact (surrounds_of_mem_scopeLog h hlog he).binding b hb

omit h hlog in
theorem getD_get?_decls (s : ScopeId) :
    ((ofLog log).decls.get? s).getD [] =
      (pairsAt (log.filterMap Event.listed?) s).map Prod.snd := by
  change (((∅ : Table ScopeId (List DeclId)).pushAll _).get? s).getD [] = _
  rw [Table.getD_get?_pushAll, Table.get?_empty]
  rfl

theorem mem_decls_iff {s : ScopeId} (hs : a.contains s = true) {d : DeclId} :
    d ∈ ((ofLog log).decls.get? s).getD [] ↔ a.Reached d.toAny ∧ a.NearestAbove s d := by
  simp only [getD_get?_decls, List.mem_map, mem_pairsAt, List.mem_filterMap, Prod.exists]
  constructor
  · rintro ⟨j, d, ⟨⟨e, he, hentry⟩, hindex⟩, rfl⟩
    obtain ⟨around, rfl, rfl⟩ := Event.listed?_eq_some_iff.1 hentry
    have hnearest := (surrounds_of_mem_scopeLog h hlog he).scope
    obtain rfl := Arena.eq_of_contains hnearest.contains hs hindex
    exact ⟨reached_of_mem_scopeLog h.wellBuilt hlog he, hnearest⟩
  · rintro ⟨hd, hnearest⟩
    have hkind : d.toAny.kind ≠ .moduleDecl := fun hkind => h.not_above_module hkind hnearest.above
    obtain ⟨around, hvisit⟩ := exists_visit_of_reached h.wellBuilt hlog hd hkind
    have haround := (surrounds_of_mem_scopeLog h hlog hvisit).scope
    have heq : around.scope = s :=
      Ident.eq_of_toAny_eq (haround.unique h.wellBuilt.acyclic hnearest)
    exact ⟨s, d, ⟨⟨_, hvisit, Event.listed?_eq_some_iff.2 ⟨around, rfl, heq⟩⟩, rfl⟩, rfl⟩

omit h hlog in
theorem decls_sublist (s : ScopeId) :
    ((((ofLog log).decls.get? s).getD []).map Ident.toAny).Sublist (log.map Event.node) := by
  have hnodes (log : List Event) :
      ((log.filterMap Event.listed?).map fun e => e.2.toAny).Sublist (log.map Event.node) := by
    induction log with
    | nil => exact .slnil
    | cons e log ih =>
        cases hentry : e.listed? with
        | none => simpa [hentry] using ih.cons e.node
        | some entry =>
            obtain ⟨around, rfl, -⟩ := Event.listed?_eq_some_iff.1 hentry
            simpa [hentry, Event.node] using ih
  rw [getD_get?_decls, List.map_map]
  exact (List.filter_sublist.map _).trans (hnodes log)

end

end ScopeTables

namespace ScopedProgram

/-- The tables hold what lexical scoping gives for the arena, and nothing else. Lists of
declarations come in the order `order`. -/
structure Lexical (p : ScopedProgram) (order : List NodeId) : Prop where
  moduleParent : ∀ m : ScopeId, p.arena.contains m = true → m.kind = .moduleDecl →
    p.scopeParent? m = none
  scopeParent : ∀ s : ScopeId, p.arena.contains s = true → s.kind ≠ .moduleDecl →
    ∃ q, p.scopeParent? s = some q ∧ p.arena.NearestAbove q s
  moduleScope : ∀ m : IdentOf .moduleDecl, p.arena.contains m = true →
    p.declScope? m.widen = some m.widen
  declScope : ∀ d : DeclId, p.arena.contains d = true → d.kind ≠ .moduleDecl →
    ∃ s, p.declScope? d = some s ∧ p.arena.NearestAbove s d
  nameScope : ∀ n : IdentOf .nameExpr, p.arena.Reached n.toAny →
    ∃ s, p.nameScope? n = some s ∧ p.arena.NearestAbove s n
  varBinding : ∀ v : IdentOf .varDecl, p.arena.contains v = true →
    ∃ b, p.varBinding? v = some b ∧ p.arena.NearestAbove b v
  mem_scopeDecls : ∀ s : ScopeId, p.arena.contains s = true → ∀ d : DeclId,
    d ∈ p.scopeDecls s ↔ p.arena.contains d = true ∧ p.arena.NearestAbove s d
  sublist_scopeDecls : ∀ s : ScopeId, ((p.scopeDecls s).map Ident.toAny).Sublist order
  nodup_scopeDecls : ∀ s : ScopeId, (p.scopeDecls s).Nodup
  parents_keys : ∀ e ∈ p.tables.parents.entries,
    p.arena.contains e.1 = true ∧ e.1.kind ≠ .moduleDecl
  decls_keys : ∀ e ∈ p.tables.decls.entries, p.arena.contains e.1 = true ∧ e.2 ≠ []
  declScopes_keys : ∀ e ∈ p.tables.declScopes.entries, p.arena.contains e.1 = true
  nameScopes_keys : ∀ e ∈ p.tables.nameScopes.entries, p.arena.Reached e.1.toAny
  bindings_keys : ∀ e ∈ p.tables.bindings.entries, p.arena.contains e.1 = true

variable {a : Arena} {p : ScopedProgram} {log : List ScopeTables.Event}

theorem ofArena?_eq_ok_iff_scopeLog :
    ofArena? a = .ok p ↔
      ∃ log, a.scopeLog = .ok log ∧ (ScopeTables.ofLog log).Fits a ∧ p = ⟨a, .ofLog log⟩ := by
  rw [ofArena?_eq_ok_iff]
  constructor
  · rintro ⟨t, hresolve, hfits, rfl⟩
    obtain ⟨log, hlog, rfl⟩ := Arena.resolve_eq_ok_iff.1 hresolve
    exact ⟨log, hlog, hfits, rfl⟩
  · rintro ⟨log, hlog, hfits, rfl⟩
    exact ⟨_, Arena.resolve_eq_ok_iff.2 ⟨log, hlog, rfl⟩, hfits, rfl⟩

theorem lexical_of_fits (h : a.TreeShaped) (hlog : a.scopeLog = .ok log)
    (hfits : (ScopeTables.ofLog log).Fits a) :
    Lexical ⟨a, ScopeTables.ofLog log⟩ (log.map ScopeTables.Event.node) := by
  obtain ⟨hparents, hdecls, hscopes, hnames, hbindings⟩ := hfits.contains
  -- that there are entries follows from the fit, and what they hold from the log
  refine
    { moduleParent := fun m hm hkind => ScopeTables.parent_eq_none h hlog hm hkind
      scopeParent := ?_
      moduleScope := ?_
      declScope := ?_
      nameScope := ?_
      varBinding := ?_
      mem_scopeDecls := ?_
      sublist_scopeDecls := ScopeTables.decls_sublist
      nodup_scopeDecls := ?_
      parents_keys := ?_
      decls_keys := ?_
      declScopes_keys := fun e he => (hscopes e he).1
      nameScopes_keys := ?_
      bindings_keys := fun e he => (hbindings e he).1 }
  · intro s hs hkind
    obtain ⟨q, hq⟩ := hfits.exists_parent hs hkind
    exact ⟨q, hq, ScopeTables.nearestAbove_of_parent h hlog hs hq⟩
  · intro m hm
    have hd : a.contains (m.widen : DeclId) = true := by rwa [Arena.contains_widen]
    obtain ⟨s, hs, -⟩ := hfits.exists_declScope hd
    rcases (ScopeTables.nearestAbove_of_declScope h hlog hd hs).2 with ⟨-, heq⟩ | ⟨hne, -⟩
    · have hwiden : s = m.widen := Ident.eq_of_toAny_eq heq
      exact hwiden ▸ hs
    · exact absurd (IdentOf.kind_eq m) hne
  · intro d hd hkind
    obtain ⟨s, hs, -⟩ := hfits.exists_declScope hd
    rcases (ScopeTables.nearestAbove_of_declScope h hlog hd hs).2 with ⟨heq, -⟩ | ⟨-, hnearest⟩
    · exact absurd heq hkind
    · exact ⟨s, hs, hnearest⟩
  · intro n hn
    obtain ⟨s, hs⟩ := ScopeTables.exists_nameScope h hlog hn
    have hcontains : a.contains n = true := by
      rw [← Arena.contains_toAny]
      exact hn.contains h.wellBuilt
    exact ⟨s, hs, (ScopeTables.nearestAbove_of_nameScope h hlog hcontains hs).2⟩
  · intro v hv
    obtain ⟨b, hb, -⟩ := hfits.exists_binding hv
    exact ⟨b, hb, ScopeTables.nearestAbove_of_binding h hlog hv hb⟩
  · intro s hs d
    have hreached : a.Reached d.toAny ↔ a.contains d = true := by
      rw [← Arena.contains_toAny]
      refine ⟨fun hd => hd.contains h.wellBuilt, fun hd => ?_⟩
      rw [Arena.contains_toAny] at hd
      obtain ⟨s, hs, -⟩ := hfits.exists_declScope hd
      exact (ScopeTables.nearestAbove_of_declScope h hlog hd hs).1
    exact (ScopeTables.mem_decls_iff h hlog hs).trans (and_congr_left' hreached)
  · intro s
    have hnodup := h.nodup_walkAll (h.wellBuilt.walkAll_of_scopeLog hlog)
    exact ((ScopeTables.decls_sublist s).nodup hnodup).of_map
  · intro e he
    have hcontains := (hparents e he).1
    refine ⟨hcontains, fun hkind => ?_⟩
    have hnone := ScopeTables.parent_eq_none h hlog hcontains hkind
    rw [Table.get?_of_mem_entries he] at hnone
    cases hnone
  · intro e he
    refine ⟨(hdecls e he).1, Table.ne_nil_of_get?_pushAll (t := ∅) ?_
      (Table.get?_of_mem_entries he)⟩
    intro k l hl
    rw [Table.get?_empty] at hl
    cases hl
  · intro e he
    have hscope := Table.get?_of_mem_entries he
    exact (ScopeTables.nearestAbove_of_nameScope h hlog (hnames e he).1 hscope).1

/-- The tables that the nesting of a tree-shaped arena gives are lexical, and lists of
declarations come in the order in which a walk meets them. -/
theorem lexical_of_ofArena? (h : a.TreeShaped) (hp : ofArena? a = .ok p) :
    p.arena = a ∧ ∃ order, a.walkAll (fun _ => false) = .ok order ∧ order.Nodup ∧
      p.Lexical order := by
  obtain ⟨t, hresolve, hfits, rfl⟩ := ofArena?_eq_ok_iff.1 hp
  obtain ⟨log, hlog, rfl⟩ := Arena.resolve_eq_ok_iff.1 hresolve
  have hwalk := h.wellBuilt.walkAll_of_scopeLog hlog
  exact ⟨rfl, _, hwalk, h.nodup_walkAll hwalk, lexical_of_fits h hlog hfits⟩

/-- A binding in a translation unit, whose initializer is a lambda. The lambda gives a
sequence of one name. -/
def boundLambda : Arena :=
  [⟨.varDecl, ({ name := .empty } : NamedDecl)⟩,
    ⟨.namePattern, ({ decl := .ofIndex .varDecl 0 } : NamePattern)⟩,
    ⟨.bindingPattern, ({
      introducer := .let
      subpattern := (IdentOf.ofIndex .namePattern 1).widen } : BindingPattern)⟩,
    ⟨.nameExpr, ({ domain := .none, name := .empty } : NameExpr)⟩,
    ⟨.sequenceExpr, ({
      head := (IdentOf.ofIndex .nameExpr 3).widen
      tail := [] } : SequenceExpr)⟩,
    ⟨.functionDecl, ({
      name := none
      genericParameters := []
      explicitCaptures := []
      receiver := none
      parameters := []
      body := some (.expr (IdentOf.ofIndex .sequenceExpr 4).widen) } : FunctionDecl)⟩,
    ⟨.lambdaExpr, ({ decl := .ofIndex .functionDecl 5 } : LambdaExpr)⟩,
    ⟨.bindingDecl, ({
      pattern := .ofIndex .bindingPattern 2
      initializer := some (IdentOf.ofIndex .lambdaExpr 6).widen } : BindingDecl)⟩,
    ⟨.translationUnit, ({
      decls := [(IdentOf.ofIndex .bindingDecl 7).widen] } : TranslationUnit)⟩,
    ⟨.moduleDecl, ({
      name := .empty
      sources := [.ofIndex .translationUnit 8] } : ModuleDecl)⟩].foldl
    (fun a n => (a.insert n .dummy).2) ∅

/-- What a resolution of `boundLambda` meets. The name is in the scope of the function, and
the function in that of the unit, though the binding lies between them. -/
def boundLambdaLog : List ScopeTables.Event :=
  let module : ScopeId := (IdentOf.ofIndex .moduleDecl 9).widen
  let unit : ScopeId := (IdentOf.ofIndex .translationUnit 8).widen
  let function : ScopeId := (IdentOf.ofIndex .functionDecl 5).widen
  let binding : IdentOf .bindingDecl := .ofIndex .bindingDecl 7
  [.module (.ofIndex .moduleDecl 9),
    .visit ⟨module, none⟩ (.of .translationUnit 8),
    .visit ⟨unit, none⟩ (.of .bindingDecl 7),
    .visit ⟨unit, some binding⟩ (.of .bindingPattern 2),
    .visit ⟨unit, some binding⟩ (.of .namePattern 1),
    .visit ⟨unit, some binding⟩ (.of .varDecl 0),
    .visit ⟨unit, some binding⟩ (.of .lambdaExpr 6),
    .visit ⟨unit, some binding⟩ (.of .functionDecl 5),
    .visit ⟨function, some binding⟩ (.of .sequenceExpr 4),
    .visit ⟨function, some binding⟩ (.of .nameExpr 3)]

def scopedLambda : ScopedProgram := ⟨boundLambda, .ofLog boundLambdaLog⟩

theorem treeShaped_boundLambda : boundLambda.TreeShaped where
  wellBuilt := by
    unfold boundLambda
    repeat refine .insert ?_ (by decide)
    exact .empty
  once := by decide
  noModule := by decide

theorem scopeLog_boundLambda : boundLambda.scopeLog = .ok boundLambdaLog := by
  unfold Arena.scopeLog Arena.moduleLog Arena.visitsBelow
  simp only [Arena.visits_eq_visitsWithin]
  rfl

theorem fits_scopedLambda : scopedLambda.tables.Fits boundLambda := by
  decide +kernel

theorem ofArena?_boundLambda : ofArena? boundLambda = .ok scopedLambda :=
  ofArena?_eq_ok_iff_scopeLog.2 ⟨_, scopeLog_boundLambda, fits_scopedLambda, rfl⟩

theorem lexical_boundLambda :
    boundLambda.TreeShaped ∧ ofArena? boundLambda = .ok scopedLambda ∧
      scopedLambda.arena = boundLambda ∧
        ∃ order, boundLambda.walkAll (fun _ => false) = .ok order ∧ order.Nodup ∧
          scopedLambda.Lexical order :=
  ⟨treeShaped_boundLambda, ofArena?_boundLambda,
    lexical_of_ofArena? treeShaped_boundLambda ofArena?_boundLambda⟩

end ScopedProgram

end TypedTree
