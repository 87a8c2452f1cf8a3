import TypedTree.Proofs.Scope.Ancestors
import TypedTree.Proofs.Scope.Roots

/-!
# Who owns a declaration

A node that several others hold is visited several times. The scope of a declaration is then
the one of its last visit, whereas every scope that it is visited in lists it. The check
accepts the tables only if all these scopes are one (`exists_declScope_of_visit`), so in an
accepted program the lists, the scopes of declarations and the parents of scopes tell the same
(`ownedOnce_of_ofArena?`).
-/

namespace TypedTree

namespace ScopeTables

variable {t : ScopeTables} {a : Arena} {log : List Event} {around : Surroundings} {d : DeclId}
  {s o : ScopeId}

theorem Fits.exists_declScope_of_mem (h : t.Fits a) (hd : d ∈ (t.decls.get? s).getD []) :
    ∃ o, t.declScopes.get? d = some o ∧ o.index = s.index := by
  cases hl : t.decls.get? s with
  | none => simp [hl] at hd
  | some l =>
      rcases (Table.get?_eq_some_iff _ s l).1 hl with ⟨k, hk, hmem⟩
      rcases h.listed _ hmem d (by simpa [hl] using hd) with ⟨o, ho, hindex⟩
      exact ⟨o, ho, hindex.trans hk⟩

theorem mem_decls_of_visit (hvisit : .visit around d.toAny ∈ log) :
    d ∈ ((ofLog log).decls.get? around.scope).getD [] := by
  rw [getD_get?_decls]
  have hlisted : (around.scope, d) ∈ log.filterMap Event.listed? :=
    List.mem_filterMap.2 ⟨_, hvisit, Event.listed?_eq_some_iff.2 ⟨around, rfl, rfl⟩⟩
  exact List.mem_map.2 ⟨_, mem_pairsAt.2 ⟨hlisted, rfl⟩, rfl⟩

/-- In tables that fit, all visits of a declaration are in its scope. -/
theorem exists_declScope_of_visit (h : (ofLog log).Fits a)
    (hvisit : .visit around d.toAny ∈ log) :
    ∃ o, (ofLog log).declScopes.get? d = some o ∧ o.index = around.scope.index :=
  h.exists_declScope_of_mem (mem_decls_of_visit hvisit)

theorem exists_visit_of_declScope (h : a.WellBuilt) (hlog : a.scopeLog = .ok log)
    (hd : a.contains d = true) (hkind : d.kind ≠ .moduleDecl)
    (ho : (ofLog log).declScopes.get? d = some o) :
    ∃ around, .visit around d.toAny ∈ log ∧ around.scope = o := by
  rcases exists_event_of_get? Event.node_of_declScope? h hlog hd ho with ⟨e, he, hentry⟩
  rcases Event.declScope?_eq_some_iff.1 hentry with ⟨m, rfl, rfl, -⟩ | ⟨around, rfl, hscope⟩
  · exact absurd (IdentOf.kind_eq m) hkind
  · exact ⟨around, he, hscope⟩

theorem mem_decls_iff_of_fits (h : a.WellBuilt) (hlog : a.scopeLog = .ok log)
    (hfits : (ofLog log).Fits a) (hd : a.contains d = true) (hkind : d.kind ≠ .moduleDecl) :
    d ∈ ((ofLog log).decls.get? s).getD [] ↔
      ∃ o, (ofLog log).declScopes.get? d = some o ∧ o.index = s.index := by
  constructor
  · exact hfits.exists_declScope_of_mem
  · rintro ⟨o, ho, hindex⟩
    rcases exists_visit_of_declScope h hlog hd hkind ho with ⟨around, hvisit, rfl⟩
    rw [← Table.get?_congr _ hindex]
    exact mem_decls_of_visit hvisit

/-- A scope that is also a declaration has the scope it is declared in as its parent. -/
theorem parent_eq_declScope (h : a.WellBuilt) (hlog : a.scopeLog = .ok log)
    (hfits : (ofLog log).Fits a) {f : ScopeId} (hf : a.contains f = true)
    (hkind : f.kind ≠ .moduleDecl) (heq : f.toAny = d.toAny) :
    (ofLog log).parents.get? f = (ofLog log).declScopes.get? d := by
  rcases hfits.exists_parent hf hkind with ⟨q, hq⟩
  rcases exists_event_of_get? Event.node_of_parent? h hlog hf hq with ⟨e, he, hentry⟩
  rcases Event.parent?_eq_some_iff.1 hentry with ⟨around, rfl, rfl⟩
  rcases exists_declScope_of_visit hfits (heq ▸ he) with ⟨o, ho, hindex⟩
  rw [hq, ho, Arena.eq_of_contains (hfits.contains_declScope ho) (hfits.contains_parent hq) hindex]

end ScopeTables

namespace ScopedProgram

variable {a : Arena} {p : ScopedProgram} {d : DeclId}

/-- One scope owns the declaration. If the declaration opens a scope itself, the owner is the
parent of that one and does not lie inside. -/
structure OwnedOnce (p : ScopedProgram) (d : DeclId) : Prop where
  mem_scopeDecls_iff : ∀ s : ScopeId,
    d ∈ p.scopeDecls s ↔ ∃ o, p.declScope? d = some o ∧ o.index = s.index
  existsUnique : ∃! s : ScopeId, p.arena.contains s = true ∧ d ∈ p.scopeDecls s
  scopeParent : ∀ f : ScopeId, f.toAny = d.toAny → p.scopeParent? f = p.declScope? d
  notAbove : ∀ f : ScopeId, f.toAny = d.toAny → ∀ o, p.declScope? d = some o →
    ∀ x ∈ p.scopeAncestors o, x.index ≠ f.index

theorem not_mem_ancestors_of_parent (h : p.tables.Fits p.arena) {f o : ScopeId}
    (hparent : p.scopeParent? f = some o) : ∀ x ∈ p.scopeAncestors o, x.index ≠ f.index := by
  rcases h.exists_chain o with ⟨l, hl⟩
  have hchain : p.tables.Chain f (f :: l) := .parent hparent hl
  have hnot : f.index ∉ l.map Ident.index := (List.nodup_cons.1 hchain.nodup).1
  rw [scopeAncestors, hl.ancestors_eq]
  exact fun x hx heq => hnot (List.mem_map.2 ⟨x, hx, heq⟩)

/-- In the program that a well-built arena gives, one scope owns each declaration but the
modules, however many nodes hold it. -/
theorem ownedOnce_of_ofArena? (h : a.WellBuilt) (hp : ofArena? a = .ok p)
    (hd : p.arena.contains d = true) (hkind : d.kind ≠ .moduleDecl) : p.OwnedOnce d := by
  rcases ofArena?_eq_ok_iff_scopeLog.1 hp with ⟨log, hlog, hfits, rfl⟩
  have hmem (s : ScopeId) := ScopeTables.mem_decls_iff_of_fits (s := s) h hlog hfits hd hkind
  have hparent (f : ScopeId) (heq : f.toAny = d.toAny) :
      (ScopeTables.ofLog log).parents.get? f = (ScopeTables.ofLog log).declScopes.get? d := by
    refine ScopeTables.parent_eq_declScope h hlog hfits ?_ ?_ heq
    · rwa [← Arena.contains_toAny, heq, Arena.contains_toAny]
    · have hkinds : f.kind = d.kind := congrArg Ident.kind heq
      rwa [hkinds]
  refine ⟨hmem, ?_, hparent, fun f heq o ho => ?_⟩
  · rcases hfits.exists_declScope hd with ⟨o, ho, hcontains⟩
    refine ⟨o, ⟨hcontains, (hmem o).2 ⟨o, ho, rfl⟩⟩, fun s ⟨hs, hlisted⟩ => ?_⟩
    rcases (hmem s).1 hlisted with ⟨o', ho', hindex⟩
    obtain rfl : o = o' := Option.some.inj (ho.symm.trans ho')
    exact Arena.eq_of_contains hs hcontains hindex.symm
  · exact not_mem_ancestors_of_parent hfits ((hparent f heq).trans ho)

/-- The function that the unit of `nestedModule` declares twice. -/
def sharedFunction : DeclId := (IdentOf.ofIndex .functionDecl 0).widen

theorem ownedOnce_sharedFunction :
    nestedModule.WellBuilt ∧ ofArena? nestedModule = .ok scopedNested ∧
      scopedNested.arena.contains sharedFunction = true ∧ sharedFunction.kind ≠ .moduleDecl ∧
      scopedNested.scopeDecls (IdentOf.ofIndex .translationUnit 2).widen =
        [sharedFunction, (IdentOf.ofIndex .moduleDecl 1).widen, sharedFunction] ∧
      scopedNested.OwnedOnce sharedFunction :=
  ⟨wellBuilt_nestedModule, ofArena?_nestedModule, by decide, by decide, by decide +kernel,
    ownedOnce_of_ofArena? wellBuilt_nestedModule ofArena?_nestedModule (by decide) (by decide)⟩

end ScopedProgram

end TypedTree
