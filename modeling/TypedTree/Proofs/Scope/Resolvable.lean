import TypedTree.Proofs.Scope.Lexical

/-!
# Trees whose scopes can be resolved

A tree is `Resolvable` if every declaration and every scope in it lies below a module and
every variable below a binding. That is all that a resolution asks of a tree-shaped arena
(`ofArena?_isOk_iff_resolvable`): the tables that its log gives pass every test of the check
(`fits_of_resolvable`), and a declaration, a scope or a variable that is missing from the log
fails one. Expressions, patterns and statements that open no scope may lie anywhere.
-/

namespace TypedTree

open Relation

namespace Arena

/-- Every declaration and every scope is below a module or is one, and every variable is
below a binding. -/
structure Resolvable (a : Arena) : Prop where
  reached : ∀ id : NodeId, a.contains id = true →
    id.kind.is .decl = true ∨ id.kind.is .scope = true → a.Reached id
  bound : ∀ v : IdentOf .varDecl, a.contains v = true →
    ∃ b : IdentOf .bindingDecl, TransGen a.HasChild b.toAny v.toAny

variable {a : Arena} {k : Class} {p c : NodeId} {v w : Surroundings × NodeId}

theorem WellBuilt.mem_modules_of_kind (h : a.WellBuilt) {id : Ident k} (hid : a.contains id = true)
    (hkind : id.kind = .moduleDecl) : .ofIndex .moduleDecl id.index ∈ a.modules := by
  rw [h.mem_modules_iff, ← hid]
  exact contains_congr hkind.symm rfl

theorem WellBuilt.reached_module (h : a.WellBuilt) {id : NodeId} (hid : a.contains id = true)
    (hkind : id.kind = .moduleDecl) : a.Reached id := by
  have heq : (IdentOf.ofIndex .moduleDecl id.index).toAny = id := Ident.ext_index hkind.symm rfl
  exact ⟨_, h.mem_modules_of_kind hid hkind, by rw [heq]⟩

theorem Resolvable.reached_decl (h : a.Resolvable) {d : DeclId} (hd : a.contains d = true) :
    a.Reached d.toAny :=
  h.reached d.toAny (by rwa [contains_toAny]) (.inl d.admitted)

theorem Resolvable.reached_scope (h : a.Resolvable) {s : ScopeId} (hs : a.contains s = true) :
    a.Reached s.toAny :=
  h.reached s.toAny (by rwa [contains_toAny]) (.inr s.admitted)

theorem Reached.child (h : a.Reached p) (hc : a.HasChild p c) : a.Reached c := by
  obtain ⟨m, hm, hp⟩ := h
  exact ⟨m, hm, hp.tail hc⟩

/-- If every node but the modules is held by another one, a module leads to each of them. -/
theorem WellBuilt.reached_of_held (h : a.WellBuilt)
    (hheld : ∀ id ∈ a.ids, id.kind ≠ .moduleDecl → id ∈ a.allChildren) {id : NodeId}
    (hid : a.contains id = true) : a.Reached id := by
  by_cases hkind : id.kind = .moduleDecl
  · exact h.reached_module hid hkind
  · obtain ⟨p, hp⟩ := exists_hasChild_of_mem_allChildren (hheld id (mem_ids_iff.2 hid) hkind)
    have hlt := h.index_lt hp
    have hlt' := index_lt_of_contains hp.contains_parent
    exact (reached_of_held h hheld hp.contains_parent).child hp
termination_by a.size - id.index

/-- A binding is handed down to the visit if there is one above the node. -/
def CarriesBinding (a : Arena) (v : Surroundings × NodeId) : Prop :=
  ∀ b : IdentOf .bindingDecl, TransGen a.HasChild b.toAny v.2 → v.1.binding.isSome

theorem CarriesBinding.step (h : Forest a.HasChild) (hv : a.CarriesBinding v)
    (hstep : a.VisitStep Surroundings.enter v w) : a.CarriesBinding w := by
  obtain ⟨around, id⟩ := v
  obtain ⟨inner, child⟩ := w
  obtain ⟨henter, hchild⟩ := hstep
  cases henter
  intro b hb
  -- either the binding was just entered, or it is above the parent too
  rcases (h.above_iff hchild).1 hb with heq | habove
  · have hnarrow : id.narrow? (.only .bindingDecl) = some b :=
      Ident.narrow?_eq_some_iff_toAny.2 heq
    simp [hnarrow]
  · have haround : around.binding.isSome := hv b habove
    simp [haround]

theorem carriesBinding_of_module (h : a.TreeShaped) {m : IdentOf .moduleDecl}
    (hchild : a.HasChild m.toAny c) : a.CarriesBinding (⟨m.widen, none⟩, c) := by
  intro b hb
  rcases (h.forest.above_iff hchild).1 hb with heq | habove
  · have hkind : b.kind = m.kind := congrArg Ident.kind heq
    rw [IdentOf.kind_eq, IdentOf.kind_eq] at hkind
    cases hkind
  · exact absurd habove (h.not_above_module (IdentOf.kind_eq m))

theorem carriesBinding_of_reflTransGen (h : Forest a.HasChild) (hv : a.CarriesBinding v)
    (hw : ReflTransGen (a.VisitStep Surroundings.enter) v w) : a.CarriesBinding w := by
  induction hw with
  | refl => exact hv
  | tail _ hstep ih => exact ih.step h hstep

end Arena

namespace ScopeTables

variable {a : Arena} {log : List Event} {c : Class}

theorem contains_of_mem_entries {d : Class} {f : Event → Option (Ident c × Ident d)}
    (hf : ∀ e ∈ log, ∀ k v, f e = some (k, v) → a.contains k = true ∧ a.contains v = true) :
    ∀ e ∈ ((∅ : Table (Ident c) (Ident d)).writeAll (log.filterMap f)).entries,
      a.contains e.1 = true ∧ a.contains e.2 = true := by
  refine Table.forall_mem_entries_writeAll (P := (a.contains · = true))
    (Q := (a.contains · = true)) fun entry hentry => ?_
  obtain ⟨e, he, hf'⟩ := List.mem_filterMap.1 hentry
  exact hf e he entry.1 entry.2 hf'

theorem contains_of_mem_idents (h : a.WellBuilt) (hlog : a.scopeLog = .ok log) :
    ∀ id ∈ (ofLog log).idents, a.contains id = true := by
  simp only [forall_mem_idents, Arena.contains_toAny]
  refine ⟨contains_of_mem_entries ?_, ?_, contains_of_mem_entries ?_, contains_of_mem_entries ?_,
    contains_of_mem_entries ?_⟩
  · intro e he s q hentry
    obtain ⟨around, rfl, rfl⟩ := Event.parent?_eq_some_iff.1 hentry
    obtain ⟨hid, hscope, -⟩ := contains_of_visit h hlog he
    exact ⟨hid, hscope⟩
  · refine Table.forall_mem_entries_pushAll (P := (a.contains · = true))
      (Q := (a.contains · = true)) ?_
    rintro ⟨s, d⟩ hmem
    obtain ⟨e, he, hentry⟩ := List.mem_filterMap.1 hmem
    obtain ⟨around, rfl, rfl⟩ := Event.listed?_eq_some_iff.1 hentry
    obtain ⟨hid, hscope, -⟩ := contains_of_visit h hlog he
    exact ⟨hscope, hid⟩
  · intro e he d s hentry
    rcases Event.declScope?_eq_some_iff.1 hentry with ⟨m, rfl, rfl, rfl⟩ | ⟨around, rfl, rfl⟩
    · have hm := h.mem_modules_iff.1 ((Arena.module_mem_scopeLog_iff hlog).1 he)
      exact ⟨hm, hm⟩
    · obtain ⟨hid, hscope, -⟩ := contains_of_visit h hlog he
      exact ⟨hid, hscope⟩
  · intro e he n s hentry
    obtain ⟨around, rfl, rfl⟩ := Event.nameScope?_eq_some_iff.1 hentry
    obtain ⟨hid, hscope, -⟩ := contains_of_visit h hlog he
    exact ⟨hid, hscope⟩
  · intro e he v b hentry
    obtain ⟨around, rfl, hb⟩ := Event.binding?_eq_some_iff.1 hentry
    obtain ⟨hid, -, hbinding⟩ := contains_of_visit h hlog he
    exact ⟨hid, hbinding b hb⟩

section

variable (h : a.TreeShaped) (hlog : a.scopeLog = .ok log)

include h hlog

theorem carriesBinding_of_mem_scopeLog {around : Surroundings} {id : NodeId}
    (hvisit : .visit around id ∈ log) : a.CarriesBinding (around, id) := by
  obtain ⟨m, -, child, hchild, hsteps⟩ := (h.wellBuilt.visit_mem_scopeLog_iff hlog).1 hvisit
  exact Arena.carriesBinding_of_reflTransGen h.forest
    (Arena.carriesBinding_of_module h hchild) hsteps

theorem exists_parent {s : ScopeId} (hs : a.Reached s.toAny) (hkind : s.kind ≠ .moduleDecl) :
    ∃ q, (ofLog log).parents.get? s = some q := by
  obtain ⟨around, hvisit⟩ := exists_visit_of_reached h.wellBuilt hlog hs hkind
  exact Option.isSome_iff_exists.1
    (isSome_get?_of_mem hvisit (Event.parent?_eq_some_iff.2 ⟨around, rfl, rfl⟩))

theorem exists_declScope {d : DeclId} (hd : a.Reached d.toAny) :
    ∃ s, (ofLog log).declScopes.get? d = some s := by
  by_cases hkind : d.kind = .moduleDecl
  · have hm : (IdentOf.ofIndex .moduleDecl d.index).widen = d := Ident.ext_index hkind.symm rfl
    have hmem := h.wellBuilt.mem_modules_of_kind (hd.contains h.wellBuilt) hkind
    exact Option.isSome_iff_exists.1 (isSome_get?_of_mem
      ((Arena.module_mem_scopeLog_iff hlog).2 hmem)
      (Event.declScope?_eq_some_iff.2 (.inl ⟨_, rfl, hm, rfl⟩)))
  · obtain ⟨around, hvisit⟩ := exists_visit_of_reached h.wellBuilt hlog hd hkind
    exact Option.isSome_iff_exists.1 (isSome_get?_of_mem hvisit
      (Event.declScope?_eq_some_iff.2 (.inr ⟨around, rfl, rfl⟩)))

theorem exists_binding {v : IdentOf .varDecl} {b : IdentOf .bindingDecl}
    (hv : a.Reached v.toAny) (hb : TransGen a.HasChild b.toAny v.toAny) :
    ∃ b, (ofLog log).bindings.get? v = some b := by
  have hkind : v.toAny.kind ≠ .moduleDecl := by
    rw [Ident.kind_toAny, IdentOf.kind_eq]
    decide
  obtain ⟨around, hvisit⟩ := exists_visit_of_reached h.wellBuilt hlog hv hkind
  obtain ⟨b', hb'⟩ := Option.isSome_iff_exists.1 (carriesBinding_of_mem_scopeLog h hlog hvisit b hb)
  exact Option.isSome_iff_exists.1
    (isSome_get?_of_mem hvisit (Event.binding?_eq_some_iff.2 ⟨around, rfl, hb'⟩))

/-- A listed declaration was visited in the scope that lists it, and no other scope is the
nearest one. -/
theorem exists_scope_of_listed {s : ScopeId} (hs : a.contains s = true) {d : DeclId}
    (hd : d ∈ ((ofLog log).decls.get? s).getD []) :
    ∃ q, (ofLog log).declScopes.get? d = some q ∧ q.index = s.index := by
  obtain ⟨hreached, hnearest⟩ := (mem_decls_iff h hlog hs).1 hd
  obtain ⟨q, hq⟩ := exists_declScope h hlog hreached
  have hcontains : a.contains d = true := by
    rw [← Arena.contains_toAny]
    exact hreached.contains h.wellBuilt
  refine ⟨q, hq, ?_⟩
  rcases (nearestAbove_of_declScope h hlog hcontains hq).2 with ⟨hkind, -⟩ | ⟨-, hnearest'⟩
  · exact absurd hnearest.above (h.not_above_module hkind)
  · have heq : q.toAny = s.toAny := hnearest'.unique h.wellBuilt.acyclic hnearest
    exact (congrArg Ident.index heq :)

/-- Parents take higher positions than their children, so going up ends, and it ends at a
module. -/
theorem rooted_of_resolvable (hr : a.Resolvable) {s : ScopeId} (hs : a.contains s = true) :
    (ofLog log).Rooted a s := by
  by_cases hkind : s.kind = .moduleDecl
  · refine .module (parent_eq_none h hlog hs hkind) ?_
    rw [Arena.contains_iff_kindAt?.1 hs, hkind]
  · obtain ⟨q, hq⟩ := exists_parent h hlog (hr.reached_scope hs) hkind
    have hnearest : a.NearestAbove q s.toAny := nearestAbove_of_parent h hlog hs hq
    have hlt : s.index < q.index := h.wellBuilt.index_lt_of_above hnearest.above
    have hsize : q.index < a.size := Arena.index_lt_of_contains hnearest.contains
    exact .parent hq (rooted_of_resolvable hr hnearest.contains)
termination_by a.size - s.index

theorem fits_of_resolvable (hr : a.Resolvable) : (ofLog log).Fits a where
  known := contains_of_mem_idents h.wellBuilt hlog
  listed e he d hd := by
    have hknown := contains_of_mem_idents h.wellBuilt hlog
    rw [forall_mem_idents] at hknown
    have hscope : a.contains e.1 = true := by
      rw [← Arena.contains_toAny]
      exact (hknown.2.1 e he).1
    refine exists_scope_of_listed h hlog hscope ?_
    rwa [Table.get?_of_mem_entries he]
  rooted s hs := rooted_of_resolvable h hlog hr (Arena.mem_idsOf_iff.1 hs)
  owned d hd := Option.isSome_iff_exists.2
    (exists_declScope h hlog (hr.reached_decl (Arena.mem_idsOf_iff.1 hd)))
  bound v hv := by
    have hv := Arena.mem_idsOf_iff.1 hv
    obtain ⟨b, hb⟩ := hr.bound v hv
    have hreached : a.Reached v.toAny := by
      refine hr.reached v.toAny (by rwa [Arena.contains_toAny]) (.inl ?_)
      rw [Ident.kind_toAny, IdentOf.kind_eq]
      rfl
    exact Option.isSome_iff_exists.2 (exists_binding h hlog hreached hb)

theorem reached_of_parent {s q : ScopeId} (hs : a.contains s = true)
    (hq : (ofLog log).parents.get? s = some q) : a.Reached s.toAny := by
  obtain ⟨m, hm, hbelow⟩ := (isSome_parent_iff h.wellBuilt hlog hs).1 (by rw [hq]; rfl)
  exact ⟨m, hm, hbelow.to_reflTransGen⟩

/-- Tables that fit have an entry for every declaration, every scope but the modules, and
every variable, and only the nodes that the log tells of have entries. -/
theorem resolvable_of_fits (hfits : (ofLog log).Fits a) : a.Resolvable where
  reached id hid hkind := by
    rcases hkind with hkind | hkind
    · obtain ⟨d, hd⟩ := Option.isSome_iff_exists.1
        ((Ident.isSome_narrow? id (.category .decl)).trans hkind)
      obtain rfl := Ident.narrow?_eq_some_iff_toAny.1 hd
      rw [Arena.contains_toAny] at hid
      obtain ⟨s, hs, -⟩ := hfits.exists_declScope hid
      exact (nearestAbove_of_declScope h hlog hid hs).1
    · by_cases hmodule : id.kind = .moduleDecl
      · exact h.wellBuilt.reached_module hid hmodule
      · obtain ⟨s, hs⟩ := Option.isSome_iff_exists.1
          ((Ident.isSome_narrow? id (.category .scope)).trans hkind)
        obtain rfl := Ident.narrow?_eq_some_iff_toAny.1 hs
        rw [Arena.contains_toAny] at hid
        obtain ⟨q, hq⟩ := hfits.exists_parent hid hmodule
        exact reached_of_parent h hlog hid hq
  bound v hv := by
    obtain ⟨b, hb, -⟩ := hfits.exists_binding hv
    exact ⟨b, (nearestAbove_of_binding h hlog hv hb).above⟩

end

end ScopeTables

namespace ScopedProgram

variable {a : Arena}

theorem is_decl_or_scope_iff (k : Kind) :
    k.is .decl = true ∨ k.is .scope = true ↔
      ¬ (k.is .expr = true ∨ k.is .pattern = true ∨ k.is .stmt = true ∧ k.is .scope = false) := by
  cases k <;> decide

theorem ofArena?_of_resolve {t : ScopeTables} (h : a.resolve = .ok t) :
    ofArena? a = (ofTables? a t).mapError .tables := by
  unfold ofArena?
  rw [h]
  rfl

theorem ofArena?_of_resolvable {log : List ScopeTables.Event} (h : a.TreeShaped)
    (hlog : a.scopeLog = .ok log) (hr : a.Resolvable) :
    ofArena? a = .ok ⟨a, .ofLog log⟩ :=
  ofArena?_eq_ok_iff_scopeLog.2 ⟨log, hlog, ScopeTables.fits_of_resolvable h hlog hr, rfl⟩

/-- A resolution of a tree-shaped arena walks to its end, and gives a scoped program exactly
if the arena is resolvable. So nodes that no module leads to do no harm if they are
expressions, patterns, or statements that open no scope. -/
theorem ofArena?_isOk_iff_resolvable (h : a.TreeShaped) :
    (∀ fault, ofArena? a ≠ .error (.walk fault)) ∧
      ((∃ p, ofArena? a = .ok p) ↔ a.Resolvable) ∧
      ((∀ id : NodeId, a.contains id = true → ¬ a.Reached id →
          id.kind.is .expr = true ∨ id.kind.is .pattern = true ∨
            id.kind.is .stmt = true ∧ id.kind.is .scope = false) →
        (∀ v : IdentOf .varDecl, a.contains v = true →
          ∃ b : IdentOf .bindingDecl, TransGen a.HasChild b.toAny v.toAny) →
        ∃ p, ofArena? a = .ok p) := by
  obtain ⟨log, hlog⟩ := h.wellBuilt.exists_scopeLog
  have hresolve : a.resolve = .ok (.ofLog log) := Arena.resolve_eq_ok_iff.2 ⟨log, hlog, rfl⟩
  have hok : (∃ p, ofArena? a = .ok p) ↔ a.Resolvable := by
    constructor
    · rintro ⟨p, hp⟩
      obtain ⟨t, ht, hfits, -⟩ := ofArena?_eq_ok_iff.1 hp
      obtain rfl : .ofLog log = t := Except.ok.inj (hresolve.symm.trans ht)
      exact ScopeTables.resolvable_of_fits h hlog hfits
    · exact fun hr => ⟨_, ofArena?_of_resolvable h hlog hr⟩
  refine ⟨fun fault hfault => ?_, hok, fun hloose hbound => hok.2 ⟨fun id hid hkind => ?_, hbound⟩⟩
  · rw [ofArena?_of_resolve hresolve] at hfault
    cases hmade : ofTables? a (.ofLog log) with
    | error e =>
        rw [hmade] at hfault
        cases hfault
    | ok p =>
        rw [hmade] at hfault
        cases hfault
  · by_contra hreached
    exact (is_decl_or_scope_iff id.kind).1 hkind (hloose id hid hreached)

section LooseNodes

/-- `boundLambda` with a wildcard and a statement of one literal that nothing holds. -/
def looseNodes : Arena :=
  [⟨.wildcardPattern, ({} : WildcardPattern)⟩,
    ⟨.integerLiteralExpr, ({ value := .empty } : TextLiteral)⟩,
    ⟨.exprStmt, ({ expr := ⟨.integerLiteralExpr, 11, rfl⟩ } : ExprStmt)⟩].foldl
    (fun a n => (a.insert n .dummy).2) boundLambda

theorem treeShaped_looseNodes : looseNodes.TreeShaped where
  wellBuilt := by
    unfold looseNodes
    repeat refine .insert ?_ (by decide)
    exact .empty
  once := by decide
  noModule := by decide

theorem resolvable_looseNodes : looseNodes.Resolvable := by
  have hmodule : looseNodes.Reached (.of .moduleDecl 9) :=
    treeShaped_looseNodes.wellBuilt.reached_module (by decide) rfl
  have hunit : looseNodes.Reached (.of .translationUnit 8) :=
    hmodule.child ⟨_, rfl, rfl, by decide⟩
  have hbinding : looseNodes.Reached (.of .bindingDecl 7) := hunit.child ⟨_, rfl, rfl, by decide⟩
  have hfunction : looseNodes.Reached (.of .functionDecl 5) := by
    have hlambda : looseNodes.Reached (.of .lambdaExpr 6) :=
      hbinding.child ⟨_, rfl, rfl, by decide⟩
    exact hlambda.child ⟨_, rfl, rfl, by decide⟩
  have hvar : TransGen looseNodes.HasChild (.of .bindingDecl 7) (.of .varDecl 0) := by
    refine .head (b := .of .bindingPattern 2) ⟨_, rfl, rfl, by decide⟩ ?_
    refine .head (b := .of .namePattern 1) ⟨_, rfl, rfl, by decide⟩ ?_
    exact .single ⟨_, rfl, rfl, by decide⟩
  constructor
  · intro id hid hkind
    have hids : ∀ id ∈ looseNodes.ids, id.kind.is .decl = true ∨ id.kind.is .scope = true →
        id ∈ [NodeId.of .varDecl 0, .of .functionDecl 5, .of .bindingDecl 7,
          .of .translationUnit 8, .of .moduleDecl 9] := by decide
    have hmem := hids id (Arena.mem_ids_iff.2 hid) hkind
    simp only [List.mem_cons, List.not_mem_nil, or_false] at hmem
    rcases hmem with rfl | rfl | rfl | rfl | rfl
    · obtain ⟨m, hm, hbelow⟩ := hbinding
      exact ⟨m, hm, hbelow.trans hvar.to_reflTransGen⟩
    · exact hfunction
    · exact hbinding
    · exact hunit
    · exact hmodule
  · intro v hv
    have hvars : ∀ v ∈ looseNodes.idsOf (.only .varDecl), v = IdentOf.ofIndex .varDecl 0 := by
      decide
    obtain rfl := hvars v (Arena.mem_idsOf_iff.2 hv)
    exact ⟨.ofIndex .bindingDecl 7, hvar⟩

theorem not_reached_looseNodes : ¬ looseNodes.Reached (.of .wildcardPattern 10) := by
  rintro ⟨m, -, hbelow⟩
  rcases hbelow.cases_tail with heq | ⟨p, -, hp⟩
  · have hkind : Kind.wildcardPattern = m.kind := congrArg Ident.kind heq
    rw [IdentOf.kind_eq] at hkind
    cases hkind
  · exact absurd hp.mem_allChildren (by decide)

theorem ofArena?_isOk_looseNodes :
    looseNodes.TreeShaped ∧ ¬ looseNodes.Reached (.of .wildcardPattern 10) ∧
      ∃ p, ofArena? looseNodes = .ok p :=
  ⟨treeShaped_looseNodes, not_reached_looseNodes,
    (ofArena?_isOk_iff_resolvable treeShaped_looseNodes).2.1.2 resolvable_looseNodes⟩

end LooseNodes

end ScopedProgram

end TypedTree
