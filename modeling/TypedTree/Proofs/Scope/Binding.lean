import TypedTree.Proofs.Arena.Grammar
import TypedTree.Proofs.Arena.Pattern
import TypedTree.Proofs.Scope.Ownership

/-!
# What a binding declares

A resolution goes through the pattern of a binding without meeting a scope or another binding,
so everything there is visited with the same surroundings (`visits_pattern`). What it declares
there are the variables of the names that `names` finds, in the same order, and they follow the
binding at once (`exists_log_of_binding`). That a variable has this binding is known the other
way round from the pattern that it lies in: the innermost binding of a pattern is the one that
the pattern belongs to (`exists_pattern_of_visit`).
-/

namespace TypedTree

open Relation

open scoped List

namespace Arena

variable {a : Arena} {p : PatternId} {names : List PatternName} {l : List NodeId}
  {around : Surroundings} {v w : Surroundings × NodeId} {b : IdentOf .bindingDecl}
  {decl : BindingDecl}

instance : (Class.only .bindingPattern).Within (.category .pattern) := Class.within_of_is rfl

section Names

theorem names_widen (q : IdentOf .bindingPattern) : a.names (q.widen : PatternId) = a.names q :=
  (names_of_narrow? (Ident.narrow?_eq_some_iff.2 ⟨rfl, rfl⟩)).symm

theorem narrow?_pattern (q : PatternId) :
    q.toAny.narrow? (.only .varDecl) = none ∧ q.toAny.narrow? (.category .decl) = none := by
  have hkind (k : Kind) (hk : k.is .pattern = true) :
      (Class.only .varDecl).admits k = false ∧ (Class.category .decl).admits k = false := by
    revert hk
    cases k <;> decide
  exact (hkind q.kind q.admitted).imp Ident.narrow?_eq_none_iff.2 Ident.narrow?_eq_none_iff.2

def varsOfNames (a : Arena) (names : List PatternName) : List (IdentOf .varDecl) :=
  names.filterMap fun n => a.varOfName? n.pattern

theorem filterMap_nodesOfName_of_none {n : IdentOf .namePattern} {β : Type} {f : NodeId → Option β}
    (hf : f n.toAny = none) :
    (a.nodesOfName n).filterMap f = (a.varOfName? n).toList.filterMap fun v => f v.toAny := by
  rw [nodesOfName, List.filterMap_cons_none hf, List.filterMap_map]
  rfl

/-- What `f` gives for a pattern are what it gives for the variables, if it gives nothing for
patterns. -/
theorem WellBuilt.filterMap_walk_vars (h : a.WellBuilt) (hp : a.contains p = true)
    (hnames : a.names p = .ok names) (hl : a.walk (fun _ => false) p.toAny = .ok l) {β : Type}
    {f : NodeId → Option β} (hf : ∀ q : PatternId, f q.toAny = none) :
    l.filterMap f = (a.varsOfNames names).filterMap fun v => f v.toAny := by
  rw [h.filterMap_walk hp hnames hl fun q _ => hf q, varsOfNames, List.filterMap_filterMap,
    List.filterMap_eq_flatMap_toList]
  refine List.flatMap_congr fun n _ => ?_
  rw [filterMap_nodesOfName_of_none (hf n.pattern.widen)]
  cases a.varOfName? n.pattern with
  | none => rfl
  | some v => exact (filterMap_cons_eq_append _ v []).trans (List.append_nil _)

theorem WellBuilt.mem_varsOfNames_iff (h : a.WellBuilt) (hp : a.contains p = true)
    (hnames : a.names p = .ok names) {v : IdentOf .varDecl} :
    v ∈ a.varsOfNames names ↔ ReflTransGen a.HasChild p.toAny v.toAny := by
  obtain ⟨l, hl, hmem⟩ := h.exists_walk_toAny hp
  have hself (v : IdentOf .varDecl) : v.toAny.narrow? (.only .varDecl) = some v :=
    Ident.narrow?_eq_some_iff_toAny.2 rfl
  have hvars : l.filterMap (·.narrow? (.only .varDecl)) = a.varsOfNames names := by
    rw [h.filterMap_walk_vars hp hnames hl fun q => ?_]
    · simp only [hself, List.filterMap_some]
    · exact (narrow?_pattern q).1
  rw [← hvars, ← hmem]
  simp only [List.mem_filterMap, Ident.narrow?_eq_some_iff_toAny, exists_eq_right']

theorem WellBuilt.map_varOfName? (h : a.WellBuilt) (hp : a.contains p = true)
    (hnames : a.names p = .ok names) :
    names.map (fun n => a.varOfName? n.pattern) = (a.varsOfNames names).map some := by
  obtain ⟨l, hl, hwalk⟩ := h.exists_walk_toAny hp
  have hsome : ∀ n ∈ names, (a.varOfName? n.pattern).isSome := by
    intro n hn
    have hmem : n.pattern ∈ l.filterMap (·.narrow? (.only .namePattern)) :=
      h.map_pattern_names hp hnames hl ▸ List.mem_map_of_mem hn
    obtain ⟨x, hx, hnarrow⟩ := List.mem_filterMap.1 hmem
    obtain rfl := Ident.narrow?_eq_some_iff_toAny.1 hnarrow
    have hany : a.contains p.toAny = true := by rwa [contains_toAny]
    have hcontains := h.unfoldsOn_children.of_reach hany ((hwalk _).1 hx)
    obtain ⟨⟨k, f⟩, hf, hkind⟩ := contains_iff.1 hcontains
    obtain rfl : k = .namePattern := hkind.trans n.pattern.kind_eq
    exact Option.isSome_iff_exists.2 ⟨_, varOfName?_eq_some_iff.2 (get?_eq_some_iff.2 hf)⟩
  rw [varsOfNames, List.map_filterMap_some_eq_filter_map_isSome, eq_comm, List.filter_eq_self]
  exact List.forall_mem_map.2 hsome

end Names

theorem not_pattern_of_expr (e : ExprId) : ¬ e.kind.is .pattern = true := by
  have hkind (k : Kind) (hk : k.is .expr = true) : ¬ k.is .pattern = true := by
    revert hk
    cases k <;> decide
  exact hkind e.kind e.admitted

def VarsInNamePatterns (a : Arena) : Prop :=
  ∀ q v, a.HasChild q v → v.kind = .varDecl → q.kind = .namePattern

/-- A node that patterns consist of: another pattern, or a variable. -/
def InPattern (id : NodeId) : Prop := id.kind.is .pattern = true ∨ id.kind = .varDecl

theorem inPattern_toAny (p : PatternId) : InPattern p.toAny := .inl p.admitted

theorem HasChild.inPattern {q x : NodeId} (h : a.HasChild q x) (hq : InPattern q) :
    InPattern x := by
  have hclass := h.exists_childClass
  unfold InPattern at hq ⊢
  revert hclass hq
  cases q.kind <;> cases x.kind <;> decide

theorem HasChild.kind_of_pattern {q x : NodeId} (h : a.HasChild q x)
    (hx : x.kind.is .pattern = true) : q.kind = .bindingDecl ∨ q.kind.is .pattern = true := by
  have hclass := h.exists_childClass
  revert hclass hx
  cases q.kind <;> cases x.kind <;> decide

theorem narrow?_of_inPattern {id : NodeId} (hid : InPattern id) :
    id.narrow? (.category .scope) = none ∧ id.narrow? (.only .bindingDecl) = none := by
  have hkind (k : Kind) (hk : k.is .pattern = true ∨ k = .varDecl) :
      (Class.category .scope).admits k = false ∧ (Class.only .bindingDecl).admits k = false := by
    revert hk
    cases k <;> decide
  exact (hkind id.kind hid).imp Ident.narrow?_eq_none_iff.2 Ident.narrow?_eq_none_iff.2

theorem enter_of_inPattern {id : NodeId} (hid : InPattern id) : around.enter id = some around := by
  obtain ⟨hscope, hbinding⟩ := narrow?_of_inPattern hid
  rw [Surroundings.enter, hscope, hbinding]
  rfl

theorem inPattern_of_steps (hv : InPattern v.2)
    (hsteps : ReflTransGen (a.VisitStep Surroundings.enter) v w) : w.1 = v.1 ∧ InPattern w.2 := by
  induction hsteps with
  | refl => exact ⟨rfl, hv⟩
  | tail _ hstep ih =>
      obtain ⟨henter, hchild⟩ := hstep
      obtain ⟨hsame, hin⟩ := ih
      rw [enter_of_inPattern hin] at henter
      exact ⟨(Option.some.inj henter).symm.trans hsame, hchild.inPattern hin⟩

theorem WellBuilt.visits_pattern (h : a.WellBuilt) (hp : a.contains p = true)
    (hl : a.walk (fun _ => false) p.toAny = .ok l) (around : Surroundings) :
    a.visits Surroundings.enter around p.toAny = .ok (l.map (around, ·)) := by
  have hany : a.contains p.toAny = true := by rwa [contains_toAny]
  obtain ⟨visits, hvisits⟩ := h.exists_visits hany Surroundings.enter around
  have hwalk : a.walk (fun _ => false) p.toAny = .ok (visits.map Prod.snd) := by
    rw [walk_eq_preorderWithin, ← map_snd_visits Surroundings.isSome_enter around, hvisits]
    rfl
  obtain rfl := Except.ok.inj (hl.symm.trans hwalk)
  rw [hvisits, List.map_map]
  have hsame : ∀ w ∈ visits, w = (around, w.2) := fun w hw =>
    Prod.ext (inPattern_of_steps (inPattern_toAny p) ((h.mem_visits_iff hany hvisits).1 hw)).1 rfl
  exact congrArg Except.ok ((List.map_id' visits).symm.trans (List.map_congr_left hsame))

theorem WellBuilt.contains_pattern (h : a.WellBuilt) (hdecl : a.get? b = some decl) :
    a.contains decl.pattern = true := by
  rw [← contains_toAny]
  exact (h.child_of_node? (p := b.toAny) (get?_eq_some_iff.1 hdecl) List.mem_cons_self).1

/-- The binding that is handed down to a pattern is the one that it belongs to. -/
def OfOwnBinding (a : Arena) (v : Surroundings × NodeId) : Prop :=
  v.2.kind.is .pattern = true → ∀ b ∈ v.1.binding, ∃ decl : BindingDecl, a.get? b = some decl ∧
    ReflTransGen a.HasChild decl.pattern.toAny v.2

theorem OfOwnBinding.step (hv : a.OfOwnBinding v) (hstep : a.VisitStep Surroundings.enter v w) :
    a.OfOwnBinding w := by
  obtain ⟨around, id⟩ := v
  obtain ⟨inner, child⟩ := w
  obtain ⟨henter, hchild⟩ := hstep
  intro hpattern b hb
  rcases Surroundings.binding_of_enter henter hb with rfl | ⟨hnone, hb⟩
  · -- the parent is the binding, and the pattern is the one that it holds
    obtain ⟨⟨k, f⟩, hn, hk, hmem⟩ := hchild
    obtain rfl : k = .bindingDecl := hk.trans b.kind_eq
    refine ⟨f, get?_eq_some_iff.2 hn, ?_⟩
    rcases List.mem_cons.1 hmem with rfl | hmem
    · exact .refl
    · obtain ⟨e, -, rfl⟩ := List.mem_map.1 hmem
      exact absurd hpattern (not_pattern_of_expr e)
  · rcases hchild.kind_of_pattern hpattern with hkind | hkind
    · have hadmits := Ident.narrow?_eq_none_iff.1 hnone
      rw [hkind] at hadmits
      exact absurd hadmits (by decide)
    · obtain ⟨decl, hdecl, hreach⟩ := hv hkind b hb
      exact ⟨decl, hdecl, hreach.tail hchild⟩

theorem ofOwnBinding_of_module {m : IdentOf .moduleDecl} {child : NodeId}
    (hchild : a.HasChild m.toAny child) : a.OfOwnBinding (around, child) := by
  intro hpattern
  have hkind := hchild.kind_of_pattern hpattern
  rw [Ident.kind_toAny, m.kind_eq] at hkind
  exact absurd hkind (by decide)

end Arena

namespace ScopeTables

variable {a : Arena} {log : List Event} {around : Surroundings} {b : IdentOf .bindingDecl}
  {decl : BindingDecl} {names : List PatternName} {l : List NodeId} {s : ScopeId}

theorem ofOwnBinding_of_mem_scopeLog (h : a.WellBuilt) (hlog : a.scopeLog = .ok log) {id : NodeId}
    (hvisit : .visit around id ∈ log) : a.OfOwnBinding (around, id) := by
  obtain ⟨m, -, child, hchild, hsteps⟩ := (h.visit_mem_scopeLog_iff hlog).1 hvisit
  generalize (around, id) = w at hsteps ⊢
  induction hsteps with
  | refl => exact Arena.ofOwnBinding_of_module hchild
  | tail _ hstep ih => exact ih.step hstep

def declsAt (log : List Event) (s : ScopeId) : List DeclId :=
  (pairsAt (log.filterMap Event.listed?) s).map Prod.snd

theorem decls_eq_declsAt (log : List Event) (s : ScopeId) :
    ((ofLog log).decls.get? s).getD [] = declsAt log s :=
  getD_get?_decls s

theorem declsAt_append (log log' : List Event) (s : ScopeId) :
    declsAt (log ++ log') s = declsAt log s ++ declsAt log' s := by
  rw [declsAt, List.filterMap_append, pairsAt_append, List.map_append]
  rfl

theorem mem_nodes_of_mem_declsAt {d : DeclId} (hd : d ∈ declsAt log s) :
    d.toAny ∈ log.map Event.node := by
  have hmem : d ∈ ((ofLog log).decls.get? s).getD [] := by rwa [decls_eq_declsAt]
  exact (decls_sublist s).subset (List.mem_map_of_mem hmem)

/-- The events of a binding: its own visit, those of its pattern with the binding around them, and
those of its initializer. -/
theorem exists_log_of_binding (h : a.WellBuilt) (hlog : a.scopeLog = .ok log)
    (hvisit : .visit around b.toAny ∈ log) (hdecl : a.get? b = some decl)
    (hl : a.walk (fun _ => false) decl.pattern.toAny = .ok l) :
    ∃ before below after, log = before ++
        (.visit around b.toAny :: l.map (.visit ⟨around.scope, some b⟩ ·)) ++ (below ++ after) ∧
      ∀ e, decl.initializer = some e → ∀ x, ReflTransGen a.HasChild e.toAny x →
        x ∈ below.map Event.node := by
  obtain ⟨visits, hvisits, before, after, rfl⟩ := h.exists_visits_of_mem_scopeLog hlog hvisit
  have hn : a.node? b.toAny = some ⟨.bindingDecl, decl⟩ := Arena.get?_eq_some_iff.1 hdecl
  have henter : around.enter b.toAny = some ⟨around.scope, some b⟩ := by
    have hscope : b.toAny.narrow? (.category .scope) = none := by
      rw [Ident.narrow?_eq_none_iff, Ident.kind_toAny, b.kind_eq]
      rfl
    have hbinding : b.toAny.narrow? (.only .bindingDecl) = some b :=
      Ident.narrow?_eq_some_iff_toAny.2 rfl
    rw [Surroundings.enter, hscope, hbinding]
    rfl
  obtain ⟨lists, hlists, rfl⟩ := h.exists_visits_of_enter hn henter hvisits
  obtain ⟨pattern, below, rfl, hpattern, hbelow⟩ := List.map_eq_cons_iff.1 hlists.symm
  have hp : a.visits Surroundings.enter ⟨around.scope, some b⟩ decl.pattern.toAny =
      .ok (l.map (⟨around.scope, some b⟩, ·)) :=
    h.visits_pattern (p := decl.pattern.widen) (h.contains_pattern hdecl) hl _
  obtain rfl := Except.ok.inj (hpattern.trans hp)
  refine ⟨before, below.flatten.map fun v => .visit v.1 v.2, after, ?_, ?_⟩
  · simp
  · intro e he x hx
    rw [he] at hbelow
    obtain ⟨k, rfl, hk⟩ := List.map_eq_singleton_iff.1 hbelow
    have hmem : e.toAny ∈ Node.children ⟨.bindingDecl, decl⟩ := by simp [Node.children, he]
    obtain ⟨inner, hsteps⟩ := Arena.exists_visitStep
      (v := (⟨around.scope, some b⟩, e.toAny)) Surroundings.isSome_enter hx
    have hvisit := (h.mem_visits_iff (h.child_of_node? hn hmem).1 hk.symm).2 hsteps
    simpa [Event.node] using ⟨inner, hvisit⟩

/-- The binding and its variables are listed one after another. -/
theorem declsAt_of_binding (h : a.WellBuilt) (hdecl : a.get? b = some decl)
    (hnames : a.names decl.pattern = .ok names)
    (hl : a.walk (fun _ => false) decl.pattern.toAny = .ok l) :
    declsAt (.visit around b.toAny :: l.map (.visit ⟨around.scope, some b⟩ ·)) around.scope =
      b.widen :: (a.varsOfNames names).map fun v => v.widen := by
  have hself {k : Kind} [(Class.only k).Within (.category .decl)] (x : IdentOf k) :
      x.toAny.narrow? (.category .decl) = some x.widen :=
    Ident.narrow?_eq_some_iff_toAny.2 rfl
  have hvars : (l.map (Event.visit ⟨around.scope, some b⟩ ·)).filterMap Event.listed? =
      (a.varsOfNames names).map fun v => (around.scope, v.widen) := by
    rw [List.filterMap_map]
    refine (h.filterMap_walk_vars (p := decl.pattern.widen) (h.contains_pattern hdecl)
      ((Arena.names_widen decl.pattern).trans hnames) hl fun q => ?_).trans ?_
    · exact Option.map_eq_none_iff.2 (Arena.narrow?_pattern q).2
    · simp [Event.listed?, hself]
  have hb : Event.listed? (.visit around b.toAny) = some (around.scope, b.widen) :=
    Event.listed?_eq_some_iff.2 ⟨around, rfl, rfl⟩
  rw [declsAt, List.filterMap_cons_some hb, hvars]
  simp [pairsAt, List.filter_map, Function.comp_def]

theorem declScope_of_visit (h : a.WellBuilt) (hlog : a.scopeLog = .ok log)
    (hfits : (ofLog log).Fits a) {d : DeclId} (hvisit : .visit around d.toAny ∈ log) :
    (ofLog log).declScopes.get? d = some around.scope := by
  obtain ⟨o, ho, hindex⟩ := exists_declScope_of_visit hfits hvisit
  obtain ⟨-, hscope, -⟩ := contains_of_visit h hlog hvisit
  rw [ho, Arena.eq_of_contains (hfits.contains_declScope ho) hscope hindex]

/-- The binding around a variable is the one whose pattern it lies in. -/
theorem exists_pattern_of_visit (h : a.WellBuilt) (hlog : a.scopeLog = .ok log)
    (hvars : a.VarsInNamePatterns) {v : IdentOf .varDecl} (hvisit : .visit around v.toAny ∈ log)
    (hb : around.binding = some b) : ∃ decl : BindingDecl, a.get? b = some decl ∧
      ReflTransGen a.HasChild decl.pattern.toAny v.toAny := by
  obtain ⟨m, hm, child, htop, hsteps⟩ := (h.visit_mem_scopeLog_iff hlog).1 hvisit
  rcases hsteps.cases_tail with heq | ⟨⟨outer, q⟩, hbefore, henter, hchild⟩
  · cases heq
    have hkind := hvars _ _ htop v.kind_eq
    rw [Ident.kind_toAny, m.kind_eq] at hkind
    cases hkind
  · have hname : q.kind = .namePattern := hvars _ _ hchild v.kind_eq
    have hpattern : q.kind.is .pattern = true := by
      rw [hname]
      rfl
    rw [Arena.enter_of_inPattern (.inl hpattern)] at henter
    cases henter
    have hq : .visit around q ∈ log :=
      (h.visit_mem_scopeLog_iff hlog).2 ⟨m, hm, child, htop, hbefore⟩
    obtain ⟨decl, hdecl, hreach⟩ := ofOwnBinding_of_mem_scopeLog h hlog hq hpattern b hb
    exact ⟨decl, hdecl, hreach.tail hchild⟩

section

variable (h : a.TreeShaped) (hlog : a.scopeLog = .ok log)
  (hvisit : .visit around b.toAny ∈ log) (hdecl : a.get? b = some decl)
  (hnames : a.names decl.pattern = .ok names) {v : IdentOf .varDecl}

include h hlog hdecl hnames

omit hlog in
theorem mem_varsOfNames_iff :
    v ∈ a.varsOfNames names ↔ ReflTransGen a.HasChild decl.pattern.toAny v.toAny :=
  h.wellBuilt.mem_varsOfNames_iff (p := decl.pattern.widen) (h.wellBuilt.contains_pattern hdecl)
    ((Arena.names_widen decl.pattern).trans hnames)

include hvisit

theorem visit_of_mem_varsOfNames (hv : v ∈ a.varsOfNames names) :
    .visit ⟨around.scope, some b⟩ v.toAny ∈ log := by
  obtain ⟨l, hl, hmem⟩ := h.wellBuilt.exists_walk_toAny (h.wellBuilt.contains_pattern hdecl)
  obtain ⟨before, below, after, rfl, -⟩ :=
    exists_log_of_binding h.wellBuilt hlog hvisit hdecl hl
  have hv : v.toAny ∈ l := (hmem _).2 ((mem_varsOfNames_iff h hdecl hnames).1 hv)
  simp [hv]

theorem get?_bindings_iff (hfits : (ofLog log).Fits a)
    (hvars : ∀ q v, a.HasChild q v → v.kind = .varDecl → q.kind = .namePattern) :
    (ofLog log).bindings.get? v = some b ↔ v ∈ a.varsOfNames names := by
  rw [mem_varsOfNames_iff h hdecl hnames]
  constructor
  · intro hb
    obtain ⟨j, hj, hindex⟩ := Table.mem_of_get?_writeAll hb
    obtain rfl : j = v := IdentOf.eq_of_index_eq hindex
    obtain ⟨e, he, hentry⟩ := List.mem_filterMap.1 hj
    obtain ⟨around, rfl, hb⟩ := Event.binding?_eq_some_iff.1 hentry
    obtain ⟨decl', hdecl', hreach⟩ := exists_pattern_of_visit h.wellBuilt hlog hvars he hb
    cases hdecl.symm.trans hdecl'
    exact hreach
  · intro hreach
    have hv := visit_of_mem_varsOfNames h hlog hvisit hdecl hnames
      ((mem_varsOfNames_iff h hdecl hnames).2 hreach)
    -- the last write may stem from another visit, but both bindings are the nearest one above
    have hnearest := (surrounds_of_mem_scopeLog h hlog hv).binding b rfl
    obtain ⟨hcontains, -⟩ := contains_of_visit h.wellBuilt hlog hv
    obtain ⟨b', hb', -⟩ := hfits.exists_binding hcontains
    have hnearest' := nearestAbove_of_binding h hlog hcontains hb'
    obtain rfl : b' = b := Ident.eq_of_toAny_eq (hnearest'.unique h.wellBuilt.acyclic hnearest)
    exact hb'

/-- The list of the scope is cut in three: what comes before the binding, the binding with its
variables, and what comes after them. -/
theorem exists_decls_of_binding :
    ∃ before after, ((ofLog log).decls.get? around.scope).getD [] =
        before ++ (b.widen :: (a.varsOfNames names).map fun v => v.widen) ++ after ∧
      ∀ e, decl.initializer = some e → ∀ d ∈ ((ofLog log).decls.get? around.scope).getD [],
        ReflTransGen a.HasChild e.toAny d.toAny → d ∈ after := by
  obtain ⟨l, hl, -⟩ := h.wellBuilt.exists_walk_toAny (h.wellBuilt.contains_pattern hdecl)
  have hnodup := h.nodup_walkAll (h.wellBuilt.walkAll_of_scopeLog hlog)
  obtain ⟨before, below, after, rfl, hbelow⟩ :=
    exists_log_of_binding h.wellBuilt hlog hvisit hdecl hl
  rw [decls_eq_declsAt]
  refine ⟨declsAt before around.scope, declsAt (below ++ after) around.scope, ?_, ?_⟩
  · rw [declsAt_append, declsAt_append, declsAt_of_binding h.wellBuilt hdecl hnames hl]
  · intro e he d hd hreach
    rw [declsAt_append] at hd
    refine (List.mem_append.1 hd).resolve_left fun hearly => ?_
    -- no node is met twice, and this one is met in the initializer
    have hinside : d.toAny ∈ (below ++ after).map Event.node := by
      rw [List.map_append]
      exact List.mem_append_left _ (hbelow e he _ hreach)
    rw [List.map_append] at hnodup
    exact List.disjoint_of_nodup_append hnodup (mem_nodes_of_mem_declsAt hearly) hinside

end

end ScopeTables

namespace ScopedProgram

variable {a : Arena} {p : ScopedProgram} {b : IdentOf .bindingDecl}

/-- The binding has introduced the variables of the names: they have it as theirs and are
scoped where it is, and there they are listed right after it, before what the initializer
declares. -/
structure Introduces (p : ScopedProgram) (b : IdentOf .bindingDecl) (decl : BindingDecl)
    (vars : List (IdentOf .varDecl)) : Prop where
  varBinding_iff : ∀ v, p.varBinding? v = some b ↔ v ∈ vars
  declScope_eq : ∀ v ∈ vars, p.declScope? v.widen = p.declScope? b.widen
  listed : ∃ s before after, p.declScope? b.widen = some s ∧
    p.scopeDecls s = before ++ (b.widen :: vars.map fun v => v.widen) ++ after ∧
    (p.scopeDecls s).Nodup ∧
    ∀ e, decl.initializer = some e → ∀ d ∈ p.scopeDecls s,
      ReflTransGen p.arena.HasChild e.toAny d.toAny → d ∈ after

/-- In the program that a tree gives, every binding introduces the variables of the names in its
pattern, in their order. -/
theorem exists_introduces (h : a.TreeShaped) (hvars : a.VarsInNamePatterns)
    (hp : ofArena? a = .ok p) (hb : p.arena.contains b = true) :
    ∃ (decl : BindingDecl) (names : List PatternName) (vars : List (IdentOf .varDecl)),
      p.arena.get? b = some decl ∧ p.arena.names decl.pattern = .ok names ∧
      names.map (fun n => p.arena.varOfName? n.pattern) = vars.map some ∧
      p.Introduces b decl vars := by
  obtain ⟨log, hlog, hfits, rfl⟩ := ofArena?_eq_ok_iff_scopeLog.1 hp
  obtain ⟨⟨k, decl⟩, hn, hkind⟩ := Arena.contains_iff.1 hb
  obtain rfl : k = .bindingDecl := hkind.trans b.kind_eq
  have hdecl : a.get? b = some decl := Arena.get?_eq_some_iff.2 hn
  have hpattern : a.contains (decl.pattern.widen : PatternId) = true := by
    rw [Arena.contains_widen]
    exact h.wellBuilt.contains_pattern hdecl
  obtain ⟨names, hwiden⟩ := h.wellBuilt.exists_names (Arena.index_lt_of_contains hpattern)
  have hnames : a.names decl.pattern = .ok names := (Arena.names_widen _).symm.trans hwiden
  -- every declaration is visited, or the check would find that it has no scope
  have hwidenb : a.contains (b.widen : DeclId) = true := by rwa [Arena.contains_widen]
  obtain ⟨s, hs, -⟩ := hfits.exists_declScope hwidenb
  have hreached := (ScopeTables.nearestAbove_of_declScope h hlog hwidenb hs).1
  have hkind : b.toAny.kind ≠ .moduleDecl := by
    rw [Ident.kind_toAny, b.kind_eq]
    exact Kind.noConfusion
  obtain ⟨around, hvisit⟩ :=
    ScopeTables.exists_visit_of_reached h.wellBuilt hlog hreached hkind
  have hscope {d : DeclId} {around : Surroundings} (hd : .visit around d.toAny ∈ log) :=
    ScopeTables.declScope_of_visit h.wellBuilt hlog hfits hd
  obtain ⟨before, after, hlisted, hafter⟩ :=
    ScopeTables.exists_decls_of_binding h hlog hvisit hdecl hnames
  refine ⟨decl, names, a.varsOfNames names, hdecl, hnames,
    h.wellBuilt.map_varOfName? hpattern hwiden, fun v => ?_, fun v hv => ?_,
    around.scope, before, after, hscope hvisit, hlisted, ?_, hafter⟩
  · exact ScopeTables.get?_bindings_iff h hlog hvisit hdecl hnames hfits hvars
  · have hvisitv := ScopeTables.visit_of_mem_varsOfNames h hlog hvisit hdecl hnames hv
    exact (hscope (d := v.widen) hvisitv).trans (hscope (d := b.widen) hvisit).symm
  · exact (lexical_of_fits h hlog hfits).nodup_scopeDecls around.scope

theorem admits_tuplePattern : (Class.category .pattern).admits .tuplePattern = true := rfl

theorem admits_braceStmt : (Class.category .scope).admits .braceStmt = true := rfl

/-- A binding of two variables, whose initializer is a lambda with a binding in its body. -/
def pairBinding : Arena :=
  [⟨.varDecl, ({ name := .empty } : NamedDecl)⟩,
    ⟨.namePattern, ({ decl := .ofIndex .varDecl 0 } : NamePattern)⟩,
    ⟨.varDecl, ({ name := .empty } : NamedDecl)⟩,
    ⟨.namePattern, ({ decl := .ofIndex .varDecl 2 } : NamePattern)⟩,
    ⟨.tuplePattern, ({ elements := [
      ⟨none, (IdentOf.ofIndex .namePattern 1).widen⟩,
      ⟨none, (IdentOf.ofIndex .namePattern 3).widen⟩] } : TuplePattern)⟩,
    ⟨.bindingPattern, ({
      introducer := .let
      subpattern := ⟨.tuplePattern, 4, admits_tuplePattern⟩ } : BindingPattern)⟩,
    ⟨.varDecl, ({ name := .empty } : NamedDecl)⟩,
    ⟨.namePattern, ({ decl := .ofIndex .varDecl 6 } : NamePattern)⟩,
    ⟨.bindingPattern, ({
      introducer := .let
      subpattern := (IdentOf.ofIndex .namePattern 7).widen } : BindingPattern)⟩,
    ⟨.bindingDecl, ({ pattern := .ofIndex .bindingPattern 8, initializer := none } :
      BindingDecl)⟩,
    ⟨.declStmt, ({ decl := (IdentOf.ofIndex .bindingDecl 9).widen } : DeclStmt)⟩,
    ⟨.braceStmt, ({ stmts := [⟨.declStmt, 10, rfl⟩] } : BraceStmt)⟩,
    ⟨.functionDecl, ({
      name := none
      genericParameters := []
      explicitCaptures := []
      receiver := none
      parameters := []
      body := some (.block (.ofIndex .braceStmt 11)) } : FunctionDecl)⟩,
    ⟨.lambdaExpr, ({ decl := .ofIndex .functionDecl 12 } : LambdaExpr)⟩,
    ⟨.bindingDecl, ({
      pattern := .ofIndex .bindingPattern 5
      initializer := some (IdentOf.ofIndex .lambdaExpr 13).widen } : BindingDecl)⟩,
    ⟨.translationUnit, ({
      decls := [(IdentOf.ofIndex .bindingDecl 14).widen] } : TranslationUnit)⟩,
    ⟨.moduleDecl, ({
      name := .empty
      sources := [.ofIndex .translationUnit 15] } : ModuleDecl)⟩].foldl
    (fun a n => (a.insert n .dummy).2) ∅

/-- What a resolution of `pairBinding` meets. The function of the lambda is listed in the unit,
after the two variables. -/
def pairBindingLog : List ScopeTables.Event :=
  let module : ScopeId := (IdentOf.ofIndex .moduleDecl 16).widen
  let unit : ScopeId := (IdentOf.ofIndex .translationUnit 15).widen
  let function : ScopeId := (IdentOf.ofIndex .functionDecl 12).widen
  let block : ScopeId := ⟨.braceStmt, 11, admits_braceStmt⟩
  let outer : IdentOf .bindingDecl := .ofIndex .bindingDecl 14
  let inner : IdentOf .bindingDecl := .ofIndex .bindingDecl 9
  [.module (.ofIndex .moduleDecl 16),
    .visit ⟨module, none⟩ (.of .translationUnit 15),
    .visit ⟨unit, none⟩ (.of .bindingDecl 14),
    .visit ⟨unit, some outer⟩ (.of .bindingPattern 5),
    .visit ⟨unit, some outer⟩ (.of .tuplePattern 4),
    .visit ⟨unit, some outer⟩ (.of .namePattern 1),
    .visit ⟨unit, some outer⟩ (.of .varDecl 0),
    .visit ⟨unit, some outer⟩ (.of .namePattern 3),
    .visit ⟨unit, some outer⟩ (.of .varDecl 2),
    .visit ⟨unit, some outer⟩ (.of .lambdaExpr 13),
    .visit ⟨unit, some outer⟩ (.of .functionDecl 12),
    .visit ⟨function, some outer⟩ (.of .braceStmt 11),
    .visit ⟨block, some outer⟩ (.of .declStmt 10),
    .visit ⟨block, some outer⟩ (.of .bindingDecl 9),
    .visit ⟨block, some inner⟩ (.of .bindingPattern 8),
    .visit ⟨block, some inner⟩ (.of .namePattern 7),
    .visit ⟨block, some inner⟩ (.of .varDecl 6)]

def scopedPair : ScopedProgram := ⟨pairBinding, .ofLog pairBindingLog⟩

theorem treeShaped_pairBinding : pairBinding.TreeShaped where
  wellBuilt := by
    unfold pairBinding
    repeat refine .insert ?_ (by decide)
    exact .empty
  once := by decide
  noModule := by decide

theorem scopeLog_pairBinding : pairBinding.scopeLog = .ok pairBindingLog := by
  unfold Arena.scopeLog Arena.moduleLog Arena.visitsBelow
  simp only [Arena.visits_eq_visitsWithin]
  rfl

theorem ofArena?_pairBinding : ofArena? pairBinding = .ok scopedPair :=
  ofArena?_eq_ok_iff_scopeLog.2 ⟨_, scopeLog_pairBinding, by decide +kernel, rfl⟩

theorem varsInNamePatterns_pairBinding : pairBinding.VarsInNamePatterns := by
  have hnodes : ∀ n ∈ pairBinding.nodes.toList, ∀ v ∈ n.children, v.kind = .varDecl →
      n.kind = .namePattern := by decide
  rintro q v ⟨n, hn, hkind, hv⟩ hvar
  rw [← hkind]
  exact hnodes n (Arena.mem_nodes_of_node? hn) v hv hvar

theorem names_pairBinding :
    pairBinding.names (IdentOf.ofIndex .bindingPattern 5) =
      .ok [⟨[0], .ofIndex .namePattern 1⟩, ⟨[1], .ofIndex .namePattern 3⟩] := by
  rw [← Arena.names_widen, Arena.names_eq_namesFrom, Arena.namesFrom, Arena.partsWithin]
  rfl

theorem introduces_pairBinding :
    pairBinding.TreeShaped ∧ pairBinding.VarsInNamePatterns ∧
      ofArena? pairBinding = .ok scopedPair ∧
      scopedPair.arena.contains (IdentOf.ofIndex .bindingDecl 14) = true ∧
      scopedPair.Introduces (.ofIndex .bindingDecl 14)
        { pattern := .ofIndex .bindingPattern 5
          initializer := some (IdentOf.ofIndex .lambdaExpr 13).widen }
        [.ofIndex .varDecl 0, .ofIndex .varDecl 2] := by
  obtain ⟨decl, names, vars, hdecl, hnames, hmap, hintroduces⟩ :=
    exists_introduces (b := .ofIndex .bindingDecl 14) treeShaped_pairBinding
      varsInNamePatterns_pairBinding ofArena?_pairBinding (by decide)
  obtain rfl : BindingDecl.mk (.ofIndex .bindingPattern 5)
      (some (IdentOf.ofIndex .lambdaExpr 13).widen) = decl := Option.some.inj hdecl
  cases hnames.symm.trans names_pairBinding
  have hvars : [IdentOf.ofIndex .varDecl 0, .ofIndex .varDecl 2].map some = vars.map some := hmap
  obtain rfl := (List.map_inj_right fun _ _ => Option.some.inj).1 hvars
  exact ⟨treeShaped_pairBinding, varsInNamePatterns_pairBinding, ofArena?_pairBinding, by decide,
    hintroduces⟩

end ScopedProgram

end TypedTree
