import TypedTree.Proofs.Scope.Log

/-!
# What surrounds a node

`NearestAbove` is the rule of lexical scoping: of the nodes above another one, the nearest
of a class. The surroundings that a resolution hands down obey the rule at every visit
(`surrounds_of_mem_scopeLog`), since a step down either meets a nearer node or keeps the
nearest one. `exists_event_of_get?` leads from an entry of a table back to the event that
wrote it.
-/

namespace TypedTree

open Relation

namespace Arena

variable {c d : Class} {a : Arena} {p x child id : NodeId} {q : Ident c}

/-- Of the nodes above `x` that the class of `q` admits, `q` is the nearest. -/
def NearestAbove (a : Arena) (q : Ident c) (x : Ident d) : Prop :=
  Nearest a.HasChild (fun y => c.admits y.kind = true) q.toAny x.toAny

theorem NearestAbove.contains {x : Ident d} (h : a.NearestAbove q x) : a.contains q = true := by
  rw [← contains_toAny]
  exact contains_of_above h.above

theorem nearestAbove_of_narrow? (h : Forest a.HasChild) (hchild : a.HasChild p child)
    (hq : p.narrow? c = some q) : a.NearestAbove q child := by
  have hp : q.toAny = p := Ident.narrow?_eq_some_iff_toAny.1 hq
  have hparent : Nearest a.HasChild (fun y => c.admits y.kind = true) q.toAny child :=
    h.nearest_parent (hp ▸ hchild) q.admitted
  exact hparent

theorem nearestAbove_of_narrow?_eq_none (h : Forest a.HasChild) (hchild : a.HasChild p child)
    (hp : p.narrow? c = none) (hq : a.NearestAbove q p) : a.NearestAbove q child := by
  have hkind : ¬ c.admits p.kind = true := by
    rw [← Ident.isSome_narrow?, hp]
    exact Bool.false_ne_true
  exact (h.nearest_iff hchild hkind).2 hq

/-- The surroundings of a node are the nearest scope and the nearest binding above it. -/
structure Surrounds (a : Arena) (around : Surroundings) (x : NodeId) : Prop where
  scope : a.NearestAbove around.scope x
  binding : ∀ b ∈ around.binding, a.NearestAbove b x

theorem Surrounds.enter {around inner : Surroundings} (h : Forest a.HasChild)
    (hx : a.Surrounds around x) (hchild : a.HasChild x child)
    (henter : around.enter x = some inner) : a.Surrounds inner child where
  scope := by
    rcases Surroundings.scope_of_enter henter with heq | ⟨hnone, heq⟩
    · exact nearestAbove_of_narrow? h hchild (Ident.narrow?_eq_some_iff_toAny.2 heq)
    · rw [heq]
      exact nearestAbove_of_narrow?_eq_none h hchild hnone hx.scope
  binding b hb := by
    rcases Surroundings.binding_of_enter henter hb with heq | ⟨hnone, hb⟩
    · exact nearestAbove_of_narrow? h hchild (Ident.narrow?_eq_some_iff_toAny.2 heq)
    · exact nearestAbove_of_narrow?_eq_none h hchild hnone (hx.binding b hb)

theorem surrounds_of_module {m : IdentOf .moduleDecl} (h : Forest a.HasChild)
    (hchild : a.HasChild m.toAny child) : a.Surrounds ⟨m.widen, none⟩ child where
  scope := nearestAbove_of_narrow? h hchild (Ident.narrow?_eq_some_iff.2 ⟨rfl, rfl⟩)
  binding := fun _ hb => nomatch hb

theorem surrounds_of_reflTransGen {v w : Surroundings × NodeId} (h : Forest a.HasChild)
    (hv : a.Surrounds v.1 v.2) (hw : ReflTransGen (a.VisitStep Surroundings.enter) v w) :
    a.Surrounds w.1 w.2 := by
  induction hw with
  | refl => exact hv
  | tail _ hstep ih => exact ih.enter h hstep.2 hstep.1

/-- The surroundings of a node are above it, though perhaps on different ways. -/
structure Encloses (a : Arena) (around : Surroundings) (x : NodeId) : Prop where
  scope : TransGen a.HasChild around.scope.toAny x
  binding : ∀ b ∈ around.binding, TransGen a.HasChild b.toAny x

theorem Encloses.enter {around inner : Surroundings} (hx : a.Encloses around x)
    (hchild : a.HasChild x child) (henter : around.enter x = some inner) :
    a.Encloses inner child where
  scope := by
    rcases Surroundings.scope_of_enter henter with heq | ⟨-, heq⟩
    · exact .single (heq ▸ hchild)
    · exact heq ▸ hx.scope.tail hchild
  binding b hb := by
    rcases Surroundings.binding_of_enter henter hb with heq | ⟨-, hb⟩
    · exact .single (heq ▸ hchild)
    · exact (hx.binding b hb).tail hchild

theorem encloses_of_reflTransGen {v w : Surroundings × NodeId} (hv : a.Encloses v.1 v.2)
    (hw : ReflTransGen (a.VisitStep Surroundings.enter) v w) : a.Encloses w.1 w.2 := by
  induction hw with
  | refl => exact hv
  | tail _ hstep ih => exact ih.enter hstep.2 hstep.1

theorem Reached.contains (h : a.WellBuilt) (hx : a.Reached x) : a.contains x = true := by
  obtain ⟨m, hm, hbelow⟩ := hx
  rcases hbelow.cases_tail with heq | ⟨y, -, hy⟩
  · rw [heq, contains_toAny]
    exact h.mem_modules_iff.1 hm
  · exact h.contains_child hy

end Arena

namespace ScopeTables

variable {a : Arena} {c : Class} {β : Type} {log : List Event} {e : Event}
  {around : Surroundings} {id : NodeId} {s : ScopeId}

theorem reached_of_mem_scopeLog (h : a.WellBuilt) (hlog : a.scopeLog = .ok log)
    (he : e ∈ log) : a.Reached e.node := by
  cases e with
  | module m => exact ⟨m, (Arena.module_mem_scopeLog_iff hlog).1 he, .refl⟩
  | visit around id =>
      obtain ⟨m, hm, hbelow⟩ := (h.exists_visit_iff hlog).1 ⟨around, he⟩
      exact ⟨m, hm, hbelow.to_reflTransGen⟩

theorem exists_visit_of_reached (h : a.WellBuilt) (hlog : a.scopeLog = .ok log)
    (hid : a.Reached id) (hkind : id.kind ≠ .moduleDecl) : ∃ around, .visit around id ∈ log := by
  obtain ⟨m, hm, hbelow⟩ := hid
  rcases reflTransGen_iff_eq_or_transGen.1 hbelow with heq | hbelow
  · rw [heq, Ident.kind_toAny, IdentOf.kind_eq] at hkind
    exact absurd rfl hkind
  · exact (h.exists_visit_iff hlog).2 ⟨m, hm, hbelow⟩

/-- A visit is surrounded by what lies nearest above the node. -/
theorem surrounds_of_mem_scopeLog (h : a.TreeShaped) (hlog : a.scopeLog = .ok log)
    (hvisit : .visit around id ∈ log) : a.Surrounds around id := by
  obtain ⟨m, -, child, hchild, hsteps⟩ := (h.wellBuilt.visit_mem_scopeLog_iff hlog).1 hvisit
  exact Arena.surrounds_of_reflTransGen h.forest (Arena.surrounds_of_module h.forest hchild) hsteps

theorem encloses_of_mem_scopeLog (h : a.WellBuilt) (hlog : a.scopeLog = .ok log)
    (hvisit : .visit around id ∈ log) : a.Encloses around id := by
  obtain ⟨m, -, child, hchild, hsteps⟩ := (h.visit_mem_scopeLog_iff hlog).1 hvisit
  have htop : a.Encloses ⟨m.widen, none⟩ child := ⟨.single hchild, fun _ hb => nomatch hb⟩
  exact Arena.encloses_of_reflTransGen htop hsteps

theorem contains_of_visit (h : a.WellBuilt) (hlog : a.scopeLog = .ok log)
    (hvisit : .visit around id ∈ log) :
    a.contains id = true ∧ a.contains around.scope = true ∧
      ∀ b ∈ around.binding, a.contains b = true := by
  have hencloses := encloses_of_mem_scopeLog h hlog hvisit
  have hreached := reached_of_mem_scopeLog h hlog hvisit
  refine ⟨hreached.contains h, ?_, fun b hb => ?_⟩
  · rw [← Arena.contains_toAny]
    exact Arena.contains_of_above hencloses.scope
  · rw [← Arena.contains_toAny]
    exact Arena.contains_of_above (hencloses.binding b hb)

/-- What is read under an identity that the arena knows was written by an event there. -/
theorem exists_event_of_get? {f : Event → Option (Ident c × β)}
    (hf : ∀ {e k v}, f e = some (k, v) → e.node = k.toAny) (h : a.WellBuilt)
    (hlog : a.scopeLog = .ok log) {k : Ident c} (hk : a.contains k = true) {v : β}
    (hv : ((∅ : Table (Ident c) β).writeAll (log.filterMap f)).get? k = some v) :
    ∃ e ∈ log, f e = some (k, v) := by
  obtain ⟨j, hmem, hindex⟩ := Table.mem_of_get?_writeAll hv
  obtain ⟨e, he, hj⟩ := List.mem_filterMap.1 hmem
  have hcontains : a.contains j = true := by
    have hreached := reached_of_mem_scopeLog h hlog he
    rw [hf hj] at hreached
    rw [← Arena.contains_toAny]
    exact hreached.contains h
  obtain rfl : j = k := Arena.eq_of_contains hcontains hk hindex
  exact ⟨e, he, hj⟩

theorem isSome_get?_of_mem {f : Event → Option (Ident c × β)} (he : e ∈ log) {k : Ident c} {v : β}
    (hentry : f e = some (k, v)) :
    (((∅ : Table (Ident c) β).writeAll (log.filterMap f)).get? k).isSome :=
  Table.isSome_get?_writeAll ∅ (List.mem_filterMap.2 ⟨e, he, hentry⟩) rfl

/-- A resolution gives a parent to the scopes below the modules. -/
theorem isSome_parent_iff (h : a.WellBuilt) (hlog : a.scopeLog = .ok log)
    (hs : a.contains s = true) :
    ((ofLog log).parents.get? s).isSome ↔
      ∃ m ∈ a.modules, TransGen a.HasChild m.toAny s.toAny := by
  rw [← h.exists_visit_iff hlog, Option.isSome_iff_exists]
  constructor
  · rintro ⟨q, hq⟩
    obtain ⟨e, he, hentry⟩ := exists_event_of_get? Event.node_of_parent? h hlog hs hq
    obtain ⟨around, rfl, -⟩ := Event.parent?_eq_some_iff.1 hentry
    exact ⟨around, he⟩
  · rintro ⟨around, hvisit⟩
    exact Option.isSome_iff_exists.1
      (isSome_get?_of_mem hvisit (Event.parent?_eq_some_iff.2 ⟨around, rfl, rfl⟩))

end ScopeTables

end TypedTree
