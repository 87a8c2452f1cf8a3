import TypedTree.Program.Basic
import TypedTree.Proofs.Scope.Lexical

/-!
# Tables that describe a checked program

`PropertyTables.idents` lists every identity in the tables. The check looks at those in
`guarded` and at none of those in `unguarded`, which are the declaration that an environment
names for itself, the traits in its constraints and the operators of folded sequences.
`Describes` says what the full check accepts (`check_full_eq_ok_iff`). So each identity in a
program is unguarded or denotes one of its nodes, and the program holds identities of its own
arena only, if and only if the unguarded ones are such (`forall_contains_idents_iff`).
-/

namespace TypedTree

namespace GenericConstraint

def traitIdents : GenericConstraint → List NodeId
  | .conformance _ traits => traits.toList.map Ident.toAny
  | .equality _ _ => []

end GenericConstraint

namespace GenericEnvironment

def traitIdents (e : GenericEnvironment) : List NodeId :=
  e.constraints.flatMap GenericConstraint.traitIdents

def idents (e : GenericEnvironment) : List NodeId :=
  e.decl.toAny :: e.parameters.map Ident.toAny ++ e.traitIdents

theorem forall_mem_idents {e : GenericEnvironment} {q : NodeId → Prop} :
    (∀ id ∈ e.idents, q id) ↔
      (∀ d ∈ e.parameters, q d.toAny) ∧ ∀ id ∈ e.decl.toAny :: e.traitIdents, q id := by
  simp only [idents, List.cons_append, List.forall_mem_cons, List.forall_mem_append,
    List.forall_mem_map]
  exact and_left_comm

end GenericEnvironment

namespace Folded

def idents : Folded → List NodeId
  | leaf e => [e.toAny]
  | apply op _ l r => op.toAny :: (l.idents ++ r.idents)

theorem forall_mem_idents {f : Folded} {q : NodeId → Prop} :
    (∀ id ∈ f.idents, q id) ↔ (∀ e ∈ f.operands, q e.toAny) ∧ ∀ op ∈ f.operators, q op.toAny := by
  induction f with
  | leaf e => simp [idents, operands, operators]
  | apply op p l r ihl ihr =>
      simp only [idents, operands, operators, List.forall_mem_append, List.forall_mem_cons,
        List.not_mem_nil, false_imp_iff, implies_true, and_true, ihl, ihr]
      constructor
      · rintro ⟨hop, ⟨hl, hl'⟩, hr, hr'⟩
        exact ⟨⟨hl, hr⟩, ⟨hl', hr'⟩, hop⟩
      · rintro ⟨⟨hl, hr⟩, ⟨hl', hr'⟩, hop⟩
        exact ⟨hop, ⟨hl, hl'⟩, hr, hr'⟩

end Folded

namespace PropertyTables

/-- The identities in the tables, those in environments and folded sequences as given. -/
def identsWith (t : PropertyTables) (environment : GenericEnvironment → List NodeId)
    (folded : Folded → List NodeId) : List NodeId :=
  (t.imports.entries.flatMap fun e => e.1.toAny :: e.2.toList.map Ident.toAny) ++
    t.declTypes.keys.map Ident.toAny ++ t.exprTypes.keys.map Ident.toAny ++
    (t.implicitCaptures.entries.flatMap fun e => e.1.toAny :: e.2.map (·.decl.toAny)) ++
    (t.environments.entries.flatMap fun e => e.1.toAny :: environment e.2) ++
    (t.synthesized.entries.flatMap fun e =>
      e.1.toAny :: e.2.flatMap fun made => [made.id.toAny, made.scope.toAny]) ++
    (t.references.entries.flatMap fun e => [e.1.toAny, e.2.decl.toAny]) ++
    (t.folded.entries.flatMap fun e => e.1.toAny :: folded e.2)

def idents (t : PropertyTables) : List NodeId :=
  t.identsWith GenericEnvironment.idents Folded.idents

def guarded (t : PropertyTables) : List NodeId :=
  t.identsWith (fun e => e.parameters.map Ident.toAny) fun f => f.operands.map Ident.toAny

/-- The identities that the check does not look at: the declarations and traits that
environments name, and the operators of folded sequences. -/
def unguarded (t : PropertyTables) : List NodeId :=
  (t.environments.entries.flatMap fun e => e.2.decl.toAny :: e.2.traitIdents) ++
    t.folded.entries.flatMap fun e => e.2.operators.map Ident.toAny

/-- The tables describe a program over the arena `a`, with types from `p`. -/
structure Describes (t : PropertyTables) (a : Arena) (p : TypePool) : Prop where
  checked : ∀ m ∈ a.modules, t.isChecked p m = true
  known : ∀ id ∈ t.guarded, a.contains id = true
  typedDecls : ∀ d ∈ a.idsOf (.category .decl), t.declTypes.contains d = true
  typedExprs : ∀ e ∈ a.idsOf (.category .expr), t.exprTypes.contains e = true
  resolved : ∀ n ∈ a.idsOf (.only .nameExpr), t.references.contains n = true

variable {t : PropertyTables} {a : Arena} {p : TypePool} {id : NodeId}

theorem forall_mem_identsWith {environment : GenericEnvironment → List NodeId}
    {folded : Folded → List NodeId} {q : NodeId → Prop} :
    (∀ id ∈ t.identsWith environment folded, q id) ↔
      (∀ e ∈ t.imports.entries, q e.1.toAny ∧ ∀ m ∈ e.2.toList, q m.toAny) ∧
      (∀ d ∈ t.declTypes.keys, q d.toAny) ∧
      (∀ e ∈ t.exprTypes.keys, q e.toAny) ∧
      (∀ e ∈ t.implicitCaptures.entries, q e.1.toAny ∧ ∀ c ∈ e.2, q c.decl.toAny) ∧
      (∀ e ∈ t.environments.entries, q e.1.toAny ∧ ∀ id ∈ environment e.2, q id) ∧
      (∀ e ∈ t.synthesized.entries,
        q e.1.toAny ∧ ∀ made ∈ e.2, q made.id.toAny ∧ q made.scope.toAny) ∧
      (∀ e ∈ t.references.entries, q e.1.toAny ∧ q e.2.decl.toAny) ∧
      ∀ e ∈ t.folded.entries, q e.1.toAny ∧ ∀ id ∈ folded e.2, q id := by
  simp only [identsWith, List.forall_mem_append, List.forall_mem_flatMap, List.forall_mem_cons,
    List.forall_mem_map, List.not_mem_nil, false_imp_iff, implies_true, and_true, and_assoc]

-- `entries` sorts by slots, which does not evaluate, so the order of indices is taken here
instance (q : NodeId → Prop) [DecidablePred q] : Decidable (∀ id ∈ t.guarded, q id) :=
  decidable_of_iff
    ((∀ e ∈ t.imports.sortedEntries, q e.1.toAny ∧ ∀ m ∈ e.2.toList, q m.toAny) ∧
      (∀ e ∈ t.declTypes.sortedEntries, q e.1.toAny) ∧
      (∀ e ∈ t.exprTypes.sortedEntries, q e.1.toAny) ∧
      (∀ e ∈ t.implicitCaptures.sortedEntries, q e.1.toAny ∧ ∀ c ∈ e.2, q c.decl.toAny) ∧
      (∀ e ∈ t.environments.sortedEntries, q e.1.toAny ∧ ∀ d ∈ e.2.parameters, q d.toAny) ∧
      (∀ e ∈ t.synthesized.sortedEntries,
        q e.1.toAny ∧ ∀ made ∈ e.2, q made.id.toAny ∧ q made.scope.toAny) ∧
      (∀ e ∈ t.references.sortedEntries, q e.1.toAny ∧ q e.2.decl.toAny) ∧
      ∀ e ∈ t.folded.sortedEntries, q e.1.toAny ∧ ∀ d ∈ e.2.operands, q d.toAny)
    (by
      unfold guarded
      simp only [forall_mem_identsWith, Table.keys, List.forall_mem_map,
        (Table.perm_sortedEntries _).mem_iff])

instance : Decidable (t.Describes a p) :=
  decidable_of_iff
    ((∀ m ∈ a.modules, t.isChecked p m = true) ∧ (∀ id ∈ t.guarded, a.contains id = true) ∧
      (∀ d ∈ a.idsOf (.category .decl), t.declTypes.contains d = true) ∧
      (∀ e ∈ a.idsOf (.category .expr), t.exprTypes.contains e = true) ∧
      ∀ n ∈ a.idsOf (.only .nameExpr), t.references.contains n = true)
    ⟨fun ⟨hchecked, hknown, hdecls, hexprs, hnames⟩ => ⟨hchecked, hknown, hdecls, hexprs, hnames⟩,
      fun h => ⟨h.checked, h.known, h.typedDecls, h.typedExprs, h.resolved⟩⟩

theorem forall_mem_idents {q : NodeId → Prop} :
    (∀ id ∈ t.idents, q id) ↔ (∀ id ∈ t.guarded, q id) ∧ ∀ id ∈ t.unguarded, q id := by
  simp only [idents, guarded, unguarded, forall_mem_identsWith, List.forall_mem_append,
    List.forall_mem_flatMap, List.forall_mem_map, GenericEnvironment.forall_mem_idents,
    Folded.forall_mem_idents]
  constructor
  · rintro ⟨himports, hdecls, hexprs, hcaptures, henvironments, hmade, hreferences, hfolded⟩
    exact ⟨⟨himports, hdecls, hexprs, hcaptures,
      fun e he => ⟨(henvironments e he).1, (henvironments e he).2.1⟩, hmade, hreferences,
      fun e he => ⟨(hfolded e he).1, (hfolded e he).2.1⟩⟩,
      fun e he => (henvironments e he).2.2, fun e he => (hfolded e he).2.2⟩
  · rintro ⟨⟨himports, hdecls, hexprs, hcaptures, henvironments, hmade, hreferences, hfolded⟩,
      hnamed, hoperators⟩
    exact ⟨himports, hdecls, hexprs, hcaptures,
      fun e he => ⟨(henvironments e he).1, (henvironments e he).2, hnamed e he⟩, hmade,
      hreferences, fun e he => ⟨(hfolded e he).1, (hfolded e he).2, hoperators e he⟩⟩

theorem mem_idents_iff : id ∈ t.idents ↔ id ∈ t.guarded ∨ id ∈ t.unguarded := by
  have hlisted : ∀ x ∈ t.idents, x ∈ t.guarded ∨ x ∈ t.unguarded :=
    forall_mem_idents.2 ⟨fun _ => Or.inl, fun _ => Or.inr⟩
  obtain ⟨hguarded, hunguarded⟩ := forall_mem_idents.1 fun x (hx : x ∈ t.idents) => hx
  exact ⟨hlisted id, fun hid => hid.elim (hguarded id) (hunguarded id)⟩

theorem Describes.contains_import (h : t.Describes a p) {u : IdentOf .translationUnit}
    {modules : IndexSet (IdentOf .moduleDecl)} (hu : t.imports.get? u = some modules)
    {m : IdentOf .moduleDecl} (hm : m ∈ modules.toList) : a.contains m = true := by
  obtain ⟨himports, -⟩ := forall_mem_identsWith.1 h.known
  rw [← Arena.contains_toAny]
  exact Table.of_get?_eq_some (fun modules => ∀ m ∈ modules.toList, a.contains m.toAny = true)
    (fun e he => (himports e he).2) hu m hm

theorem Describes.contains_scope (h : t.Describes a p) {m : IdentOf .moduleDecl}
    {made : List SynthesizedEntry} (hm : t.synthesized.get? m = some made)
    {entry : SynthesizedEntry} (hentry : entry ∈ made) : a.contains entry.scope = true := by
  obtain ⟨-, -, -, -, -, hsynthesized, -⟩ := forall_mem_identsWith.1 h.known
  obtain ⟨k, -, hmem⟩ := (Table.get?_eq_some_iff _ _ _).1 hm
  rw [← Arena.contains_toAny]
  exact ((hsynthesized _ hmem).2 entry hentry).2

theorem Describes.contains_reference (h : t.Describes a p) {n : IdentOf .nameExpr}
    {reference : DeclReference} (hn : t.references.get? n = some reference) :
    a.contains reference.decl = true := by
  obtain ⟨-, -, -, -, -, -, hreferences, -⟩ := forall_mem_identsWith.1 h.known
  rw [← Arena.contains_toAny]
  exact Table.of_get?_eq_some (fun reference => a.contains reference.decl.toAny = true)
    (fun e he => (hreferences e he).2) hn

theorem checkKey_toAny {c : Class} {id : Ident c} : a.checkKey id.toAny = a.checkKey id := by
  rw [Arena.checkKey, Arena.checkKey, Arena.contains_toAny]
  rfl

theorem checkKeys_eq : t.checkKeys a = t.guarded.forM a.checkKey := by
  simp only [checkKeys, guarded, identsWith, List.forM_eq_forM, List.forM_append, List.forM_map,
    forM_flatMap, List.forM_cons, List.forM_nil, checkKey_toAny, bind_assoc, bind_pure_unit]

theorem checkKeys_eq_ok_iff :
    t.checkKeys a = .ok () ↔ ∀ id ∈ t.guarded, a.contains id = true := by
  simp only [checkKeys_eq, forM_eq_ok_iff, Arena.checkKey_eq_ok_iff]

theorem checkModules_eq_ok_iff :
    t.checkModules a p = .ok () ↔ ∀ m ∈ a.modules, t.isChecked p m = true := by
  unfold checkModules
  simp only [forM_eq_ok_iff, unless_eq_ok_iff]

theorem checkTotality_eq_ok_iff :
    t.checkTotality a = .ok () ↔
      (∀ d ∈ a.idsOf (.category .decl), t.declTypes.contains d = true) ∧
      (∀ e ∈ a.idsOf (.category .expr), t.exprTypes.contains e = true) ∧
      ∀ n ∈ a.idsOf (.only .nameExpr), t.references.contains n = true := by
  unfold checkTotality
  simp only [andThen_eq_ok_iff, forM_eq_ok_iff, unless_eq_ok_iff]

theorem check_full_eq_ok_iff : t.check a p .full = .ok () ↔ t.Describes a p := by
  change (t.checkModules a p >>= fun _ => t.checkKeys a >>= fun _ => t.checkTotality a) =
    .ok () ↔ _
  simp only [andThen_eq_ok_iff, checkModules_eq_ok_iff, checkKeys_eq_ok_iff,
    checkTotality_eq_ok_iff]
  constructor
  · rintro ⟨hchecked, hknown, hdecls, hexprs, hnames⟩
    exact ⟨hchecked, hknown, hdecls, hexprs, hnames⟩
  · rintro ⟨hchecked, hknown, hdecls, hexprs, hnames⟩
    exact ⟨hchecked, hknown, hdecls, hexprs, hnames⟩

end PropertyTables

namespace TypedProgram

variable {source : ScopedProgram} {pool : TypePool} {t : PropertyTables} {r : Relations}
  {p : TypedProgram}

theorem ofParts?_full_eq_ok_iff :
    ofParts? source pool t r .full = .ok p ↔
      t.Describes source.arena pool ∧ p = ⟨source, pool, t, r⟩ := by
  rw [ofParts?_eq_ok_iff, PropertyTables.check_full_eq_ok_iff]

/-- Each identity in a program that passed the full check is a guarded one, and then denotes
one of its nodes, or an unguarded one. So the program holds no identity but those of its own
nodes, if and only if the unguarded identities are such. -/
theorem forall_contains_idents_iff (h : ofParts? source pool t r .full = .ok p) :
    (∀ id, id ∈ p.properties.idents ↔ id ∈ p.properties.guarded ∨ id ∈ p.properties.unguarded) ∧
      (∀ id ∈ p.properties.guarded, p.arena.contains id = true) ∧
      ((∀ id ∈ p.properties.idents, p.arena.contains id = true) ↔
        ∀ id ∈ p.properties.unguarded, p.arena.contains id = true) := by
  obtain ⟨hdescribes, rfl⟩ := ofParts?_full_eq_ok_iff.1 h
  refine ⟨fun _ => PropertyTables.mem_idents_iff, hdescribes.known, ?_⟩
  rw [PropertyTables.forall_mem_idents]
  exact and_iff_right hdescribes.known

section StrayOperator

open ScopedProgram (boundLambda scopedLambda ofArena?_boundLambda)

/-- The builtin types and that of the module of `boundLambda`. -/
def lambdaTypes : TypePool := TypePool.new.push (.module (.ofIndex .moduleDecl 9))

/-- The name in `boundLambda` combined with itself by an operator that is no node. -/
def strayFolded : Folded :=
  .apply (.ofIndex .nameExpr 10) .addition (.leaf (IdentOf.ofIndex .nameExpr 3).widen)
    (.leaf (IdentOf.ofIndex .nameExpr 3).widen)

def strayOperator : PropertyTables where
  declTypes := (∅ : Table DeclId TypeId).insert (IdentOf.ofIndex .varDecl 0).widen ⟨3⟩
    |>.insert (IdentOf.ofIndex .functionDecl 5).widen ⟨3⟩
    |>.insert (IdentOf.ofIndex .bindingDecl 7).widen ⟨3⟩
    |>.insert (IdentOf.ofIndex .moduleDecl 9).widen ⟨7⟩
  exprTypes := (∅ : Table ExprId TypeId).insert (IdentOf.ofIndex .nameExpr 3).widen ⟨3⟩
    |>.insert (IdentOf.ofIndex .sequenceExpr 4).widen ⟨3⟩
    |>.insert (IdentOf.ofIndex .lambdaExpr 6).widen ⟨3⟩
  references := (∅ : Table _ _).insert (.ofIndex .nameExpr 3)
    (.direct (IdentOf.ofIndex .varDecl 0).widen)
  folded := (∅ : Table _ _).insert (.ofIndex .sequenceExpr 4) strayFolded

theorem describes_strayOperator : strayOperator.Describes boundLambda lambdaTypes := by
  decide +kernel

theorem ofParts?_strayOperator :
    ofParts? scopedLambda lambdaTypes strayOperator (∅ : RelationTable).relations .full =
      .ok ⟨scopedLambda, lambdaTypes, strayOperator, (∅ : RelationTable).relations⟩ :=
  ofParts?_full_eq_ok_iff.2 ⟨describes_strayOperator, rfl⟩

theorem stray_mem_unguarded : NodeId.of .nameExpr 10 ∈ strayOperator.unguarded := by
  have hentry : (IdentOf.ofIndex .sequenceExpr 4, strayFolded) ∈ strayOperator.folded.entries :=
    Table.mem_entries.2 rfl
  exact List.mem_append_right _ (List.mem_flatMap.2 ⟨_, hentry, by decide⟩)

theorem forall_contains_idents_iff_strayOperator :
    ∃ p, ofParts? scopedLambda lambdaTypes strayOperator (∅ : RelationTable).relations .full =
        .ok p ∧
      (∀ id, id ∈ p.properties.idents ↔ id ∈ p.properties.guarded ∨ id ∈ p.properties.unguarded) ∧
      (∀ id ∈ p.properties.guarded, p.arena.contains id = true) ∧
      ((∀ id ∈ p.properties.idents, p.arena.contains id = true) ↔
        ∀ id ∈ p.properties.unguarded, p.arena.contains id = true) :=
  ⟨_, ofParts?_strayOperator, forall_contains_idents_iff ofParts?_strayOperator⟩

/-- A folded sequence gets into a program with an operator that is no node of it. -/
theorem accepts_strayOperator :
    ∃ source p, ScopedProgram.ofArena? boundLambda = .ok source ∧
      ofParts? source lambdaTypes strayOperator (∅ : RelationTable).relations .full = .ok p ∧
        ¬ ∀ id ∈ p.properties.idents, p.arena.contains id = true := by
  refine ⟨_, _, ofArena?_boundLambda, ofParts?_strayOperator, fun hidents => ?_⟩
  have hunguarded := (PropertyTables.forall_mem_idents.1 hidents).2
  have hstray := hunguarded _ stray_mem_unguarded
  exact absurd hstray (by decide)

end StrayOperator

end TypedProgram

end TypedTree
