import TypedTree.Proofs.Ty.Alias

/-!
# Recorded facts

A `Fact` is a subtype relation or a conformance. `RelationTable.run` records facts and aliases
one after another, and `holds` asks for a fact. A question is put with the types that the
aliases lead to in the end, whereas a fact stays as it was recorded (`records_run`). So a fact
holds if and only if its form without aliases is trivial or was recorded (`holds_run_iff`),
and a fact recorded of an alias may be lost (`loses_aliasedFacts`).
-/

namespace TypedTree

open Relation

inductive Fact where
  | subtype (lhs rhs : TypeId)
  | conformance (ty : TypeId) (trait : IdentOf .traitDecl) (scope : ScopeId)

namespace Fact

def types : Fact → List TypeId
  | subtype lhs rhs => [lhs, rhs]
  | conformance ty _ _ => [ty]

/-- A type is a subtype of itself, and the bottom type of every one. -/
inductive Trivial : Fact → Prop
  | refl (t : TypeId) : Trivial (.subtype t t)
  | never (t : TypeId) : Trivial (.subtype .never t)

end Fact

namespace RelationTable

inductive Op where
  | record (fact : Fact)
  | addAlias (ty target : TypeId)

def apply (r : RelationTable) : Op → RelationTable
  | .record (.subtype lhs rhs) => r.addSubtype lhs rhs
  | .record (.conformance ty trait scope) => r.addConformance ty trait scope
  | .addAlias ty target => r.addAlias ty target

def run (ops : List Op) : RelationTable := ops.foldl apply ∅

def holds (r : RelationTable) : Fact → Bool
  | .subtype lhs rhs => r.isSubtype lhs rhs
  | .conformance ty trait scope => r.conforms ty trait scope

/-- The fact is in the table, as it was recorded. -/
def Records (r : RelationTable) : Fact → Prop
  | .subtype lhs rhs => (lhs, rhs) ∈ r.subtypes
  | .conformance ty trait scope => ⟨ty, trait, scope⟩ ∈ r.conformances

/-- The second fact is the first with the types that its types stand for. Scopes at one
position are one scope. -/
inductive Resolves (r : RelationTable) : Fact → Fact → Prop
  | subtype {l l' u u' : TypeId} (hl : r.StandsFor l l') (hu : r.StandsFor u u') :
      r.Resolves (.subtype l u) (.subtype l' u')
  | conformance {t t' : TypeId} {trait : IdentOf .traitDecl} {s s' : ScopeId}
      (ht : r.StandsFor t t') (hs : s'.index = s.index) :
      r.Resolves (.conformance t trait s) (.conformance t' trait s')

variable {r : RelationTable} {ops : List Op} {f g : Fact} {op : Op}

theorem records_apply : (r.apply op).Records f ↔ op = .record f ∨ r.Records f := by
  cases op with
  | addAlias ty target => cases f <;> simp [apply, addAlias, Records]
  | record g =>
      cases g <;> cases f <;>
        simp [apply, addSubtype, addConformance, Records, eq_comm]

theorem records_run : (run ops).Records f ↔ .record f ∈ ops := by
  suffices hfrom : ∀ r : RelationTable,
      (ops.foldl apply r).Records f ↔ .record f ∈ ops ∨ r.Records f by
    rw [run, hfrom]
    cases f <;> exact or_iff_left (List.not_mem_nil)
  intro r
  induction ops generalizing r with
  | nil => simp
  | cons op ops ih =>
      rw [List.foldl_cons, ih, records_apply, List.mem_cons, or_assoc, or_left_comm,
        eq_comm (a := op)]

theorem isSubtype_eq_true_iff {l u : TypeId} :
    r.isSubtype l u = true ↔ (Fact.subtype (r.canonical l) (r.canonical u)).Trivial ∨
      r.Records (.subtype (r.canonical l) (r.canonical u)) := by
  simp only [isSubtype, Records, Bool.or_eq_true, beq_iff_eq, List.contains_iff_mem]
  refine or_congr_left ⟨?_, ?_⟩
  · rintro (heq | heq)
    · rw [heq]
      exact .refl _
    · rw [heq]
      exact .never _
  · generalize r.canonical l = l', r.canonical u = u'
    intro h
    cases h with
    | refl => exact .inl rfl
    | never => exact .inr rfl

theorem conforms_eq_true_iff {t : TypeId} {trait : IdentOf .traitDecl} {s : ScopeId} :
    r.conforms t trait s = true ↔
      ∃ s' : ScopeId, s'.index = s.index ∧ r.Records (.conformance (r.canonical t) trait s') := by
  simp only [conforms, Records, List.any_eq_true, Bool.and_eq_true, beq_iff_eq, Ident.same]
  constructor
  · rintro ⟨⟨t', trait', s'⟩, hmem, ⟨rfl, rfl⟩, hs⟩
    exact ⟨s', hs, hmem⟩
  · rintro ⟨s', hs, hmem⟩
    exact ⟨_, hmem, ⟨rfl, rfl⟩, hs⟩

/-- A fact holds exactly if it is trivial or recorded of the types that its types stand
for. -/
theorem holds_iff (h : ∀ t ∈ f.types, ∃ u, r.StandsFor t u) :
    r.holds f = true ↔ ∃ g, r.Resolves f g ∧ (g.Trivial ∨ r.Records g) := by
  cases f with
  | subtype l u =>
      rcases h l List.mem_cons_self with ⟨l', hl⟩
      rcases h u (List.mem_cons_of_mem _ List.mem_cons_self) with ⟨u', hu⟩
      rw [holds, isSubtype_eq_true_iff, hl.canonical_eq, hu.canonical_eq]
      constructor
      · exact fun hg => ⟨_, .subtype hl hu, hg⟩
      · rintro ⟨_, hg, hrecorded⟩
        cases hg with
        | subtype hl' hu' => rwa [hl.unique hl', hu.unique hu']
  | conformance t trait s =>
      rcases h t List.mem_cons_self with ⟨t', ht⟩
      rw [holds, conforms_eq_true_iff, ht.canonical_eq]
      constructor
      · rintro ⟨s', hs, hg⟩
        exact ⟨_, .conformance ht hs, .inr hg⟩
      · rintro ⟨_, hg, htrivial | hrecorded⟩
        · cases hg
          cases htrivial
        · cases hg with
          | conformance ht' hs => exact ⟨_, hs, by rwa [ht.unique ht']⟩

theorem holds_run_iff (h : ∀ t, ¬ TransGen (run ops).AliasOf t t) (f : Fact) :
    (run ops).holds f = true ↔
      ∃ g, (run ops).Resolves f g ∧ (g.Trivial ∨ .record g ∈ ops) := by
  rw [holds_iff fun _ _ => exists_standsFor fun u _ => h u]
  simp only [records_run]

theorem resolves_self (h : ∀ t ∈ f.types, r.aliases.get? t = none) : r.Resolves f f := by
  cases f with
  | subtype l u =>
      exact .subtype (.refl (h l List.mem_cons_self))
        (.refl (h u (List.mem_cons_of_mem _ List.mem_cons_self)))
  | conformance t trait s => exact .conformance (.refl (h t List.mem_cons_self)) rfl

/-- If no alias leads back to itself, a fact holds if and only if, its aliases resolved, it is
trivial or recorded, and all recorded facts hold if and only if this is so for each of them. A
recorded fact about types that are no aliases in the end holds in any case, whenever it was
recorded. -/
theorem forall_holds_iff (h : ∀ t, ¬ TransGen (run ops).AliasOf t t) :
    (∀ f, (run ops).holds f = true ↔
        ∃ g, (run ops).Resolves f g ∧ (g.Trivial ∨ .record g ∈ ops)) ∧
      ((∀ f, .record f ∈ ops → (run ops).holds f = true) ↔
      ∀ f, .record f ∈ ops →
        ∃ g, (run ops).Resolves f g ∧ (g.Trivial ∨ .record g ∈ ops)) ∧
      ∀ f, .record f ∈ ops → (∀ t ∈ f.types, (run ops).aliases.get? t = none) →
        (run ops).holds f = true :=
  ⟨holds_run_iff h, forall₂_congr fun f _ => holds_run_iff h f,
    fun f hf hnone => (holds_run_iff h f).2 ⟨f, resolves_self hnone, .inr hf⟩⟩

def aliasedFacts : List Op :=
  [.addAlias ⟨7⟩ ⟨5⟩, .record (.subtype ⟨7⟩ ⟨4⟩),
    .record (.conformance ⟨7⟩ (.ofIndex .traitDecl 0) (IdentOf.ofIndex .moduleDecl 1).widen)]

theorem aliasOf_aliasedFacts {t u : TypeId} (h : (run aliasedFacts).AliasOf t u) :
    t = ⟨7⟩ ∧ u = ⟨5⟩ := by
  change ((∅ : Table TypeId TypeId).insert ⟨7⟩ ⟨5⟩).get? t = some u at h
  rw [Table.get?_insert, Table.get?_empty] at h
  split at h
  · rename_i heq
    exact ⟨congrArg TypeId.mk heq.symm, (Option.some.inj h).symm⟩
  · cases h

theorem not_transGen_aliasedFacts (t : TypeId) : ¬ TransGen (run aliasedFacts).AliasOf t t := by
  intro h
  rcases TransGen.head'_iff.1 h with ⟨u, hfirst, -⟩
  rcases TransGen.tail'_iff.1 h with ⟨v, -, hlast⟩
  have hne := (aliasOf_aliasedFacts hfirst).1.symm.trans (aliasOf_aliasedFacts hlast).2
  cases hne

theorem forall_holds_iff_aliasedFacts :
    (∀ t, ¬ TransGen (run aliasedFacts).AliasOf t t) ∧
      (∀ f, (run aliasedFacts).holds f = true ↔
        ∃ g, (run aliasedFacts).Resolves f g ∧ (g.Trivial ∨ .record g ∈ aliasedFacts)) ∧
      ((∀ f, .record f ∈ aliasedFacts → (run aliasedFacts).holds f = true) ↔
        ∀ f, .record f ∈ aliasedFacts →
          ∃ g, (run aliasedFacts).Resolves f g ∧ (g.Trivial ∨ .record g ∈ aliasedFacts)) ∧
      ∀ f, .record f ∈ aliasedFacts →
        (∀ t ∈ f.types, (run aliasedFacts).aliases.get? t = none) →
          (run aliasedFacts).holds f = true :=
  ⟨not_transGen_aliasedFacts, forall_holds_iff not_transGen_aliasedFacts⟩

/-- No alias leads back to itself, and yet no fact recorded of the alias holds. -/
theorem loses_aliasedFacts :
    (∀ t, ¬ TransGen (run aliasedFacts).AliasOf t t) ∧
      (∀ f, .record f ∈ aliasedFacts → (run aliasedFacts).holds f = false) ∧
      ¬ ∀ f, .record f ∈ aliasedFacts → (run aliasedFacts).holds f = true := by
  have hsubtype : (run aliasedFacts).holds (.subtype ⟨7⟩ ⟨4⟩) = false := by decide +kernel
  refine ⟨not_transGen_aliasedFacts, ?_, fun hall => ?_⟩
  · have hconformance : (run aliasedFacts).holds (.conformance ⟨7⟩ (.ofIndex .traitDecl 0)
        (IdentOf.ofIndex .moduleDecl 1).widen) = false := by decide +kernel
    intro f hf
    simp only [aliasedFacts, List.mem_cons, Op.record.injEq, List.not_mem_nil, or_false,
      reduceCtorEq, false_or] at hf
    rcases hf with rfl | rfl
    · exact hsubtype
    · exact hconformance
  · have hheld := hall (.subtype ⟨7⟩ ⟨4⟩) (by simp [aliasedFacts])
    rw [hsubtype] at hheld
    cases hheld

end RelationTable

end TypedTree
