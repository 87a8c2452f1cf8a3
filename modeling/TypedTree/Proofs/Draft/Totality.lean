import TypedTree.Program.View
import TypedTree.Proofs.Draft.Run
import TypedTree.Proofs.Program.Describes

/-!
# Drafted programs are total

A program is `Total` if what its construction promises is there for every node of its
arena. Scopes and bindings are promised by the scoped program that a draft starts from,
types and references by the full check, and the scopes of synthesized declarations by both:
the entries that a run leaves name every scope that the source has grown by
(`contains_scope_run`), and the check looks at the entries.
-/

namespace TypedTree

/-- Every promise about a node is kept, with identities of the arena. -/
structure TypedProgram.Total (p : TypedProgram) : Prop where
  scope : ∀ d : DeclId, p.arena.contains d = true →
    ∃ s, p.scope d = .ok s ∧ p.arena.contains s = true
  declaredType : ∀ d : DeclId, p.arena.contains d = true → ∃ t, p.declaredType d = .ok t
  exprType : ∀ e : ExprId, p.arena.contains e = true → ∃ t, p.exprType e = .ok t
  binding : ∀ v : IdentOf .varDecl, p.arena.contains v = true →
    ∃ b, p.binding v = .ok b ∧ p.arena.contains b = true
  referredDecl : ∀ n : IdentOf .nameExpr, p.arena.contains n = true →
    ∃ r, p.referredDecl n = .ok r ∧ p.arena.contains r.decl = true

namespace Draft

variable {source : ScopedProgram} {pool pool' : TypePool} {ops : List Op} {r : Relations}
  {p : TypedProgram}

theorem contains_scope_run {a : Arena}
    (h : ((start source pool).run ops).properties.Describes a pool') {request : Request}
    (hrequest : request ∈ requests ops) : a.contains request.scope = true := by
  obtain ⟨i, hentry⟩ := mem_entries_of_mem hrequest source.arena.size
  obtain ⟨made, hget, hmem⟩ := Table.mem_of_mem_pushAll ∅ hentry
  have hsynthesized := synthesized_run (start source pool) ops
  have hget' : ((start source pool).run ops).properties.synthesized.get? request.module =
      some made := by
    rw [hsynthesized]
    exact hget
  exact h.contains_scope hget' hmem

theorem exists_declScope_run (hsource : source.Validated)
    (h : ((start source pool).run ops).properties.Describes
      ((start source pool).run ops).source.arena pool') {d : DeclId}
    (hd : ((start source pool).run ops).source.arena.contains d = true) :
    ∃ s, ((start source pool).run ops).source.declScope? d = some s ∧
      ((start source pool).run ops).source.arena.contains s = true := by
  have hscope {request : Request} (hrequest : request ∈ requests ops) :=
    contains_scope_run h hrequest
  rw [source_run] at hd hscope ⊢
  -- a declaration of the source keeps its scope, and another one has that of its request
  rcases ScopedProgram.contains_grow.1 hd with hold | ⟨-, i, hi, hindex⟩
  · obtain ⟨s, hs, hcontains⟩ := hsource.fits.exists_declScope hold
    refine ⟨s, ?_, ScopedProgram.contains_grow.2 (.inl hcontains)⟩
    rw [ScopedProgram.declScope?_grow_of_lt (Arena.index_lt_of_contains hold)]
    exact hs
  · rw [List.length_map] at hi
    have hmade : ((requests ops).map fun r => (r.kind, r.scope))[i]? =
        some ((requests ops)[i].kind, (requests ops)[i].scope) := by
      rw [List.getElem?_map, List.getElem?_eq_getElem hi]
      rfl
    have hscope' := ScopedProgram.declScope?_grow_of_getElem? hmade hindex
    exact ⟨(requests ops)[i].scope, hscope', hscope (List.getElem_mem hi)⟩

/-- No variable is synthesized, so each has the binding that it had before the run. -/
theorem exists_binding_run (hsource : source.Validated) {v : IdentOf .varDecl}
    (hv : ((start source pool).run ops).source.arena.contains v = true) :
    ∃ b, ((start source pool).run ops).source.varBinding? v = some b ∧
      ((start source pool).run ops).source.arena.contains b = true := by
  rw [source_run] at hv ⊢
  rcases ScopedProgram.contains_grow.1 hv with hold | ⟨hkind, -⟩
  · obtain ⟨b, hb, hcontains⟩ := hsource.fits.exists_binding hold
    refine ⟨b, ?_, ScopedProgram.contains_grow.2 (.inl hcontains)⟩
    rw [ScopedProgram.varBinding?, ScopedProgram.bindings_grow]
    exact hb
  · rw [IdentOf.kind_eq] at hkind
    cases hkind

/-- A run whose result passes the full check gives a program that is total. -/
theorem total_of_finish? (hsource : source.Validated)
    (hfull : ((start source pool).run ops).validation = .full)
    (hp : ((start source pool).run ops).finish? r = .ok p) : p.Total := by
  obtain ⟨-, hparts⟩ := finish?_eq_ok_iff.1 hp
  rw [hfull] at hparts
  obtain ⟨hdescribes, rfl⟩ := TypedProgram.ofParts?_full_eq_ok_iff.1 hparts
  constructor
  · intro d hd
    obtain ⟨s, hs, hcontains⟩ := exists_declScope_run hsource hdescribes hd
    exact ⟨s, by simp only [TypedProgram.scope, hs], hcontains⟩
  · intro d hd
    obtain ⟨t, ht⟩ := Option.isSome_iff_exists.1
      (hdescribes.typedDecls d (Arena.mem_idsOf_iff.2 hd))
    exact ⟨t, by simp only [TypedProgram.declaredType, ht]⟩
  · intro e he
    obtain ⟨t, ht⟩ := Option.isSome_iff_exists.1
      (hdescribes.typedExprs e (Arena.mem_idsOf_iff.2 he))
    exact ⟨t, by simp only [TypedProgram.exprType, ht]⟩
  · intro v hv
    obtain ⟨b, hb, hcontains⟩ := exists_binding_run hsource hv
    exact ⟨b, by simp only [TypedProgram.binding, hb], hcontains⟩
  · intro n hn
    obtain ⟨reference, hreference⟩ := Option.isSome_iff_exists.1
      (hdescribes.resolved n (Arena.mem_idsOf_iff.2 hn))
    exact ⟨reference, by simp only [TypedProgram.referredDecl, hreference],
      hdescribes.contains_reference hreference⟩

section Copied

open ScopedProgram (scopedLambda ofArena?_boundLambda)

/-- Gives `boundLambda` its types and references, and makes one copy operation in its
translation unit. -/
def copyInUnit : List Op :=
  [.intern (.module (.ofIndex .moduleDecl 9)),
    .setDeclType (IdentOf.ofIndex .varDecl 0).widen ⟨3⟩,
    .setDeclType (IdentOf.ofIndex .functionDecl 5).widen ⟨3⟩,
    .setDeclType (IdentOf.ofIndex .bindingDecl 7).widen ⟨3⟩,
    .setDeclType (IdentOf.ofIndex .moduleDecl 9).widen ⟨7⟩,
    .setExprType (IdentOf.ofIndex .nameExpr 3).widen ⟨3⟩,
    .setExprType (IdentOf.ofIndex .sequenceExpr 4).widen ⟨3⟩,
    .setExprType (IdentOf.ofIndex .lambdaExpr 6).widen ⟨3⟩,
    .setReference (.ofIndex .nameExpr 3) (.direct (IdentOf.ofIndex .varDecl 0).widen),
    .synthesize ⟨.ofIndex .moduleDecl 9, .copy, ⟨3⟩,
      (IdentOf.ofIndex .translationUnit 8).widen⟩]

def copiedDraft : Draft := (start scopedLambda .new).run copyInUnit

theorem describes_copiedDraft :
    copiedDraft.properties.Describes copiedDraft.source.arena copiedDraft.pool := by
  decide +kernel

theorem finish?_copiedDraft :
    copiedDraft.finish? (∅ : RelationTable).relations =
      .ok ⟨copiedDraft.source, copiedDraft.pool, copiedDraft.properties,
        (∅ : RelationTable).relations⟩ :=
  finish?_eq_ok_iff.2
    ⟨rfl, TypedProgram.ofParts?_full_eq_ok_iff.2 ⟨describes_copiedDraft, rfl⟩⟩

theorem total_copiedDraft :
    scopedLambda.Validated ∧ copiedDraft.validation = .full ∧
      ∃ p, copiedDraft.finish? (∅ : RelationTable).relations = .ok p ∧
        p.arena.contains (IdentOf.ofIndex .synthesizedDecl 10) = true ∧ p.Total := by
  have hsource : scopedLambda.Validated := .inl ⟨_, ofArena?_boundLambda⟩
  exact ⟨hsource, rfl, _, finish?_copiedDraft, by decide +kernel,
    total_of_finish? hsource rfl finish?_copiedDraft⟩

end Copied

end Draft

end TypedTree
