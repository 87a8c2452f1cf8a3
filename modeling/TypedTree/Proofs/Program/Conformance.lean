import TypedTree.Proofs.Scope.Ancestors
import TypedTree.Proofs.Ty.Canonical

/-!
# Where a conformance is visible

`TypedProgram.conforms` asks for a conformance at a scope and at each of its ancestors. In a
program that passed the check these are finitely many, so there is an answer, and it is that of
the scope itself or that of its parent (`conforms_iff_parent`). What is visible from a scope is
thus visible from all scopes below it (`conforms_of_below`). The ancestors that a resolution
finds are the scopes that enclose a scope in the syntax (`mem_scopeAncestors_iff`), so a
conformance that is declared once is visible from the inside of its scope and from nowhere else.
-/

namespace TypedTree

open Relation

namespace Arena

/-- The scope `s` is the one at the position of `f`, or lies inside it. -/
def Inside (a : Arena) (f s : ScopeId) : Prop :=
  ∃ g : ScopeId, g.index = f.index ∧ ReflTransGen a.HasChild g.toAny s.toAny

end Arena

namespace ScopedProgram

def ParentOf (p : ScopedProgram) (s q : ScopeId) : Prop := p.scopeParent? s = some q

variable {p : ScopedProgram} {a : Arena} {s q : ScopeId} {l : List ScopeId}

/-- In lexical tables, a chain of parents holds the scopes that enclose its first one, and the
first one itself. -/
theorem Lexical.mem_chain_iff {order : List NodeId} (h : p.arena.TreeShaped) (hp : p.Lexical order)
    (hl : p.tables.Chain s l) (hs : p.arena.contains s = true) :
    q ∈ l ↔ ReflTransGen p.arena.HasChild q.toAny s.toAny := by
  have hself {s : ScopeId} : s.toAny = q.toAny ↔ q = s :=
    ⟨fun heq => (Ident.eq_of_toAny_eq heq).symm, fun heq => heq ▸ rfl⟩
  induction hl with
  | @root s hroot =>
      have hkind : s.kind = .moduleDecl := by
        by_contra hne
        obtain ⟨r, hr, -⟩ := hp.scopeParent s hs hne
        cases hroot.symm.trans hr
      rw [List.mem_singleton, reflTransGen_iff_eq_or_transGen, hself]
      exact (or_iff_left (h.not_above_module hkind)).symm
  | @parent s r l hr hl ih =>
      have hkind : s.kind ≠ .moduleDecl := by
        intro hkind
        cases hr.symm.trans (hp.moduleParent s hs hkind)
      obtain ⟨r', hr', hnearest⟩ := hp.scopeParent s hs hkind
      obtain rfl : r = r' := Option.some.inj (hr.symm.trans hr')
      have habove : TransGen p.arena.HasChild q.toAny s.toAny ↔
          ReflTransGen p.arena.HasChild q.toAny r.toAny := by
        refine ⟨fun hqs => ?_, fun hqr => .trans_right hqr hnearest.above⟩
        -- no scope lies between a scope and its parent
        rcases hnearest.least q.toAny hqs (q.kind_toAny ▸ q.admitted) with heq | hqr
        · exact heq ▸ .refl
        · exact hqr.to_reflTransGen
      calc q ∈ s :: l ↔ q = s ∨ q ∈ l := List.mem_cons
        _ ↔ s.toAny = q.toAny ∨ TransGen p.arena.HasChild q.toAny s.toAny :=
          or_congr hself.symm ((ih hnearest.contains).trans habove.symm)
        _ ↔ ReflTransGen p.arena.HasChild q.toAny s.toAny := reflTransGen_iff_eq_or_transGen.symm

theorem Validated.exists_chain_grow (h : p.Validated) (made : List (SynthesizedKind × ScopeId))
    (s : ScopeId) : ∃ l, (p.grow made).tables.Chain s l ∧ (p.grow made).scopeAncestors s = l := by
  obtain ⟨l, hl⟩ := h.fits.exists_chain s
  have hgrown : (p.grow made).tables.Chain s l := hl.of_parents_eq parents_grow
  exact ⟨l, hgrown, hgrown.ancestors_eq⟩

theorem mem_scopeAncestors_iff (h : a.TreeShaped) (hp : ofArena? a = .ok p)
    (made : List (SynthesizedKind × ScopeId)) (hs : a.contains s = true) :
    q ∈ (p.grow made).scopeAncestors s ↔ ReflTransGen a.HasChild q.toAny s.toAny := by
  obtain ⟨rfl, order, -, -, hlexical⟩ := lexical_of_ofArena? h hp
  have hvalidated : p.Validated := .inl ⟨_, hp⟩
  obtain ⟨l, hl⟩ := hvalidated.fits.exists_chain s
  rw [scopeAncestors, (hl.of_parents_eq parents_grow).ancestors_eq]
  exact hlexical.mem_chain_iff h hl hs

end ScopedProgram

namespace TypedProgram

variable {p : TypedProgram} {source : ScopedProgram} {made : List (SynthesizedKind × ScopeId)}
  {ty : TypeId} {trait : IdentOf .traitDecl} {s q : ScopeId}

theorem conforms_eq_true_iff :
    p.conforms ty trait s = true ↔
      ∃ q ∈ p.source.scopeAncestors s, p.relations.conforms (p.canonical ty) trait q = true :=
  List.any_eq_true

theorem conforms_iff_parent (h : source.Validated) (hp : p.source = source.grow made) :
    p.conforms ty trait s = true ↔
      p.relations.conforms (p.canonical ty) trait s = true ∨
        ∃ q, p.source.ParentOf s q ∧ p.conforms ty trait q = true := by
  obtain ⟨l, hl, hancestors⟩ := h.exists_chain_grow made s
  simp only [conforms_eq_true_iff]
  rw [← hp] at hl hancestors
  rw [hancestors]
  cases hl with
  | root hs =>
      simp only [List.mem_singleton, exists_eq_left]
      exact (or_iff_left fun ⟨q, hq, _⟩ => nomatch hs.symm.trans hq).symm
  | @parent _ r l hr hl =>
      have hparent (q : ScopeId) : p.source.ParentOf s q ↔ r = q :=
        ⟨fun hq => Option.some.inj (hr.symm.trans hq), fun heq => heq ▸ hr⟩
      have hrest : p.source.scopeAncestors r = l := hl.ancestors_eq
      simp only [List.exists_mem_cons_iff, hparent, exists_eq_left', hrest]

theorem conforms_of_below (h : source.Validated) (hp : p.source = source.grow made)
    (hq : ReflTransGen p.source.ParentOf s q) (hconforms : p.conforms ty trait q = true) :
    p.conforms ty trait s = true := by
  induction hq using ReflTransGen.head_induction_on with
  | refl => exact hconforms
  | head hparent _ ih => exact (conforms_iff_parent h hp).2 (.inr ⟨_, hparent, ih⟩)

/-- A conformance that is declared in one scope only is visible from the inside of that scope
and from nowhere else. -/
theorem conforms_iff_inside {a : Arena} {f : ScopeId} (h : a.TreeShaped)
    (hsource : ScopedProgram.ofArena? a = .ok source) (hp : p.source = source.grow made)
    (hf : ∀ q : ScopeId, a.contains q = true →
      (p.relations.conforms (p.canonical ty) trait q = true ↔ q.index = f.index))
    (hs : a.contains s = true) : p.conforms ty trait s = true ↔ a.Inside f s := by
  rw [conforms_eq_true_iff, hp, Arena.Inside]
  refine exists_congr fun q => ?_
  rw [ScopedProgram.mem_scopeAncestors_iff h hsource made hs, and_comm]
  refine and_congr_left fun hq => hf q ?_
  rcases reflTransGen_iff_eq_or_transGen.1 hq with heq | habove
  · rwa [← Ident.eq_of_toAny_eq heq]
  · rw [← Arena.contains_toAny]
    exact Arena.contains_of_above habove

/-- A program finds what is declared in a scope or in one of its ancestors, of which there are
finitely many: the climb goes on as long as there is a parent and ends. If the scopes are those
of a tree, the scopes that see the only declaration of a conformance are those inside the scope
of the declaration. -/
theorem conforms_iff (p : TypedProgram) (h : source.Validated) (hp : p.source = source.grow made)
    (ty : TypeId) (trait : IdentOf .traitDecl) :
    (∀ s, p.source.AncestorLine s (p.source.scopeAncestors s)) ∧
    (∀ s, p.conforms ty trait s = true ↔
      p.relations.conforms (p.canonical ty) trait s = true ∨
        ∃ q, p.source.ParentOf s q ∧ p.conforms ty trait q = true) ∧
    (∀ s q, ReflTransGen p.source.ParentOf s q → p.conforms ty trait q = true →
      p.conforms ty trait s = true) ∧
    ∀ a f, a.TreeShaped → ScopedProgram.ofArena? a = .ok source →
      (∀ q : ScopeId, a.contains q = true →
        (p.relations.conforms (p.canonical ty) trait q = true ↔ q.index = f.index)) →
      ∀ s : ScopeId, p.arena.contains s = true → (p.conforms ty trait s = true ↔ a.Inside f s) := by
  refine ⟨fun s => ?_, fun s => conforms_iff_parent h hp, fun s q => conforms_of_below h hp,
    fun a f htree hsource hf s hs => conforms_iff_inside htree hsource hp hf ?_⟩
  · rw [hp]
    exact (ScopedProgram.ancestorLine_grow h made s).1
  · obtain ⟨rfl, -⟩ := ScopedProgram.lexical_of_ofArena? htree hsource
    rwa [arena, hp, ScopedProgram.contains_grow_scope] at hs

section UnitConformance

open RelationTable (programWith)
open ScopedProgram (boundLambda scopedLambda treeShaped_boundLambda ofArena?_boundLambda)

/-- The unit and the function of `boundLambda`. -/
def lambdaUnit : ScopeId := (IdentOf.ofIndex .translationUnit 8).widen

def lambdaFunction : ScopeId := (IdentOf.ofIndex .functionDecl 5).widen

/-- A conformance that is declared in the unit, and an alias of its type. -/
def unitConformance : RelationTable :=
  .run [.addAlias ⟨7⟩ ⟨5⟩, .record (.conformance ⟨5⟩ (.ofIndex .traitDecl 0) lambdaUnit)]

theorem conforms_unitConformance (q : ScopeId) :
    unitConformance.conforms (unitConformance.canonical ⟨7⟩) (.ofIndex .traitDecl 0) q = true ↔
      q.index = lambdaUnit.index := by
  have hcanonical : unitConformance.canonical (unitConformance.canonical ⟨7⟩) = ⟨5⟩ := by
    decide +kernel
  rw [RelationTable.conforms_eq_true_iff, hcanonical]
  simp [unitConformance, RelationTable.records_run, eq_comm]

theorem conforms_iff_unitConformance :
    scopedLambda.Validated ∧
      (programWith unitConformance.relations).source = scopedLambda.grow [] ∧
      boundLambda.TreeShaped ∧ ScopedProgram.ofArena? boundLambda = .ok scopedLambda ∧
      (∀ q : ScopeId, boundLambda.contains q = true →
        (unitConformance.conforms (unitConformance.canonical ⟨7⟩) (.ofIndex .traitDecl 0) q = true ↔
          q.index = lambdaUnit.index)) ∧
      boundLambda.Inside lambdaUnit lambdaFunction ∧
      ¬ boundLambda.Inside lambdaUnit (IdentOf.ofIndex .moduleDecl 9).widen ∧
      scopedLambda.ParentOf lambdaFunction lambdaUnit ∧
      (programWith unitConformance.relations).conforms ⟨7⟩ (.ofIndex .traitDecl 0)
        lambdaFunction = true := by
  have hvalidated : scopedLambda.Validated := .inl ⟨_, ofArena?_boundLambda⟩
  have hsource : (programWith unitConformance.relations).source = scopedLambda.grow [] := rfl
  have hparent : scopedLambda.scopeParent? lambdaFunction = some lambdaUnit := by decide +kernel
  obtain ⟨-, hstep, hbelow, htree⟩ := conforms_iff _ hvalidated hsource ⟨7⟩ (.ofIndex .traitDecl 0)
  have hinside := htree boundLambda lambdaUnit treeShaped_boundLambda ofArena?_boundLambda
    fun q _ => conforms_unitConformance q
  have hunit := (hstep lambdaUnit).2 (.inl ((conforms_unitConformance lambdaUnit).2 rfl))
  have hfunction := hbelow lambdaFunction lambdaUnit (.single hparent) hunit
  refine ⟨hvalidated, hsource, treeShaped_boundLambda, ofArena?_boundLambda,
    fun q _ => conforms_unitConformance q, (hinside lambdaFunction (by decide +kernel)).1 hfunction,
    fun hmodule => ?_, hparent, hfunction⟩
  have hconforms := (hinside _ (by decide +kernel)).2 hmodule
  revert hconforms
  decide +kernel

end UnitConformance

end TypedProgram

end TypedTree
