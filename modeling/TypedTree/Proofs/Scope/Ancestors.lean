import Mathlib.Logic.Function.Iterate
import TypedTree.Proofs.Scope.Grow
import TypedTree.Proofs.Scope.Lexical

/-!
# Ancestors of scopes

Going up from a scope is a run of `scopeParent?` that nothing in the tables bounds.
`AncestorLine` says that a list is such a run to its end, without a scope met twice. In a
program that passed the check every scope has a chain of parents, whatever kind it claims
and whether the arena knows it or not (`Fits.exists_chain`), and a chain is no longer than
the climb of `ancestors` reaches (`Chain.length_le`). Synthesized declarations leave the
parents alone, so the ancestors stay a line however far the program grows
(`ancestorLine_grow`).
-/

namespace TypedTree

namespace ScopeTables

variable {t : ScopeTables} {a : Arena} {s : ScopeId} {l : List ScopeId}

theorem Chain.of_parents_eq {t' : ScopeTables} (h : t.Chain s l)
    (hparents : t'.parents = t.parents) : t'.Chain s l := by
  induction h with
  | root hs => exact .root (by rw [hparents, hs])
  | parent hs _ ih => exact .parent (by rw [hparents, hs]) ih

theorem Chain.getElem?_eq (h : t.Chain s l) (i : Nat) :
    l[i]? = (fun x => x.bind t.parents.get?)^[i] (some s) := by
  have hend (i : Nat) : (fun x => x.bind t.parents.get?)^[i] none = none :=
    Function.iterate_fixed rfl i
  induction h generalizing i with
  | root hs =>
      cases i with
      | zero => rfl
      | succ i => simp [Function.iterate_succ_apply, hs, hend]
  | parent hs hp ih =>
      cases i with
      | zero => rfl
      | succ i => simp [Function.iterate_succ_apply, hs, ih]

theorem Chain.isChain (h : t.Chain s l) : l.IsChain fun x y => t.parents.get? x = some y := by
  induction h with
  | root => exact .singleton _
  | parent hs hp ih =>
      obtain ⟨r, rfl⟩ := hp.exists_cons
      exact .cons_cons hs ih

/-- A scope that the arena does not know has a chain too: its parent, if it has one, is
a scope of the arena. -/
theorem Fits.exists_chain (h : t.Fits a) (s : ScopeId) : ∃ l, t.Chain s l := by
  cases hp : t.parents.get? s with
  | none => exact ⟨[s], .root hp⟩
  | some p =>
      obtain ⟨l, hl, -⟩ := h.rooted p (Arena.mem_idsOf_iff.2 (h.contains_parent hp))
      exact ⟨s :: l, .parent hp hl⟩

theorem Fits.contains_chain (h : t.Fits a) (hl : t.Chain s l) (hs : a.contains s = true) :
    ∀ x ∈ l, a.contains x = true :=
  hl.contains h.contains_parent hs

theorem Fits.exists_module_getLast? (h : t.Fits a) (hl : t.Chain s l)
    (hs : a.contains s = true) :
    ∃ m ∈ l.getLast?, m.kind = .moduleDecl ∧ a.contains m = true := by
  obtain ⟨l', hl', -, m, hm, -, hkind⟩ := h.rooted s (Arena.mem_idsOf_iff.2 hs)
  obtain rfl := hl.unique hl'
  have hcontains := h.contains_chain hl hs m (List.mem_of_getLast? hm)
  refine ⟨m, hm, ?_, hcontains⟩
  rw [Arena.contains_iff_kindAt?, hkind] at hcontains
  exact (Option.some.inj hcontains).symm

end ScopeTables

namespace ScopedProgram

/-- `l` lists `s`, its parent, the parent of that, and so on to the last one, and no
position comes twice. -/
structure AncestorLine (p : ScopedProgram) (s : ScopeId) (l : List ScopeId) : Prop where
  /-- After `i` steps up from `s` comes the `i`-th scope, and nothing after the last. -/
  getElem? : ∀ i, l[i]? = (fun x => x.bind p.scopeParent?)^[i] (some s)
  nodup : (l.map Ident.index).Nodup
  head : l.head? = some s
  next : l.IsChain fun x y => p.scopeParent? x = some y

variable {p : ScopedProgram} {s : ScopeId} {made : List (SynthesizedKind × ScopeId)}

theorem parents_grow : (p.grow made).tables.parents = p.tables.parents := by
  induction made generalizing p with
  | nil => rfl
  | cons e made ih => exact ih

theorem contains_grow_scope :
    (p.grow made).arena.contains s = true ↔ p.arena.contains s = true := by
  refine contains_grow_of_kind_ne fun hkind => ?_
  have hscope := s.admitted
  rw [hkind] at hscope
  exact absurd hscope (by decide)

theorem ancestorLine_of_chain {l : List ScopeId} (h : p.tables.Chain s l) :
    p.AncestorLine s l where
  getElem? := h.getElem?_eq
  nodup := h.nodup
  head := by
    obtain ⟨r, rfl⟩ := h.exists_cons
    rfl
  next := h.isChain

/-- The ancestors of any scope form a line, after any growth of a program that was
validated. The line of a scope of the arena ends at a module of the arena and holds no
more scopes than the arena does. -/
theorem ancestorLine_grow (h : p.Validated) (made : List (SynthesizedKind × ScopeId))
    (s : ScopeId) :
    (p.grow made).AncestorLine s ((p.grow made).scopeAncestors s) ∧
      ((p.grow made).arena.contains s = true →
        (∃ m ∈ ((p.grow made).scopeAncestors s).getLast?,
          m.kind = .moduleDecl ∧ (p.grow made).arena.contains m = true) ∧
        ((p.grow made).scopeAncestors s).length ≤
          ((p.grow made).arena.idsOf (.category .scope)).length) := by
  obtain ⟨l, hl⟩ := h.fits.exists_chain s
  have hgrown : (p.grow made).tables.Chain s l := hl.of_parents_eq parents_grow
  have hancestors : (p.grow made).scopeAncestors s = l := hgrown.ancestors_eq
  rw [hancestors]
  refine ⟨ancestorLine_of_chain hgrown, fun hs => ?_⟩
  rw [contains_grow_scope] at hs
  have hcontains := h.fits.contains_chain hl hs
  obtain ⟨m, hm, hkind, hmodule⟩ := h.fits.exists_module_getLast? hl hs
  refine ⟨⟨m, hm, hkind, contains_grow_scope.2 hmodule⟩, ?_⟩
  have hsubset : l ⊆ (p.grow made).arena.idsOf (.category .scope) := fun x hx =>
    Arena.mem_idsOf_iff.2 (contains_grow_scope.2 (hcontains x hx))
  have hnodup : l.Nodup := List.Nodup.of_map Ident.index hl.nodup
  exact (List.subperm_of_subset hnodup hsubset).length_le

section FalseBlock

/-- An identity that claims a block where `boundLambda` has its function. -/
def falseBlock : ScopeId := ⟨.braceStmt, 5, rfl⟩

def copiedInFalseBlock : ScopedProgram := scopedLambda.grow [(.copy, falseBlock)]

theorem ancestorLine_falseBlock :
    scopedLambda.Validated ∧
      copiedInFalseBlock.AncestorLine falseBlock (copiedInFalseBlock.scopeAncestors falseBlock) ∧
      (copiedInFalseBlock.scopeAncestors falseBlock).map Ident.index = [5, 8, 9] ∧
      copiedInFalseBlock.arena.contains (IdentOf.ofIndex .functionDecl 5) = true ∧
      (∃ m ∈ (copiedInFalseBlock.scopeAncestors (IdentOf.ofIndex .functionDecl 5).widen).getLast?,
        m.kind = .moduleDecl ∧ copiedInFalseBlock.arena.contains m = true) ∧
      (copiedInFalseBlock.scopeAncestors (IdentOf.ofIndex .functionDecl 5).widen).length ≤
        (copiedInFalseBlock.arena.idsOf (.category .scope)).length := by
  have hvalidated : scopedLambda.Validated := .inl ⟨_, ofArena?_boundLambda⟩
  have hcontains : copiedInFalseBlock.arena.contains (IdentOf.ofIndex .functionDecl 5) = true := by
    decide +kernel
  have hfunction := (ancestorLine_grow hvalidated [(.copy, falseBlock)]
    (IdentOf.ofIndex .functionDecl 5).widen).2 hcontains
  exact ⟨hvalidated, (ancestorLine_grow hvalidated _ falseBlock).1, by decide +kernel, hcontains,
    hfunction⟩

end FalseBlock

end ScopedProgram

end TypedTree
