import TypedTree.Proofs.Scope.Lexical

/-!
# Modules as roots

A scope without a parent is a module, for the check rejects every other one
(`kind_of_parent_eq_none`). The converse is not checked: a table may hold a parent for a
module, and the nesting of an arena gives one to each module that lies below a module.
`modulesAreRoots_iff` says when no such entry gets in, and `nestedModule` is an arena whose
tables have one.
-/

namespace TypedTree

open Relation

namespace ScopedProgram

variable {p : ScopedProgram} {a : Arena}

def ModulesAreRoots (p : ScopedProgram) : Prop :=
  ∀ s : ScopeId, p.arena.contains s = true → (p.scopeParent? s = none ↔ s.kind = .moduleDecl)

theorem kind_of_parent_eq_none (h : p.tables.Fits p.arena) {s : ScopeId}
    (hs : p.arena.contains s = true) (hroot : p.scopeParent? s = none) : s.kind = .moduleDecl := by
  by_contra hkind
  rcases h.exists_parent hs hkind with ⟨q, hq⟩
  cases hroot.symm.trans hq

theorem modulesAreRoots_iff_parent_eq_none (h : p.tables.Fits p.arena) :
    p.ModulesAreRoots ↔ ∀ m : ScopeId, p.arena.contains m = true → m.kind = .moduleDecl →
      p.scopeParent? m = none :=
  ⟨fun hroots m hm hkind => (hroots m hm).2 hkind,
    fun hnone s hs => ⟨kind_of_parent_eq_none h hs, hnone s hs⟩⟩

theorem parent_eq_none_iff_entries (h : p.tables.Fits p.arena) {s : ScopeId}
    (hs : p.arena.contains s = true) :
    p.scopeParent? s = none ↔ ∀ e ∈ p.tables.parents.entries, e.1 ≠ s := by
  constructor
  · rintro hnone e he rfl
    cases hnone.symm.trans (Table.get?_of_mem_entries he)
  · intro hentries
    cases hq : p.scopeParent? s with
    | none => rfl
    | some q =>
        -- the key of the entry is the scope itself, as the arena knows both
        rcases (Table.get?_eq_some_iff _ s q).1 hq with ⟨k, hindex, he⟩
        rcases h.contains with ⟨hparents, -⟩
        exact absurd (Arena.eq_of_contains (hparents _ he).1 hs hindex) (hentries _ he)

theorem modulesAreRoots_iff_entries (h : p.tables.Fits p.arena) :
    p.ModulesAreRoots ↔ ∀ e ∈ p.tables.parents.entries, e.1.kind ≠ .moduleDecl := by
  rw [modulesAreRoots_iff_parent_eq_none h]
  rcases h.contains with ⟨hparents, -⟩
  constructor
  · intro hnone e he hkind
    have hkey := (hparents e he).1
    exact (parent_eq_none_iff_entries h hkey).1 (hnone e.1 hkey hkind) e he rfl
  · intro hentries m hm hkind
    exact (parent_eq_none_iff_entries h hm).2 fun e he heq => hentries e he (heq ▸ hkind)

theorem parent_eq_none_iff_nesting (h : a.WellBuilt) (hp : ofArena? a = .ok p) {s : ScopeId}
    (hs : a.contains s = true) :
    p.scopeParent? s = none ↔ ∀ m ∈ a.modules, ¬ TransGen a.HasChild m.toAny s.toAny := by
  rcases ofArena?_eq_ok_iff_scopeLog.1 hp with ⟨log, hlog, -, rfl⟩
  rw [scopeParent?, ← Option.not_isSome_iff_eq_none, ScopeTables.isSome_parent_iff h hlog hs]
  simp only [not_exists, not_and]

theorem modulesAreRoots_iff_nesting (h : a.WellBuilt) (hp : ofArena? a = .ok p) :
    p.ModulesAreRoots ↔ ∀ m ∈ a.modules, ∀ id : NodeId, TransGen a.HasChild m.toAny id →
      id.kind ≠ .moduleDecl := by
  rcases ofArena?_eq_ok_iff_scopeLog.1 hp with ⟨log, -, hfits, rfl⟩
  rw [modulesAreRoots_iff_parent_eq_none hfits]
  constructor
  · intro hnone top htop id hbelow hkind
    have hreached : a.Reached id := ⟨top, htop, hbelow.to_reflTransGen⟩
    obtain ⟨s, rfl⟩ : ∃ s : ScopeId, s.toAny = id :=
      ⟨(IdentOf.ofIndex .moduleDecl id.index).widen, Ident.ext_index hkind.symm rfl⟩
    have hs : a.contains s = true := by
      rw [← Arena.contains_toAny]
      exact hreached.contains h
    exact (parent_eq_none_iff_nesting h hp hs).1 (hnone s hs hkind) top htop hbelow
  · intro hnesting m hm hkind
    exact (parent_eq_none_iff_nesting h hp hm).2 fun top htop hbelow =>
      hnesting top htop _ hbelow hkind

/-- Every scope without a parent is a module. A scope has no parent exactly if the table has no
entry for it, and with the tables of a well-built arena exactly if no module leads down to it.
So the modules have no parents exactly if no entry is for one, and with those tables exactly if
no module lies below a module. -/
theorem modulesAreRoots_iff (h : p.Validated) :
    (∀ s : ScopeId, p.arena.contains s = true → p.scopeParent? s = none → s.kind = .moduleDecl) ∧
      (∀ s : ScopeId, p.arena.contains s = true →
        (p.scopeParent? s = none ↔ ∀ e ∈ p.tables.parents.entries, e.1 ≠ s)) ∧
      (p.ModulesAreRoots ↔ ∀ e ∈ p.tables.parents.entries, e.1.kind ≠ .moduleDecl) ∧
      ∀ a : Arena, a.WellBuilt → ofArena? a = .ok p →
        (∀ s : ScopeId, a.contains s = true →
          (p.scopeParent? s = none ↔
            ∀ m ∈ a.modules, ¬ TransGen a.HasChild m.toAny s.toAny)) ∧
        (p.ModulesAreRoots ↔ ∀ m ∈ a.modules, ∀ id : NodeId, TransGen a.HasChild m.toAny id →
          id.kind ≠ .moduleDecl) :=
  ⟨fun _ => kind_of_parent_eq_none h.fits, fun _ => parent_eq_none_iff_entries h.fits,
    modulesAreRoots_iff_entries h.fits, fun _ ha hp =>
      ⟨fun _ => parent_eq_none_iff_nesting ha hp, modulesAreRoots_iff_nesting ha hp⟩⟩

/-- A translation unit that declares a function, a module and the function again. -/
def nestedModule : Arena :=
  [⟨.functionDecl, ({
      name := none
      genericParameters := []
      explicitCaptures := []
      receiver := none
      parameters := []
      body := none } : FunctionDecl)⟩,
    ⟨.moduleDecl, ({ name := .empty, sources := [] } : ModuleDecl)⟩,
    ⟨.translationUnit, ({
      decls := [(IdentOf.ofIndex .functionDecl 0).widen, (IdentOf.ofIndex .moduleDecl 1).widen,
        (IdentOf.ofIndex .functionDecl 0).widen] } : TranslationUnit)⟩,
    ⟨.moduleDecl, ({
      name := .empty
      sources := [.ofIndex .translationUnit 2] } : ModuleDecl)⟩].foldl
    (fun a n => (a.insert n .dummy).2) ∅

/-- What a resolution of `nestedModule` meets. The inner module comes twice: as a module, and
as a declaration of the unit. -/
def nestedModuleLog : List ScopeTables.Event :=
  let outer : ScopeId := (IdentOf.ofIndex .moduleDecl 3).widen
  let unit : ScopeId := (IdentOf.ofIndex .translationUnit 2).widen
  [.module (.ofIndex .moduleDecl 1),
    .module (.ofIndex .moduleDecl 3),
    .visit ⟨outer, none⟩ (.of .translationUnit 2),
    .visit ⟨unit, none⟩ (.of .functionDecl 0),
    .visit ⟨unit, none⟩ (.of .moduleDecl 1),
    .visit ⟨unit, none⟩ (.of .functionDecl 0)]

def scopedNested : ScopedProgram := ⟨nestedModule, .ofLog nestedModuleLog⟩

theorem wellBuilt_nestedModule : nestedModule.WellBuilt := by
  unfold nestedModule
  repeat refine .insert ?_ (by decide)
  exact .empty

theorem scopeLog_nestedModule : nestedModule.scopeLog = .ok nestedModuleLog := by
  unfold Arena.scopeLog Arena.moduleLog Arena.visitsBelow
  simp only [Arena.visits_eq_visitsWithin]
  rfl

theorem fits_scopedNested : scopedNested.tables.Fits nestedModule := by
  decide +kernel

theorem ofArena?_nestedModule : ofArena? nestedModule = .ok scopedNested :=
  ofArena?_eq_ok_iff_scopeLog.2 ⟨_, scopeLog_nestedModule, fits_scopedNested, rfl⟩

theorem modulesAreRoots_iff_scopedNested :
    scopedNested.Validated ∧
      (∀ s : ScopeId, scopedNested.arena.contains s = true → scopedNested.scopeParent? s = none →
        s.kind = .moduleDecl) ∧
      (∀ s : ScopeId, scopedNested.arena.contains s = true →
        (scopedNested.scopeParent? s = none ↔
          ∀ e ∈ scopedNested.tables.parents.entries, e.1 ≠ s)) ∧
      (scopedNested.ModulesAreRoots ↔
        ∀ e ∈ scopedNested.tables.parents.entries, e.1.kind ≠ .moduleDecl) ∧
      ∀ a : Arena, a.WellBuilt → ofArena? a = .ok scopedNested →
        (∀ s : ScopeId, a.contains s = true →
          (scopedNested.scopeParent? s = none ↔
            ∀ m ∈ a.modules, ¬ TransGen a.HasChild m.toAny s.toAny)) ∧
        (scopedNested.ModulesAreRoots ↔ ∀ m ∈ a.modules, ∀ id : NodeId,
          TransGen a.HasChild m.toAny id → id.kind ≠ .moduleDecl) :=
  ⟨.inl ⟨_, ofArena?_nestedModule⟩, modulesAreRoots_iff (.inl ⟨_, ofArena?_nestedModule⟩)⟩

/-- The module that the unit declares has the unit as its parent. -/
theorem not_modulesAreRoots_nestedModule :
    ∃ p, ofArena? nestedModule = .ok p ∧
      p.scopeParent? (IdentOf.ofIndex .moduleDecl 1).widen =
        some (IdentOf.ofIndex .translationUnit 2).widen ∧
      ¬ p.ModulesAreRoots := by
  have hparent : scopedNested.scopeParent? (IdentOf.ofIndex .moduleDecl 1).widen =
      some (IdentOf.ofIndex .translationUnit 2).widen := by decide +kernel
  refine ⟨_, ofArena?_nestedModule, hparent, fun hroots => ?_⟩
  have hnone := (hroots (IdentOf.ofIndex .moduleDecl 1).widen (by decide)).2 rfl
  rw [hparent] at hnone
  cases hnone

end ScopedProgram

end TypedTree
