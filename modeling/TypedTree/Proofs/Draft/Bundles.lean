import TypedTree.Proofs.Draft.Captures
import TypedTree.Proofs.Program.Describes
import TypedTree.Proofs.Scope.Ownership

/-!
# Bundles of implementations

The bundle of a subscript implementation is the scope that it is in. Every declaration is in
some scope, but neither check asks that this one is a subscript. `forall_bundled_iff` says of
which programs the bundles are there all the same. With the scopes that resolution gives it is
a matter of the syntax alone: an implementation is in the scope of a subscript exactly if a
subscript lists it (`inSubscript_iff_of_ofArena?`), since a resolution visits the
implementations of a subscript from there and nothing else leads from a subscript to one.
-/

namespace TypedTree

namespace TypedProgram

/-- The implementation has a bundle in the arena and the captures of one. -/
def Bundled (p : TypedProgram) (i : IdentOf .subscriptImpl) : Prop :=
  ∃ b, p.bundle i = .ok b ∧ p.arena.contains b = true ∧ ∃ l, p.capturesOfSubscriptImpl i = .ok l

end TypedProgram

namespace ScopedProgram

def InSubscript (p : ScopedProgram) (d : DeclId) : Prop :=
  ∃ s, p.declScope? d = some s ∧ s.kind = .subscriptDecl

end ScopedProgram

namespace ScopeTables

variable {a : Arena} {log : List Event} {i : IdentOf .subscriptImpl}

/-- A visit in the scope of a subscript comes from the subscript itself: a statement would be
visited in the scope of its block. -/
theorem exists_subscript_of_visit (h : a.WellBuilt) (hlog : a.scopeLog = .ok log)
    {around : Surroundings} (hvisit : .visit around i.toAny ∈ log)
    (hkind : around.scope.kind = .subscriptDecl) :
    ∃ b : IdentOf .subscriptDecl, a.HasChild b.toAny i.toAny := by
  rcases h.exists_parent_of_visit hlog hvisit with ⟨p, hchild, rfl | ⟨hp, outer, houter, hscope⟩⟩
  · refine ⟨.ofIndex .subscriptDecl around.scope.index, ?_⟩
    rwa [IdentOf.toAny_ofIndex hkind]
  · have hstmt : p.kind = .declStmt := (hchild.kind_of_subscriptImpl i.kind_eq).resolve_left hp
    rcases h.exists_parent_of_visit hlog houter with ⟨q, hq, hscoped⟩
    have hblock : q.kind = .braceStmt := hq.kind_of_declStmt hstmt
    rcases hscoped with rfl | ⟨hnot, -⟩
    · rw [hscope, Ident.kind_toAny, hkind] at hblock
      cases hblock
    · exact absurd (by rw [hblock]; rfl) hnot

/-- A subscript is visited, being a declaration, and its implementations are visited from
there. -/
theorem exists_declScope_of_hasChild (h : a.WellBuilt) (hlog : a.scopeLog = .ok log)
    (hfits : (ofLog log).Fits a) {b : IdentOf .subscriptDecl}
    (hchild : a.HasChild b.toAny i.toAny) :
    ∃ s, (ofLog log).declScopes.get? i.widen = some s ∧ s.toAny = b.toAny := by
  have hb : a.contains b = true := by
    rw [← Arena.contains_toAny]
    exact hchild.contains_parent
  have hkind : (b.widen : DeclId).kind ≠ .moduleDecl := b.kind_widen_ne (by decide)
  rcases hfits.exists_declScope ((Arena.contains_widen b).trans hb) with ⟨o, ho, -⟩
  rcases exists_visit_of_declScope h hlog ((Arena.contains_widen b).trans hb) hkind ho with
    ⟨around, hvisit, -⟩
  have hscope : ∃ s, b.toAny.narrow? (.category .scope) = some s := by
    rw [← Option.isSome_iff_exists, Ident.isSome_narrow?, Ident.kind_toAny, b.kind_eq]
    rfl
  rcases hscope with ⟨s, hs⟩
  have hbundle : s.toAny = b.toAny := Ident.narrow?_eq_some_iff_toAny.1 hs
  have henter : around.enter b.toAny =
      some ⟨s, (b.toAny.narrow? (.only .bindingDecl)).or around.binding⟩ := by
    rw [Surroundings.enter, hs]
    rfl
  have himpl := h.visit_child hlog hvisit hchild henter
  rcases exists_declScope_of_visit (d := i.widen) hfits himpl with ⟨q, hq, hindex⟩
  have hcontains : a.contains s = true := by
    rw [← Arena.contains_toAny, hbundle, Arena.contains_toAny, hb]
  obtain rfl : q = s := Arena.eq_of_contains (hfits.contains_declScope hq) hcontains hindex
  exact ⟨q, hq, hbundle⟩

end ScopeTables

namespace ScopedProgram

variable {a : Arena} {source : ScopedProgram} {i : IdentOf .subscriptImpl}

/-- Resolution puts an implementation in the scope of a subscript exactly if some subscript
lists it. -/
theorem inSubscript_iff_of_ofArena? (h : a.WellBuilt) (hsource : ofArena? a = .ok source)
    (hi : a.contains i = true) :
    source.InSubscript i.widen ↔
      ∃ (b : IdentOf .subscriptDecl) (decl : SubscriptDecl),
        a.get? b = some decl ∧ i ∈ decl.impls := by
  rcases ofArena?_eq_ok_iff_scopeLog.1 hsource with ⟨log, hlog, hfits, rfl⟩
  simp only [← Arena.hasChild_subscriptImpl_iff]
  constructor
  · rintro ⟨s, hs, hkind⟩
    have hmodule : (i.widen : DeclId).kind ≠ .moduleDecl := i.kind_widen_ne (by decide)
    rcases ScopeTables.exists_visit_of_declScope h hlog ((Arena.contains_widen i).trans hi) hmodule
      hs with ⟨around, hvisit, rfl⟩
    exact ScopeTables.exists_subscript_of_visit h hlog hvisit hkind
  · rintro ⟨b, hchild⟩
    rcases ScopeTables.exists_declScope_of_hasChild h hlog hfits hchild with ⟨s, hs, hbundle⟩
    exact ⟨s, hs, IdentOf.kind_eq_of_toAny_eq hbundle⟩

end ScopedProgram

namespace TypedProgram

variable {p : TypedProgram} {i : IdentOf .subscriptImpl} {source : ScopedProgram}
  {made : List (SynthesizedKind × ScopeId)} {pool : TypePool} {t : PropertyTables}
  {r : Relations} {validation : Validation}

theorem declScope?_impl (hp : p.source = source.grow made) (hi : source.arena.contains i = true) :
    p.source.declScope? i.widen = source.declScope? i.widen := by
  have hi' : source.arena.contains (i.widen : DeclId) = true := (Arena.contains_widen i).trans hi
  rw [hp, ScopedProgram.declScope?_grow_of_lt (Arena.index_lt_of_contains hi')]

theorem inSubscript_of_bundle (hp : p.source = source.grow made)
    (hi : source.arena.contains i = true) {b : IdentOf .subscriptDecl} (hb : p.bundle i = .ok b) :
    source.InSubscript i.widen := by
  rcases bundle_eq_ok_iff.1 hb with ⟨s, hs, hbundle⟩
  exact ⟨s, (declScope?_impl hp hi).symm.trans hs, IdentOf.kind_eq_of_toAny_eq hbundle⟩

/-- A scope that is a subscript is one of the arena, and as such it has captures. -/
theorem bundled_iff_inSubscript (hsource : source.tables.Fits source.arena)
    (hp : p.source = source.grow made) (hi : source.arena.contains i = true) :
    p.Bundled i ↔ source.InSubscript i.widen := by
  constructor
  · rintro ⟨b, hb, -, -⟩
    exact inSubscript_of_bundle hp hi hb
  · rintro ⟨s, hs, hkind⟩
    have hbundle : s.toAny = (IdentOf.ofIndex .subscriptDecl s.index).toAny :=
      (IdentOf.toAny_ofIndex hkind).symm
    have hb := bundle_eq_ok_iff.2 ⟨s, (declScope?_impl hp hi).trans hs, hbundle⟩
    have hcontains : p.arena.contains (IdentOf.ofIndex .subscriptDecl s.index) = true := by
      rw [← Arena.contains_toAny, ← hbundle, Arena.contains_toAny, TypedProgram.arena, hp]
      exact ScopedProgram.contains_grow.2 (.inl (hsource.contains_declScope hs))
    rcases Option.isSome_iff_exists.1 ((Arena.isSome_get? _ _).trans hcontains) with ⟨decl, hdecl⟩
    exact ⟨_, hb, hcontains, _,
      (capturesOfSubscriptImpl_eq hb).trans (capturesOfSubscript_eq hdecl)⟩

theorem eq_notInSubscript_of_bundle {e : Fault} (h : p.bundle i = .error e) :
    e = .notInSubscript i.toAny := by
  unfold bundle at h
  split at h
  · cases h
  · cases h
    rfl

/-- An implementation without a bundle breaks the contract whichever way it is asked for. -/
theorem bundled_or_fault (hsource : source.tables.Fits source.arena)
    (hp : p.source = source.grow made) (hi : source.arena.contains i = true) :
    p.Bundled i ∨ p.bundle i = .error (.notInSubscript i.toAny) ∧
      p.capturesOfSubscriptImpl i = .error (.notInSubscript i.toAny) := by
  cases hb : p.bundle i with
  | ok b => exact .inl ((bundled_iff_inSubscript hsource hp hi).2 (inSubscript_of_bundle hp hi hb))
  | error e =>
      obtain rfl := eq_notInSubscript_of_bundle hb
      refine .inr ⟨rfl, ?_⟩
      rw [capturesOfSubscriptImpl, hb]
      rfl

/-- Whatever a validated program has grown by and whatever the property tables say, an
implementation has a bundle or asking for it breaks the contract. It has one exactly if it is
in the scope of a subscript, and with the scopes of a well-built arena exactly if a subscript
lists it. So all implementations have one exactly if this is so for each of them. -/
theorem forall_bundled_iff (hsource : source.Validated)
    (hp : ofParts? (source.grow made) pool t r validation = .ok p) :
    (∀ i : IdentOf .subscriptImpl, p.arena.contains i = true →
        p.Bundled i ∨ p.bundle i = .error (.notInSubscript i.toAny) ∧
          p.capturesOfSubscriptImpl i = .error (.notInSubscript i.toAny)) ∧
      (∀ i : IdentOf .subscriptImpl, p.arena.contains i = true →
        (p.Bundled i ↔ source.InSubscript i.widen)) ∧
      ((∀ i : IdentOf .subscriptImpl, p.arena.contains i = true → p.Bundled i) ↔
        ∀ i : IdentOf .subscriptImpl, source.arena.contains i = true →
          source.InSubscript i.widen) ∧
      ∀ a : Arena, a.WellBuilt → ScopedProgram.ofArena? a = .ok source →
        (∀ i : IdentOf .subscriptImpl, p.arena.contains i = true →
          (p.Bundled i ↔ ∃ (b : IdentOf .subscriptDecl) (decl : SubscriptDecl),
            a.get? b = some decl ∧ i ∈ decl.impls)) ∧
        ((∀ i : IdentOf .subscriptImpl, p.arena.contains i = true → p.Bundled i) ↔
          ∀ i : IdentOf .subscriptImpl, a.contains i = true →
            ∃ (b : IdentOf .subscriptDecl) (decl : SubscriptDecl),
              a.get? b = some decl ∧ i ∈ decl.impls) := by
  obtain ⟨-, rfl⟩ := ofParts?_eq_ok_iff.1 hp
  have hcontains (i : IdentOf .subscriptImpl) :
      (source.grow made).arena.contains i = true ↔ source.arena.contains i = true :=
    ScopedProgram.contains_grow_of_kind_ne (by rw [i.kind_eq]; decide)
  simp only [TypedProgram.arena, hcontains]
  have hbundled {i : IdentOf .subscriptImpl} (hi : source.arena.contains i = true) :
      Bundled ⟨source.grow made, pool, t, r⟩ i ↔ source.InSubscript i.widen :=
    bundled_iff_inSubscript hsource.fits rfl hi
  refine ⟨fun i hi => bundled_or_fault hsource.fits rfl hi, fun i => hbundled,
    forall₂_congr fun i => hbundled, ?_⟩
  intro a ha hresolved
  obtain ⟨_, -, -, rfl⟩ := ScopedProgram.ofArena?_eq_ok_iff.1 hresolved
  have hlisted {i : IdentOf .subscriptImpl} (hi : a.contains i = true) :=
    (hbundled hi).trans (ScopedProgram.inSubscript_iff_of_ofArena? ha hresolved hi)
  exact ⟨fun i => hlisted, forall₂_congr fun i => hlisted⟩

section Stray

open ScopedProgram (ofArena? ofTables?)

/-- An implementation, a subscript with the given implementations, and a translation unit
with the given declarations. -/
def subscriptInUnit (impls : List (IdentOf .subscriptImpl)) (decls : List DeclId) : Arena :=
  [⟨.subscriptImpl, ({ introducer := .let, body := none } : SubscriptImpl)⟩,
    ⟨.subscriptDecl, ({
      name := none
      genericParameters := []
      explicitCaptures := []
      receiver := none
      parameters := []
      impls := impls } : SubscriptDecl)⟩,
    ⟨.translationUnit, ({ decls := decls } : TranslationUnit)⟩,
    ⟨.moduleDecl, ({
      name := .empty
      sources := [.ofIndex .translationUnit 2] } : ModuleDecl)⟩].foldl
    (fun a n => (a.insert n .dummy).2) ∅

def subscriptTypes : TypePool := TypePool.new.push (.module (.ofIndex .moduleDecl 3))

def typedSubscript : PropertyTables where
  declTypes := (∅ : Table DeclId TypeId).insert (IdentOf.ofIndex .subscriptImpl 0).widen ⟨3⟩
    |>.insert (IdentOf.ofIndex .subscriptDecl 1).widen ⟨3⟩
    |>.insert (IdentOf.ofIndex .moduleDecl 3).widen ⟨7⟩

/-- An implementation that the unit declares itself, beside a subscript without any. -/
def implInUnit : Arena :=
  subscriptInUnit []
    [(IdentOf.ofIndex .subscriptDecl 1).widen, (IdentOf.ofIndex .subscriptImpl 0).widen]

def implInUnitLog : List ScopeTables.Event :=
  let module : ScopeId := (IdentOf.ofIndex .moduleDecl 3).widen
  let unit : ScopeId := (IdentOf.ofIndex .translationUnit 2).widen
  [.module (.ofIndex .moduleDecl 3),
    .visit ⟨module, none⟩ (.of .translationUnit 2),
    .visit ⟨unit, none⟩ (.of .subscriptDecl 1),
    .visit ⟨unit, none⟩ (.of .subscriptImpl 0)]

def scopedImplInUnit : ScopedProgram := ⟨implInUnit, .ofLog implInUnitLog⟩

theorem wellBuilt_implInUnit : implInUnit.WellBuilt := by
  unfold implInUnit subscriptInUnit
  repeat refine .insert ?_ (by decide)
  exact .empty

theorem ofArena?_implInUnit : ofArena? implInUnit = .ok scopedImplInUnit := by
  have hlog : implInUnit.scopeLog = .ok implInUnitLog := by
    unfold Arena.scopeLog Arena.moduleLog Arena.visitsBelow
    simp only [Arena.visits_eq_visitsWithin]
    rfl
  have hfits : scopedImplInUnit.tables.Fits implInUnit := by decide +kernel
  exact ScopedProgram.ofArena?_eq_ok_iff_scopeLog.2 ⟨_, hlog, hfits, rfl⟩

theorem forall_bundled_iff_implInUnit :
    scopedImplInUnit.Validated ∧
      ∃ p, ofParts? scopedImplInUnit subscriptTypes typedSubscript (∅ : RelationTable).relations
          .full = .ok p ∧
        p.bundle (.ofIndex .subscriptImpl 0) = .error (.notInSubscript (.of .subscriptImpl 0)) ∧
        (∀ i : IdentOf .subscriptImpl, p.arena.contains i = true →
          (p.Bundled i ↔ scopedImplInUnit.InSubscript i.widen)) ∧
        ((∀ i : IdentOf .subscriptImpl, p.arena.contains i = true → p.Bundled i) ↔
          ∀ i : IdentOf .subscriptImpl, scopedImplInUnit.arena.contains i = true →
            scopedImplInUnit.InSubscript i.widen) ∧
        (∀ i : IdentOf .subscriptImpl, p.arena.contains i = true →
          (p.Bundled i ↔ ∃ (b : IdentOf .subscriptDecl) (decl : SubscriptDecl),
            implInUnit.get? b = some decl ∧ i ∈ decl.impls)) ∧
        ((∀ i : IdentOf .subscriptImpl, p.arena.contains i = true → p.Bundled i) ↔
          ∀ i : IdentOf .subscriptImpl, implInUnit.contains i = true →
            ∃ (b : IdentOf .subscriptDecl) (decl : SubscriptDecl),
              implInUnit.get? b = some decl ∧ i ∈ decl.impls) := by
  have hvalidated : scopedImplInUnit.Validated := .inl ⟨_, ofArena?_implInUnit⟩
  have hdescribes : typedSubscript.Describes implInUnit subscriptTypes := by decide +kernel
  have hp : ofParts? (scopedImplInUnit.grow []) subscriptTypes typedSubscript
      (∅ : RelationTable).relations .full =
        .ok ⟨scopedImplInUnit, subscriptTypes, typedSubscript, _⟩ :=
    ofParts?_full_eq_ok_iff.2 ⟨hdescribes, rfl⟩
  have hforall := forall_bundled_iff hvalidated hp
  exact ⟨hvalidated, _, hp, by decide +kernel, hforall.2.1, hforall.2.2.1,
    hforall.2.2.2 _ wellBuilt_implInUnit ofArena?_implInUnit⟩

/-- An implementation in the unit, though the subscript there lists it. -/
def strayImpl : ScopeTables where
  parents := (∅ : Table ScopeId ScopeId)
    |>.insert ⟨.subscriptImpl, 0, rfl⟩ ⟨.subscriptDecl, 1, rfl⟩
    |>.insert ⟨.subscriptDecl, 1, rfl⟩ ⟨.translationUnit, 2, rfl⟩
    |>.insert ⟨.translationUnit, 2, rfl⟩ ⟨.moduleDecl, 3, rfl⟩
  decls := (∅ : Table ScopeId (List DeclId))
    |>.insert (IdentOf.ofIndex .translationUnit 2).widen
      [(IdentOf.ofIndex .subscriptDecl 1).widen, (IdentOf.ofIndex .subscriptImpl 0).widen]
  declScopes := (∅ : Table DeclId ScopeId)
    |>.insert (IdentOf.ofIndex .subscriptImpl 0).widen (IdentOf.ofIndex .translationUnit 2).widen
    |>.insert (IdentOf.ofIndex .subscriptDecl 1).widen (IdentOf.ofIndex .translationUnit 2).widen
    |>.insert (IdentOf.ofIndex .moduleDecl 3).widen (IdentOf.ofIndex .moduleDecl 3).widen

/-- The unit with one subscript that lists its implementation. -/
def listedImpl : Arena :=
  subscriptInUnit [.ofIndex .subscriptImpl 0] [(IdentOf.ofIndex .subscriptDecl 1).widen]

/-- Both checks let an implementation pass that is not in the scope of its subscript. -/
theorem not_bundled_strayImpl :
    ∃ source p, ofTables? listedImpl strayImpl = .ok source ∧
      ofParts? source subscriptTypes typedSubscript (∅ : RelationTable).relations .full = .ok p ∧
      p.arena.contains (IdentOf.ofIndex .subscriptImpl 0) = true ∧
      p.bundle (.ofIndex .subscriptImpl 0) = .error (.notInSubscript (.of .subscriptImpl 0)) ∧
      p.capturesOfSubscriptImpl (.ofIndex .subscriptImpl 0) =
        .error (.notInSubscript (.of .subscriptImpl 0)) := by
  have hfits : strayImpl.Fits listedImpl := by decide +kernel
  have hdescribes : typedSubscript.Describes listedImpl subscriptTypes := by decide +kernel
  exact ⟨_, _, ScopedProgram.ofTables?_eq_ok_iff_fits.2 ⟨hfits, rfl⟩,
    ofParts?_full_eq_ok_iff.2 ⟨hdescribes, rfl⟩, by decide +kernel, by decide +kernel,
    by decide +kernel⟩

end Stray

end TypedProgram

end TypedTree
