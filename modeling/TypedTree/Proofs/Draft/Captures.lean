import TypedTree.Proofs.Arena.Grammar
import TypedTree.Proofs.Draft.Recorded
import TypedTree.Proofs.Scope.Resolvable

/-!
# Captures of drafted programs

`Draft.captureLayout` is the capture list that the log of a run gives: the receiver alone,
or the explicit captures with what was recorded last. A program that a run yields has these
lists (`Answers.captureList_eq`). An implementation of a subscript lies right below its
bundle, so resolution puts it in the scope of the bundle, where it stays however far the
program grows (`declScope?_grow_of_mem_impls`). Hence it has the captures of the bundle.
-/

namespace TypedTree

open Draft (Op)

/-- The declarations that `owner` captures by the log of a run. -/
def Draft.captureLayout (ops : List Op) (owner : DeclId)
    (receiver : Option (IdentOf .parameterDecl)) (explicit : List (IdentOf .bindingDecl)) :
    List DeclId :=
  match receiver with
  | some r => [r.widen]
  | none =>
    explicit.map (·.widen) ++
      ((lastAt (ops.filterMap Op.implicitCaptures?) owner).getD []).map ImplicitCapture.decl

namespace TypedProgram

/-- The capture lists are those that the log of a run gives, and implementations of
subscripts have the lists of their bundles. -/
structure LaysOut (p : TypedProgram) (ops : List Op) : Prop where
  function : ∀ (d : IdentOf .functionDecl) (decl : FunctionDecl), p.arena.get? d = some decl →
    p.capturesOfFunction d =
      .ok (Draft.captureLayout ops d.widen decl.receiver decl.explicitCaptures)
  subscript : ∀ (d : IdentOf .subscriptDecl) (decl : SubscriptDecl), p.arena.get? d = some decl →
    p.capturesOfSubscript d =
      .ok (Draft.captureLayout ops d.widen decl.receiver decl.explicitCaptures)
  impl : ∀ (b : IdentOf .subscriptDecl) (decl : SubscriptDecl), p.arena.get? b = some decl →
    ∀ i ∈ decl.impls, p.bundle i = .ok b ∧ p.capturesOfSubscriptImpl i = p.capturesOfSubscript b

variable {p : TypedProgram} {source : ScopedProgram} {ops : List Op}

theorem Answers.captureList_eq (h : p.Answers source ops) (owner : DeclId)
    (receiver : Option (IdentOf .parameterDecl)) (explicit : List (IdentOf .bindingDecl)) :
    p.captureList owner receiver explicit = Draft.captureLayout ops owner receiver explicit := by
  have himplicit : p.properties.implicitCaptures.get? owner =
      lastAt (ops.filterMap Op.implicitCaptures?) owner := h.implicitCaptures? owner
  cases receiver with
  | some r => rfl
  | none => simp only [captureList, Draft.captureLayout, himplicit]

theorem capturesOfFunction_eq {d : IdentOf .functionDecl} {decl : FunctionDecl}
    (hd : p.arena.get? d = some decl) :
    p.capturesOfFunction d = .ok (p.captureList d.widen decl.receiver decl.explicitCaptures) := by
  rw [capturesOfFunction, Arena.fields, hd]
  rfl

theorem capturesOfSubscript_eq {d : IdentOf .subscriptDecl} {decl : SubscriptDecl}
    (hd : p.arena.get? d = some decl) :
    p.capturesOfSubscript d = .ok (p.captureList d.widen decl.receiver decl.explicitCaptures) := by
  rw [capturesOfSubscript, Arena.fields, hd]
  rfl

theorem bundle_eq_ok_iff {i : IdentOf .subscriptImpl} {b : IdentOf .subscriptDecl} :
    p.bundle i = .ok b ↔ ∃ s, p.source.declScope? i.widen = some s ∧ s.toAny = b.toAny := by
  have hnarrow (s : ScopeId) : s.narrow? (.only .subscriptDecl) = some b ↔ s.toAny = b.toAny :=
    (Ident.narrow?_eq_some_iff_toAny (x := s.toAny)).trans eq_comm
  simp only [← hnarrow, ← Option.bind_eq_some_iff]
  unfold bundle
  split
  · next h => rw [h, Except.ok.injEq, Option.some.injEq]
  · next h => simp [h]

theorem capturesOfSubscriptImpl_eq {i : IdentOf .subscriptImpl} {b : IdentOf .subscriptDecl}
    (hb : p.bundle i = .ok b) : p.capturesOfSubscriptImpl i = p.capturesOfSubscript b := by
  rw [capturesOfSubscriptImpl, hb]
  rfl

end TypedProgram

section Resolved

variable {a : Arena} {source : ScopedProgram} {b : IdentOf .subscriptDecl} {decl : SubscriptDecl}
  {i : IdentOf .subscriptImpl}

/-- Resolution puts an implementation in the scope of its bundle, and growth leaves it
there. -/
theorem ScopedProgram.declScope?_grow_of_mem_impls (h : a.TreeShaped)
    (hsource : ofArena? a = .ok source) (made : List (SynthesizedKind × ScopeId))
    (hb : (source.grow made).arena.get? b = some decl) (hi : i ∈ decl.impls) :
    ∃ s, (source.grow made).declScope? i.widen = some s ∧ s.toAny = b.toAny := by
  rw [get?_grow (by decide)] at hb
  obtain ⟨log, hlog, hfits, rfl⟩ := ofArena?_eq_ok_iff_scopeLog.1 hsource
  have hchild : a.HasChild b.toAny i.toAny := Arena.hasChild_subscriptImpl_iff.2 ⟨decl, hb, hi⟩
  have hcontains : a.contains (i.widen : DeclId) = true := by
    rw [Arena.contains_widen, ← Arena.contains_toAny]
    exact h.wellBuilt.contains_child hchild
  have hkind : (i.widen : DeclId).kind ≠ .moduleDecl := i.kind_widen_ne (by decide)
  obtain ⟨s, hs, hnearest⟩ := (lexical_of_fits h hlog hfits).declScope i.widen hcontains hkind
  -- the bundle is the parent and a scope, so no scope is nearer
  have hscope : (Class.category .scope).admits b.toAny.kind = true := by
    rw [Ident.kind_toAny, b.kind_eq]
    rfl
  refine ⟨s, ?_, hnearest.unique h.wellBuilt.acyclic (h.forest.nearest_parent hchild hscope)⟩
  rw [declScope?_grow_of_lt (Arena.index_lt_of_contains hcontains)]
  exact hs

end Resolved

namespace Draft

variable {a : Arena} {source : ScopedProgram} {pool : TypePool} {ops : List Op} {r : Relations}
  {p : TypedProgram}

/-- In a program that a run over a resolved tree yields, captures are laid out by the log of
the run, and an implementation of a subscript has those of its bundle. -/
theorem laysOut_of_finish? (h : a.TreeShaped) (hsource : ScopedProgram.ofArena? a = .ok source)
    (hp : ((start source pool).run ops).finish? r = .ok p) : p.LaysOut ops := by
  have hanswers := answers_of_finish?_eq_ok hp
  constructor
  · intro d decl hd
    rw [TypedProgram.capturesOfFunction_eq hd, hanswers.captureList_eq]
  · intro d decl hd
    rw [TypedProgram.capturesOfSubscript_eq hd, hanswers.captureList_eq]
  · intro b decl hb i hi
    have hscope : ∃ s, p.source.declScope? i.widen = some s ∧ s.toAny = b.toAny := by
      rw [TypedProgram.arena, hanswers.source_eq] at hb
      rw [hanswers.source_eq]
      exact ScopedProgram.declScope?_grow_of_mem_impls h hsource _ hb hi
    have hbundle : p.bundle i = .ok b := TypedProgram.bundle_eq_ok_iff.2 hscope
    exact ⟨hbundle, TypedProgram.capturesOfSubscriptImpl_eq hbundle⟩

section Member

open ScopedProgram (ofArena?)

/-- A function whose capture list names a binding. -/
def capturing : FunctionDecl where
  name := none
  genericParameters := []
  explicitCaptures := [.ofIndex .bindingDecl 3]
  receiver := none
  parameters := []
  body := none

def memberSubscript : SubscriptDecl where
  name := none
  genericParameters := []
  explicitCaptures := []
  receiver := some (.ofIndex .parameterDecl 5)
  parameters := []
  impls := [.ofIndex .subscriptImpl 6]

def memberInUnit : Arena :=
  [⟨.varDecl, ({ name := .empty } : NamedDecl)⟩,
    ⟨.namePattern, ({ decl := .ofIndex .varDecl 0 } : NamePattern)⟩,
    ⟨.bindingPattern, ({
      introducer := .let
      subpattern := (IdentOf.ofIndex .namePattern 1).widen } : BindingPattern)⟩,
    ⟨.bindingDecl, ({
      pattern := .ofIndex .bindingPattern 2
      initializer := none } : BindingDecl)⟩,
    ⟨.functionDecl, capturing⟩,
    ⟨.parameterDecl, ({ label := none, name := .empty, convention := .let } : ParameterDecl)⟩,
    ⟨.subscriptImpl, ({ introducer := .let, body := none } : SubscriptImpl)⟩,
    ⟨.subscriptDecl, memberSubscript⟩,
    ⟨.translationUnit, ({
      decls := [(IdentOf.ofIndex .functionDecl 4).widen,
        (IdentOf.ofIndex .subscriptDecl 7).widen] } : TranslationUnit)⟩,
    ⟨.moduleDecl, ({
      name := .empty
      sources := [.ofIndex .translationUnit 8] } : ModuleDecl)⟩].foldl
    (fun a n => (a.insert n .dummy).2) ∅

theorem treeShaped_memberInUnit : memberInUnit.TreeShaped where
  wellBuilt := by
    unfold memberInUnit
    repeat refine .insert ?_ (by decide)
    exact .empty
  once := by decide
  noModule := by decide

theorem resolvable_memberInUnit : memberInUnit.Resolvable where
  reached id hid _ := treeShaped_memberInUnit.wellBuilt.reached_of_held (by decide) hid
  bound v hv := by
    have hvars : ∀ v ∈ memberInUnit.idsOf (.only .varDecl), v = IdentOf.ofIndex .varDecl 0 := by
      decide
    obtain rfl := hvars v (Arena.mem_idsOf_iff.2 hv)
    refine ⟨.ofIndex .bindingDecl 3, ?_⟩
    refine .head (b := .of .bindingPattern 2) ⟨_, rfl, rfl, by decide⟩ ?_
    refine .head (b := .of .namePattern 1) ⟨_, rfl, rfl, by decide⟩ ?_
    exact .single ⟨_, rfl, rfl, by decide⟩

def varCapture : ImplicitCapture :=
  { name := .empty, ty := ⟨3⟩, decl := (IdentOf.ofIndex .varDecl 0).widen, mode := .byValue }

/-- Records captures for `memberInUnit`: for the function twice, the second time under a key
that claims to be a variable. -/
def captureTwice : List Op :=
  [.setValidation .modulesOnly,
    .intern (.module (.ofIndex .moduleDecl 9)),
    .setDeclType (IdentOf.ofIndex .moduleDecl 9).widen ⟨7⟩,
    .setImplicitCaptures (IdentOf.ofIndex .functionDecl 4).widen [],
    .setImplicitCaptures (IdentOf.ofIndex .varDecl 4).widen [varCapture, varCapture],
    .synthesize ⟨.ofIndex .moduleDecl 9, .copy, ⟨3⟩, (IdentOf.ofIndex .functionDecl 4).widen⟩,
    .setImplicitCaptures (IdentOf.ofIndex .subscriptDecl 7).widen [varCapture]]

theorem finish?_captureTwice (t : ScopeTables) :
    ∃ p, ((start ⟨memberInUnit, t⟩ .new).run captureTwice).finish?
      (∅ : RelationTable).relations = .ok p := by
  have hcheck : ((start ⟨memberInUnit, t⟩ .new).run captureTwice).properties.check
      ((start ⟨memberInUnit, t⟩ .new).run captureTwice).source.arena
      ((start ⟨memberInUnit, t⟩ .new).run captureTwice).pool .modulesOnly = .ok () := rfl
  exact ⟨_, finish?_eq_ok_iff.2 ⟨rfl, TypedProgram.ofParts?_eq_ok_iff.2 ⟨hcheck, rfl⟩⟩⟩

theorem laysOut_captureTwice :
    memberInUnit.TreeShaped ∧ ∃ source, ofArena? memberInUnit = .ok source ∧
      ∃ p, ((start source .new).run captureTwice).finish? (∅ : RelationTable).relations = .ok p ∧
        p.LaysOut captureTwice ∧
        p.capturesOfFunction (.ofIndex .functionDecl 4) =
          .ok [(IdentOf.ofIndex .bindingDecl 3).widen, (IdentOf.ofIndex .varDecl 0).widen,
            (IdentOf.ofIndex .varDecl 0).widen] ∧
        p.capturesOfSubscriptImpl (.ofIndex .subscriptImpl 6) =
          .ok [(IdentOf.ofIndex .parameterDecl 5).widen] := by
  have h := treeShaped_memberInUnit
  obtain ⟨log, hlog⟩ := h.wellBuilt.exists_scopeLog
  have hsource := ScopedProgram.ofArena?_of_resolvable h hlog resolvable_memberInUnit
  obtain ⟨p, hp⟩ := finish?_captureTwice (.ofLog log)
  have hlays := laysOut_of_finish? h hsource hp
  have harena := (answers_of_finish?_eq_ok hp).source_eq
  have hfunction : p.arena.get? (.ofIndex .functionDecl 4) = some capturing := by
    rw [TypedProgram.arena, harena]
    rfl
  have hmember : p.arena.get? (.ofIndex .subscriptDecl 7) = some memberSubscript := by
    rw [TypedProgram.arena, harena]
    rfl
  refine ⟨h, _, hsource, p, hp, hlays, hlays.function _ _ hfunction, ?_⟩
  rw [(hlays.impl _ _ hmember _ (.head _)).2]
  exact hlays.subscript _ _ hmember

end Member

end Draft

end TypedTree
