import TypedTree.Proofs.Arena.Identity
import TypedTree.Proofs.Ty.Display
import TypedTree.TypeError

/-!
# Explanations of type errors

`NameTable.Covers` says that a table knows the names that are stored in an arena and in a pool.
Nothing else has to hold for types, traits, constraints and errors to be put into words: a type
writes names that it stores itself, or that the declaration stores which it refers to, and what
does not denote anything has words of its own. So a diagnostic is made for every error, with the
place of its cause as primary label, and `TypeError.Explains` says what else is known of it.
-/

namespace TypedTree

theorem exists_joined_eq_ok {ε : Type} {left right : Except ε String} {between : String}
    (hleft : ∃ s, left = .ok s) (hright : ∃ s, right = .ok s) :
    ∃ s, (do
      let left ← left
      return left ++ between ++ (← right)) = .ok s := by
  obtain ⟨l, hl⟩ := hleft
  obtain ⟨r, hr⟩ := hright
  exact ⟨_, bind_eq_ok_iff.2 ⟨l, hl, bind_eq_ok_iff.2 ⟨r, hr, rfl⟩⟩⟩

def Node.names : Node → List Name
  | ⟨.moduleDecl, (n : ModuleDecl)⟩ => [n.name]
  | ⟨.importDecl, (n : NamedDecl)⟩ => [n.name]
  | ⟨.varDecl, (n : NamedDecl)⟩ => [n.name]
  | ⟨.genericParameterDecl, (n : NamedDecl)⟩ => [n.name]
  | ⟨.parameterDecl, (n : ParameterDecl)⟩ => n.label.toList ++ [n.name]
  | ⟨.functionDecl, (n : FunctionDecl)⟩ => n.name.toList
  | ⟨.subscriptDecl, (n : SubscriptDecl)⟩ => n.name.toList
  | ⟨.productTypeDecl, (n : ProductTypeDecl)⟩ => [n.name]
  | ⟨.traitDecl, (n : TraitDecl)⟩ => [n.name]
  | ⟨.nameExpr, (n : NameExpr)⟩ => [n.name]
  | ⟨.integerLiteralExpr, (n : TextLiteral)⟩ => [n.value]
  | ⟨.stringLiteralExpr, (n : TextLiteral)⟩ => [n.value]
  | ⟨.functionCallExpr, (n : FunctionCallExpr)⟩ => n.arguments.filterMap Labeled.label
  | ⟨.tupleExpr, (n : TupleExpr)⟩ => n.elements.filterMap Labeled.label
  | ⟨.tuplePattern, (n : TuplePattern)⟩ => n.elements.filterMap Labeled.label
  | ⟨.bindingDecl, _⟩ | ⟨.subscriptImpl, _⟩ | ⟨.synthesizedDecl, _⟩ | ⟨.booleanLiteralExpr, _⟩
  | ⟨.sequenceExpr, _⟩ | ⟨.lambdaExpr, _⟩ | ⟨.mapLiteralExpr, _⟩ | ⟨.bindingPattern, _⟩
  | ⟨.namePattern, _⟩ | ⟨.wildcardPattern, _⟩ | ⟨.braceStmt, _⟩ | ⟨.exprStmt, _⟩
  | ⟨.declStmt, _⟩ | ⟨.returnStmt, _⟩ | ⟨.translationUnit, _⟩ => []

namespace Ty

variable {n : Name}

def names : Ty → List Name
  | .tuple components => components.filterMap TupleComponent.label
  | .lambda s | .subscript _ s => s.inputs.filterMap CallableParameter.label
  | .builtin _ | .module _ | .product _ | .trait _ | .genericParameter _ | .error => []

theorem declaredName_eq_name_iff {o : Option Name} : declaredName o = .name n ↔ o = some n := by
  cases o <;> simp [declaredName]

theorem name_mem_labeled_iff {pieces : List (Piece TypeId)} {label : Option Name} :
    .name n ∈ labeled pieces label ↔ label = some n ∨ .name n ∈ pieces := by
  cases label <;> simp [labeled, eq_comm]

theorem name_mem_separated_iff {items : List (List (Piece TypeId))} :
    .name n ∈ separated items ↔ ∃ item ∈ items, .name n ∈ item :=
  mem_separated_iff (by simp)

theorem name_mem_inputsLayout_iff {inputs : List CallableParameter} :
    .name n ∈ inputsLayout inputs ↔ n ∈ inputs.filterMap CallableParameter.label := by
  have hinput (input : CallableParameter) : .name n ∈ inputLayout input ↔ input.label = some n := by
    rw [inputLayout, name_mem_labeled_iff]
    split <;> simp
  simp [inputsLayout, name_mem_separated_iff, hinput]

theorem name_notMem_environmentLayout {environment : TypeId} :
    .name n ∉ environmentLayout environment := by
  rw [environmentLayout]
  split <;> simp

end Ty

namespace NameTable

/-- The table knows each name that a node of the arena or a type of the pool stores. -/
structure Covers (names : NameTable) (p : TypePool) (a : Arena) : Prop where
  nodes : ∀ node ∈ a.nodes.toList, ∀ n ∈ node.names, (names.text? n).isSome
  types : ∀ ty ∈ p.types.toList, ∀ n ∈ ty.names, (names.text? n).isSome

namespace Covers

variable {names : NameTable} {p : TypePool} {a : Arena} {k : Kind} {n : Name} {ty : Ty}

theorem isSome_of_mem_names (h : names.Covers p a) {id : IdentOf k} {fields : k.Fields}
    (hget : a.get? id = some fields) (hn : n ∈ (Node.mk k fields).names) :
    (names.text? n).isSome :=
  h.nodes _ (Arena.mem_nodes_of_node? (Arena.get?_eq_some_iff.1 hget)) n hn

theorem isSome_of_declaredName (h : names.Covers p a) (id : IdentOf k) {name : k.Fields → Name}
    (hname : ∀ fields, name fields ∈ (Node.mk k fields).names)
    (hn : Ty.declaredName ((a.get? id).map name) = .name n) : (names.text? n).isSome := by
  obtain ⟨fields, hget, rfl⟩ := Option.map_eq_some_iff.1 (Ty.declaredName_eq_name_iff.1 hn)
  exact h.isSome_of_mem_names hget (hname fields)

/-- Whatever name a type is written with, the type or the node of its declaration stores it. -/
theorem isSome_of_mem_layout (h : names.Covers p a) (hty : ty ∈ p.types.toList)
    (hn : .name n ∈ ty.layout a) : (names.text? n).isSome := by
  have hstored : n ∈ ty.names → (names.text? n).isSome := h.types ty hty n
  cases ty with
  | builtin | error => simp [Ty.layout] at hn
  | module decl =>
      simp only [Ty.layout, List.mem_cons, reduceCtorEq, List.not_mem_nil, or_false,
        false_or] at hn
      exact h.isSome_of_declaredName decl (fun _ => List.mem_singleton_self _) hn.symm
  | product decl | trait decl | genericParameter decl =>
      exact h.isSome_of_declaredName decl (fun _ => List.mem_singleton_self _)
        (List.mem_singleton.1 hn).symm
  | tuple components =>
      have hcomponent (c : TupleComponent) :
          .name n ∈ Ty.componentLayout c ↔ c.label = some n := by
        rw [Ty.componentLayout, Ty.name_mem_labeled_iff]
        simp
      refine hstored ?_
      simpa [Ty.layout, Ty.names, Ty.name_mem_separated_iff, hcomponent] using hn
  | lambda s =>
      refine hstored ?_
      simpa [Ty.layout, Ty.names, Ty.name_mem_inputsLayout_iff,
        Ty.name_notMem_environmentLayout] using hn
  | subscript capabilities s =>
      refine hstored ?_
      simpa [Ty.layout, Ty.names, Ty.name_mem_inputsLayout_iff] using hn

/-- Every type can be displayed, also one that is not in the pool or that contains itself. -/
theorem exists_display (h : names.Covers p a) (t : TypeId) :
    ∃ s, p.display a names t = .ok s := by
  rw [TypePool.display_eq_text]
  refine TypePool.exists_text_outline_eq_ok_iff.2 fun n huses => ?_
  obtain ⟨u, ty, -, hget, hn⟩ := huses
  exact h.isSome_of_mem_layout (TypePool.mem_types_iff.2 ⟨u, hget⟩) hn

theorem exists_displayTrait (h : names.Covers p a) (t : IdentOf .traitDecl) :
    ∃ s, p.displayTrait a names t = .ok s := by
  rw [TypePool.displayTrait]
  cases hget : a.get? t with
  | none => exact h.exists_display .error
  | some fields =>
      have hname := h.isSome_of_mem_names hget (List.mem_singleton_self _)
      obtain ⟨s, hs⟩ := Option.isSome_iff_exists.1 hname
      exact ⟨s, NameTable.lookup_eq_ok_iff.2 hs⟩

theorem exists_displayTraits (h : names.Covers p a) (traits : TraitSet) :
    ∃ s, p.displayTraits a names traits = .ok s := by
  obtain ⟨texts, htexts⟩ := exists_map_eq_map_ok (l := traits.toList)
    fun t _ => h.exists_displayTrait t
  exact ⟨_, bind_eq_ok_iff.2 ⟨texts, mapM_eq_ok_iff.2 htexts, rfl⟩⟩

theorem exists_display_constraint (h : names.Covers p a) (c : Constraint) :
    ∃ s, c.display p a names = .ok s := by
  cases c with
  | equality lhs rhs => exact exists_joined_eq_ok (h.exists_display lhs) (h.exists_display rhs)
  | subtyping sub super => exact exists_joined_eq_ok (h.exists_display sub) (h.exists_display super)
  | conformance subject traits =>
      exact exists_joined_eq_ok (h.exists_display subject) (h.exists_displayTraits traits)

end Covers

end NameTable

namespace TypeError

/-- The error names a scope that is a node of the arena of the kind claimed, and `span` is the
text of this scope, which is not empty and not the place of the cause. -/
def ShowsScope (e : TypeError) (a : Arena) (span : Span) : Prop :=
  ∃ ty traits scope, e.kind = .doesNotConform ty traits scope ∧
    a.kindAt? scope = some scope.kind ∧ a.span scope = .ok span ∧
    span.isEmpty = false ∧ span ≠ e.cause.span

theorem isInternal_code_iff {kind : TypeErrorKind} :
    kind.code.isInternal = true ↔ kind = .staleConstraint := by
  cases kind <;> simp [TypeErrorKind.code, ErrorCode.isInternal]

/-- A node of the arena has a span, so what is shown of a scope can always be told. -/
theorem exists_relatedSpan? (a : Arena) (cause : Span) (scope : NodeId) :
    ∃ related, relatedSpan? a cause scope = .ok related ∧
      ∀ span, related = some span ↔ a.kindAt? scope = some scope.kind ∧
        a.span scope = .ok span ∧ span.isEmpty = false ∧ span ≠ cause := by
  rw [← Arena.contains_iff_kindAt?, relatedSpan?]
  cases hcontains : a.contains scope with
  | false => exact ⟨none, rfl, by simp⟩
  | true =>
      obtain ⟨s, hspan⟩ := Arena.exists_span_of_lt (Arena.index_lt_of_contains hcontains)
      rw [hspan]
      refine ⟨_, rfl, fun span => ?_⟩
      simp only [Option.ite_none_right_eq_some, Bool.and_eq_true, Bool.not_eq_true', bne_iff_ne,
        Except.ok.injEq, Option.some.injEq, true_and]
      constructor
      · rintro ⟨⟨hempty, hne⟩, rfl⟩
        exact ⟨rfl, hempty, hne⟩
      · rintro ⟨rfl, hempty, hne⟩
        exact ⟨⟨hempty, hne⟩, rfl⟩

end TypeError

namespace Diagnostic

/-- The diagnostic has a primary label at the cause of the error, blames the compiler for stale
constraints only, and has a secondary label just where there is a scope to be shown. -/
structure Explains (d : Diagnostic) (e : TypeError) (a : Arena) : Prop where
  primary : d.primarySpan? = some e.cause.span
  internal : d.isInternal = true ↔ e.kind = .staleConstraint
  secondary : (∃ l ∈ d.labels, l.isPrimary = false) ↔ ∃ span, e.ShowsScope a span
  shown : ∀ l ∈ d.labels, l.isPrimary = false → e.ShowsScope a l.span

variable {d : Diagnostic} {e : TypeError} {a : Arena}

theorem Explains.of_labels {message : String} (context : String) {related : Option Span}
    (hcode : d.code = e.kind.code)
    (hlabels : d.labels = ⟨e.cause.span, message, true⟩ ::
      related.toList.map (⟨·, context, false⟩))
    (hrelated : ∀ span, related = some span ↔ e.ShowsScope a span) : d.Explains e a := by
  have hshown (span : Span) : (∃ l ∈ d.labels, l.isPrimary = false ∧ l.span = span) ↔
      e.ShowsScope a span := by
    rw [hlabels, ← hrelated]
    simp
  refine ⟨by simp [primarySpan?, hlabels], ?_, ?_, fun l hl hsecondary => ?_⟩
  · rw [isInternal, hcode, TypeError.isInternal_code_iff]
  · constructor
    · rintro ⟨l, hl, hsecondary⟩
      exact ⟨l.span, (hshown l.span).1 ⟨l, hl, hsecondary, rfl⟩⟩
    · rintro ⟨span, hspan⟩
      obtain ⟨l, hl, hsecondary, -⟩ := (hshown span).2 hspan
      exact ⟨l, hl, hsecondary⟩
  · exact (hshown l.span).1 ⟨l, hl, hsecondary, rfl⟩

end Diagnostic

namespace TypeError

variable {p : TypePool} {a : Arena} {names : NameTable}

theorem exists_explains (h : names.Covers p a) (e : TypeError) :
    ∃ d, e.diagnostic p a names = .ok d ∧ d.Explains e a := by
  obtain ⟨kind, cause⟩ := e
  cases kind with
  | doesNotConform ty traits scope =>
      obtain ⟨tyText, hty⟩ := h.exists_display ty
      obtain ⟨traitsText, htraits⟩ := h.exists_displayTraits traits
      obtain ⟨related, hrelated, hspan⟩ := exists_relatedSpan? a cause.span scope
      have hshows (span : Span) : related = some span ↔
          ShowsScope ⟨.doesNotConform ty traits scope, cause⟩ a span := by
        rw [hspan]
        constructor
        · exact fun hscope => ⟨ty, traits, scope, rfl, hscope⟩
        · rintro ⟨_, _, _, hkind, hscope⟩
          cases hkind
          exact hscope
      simp only [diagnostic, hty, htraits, hrelated]
      cases related with
      | none => exact ⟨_, rfl, .of_labels "" rfl rfl hshows⟩
      | some span => exact ⟨_, rfl, .of_labels _ rfl rfl hshows⟩
  | staleConstraint =>
      obtain ⟨text, htext⟩ := h.exists_display_constraint cause.constraint
      have hshows (span : Span) : none = some span ↔ ShowsScope ⟨.staleConstraint, cause⟩ a span :=
        iff_of_false nofun fun ⟨_, _, _, hkind, _⟩ => nomatch hkind
      simp only [diagnostic, htext]
      exact ⟨_, rfl, .of_labels "" rfl rfl hshows⟩

/-- Let the table know each name that is stored in the arena and in the pool. Then a diagnostic
explains each error, and each constraint can be displayed, whatever types, traits, sites and
scopes they refer to. -/
theorem diagnostic_explains (h : names.Covers p a) :
    (∀ e : TypeError, ∃ d, e.diagnostic p a names = .ok d ∧ d.Explains e a) ∧
      ∀ c : Constraint, ∃ s, c.display p a names = .ok s :=
  ⟨exists_explains h, h.exists_display_constraint⟩

section Sketch

/-- A product type and a trait, with names and text. -/
def sketch : Arena :=
  [((⟨.productTypeDecl, ({ name := ⟨1⟩, genericParameters := [], members := [] } :
      ProductTypeDecl)⟩ : Node), (⟨0, 10⟩ : Span)),
    (⟨.traitDecl, ({ name := ⟨2⟩, members := [] } : TraitDecl)⟩, ⟨10, 20⟩)].foldl
    (fun a n => (a.insert n.1 n.2).2) ∅

/-- The product type, and a tuple that holds it, itself, and a type that is not there. -/
def sketchPool : TypePool :=
  .ofTypes [.product (.ofIndex .productTypeDecl 0),
    .tuple [⟨some ⟨3⟩, ⟨7⟩⟩, ⟨none, ⟨8⟩⟩, ⟨none, ⟨40⟩⟩]]

def sketchNames : NameTable := .ofTexts ["P", "Q", "x"]

/-- The tuple does not conform to the trait and to the product type, which is taken for one. -/
def sketchError (scope : NodeId) : TypeError where
  kind := .doesNotConform ⟨8⟩
    (((∅ : TraitSet).insert (.ofIndex .traitDecl 1)).insert (.ofIndex .traitDecl 0)) scope
  cause := ⟨.equality ⟨8⟩ ⟨40⟩, some (.of .braceStmt 77), ⟨3, 5⟩⟩

/-- The product type is shown as a scope, but not if it is taken for a function. -/
theorem diagnostic_explains_sketch :
    sketchNames.Covers sketchPool sketch ∧
      (∃ d, (sketchError (.of .productTypeDecl 0)).diagnostic sketchPool sketch sketchNames =
          .ok d ∧
        d.message =
          "type `\x7bx: P, <cycle>, <foreign type>\x7d` does not conform to `<error> & Q`" ∧
        d.primarySpan? = some ⟨3, 5⟩ ∧ ∃ l ∈ d.labels, l.isPrimary = false) ∧
      ∃ d, (sketchError (.of .functionDecl 0)).diagnostic sketchPool sketch sketchNames = .ok d ∧
        ∀ l ∈ d.labels, l.isPrimary = true := by
  have hcovers : sketchNames.Covers sketchPool sketch := ⟨by decide +kernel, by decide +kernel⟩
  obtain ⟨hdiagnostic, -⟩ := diagnostic_explains hcovers
  refine ⟨hcovers, ?_, ?_⟩
  · obtain ⟨d, hd, hexplains⟩ := hdiagnostic (sketchError (.of .productTypeDecl 0))
    have hmessage : ((sketchError (.of .productTypeDecl 0)).diagnostic sketchPool sketch
        sketchNames).map Diagnostic.message = .ok
          "type `\x7bx: P, <cycle>, <foreign type>\x7d` does not conform to `<error> & Q`" := by
      decide +kernel
    rw [hd] at hmessage
    refine ⟨d, hd, Except.ok.inj hmessage, hexplains.primary,
      hexplains.secondary.2 ⟨⟨0, 10⟩, _, _, _, rfl, by decide, rfl, by decide, by decide⟩⟩
  · obtain ⟨d, hd, hexplains⟩ := hdiagnostic (sketchError (.of .functionDecl 0))
    refine ⟨d, hd, fun l hl => ?_⟩
    by_contra hsecondary
    obtain ⟨_, _, _, hkind, hscope, -⟩ :=
      hexplains.shown l hl (Bool.eq_false_of_not_eq_true hsecondary)
    cases hkind
    exact absurd hscope (by decide)

end Sketch

end TypeError

end TypedTree
