import TypedTree.Proofs.Arena.Tree

/-!
# Kinds of children

The kind of a node settles of which classes its children are: `Kind.childClasses` is the table,
and `Node.exists_childClass` says that the children obey it. So the kind of a child leaves few
kinds for its parent. A node that holds an implementation of a subscript is a scope or a
statement that declares it, and such a statement stands in a block.
-/

namespace TypedTree

namespace Kind

/-- The classes of children that a node of each kind holds. -/
def childClasses : Kind → List Class
  | .moduleDecl => [.only .translationUnit]
  | .bindingDecl => [.only .bindingPattern, .category .expr]
  | .functionDecl =>
    [.only .genericParameterDecl, .only .bindingDecl, .only .parameterDecl, .category .expr,
      .only .braceStmt]
  | .subscriptDecl =>
    [.only .genericParameterDecl, .only .bindingDecl, .only .parameterDecl, .only .subscriptImpl]
  | .subscriptImpl => [.category .expr, .only .braceStmt]
  | .productTypeDecl => [.only .genericParameterDecl, .category .decl]
  | .translationUnit | .traitDecl | .declStmt => [.category .decl]
  | .nameExpr | .sequenceExpr | .functionCallExpr | .tupleExpr | .mapLiteralExpr | .exprStmt
  | .returnStmt => [.category .expr]
  | .lambdaExpr => [.only .functionDecl]
  | .bindingPattern | .tuplePattern => [.category .pattern]
  | .namePattern => [.only .varDecl]
  | .braceStmt => [.category .stmt]
  | .importDecl | .varDecl | .parameterDecl | .genericParameterDecl | .synthesizedDecl
  | .integerLiteralExpr | .booleanLiteralExpr | .stringLiteralExpr | .wildcardPattern => []

end Kind

namespace Node

theorem admits_toAny {c : Class} (id : Ident c) : c.admits id.toAny.kind = true := id.admitted

theorem admits_body (b : Body) :
    (Class.category .expr).admits b.node.kind = true ∨
      (Class.only .braceStmt).admits b.node.kind = true := by
  cases b with
  | expr id => exact .inl id.admitted
  | block id => exact .inr id.admitted

theorem admits_operator (id : IdentOf .nameExpr) :
    (Class.category .expr).admits id.toAny.kind = true := by
  rw [Ident.kind_toAny, id.kind_eq]
  rfl

/-- A child is of one of the classes that the kind of its parent asks for. -/
theorem exists_childClass {n : Node} {x : NodeId} (hx : x ∈ n.children) :
    ∃ c ∈ n.kind.childClasses, c.admits x.kind = true := by
  rcases n with ⟨k, f⟩
  cases k
  all_goals simp only [Kind.childClasses, List.mem_cons, List.not_mem_nil, or_false,
    exists_eq_left, exists_eq_or_imp, children, List.mem_append, List.mem_map,
    List.mem_flatMap] at hx ⊢
  case nameExpr =>
    split at hx
    all_goals grind [admits_toAny]
  all_goals grind [admits_toAny, admits_body, admits_operator]

end Node

namespace Arena

variable {a : Arena} {p x : NodeId} {b : IdentOf .subscriptDecl} {i : IdentOf .subscriptImpl}

theorem HasChild.exists_childClass (h : a.HasChild p x) :
    ∃ c ∈ p.kind.childClasses, c.admits x.kind = true := by
  rcases h with ⟨n, -, hkind, hx⟩
  rw [← hkind]
  exact Node.exists_childClass hx

theorem HasChild.kind_of_subscriptImpl (h : a.HasChild p x) (hx : x.kind = .subscriptImpl) :
    (Class.category .scope).admits p.kind = true ∨ p.kind = .declStmt := by
  have hclass := h.exists_childClass
  rw [hx] at hclass
  revert hclass
  cases p.kind <;> decide

theorem HasChild.kind_of_declStmt (h : a.HasChild p x) (hx : x.kind = .declStmt) :
    p.kind = .braceStmt := by
  have hclass := h.exists_childClass
  rw [hx] at hclass
  revert hclass
  cases p.kind <;> decide

/-- Of the children of a subscript only those that it lists as implementations are such. -/
theorem hasChild_subscriptImpl_iff :
    a.HasChild b.toAny i.toAny ↔ ∃ decl : SubscriptDecl, a.get? b = some decl ∧ i ∈ decl.impls := by
  constructor
  · rintro ⟨⟨k, f⟩, hnode, hkind, hi⟩
    obtain rfl : k = .subscriptDecl := hkind.trans b.kind_eq
    refine ⟨f, get?_eq_some_iff.2 hnode, ?_⟩
    have hne {k : Kind} (x : IdentOf k) (hk : k ≠ .subscriptImpl) : x.toAny ≠ i.toAny := by
      intro heq
      have hkinds := congrArg Ident.kind heq
      rw [Ident.kind_toAny, Ident.kind_toAny, x.kind_eq, i.kind_eq] at hkinds
      exact hk hkinds
    simp only [Node.children, List.mem_append, List.mem_map] at hi
    rcases hi with (((⟨x, -, hx⟩ | ⟨x, -, hx⟩) | ⟨x, -, hx⟩) | ⟨x, -, hx⟩) | ⟨x, hmem, hx⟩
    iterate 4 exact absurd hx (hne x (by decide))
    exact Ident.eq_of_toAny_eq hx ▸ hmem
  · rintro ⟨decl, hb, hi⟩
    exact ⟨_, get?_eq_some_iff.1 hb, b.kind_eq.symm,
      List.mem_append_right _ (List.mem_map_of_mem hi)⟩

end Arena

end TypedTree
