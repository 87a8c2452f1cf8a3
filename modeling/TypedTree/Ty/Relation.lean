import TypedTree.Ty.Basic

/-!
# Type relations

A program does not decide by itself which types are subtypes of which; it asks
`Relations`. `RelationTable` answers from recorded facts. Facts are kept under the
types they were recorded of and looked up under canonical ones, which
`RelationTable.canonical` finds by following aliases.
-/

namespace TypedTree

/-- Answers to questions about types. -/
structure Relations where
  isSubtype : TypeId → TypeId → Bool
  /-- Whether the type conforms to the trait by a conformance declared exactly in
  the scope. -/
  conforms : TypeId → IdentOf .traitDecl → ScopeId → Bool
  canonical : TypeId → TypeId

structure Conformance where
  ty : TypeId
  trait : IdentOf .traitDecl
  scope : ScopeId
  deriving DecidableEq, Repr

/-- Recorded facts about types. -/
structure RelationTable where
  /-- The pairs of a subtype and a supertype. -/
  subtypes : List (TypeId × TypeId) := []
  conformances : List Conformance := []
  aliases : Table TypeId TypeId := ∅

namespace RelationTable

instance : EmptyCollection RelationTable := ⟨{}⟩

instance : Inhabited RelationTable := ⟨∅⟩

def addSubtype (r : RelationTable) (lhs rhs : TypeId) : RelationTable :=
  { r with subtypes := (lhs, rhs) :: r.subtypes }

def addConformance (r : RelationTable) (ty : TypeId) (trait : IdentOf .traitDecl)
    (scope : ScopeId) : RelationTable :=
  { r with conformances := ⟨ty, trait, scope⟩ :: r.conformances }

/-- Records that `ty` stands for `target`, and for nothing else. -/
def addAlias (r : RelationTable) (ty target : TypeId) : RelationTable :=
  { r with aliases := r.aliases.insert ty target }

/-- The type reached from `t` by at most `steps` aliases. -/
def follow (r : RelationTable) : Nat → TypeId → TypeId
  | 0, t => t
  | steps + 1, t =>
    match r.aliases.get? t with
    | some target => r.follow steps target
    | none => t

/-- The type reached by following aliases as long as there are any. One step more
than there are aliases ends every chain that is no cycle; on a cycle it decides where
the answer lies. -/
def canonical (r : RelationTable) (t : TypeId) : TypeId := r.follow (r.aliases.size + 1) t

/-- Whether a subtype relation holds between the canonical types: they are equal, or
the first is the bottom type, or the pair is recorded. -/
def isSubtype (r : RelationTable) (lhs rhs : TypeId) : Bool :=
  let (l, r') := (r.canonical lhs, r.canonical rhs)
  l == r' || l == .never || r.subtypes.contains (l, r')

/-- Whether the canonical type is recorded to conform to `trait` in `scope`. -/
def conforms (r : RelationTable) (ty : TypeId) (trait : IdentOf .traitDecl)
    (scope : ScopeId) : Bool :=
  let t := r.canonical ty
  r.conformances.any fun f => f.ty == t && f.trait == trait && f.scope.same scope

def relations (r : RelationTable) : Relations := ⟨r.isSubtype, r.conforms, r.canonical⟩

theorem follow_of_none {r : RelationTable} {t : TypeId} (h : r.aliases.get? t = none)
    (steps : Nat) : r.follow steps t = t := by
  cases steps <;> simp [follow, h]

theorem follow_of_some {r : RelationTable} {t u : TypeId} (h : r.aliases.get? t = some u)
    (steps : Nat) : r.follow (steps + 1) t = r.follow steps u := by
  simp [follow, h]

end RelationTable

end TypedTree
