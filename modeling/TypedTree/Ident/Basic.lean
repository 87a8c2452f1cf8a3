import TypedTree.Ident.Kind
import TypedTree.Index.Table

/-!
# Identities of nodes

An identity is a position in an arena together with the kind claimed for the
node there. `Ident c` is an identity whose claimed kind the class `c` admits.
Only the position tells two identities apart: order, sets and tables read
`Ident.index` alone (`Ident.same`, `Ident.order`). `Ident.narrow?` moves to
another class by the claimed kind, `Ident.widen` to a class that asks for less,
and neither touches kind or position.
-/

namespace TypedTree

/-- A position in an arena, with a claimed kind that `c` admits. -/
structure Ident (c : Class) where
  kind : Kind
  /-- The position of the node in its arena. -/
  index : Nat
  /-- The claimed kind is one that the class admits. -/
  admitted : c.admits kind = true
  deriving DecidableEq, Repr

/-- An identity that promises nothing about the kind. -/
abbrev NodeId := Ident .any

abbrev DeclId := Ident (.category .decl)

abbrev ExprId := Ident (.category .expr)

abbrev PatternId := Ident (.category .pattern)

abbrev StmtId := Ident (.category .stmt)

abbrev ScopeId := Ident (.category .scope)

abbrev IdentOf (k : Kind) := Ident (.only k)

/-- The identity that claims kind `k` at `index`. -/
def NodeId.of (k : Kind) (index : Nat) : NodeId := ⟨k, index, rfl⟩

def IdentOf.ofIndex (k : Kind) (index : Nat) : IdentOf k := ⟨k, index, by simp [Class.admits]⟩

namespace Ident

variable {c d : Class}

instance : Indexed (Ident c) := ⟨Ident.index⟩

/-- The identity without its promise. -/
def toAny (id : Ident c) : NodeId := ⟨id.kind, id.index, rfl⟩

/-- The same identity under the promise of `d`, if its claimed kind keeps it. -/
def narrow? (id : Ident c) (d : Class) : Option (Ident d) :=
  if h : d.admits id.kind = true then some ⟨id.kind, id.index, h⟩ else none

/-- The same identity under a promise that follows from the one it has. -/
def widen (id : Ident c) [h : c.Within d] : Ident d :=
  ⟨id.kind, id.index, h.admits id.admitted⟩

/-- Whether two identities mean the same node: their positions agree. -/
def same (a : Ident c) (b : Ident d) : Bool := a.index == b.index

def order (a : Ident c) (b : Ident d) : Ordering := compare a.index b.index

def text (id : Ident c) : String := s!"{id.kind.name}#{id.index}"

theorem narrow?_eq_some_iff {id : Ident c} {e : Ident d} :
    id.narrow? d = some e ↔ e.kind = id.kind ∧ e.index = id.index := by
  obtain ⟨k, i, he⟩ := e
  unfold narrow?
  split <;> grind

theorem isSome_narrow? (id : Ident c) (d : Class) :
    (id.narrow? d).isSome = d.admits id.kind := by
  unfold narrow?
  split <;> simp_all

@[simp] theorem kind_widen (id : Ident c) [c.Within d] :
    (id.widen : Ident d).kind = id.kind := rfl

@[simp] theorem index_widen (id : Ident c) [c.Within d] :
    (id.widen : Ident d).index = id.index := rfl

@[simp] theorem kind_toAny (id : Ident c) : id.toAny.kind = id.kind := rfl

@[simp] theorem index_toAny (id : Ident c) : id.toAny.index = id.index := rfl

@[simp] theorem index_eq (id : Ident c) : Indexed.index id = id.index := rfl

end Ident

@[simp] theorem IdentOf.kind_eq {k : Kind} (id : IdentOf k) : id.kind = k := by
  have h := id.admitted
  simpa [Class.admits] using h

end TypedTree
