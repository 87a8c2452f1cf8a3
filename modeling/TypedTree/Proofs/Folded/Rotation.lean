import Mathlib.Logic.Relation
import TypedTree.Program.Folded

/-!
# Re-association

A rotation turns an application on the left of another one into one that has the other on its
right (`Rotates`), anywhere in a folded sequence, and trees that are rotated into each other, to
either side and any number of times, are re-associations of each other. Nothing is moved by that
in the `inorder` form, where each operator stands between its operands. Each tree can be rotated
until it is nested to the right (`reassociates_rightNested`), so the re-associations of a tree
are all the trees with the same form (`reassociates_iff`). Its operands stay in place and its
operators are permuted (`Reassociates.operands_eq`, `Reassociates.perm_operators`).
-/

namespace TypedTree

open Relation
open scoped List

namespace FoldedToken

def operand? : FoldedToken → Option ExprId
  | .operand e => some e
  | .operator .. => none

def operator? : FoldedToken → Option (IdentOf .nameExpr)
  | .operand _ => none
  | .operator op _ => some op

end FoldedToken

namespace Folded

variable {f g l l' r r' : Folded} {op : IdentOf .nameExpr} {p : Precedence}

/-- A rotation to the right, anywhere in the tree. -/
inductive Rotates : Folded → Folded → Prop
  | root (op op' : IdentOf .nameExpr) (p p' : Precedence) (a b c : Folded) :
      Rotates (apply op p (apply op' p' a b) c) (apply op' p' a (apply op p b c))
  | left {op : IdentOf .nameExpr} {p : Precedence} {l l' r : Folded} (h : Rotates l l') :
      Rotates (apply op p l r) (apply op p l' r)
  | right {op : IdentOf .nameExpr} {p : Precedence} {l r r' : Folded} (h : Rotates r r') :
      Rotates (apply op p l r) (apply op p l r')

/-- Any number of rotations, each of them to the right or to the left. -/
def Reassociates : Folded → Folded → Prop := EqvGen Rotates

/-- The tree with each operator between its operands. -/
def inorder : Folded → List FoldedToken
  | leaf e => [.operand e]
  | apply op p l r => l.inorder ++ .operator op p :: r.inorder

theorem filterMap_operand?_inorder (f : Folded) :
    f.inorder.filterMap FoldedToken.operand? = f.operands := by
  induction f with
  | leaf e => rfl
  | apply op p l r ihl ihr =>
      rw [inorder, List.filterMap_append, List.filterMap_cons_none rfl, ihl, ihr, operands]

/-- The operators are those between the operands, in another order. -/
theorem perm_filterMap_operator?_inorder (f : Folded) :
    f.inorder.filterMap FoldedToken.operator? ~ f.operators := by
  induction f with
  | leaf e => exact .refl _
  | apply op p l r ihl ihr =>
      have hop : (FoldedToken.operator op p).operator? = some op := rfl
      rw [inorder, List.filterMap_append, List.filterMap_cons_some hop, operators,
        List.append_assoc]
      exact ihl.append ((ihr.cons op).trans (List.perm_append_singleton op r.operators).symm)

section Rotations

theorem Rotates.inorder_eq (h : Rotates f g) : f.inorder = g.inorder := by
  induction h with
  | root => simp [inorder]
  | left _ ih => rw [inorder, inorder, ih]
  | right _ ih => rw [inorder, inorder, ih]

theorem Reassociates.inorder_eq (h : f.Reassociates g) : f.inorder = g.inorder := by
  induction h with
  | rel f g h => exact h.inorder_eq
  | refl f => rfl
  | symm f g _ ih => exact ih.symm
  | trans f g k _ _ ihfg ihgk => exact ihfg.trans ihgk

theorem Reassociates.operands_eq (h : f.Reassociates g) : f.operands = g.operands := by
  rw [← filterMap_operand?_inorder, h.inorder_eq, filterMap_operand?_inorder]

theorem Reassociates.perm_operators (h : f.Reassociates g) : f.operators ~ g.operators :=
  (perm_filterMap_operator?_inorder f).symm.trans
    (h.inorder_eq ▸ perm_filterMap_operator?_inorder g)

theorem Reassociates.trans {k : Folded} (hfg : f.Reassociates g) (hgk : g.Reassociates k) :
    f.Reassociates k :=
  EqvGen.trans _ _ _ hfg hgk

theorem Reassociates.right (h : r.Reassociates r') :
    (apply op p l r).Reassociates (apply op p l r') := by
  induction h with
  | rel r r' h => exact .rel _ _ (.right h)
  | refl r => exact .refl _
  | symm r r' _ ih => exact .symm _ _ ih
  | trans r r' r'' _ _ ih ih' => exact ih.trans ih'

end Rotations

section Nesting

/-- The operands of `f` one after the other, and in the end `g` behind another operator. -/
def graft : Folded → IdentOf .nameExpr → Precedence → Folded → Folded
  | leaf e, op, p, g => apply op p (leaf e) g
  | apply op' p' l r, op, p, g => l.graft op' p' (r.graft op p g)

/-- The tree with every application on the right of the one before it. -/
def rightNested : Folded → Folded
  | leaf e => leaf e
  | apply op p l r => l.graft op p r.rightNested

/-- Reads an in-order form, nested to the right. -/
def ofInorder? : List FoldedToken → Option Folded
  | [.operand e] => some (leaf e)
  | .operand e :: .operator op p :: ts => (ofInorder? ts).map (apply op p (leaf e))
  | _ => none

theorem reassociates_graft (l : Folded) (op : IdentOf .nameExpr) (p : Precedence) (r : Folded) :
    (apply op p l r).Reassociates (l.graft op p r) := by
  induction l generalizing op p r with
  | leaf e => exact .refl _
  | apply op' p' a b iha ihb =>
      have hturn : (apply op p (apply op' p' a b) r).Reassociates
          (apply op' p' a (apply op p b r)) :=
        .rel _ _ (.root ..)
      exact (hturn.trans (ihb op p r).right).trans (iha op' p' _)

theorem reassociates_rightNested (f : Folded) : f.Reassociates f.rightNested := by
  induction f with
  | leaf e => exact .refl _
  | apply op p l r ihl ihr => exact ihr.right.trans (reassociates_graft l op p _)

theorem ofInorder?_inorder_append (f : Folded) (ts : List FoldedToken) :
    ofInorder? (f.inorder ++ .operator op p :: ts) = (ofInorder? ts).map (f.graft op p) := by
  induction f generalizing op p ts with
  | leaf e => rfl
  | apply op' p' l r ihl ihr =>
      rw [inorder, List.append_assoc, List.cons_append, ihl, ihr, Option.map_map]
      rfl

theorem ofInorder?_inorder (f : Folded) : ofInorder? f.inorder = some f.rightNested := by
  induction f with
  | leaf e => rfl
  | apply op p l r ihl ihr =>
      rw [inorder, ofInorder?_inorder_append, ihr]
      rfl

/-- The trees with the same in-order form are the re-associations of each other. -/
theorem reassociates_iff : f.Reassociates g ↔ f.inorder = g.inorder := by
  refine ⟨Reassociates.inorder_eq, fun h => ?_⟩
  have hnested : f.rightNested = g.rightNested := by
    rw [← Option.some.injEq, ← ofInorder?_inorder, ← ofInorder?_inorder, h]
  have hg := reassociates_rightNested g
  exact (reassociates_rightNested f).trans (hnested ▸ EqvGen.symm _ _ hg)

end Nesting

end Folded

end TypedTree
