import TypedTree.Ident.Basic

/-!
# Folded sequences

A `Folded` is a sequence of infix operators with precedence resolved: a tree whose
leaves are the operands. `operands` lists the leaves from left to right, and
`operators` the operators in the order in which they are applied, both sides first.
`tokens` writes the tree with each operator behind its operands, and `ofTokens?`
reads that form back on a stack (`ofTokens?_tokens`).
-/

namespace TypedTree

/-- Groups of infix operators, the loosest first. -/
inductive Precedence where
  | assignment
  | funnel
  | disjunction
  | conjunction
  | comparison
  | fallback
  | range
  | addition
  | multiplication
  | shift
  | exponentiation
  deriving DecidableEq, Repr

namespace Precedence

def rank : Precedence → Nat
  | .assignment => 0
  | .funnel => 1
  | .disjunction => 2
  | .conjunction => 3
  | .comparison => 4
  | .fallback => 5
  | .range => 6
  | .addition => 7
  | .multiplication => 8
  | .shift => 9
  | .exponentiation => 10

instance : Worded Precedence where
  all := [.assignment, .funnel, .disjunction, .conjunction, .comparison, .fallback, .range,
    .addition, .multiplication, .shift, .exponentiation]
  word
    | .assignment => "Assignment"
    | .funnel => "Funnel"
    | .disjunction => "Disjunction"
    | .conjunction => "Conjunction"
    | .comparison => "Comparison"
    | .fallback => "Fallback"
    | .range => "Range"
    | .addition => "Addition"
    | .multiplication => "Multiplication"
    | .shift => "Shift"
    | .exponentiation => "Exponentiation"
  find?_word a := by cases a <;> decide

def isRightAssociative (p : Precedence) : Bool := p == .assignment || p == .fallback

end Precedence

/-- A sequence expression with operator precedence resolved. -/
inductive Folded where
  | leaf (operand : ExprId)
  | apply (operator : IdentOf .nameExpr) (precedence : Precedence) (lhs rhs : Folded)
  deriving DecidableEq, Repr

/-- A step of a folded sequence in the order of evaluation. -/
inductive FoldedToken where
  | operand (e : ExprId)
  | operator (op : IdentOf .nameExpr) (precedence : Precedence)
  deriving DecidableEq, Repr

namespace Folded

def operands : Folded → List ExprId
  | leaf e => [e]
  | apply _ _ l r => l.operands ++ r.operands

/-- The operators in the order in which their applications are evaluated. -/
def operators : Folded → List (IdentOf .nameExpr)
  | leaf _ => []
  | apply op _ l r => l.operators ++ r.operators ++ [op]

/-- The tree in the order of evaluation: both operands, then the operator. -/
def tokens : Folded → List FoldedToken
  | leaf e => [.operand e]
  | apply op p l r => l.tokens ++ r.tokens ++ [.operator op p]

/-- Reads tokens on a stack of trees, the latest on top. In the end one tree must
be left. -/
def build : List Folded → List FoldedToken → Option Folded
  | [f], [] => some f
  | _, [] => none
  | stack, .operand e :: ts => build (leaf e :: stack) ts
  | r :: l :: stack, .operator op p :: ts => build (apply op p l r :: stack) ts
  | _, .operator _ _ :: _ => none

/-- The tree that tokens write. -/
def ofTokens? (ts : List FoldedToken) : Option Folded := build [] ts

theorem build_tokens (f : Folded) (stack : List Folded) (rest : List FoldedToken) :
    build stack (f.tokens ++ rest) = build (f :: stack) rest := by
  induction f generalizing stack rest with
  | leaf e => simp [tokens, build]
  | apply op p l r ihl ihr =>
      simp only [tokens, List.append_assoc]
      rw [ihl, ihr]
      simp [build]

theorem ofTokens?_tokens (f : Folded) : ofTokens? f.tokens = some f := by
  have h := build_tokens f [] []
  simpa [ofTokens?, build] using h

theorem length_operands (f : Folded) : f.operands.length = f.operators.length + 1 := by
  induction f with
  | leaf e => rfl
  | apply op p l r ihl ihr =>
      simp only [operands, operators, List.length_append, List.length_singleton]
      omega

end Folded

end TypedTree
