import TypedTree.Proofs.Folded.Place
import TypedTree.Proofs.Folded.Rotation

/-!
# Evaluation of folded sequences

A `Meaning` says what operands and applications stand for. From it a folded sequence has a value,
and a stack machine can read tokens: an operand is pushed, and an operator takes two values off
the stack and pushes one. In the postfix form `Folded.tokens` the tokens of a part are one piece
that ends at the place of the part (`exists_tokens_eq`), and the machine reads such a piece by
pushing the value of the part (`Meaning.run_tokens`). So at each application it finds the values
of both sides on top of the stack (`Meaning.exists_run_take`).
-/

namespace TypedTree

open scoped List

namespace Folded

variable {α : Type} {f g l r : Folded} {op : IdentOf .nameExpr} {p : Precedence} {a : Place}
  {i : Nat} {stack : List α}

/-- What operands stand for, and what an operator makes of two values. -/
structure Meaning (α : Type) where
  operand : ExprId → α
  apply : IdentOf .nameExpr → Precedence → α → α → α

namespace Meaning

def value (m : Meaning α) : Folded → α
  | .leaf e => m.operand e
  | .apply op p l r => m.apply op p (m.value l) (m.value r)

/-- Reads one token on a stack, the latest value on top. An operator fails where two values are
not there yet. -/
def step (m : Meaning α) : List α → FoldedToken → Option (List α)
  | stack, .operand e => some (m.operand e :: stack)
  | y :: x :: stack, .operator op p => some (m.apply op p x y :: stack)
  | _, .operator _ _ => none

def run (m : Meaning α) (stack : List α) (ts : List FoldedToken) : Option (List α) :=
  ts.foldlM m.step stack

theorem run_append (m : Meaning α) (ts us : List FoldedToken) :
    m.run stack (ts ++ us) = (m.run stack ts).bind fun stack => m.run stack us :=
  List.foldlM_append

/-- The postfix form of a tree pushes its value. -/
theorem run_tokens (m : Meaning α) (f : Folded) (stack : List α) :
    m.run stack f.tokens = some (m.value f :: stack) := by
  induction f generalizing stack with
  | leaf e => rfl
  | apply op p l r ihl ihr =>
      rw [tokens, run_append, run_append, ihl, Option.bind_some, ihr, Option.bind_some]
      rfl

def trees : Meaning Folded := ⟨.leaf, .apply⟩

/-- Reading a tree from tokens is a run on trees that leaves one of them. -/
theorem build_eq_run (stack : List Folded) (ts : List FoldedToken) :
    build stack ts = (trees.run stack ts).bind fun | [f] => some f | _ => none := by
  fun_induction build stack ts with
  | case1 f => rfl
  | case2 stack hstack =>
      rcases stack with _ | ⟨f, _ | ⟨g, stack⟩⟩
      · rfl
      · exact absurd rfl (hstack f)
      · rfl
  | case3 stack e ts ih => exact ih
  | case4 r l stack op p ts ih => exact ih
  | case5 stack op p ts hstack =>
      rcases stack with _ | ⟨r, _ | ⟨l, stack⟩⟩
      · rfl
      · rfl
      · exact absurd rfl (hstack r l stack)

end Meaning

section Pieces

theorem length_places (f : Folded) : f.places.length = f.tokens.length := by
  induction f with
  | leaf e => rfl
  | apply op p l r ihl ihr => simp [places, tokens, ihl, ihr]

/-- A place comes from the left, from the right, or is the root. -/
theorem getElem?_places_apply (ha : (apply op p l r).places[i]? = some a) :
    (∃ b, a = .left :: b ∧ l.places[i]? = some b) ∨
      (∃ j b, i = l.places.length + j ∧ a = .right :: b ∧ r.places[j]? = some b) ∨
      i = l.places.length + r.places.length ∧ a = [] := by
  rw [places, List.append_assoc] at ha
  rcases Nat.lt_or_ge i l.places.length with hi | hi
  · rw [List.getElem?_append_left (by rwa [List.length_map]), List.getElem?_map] at ha
    obtain ⟨b, hb, rfl⟩ := Option.map_eq_some_iff.1 ha
    exact .inl ⟨b, rfl, hb⟩
  · obtain ⟨j, rfl⟩ := Nat.exists_eq_add_of_le hi
    rw [List.getElem?_append_right (by simp), List.length_map, Nat.add_sub_cancel_left] at ha
    rcases Nat.lt_or_ge j r.places.length with hj | hj
    · rw [List.getElem?_append_left (by rwa [List.length_map]), List.getElem?_map] at ha
      obtain ⟨b, hb, rfl⟩ := Option.map_eq_some_iff.1 ha
      exact .inr (.inl ⟨j, b, rfl, rfl, hb⟩)
    · rw [List.getElem?_append_right (by rwa [List.length_map]), List.length_map,
        List.getElem?_singleton] at ha
      obtain ⟨hzero, ⟨⟩⟩ := Option.ite_none_right_eq_some.1 ha
      exact .inr (.inr ⟨by omega, rfl⟩)

/-- The tokens of a part are one piece, and the last of them stands where its place does. -/
theorem exists_tokens_eq (ha : f.places[i]? = some a) (hg : f.at? a = some g) :
    ∃ before after, f.tokens = before ++ g.tokens ++ after ∧
      before.length + g.tokens.length = i + 1 := by
  induction f generalizing i a with
  | leaf e =>
      rw [places, List.getElem?_singleton] at ha
      obtain ⟨rfl, ⟨⟩⟩ := Option.ite_none_right_eq_some.1 ha
      cases hg
      exact ⟨[], [], rfl, rfl⟩
  | apply op p l r ihl ihr =>
      rcases getElem?_places_apply ha with ⟨b, rfl, hb⟩ | ⟨j, b, rfl, rfl, hb⟩ | ⟨rfl, rfl⟩
      · obtain ⟨before, after, htokens, hlength⟩ := ihl hb hg
        refine ⟨before, after ++ r.tokens ++ [.operator op p], ?_, hlength⟩
        simp [tokens, htokens]
      · obtain ⟨before, after, htokens, hlength⟩ := ihr hb hg
        refine ⟨l.tokens ++ before, after ++ [.operator op p], ?_, ?_⟩
        · simp [tokens, htokens]
        · rw [List.length_append, length_places]
          omega
      · cases hg
        exact ⟨[], [], by simp, by simp [tokens, length_places, Nat.add_assoc]⟩

theorem filterMap_operand?_tokens (f : Folded) :
    f.tokens.filterMap FoldedToken.operand? = f.operands := by
  induction f with
  | leaf e => rfl
  | apply op p l r ihl ihr =>
      rw [tokens, List.filterMap_append, List.filterMap_append, ihl, ihr]
      exact List.append_nil _

theorem filterMap_operator?_tokens (f : Folded) :
    f.tokens.filterMap FoldedToken.operator? = f.operators := by
  induction f with
  | leaf e => rfl
  | apply op p l r ihl ihr =>
      rw [tokens, List.filterMap_append, List.filterMap_append, ihl, ihr]
      rfl

end Pieces

/-- Before it comes to an application, the machine has read the tokens of both sides, and has
their values on top of the stack. -/
theorem Meaning.exists_run_take (m : Meaning α) (ha : f.places[i]? = some a)
    (happly : f.at? a = some (.apply op p l r)) :
    ∃ below, m.run [] (f.tokens.take i) = some (m.value r :: m.value l :: below) := by
  obtain ⟨before, after, htokens, hlength⟩ := exists_tokens_eq ha happly
  rw [tokens, List.length_append, List.length_singleton] at hlength
  have htake : f.tokens.take i = before ++ (l.tokens ++ r.tokens) := by
    have hpiece : f.tokens = before ++ (l.tokens ++ r.tokens) ++ (.operator op p :: after) := by
      simp [htokens, tokens]
    rw [hpiece]
    exact List.take_left' (by rw [List.length_append]; omega)
  -- the run does not fail before the piece, since it does not fail at all
  obtain ⟨below, hbelow⟩ : ∃ below, m.run [] before = some below := by
    have hrun := m.run_tokens f []
    rw [htokens, List.append_assoc, run_append] at hrun
    obtain ⟨below, hbelow, -⟩ := Option.bind_eq_some_iff.1 hrun
    exact ⟨below, hbelow⟩
  exact ⟨below, by rw [htake, run_append, hbelow, Option.bind_some, run_append, run_tokens,
    Option.bind_some, run_tokens]⟩

/-- What the listings of a folded sequence say of its evaluation. -/
structure EvaluatesInOrder (f : Folded) : Prop where
  length_operands : f.operands.length = f.operators.length + 1
  /-- The operands come from left to right. -/
  operands : f.InPostorder operand? (f.placesOf operand?) f.operands
  inorder : f.inorder.filterMap FoldedToken.operand? = f.operands
  /-- The operators come behind those on both of their sides, those on the left first. -/
  operators : f.InPostorder operator? (f.placesOf operator?) f.operators
  /-- Rotations lead to the trees with the same in-order form. They leave the operands in place
  and permute the operators. -/
  reassociates : ∀ g, (f.Reassociates g ↔ f.inorder = g.inorder) ∧
    (f.Reassociates g → f.operands = g.operands ∧ f.operators ~ g.operators)
  /-- The postfix form has the operands and the operators in their order. -/
  tokens : f.InPostorder token? f.places f.tokens ∧
    f.tokens.filterMap FoldedToken.operand? = f.operands ∧
    f.tokens.filterMap FoldedToken.operator? = f.operators
  /-- A machine that reads the postfix form has the values of both sides at each application,
  and in the end the value of the whole. -/
  run : ∀ {α : Type} (m : Meaning α), m.run [] f.tokens = some [m.value f] ∧
    ∀ i a op p l r, f.places[i]? = some a → f.at? a = some (apply op p l r) →
      ∃ below, m.run [] (f.tokens.take i) = some (m.value r :: m.value l :: below)

/-- Whatever its shape, a folded sequence is evaluated from left to right and from below: each
application comes when the values of both its sides are there. -/
theorem evaluatesInOrder (f : Folded) : f.EvaluatesInOrder where
  length_operands := length_operands f
  operands := inPostorder_operands f
  inorder := filterMap_operand?_inorder f
  operators := inPostorder_operators f
  reassociates _ := ⟨reassociates_iff, fun h => ⟨h.operands_eq, h.perm_operators⟩⟩
  tokens := ⟨inPostorder_tokens f, filterMap_operand?_tokens f, filterMap_operator?_tokens f⟩
  run m := ⟨m.run_tokens f [], fun _ _ _ _ _ _ ha happly => m.exists_run_take ha happly⟩

/-- The product of two sums that apply the same operator. -/
def twoSums : Folded :=
  let name (i : Nat) : Folded := .leaf (IdentOf.ofIndex .nameExpr i).widen
  .apply (.ofIndex .nameExpr 5) .multiplication
    (.apply (.ofIndex .nameExpr 4) .addition (name 0) (name 1))
    (.apply (.ofIndex .nameExpr 4) .addition (name 2) (name 3))

def turnedSums : Folded :=
  let name (i : Nat) : Folded := .leaf (IdentOf.ofIndex .nameExpr i).widen
  .apply (.ofIndex .nameExpr 4) .addition (name 0)
    (.apply (.ofIndex .nameExpr 5) .multiplication (name 1)
      (.apply (.ofIndex .nameExpr 4) .addition (name 2) (name 3)))

/-- A rotation puts the product between the two sums. -/
theorem evaluatesInOrder_twoSums :
    twoSums.placesOf operator? = [[.left], [.right], []] ∧
      twoSums.operators = [.ofIndex .nameExpr 4, .ofIndex .nameExpr 4, .ofIndex .nameExpr 5] ∧
      turnedSums.operators = [.ofIndex .nameExpr 4, .ofIndex .nameExpr 5, .ofIndex .nameExpr 4] ∧
      twoSums.Reassociates turnedSums ∧ twoSums.operands = turnedSums.operands ∧
      twoSums.operators ~ turnedSums.operators := by
  have hturn : twoSums.Reassociates turnedSums := .rel _ _ (.root ..)
  have hsame := ((evaluatesInOrder twoSums).reassociates turnedSums).2 hturn
  exact ⟨rfl, rfl, rfl, hturn, hsame⟩

end Folded

end TypedTree
