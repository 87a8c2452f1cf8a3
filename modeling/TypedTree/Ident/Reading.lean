import TypedTree.Ident.Basic

/-!
# Reading identities

`NodeId.ofText?` reads what `Ident.text` writes: the word of a kind, the sign
`#` and a position. The position is a decimal number of 32 bits and may carry
a plus sign, so it reads a little more than is written, and `ofText?_text`
says that it reads everything that is written.
-/

namespace TypedTree

/-- The positions that have a text are those of 32 bits. -/
def positionBound : Nat := UInt32.size

/-- The position that a text of digits means; a plus sign may stand before them. -/
def positionOfText? (text : List Char) : Option Nat :=
  let digits := match text with
    | '+' :: digits => digits
    | digits => digits
  let n := Nat.ofDigitChars 10 digits 0
  if digits ≠ [] ∧ digits.all Char.isDigit ∧ n < positionBound then some n else none

def NodeId.ofText? (text : String) : Option NodeId :=
  match text.toList.dropWhile (· ≠ '#') with
  | _ :: digits => do
    let kind ← Worded.ofWord? (String.ofList (text.toList.takeWhile (· ≠ '#')))
    return .of kind (← positionOfText? digits)
  | [] => none

theorem positionOfText?_toDigits {n : Nat} (h : n < positionBound) :
    positionOfText? (Nat.toDigits 10 n) = some n := by
  have hdigit : ∀ c ∈ Nat.toDigits 10 n, c.isDigit = true :=
    fun c hc => Nat.isDigit_of_mem_toDigits (by decide) (by decide) hc
  have hsign : ∀ digits, Nat.toDigits 10 n ≠ '+' :: digits := by
    intro digits heq
    have := hdigit '+' (by simp [heq])
    exact absurd this (by decide)
  have hvalue : Nat.ofDigitChars 10 (Nat.toDigits 10 n) 0 = n :=
    Nat.ofDigitChars_toDigits (by decide) (by decide)
  have hnil : Nat.toDigits 10 n ≠ [] := Nat.toDigits_ne_nil
  unfold positionOfText?
  split
  · next digits heq => exact absurd heq (hsign digits)
  · simp [hnil, hvalue, h, List.all_eq_true.mpr hdigit]

theorem Kind.ne_of_mem_name (k : Kind) : ∀ c ∈ k.name.toList, c ≠ '#' := by
  have h : (k.name.toList.all fun c => c != '#') = true := by cases k <;> decide
  exact fun c hc => bne_iff_ne.1 (List.all_eq_true.1 h c hc)

/-- Every identity whose position has a text is read back from its text. -/
theorem NodeId.ofText?_text {c : Class} (id : Ident c) (h : id.index < positionBound) :
    NodeId.ofText? id.text = some id.toAny := by
  have htext : id.text.toList = id.kind.name.toList ++ '#' :: Nat.toDigits 10 id.index := by
    simp [Ident.text, toString]
  have hword := id.kind.ne_of_mem_name
  have hkind : Worded.ofWord? id.kind.name = some id.kind := Worded.ofWord?_word id.kind
  unfold NodeId.ofText?
  rw [htext, List.dropWhile_append_of_pos (by simpa using hword),
    List.takeWhile_append_of_pos (by simpa using hword)]
  simp [positionOfText?_toDigits h, hkind, Ident.toAny, NodeId.of]

end TypedTree
