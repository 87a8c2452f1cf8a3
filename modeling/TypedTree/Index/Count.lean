/-!
# Counting what is left

A walk that never meets a position twice ends, because each step leaves fewer
members of a fixed list unmet. `countP_lt_countP` is that step: a weaker test
that also fails at some member counts fewer members.
-/

namespace TypedTree

/-- A test that implies `p`, and that fails at a member where `p` holds, counts
fewer members than `p`. -/
theorem countP_lt_countP {α : Type} {p q : α → Bool} {l : List α} {a : α}
    (hpq : ∀ x, q x = true → p x = true) (ha : a ∈ l) (hp : p a = true)
    (hq : q a = false) : l.countP q < l.countP p := by
  induction l with
  | nil => simp at ha
  | cons b l ih =>
      have hle : l.countP q ≤ l.countP p := List.countP_mono_left fun x _ => hpq x
      rcases List.mem_cons.1 ha with rfl | ha
      · simp only [List.countP_cons, hp, hq, if_true, Bool.false_eq_true, if_false]
        omega
      · have hlt := ih ha
        simp only [List.countP_cons]
        by_cases hb : q b = true
        · simp only [hb, hpq b hb, if_true]
          omega
        · simp only [hb, Bool.false_eq_true, if_false]
          omega

end TypedTree
