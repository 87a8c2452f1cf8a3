import Mathlib.Logic.Relation

/-!
# Forests and nearest ancestors

A relation of parents to children is a `Forest` if no child has two parents and no item
is below itself. `Nearest R P q c` says that `q` is the nearest of the items above `c`
that have the property `P`: it comes below every other one. It is unique, and it is found
by looking at the parent first and going on from there.
-/

namespace TypedTree

open Relation

variable {α : Type} {R : α → α → Prop} {P : α → Prop} {c p q r x y z : α}

/-- No child has two parents, and nothing is below itself. -/
structure Forest (R : α → α → Prop) : Prop where
  unique : ∀ {x x' y}, R x y → R x' y → x = x'
  acyclic : ∀ x, ¬ TransGen R x x

/-- `q` is above `c` and has `P`, and whatever else is above `c` and has `P` is above
`q`. -/
structure Nearest (R : α → α → Prop) (P : α → Prop) (q c : α) : Prop where
  above : TransGen R q c
  holds : P q
  least : ∀ r, TransGen R r c → P r → r = q ∨ TransGen R r q

theorem Forest.total (h : Forest R) (hx : ReflTransGen R x z) (hy : ReflTransGen R y z) :
    ReflTransGen R x y ∨ ReflTransGen R y x := by
  have hright : Relator.RightUnique (Function.swap R) := fun _ _ _ h₁ h₂ => h.unique h₁ h₂
  rcases ReflTransGen.total_of_right_unique hright (reflTransGen_swap.2 hx)
    (reflTransGen_swap.2 hy) with hyx | hxy
  · exact .inr (reflTransGen_swap.1 hyx)
  · exact .inl (reflTransGen_swap.1 hxy)

/-- Of the items above a child, its parent is the lowest. -/
theorem Forest.above_iff (h : Forest R) (hp : R p c) :
    TransGen R q c ↔ q = p ∨ TransGen R q p := by
  rw [TransGen.tail'_iff]
  constructor
  · rintro ⟨b, hqb, hbc⟩
    rw [h.unique hbc hp] at hqb
    rcases reflTransGen_iff_eq_or_transGen.1 hqb with heq | hqp
    · exact .inl heq.symm
    · exact .inr hqp
  · rintro (rfl | hqp)
    · exact ⟨q, .refl, hp⟩
    · exact ⟨p, hqp.to_reflTransGen, hp⟩

theorem Forest.disjoint_of_ne (h : Forest R) (hx : R p x) (hy : R p y) (hne : x ≠ y)
    (hxz : ReflTransGen R x z) (hyz : ReflTransGen R y z) : False := by
  have hnot {x y : α} (hx : R p x) (hy : R p y) (hne : x ≠ y) : ¬ ReflTransGen R x y := by
    intro hxy
    rcases reflTransGen_iff_eq_or_transGen.1 hxy with heq | habove
    · exact hne heq.symm
    · rcases (h.above_iff hy).1 habove with rfl | hxp
      · exact h.acyclic x (.single hx)
      · exact h.acyclic x (hxp.tail hx)
  rcases h.total hxz hyz with hxy | hyx
  · exact hnot hx hy hne hxy
  · exact hnot hy hx hne.symm hyx

theorem Nearest.unique (h : ∀ x, ¬ TransGen R x x) (hq : Nearest R P q c)
    (hr : Nearest R P r c) : q = r := by
  rcases hr.least q hq.above hq.holds with heq | hqr
  · exact heq
  · rcases hq.least r hr.above hr.holds with heq | hrq
    · exact heq.symm
    · exact absurd (hqr.trans hrq) (h q)

theorem Forest.nearest_parent (h : Forest R) (hp : R p c) (hP : P p) : Nearest R P p c where
  above := .single hp
  holds := hP
  least := fun _ hr _ => (h.above_iff hp).1 hr

/-- Below a parent without the property, the nearest item is that of the parent. -/
theorem Forest.nearest_iff (h : Forest R) (hp : R p c) (hP : ¬ P p) :
    Nearest R P q c ↔ Nearest R P q p := by
  constructor
  · rintro ⟨habove, hq, hleast⟩
    rcases (h.above_iff hp).1 habove with rfl | hqp
    · exact absurd hq hP
    · exact ⟨hqp, hq, fun r hr hPr => hleast r (hr.tail hp) hPr⟩
  · rintro ⟨habove, hq, hleast⟩
    refine ⟨habove.tail hp, hq, fun r hr hPr => ?_⟩
    rcases (h.above_iff hp).1 hr with rfl | hrp
    · exact absurd hPr hP
    · exact hleast r hrp hPr

end TypedTree
