import TypedTree.Proofs.Index.Members
import TypedTree.Ty.Constraint

/-!
# Reading generic environments

A constraint equates two types whichever of them it names first (`GenericConstraint.Equates`).
The types that an environment gives as equal to `t` are counted by the constraints that equate
them with `t` (`count_equivalencesOf`), also where a constraint equates `t` with itself, so the
answers for two types hold each other equally often. The traits that it gives for a type are
those of the constraints on that type (`mem_conformancesOf_iff`), which leaves no room for the
order of the constraints.
-/

namespace TypedTree

namespace GenericConstraint

variable {c : GenericConstraint} {t u : TypeId} {d : IdentOf .traitDecl}

def Equates (t u : TypeId) : GenericConstraint → Prop
  | .equality lhs rhs => lhs = t ∧ rhs = u ∨ lhs = u ∧ rhs = t
  | .conformance _ _ => False

instance (t u : TypeId) : DecidablePred (Equates t u)
  | .equality lhs rhs => inferInstanceAs (Decidable (lhs = t ∧ rhs = u ∨ lhs = u ∧ rhs = t))
  | .conformance _ _ => inferInstanceAs (Decidable False)

theorem equates_comm : c.Equates t u ↔ c.Equates u t := by
  cases c with
  | conformance subject traits => exact Iff.rfl
  | equality lhs rhs => exact or_comm

/-- The first side that is `t` decides which side is given, yet no type is lost by that: a
constraint that names `t` on both sides equates it with no other. -/
theorem equivalentOf?_eq_some_iff : c.equivalentOf? t = some u ↔ c.Equates t u := by
  cases c with
  | conformance subject traits => exact iff_of_false (Option.some_ne_none u).symm id
  | equality lhs rhs =>
      rw [equivalentOf?, Equates]
      split
      · next hlhs =>
          rw [Option.some.injEq]
          constructor
          · exact fun hrhs => .inl ⟨hlhs, hrhs⟩
          · rintro (⟨-, hrhs⟩ | ⟨hlhs', hrhs⟩)
            · exact hrhs
            · rw [hrhs, ← hlhs, hlhs']
      · next hlhs =>
          split
          · next hrhs =>
              rw [Option.some.injEq]
              constructor
              · exact fun h => .inr ⟨h, hrhs⟩
              · rintro (⟨hlhs', -⟩ | ⟨h, -⟩)
                · exact absurd hlhs' hlhs
                · exact h
          · next hrhs =>
              refine iff_of_false (Option.some_ne_none u).symm ?_
              rintro (⟨hlhs', -⟩ | ⟨-, hrhs'⟩)
              · exact hlhs hlhs'
              · exact hrhs hrhs'

theorem mem_conformanceOf_iff :
    d ∈ (c.conformanceOf t).toList ↔ ∃ traits, c = .conformance t traits ∧ d ∈ traits.toList := by
  cases c with
  | equality lhs rhs =>
      exact iff_of_false IndexSet.not_mem_empty fun ⟨_, heq, _⟩ => nomatch heq
  | conformance subject traits =>
      rw [conformanceOf]
      split
      · next hsubject =>
          subst hsubject
          simp
      · next hsubject =>
          refine iff_of_false IndexSet.not_mem_empty ?_
          rintro ⟨_, heq, -⟩
          cases heq
          exact hsubject rfl

end GenericConstraint

namespace GenericEnvironment

variable {e e' : GenericEnvironment} {t u : TypeId} {d : IdentOf .traitDecl}

/-- A type is given as equal to `t` once for each constraint that equates the two. -/
theorem count_equivalencesOf (e : GenericEnvironment) (t u : TypeId) :
    (e.equivalencesOf t).count u = e.constraints.countP fun c => c.Equates t u := by
  rw [equivalencesOf, List.count_filterMap]
  refine List.countP_congr fun c _ => ?_
  rw [beq_iff_eq, decide_eq_true_iff, GenericConstraint.equivalentOf?_eq_some_iff]

theorem mem_conformancesOf_iff :
    d ∈ (e.conformancesOf t).toList ↔
      ∃ traits, .conformance t traits ∈ e.constraints ∧ d ∈ traits.toList := by
  rw [conformancesOf, IndexSet.mem_foldl_union_iff, or_iff_right IndexSet.not_mem_empty]
  constructor
  · rintro ⟨c, hc, hd⟩
    obtain ⟨traits, rfl, hmem⟩ := GenericConstraint.mem_conformanceOf_iff.1 hd
    exact ⟨traits, hc, hmem⟩
  · rintro ⟨traits, hc, hd⟩
    exact ⟨_, hc, GenericConstraint.mem_conformanceOf_iff.2 ⟨traits, rfl, hd⟩⟩

/-- What an environment says of types: the answers for two types hold each other equally often,
once for each constraint that equates them. Those for a list of constraints are those for its
parts, one after the other. The traits of a type are those that the constraints on it name, and
they depend on nothing but which constraints there are. -/
theorem answers_of_constraints (e : GenericEnvironment) (t u : TypeId) :
    (e.equivalencesOf t).count u = e.constraints.countP (fun c => c.Equates t u) ∧
      (e.equivalencesOf t).count u = (e.equivalencesOf u).count t ∧
      (∀ l l', { e with constraints := l ++ l' }.equivalencesOf t =
        { e with constraints := l }.equivalencesOf t ++
          { e with constraints := l' }.equivalencesOf t) ∧
      (∀ d, d ∈ (e.conformancesOf t).toList ↔
        ∃ traits, .conformance t traits ∈ e.constraints ∧ d ∈ traits.toList) ∧
      ∀ e' : GenericEnvironment, (∀ c, c ∈ e'.constraints ↔ c ∈ e.constraints) →
        e'.conformancesOf t = e.conformancesOf t := by
  refine ⟨count_equivalencesOf e t u, ?_, fun l l' => List.filterMap_append,
    fun d => mem_conformancesOf_iff, fun e' hsame => IndexSet.ext_mem fun d => ?_⟩
  · rw [count_equivalencesOf, count_equivalencesOf]
    simp only [GenericConstraint.equates_comm]
  · rw [mem_conformancesOf_iff, mem_conformancesOf_iff]
    simp only [hsame]

/-- A type that is equal to itself and to another one, and that conforms to two traits. -/
def selfEqual : GenericEnvironment where
  decl := (IdentOf.ofIndex .functionDecl 6).widen
  parameters := [.ofIndex .genericParameterDecl 4]
  constraints := [.equality ⟨7⟩ ⟨7⟩, .conformance ⟨7⟩ (.ofList [.ofIndex .traitDecl 2]),
    .equality ⟨3⟩ ⟨7⟩, .conformance ⟨7⟩ (.ofList [.ofIndex .traitDecl 2, .ofIndex .traitDecl 0])]

/-- The constraints turned round and said twice. -/
def repeatedSelfEqual : GenericEnvironment :=
  { selfEqual with constraints := selfEqual.constraints.reverse ++ selfEqual.constraints }

theorem answers_of_constraints_selfEqual :
    selfEqual.equivalencesOf ⟨7⟩ = [⟨7⟩, ⟨3⟩] ∧
      (selfEqual.equivalencesOf ⟨7⟩).count ⟨3⟩ = (selfEqual.equivalencesOf ⟨3⟩).count ⟨7⟩ ∧
      (selfEqual.conformancesOf ⟨7⟩).toList = [.ofIndex .traitDecl 0, .ofIndex .traitDecl 2] ∧
      repeatedSelfEqual.conformancesOf ⟨7⟩ = selfEqual.conformancesOf ⟨7⟩ := by
  obtain ⟨-, hsymm, -, -, horder⟩ := answers_of_constraints selfEqual ⟨7⟩ ⟨3⟩
  have hsame (c : GenericConstraint) : c ∈ repeatedSelfEqual.constraints ↔
      c ∈ selfEqual.constraints := by
    simp [repeatedSelfEqual]
  exact ⟨by decide, hsymm, by decide, horder _ hsame⟩

end GenericEnvironment

end TypedTree
