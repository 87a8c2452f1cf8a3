/-!
# Calls one after another

`calls step s xs` calls `step` for each of `xs`, each time on the state that the call before
left. It gives a log, in which each of `xs` stands with what its call returned, and the state
in the end. The log of a longer run starts with that of a shorter one (`calls_append`), and
what each call brings about and no call undoes holds of the whole log (`forall_mem_calls`).
-/

namespace TypedTree

variable {σ α ρ : Type} {step : σ → α → ρ × σ} {s : σ} {x : α} {xs : List α}

/-- Calls of `step` one after another, with what each returned, and the state that they
leave. -/
def calls (step : σ → α → ρ × σ) (s : σ) : List α → List (α × ρ) × σ
  | [] => ([], s)
  | x :: xs =>
    let (r, s) := step s x
    let (log, s) := calls step s xs
    ((x, r) :: log, s)

theorem calls_cons :
    calls step s (x :: xs) =
      ((x, (step s x).1) :: (calls step (step s x).2 xs).1, (calls step (step s x).2 xs).2) :=
  rfl

theorem calls_append (ys : List α) :
    calls step s (xs ++ ys) =
      ((calls step s xs).1 ++ (calls step (calls step s xs).2 ys).1,
        (calls step (calls step s xs).2 ys).2) := by
  induction xs generalizing s with
  | nil => rfl
  | cons x xs ih => rw [List.cons_append, calls_cons, ih, calls_cons, List.cons_append]

theorem calls_invariant {P : σ → Prop} (hstep : ∀ s x, P s → P (step s x).2) (hs : P s) :
    P (calls step s xs).2 := by
  induction xs generalizing s with
  | nil => exact hs
  | cons x xs ih => exact ih (hstep s x hs)

theorem forall_mem_calls {P : α × ρ → σ → Prop} (hcall : ∀ s x, P (x, (step s x).1) (step s x).2)
    (hkeep : ∀ c s x, P c s → P c (step s x).2) :
    ∀ c ∈ (calls step s xs).1, P c (calls step s xs).2 := by
  induction xs generalizing s with
  | nil => exact fun c hc => absurd hc List.not_mem_nil
  | cons x xs ih =>
      rw [calls_cons]
      exact List.forall_mem_cons.2 ⟨calls_invariant (hkeep _) (hcall s x), ih⟩

end TypedTree
