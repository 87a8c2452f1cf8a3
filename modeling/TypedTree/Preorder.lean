/-!
# Listings in preorder

An item comes first, then all below the first of the items that `unfold` gives for it,
then all below the second, and so on. `preorderWithin` says this by recursion on the
number of levels. `preorder` works off one list of the items that are still to come, so
it lists a deep nesting as easily as a wide one; `preorder_eq` says that it gives the
same listing, or fails in the same way.
-/

namespace TypedTree

variable {α ε : Type}

/-- `x` and all below it, in preorder. The listing fails below the given number of
levels. -/
def preorderWithin (unfold : α → Except ε (List α)) (endless : α → ε) :
    Nat → α → Except ε (List α)
  | 0, x => .error (endless x)
  | depth + 1, x => do
    let parts ← unfold x
    let below ← parts.mapM (preorderWithin unfold endless depth)
    return x :: below.flatten

/-- The number of levels left to each of the items that are still to come. -/
structure Agenda where
  levels : List Nat

namespace Agenda

/-- An agenda becomes another when its first item gives way to some with one level
less. -/
def Follows (next now : Agenda) : Prop :=
  ∃ depth rest n, now = ⟨(depth + 1) :: rest⟩ ∧ next = ⟨List.replicate n depth ++ rest⟩

theorem acc_cons {depth : Nat} {rest : List Nat} (h : Acc Follows ⟨rest⟩) :
    Acc Follows ⟨depth :: rest⟩ := by
  induction depth generalizing rest with
  | zero => exact .intro _ fun _ ⟨_, _, _, hnow, _⟩ => by simp at hnow
  | succ depth ih =>
      refine .intro _ ?_
      rintro _ ⟨depth', rest', n, hnow, rfl⟩
      obtain ⟨hdepth, rfl⟩ : depth = depth' ∧ rest = rest' := by simpa using hnow
      subst hdepth
      clear hnow
      induction n with
      | zero => simpa using h
      | succ n ihn => exact ih ihn

/-- However many items take the place of one, an agenda is worked off in the end. -/
theorem acc (a : Agenda) : Acc Follows a := by
  obtain ⟨levels⟩ := a
  induction levels with
  | nil => exact .intro _ fun _ ⟨_, _, _, hnow, _⟩ => by simp at hnow
  | cons depth rest ih => exact acc_cons ih

instance : WellFoundedRelation Agenda := ⟨Follows, ⟨acc⟩⟩

end Agenda

/-- The items in `listed`, the latest first, followed by those of `agenda` and all below
them, each item with its number of levels. -/
def preorderFrom (unfold : α → Except ε (List α)) (endless : α → ε) (listed : List α)
    (agenda : List (Nat × α)) : Except ε (List α) :=
  match agenda with
  | [] => .ok listed.reverse
  | (0, x) :: _ => .error (endless x)
  | (depth + 1, x) :: rest =>
    match unfold x with
    | .error e => .error e
    | .ok parts =>
      preorderFrom unfold endless (x :: listed) (parts.map (fun y => (depth, y)) ++ rest)
termination_by Agenda.mk (agenda.map Prod.fst)
decreasing_by
  exact ⟨depth, rest.map Prod.fst, parts.length, by simp,
    by simp [Function.comp_def, List.map_const']⟩

/-- `x` and all below it, in preorder, as far down as `depth` levels. -/
def preorder (unfold : α → Except ε (List α)) (endless : α → ε) (depth : Nat) (x : α) :
    Except ε (List α) :=
  preorderFrom unfold endless [] [(depth, x)]

section

variable {unfold : α → Except ε (List α)} {endless : α → ε}

theorem preorderFrom_nil (listed : List α) :
    preorderFrom unfold endless listed [] = .ok listed.reverse := by
  rw [preorderFrom]

theorem preorderFrom_zero (listed : List α) (x : α) (rest : List (Nat × α)) :
    preorderFrom unfold endless listed ((0, x) :: rest) = .error (endless x) := by
  rw [preorderFrom]

theorem preorderFrom_succ (listed : List α) (depth : Nat) (x : α) (rest : List (Nat × α)) :
    preorderFrom unfold endless listed ((depth + 1, x) :: rest) =
      unfold x >>= fun parts =>
        preorderFrom unfold endless (x :: listed) (parts.map (fun y => (depth, y)) ++ rest) := by
  rw [preorderFrom]
  cases unfold x <;> rfl

theorem preorderWithin_zero (x : α) :
    preorderWithin unfold endless 0 x = .error (endless x) := rfl

theorem preorderWithin_succ (depth : Nat) (x : α) :
    preorderWithin unfold endless (depth + 1) x = do
      let parts ← unfold x
      let below ← parts.mapM (preorderWithin unfold endless depth)
      return x :: below.flatten := rfl

/-- The first item of an agenda is listed with all below it before the others come. -/
theorem preorderFrom_cons (listed : List α) (depth : Nat) (x : α) (rest : List (Nat × α)) :
    preorderFrom unfold endless listed ((depth, x) :: rest) =
      preorderWithin unfold endless depth x >>= fun below =>
        preorderFrom unfold endless (below.reverse ++ listed) rest := by
  induction depth generalizing listed x rest with
  | zero => rw [preorderFrom_zero]; rfl
  | succ depth ih =>
      have hparts (parts : List α) (listed : List α) :
          preorderFrom unfold endless listed (parts.map (fun y => (depth, y)) ++ rest) =
            parts.mapM (preorderWithin unfold endless depth) >>= fun below =>
              preorderFrom unfold endless (below.flatten.reverse ++ listed) rest := by
        induction parts generalizing listed with
        | nil => simp
        | cons y parts ihparts => simp [ih, ihparts, List.mapM_cons, bind_assoc]
      rw [preorderFrom_succ, preorderWithin_succ]
      cases unfold x with
      | error e => rfl
      | ok parts => simp [bind_assoc, hparts]

/-- Both ways to list what is below an item agree. -/
theorem preorder_eq (depth : Nat) (x : α) :
    preorder unfold endless depth x = preorderWithin unfold endless depth x := by
  rw [preorder, preorderFrom_cons]
  cases preorderWithin unfold endless depth x with
  | error e => rfl
  | ok below => simp [preorderFrom_nil, bind, Except.bind]

end

end TypedTree
