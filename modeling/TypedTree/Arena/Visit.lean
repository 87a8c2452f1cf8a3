import TypedTree.Arena.Basic
import TypedTree.Preorder

/-!
# Walks

A walk visits a node, then its children one after another, and so on below each
of them. What is known at a node is handed down: `enter c id` is what the
children of `id` are visited with if `id` is visited with `c`, and no children are
visited where it is `none`. `visits` allows a walk as many levels as there are nodes,
which only a node below itself can exhaust; `visitsWithin` says by recursion what a walk
of so many levels gives (`visits_eq`). `walk` and `walkAll` are the walks that hand
nothing down and stop at chosen kinds.
-/

namespace TypedTree

namespace Arena

variable {γ : Type}

/-- The visits to the children of the node visited, each with what is handed down. -/
def visitsOf (a : Arena) (enter : γ → NodeId → Option γ) (visit : γ × NodeId) :
    Except Fault (List (γ × NodeId)) :=
  match enter visit.1 visit.2 with
  | none => .ok []
  | some inner => (a.children visit.2).map (·.map fun child => (inner, child))

def visits (a : Arena) (enter : γ → NodeId → Option γ) (c : γ) (id : NodeId) :
    Except Fault (List (γ × NodeId)) :=
  preorder (a.visitsOf enter) (fun visit => .endlessWalk visit.2) (a.size + 1) (c, id)

/-- The visits at and below `id`, each with what was handed down to it, in the
order of the walk. The walk fails below the given number of levels. -/
def visitsWithin (a : Arena) (enter : γ → NodeId → Option γ) (depth : Nat) (c : γ)
    (id : NodeId) : Except Fault (List (γ × NodeId)) :=
  preorderWithin (a.visitsOf enter) (fun visit => .endlessWalk visit.2) depth (c, id)

/-- The visits below `id`, each child of which is visited with `c`. -/
def visitsBelow (a : Arena) (enter : γ → NodeId → Option γ) (c : γ) (id : NodeId) :
    Except Fault (List (γ × NodeId)) := do
  let below ← (← a.children id).mapM (a.visits enter c)
  return below.flatten

/-- Hands nothing down, and goes no further than a node that `stop` holds of. -/
def stopAt (stop : NodeId → Bool) (_ : Unit) (id : NodeId) : Option Unit :=
  if stop id then none else some ()

/-- The node `id` and those below it, in the order of a walk that goes no further than
where `stop` holds. -/
def walk (a : Arena) (stop : NodeId → Bool) (id : NodeId) : Except Fault (List NodeId) :=
  (a.visits (stopAt stop) () id).map (·.map Prod.snd)

/-- The modules, each with the nodes below it, in the order of a walk that goes no
further than where `stop` holds. -/
def walkAll (a : Arena) (stop : NodeId → Bool) : Except Fault (List NodeId) := do
  let walks ← a.modules.mapM fun m => a.walk stop m.toAny
  return walks.flatten

theorem visits_eq (a : Arena) (enter : γ → NodeId → Option γ) (c : γ) (id : NodeId) :
    a.visits enter c id = a.visitsWithin enter (a.size + 1) c id :=
  preorder_eq _ _

theorem visits_eq_visitsWithin (a : Arena) (enter : γ → NodeId → Option γ) :
    a.visits enter = a.visitsWithin enter (a.size + 1) := by
  funext c id
  exact a.visits_eq enter c id

theorem visitsWithin_zero (a : Arena) (enter : γ → NodeId → Option γ) (c : γ)
    (id : NodeId) : a.visitsWithin enter 0 c id = .error (.endlessWalk id) := rfl

theorem visitsWithin_of_enter_eq_none {a : Arena} {enter : γ → NodeId → Option γ} {c : γ}
    {id : NodeId} (h : enter c id = none) (depth : Nat) :
    a.visitsWithin enter (depth + 1) c id = .ok [(c, id)] := by
  simp only [visitsWithin, preorderWithin_succ, visitsOf, h]
  rfl

theorem visitsWithin_of_enter_eq_some {a : Arena} {enter : γ → NodeId → Option γ}
    {c inner : γ} {id : NodeId} (h : enter c id = some inner) (depth : Nat) :
    a.visitsWithin enter (depth + 1) c id = do
      let below ← (← a.children id).mapM (a.visitsWithin enter depth inner)
      return (c, id) :: below.flatten := by
  simp only [visitsWithin, preorderWithin_succ, visitsOf, h]
  cases a.children id with
  | error e => rfl
  | ok children =>
      simp only [Except.map, bind, Except.bind, List.mapM_map, Function.comp_def]
      rfl

end Arena

end TypedTree
